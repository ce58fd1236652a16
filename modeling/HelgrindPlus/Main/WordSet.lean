import HelgrindPlus.LibHB.VtsTab
import Mathlib.Data.Finset.SDiff
import Mathlib.Data.Finset.Basic
import Mathlib.Data.Finset.Card
import Mathlib.Data.List.TakeWhile

/-!
# Sets of words

`hg_wordset.c`: sets of words are kept as sorted vectors, each vector is
stored once, and a set is known by the index of its vector.  Four of the
operations remember their latest results in caches.

A `WordSet` has 32 bits in the code and is a natural number here.  The table
doubles its size in 32 bits as well; the vectors of a table too large for
that do not fit into the 32G that the address space manager gives out.
-/

namespace HelgrindPlus

open Outcome

structure WCacheEnt where
  arg1 : Nat
  arg2 : Nat
  res : Nat
  deriving DecidableEq, Repr

/-- The entries in use, of which there are at most `dynMax`. -/
structure WCache where
  ent : List WCacheEnt
  dynMax : Nat
  deriving DecidableEq, Repr

namespace WCache

def nWCacheStatMax : Nat := 32

/-- `WCache_INIT`. -/
def init (dynMax : Nat) : Except Abort WCache := do
  tlAssert (dynMax ≥ 1)
  tlAssert (dynMax ≤ nWCacheStatMax)
  pure ⟨[], dynMax⟩

def sanityCheck (cache : WCache) : Except Abort Unit := do
  tlAssert (cache.dynMax ≥ 1)
  tlAssert (cache.dynMax ≤ nWCacheStatMax)
  tlAssert (cache.ent.length ≤ cache.dynMax)

/-- The loop of the lookup from its second entry on.  An entry that is found
changes places with the one before it. -/
def lookupFrom (arg1 arg2 : Nat) (previous : WCacheEnt) :
    List WCacheEnt → Option (List WCacheEnt × Nat)
  | [] => none
  | ent :: rest =>
      if ent.arg1 = arg1 ∧ ent.arg2 = arg2 then
        some (ent :: previous :: rest, ent.res)
      else
        (lookupFrom arg1 arg2 ent rest).map fun found =>
          (previous :: found.1, found.2)

/-- `WCache_LOOKUP_AND_RETURN`. -/
def lookup (cache : WCache) (arg1 arg2 : Nat) :
    Except Abort (Option (WCache × Nat)) := do
  cache.sanityCheck
  match cache.ent with
  | [] => pure none
  | ent :: rest =>
      if ent.arg1 = arg1 ∧ ent.arg2 = arg2 then pure (some (cache, ent.res))
      else pure ((lookupFrom arg1 arg2 ent rest).map fun found =>
        ({ cache with ent := found.1 }, found.2))

/-- `WCache_UPDATE` shifts the entries and forgets the last one of a full
cache. -/
def update (cache : WCache) (arg1 arg2 res : Nat) : Except Abort WCache := do
  cache.sanityCheck
  pure { cache with
    ent := (⟨arg1, arg2, res⟩ :: cache.ent).take cache.dynMax }

end WCache

namespace WordVec

/-- `cmp_WordVecs_for_FM`. -/
def cmpForFM : List Nat → List Nat → Int
  | [], [] => 0
  | [], _ :: _ => -1
  | _ :: _, [] => 1
  | w1 :: rest1, w2 :: rest2 =>
      if w1 = w2 then cmpForFM rest1 rest2
      else if w1 < w2 then -1
      else 1

/-- Which words a merge of two vectors keeps: those of the first one alone,
those of the second one alone, and those of both. -/
structure MergeRule where
  first : Bool
  second : Bool
  both : Bool

namespace MergeRule

variable (rule : MergeRule)

/-- The first pass over a nonempty first vector; `next` is the pass over the
rest of it. -/
def sizeFrom (w1 : Nat) (rest1 : List Nat) (next : List Nat → Nat) :
    List Nat → Nat
  | [] => if rule.first then (w1 :: rest1).length else 0
  | w2 :: rest2 =>
      if w1 < w2 then (if rule.first then 1 else 0) + next (w2 :: rest2)
      else if w1 > w2 then
        (if rule.second then 1 else 0) + sizeFrom w1 rest1 next rest2
      else (if rule.both then 1 else 0) + next rest2

/-- The first pass counts the words. -/
def size : List Nat → List Nat → Nat
  | [], wv2 => if rule.second then wv2.length else 0
  | w1 :: rest1, wv2 => rule.sizeFrom w1 rest1 (size rest1) wv2

/-- The second pass over a nonempty first vector. -/
def fillFrom (w1 : Nat) (rest1 : List Nat) (next : List Nat → List Nat) :
    List Nat → List Nat
  | [] => if rule.first then w1 :: rest1 else []
  | w2 :: rest2 =>
      if w1 < w2 then (if rule.first then [w1] else []) ++ next (w2 :: rest2)
      else if w1 > w2 then
        (if rule.second then [w2] else []) ++ fillFrom w1 rest1 next rest2
      else (if rule.both then [w1] else []) ++ next rest2

/-- The second pass stores them. -/
def fill : List Nat → List Nat → List Nat
  | [], wv2 => if rule.second then wv2 else []
  | w1 :: rest1, wv2 => rule.fillFrom w1 rest1 (fill rest1) wv2

end MergeRule

def unionRule : MergeRule := ⟨true, true, true⟩

def intersectRule : MergeRule := ⟨false, false, true⟩

def minusRule : MergeRule := ⟨true, false, false⟩

end WordVec

/-- The fields `cache_addTo`, `cache_delFrom`, `cache_intersect` and
`cache_minus` of a universe. -/
inductive CacheField where
  | addTo | delFrom | intersect | minus
  deriving DecidableEq, Repr

/-- A universe of sets.  `vec2ix` is the inverse of `ix2vec`. -/
structure WordSetU where
  vec2ix : List (List Nat × Nat)
  ix2vec : List (List Nat)
  ix2vecSize : Nat
  empty : Nat
  caches : CacheField → WCache

namespace WordSetU

def ensureIx2vecSpace (wsu : WordSetU) : Except Abort WordSetU := do
  tlAssert (wsu.ix2vec.length ≤ wsu.ix2vecSize)
  if wsu.ix2vec.length < wsu.ix2vecSize then pure wsu
  else
    let newSz := 2 * wsu.ix2vecSize
    pure { wsu with ix2vecSize := if newSz = 0 then 2 else newSz }

def doIx2vec (wsu : WordSetU) (ws : Nat) : Except Abort (List Nat) := do
  tlAssert (wsu.ix2vec.length ≤ wsu.ix2vecSize)
  match wsu.ix2vec[ws]? with
  | none => .error .tlAssert
  | some wv => .ok wv

/-- `VG_(lookupFM)` on `vec2ix`. -/
def lookupFM (wsu : WordSetU) (wv : List Nat) : Option (List Nat × Nat) :=
  wsu.vec2ix.find? fun entry => WordVec.cmpForFM wv entry.1 = 0

def addOrDeallocWordVec (wsu : WordSetU) (wvNew : List Nat) :
    Except Abort (WordSetU × Nat) :=
  match wsu.lookupFM wvNew with
  | some (wvOld, ixOld) => do
      tlAssert (ixOld < wsu.ix2vec.length)
      tlAssert (wsu.ix2vec[ixOld]? = some wvOld)
      pure (wsu, ixOld)
  | none => do
      let wsu ← wsu.ensureIx2vecSpace
      tlAssert (wsu.ix2vec.length < wsu.ix2vecSize)
      let used := wsu.ix2vec.length
      let wsu := { wsu with
        ix2vec := wsu.ix2vec ++ [wvNew]
        vec2ix := (wvNew, used) :: wsu.vec2ix }
      tlAssert (wsu.ix2vec.length ≤ wsu.ix2vecSize)
      pure (wsu, wsu.ix2vec.length - 1)

def newWordSetU (cacheSize : Nat) : Except Abort WordSetU := do
  -- WCache_INIT of each of the four caches
  let cache ← WCache.init cacheSize
  let (wsu, empty) ← addOrDeallocWordVec ⟨[], [], 0, 0, fun _ => cache⟩ []
  pure { wsu with empty := empty }

def emptyWS (wsu : WordSetU) : Nat := wsu.empty

def isEmptyWS (wsu : WordSetU) (ws : Nat) : Except Abort Bool := do
  let wv ← wsu.doIx2vec ws
  if wv.length = 0 then do
    tlAssert (ws = wsu.empty)
    pure true
  else do
    tlAssert (ws ≠ wsu.empty)
    pure false

def isSingletonWS (wsu : WordSetU) (ws w : Nat) : Except Abort Bool := do
  let wv ← wsu.doIx2vec ws
  pure (wv.length = 1 ∧ wv[0]? = some w)

def cardinalityWS (wsu : WordSetU) (ws : Nat) : Except Abort Nat := do
  let wv ← wsu.doIx2vec ws
  pure wv.length

def getPayloadWS (wsu : WordSetU) (ws : Nat) : Except Abort (List Nat) :=
  wsu.doIx2vec ws

def elemWS (wsu : WordSetU) (ws w : Nat) : Except Abort Bool := do
  let wv ← wsu.doIx2vec ws
  pure (wv.contains w)

def doubletonWS (wsu : WordSetU) (w1 w2 : Nat) :
    Except Abort (WordSetU × Nat) :=
  if w1 = w2 then wsu.addOrDeallocWordVec [w1]
  else if w1 < w2 then wsu.addOrDeallocWordVec [w1, w2]
  else do
    tlAssert (w1 > w2)
    wsu.addOrDeallocWordVec [w2, w1]

def singletonWS (wsu : WordSetU) (w : Nat) : Except Abort (WordSetU × Nat) :=
  wsu.doubletonWS w w

def setCache (wsu : WordSetU) (field : CacheField) (cache : WCache) :
    WordSetU :=
  { wsu with caches := Function.update wsu.caches field cache }

/-- An operation that looks into a cache first and, if its arguments are not
there, notes its result. -/
def cached (field : CacheField) (wsu : WordSetU) (arg1 arg2 : Nat)
    (compute : Except Abort (WordSetU × Nat)) :
    Except Abort (WordSetU × Nat) := do
  match ← (wsu.caches field).lookup arg1 arg2 with
  | some (cache, res) => pure (wsu.setCache field cache, res)
  | none => do
      let (wsu, result) ← compute
      let cache ← (wsu.caches field).update arg1 arg2 result
      pure (wsu.setCache field cache, result)

/-- The part of `HG_(addToWS)` behind its cache. -/
def addToUncached (wsu : WordSetU) (ws w : Nat) :
    Except Abort (WordSetU × Nat) := do
  let wv ← wsu.doIx2vec ws
  if w ∈ wv then pure (wsu, ws)
  else do
    let above := wv.dropWhile (· < w)
    tlAssert (∀ word ∈ above, word > w)
    let wvNew := wv.takeWhile (· < w) ++ w :: above
    tlAssert (wvNew.length = wv.length + 1)
    wsu.addOrDeallocWordVec wvNew

def addToWS (wsu : WordSetU) (ws w : Nat) :
    Except Abort (WordSetU × Nat) :=
  wsu.cached .addTo ws w (wsu.addToUncached ws w)

/-- The part of `HG_(delFromWS)` behind its cache. -/
def delFromUncached (wsu : WordSetU) (ws w : Nat) (wv : List Nat) :
    Except Abort (WordSetU × Nat) :=
  let i := wv.idxOf w
  if i = wv.length then .ok (wsu, ws)
  else do
    tlAssert (i < wv.length)
    tlAssert (wv.length > 0)
    let wvNew := wv.eraseIdx i
    tlAssert (wvNew.length = wv.length - 1)
    let (wsu, result) ← wsu.addOrDeallocWordVec wvNew
    tlAssert (wv.length = 1 → result = wsu.empty)
    pure (wsu, result)

def delFromWS (wsu : WordSetU) (ws w : Nat) :
    Except Abort (WordSetU × Nat) := do
  let wv ← wsu.doIx2vec ws
  -- special case empty set
  if wv.length = 0 then do
    tlAssert (ws = wsu.empty)
    pure (wsu, ws)
  else wsu.cached .delFrom ws w (wsu.delFromUncached ws w wv)

/-- The two passes over the vectors of two sets, and the size that the first
one found. -/
def mergeWS (rule : WordVec.MergeRule) (wsu : WordSetU) (ws1 ws2 : Nat) :
    Except Abort (WordSetU × Nat × Nat) := do
  let wv1 ← wsu.doIx2vec ws1
  let wv2 ← wsu.doIx2vec ws2
  let sz := rule.size wv1 wv2
  let wvNew := rule.fill wv1 wv2
  tlAssert (wvNew.length = sz)
  let (wsu, wsNew) ← wsu.addOrDeallocWordVec wvNew
  pure (wsu, wsNew, sz)

def unionWS (wsu : WordSetU) (ws1 ws2 : Nat) :
    Except Abort (WordSetU × Nat) := do
  let (wsu, wsNew, _) ← mergeWS WordVec.unionRule wsu ws1 ws2
  pure (wsu, wsNew)

/-- A merge of which the result is checked if it is empty. -/
def mergeChecked (rule : WordVec.MergeRule) (wsu : WordSetU)
    (ws1 ws2 : Nat) : Except Abort (WordSetU × Nat) := do
  let (wsu, wsNew, sz) ← mergeWS rule wsu ws1 ws2
  tlAssert (sz = 0 → wsNew = wsu.empty)
  pure (wsu, wsNew)

/-- Intersection of two different sets, the smaller index first. -/
def intersectOrdered (wsu : WordSetU) (ws1 ws2 : Nat) :
    Except Abort (WordSetU × Nat) :=
  wsu.cached .intersect ws1 ws2
    (mergeChecked WordVec.intersectRule wsu ws1 ws2)

def intersectWS (wsu : WordSetU) (ws1 ws2 : Nat) :
    Except Abort (WordSetU × Nat) :=
  if ws1 = ws2 then .ok (wsu, ws1)
  else if ws1 > ws2 then wsu.intersectOrdered ws2 ws1
  else wsu.intersectOrdered ws1 ws2

def minusWS (wsu : WordSetU) (ws1 ws2 : Nat) :
    Except Abort (WordSetU × Nat) :=
  wsu.cached .minus ws1 ws2 (mergeChecked WordVec.minusRule wsu ws1 ws2)

def isSubsetOf (wsu : WordSetU) (small big : Nat) :
    Except Abort (WordSetU × Bool) := do
  let (wsu, common) ← wsu.intersectWS small big
  pure (wsu, small = common)

end WordSetU

namespace WordVec

abbrev Sorted (wv : List Nat) : Prop := wv.Pairwise (· < ·)

theorem cmpForFM_eq_zero_iff {wv1 wv2 : List Nat} :
    cmpForFM wv1 wv2 = 0 ↔ wv1 = wv2 := by
  induction wv1 generalizing wv2 with
  | nil => cases wv2 <;> simp [cmpForFM]
  | cons w1 rest1 induction =>
      cases wv2 with
      | nil => simp [cmpForFM]
      | cons w2 rest2 =>
          simp only [cmpForFM, List.cons.injEq]
          split
          case isTrue same => simp [same, induction]
          case isFalse different =>
            split <;> simp [different]

/-- Two sorted vectors of the same words are equal. -/
theorem Sorted.eq_of_toFinset_eq {wv1 wv2 : List Nat} (sorted1 : Sorted wv1)
    (sorted2 : Sorted wv2) (same : wv1.toFinset = wv2.toFinset) :
    wv1 = wv2 := by
  have nodup1 : wv1.Nodup := sorted1.imp fun less => Nat.ne_of_lt less
  have nodup2 : wv2.Nodup := sorted2.imp fun less => Nat.ne_of_lt less
  have perm : wv1.Perm wv2 :=
    List.perm_of_nodup_nodup_toFinset_eq nodup1 nodup2 same
  exact perm.eq_of_pairwise (fun _ _ _ _ less more => absurd less
    (Nat.lt_asymm more)) sorted1 sorted2

namespace MergeRule

variable {rule : MergeRule} {wv1 wv2 : List Nat}

private theorem length_fillFrom {w1 : Nat} {rest1 : List Nat}
    {next : List Nat → List Nat} {nextSize : List Nat → Nat}
    (agree : ∀ wv2, (next wv2).length = nextSize wv2) :
    (rule.fillFrom w1 rest1 next wv2).length =
      rule.sizeFrom w1 rest1 nextSize wv2 := by
  induction wv2 with
  | nil =>
      simp only [fillFrom, sizeFrom]
      split <;> rfl
  | cons w2 rest2 induction =>
      simp only [fillFrom, sizeFrom]
      split
      · split <;> simp [agree, Nat.add_comm]
      · split
        · split <;> simp [induction, Nat.add_comm]
        · split <;> simp [agree, Nat.add_comm]

/-- The two passes agree. -/
theorem length_fill : (rule.fill wv1 wv2).length = rule.size wv1 wv2 := by
  induction wv1 generalizing wv2 with
  | nil =>
      simp only [fill, size]
      split <;> rfl
  | cons w1 rest1 induction =>
      exact length_fillFrom fun wv2 => induction

/-- The words that the rule keeps. -/
def Keeps (rule : MergeRule) (wv1 wv2 : List Nat) (w : Nat) : Prop :=
  (w ∈ wv1 ∧ w ∉ wv2 ∧ rule.first = true) ∨
  (w ∉ wv1 ∧ w ∈ wv2 ∧ rule.second = true) ∨
  (w ∈ wv1 ∧ w ∈ wv2 ∧ rule.both = true)

private theorem mem_fillFrom {w1 : Nat} {rest1 : List Nat}
    {next : List Nat → List Nat} (sorted1 : Sorted (w1 :: rest1))
    (sorted2 : Sorted wv2)
    (keeps : ∀ {wv2}, Sorted wv2 →
      ∀ w, w ∈ next wv2 ↔ rule.Keeps rest1 wv2 w) (w : Nat) :
    w ∈ rule.fillFrom w1 rest1 next wv2 ↔
      rule.Keeps (w1 :: rest1) wv2 w := by
  have above1 : ∀ other ∈ rest1, w1 < other := (List.pairwise_cons.mp sorted1).1
  induction wv2 with
  | nil =>
      simp only [fillFrom, Keeps]
      split <;> simp_all
  | cons w2 rest2 induction =>
      obtain ⟨above2, sortedRest⟩ := List.pairwise_cons.mp sorted2
      simp only [fillFrom]
      split
      case isTrue less =>
        rw [List.mem_append, keeps sorted2]
        grind [Keeps]
      case isFalse notLess =>
        split
        case isTrue more =>
          have later : w ∈ rule.fillFrom w1 rest1 next rest2 ↔
              rule.Keeps (w1 :: rest1) rest2 w := induction sortedRest
          rw [List.mem_append, later]
          grind [Keeps]
        case isFalse notMore =>
          rw [List.mem_append, keeps sortedRest]
          grind [Keeps]

theorem mem_fill (sorted1 : Sorted wv1) (sorted2 : Sorted wv2) (w : Nat) :
    w ∈ rule.fill wv1 wv2 ↔ rule.Keeps wv1 wv2 w := by
  induction wv1 generalizing wv2 w with
  | nil =>
      simp only [fill, Keeps]
      split <;> simp_all
  | cons w1 rest1 induction =>
      exact mem_fillFrom sorted1 sorted2
        (fun sorted w => induction sorted1.of_cons sorted w) w

private theorem sorted_fillFrom {w1 : Nat} {rest1 : List Nat}
    {next : List Nat → List Nat} (sorted1 : Sorted (w1 :: rest1))
    (sorted2 : Sorted wv2)
    (keeps : ∀ {wv2}, Sorted wv2 →
      ∀ w, w ∈ next wv2 ↔ rule.Keeps rest1 wv2 w)
    (sorted : ∀ {wv2}, Sorted wv2 → Sorted (next wv2)) :
    Sorted (rule.fillFrom w1 rest1 next wv2) := by
  have above1 : ∀ other ∈ rest1, w1 < other := (List.pairwise_cons.mp sorted1).1
  induction wv2 with
  | nil =>
      simp only [fillFrom]
      split
      · exact sorted1
      · exact List.Pairwise.nil
  | cons w2 rest2 induction =>
      obtain ⟨above2, sortedRest⟩ := List.pairwise_cons.mp sorted2
      have member := mem_fillFrom sorted1 sortedRest keeps
      simp only [fillFrom]
      -- the word in front is less than every word that is still to come
      split
      case isTrue less =>
        refine List.pairwise_append.mpr ⟨by split <;> simp, sorted sorted2, ?_⟩
        intro front isFront w later
        rw [keeps sorted2] at later
        grind [Keeps]
      case isFalse notLess =>
        split
        case isTrue more =>
          refine List.pairwise_append.mpr
            ⟨by split <;> simp, induction sortedRest, ?_⟩
          intro front isFront w later
          rw [member] at later
          grind [Keeps]
        case isFalse notMore =>
          refine List.pairwise_append.mpr
            ⟨by split <;> simp, sorted sortedRest, ?_⟩
          intro front isFront w later
          rw [keeps sortedRest] at later
          grind [Keeps]

theorem sorted_fill (sorted1 : Sorted wv1) (sorted2 : Sorted wv2) :
    Sorted (rule.fill wv1 wv2) := by
  induction wv1 generalizing wv2 with
  | nil =>
      simp only [fill]
      split
      · exact sorted2
      · exact List.Pairwise.nil
  | cons w1 rest1 induction =>
      exact sorted_fillFrom sorted1 sorted2
        (fun sorted w => mem_fill sorted1.of_cons sorted w)
        (fun sorted => induction sorted1.of_cons sorted)

/-- What a merge does to the sets of words. -/
def onSets (rule : MergeRule) (set1 set2 : Finset Nat) : Finset Nat :=
  (set1 ∪ set2).filter fun w =>
    (w ∈ set1 ∧ w ∉ set2 ∧ rule.first = true) ∨
    (w ∉ set1 ∧ w ∈ set2 ∧ rule.second = true) ∨
    (w ∈ set1 ∧ w ∈ set2 ∧ rule.both = true)

theorem toFinset_fill (sorted1 : Sorted wv1) (sorted2 : Sorted wv2) :
    (rule.fill wv1 wv2).toFinset =
      rule.onSets wv1.toFinset wv2.toFinset := by
  ext w
  simp only [List.mem_toFinset, mem_fill sorted1 sorted2, Keeps, onSets,
    Finset.mem_filter, Finset.mem_union]
  tauto

end MergeRule

theorem unionRule_onSets (set1 set2 : Finset Nat) :
    unionRule.onSets set1 set2 = set1 ∪ set2 := by
  ext w
  simp only [MergeRule.onSets, unionRule, Finset.mem_filter, Finset.mem_union]
  tauto

theorem intersectRule_onSets (set1 set2 : Finset Nat) :
    intersectRule.onSets set1 set2 = set1 ∩ set2 := by
  ext w
  simp only [MergeRule.onSets, intersectRule, Finset.mem_filter,
    Finset.mem_union, Finset.mem_inter]
  tauto

theorem minusRule_onSets (set1 set2 : Finset Nat) :
    minusRule.onSets set1 set2 = set1 \ set2 := by
  ext w
  simp only [MergeRule.onSets, minusRule, Finset.mem_filter, Finset.mem_union,
    Finset.mem_sdiff]
  tauto

section Insertion

variable {wv : List Nat} {w : Nat}

theorem above_of_dropWhile (sorted : Sorted wv) (absent : w ∉ wv) :
    ∀ word ∈ wv.dropWhile (· < w), w < word := by
  induction wv with
  | nil => simp
  | cons here rest induction =>
      obtain ⟨above, sortedRest⟩ := List.pairwise_cons.mp sorted
      have different : w ≠ here := fun same => absent (by simp [same])
      have absentRest : w ∉ rest := fun member => absent (by simp [member])
      rw [List.dropWhile_cons]
      split
      · exact induction sortedRest absentRest
      case isFalse notLess =>
        have more : w < here := by simp at notLess; omega
        intro word member
        rcases List.mem_cons.mp member with rfl | later
        · exact more
        · exact more.trans (above word later)

theorem sorted_insert (sorted : Sorted wv) (absent : w ∉ wv) :
    Sorted (wv.takeWhile (· < w) ++ w :: wv.dropWhile (· < w)) := by
  have above := above_of_dropWhile sorted absent
  have below : ∀ word ∈ wv.takeWhile (· < w), word < w := by
    intro word member
    simpa using List.mem_takeWhile_imp member
  refine List.pairwise_append.mpr ⟨sorted.sublist (List.takeWhile_sublist _),
    List.pairwise_cons.mpr ⟨above, sorted.sublist
      (List.dropWhile_sublist _)⟩, ?_⟩
  intro word early other late
  rcases List.mem_cons.mp late with rfl | later
  · exact below word early
  · exact (below word early).trans (above other later)

theorem toFinset_insert :
    (wv.takeWhile (· < w) ++ w :: wv.dropWhile (· < w)).toFinset =
      insert w wv.toFinset := by
  ext word
  have parts : word ∈ wv ↔ word ∈ wv.takeWhile (· < w) ∨
      word ∈ wv.dropWhile (· < w) := by
    rw [← List.mem_append, List.takeWhile_append_dropWhile]
  simp only [List.mem_toFinset, List.mem_append, List.mem_cons,
    Finset.mem_insert, parts]
  tauto

theorem toFinset_eraseIdx (sorted : Sorted wv) :
    (wv.eraseIdx (wv.idxOf w)).toFinset = wv.toFinset.erase w := by
  have nodup : wv.Nodup := sorted.imp fun less => Nat.ne_of_lt less
  rw [← List.erase_eq_eraseIdx_of_idxOf rfl]
  ext word
  simp [nodup.mem_erase_iff]

end Insertion
end WordVec

end HelgrindPlus
