import HelgrindPlus.Lib.Outcome
import HelgrindPlus.LibHB.Vts
import Mathlib.Data.List.AList
import Mathlib.Data.Multiset.Count
import Mathlib.Data.Multiset.AddSub

/-!
# The table of vector timestamps

The sections "VTS set", "VTS table" and "Vts IDs" of `libhb_core.c`.  A
`VtsID` is a position in `vts_tab`; `VtsID_INVALID` is `none`.  A timestamp
object is identified with its contents, so its field `id` is what the set
`vts_set` stores for those contents.
-/

namespace HelgrindPlus

open Outcome

/-- The checks that stop the tool: the range check of `VG_(indexXA)`, the
tests of an entry by `VtsID__rcinc` and `VtsID__rcdec`, and any other
`tl_assert`.  `dangling` is a call with an address that the caller does not
own, for which the code promises nothing. -/
inductive Abort where
  | indexXA | vtsNull | rcSnafu | tlAssert | dangling
  deriving DecidableEq, Repr

def tlAssert (condition : Prop) [Decidable condition] : Except Abort Unit :=
  if condition then .ok () else .error .tlAssert

theorem tlAssert_of {condition : Prop} [Decidable condition]
    (holds : condition) : tlAssert condition = .ok () :=
  if_pos holds

theorem tlAssert_of_not {condition : Prop} [Decidable condition]
    (fails : ¬ condition) : tlAssert condition = .error .tlAssert :=
  if_neg fails

theorem tlAssert_eq_ok {condition : Prop} [Decidable condition] {done : Unit}
    (passed : tlAssert condition = .ok done) : condition := by
  unfold tlAssert at passed
  split at passed
  · assumption
  · cases passed

structure VtsTE where
  vts : Option VTS
  rc : Nat
  freelink : Option Nat
  deriving DecidableEq

structure OrderingEnt where
  vi1 : Nat
  vi2 : Nat
  ord : POrd
  deriving DecidableEq

structure JoinEnt where
  vi1 : Nat
  vi2 : Nat
  res : Nat
  deriving DecidableEq

structure VtsTab where
  vtsSet : AList (fun _ : VTS => Nat)
  vtsTab : List VtsTE
  freelist : Option Nat
  nextGCAt : Nat
  getOrderingCache : Nat → Option OrderingEnt
  join2Cache : Nat → Option JoinEnt

namespace VtsTab

def init : VtsTab where
  vtsSet := ∅
  vtsTab := []
  freelist := none
  nextGCAt := 1000
  getOrderingCache := fun _ => none
  join2Cache := fun _ => none

def indexXA (tab : VtsTab) (ii : Nat) : Except Abort VtsTE :=
  match tab.vtsTab[ii]? with
  | some te => .ok te
  | none => .error .indexXA

def setEntry (tab : VtsTab) (ii : Nat) (te : VtsTE) : VtsTab :=
  { tab with vtsTab := tab.vtsTab.set ii te }

def addToFreeList (tab : VtsTab) (ii : Nat) : Except Abort VtsTab := do
  let ie ← tab.indexXA ii
  tlAssert (ie.vts = none)
  tlAssert (ie.rc = 0)
  tlAssert (ie.freelink = none)
  pure { tab.setEntry ii { ie with freelink := tab.freelist } with
    freelist := some ii }

def getFromFreeList (tab : VtsTab) : Except Abort (VtsTab × Option Nat) :=
  match tab.freelist with
  | none => .ok (tab, none)
  | some ii => do
      let ie ← tab.indexXA ii
      tlAssert (ie.vts = none)
      tlAssert (ie.rc = 0)
      pure ({ tab with freelist := ie.freelink }, some ii)

def getNewVtsID (tab : VtsTab) : Except Abort (VtsTab × Nat) := do
  let (tab, found) ← tab.getFromFreeList
  match found with
  | some ii => pure (tab, ii)
  | none =>
      pure ({ tab with vtsTab := tab.vtsTab ++ [⟨none, 0, none⟩] },
        tab.vtsTab.length)

def rcinc (tab : VtsTab) (ii : Nat) : Except Abort VtsTab := do
  let ie ← tab.indexXA ii
  match ie.vts with
  | none => .error .vtsNull
  | some vts =>
      tlAssert (tab.vtsSet.lookup vts = some ii)
      pure (tab.setEntry ii { ie with rc := ie.rc + 1 })

def rcdec (tab : VtsTab) (ii : Nat) : Except Abort VtsTab := do
  let ie ← tab.indexXA ii
  match ie.vts with
  | none => .error .vtsNull
  | some vts =>
      if ie.rc = 0 then .error .rcSnafu
      else do
        tlAssert (tab.vtsSet.lookup vts = some ii)
        pure (tab.setEntry ii { ie with rc := ie.rc - 1 })

def findAndDeallocOrAdd (tab : VtsTab) (cand : VTS) :
    Except Abort (VtsTab × Nat) :=
  match tab.vtsSet.lookup cand with
  | some auld => do
      let ie ← tab.indexXA auld
      tlAssert (ie.vts = some cand)
      pure (tab, auld)
  | none => do
      let (tab, ii) ← tab.getNewVtsID
      let _ ← tab.indexXA ii
      pure ({ tab.setEntry ii ⟨some cand, 0, none⟩ with
        vtsSet := tab.vtsSet.insert cand ii }, ii)

/-- The function `hash_VtsIDs`, on 32-bit ids. -/
def hashVtsIDs (vi1 vi2 nTab : Nat) : Nat :=
  ((BitVec.ofNat 32 vi1).rotateLeft 19 ^^^
    (BitVec.ofNat 32 vi2).rotateLeft 13).toNat % nTab

def invalidateCaches (tab : VtsTab) : VtsTab :=
  { tab with getOrderingCache := fun _ => none, join2Cache := fun _ => none }

def toVTS (tab : VtsTab) (vi : Nat) : Except Abort VTS := do
  let te ← tab.indexXA vi
  match te.vts with
  | none => .error .tlAssert
  | some vts => .ok vts

/-- A hit in `getOrdering_cache`. -/
def cachedOrdering (tab : VtsTab) (vi1 vi2 : Nat) : Option POrd :=
  match tab.getOrderingCache (hashVtsIDs vi1 vi2 1023) with
  | some ent => if ent.vi1 = vi1 ∧ ent.vi2 = vi2 then some ent.ord else none
  | none => none

def getOrderingWRK (tab : VtsTab) (vi1 vi2 : Nat) :
    Except Abort (VtsTab × POrd) :=
  match tab.cachedOrdering vi1 vi2 with
  | some ord => .ok (tab, ord)
  | none => do
      let v1 ← tab.toVTS vi1
      let v2 ← tab.toVTS vi2
      let ord := v1.cmp v2
      pure ({ tab with
        getOrderingCache := Function.update tab.getOrderingCache
          (hashVtsIDs vi1 vi2 1023) (some ⟨vi1, vi2, ord⟩) }, ord)

def getOrdering (tab : VtsTab) (vi1 vi2 : Nat) :
    Except Abort (VtsTab × POrd) :=
  if vi1 = vi2 then .ok (tab, .eq) else tab.getOrderingWRK vi1 vi2

/-- A hit in `join2_cache`. -/
def cachedJoin2 (tab : VtsTab) (vi1 vi2 : Nat) : Option Nat :=
  match tab.join2Cache (hashVtsIDs vi1 vi2 1023) with
  | some ent => if ent.vi1 = vi1 ∧ ent.vi2 = vi2 then some ent.res else none
  | none => none

def join2WRK (tab : VtsTab) (vi1 vi2 : Nat) : Except Abort (VtsTab × Nat) :=
  match tab.cachedJoin2 vi1 vi2 with
  | some res => .ok (tab, res)
  | none => do
      let vts1 ← tab.toVTS vi1
      let vts2 ← tab.toVTS vi2
      let (tab, res) ← tab.findAndDeallocOrAdd (vts1.join vts2)
      pure ({ tab with
        join2Cache := Function.update tab.join2Cache
          (hashVtsIDs vi1 vi2 1023) (some ⟨vi1, vi2, res⟩) }, res)

def join2 (tab : VtsTab) (vi1 vi2 : Nat) : Except Abort (VtsTab × Nat) :=
  if vi1 = vi2 then .ok (tab, vi1) else tab.join2WRK vi1 vi2

def mkSingleton (tab : VtsTab) (thr : Nat) : Except Abort (VtsTab × Nat) :=
  tab.findAndDeallocOrAdd (VTS.singleton thr 1 Nat.one_pos)

def tick (tab : VtsTab) (vi idx : Nat) : Except Abort (VtsTab × Nat) := do
  let vts ← tab.toVTS vi
  tab.findAndDeallocOrAdd (vts.tick idx)

def indexAt (tab : VtsTab) (vi idx : Nat) : Except Abort Nat := do
  let vts ← tab.toVTS vi
  pure (vts.indexAt idx)

/-- The body of the loop of `vts_tab__do_GC`, with the counter `nFreed`. -/
def collectEntry (acc : VtsTab × Nat) (i : Nat) :
    Except Abort (VtsTab × Nat) := do
  let (tab, nFreed) := acc
  let te ← tab.indexXA i
  match te.vts with
  | none =>
      tlAssert (te.rc = 0)
      pure (tab, nFreed)
  | some vts =>
      if te.rc > 0 then pure (tab, nFreed)
      else do
        tlAssert (tab.vtsSet.lookup vts = some i)
        let tab := { tab.setEntry i { te with vts := none } with
          vtsSet := tab.vtsSet.erase vts }
        tlAssert (te.freelink = none)
        let tab ← tab.addToFreeList i
        pure (tab, nFreed + 1)

/-- `vts_tab__do_GC` from the point at which the reference counts are up to
date. -/
def collect (tab : VtsTab) : Except Abort VtsTab := do
  let nTab := tab.vtsTab.length
  let (tab, nFreed) ← (List.range nTab).foldlM collectEntry (tab, 0)
  tlAssert (nFreed ≤ nTab)
  let nLive := nTab - nFreed
  pure { tab with
    nextGCAt := if 2 * nLive < nTab then nTab else 2 * nLive }

/-- The timestamp that an id denotes, if it is in use. -/
def clock (tab : VtsTab) (ii : Nat) : Option VTS :=
  tab.vtsTab[ii]?.bind (·.vts)

/-- `after` keeps the meaning of every id in use in `before`. -/
def Extends (before after : VtsTab) : Prop :=
  ∀ ii vts, before.clock ii = some vts → after.clock ii = some vts

theorem Extends.refl (tab : VtsTab) : Extends tab tab :=
  fun _ _ known => known

theorem Extends.trans {first second third : VtsTab}
    (left : Extends first second) (right : Extends second third) :
    Extends first third :=
  fun ii vts known => right ii vts (left ii vts known)

theorem Extends.of_clock_eq {before after : VtsTab}
    (same : after.clock = before.clock) : Extends before after := by
  intro ii vts known
  rw [same]
  exact known

/-- The free list starting at `link` runs through exactly `chain`. -/
def FreeChain (tab : List VtsTE) : Option Nat → List Nat → Prop
  | none, chain => chain = []
  | some _, [] => False
  | some ii, head :: rest =>
      head = ii ∧ ∃ te, tab[ii]? = some te ∧ te.vts = none ∧ te.rc = 0 ∧
        FreeChain tab te.freelink rest

/-- The invariants that the comment on `VtsTE` states, and the soundness of
the two caches. -/
structure WF (tab : VtsTab) : Prop where
  interned : ∀ vts ii,
    tab.vtsSet.lookup vts = some ii ↔ tab.clock ii = some vts
  inUse : ∀ (ii : Nat) (te : VtsTE), tab.vtsTab[ii]? = some te →
    te.vts ≠ none → te.freelink = none
  free : ∃ chain, FreeChain tab.vtsTab tab.freelist chain ∧ chain.Nodup ∧
    ∀ (ii : Nat) (te : VtsTE), tab.vtsTab[ii]? = some te →
      (te.vts = none ↔ ii ∈ chain)
  orderings : ∀ slot ent, tab.getOrderingCache slot = some ent →
    ∃ v1 v2, tab.clock ent.vi1 = some v1 ∧ tab.clock ent.vi2 = some v2 ∧
      ent.ord = v1.cmp v2
  joins : ∀ slot ent, tab.join2Cache slot = some ent →
    ∃ v1 v2, tab.clock ent.vi1 = some v1 ∧ tab.clock ent.vi2 = some v2 ∧
      tab.clock ent.res = some (v1.join v2)

/-- A well-formed table whose reference counts are the multiplicities of
`refs`. -/
structure Counted (tab : VtsTab) (refs : Multiset Nat) : Prop
    extends WF tab where
  counts : ∀ (ii : Nat) (te : VtsTE), tab.vtsTab[ii]? = some te →
    te.rc = refs.count ii
  held : ∀ ii ∈ refs, ∃ vts, tab.clock ii = some vts

theorem clock_eq_some_iff {tab : VtsTab} {ii : Nat} {vts : VTS} :
    tab.clock ii = some vts ↔
      ∃ te, tab.vtsTab[ii]? = some te ∧ te.vts = some vts := by
  simp [clock, Option.bind_eq_some_iff]

theorem lt_length_of_getElem? {tab : List VtsTE} {ii : Nat} {te : VtsTE}
    (present : tab[ii]? = some te) : ii < tab.length :=
  (List.getElem?_eq_some_iff.mp present).1

theorem getElem?_setEntry_self {tab : VtsTab} {ii : Nat} {old te : VtsTE}
    (present : tab.vtsTab[ii]? = some old) :
    (tab.setEntry ii te).vtsTab[ii]? = some te := by
  simp [setEntry, lt_length_of_getElem? present]

theorem getElem?_setEntry_of_ne {tab : VtsTab} {ii jj : Nat} {te : VtsTE}
    (different : ii ≠ jj) :
    (tab.setEntry ii te).vtsTab[jj]? = tab.vtsTab[jj]? := by
  simp [setEntry, different]

theorem indexXA_of {tab : VtsTab} {ii : Nat} {te : VtsTE}
    (present : tab.vtsTab[ii]? = some te) : tab.indexXA ii = .ok te := by
  simp [indexXA, present]

theorem toVTS_of {tab : VtsTab} {vi : Nat} {vts : VTS}
    (known : tab.clock vi = some vts) : tab.toVTS vi = .ok vts := by
  obtain ⟨te, present, value⟩ := clock_eq_some_iff.mp known
  simp [toVTS, indexXA_of present, value, bind, Except.bind]

theorem WF.init : WF VtsTab.init := by
  constructor
  · simp [VtsTab.init, clock]
  · simp [VtsTab.init]
  · exact ⟨[], by simp [VtsTab.init, FreeChain]⟩
  · simp [VtsTab.init]
  · simp [VtsTab.init]

theorem Counted.init : Counted VtsTab.init 0 where
  toWF := WF.init
  counts := by simp [VtsTab.init]
  held := by simp

theorem WF.clock_injective {tab : VtsTab} (wf : WF tab) {ii jj : Nat}
    {vts : VTS} (left : tab.clock ii = some vts)
    (right : tab.clock jj = some vts) : ii = jj := by
  have leftId := (wf.interned vts ii).mpr left
  have rightId := (wf.interned vts jj).mpr right
  rw [leftId] at rightId
  exact Option.some.inj rightId

theorem FreeChain.congr {tab tab' : List VtsTE} {link : Option Nat}
    {chain : List Nat}
    (same : ∀ ii ∈ chain, tab'[ii]? = tab[ii]?)
    (valid : FreeChain tab link chain) : FreeChain tab' link chain := by
  induction chain generalizing link with
  | nil =>
      cases link with
      | none => rfl
      | some ii => exact valid
  | cons head rest induction =>
      cases link with
      | none => cases valid
      | some ii =>
          obtain ⟨rfl, te, present, unused, zero, tail⟩ := valid
          refine ⟨rfl, te, ?_, unused, zero, ?_⟩
          · rw [same head (by simp)]
            exact present
          · exact induction (fun ii member => same ii (by simp [member])) tail

theorem FreeChain.unused {tab : List VtsTE} {link : Option Nat}
    {chain : List Nat} (valid : FreeChain tab link chain)
    {ii : Nat} (member : ii ∈ chain) :
    ∃ te, tab[ii]? = some te ∧ te.vts = none ∧ te.rc = 0 := by
  induction chain generalizing link with
  | nil => cases member
  | cons head rest induction =>
      cases link with
      | none => cases valid
      | some jj =>
          obtain ⟨rfl, te, present, unused, zero, tail⟩ := valid
          rcases List.mem_cons.mp member with rfl | old
          · exact ⟨te, present, unused, zero⟩
          · exact induction tail old

theorem clock_setEntry_rc {tab : VtsTab} {ii rc : Nat} {te : VtsTE}
    (present : tab.vtsTab[ii]? = some te) :
    (tab.setEntry ii { te with rc := rc }).clock = tab.clock := by
  funext jj
  by_cases same : ii = jj
  · subst same
    simp [clock, getElem?_setEntry_self present, present]
  · simp [clock, getElem?_setEntry_of_ne same]

/-- Changing the count of an entry in use keeps the other invariants. -/
theorem WF.setEntry_rc {tab : VtsTab} (wf : WF tab) {ii rc : Nat}
    {te : VtsTE} {vts : VTS} (present : tab.vtsTab[ii]? = some te)
    (used : te.vts = some vts) :
    WF (tab.setEntry ii { te with rc := rc }) := by
  have sameClock := @clock_setEntry_rc tab ii rc te present
  obtain ⟨chain, valid, nodup, listed⟩ := wf.free
  have outside : ii ∉ chain := by
    intro member
    have unused := (listed ii te present).mpr member
    rw [used] at unused
    cases unused
  constructor
  · intro vts jj
    rw [sameClock]
    exact wf.interned vts jj
  · intro jj entry stored inUse
    by_cases same : ii = jj
    · subst same
      rw [getElem?_setEntry_self present] at stored
      cases stored
      exact wf.inUse ii te present inUse
    · rw [getElem?_setEntry_of_ne same] at stored
      exact wf.inUse jj entry stored inUse
  · refine ⟨chain, ?_, nodup, ?_⟩
    · apply FreeChain.congr _ valid
      intro jj member
      exact getElem?_setEntry_of_ne (fun same => outside (same ▸ member))
    · intro jj entry stored
      by_cases same : ii = jj
      · subst same
        rw [getElem?_setEntry_self present] at stored
        cases stored
        exact listed ii te present
      · rw [getElem?_setEntry_of_ne same] at stored
        exact listed jj entry stored
  · rw [sameClock]
    exact wf.orderings
  · rw [sameClock]
    exact wf.joins

theorem rcinc_returns {tab : VtsTab} {refs : Multiset Nat} {ii : Nat}
    {vts : VTS} (counted : Counted tab refs)
    (known : tab.clock ii = some vts) :
    Returns (tab.rcinc ii) (fun after =>
      Counted after (ii ::ₘ refs) ∧ after.clock = tab.clock) := by
  obtain ⟨te, present, used⟩ := clock_eq_some_iff.mp known
  have sameClock := @clock_setEntry_rc tab ii (te.rc + 1) te present
  refine ⟨tab.setEntry ii { te with rc := te.rc + 1 }, ?_, ?_, sameClock⟩
  · simp [rcinc, indexXA_of present, used,
      tlAssert_of ((counted.interned vts ii).mpr known), bind, Except.bind,
      pure, Except.pure]
  refine ⟨counted.setEntry_rc present used, ?_, ?_⟩
  · intro jj entry stored
    by_cases same : ii = jj
    · subst same
      rw [getElem?_setEntry_self present] at stored
      cases stored
      rw [Multiset.count_cons_self, ← counted.counts ii te present]
    · rw [getElem?_setEntry_of_ne same] at stored
      rw [Multiset.count_cons_of_ne (Ne.symm same)]
      exact counted.counts jj entry stored
  · intro jj member
    rw [sameClock]
    rcases Multiset.mem_cons.mp member with rfl | old
    · exact ⟨vts, known⟩
    · exact counted.held jj old

theorem rcdec_returns {tab : VtsTab} {refs : Multiset Nat} {ii : Nat}
    (counted : Counted tab refs) (referenced : ii ∈ refs) :
    Returns (tab.rcdec ii) (fun after =>
      Counted after (refs.erase ii) ∧ after.clock = tab.clock) := by
  obtain ⟨vts, known⟩ := counted.held ii referenced
  obtain ⟨te, present, used⟩ := clock_eq_some_iff.mp known
  have sameClock := @clock_setEntry_rc tab ii (te.rc - 1) te present
  have count := counted.counts ii te present
  have positive : te.rc ≠ 0 := by
    rw [count]
    exact Multiset.count_ne_zero.mpr referenced
  refine ⟨tab.setEntry ii { te with rc := te.rc - 1 }, ?_, ?_, sameClock⟩
  · simp [rcdec, indexXA_of present, used, positive,
      tlAssert_of ((counted.interned vts ii).mpr known), bind, Except.bind,
      pure, Except.pure]
  refine ⟨counted.setEntry_rc present used, ?_, ?_⟩
  · intro jj entry stored
    by_cases same : ii = jj
    · subst same
      rw [getElem?_setEntry_self present] at stored
      cases stored
      rw [Multiset.count_erase_self, ← count]
    · rw [getElem?_setEntry_of_ne same] at stored
      rw [Multiset.count_erase_of_ne (Ne.symm same)]
      exact counted.counts jj entry stored
  · intro jj member
    rw [sameClock]
    exact counted.held jj (Multiset.mem_of_mem_erase member)

theorem rcdec_returns_cons {tab : VtsTab} {refs : Multiset Nat} {ii : Nat}
    (counted : Counted tab (ii ::ₘ refs)) :
    Returns (tab.rcdec ii) (fun after =>
      Counted after refs ∧ after.clock = tab.clock) := by
  have returns := rcdec_returns counted (Multiset.mem_cons_self ii refs)
  rwa [Multiset.erase_cons_head] at returns

/-- What `get_new_VtsID` hands out: an unused entry `ii`, taken off the free
list, with everything else as it was. -/
structure Fresh (before after : VtsTab) (ii : Nat) : Prop where
  unusedBefore : before.clock ii = none
  present : ∃ te, after.vtsTab[ii]? = some te
  others : ∀ jj, ii ≠ jj → after.vtsTab[jj]? = before.vtsTab[jj]?
  free : ∃ chain, FreeChain after.vtsTab after.freelist chain ∧
    chain.Nodup ∧ ii ∉ chain ∧
    ∀ (jj : Nat) (te : VtsTE), ii ≠ jj → after.vtsTab[jj]? = some te →
      (te.vts = none ↔ jj ∈ chain)
  sameSet : after.vtsSet = before.vtsSet
  sameOrderings : after.getOrderingCache = before.getOrderingCache
  sameJoins : after.join2Cache = before.join2Cache

private theorem getNewVtsID_returns {tab : VtsTab} (wf : WF tab) :
    Returns tab.getNewVtsID (fun result =>
      Fresh tab result.1 result.2) := by
  obtain ⟨chain, valid, nodup, listed⟩ := wf.free
  cases head : tab.freelist with
  | none =>
      -- The table grows by one entry.
      rw [head] at valid
      obtain rfl : chain = [] := by simpa [FreeChain] using valid
      refine ⟨({ tab with vtsTab := tab.vtsTab ++ [⟨none, 0, none⟩] },
        tab.vtsTab.length), ?_, ?_⟩
      · simp [getNewVtsID, getFromFreeList, head, bind, Except.bind, pure,
          Except.pure]
      have others : ∀ jj, tab.vtsTab.length ≠ jj →
          (tab.vtsTab ++ [⟨none, 0, none⟩])[jj]? = tab.vtsTab[jj]? := by
        intro jj different
        rcases Nat.lt_or_gt_of_ne different with beyond | inside
        · rw [List.getElem?_eq_none (by simp; omega),
            List.getElem?_eq_none (by omega)]
        · rw [List.getElem?_append_left inside]
      constructor
      · simp [clock]
      · exact ⟨_, List.getElem?_concat_length⟩
      · exact others
      · refine ⟨[], by simp [head, FreeChain], List.nodup_nil, by simp, ?_⟩
        intro jj te different stored
        rw [others jj different] at stored
        exact listed jj te stored
      · rfl
      · rfl
      · rfl
  | some ii =>
      rw [head] at valid
      cases chain with
      | nil => cases valid
      | cons first rest =>
          obtain ⟨rfl, te, present, unused, zero, tail⟩ := valid
          obtain ⟨outside, restNodup⟩ := List.nodup_cons.mp nodup
          refine ⟨({ tab with freelist := te.freelink }, first), ?_, ?_⟩
          · simp [getNewVtsID, getFromFreeList, head, indexXA_of present,
              tlAssert_of unused, tlAssert_of zero, bind, Except.bind, pure,
              Except.pure]
          constructor
          · simp [clock, present, unused]
          · exact ⟨te, present⟩
          · exact fun jj _ => rfl
          · refine ⟨rest, tail, restNodup, outside, ?_⟩
            intro jj entry different stored
            rw [listed jj entry stored, List.mem_cons]
            simp [Ne.symm different]
          · rfl
          · rfl
          · rfl

/-- The table after a fresh id has been bound to a new timestamp. -/
private def bindFresh (after : VtsTab) (ii : Nat) (cand : VTS) : VtsTab :=
  { after.setEntry ii ⟨some cand, 0, none⟩ with
    vtsSet := after.vtsSet.insert cand ii }

private theorem clock_bindFresh {before after : VtsTab} {ii : Nat}
    (fresh : Fresh before after ii) (cand : VTS) (jj : Nat) :
    (bindFresh after ii cand).clock jj =
      if jj = ii then some cand else before.clock jj := by
  obtain ⟨te, present⟩ := fresh.present
  by_cases same : ii = jj
  · subst same
    have entry := @getElem?_setEntry_self after ii te ⟨some cand, 0, none⟩
      present
    simp only [if_true]
    exact clock_eq_some_iff.mpr ⟨_, entry, rfl⟩
  · have entry := (@getElem?_setEntry_of_ne after ii jj ⟨some cand, 0, none⟩
      same).trans (fresh.others jj same)
    simp only [Ne.symm same, if_false]
    exact congrArg (Option.bind · VtsTE.vts) entry

private theorem bindFresh_extends {before after : VtsTab} {ii : Nat}
    (fresh : Fresh before after ii) (cand : VTS) :
    Extends before (bindFresh after ii cand) := by
  intro jj vts known
  rw [clock_bindFresh fresh]
  split
  · rename_i same
    rw [same, fresh.unusedBefore] at known
    cases known
  · exact known

private theorem WF.bindFresh {before after : VtsTab} {ii : Nat} {cand : VTS}
    (wf : WF before) (fresh : Fresh before after ii)
    (absent : before.vtsSet.lookup cand = none) :
    WF (bindFresh after ii cand) := by
  have grown := bindFresh_extends fresh cand
  obtain ⟨te, present⟩ := fresh.present
  have atNew := @getElem?_setEntry_self after ii te ⟨some cand, 0, none⟩
    present
  have atOld : ∀ jj, ii ≠ jj →
      (VtsTab.bindFresh after ii cand).vtsTab[jj]? = before.vtsTab[jj]? :=
    fun jj different => (getElem?_setEntry_of_ne different).trans
      (fresh.others jj different)
  obtain ⟨chain, valid, nodup, outside, listed⟩ := fresh.free
  constructor
  · intro vts jj
    rw [clock_bindFresh fresh]
    show (AList.insert cand ii after.vtsSet).lookup vts = some jj ↔ _
    rw [fresh.sameSet]
    by_cases sameVts : vts = cand
    · subst sameVts
      rw [AList.lookup_insert]
      split
      · simp_all
      · rename_i different
        constructor
        · intro equal
          exact absurd (Option.some.inj equal).symm different
        · intro known
          have stored := (wf.interned vts jj).mpr known
          rw [absent] at stored
          cases stored
    · rw [AList.lookup_insert_ne sameVts, wf.interned]
      split
      · rename_i sameId
        subst sameId
        rw [fresh.unusedBefore]
        simp [Ne.symm sameVts]
      · rfl
  · intro jj entry stored used
    by_cases same : ii = jj
    · subst same
      have equal := stored.symm.trans atNew
      cases equal
      rfl
    · rw [atOld jj same] at stored
      exact wf.inUse jj entry stored used
  · refine ⟨chain, ?_, nodup, ?_⟩
    · apply FreeChain.congr _ valid
      intro jj member
      exact getElem?_setEntry_of_ne (fun same => outside (same ▸ member))
    · intro jj entry stored
      by_cases same : ii = jj
      · subst same
        have equal := stored.symm.trans atNew
        cases equal
        simp [outside]
      · exact listed jj entry same
          ((getElem?_setEntry_of_ne same).symm.trans stored)
  · intro slot ent hit
    rw [show (VtsTab.bindFresh after ii cand).getOrderingCache =
      before.getOrderingCache from fresh.sameOrderings] at hit
    obtain ⟨v1, v2, left, right, value⟩ := wf.orderings slot ent hit
    exact ⟨v1, v2, grown _ _ left, grown _ _ right, value⟩
  · intro slot ent hit
    rw [show (VtsTab.bindFresh after ii cand).join2Cache =
      before.join2Cache from fresh.sameJoins] at hit
    obtain ⟨v1, v2, left, right, value⟩ := wf.joins slot ent hit
    exact ⟨v1, v2, grown _ _ left, grown _ _ right, grown _ _ value⟩

private theorem Counted.bindFresh {before after : VtsTab} {ii : Nat}
    {cand : VTS} {refs : Multiset Nat} (counted : Counted before refs)
    (fresh : Fresh before after ii)
    (absent : before.vtsSet.lookup cand = none) :
    Counted (bindFresh after ii cand) refs := by
  refine ⟨counted.toWF.bindFresh fresh absent, ?_, ?_⟩
  · intro jj entry stored
    by_cases same : ii = jj
    · subst same
      obtain ⟨te, present⟩ := fresh.present
      have equal := stored.symm.trans (getElem?_setEntry_self present)
      cases equal
      -- A new id has no references, since those denote ids in use.
      have unheld : ii ∉ refs := by
        intro member
        obtain ⟨vts, known⟩ := counted.held ii member
        rw [fresh.unusedBefore] at known
        cases known
      exact (Multiset.count_eq_zero.mpr unheld).symm
    · have old := ((getElem?_setEntry_of_ne same).trans
        (fresh.others jj same)).symm.trans stored
      exact counted.counts jj entry old
  · intro jj member
    obtain ⟨vts, known⟩ := counted.held jj member
    exact ⟨vts, bindFresh_extends fresh cand jj vts known⟩

theorem findAndDeallocOrAdd_returns {tab : VtsTab} {refs : Multiset Nat}
    (counted : Counted tab refs) (cand : VTS) :
    Returns (tab.findAndDeallocOrAdd cand) (fun result =>
      Counted result.1 refs ∧ Extends tab result.1 ∧
        result.1.clock result.2 = some cand) := by
  cases found : tab.vtsSet.lookup cand with
  | some auld =>
      have known := (counted.interned cand auld).mp found
      obtain ⟨te, present, used⟩ := clock_eq_some_iff.mp known
      refine ⟨(tab, auld), ?_, counted, Extends.refl tab, known⟩
      simp [findAndDeallocOrAdd, found, indexXA_of present, tlAssert_of used,
        bind, Except.bind, pure, Except.pure]
  | none =>
      obtain ⟨⟨after, ii⟩, equation, fresh⟩ :=
        getNewVtsID_returns counted.toWF
      obtain ⟨te, present⟩ := fresh.present
      refine ⟨(bindFresh after ii cand, ii), ?_,
        counted.bindFresh fresh found, bindFresh_extends fresh cand, ?_⟩
      · simp [findAndDeallocOrAdd, found, equation, indexXA_of present,
          bindFresh, bind, Except.bind, pure, Except.pure]
      · simp [clock_bindFresh fresh]

/-- The three parts of what an operation that yields an id promises. -/
def Yields (before : VtsTab) (refs : Multiset Nat) (vts : VTS)
    (result : VtsTab × Nat) : Prop :=
  Counted result.1 refs ∧ Extends before result.1 ∧
    result.1.clock result.2 = some vts

theorem mkSingleton_returns {tab : VtsTab} {refs : Multiset Nat}
    (counted : Counted tab refs) (thr : Nat) :
    Returns (tab.mkSingleton thr)
      (Yields tab refs (VTS.singleton thr 1 Nat.one_pos)) :=
  findAndDeallocOrAdd_returns counted _

theorem tick_returns {tab : VtsTab} {refs : Multiset Nat} {vi : Nat}
    {vts : VTS} (counted : Counted tab refs) (known : tab.clock vi = some vts)
    (idx : Nat) :
    Returns (tab.tick vi idx) (Yields tab refs (vts.tick idx)) := by
  unfold tick
  rw [toVTS_of known]
  exact findAndDeallocOrAdd_returns counted _

theorem indexAt_of {tab : VtsTab} {vi : Nat} {vts : VTS}
    (known : tab.clock vi = some vts) (idx : Nat) :
    tab.indexAt vi idx = .ok (vts.indexAt idx) := by
  unfold indexAt
  rw [toVTS_of known]
  rfl

theorem cachedJoin2_sound {tab : VtsTab} (wf : WF tab) {vi1 vi2 res : Nat}
    {v1 v2 : VTS} (left : tab.clock vi1 = some v1)
    (right : tab.clock vi2 = some v2)
    (hit : tab.cachedJoin2 vi1 vi2 = some res) :
    tab.clock res = some (v1.join v2) := by
  unfold cachedJoin2 at hit
  split at hit
  · rename_i ent stored
    split at hit
    · rename_i key
      obtain ⟨rfl, rfl⟩ := key
      cases hit
      obtain ⟨w1, w2, first, second, value⟩ := wf.joins _ ent stored
      rw [left] at first
      rw [right] at second
      cases first
      cases second
      exact value
    · cases hit
  · cases hit

theorem WF.update_join2Cache {tab : VtsTab} (wf : WF tab) {slot : Nat}
    {ent : JoinEnt} {v1 v2 : VTS} (left : tab.clock ent.vi1 = some v1)
    (right : tab.clock ent.vi2 = some v2)
    (value : tab.clock ent.res = some (v1.join v2)) :
    WF { tab with
      join2Cache := Function.update tab.join2Cache slot (some ent) } := by
  refine ⟨wf.interned, wf.inUse, wf.free, wf.orderings, ?_⟩
  intro other stored hit
  by_cases same : other = slot
  · subst same
    simp only [Function.update_self, Option.some.injEq] at hit
    subst hit
    exact ⟨v1, v2, left, right, value⟩
  · simp only [Function.update_of_ne same] at hit
    exact wf.joins other stored hit

theorem join2_returns {tab : VtsTab} {refs : Multiset Nat} {vi1 vi2 : Nat}
    {v1 v2 : VTS} (counted : Counted tab refs)
    (left : tab.clock vi1 = some v1) (right : tab.clock vi2 = some v2) :
    Returns (tab.join2 vi1 vi2) (Yields tab refs (v1.join v2)) := by
  unfold join2
  split
  · rename_i same
    subst same
    rw [left] at right
    cases right
    rw [VTS.join_self]
    exact Returns.ok ⟨counted, Extends.refl tab, left⟩
  · unfold join2WRK
    split
    · rename_i res hit
      exact Returns.ok ⟨counted, Extends.refl tab,
        cachedJoin2_sound counted.toWF left right hit⟩
    · rw [toVTS_of left, toVTS_of right]
      apply (findAndDeallocOrAdd_returns counted (v1.join v2)).bind
      rintro ⟨after, res⟩ ⟨counted', grown, value⟩
      apply Returns.pure
      refine ⟨⟨counted'.toWF.update_join2Cache ?_ ?_ value,
        counted'.counts, counted'.held⟩, grown, value⟩
      · exact grown _ _ left
      · exact grown _ _ right

theorem cachedOrdering_sound {tab : VtsTab} (wf : WF tab) {vi1 vi2 : Nat}
    {ord : POrd} {v1 v2 : VTS} (left : tab.clock vi1 = some v1)
    (right : tab.clock vi2 = some v2)
    (hit : tab.cachedOrdering vi1 vi2 = some ord) : ord = v1.cmp v2 := by
  unfold cachedOrdering at hit
  split at hit
  · rename_i ent stored
    split at hit
    · rename_i key
      obtain ⟨rfl, rfl⟩ := key
      cases hit
      obtain ⟨w1, w2, first, second, value⟩ := wf.orderings _ ent stored
      rw [left] at first
      rw [right] at second
      cases first
      cases second
      exact value
    · cases hit
  · cases hit

theorem WF.update_getOrderingCache {tab : VtsTab} (wf : WF tab) {slot : Nat}
    {ent : OrderingEnt} {v1 v2 : VTS} (left : tab.clock ent.vi1 = some v1)
    (right : tab.clock ent.vi2 = some v2) (value : ent.ord = v1.cmp v2) :
    WF { tab with
      getOrderingCache :=
        Function.update tab.getOrderingCache slot (some ent) } := by
  refine ⟨wf.interned, wf.inUse, wf.free, ?_, wf.joins⟩
  intro other stored hit
  by_cases same : other = slot
  · subst same
    simp only [Function.update_self, Option.some.injEq] at hit
    subst hit
    exact ⟨v1, v2, left, right, value⟩
  · simp only [Function.update_of_ne same] at hit
    exact wf.orderings other stored hit

theorem getOrdering_returns {tab : VtsTab} {refs : Multiset Nat}
    {vi1 vi2 : Nat} {v1 v2 : VTS} (counted : Counted tab refs)
    (left : tab.clock vi1 = some v1) (right : tab.clock vi2 = some v2) :
    Returns (tab.getOrdering vi1 vi2) (fun result =>
      Counted result.1 refs ∧ result.1.clock = tab.clock ∧
        result.2 = v1.cmp v2) := by
  unfold getOrdering
  split
  · rename_i same
    subst same
    rw [left] at right
    cases right
    exact Returns.ok ⟨counted, rfl, ((VTS.cmp_eq_eq_iff v1 v1).mpr rfl).symm⟩
  · unfold getOrderingWRK
    split
    · rename_i ord hit
      exact Returns.ok ⟨counted, rfl,
        cachedOrdering_sound counted.toWF left right hit⟩
    · rw [toVTS_of left, toVTS_of right]
      apply Returns.ok
      exact ⟨⟨counted.toWF.update_getOrderingCache left right rfl,
        counted.counts, counted.held⟩, rfl, rfl⟩

theorem Counted.invalidateCaches {tab : VtsTab} {refs : Multiset Nat}
    (counted : Counted tab refs) : Counted tab.invalidateCaches refs where
  interned := counted.interned
  inUse := counted.inUse
  free := counted.free
  orderings := by simp [VtsTab.invalidateCaches]
  joins := by simp [VtsTab.invalidateCaches]
  counts := counted.counts
  held := counted.held

/-- The loop invariant of the collection: the ids below `bound` without
references are gone and the caches are still empty. -/
structure Collecting (start : VtsTab) (refs : Multiset Nat) (bound : Nat)
    (acc : VtsTab × Nat) : Prop where
  counted : Counted acc.1 refs
  length : acc.1.vtsTab.length = start.vtsTab.length
  clocks : ∀ ii, acc.1.clock ii =
    if ii < bound ∧ ii ∉ refs then none else start.clock ii
  noOrderings : ∀ slot, acc.1.getOrderingCache slot = none
  noJoins : ∀ slot, acc.1.join2Cache slot = none
  freed : acc.2 ≤ bound

/-- The table after the entry `ii` has been put on the free list. -/
private def freeEntry (tab : VtsTab) (ii : Nat) (vts : VTS) (te : VtsTE) :
    VtsTab :=
  { tab with
    vtsSet := tab.vtsSet.erase vts
    vtsTab := tab.vtsTab.set ii
      { te with vts := none, freelink := tab.freelist }
    freelist := some ii }

private theorem clock_freeEntry {tab : VtsTab} {ii : Nat} {vts : VTS}
    {te : VtsTE} (present : tab.vtsTab[ii]? = some te) (jj : Nat) :
    (freeEntry tab ii vts te).clock jj =
      if jj = ii then none else tab.clock jj := by
  by_cases same : ii = jj
  · subst same
    simp [freeEntry, clock, lt_length_of_getElem? present]
  · simp [freeEntry, clock, same, Ne.symm same]

private theorem Counted.freeEntry {tab : VtsTab} {refs : Multiset Nat}
    {ii : Nat} {vts : VTS} {te : VtsTE} (counted : Counted tab refs)
    (present : tab.vtsTab[ii]? = some te) (used : te.vts = some vts)
    (unreferenced : te.rc = 0)
    (noOrderings : ∀ slot, tab.getOrderingCache slot = none)
    (noJoins : ∀ slot, tab.join2Cache slot = none) :
    Counted (freeEntry tab ii vts te) refs := by
  have known : tab.clock ii = some vts :=
    clock_eq_some_iff.mpr ⟨te, present, used⟩
  have inside := lt_length_of_getElem? present
  have atSelf : (VtsTab.freeEntry tab ii vts te).vtsTab[ii]? =
      some { te with vts := none, freelink := tab.freelist } := by
    simp [VtsTab.freeEntry, inside]
  have atOther : ∀ jj, ii ≠ jj →
      (VtsTab.freeEntry tab ii vts te).vtsTab[jj]? = tab.vtsTab[jj]? := by
    intro jj different
    simp [VtsTab.freeEntry, different]
  obtain ⟨chain, valid, nodup, listed⟩ := counted.free
  have outside : ii ∉ chain := by
    rw [← listed ii te present, used]
    simp
  refine ⟨⟨?_, ?_, ?_, ?_, ?_⟩, ?_, ?_⟩
  · intro other jj
    rw [clock_freeEntry present]
    show (tab.vtsSet.erase vts).lookup other = some jj ↔ _
    by_cases sameVts : other = vts
    · subst sameVts
      rw [AList.lookup_erase]
      by_cases sameId : jj = ii
      · simp [sameId]
      · simp only [sameId, if_false]
        constructor
        · intro impossible
          cases impossible
        · intro stored
          exact absurd (counted.clock_injective stored known) sameId
    · rw [AList.lookup_erase_ne sameVts, counted.interned]
      by_cases sameId : jj = ii
      · subst sameId
        simp [known, Ne.symm sameVts]
      · simp [sameId]
  · intro jj entry stored inUse
    by_cases same : ii = jj
    · subst same
      rw [atSelf] at stored
      cases stored
      exact absurd rfl inUse
    · rw [atOther jj same] at stored
      exact counted.inUse jj entry stored inUse
  · refine ⟨ii :: chain, ⟨rfl, _, atSelf, rfl, unreferenced, ?_⟩,
      List.nodup_cons.mpr ⟨outside, nodup⟩, ?_⟩
    · apply FreeChain.congr _ valid
      intro jj member
      exact atOther jj (fun same => outside (same ▸ member))
    · intro jj entry stored
      by_cases same : ii = jj
      · subst same
        rw [atSelf] at stored
        cases stored
        simp
      · rw [atOther jj same] at stored
        rw [listed jj entry stored, List.mem_cons]
        simp [Ne.symm same]
  · intro slot ent hit
    have none := noOrderings slot
    rw [show (VtsTab.freeEntry tab ii vts te).getOrderingCache =
      tab.getOrderingCache from rfl, none] at hit
    cases hit
  · intro slot ent hit
    have none := noJoins slot
    rw [show (VtsTab.freeEntry tab ii vts te).join2Cache =
      tab.join2Cache from rfl, none] at hit
    cases hit
  · intro jj entry stored
    by_cases same : ii = jj
    · subst same
      rw [atSelf] at stored
      cases stored
      exact counted.counts ii te present
    · rw [atOther jj same] at stored
      exact counted.counts jj entry stored
  · intro jj member
    have different : jj ≠ ii := by
      rintro rfl
      have zero := counted.counts jj te present
      rw [unreferenced] at zero
      exact Multiset.count_eq_zero.mp zero.symm member
    rw [clock_freeEntry present, if_neg different]
    exact counted.held jj member

private theorem collectEntry_returns {start : VtsTab} {refs : Multiset Nat}
    {bound : Nat} {acc : VtsTab × Nat}
    (loop : Collecting start refs bound acc)
    (inside : bound < start.vtsTab.length) :
    Returns (collectEntry acc bound)
      (Collecting start refs (bound + 1)) := by
  obtain ⟨tab, nFreed⟩ := acc
  obtain ⟨counted, length, clocks, noOrderings, noJoins, freed⟩ := loop
  dsimp only at counted length clocks noOrderings noJoins freed
  obtain ⟨te, present⟩ : ∃ te, tab.vtsTab[bound]? = some te :=
    ⟨_, List.getElem?_eq_getElem (by omega)⟩
  have count := counted.counts bound te present
  -- An entry that stays is either unused already or still referenced.
  have keep : (te.vts = none ∨ bound ∈ refs) →
      Collecting start refs (bound + 1) (tab, nFreed) := by
    intro reason
    refine ⟨counted, length, ?_, noOrderings, noJoins, by simp; omega⟩
    intro ii
    by_cases same : ii = bound
    · subst same
      have here := clocks ii
      simp only [Nat.lt_irrefl, false_and, if_false] at here
      dsimp only
      split
      · rename_i gone
        rcases reason with unused | referenced
        · simp [clock, present, unused]
        · exact absurd referenced gone.2
      · exact here
    · have shift : ii < bound + 1 ↔ ii < bound := by omega
      simp only [shift]
      exact clocks ii
  unfold collectEntry
  simp only [indexXA_of present, bind, Except.bind]
  cases used : te.vts with
  | none =>
      have zero : te.rc = 0 := by
        rw [count, Multiset.count_eq_zero]
        intro member
        obtain ⟨vts, known⟩ := counted.held bound member
        simp [clock, present, used] at known
      simp only [tlAssert_of zero]
      exact Returns.pure (keep (.inl used))
  | some vts =>
      by_cases referenced : te.rc > 0
      · simp only [if_pos referenced]
        apply Returns.pure (keep (.inr _))
        rw [count] at referenced
        exact Multiset.count_pos.mp referenced
      · have zero : te.rc = 0 := by omega
        have known : tab.clock bound = some vts :=
          clock_eq_some_iff.mpr ⟨te, present, used⟩
        have linkless := counted.inUse bound te present (by simp [used])
        have unheld : bound ∉ refs := by
          rw [← Multiset.count_eq_zero, ← count]
          exact zero
        refine ⟨(freeEntry tab bound vts te, nFreed + 1), ?_, ?_⟩
        · have interned := (counted.interned vts bound).mpr known
          have within : bound < tab.vtsTab.length := by omega
          simp [tlAssert, interned, addToFreeList, indexXA, setEntry, within,
            zero, linkless, freeEntry, bind, Except.bind, pure, Except.pure]
        · refine ⟨counted.freeEntry present used zero noOrderings noJoins,
            ?_, ?_, noOrderings, noJoins, by simp; omega⟩
          · simp [freeEntry, length]
          · intro ii
            rw [clock_freeEntry present]
            by_cases same : ii = bound
            · simp [same, unheld]
            · have shift : ii < bound + 1 ↔ ii < bound := by omega
              simp only [same, shift, if_false]
              exact clocks ii

/-- The collection frees exactly the ids without references. -/
theorem collect_returns {tab : VtsTab} {refs : Multiset Nat}
    (counted : Counted tab refs)
    (noOrderings : ∀ slot, tab.getOrderingCache slot = none)
    (noJoins : ∀ slot, tab.join2Cache slot = none) :
    Returns tab.collect (fun after => Counted after refs ∧
      ∀ ii, after.clock ii = if ii ∈ refs then tab.clock ii else none) := by
  have loop : ∀ bound, bound ≤ tab.vtsTab.length →
      Returns ((List.range bound).foldlM collectEntry (tab, 0))
        (Collecting tab refs bound) := by
    intro bound
    induction bound with
    | zero =>
        intro _
        apply Returns.pure
        exact ⟨counted, rfl, by simp, noOrderings, noJoins, Nat.le_refl 0⟩
    | succ bound induction =>
        intro inside
        rw [List.range_succ, List.foldlM_append]
        apply (induction (by omega)).bind
        intro acc holds
        simp only [List.foldlM_cons, List.foldlM_nil, bind_pure]
        exact collectEntry_returns holds (by omega)
  unfold collect
  apply (loop tab.vtsTab.length (Nat.le_refl _)).bind
  rintro ⟨after, nFreed⟩ ⟨counted', length, clocks, _, _, freed⟩
  simp only [tlAssert_of freed, bind, Except.bind]
  apply Returns.pure
  refine ⟨⟨⟨counted'.interned, counted'.inUse, counted'.free,
    counted'.orderings, counted'.joins⟩, counted'.counts, counted'.held⟩, ?_⟩
  intro ii
  have value := clocks ii
  by_cases member : ii ∈ refs
  · simp only [member, not_true_eq_false, and_false, if_false] at value
    rw [if_pos member]
    exact value
  · simp only [member, not_false_eq_true, and_true] at value
    rw [if_neg member]
    show after.clock ii = none
    rw [value]
    split
    · rfl
    · rename_i beyond
      rw [clock, List.getElem?_eq_none (by omega)]
      rfl

end VtsTab
end HelgrindPlus
