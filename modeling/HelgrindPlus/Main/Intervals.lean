import HelgrindPlus.Coregrind.WordFMCalls
import HelgrindPlus.LibHB.VtsTab
import Mathlib.Algebra.GroupWithZero.Nat

/-!
# Unions of code intervals

The file `hg_interval.c`.  A union keeps its intervals in a word map that has
both end points of each as keys.  The map is the list of its entries in the
order of the keys, which is also the order in which they are iterated over.

The intervals are blocks of the tool's arena.  An interval that a new one
swallows is entered twice in the array of those to be deleted, and is read
once more after it has been freed, when `VG_(arena_free)` has filled it with
the byte `0xDD`.
-/

namespace HelgrindPlus

open Outcome WordFM

structure Interval (w : Nat) where
  start : BitVec w
  stop : BitVec w
  deriving DecidableEq, Repr

/-- The addresses from the start up to the end, which is not one of them. -/
def Interval.Contains {w : Nat} (iv : Interval w) (v : BitVec w) : Prop :=
  iv.start ≤ v ∧ v < iv.stop

instance {w : Nat} (iv : Interval w) (v : BitVec w) :
    Decidable (iv.Contains v) :=
  inferInstanceAs (Decidable (_ ∧ _))

/-- The word of which each byte is `0xDD`. -/
def junk (w : Nat) : BitVec w := BitVec.ofNat w (0xDD * ((2 ^ w - 1) / 0xFF))

structure Block (w : Nat) where
  interval : Interval w
  inUse : Bool
  deriving DecidableEq, Repr

/-- A pointer to an `Interval` is the number of its allocation. -/
structure Ivu (w : Nat) where
  collect : List (BitVec w × Nat)
  blocks : Nat → Block w
  allocd : Nat

namespace Ivu

variable {w : Nat}

def interval (ivu : Ivu w) (ptr : Nat) : Interval w :=
  (ivu.blocks ptr).interval

def setInterval (ivu : Ivu w) (ptr : Nat) (interval : Interval w) : Ivu w :=
  { ivu with blocks :=
      Function.update ivu.blocks ptr ⟨interval, (ivu.blocks ptr).inUse⟩ }

def zalloc (ivu : Ivu w) (interval : Interval w) : Ivu w × Nat :=
  ({ ivu with
    blocks := Function.update ivu.blocks ivu.allocd ⟨interval, true⟩
    allocd := ivu.allocd + 1 }, ivu.allocd)

/-- A block is not freed twice. -/
def free (ivu : Ivu w) (ptr : Nat) : Except Abort (Ivu w) :=
  if (ivu.blocks ptr).inUse then
    .ok { ivu with blocks :=
      Function.update ivu.blocks ptr ⟨⟨junk w, junk w⟩, false⟩ }
  else .error .dangling

def lookupFM (ivu : Ivu w) (key : BitVec w) : Bool :=
  (OrderedMap.lookup cmpUnsignedWords key ivu.collect).isSome

def addToFM (ivu : Ivu w) (key : BitVec w) (ptr : Nat) : Ivu w :=
  { ivu with collect :=
      OrderedMap.add cmpUnsignedWords key ptr ivu.collect }

def delFromFM (ivu : Ivu w) (key : BitVec w) : Ivu w :=
  { ivu with collect := OrderedMap.remove cmpUnsignedWords key ivu.collect }

/-- What `VG_(nextIterFM)` yields after `VG_(initIterAtFM)`. -/
def iterAtFM (ivu : Ivu w) (key : BitVec w) : List (BitVec w × Nat) :=
  OrderedMap.atOrAfter cmpUnsignedWords key ivu.collect

/-- The key of an end point is moved, if the union is to be updated. -/
def moveKey (ivu : Ivu w) (upDateIvu : Bool) (old new : BitVec w)
    (ptr : Nat) : Except Abort (Ivu w) :=
  if upDateIvu then do
    tlAssert (ivu.lookupFM old = true)
    let ivu := ivu.delFromFM old
    tlAssert (ivu.lookupFM new = false)
    pure (ivu.addToFM new ptr)
  else pure ivu

def joinInterval (ivu : Ivu w) (dest src : Nat) (upDateIvu : Bool) :
    Except Abort (Ivu w) := do
  let ivu ←
    if (ivu.interval src).start < (ivu.interval dest).start then do
      let start := (ivu.interval src).start
      let ivu ← ivu.moveKey upDateIvu (ivu.interval dest).start start dest
      pure (ivu.setInterval dest { ivu.interval dest with start := start })
    else pure ivu
  if (ivu.interval src).stop > (ivu.interval dest).stop then do
    let stop := (ivu.interval src).stop
    let ivu ← ivu.moveKey upDateIvu (ivu.interval dest).stop stop dest
    pure (ivu.setInterval dest { ivu.interval dest with stop := stop })
  else pure ivu

/-- The loop of `ivUnion_isSane`. -/
def saneFrom (ivu : Ivu w) :
    List (BitVec w × Nat) → BitVec w → BitVec w → Bool
  | [], _, _ => true
  | (key, ptr) :: rest, lastStart, lastEnd =>
      let ivc := ivu.interval ptr
      if ivc.start ≥ ivc.stop then false
      else if key = ivc.start then
        if lastEnd ≠ 0 ∧ ivc.start ≤ lastEnd then false
        else ivu.saneFrom rest ivc.start lastEnd
      else if key = ivc.stop then
        if lastStart ≠ 0 ∧ ivc.start ≠ lastStart then false
        else ivu.saneFrom rest lastStart ivc.stop
      else false

def isSane (ivu : Ivu w) : Bool := ivu.saneFrom ivu.collect 0 0

def new : Ivu w := ⟨[], fun _ => ⟨⟨0, 0⟩, false⟩, 0⟩

/-- The variable `intersect`. -/
def intersects (ivc iv : Interval w) : Bool :=
  (ivc.start ≥ iv.start && ivc.start ≤ iv.stop) ||
    (ivc.stop ≥ iv.start && ivc.stop ≤ iv.stop)

/-- The first loop of `HG_(ivUnionAddInterval)`; the results are the array
`tmpXa` and the flag `isIncluded`. -/
def scan (ivu : Ivu w) (iv : Nat) :
    List (BitVec w × Nat) → List Nat → Except Abort (Ivu w × List Nat × Bool)
  | [], tmpXa => .ok (ivu, tmpXa, false)
  | (_, ptr) :: rest, tmpXa =>
      let ivc := ivu.interval ptr
      if (ivu.interval iv).stop ≤ ivc.stop ∧
          (ivu.interval iv).start ≥ ivc.start then do
        let ivu ← ivu.joinInterval ptr iv true
        let ivu ← ivu.free iv
        pure (ivu, tmpXa, true)
      else
        let tmpXa :=
          if intersects ivc (ivu.interval iv) then tmpXa ++ [ptr] else tmpXa
        if (ivu.interval iv).stop < ivc.start then .ok (ivu, tmpXa, false)
        else ivu.scan iv rest tmpXa

/-- One round of the second loop. -/
def absorb (iv : Nat) (ivu : Ivu w) (ptr : Nat) : Except Abort (Ivu w) :=
  if ivu.lookupFM (ivu.interval ptr).start then do
    let ivu := ivu.delFromFM (ivu.interval ptr).start
    let ivu ← ivu.joinInterval iv ptr false
    let ivu := ivu.delFromFM (ivu.interval ptr).stop
    ivu.free ptr
  else pure ivu

def ivUnionAddInterval (ivu : Ivu w) (start stop : BitVec w) :
    Except Abort (Ivu w × Bool) := do
  let (ivu, iv) := ivu.zalloc ⟨start, stop⟩
  let (ivu, tmpXa, isIncluded) ←
    ivu.scan iv (ivu.iterAtFM (ivu.interval iv).start) []
  let ivu ←
    if isIncluded then pure ivu
    else do
      let ivu ← tmpXa.foldlM (absorb iv) ivu
      let ivu := ivu.addToFM (ivu.interval iv).start iv
      pure (ivu.addToFM (ivu.interval iv).stop iv)
  tlAssert (ivu.isSane = true)
  pure (ivu, !isIncluded)

/-- The loop of `HG_(ivUnionContains)`. -/
def containsFrom (ivu : Ivu w) (value : BitVec w) :
    List (BitVec w × Nat) → Option Nat
  | [] => none
  | (_, ptr) :: rest =>
      let ivc := ivu.interval ptr
      if ivc.start > value then none
      else if ivc.start ≤ value ∧ ivc.stop > value then some ptr
      else ivu.containsFrom value rest

def ivUnionContains (ivu : Ivu w) (value : BitVec w) :
    Except Abort (Option Nat) := do
  let res := ivu.containsFrom value (ivu.iterAtFM value)
  tlAssert (ivu.isSane = true)
  pure res

/-- Some calls of `HG_(ivUnionAddInterval)` on a new union. -/
def addAll (calls : List (BitVec w × BitVec w)) : Except Abort (Ivu w) :=
  calls.foldlM (fun ivu call => do
    let (ivu, _) ← ivu.ivUnionAddInterval call.1 call.2
    pure ivu) new

section Words

variable {a b : BitVec w}

theorem cmp_neg_iff : cmpUnsignedWords a b < 0 ↔ a < b := by
  unfold cmpUnsignedWords
  simp only [BitVec.lt_def]
  split_ifs <;> omega

theorem cmp_eq_zero_iff : cmpUnsignedWords a b = 0 ↔ a = b := by
  rw [← BitVec.toNat_inj]
  unfold cmpUnsignedWords
  simp only [BitVec.lt_def]
  split_ifs
  · exact iff_of_false (by decide) (by omega)
  · exact iff_of_false (by decide) (by omega)
  · exact iff_of_true rfl (by omega)

theorem cmp_nonneg_iff : 0 ≤ cmpUnsignedWords a b ↔ b ≤ a := by
  unfold cmpUnsignedWords
  simp only [BitVec.lt_def, BitVec.le_def]
  split_ifs <;> omega

theorem cmp_pos_iff : 0 < cmpUnsignedWords a b ↔ b < a := by
  unfold cmpUnsignedWords
  simp only [BitVec.lt_def]
  split_ifs <;> omega

end Words

/-- The intervals of a union with their addresses, from the lowest up. -/
abbrev Stored (w : Nat) := List (Nat × Interval w)

/-- The two entries of an interval. -/
def keys (entry : Nat × Interval w) : List (BitVec w × Nat) :=
  [(entry.2.start, entry.1), (entry.2.stop, entry.1)]

def keysOf (stored : Stored w) : List (BitVec w × Nat) :=
  stored.flatMap keys

/-- The intervals are not empty, and no two of them touch. -/
structure Apart (stored : Stored w) : Prop where
  proper : ∀ entry ∈ stored, entry.2.start < entry.2.stop
  apart : stored.Pairwise fun entry entry' => entry.2.stop < entry'.2.start

/-- The union keeps exactly these intervals, each under its two end points. -/
structure Represents (ivu : Ivu w) (stored : Stored w) : Prop where
  collect : ivu.collect = keysOf stored
  blocks : ∀ entry ∈ stored, ivu.blocks entry.1 = ⟨entry.2, true⟩
  apart : Apart stored
  distinct : (stored.map Prod.fst).Nodup
  old : ∀ entry ∈ stored, entry.1 < ivu.allocd

section Entries

variable {stored left right : Stored w} {entry : Nat × Interval w}
  {key : BitVec w}

theorem mem_keysOf {item : BitVec w × Nat} :
    item ∈ keysOf stored ↔ ∃ entry ∈ stored, item.2 = entry.1 ∧
      (item.1 = entry.2.start ∨ item.1 = entry.2.stop) := by
  obtain ⟨key, ptr⟩ := item
  simp only [keysOf, keys, List.mem_flatMap, List.mem_cons, List.not_mem_nil,
    or_false, Prod.mk.injEq]
  constructor
  · rintro ⟨entry, member, ⟨rfl, rfl⟩ | ⟨rfl, rfl⟩⟩
    · exact ⟨entry, member, rfl, .inl rfl⟩
    · exact ⟨entry, member, rfl, .inr rfl⟩
  · rintro ⟨entry, member, rfl, rfl | rfl⟩
    · exact ⟨entry, member, .inl ⟨rfl, rfl⟩⟩
    · exact ⟨entry, member, .inr ⟨rfl, rfl⟩⟩

theorem keysOf_append : keysOf (left ++ right) = keysOf left ++ keysOf right :=
  List.flatMap_append

theorem keysOf_cons : keysOf (entry :: right) = keys entry ++ keysOf right :=
  rfl

theorem Apart.of_append (apart : Apart (left ++ right)) :
    Apart left ∧ Apart right := by
  obtain ⟨leftApart, rightApart, -⟩ := List.pairwise_append.mp apart.apart
  exact ⟨⟨fun entry member => apart.proper entry
      (List.mem_append_left _ member), leftApart⟩,
    ⟨fun entry member => apart.proper entry
      (List.mem_append_right _ member), rightApart⟩⟩

theorem Apart.of_cons (apart : Apart (entry :: right)) :
    entry.2.start < entry.2.stop ∧
      (∀ later ∈ right, entry.2.stop < later.2.start) ∧ Apart right := by
  obtain ⟨below, rest⟩ := List.pairwise_cons.mp apart.apart
  exact ⟨apart.proper entry List.mem_cons_self, below,
    fun later member => apart.proper later (List.mem_cons_of_mem _ member),
    rest⟩

theorem atOrAfter_keysOf_low (apart : Apart stored)
    (low : ∀ entry ∈ stored, entry.2.stop < key) :
    OrderedMap.atOrAfter cmpUnsignedWords key (keysOf stored) = [] := by
  apply OrderedMap.atOrAfter_eq_nil
  intro item member
  obtain ⟨entry, isEntry, -, isKey⟩ := mem_keysOf.mp member
  have proper := apart.proper entry isEntry
  have below := low entry isEntry
  rw [cmp_neg_iff]
  rcases isKey with same | same <;> rw [same] <;> bv_omega

theorem atOrAfter_keysOf_high (apart : Apart stored)
    (high : ∀ entry ∈ stored, key ≤ entry.2.start) :
    OrderedMap.atOrAfter cmpUnsignedWords key (keysOf stored) =
      keysOf stored := by
  apply OrderedMap.atOrAfter_eq_self
  intro item member
  obtain ⟨entry, isEntry, -, isKey⟩ := mem_keysOf.mp member
  have proper := apart.proper entry isEntry
  have above := high entry isEntry
  rw [cmp_nonneg_iff]
  rcases isKey with same | same <;> rw [same] <;> bv_omega

theorem atOrAfter_append (left right : List (BitVec w × Nat)) :
    OrderedMap.atOrAfter cmpUnsignedWords key (left ++ right) =
      OrderedMap.atOrAfter cmpUnsignedWords key left ++
        OrderedMap.atOrAfter cmpUnsignedWords key right :=
  List.filter_append ..

/-- No end point of the intervals is the key. -/
def Avoids (stored : Stored w) (key : BitVec w) : Prop :=
  ∀ entry ∈ stored, entry.2.start ≠ key ∧ entry.2.stop ≠ key

theorem Avoids.absent (avoids : Avoids stored key) :
    ∀ item ∈ keysOf stored, cmpUnsignedWords item.1 key ≠ 0 := by
  intro item member same
  obtain ⟨entry, isEntry, -, isKey⟩ := mem_keysOf.mp member
  rw [cmp_eq_zero_iff] at same
  obtain ⟨notStart, notStop⟩ := avoids entry isEntry
  rcases isKey with isStart | isStop
  · exact notStart (isStart.symm.trans same)
  · exact notStop (isStop.symm.trans same)

end Entries

private theorem saneFrom_keysOf {ivu : Ivu w} {stored : Stored w}
    (blocks : ∀ entry ∈ stored, ivu.blocks entry.1 = ⟨entry.2, true⟩)
    (apart : Apart stored) (lastStart lastEnd : BitVec w)
    (above : ∀ entry ∈ stored, lastEnd = 0 ∨ lastEnd < entry.2.start) :
    ivu.saneFrom (keysOf stored) lastStart lastEnd = true := by
  induction stored generalizing lastStart lastEnd with
  | nil => rfl
  | cons entry rest induction =>
      obtain ⟨proper, below, restApart⟩ := apart.of_cons
      have here : ivu.interval entry.1 = entry.2 := by
        rw [interval, blocks entry List.mem_cons_self]
      have tail := induction
        (fun later member => blocks later (List.mem_cons_of_mem _ member))
        restApart entry.2.start entry.2.stop
        (fun later member => .inr (below later member))
      have notEmpty : ¬ entry.2.start ≥ entry.2.stop := by bv_omega
      have notBelow : ¬ (lastEnd ≠ 0 ∧ entry.2.start ≤ lastEnd) := by
        rintro ⟨nonzero, reached⟩
        rcases above entry List.mem_cons_self with zero | less
        · exact nonzero zero
        · bv_omega
      have notStart : entry.2.stop ≠ entry.2.start := by bv_omega
      simp only [keysOf_cons, keys, List.cons_append, List.nil_append,
        saneFrom, here, if_neg notEmpty, if_true, if_neg notBelow,
        if_neg notStart, ne_eq, not_true_eq_false, and_false, if_false]
      exact tail

theorem Represents.isSane {ivu : Ivu w} {stored : Stored w}
    (represents : ivu.Represents stored) : ivu.isSane = true := by
  unfold Ivu.isSane
  rw [represents.collect]
  exact saneFrom_keysOf represents.blocks represents.apart 0 0
    fun _ _ => .inl rfl

/-- One of the intervals contains the address. -/
def Within (stored : Stored w) (v : BitVec w) : Prop :=
  ∃ entry ∈ stored, entry.2.Contains v

theorem containsFrom_keysOf {ivu : Ivu w} {stored : Stored w}
    (blocks : ∀ entry ∈ stored, ivu.blocks entry.1 = ⟨entry.2, true⟩)
    (apart : Apart stored) (v : BitVec w) :
    ivu.containsFrom v
        (OrderedMap.atOrAfter cmpUnsignedWords v (keysOf stored)) =
      (stored.find? fun entry => entry.2.Contains v).map Prod.fst := by
  induction stored with
  | nil => rfl
  | cons entry rest induction =>
      obtain ⟨proper, below, restApart⟩ := apart.of_cons
      have here : ivu.interval entry.1 = entry.2 := by
        rw [interval, blocks entry List.mem_cons_self]
      have tail := induction
        (fun later member => blocks later (List.mem_cons_of_mem _ member))
        restApart
      rw [keysOf_cons, atOrAfter_append]
      by_cases inside : entry.2.Contains v
      · -- the first key that is visited belongs to the interval
        have visited : ∃ key more, OrderedMap.atOrAfter cmpUnsignedWords v
            (keys entry) = (key, entry.1) :: more := by
          by_cases atStart : v ≤ entry.2.start
          · exact ⟨_, _, List.filter_cons_of_pos
              (by simpa [cmp_nonneg_iff] using atStart)⟩
          · refine ⟨_, _, (List.filter_cons_of_neg
              (by simpa [cmp_nonneg_iff] using atStart)).trans
              (List.filter_cons_of_pos ?_)⟩
            simpa [cmp_nonneg_iff] using BitVec.le_of_lt inside.2
        obtain ⟨key, more, isVisited⟩ := visited
        have notAbove : ¬ entry.2.start > v := by
          have := inside.1
          bv_omega
        have found : entry.2.start ≤ v ∧ entry.2.stop > v := inside
        rw [isVisited, List.find?_cons_of_pos (by simpa using inside)]
        simp only [List.cons_append, containsFrom, here, if_neg notAbove,
          if_pos found, Option.map_some]
      · rw [List.find?_cons_of_neg (by simpa using inside)]
        by_cases early : v < entry.2.start
        · have visited : OrderedMap.atOrAfter cmpUnsignedWords v
              (keys entry) = keys entry := by
            apply OrderedMap.atOrAfter_eq_self
            intro item member
            simp only [keys, List.mem_cons, List.not_mem_nil,
              or_false] at member
            rw [cmp_nonneg_iff]
            rcases member with rfl | rfl <;> bv_omega
          have absent : rest.find? (fun entry => entry.2.Contains v) =
              none := by
            apply List.find?_eq_none.mpr
            intro later member
            have above := below later member
            have outside : ¬ later.2.Contains v :=
              fun inside => by
                have := inside.1
                bv_omega
            simpa using outside
          rw [visited, absent]
          simp only [keys, List.cons_append, containsFrom, here,
            if_pos (show entry.2.start > v from early), Option.map_none]
        · have past : ¬ (entry.2.start ≤ v ∧ entry.2.stop > v) := inside
          have ended : entry.2.stop ≤ v := by bv_omega
          have notStart : ¬ v ≤ entry.2.start := by bv_omega
          have notAbove : ¬ entry.2.start > v := early
          rw [← tail]
          by_cases atStop : v ≤ entry.2.stop
          · have visited : OrderedMap.atOrAfter cmpUnsignedWords v
                (keys entry) = [(entry.2.stop, entry.1)] :=
              (List.filter_cons_of_neg
                (by simpa [cmp_nonneg_iff] using notStart)).trans
                (List.filter_cons_of_pos
                  (by simpa [cmp_nonneg_iff] using atStop))
            rw [visited]
            simp only [List.cons_append, List.nil_append, containsFrom, here,
              if_neg notAbove, if_neg past]
          · have visited : OrderedMap.atOrAfter cmpUnsignedWords v
                (keys entry) = [] := by
              apply OrderedMap.atOrAfter_eq_nil
              intro item member
              simp only [keys, List.mem_cons, List.not_mem_nil,
                or_false] at member
              rw [cmp_neg_iff]
              rcases member with rfl | rfl <;> bv_omega
            rw [visited, List.nil_append]

end Ivu
end HelgrindPlus
