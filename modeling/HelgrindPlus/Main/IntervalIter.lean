import HelgrindPlus.Main.IntervalRuns

/-!
# Iterating over a union of intervals

`HG_(nextIterIvu)` takes two entries of the word map for each interval and
passes over the one whose key is the end.  The pointer that it returns is the
one into which `VG_(nextIterFM)` writes, so it is not `NULL` when the word map
ends after an entry that was passed over.
-/

namespace HelgrindPlus
namespace Ivu

variable {w : Nat}

/-- The iterator of the union is that of its word map: the entries that are
still to come. -/
def initIterIvu (ivu : Ivu w) : List (BitVec w × Nat) := ivu.collect

/-- The loop of `HG_(nextIterIvu)`, with the value of `ivc`. -/
def nextIterFrom (ivu : Ivu w) (ivc : Option Nat) :
    List (BitVec w × Nat) → Option Nat × List (BitVec w × Nat)
  | [] => (ivc, [])
  | (key, ptr) :: rest =>
      if (ivu.interval ptr).start ≠ key then
        ivu.nextIterFrom (some ptr) rest
      else (some ptr, rest)

def nextIterIvu (ivu : Ivu w) (iter : List (BitVec w × Nat)) :
    Option Nat × List (BitVec w × Nat) :=
  ivu.nextIterFrom none iter

/-- What so many calls of `HG_(nextIterIvu)` return. -/
def nextItersIvu (ivu : Ivu w) : Nat → List (BitVec w × Nat) →
    List (Option Nat)
  | 0, _ => []
  | count + 1, iter =>
      (ivu.nextIterIvu iter).1 ::
        ivu.nextItersIvu count (ivu.nextIterIvu iter).2

/-- The pointers come first, and after them `NULL` for ever. -/
def untilNull (ptrs : List Nat) (count : Nat) : List (Option Nat) :=
  (ptrs.map some ++ List.replicate count none).take count

/-- Each stored interval is visited once, from the lowest up. -/
def VisitsOnce (ivu : Ivu w) (stored : Stored w) : Prop :=
  ∀ count, ivu.nextItersIvu count ivu.initIterIvu =
    untilNull (stored.map Prod.fst) count

private theorem untilNull_nil_succ (count : Nat) :
    untilNull [] (count + 1) = none :: untilNull [] count := by
  simp [untilNull, List.replicate_succ]

theorem untilNull_cons_succ (ptr : Nat) (ptrs : List Nat) (count : Nat) :
    untilNull (ptr :: ptrs) (count + 1) = some ptr :: untilNull ptrs count := by
  simp only [untilNull, List.map_cons, List.cons_append, List.take_succ_cons,
    List.replicate_succ', ← List.append_assoc]
  rw [List.take_append_of_le_length (by simp)]

section Walk

variable {ivu : Ivu w} {stored : Stored w} {entry : Nat × Interval w}

/-- The entry under the start ends the loop. -/
theorem nextIterFrom_start (here : ivu.interval entry.1 = entry.2)
    (ivc : Option Nat) (rest : List (BitVec w × Nat)) :
    ivu.nextIterFrom ivc (keys entry ++ rest) =
      (some entry.1, (entry.2.stop, entry.1) :: rest) := by
  have atStart : ¬ (ivu.interval entry.1).start ≠ entry.2.start := by
    rw [here]
    exact not_not_intro rfl
  simp only [keys, List.cons_append, List.nil_append, nextIterFrom,
    if_neg atStart]

/-- The entry under the end is passed over, and is what is left in `ivc`. -/
theorem nextIterFrom_stop (here : ivu.interval entry.1 = entry.2)
    (proper : entry.2.start < entry.2.stop)
    (ivc : Option Nat) (rest : List (BitVec w × Nat)) :
    ivu.nextIterFrom ivc ((entry.2.stop, entry.1) :: rest) =
      ivu.nextIterFrom (some entry.1) rest := by
  have passed : (ivu.interval entry.1).start ≠ entry.2.stop := by
    rw [here]
    bv_omega
  simp only [nextIterFrom, if_pos passed]

private theorem nextItersIvu_nil (count : Nat) :
    ivu.nextItersIvu count [] = untilNull [] count := by
  induction count with
  | zero => rfl
  | succ count induction =>
      rw [untilNull_nil_succ, ← induction]
      rfl

/-- After an interval has been returned, the later ones follow; at the end the
last one comes once more. -/
theorem nextItersIvu_after (count : Nat)
    (blocks : ∀ stored' ∈ entry :: stored,
      ivu.interval stored'.1 = stored'.2)
    (apart : Apart (entry :: stored)) :
    ivu.nextItersIvu count ((entry.2.stop, entry.1) :: keysOf stored) =
      untilNull (stored.map Prod.fst ++
        [((entry :: stored).getLast (List.cons_ne_nil _ _)).1]) count := by
  induction count generalizing entry stored with
  | zero => rfl
  | succ count induction =>
      obtain ⟨proper, -, restApart⟩ := apart.of_cons
      have passed := nextIterFrom_stop (blocks entry List.mem_cons_self)
        proper none (keysOf stored)
      cases stored with
      | nil =>
          have again : ivu.nextIterIvu ((entry.2.stop, entry.1) :: []) =
              (some entry.1, []) := passed
          show (ivu.nextIterIvu ((entry.2.stop, entry.1) :: [])).1 ::
            ivu.nextItersIvu count
              (ivu.nextIterIvu ((entry.2.stop, entry.1) :: [])).2 = _
          rw [again, nextItersIvu_nil]
          exact (untilNull_cons_succ entry.1 [] count).symm
      | cons next later =>
          have here := blocks next (List.mem_cons_of_mem _ List.mem_cons_self)
          rw [keysOf_cons, nextIterFrom_start here] at passed
          have one : ivu.nextIterIvu
              ((entry.2.stop, entry.1) :: keysOf (next :: later)) =
                (some next.1, (next.2.stop, next.1) :: keysOf later) := passed
          have rest := induction
            (fun stored' member => blocks stored'
              (List.mem_cons_of_mem _ member)) restApart
          rw [nextItersIvu, one, rest, List.map_cons, List.cons_append,
            untilNull_cons_succ, List.getLast_cons (List.cons_ne_nil _ _)]

theorem Represents.interval_eq (represents : ivu.Represents stored) :
    ∀ entry ∈ stored, ivu.interval entry.1 = entry.2 :=
  fun _ member => represents.interval member

/-- The last interval comes twice. -/
theorem Represents.nextItersIvu (represents : ivu.Represents stored)
    (nonempty : stored ≠ []) (count : Nat) :
    ivu.nextItersIvu count ivu.initIterIvu =
      untilNull (stored.map Prod.fst ++ [(stored.getLast nonempty).1])
        count := by
  cases stored with
  | nil => exact absurd rfl nonempty
  | cons entry later =>
      cases count with
      | zero => rfl
      | succ count =>
          have first := nextIterFrom_start
            (represents.interval List.mem_cons_self) none (keysOf later)
          have one : ivu.nextIterIvu (keysOf (entry :: later)) =
              (some entry.1, (entry.2.stop, entry.1) :: keysOf later) := first
          rw [initIterIvu, represents.collect, Ivu.nextItersIvu, one,
            nextItersIvu_after count represents.interval_eq represents.apart,
            List.map_cons, List.cons_append, untilNull_cons_succ]

/-- Only an empty union is iterated over as it should be: the last interval of
any other is visited a second time. -/
theorem next_iter_ivu_visits_once_iff (represents : ivu.Represents stored) :
    ivu.VisitsOnce stored ↔ stored = [] := by
  constructor
  · intro visits
    by_contra nonempty
    have enough := visits (stored.length + 1)
    rw [represents.nextItersIvu nonempty] at enough
    have ends := congrArg (fun calls => calls[stored.length]?) enough
    simp [untilNull] at ends
  · rintro rfl count
    rw [initIterIvu, represents.collect]
    exact nextItersIvu_nil count

end Walk

def twoIntervals : Stored 64 :=
  [(0, ⟨0x400000, 0x400010⟩), (1, ⟨0x400020, 0x400030⟩)]

/-- The union of the two intervals. -/
def twoApart : Ivu 64 where
  collect := keysOf twoIntervals
  blocks ptr :=
    if ptr = 0 then ⟨⟨0x400000, 0x400010⟩, true⟩
    else ⟨⟨0x400020, 0x400030⟩, true⟩
  allocd := 2

private theorem twoApart_represents : twoApart.Represents twoIntervals where
  collect := rfl
  blocks := by simp [twoIntervals, twoApart]
  apart := by
    constructor
    · simp [twoIntervals]
    · simp [twoIntervals]
  distinct := by decide
  old := by simp [twoIntervals, twoApart]

theorem next_iter_ivu_visits_once_iff_two :
    ((new (w := 64)).VisitsOnce [] ↔ ([] : Stored 64) = []) ∧
    (twoApart.VisitsOnce twoIntervals ↔ twoIntervals = []) :=
  ⟨next_iter_ivu_visits_once_iff represents_new,
    next_iter_ivu_visits_once_iff twoApart_represents⟩

/-- A loop over a union of two intervals sees the second one twice. -/
theorem next_iter_ivu_repeats_last : ∃ ivu : Ivu 64,
    addAll [(0x400000#64, 0x400010#64), (0x400020#64, 0x400030#64)] =
      .ok ivu ∧
    ivu.nextItersIvu 4 ivu.initIterIvu = [some 0, some 1, some 1, none] ∧
    ¬ ivu.VisitsOnce [(0, ⟨0x400000#64, 0x400010#64⟩),
      (1, ⟨0x400020#64, 0x400030#64⟩)] := by
  refine ⟨_, rfl, by decide +kernel, fun visits => ?_⟩
  have third := visits 3
  revert third
  decide +kernel

end Ivu
end HelgrindPlus
