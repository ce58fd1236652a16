import Mathlib.Data.List.Pairwise
import Mathlib.Data.List.Sort
import Mathlib.Order.MinMax
import Mathlib.Tactic.Common

/-!
# Vector timestamps

The primitives of the section "vts primitives" of `libhb_core.c`.  A
timestamp is a list of scalar timestamps in strictly increasing order of the
owning thread, in which absent threads implicitly carry the value zero.
`VTS` carries that order and the positivity of the stored values, which
`is_sane_VTS` asserts around every operation.
-/

namespace HelgrindPlus

/-- One entry of a timestamp.  `thr` is the address of a `Thr` record; the
code compares these pointers with `<`. -/
structure ScalarTS where
  thr : Nat
  tym : Nat
  deriving DecidableEq, Repr

inductive POrd where
  | eq | lt | gt | un
  deriving DecidableEq, Repr

/-- The test `ord == POrd_EQ || ord == POrd_LT`. -/
def POrd.isLeq : POrd → Bool
  | .eq | .lt => true
  | .gt | .un => false

def POrd.isGeq : POrd → Bool
  | .eq | .gt => true
  | .lt | .un => false

namespace ScalarTS

/-- The strict order of the entries of a timestamp. -/
abbrev Sorted (ts : List ScalarTS) : Prop :=
  ts.Pairwise (fun left right => left.thr < right.thr)

abbrev Positive (ts : List ScalarTS) : Prop :=
  ∀ st ∈ ts, 0 < st.tym

def indexAt (ts : List ScalarTS) (idx : Nat) : Nat :=
  match ts with
  | [] => 0
  | st :: rest => if st.thr = idx then st.tym else indexAt rest idx

/-- The loop of `VTS__tick`.  Running off the end appends a fresh entry, as
does the special case for the empty timestamp. -/
def tick (me : Nat) : List ScalarTS → List ScalarTS
  | [] => [⟨me, 1⟩]
  | here :: rest =>
      if me < here.thr then ⟨me, 1⟩ :: here :: rest
      else if me = here.thr then ⟨me, here.tym + 1⟩ :: rest
      else here :: tick me rest

/-- The next thread occurring in either operand, with its two scalar values. -/
structure Triple where
  thr : Nat
  tyma : Nat
  tymb : Nat
  deriving DecidableEq, Repr

/-- Enumeration against a nonempty left operand; `rest` enumerates what
remains of the left operand once its head has been used up. -/
def triplesFrom (tmpa : ScalarTS)
    (rest : List ScalarTS → List Triple) : List ScalarTS → List Triple
  | [] => ⟨tmpa.thr, tmpa.tym, 0⟩ :: rest []
  | tmpb :: bs =>
      if tmpa.thr < tmpb.thr then
        ⟨tmpa.thr, tmpa.tym, 0⟩ :: rest (tmpb :: bs)
      else if tmpb.thr < tmpa.thr then
        ⟨tmpb.thr, 0, tmpb.tym⟩ :: triplesFrom tmpa rest bs
      else ⟨tmpa.thr, tmpa.tym, tmpb.tym⟩ :: rest bs

/-- The triples `(thr, tyma, tymb)` drawn in order from both operands; the
common logic of `VTS__join` and `VTS__cmp`. -/
def triples : List ScalarTS → List ScalarTS → List Triple
  | [], bs => bs.map (fun tmpb => ⟨tmpb.thr, 0, tmpb.tym⟩)
  | tmpa :: as, bs => triplesFrom tmpa (triples as) bs

def joinTriple (triple : Triple) : Option ScalarTS :=
  let tymMax := if triple.tyma > triple.tymb then triple.tyma else triple.tymb
  if tymMax > 0 then some ⟨triple.thr, tymMax⟩ else none

def join (a b : List ScalarTS) : List ScalarTS :=
  (triples a b).filterMap joinTriple

/-- The verdict of `VTS__cmp` on its two flags. -/
def ordOfFlags (allLeq allGeq : Bool) : POrd :=
  if allLeq && allGeq then .eq
  else if allLeq then .lt
  else if allGeq then .gt
  else .un

/-- The loop of `VTS__cmp` over the flags `all_leq` and `all_geq`. -/
def cmpLoop : List Triple → Bool → Bool → POrd
  | [], allLeq, allGeq => ordOfFlags allLeq allGeq
  | triple :: rest, allLeq, allGeq =>
      let allGeq := if triple.tyma < triple.tymb then false else allGeq
      let allLeq := if triple.tyma > triple.tymb then false else allLeq
      cmpLoop rest allLeq allGeq

def cmp (a b : List ScalarTS) : POrd :=
  cmpLoop (triples a b) true true

theorem indexAt_eq_zero_of_lt
    {ts : List ScalarTS} {idx : Nat}
    (below : ∀ st ∈ ts, idx < st.thr) :
    indexAt ts idx = 0 := by
  induction ts with
  | nil => rfl
  | cons st rest induction =>
      have different : st.thr ≠ idx := by
        have bound := below st (by simp)
        omega
      simp only [indexAt, if_neg different]
      exact induction (fun other member => below other (by simp [member]))

private theorem tick_lower_bound
    {ts : List ScalarTS} {me bound : Nat}
    (meAbove : bound < me) (above : ∀ st ∈ ts, bound < st.thr) :
    ∀ st ∈ tick me ts, bound < st.thr := by
  induction ts with
  | nil =>
      intro st member
      simp only [tick, List.mem_singleton] at member
      simpa [member] using meAbove
  | cons here rest induction =>
      have restAbove : ∀ st ∈ rest, bound < st.thr :=
        fun st member => above st (by simp [member])
      intro st member
      unfold tick at member
      split at member
      · rcases List.mem_cons.mp member with rfl | old
        · exact meAbove
        · exact above st old
      · split at member
        · rcases List.mem_cons.mp member with rfl | old
          · exact meAbove
          · exact restAbove st old
        · rcases List.mem_cons.mp member with rfl | old
          · exact above st (by simp)
          · exact induction restAbove st old

private theorem tick_sorted (me : Nat) {ts : List ScalarTS}
    (sorted : Sorted ts) : Sorted (tick me ts) := by
  induction ts with
  | nil => simp [tick, Sorted]
  | cons here rest induction =>
      obtain ⟨headBelow, restSorted⟩ := List.pairwise_cons.mp sorted
      unfold tick
      split
      · rename_i meBelow
        refine List.pairwise_cons.mpr ⟨?_, sorted⟩
        intro st member
        rcases List.mem_cons.mp member with rfl | old
        · exact meBelow
        · exact Nat.lt_trans meBelow (headBelow st old)
      · split
        · rename_i same
          refine List.pairwise_cons.mpr ⟨?_, restSorted⟩
          simpa [same] using headBelow
        · rename_i notBelow different
          have hereBelow : here.thr < me := by omega
          exact List.pairwise_cons.mpr
            ⟨tick_lower_bound hereBelow headBelow, induction restSorted⟩

private theorem tick_positive (me : Nat) {ts : List ScalarTS}
    (positive : Positive ts) : Positive (tick me ts) := by
  induction ts with
  | nil => simp [tick, Positive]
  | cons here rest induction =>
      have restPositive : Positive rest :=
        fun st member => positive st (by simp [member])
      intro st member
      unfold tick at member
      split at member
      · rcases List.mem_cons.mp member with rfl | old
        · exact Nat.one_pos
        · exact positive st old
      · split at member
        · rcases List.mem_cons.mp member with rfl | old
          · exact Nat.succ_pos _
          · exact restPositive st old
        · rcases List.mem_cons.mp member with rfl | old
          · exact positive st (by simp)
          · exact induction restPositive st old

theorem indexAt_tick (me idx : Nat) {ts : List ScalarTS}
    (sorted : Sorted ts) :
    indexAt (tick me ts) idx =
      if idx = me then indexAt ts me + 1 else indexAt ts idx := by
  induction ts with
  | nil =>
      by_cases same : idx = me
      · simp [tick, indexAt, same]
      · have reverse : me ≠ idx := Ne.symm same
        simp [tick, indexAt, same, reverse]
  | cons here rest induction =>
      obtain ⟨headBelow, restSorted⟩ := List.pairwise_cons.mp sorted
      unfold tick
      split
      · rename_i meBelow
        have meAbsent : indexAt (here :: rest) me = 0 := by
          apply indexAt_eq_zero_of_lt
          intro st member
          rcases List.mem_cons.mp member with rfl | old
          · exact meBelow
          · exact Nat.lt_trans meBelow (headBelow st old)
        rw [meAbsent]
        by_cases same : idx = me
        · simp [indexAt, same]
        · have reverse : me ≠ idx := Ne.symm same
          simp [indexAt, same, reverse]
      · split
        · rename_i same
          by_cases target : idx = me
          · simp [indexAt, target, same]
          · have reverse : me ≠ idx := Ne.symm target
            simp [indexAt, target, ← same, reverse]
        · rename_i notBelow different
          have reverse : here.thr ≠ me := Ne.symm different
          by_cases target : idx = me
          · have tail := induction restSorted
            simp only [target, if_true] at tail
            simp [indexAt, target, reverse, tail]
          · by_cases atHead : here.thr = idx
            · simp [indexAt, atHead, target]
            · have tail := induction restSorted
              simp only [target, if_false] at tail
              simp [indexAt, atHead, target, tail]

/-- What `triples` enumerates: every stored thread once, in increasing order,
with its value in each operand. -/
structure Enumerates (a b : List ScalarTS) (result : List Triple) :
    Prop where
  sorted : result.Pairwise (fun left right => left.thr < right.thr)
  values : ∀ triple ∈ result,
    triple.tyma = indexAt a triple.thr ∧ triple.tymb = indexAt b triple.thr
  covers : ∀ idx, 0 < indexAt a idx ∨ 0 < indexAt b idx →
    ∃ triple ∈ result, triple.thr = idx
  bounded : ∀ triple ∈ result,
    (∃ st ∈ a, st.thr = triple.thr) ∨ ∃ st ∈ b, st.thr = triple.thr

private theorem indexAt_cons_of_ne {st : ScalarTS} {rest : List ScalarTS}
    {idx : Nat} (different : st.thr ≠ idx) :
    indexAt (st :: rest) idx = indexAt rest idx := by
  simp [indexAt, different]

private theorem indexAt_cons_self (st : ScalarTS) (rest : List ScalarTS) :
    indexAt (st :: rest) st.thr = st.tym := by
  simp [indexAt]

private theorem bounded_below
    {a b : List ScalarTS} {result : List Triple} {bound : Nat}
    (enumerates : Enumerates a b result)
    (leftAbove : ∀ st ∈ a, bound < st.thr)
    (rightAbove : ∀ st ∈ b, bound < st.thr) :
    ∀ triple ∈ result, bound < triple.thr := by
  intro triple member
  rcases enumerates.bounded triple member with ⟨st, stored, same⟩ |
    ⟨st, stored, same⟩
  · simpa [same] using leftAbove st stored
  · simpa [same] using rightAbove st stored

private theorem enumerates_nil {bs : List ScalarTS} (sorted : Sorted bs) :
    Enumerates [] bs (triples [] bs) := by
  induction bs with
  | nil =>
      constructor <;> simp [triples, indexAt]
  | cons tmpb bs induction =>
      obtain ⟨headBelow, restSorted⟩ := List.pairwise_cons.mp sorted
      have tail := induction restSorted
      have shape : triples [] (tmpb :: bs) =
          ⟨tmpb.thr, 0, tmpb.tym⟩ :: triples [] bs := rfl
      have tailAbove : ∀ triple ∈ triples [] bs, tmpb.thr < triple.thr :=
        bounded_below tail (by simp) headBelow
      rw [shape]
      constructor
      · exact List.pairwise_cons.mpr ⟨tailAbove, tail.sorted⟩
      · intro triple member
        rcases List.mem_cons.mp member with rfl | old
        · simp [indexAt]
        · have different : tmpb.thr ≠ triple.thr :=
            Nat.ne_of_lt (tailAbove triple old)
          rw [indexAt_cons_of_ne different]
          exact tail.values triple old
      · intro idx stored
        by_cases atHead : tmpb.thr = idx
        · exact ⟨_, List.mem_cons_self, atHead⟩
        · rw [indexAt_cons_of_ne atHead] at stored
          obtain ⟨triple, member, same⟩ := tail.covers idx stored
          exact ⟨triple, List.mem_cons_of_mem _ member, same⟩
      · intro triple member
        rcases List.mem_cons.mp member with rfl | old
        · exact .inr ⟨tmpb, List.mem_cons_self, rfl⟩
        · rcases tail.bounded triple old with ⟨st, none, _⟩ | ⟨st, stored, same⟩
          · cases none
          · exact .inr ⟨st, List.mem_cons_of_mem _ stored, same⟩

/-- Putting a triple in front of an enumeration whose operands lie above it. -/
private theorem enumerates_cons
    {a b a' b' : List ScalarTS} {result : List Triple} {head : Triple}
    (tail : Enumerates a' b' result)
    (leftAbove : ∀ st ∈ a', head.thr < st.thr)
    (rightAbove : ∀ st ∈ b', head.thr < st.thr)
    (leftValue : head.tyma = indexAt a head.thr)
    (rightValue : head.tymb = indexAt b head.thr)
    (leftRest : ∀ idx, idx ≠ head.thr → indexAt a idx = indexAt a' idx)
    (rightRest : ∀ idx, idx ≠ head.thr → indexAt b idx = indexAt b' idx)
    (leftSub : ∀ st ∈ a', st ∈ a) (rightSub : ∀ st ∈ b', st ∈ b)
    (stored : (∃ st ∈ a, st.thr = head.thr) ∨ ∃ st ∈ b, st.thr = head.thr) :
    Enumerates a b (head :: result) := by
  have tailAbove := bounded_below tail leftAbove rightAbove
  constructor
  · exact List.pairwise_cons.mpr ⟨tailAbove, tail.sorted⟩
  · intro triple member
    rcases List.mem_cons.mp member with rfl | old
    · exact ⟨leftValue, rightValue⟩
    · have different : triple.thr ≠ head.thr :=
        Nat.ne_of_gt (tailAbove triple old)
      rw [leftRest _ different, rightRest _ different]
      exact tail.values triple old
  · intro idx present
    by_cases atHead : idx = head.thr
    · exact ⟨head, List.mem_cons_self, atHead.symm⟩
    · rw [leftRest idx atHead, rightRest idx atHead] at present
      obtain ⟨triple, member, same⟩ := tail.covers idx present
      exact ⟨triple, List.mem_cons_of_mem _ member, same⟩
  · intro triple member
    rcases List.mem_cons.mp member with rfl | old
    · exact stored
    · rcases tail.bounded triple old with ⟨st, member, same⟩ |
        ⟨st, member, same⟩
      · exact .inl ⟨st, leftSub st member, same⟩
      · exact .inr ⟨st, rightSub st member, same⟩

theorem triples_enumerates {a b : List ScalarTS}
    (leftSorted : Sorted a) (rightSorted : Sorted b) :
    Enumerates a b (triples a b) := by
  induction a generalizing b with
  | nil => exact enumerates_nil rightSorted
  | cons tmpa as outer =>
      obtain ⟨leftBelow, asSorted⟩ := List.pairwise_cons.mp leftSorted
      replace outer : ∀ {b}, Sorted b → Enumerates as b (triples as b) :=
        fun sorted => outer asSorted sorted
      clear leftSorted
      -- The inner induction follows `triplesFrom` down the right operand.
      show Enumerates (tmpa :: as) b (triplesFrom tmpa (triples as) b)
      induction b with
      | nil =>
          refine enumerates_cons (outer rightSorted) leftBelow (by simp)
            (indexAt_cons_self _ _).symm rfl ?_ (fun _ _ => rfl)
            (fun st => List.mem_cons_of_mem _) (fun st => id)
            (.inl ⟨tmpa, List.mem_cons_self, rfl⟩)
          exact fun idx different => indexAt_cons_of_ne (Ne.symm different)
      | cons tmpb bs inner =>
          obtain ⟨rightBelow, bsSorted⟩ := List.pairwise_cons.mp rightSorted
          unfold triplesFrom
          split
          · rename_i aBelow
            have bAbove : ∀ st ∈ tmpb :: bs, tmpa.thr < st.thr := by
              intro st member
              rcases List.mem_cons.mp member with rfl | old
              · exact aBelow
              · exact Nat.lt_trans aBelow (rightBelow st old)
            refine enumerates_cons (outer rightSorted) leftBelow bAbove
              (indexAt_cons_self _ _).symm
              (indexAt_eq_zero_of_lt bAbove).symm ?_ (fun _ _ => rfl)
              (fun st => List.mem_cons_of_mem _) (fun st => id)
              (.inl ⟨tmpa, List.mem_cons_self, rfl⟩)
            exact fun idx different => indexAt_cons_of_ne (Ne.symm different)
          · split
            · rename_i _ bBelow
              have aAbove : ∀ st ∈ tmpa :: as, tmpb.thr < st.thr := by
                intro st member
                rcases List.mem_cons.mp member with rfl | old
                · exact bBelow
                · exact Nat.lt_trans bBelow (leftBelow st old)
              refine enumerates_cons (inner bsSorted) aAbove rightBelow
                (indexAt_eq_zero_of_lt aAbove).symm
                (indexAt_cons_self _ _).symm (fun _ _ => rfl) ?_
                (fun st => id) (fun st => List.mem_cons_of_mem _)
                (.inr ⟨tmpb, List.mem_cons_self, rfl⟩)
              exact fun idx different => indexAt_cons_of_ne (Ne.symm different)
            · rename_i notA notB
              have same : tmpa.thr = tmpb.thr := by omega
              refine enumerates_cons (outer bsSorted) leftBelow
                (by simpa [same] using rightBelow)
                (indexAt_cons_self _ _).symm
                (by simp [indexAt, same]) ?_ ?_
                (fun st => List.mem_cons_of_mem _)
                (fun st => List.mem_cons_of_mem _)
                (.inl ⟨tmpa, List.mem_cons_self, rfl⟩)
              · exact fun idx different =>
                  indexAt_cons_of_ne (Ne.symm different)
              · intro idx different
                apply indexAt_cons_of_ne
                simpa [← same] using Ne.symm different

theorem joinTriple_eq (triple : Triple) :
    joinTriple triple =
      if 0 < max triple.tyma triple.tymb then
        some ⟨triple.thr, max triple.tyma triple.tymb⟩
      else none := by
  have maximum :
      (if triple.tyma > triple.tymb then triple.tyma else triple.tymb) =
        max triple.tyma triple.tymb := by
    split <;> omega
  simp [joinTriple, maximum]

private theorem indexAt_filterMap_joinTriple
    {result : List Triple} (idx : Nat)
    (sorted : result.Pairwise (fun left right => left.thr < right.thr)) :
    (∀ triple ∈ result, triple.thr = idx →
      indexAt (result.filterMap joinTriple) idx =
        max triple.tyma triple.tymb) ∧
    ((∀ triple ∈ result, triple.thr ≠ idx) →
      indexAt (result.filterMap joinTriple) idx = 0) := by
  induction result with
  | nil => simp [indexAt]
  | cons head tail induction =>
      obtain ⟨headBelow, tailSorted⟩ := List.pairwise_cons.mp sorted
      obtain ⟨present, absent⟩ := induction tailSorted
      have skip : head.thr ≠ idx →
          indexAt ((head :: tail).filterMap joinTriple) idx =
            indexAt (tail.filterMap joinTriple) idx := by
        intro different
        rw [List.filterMap_cons, joinTriple_eq]
        by_cases positive : 0 < max head.tyma head.tymb
        · simp [positive, indexAt, different]
        · simp [positive]
      constructor
      · intro triple member same
        rcases List.mem_cons.mp member with rfl | old
        · have tailAbsent := absent (fun other stored atIdx => by
            have bound := headBelow other stored
            omega)
          rw [List.filterMap_cons, joinTriple_eq]
          by_cases positive : 0 < max triple.tyma triple.tymb
          · simp [positive, indexAt, same]
          · simp only [positive, if_false, tailAbsent]
            omega
        · have different : head.thr ≠ idx := by
            have bound := headBelow triple old
            omega
          rw [skip different]
          exact present triple old same
      · intro missing
        rw [skip (missing head (by simp))]
        exact absent (fun other stored => missing other (by simp [stored]))

theorem indexAt_join {a b : List ScalarTS} (idx : Nat)
    (leftSorted : Sorted a) (rightSorted : Sorted b) :
    indexAt (join a b) idx = max (indexAt a idx) (indexAt b idx) := by
  have enumerates := triples_enumerates leftSorted rightSorted
  obtain ⟨present, absent⟩ :=
    indexAt_filterMap_joinTriple idx enumerates.sorted
  by_cases stored : ∃ triple ∈ triples a b, triple.thr = idx
  · obtain ⟨triple, member, same⟩ := stored
    obtain ⟨left, right⟩ := enumerates.values triple member
    rw [join, present triple member same, left, right, same]
  · have missing : ∀ triple ∈ triples a b, triple.thr ≠ idx :=
      fun triple member same => stored ⟨triple, member, same⟩
    have zero : ¬ (0 < indexAt a idx ∨ 0 < indexAt b idx) :=
      fun positive => stored (enumerates.covers idx positive)
    rw [join, absent missing]
    omega

private theorem join_sorted {a b : List ScalarTS}
    (leftSorted : Sorted a) (rightSorted : Sorted b) :
    Sorted (join a b) := by
  refine List.Pairwise.filterMap joinTriple ?_
    (triples_enumerates leftSorted rightSorted).sorted
  intro left right below leftEntry leftSome rightEntry rightSome
  rw [joinTriple_eq] at leftSome rightSome
  split at leftSome <;> simp at leftSome
  split at rightSome <;> simp at rightSome
  subst leftEntry
  subst rightEntry
  exact below

private theorem join_positive (a b : List ScalarTS) : Positive (join a b) := by
  intro st member
  obtain ⟨triple, _, result⟩ := List.mem_filterMap.mp member
  rw [joinTriple_eq] at result
  split at result <;> simp at result
  subst st
  assumption

private theorem ordOfFlags_isLeq (allLeq allGeq : Bool) :
    (ordOfFlags allLeq allGeq).isLeq = allLeq := by
  cases allLeq <;> cases allGeq <;> rfl

private theorem ordOfFlags_isGeq (allLeq allGeq : Bool) :
    (ordOfFlags allLeq allGeq).isGeq = allGeq := by
  cases allLeq <;> cases allGeq <;> rfl

private theorem ordOfFlags_eq_iff (allLeq allGeq : Bool) :
    ordOfFlags allLeq allGeq = .eq ↔ allLeq = true ∧ allGeq = true := by
  cases allLeq <;> cases allGeq <;> decide

theorem cmpLoop_eq (result : List Triple) (allLeq allGeq : Bool) :
    cmpLoop result allLeq allGeq =
      ordOfFlags
        (allLeq && result.all (fun t => decide (t.tyma ≤ t.tymb)))
        (allGeq && result.all (fun t => decide (t.tymb ≤ t.tyma))) := by
  induction result generalizing allLeq allGeq with
  | nil => simp [cmpLoop]
  | cons triple rest induction =>
      unfold cmpLoop
      rw [induction]
      rcases Nat.lt_trichotomy triple.tyma triple.tymb with below | same | above
      · simp [below, Nat.not_lt_of_gt below, Nat.le_of_lt below,
          Nat.not_le_of_gt below]
      · simp [same]
      · simp [above, Nat.not_lt_of_gt above, Nat.le_of_lt above,
          Nat.not_le_of_gt above]

private theorem all_iff {a b : List ScalarTS}
    (leftSorted : Sorted a) (rightSorted : Sorted b)
    (relation : Nat → Nat → Bool) (reflexive : relation 0 0 = true) :
    (triples a b).all (fun t => relation t.tyma t.tymb) = true ↔
      ∀ idx, relation (indexAt a idx) (indexAt b idx) = true := by
  have enumerates := triples_enumerates leftSorted rightSorted
  rw [List.all_eq_true]
  constructor
  · intro all idx
    by_cases positive : 0 < indexAt a idx ∨ 0 < indexAt b idx
    · obtain ⟨triple, member, same⟩ := enumerates.covers idx positive
      obtain ⟨left, right⟩ := enumerates.values triple member
      have holds := all triple member
      rwa [left, right, same] at holds
    · have leftZero : indexAt a idx = 0 := by omega
      have rightZero : indexAt b idx = 0 := by omega
      rw [leftZero, rightZero]
      exact reflexive
  · intro pointwise triple member
    obtain ⟨left, right⟩ := enumerates.values triple member
    rw [left, right]
    exact pointwise triple.thr

theorem cmp_isLeq_iff {a b : List ScalarTS}
    (leftSorted : Sorted a) (rightSorted : Sorted b) :
    (cmp a b).isLeq = true ↔ ∀ idx, indexAt a idx ≤ indexAt b idx := by
  have flag := all_iff leftSorted rightSorted
    (fun left right => decide (left ≤ right)) (by simp)
  rw [cmp, cmpLoop_eq, ordOfFlags_isLeq, Bool.true_and, flag]
  simp

theorem cmp_isGeq_iff {a b : List ScalarTS}
    (leftSorted : Sorted a) (rightSorted : Sorted b) :
    (cmp a b).isGeq = true ↔ ∀ idx, indexAt b idx ≤ indexAt a idx := by
  have flag := all_iff leftSorted rightSorted
    (fun left right => decide (right ≤ left)) (by simp)
  rw [cmp, cmpLoop_eq, ordOfFlags_isGeq, Bool.true_and, flag]
  simp

theorem cmp_eq_eq_iff {a b : List ScalarTS}
    (leftSorted : Sorted a) (rightSorted : Sorted b) :
    cmp a b = .eq ↔ ∀ idx, indexAt a idx = indexAt b idx := by
  have leqFlag := all_iff leftSorted rightSorted
    (fun left right => decide (left ≤ right)) (by simp)
  have geqFlag := all_iff leftSorted rightSorted
    (fun left right => decide (right ≤ left)) (by simp)
  rw [cmp, cmpLoop_eq, ordOfFlags_eq_iff, Bool.true_and, Bool.true_and,
    leqFlag, geqFlag, ← forall_and]
  refine forall_congr' fun idx => ?_
  simp only [decide_eq_true_eq]
  omega

theorem eq_of_indexAt_eq {a b : List ScalarTS}
    (leftSorted : Sorted a) (rightSorted : Sorted b)
    (leftPositive : Positive a) (rightPositive : Positive b)
    (same : ∀ idx, indexAt a idx = indexAt b idx) : a = b := by
  induction a generalizing b with
  | nil =>
      cases b with
      | nil => rfl
      | cons tmpb bs =>
          have zero := same tmpb.thr
          have positive := rightPositive tmpb (by simp)
          rw [indexAt_cons_self] at zero
          simp [indexAt] at zero
          omega
  | cons tmpa as induction =>
      obtain ⟨leftBelow, asSorted⟩ := List.pairwise_cons.mp leftSorted
      have aPositive := leftPositive tmpa (by simp)
      cases b with
      | nil =>
          have zero := same tmpa.thr
          rw [indexAt_cons_self] at zero
          simp [indexAt] at zero
          omega
      | cons tmpb bs =>
          obtain ⟨rightBelow, bsSorted⟩ := List.pairwise_cons.mp rightSorted
          have bPositive := rightPositive tmpb (by simp)
          have headThr : tmpa.thr = tmpb.thr := by
            rcases Nat.lt_trichotomy tmpa.thr tmpb.thr with below | equal | above
            · have missing : indexAt (tmpb :: bs) tmpa.thr = 0 := by
                apply indexAt_eq_zero_of_lt
                intro st member
                rcases List.mem_cons.mp member with rfl | old
                · exact below
                · exact Nat.lt_trans below (rightBelow st old)
              have value := same tmpa.thr
              rw [indexAt_cons_self, missing] at value
              omega
            · exact equal
            · have missing : indexAt (tmpa :: as) tmpb.thr = 0 := by
                apply indexAt_eq_zero_of_lt
                intro st member
                rcases List.mem_cons.mp member with rfl | old
                · exact above
                · exact Nat.lt_trans above (leftBelow st old)
              have value := same tmpb.thr
              rw [indexAt_cons_self, missing] at value
              omega
          have headTym : tmpa.tym = tmpb.tym := by
            have value := same tmpa.thr
            rwa [indexAt_cons_self, headThr, indexAt_cons_self] at value
          have heads : tmpa = tmpb := by
            cases tmpa
            cases tmpb
            simp_all
          have tails : as = bs := by
            apply induction asSorted bsSorted
              (fun st member => leftPositive st (by simp [member]))
              (fun st member => rightPositive st (by simp [member]))
            intro idx
            by_cases atHead : tmpa.thr = idx
            · have leftZero : indexAt as idx = 0 :=
                indexAt_eq_zero_of_lt (by simpa [← atHead] using leftBelow)
              have rightZero : indexAt bs idx = 0 :=
                indexAt_eq_zero_of_lt
                  (by simpa [← atHead, headThr] using rightBelow)
              rw [leftZero, rightZero]
            · have value := same idx
              rwa [indexAt_cons_of_ne atHead,
                indexAt_cons_of_ne (by simpa [← headThr] using atHead)] at value
          rw [heads, tails]

end ScalarTS

/-- A timestamp that satisfies `is_sane_VTS`.  The stored values are also
positive, as both `VTS__tick` and `VTS__join` keep them. -/
@[ext]
structure VTS where
  ts : List ScalarTS
  sorted : ScalarTS.Sorted ts
  positive : ScalarTS.Positive ts
  deriving DecidableEq

namespace VTS

def new : VTS := ⟨[], by simp [ScalarTS.Sorted], by simp [ScalarTS.Positive]⟩

/-- `VTS__singleton`.  The only caller passes `tym = 1`. -/
def singleton (thr : Nat) (tym : Nat) (nonzero : 0 < tym) : VTS :=
  ⟨[⟨thr, tym⟩], by simp [ScalarTS.Sorted], by simpa [ScalarTS.Positive]⟩

def tick (me : Nat) (vts : VTS) : VTS :=
  ⟨ScalarTS.tick me vts.ts, ScalarTS.tick_sorted me vts.sorted,
    ScalarTS.tick_positive me vts.positive⟩

def join (a b : VTS) : VTS :=
  ⟨ScalarTS.join a.ts b.ts, ScalarTS.join_sorted a.sorted b.sorted,
    ScalarTS.join_positive a.ts b.ts⟩

def cmp (a b : VTS) : POrd := ScalarTS.cmp a.ts b.ts

def indexAt (vts : VTS) (idx : Nat) : Nat := ScalarTS.indexAt vts.ts idx

@[simp] theorem indexAt_singleton (thr idx tym : Nat) (nonzero : 0 < tym) :
    (singleton thr tym nonzero).indexAt idx =
      if idx = thr then tym else 0 := by
  simp [singleton, indexAt, ScalarTS.indexAt, eq_comm]

theorem indexAt_tick (me idx : Nat) (vts : VTS) :
    (vts.tick me).indexAt idx =
      if idx = me then vts.indexAt me + 1 else vts.indexAt idx :=
  ScalarTS.indexAt_tick me idx vts.sorted

@[simp] theorem indexAt_join (a b : VTS) (idx : Nat) :
    (a.join b).indexAt idx = max (a.indexAt idx) (b.indexAt idx) :=
  ScalarTS.indexAt_join idx a.sorted b.sorted

theorem eq_of_indexAt_eq {a b : VTS}
    (same : ∀ idx, a.indexAt idx = b.indexAt idx) : a = b :=
  VTS.ext (ScalarTS.eq_of_indexAt_eq a.sorted b.sorted a.positive b.positive
    same)

/-- The pointwise order which `VTS__cmp` decides. -/
instance : PartialOrder VTS where
  le a b := ∀ idx, a.indexAt idx ≤ b.indexAt idx
  le_refl a idx := Nat.le_refl _
  le_trans a b c first second idx := Nat.le_trans (first idx) (second idx)
  le_antisymm a b below above :=
    eq_of_indexAt_eq fun idx => Nat.le_antisymm (below idx) (above idx)

theorem le_iff {a b : VTS} :
    a ≤ b ↔ ∀ idx, a.indexAt idx ≤ b.indexAt idx := Iff.rfl

theorem cmp_isLeq_iff (a b : VTS) : (a.cmp b).isLeq = true ↔ a ≤ b :=
  ScalarTS.cmp_isLeq_iff a.sorted b.sorted

theorem cmp_isGeq_iff (a b : VTS) : (a.cmp b).isGeq = true ↔ b ≤ a :=
  ScalarTS.cmp_isGeq_iff a.sorted b.sorted

instance (a b : VTS) : Decidable (a ≤ b) :=
  decidable_of_iff _ (cmp_isLeq_iff a b)

theorem cmp_eq_eq_iff (a b : VTS) : a.cmp b = .eq ↔ a = b := by
  refine (ScalarTS.cmp_eq_eq_iff a.sorted b.sorted).trans
    ⟨eq_of_indexAt_eq, ?_⟩
  rintro rfl idx
  rfl

theorem le_of_cmp_lt {a b : VTS} (isLt : a.cmp b = .lt) : a ≤ b := by
  rw [← cmp_isLeq_iff, isLt]
  rfl

theorem not_le_of_cmp {a b : VTS} (notEq : a.cmp b = .eq → False)
    (notLt : a.cmp b = .lt → False) : ¬ a ≤ b := by
  rw [← cmp_isLeq_iff]
  cases ord : a.cmp b with
  | eq => exact (notEq ord).elim
  | lt => exact (notLt ord).elim
  | gt | un => simp [POrd.isLeq]

theorem le_tick (me : Nat) (vts : VTS) : vts ≤ vts.tick me := by
  intro idx
  rw [indexAt_tick]
  split <;> simp_all

theorem le_join_left (a b : VTS) : a ≤ a.join b :=
  fun idx => by simp

theorem le_join_right (a b : VTS) : b ≤ a.join b :=
  fun idx => by simp

theorem tick_mono {a b : VTS} (me : Nat) (below : a ≤ b) :
    a.tick me ≤ b.tick me := by
  intro idx
  rw [indexAt_tick, indexAt_tick]
  split
  · exact Nat.succ_le_succ (below me)
  · exact below idx

theorem join_mono {a b c d : VTS} (left : a ≤ c) (right : b ≤ d) :
    a.join b ≤ c.join d := by
  intro idx
  rw [indexAt_join, indexAt_join]
  exact max_le_max (left idx) (right idx)

theorem join_self (a : VTS) : a.join a = a :=
  eq_of_indexAt_eq fun idx => by simp

theorem join_le {a b c : VTS} (left : a ≤ c) (right : b ≤ c) :
    a.join b ≤ c :=
  fun idx => by simpa using ⟨left idx, right idx⟩

end VTS
end HelgrindPlus
