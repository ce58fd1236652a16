import HelgrindPlus.Lib.OrderedMap
import HelgrindPlus.LibHB.VtsTab
import Mathlib.Order.Bounds.Basic

/-!
# Vector timestamps as a join semilattice

The checked forms of the operations on timestamps, with the assertions of the
code around them, and the structural comparison by which the table of
timestamps is searched.  `VTS__join` gives least upper bounds of the pointwise
order, `VTS__cmp` decides that order in all four outcomes, and
`VTS__cmp_structural` is a total order on the lists of entries.
-/

namespace HelgrindPlus

open OrderedMap (TotalOrder)

/-- The loop of `is_sane_VTS` over neighbouring entries.  A single entry is
not looked at. -/
def isSaneVTS : List ScalarTS → Bool
  | st1 :: st2 :: rest =>
      if st1.thr ≥ st2.thr then false
      else if st1.tym = 0 ∨ st2.tym = 0 then false
      else isSaneVTS (st2 :: rest)
  | [_] => true
  | [] => true

namespace ScalarTS

private theorem isSane_of_sorted {ts : List ScalarTS} (sorted : Sorted ts)
    (positive : Positive ts) : isSaneVTS ts = true := by
  induction ts with
  | nil => rfl
  | cons st1 rest induction =>
      obtain ⟨headBelow, restSorted⟩ := List.pairwise_cons.mp sorted
      have restSane := induction restSorted fun st member =>
        positive st (List.mem_cons_of_mem _ member)
      cases rest with
      | nil => rfl
      | cons st2 rest =>
          have below := headBelow st2 List.mem_cons_self
          have first := positive st1 List.mem_cons_self
          have second := positive st2
            (List.mem_cons_of_mem _ List.mem_cons_self)
          have notAbove : ¬ st1.thr ≥ st2.thr := by omega
          have notZero : ¬ (st1.tym = 0 ∨ st2.tym = 0) := by omega
          rw [isSaneVTS, if_neg notAbove, if_neg notZero]
          exact restSane

/-- The verdict of one round of the loop of `VTS__cmp_structural`; zero sends
the loop on. -/
def cmpEntry (tmpa tmpb : ScalarTS) : Int :=
  if tmpa.tym < tmpb.tym then -1
  else if tmpa.tym > tmpb.tym then 1
  else if tmpa.thr < tmpb.thr then -1
  else if tmpa.thr > tmpb.thr then 1
  else 0

/-- The loop of `VTS__cmp_structural` over two lists of one length. -/
def cmpEntries : List ScalarTS → List ScalarTS → Int
  | tmpa :: as, tmpb :: bs =>
      if cmpEntry tmpa tmpb = 0 then cmpEntries as bs else cmpEntry tmpa tmpb
  | _, _ => 0

def cmpStructural (a b : List ScalarTS) : Int :=
  if a.length < b.length then -1
  else if a.length > b.length then 1
  else cmpEntries a b

private theorem cmpEntry_neg (tmpa tmpb : ScalarTS) :
    cmpEntry tmpb tmpa = - cmpEntry tmpa tmpb := by
  unfold cmpEntry
  grind

theorem cmpEntry_eq_zero {tmpa tmpb : ScalarTS} :
    cmpEntry tmpa tmpb = 0 ↔ tmpa = tmpb := by
  obtain ⟨thra, tyma⟩ := tmpa
  obtain ⟨thrb, tymb⟩ := tmpb
  simp only [cmpEntry, ScalarTS.mk.injEq]
  grind

private theorem cmpEntry_trans {x y z : ScalarTS} (first : cmpEntry x y < 0)
    (second : cmpEntry y z < 0) : cmpEntry x z < 0 := by
  unfold cmpEntry at *
  grind

private theorem cmpEntries_neg (a b : List ScalarTS) :
    cmpEntries b a = - cmpEntries a b := by
  induction a generalizing b with
  | nil => cases b <;> rfl
  | cons tmpa as induction =>
      cases b with
      | nil => rfl
      | cons tmpb bs =>
          have head := cmpEntry_neg tmpa tmpb
          have tail := induction bs
          simp only [cmpEntries]
          split_ifs <;> omega

private theorem cmpEntries_eq_zero {a b : List ScalarTS}
    (sameLength : a.length = b.length) :
    cmpEntries a b = 0 ↔ a = b := by
  induction a generalizing b with
  | nil =>
      cases b with
      | nil => simp [cmpEntries]
      | cons tmpb bs => simp at sameLength
  | cons tmpa as induction =>
      cases b with
      | nil => simp at sameLength
      | cons tmpb bs =>
          have tail := induction (b := bs) (by simpa using sameLength)
          simp only [cmpEntries, List.cons.injEq]
          split_ifs with head
          · rw [tail, cmpEntry_eq_zero.mp head]
            simp
          · have different : tmpa ≠ tmpb :=
              fun same => head (cmpEntry_eq_zero.mpr same)
            simp [head, different]

private theorem cmpEntries_trans {a b c : List ScalarTS}
    (first : a.length = b.length) (second : b.length = c.length)
    (below : cmpEntries a b ≤ 0) (above : cmpEntries b c ≤ 0) :
    cmpEntries a c ≤ 0 := by
  -- The first round in which one of the two pairs differs decides.
  induction a generalizing b c with
  | nil => cases c <;> simp [cmpEntries]
  | cons x as induction =>
      cases b with
      | nil => simp at first
      | cons y bs =>
          cases c with
          | nil => simp at second
          | cons z cs =>
              have tail := induction (b := bs) (c := cs) (by simpa using first)
                (by simpa using second)
              simp only [cmpEntries] at below above ⊢
              by_cases left : cmpEntry x y = 0
              · rw [cmpEntry_eq_zero.mp left] at below ⊢
                by_cases right : cmpEntry y z = 0
                · have same := cmpEntry_eq_zero.mp right
                  subst same
                  simp only [right, if_true] at below above ⊢
                  exact tail below above
                · simpa [right] using above
              · rw [if_neg left] at below
                by_cases right : cmpEntry y z = 0
                · rw [← cmpEntry_eq_zero.mp right, if_neg left]
                  exact below
                · rw [if_neg right] at above
                  have leftBelow : cmpEntry x y < 0 := by omega
                  have rightBelow : cmpEntry y z < 0 := by omega
                  have outer := cmpEntry_trans leftBelow rightBelow
                  rw [if_neg (Int.ne_of_lt outer)]
                  exact Int.le_of_lt outer

private theorem cmpStructural_neg (a b : List ScalarTS) :
    cmpStructural b a = - cmpStructural a b := by
  have entries := cmpEntries_neg a b
  unfold cmpStructural
  split_ifs <;> omega

private theorem cmpStructural_eq_zero {a b : List ScalarTS} :
    cmpStructural a b = 0 ↔ a = b := by
  by_cases sameLength : a.length = b.length
  · rw [cmpStructural, if_neg (by omega), if_neg (by omega)]
    exact cmpEntries_eq_zero sameLength
  · have different : a ≠ b := fun same => sameLength (by rw [same])
    simp only [different, iff_false]
    unfold cmpStructural
    split_ifs <;> first | decide | omega

private theorem cmpStructural_total : TotalOrder cmpStructural where
  opposite a b := by
    have := cmpStructural_neg a b
    omega
  trans a b c := by
    intro below above
    have entries := @cmpEntries_trans a b c
    unfold cmpStructural at *
    split_ifs at * <;> omega

end ScalarTS

/-- `VTS__singleton` with its assertions. -/
def vtsSingleton (thr tym : Nat) : Except Abort (List ScalarTS) := do
  tlAssert (thr ≠ 0)
  tlAssert (tym ≥ 1)
  return [⟨thr, tym⟩]

/-- `VTS__tick` with its assertions. -/
def vtsTick (me : Nat) (ts : List ScalarTS) :
    Except Abort (List ScalarTS) := do
  tlAssert (me ≠ 0)
  tlAssert (isSaneVTS ts = true)
  let res := ScalarTS.tick me ts
  tlAssert (isSaneVTS res = true)
  return res

/-- `VTS__join` with its assertion on the result. -/
def vtsJoin (a b : List ScalarTS) : Except Abort (List ScalarTS) := do
  let res := ScalarTS.join a b
  tlAssert (isSaneVTS res = true)
  return res

namespace VTS

theorem isSane (vts : VTS) : isSaneVTS vts.ts = true :=
  ScalarTS.isSane_of_sorted vts.sorted vts.positive

private theorem vtsSingleton_eq {thr tym : Nat} (thread : thr ≠ 0)
    (stamp : 1 ≤ tym) :
    vtsSingleton thr tym = .ok (singleton thr tym stamp).ts := by
  simp [vtsSingleton, tlAssert, thread, stamp, singleton, pure, Except.pure]

private theorem vtsTick_eq {me : Nat} (thread : me ≠ 0) (vts : VTS) :
    vtsTick me vts.ts = .ok (vts.tick me).ts := by
  have before : isSaneVTS vts.ts = true := vts.isSane
  have after : isSaneVTS (ScalarTS.tick me vts.ts) = true :=
    (vts.tick me).isSane
  simp [vtsTick, tlAssert, thread, before, after, tick, pure, Except.pure]

private theorem vtsJoin_eq (a b : VTS) :
    vtsJoin a.ts b.ts = .ok (a.join b).ts := by
  have after : isSaneVTS (ScalarTS.join a.ts b.ts) = true := (a.join b).isSane
  simp [vtsJoin, tlAssert, after, join, pure, Except.pure]

private theorem join_isLUB (a b : VTS) : IsLUB {a, b} (a.join b) := by
  constructor
  · intro operand member
    rcases member with rfl | rfl
    · exact le_join_left operand b
    · exact le_join_right a operand
  · intro upper bounds
    exact join_le (bounds (by simp)) (bounds (by simp))

private theorem cmp_lt_iff (a b : VTS) : a.cmp b = .lt ↔ a < b := by
  have leq := cmp_isLeq_iff a b
  have geq := cmp_isGeq_iff a b
  rw [lt_iff_le_not_ge, ← leq, ← geq]
  cases a.cmp b <;> simp [POrd.isLeq, POrd.isGeq]

private theorem cmp_gt_iff (a b : VTS) : a.cmp b = .gt ↔ b < a := by
  have leq := cmp_isLeq_iff a b
  have geq := cmp_isGeq_iff a b
  rw [lt_iff_le_not_ge, ← leq, ← geq]
  cases a.cmp b <;> simp [POrd.isLeq, POrd.isGeq]

private theorem cmp_un_iff (a b : VTS) : a.cmp b = .un ↔ ¬ a ≤ b ∧ ¬ b ≤ a := by
  have leq := cmp_isLeq_iff a b
  have geq := cmp_isGeq_iff a b
  rw [← leq, ← geq]
  cases a.cmp b <;> simp [POrd.isLeq, POrd.isGeq]

private theorem indexAt_lt_tick (me : Nat) (vts : VTS) :
    vts.indexAt me < (vts.tick me).indexAt me := by
  rw [indexAt_tick, if_pos rfl]
  omega

theorem indexAt_tick_of_ne {me idx : Nat} (vts : VTS) (other : idx ≠ me) :
    (vts.tick me).indexAt idx = vts.indexAt idx := by
  rw [indexAt_tick, if_neg other]

private theorem cmpStructural_eq_zero_iff (a b : VTS) :
    ScalarTS.cmpStructural a.ts b.ts = 0 ↔
      ∀ idx, a.indexAt idx = b.indexAt idx := by
  rw [ScalarTS.cmpStructural_eq_zero]
  constructor
  · intro same idx
    rw [indexAt, indexAt, same]
  · intro same
    rw [eq_of_indexAt_eq same]

end VTS

/-- The operations on timestamps form a join semilattice on the maps from
threads to stamps.  `VTS` holds exactly the lists that are strictly sorted by
thread and whose stamps are positive, and its order is the pointwise one. -/
theorem vts_join_semilattice (a b : VTS) (me tym : Nat) (thread : me ≠ 0)
    (stamp : 1 ≤ tym) :
    (∃ lub : VTS, vtsJoin a.ts b.ts = .ok lub.ts ∧ IsLUB {a, b} lub) ∧
    (ScalarTS.cmp a.ts b.ts = .eq ↔ ∀ idx, a.indexAt idx = b.indexAt idx) ∧
    (ScalarTS.cmp a.ts b.ts = .lt ↔ a < b) ∧
    (ScalarTS.cmp a.ts b.ts = .gt ↔ b < a) ∧
    (ScalarTS.cmp a.ts b.ts = .un ↔ ¬ a ≤ b ∧ ¬ b ≤ a) ∧
    (∃ ticked : VTS, vtsTick me a.ts = .ok ticked.ts ∧
      a.indexAt me < ticked.indexAt me ∧
      ∀ idx, idx ≠ me → ticked.indexAt idx = a.indexAt idx) ∧
    (∃ single : VTS, vtsSingleton me tym = .ok single.ts ∧
      ∀ idx, single.indexAt idx = if idx = me then tym else 0) ∧
    (ScalarTS.cmpStructural a.ts b.ts = 0 ↔
      ∀ idx, a.indexAt idx = b.indexAt idx) ∧
    TotalOrder ScalarTS.cmpStructural := by
  refine ⟨⟨a.join b, VTS.vtsJoin_eq a b, VTS.join_isLUB a b⟩,
    ScalarTS.cmp_eq_eq_iff a.sorted b.sorted, VTS.cmp_lt_iff a b,
    VTS.cmp_gt_iff a b, VTS.cmp_un_iff a b,
    ⟨a.tick me, VTS.vtsTick_eq thread a, VTS.indexAt_lt_tick me a, ?_⟩,
    ⟨VTS.singleton me tym stamp, VTS.vtsSingleton_eq thread stamp, ?_⟩,
    VTS.cmpStructural_eq_zero_iff a b, ScalarTS.cmpStructural_total⟩
  · intro idx other
    exact VTS.indexAt_tick_of_ne a other
  · intro idx
    exact VTS.indexAt_singleton me idx tym stamp

/-- Two timestamps that share the thread 3 and differ at 1 and 5. -/
theorem vts_join_semilattice_interleaved :
    ∃ lub : VTS,
      vtsJoin [⟨1, 2⟩, ⟨3, 7⟩] [⟨3, 4⟩, ⟨5, 1⟩] = .ok lub.ts ∧
      lub.ts = [⟨1, 2⟩, ⟨3, 7⟩, ⟨5, 1⟩] ∧
      vtsTick 4 [⟨1, 2⟩, ⟨3, 7⟩] = .ok [⟨1, 2⟩, ⟨3, 7⟩, ⟨4, 1⟩] ∧
      ScalarTS.cmp [⟨1, 2⟩, ⟨3, 7⟩] [⟨3, 4⟩, ⟨5, 1⟩] = .un := by
  let a : VTS := ⟨[⟨1, 2⟩, ⟨3, 7⟩], by decide, by decide⟩
  let b : VTS := ⟨[⟨3, 4⟩, ⟨5, 1⟩], by decide, by decide⟩
  obtain ⟨⟨lub, joined, -⟩, -, -, -, unordered, -⟩ :=
    vts_join_semilattice a b 4 1 (by decide) (by decide)
  have computed : vtsJoin a.ts b.ts =
      .ok [⟨1, 2⟩, ⟨3, 7⟩, ⟨5, 1⟩] := by decide
  exact ⟨lub, joined, Except.ok.inj (joined.symm.trans computed), by decide,
    unordered.mpr (by decide)⟩

end HelgrindPlus
