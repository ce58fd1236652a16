import HelgrindPlus.LibHB.VtsTab
import Mathlib.Algebra.GroupWithZero.Nat

/-!
# How many addresses of each generation

The array that `event_map_maybe_GC` of `libhb_core.c` counts generations in.
Its first element stands for the least generation that has been seen, and it
grows at both ends.
-/

namespace HelgrindPlus

open Outcome

/-- The array `genMap`, whose first element counts generation `min`. -/
structure GenMap where
  min : Nat
  counts : List Nat
  deriving DecidableEq

namespace GenMap

/-- The index for a generation, after the array has grown if need be. -/
def findEa : Option GenMap → Nat → Except Abort (GenMap × Nat)
  | none, key => .ok (⟨key, [0]⟩, 0)
  | some genMap, key =>
      let size := genMap.counts.length
      if key ≥ genMap.min ∧ key < genMap.min + size then
        .ok (genMap, key - genMap.min)
      else if key < genMap.min then do
        let more := genMap.min - key
        tlAssert (more > 0)
        let genMap : GenMap :=
          ⟨genMap.min - more, List.replicate more 0 ++ genMap.counts⟩
        tlAssert (genMap.min = key)
        pure (genMap, 0)
      else do
        tlAssert (key ≥ genMap.min + size)
        let more := key - (genMap.min + size) + 1
        tlAssert (more > 0)
        let genMap : GenMap :=
          ⟨genMap.min, genMap.counts ++ List.replicate more 0⟩
        let size := size + more
        tlAssert (genMap.min + size - 1 = key)
        pure (genMap, size - 1)

def count (genMap : Option GenMap) (key : Nat) :
    Except Abort (Option GenMap) := do
  let (genMap, ea) ← findEa genMap key
  tlAssert (ea < genMap.counts.length)
  pure (some { genMap with counts := genMap.counts.modify ea (· + 1) })

/-- How many addresses stay, and the last generation that goes. -/
def discard (half : Nat) : List Nat → Nat → Nat → Nat →
    Except Abort (Nat × Nat)
  | [], _, retained, maxGen => .ok (retained, maxGen)
  | valW :: rest, keyW, retained, maxGen => do
      tlAssert (keyW > 0)
      tlAssert (keyW ≥ maxGen)
      tlAssert (retained ≥ valW)
      if retained - valW > half then
        discard half rest (keyW + 1) (retained - valW) keyW
      else pure (retained, maxGen)

end GenMap

namespace GenMap

/-- The array holds the count of every generation; outside of it there is
none. -/
structure Tallies (genMap : GenMap) (keys : List Nat) : Prop where
  above : ∀ key ∈ keys, genMap.min ≤ key
  counts : ∀ i, genMap.counts.getD i 0 = keys.count (genMap.min + i)
  sum : genMap.counts.sum = keys.length
  least : genMap.min ∈ keys

section Tallies

variable {genMap : GenMap} {keys : List Nat} {key : Nat}

theorem Tallies.below (tallies : genMap.Tallies keys) (member : key ∈ keys) :
    key < genMap.min + genMap.counts.length := by
  by_contra beyond
  have above := tallies.above key member
  have none := tallies.counts (key - genMap.min)
  have outside : genMap.counts.length ≤ key - genMap.min := by omega
  rw [List.getD_eq_getElem?_getD, List.getElem?_eq_none outside,
    Option.getD_none] at none
  have here : genMap.min + (key - genMap.min) = key := by omega
  rw [here] at none
  exact absurd (List.count_pos_iff.mpr member) (by omega)

/-- Where the array counts a generation, all counts being right. -/
structure Found (keys : List Nat) (key : Nat) (out : GenMap × Nat) :
    Prop where
  above : ∀ other ∈ keys, out.1.min ≤ other
  counts : ∀ i, out.1.counts.getD i 0 = keys.count (out.1.min + i)
  sum : out.1.counts.sum = keys.length
  inside : out.2 < out.1.counts.length
  here : out.1.min + out.2 = key
  least : out.1.min = key ∨ out.1.min ∈ keys

private theorem findEa_first (key : Nat) :
    Returns (findEa none key) (Found [] key) := by
  refine .ok ⟨by simp, ?_, rfl, by simp, rfl, .inl rfl⟩
  intro i
  cases i with
  | zero => rfl
  | succ i => rfl

private theorem findEa_returns (tallies : genMap.Tallies keys) (key : Nat) :
    Returns (findEa (some genMap) key) (Found keys key) := by
  unfold findEa
  dsimp only
  split
  · rename_i inside
    refine .ok ⟨tallies.above, tallies.counts, tallies.sum, ?_, ?_,
      .inr tallies.least⟩
    · change key - genMap.min < genMap.counts.length
      omega
    · change genMap.min + (key - genMap.min) = key
      omega
  · rename_i outside
    split
    · rename_i before
      have more : genMap.min - key > 0 := by omega
      have isMin : genMap.min - (genMap.min - key) = key := by omega
      rw [tlAssert_of more, ok_bind, tlAssert_of isMin, ok_bind, isMin]
      refine .pure ⟨?_, ?_, ?_, ?_, rfl, .inl rfl⟩
      · intro other member
        have above := tallies.above other member
        change key ≤ other
        omega
      · intro i
        change (List.replicate (genMap.min - key) 0 ++
          genMap.counts).getD i 0 = keys.count (key + i)
        by_cases new : i < genMap.min - key
        · have absent : key + i ∉ keys := by
            intro member
            have above := tallies.above _ member
            omega
          rw [List.count_eq_zero_of_not_mem absent]
          simp [List.getD_eq_getElem?_getD, List.getElem?_append, new]
        · have shifted : key + i = genMap.min + (i - (genMap.min - key)) := by
            omega
          rw [shifted, ← tallies.counts]
          simp [List.getD_eq_getElem?_getD, List.getElem?_append, new]
      · change (List.replicate (genMap.min - key) 0 ++
          genMap.counts).sum = keys.length
        simp [tallies.sum]
      · change 0 < (List.replicate (genMap.min - key) 0 ++
          genMap.counts).length
        simp
        omega
    · rename_i notBefore
      have beyond : key ≥ genMap.min + genMap.counts.length := by omega
      have more : key - (genMap.min + genMap.counts.length) + 1 > 0 := by
        omega
      have isLast : genMap.min + (genMap.counts.length +
          (key - (genMap.min + genMap.counts.length) + 1)) - 1 = key := by
        omega
      rw [tlAssert_of beyond, ok_bind, tlAssert_of more, ok_bind,
        tlAssert_of isLast, ok_bind]
      refine .pure ⟨tallies.above, ?_, ?_, ?_, ?_, .inr tallies.least⟩
      · intro i
        rw [← tallies.counts i]
        change (genMap.counts ++ List.replicate _ 0).getD i 0 = _
        by_cases old : i < genMap.counts.length
        · simp [List.getD_eq_getElem?_getD, List.getElem?_append, old]
        · have outside : genMap.counts.length ≤ i := by omega
          rw [List.getD_eq_getElem?_getD, List.getD_eq_getElem?_getD,
            List.getElem?_append_right outside,
            List.getElem?_eq_none outside, List.getElem?_replicate]
          split <;> rfl
      · change (genMap.counts ++ List.replicate _ 0).sum = keys.length
        simp [tallies.sum]
      · change _ < (genMap.counts ++ List.replicate _ 0).length
        rw [List.length_append, List.length_replicate]
        omega
      · change genMap.min + (_ - 1) = key
        omega

private theorem sum_modify_succ {counts : List Nat} {ea : Nat}
    (inside : ea < counts.length) :
    (counts.modify ea (· + 1)).sum = counts.sum + 1 := by
  induction counts generalizing ea with
  | nil => cases inside
  | cons first counts induction =>
      cases ea with
      | zero =>
          simp only [List.modify_zero_cons, List.sum_cons]
          omega
      | succ ea =>
          have rest := induction (Nat.lt_of_succ_lt_succ inside)
          simp only [List.modify_succ_cons, List.sum_cons, rest]
          omega

private theorem getD_modify_succ {counts : List Nat} {ea : Nat}
    (inside : ea < counts.length) (i : Nat) :
    (counts.modify ea (· + 1)).getD i 0 =
      counts.getD i 0 + if i = ea then 1 else 0 := by
  rw [List.getD_eq_getElem?_getD, List.getD_eq_getElem?_getD,
    List.getElem?_modify]
  by_cases same : i = ea
  · subst same
    simp [inside]
  · simp [same, Ne.symm same]

private theorem count_returns {genMap : Option GenMap}
    (found : Returns (findEa genMap key) (Found keys key)) :
    Returns (count genMap key) (fun after =>
      ∃ genMap, after = some genMap ∧ genMap.Tallies (keys ++ [key])) := by
  unfold count
  apply found.bind
  intro out spec
  dsimp only
  rw [tlAssert_of spec.inside, ok_bind]
  refine .pure ⟨_, rfl, ?_, ?_, ?_, ?_⟩
  · intro other member
    rcases List.mem_append.mp member with old | new
    · exact spec.above other old
    · rw [List.mem_singleton.mp new, ← spec.here]
      exact Nat.le_add_right _ _
  · intro i
    change (out.1.counts.modify out.2 (· + 1)).getD i 0 =
      (keys ++ [key]).count (out.1.min + i)
    rw [getD_modify_succ spec.inside, spec.counts i, List.count_append,
      List.count_singleton, ← spec.here]
    by_cases same : i = out.2
    · simp [same]
    · simp [same, Ne.symm same]
  · change (out.1.counts.modify out.2 (· + 1)).sum = _
    rw [sum_modify_succ spec.inside, spec.sum]
    simp
  · rcases spec.least with isKey | old
    · change out.1.min ∈ _
      simp [isKey]
    · exact List.mem_append_left _ old

private theorem foldlM_count {genMap : GenMap} {before : List Nat}
    (tallies : genMap.Tallies before) :
    Returns (keys.foldlM count (some genMap)) (fun after =>
      ∃ genMap, after = some genMap ∧ genMap.Tallies (before ++ keys)) := by
  induction keys generalizing genMap before with
  | nil => exact .pure ⟨genMap, rfl, by simpa using tallies⟩
  | cons key keys induction =>
      rw [List.foldlM_cons]
      apply (count_returns (findEa_returns tallies key)).bind
      intro after counted
      obtain ⟨genMap', rfl, tallies'⟩ := counted
      apply (induction tallies').mono
      intro done spec
      simpa using spec

/-- All generations have been counted. -/
theorem count_all (some : keys ≠ []) :
    Returns (keys.foldlM count none) (fun after =>
      ∃ genMap, after = .some genMap ∧ genMap.Tallies keys) := by
  cases keys with
  | nil => exact absurd rfl some
  | cons key keys =>
      rw [List.foldlM_cons]
      apply (count_returns (findEa_first key)).bind
      intro after counted
      obtain ⟨genMap, rfl, tallies⟩ := counted
      exact foldlM_count tallies

private theorem countP_le_eq (keys : List Nat) (bound : Nat) :
    keys.countP (bound ≤ ·) =
      keys.count bound + keys.countP (bound < ·) := by
  induction keys with
  | nil => rfl
  | cons key keys induction =>
      simp only [List.countP_cons, List.count_cons, induction,
        decide_eq_true_eq, beq_iff_eq]
      split <;> split <;> split <;> omega

/-- What stays is exactly what is of a later generation. -/
theorem discard_returns {counts : List Nat} {half keyW retained maxGen : Nat}
    (exact : ∀ i, counts.getD i 0 = keys.count (keyW + i))
    (positive : 0 < keyW) (earlier : maxGen < keyW)
    (rest : retained = keys.countP (keyW ≤ ·))
    (stays : retained = keys.countP (maxGen < ·)) :
    Returns (discard half counts keyW retained maxGen) (fun out =>
      out.1 = keys.countP (out.2 < ·) ∧
      (out.2 = maxGen ∨ keyW ≤ out.2)) := by
  induction counts generalizing keyW retained maxGen with
  | nil => exact .ok ⟨stays, .inl rfl⟩
  | cons valW counts induction =>
      have isVal : valW = keys.count keyW := exact 0
      have split := countP_le_eq keys keyW
      have enough : retained ≥ valW := by omega
      have order : keyW ≥ maxGen := by omega
      rw [discard, tlAssert_of positive, ok_bind, tlAssert_of order, ok_bind,
        tlAssert_of enough, ok_bind]
      split
      · have left : retained - valW = keys.countP (keyW < ·) := by omega
        have later : ∀ i, counts.getD i 0 = keys.count (keyW + 1 + i) := by
          intro i
          have next := exact (i + 1)
          rw [← Nat.add_assoc, Nat.add_right_comm] at next
          exact next
        apply (induction later (Nat.succ_pos keyW) (Nat.lt_succ_self keyW)
          left left).mono
        intro out spec
        refine ⟨spec.1, .inr ?_⟩
        rcases spec.2 with last | beyond
        · exact last.ge
        · exact Nat.le_of_succ_le beyond
      · exact .pure ⟨stays, .inl rfl⟩

end Tallies
end GenMap
end HelgrindPlus
