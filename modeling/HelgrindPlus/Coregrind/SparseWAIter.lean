import HelgrindPlus.Coregrind.SparseWACalls
import HelgrindPlus.Coregrind.WordFMIter

/-!
# Iteration over sparse word arrays

The stack of `VG_(nextIterSWA)` holds the nodes on the path to the entry that
was yielded last, each with the slot from which its loop is to go on.
-/

namespace HelgrindPlus

open Outcome

namespace SparseWA

variable {top : Nat}

/-- Where `VG_(nextIterSWA)` goes on. -/
inductive Jump (top : Nat) where
  | dispatch
  | startNewNode (p_key : Word top) (curr_nd : Node top)

/-- A jump, or the entry that is yielded. -/
abbrev Goto (top : Nat) := Jump top ⊕ (Word top × Word top)

abbrev IterStack (top : Nat) := List (SWAStackElem top)

def swa_PUSH (stack : IterStack top) (elem : SWAStackElem top) :
    Except Stop (IterStack top) := do
  vgAssert (stack.length ≤ top)
  pure (elem :: stack)

/-- The loop over a leaf node, from a slot on. -/
def leafLoop (stack : IterStack top) (p_key : Word top)
    (words : BitVec 8 → Word top) (nInUse : Int) (inUse : BitVec 5 → BitVec 8)
    (n : Nat) : Except Stop (IterStack top × Goto top) :=
  match (ixs n).find? fun ix => swa_bitarray_read inUse ix = 1 with
  | some ix => do
      let stack ← swa_PUSH stack
        ⟨p_key, ix.toNat, .level0 words nInUse inUse, .resumeLeafNode⟩
      pure (stack, .inr (nextKey p_key ix, words ix))
  | none => pure (stack, .inl .dispatch)

/-- The loop over a node that is no leaf, from a slot on. -/
def nonleafLoop (stack : IterStack top) (p_key : Word top)
    (child : BitVec 8 → Node top) (nInUse : Int) (level n : Nat) :
    Except Stop (IterStack top × Goto top) :=
  match (ixs n).find? fun ix => (child ix).isSome with
  | some ix => do
      let stack ← swa_PUSH stack
        ⟨p_key, ix.toNat, .levelN child nInUse level, .resumeNonleafNode⟩
      pure (stack, .inl (.startNewNode (nextKey p_key ix) (child ix)))
  | none => pure (stack, .inl .dispatch)

/-- What stands at the label `start_new_node`. -/
def startNewNode (stack : IterStack top) (p_key : Word top) :
    Node top → Except Stop (IterStack top × Goto top)
  | .level0 words nInUse inUse => leafLoop stack p_key words nInUse inUse 0
  | .levelN child nInUse level =>
      nonleafLoop stack p_key child nInUse level 0
  | .null => .error .vgAssert

/-- The switch that follows the label `dispatch`. -/
def resume (stack : IterStack top) (elem : SWAStackElem top) :
    Except Stop (IterStack top × Goto top) :=
  match elem.resume_point, elem.curr_nd with
  | .startNewNode, nd => startNewNode stack elem.partial_key nd
  | .resumeLeafNode, .level0 words nInUse inUse =>
      leafLoop stack elem.partial_key words nInUse inUse (elem.curr_ix + 1)
  | .resumeNonleafNode, .levelN child nInUse level =>
      nonleafLoop stack elem.partial_key child nInUse level
        (elem.curr_ix + 1)
  | _, _ => .error .vgAssert

/-- `VG_(nextIterSWA)` with a bound on its jumps; the entry is `none` where it
returns `False`. -/
def jumps : Nat → IterStack top → Jump top →
    Except Stop (IterStack top × Option (Word top × Word top))
  | 0, _, _ => .error .outOfFuel
  | _ + 1, [], .dispatch => pure ([], none)
  | fuel + 1, elem :: stack, .dispatch => do
      vgAssert (stack.length ≤ top)
      match ← resume stack elem with
      | (stack, .inl jump) => jumps fuel stack jump
      | (stack, .inr entry) => pure (stack, some entry)
  | fuel + 1, stack, .startNewNode p_key nd => do
      match ← startNewNode stack p_key nd with
      | (stack, .inl jump) => jumps fuel stack jump
      | (stack, .inr entry) => pure (stack, some entry)

/-- No call jumps more often. -/
def jumpBound (top : Nat) : Nat := 2 * top + 3

def SWA.initIterSWA (swa : SWA top) : Except Stop (SWA top) :=
  if swa.root.isSome then do
    let iterStack ← swa_PUSH [] ⟨0, 0, swa.root, .startNewNode⟩
    pure { swa with iterStack }
  else pure { swa with iterStack := [] }

def SWA.nextIterSWA (swa : SWA top) :
    Except Stop (SWA top × Option (Word top × Word top)) := do
  let (iterStack, entry) ← jumps (jumpBound top) swa.iterStack .dispatch
  pure ({ swa with iterStack }, entry)

/-- A number of calls of `VG_(nextIterSWA)`. -/
def SWA.nextItersSWA : Nat → SWA top →
    Except Stop (SWA top × List (Option (Word top × Word top)))
  | 0, swa => pure (swa, [])
  | count + 1, swa => do
      let (swa, entry) ← swa.nextIterSWA
      let (swa, entries) ← SWA.nextItersSWA count swa
      pure (swa, entry :: entries)

private theorem read_eq_one_iff {inUse : BitVec 5 → BitVec 8} {ix : BitVec 8} :
    swa_bitarray_read inUse ix = 1 ↔ occupied inUse ix = true := by
  have bit : ∀ (byte : BitVec 8) (o : Fin 8),
      ((byte >>> o.val) &&& 1 = 1) ↔ byte.getLsbD o = true := by
    decide +kernel
  exact bit (inUse (bix ix)) ⟨off ix, off_lt ix⟩

/-- The loop over the slots stops at the first that passes the test. -/
theorem ixs_find {test : BitVec 8 → Bool} {n : Nat} {ix : BitVec 8}
    (found : (ixs n).find? test = some ix) :
    ∃ before, ixs n = before ++ ix :: ixs (ix.toNat + 1) ∧
      (∀ jx ∈ before, test jx = false) ∧ test ix = true := by
  induction left : 256 - n generalizing n with
  | zero =>
      rw [ixs_of_le (by omega)] at found
      exact (nomatch found)
  | succ left induction =>
      have bound : n < 256 := by omega
      have place : (BitVec.ofNat 8 n).toNat = n := Nat.mod_eq_of_lt bound
      rw [ixs_of_lt bound, List.find?_cons] at found
      cases passes : test (BitVec.ofNat 8 n) with
      | true =>
          rw [passes] at found
          obtain rfl := Option.some.inj found
          rw [place]
          exact ⟨[], ixs_of_lt bound, by simp, passes⟩
      | false =>
          rw [passes] at found
          obtain ⟨before, split, free, isIx⟩ :=
            @induction (n + 1) found (by omega)
          refine ⟨BitVec.ofNat 8 n :: before, ?_,
            List.forall_mem_cons.mpr ⟨passes, free⟩, isIx⟩
          rw [ixs_of_lt bound, split, List.cons_append]

/-- The entries that an element of the stack stands for. -/
def SWAStackElem.rest (elem : SWAStackElem top) (i : Nat) :
    List (Word top × Word top) :=
  entriesFrom i elem.partial_key elem.curr_nd
    (if elem.resume_point = .startNewNode then 0 else elem.curr_ix + 1)

/-- The entries that are still to come. -/
def remaining : IterStack top → List (Word top × Word top)
  | [] => []
  | elem :: stack => elem.rest (top - stack.length) ++ remaining stack

/-- The node of an element belongs to its place on the stack. -/
structure SWAStackElem.Fitting (elem : SWAStackElem top) (i : Nat) :
    Prop where
  node : WellFormed i elem.curr_nd
  leaf : elem.resume_point = .resumeLeafNode → i = 0
  nonleaf : elem.resume_point = .resumeNonleafNode → i ≠ 0

def Stacked : IterStack top → Prop
  | [] => True
  | elem :: stack => stack.length ≤ top ∧
      elem.Fitting (top - stack.length) ∧ Stacked stack

section Loops

variable {stack : IterStack top} {p_key : Word top} {n i : Nat}
  {words : BitVec 8 → Word top} {nInUse : Int} {inUse : BitVec 5 → BitVec 8}
  {child : BitVec 8 → Node top} {level : Nat}

private theorem entriesFrom_level0 {ix : BitVec 8}
    (found : (ixs n).find? (fun ix => occupied inUse ix) = some ix) :
    entriesFrom 0 p_key (.level0 words nInUse inUse) n =
      (nextKey p_key ix, words ix) ::
        entriesFrom 0 p_key (.level0 words nInUse inUse) (ix.toNat + 1) := by
  obtain ⟨before, split, free, isIx⟩ := ixs_find found
  have skipped : before.filterMap (fun ix => if occupied inUse ix then
      some (nextKey p_key ix, words ix) else none) = [] := by
    apply List.filterMap_eq_nil_iff.mpr
    intro jx member
    rw [free jx member]
    rfl
  rw [entriesFrom, split, List.filterMap_append, skipped, List.nil_append,
    entriesFrom]
  exact List.filterMap_cons_some (if_pos isIx)

private theorem entriesFrom_levelN {ix : BitVec 8}
    (found : (ixs n).find? (fun ix => (child ix).isSome) = some ix) :
    entriesFrom (i + 1) p_key (.levelN child nInUse level) n =
      entriesFrom i (nextKey p_key ix) (child ix) 0 ++
        entriesFrom (i + 1) p_key (.levelN child nInUse level)
          (ix.toNat + 1) := by
  obtain ⟨before, split, free, isIx⟩ := ixs_find found
  have skipped : (before.flatMap fun ix =>
      entriesFrom i (nextKey p_key ix) (child ix) 0) = [] := by
    apply List.flatMap_eq_nil_iff.mpr
    intro jx member
    have isNull : (child jx).isNull = true := by
      simpa [Node.isSome] using free jx member
    rw [Node.isNull_iff.mp isNull]
    exact entries_null i _
  rw [entriesFrom, split, List.flatMap_append, skipped, List.nil_append,
    List.flatMap_cons, entriesFrom]

private theorem leafLoop_some (node : WellFormed 0 (.level0 words nInUse inUse))
    (stacked : Stacked stack) (place : stack.length = top) {ix : BitVec 8}
    (found : (ixs n).find? (fun ix => occupied inUse ix) = some ix) :
    Returns (leafLoop stack p_key words nInUse inUse n) fun result =>
      Stacked result.1 ∧ ∃ entry, result.2 = .inr entry ∧
        entriesFrom 0 p_key (.level0 words nInUse inUse) n ++
          remaining stack = entry :: remaining result.1 := by
  have search : ((ixs n).find? fun ix => swa_bitarray_read inUse ix = 1) =
      some ix := by
    simpa only [read_eq_one_iff, Bool.decide_eq_true] using found
  have here : top - stack.length = 0 := by omega
  rw [leafLoop, search]
  simp only [swa_PUSH, vgAssert_of (Nat.le_of_eq place), ok_bind]
  refine Returns.pure ⟨⟨Nat.le_of_eq place, ?_, stacked⟩, _, rfl, ?_⟩
  · rw [here]
    exact ⟨node, fun _ => rfl, fun other => by cases other⟩
  · rw [entriesFrom_level0 found, remaining, here]
    rfl

private theorem nonleafLoop_some
    (node : WellFormed (i + 1) (.levelN child nInUse level))
    (stacked : Stacked stack) (place : stack.length + (i + 1) = top)
    {ix : BitVec 8}
    (found : (ixs n).find? (fun ix => (child ix).isSome) = some ix) :
    Returns (nonleafLoop stack p_key child nInUse level n) fun result =>
      Stacked result.1 ∧ result.1.length + i = top ∧
        WellFormed i (child ix) ∧
        result.2 = .inl (.startNewNode (nextKey p_key ix) (child ix)) ∧
        entriesFrom (i + 1) p_key (.levelN child nInUse level) n ++
          remaining stack =
            entriesFrom i (nextKey p_key ix) (child ix) 0 ++
              remaining result.1 := by
  have isSome : (child ix).isSome = true := by
    simpa using List.find?_some found
  have below := node.shape.2.2 ix isSome
  have here : top - stack.length = i + 1 := by omega
  have room : stack.length ≤ top := by omega
  rw [nonleafLoop, found]
  simp only [swa_PUSH, vgAssert_of room, ok_bind]
  refine Returns.pure ⟨⟨room, ?_, stacked⟩, ?_, ⟨below.1, below.2⟩, rfl, ?_⟩
  · rw [here]
    exact ⟨node, fun other => (by cases other), fun _ => Nat.succ_ne_zero i⟩
  · rw [List.length_cons]
    omega
  · rw [entriesFrom_levelN found, remaining, here, List.append_assoc]
    rfl

private theorem entriesFrom_level0_none
    (free : (ixs n).find? (fun ix => occupied inUse ix) = none) :
    entriesFrom 0 p_key (.level0 words nInUse inUse) n = [] := by
  apply List.filterMap_eq_nil_iff.mpr
  intro ix member
  exact if_neg (List.find?_eq_none.mp free ix member)

private theorem entriesFrom_levelN_none
    (free : (ixs n).find? (fun ix => (child ix).isSome) = none) :
    entriesFrom (i + 1) p_key (.levelN child nInUse level) n = [] := by
  apply List.flatMap_eq_nil_iff.mpr
  intro ix member
  have isNull : (child ix).isNull = true := by
    simpa [Node.isSome] using List.find?_eq_none.mp free ix member
  rw [Node.isNull_iff.mp isNull]
  exact entries_null i _

private theorem leafLoop_none
    (free : (ixs n).find? (fun ix => occupied inUse ix) = none) :
    leafLoop stack p_key words nInUse inUse n =
      .ok (stack, .inl .dispatch) := by
  have search : ((ixs n).find? fun ix => swa_bitarray_read inUse ix = 1) =
      none := by
    simpa only [read_eq_one_iff, Bool.decide_eq_true] using free
  rw [leafLoop, search]
  rfl

private theorem nonleafLoop_none
    (free : (ixs n).find? (fun ix => (child ix).isSome) = none) :
    nonleafLoop stack p_key child nInUse level n =
      .ok (stack, .inl .dispatch) := by
  rw [nonleafLoop, free]
  rfl

private theorem exists_find {test : BitVec 8 → Bool} (taken : 0 < slots test) :
    ∃ ix, (ixs 0).find? test = some ix := by
  obtain ⟨ix, holds⟩ := slots_pos_iff.mp taken
  exact Option.isSome_iff_exists.mp
    (List.find?_isSome.mpr ⟨ix, mem_ixs ix, holds⟩)

end Loops

/-- The first of the pending entries is yielded, and the others are kept. -/
def Yields (pending : List (Word top × Word top))
    (result : IterStack top × Option (Word top × Word top)) : Prop :=
  Stacked result.1 ∧ ∃ entry, result.2 = some entry ∧
    pending = entry :: remaining result.1

section Jumps

variable {stack : IterStack top} {p_key : Word top} {nd : Node top}
  {i : Nat}

/-- From a node that is not empty the way down leads to an entry. -/
theorem jumps_startNewNode (node : WellFormed i nd) (stacked : Stacked stack)
    (place : stack.length + i = top) {fuel : Nat} (enough : i < fuel) :
    Returns (jumps fuel stack (.startNewNode p_key nd))
      (Yields (entriesFrom i p_key nd 0 ++ remaining stack)) := by
  obtain ⟨fuel, rfl⟩ := Nat.exists_eq_succ_of_ne_zero
    (Nat.ne_zero_of_lt enough)
  induction i generalizing stack p_key nd fuel with
  | zero =>
      cases nd with
      | null => exact node.shape.elim
      | levelN child nInUse level => exact node.shape.elim
      | level0 words nInUse inUse =>
          have count : nInUse = slots (occupied inUse) := node.shape
          have used : 0 < nInUse := node.inUse
          obtain ⟨ix, found⟩ := @exists_find (occupied inUse) (by omega)
          obtain ⟨⟨stack', goto⟩, looped, kept, entry, isEntry, split⟩ :=
            @leafLoop_some _ _ p_key _ _ _ _ node stacked place _ found
          refine ⟨(stack', some entry), ?_, kept, entry, rfl, split⟩
          subst isEntry
          rw [jumps, startNewNode, looped]
          rfl
  | succ i induction =>
      cases nd with
      | null => exact node.shape.elim
      | level0 words nInUse inUse => exact node.shape.elim
      | levelN child nInUse level =>
          have used : 0 < nInUse := node.inUse
          have count := node.shape.2.1
          obtain ⟨ix, found⟩ :=
            @exists_find (fun ix => (child ix).isSome) (by omega)
          obtain ⟨⟨stack', goto⟩, looped, kept, place', node', isJump,
            split⟩ := @nonleafLoop_some _ _ p_key _ _ _ _ _ node stacked
              place _ found
          subst isJump
          rw [jumps, startNewNode, looped, ok_bind, split]
          obtain ⟨fuel, rfl⟩ := Nat.exists_eq_succ_of_ne_zero
            (show fuel ≠ 0 by omega)
          exact induction node' kept place' fuel (by omega)

/-- The rest of a node, then what the stack still holds. -/
def DispatchSpec (pending : List (Word top × Word top))
    (result : IterStack top × Option (Word top × Word top)) : Prop :=
  (pending = [] ∧ result = ([], none)) ∨ Yields pending result

private theorem resume_leaf (words : BitVec 8 → Word top) (nInUse : Int)
    (inUse : BitVec 5 → BitVec 8) (curr_ix : Nat) :
    resume stack
        ⟨p_key, curr_ix, .level0 words nInUse inUse, .resumeLeafNode⟩ =
      leafLoop stack p_key words nInUse inUse (curr_ix + 1) :=
  rfl

private theorem resume_nonleaf (child : BitVec 8 → Node top) (nInUse : Int)
    (level curr_ix : Nat) :
    resume stack
        ⟨p_key, curr_ix, .levelN child nInUse level, .resumeNonleafNode⟩ =
      nonleafLoop stack p_key child nInUse level (curr_ix + 1) :=
  rfl

private theorem jumps_resumeLeafNode {elem : SWAStackElem top} {fuel : Nat}
    (isPoint : elem.resume_point = .resumeLeafNode)
    (node : WellFormed 0 elem.curr_nd) (stacked : Stacked stack)
    (place : stack.length = top)
    (later : Returns (jumps fuel stack .dispatch)
      (DispatchSpec (remaining stack))) :
    Returns (jumps (fuel + 1) (elem :: stack) .dispatch)
      (DispatchSpec (elem.rest 0 ++ remaining stack)) := by
  obtain ⟨p_key, curr_ix, nd, resume_point⟩ := elem
  subst isPoint
  have isRest : SWAStackElem.rest ⟨p_key, curr_ix, nd, .resumeLeafNode⟩ 0 =
      entriesFrom 0 p_key nd (curr_ix + 1) := rfl
  rw [jumps, vgAssert_of (Nat.le_of_eq place), ok_bind, isRest]
  cases nd with
  | null => exact node.shape.elim
  | levelN child nInUse level => exact node.shape.elim
  | level0 words nInUse inUse =>
      cases found : (ixs (curr_ix + 1)).find? fun ix => occupied inUse ix with
      | none =>
          rw [resume_leaf, leafLoop_none found, entriesFrom_level0_none found]
          exact later
      | some ix =>
          obtain ⟨⟨stack', goto⟩, looped, kept, entry, isEntry, split⟩ :=
            @leafLoop_some _ _ p_key _ _ _ _ node stacked place _ found
          subst isEntry
          rw [resume_leaf, looped]
          exact Returns.pure (.inr ⟨kept, entry, rfl, split⟩)

private theorem jumps_resumeNonleafNode {elem : SWAStackElem top} {fuel : Nat}
    (isPoint : elem.resume_point = .resumeNonleafNode)
    (node : WellFormed (i + 1) elem.curr_nd) (stacked : Stacked stack)
    (place : stack.length + (i + 1) = top) (enough : i < fuel)
    (later : Returns (jumps fuel stack .dispatch)
      (DispatchSpec (remaining stack))) :
    Returns (jumps (fuel + 1) (elem :: stack) .dispatch)
      (DispatchSpec (elem.rest (i + 1) ++ remaining stack)) := by
  obtain ⟨p_key, curr_ix, nd, resume_point⟩ := elem
  subst isPoint
  have isRest : SWAStackElem.rest ⟨p_key, curr_ix, nd, .resumeNonleafNode⟩
      (i + 1) = entriesFrom (i + 1) p_key nd (curr_ix + 1) := rfl
  rw [jumps, vgAssert_of (by omega), ok_bind, isRest]
  cases nd with
  | null => exact node.shape.elim
  | level0 words nInUse inUse => exact node.shape.elim
  | levelN child nInUse level =>
      cases found : (ixs (curr_ix + 1)).find? fun ix => (child ix).isSome with
      | none =>
          rw [resume_nonleaf, nonleafLoop_none found,
            entriesFrom_levelN_none found]
          exact later
      | some ix =>
          obtain ⟨⟨stack', goto⟩, looped, kept, place', node', isJump,
            split⟩ := @nonleafLoop_some _ _ p_key _ _ _ _ _ node stacked
              place _ found
          subst isJump
          rw [resume_nonleaf, looped, ok_bind, split]
          exact (jumps_startNewNode node' kept place' enough).mono
            fun result yields => .inr yields

private theorem jumps_dispatch (stacked : Stacked stack) {fuel : Nat}
    (enough : stack.length + top + 1 < fuel) :
    Returns (jumps fuel stack .dispatch)
      (DispatchSpec (remaining stack)) := by
  induction stack generalizing fuel with
  | nil =>
      obtain ⟨fuel, rfl⟩ := Nat.exists_eq_succ_of_ne_zero
        (Nat.ne_zero_of_lt enough)
      exact Returns.pure (.inl ⟨rfl, rfl⟩)
  | cons elem stack induction =>
      obtain ⟨fuel, rfl⟩ := Nat.exists_eq_succ_of_ne_zero
        (Nat.ne_zero_of_lt enough)
      rw [List.length_cons] at enough
      obtain ⟨room, fitting, below⟩ := stacked
      have later := @induction below fuel (by omega)
      rw [remaining]
      cases isPoint : elem.resume_point with
      | startNewNode =>
          obtain ⟨p_key, curr_ix, nd, resume_point⟩ := elem
          subst isPoint
          have entered := @jumps_startNewNode _ stack p_key nd
            (top - stack.length) fitting.node below (by omega) (fuel + 1)
            (by omega)
          rw [jumps] at entered
          rw [jumps, vgAssert_of room, ok_bind]
          exact entered.mono fun result yields => .inr yields
      | resumeLeafNode =>
          have isLeaf : top - stack.length = 0 := fitting.leaf isPoint
          have node := fitting.node
          rw [isLeaf] at node ⊢
          exact jumps_resumeLeafNode isPoint node below (by omega) later
      | resumeNonleafNode =>
          have node := fitting.node
          obtain ⟨i, isNext⟩ := Nat.exists_eq_succ_of_ne_zero
            (fitting.nonleaf isPoint)
          rw [isNext] at node ⊢
          exact jumps_resumeNonleafNode isPoint node below (by omega)
            (by omega) later

theorem Stacked.length_le (stacked : Stacked stack) :
    stack.length ≤ top + 1 := by
  cases stack with
  | nil => exact Nat.zero_le _
  | cons elem stack => exact Nat.succ_le_succ stacked.1

/-- One call yields the first entry that is still to come. -/
theorem nextIterSWA_spec {swa : SWA top} (stacked : Stacked swa.iterStack) :
    Returns swa.nextIterSWA fun result =>
      Stacked result.1.iterStack ∧
        result.2 = (remaining swa.iterStack).head? ∧
        remaining result.1.iterStack = (remaining swa.iterStack).tail := by
  have bound := stacked.length_le
  have enough : swa.iterStack.length + top + 1 < jumpBound top := by
    unfold jumpBound
    omega
  obtain ⟨⟨stack', entry⟩, jumped, spec⟩ := jumps_dispatch stacked enough
  rw [SWA.nextIterSWA, jumped, ok_bind]
  refine Returns.pure ?_
  rcases spec with ⟨isEmpty, isEnd⟩ | ⟨kept, entry', isEntry, split⟩
  · obtain ⟨rfl, rfl⟩ := Prod.mk.inj isEnd
    rw [isEmpty]
    exact ⟨trivial, rfl, rfl⟩
  · rw [split]
    exact ⟨kept, isEntry, rfl⟩

theorem nextItersSWA_spec {swa : SWA top} (stacked : Stacked swa.iterStack)
    (count : Nat) :
    ∃ swa', SWA.nextItersSWA count swa =
      .ok (swa', WordFM.yields (remaining swa.iterStack) count) := by
  induction count generalizing swa with
  | zero => exact ⟨swa, rfl⟩
  | succ count induction =>
      obtain ⟨⟨swa', entry⟩, yielded, kept, isHead, isTail⟩ :=
        nextIterSWA_spec stacked
      obtain ⟨swa'', later⟩ := induction kept
      refine ⟨swa'', ?_⟩
      obtain rfl : entry = (remaining swa.iterStack).head? := isHead
      rw [isTail] at later
      rw [SWA.nextItersSWA, yielded, ok_bind]
      simp only [later, ok_bind]
      cases remaining swa.iterStack with
      | nil =>
          rw [WordFM.yields_nil_succ]
          rfl
      | cons entry entries =>
          rw [WordFM.yields_cons_succ]
          rfl

end Jumps

/-- Iteration yields the entries of the tree. -/
theorem SWA.Represents.iterates {swa : SWA top} {map : PartialMap top}
    (represents : swa.Represents map) (count : Nat) :
    ∃ swa', (swa.initIterSWA >>= SWA.nextItersSWA count) =
      .ok (swa', WordFM.yields (entries top 0 swa.root) count) := by
  cases isSome : swa.root.isSome with
  | false =>
      have isNull : swa.root.isNull = true := by
        simpa [Node.isSome] using isSome
      have started : swa.initIterSWA = .ok { swa with iterStack := [] } := by
        rw [SWA.initIterSWA, isSome]
        rfl
      have none : entries top 0 swa.root = [] := by
        rw [Node.isNull_iff.mp isNull, entries_null]
      rw [started, ok_bind, none]
      exact @nextItersSWA_spec _ { swa with iterStack := [] } trivial count
  | true =>
      have started : swa.initIterSWA = .ok { swa with
          iterStack := [⟨0, 0, swa.root, .startNewNode⟩] } := by
        have room : vgAssert (([] : IterStack top).length ≤ top) = .ok () :=
          vgAssert_of (Nat.zero_le top)
        rw [SWA.initIterSWA, isSome, if_pos rfl, swa_PUSH, room]
        rfl
      have stacked : Stacked [(⟨0, 0, swa.root, .startNewNode⟩ :
          SWAStackElem top)] :=
        ⟨Nat.zero_le top, ⟨represents.sound isSome,
          fun other => (by cases other), fun other => (by cases other)⟩, trivial⟩
      have all : remaining [(⟨0, 0, swa.root, .startNewNode⟩ :
          SWAStackElem top)] = entries top 0 swa.root :=
        List.append_nil _
      rw [started, ok_bind, ← all]
      exact @nextItersSWA_spec _ { swa with
        iterStack := [⟨0, 0, swa.root, .startNewNode⟩] } stacked count

/-- Every sequence of calls on a new array returns what it returns on a
partial map.  The tree that it leaves has no empty node, and counts its
occupied slots; an iteration over it yields every key once, in increasing
order, with its value, and then nothing any more. -/
theorem sparseWA_is_partial_map (host : top = 3 ∨ top = 7)
    (calls : List (Call top)) :
    ∃ (swa : SWA top) (map : PartialMap top) (answers : List (Answer top)),
      SWA.newSWA.calls calls = .ok (swa, answers) ∧
      (map, answers) = mapCalls (fun _ => none) calls ∧
      Sound top swa.root ∧
      ∃ entries : List (Word top × Word top),
        (entries.Pairwise fun entry entry' => entry.1 < entry'.1) ∧
        (∀ key val, (key, val) ∈ entries ↔ map key = some val) ∧
        ∀ count, ∃ swa', (swa.initIterSWA >>= SWA.nextItersSWA count) =
          .ok (swa', WordFM.yields entries count) := by
  obtain ⟨⟨swa, answers⟩, called, represents, areAnswers⟩ :=
    SWA.Represents.calls represents_new host calls
  refine ⟨swa, _, answers, called, congrArg (_, ·) areAnswers,
    represents.sound, entries top 0 swa.root, ?_,
    fun key val => represents.mem_entries, represents.iterates⟩
  exact (entries_sorted fits_root).imp fun less => BitVec.lt_def.mpr less

theorem sparseWA_is_partial_map_small :
    ∃ (swa : SWA 3) (map : PartialMap 3) (answers : List (Answer 3)),
      SWA.newSWA.calls [.addToSWA 0x10203 1, .addToSWA 0x10204 2,
        .delFromSWA 0x10203, .lookupSWA 0x10204] = .ok (swa, answers) ∧
      (map, answers) = mapCalls (fun _ => none) [.addToSWA 0x10203 1,
        .addToSWA 0x10204 2, .delFromSWA 0x10203, .lookupSWA 0x10204] ∧
      Sound 3 swa.root := by
  obtain ⟨swa, map, answers, called, asMap, sound, -⟩ :=
    sparseWA_is_partial_map (.inl rfl) [.addToSWA 0x10203 1,
      .addToSWA 0x10204 2, .delFromSWA 0x10203, .lookupSWA 0x10204]
  exact ⟨swa, map, answers, called, asMap, sound⟩

end SparseWA
end HelgrindPlus
