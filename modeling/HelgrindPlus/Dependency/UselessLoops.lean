import HelgrindPlus.Dependency.ConstGuards
import HelgrindPlus.Dependency.TreeShape
import HelgrindPlus.Dependency.Walk
import Mathlib.Tactic.IntervalCases

/-!
# The removal of register loops

`tree_removeUselessRegisterLoops` is to remove the entries of registers that a
round leaves as they were.  It skips the children of the write that it starts
from, and so removes every entry.
-/

namespace HelgrindPlus

namespace Dependency

open Outcome Bytes

/-- Before the statement number `before`, the operand is what the bytes of the
register held when the round began: a copy of such a temporary, or a read of
the register after nothing but such values was written to it. -/
inductive StartValue (irsb : IRSB) (offset size : Nat) : Nat → IRAtom → Prop
    where
  | copy {before idx tmp : Nat} {data : IRAtom} (order : idx < before)
      (assigned : irsb.stmts[idx]? = some (.wrTmp tmp (.atom data)))
      (source : StartValue irsb offset size idx data) :
      StartValue irsb offset size before (.rdTmp tmp)
  | read {before idx tmp : Nat} {ty : IRType} (order : idx < before)
      (assigned : irsb.stmts[idx]? = some (.wrTmp tmp (.get offset ty)))
      (width : sizeofIRType ty = .ok size)
      (apart : ∀ earlier offset' data, earlier < idx →
        irsb.stmts[earlier]? = some (.put offset' data) →
        Disjoint offset size offset' (data.bytes irsb.tyenv) ∨
          offset' = offset ∧ data.bytes irsb.tyenv = size)
      (restored : ∀ earlier data, earlier < idx →
        irsb.stmts[earlier]? = some (.put offset data) →
        StartValue irsb offset size earlier data)
      (plain : ∀ earlier st, earlier < idx →
        irsb.stmts[earlier]? = some st → st.plain) :
      StartValue irsb offset size before (.rdTmp tmp)

/-- The write puts into the register what it held at the start. -/
def Trivial (irsb : IRSB) (offset : Nat) (ty : IRType) (put : Nat) : Prop :=
  ∃ data size, sizeofIRType ty = .ok size ∧
    irsb.stmts[put]? = some (.put offset data) ∧
    StartValue irsb offset size put data

section Values

variable {host : Host} {irsb : IRSB} {start : IRState}

/-- A temporary keeps the value of its assignment. -/
theorem temps_after (inScope : Scoped irsb.tyenv [] irsb.stmts)
    {source idx tmp : Nat} {data : IRExpr}
    (assigned : irsb.stmts[source]? = some (.wrTmp tmp data))
    (order : source < idx) (bound : idx ≤ irsb.stmts.length)
    (plain : ∀ k st, k < idx → irsb.stmts[k]? = some st → st.plain) :
    (irsb.after host start idx).temps tmp =
      data.eval host (irsb.after host start source) := by
  induction idx, order using Nat.le_induction with
  | base =>
      rw [after_succ assigned]
      exact Function.update_self tmp _ _
  | succ idx order induction =>
      have found : irsb.stmts[idx]? = some irsb.stmts[idx] :=
        List.getElem?_eq_getElem (by omega)
      have before := induction (by omega) fun k st less =>
        plain k st (by omega)
      rw [after_succ found, ← before]
      have allowed := plain idx _ (Nat.lt_succ_self idx) found
      generalize irsb.stmts[idx] = st at found allowed
      cases st with
      | wrTmp tmp' data' =>
          have different : tmp ≠ tmp' := by
            rintro rfl
            exact inScope.assigned_once assigned found rfl rfl order
          exact Function.update_of_ne different _ _
      | dirty details => cases allowed
      | store endness addr data => cases endness <;> rfl
      | _ => rfl

/-- Nothing but the start value is written to the register. -/
theorem read_after {offset size idx : Nat} (bound : idx ≤ irsb.stmts.length)
    (apart : ∀ earlier offset' data, earlier < idx →
      irsb.stmts[earlier]? = some (.put offset' data) →
      Disjoint offset size offset' (data.bytes irsb.tyenv) ∨
        offset' = offset ∧ data.bytes irsb.tyenv = size)
    (restored : ∀ earlier data, earlier < idx →
      irsb.stmts[earlier]? = some (.put offset data) →
      data.eval (irsb.after host start earlier) =
        read start.guest offset size)
    (plain : ∀ earlier st, earlier < idx →
      irsb.stmts[earlier]? = some st → st.plain) :
    read (irsb.after host start idx).guest offset size =
      read start.guest offset size := by
  induction idx with
  | zero => simp [IRSB.after]
  | succ idx induction =>
      have found : irsb.stmts[idx]? = some irsb.stmts[idx] :=
        List.getElem?_eq_getElem (by omega)
      have before := induction (by omega)
        (fun k offset' data less => apart k offset' data (by omega))
        (fun k data less => restored k data (by omega))
        (fun k st less => plain k st (by omega))
      rw [after_succ found, ← before]
      have allowed := plain idx _ (Nat.lt_succ_self idx) found
      generalize irsb.stmts[idx] = st at found allowed
      cases st with
      | put offset' data =>
          rcases apart idx offset' data (Nat.lt_succ_self idx) found with
            disjoint | ⟨rfl, width⟩
          · exact read_write_disjoint disjoint
          · have value := restored idx data (Nat.lt_succ_self idx) found
            simp only [exec, width, value]
            rw [read_write_of_lt (read_lt _ _ _), before]
      | putI descr ix bias data => cases allowed
      | dirty details => cases allowed
      | store endness addr data => cases endness <;> rfl
      | _ => rfl

/-- What is called the start value is the value at the start. -/
theorem StartValue.eval {offset size before : Nat} {data : IRAtom}
    (value : StartValue irsb offset size before data)
    (inScope : Scoped irsb.tyenv [] irsb.stmts)
    (bound : before ≤ irsb.stmts.length)
    (plain : ∀ k st, k < before → irsb.stmts[k]? = some st → st.plain) :
    data.eval (irsb.after host start before) =
      Bytes.read start.guest offset size := by
  induction value with
  | copy order assigned source induction =>
      rw [IRAtom.eval, temps_after inScope assigned order bound plain]
      apply induction (by omega)
      intro k st less
      exact plain k st (by omega)
  | @read before idx tmp ty order assigned width apart restored plain' sources =>
      rw [IRAtom.eval, temps_after inScope assigned order bound plain]
      have same := @read_after host irsb start _ _ _ (by omega) apart
        (fun earlier data less found => sources earlier data less found
          (by omega) fun k st less' => plain k st (by omega)) plain'
      have size := sizeofIRType_eq_ok width
      subst size
      have whole : 2 ^ ty.bits = 256 ^ ty.bytes := by
        cases ty <;> first | rfl | cases width
      simp only [IRExpr.eval, same, IRType.fit, whole]
      exact Nat.mod_eq_of_lt (read_lt _ _ _)

end Values

/-- A fresh tree in which any expressions were simplified. -/
inductive Simplifying (addrBits fuel : Nat) (bb : IRSB) : IrsbTree → Prop where
  | built {tree : IrsbTree} (init : treeInit bb = .ok tree) :
      Simplifying addrBits fuel bb { tree with wasSimplified := true }
  | simplified {tree tree' : IrsbTree} {tmp : Nat} {changed : Bool}
      (before : Simplifying addrBits fuel bb tree)
      (step : treeSimplifyExpression addrBits fuel tree tmp =
        .ok (tree', changed)) :
      Simplifying addrBits fuel bb tree'

section Folds

variable {addrBits fuel : Nat} {kept : IrsbTree → Prop}

/-- What every fold keeps is kept by the simplification of an expression. -/
theorem simplifyLoop_kept {state state' : SimplifyState} {iter : TreeIterator}
    (fold : ∀ tree tree' last argTmp, kept tree →
      foldToCopy tree last argTmp = .ok tree' → kept tree')
    (before : kept state.tree)
    (looped : simplifyLoop addrBits fuel state iter = .ok state') :
    kept state'.tree := by
  induction fuel generalizing state iter with
  | zero => cases looped
  | succ fuel induction =>
      obtain ⟨⟨iter', found⟩, _, looped⟩ := bind_eq_ok.mp looped
      cases found with
      | none =>
          cases looped
          exact before
      | some val =>
          simp only at looped
          split at looped
          · exact induction before looped
          · obtain ⟨state₁, first, later⟩ := bind_eq_ok.mp looped
            refine induction ?_ later
            unfold simplifyStmt at first
            split at first
            · cases first
              exact before
            · split at first
              · obtain ⟨lpt, _, first⟩ := bind_eq_ok.mp first
                cases lpt with
                | none =>
                    cases first
                    exact before
                | some lpt =>
                    simp only at first
                    split at first
                    · obtain ⟨tree, folded, first⟩ := bind_eq_ok.mp first
                      cases first
                      exact fold _ _ _ _ before folded
                    · cases first
                      exact before
              · cases first
                exact before
            · cases first
              exact before
            · cases first
          · cases looped
            exact before
          · cases looped
            exact before

private theorem treeSimplifyExpression_kept {tree tree' : IrsbTree} {tmp : Nat}
    {changed : Bool}
    (fold : ∀ tree tree' last argTmp, kept tree →
      foldToCopy tree last argTmp = .ok tree' → kept tree')
    (before : kept tree)
    (step : treeSimplifyExpression addrBits fuel tree tmp =
      .ok (tree', changed)) :
    kept tree' := by
  obtain ⟨root, _, step⟩ := bind_eq_ok.mp step
  obtain ⟨iter, _, step⟩ := bind_eq_ok.mp step
  obtain ⟨state, looped, step⟩ := bind_eq_ok.mp step
  cases step
  exact @simplifyLoop_kept addrBits fuel kept ⟨tree, .clear, false⟩ _ _ fold
    before looped

/-- A fold changes one assignment. -/
theorem foldToCopy_eq_ok {tree tree' : IrsbTree} {last : Option Nat}
    {argTmp : Nat} (folded : foldToCopy tree last argTmp = .ok tree') :
    ∃ idx tmp data, last = some idx ∧
      tree.irsb.stmts[idx]? = some (.wrTmp tmp data) ∧ tmp ≠ argTmp ∧
      tree' = { tree with irsb := { tree.irsb with
        stmts := tree.irsb.stmts.set idx
          (.wrTmp tmp (.atom (.rdTmp argTmp))) } } := by
  unfold foldToCopy at folded
  split at folded
  · cases folded
  · next idx =>
      split at folded
      · next tmp data found =>
          obtain ⟨_, asserted, folded⟩ := bind_eq_ok.mp folded
          cases folded
          exact ⟨idx, tmp, data, rfl, found, tlAssert_eq_ok.mp asserted, rfl⟩
      · cases folded

/-- A change of what a temporary is assigned. -/
theorem IrsbTree.Shaped.set {tree : IrsbTree} (shaped : tree.Shaped)
    {idx tmp : Nat} {data : IRExpr}
    (found : tree.irsb.stmts[idx]? = some (.wrTmp tmp data))
    (new : IRExpr) :
    IrsbTree.Shaped { tree with irsb :=
      ⟨tree.irsb.tyenv, tree.irsb.stmts.set idx (.wrTmp tmp new)⟩ } := by
  have bound := (List.getElem?_eq_some_iff.mp found).1
  constructor
  · intro tmp' idx' noted
    obtain ⟨data', found'⟩ := shaped.node tmp' idx' noted
    rw [List.getElem?_set]
    split
    · next same =>
        subst same
        rw [found] at found'
        cases found'
        exact ⟨_, rfl⟩
    · exact ⟨data', found'⟩
  · intro entry member
    obtain ⟨offset, ty, data', keyed, found'⟩ := shaped.register entry member
    refine ⟨offset, ty, data', keyed, ?_⟩
    rw [List.getElem?_set_ne _]
    · exact found'
    · rintro rfl
      rw [found] at found'
      cases found'

theorem foldToCopy_shaped {tree tree' : IrsbTree} {last : Option Nat}
    {argTmp : Nat} (shaped : tree.Shaped)
    (folded : foldToCopy tree last argTmp = .ok tree') : tree'.Shaped := by
  obtain ⟨idx, tmp, data, rfl, found, _, rfl⟩ := foldToCopy_eq_ok folded
  exact shaped.set found (.atom (.rdTmp argTmp))

theorem Simplifying.shaped {bb : IRSB} {tree : IrsbTree}
    (reached : Simplifying addrBits fuel bb tree) : tree.Shaped := by
  induction reached with
  | built init =>
      have shaped := treeInit_shaped init
      exact ⟨shaped.node, shaped.register⟩
  | simplified before step induction =>
      apply treeSimplifyExpression_kept _ induction step
      intro tree tree' last argTmp
      exact foldToCopy_shaped

end Folds

section Removal

variable {tree : IrsbTree}

/-- The walk is over after the write that it starts from. -/
theorem uselessRegister_shaped {fuel : Nat} {entry : Nat × Nat}
    (shaped : tree.Shaped) (member : entry ∈ tree.regLoopDefs) :
    uselessRegister (fuel + 2) tree entry = .ok true := by
  obtain ⟨offset, ty, data, keyed, found⟩ := shaped.register entry member
  have bound := (List.getElem?_eq_some_iff.mp found).1
  have room : ¬ tree.irsb.stmts.length * 2 ≤ 0 := by omega
  have start : treeIteratorNew tree entry.2 = .ok
      ⟨[⟨.stmt, entry.2, 0, none, [some (.atom data)], false⟩],
        tree.irsb.stmts.length * 2, true, false⟩ := by
    simp only [treeIteratorNew, treeIteratorStmt, found]
    rfl
  rw [uselessRegister, start, ok_bind, treeNodeRegOffset_key keyed]
  simp [uselessLoop, treeIteratorNext, treeIteratorPop, room, uselessValue,
    found, treeIteratorSkip, nextChild]
  rfl

private theorem treeRemoveUselessRegisterLoops_shaped {fuel : Nat}
    (shaped : tree.Shaped) :
    treeRemoveUselessRegisterLoops (fuel + 2) tree =
      .ok { tree with regLoopDefs := [] } := by
  have all : ∀ entries : List (Nat × Nat),
      (∀ entry ∈ entries, entry ∈ tree.regLoopDefs) →
      keptRegisters (fuel + 2) tree entries = .ok [] := by
    intro entries inside
    induction entries with
    | nil => rfl
    | cons entry rest induction =>
        rw [keptRegisters, uselessRegister_shaped shaped
          (inside entry List.mem_cons_self), ok_bind,
          induction fun entry later =>
            inside entry (List.mem_cons_of_mem _ later)]
        rfl
  rw [treeRemoveUselessRegisterLoops, all _ fun _ => id]
  rfl

/-- An entry for a register, and whether it is removed rightly. -/
def RemovesOnlyTrivial (tree tree' : IrsbTree) (offset : Nat) (ty : IRType)
    (put : Nat) : Prop :=
  treeNodeRegister tree' offset ty = .ok none →
    Trivial tree.irsb offset ty put

/-- An entry is removed rightly just if its loop is trivial, since all are
removed. -/
theorem removes_only_trivial_iff (addrBits fuel rounds : Nat) (bb : IRSB)
    (tree : IrsbTree) (reached : Simplifying addrBits fuel bb tree) :
    ∃ tree', treeRemoveUselessRegisterLoops (rounds + 2) tree = .ok tree' ∧
      ∀ offset ty put, treeNodeRegister tree offset ty = .ok (some put) →
        (RemovesOnlyTrivial tree tree' offset ty put ↔
          Trivial tree.irsb offset ty put) := by
  refine ⟨_, treeRemoveUselessRegisterLoops_shaped reached.shaped, ?_⟩
  intro offset ty put entry
  constructor
  · intro rightly
    apply rightly
    obtain ⟨key, keyed, _⟩ := bind_eq_ok.mp entry
    rw [treeNodeRegister, keyed]
    rfl
  · intro trivial' _
    exact trivial'

end Removal

/-- A register that is written back as it was read. -/
def idleBlock : IRSB where
  tyenv := [.I32]
  stmts := [.iMark 0x8048000 3, .wrTmp 0 (.get 8 .I32), .put 8 (.rdTmp 0)]

theorem removes_only_trivial_idle :
    ∃ tree tree', treeInit idleBlock = .ok tree ∧
      treeRemoveUselessRegisterLoops 2 { tree with wasSimplified := true } =
        .ok tree' ∧
      RemovesOnlyTrivial { tree with wasSimplified := true } tree' 8 .I32
        2 := by
  obtain ⟨tree, built, entry⟩ := exists_ok_of_map
    (show (treeInit idleBlock).toOption.map
      (fun tree => (tree.irsb, tree.regLoopDefs)) =
        some (idleBlock, [(0x8000B, 2)]) by decide +kernel)
  have same : tree.irsb = idleBlock := congrArg Prod.fst entry
  have known : tree.regLoopDefs = [(0x8000B, 2)] := congrArg Prod.snd entry
  obtain ⟨tree', removed, rightly⟩ :=
    removes_only_trivial_iff 32 100 0 idleBlock _ (.built built)
  refine ⟨tree, tree', built, removed, (rightly 8 .I32 2 ?_).mpr ?_⟩
  · show (pure (tree.regLoopDefs.lookup 0x8000B) : Except Halt _) = _
    rw [known]
    rfl
  · refine ⟨.rdTmp 0, 4, rfl, by rw [same]; rfl, ?_⟩
    refine @StartValue.read _ _ _ _ 1 _ .I32 (by decide) (by rw [same]; rfl)
      rfl ?_ ?_ ?_
    all_goals
      rw [same]
    · intro earlier offset data less found
      interval_cases earlier
      cases found
    · intro earlier data less found
      interval_cases earlier
      cases found
    · intro earlier st less found
      interval_cases earlier
      cases found
      rfl

/-- A register that is counted up, besides two operations that cancel. -/
def countedBlock : IRSB where
  tyenv := [.I32, .I32, .I32, .I32]
  stmts := [.iMark 0x8048000 3, .wrTmp 0 (.get 8 .I32),
    .wrTmp 1 (.binop (.add .w32) (.rdTmp 0) (.const (.U32 1))),
    .put 8 (.rdTmp 1),
    .wrTmp 2 (.binop (.add .w32) (.rdTmp 0) (.const (.U32 4))),
    .wrTmp 3 (.binop (.sub .w32) (.rdTmp 2) (.const (.U32 4)))]

/-- The counter is taken for a register that stays as it is. -/
theorem removes_counted :
    ∃ tree tree' tree'', treeInit countedBlock = .ok tree ∧
      treeSimplifyExpression 32 100 { tree with wasSimplified := true } 3 =
        .ok (tree', true) ∧
      treeNodeRegister tree' 8 .I32 = .ok (some 3) ∧
      treeRemoveUselessRegisterLoops 100 tree' = .ok tree'' ∧
      ¬ RemovesOnlyTrivial tree' tree'' 8 .I32 3 := by
  let folded : IRSB := { countedBlock with
    stmts := countedBlock.stmts.set 5 (.wrTmp 3 (.atom (.rdTmp 0))) }
  refine ⟨⟨countedBlock, [some 1, some 2, some 4, some 5], [(0x8000B, 3)], [],
      false⟩,
    ⟨folded, [some 1, some 2, some 4, some 5], [(0x8000B, 3)], [], true⟩,
    ⟨folded, [some 1, some 2, some 4, some 5], [], [], true⟩, ?_⟩
  refine ⟨by decide +kernel, by decide +kernel, by decide +kernel,
    by decide +kernel, fun rightly => ?_⟩
  obtain ⟨data, size, _, found, value⟩ := rightly (by decide +kernel)
  cases found
  cases value with
  | @copy _ idx _ _ order assigned source =>
      interval_cases idx <;> cases assigned
  | @read _ idx _ _ order assigned =>
      interval_cases idx <;> cases assigned

end Dependency

end HelgrindPlus
