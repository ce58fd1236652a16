import HelgrindPlus.Dependency.ConstGuards

/-!
# The values of temporaries

A temporary of a block in single-assignment form has the value of its
assignment wherever it is read.  So copies and operations are equations
between the values at the end of the block, and an assignment can be changed
to a copy of a temporary that has the same value.
-/

namespace HelgrindPlus

namespace Dependency

open Outcome

/-- A helper that is called for its effect changes no temporary but the one
for its result, which is of the right type. -/
structure Host.Respects (host : Host) (tyenv : List IRType) : Prop where
  others : ∀ (details : IRDirty) (state : IRState) (tmp : Nat),
    details.tmp ≠ some tmp →
    (host.dirty details state).temps tmp = state.temps tmp
  fits : ∀ (details : IRDirty) (state : IRState) (tmp : Nat) (ty : IRType),
    details.tmp = some tmp → tyenv[tmp]? = some ty →
    (host.dirty details state).temps tmp < 2 ^ ty.bits

section Values

variable {host : Host} {irsb : IRSB} {start : IRState}

theorem Host.Respects.temps_exec {tyenv : List IRType}
    (respects : host.Respects tyenv) {state : IRState} {st : IRStmt}
    {tmp : Nat} (kept : tmp ∉ st.defines.toList) :
    (exec host tyenv state st).temps tmp = state.temps tmp := by
  cases st with
  | wrTmp tmp' data =>
      have different : tmp ≠ tmp' := by simpa [IRStmt.defines] using kept
      simp only [exec, Function.update_of_ne different]
  | dirty details =>
      apply respects.others
      simpa [IRStmt.defines] using kept
  | store endness addr data => cases endness <;> rfl
  | _ => rfl

theorem Host.Respects.ranged_exec {tyenv : List IRType}
    (respects : host.Respects tyenv) {defined : List Nat} {state : IRState}
    {st : IRStmt} (ranged : Ranged tyenv defined state)
    (reads : ∀ tmp ∈ st.reads, tmp ∈ defined)
    (typed : st.wellTyped host tyenv) :
    Ranged tyenv (st.defines.toList ++ defined)
      (exec host tyenv state st) := by
  intro tmp isDefined ty declared
  by_cases new : tmp ∈ st.defines.toList
  · cases st with
    | wrTmp tmp' data =>
        have same : tmp = tmp' := by simpa [IRStmt.defines] using new
        subst same
        obtain ⟨typed, uniform⟩ := IRStmt.wellTyped_wrTmp typed declared
        simp only [exec, Function.update_self]
        exact ranged.eval_lt reads typed uniform
    | dirty details =>
        exact respects.fits details state tmp ty
          (by simpa [IRStmt.defines] using new) declared
    | _ => cases new
  · rw [respects.temps_exec new]
    have before : tmp ∈ defined := by
      cases List.mem_append.mp isDefined with
      | inl now => exact absurd now new
      | inr before => exact before
    exact ranged tmp before ty declared

/-- The temporaries that are assigned before a statement. -/
def IRSB.scope (irsb : IRSB) (idx : Nat) : List Nat :=
  scopeAfter [] (irsb.stmts.take idx)

theorem scope_succ {idx : Nat} {st : IRStmt}
    (found : irsb.stmts[idx]? = some st) :
    irsb.scope (idx + 1) = st.defines.toList ++ irsb.scope idx := by
  rw [IRSB.scope, List.take_add_one, found]
  exact List.foldl_append

private theorem scope_beyond {idx : Nat} (beyond : irsb.stmts[idx]? = none) :
    irsb.scope (idx + 1) = irsb.scope idx := by
  rw [IRSB.scope, List.take_add_one, beyond]
  exact congrArg _ (List.append_nil _)

theorem after_beyond {idx : Nat} (beyond : irsb.stmts[idx]? = none) :
    irsb.after host start (idx + 1) = irsb.after host start idx := by
  rw [IRSB.after, List.take_add_one, beyond]
  exact congrArg _ (List.append_nil _)

theorem scope_mono {idx later tmp : Nat} (order : idx ≤ later)
    (known : tmp ∈ irsb.scope idx) : tmp ∈ irsb.scope later := by
  induction later, order using Nat.le_induction with
  | base => exact known
  | succ later _ induction =>
      cases found : irsb.stmts[later]? with
      | none => rwa [scope_beyond found]
      | some st =>
          rw [scope_succ found]
          exact List.mem_append_right _ induction

private theorem ranged_after (sane : irsb.Sane host)
    (respects : host.Respects irsb.tyenv) (idx : Nat) :
    Ranged irsb.tyenv (irsb.scope idx) (irsb.after host start idx) := by
  induction idx with
  | zero => exact nofun
  | succ idx induction =>
      cases found : irsb.stmts[idx]? with
      | none => rwa [scope_beyond found, after_beyond found]
      | some st =>
          rw [scope_succ found, after_succ found]
          exact respects.ranged_exec induction
            (sane.inScope.reads_at found)
            (sane.typed st (List.mem_of_getElem? found))

/-- A temporary that is assigned keeps its value. -/
theorem temps_kept (sane : irsb.Sane host)
    (respects : host.Respects irsb.tyenv) {idx later tmp : Nat}
    (order : idx ≤ later) (known : tmp ∈ irsb.scope idx) :
    (irsb.after host start later).temps tmp =
      (irsb.after host start idx).temps tmp := by
  induction later, order using Nat.le_induction with
  | base => rfl
  | succ later order induction =>
      cases found : irsb.stmts[later]? with
      | none => rwa [after_beyond found]
      | some st =>
          rw [after_succ found, respects.temps_exec, induction]
          intro defines
          exact sane.inScope.defines_at found tmp defines
            (scope_mono order known)

/-- The state at the end of the block. -/
def IRSB.final (host : Host) (start : IRState) (irsb : IRSB) : IRState :=
  irsb.after host start irsb.stmts.length

theorem final_temps (sane : irsb.Sane host)
    (respects : host.Respects irsb.tyenv) {idx tmp : Nat}
    (bound : idx ≤ irsb.stmts.length) (known : tmp ∈ irsb.scope idx) :
    (irsb.final host start).temps tmp =
      (irsb.after host start idx).temps tmp :=
  temps_kept sane respects bound known

theorem final_assigned (sane : irsb.Sane host)
    (respects : host.Respects irsb.tyenv) {idx tmp : Nat} {data : IRExpr}
    (found : irsb.stmts[idx]? = some (.wrTmp tmp data)) :
    (irsb.final host start).temps tmp =
      data.eval host (irsb.after host start idx) := by
  have bound := (List.getElem?_eq_some_iff.mp found).1
  rw [final_temps sane respects bound, after_succ found]
  · exact Function.update_self tmp _ _
  · rw [scope_succ found]
    exact List.mem_append_left _ (List.mem_singleton_self tmp)

theorem final_operand (sane : irsb.Sane host)
    (respects : host.Respects irsb.tyenv) {idx : Nat} {st : IRStmt}
    (found : irsb.stmts[idx]? = some st) {arg : IRAtom}
    (reads : ∀ tmp ∈ arg.tmps, tmp ∈ st.reads) :
    arg.eval (irsb.after host start idx) =
      arg.eval (irsb.final host start) := by
  apply IRAtom.eval_congr
  intro tmp read
  have bound := (List.getElem?_eq_some_iff.mp found).1
  exact (final_temps sane respects bound.le
    (sane.inScope.reads_at found tmp (reads tmp read))).symm

/-- A copy has the value of its source. -/
theorem final_copy (sane : irsb.Sane host)
    (respects : host.Respects irsb.tyenv) {idx tmp : Nat} {operand : IRAtom}
    (found : irsb.stmts[idx]? = some (.wrTmp tmp (.atom operand))) :
    (irsb.final host start).temps tmp =
      operand.eval (irsb.final host start) := by
  rw [final_assigned sane respects found]
  exact final_operand sane respects found fun _ => id

/-- An operation is an equation between the values. -/
theorem final_binop (sane : irsb.Sane host)
    (respects : host.Respects irsb.tyenv) {idx tmp : Nat} {op : IROp}
    {arg1 arg2 : IRAtom}
    (found : irsb.stmts[idx]? = some (.wrTmp tmp (.binop op arg1 arg2))) :
    (irsb.final host start).temps tmp =
      op.apply host [arg1.eval (irsb.final host start),
        arg2.eval (irsb.final host start)] := by
  rw [final_assigned sane respects found, IRExpr.eval,
    final_operand sane respects found
      (fun _ => List.mem_append_left _),
    final_operand sane respects found
      (fun _ => List.mem_append_right _)]

/-- The value of a temporary that is assigned fits its type. -/
theorem final_lt (sane : irsb.Sane host)
    (respects : host.Respects irsb.tyenv) {idx tmp : Nat} {ty : IRType}
    (bound : idx ≤ irsb.stmts.length) (known : tmp ∈ irsb.scope idx)
    (declared : irsb.tyenv[tmp]? = some ty) :
    (irsb.final host start).temps tmp < 2 ^ ty.bits :=
  ranged_after sane respects irsb.stmts.length tmp (scope_mono bound known) ty
    declared

end Values

/-- The blocks take the same states. -/
def SameRuns (host : Host) (irsb irsb' : IRSB) : Prop :=
  ∀ start idx, irsb'.after host start idx = irsb.after host start idx

section Copies

variable {host : Host} {irsb irsb' irsb'' : IRSB}

theorem SameRuns.symm (same : SameRuns host irsb irsb') :
    SameRuns host irsb' irsb :=
  fun start idx => (same start idx).symm

theorem SameRuns.trans (first : SameRuns host irsb irsb')
    (second : SameRuns host irsb' irsb'') : SameRuns host irsb irsb'' :=
  fun start idx => (second start idx).trans (first start idx)

/-- The statement is the same, or a copy of a temporary that has the value of
the assignment. -/
def CopiesEqual (host : Host) (irsb irsb' : IRSB) (idx : Nat) : Prop :=
  irsb'.stmts[idx]? = irsb.stmts[idx]? ∨
    ∃ tmp data source, irsb.stmts[idx]? = some (.wrTmp tmp data) ∧
      irsb'.stmts[idx]? = some (.wrTmp tmp (.atom (.rdTmp source))) ∧
      source ∈ irsb.scope idx ∧
      ∀ start, (irsb.final host start).temps tmp =
        (irsb.final host start).temps source

theorem sameRuns_of_copies (sane : irsb.Sane host)
    (respects : host.Respects irsb.tyenv) (tyenv : irsb'.tyenv = irsb.tyenv)
    (copies : ∀ idx, CopiesEqual host irsb irsb' idx) :
    SameRuns host irsb irsb' := by
  intro start idx
  induction idx with
  | zero => rfl
  | succ idx induction =>
      obtain same | ⟨tmp, data, source, found, found', known, equal⟩ :=
        copies idx
      · cases found : irsb.stmts[idx]? with
        | none =>
            rw [after_beyond found, after_beyond (same.trans found), induction]
        | some st =>
            rw [after_succ found, after_succ (same.trans found), induction,
              tyenv]
      · have bound := (List.getElem?_eq_some_iff.mp found).1
        have value : data.eval host (irsb.after host start idx) =
            (irsb.after host start idx).temps source := by
          rw [← final_assigned sane respects found, equal start]
          exact final_temps sane respects bound.le known
        rw [after_succ found, after_succ found', induction]
        simp only [exec, value]
        rfl

end Copies

end Dependency

end HelgrindPlus
