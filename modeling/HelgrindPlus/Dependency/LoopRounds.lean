import HelgrindPlus.Dependency.OptimiseFast

/-!
# Rounds of a loop

The body of a loop is run again and again.  Within a round a temporary has the
value of its assignment, and a byte of the guest state is that of the last
write to it.
-/

namespace HelgrindPlus

namespace Dependency

open Bytes

namespace IRSB

section Rounds

variable (host : Host) (irsb : IRSB) (state : IRState)

/-- The state before the round `k`. -/
def atRound : Nat → IRState
  | 0 => state
  | k + 1 => irsb.after host (atRound k) irsb.stmts.length

/-- The state in the round `k` before the statement `idx`. -/
def within (k idx : Nat) : IRState :=
  irsb.after host (irsb.atRound host state k) idx

/-- What the statement assigns, writes or tests in the round `k`. -/
def valueAt (idx k : Nat) : Nat :=
  match irsb.stmts[idx]? with
  | some (.wrTmp _ data) => data.eval host (irsb.within host state k idx)
  | some (.put _ data) => data.eval (irsb.within host state k idx)
  | some (.exit guard) => guard.eval (irsb.within host state k idx)
  | _ => 0

end Rounds

/-- The statement writes the cell of the guest state. -/
def Writes (irsb : IRSB) (cell idx : Nat) : Prop :=
  ∃ offset data, irsb.stmts[idx]? = some (.put offset data) ∧
    offset ≤ cell ∧ cell < offset + data.bytes irsb.tyenv

end IRSB

/-- The statements of the loop bodies considered here. -/
def IRStmt.loopBody : IRStmt → Bool
  | noOp | iMark _ _ | exit _ | put _ _ => true
  | wrTmp _ (.getI _ _ _) | wrTmp _ (.ccall _ _ _) => false
  | wrTmp _ _ => true
  | _ => false

section Rounds

variable {host : Host} {irsb : IRSB} {state : IRState}

theorem after_succ {idx : Nat} {st : IRStmt}
    (found : irsb.stmts[idx]? = some st) (start : IRState) :
    irsb.after host start (idx + 1) =
      exec host irsb.tyenv (irsb.after host start idx) st := by
  unfold IRSB.after execs
  rw [List.take_add_one, found, List.foldl_append]
  rfl

theorem within_zero (k : Nat) :
    irsb.within host state k 0 = irsb.atRound host state k := by
  simp [IRSB.within, IRSB.after]

theorem within_next_zero (k : Nat) :
    irsb.within host state (k + 1) 0 =
      irsb.within host state k irsb.stmts.length := by
  rw [within_zero]
  rfl

variable (body : ∀ st ∈ irsb.stmts, st.loopBody)

include body in
theorem loopBody_at {idx : Nat} {st : IRStmt}
    (found : irsb.stmts[idx]? = some st) : st.loopBody :=
  body st (List.mem_of_getElem? found)

/-- What no statement from `first` to `last` changes is the same at both. -/
theorem within_unchanged {α : Type} (view : IRState → α) {first last : Nat}
    (order : first ≤ last) (bound : last ≤ irsb.stmts.length)
    (kept : ∀ idx st start, first ≤ idx → idx < last →
      irsb.stmts[idx]? = some st →
      view (exec host irsb.tyenv start st) = view start) (k : Nat) :
    view (irsb.within host state k last) =
      view (irsb.within host state k first) := by
  induction last, order using Nat.le_induction with
  | base => rfl
  | succ last order induction =>
      have found : irsb.stmts[last]? = some irsb.stmts[last] :=
        List.getElem?_eq_getElem (by omega)
      have before := induction (by omega)
        fun idx st start after before => kept idx st start after (by omega)
      rw [IRSB.within, after_succ found, kept last _ _ order (by omega) found]
      exact before

end Rounds

section Assignments

variable {host : Host} {irsb : IRSB} {state : IRState}

theorem Scoped.defines_at {tyenv : List IRType} {defined : List Nat}
    {stmts : List IRStmt} (inScope : Scoped tyenv defined stmts) {count : Nat}
    {st : IRStmt} (found : stmts[count]? = some st) :
    ∀ tmp ∈ st.defines.toList,
      tmp ∉ scopeAfter defined (stmts.take count) := by
  induction stmts generalizing defined count with
  | nil => cases found
  | cons first rest induction =>
      obtain ⟨_, fresh, later⟩ := inScope
      cases count with
      | zero =>
          cases found
          exact fun tmp defines => (fresh tmp defines).2
      | succ count => exact induction later found

/-- A temporary is assigned only once. -/
theorem Scoped.assigned_once {tyenv : List IRType} {stmts : List IRStmt}
    (inScope : Scoped tyenv [] stmts) {idx idx' tmp : Nat} {st st' : IRStmt}
    (found : stmts[idx]? = some st) (found' : stmts[idx']? = some st')
    (defines : st.defines = some tmp) (defines' : st'.defines = some tmp)
    (order : idx < idx') : False := by
  apply inScope.defines_at found' tmp (by simp [defines'])
  apply mem_scopeAfter.mpr
  left
  apply List.mem_flatMap.mpr
  refine ⟨st, List.mem_of_getElem? (i := idx) ?_, by simp [defines]⟩
  rw [List.getElem?_take_of_lt order, found]

variable (inScope : Scoped irsb.tyenv [] irsb.stmts)
  (body : ∀ st ∈ irsb.stmts, st.loopBody)

include inScope body in
theorem assigned_before {idx tmp : Nat} {st : IRStmt}
    (found : irsb.stmts[idx]? = some st) (reads : tmp ∈ st.reads) :
    ∃ source data, source < idx ∧
      irsb.stmts[source]? = some (.wrTmp tmp data) := by
  have known := inScope.reads_at found tmp reads
  rw [mem_scopeAfter, definedBy, List.mem_flatMap] at known
  obtain ⟨st', member, defines⟩ | none := known
  · obtain ⟨source, found'⟩ := List.mem_iff_getElem?.mp member
    have before : source < idx := by
      have bound := (List.getElem?_eq_some_iff.mp found').1
      rw [List.length_take] at bound
      omega
    rw [List.getElem?_take_of_lt before] at found'
    have allowed := loopBody_at body found'
    cases st' with
    | wrTmp tmp' data =>
        simp only [IRStmt.defines, Option.toList_some,
          List.mem_singleton] at defines
        exact ⟨source, data, before, defines ▸ found'⟩
    | dirty details => cases allowed
    | _ => simp [IRStmt.defines] at defines
  · simp at none

include inScope body in
/-- A temporary that is read has the value of its assignment. -/
theorem temps_within {idx source tmp : Nat} {data : IRExpr}
    (assigns : irsb.stmts[source]? = some (.wrTmp tmp data))
    (before : source < idx) (bound : idx ≤ irsb.stmts.length) (k : Nat) :
    (irsb.within host state k idx).temps tmp =
      irsb.valueAt host state source k := by
  have kept : ∀ (idx' : Nat) (st : IRStmt) (start : IRState),
      source + 1 ≤ idx' → idx' < idx → irsb.stmts[idx']? = some st →
      (exec host irsb.tyenv start st).temps tmp = start.temps tmp := by
    intro idx' st start after _ found
    have allowed := loopBody_at body found
    cases st with
    | wrTmp tmp' data' =>
        have different : tmp ≠ tmp' := by
          rintro rfl
          exact inScope.assigned_once assigns found rfl rfl after
        exact Function.update_of_ne different _ _
    | store endness addr data => cases allowed
    | dirty details => cases allowed
    | _ => rfl
  rw [within_unchanged (fun start => start.temps tmp) before bound kept k,
    IRSB.within, after_succ assigns]
  simp only [exec, Function.update_self, IRSB.valueAt, assigns]
  rfl

include inScope body in
theorem source_before {idx source tmp : Nat} {st : IRStmt} {data : IRExpr}
    (assigns : irsb.stmts[source]? = some (.wrTmp tmp data))
    (found : irsb.stmts[idx]? = some st) (reads : tmp ∈ st.reads) :
    source < idx := by
  obtain ⟨source', data', before, assigns'⟩ :=
    assigned_before inScope body found reads
  obtain less | same | greater := Nat.lt_trichotomy source' source
  · exact (inScope.assigned_once assigns' assigns rfl rfl less).elim
  · exact same ▸ before
  · exact (inScope.assigned_once assigns assigns' rfl rfl greater).elim

include inScope body in
/-- What a statement reads from a temporary is the value of its assignment. -/
theorem temps_of_reads {idx source tmp : Nat} {st : IRStmt} {data : IRExpr}
    (assigns : irsb.stmts[source]? = some (.wrTmp tmp data))
    (found : irsb.stmts[idx]? = some st) (reads : tmp ∈ st.reads) (k : Nat) :
    (irsb.within host state k idx).temps tmp =
      irsb.valueAt host state source k :=
  temps_within inScope body assigns
    (source_before inScope body assigns found reads)
    (List.getElem?_eq_some_iff.mp found).1.le k

include body in
theorem guest_unchanged {cell first last : Nat} (order : first ≤ last)
    (bound : last ≤ irsb.stmts.length)
    (unwritten : ∀ idx, first ≤ idx → idx < last → ¬ irsb.Writes cell idx)
    (k : Nat) :
    (irsb.within host state k last).guest cell =
      (irsb.within host state k first).guest cell := by
  apply within_unchanged (fun start => start.guest cell) order bound
  intro idx st start after before found
  have allowed := loopBody_at body found
  cases st with
  | put offset data =>
      apply write_outside
      rintro ⟨above, below⟩
      exact unwritten idx after before ⟨offset, data, found, above, below⟩
  | putI descr ix bias data => cases allowed
  | dirty details => cases allowed
  | store endness addr data => cases allowed
  | _ => rfl

include body in
/-- A byte that was written last by the statement `writer`. -/
theorem guest_written {cell writer last offset : Nat} {data : IRAtom}
    (found : irsb.stmts[writer]? = some (.put offset data))
    (above : offset ≤ cell) (below : cell < offset + data.bytes irsb.tyenv)
    (order : writer < last) (bound : last ≤ irsb.stmts.length)
    (unwritten : ∀ idx, writer < idx → idx < last → ¬ irsb.Writes cell idx)
    (k : Nat) :
    (irsb.within host state k last).guest cell =
      UInt8.ofNat
        (irsb.valueAt host state writer k / 256 ^ (cell - offset)) := by
  rw [guest_unchanged body order bound unwritten k, IRSB.within,
    after_succ found]
  simp only [exec, write, above, below, and_self, if_true, IRSB.valueAt, found]
  rfl

end Assignments

end Dependency

end HelgrindPlus
