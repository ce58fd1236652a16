import HelgrindPlus.Main.InstrumentRuns

/-!
# What the reports say about the client

The accesses that an instrumented block reports are all that matters of it to
the memory of the client: every cell that has changed lies in a reported store,
and the run depends only on those cells of the memory before that lie in
reported loads.
-/

namespace HelgrindPlus

namespace Dependency

open Outcome Bytes

/-- The dirty calls of the client do to memory what they declare. -/
structure Host.Declares (host : Host) (env : InstrumentEnv) : Prop where
  changes : ∀ {details state cell},
    (host.dirty details state).memory cell ≠ state.memory cell →
    ∃ mAddr, details.mAddr = some mAddr ∧
      (env.effect details).mFx.writes = true ∧
      mAddr.eval state ≤ cell ∧
      cell < mAddr.eval state + (env.effect details).mSize
  depends : ∀ {details state state'}, state.temps = state'.temps →
    state.guest = state'.guest →
    (∀ mAddr, details.mAddr = some mAddr →
      (env.effect details).mFx.reads = true → ∀ cell,
        mAddr.eval state ≤ cell →
        cell < mAddr.eval state + (env.effect details).mSize →
        state.memory cell = state'.memory cell) →
    (host.dirty details state).temps = (host.dirty details state').temps ∧
    (host.dirty details state).guest = (host.dirty details state').guest ∧
    ∀ cell, (host.dirty details state).memory cell =
        (host.dirty details state').memory cell ∨
      ((host.dirty details state).memory cell = state.memory cell ∧
        (host.dirty details state').memory cell = state'.memory cell)

/-- The statements before the first instruction mark access no memory. -/
def QuietPreamble (env : InstrumentEnv) (tyenv : List IRType)
    (stmts : List IRStmt) : Prop :=
  ∀ st ∈ stmts.takeWhile (fun st => !st.isIMark),
    memRefs env tyenv ⟨true, false, false⟩ st = []

instance (env : InstrumentEnv) (tyenv : List IRType) (stmts : List IRStmt) :
    Decidable (QuietPreamble env tyenv stmts) :=
  inferInstanceAs (Decidable (∀ st ∈ _, _ = _))

section Blocks

variable {env : InstrumentEnv} {host : Host} {tyenv : List IRType}
  {place : Place} {state state' : IRState}

/-- Where a statement stands does not matter to whether it has accesses. -/
theorem memRefs_eq_nil {st : IRStmt} (place place' : Place)
    (none : memRefs env tyenv place st = []) :
    memRefs env tyenv place' st = [] := by
  cases st with
  | wrTmp tmp data => cases data <;> first | rfl | cases none
  | store endness addr data => cases none
  | dirty details => exact none
  | _ => rfl

/-- A statement of the preamble makes no access, and the others are
reported. -/
theorem QuietPreamble.head {st : IRStmt} {rest : List IRStmt}
    (quiet : place.started = false → QuietPreamble env tyenv (st :: rest)) :
    place.started = true ∨ memRefs env tyenv place st = [] := by
  cases started : place.started with
  | true => exact .inl rfl
  | false =>
      right
      cases isMark : st.isIMark with
      | true => cases st <;> first | rfl | cases isMark
      | false =>
          apply memRefs_eq_nil ⟨true, false, false⟩
          apply quiet started st
          rw [List.takeWhile_cons, isMark]
          exact .head _

theorem QuietPreamble.next {st : IRStmt} {rest : List IRStmt}
    (quiet : place.started = false → QuietPreamble env tyenv (st :: rest))
    (unstarted : (place.next st).started = false) :
    QuietPreamble env tyenv rest := by
  have notStarted : place.started = false := by
    cases started : place.started with
    | false => rfl
    | true =>
        unfold Place.next at unstarted
        rw [if_pos started] at unstarted
        split at unstarted <;>
          exact absurd (started.symm.trans unstarted) (by decide)
  have notMark : st.isIMark = false := by
    simpa [Place.next, notStarted] using unstarted
  intro other isIn
  apply quiet notStarted other
  rw [List.takeWhile_cons, notMark]
  exact .tail _ isIn

/-- The run of a block, one statement ahead. -/
theorem observe_cons {st : IRStmt} {rest : List IRStmt}
    (reported : place.started = true ∨ memRefs env tyenv place st = [])
    (notTaken : exitTaken state st = false) :
    observe env tyenv host place state (st :: rest) =
      { observe env tyenv host (place.next st) (exec host tyenv state st)
          rest with
        accesses := (memRefs env tyenv place st).map (·.access state) ++
          (observe env tyenv host (place.next st)
            (exec host tyenv state st) rest).accesses } := by
  rw [observe, notTaken]
  obtain started | none := reported
  · simp [started]
  · simp [none]

theorem observe_cons_taken {st : IRStmt} {rest : List IRStmt}
    (taken : exitTaken state st = true) :
    observe env tyenv host place state (st :: rest) =
      ⟨state, [], some (exitsLeft rest)⟩ := by
  rw [observe, taken]
  rfl

theorem exec_changes (declares : host.Declares env) {st : IRStmt} {cell : Nat}
    (changed : (exec host tyenv state st).memory cell ≠ state.memory cell) :
    ∃ ref ∈ memRefs env tyenv place st, ref.isStore = true ∧
      (ref.access state).Covers cell := by
  cases st with
  | store endness addr data =>
      refine ⟨_, List.mem_singleton_self _, rfl, ?_⟩
      by_contra outside
      apply changed
      cases endness with
      | LE => exact if_neg outside
      | BE => exact if_neg outside
  | dirty details =>
      obtain ⟨mAddr, isAddr, writes, above, below⟩ := declares.changes changed
      refine ⟨⟨true, false, mAddr, (env.effect details).mSize⟩, ?_, rfl,
        above, below⟩
      simp [memRefs, isAddr, writes]
  | _ => exact absurd rfl changed

theorem observe_changes (declares : host.Declares env) {stmts : List IRStmt}
    (quiet : place.started = false → QuietPreamble env tyenv stmts)
    {cell : Nat}
    (changed : (observe env tyenv host place state stmts).state.memory cell ≠
      state.memory cell) :
    ∃ access ∈ (observe env tyenv host place state stmts).accesses,
      access.isStore = true ∧ access.Covers cell := by
  induction stmts generalizing place state with
  | nil => exact absurd rfl changed
  | cons st rest induction =>
      cases taken : exitTaken state st with
      | true =>
          rw [observe_cons_taken taken] at changed
          exact absurd rfl changed
      | false =>
          rw [observe_cons (QuietPreamble.head quiet) taken] at changed ⊢
          by_cases later :
              (observe env tyenv host (place.next st)
                (exec host tyenv state st) rest).state.memory cell =
              (exec host tyenv state st).memory cell
          · -- the cell has changed in the first statement
            dsimp only at changed
            rw [later] at changed
            obtain ⟨ref, isRef, isStore, covers⟩ :=
              exec_changes declares changed
            refine ⟨ref.access state, ?_, isStore, covers⟩
            exact List.mem_append_left _ (List.mem_map_of_mem isRef)
          · obtain ⟨access, isIn, isStore, covers⟩ :=
              induction (QuietPreamble.next quiet) later
            exact ⟨access, List.mem_append_right _ isIn, isStore, covers⟩

/-- Every cell agrees in the later states, or neither run has changed it. -/
def Tracks (state state' later later' : IRState) : Prop :=
  ∀ cell, later.memory cell = later'.memory cell ∨
    (later.memory cell = state.memory cell ∧
      later'.memory cell = state'.memory cell)

theorem Tracks.refl (state state' : IRState) :
    Tracks state state' state state' :=
  fun _ => .inr ⟨rfl, rfl⟩

theorem Tracks.trans {middle middle' later later' : IRState}
    (first : Tracks state state' middle middle')
    (second : Tracks middle middle' later later') :
    Tracks state state' later later' := by
  intro cell
  obtain agree | ⟨same, same'⟩ := second cell
  · exact .inl agree
  · obtain agree | ⟨before, before'⟩ := first cell
    · exact .inl (same.trans (agree.trans same'.symm))
    · exact .inr ⟨same.trans before, same'.trans before'⟩

theorem Tracks.of_write (isLE : Bool) {start count value : Nat}
    {memory memory' : Cells}
    (isMemory : memory = if isLE then write state.memory start count value
      else writeBig state.memory start count value)
    (isMemory' : memory' = if isLE then write state'.memory start count value
      else writeBig state'.memory start count value) :
    Tracks state state' { state with memory := memory }
      { state' with memory := memory' } := by
  intro cell
  dsimp only
  rw [isMemory, isMemory']
  by_cases inside : start ≤ cell ∧ cell < start + count
  · left
    cases isLE with
    | true => exact (if_pos inside).trans (if_pos inside).symm
    | false => exact (if_pos inside).trans (if_pos inside).symm
  · right
    cases isLE with
    | true => exact ⟨if_neg inside, if_neg inside⟩
    | false => exact ⟨if_neg inside, if_neg inside⟩

theorem eval_atom_eq (temps : state.temps = state'.temps) (atom : IRAtom) :
    atom.eval state = atom.eval state' :=
  IRAtom.eval_congr fun tmp _ => congrFun temps tmp

private theorem eval_atoms_eq (temps : state.temps = state'.temps)
    (atoms : List IRAtom) :
    atoms.map (IRAtom.eval state) = atoms.map (IRAtom.eval state') :=
  List.map_congr_left fun atom _ => eval_atom_eq temps atom

/-- An expression depends on memory only if it is a load. -/
theorem eval_expr_eq (temps : state.temps = state'.temps)
    (guest : state.guest = state'.guest) {data : IRExpr}
    (loads : ∀ endness ty addr, data = .load endness ty addr → ∀ cell,
      addr.eval state ≤ cell → cell < addr.eval state + ty.bytes →
      state.memory cell = state'.memory cell) :
    data.eval host state = data.eval host state' := by
  cases data with
  | get offset ty => simp only [IRExpr.eval, guest]
  | getI descr ix bias =>
      simp only [IRExpr.eval, guest, eval_atom_eq temps ix]
  | atom operand => exact eval_atom_eq temps operand
  | qop op arg1 arg2 arg3 arg4 =>
      simp only [IRExpr.eval, eval_atom_eq temps]
  | triop op arg1 arg2 arg3 => simp only [IRExpr.eval, eval_atom_eq temps]
  | binop op arg1 arg2 => simp only [IRExpr.eval, eval_atom_eq temps]
  | unop op arg => simp only [IRExpr.eval, eval_atom_eq temps]
  | load endness ty addr =>
      have cells := loads endness ty addr rfl
      cases endness with
      | LE =>
          simp only [IRExpr.eval, ← eval_atom_eq temps addr,
            read_congr cells]
      | BE =>
          simp only [IRExpr.eval, ← eval_atom_eq temps addr,
            readBig_congr cells]
  | ccall cee retty args =>
      simp only [IRExpr.eval, eval_atoms_eq temps args]
  | mux0X cond expr0 exprX => simp only [IRExpr.eval, eval_atom_eq temps]

/-- What two runs have in common after they agreed on the loads. -/
structure Alike (state state' later later' : IRState) : Prop where
  temps : later.temps = later'.temps
  guest : later.guest = later'.guest
  tracks : Tracks state state' later later'

private theorem exec_alike (declares : host.Declares env) {st : IRStmt}
    (temps : state.temps = state'.temps) (guest : state.guest = state'.guest)
    (reads : ∀ ref ∈ memRefs env tyenv place st, ref.isStore = false →
      ∀ cell, (ref.access state).Covers cell →
        state.memory cell = state'.memory cell) :
    Alike state state' (exec host tyenv state st)
      (exec host tyenv state' st) := by
  cases st with
  | noOp | iMark addr len | abiHint base len nia | comment | mbe event
  | exit guard => exact ⟨temps, guest, .refl state state'⟩
  | put offset data =>
      refine ⟨temps, ?_, .refl state state'⟩
      simp only [exec, guest, eval_atom_eq temps data]
  | putI descr ix bias data =>
      refine ⟨temps, ?_, .refl state state'⟩
      simp only [exec, guest, eval_atom_eq temps ix, eval_atom_eq temps data]
  | wrTmp tmp data =>
      refine ⟨?_, guest, .refl state state'⟩
      have same : data.eval host state = data.eval host state' := by
        apply eval_expr_eq temps guest
        intro endness ty addr isLoad cell above below
        cases isLoad
        exact reads _ (List.mem_singleton_self _) rfl cell ⟨above, below⟩
      simp only [exec, temps, same]
  | store endness addr data =>
      cases endness with
      | LE =>
          refine ⟨temps, guest, Tracks.of_write true rfl ?_⟩
          simp only [eval_atom_eq temps addr, eval_atom_eq temps data]
          rfl
      | BE =>
          refine ⟨temps, guest, Tracks.of_write false rfl ?_⟩
          simp only [eval_atom_eq temps addr, eval_atom_eq temps data]
          rfl
  | dirty details =>
      have loads : ∀ mAddr, details.mAddr = some mAddr →
          (env.effect details).mFx.reads = true → ∀ cell,
            mAddr.eval state ≤ cell →
            cell < mAddr.eval state + (env.effect details).mSize →
            state.memory cell = state'.memory cell := by
        intro mAddr isAddr isRead cell above below
        refine reads ⟨false, false, mAddr, _⟩ ?_ rfl cell ⟨above, below⟩
        simp [memRefs, isAddr, isRead]
      obtain ⟨temps', guest', tracks⟩ := declares.depends temps guest loads
      exact ⟨temps', guest', tracks⟩

/-- Two runs with the same loads. -/
structure SameRun (state state' : IRState) (trace trace' : Trace) : Prop where
  accesses : trace.accesses = trace'.accesses
  exit : trace.exit = trace'.exit
  alike : Alike state state' trace.state trace'.state

theorem observe_alike (declares : host.Declares env) {stmts : List IRStmt}
    (quiet : place.started = false → QuietPreamble env tyenv stmts)
    {start start' : IRState} (alike : Alike start start' state state')
    (reads : ∀ access ∈ (observe env tyenv host place state stmts).accesses,
      access.isStore = false → ∀ cell, access.Covers cell →
        start.memory cell = start'.memory cell) :
    SameRun start start' (observe env tyenv host place state stmts)
      (observe env tyenv host place state' stmts) := by
  induction stmts generalizing place state state' with
  | nil => exact ⟨rfl, rfl, alike⟩
  | cons st rest induction =>
      have sameExit : exitTaken state st = exitTaken state' st := by
        cases st with
        | exit guard => simp only [exitTaken, eval_atom_eq alike.temps]
        | _ => rfl
      cases taken : exitTaken state st with
      | true =>
          rw [observe_cons_taken taken,
            observe_cons_taken (sameExit.symm.trans taken)]
          exact ⟨rfl, rfl, alike⟩
      | false =>
          have reported := QuietPreamble.head quiet
          rw [observe_cons reported taken] at reads ⊢
          rw [observe_cons reported (sameExit.symm.trans taken)]
          have sameRefs :
              (memRefs env tyenv place st).map (·.access state) =
                (memRefs env tyenv place st).map (·.access state') := by
            apply List.map_congr_left
            intro ref _
            simp only [MemRef.access, eval_atom_eq alike.temps]
          -- a cell that agreed at the start still does
          have kept : ∀ cell, start.memory cell = start'.memory cell →
              state.memory cell = state'.memory cell := by
            intro cell agree
            obtain same | ⟨before, before'⟩ := alike.tracks cell
            · exact same
            · exact before.trans (agree.trans before'.symm)
          have step := exec_alike declares alike.temps alike.guest
            fun ref isRef isLoad cell covers => kept cell
              (reads _ (List.mem_append_left _ (List.mem_map_of_mem isRef))
                isLoad cell covers)
          have later := induction (QuietPreamble.next quiet)
            ⟨step.temps, step.guest, alike.tracks.trans step.tracks⟩
            fun access isIn =>
              reads access (List.mem_append_right _ isIn)
          exact ⟨congrArg₂ (· ++ ·) sameRefs later.accesses, later.exit,
            later.alike⟩

end Blocks

end Dependency

end HelgrindPlus
