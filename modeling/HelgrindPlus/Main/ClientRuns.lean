import HelgrindPlus.Dependency.OptimiseFast
import HelgrindPlus.Main.AccessReports
import HelgrindPlus.Msm.Machine

/-!
# Runs of the client under the tool

The threads of a client run instrumented blocks, with calls of libhb for the
events in between.  The client does what it would do without the tool, and the
detector does what it does on the accesses of the client and the other calls.
-/

namespace HelgrindPlus

namespace Dependency

open Outcome Bytes

/-- A block that the pass has accepted, and that calls none of the helpers
itself. -/
structure Instrumented (env : InstrumentEnv) where
  bbIn : IRSB
  bbOut : IRSB
  done : hgInstrument env bbIn = .ok bbOut
  own : OwnCalls env bbIn.stmts

/-- The threads share the memory; each has a guest state of its own. -/
structure Client where
  guests : Nat → Cells
  memory : Cells

/-- The temporaries of a block are assigned before they are used. -/
def Client.enter (client : Client) (thr : Nat) : IRState :=
  ⟨fun _ => 0, client.guests thr, client.memory⟩

def Client.leave (client : Client) (thr : Nat) (state : IRState) : Client :=
  ⟨Function.update client.guests thr state.guest, state.memory⟩

/-- A client that has run some blocks, with the exits it has taken. -/
structure ClientRun where
  client : Client
  exits : List (Option Nat)

/-- A thread runs a block, or an event handler calls libhb. -/
inductive RunEvent (env : InstrumentEnv) (ω : Type) where
  | block (thr : Nat) (bb : Instrumented env)
  | call (op : ω)

/-- No block of the run accesses memory before its first instruction mark. -/
def Quiet {env : InstrumentEnv} {ω : Type} (events : List (RunEvent env ω)) :
    Prop :=
  ∀ thr bb, .block thr bb ∈ events →
    QuietPreamble env bb.bbIn.tyenv bb.bbIn.stmts

theorem Quiet.head {env : InstrumentEnv} {ω : Type} {thr : Nat}
    {bb : Instrumented env} {rest : List (RunEvent env ω)}
    (quiet : Quiet (.block thr bb :: rest)) :
    QuietPreamble env bb.bbIn.tyenv bb.bbIn.stmts :=
  quiet thr bb List.mem_cons_self

theorem Quiet.tail {env : InstrumentEnv} {ω : Type} {event : RunEvent env ω}
    {rest : List (RunEvent env ω)} (quiet : Quiet (event :: rest)) :
    Quiet rest :=
  fun thr bb isIn => quiet thr bb (List.mem_cons_of_mem event isIn)

namespace ClientRun

variable {env : InstrumentEnv} {δ ε ω : Type} (host : Host)
  (perform : δ → ω → Except ε δ) (accessOp : Nat → Access → ω)

def afterBlock (run : ClientRun) (thr : Nat) (state : IRState)
    (exit : Option Nat) : ClientRun :=
  ⟨run.client.leave thr state, run.exits ++ [exit]⟩

/-- An event without the tool, and the calls of libhb that belong to it. -/
def step (run : ClientRun) : RunEvent env ω → ClientRun × List ω
  | .block thr bb =>
      let trace := bb.bbIn.observe env host (run.client.enter thr)
      (run.afterBlock thr trace.state trace.exit,
        trace.accesses.map (accessOp thr))
  | .call op => (run, [op])

def steps (run : ClientRun) : List (RunEvent env ω) → ClientRun × List ω
  | [] => (run, [])
  | event :: rest =>
      let (run, ops) := run.step host accessOp event
      let (last, more) := run.steps rest
      (last, ops ++ more)

/-- An event under the tool. -/
def toolEvent (s : ClientRun × δ) :
    RunEvent env ω → Except ε (ClientRun × δ)
  | .block thr bb => do
      let ((state, exit), det) ←
        runTool (fun det access => perform det (accessOp thr access)) env host
          bb.bbOut.tyenv (s.1.client.enter thr) s.2 bb.bbOut.stmts
      pure (s.1.afterBlock thr state exit, det)
  | .call op => do
      let det ← perform s.2 op
      pure (s.1, det)

variable {host perform accessOp}

theorem toolEvent_eq (run : ClientRun) (det : δ) (event : RunEvent env ω) :
    toolEvent host perform accessOp (run, det) event =
      (run.step host accessOp event).2.foldlM perform det >>= fun det =>
        pure ((run.step host accessOp event).1, det) := by
  cases event with
  | block thr bb =>
      simp only [toolEvent, step]
      rw [hgInstrument_runs bb.own bb.done, List.foldlM_map]
      simp only [Trace.detected, bind_assoc, pure_bind]
  | call op =>
      simp only [toolEvent, step, List.foldlM_cons, List.foldlM_nil,
        bind_pure]

private theorem toolEvents_eq (run : ClientRun) (det : δ)
    (events : List (RunEvent env ω)) :
    events.foldlM (toolEvent host perform accessOp) (run, det) =
      (run.steps host accessOp events).2.foldlM perform det >>= fun det =>
        pure ((run.steps host accessOp events).1, det) := by
  induction events generalizing run det with
  | nil => rfl
  | cons event rest induction =>
      rw [List.foldlM_cons, toolEvent_eq]
      simp only [steps, bind_assoc, pure_bind, induction,
        List.foldlM_append]

end ClientRun

/-- The helpers from `evh__mem_help_read_1` to
`evh__mem_help_atomic_write_N`.  Whether an access is atomic does not matter
in this build. -/
def Access.op (thr : Nat) (access : Access) : MachineOp :=
  match access.szB with
  | 1 => .apply access.isStore .w8 thr access.addr
  | 2 => .apply access.isStore .w16 thr access.addr
  | 4 => .apply access.isStore .w32 thr access.addr
  | 8 => .apply access.isStore .w64 thr access.addr
  | szB =>
      if access.isStore then .writeN thr access.addr szB
      else .readN thr access.addr szB

/-- What libhb is told of a cell: that it was loaded from, or stored to.  The
range that `LIBHB_WRITE_N` is called for is handed over as one that was loaded
from, like that of `LIBHB_READ_N`. -/
def Reports (isStore : Bool) (cell : Nat) : MachineOp → Prop
  | .apply isWrite width _ a =>
      isWrite = isStore ∧ a ≤ cell ∧ cell < a + width.bytes
  | .readN _ a n | .writeN _ a n =>
      isStore = false ∧ a ≤ cell ∧ cell < a + n
  | _ => False

/-- The call is `LIBHB_WRITE_N` for a range with the cell. -/
def InRangeWrite (cell : Nat) : MachineOp → Prop
  | .writeN _ a n => a ≤ cell ∧ cell < a + n
  | _ => False

private theorem reports_of_store {access : Access} {cell : Nat} (thr : Nat)
    (isStore : access.isStore = true) (covers : access.Covers cell) :
    Reports true cell (access.op thr) ∨
      InRangeWrite cell (access.op thr) := by
  obtain ⟨isWrite, isAtomic, addr, szB⟩ := access
  cases isStore
  unfold Access.op
  dsimp only
  split
  · exact .inl ⟨rfl, covers⟩
  · exact .inl ⟨rfl, covers⟩
  · exact .inl ⟨rfl, covers⟩
  · exact .inl ⟨rfl, covers⟩
  · exact .inr covers

private theorem reports_of_load {access : Access} {cell : Nat} (thr : Nat)
    (isLoad : access.isStore = false) (covers : access.Covers cell) :
    Reports false cell (access.op thr) ∧
      ¬ InRangeWrite cell (access.op thr) := by
  obtain ⟨isWrite, isAtomic, addr, szB⟩ := access
  cases isLoad
  unfold Access.op
  dsimp only
  split
  · exact ⟨⟨rfl, covers⟩, id⟩
  · exact ⟨⟨rfl, covers⟩, id⟩
  · exact ⟨⟨rfl, covers⟩, id⟩
  · exact ⟨⟨rfl, covers⟩, id⟩
  · exact ⟨⟨rfl, covers⟩, id⟩

namespace ClientRun

variable {env : InstrumentEnv} {host : Host} {run : ClientRun}
  {events : List (RunEvent env MachineOp)}

/-- Every cell of the client that has changed was reported as stored to, or
lies in a range that `LIBHB_WRITE_N` was called for. -/
theorem changes_are_reported (declares : host.Declares env)
    (quiet : Quiet events) {cell : Nat}
    (changed : (run.steps host Access.op events).1.client.memory cell ≠
      run.client.memory cell) :
    ∃ op ∈ (run.steps host Access.op events).2,
      Reports true cell op ∨ InRangeWrite cell op := by
  induction events generalizing run with
  | nil => exact absurd rfl changed
  | cons event rest induction =>
      by_cases later :
          (((run.step host Access.op event).1.steps host Access.op
            rest).1.client.memory cell) =
          (run.step host Access.op event).1.client.memory cell
      · have first : (run.step host Access.op event).1.client.memory cell ≠
            run.client.memory cell := by
          rw [← later]
          exact changed
        cases event with
        | block thr bb =>
            obtain ⟨access, isIn, isStore, covers⟩ :=
              observe_changes declares (fun _ => quiet.head) first
            exact ⟨access.op thr,
              List.mem_append_left _ (List.mem_map_of_mem isIn),
              reports_of_store thr isStore covers⟩
        | call op => exact absurd rfl first
      · obtain ⟨op, isIn, reports⟩ := induction quiet.tail later
        exact ⟨op, List.mem_append_right _ isIn, reports⟩

/-- Two clients that have loaded the same. -/
structure Alike (start start' run run' : ClientRun) : Prop where
  exits : run.exits = run'.exits
  guests : run.client.guests = run'.client.guests
  memory : ∀ cell, run.client.memory cell = run'.client.memory cell ∨
    (run.client.memory cell = start.client.memory cell ∧
      run'.client.memory cell = start'.client.memory cell)

theorem steps_alike (declares : host.Declares env) (quiet : Quiet events)
    {start start' run' : ClientRun} (alike : Alike start start' run run')
    (loads : ∀ op ∈ (run.steps host Access.op events).2, ∀ cell,
      Reports false cell op → ¬ InRangeWrite cell op →
        start.client.memory cell = start'.client.memory cell) :
    (run'.steps host Access.op events).2 =
        (run.steps host Access.op events).2 ∧
      Alike start start' (run.steps host Access.op events).1
        (run'.steps host Access.op events).1 := by
  induction events generalizing run run' with
  | nil => exact ⟨rfl, alike⟩
  | cons event rest induction =>
      have step : (run'.step host Access.op event).2 =
            (run.step host Access.op event).2 ∧
          Alike start start' (run.step host Access.op event).1
            (run'.step host Access.op event).1 := by
        cases event with
        | block thr bb =>
            have kept : Dependency.Alike (start.client.enter thr)
                (start'.client.enter thr) (run.client.enter thr)
                (run'.client.enter thr) :=
              ⟨rfl, congrFun alike.guests thr, alike.memory⟩
            have same := observe_alike declares (fun _ => quiet.head) kept
              fun access isIn isLoad cell covers =>
                have reports := reports_of_load thr isLoad covers
                loads (access.op thr)
                  (List.mem_append_left _ (List.mem_map_of_mem isIn)) cell
                  reports.1 reports.2
            refine ⟨congrArg (List.map (Access.op thr)) same.accesses.symm,
              ?_, ?_, same.alike.tracks⟩
            · exact congrArg₂ (fun exits exit => exits ++ [exit])
                alike.exits same.exit
            · exact congrArg₂ (Function.update · thr ·) alike.guests
                same.alike.guest
        | call op => exact ⟨rfl, alike⟩
      obtain ⟨sameOps, alike'⟩ := step
      obtain ⟨sameLater, later⟩ := induction quiet.tail alike' fun op isIn =>
        loads op (List.mem_append_right _ isIn)
      exact ⟨congrArg₂ (· ++ ·) sameOps sameLater, later⟩

/-- The tool does to the client what happens without it, and to its own state
what the accesses of the client and the calls of libhb do. -/
theorem tool_runs_client (root : Nat) (client : Client)
    (events : List (RunEvent env MachineOp)) :
    (Machine.init root >>= fun m =>
      events.foldlM (toolEvent host Machine.perform Access.op)
        (⟨client, []⟩, m)) =
    (Machine.run root
      ((⟨client, []⟩ : ClientRun).steps host Access.op events).2 >>= fun m =>
        pure (((⟨client, []⟩ : ClientRun).steps host Access.op events).1,
          m)) := by
  unfold Machine.run
  rw [bind_assoc]
  congr 1
  funext m
  exact toolEvents_eq ⟨client, []⟩ m events

/-- What the client does depends only on the cells of its memory that were
reported as loaded from, and not on those that were only reported so for a
range that is stored to. -/
theorem only_reported_loads (declares : host.Declares env)
    (quiet : Quiet events) {client client' : Client}
    (guests : client.guests = client'.guests)
    (loads : ∀ op ∈ ((⟨client, []⟩ : ClientRun).steps host Access.op
      events).2, ∀ cell, Reports false cell op → ¬ InRangeWrite cell op →
        client.memory cell = client'.memory cell) :
    ((⟨client', []⟩ : ClientRun).steps host Access.op events).2 =
        ((⟨client, []⟩ : ClientRun).steps host Access.op events).2 ∧
      Alike ⟨client, []⟩ ⟨client', []⟩
        ((⟨client, []⟩ : ClientRun).steps host Access.op events).1
        ((⟨client', []⟩ : ClientRun).steps host Access.op events).1 :=
  steps_alike declares quiet ⟨rfl, guests, fun _ => .inr ⟨rfl, rfl⟩⟩ loads

def widthAt : Nat → Option HelpWidth
  | 0 => some .one
  | 1 => some .two
  | 2 => some .four
  | 3 => some .eight
  | 4 => some .n
  | _ => none

/-- The helpers are numbered. -/
def numbered : InstrumentEnv where
  gWordTy := .I64
  hWordTy := .I64
  effect _ := ⟨.none, 0⟩
  entry help :=
    (if help.isStore then 1 else 0) + (if help.isAtomic then 2 else 0) +
      match help.width with
      | .one => 0
      | .two => 4
      | .four => 8
      | .eight => 12
      | .n => 16
  helperAt cee :=
    (widthAt (cee / 4)).map fun width =>
      ⟨decide (cee % 2 = 1), decide (cee / 2 % 2 = 1), width⟩
  helperAt_entry help := by
    obtain ⟨isStore, isAtomic, width⟩ := help
    cases isStore <;> cases isAtomic <;> cases width <;> rfl

private theorem bareHost_declares : bareHost.Declares numbered where
  changes changed := absurd rfl changed
  depends temps guest _ := ⟨temps, guest, fun _ => .inr ⟨rfl, rfl⟩⟩

/-- The cell at 64 is loaded, and its value stored at 72 with the bus
locked. -/
def copying : IRSB where
  tyenv := [.I32]
  stmts := [.noOp, .iMark 100 4, .wrTmp 0 (.load .LE .I32 (.const (.U64 64))),
    .iMark 104 3, .mbe .busLock, .store .LE (.const (.U64 72)) (.rdTmp 0),
    .mbe .busUnlock, .exit (.rdTmp 0)]

def copyingOut : IRSB where
  tyenv := [.I32]
  stmts := [.noOp, .iMark 100 4, unsafeIRDirty0N 8 [.const (.U64 64)],
    .wrTmp 0 (.load .LE .I32 (.const (.U64 64))), .iMark 104 3, .mbe .busLock,
    unsafeIRDirty0N 11 [.const (.U64 72)],
    .store .LE (.const (.U64 72)) (.rdTmp 0), .mbe .busUnlock,
    .exit (.rdTmp 0)]

private theorem copying_own : OwnCalls numbered copying.stmts := by
  intro details isIn
  simp [copying] at isIn

def copyingBlock : Instrumented numbered where
  bbIn := copying
  bbOut := copyingOut
  done := rfl
  own := copying_own

/-- A thread copies a number, and another one copies it again. -/
def copiedTwice : List (RunEvent numbered MachineOp) :=
  [.block 1 copyingBlock, .call (.hb (.sync (.create 1 2))),
    .block 2 copyingBlock]

private theorem copiedTwice_quiet : Quiet copiedTwice := by
  intro thr bb isIn
  simp only [copiedTwice, List.mem_cons, List.not_mem_nil, or_false] at isIn
  obtain same | same | same := isIn <;> cases same <;> decide

/-- A client whose memory holds a number at 64, and another one at 80. -/
def holding (value other : UInt8) : Client where
  guests _ _ := 0
  memory cell := if cell = 64 then value else if cell = 80 then other else 0

theorem changes_are_reported_copied :
    ((⟨holding 7 0, []⟩ : ClientRun).steps bareHost Access.op
      copiedTwice).1.client.memory 72 ≠ (holding 7 0).memory 72 ∧
    ∃ op ∈ ((⟨holding 7 0, []⟩ : ClientRun).steps bareHost Access.op
      copiedTwice).2, Reports true 72 op ∨ InRangeWrite 72 op := by
  have changed : ((⟨holding 7 0, []⟩ : ClientRun).steps bareHost Access.op
      copiedTwice).1.client.memory 72 ≠ (holding 7 0).memory 72 := by
    decide +kernel
  exact ⟨changed, changes_are_reported bareHost_declares copiedTwice_quiet
    changed⟩

/-- The number at 80 does not matter. -/
theorem only_reported_loads_copied :
    ((⟨holding 7 9, []⟩ : ClientRun).steps bareHost Access.op copiedTwice).2 =
        ((⟨holding 7 0, []⟩ : ClientRun).steps bareHost Access.op
          copiedTwice).2 ∧
      Alike ⟨holding 7 0, []⟩ ⟨holding 7 9, []⟩
        ((⟨holding 7 0, []⟩ : ClientRun).steps bareHost Access.op
          copiedTwice).1
        ((⟨holding 7 9, []⟩ : ClientRun).steps bareHost Access.op
          copiedTwice).1 := by
  have ops : ((⟨holding 7 0, []⟩ : ClientRun).steps bareHost Access.op
      copiedTwice).2 =
      [.apply false .w32 1 64, .apply true .w32 1 72,
        .hb (.sync (.create 1 2)), .apply false .w32 2 64,
        .apply true .w32 2 72] := by
    decide +kernel
  have guests : (holding 7 0).guests = (holding 7 9).guests := rfl
  refine only_reported_loads bareHost_declares copiedTwice_quiet guests ?_
  rw [ops]
  intro op isIn cell reports _
  have near : 64 ≤ cell ∧ cell < 68 := by
    simp only [List.mem_cons, List.not_mem_nil, or_false] at isIn
    obtain same | same | same | same | same := isIn <;> cases same
    · exact ⟨reports.2.1, reports.2.2⟩
    · cases reports.1
    · cases reports
    · exact ⟨reports.2.1, reports.2.2⟩
    · cases reports.1
  have apart : cell ≠ 80 := by omega
  simp [holding, apart]

end ClientRun

end Dependency

end HelgrindPlus
