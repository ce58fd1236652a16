import HelgrindPlus.LibHB.VtsTab

/-!
# Spin-reading mode in instrumented code

The part of `hg_instrument` and `hg_loops_instrument_bb` that puts calls of
`start_spin_reading` and `stop_spin_reading` around the instructions that are
spin reads.  The second call stands before the next instruction mark or at the
end of the block, so an exit in between is left with the flag still set.
-/

namespace HelgrindPlus

open Outcome

namespace Loops

inductive IREffect where
  | none | read | write | modify
  deriving DecidableEq, Repr

/-- A statement as the instrumentation sees it.  The statements `noRef` are
those without memory references of the client. -/
inductive Stmt where
  | iMark (addr len : Nat)
  | noRef
  | store
  | wrTmp (isLoad : Bool)
  | dirty (mFx : IREffect)
  | exit
  deriving DecidableEq, Repr

def Stmt.isIMark : Stmt → Bool
  | iMark _ _ => true
  | _ => false

/-- The number of calls of `instrument_mem_access` for the statement. -/
def Stmt.memAccesses : Stmt → Nat
  | store => 1
  | wrTmp isLoad => if isLoad then 1 else 0
  | dirty mFx =>
      match mFx with
      | .none => 0
      | .read | .write => 1
      | .modify => 2
  | iMark _ _ | noRef | exit => 0

/-- A statement of the instrumented block: a call that was put there, or a
statement of the block itself. -/
inductive OutStmt where
  | startSpinReading (sp : Nat)
  | stopSpinReading
  | memHelp
  | stmt (st : Stmt)
  deriving DecidableEq, Repr

/-- The map `map_spinreads`, from the address of an instruction to its spin
property. -/
abbrev SpinReads := Nat → Option Nat

/-- The mode `HgL_Instrument_Statement`, with the value that the variable
`spin_reading` has afterwards. -/
def instrumentStatement (spinreads : SpinReads) (spinReading : Bool) :
    Stmt → List OutStmt × Bool
  | .iMark addr _ =>
      let stop := if spinReading then [.stopSpinReading] else []
      match spinreads addr with
      | some sp => (stop ++ [.startSpinReading sp], true)
      | none => (stop, false)
  | _ => ([], spinReading)

def postInstrumentation (spinReading : Bool) : List OutStmt × Bool :=
  if spinReading then ([.stopSpinReading], false) else ([], spinReading)

/-- The loop of `hg_instrument` that starts at the first instruction mark. -/
def instrumentFrom (spinreads : SpinReads) (spinReading : Bool) :
    List Stmt → List OutStmt × Bool
  | [] => postInstrumentation spinReading
  | st :: rest =>
      let (calls, spinReading) := instrumentStatement spinreads spinReading st
      let (more, spinReading) := instrumentFrom spinreads spinReading rest
      (List.replicate st.memAccesses .memHelp ++
        (calls ++ .stmt st :: more), spinReading)

/-- The statements before the first instruction mark are copied verbatim. -/
def hgInstrument (spinreads : SpinReads) (spinReading : Bool) :
    List Stmt → List OutStmt × Bool
  | [] => postInstrumentation spinReading
  | st :: rest =>
      if st.isIMark then instrumentFrom spinreads spinReading (st :: rest)
      else
        let (more, spinReading) := hgInstrument spinreads spinReading rest
        (.stmt st :: more, spinReading)

/-- An access, with the instruction it belongs to and the value of
`hg_loops__spin_reading` that its handler finds. -/
structure Access where
  iaddr : Option Nat
  treated : Bool
  deriving DecidableEq, Repr

structure Exec where
  spinReading : Bool
  iaddr : Option Nat
  accesses : List Access
  deriving DecidableEq, Repr

/-- The block is left through the first exit whose guard is true, or else
through its end.  The guards of the exits are given in their order. -/
def exec : List OutStmt → List Bool → Exec → Except Abort Exec
  | [], _, e => .ok e
  | .startSpinReading _ :: rest, guards, e => do
      tlAssert (e.spinReading = false)
      exec rest guards { e with spinReading := true }
  | .stopSpinReading :: rest, guards, e => do
      tlAssert (e.spinReading = true)
      exec rest guards { e with spinReading := false }
  | .memHelp :: rest, guards, e =>
      exec rest guards
        { e with accesses := e.accesses ++ [⟨e.iaddr, e.spinReading⟩] }
  | .stmt st :: rest, guards, e =>
      match st, guards with
      | .iMark addr _, guards => exec rest guards { e with iaddr := some addr }
      | .exit, true :: _ => .ok e
      | .exit, guards => exec rest guards.tail e
      | _, guards => exec rest guards e

/-- The block is left through an exit that belongs to a spin read; `inside`
says whether the statements begin in one. -/
def leavesInside (spinreads : SpinReads) (inside : Bool) :
    List Stmt → List Bool → Bool
  | [], _ => false
  | st :: rest, guards =>
      match st, guards with
      | .iMark addr _, guards =>
          leavesInside spinreads (spinreads addr).isSome rest guards
      | .exit, true :: _ => inside
      | .exit, guards => leavesInside spinreads inside rest guards.tail
      | _, guards => leavesInside spinreads inside rest guards

/-- The access is treated as a spin read exactly if its instruction is one. -/
def Access.Right (spinreads : SpinReads) (access : Access) : Prop :=
  access.treated = (access.iaddr.bind spinreads).isSome

/-- A block was left in the mode `left`, with all accesses treated as they
should be. -/
def Exec.LeftIn (spinreads : SpinReads) (left : Bool) (e : Exec) : Prop :=
  e.spinReading = left ∧ ∀ access ∈ e.accesses, access.Right spinreads

section Block

variable {spinreads : SpinReads} {e : Exec}

/-- Between two marks the flag says whether the instruction is a spin read. -/
structure Exec.Between (spinreads : SpinReads) (inside : Bool) (e : Exec) :
    Prop where
  flag : e.spinReading = inside
  place : (e.iaddr.bind spinreads).isSome = inside
  right : ∀ access ∈ e.accesses, access.Right spinreads

theorem Exec.Between.memHelp {inside : Bool}
    (between : e.Between spinreads inside) :
    Exec.Between spinreads inside
      { e with accesses := e.accesses ++ [⟨e.iaddr, e.spinReading⟩] } := by
  refine ⟨between.flag, between.place, fun access member => ?_⟩
  rcases List.mem_append.mp member with older | isNew
  · exact between.right access older
  · rw [List.mem_singleton.mp isNew]
    exact between.flag.trans between.place.symm

private theorem exec_memHelps {inside : Bool} {post : Exec → Prop}
    {rest : List OutStmt} {guards : List Bool}
    (later : ∀ e, e.Between spinreads inside →
      Returns (exec rest guards e) post)
    (count : Nat) (between : e.Between spinreads inside) :
    Returns (exec (List.replicate count .memHelp ++ rest) guards e) post := by
  induction count generalizing e with
  | zero => exact later e between
  | succ count induction => exact induction between.memHelp

/-- The calls before an instruction mark turn the flag to the new instruction,
and no assertion in them fails. -/
theorem exec_iMark {inside : Bool} {addr len : Nat} {rest : List OutStmt}
    {guards : List Bool} (between : e.Between spinreads inside) :
    ∃ e', exec ((instrumentStatement spinreads inside (.iMark addr len)).1 ++
        .stmt (.iMark addr len) :: rest) guards e = exec rest guards e' ∧
      e'.Between spinreads (spinreads addr).isSome := by
  refine ⟨⟨(spinreads addr).isSome, some addr, e.accesses⟩, ?_,
    rfl, rfl, between.right⟩
  have flag := between.flag
  obtain ⟨spinReading, iaddr, accesses⟩ := e
  cases flag
  cases isRead : spinreads addr <;> cases spinReading <;>
    simp only [instrumentStatement, isRead] <;> rfl

/-- A block that is entered with the flag down is left with it up exactly if
it is left inside a spin read. -/
theorem exec_instrumentFrom (inside : Bool) (bbIn : List Stmt)
    (guards : List Bool) (between : e.Between spinreads inside) :
    Returns (exec (instrumentFrom spinreads inside bbIn).1 guards e)
      (Exec.LeftIn spinreads
        (leavesInside spinreads inside bbIn guards)) := by
  induction bbIn generalizing inside guards e with
  | nil =>
      have flag := between.flag
      cases inside with
      | false => exact Returns.ok ⟨flag, between.right⟩
      | true =>
          show Returns (exec [.stopSpinReading] guards e) _
          rw [exec, tlAssert_of flag, ok_bind]
          exact Returns.ok ⟨rfl, between.right⟩
  | cons st rest induction =>
      rw [instrumentFrom]
      apply exec_memHelps _ _ between
      intro e between
      cases st with
      | iMark addr len =>
          have after : (instrumentStatement spinreads inside
              (.iMark addr len)).2 = (spinreads addr).isSome := by
            cases isRead : spinreads addr <;>
              simp only [instrumentStatement, isRead] <;> rfl
          obtain ⟨e', same, between'⟩ := @exec_iMark spinreads e inside addr
            len (instrumentFrom spinreads (spinreads addr).isSome rest).1
            guards between
          rw [after, same]
          exact induction _ _ between'
      | noRef => exact induction _ _ between
      | store => exact induction _ _ between
      | wrTmp isLoad => exact induction _ _ between
      | dirty mFx => exact induction _ _ between
      | exit =>
          match guards with
          | [] => exact induction _ _ between
          | false :: guards => exact induction _ _ between
          | true :: guards =>
              exact Returns.ok ⟨between.flag, between.right⟩

private theorem exec_hgInstrument (bbIn : List Stmt) (guards : List Bool)
    (between : e.Between spinreads false) :
    Returns (exec (hgInstrument spinreads false bbIn).1 guards e)
      (Exec.LeftIn spinreads
        (leavesInside spinreads false bbIn guards)) := by
  induction bbIn generalizing guards e with
  | nil => exact exec_instrumentFrom false [] guards between
  | cons st rest induction =>
      rw [hgInstrument]
      split
      · exact exec_instrumentFrom false (st :: rest) guards between
      · rename_i notMark
        cases st with
        | iMark addr len => exact absurd rfl notMark
        | noRef => exact induction _ between
        | store => exact induction _ between
        | wrTmp isLoad => exact induction _ between
        | dirty mFx => exact induction _ between
        | exit =>
            match guards with
            | [] => exact induction _ between
            | false :: guards => exact induction _ between
            | true :: guards =>
                exact Returns.ok ⟨between.flag, between.right⟩

/-- The variable `spin_reading` of the instrumentation is false between any
two blocks. -/
theorem hgInstrument_snd (bbIn : List Stmt) :
    (hgInstrument spinreads false bbIn).2 = false := by
  have fromMark : ∀ (bbIn : List Stmt) (spinReading : Bool),
      (instrumentFrom spinreads spinReading bbIn).2 = false := by
    intro bbIn
    induction bbIn with
    | nil => intro spinReading; cases spinReading <;> rfl
    | cons st rest induction => intro spinReading; exact induction _
  induction bbIn with
  | nil => rfl
  | cons st rest induction =>
      rw [hgInstrument]
      split
      · exact fromMark _ _
      · exact induction

end Block

/-- A block with the map that it was instrumented with. -/
structure Block where
  spinreads : SpinReads
  bbIn : List Stmt
  bbOut : List OutStmt

/-- An access of a run: whether its instruction was a spin read when the block
was instrumented, and whether it was treated as one. -/
structure Seen where
  isSpinRead : Bool
  treated : Bool
  deriving DecidableEq, Repr

/-- The variable of the instrumentation, the blocks that have been
instrumented, and the flag `hg_loops__spin_reading`. -/
structure System where
  instrumenting : Bool
  blocks : List Block
  spinReading : Bool
  seen : List Seen

/-- A block is instrumented or is run; between two runs there may be any
number of switches of threads. -/
inductive Event where
  | translate (spinreads : SpinReads) (bbIn : List Stmt)
  | execute (n : Nat) (guards : List Bool)

namespace System

def init : System := ⟨false, [], false, []⟩

def translate (s : System) (spinreads : SpinReads) (bbIn : List Stmt) :
    System :=
  let (bbOut, instrumenting) := hgInstrument spinreads s.instrumenting bbIn
  { s with
    instrumenting := instrumenting
    blocks := s.blocks ++ [⟨spinreads, bbIn, bbOut⟩] }

def execute (s : System) (block : Block) (guards : List Bool) :
    Except Abort System := do
  let e ← exec block.bbOut guards ⟨s.spinReading, none, []⟩
  pure { s with
    spinReading := e.spinReading
    seen := s.seen ++ e.accesses.map fun access =>
      ⟨(access.iaddr.bind block.spinreads).isSome, access.treated⟩ }

def step (s : System) : Event → Except Abort System
  | .translate spinreads bbIn => .ok (s.translate spinreads bbIn)
  | .execute n guards =>
      match s.blocks[n]? with
      | none => .ok s
      | some block => s.execute block guards

def run (events : List Event) : Except Abort System :=
  events.foldlM step init

/-- The mode has not leaked: it is off, and no access of another instruction
was treated as one of a spin read. -/
def Contained (s : System) : Prop :=
  s.spinReading = false ∧
    ∀ access ∈ s.seen, access.treated = true → access.isSpinRead = true

end System

/-- The blocks that the events have instrumented. -/
def translated (events : List Event) : List (SpinReads × List Stmt) :=
  events.filterMap fun
    | .translate spinreads bbIn => some (spinreads, bbIn)
    | .execute _ _ => none

/-- The event runs one of the blocks and leaves it inside a spin read. -/
def Event.leaves (blocks : List (SpinReads × List Stmt)) : Event → Bool
  | .translate _ _ => false
  | .execute n guards =>
      match blocks[n]? with
      | none => false
      | some block => leavesInside block.1 false block.2 guards

/-- No block is left through an exit that belongs to a spin read. -/
def StaysOut (events : List Event) : Prop :=
  ∀ (k : Nat) (event : Event), events[k]? = some event →
    event.leaves (translated (events.take k)) = false

section Runs

variable {events : List Event} {s : System}

/-- What holds before each event. -/
structure System.Quiet (s : System) (blocks : List (SpinReads × List Stmt)) :
    Prop where
  instrumenting : s.instrumenting = false
  blocks : s.blocks = blocks.map fun block =>
    ⟨block.1, block.2, (hgInstrument block.1 false block.2).1⟩
  contained : s.Contained

theorem System.Quiet.translate {blocks : List (SpinReads × List Stmt)}
    (quiet : s.Quiet blocks) (spinreads : SpinReads) (bbIn : List Stmt) :
    (s.translate spinreads bbIn).Quiet (blocks ++ [(spinreads, bbIn)]) := by
  unfold System.translate
  rw [quiet.instrumenting]
  refine ⟨hgInstrument_snd bbIn, ?_, quiet.contained⟩
  rw [List.map_append, ← quiet.blocks]
  rfl

/-- After a block the flag says whether it was left inside a spin read. -/
theorem System.Quiet.execute {blocks : List (SpinReads × List Stmt)}
    (quiet : s.Quiet blocks) (spinreads : SpinReads) (bbIn : List Stmt)
    (guards : List Bool) :
    Returns (s.execute
        ⟨spinreads, bbIn, (hgInstrument spinreads false bbIn).1⟩ guards)
      fun after =>
        after.spinReading = leavesInside spinreads false bbIn guards ∧
        (after.spinReading = false → after.Quiet blocks) := by
  have between : Exec.Between spinreads false ⟨s.spinReading, none, []⟩ :=
    ⟨quiet.contained.1, rfl, by nofun⟩
  obtain ⟨e, done, flag, right⟩ := exec_hgInstrument bbIn guards between
  unfold System.execute
  rw [done, ok_bind]
  refine Returns.pure ⟨flag, fun off => ⟨quiet.instrumenting, quiet.blocks,
    off, fun access member treated => ?_⟩⟩
  rcases List.mem_append.mp member with older | isNew
  · exact quiet.contained.2 access older treated
  · obtain ⟨inside, isInside, rfl⟩ := List.mem_map.mp isNew
    exact (right inside isInside).symm.trans treated

theorem System.Quiet.step {blocks : List (SpinReads × List Stmt)}
    (quiet : s.Quiet blocks) (event : Event) :
    Returns (s.step event) fun after =>
      after.spinReading = event.leaves blocks ∧
      (after.spinReading = false →
        after.Quiet (blocks ++ translated [event])) := by
  cases event with
  | translate spinreads bbIn =>
      exact Returns.ok ⟨quiet.contained.1,
        fun _ => quiet.translate spinreads bbIn⟩
  | execute n guards =>
      show Returns _ fun after : System =>
        _ ∧ (_ → after.Quiet (blocks ++ []))
      rw [List.append_nil]
      unfold System.step Event.leaves
      dsimp only
      rw [quiet.blocks, List.getElem?_map]
      cases blocks[n]? with
      | none => exact Returns.ok ⟨quiet.contained.1, fun _ => quiet⟩
      | some block => exact quiet.execute block.1 block.2 guards

private theorem translated_take_succ {k : Nat} {event : Event}
    (atK : events[k]? = some event) :
    translated (events.take (k + 1)) =
      translated (events.take k) ++ translated [event] := by
  rw [List.take_add_one, atK]
  exact List.filterMap_append

/-- One event after a run that has not leaked. -/
theorem run_quiet_succ {k : Nat} {event : Event}
    (atK : events[k]? = some event)
    (quiet : Returns (System.run (events.take k))
      (·.Quiet (translated (events.take k)))) :
    Returns (System.run (events.take (k + 1))) fun after =>
      after.spinReading = event.leaves (translated (events.take k)) ∧
      (after.spinReading = false →
        after.Quiet (translated (events.take (k + 1)))) := by
  obtain ⟨s, reached, quiet⟩ := quiet
  unfold System.run at reached ⊢
  rw [foldlM_take_succ atK, reached, ok_bind, translated_take_succ atK]
  exact quiet.step event

private theorem run_quiet (out : ∀ k event, events[k]? = some event →
      Returns (System.run (events.take k))
        (·.Quiet (translated (events.take k))) →
      event.leaves (translated (events.take k)) = false) (k : Nat) :
    Returns (System.run (events.take k))
      (·.Quiet (translated (events.take k))) := by
  refine take_induction ?_ (fun k event atK induction => ?_) k
  · exact Returns.pure ⟨rfl, rfl, rfl, by nofun⟩
  · apply (run_quiet_succ atK induction).mono
    rintro after ⟨flag, quiet⟩
    exact quiet (flag.trans (out k event atK induction))

/-- Spin-reading mode stays within the spin reads exactly if no block is left
through an exit that belongs to one. -/
theorem spin_reading_contained_iff (events : List Event) :
    (∀ k, Returns (System.run (events.take k)) System.Contained) ↔
      StaysOut events := by
  constructor
  · intro contained
    have out : ∀ k event, events[k]? = some event →
        Returns (System.run (events.take k))
          (·.Quiet (translated (events.take k))) →
        event.leaves (translated (events.take k)) = false := by
      intro k event atK quiet
      obtain ⟨after, reached, flag, -⟩ := run_quiet_succ atK quiet
      have off := ((contained (k + 1)).of_eq_ok reached).1
      exact flag.symm.trans off
    exact fun k event atK => out k event atK (run_quiet out k)
  · intro staysOut k
    apply (run_quiet (fun k event atK _ => staysOut k event atK) k).mono
    exact fun _ quiet => quiet.contained

end Runs

/-- A string instruction that is a spin read and whose exit is taken: the
second time the block is run `start_spin_reading` fails its assertion. -/
def repeated : List Event :=
  [.translate (fun addr => if addr = 0x400000 then some 0 else none)
    [.iMark 0x400000 2, .wrTmp true, .exit, .iMark 0x400002 3, .store],
   .execute 0 [true], .execute 0 [true]]

theorem spin_reading_leaks : ∃ s,
    System.run (repeated.take 2) = .ok s ∧ s.spinReading = true ∧
    System.run repeated = .error .tlAssert ∧
    ¬ ∀ k, Returns (System.run (repeated.take k)) System.Contained := by
  refine ⟨_, rfl, rfl, rfl, fun contained => ?_⟩
  obtain ⟨s, done, -⟩ := contained 3
  cases done

end Loops
end HelgrindPlus
