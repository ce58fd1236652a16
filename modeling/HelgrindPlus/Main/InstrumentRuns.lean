import HelgrindPlus.Main.Instrument

/-!
# Runs of instrumented blocks

An instrumented block does to the client what the block does, and hands every
memory access to the detector right before it is made.  No change of memory
goes unreported, and nothing that the client does depends on memory that it is
not reported to have read.
-/

namespace HelgrindPlus

namespace Dependency

open Outcome Bytes

/-- A memory access of the client. -/
structure Access where
  isStore : Bool
  isAtomic : Bool
  addr : Nat
  szB : Nat
  deriving DecidableEq, Repr

def Access.Covers (access : Access) (cell : Nat) : Prop :=
  access.addr ≤ cell ∧ cell < access.addr + access.szB

def exitTaken (state : IRState) : IRStmt → Bool
  | .exit guard => decide (guard.eval state ≠ 0)
  | _ => false

/-- Exits are told apart by the number of those that are left. -/
def exitsLeft (stmts : List IRStmt) : Nat :=
  stmts.countP fun
    | .exit _ => true
    | _ => false

/-- An access whose address is not evaluated yet. -/
structure MemRef where
  isStore : Bool
  isAtomic : Bool
  addr : IRAtom
  szB : Nat
  deriving DecidableEq, Repr

def MemRef.access (ref : MemRef) (state : IRState) : Access :=
  ⟨ref.isStore, ref.isAtomic, ref.addr.eval state, ref.szB⟩

/-- Where in a block a statement is: behind the first instruction mark or not,
with the bus locked or not, and inside a snooped store or not. -/
structure Place where
  started : Bool
  busLocked : Bool
  snooped : Bool
  deriving DecidableEq, Repr

namespace Place

def isAtomic (place : Place) : Bool := place.busLocked || place.snooped

def next (place : Place) (st : IRStmt) : Place :=
  if place.started then
    match st with
    | .mbe .busLock => { place with busLocked := true }
    | .mbe .busUnlock => { place with busLocked := false }
    | .mbe .snoopedStoreBegin => { place with snooped := true }
    | .mbe .snoopedStoreEnd => { place with snooped := false }
    | _ => place
  else { place with started := st.isIMark }

end Place

section Observing

variable (env : InstrumentEnv) (tyenv : List IRType)

/-- The accesses that a statement makes. -/
def memRefs (place : Place) : IRStmt → List MemRef
  | .store _ addr data => [⟨true, place.isAtomic, addr, data.bytes tyenv⟩]
  | .wrTmp _ (.load _ ty addr) => [⟨false, place.isAtomic, addr, ty.bytes⟩]
  | .dirty details =>
      let effect := env.effect details
      match details.mAddr with
      | none => []
      | some mAddr =>
          (if effect.mFx.reads then [⟨false, false, mAddr, effect.mSize⟩]
            else []) ++
          (if effect.mFx.writes then [⟨true, false, mAddr, effect.mSize⟩]
            else [])
  | _ => []

structure Trace where
  state : IRState
  accesses : List Access
  exit : Option Nat

variable (host : Host)

/-- A run of the block, to the first exit that is taken, with the accesses
that are made behind the first instruction mark. -/
def observe : Place → IRState → List IRStmt → Trace
  | _, state, [] => ⟨state, [], none⟩
  | place, state, st :: rest =>
      if exitTaken state st then ⟨state, [], some (exitsLeft rest)⟩
      else
        let trace :=
          observe (place.next st) (exec host tyenv state st) rest
        if place.started then
          { trace with
            accesses := (memRefs env tyenv place st).map (·.access state) ++
              trace.accesses }
        else trace

def IRSB.observe (state : IRState) (bb : IRSB) : Trace :=
  Dependency.observe env bb.tyenv host ⟨false, false, false⟩ state bb.stmts

end Observing

def MemHelp.access (help : MemHelp) (state : IRState) : List IRAtom → Access
  | [] => ⟨help.isStore, help.isAtomic, 0, 0⟩
  | addr :: args =>
      ⟨help.isStore, help.isAtomic, addr.eval state,
        match help.width, args with
        | .one, _ => 1
        | .two, _ => 2
        | .four, _ => 4
        | .eight, _ => 8
        | .n, size :: _ => size.eval state
        | .n, [] => 0⟩

section Running

variable {δ ε : Type} (detect : δ → Access → Except ε δ)
  (env : InstrumentEnv) (host : Host) (tyenv : List IRType)

/-- A helper leaves the client alone, and calls the detector. -/
def toolStep (state : IRState) (det : δ) : IRStmt → Except ε (IRState × δ)
  | .dirty details =>
      match env.helperAt details.cee with
      | some help => do
          let det ← detect det (help.access state details.args)
          pure (state, det)
      | none => pure (host.dirty details state, det)
  | st => pure (exec host tyenv state st, det)

def runTool (state : IRState) (det : δ) :
    List IRStmt → Except ε ((IRState × Option Nat) × δ)
  | [] => pure ((state, none), det)
  | st :: rest =>
      if exitTaken state st then pure ((state, some (exitsLeft rest)), det)
      else do
        let (state, det) ← toolStep detect env host tyenv state det st
        runTool state det rest

end Running

/-- The call that the pass makes for an access. -/
def MemRef.call (env : InstrumentEnv) (ref : MemRef) : IRStmt :=
  let call := fun width args =>
    unsafeIRDirty0N (env.entry ⟨ref.isStore, ref.isAtomic, width⟩) args
  match ref.szB with
  | 1 => call .one [ref.addr]
  | 2 => call .two [ref.addr]
  | 4 => call .four [ref.addr]
  | 8 => call .eight [ref.addr]
  | szB => call .n [ref.addr, mkIRExprHWord env.hWordTy szB]

/-- A size that the helpers can be told. -/
def MemRef.Sized (ref : MemRef) : Prop :=
  ref.szB = 1 ∨ ref.szB = 2 ∨ ref.szB = 4 ∨ ref.szB = 8 ∨
    (8 < ref.szB ∧ ref.szB ≤ 512)

namespace Instr

def place (instr : Instr) : Place :=
  ⟨true, instr.x86busLocked, instr.isSnoopedStore⟩

variable {env : InstrumentEnv} {tyenv : List IRType} {instr instr' : Instr}

private theorem instrumentMemAccess_eq_ok {addr : IRAtom} {szB : Nat}
    {isStore isAtomic : Bool}
    (done : instr.instrumentMemAccess env tyenv addr szB isStore isAtomic =
      .ok instr') :
    MemRef.Sized ⟨isStore, isAtomic, addr, szB⟩ ∧
      instr' = instr.addStmt
        (MemRef.call env ⟨isStore, isAtomic, addr, szB⟩) := by
  obtain ⟨hWordTySzB, -, done⟩ := bind_eq_ok.mp done
  obtain ⟨_, -, done⟩ := bind_eq_ok.mp done
  obtain ⟨tyAddr, -, done⟩ := bind_eq_ok.mp done
  obtain ⟨_, -, done⟩ := bind_eq_ok.mp done
  dsimp only at done
  split at done
  · cases done
    exact ⟨.inl rfl, rfl⟩
  · cases done
    exact ⟨.inr (.inl rfl), rfl⟩
  · cases done
    exact ⟨.inr (.inr (.inl rfl)), rfl⟩
  · cases done
    exact ⟨.inr (.inr (.inr (.inl rfl))), rfl⟩
  · obtain ⟨_, sane, same⟩ := bind_eq_ok.mp done
    cases same
    refine ⟨.inr (.inr (.inr (.inr (tlAssert_eq_ok.mp sane)))), ?_⟩
    unfold MemRef.call
    simp only

/-- What the switch adds to the block and does to its variables. -/
structure AddsRefs (env : InstrumentEnv) (instr instr' : Instr)
    (refs : List MemRef) : Prop where
  sized : ∀ ref ∈ refs, ref.Sized
  same : instr' = { instr with
    bbOut := instr.bbOut ++ refs.map (·.call env) }

theorem AddsRefs.nil : AddsRefs env instr instr [] where
  sized := by simp
  same := by simp

theorem AddsRefs.one {addr : IRAtom} {szB : Nat} {isStore isAtomic : Bool}
    (done : instr.instrumentMemAccess env tyenv addr szB isStore isAtomic =
      .ok instr') :
    AddsRefs env instr instr' [⟨isStore, isAtomic, addr, szB⟩] where
  sized := by
    intro other isIn
    rw [List.mem_singleton.mp isIn]
    exact (instrumentMemAccess_eq_ok done).1
  same := (instrumentMemAccess_eq_ok done).2

theorem AddsRefs.append {instr'' : Instr} {refs refs' : List MemRef}
    (first : AddsRefs env instr instr' refs)
    (second : AddsRefs env instr' instr'' refs') :
    AddsRefs env instr instr'' (refs ++ refs') where
  sized := by
    intro ref isIn
    obtain isIn | isIn := List.mem_append.mp isIn
    · exact first.sized ref isIn
    · exact second.sized ref isIn
  same := by
    rw [second.same, first.same]
    simp

theorem AddsRefs.ite {has : Bool} {addr : IRAtom} {szB : Nat} {isStore : Bool}
    (done : instr.instrumentIf env tyenv has addr szB isStore = .ok instr') :
    AddsRefs env instr instr'
      (if has then [⟨isStore, false, addr, szB⟩] else []) := by
  unfold instrumentIf at done
  split at done
  · rename_i holds
    rw [if_pos holds]
    exact .one done
  · rename_i fails
    cases done
    rw [if_neg fails]
    exact .nil

theorem memRefs_dirty {details : IRDirty} {mAddr : IRAtom} (place : Place)
    (isAddr : details.mAddr = some mAddr) :
    memRefs env tyenv place (.dirty details) =
      (if (env.effect details).mFx.reads then
        [⟨false, false, mAddr, (env.effect details).mSize⟩] else []) ++
      (if (env.effect details).mFx.writes then
        [⟨true, false, mAddr, (env.effect details).mSize⟩] else []) := by
  simp only [memRefs, isAddr]

private theorem memRefs_dirty_none {details : IRDirty} (place : Place)
    (noAddr : details.mAddr = none) :
    memRefs env tyenv place (.dirty details) = [] := by
  simp only [memRefs, noAddr]

private theorem instrumentDirty_eq_ok {details : IRDirty}
    (done : instr.instrumentDirty env tyenv details = .ok instr') :
    AddsRefs env instr instr'
      (memRefs env tyenv instr.place (.dirty details)) := by
  simp only [instrumentDirty] at done
  by_cases hasEffect : (env.effect details).mFx ≠ .none
  · rw [if_pos hasEffect] at done
    cases isAddr : details.mAddr with
    | none =>
        rw [isAddr] at done
        cases done
    | some mAddr =>
        rw [isAddr] at done
        obtain ⟨_, -, done⟩ := bind_eq_ok.mp done
        obtain ⟨instr₁, reads, writes⟩ := bind_eq_ok.mp done
        rw [memRefs_dirty _ isAddr]
        exact (AddsRefs.ite reads).append (.ite writes)
  · rw [if_neg hasEffect] at done
    obtain ⟨_, noAddr, done⟩ := bind_eq_ok.mp done
    obtain ⟨_, -, same⟩ := bind_eq_ok.mp done
    cases same
    rw [memRefs_dirty_none _ (tlAssert_eq_ok.mp noAddr)]
    exact .nil

private theorem bytes_eq {atom : IRAtom} {ty : IRType} {szB : Nat}
    (typed : typeOfIRAtom tyenv atom = .ok ty)
    (sized : sizeofIRType ty = .ok szB) : szB = atom.bytes tyenv := by
  unfold IRAtom.bytes
  rw [typed]
  exact sizeofIRType_eq_ok sized

/-- What the switch does: the calls, and the flags about the bus. -/
theorem instrumentRefs_eq_ok {st : IRStmt}
    (done : instr.instrumentRefs env tyenv st = .ok instr') :
    (∀ ref ∈ memRefs env tyenv instr.place st, ref.Sized) ∧
      instr'.bbOut = instr.bbOut ++
        (memRefs env tyenv instr.place st).map (·.call env) ∧
      instr'.place = instr.place.next st := by
  have adds : ∀ {refs}, AddsRefs env instr instr' refs →
      (∀ ref ∈ refs, ref.Sized) ∧
        instr'.bbOut = instr.bbOut ++ refs.map (·.call env) ∧
        instr'.place = instr.place := by
    intro refs adds
    refine ⟨adds.sized, ?_, ?_⟩
    · rw [adds.same]
    · rw [adds.same]
      rfl
  cases st with
  | noOp | abiHint base len nia | put offset data | putI descr ix bias data
  | iMark addr len | exit guard | comment =>
      cases done
      exact adds .nil
  | store endness addr data =>
      obtain ⟨ty, typed, done⟩ := bind_eq_ok.mp done
      obtain ⟨szB, sized, done⟩ := bind_eq_ok.mp done
      have added := adds (.one done)
      rw [bytes_eq typed sized] at added
      exact added
  | wrTmp tmp data =>
      cases data with
      | load endness ty addr =>
          obtain ⟨szB, sized, done⟩ := bind_eq_ok.mp done
          have added := adds (.one done)
          rw [sizeofIRType_eq_ok sized] at added
          exact added
      | _ =>
          cases done
          exact adds .nil
  | dirty details => exact adds (instrumentDirty_eq_ok done)
  | mbe event =>
      have none : memRefs env tyenv instr.place (.mbe event) = [] := rfl
      rw [none]
      refine ⟨by simp, ?_⟩
      cases event with
      | fence =>
          cases done
          simp [place, Place.next]
      | busLock | busUnlock | snoopedStoreBegin | snoopedStoreEnd =>
          obtain ⟨_, -, same⟩ := bind_eq_ok.mp done
          cases same
          simp [place, Place.next]

private theorem instrumentStmt_eq_ok {st : IRStmt}
    (done : instr.instrumentStmt env tyenv st = .ok instr') :
    (∀ ref ∈ memRefs env tyenv instr.place st, ref.Sized) ∧
      instr'.bbOut = instr.bbOut ++
        ((memRefs env tyenv instr.place st).map (·.call env) ++ [st]) ∧
      instr'.place = instr.place.next st := by
  obtain ⟨instr₁, refs, done⟩ := bind_eq_ok.mp done
  obtain ⟨instr₂, marked, same⟩ := bind_eq_ok.mp done
  obtain ⟨sized, calls, isNext⟩ := instrumentRefs_eq_ok refs
  have kept : instr₂.bbOut = instr₁.bbOut ∧ instr₂.place = instr₁.place := by
    unfold lsdStatement at marked
    split at marked
    · cases marked
      exact ⟨rfl, rfl⟩
    · obtain ⟨_, -, marked⟩ := bind_eq_ok.mp marked
      obtain ⟨_, -, same⟩ := bind_eq_ok.mp marked
      cases same
      exact ⟨rfl, rfl⟩
    · cases marked
      exact ⟨rfl, rfl⟩
  cases same
  refine ⟨sized, ?_, kept.2.trans isNext⟩
  change instr₂.bbOut ++ [st] = _
  rw [kept.1, calls, List.append_assoc]

end Instr

section Runs

variable {δ ε : Type} {detect : δ → Access → Except ε δ}
  {env : InstrumentEnv} {host : Host} {tyenv : List IRType}

theorem eval_mkIRExprHWord {szB : Nat} (small : szB ≤ 512) (hWordTy : IRType)
    (state : IRState) : (mkIRExprHWord hWordTy szB).eval state = szB := by
  have below32 : szB % 2 ^ 32 = szB := Nat.mod_eq_of_lt (by omega)
  have below64 : szB % 2 ^ 64 = szB := Nat.mod_eq_of_lt (by omega)
  unfold mkIRExprHWord
  split
  · exact UInt32.toNat_ofNat'.trans below32
  · exact UInt64.toNat_ofNat'.trans below64

theorem toolStep_dirty {cee : Nat} {help : MemHelp} {args : List IRAtom}
    (isHelper : env.helperAt cee = some help) (state : IRState) (det : δ) :
    toolStep detect env host tyenv state det (unsafeIRDirty0N cee args) =
      (do let det ← detect det (help.access state args); pure (state, det)) := by
  unfold unsafeIRDirty0N toolStep
  dsimp only
  rw [isHelper]

/-- A call hands the access over for which it was made. -/
theorem toolStep_call {ref : MemRef} (sized : ref.Sized) (state : IRState)
    (det : δ) : toolStep detect env host tyenv state det (ref.call env) =
      (do let det ← detect det (ref.access state); pure (state, det)) := by
  obtain ⟨isStore, isAtomic, addr, szB⟩ := ref
  obtain is1 | is2 | is4 | is8 | ⟨large, small⟩ := sized
  · cases is1
    exact toolStep_dirty (env.helperAt_entry _) state det
  · cases is2
    exact toolStep_dirty (env.helperAt_entry _) state det
  · cases is4
    exact toolStep_dirty (env.helperAt_entry _) state det
  · cases is8
    exact toolStep_dirty (env.helperAt_entry _) state det
  · dsimp only at large small
    have isCall : MemRef.call env ⟨isStore, isAtomic, addr, szB⟩ =
        unsafeIRDirty0N (env.entry ⟨isStore, isAtomic, .n⟩)
          [addr, mkIRExprHWord env.hWordTy szB] := by
      unfold MemRef.call
      dsimp only
      split <;> first | rfl | omega
    rw [isCall, toolStep_dirty (env.helperAt_entry _)]
    simp only [MemHelp.access, eval_mkIRExprHWord small, MemRef.access]

private theorem call_isDirty (env : InstrumentEnv) (ref : MemRef) :
    ∃ details, ref.call env = .dirty details := by
  unfold MemRef.call
  dsimp only
  split <;> exact ⟨_, rfl⟩

private theorem exitTaken_call (ref : MemRef) (state : IRState) :
    exitTaken state (ref.call env) = false := by
  obtain ⟨details, isDirty⟩ := call_isDirty env ref
  rw [isDirty]
  rfl

private theorem exitsLeft_calls (refs : List MemRef) (rest : List IRStmt) :
    exitsLeft (refs.map (·.call env) ++ rest) = exitsLeft rest := by
  induction refs with
  | nil => rfl
  | cons ref refs induction =>
      obtain ⟨details, isDirty⟩ := call_isDirty env ref
      rw [List.map_cons, isDirty]
      exact induction

theorem runTool_calls {refs : List MemRef} (sized : ∀ ref ∈ refs, ref.Sized)
    (rest : List IRStmt) (state : IRState) (det : δ) :
    runTool detect env host tyenv state det
      (refs.map (·.call env) ++ rest) =
    (refs.map (·.access state)).foldlM detect det >>= fun det =>
      runTool detect env host tyenv state det rest := by
  induction refs generalizing det with
  | nil => rfl
  | cons ref refs induction =>
      rw [List.map_cons, List.cons_append, runTool, exitTaken_call,
        toolStep_call (sized ref List.mem_cons_self), List.map_cons,
        List.foldlM_cons]
      simp only [Bool.false_eq_true, if_false, bind_assoc, pure_bind]
      congr 1
      funext det
      exact induction (fun later isIn =>
        sized later (List.mem_cons_of_mem _ isIn)) det

/-- The dirty calls of the client are none of the helpers. -/
def OwnCalls (env : InstrumentEnv) (stmts : List IRStmt) : Prop :=
  ∀ details, .dirty details ∈ stmts → env.helperAt details.cee = none

private theorem toolStep_own {st : IRStmt} (own : OwnCalls env [st])
    (state : IRState) (det : δ) :
    toolStep detect env host tyenv state det st =
      pure (exec host tyenv state st, det) := by
  cases st with
  | dirty details =>
      have isOwn := own details (List.mem_singleton_self _)
      unfold toolStep
      dsimp only
      rw [isOwn]
      rfl
  | _ => rfl

/-- What is left of a run when the detector has seen the accesses. -/
def Trace.detected (detect : δ → Access → Except ε δ) (det : δ)
    (trace : Trace) : Except ε ((IRState × Option Nat) × δ) := do
  let det ← trace.accesses.foldlM detect det
  pure ((trace.state, trace.exit), det)

theorem OwnCalls.head {st : IRStmt} {rest : List IRStmt}
    (own : OwnCalls env (st :: rest)) : OwnCalls env [st] :=
  fun details isIn => own details (List.mem_singleton.mp isIn ▸ .head rest)

theorem OwnCalls.tail {st : IRStmt} {rest : List IRStmt}
    (own : OwnCalls env (st :: rest)) : OwnCalls env rest :=
  fun details isIn => own details (.tail st isIn)

private theorem exitsLeft_cons (st : IRStmt) (rest : List IRStmt) :
    exitsLeft (st :: rest) = exitsLeft [st] + exitsLeft rest := by
  rw [← List.singleton_append, exitsLeft, List.countP_append]
  rfl

/-- An exit makes no access. -/
theorem memRefs_of_taken {place : Place} {st : IRStmt} {state : IRState}
    (taken : exitTaken state st = true) :
    memRefs env tyenv place st = [] := by
  cases st <;> first | rfl | cases taken

/-- One statement of the pass, in front of a rest that is instrumented. -/
theorem runTool_stmt {place : Place} {st : IRStmt} {rest out : List IRStmt}
    (own : OwnCalls env [st]) (started : place.started = true)
    (sized : ∀ ref ∈ memRefs env tyenv place st, ref.Sized)
    (sameExits : exitsLeft out = exitsLeft rest)
    (later : ∀ state det, runTool detect env host tyenv state det out =
      (observe env tyenv host (place.next st) state rest).detected detect det)
    (state : IRState) (det : δ) :
    runTool detect env host tyenv state det
      ((memRefs env tyenv place st).map (·.call env) ++ (st :: out)) =
    (observe env tyenv host place state (st :: rest)).detected detect det := by
  rw [runTool_calls sized]
  unfold runTool observe
  cases taken : exitTaken state st with
  | true =>
      rw [memRefs_of_taken taken]
      simp [sameExits, Trace.detected]
  | false =>
      simp only [toolStep_own own, pure_bind, later, started, if_true,
        Bool.false_eq_true, if_false, Trace.detected, List.foldlM_append,
        bind_assoc]

theorem runTool_instrumented {stmts : List IRStmt} {instr instr' : Instr}
    (own : OwnCalls env stmts)
    (done : stmts.foldlM (Instr.instrumentStmt env tyenv) instr =
      .ok instr') :
    ∃ out, instr'.bbOut = instr.bbOut ++ out ∧
      exitsLeft out = exitsLeft stmts ∧
      ∀ state det, runTool detect env host tyenv state det out =
        (observe env tyenv host instr.place state stmts).detected
          detect det := by
  induction stmts generalizing instr with
  | nil =>
      cases done
      refine ⟨[], (List.append_nil _).symm, rfl, fun state det => ?_⟩
      rfl
  | cons st rest induction =>
      obtain ⟨instr₁, step, done⟩ := bind_eq_ok.mp done
      obtain ⟨sized, added, isNext⟩ := Instr.instrumentStmt_eq_ok step
      obtain ⟨out, isOut, sameExits, later⟩ := induction own.tail done
      rw [isNext] at later
      refine ⟨(memRefs env tyenv instr.place st).map (·.call env) ++
        (st :: out), ?_, ?_, runTool_stmt own.head rfl sized sameExits later⟩
      · rw [isOut, added]
        simp
      · rw [exitsLeft_calls, exitsLeft_cons, sameExits, ← exitsLeft_cons]

/-- The preamble is run as it is. -/
theorem runTool_preamble {stmts out : List IRStmt} (own : OwnCalls env stmts)
    (sameExits : exitsLeft out =
      exitsLeft (stmts.dropWhile fun st => !st.isIMark))
    (later : ∀ state det, runTool detect env host tyenv state det out =
      (observe env tyenv host ⟨true, false, false⟩ state
        (stmts.dropWhile fun st => !st.isIMark)).detected detect det)
    (state : IRState) (det : δ) :
    runTool detect env host tyenv state det
      ((stmts.takeWhile fun st => !st.isIMark) ++ out) =
    (observe env tyenv host ⟨false, false, false⟩ state stmts).detected
      detect det := by
  induction stmts generalizing state with
  | nil => exact later state det
  | cons st rest induction =>
      cases isMark : st.isIMark with
      | true =>
          -- the first mark itself accesses nothing
          have mark : ∃ addr len, st = .iMark addr len := by
            cases st with
            | iMark addr len => exact ⟨addr, len, rfl⟩
            | _ => cases isMark
          obtain ⟨addr, len, same⟩ := mark
          cases same
          exact later state det
      | false =>
          have step : (st :: rest).takeWhile (fun st => !st.isIMark) =
              st :: rest.takeWhile fun st => !st.isIMark := by
            rw [List.takeWhile_cons, isMark]
            rfl
          have drop : (st :: rest).dropWhile (fun st => !st.isIMark) =
              rest.dropWhile fun st => !st.isIMark := by
            rw [List.dropWhile_cons, isMark]
            rfl
          rw [drop] at sameExits later
          rw [step, List.cons_append]
          have split : exitsLeft
              ((rest.takeWhile fun st => !st.isIMark) ++ out) =
              exitsLeft rest := by
            rw [exitsLeft, List.countP_append]
            change exitsLeft _ + exitsLeft out = _
            rw [sameExits]
            unfold exitsLeft
            rw [← List.countP_append, List.takeWhile_append_dropWhile]
          have isNext : Place.next ⟨false, false, false⟩ st =
              ⟨false, false, false⟩ := by
            simp [Place.next, isMark]
          unfold runTool observe
          rw [split, isNext]
          cases taken : exitTaken state st with
          | true => rfl
          | false =>
              simp only [toolStep_own own.head, pure_bind,
                Bool.false_eq_true, if_false]
              exact induction own.tail sameExits later _

theorem hgInstrument_runs {bbIn bbOut : IRSB} (own : OwnCalls env bbIn.stmts)
    (done : hgInstrument env bbIn = .ok bbOut) (state : IRState) (det : δ) :
    runTool detect env host bbOut.tyenv state det bbOut.stmts =
      (bbIn.observe env host state).detected detect det := by
  unfold hgInstrument at done
  split at done
  · cases done
  · obtain ⟨instr, folded, same⟩ := bind_eq_ok.mp done
    cases same
    have ownRest : OwnCalls env
        (bbIn.stmts.dropWhile fun st => !st.isIMark) :=
      fun details isIn => own details (List.dropWhile_subset _ isIn)
    obtain ⟨out, isOut, sameExits, later⟩ :=
      runTool_instrumented ownRest folded
    dsimp only
    rw [isOut]
    exact runTool_preamble own sameExits later state det

end Runs

end Dependency

end HelgrindPlus
