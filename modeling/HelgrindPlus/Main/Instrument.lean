import HelgrindPlus.Dependency.Irsb

/-!
# Instrumentation of memory accesses

The function `hg_instrument`, which puts a call of a helper before every
statement that accesses memory.  The tool is run with `--cfg=0`, where the hook
of the control-flow pass, `hg_loops_instrument_bb`, returns at once and adds
nothing, and with the detector of lost signals switched off: of its hook,
`hg_lsd_instrument_bb`, the assertions about exits remain.
-/

namespace HelgrindPlus

namespace Dependency

open Outcome

inductive IREffect where
  | none | read | write | modify
  deriving DecidableEq, Repr

def IREffect.reads (effect : IREffect) : Bool :=
  decide (effect = read) || decide (effect = modify)

def IREffect.writes (effect : IREffect) : Bool :=
  decide (effect = write) || decide (effect = modify)

/-- The fields of a dirty call that declare what it does to memory. -/
structure MemEffect where
  mFx : IREffect
  mSize : Nat
  deriving DecidableEq, Repr

inductive HelpWidth where
  | one | two | four | eight | n
  deriving DecidableEq, Repr

/-- The helpers from `evh__mem_help_read_1` to
`evh__mem_help_atomic_write_N`. -/
structure MemHelp where
  isStore : Bool
  isAtomic : Bool
  width : HelpWidth
  deriving DecidableEq, Repr

/-- What the pass is told besides the block: the word sizes of guest and host,
the effects that dirty calls declare, and where the helpers are. -/
structure InstrumentEnv where
  gWordTy : IRType
  hWordTy : IRType
  effect : IRDirty → MemEffect
  entry : MemHelp → Nat
  helperAt : Nat → Option MemHelp
  helperAt_entry : ∀ help, helperAt (entry help) = some help

/-- A call without a result that is always made. -/
def unsafeIRDirty0N (cee : Nat) (args : List IRAtom) : IRStmt :=
  .dirty ⟨cee, .const (.U1 true), args, none, none⟩

def mkIRExprHWord (hWordTy : IRType) (hw : Nat) : IRAtom :=
  match hWordTy with
  | .I32 => .const (.U32 (.ofNat hw))
  | _ => .const (.U64 (.ofNat hw))

/-- The variables of `hg_instrument`, and those of `hg_lsd_instrument_bb` with
the address and the length of the current instruction. -/
structure Instr where
  bbOut : List IRStmt
  x86busLocked : Bool
  isSnoopedStore : Bool
  iaddr : Nat
  ilen : Nat
  deriving DecidableEq, Repr

namespace Instr

def addStmt (instr : Instr) (st : IRStmt) : Instr :=
  { instr with bbOut := instr.bbOut ++ [st] }

variable (env : InstrumentEnv) (tyenv : List IRType)

def instrumentMemAccess (instr : Instr) (addr : IRAtom) (szB : Nat)
    (isStore isAtomic : Bool) : Except Halt Instr := do
  let hWordTySzB ← sizeofIRType env.hWordTy
  tlAssert (hWordTySzB = 4 ∨ hWordTySzB = 8)
  let tyAddr ← typeOfIRAtom tyenv addr
  tlAssert (tyAddr = .I32 ∨ tyAddr = .I64)
  let call := fun width args =>
    unsafeIRDirty0N (env.entry ⟨isStore, isAtomic, width⟩) args
  match szB with
  | 1 => pure (instr.addStmt (call .one [addr]))
  | 2 => pure (instr.addStmt (call .two [addr]))
  | 4 => pure (instr.addStmt (call .four [addr]))
  | 8 => pure (instr.addStmt (call .eight [addr]))
  | szB => do
      tlAssert (szB > 8 ∧ szB ≤ 512)
      pure (instr.addStmt (call .n [addr, mkIRExprHWord env.hWordTy szB]))

def instrumentMBE (instr : Instr) : IRMBusEvent → Except Halt Instr
  | .fence => pure instr
  | .busLock => do
      tlAssert (instr.x86busLocked = false)
      pure { instr with x86busLocked := true }
  | .busUnlock => do
      tlAssert (instr.x86busLocked = true)
      pure { instr with x86busLocked := false }
  | .snoopedStoreBegin => do
      tlAssert (instr.isSnoopedStore = false)
      pure { instr with isSnoopedStore := true }
  | .snoopedStoreEnd => do
      tlAssert (instr.isSnoopedStore = true)
      pure { instr with isSnoopedStore := false }

/-- One half of the effect of a dirty call, if it has that. -/
def instrumentIf (instr : Instr) (has : Bool) (addr : IRAtom) (szB : Nat)
    (isStore : Bool) : Except Halt Instr :=
  if has then instr.instrumentMemAccess env tyenv addr szB isStore false
  else pure instr

def instrumentDirty (instr : Instr) (details : IRDirty) :
    Except Halt Instr :=
  let effect := env.effect details
  if effect.mFx ≠ .none then
    match details.mAddr with
    | none => .error .tlAssert
    | some mAddr => do
        tlAssert (effect.mSize ≠ 0)
        let instr ← instr.instrumentIf env tyenv effect.mFx.reads mAddr
          effect.mSize false
        instr.instrumentIf env tyenv effect.mFx.writes mAddr effect.mSize true
  else do
    tlAssert (details.mAddr = none)
    tlAssert (effect.mSize = 0)
    pure instr

/-- The switch over the statement. -/
def instrumentRefs (instr : Instr) : IRStmt → Except Halt Instr
  | .noOp | .abiHint _ _ _ | .put _ _ | .putI _ _ _ _ | .iMark _ _
  | .exit _ | .comment => pure instr
  | .mbe event => instr.instrumentMBE event
  | .store _ addr data => do
      let ty ← typeOfIRAtom tyenv data
      let szB ← sizeofIRType ty
      instr.instrumentMemAccess env tyenv addr szB true
        (instr.x86busLocked || instr.isSnoopedStore)
  | .wrTmp _ (.load _ ty addr) => do
      let szB ← sizeofIRType ty
      instr.instrumentMemAccess env tyenv addr szB false
        (instr.x86busLocked || instr.isSnoopedStore)
  | .wrTmp _ _ => pure instr
  | .dirty details => instr.instrumentDirty env tyenv details

/-- The mode `HG_IM_Statement` of `hg_lsd_instrument_bb`. -/
def lsdStatement (instr : Instr) : IRStmt → Except Halt Instr
  | .iMark addr len => pure { instr with iaddr := addr, ilen := len }
  | .exit _ => do
      tlAssert (instr.iaddr ≠ 0)
      tlAssert (instr.ilen ≠ 0)
      pure instr
  | _ => pure instr

def instrumentStmt (instr : Instr) (st : IRStmt) : Except Halt Instr := do
  let instr ← instr.instrumentRefs env tyenv st
  let instr ← instr.lsdStatement st
  pure (instr.addStmt st)

end Instr

def IRStmt.isIMark : IRStmt → Bool
  | iMark _ _ => true
  | _ => false

/-- The pass under `--cfg=0`, which is not the default: the three calls of
`hg_loops_instrument_bb` have no effect.  The statements before the first
instruction mark are copied verbatim. -/
def hgInstrument (env : InstrumentEnv) (bbIn : IRSB) : Except Halt IRSB :=
  if env.gWordTy ≠ env.hWordTy then .error .vpanic
  else do
    let preamble := bbIn.stmts.takeWhile fun st => !st.isIMark
    let instr ← (bbIn.stmts.dropWhile fun st => !st.isIMark).foldlM
      (Instr.instrumentStmt env bbIn.tyenv) ⟨preamble, false, false, 0, 0⟩
    pure { bbIn with stmts := instr.bbOut }

end Dependency

end HelgrindPlus
