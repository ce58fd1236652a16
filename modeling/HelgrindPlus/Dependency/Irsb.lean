import HelgrindPlus.Lib.Bytes
import HelgrindPlus.Lib.Outcome
import Mathlib.Logic.Function.Basic

/-!
# Superblocks

The intermediate representation of `libvex_ir.h` as the dependency analysis
gets it: flat, so that the operands of an expression are temporaries and
constants.  A block is run on the temporaries, the guest state and memory.
-/

namespace HelgrindPlus

namespace Dependency

open Outcome Bytes

/-- Why the analysis stops: an assertion of the tool, a panic of VEX, or the
bound on the rounds of a loop of the model. -/
inductive Halt where
  | tlAssert | vpanic | outOfFuel
  deriving DecidableEq, Repr

def tlAssert (condition : Prop) [Decidable condition] : Except Halt Unit :=
  if condition then .ok () else .error .tlAssert

theorem tlAssert_of {condition : Prop} [Decidable condition]
    (holds : condition) : tlAssert condition = .ok () :=
  if_pos holds

theorem tlAssert_eq_ok {condition : Prop} [Decidable condition] {value : Unit} :
    tlAssert condition = .ok value ↔ condition := by
  unfold tlAssert
  split <;> simp_all

inductive IRType where
  | I1 | I8 | I16 | I32 | I64 | I128 | F32 | F64 | V128
  deriving DecidableEq, Repr

namespace IRType

def bytes : IRType → Nat
  | I1 | I8 => 1
  | I16 => 2
  | I32 | F32 => 4
  | I64 | F64 => 8
  | I128 | V128 => 16

def bits : IRType → Nat
  | I1 => 1
  | ty => 8 * ty.bytes

/-- The bits of a number that a value of the type has. -/
def fit (ty : IRType) (value : Nat) : Nat := value % 2 ^ ty.bits

theorem bytes_pos (ty : IRType) : 0 < ty.bytes := by
  cases ty <;> decide

/-- A value of any type fits into the bytes of its type. -/
theorem two_pow_bits_le (ty : IRType) : 2 ^ ty.bits ≤ 256 ^ ty.bytes := by
  cases ty <;> decide

end IRType

def sizeofIRType : IRType → Except Halt Nat
  | .I1 | .I128 => .error .vpanic
  | ty => .ok ty.bytes

theorem sizeofIRType_eq_ok {ty : IRType} {size : Nat}
    (sized : sizeofIRType ty = .ok size) : size = ty.bytes := by
  cases ty <;> cases sized <;> rfl

inductive IREndness where
  | LE | BE
  deriving DecidableEq, Repr

/-- A floating-point constant is given by its bits. -/
inductive IRConst where
  | U1 (value : Bool)
  | U8 (value : UInt8)
  | U16 (value : UInt16)
  | U32 (value : UInt32)
  | U64 (value : UInt64)
  | F64 (value : UInt64)
  | F64i (value : UInt64)
  | V128 (value : UInt16)
  deriving DecidableEq, Repr

namespace IRConst

def typeOf : IRConst → IRType
  | U1 _ => .I1
  | U8 _ => .I8
  | U16 _ => .I16
  | U32 _ => .I32
  | U64 _ => .I64
  | F64 _ | F64i _ => .F64
  | V128 _ => .V128

/-- A `V128` constant has one bit for each of the lowest `lanes` bytes. -/
def lanes (mask : Nat) : Nat → Nat
  | 0 => 0
  | lane + 1 =>
      lanes mask lane +
        (if mask.testBit lane then 255 * 256 ^ lane else 0)

/-- The value that the constant denotes. -/
def denotes : IRConst → Nat
  | U1 value => value.toNat
  | U8 value => value.toNat
  | U16 value => value.toNat
  | U32 value => value.toNat
  | U64 value | F64 value | F64i value => value.toNat
  | V128 value => lanes value.toNat 16

/-- The function `value_of`, which reads the union of the constant. -/
def valueOf : IRConst → Nat
  | U1 value => value.toNat
  | U8 value => value.toNat
  | U16 value | V128 value => value.toNat
  | U32 value => value.toNat
  | U64 value | F64 value | F64i value => value.toNat

private theorem lanes_lt (mask lane : Nat) : lanes mask lane < 256 ^ lane := by
  induction lane with
  | zero => simp [lanes]
  | succ lane induction =>
      rw [lanes, Nat.pow_succ]
      split <;> omega

theorem denotes_lt (con : IRConst) : con.denotes < 2 ^ con.typeOf.bits := by
  cases con with
  | U1 value => cases value <;> decide
  | U8 value => exact value.toNat_lt
  | U16 value => exact value.toNat_lt
  | U32 value => exact value.toNat_lt
  | U64 value => exact value.toNat_lt
  | F64 value => exact value.toNat_lt
  | F64i value => exact value.toNat_lt
  | V128 value => exact lanes_lt value.toNat 16

end IRConst

inductive IntWidth where
  | w8 | w16 | w32 | w64
  deriving DecidableEq, Repr

namespace IntWidth

def bits : IntWidth → Nat
  | w8 => 8
  | w16 => 16
  | w32 => 32
  | w64 => 64

def type : IntWidth → IRType
  | w8 => .I8
  | w16 => .I16
  | w32 => .I32
  | w64 => .I64

theorem bits_type (width : IntWidth) : width.type.bits = width.bits := by
  cases width <;> rfl

end IntWidth

/-- The analysis looks only at additions and subtractions; the other
operations are told apart by their tags. -/
inductive IROp where
  | add (width : IntWidth)
  | sub (width : IntWidth)
  | other (tag : Nat)
  deriving DecidableEq, Repr

/-- An operand of a flat expression. -/
inductive IRAtom where
  | rdTmp (tmp : Nat)
  | const (con : IRConst)
  deriving DecidableEq, Repr

structure IRRegArray where
  base : Nat
  elemTy : IRType
  nElems : Nat
  deriving DecidableEq, Repr

inductive IRExpr where
  | get (offset : Nat) (ty : IRType)
  | getI (descr : IRRegArray) (ix : IRAtom) (bias : Int)
  | atom (operand : IRAtom)
  | qop (op : IROp) (arg1 arg2 arg3 arg4 : IRAtom)
  | triop (op : IROp) (arg1 arg2 arg3 : IRAtom)
  | binop (op : IROp) (arg1 arg2 : IRAtom)
  | unop (op : IROp) (arg : IRAtom)
  | load (endness : IREndness) (ty : IRType) (addr : IRAtom)
  | ccall (cee : Nat) (retty : IRType) (args : List IRAtom)
  | mux0X (cond expr0 exprX : IRAtom)
  deriving DecidableEq, Repr

inductive IRMBusEvent where
  | fence | busLock | busUnlock | snoopedStoreBegin | snoopedStoreEnd
  deriving DecidableEq, Repr

structure IRDirty where
  cee : Nat
  guard : IRAtom
  args : List IRAtom
  tmp : Option Nat
  mAddr : Option IRAtom
  deriving DecidableEq, Repr

/-- The statement `comment` is what `IRStmt_Comment` makes: a dirty statement
without arguments and effects that takes the place of a removed statement. -/
inductive IRStmt where
  | noOp
  | iMark (addr len : Nat)
  | abiHint (base : IRAtom) (len : Nat) (nia : IRAtom)
  | put (offset : Nat) (data : IRAtom)
  | putI (descr : IRRegArray) (ix : IRAtom) (bias : Int) (data : IRAtom)
  | wrTmp (tmp : Nat) (data : IRExpr)
  | store (endness : IREndness) (addr data : IRAtom)
  | dirty (details : IRDirty)
  | comment
  | mbe (event : IRMBusEvent)
  | exit (guard : IRAtom)
  deriving DecidableEq, Repr

structure IRSB where
  tyenv : List IRType
  stmts : List IRStmt
  deriving DecidableEq, Repr

def IRAtom.tmps : IRAtom → List Nat
  | rdTmp tmp => [tmp]
  | const _ => []

/-- The temporaries that an expression reads. -/
def IRExpr.tmps : IRExpr → List Nat
  | get _ _ => []
  | getI _ ix _ => ix.tmps
  | atom operand => operand.tmps
  | qop _ arg1 arg2 arg3 arg4 =>
      arg1.tmps ++ arg2.tmps ++ arg3.tmps ++ arg4.tmps
  | triop _ arg1 arg2 arg3 => arg1.tmps ++ arg2.tmps ++ arg3.tmps
  | binop _ arg1 arg2 => arg1.tmps ++ arg2.tmps
  | unop _ arg => arg.tmps
  | load _ _ addr => addr.tmps
  | ccall _ _ args => args.flatMap IRAtom.tmps
  | mux0X cond expr0 exprX => cond.tmps ++ expr0.tmps ++ exprX.tmps

def IRDirty.tmps (details : IRDirty) : List Nat :=
  details.guard.tmps ++ details.args.flatMap IRAtom.tmps ++
    details.mAddr.toList.flatMap IRAtom.tmps

namespace IRStmt

def reads : IRStmt → List Nat
  | noOp | iMark _ _ | comment | mbe _ => []
  | abiHint base _ nia => base.tmps ++ nia.tmps
  | put _ data => data.tmps
  | putI _ ix _ data => ix.tmps ++ data.tmps
  | wrTmp _ data => data.tmps
  | store _ addr data => addr.tmps ++ data.tmps
  | dirty details => details.tmps
  | exit guard => guard.tmps

def defines : IRStmt → Option Nat
  | wrTmp tmp _ => some tmp
  | dirty details => details.tmp
  | _ => none

/-- No indexed access to the guest state, no call of a helper. -/
def plain : IRStmt → Bool
  | putI _ _ _ _ | dirty _ => false
  | wrTmp _ (.getI _ _ _) | wrTmp _ (.ccall _ _ _) => false
  | _ => true

end IRStmt

/-- The function `typeOfIRExpr` on an operand. -/
def typeOfIRAtom (tyenv : List IRType) : IRAtom → Except Halt IRType
  | .rdTmp tmp =>
      match tyenv[tmp]? with
      | some ty => .ok ty
      | none => .error .vpanic
  | .const con => .ok con.typeOf

structure IRState where
  temps : Nat → Nat
  guest : Cells
  memory : Cells

/-- What the blocks are run with besides their own state: the operations that
the analysis does not look into, the helpers that are called for a value, and
those that are called for their effect. -/
structure Host where
  opType : Nat → IRType
  op : Nat → List Nat → Nat
  op_lt : ∀ tag args, op tag args < 2 ^ (opType tag).bits
  ccall : Nat → IRType → List Nat → Nat
  ccall_lt : ∀ cee retty args, ccall cee retty args < 2 ^ retty.bits
  dirty : IRDirty → IRState → IRState

def IRAtom.eval (state : IRState) : IRAtom → Nat
  | rdTmp tmp => state.temps tmp
  | const con => con.denotes

section Execution

variable (host : Host)

namespace IROp

/-- The result type that `typeOfPrimop` gives. -/
def type : IROp → IRType
  | add width | sub width => width.type
  | other tag => host.opType tag

def apply : IROp → List Nat → Nat
  | add width, [left, right] => (left + right) % 2 ^ width.bits
  | sub width, [left, right] =>
      (left + (2 ^ width.bits - right % 2 ^ width.bits)) % 2 ^ width.bits
  | add _, _ | sub _, _ => 0
  | other tag, args => host.op tag args

theorem apply_lt (op : IROp) (args : List Nat) :
    op.apply host args < 2 ^ (op.type host).bits := by
  have positive : ∀ exponent : Nat, 0 < 2 ^ exponent := by
    intro exponent
    exact Nat.two_pow_pos exponent
  unfold apply
  split <;> simp only [type, IntWidth.bits_type]
  · exact Nat.mod_lt _ (positive _)
  · exact Nat.mod_lt _ (positive _)
  · exact positive _
  · exact positive _
  · exact host.op_lt _ _

end IROp

def typeOfIRExpr (tyenv : List IRType) : IRExpr → Except Halt IRType
  | .get _ ty | .load _ ty _ | .ccall _ ty _ => .ok ty
  | .getI descr _ _ => .ok descr.elemTy
  | .atom atom => typeOfIRAtom tyenv atom
  | .qop op _ _ _ _ | .triop op _ _ _ | .binop op _ _ | .unop op _ =>
      .ok (op.type host)
  | .mux0X _ expr0 _ => typeOfIRAtom tyenv expr0

/-- The offset of the element of a circular part of the guest state. -/
def IRRegArray.offset (descr : IRRegArray) (ix : Nat) (bias : Int) : Nat :=
  descr.base + ((ix + bias) % descr.nElems).toNat * descr.elemTy.bytes

def IRExpr.eval (state : IRState) : IRExpr → Nat
  | get offset ty => ty.fit (read state.guest offset ty.bytes)
  | getI descr ix bias =>
      descr.elemTy.fit (read state.guest
        (descr.offset (ix.eval state) bias) descr.elemTy.bytes)
  | atom operand => operand.eval state
  | qop op arg1 arg2 arg3 arg4 =>
      op.apply host
        [arg1.eval state, arg2.eval state, arg3.eval state, arg4.eval state]
  | triop op arg1 arg2 arg3 =>
      op.apply host [arg1.eval state, arg2.eval state, arg3.eval state]
  | binop op arg1 arg2 => op.apply host [arg1.eval state, arg2.eval state]
  | unop op arg => op.apply host [arg.eval state]
  | load .LE ty addr => ty.fit (read state.memory (addr.eval state) ty.bytes)
  | load .BE ty addr =>
      ty.fit (readBig state.memory (addr.eval state) ty.bytes)
  | ccall cee retty args => host.ccall cee retty (args.map (IRAtom.eval state))
  | mux0X cond expr0 exprX =>
      if cond.eval state = 0 then expr0.eval state else exprX.eval state

def IRAtom.bytes (tyenv : List IRType) (atom : IRAtom) : Nat :=
  match typeOfIRAtom tyenv atom with
  | .ok ty => ty.bytes
  | .error _ => 0

/-- One statement.  An exit only tests its guard, and the statements marked as
meta in `libvex_ir.h` do nothing. -/
def exec (tyenv : List IRType) (state : IRState) : IRStmt → IRState
  | .noOp | .iMark _ _ | .abiHint _ _ _ | .comment | .mbe _ | .exit _ => state
  | .put offset data =>
      { state with
        guest := write state.guest offset (data.bytes tyenv)
          (data.eval state) }
  | .putI descr ix bias data =>
      { state with
        guest := write state.guest (descr.offset (ix.eval state) bias)
          descr.elemTy.bytes (data.eval state) }
  | .wrTmp tmp data =>
      { state with
        temps := Function.update state.temps tmp (data.eval host state) }
  | .store .LE addr data =>
      { state with
        memory := write state.memory (addr.eval state) (data.bytes tyenv)
          (data.eval state) }
  | .store .BE addr data =>
      { state with
        memory := writeBig state.memory (addr.eval state) (data.bytes tyenv)
          (data.eval state) }
  | .dirty details => host.dirty details state

def execs (tyenv : List IRType) (state : IRState) (stmts : List IRStmt) :
    IRState :=
  stmts.foldl (exec host tyenv) state

@[simp] theorem execs_nil (tyenv : List IRType) (state : IRState) :
    execs host tyenv state [] = state := rfl

@[simp] theorem execs_cons (tyenv : List IRType) (state : IRState)
    (st : IRStmt) (rest : List IRStmt) :
    execs host tyenv state (st :: rest) =
      execs host tyenv (exec host tyenv state st) rest := rfl

end Execution

/-- Every temporary is assigned once, before its uses; `defined` has those
that are assigned already. -/
def Scoped (tyenv : List IRType) : List Nat → List IRStmt → Prop
  | _, [] => True
  | defined, st :: rest =>
      (∀ tmp ∈ st.reads, tmp ∈ defined) ∧
        (∀ tmp ∈ st.defines.toList, tmp < tyenv.length ∧ tmp ∉ defined) ∧
        Scoped tyenv (st.defines.toList ++ defined) rest

instance decidableScoped (tyenv : List IRType) :
    ∀ (defined : List Nat) (stmts : List IRStmt),
      Decidable (Scoped tyenv defined stmts)
  | _, [] => .isTrue trivial
  | defined, st :: rest =>
      have := decidableScoped tyenv (st.defines.toList ++ defined) rest
      inferInstanceAs (Decidable (_ ∧ _ ∧ _))

section Typing

variable (host : Host) (tyenv : List IRType)

/-- The results of a choice are of one type. -/
def IRExpr.uniform : IRExpr → Bool
  | mux0X _ expr0 exprX =>
      (typeOfIRAtom tyenv exprX).toOption = (typeOfIRAtom tyenv expr0).toOption
  | _ => true

/-- An assignment is of the type of its temporary. -/
def IRStmt.wellTyped : IRStmt → Bool
  | wrTmp tmp data =>
      (typeOfIRExpr host tyenv data).toOption = tyenv[tmp]? &&
        data.uniform tyenv
  | _ => true

end Typing

/-- The block is in single-assignment form and is typed. -/
structure IRSB.Sane (host : Host) (bb : IRSB) : Prop where
  inScope : Scoped bb.tyenv [] bb.stmts
  typed : ∀ st ∈ bb.stmts, st.wellTyped host bb.tyenv

/-- The temporaries that the statements assign. -/
def definedBy (stmts : List IRStmt) : List Nat :=
  stmts.flatMap fun st => st.defines.toList

/-- The temporaries that are assigned after the statements. -/
def scopeAfter (defined : List Nat) (stmts : List IRStmt) : List Nat :=
  stmts.foldl (fun defined st => st.defines.toList ++ defined) defined

theorem mem_scopeAfter {defined : List Nat} {stmts : List IRStmt} {tmp : Nat} :
    tmp ∈ scopeAfter defined stmts ↔
      tmp ∈ definedBy stmts ∨ tmp ∈ defined := by
  induction stmts generalizing defined with
  | nil => simp [scopeAfter, definedBy]
  | cons st rest induction =>
      have later : scopeAfter defined (st :: rest) =
          scopeAfter (st.defines.toList ++ defined) rest := rfl
      rw [later, induction, List.mem_append, definedBy, definedBy,
        List.flatMap_cons, List.mem_append]
      tauto

theorem Scoped.reads_at {tyenv : List IRType} {defined : List Nat}
    {stmts : List IRStmt} (inScope : Scoped tyenv defined stmts) {count : Nat}
    {st : IRStmt} (found : stmts[count]? = some st) :
    ∀ tmp ∈ st.reads, tmp ∈ scopeAfter defined (stmts.take count) := by
  induction stmts generalizing defined count with
  | nil => cases found
  | cons first rest induction =>
      obtain ⟨reads, _, later⟩ := inScope
      cases count with
      | zero =>
          cases found
          exact reads
      | succ count => exact induction later found

section Evaluation

variable {host : Host} {tyenv : List IRType}

theorem IRAtom.eval_congr {atom : IRAtom} {state state' : IRState}
    (same : ∀ tmp ∈ atom.tmps, state.temps tmp = state'.temps tmp) :
    atom.eval state = atom.eval state' := by
  cases atom with
  | rdTmp tmp => exact same tmp (List.mem_singleton_self tmp)
  | const con => rfl

/-- The values of the temporaries fit their types. -/
def Ranged (tyenv : List IRType) (defined : List Nat) (state : IRState) :
    Prop :=
  ∀ tmp ∈ defined, ∀ ty, tyenv[tmp]? = some ty →
    state.temps tmp < 2 ^ ty.bits

theorem Ranged.eval_atom_lt {defined : List Nat} {state : IRState}
    (ranged : Ranged tyenv defined state) {atom : IRAtom} {ty : IRType}
    (inScope : ∀ tmp ∈ atom.tmps, tmp ∈ defined)
    (typed : typeOfIRAtom tyenv atom = .ok ty) :
    atom.eval state < 2 ^ ty.bits := by
  cases atom with
  | rdTmp tmp =>
      apply ranged tmp (inScope tmp (List.mem_singleton_self tmp))
      simp only [typeOfIRAtom] at typed
      split at typed
      · next found => cases typed; exact found
      · cases typed
  | const con =>
      cases typed
      exact con.denotes_lt

theorem IRType.fit_lt (ty : IRType) (value : Nat) :
    ty.fit value < 2 ^ ty.bits :=
  Nat.mod_lt _ (Nat.two_pow_pos _)

theorem eq_ok_of_toOption {computation : Except Halt IRType} {ty : IRType}
    (known : computation.toOption = some ty) : computation = .ok ty := by
  cases computation with
  | error halt => cases known
  | ok value => cases known; rfl

/-- An assignment of the right type gives a value that fits the temporary. -/
theorem Ranged.eval_lt {defined : List Nat} {state : IRState}
    (ranged : Ranged tyenv defined state) {data : IRExpr} {ty : IRType}
    (inScope : ∀ tmp ∈ data.tmps, tmp ∈ defined)
    (typed : typeOfIRExpr host tyenv data = .ok ty)
    (uniform : data.uniform tyenv) :
    data.eval host state < 2 ^ ty.bits := by
  cases data with
  | get offset ty' => cases typed; exact IRType.fit_lt _ _
  | getI descr ix bias => cases typed; exact IRType.fit_lt _ _
  | atom operand => exact ranged.eval_atom_lt inScope typed
  | qop op arg1 arg2 arg3 arg4 => cases typed; exact op.apply_lt host _
  | triop op arg1 arg2 arg3 => cases typed; exact op.apply_lt host _
  | binop op arg1 arg2 => cases typed; exact op.apply_lt host _
  | unop op arg => cases typed; exact op.apply_lt host _
  | load endness ty' addr =>
      cases typed
      cases endness <;> exact IRType.fit_lt _ _
  | ccall cee retty args => cases typed; exact host.ccall_lt cee _ _
  | mux0X cond expr0 exprX =>
      have first : typeOfIRAtom tyenv expr0 = .ok ty := typed
      have second : (typeOfIRAtom tyenv exprX).toOption = some ty := by
        simpa [IRExpr.uniform, first, Except.toOption] using uniform
      simp only [IRExpr.tmps, List.mem_append] at inScope
      simp only [IRExpr.eval]
      split
      · apply ranged.eval_atom_lt _ first
        intro tmp read
        exact inScope tmp (.inl (.inr read))
      · apply ranged.eval_atom_lt _ (eq_ok_of_toOption second)
        intro tmp read
        exact inScope tmp (.inr read)

theorem IRStmt.wellTyped_wrTmp {tmp : Nat} {data : IRExpr} {ty : IRType}
    (typed : (wrTmp tmp data).wellTyped host tyenv)
    (declared : tyenv[tmp]? = some ty) :
    typeOfIRExpr host tyenv data = .ok ty ∧ data.uniform tyenv = true := by
  simp only [wellTyped, Bool.and_eq_true, decide_eq_true_eq] at typed
  rw [declared] at typed
  exact ⟨eq_ok_of_toOption typed.1, typed.2⟩

end Evaluation

end Dependency

end HelgrindPlus
