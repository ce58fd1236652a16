import HelgrindPlus.Dependency.Walk

/-!
# Expressions that are the same

`tree_isSameSubExpressionTree` walks from two temporaries in step and compares
what it comes to.  It says of two addresses whether they are the same.
-/

namespace HelgrindPlus

namespace Dependency

open Outcome

/-- The bits are those of a number that is not one. -/
def isNaN (bits : UInt64) : Bool :=
  bits &&& 0x7FF0000000000000 = 0x7FF0000000000000 ∧
    bits &&& 0x000FFFFFFFFFFFFF ≠ 0

def isZero (bits : UInt64) : Bool := bits &&& 0x7FFFFFFFFFFFFFFF = 0

/-- The comparison of two doubles. -/
def eqDouble (bits bits' : UInt64) : Bool :=
  !isNaN bits && !isNaN bits' &&
    (bits = bits' || (isZero bits && isZero bits'))

def eqIRConst : IRConst → IRConst → Bool
  | .U1 value, .U1 value' => value = value'
  | .U8 value, .U8 value' => value = value'
  | .U16 value, .U16 value' => value = value'
  | .U32 value, .U32 value' => value = value'
  | .U64 value, .U64 value' => value = value'
  | .F64 value, .F64 value' => eqDouble value value'
  | .F64i value, .F64i value' => value = value'
  | .V128 value, .V128 value' => value = value'
  | _, _ => false

def eqIRAtom : IRAtom → IRAtom → Bool
  | .rdTmp tmp, .rdTmp tmp' => tmp = tmp'
  | .const con, .const con' => eqIRConst con con'
  | _, _ => false

/-- What the comparison comes to.  It is `exhausted` if it reads through the
null pointer that the second walk returns at its end. -/
inductive Comparison where
  | same | different | exhausted
  deriving DecidableEq, Repr

/-- Whether the comparison goes on after two expressions. -/
def sameExpr : IRExpr → IRExpr → Bool
  | .get offset _, .get offset' _ => offset = offset'
  | .atom (.rdTmp _), .atom (.rdTmp _) => true
  | .binop op _ _, .binop op' _ _ => op = op'
  | .triop op _ _ _, .triop op' _ _ _ => op = op'
  | .qop op _ _ _ _, .qop op' _ _ _ _ => op = op'
  | .unop op _, .unop op' _ => op = op'
  | .atom (.const con), .atom (.const con') => eqIRConst con con'
  | .load _ _ _, .load _ _ _ => true
  | _, _ => false

def sameValue (val1 val2 : TreeIteratValue) : Bool :=
  match val1.expr, val2.expr with
  | some e1, some e2 => sameExpr e1 e2
  | _, _ => false

def sameLoop (tree : IrsbTree) :
    Nat → TreeIterator → TreeIterator → Except Halt Comparison
  | 0, _, _ => .error .outOfFuel
  | fuel + 1, iter1, iter2 => do
      let (iter1', found1) ← treeIteratorNext tree iter1
      let (iter2', found2) ← treeIteratorNext tree iter2
      match found1, found2 with
      | none, none => return .same
      | none, some _ => return .different
      | some _, none => return .exhausted
      | some val1, some val2 =>
          if val1.typ ≠ val2.typ then return .different
          else
            match val1.typ with
            | .expr =>
                if sameValue val1 val2 then sameLoop tree fuel iter1' iter2'
                else return .different
            | .stmt => sameLoop tree fuel iter1' iter2'
            | .recurse | .error => return .different

def treeIsSameSubExpressionTree (fuel : Nat) (tree : IrsbTree)
    (tmp1 tmp2 : Nat) : Except Halt Comparison := do
  tlAssert (tree.wasSimplified = true)
  let root1 ← treeNodeTmp tree tmp1
  let iter1 ← treeIteratorNew tree root1
  let root2 ← treeNodeTmp tree tmp2
  let iter2 ← treeIteratorNew tree root2
  sameLoop tree fuel iter1 iter2

def treeIsSameAddress (fuel : Nat) (tree : IrsbTree) (addr1 addr2 : IRAtom) :
    Except Halt Comparison :=
  if eqIRAtom addr1 addr2 then return .same
  else
    match addr1, addr2 with
    | .rdTmp tmp1, .rdTmp tmp2 =>
        treeIsSameSubExpressionTree fuel tree tmp1 tmp2
    | _, _ => return .different

/-- Fixed values of the registers, by offset and type, and of memory, by
address and type; the values of expressions that no walk goes through may be
any. -/
structure Valuation where
  register : Nat → IRType → Nat
  memory : Nat → IRType → Nat
  other : IRExpr → Nat
  temps : Nat → Nat

section Values

variable (host : Host) (values : Valuation)

def Valuation.atom : IRAtom → Nat
  | .rdTmp tmp => values.temps tmp
  | .const con => con.denotes

def Valuation.eval : IRExpr → Nat
  | .get offset ty => values.register offset ty
  | .atom operand => values.atom operand
  | .qop op arg1 arg2 arg3 arg4 =>
      op.apply host [values.atom arg1, values.atom arg2, values.atom arg3,
        values.atom arg4]
  | .triop op arg1 arg2 arg3 =>
      op.apply host [values.atom arg1, values.atom arg2, values.atom arg3]
  | .binop op arg1 arg2 =>
      op.apply host [values.atom arg1, values.atom arg2]
  | .unop op arg => op.apply host [values.atom arg]
  | .load _ ty addr => values.memory (values.atom addr) ty
  | .mux0X cond expr0 exprX =>
      if values.atom cond = 0 then values.atom expr0 else values.atom exprX
  | e => values.other e

/-- Every temporary has the value that it is assigned. -/
def Valuation.Consistent (tree : IrsbTree) : Prop :=
  ∀ tmp idx data, treeNodeTmp tree tmp = .ok idx →
    tree.irsb.stmts[idx]? = some (.wrTmp tmp data) →
    values.temps tmp = values.eval host data

end Values

end Dependency

end HelgrindPlus
