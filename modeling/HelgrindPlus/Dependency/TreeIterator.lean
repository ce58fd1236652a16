import HelgrindPlus.Dependency.Tree

/-!
# The tree iterator

A depth-first walk from a statement through the statements that assign what it
reads.  The stack has a bound, at which the walk reports a recursion.
-/

namespace HelgrindPlus

namespace Dependency

open Outcome

inductive IteratValueTyp where
  | error | stmt | expr | recurse
  deriving DecidableEq, Repr

/-- A value of the walk.  The expression is there for a value of type `expr`;
the statement of a value of type `stmt` is found by its index. -/
structure TreeIteratValue where
  typ : IteratValueTyp
  stmtIdx : Nat
  curDepth : Nat
  expr : Option IRExpr
  subExpr : List (Option IRExpr)
  stmtDone : Bool
  deriving DecidableEq, Repr

/-- The top of the stack comes first. -/
structure TreeIterator where
  stack : List TreeIteratValue
  stackSize : Nat
  loopGetPut : Bool
  loopLoadStore : Bool
  deriving DecidableEq, Repr

namespace TreeIterator

/-- No value can be allocated: the index of the top has reached the size. -/
def full (iter : TreeIterator) : Bool := iter.stackSize < iter.stack.length

def push (iter : TreeIterator) (val : TreeIteratValue) : TreeIterator :=
  { iter with stack := val :: iter.stack }

end TreeIterator

def treeIteratorStmt (tree : IrsbTree) (root : Nat) :
    Except Halt TreeIteratValue :=
  match tree.irsb.stmts[root]? with
  | none => .error .tlAssert
  | some (.store _ addr data) =>
      return ⟨.stmt, root, 0, none, [some (.atom addr), some (.atom data)],
        false⟩
  | some (.put _ data) =>
      return ⟨.stmt, root, 0, none, [some (.atom data)], false⟩
  | some (.wrTmp _ data) => return ⟨.stmt, root, 0, none, [some data], false⟩
  | some (.exit guard) =>
      return ⟨.stmt, root, 0, none, [some (.atom guard)], false⟩
  | some _ => return ⟨.error, root, 0, none, [], false⟩

/-- The value for an expression with the given operands. -/
def exprValue (e : IRExpr) (args : List IRAtom) : TreeIteratValue :=
  ⟨.expr, 0, 0, some e, args.map fun arg => some (.atom arg), false⟩

/-- The statement that the expression leads to is put on the stack under the
expression itself; `whenFull` is the type of the value if there is no room. -/
def followStmt (tree : IrsbTree) (iter : TreeIterator) (e : IRExpr)
    (stmtIdx : Nat) (whenFull : IteratValueTyp) :
    Except Halt (TreeIterator × TreeIteratValue) :=
  if iter.full then
    return (iter, { exprValue e [] with typ := whenFull })
  else do
    let val ← treeIteratorStmt tree stmtIdx
    return (iter.push val, exprValue e [])

def treeIteratorExpr (tree : IrsbTree) (iter : TreeIterator) (e : IRExpr) :
    Except Halt (TreeIterator × TreeIteratValue) :=
  match e with
  | .getI _ _ _ | .ccall _ _ _ =>
      return (iter, { exprValue e [] with typ := .error })
  | .atom (.const _) => return (iter, exprValue e [])
  | .get offset ty =>
      if iter.loopGetPut then do
        match ← treeNodeRegister tree offset ty with
        | none => return (iter, exprValue e [])
        | some stmtIdx => followStmt tree iter e stmtIdx .error
      else
        return (iter, exprValue e [])
  | .atom (.rdTmp tmp) => do
      let stmtIdx ← treeNodeTmp tree tmp
      followStmt tree iter e stmtIdx .recurse
  | .mux0X cond expr0 exprX =>
      return (iter, exprValue e [cond, expr0, exprX])
  | .qop _ arg1 arg2 arg3 arg4 =>
      return (iter, exprValue e [arg1, arg2, arg3, arg4])
  | .triop _ arg1 arg2 arg3 => return (iter, exprValue e [arg1, arg2, arg3])
  | .binop _ arg1 arg2 => return (iter, exprValue e [arg1, arg2])
  | .unop _ arg => return (iter, exprValue e [arg])
  | .load _ _ addr => do
      tlAssert (iter.loopLoadStore = false)
      return (iter, exprValue e [addr])

def treeIteratorNew (tree : IrsbTree) (stmtIdx : Nat) :
    Except Halt TreeIterator := do
  let val ← treeIteratorStmt tree stmtIdx
  return ⟨[val], tree.irsb.stmts.length * 2, true, false⟩

/-- All children are skipped, or the given one. -/
def treeIteratorSkip (iter : TreeIterator) (childId : Option Nat) :
    TreeIterator :=
  match iter.stack with
  | [] => iter
  | top :: rest =>
      let subExpr :=
        match childId with
        | some child => top.subExpr.set child none
        | none => []
      { iter with stack := { top with subExpr := subExpr } :: rest }

/-- The first child that is left, and the children after it is done. -/
def nextChild :
    List (Option IRExpr) → Option (IRExpr × List (Option IRExpr))
  | [] => none
  | some e :: rest => some (e, none :: rest)
  | none :: rest =>
      match nextChild rest with
      | some (e, rest') => some (e, none :: rest')
      | none => none

/-- What `treeIterator_Next` returns when there is no room; no caller goes on
with the iterator then. -/
def recurseValue : TreeIteratValue := ⟨.recurse, 0, 0, none, [], false⟩

/-- The child `e` of the value `top` becomes the new top. -/
def descend (tree : IrsbTree) (iter : TreeIterator) (top : TreeIteratValue)
    (e : IRExpr) : Except Halt (TreeIterator × Option TreeIteratValue) := do
  let (iter', val) ← treeIteratorExpr tree iter e
  let val' := { val with
    stmtIdx := top.stmtIdx, curDepth := iter'.stack.length }
  return if iter'.full then (iter', some recurseValue)
    else (iter'.push val', some val')

/-- The loop of `treeIterator_Next`, which takes the finished values off the
stack. -/
def treeIteratorPop (tree : IrsbTree) (iter : TreeIterator) :
    List TreeIteratValue →
      Except Halt (TreeIterator × Option TreeIteratValue)
  | [] => return ({ iter with stack := [] }, none)
  | top :: rest =>
      if iter.stackSize ≤ rest.length then
        return ({ iter with stack := top :: rest }, some recurseValue)
      else if top.typ = .error ∨ top.typ = .recurse then
        .error .tlAssert
      else if top.typ = .stmt ∧ top.stmtDone = false then
        let top' := { top with stmtDone := true, curDepth := rest.length }
        return ({ iter with stack := top' :: rest }, some top')
      else
        match nextChild top.subExpr with
        | none => treeIteratorPop tree iter rest
        | some (e, subExpr) =>
            descend tree
              { iter with stack := { top with subExpr := subExpr } :: rest }
              top e

def treeIteratorNext (tree : IrsbTree) (iter : TreeIterator) :
    Except Halt (TreeIterator × Option TreeIteratValue) :=
  treeIteratorPop tree iter iter.stack

end Dependency

end HelgrindPlus
