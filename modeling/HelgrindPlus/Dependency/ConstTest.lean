import HelgrindPlus.Dependency.Simplify

/-!
# Loop tests that depend on memory only

`HG_(isConstTest)` follows an exit's guard back to what it is computed from,
through registers also into the round before, and takes the test for constant
if it does not come around to the same statement.
-/

namespace HelgrindPlus

namespace Dependency

open Outcome

section Search

variable (tree : IrsbTree)

/-- The operands one after the other.  Zero says that the search has come to
an end everywhere, one that it is too deep, two that there is something it
cannot handle, and less than zero that a statement has no value.  A positive
result ends the search; of the others the last negative one is kept. -/
def searchArgs (search : IRAtom → Except Halt Int) :
    Int → List IRAtom → Except Halt Int
  | res, [] => return res
  | res, arg :: rest => do
      let t ← search arg
      if t > 0 then return t
      else searchArgs search (if t < 0 then t else res) rest

/-- As `searchArgs`, but the result is that of the last operand. -/
def searchLast (search : IRAtom → Except Halt Int) :
    Int → List IRAtom → Except Halt Int
  | t, [] => return t
  | _, arg :: rest => do
      let t ← search arg
      if t > 0 then return t else searchLast search t rest

def isRecurseAtom (searchStmt : Nat → Except Halt Int) :
    IRAtom → Except Halt Int
  | .const _ => return 0
  | .rdTmp tmp => do
      let root ← treeNodeTmp tree tmp
      searchStmt root

/-- The operand of the write that a register has its value from. -/
def putData (stmtIdx : Nat) : Except Halt IRAtom :=
  match tree.irsb.stmts[stmtIdx]? with
  | some (.put _ data) => return data
  | _ => .error .tlAssert

/-- An expression.  The search for what a register holds is one level deeper
than that for the operands. -/
def isRecurseExpr (search deeper : IRAtom → Except Halt Int) :
    IRExpr → Except Halt Int
  | .ccall _ _ _ | .getI _ _ _ => return 2
  | .get offset ty => do
      match ← treeNodeRegister tree offset ty with
      | none => return 0
      | some stmtIdx => do
          let data ← putData tree stmtIdx
          deeper data
  | .atom operand => search operand
  | .mux0X cond expr0 exprX => searchArgs search 0 [cond, expr0, exprX]
  | .qop _ arg1 arg2 arg3 arg4 => searchArgs search 0 [arg1, arg2, arg3, arg4]
  | .triop _ arg1 arg2 arg3 => searchLast search 0 [arg1, arg2, arg3]
  | .binop _ arg1 arg2 => searchLast search 0 [arg1, arg2]
  | .unop _ arg => search arg
  | .load _ _ addr => search addr

def isRecurseBody (search deeper : IRAtom → Except Halt Int) :
    IRStmt → Except Halt Int
  | .putI _ _ _ _ | .dirty _ | .comment => return 2
  | .abiHint _ _ _ | .mbe _ | .noOp | .iMark _ _ => return -1
  | .store _ addr data => searchArgs search 0 [addr, data]
  | .put _ _ => .error .tlAssert
  | .wrTmp _ data => isRecurseExpr tree search deeper data
  | .exit guard => search guard

/-- The functions `_tree_isRecurse_stmt` and `_tree_isRecurse_expr`.  The
number is how much deeper the search may go: the depth in the source is put
back on every return that does not end the search. -/
def isRecurseStmt : Nat → Nat → Except Halt Int
  | left, root =>
      match tree.irsb.stmts[root]? with
      | none => .error .tlAssert
      | some st =>
          match left with
          | 0 => return 1
          | left + 1 =>
              isRecurseBody tree
                (isRecurseAtom tree (isRecurseStmt left))
                (match left with
                  | 0 => fun _ => return 1
                  | left + 1 => isRecurseAtom tree (isRecurseStmt left)) st

def isrecurseMaxDepth : Nat := 300

def treeIsRecurse (root : Nat) : Except Halt Int :=
  isRecurseStmt tree
    (min (tree.irsb.stmts.length + 2) isrecurseMaxDepth) root

end Search

section Test

/-- What the search for stores that match a load does at a store: it gives
the tree, whether something was replaced, and whether the search is over.
There is no such statement in the blocks considered here. -/
abbrev AtStore := IrsbTree → Nat → Nat → Except Halt (IrsbTree × Bool × Bool)

variable (atStore : AtStore)

/-- The loop of `tree_replaceLoadByMatchingStores`, from the statement before
the load backwards and around to the load. -/
def matchStores (loadStmtIdx : Nat) :
    Nat → IrsbTree → Bool → Int → Except Halt (IrsbTree × Bool)
  | 0, _, _, _ => .error .outOfFuel
  | fuel + 1, tree, found, stStmt =>
      if stStmt = loadStmtIdx then
        return (tree, found)
      else
        let idx : Int :=
          if stStmt < 0 then tree.irsb.stmts.length - 1 else stStmt
        match tree.irsb.stmts[idx.toNat]? with
        | none => .error .tlAssert
        | some (.store _ _ _) => do
            let (tree', changed, stop) ← atStore tree idx.toNat loadStmtIdx
            if stop then return (tree', found || changed)
            else matchStores loadStmtIdx fuel tree' (found || changed) (idx - 1)
        | some _ => matchStores loadStmtIdx fuel tree found (idx - 1)

def treeReplaceLoadByMatchingStores (fuel : Nat) (tree : IrsbTree)
    (loadStmtIdx : Nat) : Except Halt (IrsbTree × Bool) :=
  match tree.irsb.stmts[loadStmtIdx]? with
  | some (.wrTmp _ (.load _ _ _)) =>
      matchStores atStore loadStmtIdx fuel tree false (loadStmtIdx - 1)
  | _ => return (tree, false)

/-- The walk over what the guard depends on, which starts anew when a load was
replaced. -/
def constTestLoop (testIndex : Nat) :
    Nat → IrsbTree → TreeIterator → Except Halt IrsbTree
  | 0, _, _ => .error .outOfFuel
  | fuel + 1, tree, iter => do
      let (iter', found) ← treeIteratorNext tree iter
      match found with
      | none => return tree
      | some val =>
          match val.typ with
          | .expr => constTestLoop testIndex fuel tree iter'
          | .stmt => do
              let (tree', changed) ←
                treeReplaceLoadByMatchingStores atStore fuel tree val.stmtIdx
              if changed then do
                let restarted ← treeIteratorNew tree' testIndex
                constTestLoop testIndex fuel tree' restarted
              else
                constTestLoop testIndex fuel tree' iter'
          | .recurse | .error => return tree

/-- What follows the simplification. -/
def constTestSearch (fuel : Nat) (tree : IrsbTree) (testIndex : Nat) :
    Except Halt (IrsbTree × Bool) := do
  let isRecursive ← treeIsRecurse tree testIndex
  tlAssert (isRecursive ≥ 0)
  if isRecursive ≠ 0 then
    return (tree, false)
  else do
    let iter ← treeIteratorNew tree testIndex
    let tree' ← constTestLoop atStore testIndex fuel tree iter
    let isRecursive' ← treeIsRecurse tree' testIndex
    tlAssert (isRecursive' ≥ 0)
    return (tree', isRecursive' = 0)

def isConstTest (addrBits fuel : Nat) (tree : IrsbTree) (testIndex : Nat) :
    Except Halt (IrsbTree × Bool) :=
  match tree.irsb.stmts[testIndex]? with
  | some (.exit (.rdTmp _)) =>
      if tree.wasSimplified then
        constTestSearch atStore fuel tree testIndex
      else do
        let tree' ← treeSimplify addrBits fuel tree
        constTestSearch atStore fuel tree' testIndex
  | _ => .error .tlAssert

end Test

end Dependency

end HelgrindPlus
