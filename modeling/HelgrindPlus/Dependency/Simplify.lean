import HelgrindPlus.Dependency.AtomicAlias
import HelgrindPlus.Dependency.TreeIterator

/-!
# Simplification of a tree

`treeSimplify` folds additions and subtractions of constants that cancel.  If
it has folded any, it removes the register loops it takes for trivial and the
copies that the folding has made.
-/

namespace HelgrindPlus

namespace Dependency

open Outcome

/-- The record `lpt` of `tree_simplifyExpression`.  The sum is a number of the
type `Addr`. -/
structure AddSubRun where
  lastAdd : Option IROp
  lastSub : Option IROp
  lastStmt : Option Nat
  sumation : Nat
  deriving DecidableEq, Repr

namespace AddSubRun

def clear : AddSubRun := ⟨none, none, none, 0⟩

end AddSubRun

structure SimplifyState where
  tree : IrsbTree
  lpt : AddSubRun
  hasChanged : Bool

/-- The temporary and the constant of an operation that has one of each. -/
def tmpAndConst : IRAtom → IRAtom → Option (Nat × IRConst)
  | .const con, .rdTmp tmp => some (tmp, con)
  | .rdTmp tmp, .const con => some (tmp, con)
  | _, _ => none

section Simplification

variable (addrBits : Nat)

def negateAddr (value : Nat) : Nat :=
  (2 ^ addrBits - value % 2 ^ addrBits) % 2 ^ addrBits

/-- The sum starts anew after an operation of another width. -/
def accumulate (lpt : AddSubRun) (compatible : Bool) (stmtIdx amount : Nat) :
    Except Halt AddSubRun :=
  if compatible then do
    tlAssert (lpt.lastStmt ≠ none ∨ lpt.sumation = 0)
    return { lpt with
      lastStmt := some (lpt.lastStmt.getD stmtIdx)
      sumation := (lpt.sumation + amount) % 2 ^ addrBits }
  else
    return { lpt with lastStmt := some stmtIdx, sumation := amount }

/-- What an addition or subtraction of a constant adds to the sum. -/
def addSubStep (lpt : AddSubRun) (stmtIdx : Nat) (op : IROp) (con : IRConst) :
    Except Halt (Option AddSubRun) :=
  match op with
  | .add width => do
      let compatible :=
        (lpt.lastAdd = none ∨ lpt.lastAdd = some (.add width)) ∧
          (lpt.lastSub = none ∨ lpt.lastSub = some (.sub width))
      let lpt' ← accumulate addrBits lpt compatible stmtIdx
        (con.valueOf % 2 ^ addrBits)
      return some { lpt' with
        lastAdd := some op
        lastSub := if compatible then lpt.lastSub else none }
  | .sub width => do
      let compatible :=
        (lpt.lastSub = none ∨ lpt.lastSub = some (.sub width)) ∧
          (lpt.lastAdd = none ∨ lpt.lastAdd = some (.add width))
      let lpt' ← accumulate addrBits lpt compatible stmtIdx
        (negateAddr addrBits con.valueOf)
      return some { lpt' with
        lastSub := some op
        lastAdd := if compatible then lpt.lastAdd else none }
  | .other _ => return none

/-- The statement at which the sum began becomes a copy. -/
def foldToCopy (tree : IrsbTree) (lastStmt : Option Nat) (argTmp : Nat) :
    Except Halt IrsbTree :=
  match lastStmt with
  | none => .error .tlAssert
  | some idx =>
      match tree.irsb.stmts[idx]? with
      | some (.wrTmp tmp _) => do
          tlAssert (tmp ≠ argTmp)
          let stmts := tree.irsb.stmts.set idx
            (.wrTmp tmp (.atom (.rdTmp argTmp)))
          return { tree with irsb := { tree.irsb with stmts := stmts } }
      | _ => .error .tlAssert

def simplifyBinop (state : SimplifyState) (stmtIdx : Nat) (op : IROp)
    (argTmp : Nat) (con : IRConst) : Except Halt SimplifyState := do
  match ← addSubStep addrBits state.lpt stmtIdx op con with
  | none => return state
  | some lpt =>
      if lpt.sumation = 0 then do
        let tree ← foldToCopy state.tree lpt.lastStmt argTmp
        return ⟨tree, lpt, true⟩
      else
        return { state with lpt := lpt }

def simplifyStmt (state : SimplifyState) (stmtIdx : Nat) :
    Except Halt SimplifyState :=
  match state.tree.irsb.stmts[stmtIdx]? with
  | some (.wrTmp _ (.atom (.rdTmp _))) => return state
  | some (.wrTmp _ (.binop op arg1 arg2)) =>
      match tmpAndConst arg1 arg2 with
      | some (argTmp, con) => simplifyBinop addrBits state stmtIdx op argTmp con
      | none => return state
  | some (.wrTmp _ _) => return { state with lpt := .clear }
  | _ => .error .tlAssert

def simplifyLoop : Nat → SimplifyState → TreeIterator →
    Except Halt SimplifyState
  | 0, _, _ => .error .outOfFuel
  | fuel + 1, state, iter => do
      let (iter', found) ← treeIteratorNext state.tree iter
      match found with
      | none => return state
      | some val =>
          match val.typ with
          | .expr => simplifyLoop fuel state iter'
          | .stmt => do
              let state' ← simplifyStmt addrBits state val.stmtIdx
              simplifyLoop fuel state' iter'
          | .recurse | .error => return state

def treeSimplifyExpression (fuel : Nat) (tree : IrsbTree) (tmp : Nat) :
    Except Halt (IrsbTree × Bool) := do
  let root ← treeNodeTmp tree tmp
  let iter ← treeIteratorNew tree root
  let state ← simplifyLoop addrBits fuel ⟨tree, .clear, false⟩
    { iter with loopGetPut := false }
  return (state.tree, state.hasChanged)

/-- What one value of the walk means for the removal of the register: whether
it can still be removed, and whether the children are skipped. -/
def uselessValue (tree : IrsbTree) (registerOffset : Nat)
    (val : TreeIteratValue) : Except Halt (Bool × Bool) :=
  match val.typ with
  | .expr =>
      match val.expr with
      | some (.get offset _) => return (offset = registerOffset, false)
      | some (.atom (.rdTmp _)) => return (true, false)
      | _ => return (false, false)
  | .stmt =>
      match tree.irsb.stmts[val.stmtIdx]? with
      | some (.put offset _) => return (true, offset = registerOffset)
      | _ => return (true, false)
  | .recurse => .error .tlAssert
  | .error => return (false, false)

def uselessLoop (tree : IrsbTree) (registerOffset : Nat) :
    Nat → TreeIterator → Except Halt Bool
  | 0, _ => .error .outOfFuel
  | fuel + 1, iter => do
      let (iter', found) ← treeIteratorNext tree iter
      match found with
      | none => return true
      | some val => do
          let (removable, skip) ← uselessValue tree registerOffset val
          if removable then
            uselessLoop tree registerOffset fuel
              (if skip then treeIteratorSkip iter' none else iter')
          else
            return false

/-- Whether the entry of `regLoopDefs` can be removed. -/
def uselessRegister (fuel : Nat) (tree : IrsbTree) (entry : Nat × Nat) :
    Except Halt Bool := do
  let iter ← treeIteratorNew tree entry.2
  uselessLoop tree (treeNodeRegOffset entry.1) fuel iter

def keptRegisters (fuel : Nat) (tree : IrsbTree) :
    List (Nat × Nat) → Except Halt (List (Nat × Nat))
  | [] => return []
  | entry :: rest => do
      let removable ← uselessRegister fuel tree entry
      let kept ← keptRegisters fuel tree rest
      return if removable then kept else entry :: kept

def treeRemoveUselessRegisterLoops (fuel : Nat) (tree : IrsbTree) :
    Except Halt IrsbTree := do
  let kept ← keptRegisters fuel tree tree.regLoopDefs
  return { tree with regLoopDefs := kept }

/-- The node of a temporary whose assignment is gone is removed. -/
def correctTmp (tree : IrsbTree) (node : Option Nat) :
    Except Halt (Option Nat) :=
  match node with
  | none => return none
  | some idx =>
      match tree.irsb.stmts[idx]? with
      | none => .error .tlAssert
      | some (.wrTmp _ _) => return some idx
      | some _ => return none

def correctTmps (tree : IrsbTree) :
    List (Option Nat) → Except Halt (List (Option Nat))
  | [] => return []
  | node :: rest => do
      let node' ← correctTmp tree node
      let rest' ← correctTmps tree rest
      return node' :: rest'

def treeOptimiseAtomicAlias (tree : IrsbTree) : Except Halt IrsbTree := do
  let irsb ← irsbOptimiseAtomicAlias tree.irsb
  let tree' := { tree with irsb := irsb }
  let tstruct ← correctTmps tree' tree.tstruct
  return { tree' with tstruct := tstruct }

/-- One round of the loop over the temporaries. -/
def simplifyTmp (fuel : Nat) (state : IrsbTree × Bool) (tmp : Nat) :
    Except Halt (IrsbTree × Bool) :=
  match state.1.tstruct[tmp]? with
  | some (some _) => do
      let (tree, changed) ← treeSimplifyExpression addrBits fuel state.1 tmp
      return (tree, state.2 || changed)
  | _ => return state

def treeSimplify (fuel : Nat) (tree : IrsbTree) : Except Halt IrsbTree := do
  let (tree', hasChanged) ← (List.range tree.irsb.tyenv.length).foldlM
    (simplifyTmp addrBits fuel) ({ tree with wasSimplified := true }, false)
  if hasChanged then do
    let tree'' ← treeRemoveUselessRegisterLoops fuel tree'
    treeOptimiseAtomicAlias tree''
  else
    return tree'

end Simplification

end Dependency

end HelgrindPlus
