import HelgrindPlus.Dependency.Walk

/-!
# The loads that a statement depends on

`tree_buildLoadDependencies` walks back from a statement and notes the loads
it comes to, each for the load it was reached through.  The addresses of the
instructions are handed out in an array that ends with a zero, from which
`mark_spin_reads_SCH` takes the dependencies of an exit.
-/

namespace HelgrindPlus

namespace Dependency

open Outcome

def addressPropNew : AddressProp := ⟨[], false, false⟩

namespace IrsbTree

/-- The function `treeNode_get_AddressProp`. -/
def addressProp (tree : IrsbTree) (stmtIdx : Nat) : AddressProp :=
  (tree.stmtAddressProps.lookup stmtIdx).getD addressPropNew

def setAddressProp (tree : IrsbTree) (stmtIdx : Nat) (prop : AddressProp) :
    IrsbTree :=
  { tree with stmtAddressProps := addToFM stmtIdx prop tree.stmtAddressProps }

end IrsbTree

/-- The functions `VG_(OSetWord_Contains)` and `VG_(OSetWord_Insert)`: the
words of a set are in ascending order. -/
def insertWord (word : Nat) : List Nat → List Nat
  | [] => [word]
  | first :: rest =>
      if word < first then word :: first :: rest
      else if word = first then first :: rest
      else first :: insertWord word rest

def addressPropAddLoadDepend (tree : IrsbTree) (stmtIdx loadIdx : Nat) :
    IrsbTree :=
  let prop := tree.addressProp stmtIdx
  tree.setAddressProp stmtIdx
    { prop with neededLoads := insertWord loadIdx prop.neededLoads }

/-- A load on the way to the value that the walk is at.  The entry for the
statement that the walk starts at has the depth -1 in the source, and is
never taken off. -/
structure LoadOnPath where
  stmtIdx : Nat
  depth : Nat
  deriving DecidableEq, Repr

def popLoads (curDepth : Nat) : List LoadOnPath → List LoadOnPath
  | [] => []
  | load :: rest =>
      if curDepth ≤ load.depth then popLoads curDepth rest else load :: rest

/-- What notes the loads that are found now. -/
def noteFor (root : Nat) : List LoadOnPath → Nat
  | [] => root
  | load :: _ => load.stmtIdx

def loadDependenciesLoop (root : Nat) :
    Nat → IrsbTree → TreeIterator → List LoadOnPath → Except Halt IrsbTree
  | 0, _, _, _ => .error .outOfFuel
  | fuel + 1, tree, iter, loads => do
      let (iter', found) ← treeIteratorNext tree iter
      match found with
      | none => return tree
      | some val =>
          let loads' := popLoads val.curDepth loads
          match val.typ with
          | .expr =>
              match val.expr with
              | some (.load _ _ _) =>
                  loadDependenciesLoop root fuel
                    (addressPropAddLoadDepend tree (noteFor root loads')
                      val.stmtIdx)
                    iter' (⟨val.stmtIdx, val.curDepth⟩ :: loads')
              | _ => loadDependenciesLoop root fuel tree iter' loads'
          | .stmt =>
              match tree.irsb.stmts[val.stmtIdx]? with
              | some (.store _ _ _) =>
                  -- the data is not needed to know where the store goes
                  loadDependenciesLoop root fuel tree
                    (treeIteratorSkip iter' (some 1)) loads'
              | _ => loadDependenciesLoop root fuel tree iter' loads'
          | .recurse | .error => return tree

def treeBuildLoadDependencies (fuel : Nat) (tree : IrsbTree)
    (stmtIdx : Nat) : Except Halt IrsbTree := do
  let iter ← treeIteratorNew tree stmtIdx
  let prop := tree.addressProp stmtIdx
  if prop.buildLoadDependenciesDone then
    return tree
  else
    loadDependenciesLoop stmtIdx fuel
      (tree.setAddressProp stmtIdx
        { prop with buildLoadDependenciesDone := true })
      iter []

/-- The address of the instruction that a statement belongs to: that of the
last mark up to it. -/
def instructionAddress (stmts : List IRStmt) : Nat → Option Nat
  | 0 =>
      match (stmts[0]? : Option IRStmt) with
      | some (.iMark addr _) => some addr
      | _ => none
  | i + 1 =>
      match (stmts[i + 1]? : Option IRStmt) with
      | some (.iMark addr _) => some addr
      | _ => instructionAddress stmts i

/-- The loop of `HG_(getDependendLoadAddresses)`.  When the array is full, its
last entry is given up for the zero. -/
def collectAddresses (stmts : List IRStmt) (maxSize : Nat) :
    List Nat → List Nat → List Nat
  | [], addresses => addresses
  | load :: rest, addresses =>
      let addresses' :=
        addresses ++ (instructionAddress stmts load).toList
      if addresses'.length = maxSize then addresses'.dropLast
      else collectAddresses stmts maxSize rest addresses'

/-- The entries of the array that are written. -/
def getDependendLoadAddresses (fuel : Nat) (tree : IrsbTree)
    (stmtIdx maxSize : Nat) : Except Halt (IrsbTree × List Nat) := do
  let tree' ← treeBuildLoadDependencies fuel tree stmtIdx
  let addresses := collectAddresses tree'.irsb.stmts maxSize
    (tree'.addressProp stmtIdx).neededLoads []
  return (tree', addresses ++ [0])

/-- The loop of `mark_spin_reads_SCH` over the array, and where it ends. -/
def recordLoop (maxAddr : Nat) :
    Nat → List Nat → List Nat → Nat × List Nat
  | j, [], dependencies => (j, dependencies)
  | j, address :: rest, dependencies =>
      if j < maxAddr ∧ address ≠ 0 then
        recordLoop maxAddr (j + 1) rest (dependencies ++ [address])
      else (j, dependencies)

def maxAddr : Nat := 20

/-- What `mark_spin_reads_SCH` does with an exit whose test is constant: the
dependencies it notes, and whether it takes the exit for a spin. -/
def markSpinReads (fuel : Nat) (tree : IrsbTree) (i : Nat)
    (dependencies : List Nat) :
    Except Halt (IrsbTree × List Nat × Bool) := do
  let (tree', loadAddr) ← getDependendLoadAddresses fuel tree i maxAddr
  if loadAddr.head? = some 0 then
    return (tree', dependencies, false)
  else do
    let (j, dependencies') := recordLoop maxAddr 0 loadAddr dependencies
    tlAssert (j < maxAddr)
    return (tree', dependencies', true)

end Dependency

end HelgrindPlus
