import HelgrindPlus.Dependency.ConstTest
import HelgrindPlus.Dependency.LoadDependencies
import HelgrindPlus.Dependency.SameExpression

/-!
# Loads that are replaced by stores

`tree_replaceLoadByMatchingStores` searches the block backwards, and around
its end, for a store to the address of a load, and lets the load read what was
stored.  At a store it first does the same for the loads that the address of
the store depends on.  Here `HG_(isConstTest)` is given for blocks with
stores.
-/

namespace HelgrindPlus

namespace Dependency

open Outcome

/-- Why the analysis of a block with stores stops: as that of other blocks, or
since the comparison of two addresses reads through a null pointer. -/
inductive SearchHalt where
  | halt (why : Halt)
  | nullPointer
  deriving DecidableEq, Repr

def analysis {α : Type} (computation : Except Halt α) :
    Except SearchHalt α :=
  computation.mapError .halt

/-- The tree, and for each load that was replaced the address that it had.
The source holds pointers to the statement and the address of a load while
other loads are replaced, which may replace the same load. -/
structure StoreSearch where
  tree : IrsbTree
  replaced : List (Nat × IRAtom)
  deriving DecidableEq, Repr

/-- What `ldAddr` points to. -/
def StoreSearch.loadAddr (search : StoreSearch) (loadStmtIdx : Nat) :
    Option IRAtom :=
  match search.tree.irsb.stmts[loadStmtIdx]? with
  | some (.wrTmp _ (.load _ _ addr)) => some addr
  | _ => search.replaced.lookup loadStmtIdx

/-- The assignment of what was stored, through the pointer to the statement:
if the load was replaced before, the statement is no longer in the block. -/
def StoreSearch.assign (search : StoreSearch) (loadStmtIdx : Nat)
    (data : IRAtom) : IrsbTree :=
  match search.tree.irsb.stmts[loadStmtIdx]? with
  | some (.wrTmp tmp (.load _ _ _)) =>
      { search.tree with irsb := ⟨search.tree.irsb.tyenv,
        search.tree.irsb.stmts.set loadStmtIdx (.wrTmp tmp (.atom data))⟩ }
  | _ => search.tree

namespace Stores

abbrev Replace :=
  StoreSearch → Nat → Except SearchHalt (StoreSearch × Bool)

section Search

variable (replace : Replace)

/-- The loop over the loads that a store depends on. -/
def replaceNeeded : List Nat → StoreSearch → Bool →
    Except SearchHalt (StoreSearch × Bool)
  | [], search, hasChanged => return (search, hasChanged)
  | loadIdx :: rest, search, hasChanged => do
      let (search', changed) ← replace search loadIdx
      replaceNeeded rest search' (hasChanged || changed)

/-- The loop that goes on while a load was replaced. -/
def repeatNeeded (stStmt : Nat) : Nat → StoreSearch → Bool →
    Except SearchHalt (StoreSearch × Bool)
  | 0, _, _ => .error (.halt .outOfFuel)
  | fuel + 1, search, found => do
      let (search', hasChanged) ← replaceNeeded replace
        (search.tree.addressProp stStmt).neededLoads search false
      if hasChanged then repeatNeeded stStmt fuel search' true
      else return (search', found)

/-- What is done once for each store that the search comes to. -/
def visitStore (fuel : Nat) (search : StoreSearch) (stStmt : Nat) :
    Except SearchHalt (StoreSearch × Bool) := do
  let addrP := search.tree.addressProp stStmt
  if addrP.replaceLoadByMatchingStoresDone then
    return (search, false)
  else do
    let tree ← analysis (treeBuildLoadDependencies fuel
      (search.tree.setAddressProp stStmt
        { addrP with replaceLoadByMatchingStoresDone := true }) stStmt)
    let search' := { search with tree := tree }
    if (tree.addressProp stStmt).neededLoads = [] then
      return (search', false)
    else
      repeatNeeded replace stStmt fuel search' false

/-- The comparison of a store with the load: whether the load was replaced,
and whether the search is over. -/
def matchStore (fuel : Nat) (search : StoreSearch) (loadStmtIdx tmp : Nat)
    (stStmt : Nat) : Except SearchHalt (StoreSearch × Bool × Bool) :=
  match search.tree.irsb.stmts[stStmt]?, search.loadAddr loadStmtIdx with
  | some (.store _ addr data), some ldAddr => do
      match ← analysis (treeIsSameAddress fuel search.tree addr ldAddr) with
      | .exhausted => .error .nullPointer
      | .different => return (search, false, false)
      | .same =>
          if data = .rdTmp tmp then return (search, false, true)
          else do
            let tree ← analysis
              (treeOptimiseAtomicAlias (search.assign loadStmtIdx data))
            return (⟨tree, (loadStmtIdx, ldAddr) :: search.replaced⟩, true,
              true)
  -- the statement stays a store, and a load that is gone was noted
  | _, _ => .error (.halt .tlAssert)

/-- The loop from the statement before the load backwards, and from the end
of the block down to the load. -/
def searchStores (loadStmtIdx tmp : Nat) : Nat → StoreSearch → Bool → Int →
    Except SearchHalt (StoreSearch × Bool)
  | 0, _, _, _ => .error (.halt .outOfFuel)
  | fuel + 1, search, found, stStmt =>
      if stStmt = loadStmtIdx then
        return (search, found)
      else
        let idx : Int :=
          if stStmt < 0 then search.tree.irsb.stmts.length - 1 else stStmt
        match search.tree.irsb.stmts[idx.toNat]? with
        | none => .error (.halt .tlAssert)
        | some (.store _ _ _) => do
            let (search₁, changed) ← visitStore replace fuel search idx.toNat
            let (search₂, matched, stop) ←
              matchStore fuel search₁ loadStmtIdx tmp idx.toNat
            if stop then return (search₂, found || changed || matched)
            else
              searchStores loadStmtIdx tmp fuel search₂
                (found || changed || matched) (idx - 1)
        | some _ => searchStores loadStmtIdx tmp fuel search found (idx - 1)

end Search

def replaceLoad : Nat → Replace
  | 0, _, _ => .error (.halt .outOfFuel)
  | fuel + 1, search, loadStmtIdx =>
      match search.tree.irsb.stmts[loadStmtIdx]? with
      | some (.wrTmp tmp (.load _ _ _)) =>
          searchStores (replaceLoad fuel) loadStmtIdx tmp fuel search false
            (loadStmtIdx - 1)
      | _ => return (search, false)

/-- The function that is called from the walk: no pointers are held then. -/
def treeReplaceLoadByMatchingStores (fuel : Nat) (tree : IrsbTree)
    (loadStmtIdx : Nat) : Except SearchHalt (IrsbTree × Bool) := do
  let (search, found) ← replaceLoad fuel ⟨tree, []⟩ loadStmtIdx
  return (search.tree, found)

def constTestLoop (testIndex : Nat) :
    Nat → IrsbTree → TreeIterator → Except SearchHalt IrsbTree
  | 0, _, _ => .error (.halt .outOfFuel)
  | fuel + 1, tree, iter => do
      let (iter', found) ← analysis (treeIteratorNext tree iter)
      match found with
      | none => return tree
      | some val =>
          match val.typ with
          | .expr => constTestLoop testIndex fuel tree iter'
          | .stmt => do
              let (tree', changed) ←
                treeReplaceLoadByMatchingStores fuel tree val.stmtIdx
              if changed then do
                let restarted ← analysis (treeIteratorNew tree' testIndex)
                constTestLoop testIndex fuel tree' restarted
              else
                constTestLoop testIndex fuel tree' iter'
          | .recurse | .error => return tree

def constTestSearch (fuel : Nat) (tree : IrsbTree) (testIndex : Nat) :
    Except SearchHalt (IrsbTree × Bool) := do
  let isRecursive ← analysis (treeIsRecurse tree testIndex)
  analysis (tlAssert (isRecursive ≥ 0))
  if isRecursive ≠ 0 then
    return (tree, false)
  else do
    let iter ← analysis (treeIteratorNew tree testIndex)
    let tree' ← constTestLoop testIndex fuel tree iter
    let isRecursive' ← analysis (treeIsRecurse tree' testIndex)
    analysis (tlAssert (isRecursive' ≥ 0))
    return (tree', isRecursive' = 0)

def isConstTest (addrBits fuel : Nat) (tree : IrsbTree) (testIndex : Nat) :
    Except SearchHalt (IrsbTree × Bool) :=
  match tree.irsb.stmts[testIndex]? with
  | some (.exit (.rdTmp _)) =>
      if tree.wasSimplified then
        constTestSearch fuel tree testIndex
      else do
        let tree' ← analysis (treeSimplify addrBits fuel tree)
        constTestSearch fuel tree' testIndex
  | _ => .error (.halt .tlAssert)

end Stores

end Dependency

end HelgrindPlus
