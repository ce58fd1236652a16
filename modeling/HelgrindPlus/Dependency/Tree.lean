import HelgrindPlus.Dependency.RedundantGets

/-!
# The tree of a block

`tree_init` notes for every temporary the statement that assigns it, and for
a register that is read the write whose value it has: the last one before, or,
since the block is the body of a loop, the last one of the block.
-/

namespace HelgrindPlus

namespace Dependency

open Outcome

/-- The function `VG_(addToFM)` for a map ordered by its keys. -/
def addToFM {α : Type} (key : Nat) (value : α) :
    List (Nat × α) → List (Nat × α)
  | [] => [(key, value)]
  | (key', value') :: rest =>
      if key < key' then (key, value) :: (key', value') :: rest
      else if key = key' then (key, value) :: rest
      else (key', value') :: addToFM key value rest

structure AddressProp where
  neededLoads : List Nat
  buildLoadDependenciesDone : Bool
  replaceLoadByMatchingStoresDone : Bool
  deriving DecidableEq, Repr

/-- The array `tstruct` has the statement that assigns a temporary, or nothing
where the source has `TREE_NODE_TMP_NONE`. -/
structure IrsbTree where
  irsb : IRSB
  tstruct : List (Option Nat)
  regLoopDefs : List (Nat × Nat)
  stmtAddressProps : List (Nat × AddressProp)
  wasSimplified : Bool
  deriving DecidableEq, Repr

def treeNodeTmp (tree : IrsbTree) (tmp : Nat) : Except Halt Nat :=
  match tree.tstruct[tmp]? with
  | some (some res) =>
      if res < tree.irsb.stmts.length then .ok res else .error .tlAssert
  | _ => .error .tlAssert

/-- The function `_treeNode_regKey`. -/
def treeNodeRegKey : Nat → IRType → Except Halt Nat := mkKeyGetPut

def treeNodeRegOffset (regWithOffset : Nat) : Nat :=
  (regWithOffset >>> 16) &&& 0xFFFF

def treeNodeRegister (tree : IrsbTree) (offset : Nat) (ty : IRType) :
    Except Halt (Option Nat) := do
  let key ← treeNodeRegKey offset ty
  return tree.regLoopDefs.lookup key

structure BuildTmp where
  started : Bool
  x86busLocked : Bool
  isSnoopedStore : Bool
  tstruct : List (Option Nat)

def buildTmpEvent (build : BuildTmp) : IRMBusEvent → Except Halt BuildTmp
  | .fence => return build
  | .busLock => do
      tlAssert (build.x86busLocked = false)
      return { build with x86busLocked := true }
  | .busUnlock => do
      tlAssert (build.x86busLocked = true)
      return { build with x86busLocked := false }
  | .snoopedStoreBegin => do
      tlAssert (build.isSnoopedStore = false)
      return { build with isSnoopedStore := true }
  | .snoopedStoreEnd => do
      tlAssert (build.isSnoopedStore = true)
      return { build with isSnoopedStore := false }

/-- A statement from the first mark on.  Stores of atomic instructions are
removed. -/
def buildTmpBody (build : BuildTmp) (i : Nat) :
    IRStmt → Except Halt (BuildTmp × IRStmt)
  | .mbe event => do
      let build ← buildTmpEvent build event
      return (build, .mbe event)
  | .store endness addr data =>
      return (build,
        if build.x86busLocked || build.isSnoopedStore then .comment
        else .store endness addr data)
  | .wrTmp tmp data =>
      return ({ build with tstruct := build.tstruct.set tmp (some i) },
        .wrTmp tmp data)
  | .exit (.rdTmp guard) => return (build, .exit (.rdTmp guard))
  | .exit (.const _) => .error .tlAssert
  | st => return (build, st)

def buildTmpStmt (build : BuildTmp) (i : Nat) (st : IRStmt) :
    Except Halt (BuildTmp × IRStmt) :=
  match st with
  | .iMark _ _ => return ({ build with started := true }, st)
  | _ => if build.started then buildTmpBody build i st else return (build, st)

def buildTmpStmts : BuildTmp → Nat → List IRStmt →
    Except Halt (BuildTmp × List IRStmt)
  | build, _, [] => return (build, [])
  | build, i, st :: rest => do
      let (build', st') ← buildTmpStmt build i st
      let (build'', rest') ← buildTmpStmts build' (i + 1) rest
      return (build'', st' :: rest')

structure BuildRegister where
  lastPuts : List (Nat × Nat)
  getsTodo : List (Nat × IRType)
  regLoopDefs : List (Nat × Nat)

def treeNodeAddRegister (regLoopDefs : List (Nat × Nat)) (offset : Nat)
    (ty : IRType) (stmtIdx : Nat) : Except Halt (List (Nat × Nat)) := do
  let key ← treeNodeRegKey offset ty
  return addToFM key stmtIdx regLoopDefs

def buildRegisterStmt (build : BuildRegister) (i : Nat) :
    IRStmt → Except Halt BuildRegister
  | .put offset _ =>
      return { build with lastPuts := addToFM offset i build.lastPuts }
  | .wrTmp _ (.get offset ty) =>
      match build.lastPuts.lookup offset with
      | some stmt => do
          let defs ← treeNodeAddRegister build.regLoopDefs offset ty stmt
          return { build with regLoopDefs := defs }
      | none =>
          return { build with getsTodo := addToFM offset ty build.getsTodo }
  | _ => return build

def buildRegisterStmts : BuildRegister → Nat → List IRStmt →
    Except Halt BuildRegister
  | build, _, [] => return build
  | build, i, st :: rest => do
      let build' ← buildRegisterStmt build i st
      buildRegisterStmts build' (i + 1) rest

/-- The reads before any write get the last write of the block. -/
def buildRegisterTodo (lastPuts : List (Nat × Nat))
    (regLoopDefs : List (Nat × Nat)) (todo : Nat × IRType) :
    Except Halt (List (Nat × Nat)) :=
  match lastPuts.lookup todo.1 with
  | some stmt => treeNodeAddRegister regLoopDefs todo.1 todo.2 stmt
  | none => return regLoopDefs

/-- The function `_tree_buildRegister`, with its scan from the first
statement on. -/
def treeBuildRegister (irsb : IRSB) : Except Halt (List (Nat × Nat)) := do
  let build ← buildRegisterStmts ⟨[], [], []⟩ 0 irsb.stmts
  build.getsTodo.foldlM (buildRegisterTodo build.lastPuts) build.regLoopDefs

def treeInit (bbIn : IRSB) : Except Halt IrsbTree := do
  let (build, stmts) ← buildTmpStmts
    ⟨false, false, false, List.replicate bbIn.tyenv.length none⟩ 0 bbIn.stmts
  let irsb : IRSB := { bbIn with stmts := stmts }
  let regLoopDefs ← treeBuildRegister irsb
  return ⟨irsb, build.tstruct, regLoopDefs, [], false⟩

end Dependency

end HelgrindPlus
