import HelgrindPlus.Dependency.OptimiseFast
import Mathlib.Data.List.Basic

/-!
# Concatenation of blocks

`HG_(concat_irsb)` appends the instructions of a block to those of the blocks
before it, and gives every temporary that they assign a new number.  Indexed
accesses to the guest state and hints are appended as they are.
-/

namespace HelgrindPlus

namespace Dependency

open Outcome Bytes

/-- The array `tyMap`, with nothing where the source has `(IRTemp)-1`. -/
abbrev TyMap := Nat → Option Nat

def atomRename (tyMap : TyMap) : IRAtom → Except Halt IRAtom
  | .rdTmp tmp =>
      match tyMap tmp with
      | some newTmp => .ok (.rdTmp newTmp)
      | none => .error .tlAssert
  | .const con => .ok (.const con)

/-- The function `_concat_irsb_exprRename`. -/
def exprRename (tyMap : TyMap) : IRExpr → Except Halt IRExpr
  | .get offset ty => return .get offset ty
  | .getI descr ix bias => return .getI descr ix bias
  | .atom operand => return .atom (← atomRename tyMap operand)
  | .qop op arg1 arg2 arg3 arg4 =>
      return .qop op (← atomRename tyMap arg1) (← atomRename tyMap arg2)
        (← atomRename tyMap arg3) (← atomRename tyMap arg4)
  | .triop op arg1 arg2 arg3 =>
      return .triop op (← atomRename tyMap arg1) (← atomRename tyMap arg2)
        (← atomRename tyMap arg3)
  | .binop op arg1 arg2 =>
      return .binop op (← atomRename tyMap arg1) (← atomRename tyMap arg2)
  | .unop op arg => return .unop op (← atomRename tyMap arg)
  | .load endness ty addr => return .load endness ty (← atomRename tyMap addr)
  | .ccall cee retty args =>
      return .ccall cee retty (← args.mapM (atomRename tyMap))
  | .mux0X cond expr0 exprX =>
      return .mux0X (← atomRename tyMap cond) (← atomRename tyMap expr0)
        (← atomRename tyMap exprX)

/-- A range of guest code; the block has the code of one to three. -/
structure GuestExtent where
  base : Nat
  len : Nat
  deriving DecidableEq, Repr

structure ConcatState where
  tyenv : List IRType
  stmts : List IRStmt
  tyMap : TyMap
  currentBasicBlock : Nat

namespace ConcatState

def addStmt (state : ConcatState) (st : IRStmt) : ConcatState :=
  { state with stmts := state.stmts ++ [st] }

/-- The function `newIRTemp`, with the entry of `tyMap` for the temporary that
it stands for. -/
def newTmp (state : ConcatState) (tyenvIn : List IRType) (origTmp : Nat) :
    Except Halt (ConcatState × Nat) := do
  let ty ← typeOfIRAtom tyenvIn (.rdTmp origTmp)
  let newTmp := state.tyenv.length
  return ({ state with
    tyenv := state.tyenv ++ [ty]
    tyMap := Function.update state.tyMap origTmp (some newTmp) }, newTmp)

end ConcatState

section Concat

variable (skipAddr : Nat) (vge : List GuestExtent)

/-- An instruction at which the rest of the block is left out. -/
def skipsAt (currentBasicBlock addr : Nat) : Bool :=
  skipAddr = addr ∨ vge.length ≤ currentBasicBlock

/-- The basic block after the instruction. -/
def nextBasicBlock (currentBasicBlock addr len : Nat) : Nat :=
  match vge[currentBasicBlock]? with
  | some extent =>
      if (addr + len) % 2 ^ 64 = (extent.base + extent.len) % 2 ^ 64 then
        currentBasicBlock + 1
      else
        currentBasicBlock
  | none => currentBasicBlock

/-- The statements other than marks. -/
def concatStmt (tyenvIn : List IRType) (state : ConcatState) :
    IRStmt → Except Halt ConcatState
  | .wrTmp tmp data => do
      let (state', newTmp) ← state.newTmp tyenvIn tmp
      let data' ← exprRename state'.tyMap data
      return state'.addStmt (.wrTmp newTmp data')
  | .dirty details =>
      match details.tmp with
      | some tmp => do
          let (state', newTmp) ← state.newTmp tyenvIn tmp
          return state'.addStmt (.wrTmp newTmp (.atom (.const (.U1 false))))
      | none => return state.addStmt (.dirty details)
  | .store endness addr data => do
      let addr' ← atomRename state.tyMap addr
      let data' ← atomRename state.tyMap data
      return state.addStmt (.store endness addr' data')
  | .put offset data => do
      let data' ← atomRename state.tyMap data
      return state.addStmt (.put offset data')
  | .exit (.rdTmp guard) => do
      let guard' ← atomRename state.tyMap (.rdTmp guard)
      return state.addStmt (.exit guard')
  | .exit (.const _) => .error .tlAssert
  | st => return state.addStmt st

/-- The loop over the statements, which ends before a mark at which the rest
is left out and then returns it. -/
def concatStmts (tyenvIn : List IRType) :
    ConcatState → List IRStmt → Except Halt (ConcatState × Option IRStmt)
  | state, [] => return (state, none)
  | state, .iMark addr len :: rest =>
      if skipsAt skipAddr vge state.currentBasicBlock addr then
        return (state, some (.iMark addr len))
      else
        concatStmts tyenvIn
          { state.addStmt (.iMark addr len) with
            currentBasicBlock :=
              nextBasicBlock vge state.currentBasicBlock addr len } rest
  | state, st :: rest => do
      let state' ← concatStmt tyenvIn state st
      concatStmts tyenvIn state' rest

/-- The mark between two blocks: the address of the second, and the length -1
as a number of 32 bits. -/
def separator (bbInAddr : Nat) (bbOut : IRSB) : List IRStmt :=
  if bbOut.stmts.isEmpty then [] else [.iMark bbInAddr 0xFFFFFFFF]

/-- The statements before the first mark are left out. -/
def fromFirstMark (stmts : List IRStmt) : List IRStmt :=
  stmts.dropWhile fun st =>
    match st with
    | .iMark _ _ => false
    | _ => true

/-- What follows the instructions.  For a target in a temporary the comment
is made twice. -/
def concatTail (skipped : Option IRStmt) (next : IRAtom) (fooNext : Nat) :
    List IRStmt :=
  (match skipped with
    | some st => [.comment, st]
    | none => []) ++
  [.comment,
    match next with
    | .rdTmp _ => .comment
    | .const con => .wrTmp fooNext (.atom (.const con)),
    .comment]

/-- The function `HG_(concat_irsb)` for the block `bbIn` at the address
`bbInAddr` that is left to `next`. -/
def concatIrsb (bbInAddr : Nat) (bbIn : IRSB) (next : IRAtom) (bbOut : IRSB) :
    Except Halt IRSB := do
  let (state, skipped) ← concatStmts skipAddr vge bbIn.tyenv
    ⟨bbOut.tyenv, bbOut.stmts ++ separator bbInAddr bbOut, fun _ => none, 0⟩
    (fromFirstMark bbIn.stmts)
  let ty ← typeOfIRAtom bbIn.tyenv next
  return ⟨state.tyenv ++ [ty],
    state.stmts ++ concatTail skipped next state.tyenv.length⟩

/-- The statements up to the mark at which the rest is left out. -/
def truncated : Nat → List IRStmt → List IRStmt
  | _, [] => []
  | currentBasicBlock, .iMark addr len :: rest =>
      if skipsAt skipAddr vge currentBasicBlock addr then
        []
      else
        .iMark addr len ::
          truncated (nextBasicBlock vge currentBasicBlock addr len) rest
  | currentBasicBlock, st :: rest => st :: truncated currentBasicBlock rest

/-- The part of a block that is appended. -/
def concatPart (bbIn : IRSB) : List IRStmt :=
  truncated skipAddr vge 0 (fromFirstMark bbIn.stmts)

end Concat

section Renaming

variable (names : Nat → Nat)

def IRAtom.rename : IRAtom → IRAtom
  | rdTmp tmp => rdTmp (names tmp)
  | const con => const con

def IRExpr.rename : IRExpr → IRExpr
  | get offset ty => get offset ty
  | getI descr ix bias => getI descr (ix.rename names) bias
  | atom operand => atom (operand.rename names)
  | qop op arg1 arg2 arg3 arg4 =>
      qop op (arg1.rename names) (arg2.rename names) (arg3.rename names)
        (arg4.rename names)
  | triop op arg1 arg2 arg3 =>
      triop op (arg1.rename names) (arg2.rename names) (arg3.rename names)
  | binop op arg1 arg2 =>
      binop op (arg1.rename names) (arg2.rename names)
  | unop op arg => unop op (arg.rename names)
  | load endness ty addr => load endness ty (addr.rename names)
  | ccall cee retty args => ccall cee retty (args.map (IRAtom.rename names))
  | mux0X cond expr0 exprX =>
      mux0X (cond.rename names) (expr0.rename names) (exprX.rename names)

/-- Every temporary of the statement is renamed.  There is no call of a helper
for its effect in the blocks considered here. -/
def IRStmt.rename : IRStmt → IRStmt
  | abiHint base len nia =>
      abiHint (base.rename names) len (nia.rename names)
  | put offset data => put offset (data.rename names)
  | putI descr ix bias data =>
      putI descr (ix.rename names) bias (data.rename names)
  | wrTmp tmp data => wrTmp (names tmp) (data.rename names)
  | store endness addr data =>
      store endness (addr.rename names) (data.rename names)
  | exit guard => exit (guard.rename names)
  | st => st

/-- As `rename`, but indexed reads are kept. -/
def IRExpr.renameDirect : IRExpr → IRExpr
  | getI descr ix bias => getI descr ix bias
  | data => data.rename names

/-- What is appended for the statement. -/
def IRStmt.renameDirect : IRStmt → IRStmt
  | abiHint base len nia => abiHint base len nia
  | putI descr ix bias data => putI descr ix bias data
  | wrTmp tmp data => wrTmp (names tmp) (data.renameDirect names)
  | st => st.rename names

end Renaming

/-- The temporaries that are read by what is appended as it is. -/
def IRStmt.keptReads : IRStmt → List Nat
  | abiHint base _ nia => base.tmps ++ nia.tmps
  | putI _ ix _ data => ix.tmps ++ data.tmps
  | wrTmp _ (.getI _ ix _) => ix.tmps
  | _ => []

/-- The temporaries that are looked up in `tyMap`. -/
def IRStmt.renamedReads : IRStmt → List Nat
  | abiHint _ _ _ | putI _ _ _ _ | wrTmp _ (.getI _ _ _) => []
  | st => st.reads

section Appending

/-- What `tyMap` has for the temporaries that are assigned already. -/
def MapsTo (tyMap : TyMap) (names : Nat → Nat) (assigned : List Nat) : Prop :=
  ∀ tmp, tyMap tmp = if tmp ∈ assigned then some (names tmp) else none

variable {tyMap : TyMap} {names : Nat → Nat} {assigned : List Nat}

theorem MapsTo.atomRename_eq_ok (maps : MapsTo tyMap names assigned)
    {atom atom' : IRAtom} :
    atomRename tyMap atom = .ok atom' ↔
      atom' = atom.rename names ∧ ∀ tmp ∈ atom.tmps, tmp ∈ assigned := by
  cases atom with
  | rdTmp tmp =>
      simp only [atomRename, maps tmp, IRAtom.tmps, IRAtom.rename]
      split <;> simp_all [eq_comm]
  | const con => simp [atomRename, IRAtom.tmps, IRAtom.rename, eq_comm]

theorem MapsTo.atomsRename_eq_ok (maps : MapsTo tyMap names assigned)
    {args args' : List IRAtom} :
    args.mapM (atomRename tyMap) = .ok args' ↔
      args' = args.map (IRAtom.rename names) ∧
        ∀ tmp ∈ args.flatMap IRAtom.tmps, tmp ∈ assigned := by
  induction args generalizing args' with
  | nil => simp [pure, Except.pure, eq_comm]
  | cons arg rest induction =>
      rw [List.mapM_cons]
      simp only [bind_eq_ok, maps.atomRename_eq_ok, induction]
      constructor
      · rintro ⟨_, ⟨rfl, first⟩, _, ⟨rfl, later⟩, ⟨⟩⟩
        refine ⟨rfl, fun tmp member => ?_⟩
        rw [List.flatMap_cons, List.mem_append] at member
        exact member.elim (first tmp) (later tmp)
      · rintro ⟨rfl, each⟩
        simp only [List.flatMap_cons, List.mem_append] at each
        exact ⟨_, ⟨rfl, fun tmp member => each tmp (.inl member)⟩, _,
          ⟨rfl, fun tmp member => each tmp (.inr member)⟩, rfl⟩

/-- The temporaries of an expression that are looked up. -/
def IRExpr.renamedTmps : IRExpr → List Nat
  | getI _ _ _ => []
  | data => data.tmps

theorem MapsTo.exprRename_eq_ok (maps : MapsTo tyMap names assigned)
    {data data' : IRExpr} :
    exprRename tyMap data = .ok data' ↔
      data' = data.renameDirect names ∧
        ∀ tmp ∈ data.renamedTmps, tmp ∈ assigned := by
  cases data <;>
    simp only [exprRename, bind_eq_ok, maps.atomRename_eq_ok,
      maps.atomsRename_eq_ok, IRExpr.renameDirect, IRExpr.rename,
      IRExpr.renamedTmps, IRExpr.tmps, List.mem_append, or_imp, forall_and,
      and_assoc, exists_eq_left, pure, Except.pure, Except.ok.injEq,
      @eq_comm _ data'] <;>
    tauto

/-- No call of a helper for its effect. -/
def IRStmt.pure : IRStmt → Bool
  | dirty _ | comment => false
  | _ => true

/-- The statement passes the assertions if the temporaries of `assigned` have
new names. -/
structure Checked (assigned : List Nat) (st : IRStmt) : Prop where
  guard : ∀ con, st ≠ .exit (.const con)
  reads : ∀ tmp ∈ st.renamedReads, tmp ∈ assigned

/-- The statements `done` have been appended to `start`. -/
structure Appended (tyenvIn : List IRType) (base : Nat) (start : List IRStmt)
    (names : Nat → Nat) (done : List IRStmt) (state : ConcatState) :
    Prop where
  stmts : state.stmts = start ++ done.map (IRStmt.renameDirect names)
  maps : MapsTo state.tyMap names (definedBy done)
  types : ∀ tmp ∈ definedBy done, ∃ ty,
    tyenvIn[tmp]? = some ty ∧ state.tyenv[names tmp]? = some ty
  length : state.tyenv.length = base + (definedBy done).length

section Step

variable {tyenvIn : List IRType} {base : Nat} {start : List IRStmt}
  {done : List IRStmt} {state state' : ConcatState} {st : IRStmt}

theorem definedBy_append (stmts stmts' : List IRStmt) :
    definedBy (stmts ++ stmts') = definedBy stmts ++ definedBy stmts' := by
  simp [definedBy]

theorem Appended.addStmt
    (appended : Appended tyenvIn base start names done state)
    (defines : st.defines = none) :
    Appended tyenvIn base start names (done ++ [st])
      (state.addStmt (st.renameDirect names)) := by
  have same : definedBy (done ++ [st]) = definedBy done := by
    simp [definedBy, defines]
  refine ⟨?_, ?_, ?_, ?_⟩
  · simp [ConcatState.addStmt, appended.stmts]
  · rw [same]
    exact appended.maps
  · rw [same]
    exact appended.types
  · rw [same]
    exact appended.length

theorem Appended.mark
    (appended : Appended tyenvIn base start names done state)
    (addr len currentBasicBlock : Nat) :
    Appended tyenvIn base start names (done ++ [.iMark addr len])
      { state.addStmt (.iMark addr len) with
        currentBasicBlock := currentBasicBlock } := by
  have added : Appended tyenvIn base start names (done ++ [.iMark addr len])
      (state.addStmt (.iMark addr len)) := appended.addStmt rfl
  exact ⟨added.stmts, added.maps, added.types, added.length⟩

/-- The new temporary of an assignment. -/
theorem newTmp_spec (appended : Appended tyenvIn base start names done state)
    {tmp : Nat} {data : IRExpr} (declared : tmp < tyenvIn.length)
    (fresh : tmp ∉ definedBy done) (name : names tmp = state.tyenv.length) :
    ∃ state', state.newTmp tyenvIn tmp = .ok (state', names tmp) ∧
      MapsTo state'.tyMap names (definedBy (done ++ [.wrTmp tmp data])) ∧
      state'.currentBasicBlock = state.currentBasicBlock ∧
      Appended tyenvIn base start names (done ++ [.wrTmp tmp data])
        (state'.addStmt (.wrTmp (names tmp) (data.renameDirect names))) := by
  have typed : typeOfIRAtom tyenvIn (.rdTmp tmp) = .ok tyenvIn[tmp] := by
    simp [typeOfIRAtom, declared]
  have more : definedBy (done ++ [.wrTmp tmp data]) =
      definedBy done ++ [tmp] := by
    rw [definedBy_append]
    rfl
  have maps : MapsTo (Function.update state.tyMap tmp (some (names tmp))) names
      (definedBy (done ++ [.wrTmp tmp data])) := by
    intro tmp'
    rw [more]
    by_cases same : tmp' = tmp
    · subst same
      simp
    · rw [Function.update_of_ne same, appended.maps tmp']
      simp [same]
  refine ⟨{ state with
      tyenv := state.tyenv ++ [tyenvIn[tmp]]
      tyMap := Function.update state.tyMap tmp (some (names tmp)) },
    ?_, maps, rfl, ?_, maps, ?_, ?_⟩
  · simp only [ConcatState.newTmp, typed, ok_bind, name]
    rfl
  · simp [ConcatState.addStmt, appended.stmts, IRStmt.renameDirect]
  · intro tmp' member
    rw [more, List.mem_append, List.mem_singleton] at member
    obtain earlier | rfl := member
    · obtain ⟨ty, declared', named⟩ := appended.types tmp' earlier
      have bound := (List.getElem?_eq_some_iff.mp named).1
      refine ⟨ty, declared', ?_⟩
      rw [ConcatState.addStmt, List.getElem?_append_left bound, named]
    · exact ⟨tyenvIn[tmp'], List.getElem?_eq_getElem declared,
        by simp [ConcatState.addStmt, name]⟩
  · simp only [ConcatState.addStmt, more, List.length_append,
      List.length_singleton, appended.length]
    omega

/-- A temporary that the statement assigns is assigned for the first time and
gets the next name. -/
def NewAt (tyenvIn : List IRType) (names : Nat → Nat) (done : List IRStmt)
    (state : ConcatState) (st : IRStmt) : Prop :=
  ∀ tmp ∈ st.defines.toList, tmp < tyenvIn.length ∧ tmp ∉ definedBy done ∧
    names tmp = state.tyenv.length

theorem definedBy_concat_none (defines : st.defines = none) :
    definedBy (done ++ [st]) = definedBy done := by
  simp [definedBy, defines]

private theorem concatStmt_appended
    (appended : Appended tyenvIn base start names done state)
    (pure : st.pure) (new : NewAt tyenvIn names done state st)
    (returned : concatStmt tyenvIn state st = .ok state') :
    Checked (definedBy (done ++ [st])) st ∧
      Appended tyenvIn base start names (done ++ [st]) state' ∧
      state'.currentBasicBlock = state.currentBasicBlock := by
  have atom : ∀ {atom atom' : IRAtom}, atomRename state.tyMap atom = .ok atom' ↔
      atom' = atom.rename names ∧ ∀ tmp ∈ atom.tmps, tmp ∈ definedBy done :=
    appended.maps.atomRename_eq_ok
  cases st with
  | wrTmp tmp data =>
      obtain ⟨declared, fresh, name⟩ := new tmp (by simp [IRStmt.defines])
      obtain ⟨state₁, allocated, maps, same, extended⟩ :=
        @newTmp_spec _ _ _ _ _ _ appended tmp data declared fresh name
      simp only [concatStmt, allocated, ok_bind] at returned
      obtain ⟨data', renamed, returned⟩ := bind_eq_ok.mp returned
      obtain ⟨rfl, reads⟩ := maps.exprRename_eq_ok.mp renamed
      cases returned
      refine ⟨⟨fun con same => (by cases same), ?_⟩, extended, same⟩
      cases data <;> exact reads
  | store endness addr data =>
      obtain ⟨addr', first, returned⟩ := bind_eq_ok.mp returned
      obtain ⟨data', second, returned⟩ := bind_eq_ok.mp returned
      obtain ⟨rfl, readsAddr⟩ := atom.mp first
      obtain ⟨rfl, readsData⟩ := atom.mp second
      cases returned
      refine ⟨⟨fun con same => (by cases same), ?_⟩, appended.addStmt rfl, rfl⟩
      intro tmp member
      rw [definedBy_concat_none rfl]
      exact (List.mem_append.mp member).elim (readsAddr tmp) (readsData tmp)
  | put offset data =>
      obtain ⟨data', renamed, returned⟩ := bind_eq_ok.mp returned
      obtain ⟨rfl, reads⟩ := atom.mp renamed
      cases returned
      refine ⟨⟨fun con same => (by cases same), ?_⟩, appended.addStmt rfl, rfl⟩
      rw [definedBy_concat_none rfl]
      exact reads
  | exit guard =>
      cases guard with
      | const con => cases returned
      | rdTmp tmp =>
          obtain ⟨guard', renamed, returned⟩ := bind_eq_ok.mp returned
          obtain ⟨rfl, reads⟩ := atom.mp renamed
          cases returned
          refine ⟨⟨fun con same => (by cases same), ?_⟩, appended.addStmt rfl, rfl⟩
          rw [definedBy_concat_none rfl]
          exact reads
  | dirty details => cases pure
  | comment => cases pure
  | _ =>
      cases returned
      refine ⟨⟨fun con same => (by cases same), fun tmp member => ?_⟩,
        appended.addStmt rfl, rfl⟩
      cases member

private theorem concatStmt_returns
    (appended : Appended tyenvIn base start names done state)
    (pure : st.pure) (new : NewAt tyenvIn names done state st)
    (checked : Checked (definedBy (done ++ [st])) st) :
    ∃ state', concatStmt tyenvIn state st = .ok state' := by
  have atom : ∀ {atom : IRAtom},
      (∀ tmp ∈ atom.tmps, tmp ∈ definedBy done) →
      atomRename state.tyMap atom = .ok (atom.rename names) :=
    fun reads => appended.maps.atomRename_eq_ok.mpr ⟨rfl, reads⟩
  obtain ⟨guarded, reads⟩ := checked
  cases st with
  | wrTmp tmp data =>
      obtain ⟨declared, fresh, name⟩ := new tmp (by simp [IRStmt.defines])
      obtain ⟨state₁, allocated, maps, same, extended⟩ :=
        @newTmp_spec _ _ _ _ _ _ appended tmp data declared fresh name
      have renamed : exprRename state₁.tyMap data =
          .ok (data.renameDirect names) := by
        apply maps.exprRename_eq_ok.mpr
        refine ⟨rfl, ?_⟩
        cases data <;> exact reads
      exact ⟨_, by simp only [concatStmt, allocated, ok_bind, renamed]; rfl⟩
  | store endness addr data =>
      rw [definedBy_concat_none rfl] at reads
      have first := @atom addr fun tmp member =>
        reads tmp (List.mem_append.mpr (.inl member))
      have second := @atom data fun tmp member =>
        reads tmp (List.mem_append.mpr (.inr member))
      exact ⟨_, by simp only [concatStmt, first, second, ok_bind]; rfl⟩
  | put offset data =>
      rw [definedBy_concat_none rfl] at reads
      exact ⟨_, by simp only [concatStmt, @atom data reads, ok_bind]; rfl⟩
  | exit guard =>
      cases guard with
      | const con => exact (guarded con rfl).elim
      | rdTmp tmp =>
          rw [definedBy_concat_none rfl] at reads
          exact ⟨_, by
            simp only [concatStmt, @atom (.rdTmp tmp) reads, ok_bind]; rfl⟩
  | dirty details => cases pure
  | comment => cases pure
  | _ => exact ⟨_, rfl⟩

variable {skipAddr : Nat} {vge : List GuestExtent}

private theorem concatStmts_cons (noMark : ∀ addr len, st ≠ .iMark addr len)
    (rest : List IRStmt) :
    concatStmts skipAddr vge tyenvIn state (st :: rest) =
      (concatStmt tyenvIn state st >>= fun state' =>
        concatStmts skipAddr vge tyenvIn state' rest) := by
  cases st with
  | iMark addr len => exact (noMark addr len rfl).elim
  | _ => rfl

theorem truncated_cons (noMark : ∀ addr len, st ≠ .iMark addr len)
    (currentBasicBlock : Nat) (rest : List IRStmt) :
    truncated skipAddr vge currentBasicBlock (st :: rest) =
      st :: truncated skipAddr vge currentBasicBlock rest := by
  cases st with
  | iMark addr len => exact (noMark addr len rfl).elim
  | _ => rfl

/-- The statements of the rest pass the assertions, each with the temporaries
assigned up to it. -/
def CheckedFrom : List IRStmt → List IRStmt → Prop
  | _, [] => True
  | done, st :: rest =>
      Checked (definedBy (done ++ [st])) st ∧ CheckedFrom (done ++ [st]) rest

private theorem newAt_of_numbered
    (appended : Appended tyenvIn base start names done state)
    {defined : List Nat} {rest : List IRStmt}
    (inScope : Scoped tyenvIn defined (st :: rest))
    (known : ∀ tmp ∈ definedBy done, tmp ∈ defined) {later : List IRStmt}
    (numbered : ∀ tmp, names tmp =
      base + (definedBy (done ++ st :: later)).idxOf tmp) :
    NewAt tyenvIn names done state st := by
  intro tmp defines
  obtain ⟨declared, fresh⟩ := inScope.2.1 tmp defines
  have new : tmp ∉ definedBy done := fun earlier => fresh (known tmp earlier)
  have first : (definedBy (st :: later)).idxOf tmp = 0 := by
    rw [Option.mem_toList] at defines
    simp [definedBy, Option.mem_def.mp defines]
  refine ⟨declared, new, ?_⟩
  rw [numbered, definedBy_append, List.idxOf_append, if_neg new, first,
    appended.length]
  omega

theorem known_concat {defined : List Nat}
    (known : ∀ tmp ∈ definedBy done, tmp ∈ defined) :
    ∀ tmp ∈ definedBy (done ++ [st]), tmp ∈ st.defines.toList ++ defined := by
  intro tmp member
  rw [definedBy_append, List.mem_append] at member
  apply List.mem_append.mpr
  obtain earlier | here := member
  · exact .inr (known tmp earlier)
  · exact .inl (by simpa [definedBy] using here)

private theorem concatStmts_appended {rest : List IRStmt} {defined : List Nat}
    {skipped : Option IRStmt}
    (appended : Appended tyenvIn base start names done state)
    (inScope : Scoped tyenvIn defined rest) (pure : ∀ st ∈ rest, st.pure)
    (known : ∀ tmp ∈ definedBy done, tmp ∈ defined)
    (numbered : ∀ tmp, names tmp = base + (definedBy
      (done ++ truncated skipAddr vge state.currentBasicBlock rest)).idxOf tmp)
    (returned : concatStmts skipAddr vge tyenvIn state rest =
      .ok (state', skipped)) :
    CheckedFrom done (truncated skipAddr vge state.currentBasicBlock rest) ∧
      Appended tyenvIn base start names
        (done ++ truncated skipAddr vge state.currentBasicBlock rest)
        state' := by
  induction rest generalizing done state defined with
  | nil =>
      cases returned
      rw [truncated, List.append_nil]
      exact ⟨trivial, appended⟩
  | cons st rest induction =>
      have later : ∀ st ∈ rest, st.pure :=
        fun st member => pure st (List.mem_cons_of_mem _ member)
      by_cases mark : ∃ addr len, st = .iMark addr len
      · obtain ⟨addr, len, rfl⟩ := mark
        rw [truncated] at numbered ⊢
        rw [concatStmts] at returned
        split at returned
        · next skips =>
            cases returned
            rw [if_pos skips, List.append_nil]
            exact ⟨trivial, appended⟩
        · next continues =>
            rw [if_neg continues] at numbered ⊢
            rw [List.append_cons] at numbered ⊢
            obtain ⟨checked, extended⟩ :=
              induction (appended.mark addr len _) inScope.2.2 later
                (known_concat known) numbered returned
            exact ⟨⟨⟨fun con => nofun, fun tmp member => (nomatch member)⟩,
              checked⟩, extended⟩
      · have noMark : ∀ addr len, st ≠ .iMark addr len :=
          fun addr len same => mark ⟨addr, len, same⟩
        rw [truncated_cons noMark] at numbered ⊢
        rw [concatStmts_cons noMark] at returned
        obtain ⟨state₁, first, returned⟩ := bind_eq_ok.mp returned
        have new := newAt_of_numbered appended inScope known numbered
        obtain ⟨here, extended, same⟩ := concatStmt_appended appended
          (pure st List.mem_cons_self) new first
        rw [List.append_cons] at numbered ⊢
        rw [← same] at numbered ⊢
        obtain ⟨checked, extended⟩ := induction extended inScope.2.2 later
          (known_concat known) numbered returned
        exact ⟨⟨here, checked⟩, extended⟩

private theorem concatStmts_returns {rest : List IRStmt} {defined : List Nat}
    (appended : Appended tyenvIn base start names done state)
    (inScope : Scoped tyenvIn defined rest) (pure : ∀ st ∈ rest, st.pure)
    (known : ∀ tmp ∈ definedBy done, tmp ∈ defined)
    (numbered : ∀ tmp, names tmp = base + (definedBy
      (done ++ truncated skipAddr vge state.currentBasicBlock rest)).idxOf tmp)
    (checked : CheckedFrom done
      (truncated skipAddr vge state.currentBasicBlock rest)) :
    ∃ result, concatStmts skipAddr vge tyenvIn state rest = .ok result := by
  induction rest generalizing done state defined with
  | nil => exact ⟨_, rfl⟩
  | cons st rest induction =>
      have later : ∀ st ∈ rest, st.pure :=
        fun st member => pure st (List.mem_cons_of_mem _ member)
      by_cases mark : ∃ addr len, st = .iMark addr len
      · obtain ⟨addr, len, rfl⟩ := mark
        rw [truncated] at numbered checked
        rw [concatStmts]
        split
        · exact ⟨_, rfl⟩
        · next continues =>
            rw [if_neg continues] at numbered checked
            rw [List.append_cons] at numbered
            exact induction (appended.mark addr len _) inScope.2.2 later
              (known_concat known) numbered checked.2
      · have noMark : ∀ addr len, st ≠ .iMark addr len :=
          fun addr len same => mark ⟨addr, len, same⟩
        rw [truncated_cons noMark] at numbered checked
        have new := newAt_of_numbered appended inScope known numbered
        obtain ⟨state₁, first⟩ := concatStmt_returns appended
          (pure st List.mem_cons_self) new checked.1
        obtain ⟨_, extended, same⟩ := concatStmt_appended appended
          (pure st List.mem_cons_self) new first
        rw [concatStmts_cons noMark, first, ok_bind]
        rw [List.append_cons, ← same] at numbered
        rw [← same] at checked
        exact induction extended inScope.2.2 later (known_concat known)
          numbered checked.2

end Step

end Appending

section Effect

variable {host : Host} {names : Nat → Nat} {tyenv tyenv' : List IRType}

theorem IRAtom.eval_rename {atom : IRAtom} {state state' : IRState}
    (same : ∀ tmp ∈ atom.tmps, state'.temps (names tmp) = state.temps tmp) :
    (atom.rename names).eval state' = atom.eval state := by
  cases atom with
  | rdTmp tmp => exact same tmp (List.mem_singleton_self tmp)
  | const con => rfl

theorem IRExpr.eval_rename {data : IRExpr} {state state' : IRState}
    (same : ∀ tmp ∈ data.tmps, state'.temps (names tmp) = state.temps tmp)
    (guest : state'.guest = state.guest)
    (memory : state'.memory = state.memory) :
    (data.rename names).eval host state' = data.eval host state := by
  have atom : ∀ {arg : IRAtom}, (∀ tmp ∈ arg.tmps, tmp ∈ data.tmps) →
      (arg.rename names).eval state' = arg.eval state :=
    fun read => IRAtom.eval_rename fun tmp member => same tmp (read tmp member)
  cases data with
  | get offset ty => simp only [IRExpr.rename, IRExpr.eval, guest]
  | getI descr ix bias =>
      simp only [IRExpr.rename, IRExpr.eval, guest, @atom ix fun _ => id]
  | atom operand => exact @atom operand fun _ => id
  | qop op arg1 arg2 arg3 arg4 =>
      simp only [IRExpr.tmps, List.mem_append] at atom
      simp only [IRExpr.rename, IRExpr.eval, @atom arg1 (by tauto),
        @atom arg2 (by tauto), @atom arg3 (by tauto), @atom arg4 (by tauto)]
  | triop op arg1 arg2 arg3 =>
      simp only [IRExpr.tmps, List.mem_append] at atom
      simp only [IRExpr.rename, IRExpr.eval, @atom arg1 (by tauto),
        @atom arg2 (by tauto), @atom arg3 (by tauto)]
  | binop op arg1 arg2 =>
      simp only [IRExpr.tmps, List.mem_append] at atom
      simp only [IRExpr.rename, IRExpr.eval, @atom arg1 (by tauto),
        @atom arg2 (by tauto)]
  | unop op arg =>
      simp only [IRExpr.rename, IRExpr.eval, @atom arg fun _ => id]
  | load endness ty addr =>
      cases endness <;>
        simp only [IRExpr.rename, IRExpr.eval, @atom addr fun _ => id, memory]
  | ccall cee retty args =>
      simp only [IRExpr.rename, IRExpr.eval, List.map_map]
      congr 1
      apply List.map_congr_left
      intro arg member
      exact atom fun tmp read => List.mem_flatMap.mpr ⟨arg, member, read⟩
  | mux0X cond expr0 exprX =>
      simp only [IRExpr.tmps, List.mem_append] at atom
      simp only [IRExpr.rename, IRExpr.eval, @atom cond (by tauto),
        @atom expr0 (by tauto), @atom exprX (by tauto)]

theorem IRAtom.bytes_rename {atom : IRAtom}
    (typed : ∀ tmp ∈ atom.tmps, tyenv'[names tmp]? = tyenv[tmp]?) :
    (atom.rename names).bytes tyenv' = atom.bytes tyenv := by
  cases atom with
  | rdTmp tmp =>
      simp only [IRAtom.bytes, IRAtom.rename, typeOfIRAtom,
        typed tmp (List.mem_singleton_self tmp)]
  | const con => rfl

/-- The guest state and memory are the same, and the temporaries that are
assigned have their values under their new names. -/
structure SameRenamed (names : Nat → Nat) (assigned : List Nat)
    (state state' : IRState) : Prop where
  guest : state'.guest = state.guest
  memory : state'.memory = state.memory
  temps : ∀ tmp ∈ assigned, state'.temps (names tmp) = state.temps tmp

theorem SameRenamed.exec {assigned : List Nat} {state state' : IRState}
    (same : SameRenamed names assigned state state') {st : IRStmt}
    (pure : st.pure) (reads : ∀ tmp ∈ st.reads, tmp ∈ assigned)
    (typed : ∀ tmp ∈ assigned, tyenv'[names tmp]? = tyenv[tmp]?)
    (distinct : ∀ tmp ∈ st.defines.toList, ∀ tmp' ∈ assigned,
      names tmp' = names tmp → tmp' = tmp) :
    SameRenamed names (st.defines.toList ++ assigned)
      (exec host tyenv state st)
      (exec host tyenv' state' (st.rename names)) := by
  obtain ⟨guest, memory, temps⟩ := same
  have atom : ∀ {arg : IRAtom}, (∀ tmp ∈ arg.tmps, tmp ∈ st.reads) →
      (arg.rename names).eval state' = arg.eval state :=
    fun read => IRAtom.eval_rename fun tmp member =>
      temps tmp (reads tmp (read tmp member))
  have bytes : ∀ {arg : IRAtom}, (∀ tmp ∈ arg.tmps, tmp ∈ st.reads) →
      (arg.rename names).bytes tyenv' = arg.bytes tyenv :=
    fun read => IRAtom.bytes_rename fun tmp member =>
      typed tmp (reads tmp (read tmp member))
  cases st with
  | wrTmp tmp data =>
      have value : (data.rename names).eval host state' =
          data.eval host state :=
        IRExpr.eval_rename (fun tmp member => temps tmp (reads tmp member))
          guest memory
      refine ⟨guest, memory, fun tmp' member => ?_⟩
      simp only [IRStmt.rename, Dependency.exec, value]
      by_cases this : tmp' = tmp
      · subst this
        simp
      · have earlier : tmp' ∈ assigned := by
          simpa [IRStmt.defines, this] using member
        have other : names tmp' ≠ names tmp :=
          fun same => this (distinct tmp (by simp [IRStmt.defines]) tmp'
            earlier same)
        rw [Function.update_of_ne other, Function.update_of_ne this]
        exact temps tmp' earlier
  | put offset data =>
      refine ⟨?_, memory, temps⟩
      simp only [IRStmt.rename, Dependency.exec, guest,
        @atom data fun _ => id, @bytes data fun _ => id]
  | putI descr ix bias data =>
      simp only [IRStmt.reads, List.mem_append] at atom
      refine ⟨?_, memory, temps⟩
      simp only [IRStmt.rename, Dependency.exec, guest,
        @atom data (by tauto), @atom ix (by tauto)]
  | store endness addr data =>
      simp only [IRStmt.reads, List.mem_append] at atom bytes
      refine ⟨?_, ?_, ?_⟩
      · cases endness <;> exact guest
      · cases endness <;>
          simp only [IRStmt.rename, Dependency.exec, memory,
            @atom addr (by tauto), @atom data (by tauto),
            @bytes data (by tauto)]
      · cases endness <;> exact temps
  | dirty details => cases pure
  | comment => cases pure
  | _ => exact ⟨guest, memory, temps⟩

/-- The value of the guard if the statement is an exit. -/
def IRStmt.guardIn (state : IRState) : IRStmt → Option Nat
  | exit guard => some (guard.eval state)
  | _ => none

/-- The statements have the same effect on the guest state, on memory and on
the guards, whatever the temporaries are before them. -/
def SameEffect (tyenv : List IRType) (stmts : List IRStmt)
    (tyenv' : List IRType) (stmts' : List IRStmt) : Prop :=
  ∀ (host : Host) (state state' : IRState), state'.guest = state.guest →
    state'.memory = state.memory → ∀ count,
    (execs host tyenv' state' (stmts'.take count)).guest =
        (execs host tyenv state (stmts.take count)).guest ∧
      (execs host tyenv' state' (stmts'.take count)).memory =
        (execs host tyenv state (stmts.take count)).memory ∧
      stmts'[count]?.bind (IRStmt.guardIn
          (execs host tyenv' state' (stmts'.take count))) =
        stmts[count]?.bind (IRStmt.guardIn
          (execs host tyenv state (stmts.take count)))

theorem Scoped.not_redefined {defined : List Nat} {stmts : List IRStmt}
    (inScope : Scoped tyenv defined stmts) {tmp : Nat}
    (known : tmp ∈ defined) : tmp ∉ definedBy stmts := by
  induction stmts generalizing defined with
  | nil => exact List.not_mem_nil
  | cons st rest induction =>
      obtain ⟨_, fresh, later⟩ := inScope
      intro member
      rw [definedBy, List.flatMap_cons, List.mem_append] at member
      obtain here | there := member
      · exact (fresh tmp here).2 known
      · exact induction later (List.mem_append_right _ known) there

/-- Renamed statements behave as the statements do if they read only what they
assign. -/
theorem sameRenamed_execs {defined assigned : List Nat} {stmts : List IRStmt}
    (inScope : Scoped tyenv defined stmts) (pure : ∀ st ∈ stmts, st.pure)
    (known : ∀ tmp ∈ assigned, tmp ∈ defined)
    (reads : ∀ st ∈ stmts, ∀ tmp ∈ st.reads,
      tmp ∈ assigned ++ definedBy stmts)
    (typed : ∀ tmp ∈ assigned ++ definedBy stmts,
      tyenv'[names tmp]? = tyenv[tmp]?)
    (distinct : ∀ tmp ∈ assigned ++ definedBy stmts,
      ∀ tmp' ∈ assigned ++ definedBy stmts,
      names tmp' = names tmp → tmp' = tmp)
    {state state' : IRState} (same : SameRenamed names assigned state state')
    (count : Nat) :
    ∃ assigned', SameRenamed names assigned'
        (execs host tyenv state (stmts.take count))
        (execs host tyenv' state'
          ((stmts.map (IRStmt.rename names)).take count)) ∧
      ∀ st, stmts[count]? = some st → ∀ tmp ∈ st.reads, tmp ∈ assigned' := by
  induction stmts generalizing defined assigned state state' count with
  | nil => exact ⟨assigned, by simpa using same, by simp⟩
  | cons st rest induction =>
      have split : ∀ tmp, tmp ∈ assigned ++ definedBy (st :: rest) ↔
          tmp ∈ (st.defines.toList ++ assigned) ++ definedBy rest := by
        intro tmp
        simp only [definedBy, List.flatMap_cons, List.mem_append]
        tauto
      have here : ∀ tmp ∈ st.reads, tmp ∈ assigned := by
        intro tmp read
        have earlier := inScope.1 tmp read
        have member := reads st List.mem_cons_self tmp read
        exact (List.mem_append.mp member).resolve_right
          (inScope.not_redefined earlier)
      cases count with
      | zero =>
          refine ⟨assigned, same, fun st' found => ?_⟩
          cases found
          exact here
      | succ count =>
          apply induction inScope.2.2
          · exact fun st member => pure st (List.mem_cons_of_mem _ member)
          · intro tmp member
            rw [List.mem_append] at member ⊢
            exact member.imp_right (known tmp)
          · intro st' member tmp read
            rw [← split]
            exact reads st' (List.mem_cons_of_mem _ member) tmp read
          · intro tmp member
            exact typed tmp ((split tmp).mpr member)
          · intro tmp member tmp' member'
            exact distinct tmp ((split tmp).mpr member) tmp'
              ((split tmp').mpr member')
          · apply same.exec (pure st List.mem_cons_self) here
            · intro tmp member
              exact typed tmp (List.mem_append_left _ member)
            · intro tmp defines tmp' member
              apply distinct tmp _ tmp' (List.mem_append_left _ member)
              rw [split]
              exact List.mem_append_left _ (List.mem_append_left _ defines)

private theorem sameEffect_rename {defined : List Nat} {stmts : List IRStmt}
    (inScope : Scoped tyenv defined stmts) (pure : ∀ st ∈ stmts, st.pure)
    (reads : ∀ st ∈ stmts, ∀ tmp ∈ st.reads, tmp ∈ definedBy stmts)
    (typed : ∀ tmp ∈ definedBy stmts, tyenv'[names tmp]? = tyenv[tmp]?)
    (distinct : ∀ tmp ∈ definedBy stmts, ∀ tmp' ∈ definedBy stmts,
      names tmp' = names tmp → tmp' = tmp) :
    SameEffect tyenv stmts tyenv' (stmts.map (IRStmt.rename names)) := by
  intro host state state' guest memory count
  obtain ⟨assigned, same, reads⟩ := @sameRenamed_execs host names tyenv tyenv'
    defined [] stmts inScope pure (fun tmp member => (nomatch member)) reads
    typed distinct state state'
    ⟨guest, memory, fun tmp member => (nomatch member)⟩ count
  refine ⟨same.guest, same.memory, ?_⟩
  rw [List.getElem?_map]
  cases found : stmts[count]? with
  | none => rfl
  | some st =>
      cases st with
      | exit guard =>
          apply congrArg some
          exact IRAtom.eval_rename fun tmp member =>
            same.temps tmp (reads _ found tmp member)
      | _ => rfl

end Effect

section Whole

variable {skipAddr : Nat} {vge : List GuestExtent}

theorem Scoped.truncated {tyenv : List IRType} {defined : List Nat}
    {stmts : List IRStmt} (inScope : Scoped tyenv defined stmts)
    (currentBasicBlock : Nat) :
    Scoped tyenv defined
      (truncated skipAddr vge currentBasicBlock stmts) := by
  induction stmts generalizing defined currentBasicBlock with
  | nil => trivial
  | cons st rest induction =>
      obtain ⟨reads, fresh, later⟩ := inScope
      by_cases mark : ∃ addr len, st = .iMark addr len
      · obtain ⟨addr, len, rfl⟩ := mark
        rw [Dependency.truncated]
        split
        · trivial
        · exact ⟨reads, fresh, induction later _⟩
      · rw [truncated_cons fun addr len same => mark ⟨addr, len, same⟩]
        exact ⟨reads, fresh, induction later _⟩

theorem truncated_subset (currentBasicBlock : Nat) (stmts : List IRStmt) :
    truncated skipAddr vge currentBasicBlock stmts ⊆ stmts := by
  induction stmts generalizing currentBasicBlock with
  | nil => exact fun _ => id
  | cons st rest induction =>
      by_cases mark : ∃ addr len, st = .iMark addr len
      · obtain ⟨addr, len, rfl⟩ := mark
        rw [truncated]
        split
        · exact List.nil_subset _
        · exact List.cons_subset_cons _ (induction _)
      · rw [truncated_cons fun addr len same => mark ⟨addr, len, same⟩]
        exact List.cons_subset_cons _ (induction _)

theorem Scoped.fromFirstMark {tyenv : List IRType} {defined : List Nat}
    {stmts : List IRStmt} (inScope : Scoped tyenv defined stmts) :
    ∃ defined', Scoped tyenv defined' (fromFirstMark stmts) := by
  induction stmts generalizing defined with
  | nil => exact ⟨defined, trivial⟩
  | cons st rest induction =>
      by_cases mark : ∃ addr len, st = .iMark addr len
      · obtain ⟨addr, len, rfl⟩ := mark
        exact ⟨defined, inScope⟩
      · have skipped : Dependency.fromFirstMark (st :: rest) =
            Dependency.fromFirstMark rest := by
          cases st with
          | iMark addr len => exact (mark ⟨addr, len, rfl⟩).elim
          | _ => rfl
        rw [skipped]
        exact induction inScope.2.2

theorem IRStmt.mem_reads_iff {st : IRStmt} {tmp : Nat} :
    tmp ∈ st.reads ↔ tmp ∈ st.renamedReads ∨ tmp ∈ st.keptReads := by
  cases st with
  | wrTmp tmp' data =>
      cases data <;> simp [reads, renamedReads, keptReads, IRExpr.tmps]
  | _ => simp [reads, renamedReads, keptReads]

/-- What is read by the statements is assigned before if it is assigned by
them. -/
theorem checkedFrom_iff {tyenv : List IRType} {defined : List Nat}
    {done part : List IRStmt} (inScope : Scoped tyenv defined part)
    (known : ∀ tmp ∈ definedBy done, tmp ∈ defined) :
    CheckedFrom done part ↔
      ∀ st ∈ part, Checked (definedBy (done ++ part)) st := by
  induction part generalizing done defined with
  | nil => simp [CheckedFrom]
  | cons st rest induction =>
      have head : Checked (definedBy (done ++ [st])) st ↔
          Checked (definedBy (done ++ st :: rest)) st := by
        constructor
        · intro checked
          refine ⟨checked.guard, fun tmp read => ?_⟩
          rw [List.append_cons, definedBy_append]
          exact List.mem_append_left _ (checked.reads tmp read)
        · intro checked
          refine ⟨checked.guard, fun tmp read => ?_⟩
          have earlier := inScope.1 tmp (IRStmt.mem_reads_iff.mpr (.inl read))
          have member := checked.reads tmp read
          rw [definedBy_append, List.mem_append] at member ⊢
          exact .inl (member.resolve_right (inScope.not_redefined earlier))
      rw [CheckedFrom, head, induction inScope.2.2 (known_concat known),
        ← List.append_cons, List.forall_mem_cons]

/-- The new name of a temporary: the temporaries are numbered in the order in
which they are assigned. -/
def newName (bbOut : IRSB) (part : List IRStmt) (tmp : Nat) : Nat :=
  bbOut.tyenv.length + (definedBy part).idxOf tmp

theorem newName_injective {bbOut : IRSB} {part : List IRStmt} {tmp tmp' : Nat}
    (member : tmp ∈ definedBy part)
    (same : newName bbOut part tmp' = newName bbOut part tmp) :
    tmp' = tmp := by
  have index : (definedBy part).idxOf tmp' = (definedBy part).idxOf tmp :=
    Nat.add_left_cancel same
  exact ((List.idxOf_inj member).mp index.symm).symm

section Call

variable {bbInAddr : Nat} {bbIn bbOut : IRSB} {next : IRAtom}

/-- The state before the first statement. -/
theorem appended_start (names : Nat → Nat) :
    Appended bbIn.tyenv bbOut.tyenv.length
      (bbOut.stmts ++ separator bbInAddr bbOut) names []
      ⟨bbOut.tyenv, bbOut.stmts ++ separator bbInAddr bbOut,
        fun _ => none, 0⟩ := by
  refine ⟨by simp, fun tmp => by simp [definedBy], ?_, by simp [definedBy]⟩
  intro tmp member
  cases member

variable (inScope : Scoped bbIn.tyenv [] bbIn.stmts)
  (pure : ∀ st ∈ bbIn.stmts, st.pure)

theorem pure_fromFirstMark (pure : ∀ st ∈ bbIn.stmts, st.pure) :
    ∀ st ∈ fromFirstMark bbIn.stmts, st.pure := by
  intro st member
  exact pure st ((List.dropWhile_sublist _).subset member)

include inScope pure in
/-- What `HG_(concat_irsb)` returns for a block in single-assignment form. -/
theorem concatIrsb_eq_ok {bbOut' : IRSB}
    (returned : concatIrsb skipAddr vge bbInAddr bbIn next bbOut =
      .ok bbOut') :
    (∀ st ∈ concatPart skipAddr vge bbIn,
      Checked (definedBy (concatPart skipAddr vge bbIn)) st) ∧
    (∃ tail, bbOut'.stmts = bbOut.stmts ++ separator bbInAddr bbOut ++
      (concatPart skipAddr vge bbIn).map (IRStmt.renameDirect
        (newName bbOut (concatPart skipAddr vge bbIn))) ++ tail) ∧
    ∀ tmp ∈ definedBy (concatPart skipAddr vge bbIn),
      bbOut'.tyenv[newName bbOut (concatPart skipAddr vge bbIn) tmp]? =
        bbIn.tyenv[tmp]? := by
  obtain ⟨⟨state, skipped⟩, looped, returned⟩ := bind_eq_ok.mp returned
  obtain ⟨ty, _, returned⟩ := bind_eq_ok.mp returned
  cases returned
  obtain ⟨defined, inScope'⟩ := inScope.fromFirstMark
  have none : ∀ tmp ∈ definedBy [], tmp ∈ defined :=
    fun tmp member => (nomatch member)
  obtain ⟨checked, appended⟩ := concatStmts_appended
    (appended_start (newName bbOut (concatPart skipAddr vge bbIn))) inScope'
    (pure_fromFirstMark pure) none (fun tmp => rfl) looped
  refine ⟨?_, ⟨_, congrArg (· ++ _) appended.stmts⟩, ?_⟩
  · exact (checkedFrom_iff (inScope'.truncated 0) none).mp checked
  · intro tmp member
    obtain ⟨ty', declared, named⟩ := appended.types tmp member
    have bound := (List.getElem?_eq_some_iff.mp named).1
    rw [List.getElem?_append_left bound, named, declared]

theorem Scoped.declared {tyenv : List IRType} {defined : List Nat}
    {stmts : List IRStmt} (inScope : Scoped tyenv defined stmts) {tmp : Nat}
    (member : tmp ∈ definedBy stmts) : tmp < tyenv.length := by
  induction stmts generalizing defined with
  | nil => cases member
  | cons st rest induction =>
      rw [definedBy, List.flatMap_cons, List.mem_append] at member
      obtain here | there := member
      · exact (inScope.2.1 tmp here).1
      · exact induction inScope.2.2 there

include inScope pure in
theorem concatIrsb_returns
    (nextKnown : ∀ tmp ∈ next.tmps, tmp ∈ definedBy bbIn.stmts)
    (checked : ∀ st ∈ concatPart skipAddr vge bbIn,
      Checked (definedBy (concatPart skipAddr vge bbIn)) st) :
    ∃ bbOut', concatIrsb skipAddr vge bbInAddr bbIn next bbOut =
      .ok bbOut' := by
  obtain ⟨defined, inScope'⟩ := inScope.fromFirstMark
  have none : ∀ tmp ∈ definedBy [], tmp ∈ defined :=
    fun tmp member => (nomatch member)
  obtain ⟨⟨state, skipped⟩, looped⟩ := concatStmts_returns
    (@appended_start bbInAddr bbIn bbOut
      (newName bbOut (concatPart skipAddr vge bbIn))) inScope'
    (pure_fromFirstMark pure) none (fun tmp => rfl)
    ((checkedFrom_iff (inScope'.truncated 0) none).mpr checked)
  have typed : ∃ ty, typeOfIRAtom bbIn.tyenv next = .ok ty := by
    cases next with
    | const con => exact ⟨_, rfl⟩
    | rdTmp tmp =>
        have bound := inScope.declared
          (nextKnown tmp (List.mem_singleton_self tmp))
        exact ⟨bbIn.tyenv[tmp], by simp [typeOfIRAtom, bound]⟩
  obtain ⟨ty, typed⟩ := typed
  exact ⟨_, by simp only [concatIrsb, looped, ok_bind, typed]; rfl⟩

end Call

/-- The temporaries of the statements. -/
def tmpsOf (stmts : List IRStmt) : List Nat :=
  definedBy stmts ++ stmts.flatMap IRStmt.reads

/-- To `bbOut` are appended the statements of the part of `bbIn`, with every
temporary renamed to a new one of the same type that is assigned in them. -/
structure Renames (bbInAddr : Nat) (bbIn bbOut bbOut' : IRSB)
    (part : List IRStmt) (names : Nat → Nat) : Prop where
  appended : ∃ tail, bbOut'.stmts =
    bbOut.stmts ++ separator bbInAddr bbOut ++
      part.map (IRStmt.rename names) ++ tail
  injective : ∀ tmp ∈ tmpsOf part, ∀ tmp' ∈ tmpsOf part,
    names tmp' = names tmp → tmp' = tmp
  new : ∀ tmp ∈ tmpsOf part, bbOut.tyenv.length ≤ names tmp ∧
    names tmp ∈ definedBy (part.map (IRStmt.rename names))
  typed : ∀ tmp ∈ tmpsOf part,
    bbOut'.tyenv[names tmp]? = bbIn.tyenv[tmp]?

/-- No guard of the part is a constant, it reads only temporaries that it
assigns, and those that indexed accesses and hints read keep their names. -/
structure ConcatFits (bbOut : IRSB) (part : List IRStmt) : Prop where
  guards : ∀ st ∈ part, ∀ con, st ≠ .exit (.const con)
  closed : ∀ st ∈ part, ∀ tmp ∈ st.reads, tmp ∈ definedBy part
  kept : ∀ st ∈ part, ∀ tmp ∈ st.keptReads, newName bbOut part tmp = tmp

theorem IRAtom.rename_eq_self {names : Nat → Nat} {atom : IRAtom} :
    atom.rename names = atom ↔ ∀ tmp ∈ atom.tmps, names tmp = tmp := by
  cases atom <;> simp [IRAtom.rename, IRAtom.tmps]

/-- What is appended is the renamed statement just if the temporaries that are
not renamed keep their names. -/
theorem IRStmt.renameDirect_eq {names : Nat → Nat} {st : IRStmt}
    (kept : ∀ tmp ∈ st.keptReads, names tmp = tmp) :
    st.renameDirect names = st.rename names := by
  cases st with
  | abiHint base len nia =>
      simp only [keptReads, List.mem_append] at kept
      have first := @IRAtom.rename_eq_self names base
      have second := @IRAtom.rename_eq_self names nia
      simp only [renameDirect, rename, first.mpr fun tmp read =>
        kept tmp (.inl read), second.mpr fun tmp read => kept tmp (.inr read)]
  | putI descr ix bias data =>
      simp only [keptReads, List.mem_append] at kept
      have first := @IRAtom.rename_eq_self names ix
      have second := @IRAtom.rename_eq_self names data
      simp only [renameDirect, rename, first.mpr fun tmp read =>
        kept tmp (.inl read), second.mpr fun tmp read => kept tmp (.inr read)]
  | wrTmp tmp data =>
      cases data with
      | getI descr ix bias =>
          have same := (@IRAtom.rename_eq_self names ix).mpr kept
          simp only [renameDirect, rename, IRExpr.renameDirect, IRExpr.rename,
            same]
      | _ => rfl
  | _ => rfl

theorem IRStmt.kept_of_renameDirect_eq {names names' : Nat → Nat}
    {st : IRStmt} (same : st.renameDirect names = st.rename names') :
    ∀ tmp ∈ st.keptReads, names' tmp = tmp := by
  cases st with
  | abiHint base len nia =>
      simp only [renameDirect, rename, abiHint.injEq] at same
      intro tmp read
      obtain first | second := List.mem_append.mp read
      · exact IRAtom.rename_eq_self.mp same.1.symm tmp first
      · exact IRAtom.rename_eq_self.mp same.2.2.symm tmp second
  | putI descr ix bias data =>
      simp only [renameDirect, rename, putI.injEq] at same
      intro tmp read
      obtain first | second := List.mem_append.mp read
      · exact IRAtom.rename_eq_self.mp same.2.1.symm tmp first
      · exact IRAtom.rename_eq_self.mp same.2.2.2.symm tmp second
  | wrTmp tmp data =>
      cases data with
      | getI descr ix bias =>
          simp only [renameDirect, rename, IRExpr.renameDirect, IRExpr.rename,
            wrTmp.injEq, IRExpr.getI.injEq] at same
          exact IRAtom.rename_eq_self.mp same.2.2.1.symm
      | _ => exact fun tmp read => (nomatch read)
  | _ => exact fun tmp read => (nomatch read)

private theorem definedBy_rename {names : Nat → Nat} {stmts : List IRStmt}
    (pure : ∀ st ∈ stmts, st.pure) :
    definedBy (stmts.map (IRStmt.rename names)) =
      (definedBy stmts).map names := by
  induction stmts with
  | nil => rfl
  | cons st rest induction =>
      have later := induction fun st member =>
        pure st (List.mem_cons_of_mem _ member)
      have here : (st.rename names).defines.toList =
          st.defines.toList.map names := by
        have plain := pure st List.mem_cons_self
        cases st with
        | dirty details => cases plain
        | _ => rfl
      simp only [definedBy] at later
      simp only [definedBy, List.map_cons, List.flatMap_cons, later, here,
        List.map_append]

/-- The names of a consistent renaming are those that the code gives. -/
theorem names_eq_newName {part : List IRStmt} {names names' : Nat → Nat}
    (same : part.map (IRStmt.renameDirect names') =
      part.map (IRStmt.rename names)) (pure : ∀ st ∈ part, st.pure) :
    ∀ tmp ∈ definedBy part, names tmp = names' tmp := by
  intro tmp member
  obtain ⟨st, member, defines⟩ := List.mem_flatMap.mp member
  have here := List.map_inj_left.mp same st member
  have plain := pure st member
  cases st with
  | wrTmp tmp' data =>
      obtain rfl : tmp = tmp' := by simpa [IRStmt.defines] using defines
      simp only [IRStmt.renameDirect, IRStmt.rename, IRStmt.wrTmp.injEq] at here
      exact here.1.symm
  | dirty details => cases plain
  | _ => simp [IRStmt.defines] at defines

/-- Concatenation renames the temporaries consistently, and what it appends
has the same effect, just if the part of the block fits. -/
theorem concat_irsb_renames (skipAddr : Nat) (vge : List GuestExtent)
    (bbInAddr : Nat) (bbIn : IRSB) (next : IRAtom) (bbOut : IRSB)
    (inScope : Scoped bbIn.tyenv [] bbIn.stmts)
    (nextKnown : ∀ tmp ∈ next.tmps, tmp ∈ definedBy bbIn.stmts)
    (pure : ∀ st ∈ bbIn.stmts, st.pure) :
    (∃ bbOut' names,
      concatIrsb skipAddr vge bbInAddr bbIn next bbOut = .ok bbOut' ∧
      Renames bbInAddr bbIn bbOut bbOut' (concatPart skipAddr vge bbIn)
        names ∧
      SameEffect bbIn.tyenv (concatPart skipAddr vge bbIn) bbOut'.tyenv
        ((concatPart skipAddr vge bbIn).map (IRStmt.rename names))) ↔
      ConcatFits bbOut (concatPart skipAddr vge bbIn) := by
  have purePart : ∀ st ∈ concatPart skipAddr vge bbIn, st.pure :=
    fun st member =>
      pure_fromFirstMark pure st (truncated_subset 0 _ member)
  constructor
  · rintro ⟨bbOut', names, returned, renames, _⟩
    obtain ⟨checked, ⟨tail', appended'⟩, _⟩ :=
      concatIrsb_eq_ok inScope pure returned
    obtain ⟨tail, appended⟩ := renames.appended
    rw [appended'] at appended
    have same := List.append_cancel_left (List.append_inj appended
      (by simp only [List.length_append, List.length_map])).1
    have named := names_eq_newName same purePart
    have closed : ∀ st ∈ concatPart skipAddr vge bbIn, ∀ tmp ∈ st.reads,
        tmp ∈ definedBy (concatPart skipAddr vge bbIn) := by
      intro st member tmp read
      have occurs : tmp ∈ tmpsOf (concatPart skipAddr vge bbIn) :=
        List.mem_append_right _ (List.mem_flatMap.mpr ⟨st, member, read⟩)
      have assigned := (renames.new tmp occurs).2
      rw [definedBy_rename purePart] at assigned
      obtain ⟨tmp', defined, sameName⟩ := List.mem_map.mp assigned
      rw [← renames.injective tmp occurs tmp'
        (List.mem_append_left _ defined) sameName]
      exact defined
    refine ⟨fun st member => (checked st member).guard, closed, ?_⟩
    intro st member tmp read
    rw [← named tmp (closed st member tmp
      (IRStmt.mem_reads_iff.mpr (.inr read)))]
    exact IRStmt.kept_of_renameDirect_eq (List.map_inj_left.mp same st member)
      tmp read
  · intro fits
    have all : ∀ tmp ∈ tmpsOf (concatPart skipAddr vge bbIn),
        tmp ∈ definedBy (concatPart skipAddr vge bbIn) := by
      intro tmp member
      obtain here | there := List.mem_append.mp member
      · exact here
      · obtain ⟨st, member, read⟩ := List.mem_flatMap.mp there
        exact fits.closed st member tmp read
    obtain ⟨bbOut', returned⟩ := @concatIrsb_returns skipAddr vge bbInAddr bbIn
      bbOut next inScope pure nextKnown fun st member =>
        ⟨fits.guards st member, fun tmp read => fits.closed st member tmp
          (IRStmt.mem_reads_iff.mpr (.inl read))⟩
    obtain ⟨_, ⟨tail, appended⟩, typed⟩ :=
      concatIrsb_eq_ok inScope pure returned
    have same : (concatPart skipAddr vge bbIn).map (IRStmt.renameDirect
          (newName bbOut (concatPart skipAddr vge bbIn))) =
        (concatPart skipAddr vge bbIn).map (IRStmt.rename
          (newName bbOut (concatPart skipAddr vge bbIn))) :=
      List.map_congr_left fun st member =>
        IRStmt.renameDirect_eq (fits.kept st member)
    rw [same] at appended
    refine ⟨bbOut', _, returned, ⟨⟨tail, appended⟩, ?_, ?_, ?_⟩, ?_⟩
    · intro tmp member tmp' _ sameName
      exact newName_injective (all tmp member) sameName
    · intro tmp member
      refine ⟨Nat.le_add_right _ _, ?_⟩
      rw [definedBy_rename purePart]
      exact List.mem_map_of_mem (all tmp member)
    · exact fun tmp member => typed tmp (all tmp member)
    · obtain ⟨defined, inScope'⟩ := inScope.fromFirstMark
      apply sameEffect_rename (inScope'.truncated 0) purePart fits.closed typed
      intro tmp member tmp' _ sameName
      exact newName_injective member sameName

end Whole

/-- A register is counted up. -/
def steppingBlock : IRSB where
  tyenv := [.I32, .I32]
  stmts := [.iMark 0x8048000 3, .wrTmp 0 (.get 0 .I32),
    .wrTmp 1 (.binop (.add .w32) (.rdTmp 0) (.const (.U32 1))),
    .put 0 (.rdTmp 1)]

/-- The block alone, as it is concatenated to nothing. -/
def steppingOnce : IRSB where
  tyenv := [.I32, .I32, .I32]
  stmts := [.iMark 0x8048000 3, .wrTmp 0 (.get 0 .I32),
    .wrTmp 1 (.binop (.add .w32) (.rdTmp 0) (.const (.U32 1))),
    .put 0 (.rdTmp 1), .comment,
    .wrTmp 2 (.atom (.const (.U32 0x8048003))), .comment]

theorem concat_irsb_renames_stepping :
    concatIrsb 0 [⟨0x8048000, 3⟩] 0x4000 steppingBlock
        (.const (.U32 0x8048003)) ⟨[], []⟩ = .ok steppingOnce ∧
      ∃ bbOut' names,
        concatIrsb 0 [⟨0x8048000, 3⟩] 0x5000 steppingBlock
          (.const (.U32 0x8048003)) steppingOnce = .ok bbOut' ∧
        Renames 0x5000 steppingBlock steppingOnce bbOut' steppingBlock.stmts
          names ∧
        SameEffect steppingBlock.tyenv steppingBlock.stmts bbOut'.tyenv
          (steppingBlock.stmts.map (IRStmt.rename names)) := by
  refine ⟨by decide +kernel, ?_⟩
  apply (concat_irsb_renames 0 [⟨0x8048000, 3⟩] 0x5000 steppingBlock
    (.const (.U32 0x8048003)) steppingOnce (by decide) (by decide)
    (by decide)).mpr
  refine ⟨?_, by decide, by decide⟩
  intro st member con same
  subst same
  revert member
  simp [concatPart, truncated, fromFirstMark, steppingBlock, skipsAt]

/-- A register is read whose number is in a temporary. -/
def stackBlock : IRSB where
  tyenv := [.I32, .I8]
  stmts := [.iMark 0x8048003 2, .wrTmp 0 (.get 0 .I32),
    .wrTmp 1 (.getI ⟨64, .I8, 8⟩ (.rdTmp 0) 0), .put 72 (.rdTmp 1)]

theorem concat_irsb_renames_stack :
    concatIrsb 0 [⟨0x8048000, 3⟩] 0x4000 steppingBlock
        (.const (.U32 0x8048003)) ⟨[], []⟩ = .ok steppingOnce ∧
      stackBlock.Sane bareHost ∧ (∀ st ∈ stackBlock.stmts, st.pure) ∧
      (∃ bbOut', concatIrsb 0 [⟨0x8048003, 2⟩] 0x5000 stackBlock
        (.const (.U32 0x8048005)) steppingOnce = .ok bbOut') ∧
      ¬ ∃ bbOut' names,
        concatIrsb 0 [⟨0x8048003, 2⟩] 0x5000 stackBlock
          (.const (.U32 0x8048005)) steppingOnce = .ok bbOut' ∧
        Renames 0x5000 stackBlock steppingOnce bbOut' stackBlock.stmts
          names := by
  have returned : concatIrsb 0 [⟨0x8048003, 2⟩] 0x5000 stackBlock
      (.const (.U32 0x8048005)) steppingOnce =
      .ok ⟨steppingOnce.tyenv ++ [.I32, .I8, .I32],
        steppingOnce.stmts ++ [.iMark 0x5000 0xFFFFFFFF] ++
        [.iMark 0x8048003 2, .wrTmp 3 (.get 0 .I32),
          .wrTmp 4 (.getI ⟨64, .I8, 8⟩ (.rdTmp 0) 0), .put 72 (.rdTmp 4)] ++
        [.comment, .wrTmp 5 (.atom (.const (.U32 0x8048005))), .comment]⟩ := by
    decide +kernel
  refine ⟨by decide +kernel, ⟨by decide, by decide⟩, by decide,
    ⟨_, returned⟩, ?_⟩
  rintro ⟨bbOut', names, returned', renames⟩
  rw [returned] at returned'
  cases returned'
  obtain ⟨tail, appended⟩ := renames.appended
  have same := List.append_cancel_left (List.append_inj appended rfl).1
  -- the index of the third statement
  have kept : names 0 = 0 := by
    simp [stackBlock, IRStmt.rename, IRExpr.rename, IRAtom.rename] at same
    omega
  have new := (renames.new 0 (by decide)).1
  rw [kept] at new
  exact absurd new (by decide)

end Dependency

end HelgrindPlus
