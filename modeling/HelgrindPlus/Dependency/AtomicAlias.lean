import HelgrindPlus.Dependency.Irsb

/-!
# Elimination of copies and constants

The function `irsb_optimiseAtomicAlias` takes the assignments of a temporary
or a constant out of a block and lets the statements read what was assigned.
-/

namespace HelgrindPlus

namespace Dependency

open Outcome

/-- The structure `_optimise_IRAlias`. -/
inductive IRAlias where
  | none
  | tmp (tmp : Nat)
  | const (con : IRConst)
  deriving DecidableEq, Repr

abbrev Aliases := Nat → IRAlias

/-- The loop that follows an alias to its end.  An alias is never bound to
itself, so that the table has no cycle and the loop ends within as many rounds
as there are temporaries. -/
def followAlias (aliases : Aliases) : Nat → IRAlias → IRAlias
  | rounds + 1, .tmp tmp =>
      if aliases tmp = .none then .tmp tmp
      else followAlias aliases rounds (aliases tmp)
  | _, target => target

def collectAlias (typesUsed : Nat) (aliases : Aliases) :
    IRStmt → Except Halt (Aliases × IRStmt)
  | .wrTmp tmp (.atom (.rdTmp source)) => do
      let target := followAlias aliases (typesUsed + 1) (.tmp source)
      tlAssert (target ≠ .tmp tmp)
      return (Function.update aliases tmp target, .comment)
  | .wrTmp tmp (.atom (.const con)) =>
      return (Function.update aliases tmp (.const con), .comment)
  | st => return (aliases, st)

def collectAliases (typesUsed : Nat) :
    Aliases → List IRStmt → Except Halt (Aliases × List IRStmt)
  | aliases, [] => return (aliases, [])
  | aliases, st :: rest => do
      let (aliases', st') ← collectAlias typesUsed aliases st
      let (aliases'', rest') ← collectAliases typesUsed aliases' rest
      return (aliases'', st' :: rest')

section Rewriting

variable (aliases : Aliases) (typesUsed : Nat)

def optimiseAtomicAliasAtom : IRAtom → Except Halt IRAtom
  | .rdTmp tmp => do
      tlAssert (tmp < typesUsed)
      match aliases tmp with
      | .tmp other => return .rdTmp other
      | .const con => return .const con
      | .none => return .rdTmp tmp
  | .const con => return .const con

/-- Calls and reads of registers are left as they are. -/
def optimiseAtomicAliasExpr : IRExpr → Except Halt IRExpr
  | .atom operand => do
      let operand ← optimiseAtomicAliasAtom aliases typesUsed operand
      return .atom operand
  | .mux0X cond expr0 exprX => do
      let cond ← optimiseAtomicAliasAtom aliases typesUsed cond
      let expr0 ← optimiseAtomicAliasAtom aliases typesUsed expr0
      let exprX ← optimiseAtomicAliasAtom aliases typesUsed exprX
      return .mux0X cond expr0 exprX
  | .qop op arg1 arg2 arg3 arg4 => do
      let arg1 ← optimiseAtomicAliasAtom aliases typesUsed arg1
      let arg2 ← optimiseAtomicAliasAtom aliases typesUsed arg2
      let arg3 ← optimiseAtomicAliasAtom aliases typesUsed arg3
      let arg4 ← optimiseAtomicAliasAtom aliases typesUsed arg4
      return .qop op arg1 arg2 arg3 arg4
  | .triop op arg1 arg2 arg3 => do
      let arg1 ← optimiseAtomicAliasAtom aliases typesUsed arg1
      let arg2 ← optimiseAtomicAliasAtom aliases typesUsed arg2
      let arg3 ← optimiseAtomicAliasAtom aliases typesUsed arg3
      return .triop op arg1 arg2 arg3
  | .binop op arg1 arg2 => do
      let arg1 ← optimiseAtomicAliasAtom aliases typesUsed arg1
      let arg2 ← optimiseAtomicAliasAtom aliases typesUsed arg2
      return .binop op arg1 arg2
  | .unop op arg => do
      let arg ← optimiseAtomicAliasAtom aliases typesUsed arg
      return .unop op arg
  | .load endness ty addr => do
      let addr ← optimiseAtomicAliasAtom aliases typesUsed addr
      return .load endness ty addr
  | e => return e

/-- Hints, indexed writes and dirty calls are left as they are. -/
def optimiseAtomicAliasStmt : IRStmt → Except Halt IRStmt
  | .wrTmp tmp data => do
      let data ← optimiseAtomicAliasExpr aliases typesUsed data
      return .wrTmp tmp data
  | .store endness addr data => do
      let addr ← optimiseAtomicAliasAtom aliases typesUsed addr
      let data ← optimiseAtomicAliasAtom aliases typesUsed data
      return .store endness addr data
  | .put offset data => do
      let data ← optimiseAtomicAliasAtom aliases typesUsed data
      return .put offset data
  | .exit guard => do
      let guard ← optimiseAtomicAliasAtom aliases typesUsed guard
      return .exit guard
  | st => return st

def optimiseAtomicAliasStmts : List IRStmt → Except Halt (List IRStmt)
  | [] => return []
  | st :: rest => do
      let st' ← optimiseAtomicAliasStmt aliases typesUsed st
      let rest' ← optimiseAtomicAliasStmts rest
      return st' :: rest'

end Rewriting

def irsbOptimiseAtomicAlias (irsb : IRSB) : Except Halt IRSB := do
  let typesUsed := irsb.tyenv.length
  let (aliases, stmts) ←
    collectAliases typesUsed (fun _ => .none) irsb.stmts
  let stmts ← optimiseAtomicAliasStmts aliases typesUsed stmts
  return { irsb with stmts := stmts }

section Substitution

variable (aliases : Aliases)

def IRAlias.atom (tmp : Nat) : IRAlias → IRAtom
  | none => .rdTmp tmp
  | .tmp other => .rdTmp other
  | const con => .const con

def IRAtom.subst : IRAtom → IRAtom
  | rdTmp tmp => (aliases tmp).atom tmp
  | const con => .const con

def IRExpr.subst : IRExpr → IRExpr
  | atom operand => .atom (operand.subst aliases)
  | mux0X cond expr0 exprX =>
      .mux0X (cond.subst aliases) (expr0.subst aliases) (exprX.subst aliases)
  | qop op arg1 arg2 arg3 arg4 =>
      .qop op (arg1.subst aliases) (arg2.subst aliases) (arg3.subst aliases)
        (arg4.subst aliases)
  | triop op arg1 arg2 arg3 =>
      .triop op (arg1.subst aliases) (arg2.subst aliases) (arg3.subst aliases)
  | binop op arg1 arg2 =>
      .binop op (arg1.subst aliases) (arg2.subst aliases)
  | unop op arg => .unop op (arg.subst aliases)
  | load endness ty addr => .load endness ty (addr.subst aliases)
  | e => e

/-- What becomes of a statement. -/
def IRStmt.subst : IRStmt → IRStmt
  | wrTmp _ (.atom _) => .comment
  | wrTmp tmp data => .wrTmp tmp (data.subst aliases)
  | store endness addr data =>
      .store endness (addr.subst aliases) (data.subst aliases)
  | put offset data => .put offset (data.subst aliases)
  | exit guard => .exit (guard.subst aliases)
  | st => st

/-- The table tells what the assignment gives to its temporary. -/
def Describes : IRStmt → Prop
  | .wrTmp tmp (.atom operand) =>
      IRAtom.subst aliases (.rdTmp tmp) = operand.subst aliases ∧
        aliases tmp ≠ .none
  | .wrTmp tmp _ => aliases tmp = .none
  | _ => True

/-- Nothing is known of temporaries that are not assigned, and what is known
of the others is not itself an alias. -/
structure Settled (defined : List Nat) : Prop where
  fresh : ∀ tmp, tmp ∉ defined → aliases tmp = .none
  followed : ∀ tmp ∈ defined,
    ∀ other ∈ (IRAtom.subst aliases (.rdTmp tmp)).tmps,
      other ∈ defined ∧ aliases other = .none

end Substitution

section Collecting

variable {aliases : Aliases} {typesUsed : Nat} {defined : List Nat}

theorem optimiseAtomicAliasAtom_eq {operand : IRAtom}
    (inRange : ∀ tmp ∈ operand.tmps, tmp < typesUsed) :
    optimiseAtomicAliasAtom aliases typesUsed operand =
      .ok (operand.subst aliases) := by
  cases operand with
  | rdTmp tmp =>
      have small := tlAssert_of (inRange tmp (List.mem_singleton_self tmp))
      simp only [optimiseAtomicAliasAtom, small, ok_bind, IRAtom.subst]
      cases aliases tmp <;> rfl
  | const con => rfl

/-- The statement with its copy taken out. -/
def IRStmt.dropCopy : IRStmt → IRStmt
  | wrTmp _ (.atom _) => .comment
  | st => st

private theorem optimiseAtomicAliasStmt_eq {st : IRStmt}
    (inRange : ∀ tmp ∈ st.reads, tmp < typesUsed) :
    optimiseAtomicAliasStmt aliases typesUsed st.dropCopy =
      .ok (st.subst aliases) := by
  cases st with
  | wrTmp tmp data =>
      cases data with
      | atom operand => rfl
      | get offset ty => rfl
      | getI descr ix bias => rfl
      | ccall cee retty args => rfl
      | _ =>
          simp only [IRStmt.reads, IRExpr.tmps, List.mem_append] at inRange
          simp only [IRStmt.dropCopy, optimiseAtomicAliasStmt,
            optimiseAtomicAliasExpr]
          repeat rw [optimiseAtomicAliasAtom_eq (fun tmp read =>
            inRange tmp (by simp [read])), ok_bind]
          rfl
  | store endness addr data =>
      simp only [IRStmt.reads, List.mem_append] at inRange
      simp only [IRStmt.dropCopy, optimiseAtomicAliasStmt]
      rw [optimiseAtomicAliasAtom_eq fun tmp read => inRange tmp (.inl read),
        ok_bind,
        optimiseAtomicAliasAtom_eq fun tmp read => inRange tmp (.inr read)]
      rfl
  | put offset data =>
      simp only [IRStmt.dropCopy, optimiseAtomicAliasStmt]
      rw [optimiseAtomicAliasAtom_eq inRange]
      rfl
  | exit guard =>
      simp only [IRStmt.dropCopy, optimiseAtomicAliasStmt]
      rw [optimiseAtomicAliasAtom_eq inRange]
      rfl
  | _ => rfl

/-- The loop stops after at most two rounds. -/
theorem Settled.followAlias (settled : Settled aliases defined)
    {source : Nat} (known : source ∈ defined) (rounds tmp : Nat) :
    (followAlias aliases (rounds + 1) (.tmp source)).atom tmp =
        IRAtom.subst aliases (.rdTmp source) ∧
      followAlias aliases (rounds + 1) (.tmp source) ≠ .none := by
  have followed := settled.followed source known
  rw [Dependency.followAlias]
  split
  · next noAlias =>
      rw [IRAtom.subst, noAlias]
      exact ⟨rfl, by simp⟩
  · next isAlias =>
      rw [IRAtom.subst] at followed ⊢
      cases target : aliases source with
      | none => exact absurd target isAlias
      | const con =>
          cases rounds <;> exact ⟨rfl, by simp [Dependency.followAlias]⟩
      | tmp other =>
          rw [target] at followed
          have last := (followed other (List.mem_singleton_self other)).2
          cases rounds with
          | zero => exact ⟨rfl, by simp [Dependency.followAlias]⟩
          | succ rounds =>
              rw [Dependency.followAlias, if_pos last]
              exact ⟨rfl, by simp⟩

theorem IRAtom.subst_congr {aliases' : Aliases} {operand : IRAtom}
    (same : ∀ tmp ∈ operand.tmps, aliases' tmp = aliases tmp) :
    operand.subst aliases' = operand.subst aliases := by
  cases operand with
  | rdTmp tmp =>
      rw [IRAtom.subst, IRAtom.subst, same tmp (List.mem_singleton_self tmp)]
  | const con => rfl

/-- A temporary gets the alias that its source stands for. -/
theorem Settled.update (settled : Settled aliases defined) {tmp : Nat}
    {target : IRAlias} {operand : IRAtom} (new : tmp ∉ defined)
    (inScope : ∀ source ∈ operand.tmps, source ∈ defined)
    (value : target.atom tmp = operand.subst aliases) :
    Settled (Function.update aliases tmp target) (tmp :: defined) := by
  have old : ∀ other ∈ defined,
      Function.update aliases tmp target other = aliases other := by
    intro other known
    apply Function.update_of_ne
    intro same
    exact new (same ▸ known)
  constructor
  · intro other unknown
    have different : other ≠ tmp := fun same =>
      unknown (same ▸ List.mem_cons_self ..)
    rw [Function.update_of_ne different]
    exact settled.fresh other fun known =>
      unknown (List.mem_cons_of_mem _ known)
  · intro other known last read
    have before : last ∈ defined ∧ aliases last = .none := by
      cases List.mem_cons.mp known with
      | inl same =>
          rw [same, IRAtom.subst, Function.update_self, value] at read
          cases operand with
          | const con => cases read
          | rdTmp source =>
              exact settled.followed source
                (inScope source (List.mem_singleton_self source)) last read
      | inr known =>
          rw [IRAtom.subst, old other known] at read
          exact settled.followed other known last read
    exact ⟨List.mem_cons_of_mem _ before.1, by rw [old last before.1, before.2]⟩

/-- Nothing is noted of a temporary that is computed. -/
theorem Settled.computed (settled : Settled aliases defined) {tmp : Nat}
    (new : tmp ∉ defined) : Settled aliases (tmp :: defined) := by
  constructor
  · intro other unknown
    exact settled.fresh other fun known =>
      unknown (List.mem_cons_of_mem _ known)
  · intro other known last read
    cases List.mem_cons.mp known with
    | inl same =>
        rw [same, IRAtom.subst, settled.fresh tmp new] at read
        rw [List.mem_singleton.mp read]
        exact ⟨List.mem_cons_self .., settled.fresh tmp new⟩
    | inr known =>
        obtain ⟨before, last⟩ := settled.followed other known last read
        exact ⟨List.mem_cons_of_mem _ before, last⟩

theorem Describes.congr {aliases' : Aliases} {st : IRStmt}
    (describes : Describes aliases st)
    (reads : ∀ tmp ∈ st.reads, tmp ∈ defined)
    (same : ∀ tmp ∈ st.defines.toList ++ defined,
      aliases' tmp = aliases tmp) : Describes aliases' st := by
  cases st with
  | wrTmp tmp data =>
      have sameTmp := same tmp (List.mem_cons_self ..)
      cases data with
      | atom operand =>
          have sameOperand : operand.subst aliases' = operand.subst aliases :=
            IRAtom.subst_congr fun source read =>
              same source (List.mem_cons_of_mem _ (reads source read))
          obtain ⟨value, isAlias⟩ := describes
          constructor
          · rw [sameOperand, ← value, IRAtom.subst, IRAtom.subst, sameTmp]
          · rw [sameTmp]
            exact isAlias
      | _ => exact sameTmp.trans describes
  | _ => trivial

private theorem collectAlias_spec (typesUsed : Nat) {st : IRStmt}
    (settled : Settled aliases defined)
    (reads : ∀ tmp ∈ st.reads, tmp ∈ defined)
    (writes : ∀ tmp ∈ st.defines.toList, tmp ∉ defined)
    (plain : st.plain) :
    ∃ aliases', collectAlias typesUsed aliases st =
        .ok (aliases', st.dropCopy) ∧
      Settled aliases' (st.defines.toList ++ defined) ∧
      (∀ tmp ∈ defined, aliases' tmp = aliases tmp) ∧
      Describes aliases' st := by
  cases st with
  | wrTmp tmp data =>
      have new := writes tmp (List.mem_singleton_self tmp)
      have old : ∀ target, ∀ other ∈ defined,
          Function.update aliases tmp target other = aliases other := by
        intro target other known
        apply Function.update_of_ne
        intro same
        exact new (same ▸ known)
      cases data with
      | atom operand =>
          have inScope : ∀ source ∈ operand.tmps, source ∈ defined := reads
          cases operand with
          | const con =>
              refine ⟨_, rfl, settled.update new inScope rfl, old _, ?_⟩
              simp [Describes, IRAtom.subst, IRAlias.atom]
          | rdTmp source =>
              have known := reads source (List.mem_singleton_self source)
              obtain ⟨value, isAlias⟩ :=
                settled.followAlias known typesUsed tmp
              -- the end of the chain was assigned before, `tmp` was not
              have different :
                  followAlias aliases (typesUsed + 1) (.tmp source) ≠
                    .tmp tmp := by
                intro same
                rw [same] at value
                have read : tmp ∈ (IRAtom.subst aliases (.rdTmp source)).tmps :=
                  value ▸ List.mem_singleton_self tmp
                exact new (settled.followed source known tmp read).1
              refine ⟨_, ?_, settled.update new inScope value, old _, ?_⟩
              · simp only [collectAlias, tlAssert_of different, ok_bind]
                rfl
              · have sameSource := old
                  (followAlias aliases (typesUsed + 1) (.tmp source)) source
                  known
                constructor
                · rw [IRAtom.subst, Function.update_self, value, IRAtom.subst,
                    IRAtom.subst, sameSource]
                · rw [Function.update_self]
                  exact isAlias
      | _ =>
          exact ⟨aliases, rfl, settled.computed new, fun _ _ => rfl,
            settled.fresh tmp new⟩
  | dirty details => cases plain
  | _ => exact ⟨aliases, rfl, settled, fun _ _ => rfl, trivial⟩

private theorem collectAliases_spec (typesUsed : Nat) {tyenv : List IRType}
    {stmts : List IRStmt} (settled : Settled aliases defined)
    (inScope : Scoped tyenv defined stmts)
    (plain : ∀ st ∈ stmts, st.plain) :
    ∃ aliases', collectAliases typesUsed aliases stmts =
        .ok (aliases', stmts.map IRStmt.dropCopy) ∧
      Settled aliases' (scopeAfter defined stmts) ∧
      (∀ tmp ∈ defined, aliases' tmp = aliases tmp) ∧
      ∀ st ∈ stmts, Describes aliases' st := by
  induction stmts generalizing aliases defined with
  | nil =>
      exact ⟨aliases, rfl, settled, fun _ _ => rfl, fun _ mem => by cases mem⟩
  | cons st rest induction =>
      obtain ⟨reads, writes, later⟩ := inScope
      obtain ⟨middle, step, settled', old, describes⟩ :=
        collectAlias_spec typesUsed settled reads
          (fun tmp new => (writes tmp new).2) (plain st (List.mem_cons_self ..))
      obtain ⟨aliases', run, settled'', old', describes'⟩ :=
        induction settled' later
          fun other mem => plain other (List.mem_cons_of_mem _ mem)
      refine ⟨aliases', ?_, settled'', ?_, ?_⟩
      · simp only [collectAliases, step, ok_bind, run]
        rfl
      · intro tmp known
        rw [old' tmp (List.mem_append_right _ known), old tmp known]
      · intro other mem
        cases List.mem_cons.mp mem with
        | inl first => exact first ▸ describes.congr reads old'
        | inr rest => exact describes' other rest

theorem Scoped.reads_lt {tyenv : List IRType} {stmts : List IRStmt}
    (inScope : Scoped tyenv defined stmts)
    (declared : ∀ tmp ∈ defined, tmp < tyenv.length) :
    ∀ st ∈ stmts, ∀ tmp ∈ st.reads, tmp < tyenv.length := by
  induction stmts generalizing defined with
  | nil => intro st mem; cases mem
  | cons first rest induction =>
      obtain ⟨reads, writes, later⟩ := inScope
      have declared' : ∀ tmp ∈ first.defines.toList ++ defined,
          tmp < tyenv.length := by
        intro tmp known
        cases List.mem_append.mp known with
        | inl new => exact (writes tmp new).1
        | inr old => exact declared tmp old
      intro st mem tmp read
      cases List.mem_cons.mp mem with
      | inl isFirst => exact declared tmp (reads tmp (isFirst ▸ read))
      | inr isLater => exact induction later declared' st isLater tmp read

private theorem optimiseAtomicAliasStmts_eq {stmts : List IRStmt}
    (inRange : ∀ st ∈ stmts, ∀ tmp ∈ st.reads, tmp < typesUsed) :
    optimiseAtomicAliasStmts aliases typesUsed
        (stmts.map IRStmt.dropCopy) =
      .ok (stmts.map (IRStmt.subst aliases)) := by
  induction stmts with
  | nil => rfl
  | cons st rest induction =>
      have first : optimiseAtomicAliasStmt aliases typesUsed st.dropCopy =
          .ok (st.subst aliases) :=
        optimiseAtomicAliasStmt_eq (inRange st (List.mem_cons_self ..))
      have later := induction
        fun other mem => inRange other (List.mem_cons_of_mem _ mem)
      simp only [List.map_cons, optimiseAtomicAliasStmts, first, later,
        ok_bind]
      rfl

/-- On a block in single-assignment form the pass is a substitution. -/
theorem irsbOptimiseAtomicAlias_spec {irsb : IRSB}
    (inScope : Scoped irsb.tyenv [] irsb.stmts)
    (plain : ∀ st ∈ irsb.stmts, st.plain) :
    ∃ aliases : Aliases, irsbOptimiseAtomicAlias irsb =
        .ok { irsb with stmts := irsb.stmts.map (IRStmt.subst aliases) } ∧
      Settled aliases (scopeAfter [] irsb.stmts) ∧
      ∀ st ∈ irsb.stmts, Describes aliases st := by
  have settled : Settled (fun _ => .none) [] :=
    ⟨fun _ _ => rfl, fun _ known => by cases known⟩
  obtain ⟨aliases, collected, settled, _, describes⟩ :=
    collectAliases_spec irsb.tyenv.length settled inScope plain
  have rewritten : optimiseAtomicAliasStmts aliases irsb.tyenv.length
      (irsb.stmts.map IRStmt.dropCopy) =
        .ok (irsb.stmts.map (IRStmt.subst aliases)) :=
    optimiseAtomicAliasStmts_eq
      (inScope.reads_lt fun _ known => by cases known)
  refine ⟨aliases, ?_, settled, describes⟩
  simp only [irsbOptimiseAtomicAlias, collected, ok_bind, rewritten]
  rfl

end Collecting

section Meaning

variable {host : Host} {aliases : Aliases} {tyenv : List IRType}
  {defined : List Nat} {state state' : IRState}

/-- The two states differ at most in the temporaries that have an alias, and
the alias has their value. -/
structure Simulates (aliases : Aliases) (tyenv : List IRType)
    (defined : List Nat) (state state' : IRState) : Prop where
  guest : state'.guest = state.guest
  memory : state'.memory = state.memory
  inScope : ∀ tmp ∈ defined,
    ∀ other ∈ (IRAtom.subst aliases (.rdTmp tmp)).tmps, other ∈ defined
  typed : ∀ tmp ∈ defined,
    typeOfIRAtom tyenv (IRAtom.subst aliases (.rdTmp tmp)) =
      typeOfIRAtom tyenv (.rdTmp tmp)
  temps : ∀ tmp ∈ defined,
    (IRAtom.subst aliases (.rdTmp tmp)).eval state' = state.temps tmp

namespace Simulates

theorem eval_atom (simulates : Simulates aliases tyenv defined state state')
    {operand : IRAtom} (inScope : ∀ tmp ∈ operand.tmps, tmp ∈ defined) :
    (operand.subst aliases).eval state' = operand.eval state := by
  cases operand with
  | rdTmp tmp =>
      exact simulates.temps tmp (inScope tmp (List.mem_singleton_self tmp))
  | const con => rfl

theorem tmps_atom (simulates : Simulates aliases tyenv defined state state')
    {operand : IRAtom} (inScope : ∀ tmp ∈ operand.tmps, tmp ∈ defined) :
    ∀ tmp ∈ (operand.subst aliases).tmps, tmp ∈ defined := by
  cases operand with
  | rdTmp tmp =>
      exact simulates.inScope tmp (inScope tmp (List.mem_singleton_self tmp))
  | const con => intro tmp read; cases read

theorem typeOf_atom (simulates : Simulates aliases tyenv defined state state')
    {operand : IRAtom} (inScope : ∀ tmp ∈ operand.tmps, tmp ∈ defined) :
    typeOfIRAtom tyenv (operand.subst aliases) =
      typeOfIRAtom tyenv operand := by
  cases operand with
  | rdTmp tmp =>
      exact simulates.typed tmp (inScope tmp (List.mem_singleton_self tmp))
  | const con => rfl

theorem bytes_atom (simulates : Simulates aliases tyenv defined state state')
    {operand : IRAtom} (inScope : ∀ tmp ∈ operand.tmps, tmp ∈ defined) :
    (operand.subst aliases).bytes tyenv = operand.bytes tyenv := by
  rw [IRAtom.bytes, simulates.typeOf_atom inScope, ← IRAtom.bytes]

theorem eval_expr (simulates : Simulates aliases tyenv defined state state')
    {tmp : Nat} {data : IRExpr} (inScope : ∀ tmp ∈ data.tmps, tmp ∈ defined)
    (plain : (IRStmt.wrTmp tmp data).plain) :
    (data.subst aliases).eval host state' = data.eval host state := by
  have operand : ∀ operand : IRAtom, (∀ tmp ∈ operand.tmps, tmp ∈ defined) →
      (operand.subst aliases).eval state' = operand.eval state :=
    fun _ => simulates.eval_atom
  cases data with
  | get offset ty =>
      simp only [IRExpr.subst, IRExpr.eval, simulates.guest]
  | getI descr ix bias => cases plain
  | ccall cee retty args => cases plain
  | load endness ty addr =>
      cases endness <;>
        simp only [IRExpr.subst, IRExpr.eval, simulates.memory,
          operand addr inScope]
  | atom source => exact operand source inScope
  | unop op arg =>
      simp only [IRExpr.subst, IRExpr.eval, operand arg inScope]
  | binop op arg1 arg2 =>
      simp only [IRExpr.tmps, List.forall_mem_append] at inScope
      simp only [IRExpr.subst, IRExpr.eval, operand arg1 inScope.1,
        operand arg2 inScope.2]
  | triop op arg1 arg2 arg3 =>
      simp only [IRExpr.tmps, List.forall_mem_append] at inScope
      simp only [IRExpr.subst, IRExpr.eval, operand arg1 inScope.1.1,
        operand arg2 inScope.1.2, operand arg3 inScope.2]
  | qop op arg1 arg2 arg3 arg4 =>
      simp only [IRExpr.tmps, List.forall_mem_append] at inScope
      simp only [IRExpr.subst, IRExpr.eval, operand arg1 inScope.1.1.1,
        operand arg2 inScope.1.1.2, operand arg3 inScope.1.2,
        operand arg4 inScope.2]
  | mux0X cond expr0 exprX =>
      simp only [IRExpr.tmps, List.forall_mem_append] at inScope
      simp only [IRExpr.subst, IRExpr.eval, operand cond inScope.1.1,
        operand expr0 inScope.1.2, operand exprX inScope.2]

/-- A copy or constant is left out: its temporary has an alias now. -/
theorem copy (simulates : Simulates aliases tyenv defined state state')
    {tmp : Nat} {operand : IRAtom} (new : tmp ∉ defined)
    (inScope : ∀ tmp ∈ operand.tmps, tmp ∈ defined)
    (typed : typeOfIRAtom tyenv operand = typeOfIRAtom tyenv (.rdTmp tmp))
    (described : IRAtom.subst aliases (.rdTmp tmp) = operand.subst aliases) :
    Simulates aliases tyenv (tmp :: defined)
      { state with
        temps := Function.update state.temps tmp (operand.eval state) }
      state' := by
  refine ⟨simulates.guest, simulates.memory, ?_, ?_, ?_⟩
  · intro other known last read
    apply List.mem_cons_of_mem
    cases List.mem_cons.mp known with
    | inl same =>
        rw [same, described] at read
        exact simulates.tmps_atom inScope last read
    | inr known => exact simulates.inScope other known last read
  · intro other known
    cases List.mem_cons.mp known with
    | inl same =>
        rw [same, described, simulates.typeOf_atom inScope, typed]
    | inr known => exact simulates.typed other known
  · intro other known
    cases List.mem_cons.mp known with
    | inl same =>
        rw [same, described, simulates.eval_atom inScope]
        exact (Function.update_self tmp (operand.eval state) state.temps).symm
    | inr known =>
        have different : other ≠ tmp := fun same => new (same ▸ known)
        rw [simulates.temps other known]
        exact (Function.update_of_ne different _ _).symm

/-- A temporary that is computed gets the same value in both states. -/
theorem computed (simulates : Simulates aliases tyenv defined state state')
    {tmp : Nat} (new : tmp ∉ defined) (noAlias : aliases tmp = .none)
    (value : Nat) :
    Simulates aliases tyenv (tmp :: defined)
      { state with temps := Function.update state.temps tmp value }
      { state' with temps := Function.update state'.temps tmp value } := by
  have itself : IRAtom.subst aliases (.rdTmp tmp) = .rdTmp tmp := by
    rw [IRAtom.subst, noAlias]
    rfl
  refine ⟨simulates.guest, simulates.memory, ?_, ?_, ?_⟩
  · intro other known last read
    cases List.mem_cons.mp known with
    | inl same =>
        rw [same, itself] at read
        exact List.mem_singleton.mp read ▸ List.mem_cons_self ..
    | inr known =>
        exact List.mem_cons_of_mem _ (simulates.inScope other known last read)
  · intro other known
    cases List.mem_cons.mp known with
    | inl same => rw [same, itself]
    | inr known => exact simulates.typed other known
  · intro other known
    cases List.mem_cons.mp known with
    | inl same =>
        subst same
        simp only [itself, IRAtom.eval, Function.update_self]
    | inr known =>
        have different : other ≠ tmp := fun same => new (same ▸ known)
        have unchanged : (IRAtom.subst aliases (.rdTmp other)).eval
            { state' with temps := Function.update state'.temps tmp value } =
            (IRAtom.subst aliases (.rdTmp other)).eval state' := by
          apply IRAtom.eval_congr
          intro last read
          apply Function.update_of_ne
          intro same
          exact new (same ▸ simulates.inScope other known last read)
        rw [unchanged, simulates.temps other known]
        exact (Function.update_of_ne different _ _).symm

/-- The two states may change the guest state and memory alike. -/
theorem same_temps (simulates : Simulates aliases tyenv defined state state')
    {next next' : IRState} (guest : next'.guest = next.guest)
    (memory : next'.memory = next.memory) (temps : next.temps = state.temps)
    (temps' : next'.temps = state'.temps) :
    Simulates aliases tyenv defined next next' := by
  refine ⟨guest, memory, simulates.inScope, simulates.typed, ?_⟩
  intro tmp known
  rw [temps, ← simulates.temps tmp known]
  apply IRAtom.eval_congr
  intro other _
  rw [temps']

theorem exec {st : IRStmt}
    (simulates : Simulates aliases tyenv defined state state')
    (reads : ∀ tmp ∈ st.reads, tmp ∈ defined)
    (writes : ∀ tmp ∈ st.defines.toList, tmp < tyenv.length ∧ tmp ∉ defined)
    (typed : st.wellTyped host tyenv) (plain : st.plain)
    (described : Describes aliases st) :
    Simulates aliases tyenv (st.defines.toList ++ defined)
      (Dependency.exec host tyenv state st)
      (Dependency.exec host tyenv state' (st.subst aliases)) := by
  cases st with
  | wrTmp tmp data =>
      obtain ⟨small, new⟩ := writes tmp (List.mem_singleton_self tmp)
      have declared := List.getElem?_eq_getElem small
      have value : (data.subst aliases).eval host state' =
          data.eval host state := simulates.eval_expr reads plain
      cases data with
      | atom operand =>
          apply simulates.copy new reads _ described.1
          have same := (IRStmt.wellTyped_wrTmp typed declared).1
          rw [typeOfIRExpr] at same
          rw [same, typeOfIRAtom, declared]
      | getI descr ix bias => cases plain
      | ccall cee retty args => cases plain
      | _ =>
          simp only [Dependency.exec, IRStmt.subst, value]
          exact simulates.computed new described _
  | put offset data =>
      have guest : (Dependency.exec host tyenv state'
          (.put offset (data.subst aliases))).guest =
            (Dependency.exec host tyenv state (.put offset data)).guest := by
        simp only [Dependency.exec, simulates.eval_atom reads,
          simulates.bytes_atom reads, simulates.guest]
      exact simulates.same_temps guest simulates.memory rfl rfl
  | store endness addr data =>
      simp only [IRStmt.reads, List.forall_mem_append] at reads
      have memory : (Dependency.exec host tyenv state'
          (.store endness (addr.subst aliases) (data.subst aliases))).memory =
            (Dependency.exec host tyenv state
              (.store endness addr data)).memory := by
        cases endness <;>
          simp only [Dependency.exec, simulates.eval_atom reads.1,
            simulates.eval_atom reads.2, simulates.bytes_atom reads.2,
            simulates.memory]
      cases endness <;>
        exact simulates.same_temps simulates.guest memory rfl rfl
  | putI descr ix bias data => cases plain
  | dirty details => cases plain
  | _ => exact simulates

/-- At any point of the block the two states correspond. -/
theorem execs {stmts : List IRStmt}
    (simulates : Simulates aliases tyenv defined state state')
    (inScope : Scoped tyenv defined stmts)
    (typed : ∀ st ∈ stmts, st.wellTyped host tyenv)
    (plain : ∀ st ∈ stmts, st.plain)
    (described : ∀ st ∈ stmts, Describes aliases st) (count : Nat) :
    Simulates aliases tyenv (scopeAfter defined (stmts.take count))
      (Dependency.execs host tyenv state (stmts.take count))
      (Dependency.execs host tyenv state'
        ((stmts.map (IRStmt.subst aliases)).take count)) := by
  induction stmts generalizing defined state state' count with
  | nil => simpa [scopeAfter] using simulates
  | cons st rest induction =>
      obtain ⟨reads, writes, later⟩ := inScope
      cases count with
      | zero => exact simulates
      | succ count =>
          have first := List.mem_cons_self (a := st) (l := rest)
          exact induction
            (simulates.exec reads writes (typed st first) (plain st first)
              (described st first)) later
            (fun other mem => typed other (List.mem_cons_of_mem _ mem))
            (fun other mem => plain other (List.mem_cons_of_mem _ mem))
            (fun other mem => described other (List.mem_cons_of_mem _ mem))
            count

end Simulates

end Meaning

end Dependency

end HelgrindPlus
