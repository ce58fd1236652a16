import HelgrindPlus.Dependency.AtomicAlias
import HelgrindPlus.Dependency.RedundantGets

/-!
# The fast optimiser

`HG_(optimise_irsb_fast)` removes redundant reads of registers and then copies
and constants.  A block means the same after it as before, provided that no
register read is replaced whose bytes were overwritten in part, and what is
left reads no temporary that is gone, provided that no hint does.
-/

namespace HelgrindPlus

namespace Dependency

open Outcome Bytes

def optimiseIrsbFast (irsb : IRSB) : Except Halt IRSB := do
  let irsb ← irsbRedundantGetRemoval irsb
  irsbOptimiseAtomicAlias irsb

namespace IRSB

section Running

variable (host : Host) (irsb : IRSB) (state : IRState)

/-- The state when the first `count` statements are done. -/
def after (count : Nat) : IRState :=
  execs host irsb.tyenv state (irsb.stmts.take count)

/-- The value of the guard if the statement is an exit. -/
def guardAt (count : Nat) : Option Nat :=
  match irsb.stmts[count]? with
  | some (.exit guard) => some (guard.eval (irsb.after host state count))
  | _ => none

/-- The statement at which the block is left: the first exit whose guard
holds, or its end. -/
def leftAt : Nat :=
  ((List.range irsb.stmts.length).find? fun count =>
    (irsb.guardAt host state count).any (· ≠ 0)).getD irsb.stmts.length

end Running

/-- At the statement `count` the two blocks agree in the guest state, in
memory, in the guard that the statement has, and in the temporaries that the
second has assigned. -/
structure SameAt (host : Host) (irsb irsb' : IRSB) (state : IRState)
    (count : Nat) : Prop where
  guest : (irsb'.after host state count).guest =
    (irsb.after host state count).guest
  memory : (irsb'.after host state count).memory =
    (irsb.after host state count).memory
  guardAt : irsb'.guardAt host state count = irsb.guardAt host state count
  temps : ∀ tmp ∈ definedBy (irsb'.stmts.take count),
    (irsb'.after host state count).temps tmp =
      (irsb.after host state count).temps tmp

/-- The blocks agree at every statement and are left at the same one. -/
structure SameMeaning (host : Host) (irsb irsb' : IRSB) : Prop where
  sameAt : ∀ state count, SameAt host irsb irsb' state count
  leftAt : ∀ state, irsb'.leftAt host state = irsb.leftAt host state

/-- A statement of the second block reads a temporary that only the first
assigns. -/
def ReadsRemoved (irsb irsb' : IRSB) : Prop :=
  ∃ st ∈ irsb'.stmts, ∃ tmp ∈ st.reads,
    tmp ∈ definedBy irsb.stmts ∧ tmp ∉ definedBy irsb'.stmts

end IRSB

/-- The temporary to which a copy or a constant is assigned. -/
def IRStmt.copied : IRStmt → Option Nat
  | wrTmp tmp (.atom _) => some tmp
  | _ => none

/-- No hint reads a temporary to which a copy, a constant or a register with a
remembered operand is assigned. -/
def IRSB.hintsKept (irsb : IRSB) : Bool :=
  let copies :=
    (replaceGets irsb.tyenv [] irsb.stmts).filterMap IRStmt.copied
  irsb.stmts.all fun st =>
    match st with
    | .abiHint base _ nia =>
        (base.tmps ++ nia.tmps).all fun tmp => !copies.contains tmp
    | _ => true

section Optimiser

variable {host : Host} {irsb : IRSB} {aliases : Aliases}

/-- The block after both passes, with the table of the second. -/
def IRSB.optimised (irsb : IRSB) (aliases : Aliases) : IRSB :=
  { irsb with
    stmts := (replaceGets irsb.tyenv [] irsb.stmts).map
      (IRStmt.subst aliases) }

theorem optimiseIrsbFast_spec (inScope : Scoped irsb.tyenv [] irsb.stmts)
    (plain : ∀ st ∈ irsb.stmts, st.plain)
    (fits : ∀ st ∈ irsb.stmts, st.addressable irsb.tyenv) :
    ∃ aliases, optimiseIrsbFast irsb = .ok (irsb.optimised aliases) ∧
      Settled aliases
        (scopeAfter [] (replaceGets irsb.tyenv [] irsb.stmts)) ∧
      ∀ st ∈ replaceGets irsb.tyenv [] irsb.stmts, Describes aliases st := by
  have remembers : Remembers irsb.tyenv [] fun _ => none :=
    fun _ _ _ => rfl
  have first := redundantGets_spec remembers CacheScoped.nil inScope fits
  have inScope' := replaceGets_scoped CacheScoped.nil inScope fits
  have plain' : ∀ st ∈ replaceGets irsb.tyenv [] irsb.stmts, st.plain :=
    replaceGets_all (fun _ _ => replaceGet_plain) plain
  obtain ⟨aliases, second, settled, described⟩ :=
    @irsbOptimiseAtomicAlias_spec
      { irsb with stmts := replaceGets irsb.tyenv [] irsb.stmts }
      inScope' plain'
  refine ⟨aliases, ?_, settled, described⟩
  simp only [optimiseIrsbFast, irsbRedundantGetRemoval, first, ok_bind]
  exact second

private theorem replaceGet_wrTmp (tyenv : List IRType) (past : List IRStmt)
    (tmp : Nat) (data : IRExpr) :
    ∃ data', replaceGet tyenv past (.wrTmp tmp data) = .wrTmp tmp data' := by
  cases data with
  | get offset ty =>
      simp only [replaceGet]
      split <;> exact ⟨_, rfl⟩
  | _ => exact ⟨_, rfl⟩

/-- Which temporaries are still assigned. -/
theorem defined_subst_iff {stmts : List IRStmt}
    (described : ∀ st ∈ stmts, Describes aliases st)
    (plain : ∀ st ∈ stmts, st.plain) {tmp : Nat} :
    tmp ∈ definedBy (stmts.map (IRStmt.subst aliases)) ↔
      tmp ∈ definedBy stmts ∧ aliases tmp = .none := by
  induction stmts with
  | nil => simp [definedBy]
  | cons st rest induction =>
      have later := induction
        (fun other mem => described other (List.mem_cons_of_mem _ mem))
        (fun other mem => plain other (List.mem_cons_of_mem _ mem))
      have first : tmp ∈ (st.subst aliases).defines.toList ↔
          tmp ∈ st.defines.toList ∧ aliases tmp = .none := by
        have describedFirst := described st (List.mem_cons_self ..)
        have plainFirst := plain st (List.mem_cons_self ..)
        cases st with
        | wrTmp tmp' data =>
            cases data with
            | atom operand =>
                simp only [IRStmt.subst, IRStmt.defines, Option.toList_none,
                  Option.toList_some, List.mem_singleton, List.not_mem_nil,
                  false_iff]
                intro both
                exact describedFirst.2 (both.1 ▸ both.2)
            | _ =>
                have none : aliases tmp' = .none := describedFirst
                simp only [IRStmt.subst, IRStmt.defines, Option.toList_some,
                  List.mem_singleton]
                constructor
                · intro same
                  exact ⟨same, same ▸ none⟩
                · exact fun both => both.1
        | dirty details => cases plainFirst
        | _ => simp [IRStmt.subst, IRStmt.defines]
      simp only [definedBy, List.map_cons, List.flatMap_cons,
        List.mem_append] at later ⊢
      rw [later, first]
      tauto

private theorem optimised_sameAt (sane : irsb.Sane host)
    (plain : ∀ st ∈ irsb.stmts, st.plain)
    (fits : ∀ st ∈ irsb.stmts, st.addressable irsb.tyenv)
    (fresh : freshGets irsb.tyenv [] irsb.stmts)
    (described : ∀ st ∈ replaceGets irsb.tyenv [] irsb.stmts,
      Describes aliases st) (state : IRState) (count : Nat) :
    IRSB.SameAt host irsb (irsb.optimised aliases) state count := by
  have inScope' := replaceGets_scoped CacheScoped.nil sane.inScope fits
  have plain' : ∀ st ∈ replaceGets irsb.tyenv [] irsb.stmts, st.plain :=
    replaceGets_all (fun _ _ => replaceGet_plain) plain
  have typed' : ∀ st ∈ replaceGets irsb.tyenv [] irsb.stmts,
      st.wellTyped host irsb.tyenv :=
    replaceGets_all (fun _ _ => replaceGet_wellTyped) sane.typed
  have replaced : execs host irsb.tyenv state
      ((replaceGets irsb.tyenv [] irsb.stmts).take count) =
        irsb.after host state count :=
    execs_replaceGets Coherent.initial sane.inScope sane.typed plain fits fresh
      count
  have initially : Simulates aliases irsb.tyenv [] state state :=
    ⟨rfl, rfl, (fun _ known => by cases known), (fun _ known => by cases known),
      (fun _ known => by cases known)⟩
  have simulates := initially.execs inScope' typed' plain' described count
  rw [replaced] at simulates
  refine ⟨simulates.guest, simulates.memory, ?_, ?_⟩
  · -- only exits have guards, and they stay exits
    simp only [IRSB.guardAt, IRSB.optimised, List.getElem?_map,
      getElem?_replaceGets]
    have reads := @Scoped.reads_at _ _ _ inScope' count
    rw [getElem?_replaceGets] at reads
    cases found : irsb.stmts[count]? with
    | none => rfl
    | some st =>
        rw [found] at reads
        cases st with
        | exit guard =>
            exact congrArg some (simulates.eval_atom (reads rfl))
        | wrTmp tmp data =>
            obtain ⟨data', assigns⟩ := replaceGet_wrTmp irsb.tyenv
              ((irsb.stmts.take count).reverse ++ []) tmp data
            simp only [Option.map_some, assigns]
            cases data' <;> rfl
        | _ => rfl
  · intro tmp known
    have taken : (irsb.optimised aliases).stmts.take count =
        ((replaceGets irsb.tyenv [] irsb.stmts).take count).map
          (IRStmt.subst aliases) := List.map_take.symm
    rw [taken, defined_subst_iff
      (fun st mem => described st (List.mem_of_mem_take mem))
      (fun st mem => plain' st (List.mem_of_mem_take mem))] at known
    have value := simulates.temps tmp (mem_scopeAfter.mpr (.inl known.1))
    rw [IRAtom.subst, known.2] at value
    exact value

private theorem optimised_sameMeaning (sane : irsb.Sane host)
    (plain : ∀ st ∈ irsb.stmts, st.plain)
    (fits : ∀ st ∈ irsb.stmts, st.addressable irsb.tyenv)
    (fresh : freshGets irsb.tyenv [] irsb.stmts)
    (described : ∀ st ∈ replaceGets irsb.tyenv [] irsb.stmts,
      Describes aliases st) :
    IRSB.SameMeaning host irsb (irsb.optimised aliases) := by
  have sameAt := optimised_sameAt sane plain fits fresh described
  refine ⟨sameAt, ?_⟩
  intro state
  have length : (irsb.optimised aliases).stmts.length = irsb.stmts.length := by
    rw [IRSB.optimised, List.length_map, length_replaceGets]
  have guards : (irsb.optimised aliases).guardAt host state =
      irsb.guardAt host state :=
    funext fun count => (sameAt state count).guardAt
  rw [IRSB.leftAt, length, guards, IRSB.leftAt]

private theorem copied_iff {stmts : List IRStmt}
    (described : ∀ st ∈ stmts, Describes aliases st)
    (plain : ∀ st ∈ stmts, st.plain) {tmp : Nat} :
    tmp ∈ stmts.filterMap IRStmt.copied ↔
      tmp ∈ definedBy stmts ∧ aliases tmp ≠ .none := by
  rw [List.mem_filterMap, definedBy, List.mem_flatMap]
  constructor
  · rintro ⟨st, mem, copied⟩
    cases st with
    | wrTmp tmp' data =>
        cases data with
        | atom operand =>
            cases copied
            exact ⟨⟨_, mem, List.mem_singleton_self tmp⟩,
              (described _ mem).2⟩
        | _ => cases copied
    | _ => cases copied
  · rintro ⟨⟨st, mem, defines⟩, isAlias⟩
    cases st with
    | wrTmp tmp' data =>
        have same : tmp = tmp' := List.mem_singleton.mp defines
        subst same
        cases data with
        | atom operand => exact ⟨_, mem, rfl⟩
        | _ => exact absurd (described _ mem) isAlias
    | dirty details => exact absurd (plain _ mem) (by simp [IRStmt.plain])
    | _ => cases defines

/-- A statement other than a hint reads only what its operands stand for. -/
theorem reads_subst {st : IRStmt} {tmp : Nat} (plain : st.plain)
    (noHint : ∀ base len nia, st ≠ .abiHint base len nia)
    (read : tmp ∈ (st.subst aliases).reads) :
    ∃ source ∈ st.reads, tmp ∈ (IRAtom.subst aliases (.rdTmp source)).tmps := by
  have operand : ∀ operand : IRAtom,
      (∀ source ∈ operand.tmps, source ∈ st.reads) →
      tmp ∈ (operand.subst aliases).tmps →
      ∃ source ∈ st.reads,
        tmp ∈ (IRAtom.subst aliases (.rdTmp source)).tmps := by
    intro operand reads read
    cases operand with
    | rdTmp source =>
        exact ⟨source, reads source (List.mem_singleton_self source), read⟩
    | const con => cases read
  cases st with
  | abiHint base len nia => exact absurd rfl (noHint base len nia)
  | putI descr ix bias data => cases plain
  | dirty details => cases plain
  | put offset data => exact operand data (fun _ mem => mem) read
  | exit guard => exact operand guard (fun _ mem => mem) read
  | store endness addr data =>
      simp only [IRStmt.subst, IRStmt.reads, List.mem_append]
        at read operand ⊢
      cases read with
      | inl read => exact operand addr (fun _ mem => .inl mem) read
      | inr read => exact operand data (fun _ mem => .inr mem) read
  | wrTmp tmp' data =>
      cases data with
      | get offset ty => cases read
      | getI descr ix bias => cases plain
      | ccall cee retty args => cases plain
      | atom source => cases read
      | unop op arg => exact operand arg (fun _ mem => mem) read
      | load endness ty addr => exact operand addr (fun _ mem => mem) read
      | binop op arg1 arg2 =>
          simp only [IRStmt.subst, IRExpr.subst, IRStmt.reads, IRExpr.tmps,
            List.mem_append] at read operand ⊢
          obtain read | read := read
          · exact operand arg1 (fun _ mem => .inl mem) read
          · exact operand arg2 (fun _ mem => .inr mem) read
      | triop op arg1 arg2 arg3 =>
          simp only [IRStmt.subst, IRExpr.subst, IRStmt.reads, IRExpr.tmps,
            List.mem_append] at read operand ⊢
          obtain (read | read) | read := read
          · exact operand arg1 (fun _ mem => .inl (.inl mem)) read
          · exact operand arg2 (fun _ mem => .inl (.inr mem)) read
          · exact operand arg3 (fun _ mem => .inr mem) read
      | qop op arg1 arg2 arg3 arg4 =>
          simp only [IRStmt.subst, IRExpr.subst, IRStmt.reads, IRExpr.tmps,
            List.mem_append] at read operand ⊢
          obtain ((read | read) | read) | read := read
          · exact operand arg1 (fun _ mem => .inl (.inl (.inl mem))) read
          · exact operand arg2 (fun _ mem => .inl (.inl (.inr mem))) read
          · exact operand arg3 (fun _ mem => .inl (.inr mem)) read
          · exact operand arg4 (fun _ mem => .inr mem) read
      | mux0X cond expr0 exprX =>
          simp only [IRStmt.subst, IRExpr.subst, IRStmt.reads, IRExpr.tmps,
            List.mem_append] at read operand ⊢
          obtain (read | read) | read := read
          · exact operand cond (fun _ mem => .inl (.inl mem)) read
          · exact operand expr0 (fun _ mem => .inl (.inr mem)) read
          · exact operand exprX (fun _ mem => .inr mem) read
  | _ => cases read

/-- The hints are where they were. -/
theorem abiHint_mem_replaceGets {tyenv : List IRType} {stmts : List IRStmt}
    {base : IRAtom} {len : Nat} {nia : IRAtom} :
    .abiHint base len nia ∈ replaceGets tyenv [] stmts ↔
      .abiHint base len nia ∈ stmts := by
  have unchanged : ∀ past st,
      replaceGet tyenv past st = .abiHint base len nia ↔
        st = .abiHint base len nia := by
    intro past st
    cases st with
    | wrTmp tmp data =>
        obtain ⟨data', assigns⟩ := replaceGet_wrTmp tyenv past tmp data
        simp [assigns]
    | _ => rfl
  simp only [List.mem_iff_getElem?, getElem?_replaceGets, Option.map_eq_some_iff,
    unchanged, exists_eq_right]

private theorem readsRemoved_iff
    (inScope : Scoped irsb.tyenv [] (replaceGets irsb.tyenv [] irsb.stmts))
    (plain : ∀ st ∈ replaceGets irsb.tyenv [] irsb.stmts, st.plain)
    (settled : Settled aliases
      (scopeAfter [] (replaceGets irsb.tyenv [] irsb.stmts)))
    (described : ∀ st ∈ replaceGets irsb.tyenv [] irsb.stmts,
      Describes aliases st) :
    ¬ IRSB.ReadsRemoved irsb (irsb.optimised aliases) ↔ irsb.hintsKept := by
  have removed : ∀ tmp,
      (tmp ∈ definedBy irsb.stmts ∧
        tmp ∉ definedBy (irsb.optimised aliases).stmts) ↔
      tmp ∈ (replaceGets irsb.tyenv [] irsb.stmts).filterMap
        IRStmt.copied := by
    intro tmp
    rw [copied_iff described plain, IRSB.optimised,
      defined_subst_iff described plain, definedBy_replaceGets]
    tauto
  have hints : irsb.hintsKept ↔ ∀ base len nia,
      .abiHint base len nia ∈ irsb.stmts → ∀ tmp ∈ base.tmps ++ nia.tmps,
        tmp ∉ (replaceGets irsb.tyenv [] irsb.stmts).filterMap
          IRStmt.copied := by
    rw [IRSB.hintsKept, List.all_eq_true]
    constructor
    · intro all base len nia mem tmp read
      simpa using List.all_eq_true.mp (all _ mem) tmp read
    · intro all st mem
      cases st with
      | abiHint base len nia =>
          refine List.all_eq_true.mpr fun tmp read => ?_
          simpa using all base len nia mem tmp read
      | _ => rfl
  rw [hints]
  constructor
  · intro nothing base len nia mem tmp read copied
    obtain ⟨defines, gone⟩ := (removed tmp).mpr copied
    have kept : IRStmt.abiHint base len nia ∈
        (irsb.optimised aliases).stmts :=
      List.mem_map.mpr ⟨_, abiHint_mem_replaceGets.mpr mem, rfl⟩
    exact nothing ⟨_, kept, tmp, read, defines, gone⟩
  · rintro kept ⟨st', mem', tmp, read, defines, gone⟩
    have copied := (removed tmp).mp ⟨defines, gone⟩
    obtain ⟨st, mem, rfl⟩ := List.mem_map.mp mem'
    by_cases hint : ∃ base len nia, st = .abiHint base len nia
    · obtain ⟨base, len, nia, rfl⟩ := hint
      exact kept base len nia (abiHint_mem_replaceGets.mp mem) tmp read copied
    · have noHint : ∀ base len nia, st ≠ .abiHint base len nia :=
        fun base len nia same => hint ⟨base, len, nia, same⟩
      obtain ⟨source, reads, last⟩ := reads_subst (plain st mem) noHint read
      obtain ⟨count, found⟩ := List.mem_iff_getElem?.mp mem
      have known := inScope.reads_at found source reads
      rw [mem_scopeAfter] at known
      have everywhere : source ∈
          scopeAfter [] (replaceGets irsb.tyenv [] irsb.stmts) := by
        rw [mem_scopeAfter]
        refine known.imp_left fun before => ?_
        obtain ⟨other, taken, assigns⟩ := List.mem_flatMap.mp before
        exact List.mem_flatMap.mpr
          ⟨other, List.mem_of_mem_take taken, assigns⟩
      exact ((copied_iff described plain).mp copied).2
        (settled.followed source everywhere tmp last).2

/-- The optimiser returns.  The block that it returns means the same if no
register is replaced by an operand that it does not hold any more, and reads
no temporary that is gone exactly if no hint does. -/
theorem optimise_irsb_fast_meaning (host : Host) (irsb : IRSB)
    (sane : irsb.Sane host) (plain : ∀ st ∈ irsb.stmts, st.plain)
    (fits : ∀ st ∈ irsb.stmts, st.addressable irsb.tyenv) :
    ∃ irsb', optimiseIrsbFast irsb = .ok irsb' ∧
      (freshGets irsb.tyenv [] irsb.stmts →
        IRSB.SameMeaning host irsb irsb') ∧
      (¬ IRSB.ReadsRemoved irsb irsb' ↔ irsb.hintsKept) := by
  obtain ⟨aliases, returned, settled, described⟩ :=
    optimiseIrsbFast_spec sane.inScope plain fits
  refine ⟨irsb.optimised aliases, returned, ?_, ?_⟩
  · intro fresh
    exact optimised_sameMeaning sane plain fits fresh described
  · exact readsRemoved_iff
      (replaceGets_scoped CacheScoped.nil sane.inScope fits)
      (replaceGets_all (fun _ _ => replaceGet_plain) plain) settled described

end Optimiser

theorem zero_lt_bits (_cee : Nat) (retty : IRType) (_args : List Nat) :
    0 < 2 ^ retty.bits :=
  Nat.two_pow_pos retty.bits

/-- A host without operations of its own. -/
def bareHost : Host where
  opType _ := .I1
  op _ _ := 0
  op_lt _ _ := by decide
  ccall _ _ _ := 0
  ccall_lt := zero_lt_bits
  dirty _ state := state

def clearedState : IRState := ⟨fun _ => 0, fun _ => 0, fun _ => 0⟩

/-- A register is written and read back before it is written again. -/
def countingBlock : IRSB where
  tyenv := [.I32, .I32, .I32]
  stmts := [.iMark 0x8048000 3, .wrTmp 0 (.get 0 .I32), .put 4 (.rdTmp 0),
    .wrTmp 1 (.get 4 .I32),
    .wrTmp 2 (.binop (.add .w32) (.rdTmp 1) (.const (.U32 1))),
    .abiHint (.rdTmp 2) 16 (.const (.U32 0x8048003)), .put 0 (.rdTmp 2)]

theorem optimise_irsb_fast_counting :
    countingBlock.Sane bareHost ∧
      ∃ irsb', optimiseIrsbFast countingBlock = .ok irsb' ∧
        IRSB.SameMeaning bareHost countingBlock irsb' ∧
        ¬ IRSB.ReadsRemoved countingBlock irsb' := by
  have sane : countingBlock.Sane bareHost := ⟨by decide, by decide⟩
  obtain ⟨irsb', returned, same, removed⟩ :=
    optimise_irsb_fast_meaning bareHost countingBlock sane (by decide)
      (by decide)
  exact ⟨sane, irsb', returned, same (by decide), removed.mpr (by decide)⟩

/-- The low byte of a register is written between a write and a read of the
whole. -/
def overlappingBlock : IRSB where
  tyenv := [.I32]
  stmts := [.put 0 (.const (.U32 0x11223344)), .put 0 (.const (.U8 0x55)),
    .wrTmp 0 (.get 0 .I32), .put 4 (.rdTmp 0)]

/-- A hint about an address that is a constant. -/
def hintedBlock : IRSB where
  tyenv := [.I32]
  stmts := [.wrTmp 0 (.atom (.const (.U32 0xBFFF0000))),
    .abiHint (.rdTmp 0) 16 (.rdTmp 0)]

theorem optimise_irsb_fast_overlapping :
    (overlappingBlock.Sane bareHost ∧
      (∀ st ∈ overlappingBlock.stmts, st.plain) ∧
      ∃ irsb', optimiseIrsbFast overlappingBlock = .ok irsb' ∧
        ¬ IRSB.SameMeaning bareHost overlappingBlock irsb') ∧
    hintedBlock.Sane bareHost ∧ (∀ st ∈ hintedBlock.stmts, st.plain) ∧
      ∃ irsb', optimiseIrsbFast hintedBlock = .ok irsb' ∧
        IRSB.ReadsRemoved hintedBlock irsb' := by
  refine ⟨⟨⟨by decide, by decide⟩, by decide, ?_⟩, ⟨by decide, by decide⟩,
    by decide, ?_⟩
  · refine ⟨{ overlappingBlock with
      stmts := [.put 0 (.const (.U32 0x11223344)), .put 0 (.const (.U8 0x55)),
        .comment, .put 4 (.const (.U32 0x11223344))] }, by decide +kernel, ?_⟩
    intro same
    have guest := congrFun (same.sameAt clearedState 4).guest 4
    exact absurd guest (by decide +kernel)
  · refine ⟨{ hintedBlock with
      stmts := [.comment, .abiHint (.rdTmp 0) 16 (.rdTmp 0)] },
      by decide +kernel, ?_⟩
    exact ⟨.abiHint (.rdTmp 0) 16 (.rdTmp 0), by decide, 0, by decide,
      by decide, by decide⟩

end Dependency

end HelgrindPlus
