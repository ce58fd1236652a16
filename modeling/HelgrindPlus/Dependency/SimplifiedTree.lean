import HelgrindPlus.Dependency.LoadWalk
import HelgrindPlus.Dependency.UselessLoops

/-!
# What the rewriting of a tree keeps

The folds, the removal of register loops and the elimination of copies change
the statements of a tree in their places.  They read no temporary that was not
read before, and make no loads and stores.
-/

namespace HelgrindPlus

namespace Dependency

open Outcome

section Aliases

variable {aliases : Aliases} {typesUsed : Nat} {all : List IRStmt}

/-- What temporaries are replaced by is read somewhere. -/
def ReadBy (all : List IRStmt) (aliases : Aliases) : Prop :=
  ∀ tmp other, aliases tmp = .tmp other → ∃ st ∈ all, other ∈ st.reads

/-- Every chain of aliases ends with one of the table, if it is not at its
end. -/
theorem followAlias_from (rounds : Nat) (target : IRAlias) :
    followAlias aliases rounds target = target ∨
      ∃ tmp, followAlias aliases rounds target = aliases tmp := by
  induction rounds generalizing target with
  | zero => cases target <;> exact .inl rfl
  | succ rounds induction =>
      cases target with
      | tmp tmp =>
          rw [followAlias]
          split
          · exact .inl rfl
          · rcases induction (aliases tmp) with same | ⟨other, same⟩
            · exact .inr ⟨tmp, same⟩
            · exact .inr ⟨other, same⟩
      | none => exact .inl rfl
      | const con => exact .inl rfl

theorem collectAlias_ends (typesUsed : Nat) {st : IRStmt} (member : st ∈ all)
    (readBy : ReadBy all aliases) :
    Ends (collectAlias typesUsed aliases st) fun result =>
      result.2 = st.dropCopy ∧ ReadBy all result.1 := by
  cases st with
  | wrTmp tmp data =>
      cases data with
      | atom operand =>
          cases operand with
          | const con =>
              refine ⟨rfl, fun tmp' other known => ?_⟩
              simp only [Function.update_apply] at known
              split at known
              · cases known
              · exact readBy tmp' other known
          | rdTmp source =>
              apply (tlAssert_ends _).bind
              intro _ _
              refine ⟨rfl, fun tmp' other known => ?_⟩
              simp only [Function.update_apply] at known
              split at known
              · rcases followAlias_from (typesUsed + 1) (.tmp source) with
                  same | ⟨middle, same⟩
                · rw [same] at known
                  cases known
                  exact ⟨_, member, List.mem_singleton_self _⟩
                · exact readBy middle other (same ▸ known)
              · exact readBy tmp' other known
      | _ => exact ⟨rfl, readBy⟩
  | _ => exact ⟨rfl, readBy⟩

private theorem collectAliases_ends (typesUsed : Nat) {stmts : List IRStmt}
    (inside : ∀ st ∈ stmts, st ∈ all) (readBy : ReadBy all aliases) :
    Ends (collectAliases typesUsed aliases stmts) fun result =>
      result.2 = stmts.map IRStmt.dropCopy ∧ ReadBy all result.1 := by
  induction stmts generalizing aliases with
  | nil => exact ⟨rfl, readBy⟩
  | cons st rest induction =>
      apply (collectAlias_ends typesUsed (inside st List.mem_cons_self)
        readBy).bind
      rintro ⟨aliases', st'⟩ ⟨rfl, readBy'⟩
      apply (induction (fun other later =>
        inside other (List.mem_cons_of_mem _ later)) readBy').bind
      rintro ⟨aliases'', rest'⟩ ⟨rfl, readBy''⟩
      exact ⟨rfl, readBy''⟩

private theorem optimiseAtomicAliasAtom_ends (operand : IRAtom) :
    Ends (optimiseAtomicAliasAtom aliases typesUsed operand)
      (· = operand.subst aliases) := by
  cases operand with
  | const con => exact rfl
  | rdTmp tmp =>
      apply (tlAssert_ends _).bind
      intro _ _
      rw [IRAtom.subst]
      cases aliases tmp <;> exact rfl

private theorem optimiseAtomicAliasStmt_ends (st : IRStmt) :
    Ends (optimiseAtomicAliasStmt aliases typesUsed st.dropCopy)
      (· = st.subst aliases) := by
  have atoms := @optimiseAtomicAliasAtom_ends aliases typesUsed
  cases st with
  | wrTmp tmp data =>
      cases data with
      | atom operand => exact rfl
      | get offset ty => exact rfl
      | getI descr ix bias => exact rfl
      | ccall cee retty args => exact rfl
      | _ =>
          refine @Satisfies.bind _ _ _ _ _ _ (· = _) _ ?_
            (fun data same => congrArg (IRStmt.wrTmp tmp) same)
          repeat
            refine (atoms _).bind ?_
            rintro _ rfl
          exact rfl
  | store endness addr data =>
      refine (atoms addr).bind ?_
      rintro _ rfl
      refine (atoms data).bind ?_
      rintro _ rfl
      exact rfl
  | put offset data =>
      refine (atoms data).bind ?_
      rintro _ rfl
      exact rfl
  | exit guard =>
      refine (atoms guard).bind ?_
      rintro _ rfl
      exact rfl
  | _ => exact rfl

private theorem optimiseAtomicAliasStmts_ends (stmts : List IRStmt) :
    Ends (optimiseAtomicAliasStmts aliases typesUsed
      (stmts.map IRStmt.dropCopy)) (· = stmts.map (IRStmt.subst aliases)) := by
  induction stmts with
  | nil => exact rfl
  | cons st rest induction =>
      apply (optimiseAtomicAliasStmt_ends st).bind
      rintro _ rfl
      apply induction.bind
      rintro _ rfl
      exact rfl

/-- The pass is a substitution, of temporaries that are read. -/
theorem irsbOptimiseAtomicAlias_ends (irsb : IRSB) :
    Ends (irsbOptimiseAtomicAlias irsb) fun irsb' =>
      ∃ aliases, ReadBy irsb.stmts aliases ∧
        irsb' = ⟨irsb.tyenv, irsb.stmts.map (IRStmt.subst aliases)⟩ := by
  have nothing : ReadBy irsb.stmts fun _ => .none := nofun
  apply (collectAliases_ends irsb.tyenv.length (fun _ => id) nothing).bind
  rintro ⟨aliases, stmts⟩ ⟨rfl, readBy⟩
  apply (optimiseAtomicAliasStmts_ends irsb.stmts).bind
  rintro _ rfl
  exact ⟨aliases, readBy, rfl⟩

end Aliases

namespace IRStmt

def isLoad : IRStmt → Bool
  | wrTmp _ (.load _ _ _) => true
  | _ => false

def isExit : IRStmt → Bool
  | exit _ => true
  | _ => false

/-- What the new statement is, the old one was. -/
structure Becomes (st st' : IRStmt) : Prop where
  load : st'.isLoad → st.isLoad
  store : st'.isStore → st.isStore
  exit : st'.isExit → st.isExit

theorem Becomes.refl (st : IRStmt) : st.Becomes st := ⟨id, id, id⟩

theorem Becomes.trans {st st' st'' : IRStmt} (first : st.Becomes st')
    (second : st'.Becomes st'') : st.Becomes st'' :=
  ⟨first.load ∘ second.load, first.store ∘ second.store,
    first.exit ∘ second.exit⟩

end IRStmt

/-- The tree reads no other temporaries and has no other nodes, loads, stores
and exits than before, and stores that were visited stay so. -/
structure Narrows (tree tree' : IrsbTree) : Prop where
  length : tree'.irsb.stmts.length = tree.irsb.stmts.length
  reads : ∀ st' ∈ tree'.irsb.stmts, ∀ tmp ∈ st'.reads,
    ∃ st ∈ tree.irsb.stmts, tmp ∈ st.reads
  nodes : ∀ tmp idx : Nat, tree'.tstruct[tmp]? = some (some idx) →
    tree.tstruct[tmp]? = some (some idx)
  registers : ∀ entry ∈ tree'.regLoopDefs, entry ∈ tree.regLoopDefs
  forms : ∀ (idx : Nat) (st' : IRStmt), tree'.irsb.stmts[idx]? = some st' →
    ∃ st : IRStmt, tree.irsb.stmts[idx]? = some st ∧ st.Becomes st'
  visited : ∀ idx,
    (tree.addressProp idx).replaceLoadByMatchingStoresDone = true →
    (tree'.addressProp idx).replaceLoadByMatchingStoresDone = true

/-- What is kept from one tree to the next. -/
structure Refines (tree tree' : IrsbTree) : Prop where
  narrows : Narrows tree tree'
  shaped : tree.Shaped → tree'.Shaped
  simplified : tree'.wasSimplified = tree.wasSimplified
  noted : tree'.stmtAddressProps = tree.stmtAddressProps

section Narrows

variable {tree tree' tree'' : IrsbTree}

theorem Narrows.refl (tree : IrsbTree) : Narrows tree tree where
  length := rfl
  reads := fun st member _ read => ⟨st, member, read⟩
  nodes := fun _ _ noted => noted
  registers := fun _ member => member
  forms := fun _ st found => ⟨st, found, .refl st⟩
  visited := fun _ done => done

theorem Narrows.trans (first : Narrows tree tree')
    (second : Narrows tree' tree'') : Narrows tree tree'' where
  length := second.length.trans first.length
  reads := by
    intro st member tmp read
    obtain ⟨st', member', read'⟩ := second.reads st member tmp read
    exact first.reads st' member' tmp read'
  nodes := fun tmp idx noted => first.nodes tmp idx (second.nodes tmp idx noted)
  registers := fun entry member =>
    first.registers entry (second.registers entry member)
  forms := by
    intro idx st'' found
    obtain ⟨st', found', later⟩ := second.forms idx st'' found
    obtain ⟨st, found, earlier⟩ := first.forms idx st' found'
    exact ⟨st, found, earlier.trans later⟩
  visited := fun idx done => second.visited idx (first.visited idx done)

/-- A change of one statement. -/
theorem narrows_set {idx : Nat} {st st' : IRStmt}
    (found : tree.irsb.stmts[idx]? = some st)
    (reads : ∀ tmp ∈ st'.reads, ∃ st ∈ tree.irsb.stmts, tmp ∈ st.reads)
    (becomes : st.Becomes st') :
    Narrows tree { tree with irsb :=
      ⟨tree.irsb.tyenv, tree.irsb.stmts.set idx st'⟩ } where
  length := List.length_set
  reads := by
    intro other member tmp read
    rcases List.mem_or_eq_of_mem_set member with old | rfl
    · exact ⟨other, old, read⟩
    · exact reads tmp read
  nodes := fun _ _ noted => noted
  registers := fun _ member => member
  forms := by
    intro idx' other found'
    simp only [List.getElem?_set] at found'
    split at found'
    · next same =>
        subst same
        split at found'
        · cases found'
          exact ⟨st, found, becomes⟩
        · cases found'
    · exact ⟨other, found', .refl other⟩
  visited := fun _ done => done

private theorem foldToCopy_narrows {last : Option Nat} {argTmp : Nat}
    (read : ∃ st ∈ tree.irsb.stmts, argTmp ∈ st.reads)
    (folded : foldToCopy tree last argTmp = .ok tree') :
    Narrows tree tree' := by
  obtain ⟨idx, tmp, data, rfl, found, _, rfl⟩ := foldToCopy_eq_ok folded
  apply narrows_set found
  · intro tmp' member
    cases List.mem_singleton.mp member
    exact read
  · exact ⟨nofun, nofun, nofun⟩

theorem IRAtom.subst_tmps {aliases : Aliases} {operand : IRAtom} {tmp : Nat}
    (read : tmp ∈ (operand.subst aliases).tmps) :
    tmp ∈ operand.tmps ∨ ∃ other, aliases other = .tmp tmp := by
  cases operand with
  | const con => cases read
  | rdTmp other =>
      rw [IRAtom.subst] at read
      cases known : aliases other with
      | none =>
          rw [known] at read
          exact .inl read
      | const con =>
          rw [known] at read
          cases read
      | tmp target =>
          rw [known] at read
          cases List.mem_singleton.mp read
          exact .inr ⟨other, known⟩

theorem IRStmt.subst_reads {aliases : Aliases} {st : IRStmt} {tmp : Nat}
    (read : tmp ∈ (st.subst aliases).reads) :
    tmp ∈ st.reads ∨ ∃ other, aliases other = .tmp tmp := by
  have atoms := @IRAtom.subst_tmps aliases
  have either : ∀ {left right left' right' : List Nat},
      (tmp ∈ left' → tmp ∈ left ∨ ∃ other, aliases other = .tmp tmp) →
      (tmp ∈ right' → tmp ∈ right ∨ ∃ other, aliases other = .tmp tmp) →
      tmp ∈ left' ++ right' →
      tmp ∈ left ++ right ∨ ∃ other, aliases other = .tmp tmp := by
    intro left right left' right' first second member
    rcases List.mem_append.mp member with inLeft | inRight
    · exact (first inLeft).imp_left (List.mem_append_left _)
    · exact (second inRight).imp_left (List.mem_append_right _)
  cases st with
  | wrTmp tmp' data =>
      cases data with
      | atom operand => cases read
      | load endness ty addr => exact atoms read
      | unop op arg => exact atoms read
      | binop op arg1 arg2 => exact either atoms atoms read
      | triop op arg1 arg2 arg3 => exact either (either atoms atoms) atoms read
      | qop op arg1 arg2 arg3 arg4 =>
          exact either (either (either atoms atoms) atoms) atoms read
      | mux0X cond expr0 exprX => exact either (either atoms atoms) atoms read
      | _ => exact .inl read
  | store endness addr data => exact either atoms atoms read
  | put offset data => exact atoms read
  | exit guard => exact atoms read
  | _ => exact .inl read

theorem IRStmt.becomes_subst {aliases : Aliases} (st : IRStmt) :
    st.Becomes (st.subst aliases) := by
  cases st with
  | wrTmp tmp data => cases data <;> exact ⟨id, id, id⟩
  | _ => exact ⟨id, id, id⟩

/-- The nodes that are left are nodes of assignments. -/
theorem correctTmps_ends (tree : IrsbTree) (nodes : List (Option Nat)) :
    Ends (correctTmps tree nodes) fun nodes' => ∀ tmp idx : Nat,
      nodes'[tmp]? = some (some idx) → nodes[tmp]? = some (some idx) ∧
        ∃ tmp' data, tree.irsb.stmts[idx]? = some (.wrTmp tmp' data) := by
  induction nodes with
  | nil => exact nofun
  | cons node rest induction =>
      have first : Ends (correctTmp tree node) fun node' => ∀ idx,
          node' = some idx → node = some idx ∧
            ∃ tmp' data, tree.irsb.stmts[idx]? = some (.wrTmp tmp' data) := by
        unfold correctTmp
        split
        · exact nofun
        · split
          · nofun
          · next found =>
              rintro _ ⟨⟩
              exact ⟨rfl, _, _, found⟩
          · exact nofun
      apply first.bind
      intro node' kept
      apply induction.bind
      intro rest' later
      rintro (_ | tmp) idx noted
      · cases noted
        obtain ⟨rfl, assigned⟩ := kept idx rfl
        exact ⟨rfl, assigned⟩
      · exact later tmp idx noted

theorem treeOptimiseAtomicAlias_ends (tree : IrsbTree) :
    Ends (treeOptimiseAtomicAlias tree) (Refines tree) := by
  apply (irsbOptimiseAtomicAlias_ends tree.irsb).bind
  rintro _ ⟨aliases, readBy, rfl⟩
  apply (correctTmps_ends _ tree.tstruct).bind
  intro tstruct kept
  refine ⟨⟨List.length_map _, ?_, ?_, fun _ => id, ?_, fun _ => id⟩, ?_, rfl,
    rfl⟩
  · intro st' member tmp read
    obtain ⟨st, inside, rfl⟩ := List.mem_map.mp member
    rcases IRStmt.subst_reads read with read | ⟨other, known⟩
    · exact ⟨st, inside, read⟩
    · exact readBy other tmp known
  · exact fun tmp idx noted => (kept tmp idx noted).1
  · intro idx st' found
    rw [List.getElem?_map, Option.map_eq_some_iff] at found
    obtain ⟨st, found, rfl⟩ := found
    exact ⟨st, found, st.becomes_subst⟩
  · intro shaped
    constructor
    · intro tmp idx noted
      obtain ⟨noted, tmp', data', found'⟩ := kept tmp idx noted
      obtain ⟨data, found⟩ := shaped.node tmp idx noted
      dsimp only at found' ⊢
      rw [List.getElem?_map, found, Option.map_some] at found' ⊢
      cases data <;> first | exact ⟨_, rfl⟩ | cases found'
    · intro entry member
      obtain ⟨offset, ty, data, keyed, found⟩ := shaped.register entry member
      refine ⟨offset, ty, data.subst aliases, keyed, ?_⟩
      dsimp only
      rw [List.getElem?_map, found]
      rfl

end Narrows

section Simplified

variable {tree tree' tree'' : IrsbTree} {addrBits fuel : Nat}

theorem Refines.refl (tree : IrsbTree) : Refines tree tree :=
  ⟨.refl tree, id, rfl, rfl⟩

theorem Refines.trans (first : Refines tree tree')
    (second : Refines tree' tree'') : Refines tree tree'' :=
  ⟨first.narrows.trans second.narrows, second.shaped ∘ first.shaped,
    second.simplified.trans first.simplified, second.noted.trans first.noted⟩

private theorem accumulate_ends (lpt : AddSubRun) (compatible : Bool)
    (stmtIdx amount : Nat) :
    Ends (accumulate addrBits lpt compatible stmtIdx amount)
      fun _ => True := by
  unfold accumulate
  split
  · exact (tlAssert_ends _).bind fun _ _ => trivial
  · trivial

private theorem addSubStep_ends (lpt : AddSubRun) (stmtIdx : Nat) (op : IROp)
    (con : IRConst) :
    Ends (addSubStep addrBits lpt stmtIdx op con) fun _ => True := by
  cases op with
  | add width =>
      exact (accumulate_ends lpt _ stmtIdx _).bind fun _ _ => trivial
  | sub width =>
      exact (accumulate_ends lpt _ stmtIdx _).bind fun _ _ => trivial
  | other tag => trivial

theorem foldToCopy_ends (tree : IrsbTree) (last : Option Nat) (argTmp : Nat) :
    Ends (foldToCopy tree last argTmp) fun _ => True := by
  unfold foldToCopy
  split
  · nofun
  · split
    · exact (tlAssert_ends _).bind fun _ _ => trivial
    · nofun

theorem tmpAndConst_reads {op : IROp} {arg1 arg2 : IRAtom} {tmp argTmp : Nat}
    {con : IRConst} (operands : tmpAndConst arg1 arg2 = some (argTmp, con)) :
    argTmp ∈ (IRStmt.wrTmp tmp (.binop op arg1 arg2)).reads := by
  cases arg1 <;> cases arg2 <;> cases operands <;>
    simp [IRStmt.reads, IRExpr.tmps, IRAtom.tmps]

private theorem simplifyStmt_ends (state : SimplifyState) (stmtIdx : Nat) :
    Ends (simplifyStmt addrBits state stmtIdx) fun state' =>
      Refines state.tree state'.tree := by
  unfold simplifyStmt
  split
  · exact .refl _
  · next tmp op arg1 arg2 found =>
      split
      · next argTmp con operands =>
          apply (addSubStep_ends state.lpt stmtIdx op con).bind
          intro lpt _
          cases lpt with
          | none => exact .refl _
          | some lpt =>
              dsimp only
              split
              · cases folded : foldToCopy state.tree lpt.lastStmt argTmp with
                | error halt =>
                    have ends := foldToCopy_ends state.tree lpt.lastStmt argTmp
                    rw [folded] at ends
                    exact ends
                | ok tree =>
                    have read : ∃ st ∈ state.tree.irsb.stmts,
                        argTmp ∈ st.reads :=
                      ⟨_, List.mem_of_getElem? found,
                        tmpAndConst_reads operands⟩
                    refine ⟨foldToCopy_narrows read folded,
                      fun shaped => foldToCopy_shaped shaped folded, ?_, ?_⟩
                    all_goals
                      obtain ⟨_, _, _, _, _, _, rfl⟩ := foldToCopy_eq_ok folded
                      rfl
              · exact .refl _
      · exact .refl _
  · exact .refl _
  · nofun

private theorem simplifyLoop_ends {state : SimplifyState} {iter : TreeIterator}
    (enough : iter.weight < fuel) :
    Ends (simplifyLoop addrBits fuel state iter) fun state' =>
      Refines state.tree state'.tree := by
  induction fuel generalizing state iter with
  | zero => exact absurd enough (Nat.not_lt_zero _)
  | succ fuel induction =>
      apply Ends.next
      · exact fun _ => .refl _
      · rintro iter' val (typ | typ) <;>
          simp only [typ] <;> exact .refl _
      · rintro iter' val (typ | typ) lower <;> simp only [typ]
        · apply (simplifyStmt_ends state val.stmtIdx).bind
          intro state' first
          apply (induction (by omega)).mono
          exact fun _ later => first.trans later
        · exact induction (by omega)

theorem treeSimplifyExpression_ends (tree : IrsbTree) (tmp : Nat)
    (enough : walkBound tree.irsb.stmts.length < fuel) :
    Ends (treeSimplifyExpression addrBits fuel tree tmp) fun result =>
      Refines tree result.1 := by
  apply (treeNodeTmp_ends tree tmp).bind
  intro root _
  apply (treeIteratorNew_ends tree root).bind
  intro iter light
  exact (@simplifyLoop_ends addrBits fuel ⟨tree, .clear, false⟩
    { iter with loopGetPut := false } (light.trans_lt enough)).bind
      fun _ refines => refines

theorem treeIteratorSkip_weight_le (iter : TreeIterator)
    (childId : Option Nat) :
    (treeIteratorSkip iter childId).weight ≤ iter.weight := by
  have fewer : ∀ (children : List (Option IRExpr)) (child : Nat),
      (children.set child none).countP Option.isSome ≤
        children.countP Option.isSome := by
    intro children child
    induction children generalizing child with
    | nil => exact Nat.le_refl _
    | cons first rest induction =>
        cases child with
        | zero => cases first <;> simp
        | succ child =>
            simp only [List.set_cons_succ, List.countP_cons]
            exact Nat.add_le_add_right (induction child) _
  unfold treeIteratorSkip
  split
  · exact Nat.le_refl _
  · next top rest stack =>
      simp only [TreeIterator.weight, stack, stackWeight]
      apply Nat.add_le_add_right
      apply Nat.mul_le_mul_right
      simp only [TreeIteratValue.pending]
      apply Nat.add_le_add_right
      cases childId with
      | none => exact Nat.zero_le _
      | some child => exact fewer top.subExpr child

private theorem uselessLoop_ends {offset : Nat} {iter : TreeIterator}
    (enough : iter.weight < fuel) :
    Ends (uselessLoop tree offset fuel iter) fun _ => True := by
  induction fuel generalizing iter with
  | zero => exact absurd enough (Nat.not_lt_zero _)
  | succ fuel induction =>
      have value : ∀ val, Ends (uselessValue tree offset val)
          fun _ => True := by
        intro val
        unfold uselessValue
        split
        · split <;> trivial
        · split <;> trivial
        · intro exhausted
          cases exhausted
        · trivial
      apply Ends.next
      · exact fun _ => trivial
      · rintro iter' val (typ | typ) <;> simp only [uselessValue, typ]
        · intro exhausted
          cases exhausted
        · exact trivial
      · intro iter' val _ lower
        apply (value val).bind
        rintro ⟨removable, skip⟩ _
        dsimp only
        split
        · apply induction
          split
          · have := treeIteratorSkip_weight_le iter' none
            omega
          · omega
        · trivial

private theorem treeRemoveUselessRegisterLoops_ends (tree : IrsbTree)
    (enough : walkBound tree.irsb.stmts.length < fuel) :
    Ends (treeRemoveUselessRegisterLoops fuel tree) fun tree' =>
      Refines tree tree' := by
  have kept : ∀ entries : List (Nat × Nat),
      Ends (keptRegisters fuel tree entries) fun entries' =>
        ∀ entry ∈ entries', entry ∈ entries := by
    intro entries
    induction entries with
    | nil => exact fun _ member => member
    | cons entry rest induction =>
        have useless : Ends (uselessRegister fuel tree entry)
            fun _ => True := by
          apply (treeIteratorNew_ends tree entry.2).bind
          intro iter light
          exact uselessLoop_ends (light.trans_lt enough)
        apply useless.bind
        intro removable _
        apply induction.bind
        intro rest' inside
        cases removable with
        | true =>
            exact fun entry' member => List.mem_cons_of_mem _ (inside _ member)
        | false =>
            intro entry' member
            rcases List.mem_cons.mp member with rfl | member
            · exact List.mem_cons_self
            · exact List.mem_cons_of_mem _ (inside _ member)
  apply (kept tree.regLoopDefs).bind
  intro entries inside
  refine ⟨⟨rfl, ?_, fun _ _ => id, inside, ?_, fun _ => id⟩, ?_, rfl, rfl⟩
  · exact fun st member _ read => ⟨st, member, read⟩
  · exact fun _ st found => ⟨st, found, .refl st⟩
  · intro shaped
    exact ⟨shaped.node, fun entry member =>
      shaped.register entry (inside entry member)⟩

/-- The simplification ends, and keeps the shape of the tree. -/
theorem treeSimplify_ends (tree : IrsbTree)
    (enough : walkBound tree.irsb.stmts.length < fuel) :
    Ends (treeSimplify addrBits fuel tree)
      (Refines { tree with wasSimplified := true }) := by
  have pass : Ends ((List.range tree.irsb.tyenv.length).foldlM
      (simplifyTmp addrBits fuel) ({ tree with wasSimplified := true }, false))
      fun state => Refines { tree with wasSimplified := true } state.1 := by
    refine @Satisfies.foldlM_kept _ _ _ _ (simplifyTmp addrBits fuel)
      (fun state => Refines { tree with wasSimplified := true } state.1) _ _ ?_
      (.refl _)
    intro state tmp _ before
    unfold simplifyTmp
    split
    · have long : walkBound state.1.irsb.stmts.length < fuel := by
        rw [before.narrows.length]
        exact enough
      apply (treeSimplifyExpression_ends state.1 tmp long).bind
      exact fun result refines => before.trans refines
    · exact before
  apply pass.bind
  rintro ⟨tree₁, changed⟩ first
  dsimp only at first ⊢
  split
  · have long : walkBound tree₁.irsb.stmts.length < fuel := by
      rw [first.narrows.length]
      exact enough
    apply (treeRemoveUselessRegisterLoops_ends tree₁ long).bind
    intro tree₂ second
    apply (treeOptimiseAtomicAlias_ends tree₂).mono
    exact fun tree₃ third => first.trans (second.trans third)
  · exact first

theorem treeSimplify_shaped (shaped : tree.Shaped)
    (enough : walkBound tree.irsb.stmts.length < fuel)
    (simplified : treeSimplify addrBits fuel tree = .ok tree') :
    tree'.Shaped ∧ tree'.wasSimplified = true ∧
      tree'.irsb.stmts.length = tree.irsb.stmts.length := by
  have refines := (treeSimplify_ends tree enough).of_eq_ok simplified
  exact ⟨refines.shaped ⟨shaped.node, shaped.register⟩, refines.simplified,
    refines.narrows.length⟩

end Simplified

end Dependency

end HelgrindPlus
