import HelgrindPlus.Dependency.FoldedSums
import HelgrindPlus.Dependency.Staying

/-!
# The values of folded blocks

The sum of the walk is that of the constants from the statement at which it
began to the one that is entered next, until an expression of another kind
clears it.  So each fold makes a copy of a temporary at which the constants
have summed up to zero.  The temporaries have one value if nothing but the
constants comes in between, which the walk does not check.
-/

namespace HelgrindPlus

namespace Dependency

open Outcome

/-- The constants sum up to zero from the statement to where the temporary is
read. -/
def Closes (addrBits : Nat) (tree : IrsbTree) (idx source : Nat) : Prop :=
  ∃ sum rest, sum.first = idx ∧
    Sums addrBits tree sum true (source :: rest) ∧ sum.exact = true ∧
    (2 ^ addrBits : Int) ∣ sum.total ∧ (2 ^ sum.width.bits : Int) ∣ sum.total

/-- Some statements became copies of temporaries at which the constants have
summed up to zero. -/
structure Folded (addrBits : Nat) (tree tree' : IrsbTree) : Prop where
  tyenv : tree'.irsb.tyenv = tree.irsb.tyenv
  length : tree'.irsb.stmts.length = tree.irsb.stmts.length
  tstruct : tree'.tstruct = tree.tstruct
  stmts : ∀ idx, tree'.irsb.stmts[idx]? = tree.irsb.stmts[idx]? ∨
    ∃ tmp data source, tree.irsb.stmts[idx]? = some (.wrTmp tmp data) ∧
      tree'.irsb.stmts[idx]? = some (.wrTmp tmp (.atom (.rdTmp source))) ∧
      Closes addrBits tree idx source

/-- What the sum stands for when the temporaries are still to be read. -/
inductive Carries (addrBits : Nat) (tree : IrsbTree) (lpt : AddSubRun)
    (unread : List Nat) : Prop where
  | clear (none : lpt.lastStmt = none) : Carries addrBits tree lpt unread
  | on {sum : Sum} {adds : Bool} (sums : Sums addrBits tree sum adds unread)
      (started : lpt.lastStmt = some sum.first)
      (hasWidth : lpt.HasWidth sum.width)
      (sumation : (lpt.sumation : Int) ≡ sum.total [ZMOD 2 ^ addrBits]) :
      Carries addrBits tree lpt unread

/-- What is still to be read, and what the sum stands for. -/
structure Continues (addrBits : Nat) (tree : IrsbTree) (lpt : AddSubRun)
    (unread : List Nat) : Prop where
  toRead : ToRead tree unread
  carries : Carries addrBits tree lpt unread

/-- The walk comes to the statement for the temporary that is read first. -/
def ComesTo (addrBits : Nat) (tree : IrsbTree) (lpt : AddSubRun) (idx : Nat)
    (later : List Nat) : Prop :=
  ∃ tmp, treeNodeTmp tree tmp = .ok idx ∧
    Continues addrBits tree lpt (tmp :: later)

section Folds

variable {addrBits : Nat} {tree tree' : IrsbTree} {lpt lpt' : AddSubRun}
  {idx : Nat} {later : List Nat}

theorem Folded.treeNodeTmp (folded : Folded addrBits tree tree')
    (tmp : Nat) :
    Dependency.treeNodeTmp tree' tmp = Dependency.treeNodeTmp tree tmp := by
  rw [Dependency.treeNodeTmp, Dependency.treeNodeTmp, folded.tstruct,
    folded.length]

/-- What is no copy was not changed. -/
theorem Folded.found (folded : Folded addrBits tree tree') {tmp : Nat}
    {data : IRExpr} (found : tree'.irsb.stmts[idx]? = some (.wrTmp tmp data))
    (other : ∀ source, data ≠ .atom (.rdTmp source)) :
    tree.irsb.stmts[idx]? = some (.wrTmp tmp data) := by
  obtain same | ⟨tmp', data', source, _, copy, _⟩ := folded.stmts idx
  · rw [← same, found]
  · rw [found] at copy
    cases copy
    exact absurd rfl (other source)

theorem Folded.fold (folded : Folded addrBits tree tree') {tmp source : Nat}
    {data : IRExpr} (closes : Closes addrBits tree idx source)
    (found : tree'.irsb.stmts[idx]? = some (.wrTmp tmp data)) :
    Folded addrBits tree { tree' with irsb := { tree'.irsb with
      stmts := tree'.irsb.stmts.set idx
        (.wrTmp tmp (.atom (.rdTmp source))) } } := by
  refine ⟨folded.tyenv, ?_, folded.tstruct, fun idx' => ?_⟩
  · simpa using folded.length
  · by_cases here : idx' = idx
    · subst here
      right
      obtain ⟨data', before⟩ : ∃ data',
          tree.irsb.stmts[idx']? = some (.wrTmp tmp data') := by
        obtain same | ⟨tmp', data', source', before, copy, _⟩ :=
          folded.stmts idx'
        · exact ⟨data, by rw [← same, found]⟩
        · rw [found] at copy
          cases copy
          exact ⟨data', before⟩
      refine ⟨tmp, data', source, before, ?_, closes⟩
      exact List.getElem?_set_self (List.getElem?_eq_some_iff.mp found).1
    · rw [List.getElem?_set_ne (Ne.symm here)]
      exact folded.stmts idx'

/-- The sum is that of the constants up to the operation which was added. -/
theorem ComesTo.added {tmp : Nat} {data : IRExpr} {shift : Shift}
    (comesTo : ComesTo addrBits tree lpt idx later)
    (found : tree.irsb.stmts[idx]? = some (.wrTmp tmp data))
    (shifts : data.shift = some shift) (hasWidth : lpt'.HasWidth shift.width)
    (added : Added addrBits lpt lpt' (lpt.Allows shift.width) idx
      shift.amount) :
    ∃ sum, Sums addrBits tree sum true (data.tmps ++ later) ∧
      lpt'.lastStmt = some sum.first ∧ lpt'.HasWidth sum.width ∧
      (lpt'.sumation : Int) ≡ sum.total [ZMOD 2 ^ addrBits] := by
  obtain ⟨tmp', node, toRead, carries⟩ := comesTo
  rcases added with ⟨begun, sum⟩ | ⟨allowed, first, before, after, sum⟩
  · exact ⟨_, .start toRead node found shifts, begun, hasWidth, sum⟩
  · cases carries with
    | clear none =>
        rw [none] at before
        cases before
    | @on earlier adds sums started width sumation =>
        rw [started] at before
        cases before
        have same : shift.width = earlier.width := width.unique allowed
        refine ⟨_, .shift sums node found shifts same, after, ?_,
          sum.trans (sumation.add_right _)⟩
        exact same ▸ hasWidth

theorem ComesTo.enter {tmp : Nat} {data : IRExpr}
    (comesTo : ComesTo addrBits tree lpt idx later)
    (found : tree.irsb.stmts[idx]? = some (.wrTmp tmp data)) :
    ToRead tree (data.tmps ++ later) := by
  obtain ⟨tmp', node, toRead, _⟩ := comesTo
  exact .enter toRead node found

/-- An operation that is passed over. -/
theorem ComesTo.other {tmp : Nat} {op : IROp} {arg1 arg2 : IRAtom}
    (comesTo : ComesTo addrBits tree lpt idx later)
    (found : tree.irsb.stmts[idx]? = some (.wrTmp tmp (.binop op arg1 arg2)))
    (noShift : (IRExpr.binop op arg1 arg2).shift = none) :
    Continues addrBits tree lpt
      ((IRExpr.binop op arg1 arg2).tmps ++ later) := by
  refine ⟨comesTo.enter found, ?_⟩
  obtain ⟨tmp', node, _, carries⟩ := comesTo
  cases carries with
  | clear none => exact .clear none
  | on sums started hasWidth sumation =>
      exact .on (.other sums node found noShift) started hasWidth sumation

/-- A copy, which may be one of the folds. -/
theorem ComesTo.copy (folded : Folded addrBits tree tree') {tmp source : Nat}
    (comesTo : ComesTo addrBits tree lpt idx later)
    (found : tree'.irsb.stmts[idx]? =
      some (.wrTmp tmp (.atom (.rdTmp source)))) :
    Continues addrBits tree lpt (source :: later) := by
  obtain ⟨tmp₁, node, toRead, carries⟩ := comesTo
  obtain same | ⟨tmp', data', source', _, copy, inner, rest, rfl, sums, exact,
    zero, whole⟩ := folded.stmts idx
  · rw [found] at same
    refine ⟨.enter toRead node same.symm, ?_⟩
    cases carries with
    | clear none => exact .clear none
    | on sums started hasWidth sumation =>
        exact .on (.copy sums node same.symm) started hasWidth sumation
  · rw [found] at copy
    cases copy
    obtain ⟨_, _, same, again⟩ := sums.again exact
    cases same
    obtain ⟨toRead', sums'⟩ := again tmp₁ later node toRead
    refine ⟨toRead', ?_⟩
    cases carries with
    | clear none => exact .clear none
    | on outer started hasWidth sumation =>
        exact .on (.folded outer node sums' exact zero whole) started hasWidth
          sumation

/-- A visit of a statement.  Where no constants cancel it changes nothing. -/
theorem simplifyStmt_carries (sumsExact : SumsExact addrBits tree)
    {state state' : SimplifyState} (folded : Folded addrBits tree state.tree)
    (comesTo : ComesTo addrBits tree state.lpt idx later)
    (visited : simplifyStmt addrBits state idx = .ok state') :
    Folded addrBits tree state'.tree ∧
      (ConstantsCancel addrBits tree ∨
        state'.tree = state.tree ∧ state'.hasChanged = state.hasChanged) ∧
      ∃ tmp data, state.tree.irsb.stmts[idx]? = some (.wrTmp tmp data) ∧
        Continues addrBits tree state'.lpt (data.tmps ++ later) := by
  unfold simplifyStmt at visited
  split at visited
  · next found =>
      cases visited
      exact ⟨folded, .inr ⟨rfl, rfl⟩, _, _, found, comesTo.copy folded found⟩
  · next tmp op arg1 arg2 found =>
      have before := folded.found found nofun
      split at visited
      · next argTmp con operands =>
          obtain ⟨result, step, visited⟩ := bind_eq_ok.mp visited
          obtain ⟨reads, ⟨noShift, rfl⟩ | ⟨shift, lpt, shifts, rfl, hasWidth,
            added⟩⟩ := addSubStep_added operands step
          · cases visited
            exact ⟨folded, .inr ⟨rfl, rfl⟩, tmp, _, found,
              comesTo.other before noShift⟩
          · obtain ⟨sum, sums, started, hasWidth', sumation⟩ :=
              comesTo.added before shifts hasWidth added
            have further : Continues addrBits tree lpt
                ((IRExpr.binop op arg1 arg2).tmps ++ later) :=
              ⟨comesTo.enter before, .on sums started hasWidth' sumation⟩
            dsimp only at visited
            split at visited
            · next zero =>
                obtain ⟨tree', copied, visited⟩ := bind_eq_ok.mp visited
                cases visited
                rw [zero, Nat.cast_zero] at sumation
                have whole := Int.modEq_zero_iff_dvd.mp sumation.symm
                refine ⟨?_, .inl ⟨sum, _, sums, whole⟩, tmp, _, found, further⟩
                obtain ⟨idx', tmp', data', last, found', _, rfl⟩ :=
                  foldToCopy_eq_ok copied
                rw [started] at last
                cases last
                obtain ⟨isExact, whole'⟩ := sumsExact sum _ sums whole
                rw [reads] at sums
                exact folded.fold
                  ⟨sum, later, rfl, sums, isExact, whole, whole'⟩ found'
            · cases visited
              exact ⟨folded, .inr ⟨rfl, rfl⟩, tmp, _, found, further⟩
      · next noOperand =>
          cases visited
          exact ⟨folded, .inr ⟨rfl, rfl⟩, tmp, _, found,
            comesTo.other before (shift_eq_none noOperand)⟩
  · next tmp data notCopy notBinop found =>
      cases visited
      have before := folded.found found fun source same => by
        cases same
        exact notCopy source rfl
      exact ⟨folded, .inr ⟨rfl, rfl⟩, tmp, data, found, comesTo.enter before,
        .clear rfl⟩
  · cases visited

end Folds

/-- Either the walk reads on to the next statement, or that is on the stack
already. -/
inductive OnTheWay (addrBits : Nat) (tree tree' : IrsbTree) (lpt : AddSubRun)
    (stack : List TreeIteratValue) : Prop where
  | entered (entered : Entered stack)
      (continues : Continues addrBits tree lpt (unread stack)) :
      OnTheWay addrBits tree tree' lpt stack
  | coming {idx : Nat} {later : List Nat}
      (coming : Coming tree' idx later stack)
      (comesTo : ComesTo addrBits tree lpt idx later) :
      OnTheWay addrBits tree tree' lpt stack

section Loop

variable {addrBits fuel : Nat} {tree : IrsbTree}

private theorem simplifyLoop_folded (sumsExact : SumsExact addrBits tree)
    {state state' : SimplifyState} {iter : TreeIterator}
    (folded : Folded addrBits tree state.tree)
    (inside : iter.loopGetPut = false)
    (walking : OnTheWay addrBits tree state.tree state.lpt iter.stack)
    (looped : simplifyLoop addrBits fuel state iter = .ok state') :
    Folded addrBits tree state'.tree ∧
      (ConstantsCancel addrBits tree ∨
        state'.tree = state.tree ∧ state'.hasChanged = state.hasChanged) := by
  induction fuel generalizing state iter with
  | zero => cases looped
  | succ fuel induction =>
      obtain ⟨⟨iter', found⟩, moved, looped⟩ := bind_eq_ok.mp looped
      cases found with
      | none =>
          cases looped
          exact ⟨folded, .inr ⟨rfl, rfl⟩⟩
      | some val =>
          cases typ : val.typ with
          | expr =>
              simp only [typ] at looped
              cases walking with
              | entered entered continues =>
                  obtain ⟨_, inside', moves⟩ :=
                    entered.next inside moved (.inr typ)
                  obtain ⟨entered', same⟩ | ⟨tmp, idx, later, reads, node,
                    coming⟩ := moves
                  · exact induction folded inside'
                      (.entered entered' (same ▸ continues)) looped
                  · rw [reads] at continues
                    rw [folded.treeNodeTmp] at node
                    exact induction folded inside' (.coming coming
                      ⟨tmp, node, continues⟩) looped
              | coming coming comesTo =>
                  have walks : val.typ ≠ .recurse := by rw [typ]; nofun
                  have isStmt := (coming.next moved walks).1
                  rw [typ] at isStmt
                  cases isStmt
          | stmt =>
              simp only [typ] at looped
              obtain ⟨state₁, visited, looped⟩ := bind_eq_ok.mp looped
              cases walking with
              | entered entered continues =>
                  have isExpr := (entered.next inside moved (.inl typ)).1
                  rw [typ] at isExpr
                  cases isExpr
              | coming coming comesTo =>
                  have walks : val.typ ≠ .recurse := by rw [typ]; nofun
                  obtain ⟨_, rfl, entered, kept, reads⟩ :=
                    coming.next moved walks
                  obtain ⟨folded', unchanged, tmp, data, found, further⟩ :=
                    simplifyStmt_carries sumsExact folded comesTo visited
                  rw [← reads tmp data found] at further
                  obtain ⟨folded'', unchanged'⟩ := induction folded'
                    (kept.trans inside) (.entered entered further) looped
                  refine ⟨folded'', ?_⟩
                  rcases unchanged with cancel | ⟨sameTree, sameFlag⟩
                  · exact .inl cancel
                  · rw [← sameTree, ← sameFlag]
                    exact unchanged'
          | recurse =>
              simp only [typ] at looped
              cases looped
              exact ⟨folded, .inr ⟨rfl, rfl⟩⟩
          | error =>
              simp only [typ] at looped
              cases looped
              exact ⟨folded, .inr ⟨rfl, rfl⟩⟩

theorem treeSimplifyExpression_folded (sumsExact : SumsExact addrBits tree)
    {tree' tree'' : IrsbTree} {tmp : Nat} {changed : Bool}
    (folded : Folded addrBits tree tree')
    (simplified : treeSimplifyExpression addrBits fuel tree' tmp =
      .ok (tree'', changed)) :
    Folded addrBits tree tree'' ∧
      (ConstantsCancel addrBits tree ∨ tree'' = tree' ∧ changed = false) := by
  obtain ⟨root, node, simplified⟩ := bind_eq_ok.mp simplified
  obtain ⟨iter, new, simplified⟩ := bind_eq_ok.mp simplified
  obtain ⟨state, looped, simplified⟩ := bind_eq_ok.mp simplified
  cases simplified
  obtain ⟨val, fresh, new⟩ := bind_eq_ok.mp new
  cases new
  have coming : Coming tree' root [] [val] :=
    .here fresh (by simp [Entered]) rfl
  have comesTo : ComesTo addrBits tree .clear root [] :=
    ⟨tmp, folded.treeNodeTmp tmp ▸ node, .root tmp, .clear rfl⟩
  exact @simplifyLoop_folded addrBits fuel tree sumsExact
    ⟨tree', .clear, false⟩ state _ folded rfl (.coming coming comesTo) looped

theorem Simplifying.folded (sumsExact : SumsExact addrBits tree) {bb : IRSB}
    {tree' : IrsbTree} (built : treeInit bb = .ok tree)
    (reached : Simplifying addrBits fuel bb tree') :
    Folded addrBits tree tree' := by
  induction reached with
  | built init =>
      rw [built] at init
      cases init
      exact ⟨rfl, rfl, rfl, fun _ => .inl rfl⟩
  | simplified _ step induction =>
      exact (treeSimplifyExpression_folded sumsExact induction step).1

end Loop

section Init

variable {host : Host} {sig : Nat → List IRType} {wordTy : IRType}
  {bb : IRSB} {tree : IrsbTree}

theorem Scoped.withoutStores {tyenv : List IRType} {defined : List Nat}
    {stmts stmts' : List IRStmt} (inScope : Scoped tyenv defined stmts)
    (kept : List.Forall₂ (fun st st' => st' = st ∨ st' = .comment ∧ st.isStore)
      stmts stmts') : Scoped tyenv defined stmts' := by
  induction kept generalizing defined with
  | nil => trivial
  | @cons st st' rest rest' same _ induction =>
      obtain ⟨reads, writes, later⟩ := inScope
      rcases same with rfl | ⟨rfl, removed⟩
      · exact ⟨reads, writes, induction later⟩
      · cases st with
        | store _ _ _ => exact ⟨nofun, nofun, induction later⟩
        | _ => cases removed

private theorem treeInit_sane (built : treeInit bb = .ok tree)
    (sane : bb.Sane host) : tree.irsb.Sane host := by
  obtain ⟨tyenv, _, kept⟩ := treeInit_kept built
  constructor
  · rw [tyenv]
    exact sane.inScope.withoutStores kept
  · intro st member
    rw [tyenv]
    by_cases real : st = .comment
    · subst real
      rfl
    · obtain ⟨idx, found⟩ := List.mem_iff_getElem?.mp member
      exact sane.typed st
        (List.mem_of_getElem? (treeInit_found built found real))

private theorem treeInit_typed (built : treeInit bb = .ok tree)
    (sane : bb.Sane host)
    (operands : ∀ tmp data, .wrTmp tmp data ∈ bb.stmts →
      data.saneOperands sig wordTy bb.tyenv) :
    tree.Typed sig wordTy host := by
  intro tmp data member
  have typed := (treeInit_sane built sane).typed _ member
  simp only [IRStmt.wellTyped, Bool.and_eq_true, decide_eq_true_eq] at typed
  refine ⟨typed.1, ?_⟩
  obtain ⟨idx, found⟩ := List.mem_iff_getElem?.mp member
  rw [(treeInit_kept built).1]
  have real : IRStmt.wrTmp tmp data ≠ .comment := by simp
  exact operands tmp data
    (List.mem_of_getElem? (treeInit_found built found real))

end Init

section Values

variable {addrBits : Nat} {host : Host} {sig : Nat → List IRType}
  {wordTy : IRType} {tree tree' : IrsbTree}

theorem Folded.sameRuns (folded : Folded addrBits tree tree')
    (sane : tree.irsb.Sane host) (respects : host.Respects tree.irsb.tyenv)
    (typed : tree.Typed sig wordTy host) (shaped : tree.Shaped) :
    SameRuns host tree.irsb tree'.irsb := by
  apply sameRuns_of_copies sane respects folded.tyenv
  intro idx
  obtain same | ⟨tmp, data, source, found, copy, sum, rest, rfl, sums, exact,
    _, whole⟩ := folded.stmts idx
  · exact .inl same
  · obtain ⟨_, _, same, sumsUp⟩ :=
      sums.sumsUp sane respects typed shaped exact
    cases same
    exact .inr ⟨tmp, data, source, found, copy, sumsUp.known,
      sumsUp.final_eq sane respects whole found⟩

theorem Ends.of_ok {α : Type} {computation : Except Halt α}
    {post post' : α → Prop} (ends : Ends computation post)
    (holds : ∀ value, computation = .ok value → post' value) :
    Ends computation post' := by
  cases computation with
  | error halt => exact ends
  | ok value => exact holds value rfl

/-- Where no sum is closed over anything but constants, the folds keep the
values of all temporaries. -/
theorem folds_keep_values (addrBits fuel : Nat) (bb : IRSB) (tree : IrsbTree)
    (built : treeInit bb = .ok tree) (sane : bb.Sane host)
    (operands : ∀ tmp data, .wrTmp tmp data ∈ bb.stmts →
      data.saneOperands sig wordTy bb.tyenv)
    (respects : host.Respects bb.tyenv)
    (enough : walkBound bb.stmts.length < fuel)
    (sums : SumsExact addrBits tree) :
    (∀ before tmp, Simplifying addrBits fuel bb before →
        Ends (treeSimplifyExpression addrBits fuel before tmp) fun result =>
          SameRuns host before.irsb result.1.irsb) ∧
      Ends ((List.range tree.irsb.tyenv.length).foldlM
          (simplifyTmp addrBits fuel)
          ({ tree with wasSimplified := true }, false))
        fun result => SameRuns host tree.irsb result.1.irsb := by
  obtain ⟨tyenv, _, kept⟩ := treeInit_kept built
  rw [kept.length_eq] at enough
  have sameRuns : ∀ tree', Folded addrBits tree tree' →
      SameRuns host tree.irsb tree'.irsb := fun tree' folded =>
    folded.sameRuns (treeInit_sane built sane) (tyenv ▸ respects)
      (treeInit_typed built sane operands) (treeInit_shaped built)
  have ends : ∀ tree' tmp, Folded addrBits tree tree' →
      Ends (treeSimplifyExpression addrBits fuel tree' tmp) fun result =>
        Folded addrBits tree result.1 := by
    intro tree' tmp folded
    apply (treeSimplifyExpression_ends tree' tmp
      (folded.length ▸ enough)).of_ok
    exact fun result simplified =>
      (treeSimplifyExpression_folded sums folded simplified).1
  constructor
  · intro before tmp reached
    have folded := reached.folded sums built
    apply (ends before tmp folded).mono
    intro result later
    exact (sameRuns before folded).symm.trans (sameRuns _ later)
  · refine Satisfies.mono ?_ fun result folded => sameRuns result.1 folded
    refine @Satisfies.foldlM_kept _ _ _ _ (simplifyTmp addrBits fuel)
      (fun state => Folded addrBits tree state.1) _ _ ?_
      ⟨rfl, rfl, rfl, fun _ => .inl rfl⟩
    intro state tmp _ folded
    unfold simplifyTmp
    split
    · exact (ends state.1 tmp folded).bind fun _ later => later
    · exact folded

/-- The operations of the statement with two operands, if any, are sums that
the walk is right about. -/
def IRStmt.sumsOnly (addrBits : Nat) : IRStmt → Bool
  | wrTmp _ (.binop op arg1 arg2) =>
      match (IRExpr.binop op arg1 arg2).shift with
      | some shift => shift.exact && shift.width.bits ≤ addrBits
      | none => false
  | _ => true

private theorem exact_of_sumsOnly {tmp : Nat} {data : IRExpr} {shift : Shift}
    (only : (IRStmt.wrTmp tmp data).sumsOnly addrBits)
    (shifts : data.shift = some shift) :
    shift.exact = true ∧ shift.width.bits ≤ addrBits := by
  cases data with
  | binop op arg1 arg2 => simpa [IRStmt.sumsOnly, shifts] using only
  | _ => cases shifts

theorem Sums.exact_of_only
    (only : ∀ st ∈ tree.irsb.stmts, st.sumsOnly addrBits) {sum : Sum}
    {adds : Bool} {unread : List Nat}
    (sums : Sums addrBits tree sum adds unread) :
    sum.exact = true ∧ sum.width.bits ≤ addrBits := by
  have at' : ∀ {idx : Nat} {st : IRStmt}, tree.irsb.stmts[idx]? = some st →
      st.sumsOnly addrBits :=
    fun found => only _ (List.mem_of_getElem? found)
  induction sums with
  | start _ _ found shifts => exact exact_of_sumsOnly (at' found) shifts
  | copy _ _ _ induction => exact induction
  | shift _ _ found shifts _ induction =>
      have isExact := (exact_of_sumsOnly (at' found) shifts).1
      exact ⟨Bool.and_eq_true_iff.mpr ⟨induction.1, isExact⟩, induction.2⟩
  | other _ _ found noShift _ =>
      have isSum := at' found
      simp [IRStmt.sumsOnly, noShift] at isSum
  | folded _ _ _ _ _ _ induction _ => exact induction

/-- Blocks without other operations are folded rightly. -/
theorem sumsExact_of_only
    (only : ∀ st ∈ tree.irsb.stmts, st.sumsOnly addrBits) :
    SumsExact addrBits tree := by
  intro sum unread sums zero
  obtain ⟨isExact, narrow⟩ := sums.exact_of_only only
  exact ⟨isExact, (pow_dvd_pow 2 narrow).trans zero⟩

end Values

/-- A helper sets the temporary for its result to zero. -/
def zeroHost : Host where
  opType _ := .I1
  op _ _ := 0
  op_lt _ _ := Nat.two_pow_pos _
  ccall _ _ _ := 0
  ccall_lt := zero_lt_bits
  dirty details state :=
    match details.tmp with
    | some tmp => { state with temps := Function.update state.temps tmp 0 }
    | none => state

private theorem zeroHost_respects (tyenv : List IRType) :
    zeroHost.Respects tyenv where
  others details state tmp other := by
    simp only [zeroHost]
    split
    · next tmp' target =>
        rw [target] at other
        exact Function.update_of_ne (fun same => other (by rw [same])) _ _
    · rfl
  fits details state tmp ty target declared := by
    simp only [zeroHost, target, Function.update_self]
    exact Nat.two_pow_pos ty.bits

/-- Four is added and subtracted. -/
def cancellingBlock : IRSB where
  tyenv := [.I32, .I32, .I32]
  stmts := [.iMark 0x8048000 6, .wrTmp 0 (.get 8 .I32),
    .wrTmp 1 (.binop (.add .w32) (.rdTmp 0) (.const (.U32 4))),
    .wrTmp 2 (.binop (.sub .w32) (.rdTmp 1) (.const (.U32 4)))]

def cancellingTree (data : IRExpr) : IrsbTree where
  irsb := { cancellingBlock with
    stmts := cancellingBlock.stmts.set 3 (.wrTmp 2 data) }
  tstruct := [some 1, some 2, some 3]
  regLoopDefs := []
  stmtAddressProps := []
  wasSimplified := true

theorem folds_keep_values_cancelling :
    let tree := cancellingTree
      (.binop (.sub .w32) (.rdTmp 1) (.const (.U32 4)))
    let tree' := cancellingTree (.atom (.rdTmp 0))
    treeSimplifyExpression 32 (walkBound 4 + 1) tree 2 = .ok (tree', true) ∧
      SameRuns zeroHost tree.irsb tree'.irsb := by
  intro tree tree'
  have folded : treeSimplifyExpression 32 (walkBound 4 + 1) tree 2 =
      .ok (tree', true) := by decide +kernel
  have built : treeInit cancellingBlock =
      .ok { tree with wasSimplified := false } := by decide +kernel
  have sane : cancellingBlock.Sane zeroHost :=
    ⟨by decide +kernel, by decide +kernel⟩
  have operands : ∀ tmp data, .wrTmp tmp data ∈ cancellingBlock.stmts →
      data.saneOperands (fun _ => []) .I32 cancellingBlock.tyenv := by
    intro tmp data member
    simp only [cancellingBlock, List.mem_cons, reduceCtorEq,
      IRStmt.wrTmp.injEq, List.not_mem_nil, or_false, false_or] at member
    rcases member with ⟨rfl, rfl⟩ | ⟨rfl, rfl⟩ | ⟨rfl, rfl⟩ <;> rfl
  have sums : SumsExact 32 { tree with wasSimplified := false } :=
    sumsExact_of_only (by decide +kernel)
  have enough : walkBound cancellingBlock.stmts.length < walkBound 4 + 1 :=
    Nat.lt_succ_self (walkBound 4)
  generalize walkBound 4 + 1 = fuel at folded enough ⊢
  have keeps := folds_keep_values 32 fuel cancellingBlock _ built sane operands
    (zeroHost_respects _) enough sums
  exact ⟨folded, (keeps.1 tree 2 (.built built)).of_eq_ok folded⟩

/-- Four is subtracted before another operation, and added after it. -/
def mutedBlock : IRSB where
  tyenv := [.I32, .I32, .I32, .I32]
  stmts := [.iMark 0x8048000 6, .wrTmp 0 (.get 8 .I32),
    .wrTmp 1 (.binop (.sub .w32) (.rdTmp 0) (.const (.U32 4))),
    .wrTmp 2 (.binop (.add .w32) (.rdTmp 1) (.rdTmp 0)),
    .wrTmp 3 (.binop (.add .w32) (.rdTmp 2) (.const (.U32 4)))]

def mutedTree (data : IRExpr) : IrsbTree where
  irsb := { mutedBlock with stmts := mutedBlock.stmts.set 4 (.wrTmp 3 data) }
  tstruct := [some 1, some 2, some 3, some 4]
  regLoopDefs := []
  stmtAddressProps := []
  wasSimplified := true

/-- The sum is not cleared by the addition of two temporaries, and twice the
register becomes the register. -/
theorem folds_over_addition :
    let tree := mutedTree (.binop (.add .w32) (.rdTmp 2) (.const (.U32 4)))
    let tree' := mutedTree (.atom (.rdTmp 0))
    let start : IRState :=
      ⟨fun _ => 0, Function.update (fun _ => 0) 8 5, fun _ => 0⟩
    treeInit mutedBlock = .ok { tree with wasSimplified := false } ∧
      mutedBlock.Sane zeroHost ∧
      treeSimplifyExpression 32 100 tree 3 = .ok (tree', true) ∧
      (tree.irsb.final zeroHost start).temps 3 = 10 ∧
      (tree'.irsb.final zeroHost start).temps 3 = 5 := by
  refine ⟨by decide +kernel, ⟨by decide +kernel, by decide +kernel⟩,
    by decide +kernel, by decide +kernel, by decide +kernel⟩

end Dependency

end HelgrindPlus
