import HelgrindPlus.Dependency.Staying

/-!
# The constant test ends

Each store is visited once, and each round of the other loops replaces a load
or moves a walk on, so that the analysis of a block comes to an end.
-/

namespace HelgrindPlus

namespace Dependency

open Outcome

/-- The computation aborts at most at an assertion, with a panic or at the
null pointer. -/
abbrev SearchEnds {α : Type} (computation : Except SearchHalt α)
    (post : α → Prop) : Prop :=
  Satisfies (· ≠ SearchHalt.halt .outOfFuel) computation post

theorem analysis_ends {α : Type} {computation : Except Halt α}
    {post : α → Prop} (ends : Ends computation post) :
    SearchEnds (analysis computation) post := by
  cases computation with
  | ok value => exact ends
  | error halt =>
      intro same
      exact ends (SearchHalt.halt.inj same)

section Dependencies

variable {tree : IrsbTree} {visits : Nat → Prop}

/-- What is reached from a tree with walks that stay. -/
structure Stayed (visits : Nat → Prop) (tree tree' : IrsbTree) : Prop where
  narrows : Narrows tree tree'
  stays : tree'.Stays visits

theorem Stayed.refl (stays : tree.Stays visits) : Stayed visits tree tree :=
  ⟨.refl tree, stays⟩

theorem Stayed.trans {tree' tree'' : IrsbTree}
    (first : Stayed visits tree tree') (second : Stayed visits tree' tree'') :
    Stayed visits tree tree'' :=
  ⟨first.narrows.trans second.narrows, second.stays⟩

theorem addressProp_setAddressProp (tree : IrsbTree) (idx idx' : Nat)
    (prop : AddressProp) :
    (tree.setAddressProp idx prop).addressProp idx' =
      if idx' = idx then prop else tree.addressProp idx' := by
  simp only [IrsbTree.addressProp, IrsbTree.setAddressProp, lookup_addToFM]
  split <;> rfl

/-- A change of the properties of one statement. -/
theorem setAddressProp_stayed (stays : tree.Stays visits) {idx : Nat}
    {prop : AddressProp}
    (done : (tree.addressProp idx).replaceLoadByMatchingStoresDone = true →
      prop.replaceLoadByMatchingStoresDone = true)
    (needed : ∀ load ∈ prop.neededLoads, visits load) :
    Stayed visits tree (tree.setAddressProp idx prop) := by
  have narrows : Narrows tree (tree.setAddressProp idx prop) := by
    refine ⟨rfl, fun st member _ read => ⟨st, member, read⟩, fun _ _ => id,
      fun _ => id, fun _ st found => ⟨st, found, .refl st⟩, ?_⟩
    intro idx' before
    rw [addressProp_setAddressProp]
    split
    · next same => exact done (same ▸ before)
    · exact before
  refine ⟨narrows, narrows.stays stays ?_⟩
  intro idx' load member
  rw [addressProp_setAddressProp] at member
  split at member
  · exact needed load member
  · exact stays.needed idx' load member

private theorem addressPropAddLoadDepend_stayed (stays : tree.Stays visits)
    {stmtIdx loadIdx : Nat} (visited : visits loadIdx) :
    Stayed visits tree (addressPropAddLoadDepend tree stmtIdx loadIdx) := by
  refine setAddressProp_stayed stays (fun done => done) fun load member => ?_
  rcases mem_insertWord.mp member with rfl | old
  · exact visited
  · exact stays.needed stmtIdx load old

theorem loadDependenciesLoop_ends {root fuel : Nat} {iter : TreeIterator}
    {loads : List LoadOnPath} (stays : tree.Stays visits)
    (grazes : Grazes tree visits iter.stack) (enough : iter.weight < fuel) :
    Ends (loadDependenciesLoop root fuel tree iter loads)
      (Stayed visits tree) := by
  induction fuel generalizing tree iter loads with
  | zero => exact absurd enough (Nat.not_lt_zero _)
  | succ fuel induction =>
      apply (treeIteratorNext_stays stays grazes).bind
      rintro ⟨iter', found⟩ next
      cases found with
      | none => exact .refl stays
      | some val =>
          have next := next val rfl
          dsimp only at next
          cases typ : val.typ with
          | recurse =>
              simp only [typ]
              exact .refl stays
          | error =>
              simp only [typ]
              exact .refl stays
          | expr =>
              obtain ⟨grazes', visited, lower⟩ := next (.inr typ)
              simp only [typ]
              split
              · have added := @addressPropAddLoadDepend_stayed tree visits
                  stays (noteFor root (popLoads val.curDepth loads))
                  val.stmtIdx visited
                apply (induction added.stays
                  (added.narrows.grazes grazes') (by omega)).mono
                exact fun _ later => added.trans later
              · exact induction stays grazes' (by omega)
          | stmt =>
              obtain ⟨grazes', _, lower⟩ := next (.inl typ)
              simp only [typ]
              split
              · have lighter := treeIteratorSkip_weight_le iter' (some 1)
                exact induction stays (treeIteratorSkip_grazes grazes')
                  (by omega)
              · exact induction stays grazes' (by omega)

private theorem treeBuildLoadDependencies_ends {fuel stmtIdx : Nat}
    (stays : tree.Stays visits) (visited : visits stmtIdx)
    (enough : walkBound tree.irsb.stmts.length < fuel) :
    Ends (treeBuildLoadDependencies fuel tree stmtIdx)
      (Stayed visits tree) := by
  apply (treeIteratorNew_stays stays visited).bind
  rintro iter ⟨grazes, light⟩
  dsimp only
  split
  · exact .refl stays
  · have marked := @setAddressProp_stayed tree visits stays stmtIdx
      { tree.addressProp stmtIdx with buildLoadDependenciesDone := true }
      (fun done => done) (stays.needed stmtIdx)
    apply (loadDependenciesLoop_ends marked.stays
      (marked.narrows.grazes grazes) (light.trans_lt enough)).mono
    exact fun _ later => marked.trans later

end Dependencies

section Search

variable {visits : Nat → Prop} {replace : Stores.Replace} {size stores : Nat}

/-- A call that replaces loads: if it says so, fewer are left. -/
structure Replaced (visits : Nat → Prop) (tree tree' : IrsbTree)
    (changed : Bool) : Prop where
  stayed : Stayed visits tree tree'
  fewer : changed = true → loadsLeft tree' < loadsLeft tree

theorem Replaced.refl {tree : IrsbTree} (stays : tree.Stays visits) :
    Replaced visits tree tree false :=
  ⟨.refl stays, nofun⟩

theorem Replaced.trans {tree tree' tree'' : IrsbTree}
    {changed changed' : Bool} (first : Replaced visits tree tree' changed)
    (second : Replaced visits tree' tree'' changed') :
    Replaced visits tree tree'' (changed || changed') := by
  refine ⟨first.stayed.trans second.stayed, fun either => ?_⟩
  have less := first.stayed.narrows.loadsLeft_le
  have less' := second.stayed.narrows.loadsLeft_le
  rcases Bool.or_eq_true_iff.mp either with changed | changed'
  · exact less'.trans_lt (first.fewer changed)
  · exact (second.fewer changed').trans_le less

/-- Calls for blocks of the given size, with at most so many stores that were
not visited. -/
def ReplaceEnds (visits : Nat → Prop) (size stores : Nat)
    (replace : Stores.Replace) : Prop :=
  ∀ search loadIdx, search.tree.Stays visits →
    search.tree.irsb.stmts.length = size → visits loadIdx →
    storesLeft search.tree ≤ stores →
    SearchEnds (replace search loadIdx) fun result =>
      Replaced visits search.tree result.1.tree result.2

theorem replaceNeeded_ends (replaceEnds : ReplaceEnds visits size stores replace)
    {loads : List Nat} {start search : StoreSearch} {hasChanged : Bool}
    (visited : ∀ load ∈ loads, visits load)
    (long : start.tree.irsb.stmts.length = size)
    (few : storesLeft start.tree ≤ stores)
    (before : Replaced visits start.tree search.tree hasChanged) :
    SearchEnds (Stores.replaceNeeded replace loads search hasChanged)
      fun result => Replaced visits start.tree result.1.tree result.2 := by
  induction loads generalizing search hasChanged with
  | nil => exact before
  | cons load rest induction =>
      have narrows := before.stayed.narrows
      apply (replaceEnds search load before.stayed.stays
        (narrows.length.trans long) (visited load List.mem_cons_self)
        (narrows.storesLeft_le.trans few)).bind
      rintro ⟨search', changed⟩ step
      exact induction
        (fun load later => visited load (List.mem_cons_of_mem _ later))
        (before.trans step)

/-- Each round of the repetition replaces a load. -/
theorem repeatNeeded_ends (replaceEnds : ReplaceEnds visits size stores replace)
    {fuel stStmt : Nat} {start search : StoreSearch} {found : Bool}
    (long : start.tree.irsb.stmts.length = size)
    (few : storesLeft start.tree ≤ stores)
    (before : Replaced visits start.tree search.tree found)
    (enough : loadsLeft search.tree < fuel) :
    SearchEnds (Stores.repeatNeeded replace stStmt fuel search found)
      fun result => Replaced visits start.tree result.1.tree result.2 := by
  induction fuel generalizing search found with
  | zero => exact absurd enough (Nat.not_lt_zero _)
  | succ fuel induction =>
      have narrows := before.stayed.narrows
      have stays := before.stayed.stays
      apply (@replaceNeeded_ends visits replace size stores replaceEnds _
        search search false (stays.needed stStmt) (narrows.length.trans long)
        (narrows.storesLeft_le.trans few) (.refl stays)).bind
      rintro ⟨search', hasChanged⟩ round
      cases hasChanged with
      | true =>
          have fewer : loadsLeft search'.tree < loadsLeft search.tree :=
            round.fewer rfl
          have whole := before.trans round
          rw [Bool.or_true] at whole
          exact induction whole (by omega)
      | false =>
          have whole := before.trans round
          rw [Bool.or_false] at whole
          exact whole

private theorem visitStore_ends
    (replaceEnds : ∀ fewer < stores, ReplaceEnds visits size fewer replace)
    {fuel stStmt : Nat} {search : StoreSearch} {st : IRStmt}
    (stays : search.tree.Stays visits)
    (long : search.tree.irsb.stmts.length = size)
    (found : search.tree.irsb.stmts[stStmt]? = some st) (store : st.isStore)
    (few : storesLeft search.tree ≤ stores)
    (enough : walkBound size + size < fuel) :
    SearchEnds (Stores.visitStore replace fuel search stStmt) fun result =>
      Replaced visits search.tree result.1.tree result.2 := by
  rw [Stores.visitStore]
  dsimp only
  split
  · exact .refl stays
  · next fresh =>
      rw [Bool.not_eq_true] at fresh
      have marked := @setAddressProp_stayed search.tree visits stays stStmt
        { search.tree.addressProp stStmt with
          replaceLoadByMatchingStoresDone := true }
        (fun _ => rfl) (stays.needed stStmt)
      have bound : walkBound (search.tree.setAddressProp stStmt
          { search.tree.addressProp stStmt with
            replaceLoadByMatchingStoresDone := true }).irsb.stmts.length <
          fuel := by
        show walkBound search.tree.irsb.stmts.length < fuel
        rw [long]
        omega
      have less : storesLeft (search.tree.setAddressProp stStmt
          { search.tree.addressProp stStmt with
            replaceLoadByMatchingStoresDone := true }) <
          storesLeft search.tree := by
        apply marked.narrows.storesLeft_lt found store fresh
        rw [addressProp_setAddressProp, if_pos rfl]
      have visited := stays.roots stStmt st found (.inl store)
      apply (analysis_ends (treeBuildLoadDependencies_ends marked.stays
        visited bound)).bind
      intro tree built
      have reached := marked.trans built
      have fewer := built.narrows.storesLeft_le
      split
      · exact ⟨reached, nofun⟩
      · have loads := loadsLeft_le_length tree
        have sized : tree.irsb.stmts.length = size :=
          reached.narrows.length.trans long
        have ends := @repeatNeeded_ends visits replace size (stores - 1)
          (replaceEnds (stores - 1) (by omega)) fuel stStmt
          ⟨tree, search.replaced⟩ ⟨tree, search.replaced⟩ false sized
          (by dsimp only; omega) (.refl reached.stays)
          (by dsimp only; omega)
        apply ends.mono
        intro result repeated
        have whole := @Replaced.trans _ _ _ _ false _ ⟨reached, nofun⟩
          repeated
        rwa [Bool.false_or] at whole

private theorem sameLoop_ends {tree : IrsbTree} {fuel : Nat}
    {iter1 iter2 : TreeIterator} (enough : iter1.weight < fuel) :
    Ends (sameLoop tree fuel iter1 iter2) fun _ => True := by
  induction fuel generalizing iter1 iter2 with
  | zero => exact absurd enough (Nat.not_lt_zero _)
  | succ fuel induction =>
      apply Ends.next
      · intro iter1'
        apply (treeIteratorNext_ends tree iter2).bind
        rintro ⟨iter2', found2⟩ _
        cases found2 <;> trivial
      · intro iter1' val1 typ
        apply (treeIteratorNext_ends tree iter2).bind
        rintro ⟨iter2', found2⟩ _
        cases found2 with
        | none => trivial
        | some val2 =>
            dsimp only
            split
            · trivial
            · rcases typ with typ | typ <;> simp only [typ] <;> trivial
      · intro iter1' val1 typ lower
        apply (treeIteratorNext_ends tree iter2).bind
        rintro ⟨iter2', found2⟩ _
        cases found2 with
        | none => trivial
        | some val2 =>
            dsimp only
            split
            · trivial
            · rcases typ with typ | typ <;> simp only [typ]
              · exact induction (by omega)
              · split
                · exact induction (by omega)
                · trivial

private theorem treeIsSameAddress_ends {tree : IrsbTree} {fuel : Nat}
    (addr1 addr2 : IRAtom)
    (enough : walkBound tree.irsb.stmts.length < fuel) :
    Ends (treeIsSameAddress fuel tree addr1 addr2) fun _ => True := by
  unfold treeIsSameAddress
  split
  · trivial
  · split
    · next tmp1 tmp2 _ =>
        apply (tlAssert_ends _).bind
        intro _ _
        apply (treeNodeTmp_ends tree tmp1).bind
        intro root1 _
        apply (treeIteratorNew_ends tree root1).bind
        intro iter1 light
        apply (treeNodeTmp_ends tree tmp2).bind
        intro root2 _
        apply (treeIteratorNew_ends tree root2).bind
        intro iter2 _
        exact sameLoop_ends (light.trans_lt enough)
    · trivial

/-- The assignment takes the load out of the block, if it is still there. -/
theorem assign_narrows {search : StoreSearch} {loadStmtIdx : Nat}
    {data : IRAtom}
    (read : ∀ tmp ∈ data.tmps, ∃ st ∈ search.tree.irsb.stmts, tmp ∈ st.reads) :
    Refines search.tree (search.assign loadStmtIdx data) ∧
      ((search.assign loadStmtIdx data).irsb.stmts[loadStmtIdx]?).any
        IRStmt.isLoad = false := by
  unfold StoreSearch.assign
  split
  · next tmp endness ty addr found =>
      have inside := (List.getElem?_eq_some_iff.mp found).1
      refine ⟨⟨narrows_set found read ⟨nofun, nofun, nofun⟩, fun shaped => ?_,
        rfl, rfl⟩, by simp [inside, IRStmt.isLoad]⟩
      exact shaped.set found _
  · next other =>
      refine ⟨.refl _, ?_⟩
      cases found : search.tree.irsb.stmts[loadStmtIdx]? with
      | none => rfl
      | some st =>
          cases st with
          | wrTmp tmp data' =>
              cases data' with
              | load endness ty addr => exact absurd found (other _ _ _ _)
              | _ => rfl
          | _ => rfl

private theorem matchStore_ends {fuel loadStmtIdx tmp stStmt : Nat}
    {start search : StoreSearch} {found : Bool} {st : IRStmt}
    (before : Replaced visits start.tree search.tree found)
    (wasLoad : start.tree.irsb.stmts[loadStmtIdx]? = some st)
    (load : st.isLoad)
    (long : start.tree.irsb.stmts.length = size)
    (enough : walkBound size < fuel) :
    SearchEnds (Stores.matchStore fuel search loadStmtIdx tmp stStmt)
      fun result =>
        Replaced visits start.tree result.1.tree (found || result.2.1) := by
  have sized : search.tree.irsb.stmts.length = size :=
    before.stayed.narrows.length.trans long
  unfold Stores.matchStore
  split
  · next endness addr data ldAddr isStore _ =>
      apply (analysis_ends (treeIsSameAddress_ends addr ldAddr
        (sized ▸ enough))).bind
      intro answer _
      cases answer with
      | exhausted => nofun
      | different =>
          show Replaced visits start.tree search.tree (found || false)
          rwa [Bool.or_false]
      | same =>
          dsimp only
          split
          · show Replaced visits start.tree search.tree (found || false)
            rwa [Bool.or_false]
          · have read : ∀ tmp ∈ data.tmps,
                ∃ st ∈ search.tree.irsb.stmts, tmp ∈ st.reads :=
              fun tmp inside => ⟨_, List.mem_of_getElem? isStore,
                List.mem_append_right _ inside⟩
            obtain ⟨assigned, noLoad⟩ :=
              @assign_narrows search loadStmtIdx data read
            apply (analysis_ends (treeOptimiseAtomicAlias_ends _)).bind
            intro tree refines
            have whole := before.stayed.narrows.trans
              (assigned.narrows.trans refines.narrows)
            refine ⟨⟨whole, refines.stays
              (assigned.stays before.stayed.stays)⟩, fun _ => ?_⟩
            apply whole.loadsLeft_lt wasLoad load
            rw [← Bool.not_eq_true]
            intro isLoad
            have there := refines.narrows.any
              (fun _ _ becomes => becomes.load) isLoad
            rw [noLoad] at there
            cases there
  · nofun

/-- The statements that the search still looks at. -/
def roundsLeft (size loadStmtIdx : Nat) (stStmt : Int) : Nat :=
  if stStmt < loadStmtIdx then
    (stStmt + 1).toNat + (size - 1 - loadStmtIdx)
  else (stStmt - loadStmtIdx).toNat

/-- The search goes down to the start, and from the end down to the load. -/
theorem roundsLeft_step {loadStmtIdx : Nat} {stStmt : Int}
    (inside : loadStmtIdx + 1 < size) (different : stStmt ≠ loadStmtIdx)
    (low : -1 ≤ stStmt) :
    let idx : Int := if stStmt < 0 then size - 1 else stStmt
    roundsLeft size loadStmtIdx (idx - 1) <
        roundsLeft size loadStmtIdx stStmt ∧ -1 ≤ idx - 1 := by
  simp only [roundsLeft]
  split <;> split <;> split <;> omega

private theorem searchStores_ends
    (replaceEnds : ∀ fewer < stores, ReplaceEnds visits size fewer replace)
    {loadStmtIdx tmp fuel : Nat} {start search : StoreSearch} {found : Bool}
    {stStmt : Int} {st : IRStmt}
    (before : Replaced visits start.tree search.tree found)
    (wasLoad : start.tree.irsb.stmts[loadStmtIdx]? = some st)
    (load : st.isLoad) (inside : loadStmtIdx + 1 < size)
    (long : start.tree.irsb.stmts.length = size)
    (few : storesLeft start.tree ≤ stores) (low : -1 ≤ stStmt)
    (enough : roundsLeft size loadStmtIdx stStmt + walkBound size + size + 1 <
      fuel) :
    SearchEnds
      (Stores.searchStores replace loadStmtIdx tmp fuel search found stStmt)
      fun result => Replaced visits start.tree result.1.tree result.2 := by
  induction fuel generalizing search found stStmt with
  | zero => exact absurd enough (Nat.not_lt_zero _)
  | succ fuel induction =>
      have narrows := before.stayed.narrows
      have sized : search.tree.irsb.stmts.length = size :=
        narrows.length.trans long
      rw [Stores.searchStores]
      split
      · exact before
      · next different =>
          obtain ⟨fewer, low'⟩ := roundsLeft_step inside different low
          dsimp only
          rw [sized]
          generalize (if stStmt < 0 then (size : Int) - 1 else stStmt) = idx
            at fewer low'
          split
          · nofun
          · next endness addr data isStore =>
              apply (visitStore_ends replaceEnds before.stayed.stays sized
                isStore rfl (narrows.storesLeft_le.trans few)
                (by omega)).bind
              rintro ⟨search₁, changed⟩ visited
              have visited := before.trans visited
              apply (matchStore_ends visited wasLoad load long
                (by omega)).bind
              rintro ⟨search₂, matched, stop⟩ whole
              dsimp only at whole ⊢
              split
              · exact whole
              · exact induction whole low' (by omega)
          · exact induction before low' (by omega)

/-- The rounds that are enough for a search with so many stores to visit. -/
def searchBound (size stores : Nat) : Nat :=
  (stores + 1) * (walkBound size + 2 * size + 4)

/-- A call inside another one has a store less to visit. -/
theorem replaceLoad_ends {fuel : Nat} (enough : searchBound size stores ≤ fuel) :
    ReplaceEnds visits size stores (Stores.replaceLoad fuel) := by
  induction stores using Nat.strongRecOn generalizing fuel with
  | ind stores induction =>
      intro search loadIdx stays long visited few
      have positive : walkBound size + 2 * size + 4 ≤
          searchBound size stores :=
        Nat.le_mul_of_pos_left _ (Nat.succ_pos stores)
      obtain ⟨fuel, rfl⟩ : ∃ left, fuel = left + 1 :=
        ⟨fuel - 1, by omega⟩
      have inner : ∀ fewer < stores,
          ReplaceEnds visits size fewer (Stores.replaceLoad fuel) := by
        intro fewer less
        apply induction fewer less
        have smaller : searchBound size fewer +
            (walkBound size + 2 * size + 4) ≤ searchBound size stores := by
          rw [searchBound, searchBound, ← Nat.succ_mul]
          exact Nat.mul_le_mul_right _ (by omega)
        omega
      rw [Stores.replaceLoad]
      split
      · next tmp endness ty addr found =>
          have inside := stays.loads loadIdx _ visited found rfl
          rw [long] at inside
          have rounds : roundsLeft size loadIdx (loadIdx - 1) ≤ size := by
            simp only [roundsLeft]
            split <;> omega
          exact searchStores_ends inner (.refl stays) found rfl inside long few
            (by omega) (by omega)
      · exact .refl stays

end Search

section Recursion

variable {tree : IrsbTree}

theorem searchArgs_ends {search : IRAtom → Except Halt Int}
    (ends : ∀ arg, Ends (search arg) fun _ => True) (res : Int)
    (args : List IRAtom) : Ends (searchArgs search res args) fun _ => True := by
  induction args generalizing res with
  | nil => trivial
  | cons arg rest induction =>
      apply (ends arg).bind
      intro t _
      split
      · trivial
      · exact induction _

private theorem searchLast_ends {search : IRAtom → Except Halt Int}
    (ends : ∀ arg, Ends (search arg) fun _ => True) (t : Int)
    (args : List IRAtom) : Ends (searchLast search t args) fun _ => True := by
  induction args generalizing t with
  | nil => trivial
  | cons arg rest induction =>
      apply (ends arg).bind
      intro t' _
      split
      · trivial
      · exact induction t'

private theorem isRecurseAtom_ends {searchStmt : Nat → Except Halt Int}
    (ends : ∀ root, Ends (searchStmt root) fun _ => True) (arg : IRAtom) :
    Ends (isRecurseAtom tree searchStmt arg) fun _ => True := by
  cases arg with
  | const con => trivial
  | rdTmp tmp =>
      exact (treeNodeTmp_ends tree tmp).bind fun root _ => ends root

private theorem putData_ends (stmtIdx : Nat) :
    Ends (putData tree stmtIdx) fun _ => True := by
  unfold putData
  split
  · trivial
  · nofun

private theorem isRecurseExpr_ends {search deeper : IRAtom → Except Halt Int}
    (ends : ∀ arg, Ends (search arg) fun _ => True)
    (below : ∀ arg, Ends (deeper arg) fun _ => True) (e : IRExpr) :
    Ends (isRecurseExpr tree search deeper e) fun _ => True := by
  cases e with
  | get offset ty =>
      apply (treeNodeRegister_ends tree offset ty).bind
      intro target _
      cases target with
      | none => trivial
      | some stmtIdx =>
          exact (putData_ends stmtIdx).bind fun data _ => below data
  | getI descr ix bias => trivial
  | ccall cee retty args => trivial
  | atom operand => exact ends operand
  | unop op arg => exact ends arg
  | load endness ty addr => exact ends addr
  | mux0X cond expr0 exprX => exact searchArgs_ends ends 0 _
  | qop op arg1 arg2 arg3 arg4 => exact searchArgs_ends ends 0 _
  | triop op arg1 arg2 arg3 => exact searchLast_ends ends 0 _
  | binop op arg1 arg2 => exact searchLast_ends ends 0 _

private theorem isRecurseBody_ends {search deeper : IRAtom → Except Halt Int}
    (ends : ∀ arg, Ends (search arg) fun _ => True)
    (below : ∀ arg, Ends (deeper arg) fun _ => True) (st : IRStmt) :
    Ends (isRecurseBody tree search deeper st) fun _ => True := by
  cases st with
  | wrTmp tmp data => exact isRecurseExpr_ends ends below data
  | store endness addr data => exact searchArgs_ends ends 0 _
  | exit guard => exact ends guard
  | put offset data => nofun
  | _ => trivial

private theorem isRecurseStmt_ends (left root : Nat) :
    Ends (isRecurseStmt tree left root) fun _ => True := by
  induction left using Nat.strongRecOn generalizing root with
  | ind left induction =>
      unfold isRecurseStmt
      split
      · intro exhausted
        cases exhausted
      · next st _ =>
          cases left with
          | zero => trivial
          | succ left =>
              apply isRecurseBody_ends
                (isRecurseAtom_ends (induction left (Nat.lt_succ_self _)))
              intro arg
              cases left with
              | zero => trivial
              | succ left =>
                  exact isRecurseAtom_ends (induction left (by omega)) arg

private theorem treeIsRecurse_ends (root : Nat) :
    Ends (treeIsRecurse tree root) fun _ => True :=
  isRecurseStmt_ends _ root

end Recursion

section Test

variable {visits : Nat → Prop} {tree : IrsbTree} {fuel testIndex : Nat}

/-- Each round moves the walk on, or starts it anew with a load less. -/
theorem constTestLoop_ends {size : Nat} {iter : TreeIterator}
    (stays : tree.Stays visits) (visited : visits testIndex)
    (long : tree.irsb.stmts.length = size)
    (grazes : Grazes tree visits iter.stack)
    (enough : loadsLeft tree * (walkBound size + 1) + iter.weight +
      searchBound size size < fuel) :
    SearchEnds (Stores.constTestLoop testIndex fuel tree iter)
      (Stayed visits tree) := by
  induction fuel generalizing tree iter with
  | zero => exact absurd enough (Nat.not_lt_zero _)
  | succ fuel induction =>
      apply (analysis_ends (treeIteratorNext_stays stays grazes)).bind
      rintro ⟨iter', found⟩ next
      cases found with
      | none => exact .refl stays
      | some val =>
          have next := next val rfl
          dsimp only at next
          cases typ : val.typ with
          | recurse =>
              simp only [typ]
              exact .refl stays
          | error =>
              simp only [typ]
              exact .refl stays
          | expr =>
              obtain ⟨grazes', _, lower⟩ := next (.inr typ)
              simp only [typ]
              exact induction stays long grazes' (by omega)
          | stmt =>
              obtain ⟨grazes', onPath, lower⟩ := next (.inl typ)
              simp only [typ]
              have ends : SearchEnds
                  (Stores.treeReplaceLoadByMatchingStores fuel tree
                    val.stmtIdx) fun result =>
                  Replaced visits tree result.1 result.2 :=
                (@replaceLoad_ends visits size size fuel (by omega) ⟨tree, []⟩
                  val.stmtIdx stays long onPath
                  (long ▸ storesLeft_le_length tree)).bind
                    fun _ replaced => replaced
              apply ends.bind
              rintro ⟨tree', changed⟩ ⟨stayed, fewer⟩
              dsimp only at stayed fewer
              have sized : tree'.irsb.stmts.length = size :=
                stayed.narrows.length.trans long
              dsimp only
              split
              · next isChanged =>
                  apply (analysis_ends
                    (treeIteratorNew_stays stayed.stays visited)).bind
                  rintro restarted ⟨grazes', light⟩
                  rw [sized] at light
                  have less := Nat.mul_le_mul_right (walkBound size + 1)
                    (fewer isChanged)
                  rw [Nat.succ_mul] at less
                  apply (induction stayed.stays sized grazes'
                    (by omega)).mono
                  exact fun _ later => stayed.trans later
              · have less := Nat.mul_le_mul_right (walkBound size + 1)
                  stayed.narrows.loadsLeft_le
                apply (induction stayed.stays sized
                  (stayed.narrows.grazes grazes') (by omega)).mono
                exact fun _ later => stayed.trans later

private theorem constTestSearch_ends (stays : tree.Stays visits)
    (visited : visits testIndex)
    (enough : (tree.irsb.stmts.length + 1) *
      (walkBound tree.irsb.stmts.length + 1) +
        searchBound tree.irsb.stmts.length tree.irsb.stmts.length < fuel) :
    SearchEnds (Stores.constTestSearch fuel tree testIndex) fun result =>
      Stayed visits tree result.1 := by
  apply (analysis_ends (treeIsRecurse_ends testIndex)).bind
  intro isRecursive _
  apply (analysis_ends (tlAssert_ends _)).bind
  intro _ _
  split
  · exact .refl stays
  · apply (analysis_ends (treeIteratorNew_stays stays visited)).bind
    rintro iter ⟨grazes, light⟩
    have few := Nat.mul_le_mul_right
      (walkBound tree.irsb.stmts.length + 1) (loadsLeft_le_length tree)
    rw [Nat.succ_mul] at enough
    apply (constTestLoop_ends stays visited rfl grazes (by omega)).bind
    intro tree' stayed
    apply (analysis_ends (treeIsRecurse_ends testIndex)).bind
    intro isRecursive' _
    apply (analysis_ends (tlAssert_ends _)).bind
    intro _ _
    exact stayed

/-- The rounds that are enough for the test of an exit. -/
def constTestBound (size : Nat) : Nat :=
  (size + 1) * (walkBound size + 1) + searchBound size size

private theorem isConstTest_ends {addrBits : Nat} (stays : tree.Stays visits)
    (enough : constTestBound tree.irsb.stmts.length < fuel) :
    SearchEnds (Stores.isConstTest addrBits fuel tree testIndex)
      fun result => Stayed visits tree result.1 := by
  unfold Stores.isConstTest
  split
  · next guard found =>
      have visited := stays.roots testIndex _ found (.inr rfl)
      split
      · exact constTestSearch_ends stays visited enough
      · have walk : walkBound tree.irsb.stmts.length < fuel := by
          have more := Nat.le_mul_of_pos_left
            (walkBound tree.irsb.stmts.length + 1)
            (by omega : 0 < tree.irsb.stmts.length + 1)
          rw [constTestBound] at enough
          omega
        apply (analysis_ends (treeSimplify_ends tree walk)).bind
        intro tree' refines
        have narrows := refines.narrows
        have stays' : tree'.Stays visits := refines.stays ⟨stays.reads,
          stays.registers, stays.roots, stays.loads, stays.needed⟩
        have sized : tree'.irsb.stmts.length = tree.irsb.stmts.length :=
          narrows.length
        apply (constTestSearch_ends stays' visited (sized ▸ enough)).mono
        intro result stayed
        have first : Narrows tree tree' := ⟨narrows.length, narrows.reads,
          narrows.nodes, narrows.registers, narrows.forms, narrows.visited⟩
        exact ⟨first.trans stayed.narrows, stayed.stays⟩
  · nofun

end Test

/-- The trees of a block that its exits are tested with, one after the other:
after a test the loads that the exit depends on are noted. -/
inductive Tested (bb : IRSB) : IrsbTree → Prop where
  | built {tree : IrsbTree} (init : treeInit bb = .ok tree) : Tested bb tree
  | tested {tree tree' : IrsbTree} {addrBits fuel testIndex : Nat}
      {constant : Bool} (before : Tested bb tree)
      (enough : constTestBound tree.irsb.stmts.length < fuel)
      (test : Stores.isConstTest addrBits fuel tree testIndex =
        .ok (tree', constant)) : Tested bb tree'
  | noted {tree tree' : IrsbTree} {fuel testIndex : Nat} {guard : IRAtom}
      (before : Tested bb tree)
      (isExit : tree.irsb.stmts[testIndex]? = some (.exit guard))
      (enough : walkBound tree.irsb.stmts.length < fuel)
      (noted : treeBuildLoadDependencies fuel tree testIndex = .ok tree') :
      Tested bb tree'

theorem Tested.stays {bb : IRSB} {tree : IrsbTree} (reached : Tested bb tree)
    (inScope : Scoped bb.tyenv [] bb.stmts) : tree.Stays bb.visits := by
  induction reached with
  | built init => exact treeInit_stays init inScope
  | tested before enough test induction =>
      exact ((isConstTest_ends induction enough).of_eq_ok test).stays
  | noted before isExit enough noted induction =>
      have visited := induction.roots _ _ isExit (.inr rfl)
      exact ((treeBuildLoadDependencies_ends induction visited
        enough).of_eq_ok noted).stays

/-- The test of an exit comes to a result or stops at an assertion, with a
panic or at the null pointer; it does not go on for ever. -/
theorem const_test_ends (addrBits fuel testIndex : Nat) (bb : IRSB)
    (tree : IrsbTree) (inScope : Scoped bb.tyenv [] bb.stmts)
    (reached : Tested bb tree)
    (enough : constTestBound tree.irsb.stmts.length < fuel) :
    Stores.isConstTest addrBits fuel tree testIndex ≠
      .error (.halt .outOfFuel) := by
  have ends := @isConstTest_ends bb.visits tree fuel testIndex addrBits
    (reached.stays inScope) enough
  intro same
  rw [same] at ends
  exact ends rfl

/-- The flag in memory is written, and read again around the loop. -/
def storedBlock : IRSB where
  tyenv := [.I32, .I1]
  stmts := [.iMark 0x8048000 6,
    .wrTmp 0 (.load .LE .I32 (.const (.U32 0x804A000))),
    .wrTmp 1 (.unop (.other 0) (.rdTmp 0)),
    .store .LE (.const (.U32 0x804A000)) (.const (.U32 1)),
    .exit (.rdTmp 1)]

def storedTree : IrsbTree where
  irsb := storedBlock
  tstruct := [some 1, some 2]
  regLoopDefs := []
  stmtAddressProps := []
  wasSimplified := false

theorem const_test_ends_stored :
    Scoped storedBlock.tyenv [] storedBlock.stmts ∧
      treeInit storedBlock = .ok storedTree ∧
      Stores.isConstTest 32 (constTestBound 5 + 1) storedTree 4 ≠
        .error (.halt .outOfFuel) ∧
      ((Stores.isConstTest 32 1000 storedTree 4).toOption.map
        fun result => result.1.irsb.stmts[1]?) = some (some .comment) := by
  have inScope : Scoped storedBlock.tyenv [] storedBlock.stmts := by decide
  have built : treeInit storedBlock = .ok storedTree := by decide +kernel
  exact ⟨inScope, built, const_test_ends 32 (constTestBound 5 + 1) 4
    storedBlock storedTree inScope (.built built) (Nat.lt_succ_self _),
    by decide +kernel⟩

/-- The guard is the result of a helper that is called for its effect. -/
def helperBlock : IRSB where
  tyenv := [.I1]
  stmts := [.iMark 0x8048000 6,
    .dirty ⟨0, .const (.U1 true), [], some 0, none⟩, .exit (.rdTmp 0)]

def helperTree : IrsbTree where
  irsb := helperBlock
  tstruct := [none]
  regLoopDefs := []
  stmtAddressProps := []
  wasSimplified := false

/-- The test does not return but stops at the assertion that the temporary has
a node. -/
theorem const_test_asserts :
    Scoped helperBlock.tyenv [] helperBlock.stmts ∧
      treeInit helperBlock = .ok helperTree ∧
      helperBlock.stmts[2]? = some (.exit (.rdTmp 0)) ∧
      ∀ addrBits fuel,
        Stores.isConstTest addrBits fuel helperTree 2 =
          .error (.halt .tlAssert) :=
  ⟨by decide, by decide +kernel, rfl, fun _ _ => rfl⟩

end Dependency

end HelgrindPlus
