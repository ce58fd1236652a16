import HelgrindPlus.Dependency.MatchingStores
import HelgrindPlus.Dependency.SimplifiedTree
import HelgrindPlus.Dependency.SpinDependencies

/-!
# Where the walks stay

The search for stores does not stop at a load that is the last statement of
the block.  No walk comes to one, since nothing in the block reads what it
assigns, and the rewriting keeps this so.
-/

namespace HelgrindPlus

namespace Dependency

open Outcome

/-- The walks stay on the statements `visits`, where a load is never the last
statement. -/
structure IrsbTree.Stays (tree : IrsbTree) (visits : Nat → Prop) : Prop where
  reads : ∀ st ∈ tree.irsb.stmts, ∀ tmp ∈ st.reads, ∀ idx : Nat,
    tree.tstruct[tmp]? = some (some idx) → visits idx
  registers : ∀ entry ∈ tree.regLoopDefs, visits entry.2
  roots : ∀ (idx : Nat) (st : IRStmt), tree.irsb.stmts[idx]? = some st →
    st.isStore ∨ st.isExit → visits idx
  loads : ∀ (idx : Nat) (st : IRStmt), visits idx →
    tree.irsb.stmts[idx]? = some st → st.isLoad →
    idx + 1 < tree.irsb.stmts.length
  needed : ∀ idx, ∀ load ∈ (tree.addressProp idx).neededLoads, visits load

section Stays

variable {tree tree' : IrsbTree} {visits : Nat → Prop}

theorem Narrows.stays (narrows : Narrows tree tree')
    (stays : tree.Stays visits)
    (needed : ∀ idx, ∀ load ∈ (tree'.addressProp idx).neededLoads,
      visits load) : tree'.Stays visits where
  reads := by
    intro st member tmp read idx noted
    obtain ⟨st', member', read'⟩ := narrows.reads st member tmp read
    exact stays.reads st' member' tmp read' idx (narrows.nodes tmp idx noted)
  registers := fun entry member =>
    stays.registers entry (narrows.registers entry member)
  roots := by
    intro idx st found root
    obtain ⟨st', found', becomes⟩ := narrows.forms idx st found
    exact stays.roots idx st' found' (root.imp becomes.store becomes.exit)
  loads := by
    intro idx st visited found load
    obtain ⟨st', found', becomes⟩ := narrows.forms idx st found
    rw [narrows.length]
    exact stays.loads idx st' visited found' (becomes.load load)
  needed := needed

theorem Refines.stays (refines : Refines tree tree')
    (stays : tree.Stays visits) : tree'.Stays visits := by
  apply refines.narrows.stays stays
  intro idx load member
  rw [IrsbTree.addressProp, refines.noted] at member
  exact stays.needed idx load member

/-- The expression leads to statements that may be come to. -/
def Leads (tree : IrsbTree) (visits : Nat → Prop) (e : IRExpr) : Prop :=
  ∀ tmp ∈ e.tmps, ∀ idx : Nat, tree.tstruct[tmp]? = some (some idx) →
    visits idx

/-- The values on the stack are of statements that may be come to, and lead
to such. -/
def Grazes (tree : IrsbTree) (visits : Nat → Prop)
    (stack : List TreeIteratValue) : Prop :=
  ∀ val ∈ stack, visits val.stmtIdx ∧
    ∀ e, some e ∈ val.subExpr → Leads tree visits e

theorem Narrows.grazes (narrows : Narrows tree tree')
    {stack : List TreeIteratValue} (grazes : Grazes tree visits stack) :
    Grazes tree' visits stack := by
  intro val member
  refine ⟨(grazes val member).1, fun e child tmp read idx noted => ?_⟩
  exact (grazes val member).2 e child tmp read idx
    (narrows.nodes tmp idx noted)

theorem Leads.operand {e : IRExpr} (leads : Leads tree visits e)
    {arg : IRAtom} (member : arg ∈ e.children) :
    Leads tree visits (.atom arg) :=
  fun tmp read => leads tmp (children_tmps member read)

/-- What is entered is come to, and its expressions lead on. -/
theorem treeIteratorStmt_grazes (stays : tree.Stays visits) {root : Nat}
    {val : TreeIteratValue} (visited : visits root)
    (entering : treeIteratorStmt tree root = .ok val) :
    Grazes tree visits [val] := by
  have leads : ∀ st e, tree.irsb.stmts[root]? = some st →
      (∀ tmp ∈ e.tmps, tmp ∈ st.reads) → Leads tree visits e :=
    fun st e found inside tmp read =>
      stays.reads st (List.mem_of_getElem? found) tmp (inside tmp read)
  intro val' member
  rw [List.mem_singleton.mp member]
  unfold treeIteratorStmt at entering
  split at entering
  · cases entering
  · next endness addr data found =>
      cases entering
      refine ⟨visited, fun e child => ?_⟩
      rcases List.mem_cons.mp child with same | child
      · cases same
        exact leads _ _ found fun tmp => List.mem_append_left _
      · cases List.mem_singleton.mp child
        exact leads _ _ found fun tmp => List.mem_append_right _
  · next offset data found =>
      cases entering
      refine ⟨visited, fun e child => ?_⟩
      cases List.mem_singleton.mp child
      exact leads _ _ found fun _ => id
  · next tmp data found =>
      cases entering
      refine ⟨visited, fun e child => ?_⟩
      cases List.mem_singleton.mp child
      exact leads _ _ found fun _ => id
  · next guard found =>
      cases entering
      refine ⟨visited, fun e child => ?_⟩
      cases List.mem_singleton.mp child
      exact leads _ _ found fun _ => id
  · cases entering
    refine ⟨visited, fun e child => ?_⟩
    cases child

private theorem treeIteratorNew_grazes (stays : tree.Stays visits) {root : Nat}
    {iter : TreeIterator} (visited : visits root)
    (started : treeIteratorNew tree root = .ok iter) :
    Grazes tree visits iter.stack := by
  obtain ⟨val, entering, started⟩ := bind_eq_ok.mp started
  cases started
  exact treeIteratorStmt_grazes stays visited entering

private theorem under_grazes (stays : tree.Stays visits) {loopGetPut : Bool}
    {e : IRExpr} {below : List TreeIteratValue} (leads : Leads tree visits e)
    (found : under tree loopGetPut e = .ok below) :
    Grazes tree visits below := by
  rcases under_eq_ok found with ⟨_, rfl⟩ | ⟨idx, entered, led, entering, rfl⟩
  · intro val member
    cases member
  · refine treeIteratorStmt_grazes stays ?_ entering
    cases e with
    | atom operand =>
        cases operand with
        | const con => cases led
        | rdTmp tmp =>
            obtain ⟨idx', node, led⟩ := bind_eq_ok.mp led
            cases led
            exact leads tmp (List.mem_singleton_self tmp) _
              (treeNodeTmp_eq_ok node)
    | get offset ty =>
        simp only [leadsTo] at led
        split at led
        · obtain ⟨key, _, led⟩ := bind_eq_ok.mp led
          exact stays.registers _ (mem_of_lookup (Except.ok.inj led))
        · cases led
    | _ => cases led

/-- A walk stays where it may. -/
theorem treeIteratorNext_grazes (stays : tree.Stays visits)
    {iter iter' : TreeIterator} {val : TreeIteratValue}
    (grazes : Grazes tree visits iter.stack)
    (moved : treeIteratorNext tree iter = .ok (iter', some val))
    (goesOn : val.typ = .stmt ∨ val.typ = .expr) :
    Grazes tree visits iter'.stack ∧ visits val.stmtIdx := by
  have walks : val.typ ≠ .recurse := by
    rcases goesOn with typ | typ <;> rw [typ] <;> nofun
  obtain ⟨finished, top, rest, split, _, _, yields⟩ :=
    treeIteratorPop_yields moved walks
  have onTop := grazes top (by simp [split])
  have onRest : Grazes tree visits rest := fun val member =>
    grazes val (by simp [split, member])
  cases yields with
  | enter isStmt fresh =>
      refine ⟨?_, onTop.1⟩
      intro val member
      rcases List.mem_cons.mp member with rfl | later
      · exact onTop
      · exact onRest val later
  | @child e subExpr _ _ typed next descended =>
      have typ : val.typ = .expr := by
        rcases goesOn with isStmt | isExpr
        · exact absurd isStmt (descend_typ descended)
        · exact isExpr
      have leads : Leads tree visits e :=
        onTop.2 e ((some_mem_of_nextChild next e).mpr (.inl rfl))
      obtain ⟨below, found, _, _, _, rfl, rfl⟩ := descend_expr descended typ
      refine ⟨?_, onTop.1⟩
      intro val member
      rcases List.mem_cons.mp member with rfl | member
      · refine ⟨onTop.1, fun e' child => ?_⟩
        obtain ⟨arg, inside, same⟩ := List.mem_map.mp child
        cases same
        exact leads.operand inside
      · rcases List.mem_append.mp member with inBelow | member
        · exact under_grazes stays leads found val inBelow
        · rcases List.mem_cons.mp member with rfl | later
          · refine ⟨onTop.1, fun e' child => onTop.2 e' ?_⟩
            exact (some_mem_of_nextChild next e').mpr (.inr child)
          · exact onRest val later

/-- The start of a walk, and each step of it. -/
theorem treeIteratorNew_stays (stays : tree.Stays visits) {root : Nat}
    (visited : visits root) :
    Ends (treeIteratorNew tree root) fun iter =>
      Grazes tree visits iter.stack ∧
        iter.weight ≤ walkBound tree.irsb.stmts.length := by
  have ends := treeIteratorNew_ends tree root
  cases started : treeIteratorNew tree root with
  | error halt =>
      rw [started] at ends
      exact ends
  | ok iter =>
      rw [started] at ends
      exact ⟨treeIteratorNew_grazes stays visited started, ends⟩

theorem treeIteratorNext_stays (stays : tree.Stays visits)
    {iter : TreeIterator} (grazes : Grazes tree visits iter.stack) :
    Ends (treeIteratorNext tree iter) fun result => ∀ val,
      result.2 = some val → val.typ = .stmt ∨ val.typ = .expr →
      Grazes tree visits result.1.stack ∧ visits val.stmtIdx ∧
        result.1.weight < iter.weight := by
  have ends := treeIteratorNext_ends tree iter
  cases moved : treeIteratorNext tree iter with
  | error halt =>
      rw [moved] at ends
      exact ends
  | ok result =>
      obtain ⟨iter', found⟩ := result
      rintro val rfl goesOn
      obtain ⟨grazes', visited⟩ :=
        treeIteratorNext_grazes stays grazes moved goesOn
      exact ⟨grazes', visited, (treeIteratorNext_weight_lt moved goesOn).2⟩

theorem treeIteratorSkip_grazes {iter : TreeIterator} {childId : Option Nat}
    (grazes : Grazes tree visits iter.stack) :
    Grazes tree visits (treeIteratorSkip iter childId).stack := by
  unfold treeIteratorSkip
  split
  · exact grazes
  · next top rest stack =>
      rw [stack] at grazes
      have onTop := grazes top List.mem_cons_self
      intro val member
      rcases List.mem_cons.mp member with rfl | later
      · refine ⟨onTop.1, fun e child => onTop.2 e ?_⟩
        cases childId with
        | none => cases child
        | some child' =>
            rcases List.mem_or_eq_of_mem_set child with old | same
            · exact old
            · cases same
      · exact grazes val (List.mem_cons_of_mem _ later)

end Stays

/-- Statements of the block at which a walk may be: a load at its end is not
among them. -/
def IRSB.visits (bb : IRSB) (idx : Nat) : Prop :=
  ∀ st, bb.stmts[idx]? = some st → st.isLoad → idx + 1 < bb.stmts.length

/-- The statements are those of the block, without some of the stores. -/
theorem buildTmpStmts_kept {build build' : BuildTmp} {i : Nat}
    {stmts stmts' : List IRStmt}
    (built : buildTmpStmts build i stmts = .ok (build', stmts')) :
    List.Forall₂ (fun st st' => st' = st ∨ st' = .comment ∧ st.isStore) stmts
      stmts' := by
  induction stmts generalizing build i stmts' with
  | nil =>
      cases built
      exact .nil
  | cons st rest induction =>
      obtain ⟨⟨build₁, st₁⟩, first, built⟩ := bind_eq_ok.mp built
      obtain ⟨⟨build₂, rest₂⟩, later, built⟩ := bind_eq_ok.mp built
      cases built
      refine .cons ?_ (induction later)
      obtain ⟨same | ⟨removed, _, _, _, rfl⟩, _⟩ := buildTmpStmt_shape first
      · exact .inl same
      · exact .inr ⟨removed, rfl⟩

theorem treeInit_kept {bb : IRSB} {tree : IrsbTree}
    (built : treeInit bb = .ok tree) :
    tree.irsb.tyenv = bb.tyenv ∧ tree.stmtAddressProps = [] ∧
      List.Forall₂ (fun st st' => st' = st ∨ st' = .comment ∧ st.isStore)
        bb.stmts tree.irsb.stmts := by
  obtain ⟨⟨build, stmts⟩, first, built⟩ := bind_eq_ok.mp built
  obtain ⟨defs, _, built⟩ := bind_eq_ok.mp built
  cases built
  exact ⟨rfl, rfl, buildTmpStmts_kept first⟩

/-- What is in the tree and is no comment is in the block. -/
theorem treeInit_found {bb : IRSB} {tree : IrsbTree}
    (built : treeInit bb = .ok tree) {idx : Nat} {st : IRStmt}
    (found : tree.irsb.stmts[idx]? = some st) (real : st ≠ .comment) :
    bb.stmts[idx]? = some st := by
  have kept := (treeInit_kept built).2.2
  have long := kept.length_eq
  obtain ⟨inside, rfl⟩ := List.getElem?_eq_some_iff.mp found
  have pair := kept.get (long ▸ inside) inside
  simp only [List.get_eq_getElem] at pair
  rw [List.getElem?_eq_getElem (long ▸ inside)]
  rcases pair with same | ⟨removed, _⟩
  · rw [same]
  · exact absurd removed real

theorem treeInit_stays {bb : IRSB} {tree : IrsbTree}
    (built : treeInit bb = .ok tree)
    (inScope : Scoped bb.tyenv [] bb.stmts) : tree.Stays bb.visits := by
  obtain ⟨_, noProps, kept⟩ := treeInit_kept built
  have shaped := treeInit_shaped built
  have notLoad : ∀ {idx : Nat} {st : IRStmt},
      tree.irsb.stmts[idx]? = some st → st ≠ .comment →
      st.isLoad = false → bb.visits idx := by
    intro idx st found real other st' found' load
    rw [treeInit_found built found real] at found'
    cases found'
    rw [other] at load
    cases load
  constructor
  · intro st member tmp read idx noted st' found' load
    obtain ⟨reader, found⟩ := List.getElem?_of_mem member
    have real : st ≠ .comment := by
      rintro rfl
      cases read
    have found := treeInit_found built found real
    obtain ⟨data, node⟩ := shaped.node tmp idx noted
    have assigned := treeInit_found built node (by simp)
    -- the temporary is assigned before it is read
    have known := inScope.reads_at found tmp read
    rw [mem_scopeAfter] at known
    obtain known | known := known
    · obtain ⟨earlier, inside, defines⟩ := List.mem_flatMap.mp known
      obtain ⟨at', before⟩ := List.getElem?_of_mem inside
      have early : at' < reader := by
        have := (List.getElem?_eq_some_iff.mp before).1
        rw [List.length_take] at this
        omega
      rw [List.getElem?_take_of_lt early] at before
      have bound := (List.getElem?_eq_some_iff.mp found).1
      have same : at' = idx := by
        rcases Nat.lt_trichotomy at' idx with less | same | more
        · exact (inScope.assigned_once before assigned
            (Option.mem_toList.mp defines) rfl less).elim
        · exact same
        · exact (inScope.assigned_once assigned before rfl
            (Option.mem_toList.mp defines) more).elim
      omega
    · cases known
  · intro entry member
    obtain ⟨offset, ty, data, _, found⟩ := shaped.register entry member
    exact notLoad found (by simp) rfl
  · intro idx st found root
    have real : st ≠ .comment := by
      rintro rfl
      rcases root with root | root <;> cases root
    refine notLoad found real ?_
    cases st <;> first | rfl | rcases root with root | root <;> cases root
  · intro idx st visited found load
    have real : st ≠ .comment := by
      rintro rfl
      cases load
    have bound := visited st (treeInit_found built found real) load
    rwa [kept.length_eq] at bound
  · intro idx load member
    rw [IrsbTree.addressProp, noProps] at member
    cases member

/-- The loads that are left, and the stores that were not visited. -/
def loadsLeft (tree : IrsbTree) : Nat :=
  ((Finset.range tree.irsb.stmts.length).filter fun idx =>
    (tree.irsb.stmts[idx]?).any IRStmt.isLoad).card

def storesLeft (tree : IrsbTree) : Nat :=
  ((Finset.range tree.irsb.stmts.length).filter fun idx =>
    (tree.irsb.stmts[idx]?).any IRStmt.isStore ∧
      (tree.addressProp idx).replaceLoadByMatchingStoresDone = false).card

section Measures

variable {tree tree' : IrsbTree}

theorem Narrows.any (narrows : Narrows tree tree') {p : IRStmt → Bool}
    (kept : ∀ st st' : IRStmt, st.Becomes st' → p st' → p st) {idx : Nat}
    (found : (tree'.irsb.stmts[idx]?).any p) :
    (tree.irsb.stmts[idx]?).any p := by
  cases there : tree'.irsb.stmts[idx]? with
  | none =>
      rw [there] at found
      cases found
  | some st' =>
      rw [there] at found
      obtain ⟨st, here, becomes⟩ := narrows.forms idx st' there
      rw [here]
      exact kept st st' becomes found

theorem Narrows.loads_subset (narrows : Narrows tree tree') :
    ((Finset.range tree'.irsb.stmts.length).filter fun idx =>
      (tree'.irsb.stmts[idx]?).any IRStmt.isLoad) ⊆
    (Finset.range tree.irsb.stmts.length).filter fun idx =>
      (tree.irsb.stmts[idx]?).any IRStmt.isLoad := by
  intro idx member
  rw [Finset.mem_filter, narrows.length] at member
  exact Finset.mem_filter.mpr ⟨member.1,
    narrows.any (fun _ _ becomes => becomes.load) member.2⟩

theorem Narrows.loadsLeft_le (narrows : Narrows tree tree') :
    loadsLeft tree' ≤ loadsLeft tree :=
  Finset.card_le_card narrows.loads_subset

/-- A load that is gone counts. -/
theorem Narrows.loadsLeft_lt (narrows : Narrows tree tree') {idx : Nat}
    {st : IRStmt} (found : tree.irsb.stmts[idx]? = some st)
    (load : st.isLoad)
    (gone : (tree'.irsb.stmts[idx]?).any IRStmt.isLoad = false) :
    loadsLeft tree' < loadsLeft tree := by
  apply Finset.card_lt_card
  refine Finset.ssubset_iff_subset_ne.mpr ⟨narrows.loads_subset, fun same => ?_⟩
  have here : idx ∈ (Finset.range tree.irsb.stmts.length).filter fun idx =>
      (tree.irsb.stmts[idx]?).any IRStmt.isLoad := by
    rw [Finset.mem_filter, found]
    exact ⟨Finset.mem_range.mpr (List.getElem?_eq_some_iff.mp found).1, load⟩
  rw [← same, Finset.mem_filter, gone] at here
  cases here.2

theorem Narrows.stores_subset (narrows : Narrows tree tree') :
    ((Finset.range tree'.irsb.stmts.length).filter fun idx =>
      (tree'.irsb.stmts[idx]?).any IRStmt.isStore ∧
        (tree'.addressProp idx).replaceLoadByMatchingStoresDone = false) ⊆
    (Finset.range tree.irsb.stmts.length).filter fun idx =>
      (tree.irsb.stmts[idx]?).any IRStmt.isStore ∧
        (tree.addressProp idx).replaceLoadByMatchingStoresDone = false := by
  intro idx member
  rw [Finset.mem_filter, narrows.length] at member
  refine Finset.mem_filter.mpr ⟨member.1,
    narrows.any (fun _ _ becomes => becomes.store) member.2.1, ?_⟩
  rw [← Bool.not_eq_true]
  intro done
  rw [narrows.visited idx done] at member
  cases member.2.2

theorem Narrows.storesLeft_le (narrows : Narrows tree tree') :
    storesLeft tree' ≤ storesLeft tree :=
  Finset.card_le_card narrows.stores_subset

/-- A store that is visited no longer counts. -/
theorem Narrows.storesLeft_lt (narrows : Narrows tree tree') {idx : Nat}
    {st : IRStmt} (found : tree.irsb.stmts[idx]? = some st)
    (store : st.isStore)
    (fresh : (tree.addressProp idx).replaceLoadByMatchingStoresDone = false)
    (done : (tree'.addressProp idx).replaceLoadByMatchingStoresDone = true) :
    storesLeft tree' < storesLeft tree := by
  apply Finset.card_lt_card
  refine Finset.ssubset_iff_subset_ne.mpr
    ⟨narrows.stores_subset, fun same => ?_⟩
  have here : idx ∈ (Finset.range tree.irsb.stmts.length).filter fun idx =>
      (tree.irsb.stmts[idx]?).any IRStmt.isStore ∧
        (tree.addressProp idx).replaceLoadByMatchingStoresDone = false := by
    rw [Finset.mem_filter, found]
    exact ⟨Finset.mem_range.mpr (List.getElem?_eq_some_iff.mp found).1, store,
      fresh⟩
  rw [← same, Finset.mem_filter, done] at here
  cases here.2.2

theorem loadsLeft_le_length (tree : IrsbTree) :
    loadsLeft tree ≤ tree.irsb.stmts.length := by
  have few := Finset.card_filter_le (Finset.range tree.irsb.stmts.length)
    fun idx => (tree.irsb.stmts[idx]?).any IRStmt.isLoad
  rwa [Finset.card_range] at few

theorem storesLeft_le_length (tree : IrsbTree) :
    storesLeft tree ≤ tree.irsb.stmts.length := by
  have few := Finset.card_filter_le (Finset.range tree.irsb.stmts.length)
    fun idx => (tree.irsb.stmts[idx]?).any IRStmt.isStore ∧
      (tree.addressProp idx).replaceLoadByMatchingStoresDone = false
  rwa [Finset.card_range] at few

end Measures

end Dependency

end HelgrindPlus
