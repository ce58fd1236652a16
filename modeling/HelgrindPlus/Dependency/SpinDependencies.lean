import HelgrindPlus.Dependency.NeededLoads
import Mathlib.Tactic.IntervalCases

/-!
# The dependencies of an exit

`tree_buildLoadDependencies` notes the loads that an exit needs, no more and
no fewer.  Of their addresses `mark_spin_reads_SCH` gets the first nineteen.
-/

namespace HelgrindPlus

namespace Dependency

open Outcome Relation

section Props

variable {tree : IrsbTree}

theorem lookup_addToFM {α : Type} (key key' : Nat) (value : α)
    (entries : List (Nat × α)) :
    (addToFM key value entries).lookup key' =
      if key' = key then some value else entries.lookup key' := by
  induction entries with
  | nil =>
      by_cases same : key' = key
      · simp [addToFM, same]
      · simp [addToFM, same]
  | cons first rest induction =>
      obtain ⟨other, value'⟩ := first
      rw [addToFM]
      split
      · by_cases same : key' = key
        · simp [same]
        · simp [List.lookup_cons, same, beq_false_of_ne same]
      · split
        · next equal =>
            subst equal
            by_cases same : key' = key
            · simp [same]
            · simp [List.lookup_cons, same, beq_false_of_ne same]
        · next different =>
            rw [List.lookup_cons, List.lookup_cons, induction]
            by_cases same : key' = key
            · rw [if_pos same, if_pos same, beq_false_of_ne (same ▸ different)]
            · rw [if_neg same, if_neg same]

theorem mem_insertWord {word word' : Nat} {words : List Nat} :
    word' ∈ insertWord word words ↔ word' = word ∨ word' ∈ words := by
  induction words with
  | nil => simp [insertWord]
  | cons first rest induction =>
      rw [insertWord]
      split
      · simp
      · split
        · next same => simp [same]
        · rw [List.mem_cons, induction, List.mem_cons]
          tauto

private theorem insertWord_ascending {word : Nat} {words : List Nat}
    (ascending : words.Pairwise (· < ·)) :
    (insertWord word words).Pairwise (· < ·) := by
  induction words with
  | nil => simp [insertWord]
  | cons first rest induction =>
      obtain ⟨least, later⟩ := List.pairwise_cons.mp ascending
      rw [insertWord]
      split
      · next less =>
          refine List.pairwise_cons.mpr ⟨fun other member => ?_, ascending⟩
          rcases List.mem_cons.mp member with rfl | member
          · exact less
          · exact less.trans (least other member)
      · split
        · exact ascending
        · next greater different =>
            refine List.pairwise_cons.mpr ⟨fun other member => ?_,
              induction later⟩
            rcases mem_insertWord.mp member with rfl | member
            · omega
            · exact least other member

/-- The loads that are noted for a statement. -/
def neededOf (props : List (Nat × AddressProp)) (stmtIdx : Nat) : List Nat :=
  ((props.lookup stmtIdx).getD addressPropNew).neededLoads

theorem neededOf_addToFM {props : List (Nat × AddressProp)} {prop : AddressProp}
    (stmtIdx stmtIdx' : Nat) :
    neededOf (addToFM stmtIdx prop props) stmtIdx' =
      if stmtIdx' = stmtIdx then prop.neededLoads
      else neededOf props stmtIdx' := by
  rw [neededOf, lookup_addToFM]
  split <;> rfl

/-- The walk does not look at what is noted. -/
theorem treeIteratorNext_props (props : List (Nat × AddressProp))
    (iter : TreeIterator) :
    treeIteratorNext { tree with stmtAddressProps := props } iter =
      treeIteratorNext tree iter := by
  unfold treeIteratorNext
  generalize iter.stack = stack
  induction stack with
  | nil => rfl
  | cons top rest induction =>
      unfold treeIteratorPop
      rw [induction]
      rfl

end Props

section Run

variable {tree : IrsbTree} {root : Nat}

/-- What is noted for the root when the walk is over. -/
structure Noted (tree : IrsbTree) (root : Nat)
    (props : List (Nat × AddressProp)) (stack : List TreeIteratValue)
    (tree' : IrsbTree) : Prop where
  graph : ∃ props', tree' = { tree with stmtAddressProps := props' }
  needed : ∀ load, load ∈ neededOf tree'.stmtAddressProps root ↔
    load ∈ neededOf props root ∨ StackOwes tree load stack
  ascending : (neededOf props root).Pairwise (· < ·) →
    (neededOf tree'.stmtAddressProps root).Pairwise (· < ·)
  noded : ¬ ∃ val ∈ stack, val.Stuck tree

/-- A load is noted for the root if the walk has not come through a load. -/
theorem neededOf_addLoadDepend (walked : WalkedFrom tree root)
    {props : List (Nat × AddressProp)} {rest : List TreeIteratValue}
    (loads : ∀ val ∈ rest, val.isLoad = true → tree.isLoad val.stmtIdx)
    (loadIdx : Nat) :
    neededOf (addressPropAddLoadDepend { tree with stmtAddressProps := props }
        (noteFor root (loadEntries rest)) loadIdx).stmtAddressProps root =
      if loadEntries rest = [] then insertWord loadIdx (neededOf props root)
      else neededOf props root := by
  simp only [addressPropAddLoadDepend, IrsbTree.setAddressProp,
    neededOf_addToFM, IrsbTree.addressProp]
  cases entries : loadEntries rest with
  | nil =>
      simp only [noteFor, if_true]
      rfl
  | cons load later =>
      obtain ⟨val, member, isLoad, same⟩ :=
        mem_loadEntries (entries ▸ List.mem_cons_self : load ∈ loadEntries rest)
      have other : root ≠ load.stmtIdx := by
        rintro rfl
        obtain ⟨tmp, endness, ty, addr, found⟩ := loads val member isLoad
        exact walked.bare _ _ (same ▸ found)
      rw [noteFor, if_neg other, if_neg (by simp)]

theorem loadDependenciesLoop_spec (walked : WalkedFrom tree root) {fuel : Nat}
    {props : List (Nat × AddressProp)} {iter : TreeIterator}
    (size : iter.stackSize = tree.irsb.stmts.length * 2)
    (loops : iter.loopGetPut = true) (single : iter.loopLoadStore = false)
    (walking : Walking tree root iter.stack) (enough : iter.weight < fuel) :
    Satisfies (fun _ => ¬ tree.NodedFrom root)
      (loadDependenciesLoop root fuel { tree with stmtAddressProps := props }
        iter (loadEntries iter.stack))
      (Noted tree root props iter.stack) := by
  induction fuel generalizing props iter with
  | zero => omega
  | succ fuel induction =>
      rw [loadDependenciesLoop, treeIteratorNext_props]
      have next := walking.next walked size loops single
      cases moved : treeIteratorNext tree iter with
      | error halt =>
          rw [moved] at next
          exact next
      | ok result =>
          obtain ⟨iter', found⟩ := result
          rw [moved] at next
          rw [ok_bind]
          rcases next with ⟨_, rfl⟩ | ⟨val, rfl, goesOn⟩
          · have all := finished_of_pop moved
            refine ⟨⟨props, rfl⟩, fun load => ?_, id, ?_⟩
            · have nothing := @stackOwes_finished tree load [] _ all
              rw [List.append_nil] at nothing
              rw [nothing]
              simp [StackOwes]
            · rintro ⟨val, member, stuck⟩
              exact (all val member).not_stuck stuck
          · have stepped := walking.step walked loops moved goesOn
            obtain ⟨rest, split, depth, popped, owes⟩ := stepped.stack
            have lower := (treeIteratorNext_weight_lt moved goesOn).2
            -- what is known when the loop has gone on
            have later : ∀ {props' loads'},
                loads' = loadEntries iter'.stack →
                ((neededOf props root).Pairwise (· < ·) →
                  (neededOf props' root).Pairwise (· < ·)) →
                (∀ load, load ∈ neededOf props' root ↔
                  load ∈ neededOf props root ∨
                    (val.isLoad = true ∧ LoadFree rest ∧
                      load = val.stmtIdx)) →
                Satisfies (fun _ => ¬ tree.NodedFrom root)
                  (loadDependenciesLoop root fuel
                    { tree with stmtAddressProps := props' } iter' loads')
                  (Noted tree root props iter.stack) := by
              rintro props' loads' rfl ascending noted
              apply (@induction props' iter' (stepped.size.trans size)
                (stepped.loops.trans loops) (stepped.single.trans single)
                stepped.walking (by omega)).mono
              intro tree' after
              refine ⟨after.graph, fun load => ?_,
                fun sorted => after.ascending (ascending sorted),
                fun stuck => after.noded
                  (walking.stuck_step walked loops moved goesOn stuck)⟩
              rw [after.needed, noted, owes, or_assoc]
            have nothing : val.isLoad = false → ∀ load,
                load ∈ neededOf props root ↔ load ∈ neededOf props root ∨
                  (val.isLoad = true ∧ LoadFree rest ∧
                    load = val.stmtIdx) := by
              intro other load
              simp [other]
            have skipped : val.isLoad = false →
                loadEntries rest = loadEntries iter'.stack := by
              intro other
              rw [split, loadEntries, other]
              rfl
            simp only [popped]
            rcases goesOn with typ | typ
            · have other : val.isLoad = false := by
                by_contra isLoad
                have typ' := stepped.exprLoad (Bool.eq_true_of_not_eq_false isLoad)
                rw [typ] at typ'
                cases typ'
              simp only [typ]
              split
              · next found =>
                  cases stepped.noStore _ typ found
              · exact later (skipped other) id (nothing other)
            · simp only [typ]
              split
              · next endness ty addr expr =>
                  have isLoad : val.isLoad = true := by
                    rw [TreeIteratValue.isLoad, expr]
                    rfl
                  have noted := @neededOf_addLoadDepend _ _ walked props rest
                    (fun val member => stepped.walking.isLoad
                      (split ▸ List.mem_cons_of_mem _ member)) val.stmtIdx
                  refine @later (addressPropAddLoadDepend
                    { tree with stmtAddressProps := props }
                    (noteFor root (loadEntries rest))
                    val.stmtIdx).stmtAddressProps _ ?_ ?_ fun load => ?_
                  · rw [split, loadEntries, isLoad, depth]
                    rfl
                  · rw [noted]
                    intro sorted
                    split_ifs
                    · exact insertWord_ascending sorted
                    · exact sorted
                  · rw [noted, ← loadEntries_eq_nil]
                    split_ifs with free
                    · simp [mem_insertWord, isLoad, free, or_comm]
                    · simp [free]
              · next other =>
                  have other : val.isLoad = false := by
                    unfold TreeIteratValue.isLoad
                    split
                    · next e expr =>
                        cases e with
                        | load endness ty addr =>
                            exact absurd expr (other endness ty addr)
                        | _ => rfl
                    · rfl
                  exact later (skipped other) id (nothing other)

end Run

section Needed

variable {tree : IrsbTree} {i fuel : Nat} {guard : IRAtom}

/-- `tree_buildLoadDependencies` notes for an exit just the loads it needs. -/
theorem treeBuildLoadDependencies_spec (shaped : tree.Shaped)
    (isExit : tree.irsb.stmts[i]? = some (.exit guard))
    (acyclic : tree.AcyclicFrom i) (known : tree.KnownFrom i)
    (fresh : tree.stmtAddressProps.lookup i = none)
    (enough : walkBound tree.irsb.stmts.length < fuel) :
    Satisfies (fun _ => ¬ tree.NodedFrom i)
      (treeBuildLoadDependencies fuel tree i) fun tree' =>
        (∃ props, tree' = { tree with stmtAddressProps := props }) ∧
          (∀ load, load ∈ (tree'.addressProp i).neededLoads ↔
            tree.Needs i load) ∧
          (tree'.addressProp i).neededLoads.Pairwise (· < ·) ∧
          tree.NodedFrom i := by
  have walked : WalkedFrom tree i :=
    ⟨shaped, by simp [isExit], acyclic, known⟩
  have start : treeIteratorNew tree i = .ok
      ⟨[⟨.stmt, i, 0, none, [some (.atom guard)], false⟩],
        tree.irsb.stmts.length * 2, true, false⟩ := by
    simp only [treeIteratorNew, treeIteratorStmt, isExit]
    rfl
  have notDone : (tree.addressProp i).buildLoadDependenciesDone = false := by
    rw [IrsbTree.addressProp, fresh]
    rfl
  have light := treeIteratorNew_ends tree i
  rw [start] at light
  have light := Nat.lt_of_le_of_lt light enough
  rw [treeBuildLoadDependencies, start, ok_bind]
  simp only [notDone, Bool.false_eq_true, if_false]
  let props := addToFM i
    { tree.addressProp i with buildLoadDependenciesDone := true }
    tree.stmtAddressProps
  have spec := @loadDependenciesLoop_spec tree i walked fuel props _ rfl rfl
    rfl (.onPath (.root (stmtValue_single isExit rfl rfl))) light
  apply spec.mono
  intro tree' noted
  have none : neededOf props i = [] := by
    rw [neededOf_addToFM, if_pos rfl, IrsbTree.addressProp, fresh]
    rfl
  refine ⟨noted.graph, fun load => ?_, ?_, ?_⟩
  · have needed := noted.needed load
    rw [none] at needed
    refine needed.trans ?_
    simp [StackOwes, LoadFree, TreeIteratValue.isLoad, TreeIteratValue.Owes]
  · apply noted.ascending
    rw [none]
    exact .nil
  · rw [nodedFrom_iff]
    intro stuck
    exact noted.noded ⟨_, List.mem_singleton_self _, stuck⟩

end Needed

section Addresses

private theorem collectAddresses_eq (stmts : List IRStmt) {maxSize : Nat}
    {loads addresses : List Nat} (room : addresses.length < maxSize) :
    collectAddresses stmts maxSize loads addresses =
      (addresses ++ loads.filterMap (instructionAddress stmts)).take
        (maxSize - 1) := by
  induction loads generalizing addresses with
  | nil =>
      rw [collectAddresses, List.filterMap_nil, List.append_nil,
        List.take_of_length_le (by omega)]
  | cons load rest induction =>
      rw [collectAddresses]
      cases found : instructionAddress stmts load with
      | none =>
          rw [List.filterMap_cons_none found]
          simp only [Option.toList_none, List.append_nil]
          rw [if_neg (by omega), induction room]
      | some addr =>
          rw [List.filterMap_cons_some found]
          simp only [Option.toList_some, List.length_append,
            List.length_singleton]
          split
          · next full =>
              have last : maxSize - 1 = addresses.length := by omega
              rw [List.dropLast_concat, last, List.take_left]
          · rw [induction (by simp; omega), List.append_assoc,
              List.singleton_append]

/-- The array always has its zero in time. -/
theorem recordLoop_eq {maxAddr j : Nat} {addresses dependencies : List Nat}
    (room : j + addresses.length < maxAddr) :
    ∃ last < maxAddr,
      recordLoop maxAddr j (addresses ++ [0]) dependencies =
        (last, dependencies ++ addresses.takeWhile (· ≠ 0)) := by
  induction addresses generalizing j dependencies with
  | nil =>
      refine ⟨j, by simpa using room, ?_⟩
      simp [recordLoop]
  | cons address rest induction =>
      simp only [List.length_cons] at room
      rw [List.cons_append, recordLoop]
      by_cases zero : address = 0
      · refine ⟨j, by omega, ?_⟩
        simp [zero]
      · rw [if_pos ⟨by omega, zero⟩]
        obtain ⟨last, less, same⟩ :=
          @induction (j + 1) (dependencies ++ [address]) (by omega)
        refine ⟨last, less, ?_⟩
        rw [same, List.append_assoc, List.singleton_append,
          List.takeWhile_cons_of_pos (by simpa using zero)]

/-- The addresses that an exit with these loads gets. -/
def recorded (stmts : List IRStmt) (loads : List Nat) : List Nat :=
  ((loads.filterMap (instructionAddress stmts)).take
    (maxAddr - 1)).takeWhile (· ≠ 0)

end Addresses

section Dependencies

variable {tree : IrsbTree} {i fuel : Nat} {guard : IRAtom}

/-- The walk from the exit notes just the loads that the exit needs. -/
def NotesNeeded (fuel : Nat) (tree : IrsbTree) (i : Nat) : Prop :=
  Returns (treeBuildLoadDependencies fuel tree i) fun tree' =>
    ∀ load, load ∈ (tree'.addressProp i).neededLoads ↔ tree.Needs i load

/-- The addresses of all needed loads are added to the dependencies, unless an
assertion stops the tool. -/
def RecordsNeeded (fuel : Nat) (tree : IrsbTree) (i : Nat)
    (dependencies : List Nat) : Prop :=
  Satisfies (· = .tlAssert) (markSpinReads fuel tree i dependencies)
    fun result => ∃ added, result.2.1 = dependencies ++ added ∧
      ∀ load addr, tree.Needs i load →
        instructionAddress tree.irsb.stmts load = some addr → addr ∈ added

/-- The address of every needed load is that of one of the first nineteen, up
to an address zero. -/
def IrsbTree.Covered (tree : IrsbTree) (i : Nat) : Prop :=
  ∀ loads : List Nat, loads.Pairwise (· < ·) →
    (∀ load, load ∈ loads ↔ tree.Needs i load) →
    ∀ load ∈ loads, ∀ addr,
      instructionAddress tree.irsb.stmts load = some addr →
      addr ∈ recorded tree.irsb.stmts loads

private theorem ascending_unique {words words' : List Nat}
    (ascending : words.Pairwise (· < ·)) (ascending' : words'.Pairwise (· < ·))
    (same : ∀ word, word ∈ words ↔ word ∈ words') : words = words' := by
  have perm : words.Perm words' :=
    (List.perm_ext_iff_of_nodup (ascending.imp Nat.ne_of_lt)
      (ascending'.imp Nat.ne_of_lt)).mpr same
  exact perm.eq_of_pairwise (fun a b _ _ less less' => by omega) ascending
    ascending'

/-- What is recorded when the needed loads are noted. -/
theorem markSpinReads_eq {tree' : IrsbTree} {dependencies : List Nat}
    (built : treeBuildLoadDependencies fuel tree i = .ok tree') :
    ∃ spin, markSpinReads fuel tree i dependencies = .ok
      (tree', dependencies ++ recorded tree'.irsb.stmts
        (tree'.addressProp i).neededLoads, spin) := by
  have collected := @collectAddresses_eq tree'.irsb.stmts maxAddr
    (tree'.addressProp i).neededLoads [] (by decide)
  rw [List.nil_append] at collected
  rw [markSpinReads, getDependendLoadAddresses, built]
  simp only [ok_bind, collected]
  generalize addresses : (((tree'.addressProp i).neededLoads.filterMap
    (instructionAddress tree'.irsb.stmts)).take (maxAddr - 1)) = first
  have few : first.length ≤ maxAddr - 1 := by
    rw [← addresses]
    exact List.length_take_le _ _
  have record : recorded tree'.irsb.stmts
      (tree'.addressProp i).neededLoads = first.takeWhile (· ≠ 0) := by
    rw [recorded, addresses]
  obtain ⟨last, less, same⟩ := @recordLoop_eq maxAddr 0 first dependencies
    (by simp only [maxAddr] at few ⊢; omega)
  rw [record]
  by_cases zero : (first ++ [0]).head? = some 0
  · refine ⟨false, ?_⟩
    have empty : first.takeWhile (· ≠ 0) = [] := by
      cases first with
      | nil => rfl
      | cons address rest =>
          cases zero
          rfl
    rw [empty, List.append_nil]
    exact if_pos zero
  · refine ⟨true, ?_⟩
    refine (if_neg zero).trans ?_
    rw [same]
    simp only [tlAssert_of less, ok_bind]
    rfl

/-- The dependencies of an exit are complete just if every temporary that it
depends on has a node and the first nineteen loads cover the others. -/
theorem spin_dependencies_iff (fuel : Nat) (tree : IrsbTree) (i : Nat)
    (guard : IRAtom) (dependencies : List Nat) (shaped : tree.Shaped)
    (isExit : tree.irsb.stmts[i]? = some (.exit guard))
    (acyclic : tree.AcyclicFrom i) (known : tree.KnownFrom i)
    (fresh : tree.stmtAddressProps.lookup i = none)
    (enough : walkBound tree.irsb.stmts.length < fuel) :
    NotesNeeded fuel tree i ∧ RecordsNeeded fuel tree i dependencies ↔
      tree.NodedFrom i ∧ tree.Covered i := by
  have spec := treeBuildLoadDependencies_spec shaped isExit acyclic known fresh
    enough
  have records : ∀ tree', treeBuildLoadDependencies fuel tree i = .ok tree' →
      (RecordsNeeded fuel tree i dependencies ↔ tree.Covered i) := by
    intro tree' built
    obtain ⟨⟨props, rfl⟩, needed, ascending, _⟩ := spec.of_eq_ok built
    obtain ⟨spin, marked⟩ :=
      @markSpinReads_eq tree i fuel _ dependencies built
    rw [RecordsNeeded, marked]
    constructor
    · rintro ⟨added, same, all⟩ loads ascending' needed' load member addr found
      have same := List.append_cancel_left same
      have unique := ascending_unique ascending ascending' fun load =>
        (needed load).trans (needed' load).symm
      rw [unique] at same
      rw [same]
      exact all load addr ((needed' load).mp member) found
    · intro covered
      refine ⟨_, rfl, fun load addr needs found => ?_⟩
      exact covered _ ascending needed load ((needed load).mpr needs) addr found
  constructor
  · rintro ⟨⟨tree', built, _⟩, recordsAll⟩
    exact ⟨(spec.of_eq_ok built).2.2.2, (records tree' built).mp recordsAll⟩
  · rintro ⟨noded, covered⟩
    have never := @Satisfies.failing _ _ _ (fun _ => False) _ _ spec
      fun _ stuck => stuck noded
    obtain ⟨tree', built, holds⟩ := never.returns
    exact ⟨⟨tree', built, holds.2.1⟩, (records tree' built).mpr covered⟩

end Dependencies

section Descending

variable (tree : IrsbTree)

/-- Every expression has a node, earlier in the block, and none is a call or
an indexed read. -/
def IrsbTree.descending : Bool :=
  (List.range tree.irsb.stmts.length).all fun idx =>
    ((tree.irsb.stmts[idx]?).map IRStmt.walked).all fun exprs =>
      exprs.all fun e => !e.unknown &&
        match leadsTo tree true e with
        | .ok (some source) => decide (source < idx)
        | .ok none => true
        | .error _ => false

variable {tree} {i : Nat}

theorem descending_at (descending : tree.descending) {idx : Nat} {st : IRStmt}
    (found : tree.irsb.stmts[idx]? = some st) {e : IRExpr}
    (member : e ∈ st.walked) :
    e.unknown = false ∧ ∃ target, leadsTo tree true e = .ok target ∧
      ∀ source, target = some source → source < idx := by
  have inside := (List.getElem?_eq_some_iff.mp found).1
  have here := List.all_eq_true.mp descending idx (List.mem_range.mpr inside)
  rw [found] at here
  have here := List.all_eq_true.mp here e member
  rw [Bool.and_eq_true] at here
  obtain ⟨known, leads⟩ := here
  refine ⟨by simpa using known, ?_⟩
  cases led : leadsTo tree true e with
  | error halt =>
      rw [led] at leads
      cases leads
  | ok target =>
      refine ⟨target, rfl, ?_⟩
      rintro source rfl
      rw [led] at leads
      simpa using leads

private theorem acyclic_of_descending (descending : tree.descending) :
    tree.AcyclicFrom i := by
  intro idx _ cycle
  have less : ∀ {a b}, TransGen tree.Reads a b → b < a := by
    intro a b path
    have step : ∀ {a b}, tree.Reads a b → b < a := by
      rintro a b ⟨st, e, found, member, led⟩
      obtain ⟨_, target, led', below⟩ := descending_at descending found member
      rw [led] at led'
      cases led'
      exact below b rfl
    induction path with
    | single edge => exact step edge
    | tail _ edge induction => exact (step edge).trans induction
  exact lt_irrefl idx (less cycle)

private theorem known_of_descending (descending : tree.descending) :
    tree.KnownFrom i :=
  fun _ _ _ found _ member => (descending_at descending found member).1

private theorem noded_of_descending (descending : tree.descending) :
    tree.NodedFrom i := by
  intro idx st _ found e member
  obtain ⟨_, target, led, _⟩ := descending_at descending found member
  exact ⟨target, led⟩

end Descending

/-- A flag in memory is tested. -/
def flagBlock : IRSB where
  tyenv := [.I32, .I1]
  stmts := [.iMark 0x8048000 6,
    .wrTmp 0 (.load .LE .I32 (.const (.U32 0x804A000))),
    .wrTmp 1 (.unop (.other 0) (.rdTmp 0)), .exit (.rdTmp 1)]

def flagTree : IrsbTree where
  irsb := flagBlock
  tstruct := [some 1, some 2]
  regLoopDefs := []
  stmtAddressProps := []
  wasSimplified := false

theorem flagTree_needs (load : Nat) : flagTree.Needs 3 load ↔ load = 1 := by
  have first : leadsTo flagTree true (.atom (.rdTmp 1)) = .ok (some 2) := rfl
  have second : leadsTo flagTree true (.atom (.rdTmp 0)) = .ok (some 1) := rfl
  have third : leadsTo flagTree true (.unop (.other 0) (.rdTmp 0)) =
    .ok none := rfl
  have exit : flagTree.irsb.stmts[3]? = some (.exit (.rdTmp 1)) := rfl
  have test : flagTree.irsb.stmts[2]? =
    some (.wrTmp 1 (.unop (.other 0) (.rdTmp 0))) := rfl
  have read : flagTree.irsb.stmts[1]? =
    some (.wrTmp 0 (.load .LE .I32 (.const (.U32 0x804A000)))) := rfl
  rw [needs_iff exit rfl, exprNeeds_atom, first]
  simp only [Except.ok.injEq, Option.some.injEq, exists_eq_left']
  rw [needs_iff test rfl]
  simp [IrsbTree.ExprNeeds, IRExpr.isLoad, IRExpr.children, second, third,
    needs_iff read rfl]

theorem spin_dependencies_flag :
    treeInit flagBlock = .ok flagTree ∧
      NotesNeeded (walkBound 4 + 1) flagTree 3 ∧
      RecordsNeeded (walkBound 4 + 1) flagTree 3 [] := by
  have built : treeInit flagBlock = .ok flagTree := by decide +kernel
  have descending : flagTree.descending := by decide +kernel
  refine ⟨built, (spin_dependencies_iff (walkBound 4 + 1) flagTree 3 (.rdTmp 1)
    [] (treeInit_shaped built) rfl (acyclic_of_descending descending)
    (known_of_descending descending) rfl (Nat.lt_succ_self _)).mpr
      ⟨noded_of_descending descending, ?_⟩⟩
  intro loads ascending all load member addr found
  have only : loads = [1] := by
    apply ascending_unique ascending (by simp)
    intro load
    rw [all, flagTree_needs, List.mem_singleton]
  subst only
  cases List.mem_singleton.mp member
  cases found
  decide

/-- Twenty loads, each in its own instruction, and a test of them all. -/
def twentyLoads : IRSB where
  tyenv := List.replicate 26 .I32 ++ [.I1]
  stmts :=
    ((List.range 20).flatMap fun k =>
      [.iMark (0x8048000 + 6 * k) 6,
        .wrTmp k (.load .LE .I32 (.const (.U32 (UInt32.ofNat
          (0x804A000 + 4 * k)))))]) ++
    ((List.range 5).map fun k =>
      .wrTmp (20 + k) (.qop (.other 0) (.rdTmp (4 * k)) (.rdTmp (4 * k + 1))
        (.rdTmp (4 * k + 2)) (.rdTmp (4 * k + 3)))) ++
    [.wrTmp 25 (.qop (.other 0) (.rdTmp 20) (.rdTmp 21) (.rdTmp 22)
        (.rdTmp 23)),
      .wrTmp 26 (.binop (.other 1) (.rdTmp 24) (.rdTmp 25)),
      .exit (.rdTmp 26)]

def twentyTree : IrsbTree where
  irsb := twentyLoads
  tstruct := (List.range 20).map (fun k => some (2 * k + 1)) ++
    (List.range 7).map fun k => some (40 + k)
  regLoopDefs := []
  stmtAddressProps := []
  wasSimplified := false

/-- The last of the loads is lost, and no assertion fails. -/
theorem spin_dependencies_lose :
    treeInit twentyLoads = .ok twentyTree ∧ twentyTree.AcyclicFrom 47 ∧
      twentyTree.KnownFrom 47 ∧
      twentyLoads.stmts[47]? = some (.exit (.rdTmp 26)) ∧
      ¬ RecordsNeeded 1000 twentyTree 47 [] := by
  have descending : twentyTree.descending := by decide +kernel
  have marked : ((markSpinReads 1000 twentyTree 47 []).toOption.map
      fun result => result.2.1) =
        some ((List.range 19).map (0x8048000 + 6 * ·)) := by
    decide +kernel
  have needs : twentyTree.Needs 47 39 := by
    have other : ∀ idx, 40 ≤ idx → idx ≤ 47 → ¬ twentyTree.isLoad idx := by
      rintro idx low high ⟨tmp, endness, ty, addr, found⟩
      interval_cases idx <;> cases found
    refine @IrsbTree.Needs.read _ 47 46 39 (other 47 (by decide) (by decide))
      ⟨_, .atom (.rdTmp 26), rfl, by decide, rfl⟩ ?_
    refine @IrsbTree.Needs.read _ 46 44 39 (other 46 (by decide) (by decide))
      ⟨_, .atom (.rdTmp 24), rfl, by decide, rfl⟩ ?_
    refine @IrsbTree.Needs.read _ 44 39 39 (other 44 (by decide) (by decide))
      ⟨_, .atom (.rdTmp 19), rfl, by decide, rfl⟩ ?_
    exact .load ⟨19, .LE, .I32, .const (.U32 0x804A04C), rfl⟩
  refine ⟨by decide +kernel, acyclic_of_descending descending,
    known_of_descending descending, rfl, fun records => ?_⟩
  obtain ⟨result, done, same⟩ := exists_ok_of_map marked
  rw [RecordsNeeded, done] at records
  obtain ⟨added, all, covers⟩ := records
  have member := covers 39 0x8048072 needs (by decide +kernel)
  rw [same, List.nil_append] at all
  rw [← all] at member
  revert member
  decide +kernel

end Dependency

end HelgrindPlus
