import HelgrindPlus.Dependency.LoadDependencies
import HelgrindPlus.Dependency.TreeShape
import HelgrindPlus.Lib.Graph
import Mathlib.Data.Finset.Card

/-!
# The walk over an acyclic graph

Where the statements do not depend on themselves, the stack of the walk is a
path of different statements, and never gets full.
-/

namespace HelgrindPlus

namespace Dependency

open Outcome Relation

/-- The expressions of a statement that the walk comes to, with their operands.
Of a store it is only the address. -/
def IRStmt.walked : IRStmt → List IRExpr
  | put _ data => [.atom data]
  | wrTmp _ data => data :: data.children.map .atom
  | store _ addr _ => [.atom addr]
  | exit guard => [.atom guard]
  | _ => []

def IRStmt.isStore : IRStmt → Bool
  | store _ _ _ => true
  | _ => false

namespace IrsbTree

variable (tree : IrsbTree)

/-- A statement has a value from another one, through a temporary or through a
register. -/
def Reads (idx source : Nat) : Prop :=
  ∃ st e, tree.irsb.stmts[idx]? = some st ∧ e ∈ st.walked ∧
    leadsTo tree true e = .ok (some source)

/-- No statement that is reached depends on itself. -/
def AcyclicFrom (root : Nat) : Prop :=
  ∀ idx, ReflTransGen tree.Reads root idx → ¬ TransGen tree.Reads idx idx

/-- No statement that is reached has a call or an indexed read. -/
def KnownFrom (root : Nat) : Prop :=
  ∀ idx st, ReflTransGen tree.Reads root idx →
    tree.irsb.stmts[idx]? = some st → ∀ e ∈ st.walked, e.unknown = false

/-- Where the walk gets, every temporary has a node and every register a
key. -/
def NodedFrom (root : Nat) : Prop :=
  ∀ idx st, ReflTransGen tree.Reads root idx →
    tree.irsb.stmts[idx]? = some st → ∀ e ∈ st.walked,
      ∃ target, leadsTo tree true e = .ok target

def isLoad (idx : Nat) : Prop :=
  ∃ tmp endness ty addr,
    tree.irsb.stmts[idx]? = some (.wrTmp tmp (.load endness ty addr))

/-- The load is reached from the statement, and not through another load. -/
inductive Needs : Nat → Nat → Prop where
  | load {idx : Nat} (isLoad : tree.isLoad idx) : Needs idx idx
  | read {idx source load : Nat} (other : ¬ tree.isLoad idx)
      (reads : tree.Reads idx source) (needs : Needs source load) :
      Needs idx load

end IrsbTree

/-- The value is that of a statement with one expression, which is left until
the walk goes into it.  A store has two. -/
structure StmtValue (tree : IrsbTree) (idx : Nat) (val : TreeIteratValue) :
    Prop where
  typ : val.typ = .stmt
  stmtIdx : val.stmtIdx = idx
  expr : val.expr = none
  child : ∃ st e, tree.irsb.stmts[idx]? = some st ∧
    st.walked = e :: e.children.map .atom ∧ st.isStore = false ∧
    (val.subExpr = [some e] ∨ val.stmtDone = true ∧ val.subExpr = [none])

/-- The value is that of an expression that was assigned, and what is left of
its children are operands of it. -/
structure ExprValue (tree : IrsbTree) (idx : Nat) (val : TreeIteratValue) :
    Prop where
  typ : val.typ = .expr
  stmtIdx : val.stmtIdx = idx
  assigned : ∃ tmp data, tree.irsb.stmts[idx]? = some (.wrTmp tmp data) ∧
    val.expr = some data ∧
    ∀ e, some e ∈ val.subExpr → e ∈ data.children.map IRExpr.atom

theorem StmtValue.inside {tree : IrsbTree} {idx : Nat} {val : TreeIteratValue}
    (value : StmtValue tree idx val) : idx < tree.irsb.stmts.length := by
  obtain ⟨st, _, found, _⟩ := value.child
  exact (List.getElem?_eq_some_iff.mp found).1

theorem StmtValue.child_walked {tree : IrsbTree} {idx : Nat}
    {val : TreeIteratValue} (value : StmtValue tree idx val) {e : IRExpr}
    (left : some e ∈ val.subExpr) :
    ∃ st, tree.irsb.stmts[idx]? = some st ∧
      st.walked = e :: e.children.map .atom ∧ val.subExpr = [some e] := by
  obtain ⟨st, e', found, walked, _, whole | ⟨_, spent⟩⟩ := value.child
  · rw [whole, List.mem_singleton] at left
    cases left
    exact ⟨st, found, walked, whole⟩
  · simp [spent] at left

/-- The value has no children and is no load. -/
structure LeafValue (val : TreeIteratValue) : Prop where
  typ : val.typ = .expr
  childless : val.subExpr = []
  noLoad : ∀ e, val.expr = some e → e.isLoad = false

/-- The stack is a path of statements from the root, each with the expression
that it assigns. -/
inductive Grounded (tree : IrsbTree) (root : Nat) :
    List TreeIteratValue → List Nat → Prop where
  | root {val : TreeIteratValue} (value : StmtValue tree root val) :
      Grounded tree root [val] [root]
  | stmt {val : TreeIteratValue} {stack : List TreeIteratValue}
      {idx source : Nat} {path : List Nat}
      (below : Grounded tree root stack (idx :: path))
      (reads : tree.Reads idx source) (value : StmtValue tree source val) :
      Grounded tree root (val :: stack) (source :: idx :: path)
  | data {val under : TreeIteratValue} {stack : List TreeIteratValue}
      {idx : Nat} {path : List Nat}
      (below : Grounded tree root (under :: stack) (idx :: path))
      (done : under.typ = .stmt ∧ under.stmtDone = true)
      (spent : ∀ child ∈ under.subExpr, child = none)
      (value : ExprValue tree idx val) :
      Grounded tree root (val :: under :: stack) (idx :: path)

section Grounded

variable {tree : IrsbTree} {root : Nat} {stack : List TreeIteratValue}
  {path : List Nat}

theorem Grounded.path_cons (grounded : Grounded tree root stack path) :
    ∃ idx rest, path = idx :: rest := by
  cases grounded <;> exact ⟨_, _, rfl⟩

/-- The statements of the path read each other. -/
theorem Grounded.reads {idx : Nat}
    (grounded : Grounded tree root stack (idx :: path)) :
    ReflTransGen tree.Reads root idx ∧
      ∀ earlier ∈ path, TransGen tree.Reads earlier idx := by
  generalize whole : idx :: path = statements at grounded
  induction grounded generalizing idx path with
  | root value =>
      cases whole
      exact ⟨.refl, by simp⟩
  | stmt below reads value induction =>
      cases whole
      obtain ⟨reached, later⟩ := induction rfl
      refine ⟨reached.tail reads, fun earlier member => ?_⟩
      rcases List.mem_cons.mp member with rfl | member
      · exact .single reads
      · exact (later earlier member).tail reads
  | data below done spent value induction => exact induction whole

theorem Grounded.nodup (grounded : Grounded tree root stack path)
    (acyclic : tree.AcyclicFrom root) : path.Nodup := by
  induction grounded with
  | root value => simp
  | stmt below reads value induction =>
      refine List.nodup_cons.mpr ⟨fun member => ?_, induction⟩
      have whole := Grounded.stmt below reads value
      exact acyclic _ whole.reads.1 (whole.reads.2 _ member)
  | data below done spent value induction => exact induction

theorem Grounded.inside (grounded : Grounded tree root stack path) :
    ∀ idx ∈ path, idx < tree.irsb.stmts.length := by
  induction grounded with
  | root value => simpa using value.inside
  | stmt below reads value induction =>
      exact List.forall_mem_cons.mpr ⟨value.inside, induction⟩
  | data below done spent value induction => exact induction

/-- The path is not longer than the block. -/
theorem Grounded.length_path (grounded : Grounded tree root stack path)
    (acyclic : tree.AcyclicFrom root) :
    path.length ≤ tree.irsb.stmts.length := by
  have inside : path.toFinset ⊆ Finset.range tree.irsb.stmts.length := by
    intro idx member
    exact Finset.mem_range.mpr
      (grounded.inside idx (List.mem_toFinset.mp member))
  have few := Finset.card_le_card inside
  rwa [Finset.card_range,
    List.toFinset_card_of_nodup (grounded.nodup acyclic)] at few

/-- Each statement takes two places at most, and the root one. -/
theorem Grounded.length_stack (grounded : Grounded tree root stack path)
    (bare : ∀ tmp data, tree.irsb.stmts[root]? ≠ some (.wrTmp tmp data)) :
    stack.length + 1 ≤ 2 * path.length ∧
      ∀ top rest, stack = top :: rest → top.typ = .stmt →
        stack.length + 1 = 2 ∨ stack.length + 2 ≤ 2 * path.length := by
  induction grounded with
  | root value => simp
  | stmt below reads value induction =>
      simp only [List.length_cons] at induction ⊢
      have := induction.1
      exact ⟨by omega, fun _ _ _ _ => .inr (by omega)⟩
  | @data val under stack idx path below done spent value induction =>
      have short := induction.2 under stack rfl done.1
      refine ⟨?_, fun top rest same typ => ?_⟩
      · rcases short with first | short
        · -- the root assigns nothing
          obtain ⟨tmp, data, assigned, _⟩ := value.assigned
          cases below with
          | root _ => exact absurd assigned (bare tmp data)
          | stmt below _ _ =>
              exfalso
              cases below <;> simp at first
          | data below _ _ _ =>
              exfalso
              cases below <;> simp at first
        · simp only [List.length_cons] at short ⊢
          omega
      · cases same
        rw [value.typ] at typ
        cases typ

end Grounded

/-- Where the walk is: on the path, or at an operand on top of it. -/
inductive Walking (tree : IrsbTree) (root : Nat) :
    List TreeIteratValue → Prop where
  | onPath {stack : List TreeIteratValue} {path : List Nat}
      (grounded : Grounded tree root stack path) : Walking tree root stack
  | atLeaf {val : TreeIteratValue} {stack : List TreeIteratValue}
      {path : List Nat} (leaf : LeafValue val)
      (grounded : Grounded tree root stack path) :
      Walking tree root (val :: stack)

/-- What holds of the tree and of the statement that the walk starts at. -/
structure WalkedFrom (tree : IrsbTree) (root : Nat) : Prop where
  shaped : tree.Shaped
  bare : ∀ tmp data, tree.irsb.stmts[root]? ≠ some (.wrTmp tmp data)
  acyclic : tree.AcyclicFrom root
  known : tree.KnownFrom root

section Steps

variable {tree : IrsbTree} {root : Nat} {iter : TreeIterator}
  {val top : TreeIteratValue} {stack rest : List TreeIteratValue}
  {path : List Nat} {e : IRExpr}

theorem treeNodeTmp_eq_ok {tmp idx : Nat}
    (node : treeNodeTmp tree tmp = .ok idx) :
    tree.tstruct[tmp]? = some (some idx) := by
  unfold treeNodeTmp at node
  split at node
  · next found =>
      split at node
      · cases node
        exact found
      · cases node
  · cases node

/-- What an expression leads to is the statement of a value. -/
theorem IrsbTree.Shaped.leads_to (shaped : tree.Shaped) {loopGetPut : Bool}
    {source : Nat} (led : leadsTo tree loopGetPut e = .ok (some source)) :
    ∃ st, tree.irsb.stmts[source]? = some st ∧
      ((∃ tmp data, st = .wrTmp tmp data) ∨ ∃ offset data, st = .put offset data)
      := by
  cases e with
  | atom operand =>
      cases operand with
      | const con => cases led
      | rdTmp tmp =>
          obtain ⟨idx, node, led⟩ := bind_eq_ok.mp led
          cases led
          obtain ⟨data, found⟩ := shaped.node tmp _ (treeNodeTmp_eq_ok node)
          exact ⟨_, found, .inl ⟨tmp, data, rfl⟩⟩
  | get offset ty =>
      simp only [leadsTo] at led
      split at led
      · obtain ⟨key, keyed, led⟩ := bind_eq_ok.mp led
        obtain ⟨offset', ty', data, _, found⟩ :=
          shaped.register _ (mem_of_lookup (Except.ok.inj led))
        exact ⟨_, found, .inr ⟨offset', data, rfl⟩⟩
      · cases led
  | _ => cases led

theorem stmtValue_single {idx : Nat} {st : IRStmt}
    (found : tree.irsb.stmts[idx]? = some st)
    (walked : st.walked = e :: e.children.map .atom)
    (noStore : st.isStore = false) :
    StmtValue tree idx ⟨.stmt, idx, 0, none, [some e], false⟩ :=
  ⟨rfl, rfl, rfl, st, e, found, walked, noStore, .inl rfl⟩

/-- Such a statement is put on the stack. -/
theorem IrsbTree.Shaped.enters (shaped : tree.Shaped) {loopGetPut : Bool}
    {source : Nat} (led : leadsTo tree loopGetPut e = .ok (some source)) :
    ∃ entered, treeIteratorStmt tree source = .ok entered ∧
      StmtValue tree source entered ∧ entered.stmtDone = false := by
  obtain ⟨st, found, ⟨tmp, data, rfl⟩ | ⟨offset, data, rfl⟩⟩ :=
    shaped.leads_to led
  all_goals
    have value := stmtValue_single found rfl rfl
    refine ⟨_, ?_, value, rfl⟩
    rw [treeIteratorStmt, found]
    rfl

/-- The children that are left at the top of the path are expressions of the
statement there. -/
theorem Grounded.child_walked {idx : Nat}
    (grounded : Grounded tree root (top :: rest) (idx :: path))
    (child : some e ∈ top.subExpr) :
    ∃ st, tree.irsb.stmts[idx]? = some st ∧ e ∈ st.walked := by
  have ofExpr : ExprValue tree idx top →
      ∃ st, tree.irsb.stmts[idx]? = some st ∧ e ∈ st.walked := by
    intro value
    obtain ⟨tmp, data, assigned, _, operands⟩ := value.assigned
    exact ⟨_, assigned, List.mem_cons_of_mem _ (operands e child)⟩
  have ofStmt : StmtValue tree idx top →
      ∃ st, tree.irsb.stmts[idx]? = some st ∧ e ∈ st.walked := by
    intro value
    obtain ⟨st, found, walked, _⟩ := value.child_walked child
    exact ⟨st, found, walked ▸ List.mem_cons_self⟩
  cases grounded with
  | root value => exact ofStmt value
  | stmt below reads value => exact ofStmt value
  | data below done spent value => exact ofExpr value

/-- The walk is over, or comes to a value that it goes on with. -/
def GoesOn (result : TreeIterator × Option TreeIteratValue) : Prop :=
  (result.1.stack = [] ∧ result.2 = none) ∨
    ∃ val, result.2 = some val ∧ (val.typ = .stmt ∨ val.typ = .expr)

/-- Going down from the path adds a statement or not, and comes to a value. -/
theorem Grounded.descends (walked : WalkedFrom tree root)
    {iter : TreeIterator} {subExpr : List (Option IRExpr)}
    (size : iter.stackSize = tree.irsb.stmts.length * 2)
    (loops : iter.loopGetPut = true) (single : iter.loopLoadStore = false)
    (grounded : Grounded tree root (top :: rest) path)
    (next : nextChild top.subExpr = some (e, subExpr)) :
    Satisfies (fun _ => ¬ tree.NodedFrom root)
      (descend tree { iter with stack :=
        { top with subExpr := subExpr } :: rest } top e) GoesOn := by
  obtain ⟨idx, earlier, rfl⟩ := grounded.path_cons
  have child : some e ∈ top.subExpr :=
    (some_mem_of_nextChild next e).mpr (.inl rfl)
  obtain ⟨st, found, member⟩ := grounded.child_walked child
  have reached := grounded.reads.1
  have known := walked.known idx st reached found e member
  have short := (grounded.length_stack walked.bare).1
  have few := grounded.length_path walked.acyclic
  simp only [List.length_cons] at short few
  cases led : leadsTo tree true e with
  | error halt =>
      rw [descend_of_error (by rw [← led, ← loops])]
      intro noded
      obtain ⟨target, led'⟩ := noded idx st reached found e member
      rw [led] at led'
      cases led'
  | ok target =>
      apply Returns.satisfies
      cases target with
      | none =>
          have nothing : under tree iter.loopGetPut e = .ok [] := by
            rw [under, loops, led]
            rfl
          refine ⟨_, descend_of_under nothing known single ?_,
            .inr ⟨_, rfl, .inr rfl⟩⟩
          show rest.length + 1 ≤ iter.stackSize
          omega
      | some source =>
          obtain ⟨entered, entering, value, _⟩ := walked.shaped.enters led
          have one : under tree iter.loopGetPut e = .ok [entered] := by
            rw [under, loops, led, ok_bind]
            simp only [entering, ok_bind]
            rfl
          refine ⟨_, descend_of_under one known single ?_,
            .inr ⟨_, rfl, .inr rfl⟩⟩
          have longer := Grounded.stmt grounded ⟨st, e, found, member, led⟩
            value
          have few := longer.length_path walked.acyclic
          simp only [List.length_cons] at few
          show rest.length + 1 + 1 ≤ iter.stackSize
          omega

theorem Grounded.top_typ (grounded : Grounded tree root (top :: rest) path) :
    top.typ = .stmt ∨ top.typ = .expr := by
  cases grounded with
  | root value => exact .inl value.typ
  | stmt below reads value => exact .inl value.typ
  | data below done spent value => exact .inr value.typ

theorem Grounded.pop_top (walked : WalkedFrom tree root)
    (size : iter.stackSize = tree.irsb.stmts.length * 2)
    (loops : iter.loopGetPut = true) (single : iter.loopLoadStore = false)
    (grounded : Grounded tree root (top :: rest) path)
    (below : Satisfies (fun _ => ¬ tree.NodedFrom root)
      (treeIteratorPop tree iter rest) GoesOn) :
    Satisfies (fun _ => ¬ tree.NodedFrom root)
      (treeIteratorPop tree iter (top :: rest)) GoesOn := by
  have short := (grounded.length_stack walked.bare).1
  have few := grounded.length_path walked.acyclic
  simp only [List.length_cons] at short
  have room : ¬ iter.stackSize ≤ rest.length := by omega
  have typed : ¬ (top.typ = .error ∨ top.typ = .recurse) := by
    rcases grounded.top_typ with typ | typ <;> simp [typ]
  rw [treeIteratorPop, if_neg room, if_neg typed]
  split
  · next fresh => exact .inr ⟨_, rfl, .inl fresh.1⟩
  · cases next : nextChild top.subExpr with
    | none => exact below
    | some child => exact grounded.descends walked size loops single next

theorem Grounded.pops (walked : WalkedFrom tree root)
    (size : iter.stackSize = tree.irsb.stmts.length * 2)
    (loops : iter.loopGetPut = true) (single : iter.loopLoadStore = false)
    (grounded : Grounded tree root stack path) :
    Satisfies (fun _ => ¬ tree.NodedFrom root)
      (treeIteratorPop tree iter stack) GoesOn := by
  induction grounded with
  | root value =>
      apply (Grounded.root value).pop_top walked size loops single
      exact .inl ⟨rfl, rfl⟩
  | stmt below reads value induction =>
      exact (Grounded.stmt below reads value).pop_top walked size loops single
        induction
  | data below done spent value induction =>
      exact (Grounded.data below done spent value).pop_top walked size loops
        single induction

/-- The walk never gets full, and fails only where a node is missing. -/
theorem Walking.next (walked : WalkedFrom tree root)
    (size : iter.stackSize = tree.irsb.stmts.length * 2)
    (loops : iter.loopGetPut = true) (single : iter.loopLoadStore = false)
    (walking : Walking tree root iter.stack) :
    Satisfies (fun _ => ¬ tree.NodedFrom root) (treeIteratorNext tree iter)
      GoesOn := by
  rw [treeIteratorNext]
  generalize iter.stack = stack at walking
  cases walking with
  | onPath grounded => exact grounded.pops walked size loops single
  | @atLeaf val stack path leaf grounded =>
      have below := grounded.pops walked size loops single
      have short := (grounded.length_stack walked.bare).1
      have few := grounded.length_path walked.acyclic
      have room : ¬ iter.stackSize ≤ stack.length := by omega
      have typed : ¬ (val.typ = .error ∨ val.typ = .recurse) := by
        simp [leaf.typ]
      have visited : ¬ (val.typ = .stmt ∧ val.stmtDone = false) := by
        simp [leaf.typ]
      rw [treeIteratorPop, if_neg room, if_neg typed, if_neg visited,
        leaf.childless]
      exact below

end Steps

end Dependency

end HelgrindPlus
