import Mathlib.Data.Finset.Card
import Mathlib.Data.List.Nodup
import Mathlib.Logic.Relation

/-!
# Directed graphs

Paths in a graph that is given by its edges: edges into one node that close no
cycle, a node that is taken out with its neighbours joined, paths that must
come back to a node, and the invariant of a search with a stack.
-/

namespace Paths

open Relation

variable {α : Type*} {edge edge' : α → α → Prop} {node a b : α}

def Acyclic (edge : α → α → Prop) : Prop := ∀ a, ¬ TransGen edge a a

/-- A path that uses new edges leads to the start of one of them, and on from
the node. -/
theorem path_addInto {held : α → Prop}
    (new : ∀ a b, edge' a b → edge a b ∨ (held a ∧ b = node))
    (apart : ∀ a, held a → ¬ ReflTransGen edge node a)
    (path : TransGen edge' a b) :
    TransGen edge a b ∨
      (∃ old, held old ∧ ReflTransGen edge a old) ∧
        ReflTransGen edge node b := by
  induction path with
  | single step =>
      rcases new _ _ step with isOld | ⟨isHeld, rfl⟩
      · exact .inl (.single isOld)
      · exact .inr ⟨⟨a, isHeld, .refl⟩, .refl⟩
  | tail path step induction =>
      rcases new _ _ step with isOld | ⟨isHeld, rfl⟩
      · rcases induction with before | ⟨into, onward⟩
        · exact .inl (before.tail isOld)
        · exact .inr ⟨into, onward.tail isOld⟩
      · rcases induction with before | ⟨-, onward⟩
        · exact .inr ⟨⟨_, isHeld, before.to_reflTransGen⟩, .refl⟩
        · exact absurd onward (apart _ isHeld)

theorem Acyclic.addInto {held : α → Prop} (acyclic : Acyclic edge)
    (new : ∀ a b, edge' a b → edge a b ∨ (held a ∧ b = node))
    (apart : ∀ a, held a → ¬ ReflTransGen edge node a) : Acyclic edge' := by
  intro a cycle
  rcases path_addInto new apart cycle with before | ⟨into, onward⟩
  · exact acyclic a before
  · obtain ⟨old, isHeld, path⟩ := into
    exact apart old isHeld (onward.trans path)

/-- The graph without a node, whose predecessors are joined to its
successors. -/
def Bypass (edge : α → α → Prop) (node a b : α) : Prop :=
  (a ≠ node ∧ b ≠ node ∧ edge a b) ∨ (a ≠ b ∧ edge a node ∧ edge node b)

theorem Bypass.path (step : Bypass edge node a b) : TransGen edge a b := by
  rcases step with ⟨-, -, isOld⟩ | ⟨-, into, out⟩
  · exact .single isOld
  · exact (TransGen.single into).tail out

private theorem path_of_bypass (path : TransGen (Bypass edge node) a b) :
    TransGen edge a b := by
  induction path with
  | single step => exact step.path
  | tail path step induction => exact induction.trans step.path

theorem Acyclic.bypass (acyclic : Acyclic edge) :
    Acyclic (Bypass edge node) :=
  fun a cycle => acyclic a (path_of_bypass cycle)

/-- A path from another node, up to a node or to a predecessor of the one
that is taken out. -/
theorem bypass_of_path (irreflexive : ¬ edge node node) (other : a ≠ node)
    (path : ReflTransGen edge a b) :
    (b ≠ node → ReflTransGen (Bypass edge node) a b) ∧
      (b = node → ∃ last, ReflTransGen (Bypass edge node) a last ∧
        edge last node) := by
  induction path with
  | refl => exact ⟨fun _ => .refl, fun same => absurd same other⟩
  | @tail here next path step induction =>
      obtain ⟨aside, atNode⟩ := induction
      constructor
      · intro nextAside
        by_cases same : here = node
        · obtain ⟨last, before, into⟩ := atNode same
          rw [same] at step
          by_cases joined : last = next
          · rw [← joined]
            exact before
          · exact before.tail (.inr ⟨joined, into, step⟩)
        · exact (aside same).tail (.inl ⟨same, nextAside, step⟩)
      · intro isNode
        rw [isNode] at step
        have hereAside : here ≠ node := by
          intro same
          rw [same] at step
          exact irreflexive step
        exact ⟨here, aside hereAside, step⟩

theorem bypass_path_iff (irreflexive : ¬ edge node node) (different : a ≠ b)
    (aAside : a ≠ node) (bAside : b ≠ node) :
    TransGen (Bypass edge node) a b ↔ TransGen edge a b := by
  constructor
  · exact path_of_bypass
  · intro path
    have joined := (bypass_of_path irreflexive aAside
      path.to_reflTransGen).1 bAside
    rcases reflTransGen_iff_eq_or_transGen.mp joined with same | found
    · exact absurd same.symm different
    · exact found

/-- From a node that all paths from end, no cycle can be reached. -/
theorem not_cycle_of_acc (ends : Acc (fun next node => edge node next) a)
    (path : ReflTransGen edge a b) : ¬ TransGen edge b b := by
  have endsThere : Acc (fun next node => edge node next) b := by
    induction path with
    | refl => exact ends
    | tail _ step induction => exact induction.inv step
  clear path ends
  induction endsThere with
  | intro b _ induction =>
      intro cycle
      obtain ⟨next, first, rest⟩ := TransGen.head'_iff.mp cycle
      exact induction next first (TransGen.tail' rest first)

/-- A path that is longer than the graph comes back to one of its nodes. -/
theorem cycle_of_long_path {nodes : Finset α} {rest : List α}
    (path : (a :: rest).IsChain edge)
    (inside : ∀ node ∈ a :: rest, node ∈ nodes)
    (long : nodes.card ≤ rest.length) :
    ∃ node, ReflTransGen edge a node ∧ TransGen edge node node := by
  classical
  have transitive : (a :: rest).Pairwise (TransGen edge) :=
    (path.imp fun _ _ step => TransGen.single step).pairwise
  have repeats : ¬ (a :: rest).Nodup := by
    intro nodup
    have few : (a :: rest).toFinset.card ≤ nodes.card :=
      Finset.card_le_card fun node member =>
        inside node (List.mem_toFinset.mp member)
    rw [List.toFinset_card_of_nodup nodup, List.length_cons] at few
    omega
  rw [List.nodup_iff_sublist] at repeats
  push Not at repeats
  obtain ⟨node, twice⟩ := repeats
  have cycle : TransGen edge node node := by
    simpa using transitive.sublist twice
  refine ⟨node, ?_, cycle⟩
  have later : node ∈ rest := by
    cases twice with
    | cons _ later => exact later.subset List.mem_cons_self
    | cons_cons _ later => exact later.subset List.mem_cons_self
  exact (List.rel_of_pairwise_cons transitive later).to_reflTransGen

/-- The walk has fewer steps than the bound. -/
inductive Near (edge : α → α → Prop) : Nat → α → α → Prop where
  | refl {depth : Nat} {a : α} : Near edge (depth + 1) a a
  | step {depth : Nat} {a b c : α} : edge a c → Near edge depth c b →
      Near edge (depth + 1) a b

theorem not_near_zero : ¬ Near edge 0 a b := by
  rintro ⟨⟩

theorem near_succ {depth : Nat} : Near edge (depth + 1) a b ↔
    a = b ∨ ∃ c, edge a c ∧ Near edge depth c b := by
  constructor
  · intro near
    cases near with
    | refl => exact .inl rfl
    | step first rest => exact .inr ⟨_, first, rest⟩
  · rintro (rfl | ⟨c, first, rest⟩)
    · exact .refl
    · exact .step first rest

theorem Near.mono {depth : Nat} (near : Near edge depth a b)
    (more : ∀ a b, edge a b → edge' a b) : Near edge' depth a b := by
  induction near with
  | refl => exact .refl
  | step first _ induction => exact .step (more _ _ first) induction

/-- What a search from `src` knows: every node on the stack can be reached,
and no goal was among the visited nodes, whose successors are all waiting or
visited. -/
structure Frontier (edge : α → α → Prop) (goal : α → Prop) (src : α)
    (stack visited : List α) : Prop where
  reached : ∀ node ∈ stack, ReflTransGen edge src node
  covered : src ∈ visited ∨ src ∈ stack
  failed : ∀ node ∈ visited, ¬ goal node
  closed : ∀ node ∈ visited, ∀ next, edge node next →
    next ∈ visited ∨ next ∈ stack

namespace Frontier

variable {goal : α → Prop} {src here : α} {stack visited words : List α}

theorem start (edge : α → α → Prop) (goal : α → Prop) (src : α) :
    Frontier edge goal src [src] [] where
  reached := by
    intro node member
    rw [List.mem_singleton.mp member]
  covered := by simp
  failed := by simp
  closed := by simp

theorem skip (frontier : Frontier edge goal src (here :: stack) visited)
    (seen : here ∈ visited) : Frontier edge goal src stack visited where
  reached node member := frontier.reached node (by simp [member])
  covered := by
    rcases frontier.covered with isVisited | waiting
    · exact .inl isVisited
    · rcases List.mem_cons.mp waiting with rfl | later
      · exact .inl seen
      · exact .inr later
  failed := frontier.failed
  closed := by
    intro node isVisited next step
    rcases frontier.closed node isVisited next step with known | waiting
    · exact .inl known
    · rcases List.mem_cons.mp waiting with rfl | later
      · exact .inl seen
      · exact .inr later

theorem visit (frontier : Frontier edge goal src (here :: stack) visited)
    (noGoal : ¬ goal here) (succs : ∀ next, next ∈ words ↔ edge here next) :
    Frontier edge goal src (words ++ stack) (here :: visited) where
  reached := by
    intro node member
    rcases List.mem_append.mp member with isNext | waiting
    · exact (frontier.reached here (by simp)).tail ((succs node).mp isNext)
    · exact frontier.reached node (by simp [waiting])
  covered := by
    rcases frontier.covered with isVisited | waiting
    · exact .inl (by simp [isVisited])
    · rcases List.mem_cons.mp waiting with rfl | later
      · exact .inl (by simp)
      · exact .inr (by simp [later])
  failed := by
    intro node isVisited
    rcases List.mem_cons.mp isVisited with rfl | earlier
    · exact noGoal
    · exact frontier.failed node earlier
  closed := by
    intro node isVisited next step
    rcases List.mem_cons.mp isVisited with rfl | earlier
    · exact .inr (by simp [(succs next).mpr step])
    · rcases frontier.closed node earlier next step with known | waiting
      · exact .inl (by simp [known])
      · rcases List.mem_cons.mp waiting with rfl | later
        · exact .inl (by simp)
        · exact .inr (by simp [later])

/-- With nothing left to visit, no goal can be reached. -/
theorem finish (frontier : Frontier edge goal src [] visited)
    (path : ReflTransGen edge src node) : ¬ goal node := by
  apply frontier.failed
  induction path with
  | refl => simpa using frontier.covered
  | tail path step induction =>
      simpa using frontier.closed _ induction _ step

end Frontier
end Paths
