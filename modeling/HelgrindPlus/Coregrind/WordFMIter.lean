import HelgrindPlus.Coregrind.WordFMCalls
import Mathlib.Data.Nat.Fib.Basic

/-!
# Iteration over word maps

An iterator of `m_wordfm.c` is a stack of nodes in the map itself, with room
for 32.  It has the nodes from which the walk has gone to the left, so it is
large enough just for the trees in which no path goes to the left that often.
There are such trees with fewer than ten million entries.
-/

namespace HelgrindPlus

namespace WordFM

open Outcome

def wfmStkmax : Nat := 32

section Iterator

variable {α β : Type}

/-- The nodes of the stack with their numbers, the top first. -/
abbrev IterStack (α β : Type) := List (AvlTree α β × Nat)

def stackPush (stack : IterStack α β) (n : AvlTree α β) (i : Nat) :
    Except Stop (IterStack α β) := do
  tlAssert (stack.length < wfmStkmax)
  tlAssert (1 ≤ i ∧ i ≤ 3)
  return (n, i) :: stack

/-- The assertions when the top of the stack is taken. -/
def stackPopCheck (stack : IterStack α β) : Except Stop Unit := do
  tlAssert (stack.length ≤ wfmStkmax)
  match stack with
  | [] => return
  | (_, i) :: _ => tlAssert (1 ≤ i ∧ i ≤ 3)

/-- The loop at the label `case_1`. -/
def case1 : IterStack α β → AvlTree α β → Except Stop (IterStack α β)
  | _, .nil => .error .nullChild
  | stack, .node key val balance left right => do
      let stack' ← stackPush stack (.node key val balance left right) 2
      if left.isNil then return stack' else case1 stack' left

/-- A node with the number two: it is the next one. -/
def case2 (rest : IterStack α β) :
    AvlTree α β → Except Stop (IterStack α β × Option (α × β))
  | .nil => .error .nullChild
  | .node key val balance left right => do
      let stack ← stackPush rest (.node key val balance left right) 3
      return (stack, some (key, val))

/-- The round of the loop after `case_1`, which finds the node that was pushed
last. -/
def afterCase1 (stack : IterStack α β) :
    Except Stop (IterStack α β × Option (α × β)) := do
  stackPopCheck stack
  match stack with
  | (n, 2) :: rest => case2 rest n
  | _ => .error .tlAssert

/-- The function `VG_(nextIterFM)` on the stack. -/
def nextIter : IterStack α β → Except Stop (IterStack α β × Option (α × β))
  | [] => return ([], none)
  | (n, i) :: rest => do
      stackPopCheck ((n, i) :: rest)
      if i = 1 then do
        let stack ← case1 rest n
        afterCase1 stack
      else if i = 2 then
        case2 rest n
      else do
        let right ← n.rightOf
        if right.isNil then nextIter rest
        else do
          let stack ← case1 rest right
          afterCase1 stack

variable (kCmp : α → α → Int)

/-- The search of `VG_(initIterAtFM)`. -/
def initIterAt (startAt : α) :
    IterStack α β → AvlTree α β → Except Stop (IterStack α β)
  | stack, .nil => return stack
  | stack, .node key val balance left right =>
      let cmpres := kCmp key startAt
      if cmpres = 0 then
        stackPush stack (.node key val balance left right) 2
      else if cmpres < 0 then
        initIterAt startAt stack right
      else do
        let stack' ← stackPush stack (.node key val balance left right) 2
        initIterAt startAt stack' left

end Iterator

namespace FM

variable {w : Nat}

def initIterFM (fm : FM w) : Except Stop (FM w) := do
  let stack ← if fm.root.isNil then pure [] else stackPush [] fm.root 1
  return { fm with stack := stack }

def initIterAtFM (fm : FM w) (startAt : BitVec w) : Except Stop (FM w) := do
  let stack ← initIterAt fm.cmp startAt [] fm.root
  return { fm with stack := stack }

def nextIterFM (fm : FM w) :
    Except Stop (FM w × Option (BitVec w × BitVec w)) := do
  let (stack, entry) ← nextIter fm.stack
  return ({ fm with stack := stack }, entry)

/-- Some calls of `VG_(nextIterFM)` and what they yield. -/
def nextItersFM : Nat → FM w →
    Except Stop (FM w × List (Option (BitVec w × BitVec w)))
  | 0, fm => return (fm, [])
  | count + 1, fm => do
      let (fm', entry) ← fm.nextIterFM
      let (fm'', entries) ← nextItersFM count fm'
      return (fm'', entry :: entries)

end FM

section Draining

variable {α β : Type}

/-- How often a path in the tree goes to the left, with the node at its end. -/
def AvlTree.leftDepth : AvlTree α β → Nat
  | nil => 0
  | node _ _ _ left right => max (left.leftDepth + 1) right.leftDepth

/-- The iterator yields the entries and is then at its end. -/
inductive Drains : IterStack α β → List (α × β) → Prop where
  | done {stack : IterStack α β} (ended : nextIter stack = .ok ([], none)) :
      Drains stack []
  | next {stack stack' : IterStack α β} {entry : α × β}
      {entries : List (α × β)}
      (yielded : nextIter stack = .ok (stack', some entry))
      (rest : Drains stack' entries) : Drains stack (entry :: entries)

theorem Drains.congr {stack stack' : IterStack α β}
    (same : nextIter stack = nextIter stack') {entries : List (α × β)} :
    Drains stack entries ↔ Drains stack' entries := by
  constructor
  · intro drains
    cases drains with
    | done ended => exact .done (same ▸ ended)
    | next yielded rest => exact .next (same ▸ yielded) rest
  · intro drains
    cases drains with
    | done ended => exact .done (same ▸ ended)
    | next yielded rest => exact .next (same ▸ yielded) rest

theorem tlAssert_of {condition : Prop} [Decidable condition]
    (holds : condition) : tlAssert condition = .ok () :=
  if_pos holds

variable {rest : IterStack α β} {key : α} {val : β} {balance : Int}
  {left right : AvlTree α β} {entries : List (α × β)}

theorem stackPush_of_lt {n : AvlTree α β} {i : Nat}
    (room : rest.length < wfmStkmax) (number : 1 ≤ i ∧ i ≤ 3) :
    stackPush rest n i = .ok ((n, i) :: rest) := by
  rw [stackPush, tlAssert_of room, tlAssert_of number]
  rfl

private theorem stackPush_full {n : AvlTree α β} {i : Nat}
    (full : ¬ rest.length < wfmStkmax) :
    stackPush rest n i = .error .tlAssert := by
  rw [stackPush, tlAssert, if_neg full]
  rfl

theorem stackPopCheck_of_lt {n : AvlTree α β} {i : Nat}
    (room : rest.length < wfmStkmax) (number : 1 ≤ i ∧ i ≤ 3) :
    stackPopCheck ((n, i) :: rest) = .ok () := by
  have height : ((n, i) :: rest).length ≤ wfmStkmax := room
  rw [stackPopCheck, tlAssert_of height]
  exact tlAssert_of number

private theorem stackPopCheck_full {n : AvlTree α β} {i : Nat}
    (full : ¬ rest.length < wfmStkmax) :
    stackPopCheck ((n, i) :: rest) = .error .tlAssert := by
  have height : ¬ ((n, i) :: rest).length ≤ wfmStkmax := full
  rw [stackPopCheck, tlAssert, if_neg height]
  rfl

/-- The stack below the top of an iterator that goes on is not full. -/
theorem Drains.room {n : AvlTree α β} {i : Nat}
    (drains : Drains ((n, i) :: rest) entries) :
    rest.length < wfmStkmax := by
  by_contra full
  have failed : nextIter ((n, i) :: rest) = .error .tlAssert := by
    rw [nextIter, stackPopCheck_full full]
    rfl
  cases drains with
  | done ended => rw [failed] at ended; cases ended
  | next yielded _ => rw [failed] at yielded; cases yielded

/-- A node that is pushed for the first time: the walk goes to its left
subtree, or on to the node itself. -/
theorem nextIter_one (room : rest.length < wfmStkmax) :
    nextIter ((.node key val balance left right, 1) :: rest) =
      if left.isNil then
        nextIter ((.node key val balance left right, 2) :: rest)
      else if rest.length + 1 < wfmStkmax then
        nextIter ((left, 1) :: (.node key val balance left right, 2) :: rest)
      else
        .error .tlAssert := by
  rw [nextIter, stackPopCheck_of_lt room (by decide), ok_bind, if_pos rfl,
    case1, stackPush_of_lt room (by decide), ok_bind]
  split_ifs with none more
  · rw [nextIter, stackPopCheck_of_lt room (by decide), ok_bind,
      if_neg (by decide), if_pos rfl]
    change afterCase1 ((AvlTree.node key val balance left right, 2) :: rest) = _
    rw [afterCase1, stackPopCheck_of_lt room (by decide)]
    rfl
  · rw [nextIter, @stackPopCheck_of_lt _ _ ((_, 2) :: rest) _ _ more
      (by decide), ok_bind, if_pos rfl]
  · cases left with
    | nil => exact (none rfl).elim
    | node lKey lVal lBalance ll lr =>
        rw [case1, @stackPush_full _ _ ((_, 2) :: rest) _ _ more]
        rfl

private theorem nextIter_two (room : rest.length < wfmStkmax) :
    nextIter ((.node key val balance left right, 2) :: rest) =
      .ok ((.node key val balance left right, 3) :: rest, some (key, val)) := by
  rw [nextIter, stackPopCheck_of_lt room (by decide), ok_bind,
    if_neg (by decide), if_pos rfl, case2, stackPush_of_lt room (by decide)]
  rfl

private theorem nextIter_three (room : rest.length < wfmStkmax) :
    nextIter ((.node key val balance left right, 3) :: rest) =
      if right.isNil then nextIter rest
      else nextIter ((right, 1) :: rest) := by
  rw [nextIter, stackPopCheck_of_lt room (by decide), ok_bind,
    if_neg (by decide), if_neg (by decide)]
  split_ifs with none
  · simp [AvlTree.rightOf, none]
  · rw [nextIter, stackPopCheck_of_lt room (by decide), ok_bind, if_pos rfl]
    simp [AvlTree.rightOf, none]

private theorem drains_two :
    Drains ((.node key val balance left right, 2) :: rest) entries ↔
      rest.length < wfmStkmax ∧ ∃ later, entries = (key, val) :: later ∧
        Drains ((.node key val balance left right, 3) :: rest) later := by
  constructor
  · intro drains
    have room := drains.room
    have step := @nextIter_two _ _ rest key val balance left right room
    cases drains with
    | done ended =>
        rw [step] at ended
        cases ended
    | next yielded drains =>
        rw [step] at yielded
        cases yielded
        exact ⟨room, _, rfl, drains⟩
  · rintro ⟨room, later, rfl, drains⟩
    exact .next (nextIter_two room) drains

private theorem drains_three :
    Drains ((.node key val balance left right, 3) :: rest) entries ↔
      rest.length < wfmStkmax ∧ if right.isNil then Drains rest entries
        else Drains ((right, 1) :: rest) entries := by
  have step := @nextIter_three _ _ rest key val balance left right
  constructor
  · intro drains
    have room := drains.room
    refine ⟨room, ?_⟩
    specialize step room
    split_ifs at step ⊢ with none
    · exact (Drains.congr step).mp drains
    · exact (Drains.congr step).mp drains
  · rintro ⟨room, drains⟩
    specialize step room
    split_ifs at step drains with none
    · exact (Drains.congr step).mpr drains
    · exact (Drains.congr step).mpr drains

theorem AvlTree.leftDepth_pos {tree : AvlTree α β} (nonempty : tree ≠ .nil) :
    1 ≤ tree.leftDepth := by
  cases tree with
  | nil => exact (nonempty rfl).elim
  | node key val balance left right =>
      simp only [leftDepth]
      omega

/-- What the rest of a node is that the walk has come back to. -/
theorem drains_two_iff
    (rightInduction : right ≠ .nil → ∀ {entries : List (α × β)},
      Drains ((right, 1) :: rest) entries ↔
        rest.length + right.leftDepth ≤ wfmStkmax ∧
          ∃ later, entries = right.toList ++ later ∧ Drains rest later) :
    Drains ((.node key val balance left right, 2) :: rest) entries ↔
      rest.length + max 1 right.leftDepth ≤ wfmStkmax ∧
        ∃ later, entries = (key, val) :: (right.toList ++ later) ∧
          Drains rest later := by
  rw [drains_two]
  simp only [drains_three]
  by_cases none : right = .nil
  · subst none
    constructor
    · rintro ⟨room, later, rfl, _, drains⟩
      exact ⟨room, later, rfl, drains⟩
    · rintro ⟨room, later, rfl, drains⟩
      exact ⟨room, later, rfl, room, drains⟩
  · have positive := AvlTree.leftDepth_pos none
    constructor
    · rintro ⟨room, later, rfl, _, drains⟩
      rw [if_neg (by simpa [AvlTree.isNil_iff] using none),
        rightInduction none] at drains
      obtain ⟨fits, later', rfl, drains⟩ := drains
      exact ⟨by omega, later', rfl, drains⟩
    · rintro ⟨fits, later, rfl, drains⟩
      have room : rest.length < wfmStkmax := by omega
      refine ⟨room, _, rfl, room, ?_⟩
      rw [if_neg (by simpa [AvlTree.isNil_iff] using none),
        rightInduction none]
      exact ⟨by omega, later, rfl, drains⟩

/-- An iterator before a subtree: it yields the entries of the subtree if there
is room for the paths in it, and else it fails. -/
theorem drains_one_iff (tree : AvlTree α β) (nonempty : tree ≠ .nil)
    (rest : IterStack α β) (entries : List (α × β)) :
    Drains ((tree, 1) :: rest) entries ↔
      rest.length + tree.leftDepth ≤ wfmStkmax ∧
        ∃ later, entries = tree.toList ++ later ∧ Drains rest later := by
  induction tree generalizing rest entries with
  | nil => exact (nonempty rfl).elim
  | node key val balance left right leftInduction rightInduction =>
      have back : ∀ entries, Drains
          ((.node key val balance left right, 2) :: rest) entries ↔
          rest.length + max 1 right.leftDepth ≤ wfmStkmax ∧
            ∃ later, entries = (key, val) :: (right.toList ++ later) ∧
              Drains rest later :=
        fun entries => drains_two_iff fun some => rightInduction some rest _
      have first := @nextIter_one _ _ rest key val balance left right
      simp only [AvlTree.leftDepth, AvlTree.toList]
      by_cases none : left = .nil
      · subst none
        have step : rest.length < wfmStkmax →
            (Drains ((.node key val balance .nil right, 1) :: rest) entries ↔
              Drains ((.node key val balance .nil right, 2) :: rest)
                entries) :=
          fun room => Drains.congr (first room)
        constructor
        · intro drains
          exact (back entries).mp ((step drains.room).mp drains)
        · intro fits
          have drains := (back entries).mpr fits
          exact (step drains.room).mpr drains
      · have down := leftInduction none
          ((.node key val balance left right, 2) :: rest) entries
        simp only [List.length_cons, back] at down
        have positive := AvlTree.leftDepth_pos none
        have step : rest.length + 1 < wfmStkmax →
            (Drains ((.node key val balance left right, 1) :: rest) entries ↔
              Drains ((left, 1) ::
                (.node key val balance left right, 2) :: rest) entries) := by
          intro more
          apply Drains.congr
          rw [first (by omega), if_neg (by simpa [AvlTree.isNil_iff] using none),
            if_pos more]
        constructor
        · intro drains
          have more : rest.length + 1 < wfmStkmax := by
            by_contra full
            have failed := first drains.room
            rw [if_neg (by simpa [AvlTree.isNil_iff] using none),
              if_neg full] at failed
            cases drains with
            | done ended => rw [failed] at ended; cases ended
            | next yielded _ => rw [failed] at yielded; cases yielded
          obtain ⟨fits, later, rfl, fits', later', rfl, after⟩ :=
            down.mp ((step more).mp drains)
          exact ⟨by omega, later', by simp, after⟩
        · rintro ⟨fits, later, rfl, drains⟩
          apply (step (by omega)).mpr
          apply down.mpr
          exact ⟨by omega, (key, val) :: (right.toList ++ later), by simp,
            by omega, later, rfl, drains⟩

theorem drains_nil : Drains ([] : IterStack α β) entries ↔ entries = [] := by
  constructor
  · intro drains
    cases drains with
    | done _ => rfl
    | next yielded _ => cases yielded
  · rintro rfl
    exact .done rfl

/-- The iterator at the first entry that is not below a key. -/
theorem drains_initIterAt {kCmp : α → α → Int}
    (total : OrderedMap.TotalOrder kCmp) (startAt : α) (tree : AvlTree α β)
    (sorted : OrderedMap.Sorted kCmp tree.toList) (rest : IterStack α β)
    (room : rest.length + tree.leftDepth ≤ wfmStkmax)
    {later : List (α × β)} (drains : Drains rest later) :
    ∃ stack, initIterAt kCmp startAt rest tree = .ok stack ∧
      Drains stack
        (OrderedMap.atOrAfter kCmp startAt tree.toList ++ later) := by
  induction tree generalizing rest later with
  | nil => exact ⟨rest, rfl, drains⟩
  | node key val balance left right leftInduction rightInduction =>
      simp only [AvlTree.leftDepth] at room
      have pushed :
          stackPush rest (.node key val balance left right) 2 = .ok _ :=
        stackPush_of_lt (by omega) (by decide)
      have back : Drains ((.node key val balance left right, 2) :: rest)
          ((key, val) :: (right.toList ++ later)) := by
        apply (drains_two_iff fun some => drains_one_iff right some rest _).mpr
        exact ⟨by omega, later, rfl, drains⟩
      rw [AvlTree.toList, initIterAt]
      by_cases same : kCmp key startAt = 0
      · rw [OrderedMap.atOrAfter_same total sorted same, if_pos same]
        exact ⟨_, pushed, back⟩
      · rw [if_neg same]
        by_cases above : kCmp key startAt < 0
        · rw [if_pos above, OrderedMap.atOrAfter_above total sorted above]
          exact rightInduction sorted.of_right rest (by omega) drains
        · have below : 0 < kCmp key startAt := by omega
          rw [if_neg above, OrderedMap.atOrAfter_below total sorted below,
            pushed, ok_bind, List.append_assoc]
          apply leftInduction sorted.of_left
          · simp only [List.length_cons]
            omega
          · exact back

end Draining

section Calls

variable {w : Nat}

/-- What a number of calls yields: the entries, and nothing after them. -/
def yields (entries : List (BitVec w × BitVec w)) (count : Nat) :
    List (Option (BitVec w × BitVec w)) :=
  (List.range count).map fun i => entries[i]?

theorem yields_nil_succ (count : Nat) :
    yields ([] : List (BitVec w × BitVec w)) (count + 1) =
      none :: yields [] count := by
  simp [yields, List.range_succ_eq_map, Function.comp_def]

theorem yields_cons_succ (entry : BitVec w × BitVec w)
    (entries : List (BitVec w × BitVec w)) (count : Nat) :
    yields (entry :: entries) (count + 1) =
      some entry :: yields entries count := by
  simp [yields, List.range_succ_eq_map, Function.comp_def]

/-- An iterator that drains yields the entries in any number of calls. -/
theorem nextItersFM_of_drains {fm : FM w}
    {entries : List (BitVec w × BitVec w)} (drains : Drains fm.stack entries)
    (count : Nat) :
    ∃ fm', fm.nextItersFM count = .ok (fm', yields entries count) := by
  induction count generalizing fm entries with
  | zero => exact ⟨fm, rfl⟩
  | succ count induction =>
      cases drains with
      | done ended =>
          have none : fm.nextIterFM = .ok ({ fm with stack := [] }, none) := by
            simp only [FM.nextIterFM, ended, ok_bind]
            rfl
          obtain ⟨fm', later⟩ := @induction { fm with stack := [] } [] (.done rfl)
          refine ⟨fm', ?_⟩
          rw [FM.nextItersFM, none, ok_bind, yields_nil_succ]
          simp only [later, ok_bind]
          rfl
      | @next _ stack' entry entries yielded rest =>
          have some : fm.nextIterFM =
              .ok ({ fm with stack := stack' }, some entry) := by
            simp only [FM.nextIterFM, yielded, ok_bind]
            rfl
          obtain ⟨fm', later⟩ := @induction { fm with stack := stack' } _ rest
          refine ⟨fm', ?_⟩
          rw [FM.nextItersFM, some, ok_bind, yields_cons_succ]
          simp only [later, ok_bind]
          rfl

private theorem afterCase1_some {α β : Type} {stack stack' : IterStack α β}
    {found : Option (α × β)}
    (returned : afterCase1 stack = .ok (stack', found)) : found ≠ none := by
  obtain ⟨_, _, popped⟩ := bind_eq_ok.mp returned
  split at popped
  · rename_i n rest _
    cases n with
    | nil => cases popped
    | node key val balance left right =>
        obtain ⟨_, _, pushed⟩ := bind_eq_ok.mp popped
        cases pushed
        exact nofun
  · cases popped

/-- An iterator at its end has an empty stack. -/
theorem nextIter_none {α β : Type} {stack stack' : IterStack α β}
    (returned : nextIter stack = .ok (stack', none)) : stack' = [] := by
  induction stack with
  | nil =>
      cases returned
      rfl
  | cons top rest induction =>
      obtain ⟨n, i⟩ := top
      obtain ⟨_, _, returned⟩ := bind_eq_ok.mp returned
      split_ifs at returned
      · obtain ⟨_, _, returned⟩ := bind_eq_ok.mp returned
        exact (afterCase1_some returned rfl).elim
      · cases n with
        | nil => cases returned
        | node key val balance left right =>
            obtain ⟨_, _, returned⟩ := bind_eq_ok.mp returned
            cases returned
      · obtain ⟨right, _, returned⟩ := bind_eq_ok.mp returned
        split_ifs at returned
        · exact induction returned
        · obtain ⟨_, _, returned⟩ := bind_eq_ok.mp returned
          exact (afterCase1_some returned rfl).elim

private theorem drains_of_nextItersFM {fm : FM w}
    {entries : List (BitVec w × BitVec w)}
    (yielded : ∀ count, ∃ fm', fm.nextItersFM count =
      .ok (fm', yields entries count)) :
    Drains fm.stack entries := by
  induction entries generalizing fm with
  | nil =>
      obtain ⟨fm', returned⟩ := yielded 1
      obtain ⟨⟨fm₁, found⟩, first, returned⟩ := bind_eq_ok.mp returned
      obtain ⟨_, _, returned⟩ := bind_eq_ok.mp returned
      obtain ⟨⟨stack', found'⟩, first, same⟩ := bind_eq_ok.mp first
      cases same
      have none : found = none :=
        (List.cons.inj (Prod.mk.inj (Except.ok.inj returned)).2).1
      subst none
      exact .done (nextIter_none first ▸ first)
  | cons entry entries induction =>
      obtain ⟨fm', returned⟩ := yielded 1
      obtain ⟨⟨fm₁, found⟩, first, returned⟩ := bind_eq_ok.mp returned
      obtain ⟨_, _, returned⟩ := bind_eq_ok.mp returned
      have some : found = some entry :=
        (List.cons.inj (Prod.mk.inj (Except.ok.inj returned)).2).1
      subst some
      have rest : ∀ count, ∃ fm', fm₁.nextItersFM count =
          .ok (fm', yields entries count) := by
        intro count
        obtain ⟨fm', returned⟩ := yielded (count + 1)
        rw [FM.nextItersFM, first, ok_bind] at returned
        obtain ⟨⟨fm₂, later⟩, next, returned⟩ := bind_eq_ok.mp returned
        rw [yields_cons_succ] at returned
        obtain ⟨rfl, same⟩ := Prod.mk.inj (Except.ok.inj returned)
        exact ⟨fm₂, (List.cons.inj same).2 ▸ next⟩
      obtain ⟨⟨stack', found'⟩, step, same⟩ := bind_eq_ok.mp first
      cases same
      exact .next step (induction rest)

/-- Iteration from the start and from any key yields the entries in order, and
then nothing any more. -/
structure FM.Iterates (fm : FM w) : Prop where
  all : ∀ count, ∃ fm', (fm.initIterFM >>= FM.nextItersFM count) =
    .ok (fm', yields fm.root.toList count)
  fromKey : ∀ startAt count, ∃ fm',
    (fm.initIterAtFM startAt >>= FM.nextItersFM count) =
      .ok (fm', yields
        (OrderedMap.atOrAfter fm.cmp startAt fm.root.toList) count)

private theorem initIterFM_eq (fm : FM w) :
    fm.initIterFM = .ok { fm with
      stack := if fm.root.isNil then [] else [(fm.root, 1)] } := by
  unfold FM.initIterFM
  split_ifs
  · rfl
  · rw [stackPush_of_lt (by simp [wfmStkmax]) (by decide)]
    rfl

theorem drains_root_iff {fm : FM w} {entries : List (BitVec w × BitVec w)} :
    Drains (if fm.root.isNil then [] else [(fm.root, 1)]) entries ↔
      fm.root.leftDepth ≤ wfmStkmax ∧ entries = fm.root.toList := by
  by_cases none : fm.root = .nil
  · rw [if_pos (AvlTree.isNil_iff.mpr none), drains_nil, none]
    simp [AvlTree.leftDepth, AvlTree.toList]
  · rw [if_neg (by simpa [AvlTree.isNil_iff] using none),
      drains_one_iff fm.root none]
    simp [drains_nil]

theorem FM.iterates_iff {fm : FM w} (total : OrderedMap.TotalOrder fm.cmp)
    (sound : fm.Sound) :
    fm.Iterates ↔ fm.root.leftDepth ≤ wfmStkmax := by
  constructor
  · intro iterates
    have drains := drains_of_nextItersFM fun count => by
      have yielded := iterates.all count
      rw [initIterFM_eq, ok_bind] at yielded
      exact yielded
    exact (drains_root_iff.mp drains).1
  · intro fits
    refine ⟨fun count => ?_, fun startAt count => ?_⟩
    · rw [initIterFM_eq, ok_bind]
      exact nextItersFM_of_drains (drains_root_iff.mpr ⟨fits, rfl⟩) count
    · obtain ⟨stack, found, drains⟩ := drains_initIterAt total startAt fm.root
        sound.sorted [] (by simpa using fits) (drains_nil.mpr rfl)
      have started : fm.initIterAtFM startAt =
          .ok { fm with stack := stack } := by
        simp only [FM.initIterAtFM, found, ok_bind]
        rfl
      rw [started, ok_bind, ← List.append_nil
        (OrderedMap.atOrAfter fm.cmp startAt fm.root.toList)]
      exact @nextItersFM_of_drains _ { fm with stack := stack } _ drains count

/-- In every map that can be reached, iteration is complete and in order just
if no path in the tree goes to the left more than 31 times. -/
theorem wordFM_iterates (w : Nat) (kCmp : Option (BitVec w → BitVec w → Int))
    (total : ∀ cmp ∈ kCmp, OrderedMap.TotalOrder cmp) (calls : List (Call w))
    (fm : FM w) (answers : List (Answer w))
    (reached : (FM.newFM kCmp).calls calls = .ok (fm, answers)) :
    fm.Iterates ↔ fm.root.leftDepth ≤ wfmStkmax := by
  have order : OrderedMap.TotalOrder (FM.newFM kCmp).cmp := newFM_total total
  obtain ⟨same, sound, _⟩ := (calls_spec calls order
    ⟨trivial, List.Pairwise.nil⟩).of_eq_ok reached
  have sameCmp : fm.cmp = (FM.newFM kCmp).cmp :=
    congrArg (fun kCmp => kCmp.getD cmpUnsignedWords) same
  exact FM.iterates_iff (sameCmp ▸ order) sound

end Calls

section Reaching

variable {α β : Type} {kCmp : α → α → Int}

namespace AvlTree

section Insertion

variable {key : α} {val : β} {balance : Int} {left right : AvlTree α β}
  {entry : α × β} {grown : Bool}

/-- An insertion on the side that is not the higher one needs no rotation. -/
theorem insertWrk_left {smaller : AvlTree α β} (below : 0 < kCmp key entry.1)
    (inserted : smaller.insertWrk kCmp entry.1 entry.2 =
      .ok (left, none, grown))
    (lower : balance = 0 ∨ balance = 1 ∨ grown = false) :
    (node key val balance smaller right).insertWrk kCmp entry.1 entry.2 =
      .ok (node key val (balance - grown.toNat) left right, none,
        grown && balance = 0) := by
  rw [insertWrk, if_pos below]
  by_cases none : smaller = nil
  · subst none
    cases inserted
    rfl
  · rw [if_neg (by simpa [isNil_iff] using none), inserted, ok_bind]
    cases grown with
    | false => simp [pure, Except.pure]
    | true =>
        obtain rfl | rfl | impossible := lower
        · rfl
        · rfl
        · cases impossible

theorem insertWrk_right {smaller : AvlTree α β} (above : kCmp key entry.1 < 0)
    (inserted : smaller.insertWrk kCmp entry.1 entry.2 =
      .ok (right, none, grown))
    (lower : balance = 0 ∨ balance = -1 ∨ grown = false) :
    (node key val balance left smaller).insertWrk kCmp entry.1 entry.2 =
      .ok (node key val (balance + grown.toNat) left right, none,
        grown && balance = 0) := by
  have notBelow : ¬ kCmp key entry.1 > 0 := by omega
  rw [insertWrk, if_neg notBelow, if_pos above]
  by_cases none : smaller = nil
  · subst none
    cases inserted
    rfl
  · rw [if_neg (by simpa [isNil_iff] using none), inserted, ok_bind]
    cases grown with
    | false => simp [pure, Except.pure]
    | true =>
        obtain rfl | rfl | impossible := lower
        · rfl
        · rfl
        · cases impossible

end Insertion

private theorem toNat_and_decide (flag : Bool) (condition : Prop)
    [Decidable condition] :
    (flag && condition).toNat = if condition then flag.toNat else 0 := by
  by_cases holds : condition <;> simp [holds]

/-- The tree without a node at the greatest depth: to insert its entry again
gives the tree back, without rotations. -/
theorem exists_insertWrk_eq (total : OrderedMap.TotalOrder kCmp)
    (tree : AvlTree α β) (nonempty : tree ≠ nil) (balanced : tree.Balanced)
    (sorted : OrderedMap.Sorted kCmp tree.toList) :
    ∃ (smaller : AvlTree α β) (entry : α × β) (grown : Bool),
      smaller.Balanced ∧ smaller.toList.Sublist tree.toList ∧
      smaller.size + 1 = tree.size ∧
      smaller.height + grown.toNat = tree.height ∧ entry ∈ tree.toList ∧
      smaller.insertWrk kCmp entry.1 entry.2 = .ok (tree, none, grown) := by
  induction tree with
  | nil => exact (nonempty rfl).elim
  | node key val balance left right leftInduction rightInduction =>
      obtain ⟨difference, low, high, leftBalanced, rightBalanced⟩ := balanced
      by_cases rightward : 0 < balance
      · have some : right ≠ nil := by
          rintro rfl
          simp only [height] at difference
          omega
        obtain ⟨smaller, entry, grown, balanced', sublist, count, level, member,
          inserted⟩ := rightInduction some rightBalanced sorted.of_right
        have small : grown.toNat ≤ 1 := Bool.toNat_le grown
        have again := @insertWrk_right _ _ kCmp key val
          (balance - grown.toNat) left _ entry grown smaller
          (sorted.lt_right entry member) inserted (by cases grown <;> simp; omega)
        rw [Int.sub_add_cancel] at again
        refine ⟨node key val (balance - grown.toNat) left smaller, entry,
          grown && balance - grown.toNat = 0, ⟨by omega, by omega, by omega,
          leftBalanced, balanced'⟩, ?_, ?_, ?_, ?_, again⟩
        · exact (sublist.cons_cons (key, val)).append_left left.toList
        · simp only [size]
          omega
        · rw [height, height, toNat_and_decide]
          split_ifs <;> omega
        · exact List.mem_append_right _ (List.mem_cons_of_mem _ member)
      · by_cases none : left = nil
        · subst none
          have empty : right = nil := by
            apply height_eq_zero.mp
            simp only [height] at difference
            omega
          subst empty
          have zero : balance = 0 := by simpa [height] using difference
          subst zero
          exact ⟨nil, (key, val), true, trivial, List.nil_sublist _, rfl, rfl,
            List.mem_singleton_self _, rfl⟩
        · obtain ⟨smaller, entry, grown, balanced', sublist, count, level,
            member, inserted⟩ := leftInduction none leftBalanced sorted.of_left
          have small : grown.toNat ≤ 1 := Bool.toNat_le grown
          have again := @insertWrk_left _ _ kCmp key val
            (balance + grown.toNat) _ right entry grown smaller
            ((total.opposite _ _).mp (sorted.left_lt entry member)) inserted
            (by cases grown <;> simp; omega)
          rw [Int.add_sub_cancel] at again
          refine ⟨node key val (balance + grown.toNat) smaller right, entry,
            grown && balance + grown.toNat = 0, ⟨by omega, by omega, by omega,
            balanced', rightBalanced⟩, ?_, ?_, ?_, ?_, again⟩
          · exact sublist.append_right _
          · simp only [size]
            omega
          · rw [height, height, toNat_and_decide]
            split_ifs <;> omega
          · exact List.mem_append_left _ member

end AvlTree

theorem calls_concat {w : Nat} {fm fm' fm'' : FM w} {calls : List (Call w)}
    {answers : List (Answer w)} {call : Call w} {answer : Answer w}
    (first : fm.calls calls = .ok (fm', answers))
    (last : fm'.call call = .ok (fm'', answer)) :
    fm.calls (calls ++ [call]) = .ok (fm'', answers ++ [answer]) := by
  induction calls generalizing fm answers with
  | nil =>
      cases first
      simp only [List.nil_append, FM.calls, last, ok_bind]
      rfl
  | cons call' rest induction =>
      obtain ⟨⟨fm₁, answer₁⟩, called, first⟩ := bind_eq_ok.mp first
      obtain ⟨⟨fm₂, answers₂⟩, later, first⟩ := bind_eq_ok.mp first
      cases first
      simp only [List.cons_append, FM.calls, called, induction later, ok_bind]
      rfl

/-- Every balanced search tree is the tree of a map that can be reached. -/
theorem exists_calls {w : Nat} {kCmp : Option (BitVec w → BitVec w → Int)}
    (total : OrderedMap.TotalOrder (FM.newFM kCmp).cmp)
    (tree : AvlTree (BitVec w) (BitVec w)) (balanced : tree.Balanced)
    (sorted : OrderedMap.Sorted (FM.newFM kCmp).cmp tree.toList) :
    ∃ calls answers, (FM.newFM kCmp).calls calls =
      .ok ({ FM.newFM kCmp with root := tree }, answers) := by
  generalize count : tree.size = size
  induction size generalizing tree with
  | zero =>
      cases tree with
      | nil => exact ⟨[], [], rfl⟩
      | node key val balance left right =>
          simp only [AvlTree.size] at count
          omega
  | succ size induction =>
      have nonempty : tree ≠ .nil := by
        rintro rfl
        cases count
      obtain ⟨smaller, entry, grown, balanced', sublist, size', _, _,
        inserted⟩ :=
        AvlTree.exists_insertWrk_eq total tree nonempty balanced sorted
      obtain ⟨calls, answers, reached⟩ :=
        induction smaller balanced' (sorted.sublist sublist) (by omega)
      refine ⟨calls ++ [.addToFM entry.1 entry.2], answers ++ [.added false],
        calls_concat reached ?_⟩
      have same : ({ FM.newFM kCmp with root := smaller } : FM w).cmp =
          (FM.newFM kCmp).cmp := rfl
      simp only [FM.call, FM.addToFM, same, inserted, ok_bind]
      rfl

end Reaching

section Deep

variable (w : Nat)

/-- The smallest balanced tree of the height, with the higher subtree on the
left, and the keys from `low` on. -/
def fibTree (low : Nat) : Nat → AvlTree (BitVec w) (BitVec w)
  | 0 => .nil
  | 1 => .node (BitVec.ofNat w low) 0 0 .nil .nil
  | height + 2 =>
      let left := fibTree low (height + 1)
      .node (BitVec.ofNat w (low + left.size)) 0 (-1) left
        (fibTree (low + left.size + 1) height)

variable {w}

private theorem fibTree_size (low height : Nat) :
    (fibTree w low height).size + 1 = Nat.fib (height + 2) := by
  induction height using Nat.twoStepInduction generalizing low with
  | zero => rfl
  | one => rfl
  | more height first second =>
      have left : (fibTree w low (height + 1)).size + 1 =
          Nat.fib (height + 2 + 1) := second low
      have right := first (low + (fibTree w low (height + 1)).size + 1)
      rw [Nat.fib_add_two, ← left, ← right]
      simp only [fibTree, AvlTree.size]
      omega

private theorem fibTree_height (low height : Nat) :
    (fibTree w low height).height = height := by
  induction height using Nat.twoStepInduction generalizing low with
  | zero => rfl
  | one => rfl
  | more height first second =>
      simp only [fibTree, AvlTree.height, first, second]
      omega

private theorem fibTree_leftDepth (low height : Nat) :
    (fibTree w low height).leftDepth = height := by
  induction height using Nat.twoStepInduction generalizing low with
  | zero => rfl
  | one => rfl
  | more height first second =>
      simp only [fibTree, AvlTree.leftDepth, first, second]
      omega

private theorem fibTree_balanced (low height : Nat) :
    (fibTree w low height).Balanced := by
  induction height using Nat.twoStepInduction generalizing low with
  | zero => trivial
  | one => exact AvlTree.leaf_balanced _ _
  | more height first second =>
      refine ⟨?_, by decide, by decide, second _, first _⟩
      rw [fibTree_height, fibTree_height]
      omega

private theorem fibTree_toList (low height : Nat) :
    (fibTree w low height).toList =
      (List.range' low (fibTree w low height).size).map
        fun key => (BitVec.ofNat w key, 0) := by
  induction height using Nat.twoStepInduction generalizing low with
  | zero => rfl
  | one => rfl
  | more height first second =>
      have count : ∀ left right : Nat, 1 + left + right = left + (right + 1) := by
        omega
      rw [fibTree, AvlTree.toList, second, first, AvlTree.size, count,
        ← List.range'_append_1, List.map_append, List.range'_succ,
        List.map_cons]

private theorem fibTree_sorted (low height : Nat)
    (bound : low + (fibTree w low height).size ≤ 2 ^ w) :
    OrderedMap.Sorted cmpUnsignedWords (fibTree w low height).toList := by
  rw [fibTree_toList, OrderedMap.Sorted, List.pairwise_map]
  apply List.Pairwise.imp_of_mem _ (List.pairwise_lt_range' 1)
  intro key key' _ member less
  rw [List.mem_range'_1] at member
  have small : key % 2 ^ w = key := Nat.mod_eq_of_lt (by omega)
  have small' : key' % 2 ^ w = key' := Nat.mod_eq_of_lt (by omega)
  have ordered : BitVec.ofNat w key < BitVec.ofNat w key' := by
    rw [BitVec.lt_def, BitVec.toNat_ofNat, BitVec.toNat_ofNat, small, small']
    exact less
  simp [cmpUnsignedWords, ordered]

/-- A tree that is too deep can be reached. -/
theorem exists_calls_deep {tree : AvlTree (BitVec w) (BitVec w)}
    (balanced : tree.Balanced)
    (sorted : OrderedMap.Sorted cmpUnsignedWords tree.toList)
    (deep : wfmStkmax < tree.leftDepth) :
    ∃ calls answers fm, (FM.newFM none).calls calls = .ok (fm, answers) ∧
      fm.root = tree ∧ ¬ fm.Iterates := by
  have total : OrderedMap.TotalOrder (FM.newFM (w := w) none).cmp :=
    cmpUnsignedWords_total
  obtain ⟨calls, answers, reached⟩ := exists_calls total tree balanced sorted
  refine ⟨calls, answers, _, reached, rfl, fun iterates => ?_⟩
  have sound : ({ FM.newFM none with root := tree } : FM w).Sound :=
    ⟨balanced, sorted⟩
  have fits := (@FM.iterates_iff _ { FM.newFM none with root := tree } total
    sound).mp iterates
  exact Nat.not_le_of_lt deep fits

/-- A map of 32-bit words with 9227464 entries over which no iteration comes to
its end. -/
theorem wordFM_iterates_deep :
    ∃ (calls : List (Call 32)) (answers : List (Answer 32)) (fm : FM 32),
      (FM.newFM none).calls calls = .ok (fm, answers) ∧
        fm.root.size = 9227464 ∧ ¬ fm.Iterates := by
  have fib : Nat.fib (33 + 2) = 9227465 := by decide +kernel
  have size := @fibTree_size 32 0 33
  have count : (fibTree 32 0 33).size = 9227464 := by omega
  have bound : 0 + (fibTree 32 0 33).size ≤ 2 ^ 32 := by omega
  have deep : wfmStkmax < (fibTree 32 0 33).leftDepth := by
    rw [fibTree_leftDepth]
    decide
  obtain ⟨calls, answers, fm, reached, root, fails⟩ :=
    exists_calls_deep (fibTree_balanced 0 33) (fibTree_sorted 0 33 bound) deep
  refine ⟨calls, answers, fm, reached, ?_, fails⟩
  rw [root, count]

theorem wordFM_iterates_small :
    ∃ fm answers, (FM.newFM (w := 32) none).calls
        [.addToFM 5 50, .addToFM 3 30] = .ok (fm, answers) ∧
      fm.root.leftDepth = 2 ∧ fm.Iterates := by
  obtain ⟨⟨fm, answers⟩, reached, depth⟩ := exists_ok_of_map
    (show ((FM.newFM (w := 32) none).calls
      [.addToFM 5 50, .addToFM 3 30]).toOption.map
        (fun result => result.1.root.leftDepth) = some 2 by decide +kernel)
  refine ⟨fm, answers, reached, depth, ?_⟩
  apply (wordFM_iterates 32 none (by simp) _ fm answers reached).mpr
  rw [depth]
  decide

end Deep

end WordFM

end HelgrindPlus
