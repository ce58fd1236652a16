import HelgrindPlus.Coregrind.WordFM
import Mathlib.Tactic.SplitIfs

/-!
# Balance of the trees

The rotations of `m_wordfm.c` restore the balance of a tree one of whose
subtrees has grown or shrunk, and keep its entries.  What is done on one side
is what is done on the other side of the mirror image.
-/

namespace HelgrindPlus

namespace WordFM

open Outcome

namespace AvlTree

variable {α β : Type}

/-- Every balance is the height of the right subtree minus that of the left,
and is -1, 0 or 1. -/
def Balanced : AvlTree α β → Prop
  | nil => True
  | node _ _ balance left right =>
      balance = (right.height : Int) - left.height ∧
        -1 ≤ balance ∧ balance ≤ 1 ∧ left.Balanced ∧ right.Balanced

/-- The root leans to one side. -/
def Leans : AvlTree α β → Prop
  | nil => False
  | node _ _ balance _ _ => balance ≠ 0

theorem isNil_iff {tree : AvlTree α β} : tree.isNil = true ↔ tree = nil := by
  cases tree <;> simp [isNil]

theorem height_eq_zero {tree : AvlTree α β} : tree.height = 0 ↔ tree = nil := by
  cases tree <;> simp [height]

/-- What a rotation keeps: a balanced tree of the height with the entries. -/
structure Rebalanced (height : Nat) (entries : List (α × β))
    (tree : AvlTree α β) : Prop where
  balanced : tree.Balanced
  height_eq : tree.height = height
  toList_eq : tree.toList = entries

section Rotations

variable {key : α} {val : β} {balance : Int} {left right : AvlTree α β}

/-- A left subtree that is two higher than the right one and leans to the
left. -/
theorem singleRight_spec (leftBalanced : left.Balanced)
    (rightBalanced : right.Balanced) (high : left.height = right.height + 2)
    (leans : left.balanceOf = .ok (-1)) :
    Returns ((node key val balance left right).singleRight 0 0)
      (Rebalanced left.height (left.toList ++ (key, val) :: right.toList)) := by
  cases left with
  | nil => cases leans
  | node lKey lVal lBalance ll lr =>
      obtain rfl : lBalance = -1 := Except.ok.inj leans
      simp only [Balanced, height] at leftBalanced high
      refine ⟨_, rfl, ?_, ?_, ?_⟩
      · simp only [Balanced, height]
        exact ⟨by omega, by omega, by omega, leftBalanced.2.2.2.1, by omega,
          by omega, by omega, leftBalanced.2.2.2.2, rightBalanced⟩
      · simp only [height]
        omega
      · simp [toList]

/-- The same for a left subtree with subtrees of one height. -/
theorem singleRight_level (leftBalanced : left.Balanced)
    (rightBalanced : right.Balanced) (high : left.height = right.height + 2)
    (level : left.balanceOf = .ok 0) :
    Returns ((node key val balance left right).singleRight 1 (-1))
      (Rebalanced (left.height + 1)
        (left.toList ++ (key, val) :: right.toList)) := by
  cases left with
  | nil => cases level
  | node lKey lVal lBalance ll lr =>
      obtain rfl : lBalance = 0 := Except.ok.inj level
      simp only [Balanced, height] at leftBalanced high
      refine ⟨_, rfl, ?_, ?_, ?_⟩
      · simp only [Balanced, height]
        exact ⟨by omega, by omega, by omega, leftBalanced.2.2.2.1, by omega,
          by omega, by omega, leftBalanced.2.2.2.2, rightBalanced⟩
      · simp only [height]
        omega
      · simp [toList]

private theorem doubleRight_spec (leftBalanced : left.Balanced)
    (rightBalanced : right.Balanced) (high : left.height = right.height + 2)
    (leans : left.balanceOf = .ok 1) :
    Returns ((node key val balance left right).doubleRight)
      (Rebalanced left.height (left.toList ++ (key, val) :: right.toList)) := by
  cases left with
  | nil => cases leans
  | node lKey lVal lBalance ll lr =>
      obtain rfl : lBalance = 1 := Except.ok.inj leans
      cases lr with
      | nil =>
          simp only [Balanced, height] at leftBalanced
          omega
      | node mKey mVal mBalance ml mr =>
          simp only [Balanced, height] at leftBalanced high
          obtain ⟨_, _, _, llBalanced, _, _, _, mlBalanced, mrBalanced⟩ :=
            leftBalanced
          have three : mBalance = -1 ∨ mBalance = 1 ∨ mBalance = 0 := by omega
          obtain rfl | rfl | rfl := three <;>
            refine ⟨_, rfl, ?_, ?_, ?_⟩ <;>
            simp only [Balanced, height, toList, List.append_assoc,
              List.cons_append]
          all_goals first
            | omega
            | exact ⟨by omega, by omega, by omega, ⟨by omega, by omega,
                by omega, llBalanced, mlBalanced⟩, by omega, by omega,
                by omega, mrBalanced, rightBalanced⟩

end Rotations

/-- The tree with left and right exchanged. -/
def mirror : AvlTree α β → AvlTree α β
  | nil => nil
  | node key val balance left right =>
      node key val (-balance) right.mirror left.mirror

@[simp] theorem mirror_mirror (tree : AvlTree α β) :
    tree.mirror.mirror = tree := by
  induction tree with
  | nil => rfl
  | node key val balance left right leftInduction rightInduction =>
      simp [mirror, leftInduction, rightInduction]

@[simp] theorem height_mirror (tree : AvlTree α β) :
    tree.mirror.height = tree.height := by
  induction tree with
  | nil => rfl
  | node key val balance left right leftInduction rightInduction =>
      simp [mirror, height, leftInduction, rightInduction, Nat.max_comm]

@[simp] theorem toList_mirror (tree : AvlTree α β) :
    tree.mirror.toList = tree.toList.reverse := by
  induction tree with
  | nil => rfl
  | node key val balance left right leftInduction rightInduction =>
      simp [mirror, toList, leftInduction, rightInduction]

theorem Balanced.mirror {tree : AvlTree α β} (balanced : tree.Balanced) :
    tree.mirror.Balanced := by
  induction tree with
  | nil => trivial
  | node key val balance left right leftInduction rightInduction =>
      obtain ⟨difference, low, high, leftBalanced, rightBalanced⟩ := balanced
      refine ⟨?_, by omega, by omega, rightInduction rightBalanced,
        leftInduction leftBalanced⟩
      rw [height_mirror, height_mirror]
      omega

theorem Rebalanced.mirror {height : Nat} {entries : List (α × β)}
    {tree : AvlTree α β} (rebalanced : Rebalanced height entries tree) :
    Rebalanced height entries.reverse tree.mirror :=
  ⟨rebalanced.balanced.mirror,
    (height_mirror tree).trans rebalanced.height_eq,
    (toList_mirror tree).trans (congrArg List.reverse rebalanced.toList_eq)⟩

private theorem singleLeft_mirror (tree : AvlTree α β) (root right : Int) :
    tree.mirror.singleLeft root right =
      (tree.singleRight (-root) (-right)).map AvlTree.mirror := by
  cases tree with
  | nil => rfl
  | node key val balance left right =>
      cases left with
      | nil => rfl
      | node lKey lVal lBalance ll lr =>
          simp [AvlTree.mirror, singleLeft, singleRight, swl, swr, withBalance,
            leftOf, rightOf, withLeft, withRight, pure, Except.pure, bind,
            Except.bind, Except.map]

theorem withBalances_mirror (tree : AvlTree α β) (root left right : Int) :
    tree.mirror.withBalances root left right =
      (tree.withBalances (-root) (-right) (-left)).map AvlTree.mirror := by
  cases tree with
  | nil => rfl
  | node key val balance l r =>
      cases l <;> cases r <;>
        simp [AvlTree.mirror, withBalances, withBalance, pure, Except.pure, bind,
          Except.bind, Except.map]

private theorem nasty_mirror (tree : AvlTree α β) :
    tree.mirror.nasty = tree.nasty.map AvlTree.mirror := by
  cases tree with
  | nil => rfl
  | node key val balance left right =>
      have flip : ∀ root l r : Int,
          (node key val balance left right).mirror.withBalances root l r =
            ((node key val balance left right).withBalances (-root) (-r)
              (-l)).map AvlTree.mirror :=
        withBalances_mirror _
      have leaning : (node key val balance left right).mirror.nasty =
          if -balance = -1 then
            (node key val balance left right).mirror.withBalances 0 0 1
          else if -balance = 1 then
            (node key val balance left right).mirror.withBalances 0 (-1) 0
          else if -balance = 0 then
            (node key val balance left right).mirror.withBalances 0 0 0
          else .error .tlAssert := rfl
      have plain : (node key val balance left right).nasty =
          if balance = -1 then
            (node key val balance left right).withBalances 0 0 1
          else if balance = 1 then
            (node key val balance left right).withBalances 0 (-1) 0
          else if balance = 0 then
            (node key val balance left right).withBalances 0 0 0
          else .error .tlAssert := rfl
      rw [leaning, plain]
      split_ifs <;> first | omega | (rw [flip]; simp) | rfl

private theorem doubleLeft_mirror (tree : AvlTree α β) :
    tree.mirror.doubleLeft = tree.doubleRight.map AvlTree.mirror := by
  cases tree with
  | nil => rfl
  | node key val balance left right =>
      cases left with
      | nil => rfl
      | node lKey lVal lBalance ll lr =>
          cases lr with
          | nil => rfl
          | node mKey mVal mBalance ml mr =>
              exact nasty_mirror (node mKey mVal mBalance
                (node lKey lVal lBalance ll ml)
                (node key val balance mr right))

/-- The exchange of left and right in a result. -/
def mirrorResult (result : AvlTree α β × Bool) : AvlTree α β × Bool :=
  (result.1.mirror, result.2)

theorem mirror_root (key : α) (val : β) (balance balance' : Int)
    (left right : AvlTree α β) (opposite : balance' = -balance) :
    node key val balance left right =
      (node key val balance' right.mirror left.mirror).mirror := by
  subst opposite
  simp [AvlTree.mirror]

private theorem rotateLeft_mirror (root right : AvlTree α β) :
    root.mirror.rotateLeft right.mirror =
      (root.rotateRight right).map AvlTree.mirror := by
  cases right with
  | nil => rfl
  | node key val balance l r =>
      have flipped : (node key val balance l r).mirror.balanceOf =
          .ok (-balance) := rfl
      have plain : (node key val balance l r).balanceOf = .ok balance := rfl
      simp only [rotateLeft, rotateRight, flipped, plain, ok_bind,
        singleLeft_mirror, doubleLeft_mirror, Int.neg_zero]
      by_cases negative : balance < 0
      · rw [if_pos negative, if_pos (by omega)]
      · rw [if_neg negative, if_neg (by omega)]

private theorem map_pair (result : Except Stop (AvlTree α β)) (flag : Bool) :
    (do return (← result.map AvlTree.mirror, flag) :
      Except Stop (AvlTree α β × Bool)) =
      (do return (← result, flag) : Except Stop (AvlTree α β × Bool)).map
        mirrorResult := by
  cases result <;> rfl

/-- What is done after growth on the right is done after growth on the left of
the mirror image. -/
theorem grownRight_mirror (key : α) (val : β) (balance : Int)
    (left right : AvlTree α β) :
    grownRight key val balance left right =
      (grownLeft key val (-balance) right.mirror left.mirror).map
        mirrorResult := by
  have image := mirror_root key val (balance + 1) (-balance - 1) left right
    (by omega)
  have rotated : (node key val (balance + 1) left right).rotateLeft right =
      ((node key val (-balance - 1) right.mirror left.mirror).rotateRight
        right.mirror).map AvlTree.mirror := by
    rw [image, ← rotateLeft_mirror, mirror_mirror]
  simp only [grownRight, grownLeft, rotated, map_pair]
  by_cases less : balance = -1
  · rw [if_pos less, if_pos (by omega), image]
    rfl
  · by_cases zero : balance = 0
    · rw [if_neg less, if_pos zero, if_neg (by omega), if_pos (by omega), image]
      rfl
    · by_cases one : balance = 1
      · rw [if_neg less, if_neg zero, if_pos one, if_neg (by omega),
          if_neg (by omega), if_pos (by omega)]
      · rw [if_neg less, if_neg zero, if_neg one, if_neg (by omega),
          if_neg (by omega), if_neg (by omega)]
        rfl

private theorem shrinkLeft_mirror (root right : AvlTree α β) :
    root.mirror.shrinkLeft right.mirror =
      (root.shrinkRight right).map mirrorResult := by
  cases right with
  | nil => rfl
  | node key val balance l r =>
      have flipped : (node key val balance l r).mirror.balanceOf =
          .ok (-balance) := rfl
      have plain : (node key val balance l r).balanceOf = .ok balance := rfl
      simp only [shrinkLeft, shrinkRight, flipped, plain, ok_bind,
        singleLeft_mirror, doubleLeft_mirror, map_pair, Int.neg_zero, Int.neg_neg]
      by_cases zero : balance = 0
      · rw [if_pos zero, if_pos (by omega)]
      · by_cases less : balance = -1
        · rw [if_neg zero, if_pos less, if_neg (by omega), if_pos (by omega)]
        · by_cases one : balance = 1
          · rw [if_neg zero, if_neg less, if_pos one, if_neg (by omega),
              if_neg (by omega), if_pos (by omega)]
          · rw [if_neg zero, if_neg less, if_neg one, if_neg (by omega),
              if_neg (by omega), if_neg (by omega)]
            rfl

private theorem removedLeft_mirror (key : α) (val : β) (balance : Int)
    (left right : AvlTree α β) (ch : Bool) :
    removedLeft key val balance right left ch =
      (removedRight key val (-balance) right.mirror left.mirror ch).map
        mirrorResult := by
  have image := mirror_root key val (balance + 1) (-balance - 1) left right
    (by omega)
  have shrunk : (node key val (balance + 1) left right).shrinkLeft right =
      ((node key val (-balance - 1) right.mirror left.mirror).shrinkRight
        right.mirror).map mirrorResult := by
    rw [image, ← shrinkLeft_mirror, mirror_mirror]
  cases ch with
  | false =>
      simp only [removedLeft, removedRight, Bool.false_eq_true, if_false]
      rw [mirror_root key val balance (-balance) left right rfl]
      rfl
  | true =>
      simp only [removedLeft, removedRight, if_true, shrunk]
      by_cases less : balance = -1
      · rw [if_pos less, if_pos (by omega), image]
        rfl
      · by_cases zero : balance = 0
        · rw [if_neg less, if_pos zero, if_neg (by omega), if_pos (by omega),
            image]
          rfl
        · by_cases one : balance = 1
          · rw [if_neg less, if_neg zero, if_pos one, if_neg (by omega),
              if_neg (by omega), if_pos (by omega)]
          · rw [if_neg less, if_neg zero, if_neg one, if_neg (by omega),
              if_neg (by omega), if_neg (by omega)]
            rfl

section Rebalancing

variable {key : α} {val : β} {balance : Int} {left right : AvlTree α β}

theorem balanceOf_of_leans (balanced : left.Balanced) (leans : left.Leans) :
    left.balanceOf = .ok (-1) ∨ left.balanceOf = .ok 1 := by
  cases left with
  | nil => exact leans.elim
  | node lKey lVal lBalance ll lr =>
      obtain ⟨_, low, high, _⟩ := balanced
      have two : lBalance = -1 ∨ lBalance = 1 := by
        have : lBalance ≠ 0 := leans
        omega
      obtain rfl | rfl := two
      · exact .inl rfl
      · exact .inr rfl

theorem grownLeft_spec {oldHeight : Nat} (leftBalanced : left.Balanced)
    (rightBalanced : right.Balanced) (leans : left.Leans)
    (difference : balance = (right.height : Int) - oldHeight)
    (low : -1 ≤ balance) (high : balance ≤ 1)
    (grown : left.height = oldHeight + 1) :
    Returns (grownLeft key val balance left right) fun result =>
      Rebalanced (max oldHeight right.height + 1 + result.2.toNat)
        (left.toList ++ (key, val) :: right.toList) result.1 ∧
      (result.2 = true → result.1.Leans) := by
  unfold grownLeft
  by_cases one : balance = 1
  · rw [if_pos one]
    refine Returns.pure ⟨⟨⟨by omega, by omega, by omega, leftBalanced,
      rightBalanced⟩, ?_, rfl⟩, (absurd · Bool.false_ne_true)⟩
    simp only [height, Bool.toNat_false]
    omega
  · by_cases zero : balance = 0
    · rw [if_neg one, if_pos zero]
      refine Returns.pure ⟨⟨⟨by omega, by omega, by omega, leftBalanced,
        rightBalanced⟩, ?_, rfl⟩, fun _ => ?_⟩
      · simp only [height, Bool.toNat_true]
        omega
      · simp only [Leans]
        omega
    · rw [if_neg one, if_neg zero, if_pos (by omega)]
      have tall : left.height = right.height + 2 := by omega
      have sum : max oldHeight right.height + 1 = left.height := by omega
      obtain leftward | rightward := balanceOf_of_leans leftBalanced leans
      · obtain ⟨root, rotated, rebalanced⟩ :=
          @singleRight_spec _ _ key val (balance - 1) _ _ leftBalanced
            rightBalanced tall leftward
        refine ⟨(root, false), ?_, by simpa [sum] using rebalanced,
          (absurd · Bool.false_ne_true)⟩
        rw [rotateRight, leftward, ok_bind, if_pos (by decide), rotated]
        rfl
      · obtain ⟨root, rotated, rebalanced⟩ :=
          @doubleRight_spec _ _ key val (balance - 1) _ _ leftBalanced
            rightBalanced tall rightward
        refine ⟨(root, false), ?_, by simpa [sum] using rebalanced,
          (absurd · Bool.false_ne_true)⟩
        rw [rotateRight, rightward, ok_bind, if_neg (by decide), rotated]
        rfl

theorem Leans.mirror {tree : AvlTree α β} (leans : tree.Leans) :
    tree.mirror.Leans := by
  cases tree with
  | nil => exact leans
  | node key val balance left right =>
      have : balance ≠ 0 := leans
      exact fun zero => this (by omega)

theorem grownRight_spec {oldHeight : Nat} (leftBalanced : left.Balanced)
    (rightBalanced : right.Balanced) (leans : right.Leans)
    (difference : balance = (oldHeight : Int) - left.height)
    (low : -1 ≤ balance) (high : balance ≤ 1)
    (grown : right.height = oldHeight + 1) :
    Returns (grownRight key val balance left right) fun result =>
      Rebalanced (max left.height oldHeight + 1 + result.2.toNat)
        (left.toList ++ (key, val) :: right.toList) result.1 ∧
      (result.2 = true → result.1.Leans) := by
  obtain ⟨⟨root, flag⟩, returned, rebalanced, leaning⟩ :=
    @grownLeft_spec _ _ key val (-balance) right.mirror left.mirror oldHeight
      rightBalanced.mirror leftBalanced.mirror leans.mirror
      (by rw [height_mirror]; omega) (by omega) (by omega)
      (by rw [height_mirror, grown])
  refine ⟨(root.mirror, flag), ?_, ?_, fun grew => (leaning grew).mirror⟩
  · rw [grownRight_mirror, returned]
    rfl
  · have image := rebalanced.mirror
    simp only [toList_mirror, List.reverse_append, List.reverse_cons,
      List.reverse_reverse, List.append_assoc, List.singleton_append,
      height_mirror] at image
    simpa only [Nat.max_comm] using image

theorem removedRight_spec {oldHeight : Nat} {ch : Bool}
    (leftBalanced : left.Balanced) (rightBalanced : right.Balanced)
    (difference : balance = (oldHeight : Int) - left.height)
    (low : -1 ≤ balance) (high : balance ≤ 1)
    (shrunk : right.height + ch.toNat = oldHeight) :
    Returns (removedRight key val balance left right ch) fun result =>
      ∃ newHeight, newHeight + result.2.toNat =
          max left.height oldHeight + 1 ∧
        Rebalanced newHeight (left.toList ++ (key, val) :: right.toList)
          result.1 := by
  unfold removedRight
  cases ch with
  | false =>
      simp only [Bool.toNat_false, Nat.add_zero] at shrunk
      subst shrunk
      exact Returns.pure ⟨_, rfl,
        ⟨difference, low, high, leftBalanced, rightBalanced⟩, rfl, rfl⟩
  | true =>
      simp only [Bool.toNat_true] at shrunk
      simp only [if_true]
      by_cases one : balance = 1
      · rw [if_pos one]
        refine Returns.pure ⟨max left.height oldHeight, rfl, ⟨by omega,
          by omega, by omega, leftBalanced, rightBalanced⟩, ?_, rfl⟩
        simp only [height]
        omega
      · by_cases zero : balance = 0
        · rw [if_neg one, if_pos zero]
          refine Returns.pure ⟨max left.height oldHeight + 1, rfl, ⟨by omega,
            by omega, by omega, leftBalanced, rightBalanced⟩, ?_, rfl⟩
          simp only [height]
          omega
        · rw [if_neg one, if_neg zero, if_pos (by omega)]
          have tall : left.height = right.height + 2 := by omega
          have sum : max left.height oldHeight + 1 = left.height + 1 := by
            omega
          have three : left.balanceOf = .ok 0 ∨ left.balanceOf = .ok (-1) ∨
              left.balanceOf = .ok 1 := by
            cases left with
            | nil => simp [height] at tall
            | node lKey lVal lBalance ll lr =>
                by_cases leans : lBalance = 0
                · subst leans
                  exact .inl rfl
                · exact .inr (balanceOf_of_leans leftBalanced leans)
          obtain level | leftward | rightward := three
          · obtain ⟨root, rotated, rebalanced⟩ :=
              @singleRight_level _ _ key val (balance - 1) _ _ leftBalanced
                rightBalanced tall level
            refine ⟨(root, false), ?_, _, sum.symm, rebalanced⟩
            rw [shrinkRight, level, ok_bind, if_pos rfl, rotated]
            rfl
          · obtain ⟨root, rotated, rebalanced⟩ :=
              @singleRight_spec _ _ key val (balance - 1) _ _ leftBalanced
                rightBalanced tall leftward
            refine ⟨(root, true), ?_, _, sum.symm, rebalanced⟩
            rw [shrinkRight, leftward, ok_bind, if_neg (by decide), if_pos rfl,
              rotated]
            rfl
          · obtain ⟨root, rotated, rebalanced⟩ :=
              @doubleRight_spec _ _ key val (balance - 1) _ _ leftBalanced
                rightBalanced tall rightward
            refine ⟨(root, true), ?_, _, sum.symm, rebalanced⟩
            rw [shrinkRight, rightward, ok_bind, if_neg (by decide),
              if_neg (by decide), if_pos rfl, rotated]
            rfl

theorem removedLeft_spec {oldHeight : Nat} {ch : Bool}
    (leftBalanced : left.Balanced) (rightBalanced : right.Balanced)
    (difference : balance = (right.height : Int) - oldHeight)
    (low : -1 ≤ balance) (high : balance ≤ 1)
    (shrunk : left.height + ch.toNat = oldHeight) :
    Returns (removedLeft key val balance right left ch) fun result =>
      ∃ newHeight, newHeight + result.2.toNat =
          max oldHeight right.height + 1 ∧
        Rebalanced newHeight (left.toList ++ (key, val) :: right.toList)
          result.1 := by
  obtain ⟨⟨root, flag⟩, returned, newHeight, sum, rebalanced⟩ :=
    @removedRight_spec _ _ key val (-balance) right.mirror left.mirror
      oldHeight ch rightBalanced.mirror leftBalanced.mirror
      (by rw [height_mirror]; omega) (by omega) (by omega)
      (by rw [height_mirror, shrunk])
  rw [height_mirror, Nat.max_comm] at sum
  refine ⟨(root.mirror, flag), ?_, newHeight, sum, ?_⟩
  · rw [removedLeft_mirror, returned]
    rfl
  · have image := rebalanced.mirror
    simpa only [toList_mirror, List.reverse_append, List.reverse_cons,
      List.reverse_reverse, List.append_assoc, List.singleton_append] using image

end Rebalancing

end AvlTree

end WordFM

end HelgrindPlus
