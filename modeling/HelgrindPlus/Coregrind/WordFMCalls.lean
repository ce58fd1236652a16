import HelgrindPlus.Coregrind.AvlBalance
import HelgrindPlus.Lib.OrderedMap

/-!
# Word maps are finite maps

Every sequence of calls of `m_wordfm.c` is answered as by a finite map, and the
tree stays a balanced search tree with the entries of that map.
-/

namespace HelgrindPlus

namespace WordFM

open Outcome

namespace AvlTree

variable {α β : Type}

section Searching

open OrderedMap

variable {kCmp : α → α → Int} (total : TotalOrder kCmp)

/-- The result of an insertion: a balanced tree with the entry added, the old
value of the key, and a root that leans to one side if the tree has grown. -/
structure Inserted (kCmp : α → α → Int) (newKey : α) (newVal : β)
    (tree : AvlTree α β) (result : AvlTree α β × Option β × Bool) : Prop where
  rebalanced : Rebalanced (tree.height + result.2.2.toNat)
    (OrderedMap.add kCmp newKey newVal tree.toList) result.1
  oldV : result.2.1 =
    (OrderedMap.lookup kCmp newKey tree.toList).map Prod.snd
  leans : result.2.2 = true → tree ≠ nil → result.1.Leans

theorem leaf_balanced (key : α) (val : β) :
    (node key val 0 nil nil).Balanced :=
  ⟨rfl, by decide, by decide, trivial, trivial⟩

section Node

variable {newKey key : α} {newVal val : β} {balance : Int}
  {left right : AvlTree α β} {oldV : Option β} {grown : Bool}

/-- The new node becomes a child of the node. -/
theorem inserted_child (offset : Int) {root : AvlTree α β}
    (rootBalanced : root.Balanced) (leansTo : root.balanceOf =
      .ok (balance + offset)) (moves : offset = -1 ∨ offset = 1)
    (added : root.toList = OrderedMap.add kCmp newKey newVal
      (node key val balance left right).toList)
    (absent : OrderedMap.lookup kCmp newKey
      (node key val balance left right).toList = none)
    (height' : root.height = (node key val balance left right).height +
      (decide (balance = 0)).toNat) :
    Inserted kCmp newKey newVal (node key val balance left right)
      (root, none, balance = 0) := by
  refine ⟨⟨rootBalanced, height', added⟩, by rw [absent]; rfl, ?_⟩
  intro grown _
  have zero : balance = 0 := by simpa using grown
  cases root with
  | nil => cases leansTo
  | node rKey rVal rBalance rl rr =>
      have : rBalance = balance + offset := Except.ok.inj leansTo
      have : rBalance ≠ 0 := by omega
      exact this

variable (balanced : (node key val balance left right).Balanced)
  (sorted : Sorted kCmp (node key val balance left right).toList)

include total balanced sorted

private theorem inserted_left {left' : AvlTree α β}
    (below : 0 < kCmp key newKey)
    (inserted : Inserted kCmp newKey newVal left (left', oldV, grown))
    (nonempty : left ≠ nil) :
    Returns (if grown then do
        let (root, grown') ← grownLeft key val balance left' right
        return (root, oldV, grown')
      else return (node key val balance left' right, oldV, false))
      (Inserted kCmp newKey newVal (node key val balance left right)) := by
  obtain ⟨difference, low, high, _, rightBalanced⟩ := balanced
  obtain ⟨⟨leftBalanced, height', entries⟩, old, leans⟩ := inserted
  have added := add_below total sorted below newVal
  have looked := lookup_below total sorted below
  cases grown with
  | false =>
      refine Returns.pure ⟨⟨⟨?_, low, high, leftBalanced, rightBalanced⟩, ?_,
        ?_⟩, ?_, nofun⟩
      · rw [height', difference]
        rfl
      · simp [height, height']
      · rw [toList, toList, added, entries]
      · rw [toList, looked]
        exact old
  | true =>
      obtain ⟨⟨root, grown'⟩, rotated, rebalanced, leans'⟩ :=
        @grownLeft_spec _ _ key val _ _ _ _ leftBalanced rightBalanced
          (leans rfl nonempty) difference low high height'
      simp only [if_true]
      rw [rotated, ok_bind]
      refine Returns.pure ⟨?_, ?_, fun grew _ => leans' grew⟩
      · rw [toList, added, ← entries]
        exact rebalanced
      · rw [toList, looked]
        exact old

private theorem inserted_right {right' : AvlTree α β}
    (above : kCmp key newKey < 0)
    (inserted : Inserted kCmp newKey newVal right (right', oldV, grown))
    (nonempty : right ≠ nil) :
    Returns (if grown then do
        let (root, grown') ← grownRight key val balance left right'
        return (root, oldV, grown')
      else return (node key val balance left right', oldV, false))
      (Inserted kCmp newKey newVal (node key val balance left right)) := by
  obtain ⟨difference, low, high, leftBalanced, _⟩ := balanced
  obtain ⟨⟨rightBalanced, height', entries⟩, old, leans⟩ := inserted
  have added := add_above total sorted above newVal
  have looked := lookup_above total sorted above
  cases grown with
  | false =>
      refine Returns.pure ⟨⟨⟨?_, low, high, leftBalanced, rightBalanced⟩, ?_,
        ?_⟩, ?_, nofun⟩
      · rw [height', difference]
        rfl
      · simp [height, height']
      · rw [toList, toList, added, entries]
      · rw [toList, looked]
        exact old
  | true =>
      obtain ⟨⟨root, grown'⟩, rotated, rebalanced, leans'⟩ :=
        @grownRight_spec _ _ key val _ _ _ _ leftBalanced rightBalanced
          (leans rfl nonempty) difference low high height'
      simp only [if_true]
      rw [rotated, ok_bind]
      refine Returns.pure ⟨?_, ?_, fun grew _ => leans' grew⟩
      · rw [toList, added, ← entries]
        exact rebalanced
      · rw [toList, looked]
        exact old

end Node

include total in
/-- Insertion into a balanced search tree. -/
theorem insertWrk_spec (newKey : α) (newVal : β) (tree : AvlTree α β)
    (balanced : tree.Balanced) (sorted : Sorted kCmp tree.toList) :
    Returns (tree.insertWrk kCmp newKey newVal)
      (Inserted kCmp newKey newVal tree) := by
  induction tree with
  | nil =>
      exact Returns.pure ⟨⟨leaf_balanced newKey newVal, rfl, rfl⟩, rfl,
        fun _ none => (none rfl).elim⟩
  | node key val balance left right leftInduction rightInduction =>
      have whole := balanced
      obtain ⟨difference, low, high, leftBalanced, rightBalanced⟩ := balanced
      rw [insertWrk]
      by_cases below : kCmp key newKey > 0
      · rw [if_pos below]
        by_cases none : left = nil
        · subst none
          have empty : (nil : AvlTree α β).isNil = true := rfl
          rw [if_pos empty]
          simp only [height] at difference
          apply Returns.pure
          apply inserted_child (-1)
          · refine ⟨?_, by omega, by omega, leaf_balanced _ _, rightBalanced⟩
            simp only [height]
            omega
          · rfl
          · exact .inl rfl
          · exact (add_below total sorted below newVal).symm
          · exact lookup_below total sorted below
          · by_cases zero : balance = 0 <;> simp [height, zero] <;> omega
        · rw [if_neg (by simpa [isNil_iff] using none)]
          obtain ⟨result, returned, inserted⟩ :=
            leftInduction leftBalanced sorted.of_left
          rw [returned, ok_bind]
          exact inserted_left total whole sorted below inserted none
      · rw [if_neg below]
        by_cases above : kCmp key newKey < 0
        · rw [if_pos above]
          by_cases none : right = nil
          · subst none
            have empty : (nil : AvlTree α β).isNil = true := rfl
            rw [if_pos empty]
            simp only [height] at difference
            apply Returns.pure
            apply inserted_child 1
            · refine ⟨?_, by omega, by omega, leftBalanced, leaf_balanced _ _⟩
              simp only [height]
              omega
            · rfl
            · exact .inr rfl
            · exact (add_above total sorted above newVal).symm
            · exact lookup_above total sorted above
            · by_cases zero : balance = 0 <;> simp [height, zero] <;> omega
          · rw [if_neg (by simpa [isNil_iff] using none)]
            obtain ⟨result, returned, inserted⟩ :=
              rightInduction rightBalanced sorted.of_right
            rw [returned, ok_bind]
            exact inserted_right total whole sorted above inserted none
        · rw [if_neg above]
          have same : kCmp key newKey = 0 := by omega
          refine Returns.pure
            ⟨⟨whole, rfl, ?_⟩, ?_, (absurd · Bool.false_ne_true)⟩
          · exact (add_same total sorted same newVal).symm
          · rw [toList, lookup_same total sorted same]
            rfl

omit total

private theorem rightmost_spec {tree : AvlTree α β} (nonempty : tree ≠ nil) :
    ∃ front entry, tree.rightmost = .ok entry ∧
      tree.toList = front ++ [entry] := by
  induction tree with
  | nil => exact (nonempty rfl).elim
  | node key val balance left right _ induction =>
      rw [rightmost]
      by_cases none : right = nil
      · subst none
        exact ⟨left.toList, (key, val), rfl, rfl⟩
      · obtain ⟨front, entry, found, entries⟩ := induction none
        rw [if_neg (by simpa [isNil_iff] using none)]
        exact ⟨left.toList ++ (key, val) :: front, entry, found,
          by simp [toList, entries]⟩

private theorem leftmost_spec {tree : AvlTree α β} (nonempty : tree ≠ nil) :
    ∃ entry rest, tree.leftmost = .ok entry ∧
      tree.toList = entry :: rest := by
  induction tree with
  | nil => exact (nonempty rfl).elim
  | node key val balance left right induction _ =>
      rw [leftmost]
      by_cases none : left = nil
      · subst none
        exact ⟨(key, val), right.toList, rfl, rfl⟩
      · obtain ⟨entry, rest, found, entries⟩ := induction none
        rw [if_neg (by simpa [isNil_iff] using none)]
        exact ⟨entry, rest ++ (key, val) :: right.toList, found,
          by simp [toList, entries]⟩

/-- The result of a removal: a balanced tree without the entry, which is lower
by one if the tree has shrunk. -/
def Removed (kCmp : α → α → Int) (entry : α × β) (tree : AvlTree α β)
    (result : AvlTree α β × Bool) : Prop :=
  ∃ newHeight, newHeight + result.2.toNat = tree.height ∧
    Rebalanced newHeight (OrderedMap.remove kCmp entry.1 tree.toList) result.1

section Root

variable {key : α} {val : β} {balance : Int} {left right : AvlTree α β}
  {ch : Bool} (balanced : (node key val balance left right).Balanced)
  (sorted : Sorted kCmp (node key val balance left right).toList)

include total balanced sorted

/-- The root is replaced by the last node of the left subtree, which is the
higher one. -/
theorem replaced_by_left {left' : AvlTree α β} {front : List (α × β)}
    {entry : α × β} (leftward : balance < 0)
    (entries : left.toList = front ++ [entry])
    (removed : Removed kCmp entry left (left', ch)) :
    Returns (do
        let (root, ch') ← removedLeft key val balance right left' ch
        root.replaceRoot entry ch')
      (Removed kCmp (key, val) (node key val balance left right)) := by
  obtain ⟨difference, low, high, leftBalanced, rightBalanced⟩ := balanced
  obtain ⟨newHeight, sum, leftBalanced', height', entries'⟩ := removed
  replace height' : left'.height = newHeight := height'
  have all : left'.toList = front := by
    refine entries'.trans ?_
    rw [entries]
    refine (remove_same total ?_ (total.refl entry.1)).trans
      (List.append_nil front)
    rw [← entries]
    exact sorted.of_left
  have rest : left'.toList ++ entry :: right.toList =
      OrderedMap.remove kCmp key (left.toList ++ (key, val) :: right.toList) := by
    rw [remove_same total sorted (total.refl key), all, entries]
    simp
  have one : balance = -1 := by omega
  subst one
  cases ch with
  | true =>
      replace sum : newHeight + 1 = left.height := sum
      refine Returns.pure ⟨newHeight + 1, ?_, ⟨?_, by decide, by decide,
        leftBalanced', rightBalanced⟩, ?_, rest⟩
      · simp only [height]
        change newHeight + 1 + 1 = _
        omega
      · omega
      · simp only [height]
        omega
  | false =>
      replace sum : newHeight = left.height := sum
      refine Returns.pure ⟨newHeight + 1, ?_, ⟨?_, by decide, by decide,
        leftBalanced', rightBalanced⟩, ?_, rest⟩
      · simp only [height]
        change newHeight + 1 + 0 = _
        omega
      · omega
      · simp only [height]
        omega

/-- The root is replaced by the first node of the right subtree, which is not
lower. -/
theorem replaced_by_right {right' : AvlTree α β} {rest : List (α × β)}
    {entry : α × β} (rightward : ¬ balance < 0)
    (entries : right.toList = entry :: rest)
    (removed : Removed kCmp entry right (right', ch)) :
    Returns (do
        let (root, ch') ← removedRight key val balance left right' ch
        root.replaceRoot entry ch')
      (Removed kCmp (key, val) (node key val balance left right)) := by
  obtain ⟨difference, low, high, leftBalanced, rightBalanced⟩ := balanced
  obtain ⟨newHeight, sum, rightBalanced', height', entries'⟩ := removed
  replace height' : right'.height = newHeight := height'
  have all : right'.toList = rest := by
    refine entries'.trans ?_
    have sorted' := sorted.of_right
    rw [entries] at sorted' ⊢
    exact @remove_same _ _ _ _ total [] _ _ sorted' (total.refl entry.1)
  have rest : left.toList ++ entry :: right'.toList =
      OrderedMap.remove kCmp key (left.toList ++ (key, val) :: right.toList) := by
    rw [remove_same total sorted (total.refl key), all, entries]
  have two : balance = 0 ∨ balance = 1 := by omega
  cases ch with
  | true =>
      replace sum : newHeight + 1 = right.height := sum
      obtain rfl | rfl := two
      · refine Returns.pure ⟨newHeight + 2, ?_, ⟨?_, by decide, by decide,
          leftBalanced, rightBalanced'⟩, ?_, rest⟩
        · simp only [height]
          change newHeight + 2 + 0 = _
          omega
        · omega
        · simp only [height]
          omega
      · refine Returns.pure ⟨newHeight + 1, ?_, ⟨?_, by decide, by decide,
          leftBalanced, rightBalanced'⟩, ?_, rest⟩
        · simp only [height]
          change newHeight + 1 + 1 = _
          omega
        · omega
        · simp only [height]
          omega
  | false =>
      replace sum : newHeight = right.height := sum
      have same : (node key val balance left right).height =
          newHeight + 1 := by
        simp only [height]
        omega
      have unchanged : Removed kCmp (key, val)
          (node key val balance left right)
          (node entry.1 entry.2 balance left right', false) := by
        refine ⟨newHeight + 1, same.symm, ⟨by omega, low, high, leftBalanced,
          rightBalanced'⟩, ?_, rest⟩
        simp only [height]
        omega
      obtain rfl | rfl := two <;> exact Returns.pure unchanged

end Root

variable [DecidableEq α] [DecidableEq β]

include total in
/-- Removal of an entry of a balanced search tree. -/
theorem removeWrk_spec (tree : AvlTree α β) (entry : α × β)
    (balanced : tree.Balanced) (sorted : Sorted kCmp tree.toList)
    (member : entry ∈ tree.toList) :
    Returns (tree.removeWrk kCmp entry) (Removed kCmp entry tree) := by
  induction tree generalizing entry with
  | nil => cases member
  | node key val balance left right leftInduction rightInduction =>
      have whole := balanced
      obtain ⟨difference, low, high, leftBalanced, rightBalanced⟩ := balanced
      have leftOf : ∀ {other : α × β}, other ∈ left.toList →
          0 < kCmp key other.1 :=
        fun inside => (total.opposite _ _).mp (sorted.left_lt _ inside)
      have rightOf : ∀ {other : α × β}, other ∈ right.toList →
          kCmp key other.1 < 0 :=
        fun inside => sorted.lt_right _ inside
      rw [removeWrk]
      obtain inLeft | rfl | inRight := List.mem_append.mp member |>.imp_right
        List.mem_cons.mp
      · have below := leftOf inLeft
        have nonempty : left ≠ nil := by
          rintro rfl
          cases inLeft
        simp only []
        rw [if_pos below, if_neg (by simpa [isNil_iff] using nonempty)]
        obtain ⟨⟨left', ch⟩, returned, newHeight, sum, removed⟩ :=
          leftInduction entry leftBalanced sorted.of_left inLeft
        rw [returned, ok_bind]
        obtain ⟨leftBalanced', height', entries⟩ := removed
        apply (@removedLeft_spec _ _ key val _ _ _ left.height ch leftBalanced'
          rightBalanced difference low high (height' ▸ sum)).mono
        rintro result ⟨newHeight, sum, rebalanced⟩
        refine ⟨newHeight, sum, ?_⟩
        rw [toList, remove_below total sorted below, ← entries]
        exact rebalanced
      · have same : kCmp key key = 0 := total.refl key
        have refused : ¬ kCmp key key > 0 := by omega
        have refused' : ¬ kCmp key key < 0 := by omega
        have accepted : tlAssert True = .ok () := if_pos trivial
        simp only []
        rw [if_neg refused, if_neg refused', accepted, ok_bind]
        by_cases noLeft : left = nil
        · subst noLeft
          have empty : (nil : AvlTree α β).isNil = true := rfl
          rw [if_pos empty]
          refine Returns.pure ⟨right.height, ?_, rightBalanced, rfl, ?_⟩
          · simp [height]
          · exact (remove_same total sorted same).symm
        rw [if_neg (by simpa [isNil_iff] using noLeft)]
        by_cases noRight : right = nil
        · subst noRight
          have empty : (nil : AvlTree α β).isNil = true := rfl
          rw [if_pos empty]
          refine Returns.pure ⟨left.height, ?_, leftBalanced, rfl, ?_⟩
          · simp [height]
          · exact ((remove_same total sorted same).trans
              (List.append_nil _)).symm
        rw [if_neg (by simpa [isNil_iff] using noRight)]
        by_cases leftward : balance < 0
        · obtain ⟨front, entry, found, entries⟩ := rightmost_spec noLeft
          have inside : entry ∈ left.toList := by simp [entries]
          rw [if_pos leftward, found, ok_bind, if_pos (leftOf inside),
            if_neg (by simpa [isNil_iff] using noLeft)]
          obtain ⟨⟨left', ch⟩, returned, removed⟩ :=
            leftInduction entry leftBalanced sorted.of_left inside
          rw [returned, ok_bind]
          exact replaced_by_left total whole sorted leftward entries removed
        · obtain ⟨entry, rest, found, entries⟩ := leftmost_spec noRight
          have inside : entry ∈ right.toList := by simp [entries]
          have above := rightOf inside
          have notBelow : ¬ kCmp key entry.1 > 0 := by omega
          rw [if_neg leftward, found, ok_bind, if_neg notBelow, if_pos above,
            if_neg (by simpa [isNil_iff] using noRight)]
          obtain ⟨⟨right', ch⟩, returned, removed⟩ :=
            rightInduction entry rightBalanced sorted.of_right inside
          rw [returned, ok_bind]
          exact replaced_by_right total whole sorted leftward entries removed
      · have above := rightOf inRight
        have notBelow : ¬ kCmp key entry.1 > 0 := by omega
        have nonempty : right ≠ nil := by
          rintro rfl
          cases inRight
        simp only []
        rw [if_neg notBelow, if_pos above,
          if_neg (by simpa [isNil_iff] using nonempty)]
        obtain ⟨⟨right', ch⟩, returned, newHeight, sum, removed⟩ :=
          rightInduction entry rightBalanced sorted.of_right inRight
        rw [returned, ok_bind]
        obtain ⟨rightBalanced', height', entries⟩ := removed
        apply (@removedRight_spec _ _ key val _ _ _ right.height ch
          leftBalanced rightBalanced' difference low high
          (height' ▸ sum)).mono
        rintro result ⟨newHeight, sum, rebalanced⟩
        refine ⟨newHeight, sum, ?_⟩
        rw [toList, remove_above total sorted above, ← entries]
        exact rebalanced

omit [DecidableEq α] [DecidableEq β]

include total in
theorem findNode_eq (key : α) (tree : AvlTree α β)
    (sorted : Sorted kCmp tree.toList) :
    tree.findNode kCmp key = OrderedMap.lookup kCmp key tree.toList := by
  induction tree with
  | nil => rfl
  | node key' val balance left right leftInduction rightInduction =>
      rw [findNode, toList]
      by_cases below : kCmp key' key > 0
      · rw [if_pos below, leftInduction sorted.of_left,
          lookup_below total sorted below]
      · rw [if_neg below]
        by_cases above : kCmp key' key < 0
        · rw [if_pos above, rightInduction sorted.of_right,
            lookup_above total sorted above]
        · have same : kCmp key' key = 0 := by omega
          rw [if_neg above, lookup_same total sorted same]

/-- The neighbours of a key that is not in the map. -/
def boundsOf (kCmp : α → α → Int) (key : α) (lower upper : α × β)
    (entries : List (α × β)) : Option ((α × β) × (α × β)) :=
  if (OrderedMap.lookup kCmp key entries).isSome then none
  else some (((OrderedMap.before kCmp key entries).getLast?).getD lower,
    ((OrderedMap.after kCmp key entries).head?).getD upper)

include total in
theorem findBounds_eq (key : α) (tree : AvlTree α β)
    (sorted : Sorted kCmp tree.toList) (lower upper : α × β) :
    tree.findBounds kCmp key lower upper =
      boundsOf kCmp key lower upper tree.toList := by
  induction tree generalizing lower upper with
  | nil => rfl
  | node key' val balance left right leftInduction rightInduction =>
      rw [findBounds, toList]
      by_cases above : kCmp key' key < 0
      · rw [if_pos above, rightInduction sorted.of_right, boundsOf, boundsOf,
          lookup_above total sorted above, before_above total sorted above,
          after_above total sorted above]
        simp [List.getLast?_append, List.getLast?_cons]
      · rw [if_neg above]
        by_cases below : kCmp key' key > 0
        · rw [if_pos below, leftInduction sorted.of_left, boundsOf, boundsOf,
            lookup_below total sorted below, before_below total sorted below,
            after_below total sorted below]
          simp [List.head?_append]
        · have same : kCmp key' key = 0 := by omega
          rw [if_neg below, boundsOf, lookup_same total sorted same]
          rfl

omit total

theorem size_eq (tree : AvlTree α β) : tree.size = tree.toList.length := by
  induction tree with
  | nil => rfl
  | node key val balance left right leftInduction rightInduction =>
      simp only [size, toList, List.length_append, List.length_cons,
        leftInduction, rightInduction]
      omega

end Searching

end AvlTree

section Runs

variable {w : Nat}

/-- What the call is for: the entries of the finite map after it, and its
answer. -/
def mapCall (cmp : BitVec w → BitVec w → Int)
    (entries : List (BitVec w × BitVec w)) :
    Call w → List (BitVec w × BitVec w) × Answer w
  | .addToFM k v => (OrderedMap.add cmp k v entries,
      .added (OrderedMap.lookup cmp k entries).isSome)
  | .delFromFM key => (OrderedMap.remove cmp key entries,
      .found (OrderedMap.lookup cmp key entries))
  | .lookupFM key => (entries, .found (OrderedMap.lookup cmp key entries))
  | .findBoundsFM lower upper key =>
      (entries, .bounds (AvlTree.boundsOf cmp key lower upper entries))
  | .sizeFM => (entries, .size entries.length)

def mapCalls (cmp : BitVec w → BitVec w → Int) :
    List (BitVec w × BitVec w) → List (Call w) →
      List (BitVec w × BitVec w) × List (Answer w)
  | entries, [] => (entries, [])
  | entries, call :: rest =>
      let (entries', answer) := mapCall cmp entries call
      let (entries'', answers) := mapCalls cmp entries' rest
      (entries'', answer :: answers)

theorem cmpUnsignedWords_total :
    OrderedMap.TotalOrder (@cmpUnsignedWords w) := by
  constructor
  · intro a b
    unfold cmpUnsignedWords
    simp only [BitVec.lt_def]
    split_ifs <;> omega
  · intro a b c
    unfold cmpUnsignedWords
    simp only [BitVec.lt_def]
    split_ifs <;> omega

/-- The tree of the map is a balanced search tree. -/
structure FM.Sound (fm : FM w) : Prop where
  balanced : fm.root.Balanced
  sorted : OrderedMap.Sorted fm.cmp fm.root.toList

/-- One call: the answer of the finite map, and the tree for its entries. -/
theorem call_spec {fm : FM w} (total : OrderedMap.TotalOrder fm.cmp)
    (sound : fm.Sound) (call : Call w) :
    Returns (fm.call call) fun result =>
      result.1.kCmp = fm.kCmp ∧ result.1.Sound ∧
        (result.1.root.toList, result.2) =
          mapCall fm.cmp fm.root.toList call := by
  obtain ⟨balanced, sorted⟩ := sound
  cases call with
  | addToFM k v =>
      obtain ⟨⟨root, oldV, grown⟩, returned, inserted⟩ :=
        AvlTree.insertWrk_spec total k v fm.root balanced sorted
      obtain ⟨⟨balanced', _, entries⟩, old, _⟩ := inserted
      refine ⟨({ fm with root := root }, .added oldV.isSome), ?_, rfl,
        ⟨balanced', ?_⟩, ?_⟩
      · simp only [FM.call, FM.addToFM, returned, ok_bind]
        rfl
      · change OrderedMap.Sorted fm.cmp root.toList
        rw [entries]
        exact sorted.add total k v
      · simp only at entries old
        simp [mapCall, entries, old]
  | delFromFM key =>
      have found := AvlTree.findNode_eq total key fm.root sorted
      cases present : OrderedMap.lookup fm.cmp key fm.root.toList with
      | none =>
          refine ⟨(fm, .found none), ?_, rfl, ⟨balanced, sorted⟩, ?_⟩
          · simp only [FM.call, FM.delFromFM, found, present]
            rfl
          · simp only [mapCall, present, OrderedMap.remove_of_lookup_none present]
      | some entry =>
          obtain ⟨member, same⟩ := OrderedMap.lookup_eq_some present
          obtain ⟨⟨root, ch⟩, returned, _, _, balanced', _, entries⟩ :=
            AvlTree.removeWrk_spec total fm.root entry balanced sorted member
          replace entries : root.toList =
              OrderedMap.remove fm.cmp key fm.root.toList :=
            entries.trans (OrderedMap.remove_congr total same)
          refine ⟨({ fm with root := root }, .found (some entry)), ?_, rfl,
            ⟨balanced', ?_⟩, ?_⟩
          · simp only [FM.call, FM.delFromFM, found, present, returned, ok_bind]
            rfl
          · change OrderedMap.Sorted fm.cmp root.toList
            rw [entries]
            exact sorted.remove key
          · simp only [mapCall, present, entries]
  | lookupFM key =>
      refine Returns.pure ⟨rfl, ⟨balanced, sorted⟩, ?_⟩
      simp [mapCall, FM.lookupFM, AvlTree.findNode_eq total key fm.root sorted]
  | findBoundsFM lower upper key =>
      refine Returns.pure ⟨rfl, ⟨balanced, sorted⟩, ?_⟩
      simp [mapCall, FM.findBoundsFM,
        AvlTree.findBounds_eq total key fm.root sorted]
  | sizeFM =>
      refine Returns.pure ⟨rfl, ⟨balanced, sorted⟩, ?_⟩
      simp [mapCall, FM.sizeFM, AvlTree.size_eq]

theorem calls_spec (calls : List (Call w)) {fm : FM w}
    (total : OrderedMap.TotalOrder fm.cmp) (sound : fm.Sound) :
    Returns (fm.calls calls) fun result =>
      result.1.kCmp = fm.kCmp ∧ result.1.Sound ∧
        (result.1.root.toList, result.2) =
          mapCalls fm.cmp fm.root.toList calls := by
  induction calls generalizing fm with
  | nil => exact Returns.pure ⟨rfl, sound, rfl⟩
  | cons call rest induction =>
      obtain ⟨⟨fm', answer⟩, first, same, sound', answered⟩ :=
        call_spec total sound call
      have sameCmp : fm'.cmp = fm.cmp :=
        congrArg (fun kCmp => kCmp.getD cmpUnsignedWords) same
      obtain ⟨⟨fm'', answers⟩, later, same', sound'', answered'⟩ :=
        induction (sameCmp ▸ total) sound'
      refine ⟨(fm'', answer :: answers), ?_, same'.trans same, sound'', ?_⟩
      · simp only [FM.calls, first, later, ok_bind]
        rfl
      · rw [sameCmp] at answered'
        simp only [Prod.ext_iff] at answered answered'
        simp only [mapCalls, ← answered.1, ← answered.2, ← answered'.1,
          ← answered'.2]

theorem newFM_total {kCmp : Option (BitVec w → BitVec w → Int)}
    (total : ∀ cmp ∈ kCmp, OrderedMap.TotalOrder cmp) :
    OrderedMap.TotalOrder (FM.newFM kCmp).cmp := by
  cases kCmp with
  | none => exact cmpUnsignedWords_total
  | some cmp => exact total cmp rfl

/-- From a new map every sequence of calls is answered as a finite map would,
and the tree stays a balanced search tree with the entries of that map. -/
theorem wordFM_is_finite_map (w : Nat)
    (kCmp : Option (BitVec w → BitVec w → Int))
    (total : ∀ cmp ∈ kCmp, OrderedMap.TotalOrder cmp) (calls : List (Call w)) :
    ∃ fm answers, (FM.newFM kCmp).calls calls = .ok (fm, answers) ∧
      (fm.root.toList, answers) =
        mapCalls (kCmp.getD cmpUnsignedWords) [] calls ∧
      fm.root.Balanced ∧
      OrderedMap.Sorted (kCmp.getD cmpUnsignedWords) fm.root.toList := by
  obtain ⟨⟨fm, answers⟩, returned, same, sound, answered⟩ :=
    calls_spec calls (newFM_total total) ⟨trivial, List.Pairwise.nil⟩
  refine ⟨fm, answers, returned, answered, sound.balanced, ?_⟩
  have sameCmp : fm.cmp = kCmp.getD cmpUnsignedWords :=
    congrArg (fun kCmp => kCmp.getD cmpUnsignedWords) same
  rw [← sameCmp]
  exact sound.sorted

/-- Words in descending order. -/
def cmpDescending (w1 w2 : BitVec 8) : Int := cmpUnsignedWords w2 w1

theorem wordFM_is_finite_map_descending :
    ∃ fm answers, (FM.newFM (some cmpDescending)).calls
        [.addToFM 1 10, .addToFM 2 20, .addToFM 3 30, .delFromFM 2,
          .addToFM 1 11, .sizeFM] = .ok (fm, answers) ∧
      fm.root.toList = [(3, 30), (1, 11)] ∧
      answers = [.added false, .added false, .added false,
        .found (some (2, 20)), .added true, .size 2] ∧
      fm.root.Balanced := by
  have total : ∀ cmp ∈ some cmpDescending, OrderedMap.TotalOrder cmp := by
    intro cmp same
    cases same
    have ascending := @cmpUnsignedWords_total 8
    exact ⟨fun a b => ascending.opposite b a,
      fun a b c first second => ascending.trans c b a second first⟩
  obtain ⟨fm, answers, returned, answered, balanced, _⟩ :=
    wordFM_is_finite_map 8 (some cmpDescending) total [.addToFM 1 10,
      .addToFM 2 20, .addToFM 3 30, .delFromFM 2, .addToFM 1 11, .sizeFM]
  have expected : mapCalls cmpDescending [] [.addToFM 1 10, .addToFM 2 20,
      .addToFM 3 30, .delFromFM 2, .addToFM 1 11, .sizeFM] =
      ([(3, 30), (1, 11)], [.added false, .added false, .added false,
        .found (some (2, 20)), .added true, .size 2]) := by
    decide
  obtain ⟨entries, given⟩ := Prod.mk.inj (answered.trans expected)
  exact ⟨fm, answers, returned, entries, given, balanced⟩

end Runs

end WordFM

end HelgrindPlus
