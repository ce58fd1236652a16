import HelgrindPlus.Lib.Outcome

/-!
# Word maps

The finite map of `m_wordfm.c`: a search tree whose nodes have the difference
of the heights of their subtrees in a field of their own.  Insertion and
removal keep that difference at most one with the help of rotations.
-/

namespace HelgrindPlus

namespace WordFM

open Outcome

/-- Why an operation stops: an assertion, or a child that is not there. -/
inductive Stop where
  | tlAssert | nullChild
  deriving DecidableEq, Repr

def tlAssert (condition : Prop) [Decidable condition] : Except Stop Unit :=
  if condition then .ok () else .error .tlAssert

/-- A tree of nodes `AvlNode`. -/
inductive AvlTree (α β : Type) where
  | nil
  | node (key : α) (val : β) (balance : Int) (left right : AvlTree α β)
  deriving DecidableEq, Repr

namespace AvlTree

variable {α β : Type}

def isNil : AvlTree α β → Bool
  | nil => true
  | node _ _ _ _ _ => false

/-- The entries in the order of the tree. -/
def toList : AvlTree α β → List (α × β)
  | nil => []
  | node key val _ left right => left.toList ++ (key, val) :: right.toList

def height : AvlTree α β → Nat
  | nil => 0
  | node _ _ _ left right => max left.height right.height + 1

/-- The function `avl_swl`. -/
def swl : AvlTree α β → Except Stop (AvlTree α β)
  | node aKey aVal aBalance aLeft (node bKey bVal bBalance bLeft bRight) =>
      return node bKey bVal bBalance
        (node aKey aVal aBalance aLeft bLeft) bRight
  | _ => .error .nullChild

/-- The function `avl_swr`. -/
def swr : AvlTree α β → Except Stop (AvlTree α β)
  | node aKey aVal aBalance (node bKey bVal bBalance bLeft bRight) aRight =>
      return node bKey bVal bBalance bLeft
        (node aKey aVal aBalance bRight aRight)
  | _ => .error .nullChild

def withBalance (balance : Int) : AvlTree α β → Except Stop (AvlTree α β)
  | nil => .error .nullChild
  | node key val _ left right => return node key val balance left right

/-- The balances of the root and of its children. -/
def withBalances (root left right : Int) :
    AvlTree α β → Except Stop (AvlTree α β)
  | nil => .error .nullChild
  | node key val _ leftTree rightTree => do
      let leftTree' ← leftTree.withBalance left
      let rightTree' ← rightTree.withBalance right
      return node key val root leftTree' rightTree'

def balanceOf : AvlTree α β → Except Stop Int
  | nil => .error .nullChild
  | node _ _ balance _ _ => return balance

/-- The function `avl_nasty`. -/
def nasty (root : AvlTree α β) : Except Stop (AvlTree α β) := do
  let balance ← root.balanceOf
  if balance = -1 then root.withBalances 0 0 1
  else if balance = 1 then root.withBalances 0 (-1) 0
  else if balance = 0 then root.withBalances 0 0 0
  else .error .tlAssert

def withLeft : AvlTree α β → AvlTree α β → Except Stop (AvlTree α β)
  | nil, _ => .error .nullChild
  | node key val balance _ right, left =>
      return node key val balance left right

def withRight : AvlTree α β → AvlTree α β → Except Stop (AvlTree α β)
  | nil, _ => .error .nullChild
  | node key val balance left _, right =>
      return node key val balance left right

def leftOf : AvlTree α β → Except Stop (AvlTree α β)
  | nil => .error .nullChild
  | node _ _ _ left _ => return left

def rightOf : AvlTree α β → Except Stop (AvlTree α β)
  | nil => .error .nullChild
  | node _ _ _ _ right => return right

/-- The left child is swung to the left and the root to the right. -/
def doubleRight (root : AvlTree α β) : Except Stop (AvlTree α β) := do
  let left ← root.leftOf
  let left' ← left.swl
  let root' ← root.withLeft left'
  let root'' ← root'.swr
  root''.nasty

def doubleLeft (root : AvlTree α β) : Except Stop (AvlTree α β) := do
  let right ← root.rightOf
  let right' ← right.swr
  let root' ← root.withRight right'
  let root'' ← root'.swl
  root''.nasty

/-- One swing to the right, with the balances given to the new root and to its
right child. -/
def singleRight (root right : Int) (tree : AvlTree α β) :
    Except Stop (AvlTree α β) := do
  let tree' ← tree.swr
  let tree'' ← tree'.withBalance root
  let child ← tree''.rightOf
  let child' ← child.withBalance right
  tree''.withRight child'

def singleLeft (root left : Int) (tree : AvlTree α β) :
    Except Stop (AvlTree α β) := do
  let tree' ← tree.swl
  let tree'' ← tree'.withBalance root
  let child ← tree''.leftOf
  let child' ← child.withBalance left
  tree''.withLeft child'

/-- The rotation for a left subtree that has become too high. -/
def rotateRight (root left : AvlTree α β) : Except Stop (AvlTree α β) := do
  let leftBalance ← left.balanceOf
  if leftBalance < 0 then root.singleRight 0 0 else root.doubleRight

def rotateLeft (root right : AvlTree α β) : Except Stop (AvlTree α β) := do
  let rightBalance ← right.balanceOf
  if rightBalance > 0 then root.singleLeft 0 0 else root.doubleLeft

/-- The left subtree has grown.  `left` is the tree at the address that the
parent has: a subtree that has grown has the root it had. -/
def grownLeft (key : α) (val : β) (balance : Int) (left right : AvlTree α β) :
    Except Stop (AvlTree α β × Bool) :=
  let root := node key val (balance - 1) left right
  if balance = 1 then return (root, false)
  else if balance = 0 then return (root, true)
  else if balance = -1 then return (← root.rotateRight left, false)
  else .error .tlAssert

def grownRight (key : α) (val : β) (balance : Int) (left right : AvlTree α β) :
    Except Stop (AvlTree α β × Bool) :=
  let root := node key val (balance + 1) left right
  if balance = -1 then return (root, false)
  else if balance = 0 then return (root, true)
  else if balance = 1 then return (← root.rotateLeft right, false)
  else .error .tlAssert

section Comparing

variable (kCmp : α → α → Int)

/-- The function `avl_insert_wrk`, with the old value of a key that is there
and whether the tree has grown. -/
def insertWrk (newKey : α) (newVal : β) :
    AvlTree α β → Except Stop (AvlTree α β × Option β × Bool)
  | nil => return (node newKey newVal 0 nil nil, none, true)
  | node key val balance left right =>
      let cmpres := kCmp key newKey
      if cmpres > 0 then
        if left.isNil then
          return (node key val (balance - 1) (node newKey newVal 0 nil nil)
            right, none, balance = 0)
        else do
          let (left', oldV, grown) ← insertWrk newKey newVal left
          if grown then do
            let (root, grown') ← grownLeft key val balance left' right
            return (root, oldV, grown')
          else
            return (node key val balance left' right, oldV, false)
      else if cmpres < 0 then
        if right.isNil then
          return (node key val (balance + 1) left
            (node newKey newVal 0 nil nil), none, balance = 0)
        else do
          let (right', oldV, grown) ← insertWrk newKey newVal right
          if grown then do
            let (root, grown') ← grownRight key val balance left right'
            return (root, oldV, grown')
          else
            return (node key val balance left right', oldV, false)
      else
        return (node key newVal balance left right, some val, false)

/-- The rotation for a right subtree that is too high after the removal from
the left one, and whether the tree has shrunk. -/
def shrinkLeft (root right : AvlTree α β) :
    Except Stop (AvlTree α β × Bool) := do
  let rightBalance ← right.balanceOf
  if rightBalance = 0 then return (← root.singleLeft (-1) 1, false)
  else if rightBalance = 1 then return (← root.singleLeft 0 0, true)
  else if rightBalance = -1 then return (← root.doubleLeft, true)
  else .error .tlAssert

def shrinkRight (root left : AvlTree α β) :
    Except Stop (AvlTree α β × Bool) := do
  let leftBalance ← left.balanceOf
  if leftBalance = 0 then return (← root.singleRight 1 (-1), false)
  else if leftBalance = -1 then return (← root.singleRight 0 0, true)
  else if leftBalance = 1 then return (← root.doubleRight, true)
  else .error .tlAssert

/-- What follows the removal from the left subtree. -/
def removedLeft (key : α) (val : β) (balance : Int) (right left : AvlTree α β)
    (ch : Bool) : Except Stop (AvlTree α β × Bool) :=
  if ch then
    let root := node key val (balance + 1) left right
    if balance = -1 then return (root, true)
    else if balance = 0 then return (root, false)
    else if balance = 1 then root.shrinkLeft right
    else .error .tlAssert
  else
    return (node key val balance left right, false)

def removedRight (key : α) (val : β) (balance : Int) (left right : AvlTree α β)
    (ch : Bool) : Except Stop (AvlTree α β × Bool) :=
  if ch then
    let root := node key val (balance - 1) left right
    if balance = 1 then return (root, true)
    else if balance = 0 then return (root, false)
    else if balance = -1 then root.shrinkRight left
    else .error .tlAssert
  else
    return (node key val balance left right, false)

/-- The last entry of a tree that is not empty, and the first one. -/
def rightmost : AvlTree α β → Except Stop (α × β)
  | nil => .error .nullChild
  | node key val _ _ right =>
      if right.isNil then return (key, val) else right.rightmost

def leftmost : AvlTree α β → Except Stop (α × β)
  | nil => .error .nullChild
  | node key val _ left _ =>
      if left.isNil then return (key, val) else left.leftmost

/-- The root is replaced by the node with the entry. -/
def replaceRoot (entry : α × β) (ch : Bool) :
    AvlTree α β → Except Stop (AvlTree α β × Bool)
  | nil => .error .nullChild
  | node _ _ balance left right =>
      return (node entry.1 entry.2 balance left right,
        if balance = 0 then ch else false)

variable [DecidableEq α] [DecidableEq β]

/-- The function `avl_remove_wrk` for the node with the entry `a`, and in it
`avl_removeroot_wrk`.  The latter calls the former for another node of the
tree, for which the comparison with the root cannot be zero: the assertion
that this node is the root would fail. -/
def removeWrk : AvlTree α β → α × β → Except Stop (AvlTree α β × Bool)
  | nil, _ => .error .nullChild
  | node key val balance left right, a =>
      let removeFrom (a : α × β) (atRoot : Except Stop (AvlTree α β × Bool)) :
          Except Stop (AvlTree α β × Bool) :=
        let cmpres := kCmp key a.1
        if cmpres > 0 then
          if left.isNil then .error .tlAssert
          else do
            let (left', ch) ← removeWrk left a
            removedLeft key val balance right left' ch
        else if cmpres < 0 then
          if right.isNil then .error .tlAssert
          else do
            let (right', ch) ← removeWrk right a
            removedRight key val balance left right' ch
        else atRoot
      removeFrom a do
        tlAssert ((key, val) = a)
        if left.isNil then return (right, true)
        else if right.isNil then return (left, true)
        else do
          let a' ← if balance < 0 then left.rightmost else right.leftmost
          let (root, ch) ← removeFrom a' (.error .tlAssert)
          root.replaceRoot a' ch

omit [DecidableEq α] [DecidableEq β]

/-- The function `avl_find_node`. -/
def findNode (key : α) : AvlTree α β → Option (α × β)
  | nil => none
  | node key' val _ left right =>
      let cmpres := kCmp key' key
      if cmpres > 0 then left.findNode key
      else if cmpres < 0 then right.findNode key
      else some (key', val)

/-- The function `avl_find_bounds`, from the bounds `lower` and `upper` on. -/
def findBounds (key : α) : AvlTree α β → (lower upper : α × β) →
    Option ((α × β) × (α × β))
  | nil, lower, upper => some (lower, upper)
  | node key' val _ left right, lower, upper =>
      let cmpres := kCmp key' key
      if cmpres < 0 then right.findBounds key (key', val) upper
      else if cmpres > 0 then left.findBounds key lower (key', val)
      else none

end Comparing

def size : AvlTree α β → Nat
  | nil => 0
  | node _ _ _ left right => 1 + left.size + right.size

end AvlTree

/-- The function `cmp_unsigned_Words`. -/
def cmpUnsignedWords {w : Nat} (w1 w2 : BitVec w) : Int :=
  if w1 < w2 then -1 else if w2 < w1 then 1 else 0

/-- The map without its memory management.  The stack of the iterator has its
top first. -/
structure FM (w : Nat) where
  root : AvlTree (BitVec w) (BitVec w)
  kCmp : Option (BitVec w → BitVec w → Int)
  stack : List (AvlTree (BitVec w) (BitVec w) × Nat)

namespace FM

variable {w : Nat}

def cmp (fm : FM w) : BitVec w → BitVec w → Int :=
  fm.kCmp.getD cmpUnsignedWords

def newFM (kCmp : Option (BitVec w → BitVec w → Int)) : FM w := ⟨.nil, kCmp, []⟩

def addToFM (fm : FM w) (k v : BitVec w) : Except Stop (FM w × Bool) := do
  let (root, oldV, _) ← fm.root.insertWrk fm.cmp k v
  return ({ fm with root := root }, oldV.isSome)

def delFromFM (fm : FM w) (key : BitVec w) :
    Except Stop (FM w × Option (BitVec w × BitVec w)) :=
  match fm.root.findNode fm.cmp key with
  | some node => do
      let (root, _) ← fm.root.removeWrk fm.cmp node
      return ({ fm with root := root }, some node)
  | none => return (fm, none)

def lookupFM (fm : FM w) (key : BitVec w) : Option (BitVec w × BitVec w) :=
  fm.root.findNode fm.cmp key

def findBoundsFM (fm : FM w) (lower upper : BitVec w × BitVec w)
    (key : BitVec w) : Option ((BitVec w × BitVec w) × (BitVec w × BitVec w)) :=
  fm.root.findBounds fm.cmp key lower upper

def sizeFM (fm : FM w) : Nat := fm.root.size

end FM

/-- A call of the interface.  The bounds are given with their values. -/
inductive Call (w : Nat) where
  | addToFM (k v : BitVec w)
  | delFromFM (key : BitVec w)
  | lookupFM (key : BitVec w)
  | findBoundsFM (lower upper : BitVec w × BitVec w) (key : BitVec w)
  | sizeFM

inductive Answer (w : Nat) where
  | added (present : Bool)
  | found (entry : Option (BitVec w × BitVec w))
  | bounds (neighbours :
      Option ((BitVec w × BitVec w) × (BitVec w × BitVec w)))
  | size (count : Nat)
  deriving DecidableEq

section Runs

variable {w : Nat}

def FM.call (fm : FM w) : Call w → Except Stop (FM w × Answer w)
  | .addToFM k v => do
      let (fm', present) ← fm.addToFM k v
      return (fm', .added present)
  | .delFromFM key => do
      let (fm', removed) ← fm.delFromFM key
      return (fm', .found removed)
  | .lookupFM key => return (fm, .found (fm.lookupFM key))
  | .findBoundsFM lower upper key =>
      return (fm, .bounds (fm.findBoundsFM lower upper key))
  | .sizeFM => return (fm, .size fm.sizeFM)

def FM.calls (fm : FM w) : List (Call w) → Except Stop (FM w × List (Answer w))
  | [] => return (fm, [])
  | call :: rest => do
      let (fm', answer) ← fm.call call
      let (fm'', answers) ← fm'.calls rest
      return (fm'', answer :: answers)

end Runs

end WordFM

end HelgrindPlus
