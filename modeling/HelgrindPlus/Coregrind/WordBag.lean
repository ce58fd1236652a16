import HelgrindPlus.Coregrind.WordFMCalls
import HelgrindPlus.Lib.Tally

/-!
# Word bags

The bags of `m_wordfm.c` keep a word map from words to counts.  Every sequence
of calls is answered as by a multiset, as long as no count reaches the size of
a word.
-/

namespace HelgrindPlus

namespace WordFM

open Outcome

/-- A trivial container. -/
structure Bag (w : Nat) where
  fm : FM w

namespace Bag

variable {w : Nat}

def newBag (w : Nat) : Bag w := ⟨.newFM none⟩

def addToBag (bag : Bag w) (x : BitVec w) : Except Stop (Bag w) :=
  match bag.fm.lookupFM x with
  | some (key, count) => do
      tlAssert (key = x)
      tlAssert (1 ≤ count)
      let (fm, _) ← bag.fm.addToFM x (count + 1)
      return ⟨fm⟩
  | none => do
      let (fm, _) ← bag.fm.addToFM x 1
      return ⟨fm⟩

def elemBag (bag : Bag w) (x : BitVec w) : Except Stop (BitVec w) :=
  match bag.fm.lookupFM x with
  | some (key, count) => do
      tlAssert (key = x)
      tlAssert (1 ≤ count)
      return count
  | none => return 0

def sizeUniqueBag (bag : Bag w) : Nat := bag.fm.sizeFM

/-- The function `sizeTotalBag_wrk`, and zero where there is no node. -/
def sizeTotalWrk : AvlTree (BitVec w) (BitVec w) → Except Stop (BitVec w)
  | .nil => return 0
  | .node _ val _ left right => do
      tlAssert (1 ≤ val)
      let fromLeft ← sizeTotalWrk left
      let fromRight ← sizeTotalWrk right
      return val + fromLeft + fromRight

def sizeTotalBag (bag : Bag w) : Except Stop (BitVec w) :=
  sizeTotalWrk bag.fm.root

def delFromBag (bag : Bag w) (x : BitVec w) : Except Stop (Bag w × Bool) :=
  match bag.fm.lookupFM x with
  | some (key, count) => do
      tlAssert (key = x)
      tlAssert (1 ≤ count)
      if 1 < count then
        let (fm, _) ← bag.fm.addToFM x (count - 1)
        return (⟨fm⟩, true)
      else
        tlAssert (count = 1)
        let (fm, _) ← bag.fm.delFromFM x
        return (⟨fm⟩, true)
  | none => return (bag, false)

def isEmptyBag (bag : Bag w) : Bool := decide (bag.fm.sizeFM = 0)

def isSingletonTotalBag (bag : Bag w) : Except Stop Bool :=
  if bag.fm.sizeFM ≠ 1 then return false
  else
    match bag.fm.root with
    | .nil => .error .tlAssert
    | .node _ val _ left right => do
        tlAssert (left.isNil = true)
        tlAssert (right.isNil = true)
        return decide (val = 1)

/-- The word at the root of the tree. -/
def anyElementOfBag (bag : Bag w) : Except Stop (BitVec w) :=
  match bag.fm.root with
  | .nil => .error .tlAssert
  | .node key val _ _ _ => do
      tlAssert (1 ≤ val)
      return key

end Bag

inductive BagCall (w : Nat) where
  | addToBag (x : BitVec w)
  | elemBag (x : BitVec w)
  | sizeUniqueBag
  | sizeTotalBag
  | delFromBag (x : BitVec w)
  | isEmptyBag
  | isSingletonTotalBag
  | anyElementOfBag
  deriving DecidableEq

inductive BagAnswer (w : Nat) where
  | done
  | word (x : BitVec w)
  | size (n : Nat)
  | verdict (holds : Bool)
  deriving DecidableEq

section Runs

variable {w : Nat}

def Bag.call (bag : Bag w) : BagCall w → Except Stop (Bag w × BagAnswer w)
  | .addToBag x => do
      let bag ← bag.addToBag x
      return (bag, .done)
  | .elemBag x => do
      let count ← bag.elemBag x
      return (bag, .word count)
  | .sizeUniqueBag => return (bag, .size bag.sizeUniqueBag)
  | .sizeTotalBag => do
      let total ← bag.sizeTotalBag
      return (bag, .word total)
  | .delFromBag x => do
      let (bag, present) ← bag.delFromBag x
      return (bag, .verdict present)
  | .isEmptyBag => return (bag, .verdict bag.isEmptyBag)
  | .isSingletonTotalBag => do
      let holds ← bag.isSingletonTotalBag
      return (bag, .verdict holds)
  | .anyElementOfBag => do
      let x ← bag.anyElementOfBag
      return (bag, .word x)

def Bag.calls (bag : Bag w) :
    List (BagCall w) → Except Stop (Bag w × List (BagAnswer w))
  | [] => return (bag, [])
  | call :: rest => do
      let (bag, answer) ← bag.call call
      let (bag, answers) ← bag.calls rest
      return (bag, answer :: answers)

/-- What a call does to the multiset that the bag stands for. -/
def BagCall.on (content : Multiset (BitVec w)) :
    BagCall w → Multiset (BitVec w)
  | .addToBag x => x ::ₘ content
  | .delFromBag x => content.erase x
  | _ => content

/-- The answers that the call may have. -/
def BagCall.Answers (content : Multiset (BitVec w)) :
    BagCall w → BagAnswer w → Prop
  | .addToBag _, .done => True
  | .elemBag x, .word count => count.toNat = content.count x
  | .sizeUniqueBag, .size n => n = content.toFinset.card
  | .sizeTotalBag, .word total => total = BitVec.ofNat w content.card
  | .delFromBag x, .verdict present => present = true ↔ x ∈ content
  | .isEmptyBag, .verdict holds => holds = true ↔ content = 0
  | .isSingletonTotalBag, .verdict holds => holds = true ↔ content.card = 1
  | .anyElementOfBag, .word x => x ∈ content
  | _, _ => False

/-- The calls are answered one after the other. -/
def AnswersAll : Multiset (BitVec w) → List (BagCall w) →
    List (BagAnswer w) → Prop
  | _, [], [] => True
  | content, call :: rest, answer :: answers =>
      call.Answers content answer ∧ AnswersAll (call.on content) rest answers
  | _, _, _ => False

/-- No count reaches the size of a word. -/
def Fits (w : Nat) (content : Multiset (BitVec w))
    (calls : List (BagCall w)) : Prop :=
  ∀ n x, ((calls.take n).foldl BagCall.on content).count x < 2 ^ w

/-- Some element is wanted of an empty bag. -/
def WantsOfNothing (content : Multiset (BitVec w))
    (calls : List (BagCall w)) : Prop :=
  ∃ n, calls[n]? = some .anyElementOfBag ∧
    (calls.take n).foldl BagCall.on content = 0

private theorem cmpUnsignedWords_distinguishes :
    OrderedMap.Distinguishes (@cmpUnsignedWords w) where
  total := cmpUnsignedWords_total
  eq_of_same a b same := by
    unfold cmpUnsignedWords at same
    simp only [BitVec.lt_def] at same
    apply BitVec.eq_of_toNat_eq
    split_ifs at same <;> omega

/-- A word that is not zero. -/
theorem wide_of_pos {x : BitVec w} (positive : 0 < x.toNat) : 1 < 2 ^ w := by
  have := x.isLt
  omega

theorem toNat_one (wide : 1 < 2 ^ w) : (1 : BitVec w).toNat = 1 := by
  simp [Nat.mod_eq_of_lt wide]

theorem one_le_of_pos {x : BitVec w} (positive : 0 < x.toNat) : 1 ≤ x := by
  rw [BitVec.le_def, toNat_one (wide_of_pos positive)]
  exact positive

/-- The multiset of the entries. -/
def FM.content (fm : FM w) : Multiset (BitVec w) :=
  OrderedMap.tally BitVec.toNat fm.root.toList

/-- The bag has the order of words, and no count is zero. -/
structure Bag.Sound (bag : Bag w) : Prop where
  unboxed : bag.fm.kCmp = none
  sound : bag.fm.Sound
  positive : ∀ entry ∈ bag.fm.root.toList, entry.2 ≠ 0

namespace Bag.Sound

variable {bag : Bag w} {x count : BitVec w} (sound : bag.Sound)

include sound

theorem cmp : bag.fm.cmp = cmpUnsignedWords := by
  unfold FM.cmp
  rw [sound.unboxed]
  rfl

theorem order : OrderedMap.Distinguishes bag.fm.cmp :=
  sound.cmp ▸ cmpUnsignedWords_distinguishes

theorem lookupFM (x : BitVec w) : bag.fm.lookupFM x =
    OrderedMap.lookup bag.fm.cmp x bag.fm.root.toList :=
  AvlTree.findNode_eq sound.order.total x _ sound.sound.sorted

theorem toNat_ne_zero : ∀ entry ∈ bag.fm.root.toList,
    entry.2.toNat ≠ 0 := by
  intro entry member isZero
  apply sound.positive entry member
  apply BitVec.eq_of_toNat_eq
  simpa using isZero

/-- What is known of a word with a count. -/
theorem of_found {entry : BitVec w × BitVec w}
    (found : bag.fm.lookupFM x = some entry) :
    entry.1 = x ∧ 1 ≤ entry.2 ∧ 0 < entry.2.toNat ∧
      bag.fm.content.count x = entry.2.toNat := by
  rw [sound.lookupFM] at found
  obtain ⟨member, -⟩ := OrderedMap.lookup_eq_some found
  obtain ⟨same, -⟩ := OrderedMap.split_of_lookup sound.order found
  obtain ⟨key, count⟩ := entry
  dsimp only at same
  subst same
  have positive : 0 < count.toNat :=
    Nat.pos_of_ne_zero (sound.toNat_ne_zero _ member)
  exact ⟨rfl, one_le_of_pos positive, positive,
    OrderedMap.count_tally_of_lookup sound.order sound.sound.sorted found⟩

private theorem of_absent (absent : bag.fm.lookupFM x = none) :
    bag.fm.content.count x = 0 := by
  rw [sound.lookupFM] at absent
  apply Multiset.count_eq_zero_of_notMem
  exact OrderedMap.not_mem_tally_of_lookup_none sound.order absent

/-- A count that is not zero may be written. -/
theorem addToFM (x : BitVec w) {count : BitVec w} (positive : count ≠ 0) :
    Returns (bag.fm.addToFM x count) fun result =>
      Sound ⟨result.1⟩ ∧ result.1.root.toList =
        OrderedMap.add bag.fm.cmp x count bag.fm.root.toList := by
  obtain ⟨⟨fm, answer⟩, called, same, sound', answered⟩ :=
    call_spec sound.order.total sound.sound (.addToFM x count)
  obtain ⟨⟨_, present⟩, added, returned⟩ := bind_eq_ok.mp called
  cases returned
  have entries : fm.root.toList =
      OrderedMap.add bag.fm.cmp x count bag.fm.root.toList :=
    congrArg Prod.fst answered
  refine ⟨(fm, present), added, ⟨same.trans sound.unboxed, sound', ?_⟩,
    entries⟩
  intro entry member
  rw [entries, OrderedMap.add, List.mem_append, List.mem_cons] at member
  rcases member with earlier | here | later
  · exact sound.positive entry (List.mem_filter.mp earlier).1
  · rw [here]
    exact positive
  · exact sound.positive entry (List.mem_filter.mp later).1

theorem delFromFM (x : BitVec w) :
    Returns (bag.fm.delFromFM x) fun result =>
      Sound ⟨result.1⟩ ∧ result.1.root.toList =
        OrderedMap.remove bag.fm.cmp x bag.fm.root.toList := by
  obtain ⟨⟨fm, answer⟩, called, same, sound', answered⟩ :=
    call_spec sound.order.total sound.sound (.delFromFM x)
  obtain ⟨⟨_, removed⟩, deleted, returned⟩ := bind_eq_ok.mp called
  cases returned
  have entries : fm.root.toList =
      OrderedMap.remove bag.fm.cmp x bag.fm.root.toList :=
    congrArg Prod.fst answered
  refine ⟨(fm, removed), deleted, ⟨same.trans sound.unboxed, sound', ?_⟩,
    entries⟩
  intro entry member
  rw [entries] at member
  exact sound.positive entry (List.mem_filter.mp member).1

end Bag.Sound

section Calls

variable {bag : Bag w} (sound : bag.Sound)

include sound

private theorem addToBag_spec {x : BitVec w}
    (fits : bag.fm.content.count x + 1 < 2 ^ w) :
    Returns (bag.addToBag x) fun bag' =>
      bag'.Sound ∧ bag'.fm.content = x ::ₘ bag.fm.content := by
  have wide : 1 < 2 ^ w := by omega
  unfold Bag.addToBag
  cases found : bag.fm.lookupFM x with
  | none =>
      have one : (1 : BitVec w) ≠ 0 := by
        intro isZero
        have same := congrArg BitVec.toNat isZero
        rw [toNat_one wide] at same
        simp at same
      apply (sound.addToFM x one).bind
      intro result added
      obtain ⟨sound', entries⟩ := added
      refine Returns.pure ⟨sound', ?_⟩
      rw [sound.lookupFM] at found
      unfold FM.content
      dsimp only
      rw [entries, OrderedMap.tally_add_of_lookup_none _ found]
      simp [Nat.mod_eq_of_lt wide]
  | some entry =>
      obtain ⟨key, count⟩ := entry
      obtain ⟨same, positive, -, counted⟩ := sound.of_found found
      dsimp only at same positive counted ⊢
      subst same
      have next : (count + 1).toNat = count.toNat + 1 := by
        rw [BitVec.toNat_add, toNat_one wide]
        exact Nat.mod_eq_of_lt (by omega)
      have some : count + 1 ≠ 0 := by
        intro isZero
        rw [isZero] at next
        simp at next
      rw [tlAssert, if_pos rfl, ok_bind, tlAssert, if_pos positive, ok_bind]
      apply (sound.addToFM key some).bind
      intro result added
      obtain ⟨sound', entries⟩ := added
      refine Returns.pure ⟨sound', ?_⟩
      rw [sound.lookupFM] at found
      have moved := OrderedMap.tally_add_of_lookup BitVec.toNat sound.order
        sound.sound.sorted (count + 1) found
      unfold FM.content
      dsimp only
      rw [entries]
      rw [next, Multiset.replicate_succ, Multiset.add_cons,
        ← Multiset.cons_add] at moved
      exact add_right_cancel moved

private theorem elemBag_spec (x : BitVec w) :
    Returns (bag.elemBag x) fun count =>
      count.toNat = bag.fm.content.count x := by
  unfold Bag.elemBag
  cases found : bag.fm.lookupFM x with
  | none =>
      apply Returns.pure
      rw [sound.of_absent found]
      simp
  | some entry =>
      obtain ⟨key, count⟩ := entry
      obtain ⟨same, positive, -, counted⟩ := sound.of_found found
      dsimp only at same positive counted ⊢
      rw [tlAssert, if_pos same, ok_bind, tlAssert, if_pos positive, ok_bind]
      exact Returns.pure counted.symm

private theorem delFromBag_spec (x : BitVec w) :
    Returns (bag.delFromBag x) fun result => result.1.Sound ∧
      result.1.fm.content = bag.fm.content.erase x ∧
      (result.2 = true ↔ x ∈ bag.fm.content) := by
  unfold Bag.delFromBag
  cases found : bag.fm.lookupFM x with
  | none =>
      have absent : x ∉ bag.fm.content :=
        Multiset.count_eq_zero.mp (sound.of_absent found)
      refine Returns.pure ⟨sound, ?_, ?_⟩
      · exact (Multiset.erase_of_notMem absent).symm
      · simpa using absent
  | some entry =>
      obtain ⟨key, count⟩ := entry
      obtain ⟨same, positive, more, counted⟩ := sound.of_found found
      dsimp only at same positive more counted ⊢
      subst same
      have member : key ∈ bag.fm.content := by
        rw [← Multiset.count_pos]
        omega
      rw [tlAssert, if_pos rfl, ok_bind, tlAssert, if_pos positive, ok_bind]
      have wide := wide_of_pos more
      have found' := found
      rw [sound.lookupFM] at found'
      split
      · rename_i several
        rw [BitVec.lt_def, toNat_one wide] at several
        have less : (count - 1).toNat + 1 = count.toNat := by
          rw [BitVec.toNat_sub_of_le positive, toNat_one wide]
          omega
        have rest : count - 1 ≠ 0 := by
          intro isZero
          rw [isZero] at less
          simp at less
          omega
        apply (sound.addToFM key rest).bind
        intro result added
        obtain ⟨sound', entries⟩ := added
        refine Returns.pure ⟨sound', ?_, by simpa using member⟩
        have moved := OrderedMap.tally_add_of_lookup BitVec.toNat sound.order
          sound.sound.sorted (count - 1) found'
        rw [← less, Multiset.replicate_succ, Multiset.add_cons,
          ← Multiset.cons_add] at moved
        unfold FM.content
        dsimp only
        rw [entries, ← add_right_cancel moved, Multiset.erase_cons_head]
      · rename_i single
        have one : count = 1 := by
          apply BitVec.eq_of_toNat_eq
          rw [BitVec.lt_def] at single
          rw [BitVec.le_def] at positive
          omega
        have once : count.toNat = 1 := by
          rw [one]
          exact toNat_one wide
        rw [tlAssert, if_pos one, ok_bind]
        apply (sound.delFromFM key).bind
        intro result removed
        obtain ⟨sound', entries⟩ := removed
        refine Returns.pure ⟨sound', ?_, by simpa using member⟩
        have moved := OrderedMap.tally_remove_of_lookup BitVec.toNat
          sound.order sound.sound.sorted found'
        rw [once, Multiset.replicate_one, add_comm,
          Multiset.singleton_add] at moved
        unfold FM.content
        dsimp only
        rw [entries, ← moved, Multiset.erase_cons_head]

omit sound

private theorem sizeTotalWrk_spec (tree : AvlTree (BitVec w) (BitVec w))
    (positive : ∀ entry ∈ tree.toList, 1 ≤ entry.2) :
    Returns (Bag.sizeTotalWrk tree) fun total => total =
      BitVec.ofNat w (OrderedMap.tally BitVec.toNat tree.toList).card := by
  induction tree with
  | nil => exact Returns.pure rfl
  | node key val balance left right leftInduction rightInduction =>
      rw [AvlTree.toList] at positive ⊢
      have here : 1 ≤ val := positive (key, val) (by simp)
      unfold Bag.sizeTotalWrk
      rw [tlAssert, if_pos here, ok_bind]
      apply (leftInduction fun entry member =>
        positive entry (List.mem_append_left _ member)).bind
      intro fromLeft leftTotal
      apply (rightInduction fun entry member => positive entry
        (List.mem_append_right _ (List.mem_cons_of_mem _ member))).bind
      intro fromRight rightTotal
      apply Returns.pure
      rw [leftTotal, rightTotal, OrderedMap.tally_append,
        OrderedMap.tally_cons]
      simp only [Multiset.card_add, Multiset.card_replicate]
      rw [BitVec.ofNat_add, BitVec.ofNat_add, BitVec.ofNat_toNat,
        BitVec.setWidth_eq]
      ac_rfl

include sound

private theorem isEmptyBag_spec :
    bag.isEmptyBag = true ↔ bag.fm.content = 0 := by
  unfold Bag.isEmptyBag FM.sizeFM
  rw [AvlTree.size_eq, decide_eq_true_eq, List.length_eq_zero_iff]
  constructor
  · intro none
    unfold FM.content
    rw [none]
    rfl
  · intro none
    have unique := OrderedMap.card_toFinset_tally sound.order
      sound.sound.sorted sound.toNat_ne_zero
    unfold FM.content at none
    rw [none] at unique
    exact List.eq_nil_of_length_eq_zero unique.symm

private theorem isSingletonTotalBag_spec (wide : 1 < 2 ^ w) :
    Returns bag.isSingletonTotalBag fun holds =>
      holds = true ↔ bag.fm.content.card = 1 := by
  have unique := OrderedMap.card_toFinset_tally sound.order
    sound.sound.sorted sound.toNat_ne_zero
  unfold Bag.isSingletonTotalBag FM.sizeFM
  rw [AvlTree.size_eq]
  split
  · rename_i several
    apply Returns.pure
    simp only [Bool.false_eq_true, false_iff]
    intro single
    obtain ⟨x, only⟩ := Multiset.card_eq_one.mp single
    unfold FM.content at only
    rw [only] at unique
    exact several unique.symm
  · rename_i single
    have one := not_not.mp single
    cases root : bag.fm.root with
    | nil =>
        rw [root] at one
        cases one
    | node key val balance left right =>
        have leftNil : left = .nil := by
          cases left with
          | nil => rfl
          | node _ _ _ _ _ =>
              rw [root] at one
              simp [AvlTree.toList] at one
              omega
        have rightNil : right = .nil := by
          cases right with
          | nil => rfl
          | node _ _ _ _ _ =>
              rw [root] at one
              simp [AvlTree.toList] at one
              omega
        subst leftNil rightNil
        change Returns (Except.ok (decide (val = 1))) _
        apply Returns.ok
        unfold FM.content
        rw [root, decide_eq_true_eq]
        simp only [AvlTree.toList, List.nil_append, OrderedMap.tally_cons,
          OrderedMap.tally_nil, add_zero, Multiset.card_replicate]
        rw [← BitVec.toNat_inj, toNat_one wide]

private theorem anyElementOfBag_spec :
    Satisfies (fun _ => bag.fm.content = 0) bag.anyElementOfBag
      (· ∈ bag.fm.content) := by
  unfold Bag.anyElementOfBag
  cases root : bag.fm.root with
  | nil =>
      unfold FM.content
      rw [root]
      rfl
  | node key val balance left right =>
      have entry : (key, val) ∈ bag.fm.root.toList := by
        rw [root, AvlTree.toList]
        simp
      have more : val.toNat ≠ 0 := sound.toNat_ne_zero _ entry
      have positive : 1 ≤ val := one_le_of_pos (Nat.pos_of_ne_zero more)
      dsimp only
      rw [tlAssert, if_pos positive, ok_bind]
      apply Satisfies.pure
      unfold FM.content
      rw [root, AvlTree.toList, OrderedMap.tally_append,
        OrderedMap.tally_cons]
      apply Multiset.mem_add.mpr (.inr (Multiset.mem_add.mpr (.inl _)))
      exact Multiset.mem_replicate.mpr ⟨more, rfl⟩

end Calls

theorem Bag.call_spec {bag : Bag w} (sound : bag.Sound) (call : BagCall w)
    (fits : ∀ x, (call.on bag.fm.content).count x < 2 ^ w)
    (wide : 1 < 2 ^ w) :
    Satisfies (fun _ => call = .anyElementOfBag ∧ bag.fm.content = 0)
      (bag.call call) fun result => result.1.Sound ∧
        result.1.fm.content = call.on bag.fm.content ∧
        call.Answers bag.fm.content result.2 := by
  cases call with
  | addToBag x =>
      have room := fits x
      rw [BagCall.on, Multiset.count_cons_self] at room
      apply (addToBag_spec sound room).satisfies.bind
      exact fun bag' added => ⟨added.1, added.2, trivial⟩
  | elemBag x =>
      apply (elemBag_spec sound x).satisfies.bind
      exact fun count counted => ⟨sound, rfl, counted⟩
  | sizeUniqueBag =>
      refine ⟨sound, rfl, ?_⟩
      have unique := OrderedMap.card_toFinset_tally sound.order
        sound.sound.sorted sound.toNat_ne_zero
      exact (AvlTree.size_eq _).trans unique.symm
  | sizeTotalBag =>
      have positive : ∀ entry ∈ bag.fm.root.toList, 1 ≤ entry.2 :=
        fun entry member => one_le_of_pos
          (Nat.pos_of_ne_zero (sound.toNat_ne_zero entry member))
      apply (sizeTotalWrk_spec bag.fm.root positive).satisfies.bind
      exact fun total summed => ⟨sound, rfl, summed⟩
  | delFromBag x =>
      apply (delFromBag_spec sound x).satisfies.bind
      exact fun result deleted => deleted
  | isEmptyBag => exact ⟨sound, rfl, isEmptyBag_spec sound⟩
  | isSingletonTotalBag =>
      apply (isSingletonTotalBag_spec sound wide).satisfies.bind
      exact fun holds single => ⟨sound, rfl, single⟩
  | anyElementOfBag =>
      have any := anyElementOfBag_spec sound
      apply (any.failing fun _ none => ⟨rfl, none⟩).bind
      exact fun x member => ⟨sound, rfl, member⟩

theorem Fits.head {content : Multiset (BitVec w)} {call : BagCall w}
    {rest : List (BagCall w)} (fits : Fits w content (call :: rest)) :
    ∀ x, (call.on content).count x < 2 ^ w :=
  fits 1

theorem Fits.tail {content : Multiset (BitVec w)} {call : BagCall w}
    {rest : List (BagCall w)} (fits : Fits w content (call :: rest)) :
    Fits w (call.on content) rest :=
  fun n => fits (n + 1)

theorem BagCall.card_on_le (call : BagCall w)
    (content : Multiset (BitVec w)) :
    (call.on content).card ≤ content.card + 1 := by
  cases call with
  | addToBag x => exact (Multiset.card_cons x content).le
  | delFromBag x =>
      exact (Multiset.card_le_card (Multiset.erase_le x content)).trans
        (Nat.le_succ _)
  | _ => exact Nat.le_succ _

/-- Few calls fit. -/
theorem Fits.of_length {content : Multiset (BitVec w)}
    {calls : List (BagCall w)}
    (few : content.card + calls.length < 2 ^ w) : Fits w content calls := by
  induction calls generalizing content with
  | nil =>
      intro n x
      rw [List.take_nil]
      exact (Multiset.count_le_card x content).trans_lt few
  | cons call rest induction =>
      intro n x
      rw [List.length_cons] at few
      cases n with
      | zero =>
          have least := Multiset.count_le_card x content
          exact least.trans_lt (by omega)
      | succ n =>
          have grown := call.card_on_le content
          exact induction (by omega) n x

theorem Bag.calls_spec (wide : 1 < 2 ^ w) (calls : List (BagCall w))
    {bag : Bag w} (sound : bag.Sound)
    (fits : Fits w bag.fm.content calls) :
    Satisfies (fun _ => WantsOfNothing bag.fm.content calls)
      (bag.calls calls) fun result => result.1.Sound ∧
        result.1.fm.content = calls.foldl BagCall.on bag.fm.content ∧
        AnswersAll bag.fm.content calls result.2 := by
  induction calls generalizing bag with
  | nil => exact ⟨sound, rfl, trivial⟩
  | cons call rest induction =>
      have first := bag.call_spec sound call fits.head wide
      apply (first.failing _).bind
      · intro result called
        obtain ⟨bag', answer⟩ := result
        obtain ⟨sound', content, answers⟩ := called
        dsimp only at sound' content answers ⊢
        have later := induction sound' (content ▸ fits.tail)
        apply (later.failing _).bind
        · intro result' called'
          obtain ⟨sound'', content', answers'⟩ := called'
          rw [content] at content' answers'
          exact ⟨sound'', content', answers, answers'⟩
        · intro stop wants
          obtain ⟨n, atN, none⟩ := wants
          rw [content] at none
          exact ⟨n + 1, atN, none⟩
      · intro stop wants
        exact ⟨0, congrArg some wants.1, wants.2⟩

/-- From a new bag every sequence of calls of which no count reaches the size
of a word is answered as by a multiset, and stops only where an element of the
empty bag is wanted. -/
theorem wordBag_is_multiset (w : Nat) (wide : 0 < w) (calls : List (BagCall w))
    (fits : Fits w 0 calls) :
    Satisfies (fun _ => WantsOfNothing 0 calls)
      ((Bag.newBag w).calls calls) fun result =>
        AnswersAll 0 calls result.2 ∧
        result.1.fm.content = calls.foldl BagCall.on 0 ∧
        result.1.fm.root.Balanced := by
  have new : (Bag.newBag w).Sound :=
    ⟨rfl, ⟨trivial, List.Pairwise.nil⟩, nofun⟩
  have ran := Bag.calls_spec (Nat.one_lt_two_pow wide.ne') calls new fits
  apply ran.mono
  intro result held
  exact ⟨held.2.2, held.2.1, held.1.sound.balanced⟩

theorem wordBag_is_multiset_threads :
    ∃ bag answers, (Bag.newBag 8).calls [.addToBag 7, .addToBag 3,
        .addToBag 7, .sizeTotalBag, .delFromBag 7, .elemBag 7,
        .sizeUniqueBag, .delFromBag 3, .isSingletonTotalBag,
        .anyElementOfBag] = .ok (bag, answers) ∧
      answers = [.done, .done, .done, .word 3, .verdict true, .word 1,
        .size 2, .verdict true, .verdict true, .word 7] ∧
      bag.fm.root.Balanced := by
  have fits : Fits 8 0 [.addToBag 7, .addToBag 3, .addToBag 7,
      .sizeTotalBag, .delFromBag 7, .elemBag 7, .sizeUniqueBag,
      .delFromBag 3, .isSingletonTotalBag, .anyElementOfBag] :=
    Fits.of_length (by decide)
  have seen : ((Bag.newBag 8).calls [.addToBag 7, .addToBag 3, .addToBag 7,
      .sizeTotalBag, .delFromBag 7, .elemBag 7, .sizeUniqueBag,
      .delFromBag 3, .isSingletonTotalBag,
      .anyElementOfBag]).toOption.map Prod.snd = some [.done, .done, .done,
        .word 3, .verdict true, .word 1, .size 2, .verdict true,
        .verdict true, .word 7] := by
    decide
  obtain ⟨⟨bag, answers⟩, ran, same⟩ := exists_ok_of_map seen
  have held := (wordBag_is_multiset 8 (by decide) _ fits).of_eq_ok ran
  exact ⟨bag, answers, ran, same, held.2.2⟩

end Runs

end WordFM

end HelgrindPlus
