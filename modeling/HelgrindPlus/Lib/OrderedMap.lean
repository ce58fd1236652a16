import Mathlib.Data.List.Basic
import Mathlib.Tactic.Common

/-!
# Finite maps as ordered lists of entries

A finite map whose keys are compared by a function with negative, zero and
positive results.  The entries are listed in the order of their keys, and no
two of them have keys that compare as equal.  What the operations do to a list
that has an entry in the middle is said by that entry and one half.
-/

namespace OrderedMap

variable {α β : Type}

/-- The comparison is a total order, up to keys that compare as equal. -/
structure TotalOrder (cmp : α → α → Int) : Prop where
  opposite : ∀ a b, cmp a b < 0 ↔ 0 < cmp b a
  trans : ∀ a b c, cmp a b ≤ 0 → cmp b c ≤ 0 → cmp a c ≤ 0

namespace TotalOrder

variable {cmp : α → α → Int} (total : TotalOrder cmp) {a b c : α}

include total

theorem nonneg_iff : 0 ≤ cmp a b ↔ cmp b a ≤ 0 := by
  have := total.opposite a b
  omega

theorem eq_zero_comm : cmp a b = 0 ↔ cmp b a = 0 := by
  have first := total.opposite a b
  have second := total.opposite b a
  omega

theorem refl (a : α) : cmp a a = 0 := by
  have := total.opposite a a
  omega

theorem lt_of_lt_of_le (first : cmp a b < 0) (second : cmp b c ≤ 0) :
    cmp a c < 0 := by
  by_contra above
  have back : cmp c a ≤ 0 := total.nonneg_iff.mp (by omega)
  have := total.trans b c a second back
  have := (total.opposite a b).mp first
  omega

theorem lt_of_le_of_lt (first : cmp a b ≤ 0) (second : cmp b c < 0) :
    cmp a c < 0 := by
  by_contra above
  have back : cmp c a ≤ 0 := total.nonneg_iff.mp (by omega)
  have := total.trans c a b back first
  have := (total.opposite b c).mp second
  omega

theorem lt_trans (first : cmp a b < 0) (second : cmp b c < 0) :
    cmp a c < 0 :=
  total.lt_of_lt_of_le first (by omega)

private theorem eq_zero_trans (first : cmp a b = 0) (second : cmp b c = 0) :
    cmp a c = 0 := by
  have low := total.trans a b c (Int.le_of_eq first) (Int.le_of_eq second)
  have high := total.trans c b a
    (Int.le_of_eq (total.eq_zero_comm.mp second))
    (Int.le_of_eq (total.eq_zero_comm.mp first))
  have := total.nonneg_iff.mpr high
  omega

end TotalOrder

section Operations

variable (cmp : α → α → Int)

/-- The entries are in the order of their keys. -/
def Sorted (entries : List (α × β)) : Prop :=
  entries.Pairwise fun entry entry' => cmp entry.1 entry'.1 < 0

def before (key : α) (entries : List (α × β)) : List (α × β) :=
  entries.filter fun entry => cmp entry.1 key < 0

def after (key : α) (entries : List (α × β)) : List (α × β) :=
  entries.filter fun entry => 0 < cmp entry.1 key

/-- The entries whose keys are not below the key. -/
def atOrAfter (key : α) (entries : List (α × β)) : List (α × β) :=
  entries.filter fun entry => 0 ≤ cmp entry.1 key

def lookup (key : α) (entries : List (α × β)) : Option (α × β) :=
  entries.find? fun entry => cmp entry.1 key = 0

/-- The entry of the key gets the value.  A key that is there is kept. -/
def add (key : α) (val : β) (entries : List (α × β)) : List (α × β) :=
  before cmp key entries ++
    ((((lookup cmp key entries).map Prod.fst).getD key, val) ::
      after cmp key entries)

def remove (key : α) (entries : List (α × β)) : List (α × β) :=
  entries.filter fun entry => cmp entry.1 key ≠ 0

end Operations

section Splitting

variable {cmp : α → α → Int} {key : α}

theorem before_eq_nil {entries : List (α × β)}
    (none : ∀ entry ∈ entries, 0 ≤ cmp entry.1 key) :
    before cmp key entries = [] := by
  apply List.filter_eq_nil_iff.mpr
  intro entry member
  have := none entry member
  simp only [decide_eq_true_eq]
  omega

theorem before_eq_self {entries : List (α × β)}
    (all : ∀ entry ∈ entries, cmp entry.1 key < 0) :
    before cmp key entries = entries := by
  apply List.filter_eq_self.mpr
  intro entry member
  simp [all entry member]

theorem after_eq_nil {entries : List (α × β)}
    (none : ∀ entry ∈ entries, cmp entry.1 key ≤ 0) :
    after cmp key entries = [] := by
  apply List.filter_eq_nil_iff.mpr
  intro entry member
  have := none entry member
  simp only [decide_eq_true_eq]
  omega

theorem after_eq_self {entries : List (α × β)}
    (all : ∀ entry ∈ entries, 0 < cmp entry.1 key) :
    after cmp key entries = entries := by
  apply List.filter_eq_self.mpr
  intro entry member
  simp [all entry member]

theorem atOrAfter_eq_nil {entries : List (α × β)}
    (none : ∀ entry ∈ entries, cmp entry.1 key < 0) :
    atOrAfter cmp key entries = [] := by
  apply List.filter_eq_nil_iff.mpr
  intro entry member
  have := none entry member
  simp only [decide_eq_true_eq]
  omega

theorem atOrAfter_eq_self {entries : List (α × β)}
    (all : ∀ entry ∈ entries, 0 ≤ cmp entry.1 key) :
    atOrAfter cmp key entries = entries := by
  apply List.filter_eq_self.mpr
  intro entry member
  simp [all entry member]

theorem lookup_eq_none {entries : List (α × β)}
    (absent : ∀ entry ∈ entries, cmp entry.1 key ≠ 0) :
    lookup cmp key entries = none := by
  apply List.find?_eq_none.mpr
  intro entry member
  simpa using absent entry member

theorem remove_eq_self {entries : List (α × β)}
    (none : ∀ entry ∈ entries, cmp entry.1 key ≠ 0) :
    remove cmp key entries = entries := by
  apply List.filter_eq_self.mpr
  intro entry member
  simpa using none entry member

/-- A new key finds its place. -/
theorem add_between {left right : List (α × β)}
    (below : ∀ entry ∈ left, cmp entry.1 key < 0)
    (above : ∀ entry ∈ right, 0 < cmp entry.1 key) (val : β) :
    add cmp key val (left ++ right) = left ++ (key, val) :: right := by
  have leftBefore := before_eq_self below
  have rightBefore : before cmp key right = [] :=
    before_eq_nil fun entry member => Int.le_of_lt (above entry member)
  have leftAfter : after cmp key left = [] :=
    after_eq_nil fun entry member => Int.le_of_lt (below entry member)
  have rightAfter := after_eq_self above
  have absent : lookup cmp key (left ++ right) = none := by
    apply lookup_eq_none
    intro entry member
    rcases List.mem_append.mp member with isLeft | isRight
    · exact Int.ne_of_lt (below entry isLeft)
    · exact (Int.ne_of_lt (above entry isRight)).symm
  unfold before at leftBefore rightBefore
  unfold after at leftAfter rightAfter
  rw [add, absent, before, after, List.filter_append, List.filter_append,
    leftBefore, rightBefore, leftAfter, rightAfter, List.append_nil]
  rfl

variable (total : TotalOrder cmp) {left right : List (α × β)} {entry : α × β}
  (sorted : Sorted cmp (left ++ entry :: right))

include sorted in
theorem Sorted.of_left : Sorted cmp left :=
  (List.pairwise_append.mp sorted).1

include sorted in
theorem Sorted.of_right : Sorted cmp right :=
  (List.pairwise_cons.mp (List.pairwise_append.mp sorted).2.1).2

include sorted in
theorem Sorted.left_lt : ∀ other ∈ left, cmp other.1 entry.1 < 0 :=
  fun other member => (List.pairwise_append.mp sorted).2.2 other member entry
    List.mem_cons_self

include sorted in
theorem Sorted.lt_right : ∀ other ∈ right, cmp entry.1 other.1 < 0 :=
  (List.pairwise_cons.mp (List.pairwise_append.mp sorted).2.1).1

section Below

variable (below : 0 < cmp entry.1 key)

include total sorted below

theorem Sorted.right_above :
    ∀ other ∈ right, 0 < cmp other.1 key := by
  intro other member
  apply (total.opposite key other.1).mp
  exact total.lt_trans ((total.opposite key entry.1).mpr below)
    (sorted.lt_right other member)

theorem before_below :
    before cmp key (left ++ entry :: right) = before cmp key left := by
  have rest : before cmp key (entry :: right) = [] := by
    apply before_eq_nil
    intro other member
    obtain rfl | later := List.mem_cons.mp member
    · omega
    · have := sorted.right_above total below other later
      omega
  rw [before, List.filter_append]
  exact (congrArg (before cmp key left ++ ·) rest).trans (List.append_nil _)

theorem after_below :
    after cmp key (left ++ entry :: right) =
      after cmp key left ++ entry :: right := by
  have rest : after cmp key (entry :: right) = entry :: right := by
    apply after_eq_self
    intro other member
    obtain rfl | later := List.mem_cons.mp member
    · exact below
    · exact sorted.right_above total below other later
  rw [after, List.filter_append]
  exact congrArg (after cmp key left ++ ·) rest

theorem atOrAfter_below :
    atOrAfter cmp key (left ++ entry :: right) =
      atOrAfter cmp key left ++ entry :: right := by
  have rest : atOrAfter cmp key (entry :: right) = entry :: right := by
    apply atOrAfter_eq_self
    intro other member
    obtain rfl | later := List.mem_cons.mp member
    · omega
    · have := sorted.right_above total below other later
      omega
  rw [atOrAfter, List.filter_append]
  exact congrArg (atOrAfter cmp key left ++ ·) rest

theorem lookup_below :
    lookup cmp key (left ++ entry :: right) = lookup cmp key left := by
  have rest : lookup cmp key (entry :: right) = none := by
    apply lookup_eq_none
    intro other member
    obtain rfl | later := List.mem_cons.mp member
    · omega
    · have := sorted.right_above total below other later
      omega
  rw [lookup, List.find?_append]
  exact (congrArg ((lookup cmp key left).or ·) rest).trans Option.or_none

theorem add_below (val : β) :
    add cmp key val (left ++ entry :: right) =
      add cmp key val left ++ entry :: right := by
  rw [add, before_below total sorted below, after_below total sorted below,
    lookup_below total sorted below, add, List.append_assoc, List.cons_append]

theorem remove_below :
    remove cmp key (left ++ entry :: right) =
      remove cmp key left ++ entry :: right := by
  have rest : remove cmp key (entry :: right) = entry :: right := by
    apply remove_eq_self
    intro other member
    obtain rfl | later := List.mem_cons.mp member
    · omega
    · have := sorted.right_above total below other later
      omega
  rw [remove, List.filter_append]
  exact congrArg (remove cmp key left ++ ·) rest

end Below

section Above

variable (above : cmp entry.1 key < 0)

include total sorted above

theorem Sorted.left_below : ∀ other ∈ left, cmp other.1 key < 0 :=
  fun other member => total.lt_trans (sorted.left_lt other member) above

theorem before_above :
    before cmp key (left ++ entry :: right) =
      left ++ entry :: before cmp key right := by
  have first : before cmp key left = left :=
    before_eq_self (sorted.left_below total above)
  have kept : before cmp key (entry :: right) =
      entry :: before cmp key right :=
    List.filter_cons_of_pos (by simpa using above)
  rw [before, List.filter_append]
  exact congrArg₂ (· ++ ·) first kept

theorem after_above :
    after cmp key (left ++ entry :: right) = after cmp key right := by
  have first : after cmp key left = [] := by
    apply after_eq_nil
    intro other member
    have := sorted.left_below total above other member
    omega
  have passed : after cmp key (entry :: right) = after cmp key right := by
    apply List.filter_cons_of_neg
    simp only [decide_eq_true_eq]
    omega
  rw [after, List.filter_append]
  exact congrArg₂ (· ++ ·) first passed

theorem atOrAfter_above :
    atOrAfter cmp key (left ++ entry :: right) = atOrAfter cmp key right := by
  have first : atOrAfter cmp key left = [] :=
    atOrAfter_eq_nil (sorted.left_below total above)
  have passed : atOrAfter cmp key (entry :: right) =
      atOrAfter cmp key right := by
    apply List.filter_cons_of_neg
    simp only [decide_eq_true_eq]
    omega
  rw [atOrAfter, List.filter_append]
  exact congrArg₂ (· ++ ·) first passed

theorem lookup_above :
    lookup cmp key (left ++ entry :: right) = lookup cmp key right := by
  have first : lookup cmp key left = none := by
    apply lookup_eq_none
    intro other member
    have := sorted.left_below total above other member
    omega
  have passed : lookup cmp key (entry :: right) = lookup cmp key right := by
    apply List.find?_cons_of_neg
    simp only [decide_eq_true_eq]
    omega
  rw [lookup, List.find?_append]
  exact congrArg₂ Option.or first passed

theorem add_above (val : β) :
    add cmp key val (left ++ entry :: right) =
      left ++ entry :: add cmp key val right := by
  rw [add, before_above total sorted above, after_above total sorted above,
    lookup_above total sorted above, add, List.append_assoc, List.cons_append]

theorem remove_above :
    remove cmp key (left ++ entry :: right) =
      left ++ entry :: remove cmp key right := by
  have first : remove cmp key left = left := by
    apply remove_eq_self
    intro other member
    have := sorted.left_below total above other member
    omega
  have kept : remove cmp key (entry :: right) =
      entry :: remove cmp key right := by
    apply List.filter_cons_of_pos
    simp only [decide_eq_true_eq]
    omega
  rw [remove, List.filter_append]
  exact congrArg₂ (· ++ ·) first kept

end Above

section Equal

variable (same : cmp entry.1 key = 0)

include total sorted same

theorem Sorted.left_of_same : ∀ other ∈ left, cmp other.1 key < 0 :=
  fun other member =>
    total.lt_of_lt_of_le (sorted.left_lt other member) (Int.le_of_eq same)

theorem Sorted.right_of_same : ∀ other ∈ right, 0 < cmp other.1 key := by
  intro other member
  apply (total.opposite key other.1).mp
  exact total.lt_of_le_of_lt (Int.le_of_eq (total.eq_zero_comm.mp same))
    (sorted.lt_right other member)

theorem before_same : before cmp key (left ++ entry :: right) = left := by
  have rest : before cmp key (entry :: right) = [] := by
    apply before_eq_nil
    intro other member
    obtain rfl | later := List.mem_cons.mp member
    · omega
    · have := sorted.right_of_same total same other later
      omega
  have first := before_eq_self (sorted.left_of_same total same)
  rw [before, List.filter_append]
  exact (congrArg₂ (· ++ ·) first rest).trans (List.append_nil left)

theorem after_same : after cmp key (left ++ entry :: right) = right := by
  have first : after cmp key left = [] := by
    apply after_eq_nil
    intro other member
    have := sorted.left_of_same total same other member
    omega
  have rest : after cmp key (entry :: right) = right := by
    refine (List.filter_cons_of_neg ?_).trans
      (after_eq_self (sorted.right_of_same total same))
    simp only [decide_eq_true_eq]
    omega
  rw [after, List.filter_append]
  exact congrArg₂ (· ++ ·) first rest

theorem atOrAfter_same :
    atOrAfter cmp key (left ++ entry :: right) = entry :: right := by
  have first : atOrAfter cmp key left = [] :=
    atOrAfter_eq_nil (sorted.left_of_same total same)
  have rest : atOrAfter cmp key (entry :: right) = entry :: right := by
    apply atOrAfter_eq_self
    intro other member
    obtain rfl | later := List.mem_cons.mp member
    · omega
    · have := sorted.right_of_same total same other later
      omega
  rw [atOrAfter, List.filter_append]
  exact congrArg₂ (· ++ ·) first rest

theorem lookup_same :
    lookup cmp key (left ++ entry :: right) = some entry := by
  have first : lookup cmp key left = none := by
    apply lookup_eq_none
    intro other member
    have := sorted.left_of_same total same other member
    omega
  have found : lookup cmp key (entry :: right) = some entry :=
    List.find?_cons_of_pos (by simpa using same)
  rw [lookup, List.find?_append]
  exact congrArg₂ Option.or first found

theorem add_same (val : β) :
    add cmp key val (left ++ entry :: right) =
      left ++ (entry.1, val) :: right := by
  rw [add, before_same total sorted same, after_same total sorted same,
    lookup_same total sorted same]
  rfl

theorem remove_same :
    remove cmp key (left ++ entry :: right) = left ++ right := by
  have first : remove cmp key left = left := by
    apply remove_eq_self
    intro other member
    have := sorted.left_of_same total same other member
    omega
  have rest : remove cmp key right = right := by
    apply remove_eq_self
    intro other member
    have := sorted.right_of_same total same other member
    omega
  have passed : remove cmp key (entry :: right) = remove cmp key right :=
    List.filter_cons_of_neg (by simpa using same)
  rw [remove, List.filter_append]
  exact congrArg₂ (· ++ ·) first (passed.trans rest)

end Equal

end Splitting

section Order

variable {cmp : α → α → Int} {entries : List (α × β)}

theorem lookup_eq_some {key : α} {entry : α × β}
    (found : lookup cmp key entries = some entry) :
    entry ∈ entries ∧ cmp entry.1 key = 0 :=
  ⟨List.mem_of_find?_eq_some found, by simpa using List.find?_some found⟩

theorem remove_of_lookup_none {key : α}
    (absent : lookup cmp key entries = none) :
    remove cmp key entries = entries := by
  apply remove_eq_self
  intro entry member
  simpa using List.find?_eq_none.mp absent entry member

theorem remove_congr (total : TotalOrder cmp) {key key' : α}
    (same : cmp key key' = 0) :
    remove cmp key entries = remove cmp key' entries := by
  apply List.filter_congr
  intro entry _
  have there : cmp entry.1 key = 0 → cmp entry.1 key' = 0 :=
    fun equal => total.eq_zero_trans equal same
  have back : cmp entry.1 key' = 0 → cmp entry.1 key = 0 :=
    fun equal => total.eq_zero_trans equal (total.eq_zero_comm.mp same)
  simp only [ne_eq, decide_not, Bool.not_inj_iff, decide_eq_decide]
  exact ⟨there, back⟩

theorem Sorted.remove (sorted : Sorted cmp entries) (key : α) :
    Sorted cmp (OrderedMap.remove cmp key entries) :=
  List.Pairwise.filter _ sorted

theorem Sorted.add (total : TotalOrder cmp) (sorted : Sorted cmp entries)
    (key : α) (val : β) : Sorted cmp (OrderedMap.add cmp key val entries) := by
  have stored : cmp (((lookup cmp key entries).map Prod.fst).getD key) key =
      0 := by
    cases found : lookup cmp key entries with
    | none => exact total.refl key
    | some entry => exact (lookup_eq_some found).2
  have low : ∀ entry ∈ before cmp key entries, cmp entry.1 key < 0 := by
    intro entry member
    simpa using (List.mem_filter.mp member).2
  have high : ∀ entry ∈ after cmp key entries, cmp key entry.1 < 0 := by
    intro entry member
    apply (total.opposite key entry.1).mpr
    simpa using (List.mem_filter.mp member).2
  apply List.pairwise_append.mpr
  refine ⟨List.Pairwise.filter _ sorted, List.pairwise_cons.mpr
    ⟨?_, List.Pairwise.filter _ sorted⟩, ?_⟩
  · intro other member
    exact total.lt_of_le_of_lt (Int.le_of_eq stored) (high other member)
  · intro entry first other member
    have least := total.lt_of_lt_of_le (low entry first)
      (Int.le_of_eq (total.eq_zero_comm.mp stored))
    obtain rfl | later := List.mem_cons.mp member
    · exact least
    · exact total.lt_trans (low entry first) (high other later)

end Order

end OrderedMap
