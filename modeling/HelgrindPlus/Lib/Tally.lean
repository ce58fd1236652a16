import HelgrindPlus.Lib.OrderedMap
import Mathlib

/-!
# Multisets as ordered maps

A finite map from elements to counts stands for a multiset.  What the
operations of the map do to it is said by the counts that they write and take
away.
-/

namespace OrderedMap

variable {α β : Type} (count : β → Nat)

/-- The multiset that a map with counts stands for. -/
def tally (entries : List (α × β)) : Multiset α :=
  (entries.map fun entry => Multiset.replicate (count entry.2) entry.1).sum

@[simp] theorem tally_nil : tally count ([] : List (α × β)) = 0 := rfl

@[simp] theorem tally_cons (entry : α × β) (entries : List (α × β)) :
    tally count (entry :: entries) =
      Multiset.replicate (count entry.2) entry.1 + tally count entries := by
  simp [tally]

@[simp] theorem tally_append (left right : List (α × β)) :
    tally count (left ++ right) = tally count left + tally count right := by
  simp [tally]

theorem mem_tally {entries : List (α × β)} {key : α}
    (member : key ∈ tally count entries) :
    ∃ entry ∈ entries, entry.1 = key := by
  induction entries with
  | nil => simp at member
  | cons entry rest induction =>
      rw [tally_cons, Multiset.mem_add] at member
      rcases member with here | later
      · exact ⟨entry, List.mem_cons_self, (Multiset.eq_of_mem_replicate here).symm⟩
      · obtain ⟨other, inRest, same⟩ := induction later
        exact ⟨other, List.mem_cons_of_mem _ inRest, same⟩

/-- The order tells all elements apart. -/
structure Distinguishes (cmp : α → α → Int) : Prop where
  total : TotalOrder cmp
  eq_of_same : ∀ a b, cmp a b = 0 → a = b

section Operations

variable {count} {cmp : α → α → Int} {entries : List (α × β)} {key : α}
  {old val : β}

section Lookup

/-- An entry that is found stands between the smaller and the larger ones. -/
theorem split_of_lookup (order : Distinguishes cmp) {entry : α × β}
    (found : lookup cmp key entries = some entry) :
    entry.1 = key ∧ ∃ left right, entries = left ++ entry :: right := by
  obtain ⟨member, same⟩ := lookup_eq_some found
  exact ⟨order.eq_of_same _ _ same, List.append_of_mem member⟩

theorem not_mem_tally_of_lookup_none (order : Distinguishes cmp)
    (absent : lookup cmp key entries = none) : key ∉ tally count entries := by
  intro member
  obtain ⟨entry, inside, same⟩ := mem_tally count member
  have differs := List.find?_eq_none.mp absent entry inside
  rw [same] at differs
  exact differs (by simpa using order.total.refl key)

/-- A count for a new element. -/
theorem tally_add_of_lookup_none (val : β)
    (absent : lookup cmp key entries = none) :
    tally count (add cmp key val entries) =
      Multiset.replicate (count val) key + tally count entries := by
  have others : (before cmp key entries ++ after cmp key entries).Perm
      entries := by
    have split := List.filter_append_perm
      (fun entry => decide (cmp entry.1 key < 0)) entries
    have above : after cmp key entries =
        entries.filter fun entry => !decide (cmp entry.1 key < 0) := by
      apply List.filter_congr
      intro entry member
      have differs := List.find?_eq_none.mp absent entry member
      simp only [decide_eq_true_eq] at differs
      rw [← decide_not, decide_eq_decide]
      omega
    rw [above]
    exact split
  have same : tally count (before cmp key entries) +
      tally count (after cmp key entries) = tally count entries := by
    rw [← tally_append]
    exact (others.map _).sum_eq
  rw [add, absent, tally_append, tally_cons, ← same]
  simp only [Option.map_none, Option.getD_none, add_left_comm]

variable (order : Distinguishes cmp) (sorted : Sorted cmp entries)

include order sorted

variable (count) in
theorem not_mem_tally_around {left right : List (α × β)} {entry : α × β}
    (split : entries = left ++ entry :: right) :
    entry.1 ∉ tally count left ∧ entry.1 ∉ tally count right := by
  subst split
  constructor
  · intro member
    obtain ⟨other, inside, same⟩ := mem_tally count member
    have below := sorted.left_lt other inside
    rw [same, order.total.refl] at below
    exact lt_irrefl _ below
  · intro member
    obtain ⟨other, inside, same⟩ := mem_tally count member
    have above := sorted.lt_right other inside
    rw [same, order.total.refl] at above
    exact lt_irrefl _ above

theorem count_tally_of_lookup [DecidableEq α]
    (found : lookup cmp key entries = some (key, old)) :
    (tally count entries).count key = count old := by
  obtain ⟨-, left, right, split⟩ := split_of_lookup order found
  obtain ⟨notLeft, notRight⟩ :=
    not_mem_tally_around count order sorted split
  rw [split, tally_append, tally_cons, Multiset.count_add,
    Multiset.count_add, Multiset.count_eq_zero_of_notMem notLeft,
    Multiset.count_eq_zero_of_notMem notRight,
    Multiset.count_replicate_self, Nat.zero_add, Nat.add_zero]

variable (count) in
/-- A new count for an element that is there. -/
theorem tally_add_of_lookup (val : β)
    (found : lookup cmp key entries = some (key, old)) :
    tally count (add cmp key val entries) +
        Multiset.replicate (count old) key =
      tally count entries + Multiset.replicate (count val) key := by
  obtain ⟨-, left, right, split⟩ := split_of_lookup order found
  subst split
  rw [add_same order.total sorted (order.total.refl key), tally_append,
    tally_append, tally_cons, tally_cons]
  simp only [add_comm, add_left_comm]

variable (count) in
theorem tally_remove_of_lookup
    (found : lookup cmp key entries = some (key, old)) :
    tally count (remove cmp key entries) +
        Multiset.replicate (count old) key = tally count entries := by
  obtain ⟨-, left, right, split⟩ := split_of_lookup order found
  subst split
  rw [remove_same order.total sorted (order.total.refl key), tally_append,
    tally_append, tally_cons]
  simp only [add_comm, add_left_comm]

/-- There are as many entries as different elements. -/
theorem card_toFinset_tally [DecidableEq α]
    (positive : ∀ entry ∈ entries, count entry.2 ≠ 0) :
    (tally count entries).toFinset.card = entries.length := by
  have keys : (tally count entries).toFinset =
      (entries.map Prod.fst).toFinset := by
    ext key
    rw [Multiset.mem_toFinset, List.mem_toFinset, List.mem_map]
    constructor
    · exact mem_tally count
    · intro member
      obtain ⟨entry, inside, same⟩ := member
      obtain ⟨left, right, split⟩ := List.append_of_mem inside
      rw [split, tally_append, tally_cons, Multiset.mem_add,
        Multiset.mem_add, ← same]
      exact .inr (.inl (Multiset.mem_replicate.mpr ⟨positive entry inside, rfl⟩))
  have distinct : (entries.map Prod.fst).Nodup := by
    apply List.Pairwise.map _ _ sorted
    intro entry other below same
    rw [same, order.total.refl] at below
    exact lt_irrefl _ below
  rw [keys, List.toFinset_card_of_nodup distinct, List.length_map]

end Lookup

end Operations

end OrderedMap
