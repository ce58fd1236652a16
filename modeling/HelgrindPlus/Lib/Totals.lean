import Mathlib.Algebra.BigOperators.Group.List.Basic
import Mathlib.Data.Finmap

/-!
# Totals over finite maps

The sum of a quantity over the values of a finite map, and how it changes
when one binding does.
-/

namespace AList

variable {κ ν M : Type} [DecidableEq κ] [AddCommMonoid M]

def total (quantity : ν → M) (map : AList (fun _ : κ => ν)) : M :=
  (map.entries.map (fun entry => quantity entry.2)).sum

theorem total_insert (quantity : ν → M) (key : κ) (value : ν)
    (map : AList (fun _ : κ => ν)) :
    total quantity (map.insert key value) =
      quantity value + total quantity (map.erase key) := by
  simp [total, AList.insert, AList.erase, List.kinsert]

/-- A binding contributes its own quantity. -/
theorem total_eq_of_lookup (quantity : ν → M) {key : κ} {value : ν}
    {map : AList (fun _ : κ => ν)} (bound : map.lookup key = some value) :
    total quantity map =
      quantity value + total quantity (map.erase key) := by
  obtain ⟨entries, nodup⟩ := map
  have present : key ∈ entries.keys := by
    rw [← List.dlookup_isSome]
    exact Option.isSome_iff_exists.mpr ⟨value, bound⟩
  obtain ⟨stored, left, right, absent, split, erased⟩ :=
    List.exists_of_kerase present
  have same : stored = value := by
    have found : (left ++ ⟨key, stored⟩ :: right).dlookup key =
        some value := by
      rw [← split]
      exact bound
    have missing : left.dlookup key = none := List.dlookup_eq_none.mpr absent
    rw [List.dlookup_append, missing] at found
    simpa using found
  subst same
  simp only [total, AList.erase]
  rw [erased, split]
  simp only [List.map_append, List.map_cons, List.sum_append, List.sum_cons]
  exact add_left_comm _ _ _

theorem total_erase_of_notBound (quantity : ν → M) {key : κ}
    {map : AList (fun _ : κ => ν)} (unbound : map.lookup key = none) :
    total quantity (map.erase key) = total quantity map := by
  have absent : key ∉ map.entries.keys := List.dlookup_eq_none.mp unbound
  simp only [total, AList.erase]
  rw [List.kerase_of_notMem_keys absent]

omit [DecidableEq κ] in
theorem total_one (map : AList (fun _ : κ => ν)) :
    map.total (fun _ => 1) = map.entries.length := by
  simp [total]

theorem length_insert_of_bound {key : κ}
    {map : AList (fun _ : κ => ν)} (bound : map.lookup key ≠ none)
    (new : ν) : (map.insert key new).entries.length = map.entries.length := by
  obtain ⟨old, isOld⟩ := Option.ne_none_iff_exists'.mp bound
  rw [← total_one, ← total_one, total_insert, total_eq_of_lookup _ isOld]

theorem length_insert_of_notBound {key : κ} {map : AList (fun _ : κ => ν)}
    (unbound : map.lookup key = none) (new : ν) :
    (map.insert key new).entries.length = map.entries.length + 1 := by
  rw [← total_one, ← total_one, total_insert,
    total_erase_of_notBound _ unbound, add_comm]

theorem length_erase_of_bound {key : κ} {map : AList (fun _ : κ => ν)}
    (bound : map.lookup key ≠ none) :
    (map.erase key).entries.length + 1 = map.entries.length := by
  obtain ⟨old, isOld⟩ := Option.ne_none_iff_exists'.mp bound
  rw [← total_one, ← total_one, total_eq_of_lookup _ isOld, add_comm]

end AList
