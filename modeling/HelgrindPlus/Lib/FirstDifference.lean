import Mathlib.Data.List.Infix
import Mathlib.Tactic.Common

/-!
# The first difference of two lists

Two lists are compared item by item, up to the first place at which they
differ.  A list that is too short for the other is reported, as by a loop over
the first list that expects the second to have as many items.
-/

namespace FirstDifference

variable {α β : Type}

/-- Two lists that agree up to a place. -/
structure At (xs ys : List α) (x y : α) : Prop where
  differ : x ≠ y
  place : ∃ common xs' ys', xs = common ++ x :: xs' ∧ ys = common ++ y :: ys'

/-- Three lists that agree up to a place. -/
def Place (xs ys zs : List α) (x y z : α) : Prop :=
  ∃ common xs' ys' zs', xs = common ++ x :: xs' ∧ ys = common ++ y :: ys' ∧
    zs = common ++ z :: zs'

section Compare

variable [DecidableEq α] (distance : α → α → β) (same : β)

/-- What the two lists differ by; `none` where the second has run out. -/
def compare : List α → List α → Option β
  | [], _ => some same
  | _ :: _, [] => none
  | x :: xs, y :: ys =>
      if x = y then compare xs ys else some (distance x y)

variable {distance same} {xs ys zs : List α} {x y z : α}

theorem compare_at (place : At xs ys x y) :
    compare distance same xs ys = some (distance x y) := by
  obtain ⟨differ, common, xs', ys', rfl, rfl⟩ := place
  induction common with
  | nil => exact if_neg differ
  | cons first common induction => exact (if_pos rfl).trans induction

theorem At.unique {x' y' : α} (place : At xs ys x y)
    (place' : At xs ys x' y') : x = x' ∧ y = y' := by
  have first : compare Prod.mk (x, y) xs ys = some (x, y) := compare_at place
  have second : compare Prod.mk (x, y) xs ys = some (x', y') :=
    compare_at place'
  exact Prod.mk.inj (Option.some.inj (first.symm.trans second))

theorem compare_append (ys : List α) :
    compare distance same xs (xs ++ ys) = some same := by
  induction xs with
  | nil => exact compare.eq_1 ..
  | cons first xs induction => exact (if_pos rfl).trans induction

theorem compare_self : compare distance same xs xs = some same := by
  have kept := @compare_append α β _ distance same xs []
  rwa [List.append_nil] at kept

theorem compare_longer : compare distance same (xs ++ y :: ys) xs = none := by
  induction xs with
  | nil => rfl
  | cons first xs induction => exact (if_pos rfl).trans induction

end Compare

section Places

variable {xs ys zs : List α} {x y z : α}

theorem At.symm (place : At xs ys x y) : At ys xs y x := by
  obtain ⟨differ, common, xs', ys', first, second⟩ := place
  exact ⟨differ.symm, common, ys', xs', second, first⟩

theorem At.ne (place : At xs ys x y) : xs ≠ ys := by
  obtain ⟨differ, common, xs', ys', rfl, rfl⟩ := place
  intro same
  exact differ (List.cons.inj (List.append_cancel_left same)).1

theorem At.cons (place : At xs ys x y) (first : α) :
    At (first :: xs) (first :: ys) x y := by
  obtain ⟨differ, common, xs', ys', rfl, rfl⟩ := place
  exact ⟨differ, first :: common, xs', ys', rfl, rfl⟩

theorem Place.first (place : Place xs ys zs x y z) (differ : x ≠ y) :
    At xs ys x y := by
  obtain ⟨common, xs', ys', zs', isXs, isYs, -⟩ := place
  exact ⟨differ, common, xs', ys', isXs, isYs⟩

theorem Place.second (place : Place xs ys zs x y z) (differ : y ≠ z) :
    At ys zs y z := by
  obtain ⟨common, xs', ys', zs', -, isYs, isZs⟩ := place
  exact ⟨differ, common, ys', zs', isYs, isZs⟩

theorem Place.outer (place : Place xs ys zs x y z) (differ : x ≠ z) :
    At xs zs x z := by
  obtain ⟨common, xs', ys', zs', isXs, -, isZs⟩ := place
  exact ⟨differ, common, xs', zs', isXs, isZs⟩

theorem Place.cons (place : Place xs ys zs x y z) (first : α) :
    Place (first :: xs) (first :: ys) (first :: zs) x y z := by
  obtain ⟨common, xs', ys', zs', rfl, rfl, rfl⟩ := place
  exact ⟨first :: common, xs', ys', zs', rfl, rfl, rfl⟩

/-- Two lists begin alike, or differ somewhere. -/
theorem cases (xs ys : List α) :
    (∃ more, ys = xs ++ more) ∨ (∃ y more, xs = ys ++ y :: more) ∨
      ∃ x y, At xs ys x y := by
  classical
  induction xs generalizing ys with
  | nil => exact .inl ⟨ys, rfl⟩
  | cons x xs induction =>
      cases ys with
      | nil => exact .inr (.inl ⟨x, xs, rfl⟩)
      | cons y ys =>
          by_cases same : x = y
          · subst same
            obtain ⟨more, rfl⟩ | ⟨y, more, rfl⟩ | ⟨x', y', place⟩ :=
              induction ys
            · exact .inl ⟨more, rfl⟩
            · exact .inr (.inl ⟨y, more, rfl⟩)
            · exact .inr (.inr ⟨x', y', place.cons x⟩)
          · exact .inr (.inr ⟨x, y, same, [], xs, ys, rfl, rfl⟩)

/-- The outer two of three lists differ where the middle one first differs
from one of them, unless it differs from both at one place. -/
theorem At.trans {y' : α} (first : At xs ys x y) (second : At ys zs y' z) :
    At xs zs x y ∨ At xs zs y' z ∨ (y = y' ∧ Place xs ys zs x y z) := by
  obtain ⟨differ, common, xs', ys', isXs, isYs⟩ := first
  obtain ⟨differ', common', ys'', zs', isYs', isZs⟩ := second
  subst isXs isYs isZs
  induction common generalizing common' with
  | nil =>
      cases common' with
      | nil =>
          obtain ⟨rfl, rfl⟩ := List.cons.inj isYs'
          exact .inr (.inr ⟨rfl, [], xs', ys', zs', rfl, rfl, rfl⟩)
      | cons item common' =>
          obtain ⟨rfl, -⟩ := List.cons.inj isYs'
          exact .inl ⟨differ, [], xs', common' ++ z :: zs', rfl, rfl⟩
  | cons item common induction =>
      cases common' with
      | nil =>
          obtain ⟨rfl, -⟩ := List.cons.inj isYs'
          exact .inr (.inl ⟨differ', [], common ++ x :: xs', zs', rfl, rfl⟩)
      | cons item' common' =>
          obtain ⟨rfl, rest⟩ := List.cons.inj isYs'
          obtain atFirst | atSecond | ⟨same, place⟩ := induction common' rest
          · exact .inl (atFirst.cons item)
          · exact .inr (.inl (atSecond.cons item))
          · exact .inr (.inr ⟨same, place.cons item⟩)

end Places

end FirstDifference
