import HelgrindPlus.Dependency.AtomicAlias
import Mathlib.Data.Finset.Card

/-!
# Chains of aliases

The loop of `irsb_optimiseAtomicAlias` that follows an alias to its end stops,
also where a temporary is used before it is assigned: no alias is bound to a
chain that ends with its own temporary.
-/

namespace HelgrindPlus

namespace Dependency

open Outcome

section Chains

variable {aliases : Aliases}

/-- The loop that follows an alias would stop here. -/
def IRAlias.Ended (aliases : Aliases) (target : IRAlias) : Prop :=
  ∀ tmp, target = .tmp tmp → aliases tmp = .none

theorem ended_none : IRAlias.Ended aliases .none := by
  intro tmp same
  cases same

theorem ended_const (con : IRConst) : IRAlias.Ended aliases (.const con) := by
  intro tmp same
  cases same

theorem followAlias_of_ended {target : IRAlias}
    (ended : target.Ended aliases) (rounds : Nat) :
    followAlias aliases rounds target = target := by
  cases rounds with
  | zero => cases target <;> rfl
  | succ rounds =>
      cases target with
      | tmp tmp => rw [followAlias, if_pos (ended tmp rfl)]
      | none => rfl
      | const con => rfl

theorem followAlias_ne_none {target : IRAlias} (isAlias : target ≠ .none)
    (rounds : Nat) : followAlias aliases rounds target ≠ .none := by
  induction rounds generalizing target with
  | zero => cases target <;> exact isAlias
  | succ rounds induction =>
      cases target with
      | tmp tmp =>
          rw [followAlias]
          split
          · exact isAlias
          · next more => exact induction more
      | none => exact absurd rfl isAlias
      | const con => exact isAlias

/-- More rounds change nothing after the end. -/
theorem followAlias_mono {rounds rounds' : Nat} (more : rounds ≤ rounds')
    {target : IRAlias}
    (ended : (followAlias aliases rounds target).Ended aliases) :
    (followAlias aliases rounds' target).Ended aliases := by
  induction rounds generalizing target rounds' with
  | zero =>
      have here : followAlias aliases 0 target = target := by
        cases target <;> rfl
      rw [here] at ended
      rwa [followAlias_of_ended ended]
  | succ rounds induction =>
      obtain ⟨left, rfl⟩ : ∃ left, rounds' = left + 1 :=
        ⟨rounds' - 1, by omega⟩
      cases target with
      | tmp tmp =>
          rw [followAlias] at ended ⊢
          split
          · next last => rwa [if_pos last] at ended
          · next notLast =>
              rw [if_neg notLast] at ended
              exact induction (by omega) ended
      | none => exact ended_none
      | const con => exact ended_const con

/-- A new alias makes the chains longer by one at most, and only if there was
none for its temporary. -/
theorem followAlias_update {tmp : Nat} {target : IRAlias}
    (ended : target.Ended aliases) (apart : target ≠ .tmp tmp)
    (rounds : Nat) (start : IRAlias)
    (before : (followAlias aliases rounds start).Ended aliases) :
    (followAlias (Function.update aliases tmp target)
      (rounds + if aliases tmp = .none then 1 else 0) start).Ended
      (Function.update aliases tmp target) := by
  have targetEnded : target.Ended (Function.update aliases tmp target) := by
    rintro other rfl
    have different : other ≠ tmp := by
      rintro rfl
      exact apart rfl
    rw [Function.update_of_ne different]
    exact ended other rfl
  -- a temporary without an alias, which may have got one
  have atEnd : ∀ (more : Nat) (other : Nat), aliases other = .none →
      (followAlias (Function.update aliases tmp target)
        (more + if aliases tmp = .none then 1 else 0) (.tmp other)).Ended
        (Function.update aliases tmp target) := by
    intro more other last
    rcases eq_or_ne other tmp with rfl | different
    · rw [if_pos last, followAlias, Function.update_self]
      split
      · rintro _ ⟨⟩
        rwa [Function.update_self]
      · rwa [followAlias_of_ended targetEnded]
    · have stays : IRAlias.Ended (Function.update aliases tmp target)
          (.tmp other) := by
        rintro _ ⟨⟩
        rwa [Function.update_of_ne different]
      rwa [followAlias_of_ended stays]
  induction rounds generalizing start with
  | zero =>
      cases start with
      | tmp other => exact atEnd 0 other (before other rfl)
      | none =>
          rw [followAlias_of_ended ended_none]
          exact ended_none
      | const con =>
          rw [followAlias_of_ended (ended_const con)]
          exact ended_const con
  | succ rounds induction =>
      cases start with
      | tmp other =>
          rw [followAlias] at before
          split at before
          · next last => exact atEnd (rounds + 1) other last
          · next notLast =>
              rw [Nat.add_right_comm, followAlias]
              split
              · next last =>
                  rintro _ ⟨⟩
                  exact last
              · rcases eq_or_ne other tmp with rfl | different
                · rw [Function.update_self, followAlias_of_ended targetEnded]
                  exact targetEnded
                · rw [Function.update_of_ne different]
                  exact induction (aliases other) before
      | none =>
          rw [followAlias_of_ended ended_none]
          exact ended_none
      | const con =>
          rw [followAlias_of_ended (ended_const con)]
          exact ended_const con

/-- The temporaries that have aliases, of which each chain has as many links
at most. -/
structure Followed (aliases : Aliases) (known : Finset Nat) : Prop where
  mem_known : ∀ tmp, tmp ∈ known ↔ aliases tmp ≠ .none
  ended : ∀ target, (followAlias aliases known.card target).Ended aliases

theorem Followed.update {known : Finset Nat} (followed : Followed aliases known)
    {tmp : Nat} {target : IRAlias} (ended : target.Ended aliases)
    (apart : target ≠ .tmp tmp) (isAlias : target ≠ .none) :
    Followed (Function.update aliases tmp target) (insert tmp known) := by
  constructor
  · intro other
    rw [Finset.mem_insert, followed.mem_known]
    rcases eq_or_ne other tmp with rfl | different
    · simp [isAlias]
    · simp [different]
  · intro start
    have longer := followAlias_update ended apart known.card start
      (followed.ended start)
    have count : (insert tmp known).card =
        known.card + if aliases tmp = .none then 1 else 0 := by
      split
      · next fresh =>
          apply Finset.card_insert_of_notMem
          rw [followed.mem_known]
          exact not_not.mpr fresh
      · next old =>
          rw [Finset.insert_eq_of_mem ((followed.mem_known tmp).mpr old)]
          rfl
    rwa [count]

/-- The loop that follows an alias is at its end within as many rounds as
there are temporaries. -/
theorem collectAliases_followed {typesUsed : Nat} {aliases' : Aliases}
    {stmts stmts' : List IRStmt} {known : Finset Nat}
    (assigned : ∀ st ∈ stmts, ∀ tmp ∈ st.defines.toList, tmp < typesUsed)
    (followed : Followed aliases known) (few : known ⊆ Finset.range typesUsed)
    (collected : collectAliases typesUsed aliases stmts =
      .ok (aliases', stmts')) :
    ∀ target, (followAlias aliases' typesUsed target).Ended aliases' := by
  induction stmts generalizing aliases known stmts' with
  | nil =>
      cases collected
      have small := Finset.card_le_card few
      rw [Finset.card_range] at small
      exact fun target => followAlias_mono small (followed.ended target)
  | cons st rest induction =>
      obtain ⟨⟨aliases₁, st₁⟩, first, collected⟩ := bind_eq_ok.mp collected
      obtain ⟨⟨aliases₂, rest₂⟩, later, collected⟩ := bind_eq_ok.mp collected
      cases collected
      have small := Finset.card_le_card few
      rw [Finset.card_range] at small
      have inside := assigned st List.mem_cons_self
      have assignedLater : ∀ st ∈ rest, ∀ tmp ∈ st.defines.toList,
          tmp < typesUsed :=
        fun other member => assigned other (List.mem_cons_of_mem _ member)
      have grows : ∀ {tmp target}, st.defines = some tmp →
          target.Ended aliases → target ≠ .tmp tmp → target ≠ .none →
          aliases₁ = Function.update aliases tmp target →
          ∀ target, (followAlias aliases' typesUsed target).Ended aliases' := by
        rintro tmp target defines ended apart isAlias rfl
        refine induction assignedLater
          (followed.update ended apart isAlias) ?_ later
        refine Finset.insert_subset (Finset.mem_range.mpr ?_) few
        exact inside tmp (by simp [defines])
      cases st with
      | wrTmp tmp data =>
          cases data with
          | atom operand =>
              cases operand with
              | const con =>
                  cases first
                  exact grows rfl (ended_const con) (by simp) (by simp) rfl
              | rdTmp source =>
                  obtain ⟨_, apart, first⟩ := bind_eq_ok.mp first
                  cases first
                  refine grows rfl ?_ (tlAssert_eq_ok.mp apart)
                    (followAlias_ne_none (by simp) _) rfl
                  exact followAlias_mono (by omega)
                    (followed.ended (.tmp source))
          | _ =>
              cases first
              exact induction assignedLater followed few later
      | _ =>
          cases first
          exact induction assignedLater followed few later

end Chains

end Dependency

end HelgrindPlus
