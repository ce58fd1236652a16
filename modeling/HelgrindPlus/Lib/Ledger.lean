import HelgrindPlus.Lib.Outcome
import Mathlib.Data.Multiset.AddSub
import Mathlib.Data.Multiset.Replicate
import Mathlib.Algebra.Order.Group.Multiset

/-!
# Replaying reference counts

A sequence of events takes and drops references to values.  `Replays` says
that it leads from one multiset of references to another, and that at no
point a reference is dropped that is not there.
-/

inductive RcEvent (α : Type) where
  | inc (value : α)
  | dec (value : α)
  deriving DecidableEq

namespace RcEvent

open Outcome

variable {α σ ε : Type} {held middle final : Multiset α} {value : α}
  {events more : List (RcEvent α)} {values : List α}

inductive Replays : Multiset α → List (RcEvent α) → Multiset α → Prop where
  | nil (held : Multiset α) : Replays held [] held
  | inc {held final : Multiset α} {value : α} {events : List (RcEvent α)}
      (rest : Replays (value ::ₘ held) events final) :
      Replays held (.inc value :: events) final
  | dec {held final : Multiset α} {value : α} {events : List (RcEvent α)}
      (rest : Replays held events final) :
      Replays (value ::ₘ held) (.dec value :: events) final

namespace Replays

theorem append (first : Replays held events middle)
    (second : Replays middle more final) :
    Replays held (events ++ more) final := by
  induction first with
  | nil held => exact second
  | inc rest induction => exact .inc (induction second)
  | dec rest induction => exact .dec (induction second)

/-- References that no event is about stay where they are. -/
theorem frame (replays : Replays held events final) (others : Multiset α) :
    Replays (held + others) events (final + others) := by
  induction replays with
  | nil held => exact .nil _
  | inc rest induction =>
      rw [Multiset.cons_add] at induction
      exact .inc induction
  | dec rest induction =>
      rw [Multiset.cons_add]
      exact .dec induction

theorem incs (held : Multiset α) (values : List α) :
    Replays held (values.map .inc) (held + (values : Multiset α)) := by
  induction values generalizing held with
  | nil => simpa using Replays.nil held
  | cons value values induction =>
      have next := induction (value ::ₘ held)
      rw [Multiset.cons_add, ← Multiset.add_cons] at next
      exact .inc next

theorem decs (held : Multiset α) (values : List α) :
    Replays (held + (values : Multiset α)) (values.map .dec) held := by
  induction values with
  | nil => simpa using Replays.nil held
  | cons value values induction =>
      have parts : held + ((value :: values : List α) : Multiset α) =
          value ::ₘ (held + (values : Multiset α)) := by
        rw [← Multiset.cons_coe, Multiset.add_cons]
      rw [parts]
      exact .dec induction

end Replays

/-- Like `Replays`, if references to `free` need not be taken. -/
def Ledger (free : α) (held : Multiset α) (events : List (RcEvent α))
    (final : Multiset α) : Prop :=
  ∃ n, Replays (held + Multiset.replicate n free) events final

namespace Ledger

variable {free : α}

theorem refl (held : Multiset α) : Ledger free held [] held :=
  ⟨0, by simpa using Replays.nil held⟩

theorem append (first : Ledger free held events middle)
    (second : Ledger free middle more final) :
    Ledger free held (events ++ more) final := by
  obtain ⟨n, replaysFirst⟩ := first
  obtain ⟨m, replaysSecond⟩ := second
  refine ⟨n + m, ?_⟩
  rw [Multiset.replicate_add, ← add_assoc]
  exact (replaysFirst.frame _).append replaysSecond

end Ledger

/-- An interpreter of the events that keeps an invariant of the references,
and that may assume of every reference it takes that it is allowed. -/
theorem Replays.foldlM_returns {step : σ → RcEvent α → Except ε σ}
    {invariant : Multiset α → σ → Prop} {allowed : α → Prop}
    (incStep : ∀ held value state, allowed value → invariant held state →
      Returns (step state (.inc value)) (invariant (value ::ₘ held)))
    (decStep : ∀ held value state, invariant (value ::ₘ held) state →
      Returns (step state (.dec value)) (invariant held))
    (replays : Replays held events final)
    (incs : ∀ value, .inc value ∈ events → allowed value)
    {state : σ} (initially : invariant held state) :
    Returns (events.foldlM step state) (invariant final) := by
  induction replays generalizing state with
  | nil held => exact Returns.pure initially
  | @inc held final value events rest induction =>
      rw [List.foldlM_cons]
      apply (incStep held value state (incs value (by simp)) initially).bind
      intro next holds
      exact induction (fun value member =>
        incs value (List.mem_cons_of_mem _ member)) holds
  | @dec held final value events rest induction =>
      rw [List.foldlM_cons]
      apply (decStep held value state initially).bind
      intro next holds
      exact induction (fun value member =>
        incs value (List.mem_cons_of_mem _ member)) holds

end RcEvent
