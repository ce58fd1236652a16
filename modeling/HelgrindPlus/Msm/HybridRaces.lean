import HelgrindPlus.Msm.Ukal
import HelgrindPlus.Msm.Ukas

/-!
# What the hybrid machines report

Runs of accesses to one location that starts `New`, made by any threads with
any clocks.  A lock held at every access survives in every stored lockset; the
stored clock is that of an earlier access and is consulted before a report.

The short machine forgets a reader, though: a read that finds `ExclR(v)` and
is not ordered after `v` keeps `v` alone, where the design has the join.
-/

namespace HelgrindPlus

open Outcome

/-- A plain access by a thread that holds `locks` in write mode. -/
def Timed.holding (thr : Nat) (isWrite : Bool) (locks : Finset Nat)
    (clock : VTS) : Timed where
  acc := ⟨thr, isWrite, false, false, false, locks, locks,
    Finset.Subset.refl locks⟩
  clock := clock

/-- The access is made with `lock` held in the mode it needs. -/
def Access.HeldAt (acc : Access) (lock : Nat) : Prop :=
  (acc.isWrite = false → lock ∈ acc.locksetA) ∧
    (acc.isWrite = true → lock ∈ acc.locksetW)

namespace Ukas

/-- `lock` is in every lockset that the value stores, and there has been no
report. -/
def Guarded {V : Type} (lock : Nat) : SVal V → Prop
  | .ShM _ lset | .ShR _ lset => lock ∈ lset
  | .Race => False
  | _ => True

theorem Guarded.msm {lock : Nat} {sv : SVal VTS} {acc : Access}
    (guarded : Guarded lock sv) (clock : VTS) (plain : acc.Plain)
    (held : acc.HeldAt lock) :
    (spec.msm sv clock acc).Silent (Guarded lock) := by
  obtain ⟨notAtomic, notSpinning⟩ := plain
  obtain ⟨reading, writing⟩ := held
  unfold spec
  cases isWrite : acc.isWrite with
  | true =>
      have mine := writing isWrite
      have nonempty : acc.locksetW ≠ ∅ := Finset.ne_empty_of_mem mine
      simp only [isWrite, if_true, absWrite, notAtomic, Bool.false_and,
        Bool.false_eq_true, if_false]
      cases sv with
      | ShM vts lset | ShR vts lset =>
          have both : lock ∈ lset ∩ acc.locksetW :=
            Finset.mem_inter.mpr ⟨guarded, mine⟩
          simp only [if_neg (Finset.ne_empty_of_mem both)]
          exact ⟨both, rfl⟩
      | ExclW vts | ExclR vts =>
          simp only [if_neg nonempty]
          split
          · exact ⟨trivial, rfl⟩
          · exact ⟨mine, rfl⟩
      | SpinVar vts =>
          dsimp only
          split <;> exact ⟨trivial, rfl⟩
      | Race => exact guarded.elim
      | New | NoAccess | Invalid => exact ⟨trivial, rfl⟩
  | false =>
      have mine := reading isWrite
      have nonempty : acc.locksetA ≠ ∅ := Finset.ne_empty_of_mem mine
      simp only [isWrite, Bool.false_eq_true, if_false, absRead, notAtomic,
        notSpinning, Bool.false_and]
      cases sv with
      | ShM vts lset =>
          have both : lock ∈ lset ∩ acc.locksetA :=
            Finset.mem_inter.mpr ⟨guarded, mine⟩
          simp only [if_neg (Finset.ne_empty_of_mem both)]
          exact ⟨both, rfl⟩
      | ShR vts lset => exact ⟨Finset.mem_inter.mpr ⟨guarded, mine⟩, rfl⟩
      | ExclW vts =>
          simp only [if_neg nonempty]
          split
          · exact ⟨trivial, rfl⟩
          · exact ⟨mine, rfl⟩
      | ExclR vts =>
          dsimp only
          split
          · exact ⟨trivial, rfl⟩
          · exact ⟨mine, rfl⟩
      | Race => exact guarded.elim
      | SpinVar vts | New | NoAccess | Invalid => exact ⟨trivial, rfl⟩

end Ukas

namespace Ukal

def Guarded {V : Type} (lock : Nat) : SVal V → Prop
  | .ShM2 _ lset | .ShM lset | .ShR _ lset => lock ∈ lset
  | .Race => False
  | _ => True

theorem Guarded.msm {lock : Nat} {sv : SVal VTS} {acc : Access}
    (guarded : Guarded lock sv) (clock : VTS) (plain : acc.Plain)
    (held : acc.HeldAt lock) :
    (spec.msm sv clock acc).Silent (Guarded lock) := by
  obtain ⟨notAtomic, notSpinning⟩ := plain
  obtain ⟨reading, writing⟩ := held
  unfold spec
  cases isWrite : acc.isWrite with
  | true =>
      have mine := writing isWrite
      have nonempty : acc.locksetW ≠ ∅ := Finset.ne_empty_of_mem mine
      simp only [isWrite, if_true, absWrite, notAtomic, Bool.false_and,
        Bool.false_eq_true, if_false]
      cases sv with
      | ShM2 vts lset | ShR vts lset | ShM lset =>
          have both : lock ∈ lset ∩ acc.locksetW :=
            Finset.mem_inter.mpr ⟨guarded, mine⟩
          simp only [if_neg (Finset.ne_empty_of_mem both)]
          exact ⟨both, rfl⟩
      | ExclW vts | ExclR vts | ExclRW vts =>
          simp only [if_neg nonempty]
          split
          · exact ⟨trivial, rfl⟩
          · exact ⟨mine, rfl⟩
      | Race => exact guarded.elim
      | SpinVar vts | New | NoAccess | Invalid => exact ⟨trivial, rfl⟩
  | false =>
      have mine := reading isWrite
      have nonempty : acc.locksetA ≠ ∅ := Finset.ne_empty_of_mem mine
      simp only [isWrite, Bool.false_eq_true, if_false, absRead, notAtomic,
        Bool.false_and]
      cases sv with
      | ShM2 vts lset | ShM lset =>
          have both : lock ∈ lset ∩ acc.locksetA :=
            Finset.mem_inter.mpr ⟨guarded, mine⟩
          simp only [if_neg (Finset.ne_empty_of_mem both)]
          exact ⟨both, rfl⟩
      | ShR vts lset => exact ⟨Finset.mem_inter.mpr ⟨guarded, mine⟩, rfl⟩
      | ExclW vts =>
          simp only [if_neg nonempty]
          split
          · exact ⟨trivial, rfl⟩
          · exact ⟨mine, rfl⟩
      | ExclR vts =>
          dsimp only
          split
          · exact ⟨trivial, rfl⟩
          · exact ⟨mine, rfl⟩
      | ExclRW vts =>
          dsimp only
          split <;> exact ⟨mine, rfl⟩
      | Race => exact guarded.elim
      | SpinVar vts | New | NoAccess | Invalid => exact ⟨trivial, rfl⟩

end Ukal

/-- Consistent locking is never reported. -/
theorem consistent_locking_never_reported {tab : VtsTab}
    {refs : Multiset Nat} (counted : tab.Counted refs) (events : List Timed)
    (plain : ∀ event ∈ events, event.acc.Plain) (lock : Nat)
    (held : ∀ event ∈ events, event.acc.HeldAt lock) :
    Returns (Ukas.machine.run tab events) (fun state =>
      state.log.length = events.length ∧
        ∀ sv raced, (sv, raced) ∈ state.log → raced = false ∧ sv ≠ .Race) ∧
    Returns (Ukal.machine.run tab events) (fun state =>
      state.log.length = events.length ∧
        ∀ sv raced, (sv, raced) ∈ state.log →
          raced = false ∧ sv ≠ .Race) := by
  constructor
  · apply (Ukas.spec_describes.run_silent counted plain
      (show Ukas.Guarded lock Ukas.spec.new from trivial) fun event member sv
        guarded => guarded.msm event.clock (plain event member)
          (held event member)).mono
    intro state ⟨length, silent⟩
    refine ⟨length, ?_⟩
    intro sv raced member
    obtain ⟨quiet, abs, denotes, guarded⟩ := silent sv raced member
    refine ⟨quiet, ?_⟩
    intro isRace
    subst isRace
    cases denotes
    exact guarded
  · apply (Ukal.spec_describes.run_silent counted plain
      (show Ukal.Guarded lock Ukal.spec.new from trivial) fun event member sv
        guarded => guarded.msm event.clock (plain event member)
          (held event member)).mono
    intro state ⟨length, silent⟩
    refine ⟨length, ?_⟩
    intro sv raced member
    obtain ⟨quiet, abs, denotes, guarded⟩ := silent sv raced member
    refine ⟨quiet, ?_⟩
    intro isRace
    subst isRace
    cases denotes
    exact guarded

/-- Two writers under one lock, with unrelated clocks. -/
theorem consistent_locking_never_reported_two_writers :
    let events := [Timed.holding 1 true {7} (VTS.singleton 1 1 Nat.one_pos),
      Timed.holding 2 true {7} (VTS.singleton 2 1 Nat.one_pos)]
    Returns (Ukas.machine.run VtsTab.init events) (fun state =>
      state.log.length = events.length ∧
        ∀ sv raced, (sv, raced) ∈ state.log → raced = false ∧ sv ≠ .Race) ∧
    Returns (Ukal.machine.run VtsTab.init events) (fun state =>
      state.log.length = events.length ∧
        ∀ sv raced, (sv, raced) ∈ state.log →
          raced = false ∧ sv ≠ .Race) := by
  apply consistent_locking_never_reported VtsTab.Counted.init _ _ 7
  · simp [Timed.holding, Access.HeldAt]
  · intro event member
    simp only [List.mem_cons, List.not_mem_nil, or_false] at member
    rcases member with rfl | rfl <;> exact ⟨rfl, rfl⟩

namespace Ukas

open HybridSpec

theorem spec_remembers : spec.Remembers SVal.getVTS where
  new := rfl
  msm sv clock acc plain := by
    obtain ⟨notAtomic, notSpinning⟩ := plain
    unfold spec
    cases isWrite : acc.isWrite with
    | true =>
        simp only [isWrite, if_true, absWrite, notAtomic, Bool.false_and,
          Bool.false_eq_true, if_false]
        cases sv with
        | ExclW vts | ExclR vts =>
            dsimp only
            split
            · exact .replaced rfl
            · rename_i unordered
              split
              · exact .race rfl rfl unordered
              · exact .same rfl
        | ShR vts lset =>
            dsimp only
            split
            · split
              · exact .replaced rfl
              · rename_i unordered
                exact .race rfl rfl unordered
            · exact .same rfl
        | ShM vts lset =>
            dsimp only
            split
            · split
              · exact .replaced rfl
              · rename_i unordered
                exact .race rfl rfl unordered
            · exact .replaced rfl
        | SpinVar vts =>
            dsimp only
            split
            · exact .same rfl
            · exact .replaced rfl
        | New => exact .replaced rfl
        | Race | NoAccess | Invalid => exact .same rfl
    | false =>
        simp only [isWrite, Bool.false_eq_true, if_false, absRead, notAtomic,
          notSpinning, Bool.false_and]
        cases sv with
        | ExclW vts =>
            dsimp only
            split
            · exact .replaced rfl
            · rename_i unordered
              split
              · exact .race rfl rfl unordered
              · exact .same rfl
        | ExclR vts =>
            dsimp only
            split
            · exact .replaced rfl
            · exact .same rfl
        | ShM vts lset =>
            dsimp only
            split
            · split
              · exact .replaced rfl
              · rename_i unordered
                exact .race rfl rfl unordered
            · exact .replaced rfl
        | New => exact .replaced rfl
        | ShR | SpinVar | Race | NoAccess | Invalid => exact .same rfl

end Ukas

namespace Ukal

open HybridSpec

/-- The clock in a value; `ShM` has none. -/
def SVal.stored {V : Type} : SVal V → Option V
  | .SpinVar vts | .ShM2 vts _ | .ShR vts _ | .ExclRW vts | .ExclR vts
  | .ExclW vts => some vts
  | .ShM _ | .Race | .New | .NoAccess | .Invalid => none

theorem spec_remembers : spec.Remembers SVal.stored where
  new := rfl
  msm sv clock acc plain := by
    obtain ⟨notAtomic, notSpinning⟩ := plain
    unfold spec
    cases isWrite : acc.isWrite with
    | true =>
        simp only [isWrite, if_true, absWrite, notAtomic, Bool.false_and,
          Bool.false_eq_true, if_false]
        cases sv with
        | ExclW vts | ExclR vts =>
            dsimp only
            split
            · exact .replaced rfl
            · rename_i unordered
              split
              · exact .race rfl rfl unordered
              · exact .forgotten rfl (by simp)
        | ExclRW vts =>
            dsimp only
            split
            · exact .replaced rfl
            · rename_i unordered
              split
              · exact .race rfl rfl unordered
              · exact .same rfl
        | ShR | ShM =>
            dsimp only
            split
            · exact .replaced rfl
            · exact .forgotten rfl (by simp)
        | ShM2 vts lset =>
            dsimp only
            split
            · split
              · exact .replaced rfl
              · rename_i unordered
                exact .race rfl rfl unordered
            · exact .replaced rfl
        | SpinVar vts => exact .replaced rfl
        | New => exact .replaced rfl
        | Race | NoAccess | Invalid => exact .same rfl
    | false =>
        simp only [isWrite, Bool.false_eq_true, if_false, absRead, notAtomic,
          Bool.false_and]
        cases sv with
        | ExclW vts =>
            dsimp only
            split
            · exact .replaced rfl
            · rename_i unordered
              split
              · exact .race rfl rfl unordered
              · exact .forgotten rfl (by simp)
        | ExclR vts =>
            dsimp only
            split
            · exact .replaced rfl
            · exact .same rfl
        | ExclRW vts =>
            dsimp only
            split <;> exact .same rfl
        | ShM lset =>
            dsimp only
            split
            · exact .replaced rfl
            · exact .same rfl
        | ShM2 vts lset =>
            dsimp only
            split
            · split
              · exact .replaced rfl
              · rename_i unordered
                exact .race rfl rfl unordered
            · exact .replaced rfl
        | New => exact .replaced rfl
        | ShR | SpinVar | Race | NoAccess | Invalid => exact .same rfl

end Ukal

/-- An access ordered after the whole history is never blamed. -/
theorem ordered_access_never_blamed {tab : VtsTab} {refs : Multiset Nat}
    (counted : tab.Counted refs) (events : List Timed)
    (plain : ∀ event ∈ events, event.acc.Plain) :
    Returns (Ukas.machine.run tab events) (fun state =>
      ∀ (j : Nat) (y : Timed), events[j]? = some y →
        Ukas.machine.found state.log j ≠ some .Race →
        (∀ (i : Nat) (x : Timed), i < j → events[i]? = some x →
          x.clock ≤ y.clock) →
        ∃ sv, state.log[j]? = some (sv, false)) ∧
    Returns (Ukal.machine.run tab events) (fun state =>
      ∀ (j : Nat) (y : Timed), events[j]? = some y →
        Ukal.machine.found state.log j ≠ some .Race →
        (∀ (i : Nat) (x : Timed), i < j → events[i]? = some x →
          x.clock ≤ y.clock) →
        ∃ sv, state.log[j]? = some (sv, false)) := by
  constructor
  · apply (Ukas.spec_describes.run_unblamed Ukas.spec_remembers counted
      plain).mono
    intro state unblamed j y atJ _
    exact unblamed j y atJ
  · apply (Ukal.spec_describes.run_unblamed Ukal.spec_remembers counted
      plain).mono
    intro state unblamed j y atJ _
    exact unblamed j y atJ

/-- Two unordered writes under different locks, and then a write that is
ordered after both. -/
theorem ordered_access_never_blamed_third_writer :
    let first := VTS.singleton 1 1 Nat.one_pos
    let second := VTS.singleton 2 1 Nat.one_pos
    let events := [Timed.holding 1 true {7} first,
      Timed.holding 2 true {8} second,
      Timed.holding 3 true ∅ (first.join second)]
    ∃ state sv, Ukas.machine.run VtsTab.init events = .ok state ∧
      state.log[2]? = some (sv, false) := by
  intro first second events
  have plain : ∀ event ∈ events, event.acc.Plain := by
    intro event member
    simp only [events, List.mem_cons, List.not_mem_nil, or_false] at member
    rcases member with rfl | rfl | rfl <;> exact ⟨rfl, rfl⟩
  obtain ⟨state, ran, unblamed⟩ :=
    (ordered_access_never_blamed VtsTab.Counted.init events plain).1
  have shown : (Ukas.machine.run VtsTab.init events).toOption.map
      (fun state => decide (Ukas.machine.found state.log 2 = some .Race)) =
        some false := by decide
  obtain ⟨same, again, notRace⟩ := exists_ok_of_map shown
  rw [ran] at again
  cases again
  obtain ⟨sv, entry⟩ := unblamed 2 _ rfl (of_decide_eq_false notRace) (by
    intro i x below atI
    match i, below with
    | 0, _ =>
        cases atI
        exact VTS.le_join_left _ _
    | 1, _ =>
        cases atI
        exact VTS.le_join_right _ _)
  exact ⟨state, sv, ran, entry⟩

/-- Accesses by different threads, one of them a write, of which the first is
not ordered before the second. -/
structure Conflicts (x y : Timed) : Prop where
  threads : x.acc.thr ≠ y.acc.thr
  writes : x.acc.isWrite = true ∨ y.acc.isWrite = true
  unordered : ¬ x.clock ≤ y.clock

/-- A conflict is reported at the second access or earlier. -/
def RacesReported {SV : Type} (events : List Timed)
    (log : List (SV × Bool)) : Prop :=
  ∀ (i j : Nat) (x y : Timed), i < j → events[i]? = some x →
    events[j]? = some y → Conflicts x y →
    ∃ k ≤ j, ∃ sv, log[k]? = some (sv, true)

namespace Ukas

/-- Every read that finds `ExclR(v)` is ordered after `v`. -/
def ReadsOrdered (events : List Timed) (state : LocLog (SVal Nat)) : Prop :=
  ∀ (i : Nat) (event : Timed) (ii : Nat) (vts : VTS),
    events[i]? = some event → event.acc.isWrite = false →
    machine.found state.log i = some (.ExclR ii) →
    state.tab.clock ii = some vts → vts ≤ event.clock

/-- The location is exclusive, under a clock that covers the first `n`
accesses. -/
def Covering (events : List Timed) (n : Nat) (sv : SVal VTS) : Prop :=
  (n = 0 ∧ sv = .New) ∨ ∃ vts, (sv = .ExclR vts ∨ sv = .ExclW vts) ∧
    ∀ (i : Nat) (x : Timed), i < n → events[i]? = some x → x.clock ≤ vts

variable {events : List Timed} {n : Nat} {sv : SVal VTS} {event : Timed}

/-- Without locks an access is reported, or it is ordered after all earlier
ones and takes over. -/
theorem Covering.step (covering : Covering events n sv)
    (atN : events[n]? = some event) (plain : event.acc.Plain)
    (unlocked : event.acc.locksetA = ∅)
    (ordered : event.acc.isWrite = false → ∀ vts, sv = .ExclR vts →
      vts ≤ event.clock)
    (silent : (spec.msm sv event.clock event.acc).raced = false) :
    (∀ (i : Nat) (x : Timed), i < n → events[i]? = some x →
      x.clock ≤ event.clock) ∧
    ((spec.msm sv event.clock event.acc).svNew = .ExclR event.clock ∨
      (spec.msm sv event.clock event.acc).svNew = .ExclW event.clock) := by
  obtain ⟨notAtomic, notSpinning⟩ := plain
  have unlockedW : event.acc.locksetW = ∅ :=
    Finset.subset_empty.mp (unlocked ▸ event.acc.writeHeld)
  rcases covering with ⟨start, isNew⟩ | ⟨vts, excl, covers⟩
  · subst start isNew
    refine ⟨fun i x below => absurd below (Nat.not_lt_zero i), ?_⟩
    cases isWrite : event.acc.isWrite with
    | true => exact .inr (by simp [spec, absWrite, isWrite, notAtomic,
        MsmOut.stay])
    | false => exact .inl (by simp [spec, absRead, isWrite, notAtomic,
        notSpinning, MsmOut.stay])
  · have after : vts ≤ event.clock := by
      by_contra unordered
      cases isWrite : event.acc.isWrite with
      | true =>
          rcases excl with rfl | rfl <;>
            simp [spec, absWrite, isWrite, notAtomic, unordered, unlockedW,
              MsmOut.race] at silent
      | false =>
          rcases excl with rfl | rfl
          · exact unordered (ordered isWrite vts rfl)
          · simp [spec, absRead, isWrite, notAtomic, notSpinning, unordered,
              unlocked, MsmOut.race] at silent
    refine ⟨fun i x below atI => (covers i x below atI).trans after, ?_⟩
    cases isWrite : event.acc.isWrite with
    | true =>
        rcases excl with rfl | rfl <;>
          exact .inr (by simp [spec, absWrite, isWrite, notAtomic, after,
            MsmOut.stay])
    | false =>
        rcases excl with rfl | rfl <;>
          exact .inl (by simp [spec, absRead, isWrite, notAtomic,
            notSpinning, after, MsmOut.stay])

/-- A read of `ExclR(v)` that is ordered after `v`, over timestamps. -/
def ReadsOrderedAt (events : List Timed) : Prop :=
  ∀ (i : Nat) (event : Timed) (vts : VTS), events[i]? = some event →
    event.acc.isWrite = false → spec.valueAt events i = .ExclR vts →
    vts ≤ event.clock

private theorem covering_valueAt (plain : ∀ event ∈ events, event.acc.Plain)
    (unlocked : ∀ event ∈ events, event.acc.locksetA = ∅)
    (ordered : ReadsOrderedAt events) (inside : n ≤ events.length)
    (silent : ∀ (k : Nat) (x : Timed), k < n → events[k]? = some x →
      (spec.msm (spec.valueAt events k) x.clock x.acc).raced = false) :
    Covering events n (spec.valueAt events n) := by
  induction n with
  | zero => exact .inl ⟨rfl, rfl⟩
  | succ n induction =>
      have atN : events[n]? = some events[n] :=
        List.getElem?_eq_getElem inside
      have member := List.mem_of_getElem? atN
      have before := induction (Nat.le_of_succ_le inside)
        fun k x below => silent k x (Nat.lt_succ_of_lt below)
      obtain ⟨earlier, excl⟩ := before.step atN (plain _ member)
        (unlocked _ member)
        (fun isRead vts isExcl => ordered n _ vts atN isRead isExcl)
        (silent n _ (Nat.lt_succ_self n) atN)
      rw [spec.valueAt_succ atN]
      refine .inr ⟨_, excl, ?_⟩
      intro i x below atI
      rcases Nat.lt_succ_iff_lt_or_eq.mp below with below | rfl
      · exact earlier i x below atI
      · rw [atN] at atI
        cases atI
        exact le_refl _

/-- In a program without locks no race is missed, as long as no read leaves
`ExclR` for `ShR`. -/
theorem unlocked_races_reported {tab : VtsTab} {refs : Multiset Nat}
    (counted : tab.Counted refs) (events : List Timed)
    (plain : ∀ event ∈ events, event.acc.Plain)
    (unlocked : ∀ event ∈ events, event.acc.locksetA = ∅) :
    Returns (machine.run tab events) (fun state =>
      ReadsOrdered events state → RacesReported events state.log) := by
  apply (spec_describes.run_follows counted
    fun event member => (plain event member).notSpinning).mono
  intro state follows readsOrdered i j x y below atI atJ conflicts
  have ordered : ReadsOrderedAt events := by
    intro k event vts atK isRead isExcl
    obtain ⟨sv, found, denotes⟩ := follows.found spec_describes atK
    rw [isExcl] at denotes
    cases denotes with
    | ExclR known => exact readsOrdered k event _ vts atK isRead found known
  by_contra unreported
  have inside := (List.getElem?_eq_some_iff.mp atJ).1
  have silent : ∀ (k : Nat) (z : Timed), k ≤ j → events[k]? = some z →
      (spec.msm (spec.valueAt events k) z.clock z.acc).raced = false := by
    intro k z upTo atK
    obtain ⟨sv, entry, -⟩ := follows.logged k z
      (Nat.lt_of_le_of_lt upTo inside) atK
    apply Bool.eq_false_of_not_eq_true
    intro raced
    rw [raced] at entry
    exact unreported ⟨k, upTo, sv, entry⟩
  have covering := covering_valueAt plain unlocked ordered
    (Nat.le_of_lt inside)
    fun k z earlier => silent k z (Nat.le_of_lt earlier)
  have member := List.mem_of_getElem? atJ
  obtain ⟨earlier, -⟩ := covering.step atJ (plain y member)
    (unlocked y member)
    (fun isRead vts isExcl => ordered j y vts atJ isRead isExcl)
    (silent j y (Nat.le_refl j) atJ)
  exact conflicts.unordered (earlier i x below atI)

/-- Thread 0 creates threads 1 and 2, each of which reads the location.  It
then hears from thread 1 only, and writes. -/
def forgottenReader : List Timed :=
  [.holding 1 false ∅ ((VTS.singleton 0 1 Nat.one_pos).tick 1),
    .holding 2 false ∅ ((VTS.singleton 0 2 Nat.two_pos).tick 2),
    .holding 0 true ∅ ((VTS.singleton 0 3 (by decide)).tick 1)]

/-- The write is unordered with the read by thread 2, and nothing is
reported. -/
theorem unlocked_race_missed :
    ∃ state, machine.run VtsTab.init forgottenReader = .ok state ∧
      (∀ event ∈ forgottenReader,
        event.acc.Plain ∧ event.acc.locksetA = ∅) ∧
      ¬ RacesReported forgottenReader state.log := by
  have shown : (machine.run VtsTab.init forgottenReader).toOption.map
      (fun state => state.log.map Prod.snd) = some [false, false, false] := by
    decide
  obtain ⟨state, ran, verdicts⟩ := exists_ok_of_map shown
  refine ⟨state, ran, ?_, ?_⟩
  · intro event member
    simp only [forgottenReader, List.mem_cons, List.not_mem_nil,
      or_false] at member
    rcases member with rfl | rfl | rfl <;> exact ⟨⟨rfl, rfl⟩, rfl⟩
  · intro reported
    obtain ⟨k, -, sv, entry⟩ := reported 1 2 _ _ (by decide) rfl rfl
      ⟨by decide, .inr rfl, by decide⟩
    have raced : true ∈ state.log.map Prod.snd :=
      List.mem_map.mpr ⟨(sv, true), List.mem_of_getElem? entry, rfl⟩
    rw [verdicts] at raced
    simp at raced

/-- Two unordered writes meet the condition. -/
theorem unlocked_races_reported_two_writers :
    let events := [Timed.holding 1 true ∅ (VTS.singleton 1 1 Nat.one_pos),
      Timed.holding 2 true ∅ (VTS.singleton 2 1 Nat.one_pos)]
    ∃ state, machine.run VtsTab.init events = .ok state ∧
      ReadsOrdered events state ∧ RacesReported events state.log := by
  intro events
  have plain : ∀ event ∈ events,
      event.acc.Plain ∧ event.acc.locksetA = ∅ ∧
        event.acc.isWrite = true := by
    intro event member
    simp only [events, List.mem_cons, List.not_mem_nil, or_false] at member
    rcases member with rfl | rfl <;> exact ⟨⟨rfl, rfl⟩, rfl, rfl⟩
  obtain ⟨state, ran, reported⟩ := unlocked_races_reported
    VtsTab.Counted.init events (fun event member => (plain event member).1)
    (fun event member => (plain event member).2.1)
  have ordered : ReadsOrdered events state := by
    intro i event ii vts atI isRead
    rw [(plain event (List.mem_of_getElem? atI)).2.2] at isRead
    cases isRead
  exact ⟨state, ran, ordered, reported ordered⟩

end Ukas

end HelgrindPlus
