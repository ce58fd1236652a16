import HelgrindPlus.Lsd.BestSignals

/-!
# Laws of the clock interface

What the operations on synchronisation objects do to the clocks that threads
and objects hold, in the same words for every build.
-/

namespace HelgrindPlus

open Outcome

/-- The operations on clocks that a build uses. -/
class ClockOps (κ : Type) [Preorder κ] where
  join : κ → κ → κ
  tick : κ → Nat → κ
  le_tick : ∀ clock me, clock ≤ tick clock me
  le_join_left : ∀ left right, left ≤ join left right
  le_join_right : ∀ left right, right ≤ join left right
  join_le : ∀ {left right above}, left ≤ above → right ≤ above →
    join left right ≤ above

instance : ClockOps Clocks where
  join := Clocks.join
  tick := Clocks.tick
  le_tick := Clocks.le_tick
  le_join_left := Clocks.le_join_left
  le_join_right := Clocks.le_join_right
  join_le left right :=
    ⟨VTS.join_le left.1 right.1, VTS.join_le left.2 right.2⟩

instance : ClockOps VTS where
  join := VTS.join
  tick vts me := vts.tick me
  le_tick vts me := VTS.le_tick me vts
  le_join_left := VTS.le_join_left
  le_join_right := VTS.le_join_right
  join_le := VTS.join_le

/-- The clocks of the threads, and those in the objects that are live. -/
structure Holdings (κ : Type) where
  thrs : Nat → Option κ
  sos : Nat → Option (Option κ)

namespace Holdings

variable {κ : Type}

def setThr (held : Holdings κ) (thr : Nat) (clock : κ) : Holdings κ :=
  { held with thrs := Function.update held.thrs thr (some clock) }

def setSO (held : Holdings κ) (so : Nat) (contents : Option (Option κ)) :
    Holdings κ :=
  { held with sos := Function.update held.sos so contents }

@[simp] theorem setThr_sos (held : Holdings κ) (thr : Nat) (clock : κ) :
    (held.setThr thr clock).sos = held.sos := rfl

@[simp] theorem setSO_thrs (held : Holdings κ) (so : Nat)
    (contents : Option (Option κ)) : (held.setSO so contents).thrs =
      held.thrs := rfl

theorem setThr_thrs_self (held : Holdings κ) (thr : Nat) (clock : κ) :
    (held.setThr thr clock).thrs thr = some clock :=
  Function.update_self ..

theorem setThr_thrs_other (held : Holdings κ) {thr other : Nat}
    (different : other ≠ thr) (clock : κ) :
    (held.setThr thr clock).thrs other = held.thrs other :=
  Function.update_of_ne different ..

theorem setSO_sos_self (held : Holdings κ) (so : Nat)
    (contents : Option (Option κ)) : (held.setSO so contents).sos so =
      contents :=
  Function.update_self ..

theorem setSO_sos_other (held : Holdings κ) {so other : Nat}
    (different : other ≠ so) (contents : Option (Option κ)) :
    (held.setSO so contents).sos other = held.sos other :=
  Function.update_of_ne different ..

end Holdings

/-- A clock joined with what an object holds. -/
def joinInto {κ : Type} [Preorder κ] [ClockOps κ] (clock : κ) : Option κ → κ
  | none => clock
  | some posted => ClockOps.join clock posted

/-- What a weak send leaves in an object. -/
def sentWeakly {κ : Type} [Preorder κ] [ClockOps κ] (contents : Option κ)
    (clock : κ) : κ :=
  match contents with
  | none => clock
  | some old => ClockOps.join old clock

/-- What the operations do to the clocks, in states that satisfy `inv`. -/
structure LibHB.Laws {σ κ : Type} [Preorder κ] [ClockOps κ]
    (lib : LibHB σ κ) (inv : σ → Prop) (held : σ → Holdings κ) : Prop where
  init : ∀ {root s}, lib.init root = .ok s →
    inv s ∧ (held s).sos = fun _ => none
  thrClock : ∀ {s}, inv s → ∀ thr, lib.thrClock s thr = (held s).thrs thr
  soClock : ∀ {s}, inv s → ∀ so, lib.soClock s so = ((held s).sos so).join
  soAlloc : ∀ {s s' so}, inv s → lib.soAlloc s so = .ok s' →
    inv s' ∧ (held s).sos so = none ∧ held s' = (held s).setSO so (some none)
  soDealloc : ∀ {s s' so}, inv s → lib.soDealloc s so = .ok s' →
    inv s' ∧ (held s).sos so ≠ none ∧ held s' = (held s).setSO so none
  soExtract : ∀ {s s' thr so}, inv s → lib.soExtract s thr so = .ok s' →
    inv s' ∧ (held s).sos so = none ∧ ∃ clock, (held s).thrs thr = some clock ∧
      held s' = (held s).setSO so (some (some clock))
  soJoin : ∀ {s s' so other}, inv s → lib.soJoin s so other = .ok s' →
    inv s' ∧ (held s).sos so ≠ none ∧
      ∃ contents, held s' = (held s).setSO so (some contents)
  perform : ∀ {s s' op}, inv s → lib.perform s op = .ok s' →
    inv s' ∧ ∀ so, so ∉ op.sos → (held s').sos so = (held s).sos so
  soSend : ∀ {s s' thr so}, inv s →
    lib.perform s (.sync (.soSend thr so false)) = .ok s' →
    ∃ clock contents, (held s).thrs thr = some clock ∧
      (held s).sos so = some contents ∧
      held s' = ((held s).setSO so (some (some
        (sentWeakly contents clock)))).setThr thr (ClockOps.tick clock thr)
  soRecv : ∀ {s s' thr so}, inv s →
    lib.perform s (.sync (.soRecv thr so true)) = .ok s' →
    ∃ clock contents, (held s).thrs thr = some clock ∧
      (held s).sos so = some contents ∧
      held s' = (held s).setThr thr (joinInto clock contents)

/-- The detector of lost signals needs no more than these laws. -/
theorem LibHB.Laws.lawful {σ κ : Type} [Preorder κ] [ClockOps κ]
    {lib : LibHB σ κ} {inv : σ → Prop} {held : σ → Holdings κ}
    (laws : lib.Laws inv held) : lib.Lawful inv where
  init started := (laws.init started).1
  perform := by
    intro s s' op holds done
    obtain ⟨holds', kept⟩ := laws.perform holds done
    refine ⟨holds', fun so other => ?_⟩
    rw [laws.soClock holds', laws.soClock holds, kept so other]
  soAlloc := by
    intro s s' so holds done
    obtain ⟨holds', unused, same⟩ := laws.soAlloc holds done
    refine ⟨holds', ?_, fun other different => ?_⟩
    · rw [laws.soClock holds, unused]
      rfl
    · rw [laws.soClock holds', laws.soClock holds, same,
        Holdings.setSO_sos_other _ different]
  soDealloc := by
    intro s s' so holds done
    obtain ⟨holds', -, same⟩ := laws.soDealloc holds done
    refine ⟨holds', fun thr => ?_, fun other different => ?_⟩
    · rw [laws.thrClock holds', laws.thrClock holds, same,
        Holdings.setSO_thrs]
    · rw [laws.soClock holds', laws.soClock holds, same,
        Holdings.setSO_sos_other _ different]
  soJoin := by
    intro s s' so other holds done
    obtain ⟨holds', -, contents, same⟩ := laws.soJoin holds done
    refine ⟨holds', fun third different => ?_⟩
    rw [laws.soClock holds', laws.soClock holds, same,
      Holdings.setSO_sos_other _ different]
  soExtract := by
    intro s s' thr so holds done
    obtain ⟨holds', unused, clock, atThr, same⟩ := laws.soExtract holds done
    refine ⟨holds', ?_, ?_, ?_, fun other different => ?_⟩
    · rw [laws.soClock holds, unused]
      rfl
    · rw [laws.soClock holds', laws.thrClock holds, same,
        Holdings.setSO_sos_self, atThr]
      rfl
    · rw [laws.thrClock holds, atThr]
      rfl
    · rw [laws.soClock holds', laws.soClock holds, same,
        Holdings.setSO_sos_other _ different]

/-- An address that neither a thread nor an object has. -/
def Holdings.Free {κ : Type} (held : Holdings κ) (addr : Nat) : Prop :=
  held.thrs addr = none ∧ held.sos addr = none

/-- No clock of a thread goes back. -/
def Holdings.Grows {κ : Type} [Preorder κ] (before after : Holdings κ) : Prop :=
  ∀ thr clock, before.thrs thr = some clock →
    ∃ later, after.thrs thr = some later ∧ clock ≤ later

theorem Holdings.Grows.trans {κ : Type} [Preorder κ]
    {before middle after : Holdings κ} (first : before.Grows middle)
    (second : middle.Grows after) : before.Grows after := by
  intro thr clock isClock
  obtain ⟨between, isBetween, below⟩ := first thr clock isClock
  obtain ⟨later, isLater, above⟩ := second thr between isBetween
  exact ⟨later, isLater, below.trans above⟩

/-- When the operations that fork and join threads succeed, and what they
do. -/
structure LibHB.ForkLaws {σ κ : Type} [Preorder κ] [ClockOps κ]
    (lib : LibHB σ κ) (inv : σ → Prop) (held : σ → Holdings κ) : Prop
    extends lib.Laws inv held where
  root_live : ∀ {root s}, lib.init root = .ok s → (held s).thrs root ≠ none
  alloc_iff : ∀ {s so}, inv s →
    ((∃ s', lib.soAlloc s so = .ok s') ↔ (held s).Free so)
  dealloc_returns : ∀ {s so}, inv s → (held s).sos so ≠ none →
    ∃ s', lib.soDealloc s so = .ok s'
  create_iff : ∀ {s thr child}, inv s →
    ((∃ s', lib.perform s (.sync (.create thr child)) = .ok s') ↔
      (held s).thrs thr ≠ none ∧ (held s).Free child)
  create : ∀ {s s' thr child}, inv s →
    lib.perform s (.sync (.create thr child)) = .ok s' →
    ∃ clock, (held s).thrs thr = some clock ∧
      held s' = ((held s).setThr child (ClockOps.tick clock child)).setThr thr
        (ClockOps.tick clock thr)
  send_returns : ∀ {s thr so}, inv s → (held s).thrs thr ≠ none →
    (held s).sos so ≠ none →
    ∃ s', lib.perform s (.sync (.soSend thr so true)) = .ok s'
  strongSend : ∀ {s s' thr so}, inv s →
    lib.perform s (.sync (.soSend thr so true)) = .ok s' →
    ∃ clock, (held s).thrs thr = some clock ∧
      held s' = ((held s).setSO so (some (some clock))).setThr thr
        (ClockOps.tick clock thr)
  recv_returns : ∀ {s thr so}, inv s → (held s).thrs thr ≠ none →
    (held s).sos so ≠ none →
    ∃ s', lib.perform s (.sync (.soRecv thr so true)) = .ok s'
  grows : ∀ {s s' op}, inv s → lib.perform s op = .ok s' →
    (held s).Grows (held s')

namespace Hb

def held (hb : Hb) : Holdings Clocks where
  thrs := hb.thrClock
  sos so := (hb.sos.lookup so).map fun _ => hb.soClock so

variable {hb : Hb} {abs : AbsHb}

theorem Refines.held_eq (refines : hb.Refines 0 abs) :
    hb.held = ⟨abs.thrs, abs.sos⟩ := by
  have thrs : hb.thrClock = abs.thrs := funext refines.thrClock_eq
  have sos : (fun so => (hb.sos.lookup so).map fun _ => hb.soClock so) =
      abs.sos := by
    funext so
    rw [refines.soClock_eq]
    cases atSO : abs.sos so with
    | none =>
        rw [refines.sos.of_none atSO]
        rfl
    | some contents =>
        obtain ⟨record, bound, -⟩ := refines.sos.of_some atSO
        rw [bound]
        rfl
  unfold held
  rw [thrs, sos]

theorem step_some {abs' : AbsHb} {op : SyncOp}
    (performed : abs.perform (.sync op) = .ok abs') :
    abs.step op = some abs' := by
  simp only [AbsHb.perform] at performed
  split at performed
  · rename_i after stepped
    cases performed
    exact stepped
  · cases performed

private theorem soJoin_eq {abs' : AbsHb} {so other : Nat}
    (joined : abs.soJoin so other = .ok abs') : abs.sos so ≠ none ∧
      ∃ contents, abs' = abs.setSO so contents := by
  unfold AbsHb.soJoin at joined
  split at joined
  · rename_i contents contents' atSO atOther
    have same : abs = abs.setSO so contents := by
      simp [AbsHb.setSO, ← atSO]
    have live : abs.sos so ≠ none := by simp [atSO]
    split at joined
    · cases joined
      exact ⟨live, contents, same⟩
    · split at joined
      · cases joined
        exact ⟨live, none, same⟩
      · cases joined
        exact ⟨live, _, rfl⟩
      · cases joined
      · cases joined
  · cases joined

theorem laws : Hb.lib.Laws (fun hb => ∃ abs, hb.Refines 0 abs) held where
  init started := by
    have refines := (Refines.init _).of_eq_ok started
    refine ⟨⟨_, refines⟩, ?_⟩
    rw [refines.held_eq]
    rfl
  thrClock _ _ := rfl
  soClock := by
    intro hb sound so
    obtain ⟨abs, refines⟩ := sound
    rw [refines.held_eq]
    exact refines.soClock_eq so
  soAlloc := by
    intro hb hb' so sound done
    obtain ⟨abs, refines⟩ := sound
    change hb.soAlloc so = .ok hb' at done
    cases unused : abs.unused so with
    | false =>
        unfold soAlloc at done
        rw [zalloc_of_used refines unused] at done
        cases done
    | true =>
        have after := (soAlloc_returns refines unused).of_eq_ok done
        simp only [AbsHb.unused, Bool.and_eq_true,
          Option.isNone_iff_eq_none] at unused
        rw [refines.held_eq, after.1.held_eq]
        exact ⟨⟨_, after.1⟩, unused.2, rfl⟩
  soDealloc := by
    intro hb hb' so sound done
    obtain ⟨abs, refines⟩ := sound
    change hb.soDealloc so = .ok hb' at done
    cases atSO : abs.sos so with
    | none =>
        unfold soDealloc at done
        rw [getSO_of_none refines atSO] at done
        cases done
    | some contents =>
        have after := (soDealloc_returns refines atSO).of_eq_ok done
        rw [refines.held_eq, after.1.held_eq]
        exact ⟨⟨_, after.1⟩, by simp [atSO], rfl⟩
  soExtract := by
    intro hb hb' thr so sound done
    obtain ⟨abs, refines⟩ := sound
    change hb.soExtract thr so = .ok hb' at done
    obtain ⟨abs', extracted, simulates⟩ :=
      (soExtract_agrees refines thr so).eq_ok done
    unfold AbsHb.soExtract at extracted
    split at extracted
    · rename_i clocks atThr
      split at extracted
      · rename_i unused
        cases extracted
        simp only [AbsHb.unused, Bool.and_eq_true,
          Option.isNone_iff_eq_none] at unused
        rw [refines.held_eq, simulates.1.held_eq]
        exact ⟨⟨_, simulates.1⟩, unused.2, clocks, atThr, rfl⟩
      · cases extracted
    · cases extracted
  soJoin := by
    intro hb hb' so other sound done
    obtain ⟨abs, refines⟩ := sound
    change hb.soJoin so other = .ok hb' at done
    obtain ⟨abs', joined, simulates⟩ :=
      (soJoin_agrees refines so other).eq_ok done
    obtain ⟨live, contents, same⟩ := soJoin_eq joined
    rw [refines.held_eq, simulates.1.held_eq, same]
    exact ⟨⟨_, simulates.1⟩, live, contents, rfl⟩
  perform := by
    intro hb hb' op sound done
    obtain ⟨abs, refines⟩ := sound
    obtain ⟨abs', performed, simulates⟩ :=
      (perform_agrees refines op).eq_ok done
    rw [refines.held_eq, simulates.1.held_eq]
    exact ⟨⟨abs', simulates.1⟩,
      fun so other => AbsHb.perform_sos performed other⟩
  soSend := by
    intro hb hb' thr so sound done
    obtain ⟨abs, refines⟩ := sound
    obtain ⟨abs', performed, simulates⟩ :=
      (perform_agrees refines (.sync (.soSend thr so false))).eq_ok done
    have stepped := step_some performed
    simp only [AbsHb.step, Option.bind_eq_bind, Option.bind_eq_some_iff,
      Option.some.injEq] at stepped
    obtain ⟨clocks, atThr, contents, atSO, same⟩ := stepped
    rw [refines.held_eq, simulates.1.held_eq, ← same]
    refine ⟨clocks, contents, atThr, atSO, ?_⟩
    cases contents <;> rfl
  soRecv := by
    intro hb hb' thr so sound done
    obtain ⟨abs, refines⟩ := sound
    obtain ⟨abs', performed, simulates⟩ :=
      (perform_agrees refines (.sync (.soRecv thr so true))).eq_ok done
    have stepped := step_some performed
    simp only [AbsHb.step, Option.bind_eq_bind, Option.bind_eq_some_iff,
      Option.some.injEq] at stepped
    obtain ⟨clocks, atThr, contents, atSO, same⟩ := stepped
    rw [refines.held_eq, simulates.1.held_eq, ← same]
    refine ⟨clocks, contents, atThr, atSO, ?_⟩
    cases contents <;> rfl

theorem unused_iff {addr : Nat} : abs.unused addr = true ↔
    Holdings.Free ⟨abs.thrs, abs.sos⟩ addr := by
  simp [AbsHb.unused, Holdings.Free]

theorem perform_ok {abs' : AbsHb} {op : SyncOp}
    (stepped : abs.step op = some abs') :
    abs.perform (.sync op) = .ok abs' := by
  simp only [AbsHb.perform, stepped]

theorem forkLaws :
    Hb.lib.ForkLaws (fun hb => ∃ abs, hb.Refines 0 abs) held where
  toLaws := laws
  root_live := by
    intro root s started
    have refines := (Refines.init _).of_eq_ok started
    have live : (AbsHb.init root).thrs root ≠ none := by
      simp [AbsHb.init]
    rw [refines.held_eq]
    exact live
  alloc_iff := by
    intro hb so sound
    obtain ⟨abs, refines⟩ := sound
    rw [refines.held_eq, ← unused_iff]
    change (∃ hb', hb.soAlloc so = .ok hb') ↔ _
    cases unused : abs.unused so with
    | false =>
        unfold soAlloc
        rw [zalloc_of_used refines unused]
        refine iff_of_false ?_ Bool.false_ne_true
        intro returned
        obtain ⟨hb', done⟩ := returned
        cases done
    | true =>
        obtain ⟨hb', done, -⟩ := soAlloc_returns refines unused
        exact iff_of_true ⟨hb', done⟩ rfl
  dealloc_returns := by
    intro hb so sound live
    obtain ⟨abs, refines⟩ := sound
    rw [refines.held_eq] at live
    obtain ⟨contents, atSO⟩ := Option.ne_none_iff_exists'.mp live
    obtain ⟨hb', done, -⟩ := soDealloc_returns refines atSO
    exact ⟨hb', done⟩
  create_iff := by
    intro hb thr child sound
    obtain ⟨abs, refines⟩ := sound
    rw [refines.held_eq, ← unused_iff]
    constructor
    · intro returned
      obtain ⟨hb', done⟩ := returned
      obtain ⟨abs', performed, -⟩ :=
        (perform_agrees refines (.sync (.create thr child))).eq_ok done
      have stepped := step_some performed
      simp only [AbsHb.step, Option.bind_eq_bind, Option.bind_eq_some_iff,
        Option.ite_none_right_eq_some, Option.some.injEq] at stepped
      obtain ⟨clocks, atThr, unused, -⟩ := stepped
      exact ⟨by simp [atThr], unused⟩
    · intro ready
      obtain ⟨live, unused⟩ := ready
      obtain ⟨clocks, atThr⟩ := Option.ne_none_iff_exists'.mp live
      have stepped : abs.step (.create thr child) =
          some ((abs.setThr child (clocks.tick child)).setThr thr
            (clocks.tick thr)) := by
        change abs.thrs thr = some clocks at atThr
        simp [AbsHb.step, atThr, unused]
      obtain ⟨hb', done, -⟩ := (perform_agrees refines
        (.sync (.create thr child))).returns (perform_ok stepped)
      exact ⟨hb', done⟩
  create := by
    intro hb hb' thr child sound done
    obtain ⟨abs, refines⟩ := sound
    obtain ⟨abs', performed, simulates⟩ :=
      (perform_agrees refines (.sync (.create thr child))).eq_ok done
    have stepped := step_some performed
    simp only [AbsHb.step, Option.bind_eq_bind, Option.bind_eq_some_iff,
      Option.ite_none_right_eq_some, Option.some.injEq] at stepped
    obtain ⟨clocks, atThr, -, same⟩ := stepped
    rw [refines.held_eq, simulates.1.held_eq, ← same]
    exact ⟨clocks, atThr, rfl⟩
  send_returns := by
    intro hb thr so sound liveThr liveSO
    obtain ⟨abs, refines⟩ := sound
    rw [refines.held_eq] at liveThr liveSO
    obtain ⟨clocks, atThr⟩ := Option.ne_none_iff_exists'.mp liveThr
    obtain ⟨contents, atSO⟩ := Option.ne_none_iff_exists'.mp liveSO
    change abs.thrs thr = some clocks at atThr
    change abs.sos so = some contents at atSO
    have stepped : abs.step (.soSend thr so true) =
        some ((abs.setSO so (some (AbsHb.sent contents clocks true))).setThr
          thr (clocks.tick thr)) := by
      simp [AbsHb.step, atThr, atSO]
    obtain ⟨hb', done, -⟩ := (perform_agrees refines
      (.sync (.soSend thr so true))).returns (perform_ok stepped)
    exact ⟨hb', done⟩
  strongSend := by
    intro hb hb' thr so sound done
    obtain ⟨abs, refines⟩ := sound
    obtain ⟨abs', performed, simulates⟩ :=
      (perform_agrees refines (.sync (.soSend thr so true))).eq_ok done
    have stepped := step_some performed
    simp only [AbsHb.step, Option.bind_eq_bind, Option.bind_eq_some_iff,
      Option.some.injEq] at stepped
    obtain ⟨clocks, atThr, contents, -, same⟩ := stepped
    rw [refines.held_eq, simulates.1.held_eq, ← same]
    refine ⟨clocks, atThr, ?_⟩
    cases contents <;> rfl
  recv_returns := by
    intro hb thr so sound liveThr liveSO
    obtain ⟨abs, refines⟩ := sound
    rw [refines.held_eq] at liveThr liveSO
    obtain ⟨clocks, atThr⟩ := Option.ne_none_iff_exists'.mp liveThr
    obtain ⟨contents, atSO⟩ := Option.ne_none_iff_exists'.mp liveSO
    change abs.thrs thr = some clocks at atThr
    change abs.sos so = some contents at atSO
    have stepped : abs.step (.soRecv thr so true) =
        some (abs.setThr thr (AbsHb.received clocks contents true)) := by
      simp [AbsHb.step, atThr, atSO]
    obtain ⟨hb', done, -⟩ := (perform_agrees refines
      (.sync (.soRecv thr so true))).returns (perform_ok stepped)
    exact ⟨hb', done⟩
  grows := by
    intro hb hb' op sound done
    obtain ⟨abs, refines⟩ := sound
    obtain ⟨abs', performed, simulates⟩ :=
      (perform_agrees refines op).eq_ok done
    rw [refines.held_eq, simulates.1.held_eq]
    exact (AbsHb.perform_progress performed).1

end Hb

namespace AbsUka

theorem getSO_eq_ok {abs : AbsUka} {so : Nat} {contents : Option VTS}
    (found : abs.getSO so = .ok contents) : abs.sos so = some contents := by
  unfold getSO at found
  split at found
  · rename_i atSO
    cases found
    exact atSO
  · cases found

end AbsUka

namespace UkaHb

def held (hb : UkaHb) : Holdings VTS where
  thrs := hb.thrClock
  sos so := (hb.sos.lookup so).map fun _ => hb.soClock so

variable {hb : UkaHb} {abs : AbsUka}

theorem Refines.held_eq (refines : hb.Refines 0 abs) :
    hb.held = ⟨abs.thrs, abs.sos⟩ := by
  have thrs : hb.thrClock = abs.thrs := funext refines.thrClock_eq
  have sos : (fun so => (hb.sos.lookup so).map fun _ => hb.soClock so) =
      abs.sos := by
    funext so
    rw [refines.soClock_eq]
    cases atSO : abs.sos so with
    | none =>
        rw [refines.sos.of_none atSO]
        rfl
    | some contents =>
        obtain ⟨record, bound, -⟩ := refines.sos.of_some atSO
        rw [bound]
        rfl
  unfold held
  rw [thrs, sos]

theorem laws : UkaHb.lib.Laws (fun hb => ∃ abs, hb.Refines 0 abs) held where
  init started := by
    have refines := (Refines.init _).of_eq_ok started
    refine ⟨⟨_, refines⟩, ?_⟩
    rw [refines.held_eq]
    rfl
  thrClock _ _ := rfl
  soClock := by
    intro hb sound so
    obtain ⟨abs, refines⟩ := sound
    rw [refines.held_eq]
    exact refines.soClock_eq so
  soAlloc := by
    intro hb hb' so sound done
    obtain ⟨abs, refines⟩ := sound
    obtain ⟨abs', allocated, simulates⟩ :=
      (soAlloc_agrees refines so).eq_ok done
    obtain ⟨_, free, same⟩ := bind_eq_ok.mp allocated
    cases same
    rw [refines.held_eq, simulates.1.held_eq]
    exact ⟨⟨_, simulates.1⟩, AbsUka.zalloc_eq_ok free, rfl⟩
  soDealloc := by
    intro hb hb' so sound done
    obtain ⟨abs, refines⟩ := sound
    obtain ⟨abs', freed, simulates⟩ := (soDealloc_agrees refines so).eq_ok done
    obtain ⟨contents, found, same⟩ := bind_eq_ok.mp freed
    cases same
    have atSO := AbsUka.getSO_eq_ok found
    rw [refines.held_eq, simulates.1.held_eq]
    exact ⟨⟨_, simulates.1⟩, by simp [atSO], rfl⟩
  soExtract := by
    intro hb hb' thr so sound done
    obtain ⟨abs, refines⟩ := sound
    obtain ⟨abs', extracted, simulates⟩ :=
      (soExtract_agrees refines thr so).eq_ok done
    obtain ⟨_, free, extracted⟩ := bind_eq_ok.mp extracted
    obtain ⟨clock, found, same⟩ := bind_eq_ok.mp extracted
    cases same
    rw [refines.held_eq, simulates.1.held_eq]
    exact ⟨⟨_, simulates.1⟩, AbsUka.zalloc_eq_ok free, clock,
      AbsUka.getThr_eq_ok found, rfl⟩
  soJoin := by
    intro hb hb' so other sound done
    obtain ⟨abs, refines⟩ := sound
    obtain ⟨abs', joined, simulates⟩ :=
      (soJoin_agrees refines so other).eq_ok done
    obtain ⟨own, found, joined⟩ := bind_eq_ok.mp joined
    obtain ⟨contents, -, joined⟩ := bind_eq_ok.mp joined
    have atSO := AbsUka.getSO_eq_ok found
    split at joined
    · cases joined
    · cases joined
      rw [refines.held_eq, simulates.1.held_eq]
      exact ⟨⟨_, simulates.1⟩, by simp [atSO], _, rfl⟩
  perform := by
    intro hb hb' op sound done
    obtain ⟨abs, refines⟩ := sound
    obtain ⟨abs', performed, simulates⟩ :=
      (perform_agrees refines op).eq_ok done
    rw [refines.held_eq, simulates.1.held_eq]
    exact ⟨⟨abs', simulates.1⟩,
      fun so other => AbsUka.perform_sos performed other⟩
  soSend := by
    intro hb hb' thr so sound done
    obtain ⟨abs, refines⟩ := sound
    obtain ⟨abs', sent, simulates⟩ :=
      (perform_agrees refines (.sync (.soSend thr so false))).eq_ok done
    obtain ⟨clock, found, sent⟩ := bind_eq_ok.mp sent
    obtain ⟨contents, foundSO, same⟩ := bind_eq_ok.mp sent
    cases same
    rw [refines.held_eq, simulates.1.held_eq]
    refine ⟨clock, contents, AbsUka.getThr_eq_ok found,
      AbsUka.getSO_eq_ok foundSO, ?_⟩
    cases contents <;> rfl
  soRecv := by
    intro hb hb' thr so sound done
    obtain ⟨abs, refines⟩ := sound
    obtain ⟨abs', received, simulates⟩ :=
      (perform_agrees refines (.sync (.soRecv thr so true))).eq_ok done
    obtain ⟨clock, found, received⟩ := bind_eq_ok.mp received
    obtain ⟨contents, foundSO, same⟩ := bind_eq_ok.mp received
    cases same
    rw [refines.held_eq, simulates.1.held_eq]
    refine ⟨clock, contents, AbsUka.getThr_eq_ok found,
      AbsUka.getSO_eq_ok foundSO, ?_⟩
    cases contents <;> rfl

theorem unused_iff {addr : Nat} : abs.unused addr = true ↔
    Holdings.Free ⟨abs.thrs, abs.sos⟩ addr := by
  simp [AbsUka.unused, Holdings.Free]

theorem zalloc_of_unused {addr : Nat} (unused : abs.unused addr = true) :
    abs.zalloc addr = .ok () :=
  if_pos unused

theorem unused_of_zalloc {addr : Nat} {done : Unit}
    (free : abs.zalloc addr = .ok done) : abs.unused addr = true := by
  unfold AbsUka.zalloc at free
  split at free
  · rename_i unused
    exact unused
  · cases free

theorem getThr_of_some {thr : Nat} {clock : VTS}
    (atThr : abs.thrs thr = some clock) : abs.getThr thr = .ok clock := by
  unfold AbsUka.getThr
  rw [atThr]

theorem getSO_of_some {so : Nat} {contents : Option VTS}
    (atSO : abs.sos so = some contents) : abs.getSO so = .ok contents := by
  unfold AbsUka.getSO
  rw [atSO]

/-- The clocks of threads only grow. -/
def Grows (before after : AbsUka) : Prop :=
  ∀ thr clock, before.thrs thr = some clock →
    ∃ later, after.thrs thr = some later ∧ clock ≤ later

theorem Grows.of_thrs_eq {before after : AbsUka}
    (same : after.thrs = before.thrs) : Grows before after :=
  fun _ clock stored => ⟨clock, same ▸ stored, le_rfl⟩

theorem Grows.trans {before middle after : AbsUka}
    (first : Grows before middle) (second : Grows middle after) :
    Grows before after := by
  intro thr clock stored
  obtain ⟨between, isBetween, below⟩ := first thr clock stored
  obtain ⟨later, isLater, above⟩ := second thr between isBetween
  exact ⟨later, isLater, below.trans above⟩

theorem Grows.setThr {before : AbsUka} {thr : Nat} {own : VTS}
    (grows : ∀ clock, before.thrs thr = some clock → clock ≤ own) :
    Grows before (before.setThr thr own) := by
  intro other clock stored
  change ∃ later, Function.update before.thrs thr (some own) other =
    some later ∧ clock ≤ later
  by_cases same : other = thr
  · rw [same] at stored
    rw [same, Function.update_self]
    exact ⟨own, rfl, grows clock stored⟩
  · rw [Function.update_of_ne same]
    exact ⟨clock, stored, le_rfl⟩

theorem le_received (clock : VTS) (contents : Option VTS) :
    clock ≤ AbsUka.received clock contents := by
  cases contents with
  | none => exact le_rfl
  | some posted => exact VTS.le_join_left clock posted

private theorem perform_grows {abs' : AbsUka} {op : HbOp}
    (done : abs.perform op = .ok abs') : Grows abs abs' := by
  cases op with
  | sync op =>
      cases op with
      | create thr child =>
          obtain ⟨clock, found, done⟩ := bind_eq_ok.mp done
          obtain ⟨_, free, same⟩ := bind_eq_ok.mp done
          cases same
          have atThr := AbsUka.getThr_eq_ok found
          have unused := unused_iff.mp (unused_of_zalloc free)
          have apart : thr ≠ child := by
            intro same
            rw [same] at atThr
            have absent : abs.thrs child = none := unused.1
            rw [absent] at atThr
            cases atThr
          have atThr' : (abs.setThr child (clock.tick child)).thrs thr =
              some clock :=
            (Function.update_of_ne apart _ _).trans atThr
          have created : Grows abs (abs.setThr child (clock.tick child)) := by
            apply Grows.setThr
            intro old isOld
            have absent : abs.thrs child = none := unused.1
            rw [absent] at isOld
            cases isOld
          apply created.trans
          apply Grows.setThr
          intro old isOld
          rw [atThr'] at isOld
          cases isOld
          exact VTS.le_tick thr clock
      | soAlloc thr so | soDealloc thr so =>
          obtain ⟨_, -, done⟩ := bind_eq_ok.mp done
          obtain ⟨_, -, same⟩ := bind_eq_ok.mp done
          cases same
          exact .of_thrs_eq rfl
      | soSend thr so strong =>
          obtain ⟨clock, found, done⟩ := bind_eq_ok.mp done
          obtain ⟨contents, -, same⟩ := bind_eq_ok.mp done
          cases same
          apply Grows.trans (.of_thrs_eq rfl)
          apply Grows.setThr
          intro old isOld
          have atThr : abs.thrs thr = some old := isOld
          rw [AbsUka.getThr_eq_ok found] at atThr
          cases atThr
          exact VTS.le_tick thr clock
      | soRecv thr so strong =>
          obtain ⟨clock, found, done⟩ := bind_eq_ok.mp done
          obtain ⟨contents, -, same⟩ := bind_eq_ok.mp done
          cases same
          apply Grows.setThr
          intro old isOld
          rw [AbsUka.getThr_eq_ok found] at isOld
          cases isOld
          exact le_received clock contents
  | soJoin so1 so2 =>
      obtain ⟨_, -, done⟩ := bind_eq_ok.mp done
      obtain ⟨_, -, done⟩ := bind_eq_ok.mp done
      split at done
      · cases done
      · cases done
        exact .of_thrs_eq rfl
  | soExtract thr so =>
      obtain ⟨_, -, done⟩ := bind_eq_ok.mp done
      obtain ⟨_, -, same⟩ := bind_eq_ok.mp done
      cases same
      exact .of_thrs_eq rfl
  | soEverSent so =>
      simp only [AbsUka.perform] at done
      split at done
      · cases done
        exact .of_thrs_eq rfl
      · cases done

theorem forkLaws :
    UkaHb.lib.ForkLaws (fun hb => ∃ abs, hb.Refines 0 abs) held where
  toLaws := laws
  root_live := by
    intro root s started
    have refines := (Refines.init _).of_eq_ok started
    have live : (AbsUka.init root).thrs root ≠ none := by
      simp [AbsUka.init]
    rw [refines.held_eq]
    exact live
  alloc_iff := by
    intro hb so sound
    obtain ⟨abs, refines⟩ := sound
    rw [refines.held_eq, ← unused_iff]
    constructor
    · intro returned
      obtain ⟨hb', done⟩ := returned
      obtain ⟨abs', allocated, -⟩ := (soAlloc_agrees refines so).eq_ok done
      obtain ⟨_, free, -⟩ := bind_eq_ok.mp allocated
      exact unused_of_zalloc free
    · intro unused
      have allocated : abs.soAlloc so = .ok (abs.setSO so none) := by
        unfold AbsUka.soAlloc
        rw [zalloc_of_unused unused]
        rfl
      obtain ⟨hb', done, -⟩ := (soAlloc_agrees refines so).returns allocated
      exact ⟨hb', done⟩
  dealloc_returns := by
    intro hb so sound live
    obtain ⟨abs, refines⟩ := sound
    rw [refines.held_eq] at live
    obtain ⟨contents, atSO⟩ := Option.ne_none_iff_exists'.mp live
    have freed : abs.soDealloc so =
        .ok { abs with sos := Function.update abs.sos so none } := by
      unfold AbsUka.soDealloc
      rw [getSO_of_some atSO]
      rfl
    obtain ⟨hb', done, -⟩ := (soDealloc_agrees refines so).returns freed
    exact ⟨hb', done⟩
  create_iff := by
    intro hb thr child sound
    obtain ⟨abs, refines⟩ := sound
    rw [refines.held_eq, ← unused_iff]
    constructor
    · intro returned
      obtain ⟨hb', done⟩ := returned
      obtain ⟨abs', performed, -⟩ :=
        (perform_agrees refines (.sync (.create thr child))).eq_ok done
      obtain ⟨clock, found, performed⟩ := bind_eq_ok.mp performed
      obtain ⟨_, free, -⟩ := bind_eq_ok.mp performed
      have atThr := AbsUka.getThr_eq_ok found
      exact ⟨by simp [atThr], unused_of_zalloc free⟩
    · intro ready
      obtain ⟨live, unused⟩ := ready
      obtain ⟨clock, atThr⟩ := Option.ne_none_iff_exists'.mp live
      have performed : abs.perform (.sync (.create thr child)) =
          .ok ((abs.setThr child (clock.tick child)).setThr thr
            (clock.tick thr)) := by
        simp only [AbsUka.perform, AbsUka.step]
        rw [getThr_of_some atThr, ok_bind, zalloc_of_unused unused]
        rfl
      obtain ⟨hb', done, -⟩ := (perform_agrees refines
        (.sync (.create thr child))).returns performed
      exact ⟨hb', done⟩
  create := by
    intro hb hb' thr child sound done
    obtain ⟨abs, refines⟩ := sound
    obtain ⟨abs', performed, simulates⟩ :=
      (perform_agrees refines (.sync (.create thr child))).eq_ok done
    obtain ⟨clock, found, performed⟩ := bind_eq_ok.mp performed
    obtain ⟨-, -, same⟩ := bind_eq_ok.mp performed
    cases same
    rw [refines.held_eq, simulates.1.held_eq]
    exact ⟨clock, AbsUka.getThr_eq_ok found, rfl⟩
  send_returns := by
    intro hb thr so sound liveThr liveSO
    obtain ⟨abs, refines⟩ := sound
    rw [refines.held_eq] at liveThr liveSO
    obtain ⟨clock, atThr⟩ := Option.ne_none_iff_exists'.mp liveThr
    obtain ⟨contents, atSO⟩ := Option.ne_none_iff_exists'.mp liveSO
    have performed : abs.perform (.sync (.soSend thr so true)) =
        .ok ((abs.setSO so (some (AbsUka.sent contents clock true))).setThr
          thr (clock.tick thr)) := by
      simp only [AbsUka.perform, AbsUka.step]
      rw [getThr_of_some atThr, ok_bind, getSO_of_some atSO]
      rfl
    obtain ⟨hb', done, -⟩ := (perform_agrees refines
      (.sync (.soSend thr so true))).returns performed
    exact ⟨hb', done⟩
  strongSend := by
    intro hb hb' thr so sound done
    obtain ⟨abs, refines⟩ := sound
    obtain ⟨abs', performed, simulates⟩ :=
      (perform_agrees refines (.sync (.soSend thr so true))).eq_ok done
    obtain ⟨clock, found, performed⟩ := bind_eq_ok.mp performed
    obtain ⟨contents, -, same⟩ := bind_eq_ok.mp performed
    cases same
    rw [refines.held_eq, simulates.1.held_eq]
    refine ⟨clock, AbsUka.getThr_eq_ok found, ?_⟩
    cases contents <;> rfl
  recv_returns := by
    intro hb thr so sound liveThr liveSO
    obtain ⟨abs, refines⟩ := sound
    rw [refines.held_eq] at liveThr liveSO
    obtain ⟨clock, atThr⟩ := Option.ne_none_iff_exists'.mp liveThr
    obtain ⟨contents, atSO⟩ := Option.ne_none_iff_exists'.mp liveSO
    have performed : abs.perform (.sync (.soRecv thr so true)) =
        .ok (abs.setThr thr (AbsUka.received clock contents)) := by
      simp only [AbsUka.perform, AbsUka.step]
      rw [getThr_of_some atThr, ok_bind, getSO_of_some atSO]
      rfl
    obtain ⟨hb', done, -⟩ := (perform_agrees refines
      (.sync (.soRecv thr so true))).returns performed
    exact ⟨hb', done⟩
  grows := by
    intro hb hb' op sound done
    obtain ⟨abs, refines⟩ := sound
    obtain ⟨abs', performed, simulates⟩ :=
      (perform_agrees refines op).eq_ok done
    rw [refines.held_eq, simulates.1.held_eq]
    exact perform_grows performed

end UkaHb

namespace Build

instance : (build : Build) → ClockOps build.Clock
  | .default => inferInstanceAs (ClockOps Clocks)
  | .ukas | .ukal => inferInstanceAs (ClockOps VTS)

theorem forkLaws (build : Build) : ∃ inv held,
    build.lib.ForkLaws inv held := by
  cases build with
  | default => exact ⟨_, _, HelgrindPlus.Hb.forkLaws⟩
  | ukas | ukal => exact ⟨_, _, UkaHb.forkLaws⟩

end Build

end HelgrindPlus
