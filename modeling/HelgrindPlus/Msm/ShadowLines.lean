import HelgrindPlus.Msm.UkalMachine
import HelgrindPlus.Zsm.NestedAccess

/-!
# Shadow lines

Each operation on shadow memory keeps its lines as they should be, and so does
an access for which the memory state machine leaves shadow memory alone.  In
the default build and in the one with `libhb_ukal_core.h` it always does.
-/

namespace HelgrindPlus

open Outcome

variable {α ρ : Type} [DecidableEq α] [ShadowVal α]

/-- What every operation keeps of the lines. -/
structure Zsm.Formed (z : Zsm α) : Prop where
  wf : z.WF
  owned : z.Owned

theorem Zsm.Formed.linesOk {z : Zsm α} (formed : z.Formed) : z.LinesOk :=
  Zsm.linesOk_of formed.wf formed.owned

theorem Zsm.init_formed : (Zsm.init : Zsm α).Formed :=
  ⟨Zsm.init_wf, Zsm.init_owned⟩

section Operations

variable {rc : ρ → RcEvent α → Except Abort ρ} {z : Zsm α} {r : ρ}

theorem counting_formed
    {operation : Zsm α → Except Abort (Zsm α × List (RcEvent α))}
    (wf : Satisfies (fun _ => True) (operation z) (·.1.WF))
    (owned : Satisfies (fun _ => True) (operation z) (·.1.Owned)) :
    Satisfies (fun _ => True) (counting rc (z, r) operation)
      (·.1.Formed) := by
  apply (wf.and owned).bind
  rintro ⟨after, events⟩ ⟨wf, owned⟩
  apply (Satisfies.any _).bind
  exact fun _ _ => ⟨wf, owned⟩

namespace Zsm.Formed

theorem setRange (formed : z.Formed) {svNew : α} (valid : svNew ≠ invalid)
    (a len : Nat) :
    Satisfies (fun _ => True) (counting rc (z, r) (·.setRange a len svNew))
      (·.1.Formed) := by
  apply counting_formed _ (formed.owned.setRange svNew a len)
  exact (Zsm.setRange_returns formed.wf valid a len).satisfies.mono
    fun _ changed => changed.wf

theorem copyRange (formed : z.Formed) (src dst len : Nat) :
    Satisfies (fun _ => True) (counting rc (z, r) (·.copyRange src dst len))
      (·.1.Formed) := by
  apply counting_formed _ (formed.owned.copyRange src dst len)
  by_cases apart : src + len ≤ dst ∨ dst + len ≤ src
  · exact (Zsm.copyRange_returns formed.wf apart).satisfies.mono
      fun _ changed => changed.wf
  · unfold Zsm.copyRange
    split
    · exact formed.wf
    · rw [tlAssert_of_not apart]
      trivial

theorem flushCache (formed : z.Formed) :
    Satisfies (fun _ => True) (counting rc (z, r) (·.flushCache))
      (·.1.Formed) := by
  apply counting_formed _ formed.owned.flushCache
  exact (Zsm.flushCache_returns formed.wf).satisfies.mono
    fun _ flushed => flushed.1.wf

section Access

variable {msm : Zsm α × ρ → α → Nat → Nat → Except Abort ((Zsm α × ρ) × α)}
  {s : Zsm α × ρ}

theorem applyWidths (formed : s.1.Formed) (leaves : LeavesMemory msm)
    (width : Width) (a : Nat) :
    Satisfies (fun _ => True) ((applyWidths rc msm).access width s a)
      (·.1.Formed) := by
  have wf := applyWidths_satisfies (leaves.wf_rule rc (a + width.bytes))
    width a s (le_refl _) formed.wf
  have owned := (leaves.keeps_owned rc).applyWidths width a formed.owned
  exact (wf.and owned).mono fun _ both => ⟨both.1, both.2⟩

theorem applyRange (formed : s.1.Formed) (leaves : LeavesMemory msm)
    (a len : Nat) :
    Satisfies (fun _ => True) (applyRange rc msm s a len) (·.1.Formed) := by
  have wf := applyRange_satisfies (leaves.wf_rule rc (a + len)) formed.wf
  have owned := (leaves.keeps_owned rc).applyRange a len formed.owned
  exact (wf.and owned).mono fun _ both => ⟨both.1, both.2⟩

end Access

end Zsm.Formed

end Operations

namespace Machine

variable {s : Machine}

theorem msm_leavesMemory (isWrite : Bool) (thr : Nat) :
    LeavesMemory (msm isWrite thr) := by
  intro s svOld a szB
  have value : ∀ tab t, Satisfies (fun _ => True)
      (msmFor isWrite tab svOld t) (·.2.1 ≠ .I) := by
    intro tab t
    cases isWrite with
    | false =>
        unfold msmFor msmRead msmRaced
        cases svOld with
        | C rmini wmini =>
            apply (Satisfies.any _).bind
            rintro ⟨tab, ord⟩ -
            dsimp only
            split
            · apply (Satisfies.any _).bind
              intro _ _ impossible
              cases impossible
            · iterate 4
                apply (Satisfies.any _).bind
                intro _ _
              intro impossible
              cases impossible
        | E | A =>
            intro impossible
            cases impossible
        | I => trivial
    | true =>
        unfold msmFor msmWrite msmRaced
        cases svOld with
        | C rmini wmini =>
            apply (Satisfies.any _).bind
            rintro ⟨tab, ord⟩ -
            dsimp only
            split
            · intro impossible
              cases impossible
            · iterate 4
                apply (Satisfies.any _).bind
                intro _ _
              intro impossible
              cases impossible
        | E | A =>
            intro impossible
            cases impossible
        | I => trivial
  apply (Satisfies.any _).bind
  intro t _
  apply (value s.2.hb.tab t).bind
  rintro ⟨tab, svNew, raced⟩ valid
  exact ⟨rfl, fun _ => valid⟩

theorem maybeGC_formed (formed : s.1.Formed) (due : Bool) :
    Satisfies (fun _ => True) (s.maybeGC due) (·.1.Formed) := by
  unfold maybeGC
  split
  · exact formed
  split
  · exact formed
  apply (Satisfies.any _).bind
  intro _ _
  apply formed.flushCache.bind
  intro flushed formed
  apply (Satisfies.any _).bind
  exact fun _ _ => formed

theorem perform_formed (formed : s.1.Formed) (op : MachineOp) :
    Satisfies (fun _ => True) (s.perform op) (·.1.Formed) := by
  cases op with
  | hb op =>
      apply (Satisfies.any _).bind
      exact fun _ _ => formed
  | apply isWrite width thr a =>
      exact formed.applyWidths (msm_leavesMemory isWrite thr) width a
  | readN thr a n | writeN thr a n =>
      exact formed.applyRange (msm_leavesMemory false thr) a n
  | rangeNew thr a szB =>
      apply (Satisfies.any _).bind
      intro t _
      rw [VtsTab.rangeNewSVal_eq, ok_bind]
      exact formed.setRange (by nofun) a szB
  | rangeNoaccess a szB => exact formed.setRange (by nofun) a szB
  | copyRange src dst len => exact formed.copyRange src dst len
  | maybeGC due => exact maybeGC_formed formed due

/-- The lines after a run. -/
theorem run_formed (root : Nat) (ops : List MachineOp) :
    Satisfies (fun _ => True) (run root ops) (·.1.Formed) := by
  have started : Satisfies (fun _ => True) (init root) (·.1.Formed) := by
    apply (Satisfies.any _).bind
    exact fun _ _ => Zsm.init_formed
  apply started.bind
  intro s formed
  exact Satisfies.foldlM_kept (fun s op _ formed => perform_formed formed op)
    formed

end Machine

namespace Ukal

variable {s : Machine}

theorem msm_valid (tab : VtsTab) (sv : SVal Nat) (tvid : Nat) (acc : Access) :
    Satisfies (fun _ => True) (machine.msm tab sv tvid acc) fun result =>
      sv ≠ .Invalid → result.2.svNew ≠ .Invalid := by
  unfold HybridMachine.msm machine
  dsimp only
  split
  · unfold msmWrite
    split
    · exact id
    · cases sv with
      | ExclW vts | ExclR vts | ExclRW vts =>
          apply (Satisfies.any _).bind
          rintro ⟨tab, ord⟩ -
          dsimp only
          repeat' split
          all_goals exact fun _ => nofun
      | ShM2 vts lset =>
          dsimp only
          split
          · apply (Satisfies.any _).bind
            rintro ⟨tab, ord⟩ -
            dsimp only
            split
            all_goals exact fun _ => nofun
          · exact fun _ => nofun
      | ShR vts lset | ShM lset =>
          dsimp only
          split
          all_goals exact fun _ => nofun
      | SpinVar vts =>
          apply (Satisfies.any _).bind
          exact fun _ _ _ => nofun
      | New | Race | NoAccess => exact fun _ => nofun
      | Invalid => trivial
  · unfold msmRead
    split
    · split
      · apply (Satisfies.any _).bind
        exact fun _ _ _ => nofun
      · exact fun _ => nofun
    split
    · exact id
    · cases sv with
      | ExclW vts | ExclR vts | ExclRW vts =>
          apply (Satisfies.any _).bind
          rintro ⟨tab, ord⟩ -
          dsimp only
          repeat' split
          all_goals exact fun _ => nofun
      | ShM2 vts lset =>
          dsimp only
          split
          · apply (Satisfies.any _).bind
            rintro ⟨tab, ord⟩ -
            dsimp only
            split
            all_goals exact fun _ => nofun
          · exact fun _ => nofun
      | ShM lset =>
          dsimp only
          split
          all_goals exact fun _ => nofun
      | SpinVar vts =>
          apply (Satisfies.any _).bind
          exact fun _ _ _ => nofun
      | ShR vts lset | New | Race | NoAccess => exact fun _ => nofun
      | Invalid => trivial

namespace Machine

theorem msm_leavesMemory (acc : Access) : LeavesMemory (msm acc) := by
  intro s svOld a szB
  apply (Satisfies.any _).bind
  intro tvid _
  apply (msm_valid s.2.hb.tab svOld tvid acc).bind
  rintro ⟨tab, out⟩ valid
  exact ⟨rfl, valid⟩

theorem maybeGC_formed (formed : s.1.Formed) (due : Bool) :
    Satisfies (fun _ => True) (s.maybeGC due) (·.1.Formed) := by
  unfold maybeGC
  split
  · exact formed
  split
  · exact formed
  apply (Satisfies.any _).bind
  intro _ _
  apply formed.flushCache.bind
  intro flushed formed
  apply (Satisfies.any _).bind
  exact fun _ _ => formed

theorem perform_formed (formed : s.1.Formed) (op : Op) :
    Satisfies (fun _ => True) (s.perform op) (·.1.Formed) := by
  cases op with
  | hb op =>
      apply (Satisfies.any _).bind
      exact fun _ _ => formed
  | apply acc width a =>
      exact formed.applyWidths (msm_leavesMemory acc) width a
  | applyRange acc a len =>
      exact formed.applyRange (msm_leavesMemory acc) a len
  | rangeNew a szB | rangeNoaccess a szB =>
      exact formed.setRange (by nofun) a szB
  | copyRange src dst len => exact formed.copyRange src dst len
  | maybeGC due => exact maybeGC_formed formed due

theorem run_formed (root : Nat) (ops : List Op) :
    Satisfies (fun _ => True) (run root ops) (·.1.Formed) := by
  have started : Satisfies (fun _ => True) (init root) (·.1.Formed) := by
    apply (Satisfies.any _).bind
    exact fun _ _ => Zsm.init_formed
  apply started.bind
  intro s formed
  exact Satisfies.foldlM_kept (fun s op _ formed => perform_formed formed op)
    formed

end Machine

end Ukal

/-- The lines are as they should be after every run of the default build and
of the one with `libhb_ukal_core.h`. -/
theorem shadow_lines_ok :
    (∀ root ops, Satisfies (fun _ => True) (Machine.run root ops)
      (·.1.LinesOk)) ∧
    ∀ root ops, Satisfies (fun _ => True) (Ukal.Machine.run root ops)
      (·.1.LinesOk) :=
  ⟨fun root ops => (Machine.run_formed root ops).mono
      fun _ formed => formed.linesOk,
    fun root ops => (Ukal.Machine.run_formed root ops).mono
      fun _ formed => formed.linesOk⟩

end HelgrindPlus
