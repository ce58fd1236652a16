import HelgrindPlus.LibHB.UkaSync
import HelgrindPlus.Msm.Ukas

/-!
# Spin variables of the short hybrid machine

One location of the build with `libhb_ukas_core.h`, without `--detect-mutex`:
threads synchronise and access the location in any order.  A `SpinVar` value
is meant to hold the clock of the last write, so that a thread that leaves a
spin loop is ordered after it.

A read in a spin loop makes any value a `SpinVar` with the clock that is there.
It is that of the last write only in some of the states.
-/

namespace HelgrindPlus.Ukas

open Outcome VtsTab

/-- The location, and the clock with which it was last written. -/
structure SpinLoc where
  hb : UkaHb
  sv : SVal Nat
  written : Option VTS

inductive SpinOp where
  | hb (op : HbOp)
  | access (acc : Access)
  deriving DecidableEq

namespace SpinLoc

def init (root : Nat) : Except Abort SpinLoc := do
  let hb ← UkaHb.init root
  pure ⟨hb, .New, none⟩

/-- Without `--detect-mutex` nothing is known to be a lock. -/
def undetected (acc : Access) : Access := { acc with wasALock := false }

def access (s : SpinLoc) (acc : Access) : Except Abort SpinLoc := do
  let tvid ← s.hb.getThr acc.thr
  let (tab, out) ← machine.msm s.hb.tab s.sv tvid (undetected acc)
  pure ⟨s.hb.exchange tab acc.thr out.vid, out.svNew,
    if acc.isWrite then s.hb.tab.clock tvid else s.written⟩

def perform (s : SpinLoc) : SpinOp → Except Abort SpinLoc
  | .hb op => do
      let hb ← s.hb.perform op
      pure { s with hb := hb }
  | .access acc => s.access acc

def run (root : Nat) (ops : List SpinOp) : Except Abort SpinLoc := do
  let s ← init root
  ops.foldlM perform s

def clockOf (s : SpinLoc) (thr : Nat) : Option VTS := do
  let vid ← s.hb.thrs.lookup thr
  s.hb.tab.clock vid

/-- A spin variable that has been written holds the clock of the write. -/
def HoldsLastWrite (s : SpinLoc) : Prop :=
  ∀ ii clock, s.sv = .SpinVar ii → s.written = some clock →
    s.hb.tab.clock ii = some clock

/-- A thread that reads the location in a spin loop is then ordered after the
last write, and after nothing else that it was not ordered after before.  What
a thread does in its `n`th segment is before a clock if the thread's component
is at least `n`. -/
def ReaderFollows (s : SpinLoc) (acc : Access) : Prop :=
  acc.isWrite = false → acc.spinReading = true → ∀ write before,
    s.written = some write → s.clockOf acc.thr = some before →
    ∃ next after, s.access acc = .ok next ∧
      next.clockOf acc.thr = some after ∧ write ≤ after ∧
      ∀ thr n, n ≤ after.indexAt thr →
        n ≤ before.indexAt thr ∨ n ≤ write.indexAt thr

/-- The clock with which the location becomes a spin variable, if it is read
in a spin loop: the one it holds, or else that of the reader. -/
def entryClock (s : SpinLoc) (thr : Nat) : Option VTS :=
  match s.sv.getVTS with
  | some ii => s.hb.tab.clock ii
  | none => s.clockOf thr

/-- A location that is read in a spin loop, and is not a spin variable yet,
holds the clock of the last write, if there was one. -/
def EntersWell (s : SpinLoc) (acc : Access) : Prop :=
  acc.isWrite = false → acc.spinReading = true → s.sv.isSpinVar = false →
    s.clockOf acc.thr ≠ none → ∀ write, s.written = some write →
      s.entryClock acc.thr = some write

end SpinLoc

section Clocks

variable {value : SVal VTS} {clock : VTS} {acc : Access}

/-- The clocks that an access leaves in the location and in the thread. -/
structure ClockStep (value : SVal VTS) (clock : VTS) (acc : Access)
    (out : MsmOut VTS (SVal VTS)) : Prop where
  stored : ∀ vts, out.svNew.getVTS = some vts →
    vts = clock ∨ value.getVTS = some vts
  thread : ∀ vts, out.vid = some vts → vts = clock.tick acc.thr ∨
    ∃ last, value.getVTS = some last ∧ vts = clock.join last

theorem absRead_clockStep :
    ClockStep value clock acc (absRead value clock acc) := by
  unfold absRead
  split
  · split
    · rename_i last holds
      split
      · exact ⟨by rintro vts ⟨⟩; exact .inr holds, nofun⟩
      · refine ⟨by rintro vts ⟨⟩; exact .inr holds, ?_⟩
        rintro vts ⟨⟩
        exact .inr ⟨last, holds, rfl⟩
    · exact ⟨by rintro vts ⟨⟩; exact .inl rfl, nofun⟩
  split
  · exact ⟨fun vts same => .inr same, nofun⟩
  cases value with
  | SpinVar vts =>
      refine ⟨fun vts same => .inr same, ?_⟩
      rintro vts ⟨⟩
      exact .inr ⟨_, rfl, rfl⟩
  | _ =>
      dsimp only
      repeat' split
      all_goals
        refine ⟨fun vts same => ?_, nofun⟩
        cases same <;> first | exact .inl rfl | exact .inr rfl

theorem absWrite_clockStep :
    ClockStep value clock acc (absWrite value clock acc) := by
  unfold absWrite
  split
  · exact ⟨fun vts same => .inr same, nofun⟩
  cases value with
  | SpinVar vts =>
      dsimp only
      split
      · exact ⟨fun vts same => .inr same, nofun⟩
      · refine ⟨?_, ?_⟩
        · rintro vts ⟨⟩
          exact .inl rfl
        · rintro vts ⟨⟩
          exact .inl rfl
  | _ =>
      dsimp only
      repeat' split
      all_goals
        refine ⟨fun vts same => ?_, nofun⟩
        cases same <;> first | exact .inl rfl | exact .inr rfl

private theorem spec_clockStep :
    ClockStep value clock acc (spec.msm value clock acc) := by
  unfold spec
  dsimp only
  split
  · exact absWrite_clockStep
  · exact absRead_clockStep

/-- The ways to leave a location as a spin variable. -/
theorem absWrite_eq_spinVar {vts : VTS}
    (result : (absWrite value clock (SpinLoc.undetected acc)).svNew =
      .SpinVar vts) : vts = clock := by
  unfold absWrite at result
  split at result
  · rename_i skipped
    have value : value = .SpinVar vts := result
    rw [value] at skipped
    simp [SVal.isSpinVar] at skipped
  cases value with
  | SpinVar old =>
      cases result
      rfl
  | _ =>
      dsimp only at result
      repeat' split at result
      all_goals cases result

private theorem absRead_eq_spinVar {vts : VTS}
    (result : (absRead value clock (SpinLoc.undetected acc)).svNew =
      .SpinVar vts) :
    value = .SpinVar vts ∨ acc.spinReading = true ∧
      value.isSpinVar = false ∧ value.getVTS.getD clock = vts := by
  unfold absRead at result
  split at result
  · rename_i spinning
    cases kind : value.isSpinVar with
    | true =>
        cases value with
        | SpinVar old =>
            cases result
            exact .inl rfl
        | _ => cases kind
    | false =>
        refine .inr ⟨spinning, rfl, ?_⟩
        cases holds : value.getVTS with
        | some last =>
            rw [holds] at result
            cases result
            rfl
        | none =>
            rw [holds] at result
            cases result
            rfl
  split at result
  · exact .inl result
  cases value with
  | SpinVar old => exact .inl result
  | _ =>
      dsimp only at result
      repeat' split at result
      all_goals cases result

/-- A read in a spin loop. -/
theorem absRead_spinning (spinning : acc.spinReading = true) :
    ((absRead value clock (SpinLoc.undetected acc)).svNew =
        .SpinVar (value.getVTS.getD clock)) ∧
      (absRead value clock (SpinLoc.undetected acc)).vid.getD clock =
        clock.join (value.getVTS.getD clock) := by
  unfold absRead
  have spinning' : (SpinLoc.undetected acc).spinReading = true := spinning
  rw [if_pos spinning']
  cases value.getVTS with
  | some last => exact ⟨rfl, rfl⟩
  | none => exact ⟨rfl, (VTS.join_self clock).symm⟩

end Clocks

namespace SpinLoc

structure Inv (s : SpinLoc) (abs : AbsUka) (value : SVal VTS) : Prop where
  hb : s.hb.Refines 0 abs
  denotes : SVDenotes s.hb.tab s.sv value
  mentions : ∀ vts, value.getVTS = some vts → abs.Mentions vts

section Runs

variable {s : SpinLoc} {abs : AbsUka} {value : SVal VTS} {clock : VTS}
  {acc : Access}

theorem Inv.init (root : Nat) :
    Returns (SpinLoc.init root) (fun s => Inv s (.init root) .New ∧
      s.HoldsLastWrite) := by
  unfold SpinLoc.init
  apply (UkaHb.Refines.init root).bind
  intro hb refines
  exact Returns.pure ⟨⟨refines, .New, nofun⟩, nofun⟩

theorem Inv.clockOf (inv : Inv s abs value) (thr : Nat) :
    s.clockOf thr = abs.thrs thr := by
  unfold SpinLoc.clockOf
  cases atThr : abs.thrs thr with
  | none =>
      rw [inv.hb.thrs.of_none atThr]
      rfl
  | some clock =>
      obtain ⟨vid, bound, known⟩ := inv.hb.thrs.of_some atThr
      rw [bound]
      exact known

theorem Inv.holdsLastWrite_iff (inv : Inv s abs value) :
    s.HoldsLastWrite ↔ ∀ vts clock, value = .SpinVar vts →
      s.written = some clock → vts = clock := by
  have denotes := inv.denotes
  unfold HoldsLastWrite
  generalize s.sv = sv at denotes ⊢
  cases denotes with
  | @SpinVar ii vts known =>
      constructor
      · rintro holds vts' clock ⟨⟩ written
        have same := holds ii clock rfl written
        rw [known] at same
        exact Option.some.inj same
      · rintro holds ii' clock ⟨⟩ written
        rw [known, holds vts clock rfl written]
  | _ => exact ⟨fun _ => nofun, fun _ => nofun⟩

/-- The clock that is read out on entry. -/
theorem Inv.entryClock (inv : Inv s abs value)
    (atThr : abs.thrs acc.thr = some clock) :
    s.entryClock acc.thr = some (value.getVTS.getD clock) := by
  have tells := inv.denotes.getVTS
  unfold SpinLoc.entryClock
  generalize s.sv.getVTS = found at tells ⊢
  generalize value.getVTS = expected at tells ⊢
  cases tells with
  | none =>
      dsimp only
      rw [inv.clockOf, atThr]
      rfl
  | some known => exact known

/-- What an access does. -/
structure Accessed (s : SpinLoc) (abs : AbsUka) (value : SVal VTS)
    (clock : VTS) (acc : Access) (next : SpinLoc) : Prop where
  inv : ∃ abs', Inv next abs'
    (spec.msm value clock (undetected acc)).svNew
  written : next.written = if acc.isWrite then some clock else s.written
  thread : next.clockOf acc.thr =
    some ((spec.msm value clock (undetected acc)).vid.getD clock)

theorem Inv.access (inv : Inv s abs value)
    (atThr : abs.thrs acc.thr = some clock) :
    Returns (s.access acc) (Accessed s abs value clock acc) := by
  obtain ⟨vid, bound, mine⟩ := inv.hb.thrs.of_some atThr
  have counted := inv.hb.counted
  rw [UkaHb.refs_eq_of_thr bound, Multiset.cons_add] at counted
  have thread : s.hb.getThr acc.thr = .ok vid := by
    unfold UkaHb.getThr
    rw [bound]
  unfold SpinLoc.access
  rw [thread, ok_bind]
  apply (msm_returns (undetected acc) counted mine inv.denotes).bind
  rintro ⟨tab, out⟩ result
  have step := @spec_clockStep value clock (undetected acc)
  have mentions : ∀ idx, idx ≠ acc.thr → abs.thrs idx = none →
      ((spec.msm value clock (undetected acc)).vid.getD clock).indexAt idx =
        0 := by
    intro idx other unknown
    have own := inv.hb.grounded.thrs acc.thr clock atThr idx unknown
    cases moved : (spec.msm value clock (undetected acc)).vid with
    | none => exact own
    | some vts =>
        rcases step.thread vts moved with rfl | ⟨last, holds, rfl⟩
        · have apart : idx ≠ (undetected acc).thr := other
          simp [VTS.indexAt_tick, own, apart]
        · simp [own, inv.mentions last holds idx unknown]
  obtain ⟨abs', refines, threads, thread'⟩ := inv.hb.exchange atThr
    result.counted bound result.grown result.moved mentions
  have next : Inv ⟨s.hb.exchange tab acc.thr out.vid, out.svNew,
      if acc.isWrite then s.hb.tab.clock vid else s.written⟩ abs'
      (spec.msm value clock (undetected acc)).svNew := by
    refine ⟨refines, ?_, ?_⟩
    · dsimp only
      rw [UkaHb.exchange_tab]
      exact result.svNew
    · intro vts holds idx unknown
      rw [threads idx] at unknown
      rcases step.stored vts holds with rfl | old
      · exact inv.hb.grounded.thrs acc.thr vts atThr idx unknown
      · exact inv.mentions vts old idx unknown
  apply Returns.pure
  refine ⟨⟨abs', next⟩, ?_, ?_⟩
  · dsimp only
    rw [mine]
  · rw [next.clockOf]
    exact thread'

/-- The clock of the last write stays in a spin variable, and comes into it on
entry. -/
theorem Accessed.holdsLastWrite (inv : Inv s abs value)
    (atThr : abs.thrs acc.thr = some clock) {next : SpinLoc}
    (accessed : Accessed s abs value clock acc next)
    (holds : s.HoldsLastWrite) (enters : s.EntersWell acc) :
    next.HoldsLastWrite := by
  obtain ⟨abs', inv'⟩ := accessed.inv
  rw [inv'.holdsLastWrite_iff]
  rw [inv.holdsLastWrite_iff] at holds
  intro vts write result written
  rw [accessed.written] at written
  unfold spec at result
  dsimp only at result
  cases direction : acc.isWrite with
  | true =>
      have isWrite : (undetected acc).isWrite = true := direction
      rw [direction] at written
      rw [if_pos isWrite] at result
      cases written
      exact absWrite_eq_spinVar result
  | false =>
      have isRead : ¬ (undetected acc).isWrite = true := by
        simp [undetected, direction]
      rw [direction] at written
      rw [if_neg isRead] at result
      rcases absRead_eq_spinVar result with same | ⟨spinning, other, entry⟩
      · exact holds vts write same written
      · rw [← inv.denotes.isSpinVar] at other
        have known : s.clockOf acc.thr ≠ none := by
          rw [inv.clockOf, atThr]
          nofun
        have clock := enters direction spinning other known write written
        rw [inv.entryClock atThr, entry] at clock
        exact Option.some.inj clock

theorem Accessed.readerFollows (inv : Inv s abs value)
    (atThr : abs.thrs acc.thr = some clock) {next : SpinLoc}
    (done : s.access acc = .ok next)
    (accessed : Accessed s abs value clock acc next)
    (holds : s.HoldsLastWrite) (enters : s.EntersWell acc) :
    s.ReaderFollows acc := by
  intro isRead spinning write before written own
  rw [inv.clockOf, atThr] at own
  cases own
  have notWrite : ¬ (undetected acc).isWrite = true := by
    simp [undetected, isRead]
  have last : value.getVTS.getD clock = write := by
    cases kind : value.isSpinVar with
    | true =>
        rw [inv.holdsLastWrite_iff] at holds
        cases value with
        | SpinVar vts => exact holds vts write rfl written
        | _ => cases kind
    | false =>
        rw [← inv.denotes.isSpinVar] at kind
        have known : s.clockOf acc.thr ≠ none := by
          rw [inv.clockOf, atThr]
          nofun
        have entry := enters isRead spinning kind known write written
        rw [inv.entryClock atThr] at entry
        exact Option.some.inj entry
  have thread := accessed.thread
  unfold spec at thread
  dsimp only at thread
  rw [if_neg notWrite, (absRead_spinning spinning).2, last] at thread
  refine ⟨next, clock.join write, done, thread, VTS.le_join_right _ _, ?_⟩
  intro thr n upTo
  rw [VTS.indexAt_join] at upTo
  exact le_max_iff.mp upTo

theorem Inv.hbOp (inv : Inv s abs value) (op : HbOp) {next : SpinLoc}
    (done : s.perform (.hb op) = .ok next) :
    ∃ abs', Inv next abs' value ∧
      (s.HoldsLastWrite → next.HoldsLastWrite) := by
  obtain ⟨hb, performed, same⟩ := bind_eq_ok.mp done
  cases same
  obtain ⟨abs', expected, refines, grown⟩ :=
    (UkaHb.perform_agrees inv.hb op).eq_ok performed
  refine ⟨abs', ⟨refines, inv.denotes.mono grown, ?_⟩, ?_⟩
  · intro vts holds
    exact (inv.mentions vts holds).mono fun idx =>
      AbsUka.thrs_of_perform expected
  · intro holds ii clock isSpin written
    exact grown _ _ (holds ii clock isSpin written)

/-- An access by a thread that does not exist. -/
theorem Inv.access_unknown (inv : Inv s abs value)
    (unknown : abs.thrs acc.thr = none) :
    s.access acc = .error .dangling := by
  unfold SpinLoc.access UkaHb.getThr
  rw [inv.hb.thrs.of_none unknown]
  rfl

/-- One step, whether or not it enters well. -/
theorem Inv.perform (inv : Inv s abs value) {op : SpinOp} {next : SpinLoc}
    (done : s.perform op = .ok next) :
    (∃ abs' value', Inv next abs' value') ∧
      (s.HoldsLastWrite → (∀ acc, op = .access acc → s.EntersWell acc) →
        next.HoldsLastWrite) := by
  cases op with
  | hb op =>
      obtain ⟨abs', inv', holds'⟩ := inv.hbOp op done
      exact ⟨⟨abs', value, inv'⟩, fun holds _ => holds' holds⟩
  | access acc =>
      have done' : s.access acc = .ok next := done
      cases atThr : abs.thrs acc.thr with
      | none =>
          rw [inv.access_unknown atThr] at done'
          cases done'
      | some clock =>
          have accessed := (inv.access atThr).of_eq_ok done'
          obtain ⟨abs', inv'⟩ := accessed.inv
          exact ⟨⟨abs', _, inv'⟩, fun holds enters =>
            accessed.holdsLastWrite inv atThr holds (enters acc rfl)⟩

theorem run_take_succ {root n : Nat} {ops : List SpinOp} {op : SpinOp}
    (atN : ops[n]? = some op) :
    run root (ops.take (n + 1)) =
      run root (ops.take n) >>= (perform · op) := by
  unfold run
  simp only [foldlM_take_succ atN, bind_assoc]

theorem run_inv {root : Nat} {ops : List SpinOp} {n : Nat} {s : SpinLoc}
    (ran : run root (ops.take n) = .ok s) :
    (∃ abs value, Inv s abs value) ∧
      ((∀ n s acc, run root (ops.take n) = .ok s →
        ops[n]? = some (.access acc) → s.EntersWell acc) →
        s.HoldsLastWrite) := by
  obtain ⟨s₀, started, inv, holds⟩ := Inv.init root
  have runs : ∀ ops, run root ops = ops.foldlM perform s₀ := by
    intro ops
    unfold run
    rw [started, ok_bind]
  simp only [runs] at ran ⊢
  have kept : ∀ n before op after,
      (ops.take n).foldlM perform s₀ = .ok before → ops[n]? = some op →
      ((∃ abs value, Inv before abs value) ∧
        ((∀ n s acc, (ops.take n).foldlM perform s₀ = .ok s →
          ops[n]? = some (.access acc) → s.EntersWell acc) →
          before.HoldsLastWrite)) →
      before.perform op = .ok after →
      (∃ abs value, Inv after abs value) ∧
        ((∀ n s acc, (ops.take n).foldlM perform s₀ = .ok s →
          ops[n]? = some (.access acc) → s.EntersWell acc) →
          after.HoldsLastWrite) := by
    rintro n before op after reached atN ⟨⟨abs, value, inv⟩, held⟩ done
    obtain ⟨inv', keeps⟩ := inv.perform done
    refine ⟨inv', fun enters => keeps (held enters) fun acc same => ?_⟩
    exact enters n before acc reached (same ▸ atN)
  exact foldlM_take_invariant kept ⟨⟨_, _, inv⟩, fun _ => holds⟩ n ran

end Runs

/-- In every run, a spin variable that has been written holds the clock of the
last write, and who reads it in a spin loop follows that write, if and only if
each location that becomes a spin variable after it has been written holds the
clock of the last write then. -/
theorem spin_variable_follows_last_write_iff (root : Nat)
    (ops : List SpinOp) :
    (∀ n s, run root (ops.take n) = .ok s → s.HoldsLastWrite ∧
      ∀ acc, ops[n]? = some (.access acc) → s.ReaderFollows acc) ↔
    ∀ n s acc, run root (ops.take n) = .ok s →
      ops[n]? = some (.access acc) → s.EntersWell acc := by
  constructor
  · intro property n s acc ran atN isRead spinning other known write written
    obtain ⟨⟨abs, value, inv⟩, -⟩ := run_inv ran
    rw [inv.clockOf] at known
    obtain ⟨clock, atThr⟩ := Option.ne_none_iff_exists'.mp known
    obtain ⟨next, done, accessed⟩ := inv.access atThr
    have ran' : run root (ops.take (n + 1)) = .ok next := by
      rw [run_take_succ atN, ran, ok_bind]
      exact done
    obtain ⟨abs', inv'⟩ := accessed.inv
    have holds := (property (n + 1) next ran').1
    rw [inv'.holdsLastWrite_iff] at holds
    have notWrite : ¬ (undetected acc).isWrite = true := by
      simp [undetected, isRead]
    rw [inv.entryClock atThr]
    congr 1
    apply holds
    · unfold spec
      dsimp only
      rw [if_neg notWrite]
      exact (absRead_spinning spinning).1
    · rw [accessed.written, isRead]
      exact written
  · intro enters n s ran
    obtain ⟨⟨abs, value, inv⟩, held⟩ := run_inv ran
    refine ⟨held enters, fun acc atN => ?_⟩
    cases atThr : abs.thrs acc.thr with
    | none =>
        intro isRead spinning write before written own
        rw [inv.clockOf, atThr] at own
        cases own
    | some clock =>
        obtain ⟨next, done, accessed⟩ := inv.access atThr
        exact accessed.readerFollows inv atThr done (held enters)
          (enters n s acc ran atN)

/-- An access without locks. -/
def bareAccess (thr : Nat) (isWrite spinReading : Bool) : Access :=
  ⟨thr, isWrite, false, spinReading, false, ∅, ∅, Finset.Subset.refl ∅⟩

/-- Thread 2 writes the location, posts an object, and reads the location.
Then thread 1 waits for it in a spin loop: it is ordered after the read of
thread 2, in its second segment, and not only after the write in the first. -/
theorem spin_variable_holds_read_clock :
    ∃ before s, run 1 [.hb (.sync (.create 1 2)),
        .hb (.sync (.soAlloc 1 9)), .access (bareAccess 2 true false),
        .hb (.sync (.soSend 2 9 true)), .access (bareAccess 2 false false)] =
          .ok before ∧
      before.access (bareAccess 1 false true) = .ok s ∧
      ¬ s.HoldsLastWrite ∧
      ¬ before.ReaderFollows (bareAccess 1 false true) := by
  have view : (show Except Abort (SpinLoc × SpinLoc) from do
      let before ← run 1 [.hb (.sync (.create 1 2)),
        .hb (.sync (.soAlloc 1 9)), .access (bareAccess 2 true false),
        .hb (.sync (.soSend 2 9 true)), .access (bareAccess 2 false false)]
      let s ← before.access (bareAccess 1 false true)
      pure (before, s)).toOption.map (fun result =>
        ((result.2.sv, (result.2.hb.tab.clock 3).map (·.indexAt 2),
          result.2.written.map (·.indexAt 2)),
        (result.1.written.map (·.indexAt 2),
          (result.1.clockOf 1).map (·.indexAt 2),
          (result.2.clockOf 1).map (·.indexAt 2)))) =
      some ((.SpinVar 3, some 2, some 1), (some 1, some 0, some 2)) := by
    decide +kernel
  obtain ⟨⟨before, s⟩, done, seen⟩ := exists_ok_of_map view
  obtain ⟨before', ran, done⟩ := bind_eq_ok.mp done
  obtain ⟨s', accessed, done⟩ := bind_eq_ok.mp done
  cases done
  simp only [Prod.mk.injEq, Option.map_eq_some_iff] at seen
  obtain ⟨⟨isSpin, ⟨stored, known, two⟩, write, written, one⟩,
    ⟨write', written', one'⟩, ⟨own, clock, zero⟩, late, clock', two'⟩ := seen
  refine ⟨before, s, ran, accessed, ?_, ?_⟩
  · intro holds
    have same := holds 3 write isSpin written
    rw [known] at same
    cases same
    omega
  · intro follows
    obtain ⟨next, after, again, clock'', -, only⟩ :=
      follows rfl rfl write' own written' clock
    have known : (.ok next : Except Abort SpinLoc) = .ok s :=
      again.symm.trans accessed
    cases known
    have same : some after = some late := clock''.symm.trans clock'
    cases same
    have acquired := only 2 2 (by omega)
    omega

end SpinLoc

end HelgrindPlus.Ukas
