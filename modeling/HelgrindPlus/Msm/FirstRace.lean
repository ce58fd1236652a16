import HelgrindPlus.LibHB.HappensBefore
import HelgrindPlus.Msm.Default

/-!
# The first race on a location

Clock operations interleaved with accesses to one location, whose shadow
value starts as `SVal_NOACCESS`.  Since the last `libhb_range_new` and up to
the first report, `Rmin` is the least upper bound of the clocks of the writes
and `Wmin` that of all accesses, so that a report is made exactly when some
conflicting access is not ordered before the current one.
-/

namespace HelgrindPlus

open Outcome

inductive LocOp where
  | sync (op : SyncOp)
  | read (thr : Nat)
  | write (thr : Nat)
  | rangeNew (thr : Nat)
  deriving DecidableEq

namespace LocOp

def act : LocOp → Causality.Act Nat Nat
  | sync op => op.act
  | read thr | write thr | rangeNew thr => .step thr

def isAccess : LocOp → Bool
  | sync _ => false
  | read _ | write _ | rangeNew _ => true

/-- `libhb_range_new` counts as a write. -/
def isWrite : LocOp → Bool
  | write _ | rangeNew _ => true
  | sync _ | read _ => false

def isRangeNew : LocOp → Bool
  | rangeNew _ => true
  | sync _ | read _ | write _ => false

def isWeakRecv : LocOp → Bool
  | sync op => op.isWeakRecv
  | read _ | write _ | rangeNew _ => false

end LocOp

/-- The library's state and the shadow value of the location. -/
structure Loc where
  hb : Hb
  sv : SVal

namespace Loc

/-- One operation, and whether it reported a race. -/
def step (loc : Loc) : LocOp → Except Abort (Loc × Bool)
  | .sync op => do
      let hb ← loc.hb.step op
      pure ({ loc with hb := hb }, false)
  | .read thr => do
      let t ← loc.hb.getThr thr
      let (tab, sv, raced) ← msmRead loc.hb.tab loc.sv t
      pure (⟨{ loc.hb with tab := tab }, sv⟩, raced)
  | .write thr => do
      let t ← loc.hb.getThr thr
      let (tab, sv, raced) ← msmWrite loc.hb.tab loc.sv t
      pure (⟨{ loc.hb with tab := tab }, sv⟩, raced)
  | .rangeNew thr => do
      let t ← loc.hb.getThr thr
      let (tab, sv) ← rangeNewSVal loc.hb.tab t
      pure (⟨{ loc.hb with tab := tab }, sv⟩, false)

def stepReporting (acc : Loc × List Bool) (op : LocOp) :
    Except Abort (Loc × List Bool) := do
  let (loc, raced) ← acc.1.step op
  pure (loc, acc.2 ++ [raced])

/-- A run from `libhb_init`, with the verdict on each operation. -/
def run (root : Nat) (ops : List LocOp) :
    Except Abort (Loc × List Bool) := do
  let hb ← Hb.init root
  ops.foldlM stepReporting (⟨hb, .A⟩, [])

section Runs

variable {root k n j : Nat} {ops : List LocOp}

/-- The clock `bound` covers the selected operations from `k` to `n`. -/
def Covers (root : Nat) (ops : List LocOp) (k n : Nat)
    (select : LocOp → Bool) (bound : Causality.Clock Nat) : Prop :=
  ∀ i op, k ≤ i → i < n → ops[i]? = some op → select op = true →
    ∀ idx, Causality.stampAt root (ops.map LocOp.act) i idx ≤ bound idx

/-- The timestamp is the least clock that covers them. -/
def IsLeast (root : Nat) (ops : List LocOp) (k n : Nat)
    (select : LocOp → Bool) (vts : VTS) : Prop :=
  ∀ bound : Causality.Clock Nat, (∀ idx, vts.indexAt idx ≤ bound idx) ↔
    Covers root ops k n select bound

/-- `k` is the last `libhb_range_new` before `n`, and nothing has been
reported since. -/
structure Quiet (ops : List LocOp) (flags : List Bool) (k n : Nat) :
    Prop where
  before : k < n
  starts : ∃ thr, ops[k]? = some (.rangeNew thr)
  last : ∀ i op, k < i → i < n → ops[i]? = some op → op.isRangeNew = false
  silent : ∀ i, k < i → i < n → flags[i]? ≠ some true

theorem Covers.succ_iff {select : LocOp → Bool}
    {bound : Causality.Clock Nat} {op : LocOp} (atN : ops[n]? = some op)
    (inside : k ≤ n) :
    Covers root ops k (n + 1) select bound ↔
      Covers root ops k n select bound ∧ (select op = true →
        ∀ idx, Causality.stampAt root (ops.map LocOp.act) n idx ≤
          bound idx) := by
  constructor
  · intro covers
    refine ⟨?_, ?_⟩
    · intro i other above below
      exact covers i other above (Nat.lt_succ_of_lt below)
    · exact covers n op inside (Nat.lt_succ_self n) atN
  · rintro ⟨old, new⟩ i other above below atI
    rcases Nat.lt_succ_iff_lt_or_eq.mp below with earlier | rfl
    · exact old i other above earlier atI
    · rw [atN] at atI
      cases atI
      exact new

theorem IsLeast.skip {select : LocOp → Bool} {vts : VTS} {op : LocOp}
    (least : IsLeast root ops k n select vts) (atN : ops[n]? = some op)
    (inside : k ≤ n) (unselected : select op = false) :
    IsLeast root ops k (n + 1) select vts := by
  intro bound
  rw [least bound, Covers.succ_iff atN inside]
  simp [unselected]

/-- Joining in the clock of a selected operation. -/
theorem IsLeast.join {select : LocOp → Bool} {vts mine : VTS} {op : LocOp}
    (least : IsLeast root ops k n select vts) (atN : ops[n]? = some op)
    (inside : k ≤ n) (selected : select op = true)
    (stamp : mine.indexAt =
      Causality.stampAt root (ops.map LocOp.act) n) :
    IsLeast root ops k (n + 1) select (vts.join mine) := by
  intro bound
  rw [Covers.succ_iff atN inside, ← least bound, ← stamp]
  simp only [VTS.indexAt_join, max_le_iff, selected, true_implies]
  exact forall_and

/-- A selected operation whose clock covers the earlier ones. -/
theorem IsLeast.replace {select : LocOp → Bool} {mine : VTS} {op : LocOp}
    (covers : Covers root ops k n select mine.indexAt)
    (atN : ops[n]? = some op) (inside : k ≤ n) (selected : select op = true)
    (stamp : mine.indexAt =
      Causality.stampAt root (ops.map LocOp.act) n) :
    IsLeast root ops k (n + 1) select mine := by
  intro bound
  rw [Covers.succ_iff atN inside, ← stamp]
  simp only [selected, true_implies]
  constructor
  · intro below
    refine ⟨?_, below⟩
    intro i other above earlier atI chosen idx
    exact Nat.le_trans (covers i other above earlier atI chosen idx)
      (below idx)
  · exact fun both => both.2

/-- What a run has established after `n` of its operations. -/
structure Recorded (root : Nat) (ops : List LocOp) (n : Nat)
    (acc : Loc × List Bool) : Prop where
  state : ∃ abs, acc.1.hb.Refines 0 abs ∧
    abs.Tracks (Causality.clocksAt root (ops.map LocOp.act) n)
  length : acc.2.length = n
  allowed : ∀ i op, i < n → ops[i]? = some op →
    Causality.Allowed (Causality.clocksAt root (ops.map LocOp.act) i) op.act
  value : ∃ abs, acc.1.hb.tab.SVDenotes acc.1.sv abs
  bounds : ∀ k, Quiet ops acc.2 k n → ∃ rmin wmin,
    acc.1.hb.tab.SVDenotes acc.1.sv (.C rmin wmin) ∧
      IsLeast root ops k n LocOp.isWrite rmin ∧
      IsLeast root ops k n LocOp.isAccess wmin
  verdicts : ∀ k j y, j < n → Quiet ops acc.2 k j → ops[j]? = some y →
    y.isAccess = true → y.isRangeNew = false →
    (acc.2[j]? = some true ↔ ¬ Covers root ops k j
      (fun x => x.isAccess && (x.isWrite || y.isWrite))
      (Causality.stampAt root (ops.map LocOp.act) j))

theorem Quiet.append_iff {flags : List Bool} {raced : Bool}
    (inside : j ≤ flags.length) :
    Quiet ops (flags ++ [raced]) k j ↔ Quiet ops flags k j := by
  have same : ∀ i, i < j → (flags ++ [raced])[i]? = flags[i]? :=
    fun i below => List.getElem?_append_left (by omega)
  constructor
  · rintro ⟨before, starts, last, silent⟩
    refine ⟨before, starts, last, ?_⟩
    intro i above below
    rw [← same i below]
    exact silent i above below
  · rintro ⟨before, starts, last, silent⟩
    refine ⟨before, starts, last, ?_⟩
    intro i above below
    rw [same i below]
    exact silent i above below

/-- A quiet stretch that ends with the newest operation either starts with it
or was quiet before. -/
theorem Quiet.succ_cases {flags : List Bool} {raced : Bool} {op : LocOp}
    (quiet : Quiet ops (flags ++ [raced]) k (n + 1))
    (length : flags.length = n) (atN : ops[n]? = some op) :
    (k = n ∧ op.isRangeNew = true) ∨
      (Quiet ops flags k n ∧ op.isRangeNew = false ∧ raced = false) := by
  obtain ⟨before, starts, last, silent⟩ := quiet
  rcases Nat.lt_succ_iff_lt_or_eq.mp before with earlier | rfl
  · refine .inr ⟨?_, last n op earlier (Nat.lt_succ_self n) atN, ?_⟩
    · rw [← Quiet.append_iff (Nat.le_of_eq length.symm)]
      exact ⟨earlier, starts,
        fun i other above below => last i other above
          (Nat.lt_succ_of_lt below),
        fun i above below => silent i above (Nat.lt_succ_of_lt below)⟩
    · have atEnd : (flags ++ [raced])[n]? = some raced := by
        rw [← length]
        exact List.getElem?_concat_length
      have quietNow := silent n earlier (Nat.lt_succ_self n)
      rw [atEnd] at quietNow
      simpa using quietNow
  · obtain ⟨thr, isNew⟩ := starts
    rw [atN] at isNew
    cases isNew
    exact .inl ⟨rfl, rfl⟩

/-- Putting the record of a run together after one more operation. -/
theorem Recorded.extend {acc : Loc × List Bool} {op : LocOp} {abs : AbsHb}
    (recorded : Recorded root ops n acc) (loc : Loc) (raced : Bool)
    (atN : ops[n]? = some op) (refines : loc.hb.Refines 0 abs)
    (tracks : abs.Tracks
      (Causality.clocksAt root (ops.map LocOp.act) (n + 1)))
    (allowed : Causality.Allowed
      (Causality.clocksAt root (ops.map LocOp.act) n) op.act)
    (value : ∃ abs, loc.hb.tab.SVDenotes loc.sv abs)
    (fresh : op.isRangeNew = true → ∃ rmin wmin,
      loc.hb.tab.SVDenotes loc.sv (.C rmin wmin) ∧
        IsLeast root ops n (n + 1) LocOp.isWrite rmin ∧
        IsLeast root ops n (n + 1) LocOp.isAccess wmin)
    (kept : ∀ k, Quiet ops acc.2 k n → op.isRangeNew = false →
      raced = false → ∃ rmin wmin,
      loc.hb.tab.SVDenotes loc.sv (.C rmin wmin) ∧
        IsLeast root ops k (n + 1) LocOp.isWrite rmin ∧
        IsLeast root ops k (n + 1) LocOp.isAccess wmin)
    (verdict : ∀ k, Quiet ops acc.2 k n → op.isAccess = true →
      op.isRangeNew = false → (raced = true ↔ ¬ Covers root ops k n
        (fun x => x.isAccess && (x.isWrite || op.isWrite))
        (Causality.stampAt root (ops.map LocOp.act) n))) :
    Recorded root ops (n + 1) (loc, acc.2 ++ [raced]) := by
  have length := recorded.length
  refine ⟨⟨abs, refines, tracks⟩, by simp [length], ?_, value, ?_, ?_⟩
  · intro i other before atI
    rcases Nat.lt_succ_iff_lt_or_eq.mp before with earlier | rfl
    · exact recorded.allowed i other earlier atI
    · rw [atN] at atI
      cases atI
      exact allowed
  · intro k quiet
    rcases quiet.succ_cases length atN with ⟨rfl, isNew⟩ |
      ⟨old, notNew, quietNow⟩
    · exact fresh isNew
    · exact kept k old notNew quietNow
  · intro k j y before quiet atJ access notNew
    rcases Nat.lt_succ_iff_lt_or_eq.mp before with earlier | rfl
    · rw [Quiet.append_iff (by omega)] at quiet
      rw [List.getElem?_append_left (by omega)]
      exact recorded.verdicts k j y earlier quiet atJ access notNew
    · rw [atN] at atJ
      cases atJ
      rw [Quiet.append_iff (Nat.le_of_eq length.symm)] at quiet
      have atEnd : (acc.2 ++ [raced])[j]? = some raced := by
        rw [← length]
        exact List.getElem?_concat_length
      rw [atEnd, Option.some.injEq]
      exact verdict k quiet access notNew

theorem Recorded.sync {acc : Loc × List Bool} {op : SyncOp} {hb : Hb}
    (recorded : Recorded root ops n acc) (atN : ops[n]? = some (.sync op))
    (strong : op.isWeakRecv = false) (stepped : acc.1.hb.step op = .ok hb) :
    Recorded root ops (n + 1) (⟨hb, acc.1.sv⟩, acc.2 ++ [false]) := by
  obtain ⟨abs, refines, tracks⟩ := recorded.state
  obtain ⟨abs', allowed⟩ := refines.allowed_of_ok stepped
  obtain ⟨refines', grown⟩ :=
    (Hb.step_simulates refines allowed).of_eq_ok stepped
  have atActs : (ops.map LocOp.act)[n]? = some op.act := by
    simp [atN, LocOp.act]
  obtain ⟨value, denotes⟩ := recorded.value
  refine recorded.extend ⟨hb, acc.1.sv⟩ false atN refines' ?_
    (tracks.allowed allowed) ⟨value, denotes.mono grown⟩ ?_ ?_ ?_
  · rw [Causality.clocksAt_succ atActs]
    exact tracks.step strong allowed
  · intro isNew
    cases isNew
  · intro k quiet _ _
    obtain ⟨rmin, wmin, bounds, writes, accesses⟩ := recorded.bounds k quiet
    have inside := Nat.le_of_lt quiet.before
    exact ⟨rmin, wmin, bounds.mono grown, writes.skip atN inside rfl,
      accesses.skip atN inside rfl⟩
  · intro k _ access
    cases access

/-- What is known of the thread of an access: its two clocks agree and are
the stamp of the access. -/
theorem Recorded.actor {acc : Loc × List Bool} {op : LocOp} {thr : Nat}
    {t : Thr} (recorded : Recorded root ops n acc)
    (atN : ops[n]? = some op) (isStep : op.act = .step thr)
    (found : acc.1.hb.getThr thr = .ok t) :
    ∃ abs mine, acc.1.hb.Refines 0 abs ∧
      acc.1.hb.tab.Denotes t.viR t.viW ⟨mine, mine⟩ ∧
      mine.indexAt = Causality.stampAt root (ops.map LocOp.act) n ∧
      abs.Tracks (Causality.clocksAt root (ops.map LocOp.act) (n + 1)) ∧
      Causality.Allowed (Causality.clocksAt root (ops.map LocOp.act) n)
        op.act := by
  obtain ⟨abs, refines, tracks⟩ := recorded.state
  have atActs : (ops.map LocOp.act)[n]? = some (.step thr) := by
    simp [atN, isStep]
  cases atThr : abs.thrs thr with
  | none => simp [Hb.getThr, refines.thrs.of_none atThr] at found
  | some clocks =>
      obtain ⟨record, bound, denotes⟩ := refines.thrs.of_some atThr
      rw [Hb.getThr_of bound] at found
      cases found
      obtain ⟨same, value⟩ := tracks.thrs thr clocks atThr
      have equal : clocks = ⟨clocks.vR, clocks.vR⟩ := by
        rw [← same]
        cases clocks
        simp_all
      refine ⟨abs, clocks.vR, refines, ?_, ?_, ?_, ?_⟩
      · rw [← equal]
        exact denotes
      · rw [value, Causality.stampAt_of atActs]
        rfl
      · rw [Causality.clocksAt_succ atActs]
        exact tracks
      · rw [isStep]
        refine ⟨(tracks.alive thr).mpr (by simp [AbsHb.Exists, atThr]), ?_⟩
        intro parent child fork
        cases fork

theorem Recorded.rangeNew {acc : Loc × List Bool} {thr : Nat} {t : Thr}
    (recorded : Recorded root ops n acc)
    (atN : ops[n]? = some (.rangeNew thr))
    (found : acc.1.hb.getThr thr = .ok t) :
    Recorded root ops (n + 1)
      (⟨acc.1.hb, .C t.viW t.viW⟩, acc.2 ++ [false]) := by
  obtain ⟨abs, mine, refines, denotes, stamp, tracks, allowed⟩ :=
    recorded.actor atN rfl found
  have value : acc.1.hb.tab.SVDenotes (.C t.viW t.viW) (.C mine mine) :=
    .C denotes.write denotes.write
  have none : ∀ select, Covers root ops n n select mine.indexAt := by
    intro select i op above below
    omega
  refine recorded.extend ⟨acc.1.hb, _⟩ false atN refines tracks allowed
    ⟨_, value⟩ ?_ ?_ ?_
  · intro _
    exact ⟨mine, mine, value,
      IsLeast.replace (none _) atN (Nat.le_refl n) rfl stamp,
      IsLeast.replace (none _) atN (Nat.le_refl n) rfl stamp⟩
  · intro k _ notNew
    cases notNew
  · intro k _ _ notNew
    cases notNew

theorem covers_iff_le {select : LocOp → Bool} {vts mine : VTS}
    (least : IsLeast root ops k n select vts)
    (stamp : mine.indexAt = Causality.stampAt root (ops.map LocOp.act) n) :
    Covers root ops k n select
      (Causality.stampAt root (ops.map LocOp.act) n) ↔ vts ≤ mine := by
  rw [← least, ← stamp]
  exact VTS.le_iff.symm

theorem Recorded.read {acc : Loc × List Bool} {thr : Nat} {t : Thr}
    {tab : VtsTab} {sv : SVal} {raced : Bool}
    (recorded : Recorded root ops n acc) (atN : ops[n]? = some (.read thr))
    (found : acc.1.hb.getThr thr = .ok t)
    (done : msmRead acc.1.hb.tab acc.1.sv t = .ok (tab, sv, raced)) :
    Recorded root ops (n + 1)
      (⟨{ acc.1.hb with tab := tab }, sv⟩, acc.2 ++ [raced]) := by
  obtain ⟨abs, mine, refines, denotes, stamp, tracks, allowed⟩ :=
    recorded.actor atN rfl found
  obtain ⟨old, oldValue⟩ := recorded.value
  obtain ⟨⟨new, verdict⟩, _, result⟩ :=
    (VtsTab.msmRead_agrees refines.counted denotes oldValue).eq_ok done
  refine recorded.extend ⟨{ acc.1.hb with tab := tab }, sv⟩ raced atN
    (refines.withTab result.counted result.grown) tracks allowed
    ⟨new, result.value⟩ ?_ ?_ ?_
  · intro isNew
    cases isNew
  · intro k quiet _ silent
    obtain ⟨rmin, wmin, bounds, writes, accesses⟩ := recorded.bounds k quiet
    have inside := Nat.le_of_lt quiet.before
    obtain ⟨⟨new, verdict⟩, spec, result⟩ :=
      (VtsTab.msmRead_agrees refines.counted denotes bounds).eq_ok done
    obtain rfl : raced = verdict := result.report
    subst silent
    simp only [AbsSVal.read, AbsSVal.raced] at spec
    split at spec
    · cases spec
      exact ⟨rmin, wmin.join mine, result.value,
        writes.skip atN inside rfl, accesses.join atN inside rfl stamp⟩
    · split at spec <;> cases spec
  · intro k quiet _ _
    obtain ⟨rmin, wmin, bounds, writes, _⟩ := recorded.bounds k quiet
    obtain ⟨⟨new, verdict⟩, spec, result⟩ :=
      (VtsTab.msmRead_agrees refines.counted denotes bounds).eq_ok done
    obtain rfl : raced = verdict := result.report
    have conflicts : (fun x : LocOp =>
        x.isAccess && (x.isWrite || (LocOp.read thr).isWrite)) =
        LocOp.isWrite := by
      funext x
      cases x <;> rfl
    rw [conflicts, covers_iff_le writes stamp]
    simp only [AbsSVal.read, AbsSVal.raced] at spec
    split at spec
    · cases spec
      simp_all
    · split at spec <;> cases spec
      simp_all

theorem Recorded.write {acc : Loc × List Bool} {thr : Nat} {t : Thr}
    {tab : VtsTab} {sv : SVal} {raced : Bool}
    (recorded : Recorded root ops n acc) (atN : ops[n]? = some (.write thr))
    (found : acc.1.hb.getThr thr = .ok t)
    (done : msmWrite acc.1.hb.tab acc.1.sv t = .ok (tab, sv, raced)) :
    Recorded root ops (n + 1)
      (⟨{ acc.1.hb with tab := tab }, sv⟩, acc.2 ++ [raced]) := by
  obtain ⟨abs, mine, refines, denotes, stamp, tracks, allowed⟩ :=
    recorded.actor atN rfl found
  obtain ⟨old, oldValue⟩ := recorded.value
  obtain ⟨⟨new, verdict⟩, _, result⟩ :=
    (VtsTab.msmWrite_agrees refines.counted denotes oldValue).eq_ok done
  refine recorded.extend ⟨{ acc.1.hb with tab := tab }, sv⟩ raced atN
    (refines.withTab result.counted result.grown) tracks allowed
    ⟨new, result.value⟩ ?_ ?_ ?_
  · intro isNew
    cases isNew
  · intro k quiet _ silent
    obtain ⟨rmin, wmin, bounds, writes, accesses⟩ := recorded.bounds k quiet
    have inside := Nat.le_of_lt quiet.before
    obtain ⟨⟨new, verdict⟩, spec, result⟩ :=
      (VtsTab.msmWrite_agrees refines.counted denotes bounds).eq_ok done
    obtain rfl : raced = verdict := result.report
    subst silent
    simp only [AbsSVal.write, AbsSVal.raced] at spec
    split at spec
    · rename_i ordered
      cases spec
      have all : Covers root ops k n LocOp.isAccess mine.indexAt :=
        (accesses _).mp ordered
      have some : Covers root ops k n LocOp.isWrite mine.indexAt := by
        intro i op above below atI isWrite
        apply all i op above below atI
        cases op <;> simp_all [LocOp.isWrite, LocOp.isAccess]
      exact ⟨mine, mine, result.value,
        IsLeast.replace some atN inside rfl stamp,
        IsLeast.replace all atN inside rfl stamp⟩
    · split at spec <;> cases spec
  · intro k quiet _ _
    obtain ⟨rmin, wmin, bounds, _, accesses⟩ := recorded.bounds k quiet
    obtain ⟨⟨new, verdict⟩, spec, result⟩ :=
      (VtsTab.msmWrite_agrees refines.counted denotes bounds).eq_ok done
    obtain rfl : raced = verdict := result.report
    have conflicts : (fun x : LocOp =>
        x.isAccess && (x.isWrite || (LocOp.write thr).isWrite)) =
        LocOp.isAccess := by
      funext x
      cases x <;> rfl
    rw [conflicts, covers_iff_le accesses stamp]
    simp only [AbsSVal.write, AbsSVal.raced] at spec
    split at spec
    · cases spec
      simp_all
    · split at spec <;> cases spec
      simp_all

theorem Recorded.step {acc next : Loc × List Bool} {op : LocOp}
    (atN : ops[n]? = some op) (strong : op.isWeakRecv = false)
    (recorded : Recorded root ops n acc)
    (returned : stepReporting acc op = .ok next) :
    Recorded root ops (n + 1) next := by
  obtain ⟨⟨loc, raced⟩, stepped, finish⟩ := bind_eq_ok.mp returned
  cases finish
  cases op with
  | sync op =>
      obtain ⟨hb, done, finish⟩ := bind_eq_ok.mp stepped
      cases finish
      exact recorded.sync atN strong done
  | read thr =>
      obtain ⟨t, found, rest⟩ := bind_eq_ok.mp stepped
      obtain ⟨⟨tab, sv, verdict⟩, done, finish⟩ := bind_eq_ok.mp rest
      cases finish
      exact recorded.read atN found done
  | write thr =>
      obtain ⟨t, found, rest⟩ := bind_eq_ok.mp stepped
      obtain ⟨⟨tab, sv, verdict⟩, done, finish⟩ := bind_eq_ok.mp rest
      cases finish
      exact recorded.write atN found done
  | rangeNew thr =>
      obtain ⟨t, found, rest⟩ := bind_eq_ok.mp stepped
      rw [VtsTab.rangeNewSVal_eq] at rest
      cases rest
      exact recorded.rangeNew atN found

private theorem run_recorded {final : Loc × List Bool}
    (strong : ∀ op ∈ ops, op.isWeakRecv = false)
    (finished : run root ops = .ok final) :
    Recorded root ops ops.length final := by
  obtain ⟨hb, started, rest⟩ := bind_eq_ok.mp finished
  have refines := (Hb.Refines.init root).of_eq_ok started
  refine @foldlM_eq_ok_invariant _ _ _ _ (Recorded root ops) _ _ _ ?_ ?_ rest
  · intro n state next op atN recorded returned
    exact recorded.step atN (strong op (List.mem_of_getElem? atN)) returned
  · refine ⟨⟨_, refines, AbsHb.Tracks.init root⟩, rfl, ?_, ⟨.A, .A⟩, ?_, ?_⟩
    · intro i op before
      omega
    · intro k quiet
      have before := quiet.before
      omega
    · intro k j y before
      omega

/-- The default machine reports the first race on a location exactly. -/
theorem race_reported_iff {loc : Loc} {flags : List Bool} {y : LocOp}
    (strong : ∀ op ∈ ops, op.isWeakRecv = false)
    (finished : run root ops = .ok (loc, flags))
    (quiet : Quiet ops flags k j) (atJ : ops[j]? = some y)
    (access : y.isAccess = true) (notNew : y.isRangeNew = false) :
    flags[j]? = some true ↔ ∃ i x, k ≤ i ∧ i < j ∧ ops[i]? = some x ∧
      x.isAccess = true ∧ (x.isWrite = true ∨ y.isWrite = true) ∧
      ¬ Causality.HappensBefore (ops.map LocOp.act) i j := by
  have recorded := run_recorded strong finished
  have legal : Causality.Legal root (ops.map LocOp.act) := by
    intro n act atN
    obtain ⟨op, atOp, rfl⟩ : ∃ op, ops[n]? = some op ∧ op.act = act := by
      simpa using atN
    exact recorded.allowed n op (List.getElem?_eq_some_iff.mp atOp).1 atOp
  have inside := (List.getElem?_eq_some_iff.mp atJ).1
  have actJ : (ops.map LocOp.act)[j]? = some y.act := by simp [atJ]
  rw [recorded.verdicts k j y inside quiet atJ access notNew]
  unfold Covers
  push Not
  constructor
  · rintro ⟨i, x, above, below, atI, conflict, idx, exceeds⟩
    have actI : (ops.map LocOp.act)[i]? = some x.act := by simp [atI]
    rw [Bool.and_eq_true, Bool.or_eq_true] at conflict
    refine ⟨i, x, above, below, atI, conflict.1, conflict.2, ?_⟩
    intro ordered
    have known := (legal.stampAt_le_iff_of_lt below actI actJ).mpr ordered idx
    omega
  · rintro ⟨i, x, above, below, atI, isAccess, conflict, unordered⟩
    have actI : (ops.map LocOp.act)[i]? = some x.act := by simp [atI]
    rw [← legal.stampAt_le_iff_of_lt below actI actJ] at unordered
    push Not at unordered
    obtain ⟨idx, exceeds⟩ := unordered
    refine ⟨i, x, above, below, atI, ?_, idx, exceeds⟩
    rw [Bool.and_eq_true, Bool.or_eq_true]
    exact ⟨isAccess, conflict⟩

/-- Thread 1 makes the location new and thread 2, created before, reads it
without synchronisation. -/
theorem race_reported_iff_unsynchronised :
    ∃ loc flags, run 1 [.sync (.create 1 2), .rangeNew 1, .read 2] =
        .ok (loc, flags) ∧ flags[2]? = some true ∧
      ∃ i x, 1 ≤ i ∧ i < 2 ∧
        [LocOp.sync (.create 1 2), .rangeNew 1, .read 2][i]? = some x ∧
        x.isAccess = true ∧
        (x.isWrite = true ∨ (LocOp.read 2).isWrite = true) ∧
        ¬ Causality.HappensBefore (List.map LocOp.act
          [.sync (.create 1 2), .rangeNew 1, .read 2]) i 2 := by
  have ran : (run 1 [.sync (.create 1 2), .rangeNew 1,
      .read 2]).toOption.map Prod.snd = some [false, false, true] := by
    decide
  obtain ⟨⟨loc, flags⟩, finished, rfl⟩ := exists_ok_of_map ran
  refine ⟨loc, _, finished, rfl, ?_⟩
  have quiet : Quiet [LocOp.sync (.create 1 2), .rangeNew 1, .read 2]
      [false, false, true] 1 2 :=
    ⟨by decide, ⟨1, rfl⟩, by omega, by omega⟩
  exact (race_reported_iff (by decide) finished quiet rfl rfl rfl).mp rfl

end Runs

end Loc
end HelgrindPlus
