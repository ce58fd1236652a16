import HelgrindPlus.LibHB.UkaSync
import HelgrindPlus.Main.SpinAgreement
import HelgrindPlus.Msm.Machine
import HelgrindPlus.Msm.Ukas
import HelgrindPlus.Zsm.AccessRules

/-!
# The detector of spin locks on shadow memory

The build with `libhb_ukas_core.h` and `--detect-mutex`.  When a loop is left,
`HG_(onExitSpinLoop)` may write shadow memory, whose machine calls
`HG_(onSpinWrite)` for each spin variable that it finds.

Whether the detector prints what it does makes a difference in one place: a
variable that is found not to be a lock is invalidated, and written again,
inside the block that prints.
-/

namespace HelgrindPlus.Ukas

open Outcome

instance : ShadowVal (SVal Nat) where
  invalid := .Invalid
  noAccess := .NoAccess
  noAccess_ne_invalid := by decide

/-- Shadow memory, the clocks, and the calls of `record_race_info`. -/
structure Memory where
  zsm : Zsm (SVal Nat)
  hb : UkaHb
  races : List Race

/-- What the functions `zsm_apply*` work on besides shadow memory. -/
structure SpinCore where
  hb : UkaHb
  races : List Race
  detector : Detector

namespace SpinCore

def withTab (core : SpinCore) (tab : VtsTab) : SpinCore :=
  { core with hb := { core.hb with tab := tab } }

/-- The functions `SVal__rcinc` and `SVal__rcdec`. -/
def rcSVal (core : SpinCore) (event : RcEvent (SVal Nat)) :
    Except Abort SpinCore :=
  match event with
  | .inc sv =>
      match sv.getVTS with
      | none => .ok core
      | some vtsid => do
          let tab ← core.hb.tab.rcinc vtsid
          pure (core.withTab tab)
  | .dec sv =>
      match sv.getVTS with
      | none => .ok core
      | some vtsid => do
          let tab ← core.hb.tab.rcdec vtsid
          pure (core.withTab tab)

/-- The call of `HG_(onSpinWrite)` for a spin variable. -/
def askDetector (core : SpinCore) (run : Running) (svOld : SVal Nat)
    (a : Nat) : Except Abort (Detector × Bool) :=
  if svOld.isSpinVar then core.detector.plainSpinWrite run a
  else .ok (core.detector, false)

end SpinCore

/-- A write that is not atomic.  It looks only at the locks that the thread
holds in write mode. -/
def plainWrite (run : Running) (thread : Thread) (wasALock : Bool) :
    Access where
  thr := run.tid
  isWrite := true
  atomic := false
  spinReading := run.spinReading
  wasALock := wasALock
  locksetA := thread.locksetA ∪ thread.locksetW
  locksetW := thread.locksetW
  writeHeld := Finset.subset_union_right

/-- The function `msm_write`, with its effects.  The thread of libhb has the
number of the thread that runs. -/
def msmSpinWrite (run : Running) (s : Zsm (SVal Nat) × SpinCore)
    (svOld : SVal Nat) (a szB : Nat) :
    Except Abort ((Zsm (SVal Nat) × SpinCore) × SVal Nat) := do
  let tvid ← s.2.hb.getThr run.tid
  let (d, wasALock) ← s.2.askDetector run svOld a
  let thread ← d.locks.getThread run.tid
  let (tab, out) ← msmWrite s.2.hb.tab svOld tvid
    (plainWrite run thread wasALock)
  let races :=
    if out.raced then s.2.races ++ [⟨run.tid, a, szB, true⟩] else s.2.races
  pure ((s.1, ⟨s.2.hb.exchange tab run.tid out.vid, races, d⟩), out.svNew)

/-- The call `zsm_apply32___msm_write(thr->hbthr, False, adr)`. -/
def rewrite : Rewrite Memory := fun run (d, memory) adr => do
  let (zsm, core) ← apply32 SpinCore.rcSVal (msmSpinWrite run)
    (memory.zsm, ⟨memory.hb, memory.races, d⟩) adr
  pure (core.detector, ⟨zsm, core.hb, core.races⟩)

/-- The detector after some callbacks. -/
def CalledBack (run : Running) (d d' : Detector) : Prop :=
  ∃ accAddrs : List Nat, accAddrs.foldlM (Detector.callBack run) d = .ok d'

theorem CalledBack.refl (run : Running) (d : Detector) :
    CalledBack run d d :=
  ⟨[], rfl⟩

theorem CalledBack.trans {run : Running} {d₁ d₂ d₃ : Detector}
    (first : CalledBack run d₁ d₂) (second : CalledBack run d₂ d₃) :
    CalledBack run d₁ d₃ := by
  obtain ⟨accAddrs₁, called₁⟩ := first
  obtain ⟨accAddrs₂, called₂⟩ := second
  refine ⟨accAddrs₁ ++ accAddrs₂, ?_⟩
  rw [List.foldlM_append, called₁, ok_bind]
  exact called₂

/-- Counting changes nothing but the table. -/
theorem SpinCore.rcSVal_tab (core : SpinCore) (event : RcEvent (SVal Nat)) :
    Satisfies (fun _ => True) (core.rcSVal event) fun after =>
      ∃ tab, after = core.withTab tab := by
  cases event with
  | inc sv | dec sv =>
      unfold rcSVal
      dsimp only
      cases sv.getVTS with
      | none => exact ⟨core.hb.tab, rfl⟩
      | some vtsid =>
          apply (Satisfies.any _).bind
          exact fun tab _ => ⟨tab, rfl⟩

theorem rcSVal_detector (core : SpinCore) (event : RcEvent (SVal Nat)) :
    Satisfies (fun _ => True) (core.rcSVal event) fun after =>
      after.detector = core.detector := by
  apply (core.rcSVal_tab event).mono
  intro after counted
  obtain ⟨tab, rfl⟩ := counted
  rfl

private theorem askDetector_calledBack (core : SpinCore) (run : Running)
    (svOld : SVal Nat) (a : Nat) :
    Satisfies (fun _ => True) (core.askDetector run svOld a) fun result =>
      CalledBack run core.detector result.1 := by
  unfold SpinCore.askDetector
  split
  · cases asked : core.detector.plainSpinWrite run a with
    | error abort => trivial
    | ok result =>
        refine ⟨[a], ?_⟩
        have called : core.detector.callBack run a = .ok result.1 := by
          unfold Detector.callBack
          rw [asked]
          rfl
        rw [List.foldlM_cons, called]
        rfl
  · exact CalledBack.refl run core.detector

private theorem msmSpinWrite_calledBack (run : Running)
    (s : Zsm (SVal Nat) × SpinCore) (svOld : SVal Nat) (a szB : Nat) :
    Satisfies (fun _ => True) (msmSpinWrite run s svOld a szB) fun result =>
      CalledBack run s.2.detector result.1.2.detector := by
  apply (Satisfies.any _).bind
  intro tvid _
  apply (askDetector_calledBack s.2 run svOld a).bind
  rintro ⟨d, wasALock⟩ called
  apply (Satisfies.any _).bind
  intro thread _
  apply (Satisfies.any _).bind
  rintro ⟨tab, out⟩ -
  exact called

/-- A write of shadow memory acts on the detector by callbacks only. -/
theorem rewrite_calledBack (run : Running) (d : Detector) (memory : Memory)
    (adr : Nat) :
    Satisfies (fun _ => True) (rewrite run (d, memory) adr) fun after =>
      CalledBack run d after.1 := by
  have relates : Relates SpinCore.rcSVal (msmSpinWrite run)
      (fun before after => CalledBack run before.detector after.detector) := {
    refl := fun core => .refl run core.detector
    trans := fun _ _ _ first second => first.trans second
    counts := fun core event => (rcSVal_detector core event).mono (by
      intro after same
      rw [same]
      exact .refl run core.detector)
    calls := msmSpinWrite_calledBack run }
  apply ((relates.keeps ⟨memory.hb, memory.races, d⟩).apply32 adr
    (relates.refl _)).bind
  rintro ⟨zsm, core⟩ called
  exact called

end HelgrindPlus.Ukas

namespace HelgrindPlus

open Outcome

/-- When the loop is left, the variable at `adr` is one of those that it has
written and is known not to be a lock. -/
def Detector.NotALockAt (d : Detector) (ivu : IntervalUnion) (adr : Nat) :
    Prop :=
  ∃ lk sp, d.spinLock adr = some lk ∧ lk.lastSpinWriter ≠ 0 ∧
    lk.sp = some sp ∧ sp.codeBlock.ptr = ivu.ptr ∧ lk.notALock = true

namespace SpinState

section Flags

variable {μ : Type} {rewrite : Rewrite μ} {flags flags' : Flags}
  {s s' : SpinState μ} {run : Running} {ivu : IntervalUnion} {walk : Walk}
  {adr : Nat}

/-- The states differ at most in `map_locks_instructions`. -/
structure Same (s' s : SpinState μ) : Prop where
  detector : s'.detector = s.detector
  memory : s'.memory = s.memory

/-- No round of the loop meets a variable that is known not to be a lock in
the state before the round. -/
def Settled (flags : Flags) (rewrite : Rewrite μ) (run : Running)
    (ivu : IntervalUnion) (walk : Walk) : SpinState μ → List Nat → Prop
  | _, [] => True
  | s, adr :: rest => ¬ s.detector.NotALockAt ivu adr ∧
      ∀ next, exitRound flags rewrite run ivu walk s adr = .ok next →
        Settled flags rewrite run ivu walk next rest

theorem Same.invalidate (same : Same s' s) (map : SpinLocks)
    (lk : SpinLock) :
    Agrees (invalidate rewrite run s' map adr lk)
      (invalidate rewrite run s map adr lk) Same := by
  unfold SpinState.invalidate
  rw [same.detector, same.memory]
  apply (Agrees.refl _).bind
  rintro result _ rfl
  exact Returns.pure ⟨rfl, rfl⟩

theorem Same.acquireBoth (same : Same s' s) (map : SpinLocks)
    (lk : SpinLock) :
    Agrees (acquireBoth flags' run walk s' map adr lk)
      (acquireBoth flags run walk s map adr lk) Same := by
  unfold SpinState.acquireBoth
  rw [same.detector]
  apply (Agrees.refl _).bind
  rintro result _ rfl
  apply (Agrees.refl _).bind
  rintro sLk _ rfl
  exact Returns.pure ⟨rfl, same.memory⟩

theorem Same.exitWriter (same : Same s' s) (map : SpinLocks)
    (lk : SpinLock) :
    Agrees (exitWriter flags' rewrite run walk s' map adr lk)
      (exitWriter flags rewrite run walk s map adr lk) Same := by
  unfold SpinState.exitWriter
  rw [same.detector]
  apply (Agrees.refl _).bind
  rintro thread _ rfl
  split
  · exact same.acquireBoth map lk
  · apply (Agrees.refl _).bind
    rintro - - -
    apply (Agrees.refl _).bind
    rintro - - -
    split
    · exact same.invalidate map lk
    · exact Returns.pure ⟨rfl, same.memory⟩

/-- The flags matter only for a variable that is known not to be a lock. -/
theorem Same.exitRound (same : Same s' s)
    (settled : ¬ s.detector.NotALockAt ivu adr) :
    Agrees (exitRound flags' rewrite run ivu walk s' adr)
      (exitRound flags rewrite run ivu walk s adr) Same := by
  unfold SpinState.exitRound
  rw [same.detector]
  split
  · exact Returns.ok same
  rename_i map isMap
  split
  · exact Returns.ok same
  rename_i lk found
  split
  · exact Returns.ok same
  rename_i written
  split
  · rfl
  rename_i sp isSp
  split
  · exact Returns.ok same
  rename_i isLoop
  split
  · rename_i invalid
    refine absurd ⟨lk, sp, ?_, written, isSp, not_not.mp isLoop, invalid⟩
      settled
    rw [Detector.spinLock, isMap]
    exact found
  split
  · exact same.exitWriter map lk
  · exact Returns.ok same

theorem Same.exitRounds (same : Same s' s) {visits : List Nat}
    (settled : Settled flags rewrite run ivu walk s visits) :
    Agrees (visits.foldlM (SpinState.exitRound flags' rewrite run ivu walk) s')
      (visits.foldlM (SpinState.exitRound flags rewrite run ivu walk) s)
      Same := by
  induction visits generalizing s s' with
  | nil => exact Returns.pure same
  | cons adr rest induction =>
      rw [List.foldlM_cons, List.foldlM_cons]
      apply (same.exitRound settled.1).bind_known
      intro next' next stepped same
      exact induction same (settled.2 next stepped)

theorem Same.onExitSpinLoop (same : Same s' s) {destination : Nat}
    (settled : Settled flags rewrite run ivu walk s walk.visits) :
    Agrees (onExitSpinLoop flags' rewrite run destination ivu walk s')
      (onExitSpinLoop flags rewrite run destination ivu walk s) Same := by
  unfold SpinState.onExitSpinLoop
  rw [same.detector]
  split
  · exact Returns.ok same
  · apply (Agrees.refl _).bind
    rintro - - -
    exact same.exitRounds settled

end Flags

/-- No loop that the event leaves has written a variable that is known, when
the loop comes to it, not to be a lock. -/
def Settles {μ : Type} (flags : Flags) (rewrite : Rewrite μ)
    (s : SpinState μ) : SpinEvent → Prop
  | .onExitSpinLoop run _ ivu walk =>
      Settled flags rewrite run ivu walk s walk.visits
  | .onSpinWrite run atomic accAddr walk =>
      ∀ d isALock destination ivu,
        s.detector.spinWrite run atomic accAddr =
          .ok (d, isALock, some (destination, ivu)) →
        Settled flags rewrite run ivu walk { s with detector := d }
          walk.visits
  | _ => True

section Runs

variable {μ : Type} {rewrite : Rewrite μ} {flags flags' : Flags}
  {s s' : SpinState μ}

theorem Same.onSpinWrite (same : Same s' s) {run : Running} {atomic : Bool}
    {accAddr : Nat} {walk : Walk}
    (settles : Settles flags rewrite s (.onSpinWrite run atomic accAddr walk)) :
    Agrees (onSpinWrite flags' rewrite run atomic accAddr walk s')
      (onSpinWrite flags rewrite run atomic accAddr walk s)
      fun result' result => Same result'.1 result.1 ∧
        result'.2 = result.2 := by
  unfold SpinState.onSpinWrite
  rw [same.detector]
  apply (Agrees.refl _).bind_known
  rintro ⟨d, isALock, exit⟩ _ wrote rfl
  dsimp only
  cases exit with
  | none => exact Returns.pure ⟨⟨rfl, same.memory⟩, rfl⟩
  | some target =>
      have same₁ : Same { s' with detector := d } { s with detector := d } :=
        ⟨rfl, same.memory⟩
      apply (same₁.onExitSpinLoop
        (settles d isALock target.1 target.2 wrote)).bind
      intro after' after same₂
      exact Returns.pure ⟨same₂, rfl⟩

theorem Same.perform (same : Same s' s) {event : SpinEvent}
    (settles : Settles flags rewrite s event) :
    Agrees (perform flags' rewrite s' event) (perform flags rewrite s event)
      Same := by
  cases event with
  | onSpinRead run accAddr =>
      unfold SpinState.perform
      rw [same.detector]
      apply (Agrees.refl _).bind
      rintro result _ rfl
      exact Returns.pure ⟨rfl, same.memory⟩
  | onSpinWrite run atomic accAddr walk =>
      apply (same.onSpinWrite settles).bind
      intro result' result related
      exact Returns.pure related.1
  | onExitSpinLoop run destination ivu walk =>
      exact same.onExitSpinLoop settles
  | exitThread quitTid =>
      unfold SpinState.perform
      rw [same.detector]
      apply (Agrees.refl _).bind
      rintro d _ rfl
      exact Returns.pure ⟨rfl, same.memory⟩

/-- A run in which no loop finds a variable that it has written not to be a
lock is the same with any flags: the records, the locks and locksets, shadow
memory, the clocks and the reports after each call. -/
theorem logging_changes_nothing (flags flags' : Flags)
    (s : SpinState Ukas.Memory) {events : List SpinEvent}
    (settles : ∀ n before event,
      SpinState.run flags Ukas.rewrite s (events.take n) = .ok before →
      events[n]? = some event → Settles flags Ukas.rewrite before event)
    (n : Nat) :
    Agrees (SpinState.run flags' Ukas.rewrite s (events.take n))
      (SpinState.run flags Ukas.rewrite s (events.take n)) Same := by
  refine take_induction ?_ (fun n event atN induction => ?_) n
  · exact Returns.pure ⟨rfl, rfl⟩
  · unfold SpinState.run at induction ⊢
    rw [foldlM_take_succ atN, foldlM_take_succ atN]
    apply induction.bind_known
    intro before' before ran same
    exact same.perform (settles n before event ran atN)

/-- Only an atomic write in a loop without code leaves it at once. -/
theorem empty_of_spinWrite {d d' : Detector} {run : Running} {atomic : Bool}
    {accAddr : Nat} {isALock : Bool} {exit : Nat × IntervalUnion}
    (done : d.spinWrite run atomic accAddr = .ok (d', isALock, some exit)) :
    ∃ sp, run.lastSpinProperty = some sp ∧ sp.codeBlock.cntParts = 0 := by
  obtain ⟨thread, -, done⟩ := bind_eq_ok.mp done
  split at done
  · obtain ⟨result, -, done⟩ := bind_eq_ok.mp done
    cases done
  · unfold Detector.acquireWrite at done
    split at done
    · cases done
    rename_i sp isSp
    refine ⟨sp, isSp, ?_⟩
    split at done
    swap
    · cases done
    split at done
    · cases done
    obtain ⟨old, -, done⟩ := bind_eq_ok.mp done
    dsimp only at done
    split at done
    · rename_i empty
      exact empty.2
    · cases done

end Runs

section Scripts

variable {flags : Flags} {s after : SpinState Ukas.Memory} {run : Running}
  {walk : Walk}

/-- The same state with the callbacks to come in the place of memory. -/
def withScript (s : SpinState Ukas.Memory) (script : List (List Nat)) :
    SpinState (List (List Nat)) :=
  ⟨s.detector, script, s.instructions⟩

/-- What a computation does on shadow memory it also does with a script, and
leaves the rest of the script. -/
def Scripted (concrete : SpinState Ukas.Memory →
      Except Abort (SpinState Ukas.Memory))
    (scripted : SpinState (List (List Nat)) →
      Except Abort (SpinState (List (List Nat)))) : Prop :=
  ∀ s after, concrete s = .ok after → ∃ script, ∀ rest,
    scripted (s.withScript (script ++ rest)) = .ok (after.withScript rest)

theorem invalidate_scripted (map : SpinLocks) (adr : Nat) (lk : SpinLock) :
    Scripted (fun s => invalidate Ukas.rewrite run s map adr lk)
      (fun s => invalidate scripted run s map adr lk) := by
  intro s after done
  obtain ⟨⟨d, memory⟩, wrote, same⟩ := bind_eq_ok.mp done
  cases same
  obtain ⟨accAddrs, called⟩ :=
    (Ukas.rewrite_calledBack run _ _ adr).of_eq_ok wrote
  refine ⟨[accAddrs], fun rest => ?_⟩
  unfold SpinState.invalidate
  simp only [withScript, HelgrindPlus.scripted, List.singleton_append]
  rw [called]
  rfl

theorem acquireBoth_scripted (map : SpinLocks) (adr : Nat) (lk : SpinLock) :
    Scripted (fun s => acquireBoth flags run walk s map adr lk)
      (fun s => acquireBoth flags run walk s map adr lk) := by
  intro s after done
  obtain ⟨⟨st, errors⟩, acquired, done⟩ := bind_eq_ok.mp done
  obtain ⟨sLk, taken, same⟩ := bind_eq_ok.mp done
  cases same
  refine ⟨[], fun rest => ?_⟩
  exact bind_eq_ok.mpr ⟨(st, errors), acquired,
    bind_eq_ok.mpr ⟨sLk, taken, rfl⟩⟩

theorem exitWriter_scripted (map : SpinLocks) (adr : Nat) (lk : SpinLock) :
    Scripted (fun s => exitWriter flags Ukas.rewrite run walk s map adr lk)
      (fun s => exitWriter flags scripted run walk s map adr lk) := by
  intro s after done
  obtain ⟨thread, isThread, done⟩ := bind_eq_ok.mp done
  have begins : ∀ script, exitWriter flags scripted run walk
      (s.withScript script) map adr lk = _ := fun script =>
    congrArg (· >>= _) isThread
  simp only [begins]
  cases held : lk.sLk.heldBy with
  | none =>
      rw [held] at done
      exact acquireBoth_scripted map adr lk s after done
  | some bag =>
      rw [held] at done
      obtain ⟨_, isW, done⟩ := bind_eq_ok.mp done
      obtain ⟨_, alone, done⟩ := bind_eq_ok.mp done
      simp only [ok_bind, isW, alone]
      split at done
      · rename_i other
        simp only [if_pos other]
        exact invalidate_scripted map adr lk s after done
      · rename_i own
        cases done
        refine ⟨[], fun rest => ?_⟩
        rw [if_neg own]
        rfl

private theorem exitRound_scripted (ivu : IntervalUnion) (adr : Nat) :
    Scripted (fun s => exitRound flags Ukas.rewrite run ivu walk s adr)
      (fun s => exitRound flags scripted run ivu walk s adr) := by
  intro s after done
  have sameMap : ∀ script,
      (s.withScript script).detector.mapSpinLocks =
        s.detector.mapSpinLocks := fun _ => rfl
  have still : after = s → ∃ script : List (List Nat), ∀ rest,
      (.ok (s.withScript (script ++ rest)) :
        Except Abort (SpinState (List (List Nat)))) =
          .ok (after.withScript rest) := by
    rintro rfl
    exact ⟨[], fun _ => rfl⟩
  unfold SpinState.exitRound at done ⊢
  dsimp only at done ⊢
  simp only [sameMap]
  split at done
  · cases done
    exact still rfl
  rename_i map isMap
  split at done
  · cases done
    exact still rfl
  rename_i lk found
  split at done
  · rename_i unwritten
    cases done
    simpa only [if_pos unwritten] using still rfl
  rename_i written
  simp only [if_neg written]
  split at done
  · cases done
  rename_i sp isSp
  split at done
  · rename_i isOther
    cases done
    simpa only [if_pos isOther] using still rfl
  rename_i isLoop
  simp only [if_neg isLoop]
  split at done
  · rename_i invalid
    simp only [if_pos invalid]
    split at done
    · rename_i logs
      simp only [if_pos logs]
      exact invalidate_scripted map adr lk s after done
    · rename_i silent
      cases done
      simpa only [if_neg silent] using still rfl
  rename_i valid
  simp only [if_neg valid]
  split at done
  · rename_i own
    simp only [if_pos own]
    exact exitWriter_scripted map adr lk s after done
  · rename_i other
    cases done
    simpa only [if_neg other] using still rfl

/-- Computations one after the other. -/
theorem Scripted.foldlM {ι : Type}
    {concrete : SpinState Ukas.Memory → ι →
      Except Abort (SpinState Ukas.Memory)}
    {byScript : SpinState (List (List Nat)) → ι →
      Except Abort (SpinState (List (List Nat)))}
    (steps : ∀ item, Scripted (concrete · item) (byScript · item))
    (items : List ι) :
    Scripted (items.foldlM concrete) (items.foldlM byScript) := by
  induction items with
  | nil =>
      rintro s _ ⟨⟩
      exact ⟨[], fun _ => rfl⟩
  | cons item items induction =>
      intro s after done
      dsimp only at done ⊢
      rw [List.foldlM_cons] at done
      obtain ⟨middle, first, done⟩ := bind_eq_ok.mp done
      obtain ⟨script₁, stepped⟩ := steps item s middle first
      obtain ⟨script₂, finished⟩ := induction middle after done
      refine ⟨script₁ ++ script₂, fun rest => ?_⟩
      rw [List.foldlM_cons, List.append_assoc]
      exact bind_eq_ok.mpr ⟨_, stepped (script₂ ++ rest), finished rest⟩

theorem onExitSpinLoop_scripted (destination : Nat) (ivu : IntervalUnion) :
    Scripted (onExitSpinLoop flags Ukas.rewrite run destination ivu walk)
      (onExitSpinLoop flags scripted run destination ivu walk) := by
  intro s after done
  unfold SpinState.onExitSpinLoop at done ⊢
  have sameMap : ∀ script,
      (s.withScript script).detector.mapSpinLocks =
        s.detector.mapSpinLocks := fun _ => rfl
  simp only [sameMap]
  split at done
  · cases done
    exact ⟨[], fun _ => rfl⟩
  · obtain ⟨_, outside, done⟩ := bind_eq_ok.mp done
    simp only [outside, ok_bind]
    exact Scripted.foldlM (exitRound_scripted ivu) walk.visits s after done

private theorem perform_scripted (event : SpinEvent) :
    Scripted (perform flags Ukas.rewrite · event)
      (perform flags scripted · event) := by
  intro s after done
  cases event with
  | onSpinRead run accAddr =>
      obtain ⟨result, read, same⟩ := bind_eq_ok.mp done
      cases same
      exact ⟨[], fun rest => bind_eq_ok.mpr ⟨result, read, rfl⟩⟩
  | onSpinWrite run atomic accAddr walk =>
      obtain ⟨⟨written, isALock⟩, wrote, same⟩ := bind_eq_ok.mp done
      cases same
      obtain ⟨⟨d, isALock', exit⟩, recorded, finished⟩ :=
        bind_eq_ok.mp wrote
      cases exit with
      | none =>
          cases finished
          exact ⟨[], fun rest => bind_eq_ok.mpr ⟨(_, isALock),
            bind_eq_ok.mpr ⟨_, recorded, rfl⟩, rfl⟩⟩
      | some target =>
          obtain ⟨left, exited, same⟩ := bind_eq_ok.mp finished
          cases same
          obtain ⟨script, follows⟩ :=
            onExitSpinLoop_scripted target.1 target.2 _ _ exited
          exact ⟨script, fun rest => bind_eq_ok.mpr ⟨(_, isALock),
            bind_eq_ok.mpr ⟨_, recorded,
              bind_eq_ok.mpr ⟨_, follows rest, rfl⟩⟩, rfl⟩⟩
  | onExitSpinLoop run destination ivu walk =>
      exact onExitSpinLoop_scripted destination ivu s after done
  | exitThread quitTid =>
      obtain ⟨d, quit, same⟩ := bind_eq_ok.mp done
      cases same
      exact ⟨[], fun rest => bind_eq_ok.mpr ⟨d, quit, rfl⟩⟩

/-- A run on shadow memory that returns is a scripted run, as far as the
detector is concerned. -/
theorem run_scripted {events : List SpinEvent}
    (ran : SpinState.run flags Ukas.rewrite s events = .ok after) :
    ∃ script, SpinState.run flags scripted (s.withScript script) events =
      .ok (after.withScript []) := by
  obtain ⟨script, follows⟩ :=
    Scripted.foldlM perform_scripted events s after ran
  refine ⟨script, ?_⟩
  have whole := follows []
  rwa [List.append_nil] at whole

end Scripts

/-- The detector before its first call, over memory that was never
accessed. -/
def unused : SpinState Ukas.Memory where
  detector := ⟨.init [1, 2] 0 5, none, []⟩
  memory := ⟨.init, (UkaHb.init 1).toOption.getD ⟨.init, ∅, ∅⟩, []⟩
  instructions := ∅

theorem logging_changes_nothing_acquired :
    ∃ logged silent,
      run ⟨true, true⟩ Ukas.rewrite unused spinAcquisition = .ok logged ∧
      run ⟨false, false⟩ Ukas.rewrite unused spinAcquisition = .ok silent ∧
      (logged.detector.spinLock 64).map (·.sLk.holders) = some [1] ∧
      Same silent logged := by
  obtain ⟨logged, ran, held⟩ := exists_ok_of_map
    (show (run ⟨true, true⟩ Ukas.rewrite unused
        spinAcquisition).toOption.map
          (fun s => (s.detector.spinLock 64).map (·.sLk.holders)) =
        some (some [1]) by decide +kernel)
  obtain ⟨before, ranBefore, valid⟩ := exists_ok_of_map
    (show (run ⟨true, true⟩ Ukas.rewrite unused
        (spinAcquisition.take 2)).toOption.map
          (fun s => (s.detector.spinLock 64).map (·.notALock)) =
        some (some false) by decide +kernel)
  have settles : ∀ n s event,
      run ⟨true, true⟩ Ukas.rewrite unused (spinAcquisition.take n) = .ok s →
      spinAcquisition[n]? = some event →
      Settles ⟨true, true⟩ Ukas.rewrite s event := by
    intro n s event ranTo atN
    match n with
    | 0 =>
        cases atN
        trivial
    | 1 =>
        cases atN
        intro d isALock destination ivu wrote
        obtain ⟨sp, isSp, empty⟩ := empty_of_spinWrite wrote
        cases isSp
        cases empty
    | 2 =>
        cases atN
        rw [ranBefore] at ranTo
        cases ranTo
        refine ⟨?_, fun _ _ => trivial⟩
        rintro ⟨lk, sp, found, -, -, -, invalid⟩
        rw [found, Option.map_some, invalid] at valid
        cases valid
    | n + 3 => cases atN
  have agrees := logging_changes_nothing ⟨true, true⟩ ⟨false, false⟩ unused
    settles spinAcquisition.length
  rw [List.take_length, ran] at agrees
  obtain ⟨silent, ranSilent, same⟩ := agrees
  exact ⟨logged, silent, ran, ranSilent, held, same⟩

/-- Thread 2 writes the variable that thread 1 has written in its loop; then
thread 1 leaves the loop. -/
def invalidation : List SpinEvent :=
  [.onSpinRead (spinning spinLoop) 64,
    .onSpinWrite (spinning spinLoop) true 64 firstWalk,
    .onSpinWrite ⟨2, 200, false, none⟩ false 64 firstWalk,
    .onExitSpinLoop (spinning spinLoop) 110 spinLoop.codeBlock firstWalk]

theorem logging_invalidates :
    ∃ logged silent,
      run ⟨true, false⟩ Ukas.rewrite unused invalidation = .ok logged ∧
      run ⟨false, false⟩ Ukas.rewrite unused invalidation = .ok silent ∧
      (logged.detector.spinLock 64).map (·.lastSpinWriter) = some 0 ∧
      (silent.detector.spinLock 64).map (·.lastSpinWriter) = some 1 ∧
      ¬ Same silent logged := by
  obtain ⟨logged, ranLogged, cleared⟩ := exists_ok_of_map
    (show (run ⟨true, false⟩ Ukas.rewrite unused invalidation).toOption.map
        (fun s => (s.detector.spinLock 64).map (·.lastSpinWriter)) =
      some (some 0) by decide +kernel)
  obtain ⟨silent, ranSilent, kept⟩ := exists_ok_of_map
    (show (run ⟨false, false⟩ Ukas.rewrite unused invalidation).toOption.map
        (fun s => (s.detector.spinLock 64).map (·.lastSpinWriter)) =
      some (some 1) by decide +kernel)
  refine ⟨logged, silent, ranLogged, ranSilent, cleared, kept, ?_⟩
  intro same
  rw [same.detector, cleared] at kept
  cases kept

end SpinState
end HelgrindPlus
