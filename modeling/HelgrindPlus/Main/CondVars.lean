import HelgrindPlus.Lsd.SyncLaws
import HelgrindPlus.Main.Locks

/-!
# Condition variables

The handlers of condition variables in `hg_main.c`, with what `hg_lsd.c` does
for them.  A wait inside a waiting loop takes no clock over; when the loop ends
all its waits are done at once, and if the thread has not waited at all, as
the signal came before, the wait that the loop was for.

The addresses of new objects are part of the events.
-/

namespace HelgrindPlus

open Outcome

/-- The clock interface with the test whether an object was ever sent to. -/
structure CondLib (σ κ : Type) extends LibHB σ κ where
  soEverSent : σ → Nat → Except Abort Bool

def Hb.condLib : CondLib Hb Clocks :=
  { Hb.lib with soEverSent := Hb.soEverSent }

def UkaHb.condLib : CondLib UkaHb VTS :=
  { UkaHb.lib with soEverSent := UkaHb.soEverSent }

def Build.condLib : (build : Build) → CondLib build.Hb build.Clock
  | .default => HelgrindPlus.Hb.condLib
  | .ukas | .ukal => UkaHb.condLib

/-- The part of a `ThrLSD` that is about waiting loops.  The list has the
condition variables of the waits and their mutexes. -/
structure WaitingLoop where
  inWaitingLoop : Bool
  expectCond : Nat
  expectMutex : Nat
  cvlist : List (Nat × Nat)
  deriving DecidableEq

def WaitingLoop.new : WaitingLoop := ⟨false, 0, 0, []⟩

structure CondTab (σ : Type) where
  lsd : Lsd σ
  loops : AList (fun _ : Nat => WaitingLoop)
  mapCondToSO : AList (fun _ : Nat => Nat)
  locks : LockTab

namespace CondTab

variable {σ κ : Type}

def withLib (tab : CondTab σ) (libhb : σ) : CondTab σ :=
  { tab with lsd := { tab.lsd with libhb := libhb } }

def getLoop (tab : CondTab σ) (thr : Nat) : Except Abort WaitingLoop :=
  match tab.loops.lookup thr with
  | some loop => .ok loop
  | none => .error .dangling

def setLoop (tab : CondTab σ) (thr : Nat) (loop : WaitingLoop) : CondTab σ :=
  { tab with loops := tab.loops.insert thr loop }

variable (lib : CondLib σ κ)

def mapCondToSOLookupOrAlloc (tab : CondTab σ) (cond fresh : Nat) :
    Except Abort (CondTab σ × Nat) :=
  match tab.mapCondToSO.lookup cond with
  | some so => .ok (tab, so)
  | none => do
      let libhb ← lib.soAlloc tab.lsd.libhb fresh
      pure ({ tab.withLib libhb with
        mapCondToSO := tab.mapCondToSO.insert cond fresh }, fresh)

def mapCondToSODelete (tab : CondTab σ) (cond : Nat) :
    Except Abort (CondTab σ) :=
  match tab.mapCondToSO.lookup cond with
  | some so => do
      let libhb ← lib.soDealloc tab.lsd.libhb so
      pure { tab.withLib libhb with
        mapCondToSO := tab.mapCondToSO.erase cond }
  | none => .ok tab

variable (level : Nat)

/-- The function `hg_lsd__cond_signal_pre` at any level of the detector. -/
def lsdCondSignalPre (tab : CondTab σ) (thr cond fresh : Nat) :
    Except Abort (CondTab σ) := do
  let _ ← tab.lsd.getThr thr
  if level < 2 then pure { tab with lsd := tab.lsd.setSignaled cond true }
  else do
    let lsd ← tab.lsd.condSignalPre lib.toLibHB thr cond fresh
    pure { tab with lsd := lsd }

def condSignalPre (tab : CondTab σ) (thr cond fresh extracted : Nat) :
    Except Abort (CondTab σ) := do
  let (tab, so) ← tab.mapCondToSOLookupOrAlloc lib cond fresh
  let tab ← tab.lsdCondSignalPre lib level thr cond extracted
  let libhb ← lib.perform tab.lsd.libhb (.sync (.soSend thr so false))
  pure (tab.withLib libhb)

/-- The first of the complaints about a mutex that applies. -/
def mutexComplaint (locks : LockTab) (thr mutex : Nat) :
    Except Abort (Option String) :=
  match locks.mapLocks.lookup mutex with
  | none => .ok (some "pthread_cond_{timed}wait called with invalid mutex")
  | some lk => do
      let lock ← locks.deref lk
      tlAssert (locks.isSaneLockN lock = true)
      if lock.kind = .rdwr then
        pure (some ("pthread_cond_{timed}wait called with mutex " ++
          "of type pthread_rwlock_t*"))
      else
        match lock.heldBy with
        | none =>
            pure (some
              "pthread_cond_{timed}wait called with un-held mutex")
        | some bag =>
            if bag.count thr = 0 then
              pure (some ("pthread_cond_{timed}wait called with mutex " ++
                "held by a different thread"))
            else pure none

/-- The result tells whether the mutex is valid and held by the thread. -/
def condWaitPre (tab : CondTab σ) (thr mutex : Nat) :
    Except Abort (CondTab σ × List HgError × Bool) := do
  let complaint ← mutexComplaint tab.locks thr mutex
  let lsd ← tab.lsd.condWaitPre thr
  pure ({ tab with lsd := lsd },
    complaint.toList.map (.misc thr), complaint.isNone)

/-- The function `hg_lsd__cond_wait_post`.  The result tells whether the wait
takes a clock over at once. -/
def lsdCondWaitPost (tab : CondTab σ) (thr cond mutex : Nat) :
    Except Abort (CondTab σ × Bool) := do
  let lsd ← tab.lsd.condWaitPost thr
  let tab := { tab with lsd := lsd }
  let loop ← tab.getLoop thr
  if loop.inWaitingLoop then
    match loop.cvlist.find? (·.1 = cond) with
    | some entry => do
        tlAssert (entry.2 = mutex)
        pure (tab, false)
    | none =>
        pure (tab.setLoop thr
          { loop with cvlist := loop.cvlist ++ [(cond, mutex)] }, false)
  else pure (tab, true)

/-- The function `hg_lsd__cond_direct_so` at any level of the detector. -/
def lsdCondDirectSo (tab : CondTab σ) (thr cond fresh : Nat) :
    Except Abort (CondTab σ × Option Nat) :=
  if level < 2 then
    .ok ({ tab with lsd := tab.lsd.setSignaled cond false }, none)
  else do
    let (lsd, direct) ← tab.lsd.condDirectSo lib.toLibHB thr cond fresh
    pure ({ tab with lsd := lsd }, direct)

/-- The end of `evhH__do_signal_wait`. -/
def acquireSignal (tab : CondTab σ) (thr cond so fresh : Nat) :
    Except Abort (CondTab σ) := do
  let (tab, direct) ← tab.lsdCondDirectSo lib level thr cond fresh
  match direct with
  | some direct => do
      let libhb ← lib.perform tab.lsd.libhb (.sync (.soRecv thr direct true))
      let libhb ← lib.soDealloc libhb direct
      pure (tab.withLib libhb)
  | none => do
      let libhb ← lib.perform tab.lsd.libhb (.sync (.soRecv thr so true))
      pure (tab.withLib libhb)

def waitWithoutPost : String :=
  "Bug in libpthread: pthread_cond_wait succeeded on" ++
    " without prior pthread_cond_post"

/-- The function `evhH__do_signal_wait`; `fresh` are the addresses of the
objects that it may need. -/
def doSignalWait (tab : CondTab σ) (thr cond mutex : Nat) (annotating : Bool)
    (fresh : Nat × Nat) : Except Abort (CondTab σ × List HgError) := do
  let (tab, so) ← tab.mapCondToSOLookupOrAlloc lib cond fresh.1
  let sent ← lib.soEverSent tab.lsd.libhb so
  let errors :=
    if sent = false ∧ annotating = false then
      [HgError.misc thr waitWithoutPost]
    else []
  let (tab, takes) ←
    if annotating then pure (tab, true)
    else tab.lsdCondWaitPost thr cond mutex
  if takes then do
    let tab ← tab.acquireSignal lib level thr cond so fresh.2
    pure (tab, errors)
  else pure (tab, errors)

def condWaitTimeout (tab : CondTab σ) (thr cond fresh : Nat) :
    Except Abort (CondTab σ) := do
  let (tab, _) ← tab.mapCondToSOLookupOrAlloc lib cond fresh
  let lsd ← tab.lsd.condWaitPost thr
  pure { tab with lsd := lsd }

/-- The function `evh__waiting_loop`. -/
def waitingLoop (tab : CondTab σ) (thr cond mutex : Nat) :
    Except Abort (CondTab σ) := do
  let loop ← tab.getLoop thr
  pure (tab.setLoop thr
    { loop with expectCond := cond, expectMutex := mutex })

def waitingLoopBegin (tab : CondTab σ) (thr : Nat) :
    Except Abort (CondTab σ) := do
  let me ← tab.lsd.getThr thr
  let loop ← tab.getLoop thr
  let me := { me with recordReads := false }
  let tab := { tab with lsd := tab.lsd.setThr thr me }
  pure (tab.setLoop thr { loop with inWaitingLoop := true })

/-- The call of `main_annotate_wait` for a condition variable that is known to
the detector. -/
def annotateWait (thr : Nat) (addrs : Nat → Nat × Nat)
    (acc : CondTab σ × List HgError) (wait : Nat × Nat) :
    Except Abort (CondTab σ × List HgError) :=
  if (acc.1.lsd.conds.lookup wait.1).isSome then do
    let (tab, errors) ← acc.1.doSignalWait lib level thr wait.1 wait.2 true
      (addrs wait.1)
    pure (tab, acc.2 ++ errors)
  else .ok acc

/-- The loop over the list.  The expected condition variable has to come with
the expected mutex. -/
def annotateWaits (thr : Nat) (loop : WaitingLoop) (addrs : Nat → Nat × Nat)
    (acc : CondTab σ × List HgError) (wait : Nat × Nat) :
    Except Abort (CondTab σ × List HgError) := do
  tlAssert (wait.1 = loop.expectCond → wait.2 = loop.expectMutex)
  annotateWait lib level thr addrs acc wait

def waitingLoopEnd (tab : CondTab σ) (thr : Nat) (addrs : Nat → Nat × Nat) :
    Except Abort (CondTab σ × List HgError) := do
  let loop ← tab.getLoop thr
  let tab := tab.setLoop thr { loop with inWaitingLoop := false }
  let acc ← loop.cvlist.foldlM (annotateWaits lib level thr loop addrs)
    (tab, [])
  let expected := (loop.expectCond, loop.expectMutex)
  let (tab, errors) ←
    if loop.cvlist.any (·.1 = loop.expectCond) then pure acc
    else annotateWait lib level thr addrs acc expected
  let loop ← tab.getLoop thr
  pure (tab.setLoop thr { loop with cvlist := [] }, errors)

end CondTab

/-- An event of a condition variable, or of what it depends on. -/
inductive CondOp where
  | hb (op : HbOp)
  | create (parent child : Nat)
  | lock (event : LockEvent)
  | mutexLock (thr : Nat)
  | mutexUnlock (thr : Nat)
  | recWrite (thr a : Nat) (ignored : Bool)
  | recRead (thr a : Nat) (ignored : Bool)
  | signalPre (thr cond fresh extracted : Nat)
  | waitPre (thr cond mutex : Nat)
  | waitPost (thr cond mutex : Nat) (fresh : Nat × Nat)
  | waitTimeout (thr cond mutex fresh : Nat)
  | destroyPre (thr cond : Nat)
  | waitingLoop (thr cond mutex : Nat)
  | waitingLoopBegin (thr : Nat)
  | waitingLoopEnd (thr : Nat) (addrs : Nat → Nat × Nat)

namespace CondTab

variable {σ κ : Type} (lib : CondLib σ κ) (level : Nat)

/-- The objects of the condition variables and of the recorded signals, which
nobody else has. -/
def ownSOs (tab : CondTab σ) : List Nat :=
  tab.mapCondToSO.entries.map (·.2) ++ tab.lsd.recordedSOs

/-- What the detector of lost signals does on its own. -/
def withLsd (tab : CondTab σ) (call : Except Abort (Lsd σ)) :
    Except Abort (CondTab σ × List HgError) := do
  let lsd ← call
  pure ({ tab with lsd := lsd }, [])

def perform (tab : CondTab σ) :
    CondOp → Except Abort (CondTab σ × List HgError)
  | .hb op =>
      if op.sos.any (· ∈ tab.ownSOs) then .error .dangling
      else do
        let libhb ← lib.perform tab.lsd.libhb op
        pure (tab.withLib libhb, [])
  | .create parent child => do
      let libhb ← lib.perform tab.lsd.libhb (.sync (.create parent child))
      let tab := tab.withLib libhb
      let tab := { tab with lsd := tab.lsd.setThr child .new }
      pure (tab.setLoop child .new, [])
  | .lock event => do
      let (locks, errors) ← tab.locks.handle event
      pure ({ tab with locks := locks }, errors)
  | .mutexLock thr => tab.withLsd (tab.lsd.mutexLock thr)
  | .mutexUnlock thr => tab.withLsd (tab.lsd.mutexUnlock thr)
  | .recWrite thr a ignored => tab.withLsd (tab.lsd.recWrite thr a ignored)
  | .recRead thr a ignored => tab.withLsd (tab.lsd.recRead thr a ignored)
  | .signalPre thr cond fresh extracted => do
      let tab ← tab.condSignalPre lib level thr cond fresh extracted
      pure (tab, [])
  | .waitPre thr _ mutex => do
      let (tab, errors, _) ← tab.condWaitPre thr mutex
      pure (tab, errors)
  | .waitPost thr cond mutex fresh =>
      tab.doSignalWait lib level thr cond mutex false fresh
  | .waitTimeout thr cond _ fresh => do
      let tab ← tab.condWaitTimeout lib thr cond fresh
      pure (tab, [])
  | .destroyPre _ cond => do
      let tab ← tab.mapCondToSODelete lib cond
      pure (tab, [])
  | .waitingLoop thr cond mutex => do
      let tab ← tab.waitingLoop thr cond mutex
      pure (tab, [])
  | .waitingLoopBegin thr => do
      let tab ← tab.waitingLoopBegin thr
      pure (tab, [])
  | .waitingLoopEnd thr addrs => tab.waitingLoopEnd lib level thr addrs

def init (root : Nat) (locks : LockTab) : Except Abort (CondTab σ) := do
  let libhb ← lib.init root
  let lsd : Lsd σ := ⟨libhb, ∅, ∅⟩
  pure ⟨lsd.setThr root .new, AList.singleton root .new, ∅, locks⟩

/-- The clocks of the signals on each condition variable since it has its
object. -/
def noteSignals (tab : CondTab σ) (log : Nat → List κ) :
    CondOp → Nat → List κ
  | .signalPre thr cond _ _ => Function.update log cond
      (log cond ++ (lib.thrClock tab.lsd.libhb thr).toList)
  | .destroyPre _ cond => Function.update log cond []
  | _ => log

def performLogged (acc : CondTab σ × (Nat → List κ)) (op : CondOp) :
    Except Abort (CondTab σ × (Nat → List κ)) := do
  let (tab, _) ← acc.1.perform lib level op
  pure (tab, noteSignals lib acc.1 acc.2 op)

/-- A run, with the signals that count at its end. -/
def run (root : Nat) (locks : LockTab) (ops : List CondOp) :
    Except Abort (CondTab σ × (Nat → List κ)) := do
  let tab ← init lib root locks
  ops.foldlM (performLogged lib level) (tab, fun _ => [])

end CondTab

end HelgrindPlus
