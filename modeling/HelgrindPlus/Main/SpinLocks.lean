import HelgrindPlus.Main.Locks

/-!
# The detector of spin locks

The file `hg_main_inc.c.h`.  A variable that a spin loop waits for has a
record with a lock of its own; when the loop is left, the thread is taken to
have acquired that lock and the one that `map_locks` binds to the address, and
when the variable is written outside a loop, to have released both.

Leaving a loop may write shadow memory, and that write may come back to
`HG_(onSpinWrite)`.  Shadow memory is a parameter here.
-/

namespace HelgrindPlus

open Outcome

/-- What the detector reads of an `IntervalUnion`: which one it is, and its
intervals of code addresses, of which no two touch. -/
structure IntervalUnion where
  ptr : Nat
  intervals : List (Nat × Nat)
  deriving DecidableEq

namespace IntervalUnion

/-- An interval has a key for its start and one for its end. -/
def cntParts (ivu : IntervalUnion) : Nat := 2 * ivu.intervals.length

def contains (ivu : IntervalUnion) (value : Nat) : Bool :=
  ivu.intervals.any fun (start, stop) => start ≤ value && value < stop

end IntervalUnion

structure SpinProperty where
  codeBlock : IntervalUnion
  deriving DecidableEq

/-- The fields `lastSpinWriter` and `lastReleaseWriter` are zero when there is
no such thread. -/
structure SpinLock where
  sLk : Lock
  lastSpinWriter : Nat
  lastReleaseWriter : Nat
  wasReleasedBefore : Bool
  wasALock : Bool
  sp : Option SpinProperty
  writeInstruction : Nat
  deriving DecidableEq

/-- The thread that runs: its number, its instruction, and what
`start_spin_reading` and `HG_(set_lastSpinProperty)` have set. -/
structure Running where
  tid : Nat
  ip : Nat
  spinReading : Bool
  lastSpinProperty : Option SpinProperty
  deriving DecidableEq

abbrev SpinLocks := AList (fun _ : Nat => SpinLock)

/-- The locks, `map_spin_locks`, which is `NULL` at first, and the errors
recorded so far. -/
structure Detector where
  locks : LockTab
  mapSpinLocks : Option SpinLocks
  errors : List HgError

namespace SpinLock

/-- What `mk_SpinLock` makes.  The SO of its lock has the number of the
address here. -/
def new (ga : Nat) : SpinLock where
  sLk := ⟨ga, .mbRec, some ga, false, false, none⟩
  lastSpinWriter := 0
  lastReleaseWriter := 0
  wasReleasedBefore := false
  wasALock := false
  sp := none
  writeInstruction := 0

/-- A thread that did not hold the lock has written it outside a loop. -/
def notALock (lk : SpinLock) : Bool :=
  lk.lastReleaseWriter != 0 && !lk.wasReleasedBefore

def invalidated (lk : SpinLock) : SpinLock :=
  { lk with lastSpinWriter := 0, wasALock := false }

end SpinLock

namespace Detector

def setSpinLock (d : Detector) (map : SpinLocks) (ga : Nat) (lk : SpinLock) :
    Detector :=
  { d with mapSpinLocks := some (map.insert ga lk) }

def spinLock (d : Detector) (ga : Nat) : Option SpinLock :=
  d.mapSpinLocks.bind (·.lookup ga)

/-- `map_spin_locks_lookup_or_create`; the caller enters the record. -/
def mapSpinLocksLookupOrCreate (d : Detector) (map : SpinLocks) (ga : Nat) :
    Except Abort SpinLock :=
  match map.lookup ga with
  | some lk => .ok lk
  | none => do
      tlAssert (d.locks.isSaneLockN (SpinLock.new ga).sLk = true)
      pure (SpinLock.new ga)

/-- The function `HG_(onSpinRead)`.  The set `spinVariables` of the property,
which nothing reads, is left out. -/
def onSpinRead (d : Detector) (run : Running) (accAddr : Nat) :
    Except Abort (Detector × Bool) :=
  match run.lastSpinProperty with
  | none => .error .dangling
  | some sp => do
      let map := d.mapSpinLocks.getD ∅
      let lk ← d.mapSpinLocksLookupOrCreate map accAddr
      pure (d.setSpinLock map accAddr { lk with sp := some sp }, lk.wasALock)

/-- Whether a thread holds the lock that `map_locks` binds to an address. -/
def holdsLockAt (d : Detector) (thread : Thread) (ga : Nat) : Bool :=
  match d.locks.mapLocks.lookup ga with
  | some lock => lock ∈ thread.locksetA
  | none => false

def setLastReleaseWriter (d : Detector) (lk : SpinLock) (tid : Nat) :
    Except Abort SpinLock :=
  if lk.lastReleaseWriter = tid then .ok lk
  else do
    let thread ← d.locks.getThread tid
    pure { lk with
      lastReleaseWriter := tid
      wasReleasedBefore := d.holdsLockAt thread lk.sLk.guestaddr }

/-- The lock of the record and the one in `map_locks` are released. -/
def releaseBoth (st : LockTab) (lk : SpinLock) (owner accAddr : Nat) :
    Except Abort (LockTab × List HgError × SpinLock) := do
  let sLk ← st.lockNRelease lk.sLk owner
  let (st, errors) ← st.preThreadReleasesLock owner accAddr false
  pure (st, errors, { lk with sLk := sLk })

/-- What a write outside a loop does to the locks, up to the label
`error`. -/
def unlock (st : LockTab) (tid accAddr : Nat) (lk : SpinLock) :
    Except Abort (LockTab × List HgError × SpinLock × Bool) :=
  match lk.sLk.heldBy with
  | none =>
      if lk.lastReleaseWriter = tid ∧ lk.wasALock = true then
        .ok (st, [], lk, true)
      else .ok (st, [], { lk with wasALock := false }, false)
  | some bag =>
      if bag.count tid = 0 then
        match WordBag.anyElement bag with
        | none => .error .tlAssert
        | some realOwner => do
            let (st, errors, lk) ← releaseBoth st lk realOwner accAddr
            pure (st, errors, { lk with wasALock := false }, false)
      else do
        let (st, errors, lk) ← releaseBoth st lk tid accAddr
        pure (st, errors, lk, true)

/-- The first branch of `HG_(onSpinWrite)`. -/
def releaseWrite (d : Detector) (run : Running) (accAddr : Nat) :
    Except Abort (Detector × Bool) :=
  match d.mapSpinLocks with
  | none => .error .dangling
  | some map =>
      match map.lookup accAddr with
      | none => .ok (d, false)
      | some lk => do
          let lk ← d.setLastReleaseWriter lk run.tid
          let lk := { lk with wasALock := lk.wasReleasedBefore && lk.wasALock }
          let (locks, errors, lk, isALock) ← unlock d.locks run.tid accAddr lk
          tlAssert (locks.isSaneLockN lk.sLk = true)
          pure ({ locks := locks
                  mapSpinLocks := some (map.insert accAddr lk)
                  errors := d.errors ++ errors }, isALock)

/-- The record of a lock that a loop may be acquiring. -/
def noteSpinWrite (run : Running) (sp : SpinProperty) (lk : SpinLock) :
    SpinLock :=
  if lk.notALock then lk.invalidated
  else { lk with
    lastSpinWriter := run.tid
    sp := some sp
    wasALock := true
    writeInstruction := run.ip }

/-- The second branch of `HG_(onSpinWrite)`, with the arguments of the call
of `HG_(onExitSpinLoop)` that it ends with, if it makes one. -/
def acquireWrite (d : Detector) (run : Running) (atomic : Bool)
    (accAddr : Nat) :
    Except Abort (Detector × Bool × Option (Nat × IntervalUnion)) :=
  match run.lastSpinProperty with
  | none => .error .dangling
  | some sp =>
      if sp.codeBlock.cntParts > 0 ∨ atomic = true then
        match d.mapSpinLocks with
        | none => .error .dangling
        | some map => do
            let old ← d.mapSpinLocksLookupOrCreate map accAddr
            let lk := noteSpinWrite run sp old
            let d := d.setSpinLock map accAddr lk
            if atomic = true ∧ sp.codeBlock.cntParts = 0 then
              match lk.sp with
              | none => .error .dangling
              | some own => pure (d, !old.notALock,
                  some (lk.writeInstruction, own.codeBlock))
            else pure (d, !old.notALock, none)
      else .ok (d, false, none)

/-- The test of `HG_(onSpinWrite)` for a write outside a loop. -/
def isReleaseWrite (run : Running) (atomic : Bool) (thread : Thread) : Bool :=
  !(atomic && run.spinReading) &&
    match run.lastSpinProperty with
    | none => true
    | some sp =>
        sp.codeBlock.cntParts == 0 ||
          (!atomic && decide (thread.locksetA = ∅))

/-- The function `HG_(onSpinWrite)` up to its call of
`HG_(onExitSpinLoop)`. -/
def spinWrite (d : Detector) (run : Running) (atomic : Bool) (accAddr : Nat) :
    Except Abort (Detector × Bool × Option (Nat × IntervalUnion)) := do
  let thread ← d.locks.getThread run.tid
  if isReleaseWrite run atomic thread then do
    let (d, isALock) ← d.releaseWrite run accAddr
    pure (d, isALock, none)
  else d.acquireWrite run atomic accAddr

/-- A write that is not atomic makes no further call. -/
def plainSpinWrite (d : Detector) (run : Running) (accAddr : Nat) :
    Except Abort (Detector × Bool) := do
  let (d, isALock, _) ← d.spinWrite run false accAddr
  pure (d, isALock)

/-- One round of `mutex_detect_exitThread`. -/
def exitThreadRound (quitTid : Nat) (d : Detector) (addr : Nat) :
    Except Abort Detector :=
  match d.mapSpinLocks with
  | none => .ok d
  | some map =>
      match map.lookup addr with
      | none => .ok d
      | some lk =>
          match lk.sLk.heldBy.bind WordBag.anyElement with
          | none => .ok d
          | some realOwner =>
              if realOwner ≠ quitTid then .ok d
              else do
                let (locks, errors, lk) ←
                  releaseBoth d.locks lk realOwner addr
                pure { locks := locks
                       mapSpinLocks := some (map.insert addr lk)
                       errors := d.errors ++ errors }

/-- The function `mutex_detect_exitThread`. -/
def exitThread (d : Detector) (quitTid : Nat) : Except Abort Detector :=
  ((d.mapSpinLocks.getD ∅).keys.insertionSort (· ≤ ·)).foldlM
    (exitThreadRound quitTid) d

end Detector

/-- The flags `PRINT_spin_lockset_log` and `PRINT_spin_lockset_ev`. -/
structure Flags where
  log : Bool
  ev : Bool
  deriving DecidableEq

/-- What a call of `HG_(onExitSpinLoop)` meets: the keys that
`VG_(nextIterFM)` yields, which depend on the shape of the tree if keys are
added on the way, and the addresses at which locks are allocated. -/
structure Walk where
  visits : List Nat
  fresh : Nat → Nat

/-- The detector with shadow memory and `map_locks_instructions`. -/
structure SpinState (μ : Type) where
  detector : Detector
  memory : μ
  instructions : Finset Nat

/-- What `zsm_apply32___msm_write` does to shadow memory and, through
`HG_(onSpinWrite)`, to the detector. -/
abbrev Rewrite (μ : Type) :=
  Running → Detector × μ → Nat → Except Abort (Detector × μ)

namespace SpinState

variable {μ : Type} (flags : Flags) (rewrite : Rewrite μ)

/-- A record is invalidated, and its variable written again. -/
def invalidate (run : Running) (s : SpinState μ) (map : SpinLocks)
    (adr : Nat) (lk : SpinLock) : Except Abort (SpinState μ) := do
  let (d, memory) ← rewrite run
    (s.detector.setSpinLock map adr lk.invalidated, s.memory) adr
  pure { s with detector := d, memory := memory }

/-- Both locks are acquired. -/
def acquireBoth (run : Running) (walk : Walk) (s : SpinState μ)
    (map : SpinLocks) (adr : Nat) (lk : SpinLock) :
    Except Abort (SpinState μ) := do
  let (locks, errors) ← s.detector.locks.postThreadWAcquiresLock run.tid
    .mbRec adr (walk.fresh adr)
  let sLk ← locks.lockNAcquireWriter lk.sLk run.tid
  let lk := { lk with sLk := sLk, lastSpinWriter := 0 }
  pure { s with
    detector := { locks := locks
                  mapSpinLocks := some (map.insert adr lk)
                  errors := s.detector.errors ++ errors }
    instructions :=
      if flags.ev then insert lk.writeInstruction s.instructions
      else s.instructions }

/-- The branch for a variable that the thread itself has written. -/
def exitWriter (run : Running) (walk : Walk) (s : SpinState μ)
    (map : SpinLocks) (adr : Nat) (lk : SpinLock) :
    Except Abort (SpinState μ) := do
  let _ ← s.detector.locks.getThread run.tid
  match lk.sLk.heldBy with
  | none => acquireBoth flags run walk s map adr lk
  | some bag => do
      tlAssert (lk.sLk.heldW = true)
      tlAssert (WordBag.sizeUnique bag = 1)
      if bag.count run.tid ≠ bag.length then
        invalidate rewrite run s map adr lk
      else
        pure { s with detector :=
          s.detector.setSpinLock map adr { lk with lastSpinWriter := 0 } }

/-- One round of the loop of `HG_(onExitSpinLoop)`. -/
def exitRound (run : Running) (ivu : IntervalUnion) (walk : Walk)
    (s : SpinState μ) (adr : Nat) : Except Abort (SpinState μ) :=
  match s.detector.mapSpinLocks with
  | none => .ok s
  | some map =>
      match map.lookup adr with
      | none => .ok s
      | some lk =>
          if lk.lastSpinWriter = 0 then .ok s
          else
            match lk.sp with
            | none => .error .dangling
            | some sp =>
                if sp.codeBlock.ptr ≠ ivu.ptr then .ok s
                else if lk.notALock then
                  -- the record changes only inside the block that prints
                  if flags.log then invalidate rewrite run s map adr lk
                  else .ok s
                else if lk.lastSpinWriter = run.tid then
                  exitWriter flags rewrite run walk s map adr lk
                else .ok s

def onExitSpinLoop (run : Running) (destination : Nat) (ivu : IntervalUnion)
    (walk : Walk) (s : SpinState μ) : Except Abort (SpinState μ) :=
  match s.detector.mapSpinLocks with
  | none => .ok s
  | some _ => do
      tlAssert (ivu.contains destination = false)
      walk.visits.foldlM (exitRound flags rewrite run ivu walk) s

def onSpinWrite (run : Running) (atomic : Bool) (accAddr : Nat) (walk : Walk)
    (s : SpinState μ) : Except Abort (SpinState μ × Bool) := do
  let (d, isALock, exit) ← s.detector.spinWrite run atomic accAddr
  let s := { s with detector := d }
  match exit with
  | none => pure (s, isALock)
  | some (destination, ivu) => do
      let s ← onExitSpinLoop flags rewrite run destination ivu walk s
      pure (s, isALock)

end SpinState

inductive SpinEvent where
  | onSpinRead (run : Running) (accAddr : Nat)
  | onSpinWrite (run : Running) (atomic : Bool) (accAddr : Nat) (walk : Walk)
  | onExitSpinLoop (run : Running) (destination : Nat) (ivu : IntervalUnion)
      (walk : Walk)
  | exitThread (quitTid : Nat)

namespace SpinState

variable {μ : Type} (flags : Flags) (rewrite : Rewrite μ)

def perform (s : SpinState μ) : SpinEvent → Except Abort (SpinState μ)
  | .onSpinRead run accAddr => do
      let (d, _) ← s.detector.onSpinRead run accAddr
      pure { s with detector := d }
  | .onSpinWrite run atomic accAddr walk => do
      let (s, _) ← onSpinWrite flags rewrite run atomic accAddr walk s
      pure s
  | .onExitSpinLoop run destination ivu walk =>
      onExitSpinLoop flags rewrite run destination ivu walk s
  | .exitThread quitTid => do
      let d ← s.detector.exitThread quitTid
      pure { s with detector := d }

def run (s : SpinState μ) (events : List SpinEvent) :
    Except Abort (SpinState μ) :=
  events.foldlM (perform flags rewrite) s

end SpinState
end HelgrindPlus
