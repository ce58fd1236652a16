import HelgrindPlus.Msm.SpinMemory

/-!
# The short hybrid machine with its detector

The interface of `libhb.h` in the build with `libhb_ukas_core.h`, together
with the locks and the detector of spin locks.  `msm_read` and `msm_write` ask
the detector if the option `--detect-mutex` is set, and a write may make it
leave a loop and write other variables before the access is finished.
-/

namespace HelgrindPlus.Ukas

open Outcome

structure Options where
  detectMutex : Bool
  flags : Flags

/-- An access of the program, with what a loop meets that is left when the
address is written. -/
structure MemAccess where
  run : Running
  isWrite : Bool
  atomic : Bool
  walk : Nat → Walk

private theorem locksetW_subset (thread : Thread) :
    thread.locksetW ⊆ thread.locksetA ∪ thread.locksetW :=
  Finset.subset_union_right

/-- The access as the machine sees it.  A lock that is held in write mode is
among all that are held. -/
def MemAccess.access (acc : MemAccess) (thread : Thread) (wasALock : Bool) :
    Access where
  thr := acc.run.tid
  isWrite := acc.isWrite
  atomic := acc.atomic
  spinReading := acc.run.spinReading
  wasALock := wasALock
  locksetA := thread.locksetA ∪ thread.locksetW
  locksetW := thread.locksetW
  writeHeld := locksetW_subset thread

/-- What the program keeps besides shadow memory. -/
structure Core extends SpinCore where
  instructions : Finset Nat

namespace Core

def withTab (core : Core) (tab : VtsTab) : Core :=
  { core with hb := { core.hb with tab := tab } }

def rcSVal (core : Core) (event : RcEvent (SVal Nat)) : Except Abort Core := do
  let spinCore ← core.toSpinCore.rcSVal event
  pure { core with toSpinCore := spinCore }

end Core

abbrev Machine := Zsm (SVal Nat) × Core

namespace Machine

def init (root : Nat) (locks : LockTab) : Except Abort Machine := do
  let hb ← UkaHb.init root
  pure (.init, ⟨⟨hb, [], ⟨locks, none, []⟩⟩, ∅⟩)

/-- The machine as the detector works on it. -/
def toSpin (s : Machine) : SpinState Memory :=
  ⟨s.2.detector, ⟨s.1, s.2.hb, s.2.races⟩, s.2.instructions⟩

def ofSpin (s : SpinState Memory) : Machine :=
  (s.memory.zsm, ⟨⟨s.memory.hb, s.memory.races, s.detector⟩, s.instructions⟩)

def withDetector (s : Machine) (d : Detector) : Machine :=
  (s.1, { s.2 with detector := d })

variable (opts : Options) (acc : MemAccess)

/-- The calls of `HG_(onSpinRead)` and `HG_(onSpinWrite)`. -/
def askDetector (s : Machine) (svOld : SVal Nat) (a : Nat) :
    Except Abort (Machine × Bool) :=
  if opts.detectMutex = false then .ok (s, false)
  else if acc.isWrite then
    if svOld.isSpinVar then do
      let (spin, wasALock) ← SpinState.onSpinWrite opts.flags rewrite acc.run
        acc.atomic a (acc.walk a) s.toSpin
      pure (ofSpin spin, wasALock)
    else .ok (s, false)
  else if acc.run.spinReading then do
    let (d, wasALock) ← s.2.detector.onSpinRead acc.run a
    pure (s.withDetector d, wasALock)
  else .ok (s, false)

/-- The functions `msm_read` and `msm_write`.  The clock of the thread is read
before the detector is asked. -/
def msm (s : Machine) (svOld : SVal Nat) (a szB : Nat) :
    Except Abort (Machine × SVal Nat) := do
  let tvid ← s.2.hb.getThr acc.run.tid
  let tab ← s.2.hb.tab.rcinc tvid
  let (s, wasALock) ← askDetector opts acc (s.1, s.2.withTab tab) svOld a
  let thread ← s.2.detector.locks.getThread acc.run.tid
  let (tab, out) ←
    if acc.isWrite then
      writeBody s.2.hb.tab svOld tvid (acc.access thread wasALock)
    else readBody s.2.hb.tab svOld tvid (acc.access thread wasALock)
  let tab ← tab.rcdec tvid
  let races :=
    if out.raced then s.2.races ++ [⟨acc.run.tid, a, szB, acc.isWrite⟩]
    else s.2.races
  let hb := s.2.hb.exchange tab acc.run.tid out.vid
  pure ((s.1, { s.2 with hb := hb, races := races }), out.svNew)

/-- The functions `zsm_apply8___msm_read` to `zsm_apply64___msm_write`. -/
def apply (width : Width) (s : Machine) (a : Nat) : Except Abort Machine :=
  (applyWidths Core.rcSVal (msm opts acc)).access width s a

def applyRange (s : Machine) (a len : Nat) : Except Abort Machine :=
  HelgrindPlus.applyRange Core.rcSVal (msm opts acc) s a len

def rangeNew (s : Machine) (a szB : Nat) : Except Abort Machine :=
  counting Core.rcSVal s (·.setRange a szB .New)

def rangeNoaccess (s : Machine) (a szB : Nat) : Except Abort Machine :=
  counting Core.rcSVal s (·.setRange a szB .NoAccess)

/-- The function `zsm_copy_range`, by way of `libhb_copy_shadow_state`. -/
def copyRange (s : Machine) (src dst len : Nat) : Except Abort Machine :=
  counting Core.rcSVal s (·.copyRange src dst len)

def flushCache (s : Machine) : Except Abort Machine :=
  counting Core.rcSVal s (·.flushCache)

/-- The function `vts_tab__do_GC`. -/
def doGC (s : Machine) : Except Abort Machine := do
  tlAssert (s.2.hb.tab.freelist = none)
  let s ← flushCache (s.1, s.2.withTab s.2.hb.tab.invalidateCaches)
  let tab ← s.2.hb.tab.collect
  pure (s.1, s.2.withTab tab)

/-- The part of `libhb_maybe_GC` that concerns timestamps; `due` is the test
of the size of the table. -/
def maybeGC (s : Machine) (due : Bool) : Except Abort Machine :=
  if s.2.hb.tab.freelist ≠ none then .ok s
  else if due = false then .ok s
  else doGC s

end Machine

inductive Op where
  | hb (op : HbOp)
  | lock (event : LockEvent)
  | apply (acc : MemAccess) (width : Width) (a : Nat)
  | applyRange (acc : MemAccess) (a len : Nat)
  | rangeNew (a szB : Nat)
  | rangeNoaccess (a szB : Nat)
  | copyRange (src dst len : Nat)
  | onExitSpinLoop (run : Running) (destination : Nat) (ivu : IntervalUnion)
      (walk : Walk)
  | exitThread (quitTid : Nat)
  | maybeGC (due : Bool)

namespace Machine

variable (opts : Options)

def perform (s : Machine) : Op → Except Abort Machine
  | .hb op => do
      let hb ← s.2.hb.perform op
      pure (s.1, { s.2 with hb := hb })
  | .lock event => do
      let (locks, errors) ← s.2.detector.locks.handle event
      pure (s.withDetector { s.2.detector with
        locks := locks
        errors := s.2.detector.errors ++ errors })
  | .apply acc width a => apply opts acc width s a
  | .applyRange acc a len => applyRange opts acc s a len
  | .rangeNew a szB => rangeNew s a szB
  | .rangeNoaccess a szB => rangeNoaccess s a szB
  | .copyRange src dst len => copyRange s src dst len
  | .onExitSpinLoop run destination ivu walk => do
      let spin ← SpinState.onExitSpinLoop opts.flags rewrite run destination
        ivu walk s.toSpin
      pure (ofSpin spin)
  | .exitThread quitTid => do
      let d ← s.2.detector.exitThread quitTid
      pure (s.withDetector d)
  | .maybeGC due => maybeGC s due

def run (root : Nat) (locks : LockTab) (ops : List Op) :
    Except Abort Machine := do
  let s ← init root locks
  ops.foldlM (perform opts) s

end Machine
end HelgrindPlus.Ukas
