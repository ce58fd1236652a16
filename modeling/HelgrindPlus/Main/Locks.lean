import HelgrindPlus.LibHB.VtsTab
import Mathlib.Data.Finset.Insert
import Mathlib.Data.Finset.Erase
import Mathlib.Data.List.Dedup

/-!
# Locks and the threads that hold them

The part of `hg_main.c` and `hg_lock_n_thread.c` that records who holds which
lock: a bag of threads in the lock, and two sets of locks in each thread.  The
handlers also tell libhb, the lock-order graph and the lost-signal detector,
which change none of these fields and are left out.

A `Thread*` is the number of its slot in `map_threads`.  A `Lock*` is an
address; an event that may create a lock carries the address that
`HG_(zalloc)` then returns, which may be that of a lock freed before.
-/

namespace HelgrindPlus

open Outcome

inductive LockKind where
  | mbRec | nonRec | rdwr
  deriving DecidableEq, Repr

/-- A live `Lock`, with `LockN_MAGIC`.  `heldBy` is a bag of threads, and
`acquiredAt` tells whether that field is not `NULL`. -/
structure Lock where
  guestaddr : Nat
  kind : LockKind
  hbso : Option Nat
  acquiredAt : Bool
  heldW : Bool
  heldBy : Option (List Nat)
  deriving DecidableEq

structure Thread where
  locksetA : Finset Nat
  locksetW : Finset Nat
  deriving DecidableEq

/-- The errors that the handlers record for the user. A foreign unlock names
one of the lock's owners: the one at the root of the bag's tree, which is
ordered by the addresses of the thread records. Those are not modelled, and
the error keeps all the owners. -/
inductive HgError where
  | misc (thr : Nat) (text : String)
  | unlockBogus (thr lockGa : Nat)
  | unlockUnlocked (thr lk : Nat)
  | unlockForeign (thr : Nat) (owners : List Nat) (lk : Nat)
  deriving DecidableEq

structure LockTab where
  mapThreads : AList (fun _ : Nat => Thread)
  mapLocks : AList (fun _ : Nat => Nat)
  heap : AList (fun _ : Nat => Lock)

namespace WordBag

def sizeUnique (bag : List Nat) : Nat := bag.dedup.length

/-- `VG_(anyElementOfBag)`. Its callers here have a bag of one thread, which
is then also the one at the root of the tree. -/
def anyElement (bag : List Nat) : Option Nat := bag.head?

end WordBag

namespace LockTab

/-- `HG_(is_sane_Thread)`. -/
def isSaneThread (st : LockTab) (thr : Nat) : Bool :=
  (st.mapThreads.lookup thr).isSome

/-- `is_sane_Lock_BASE`. -/
def isSaneLockBASE (st : LockTab) (lk : Lock) : Bool :=
  match lk.heldBy with
  | none => !lk.acquiredAt && !lk.heldW
  | some bag =>
      lk.acquiredAt && !bag.isEmpty && bag.all st.isSaneThread &&
        (if lk.heldW then
          lk.kind == .mbRec || bag.length == 1
        else lk.kind == .rdwr)

def isSaneLockN (st : LockTab) (lk : Lock) : Bool :=
  lk.hbso.isSome && st.isSaneLockBASE lk

def getThread (st : LockTab) (thr : Nat) : Except Abort Thread :=
  match st.mapThreads.lookup thr with
  | some thread => .ok thread
  | none => .error .tlAssert

/-- The lock that a pointer refers to. -/
def deref (st : LockTab) (lk : Nat) : Except Abort Lock :=
  match st.heap.lookup lk with
  | some lock => .ok lock
  | none => .error .dangling

def setLock (st : LockTab) (lk : Nat) (lock : Lock) : LockTab :=
  { st with heap := st.heap.insert lk lock }

def setThread (st : LockTab) (thr : Nat) (thread : Thread) : LockTab :=
  { st with mapThreads := st.mapThreads.insert thr thread }

/-- A new lock at `fresh`, whose SO has the same number here. -/
def mkLockN (st : LockTab) (kind : LockKind) (guestaddr fresh : Nat) :
    Except Abort LockTab :=
  match st.heap.lookup fresh with
  | some _ => .error .dangling
  | none => do
      let lock : Lock := ⟨guestaddr, kind, some fresh, false, false, none⟩
      tlAssert (st.isSaneLockN lock = true)
      pure (st.setLock fresh lock)

def mapLocksLookupOrCreate (st : LockTab) (lkk : LockKind) (ga fresh : Nat) :
    Except Abort (LockTab × Nat) :=
  match st.mapLocks.lookup ga with
  | none => do
      let st ← st.mkLockN lkk ga fresh
      pure ({ st with mapLocks := st.mapLocks.insert ga fresh }, fresh)
  | some oldlock => do
      let lock ← st.deref oldlock
      tlAssert (st.isSaneLockN lock = true)
      tlAssert (lock.guestaddr = ga)
      pure (st, oldlock)

/-- The case `LK_nonRec` of `lockN_acquire_writer`. -/
def acquireUnheld (lock : Lock) (thr : Nat) : Except Abort Lock := do
  tlAssert (lock.heldBy = none)
  tlAssert (lock.heldW = false)
  pure { lock with heldW := true, heldBy := some [thr] }

/-- The bookkeeping of `acquired_at` when a lock is acquired. -/
def noteAcquired (lock : Lock) : Except Abort Lock :=
  if lock.acquiredAt then do
    tlAssert (lock.heldBy ≠ none)
    pure lock
  else do
    tlAssert (lock.heldBy = none)
    pure { lock with acquiredAt := true }

/-- The switch on `lk->kind` in `lockN_acquire_writer`. -/
def acquireByKind (lock : Lock) (thr : Nat) : Except Abort Lock :=
  match lock.kind, lock.heldBy with
  | .nonRec, _ => acquireUnheld lock thr
  | .mbRec, none => acquireUnheld lock thr
  | .mbRec, some bag => do
      tlAssert (lock.heldW = true)
      tlAssert (WordBag.sizeUnique bag = 1)
      tlAssert (bag.count thr = bag.length)
      pure { lock with heldBy := some (thr :: bag) }
  | .rdwr, _ => do
      tlAssert (lock.heldBy = none ∧ lock.heldW = false)
      acquireUnheld lock thr

def lockNAcquireWriter (st : LockTab) (lock : Lock) (thr : Nat) :
    Except Abort Lock := do
  tlAssert (st.isSaneLockN lock = true)
  tlAssert (st.isSaneThread thr = true)
  let lock ← noteAcquired lock
  let lock ← acquireByKind lock thr
  tlAssert (st.isSaneLockN lock = true)
  pure lock

def lockNAcquireReader (st : LockTab) (lock : Lock) (thr : Nat) :
    Except Abort Lock := do
  tlAssert (st.isSaneLockN lock = true)
  tlAssert (st.isSaneThread thr = true)
  tlAssert (lock.kind = .rdwr)
  tlAssert (lock.heldBy = none ∨ lock.heldW = false)
  let lock ← noteAcquired lock
  let lock := match lock.heldBy with
    | some bag => { lock with heldBy := some (thr :: bag) }
    | none => { lock with heldW := false, heldBy := some [thr] }
  tlAssert (lock.heldW = false)
  tlAssert (st.isSaneLockN lock = true)
  pure lock

def lockNRelease (st : LockTab) (lock : Lock) (thr : Nat) :
    Except Abort Lock := do
  tlAssert (st.isSaneLockN lock = true)
  tlAssert (st.isSaneThread thr = true)
  match lock.heldBy with
  | none => .error .tlAssert
  | some bag => do
      tlAssert (thr ∈ bag)
      tlAssert (lock.acquiredAt = true)
      let bag := bag.erase thr
      let lock := if bag.isEmpty then
          { lock with heldBy := none, heldW := false, acquiredAt := false }
        else { lock with heldBy := some bag }
      tlAssert (st.isSaneLockN lock = true)
      pure lock

/-- One round of `remove_Lock_from_locksets_of_all_owning_Threads`. -/
def removeFromLocksets (lk : Nat) (heldW : Bool) (st : LockTab) (thr : Nat) :
    Except Abort LockTab := do
  let thread ← st.getThread thr
  tlAssert (lk ∈ thread.locksetA)
  if heldW then do
    tlAssert (lk ∈ thread.locksetW)
    pure (st.setThread thr
      ⟨thread.locksetA.erase lk, thread.locksetW.erase lk⟩)
  else
    pure (st.setThread thr { thread with
      locksetA := thread.locksetA.erase lk })

def removeLockFromLocksetsOfAllOwningThreads (st : LockTab) (lk : Nat)
    (lock : Lock) : Except Abort LockTab :=
  match lock.heldBy with
  | none => do
      tlAssert (lock.heldW = false)
      pure st
  | some bag =>
      bag.dedup.foldlM (removeFromLocksets lk lock.heldW) st

def bugRdHeld : String :=
  "Bug in libpthread: write lock granted on rwlock which is currently rd-held"

def bugWrHeldByOther : String :=
  "Bug in libpthread: write lock granted on mutex/rwlock which is currently " ++
    "wr-held by a different thread"

def bugRecursive : String :=
  "Bug in libpthread: recursive write lock granted on mutex/wrlock which " ++
    "does not support recursion"

def bugWrHeld : String :=
  "Bug in libpthread: read lock granted on rwlock which is currently wr-held"

/-- What follows the label `noerror` after a write acquisition. -/
def noErrorW (st : LockTab) (thr lk : Nat) (lock : Lock) :
    Except Abort (LockTab × List HgError) := do
  let thread ← st.getThread thr
  let st := (st.setLock lk lock).setThread thr
    ⟨insert lk thread.locksetA, insert lk thread.locksetW⟩
  tlAssert (st.isSaneLockN lock = true)
  pure (st, [])

/-- What follows the label `noerror` after a read acquisition. -/
def noErrorR (st : LockTab) (thr lk : Nat) (lock : Lock) :
    Except Abort (LockTab × List HgError) := do
  let thread ← st.getThread thr
  let st := (st.setLock lk lock).setThread thr
    { thread with locksetA := insert lk thread.locksetA }
  tlAssert (st.isSaneLockN lock = true)
  pure (st, [])

/-- `evhH__post_thread_w_acquires_lock`. -/
def postThreadWAcquiresLock (st : LockTab) (thr : Nat) (lkk : LockKind)
    (lockGa fresh : Nat) : Except Abort (LockTab × List HgError) := do
  tlAssert (st.isSaneThread thr = true)
  let (st, lk) ← st.mapLocksLookupOrCreate lkk lockGa fresh
  let lock ← st.deref lk
  tlAssert (st.isSaneLockN lock = true)
  match lock.heldBy with
  | none => do
      tlAssert (lock.heldW = false)
      let lock ← st.lockNAcquireWriter lock thr
      st.noErrorW thr lk lock
  | some bag =>
      if lock.heldW = false then pure (st, [.misc thr bugRdHeld])
      else do
        tlAssert (WordBag.sizeUnique bag = 1)
        if WordBag.anyElement bag ≠ some thr then
          pure (st, [.misc thr bugWrHeldByOther])
        else if lock.kind ≠ .mbRec then pure (st, [.misc thr bugRecursive])
        else do
          let lock ← st.lockNAcquireWriter lock thr
          st.noErrorW thr lk lock

/-- `evhH__post_thread_r_acquires_lock`. -/
def postThreadRAcquiresLock (st : LockTab) (thr : Nat) (lkk : LockKind)
    (lockGa fresh : Nat) : Except Abort (LockTab × List HgError) := do
  tlAssert (st.isSaneThread thr = true)
  tlAssert (lkk = .rdwr)
  let (st, lk) ← st.mapLocksLookupOrCreate lkk lockGa fresh
  let lock ← st.deref lk
  tlAssert (st.isSaneLockN lock = true)
  match lock.heldBy with
  | none => do
      tlAssert (lock.heldW = false)
      let lock ← st.lockNAcquireReader lock thr
      st.noErrorR thr lk lock
  | some _ =>
      if lock.heldW then pure (st, [.misc thr bugWrHeld])
      else do
        let lock ← st.lockNAcquireReader lock thr
        st.noErrorR thr lk lock

/-- The complaints about an unlock through the wrong type. -/
def unlockKindErrors (thr : Nat) (isRDWR : Bool) (kind : LockKind) :
    List HgError :=
  (if isRDWR ∧ kind ≠ .rdwr then
    [.misc thr "pthread_rwlock_unlock with a pthread_mutex_t* argument "]
  else []) ++
  (if ¬ isRDWR ∧ kind = .rdwr then
    [.misc thr "pthread_mutex_unlock with a pthread_rwlock_t* argument "]
  else [])

/-- The thread has released a lock that it held `n + 1` times. -/
def afterRelease (st : LockTab) (thr lk n : Nat) (lock : Lock) :
    Except Abort LockTab := do
  let thread ← st.getThread thr
  if n > 0 then do
    match lock.heldBy with
    | none => .error .tlAssert
    | some bag =>
        tlAssert (n = bag.count thr)
        tlAssert (lock.kind = .mbRec ∨
          (lock.kind = .rdwr ∧ lock.heldW = false))
        tlAssert (lk ∈ thread.locksetA)
        tlAssert (if lock.heldW then lk ∈ thread.locksetW
          else lk ∉ thread.locksetW)
        pure (st.setLock lk lock)
  else do
    tlAssert (lock.heldBy = none)
    tlAssert (lock.heldW = false)
    pure ((st.setLock lk lock).setThread thr
      ⟨thread.locksetA.erase lk, thread.locksetW.erase lk⟩)

/-- `evhH__pre_thread_releases_lock`. -/
def preThreadReleasesLock (st : LockTab) (thr lockGa : Nat) (isRDWR : Bool) :
    Except Abort (LockTab × List HgError) := do
  tlAssert (st.isSaneThread thr = true)
  match st.mapLocks.lookup lockGa with
  | none => pure (st, [.unlockBogus thr lockGa])
  | some lk => do
      let lock ← st.deref lk
      tlAssert (lock.guestaddr = lockGa)
      tlAssert (st.isSaneLockN lock = true)
      let thread ← st.getThread thr
      let errors := unlockKindErrors thr isRDWR lock.kind
      match lock.heldBy with
      | none => do
          tlAssert (lock.heldW = false)
          tlAssert (lk ∉ thread.locksetA)
          tlAssert (lk ∉ thread.locksetW)
          pure (st, errors ++ [.unlockUnlocked thr lk])
      | some bag =>
          match bag.count thr with
          | 0 => do
              -- whichever of them is the real owner
              tlAssert (bag ≠ [])
              tlAssert (bag.all st.isSaneThread = true)
              tlAssert (thr ∉ bag)
              tlAssert (lk ∉ thread.locksetA)
              tlAssert (lk ∉ thread.locksetW)
              pure (st, errors ++ [.unlockForeign thr bag lk])
          | n + 1 => do
              let lock ← st.lockNRelease lock thr
              let st ← st.afterRelease thr lk n lock
              tlAssert (st.isSaneLockN lock = true)
              pure (st, errors)

/-- A destroy handler acts as if a held lock had been unlocked. -/
def releaseAll (st : LockTab) (lk : Nat) (lock : Lock) (error : HgError) :
    Except Abort (LockTab × Lock × List HgError) :=
  if lock.heldBy.isSome then do
    let st ← st.removeLockFromLocksetsOfAllOwningThreads lk lock
    pure (st, { lock with
      heldBy := none, heldW := false, acquiredAt := false }, [error])
  else .ok (st, lock, [])

/-- The two destroy handlers differ in the kinds they take and in their
messages. -/
def destroyPre (rightKind : LockKind → Bool) (invalid locked : String)
    (st : LockTab) (thr ga : Nat) :
    Except Abort (LockTab × List HgError) := do
  tlAssert (st.isSaneThread thr = true)
  match st.mapLocks.lookup ga with
  | none => pure (st, [.misc thr invalid])
  | some lk => do
      let lock ← st.deref lk
      let errors := if rightKind lock.kind then []
        else [HgError.misc thr invalid]
      tlAssert (st.isSaneLockN lock = true)
      tlAssert (lock.guestaddr = ga)
      let (st, lock, more) ← st.releaseAll lk lock (.misc thr locked)
      tlAssert (lock.heldBy = none)
      tlAssert (st.isSaneLockN lock = true)
      -- map_locks_delete, then del_LockN
      pure ({ st with
        mapLocks := st.mapLocks.erase ga
        heap := st.heap.erase lk }, errors ++ more)

def mutexDestroyPre : LockTab → Nat → Nat →
    Except Abort (LockTab × List HgError) :=
  destroyPre (fun kind => kind == .nonRec || kind == .mbRec)
    "pthread_mutex_destroy with invalid argument"
    "pthread_mutex_destroy of a locked mutex"

def rwlockDestroyPre : LockTab → Nat → Nat →
    Except Abort (LockTab × List HgError) :=
  destroyPre (fun kind => kind == .rdwr)
    "pthread_rwlock_destroy with invalid argument"
    "pthread_rwlock_destroy of a locked mutex"

def mutexInitPost (st : LockTab) (mutex : Nat) (mbRec : Bool)
    (fresh : Nat) : Except Abort (LockTab × List HgError) := do
  let (st, _) ← st.mapLocksLookupOrCreate
    (if mbRec then .mbRec else .nonRec) mutex fresh
  pure (st, [])

def rwlockInitPost (st : LockTab) (rwl fresh : Nat) :
    Except Abort (LockTab × List HgError) := do
  let (st, _) ← st.mapLocksLookupOrCreate .rdwr rwl fresh
  pure (st, [])

def mutexLockPre (st : LockTab) (thr mutex : Nat) (isTryLock : Bool) :
    Except Abort (LockTab × List HgError) := do
  let _ ← st.getThread thr
  match st.mapLocks.lookup mutex with
  | none => pure (st, [])
  | some lk => do
      let lock ← st.deref lk
      pure (st,
        (if lock.kind = .rdwr then
          [.misc thr "pthread_mutex_lock with a pthread_rwlock_t* argument "]
        else []) ++
        (if isTryLock = false ∧ lock.kind ≠ .mbRec ∧ lock.heldW = true ∧
            thr ∈ lock.heldBy.getD [] then
          [.misc thr
            "Attempt to re-lock a non-recursive lock I already hold"]
        else []))

def rwlockLockPre (st : LockTab) (thr rwl : Nat) :
    Except Abort (LockTab × List HgError) := do
  let _ ← st.getThread thr
  match st.mapLocks.lookup rwl with
  | none => pure (st, [])
  | some lk => do
      let lock ← st.deref lk
      pure (st, if lock.kind = .rdwr then [] else [.misc thr
        "pthread_rwlock_\x7brd,rw\x7dlock with a pthread_mutex_t* argument "])

end LockTab

/-- The events of mutexes and reader-writer locks. -/
inductive LockEvent where
  | mutexInitPost (thr mutex : Nat) (mbRec : Bool) (fresh : Nat)
  | mutexDestroyPre (thr mutex : Nat)
  | mutexLockPre (thr mutex : Nat) (isTryLock : Bool)
  | mutexLockPost (thr mutex fresh : Nat)
  | mutexUnlockPre (thr mutex : Nat)
  | mutexUnlockPost (thr mutex : Nat)
  | rwlockInitPost (thr rwl fresh : Nat)
  | rwlockDestroyPre (thr rwl : Nat)
  | rwlockLockPre (thr rwl : Nat) (isW isTryLock : Bool)
  | rwlockLockPost (thr rwl : Nat) (isW : Bool) (fresh : Nat)
  | rwlockUnlockPre (thr rwl : Nat)
  | rwlockUnlockPost (thr rwl : Nat)
  deriving DecidableEq

namespace LockTab

/-- One handler, with the errors that it records. -/
def handle (st : LockTab) : LockEvent → Except Abort (LockTab × List HgError)
  | .mutexInitPost _ mutex mbRec fresh => st.mutexInitPost mutex mbRec fresh
  | .mutexDestroyPre thr mutex => st.mutexDestroyPre thr mutex
  | .mutexLockPre thr mutex isTryLock => st.mutexLockPre thr mutex isTryLock
  | .mutexLockPost thr mutex fresh =>
      st.postThreadWAcquiresLock thr .mbRec mutex fresh
  | .mutexUnlockPre thr mutex => st.preThreadReleasesLock thr mutex false
  | .rwlockInitPost _ rwl fresh => st.rwlockInitPost rwl fresh
  | .rwlockDestroyPre thr rwl => st.rwlockDestroyPre thr rwl
  | .rwlockLockPre thr rwl _ _ => st.rwlockLockPre thr rwl
  | .rwlockLockPost thr rwl isW fresh =>
      if isW then st.postThreadWAcquiresLock thr .rdwr rwl fresh
      else st.postThreadRAcquiresLock thr .rdwr rwl fresh
  | .rwlockUnlockPre thr rwl => st.preThreadReleasesLock thr rwl true
  | .mutexUnlockPost thr _ | .rwlockUnlockPost thr _ => do
      let _ ← st.getThread thr
      pure (st, [])

/-- The threads `thrs`, which hold nothing, before there is any lock. -/
def withThreads (thrs : List Nat) : LockTab where
  mapThreads := thrs.foldl (fun map thr => map.insert thr ⟨∅, ∅⟩) ∅
  mapLocks := ∅
  heap := ∅

/-- The bus lock is made by `initialise_data_structures`. -/
def init (thrs : List Nat) (busLockGa busLock : Nat) : LockTab :=
  { withThreads thrs with
    mapLocks := (withThreads thrs).mapLocks.insert busLockGa busLock
    heap := (withThreads thrs).heap.insert busLock
      ⟨busLockGa, .nonRec, some busLock, false, false, none⟩ }

def handleLogged (acc : LockTab × List (LockEvent × List HgError))
    (event : LockEvent) :
    Except Abort (LockTab × List (LockEvent × List HgError)) := do
  let (st, errors) ← acc.1.handle event
  pure (st, acc.2 ++ [(event, errors)])

/-- A run, with the errors recorded at each event. -/
def run (st : LockTab) (events : List LockEvent) :
    Except Abort (LockTab × List (LockEvent × List HgError)) :=
  events.foldlM handleLogged (st, [])

end LockTab
end HelgrindPlus
