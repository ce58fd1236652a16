import HelgrindPlus.Main.Holding

/-!
# Locking that a threads library allows

`Library` is a correct threads library: it knows who holds each mutex and
reader-writer lock and grants a lock only when it is free, or again to its
holder, or to one more reader.  Events that such a library can grant are
handled without an assertion failure, except for one: a reader's last unlock
while another thread still reads.
-/

namespace HelgrindPlus

open Outcome

/-- A lock of the library; `lk` is the record that the tool keeps for it. -/
structure LibLock where
  lk : Nat
  kind : LockKind
  write : Bool
  holders : List Nat
  deriving DecidableEq

/-- The locks, by their addresses. -/
abbrev Library := Nat → Option LibLock

namespace Library

/-- A new lock; also one with a static initialiser, at its first use. -/
def made (lk : Nat) (kind : LockKind) : LibLock := ⟨lk, kind, false, []⟩

def lockAt (lib : Library) (ga : Nat) (kind : LockKind) (fresh : Nat) :
    LibLock :=
  (lib ga).getD (made fresh kind)

def create (lib : Library) (ga : Nat) (kind : LockKind) (fresh : Nat) :
    Library :=
  Function.update lib ga (some (lib.lockAt ga kind fresh))

def acquired (lock : LibLock) (thr : Nat) (write : Bool) : LibLock :=
  { lock with write := write, holders := thr :: lock.holders }

def released (lock : LibLock) (thr : Nat) : LibLock :=
  { lock with
    write := lock.write && !(lock.holders.erase thr).isEmpty
    holders := lock.holders.erase thr }

def release (lib : Library) (thr ga : Nat) : Library :=
  Function.update lib ga ((lib ga).map fun lock => released lock thr)

/-- What an event that the library has granted does. -/
def after (lib : Library) : LockEvent → Library
  | .mutexInitPost _ ga mbRec fresh =>
      lib.create ga (if mbRec then .mbRec else .nonRec) fresh
  | .rwlockInitPost _ ga fresh => lib.create ga .rdwr fresh
  | .mutexDestroyPre _ ga | .rwlockDestroyPre _ ga =>
      Function.update lib ga none
  | .mutexLockPost thr ga fresh =>
      Function.update lib ga
        (some (acquired (lib.lockAt ga .mbRec fresh) thr true))
  | .rwlockLockPost thr ga isW fresh =>
      Function.update lib ga
        (some (acquired (lib.lockAt ga .rdwr fresh) thr isW))
  | .mutexUnlockPre thr ga | .rwlockUnlockPre thr ga => lib.release thr ga
  | .mutexLockPre _ _ _ | .rwlockLockPre _ _ _ _ | .mutexUnlockPost _ _
  | .rwlockUnlockPost _ _ => lib

/-- `HG_(zalloc)` may return the address for a new record. -/
def Unused (lib : Library) (fresh : Nat) : Prop :=
  ∀ ga lock, lib ga = some lock → lock.lk ≠ fresh

/-- A mutex is granted when it is free, and again to the holder of a
recursive one. -/
def GrantsMutex (thr : Nat) (lock : LibLock) : Prop :=
  lock.kind ≠ .rdwr ∧ (lock.holders = [] ∨
    lock.kind = .mbRec ∧ ∀ other ∈ lock.holders, other = thr)

/-- A reader-writer lock is granted when it is free, and to more readers. -/
def GrantsRwlock (isW : Bool) (lock : LibLock) : Prop :=
  lock.kind = .rdwr ∧
    (lock.holders = [] ∨ isW = false ∧ lock.write = false)

/-- What a correct program and a correct library do. -/
def Legal (thrs : List Nat) (lib : Library) : LockEvent → Prop
  | .mutexInitPost thr ga _ fresh | .rwlockInitPost thr ga fresh =>
      thr ∈ thrs ∧ lib ga = none ∧ lib.Unused fresh
  | .mutexDestroyPre thr ga =>
      thr ∈ thrs ∧ ∃ lock, lib ga = some lock ∧ lock.kind ≠ .rdwr ∧
        lock.holders = []
  | .rwlockDestroyPre thr ga =>
      thr ∈ thrs ∧ ∃ lock, lib ga = some lock ∧ lock.kind = .rdwr ∧
        lock.holders = []
  | .mutexLockPre thr _ _ | .rwlockLockPre thr _ _ _
  | .mutexUnlockPost thr _ | .rwlockUnlockPost thr _ => thr ∈ thrs
  | .mutexLockPost thr ga fresh =>
      thr ∈ thrs ∧ (lib ga = none → lib.Unused fresh) ∧
        GrantsMutex thr (lib.lockAt ga .mbRec fresh)
  | .rwlockLockPost thr ga isW fresh =>
      thr ∈ thrs ∧ (lib ga = none → lib.Unused fresh) ∧
        GrantsRwlock isW (lib.lockAt ga .rdwr fresh)
  | .mutexUnlockPre thr ga =>
      thr ∈ thrs ∧ ∃ lock, lib ga = some lock ∧ lock.kind ≠ .rdwr ∧
        thr ∈ lock.holders
  | .rwlockUnlockPre thr ga =>
      thr ∈ thrs ∧ ∃ lock, lib ga = some lock ∧ lock.kind = .rdwr ∧
        thr ∈ lock.holders

def LegalRun (thrs : List Nat) (lib : Library) : List LockEvent → Prop
  | [] => True
  | event :: rest =>
      Legal thrs lib event ∧ LegalRun thrs (lib.after event) rest

/-- A thread that gives up its last hold of a lock is its only holder. -/
def Clears (lib : Library) : LockEvent → Prop
  | .mutexUnlockPre thr ga | .rwlockUnlockPre thr ga =>
      ∀ lock, lib ga = some lock → lock.holders.count thr = 1 →
        ∀ other ∈ lock.holders, other = thr
  | _ => True

def ClearsRun (lib : Library) : List LockEvent → Prop
  | [] => True
  | event :: rest => lib.Clears event ∧ ClearsRun (lib.after event) rest

/-- The library before the first event knows the lock of the bus. -/
def init (busLockGa busLock : Nat) : Library :=
  Function.update (fun _ => none) busLockGa (some (made busLock .nonRec))

end Library

namespace LockTab

/-- The record of the tool says what the library's lock says. -/
structure Mirrors (lock : Lock) (known : LibLock) : Prop where
  kind : lock.kind = known.kind
  write : lock.heldW = known.write
  holders : lock.holders = known.holders
  alone : known.write = true → ∀ first ∈ known.holders,
    ∀ second ∈ known.holders, first = second

structure Follows (st : LockTab) (thrs : List Nat) (lib : Library) :
    Prop where
  holding : ∃ count, Holding st count
  threads : ∀ thr ∈ thrs, st.isSaneThread thr = true
  absent : ∀ ga, lib ga = none → st.mapLocks.lookup ga = none
  locks : ∀ ga known, lib ga = some known →
    st.mapLocks.lookup ga = some known.lk ∧
      ∃ lock, st.heap.lookup known.lk = some lock ∧ Mirrors lock known

/-- What `is_sane_LockN` checks. -/
theorem isSaneLockN_iff {st : LockTab} {lock : Lock} :
    st.isSaneLockN lock = true ↔ lock.hbso.isSome = true ∧
      match lock.heldBy with
      | none => lock.acquiredAt = false ∧ lock.heldW = false
      | some bag => lock.acquiredAt = true ∧ bag ≠ [] ∧
          (∀ thr ∈ bag, st.isSaneThread thr = true) ∧
          (lock.heldW = true ∧ (lock.kind = .mbRec ∨ bag.length = 1) ∨
            lock.heldW = false ∧ lock.kind = .rdwr) := by
  unfold isSaneLockN isSaneLockBASE
  cases lock.heldBy with
  | none => simp
  | some bag =>
      cases lock.heldW <;> simp [and_assoc]

section Steps

variable {st st' : LockTab} {thrs : List Nat} {lib : Library}
  {thr ga lk fresh : Nat} {lock lock' : Lock} {known : LibLock}

/-- The record of a lock that the library knows. -/
theorem Follows.find (follows : st.Follows thrs lib)
    (isKnown : lib ga = some known) :
    ∃ lock, st.mapLocks.lookup ga = some known.lk ∧
      st.deref known.lk = .ok lock ∧ st.heap.lookup known.lk = some lock ∧
      lock.guestaddr = ga ∧ st.isSaneLockN lock = true ∧
      Mirrors lock known := by
  obtain ⟨mapped, lock, found, mirrors⟩ := follows.locks ga known isKnown
  obtain ⟨count, holding⟩ := follows.holding
  refine ⟨lock, mapped, ?_, found, holding.lookup mapped found,
    holding.sane _ _ found, mirrors⟩
  unfold deref
  rw [found]

theorem getThread_of {thread : Thread}
    (isThread : st.mapThreads.lookup thr = some thread) :
    st.getThread thr = .ok thread := by
  unfold getThread
  rw [isThread]

theorem Follows.thread (follows : st.Follows thrs lib)
    (present : thr ∈ thrs) :
    ∃ thread, st.mapThreads.lookup thr = some thread :=
  Option.isSome_iff_exists.mp (follows.threads thr present)

/-- Records of different locks are different. -/
theorem Follows.lk_injective (follows : st.Follows thrs lib)
    {ga' : Nat} {known' : LibLock} (isKnown : lib ga = some known)
    (isKnown' : lib ga' = some known') (same : known'.lk = known.lk) :
    ga' = ga := by
  obtain ⟨lock, -, -, found, address, -⟩ := follows.find isKnown
  obtain ⟨lock', -, -, found', address', -⟩ := follows.find isKnown'
  rw [same, found] at found'
  cases found'
  exact address'.symm.trans address

/-- The tool keeps following when one lock changes on both sides. -/
theorem Follows.update (follows : st.Follows thrs lib)
    (holding : ∃ count, Holding st' count)
    (threads : ∀ thr, st'.isSaneThread thr = st.isSaneThread thr)
    (maps : st'.mapLocks = st.mapLocks) (isKnown : lib ga = some known)
    {changed : LibLock} (sameRecord : changed.lk = known.lk)
    (here : st'.heap.lookup known.lk = some lock')
    (others : ∀ q ≠ known.lk, st'.heap.lookup q = st.heap.lookup q)
    (mirrors : Mirrors lock' changed) :
    st'.Follows thrs (Function.update lib ga (some changed)) := by
  refine ⟨holding, ?_, ?_, ?_⟩
  · intro thr present
    rw [threads]
    exact follows.threads thr present
  · intro ga' unknown
    rw [maps]
    by_cases same : ga' = ga
    · subst same
      simp at unknown
    · rw [Function.update_of_ne same] at unknown
      exact follows.absent ga' unknown
  · intro ga' known' isKnown'
    rw [maps]
    by_cases same : ga' = ga
    · subst same
      rw [Function.update_self] at isKnown'
      cases isKnown'
      rw [sameRecord]
      exact ⟨(follows.locks ga' known isKnown).1, lock', here, mirrors⟩
    · rw [Function.update_of_ne same] at isKnown'
      have apart : known'.lk ≠ known.lk :=
        fun eq => same (follows.lk_injective isKnown isKnown' eq)
      rw [others _ apart]
      exact follows.locks ga' known' isKnown'

/-- A lock is found, or made at its first use. -/
theorem Follows.locate (follows : st.Follows thrs lib) (kind : LockKind)
    (unused : lib ga = none → lib.Unused fresh) :
    ∃ located, st.mapLocksLookupOrCreate kind ga fresh =
        .ok (located, (lib.lockAt ga kind fresh).lk) ∧
      located.Follows thrs (lib.create ga kind fresh) := by
  unfold Library.create Library.lockAt
  cases isKnown : lib ga with
  | some known =>
      obtain ⟨lock, mapped, isLock, -, address, sane, -⟩ :=
        follows.find isKnown
      refine ⟨st, ?_, ?_⟩
      · simp only [mapLocksLookupOrCreate, mapped, isLock, ok_bind,
          tlAssert_of sane, tlAssert_of address]
        rfl
      · rw [Option.getD_some, ← isKnown, Function.update_eq_self]
        exact follows
  | none =>
      have unmapped := follows.absent ga isKnown
      obtain ⟨count, holding⟩ := follows.holding
      have free : st.heap.lookup fresh = none := by
        cases found : st.heap.lookup fresh with
        | none => rfl
        | some other =>
            exfalso
            have mapped := (holding.mapped _ fresh).mpr ⟨other, found, rfl⟩
            cases isOther : lib other.guestaddr with
            | none =>
                rw [follows.absent _ isOther] at mapped
                cases mapped
            | some known =>
                rw [(follows.locks _ known isOther).1] at mapped
                exact unused isKnown _ known isOther
                  (Option.some.inj mapped)
      have done : st.mapLocksLookupOrCreate kind ga fresh = .ok
          ({ st with
            mapLocks := st.mapLocks.insert ga fresh
            heap := st.heap.insert fresh
              ⟨ga, kind, some fresh, false, false, none⟩ }, fresh) := by
        simp only [mapLocksLookupOrCreate, unmapped, mkLockN, free]
        rfl
      refine ⟨_, done, ⟨count, ?_⟩, follows.threads, ?_, ?_⟩
      · exact (mapLocksLookupOrCreate_eq_ok holding done).1
      · intro ga' unknown
        by_cases same : ga' = ga
        · subst same
          simp at unknown
        · rw [Function.update_of_ne same] at unknown
          dsimp only
          rw [AList.lookup_insert_ne same]
          exact follows.absent ga' unknown
      · intro ga' known' isKnown'
        dsimp only
        by_cases same : ga' = ga
        · subst same
          rw [Function.update_self] at isKnown'
          cases isKnown'
          refine ⟨AList.lookup_insert _, _, AList.lookup_insert _, ?_⟩
          exact ⟨rfl, rfl, rfl, by simp [Library.made]⟩
        · rw [Function.update_of_ne same] at isKnown'
          have apart := unused isKnown ga' known' isKnown'
          rw [AList.lookup_insert_ne same, AList.lookup_insert_ne apart]
          exact follows.locks ga' known' isKnown'

theorem holders_of_none (unheld : lock.heldBy = none) :
    lock.holders = [] := by
  rw [Lock.holders, unheld]
  rfl

theorem holders_of_some {bag : List Nat} (held : lock.heldBy = some bag) :
    lock.holders = bag := by
  rw [Lock.holders, held]
  rfl

/-- A sane lock that nobody holds has no bag. -/
theorem heldBy_of_holders (sane : st.isSaneLockN lock = true)
    (nobody : lock.holders = []) : lock.heldBy = none := by
  have checks := (isSaneLockN_iff.mp sane).2
  cases held : lock.heldBy with
  | none => rfl
  | some bag =>
      rw [held] at checks
      rw [holders_of_some held] at nobody
      exact absurd nobody checks.2.1

private theorem noteAcquired_of_sane (sane : st.isSaneLockN lock = true) :
    noteAcquired lock = .ok { lock with acquiredAt := true } := by
  have checks := (isSaneLockN_iff.mp sane).2
  unfold noteAcquired
  cases held : lock.heldBy with
  | none =>
      rw [held] at checks
      simp only [checks.1, Bool.false_eq_true, if_false]
      rfl
  | some bag =>
      rw [held] at checks
      rw [if_pos checks.1, tlAssert_of (by simp), ok_bind, ← checks.1, ← held]
      rfl

/-- A bag that holds one thread only. -/
theorem sizeUnique_of {bag : List Nat} (some : bag ≠ [])
    (alone : ∀ other ∈ bag, other = thr) : WordBag.sizeUnique bag = 1 := by
  have same : bag.dedup = [thr] := by
    have replicated := List.eq_replicate_of_mem alone
    obtain ⟨n, positive⟩ := Nat.exists_eq_succ_of_ne_zero
      (List.length_eq_zero_iff.not.mpr some)
    rw [replicated, positive]
    exact List.replicate_dedup (Nat.succ_ne_zero n)
  rw [WordBag.sizeUnique, same]
  rfl

theorem anyElement_of {bag : List Nat} (some : bag ≠ [])
    (alone : ∀ other ∈ bag, other = thr) :
    WordBag.anyElement bag = Option.some thr := by
  obtain ⟨first, rest, rfl⟩ := List.exists_cons_of_ne_nil some
  have isFirst : first = thr := alone first (by simp)
  rw [WordBag.anyElement, List.head?_cons, isFirst]

/-- The lock after a write acquisition that is in order. -/
theorem lockNAcquireWriter_of (sane : st.isSaneLockN lock = true)
    (isThread : st.isSaneThread thr = true)
    (granted : lock.holders = [] ∨ lock.kind = .mbRec ∧ lock.heldW = true ∧
      ∀ other ∈ lock.holders, other = thr) :
    st.lockNAcquireWriter lock thr = .ok { lock with
      acquiredAt := true
      heldW := true
      heldBy := some (thr :: lock.holders) } := by
  obtain ⟨hasSO, checks⟩ := isSaneLockN_iff.mp sane
  have result : st.isSaneLockN { lock with
      acquiredAt := true
      heldW := true
      heldBy := some (thr :: lock.holders) } = true := by
    refine isSaneLockN_iff.mpr ⟨hasSO, rfl, by simp, ?_, .inl ⟨rfl, ?_⟩⟩
    · intro other member
      rcases List.mem_cons.mp member with rfl | old
      · exact isThread
      · cases held : lock.heldBy with
        | none =>
            rw [holders_of_none held] at old
            cases old
        | some bag =>
            rw [held] at checks
            rw [holders_of_some held] at old
            exact checks.2.2.1 other old
    · rcases granted with nobody | ⟨recursive, -⟩
      · exact .inr (by rw [nobody]; rfl)
      · exact .inl recursive
  have taken : acquireByKind { lock with acquiredAt := true } thr =
      .ok { lock with
        acquiredAt := true
        heldW := true
        heldBy := some (thr :: lock.holders) } := by
    obtain ⟨address, kind, hbso, acquiredAt, heldW, heldBy⟩ := lock
    cases heldBy with
    | none =>
        obtain ⟨-, rfl⟩ := checks
        cases kind <;> rfl
    | some bag =>
        rcases granted with nobody | ⟨rfl, rfl, alone⟩
        · exact absurd nobody checks.2.1
        · have one : WordBag.sizeUnique bag = 1 := sizeUnique_of checks.2.1 alone
          have all : bag.count thr = bag.length :=
            List.count_eq_length.mpr fun other member =>
              (alone other member).symm
          simp only [acquireByKind, tlAssert_of, one, all, ok_bind]
          rfl
  simp only [lockNAcquireWriter, tlAssert_of sane, tlAssert_of isThread,
    ok_bind, noteAcquired_of_sane sane, taken, tlAssert_of result]
  rfl

/-- The lock after a read acquisition that is in order. -/
theorem lockNAcquireReader_of (sane : st.isSaneLockN lock = true)
    (isThread : st.isSaneThread thr = true) (isRdwr : lock.kind = .rdwr)
    (granted : lock.holders = [] ∨ lock.heldW = false) :
    st.lockNAcquireReader lock thr = .ok { lock with
      acquiredAt := true
      heldW := false
      heldBy := some (thr :: lock.holders) } := by
  obtain ⟨hasSO, checks⟩ := isSaneLockN_iff.mp sane
  have result : st.isSaneLockN { lock with
      acquiredAt := true
      heldW := false
      heldBy := some (thr :: lock.holders) } = true := by
    refine isSaneLockN_iff.mpr ⟨hasSO, rfl, by simp, ?_, .inr ⟨rfl, isRdwr⟩⟩
    intro other member
    rcases List.mem_cons.mp member with rfl | old
    · exact isThread
    · cases held : lock.heldBy with
      | none =>
          rw [holders_of_none held] at old
          cases old
      | some bag =>
          rw [held] at checks
          rw [holders_of_some held] at old
          exact checks.2.2.1 other old
  have noted := noteAcquired_of_sane sane
  unfold lockNAcquireReader
  rw [tlAssert_of sane, tlAssert_of isThread, tlAssert_of isRdwr]
  simp only [ok_bind]
  obtain ⟨address, kind, hbso, acquiredAt, heldW, heldBy⟩ := lock
  cases heldBy with
  | none =>
      rw [tlAssert_of (.inl rfl), ok_bind, noted, ok_bind]
      exact bind_eq_ok.mpr ⟨(), rfl, bind_eq_ok.mpr
        ⟨(), tlAssert_of result, rfl⟩⟩
  | some bag =>
      rcases granted with nobody | isR
      · exact absurd nobody checks.2.1
      · change heldW = false at isR
        subst isR
        rw [tlAssert_of (.inr rfl), ok_bind, noted, ok_bind]
        exact bind_eq_ok.mpr ⟨(), rfl, bind_eq_ok.mpr
          ⟨(), tlAssert_of result, rfl⟩⟩

/-- An acquisition with the bookkeeping of the thread. -/
theorem Follows.acquired (follows : st.Follows thrs lib)
    (isKnown : lib ga = some known) (mirrors : Mirrors lock known)
    {write : Bool} {thread thread' : Thread}
    (isThread : st.mapThreads.lookup thr = some thread)
    (holding : ∃ count, Holding ((st.setLock known.lk { lock with
      acquiredAt := true
      heldW := write
      heldBy := some (thr :: lock.holders) }).setThread thr thread') count)
    (alone : write = true → ∀ other ∈ known.holders, other = thr) :
    ((st.setLock known.lk { lock with
      acquiredAt := true
      heldW := write
      heldBy := some (thr :: lock.holders) }).setThread thr thread').Follows
      thrs (Function.update lib ga
        (some (Library.acquired known thr write))) := by
  have updated := @Updated.of_setThread st known.lk thr { lock with
    acquiredAt := true
    heldW := write
    heldBy := some (thr :: lock.holders) } thread'
  refine follows.update holding (updated.isSaneThread isThread) updated.maps
    isKnown rfl (by rw [updated.heap, if_pos rfl]) ?_ ?_
  · intro q apart
    rw [updated.heap, if_neg apart]
  · refine ⟨mirrors.kind, rfl, ?_, ?_⟩
    · simp [Lock.holders, Library.acquired, ← mirrors.holders]
    · intro isW first isFirst second isSecond
      have only : ∀ other ∈ thr :: known.holders, other = thr := by
        intro other member
        rcases List.mem_cons.mp member with same | old
        · exact same
        · exact alone isW other old
      exact (only first isFirst).trans (only second isSecond).symm

private theorem noErrorW_of {thread : Thread}
    (isThread : st.mapThreads.lookup thr = some thread)
    (sane : st.isSaneLockN lock = true) :
    st.noErrorW thr lk lock = .ok ((st.setLock lk lock).setThread thr
      ⟨insert lk thread.locksetA, insert lk thread.locksetW⟩, []) := by
  have still := isSaneLockN_congr
    ((@Updated.of_setThread st lk thr lock
      ⟨insert lk thread.locksetA, insert lk thread.locksetW⟩).isSaneThread
      isThread) lock
  simp only [noErrorW, getThread_of isThread, ok_bind,
    tlAssert_of (still.trans sane)]
  rfl

private theorem noErrorR_of {thread : Thread}
    (isThread : st.mapThreads.lookup thr = some thread)
    (sane : st.isSaneLockN lock = true) :
    st.noErrorR thr lk lock = .ok ((st.setLock lk lock).setThread thr
      { thread with locksetA := insert lk thread.locksetA }, []) := by
  have still := isSaneLockN_congr
    ((@Updated.of_setThread st lk thr lock
      { thread with locksetA := insert lk thread.locksetA }).isSaneThread
      isThread) lock
  simp only [noErrorR, getThread_of isThread, ok_bind,
    tlAssert_of (still.trans sane)]
  rfl

theorem Follows.postThreadWAcquiresLock (follows : st.Follows thrs lib)
    (kind : LockKind) (present : thr ∈ thrs)
    (unused : lib ga = none → lib.Unused fresh)
    (granted : (lib.lockAt ga kind fresh).holders = [] ∨
      (lib.lockAt ga kind fresh).kind = .mbRec ∧
        ∀ other ∈ (lib.lockAt ga kind fresh).holders, other = thr) :
    ∃ st' errors, st.postThreadWAcquiresLock thr kind ga fresh =
        .ok (st', errors) ∧
      st'.Follows thrs (Function.update lib ga
        (some (Library.acquired (lib.lockAt ga kind fresh) thr true))) := by
  obtain ⟨located, locating, follows₁⟩ := follows.locate kind unused
  have isKnown : lib.create ga kind fresh ga =
      some (lib.lockAt ga kind fresh) := by
    simp [Library.create]
  have overwritten : ∀ lock : LibLock,
      Function.update (lib.create ga kind fresh) ga (some lock) =
        Function.update lib ga (some lock) := by
    intro lock
    simp [Library.create]
  generalize lib.lockAt ga kind fresh = known at locating isKnown granted
  obtain ⟨lock, -, isLock, -, -, sane, mirrors⟩ := follows₁.find isKnown
  obtain ⟨thread, isThread⟩ := follows₁.thread present
  have saneThread := follows₁.threads thr present
  have only : ∀ other ∈ known.holders, other = thr := by
    rcases granted with nobody | ⟨-, alone⟩
    · simp [nobody]
    · exact alone
  have checks := (isSaneLockN_iff.mp sane).2
  have acquires := lockNAcquireWriter_of sane saneThread (by
    rw [mirrors.holders]
    rcases granted with nobody | ⟨recursive, alone⟩
    · exact .inl nobody
    · cases held : lock.heldBy with
      | none => exact .inl (by rw [← mirrors.holders, holders_of_none held])
      | some bag =>
          rw [held, mirrors.kind, recursive] at checks
          exact .inr ⟨mirrors.kind.trans recursive, by simpa using checks.2.2.2,
            alone⟩)
  have noError := @noErrorW_of _ _ known.lk _ _ isThread
    (lockNAcquireWriter_eq_ok acquires).1.sane
  have path : st.postThreadWAcquiresLock thr kind ga fresh =
      located.noErrorW thr known.lk { lock with
        acquiredAt := true
        heldW := true
        heldBy := some (thr :: lock.holders) } := by
    unfold LockTab.postThreadWAcquiresLock
    rw [tlAssert_of (follows.threads thr present), ok_bind, locating,
      ok_bind]
    dsimp only
    rw [isLock, ok_bind, tlAssert_of sane, ok_bind]
    cases held : lock.heldBy with
    | none =>
        rw [held] at checks
        dsimp only
        rw [tlAssert_of checks.2, ok_bind, acquires, ok_bind]
    | some bag =>
        rw [held] at checks
        have holders := mirrors.holders
        rw [holders_of_some held] at holders
        rcases granted with nobody | ⟨recursive, alone⟩
        · exact absurd (holders.trans nobody) checks.2.1
        rw [← holders] at alone
        have isRec : lock.kind = .mbRec := mirrors.kind.trans recursive
        have isW : lock.heldW = true := by
          rw [isRec] at checks
          simpa using checks.2.2.2
        dsimp only
        rw [if_neg (by rw [isW]; decide),
          tlAssert_of (sizeUnique_of checks.2.1 alone), ok_bind,
          if_neg (not_not.mpr (anyElement_of checks.2.1 alone)),
          if_neg (not_not.mpr isRec), acquires, ok_bind]
  rw [noError] at path
  obtain ⟨count, holding⟩ := follows.holding
  have after := postThreadWAcquiresLock_eq_ok holding path
  refine ⟨_, _, path, ?_⟩
  rw [← overwritten]
  exact follows₁.acquired isKnown mirrors isThread ⟨_, after⟩ fun _ => only

theorem Follows.postThreadRAcquiresLock (follows : st.Follows thrs lib)
    (present : thr ∈ thrs) (unused : lib ga = none → lib.Unused fresh)
    (isRdwr : (lib.lockAt ga .rdwr fresh).kind = .rdwr)
    (granted : (lib.lockAt ga .rdwr fresh).holders = [] ∨
      (lib.lockAt ga .rdwr fresh).write = false) :
    ∃ st' errors, st.postThreadRAcquiresLock thr .rdwr ga fresh =
        .ok (st', errors) ∧
      st'.Follows thrs (Function.update lib ga
        (some (Library.acquired (lib.lockAt ga .rdwr fresh) thr
          false))) := by
  obtain ⟨located, locating, follows₁⟩ := follows.locate .rdwr unused
  have isKnown : lib.create ga .rdwr fresh ga =
      some (lib.lockAt ga .rdwr fresh) := by
    simp [Library.create]
  have overwritten : ∀ lock : LibLock,
      Function.update (lib.create ga .rdwr fresh) ga (some lock) =
        Function.update lib ga (some lock) := by
    intro lock
    simp [Library.create]
  generalize lib.lockAt ga .rdwr fresh = known
    at locating isKnown granted isRdwr
  obtain ⟨lock, -, isLock, -, -, sane, mirrors⟩ := follows₁.find isKnown
  obtain ⟨thread, isThread⟩ := follows₁.thread present
  have checks := (isSaneLockN_iff.mp sane).2
  rw [← mirrors.kind] at isRdwr
  rw [← mirrors.holders, ← mirrors.write] at granted
  have acquires := lockNAcquireReader_of sane (follows₁.threads thr present)
    isRdwr granted
  have noError := @noErrorR_of _ _ known.lk _ _ isThread
    (lockNAcquireReader_eq_ok acquires).1.sane
  have path : st.postThreadRAcquiresLock thr .rdwr ga fresh =
      located.noErrorR thr known.lk { lock with
        acquiredAt := true
        heldW := false
        heldBy := some (thr :: lock.holders) } := by
    unfold LockTab.postThreadRAcquiresLock
    rw [tlAssert_of (follows.threads thr present), ok_bind, tlAssert_of rfl,
      ok_bind, locating, ok_bind]
    dsimp only
    rw [isLock, ok_bind, tlAssert_of sane, ok_bind]
    cases held : lock.heldBy with
    | none =>
        rw [held] at checks
        dsimp only
        rw [tlAssert_of checks.2, ok_bind, acquires, ok_bind]
    | some bag =>
        rw [held] at checks
        rw [holders_of_some held] at granted
        have isR := granted.resolve_left checks.2.1
        dsimp only
        rw [if_neg (by rw [isR]; decide), acquires, ok_bind]
  rw [noError] at path
  obtain ⟨count, holding⟩ := follows.holding
  have after := postThreadRAcquiresLock_eq_ok holding path
  refine ⟨_, _, path, ?_⟩
  rw [← overwritten]
  exact follows₁.acquired isKnown mirrors isThread ⟨_, after⟩ (by simp)

/-- The lock after one hold has been given up. -/
def dropped (lock : Lock) (thr : Nat) : Lock :=
  if (lock.holders.erase thr).isEmpty then
    { lock with heldBy := none, heldW := false, acquiredAt := false }
  else { lock with heldBy := some (lock.holders.erase thr) }

private theorem dropped_sane (sane : st.isSaneLockN lock = true)
    (held : thr ∈ lock.holders) :
    st.isSaneLockN (dropped lock thr) = true := by
  obtain ⟨hasSO, checks⟩ := isSaneLockN_iff.mp sane
  unfold dropped
  split
  · exact isSaneLockN_iff.mpr ⟨hasSO, rfl, rfl⟩
  · rename_i left
    cases isHeld : lock.heldBy with
    | none =>
        rw [holders_of_none isHeld] at held
        cases held
    | some bag =>
        rw [isHeld] at checks
        rw [holders_of_some isHeld] at held left ⊢
        obtain ⟨isAcquired, -, threads, mode⟩ := checks
        refine isSaneLockN_iff.mpr ⟨hasSO, isAcquired, by simpa using left,
          fun other member => threads other (List.mem_of_mem_erase member),
          ?_⟩
        rcases mode with ⟨isW, recursive | single⟩ | isR
        · exact .inl ⟨isW, .inl recursive⟩
        · -- A bag of one thread would be empty now.
          exfalso
          obtain ⟨only, rfl⟩ := List.length_eq_one_iff.mp single
          rw [List.mem_singleton] at held
          subst held
          simp at left
        · exact .inr isR

theorem lockNRelease_of (sane : st.isSaneLockN lock = true)
    (isThread : st.isSaneThread thr = true) (held : thr ∈ lock.holders) :
    st.lockNRelease lock thr = .ok (dropped lock thr) := by
  have checks := (isSaneLockN_iff.mp sane).2
  have result := dropped_sane sane held
  cases isHeld : lock.heldBy with
  | none =>
      rw [holders_of_none isHeld] at held
      cases held
  | some bag =>
      rw [isHeld] at checks
      unfold dropped at result ⊢
      rw [holders_of_some isHeld] at held result ⊢
      simp only [lockNRelease, tlAssert_of sane, tlAssert_of isThread,
        isHeld, tlAssert_of held, tlAssert_of checks.1, ok_bind,
        tlAssert_of result]
      rfl

/-- The thread keeps the lock. -/
theorem afterRelease_of_more {thread : Thread} {n : Nat} {bag : List Nat}
    (isThread : st.mapThreads.lookup thr = some thread)
    (isHeld : lock.heldBy = some bag) (positive : 0 < n)
    (left : n = bag.count thr)
    (kinds : lock.kind = .mbRec ∨ lock.kind = .rdwr ∧ lock.heldW = false)
    (inA : lk ∈ thread.locksetA)
    (inW : lk ∈ thread.locksetW ↔ lock.heldW = true) :
    st.afterRelease thr lk n lock = .ok (st.setLock lk lock) := by
  have mode : if lock.heldW then lk ∈ thread.locksetW
      else lk ∉ thread.locksetW := by
    split
    · rename_i isW
      exact inW.mpr isW
    · rename_i isR
      exact fun member => isR (inW.mp member)
  unfold afterRelease
  rw [getThread_of isThread, ok_bind, if_pos positive, isHeld]
  dsimp only
  rw [tlAssert_of left, tlAssert_of kinds, tlAssert_of inA, tlAssert_of mode]
  rfl

/-- The thread gives the lock up. -/
theorem afterRelease_of_last {thread : Thread}
    (isThread : st.mapThreads.lookup thr = some thread)
    (unheld : lock.heldBy = none) (isR : lock.heldW = false) :
    st.afterRelease thr lk 0 lock = .ok ((st.setLock lk lock).setThread thr
      ⟨thread.locksetA.erase lk, thread.locksetW.erase lk⟩) := by
  unfold afterRelease
  rw [getThread_of isThread, ok_bind, if_neg (lt_irrefl 0), tlAssert_of unheld,
    tlAssert_of isR]
  rfl

/-- The assertion that a lock is free after a thread's last unlock. -/
theorem afterRelease_of_shared {thread : Thread}
    (isThread : st.mapThreads.lookup thr = some thread)
    (isHeld : lock.heldBy ≠ none) :
    st.afterRelease thr lk 0 lock = .error .tlAssert := by
  unfold afterRelease
  rw [getThread_of isThread, ok_bind, if_neg (lt_irrefl 0), tlAssert,
    if_neg isHeld]
  rfl

/-- An unlock by a holder is passed on to `afterRelease`. -/
theorem Follows.releases (follows : st.Follows thrs lib)
    (present : thr ∈ thrs) (isKnown : lib ga = some known) {n : Nat}
    (held : known.holders.count thr = n + 1)
    (found : st.heap.lookup known.lk = some lock)
    (sane : st.isSaneLockN lock = true) (mirrors : Mirrors lock known)
    (isRDWR : Bool) :
    st.preThreadReleasesLock thr ga isRDWR = (do
      let st' ← st.afterRelease thr known.lk n (dropped lock thr)
      tlAssert (st'.isSaneLockN (dropped lock thr) = true)
      pure (st', unlockKindErrors thr isRDWR lock.kind)) := by
  obtain ⟨other, mapped, isLock, found', address, -⟩ := follows.find isKnown
  rw [found] at found'
  cases found'
  obtain ⟨thread, isThread⟩ := follows.thread present
  have saneThread := follows.threads thr present
  have count : lock.holders.count thr = n + 1 := by
    rw [mirrors.holders, held]
  have member : thr ∈ lock.holders := by
    rw [← List.count_pos_iff, count]
    exact Nat.succ_pos n
  have releases := lockNRelease_of sane saneThread member
  unfold LockTab.preThreadReleasesLock
  rw [tlAssert_of saneThread, ok_bind, mapped]
  dsimp only
  rw [isLock, ok_bind, tlAssert_of address, ok_bind, tlAssert_of sane,
    ok_bind, getThread_of isThread, ok_bind]
  cases isHeld : lock.heldBy with
  | none =>
      rw [holders_of_none isHeld] at member
      cases member
  | some bag =>
      rw [holders_of_some isHeld] at count
      dsimp only
      rw [count]
      dsimp only
      rw [releases, ok_bind]

theorem Follows.preThreadReleasesLock (follows : st.Follows thrs lib)
    (present : thr ∈ thrs) (isKnown : lib ga = some known)
    (held : thr ∈ known.holders)
    (clears : known.holders.count thr = 1 →
      ∀ other ∈ known.holders, other = thr) (isRDWR : Bool) :
    ∃ st' errors, st.preThreadReleasesLock thr ga isRDWR =
        .ok (st', errors) ∧ st'.Follows thrs (lib.release thr ga) := by
  obtain ⟨lock, mapped, -, found, address, sane, mirrors⟩ :=
    follows.find isKnown
  obtain ⟨thread, isThread⟩ := follows.thread present
  obtain ⟨count, holding⟩ := follows.holding
  obtain ⟨n, isCount⟩ := Nat.exists_eq_succ_of_ne_zero
    (Nat.pos_iff_ne_zero.mp (List.count_pos_iff.mpr held))
  have path := follows.releases present isKnown isCount found sane mirrors
    isRDWR
  have heldHere : thr ∈ lock.holders := by rwa [mirrors.holders]
  have stillSane := dropped_sane sane heldHere
  have mirrored : Mirrors (dropped lock thr)
      (Library.released known thr) := by
    unfold dropped Library.released
    rw [mirrors.holders]
    have fewer : ∀ other ∈ known.holders.erase thr,
        other ∈ known.holders := fun _ => List.mem_of_mem_erase
    split
    · rename_i none
      refine ⟨mirrors.kind, ?_, ?_, ?_⟩
      · simp [none]
      · simpa [Lock.holders] using (List.isEmpty_iff.mp none).symm
      · simp [none]
    · rename_i some
      refine ⟨mirrors.kind, ?_, rfl, ?_⟩
      · simp [some, mirrors.write]
      · intro isW first isFirst second isSecond
        simp only [some, Bool.not_false, Bool.and_true] at isW
        exact mirrors.alone isW first (fewer first isFirst) second
          (fewer second isSecond)
  have finish : ∀ st' thread', Updated st st' known.lk (dropped lock thr) thr
      thread' → st.afterRelease thr known.lk n (dropped lock thr) = .ok st' →
      ∃ st' errors, st.preThreadReleasesLock thr ga isRDWR =
        .ok (st', errors) ∧ st'.Follows thrs (lib.release thr ga) := by
    intro st' thread' updated after
    have threads := updated.isSaneThread isThread
    rw [after, ok_bind, tlAssert_of
      ((isSaneLockN_congr threads _).trans stillSane), ok_bind] at path
    have released : lib.release thr ga = Function.update lib ga
        (some (Library.released known thr)) := by
      simp [Library.release, isKnown]
    refine ⟨st', _, path, ?_⟩
    rw [released]
    refine follows.update ⟨_, preThreadReleasesLock_eq_ok holding path⟩
      threads updated.maps isKnown rfl (by rw [updated.heap, if_pos rfl]) ?_
      mirrored
    intro q apart
    rw [updated.heap, if_neg apart]
  cases n with
  | zero =>
      have nobody : lock.holders.erase thr = [] := by
        rw [mirrors.holders]
        have alone := List.eq_replicate_of_mem (clears isCount)
        have length : known.holders.length = 1 := by
          rw [← List.count_eq_length.mpr fun other member =>
            (clears isCount other member).symm]
          exact isCount
        rw [alone, length]
        simp
      have unheld : (dropped lock thr).heldBy = none := by
        simp [dropped, nobody]
      have isR : (dropped lock thr).heldW = false := by
        simp [dropped, nobody]
      exact finish _ _ .of_setThread (afterRelease_of_last isThread unheld isR)
  | succ n =>
      have left : (lock.holders.erase thr).count thr = n + 1 := by
        rw [List.count_erase_self, mirrors.holders, isCount]
        rfl
      have some : (lock.holders.erase thr).isEmpty = false := by
        rw [List.isEmpty_eq_false_iff]
        intro none
        rw [none] at left
        cases left
      have same : dropped lock thr = { lock with
          heldBy := .some (lock.holders.erase thr) } := by
        simp [dropped, some]
      have checks := (isSaneLockN_iff.mp sane).2
      have kinds : lock.kind = .mbRec ∨
          lock.kind = .rdwr ∧ lock.heldW = false := by
        cases isHeld : lock.heldBy with
        | none =>
            rw [holders_of_none isHeld] at heldHere
            cases heldHere
        | some bag =>
            rw [isHeld] at checks
            rcases checks.2.2.2 with ⟨-, recursive | single⟩ | ⟨isR, isRdwr⟩
            · exact .inl recursive
            · have most := @List.count_le_length _ _ thr lock.holders
              rw [mirrors.holders, isCount, ← mirrors.holders,
                holders_of_some isHeld, single] at most
              omega
            · exact .inr ⟨isRdwr, isR⟩
      refine finish _ _ (.of_setLock isThread) ?_
      rw [same]
      refine afterRelease_of_more isThread rfl (Nat.succ_pos n) left.symm ?_
        ?_ ?_
      · exact kinds
      · exact (holding.locksetA thr thread isThread known.lk).mpr
          ⟨lock, found, heldHere⟩
      · rw [holding.locksetW thr thread isThread known.lk]
        simp [found, heldHere]

/-- The last unlock of a reader while others read. -/
theorem Follows.preThreadReleasesLock_shared
    (follows : st.Follows thrs lib) (present : thr ∈ thrs)
    (isKnown : lib ga = some known) (once : known.holders.count thr = 1)
    {other : Nat} (isHolder : other ∈ known.holders) (apart : other ≠ thr)
    (isRDWR : Bool) :
    st.preThreadReleasesLock thr ga isRDWR = .error .tlAssert := by
  obtain ⟨lock, -, -, found, -, sane, mirrors⟩ := follows.find isKnown
  obtain ⟨thread, isThread⟩ := follows.thread present
  have left : other ∈ lock.holders.erase thr := by
    rw [mirrors.holders]
    exact (List.mem_erase_of_ne apart).mpr isHolder
  have isHeld : (dropped lock thr).heldBy ≠ none := by
    unfold dropped
    rw [if_neg (by simpa using List.ne_nil_of_mem left)]
    simp
  rw [follows.releases present isKnown once found sane mirrors,
    afterRelease_of_shared isThread isHeld]
  rfl

/-- A lock that nobody holds is destroyed. -/
theorem Follows.destroyPre (follows : st.Follows thrs lib)
    (rightKind : LockKind → Bool) (invalid locked : String)
    (present : thr ∈ thrs) (isKnown : lib ga = some known)
    (nobody : known.holders = []) :
    ∃ st' errors, destroyPre rightKind invalid locked st thr ga =
        .ok (st', errors) ∧
      st'.Follows thrs (Function.update lib ga none) := by
  obtain ⟨lock, mapped, isLock, found, address, sane, mirrors⟩ :=
    follows.find isKnown
  obtain ⟨count, holding⟩ := follows.holding
  have unheld := heldBy_of_holders sane (mirrors.holders.trans nobody)
  have free : ∀ error, st.releaseAll known.lk lock error =
      .ok (st, lock, []) := by
    intro error
    unfold releaseAll
    rw [unheld]
    rfl
  have done : ∃ errors, LockTab.destroyPre rightKind invalid locked st thr
      ga = .ok ({ st with
        mapLocks := st.mapLocks.erase ga
        heap := st.heap.erase known.lk }, errors) := by
    unfold LockTab.destroyPre
    rw [tlAssert_of (follows.threads thr present), ok_bind, mapped]
    dsimp only
    rw [isLock, ok_bind, tlAssert_of sane, ok_bind, tlAssert_of address,
      ok_bind, free, ok_bind]
    dsimp only
    rw [tlAssert_of unheld, ok_bind, tlAssert_of sane, ok_bind]
    exact ⟨_, rfl⟩
  obtain ⟨errors, done⟩ := done
  refine ⟨_, errors, done, ⟨_, destroyPre_eq_ok holding done⟩,
    follows.threads, ?_, ?_⟩
  · intro ga' unknown
    dsimp only
    by_cases same : ga' = ga
    · subst same
      exact AList.lookup_erase _ _
    · rw [Function.update_of_ne same] at unknown
      rw [AList.lookup_erase_ne same]
      exact follows.absent ga' unknown
  · intro ga' known' isKnown'
    by_cases same : ga' = ga
    · subst same
      simp at isKnown'
    · rw [Function.update_of_ne same] at isKnown'
      have apart : known'.lk ≠ known.lk :=
        fun eq => same (follows.lk_injective isKnown isKnown' eq)
      dsimp only
      rw [AList.lookup_erase_ne same, AList.lookup_erase_ne apart]
      exact follows.locks ga' known' isKnown'

theorem Follows.initPost (follows : st.Follows thrs lib) (kind : LockKind)
    (unused : lib.Unused fresh) :
    ∃ st' errors, (do
        let (st, _) ← st.mapLocksLookupOrCreate kind ga fresh
        pure (st, ([] : List HgError))) = (.ok (st', errors) :
          Except Abort _) ∧
      st'.Follows thrs (lib.create ga kind fresh) := by
  obtain ⟨located, locating, follows'⟩ :=
    follows.locate kind fun _ => unused
  refine ⟨located, [], ?_, follows'⟩
  rw [locating]
  rfl

theorem Follows.mutexLockPre (follows : st.Follows thrs lib)
    (present : thr ∈ thrs) (isTryLock : Bool) :
    ∃ errors, st.mutexLockPre thr ga isTryLock = .ok (st, errors) := by
  obtain ⟨thread, isThread⟩ := follows.thread present
  unfold LockTab.mutexLockPre
  rw [getThread_of isThread, ok_bind]
  cases isKnown : lib ga with
  | none =>
      rw [follows.absent ga isKnown]
      exact ⟨_, rfl⟩
  | some known =>
      obtain ⟨lock, mapped, isLock, -⟩ := follows.find isKnown
      rw [mapped]
      dsimp only
      rw [isLock, ok_bind]
      exact ⟨_, rfl⟩

theorem Follows.rwlockLockPre (follows : st.Follows thrs lib)
    (present : thr ∈ thrs) :
    ∃ errors, st.rwlockLockPre thr ga = .ok (st, errors) := by
  obtain ⟨thread, isThread⟩ := follows.thread present
  unfold LockTab.rwlockLockPre
  rw [getThread_of isThread, ok_bind]
  cases isKnown : lib ga with
  | none =>
      rw [follows.absent ga isKnown]
      exact ⟨_, rfl⟩
  | some known =>
      obtain ⟨lock, mapped, isLock, -⟩ := follows.find isKnown
      rw [mapped]
      dsimp only
      rw [isLock, ok_bind]
      exact ⟨_, rfl⟩

/-- A legal event, and the one way in which its handler can fail. -/
theorem Follows.handle (follows : st.Follows thrs lib) {event : LockEvent}
    (legal : lib.Legal thrs event) :
    (lib.Clears event → ∃ st' errors,
      st.handle event = .ok (st', errors) ∧
        st'.Follows thrs (lib.after event)) ∧
    (¬ lib.Clears event → st.handle event = .error .tlAssert) := by
  cases event with
  | mutexInitPost thr ga mbRec fresh =>
      refine ⟨fun _ => ?_, fun wrong => absurd trivial wrong⟩
      exact follows.initPost _ legal.2.2
  | rwlockInitPost thr ga fresh =>
      refine ⟨fun _ => ?_, fun wrong => absurd trivial wrong⟩
      exact follows.initPost _ legal.2.2
  | mutexDestroyPre thr ga =>
      refine ⟨fun _ => ?_, fun wrong => absurd trivial wrong⟩
      obtain ⟨present, known, isKnown, -, nobody⟩ := legal
      change ∃ st' errors, LockTab.mutexDestroyPre st thr ga =
        .ok (st', errors) ∧ st'.Follows thrs (Function.update lib ga none)
      unfold LockTab.mutexDestroyPre
      exact follows.destroyPre _ _ _ present isKnown nobody
  | rwlockDestroyPre thr ga =>
      refine ⟨fun _ => ?_, fun wrong => absurd trivial wrong⟩
      obtain ⟨present, known, isKnown, -, nobody⟩ := legal
      change ∃ st' errors, LockTab.rwlockDestroyPre st thr ga =
        .ok (st', errors) ∧ st'.Follows thrs (Function.update lib ga none)
      unfold LockTab.rwlockDestroyPre
      exact follows.destroyPre _ _ _ present isKnown nobody
  | mutexLockPre thr ga isTryLock =>
      refine ⟨fun _ => ?_, fun wrong => absurd trivial wrong⟩
      obtain ⟨errors, done⟩ := follows.mutexLockPre legal isTryLock
      exact ⟨st, errors, done, follows⟩
  | rwlockLockPre thr ga isW isTryLock =>
      refine ⟨fun _ => ?_, fun wrong => absurd trivial wrong⟩
      obtain ⟨errors, done⟩ := follows.rwlockLockPre legal
      exact ⟨st, errors, done, follows⟩
  | mutexUnlockPost thr ga | rwlockUnlockPost thr ga =>
      refine ⟨fun _ => ?_, fun wrong => absurd trivial wrong⟩
      obtain ⟨thread, isThread⟩ := follows.thread legal
      refine ⟨st, [], ?_, follows⟩
      change (st.getThread thr >>= fun _ => pure (st, [])) = _
      rw [getThread_of isThread]
      rfl
  | mutexLockPost thr ga fresh =>
      refine ⟨fun _ => ?_, fun wrong => absurd trivial wrong⟩
      obtain ⟨present, unused, -, granted⟩ := legal
      exact follows.postThreadWAcquiresLock .mbRec present unused granted
  | rwlockLockPost thr ga isW fresh =>
      refine ⟨fun _ => ?_, fun wrong => absurd trivial wrong⟩
      obtain ⟨present, unused, isRdwr, granted⟩ := legal
      cases isW with
      | true =>
          apply follows.postThreadWAcquiresLock .rdwr present unused
          rcases granted with nobody | ⟨wrong, -⟩
          · exact .inl nobody
          · cases wrong
      | false =>
          apply follows.postThreadRAcquiresLock present unused isRdwr
          exact granted.imp id fun both => both.2
  | mutexUnlockPre thr ga | rwlockUnlockPre thr ga =>
      obtain ⟨present, known, isKnown, -, held⟩ := legal
      constructor
      · intro clears
        exact follows.preThreadReleasesLock present isKnown held
          (clears known isKnown) _
      · intro shared
        simp only [Library.Clears, isKnown, Option.some.injEq,
          forall_eq', not_forall] at shared
        obtain ⟨once, other, isHolder, apart⟩ := shared
        exact follows.preThreadReleasesLock_shared present isKnown once
          isHolder apart _

end Steps

section Runs

variable {st : LockTab} {thrs : List Nat} {lib : Library}

private theorem isSome_lookup_foldl_insert {map : AList (fun _ : Nat => Thread)}
    {thr : Nat} (present : thr ∈ thrs ∨ (map.lookup thr).isSome = true) :
    ((thrs.foldl (fun map thr => map.insert thr ⟨∅, ∅⟩) map).lookup
      thr).isSome = true := by
  induction thrs generalizing map with
  | nil => simpa using present
  | cons first rest induction =>
      apply induction
      by_cases same : thr = first
      · subst same
        exact .inr (by simp)
      · rw [AList.lookup_insert_ne same]
        simpa [same] using present

theorem Follows.init (thrs : List Nat) (busLockGa busLock : Nat) :
    (LockTab.init thrs busLockGa busLock).Follows thrs
      (Library.init busLockGa busLock) := by
  refine ⟨⟨_, Holding.init thrs busLockGa busLock⟩, ?_, ?_, ?_⟩
  · intro thr present
    exact isSome_lookup_foldl_insert (.inl present)
  · intro ga unknown
    have apart : ga ≠ busLockGa := by
      rintro rfl
      simp [Library.init] at unknown
    exact AList.lookup_insert_ne apart
  · intro ga known isKnown
    by_cases same : ga = busLockGa
    · subst same
      simp only [Library.init, Function.update_self,
        Option.some.injEq] at isKnown
      subst isKnown
      refine ⟨AList.lookup_insert _, _, AList.lookup_insert _, ?_⟩
      exact ⟨rfl, rfl, rfl, by simp [Library.made]⟩
    · simp [Library.init, same] at isKnown

theorem Follows.run (follows : st.Follows thrs lib)
    {events : List LockEvent} (legal : lib.LegalRun thrs events)
    (log : List (LockEvent × List HgError)) :
    (lib.ClearsRun events → ∃ result,
      events.foldlM handleLogged (st, log) = .ok result) ∧
    (¬ lib.ClearsRun events →
      events.foldlM handleLogged (st, log) = .error .tlAssert) := by
  induction events generalizing st lib log with
  | nil => exact ⟨fun _ => ⟨_, rfl⟩, fun wrong => absurd trivial wrong⟩
  | cons event rest induction =>
      obtain ⟨first, later⟩ := legal
      obtain ⟨returns, fails⟩ := follows.handle first
      rw [List.foldlM_cons]
      by_cases clears : lib.Clears event
      · obtain ⟨st', errors, handled, follows'⟩ := returns clears
        have logged : handleLogged (st, log) event =
            .ok (st', log ++ [(event, errors)]) := by
          simp only [handleLogged, handled, ok_bind]
          rfl
        rw [logged, ok_bind]
        obtain ⟨goes, stops⟩ := induction follows' later
          (log ++ [(event, errors)])
        exact ⟨fun all => goes all.2,
          fun wrong => stops fun rest => wrong ⟨clears, rest⟩⟩
      · have failed : handleLogged (st, log) event = .error .tlAssert := by
          simp only [handleLogged, fails clears]
          rfl
        rw [failed]
        exact ⟨fun all => absurd all.1 clears, fun _ => rfl⟩

/-- Legal locking is handled without an assertion failure exactly if no
thread makes its last unlock of a lock that another thread holds. -/
theorem legal_locking_returns_iff {thrs : List Nat}
    {busLockGa busLock : Nat} {events : List LockEvent}
    (legal : (Library.init busLockGa busLock).LegalRun thrs events) :
    ((∃ result, (LockTab.init thrs busLockGa busLock).run events =
        .ok result) ↔
      (Library.init busLockGa busLock).ClearsRun events) ∧
    ((LockTab.init thrs busLockGa busLock).run events = .error .tlAssert ↔
      ¬ (Library.init busLockGa busLock).ClearsRun events) := by
  obtain ⟨returns, fails⟩ :=
    (Follows.init thrs busLockGa busLock).run legal []
  have exclusive : ∀ result, (LockTab.init thrs busLockGa busLock).run
      events = .ok result → (Library.init busLockGa busLock).ClearsRun
        events := by
    intro result returned
    by_contra shared
    have failed := fails shared
    unfold LockTab.run at returned
    rw [failed] at returned
    cases returned
  refine ⟨⟨fun ⟨result, returned⟩ => exclusive result returned, returns⟩,
    ⟨?_, fails⟩⟩
  intro failed clears
  obtain ⟨result, returned⟩ := returns clears
  unfold LockTab.run at failed
  rw [failed] at returned
  cases returned

private theorem unused_init {busLockGa busLock fresh : Nat}
    (apart : busLock ≠ fresh) :
    (Library.init busLockGa busLock).Unused fresh := by
  intro ga known isKnown
  by_cases same : ga = busLockGa
  · subst same
    simp only [Library.init, Function.update_self,
      Option.some.injEq] at isKnown
    subst isKnown
    exact apart
  · simp [Library.init, same] at isKnown

/-- A thread that read-locks twice, and unlocks twice. -/
theorem legal_locking_returns_iff_twice :
    (Library.init 0 10).LegalRun [1, 2] [.rwlockLockPost 1 16 false 11,
      .rwlockLockPost 1 16 false 12, .rwlockUnlockPre 1 16,
      .rwlockUnlockPre 1 16] ∧
    ∃ result, (LockTab.init [1, 2] 0 10).run [.rwlockLockPost 1 16 false 11,
      .rwlockLockPost 1 16 false 12, .rwlockUnlockPre 1 16,
      .rwlockUnlockPre 1 16] = .ok result := by
  have legal : (Library.init 0 10).LegalRun [1, 2]
      [.rwlockLockPost 1 16 false 11, .rwlockLockPost 1 16 false 12,
        .rwlockUnlockPre 1 16, .rwlockUnlockPre 1 16] := by
    refine ⟨⟨by simp, fun _ => unused_init (by decide), by decide,
      .inl (by decide)⟩, ⟨by simp, fun unknown => absurd unknown (by decide),
      by decide, .inr (by decide)⟩, ⟨by simp, _, rfl, by decide, by decide⟩,
      ⟨by simp, _, rfl, by decide, by decide⟩, trivial⟩
  refine ⟨legal, (legal_locking_returns_iff legal).1.mpr
    ⟨trivial, trivial, ?_, ?_, trivial⟩⟩
  · intro known isKnown once
    cases isKnown
    exact absurd once (by decide)
  · intro known isKnown _
    cases isKnown
    decide

/-- Two readers, one of which unlocks. -/
theorem reader_unlock_fails :
    (Library.init 0 10).LegalRun [1, 2] [.rwlockLockPost 1 16 false 11,
      .rwlockLockPost 2 16 false 12, .rwlockUnlockPre 1 16] ∧
    ((LockTab.init [1, 2] 0 10).run [.rwlockLockPost 1 16 false 11,
      .rwlockLockPost 2 16 false 12, .rwlockUnlockPre 1 16]).map
      (fun _ => ()) = .error .tlAssert := by
  refine ⟨⟨⟨by simp, fun _ => unused_init (by decide), by decide,
    .inl (by decide)⟩, ⟨by simp,
    fun unknown => absurd unknown (by decide), by decide, .inr (by decide)⟩,
    ⟨by simp, _, rfl, by decide, by decide⟩, trivial⟩, by decide⟩

end Runs
end LockTab
end HelgrindPlus
