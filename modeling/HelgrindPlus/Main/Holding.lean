import HelgrindPlus.Main.Locks

/-!
# Who holds what

The bag in a lock and the two sets in a thread say the same, in every state
that the handlers reach, and the bag counts the acquisitions that were
accepted.  A handler is a sequence of four changes (a lock is created,
acquired, released or destroyed), each of which keeps the invariant.
-/

namespace HelgrindPlus

open Outcome

def Lock.holders (lock : Lock) : List Nat := lock.heldBy.getD []

namespace LockTab

/-- How often a thread holds the lock at an address. -/
abbrev Tally := Nat → Nat → Nat

def Tally.set (count : Tally) (thr ga n : Nat) : Tally :=
  fun other address =>
    if other = thr ∧ address = ga then n else count other address

/-- Locks and threads agree, and the bags hold what `count` says. -/
structure Holding (st : LockTab) (count : Tally) : Prop where
  locksetA : ∀ (thr : Nat) (thread : Thread),
    st.mapThreads.lookup thr = some thread → ∀ lk, lk ∈ thread.locksetA ↔
      ∃ lock, st.heap.lookup lk = some lock ∧ thr ∈ lock.holders
  locksetW : ∀ (thr : Nat) (thread : Thread),
    st.mapThreads.lookup thr = some thread → ∀ lk, lk ∈ thread.locksetW ↔
      ∃ lock, st.heap.lookup lk = some lock ∧ thr ∈ lock.holders ∧
        lock.heldW = true
  sane : ∀ (lk : Nat) (lock : Lock), st.heap.lookup lk = some lock →
    st.isSaneLockN lock = true
  mapped : ∀ ga lk, st.mapLocks.lookup ga = some lk ↔
    ∃ lock, st.heap.lookup lk = some lock ∧ lock.guestaddr = ga
  counts : ∀ (lk : Nat) (lock : Lock), st.heap.lookup lk = some lock →
    ∀ thr, lock.holders.count thr = count thr lock.guestaddr
  absent : ∀ ga, st.mapLocks.lookup ga = none → ∀ thr, count thr ga = 0

theorem isSaneLockN_congr {st st' : LockTab}
    (same : ∀ thr, st'.isSaneThread thr = st.isSaneThread thr)
    (lock : Lock) : st'.isSaneLockN lock = st.isSaneLockN lock := by
  have threads : st'.isSaneThread = st.isSaneThread := funext same
  simp only [isSaneLockN, isSaneLockBASE, threads]

/-- The state after a change to one lock and one thread. -/
structure Updated (st st' : LockTab) (lk : Nat) (lock : Lock) (thr : Nat)
    (thread : Thread) : Prop where
  heap : ∀ q, st'.heap.lookup q =
    if q = lk then some lock else st.heap.lookup q
  threads : ∀ t, st'.mapThreads.lookup t =
    if t = thr then some thread else st.mapThreads.lookup t
  maps : st'.mapLocks = st.mapLocks

section Updates

variable {st st' : LockTab} {count : Tally} {lk thr : Nat}
  {lock lock' : Lock} {thread thread' : Thread}

theorem Updated.of_setLock (known : st.mapThreads.lookup thr = some thread) :
    Updated st (st.setLock lk lock) lk lock thr thread := by
  refine ⟨?_, ?_, rfl⟩
  · intro q
    by_cases same : q = lk
    · subst same
      simp [setLock]
    · simp [setLock, same]
  · intro t
    split
    · rename_i same
      rw [same]
      exact known
    · rfl

theorem Updated.of_setThread :
    Updated st ((st.setLock lk lock).setThread thr thread) lk lock thr
      thread := by
  refine ⟨?_, ?_, rfl⟩
  · intro q
    by_cases same : q = lk
    · subst same
      simp [setLock, setThread]
    · simp [setLock, setThread, same]
  · intro t
    by_cases same : t = thr
    · subst same
      simp [setLock, setThread]
    · simp [setLock, setThread, same]

theorem Updated.isSaneThread (updated : Updated st st' lk lock thr thread')
    (known : st.mapThreads.lookup thr = some thread) (t : Nat) :
    st'.isSaneThread t = st.isSaneThread t := by
  simp only [LockTab.isSaneThread, updated.threads t]
  split
  · rename_i same
    rw [same, known]
    rfl
  · rfl

/-- A lock changes hands between one thread and nobody; the other holders
keep it in the same mode. -/
theorem Holding.update (holding : Holding st count)
    (updated : Updated st st' lk lock' thr thread')
    (found : st.heap.lookup lk = some lock)
    (known : st.mapThreads.lookup thr = some thread)
    (address : lock'.guestaddr = lock.guestaddr)
    (sane : st.isSaneLockN lock' = true)
    (others : ∀ other ≠ thr,
      lock'.holders.count other = lock.holders.count other)
    (mode : ∀ other ≠ thr, other ∈ lock.holders → lock'.heldW = lock.heldW)
    (otherA : ∀ q ≠ lk, q ∈ thread'.locksetA ↔ q ∈ thread.locksetA)
    (otherW : ∀ q ≠ lk, q ∈ thread'.locksetW ↔ q ∈ thread.locksetW)
    (ownA : lk ∈ thread'.locksetA ↔ thr ∈ lock'.holders)
    (ownW : lk ∈ thread'.locksetW ↔ thr ∈ lock'.holders ∧
      lock'.heldW = true) :
    Holding st' (count.set thr lock.guestaddr (lock'.holders.count thr)) := by
  have member : ∀ other ≠ thr,
      (other ∈ lock'.holders ↔ other ∈ lock.holders) := by
    intro other different
    rw [← List.count_pos_iff, ← List.count_pos_iff, others other different]
  have isMapped := (holding.mapped lock.guestaddr lk).mpr ⟨lock, found, rfl⟩
  constructor
  · intro t th isThread q
    rw [updated.threads] at isThread
    by_cases same : q = lk
    · subst same
      simp only [updated.heap, if_true, Option.some.injEq]
      split at isThread
      · rename_i isThr
        cases isThread
        rw [isThr, ownA]
        simp
      · rename_i isOther
        rw [holding.locksetA t th isThread q, found]
        simp [member t isOther]
    · simp only [updated.heap, if_neg same]
      split at isThread
      · rename_i isThr
        cases isThread
        rw [otherA q same, isThr]
        exact holding.locksetA thr thread known q
      · exact holding.locksetA t th isThread q
  · intro t th isThread q
    rw [updated.threads] at isThread
    by_cases same : q = lk
    · subst same
      simp only [updated.heap, if_true, Option.some.injEq]
      split at isThread
      · rename_i isThr
        cases isThread
        rw [isThr, ownW]
        simp
      · rename_i isOther
        rw [holding.locksetW t th isThread q, found]
        have sameMode := mode t isOther
        simp only [Option.some.injEq, exists_eq_left', member t isOther]
        constructor
        · intro ⟨held, inW⟩
          exact ⟨held, (sameMode held).trans inW⟩
        · intro ⟨held, inW⟩
          exact ⟨held, (sameMode held).symm.trans inW⟩
    · simp only [updated.heap, if_neg same]
      split at isThread
      · rename_i isThr
        cases isThread
        rw [otherW q same, isThr]
        exact holding.locksetW thr thread known q
      · exact holding.locksetW t th isThread q
  · intro q other isLock
    rw [isSaneLockN_congr (updated.isSaneThread known)]
    rw [updated.heap] at isLock
    split at isLock
    · cases isLock
      exact sane
    · exact holding.sane q other isLock
  · intro ga q
    rw [updated.maps, holding.mapped, updated.heap]
    by_cases same : q = lk
    · subst same
      simp [found, address]
    · simp only [if_neg same]
  · intro q other isLock t
    rw [updated.heap] at isLock
    unfold Tally.set
    split at isLock
    · cases isLock
      rw [address]
      by_cases isThr : t = thr
      · simp [isThr]
      · rw [if_neg (fun both => isThr both.1), others t isThr]
        exact holding.counts lk lock found t
    · rename_i different
      have apart : other.guestaddr ≠ lock.guestaddr := by
        intro same
        have again := (holding.mapped _ q).mpr ⟨other, isLock, same⟩
        rw [isMapped] at again
        cases again
        exact different rfl
      rw [if_neg (fun both => apart both.2)]
      exact holding.counts q other isLock t
  · intro ga unmapped t
    rw [updated.maps] at unmapped
    have apart : ga ≠ lock.guestaddr := by
      intro same
      rw [same, isMapped] at unmapped
      cases unmapped
    unfold Tally.set
    rw [if_neg (fun both => apart both.2)]
    exact holding.absent ga unmapped t

private theorem noteAcquired_eq_ok (done : noteAcquired lock = .ok lock') :
    lock' = { lock with acquiredAt := true } := by
  unfold noteAcquired at done
  split at done
  · rename_i already
    obtain ⟨-, -, same⟩ := bind_eq_ok.mp done
    cases same
    rw [← already]
  · obtain ⟨-, -, same⟩ := bind_eq_ok.mp done
    cases same
    rfl

theorem acquireUnheld_eq_ok (done : acquireUnheld lock thr = .ok lock') :
    lock.heldBy = none ∧
      lock' = { lock with heldW := true, heldBy := some [thr] } := by
  obtain ⟨_, unheld, done⟩ := bind_eq_ok.mp done
  obtain ⟨-, -, same⟩ := bind_eq_ok.mp done
  cases same
  exact ⟨tlAssert_eq_ok unheld, rfl⟩

/-- What an acquisition does to a lock. -/
structure Acquired (st : LockTab) (thr : Nat) (lock lock' : Lock) :
    Prop where
  address : lock'.guestaddr = lock.guestaddr
  holders : lock'.holders = thr :: lock.holders
  mode : lock.holders = [] ∨ lock'.heldW = lock.heldW
  sane : st.isSaneLockN lock' = true

theorem lockNAcquireWriter_eq_ok
    (done : st.lockNAcquireWriter lock thr = .ok lock') :
    Acquired st thr lock lock' ∧ lock'.heldW = true := by
  obtain ⟨-, -, done⟩ := bind_eq_ok.mp done
  obtain ⟨-, -, done⟩ := bind_eq_ok.mp done
  obtain ⟨noted, isNoted, done⟩ := bind_eq_ok.mp done
  obtain ⟨result, taken, done⟩ := bind_eq_ok.mp done
  obtain ⟨_, sane, same⟩ := bind_eq_ok.mp done
  cases same
  cases noteAcquired_eq_ok isNoted
  have first : ∀ {result : Lock}, acquireUnheld
      { lock with acquiredAt := true } thr = .ok result →
      st.isSaneLockN result = true →
      Acquired st thr lock result ∧ result.heldW = true := by
    intro result taken sane
    obtain ⟨unheld, rfl⟩ := acquireUnheld_eq_ok taken
    dsimp only at unheld
    refine ⟨⟨rfl, ?_, .inl ?_, sane⟩, rfl⟩ <;> simp [Lock.holders, unheld]
  unfold acquireByKind at taken
  split at taken
  · exact first taken (tlAssert_eq_ok sane)
  · exact first taken (tlAssert_eq_ok sane)
  · rename_i bag _ held
    obtain ⟨_, inW, taken⟩ := bind_eq_ok.mp taken
    obtain ⟨-, -, taken⟩ := bind_eq_ok.mp taken
    obtain ⟨-, -, same⟩ := bind_eq_ok.mp taken
    cases same
    have isW := tlAssert_eq_ok inW
    have holders : lock.holders = bag := by
      rw [Lock.holders, show lock.heldBy = some bag from held]
      rfl
    refine ⟨⟨rfl, ?_, .inr rfl, tlAssert_eq_ok sane⟩, isW⟩
    rw [holders]
    rfl
  · obtain ⟨-, -, taken⟩ := bind_eq_ok.mp taken
    exact first taken (tlAssert_eq_ok sane)

theorem lockNAcquireReader_eq_ok
    (done : st.lockNAcquireReader lock thr = .ok lock') :
    Acquired st thr lock lock' ∧ lock'.heldW = false := by
  obtain ⟨-, -, done⟩ := bind_eq_ok.mp done
  obtain ⟨-, -, done⟩ := bind_eq_ok.mp done
  obtain ⟨-, -, done⟩ := bind_eq_ok.mp done
  obtain ⟨-, -, done⟩ := bind_eq_ok.mp done
  obtain ⟨noted, isNoted, done⟩ := bind_eq_ok.mp done
  cases noteAcquired_eq_ok isNoted
  obtain ⟨_, inR, done⟩ := bind_eq_ok.mp done
  obtain ⟨_, sane, same⟩ := bind_eq_ok.mp done
  cases same
  have isR := tlAssert_eq_ok inR
  refine ⟨⟨?_, ?_, ?_, tlAssert_eq_ok sane⟩, isR⟩
  all_goals cases held : lock.heldBy <;> simp [Lock.holders, held]

theorem lockNRelease_eq_ok (done : st.lockNRelease lock thr = .ok lock') :
    lock'.guestaddr = lock.guestaddr ∧
      lock'.holders = lock.holders.erase thr ∧
      (lock'.holders = [] ∨ lock'.heldW = lock.heldW) ∧
      (lock'.heldBy = none → lock'.heldW = false) ∧
      st.isSaneLockN lock' = true := by
  obtain ⟨-, -, done⟩ := bind_eq_ok.mp done
  obtain ⟨-, -, done⟩ := bind_eq_ok.mp done
  split at done
  · cases done
  · rename_i bag held
    obtain ⟨-, -, done⟩ := bind_eq_ok.mp done
    obtain ⟨-, -, done⟩ := bind_eq_ok.mp done
    obtain ⟨_, sane, same⟩ := bind_eq_ok.mp done
    cases same
    refine ⟨?_, ?_, ?_, ?_, tlAssert_eq_ok sane⟩
    all_goals
      cases left : bag.erase thr <;> simp [Lock.holders, held, left]

theorem getThread_eq_ok (done : st.getThread thr = .ok thread) :
    st.mapThreads.lookup thr = some thread := by
  unfold getThread at done
  split at done
  · rename_i found
    cases done
    exact found
  · cases done

theorem deref_eq_ok (done : st.deref lk = .ok lock) :
    st.heap.lookup lk = some lock := by
  unfold deref at done
  split at done
  · rename_i found
    cases done
    exact found
  · cases done

/-- A new lock is held by nobody. -/
theorem Holding.create (holding : Holding st count) {ga fresh : Nat}
    (unmapped : st.mapLocks.lookup ga = none)
    (unused : st.heap.lookup fresh = none) (unheld : lock.heldBy = none)
    (address : lock.guestaddr = ga) (sane : st.isSaneLockN lock = true) :
    Holding { st with
      mapLocks := st.mapLocks.insert ga fresh
      heap := st.heap.insert fresh lock } count := by
  have nobody : lock.holders = [] := by simp [Lock.holders, unheld]
  have heap : ∀ q, (st.heap.insert fresh lock).lookup q =
      if q = fresh then some lock else st.heap.lookup q := by
    intro q
    by_cases same : q = fresh
    · subst same
      simp
    · simp [same]
  constructor
  · intro t th isThread q
    rw [holding.locksetA t th isThread q]
    dsimp only
    rw [heap]
    by_cases same : q = fresh
    · subst same
      simp [unused, nobody]
    · simp only [if_neg same]
  · intro t th isThread q
    rw [holding.locksetW t th isThread q]
    dsimp only
    rw [heap]
    by_cases same : q = fresh
    · subst same
      simp [unused, nobody]
    · simp only [if_neg same]
  · intro q other isLock
    dsimp only at isLock
    rw [heap] at isLock
    change st.isSaneLockN other = true
    split at isLock
    · cases isLock
      exact sane
    · exact holding.sane q other isLock
  · intro a q
    dsimp only
    rw [heap]
    by_cases sameGa : a = ga
    · subst sameGa
      rw [AList.lookup_insert]
      by_cases same : q = fresh
      · subst same
        simp [address]
      · simp only [if_neg same, Option.some.injEq]
        have none : ¬ ∃ other, st.heap.lookup q = some other ∧
            other.guestaddr = a := by
          rw [← holding.mapped, unmapped]
          simp
        simp only [none, iff_false]
        exact fun eq => same eq.symm
    · rw [AList.lookup_insert_ne sameGa, holding.mapped]
      by_cases same : q = fresh
      · subst same
        simp [unused, address, Ne.symm sameGa]
      · simp only [if_neg same]
  · intro q other isLock t
    dsimp only at isLock
    rw [heap] at isLock
    split at isLock
    · cases isLock
      rw [nobody, address]
      exact (holding.absent ga unmapped t).symm
    · exact holding.counts q other isLock t
  · intro a unmappedA t
    dsimp only at unmappedA
    by_cases sameGa : a = ga
    · subst sameGa
      rw [AList.lookup_insert] at unmappedA
      cases unmappedA
    · rw [AList.lookup_insert_ne sameGa] at unmappedA
      exact holding.absent a unmappedA t

theorem mapLocksLookupOrCreate_eq_ok (holding : Holding st count)
    {lkk : LockKind} {ga fresh : Nat}
    (done : st.mapLocksLookupOrCreate lkk ga fresh = .ok (st', lk)) :
    Holding st' count ∧ st'.mapLocks.lookup ga = some lk := by
  unfold mapLocksLookupOrCreate at done
  split at done
  · rename_i unmapped
    obtain ⟨made, make, same⟩ := bind_eq_ok.mp done
    cases same
    unfold mkLockN at make
    split at make
    · cases make
    · rename_i unused
      obtain ⟨_, sane, same⟩ := bind_eq_ok.mp make
      cases same
      exact ⟨holding.create unmapped unused rfl rfl (tlAssert_eq_ok sane),
        AList.lookup_insert _⟩
  · rename_i mapped
    obtain ⟨_, -, done⟩ := bind_eq_ok.mp done
    obtain ⟨-, -, done⟩ := bind_eq_ok.mp done
    obtain ⟨-, -, same⟩ := bind_eq_ok.mp done
    cases same
    exact ⟨holding, mapped⟩

/-- The lock at a mapped address. -/
theorem Holding.lookup (holding : Holding st count) {ga : Nat}
    (mapped : st.mapLocks.lookup ga = some lk)
    (found : st.heap.lookup lk = some lock) : lock.guestaddr = ga := by
  obtain ⟨other, isLock, address⟩ := (holding.mapped ga lk).mp mapped
  rw [found] at isLock
  cases isLock
  exact address

theorem Acquired.counted (acquired : Acquired st thr lock lock')
    (holding : Holding st count) (found : st.heap.lookup lk = some lock) :
    lock'.holders.count thr = count thr lock.guestaddr + 1 := by
  rw [acquired.holders, List.count_cons_self, holding.counts lk lock found]

theorem Acquired.others (acquired : Acquired st thr lock lock') {other : Nat}
    (different : other ≠ thr) :
    lock'.holders.count other = lock.holders.count other := by
  rw [acquired.holders, List.count_cons_of_ne (Ne.symm different)]

theorem Acquired.sameMode (acquired : Acquired st thr lock lock')
    {other : Nat} (held : other ∈ lock.holders) :
    lock'.heldW = lock.heldW := by
  rcases acquired.mode with nobody | same
  · rw [nobody] at held
    cases held
  · exact same

private theorem noErrorW_eq_ok (holding : Holding st count)
    (found : st.heap.lookup lk = some lock)
    (acquired : Acquired st thr lock lock') (isW : lock'.heldW = true)
    {errors : List HgError}
    (done : st.noErrorW thr lk lock' = .ok (st', errors)) :
    Holding st' (count.set thr lock.guestaddr
      (count thr lock.guestaddr + 1)) ∧ errors = [] := by
  obtain ⟨thread, isThread, done⟩ := bind_eq_ok.mp done
  obtain ⟨-, -, same⟩ := bind_eq_ok.mp done
  cases same
  refine ⟨?_, rfl⟩
  rw [← acquired.counted holding found]
  refine holding.update .of_setThread found (getThread_eq_ok isThread)
    acquired.address acquired.sane (fun other => acquired.others)
    (fun other _ => acquired.sameMode) ?_ ?_ ?_ ?_
  · intro q different
    simp [different]
  · intro q different
    simp [different]
  · simp [acquired.holders]
  · simp [acquired.holders, isW]

private theorem noErrorR_eq_ok (holding : Holding st count)
    (found : st.heap.lookup lk = some lock)
    (acquired : Acquired st thr lock lock') (isR : lock'.heldW = false)
    {errors : List HgError}
    (done : st.noErrorR thr lk lock' = .ok (st', errors)) :
    Holding st' (count.set thr lock.guestaddr
      (count thr lock.guestaddr + 1)) ∧ errors = [] := by
  obtain ⟨thread, isThread, done⟩ := bind_eq_ok.mp done
  obtain ⟨-, -, same⟩ := bind_eq_ok.mp done
  cases same
  refine ⟨?_, rfl⟩
  rw [← acquired.counted holding found]
  refine holding.update .of_setThread found (getThread_eq_ok isThread)
    acquired.address acquired.sane (fun other => acquired.others)
    (fun other _ => acquired.sameMode) ?_ ?_ ?_ ?_
  · intro q different
    simp [different]
  · intro q different
    rfl
  · simp [acquired.holders]
  · rw [holding.locksetW thr thread (getThread_eq_ok isThread) lk, found]
    simp only [Option.some.injEq, exists_eq_left', isR, Bool.false_eq_true,
      and_false, iff_false]
    intro ⟨held, inW⟩
    rw [← acquired.sameMode held, isR] at inW
    cases inW

/-- The handler of a write acquisition. -/
theorem postThreadWAcquiresLock_eq_ok (holding : Holding st count)
    {lkk : LockKind} {ga fresh : Nat} {errors : List HgError}
    (done : st.postThreadWAcquiresLock thr lkk ga fresh =
      .ok (st', errors)) :
    Holding st' (if errors = [] then count.set thr ga (count thr ga + 1)
      else count) := by
  obtain ⟨-, -, done⟩ := bind_eq_ok.mp done
  obtain ⟨⟨st₁, lk⟩, located, done⟩ := bind_eq_ok.mp done
  obtain ⟨holding₁, mapped⟩ := mapLocksLookupOrCreate_eq_ok holding located
  obtain ⟨lock, isLock, done⟩ := bind_eq_ok.mp done
  have found := deref_eq_ok isLock
  have address := holding₁.lookup mapped found
  obtain ⟨-, -, done⟩ := bind_eq_ok.mp done
  have taken : ∀ {st' : LockTab} {errors : List HgError},
      (st₁.lockNAcquireWriter lock thr >>= fun lock =>
        st₁.noErrorW thr lk lock) = .ok (st', errors) →
      Holding st' (if errors = [] then count.set thr ga (count thr ga + 1)
        else count) := by
    intro st' errors done
    obtain ⟨lock', acquire, done⟩ := bind_eq_ok.mp done
    obtain ⟨acquired, isW⟩ := lockNAcquireWriter_eq_ok acquire
    obtain ⟨holding', silent⟩ := noErrorW_eq_ok holding₁ found acquired isW
      done
    rw [if_pos silent, ← address]
    exact holding'
  split at done
  · obtain ⟨-, -, done⟩ := bind_eq_ok.mp done
    exact taken done
  · split at done
    · cases done
      exact holding₁
    · obtain ⟨-, -, done⟩ := bind_eq_ok.mp done
      split at done
      · cases done
        exact holding₁
      · split at done
        · cases done
          exact holding₁
        · exact taken done

/-- The handler of a read acquisition. -/
theorem postThreadRAcquiresLock_eq_ok (holding : Holding st count)
    {lkk : LockKind} {ga fresh : Nat} {errors : List HgError}
    (done : st.postThreadRAcquiresLock thr lkk ga fresh =
      .ok (st', errors)) :
    Holding st' (if errors = [] then count.set thr ga (count thr ga + 1)
      else count) := by
  obtain ⟨-, -, done⟩ := bind_eq_ok.mp done
  obtain ⟨-, -, done⟩ := bind_eq_ok.mp done
  obtain ⟨⟨st₁, lk⟩, located, done⟩ := bind_eq_ok.mp done
  obtain ⟨holding₁, mapped⟩ := mapLocksLookupOrCreate_eq_ok holding located
  obtain ⟨lock, isLock, done⟩ := bind_eq_ok.mp done
  have found := deref_eq_ok isLock
  have address := holding₁.lookup mapped found
  obtain ⟨-, -, done⟩ := bind_eq_ok.mp done
  have taken : ∀ {st' : LockTab} {errors : List HgError},
      (st₁.lockNAcquireReader lock thr >>= fun lock =>
        st₁.noErrorR thr lk lock) = .ok (st', errors) →
      Holding st' (if errors = [] then count.set thr ga (count thr ga + 1)
        else count) := by
    intro st' errors done
    obtain ⟨lock', acquire, done⟩ := bind_eq_ok.mp done
    obtain ⟨acquired, isR⟩ := lockNAcquireReader_eq_ok acquire
    obtain ⟨holding', silent⟩ := noErrorR_eq_ok holding₁ found acquired isR
      done
    rw [if_pos silent, ← address]
    exact holding'
  split at done
  · obtain ⟨-, -, done⟩ := bind_eq_ok.mp done
    exact taken done
  · split at done
    · cases done
      exact holding₁
    · exact taken done

/-- Setting a count to what it is. -/
theorem Tally.set_self (count : Tally) (thr ga : Nat) :
    count.set thr ga (count thr ga) = count := by
  funext other address
  unfold Tally.set
  split
  · rename_i same
    rw [same.1, same.2]
  · rfl

private theorem afterRelease_eq_ok (holding : Holding st count) {n : Nat}
    (found : st.heap.lookup lk = some lock)
    (released : st.lockNRelease lock thr = .ok lock')
    (held : lock.holders.count thr = n + 1)
    (done : st.afterRelease thr lk n lock' = .ok st') :
    Holding st' (count.set thr lock.guestaddr
      (count thr lock.guestaddr - 1)) := by
  obtain ⟨address, holders, mode, unheldW, sane⟩ :=
    lockNRelease_eq_ok released
  have counted : lock'.holders.count thr =
      count thr lock.guestaddr - 1 := by
    rw [holders, List.count_erase_self, holding.counts lk lock found]
  have others : ∀ other ≠ thr,
      lock'.holders.count other = lock.holders.count other := by
    intro other different
    rw [holders, List.count_erase_of_ne different]
  have sameMode : ∀ other ≠ thr, other ∈ lock.holders →
      lock'.heldW = lock.heldW := by
    intro other different isHolder
    rcases mode with nobody | same
    · have none := others other different
      rw [nobody, List.count_nil] at none
      exact absurd isHolder (List.count_eq_zero.mp none.symm)
    · exact same
  rw [← counted]
  obtain ⟨thread, isThread, done⟩ := bind_eq_ok.mp done
  have known := getThread_eq_ok isThread
  split at done
  · rename_i positive
    split at done
    · cases done
    · rename_i bag isHeld
      obtain ⟨_, left, done⟩ := bind_eq_ok.mp done
      obtain ⟨-, -, done⟩ := bind_eq_ok.mp done
      obtain ⟨_, inA, done⟩ := bind_eq_ok.mp done
      obtain ⟨_, inW, same⟩ := bind_eq_ok.mp done
      cases same
      have still : thr ∈ lock'.holders := by
        rw [← List.count_pos_iff, holders, List.count_erase_self, held]
        exact positive
      refine holding.update (.of_setLock known) found known address sane
        others sameMode (fun _ _ => Iff.rfl) (fun _ _ => Iff.rfl) ?_ ?_
      · exact ⟨fun _ => still, fun _ => tlAssert_eq_ok inA⟩
      · have own := tlAssert_eq_ok inW
        cases isW : lock'.heldW with
        | true =>
            rw [isW, if_pos rfl] at own
            exact ⟨fun _ => ⟨still, rfl⟩, fun _ => own⟩
        | false =>
            rw [isW, if_neg Bool.false_ne_true] at own
            exact ⟨fun isIn => absurd isIn own, fun both => by simp at both⟩
  · obtain ⟨_, unheld, done⟩ := bind_eq_ok.mp done
    obtain ⟨-, -, same⟩ := bind_eq_ok.mp done
    cases same
    have nobody : lock'.holders = [] := by
      rw [Lock.holders, tlAssert_eq_ok unheld]
      rfl
    refine holding.update .of_setThread found known address sane others
      sameMode ?_ ?_ ?_ ?_
    · intro q different
      simp [different]
    · intro q different
      simp [different]
    · simp [nobody]
    · simp [nobody]

theorem preThreadReleasesLock_eq_ok (holding : Holding st count)
    {ga : Nat} {isRDWR : Bool} {errors : List HgError}
    (done : st.preThreadReleasesLock thr ga isRDWR = .ok (st', errors)) :
    Holding st' (count.set thr ga (count thr ga - 1)) := by
  have unchanged : count thr ga = 0 →
      Holding st (count.set thr ga (count thr ga - 1)) := by
    intro none
    have same := count.set_self thr ga
    rw [none] at same ⊢
    rw [same]
    exact holding
  obtain ⟨-, -, done⟩ := bind_eq_ok.mp done
  split at done
  · rename_i unmapped
    cases done
    exact unchanged (holding.absent ga unmapped thr)
  · rename_i lk mapped
    obtain ⟨lock, isLock, done⟩ := bind_eq_ok.mp done
    have found := deref_eq_ok isLock
    have counted := holding.counts lk lock found thr
    rw [holding.lookup mapped found] at counted
    obtain ⟨-, -, done⟩ := bind_eq_ok.mp done
    obtain ⟨-, -, done⟩ := bind_eq_ok.mp done
    obtain ⟨thread, -, done⟩ := bind_eq_ok.mp done
    split at done
    · rename_i unheld
      obtain ⟨-, -, done⟩ := bind_eq_ok.mp done
      obtain ⟨-, -, done⟩ := bind_eq_ok.mp done
      obtain ⟨-, -, same⟩ := bind_eq_ok.mp done
      cases same
      apply unchanged
      rw [← counted, Lock.holders, unheld]
      rfl
    · rename_i bag isHeld
      have holders : lock.holders = bag := by
        rw [Lock.holders, isHeld]
        rfl
      rw [holders] at counted
      split at done
      · rename_i none
        obtain ⟨-, -, done⟩ := bind_eq_ok.mp done
        obtain ⟨-, -, done⟩ := bind_eq_ok.mp done
        obtain ⟨-, -, done⟩ := bind_eq_ok.mp done
        obtain ⟨-, -, done⟩ := bind_eq_ok.mp done
        obtain ⟨-, -, same⟩ := bind_eq_ok.mp done
        cases same
        exact unchanged (counted.symm.trans none)
      · rename_i n some
        obtain ⟨lock', released, done⟩ := bind_eq_ok.mp done
        obtain ⟨st₁, after, done⟩ := bind_eq_ok.mp done
        obtain ⟨-, -, same⟩ := bind_eq_ok.mp done
        cases same
        have result := afterRelease_eq_ok holding found released
          (by rw [holders, some]) after
        rw [holding.lookup mapped found] at result
        exact result

/-- The state after `lk` has been taken out of the locksets of `owners`. -/
structure Dropped (lk : Nat) (heldW : Bool) (owners : List Nat)
    (st st' : LockTab) : Prop where
  heap : st'.heap = st.heap
  maps : st'.mapLocks = st.mapLocks
  threads : ∀ t, st'.isSaneThread t = st.isSaneThread t
  sets : ∀ (t : Nat) (thread' : Thread),
    st'.mapThreads.lookup t = some thread' →
    ∃ thread, st.mapThreads.lookup t = some thread ∧
      (∀ q, q ∈ thread'.locksetA ↔
        q ∈ thread.locksetA ∧ ¬ (q = lk ∧ t ∈ owners)) ∧
      (∀ q, q ∈ thread'.locksetW ↔
        q ∈ thread.locksetW ∧ ¬ (q = lk ∧ t ∈ owners ∧ heldW = true))

theorem Dropped.nil (lk : Nat) (heldW : Bool) (st : LockTab) :
    Dropped lk heldW [] st st where
  heap := rfl
  maps := rfl
  threads _ := rfl
  sets t thread' isThread := ⟨thread', isThread, by simp, by simp⟩

theorem Dropped.cons {heldW : Bool} {owners : List Nat} {st₁ : LockTab}
    (known : st.mapThreads.lookup thr = some thread)
    (first : st₁ = st.setThread thr ⟨thread.locksetA.erase lk,
      if heldW then thread.locksetW.erase lk else thread.locksetW⟩)
    (rest : Dropped lk heldW owners st₁ st') :
    Dropped lk heldW (thr :: owners) st st' := by
  subst first
  have sane : ∀ (middle : Thread) (t : Nat),
      (st.setThread thr middle).isSaneThread t = st.isSaneThread t := by
    intro middle t
    by_cases same : t = thr
    · subst same
      simp [LockTab.isSaneThread, setThread, known]
    · simp [LockTab.isSaneThread, setThread, same]
  refine ⟨rest.heap, rest.maps, fun t => (rest.threads t).trans (sane _ t), ?_⟩
  intro t thread' isThread
  obtain ⟨middle, isMiddle, inA, inW⟩ := rest.sets t thread' isThread
  by_cases same : t = thr
  · subst same
    rw [setThread, AList.lookup_insert] at isMiddle
    cases isMiddle
    refine ⟨thread, known, ?_, ?_⟩
    · intro q
      rw [inA q]
      simp only [Finset.mem_erase, List.mem_cons, true_or, and_true]
      tauto
    · intro q
      rw [inW q]
      cases heldW with
      | true =>
          simp only [if_true, Finset.mem_erase, List.mem_cons, true_or,
            and_true]
          tauto
      | false => simp
  · rw [setThread, AList.lookup_insert_ne same] at isMiddle
    refine ⟨middle, isMiddle, ?_, ?_⟩
    · intro q
      rw [inA q]
      simp [same]
    · intro q
      rw [inW q]
      simp [same]

private theorem removeFromLocksets_foldlM {heldW : Bool} {owners : List Nat}
    (done : owners.foldlM (removeFromLocksets lk heldW) st = .ok st') :
    Dropped lk heldW owners st st' := by
  induction owners generalizing st with
  | nil =>
      cases done
      exact .nil lk heldW _
  | cons thr owners induction =>
      rw [List.foldlM_cons] at done
      obtain ⟨st₁, first, done⟩ := bind_eq_ok.mp done
      obtain ⟨thread, isThread, first⟩ := bind_eq_ok.mp first
      obtain ⟨-, -, first⟩ := bind_eq_ok.mp first
      refine Dropped.cons (getThread_eq_ok isThread) ?_ (induction done)
      split at first
      · rename_i isW
        obtain ⟨-, -, same⟩ := bind_eq_ok.mp first
        cases same
        rw [if_pos isW]
      · rename_i isR
        cases first
        rw [if_neg isR]

/-- The counts once the lock at `ga` is gone. -/
def Tally.clear (count : Tally) (ga : Nat) : Tally :=
  fun thr address => if address = ga then 0 else count thr address

/-- A lock that no lockset mentions any more can be freed. -/
theorem Holding.destroy (holding : Holding st count) {ga : Nat}
    (mapped : st.mapLocks.lookup ga = some lk)
    (found : st.heap.lookup lk = some lock)
    (dropped : Dropped lk lock.heldW lock.holders st st') :
    Holding { st' with
      mapLocks := st'.mapLocks.erase ga
      heap := st'.heap.erase lk } (count.clear ga) := by
  have heap : ∀ q, (st.heap.erase lk).lookup q =
      if q = lk then none else st.heap.lookup q := by
    intro q
    by_cases same : q = lk
    · subst same
      simp
    · simp [same]
  have address := holding.lookup mapped found
  have apart : ∀ (q : Nat) (other : Lock), q ≠ lk →
      st.heap.lookup q = some other → other.guestaddr ≠ ga := by
    intro q other different isLock same
    have again := (holding.mapped ga q).mpr ⟨other, isLock, same⟩
    rw [mapped] at again
    cases again
    exact different rfl
  constructor
  · intro t thread' isThread q
    obtain ⟨thread, known, inA, -⟩ := dropped.sets t thread' isThread
    dsimp only
    rw [inA q, holding.locksetA t thread known q, dropped.heap, heap]
    by_cases same : q = lk
    · subst same
      simp [found]
    · simp [same]
  · intro t thread' isThread q
    obtain ⟨thread, known, -, inW⟩ := dropped.sets t thread' isThread
    dsimp only
    rw [inW q, holding.locksetW t thread known q, dropped.heap, heap]
    by_cases same : q = lk
    · subst same
      simp [found]
    · simp [same]
  · intro q other isLock
    dsimp only at isLock
    rw [dropped.heap, heap] at isLock
    change st'.isSaneLockN other = true
    rw [isSaneLockN_congr dropped.threads]
    split at isLock
    · cases isLock
    · exact holding.sane q other isLock
  · intro a q
    dsimp only
    rw [dropped.maps, dropped.heap, heap]
    by_cases sameGa : a = ga
    · subst sameGa
      rw [AList.lookup_erase]
      by_cases same : q = lk
      · simp [same]
      · simp only [if_neg same, reduceCtorEq, false_iff]
        intro ⟨other, isLock, isAddress⟩
        exact apart q other same isLock isAddress
    · rw [AList.lookup_erase_ne sameGa, holding.mapped]
      by_cases same : q = lk
      · subst same
        simp [found, address, Ne.symm sameGa]
      · simp only [if_neg same]
  · intro q other isLock t
    dsimp only at isLock
    rw [dropped.heap, heap] at isLock
    split at isLock
    · cases isLock
    · rename_i different
      unfold Tally.clear
      rw [if_neg (apart q other different isLock)]
      exact holding.counts q other isLock t
  · intro a unmapped t
    dsimp only at unmapped
    unfold Tally.clear
    split
    · rfl
    · rename_i different
      rw [dropped.maps, AList.lookup_erase_ne different] at unmapped
      exact holding.absent a unmapped t

theorem releaseAll_eq_ok {error : HgError} {errors : List HgError}
    (done : st.releaseAll lk lock error = .ok (st', lock', errors)) :
    Dropped lk lock.heldW lock.holders st st' := by
  unfold releaseAll at done
  split at done
  · rename_i isHeld
    obtain ⟨bag, held⟩ := Option.isSome_iff_exists.mp isHeld
    obtain ⟨st₁, removed, same⟩ := bind_eq_ok.mp done
    cases same
    rw [removeLockFromLocksetsOfAllOwningThreads, held] at removed
    have dropped := removeFromLocksets_foldlM removed
    have holders : lock.holders = bag := by
      rw [Lock.holders, held]
      rfl
    rw [holders]
    refine ⟨dropped.heap, dropped.maps, dropped.threads, ?_⟩
    simpa only [List.mem_dedup] using dropped.sets
  · rename_i unheld
    cases done
    have holders : lock.holders = [] := by
      rw [Lock.holders, Option.not_isSome_iff_eq_none.mp unheld]
      rfl
    rw [holders]
    exact .nil lk lock.heldW st

theorem destroyPre_eq_ok (holding : Holding st count)
    {rightKind : LockKind → Bool} {invalid locked : String} {ga : Nat}
    {errors : List HgError}
    (done : destroyPre rightKind invalid locked st thr ga =
      .ok (st', errors)) :
    Holding st' (count.clear ga) := by
  obtain ⟨-, -, done⟩ := bind_eq_ok.mp done
  split at done
  · rename_i unmapped
    cases done
    have same : count.clear ga = count := by
      funext t address
      unfold Tally.clear
      split
      · rename_i isGa
        rw [isGa, holding.absent ga unmapped t]
      · rfl
    rw [same]
    exact holding
  · rename_i lk mapped
    obtain ⟨lock, isLock, done⟩ := bind_eq_ok.mp done
    obtain ⟨-, -, done⟩ := bind_eq_ok.mp done
    obtain ⟨-, -, done⟩ := bind_eq_ok.mp done
    obtain ⟨⟨st₁, lock₁, more⟩, released, done⟩ := bind_eq_ok.mp done
    obtain ⟨-, -, done⟩ := bind_eq_ok.mp done
    obtain ⟨-, -, same⟩ := bind_eq_ok.mp done
    cases same
    exact holding.destroy mapped (deref_eq_ok isLock)
      (releaseAll_eq_ok released)

end Updates

end LockTab

/-- What an event does to the counts, if its handler records `errors`: an
acquisition counts if it is accepted. -/
def LockEvent.tally (errors : List HgError) (count : LockTab.Tally) :
    LockEvent → LockTab.Tally
  | .mutexLockPost thr ga _ | .rwlockLockPost thr ga _ _ =>
      if errors = [] then count.set thr ga (count thr ga + 1) else count
  | .mutexUnlockPre thr ga | .rwlockUnlockPre thr ga =>
      count.set thr ga (count thr ga - 1)
  | .mutexDestroyPre _ ga | .rwlockDestroyPre _ ga => count.clear ga
  | .mutexInitPost _ _ _ _ | .mutexLockPre _ _ _ | .mutexUnlockPost _ _
  | .rwlockInitPost _ _ _ | .rwlockLockPre _ _ _ _
  | .rwlockUnlockPost _ _ => count

namespace LockTab

/-- The acquisitions that were accepted and have not been released. -/
def outstanding (log : List (LockEvent × List HgError)) : Tally :=
  log.foldl (fun count entry => entry.1.tally entry.2 count) fun _ _ => 0

/-- All acquisitions that have not been released. -/
def acquisitions (events : List LockEvent) : Tally :=
  events.foldl (fun count event => event.tally [] count) fun _ _ => 0

section Runs

variable {st st' : LockTab} {count : Tally} {event : LockEvent}
  {errors : List HgError}

theorem lookupOrCreate_handled (holding : Holding st count) {lkk : LockKind}
    {ga fresh : Nat}
    (done : (do
      let (st, _) ← st.mapLocksLookupOrCreate lkk ga fresh
      pure (st, [])) = (.ok (st', errors) : Except Abort _)) :
    Holding st' count := by
  obtain ⟨⟨st₁, lk⟩, located, same⟩ := bind_eq_ok.mp done
  cases same
  exact (mapLocksLookupOrCreate_eq_ok holding located).1

theorem mutexLockPre_eq_ok {thr mutex : Nat} {isTryLock : Bool}
    (done : st.mutexLockPre thr mutex isTryLock = .ok (st', errors)) :
    st' = st := by
  obtain ⟨_, -, done⟩ := bind_eq_ok.mp done
  split at done
  · cases done
    rfl
  · obtain ⟨_, -, same⟩ := bind_eq_ok.mp done
    cases same
    rfl

theorem rwlockLockPre_eq_ok {thr rwl : Nat}
    (done : st.rwlockLockPre thr rwl = .ok (st', errors)) : st' = st := by
  obtain ⟨_, -, done⟩ := bind_eq_ok.mp done
  split at done
  · cases done
    rfl
  · obtain ⟨_, -, same⟩ := bind_eq_ok.mp done
    cases same
    rfl

/-- Every handler that returns keeps locks and threads in agreement. -/
theorem Holding.handle (holding : Holding st count)
    (done : st.handle event = .ok (st', errors)) :
    Holding st' (event.tally errors count) := by
  cases event with
  | mutexInitPost thr mutex mbRec fresh =>
      exact lookupOrCreate_handled holding done
  | rwlockInitPost thr rwl fresh => exact lookupOrCreate_handled holding done
  | mutexDestroyPre thr mutex =>
      change mutexDestroyPre st thr mutex = _ at done
      unfold mutexDestroyPre at done
      exact destroyPre_eq_ok holding done
  | rwlockDestroyPre thr rwl =>
      change rwlockDestroyPre st thr rwl = _ at done
      unfold rwlockDestroyPre at done
      exact destroyPre_eq_ok holding done
  | mutexLockPre thr mutex isTryLock =>
      rw [mutexLockPre_eq_ok done]
      exact holding
  | rwlockLockPre thr rwl isW isTryLock =>
      rw [rwlockLockPre_eq_ok done]
      exact holding
  | mutexLockPost thr mutex fresh =>
      exact postThreadWAcquiresLock_eq_ok holding done
  | rwlockLockPost thr rwl isW fresh =>
      cases isW with
      | true => exact postThreadWAcquiresLock_eq_ok holding done
      | false => exact postThreadRAcquiresLock_eq_ok holding done
  | mutexUnlockPre thr mutex => exact preThreadReleasesLock_eq_ok holding done
  | rwlockUnlockPre thr rwl => exact preThreadReleasesLock_eq_ok holding done
  | mutexUnlockPost thr ga | rwlockUnlockPost thr ga =>
      obtain ⟨_, -, same⟩ := bind_eq_ok.mp done
      cases same
      exact holding

theorem init_threads {thrs : List Nat} {map : AList (fun _ : Nat => Thread)}
    (empty : ∀ (thr : Nat) (thread : Thread), map.lookup thr = some thread →
      thread = ⟨∅, ∅⟩) :
    ∀ (thr : Nat) (thread : Thread),
      (thrs.foldl (fun map thr => map.insert thr ⟨∅, ∅⟩) map).lookup thr =
        some thread → thread = ⟨∅, ∅⟩ := by
  induction thrs generalizing map with
  | nil => exact empty
  | cons first rest induction =>
      apply induction
      intro thr thread isThread
      by_cases same : thr = first
      · subst same
        rw [AList.lookup_insert] at isThread
        exact (Option.some.inj isThread).symm
      · rw [AList.lookup_insert_ne same] at isThread
        exact empty thr thread isThread

theorem Holding.init (thrs : List Nat) (busLockGa busLock : Nat) :
    Holding (LockTab.init thrs busLockGa busLock) (fun _ _ => 0) := by
  have empty : ∀ (thr : Nat) (thread : Thread),
      (withThreads thrs).mapThreads.lookup thr = some thread →
        thread = ⟨∅, ∅⟩ :=
    init_threads fun thr thread isThread => by simp at isThread
  have start : Holding (withThreads thrs) (fun _ _ => 0) := by
    constructor
    · intro thr thread isThread lk
      rw [empty thr thread isThread]
      simp [withThreads]
    · intro thr thread isThread lk
      rw [empty thr thread isThread]
      simp [withThreads]
    · intro lk lock isLock
      simp [withThreads] at isLock
    · intro ga lk
      simp [withThreads]
    · intro lk lock isLock
      simp [withThreads] at isLock
    · exact fun _ _ _ => rfl
  exact start.create (AList.lookup_empty _) (AList.lookup_empty _) rfl rfl
    rfl

theorem run_holding {st : LockTab} {log : List (LockEvent × List HgError)}
    {thrs : List Nat} {busLockGa busLock : Nat} {events : List LockEvent}
    (ran : (LockTab.init thrs busLockGa busLock).run events =
      .ok (st, log)) : Holding st (outstanding log) := by
  refine @foldlM_eq_ok_invariant _ _ _ _
    (fun _ acc => Holding acc.1 (outstanding acc.2)) _ _ _ ?_
    (Holding.init thrs busLockGa busLock) ran
  intro n acc next event atN holding done
  obtain ⟨⟨st₁, errors⟩, handled, same⟩ := bind_eq_ok.mp done
  cases same
  have after := holding.handle handled
  simpa [outstanding] using after

/-- Locks and threads agree about who holds what, after any events. -/
theorem locks_and_threads_agree {thrs : List Nat} {busLockGa busLock : Nat}
    {events : List LockEvent} {st : LockTab}
    {log : List (LockEvent × List HgError)}
    (ran : (LockTab.init thrs busLockGa busLock).run events =
      .ok (st, log)) :
    (∀ (thr : Nat) (thread : Thread),
      st.mapThreads.lookup thr = some thread → ∀ lk,
        (lk ∈ thread.locksetA ↔
          ∃ lock, st.heap.lookup lk = some lock ∧ thr ∈ lock.holders) ∧
        (lk ∈ thread.locksetW ↔
          ∃ lock, st.heap.lookup lk = some lock ∧ thr ∈ lock.holders ∧
            lock.heldW = true)) ∧
    ∀ (lk : Nat) (lock : Lock), st.heap.lookup lk = some lock →
      st.isSaneLockN lock = true ∧
        ∀ thr, lock.holders.count thr = outstanding log thr lock.guestaddr := by
  have holding := run_holding ran
  refine ⟨?_, ?_⟩
  · intro thr thread isThread lk
    exact ⟨holding.locksetA thr thread isThread lk,
      holding.locksetW thr thread isThread lk⟩
  · intro lk lock isLock
    exact ⟨holding.sane lk lock isLock, holding.counts lk lock isLock⟩

/-- A recursive mutex that thread 1 locks twice and unlocks once, and that
thread 2 is refused in between. -/
theorem locks_and_threads_agree_recursive :
    ∃ st log lock, (LockTab.init [1, 2] 0 10).run
        [.mutexInitPost 1 16 true 11, .mutexLockPost 1 16 12,
          .mutexLockPost 1 16 12, .mutexLockPost 2 16 12,
          .mutexUnlockPre 1 16] = .ok (st, log) ∧
      st.heap.lookup 11 = some lock ∧ lock.holders.count 1 = 1 ∧
      lock.holders.count 1 = outstanding log 1 lock.guestaddr := by
  have shown : ((LockTab.init [1, 2] 0 10).run
      [.mutexInitPost 1 16 true 11, .mutexLockPost 1 16 12,
        .mutexLockPost 1 16 12, .mutexLockPost 2 16 12,
        .mutexUnlockPre 1 16]).toOption.map
      (fun result => (result.1.heap.lookup 11).map
        (fun lock => lock.holders.count 1)) = some (some 1) := by decide
  obtain ⟨⟨st, log⟩, ran, seen⟩ := exists_ok_of_map shown
  obtain ⟨lock, isLock, once⟩ := Option.map_eq_some_iff.mp seen
  exact ⟨st, log, lock, ran, isLock, once,
    ((locks_and_threads_agree ran).2 11 lock isLock).2 1⟩

/-- Both handlers return, but thread 2 is refused: a lock event alone does not
make a holder. -/
theorem refused_acquisition_not_counted :
    ∃ st log lock, (LockTab.init [1, 2] 0 10).run
        [.mutexInitPost 1 16 false 11, .mutexLockPost 1 16 12,
          .mutexLockPost 2 16 12] = .ok (st, log) ∧
      st.heap.lookup 11 = some lock ∧ lock.holders.count 2 ≠
        acquisitions [.mutexInitPost 1 16 false 11, .mutexLockPost 1 16 12,
          .mutexLockPost 2 16 12] 2 lock.guestaddr := by
  have shown : ((LockTab.init [1, 2] 0 10).run
      [.mutexInitPost 1 16 false 11, .mutexLockPost 1 16 12,
        .mutexLockPost 2 16 12]).toOption.map
      (fun result => (result.1.heap.lookup 11).map
        (fun lock => (lock.holders.count 2, lock.guestaddr))) =
      some (some (0, 16)) := by decide
  obtain ⟨⟨st, log⟩, ran, seen⟩ := exists_ok_of_map shown
  obtain ⟨lock, isLock, view⟩ := Option.map_eq_some_iff.mp seen
  obtain ⟨none, address⟩ := Prod.mk.inj view
  refine ⟨st, log, lock, ran, isLock, ?_⟩
  rw [none, address]
  decide

end Runs
end LockTab
end HelgrindPlus
