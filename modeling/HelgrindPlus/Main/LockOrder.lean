import HelgrindPlus.Main.LaogGraph

/-!
# Lock order errors

The handlers of lock events together with the lock acquisition order graph.
An acquisition that is accepted is checked against the graph before the lock
enters the locksets of the thread, and a destroyed lock leaves the graph
before it is freed.

An error is a call of `HG_(record_error_LockOrder)`.  What that function does
with it (the option that turns it off, suppressions, the comparison with
earlier errors) is left to the core.
-/

namespace HelgrindPlus

open Outcome

structure OrderTab where
  locks : LockTab
  laog : Laog

namespace OrderTab

/-- The point of `laog__pre_thread_acquires_lock` in the handlers of an
acquisition: the lock has its new holder, the locksets are as before. -/
def acquireOrder (tab : OrderTab) (st : LockTab) (thr ga : Nat) :
    Except Abort (Laog × Option LockOrder) :=
  match st.mapLocks.lookup ga with
  | some lk =>
      tab.laog.preThreadAcquiresLock
        { st with mapThreads := tab.locks.mapThreads } thr lk
  | none => .error .dangling

/-- The point of `laog__handle_one_lock_deletion` in the handlers of a
destruction: the lock has lost its holders and is not yet freed. -/
def destroyOrder (tab : OrderTab) (ga : Nat) : Except Abort Laog :=
  match tab.locks.mapLocks.lookup ga with
  | some lk => do
      let lock ← tab.locks.deref lk
      tab.laog.handleOneLockDeletion (tab.locks.setLock lk { lock with
        heldBy := none, heldW := false, acquiredAt := false }) lk
  | none => .ok tab.laog

/-- What an event does to the graph, if its handler leads to `st` and records
`errors`.  The handlers of an acquisition get to the graph if they have
nothing to complain about. -/
def updateLaog (tab : OrderTab) (st : LockTab) (errors : List HgError) :
    LockEvent → Except Abort (Laog × Option LockOrder)
  | .mutexLockPost thr ga _ | .rwlockLockPost thr ga _ _ =>
      if errors = [] then tab.acquireOrder st thr ga
      else .ok (tab.laog, none)
  | .mutexDestroyPre _ ga | .rwlockDestroyPre _ ga => do
      let laog ← tab.destroyOrder ga
      pure (laog, none)
  | .mutexInitPost _ _ _ _ | .mutexLockPre _ _ _ | .mutexUnlockPre _ _
  | .mutexUnlockPost _ _ | .rwlockInitPost _ _ _ | .rwlockLockPre _ _ _ _
  | .rwlockUnlockPre _ _ | .rwlockUnlockPost _ _ => .ok (tab.laog, none)

/-- A handler, with the lock order error that it records, if any. -/
def handle (tab : OrderTab) (event : LockEvent) :
    Except Abort (OrderTab × Option LockOrder) := do
  let (st, errors) ← tab.locks.handle event
  let (laog, order) ← tab.updateLaog st errors event
  pure (⟨st, laog⟩, order)

def handleLogged (acc : OrderTab × List LockOrder) (event : LockEvent) :
    Except Abort (OrderTab × List LockOrder) := do
  let (tab, order) ← acc.1.handle event
  pure (tab, acc.2 ++ order.toList)

/-- A run, with the lock order errors that it records. -/
def run (thrs : List Nat) (busLockGa busLock : Nat)
    (events : List LockEvent) : Except Abort (OrderTab × List LockOrder) := do
  let laog ← Laog.init
  events.foldlM handleLogged (⟨LockTab.init thrs busLockGa busLock, laog⟩, [])

end OrderTab

namespace LockTab

/-- Every lock is still there, at the same address of the program. -/
def Keeps (st st' : LockTab) : Prop :=
  ∀ (lk : Nat) (lock : Lock), st.heap.lookup lk = some lock →
    ∃ lock', st'.heap.lookup lk = some lock' ∧
      lock'.guestaddr = lock.guestaddr

section Keeps

variable {st st₁ st' : LockTab} {lk thr ga fresh : Nat} {lock lock' : Lock}
  {thread : Thread} {errors : List HgError} {count : Tally}

theorem Keeps.refl (st : LockTab) : Keeps st st :=
  fun _ lock isLock => ⟨lock, isLock, rfl⟩

theorem Keeps.trans (first : Keeps st st₁) (second : Keeps st₁ st') :
    Keeps st st' := by
  intro lk lock isLock
  obtain ⟨lock₁, isLock₁, same₁⟩ := first lk lock isLock
  obtain ⟨lock₂, isLock₂, same₂⟩ := second lk lock₁ isLock₁
  exact ⟨lock₂, isLock₂, same₂.trans same₁⟩

theorem Keeps.setLock (found : st.heap.lookup lk = some lock)
    (address : lock'.guestaddr = lock.guestaddr) :
    Keeps st (st.setLock lk lock') := by
  intro other otherLock isOther
  by_cases same : other = lk
  · subst same
    rw [found] at isOther
    cases isOther
    exact ⟨lock', by simp [LockTab.setLock], address⟩
  · exact ⟨otherLock, by simpa [LockTab.setLock, same] using isOther, rfl⟩

theorem mapLocksLookupOrCreate_keeps {lkk : LockKind}
    (done : st.mapLocksLookupOrCreate lkk ga fresh = .ok (st', lk)) :
    Keeps st st' := by
  unfold mapLocksLookupOrCreate at done
  split at done
  · obtain ⟨made, make, same⟩ := bind_eq_ok.mp done
    cases same
    unfold mkLockN at make
    split at make
    · cases make
    · rename_i unused
      obtain ⟨_, -, same⟩ := bind_eq_ok.mp make
      cases same
      intro other lock isLock
      have apart : other ≠ lk := by
        intro same
        rw [same, unused] at isLock
        cases isLock
      exact ⟨lock, by simpa [LockTab.setLock, apart] using isLock, rfl⟩
  · obtain ⟨_, -, done⟩ := bind_eq_ok.mp done
    obtain ⟨-, -, done⟩ := bind_eq_ok.mp done
    obtain ⟨-, -, same⟩ := bind_eq_ok.mp done
    cases same
    exact .refl _

private theorem noErrorW_keeps (found : st.heap.lookup lk = some lock)
    (address : lock'.guestaddr = lock.guestaddr)
    (done : st.noErrorW thr lk lock' = .ok (st', errors)) :
    Keeps st st' := by
  obtain ⟨thread, -, done⟩ := bind_eq_ok.mp done
  obtain ⟨-, -, same⟩ := bind_eq_ok.mp done
  cases same
  exact Keeps.setLock found address

private theorem noErrorR_keeps (found : st.heap.lookup lk = some lock)
    (address : lock'.guestaddr = lock.guestaddr)
    (done : st.noErrorR thr lk lock' = .ok (st', errors)) :
    Keeps st st' := by
  obtain ⟨thread, -, done⟩ := bind_eq_ok.mp done
  obtain ⟨-, -, same⟩ := bind_eq_ok.mp done
  cases same
  exact Keeps.setLock found address

private theorem postThreadWAcquiresLock_keeps {lkk : LockKind}
    (done : st.postThreadWAcquiresLock thr lkk ga fresh =
      .ok (st', errors)) : Keeps st st' := by
  obtain ⟨-, -, done⟩ := bind_eq_ok.mp done
  obtain ⟨⟨st₁, lk⟩, located, done⟩ := bind_eq_ok.mp done
  have kept := mapLocksLookupOrCreate_keeps located
  obtain ⟨lock, isLock, done⟩ := bind_eq_ok.mp done
  have found := deref_eq_ok isLock
  obtain ⟨-, -, done⟩ := bind_eq_ok.mp done
  have taken : ∀ {st' : LockTab} {errors : List HgError},
      (st₁.lockNAcquireWriter lock thr >>= fun lock =>
        st₁.noErrorW thr lk lock) = .ok (st', errors) → Keeps st st' := by
    intro st' errors done
    obtain ⟨lock', acquire, done⟩ := bind_eq_ok.mp done
    obtain ⟨acquired, -⟩ := lockNAcquireWriter_eq_ok acquire
    exact kept.trans (noErrorW_keeps found acquired.address done)
  split at done
  · obtain ⟨-, -, done⟩ := bind_eq_ok.mp done
    exact taken done
  · split at done
    · cases done
      exact kept
    · obtain ⟨-, -, done⟩ := bind_eq_ok.mp done
      split at done
      · cases done
        exact kept
      · split at done
        · cases done
          exact kept
        · exact taken done

private theorem postThreadRAcquiresLock_keeps {lkk : LockKind}
    (done : st.postThreadRAcquiresLock thr lkk ga fresh =
      .ok (st', errors)) : Keeps st st' := by
  obtain ⟨-, -, done⟩ := bind_eq_ok.mp done
  obtain ⟨-, -, done⟩ := bind_eq_ok.mp done
  obtain ⟨⟨st₁, lk⟩, located, done⟩ := bind_eq_ok.mp done
  have kept := mapLocksLookupOrCreate_keeps located
  obtain ⟨lock, isLock, done⟩ := bind_eq_ok.mp done
  have found := deref_eq_ok isLock
  obtain ⟨-, -, done⟩ := bind_eq_ok.mp done
  have taken : ∀ {st' : LockTab} {errors : List HgError},
      (st₁.lockNAcquireReader lock thr >>= fun lock =>
        st₁.noErrorR thr lk lock) = .ok (st', errors) → Keeps st st' := by
    intro st' errors done
    obtain ⟨lock', acquire, done⟩ := bind_eq_ok.mp done
    obtain ⟨acquired, -⟩ := lockNAcquireReader_eq_ok acquire
    exact kept.trans (noErrorR_keeps found acquired.address done)
  split at done
  · obtain ⟨-, -, done⟩ := bind_eq_ok.mp done
    exact taken done
  · split at done
    · cases done
      exact kept
    · exact taken done

theorem afterRelease_keeps {n : Nat} (found : st.heap.lookup lk = some lock)
    (address : lock'.guestaddr = lock.guestaddr)
    (done : st.afterRelease thr lk n lock' = .ok st') : Keeps st st' := by
  obtain ⟨thread, -, done⟩ := bind_eq_ok.mp done
  split at done
  · split at done
    · cases done
    · obtain ⟨-, -, done⟩ := bind_eq_ok.mp done
      obtain ⟨-, -, done⟩ := bind_eq_ok.mp done
      obtain ⟨-, -, done⟩ := bind_eq_ok.mp done
      obtain ⟨-, -, same⟩ := bind_eq_ok.mp done
      cases same
      exact Keeps.setLock found address
  · obtain ⟨-, -, done⟩ := bind_eq_ok.mp done
    obtain ⟨-, -, same⟩ := bind_eq_ok.mp done
    cases same
    exact Keeps.setLock found address

private theorem preThreadReleasesLock_keeps {isRDWR : Bool}
    (done : st.preThreadReleasesLock thr ga isRDWR = .ok (st', errors)) :
    Keeps st st' := by
  obtain ⟨-, -, done⟩ := bind_eq_ok.mp done
  split at done
  · cases done
    exact .refl _
  · obtain ⟨lock, isLock, done⟩ := bind_eq_ok.mp done
    obtain ⟨-, -, done⟩ := bind_eq_ok.mp done
    obtain ⟨-, -, done⟩ := bind_eq_ok.mp done
    obtain ⟨thread, -, done⟩ := bind_eq_ok.mp done
    split at done
    · obtain ⟨-, -, done⟩ := bind_eq_ok.mp done
      obtain ⟨-, -, done⟩ := bind_eq_ok.mp done
      obtain ⟨-, -, same⟩ := bind_eq_ok.mp done
      cases same
      exact .refl _
    · split at done
      · obtain ⟨-, -, done⟩ := bind_eq_ok.mp done
        obtain ⟨-, -, done⟩ := bind_eq_ok.mp done
        obtain ⟨-, -, done⟩ := bind_eq_ok.mp done
        obtain ⟨-, -, done⟩ := bind_eq_ok.mp done
        obtain ⟨-, -, same⟩ := bind_eq_ok.mp done
        cases same
        exact .refl _
      · obtain ⟨lock', released, done⟩ := bind_eq_ok.mp done
        obtain ⟨st₁, after, done⟩ := bind_eq_ok.mp done
        obtain ⟨-, -, same⟩ := bind_eq_ok.mp done
        cases same
        exact afterRelease_keeps (deref_eq_ok isLock)
          (lockNRelease_eq_ok released).1 after

/-- Only the lock at the address is freed. -/
theorem destroyPre_heap {rightKind : LockKind → Bool}
    {invalid locked : String}
    (done : destroyPre rightKind invalid locked st thr ga =
      .ok (st', errors)) {other : Nat}
    (apart : st.mapLocks.lookup ga ≠ some other) :
    st'.heap.lookup other = st.heap.lookup other := by
  obtain ⟨-, -, done⟩ := bind_eq_ok.mp done
  split at done
  · cases done
    rfl
  · rename_i lk mapped
    obtain ⟨lock, isLock, done⟩ := bind_eq_ok.mp done
    obtain ⟨-, -, done⟩ := bind_eq_ok.mp done
    obtain ⟨-, -, done⟩ := bind_eq_ok.mp done
    obtain ⟨⟨st₁, lock₁, more⟩, released, done⟩ := bind_eq_ok.mp done
    obtain ⟨-, -, done⟩ := bind_eq_ok.mp done
    obtain ⟨-, -, same⟩ := bind_eq_ok.mp done
    cases same
    have different : other ≠ lk := by
      intro same
      rw [same] at apart
      exact apart mapped
    rw [AList.lookup_erase_ne different, (releaseAll_eq_ok released).heap]

private theorem lookupOrCreate_keeps {lkk : LockKind}
    (done : (do
      let (st, _) ← st.mapLocksLookupOrCreate lkk ga fresh
      pure (st, [])) = (.ok (st', errors) : Except Abort _)) :
    Keeps st st' := by
  obtain ⟨⟨st₁, lk⟩, located, same⟩ := bind_eq_ok.mp done
  cases same
  exact mapLocksLookupOrCreate_keeps located

/-- A lock whose holder counts has its place of acquisition. -/
theorem Holding.acquiredAt (holding : Holding st count)
    (found : st.heap.lookup lk = some lock)
    (held : 0 < count thr lock.guestaddr) : lock.acquiredAt = true := by
  rw [← holding.counts lk lock found thr] at held
  have isHolder : thr ∈ lock.holders := List.count_pos_iff.mp held
  have sane := holding.sane lk lock found
  unfold isSaneLockN isSaneLockBASE at sane
  cases heldBy : lock.heldBy with
  | none => simp [Lock.holders, heldBy] at isHolder
  | some bag =>
      simp only [heldBy, Bool.and_eq_true] at sane
      exact sane.2.1.1.1

theorem Holding.counted (holding : Holding st count)
    (isThread : st.mapThreads.lookup thr = some thread)
    (held : lk ∈ thread.locksetA) :
    ∃ lock, st.heap.lookup lk = some lock ∧
      0 < count thr lock.guestaddr := by
  obtain ⟨lock, isLock, isHolder⟩ :=
    (holding.locksetA thr thread isThread lk).mp held
  refine ⟨lock, isLock, ?_⟩
  rw [← holding.counts lk lock isLock thr]
  exact List.count_pos_iff.mpr isHolder

end Keeps
end LockTab

namespace OrderTab

open Paths

/-- The graph mentions live locks only, and none is before itself. -/
structure Ordered (tab : OrderTab) (edge : Nat → Nat → Prop) : Prop where
  graph : Laog.Shows tab.laog edge
  irreflexive : ∀ a, ¬ edge a a
  live : ∀ a b, edge a b → Laog.Live tab.locks a ∧ Laog.Live tab.locks b

/-- The error that an event has to record, if its handler leads to `st`. -/
def Complains (tab : OrderTab) (st : LockTab) (errors : List HgError)
    (edge : Nat → Nat → Prop) : LockEvent → Prop
  | .mutexLockPost thr ga _ | .rwlockLockPost thr ga _ _ =>
      errors = [] ∧ ∃ lk thread, st.mapLocks.lookup ga = some lk ∧
        tab.locks.mapThreads.lookup thr = some thread ∧
        lk ∉ thread.locksetA ∧
        ∃ other ∈ thread.locksetA, Relation.TransGen edge lk other
  | _ => False

section Steps

variable {tab : OrderTab} {st : LockTab} {edge : Nat → Nat → Prop}
  {count count' : LockTab.Tally} {errors : List HgError} {thr ga : Nat}

/-- What the graph is after an event, and which error is recorded. -/
structure Updates (st : LockTab) (edge : Nat → Nat → Prop)
    (complaint : Prop) (result : Laog × Option LockOrder) : Prop where
  ordered : ∃ edge', Ordered ⟨st, result.1⟩ edge' ∧
    (result.2 = none → Acyclic edge → Acyclic edge')
  recorded : result.2.isSome = true ↔ complaint

theorem Ordered.unchanged (ordered : Ordered tab edge)
    (keeps : LockTab.Keeps tab.locks st) {complaint : Prop}
    (silent : ¬ complaint) :
    Updates st edge complaint (tab.laog, none) where
  ordered := by
    have live : ∀ {lk : Nat}, Laog.Live tab.locks lk → Laog.Live st lk := by
      rintro lk ⟨lock, isLock⟩
      obtain ⟨lock', isLock', -⟩ := keeps lk lock isLock
      exact ⟨lock', isLock'⟩
    exact ⟨edge, ⟨ordered.graph, ordered.irreflexive, fun a b isEdge =>
      (ordered.live a b isEdge).imp live live⟩, fun _ acyclic => acyclic⟩
  recorded := by simp [silent]

/-- An acquisition that was accepted. -/
theorem Ordered.acquire (ordered : Ordered tab edge)
    (holding : LockTab.Holding tab.locks count)
    (holding' : LockTab.Holding st count')
    (keeps : LockTab.Keeps tab.locks st)
    (more : ∀ address, count thr address ≤ count' thr address)
    (accepted : 0 < count' thr ga) {thread : Thread}
    (isThread : tab.locks.mapThreads.lookup thr = some thread) :
    Returns (tab.acquireOrder st thr ga) (Updates st edge
      (∃ lk thread, st.mapLocks.lookup ga = some lk ∧
        tab.locks.mapThreads.lookup thr = some thread ∧
        lk ∉ thread.locksetA ∧
        ∃ other ∈ thread.locksetA, Relation.TransGen edge lk other)) := by
  obtain ⟨lk, mapped⟩ : ∃ lk, st.mapLocks.lookup ga = some lk := by
    cases known : st.mapLocks.lookup ga with
    | some lk => exact ⟨lk, rfl⟩
    | none =>
        have nothing := holding'.absent ga known thr
        omega
  obtain ⟨lock, isLock, address⟩ := (holding'.mapped ga lk).mp mapped
  have lkAt : lock.acquiredAt = true :=
    holding'.acquiredAt isLock (by rw [address]; exact accepted)
  have oldAt : ∀ old ∈ thread.locksetA, ∃ lock,
      st.heap.lookup old = some lock ∧ lock.acquiredAt = true := by
    intro old held
    obtain ⟨before, isBefore, positive⟩ := holding.counted isThread held
    obtain ⟨after, isAfter, same⟩ := keeps old before isBefore
    have positive' : 0 < count' thr after.guestaddr := by
      rw [same]
      exact lt_of_lt_of_le positive (more before.guestaddr)
    exact ⟨after, isAfter, holding'.acquiredAt isAfter positive'⟩
  have live : ∀ {lk : Nat}, Laog.Live tab.locks lk → Laog.Live st lk := by
    rintro lk ⟨lock, isLock⟩
    obtain ⟨lock', isLock', -⟩ := keeps lk lock isLock
    exact ⟨lock', isLock'⟩
  unfold acquireOrder
  rw [mapped]
  have lkAcquired : Laog.AcquiredIn
      { st with mapThreads := tab.locks.mapThreads } lk ∨ False :=
    .inl ⟨lock, isLock, lkAt⟩
  have isThread' : ({ st with mapThreads := tab.locks.mapThreads } :
      LockTab).mapThreads.lookup thr = some thread := isThread
  have checked := (Laog.preThreadAcquiresLock_satisfies ordered.graph isThread'
    lkAcquired (fun old held => .inl (oldAt old held))).returns
  apply checked.mono
  rintro ⟨laog, order⟩ ⟨recorded, graph⟩
  dsimp only at recorded graph
  refine ⟨⟨_, ⟨graph, ?_, ?_⟩, ?_⟩, ?_⟩
  · rintro a (isEdge | ⟨unheld, held, rfl⟩)
    · exact ordered.irreflexive a isEdge
    · exact unheld held
  · rintro a b (isEdge | ⟨-, held, rfl⟩)
    · exact (ordered.live a b isEdge).imp live live
    · obtain ⟨oldLock, isOld, -⟩ := oldAt a held
      exact ⟨⟨oldLock, isOld⟩, ⟨lock, isLock⟩⟩
  · intro silent acyclic
    dsimp only at silent
    rw [silent, Option.isSome_none] at recorded
    have apart : ∀ a, lk ∉ thread.locksetA ∧ a ∈ thread.locksetA →
        ¬ Relation.ReflTransGen edge lk a := by
      rintro a ⟨unheld, held⟩ path
      rcases Relation.reflTransGen_iff_eq_or_transGen.mp path with same | path
      · rw [same] at held
        exact unheld held
      · exact absurd (recorded.mpr ⟨unheld, a, held, path⟩) (by simp)
    apply acyclic.addInto _ apart
    rintro a b (isEdge | ⟨unheld, held, same⟩)
    · exact .inl isEdge
    · exact .inr ⟨⟨unheld, held⟩, same⟩
  · dsimp only
    rw [recorded]
    constructor
    · rintro ⟨unheld, path⟩
      exact ⟨lk, thread, rfl, isThread, unheld, path⟩
    · rintro ⟨found, other, isFound, isOther, unheld, path⟩
      cases isFound
      rw [isThread] at isOther
      cases isOther
      exact ⟨unheld, path⟩

/-- A destruction. -/
theorem Ordered.destroy (ordered : Ordered tab edge)
    (holding : LockTab.Holding tab.locks count)
    (kept : ∀ other, tab.locks.mapLocks.lookup ga ≠ some other →
      st.heap.lookup other = tab.locks.heap.lookup other) :
    Returns (do
      let laog ← tab.destroyOrder ga
      pure (laog, none)) (Updates st edge False) := by
  unfold destroyOrder
  cases mapped : tab.locks.mapLocks.lookup ga with
  | none =>
      apply Returns.pure
      apply ordered.unchanged _ not_false
      intro lk lock isLock
      refine ⟨lock, ?_, rfl⟩
      rw [kept lk (by simp [mapped])]
      exact isLock
  | some lk =>
      obtain ⟨lock, isLock, -⟩ := (holding.mapped ga lk).mp mapped
      have deref : tab.locks.deref lk = .ok lock := by
        simp [LockTab.deref, isLock]
      have still : ∀ {other : Nat} {lock' : Lock},
          Laog.Live tab.locks other →
          Laog.Live (tab.locks.setLock lk lock') other := by
        rintro other lock' ⟨otherLock, isOther⟩
        by_cases same : other = lk
        · subst same
          exact ⟨lock', by simp [LockTab.setLock]⟩
        · exact ⟨otherLock, by simpa [LockTab.setLock, same] using isOther⟩
      have moved : ∀ {other : Nat}, other ≠ lk →
          Laog.Live tab.locks other → Laog.Live st other := by
        rintro other different ⟨otherLock, isOther⟩
        refine ⟨otherLock, ?_⟩
        rw [kept other (by
          rw [mapped]
          exact fun same => different (Option.some.inj same).symm)]
        exact isOther
      dsimp only
      rw [deref, ok_bind]
      have predsLive : ∀ a, edge a lk → Laog.Live (tab.locks.setLock lk
          { lock with heldBy := none, heldW := false, acquiredAt := false }) a ∨
          False :=
        fun a into => .inl (still (ordered.live a lk into).1)
      have deleted := (Laog.handleOneLockDeletion_satisfies ordered.graph
        predsLive
        (fun b out => .inl (still (ordered.live lk b out).2))).returns
      apply deleted.bind
      intro laog graph
      refine .pure ⟨⟨_, ⟨graph, ?_, ?_⟩, fun _ acyclic => acyclic.bypass⟩, ?_⟩
      · rintro a (⟨-, -, isEdge⟩ | ⟨different, -, -⟩)
        · exact ordered.irreflexive a isEdge
        · exact different rfl
      · rintro a b (⟨aAside, bAside, isEdge⟩ | ⟨-, into, out⟩)
        · exact ⟨moved aAside (ordered.live a b isEdge).1,
            moved bAside (ordered.live a b isEdge).2⟩
        · refine ⟨moved ?_ (ordered.live a lk into).1,
            moved ?_ (ordered.live lk b out).2⟩
          · rintro rfl
            exact ordered.irreflexive a into
          · rintro rfl
            exact ordered.irreflexive b out
      · simp

end Steps

section Runs

variable {tab : OrderTab} {st : LockTab} {edge : Nat → Nat → Prop}
  {count : LockTab.Tally} {errors : List HgError} {event : LockEvent}

private theorem le_set_succ (count : LockTab.Tally) (thr ga address : Nat) :
    count thr address ≤
      count.set thr ga (count thr ga + 1) thr address := by
  unfold LockTab.Tally.set
  split
  case isTrue same =>
    rw [same.2]
    omega
  case isFalse => exact le_rfl

/-- The acquisition by either handler. -/
theorem Ordered.acquisition (ordered : Ordered tab edge)
    (holding : LockTab.Holding tab.locks count) {thr ga : Nat}
    (holding' : LockTab.Holding st (if errors = [] then
      count.set thr ga (count thr ga + 1) else count))
    (keeps : LockTab.Keeps tab.locks st)
    (isThread : ∃ thread, tab.locks.mapThreads.lookup thr = some thread) :
    Returns (if errors = [] then tab.acquireOrder st thr ga
        else .ok (tab.laog, none))
      (Updates st edge (errors = [] ∧ ∃ lk thread,
        st.mapLocks.lookup ga = some lk ∧
        tab.locks.mapThreads.lookup thr = some thread ∧
        lk ∉ thread.locksetA ∧
        ∃ other ∈ thread.locksetA, Relation.TransGen edge lk other)) := by
  split
  case isTrue accepted =>
    obtain ⟨thread, isThread⟩ := isThread
    rw [if_pos accepted] at holding'
    have counted : 0 < count.set thr ga (count thr ga + 1) thr ga := by
      simp [LockTab.Tally.set]
    simp only [accepted, true_and]
    exact ordered.acquire holding holding' keeps
      (le_set_succ count thr ga) counted isThread
  case isFalse refused =>
    exact .ok (ordered.unchanged keeps fun both => refused both.1)

theorem isThread_of_sane {thr : Nat} {done : Unit}
    (passed : tlAssert (st.isSaneThread thr = true) = .ok done) :
    ∃ thread, st.mapThreads.lookup thr = some thread := by
  have sane := tlAssert_eq_ok passed
  exact Option.isSome_iff_exists.mp sane

/-- One event, whose handler has returned. -/
theorem Ordered.updateLaog (ordered : Ordered tab edge)
    (holding : LockTab.Holding tab.locks count)
    (done : tab.locks.handle event = .ok (st, errors)) :
    Returns (tab.updateLaog st errors event)
      (Updates st edge (tab.Complains st errors edge event)) := by
  have holding' := holding.handle done
  cases event with
  | mutexInitPost thr ga mbRec fresh | rwlockInitPost thr ga fresh =>
      exact .ok (ordered.unchanged (LockTab.lookupOrCreate_keeps done)
        not_false)
  | mutexLockPre thr ga isTryLock =>
      rw [LockTab.mutexLockPre_eq_ok done]
      exact .ok (ordered.unchanged (.refl _) not_false)
  | rwlockLockPre thr ga isW isTryLock =>
      rw [LockTab.rwlockLockPre_eq_ok done]
      exact .ok (ordered.unchanged (.refl _) not_false)
  | mutexUnlockPost thr ga | rwlockUnlockPost thr ga =>
      obtain ⟨_, -, same⟩ := bind_eq_ok.mp done
      cases same
      exact .ok (ordered.unchanged (.refl _) not_false)
  | mutexUnlockPre thr ga | rwlockUnlockPre thr ga =>
      exact .ok (ordered.unchanged
        (LockTab.preThreadReleasesLock_keeps done) not_false)
  | mutexDestroyPre thr ga =>
      change LockTab.mutexDestroyPre tab.locks thr ga = _ at done
      unfold LockTab.mutexDestroyPre at done
      exact ordered.destroy holding fun other apart =>
        LockTab.destroyPre_heap done apart
  | rwlockDestroyPre thr ga =>
      change LockTab.rwlockDestroyPre tab.locks thr ga = _ at done
      unfold LockTab.rwlockDestroyPre at done
      exact ordered.destroy holding fun other apart =>
        LockTab.destroyPre_heap done apart
  | mutexLockPost thr ga fresh =>
      obtain ⟨_, sane, -⟩ := bind_eq_ok.mp done
      exact ordered.acquisition holding holding'
        (LockTab.postThreadWAcquiresLock_keeps done) (isThread_of_sane sane)
  | rwlockLockPost thr ga isW fresh =>
      cases isW with
      | true =>
          obtain ⟨_, sane, -⟩ := bind_eq_ok.mp done
          exact ordered.acquisition holding holding'
            (LockTab.postThreadWAcquiresLock_keeps done)
            (isThread_of_sane sane)
      | false =>
          obtain ⟨_, sane, -⟩ := bind_eq_ok.mp done
          exact ordered.acquisition holding holding'
            (LockTab.postThreadRAcquiresLock_keeps done)
            (isThread_of_sane sane)

/-- The whole handler. -/
theorem Ordered.handle (ordered : Ordered tab edge)
    (holding : LockTab.Holding tab.locks count)
    (done : tab.locks.handle event = .ok (st, errors)) :
    Returns (tab.handle event) (fun next => next.1.locks = st ∧
      (∃ edge', Ordered next.1 edge' ∧
        (next.2 = none → Acyclic edge → Acyclic edge')) ∧
      (next.2.isSome = true ↔ tab.Complains st errors edge event)) := by
  unfold OrderTab.handle
  rw [done, ok_bind]
  apply (ordered.updateLaog holding done).bind
  intro result updates
  exact .pure ⟨rfl, updates.ordered, updates.recorded⟩

theorem Ordered.foldlM (ordered : Ordered tab edge)
    (holding : LockTab.Holding tab.locks count) {orders : List LockOrder}
    (acyclic : orders = [] → Acyclic edge) {events : List LockEvent}
    {log log' : List (LockEvent × List HgError)}
    (ran : events.foldlM LockTab.handleLogged (tab.locks, log) =
      .ok (st, log')) :
    Returns (events.foldlM handleLogged (tab, orders)) (fun out =>
      out.1.locks = st ∧ ∃ edge' count', Ordered out.1 edge' ∧
        LockTab.Holding st count' ∧ (out.2 = [] → Acyclic edge')) := by
  induction events generalizing tab edge count orders log with
  | nil =>
      cases ran
      exact .pure ⟨rfl, edge, count, ordered, holding, acyclic⟩
  | cons event events induction =>
      rw [List.foldlM_cons] at ran ⊢
      obtain ⟨⟨st₁, log₁⟩, first, ran⟩ := bind_eq_ok.mp ran
      obtain ⟨⟨st₂, errors⟩, done, same⟩ := bind_eq_ok.mp first
      cases same
      unfold handleLogged
      have handled := ordered.handle holding done
      obtain ⟨⟨tab₁, order⟩, returned, sameLocks, ⟨edge₁, ordered₁, kept⟩, -⟩ :=
        handled
      rw [returned]
      dsimp only at sameLocks ordered₁ kept
      subst sameLocks
      refine induction ordered₁ (holding.handle done) ?_ ran
      intro silent
      obtain ⟨noneBefore, noneNow⟩ := List.append_eq_nil_iff.mp silent
      exact kept (Option.toList_eq_nil_iff.mp noneNow) (acyclic noneBefore)

/-- As long as no lock order error is recorded, the graph has no cycle; and an
acquisition records one if and only if the thread did not hold the lock and
there is a path from it to a lock that the thread holds. -/
theorem lock_order_error_iff_path {thrs : List Nat} {busLockGa busLock : Nat}
    {events : List LockEvent} {log : List (LockEvent × List HgError)}
    (ran : (LockTab.init thrs busLockGa busLock).run events =
      .ok (st, log)) :
    Returns (OrderTab.run thrs busLockGa busLock events) (fun out =>
      out.1.locks = st ∧
      (out.2 = [] → Acyclic out.1.laog.Edge) ∧
      ∀ event st' errors, st.handle event = .ok (st', errors) →
        Returns (out.1.handle event) (fun next => next.1.locks = st' ∧
          (next.2.isSome = true ↔
            out.1.Complains st' errors out.1.laog.Edge event))) := by
  unfold OrderTab.run
  apply Laog.init_returns.bind
  intro laog graph
  have start : Ordered ⟨LockTab.init thrs busLockGa busLock, laog⟩
      (fun _ _ => False) := ⟨graph, by simp, by simp⟩
  have noCycle : Acyclic (fun _ _ : Nat => False) := by
    intro a cycle
    obtain ⟨_, step, -⟩ := Relation.TransGen.head'_iff.mp cycle
    exact step
  apply (start.foldlM (LockTab.Holding.init thrs busLockGa busLock)
    (fun _ => noCycle) ran).mono
  rintro ⟨tab, orders⟩ ⟨sameLocks, edge, count, ordered, holding, acyclic⟩
  dsimp only at sameLocks ordered acyclic ⊢
  subst sameLocks
  rw [ordered.graph.edge_eq]
  refine ⟨rfl, acyclic, ?_⟩
  intro event st' errors done
  apply (ordered.handle holding done).mono
  intro next handled
  exact ⟨handled.1, handled.2.2⟩

/-- Thread 1 acquires the locks at 16 and 24 in this order, and thread 2 in
the other.  The graph has no cycle until the last event, which is reported. -/
theorem lock_order_error_iff_path_inversion :
    ∃ tab, OrderTab.run [1, 2] 0 10 [.mutexLockPost 1 16 11,
        .mutexLockPost 1 24 12, .mutexUnlockPre 1 24, .mutexUnlockPre 1 16,
        .mutexLockPost 2 24 13] = .ok (tab, []) ∧
      Acyclic tab.laog.Edge ∧
      Relation.TransGen tab.laog.Edge 11 12 ∧
      (tab.handle (.mutexLockPost 2 16 13)).toOption.map Prod.snd =
        some (some ⟨2, 16, 24, true⟩) := by
  have seen : (OrderTab.run [1, 2] 0 10 [.mutexLockPost 1 16 11,
      .mutexLockPost 1 24 12, .mutexUnlockPre 1 24, .mutexUnlockPre 1 16,
      .mutexLockPost 2 24 13]).toOption.map (fun out => (out.2,
        out.1.laog.outs 11, (out.1.handle
          (.mutexLockPost 2 16 13)).toOption.map Prod.snd)) =
      some ([], [12], some (some ⟨2, 16, 24, true⟩)) := by decide
  have locked : ((LockTab.init [1, 2] 0 10).run [.mutexLockPost 1 16 11,
      .mutexLockPost 1 24 12, .mutexUnlockPre 1 24, .mutexUnlockPre 1 16,
      .mutexLockPost 2 24 13]).toOption.map (fun _ => ()) = some () := by
    decide
  obtain ⟨⟨tab, orders⟩, ran, view⟩ := exists_ok_of_map seen
  obtain ⟨silent, view⟩ := Prod.mk.inj view
  obtain ⟨outs, complaint⟩ := Prod.mk.inj view
  obtain ⟨⟨st, log⟩, ranLocks, -⟩ := exists_ok_of_map locked
  obtain ⟨-, acyclic, -⟩ := (lock_order_error_iff_path ranLocks).of_eq_ok ran
  dsimp only at silent outs complaint acyclic
  subst silent
  have edge : tab.laog.Edge 11 12 := by
    rw [Laog.Edge, outs]
    exact List.mem_singleton_self 12
  exact ⟨tab, ran, acyclic rfl, .single edge, complaint⟩

end Runs
end OrderTab
end HelgrindPlus
