import HelgrindPlus.Main.SpinLocks

/-!
# How the lock tables and the detector stop

They know nothing of reference counts: they stop at an assertion of their own
or at a pointer to nothing.
-/

namespace HelgrindPlus

open Outcome

/-- A failed assertion or a pointer to nothing. -/
def Abort.Asserts (abort : Abort) : Prop :=
  abort = .tlAssert ∨ abort = .dangling

/-- The computation stops at most in this way. -/
abbrev Asserts {α : Type} (computation : Except Abort α) : Prop :=
  Satisfies Abort.Asserts computation fun _ => True

theorem tlAssert_asserts {condition : Prop} [Decidable condition] :
    Asserts (tlAssert condition) := by
  unfold tlAssert
  split
  · trivial
  · exact .inl rfl

theorem Asserts.foldlM {σ ι : Type} {step : σ → ι → Except Abort σ}
    (asserts : ∀ state item, Asserts (step state item)) (items : List ι)
    (start : σ) : Asserts (items.foldlM step start) :=
  Satisfies.foldlM_kept (fun state item _ _ => asserts state item) trivial

namespace LockTab

variable (st : LockTab)

theorem getThread_asserts (thr : Nat) : Asserts (st.getThread thr) := by
  unfold getThread
  split
  · trivial
  · exact .inl rfl

private theorem deref_asserts (lk : Nat) : Asserts (st.deref lk) := by
  unfold deref
  split
  · trivial
  · exact .inr rfl

private theorem mapLocksLookupOrCreate_asserts (lkk : LockKind)
    (ga fresh : Nat) : Asserts (st.mapLocksLookupOrCreate lkk ga fresh) := by
  have makes : Asserts (st.mkLockN lkk ga fresh) := by
    unfold mkLockN
    split
    · exact .inr rfl
    · apply tlAssert_asserts.bind
      exact fun _ _ => trivial
  unfold mapLocksLookupOrCreate
  split
  · apply makes.bind
    exact fun _ _ => trivial
  · apply (st.deref_asserts _).bind
    intro _ _
    apply tlAssert_asserts.bind
    intro _ _
    apply tlAssert_asserts.bind
    exact fun _ _ => trivial

private theorem noteAcquired_asserts (lock : Lock) :
    Asserts (noteAcquired lock) := by
  unfold noteAcquired
  split
  · apply tlAssert_asserts.bind
    exact fun _ _ => trivial
  · apply tlAssert_asserts.bind
    exact fun _ _ => trivial

private theorem acquireByKind_asserts (lock : Lock) (thr : Nat) :
    Asserts (acquireByKind lock thr) := by
  have unheld : Asserts (acquireUnheld lock thr) := by
    apply tlAssert_asserts.bind
    intro _ _
    apply tlAssert_asserts.bind
    exact fun _ _ => trivial
  unfold acquireByKind
  split
  · exact unheld
  · exact unheld
  · iterate 3
      apply tlAssert_asserts.bind
      intro _ _
    trivial
  · apply tlAssert_asserts.bind
    exact fun _ _ => unheld

theorem lockNAcquireWriter_asserts (lock : Lock) (thr : Nat) :
    Asserts (st.lockNAcquireWriter lock thr) := by
  iterate 2
    apply tlAssert_asserts.bind
    intro _ _
  apply (noteAcquired_asserts lock).bind
  intro noted _
  apply (acquireByKind_asserts noted thr).bind
  intro _ _
  apply tlAssert_asserts.bind
  exact fun _ _ => trivial

private theorem lockNAcquireReader_asserts (lock : Lock) (thr : Nat) :
    Asserts (st.lockNAcquireReader lock thr) := by
  iterate 4
    apply tlAssert_asserts.bind
    intro _ _
  apply (noteAcquired_asserts lock).bind
  intro noted _
  apply tlAssert_asserts.bind
  intro _ _
  apply tlAssert_asserts.bind
  exact fun _ _ => trivial

private theorem lockNRelease_asserts (lock : Lock) (thr : Nat) :
    Asserts (st.lockNRelease lock thr) := by
  iterate 2
    apply tlAssert_asserts.bind
    intro _ _
  split
  · exact .inl rfl
  · iterate 3
      apply tlAssert_asserts.bind
      intro _ _
    trivial

private theorem noError_asserts (thr lk : Nat) (lock : Lock) :
    Asserts (st.noErrorW thr lk lock) ∧ Asserts (st.noErrorR thr lk lock) := by
  constructor
  · apply (st.getThread_asserts thr).bind
    intro _ _
    apply tlAssert_asserts.bind
    exact fun _ _ => trivial
  · apply (st.getThread_asserts thr).bind
    intro _ _
    apply tlAssert_asserts.bind
    exact fun _ _ => trivial

theorem postThreadWAcquiresLock_asserts (thr : Nat) (lkk : LockKind)
    (lockGa fresh : Nat) :
    Asserts (st.postThreadWAcquiresLock thr lkk lockGa fresh) := by
  have acquires : ∀ (st : LockTab) lock lk, Asserts (do
      let lock ← st.lockNAcquireWriter lock thr
      st.noErrorW thr lk lock) := by
    intro st lock lk
    apply (st.lockNAcquireWriter_asserts lock thr).bind
    exact fun acquired _ => (st.noError_asserts thr lk acquired).1
  apply tlAssert_asserts.bind
  intro _ _
  apply (st.mapLocksLookupOrCreate_asserts lkk lockGa fresh).bind
  intro entered _
  apply (entered.1.deref_asserts entered.2).bind
  intro lock _
  apply tlAssert_asserts.bind
  intro _ _
  split
  · apply tlAssert_asserts.bind
    exact fun _ _ => acquires entered.1 lock entered.2
  split
  · trivial
  apply tlAssert_asserts.bind
  intro _ _
  split
  · trivial
  split
  · trivial
  · exact acquires entered.1 lock entered.2

private theorem postThreadRAcquiresLock_asserts (thr : Nat) (lkk : LockKind)
    (lockGa fresh : Nat) :
    Asserts (st.postThreadRAcquiresLock thr lkk lockGa fresh) := by
  have acquires : ∀ (st : LockTab) lock lk, Asserts (do
      let lock ← st.lockNAcquireReader lock thr
      st.noErrorR thr lk lock) := by
    intro st lock lk
    apply (st.lockNAcquireReader_asserts lock thr).bind
    exact fun acquired _ => (st.noError_asserts thr lk acquired).2
  iterate 2
    apply tlAssert_asserts.bind
    intro _ _
  apply (st.mapLocksLookupOrCreate_asserts lkk lockGa fresh).bind
  intro entered _
  apply (entered.1.deref_asserts entered.2).bind
  intro lock _
  apply tlAssert_asserts.bind
  intro _ _
  split
  · apply tlAssert_asserts.bind
    exact fun _ _ => acquires entered.1 lock entered.2
  split
  · trivial
  · exact acquires entered.1 lock entered.2

private theorem afterRelease_asserts (thr lk n : Nat) (lock : Lock) :
    Asserts (st.afterRelease thr lk n lock) := by
  apply (st.getThread_asserts thr).bind
  intro _ _
  split
  · split
    · exact .inl rfl
    · iterate 4
        apply tlAssert_asserts.bind
        intro _ _
      trivial
  · iterate 2
      apply tlAssert_asserts.bind
      intro _ _
    trivial

theorem preThreadReleasesLock_asserts (thr lockGa : Nat) (isRDWR : Bool) :
    Asserts (st.preThreadReleasesLock thr lockGa isRDWR) := by
  apply tlAssert_asserts.bind
  intro _ _
  split
  · trivial
  rename_i lk _
  apply (st.deref_asserts lk).bind
  intro lock _
  iterate 2
    apply tlAssert_asserts.bind
    intro _ _
  apply (st.getThread_asserts thr).bind
  intro _ _
  split
  · iterate 3
      apply tlAssert_asserts.bind
      intro _ _
    trivial
  split
  · iterate 5
      apply tlAssert_asserts.bind
      intro _ _
    trivial
  · apply (st.lockNRelease_asserts lock thr).bind
    intro released _
    apply (st.afterRelease_asserts thr lk _ released).bind
    intro _ _
    apply tlAssert_asserts.bind
    exact fun _ _ => trivial

private theorem removeFromLocksets_asserts (lk : Nat) (heldW : Bool)
    (thr : Nat) : Asserts (removeFromLocksets lk heldW st thr) := by
  apply (st.getThread_asserts thr).bind
  intro _ _
  apply tlAssert_asserts.bind
  intro _ _
  split
  · apply tlAssert_asserts.bind
    exact fun _ _ => trivial
  · trivial

private theorem releaseAll_asserts (lk : Nat) (lock : Lock)
    (error : HgError) : Asserts (st.releaseAll lk lock error) := by
  unfold releaseAll
  split
  · have removes : Asserts
        (st.removeLockFromLocksetsOfAllOwningThreads lk lock) := by
      unfold removeLockFromLocksetsOfAllOwningThreads
      split
      · apply tlAssert_asserts.bind
        exact fun _ _ => trivial
      · exact Asserts.foldlM
          (fun st => st.removeFromLocksets_asserts lk lock.heldW) _ st
    apply removes.bind
    exact fun _ _ => trivial
  · trivial

private theorem destroyPre_asserts (rightKind : LockKind → Bool)
    (invalid locked : String) (thr ga : Nat) :
    Asserts (destroyPre rightKind invalid locked st thr ga) := by
  apply tlAssert_asserts.bind
  intro _ _
  split
  · trivial
  rename_i lk _
  apply (st.deref_asserts lk).bind
  intro lock _
  iterate 2
    apply tlAssert_asserts.bind
    intro _ _
  apply (st.releaseAll_asserts lk lock _).bind
  intro _ _
  iterate 2
    apply tlAssert_asserts.bind
    intro _ _
  trivial

theorem handle_asserts (event : LockEvent) : Asserts (st.handle event) := by
  have looksUp : ∀ (lk : Nat) (errors : Lock → List HgError), Asserts (do
      let lock ← st.deref lk
      pure (st, errors lock)) := by
    intro lk errors
    apply (st.deref_asserts lk).bind
    exact fun _ _ => trivial
  cases event with
  | mutexInitPost _ mutex mbRec fresh | rwlockInitPost _ mutex fresh =>
      apply (st.mapLocksLookupOrCreate_asserts _ mutex fresh).bind
      exact fun _ _ => trivial
  | mutexDestroyPre thr mutex =>
      unfold handle mutexDestroyPre
      exact st.destroyPre_asserts _ _ _ thr mutex
  | rwlockDestroyPre thr rwl =>
      unfold handle rwlockDestroyPre
      exact st.destroyPre_asserts _ _ _ thr rwl
  | mutexLockPre thr mutex | rwlockLockPre thr mutex =>
      apply (st.getThread_asserts thr).bind
      intro _ _
      split
      · trivial
      · exact looksUp _ _
  | mutexLockPost thr mutex fresh =>
      exact st.postThreadWAcquiresLock_asserts thr .mbRec mutex fresh
  | mutexUnlockPre thr mutex | rwlockUnlockPre thr mutex =>
      exact st.preThreadReleasesLock_asserts thr mutex _
  | rwlockLockPost thr rwl isW fresh =>
      cases isW with
      | true => exact st.postThreadWAcquiresLock_asserts thr .rdwr rwl fresh
      | false => exact st.postThreadRAcquiresLock_asserts thr .rdwr rwl fresh
  | mutexUnlockPost thr | rwlockUnlockPost thr =>
      apply (st.getThread_asserts thr).bind
      exact fun _ _ => trivial

end LockTab

namespace Detector

variable (d : Detector) (run : Running)

theorem mapSpinLocksLookupOrCreate_asserts (map : SpinLocks) (ga : Nat) :
    Asserts (d.mapSpinLocksLookupOrCreate map ga) := by
  unfold mapSpinLocksLookupOrCreate
  split
  · trivial
  · apply tlAssert_asserts.bind
    exact fun _ _ => trivial

theorem onSpinRead_asserts (accAddr : Nat) :
    Asserts (d.onSpinRead run accAddr) := by
  unfold onSpinRead
  split
  · exact .inr rfl
  · apply (d.mapSpinLocksLookupOrCreate_asserts _ accAddr).bind
    exact fun _ _ => trivial

private theorem releaseBoth_asserts (st : LockTab) (lk : SpinLock)
    (owner accAddr : Nat) : Asserts (releaseBoth st lk owner accAddr) := by
  apply (st.lockNRelease_asserts lk.sLk owner).bind
  intro _ _
  apply (st.preThreadReleasesLock_asserts owner accAddr false).bind
  exact fun _ _ => trivial

private theorem unlock_asserts (st : LockTab) (tid accAddr : Nat)
    (lk : SpinLock) : Asserts (unlock st tid accAddr lk) := by
  unfold unlock
  split
  · split <;> trivial
  split
  · split
    · exact .inl rfl
    · apply (releaseBoth_asserts st lk _ accAddr).bind
      exact fun _ _ => trivial
  · apply (releaseBoth_asserts st lk tid accAddr).bind
    exact fun _ _ => trivial

private theorem releaseWrite_asserts (accAddr : Nat) :
    Asserts (d.releaseWrite run accAddr) := by
  unfold releaseWrite
  split
  · exact .inr rfl
  split
  · trivial
  rename_i lk _
  have noted : Asserts (d.setLastReleaseWriter lk run.tid) := by
    unfold setLastReleaseWriter
    split
    · trivial
    · apply (d.locks.getThread_asserts run.tid).bind
      exact fun _ _ => trivial
  apply noted.bind
  intro _ _
  apply (unlock_asserts d.locks run.tid accAddr _).bind
  intro _ _
  apply tlAssert_asserts.bind
  exact fun _ _ => trivial

private theorem acquireWrite_asserts (atomic : Bool) (accAddr : Nat) :
    Asserts (d.acquireWrite run atomic accAddr) := by
  unfold acquireWrite
  split
  · exact .inr rfl
  split
  · split
    · exact .inr rfl
    apply (d.mapSpinLocksLookupOrCreate_asserts _ accAddr).bind
    intro _ _
    dsimp only
    split
    · split
      · exact .inr rfl
      · trivial
    · trivial
  · trivial

theorem spinWrite_asserts (atomic : Bool) (accAddr : Nat) :
    Asserts (d.spinWrite run atomic accAddr) := by
  apply (d.locks.getThread_asserts run.tid).bind
  intro _ _
  split
  · apply (d.releaseWrite_asserts run accAddr).bind
    exact fun _ _ => trivial
  · exact d.acquireWrite_asserts run atomic accAddr

theorem plainSpinWrite_asserts (accAddr : Nat) :
    Asserts (d.plainSpinWrite run accAddr) := by
  apply (d.spinWrite_asserts run false accAddr).bind
  exact fun _ _ => trivial

theorem exitThread_asserts (quitTid : Nat) :
    Asserts (d.exitThread quitTid) := by
  have round : ∀ (d : Detector) addr,
      Asserts (exitThreadRound quitTid d addr) := by
    intro d addr
    unfold exitThreadRound
    split
    · trivial
    split
    · trivial
    split
    · trivial
    split
    · trivial
    · apply (releaseBoth_asserts d.locks _ _ addr).bind
      exact fun _ _ => trivial
  exact Asserts.foldlM round _ d

end Detector
end HelgrindPlus
