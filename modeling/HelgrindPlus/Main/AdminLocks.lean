import HelgrindPlus.Main.Holding

/-!
# The list of all locks

Every lock is entered at the head of `admin_locks` when it is made, by
`map_locks_lookup_or_create` or for a detected spin lock.  The list and
`map_locks` describe the same locks until a lock is destroyed, which does not
take it off the list, or a spin lock is made, which does not enter it in
`map_locks`.
-/

namespace HelgrindPlus

open Outcome

/-- The list of the nodes that a walk visits. -/
def Linked (next : Nat → Option Nat) : Option Nat → List Nat → Prop
  | head, [] => head = none
  | head, node :: rest => head = some node ∧ Linked next (next node) rest

namespace Linked

variable {next : Nat → Option Nat} {head : Option Nat}
  {nodes others : List Nat}

theorem unique (linked : Linked next head nodes)
    (other : Linked next head others) : nodes = others := by
  induction nodes generalizing head others with
  | nil =>
      cases others with
      | nil => rfl
      | cons node rest =>
          have atEnd : head = none := linked
          rw [other.1] at atEnd
          cases atEnd
  | cons node rest induction =>
      cases others with
      | nil =>
          have atEnd : head = none := other
          rw [linked.1] at atEnd
          cases atEnd
      | cons node' rest' =>
          have same : node = node' :=
            Option.some.inj (linked.1.symm.trans other.1)
          subst same
          rw [induction linked.2 other.2]

/-- A field outside the list does not matter. -/
theorem update {fresh : Nat} (linked : Linked next head nodes)
    (outside : fresh ∉ nodes) (value : Option Nat) :
    Linked (Function.update next fresh value) head nodes := by
  induction nodes generalizing head with
  | nil => exact linked
  | cons node rest induction =>
      rw [List.mem_cons, not_or] at outside
      obtain ⟨notNode, notRest⟩ := outside
      refine ⟨linked.1, ?_⟩
      rw [Function.update_of_ne (Ne.symm notNode)]
      exact induction linked.2 notRest

end Linked

/-- The locks, with `admin_locks` and the field `admin` of each lock. -/
structure AdminTab where
  tab : LockTab
  adminLocks : Option Nat
  admin : Nat → Option Nat

namespace AdminTab

/-- What `mk_LockN` does besides making the lock. -/
def enter (st : AdminTab) (lk : Nat) : AdminTab :=
  { st with
    adminLocks := some lk
    admin := Function.update st.admin lk st.adminLocks }

end AdminTab

/-- The address and the new lock, if any, of the call of
`map_locks_lookup_or_create` that a handler makes. -/
def LockEvent.creates : LockEvent → Option (Nat × Nat)
  | .mutexInitPost _ ga _ fresh | .mutexLockPost _ ga fresh
  | .rwlockInitPost _ ga fresh | .rwlockLockPost _ ga _ fresh =>
      some (ga, fresh)
  | _ => none

/-- The lock that the handler makes. -/
def LockEvent.makes (tab : LockTab) (event : LockEvent) : Option Nat :=
  match event.creates with
  | some (ga, fresh) =>
      if tab.mapLocks.lookup ga = none then some fresh else none
  | none => none

/-- A handler of a lock, or the part of `mk_SpinLock` that makes one. -/
inductive AdminEvent where
  | lock (event : LockEvent)
  | mkSpinLock (ga fresh : Nat)
  deriving DecidableEq

namespace AdminTab

/-- A handler, which enters the lock that it makes. -/
def handleLock (st : AdminTab) (event : LockEvent) :
    Except Abort AdminTab := do
  let (tab, _) ← st.tab.handle event
  match event.makes st.tab with
  | some lk => pure { st.enter lk with tab := tab }
  | none => pure { st with tab := tab }

def mkSpinLock (st : AdminTab) (ga fresh : Nat) : Except Abort AdminTab := do
  let tab ← st.tab.mkLockN .mbRec ga fresh
  pure { st.enter fresh with tab := tab }

def handle (st : AdminTab) : AdminEvent → Except Abort AdminTab
  | .lock event => st.handleLock event
  | .mkSpinLock ga fresh => st.mkSpinLock ga fresh

/-- The state after `initialise_data_structures`. -/
def init (thrs : List Nat) (busLockGa busLock : Nat) : AdminTab where
  tab := .init thrs busLockGa busLock
  adminLocks := some busLock
  admin := fun _ => none

def run (st : AdminTab) (events : List AdminEvent) : Except Abort AdminTab :=
  events.foldlM handle st

/-- A walk along the list.  It fails if it comes to a freed lock or has not
ended after `rounds` locks. -/
def walk (st : AdminTab) : Nat → Option Nat → Option (List Nat)
  | _, none => some []
  | 0, some _ => none
  | rounds + 1, some lk =>
      if (st.tab.heap.lookup lk).isSome then
        (st.walk rounds (st.admin lk)).map (lk :: ·)
      else none

/-- What is checked of a thread that holds the lock. -/
def checkHolder (st : AdminTab) (lk : Nat) (heldW : Bool) (thr : Nat) :
    Except Abort Unit := do
  let thread ← st.tab.getThread thr
  tlAssert (lk ∈ thread.locksetA)
  tlAssert (heldW = true → lk ∈ thread.locksetW)
  tlAssert (heldW = false → lk ∉ thread.locksetW)

/-- What is checked of a lock on the list. -/
def checkLock (st : AdminTab) (lk : Nat) : Except Abort Unit := do
  let lock ← st.tab.deref lk
  tlAssert (st.tab.isSaneLockN lock = true)
  tlAssert (st.tab.mapLocks.lookup lock.guestaddr = some lk)
  match lock.heldBy with
  | some bag => bag.dedup.forM (st.checkHolder lk lock.heldW)
  | none => tlAssert (lock.heldW = false)

/-- What is checked of an entry of `map_locks`. -/
def checkEntry (st : AdminTab) (entry : Sigma fun _ : Nat => Nat) :
    Except Abort Unit := do
  let lock ← st.tab.deref entry.2
  tlAssert (lock.guestaddr = entry.1)

/-- The function `locks__sanity_check`, whose loops go on for at most
`rounds` locks. -/
def locksSanityCheck (rounds : Nat) (st : AdminTab) : Except Abort Unit :=
  match st.walk rounds st.adminLocks with
  | none => .error .dangling
  | some chain => do
      tlAssert (chain.length = st.tab.mapLocks.entries.length)
      st.tab.mapLocks.entries.forM st.checkEntry
      chain.forM st.checkLock

/-- The list is finite without repetition and has the locks of `map_locks`,
which are sane, and the check passes. -/
def Described (st : AdminTab) : Prop :=
  ∃ chain, Linked st.admin st.adminLocks chain ∧ chain.Nodup ∧
    chain.length = st.tab.mapLocks.entries.length ∧
    (∀ lk ∈ chain, ∃ lock, st.tab.heap.lookup lk = some lock ∧
      st.tab.isSaneLockN lock = true ∧
      st.tab.mapLocks.lookup lock.guestaddr = some lk) ∧
    ∀ rounds, chain.length ≤ rounds → locksSanityCheck rounds st = .ok ()

end AdminTab

/-- The handler does not destroy a lock that exists. -/
def LockEvent.Keeps (tab : LockTab) : LockEvent → Prop
  | .mutexDestroyPre _ ga | .rwlockDestroyPre _ ga =>
      tab.mapLocks.lookup ga = none
  | _ => True

/-- The event does not destroy a lock that exists, and makes no spin lock. -/
def AdminEvent.Harmless (st : AdminTab) : AdminEvent → Prop
  | .lock event => event.Keeps st.tab
  | .mkSpinLock _ _ => False

namespace LockTab

section Entries

variable {st st' : LockTab} {lk thr ga fresh : Nat} {lock : Lock}
  {errors : List HgError}

theorem setLock_entries (present : lk ∈ st.heap) (q : Nat) :
    q ∈ (st.setLock lk lock).heap ↔ q ∈ st.heap := by
  change q ∈ st.heap.insert lk lock ↔ _
  rw [AList.mem_insert]
  constructor
  · rintro (rfl | isOld)
    · exact present
    · exact isOld
  · exact .inr

theorem mem_heap_of_lookup (found : st.heap.lookup lk = some lock) :
    lk ∈ st.heap := by
  rw [← AList.lookup_isSome, found]
  rfl

/-- The locks after `map_locks_lookup_or_create`. -/
theorem mapLocksLookupOrCreate_entries {lkk : LockKind}
    (done : st.mapLocksLookupOrCreate lkk ga fresh = .ok (st', lk)) :
    (∀ q, q ∈ st'.heap ↔ q ∈ st.heap ∨
      st.mapLocks.lookup ga = none ∧ q = fresh) ∧
    (st.mapLocks.lookup ga = none → fresh ∉ st.heap) := by
  unfold mapLocksLookupOrCreate at done
  split at done
  · rename_i unmapped
    obtain ⟨made, make, same⟩ := bind_eq_ok.mp done
    cases same
    unfold mkLockN at make
    split at make
    · cases make
    · rename_i unused
      obtain ⟨_, -, same⟩ := bind_eq_ok.mp make
      cases same
      refine ⟨?_, fun _ => AList.lookup_eq_none.mp unused⟩
      intro q
      change q ∈ st.heap.insert _ _ ↔ _
      rw [AList.mem_insert]
      tauto
  · rename_i mapped
    obtain ⟨_, -, done⟩ := bind_eq_ok.mp done
    obtain ⟨-, -, done⟩ := bind_eq_ok.mp done
    obtain ⟨-, -, same⟩ := bind_eq_ok.mp done
    cases same
    simp [mapped]

private theorem noErrorW_entries (present : lk ∈ st.heap)
    (done : st.noErrorW thr lk lock = .ok (st', errors)) (q : Nat) :
    q ∈ st'.heap ↔ q ∈ st.heap := by
  obtain ⟨thread, -, done⟩ := bind_eq_ok.mp done
  obtain ⟨-, -, same⟩ := bind_eq_ok.mp done
  cases same
  exact setLock_entries present q

private theorem noErrorR_entries (present : lk ∈ st.heap)
    (done : st.noErrorR thr lk lock = .ok (st', errors)) (q : Nat) :
    q ∈ st'.heap ↔ q ∈ st.heap := by
  obtain ⟨thread, -, done⟩ := bind_eq_ok.mp done
  obtain ⟨-, -, same⟩ := bind_eq_ok.mp done
  cases same
  exact setLock_entries present q

private theorem postThreadWAcquiresLock_entries {lkk : LockKind}
    (done : st.postThreadWAcquiresLock thr lkk ga fresh =
      .ok (st', errors)) :
    (∀ q, q ∈ st'.heap ↔ q ∈ st.heap ∨
      st.mapLocks.lookup ga = none ∧ q = fresh) ∧
    (st.mapLocks.lookup ga = none → fresh ∉ st.heap) := by
  obtain ⟨-, -, done⟩ := bind_eq_ok.mp done
  obtain ⟨⟨st₁, lk⟩, located, done⟩ := bind_eq_ok.mp done
  obtain ⟨entries, unused⟩ := mapLocksLookupOrCreate_entries located
  refine ⟨?_, unused⟩
  obtain ⟨lock, isLock, done⟩ := bind_eq_ok.mp done
  have present := mem_heap_of_lookup (deref_eq_ok isLock)
  obtain ⟨-, -, done⟩ := bind_eq_ok.mp done
  intro q
  rw [← entries q]
  split at done
  · obtain ⟨-, -, done⟩ := bind_eq_ok.mp done
    obtain ⟨lock', -, done⟩ := bind_eq_ok.mp done
    exact noErrorW_entries present done q
  · split at done
    · cases done
      rfl
    · obtain ⟨-, -, done⟩ := bind_eq_ok.mp done
      split at done
      · cases done
        rfl
      · split at done
        · cases done
          rfl
        · obtain ⟨lock', -, done⟩ := bind_eq_ok.mp done
          exact noErrorW_entries present done q

private theorem postThreadRAcquiresLock_entries {lkk : LockKind}
    (done : st.postThreadRAcquiresLock thr lkk ga fresh =
      .ok (st', errors)) :
    (∀ q, q ∈ st'.heap ↔ q ∈ st.heap ∨
      st.mapLocks.lookup ga = none ∧ q = fresh) ∧
    (st.mapLocks.lookup ga = none → fresh ∉ st.heap) := by
  obtain ⟨-, -, done⟩ := bind_eq_ok.mp done
  obtain ⟨-, -, done⟩ := bind_eq_ok.mp done
  obtain ⟨⟨st₁, lk⟩, located, done⟩ := bind_eq_ok.mp done
  obtain ⟨entries, unused⟩ := mapLocksLookupOrCreate_entries located
  refine ⟨?_, unused⟩
  obtain ⟨lock, isLock, done⟩ := bind_eq_ok.mp done
  have present := mem_heap_of_lookup (deref_eq_ok isLock)
  obtain ⟨-, -, done⟩ := bind_eq_ok.mp done
  intro q
  rw [← entries q]
  split at done
  · obtain ⟨-, -, done⟩ := bind_eq_ok.mp done
    obtain ⟨lock', -, done⟩ := bind_eq_ok.mp done
    exact noErrorR_entries present done q
  · split at done
    · cases done
      rfl
    · obtain ⟨lock', -, done⟩ := bind_eq_ok.mp done
      exact noErrorR_entries present done q

private theorem afterRelease_entries {n : Nat} (present : lk ∈ st.heap)
    (done : st.afterRelease thr lk n lock = .ok st') (q : Nat) :
    q ∈ st'.heap ↔ q ∈ st.heap := by
  obtain ⟨thread, -, done⟩ := bind_eq_ok.mp done
  split at done
  · split at done
    · cases done
    · obtain ⟨-, -, done⟩ := bind_eq_ok.mp done
      obtain ⟨-, -, done⟩ := bind_eq_ok.mp done
      obtain ⟨-, -, done⟩ := bind_eq_ok.mp done
      obtain ⟨-, -, same⟩ := bind_eq_ok.mp done
      cases same
      exact setLock_entries present q
  · obtain ⟨-, -, done⟩ := bind_eq_ok.mp done
    obtain ⟨-, -, same⟩ := bind_eq_ok.mp done
    cases same
    exact setLock_entries present q

private theorem preThreadReleasesLock_entries {isRDWR : Bool}
    (done : st.preThreadReleasesLock thr ga isRDWR = .ok (st', errors))
    (q : Nat) : q ∈ st'.heap ↔ q ∈ st.heap := by
  obtain ⟨-, -, done⟩ := bind_eq_ok.mp done
  split at done
  · cases done
    rfl
  · obtain ⟨lock, isLock, done⟩ := bind_eq_ok.mp done
    have present := mem_heap_of_lookup (deref_eq_ok isLock)
    obtain ⟨-, -, done⟩ := bind_eq_ok.mp done
    obtain ⟨-, -, done⟩ := bind_eq_ok.mp done
    obtain ⟨thread, -, done⟩ := bind_eq_ok.mp done
    dsimp only at done
    split at done
    · obtain ⟨-, -, done⟩ := bind_eq_ok.mp done
      obtain ⟨-, -, done⟩ := bind_eq_ok.mp done
      obtain ⟨-, -, same⟩ := bind_eq_ok.mp done
      cases same
      rfl
    · split at done
      · obtain ⟨-, -, done⟩ := bind_eq_ok.mp done
        obtain ⟨-, -, done⟩ := bind_eq_ok.mp done
        obtain ⟨-, -, done⟩ := bind_eq_ok.mp done
        obtain ⟨-, -, done⟩ := bind_eq_ok.mp done
        obtain ⟨-, -, same⟩ := bind_eq_ok.mp done
        cases same
        rfl
      · obtain ⟨lock', -, done⟩ := bind_eq_ok.mp done
        obtain ⟨st₁, released, done⟩ := bind_eq_ok.mp done
        obtain ⟨-, -, same⟩ := bind_eq_ok.mp done
        cases same
        exact afterRelease_entries present released q

private theorem destroyPre_unmapped {rightKind : LockKind → Bool}
    {invalid locked : String} (unmapped : st.mapLocks.lookup ga = none)
    (done : destroyPre rightKind invalid locked st thr ga =
      .ok (st', errors)) : st' = st := by
  obtain ⟨-, -, done⟩ := bind_eq_ok.mp done
  rw [unmapped] at done
  cases done
  rfl

private theorem makes_of_creates {event : LockEvent}
    (creates : event.creates = some (ga, fresh)) (q : Nat) :
    event.makes st = some q ↔ st.mapLocks.lookup ga = none ∧ q = fresh := by
  unfold LockEvent.makes
  rw [creates]
  dsimp only
  split
  · simp_all [eq_comm]
  · simp_all

/-- The locks that a handler leaves are the old ones and the one it makes. -/
theorem handle_entries {event : LockEvent} (keeps : event.Keeps st)
    (done : st.handle event = .ok (st', errors)) :
    (∀ q, q ∈ st'.heap ↔ q ∈ st.heap ∨ event.makes st = some q) ∧
    ∀ q, event.makes st = some q → q ∉ st.heap := by
  -- a handler that asks for a lock
  have asking : ∀ {ga fresh : Nat}, event.creates = some (ga, fresh) →
      ((∀ q, q ∈ st'.heap ↔ q ∈ st.heap ∨
        st.mapLocks.lookup ga = none ∧ q = fresh) ∧
      (st.mapLocks.lookup ga = none → fresh ∉ st.heap)) →
      (∀ q, q ∈ st'.heap ↔ q ∈ st.heap ∨ event.makes st = some q) ∧
      ∀ q, event.makes st = some q → q ∉ st.heap := by
    intro ga fresh creates entries
    simp only [makes_of_creates creates]
    refine ⟨entries.1, ?_⟩
    rintro q ⟨unmapped, rfl⟩
    exact entries.2 unmapped
  -- a handler that does not
  have silent : event.creates = none →
      (∀ q, q ∈ st'.heap ↔ q ∈ st.heap) →
      (∀ q, q ∈ st'.heap ↔ q ∈ st.heap ∨ event.makes st = some q) ∧
      ∀ q, event.makes st = some q → q ∉ st.heap := by
    intro creates same
    have makes : event.makes st = none := by
      unfold LockEvent.makes
      rw [creates]
    simp [makes, same]
  cases event with
  | mutexInitPost thr ga mbRec fresh =>
      obtain ⟨⟨st₁, lk⟩, located, same⟩ := bind_eq_ok.mp done
      cases same
      exact asking rfl (mapLocksLookupOrCreate_entries located)
  | rwlockInitPost thr ga fresh =>
      obtain ⟨⟨st₁, lk⟩, located, same⟩ := bind_eq_ok.mp done
      cases same
      exact asking rfl (mapLocksLookupOrCreate_entries located)
  | mutexDestroyPre thr ga =>
      change mutexDestroyPre st thr ga = _ at done
      unfold mutexDestroyPre at done
      apply silent rfl
      intro q
      rw [destroyPre_unmapped keeps done]
  | rwlockDestroyPre thr ga =>
      change rwlockDestroyPre st thr ga = _ at done
      unfold rwlockDestroyPre at done
      apply silent rfl
      intro q
      rw [destroyPre_unmapped keeps done]
  | mutexLockPre thr ga isTryLock =>
      apply silent rfl
      intro q
      rw [mutexLockPre_eq_ok done]
  | rwlockLockPre thr ga isW isTryLock =>
      apply silent rfl
      intro q
      rw [rwlockLockPre_eq_ok done]
  | mutexLockPost thr ga fresh =>
      exact asking rfl (postThreadWAcquiresLock_entries done)
  | rwlockLockPost thr ga isW fresh =>
      cases isW with
      | true => exact asking rfl (postThreadWAcquiresLock_entries done)
      | false => exact asking rfl (postThreadRAcquiresLock_entries done)
  | mutexUnlockPre thr ga | rwlockUnlockPre thr ga =>
      exact silent rfl (preThreadReleasesLock_entries done)
  | mutexUnlockPost thr ga | rwlockUnlockPost thr ga =>
      obtain ⟨_, -, same⟩ := bind_eq_ok.mp done
      cases same
      exact silent rfl fun q => Iff.rfl

end Entries

end LockTab

namespace AdminTab

/-- The list has exactly the live locks. -/
structure Chained (st : AdminTab) (chain : List Nat) : Prop where
  linked : Linked st.admin st.adminLocks chain
  nodup : chain.Nodup
  entries : ∀ lk, lk ∈ chain ↔ lk ∈ st.tab.heap

def Sound (st : AdminTab) : Prop :=
  (∃ count, st.tab.Holding count) ∧ ∃ chain, st.Chained chain

section Runs

variable {st st' : AdminTab} {event : AdminEvent} {chain : List Nat}
  {thrs : List Nat} {busLockGa busLock : Nat}

private theorem enter_linked {fresh : Nat}
    (linked : Linked st.admin st.adminLocks chain) (unused : fresh ∉ chain) :
    Linked (st.enter fresh).admin (st.enter fresh).adminLocks
      (fresh :: chain) := by
  refine ⟨rfl, ?_⟩
  change Linked (Function.update st.admin fresh st.adminLocks)
    (Function.update st.admin fresh st.adminLocks fresh) chain
  rw [Function.update_self]
  exact linked.update unused st.adminLocks

theorem Sound.handle (sound : st.Sound) (harmless : event.Harmless st)
    (done : st.handle event = .ok st') : st'.Sound := by
  cases event with
  | mkSpinLock ga fresh => exact harmless.elim
  | lock event =>
      obtain ⟨⟨count, holding⟩, chain, chained⟩ := sound
      obtain ⟨⟨tab, errors⟩, handled, done⟩ := bind_eq_ok.mp done
      have holding' := holding.handle handled
      obtain ⟨entries, unused⟩ := LockTab.handle_entries harmless handled
      dsimp only at done
      split at done
      · rename_i lk makes
        cases done
        have new : lk ∉ chain := by
          rw [chained.entries]
          exact unused lk makes
        refine ⟨⟨_, holding'⟩, lk :: chain, enter_linked chained.linked new,
          List.nodup_cons.mpr ⟨new, chained.nodup⟩, ?_⟩
        intro q
        dsimp only
        rw [entries q, List.mem_cons, chained.entries, makes,
          Option.some.injEq]
        tauto
      · rename_i makes
        cases done
        refine ⟨⟨_, holding'⟩, chain, chained.linked, chained.nodup, ?_⟩
        intro q
        dsimp only
        rw [entries q, chained.entries, makes]
        simp

theorem Sound.init : (init thrs busLockGa busLock).Sound := by
  refine ⟨⟨_, LockTab.Holding.init thrs busLockGa busLock⟩, [busLock],
    ⟨rfl, rfl⟩, List.nodup_singleton busLock, ?_⟩
  intro lk
  change lk ∈ [busLock] ↔ lk ∈ AList.insert busLock _ ∅
  rw [List.mem_singleton, AList.mem_insert]
  simp

theorem walk_linked {head : Option Nat} (linked : Linked st.admin head chain)
    (live : ∀ lk ∈ chain, lk ∈ st.tab.heap) {rounds : Nat}
    (enough : chain.length ≤ rounds) : st.walk rounds head = some chain := by
  induction chain generalizing head rounds with
  | nil =>
      have atEnd : head = none := linked
      subst atEnd
      cases rounds <;> rfl
  | cons lk rest induction =>
      obtain ⟨rfl, after⟩ := linked
      cases rounds with
      | zero => exact absurd enough (by simp)
      | succ rounds =>
          have isLive := AList.lookup_isSome.mpr (live lk (by simp))
          unfold walk
          rw [if_pos isLive, induction after
            (fun q isLater => live q (List.mem_cons_of_mem lk isLater))
            (Nat.le_of_succ_le_succ enough)]
          rfl

variable {count : LockTab.Tally}

theorem checkHolder_eq_ok (holding : st.tab.Holding count) {lk thr : Nat}
    {lock : Lock} (found : st.tab.heap.lookup lk = some lock)
    (holds : thr ∈ lock.holders) (known : st.tab.isSaneThread thr = true) :
    st.checkHolder lk lock.heldW thr = .ok () := by
  obtain ⟨thread, isThread⟩ := Option.isSome_iff_exists.mp known
  have inA : lk ∈ thread.locksetA :=
    (holding.locksetA thr thread isThread lk).mpr ⟨lock, found, holds⟩
  have inW : lk ∈ thread.locksetW ↔ lock.heldW = true := by
    rw [holding.locksetW thr thread isThread lk]
    constructor
    · rintro ⟨other, isOther, -, held⟩
      rw [found] at isOther
      cases isOther
      exact held
    · exact fun held => ⟨lock, found, holds, held⟩
  unfold checkHolder LockTab.getThread
  rw [isThread, ok_bind, tlAssert_of inA, ok_bind, tlAssert_of inW.mpr,
    ok_bind, tlAssert_of]
  intro unheld isIn
  rw [inW.mp isIn] at unheld
  cases unheld

private theorem checkLock_eq_ok (holding : st.tab.Holding count) {lk : Nat}
    {lock : Lock} (found : st.tab.heap.lookup lk = some lock) :
    st.checkLock lk = .ok () := by
  have sane := holding.sane lk lock found
  have mapped := (holding.mapped lock.guestaddr lk).mpr ⟨lock, found, rfl⟩
  unfold checkLock LockTab.deref
  rw [found, ok_bind, tlAssert_of sane, ok_bind, tlAssert_of mapped, ok_bind]
  have base : st.tab.isSaneLockBASE lock = true := by
    unfold LockTab.isSaneLockN at sane
    exact (Bool.and_eq_true_iff.mp sane).2
  unfold LockTab.isSaneLockBASE at base
  split
  · rename_i bag held
    rw [held] at base
    simp only [Bool.and_eq_true, List.all_eq_true] at base
    apply forM_eq_ok
    intro thr isHolder
    have holds : thr ∈ bag := List.mem_dedup.mp isHolder
    apply checkHolder_eq_ok holding found
    · rw [Lock.holders, held]
      exact holds
    · exact base.1.2 thr holds
  · rename_i unheld
    rw [unheld] at base
    simp only [Bool.and_eq_true, Bool.not_eq_true'] at base
    exact tlAssert_of base.2

private theorem checkEntry_eq_ok (holding : st.tab.Holding count)
    {entry : Sigma fun _ : Nat => Nat}
    (isEntry : entry ∈ st.tab.mapLocks.entries) :
    st.checkEntry entry = .ok () := by
  have mapped : st.tab.mapLocks.lookup entry.1 = some entry.2 :=
    AList.mem_lookup_iff.mpr isEntry
  obtain ⟨lock, found, address⟩ := (holding.mapped _ _).mp mapped
  unfold checkEntry LockTab.deref
  rw [found, ok_bind]
  exact tlAssert_of address

/-- The addresses of the locks on the list are the keys of `map_locks`. -/
theorem Chained.length_eq (chained : st.Chained chain)
    (holding : st.tab.Holding count) :
    chain.length = st.tab.mapLocks.entries.length := by
  let address (lk : Nat) : Nat :=
    ((st.tab.heap.lookup lk).map Lock.guestaddr).getD 0
  have live : ∀ lk ∈ chain, ∃ lock, st.tab.heap.lookup lk = some lock := by
    intro lk isIn
    exact Option.isSome_iff_exists.mp
      (AList.lookup_isSome.mpr ((chained.entries lk).mp isIn))
  have atLock : ∀ lk ∈ chain,
      st.tab.mapLocks.lookup (address lk) = some lk := by
    intro lk isIn
    obtain ⟨lock, found⟩ := live lk isIn
    apply (holding.mapped _ lk).mpr
    refine ⟨lock, found, ?_⟩
    simp [address, found]
  have injective : (chain.map address).Nodup := by
    apply chained.nodup.map_on
    intro lk isIn other isOther same
    have first := atLock lk isIn
    rw [same, atLock other isOther] at first
    exact (Option.some.inj first).symm
  have keys : (chain.map address).Perm st.tab.mapLocks.keys := by
    apply (List.perm_ext_iff_of_nodup injective
      st.tab.mapLocks.nodupKeys).mpr
    intro ga
    rw [List.mem_map]
    constructor
    · rintro ⟨lk, isIn, rfl⟩
      apply AList.lookup_isSome.mp
      rw [atLock lk isIn]
      rfl
    · intro isKey
      obtain ⟨lk, mapped⟩ := Option.isSome_iff_exists.mp
        (AList.lookup_isSome.mpr isKey)
      obtain ⟨lock, found, isGa⟩ := (holding.mapped ga lk).mp mapped
      refine ⟨lk, (chained.entries lk).mpr ?_, ?_⟩
      · exact LockTab.mem_heap_of_lookup found
      · simp [address, found, isGa]
  have length := keys.length_eq
  rw [List.length_map] at length
  rw [length]
  exact List.length_map _

theorem Sound.described (sound : st.Sound) : st.Described := by
  obtain ⟨⟨count, holding⟩, chain, chained⟩ := sound
  have length := chained.length_eq holding
  refine ⟨chain, chained.linked, chained.nodup, length, ?_, ?_⟩
  · intro lk isIn
    obtain ⟨lock, found⟩ := Option.isSome_iff_exists.mp
      (AList.lookup_isSome.mpr ((chained.entries lk).mp isIn))
    exact ⟨lock, found, holding.sane lk lock found,
      (holding.mapped _ lk).mpr ⟨lock, found, rfl⟩⟩
  · intro rounds enough
    unfold locksSanityCheck
    rw [walk_linked chained.linked (fun lk => (chained.entries lk).mp) enough]
    dsimp only
    rw [tlAssert_of length, ok_bind,
      forM_eq_ok fun entry => checkEntry_eq_ok holding, ok_bind]
    apply forM_eq_ok
    intro lk isIn
    obtain ⟨lock, found⟩ := Option.isSome_iff_exists.mp
      (AList.lookup_isSome.mpr ((chained.entries lk).mp isIn))
    exact checkLock_eq_ok holding found

/-- A destroyed lock stays on the list. -/
theorem destroyPre_mapped {tab tab' : LockTab} {thr ga lk : Nat}
    {rightKind : LockKind → Bool} {invalid locked : String}
    {errors : List HgError} (mapped : tab.mapLocks.lookup ga = some lk)
    (done : LockTab.destroyPre rightKind invalid locked tab thr ga =
      .ok (tab', errors)) : lk ∉ tab'.heap := by
  obtain ⟨-, -, done⟩ := bind_eq_ok.mp done
  rw [mapped] at done
  obtain ⟨lock, -, done⟩ := bind_eq_ok.mp done
  obtain ⟨-, -, done⟩ := bind_eq_ok.mp done
  obtain ⟨-, -, done⟩ := bind_eq_ok.mp done
  obtain ⟨⟨tab₁, lock₁, more⟩, -, done⟩ := bind_eq_ok.mp done
  obtain ⟨-, -, done⟩ := bind_eq_ok.mp done
  obtain ⟨-, -, same⟩ := bind_eq_ok.mp done
  cases same
  exact AList.lookup_eq_none.mp (AList.lookup_erase _ _)

private theorem not_described_of_freed (sound : st.Sound) {ga lk : Nat}
    (mapped : st.tab.mapLocks.lookup ga = some lk) {tab : LockTab}
    (freed : lk ∉ tab.heap) : ¬ Described { st with tab := tab } := by
  rintro ⟨others, linked, -, -, live, -⟩
  obtain ⟨⟨count, holding⟩, chain, chained⟩ := sound
  have same := chained.linked.unique linked
  obtain ⟨lock, found, -⟩ := (holding.mapped ga lk).mp mapped
  have isIn : lk ∈ others := by
    rw [← same, chained.entries]
    exact LockTab.mem_heap_of_lookup found
  obtain ⟨other, isOther, -⟩ := live lk isIn
  exact freed (LockTab.mem_heap_of_lookup isOther)

private theorem not_described_of_mkSpinLock (sound : st.Sound) {ga fresh : Nat}
    (done : st.mkSpinLock ga fresh = .ok st') : ¬ st'.Described := by
  rintro ⟨others, linked, -, length, -⟩
  obtain ⟨⟨count, holding⟩, chain, chained⟩ := sound
  obtain ⟨tab, make, same⟩ := bind_eq_ok.mp done
  cases same
  unfold LockTab.mkLockN at make
  split at make
  · cases make
  · rename_i unused
    obtain ⟨-, -, same⟩ := bind_eq_ok.mp make
    cases same
    have new : fresh ∉ chain := by
      rw [chained.entries]
      exact AList.lookup_eq_none.mp unused
    have isLonger := (enter_linked chained.linked new).unique linked
    have before := chained.length_eq holding
    have after : others.length = st.tab.mapLocks.entries.length := length
    rw [← isLonger, List.length_cons] at after
    omega

/-- An event that is not harmless breaks the description at once. -/
theorem not_described (sound : st.Sound) (harmful : ¬ event.Harmless st)
    (done : st.handle event = .ok st') : ¬ st'.Described := by
  cases event with
  | mkSpinLock ga fresh => exact not_described_of_mkSpinLock sound done
  | lock event =>
      obtain ⟨⟨tab, errors⟩, handled, done⟩ := bind_eq_ok.mp done
      cases event with
      | mutexDestroyPre thr ga =>
          cases done
          obtain ⟨lk, mapped⟩ := Option.ne_none_iff_exists'.mp harmful
          change LockTab.mutexDestroyPre st.tab thr ga = _ at handled
          unfold LockTab.mutexDestroyPre at handled
          exact not_described_of_freed sound mapped
            (destroyPre_mapped mapped handled)
      | rwlockDestroyPre thr ga =>
          cases done
          obtain ⟨lk, mapped⟩ := Option.ne_none_iff_exists'.mp harmful
          change LockTab.rwlockDestroyPre st.tab thr ga = _ at handled
          unfold LockTab.rwlockDestroyPre at handled
          exact not_described_of_freed sound mapped
            (destroyPre_mapped mapped handled)
      | mutexInitPost | mutexLockPre | mutexLockPost | mutexUnlockPre
      | mutexUnlockPost | rwlockInitPost | rwlockLockPre | rwlockLockPost
      | rwlockUnlockPre | rwlockUnlockPost => exact absurd trivial harmful

variable {events : List AdminEvent}

theorem run_take_succ {n : Nat} (atN : events[n]? = some event) :
    st.run (events.take (n + 1)) =
      st.run (events.take n) >>= (handle · event) :=
  foldlM_take_succ atN st

/-- Soundness lasts as long as the handlers that return are harmless. -/
theorem run_sound (sound : st.Sound) {n : Nat}
    (harmless : ∀ k < n, ∀ before event after,
      st.run (events.take k) = .ok before → events[k]? = some event →
      before.handle event = .ok after → event.Harmless before)
    {after : AdminTab} (ran : st.run (events.take n) = .ok after) :
    after.Sound := by
  induction n generalizing after with
  | zero =>
      cases ran
      exact sound
  | succ n induction =>
      have earlier : ∀ {before}, st.run (events.take n) = .ok before →
          before.Sound := fun ran => induction
        (fun k early => harmless k (Nat.lt_succ_of_lt early)) ran
      cases atN : events[n]? with
      | none =>
          apply earlier
          rwa [← take_succ_of_none atN]
      | some event =>
          rw [run_take_succ atN] at ran
          obtain ⟨before, ranBefore, done⟩ := bind_eq_ok.mp ran
          exact (earlier ranBefore).handle (harmless n (Nat.lt_succ_self n)
            before event after ranBefore atN done) done

/-- The list and the map describe the same locks after every handler of a run
if and only if no handler of it destroys a lock that exists or makes a spin
lock. -/
theorem admin_locks_described_iff (thrs : List Nat)
    (busLockGa busLock : Nat) (events : List AdminEvent) :
    (∀ n st, (init thrs busLockGa busLock).run (events.take n) = .ok st →
      st.Described) ↔
    ∀ n before event after,
      (init thrs busLockGa busLock).run (events.take n) = .ok before →
      events[n]? = some event → before.handle event = .ok after →
      event.Harmless before := by
  constructor
  · intro described n
    -- the first harmful handler would leave a state that is not described
    induction n using Nat.strong_induction_on with
    | _ n induction =>
        intro before event after ran atN done
        by_contra harmful
        have sound : before.Sound := run_sound .init induction ran
        have ranAfter : (init thrs busLockGa busLock).run
            (events.take (n + 1)) = .ok after := by
          rw [run_take_succ atN, ran, ok_bind, done]
        exact not_described sound harmful done
          (described (n + 1) after ranAfter)
  · intro harmless n st ran
    exact (run_sound .init (fun k _ => harmless k) ran).described

/-- A mutex is made and destroyed.  The list still has the freed lock, and the
check comes to it. -/
theorem destroyed_lock_on_list : ∃ st,
    (init [1] 0 10).run [.lock (.mutexInitPost 1 16 false 11),
      .lock (.mutexDestroyPre 1 16)] = .ok st ∧
    ¬ st.Described ∧ ∀ rounds, locksSanityCheck rounds st ≠ .ok () := by
  have seen : ((init [1] 0 10).run [.lock (.mutexInitPost 1 16 false 11),
      .lock (.mutexDestroyPre 1 16)]).toOption.map (fun st =>
        (st.adminLocks, (st.tab.heap.lookup 11).isSome)) =
      some (some 11, false) := by
    decide
  obtain ⟨st, ran, view⟩ := exists_ok_of_map seen
  simp only [Prod.mk.injEq] at view
  obtain ⟨atHead, freed⟩ := view
  have failing : ∀ rounds, locksSanityCheck rounds st ≠ .ok () := by
    intro rounds passed
    have lost : st.walk rounds st.adminLocks = none := by
      rw [atHead]
      cases rounds with
      | zero => rfl
      | succ rounds =>
          unfold walk
          rw [freed]
          rfl
    unfold locksSanityCheck at passed
    rw [lost] at passed
    cases passed
  refine ⟨st, ran, ?_, failing⟩
  rintro ⟨chain, -, -, -, -, passes⟩
  exact failing _ (passes _ le_rfl)

end Runs

end AdminTab

end HelgrindPlus
