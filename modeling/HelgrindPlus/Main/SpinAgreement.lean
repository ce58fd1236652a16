import HelgrindPlus.Main.LegalLocking
import HelgrindPlus.Main.SpinLocks

/-!
# The two locks of a spin variable

The lock in the record of a spin variable and the lock that `map_locks` binds
to its address are acquired and released by separate calls.  They are held by
the same thread all the same, as long as every loop that is left is left to a
place outside it.  The call that `HG_(onSpinWrite)` makes for an atomic write
passes the instruction and the loop of an earlier write if the variable is
known not to be a lock, and that instruction may be in the loop.
-/

namespace HelgrindPlus

open Outcome

/-- The callback of shadow memory for a spin variable that is written. -/
def Detector.callBack (run : Running) (d : Detector) (accAddr : Nat) :
    Except Abort Detector := do
  let (d, _) ← d.plainSpinWrite run accAddr
  pure d

/-- Of shadow memory, the detector sees only the addresses of the callbacks.
Here they are given in advance, a list for each write. -/
def scripted : Rewrite (List (List Nat)) := fun run (d, script) _ =>
  match script with
  | [] => .ok (d, [])
  | accAddrs :: rest => do
      let d ← accAddrs.foldlM (Detector.callBack run) d
      pure (d, rest)

namespace Detector

/-- The lock that `map_locks` binds to an address. -/
def mappedLock (d : Detector) (ga : Nat) : Option Lock :=
  (d.locks.mapLocks.lookup ga).bind d.locks.heap.lookup

/-- The two locks of each spin variable have the same holder, if any. -/
def Agree (d : Detector) : Prop :=
  ∀ ga lk, d.spinLock ga = some lk →
    (∀ thr, thr ∈ lk.sLk.holders ↔
      ∃ lock, d.mappedLock ga = some lock ∧ thr ∈ lock.holders) ∧
    lk.sLk.holders.length ≤ 1 ∧
    ∀ lock, d.mappedLock ga = some lock → lock.holders.length ≤ 1

end Detector

/-- The thread that an event is about. -/
def SpinEvent.thr : SpinEvent → Nat
  | .onSpinRead run _ | .onSpinWrite run _ _ _ | .onExitSpinLoop run _ _ _ =>
      run.tid
  | .exitThread quitTid => quitTid

/-- The address that the event accesses, if any, satisfies `allowed`. -/
def SpinEvent.Touches (allowed : Nat → Prop) : SpinEvent → Prop
  | .onSpinRead _ accAddr | .onSpinWrite _ _ accAddr _ => allowed accAddr
  | _ => True

/-- Every loop that the event leaves is left to a place outside it.  The
nested call of an atomic write concerns the loop of the last access to the
variable if the variable is known not to be a lock. -/
def SpinEvent.Outside (d : Detector) : SpinEvent → Prop
  | .onExitSpinLoop _ destination ivu _ => ivu.contains destination = false
  | .onSpinWrite run atomic accAddr _ =>
      atomic = true → run.spinReading = true →
      ∀ sp, run.lastSpinProperty = some sp → sp.codeBlock.cntParts = 0 →
      ∀ lk, d.spinLock accAddr = some lk → lk.notALock = true →
      ∀ own, lk.sp = some own →
        own.codeBlock.contains lk.writeInstruction = false
  | _ => True

namespace SpinLock

/-- The lock of a record, free or held once. -/
def lockOf (ga : Nat) (holder : Option Nat) : Lock :=
  ⟨ga, .mbRec, some ga, holder.isSome, holder.isSome, holder.map ([·])⟩

@[simp] theorem lockOf_heldBy (ga : Nat) (holder : Option Nat) :
    (lockOf ga holder).heldBy = holder.map ([·]) := rfl

@[simp] theorem lockOf_holders (ga : Nat) (holder : Option Nat) :
    (lockOf ga holder).holders = holder.toList := by
  cases holder <;> rfl

section Steps

variable {st : LockTab} {thrs : List Nat} {ga thr : Nat}

theorem lockOf_sane {holder : Option Nat}
    (known : ∀ thr ∈ holder, st.isSaneThread thr = true) :
    st.isSaneLockN (lockOf ga holder) = true := by
  apply LockTab.isSaneLockN_iff.mpr
  refine ⟨rfl, ?_⟩
  cases holder with
  | none => exact ⟨rfl, rfl⟩
  | some thr =>
      refine ⟨rfl, by simp, ?_, .inl ⟨rfl, .inl rfl⟩⟩
      intro other member
      rw [List.mem_singleton.mp member]
      exact known thr rfl

private theorem lockNAcquireWriter_lockOf (known : st.isSaneThread thr = true) :
    st.lockNAcquireWriter (lockOf ga none) thr =
      .ok (lockOf ga (some thr)) :=
  LockTab.lockNAcquireWriter_of (lockOf_sane (by simp)) known (.inl rfl)

private theorem lockNRelease_lockOf (known : st.isSaneThread thr = true) :
    st.lockNRelease (lockOf ga (some thr)) thr = .ok (lockOf ga none) := by
  rw [LockTab.lockNRelease_of (lockOf_sane (by simpa using known)) known
    (by simp)]
  simp [LockTab.dropped]
  rfl

end Steps

end SpinLock

/-- Who holds the lock at an address. -/
def Library.heldAt (lib : Library) (ga : Nat) : List Nat :=
  (lib ga).elim [] LibLock.holders

/-- The record of a spin variable whose locks are held by `holder`. -/
structure Recorded (thrs : List Nat) (lib : Library) (ga : Nat)
    (lk : SpinLock) (holder : Option Nat) : Prop where
  sLk : lk.sLk = SpinLock.lockOf ga holder
  known : ∀ thr ∈ holder, thr ∈ thrs
  held : lib.heldAt ga = holder.toList
  kind : ∀ lock, lib ga = some lock → lock.kind = .mbRec
  sp : lk.sp.isSome = true

theorem Recorded.holders {thrs : List Nat} {lib : Library} {ga : Nat}
    {lk : SpinLock} {holder : Option Nat}
    (recorded : Recorded thrs lib ga lk holder) :
    lk.sLk.holders = holder.toList := by
  rw [recorded.sLk, SpinLock.lockOf_holders]

theorem Recorded.heldBy {thrs : List Nat} {lib : Library} {ga : Nat}
    {lk : SpinLock} {holder : Option Nat}
    (recorded : Recorded thrs lib ga lk holder) :
    lk.sLk.heldBy = holder.map ([·]) := by
  rw [recorded.sLk, SpinLock.lockOf_heldBy]

namespace Detector

theorem spinLock_eq (d : Detector) (ga : Nat) :
    d.spinLock ga = (d.mapSpinLocks.getD ∅).lookup ga := by
  unfold spinLock
  cases d.mapSpinLocks <;> rfl

/-- The addresses in `spin` are used for no other locks. -/
structure Inv (thrs : List Nat) (spin : Nat → Prop) (d : Detector)
    (lib : Library) : Prop where
  follows : d.locks.Follows thrs lib
  recorded : ∀ ga lk, d.spinLock ga = some lk →
    ∃ holder, Recorded thrs lib ga lk holder
  unrecorded : ∀ ga, spin ga → d.spinLock ga = none → lib ga = none

def Keeps (thrs : List Nat) (spin : Nat → Prop) (d : Detector) : Prop :=
  ∃ lib, d.Inv thrs spin lib

section Steps

variable {thrs : List Nat} {spin : Nat → Prop} {d : Detector}
  {lib lib' : Library} {map : SpinLocks} {ga owner : Nat} {lk : SpinLock}
  {holder : Option Nat}

theorem Inv.agree (inv : d.Inv thrs spin lib) : d.Agree := by
  intro ga lk found
  obtain ⟨holder, recorded⟩ := inv.recorded ga lk found
  have short : holder.toList.length ≤ 1 := by
    cases holder <;> simp
  have mapped : ∀ lock, d.mappedLock ga = some lock ↔
      ∃ known, lib ga = some known ∧
        d.locks.heap.lookup known.lk = some lock := by
    intro lock
    unfold mappedLock
    cases isKnown : lib ga with
    | none => simp [inv.follows.absent ga isKnown]
    | some known => simp [(inv.follows.locks ga known isKnown).1]
  have holders : ∀ known lock, lib ga = some known →
      d.locks.heap.lookup known.lk = some lock →
      lock.holders = holder.toList := by
    intro known lock isKnown found'
    obtain ⟨-, lock', found'', mirrors⟩ :=
      inv.follows.locks ga known isKnown
    rw [found'] at found''
    cases found''
    rw [mirrors.holders, ← recorded.held, Library.heldAt, isKnown]
    rfl
  rw [recorded.holders]
  refine ⟨?_, short, ?_⟩
  · intro thr
    constructor
    · intro member
      cases isKnown : lib ga with
      | none =>
          have nobody := recorded.held
          rw [Library.heldAt, isKnown] at nobody
          rw [← nobody] at member
          cases member
      | some known =>
          obtain ⟨-, lock, found', -⟩ := inv.follows.locks ga known isKnown
          refine ⟨lock, (mapped lock).mpr ⟨known, isKnown, found'⟩, ?_⟩
          rw [holders known lock isKnown found']
          exact member
    · rintro ⟨lock, isMapped, member⟩
      obtain ⟨known, isKnown, found'⟩ := (mapped lock).mp isMapped
      rwa [holders known lock isKnown found'] at member
  · intro lock isMapped
    obtain ⟨known, isKnown, found'⟩ := (mapped lock).mp isMapped
    rw [holders known lock isKnown found']
    exact short

/-- The record of one address changes, and no other lock does. -/
theorem Inv.enter (inv : d.Inv thrs spin lib)
    (isMap : d.mapSpinLocks.getD ∅ = map) {st : LockTab}
    {errors : List HgError} (follows : st.Follows thrs lib')
    (elsewhere : ∀ other ≠ ga, lib' other = lib other)
    (recorded : Recorded thrs lib' ga lk holder) :
    Inv thrs spin ⟨st, some (map.insert ga lk), errors⟩ lib' := by
  have before : ∀ other, d.spinLock other = map.lookup other := by
    intro other
    rw [spinLock_eq, isMap]
  refine ⟨follows, ?_, ?_⟩
  · intro other found isFound
    change (map.insert ga lk).lookup other = some found at isFound
    by_cases same : other = ga
    · subst same
      rw [AList.lookup_insert] at isFound
      cases isFound
      exact ⟨holder, recorded⟩
    · rw [AList.lookup_insert_ne same, ← before] at isFound
      obtain ⟨holder', old⟩ := inv.recorded other found isFound
      refine ⟨holder', old.sLk, old.known, ?_, ?_, old.sp⟩
      · rw [Library.heldAt, elsewhere other same]
        exact old.held
      · rw [elsewhere other same]
        exact old.kind
  · intro other isSpin absent
    change (map.insert ga lk).lookup other = none at absent
    by_cases same : other = ga
    · subst same
      rw [AList.lookup_insert] at absent
      cases absent
    · rw [AList.lookup_insert_ne same, ← before] at absent
      rw [elsewhere other same]
      exact inv.unrecorded other isSpin absent

/-- A new record is one of a free lock. -/
theorem Inv.lookupOrCreate (inv : d.Inv thrs spin lib)
    (isMap : d.mapSpinLocks.getD ∅ = map) (isSpin : spin ga) :
    Returns (d.mapSpinLocksLookupOrCreate map ga) fun lk =>
      (d.spinLock ga = some lk ∨ lk = SpinLock.new ga) ∧
      ∀ lk', lk'.sLk = lk.sLk → lk'.sp.isSome = true →
        ∃ holder, Recorded thrs lib ga lk' holder := by
  have before : d.spinLock ga = map.lookup ga := by
    rw [spinLock_eq, isMap]
  unfold mapSpinLocksLookupOrCreate
  split
  · rename_i lk found
    rw [← before] at found
    refine Returns.ok ⟨.inl found, ?_⟩
    intro lk' same hasSp
    obtain ⟨holder, recorded⟩ := inv.recorded ga lk found
    exact ⟨holder, same.trans recorded.sLk, recorded.known, recorded.held,
      recorded.kind, hasSp⟩
  · rename_i absent
    have sane : d.locks.isSaneLockN (SpinLock.new ga).sLk = true :=
      @SpinLock.lockOf_sane d.locks ga none (by simp)
    rw [tlAssert_of sane, ok_bind]
    refine Returns.pure ⟨.inr rfl, ?_⟩
    intro lk' same hasSp
    have unknown := inv.unrecorded ga isSpin (before.trans absent)
    refine ⟨none, same, by simp, ?_, ?_, hasSp⟩
    · rw [Library.heldAt, unknown]
      rfl
    · rw [unknown]
      rintro lock ⟨⟩

theorem Inv.onSpinRead (inv : d.Inv thrs spin lib) (isSpin : spin ga)
    (run : Running) :
    Satisfies (· = .dangling) (d.onSpinRead run ga) fun result =>
      result.1.Keeps thrs spin := by
  unfold Detector.onSpinRead
  split
  · rfl
  · rename_i sp _
    apply (inv.lookupOrCreate rfl isSpin).satisfies.bind
    rintro lk ⟨-, records⟩
    obtain ⟨holder, recorded⟩ := records { lk with sp := some sp } rfl rfl
    exact ⟨lib, inv.enter rfl inv.follows (fun _ _ => rfl) recorded⟩

/-- Both locks are released, and nothing else changes. -/
theorem Inv.releaseBoth (inv : d.Inv thrs spin lib)
    (recorded : Recorded thrs lib ga lk (some owner)) :
    Returns (releaseBoth d.locks lk owner ga) fun result =>
      result.1.Follows thrs (lib.release owner ga) ∧
      Recorded thrs (lib.release owner ga) ga result.2.2 none := by
  have present : owner ∈ thrs := recorded.known owner rfl
  obtain ⟨known, isKnown⟩ : ∃ known, lib ga = some known := by
    cases isKnown : lib ga with
    | none =>
        have held := recorded.held
        rw [Library.heldAt, isKnown] at held
        cases held
    | some known => exact ⟨known, rfl⟩
  have holders : known.holders = [owner] := by
    have held := recorded.held
    rw [Library.heldAt, isKnown] at held
    exact held
  obtain ⟨st, errors, done, follows⟩ := inv.follows.preThreadReleasesLock
    present isKnown (by simp [holders]) (by simp [holders]) false
  have free := @SpinLock.lockNRelease_lockOf d.locks ga owner
    (inv.follows.threads owner present)
  unfold Detector.releaseBoth
  rw [recorded.sLk, free, ok_bind, done, ok_bind]
  refine Returns.pure ⟨follows, rfl, by simp, ?_, ?_, recorded.sp⟩
  · simp [Library.heldAt, Library.release, isKnown, Library.released, holders]
  · intro lock isLock
    rw [Library.release, Function.update_self, isKnown] at isLock
    cases isLock
    exact recorded.kind known isKnown

theorem release_elsewhere {other : Nat} (apart : other ≠ ga) :
    lib.release owner ga other = lib other := by
  rw [Library.release, Function.update_of_ne apart]

/-- A write outside a loop. -/
theorem Inv.unlock (inv : d.Inv thrs spin lib)
    (recorded : Recorded thrs lib ga lk holder) (tid : Nat) :
    Returns (unlock d.locks tid ga lk) fun result =>
      ∃ lib' holder', result.1.Follows thrs lib' ∧
        (∀ other ≠ ga, lib' other = lib other) ∧
        Recorded thrs lib' ga result.2.2.1 holder' := by
  unfold Detector.unlock
  rw [recorded.heldBy]
  cases holder with
  | none =>
      dsimp only [Option.map_none]
      split
      · exact Returns.ok ⟨lib, none, inv.follows, fun _ _ => rfl, recorded⟩
      · exact Returns.ok ⟨lib, none, inv.follows, fun _ _ => rfl,
          recorded.sLk, recorded.known, recorded.held, recorded.kind,
          recorded.sp⟩
  | some owner =>
      dsimp only [Option.map_some]
      have releases := inv.releaseBoth recorded
      split
      · rw [LockTab.anyElement_of (List.cons_ne_nil _ _)
          (fun other member => List.mem_singleton.mp member)]
        apply releases.bind
        rintro ⟨st, errors, lk'⟩ ⟨follows, free⟩
        exact Returns.pure ⟨_, none, follows,
          fun other apart => release_elsewhere apart, free.sLk, free.known,
          free.held, free.kind, free.sp⟩
      · rename_i held
        have same : owner = tid := by
          by_contra apart
          exact held (List.count_eq_zero.mpr (by simpa using Ne.symm apart))
        subst same
        apply releases.bind
        rintro ⟨st, errors, lk'⟩ ⟨follows, free⟩
        exact Returns.pure ⟨_, none, follows,
          fun other apart => release_elsewhere apart, free⟩

theorem Inv.setLastReleaseWriter (inv : d.Inv thrs spin lib) {tid : Nat}
    (present : tid ∈ thrs) (lk : SpinLock) :
    Returns (d.setLastReleaseWriter lk tid) fun lk' =>
      lk'.sLk = lk.sLk ∧ lk'.sp = lk.sp := by
  unfold Detector.setLastReleaseWriter
  split
  · exact Returns.ok ⟨rfl, rfl⟩
  · obtain ⟨thread, isThread⟩ := inv.follows.thread present
    rw [LockTab.getThread_of isThread, ok_bind]
    exact Returns.pure ⟨rfl, rfl⟩

theorem Inv.releaseWrite (inv : d.Inv thrs spin lib) {run : Running}
    (present : run.tid ∈ thrs) (ga : Nat) :
    Satisfies (· = .dangling) (d.releaseWrite run ga) fun result =>
      result.1.Keeps thrs spin := by
  unfold Detector.releaseWrite
  split
  · rfl
  rename_i map isMap
  split
  · exact ⟨lib, inv⟩
  rename_i lk found
  apply (inv.setLastReleaseWriter present lk).satisfies.bind
  rintro lk₁ ⟨sameLock, sameSp⟩
  obtain ⟨holder, recorded⟩ := inv.recorded ga lk (by
    rw [spinLock_eq, isMap]
    exact found)
  have recorded₁ : Recorded thrs lib ga { lk₁ with
      wasALock := lk₁.wasReleasedBefore && lk₁.wasALock } holder :=
    ⟨sameLock.trans recorded.sLk, recorded.known, recorded.held,
      recorded.kind, (congrArg Option.isSome sameSp).trans recorded.sp⟩
  apply (inv.unlock recorded₁ run.tid).satisfies.bind
  rintro ⟨st, errors, lk₂, isALock⟩ ⟨lib', holder', follows, elsewhere, after⟩
  have sane : st.isSaneLockN lk₂.sLk = true := by
    rw [after.sLk]
    exact SpinLock.lockOf_sane fun thr isHolder =>
      follows.threads thr (after.known thr isHolder)
  dsimp only
  rw [tlAssert_of sane, ok_bind]
  exact ⟨lib', inv.enter (by rw [isMap]; rfl) follows elsewhere after⟩

private theorem noteSpinWrite_sLk (run : Running) (sp : SpinProperty)
    (lk : SpinLock) : (noteSpinWrite run sp lk).sLk = lk.sLk := by
  unfold noteSpinWrite
  split <;> rfl

/-- A write in a loop.  The loop of the nested call is left to a place
outside it, unless the variable was known not to be a lock. -/
theorem Inv.acquireWrite (inv : d.Inv thrs spin lib) (isSpin : spin ga)
    {run : Running} {atomic : Bool}
    (outside : atomic = true →
      ∀ sp, run.lastSpinProperty = some sp → sp.codeBlock.cntParts = 0 →
      ∀ lk, d.spinLock ga = some lk → lk.notALock = true →
      ∀ own, lk.sp = some own →
        own.codeBlock.contains lk.writeInstruction = false) :
    Satisfies (· = .dangling) (d.acquireWrite run atomic ga) fun result =>
      result.1.Keeps thrs spin ∧ ∀ exit ∈ result.2.2,
        exit.2.contains exit.1 = false := by
  unfold Detector.acquireWrite
  split
  · rfl
  rename_i sp isSp
  split
  swap
  · exact ⟨⟨lib, inv⟩, by simp⟩
  split
  · rfl
  rename_i map isMap
  apply (inv.lookupOrCreate (by rw [isMap]; rfl) isSpin).satisfies.bind
  rintro old ⟨origin, records⟩
  have hasSp : (noteSpinWrite run sp old).sp.isSome = true := by
    unfold noteSpinWrite
    split
    · rename_i invalid
      rcases origin with found | rfl
      · obtain ⟨holder, recorded⟩ := inv.recorded ga old found
        exact recorded.sp
      · cases invalid
    · rfl
  obtain ⟨holder, recorded⟩ := records _ (noteSpinWrite_sLk run sp old) hasSp
  have entered : (d.setSpinLock map ga (noteSpinWrite run sp old)).Keeps
      thrs spin :=
    ⟨lib, inv.enter (by rw [isMap]; rfl) inv.follows (fun _ _ => rfl)
      recorded⟩
  dsimp only
  split
  swap
  · exact ⟨entered, by simp⟩
  rename_i empty
  split
  · rfl
  rename_i own isOwn
  refine ⟨entered, ?_⟩
  simp only [Option.mem_def, Option.some.injEq, forall_eq']
  unfold noteSpinWrite at isOwn ⊢
  split at isOwn
  · rename_i invalid
    rw [if_pos invalid]
    rcases origin with found | rfl
    · exact outside empty.1 sp isSp empty.2 old found invalid own isOwn
    · cases invalid
  · rename_i valid
    cases isOwn
    rw [if_neg valid]
    have nothing : sp.codeBlock.intervals = [] := by
      have none := empty.2
      unfold IntervalUnion.cntParts at none
      exact List.length_eq_zero_iff.mp (by omega)
    simp [IntervalUnion.contains, nothing]

theorem Inv.spinWrite (inv : d.Inv thrs spin lib) {run : Running}
    (present : run.tid ∈ thrs) (isSpin : spin ga) {atomic : Bool} {walk : Walk}
    (outside : SpinEvent.Outside d (.onSpinWrite run atomic ga walk)) :
    Satisfies (· = .dangling) (d.spinWrite run atomic ga) fun result =>
      result.1.Keeps thrs spin ∧ ∀ exit ∈ result.2.2,
        exit.2.contains exit.1 = false := by
  obtain ⟨thread, isThread⟩ := inv.follows.thread present
  unfold Detector.spinWrite
  rw [LockTab.getThread_of isThread, ok_bind]
  split
  · apply (inv.releaseWrite present ga).bind
    intro result kept
    exact ⟨kept, by simp⟩
  · rename_i notRelease
    apply inv.acquireWrite isSpin
    intro isAtomic sp isSp empty
    refine outside isAtomic ?_ sp isSp empty
    -- otherwise the write would be taken for a release
    by_contra notReading
    apply notRelease
    rw [Bool.not_eq_true] at notReading
    simp [isReleaseWrite, isSp, empty, notReading]

theorem Keeps.callBack (kept : d.Keeps thrs spin) {run : Running}
    (present : run.tid ∈ thrs) (isSpin : spin ga) :
    Satisfies (· = .dangling) (d.callBack run ga) (Keeps thrs spin) := by
  obtain ⟨lib, inv⟩ := kept
  have outside : SpinEvent.Outside d
      (.onSpinWrite run false ga ⟨[], fun _ => 0⟩) := by
    intro isAtomic
    cases isAtomic
  unfold Detector.callBack Detector.plainSpinWrite
  rw [bind_assoc]
  apply (inv.spinWrite present isSpin outside).bind
  intro result kept
  exact kept.1

/-- The loop over the callbacks of one write. -/
theorem Keeps.callBacks (kept : d.Keeps thrs spin) {run : Running}
    (present : run.tid ∈ thrs) {accAddrs : List Nat}
    (areSpin : ∀ a ∈ accAddrs, spin a) :
    Satisfies (· = .dangling) (accAddrs.foldlM (Detector.callBack run) d)
      (Keeps thrs spin) := by
  refine Satisfies.foldlM_kept ?_ kept
  intro state a member kept
  exact Keeps.callBack kept present (areSpin a member)

/-- A record after both locks have been acquired. -/
theorem Inv.postThreadWAcquiresLock (inv : d.Inv thrs spin lib) {thr : Nat}
    (present : thr ∈ thrs) (recorded : Recorded thrs lib ga lk none)
    (fresh : Nat) :
    Satisfies (· = .dangling)
      (d.locks.postThreadWAcquiresLock thr .mbRec ga fresh) fun result =>
      ∃ lib', result.1.Follows thrs lib' ∧
        (∀ other ≠ ga, lib' other = lib other) ∧
        ∀ lk', lk'.sLk = SpinLock.lockOf ga (some thr) →
          lk'.sp.isSome = true → Recorded thrs lib' ga lk' (some thr) := by
  have nobody : (lib.lockAt ga .mbRec fresh).holders = [] := by
    have held := recorded.held
    rw [Library.heldAt] at held
    unfold Library.lockAt
    cases isKnown : lib ga with
    | none => rfl
    | some known =>
        rw [isKnown] at held
        exact held
  by_cases unused : lib ga = none → lib.Unused fresh
  · obtain ⟨st, errors, done, follows⟩ := inv.follows.postThreadWAcquiresLock
      .mbRec present unused (.inl nobody)
    rw [done]
    refine ⟨_, follows, ?_, ?_⟩
    · intro other apart
      exact Function.update_of_ne apart _ _
    · intro lk' isLock hasSp
      refine ⟨isLock, by simpa using present, ?_, ?_, hasSp⟩
      · simp [Library.heldAt, Library.acquired, nobody]
      · intro lock isKnown
        rw [Function.update_self] at isKnown
        cases isKnown
        unfold Library.acquired Library.lockAt
        cases isKnown : lib ga with
        | none => rfl
        | some known => exact recorded.kind known isKnown
  · -- the allocator has returned the address of a lock
    obtain ⟨unknown, used⟩ := Classical.not_imp.mp unused
    obtain ⟨other, lock, isKnown, same⟩ : ∃ other lock,
        lib other = some lock ∧ lock.lk = fresh := by
      simpa [Library.Unused] using used
    obtain ⟨record, -, -, found, -⟩ := inv.follows.find isKnown
    rw [same] at found
    have fails : d.locks.postThreadWAcquiresLock thr .mbRec ga fresh =
        .error .dangling := by
      unfold LockTab.postThreadWAcquiresLock LockTab.mapLocksLookupOrCreate
        LockTab.mkLockN
      rw [tlAssert_of (inv.follows.threads thr present), ok_bind,
        inv.follows.absent ga unknown, found]
      rfl
    rw [fails]
    rfl

end Steps
end Detector

namespace SpinState

/-- The callbacks that are still to come concern spin variables. -/
structure Inv (thrs : List Nat) (spin : Nat → Prop)
    (s : SpinState (List (List Nat))) : Prop where
  kept : s.detector.Keeps thrs spin
  script : ∀ accAddrs ∈ s.memory, ∀ a ∈ accAddrs, spin a

section Steps

variable {thrs : List Nat} {spin : Nat → Prop} {flags : Flags}
  {s : SpinState (List (List Nat))} {run : Running} {walk : Walk}
  {map : SpinLocks} {adr : Nat} {lk : SpinLock} {holder : Option Nat}
  {lib : Library}

theorem Inv.withDetector (inv : s.Inv thrs spin) {d : Detector}
    (kept : d.Keeps thrs spin) :
    Inv thrs spin { s with detector := d } :=
  ⟨kept, inv.script⟩

theorem Inv.invalidate (inv : s.Inv thrs spin)
    (keeps : s.detector.Inv thrs spin lib)
    (isMap : s.detector.mapSpinLocks = some map)
    (recorded : Recorded thrs lib adr lk holder)
    (present : run.tid ∈ thrs) :
    Satisfies (· = .dangling)
      (SpinState.invalidate scripted run s map adr lk) (Inv thrs spin) := by
  have kept : Detector.Keeps thrs spin
      (s.detector.setSpinLock map adr lk.invalidated) :=
    ⟨lib, keeps.enter (by rw [isMap]; rfl) keeps.follows (fun _ _ => rfl)
      ⟨recorded.sLk, recorded.known, recorded.held, recorded.kind,
        recorded.sp⟩⟩
  have script := inv.script
  unfold SpinState.invalidate scripted
  cases memory : s.memory with
  | nil => exact ⟨kept, by simp⟩
  | cons accAddrs rest =>
      rw [memory] at script
      dsimp only
      rw [bind_assoc]
      apply (Detector.Keeps.callBacks kept present
        (script accAddrs (by simp))).bind
      intro d after
      exact ⟨after, fun later member => script later (by simp [member])⟩

theorem Inv.acquireBoth (inv : s.Inv thrs spin)
    (keeps : s.detector.Inv thrs spin lib)
    (isMap : s.detector.mapSpinLocks = some map)
    (recorded : Recorded thrs lib adr lk none)
    (present : run.tid ∈ thrs) :
    Satisfies (· = .dangling)
      (SpinState.acquireBoth flags run walk s map adr lk) (Inv thrs spin) := by
  unfold SpinState.acquireBoth
  apply (keeps.postThreadWAcquiresLock present recorded _).bind
  rintro ⟨st, errors⟩ ⟨lib', follows, elsewhere, records⟩
  dsimp only at follows ⊢
  rw [recorded.sLk, SpinLock.lockNAcquireWriter_lockOf
    (follows.threads run.tid present), ok_bind]
  have isMap' : s.detector.mapSpinLocks.getD ∅ = map := by
    rw [isMap]
    rfl
  have isRecorded := records { lk with
    sLk := SpinLock.lockOf adr (some run.tid)
    lastSpinWriter := 0 } rfl recorded.sp
  exact ⟨⟨lib', keeps.enter isMap' follows elsewhere isRecorded⟩, inv.script⟩

theorem Inv.exitWriter (inv : s.Inv thrs spin)
    (keeps : s.detector.Inv thrs spin lib)
    (isMap : s.detector.mapSpinLocks = some map)
    (recorded : Recorded thrs lib adr lk holder)
    (present : run.tid ∈ thrs) :
    Satisfies (· = .dangling)
      (SpinState.exitWriter flags scripted run walk s map adr lk)
      (Inv thrs spin) := by
  obtain ⟨thread, isThread⟩ := keeps.follows.thread present
  unfold SpinState.exitWriter
  rw [LockTab.getThread_of isThread, ok_bind, recorded.heldBy]
  cases holder with
  | none => exact inv.acquireBoth keeps isMap recorded present
  | some owner =>
      dsimp only [Option.map_some]
      have isW : lk.sLk.heldW = true := by
        rw [recorded.sLk]
        rfl
      have alone : WordBag.sizeUnique [owner] = 1 := rfl
      rw [tlAssert_of isW, ok_bind, tlAssert_of alone, ok_bind]
      split
      · exact inv.invalidate keeps isMap recorded present
      · exact inv.withDetector ⟨lib, keeps.enter (by rw [isMap]; rfl)
          keeps.follows (fun _ _ => rfl)
          ⟨recorded.sLk, recorded.known, recorded.held, recorded.kind,
            recorded.sp⟩⟩

theorem Inv.exitRound (inv : s.Inv thrs spin) (present : run.tid ∈ thrs)
    (ivu : IntervalUnion) (adr : Nat) :
    Satisfies (· = .dangling)
      (SpinState.exitRound flags scripted run ivu walk s adr)
      (Inv thrs spin) := by
  obtain ⟨lib, keeps⟩ := inv.kept
  unfold SpinState.exitRound
  split
  · exact inv
  rename_i map isMap
  split
  · exact inv
  rename_i lk found
  obtain ⟨holder, recorded⟩ := keeps.recorded adr lk (by
    rw [Detector.spinLock_eq, isMap]
    exact found)
  split
  · exact inv
  split
  · rfl
  split
  · exact inv
  split
  · split
    · exact inv.invalidate keeps isMap recorded present
    · exact inv
  split
  · exact inv.exitWriter keeps isMap recorded present
  · exact inv

theorem Inv.onExitSpinLoop (inv : s.Inv thrs spin)
    (present : run.tid ∈ thrs) {destination : Nat} {ivu : IntervalUnion}
    (outside : ivu.contains destination = false) :
    Satisfies (· = .dangling)
      (SpinState.onExitSpinLoop flags scripted run destination ivu walk s)
      (Inv thrs spin) := by
  unfold SpinState.onExitSpinLoop
  split
  · exact inv
  · rw [tlAssert_of outside, ok_bind]
    refine Satisfies.foldlM_kept ?_ inv
    intro state adr _ inv
    exact inv.exitRound present ivu adr

theorem Inv.onSpinWrite (inv : s.Inv thrs spin) (present : run.tid ∈ thrs)
    (isSpin : spin adr) {atomic : Bool}
    (outside : SpinEvent.Outside s.detector
      (.onSpinWrite run atomic adr walk)) :
    Satisfies (· = .dangling)
      (SpinState.onSpinWrite flags scripted run atomic adr walk s)
      fun result => result.1.Inv thrs spin := by
  obtain ⟨lib, keeps⟩ := inv.kept
  unfold SpinState.onSpinWrite
  apply (keeps.spinWrite present isSpin outside).bind
  rintro ⟨d, isALock, exit⟩ ⟨kept, leaves⟩
  dsimp only
  have inv₁ := inv.withDetector kept
  cases exit with
  | none => exact inv₁
  | some target =>
      apply (inv₁.onExitSpinLoop present (leaves target rfl)).bind
      intro after inv₂
      exact inv₂

end Steps
end SpinState

namespace Detector

theorem Keeps.exitThreadRound {thrs : List Nat} {spin : Nat → Prop}
    {d : Detector} (kept : d.Keeps thrs spin) (quitTid addr : Nat) :
    Satisfies (· = .dangling) (exitThreadRound quitTid d addr)
      (Keeps thrs spin) := by
  obtain ⟨lib, inv⟩ := kept
  unfold Detector.exitThreadRound
  split
  · exact ⟨lib, inv⟩
  rename_i map isMap
  split
  · exact ⟨lib, inv⟩
  rename_i lk found
  obtain ⟨holder, recorded⟩ := inv.recorded addr lk (by
    rw [spinLock_eq, isMap]
    exact found)
  rw [recorded.heldBy]
  cases holder with
  | none => exact ⟨lib, inv⟩
  | some owner =>
      have isOwner : (Option.map ([·]) (some owner)).bind
          WordBag.anyElement = some owner :=
        LockTab.anyElement_of (List.cons_ne_nil _ _)
          (fun other member => List.mem_singleton.mp member)
      rw [isOwner]
      dsimp only
      split
      · exact ⟨lib, inv⟩
      · apply (inv.releaseBoth recorded).satisfies.bind
        rintro ⟨st, errors, lk'⟩ ⟨follows, free⟩
        exact ⟨_, inv.enter (by rw [isMap]; rfl) follows
          (fun other apart => release_elsewhere apart) free⟩

theorem Keeps.exitThread {thrs : List Nat} {spin : Nat → Prop}
    {d : Detector} (kept : d.Keeps thrs spin) (quitTid : Nat) :
    Satisfies (· = .dangling) (d.exitThread quitTid) (Keeps thrs spin) := by
  refine Satisfies.foldlM_kept ?_ kept
  intro state addr _ kept
  exact Keeps.exitThreadRound kept quitTid addr

end Detector

namespace SpinState

/-- The detector before the first call, with the locks as the handlers of
`pthread` functions have left them. -/
def start (st : LockTab) (script : List (List Nat)) :
    SpinState (List (List Nat)) :=
  ⟨⟨st, none, []⟩, script, ∅⟩

theorem Inv.perform {thrs : List Nat} {spin : Nat → Prop}
    {s : SpinState (List (List Nat))} (inv : s.Inv thrs spin) (flags : Flags)
    {event : SpinEvent} (present : event.thr ∈ thrs)
    (touches : event.Touches spin) (outside : event.Outside s.detector) :
    Satisfies (· = .dangling) (s.perform flags scripted event)
      (Inv thrs spin) := by
  cases event with
  | onSpinRead run accAddr =>
      obtain ⟨lib, keeps⟩ := inv.kept
      apply (keeps.onSpinRead touches run).bind
      intro result kept
      exact inv.withDetector kept
  | onSpinWrite run atomic accAddr walk =>
      apply (inv.onSpinWrite present touches outside).bind
      intro result kept
      exact kept
  | onExitSpinLoop run destination ivu walk =>
      exact inv.onExitSpinLoop present outside
  | exitThread quitTid =>
      apply (Detector.Keeps.exitThread inv.kept quitTid).bind
      intro d kept
      exact inv.withDetector kept

/-- In a run in which every loop is left to a place outside it, no assertion
fails, and after each call the two locks of every spin variable agree.  A run
can end early only at a null pointer: a call before `map_spin_locks` exists
or without a spin property, or an allocation at an address in use. -/
theorem spin_lock_records_agree {st : LockTab} {thrs : List Nat}
    {lib : Library} (flags : Flags) (script : List (List Nat))
    {events : List SpinEvent} (follows : st.Follows thrs lib)
    (threads : ∀ event ∈ events, event.thr ∈ thrs)
    (addresses : ∀ event ∈ events, event.Touches fun a => lib a = none)
    (callbacks : ∀ accAddrs ∈ script, ∀ a ∈ accAddrs, lib a = none)
    (outside : ∀ n s event,
      run flags scripted (start st script) (events.take n) = .ok s →
      events[n]? = some event → event.Outside s.detector) (n : Nat) :
    Satisfies (· = .dangling)
      (run flags scripted (start st script) (events.take n))
      (·.detector.Agree) := by
  have initially : (start st script).Inv thrs fun a => lib a = none := by
    refine ⟨⟨lib, follows, ?_, fun ga isSpin _ => isSpin⟩, callbacks⟩
    rintro ga lk ⟨⟩
  have kept : ∀ n s event,
      (events.take n).foldlM (perform flags scripted) (start st script) =
        .ok s → events[n]? = some event →
      s.Inv thrs (fun a => lib a = none) →
      Satisfies (· = .dangling) (s.perform flags scripted event)
        (Inv thrs fun a => lib a = none) := by
    intro n s event ran atN inv
    have member := List.mem_of_getElem? atN
    exact inv.perform flags (threads event member) (addresses event member)
      (outside n s event ran atN)
  apply (Satisfies.foldlM_take kept initially n).mono
  rintro s ⟨⟨lib', keeps⟩, -⟩
  exact keeps.agree

/-- A loop at the code addresses from 100 to 110, and one without code. -/
def spinLoop : SpinProperty := ⟨⟨1, [(100, 110)]⟩⟩

def emptyLoop : SpinProperty := ⟨⟨2, []⟩⟩

/-- Thread 1 at the instruction 104, which reads the variable of a loop. -/
def spinning (sp : SpinProperty) : Running := ⟨1, 104, true, some sp⟩

def firstWalk : Walk := ⟨[64], fun _ => 7⟩

/-- Thread 1 acquires a lock at 64. -/
def spinAcquisition : List SpinEvent :=
  [.onSpinRead (spinning spinLoop) 64,
    .onSpinWrite (spinning spinLoop) true 64 firstWalk,
    .onExitSpinLoop (spinning spinLoop) 110 spinLoop.codeBlock firstWalk]

theorem spin_lock_records_agree_acquired :
    ∃ s, run ⟨true, false⟩ scripted (start (.init [1, 2] 0 5) [])
        spinAcquisition = .ok s ∧
      (s.detector.spinLock 64).map (·.sLk.holders) = some [1] ∧
      s.detector.Agree := by
  obtain ⟨s, ran, held⟩ := exists_ok_of_map
    (show (run ⟨true, false⟩ scripted (start (.init [1, 2] 0 5) [])
        spinAcquisition).toOption.map
          (fun s => (s.detector.spinLock 64).map (·.sLk.holders)) =
        some (some [1]) by decide +kernel)
  refine ⟨s, ran, held, ?_⟩
  have outside : ∀ event ∈ spinAcquisition, ∀ d : Detector,
      event.Outside d := by
    simp only [spinAcquisition, List.mem_cons, List.not_mem_nil, or_false]
    rintro event (rfl | rfl | rfl) d
    · trivial
    · rintro - - sp ⟨⟩ empty
      cases empty
    · rfl
  have agrees := spin_lock_records_agree ⟨true, false⟩ []
    (LockTab.Follows.init [1, 2] 0 5)
    (show ∀ event ∈ spinAcquisition, event.thr ∈ [1, 2] by
      simp [spinAcquisition, SpinEvent.thr, spinning])
    (by simp [spinAcquisition, SpinEvent.Touches, Library.init])
    (by simp)
    (fun n s event _ atN =>
      outside event (List.mem_of_getElem? atN) s.detector)
    spinAcquisition.length
  rw [List.take_length] at agrees
  exact agrees.of_eq_ok ran

/-- Thread 2 writes the variable that thread 1 has written in its loop.  An
atomic write by thread 1 in an empty loop then leaves the first loop once
more, for a place inside it. -/
def staleExit : List SpinEvent :=
  [.onSpinRead (spinning spinLoop) 64,
    .onSpinWrite (spinning spinLoop) true 64 firstWalk,
    .onSpinWrite ⟨2, 200, false, none⟩ false 64 firstWalk,
    .onSpinWrite (spinning emptyLoop) true 64 firstWalk]

theorem nested_exit_fails :
    run ⟨true, false⟩ scripted (start (.init [1, 2] 0 5) []) staleExit =
      .error .tlAssert := by
  have known : (run ⟨true, false⟩ scripted (start (.init [1, 2] 0 5) [])
      staleExit).map (·.detector.errors) = .error .tlAssert := by
    decide +kernel
  exact eq_error_of_map known

end SpinState
end HelgrindPlus
