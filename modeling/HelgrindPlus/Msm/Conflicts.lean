import HelgrindPlus.LibHB.EventMap
import HelgrindPlus.LibHB.UkaSync
import HelgrindPlus.Msm.Machine
import HelgrindPlus.Msm.Ukal
import HelgrindPlus.Msm.Ukas

/-!
# Which accesses the map of conflicting accesses records

The functions `msm_read` and `msm_write` of the three machines end alike: if
the location has moved from one state that the machine tracks to another, the
access is bound in the map.  The machines differ in the states they track, and
the one of `libhb_ukal_core.h` binds a write as if it were a read.

The table, the clock of the thread and the old shadow value come with a call,
so anything may have happened to them in between.
-/

namespace HelgrindPlus

open Outcome

/-- One build of the machine functions, as far as the map is concerned. -/
structure MsmBuild where
  SV : Type
  eq : DecidableEq SV
  /-- What a call finds: the table, the clock and the locks of the thread. -/
  Env : Type
  msm : Env → Bool → SV → Except Abort SV
  tracked : SV → Bool
  /-- What `msm_write` passes to `event_map_bind` for `isW`. -/
  writeFlag : Bool

/-- The function `SVal__is_tracked` of `libhb_ukas_sval.h`. -/
def Ukas.SVal.isTracked {V : Type} : Ukas.SVal V → Bool
  | .ExclW _ | .ExclR _ | .ShR _ _ | .ShM _ _ | .New => true
  | .SpinVar _ | .Race | .NoAccess | .Invalid => false

/-- The function `SVal__is_tracked` of `libhb_ukal_sval.h`. -/
def Ukal.SVal.isTracked {V : Type} : Ukal.SVal V → Bool
  | .ExclW _ | .ExclR _ | .ExclRW _ | .ShR _ _ | .ShM _ | .ShM2 _ _
  | .New => true
  | .SpinVar _ | .Race | .NoAccess | .Invalid => false

namespace MsmBuild

/-- The build without a separate machine. -/
def standard : MsmBuild where
  SV := SVal
  eq := inferInstance
  Env := VtsTab × Thr
  msm env isWrite svOld := do
    let (_, svNew, _) ← Machine.msmFor isWrite env.1 svOld env.2
    pure svNew
  tracked := SVal.isC
  writeFlag := true

def ukas : MsmBuild where
  SV := Ukas.SVal Nat
  eq := inferInstance
  Env := VtsTab × Nat × Access
  msm env isWrite svOld := do
    let (_, out) ←
      if isWrite then Ukas.msmWrite env.1 svOld env.2.1 env.2.2
      else Ukas.msmRead env.1 svOld env.2.1 env.2.2
    pure out.svNew
  tracked := Ukas.SVal.isTracked
  writeFlag := true

def ukal : MsmBuild where
  SV := Ukal.SVal Nat
  eq := inferInstance
  Env := VtsTab × Nat × Access
  msm env isWrite svOld := do
    let (_, out) ←
      if isWrite then Ukal.msmWrite env.1 svOld env.2.1 env.2.2
      else Ukal.msmRead env.1 svOld env.2.1 env.2.2
    pure out.svNew
  tracked := Ukal.SVal.isTracked
  writeFlag := false

/-- A call of `msm_read` or `msm_write`.  The stack trace of the thread, and
the address that the allocator hands out for a record of it, come with the
call; pointers have room for tags. -/
structure Call (build : MsmBuild) where
  env : build.Env
  svOld : build.SV
  isWrite : Bool
  accAddr : UWord
  szB : Nat
  accThr : UWord
  trace : Vector UWord 8
  fresh : UWord
  isSize : szB = 1 ∨ szB = 2 ∨ szB = 4 ∨ szB = 8
  isThr : accThr &&& 3 = 0 ∧ accThr ≠ 0
  isFresh : fresh &&& 3 = 0 ∧ fresh ≠ 0

namespace Call

variable {build : MsmBuild}

def svNew (call : build.Call) : Except Abort build.SV :=
  build.msm call.env call.isWrite call.svOld

/-- The test at the exit, with `HG_(clo_show_conflicts)` on. -/
def Changes (call : build.Call) (svNew : build.SV) : Prop :=
  svNew ≠ call.svOld ∧ build.tracked call.svOld = true ∧
    build.tracked svNew = true

instance (call : build.Call) (svNew : build.SV) :
    Decidable (call.Changes svNew) :=
  haveI := build.eq
  inferInstanceAs (Decidable (_ ∧ _))

/-- The argument `isW` of the call of `event_map_bind`. -/
def flag (call : build.Call) : Bool := call.isWrite && build.writeFlag

/-- The call as a whole.  The allocator does not hand out the address of a
record that has not been freed. -/
def perform (map : EventMap) (call : build.Call) : Except Abort EventMap := do
  let svNew ← call.svNew
  if call.Changes svNew then
    if map.ctxts.heap.lookup call.fresh = none then
      map.bind call.accAddr call.szB call.flag call.accThr call.trace
        call.fresh
    else .error .dangling
  else .ok map

/-- A slot with the thread, the size and the direction of the call. -/
def Made (call : build.Call) (acc : ThrNRCEC) : Prop :=
  ∃ size, EventMap.encodeSize call.szB = .ok size ∧
    acc.triple = (call.accThr, if call.isWrite then 1 else 0, size)

/-- The map has a slot for the call. -/
def LeftIn (call : build.Call) (map : EventMap) : Prop :=
  ∃ ref, map.oldrefTree.lookup call.accAddr = some ref ∧
    ∃ acc ∈ ref.accs, acc ≠ .null ∧ call.Made acc

end Call

variable {build : MsmBuild}

def run (calls : List build.Call) : Except Abort EventMap :=
  calls.foldlM Call.perform .init

/-- Every slot in use is that of a call with its address. -/
def AllMade (calls : List build.Call) (map : EventMap) : Prop :=
  ∀ a ref, map.oldrefTree.lookup a = some ref → ∀ acc ∈ ref.accs,
    acc ≠ .null → ∃ call ∈ calls, call.accAddr = a ∧ call.Made acc

/-- The map tells the truth after every call, and each call that moves a
location between states that are tracked is in it then. -/
def TellsTruth (calls : List build.Call) : Prop :=
  ∀ n map, run (calls.take n) = .ok map → AllMade (calls.take n) map ∧
    ∀ call svNew, calls[n]? = some call →
      map.ctxts.heap.lookup call.fresh = none → call.svNew = .ok svNew →
      call.Changes svNew → Returns (call.perform map) call.LeftIn

end MsmBuild

/-- A write that moves a location between states that are tracked. -/
def Ukal.WriteMoves (tab : VtsTab) (svOld : Ukal.SVal Nat) (tvid : Nat)
    (acc : Access) : Prop :=
  let ordering vtsidOld := (tab.getOrdering vtsidOld tvid).map (·.2)
  acc.atomic = false ∧
    match svOld with
    | .New | .ShR _ _ => True
    | .ExclW vtsidOld => ∃ ord, ordering vtsidOld = .ok ord ∧
        if ord.isLeq then tvid ≠ vtsidOld else acc.locksetW ≠ ∅
    | .ExclR vtsidOld => ∃ ord, ordering vtsidOld = .ok ord ∧
        (ord.isLeq ∨ acc.locksetW ≠ ∅)
    | .ExclRW vtsidOld => ∃ ord, ordering vtsidOld = .ok ord ∧
        match ord with
        | .eq => False
        | .lt => tvid ≠ vtsidOld
        | _ => acc.locksetW ≠ ∅
    | .ShM lset => lset ∩ acc.locksetW = ∅ ∨ lset ∩ acc.locksetW ≠ lset
    | .ShM2 vtsidOld lset =>
        if lset ∩ acc.locksetW = ∅ then
          ∃ ord, ordering vtsidOld = .ok ord ∧ ord.isLeq
        else tvid ≠ vtsidOld ∨ lset ∩ acc.locksetW ≠ lset
    | .SpinVar _ | .Race | .NoAccess | .Invalid => False

namespace Ukal

variable {tab : VtsTab} {svOld : SVal Nat} {tvid : Nat} {acc : Access}

/-- What `msm_write` leaves has moved between tracked states. -/
def Moved (svOld : SVal Nat)
    (result : Except Abort (VtsTab × MsmOut Nat (SVal Nat))) : Prop :=
  ∃ tab out, result = .ok (tab, out) ∧ out.svNew ≠ svOld ∧
    svOld.isTracked = true ∧ out.svNew.isTracked = true

theorem moved_ok {out : MsmOut Nat (SVal Nat)} :
    Moved svOld (.ok (tab, out)) ↔ out.svNew ≠ svOld ∧
      svOld.isTracked = true ∧ out.svNew.isTracked = true := by
  constructor
  · rintro ⟨tab', out', same, changes⟩
    cases same
    exact changes
  · exact fun changes => ⟨tab, out, rfl, changes⟩

theorem moved_getOrdering {vtsidOld : Nat}
    {next : VtsTab × POrd → Except Abort (VtsTab × MsmOut Nat (SVal Nat))}
    {moves : POrd → Prop}
    (each : ∀ after ord, Moved svOld (next (after, ord)) ↔ moves ord) :
    Moved svOld (tab.getOrdering vtsidOld tvid >>= next) ↔
      ∃ ord, (tab.getOrdering vtsidOld tvid).map (·.2) = .ok ord ∧
        moves ord := by
  cases tab.getOrdering vtsidOld tvid with
  | error abort =>
      constructor
      · rintro ⟨after, out, impossible, -⟩
        cases impossible
      · rintro ⟨ord, impossible, -⟩
        cases impossible
  | ok result =>
      rw [ok_bind, each]
      constructor
      · exact fun moves => ⟨result.2, rfl, moves⟩
      · rintro ⟨ord, same, moves⟩
        cases same
        exact moves

/-- An unordered write leads to a race, unless a lock is held. -/
theorem moved_unordered {after : VtsTab} {svNew : SVal Nat}
    (other : svNew ≠ svOld) (before : svOld.isTracked = true)
    (tracked : svNew.isTracked = true) :
    Moved svOld (if acc.getLockSet false = ∅ then
      pure (after, MsmOut.race .Race) else pure (after, .stay svNew)) ↔
      acc.locksetW ≠ ∅ := by
  split
  · rename_i empty
    have none : acc.locksetW = ∅ := empty
    exact moved_ok.trans (by simp [MsmOut.race, SVal.isTracked, none])
  · rename_i locked
    have some : acc.locksetW ≠ ∅ := locked
    exact moved_ok.trans
      (by simp [MsmOut.stay, other, before, tracked, some])

/-- The condition on the state before the write is right. -/
theorem moved_iff :
    Moved svOld (msmWrite tab svOld tvid acc) ↔
      WriteMoves tab svOld tvid acc := by
  unfold msmWrite WriteMoves
  split
  · rename_i skipped
    rw [Bool.and_eq_true] at skipped
    rw [moved_ok]
    simp [MsmOut.stay, skipped.1]
  rename_i taken
  have notAtomic : svOld.isTracked = true → acc.atomic = false := by
    cases svOld <;> simp_all [SVal.isSpinVar, SVal.isTracked]
  cases svOld with
  | New =>
      rw [moved_ok]
      simp [MsmOut.stay, SVal.isTracked, notAtomic rfl]
  | ExclW vtsidOld =>
      rw [and_iff_right (notAtomic rfl)]
      apply moved_getOrdering
      intro after ord
      dsimp only
      split
      · exact moved_ok.trans (by simp [MsmOut.stay, SVal.isTracked])
      · exact moved_unordered nofun rfl rfl
  | ExclR vtsidOld =>
      rw [and_iff_right (notAtomic rfl)]
      apply moved_getOrdering
      intro after ord
      dsimp only
      split
      · rename_i leq
        exact moved_ok.trans (by simp [MsmOut.stay, SVal.isTracked, leq])
      · rename_i notLeq
        rw [or_iff_right notLeq]
        exact moved_unordered nofun rfl rfl
  | ExclRW vtsidOld =>
      rw [and_iff_right (notAtomic rfl)]
      apply moved_getOrdering
      intro after ord
      cases ord with
      | eq => exact moved_ok.trans (by simp [MsmOut.stay])
      | lt => exact moved_ok.trans (by simp [MsmOut.stay, SVal.isTracked])
      | gt => exact moved_unordered nofun rfl rfl
      | un => exact moved_unordered nofun rfl rfl
  | ShR vtsidOld lset =>
      rw [and_iff_right (notAtomic rfl), iff_true]
      dsimp only
      split
      · exact moved_ok.mpr (by simp [MsmOut.stay, SVal.isTracked])
      · exact moved_ok.mpr (by simp [MsmOut.stay, SVal.isTracked])
  | ShM lset =>
      rw [and_iff_right (notAtomic rfl)]
      dsimp only
      split
      · rename_i disjoint
        have none : lset ∩ acc.locksetW = ∅ := disjoint
        exact moved_ok.trans (by simp [MsmOut.stay, SVal.isTracked, none])
      · rename_i meets
        have some : lset ∩ acc.locksetW ≠ ∅ := meets
        apply moved_ok.trans
        simp [MsmOut.stay, SVal.isTracked, some, Access.getLockSet]
  | ShM2 vtsidOld lset =>
      rw [and_iff_right (notAtomic rfl)]
      dsimp only
      split
      · rename_i disjoint
        have none : lset ∩ acc.locksetW = ∅ := disjoint
        rw [if_pos none]
        apply moved_getOrdering
        intro after ord
        dsimp only
        split
        · rename_i leq
          exact moved_ok.trans (by simp [MsmOut.stay, SVal.isTracked, leq])
        · rename_i notLeq
          exact moved_ok.trans
            (by simp [MsmOut.race, SVal.isTracked, notLeq])
      · rename_i meets
        have some : lset ∩ acc.locksetW ≠ ∅ := meets
        rw [if_neg some]
        apply moved_ok.trans
        simp [MsmOut.stay, SVal.isTracked, Access.getLockSet, imp_iff_not_or]
  | SpinVar | Race | NoAccess | Invalid =>
      rw [and_false, iff_false]
      rintro ⟨after, out, -, -, tracked, -⟩
      cases tracked

end Ukal

namespace MsmBuild

variable {build : MsmBuild} {calls : List build.Call} {call : build.Call}
  {map : EventMap} {acc : ThrNRCEC}

/-- The slot that the call binds. -/
def Call.Binds (call : build.Call) (acc : ThrNRCEC) : Prop :=
  ∃ size, EventMap.encodeSize call.szB = .ok size ∧
    acc.triple = (call.accThr, if call.flag then 1 else 0, size)

/-- Every slot in use was bound by a call with some property. -/
structure Kept (good : build.Call → Prop) (calls : List build.Call)
    (map : EventMap) : Prop where
  consistent : map.Consistent
  bound : ∀ a ref, map.oldrefTree.lookup a = some ref → ∀ acc ∈ ref.accs,
    acc ≠ .null → ∃ call ∈ calls, call.accAddr = a ∧ call.Binds acc ∧
      good call

section Kept

variable {good : build.Call → Prop}

theorem Kept.init : Kept good [] .init where
  consistent := .init
  bound _ _ found := by cases found

theorem Kept.more (kept : Kept good calls map) :
    Kept good (calls ++ [call]) map where
  consistent := kept.consistent
  bound a ref found acc member inUse := by
    obtain ⟨earlier, isCall, same⟩ := kept.bound a ref found acc member inUse
    exact ⟨earlier, List.mem_append_left _ isCall, same⟩

/-- A call that moves the location. -/
theorem Kept.binds (kept : Kept good calls map) {svNew : build.SV}
    (unused : map.ctxts.heap.lookup call.fresh = none)
    (known : call.svNew = .ok svNew) (changes : call.Changes svNew)
    (isGood : good call) :
    Returns (call.perform map) (fun after =>
      Kept good (calls ++ [call]) after ∧
      ∃ ref, after.oldrefTree.lookup call.accAddr = some ref ∧
        ∃ acc ∈ ref.accs, acc ≠ .null ∧ call.Binds acc) := by
  unfold Call.perform
  rw [known, ok_bind, if_pos changes, if_pos unused]
  apply (EventMap.bind_returns kept.consistent call.isSize call.isThr
    call.isFresh unused).mono
  rintro after ⟨consistent, size, acc, encoded, isUsed, triple, recorded⟩
  have binds : call.Binds acc :=
    ⟨size, encoded, triple⟩
  have inUse : acc ≠ .null := by
    rintro rfl
    exact isUsed.packed_ne_zero rfl
  obtain ⟨ref, found, member, only⟩ := recorded.here
  refine ⟨⟨consistent, ?_⟩, ref, found, acc, member, inUse, binds⟩
  intro a ref' found' one isOne oneInUse
  by_cases here : a = call.accAddr
  · subst here
    rw [found] at found'
    cases found'
    rcases only one isOne oneInUse with rfl | ⟨old, before, isOld⟩
    · exact ⟨call, by simp, rfl, binds, isGood⟩
    · exact kept.more.bound call.accAddr old before one isOld oneInUse
  · rw [recorded.others a here] at found'
    exact kept.more.bound a ref' found' one isOne oneInUse

theorem Kept.perform (kept : Kept good calls map) {after : EventMap}
    (isGood : map.ctxts.heap.lookup call.fresh = none → ∀ svNew,
      call.svNew = .ok svNew → call.Changes svNew → good call)
    (done : call.perform map = .ok after) :
    Kept good (calls ++ [call]) after := by
  obtain ⟨svNew, known, rest⟩ := bind_eq_ok.mp done
  split at rest
  · rename_i changes
    split at rest
    · rename_i unused
      exact ((kept.binds unused known changes
        (isGood unused svNew known changes)).of_eq_ok done).1
    · cases rest
  · cases rest
    exact kept.more

/-- The calls of a run that reach the map all have the property. -/
def BindsOnly (good : build.Call → Prop) (calls : List build.Call) : Prop :=
  ∀ n map call svNew, run (calls.take n) = .ok map →
    calls[n]? = some call → map.ctxts.heap.lookup call.fresh = none →
    call.svNew = .ok svNew → call.Changes svNew → good call

private theorem run_kept (only : BindsOnly good calls) {n : Nat}
    (ran : run (calls.take n) = .ok map) :
    Kept good (calls.take n) map := by
  have all : ∀ map, run (calls.take n) = .ok map →
      Kept good (calls.take n) map := by
    refine take_induction ?_ (fun n call atN induction => ?_) n
    · intro map ran
      cases ran
      exact .init
    · intro map ran
      unfold run at ran
      rw [foldlM_take_succ atN] at ran
      obtain ⟨before, earlier, done⟩ := bind_eq_ok.mp ran
      rw [List.take_add_one, atN, Option.toList_some]
      exact (induction before earlier).perform
        (fun unused svNew => only n before call svNew earlier atN unused) done
  exact all map ran

end Kept

/-- The map tells the truth if the calls that reach it pass their
direction. -/
theorem BindsOnly.tellsTruth
    (only : BindsOnly (fun call => call.flag = call.isWrite) calls) :
    TellsTruth calls := by
  intro n map ran
  have kept := run_kept only ran
  refine ⟨?_, ?_⟩
  · intro a ref found acc member inUse
    obtain ⟨call, isCall, here, ⟨size, encoded, triple⟩, right⟩ :=
      kept.bound a ref found acc member inUse
    rw [right] at triple
    exact ⟨call, isCall, here, size, encoded, triple⟩
  · intro call svNew atN unused known changes
    have right := only n map call svNew ran atN unused known changes
    apply (kept.binds unused known changes right).mono
    rintro after ⟨-, ref, found, acc, member, inUse, size, encoded, triple⟩
    rw [right] at triple
    exact ⟨ref, found, acc, member, inUse, size, encoded, triple⟩

theorem ukal_changes_iff {call : ukal.Call} (isWrite : call.isWrite = true) :
    (∃ svNew, call.svNew = .ok svNew ∧ call.Changes svNew) ↔
      Ukal.WriteMoves call.env.1 call.svOld call.env.2.1 call.env.2.2 := by
  apply Iff.trans _ Ukal.moved_iff
  have written : call.svNew = (do
      let (_, out) ←
        Ukal.msmWrite call.env.1 call.svOld call.env.2.1 call.env.2.2
      pure out.svNew) := by
    change ukal.msm call.env call.isWrite call.svOld = _
    rw [isWrite]
    rfl
  constructor
  · rintro ⟨svNew, known, changes⟩
    obtain ⟨⟨tab, out⟩, done, same⟩ := bind_eq_ok.mp (written.symm.trans known)
    cases same
    exact ⟨tab, out, done, changes⟩
  · rintro ⟨tab, out, done, changes⟩
    refine ⟨out.svNew, written.trans ?_, changes⟩
    exact bind_eq_ok.mpr ⟨(tab, out), done, rfl⟩

/-- No slot of the long machine has the direction of a write, so that of a
write that moves its location is missing. -/
theorem ukal_not_writeMoves {calls : List ukal.Call} {call : ukal.Call}
    {n : Nat} (truth : TellsTruth calls)
    (ran : run (calls.take n) = .ok map) (atN : calls[n]? = some call)
    (unused : map.ctxts.heap.lookup call.fresh = none)
    (isWrite : call.isWrite = true) :
    ¬ Ukal.WriteMoves call.env.1 call.svOld call.env.2.1 call.env.2.2 := by
  intro moves
  obtain ⟨svNew, known, changes⟩ := (ukal_changes_iff isWrite).mpr moves
  obtain ⟨after, done, ref, found, acc, member, inUse, size, encoded,
    triple⟩ := (truth n map ran).2 call svNew atN unused known changes
  have all : BindsOnly (fun _ => True) calls :=
    fun _ _ _ _ _ _ _ _ _ => trivial
  have kept := (run_kept all ran).perform (fun _ _ _ _ => trivial) done
  obtain ⟨other, -, -, ⟨size', -, triple'⟩, -⟩ :=
    kept.bound call.accAddr ref found acc member inUse
  have unflagged : other.flag = false := Bool.and_false other.isWrite
  rw [triple, isWrite, unflagged] at triple'
  simp at triple'

/-- In the default build and the one with the short machine the map tells the
truth; with the long machine it does if and only if no write moves a location
from a tracked state to another. -/
theorem conflict_map_tells_truth (standardCalls : List standard.Call)
    (ukasCalls : List ukas.Call) (ukalCalls : List ukal.Call) :
    TellsTruth standardCalls ∧ TellsTruth ukasCalls ∧
    (TellsTruth ukalCalls ↔
      ∀ n map call, run (ukalCalls.take n) = .ok map →
        ukalCalls[n]? = some call → map.ctxts.heap.lookup call.fresh = none →
        call.isWrite = true → ¬ Ukal.WriteMoves call.env.1 call.svOld
          call.env.2.1 call.env.2.2) := by
  refine ⟨?_, ?_, ?_, ?_⟩
  · apply BindsOnly.tellsTruth
    intro n map call svNew _ _ _ _ _
    exact Bool.and_true call.isWrite
  · apply BindsOnly.tellsTruth
    intro n map call svNew _ _ _ _ _
    exact Bool.and_true call.isWrite
  · intro truth n map call ran atN unused isWrite
    exact ukal_not_writeMoves truth ran atN unused isWrite
  · intro never
    apply BindsOnly.tellsTruth
    intro n map call svNew ran atN unused known changes
    have isRead : call.isWrite = false := by
      rw [Bool.eq_false_iff]
      intro isWrite
      exact never n map call ran atN unused isWrite
        ((ukal_changes_iff isWrite).mp ⟨svNew, known, changes⟩)
    unfold Call.flag
    rw [isRead]
    rfl

private theorem noLocks_subset : (∅ : Finset Nat) ⊆ ∅ := Finset.Subset.refl ∅

private theorem firstRef_aligned :
    (0x200 : UWord) &&& 3 = 0 ∧ (0x200 : UWord) ≠ 0 := by
  decide

/-- A write of a new location. -/
def firstWrite (tab : VtsTab) (thr : UWord)
    (aligned : thr &&& 3 = 0 ∧ thr ≠ 0) : ukal.Call where
  env := (tab, 0, ⟨thr.toNat, true, false, false, false, ∅, ∅,
    noLocks_subset⟩)
  svOld := Ukal.SVal.New
  isWrite := true
  accAddr := 0x1000
  szB := 4
  accThr := thr
  trace := ((Vector.replicate 8 0).setIfInBounds 0 0x4004).setIfInBounds 1
    0x4008
  fresh := 0x200
  isSize := .inr (.inr (.inl rfl))
  isThr := aligned
  isFresh := firstRef_aligned

/-- The first write of a program, by its only thread, is bound as a read. -/
theorem first_write_bound_as_read :
    ∃ hb, UkaHb.init 0x80 = .ok hb ∧
      ¬ TellsTruth [firstWrite hb.tab 0x80 (by decide)] := by
  obtain ⟨hb, started, -⟩ := UkaHb.Refines.init 0x80
  refine ⟨hb, started, fun truth => ?_⟩
  apply ukal_not_writeMoves (n := 0) truth rfl rfl rfl rfl
  exact ⟨rfl, trivial⟩

end MsmBuild

end HelgrindPlus
