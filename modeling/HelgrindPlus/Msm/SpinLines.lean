import HelgrindPlus.Main.LockAborts
import HelgrindPlus.Main.SpinRecords
import HelgrindPlus.Msm.ShadowLines
import HelgrindPlus.Msm.SpinMachine

/-!
# Writes in the middle of an access

A write that completes a loop without statements of its own leaves that loop
at once, and writes other variables while its own access still holds a line.
-/

namespace HelgrindPlus

open Outcome

namespace SpinState

variable {μ : Type} {flags : Flags} {rewrite : Rewrite μ} {run : Running}
  {ivu : IntervalUnion} {walk : Walk} {s : SpinState μ} {adr : Nat}
  {fails : Abort → Prop}

/-- A property of memory that writing a variable keeps. -/
def Keeps (fails : Abort → Prop) (rewrite : Rewrite μ) (P : μ → Prop)
    (adr : Nat) : Prop :=
  ∀ run d memory, P memory →
    Satisfies fails (rewrite run (d, memory) adr) (P ·.2)

/-- A property that a round of the loop keeps: the round writes a variable
whose record may be invalidated, or it makes the record one without a
writer. -/
structure RoundRule (fails : Abort → Prop) (flags : Flags)
    (rewrite : Rewrite μ) (run : Running) (ivu : IntervalUnion) (adr : Nat)
    (Q : Detector → μ → Prop) : Prop where
  rewrites : ∀ d memory map lk, Q d memory → d.mapSpinLocks = some map →
    map.lookup adr = some lk → lk.MayInvalidate flags run.tid ivu.ptr →
    Satisfies fails
      (rewrite run (d.setSpinLock map adr lk.invalidated, memory) adr)
      fun after => Q after.1 after.2
  clears : ∀ d memory map lk locks errors lk', Q d memory →
    d.mapSpinLocks = some map → map.lookup adr = some lk → lk'.sp = lk.sp →
    lk'.lastSpinWriter = 0 → lk'.notALock = lk.notALock →
    (lk'.HeldByOther run.tid → lk.HeldByOther run.tid) →
    Q ⟨locks, some (map.insert adr lk'), errors⟩ memory

theorem Keeps.roundRule {P : μ → Prop} (keeps : Keeps fails rewrite P adr)
    (flags : Flags) (run : Running) (ivu : IntervalUnion) :
    RoundRule fails flags rewrite run ivu adr (fun _ memory => P memory) where
  rewrites _ _ _ _ holds _ _ _ := keeps run _ _ holds
  clears _ _ _ _ _ _ _ holds _ _ _ _ _ _ := holds

variable {Q : Detector → μ → Prop} {map : SpinLocks} {lk : SpinLock}

private theorem invalidate_keeps
    (rule : RoundRule fails flags rewrite run ivu adr Q)
    (holds : Q s.detector s.memory) (isMap : s.detector.mapSpinLocks = some map)
    (found : map.lookup adr = some lk)
    (doubted : lk.MayInvalidate flags run.tid ivu.ptr) :
    Satisfies fails (invalidate rewrite run s map adr lk)
      fun s => Q s.detector s.memory := by
  apply (rule.rewrites _ _ map lk holds isMap found doubted).bind
  exact fun _ holds => holds

private theorem acquireBoth_keeps
    (asserts : ∀ abort : Abort, abort.Asserts → fails abort)
    (rule : RoundRule fails flags rewrite run ivu adr Q)
    (holds : Q s.detector s.memory) (isMap : s.detector.mapSpinLocks = some map)
    (found : map.lookup adr = some lk) :
    Satisfies fails (acquireBoth flags run walk s map adr lk)
      fun s => Q s.detector s.memory := by
  have entered := s.detector.locks.postThreadWAcquiresLock_asserts run.tid
    .mbRec adr (walk.fresh adr)
  apply (entered.failing asserts).bind
  intro entered _
  have taken : Satisfies fails
      (entered.1.lockNAcquireWriter lk.sLk run.tid)
      (·.holders = run.tid :: lk.sLk.holders) := by
    have stops := (entered.1.lockNAcquireWriter_asserts lk.sLk
      run.tid).failing asserts
    cases acquired : entered.1.lockNAcquireWriter lk.sLk run.tid with
    | error abort =>
        rw [acquired] at stops
        exact stops
    | ok sLk => exact (LockTab.lockNAcquireWriter_eq_ok acquired).1.holders
  apply taken.bind
  intro sLk holders
  refine rule.clears _ _ map lk _ _ _ holds isMap found rfl rfl rfl
    fun held all => held ?_
  dsimp only
  rw [holders, List.count_cons_self, List.length_cons, all]

private theorem exitWriter_keeps
    (asserts : ∀ abort : Abort, abort.Asserts → fails abort)
    (rule : RoundRule fails flags rewrite run ivu adr Q)
    (holds : Q s.detector s.memory) (isMap : s.detector.mapSpinLocks = some map)
    (found : map.lookup adr = some lk) (written : lk.lastSpinWriter ≠ 0)
    (inLoop : ∃ sp, lk.sp = some sp ∧ sp.codeBlock.ptr = ivu.ptr)
    (own : lk.lastSpinWriter = run.tid) :
    Satisfies fails (exitWriter flags rewrite run walk s map adr lk)
      fun s => Q s.detector s.memory := by
  apply ((s.detector.locks.getThread_asserts run.tid).failing asserts).bind
  intro _ _
  split
  · exact acquireBoth_keeps asserts rule holds isMap found
  · rename_i bag isHeld
    iterate 2
      apply (tlAssert_asserts.failing asserts).bind
      intro _ _
    split
    · rename_i other
      have held : lk.HeldByOther run.tid := by
        rw [SpinLock.HeldByOther, Lock.holders, isHeld]
        exact other
      exact invalidate_keeps rule holds isMap found
        ⟨written, inLoop, .inr ⟨own, held⟩⟩
    · exact rule.clears _ _ map lk s.detector.locks s.detector.errors
        { lk with lastSpinWriter := 0 } holds isMap found rfl rfl rfl id

private theorem exitRound_keeps
    (asserts : ∀ abort : Abort, abort.Asserts → fails abort)
    (rule : RoundRule fails flags rewrite run ivu adr Q)
    (holds : Q s.detector s.memory) :
    Satisfies fails (exitRound flags rewrite run ivu walk s adr)
      fun s => Q s.detector s.memory := by
  unfold exitRound
  split
  · exact holds
  rename_i map isMap
  split
  · exact holds
  rename_i lk found
  split
  · exact holds
  rename_i written
  split
  · exact asserts _ (.inr rfl)
  rename_i sp isSp
  split
  · exact holds
  rename_i same
  have inLoop : ∃ sp, lk.sp = some sp ∧ sp.codeBlock.ptr = ivu.ptr :=
    ⟨sp, isSp, not_not.mp same⟩
  split
  · split
    · rename_i prints
      exact invalidate_keeps rule holds isMap found
        ⟨written, inLoop, .inl prints⟩
    · exact holds
  split
  · rename_i own
    exact exitWriter_keeps asserts rule holds isMap found written inLoop own
  · exact holds

theorem onExitSpinLoop_keeps
    (asserts : ∀ abort : Abort, abort.Asserts → fails abort)
    (rules : ∀ adr ∈ walk.visits,
      RoundRule fails flags rewrite run ivu adr Q)
    (holds : Q s.detector s.memory) (destination : Nat) :
    Satisfies fails
      (onExitSpinLoop flags rewrite run destination ivu walk s)
      fun s => Q s.detector s.memory := by
  unfold onExitSpinLoop
  split
  · exact holds
  apply (tlAssert_asserts.failing asserts).bind
  intro _ _
  exact Satisfies.foldlM_kept
    (fun _ adr member holds => exitRound_keeps asserts (rules adr member) holds)
    holds

end SpinState

namespace Ukas

/-- The write completes a loop without statements of its own. -/
def MemAccess.leavesLoop (acc : MemAccess) : Bool :=
  acc.isWrite && acc.atomic && acc.run.spinReading &&
    acc.run.lastSpinProperty.any fun sp => sp.codeBlock.cntParts == 0

theorem isWrite_of_leavesLoop {acc : MemAccess}
    (leaves : acc.leavesLoop = true) : acc.isWrite = true := by
  simp only [MemAccess.leavesLoop, Bool.and_eq_true] at leaves
  exact leaves.1.1.1

private theorem leavesLoop_of_spinWrite {acc : MemAccess} {d d' : Detector}
    {accAddr : Nat} {isALock : Bool} {exit : Nat × IntervalUnion}
    (isWrite : acc.isWrite = true)
    (done : d.spinWrite acc.run acc.atomic accAddr =
      .ok (d', isALock, some exit)) : acc.leavesLoop = true := by
  obtain ⟨sp, isSp, empty⟩ := SpinState.empty_of_spinWrite done
  obtain ⟨thread, -, chosen⟩ := bind_eq_ok.mp done
  split at chosen
  · obtain ⟨_, -, finish⟩ := bind_eq_ok.mp chosen
    cases finish
  · rename_i notRelease
    have spinning : acc.atomic = true ∧ acc.run.spinReading = true := by
      simpa [Detector.isReleaseWrite, isSp, empty] using notRelease
    simp [MemAccess.leavesLoop, isWrite, spinning, isSp, empty]

/-- What a write that is taken for the acquisition of a lock records, and the
loop that it leaves. -/
structure Acquires (run : Running) (d d' : Detector) (accAddr : Nat)
    (isALock : Bool) (sp : SpinProperty) : Prop where
  inserted : ∃ map lk, d.mapSpinLocks = some map ∧
    d'.mapSpinLocks = some (map.insert accAddr lk)
  loop : run.lastSpinProperty = some sp ∨
    (d.spinLock accAddr).bind (·.sp) = some sp
  held : Detector.HeldSince run.tid d d' accAddr
  notALock : (d'.spinLock accAddr).any (·.notALock) = true →
    (d.spinLock accAddr).any (·.notALock) = true
  isALock : isALock = false →
    (d.spinLock accAddr).any (·.notALock) = true

/-- A write that completes such a loop is taken for an acquisition. -/
theorem spinWrite_of_leavesLoop {acc : MemAccess} {d d' : Detector}
    {accAddr : Nat} {isALock : Bool} {exit : Option (Nat × IntervalUnion)}
    (leaves : acc.leavesLoop = true)
    (done : d.spinWrite acc.run acc.atomic accAddr =
      .ok (d', isALock, exit)) :
    ∃ destination sp, exit = some (destination, sp.codeBlock) ∧
      Acquires acc.run d d' accAddr isALock sp := by
  simp only [MemAccess.leavesLoop, Bool.and_eq_true] at leaves
  obtain ⟨⟨⟨-, atomic⟩, spinning⟩, hasLoop⟩ := leaves
  obtain ⟨sp, isSp, empty⟩ := (Option.any_eq_true _ _).mp hasLoop
  have noParts : sp.codeBlock.cntParts = 0 := beq_iff_eq.mp empty
  obtain ⟨thread, -, chosen⟩ := bind_eq_ok.mp done
  have acquires :
      Detector.isReleaseWrite acc.run acc.atomic thread = false := by
    rw [Detector.isReleaseWrite, atomic, spinning]
    rfl
  rw [acquires, if_neg Bool.false_ne_true, Detector.acquireWrite, isSp]
    at chosen
  simp only [if_pos (Or.inr atomic)] at chosen
  split at chosen
  · cases chosen
  rename_i map isMap
  obtain ⟨old, looked, chosen⟩ := bind_eq_ok.mp chosen
  rw [if_pos ⟨atomic, noParts⟩] at chosen
  split at chosen
  · cases chosen
  rename_i own isOwn
  cases chosen
  have recorded : d.spinLock accAddr = map.lookup accAddr := by
    rw [Detector.spinLock, isMap]
    rfl
  have isOld := Detector.record_of_lookupOrCreate looked
  refine ⟨_, own, rfl, ⟨map, _, isMap, rfl⟩, ?_, ?_, ?_, ?_⟩
  · rw [recorded]
    unfold Detector.noteSpinWrite at isOwn
    split at isOwn
    · right
      rcases isOld with known | ⟨-, rfl⟩
      · rw [known]
        exact isOwn
      · cases isOwn
    · left
      rw [isSp]
      exact isOwn
  · intro lk found held
    rw [Detector.setSpinLock, Detector.spinLock, Option.bind_some,
      AList.lookup_insert] at found
    cases found
    have heldOld : old.HeldByOther acc.run.tid := by
      unfold Detector.noteSpinWrite at held
      split at held <;> exact held
    rcases isOld with known | ⟨-, rfl⟩
    · exact ⟨old, recorded.trans known, heldOld⟩
    · exact absurd rfl heldOld
  · intro noted
    rw [Detector.setSpinLock, Detector.spinLock, Option.bind_some,
      AList.lookup_insert, Option.any_some] at noted
    have notedOld : old.notALock = true := by
      unfold Detector.noteSpinWrite at noted
      split at noted <;> exact noted
    rw [recorded]
    rcases isOld with known | ⟨-, rfl⟩
    · rw [known]
      exact notedOld
    · cases notedOld
  · intro refused
    rw [recorded]
    rcases isOld with known | ⟨-, rfl⟩
    · rw [known]
      simpa using refused
    · cases refused

private theorem exit_of_leavesLoop {acc : MemAccess} {d d' : Detector}
    {accAddr : Nat} {isALock : Bool} {exit : Option (Nat × IntervalUnion)}
    (leaves : acc.leavesLoop = true)
    (done : d.spinWrite acc.run acc.atomic accAddr =
      .ok (d', isALock, exit)) : exit ≠ none := by
  obtain ⟨destination, sp, isExit, -⟩ := spinWrite_of_leavesLoop leaves done
  rw [isExit]
  exact Option.some_ne_none _

section Valid

variable {tab : VtsTab} {sv : SVal Nat} {tvid : Nat} {acc : Access}

private theorem readBody_valid :
    Satisfies (fun _ => True) (readBody tab sv tvid acc) fun result =>
      sv ≠ .Invalid → result.2.svNew ≠ .Invalid := by
  unfold readBody
  split
  · unfold spinRead
    split
    · split <;> exact fun _ => nofun
    · split
      · apply (Satisfies.any _).bind
        exact fun _ _ _ => nofun
      · exact fun _ => nofun
  split
  · exact id
  cases sv with
  | ExclW vts | ExclR vts =>
      apply (Satisfies.any _).bind
      rintro ⟨tab, ord⟩ -
      dsimp only
      repeat' split
      all_goals exact fun _ => nofun
  | ShM vts lset =>
      dsimp only
      split
      · apply (Satisfies.any _).bind
        rintro ⟨tab, ord⟩ -
        dsimp only
        split
        all_goals exact fun _ => nofun
      · exact fun _ => nofun
  | SpinVar vts =>
      apply (Satisfies.any _).bind
      exact fun _ _ _ => nofun
  | ShR vts lset | Race | New | NoAccess => exact fun _ => nofun
  | Invalid => trivial

private theorem writeBody_valid :
    Satisfies (fun _ => True) (writeBody tab sv tvid acc) fun result =>
      sv ≠ .Invalid → result.2.svNew ≠ .Invalid := by
  unfold writeBody
  split
  · exact id
  cases sv with
  | ExclW vts | ExclR vts =>
      apply (Satisfies.any _).bind
      rintro ⟨tab, ord⟩ -
      dsimp only
      repeat' split
      all_goals exact fun _ => nofun
  | ShR vts lset | ShM vts lset =>
      dsimp only
      split
      · apply (Satisfies.any _).bind
        rintro ⟨tab, ord⟩ -
        dsimp only
        split
        all_goals exact fun _ => nofun
      · exact fun _ => nofun
  | SpinVar vts =>
      dsimp only
      split
      · exact fun _ => nofun
      · apply (Satisfies.any _).bind
        exact fun _ _ _ => nofun
  | Race | New | NoAccess => exact fun _ => nofun
  | Invalid => trivial

/-- A write makes no spin variable of anything else. -/
theorem writeBody_isSpinVar :
    Satisfies (fun _ => True) (writeBody tab sv tvid acc) fun result =>
      result.2.svNew.isSpinVar = true → sv.isSpinVar = true := by
  unfold writeBody
  split
  · exact id
  cases sv with
  | ExclW vts | ExclR vts =>
      apply (Satisfies.any _).bind
      rintro ⟨tab, ord⟩ -
      dsimp only
      repeat' split
      all_goals exact nofun
  | ShR vts lset | ShM vts lset =>
      dsimp only
      split
      · apply (Satisfies.any _).bind
        rintro ⟨tab, ord⟩ -
        dsimp only
        split
        all_goals exact nofun
      · exact nofun
  | SpinVar vts => exact (Satisfies.any _).mono fun _ _ _ => rfl
  | Race | New | NoAccess => exact nofun
  | Invalid => trivial

/-- The clock of the thread moves only when a spin variable is written. -/
theorem writeBody_vid :
    Satisfies (fun _ => True) (writeBody tab sv tvid acc) fun result =>
      sv.isSpinVar = false → result.2.vid = none := by
  unfold writeBody
  split
  · exact fun _ => rfl
  cases sv with
  | ExclW vts | ExclR vts =>
      apply (Satisfies.any _).bind
      rintro ⟨tab, ord⟩ -
      dsimp only
      repeat' split
      all_goals exact fun _ => rfl
  | ShR vts lset | ShM vts lset =>
      dsimp only
      split
      · apply (Satisfies.any _).bind
        rintro ⟨tab, ord⟩ -
        dsimp only
        split
        all_goals exact fun _ => rfl
      · exact fun _ => rfl
  | SpinVar vts => exact (Satisfies.any _).mono fun _ _ => nofun
  | Race | New | NoAccess => exact fun _ => rfl
  | Invalid => trivial

end Valid

theorem msmSpinWrite_leavesMemory (run : Running) :
    LeavesMemory (msmSpinWrite run) := by
  intro s svOld a szB
  iterate 3
    apply (Satisfies.any _).bind
    intro _ _
  have wrote : ∀ tab tvid acc, Satisfies (fun _ => True)
      (msmWrite tab svOld tvid acc) fun result =>
        svOld ≠ .Invalid → result.2.svNew ≠ .Invalid := by
    intro tab tvid acc
    apply (Satisfies.any _).bind
    intro _ _
    apply writeBody_valid.bind
    intro result valid
    apply (Satisfies.any _).bind
    exact fun _ _ => valid
  apply (wrote _ _ _).bind
  exact fun _ valid => ⟨rfl, valid⟩

section Rewrite

variable {adr b : Nat} {cl₀ : CacheLine (SVal Nat)}

theorem rewrite_formed (adr : Nat) :
    SpinState.Keeps (fun _ => True) rewrite (fun memory : Memory => memory.zsm.Formed)
      adr := by
  intro run d memory formed
  have written := @Zsm.Formed.applyWidths _ _ _ _ SpinCore.rcSVal
    (msmSpinWrite run) (memory.zsm, ⟨memory.hb, memory.races, d⟩) formed
    (msmSpinWrite_leavesMemory run) .w32 adr
  apply written.bind
  exact fun _ formed => formed

private theorem rewrite_owned (adr : Nat) :
    SpinState.Keeps (fun _ => True) rewrite (fun memory : Memory => memory.zsm.Owned)
      adr := by
  intro run d memory owned
  have keeps :=
    (msmSpinWrite_leavesMemory run).keeps_owned SpinCore.rcSVal
  apply (@Keeps.apply32 _ _ _ _ _ _ _
    (memory.zsm, ⟨memory.hb, memory.races, d⟩) keeps adr owned).bind
  exact fun _ owned => owned

/-- A line stays in the cache, with all its nodes. -/
theorem rewrite_covers (apart : ¬ Displaces b adr) :
    SpinState.Keeps (fun _ => True) rewrite (fun memory : Memory =>
      memory.zsm.WF ∧ memory.zsm.Covers b cl₀) adr := by
  rintro run d memory ⟨wf, covers⟩
  have inLine : ∀ c, adr ≤ c → c < adr + 4 → wayIndex c = wayIndex b →
      lineTag c = lineTag b := by
    intro c first last index
    by_contra other
    have here : adr + (c - adr) = c := by omega
    rw [← here] at index other
    exact apart ⟨c - adr, by omega, index, other⟩
  have rule : NodeRule SpinCore.rcSVal (msmSpinWrite run) (fun _ => True)
      (adr + 4) fun c s => adr ≤ c ∧ s.1.WF ∧ s.1.Covers b cl₀ :=
    (msmSpinWrite_leavesMemory run).covers_rule inLine
  apply (apply32_satisfies rule adr
    (memory.zsm, ⟨memory.hb, memory.races, d⟩) (le_refl _)
    ⟨le_refl adr, wf, covers⟩).bind
  exact fun _ holds => holds.2

end Rewrite

namespace Machine

variable {opts : Options} {acc : MemAccess} {s : Machine}

/-- A property that a question to the detector keeps; it may speak of the
answer. -/
theorem askDetector_keeps {fails : Abort → Prop}
    (asserts : ∀ abort : Abort, abort.Asserts → fails abort)
    {Q : Bool → Detector → Memory → Prop} {svOld : SVal Nat} {a : Nat}
    (holds : ∀ wasALock, Q wasALock s.2.detector s.toSpin.memory)
    (records : acc.leavesLoop = false →
      ∀ wasALock d, Q wasALock d s.toSpin.memory)
    (exits : opts.detectMutex = true → acc.leavesLoop = true →
      svOld.isSpinVar = true → ∀ d isALock destination ivu,
      s.2.detector.spinWrite acc.run acc.atomic a =
        .ok (d, isALock, some (destination, ivu)) →
      Q isALock d s.toSpin.memory ∧ ∀ adr ∈ (acc.walk a).visits,
        SpinState.RoundRule fails opts.flags rewrite acc.run ivu adr
          (Q isALock)) :
    Satisfies fails (askDetector opts acc s svOld a)
      fun result => Q result.2 result.1.2.detector result.1.toSpin.memory := by
  unfold askDetector
  split
  · exact holds false
  rename_i detects
  split
  · rename_i isWrite
    split
    · rename_i isSpinVar
      have stops := (s.2.detector.spinWrite_asserts acc.run acc.atomic
        a).failing asserts
      cases wrote : s.2.detector.spinWrite acc.run acc.atomic a with
      | error abort =>
          unfold SpinState.onSpinWrite toSpin
          rw [wrote]
          rw [wrote] at stops
          exact stops
      | ok result =>
          obtain ⟨d, isALock, exit⟩ := result
          unfold SpinState.onSpinWrite
          have wrote' : s.toSpin.detector.spinWrite acc.run acc.atomic a =
              .ok (d, isALock, exit) := wrote
          rw [wrote']
          cases exit with
          | none =>
              refine records ?_ isALock d
              by_contra leaves
              exact exit_of_leavesLoop (Bool.eq_true_of_not_eq_false leaves)
                wrote rfl
          | some exit =>
              have leaves := leavesLoop_of_spinWrite isWrite wrote
              obtain ⟨holds', rules⟩ := exits (by simpa using detects) leaves
                isSpinVar d isALock exit.1 exit.2 wrote
              have left := @SpinState.onExitSpinLoop_keeps _ opts.flags
                rewrite acc.run exit.2 (acc.walk a)
                { s.toSpin with detector := d } fails (Q isALock) asserts
                rules holds' exit.1
              have asked : Satisfies fails (do
                  let s ← SpinState.onExitSpinLoop opts.flags rewrite acc.run
                    exit.1 exit.2 (acc.walk a) { s.toSpin with detector := d }
                  pure (s, isALock)) fun result =>
                    Q result.2 result.1.detector result.1.memory :=
                left.bind fun _ holds => holds
              apply asked.bind
              exact fun _ holds => holds
    · exact holds false
  rename_i isRead
  have stays : acc.leavesLoop = false := by
    simp [MemAccess.leavesLoop, isRead]
  split
  · apply ((s.2.detector.onSpinRead_asserts acc.run a).failing asserts).bind
    exact fun result _ => records stays result.2 result.1
  · exact holds false

/-- The functions `msm_read` and `msm_write` are done with the detector and
with shadow memory when the detector has answered. -/
theorem msm_after_detector {Q : Detector → Zsm (SVal Nat) → Prop}
    {svOld : SVal Nat} {a szB : Nat}
    (asks : ∀ tab, Satisfies (fun _ => True)
      (askDetector opts acc (s.1, s.2.withTab tab) svOld a)
      fun result => Q result.1.2.detector result.1.1) :
    Satisfies (fun _ => True) (msm opts acc s svOld a szB) fun result =>
      Q result.1.2.detector result.1.1 ∧
        (svOld ≠ .Invalid → result.2 ≠ .Invalid) ∧
        (acc.isWrite = true → result.2.isSpinVar = true →
          svOld.isSpinVar = true) := by
  apply (Satisfies.any _).bind
  intro tvid _
  apply (Satisfies.any _).bind
  intro tab _
  apply (asks tab).bind
  rintro ⟨asked, wasALock⟩ holds
  apply (Satisfies.any _).bind
  intro thread _
  dsimp only
  split
  · apply (writeBody_valid.and writeBody_isSpinVar).bind
    rintro result ⟨valid, kept⟩
    apply (Satisfies.any _).bind
    exact fun _ _ => ⟨holds, valid, fun _ => kept⟩
  · rename_i isRead
    apply readBody_valid.bind
    intro result valid
    apply (Satisfies.any _).bind
    exact fun _ _ => ⟨holds, valid, fun isWrite => absurd isWrite isRead⟩

variable (opts acc) in
theorem msm_keeps_owned : Keeps Core.rcSVal (msm opts acc) (·.1.Owned) := by
  apply keeps_owned
  intro s sv a szB owned
  have asks : ∀ tab, Satisfies (fun _ => True)
      (askDetector opts acc (s.1, s.2.withTab tab) sv a)
      fun result => result.1.1.Owned := fun tab =>
    @askDetector_keeps opts acc (s.1, s.2.withTab tab) (fun _ => True)
      (fun _ _ => trivial) (fun _ _ memory => memory.zsm.Owned) sv a
      (fun _ => owned) (fun _ _ _ => owned)
      (fun _ _ _ _ _ _ ivu _ => ⟨owned, fun adr _ =>
        (rewrite_owned adr).roundRule opts.flags acc.run ivu⟩)
  exact (@msm_after_detector opts acc s (fun _ z => z.Owned) sv a szB
    asks).mono fun _ kept => kept.1

end Machine
end Ukas
end HelgrindPlus
