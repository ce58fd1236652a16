import HelgrindPlus.Msm.MachineRuns
import HelgrindPlus.Msm.UkasClocks

/-!
# The counts of the short hybrid machine

The counts are those of the references as long as no access goes on with a
clock that is not that of its thread any more.  A write that leaves a loop may
write another variable before it is finished, and if that is a spin variable,
the clock of the thread moves.
-/

namespace HelgrindPlus

open Outcome VtsTab

namespace Ukas

/-- Before the access comes to `n`, the variable `c` is known not to be a lock,
or it may have been written again. -/
def Machine.Doubts (s : Machine) (flags : Flags) (acc : MemAccess)
    (a len n c : Nat) : Prop :=
  (s.2.detector.spinLock c).any (·.notALock) = true ∨
    ∃ b < n, ∃ adr, s.Rewrites flags acc a len b adr ∧
      adr ≤ c ∧ c < adr + 4

/-- While an access of `len` bytes leaves a loop at the spin variable `b`, the
variable `adr` may be written again.  It displaces the line of `b`, or it is a
spin variable too, and the access may move the clock of its thread. -/
structure Machine.Miscounts (s : Machine) (flags : Flags) (acc : MemAccess)
    (a len b adr : Nat) : Prop
    extends s.Rewrites flags acc a len b adr where
  collides : Displaces b adr ∨
    HasSpinVar s.1 adr ∧ s.Doubts flags acc a len b b

def Op.Miscounts (opts : Options) (s : Machine) : Op → Prop
  | .apply acc width a => opts.detectMutex = true ∧
      ∃ b adr, s.Miscounts opts.flags acc a width.bytes b adr
  | .applyRange acc a len => opts.detectMutex = true ∧
      ∃ b adr, s.Miscounts opts.flags acc a len b adr
  | .hb _ | .lock _ | .rangeNew .. | .rangeNoaccess .. | .copyRange ..
  | .onExitSpinLoop .. | .exitThread _ | .maybeGC _ => False

/-- The access may leave a loop before it is finished. -/
def Op.comesBack (opts : Options) : Op → Bool
  | .apply acc .. | .applyRange acc .. => opts.detectMutex && acc.leavesLoop
  | .hb _ | .lock _ | .rangeNew .. | .rangeNoaccess .. | .copyRange ..
  | .onExitSpinLoop .. | .exitThread _ | .maybeGC _ => false

theorem Op.not_miscounts {opts : Options} {op : Op}
    (stays : op.comesBack opts = false) (s : Machine) :
    ¬ op.Miscounts opts s := by
  cases op with
  | apply acc width a | applyRange acc a len =>
      rintro ⟨detects, b, adr, miscounts⟩
      simp [comesBack, detects, miscounts.leaves] at stays
  | hb | lock | rangeNew | rangeNoaccess | copyRange | onExitSpinLoop
  | exitThread | maybeGC => exact id

namespace Machine

variable {opts : Options} {flags : Flags} {acc : MemAccess}
  {start s : Machine} {a b len : Nat} {cl₀ : CacheLine (SVal Nat)}
  {hb₀ : UkaHb} {abs₀ : AbsUka} {vid : Nat} {svOld : SVal Nat}

/-- What has become known before the access comes to `n`. -/
def Doubted (start : Machine) (flags : Flags) (acc : MemAccess)
    (a len n : Nat) (d : Detector) : Prop :=
  acc.leavesLoop = true → ∀ c,
    (d.spinLock c).any (·.notALock) = true → start.Doubts flags acc a len n c

theorem Doubted.mono {m n : Nat} {d : Detector}
    (doubted : Doubted start flags acc a len m d) (le : m ≤ n) :
    Doubted start flags acc a len n d := by
  intro leaves c known
  apply (doubted leaves c known).imp_right
  intro rewritten
  obtain ⟨b, before, rest⟩ := rewritten
  exact ⟨b, by omega, rest⟩

/-- The access may go on when the detector has answered: the threads have
their clocks as before, or its own clock will not move. -/
structure Answering (start : Machine) (flags : Flags) (acc : MemAccess)
    (a len b : Nat) (cl₀ : CacheLine (SVal Nat)) (hb₀ : UkaHb) (abs₀ : AbsUka)
    (vid : Nat) (svOld : SVal Nat) (wasALock : Bool) (d : Detector)
    (memory : Memory) : Prop where
  covered : Covered start acc a b cl₀ d memory.zsm
  doubted : Doubted start flags acc a len (b + 1) d
  sound : SoundFrom (vid ::ₘ 0) hb₀ abs₀ memory.zsm memory.hb
  own : memory.hb.thrs = hb₀.thrs ∨
    acc.isWrite = true ∧ svOld.isSpinVar = true ∧ wasALock = true

private theorem answering_roundRule {ivu : IntervalUnion} {adr : Nat}
    {wasALock : Bool} (leaves : acc.leavesLoop = true)
    (isSpinVar : svOld.isSpinVar = true)
    (again : ∀ d z lk, Covered start acc a b cl₀ d z →
      d.spinLock adr = some lk →
      lk.MayInvalidate flags acc.run.tid ivu.ptr →
      start.Rewrites flags acc a len b adr)
    (calm : start.Rewrites flags acc a len b adr → ¬ Displaces b adr ∧
      (wasALock = false → ¬ HasSpinVar start.1 adr)) :
    SpinState.RoundRule Abort.Asserts flags rewrite acc.run ivu adr
      (Answering start flags acc a len b cl₀ hb₀ abs₀ vid svOld
        wasALock) := by
  have lines := covered_roundRule leaves fun d z lk covered found doubted =>
    (calm (again d z lk covered found doubted)).1
  constructor
  · intro d memory map lk answering isMap found doubted
    have recorded : d.spinLock adr = some lk := by
      rw [Detector.spinLock, isMap]
      exact found
    have rewrites := again d memory.zsm lk answering.covered recorded doubted
    have covers := lines.rewrites d memory map lk answering.covered isMap found
      doubted
    have sound := rewrite_sound adr acc.run
      (d.setSpinLock map adr lk.invalidated) memory answering.sound
    have left := rewrite_leaves answering.covered.wf
      (answering.covered.spin leaves) acc.run
      (d.setSpinLock map adr lk.invalidated) adr
    apply ((sound.and covers).and left).mono
    rintro after ⟨⟨sound, covered⟩, left⟩
    refine ⟨covered, fun leaves c known => ?_, sound, ?_⟩
    · by_cases inside : adr ≤ c ∧ c < adr + 4
      · exact .inr ⟨b, Nat.lt_succ_self b, adr, rewrites, inside⟩
      · apply answering.doubted leaves c
        rw [left.records c (by omega), Detector.setSpinLock,
          Detector.spinLock, Option.bind_some,
          AList.lookup_insert_ne (by omega)] at known
        rw [Detector.spinLock, isMap]
        exact known
    · cases wasALock with
      | true => exact .inr ⟨isWrite_of_leavesLoop leaves, isSpinVar, rfl⟩
      | false =>
          left
          apply (left.thrs ((calm rewrites).2 rfl)).trans
          exact answering.own.resolve_right fun own =>
            Bool.false_ne_true own.2.2
  · intro d memory map lk locks errors lk' answering isMap found sp cleared
      same held
    refine ⟨lines.clears d memory map lk locks errors lk' answering.covered
      isMap found sp cleared same held, fun leaves c known => ?_,
      answering.sound, answering.own⟩
    apply answering.doubted leaves c
    rw [Detector.spinLock, Option.bind_some] at known
    rw [Detector.spinLock, isMap, Option.bind_some]
    by_cases here : c = adr
    · rw [here, AList.lookup_insert, Option.any_some, same] at known
      rw [here, found]
      exact known
    · rwa [AList.lookup_insert_ne here] at known

/-- The detector answers for the node at `b`. -/
private theorem Intact.answers (intact : Intact start acc a b s)
    (doubted : Doubted start opts.flags acc a len b s.2.detector)
    (last : b < a + len)
    (calm : opts.detectMutex = true →
      ∀ b adr, ¬ start.Miscounts opts.flags acc a len b adr)
    (covers : s.1.Covers b cl₀)
    (inv : Inv (vid ::ₘ 0) s.1 s.2.hb abs₀) :
    Satisfies Abort.Asserts (Machine.askDetector opts acc s (s.1.byte b) b)
      fun result => Answering start opts.flags acc a len b cl₀ s.2.hb abs₀ vid
        (s.1.byte b) result.2 result.1.2.detector result.1.toSpin.memory := by
  have covered := intact.covered covers
  have sound : SoundFrom (vid ::ₘ 0) s.2.hb abs₀ s.1 s.2.hb :=
    ⟨abs₀, inv, fun _ _ => id, fun _ => id⟩
  refine @askDetector_keeps opts acc s Abort.Asserts (fun _ => id)
    (Answering start opts.flags acc a len b cl₀ s.2.hb abs₀ vid (s.1.byte b))
    (s.1.byte b) b
    (fun _ => ⟨covered, doubted.mono b.le_succ, sound, .inl rfl⟩) ?_ ?_
  · intro stays _ d
    have never : acc.leavesLoop = true → False := by simp [stays]
    exact ⟨⟨covered.wf, covered.covers, fun leaves => (never leaves).elim,
      fun leaves => (never leaves).elim, fun leaves => (never leaves).elim⟩,
      fun leaves => (never leaves).elim, sound, .inl rfl⟩
  · intro detects leaves isSpinVar d isALock destination ivu wrote
    obtain ⟨covered', rewrites⟩ :=
      intact.acquires covers leaves last isSpinVar wrote
    obtain ⟨_, _, _, acquired⟩ := spinWrite_of_leavesLoop leaves wrote
    have doubted' : Doubted start opts.flags acc a len b d := by
      intro _ c known
      apply doubted leaves c
      by_cases here : c = b
      · exact here ▸ acquired.notALock (here ▸ known)
      · rwa [Detector.spinWrite_others wrote here] at known
    refine ⟨⟨covered', doubted'.mono b.le_succ, sound, .inl rfl⟩,
      fun adr member => answering_roundRule leaves isSpinVar
        (rewrites adr member) fun again => ⟨fun displaces => ?_,
          fun refused hasSpinVar => ?_⟩⟩
    · exact calm detects b adr ⟨again, .inl displaces⟩
    · exact calm detects b adr ⟨again, .inr ⟨hasSpinVar,
        doubted leaves b (acquired.isALock refused)⟩⟩

private theorem writeBody_of_isALock {tab : VtsTab} {access : Access}
    (isSpinVar : svOld.isSpinVar = true) (isALock : access.wasALock = true) :
    writeBody tab svOld vid access = .ok (tab, .stay svOld) := by
  cases svOld with
  | SpinVar vts => simp [writeBody, SVal.isSpinVar, isALock]
  | _ => cases isSpinVar

/-- The machine function at `b`, up to the point where the new value is
written. -/
private theorem Intact.calls (intact : Intact start acc a b s)
    (doubted : Doubted start opts.flags acc a len b s.2.detector)
    (last : b < a + len)
    (calm : opts.detectMutex = true →
      ∀ b adr, ¬ start.Miscounts opts.flags acc a len b adr)
    (covers : s.1.Covers b cl₀) (inv : Inv 0 s.1 s.2.hb abs₀) (szB : Nat) :
    Satisfies Abort.Asserts (msm opts acc s (s.1.byte b) b szB) fun result =>
      Covered start acc a b cl₀ result.1.2.detector result.1.1 ∧
      Doubted start opts.flags acc a len (b + 1) result.1.2.detector ∧
        ∃ busy hb abs abs', Inv busy result.1.1 hb abs ∧
          Called 0 result.1.1 hb abs result.1.2.hb result.2 abs' := by
  apply (getThr_bound s.2.hb acc.run.tid).bind
  intro vid bound
  apply (inv.begins bound).satisfies.bind
  intro tab begun
  obtain ⟨inv', -⟩ := begun
  have intact' : Intact start acc a b (s.1, s.2.withTab tab) :=
    intact.moved (.refl intact.wf) rfl
  apply (intact'.answers doubted last calm covers inv').bind
  intro answered answering
  obtain ⟨⟨z, core⟩, wasALock⟩ := answered
  apply (core.detector.locks.getThread_asserts acc.run.tid).bind
  intro thread _
  obtain ⟨abs, inv₁, grown, threads⟩ := answering.sound
  have known : Known core.hb.tab abs (s.1.byte b) :=
    (inv'.bytes b).mono grown threads
  have still : core.hb.thrs = s.2.hb.thrs →
      core.hb.thrs.lookup acc.run.tid = some vid := fun same => same ▸ bound
  dsimp only
  split
  · rcases answering.own with same | ⟨-, isSpinVar, isALock⟩
    · obtain ⟨value, denotes, mentioned⟩ := known
      obtain ⟨clock, atThr, mine⟩ := inv₁.clockOf (still same)
      apply (writeBody_returns _ (inv₁.counted_twice (still same)) mine
        denotes).satisfies.bind
      intro result body
      apply (inv₁.finishes atThr (still same) mentioned body.grown
        body.counted body.moved body.svNew rfl
        absWrite_clockStep).satisfies.bind
      intro tab' finished
      obtain ⟨abs', called⟩ := finished
      exact ⟨answering.covered, answering.doubted, _, _, _, abs', inv₁,
        called⟩
    · -- the clock of the thread may have moved, and stays where it is
      have stays := @writeBody_of_isALock vid _ core.hb.tab
        (acc.access thread wasALock) isSpinVar isALock
      rw [stays, ok_bind]
      apply inv₁.ends.satisfies.bind
      intro tab' ended
      exact ⟨answering.covered, answering.doubted, _, _, _, abs, inv₁,
        ended.1.refines, ended.2, known.mono ended.2 fun _ => id, fun _ => id⟩
  · rename_i isRead
    have same := answering.own.resolve_right fun own => isRead own.1
    obtain ⟨value, denotes, mentioned⟩ := known
    obtain ⟨clock, atThr, mine⟩ := inv₁.clockOf (still same)
    apply (readBody_returns _ (inv₁.counted_twice (still same)) mine
      denotes).satisfies.bind
    intro result body
    apply (inv₁.finishes atThr (still same) mentioned body.grown body.counted
      body.moved body.svNew rfl absRead_clockStep).satisfies.bind
    intro tab' finished
    obtain ⟨abs', called⟩ := finished
    exact ⟨answering.covered, answering.doubted, _, _, _, abs', inv₁, called⟩

/-- The machine's invariant. -/
def Holds (s : Machine) : Prop := ∃ abs, Inv 0 s.1 s.2.hb abs

/-- The machine goes from node to node and counts its references. -/
theorem counts_rule (calm : opts.detectMutex = true →
      ∀ b adr, ¬ start.Miscounts opts.flags acc a len b adr) :
    NodeRule Core.rcSVal (msm opts acc) Abort.Asserts (a + len)
      (fun b s => Intact start acc a b s ∧
        Doubted start opts.flags acc a len b s.2.detector ∧ Holds s) := by
  have lines : NodeRule Core.rcSVal (msm opts acc) (fun _ => True) (a + len)
      (Intact start acc a) :=
    msm_rule fun detects b adr spoils => calm detects b adr
      ⟨spoils.toRewrites, .inl spoils.displaces⟩
  constructor
  · exact fun b s holds => holds.1.wf
  · intro b s bounded holds
    obtain ⟨intact, doubted, abs, inv⟩ := holds
    apply (Zsm.getCacheline_returns intact.wf b).satisfies.bind
    intro fetched moved
    apply ((inv.moved Core.rcSVal_follows moved.1).satisfies.and
      (counts_detector s.2 fetched.2)).bind
    intro core counted
    obtain ⟨⟨inv', -⟩, same⟩ := counted
    exact ⟨⟨intact.moved moved.1 same, same ▸ doubted, abs, inv'⟩, moved.2⟩
  · intro b z core cl width node holds resident pulled
    obtain ⟨intact, doubted, abs, inv⟩ := holds
    refine ⟨lines.pulled b z core cl width node intact resident pulled,
      doubted, abs, ?_⟩
    have moved := Zsm.putTree_moved intact.wf resident pulled
    obtain ⟨core', same, inv', -⟩ := inv.moved Core.rcSVal_follows moved
    cases same
    exact inv'
  · intro b s width kind inside bounded holds node
    obtain ⟨intact, doubted, abs, inv⟩ := holds
    have positive : 0 < width := by
      simp only [List.mem_cons, List.not_mem_nil, or_false] at kind
      omega
    unfold applyNode
    rw [node.svalAt, ok_bind]
    have found := node
    obtain ⟨cl₀, resident, isNode⟩ := found
    have covers : s.1.Covers b cl₀ := ⟨cl₀, resident, fun _ _ value => value⟩
    have kept := @msm_after_detector opts acc s (fun _ _ => True)
      (s.1.byte b) b width fun tab => (Satisfies.any _).mono fun _ _ => trivial
    apply ((intact.calls doubted (by omega) calm covers inv width).and
      kept).bind
    rintro result ⟨⟨covered, doubted', busy, hb, abs₁, abs', inv₁, called⟩, -, -,
      kept⟩
    apply (intact.assign node inside positive resident isNode covered
      called.value.valid kept).satisfies.bind
    intro after assigned
    obtain ⟨⟨width', wrote⟩, intact'⟩ := assigned
    exact ⟨intact', doubted'.mono (by omega), abs',
      inv₁.called called wrote⟩

/-- A collection succeeds, and the clocks are the same after it. -/
theorem maybeGC_returns {abs : AbsUka} (inv : Inv 0 s.1 s.2.hb abs)
    (due : Bool) :
    Returns (s.maybeGC due) fun after =>
      Inv 0 after.1 after.2.hb abs ∧
        BytesKept after.1 s.2.hb.tab after.2.hb.tab := by
  have stays : BytesKept s.1 s.2.hb.tab s.2.hb.tab :=
    fun _ _ _ _ known => known
  unfold maybeGC
  split
  · exact Returns.ok ⟨inv, stays⟩
  rename_i noneFree
  split
  · exact Returns.ok ⟨inv, stays⟩
  unfold doGC
  rw [tlAssert_of (not_not.mp noneFree), ok_bind]
  have start : Inv 0 s.1
      (s.2.withTab s.2.hb.tab.invalidateCaches).hb abs :=
    inv.invalidateCaches
  apply (start.flush Core.rcSVal_follows).bind
  intro after flushed
  obtain ⟨inv', empty, same⟩ := flushed
  apply (inv'.collect empty (congrFun same.orderings)
    (congrFun same.joins)).bind
  intro tab collected
  obtain ⟨inv'', kept⟩ := collected
  have keptToo : BytesKept after.1 s.2.hb.tab tab := by
    intro c ii vts tells known
    apply kept c ii vts tells
    rw [same.clock]
    exact known
  exact Returns.pure ⟨inv'', keptToo⟩

private theorem maybeGC_holds (holds : s.Holds) (due : Bool) :
    Satisfies Abort.Asserts (s.maybeGC due) Holds := by
  obtain ⟨abs, inv⟩ := holds
  apply (maybeGC_returns inv due).satisfies.mono
  exact fun _ returned => ⟨abs, returned.1⟩

private theorem absPerform_asserts (abs : AbsUka) (op : HbOp) :
    Asserts (abs.perform op) := by
  have thr : ∀ thr, Asserts (abs.getThr thr) := by
    intro thr
    unfold AbsUka.getThr
    split
    · trivial
    · exact .inr rfl
  have so : ∀ so, Asserts (abs.getSO so) := by
    intro so
    unfold AbsUka.getSO
    split
    · trivial
    · exact .inl rfl
  have zalloc : ∀ addr, Asserts (abs.zalloc addr) := by
    intro addr
    unfold AbsUka.zalloc
    split
    · trivial
    · exact .inr rfl
  cases op with
  | sync op =>
      cases op with
      | create parent child =>
          apply (thr parent).bind
          intro _ _
          apply (zalloc child).bind
          exact fun _ _ => trivial
      | soAlloc me object =>
          apply (thr me).bind
          intro _ _
          apply (zalloc object).bind
          exact fun _ _ => trivial
      | soDealloc me object | soSend me object | soRecv me object =>
          apply (thr me).bind
          intro _ _
          apply (so object).bind
          exact fun _ _ => trivial
  | soJoin own other =>
      apply (so own).bind
      intro _ _
      apply (so other).bind
      intro contents _
      split
      · exact .inl rfl
      · trivial
  | soExtract me object =>
      apply (zalloc object).bind
      intro _ _
      apply (thr me).bind
      exact fun _ _ => trivial
  | soEverSent object =>
      simp only [AbsUka.perform]
      split
      · trivial
      · exact .inr rfl

/-- What an operation of `libhb.h` keeps. -/
private theorem hbOp_holds (holds : s.Holds) (op : HbOp) :
    Satisfies Abort.Asserts (s.perform opts (.hb op)) Holds := by
  obtain ⟨abs, inv⟩ := holds
  have agrees := UkaHb.perform_agrees inv.refines op
  have performed : Satisfies Abort.Asserts (s.2.hb.perform op) fun hb =>
      ∃ abs', Inv 0 s.1 hb abs' := by
    have stops := absPerform_asserts abs op
    cases expected : abs.perform op with
    | error abort =>
        rw [expected] at agrees stops
        have failed : s.2.hb.perform op = .error abort := agrees
        rw [failed]
        exact stops
    | ok abs' =>
        rw [expected] at agrees
        obtain ⟨hb, done, refines, grown⟩ := agrees
        rw [done]
        refine ⟨abs', inv.wf, refines, fun c => ?_⟩
        exact (inv.bytes c).mono grown fun idx =>
          AbsUka.thrs_of_perform expected
  apply performed.bind
  exact fun hb sound => sound

private theorem perform_holds (holds : s.Holds) {op : Op}
    (calm : ¬ op.Miscounts opts s) :
    Satisfies Abort.Asserts (s.perform opts op) Holds := by
  have done : ∀ {abs : AbsUka} {computation : Except Abort Machine},
      Satisfies Abort.Asserts computation
        (fun after => Inv 0 after.1 after.2.hb abs) →
      Satisfies Abort.Asserts computation Holds :=
    fun kept => kept.mono fun _ inv => ⟨_, inv⟩
  have begins : ∀ acc a len, Intact s acc a a s ∧
      Doubted s opts.flags acc a len a s.2.detector ∧ s.Holds := by
    intro acc a len
    obtain ⟨abs, inv⟩ := holds
    exact ⟨Intact.refl inv.wf, fun _ c known => .inl known, abs, inv⟩
  cases op with
  | hb op => exact hbOp_holds holds op
  | lock event =>
      apply (s.2.detector.locks.handle_asserts event).bind
      exact fun _ _ => holds
  | exitThread quitTid =>
      apply (s.2.detector.exitThread_asserts quitTid).bind
      exact fun _ _ => holds
  | apply acc width a =>
      have rule := counts_rule fun detects b adr miscounts =>
        calm ⟨detects, b, adr, miscounts⟩
      exact (rule.applyWidths width a s (le_refl _) (begins acc a _)).mono
        fun _ counted => counted.2.2
  | applyRange acc a len =>
      have rule := counts_rule fun detects b adr miscounts =>
        calm ⟨detects, b, adr, miscounts⟩
      exact (rule.applyRange (begins acc a len)).mono
        fun _ counted => counted.2.2
  | rangeNew a szB =>
      obtain ⟨abs, inv⟩ := holds
      have known : ∀ tab, Known tab abs .New :=
        fun tab => ⟨.New, .New, nofun⟩
      exact done (inv.setRange Core.rcSVal_follows known a szB).satisfies
  | rangeNoaccess a szB =>
      obtain ⟨abs, inv⟩ := holds
      have known : ∀ tab, Known tab abs .NoAccess :=
        fun tab => ⟨.NoAccess, .NoAccess, nofun⟩
      exact done (inv.setRange Core.rcSVal_follows known a szB).satisfies
  | copyRange src dst len =>
      obtain ⟨abs, inv⟩ := holds
      exact done (inv.copyRange Core.rcSVal_follows src dst len)
  | onExitSpinLoop run destination ivu walk =>
      obtain ⟨abs, inv⟩ := holds
      have sound : SoundFrom 0 s.2.hb abs s.1 s.2.hb :=
        ⟨abs, inv, fun _ _ => id, fun _ => id⟩
      have left := @SpinState.onExitSpinLoop_keeps _ opts.flags rewrite run
        ivu walk s.toSpin Abort.Asserts _ (fun _ => id) (fun adr _ =>
          (rewrite_sound adr).roundRule opts.flags run ivu) sound destination
      apply left.bind
      intro spin sound
      obtain ⟨abs', inv', -⟩ := sound
      exact ⟨abs', inv'⟩
  | maybeGC due => exact maybeGC_holds holds due

/-- The counts are those of the references from threads, objects and lines,
and there is no line left in the cache. -/
structure CountsExact (s : Machine) : Prop where
  flushed : ∀ wix, s.1.cache.lookup wix = none
  counts : ∀ ii te, s.2.hb.tab.vtsTab[ii]? = some te →
    te.rc = (s.2.hb.refs + svalRefs s.1.store.vals).count ii

theorem Holds.flush (holds : s.Holds) : Returns s.flushCache CountsExact := by
  obtain ⟨abs, inv⟩ := holds
  apply (inv.flush Core.rcSVal_follows).mono
  intro after flushed
  obtain ⟨inv', empty, -⟩ := flushed
  have counts := inv'.refines.counted.counts
  rw [zero_add] at counts
  exact ⟨empty, counts⟩

/-- A run of which no access writes another variable at a bad moment. -/
theorem run_holds {root : Nat} {locks : LockTab} {ops : List Op}
    (calm : ∀ n s op, run opts root locks (ops.take n) = .ok s →
      ops[n]? = some op → ¬ op.Miscounts opts s) :
    Satisfies Abort.Asserts (run opts root locks ops) Holds := by
  have started : Satisfies Abort.Asserts (init root locks) Holds := by
    apply (UkaHb.Refines.init root).satisfies.bind
    intro hb refines
    refine ⟨_, Zsm.init_wf, refines, fun c => ?_⟩
    exact ⟨.NoAccess, .NoAccess, nofun⟩
  cases begun : init root locks with
  | error abort =>
      rw [begun] at started
      unfold run
      rw [begun]
      exact started
  | ok start =>
      rw [begun] at started
      have ranTo : ∀ ops, run opts root locks ops =
          ops.foldlM (perform opts) start := by
        intro ops
        unfold run
        rw [begun, ok_bind]
      have kept := @Satisfies.foldlM_take _ _ _ Abort.Asserts (perform opts)
        Holds ops start (fun n s op reached atN holds =>
          perform_holds holds (calm n s op ((ranTo _).trans reached) atN))
        started ops.length
      rw [List.take_length, ← ranTo] at kept
      exact kept

private theorem calm_of_stay {root : Nat} {locks : LockTab} {ops : List Op}
    (stay : ∀ op ∈ ops, op.comesBack opts = false) (n : Nat) (s : Machine)
    (op : Op) (_ : run opts root locks (ops.take n) = .ok s)
    (atN : ops[n]? = some op) : ¬ op.Miscounts opts s :=
  Op.not_miscounts (stay op (List.mem_of_getElem? atN)) s

/-- In a run without the detector, or of which no access leaves a loop before
it is finished, the counts of the table are those of the references when the
cache is flushed: by threads, objects and stored values, spin variables
among them. -/
theorem spin_counts_exact {opts : Options} {ops : List Op}
    (stay : ∀ op ∈ ops, op.comesBack opts = false) (root : Nat)
    (locks : LockTab) :
    Satisfies (fun _ => True) (run opts root locks ops) fun s =>
      Returns s.flushCache CountsExact := by
  apply ((run_holds (calm_of_stay stay)).failing fun _ _ => trivial).mono
  exact fun s holds => holds.flush

theorem spin_counts_exact_contended : ∃ s,
    run ⟨true, ⟨false, false⟩⟩ 1 (.init [1, 2] 0 5) contended = .ok s ∧
      Returns s.flushCache CountsExact := by
  have seen : ((run ⟨true, ⟨false, false⟩⟩ 1 (.init [1, 2] 0 5)
      contended).toOption.map fun _ => ()) = some () := by
    decide +kernel
  obtain ⟨s, ran, -⟩ := exists_ok_of_map seen
  have exact : ∀ ops, (∀ op ∈ ops,
      op.comesBack ⟨true, ⟨false, false⟩⟩ = false) → ∀ s,
      run ⟨true, ⟨false, false⟩⟩ 1 (.init [1, 2] 0 5) ops = .ok s →
        Returns s.flushCache CountsExact :=
    fun _ stay _ ran => (spin_counts_exact stay 1 _).of_eq_ok ran
  exact ⟨s, ran, exact contended (by decide) s ran⟩

end Machine

namespace Core

/-- Everything but the table is the same. -/
def SameButTab (start core : Core) : Prop :=
  core = start.withTab core.hb.tab

theorem rcSVal_sameButTab {start core : Core}
    (same : start.SameButTab core) (event : RcEvent (SVal Nat)) :
    Satisfies (fun _ => True) (core.rcSVal event) start.SameButTab := by
  apply (SpinCore.rcSVal_tab core.toSpinCore event).bind
  intro spin counted
  obtain ⟨tab, rfl⟩ := counted
  unfold SameButTab at same ⊢
  rw [same]
  rfl

end Core

namespace Machine

variable {s : Machine}

theorem flushCache_leaves (wf : s.1.WF) :
    Satisfies (fun _ => True) s.flushCache fun after =>
      s.2.SameButTab after.2 ∧ ∀ c, after.1.byte c = s.1.byte c :=
  counting_flushCache_leaves
    (fun _ event same => Core.rcSVal_sameButTab same event) wf rfl

theorem maybeGC_leaves (wf : s.1.WF) (due : Bool) :
    Satisfies (fun _ => True) (s.maybeGC due) fun after =>
      s.2.SameButTab after.2 ∧ ∀ c, after.1.byte c = s.1.byte c := by
  unfold maybeGC
  split
  · exact ⟨rfl, fun _ => rfl⟩
  split
  · exact ⟨rfl, fun _ => rfl⟩
  apply (Satisfies.any _).bind
  intro _ _
  have flushed := @flushCache_leaves
    (s.1, s.2.withTab s.2.hb.tab.invalidateCaches) wf
  apply flushed.bind
  intro after left
  obtain ⟨same, bytes⟩ := left
  apply (Satisfies.any _).bind
  intro tab _
  refine ⟨?_, bytes⟩
  unfold Core.SameButTab at same ⊢
  dsimp only
  rw [same]
  rfl

/-- The ids held by threads, by objects and by the bytes of memory. -/
inductive HoldsId (s : Machine) (ii : Nat) : Prop where
  | thr {thr : Nat} (bound : s.2.hb.thrs.lookup thr = some ii)
  | so {so : Nat} (bound : s.2.hb.sos.lookup so = some (some ii))
  | byte {c : Nat} (tells : (s.1.byte c).getVTS = some ii)

/-- What a collection leaves alone. -/
structure Collected (s after : Machine) : Prop where
  core : s.2.SameButTab after.2
  bytes : ∀ c, after.1.byte c = s.1.byte c
  clocks : ∀ ii, s.HoldsId ii → ∃ vts, s.2.hb.tab.clock ii = some vts ∧
    after.2.hb.tab.clock ii = some vts

private theorem collected_of_invs {after : Machine} {abs : AbsUka}
    (inv : Inv 0 s.1 s.2.hb abs) (inv' : Inv 0 after.1 after.2.hb abs)
    (core : s.2.SameButTab after.2)
    (bytes : ∀ c, after.1.byte c = s.1.byte c)
    (kept : BytesKept after.1 s.2.hb.tab after.2.hb.tab) :
    s.Collected after := by
  refine ⟨core, bytes, fun ii holds => ?_⟩
  have thrs : after.2.hb.thrs = s.2.hb.thrs := by
    rw [core]
    rfl
  have sos : after.2.hb.sos = s.2.hb.sos := by
    rw [core]
    rfl
  cases holds with
  | thr bound =>
      obtain ⟨clock, known, denotes⟩ := inv.refines.thrs.of_bound bound
      rw [← thrs] at bound
      obtain ⟨clock', known', denotes'⟩ := inv'.refines.thrs.of_bound bound
      rw [known, Option.some.injEq] at known'
      subst known'
      exact ⟨_, denotes, denotes'⟩
  | so bound =>
      obtain ⟨contents, known, denotes⟩ := inv.refines.sos.of_bound bound
      rw [← sos] at bound
      obtain ⟨contents', known', denotes'⟩ := inv'.refines.sos.of_bound bound
      rw [known, Option.some.injEq] at known'
      subst known'
      cases denotes with
      | holds clock =>
          cases denotes' with
          | holds clock' => exact ⟨_, clock, clock'⟩
  | @byte c tells =>
      obtain ⟨vts, clock⟩ := (inv.bytes c).inUse tells
      rw [← bytes c] at tells
      exact ⟨vts, clock, kept c ii vts tells clock⟩

/-- A collection at any point of such a run succeeds, and every id that is
held keeps its clock, also in a spin variable. -/
theorem spin_collection_keeps_ids {opts : Options} {ops : List Op}
    (stay : ∀ op ∈ ops, op.comesBack opts = false) (root : Nat)
    (locks : LockTab) (due : Bool) :
    Satisfies (fun _ => True) (run opts root locks ops) fun s =>
      Returns (s.maybeGC due) s.Collected := by
  apply ((run_holds (calm_of_stay stay)).failing fun _ _ => trivial).mono
  intro s holds
  obtain ⟨abs, inv⟩ := holds
  have leaves := maybeGC_leaves inv.wf due
  obtain ⟨after, collected, inv', kept⟩ := maybeGC_returns inv due
  obtain ⟨core, bytes⟩ := leaves.of_eq_ok collected
  exact ⟨after, collected, collected_of_invs inv inv' core bytes kept⟩

/-- The id 1 stands in a spin variable when the run ends. -/
theorem spin_collection_keeps_ids_contended : ∃ s,
    run ⟨true, ⟨false, false⟩⟩ 1 (.init [1, 2] 0 5) contended = .ok s ∧
      s.HoldsId 1 ∧ Returns (s.maybeGC true) s.Collected := by
  have seen : ((run ⟨true, ⟨false, false⟩⟩ 1 (.init [1, 2] 0 5)
      contended).toOption.map fun s => (s.1.byte 0x8449FFE).getVTS) =
      some (some 1) := by
    decide +kernel
  obtain ⟨s, ran, tells⟩ := exists_ok_of_map seen
  have kept : ∀ ops, (∀ op ∈ ops,
      op.comesBack ⟨true, ⟨false, false⟩⟩ = false) → ∀ s,
      run ⟨true, ⟨false, false⟩⟩ 1 (.init [1, 2] 0 5) ops = .ok s →
        Returns (s.maybeGC true) s.Collected :=
    fun _ stay _ ran => (spin_collection_keeps_ids stay 1 _ true).of_eq_ok ran
  exact ⟨s, ran, .byte tells, kept contended (by decide) s ran⟩

/-- Thread 1 has come to the lock in the loop that it then leaves. -/
def readsAgain (lock : Nat) : Op :=
  .apply ⟨⟨1, 105, true, some tryLock⟩, false, false, fun _ => visiting []⟩
    .w16 lock

/-- The variable that thread 1 waits for is known not to be a lock, because
thread 2 has written it outside a loop. -/
def collides : List Op :=
  locked 0x8449F00 ++ competes 0x8449F00 :: shared ++ [completes 0x8449F00]

/-- It is not, and thread 1 takes it for a lock. -/
def passes : List Op :=
  locked 0x8449F00 ++ competes 0x8449F00 :: readsAgain 0x8449F00 ::
    shared.take 1

end Machine
end Ukas

/-- A run of one of the two builds that count the references to timestamps. -/
inductive CountedRun where
  | default (root : Nat) (ops : List MachineOp)
  | ukas (opts : Ukas.Options) (root : Nat) (locks : LockTab)
      (ops : List Ukas.Op)

namespace CountedRun

/-- No access of the run may write another variable when it has read a clock
that it will still use. -/
def Calm : CountedRun → Prop
  | .default .. => True
  | .ukas opts root locks ops => ∀ n s op,
      Ukas.Machine.run opts root locks (ops.take n) = .ok s →
      ops[n]? = some op → ¬ op.Miscounts opts s

/-- The run does not stop because it takes away a reference that is not there
or touches an id that is not in use, and a flush at its end makes the counts
exact. -/
def CountsExact : CountedRun → Prop
  | .default root ops =>
      (∀ abort, Machine.run root ops = .error abort →
        AbsMachine.NotMiscounted abort) ∧
      ∀ s, Machine.run root ops = .ok s →
        Returns s.flushCache Machine.CountsExact
  | .ukas opts root locks ops =>
      (∀ abort, Ukas.Machine.run opts root locks ops = .error abort →
        AbsMachine.NotMiscounted abort) ∧
      ∀ s, Ukas.Machine.run opts root locks ops = .ok s →
        Returns s.flushCache Ukas.Machine.CountsExact

open Ukas Ukas.Machine

end CountedRun
end HelgrindPlus
