import HelgrindPlus.Msm.SpinLines

/-!
# Shadow lines of the short hybrid machine

The lines are as they should be as long as no write displaces the line that
its own access holds from the cache.
-/

namespace HelgrindPlus

open Outcome

namespace Ukas

/-- What the access writes when it leaves a loop at `b` may displace the line
of `b`. -/
def MemAccess.displacesAt (acc : MemAccess) (b : Nat) : Bool :=
  acc.leavesLoop && (acc.walk b).visits.any fun adr => decide (Displaces b adr)

def MemAccess.displaces (acc : MemAccess) (a len : Nat) : Bool :=
  (List.range len).any fun i => acc.displacesAt (a + i)

def Op.displaces (opts : Options) : Op → Bool
  | .apply acc width a => opts.detectMutex && acc.displaces a width.bytes
  | .applyRange acc a len => opts.detectMutex && acc.displaces a len
  | .hb _ | .lock _ | .rangeNew .. | .rangeNoaccess .. | .copyRange ..
  | .onExitSpinLoop .. | .exitThread _ | .maybeGC _ => false

theorem MemAccess.not_displaces {acc : MemAccess} {a len b : Nat}
    (stays : acc.displaces a len = false) (first : a ≤ b)
    (last : b < a + len) : acc.displacesAt b = false := by
  have all := List.any_eq_false.mp stays (b - a)
    (List.mem_range.mpr (by omega))
  have here : a + (b - a) = b := by omega
  rw [here] at all
  exact Bool.eq_false_iff.mpr all

/-- An access of `len` bytes leaves a loop at the spin variable `b`, and the
variable `adr` may then be written again. -/
structure Machine.Rewrites (s : Machine) (flags : Flags) (acc : MemAccess)
    (a len b adr : Nat) : Prop where
  leaves : acc.leavesLoop = true
  first : a ≤ b
  last : b < a + len
  isSpinVar : (s.1.byte b).isSpinVar = true
  visited : adr ∈ (acc.walk b).visits
  doubted : (a ≤ adr ∧ adr < a + len ∧ (flags.log = true ∨
      ∃ lk, s.2.detector.spinLock adr = some lk ∧
        lk.HeldByOther acc.run.tid)) ∨
    ∃ lk sp, s.2.detector.spinLock adr = some lk ∧
      (acc.run.lastSpinProperty = some sp ∨
        (s.2.detector.spinLock b).bind (·.sp) = some sp) ∧
      lk.MayInvalidate flags acc.run.tid sp.codeBlock.ptr

/-- This displaces the line of `b`. -/
structure Machine.Spoils (s : Machine) (flags : Flags) (acc : MemAccess)
    (a len b adr : Nat) : Prop
    extends s.Rewrites flags acc a len b adr where
  displaces : Displaces b adr

def Op.Spoils (opts : Options) (s : Machine) : Op → Prop
  | .apply acc width a => opts.detectMutex = true ∧
      ∃ b adr, s.Spoils opts.flags acc a width.bytes b adr
  | .applyRange acc a len => opts.detectMutex = true ∧
      ∃ b adr, s.Spoils opts.flags acc a len b adr
  | .hb _ | .lock _ | .rangeNew .. | .rangeNoaccess .. | .copyRange ..
  | .onExitSpinLoop .. | .exitThread _ | .maybeGC _ => False

theorem Op.not_spoils {opts : Options} {op : Op}
    (stays : op.displaces opts = false) (s : Machine) :
    ¬ op.Spoils opts s := by
  have never : ∀ acc a len, opts.detectMutex = true →
      (opts.detectMutex && acc.displaces a len) = false →
      ∀ b adr, ¬ s.Spoils opts.flags acc a len b adr := by
    intro acc a len detects stays b adr spoils
    rw [detects, Bool.true_and] at stays
    have here := MemAccess.not_displaces stays spoils.first spoils.last
    rw [MemAccess.displacesAt, spoils.leaves, Bool.true_and,
      List.any_eq_false] at here
    exact here adr spoils.visited (decide_eq_true spoils.displaces)
  cases op with
  | apply acc width a | applyRange acc a len =>
      rintro ⟨detects, b, adr, spoils⟩
      exact never acc a _ detects stays b adr spoils
  | hb | lock | rangeNew | rangeNoaccess | copyRange | onExitSpinLoop
  | exitThread | maybeGC => exact id

/-- The spin variables were spin variables before. -/
def SpinFrom (z₀ z : Zsm (SVal Nat)) : Prop :=
  ∀ c, (z.byte c).isSpinVar = true → (z₀.byte c).isSpinVar = true

/-- One of the four bytes from `adr` on is a spin variable. -/
def HasSpinVar (z : Zsm (SVal Nat)) (adr : Nat) : Prop :=
  ∃ i < 4, (z.byte (adr + i)).isSpinVar = true

/-- What is left alone when the variable `adr` is written again. -/
structure Rewritten (z₀ : Zsm (SVal Nat)) (adr : Nat)
    (before after : Detector × Memory) : Prop where
  wf : after.2.zsm.WF
  spin : SpinFrom z₀ after.2.zsm
  thrs : ¬ HasSpinVar z₀ adr → after.2.hb.thrs = before.2.hb.thrs
  records : ∀ c, c < adr ∨ adr + 4 ≤ c →
    after.1.spinLock c = before.1.spinLock c

private theorem msmSpinWrite_leaves (run : Running)
    (s : Zsm (SVal Nat) × SpinCore) (sv : SVal Nat) (a szB : Nat) :
    Satisfies (fun _ => True) (msmSpinWrite run s sv a szB) fun result =>
      (result.2.isSpinVar = true → sv.isSpinVar = true) ∧
      (sv.isSpinVar = false → result.1.2.hb.thrs = s.2.hb.thrs) ∧
      ∀ c ≠ a, result.1.2.detector.spinLock c = s.2.detector.spinLock c := by
  apply (Satisfies.any _).bind
  intro tvid _
  have asks : Satisfies (fun _ => True) (s.2.askDetector run sv a)
      fun asked => ∀ c ≠ a, asked.1.spinLock c = s.2.detector.spinLock c := by
    unfold SpinCore.askDetector
    split
    · unfold Detector.plainSpinWrite
      cases wrote : s.2.detector.spinWrite run false a with
      | error abort => trivial
      | ok result => exact fun c other => Detector.spinWrite_others wrote other
    · exact fun c _ => rfl
  apply asks.bind
  intro asked records
  apply (Satisfies.any _).bind
  intro thread _
  have wrote : ∀ tab acc, Satisfies (fun _ => True)
      (msmWrite tab sv tvid acc) fun result =>
        (result.2.svNew.isSpinVar = true → sv.isSpinVar = true) ∧
        (sv.isSpinVar = false → result.2.vid = none) := by
    intro tab acc
    apply (Satisfies.any _).bind
    intro _ _
    apply (writeBody_isSpinVar.and writeBody_vid).bind
    intro result kept
    apply (Satisfies.any _).bind
    exact fun _ _ => kept
  apply (wrote _ _).bind
  intro result kept
  refine ⟨kept.1, fun plain => ?_, records⟩
  dsimp only
  rw [kept.2 plain]
  rfl

/-- No spin variable comes about, and if the variable is not one itself, the
threads keep their clocks. -/
theorem rewrite_leaves {z₀ : Zsm (SVal Nat)} {memory : Memory}
    (wf : memory.zsm.WF) (spin : SpinFrom z₀ memory.zsm) (run : Running)
    (d : Detector) (adr : Nat) :
    Satisfies (fun _ => True) (rewrite run (d, memory) adr)
      (Rewritten z₀ adr (d, memory)) := by
  have rule : ApplyRule SpinCore.rcSVal (msmSpinWrite run) (fun _ => True)
      (adr + 4) (fun b s => adr ≤ b ∧ Rewritten z₀ adr (d, memory)
        (s.2.detector, ⟨s.1, s.2.hb, s.2.races⟩)) := {
    wf := fun _ _ holds => holds.2.wf
    moved := by
      intro b z r after events holds moved
      obtain ⟨from_, left⟩ := holds
      have counted : Satisfies (fun _ => True)
          (events.foldlM SpinCore.rcSVal r) fun r' =>
            r'.hb.thrs = r.hb.thrs ∧ r'.detector = r.detector := by
        refine @Satisfies.foldlM_kept _ _ _ _ _ (fun core : SpinCore =>
          core.hb.thrs = r.hb.thrs ∧ core.detector = r.detector) _ _ ?_
          ⟨rfl, rfl⟩
        intro core event _ same
        apply (core.rcSVal_tab event).mono
        rintro after ⟨tab, rfl⟩
        exact same
      apply counted.mono
      intro r' same
      refine ⟨from_, moved.wf, fun c isSpinVar => ?_, fun plain => ?_,
        fun c elsewhere => ?_⟩
      · exact left.spin c (moved.bytes c ▸ isSpinVar)
      · exact same.1.trans (left.thrs plain)
      · exact (congrArg (·.spinLock c) same.2).trans
          (left.records c elsewhere)
    called := by
      intro b szB z r kind bounded holds uniform
      obtain ⟨from_, left⟩ := holds
      have positive : 0 < szB := by
        simp only [List.mem_cons, List.not_mem_nil, or_false] at kind
        omega
      apply ((msmSpinWrite_leavesMemory run (z, r) (z.byte b) b szB).and
        (msmSpinWrite_leaves run (z, r) (z.byte b) b szB)).mono
      rintro result ⟨⟨same, valid⟩, spin', thrs, records⟩
      refine ⟨same, valid (left.wf.byte_ne_invalid b), fun after wrote =>
        ⟨by omega, wrote.wf, fun c isSpinVar => ?_, fun plain => ?_,
          fun c elsewhere => ?_⟩⟩
      · rw [wrote.bytes c] at isSpinVar
        split at isSpinVar
        · rename_i inside
          apply left.spin c
          dsimp only
          rw [uniform c inside.1 inside.2]
          exact spin' isSpinVar
        · exact left.spin c isSpinVar
      · refine (thrs ?_).trans (left.thrs plain)
        by_contra isSpinVar
        refine plain ⟨b - adr, by omega, ?_⟩
        rw [Nat.add_sub_cancel' from_]
        exact left.spin b (Bool.eq_true_of_not_eq_false isSpinVar)
      · exact (records c (by omega)).trans (left.records c elsewhere) }
  apply (applyWidths_satisfies rule .w32 adr
    (memory.zsm, ⟨memory.hb, memory.races, d⟩) (le_refl _)
    ⟨le_refl adr, wf, spin, fun _ => rfl, fun _ _ => rfl⟩).bind
  exact fun _ holds => holds.2

private theorem rewrite_since {run : Running}
    (empty : run.lastSpinProperty.any fun sp => sp.codeBlock.cntParts == 0)
    (d : Detector) (memory : Memory) (adr other : Nat) :
    Satisfies (fun _ => True) (rewrite run (d, memory) adr) fun after =>
      Detector.Since run.tid d after.1 other := by
  apply (rewrite_calledBack run d memory adr).mono
  rintro after ⟨accAddrs, called⟩
  have all : Satisfies (fun _ => True)
      (accAddrs.foldlM (Detector.callBack run) d)
      (Detector.Since run.tid d · other) := by
    refine @Satisfies.foldlM_kept _ _ _ _ _
      (Detector.Since run.tid d · other) _ _ ?_
      (Detector.Since.refl run.tid d other)
    intro d' accAddr _ since
    exact (Detector.callBack_since empty other).mono fun _ step =>
      since.trans step
  exact all.of_eq_ok called

namespace Machine

variable {opts : Options} {acc : MemAccess} {start s : Machine}
  {a b len : Nat} {cl₀ : CacheLine (SVal Nat)}

/-- The access has come to `b`. -/
structure Intact (start : Machine) (acc : MemAccess) (a b : Nat)
    (s : Machine) : Prop where
  first : a ≤ b
  wf : s.1.WF
  spin : acc.leavesLoop = true → SpinFrom start.1 s.1
  held : acc.leavesLoop = true → ∀ adr,
    Detector.HeldSince acc.run.tid start.2.detector s.2.detector adr
  since : acc.leavesLoop = true → ∀ adr, adr < a ∨ b ≤ adr →
    Detector.Since acc.run.tid start.2.detector s.2.detector adr

/-- The same while the detector answers, which may write the record of `b`
and leaves the line of `b` in the cache. -/
structure Covered (start : Machine) (acc : MemAccess) (a b : Nat)
    (cl₀ : CacheLine (SVal Nat)) (d : Detector) (z : Zsm (SVal Nat)) :
    Prop where
  wf : z.WF
  covers : z.Covers b cl₀
  spin : acc.leavesLoop = true → SpinFrom start.1 z
  held : acc.leavesLoop = true → ∀ adr,
    Detector.HeldSince acc.run.tid start.2.detector d adr
  since : acc.leavesLoop = true → ∀ adr, adr < a ∨ b < adr →
    Detector.Since acc.run.tid start.2.detector d adr

theorem Intact.covered (intact : Intact start acc a b s)
    (covers : s.1.Covers b cl₀) :
    Covered start acc a b cl₀ s.2.detector s.1 :=
  ⟨intact.wf, covers, intact.spin, intact.held, fun leaves adr apart =>
    intact.since leaves adr (apart.imp_right le_of_lt)⟩

/-- A record that may be invalidated in the loop that is left at `b`, when the
access has come there, could be so before the access. -/
theorem Covered.rewrites {d : Detector} {z : Zsm (SVal Nat)} {flags : Flags}
    {lk : SpinLock} {sp : SpinProperty} {adr : Nat}
    (covered : Covered start acc a b cl₀ d z) (leaves : acc.leavesLoop = true)
    (first : a ≤ b) (last : b < a + len)
    (isSpinVar : (start.1.byte b).isSpinVar = true)
    (visited : adr ∈ (acc.walk b).visits)
    (isLoop : acc.run.lastSpinProperty = some sp ∨
      (start.2.detector.spinLock b).bind (·.sp) = some sp)
    (found : d.spinLock adr = some lk)
    (doubted : lk.MayInvalidate flags acc.run.tid sp.codeBlock.ptr) :
    start.Rewrites flags acc a len b adr := by
  refine ⟨leaves, first, last, isSpinVar, visited, ?_⟩
  by_cases inside : a ≤ adr ∧ adr < a + len
  · refine .inl ⟨inside.1, inside.2, ?_⟩
    apply doubted.doubted.imp_right
    exact fun other => covered.held leaves adr lk found other.2
  · right
    obtain ⟨lk₀, found₀, step⟩ :=
      covered.since leaves adr (by omega) lk found
    exact ⟨lk₀, sp, found₀, isLoop, step.mayInvalidate doubted⟩

theorem covered_roundRule {flags : Flags} {ivu : IntervalUnion} {adr : Nat}
    (leaves : acc.leavesLoop = true)
    (apart : ∀ d z lk, Covered start acc a b cl₀ d z →
      d.spinLock adr = some lk →
      lk.MayInvalidate flags acc.run.tid ivu.ptr → ¬ Displaces b adr) :
    SpinState.RoundRule (fun _ => True) flags rewrite acc.run ivu adr
      (fun (d : Detector) (memory : Memory) =>
        Covered start acc a b cl₀ d memory.zsm) where
  rewrites d memory map lk covered isMap found doubted := by
    have recorded : d.spinLock adr = some lk := by
      rw [Detector.spinLock, isMap]
      exact found
    have stays := apart d memory.zsm lk covered recorded doubted
    have empty : acc.run.lastSpinProperty.any fun sp =>
        sp.codeBlock.cntParts == 0 := by
      simp only [MemAccess.leavesLoop, Bool.and_eq_true] at leaves
      exact leaves.2
    have cleared : SpinLock.Since acc.run.tid lk lk.invalidated :=
      .of_cleared rfl rfl id
    have kept := (rewrite_covers stays acc.run
      (d.setSpinLock map adr lk.invalidated) memory
      ⟨covered.wf, covered.covers⟩).and
      (rewrite_leaves covered.wf (covered.spin leaves) acc.run
        (d.setSpinLock map adr lk.invalidated) adr)
    have since : ∀ other, Satisfies (fun _ => True) (rewrite acc.run
        (d.setSpinLock map adr lk.invalidated, memory) adr) fun after =>
          Detector.Since acc.run.tid d after.1 other := fun other =>
      (rewrite_since empty _ memory adr other).mono fun _ step =>
        (Detector.Since.insert isMap found cleared rfl other).trans step
    cases wrote : rewrite acc.run
        (d.setSpinLock map adr lk.invalidated, memory) adr with
    | error abort => trivial
    | ok after =>
        obtain ⟨⟨-, covers⟩, left⟩ := kept.of_eq_ok wrote
        have step : ∀ other,
            Detector.Since acc.run.tid d after.1 other := fun other =>
          (since other).of_eq_ok wrote
        exact ⟨left.wf, covers, fun _ => left.spin, fun leaves other =>
          (covered.held leaves other).trans (step other).heldSince,
          fun leaves other elsewhere =>
            (covered.since leaves other elsewhere).trans (step other)⟩
  clears d memory map lk locks errors lk' covered isMap found same cleared _
      held := by
    have step : ∀ other, Detector.Since acc.run.tid d
        ⟨locks, some (map.insert adr lk'), errors⟩ other :=
      Detector.Since.insert isMap found (.of_cleared same cleared held) rfl
    exact ⟨covered.wf, covered.covers, covered.spin, fun leaves other =>
      (covered.held leaves other).trans (step other).heldSince,
      fun leaves other elsewhere =>
        (covered.since leaves other elsewhere).trans (step other)⟩

/-- The detector has been asked at `b`, and takes the write for an
acquisition: what it goes through then are records that it could go through
before the access. -/
theorem Intact.acquires {d : Detector} {isALock : Bool} {destination : Nat}
    {ivu : IntervalUnion} {flags : Flags} (intact : Intact start acc a b s)
    (covers : s.1.Covers b cl₀) (leaves : acc.leavesLoop = true)
    (last : b < a + len) (isSpinVar : (s.1.byte b).isSpinVar = true)
    (wrote : s.2.detector.spinWrite acc.run acc.atomic b =
      .ok (d, isALock, some (destination, ivu))) :
    Covered start acc a b cl₀ d s.1 ∧
      ∀ adr ∈ (acc.walk b).visits, ∀ d z lk,
        Covered start acc a b cl₀ d z → d.spinLock adr = some lk →
        lk.MayInvalidate flags acc.run.tid ivu.ptr →
        start.Rewrites flags acc a len b adr := by
  have covered := intact.covered covers
  obtain ⟨destination', sp, isExit, acquired⟩ :=
    spinWrite_of_leavesLoop leaves wrote
  cases isExit
  obtain ⟨map, lk, isMap, inserted⟩ := acquired.inserted
  have apart : ∀ adr, adr ≠ b →
      Detector.Since acc.run.tid s.2.detector d adr := fun adr other =>
    Detector.Since.elsewhere isMap inserted other acc.run.tid
  have isLoop : acc.run.lastSpinProperty = some sp ∨
      (start.2.detector.spinLock b).bind (·.sp) = some sp := by
    refine acquired.loop.imp_right fun own => ?_
    obtain ⟨old, found, isSp⟩ := Option.bind_eq_some_iff.mp own
    obtain ⟨old₀, found₀, step⟩ :=
      intact.since leaves b (.inr le_rfl) old found
    rw [found₀, Option.bind_some, ← step.sp]
    exact isSp
  constructor
  · refine ⟨covered.wf, covered.covers, covered.spin, fun _ adr => ?_,
      fun _ adr elsewhere => ?_⟩
    · apply (covered.held leaves adr).trans
      by_cases here : adr = b
      · exact here ▸ acquired.held
      · exact (apart adr here).heldSince
    · have first := intact.first
      exact (covered.since leaves adr elsewhere).trans
        (apart adr (by omega))
  · intro adr member d' z lk' covered' found doubted
    exact covered'.rewrites leaves intact.first last
      (intact.spin leaves b isSpinVar) member isLoop found doubted

/-- The detector answers for the node at `b`. -/
theorem Intact.askDetector (intact : Intact start acc a b s)
    (last : b < a + len)
    (calm : opts.detectMutex = true →
      ∀ b adr, ¬ start.Spoils opts.flags acc a len b adr)
    (covers : s.1.Covers b cl₀) :
    Satisfies (fun _ => True) (askDetector opts acc s (s.1.byte b) b)
      fun result =>
        Covered start acc a b cl₀ result.1.2.detector result.1.1 := by
  have covered := intact.covered covers
  refine @askDetector_keeps opts acc s (fun _ => True) (fun _ _ => trivial)
    (fun _ (d : Detector) (memory : Memory) =>
      Covered start acc a b cl₀ d memory.zsm) (s.1.byte b) b
    (fun _ => covered) ?_ ?_
  · intro stays _ d
    refine ⟨covered.wf, covered.covers, covered.spin, fun leaves => ?_,
      fun leaves => ?_⟩
    all_goals
      rw [stays] at leaves
      cases leaves
  · intro detects leaves isSpinVar d isALock destination ivu wrote
    obtain ⟨covered', rewrites⟩ :=
      intact.acquires covers leaves last isSpinVar wrote
    refine ⟨covered', fun adr member => covered_roundRule leaves ?_⟩
    intro d' z lk' covered'' found doubted displaces
    exact calm detects b adr ⟨rewrites adr member d' z lk' covered'' found
      doubted, displaces⟩

/-- A new value may be written for the node of which the old one was read. -/
theorem Intact.assign {width : Nat} {svNew : SVal Nat} {z : Zsm (SVal Nat)}
    {core : Core} (intact : Intact start acc a b s)
    (node : s.1.NodeAt b width) (inside : b % 8 + width ≤ 8)
    (positive : 0 < width)
    (resident : s.1.cache.lookup (wayIndex b) = some (lineTag b, cl₀))
    (isNode : IsNode (cl₀.descrs (b % 64 / 8)) (b % 8) width)
    (covered : Covered start acc a b cl₀ core.detector z)
    (valid : svNew ≠ .Invalid)
    (kept : acc.isWrite = true → svNew.isSpinVar = true →
      (s.1.byte b).isSpinVar = true) :
    Returns (z.onTree b (HelgrindPlus.assign svNew)) fun after =>
      (∃ width', z.Wrote b width' svNew after) ∧
        Intact start acc a (b + width) (after, core) := by
  have sane₀ : cl₀.Sane := (intact.wf.lines _ _ _ resident).2.2
  apply (covered.covers.assign covered.wf sane₀ isNode valid).mono
  rintro after ⟨width', narrower, wrote⟩
  have first := intact.first
  refine ⟨⟨width', wrote⟩, by omega, wrote.wf,
    fun leaves c isSpinVar => ?_, covered.held, fun leaves adr elsewhere =>
      covered.since leaves adr (by omega)⟩
  rw [wrote.bytes c] at isSpinVar
  split at isSpinVar
  · rename_i within
    apply intact.spin leaves c
    rw [node.uniform intact.wf inside within.1 (by omega)]
    exact kept (isWrite_of_leavesLoop leaves) isSpinVar
  · exact covered.spin leaves c isSpinVar

/-- Lines that are moved about do not matter. -/
theorem Intact.moved {z : Zsm (SVal Nat)} {core : Core}
    {events : List (RcEvent (SVal Nat))} (intact : Intact start acc a b s)
    (moved : Zsm.Moved s.1 (z, events))
    (same : core.detector = s.2.detector) :
    Intact start acc a b (z, core) := by
  refine ⟨intact.first, moved.wf, fun leaves c isSpinVar => ?_, ?_, ?_⟩
  · exact intact.spin leaves c (moved.bytes c ▸ isSpinVar)
  · exact same ▸ intact.held
  · exact same ▸ intact.since

theorem counts_detector (core : Core) (events : List (RcEvent (SVal Nat))) :
    Satisfies (fun _ => True) (events.foldlM Core.rcSVal core)
      (·.detector = core.detector) := by
  refine @Satisfies.foldlM_kept _ _ _ _ _
    (fun after : Core => after.detector = core.detector) _ _ ?_ rfl
  intro after event _ same
  apply (rcSVal_detector after.toSpinCore event).bind
  exact fun _ kept => kept.trans same

/-- The machine goes from node to node. -/
theorem msm_rule (calm : opts.detectMutex = true →
      ∀ b adr, ¬ start.Spoils opts.flags acc a len b adr) :
    NodeRule Core.rcSVal (msm opts acc) (fun _ => True) (a + len)
      (Intact start acc a) where
  wf _ _ intact := intact.wf
  fetched b s bounded intact := by
    apply (Zsm.getCacheline_returns intact.wf b).satisfies.bind
    rintro ⟨z, events⟩ ⟨moved, resident⟩
    apply (counts_detector s.2 events).bind
    exact fun r same => ⟨intact.moved moved same, resident⟩
  pulled b z r cl width node intact resident pulled :=
    intact.moved (Zsm.putTree_moved intact.wf resident pulled) rfl
  node b s width kind inside bounded intact node := by
    have positive : 0 < width := by
      simp only [List.mem_cons, List.not_mem_nil, or_false] at kind
      omega
    unfold applyNode
    rw [node.svalAt, ok_bind]
    have found := node
    obtain ⟨cl₀, resident, isNode⟩ := found
    have covers : s.1.Covers b cl₀ := ⟨cl₀, resident, fun _ _ value => value⟩
    have asks : ∀ tab, Satisfies (fun _ => True)
        (Machine.askDetector opts acc (s.1, s.2.withTab tab) (s.1.byte b) b)
        fun result =>
          Covered start acc a b cl₀ result.1.2.detector result.1.1 :=
      fun tab => @Intact.askDetector opts acc start (s.1, s.2.withTab tab) a b
        len cl₀ (intact.moved (.refl intact.wf) rfl) (by omega) calm covers
    apply (@msm_after_detector opts acc s (Covered start acc a b cl₀)
      (s.1.byte b) b width asks).bind
    rintro ⟨⟨z, r⟩, svNew⟩ ⟨covered, valid, kept⟩
    have assigned := intact.assign node inside positive resident isNode covered
      (valid (intact.wf.byte_ne_invalid b)) kept
    apply assigned.satisfies.bind
    exact fun after assigned => assigned.2

theorem Intact.refl (wf : start.1.WF) : Intact start acc a a start where
  first := le_refl a
  wf := wf
  spin _ _ := id
  held _ adr := (Detector.Since.refl acc.run.tid _ adr).heldSince
  since _ adr _ := Detector.Since.refl acc.run.tid _ adr

theorem maybeGC_formed (formed : s.1.Formed) (due : Bool) :
    Satisfies (fun _ => True) (s.maybeGC due) (·.1.Formed) := by
  unfold maybeGC
  split
  · exact formed
  split
  · exact formed
  apply (Satisfies.any _).bind
  intro _ _
  apply formed.flushCache.bind
  intro flushed formed
  apply (Satisfies.any _).bind
  exact fun _ _ => formed

theorem perform_formed (formed : s.1.Formed) {op : Op}
    (calm : ¬ op.Spoils opts s) :
    Satisfies (fun _ => True) (s.perform opts op) (·.1.Formed) := by
  cases op with
  | hb op =>
      apply (Satisfies.any _).bind
      exact fun _ _ => formed
  | lock event =>
      apply (Satisfies.any _).bind
      exact fun _ _ => formed
  | apply acc width a =>
      have calm' : opts.detectMutex = true →
          ∀ b adr, ¬ s.Spoils opts.flags acc a width.bytes b adr :=
        fun detects b adr spoils => calm ⟨detects, b, adr, spoils⟩
      have intact := (msm_rule calm').applyWidths width a s (le_refl _)
        (Intact.refl formed.wf)
      have owned := (msm_keeps_owned opts acc).applyWidths width a formed.owned
      exact (intact.and owned).mono fun _ both => ⟨both.1.wf, both.2⟩
  | applyRange acc a len =>
      have calm' : opts.detectMutex = true →
          ∀ b adr, ¬ s.Spoils opts.flags acc a len b adr :=
        fun detects b adr spoils => calm ⟨detects, b, adr, spoils⟩
      have intact := (msm_rule calm').applyRange (Intact.refl formed.wf)
      have owned := (msm_keeps_owned opts acc).applyRange a len formed.owned
      exact (intact.and owned).mono fun _ both => ⟨both.1.wf, both.2⟩
  | rangeNew a szB | rangeNoaccess a szB =>
      exact formed.setRange (by nofun) a szB
  | copyRange src dst len => exact formed.copyRange src dst len
  | onExitSpinLoop run destination ivu walk =>
      have left := @SpinState.onExitSpinLoop_keeps _ opts.flags rewrite run
        ivu walk s.toSpin (fun _ => True) _ (fun _ _ => trivial) (fun adr _ =>
          (rewrite_formed adr).roundRule opts.flags run ivu) formed
        destination
      apply left.bind
      exact fun _ formed => formed
  | exitThread quitTid =>
      apply (Satisfies.any _).bind
      exact fun _ _ => formed
  | maybeGC due => exact maybeGC_formed formed due

theorem init_formed {root : Nat} {locks : LockTab} :
    Satisfies (fun _ => True) (init root locks) (·.1.Formed) := by
  apply (Satisfies.any _).bind
  exact fun _ _ => Zsm.init_formed

/-- The lines after the beginning of a run. -/
theorem run_formed {root : Nat} {locks : LockTab} {ops : List Op}
    (calm : ∀ n s op, run opts root locks (ops.take n) = .ok s →
      ops[n]? = some op → ¬ op.Spoils opts s) (n : Nat)
    (ran : run opts root locks (ops.take n) = .ok s) : s.1.Formed := by
  obtain ⟨start, started, performed⟩ := bind_eq_ok.mp ran
  refine @foldlM_take_invariant _ _ _ (perform opts)
    (fun s : Machine => s.1.Formed) _ _
    (fun n before op next ranTo atN formed done => ?_)
    (init_formed.of_eq_ok started) n _ performed
  have there : run opts root locks (ops.take n) = .ok before :=
    bind_eq_ok.mpr ⟨start, started, ranTo⟩
  exact (perform_formed formed (calm n before op there atN)).of_eq_ok done

def waitLoop : SpinProperty := ⟨⟨7, [(100, 110)]⟩⟩

def tryLock : SpinProperty := ⟨⟨8, []⟩⟩

def visiting (adrs : List Nat) : Walk := ⟨adrs, (· + 1000)⟩

/-- Thread 2 waits for the two bytes of a variable and takes them as a
lock. -/
def locked (lock : Nat) : List Op :=
  [.hb (.sync (.create 1 2)),
    .rangeNew 0x804A00C 8,
    .rangeNew lock 2,
    .apply ⟨⟨1, 90, false, none⟩, true, false, fun _ => visiting []⟩ .w32
      0x804A010,
    .apply ⟨⟨2, 105, true, some waitLoop⟩, false, false,
      fun _ => visiting []⟩ .w16 lock,
    .apply ⟨⟨2, 105, false, some waitLoop⟩, true, true,
      fun _ => visiting []⟩ .w16 lock,
    .onExitSpinLoop ⟨2, 110, false, some waitLoop⟩ 110 waitLoop.codeBlock
      (visiting [lock])]

/-- Thread 1 writes the variable in its own loop. -/
def competes (lock : Nat) : Op :=
  .apply ⟨⟨1, 105, false, some waitLoop⟩, true, true, fun _ => visiting []⟩
    .w16 lock

/-- Thread 1 waits for another variable, which thread 2 writes. -/
def shared : List Op :=
  [.apply ⟨⟨1, 105, true, some waitLoop⟩, false, false,
      fun _ => visiting []⟩ .w32 0x804A00C,
    .apply ⟨⟨2, 300, false, none⟩, true, false, fun _ => visiting []⟩ .w32
      0x804A00C]

/-- The lock is at the end of a page, and the line of the other variable has
the same place in the cache as the page that follows. -/
def contended : List Op :=
  locked 0x8449FFE ++ competes 0x8449FFE :: shared

/-- Thread 1 completes a loop without statements of its own, and the detector
goes through the records of both variables. -/
def completes (lock : Nat) : Op :=
  .apply ⟨⟨1, 106, true, some tryLock⟩, true, true,
    fun _ => visiting [0x804A00C, lock]⟩ .w32 0x804A00C

/-- In a run without the detector, or of which no write displaces the line
that its own access holds, the lines are as they should be. -/
theorem spin_lines_ok {opts : Options} {ops : List Op}
    (stay : ∀ op ∈ ops, op.displaces opts = false) (root : Nat)
    (locks : LockTab) :
    Satisfies (fun _ => True) (run opts root locks ops) (·.1.LinesOk) := by
  cases ran : run opts root locks ops with
  | error abort => trivial
  | ok s =>
      have calm : ∀ n before op, run opts root locks (ops.take n) = .ok before →
          ops[n]? = some op → ¬ op.Spoils opts before :=
        fun n before op _ atN =>
          Op.not_spoils (stay op (List.mem_of_getElem? atN)) before
      rw [← List.take_length (l := ops)] at ran
      exact (run_formed calm ops.length ran).linesOk

/-- The lock is in a line with a place of its own. -/
theorem spin_lines_ok_contended : ∃ s,
    run ⟨true, ⟨false, false⟩⟩ 1 (.init [1, 2] 0 5)
      (locked 0x8449F00 ++ shared ++ [completes 0x8449F00]) = .ok s ∧
      s.1.LinesOk := by
  have seen : ((run ⟨true, ⟨false, false⟩⟩ 1 (.init [1, 2] 0 5)
      (locked 0x8449F00 ++ shared ++
        [completes 0x8449F00])).toOption.map fun _ => ()) = some () := by
    decide +kernel
  obtain ⟨s, ran, -⟩ := exists_ok_of_map seen
  exact ⟨s, ran, (spin_lines_ok (by decide) 1 _).of_eq_ok ran⟩

/-- A record without a writer is only gone through. -/
theorem completes_not_spoils
    (unwritten : (s.2.detector.spinLock 0x8449FFE).map (·.lastSpinWriter) =
      some 0) : ¬ (completes 0x8449FFE).Spoils opts s := by
  rintro ⟨-, b, adr, spoils⟩
  have near : adr = 0x804A00C → ¬ Displaces b adr := by
    rintro rfl
    have all : ∀ k < 4, ¬ Displaces (0x804A00C + k) 0x804A00C := by decide
    obtain ⟨k, rfl⟩ := Nat.exists_eq_add_of_le spoils.first
    exact all k (Nat.lt_of_add_lt_add_left spoils.last)
  have far : adr = 0x8449FFE := by
    have visited : adr = 0x804A00C ∨ adr = 0x8449FFE := by
      simpa [visiting] using spoils.visited
    exact visited.resolve_left fun own => near own spoils.displaces
  obtain ⟨-, inside, -⟩ | ⟨lk, sp, found, -, doubted⟩ := spoils.doubted
  · rw [far] at inside
    exact absurd inside (by decide)
  · rw [far] at found
    rw [found] at unwritten
    exact doubted.written (Option.some.inj unwritten)

end Machine
end Ukas

/-- A run of one of the three builds. -/
inductive BuildRun where
  | default (root : Nat) (ops : List MachineOp)
  | ukal (root : Nat) (ops : List Ukal.Op)
  | ukas (opts : Ukas.Options) (root : Nat) (locks : LockTab)
      (ops : List Ukas.Op)

namespace BuildRun

/-- No write of the run may displace the line that its own access holds. -/
def Calm : BuildRun → Prop
  | .default .. | .ukal .. => True
  | .ukas opts root locks ops => ∀ n s op,
      Ukas.Machine.run opts root locks (ops.take n) = .ok s →
      ops[n]? = some op → ¬ op.Spoils opts s

/-- The lines are as they should be after the first `n` operations. -/
def LinesOk (n : Nat) : BuildRun → Prop
  | .default root ops =>
      ∀ s, Machine.run root (ops.take n) = .ok s → s.1.LinesOk
  | .ukal root ops =>
      ∀ s, Ukal.Machine.run root (ops.take n) = .ok s → s.1.LinesOk
  | .ukas opts root locks ops =>
      ∀ s, Ukas.Machine.run opts root locks (ops.take n) = .ok s →
        s.1.LinesOk

theorem lines_ok_of_calm (run : BuildRun) (calm : run.Calm) (n : Nat) :
    run.LinesOk n := by
  cases run with
  | default root ops =>
      intro s ran
      exact ((Machine.run_formed root _).of_eq_ok ran).linesOk
  | ukal root ops =>
      intro s ran
      exact ((Ukal.Machine.run_formed root _).of_eq_ok ran).linesOk
  | ukas opts root locks ops =>
      intro s ran
      exact (Ukas.Machine.run_formed calm n ran).linesOk

open Ukas Ukas.Machine

/-- If thread 1 has not written the lock, it only goes through its record. -/
theorem lines_ok_of_calm_locked : ∃ s,
    Ukas.Machine.run ⟨true, ⟨false, false⟩⟩ 1 (.init [1, 2] 0 5)
      (locked 0x8449FFE ++ shared ++ [completes 0x8449FFE]) = .ok s ∧
      s.1.LinesOk := by
  have seen : ((Ukas.Machine.run ⟨true, ⟨false, false⟩⟩ 1 (.init [1, 2] 0 5)
      (locked 0x8449FFE ++ shared ++
        [completes 0x8449FFE])).toOption.map fun _ => ()) = some () := by
    decide +kernel
  have writer : ((Ukas.Machine.run ⟨true, ⟨false, false⟩⟩ 1
      (.init [1, 2] 0 5) (locked 0x8449FFE ++ shared)).toOption.map fun s =>
        (s.2.detector.spinLock 0x8449FFE).map (·.lastSpinWriter)) =
      some (some 0) := by
    decide +kernel
  have calm : (BuildRun.ukas ⟨true, ⟨false, false⟩⟩ 1 (.init [1, 2] 0 5)
      (locked 0x8449FFE ++ shared ++ [completes 0x8449FFE])).Calm := by
    intro n s op ran atN
    have early : ∀ op ∈ locked 0x8449FFE ++ shared,
        op.displaces ⟨true, ⟨false, false⟩⟩ = false := by
      decide
    rcases Nat.lt_trichotomy n 9 with before | rfl | after
    · rw [List.getElem?_append_left before] at atN
      exact Op.not_spoils (early op (List.mem_of_getElem? atN)) s
    · cases atN
      obtain ⟨s', ran', unwritten⟩ := exists_ok_of_map writer
      have same : Ukas.Machine.run ⟨true, ⟨false, false⟩⟩ 1
          (.init [1, 2] 0 5) (locked 0x8449FFE ++ shared) = .ok s := ran
      rw [ran'] at same
      cases same
      exact completes_not_spoils unwritten
    · rw [List.getElem?_eq_none (by exact after)] at atN
      cases atN
  obtain ⟨s, ran, -⟩ := exists_ok_of_map seen
  exact ⟨s, ran, lines_ok_of_calm _ calm 10 s ran⟩

/-- When the lock is written too, its second half displaces the line that the
access holds. -/
theorem not_linesOk_completes :
    ¬ (BuildRun.ukas ⟨true, ⟨false, false⟩⟩ 1 (.init [1, 2] 0 5)
      (contended ++ [completes 0x8449FFE])).LinesOk 11 := by
  intro ok
  have seen : ((Ukas.Machine.run ⟨true, ⟨false, false⟩⟩ 1 (.init [1, 2] 0 5)
      (contended ++ [completes 0x8449FFE])).toOption.map
        fun s => (s.1.cache.lookup 4736).map fun line =>
          isSaneDescrAndTree (line.2.descrs 1) (line.2.tree 1)) =
      some (some false) := by
    decide +kernel
  obtain ⟨s, ran, slot⟩ := exists_ok_of_map seen
  obtain ⟨⟨tag, cl⟩, bound, insane⟩ := Option.map_eq_some_iff.mp slot
  have sane := (ok s ran).cache 4736 tag cl bound 1 (by decide)
  rw [sane] at insane
  cases insane

end BuildRun
end HelgrindPlus
