import HelgrindPlus.Msm.MachineRefinement
import HelgrindPlus.Msm.SpoiledLines
import HelgrindPlus.Msm.SpinVars

/-!
# The clocks in the shadow values of the short hybrid machine

The references of stored values are counted when lines are written back, next
to those of threads and objects and of machine functions that have not
returned: a variable may be written in the middle of an access.
-/

namespace HelgrindPlus.Ukas

open Outcome VtsTab

/-- The id in a shadow value, if it has one. -/
def SVal.refs (sv : SVal Nat) : Multiset Nat := (sv.getVTS.toList : Multiset Nat)

def svalRefs (vals : Multiset (SVal Nat)) : Multiset Nat :=
  (vals.map SVal.refs).sum

theorem svalRefs_cons (sv : SVal Nat) (vals : Multiset (SVal Nat)) :
    svalRefs (sv ::ₘ vals) = sv.refs + svalRefs vals := by
  simp [svalRefs]

theorem svalRefs_add_noAccess (vals : Multiset (SVal Nat)) (n : Nat) :
    svalRefs (vals + Multiset.replicate n noAccess) = svalRefs vals := by
  have none : SVal.refs noAccess = 0 := rfl
  simp [svalRefs, none]

theorem mem_svalRefs {sv : SVal Nat} {vals : Multiset (SVal Nat)} {ii : Nat}
    (member : sv ∈ vals) (inside : ii ∈ sv.refs) : ii ∈ svalRefs vals := by
  obtain ⟨rest, rfl⟩ := Multiset.exists_cons_of_mem member
  rw [svalRefs_cons, Multiset.mem_add]
  exact .inl inside

/-- What `SVal__rcinc` and `SVal__rcdec` do to the clocks. -/
def rcHb (hb : UkaHb) (event : RcEvent (SVal Nat)) : Except Abort UkaHb :=
  match event with
  | .inc sv =>
      match sv.getVTS with
      | none => .ok hb
      | some vtsid => do
          let tab ← hb.tab.rcinc vtsid
          pure { hb with tab := tab }
  | .dec sv =>
      match sv.getVTS with
      | none => .ok hb
      | some vtsid => do
          let tab ← hb.tab.rcdec vtsid
          pure { hb with tab := tab }

/-- Counting does nothing else. -/
def Follows {ρ : Type} (rc : ρ → RcEvent (SVal Nat) → Except Abort ρ)
    (hbOf : ρ → UkaHb) : Prop :=
  ∀ r event, Agrees (rc r event) (rcHb (hbOf r) event)
    fun r' hb => hbOf r' = hb

theorem SpinCore.rcSVal_follows : Follows SpinCore.rcSVal (·.hb) := by
  intro core event
  cases event with
  | inc sv | dec sv =>
      unfold SpinCore.rcSVal rcHb
      dsimp only
      cases sv.getVTS with
      | none => exact Returns.ok rfl
      | some vtsid =>
          apply (Agrees.refl _).bind
          intro tab _ same
          subst same
          exact Returns.pure rfl

theorem Core.rcSVal_follows : Follows Core.rcSVal (·.hb) := by
  intro core event
  have follows := SpinCore.rcSVal_follows core.toSpinCore event
  unfold Core.rcSVal
  rw [← bind_pure (rcHb core.hb event)]
  apply follows.bind
  intro spin hb same
  exact Returns.pure same

theorem Follows.foldlM {ρ : Type}
    {rc : ρ → RcEvent (SVal Nat) → Except Abort ρ} {hbOf : ρ → UkaHb}
    (follows : Follows rc hbOf) (events : List (RcEvent (SVal Nat))) (r : ρ) :
    Agrees (events.foldlM rc r) (events.foldlM rcHb (hbOf r))
      fun r' hb => hbOf r' = hb := by
  have kept : ∀ event r hb, hbOf r = hb → Agrees (rc r event)
      (rcHb hb event) fun r' hb => hbOf r' = hb := by
    intro event r hb same
    subst same
    exact follows r event
  exact Agrees.foldlM kept events rfl

/-- A value that a location may have: its clock is in use, and mentions only
threads that exist. -/
def Known (tab : VtsTab) (abs : AbsUka) (sv : SVal Nat) : Prop :=
  ∃ value, SVDenotes tab sv value ∧
    ∀ vts, value.getVTS = some vts → abs.Mentions vts

theorem Known.mono {tab after : VtsTab} {abs abs' : AbsUka} {sv : SVal Nat}
    (known : Known tab abs sv) (grown : tab.Extends after)
    (threads : ∀ idx, abs'.thrs idx = none → abs.thrs idx = none) :
    Known after abs' sv := by
  obtain ⟨value, denotes, mentions⟩ := known
  exact ⟨value, denotes.mono grown,
    fun vts holds => (mentions vts holds).mono threads⟩

theorem Known.valid {tab : VtsTab} {abs : AbsUka} {sv : SVal Nat}
    (known : Known tab abs sv) : sv ≠ .Invalid := by
  obtain ⟨value, denotes, -⟩ := known
  intro isInvalid
  subst isInvalid
  cases denotes

theorem Known.inUse {tab : VtsTab} {abs : AbsUka} {sv : SVal Nat} {ii : Nat}
    (known : Known tab abs sv) (tells : sv.getVTS = some ii) :
    ∃ vts, tab.clock ii = some vts := by
  obtain ⟨value, denotes, -⟩ := known
  have related := denotes.getVTS
  rw [tells] at related
  generalize value.getVTS = found at related
  cases related with
  | some clock => exact ⟨_, clock⟩

/-- The state in the middle of a sequence of calls of `rcinc` and `rcdec`.
The references `busy` are those of machine functions that have not
returned. -/
structure Counting (start : UkaHb) (busy : Multiset Nat) (abs : AbsUka)
    (held : Multiset (SVal Nat)) (hb : UkaHb) : Prop where
  refines : hb.Refines (busy + svalRefs held) abs
  tab : SameButCounts start.tab hb.tab

section Counting

variable {start hb : UkaHb} {busy : Multiset Nat} {abs : AbsUka}
  {held vals vals' : Multiset (SVal Nat)} {sv : SVal Nat}
  {events : List (RcEvent (SVal Nat))}

theorem Counting.inc (counting : Counting start busy abs held hb)
    (known : Known start.tab abs sv) :
    Returns (rcHb hb (.inc sv)) (Counting start busy abs (sv ::ₘ held)) := by
  unfold rcHb
  dsimp only
  cases tells : sv.getVTS with
  | none =>
      have none : sv.refs = 0 := by simp [SVal.refs, tells]
      refine Returns.ok ⟨?_, counting.tab⟩
      rw [svalRefs_cons, none, zero_add]
      exact counting.refines
  | some vtsid =>
      obtain ⟨vts, inUse⟩ := known.inUse tells
      rw [← counting.tab.clock] at inUse
      apply (rcinc_counts counting.refines.counted inUse).bind
      intro tab counts
      refine Returns.pure ⟨?_, counting.tab.trans counts.2⟩
      apply counting.refines.withTab _ (Extends.of_clock_eq counts.2.clock)
      have one : sv.refs = {vtsid} := by simp [SVal.refs, tells]
      rw [svalRefs_cons, one, Multiset.singleton_add, Multiset.add_cons,
        Multiset.add_cons]
      exact counts.1

theorem Counting.dec (counting : Counting start busy abs (sv ::ₘ held) hb) :
    Returns (rcHb hb (.dec sv)) (Counting start busy abs held) := by
  unfold rcHb
  dsimp only
  cases tells : sv.getVTS with
  | none =>
      have none : sv.refs = 0 := by simp [SVal.refs, tells]
      have refines := counting.refines
      rw [svalRefs_cons, none, zero_add] at refines
      exact Returns.ok ⟨refines, counting.tab⟩
  | some vtsid =>
      have one : sv.refs = {vtsid} := by simp [SVal.refs, tells]
      have counted := counting.refines.counted
      rw [svalRefs_cons, one, Multiset.singleton_add, Multiset.add_cons,
        Multiset.add_cons] at counted
      apply (rcdec_counts counted).bind
      intro tab counts
      refine Returns.pure ⟨?_, counting.tab.trans counts.2⟩
      exact counting.refines.withTab counts.1 (Extends.of_clock_eq counts.2.clock)

/-- The calls that an operation on shadow memory makes. -/
theorem replay_returns (refines : hb.Refines (busy + svalRefs vals) abs)
    (ledger : RcEvent.Ledger noAccess vals events vals')
    (known : ∀ sv, .inc sv ∈ events → Known hb.tab abs sv) :
    Returns (events.foldlM rcHb hb) (Counting hb busy abs vals') := by
  obtain ⟨n, replays⟩ := ledger
  have initially : Counting hb busy abs
      (vals + Multiset.replicate n noAccess) hb := by
    constructor
    · rwa [svalRefs_add_noAccess]
    · exact .refl _
  exact RcEvent.Replays.foldlM_returns
    (fun _ _ _ allowed counting => Counting.inc counting allowed)
    (fun _ _ _ counting => Counting.dec counting) replays known initially

end Counting

structure Inv (busy : Multiset Nat) (z : Zsm (SVal Nat)) (hb : UkaHb)
    (abs : AbsUka) : Prop where
  wf : z.WF
  refines : hb.Refines (busy + svalRefs z.store.vals) abs
  bytes : ∀ c, Known hb.tab abs (z.byte c)

section Inv

variable {ρ : Type} {rc : ρ → RcEvent (SVal Nat) → Except Abort ρ}
  {hbOf : ρ → UkaHb} {busy : Multiset Nat} {z after : Zsm (SVal Nat)} {r : ρ}
  {hb : UkaHb} {abs : AbsUka} {events : List (RcEvent (SVal Nat))}

/-- Shadow memory may change if the calls account for it. -/
theorem Inv.replay (follows : Follows rc hbOf) (inv : Inv busy z (hbOf r) abs)
    (wf : after.WF)
    (ledger : RcEvent.Ledger noAccess z.store.vals events after.store.vals)
    (known : ∀ sv, .inc sv ∈ events → Known (hbOf r).tab abs sv)
    (bytes : ∀ c, Known (hbOf r).tab abs (after.byte c)) :
    Returns (events.foldlM rc r) (fun r' =>
      Inv busy after (hbOf r') abs ∧
        SameButCounts (hbOf r).tab (hbOf r').tab) := by
  obtain ⟨hb, replayed, counting⟩ := replay_returns inv.refines ledger known
  have agrees := follows.foldlM events r
  rw [replayed] at agrees
  have returns : Returns (events.foldlM rc r) (hbOf · = hb) := agrees
  apply returns.mono
  intro r' same
  subst same
  have grown := Extends.of_clock_eq counting.tab.clock
  exact ⟨⟨wf, counting.refines, fun c => (bytes c).mono grown fun _ none => none⟩,
    counting.tab⟩

theorem Inv.moved (follows : Follows rc hbOf) (inv : Inv busy z (hbOf r) abs)
    (moved : Zsm.Moved z (after, events)) :
    Returns (events.foldlM rc r) (fun r' =>
      Inv busy after (hbOf r') abs ∧
        SameButCounts (hbOf r).tab (hbOf r').tab) := by
  apply inv.replay follows moved.wf moved.ledger
  · intro sv member
    obtain ⟨a, same⟩ := moved.incs sv member
    rw [← same]
    exact inv.bytes a
  · intro c
    rw [moved.bytes c]
    exact inv.bytes c

theorem Inv.changed (follows : Follows rc hbOf) (inv : Inv busy z (hbOf r) abs)
    {allowed : SVal Nat → Prop} {content : Nat → SVal Nat}
    {operation : Zsm (SVal Nat) →
      Except Abort (Zsm (SVal Nat) × List (RcEvent (SVal Nat)))}
    (returns : Returns (operation z) (Zsm.Changed allowed z content))
    (known : ∀ sv, allowed sv → Known (hbOf r).tab abs sv)
    (bytes : ∀ c, Known (hbOf r).tab abs (content c)) :
    Returns (counting rc (z, r) operation)
      (fun s => Inv busy s.1 (hbOf s.2) abs) := by
  unfold counting
  apply returns.bind
  intro result changed
  apply (inv.replay follows changed.wf changed.ledger
    (fun sv member => known sv (changed.incs sv member)) fun c => by
      rw [changed.bytes c]
      exact bytes c).bind
  intro r' replayed
  exact Returns.pure replayed.1

/-- A value without a clock is put into a range. -/
theorem Inv.setRange (follows : Follows rc hbOf) (inv : Inv busy z (hbOf r) abs)
    {sv : SVal Nat} (known : ∀ tab, Known tab abs sv) (a len : Nat) :
    Returns (counting rc (z, r) (·.setRange a len sv))
      (fun s => Inv busy s.1 (hbOf s.2) abs) := by
  apply inv.changed follows
    (Zsm.setRange_returns inv.wf (known (hbOf r).tab).valid a len)
  · intro other allowed
    rcases allowed with rfl | ⟨c, rfl⟩
    · exact known _
    · exact inv.bytes c
  · intro c
    unfold fill
    split
    · exact known _
    · exact inv.bytes c

theorem Inv.copyRange (follows : Follows rc hbOf) (inv : Inv busy z (hbOf r) abs)
    (src dst len : Nat) :
    Satisfies Abort.Asserts (counting rc (z, r) (·.copyRange src dst len))
      (fun s => Inv busy s.1 (hbOf s.2) abs) := by
  by_cases apart : src + len ≤ dst ∨ dst + len ≤ src
  · apply (inv.changed follows (Zsm.copyRange_returns inv.wf apart) _
      _).satisfies
    · intro sv allowed
      obtain ⟨c, rfl⟩ := allowed
      exact inv.bytes c
    · intro c
      unfold Zsm.copied
      split
      · exact inv.bytes _
      · exact inv.bytes c
  · unfold counting Zsm.copyRange
    dsimp only
    split
    · exact inv
    · rw [tlAssert_of_not apart]
      exact .inl rfl

theorem Inv.flush (follows : Follows rc hbOf) (inv : Inv busy z (hbOf r) abs) :
    Returns (counting rc (z, r) (·.flushCache)) (fun s =>
      Inv busy s.1 (hbOf s.2) abs ∧ (∀ wix, s.1.cache.lookup wix = none) ∧
        SameButCounts (hbOf r).tab (hbOf s.2).tab) := by
  unfold counting
  apply (Zsm.flushCache_returns inv.wf).bind
  intro result flushed
  apply (inv.moved follows flushed.1).bind
  intro r' moved
  exact Returns.pure ⟨moved.1, flushed.2, moved.2⟩

end Inv

/-- A call does not bring clocks about of threads that nobody mentions. -/
theorem ClockStep.unmentioned {abs : SVal VTS} {clock : VTS} {acc : Access}
    {out : MsmOut VTS (SVal VTS)} (step : ClockStep abs clock acc out)
    {idx : Nat} (other : idx ≠ acc.thr) (mine : clock.indexAt idx = 0)
    (known : ∀ vts, abs.getVTS = some vts → vts.indexAt idx = 0) :
    (out.vid.getD clock).indexAt idx = 0 := by
  cases moved : out.vid with
  | none => exact mine
  | some vts =>
      obtain ticked | ⟨last, holds, joined⟩ := step.thread vts moved
      · rw [ticked]
        simp [VTS.indexAt_tick, mine, other]
      · rw [joined]
        simp [mine, known last holds]

/-- What a call of the machine leaves behind. -/
structure Called (busy : Multiset Nat) (z : Zsm (SVal Nat)) (hb : UkaHb)
    (abs : AbsUka) (hb' : UkaHb) (svNew : SVal Nat) (abs' : AbsUka) :
    Prop where
  refines : hb'.Refines (busy + svalRefs z.store.vals) abs'
  grown : Extends hb.tab hb'.tab
  value : Known hb'.tab abs' svNew
  threads : ∀ idx, abs'.thrs idx = none → abs.thrs idx = none

section Called

variable {busy busy' : Multiset Nat} {z after : Zsm (SVal Nat)}
  {hb hb' : UkaHb} {abs abs' : AbsUka} {svNew : SVal Nat} {clock : VTS}
  {thr vid : Nat}

theorem Inv.called (inv : Inv busy' z hb abs)
    (called : Called busy z hb abs hb' svNew abs') {b szB : Nat}
    (wrote : Zsm.Wrote z b szB svNew after) : Inv busy after hb' abs' := by
  constructor
  · exact wrote.wf
  · rw [wrote.store]
    exact called.refines
  · intro c
    rw [wrote.bytes c]
    split
    · exact called.value
    · exact (inv.bytes c).mono called.grown called.threads

/-- The beginning of a call takes one more reference to a clock. -/
theorem Inv.begins (inv : Inv busy z hb abs)
    (bound : hb.thrs.lookup thr = some vid) :
    Returns (hb.tab.rcinc vid) fun tab =>
      Inv (vid ::ₘ busy) z { hb with tab := tab } abs ∧
        Extends hb.tab tab := by
  obtain ⟨clock, -, mine⟩ := inv.refines.thrs.of_bound bound
  apply (rcinc_returns inv.refines.counted mine).mono
  intro tab taken
  have grown : Extends hb.tab tab := .of_clock_eq taken.2
  refine ⟨⟨inv.wf, ?_, fun c => (inv.bytes c).mono grown fun _ => id⟩, grown⟩
  apply inv.refines.withTab _ grown
  rw [Multiset.cons_add, Multiset.add_cons]
  exact taken.1

/-- The end of a call that leaves the clocks alone. -/
theorem Inv.ends (inv : Inv (vid ::ₘ busy) z hb abs) :
    Returns (hb.tab.rcdec vid) fun tab =>
      Inv busy z { hb with tab := tab } abs ∧ Extends hb.tab tab := by
  have counted := inv.refines.counted
  rw [Multiset.cons_add, Multiset.add_cons] at counted
  apply (rcdec_returns_cons counted).mono
  intro tab dropped
  have grown : Extends hb.tab tab := .of_clock_eq dropped.2
  exact ⟨⟨inv.wf, inv.refines.withTab dropped.1 grown,
    fun c => (inv.bytes c).mono grown fun _ => id⟩, grown⟩

/-- The references of a thread that has taken one more to its clock. -/
def UkaHb.refsBut (hb : UkaHb) (thr : Nat) : Multiset Nat :=
  (hb.thrs.erase thr).total (fun vid => {vid}) + hb.sos.total UkaHb.soRefs

theorem Inv.counted_twice (inv : Inv (vid ::ₘ busy) z hb abs)
    (bound : hb.thrs.lookup thr = some vid) :
    hb.tab.Counted (vid ::ₘ vid ::ₘ
      (UkaHb.refsBut hb thr + (busy + svalRefs z.store.vals))) := by
  have counted := inv.refines.counted
  rw [UkaHb.refs_eq_of_thr bound, Multiset.cons_add, Multiset.cons_add,
    Multiset.add_cons] at counted
  exact counted

/-- The end of a call: the thread has moved to another clock, or kept its
own, and the reference around the body is dropped. -/
theorem Inv.finishes (inv : Inv (vid ::ₘ busy) z hb abs)
    (atThr : abs.thrs thr = some clock)
    (bound : hb.thrs.lookup thr = some vid) {value : SVal VTS}
    (mentioned : ∀ vts, value.getVTS = some vts → abs.Mentions vts)
    {tab : VtsTab} {out : MsmOut Nat (SVal Nat)}
    {expected : MsmOut VTS (SVal VTS)} (grown : Extends hb.tab tab)
    (counted : tab.Counted (out.vid.getD vid ::ₘ vid ::ₘ
      (UkaHb.refsBut hb thr + (busy + svalRefs z.store.vals))))
    (moved : Option.Rel (fun ii vts => tab.clock ii = some vts) out.vid
      expected.vid)
    (svNew : SVDenotes tab out.svNew expected.svNew)
    {acc : Access} (isThr : acc.thr = thr)
    (step : ClockStep value clock acc expected) :
    Returns (tab.rcdec vid) (fun tab' => ∃ abs',
      Called busy z hb abs (hb.exchange tab' thr out.vid) out.svNew abs') := by
  rw [Multiset.cons_swap] at counted
  apply (rcdec_returns_cons counted).mono
  intro tab' dropped
  have grown' : Extends tab tab' := .of_clock_eq dropped.2
  have mentions : ∀ idx, idx ≠ thr → abs.thrs idx = none →
      (expected.vid.getD clock).indexAt idx = 0 := by
    intro idx other unknown
    rw [← isThr] at other
    apply step.unmentioned other
    · exact inv.refines.grounded.thrs thr clock atThr idx unknown
    · exact fun vts holds => mentioned vts holds idx unknown
  obtain ⟨abs', refines, threads, -⟩ := inv.refines.exchange atThr dropped.1
    bound (grown.trans grown') (grown'.rel moved) mentions
  refine ⟨abs', refines, ?_, ⟨expected.svNew, ?_, ?_⟩,
    fun idx => (threads idx).mp⟩
  · rw [UkaHb.exchange_tab]
    exact grown.trans grown'
  · rw [UkaHb.exchange_tab]
    exact svNew.mono grown'
  · intro vts holds idx unknown
    rw [threads idx] at unknown
    rcases step.stored vts holds with rfl | old
    · exact inv.refines.grounded.thrs thr vts atThr idx unknown
    · exact mentioned vts old idx unknown

theorem Inv.clockOf (inv : Inv busy z hb abs)
    (bound : hb.thrs.lookup thr = some vid) :
    ∃ clock, abs.thrs thr = some clock ∧ hb.tab.clock vid = some clock :=
  inv.refines.thrs.of_bound bound

end Called

theorem getThr_bound (hb : UkaHb) (thr : Nat) :
    Satisfies Abort.Asserts (hb.getThr thr)
      (hb.thrs.lookup thr = some ·) := by
  unfold UkaHb.getThr
  split
  · assumption
  · exact .inr rfl

private theorem msmSpinWrite_called {busy : Multiset Nat}
    {z : Zsm (SVal Nat)} {core : SpinCore} {abs : AbsUka}
    (inv : Inv busy z core.hb abs) (run : Running) (b szB : Nat) :
    Satisfies Abort.Asserts (msmSpinWrite run (z, core) (z.byte b) b szB)
      fun result => result.1.1 = z ∧
        ∃ abs', Called busy z core.hb abs result.1.2.hb result.2 abs' := by
  unfold msmSpinWrite
  dsimp only
  apply (getThr_bound core.hb run.tid).bind
  intro vid bound
  have asks : Asserts (core.askDetector run (z.byte b) b) := by
    unfold SpinCore.askDetector
    split
    · exact core.detector.plainSpinWrite_asserts run b
    · trivial
  apply asks.bind
  intro asked _
  apply (asked.1.locks.getThread_asserts run.tid).bind
  intro thread _
  have wrote : Returns (msmWrite core.hb.tab (z.byte b) vid
      (plainWrite run thread asked.2)) fun result => ∃ abs',
        Called busy z core.hb abs
          (core.hb.exchange result.1 run.tid result.2.vid)
          result.2.svNew abs' := by
    unfold msmWrite
    apply (inv.begins bound).bind
    intro tab begun
    obtain ⟨inv', grown⟩ := begun
    obtain ⟨value, denotes, mentioned⟩ := inv'.bytes b
    obtain ⟨clock, atThr, mine⟩ := inv'.clockOf bound
    apply (writeBody_returns _ (inv'.counted_twice bound) mine denotes).bind
    intro result body
    apply (inv'.finishes atThr bound mentioned body.grown body.counted
      body.moved body.svNew rfl absWrite_clockStep).bind
    intro tab' finished
    obtain ⟨abs', called⟩ := finished
    have sameHb : UkaHb.exchange { core.hb with tab := tab } tab' run.tid
        result.2.vid = core.hb.exchange tab' run.tid result.2.vid := by
      cases result.2.vid <;> rfl
    rw [sameHb] at called
    exact Returns.pure ⟨abs', called.refines, grown.trans called.grown,
      called.value, called.threads⟩
  apply wrote.satisfies.bind
  exact fun result called => ⟨rfl, called⟩

/-- Shadow memory and the clocks, some time after `hb₀` and `abs₀`. -/
def SoundFrom (busy : Multiset Nat) (hb₀ : UkaHb) (abs₀ : AbsUka)
    (z : Zsm (SVal Nat)) (hb : UkaHb) : Prop :=
  ∃ abs, Inv busy z hb abs ∧ Extends hb₀.tab hb.tab ∧
    ∀ idx, abs.thrs idx = none → abs₀.thrs idx = none

/-- A variable may be written in the middle of other calls. -/
theorem rewrite_sound {busy : Multiset Nat} {hb₀ : UkaHb} {abs₀ : AbsUka}
    (adr : Nat) :
    SpinState.Keeps Abort.Asserts rewrite (fun memory : Memory =>
      SoundFrom busy hb₀ abs₀ memory.zsm memory.hb) adr := by
  intro run d memory sound
  have rule : ApplyRule SpinCore.rcSVal (msmSpinWrite run) Abort.Asserts
      (adr + 4) (fun _ s => SoundFrom busy hb₀ abs₀ s.1 s.2.hb) := {
    wf := by
      intro b s sound
      obtain ⟨abs, inv, -⟩ := sound
      exact inv.wf
    moved := by
      intro b z r after events sound moved
      obtain ⟨abs, inv, grown, threads⟩ := sound
      apply (inv.moved SpinCore.rcSVal_follows moved).satisfies.mono
      exact fun r' moved => ⟨abs, moved.1,
        grown.trans (Extends.of_clock_eq moved.2.clock), threads⟩
    called := by
      intro b szB z r kind bounded sound uniform
      obtain ⟨abs, inv, grown, threads⟩ := sound
      apply (msmSpinWrite_called inv run b szB).mono
      intro result returned
      obtain ⟨same, abs', called⟩ := returned
      refine ⟨same, called.value.valid, fun after wrote => ⟨abs',
        inv.called called wrote, grown.trans called.grown, ?_⟩⟩
      exact fun idx none => threads idx (called.threads idx none) }
  have written := applyWidths_satisfies rule .w32 adr
    (memory.zsm, ⟨memory.hb, memory.races, d⟩) (le_refl _) sound
  apply written.bind
  exact fun _ sound => sound

theorem SVDenotes.kept {tab after : VtsTab} {sv : SVal Nat} {value : SVal VTS}
    (denotes : SVDenotes tab sv value)
    (kept : ∀ ii vts, sv.getVTS = some ii → tab.clock ii = some vts →
      after.clock ii = some vts) : SVDenotes after sv value := by
  cases denotes with
  | SpinVar known => exact .SpinVar (kept _ _ rfl known)
  | ShM known => exact .ShM (kept _ _ rfl known)
  | ShR known => exact .ShR (kept _ _ rfl known)
  | ExclR known => exact .ExclR (kept _ _ rfl known)
  | ExclW known => exact .ExclW (kept _ _ rfl known)
  | Race => exact .Race
  | New => exact .New
  | NoAccess => exact .NoAccess

section Collect

variable {busy : Multiset Nat} {z : Zsm (SVal Nat)} {hb : UkaHb}
  {abs : AbsUka}

/-- The clocks of the bytes are bound as they were. -/
def BytesKept (z : Zsm (SVal Nat)) (tab after : VtsTab) : Prop :=
  ∀ c ii vts, (z.byte c).getVTS = some ii → tab.clock ii = some vts →
    after.clock ii = some vts

theorem Known.kept {c : Nat} {tab after : VtsTab} (kept : BytesKept z tab after)
    (known : Known tab abs (z.byte c)) : Known after abs (z.byte c) := by
  obtain ⟨value, denotes, mentions⟩ := known
  exact ⟨value, denotes.kept fun ii vts => kept c ii vts, mentions⟩

/-- What is referred to outlives a collection, if the cache is empty. -/
theorem Inv.collect (inv : Inv busy z hb abs)
    (flushed : ∀ wix, z.cache.lookup wix = none)
    (noOrderings : ∀ slot, hb.tab.getOrderingCache slot = none)
    (noJoins : ∀ slot, hb.tab.join2Cache slot = none) :
    Returns hb.tab.collect (fun tab =>
      Inv busy z { hb with tab := tab } abs ∧ BytesKept z hb.tab tab) := by
  apply (collect_returns inv.refines.counted noOrderings noJoins).mono
  intro tab collected
  obtain ⟨counted, clock⟩ := collected
  have kept : ∀ ii ∈ hb.refs + (busy + svalRefs z.store.vals), ∀ vts,
      hb.tab.clock ii = some vts → tab.clock ii = some vts := by
    intro ii member vts known
    rw [clock ii, if_pos member, known]
  have bytesKept : BytesKept z hb.tab tab := by
    intro c ii vts tells known
    rw [Zsm.byte_of_unbound (flushed _)] at tells
    rcases inv.wf.store.byte_mem_vals c with unused | counted'
    · rw [unused] at tells
      cases tells
    · apply kept ii _ vts known
      refine Multiset.mem_add.mpr (.inr (Multiset.mem_add.mpr
        (.inr (mem_svalRefs counted' ?_))))
      simp [SVal.refs, tells]
  refine ⟨⟨inv.wf, ⟨counted, ?_, ?_, inv.refines.grounded⟩,
    fun c => (inv.bytes c).kept bytesKept⟩, bytesKept⟩
  · apply inv.refines.thrs.keep
    intro thr vid vts bound known
    apply kept vid _ vts known
    rw [UkaHb.refs_eq_of_thr bound]
    simp
  · apply inv.refines.sos.keep
    intro so record contents bound denotes
    cases denotes with
    | empty => exact .empty
    | @holds vid vts known =>
        apply UkaHb.SODenotes.holds
        apply kept vid _ vts known
        have split := AList.total_eq_of_lookup UkaHb.soRefs bound
        unfold UkaHb.refs
        rw [split]
        simp [UkaHb.soRefs]

theorem Inv.invalidateCaches (inv : Inv busy z hb abs) :
    Inv busy z { hb with tab := hb.tab.invalidateCaches } abs where
  wf := inv.wf
  refines := inv.refines.withTab inv.refines.counted.invalidateCaches
    fun _ _ known => known
  bytes c := (inv.bytes c).mono (fun _ _ known => known) fun _ none => none

end Collect

end HelgrindPlus.Ukas
