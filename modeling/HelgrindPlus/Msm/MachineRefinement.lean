import HelgrindPlus.LibHB.VtsIds
import HelgrindPlus.Msm.Machine

/-!
# The default machine refines the one on a plain map

Every operation of `Machine` returns what `AbsMachine` returns, or aborts
alike.  On the way the reference counts are shown to be those of the
references from threads, synchronisation objects and the store.
-/

namespace HelgrindPlus

open Outcome VtsTab

/-- The ids in a shadow value. -/
def SVal.refs : SVal → Multiset Nat
  | .C rmini wmini => {rmini, wmini}
  | .E | .A | .I => 0

def svalRefs (vals : Multiset SVal) : Multiset Nat :=
  (vals.map SVal.refs).sum

theorem svalRefs_cons (sv : SVal) (vals : Multiset SVal) :
    svalRefs (sv ::ₘ vals) = sv.refs + svalRefs vals := by
  simp [svalRefs]

theorem svalRefs_add_noAccess (vals : Multiset SVal) (n : Nat) :
    svalRefs (vals + Multiset.replicate n noAccess) = svalRefs vals := by
  have none : SVal.refs noAccess = 0 := rfl
  simp [svalRefs, none]

namespace Hb

variable {hb : Hb} {others others' : Multiset Nat} {abs : AbsHb}

/-- The references from elsewhere may change. -/
theorem Refines.recount (refines : hb.Refines others abs) {tab : VtsTab}
    (counted : tab.Counted (hb.refs + others'))
    (grown : Extends hb.tab tab) :
    Refines { hb with tab := tab } others' abs where
  counted := counted
  thrs := refines.thrs.mono fun _ _ known => known.mono grown
  sos := refines.sos.mono fun _ _ known => known.mono grown
  grounded := refines.grounded

end Hb

namespace VtsTab

variable {tab after : VtsTab} {refs : Multiset Nat} {ii jj : Nat}

/-- What counting up or down leaves alone. -/
structure SameButCounts (tab after : VtsTab) : Prop where
  clock : after.clock = tab.clock
  orderings : after.getOrderingCache = tab.getOrderingCache
  joins : after.join2Cache = tab.join2Cache

theorem SameButCounts.refl (tab : VtsTab) : SameButCounts tab tab :=
  ⟨rfl, rfl, rfl⟩

theorem SameButCounts.trans {first second third : VtsTab}
    (left : SameButCounts first second) (right : SameButCounts second third) :
    SameButCounts first third :=
  ⟨right.clock.trans left.clock, right.orderings.trans left.orderings,
    right.joins.trans left.joins⟩

theorem rcinc_counts {vts : VTS} (counted : tab.Counted refs)
    (known : tab.clock ii = some vts) :
    Returns (tab.rcinc ii) (fun after => after.Counted (ii ::ₘ refs) ∧
      SameButCounts tab after) := by
  obtain ⟨after, done, counted', clock⟩ := rcinc_returns counted known
  have call : tab.rcCall (.inc ii) = .ok after := done
  obtain ⟨orderings, joins⟩ := rcCall_caches call
  exact ⟨after, done, counted', clock, orderings, joins⟩

theorem rcdec_counts (counted : tab.Counted (ii ::ₘ refs)) :
    Returns (tab.rcdec ii) (fun after => after.Counted refs ∧
      SameButCounts tab after) := by
  obtain ⟨after, done, counted', clock⟩ := rcdec_returns_cons counted
  have call : tab.rcCall (.dec ii) = .ok after := done
  obtain ⟨orderings, joins⟩ := rcCall_caches call
  exact ⟨after, done, counted', clock, orderings, joins⟩

end VtsTab

namespace Core

variable {start core : Core} {abs : AbsHb} {held vals vals' : Multiset SVal}
  {sv : SVal} {events : List (RcEvent SVal)}

/-- The state in the middle of a sequence of calls of `rcinc` and `rcdec`. -/
structure Counting (start : Core) (abs : AbsHb) (held : Multiset SVal)
    (core : Core) : Prop where
  hb : core.hb.Refines (svalRefs held) abs
  tab : SameButCounts start.hb.tab core.hb.tab
  races : core.races = start.races

/-- A value that may be counted: its ids are in use. -/
def Known (core : Core) (sv : SVal) : Prop :=
  ∃ value, core.hb.tab.SVDenotes sv value

theorem Counting.withTab (counting : Counting start abs held core)
    {tab : VtsTab} (counted : tab.Counted (core.hb.refs + svalRefs vals))
    (same : SameButCounts core.hb.tab tab) :
    Counting start abs vals (core.withTab tab) where
  hb := counting.hb.recount counted (Extends.of_clock_eq same.clock)
  tab := counting.tab.trans same
  races := counting.races

theorem Counting.inc (counting : Counting start abs held core)
    (known : start.Known sv) :
    Returns (core.rcSVal (.inc sv)) (Counting start abs (sv ::ₘ held)) := by
  obtain ⟨value, denotes⟩ := known
  have free : sv.refs = 0 → Counting start abs (sv ::ₘ held) core := by
    intro none
    have same : svalRefs (sv ::ₘ held) = svalRefs held := by
      rw [svalRefs_cons, none, zero_add]
    exact ⟨same ▸ counting.hb, counting.tab, counting.races⟩
  cases denotes with
  | @C rmini wmini rmin wmin read write =>
      rw [← counting.tab.clock] at read write
      unfold rcSVal
      apply (rcinc_counts counting.hb.counted read).bind
      rintro tab₁ ⟨counted₁, same₁⟩
      rw [← same₁.clock] at write
      apply (rcinc_counts counted₁ write).bind
      rintro tab₂ ⟨counted₂, same₂⟩
      apply Returns.pure
      apply counting.withTab _ (same₁.trans same₂)
      have order : wmini ::ₘ rmini ::ₘ (core.hb.refs + svalRefs held) =
          core.hb.refs + svalRefs (SVal.C rmini wmini ::ₘ held) := by
        have ids : (SVal.C rmini wmini).refs = rmini ::ₘ {wmini} := rfl
        rw [svalRefs_cons, ids, Multiset.cons_swap, Multiset.cons_add,
          Multiset.singleton_add, Multiset.add_cons, Multiset.add_cons]
      rw [← order]
      exact counted₂
  | E => exact Returns.ok (free rfl)
  | A => exact Returns.ok (free rfl)
  | I => exact Returns.ok (free rfl)

theorem Counting.dec (counting : Counting start abs (sv ::ₘ held) core) :
    Returns (core.rcSVal (.dec sv)) (Counting start abs held) := by
  have free : sv.refs = 0 → Counting start abs held core := by
    intro none
    have same : svalRefs (sv ::ₘ held) = svalRefs held := by
      rw [svalRefs_cons, none, zero_add]
    exact ⟨same ▸ counting.hb, counting.tab, counting.races⟩
  cases sv with
  | C rmini wmini =>
      have order : core.hb.refs + svalRefs (SVal.C rmini wmini ::ₘ held) =
          rmini ::ₘ wmini ::ₘ (core.hb.refs + svalRefs held) := by
        have ids : (SVal.C rmini wmini).refs = rmini ::ₘ {wmini} := rfl
        rw [svalRefs_cons, ids, Multiset.cons_add, Multiset.singleton_add,
          Multiset.add_cons, Multiset.add_cons]
      have counted := counting.hb.counted
      rw [order] at counted
      unfold rcSVal
      apply (rcdec_counts counted).bind
      rintro tab₁ ⟨counted₁, same₁⟩
      apply (rcdec_counts counted₁).bind
      rintro tab₂ ⟨counted₂, same₂⟩
      exact Returns.pure (counting.withTab counted₂ (same₁.trans same₂))
  | E => exact Returns.ok (free rfl)
  | A => exact Returns.ok (free rfl)
  | I => exact Returns.ok (free rfl)

/-- The calls that an operation on shadow memory makes. -/
theorem replay_returns (refines : core.hb.Refines (svalRefs vals) abs)
    (ledger : RcEvent.Ledger noAccess vals events vals')
    (known : ∀ sv, .inc sv ∈ events → core.Known sv) :
    Returns (events.foldlM rcSVal core) (Counting core abs vals') := by
  obtain ⟨n, replays⟩ := ledger
  have initially : Counting core abs
      (vals + Multiset.replicate n noAccess) core :=
    ⟨by rwa [svalRefs_add_noAccess], .refl _, rfl⟩
  exact RcEvent.Replays.foldlM_returns
    (fun _ _ _ allowed counting => Counting.inc counting allowed)
    (fun _ _ _ counting => Counting.dec counting) replays known initially

end Core

/-- Shadow memory holds the map, the table the clocks, and the reports are
the same byte by byte. -/
structure Sim (s : Machine) (m : AbsMachine) : Prop where
  wf : s.1.WF
  hb : s.2.hb.Refines (svalRefs s.1.store.vals) m.hb
  bytes : ∀ c, s.2.hb.tab.SVDenotes (s.1.byte c) (m.map c)
  races : s.2.races.flatMap Race.bytes = m.races

theorem VtsTab.SVDenotes.unique {tab : VtsTab} {sv : SVal}
    {left right : AbsSVal} (first : tab.SVDenotes sv left)
    (second : tab.SVDenotes sv right) : left = right := by
  cases first with
  | C read write =>
      cases second with
      | C read' write' =>
          rw [read] at read'
          rw [write] at write'
          cases read'
          cases write'
          rfl
  | E => cases second; rfl
  | A => cases second; rfl
  | I => cases second; rfl

section Sim

variable {s : Machine} {m : AbsMachine} {z after : Zsm SVal} {core : Core}
  {events : List (RcEvent SVal)}

/-- Shadow memory may change if the calls account for it. -/
theorem Sim.replay (sim : Sim (z, core) m) (wf : after.WF)
    (ledger : RcEvent.Ledger noAccess z.store.vals events after.store.vals)
    (known : ∀ sv, .inc sv ∈ events → core.Known sv)
    {map : Nat → AbsSVal}
    (bytes : ∀ c, core.hb.tab.SVDenotes (after.byte c) (map c)) :
    Returns (events.foldlM Core.rcSVal core) (fun core' =>
      Sim (after, core') { m with map := map } ∧
        SameButCounts core.hb.tab core'.hb.tab) := by
  apply (Core.replay_returns sim.hb ledger known).mono
  intro core' counting
  have grown := Extends.of_clock_eq counting.tab.clock
  refine ⟨⟨wf, counting.hb, fun c => (bytes c).mono grown, ?_⟩, counting.tab⟩
  rw [counting.races]
  exact sim.races

theorem Sim.moved (sim : Sim (z, core) m) (moved : Zsm.Moved z (after, events)) :
    Returns (events.foldlM Core.rcSVal core) (fun core' =>
      Sim (after, core') m ∧ SameButCounts core.hb.tab core'.hb.tab) := by
  apply sim.replay moved.wf moved.ledger
  · intro sv member
    obtain ⟨a, same⟩ := moved.incs sv member
    rw [← same]
    exact ⟨_, sim.bytes a⟩
  · intro c
    rw [moved.bytes c]
    exact sim.bytes c

end Sim

namespace AbsMachine

variable {m after : AbsMachine} {isWrite raced : Bool} {thr a b n k : Nat}
  {clocks : Clocks} {svNew : AbsSVal}

theorem access_zero : access isWrite thr m a 0 = .ok m := rfl

theorem access_add : access isWrite thr m a (n + k) =
    access isWrite thr m a n >>= (access isWrite thr · (a + n) k) := by
  unfold access
  simp only [List.range_add, List.foldlM_append, List.foldlM_map,
    Nat.add_assoc]

theorem access_one : access isWrite thr m a 1 =
    accessByte isWrite thr m a := by
  unfold access
  rw [List.range_one, List.foldlM_cons, Nat.add_zero]
  simp

/-- Where a byte cannot be accessed, nor can a range. -/
theorem access_error {abort : Abort} (first : access isWrite thr m a n = .ok after)
    (failed : accessByte isWrite thr after (a + n) = .error abort)
    (inside : n < k) : access isWrite thr m a k = .error abort := by
  obtain ⟨rest, rfl⟩ := Nat.exists_eq_add_of_lt inside
  have length : n + rest + 1 = n + (1 + rest) := by omega
  rw [length, access_add, first, ok_bind, access_add, access_one, failed]
  rfl

theorem bytes_succ (race : Race) :
    { race with szB := n + 1 }.bytes =
      { race with szB := n }.bytes ++
        [{ race with addr := race.addr + n, szB := 1 }] := by
  simp [Race.bytes, List.range_succ]

/-- An access to bytes that all have the same value. -/
theorem access_uniform (known : m.hb.thrs thr = some clocks)
    (uniform : ∀ c, a ≤ c → c < a + n → m.map c = m.map a)
    (verdict : msm isWrite (m.map a) clocks = .ok (svNew, raced)) :
    access isWrite thr m a n = .ok { m with
      map := fill m.map a n svNew
      races := m.races ++
        if raced then Race.bytes ⟨thr, a, n, isWrite⟩ else [] } := by
  induction n with
  | zero =>
      have none : (if raced then Race.bytes ⟨thr, a, 0, isWrite⟩ else []) =
          [] := by
        split <;> rfl
      rw [access_zero, fill_zero, none, List.append_nil]
  | succ n induction =>
      have before := induction fun c first last =>
        uniform c first (by omega)
      rw [access_add, before, ok_bind, access_one]
      unfold accessByte
      have here : fill m.map a n svNew (a + n) = m.map a := by
        rw [← uniform (a + n) (by omega) (by omega)]
        exact if_neg (by omega)
      simp only [known, here, verdict, ok_bind]
      have map : Function.update (fill m.map a n svNew) (a + n) svNew =
          fill m.map a (n + 1) svNew := by
        funext c
        unfold fill
        by_cases last : c = a + n
        · rw [last, Function.update_self, if_pos (by omega)]
        · rw [Function.update_of_ne last]
          by_cases early : a ≤ c ∧ c < a + n
          · rw [if_pos early, if_pos (by omega)]
          · rw [if_neg early, if_neg (by omega)]
      rw [map]
      cases raced with
      | false => rfl
      | true =>
          have more := @bytes_succ n ⟨thr, a, n, isWrite⟩
          dsimp only at more
          simp only [if_true, more, ← List.append_assoc]
          rfl

end AbsMachine

section Access

variable {z : Zsm SVal} {core : Core} {m start : AbsMachine}
  {isWrite : Bool} {thr a b len szB : Nat} {clocks : Clocks}

/-- What a call of the machine does. -/
structure Called (z : Zsm SVal) (core : Core) (abs : AbsHb) (race : Race)
    (result : Machine × SVal) (expected : AbsSVal × Bool) : Prop where
  same : result.1.1 = z
  valid : result.2 ≠ invalid
  hb : result.1.2.hb.Refines (svalRefs z.store.vals) abs
  grown : Extends core.hb.tab result.1.2.hb.tab
  value : result.1.2.hb.tab.SVDenotes result.2 expected.1
  races : result.1.2.races =
    if expected.2 then core.races ++ [race] else core.races

theorem AbsSVal.raced_isC {rmin wmin : VTS} {out : AbsSVal × Bool}
    (returned : raced rmin wmin clocks = .ok out) :
    ∃ rnew wnew, out.1 = .C rnew wnew := by
  unfold raced at returned
  split at returned
  · cases returned
    exact ⟨_, _, rfl⟩
  · cases returned

theorem AbsMachine.msm_ne_invalid {sv : AbsSVal} {out : AbsSVal × Bool}
    (returned : msm isWrite sv clocks = .ok out) : out.1 ≠ .I := by
  cases sv with
  | C rmin wmin =>
      have isC : ∃ rnew wnew, out.1 = .C rnew wnew := by
        cases isWrite with
        | true =>
            change (if wmin ≤ clocks.vW then _ else _) = _ at returned
            split at returned
            · cases returned
              exact ⟨_, _, rfl⟩
            · exact AbsSVal.raced_isC returned
        | false =>
            change (if rmin ≤ clocks.vR then _ else _) = _ at returned
            split at returned
            · cases returned
              exact ⟨_, _, rfl⟩
            · exact AbsSVal.raced_isC returned
      obtain ⟨rnew, wnew, same⟩ := isC
      rw [same]
      nofun
  | E =>
      cases isWrite <;> cases returned <;> nofun
  | A =>
      cases isWrite <;> cases returned <;> nofun
  | I =>
      cases isWrite <;> cases returned

theorem Sim.msm_agrees (sim : Sim (z, core) m)
    (known : m.hb.thrs thr = some clocks) (b szB : Nat) :
    Agrees (Machine.msm isWrite thr (z, core) (z.byte b) b szB)
      (AbsMachine.msm isWrite (m.map b) clocks)
      (Called z core m.hb ⟨thr, b, szB, isWrite⟩) := by
  obtain ⟨t, bound, denotes⟩ := sim.hb.thrs.of_some known
  have agrees : Agrees (Machine.msmFor isWrite core.hb.tab (z.byte b) t)
      (AbsMachine.msm isWrite (m.map b) clocks)
      (MsmResult core.hb.tab (core.hb.refs + svalRefs z.store.vals)) := by
    cases isWrite with
    | true => exact msmWrite_agrees sim.hb.counted denotes (sim.bytes b)
    | false => exact msmRead_agrees sim.hb.counted denotes (sim.bytes b)
  unfold Machine.msm
  rw [Hb.getThr_of bound, ok_bind]
  cases verdict : AbsMachine.msm isWrite (m.map b) clocks with
  | error abort =>
      rw [verdict] at agrees
      have failed : Machine.msmFor isWrite core.hb.tab (z.byte b) t =
          .error abort := agrees
      rw [failed]
      rfl
  | ok expected =>
      rw [verdict] at agrees
      obtain ⟨⟨tab, svNew, raced⟩, done, result⟩ := agrees
      rw [done, ok_bind]
      refine Returns.pure ⟨rfl, ?_, ?_, result.grown, result.value, ?_⟩
      · intro isInvalid
        have value := result.value
        dsimp only at value isInvalid
        rw [isInvalid] at value
        apply AbsMachine.msm_ne_invalid verdict
        exact value.unique .I
      · exact sim.hb.withTab result.counted result.grown
      · have report : raced = expected.2 := result.report
        rw [← report]

/-- After a call for some bytes with one value. -/
theorem Sim.called (sim : Sim (z, core) m) {svNew : AbsSVal} {raced : Bool}
    {result : Machine × SVal} {after : Zsm SVal}
    (call : Called z core m.hb ⟨thr, b, szB, isWrite⟩ result (svNew, raced))
    (wrote : Zsm.Wrote z b szB result.2 after) :
    Sim (after, result.1.2) { m with
      map := fill m.map b szB svNew
      races := m.races ++
        if raced then Race.bytes ⟨thr, b, szB, isWrite⟩ else [] } := by
  refine ⟨wrote.wf, ?_, ?_, ?_⟩
  · dsimp only
    rw [wrote.store]
    exact call.hb
  · intro c
    dsimp only
    rw [wrote.bytes c]
    unfold fill
    split
    · exact call.value
    · exact (sim.bytes c).mono call.grown
  · rw [call.races]
    cases raced with
    | true =>
        rw [if_pos rfl, if_pos rfl, List.flatMap_append, List.flatMap_singleton]
        exact congrArg (· ++ _) sim.races
    | false =>
        rw [if_neg Bool.false_ne_true, if_neg Bool.false_ne_true,
          List.append_nil]
        exact sim.races

/-- How far an access has got. -/
def AccessedTo (isWrite : Bool) (thr : Nat) (start : AbsMachine) (a b : Nat)
    (s : Machine) : Prop :=
  a ≤ b ∧ ∃ m, AbsMachine.access isWrite thr start a (b - a) = .ok m ∧
    Sim s m

theorem access_rule : ApplyRule Core.rcSVal (Machine.msm isWrite thr)
    (fun abort => AbsMachine.access isWrite thr start a len = .error abort)
    (a + len) (AccessedTo isWrite thr start a) where
  wf b s holds := by
    obtain ⟨-, m, -, sim⟩ := holds
    exact sim.wf
  moved b z core after events holds moved := by
    obtain ⟨first, m, done, sim⟩ := holds
    apply (sim.moved moved).satisfies.mono
    exact fun core' spec => ⟨first, m, done, spec.1⟩
  called b szB z core kind bounded holds uniform := by
    obtain ⟨first, m, done, sim⟩ := holds
    have positive : 0 < szB := by
      simp only [List.mem_cons, List.not_mem_nil, or_false] at kind
      omega
    have here : a + (b - a) = b := by omega
    have stuck : ∀ abort, AbsMachine.accessByte isWrite thr m b =
        .error abort → AbsMachine.access isWrite thr start a len =
          .error abort := by
      intro abort failed
      rw [← here] at failed
      exact AbsMachine.access_error done failed (by omega)
    cases known : m.hb.thrs thr with
    | none =>
        have failed : Machine.msm isWrite thr (z, core) (z.byte b) b szB =
            .error .dangling := by
          unfold Machine.msm
          rw [Hb.getThr_of_none sim.hb known]
          rfl
        rw [failed]
        apply stuck
        unfold AbsMachine.accessByte
        rw [known]
    | some clocks =>
        have agrees := @Sim.msm_agrees z core m isWrite thr clocks sim known
          b szB
        cases verdict : AbsMachine.msm isWrite (m.map b) clocks with
        | error abort =>
            rw [verdict] at agrees
            have failed : Machine.msm isWrite thr (z, core) (z.byte b) b szB =
                .error abort := agrees
            rw [failed]
            apply stuck
            unfold AbsMachine.accessByte
            simp only [known, verdict]
            rfl
        | ok expected =>
            rw [verdict] at agrees
            have returns : Returns _ _ := agrees
            apply returns.satisfies.mono
            intro result call
            refine ⟨call.same, call.valid, fun after wrote => ?_⟩
            have alike : ∀ c, b ≤ c → c < b + szB → m.map c = m.map b := by
              intro c from_ to_
              have value := sim.bytes c
              dsimp only at value
              rw [uniform c from_ to_] at value
              exact value.unique (sim.bytes b)
            have next := AbsMachine.access_uniform known alike verdict
            have length : b + szB - a = b - a + szB := by omega
            refine ⟨by omega, _, ?_, sim.called call wrote⟩
            rw [length, AbsMachine.access_add, done, ok_bind, here]
            exact next

/-- A satisfied rule whose failures are those of the plain map. -/
theorem agrees_of_accessed {computation : Except Abort Machine}
    (satisfies : Satisfies
      (fun abort => AbsMachine.access isWrite thr start a len = .error abort)
      computation (AccessedTo isWrite thr start a (a + len))) :
    Agrees computation (AbsMachine.access isWrite thr start a len) Sim := by
  cases computation with
  | error abort =>
      have failed : AbsMachine.access isWrite thr start a len =
        .error abort := satisfies
      rw [failed]
      rfl
  | ok s =>
      obtain ⟨-, m, done, sim⟩ := satisfies
      rw [Nat.add_sub_cancel_left] at done
      rw [done]
      exact Returns.ok sim

theorem Sim.accessed (sim : Sim (z, core) m) (a : Nat) :
    AccessedTo isWrite thr m a a (z, core) := by
  refine ⟨le_refl a, m, ?_, sim⟩
  rw [Nat.sub_self]
  rfl

theorem Sim.apply_agrees (sim : Sim (z, core) m) (width : Width) (a : Nat) :
    Agrees (Machine.apply isWrite width thr (z, core) a)
      (AbsMachine.access isWrite thr m a width.bytes) Sim :=
  agrees_of_accessed (applyWidths_satisfies access_rule width a (z, core)
    (le_refl _) (sim.accessed a))

theorem Sim.applyRange_agrees (sim : Sim (z, core) m) (a len : Nat) :
    Agrees (Machine.applyRange isWrite thr (z, core) a len)
      (AbsMachine.access isWrite thr m a len) Sim :=
  agrees_of_accessed (applyRange_satisfies access_rule (sim.accessed a))

end Access

theorem VtsTab.Represents.keep {ρ υ : Type} {tab after : VtsTab}
    {relation : VtsTab → ρ → υ → Prop} {map : AList (fun _ : Nat => ρ)}
    {values : Nat → Option υ} (represents : tab.Represents relation map values)
    (kept : ∀ key record value, map.lookup key = some record →
      relation tab record value → relation after record value) :
    after.Represents relation map values := by
  intro key
  cases known : values key with
  | none =>
      rw [represents.of_none known]
      trivial
  | some value =>
      obtain ⟨record, bound, related⟩ := represents.of_some known
      rw [bound]
      exact kept key record value bound related

section Collect

variable {z : Zsm SVal} {core : Core} {m : AbsMachine}

theorem SVal.mem_svalRefs {sv : SVal} {vals : Multiset SVal} {ii : Nat}
    (member : sv ∈ vals) (inside : ii ∈ sv.refs) : ii ∈ svalRefs vals := by
  obtain ⟨rest, rfl⟩ := Multiset.exists_cons_of_mem member
  rw [svalRefs_cons, Multiset.mem_add]
  exact .inl inside

/-- What is referred to outlives a collection, if the cache is empty. -/
theorem Sim.collect (sim : Sim (z, core) m)
    (flushed : ∀ wix, z.cache.lookup wix = none)
    (noOrderings : ∀ slot, core.hb.tab.getOrderingCache slot = none)
    (noJoins : ∀ slot, core.hb.tab.join2Cache slot = none) :
    Returns core.hb.tab.collect (fun tab => Sim (z, core.withTab tab) m) := by
  apply (collect_returns sim.hb.counted noOrderings noJoins).mono
  rintro tab ⟨counted, clock⟩
  have kept : ∀ ii ∈ core.hb.refs + svalRefs z.store.vals, ∀ vts,
      core.hb.tab.clock ii = some vts → tab.clock ii = some vts := by
    intro ii member vts known
    rw [clock ii, if_pos member, known]
  refine ⟨sim.wf, ⟨counted, ?_, ?_, sim.hb.grounded⟩, ?_, sim.races⟩
  · apply sim.hb.thrs.keep
    intro thr record clocks bound denotes
    have inside : ∀ ii ∈ record.refs,
        ii ∈ core.hb.refs + svalRefs z.store.vals := by
      intro ii member
      have split := Hb.refs_eq_of_thr bound
      dsimp only at split ⊢
      rw [split]
      simp [member]
    exact ⟨kept _ (inside _ (by simp [Thr.refs])) _ denotes.read,
      kept _ (inside _ (by simp [Thr.refs])) _ denotes.write, denotes.sane⟩
  · apply sim.hb.sos.keep
    intro so record contents bound denotes
    have inside : ∀ ii ∈ record.refs,
        ii ∈ core.hb.refs + svalRefs z.store.vals := by
      intro ii member
      have split := AList.total_eq_of_lookup SO.refs bound
      unfold Hb.refs
      dsimp only at split ⊢
      rw [split]
      simp [member]
    cases denotes with
    | empty => exact .empty
    | holds denotes =>
        exact .holds ⟨kept _ (inside _ (by simp [SO.refs])) _ denotes.read,
          kept _ (inside _ (by simp [SO.refs])) _ denotes.write,
          denotes.sane⟩
  · intro c
    have value := sim.bytes c
    have stored : z.byte c = z.store.byte c := Zsm.byte_of_unbound (flushed _)
    dsimp only at value ⊢
    rw [stored] at value ⊢
    rcases sim.wf.store.byte_mem_vals c with unused | counted'
    · rw [unused] at value ⊢
      have isA : m.map c = .A := value.unique .A
      rw [isA]
      exact .A
    · generalize z.store.byte c = sv at value counted'
      generalize m.map c = abs at value
      have inside : ∀ ii ∈ sv.refs,
          ii ∈ core.hb.refs + svalRefs z.store.vals := fun ii member =>
        Multiset.mem_add.mpr (.inr (SVal.mem_svalRefs counted' member))
      cases value with
      | C read write =>
          exact .C (kept _ (inside _ (by simp [SVal.refs])) _ read)
            (kept _ (inside _ (by simp [SVal.refs])) _ write)
      | E => exact .E
      | A => exact .A
      | I => exact .I

theorem Sim.invalidateCaches (sim : Sim (z, core) m) :
    Sim (z, core.withTab core.hb.tab.invalidateCaches) m where
  wf := sim.wf
  hb := sim.hb.withTab sim.hb.counted.invalidateCaches fun _ _ known => known
  bytes c := (sim.bytes c).mono fun _ _ known => known
  races := sim.races

theorem Sim.flush (sim : Sim (z, core) m) :
    Returns (Machine.flushCache (z, core)) (fun after => Sim after m ∧
      (∀ wix, after.1.cache.lookup wix = none) ∧
      SameButCounts core.hb.tab after.2.hb.tab) := by
  unfold Machine.flushCache counting
  apply (Zsm.flushCache_returns sim.wf).bind
  rintro ⟨after, events⟩ ⟨moved, empty⟩
  apply (sim.moved moved).bind
  rintro core' ⟨sim', same⟩
  exact Returns.pure ⟨sim', empty, same⟩

theorem Sim.maybeGC (sim : Sim (z, core) m) (due : Bool) :
    Returns (Machine.maybeGC (z, core) due) (Sim · m) := by
  unfold Machine.maybeGC
  split
  · exact Returns.ok sim
  · rename_i none
    split
    · exact Returns.ok sim
    · unfold Machine.doGC
      rw [tlAssert_of (not_not.mp none), ok_bind]
      apply sim.invalidateCaches.flush.bind
      rintro ⟨after, core'⟩ ⟨sim', empty, same⟩
      apply (sim'.collect empty _ _).bind
      · intro tab collected
        exact Returns.pure collected
      · intro slot
        exact congrFun same.orderings slot
      · intro slot
        exact congrFun same.joins slot

end Collect

section Operations

variable {z : Zsm SVal} {core : Core} {m : AbsMachine}

theorem Sim.changed (sim : Sim (z, core) m) {allowed : SVal → Prop}
    {content : Nat → SVal} {map : Nat → AbsSVal}
    {operation : Zsm SVal → Except Abort (Zsm SVal × List (RcEvent SVal))}
    (returns : Returns (operation z) (Zsm.Changed allowed z content))
    (known : ∀ sv, allowed sv → core.Known sv)
    (bytes : ∀ c, core.hb.tab.SVDenotes (content c) (map c)) :
    Returns (counting Core.rcSVal (z, core) operation)
      (Sim · { m with map := map }) := by
  unfold counting
  apply returns.bind
  rintro ⟨after, events⟩ changed
  have incs := fun sv member => known sv (changed.incs sv member)
  apply (sim.replay changed.wf changed.ledger incs fun c => by
    rw [changed.bytes c]
    exact bytes c).bind
  rintro core' ⟨sim', -⟩
  exact Returns.pure sim'

theorem Sim.setRange (sim : Sim (z, core) m) {sv : SVal} {value : AbsSVal}
    (valid : sv ≠ invalid) (denotes : core.hb.tab.SVDenotes sv value)
    (a len : Nat) :
    Returns (counting Core.rcSVal (z, core) (·.setRange a len sv))
      (Sim · { m with map := fill m.map a len value }) := by
  apply sim.changed (Zsm.setRange_returns sim.wf valid a len)
  · rintro other (rfl | ⟨c, rfl⟩)
    · exact ⟨value, denotes⟩
    · exact ⟨_, sim.bytes c⟩
  · intro c
    unfold fill
    split
    · exact denotes
    · exact sim.bytes c

theorem Sim.rangeNew_agrees (sim : Sim (z, core) m) (thr a szB : Nat) :
    Agrees (Machine.rangeNew thr (z, core) a szB)
      (AbsMachine.rangeNew thr m a szB) Sim := by
  unfold Machine.rangeNew AbsMachine.rangeNew
  cases known : m.hb.thrs thr with
  | none =>
      rw [Hb.getThr_of_none sim.hb known]
      rfl
  | some clocks =>
      obtain ⟨t, bound, denotes⟩ := sim.hb.thrs.of_some known
      rw [Hb.getThr_of bound, ok_bind, rangeNewSVal_eq, ok_bind]
      exact sim.setRange (by nofun) (.C denotes.write denotes.write) a szB

theorem Sim.copyRange_agrees (sim : Sim (z, core) m) (src dst len : Nat) :
    Agrees (Machine.copyRange (z, core) src dst len)
      (m.copyRange src dst len) Sim := by
  unfold Machine.copyRange AbsMachine.copyRange
  by_cases apart : src + len ≤ dst ∨ dst + len ≤ src
  · rw [tlAssert_of (.inr apart), ok_bind]
    apply sim.changed (Zsm.copyRange_returns sim.wf apart)
    · rintro sv ⟨c, rfl⟩
      exact ⟨_, sim.bytes c⟩
    · intro c
      unfold Zsm.copied
      split
      · exact sim.bytes _
      · exact sim.bytes c
  · by_cases empty : len = 0
    · subst empty
      rw [tlAssert_of (.inl rfl), ok_bind]
      have same : Zsm.copied m.map src dst 0 = m.map := by
        funext c
        exact if_neg (by omega)
      rw [same]
      exact Returns.pure sim
    · have failed : z.copyRange src dst len = .error .tlAssert := by
        unfold Zsm.copyRange
        rw [if_neg empty, tlAssert_of_not apart]
        rfl
      rw [tlAssert_of_not (by omega)]
      unfold counting
      dsimp only
      rw [failed]
      rfl

theorem Sim.hb_agrees (sim : Sim (z, core) m) (op : HbOp) :
    Agrees (Machine.perform (z, core) (.hb op)) (m.perform (.hb op)) Sim := by
  apply (Hb.perform_agrees sim.hb op).bind
  rintro hb abs ⟨refines, grown⟩
  exact Returns.pure ⟨sim.wf, refines, fun c => (sim.bytes c).mono grown,
    sim.races⟩

/-- Every operation is one on a plain map. -/
theorem perform_agrees {s : Machine} (sim : Sim s m) (op : MachineOp) :
    Agrees (s.perform op) (m.perform op) Sim := by
  obtain ⟨z, core⟩ := s
  cases op with
  | hb op => exact sim.hb_agrees op
  | apply isWrite width thr a => exact sim.apply_agrees width a
  | readN thr a n => exact sim.applyRange_agrees a n
  | writeN thr a n => exact sim.applyRange_agrees a n
  | rangeNew thr a szB => exact sim.rangeNew_agrees thr a szB
  | rangeNoaccess a szB => exact sim.setRange (by nofun) .A a szB
  | copyRange src dst len => exact sim.copyRange_agrees src dst len
  | maybeGC due => exact sim.maybeGC due

theorem Sim.init (root : Nat) :
    Returns (Machine.init root) (Sim · (.init root)) := by
  unfold Machine.init
  apply (Hb.Refines.init root).bind
  intro hb refines
  exact Returns.pure ⟨Zsm.init_wf, refines, fun c => .A, rfl⟩

/-- The run on a plain map. -/
def AbsMachine.run (root : Nat) (ops : List MachineOp) :
    Except Abort AbsMachine :=
  ops.foldlM perform (init root)

/-- Every run is one on a plain map. -/
theorem run_agrees (root : Nat) (ops : List MachineOp) :
    Agrees (Machine.run root ops) (AbsMachine.run root ops) Sim := by
  obtain ⟨s, started, sim⟩ := Sim.init root
  unfold Machine.run
  rw [started, ok_bind]
  exact Agrees.foldlM (fun op _ _ sim => perform_agrees sim op) ops sim

end Operations
end HelgrindPlus
