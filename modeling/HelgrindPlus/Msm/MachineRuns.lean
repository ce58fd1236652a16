import HelgrindPlus.Msm.RangeWrites

/-!
# Runs of the default machine

What a client sees of a machine is one on a plain map: clocks in place of ids,
a value for each byte, and the reports byte by byte.  Runs are compared by what
is seen of them.
-/

namespace HelgrindPlus

open Outcome VtsTab

namespace VtsTab

def clocksOf (tab : VtsTab) (viR viW : Nat) : Option Clocks := do
  let vR ← tab.clock viR
  let vW ← tab.clock viW
  some ⟨vR, vW⟩

def contentsOf (tab : VtsTab) (so : SO) : Option Clocks := do
  let viR ← so.viR
  let viW ← so.viW
  tab.clocksOf viR viW

def valueOf (tab : VtsTab) : SVal → AbsSVal
  | .C rmini wmini =>
      match tab.clock rmini, tab.clock wmini with
      | some rmin, some wmin => .C rmin wmin
      | _, _ => .I
  | .E => .E
  | .A => .A
  | .I => .I

variable {tab : VtsTab}

theorem Denotes.clocksOf {viR viW : Nat} {clocks : Clocks}
    (denotes : tab.Denotes viR viW clocks) :
    tab.clocksOf viR viW = some clocks := by
  simp [VtsTab.clocksOf, denotes.read, denotes.write]

theorem SODenotes.contentsOf {so : SO} {contents : Option Clocks}
    (denotes : tab.SODenotes so contents) : tab.contentsOf so = contents := by
  cases denotes with
  | empty => rfl
  | holds denotes => exact denotes.clocksOf

theorem SVDenotes.valueOf {sv : SVal} {value : AbsSVal}
    (denotes : tab.SVDenotes sv value) : tab.valueOf sv = value := by
  cases denotes with
  | C read write => simp [VtsTab.valueOf, read, write]
  | E | A | I => rfl

theorem Represents.map_lookup {ρ υ : Type}
    {relation : VtsTab → ρ → υ → Prop} {map : AList (fun _ : Nat => ρ)}
    {values : Nat → Option υ}
    (represents : tab.Represents relation map values) (read : ρ → Option υ)
    (reads : ∀ record value, relation tab record value →
      read record = some value) :
    (fun key => (map.lookup key).bind read) = values := by
  funext key
  cases known : values key with
  | none => rw [represents.of_none known, Option.bind_none]
  | some value =>
      obtain ⟨record, bound, related⟩ := represents.of_some known
      rw [bound, Option.bind_some]
      exact reads record value related

end VtsTab

/-- The clocks of the threads and objects. -/
def Hb.view (hb : Hb) : AbsHb where
  thrs thr := (hb.thrs.lookup thr).bind fun t => hb.tab.clocksOf t.viR t.viW
  sos so := (hb.sos.lookup so).bind fun so => some (hb.tab.contentsOf so)

theorem Hb.Refines.view {hb : Hb} {others : Multiset Nat} {abs : AbsHb}
    (refines : hb.Refines others abs) : hb.view = abs := by
  have thrs := refines.thrs.map_lookup
    (fun t => hb.tab.clocksOf t.viR t.viW)
    fun _ _ denotes => denotes.clocksOf
  have sos := refines.sos.map_lookup
    (fun so => some (hb.tab.contentsOf so))
    fun _ _ denotes => congrArg some denotes.contentsOf
  cases abs
  unfold Hb.view
  rw [thrs, sos]

namespace Machine

/-- The machine on a plain map that shows the same. -/
def view (s : Machine) : AbsMachine where
  hb := s.2.hb.view
  map c := s.2.hb.tab.valueOf (s.1.byte c)
  races := s.2.races.flatMap Race.bytes

end Machine

theorem Sim.view {s : Machine} {m : AbsMachine} (sim : Sim s m) :
    s.view = m := by
  have hb := sim.hb.view
  have map : (fun c => s.2.hb.tab.valueOf (s.1.byte c)) = m.map :=
    funext fun c => (sim.bytes c).valueOf
  have races := sim.races
  cases m
  unfold Machine.view
  rw [hb, map, races]

namespace Machine

/-- Caches, compression and ids cannot be seen: a run is one on a plain map,
and it aborts where that one does. -/
theorem run_view (root : Nat) (ops : List MachineOp) :
    (run root ops).map view = AbsMachine.run root ops := by
  have agrees := run_agrees root ops
  cases plain : AbsMachine.run root ops with
  | ok m =>
      rw [plain] at agrees
      obtain ⟨s, reached, sim⟩ := agrees
      rw [reached]
      exact congrArg Except.ok sim.view
  | error abort =>
      rw [plain] at agrees
      have failed : run root ops = .error abort := agrees
      rw [failed]
      rfl

end Machine

namespace MachineOp

def isMaybeGC : MachineOp → Bool
  | maybeGC _ => true
  | hb _ | apply .. | readN .. | writeN .. | rangeNew .. | rangeNoaccess ..
  | copyRange .. => false

end MachineOp

theorem AbsMachine.run_filter (root : Nat) (ops : List MachineOp) :
    run root (ops.filter (! ·.isMaybeGC)) = run root ops := by
  unfold run
  generalize init root = m
  induction ops generalizing m with
  | nil => rfl
  | cons op ops induction =>
      rw [List.foldlM_cons]
      cases op with
      | maybeGC due =>
          rw [List.filter_cons_of_neg (by simp [MachineOp.isMaybeGC])]
          exact induction m
      | hb | apply | readN | writeN | rangeNew | rangeNoaccess | copyRange =>
          rw [List.filter_cons_of_pos rfl, List.foldlM_cons]
          exact congrArg (bind _) (funext induction)

namespace Machine

/-- Two runs that differ only in when they collect look the same. -/
theorem collections_invisible {root : Nat} {left right : List MachineOp}
    (same : left.filter (! ·.isMaybeGC) = right.filter (! ·.isMaybeGC)) :
    (run root left).map view = (run root right).map view := by
  rw [run_view, run_view, ← AbsMachine.run_filter, same,
    AbsMachine.run_filter]

theorem collections_invisible_once :
    (run 1 [.rangeNew 1 4096 16, .maybeGC true,
      .apply true .w8 1 4096]).map view =
    (run 1 [.rangeNew 1 4096 16, .apply true .w8 1 4096]).map view :=
  collections_invisible (by decide)

/-- The ids held by threads, by objects and by the bytes of memory. -/
inductive Holds (s : Machine) (ii : Nat) : Prop where
  | thr {thr : Nat} {t : Thr} (bound : s.2.hb.thrs.lookup thr = some t)
      (inside : ii ∈ t.refs)
  | so {so : Nat} {record : SO} (bound : s.2.hb.sos.lookup so = some record)
      (inside : ii ∈ record.refs)
  | byte {c : Nat} (inside : ii ∈ (s.1.byte c).refs)

/-- What a collection leaves alone. -/
structure Collected (s after : Machine) : Prop where
  thrs : after.2.hb.thrs = s.2.hb.thrs
  sos : after.2.hb.sos = s.2.hb.sos
  races : after.2.races = s.2.races
  bytes : ∀ c, after.1.byte c = s.1.byte c
  clocks : ∀ ii, s.Holds ii → ∃ vts, s.2.hb.tab.clock ii = some vts ∧
    after.2.hb.tab.clock ii = some vts

end Machine

namespace Core

variable {core start : Core}

/-- Everything but the table. -/
structure SameButTab (start core : Core) : Prop where
  thrs : core.hb.thrs = start.hb.thrs
  sos : core.hb.sos = start.hb.sos
  races : core.races = start.races

theorem rcSVal_sameButTab (same : SameButTab start core)
    (event : RcEvent SVal) :
    Satisfies (fun _ => True) (core.rcSVal event) (SameButTab start) := by
  have counted : ∀ sv, event = .inc sv ∨ event = .dec sv →
      Satisfies (fun _ => True) (core.rcSVal event) (SameButTab start) := by
    rintro sv (rfl | rfl)
    all_goals
      cases sv with
      | C rmini wmini =>
          apply (Satisfies.any _).bind
          intro _ _
          apply (Satisfies.any _).bind
          exact fun _ _ => ⟨same.thrs, same.sos, same.races⟩
      | E | A | I => exact same
  cases event with
  | inc sv => exact counted sv (.inl rfl)
  | dec sv => exact counted sv (.inr rfl)

end Core

namespace Machine

variable {s : Machine} {m : AbsMachine}

/-- A flush moves values, and changes nothing but counts. -/
theorem flushCache_leaves (wf : s.1.WF) :
    Satisfies (fun _ => True) s.flushCache fun after =>
      s.2.SameButTab after.2 ∧ ∀ c, after.1.byte c = s.1.byte c :=
  counting_flushCache_leaves
    (fun _ event same => Core.rcSVal_sameButTab same event) wf
    ⟨rfl, rfl, rfl⟩

theorem maybeGC_leaves (wf : s.1.WF) (due : Bool) :
    Satisfies (fun _ => True) (s.maybeGC due) fun after =>
      s.2.SameButTab after.2 ∧ ∀ c, after.1.byte c = s.1.byte c := by
  unfold maybeGC
  split
  · exact ⟨⟨rfl, rfl, rfl⟩, fun _ => rfl⟩
  split
  · exact ⟨⟨rfl, rfl, rfl⟩, fun _ => rfl⟩
  apply (Satisfies.any _).bind
  intro _ _
  have flushed := @flushCache_leaves
    (s.1, s.2.withTab s.2.hb.tab.invalidateCaches) wf
  apply flushed.bind
  rintro after ⟨same, bytes⟩
  apply (Satisfies.any _).bind
  exact fun _ _ => ⟨⟨same.thrs, same.sos, same.races⟩, bytes⟩

/-- Machines that hold the same ids and show the same clocks have the same
clocks for these ids. -/
theorem clocks_of_sims {after : Machine} {ii : Nat} (sim : Sim s m)
    (sim' : Sim after m) (same : s.2.SameButTab after.2)
    (bytes : ∀ c, after.1.byte c = s.1.byte c) (holds : s.Holds ii) :
    ∃ vts, s.2.hb.tab.clock ii = some vts ∧
      after.2.hb.tab.clock ii = some vts := by
  cases holds with
  | thr bound inside =>
      obtain ⟨clocks, known, denotes⟩ := sim.hb.thrs.of_bound bound
      rw [← same.thrs] at bound
      obtain ⟨clocks', known', denotes'⟩ := sim'.hb.thrs.of_bound bound
      rw [known, Option.some.injEq] at known'
      subst known'
      have chosen := Multiset.mem_add.mp inside
      simp only [Multiset.mem_singleton] at chosen
      rcases chosen with rfl | rfl
      · exact ⟨_, denotes.read, denotes'.read⟩
      · exact ⟨_, denotes.write, denotes'.write⟩
  | so bound inside =>
      obtain ⟨contents, known, denotes⟩ := sim.hb.sos.of_bound bound
      rw [← same.sos] at bound
      obtain ⟨contents', known', denotes'⟩ := sim'.hb.sos.of_bound bound
      rw [known, Option.some.injEq] at known'
      subst known'
      cases denotes with
      | empty => simp [SO.refs] at inside
      | holds denotes =>
          cases denotes' with
          | holds denotes' =>
              simp only [SO.refs, Option.toList_some, Multiset.coe_singleton,
                Multiset.mem_add, Multiset.mem_singleton] at inside
              rcases inside with rfl | rfl
              · exact ⟨_, denotes.read, denotes'.read⟩
              · exact ⟨_, denotes.write, denotes'.write⟩
  | @byte c inside =>
      have denotes := sim.bytes c
      have denotes' := sim'.bytes c
      rw [bytes c] at denotes'
      generalize s.1.byte c = sv at denotes denotes' inside
      generalize m.map c = value at denotes denotes'
      cases denotes with
      | C read write =>
          cases denotes' with
          | C read' write' =>
              simp only [SVal.refs, Multiset.insert_eq_cons,
                Multiset.mem_cons, Multiset.mem_singleton] at inside
              rcases inside with rfl | rfl
              · exact ⟨_, read, read'⟩
              · exact ⟨_, write, write'⟩
      | E | A | I => simp [SVal.refs] at inside

/-- A collection at any point of a run succeeds, and every id that is held
keeps its clock. -/
theorem collection_keeps_ids (root : Nat) (ops : List MachineOp)
    (due : Bool) :
    Satisfies (fun _ => True) (run root ops) fun s =>
      Returns (s.maybeGC due) s.Collected := by
  cases reached : run root ops with
  | error abort => trivial
  | ok s =>
      obtain ⟨m, -, sim⟩ := (run_agrees root ops).eq_ok reached
      have leaves := maybeGC_leaves sim.wf due
      obtain ⟨after, collected, sim'⟩ := sim.maybeGC due
      obtain ⟨same, bytes⟩ := leaves.of_eq_ok collected
      exact ⟨after, collected, same.thrs, same.sos, same.races, bytes,
        fun _ holds => clocks_of_sims sim sim' same bytes holds⟩

end Machine

namespace AbsMachine

/-- An abort that is not about references: the caller does not own what it
names, or an assertion on clocks fails. -/
def NotMiscounted (abort : Abort) : Prop :=
  abort ≠ .rcSnafu ∧ abort ≠ .vtsNull

theorem msm_notMiscounted (isWrite : Bool) (sv : AbsSVal) (clocks : Clocks) :
    Satisfies NotMiscounted (msm isWrite sv clocks) fun _ => True := by
  have raced : ∀ rmin wmin, Satisfies NotMiscounted
      (AbsSVal.raced rmin wmin clocks) fun _ => True := by
    intro rmin wmin
    unfold AbsSVal.raced
    split
    · trivial
    · exact ⟨nofun, nofun⟩
  cases isWrite with
  | true =>
      unfold msm AbsSVal.write
      cases sv with
      | C rmin wmin =>
          dsimp only
          split
          · trivial
          · exact raced rmin wmin
      | E | A => trivial
      | I => exact ⟨nofun, nofun⟩
  | false =>
      unfold msm AbsSVal.read
      cases sv with
      | C rmin wmin =>
          dsimp only
          split
          · trivial
          · exact raced rmin wmin
      | E | A => trivial
      | I => exact ⟨nofun, nofun⟩

theorem access_notMiscounted (isWrite : Bool) (thr : Nat) (m : AbsMachine)
    (a n : Nat) :
    Satisfies NotMiscounted (access isWrite thr m a n) fun _ => True := by
  refine Satisfies.foldlM_kept ?_ trivial
  intro m i _ _
  unfold accessByte
  split
  · exact ⟨nofun, nofun⟩
  · apply (msm_notMiscounted _ _ _).bind
    exact fun _ _ => trivial

private theorem hb_notMiscounted (abs : AbsHb) (op : HbOp) :
    Satisfies NotMiscounted (abs.perform op) fun _ => True := by
  cases op with
  | sync op =>
      have refusal : NotMiscounted (abs.refusal op) := by
        unfold AbsHb.refusal
        split <;> exact ⟨nofun, nofun⟩
      simp only [AbsHb.perform]
      split
      · trivial
      · exact refusal
  | soJoin so1 so2 =>
      simp only [AbsHb.perform, AbsHb.soJoin]
      repeat' split
      all_goals trivial
  | soExtract thr so =>
      simp only [AbsHb.perform, AbsHb.soExtract]
      repeat' split
      all_goals trivial
  | soEverSent so =>
      simp only [AbsHb.perform]
      split
      · trivial
      · exact ⟨nofun, nofun⟩

private theorem perform_notMiscounted (m : AbsMachine) (op : MachineOp) :
    Satisfies NotMiscounted (m.perform op) fun _ => True := by
  cases op with
  | hb op =>
      apply (hb_notMiscounted m.hb op).bind
      exact fun _ _ => trivial
  | apply isWrite width thr a => exact access_notMiscounted _ _ _ _ _
  | readN thr a n | writeN thr a n => exact access_notMiscounted _ _ _ _ _
  | rangeNew thr a szB =>
      simp only [perform, rangeNew]
      split
      · exact ⟨nofun, nofun⟩
      · trivial
  | rangeNoaccess a szB => trivial
  | copyRange src dst len =>
      have checked : Satisfies NotMiscounted (tlAssert
          (len = 0 ∨ src + len ≤ dst ∨ dst + len ≤ src)) fun _ => True := by
        unfold tlAssert
        split
        · trivial
        · exact ⟨nofun, nofun⟩
      apply checked.bind
      exact fun _ _ => trivial
  | maybeGC due => trivial

end AbsMachine

namespace Machine

/-- The counts are those of the references from threads, objects and lines,
and there is no line left in the cache. -/
structure CountsExact (s : Machine) : Prop where
  flushed : ∀ wix, s.1.cache.lookup wix = none
  counts : ∀ ii te, s.2.hb.tab.vtsTab[ii]? = some te →
    te.rc = (s.2.hb.refs + svalRefs s.1.store.vals).count ii

theorem flush_exact {s : Machine} {m : AbsMachine} (sim : Sim s m) :
    Returns s.flushCache CountsExact := by
  apply sim.flush.mono
  rintro after ⟨sim', flushed, -⟩
  exact ⟨flushed, sim'.hb.counted.counts⟩

/-- A run is one of the plain machine, which counts nothing. -/
theorem run_simulates (root : Nat) (ops : List MachineOp) :
    Satisfies AbsMachine.NotMiscounted (run root ops) fun s =>
      ∃ m, Sim s m := by
  have agrees := run_agrees root ops
  have plain : Satisfies AbsMachine.NotMiscounted (AbsMachine.run root ops)
      fun _ => True :=
    Satisfies.foldlM_kept (fun m op _ _ => m.perform_notMiscounted op) trivial
  cases ran : AbsMachine.run root ops with
  | error abort =>
      rw [ran] at agrees plain
      have failed : run root ops = .error abort := agrees
      rw [failed]
      exact plain
  | ok m =>
      rw [ran] at agrees
      obtain ⟨s, reached, sim⟩ := agrees
      rw [reached]
      exact ⟨m, sim⟩

/-- No run takes away a reference that is not there, or touches an id that is
not in use; and in every state reached a flush succeeds and makes the counts
exact. -/
theorem counts_exact (root : Nat) (ops : List MachineOp) :
    Satisfies AbsMachine.NotMiscounted (run root ops) fun s =>
      Returns s.flushCache CountsExact := by
  apply (run_simulates root ops).mono
  intro s reached
  obtain ⟨m, sim⟩ := reached
  exact flush_exact sim

end Machine

end HelgrindPlus
