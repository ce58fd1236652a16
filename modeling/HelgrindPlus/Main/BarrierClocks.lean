import HelgrindPlus.LibHB.OwnClocks
import HelgrindPlus.Main.Barrier

/-!
# What a barrier orders

Barrier events are mixed with all other operations on clocks.  A cycle of a
barrier is read off the steps alone: it starts when the barrier is initialised
or when the previous cycle is complete.  When it is complete, the clocks of
every participant are above those that any of them arrived with, and no
participant is ordered before another.
-/

namespace HelgrindPlus

open Outcome

inductive BarStep where
  | barrier (event : BarEvent)
  | other (op : HbOp)
  deriving DecidableEq

/-- The arrivals since the cycle began, each with its position in the run. -/
structure Cycle where
  count : Nat
  arrivals : List (Nat × Nat)
  deriving DecidableEq

namespace Cycle

def thrs (cycle : Cycle) : List Nat := cycle.arrivals.map Prod.fst

def arrive (cycle : Cycle) (thr position : Nat) : Cycle :=
  if cycle.arrivals.length + 1 < cycle.count then
    { cycle with arrivals := cycle.arrivals ++ [(thr, position)] }
  else { cycle with arrivals := [] }

end Cycle

namespace BarStep

/-- What a step at a position does to the cycle of a barrier. -/
def next (barrier position : Nat) (cycle : Option Cycle) :
    BarStep → Option Cycle
  | .barrier (.initPre _ addr count) | .barrier (.reinitPre _ addr count) =>
      if addr = barrier then some ⟨count, []⟩ else cycle
  | .barrier (.destroyPre _ addr) => if addr = barrier then none else cycle
  | .barrier (.waitPre thr addr _) =>
      if addr = barrier then cycle.map (·.arrive thr position) else cycle
  | .other _ => cycle

/-- The cycle that a barrier is in after the first steps of a run. -/
def cycleAt (steps : List BarStep) (barrier : Nat) : Nat → Option Cycle
  | 0 => none
  | n + 1 =>
      match steps[n]? with
      | some step => step.next barrier n (cycleAt steps barrier n)
      | none => cycleAt steps barrier n

section Fewer

variable {steps : List BarStep} {barrier n : Nat}

private theorem next_fewer {step : BarStep} {old : Option Cycle}
    (before : ∀ cycle, old = some cycle →
      cycle.arrivals = [] ∨ cycle.arrivals.length < cycle.count)
    {cycle : Cycle} (isNext : step.next barrier n old = some cycle) :
    cycle.arrivals = [] ∨ cycle.arrivals.length < cycle.count := by
  cases step with
  | other op => exact before cycle isNext
  | barrier event =>
      cases event with
      | initPre thr addr count | reinitPre thr addr count =>
          simp only [next] at isNext
          split at isNext
          · cases isNext
            exact .inl rfl
          · exact before cycle isNext
      | destroyPre thr addr =>
          simp only [next] at isNext
          split at isNext
          · cases isNext
          · exact before cycle isNext
      | waitPre thr addr so =>
          simp only [next] at isNext
          split at isNext
          · obtain ⟨earlier, -, rfl⟩ := Option.map_eq_some_iff.mp isNext
            unfold Cycle.arrive
            split
            · right
              simpa using ‹_›
            · exact .inl rfl
          · exact before cycle isNext

/-- A cycle that is not complete. -/
theorem cycleAt_fewer {cycle : Cycle}
    (isCycle : cycleAt steps barrier n = some cycle) :
    cycle.arrivals = [] ∨ cycle.arrivals.length < cycle.count := by
  induction n generalizing cycle with
  | zero => cases isCycle
  | succ n induction =>
      simp only [cycleAt] at isCycle
      split at isCycle
      · exact next_fewer (fun _ => induction) isCycle
      · exact induction isCycle

/-- Who has arrived has done so before or does so now. -/
theorem next_arrivals {step : BarStep} {old : Option Cycle} {cycle : Cycle}
    {arrival : Nat × Nat} (isNext : step.next barrier n old = some cycle)
    (member : arrival ∈ cycle.arrivals) :
    (∃ earlier, old = some earlier ∧ arrival ∈ earlier.arrivals) ∨
      ∃ addr so, step = .barrier (.waitPre arrival.1 addr so) ∧
        arrival.2 = n := by
  cases step with
  | other op => exact .inl ⟨cycle, isNext, member⟩
  | barrier event =>
      cases event with
      | initPre thr addr count | reinitPre thr addr count =>
          simp only [next] at isNext
          split at isNext
          · cases isNext
            cases member
          · exact .inl ⟨cycle, isNext, member⟩
      | destroyPre thr addr =>
          simp only [next] at isNext
          split at isNext
          · cases isNext
          · exact .inl ⟨cycle, isNext, member⟩
      | waitPre thr addr so =>
          simp only [next] at isNext
          split at isNext
          · obtain ⟨earlier, isEarlier, rfl⟩ := Option.map_eq_some_iff.mp isNext
            unfold Cycle.arrive at member
            split at member
            · rcases List.mem_append.mp member with before | now
              · exact .inl ⟨earlier, isEarlier, before⟩
              · obtain rfl := List.mem_singleton.mp now
                exact .inr ⟨addr, so, rfl, rfl⟩
            · cases member
          · exact .inl ⟨cycle, isNext, member⟩

end Fewer

end BarStep

/-- The timestamps behind the ids of a thread. -/
def Hb.clocksOf (hb : Hb) (thr : Nat) : Option Clocks := do
  let record ← hb.thrs.lookup thr
  let vR ← hb.tab.clock record.viR
  let vW ← hb.tab.clock record.viW
  some ⟨vR, vW⟩

namespace BarTab

def step (tab : BarTab) : BarStep → Except Abort BarTab
  | .barrier event => do
      let (tab, _) ← tab.handle event
      pure tab
  | .other op => do
      let hb ← tab.hb.perform op
      pure { tab with hb := hb }

def run (root : Nat) (steps : List BarStep) : Except Abort BarTab := do
  let hb ← Hb.init root
  steps.foldlM step ⟨hb, ∅⟩

end BarTab

namespace AbsHb

section Exchange

variable {abs : AbsHb} {waiting : List Nat} {so idx : Nat}
  {mine : Nat → Clocks} {contents : Option Clocks} {posted own : Clocks}

/-- What the weak sends of the participants leave in the object. -/
def gathered (mine : Nat → Clocks) (waiting : List Nat)
    (contents : Option Clocks) : Option Clocks :=
  waiting.foldl (fun contents t => some (sent contents (mine t) false))
    contents

private theorem le_gathered_old (mine : Nat → Clocks) (waiting : List Nat)
    (own : Clocks) : ∃ posted, gathered mine waiting (some own) = some posted ∧
      own ≤ posted := by
  induction waiting generalizing own with
  | nil => exact ⟨own, rfl, le_rfl⟩
  | cons t waiting induction =>
      obtain ⟨posted, isPosted, below⟩ := induction (own.join (mine t))
      exact ⟨posted, isPosted, (own.le_join_left _).trans below⟩

theorem le_gathered (mine : Nat → Clocks) (contents : Option Clocks) {t : Nat}
    (member : t ∈ waiting) :
    ∃ posted, gathered mine waiting contents = some posted ∧
      mine t ≤ posted := by
  induction waiting generalizing contents with
  | nil => cases member
  | cons u waiting induction =>
      rcases List.mem_cons.mp member with rfl | later
      · have below : mine t ≤ sent contents (mine t) false := by
          cases contents with
          | none => exact le_rfl
          | some old => exact old.le_join_right _
        obtain ⟨posted, isPosted, above⟩ := le_gathered_old mine waiting
          (sent contents (mine t) false)
        exact ⟨posted, isPosted, below.trans above⟩
      · exact induction _ later

private theorem gathered_behind
    (old : ∀ clocks, contents = some clocks → clocks.Behind idx own)
    (all : ∀ t ∈ waiting, (mine t).Behind idx own)
    (isPosted : gathered mine waiting contents = some posted) :
    posted.Behind idx own := by
  induction waiting generalizing contents with
  | nil => exact old posted isPosted
  | cons t waiting induction =>
      apply @induction (some (sent contents (mine t) false)) _ _ isPosted
      · intro clocks same
        cases same
        have first := all t (by simp)
        cases contents with
        | none => exact first
        | some clocks => exact (old clocks rfl).join first
      · exact fun u member => all u (by simp [member])

def distribute (abs : AbsHb) (waiting : List Nat) (new : Nat → Clocks) :
    AbsHb :=
  { abs with
    thrs := fun t => if t ∈ waiting then some (new t) else abs.thrs t }

theorem distribute_nil (new : Nat → Clocks) : abs.distribute [] new = abs := by
  simp [distribute]

theorem distribute_cons {t : Nat} (once : t ∉ waiting) (new : Nat → Clocks) :
    (abs.setThr t (new t)).distribute waiting new =
      abs.distribute (t :: waiting) new := by
  unfold distribute setThr
  congr 1
  funext u
  by_cases same : u = t
  · subst same
    simp [once]
  · simp [same]

private theorem sends_eq (nodup : waiting.Nodup)
    (known : ∀ t ∈ waiting, abs.thrs t = some (mine t))
    (isSO : abs.sos so = some contents) :
    abs.sends waiting so = some
      ((abs.setSO so (gathered mine waiting contents)).distribute waiting
        fun t => (mine t).tick t) := by
  unfold sends
  induction waiting generalizing abs contents with
  | nil =>
      have same : abs.setSO so contents = abs := by
        simp [setSO, ← isSO]
      simp only [gathered, List.foldl_nil, same, distribute_nil]
      rfl
  | cons t waiting induction =>
      obtain ⟨once, nodup⟩ := List.nodup_cons.mp nodup
      have first : abs.step (.soSend t so false) = some ((abs.setSO so
          (some (sent contents (mine t) false))).setThr t
            ((mine t).tick t)) := by
        simp [step, known t (by simp), isSO]
      rw [List.foldlM_cons, first]
      refine (@induction _ (some (sent contents (mine t) false)) nodup
        ?_ ?_).trans ?_
      · intro u member
        have apart : u ≠ t := fun same => once (same ▸ member)
        simpa [setThr, setSO, apart] using known u (by simp [member])
      · simp [setThr, setSO]
      · rw [← distribute_cons once]
        simp [setThr, setSO, gathered]

private theorem recvs_eq (nodup : waiting.Nodup)
    (known : ∀ t ∈ waiting, abs.thrs t = some (mine t))
    (isSO : abs.sos so = some (some posted)) :
    abs.recvs waiting so =
      some (abs.distribute waiting fun t => (mine t).join posted) := by
  unfold recvs
  induction waiting generalizing abs with
  | nil =>
      rw [distribute_nil]
      rfl
  | cons t waiting induction =>
      obtain ⟨once, nodup⟩ := List.nodup_cons.mp nodup
      have first : abs.step (.soRecv t so true) = some (abs.setThr t
          ((mine t).join posted)) := by
        simp [step, known t (by simp), isSO, received]
      rw [List.foldlM_cons, first, ← distribute_cons once,
        Option.bind_eq_bind, Option.bind_some]
      have alive : (abs.setThr t ((mine t).join posted)).sos so =
          some (some posted) := isSO
      apply induction nodup _ alive
      intro u member
      have apart : u ≠ t := fun same => once (same ▸ member)
      simpa [setThr, apart] using known u (by simp [member])

/-- Every participant gets the join, and keeps the tick of its own send. -/
theorem exchange_eq (nodup : waiting.Nodup) (unused : abs.sos so = none)
    (known : ∀ t ∈ waiting, abs.thrs t = some (mine t))
    (isPosted : gathered mine waiting none = some posted) :
    abs.exchange waiting so = some
      (abs.distribute waiting fun t => ((mine t).tick t).join posted) := by
  have alive : (abs.setSO so none).sos so = some none := by simp [setSO]
  have isSent := sends_eq nodup
    (show ∀ t ∈ waiting, (abs.setSO so none).thrs t = some (mine t) from known)
    alive
  rw [isPosted] at isSent
  generalize between : ((abs.setSO so none).setSO so (some posted)).distribute
    waiting (fun t => (mine t).tick t) = sent at isSent
  have ticked : ∀ t ∈ waiting, sent.thrs t = some ((mine t).tick t) := by
    intro t member
    rw [← between]
    simp [distribute, member]
  have isSO : sent.sos so = some (some posted) := by
    rw [← between]
    simp [distribute, setSO]
  unfold exchange
  rw [isSent, Option.bind_eq_bind, Option.bind_some,
    recvs_eq nodup ticked isSO]
  rw [← between]
  simp only [Option.bind_some, Option.some.injEq]
  unfold distribute setSO
  congr 1
  · funext t
    by_cases member : t ∈ waiting
    · simp [member]
    · simp [member]
  · simp [← unused]

private theorem foldlM_leads {abs' : AbsHb} {op : Nat → SyncOp}
    (grounded : abs.Grounded) (leads : abs.Leads)
    (allowed : waiting.foldlM (fun abs t => abs.step (op t)) abs =
      some abs') : abs.Grows abs' ∧ abs'.Grounded ∧ abs'.Leads := by
  induction waiting generalizing abs with
  | nil =>
      cases allowed
      exact ⟨.of_thrs_eq rfl, grounded, leads⟩
  | cons t waiting induction =>
      rw [List.foldlM_cons] at allowed
      obtain ⟨middle, first, rest⟩ := Option.bind_eq_some_iff.mp allowed
      have progress := step_progress first
      obtain ⟨grows, after⟩ :=
        induction (grounded.step first) (progress.2 grounded leads) rest
      exact ⟨progress.1.trans grows, after⟩

private theorem exchange_leads {abs' : AbsHb} (grounded : abs.Grounded)
    (leads : abs.Leads) (allowed : abs.exchange waiting so = some abs') :
    abs.Grows abs' ∧ abs'.Leads := by
  obtain ⟨sent, isSent, rest⟩ := Option.bind_eq_some_iff.mp allowed
  obtain ⟨received, isReceived, same⟩ := Option.bind_eq_some_iff.mp rest
  cases same
  have noContents : ∀ clocks, (none : Option Clocks) ≠ some clocks :=
    fun _ impossible => by cases impossible
  obtain ⟨grows₁, grounded₁, leads₁⟩ := foldlM_leads
    (grounded.setSO fun clocks isNew => (noContents clocks isNew).elim)
    (leads.setSO fun clocks isNew => (noContents clocks isNew).elim) isSent
  obtain ⟨grows₂, -, leads₂⟩ := foldlM_leads grounded₁ leads₁ isReceived
  have grows : abs.Grows received := Grows.trans grows₁ grows₂
  exact ⟨grows, leads₂.dropSO so⟩

end Exchange
end AbsHb

namespace Hb

variable {hb : Hb} {others : Multiset Nat} {abs : AbsHb}

theorem clocksOf_eq (refines : hb.Refines others abs) (thr : Nat) :
    hb.clocksOf thr = abs.thrs thr := by
  unfold clocksOf
  cases atThr : abs.thrs thr with
  | none =>
      rw [refines.thrs.of_none atThr]
      rfl
  | some clocks =>
      obtain ⟨record, isThr, denotes⟩ := refines.thrs.of_some atThr
      rw [isThr]
      simp [denotes.read, denotes.write]

end Hb

namespace BarTab

section Cycles

variable {root n : Nat} {steps : List BarStep} {tab tab' : BarTab}
  {abs abs' : AbsHb} {barrier : Nat}

/-- A barrier in a cycle. -/
def cycleBar : Option Cycle → Bar
  | none => newBar
  | some cycle => ⟨true, cycle.count, some cycle.thrs⟩

/-- The thread is now above the clocks that it arrived with. -/
def Arrived (root : Nat) (steps : List BarStep) (abs : AbsHb)
    (arrival : Nat × Nat) : Prop :=
  ∃ earlier before now, run root (steps.take arrival.2) = .ok earlier ∧
    earlier.hb.clocksOf arrival.1 = some before ∧
    abs.thrs arrival.1 = some now ∧ before ≤ now

theorem Arrived.grows {arrival : Nat × Nat}
    (arrived : Arrived root steps abs arrival) (grows : abs.Grows abs') :
    Arrived root steps abs' arrival := by
  obtain ⟨earlier, before, now, ran, isBefore, isNow, below⟩ := arrived
  obtain ⟨later, isLater, above⟩ := grows _ now isNow
  exact ⟨earlier, before, later, ran, isBefore, isLater, below.trans above⟩

structure Tracks (root : Nat) (steps : List BarStep) (n : Nat)
    (tab : BarTab) (abs : AbsHb) : Prop where
  ran : run root (steps.take n) = .ok tab
  refines : tab.hb.Refines 0 abs
  leads : abs.Leads
  bars : ∀ barrier,
    tab.bar barrier = cycleBar (BarStep.cycleAt steps barrier n)
  arrived : ∀ barrier cycle, BarStep.cycleAt steps barrier n = some cycle →
    ∀ arrival ∈ cycle.arrivals, Arrived root steps abs arrival

theorem run_take_succ {step : BarStep}
    (ran : run root (steps.take n) = .ok tab) (atN : steps[n]? = some step)
    (stepped : tab.step step = .ok tab') :
    run root (steps.take (n + 1)) = .ok tab' := by
  obtain ⟨hb, isInit, before⟩ := bind_eq_ok.mp ran
  unfold run
  rw [isInit, ok_bind, foldlM_take_succ atN, before, ok_bind, stepped]

/-- Every handler looks its thread up. -/
theorem handle_thr {event : BarEvent} {out : BarTab × List HgError}
    (handled : tab.handle event = .ok out) :
    ∃ record, tab.hb.thrs.lookup event.thr = some record := by
  cases event with
  | initPre thr barrier count | reinitPre thr barrier count
  | destroyPre thr barrier | waitPre thr barrier so =>
      obtain ⟨record, found, -⟩ := bind_eq_ok.mp handled
      exact ⟨record, Hb.getThr_eq_ok found⟩

private theorem waitPre_size_zero {thr so : Nat} {record : Thr}
    (isThr : tab.hb.thrs.lookup thr = some record)
    (initted : (tab.bar barrier).initted = true)
    (zero : (tab.bar barrier).size = 0) :
    tab.pthreadBarrierWaitPre thr barrier so = .error .tlAssert := by
  unfold pthreadBarrierWaitPre
  rw [Hb.getThr_of isThr, ok_bind]
  have found := lookupOrAlloc_snd tab barrier
  generalize tab.mapBarrierToBarLookupOrAlloc barrier = allocated at *
  obtain ⟨tab₁, bar₁⟩ := allocated
  dsimp only at found ⊢
  subst found
  simp [initted, zero, tlAssert, bind, Except.bind]

private theorem exchange_satisfies {waiting : List Nat} {so t : Nat} {hb : Hb}
    (refines : hb.Refines 0 abs) (leads : abs.Leads) (member : t ∈ waiting)
    (known : ∀ u ∈ waiting, abs.Exists u) :
    Satisfies (fun _ => True) (exchange hb waiting so) (fun hb' =>
      ∃ abs', hb'.Refines 0 abs' ∧ abs'.Leads ∧ abs.Grows abs') := by
  cases unused : abs.unused so with
  | false =>
      unfold exchange Hb.soAlloc
      rw [Hb.zalloc_of_used refines unused]
      exact trivial
  | true =>
      have noSO : abs.sos so = none := by
        simp only [AbsHb.unused, Bool.and_eq_true,
          Option.isNone_iff_eq_none] at unused
        exact unused.2
      obtain ⟨abs', allowed, -⟩ := AbsHb.exchange_allowed known noSO
      obtain ⟨grows, leads'⟩ :=
        AbsHb.exchange_leads refines.grounded leads allowed
      apply (exchange_simulates refines member known unused
        allowed).satisfies.mono
      intro hb' simulates
      exact ⟨abs', simulates.1, leads', grows⟩

theorem Tracks.isKnown (tracks : Tracks root steps n tab abs)
    (barrier : Nat) : Known (tab.bar barrier) := by
  rw [tracks.bars barrier]
  cases BarStep.cycleAt steps barrier n with
  | none => exact .inl rfl
  | some cycle => exact .inr rfl

theorem Tracks.exist (tracks : Tracks root steps n tab abs) {cycle : Cycle}
    (isCycle : BarStep.cycleAt steps barrier n = some cycle) {thr : Nat}
    {record : Thr} (isThr : tab.hb.thrs.lookup thr = some record) :
    ∀ t ∈ cycle.thrs ++ [thr], abs.Exists t := by
  intro t member
  rcases List.mem_append.mp member with earlier | last
  · obtain ⟨arrival, isArrival, rfl⟩ := List.mem_map.mp earlier
    obtain ⟨_, _, now, -, -, isNow, -⟩ :=
      tracks.arrived barrier cycle isCycle arrival isArrival
    simp [AbsHb.Exists, isNow]
  · obtain rfl := List.mem_singleton.mp last
    intro missing
    rw [tracks.refines.thrs.of_none missing] at isThr
    cases isThr

/-- A wait at a barrier that is initialised. -/
theorem Tracks.waitPre (tracks : Tracks root steps n tab abs)
    {thr so : Nat} {cycle : Cycle} {out : BarTab × List HgError}
    (isCycle : BarStep.cycleAt steps barrier n = some cycle)
    (handled : tab.pthreadBarrierWaitPre thr barrier so = .ok out) :
    (∃ abs', out.1.hb.Refines 0 abs' ∧ abs'.Leads ∧ abs.Grows abs') ∧
      ∀ other, out.1.bar other = if other = barrier then
        cycleBar (some (cycle.arrive thr n)) else tab.bar other := by
  obtain ⟨record, isThr⟩ :=
    handle_thr (show tab.handle (.waitPre thr barrier so) = .ok out
      from handled)
  have isBar : tab.bar barrier = ⟨true, cycle.count, some cycle.thrs⟩ := by
    rw [tracks.bars barrier, isCycle]
    rfl
  have length : cycle.thrs.length = cycle.arrivals.length :=
    List.length_map _
  have positive : 0 < cycle.count := by
    apply Nat.pos_of_ne_zero
    intro zero
    have aborts := @waitPre_size_zero tab barrier thr so record isThr
      (by rw [isBar]) (by rw [isBar]; exact zero)
    rw [aborts] at handled
    cases handled
  have fewer : cycle.thrs.length < cycle.count := by
    rw [length]
    rcases BarStep.cycleAt_fewer isCycle with nobody | fewer
    · simpa [nobody] using positive
    · exact fewer
  have after := (waitPre_satisfies isThr isBar fewer fun _ =>
    exchange_satisfies tracks.refines tracks.leads
      (List.mem_append_right _ (List.mem_singleton_self thr))
      (tracks.exist isCycle isThr)).of_eq_ok handled
  obtain ⟨bars, hbAfter, -⟩ := after
  constructor
  · split at hbAfter
    · rw [hbAfter]
      exact ⟨abs, tracks.refines, tracks.leads, .of_thrs_eq rfl⟩
    · exact hbAfter
  · intro other
    rw [bars other]
    split
    · unfold Cycle.arrive
      rw [length]
      split
      · simp [cycleBar, Cycle.thrs, BarEvent.thr]
      · simp [cycleBar, Cycle.thrs]
    · rfl

/-- What an event does, in a run that goes on after it. -/
theorem Tracks.handle {event : BarEvent} {out : BarTab × List HgError}
    (tracks : Tracks root steps n tab abs)
    (handled : tab.handle event = .ok out) :
    (∃ abs', out.1.hb.Refines 0 abs' ∧ abs'.Leads ∧ abs.Grows abs') ∧
      ∀ barrier, out.1.bar barrier = cycleBar ((BarStep.barrier event).next
        barrier n (BarStep.cycleAt steps barrier n)) := by
  obtain ⟨record, isThr⟩ := handle_thr handled
  have same : out.1.hb = tab.hb →
      ∃ abs', out.1.hb.Refines 0 abs' ∧ abs'.Leads ∧ abs.Grows abs' := by
    intro sameHb
    rw [sameHb]
    exact ⟨abs, tracks.refines, tracks.leads, .of_thrs_eq rfl⟩
  cases event with
  | initPre thr addr count | reinitPre thr addr count =>
      obtain ⟨sameHb, bars, -⟩ :=
        (initialise_returns isThr (tracks.isKnown addr)).of_eq_ok handled
      refine ⟨same sameHb, fun barrier => ?_⟩
      rw [bars barrier, tracks.bars barrier]
      simp only [BarStep.next, eq_comm]
      split <;> rfl
  | destroyPre thr addr =>
      obtain ⟨sameHb, bars, -⟩ := (destroyPre_returns isThr).of_eq_ok handled
      refine ⟨same sameHb, fun barrier => ?_⟩
      rw [bars barrier, tracks.bars barrier]
      simp only [BarStep.next, eq_comm]
      split <;> rfl
  | waitPre thr addr so =>
      cases isCycle : BarStep.cycleAt steps addr n with
      | none =>
          have isNew := tracks.bars addr
          rw [isCycle] at isNew
          obtain ⟨sameHb, bars, -⟩ := (waitPre_uninitialised isThr
            (by rw [isNew]; rfl)).of_eq_ok handled
          refine ⟨same sameHb, fun barrier => ?_⟩
          rw [bars barrier, tracks.bars barrier]
          simp only [BarStep.next]
          split
          · rename_i here
            rw [← here, isCycle]
            rfl
          · rfl
      | some cycle =>
          obtain ⟨hbAfter, bars⟩ := tracks.waitPre isCycle handled
          refine ⟨hbAfter, fun barrier => ?_⟩
          rw [bars barrier]
          simp only [BarStep.next]
          by_cases here : barrier = addr
          · subst here
            simp [isCycle]
          · simp [here, Ne.symm here, tracks.bars barrier]

theorem Tracks.step {step : BarStep} (tracks : Tracks root steps n tab abs)
    (atN : steps[n]? = some step) (stepped : tab.step step = .ok tab') :
    ∃ abs', Tracks root steps (n + 1) tab' abs' := by
  have next : ∀ barrier, BarStep.cycleAt steps barrier (n + 1) =
      step.next barrier n (BarStep.cycleAt steps barrier n) := by
    intro barrier
    simp only [BarStep.cycleAt, atN]
  obtain ⟨⟨abs', refines, leads, grows⟩, bars⟩ :
      (∃ abs', tab'.hb.Refines 0 abs' ∧ abs'.Leads ∧ abs.Grows abs') ∧
        ∀ barrier, tab'.bar barrier = cycleBar
          (step.next barrier n (BarStep.cycleAt steps barrier n)) := by
    cases step with
    | barrier event =>
        obtain ⟨out, handled, isOut⟩ := bind_eq_ok.mp stepped
        cases isOut
        exact tracks.handle handled
    | other op =>
        obtain ⟨hb, performed, isOut⟩ := bind_eq_ok.mp stepped
        cases isOut
        obtain ⟨abs', performed', simulates⟩ :=
          (Hb.perform_agrees tracks.refines op).eq_ok performed
        obtain ⟨grows, keeps⟩ := AbsHb.perform_progress performed'
        exact ⟨⟨abs', simulates.1,
          keeps tracks.refines.grounded tracks.leads, grows⟩, tracks.bars⟩
  refine ⟨abs', run_take_succ tracks.ran atN stepped, refines, leads, ?_, ?_⟩
  · intro barrier
    rw [bars barrier, next barrier]
  · intro barrier cycle isCycle arrival member
    rw [next barrier] at isCycle
    rcases BarStep.next_arrivals isCycle member with
      ⟨earlier, isEarlier, before⟩ | ⟨addr, so, rfl, now⟩
    · exact (tracks.arrived barrier earlier isEarlier arrival before).grows
        grows
    · obtain ⟨out, handled, -⟩ := bind_eq_ok.mp stepped
      obtain ⟨record, isThr⟩ := handle_thr handled
      obtain ⟨before, isBefore⟩ : ∃ before,
          abs.thrs arrival.1 = some before := by
        apply Option.ne_none_iff_exists'.mp
        intro missing
        have unbound := tracks.refines.thrs.of_none missing
        rw [BarEvent.thr, unbound] at isThr
        cases isThr
      obtain ⟨later, isLater, below⟩ := grows arrival.1 before isBefore
      refine ⟨tab, before, later, ?_, ?_, isLater, below⟩
      · rw [now]
        exact tracks.ran
      · rw [Hb.clocksOf_eq tracks.refines]
        exact isBefore

theorem run_tracks (ran : run root steps = .ok tab) :
    ∃ abs, Tracks root steps steps.length tab abs := by
  obtain ⟨hb, isInit, folded⟩ := bind_eq_ok.mp ran
  have refines := (Hb.Refines.init root).of_eq_ok isInit
  refine @foldlM_eq_ok_invariant _ _ _ _
    (fun n tab => ∃ abs, Tracks root steps n tab abs) _ _ _ ?_ ?_ folded
  · intro n before after step atN tracked stepped
    obtain ⟨abs, tracks⟩ := tracked
    exact tracks.step atN stepped
  · refine ⟨_, ?_, refines, AbsHb.Leads.init root, fun _ => rfl, ?_⟩
    · unfold run
      rw [isInit]
      rfl
    · intro barrier cycle isCycle
      cases isCycle

/-- The participants of a complete cycle are above all the clocks that they
arrived with, and not above each other. -/
structure Released (root : Nat) (steps : List BarStep)
    (arrivals : List (Nat × Nat)) (tab tab' : BarTab) : Prop where
  above : ∀ mine ∈ arrivals, ∀ other ∈ arrivals, ∃ earlier before after,
    run root (steps.take other.2) = .ok earlier ∧
    earlier.hb.clocksOf other.1 = some before ∧
    tab'.hb.clocksOf mine.1 = some after ∧
    before.vR ≤ after.vR ∧ before.vW ≤ after.vW
  apart : ∀ mine ∈ arrivals, ∀ other ∈ arrivals, mine.1 ≠ other.1 →
    ∃ left right, tab'.hb.clocksOf mine.1 = some left ∧
    tab'.hb.clocksOf other.1 = some right ∧
    ¬ left.vR ≤ right.vR ∧ ¬ left.vW ≤ right.vW
  others : ∀ t, t ∉ arrivals.map Prod.fst →
    tab'.hb.clocksOf t = tab.hb.clocksOf t

/-- A participant is ahead of the others by the tick of its own send. -/
theorem not_le_of_tick {mine theirs own other posted : Clocks} {thr : Nat}
    (isOwn : own = (mine.tick thr).join posted)
    (isOther : other = theirs.join posted)
    (behind : theirs.Behind thr mine) (also : posted.Behind thr mine) :
    ¬ own.vR ≤ other.vR ∧ ¬ own.vW ≤ other.vW := by
  have stays := behind.join also
  rw [← isOther] at stays
  have ticked : mine.tick thr ≤ own := by
    rw [isOwn]
    exact Clocks.le_join_left _ _
  constructor
  · intro below
    have here := (ticked.1 thr).trans (below thr)
    rw [Clocks.tick, VTS.indexAt_tick, if_pos rfl] at here
    exact absurd stays.1 (by omega)
  · intro below
    have here := (ticked.2 thr).trans (below thr)
    rw [Clocks.tick, VTS.indexAt_tick, if_pos rfl] at here
    exact absurd stays.2 (by omega)

theorem Released.of_exchange {arrivals : List (Nat × Nat)} {so : Nat}
    (arrived : ∀ arrival ∈ arrivals, Arrived root steps abs arrival)
    (nodup : (arrivals.map Prod.fst).Nodup) (nonempty : arrivals ≠ [])
    (leads : abs.Leads) (unused : abs.sos so = none)
    (refines : tab.hb.Refines 0 abs)
    (exchanged : ∀ abs', abs.exchange (arrivals.map Prod.fst) so =
      some abs' → tab'.hb.Refines 0 abs') :
    Released root steps arrivals tab tab' := by
  -- the clocks of the participants before the exchange
  let mine : Nat → Clocks := fun t => (abs.thrs t).getD ⟨VTS.new, VTS.new⟩
  have known : ∀ t ∈ arrivals.map Prod.fst, abs.thrs t = some (mine t) := by
    intro t member
    obtain ⟨arrival, isArrival, rfl⟩ := List.mem_map.mp member
    obtain ⟨_, _, now, -, -, isNow, -⟩ := arrived arrival isArrival
    simp [mine, isNow]
  obtain ⟨first, isFirst⟩ := List.exists_mem_of_ne_nil arrivals nonempty
  obtain ⟨posted, isPosted, -⟩ := AbsHb.le_gathered mine none
    (List.mem_map_of_mem (f := Prod.fst) isFirst)
  have after := exchanged _
    (AbsHb.exchange_eq nodup unused known isPosted)
  have clocks : ∀ arrival ∈ arrivals, tab'.hb.clocksOf arrival.1 =
      some (((mine arrival.1).tick arrival.1).join posted) := by
    intro arrival member
    have listed := List.mem_map_of_mem (f := Prod.fst) member
    rw [Hb.clocksOf_eq after]
    exact if_pos listed
  constructor
  · intro own isOwn other isOther
    obtain ⟨earlier, before, now, ran, isBefore, isNow, below⟩ :=
      arrived other isOther
    obtain ⟨posted', isPosted', gathered⟩ := AbsHb.le_gathered mine none
      (List.mem_map_of_mem (f := Prod.fst) isOther)
    rw [isPosted] at isPosted'
    cases isPosted'
    have isMine : now = mine other.1 := by simp [mine, isNow]
    have above : before ≤ ((mine own.1).tick own.1).join posted := by
      calc
        before ≤ now := below
        _ ≤ posted := isMine ▸ gathered
        _ ≤ _ := Clocks.le_join_right _ _
    exact ⟨earlier, before, _, ran, isBefore, clocks own isOwn, above⟩
  · intro own isOwn other isOther apart
    have isMine := known own.1 (List.mem_map_of_mem (f := Prod.fst) isOwn)
    have behind : ∀ t ∈ arrivals.map Prod.fst,
        (mine t).Behind own.1 (mine own.1) := by
      intro t member
      exact leads own.1 _ isMine _ (.thr t (known t member))
    refine ⟨_, _, clocks own isOwn, clocks other isOther,
      not_le_of_tick rfl rfl ?_ ?_⟩
    · exact (behind other.1 (List.mem_map_of_mem (f := Prod.fst)
        isOther)).tick apart
    · refine AbsHb.gathered_behind ?_ behind isPosted
      intro clocks impossible
      cases impossible
  · intro t absent
    rw [Hb.clocksOf_eq after, Hb.clocksOf_eq refines]
    exact if_neg absent

/-- The last of the threads that a barrier is for completes the cycle, in any
run and however often the barrier was used before. -/
theorem barrier_orders_participants {thr so : Nat} {cycle : Cycle}
    (ran : run root steps = .ok tab)
    (isCycle : BarStep.cycleAt steps barrier steps.length = some cycle)
    (positive : 0 < cycle.count)
    (isThr : (tab.hb.thrs.lookup thr).isSome)
    (unused : tab.hb.thrs.lookup so = none ∧ tab.hb.sos.lookup so = none)
    (distinct : (cycle.thrs ++ [thr]).Nodup) :
    Returns (tab.step (.barrier (.waitPre thr barrier so))) (fun tab' =>
      if cycle.arrivals.length + 1 < cycle.count then
        (∀ t, tab'.hb.clocksOf t = tab.hb.clocksOf t) ∧
        tab'.bar barrier =
          ⟨true, cycle.count, some (cycle.thrs ++ [thr])⟩
      else
        cycle.arrivals.length + 1 = cycle.count ∧
        Released root steps (cycle.arrivals ++ [(thr, steps.length)])
          tab tab' ∧
        tab'.bar barrier = ⟨true, cycle.count, some []⟩) := by
  obtain ⟨abs, tracks⟩ := run_tracks ran
  obtain ⟨record, isRecord⟩ := Option.isSome_iff_exists.mp isThr
  have isBar : tab.bar barrier = ⟨true, cycle.count, some cycle.thrs⟩ := by
    rw [tracks.bars barrier, isCycle]
    rfl
  have length : cycle.thrs.length = cycle.arrivals.length :=
    List.length_map _
  have fewer : cycle.thrs.length < cycle.count := by
    rw [length]
    rcases BarStep.cycleAt_fewer isCycle with nobody | fewer
    · simpa [nobody] using positive
    · exact fewer
  have noThr := tracks.refines.thrs.of_unbound unused.1
  have noSO := tracks.refines.sos.of_unbound unused.2
  have exist := tracks.exist isCycle isRecord
  obtain ⟨abs', allowed, -⟩ := AbsHb.exchange_allowed exist noSO
  have simulates := exchange_simulates tracks.refines
    (List.mem_append_right cycle.thrs (List.mem_singleton_self thr)) exist
    (by simp [AbsHb.unused, noThr, noSO]) allowed
  have handled := (waitPre_satisfies isRecord isBar fewer
    fun _ => simulates.satisfies).returns
  apply handled.bind
  intro out after
  obtain ⟨bars, hbAfter, -⟩ := after
  apply Returns.pure
  rw [bars barrier, if_pos rfl]
  rw [length] at hbAfter ⊢
  split at hbAfter
  · rename_i more
    rw [if_pos more, if_pos more]
    refine ⟨fun t => ?_, rfl⟩
    rw [hbAfter]
  · rename_i last
    rw [if_neg last, if_neg last]
    have names : (cycle.arrivals ++ [(thr, steps.length)]).map Prod.fst =
        cycle.thrs ++ [thr] := by
      simp [Cycle.thrs]
    refine ⟨by omega, ?_, rfl⟩
    apply Released.of_exchange _ _ _ tracks.leads noSO tracks.refines
    · intro after isAfter
      rw [names, allowed] at isAfter
      cases isAfter
      exact hbAfter.1
    · intro arrival member
      rcases List.mem_append.mp member with earlier | now
      · exact tracks.arrived barrier cycle isCycle arrival earlier
      · obtain rfl := List.mem_singleton.mp now
        obtain ⟨clocks, atThr⟩ := Option.ne_none_iff_exists'.mp
          (exist thr (by simp))
        refine ⟨tab, clocks, clocks, ?_, ?_, atThr, le_rfl⟩
        · rw [List.take_length]
          exact ran
        · rw [Hb.clocksOf_eq tracks.refines]
          exact atThr
    · rw [names]
      exact distinct
    · simp

/-- A barrier for two threads, in its second cycle. -/
def secondCycle : List BarStep :=
  [.other (.sync (.create 1 2)), .barrier (.initPre 1 100 2),
    .barrier (.waitPre 2 100 50), .barrier (.waitPre 1 100 50),
    .other (.soExtract 2 60), .barrier (.waitPre 1 100 50)]

theorem barrier_orders_participants_secondCycle :
    ∃ tab, run 1 secondCycle = .ok tab ∧
      Returns (tab.step (.barrier (.waitPre 2 100 50)))
        (Released 1 secondCycle [(1, 5), (2, 6)] tab) := by
  have shown : (run 1 secondCycle).toOption.map (fun tab =>
      ((tab.hb.thrs.lookup 2).isSome, tab.hb.thrs.lookup 50,
        tab.hb.sos.lookup 50)) = some (true, none, none) := by decide
  obtain ⟨tab, ran, view⟩ := exists_ok_of_map shown
  obtain ⟨isThr, noThr, noSO⟩ : (tab.hb.thrs.lookup 2).isSome = true ∧
      tab.hb.thrs.lookup 50 = none ∧ tab.hb.sos.lookup 50 = none := by
    simpa only [Prod.mk.injEq] using view
  have isCycle : BarStep.cycleAt secondCycle 100 secondCycle.length =
      some ⟨2, [(1, 5)]⟩ := by decide
  refine ⟨tab, ran, ?_⟩
  apply (barrier_orders_participants ran isCycle (by decide) isThr
    ⟨noThr, noSO⟩ (by decide)).mono
  intro tab' after
  exact after.2.1

end Cycles
end BarTab
end HelgrindPlus
