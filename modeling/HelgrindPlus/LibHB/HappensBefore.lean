import HelgrindPlus.Lib.Causality
import HelgrindPlus.LibHB.SyncRefinement

/-!
# Timestamps decide happens-before

An operation of the clock interface is an action of the abstract protocol of
`Causality`: creating a thread forks it, a send posts, a receive takes, and
both allocating and freeing an object leave nothing in it.  The clock of an
event is the one its thread has when the event has taken in what it receives
and before the thread moves along; `logStep` records its ids.
-/

namespace HelgrindPlus

open Outcome

def SyncOp.act : SyncOp → Causality.Act Nat Nat
  | .create thr child => .fork thr child
  | .soAlloc thr so => .clear thr so
  | .soDealloc thr so => .clear thr so
  | .soSend thr so strong => .post thr so strong
  | .soRecv thr so _ => .take thr so

theorem SyncOp.act_thr (op : SyncOp) : op.act.thr = op.thr := by
  cases op <;> rfl

def SyncOp.isWeakRecv : SyncOp → Bool
  | .soRecv _ _ strong => !strong
  | _ => false

/-- The clocks of the thread of an event. -/
def AbsHb.eventClocks (abs : AbsHb) : SyncOp → Option Clocks
  | .soRecv thr so strong => do
      let clocks ← abs.thrs thr
      let contents ← abs.sos so
      some (received clocks contents strong)
  | op => abs.thrs op.thr

namespace Hb

/-- A receive is stamped with the clocks that it leaves. -/
def eventThr (before after : Hb) (op : SyncOp) : Except Abort Thr :=
  match op with
  | .soRecv thr _ _ => after.getThr thr
  | op => before.getThr op.thr

/-- One operation, with its ids appended to the log. -/
def logStep (acc : Hb × List Thr) (op : SyncOp) :
    Except Abort (Hb × List Thr) := do
  let hb ← acc.1.step op
  let thr ← eventThr acc.1 hb op
  pure (hb, acc.2 ++ [thr])

/-- A run from `libhb_init`, with the ids at each of its events. -/
def runLogged (root : Nat) (ops : List SyncOp) :
    Except Abort (Hb × List Thr) := do
  let hb ← Hb.init root
  ops.foldlM logStep (hb, [])

end Hb

namespace AbsHb

/-- While all receives are strong the two clocks agree, and they are the
clocks of the abstract protocol. -/
structure Tracks (abs : AbsHb) (clocks : Causality.Clocks Nat Nat) :
    Prop where
  alive : ∀ thr, thr ∈ clocks.alive ↔ abs.Exists thr
  thrs : ∀ thr mine, abs.thrs thr = some mine →
    mine.vW = mine.vR ∧ mine.vR.indexAt = clocks.thr thr
  posted : ∀ so mine, abs.sos so = some (some mine) →
    mine.vW = mine.vR ∧ mine.vR.indexAt = clocks.chan so
  empty : ∀ so, (∀ mine, abs.sos so ≠ some (some mine)) →
    clocks.chan so = fun _ => 0

theorem indexAt_tick_eq (me : Nat) (vts : VTS) :
    (vts.tick me).indexAt = Causality.tick me vts.indexAt := by
  funext idx
  rw [VTS.indexAt_tick]
  by_cases same : idx = me
  · simp [Causality.tick, same]
  · simp [Causality.tick, same]

private theorem indexAt_join_eq (a b : VTS) :
    (a.join b).indexAt = Causality.join a.indexAt b.indexAt := by
  funext idx
  exact VTS.indexAt_join a b idx

theorem Tracks.init (root : Nat) :
    (AbsHb.init root).Tracks (Causality.init root) := by
  constructor
  · intro thr
    by_cases same : thr = root
    · simp [Causality.init, AbsHb.init, Exists, same]
    · simp [Causality.init, AbsHb.init, Exists, same]
  · intro thr mine stored
    by_cases same : thr = root
    · subst same
      simp only [AbsHb.init, Function.update_self, Option.some.injEq]
        at stored
      subst stored
      refine ⟨rfl, ?_⟩
      funext idx
      by_cases isRoot : idx = thr
      · simp [Causality.init, Causality.tick, isRoot]
      · simp [Causality.init, Causality.tick, isRoot]
    · simp [AbsHb.init, same] at stored
  · intro so mine stored
    simp [AbsHb.init] at stored
  · intro so _
    rfl

/-- The clocks of an event are its stamp in the abstract protocol. -/
theorem Tracks.stamp {abs : AbsHb} {clocks : Causality.Clocks Nat Nat}
    (tracks : abs.Tracks clocks) {op : SyncOp} {mine : Clocks}
    (strong : op.isWeakRecv = false)
    (event : abs.eventClocks op = some mine) :
    mine.vW = mine.vR ∧ mine.vR.indexAt = Causality.stamp clocks op.act := by
  cases op with
  | soRecv thr so isStrong =>
      obtain rfl : isStrong = true := by
        simpa [SyncOp.isWeakRecv] using strong
      simp only [eventClocks, Option.bind_eq_bind, Option.bind_eq_some_iff,
        Option.some.injEq] at event
      obtain ⟨own, atThr, contents, atSO, rfl⟩ := event
      obtain ⟨same, value⟩ := tracks.thrs thr own atThr
      cases contents with
      | none =>
          have zero := tracks.empty so (by simp [atSO])
          refine ⟨same, ?_⟩
          funext idx
          simp [received, Causality.stamp, SyncOp.act, Causality.join, zero,
            value]
      | some posted =>
          obtain ⟨samePosted, valuePosted⟩ := tracks.posted so posted atSO
          constructor
          · simp [received, Clocks.join, same, samePosted]
          · simp [received, Clocks.join, indexAt_join_eq, value, valuePosted,
              Causality.stamp, SyncOp.act]
  | create thr child => exact tracks.thrs thr mine event
  | soAlloc thr so => exact tracks.thrs thr mine event
  | soDealloc thr so => exact tracks.thrs thr mine event
  | soSend thr so isStrong => exact tracks.thrs thr mine event

theorem Tracks.allowed {abs abs' : AbsHb}
    {clocks : Causality.Clocks Nat Nat} (tracks : abs.Tracks clocks)
    {op : SyncOp} (allowed : abs.step op = some abs') :
    Causality.Allowed clocks op.act := by
  have actor : abs.Exists op.thr := by
    cases op <;>
      (obtain ⟨mine, atThr, _⟩ := Option.bind_eq_some_iff.mp allowed
       simp only [Exists, SyncOp.thr, atThr]
       exact Option.some_ne_none mine)
  constructor
  · rw [SyncOp.act_thr]
    exact (tracks.alive _).mpr actor
  · intro parent child fork
    cases op with
    | create thr new =>
        cases fork
        simp only [AbsHb.step, Option.bind_eq_bind, Option.bind_eq_some_iff,
          Option.ite_none_right_eq_some, AbsHb.unused, Bool.and_eq_true,
          Option.isNone_iff_eq_none] at allowed
        obtain ⟨_, _, ⟨absent, _⟩, _⟩ := allowed
        rw [tracks.alive]
        simp [Exists, absent]
    | soAlloc => cases fork
    | soDealloc => cases fork
    | soSend => cases fork
    | soRecv => cases fork

section Step

variable {abs abs' : AbsHb} {clocks : Causality.Clocks Nat Nat}

theorem Tracks.setThr (tracks : abs.Tracks clocks) (thr : Nat) {mine : Clocks}
    {value : Causality.Clock Nat} (same : mine.vW = mine.vR)
    (equal : mine.vR.indexAt = value) :
    (abs.setThr thr mine).Tracks
      { clocks with
        alive := insert thr clocks.alive
        thr := Function.update clocks.thr thr value } := by
  constructor
  · intro other
    by_cases isThr : other = thr
    · simp [AbsHb.setThr, Exists, isThr]
    · have old := tracks.alive other
      simpa [AbsHb.setThr, Exists, isThr] using old
  · intro other found stored
    by_cases isThr : other = thr
    · subst isThr
      simp only [AbsHb.setThr, Function.update_self, Option.some.injEq]
        at stored
      subst stored
      simp [same, equal]
    · simp only [AbsHb.setThr, Function.update_of_ne isThr] at stored
      simpa [isThr] using tracks.thrs other found stored
  · exact tracks.posted
  · exact tracks.empty

theorem Tracks.setSO (tracks : abs.Tracks clocks) (so : Nat) {mine : Clocks}
    {value : Causality.Clock Nat} (same : mine.vW = mine.vR)
    (equal : mine.vR.indexAt = value) :
    (abs.setSO so (some mine)).Tracks
      { clocks with chan := Function.update clocks.chan so value } := by
  refine ⟨tracks.alive, tracks.thrs, ?_, ?_⟩
  · intro other found stored
    by_cases isSO : other = so
    · subst isSO
      simp only [AbsHb.setSO, Function.update_self, Option.some.injEq]
        at stored
      subst stored
      simp [same, equal]
    · simp only [AbsHb.setSO, Function.update_of_ne isSO] at stored
      simpa [isSO] using tracks.posted other found stored
  · intro other unsent
    by_cases isSO : other = so
    · subst isSO
      exact absurd (by simp [AbsHb.setSO]) (unsent mine)
    · simp only [AbsHb.setSO, Function.update_of_ne isSO] at unsent
      simpa [isSO] using tracks.empty other unsent

/-- Allocating and freeing leave nothing in the object. -/
theorem Tracks.clear (tracks : abs.Tracks clocks) {so : Nat}
    {contents : Option (Option Clocks)}
    (unsent : ∀ mine, contents ≠ some (some mine)) :
    AbsHb.Tracks
      { abs with sos := Function.update abs.sos so contents }
      { clocks with chan := Function.update clocks.chan so (fun _ => 0) } := by
  refine ⟨tracks.alive, tracks.thrs, ?_, ?_⟩
  · intro other found stored
    by_cases isSO : other = so
    · subst isSO
      simp only [Function.update_self] at stored
      exact absurd stored (unsent found)
    · simp only [Function.update_of_ne isSO] at stored
      simpa [isSO] using tracks.posted other found stored
  · intro other nothing
    by_cases isSO : other = so
    · simp [isSO]
    · simp only [Function.update_of_ne isSO] at nothing
      simpa [isSO] using tracks.empty other nothing

theorem Tracks.step (tracks : abs.Tracks clocks) {op : SyncOp}
    (strong : op.isWeakRecv = false) (allowed : abs.step op = some abs') :
    abs'.Tracks (Causality.after clocks op.act) := by
  have acting := (tracks.allowed allowed).1
  rw [SyncOp.act_thr] at acting
  cases op with
  | create thr child =>
      simp only [AbsHb.step, Option.bind_eq_bind, Option.bind_eq_some_iff,
        Option.ite_none_right_eq_some, Option.some.injEq] at allowed
      obtain ⟨mine, atThr, _, rfl⟩ := allowed
      obtain ⟨same, value⟩ := tracks.thrs thr mine atThr
      have ticked : ∀ me, (mine.tick me).vW = (mine.tick me).vR := by
        simp [Clocks.tick, same]
      have result := (tracks.setThr child (ticked child)
        (indexAt_tick_eq child mine.vR)).setThr thr (ticked thr)
        (indexAt_tick_eq thr mine.vR)
      have alive : insert thr (insert child clocks.alive) =
          insert child clocks.alive :=
        Set.insert_eq_of_mem (Set.mem_insert_of_mem child acting)
      simpa [Causality.after, SyncOp.act, Causality.stamp, Causality.Act.thr,
        value, alive] using result
  | soAlloc thr so =>
      simp only [AbsHb.step, Option.bind_eq_bind, Option.bind_eq_some_iff,
        Option.ite_none_right_eq_some, Option.some.injEq] at allowed
      obtain ⟨_, _, _, rfl⟩ := allowed
      exact tracks.clear (by simp)
  | soDealloc thr so =>
      simp only [AbsHb.step, Option.bind_eq_bind, Option.bind_eq_some_iff,
        Option.some.injEq] at allowed
      obtain ⟨_, _, _, _, rfl⟩ := allowed
      exact tracks.clear (by simp)
  | soSend thr so isStrong =>
      simp only [AbsHb.step, Option.bind_eq_bind, Option.bind_eq_some_iff,
        Option.some.injEq] at allowed
      obtain ⟨mine, atThr, contents, atSO, rfl⟩ := allowed
      obtain ⟨same, value⟩ := tracks.thrs thr mine atThr
      have contribution :
          (sent contents mine isStrong).vW = (sent contents mine isStrong).vR ∧
          (sent contents mine isStrong).vR.indexAt =
            if isStrong then clocks.thr thr
            else Causality.join (clocks.chan so) (clocks.thr thr) := by
        cases contents with
        | none =>
            have zero := tracks.empty so (by simp [atSO])
            refine ⟨same, ?_⟩
            cases isStrong with
            | true => exact value
            | false =>
                rw [zero]
                funext idx
                simp [sent, Causality.join, value]
        | some posted =>
            obtain ⟨samePosted, valuePosted⟩ := tracks.posted so posted atSO
            cases isStrong with
            | true => exact ⟨same, value⟩
            | false =>
                simp [sent, Clocks.join, same, samePosted, indexAt_join_eq,
                  value, valuePosted]
      have ticked : (mine.tick thr).vW = (mine.tick thr).vR := by
        simp [Clocks.tick, same]
      have result := (tracks.setSO so contribution.1 contribution.2).setThr
        thr ticked (indexAt_tick_eq thr mine.vR)
      have alive : insert thr clocks.alive = clocks.alive :=
        Set.insert_eq_of_mem acting
      simpa [Causality.after, SyncOp.act, Causality.stamp, Causality.Act.thr,
        value, alive] using result
  | soRecv thr so isStrong =>
      simp only [AbsHb.step, Option.bind_eq_bind, Option.bind_eq_some_iff,
        Option.some.injEq] at allowed
      obtain ⟨mine, atThr, contents, atSO, rfl⟩ := allowed
      have event : abs.eventClocks (.soRecv thr so isStrong) =
          some (received mine contents isStrong) := by
        simp [eventClocks, atThr, atSO]
      obtain ⟨same, value⟩ := tracks.stamp strong event
      have result := tracks.setThr thr same value
      have alive : insert thr clocks.alive = clocks.alive :=
        Set.insert_eq_of_mem acting
      simpa [Causality.after, SyncOp.act, alive] using result

end Step

end AbsHb

namespace Hb

section Runs

open VtsTab

variable {hb hb' : Hb} {others : Multiset Nat} {abs abs' : AbsHb}

/-- An operation that returns was allowed. -/
theorem Refines.allowed_of_ok (refines : hb.Refines others abs)
    {op : SyncOp} (returned : hb.step op = .ok hb') :
    ∃ abs', abs.step op = some abs' := by
  have known : ∀ {thr record}, hb.getThr thr = .ok record →
      ∃ clocks, abs.thrs thr = some clocks := by
    intro thr record found
    cases atThr : abs.thrs thr with
    | none => simp [getThr, refines.thrs.of_none atThr] at found
    | some clocks => exact ⟨clocks, rfl⟩
  have live : ∀ {so record}, hb.getSO so = .ok record →
      ∃ contents, abs.sos so = some contents := by
    intro so record found
    cases atSO : abs.sos so with
    | none => simp [getSO, refines.sos.of_none atSO] at found
    | some contents => exact ⟨contents, rfl⟩
  have fresh : ∀ {addr done}, hb.zalloc addr = .ok done →
      abs.unused addr = true := by
    intro addr done found
    unfold Hb.zalloc at found
    split at found
    · rename_i absent
      simp [AbsHb.unused, refines.thrs.of_unbound absent.1,
        refines.sos.of_unbound absent.2]
    · cases found
  cases op with
  | create thr child =>
      obtain ⟨_, found, rest⟩ := bind_eq_ok.mp returned
      obtain ⟨_, allocated, _⟩ := bind_eq_ok.mp rest
      obtain ⟨clocks, atThr⟩ := known found
      simp [AbsHb.step, atThr, fresh allocated]
  | soAlloc thr so =>
      obtain ⟨_, found, rest⟩ := bind_eq_ok.mp returned
      obtain ⟨_, allocated, _⟩ := bind_eq_ok.mp rest
      obtain ⟨clocks, atThr⟩ := known found
      simp [AbsHb.step, atThr, fresh allocated]
  | soDealloc thr so =>
      obtain ⟨_, found, rest⟩ := bind_eq_ok.mp returned
      obtain ⟨_, foundSO, _⟩ := bind_eq_ok.mp rest
      obtain ⟨clocks, atThr⟩ := known found
      obtain ⟨contents, atSO⟩ := live foundSO
      simp [AbsHb.step, atThr, atSO]
  | soSend thr so strong =>
      obtain ⟨_, found, rest⟩ := bind_eq_ok.mp returned
      obtain ⟨_, foundSO, _⟩ := bind_eq_ok.mp rest
      obtain ⟨clocks, atThr⟩ := known found
      obtain ⟨contents, atSO⟩ := live foundSO
      simp [AbsHb.step, atThr, atSO]
  | soRecv thr so strong =>
      obtain ⟨_, found, rest⟩ := bind_eq_ok.mp returned
      obtain ⟨_, foundSO, _⟩ := bind_eq_ok.mp rest
      obtain ⟨clocks, atThr⟩ := known found
      obtain ⟨contents, atSO⟩ := live foundSO
      simp [AbsHb.step, atThr, atSO]

/-- The ids at an event denote the clocks of the event. -/
theorem eventThr_returns (refines : hb.Refines others abs)
    (refines' : hb'.Refines others abs') {op : SyncOp}
    (allowed : abs.step op = some abs')
    (grown : VtsTab.Extends hb.tab hb'.tab) :
    Returns (eventThr hb hb' op) (fun thr =>
      ∃ clocks, abs.eventClocks op = some clocks ∧
        hb'.tab.Denotes thr.viR thr.viW clocks) := by
  have earlier : ∀ {thr clocks}, abs.thrs thr = some clocks →
      Returns (hb.getThr thr) (fun record =>
        ∃ clocks, abs.thrs thr = some clocks ∧
          hb'.tab.Denotes record.viR record.viW clocks) := by
    intro thr clocks atThr
    obtain ⟨record, bound, denotes⟩ := refines.thrs.of_some atThr
    exact ⟨record, getThr_of bound, clocks, atThr, denotes.mono grown⟩
  cases op with
  | soRecv thr so strong =>
      simp only [AbsHb.step, Option.bind_eq_bind, Option.bind_eq_some_iff,
        Option.some.injEq] at allowed
      obtain ⟨clocks, atThr, contents, atSO, rfl⟩ := allowed
      have atThr' : (abs.setThr thr
          (AbsHb.received clocks contents strong)).thrs thr =
          some (AbsHb.received clocks contents strong) := by
        simp [AbsHb.setThr]
      obtain ⟨record, bound, denotes⟩ := refines'.thrs.of_some atThr'
      refine ⟨record, getThr_of bound, _, ?_, denotes⟩
      simp [AbsHb.eventClocks, atThr, atSO]
  | create thr child =>
      obtain ⟨clocks, atThr, _⟩ := Option.bind_eq_some_iff.mp allowed
      exact earlier atThr
  | soAlloc thr so =>
      obtain ⟨clocks, atThr, _⟩ := Option.bind_eq_some_iff.mp allowed
      exact earlier atThr
  | soDealloc thr so =>
      obtain ⟨clocks, atThr, _⟩ := Option.bind_eq_some_iff.mp allowed
      exact earlier atThr
  | soSend thr so strong =>
      obtain ⟨clocks, atThr, _⟩ := Option.bind_eq_some_iff.mp allowed
      exact earlier atThr

/-- What a run has established after `n` of its operations. -/
structure Logged (root : Nat) (ops : List SyncOp) (n : Nat)
    (acc : Hb × List Thr) : Prop where
  state : ∃ abs, acc.1.Refines 0 abs ∧
    abs.Tracks (Causality.clocksAt root (ops.map SyncOp.act) n)
  length : acc.2.length = n
  allowed : ∀ i op, i < n → ops[i]? = some op →
    Causality.Allowed (Causality.clocksAt root (ops.map SyncOp.act) i) op.act
  stamps : ∀ i thr, acc.2[i]? = some thr → ∃ vts : VTS,
    acc.1.tab.clock thr.viR = some vts ∧ acc.1.tab.clock thr.viW = some vts ∧
      vts.indexAt = Causality.stampAt root (ops.map SyncOp.act) i

theorem Logged.step {root n : Nat} {ops : List SyncOp}
    {acc next : Hb × List Thr} {op : SyncOp} (atN : ops[n]? = some op)
    (strong : op.isWeakRecv = false) (logged : Logged root ops n acc)
    (returned : logStep acc op = .ok next) : Logged root ops (n + 1) next := by
  obtain ⟨hb', stepped, rest⟩ := bind_eq_ok.mp returned
  obtain ⟨thr, atEvent, finish⟩ := bind_eq_ok.mp rest
  cases finish
  obtain ⟨abs, refines, tracks⟩ := logged.state
  obtain ⟨abs', allowed⟩ := refines.allowed_of_ok stepped
  obtain ⟨refines', grown⟩ := (step_simulates refines allowed).of_eq_ok stepped
  obtain ⟨clocks, event, denotes⟩ := (eventThr_returns refines refines' allowed
    grown).of_eq_ok atEvent
  have atActs : (ops.map SyncOp.act)[n]? = some op.act := by
    simp [atN]
  obtain ⟨same, value⟩ := tracks.stamp strong event
  refine ⟨⟨abs', refines', ?_⟩, ?_, ?_, ?_⟩
  · rw [Causality.clocksAt_succ atActs]
    exact tracks.step strong allowed
  · simp [logged.length]
  · intro i other before atI
    rcases Nat.lt_succ_iff_lt_or_eq.mp before with earlier | rfl
    · exact logged.allowed i other earlier atI
    · rw [atN] at atI
      cases atI
      exact tracks.allowed allowed
  · intro i entry atI
    rcases Nat.lt_or_ge i acc.2.length with earlier | notEarlier
    · rw [List.getElem?_append_left earlier] at atI
      obtain ⟨vts, read, write, stamp⟩ := logged.stamps i entry atI
      exact ⟨vts, grown _ _ read, grown _ _ write, stamp⟩
    · obtain ⟨inside, found⟩ := List.getElem?_eq_some_iff.mp atI
      have atEnd : i = n := by
        simp only [List.length_append, List.length_singleton] at inside
        have length := logged.length
        omega
      subst atEnd
      have isLast : entry = thr := by
        rw [List.getElem?_append_right notEarlier, logged.length] at atI
        simpa using atI.symm
      subst isLast
      refine ⟨clocks.vR, denotes.read, ?_, ?_⟩
      · rw [← same]
        exact denotes.write
      · rw [value, Causality.stampAt_of atActs]

private theorem runLogged_logged {root : Nat} {ops : List SyncOp}
    {final : Hb × List Thr}
    (strong : ∀ op ∈ ops, op.isWeakRecv = false)
    (finished : runLogged root ops = .ok final) :
    Logged root ops ops.length final := by
  obtain ⟨hb, started, rest⟩ := bind_eq_ok.mp finished
  have refines := (Refines.init root).of_eq_ok started
  refine @foldlM_eq_ok_invariant _ _ _ _ (Logged root ops) _ _ _ ?_ ?_ rest
  · intro n state next op atN logged returned
    exact logged.step atN (strong op (List.mem_of_getElem? atN)) returned
  · refine ⟨⟨_, refines, AbsHb.Tracks.init root⟩, rfl, ?_, ?_⟩
    · intro i op before
      omega
    · intro i thr atI
      simp at atI

/-- Vector clocks decide happens-before exactly, by the ids of the read
clocks as well as by those of the write clocks. -/
theorem getOrdering_isLeq_iff_happensBefore {root : Nat} {ops : List SyncOp}
    {hb : Hb} {log : List Thr}
    (strong : ∀ op ∈ ops, op.isWeakRecv = false)
    (finished : runLogged root ops = .ok (hb, log))
    {i j : Nat} {x y : SyncOp} {vx vy : Thr}
    (atI : ops[i]? = some x) (atJ : ops[j]? = some y)
    (different : x.thr ≠ y.thr)
    (clockX : log[i]? = some vx) (clockY : log[j]? = some vy) :
    Returns (hb.tab.getOrdering vx.viR vy.viR) (fun result =>
      result.2.isLeq = true ↔
        Causality.HappensBefore (ops.map SyncOp.act) i j) ∧
    Returns (hb.tab.getOrdering vx.viW vy.viW) (fun result =>
      result.2.isLeq = true ↔
        Causality.HappensBefore (ops.map SyncOp.act) i j) := by
  have logged := runLogged_logged strong finished
  have legal : Causality.Legal root (ops.map SyncOp.act) := by
    intro n act atN
    obtain ⟨op, atOp, rfl⟩ : ∃ op, ops[n]? = some op ∧ op.act = act := by
      simpa using atN
    exact logged.allowed n op (List.getElem?_eq_some_iff.mp atOp).1 atOp
  obtain ⟨v, readX, writeX, stampX⟩ := logged.stamps i vx clockX
  obtain ⟨w, readY, writeY, stampY⟩ := logged.stamps j vy clockY
  have decides : (v.cmp w).isLeq = true ↔
      Causality.HappensBefore (ops.map SyncOp.act) i j := by
    have actI : (ops.map SyncOp.act)[i]? = some x.act := by simp [atI]
    have actJ : (ops.map SyncOp.act)[j]? = some y.act := by simp [atJ]
    have ordered := legal.stampAt_le_iff actI actJ
      (by simpa [SyncOp.act_thr] using different)
    rw [VTS.cmp_isLeq_iff, VTS.le_iff, stampX, stampY]
    exact ordered
  obtain ⟨abs, refines, _⟩ := logged.state
  constructor
  · apply (getOrdering_returns refines.counted readX readY).mono
    rintro ⟨tab, ord⟩ ⟨_, _, verdict⟩
    dsimp only at verdict
    rw [verdict]
    exact decides
  · apply (getOrdering_returns refines.counted writeX writeY).mono
    rintro ⟨tab, ord⟩ ⟨_, _, verdict⟩
    dsimp only at verdict
    rw [verdict]
    exact decides

/-- Thread 1 sends and thread 2 receives; the ids are 2 and 4. -/
theorem getOrdering_isLeq_iff_happensBefore_send_recv :
    ∃ hb log, runLogged 1 [.create 1 2, .soAlloc 1 10, .soSend 1 10 true,
        .soRecv 2 10 true] = .ok (hb, log) ∧
      Returns (hb.tab.getOrdering 2 4) (fun result =>
        result.2.isLeq = true ↔ Causality.HappensBefore
          (List.map SyncOp.act [.create 1 2, .soAlloc 1 10,
            .soSend 1 10 true, .soRecv 2 10 true]) 2 3) := by
  have ran : (runLogged 1 [.create 1 2, .soAlloc 1 10, .soSend 1 10 true,
      .soRecv 2 10 true]).toOption.map Prod.snd =
      some [⟨0, 0⟩, ⟨2, 2⟩, ⟨2, 2⟩, ⟨4, 4⟩] := by decide
  obtain ⟨⟨hb, log⟩, finished, rfl⟩ := exists_ok_of_map ran
  refine ⟨hb, _, finished, ?_⟩
  have strong : ∀ op ∈ [SyncOp.create 1 2, .soAlloc 1 10, .soSend 1 10 true,
      .soRecv 2 10 true], op.isWeakRecv = false := by decide
  exact (getOrdering_isLeq_iff_happensBefore strong finished (i := 2) (j := 3)
    (x := .soSend 1 10 true) (y := .soRecv 2 10 true) rfl rfl (by decide)
    rfl rfl).1

end Runs

end Hb
end HelgrindPlus
