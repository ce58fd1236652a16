import Mathlib.Data.Nat.Find
import Mathlib.Data.Set.Insert
import Mathlib.Logic.Function.Basic
import Mathlib.Logic.Relation
import Mathlib.Order.MinMax
import Mathlib.Tactic.Common

/-!
# Vector clocks over threads and channels

Threads fork other threads, post their clock to a channel, take the clock of
a channel, clear a channel, or do something else.  A strong post replaces the
contents of the channel and a weak post is joined to it.  The main result is
that the clocks so obtained order two events of different threads exactly
when one happens before the other.

`HappensBefore` is defined from the list of actions alone.  The proof gives
every thread and every channel the set of events that happened before its
current state, and shows that a holder's clock knows an event's own component
exactly when the event is in that set.
-/

namespace Causality

inductive Act (Thr Chan : Type) where
  | fork (parent child : Thr)
  | post (thr : Thr) (chan : Chan) (strong : Bool)
  | take (thr : Thr) (chan : Chan)
  | clear (thr : Thr) (chan : Chan)
  | step (thr : Thr)

section Definitions

variable {Thr Chan : Type}

/-- The thread that performs an action. -/
def Act.thr : Act Thr Chan → Thr
  | .fork parent _ => parent
  | .post thr _ _ | .take thr _ | .clear thr _ | .step thr => thr

/-- The actions after which nothing posted to `chan` before is left. -/
def Act.Overwrites (chan : Chan) : Act Thr Chan → Prop
  | .post _ target strong => target = chan ∧ strong = true
  | .clear _ target => target = chan
  | .fork _ _ | .take _ _ | .step _ => False

/-- The edges that generate happens-before, between positions of a run. -/
inductive Edge (acts : List (Act Thr Chan)) : ℕ → ℕ → Prop where
  | program {i j : ℕ} {first second : Act Thr Chan}
      (before : i < j) (atFirst : acts[i]? = some first)
      (atSecond : acts[j]? = some second)
      (sameThread : first.thr = second.thr) : Edge acts i j
  | fork {i j : ℕ} {parent child : Thr} {second : Act Thr Chan}
      (before : i < j) (atFirst : acts[i]? = some (.fork parent child))
      (atSecond : acts[j]? = some second) (byChild : second.thr = child)
      (firstEvent : ∀ k act, k < j → acts[k]? = some act →
        act.thr ≠ child) : Edge acts i j
  | message {i j : ℕ} {sender receiver : Thr} {chan : Chan} {strong : Bool}
      (before : i < j) (atFirst : acts[i]? = some (.post sender chan strong))
      (atSecond : acts[j]? = some (.take receiver chan))
      (kept : ∀ k act, i < k → k < j → acts[k]? = some act →
        ¬ act.Overwrites chan) : Edge acts i j

def HappensBefore (acts : List (Act Thr Chan)) : ℕ → ℕ → Prop :=
  Relation.TransGen (Edge acts)

abbrev Clock (Thr : Type) := Thr → ℕ

structure Clocks (Thr Chan : Type) where
  alive : Set Thr
  thr : Thr → Clock Thr
  chan : Chan → Clock Thr

def join (left right : Clock Thr) : Clock Thr :=
  fun thr => max (left thr) (right thr)

variable [DecidableEq Thr] [DecidableEq Chan]

def tick (thr : Thr) (clock : Clock Thr) : Clock Thr :=
  Function.update clock thr (clock thr + 1)

def init (root : Thr) : Clocks Thr Chan where
  alive := {root}
  thr := fun thr => if thr = root then tick root (fun _ => 0) else fun _ => 0
  chan := fun _ _ => 0

/-- The clock of an event: what its thread knows once the event has taken in
the contents of a channel, and before the thread moves on. -/
def stamp (clocks : Clocks Thr Chan) : Act Thr Chan → Clock Thr
  | .take thr chan => join (clocks.thr thr) (clocks.chan chan)
  | act => clocks.thr act.thr

def after (clocks : Clocks Thr Chan) (act : Act Thr Chan) :
    Clocks Thr Chan :=
  let base := stamp clocks act
  match act with
  | .fork parent child =>
      { clocks with
        alive := insert child clocks.alive
        thr := Function.update
          (Function.update clocks.thr child (tick child base))
          parent (tick parent base) }
  | .post thr chan strong =>
      { clocks with
        thr := Function.update clocks.thr thr (tick thr base)
        chan := Function.update clocks.chan chan
          (if strong then base else join (clocks.chan chan) base) }
  | .take thr _ =>
      { clocks with thr := Function.update clocks.thr thr base }
  | .clear _ chan =>
      { clocks with chan := Function.update clocks.chan chan (fun _ => 0) }
  | .step _ => clocks

/-- Only threads that exist act, and a forked thread is new. -/
def Allowed (clocks : Clocks Thr Chan) (act : Act Thr Chan) : Prop :=
  act.thr ∈ clocks.alive ∧
    ∀ parent child, act = .fork parent child → child ∉ clocks.alive

def clocksAt (root : Thr) (acts : List (Act Thr Chan)) (n : ℕ) :
    Clocks Thr Chan :=
  (acts.take n).foldl after (init root)

def stampAt (root : Thr) (acts : List (Act Thr Chan)) (n : ℕ) : Clock Thr :=
  match acts[n]? with
  | some act => stamp (clocksAt root acts n) act
  | none => fun _ => 0

def Legal (root : Thr) (acts : List (Act Thr Chan)) : Prop :=
  ∀ n act, acts[n]? = some act → Allowed (clocksAt root acts n) act

end Definitions

section Past

variable {Thr Chan : Type} {acts : List (Act Thr Chan)}

theorem Edge.lt {i j : ℕ} (edge : Edge acts i j) : i < j := by
  cases edge with
  | program before => exact before
  | fork before => exact before
  | message before => exact before

theorem HappensBefore.lt {i j : ℕ} (ordered : HappensBefore acts i j) :
    i < j := by
  induction ordered with
  | single edge => exact edge.lt
  | tail _ edge induction => exact Nat.lt_trans induction edge.lt

/-- The event `i` is `e` or happens before it. -/
def UpTo (acts : List (Act Thr Chan)) (i e : ℕ) : Prop :=
  i = e ∨ HappensBefore acts i e

private theorem happensBefore_iff {i j : ℕ} :
    HappensBefore acts i j ↔ ∃ e, UpTo acts i e ∧ Edge acts e j := by
  constructor
  · intro ordered
    cases ordered with
    | single edge => exact ⟨i, .inl rfl, edge⟩
    | tail ordered edge => exact ⟨_, .inr ordered, edge⟩
  · rintro ⟨e, upTo, edge⟩
    rcases upTo with rfl | ordered
    · exact Relation.TransGen.single edge
    · exact Relation.TransGen.tail ordered edge

/-- The event `e` belongs to `thr` or forked it. -/
def Feeds (acts : List (Act Thr Chan)) (thr : Thr) (e : ℕ) : Prop :=
  ∃ act, acts[e]? = some act ∧
    (act.thr = thr ∨ ∃ parent, act = .fork parent thr)

/-- What happened before the state of a thread after `n` actions. -/
def thrPast (acts : List (Act Thr Chan)) (n : ℕ) (thr : Thr) : Set ℕ :=
  { i | ∃ e < n, Feeds acts thr e ∧ UpTo acts i e }

/-- The post `e` is still in `chan` after `n` actions. -/
def Posted (acts : List (Act Thr Chan)) (n : ℕ) (chan : Chan) (e : ℕ) :
    Prop :=
  (∃ thr strong, acts[e]? = some (.post thr chan strong)) ∧
    ∀ k act, e < k → k < n → acts[k]? = some act → ¬ act.Overwrites chan

def chanPast (acts : List (Act Thr Chan)) (n : ℕ) (chan : Chan) : Set ℕ :=
  { i | ∃ e < n, Posted acts n chan e ∧ UpTo acts i e }

/-- The past of the event `n`, the event included. -/
def eventPast (acts : List (Act Thr Chan)) (n : ℕ) : Set ℕ :=
  { i | UpTo acts i n }

theorem upTo_of_upTo_of_happensBefore {i e n : ℕ} (first : UpTo acts i e)
    (second : HappensBefore acts e n) : HappensBefore acts i n := by
  rcases first with rfl | ordered
  · exact second
  · exact Relation.TransGen.trans ordered second

private theorem thrPast_succ_of_feeds {n : ℕ} {thr : Thr}
    (feeds : Feeds acts thr n)
    (covered : thrPast acts n thr ⊆ eventPast acts n) :
    thrPast acts (n + 1) thr = eventPast acts n := by
  ext i
  constructor
  · rintro ⟨e, before, fed, upTo⟩
    rcases Nat.lt_succ_iff_lt_or_eq.mp before with earlier | rfl
    · exact covered ⟨e, earlier, fed, upTo⟩
    · exact upTo
  · intro upTo
    exact ⟨n, Nat.lt_succ_self n, feeds, upTo⟩

private theorem thrPast_succ_of_not_feeds {n : ℕ} {thr : Thr}
    (foreign : ¬ Feeds acts thr n) :
    thrPast acts (n + 1) thr = thrPast acts n thr := by
  ext i
  constructor
  · rintro ⟨e, before, fed, upTo⟩
    rcases Nat.lt_succ_iff_lt_or_eq.mp before with earlier | rfl
    · exact ⟨e, earlier, fed, upTo⟩
    · exact absurd fed foreign
  · rintro ⟨e, before, fed, upTo⟩
    exact ⟨e, Nat.lt_succ_of_lt before, fed, upTo⟩

theorem Posted.succ_iff {n : ℕ} {act : Act Thr Chan} {chan : Chan}
    (atN : acts[n]? = some act) {e : ℕ} (before : e < n) :
    Posted acts (n + 1) chan e ↔
      Posted acts n chan e ∧ ¬ act.Overwrites chan := by
  constructor
  · rintro ⟨sent, kept⟩
    refine ⟨⟨sent, ?_⟩, kept n act before (Nat.lt_succ_self n) atN⟩
    exact fun k other above below =>
      kept k other above (Nat.lt_succ_of_lt below)
  · rintro ⟨⟨sent, kept⟩, notNow⟩
    refine ⟨sent, ?_⟩
    intro k other above below atK
    rcases Nat.lt_succ_iff_lt_or_eq.mp below with earlier | rfl
    · exact kept k other above earlier atK
    · rw [atN] at atK
      cases atK
      exact notNow

/-- The posts in a channel after one more action. -/
theorem mem_chanPast_succ {n : ℕ} {act : Act Thr Chan} {chan : Chan}
    (atN : acts[n]? = some act) {i : ℕ} :
    i ∈ chanPast acts (n + 1) chan ↔
      (i ∈ chanPast acts n chan ∧ ¬ act.Overwrites chan) ∨
        ((∃ thr strong, act = .post thr chan strong) ∧
          i ∈ eventPast acts n) := by
  constructor
  · rintro ⟨e, before, posted, upTo⟩
    rcases Nat.lt_succ_iff_lt_or_eq.mp before with earlier | rfl
    · obtain ⟨old, notNow⟩ := (Posted.succ_iff atN earlier).mp posted
      exact .inl ⟨⟨e, earlier, old, upTo⟩, notNow⟩
    · obtain ⟨⟨thr, strong, atE⟩, _⟩ := posted
      rw [atN] at atE
      cases atE
      exact .inr ⟨⟨thr, strong, rfl⟩, upTo⟩
  · rintro (⟨⟨e, before, posted, upTo⟩, notNow⟩ |
      ⟨⟨thr, strong, rfl⟩, upTo⟩)
    · exact ⟨e, Nat.lt_succ_of_lt before,
        (Posted.succ_iff atN before).mpr ⟨posted, notNow⟩, upTo⟩
    · refine ⟨n, Nat.lt_succ_self n, ⟨⟨thr, strong, atN⟩, ?_⟩, upTo⟩
      intro k other above below
      omega

/-- What anybody but `thr` knows of `thr` lags behind its own component. -/
def Lags (clocks : Clocks Thr Chan) (value : Clock Thr) (thr : Thr) : Prop :=
  (thr ∈ clocks.alive → value thr < clocks.thr thr thr) ∧
    (thr ∉ clocks.alive → value thr = 0)

theorem Lags.mono {clocks next : Clocks Thr Chan} {value : Clock Thr}
    {thr : Thr} (lags : Lags clocks value thr)
    (survive : clocks.alive ⊆ next.alive)
    (advance : thr ∈ clocks.alive → clocks.thr thr thr ≤ next.thr thr thr)
    (own : thr ∈ next.alive → 0 < next.thr thr thr) :
    Lags next value thr := by
  constructor
  · intro alive
    by_cases old : thr ∈ clocks.alive
    · exact Nat.lt_of_lt_of_le (lags.1 old) (advance old)
    · rw [lags.2 old]
      exact own alive
  · intro dead
    exact lags.2 (fun old => dead (survive old))

theorem Lags.join {clocks : Clocks Thr Chan} {left right : Clock Thr}
    {thr : Thr} (first : Lags clocks left thr)
    (second : Lags clocks right thr) :
    Lags clocks (join left right) thr := by
  constructor
  · intro alive
    exact Nat.max_lt.mpr ⟨first.1 alive, second.1 alive⟩
  · intro dead
    simp [Causality.join, first.2 dead, second.2 dead]

private theorem mem_eventPast_of_sameThread {n : ℕ} {act : Act Thr Chan}
    (atN : acts[n]? = some act) {i : ℕ} {event : Act Thr Chan}
    (before : i < n + 1) (atI : acts[i]? = some event)
    (sameThread : event.thr = act.thr) : i ∈ eventPast acts n := by
  rcases Nat.lt_succ_iff_lt_or_eq.mp before with earlier | rfl
  · exact .inr (Relation.TransGen.single
      (.program earlier atI atN sameThread))
  · exact .inl rfl

end Past

section Runs

variable {Thr Chan : Type} [DecidableEq Thr] [DecidableEq Chan]
  {root : Thr} {acts : List (Act Thr Chan)}

theorem clocksAt_succ {n : ℕ} {act : Act Thr Chan}
    (atN : acts[n]? = some act) :
    clocksAt root acts (n + 1) = after (clocksAt root acts n) act := by
  simp [clocksAt, List.take_add_one, atN]

theorem stampAt_of {n : ℕ} {act : Act Thr Chan}
    (atN : acts[n]? = some act) :
    stampAt root acts n = stamp (clocksAt root acts n) act := by
  simp [stampAt, atN]

theorem alive_after (clocks : Clocks Thr Chan) (act : Act Thr Chan) :
    clocks.alive ⊆ (after clocks act).alive := by
  cases act with
  | fork parent child => exact Set.subset_insert _ _
  | post thr chan strong => exact Set.Subset.refl _
  | take thr chan => exact Set.Subset.refl _
  | clear thr chan => exact Set.Subset.refl _
  | step thr => exact Set.Subset.refl _

theorem alive_mono {m n : ℕ} (before : m ≤ n) :
    (clocksAt root acts m).alive ⊆ (clocksAt root acts n).alive := by
  induction n, before using Nat.le_induction with
  | base => exact Set.Subset.refl _
  | succ n _ induction =>
      cases atN : acts[n]? with
      | none =>
          simpa [clocksAt, List.take_add_one, atN] using induction
      | some act =>
          rw [clocksAt_succ atN]
          exact induction.trans (alive_after _ act)

/-- A thread forked at position `n` has no events up to there. -/
theorem Legal.no_events_before_fork {n : ℕ} {parent child : Thr}
    (legal : Legal root acts) (atN : acts[n]? = some (.fork parent child))
    {i : ℕ} {act : Act Thr Chan} (upTo : i ≤ n)
    (atI : acts[i]? = some act) : act.thr ≠ child := by
  intro same
  have fresh := (legal n _ atN).2 parent child rfl
  have alive := (legal i act atI).1
  rw [same] at alive
  exact fresh (alive_mono upTo alive)

theorem Legal.feeds_upTo {n : ℕ} {act : Act Thr Chan}
    (legal : Legal root acts) (atN : acts[n]? = some act) {e : ℕ}
    (before : e < n) (feeds : Feeds acts act.thr e) :
    HappensBefore acts e n := by
  classical
  obtain ⟨source, atE, byThread | ⟨parent, forked⟩⟩ := feeds
  · exact Relation.TransGen.single (.program before atE atN byThread)
  · subst forked
    -- The edge goes to the first event of the child, which may precede `n`.
    have exists_event : ∃ k, ∃ event : Act Thr Chan,
        acts[k]? = some event ∧ event.thr = act.thr := ⟨n, act, atN, rfl⟩
    obtain ⟨event, atFirst, byChild⟩ := Nat.find_spec exists_event
    have minimal : ∀ k other, k < Nat.find exists_event →
        acts[k]? = some other → other.thr ≠ act.thr :=
      fun k other earlier atK same =>
        Nat.find_min exists_event earlier ⟨other, atK, same⟩
    have later : e < Nat.find exists_event := by
      by_contra notLater
      exact legal.no_events_before_fork atE (Nat.not_lt.mp notLater) atFirst
        byChild
    have entry : HappensBefore acts e (Nat.find exists_event) :=
      Relation.TransGen.single (.fork later atE atFirst byChild minimal)
    have bound : Nat.find exists_event ≤ n :=
      Nat.find_min' exists_event ⟨act, atN, rfl⟩
    rcases Nat.lt_or_eq_of_le bound with earlier | same
    · exact Relation.TransGen.tail entry
        (.program earlier atFirst atN byChild)
    · rwa [same] at entry

/-- The past of an event, from the pasts of its thread and of the channel it
takes from. -/
theorem Legal.happensBefore_iff_past {n : ℕ} {act : Act Thr Chan}
    (legal : Legal root acts) (atN : acts[n]? = some act) {i : ℕ} :
    HappensBefore acts i n ↔ i ∈ thrPast acts n act.thr ∨
      ∃ thr chan, act = .take thr chan ∧ i ∈ chanPast acts n chan := by
  constructor
  · intro ordered
    obtain ⟨e, upTo, edge⟩ := happensBefore_iff.mp ordered
    cases edge with
    | program before atFirst atSecond sameThread =>
        rw [atN] at atSecond
        cases atSecond
        exact .inl ⟨e, before, ⟨_, atFirst, .inl sameThread⟩, upTo⟩
    | fork before atFirst atSecond byChild firstEvent =>
        rw [atN] at atSecond
        cases atSecond
        exact .inl ⟨e, before, ⟨_, atFirst, .inr ⟨_, by rw [byChild]⟩⟩, upTo⟩
    | message before atFirst atSecond kept =>
        rw [atN] at atSecond
        cases atSecond
        exact .inr ⟨_, _, rfl, e, before, ⟨⟨_, _, atFirst⟩, kept⟩, upTo⟩
  · rintro (⟨e, before, feeds, upTo⟩ |
      ⟨thr, chan, rfl, e, before, ⟨⟨sender, strong, atE⟩, kept⟩, upTo⟩)
    · exact upTo_of_upTo_of_happensBefore upTo
        (legal.feeds_upTo atN before feeds)
    · exact upTo_of_upTo_of_happensBefore upTo
        (Relation.TransGen.single (.message before atE atN kept))

/-- A holder's clock knows the own component of an event exactly when the
event is in the holder's past. -/
structure Knows (root : Thr) (acts : List (Act Thr Chan)) (n : ℕ)
    (value : Clock Thr) (past : Set ℕ) : Prop where
  sound : ∀ i ∈ past, ∀ thr, stampAt root acts i thr ≤ value thr
  complete : ∀ i act, i < n → acts[i]? = some act →
    stampAt root acts i act.thr ≤ value act.thr → i ∈ past

structure Invariant (root : Thr) (acts : List (Act Thr Chan)) (n : ℕ)
    (clocks : Clocks Thr Chan) : Prop where
  own : ∀ thr ∈ clocks.alive, 0 < clocks.thr thr thr
  stamped : ∀ i act, i < n → acts[i]? = some act →
    0 < stampAt root acts i act.thr
  thrKnows : ∀ thr ∈ clocks.alive,
    Knows root acts n (clocks.thr thr) (thrPast acts n thr)
  chanKnows : ∀ chan,
    Knows root acts n (clocks.chan chan) (chanPast acts n chan)
  thrLags : ∀ thr ∈ clocks.alive, ∀ other, other ≠ thr →
    Lags clocks (clocks.thr thr) other
  chanLags : ∀ chan other, Lags clocks (clocks.chan chan) other

theorem Knows.join {n : ℕ} {left right : Clock Thr}
    {leftPast rightPast : Set ℕ}
    (first : Knows root acts n left leftPast)
    (second : Knows root acts n right rightPast) :
    Knows root acts n (join left right) (leftPast ∪ rightPast) := by
  constructor
  · rintro i (inLeft | inRight) thr
    · exact Nat.le_trans (first.sound i inLeft thr) (Nat.le_max_left _ _)
    · exact Nat.le_trans (second.sound i inRight thr) (Nat.le_max_right _ _)
  · intro i act before atI known
    rcases le_max_iff.mp known with knownLeft | knownRight
    · exact .inl (first.complete i act before atI knownLeft)
    · exact .inr (second.complete i act before atI knownRight)

theorem Knows.tick {n : ℕ} {value : Clock Thr} {past : Set ℕ} {thr : Thr}
    (knows : Knows root acts n value past)
    (ownEvents : ∀ i act, i < n → acts[i]? = some act → act.thr = thr →
      i ∈ past) :
    Knows root acts n (tick thr value) past := by
  constructor
  · intro i inPast other
    have bound := knows.sound i inPast other
    by_cases same : other = thr
    · subst same
      simpa [Causality.tick] using Nat.le_succ_of_le bound
    · simpa [Causality.tick, same] using bound
  · intro i act before atI known
    by_cases same : act.thr = thr
    · exact ownEvents i act before atI same
    · exact knows.complete i act before atI
        (by simpa [Causality.tick, same] using known)

/-- The clock of the next event, with the facts from which the next state is
put together. -/
structure BaseFacts (root : Thr) (acts : List (Act Thr Chan)) (n : ℕ)
    (clocks : Clocks Thr Chan) (act : Act Thr Chan) : Prop where
  own : stamp clocks act act.thr = clocks.thr act.thr act.thr
  lags : ∀ other, other ≠ act.thr → Lags clocks (stamp clocks act) other
  knows : Knows root acts (n + 1) (stamp clocks act) (eventPast acts n)
  thread : thrPast acts n act.thr ⊆ eventPast acts n

theorem Invariant.baseFacts {n : ℕ} {act : Act Thr Chan}
    (legal : Legal root acts) (atN : acts[n]? = some act)
    (inv : Invariant root acts n (clocksAt root acts n)) :
    BaseFacts root acts n (clocksAt root acts n) act := by
  have alive := (legal n act atN).1
  have past := fun i => legal.happensBefore_iff_past atN (i := i)
  have threadKnows := inv.thrKnows act.thr alive
  have threadLags := inv.thrLags act.thr alive
  have stampHere := @stampAt_of Thr Chan _ _ root acts n act atN
  refine ⟨?_, ?_, ⟨?_, ?_⟩, ?_⟩
  · cases act with
    | take thr chan =>
        exact Nat.max_eq_left (Nat.le_of_lt ((inv.chanLags chan thr).1 alive))
    | fork => rfl
    | post => rfl
    | clear => rfl
    | step => rfl
  · intro other different
    cases act with
    | take thr chan =>
        exact (threadLags other different).join (inv.chanLags chan other)
    | fork => exact threadLags other different
    | post => exact threadLags other different
    | clear => exact threadLags other different
    | step => exact threadLags other different
  · rintro i (rfl | ordered) thr
    · rw [stampHere]
    · rcases (past i).mp ordered with inThread |
        ⟨taker, chan, rfl, inChan⟩
      · apply Nat.le_trans (threadKnows.sound i inThread thr)
        cases act with
        | take => exact Nat.le_max_left _ _
        | fork => exact Nat.le_refl _
        | post => exact Nat.le_refl _
        | clear => exact Nat.le_refl _
        | step => exact Nat.le_refl _
      · exact Nat.le_trans ((inv.chanKnows chan).sound i inChan thr)
          (Nat.le_max_right _ _)
  · intro i event before atI known
    rcases Nat.lt_succ_iff_lt_or_eq.mp before with earlier | rfl
    · apply Or.inr
      rw [past i]
      cases act with
      | take thr chan =>
          rcases le_max_iff.mp known with knownThread | knownChan
          · exact .inl (threadKnows.complete i event earlier atI knownThread)
          · exact .inr ⟨thr, chan, rfl,
              (inv.chanKnows chan).complete i event earlier atI knownChan⟩
      | fork => exact .inl (threadKnows.complete i event earlier atI known)
      | post => exact .inl (threadKnows.complete i event earlier atI known)
      | clear => exact .inl (threadKnows.complete i event earlier atI known)
      | step => exact .inl (threadKnows.complete i event earlier atI known)
    · exact .inl rfl
  · intro i inThread
    exact .inr ((past i).mpr (.inl inThread))

theorem Invariant.initially (root : Thr) (acts : List (Act Thr Chan)) :
    Invariant root acts 0 (init root) := by
  constructor
  · rintro thr rfl
    simp [init, tick]
  · intro i act before
    omega
  · intro thr _
    constructor
    · rintro i ⟨e, before, _⟩
      omega
    · intro i act before
      omega
  · intro chan
    constructor
    · rintro i ⟨e, before, _⟩
      omega
    · intro i act before
      omega
  · rintro thr rfl other different
    constructor
    · intro alive
      exact absurd alive different
    · intro _
      simp [init, tick, different]
  · intro chan other
    constructor
    · rintro rfl
      simp [init, tick]
    · intro _
      rfl

theorem Knows.succ {n : ℕ} {act : Act Thr Chan} {value : Clock Thr}
    {past : Set ℕ} (atN : acts[n]? = some act)
    (base : BaseFacts root acts n (clocksAt root acts n) act)
    (knows : Knows root acts n value past)
    (behind : value act.thr < (clocksAt root acts n).thr act.thr act.thr) :
    Knows root acts (n + 1) value past := by
  refine ⟨knows.sound, ?_⟩
  intro i event before atI known
  rcases Nat.lt_succ_iff_lt_or_eq.mp before with earlier | rfl
  · exact knows.complete i event earlier atI known
  · rw [atN] at atI
    cases atI
    rw [stampAt_of atN, base.own] at known
    omega

/-- Every other holder keeps its clock and its past over an action. -/
theorem Invariant.thrKnows_succ_of_foreign {n : ℕ} {act : Act Thr Chan}
    (inv : Invariant root acts n (clocksAt root acts n))
    (legal : Legal root acts) (atN : acts[n]? = some act) {thr : Thr}
    (alive : thr ∈ (clocksAt root acts n).alive)
    (foreign : thr ≠ act.thr) (notChild : ∀ parent, act ≠ .fork parent thr) :
    Knows root acts (n + 1) ((clocksAt root acts n).thr thr)
      (thrPast acts (n + 1) thr) := by
  have unfed : ¬ Feeds acts thr n := by
    rintro ⟨event, atN', same | ⟨parent, forked⟩⟩
    · rw [atN] at atN'
      cases atN'
      exact foreign same.symm
    · rw [atN] at atN'
      cases atN'
      exact notChild parent forked
  rw [thrPast_succ_of_not_feeds unfed]
  exact (inv.thrKnows thr alive).succ atN (inv.baseFacts legal atN)
    ((inv.thrLags thr alive act.thr (Ne.symm foreign)).1 (legal n act atN).1)

theorem Invariant.chanKnows_succ_of_foreign {n : ℕ} {act : Act Thr Chan}
    (inv : Invariant root acts n (clocksAt root acts n))
    (legal : Legal root acts) (atN : acts[n]? = some act) {chan : Chan}
    (notOverwritten : ¬ act.Overwrites chan)
    (notPosted : ∀ thr strong, act ≠ .post thr chan strong) :
    Knows root acts (n + 1) ((clocksAt root acts n).chan chan)
      (chanPast acts (n + 1) chan) := by
  have samePast : chanPast acts (n + 1) chan = chanPast acts n chan := by
    ext i
    rw [mem_chanPast_succ atN]
    constructor
    · rintro (⟨old, _⟩ | ⟨⟨thr, strong, posted⟩, _⟩)
      · exact old
      · exact absurd posted (notPosted thr strong)
    · exact fun old => .inl ⟨old, notOverwritten⟩
  rw [samePast]
  exact (inv.chanKnows chan).succ atN (inv.baseFacts legal atN)
    ((inv.chanLags chan act.thr).1 (legal n act atN).1)

/-- The acting thread, with or without a tick. -/
theorem BaseFacts.thrKnows {n : ℕ} {act : Act Thr Chan}
    (base : BaseFacts root acts n (clocksAt root acts n) act)
    (atN : acts[n]? = some act) :
    Knows root acts (n + 1) (stamp (clocksAt root acts n) act)
        (thrPast acts (n + 1) act.thr) ∧
      Knows root acts (n + 1)
        (tick act.thr (stamp (clocksAt root acts n) act))
        (thrPast acts (n + 1) act.thr) := by
  rw [thrPast_succ_of_feeds ⟨act, atN, .inl rfl⟩ base.thread]
  refine ⟨base.knows, base.knows.tick ?_⟩
  intro i event before atI same
  exact mem_eventPast_of_sameThread atN before atI same

/-- What an action can do to the state, read off `after` once. -/
structure Evolves (clocks next : Clocks Thr Chan) (act : Act Thr Chan) :
    Prop where
  survive : clocks.alive ⊆ next.alive
  acting : next.thr act.thr = stamp clocks act ∨
    next.thr act.thr = tick act.thr (stamp clocks act)
  others : ∀ thr ∈ next.alive, thr ≠ act.thr →
    (thr ∈ clocks.alive ∧ (∀ parent, act ≠ .fork parent thr) ∧
      next.thr thr = clocks.thr thr) ∨
    (thr ∉ clocks.alive ∧ (∃ parent, act = .fork parent thr) ∧
      next.thr thr = tick thr (stamp clocks act) ∧
      next.thr act.thr = tick act.thr (stamp clocks act))
  chans : ∀ chan,
    (next.chan chan = clocks.chan chan ∧ ¬ act.Overwrites chan ∧
      ∀ thr strong, act ≠ .post thr chan strong) ∨
    (next.chan chan = (fun _ => 0) ∧ act.Overwrites chan ∧
      ∀ thr strong, act ≠ .post thr chan strong) ∨
    ((∃ thr strong, act = .post thr chan strong) ∧
      next.thr act.thr = tick act.thr (stamp clocks act) ∧
      ((act.Overwrites chan ∧ next.chan chan = stamp clocks act) ∨
        (¬ act.Overwrites chan ∧
          next.chan chan = join (clocks.chan chan) (stamp clocks act))))

theorem Allowed.evolves {clocks : Clocks Thr Chan} {act : Act Thr Chan}
    (allowed : Allowed clocks act) :
    Evolves clocks (after clocks act) act := by
  cases act with
  | fork parent child =>
      have fresh := allowed.2 parent child rfl
      have parentAlive : parent ∈ clocks.alive := allowed.1
      refine ⟨Set.subset_insert _ _, ?_, ?_, ?_⟩
      · simp [after, Act.thr]
      · intro thr alive different
        have notParent : thr ≠ parent := different
        by_cases isChild : thr = child
        · subst isChild
          refine .inr ⟨fresh, ⟨parent, rfl⟩, ?_, ?_⟩
          · simp [after, notParent]
          · simp [after, Act.thr]
        · refine .inl ⟨?_, ?_, ?_⟩
          · exact (Set.mem_insert_iff.mp alive).resolve_left isChild
          · intro other same
            cases same
            exact isChild rfl
          · simp [after, notParent, isChild]
      · intro chan
        refine .inl ⟨rfl, id, ?_⟩
        intro thr strong impossible
        cases impossible
  | post thr target strong =>
      refine ⟨Set.Subset.refl _, ?_, ?_, ?_⟩
      · simp [after, Act.thr]
      · intro other alive different
        have notThr : other ≠ thr := different
        refine .inl ⟨alive, ?_, by simp [after, notThr]⟩
        intro parent impossible
        cases impossible
      · intro chan
        by_cases same : chan = target
        · subst same
          refine .inr (.inr ⟨⟨thr, strong, rfl⟩, by simp [after, Act.thr], ?_⟩)
          cases strong with
          | true => exact .inl ⟨⟨rfl, rfl⟩, by simp [after]⟩
          | false =>
              refine .inr ⟨?_, by simp [after]⟩
              rintro ⟨_, impossible⟩
              cases impossible
        · refine .inl ⟨by simp [after, same], ?_, ?_⟩
          · rintro ⟨equal, _⟩
            exact same equal.symm
          · intro other strong' equal
            cases equal
            exact same rfl
  | take thr source =>
      refine ⟨Set.Subset.refl _, .inl (by simp [after, Act.thr]), ?_, ?_⟩
      · intro other alive different
        have notThr : other ≠ thr := different
        refine .inl ⟨alive, ?_, by simp [after, notThr]⟩
        intro parent impossible
        cases impossible
      · intro chan
        refine .inl ⟨rfl, id, ?_⟩
        intro other strong impossible
        cases impossible
  | clear thr target =>
      refine ⟨Set.Subset.refl _, .inl rfl, ?_, ?_⟩
      · intro other alive _
        refine .inl ⟨alive, ?_, rfl⟩
        intro parent impossible
        cases impossible
      · intro chan
        have notPost : ∀ other strong,
            (Act.clear thr target : Act Thr Chan) ≠ .post other chan strong :=
          fun other strong impossible => by cases impossible
        by_cases same : chan = target
        · subst same
          exact .inr (.inl ⟨by simp [after], rfl, notPost⟩)
        · exact .inl ⟨by simp [after, same], fun equal => same equal.symm,
            notPost⟩
  | step thr =>
      refine ⟨Set.Subset.refl _, .inl rfl, ?_, ?_⟩
      · intro other alive _
        refine .inl ⟨alive, ?_, rfl⟩
        intro parent impossible
        cases impossible
      · intro chan
        refine .inl ⟨rfl, id, ?_⟩
        intro other strong impossible
        cases impossible

theorem tick_self (thr : Thr) (clock : Clock Thr) :
    tick thr clock thr = clock thr + 1 := by
  simp [tick]

private theorem tick_of_ne {thr other : Thr} (clock : Clock Thr)
    (different : other ≠ thr) : tick thr clock other = clock other := by
  simp [tick, different]

omit [DecidableEq Chan] in
theorem Lags.tick {clocks : Clocks Thr Chan} {value : Clock Thr}
    {thr other : Thr} (lags : Lags clocks value other)
    (different : other ≠ thr) : Lags clocks (tick thr value) other := by
  unfold Lags
  rw [tick_of_ne value different]
  exact lags

section Step

variable {n : ℕ} {act : Act Thr Chan} {next : Clocks Thr Chan}

/-- Own components are positive and never decrease. -/
theorem Evolves.own
    (evolves : Evolves (clocksAt root acts n) next act)
    (inv : Invariant root acts n (clocksAt root acts n))
    (base : BaseFacts root acts n (clocksAt root acts n) act)
    (actingAlive : act.thr ∈ (clocksAt root acts n).alive) :
    (∀ thr ∈ next.alive, 0 < next.thr thr thr) ∧
      ∀ thr ∈ (clocksAt root acts n).alive,
        (clocksAt root acts n).thr thr thr ≤ next.thr thr thr := by
  have acting : (clocksAt root acts n).thr act.thr act.thr ≤
      next.thr act.thr act.thr := by
    rcases evolves.acting with same | ticked
    · rw [same, base.own]
    · rw [ticked, tick_self, base.own]
      exact Nat.le_succ _
  constructor
  · intro thr alive
    by_cases isActing : thr = act.thr
    · subst isActing
      exact Nat.lt_of_lt_of_le (inv.own act.thr actingAlive) acting
    · rcases evolves.others thr alive isActing with ⟨old, _, same⟩ |
        ⟨_, _, ticked, _⟩
      · rw [same]
        exact inv.own thr old
      · rw [ticked, tick_self]
        exact Nat.succ_pos _
  · intro thr alive
    by_cases isActing : thr = act.thr
    · rw [isActing]
      exact acting
    · rcases evolves.others thr (evolves.survive alive) isActing with
        ⟨_, _, same⟩ | ⟨dead, _⟩
      · rw [same]
      · exact absurd alive dead

theorem Evolves.invariant
    (evolves : Evolves (clocksAt root acts n) next act)
    (legal : Legal root acts) (atN : acts[n]? = some act)
    (inv : Invariant root acts n (clocksAt root acts n)) :
    Invariant root acts (n + 1) next := by
  have base := inv.baseFacts legal atN
  have actingAlive := (legal n act atN).1
  obtain ⟨own, advance⟩ := evolves.own inv base actingAlive
  have later : ∀ {value : Clock Thr} {other : Thr},
      Lags (clocksAt root acts n) value other → Lags next value other :=
    fun lags => lags.mono evolves.survive (advance _) (own _)
  -- A clock equal to the stamp lags the acting thread once that has ticked.
  have baseLags : next.thr act.thr =
      tick act.thr (stamp (clocksAt root acts n) act) →
      ∀ other, Lags next (stamp (clocksAt root acts n) act) other := by
    intro ticked other
    by_cases isActing : other = act.thr
    · subst isActing
      refine ⟨fun _ => ?_, fun dead => absurd (evolves.survive actingAlive)
        dead⟩
      rw [ticked, tick_self]
      exact Nat.lt_succ_self _
    · exact later (base.lags other isActing)
  have stamped : ∀ i event, i < n + 1 → acts[i]? = some event →
      0 < stampAt root acts i event.thr := by
    intro i event before atI
    rcases Nat.lt_succ_iff_lt_or_eq.mp before with earlier | rfl
    · exact inv.stamped i event earlier atI
    · rw [atN] at atI
      cases atI
      rw [stampAt_of atN, base.own]
      exact inv.own act.thr actingAlive
  refine ⟨own, stamped, ?_, ?_, ?_, ?_⟩
  · intro thr alive
    by_cases isActing : thr = act.thr
    · subst isActing
      rcases evolves.acting with same | ticked
      · rw [same]
        exact (base.thrKnows atN).1
      · rw [ticked]
        exact (base.thrKnows atN).2
    · rcases evolves.others thr alive isActing with
        ⟨old, notChild, same⟩ | ⟨dead, ⟨parent, forked⟩, ticked, _⟩
      · rw [same]
        exact inv.thrKnows_succ_of_foreign legal atN old isActing notChild
      · subst forked
        -- The child has no events yet, so its past is that of the fork.
        have noEvents : ∀ i event, i < n + 1 → acts[i]? = some event →
            event.thr ≠ thr := fun i event before atI =>
          legal.no_events_before_fork atN (Nat.lt_succ_iff.mp before) atI
        have childPast : thrPast acts n thr ⊆ eventPast acts n := by
          rintro i ⟨e, before, ⟨event, atE, byChild | ⟨other, forked⟩⟩, upTo⟩
          · exact absurd byChild (noEvents e event (by omega) atE)
          · subst forked
            exfalso
            apply dead
            apply alive_mono (Nat.succ_le_of_lt before)
            rw [clocksAt_succ atE]
            exact Set.mem_insert _ _
        rw [ticked, thrPast_succ_of_feeds ⟨_, atN, .inr ⟨parent, rfl⟩⟩
          childPast]
        apply base.knows.tick
        intro i event before atI same
        exact absurd same (noEvents i event before atI)
  · intro chan
    rcases evolves.chans chan with ⟨same, kept, notPost⟩ |
      ⟨cleared, overwritten, notPost⟩ | ⟨posted, _, strongOrWeak⟩
    · rw [same]
      exact inv.chanKnows_succ_of_foreign legal atN kept notPost
    · rw [cleared]
      constructor
      · intro i member
        rcases (mem_chanPast_succ atN).mp member with ⟨_, kept⟩ |
          ⟨⟨thr, strong, posted⟩, _⟩
        · exact absurd overwritten kept
        · exact absurd posted (notPost thr strong)
      · intro i event before atI known
        -- An own component is positive, and a cleared channel knows none.
        exact absurd known
          (Nat.not_le_of_lt (stamped i event before atI))
    · rcases strongOrWeak with ⟨overwritten, value⟩ | ⟨kept, value⟩
      · have past : chanPast acts (n + 1) chan = eventPast acts n := by
          ext i
          rw [mem_chanPast_succ atN]
          simp only [overwritten, posted, not_true_eq_false, and_false,
            false_or, true_and]
        rw [value, past]
        exact base.knows
      · have past : chanPast acts (n + 1) chan =
            chanPast acts n chan ∪ eventPast acts n := by
          ext i
          rw [mem_chanPast_succ atN]
          simp only [kept, posted, not_false_eq_true, and_true, true_and,
            Set.mem_union]
        rw [value, past]
        exact ((inv.chanKnows chan).succ atN base
          ((inv.chanLags chan act.thr).1 actingAlive)).join base.knows
  · intro thr alive other different
    by_cases isActing : thr = act.thr
    · subst isActing
      have lags := later (base.lags other different)
      rcases evolves.acting with same | ticked
      · rw [same]
        exact lags
      · rw [ticked]
        exact lags.tick different
    · rcases evolves.others thr alive isActing with ⟨old, _, same⟩ |
        ⟨_, _, ticked, actingTicked⟩
      · rw [same]
        exact later (inv.thrLags thr old other different)
      · rw [ticked]
        exact (baseLags actingTicked other).tick different
  · intro chan other
    rcases evolves.chans chan with ⟨same, _⟩ | ⟨cleared, _⟩ |
      ⟨_, actingTicked, ⟨_, value⟩ | ⟨_, value⟩⟩
    · rw [same]
      exact later (inv.chanLags chan other)
    · rw [cleared]
      exact ⟨own other, fun _ => rfl⟩
    · rw [value]
      exact baseLags actingTicked other
    · rw [value]
      exact (later (inv.chanLags chan other)).join
        (baseLags actingTicked other)

end Step

theorem Legal.invariant (legal : Legal root acts) {n : ℕ}
    (inside : n ≤ acts.length) :
    Invariant root acts n (clocksAt root acts n) := by
  induction n with
  | zero => exact Invariant.initially root acts
  | succ n induction =>
      obtain ⟨act, atN⟩ : ∃ act, acts[n]? = some act :=
        ⟨_, List.getElem?_eq_getElem (by omega)⟩
      rw [clocksAt_succ atN]
      exact (legal n act atN).evolves.invariant legal atN
        (induction (by omega))

/-- For an earlier event the clocks decide, whichever its thread. -/
theorem Legal.stampAt_le_iff_of_lt (legal : Legal root acts) {i j : ℕ}
    {first second : Act Thr Chan} (before : i < j)
    (atI : acts[i]? = some first) (atJ : acts[j]? = some second) :
    (∀ thr, stampAt root acts i thr ≤ stampAt root acts j thr) ↔
      HappensBefore acts i j := by
  have insideJ := (List.getElem?_eq_some_iff.mp atJ).1
  have baseJ := (legal.invariant (Nat.le_of_lt insideJ)).baseFacts legal atJ
  constructor
  · intro below
    have known := below first.thr
    rw [stampAt_of atJ] at known
    rcases baseJ.knows.complete i first (by omega) atI known with
      rfl | ordered
    · omega
    · exact ordered
  · intro ordered thr
    rw [stampAt_of atJ]
    exact baseJ.knows.sound i (.inr ordered) thr

/-- Vector clocks decide happens-before between different threads. -/
theorem Legal.stampAt_le_iff (legal : Legal root acts) {i j : ℕ}
    {first second : Act Thr Chan} (atI : acts[i]? = some first)
    (atJ : acts[j]? = some second) (different : first.thr ≠ second.thr) :
    (∀ thr, stampAt root acts i thr ≤ stampAt root acts j thr) ↔
      HappensBefore acts i j := by
  constructor
  · intro below
    rcases Nat.lt_trichotomy i j with earlier | same | later
    · exact (legal.stampAt_le_iff_of_lt earlier atI atJ).mp below
    · subst same
      rw [atI] at atJ
      cases atJ
      exact absurd rfl different
    · -- An event is unknown to the other threads when it happens.
      have insideI := (List.getElem?_eq_some_iff.mp atI).1
      have invI := legal.invariant (Nat.le_of_lt insideI)
      have aliveJ := alive_mono (Nat.le_of_lt later) (legal j second atJ).1
      have aliveI := (legal i first atI).1
      have known := (invI.thrKnows second.thr aliveJ).sound j
        ⟨j, later, ⟨second, atJ, .inl rfl⟩, .inl rfl⟩ first.thr
      have behind := (invI.thrLags second.thr aliveJ first.thr different).1
        aliveI
      have ownI := (invI.baseFacts legal atI).own
      have bound := below first.thr
      rw [stampAt_of atI, ownI] at bound
      omega
  · intro ordered
    exact (legal.stampAt_le_iff_of_lt (HappensBefore.lt ordered) atI
      atJ).mpr ordered

end Runs

end Causality
