import HelgrindPlus.LibHB.VtsTab
import Mathlib.Data.Finset.Insert
import Mathlib.Data.Finset.Lattice.Basic
import Mathlib.Data.Option.Basic

/-!
# What the hybrid memory state machines share

The machines of `libhb_ukas_core.h` and `libhb_ukal_core.h` keep one clock and
a lockset for a location.  This module has what an access hands to them, what
they hand back, the two ways in which they move the clock of a thread, and
runs of accesses to one location.
-/

namespace HelgrindPlus

open Outcome

/-- An access as the machines see it, its clock apart.  A thread holds in
write mode only locks that it holds. -/
structure Access where
  thr : Nat
  isWrite : Bool
  atomic : Bool
  /-- The answer of `hg_loops_is_spin_reading`. -/
  spinReading : Bool
  /-- The answer of `HG_(onSpinRead)` or `HG_(onSpinWrite)`, and `False`
  without `--detect-mutex`. -/
  wasALock : Bool
  locksetA : Finset Nat
  locksetW : Finset Nat
  writeHeld : locksetW ⊆ locksetA
  deriving DecidableEq

namespace Access

/-- The callback `main_get_LockSet`. -/
def getLockSet (acc : Access) (allLocks : Bool) : Finset Nat :=
  if allLocks then acc.locksetA else acc.locksetW

/-- Neither atomic nor made in a spin loop. -/
structure Plain (acc : Access) : Prop where
  notAtomic : acc.atomic = false
  notSpinning : acc.spinReading = false

end Access

/-- What a machine function does besides its work on the table: a new `vid`
for the thread, if it assigns one, the new shadow value, and whether it called
`record_race_info`.  `V` is the type of clocks: ids, or timestamps. -/
structure MsmOut (V SV : Type) where
  vid : Option V
  svNew : SV
  raced : Bool
  deriving DecidableEq

namespace MsmOut

variable {V SV : Type}

def stay (svNew : SV) : MsmOut V SV := ⟨none, svNew, false⟩

def race (svNew : SV) : MsmOut V SV := ⟨none, svNew, true⟩

/-- Nothing is reported, and the new value satisfies `post`. -/
def Silent (post : SV → Prop) (out : MsmOut V SV) : Prop :=
  post out.svNew ∧ out.raced = false

end MsmOut

namespace VtsTab

/-- The clock of a thread is joined with the clock of a spin variable. -/
def spinJoin (tab : VtsTab) (tvid last : Nat) :
    Except Abort (VtsTab × Nat) := do
  let tab ← tab.rcdec tvid
  let (tab, vid) ← tab.join2 tvid last
  let tab ← tab.rcinc vid
  pure (tab, vid)

/-- The clock of a thread that writes a spin variable is advanced. -/
def spinTick (tab : VtsTab) (tvid thr : Nat) :
    Except Abort (VtsTab × Nat) := do
  let tab ← tab.rcdec tvid
  let (tab, vid) ← tab.tick tvid thr
  let tab ← tab.rcinc vid
  pure (tab, vid)

/-- The table after a thread has exchanged its clock for `vts`. -/
def Moves (before : VtsTab) (refs : Multiset Nat) (vts : VTS)
    (result : VtsTab × Nat) : Prop :=
  result.1.Counted (result.2 ::ₘ refs) ∧ Extends before result.1 ∧
    result.1.clock result.2 = some vts

section Moving

variable {tab : VtsTab} {refs : Multiset Nat} {tvid last : Nat}
  {mine other : VTS}

theorem spinJoin_returns (counted : tab.Counted (tvid ::ₘ refs))
    (known : tab.clock tvid = some mine)
    (stored : tab.clock last = some other) :
    Returns (tab.spinJoin tvid last)
      (tab.Moves refs (mine.join other)) := by
  apply (rcdec_returns_cons counted).bind
  intro tab₁ ⟨counted₁, same₁⟩
  rw [← same₁] at known stored
  apply (join2_returns counted₁ known stored).bind
  intro ⟨tab₂, vid⟩ ⟨counted₂, grown₂, joined⟩
  apply (rcinc_returns counted₂ joined).bind
  intro tab₃ ⟨counted₃, same₃⟩
  apply Returns.pure
  refine ⟨counted₃, ?_, ?_⟩
  · exact (Extends.of_clock_eq same₁).trans
      (grown₂.trans (Extends.of_clock_eq same₃))
  · rw [← joined]
    exact congrFun same₃ vid

theorem spinTick_returns (thr : Nat) (counted : tab.Counted (tvid ::ₘ refs))
    (known : tab.clock tvid = some mine) :
    Returns (tab.spinTick tvid thr) (tab.Moves refs (mine.tick thr)) := by
  apply (rcdec_returns_cons counted).bind
  intro tab₁ ⟨counted₁, same₁⟩
  rw [← same₁] at known
  apply (tick_returns counted₁ known thr).bind
  intro ⟨tab₂, vid⟩ ⟨counted₂, grown₂, ticked⟩
  apply (rcinc_returns counted₂ ticked).bind
  intro tab₃ ⟨counted₃, same₃⟩
  apply Returns.pure
  refine ⟨counted₃, ?_, ?_⟩
  · exact (Extends.of_clock_eq same₁).trans
      (grown₂.trans (Extends.of_clock_eq same₃))
  · rw [← ticked]
    exact congrFun same₃ vid

end Moving

theorem Extends.rel {before after : VtsTab} {vid : Option Nat}
    {vts : Option VTS} (grown : Extends before after)
    (known : Option.Rel (fun ii clock => before.clock ii = some clock) vid
      vts) :
    Option.Rel (fun ii clock => after.clock ii = some clock) vid vts := by
  cases known with
  | none => exact .none
  | some known => exact .some (grown _ _ known)

/-- What a machine function promises, next to its counterpart over
timestamps.  The thread's own reference moves with its `vid`; `refs` are the
other references. -/
structure HybridResult {SV AbsSV : Type} (value : VtsTab → SV → AbsSV → Prop)
    (before : VtsTab) (tvid : Nat) (refs : Multiset Nat)
    (result : VtsTab × MsmOut Nat SV) (expected : MsmOut VTS AbsSV) :
    Prop where
  counted : result.1.Counted (result.2.vid.getD tvid ::ₘ refs)
  grown : Extends before result.1
  moved : Option.Rel (fun ii vts => result.1.clock ii = some vts)
    result.2.vid expected.vid
  svNew : value result.1 result.2.svNew expected.svNew
  raced : result.2.raced = expected.raced

section Results

variable {SV AbsSV : Type} {value : VtsTab → SV → AbsSV → Prop}
  {before tab : VtsTab} {tvid : Nat} {refs : Multiset Nat} {sv : SV}
  {abs : AbsSV}

theorem HybridResult.still (raced : Bool)
    (counted : tab.Counted (tvid ::ₘ refs)) (grown : Extends before tab)
    (denotes : value tab sv abs) :
    HybridResult value before tvid refs (tab, ⟨none, sv, raced⟩)
      ⟨none, abs, raced⟩ :=
  ⟨counted, grown, .none, denotes, rfl⟩

theorem HybridResult.moving {vts : VTS} {vid : Nat}
    (moves : before.Moves refs vts (tab, vid))
    (denotes : value tab sv abs) :
    HybridResult value before tvid refs (tab, ⟨some vid, sv, false⟩)
      ⟨some vts, abs, false⟩ :=
  ⟨moves.1, moves.2.1, .some moves.2.2, denotes, rfl⟩

/-- A comparison, as the machines use it. -/
theorem Returns.getOrdering {β : Type} {vi1 vi2 : Nat} {v1 v2 : VTS}
    {next : VtsTab × POrd → Except Abort β} {post : β → Prop}
    (counted : tab.Counted refs) (left : tab.clock vi1 = some v1)
    (right : tab.clock vi2 = some v2)
    (goesOn : ∀ after, after.Counted refs → Extends tab after →
      Returns (next (after, v1.cmp v2)) post) :
    Returns (tab.getOrdering vi1 vi2 >>= next) post := by
  apply (getOrdering_returns counted left right).bind
  intro ⟨after, ord⟩ ⟨counted₁, same, verdict⟩
  dsimp only at verdict
  subst verdict
  exact goesOn after counted₁ (Extends.of_clock_eq same)

end Results
end VtsTab

/-- The functions of one machine, and the value of a new location. -/
structure HybridMachine (SV : Type) where
  new : SV
  msmRead : VtsTab → SV → Nat → Access →
    Except Abort (VtsTab × MsmOut Nat SV)
  msmWrite : VtsTab → SV → Nat → Access →
    Except Abort (VtsTab × MsmOut Nat SV)

/-- An access together with the clock that its thread then has. -/
structure Timed where
  acc : Access
  clock : VTS
  deriving DecidableEq

/-- A location under observation: its shadow value, and after each access so
far the value that it left and whether it was reported. -/
structure LocLog (SV : Type) where
  tab : VtsTab
  sv : SV
  log : List (SV × Bool)

namespace HybridMachine

variable {SV AbsSV : Type}

def msm (machine : HybridMachine SV) (tab : VtsTab) (sv : SV) (tvid : Nat)
    (acc : Access) : Except Abort (VtsTab × MsmOut Nat SV) :=
  if acc.isWrite then machine.msmWrite tab sv tvid acc
  else machine.msmRead tab sv tvid acc

/-- The thread comes to the access with an id for its clock, to which it
holds a reference until it moves on. -/
def access (machine : HybridMachine SV) (state : LocLog SV) (event : Timed) :
    Except Abort (LocLog SV) := do
  let (tab, vid) ← state.tab.findAndDeallocOrAdd event.clock
  let tab ← tab.rcinc vid
  let (tab, out) ← machine.msm tab state.sv vid event.acc
  let tab ← tab.rcdec (out.vid.getD vid)
  pure ⟨tab, out.svNew, state.log ++ [(out.svNew, out.raced)]⟩

/-- A run of accesses to a location that starts `New`. -/
def run (machine : HybridMachine SV) (tab : VtsTab) (events : List Timed) :
    Except Abort (LocLog SV) :=
  events.foldlM machine.access ⟨tab, machine.new, []⟩

/-- The value that the access at position `i` finds. -/
def found (machine : HybridMachine SV) (log : List (SV × Bool)) :
    Nat → Option SV
  | 0 => some machine.new
  | i + 1 => log[i]?.map (·.1)

end HybridMachine

/-- A machine over timestamps, and which of its values an id-level value
stands for. -/
structure HybridSpec (SV AbsSV : Type) where
  new : AbsSV
  msm : AbsSV → VTS → Access → MsmOut VTS AbsSV
  value : VtsTab → SV → AbsSV → Prop

namespace HybridSpec

variable {SV AbsSV : Type}

/-- The value after the first `n` accesses. -/
def valueAt (spec : HybridSpec SV AbsSV) (events : List Timed) (n : Nat) :
    AbsSV :=
  (events.take n).foldl
    (fun sv event => (spec.msm sv event.clock event.acc).svNew) spec.new

theorem valueAt_succ (spec : HybridSpec SV AbsSV) {events : List Timed}
    {n : Nat} {event : Timed} (atN : events[n]? = some event) :
    spec.valueAt events (n + 1) =
      (spec.msm (spec.valueAt events n) event.clock event.acc).svNew := by
  simp [valueAt, List.take_add_one, atN]

/-- The machine computes what the specification says, outside spin loops. -/
structure Describes (spec : HybridSpec SV AbsSV)
    (machine : HybridMachine SV) : Prop where
  new : ∀ tab, spec.value tab machine.new spec.new
  grows : ∀ {tab after : VtsTab} {sv : SV} {abs : AbsSV},
    spec.value tab sv abs → tab.Extends after → spec.value after sv abs
  msm : ∀ {tab : VtsTab} {refs : Multiset Nat} {sv : SV} {abs : AbsSV}
    {tvid : Nat} {clock : VTS} (acc : Access), acc.spinReading = false →
    tab.Counted (tvid ::ₘ refs) → tab.clock tvid = some clock →
    spec.value tab sv abs →
    Returns (machine.msm tab sv tvid acc) (fun result =>
      VtsTab.HybridResult spec.value tab tvid refs result
        (spec.msm abs clock acc))

/-- What the log of a run says after `n` accesses. -/
structure Follows (spec : HybridSpec SV AbsSV) (refs : Multiset Nat)
    (events : List Timed) (n : Nat) (state : LocLog SV) : Prop where
  counted : state.tab.Counted refs
  current : spec.value state.tab state.sv (spec.valueAt events n)
  length : state.log.length = n
  logged : ∀ i event, i < n → events[i]? = some event → ∃ sv,
    state.log[i]? = some (sv,
      (spec.msm (spec.valueAt events i) event.clock event.acc).raced) ∧
    spec.value state.tab sv (spec.valueAt events (i + 1))

section Runs

variable {spec : HybridSpec SV AbsSV} {machine : HybridMachine SV}
  {refs : Multiset Nat} {events : List Timed} {n : Nat} {state : LocLog SV}
  {event : Timed}

theorem Describes.access_follows (describes : spec.Describes machine)
    (follows : spec.Follows refs events n state)
    (atN : events[n]? = some event)
    (notSpinning : event.acc.spinReading = false) :
    Returns (machine.access state event)
      (spec.Follows refs events (n + 1)) := by
  obtain ⟨counted, current, length, logged⟩ := follows
  unfold HybridMachine.access
  apply (VtsTab.findAndDeallocOrAdd_returns counted event.clock).bind
  intro ⟨tab₁, vid⟩ ⟨counted₁, grown₁, known₁⟩
  apply (VtsTab.rcinc_returns counted₁ known₁).bind
  intro tab₂ ⟨counted₂, same₂⟩
  have grown₂ := grown₁.trans (VtsTab.Extends.of_clock_eq same₂)
  have known₂ : tab₂.clock vid = some event.clock := by rw [same₂, known₁]
  apply (describes.msm event.acc notSpinning counted₂ known₂
    (describes.grows current grown₂)).bind
  intro ⟨tab₃, out⟩ result
  apply (VtsTab.rcdec_returns_cons result.counted).bind
  intro tab₄ ⟨counted₄, same₄⟩
  have grown₄ : tab₃.Extends tab₄ := VtsTab.Extends.of_clock_eq same₄
  have grown := grown₂.trans (result.grown.trans grown₄)
  have after : spec.value tab₄ out.svNew (spec.valueAt events (n + 1)) := by
    rw [spec.valueAt_succ atN]
    exact describes.grows result.svNew grown₄
  apply Returns.pure
  refine ⟨counted₄, after, by simp [length], ?_⟩
  intro i other below atI
  rcases Nat.lt_succ_iff_lt_or_eq.mp below with earlier | rfl
  · obtain ⟨sv, entry, value⟩ := logged i other earlier atI
    refine ⟨sv, ?_, describes.grows value grown⟩
    rw [List.getElem?_append_left (by omega), entry]
  · rw [atN] at atI
    cases atI
    refine ⟨out.svNew, ?_, after⟩
    rw [← length, List.getElem?_concat_length, length, result.raced]

theorem Describes.run_follows (describes : spec.Describes machine)
    {tab : VtsTab} (counted : tab.Counted refs)
    (notSpinning : ∀ event ∈ events, event.acc.spinReading = false) :
    Returns (machine.run tab events)
      (spec.Follows refs events events.length) := by
  refine Returns.foldlM ?_ ?_
  · intro n state event atN follows
    exact describes.access_follows follows atN
      (notSpinning event (List.mem_of_getElem? atN))
  · refine ⟨counted, describes.new tab, rfl, ?_⟩
    intro i event below
    exact absurd below (Nat.not_lt_zero i)

/-- The value found by an access is the one before it. -/
theorem Follows.found (describes : spec.Describes machine)
    (follows : spec.Follows refs events events.length state) {i : Nat}
    (atI : events[i]? = some event) :
    ∃ sv, machine.found state.log i = some sv ∧
      spec.value state.tab sv (spec.valueAt events i) := by
  have inside := (List.getElem?_eq_some_iff.mp atI).1
  cases i with
  | zero => exact ⟨machine.new, rfl, describes.new state.tab⟩
  | succ i =>
      have earlier : i < events.length := Nat.lt_of_succ_lt inside
      obtain ⟨sv, entry, denotes⟩ := follows.logged i events[i] earlier
        (List.getElem?_eq_getElem earlier)
      exact ⟨sv, by simp [HybridMachine.found, entry], denotes⟩

/-- The verdict on an access is that of the specification. -/
theorem Follows.verdict
    (follows : spec.Follows refs events events.length state) {i : Nat}
    {sv : SV} {raced : Bool} (atI : events[i]? = some event)
    (entry : state.log[i]? = some (sv, raced)) :
    raced = (spec.msm (spec.valueAt events i) event.clock
        event.acc).raced ∧
      spec.value state.tab sv (spec.valueAt events (i + 1)) := by
  have inside := (List.getElem?_eq_some_iff.mp atI).1
  obtain ⟨value, same, denotes⟩ := follows.logged i event inside atI
  rw [same] at entry
  cases entry
  exact ⟨rfl, denotes⟩

/-- What every access keeps holds of every value along the run. -/
theorem valueAt_invariant (spec : HybridSpec SV AbsSV)
    {invariant : ℕ → AbsSV → Prop} (initially : invariant 0 spec.new)
    (kept : ∀ n sv event, events[n]? = some event → invariant n sv →
      invariant (n + 1) (spec.msm sv event.clock event.acc).svNew)
    (inside : n ≤ events.length) : invariant n (spec.valueAt events n) := by
  induction n with
  | zero => exact initially
  | succ n induction =>
      have atN : events[n]? = some events[n] :=
        List.getElem?_eq_getElem inside
      rw [spec.valueAt_succ atN]
      exact kept n _ _ atN (induction (Nat.le_of_succ_le inside))

/-- What no access breaks or reports. -/
theorem Describes.run_silent (describes : spec.Describes machine)
    {tab : VtsTab} (counted : tab.Counted refs)
    (plain : ∀ event ∈ events, event.acc.Plain) {guarded : AbsSV → Prop}
    (initially : guarded spec.new)
    (kept : ∀ event ∈ events, ∀ sv, guarded sv →
      (spec.msm sv event.clock event.acc).Silent guarded) :
    Returns (machine.run tab events) (fun state =>
      state.log.length = events.length ∧ ∀ sv raced,
        (sv, raced) ∈ state.log → raced = false ∧
          ∃ abs, spec.value state.tab sv abs ∧ guarded abs) := by
  apply (describes.run_follows counted
    fun event member => (plain event member).notSpinning).mono
  intro state follows
  refine ⟨follows.length, ?_⟩
  intro sv raced member
  obtain ⟨i, entry⟩ := List.getElem?_of_mem member
  have inside : i < events.length := by
    rw [← follows.length]
    exact (List.getElem?_eq_some_iff.mp entry).1
  have atI : events[i]? = some events[i] := List.getElem?_eq_getElem inside
  have before : guarded (spec.valueAt events i) := by
    refine @valueAt_invariant _ _ events i spec (fun _ sv => guarded sv)
      initially ?_ (Nat.le_of_lt inside)
    intro n sv event atN holds
    exact (kept event (List.mem_of_getElem? atN) sv holds).1
  obtain ⟨after, silent⟩ := kept _ (List.mem_of_getElem? atI) _ before
  obtain ⟨verdict, denotes⟩ := follows.verdict atI entry
  rw [spec.valueAt_succ atI] at denotes
  exact ⟨verdict.trans silent, _, denotes, after⟩

/-- An access stores no clock but its own, and is reported only against a
stored clock that it is not ordered after. -/
structure Judged (stored : AbsSV → Option VTS) (sv : AbsSV) (clock : VTS)
    (out : MsmOut VTS AbsSV) : Prop where
  kept : ∀ vts, stored out.svNew = some vts →
    vts = clock ∨ stored sv = some vts
  blamed : out.raced = true → ∃ vts, stored sv = some vts ∧ ¬ vts ≤ clock

section Judging

variable {stored : AbsSV → Option VTS} {sv svNew : AbsSV} {clock vts : VTS}
  {vid : Option VTS}

theorem Judged.replaced (own : stored svNew = some clock) :
    Judged stored sv clock ⟨vid, svNew, false⟩ := by
  refine ⟨?_, by simp⟩
  intro vts isNew
  dsimp only at isNew
  rw [own, Option.some.injEq] at isNew
  exact .inl isNew.symm

theorem Judged.same (same : stored svNew = stored sv) :
    Judged stored sv clock ⟨vid, svNew, false⟩ :=
  ⟨fun _ isNew => .inr (same ▸ isNew), by simp⟩

theorem Judged.forgotten {raced : Bool} (none : stored svNew = none)
    (blamed : raced = true → ∃ vts, stored sv = some vts ∧ ¬ vts ≤ clock) :
    Judged stored sv clock ⟨vid, svNew, raced⟩ := by
  refine ⟨?_, blamed⟩
  intro vts isNew
  dsimp only at isNew
  rw [none] at isNew
  cases isNew

theorem Judged.race (none : stored svNew = none)
    (old : stored sv = some vts) (unordered : ¬ vts ≤ clock) :
    Judged stored sv clock (.race svNew) :=
  .forgotten none fun _ => ⟨vts, old, unordered⟩

end Judging

/-- The machine keeps one clock, of an access it has seen. -/
structure Remembers (spec : HybridSpec SV AbsSV)
    (stored : AbsSV → Option VTS) : Prop where
  new : stored spec.new = none
  msm : ∀ (sv : AbsSV) (clock : VTS) (acc : Access), acc.Plain →
    Judged stored sv clock (spec.msm sv clock acc)

/-- The stored clock is that of one of the first `n` accesses. -/
def Recent (events : List Timed) (stored : AbsSV → Option VTS) (n : Nat)
    (sv : AbsSV) : Prop :=
  ∀ vts, stored sv = some vts →
    ∃ i event, i < n ∧ events[i]? = some event ∧ event.clock = vts

theorem Remembers.recent {stored : AbsSV → Option VTS}
    (remembers : spec.Remembers stored)
    (plain : ∀ event ∈ events, event.acc.Plain)
    (inside : n ≤ events.length) :
    Recent events stored n (spec.valueAt events n) := by
  refine @valueAt_invariant _ _ events n spec (Recent events stored)
    ?_ ?_ inside
  · intro vts kept
    rw [remembers.new] at kept
    cases kept
  · intro n sv event atN recent vts kept
    have member := List.mem_of_getElem? atN
    rcases (remembers.msm sv event.clock event.acc (plain event member)).kept
      vts kept with mine | old
    · exact ⟨n, event, Nat.lt_succ_self n, atN, mine.symm⟩
    · obtain ⟨i, other, below, atI, same⟩ := recent vts old
      exact ⟨i, other, Nat.lt_succ_of_lt below, atI, same⟩

/-- An access ordered after all earlier ones is not reported. -/
theorem Describes.run_unblamed (describes : spec.Describes machine)
    {stored : AbsSV → Option VTS} (remembers : spec.Remembers stored)
    {tab : VtsTab} (counted : tab.Counted refs)
    (plain : ∀ event ∈ events, event.acc.Plain) :
    Returns (machine.run tab events) (fun state =>
      ∀ (j : Nat) (y : Timed), events[j]? = some y →
        (∀ (i : Nat) (x : Timed), i < j → events[i]? = some x →
          x.clock ≤ y.clock) →
        ∃ sv, state.log[j]? = some (sv, false)) := by
  apply (describes.run_follows counted
    fun event member => (plain event member).notSpinning).mono
  intro state follows j y atJ ordered
  have inside := (List.getElem?_eq_some_iff.mp atJ).1
  obtain ⟨sv, entry, denotes⟩ := follows.logged j y inside atJ
  refine ⟨sv, ?_⟩
  have silent : (spec.msm (spec.valueAt events j) y.clock y.acc).raced =
      false := by
    apply Bool.eq_false_of_not_eq_true
    intro raced
    obtain ⟨vts, kept, unordered⟩ := (remembers.msm _ y.clock y.acc
      (plain y (List.mem_of_getElem? atJ))).blamed raced
    obtain ⟨i, x, below, atI, same⟩ :=
      remembers.recent plain (Nat.le_of_lt inside) vts kept
    rw [← same] at unordered
    exact unordered (ordered i x below atI)
  rw [entry, silent]

end Runs
end HybridSpec
end HelgrindPlus
