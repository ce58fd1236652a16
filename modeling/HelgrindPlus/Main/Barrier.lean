import HelgrindPlus.LibHB.HbOps
import HelgrindPlus.Main.Locks

/-!
# Barriers

The handlers of barrier events in `hg_main.c`.  Those of OpenMP for init,
destroy and wait call the handlers for pthreads, and only reinit has one of
its own.  A wait that completes a cycle needs a synchronisation object, whose
address is part of the event.
-/

namespace HelgrindPlus

open Outcome

structure Bar where
  initted : Bool
  size : Nat
  waiting : Option (List Nat)
  deriving DecidableEq

/-- The threads that have arrived. -/
def Bar.waiters (bar : Bar) : List Nat := bar.waiting.getD []

structure BarTab where
  hb : Hb
  mapBarrierToBar : AList (fun _ : Nat => Bar)

namespace BarTab

def newBar : Bar := ⟨false, 0, none⟩

def setBar (tab : BarTab) (barrier : Nat) (bar : Bar) : BarTab :=
  { tab with mapBarrierToBar := tab.mapBarrierToBar.insert barrier bar }

def mapBarrierToBarLookupOrAlloc (tab : BarTab) (barrier : Nat) :
    BarTab × Bar :=
  match tab.mapBarrierToBar.lookup barrier with
  | some bar => (tab, bar)
  | none => (tab.setBar barrier newBar, newBar)

def mapBarrierToBarDelete (tab : BarTab) (barrier : Nat) : BarTab :=
  { tab with mapBarrierToBar := tab.mapBarrierToBar.erase barrier }

/-- What the two handlers that initialise a barrier complain about: a count of
zero, the wrong value of `initted`, and threads that wait. -/
structure InitTexts where
  countZero : String
  wrongInitted : Bool
  initted : String
  busy : String

/-- The threads that wait at a barrier that is initialised again are
forgotten. -/
def dropWaiting (bar : Bar) : Except Abort Bar :=
  if bar.waiters.length > 0 then do
    tlAssert (bar.initted = true)
    pure { bar with waiting := some [] }
  else .ok bar

def initialise (texts : InitTexts) (tab : BarTab) (thr barrier count : Nat) :
    Except Abort (BarTab × List HgError) := do
  let _ ← tab.hb.getThr thr
  let (tab, bar) := tab.mapBarrierToBarLookupOrAlloc barrier
  let errors :=
    (if count = 0 then [HgError.misc thr texts.countZero] else []) ++
    (if bar.initted = texts.wrongInitted then [.misc thr texts.initted]
      else []) ++
    (if bar.waiters.length > 0 then [.misc thr texts.busy] else [])
  let bar ← dropWaiting bar
  let bar := if bar.waiting = none then { bar with waiting := some [] }
    else bar
  tlAssert (bar.waiting ≠ none)
  tlAssert (bar.waiters.length = 0)
  pure (tab.setBar barrier { bar with initted := true, size := count }, errors)

def pthreadBarrierInitPre : BarTab → Nat → Nat → Nat →
    Except Abort (BarTab × List HgError) :=
  initialise
    { countZero := "pthread_barrier_init: 'count' argument is zero"
      wrongInitted := true
      initted := "pthread_barrier_init: barrier is already initialised"
      busy := "pthread_barrier_init: threads are waiting at barrier" }

def ompBarrierReinitPre : BarTab → Nat → Nat → Nat →
    Except Abort (BarTab × List HgError) :=
  initialise
    { countZero := "gomp_barrier_reinit: 'count' argument is zero"
      wrongInitted := false
      initted := "gomp_barrier_reinit: barrier is not initialised"
      busy := "gomp_barrier_init: threads are waiting at barrier" }

def pthreadBarrierDestroyPre (tab : BarTab) (thr barrier : Nat) :
    Except Abort (BarTab × List HgError) := do
  let _ ← tab.hb.getThr thr
  let (tab, bar) := tab.mapBarrierToBarLookupOrAlloc barrier
  let errors :=
    (if bar.initted = false then [HgError.misc thr
      "pthread_barrier_destroy: barrier was never initialised"] else []) ++
    (if bar.initted = true ∧ bar.waiters.length > 0 then [.misc thr
      "pthread_barrier_destroy: threads are waiting at barrier"] else [])
  pure (tab.mapBarrierToBarDelete barrier, errors)

/-- All the threads have arrived: the join of their clocks is computed in a
new object, and distributed to them. -/
def exchange (hb : Hb) (waiting : List Nat) (so : Nat) : Except Abort Hb := do
  let hb ← hb.soAlloc so
  let hb ← waiting.foldlM (fun hb t => hb.soSend t so false) hb
  let hb ← waiting.foldlM (fun hb t => hb.soRecv t so true) hb
  hb.soDealloc so

def pthreadBarrierWaitPre (tab : BarTab) (thr barrier so : Nat) :
    Except Abort (BarTab × List HgError) := do
  let _ ← tab.hb.getThr thr
  let (tab, bar) := tab.mapBarrierToBarLookupOrAlloc barrier
  if bar.initted = false then
    pure (tab, [.misc thr "pthread_barrier_wait: barrier is uninitialised"])
  else do
    tlAssert (bar.size > 0)
    match bar.waiting with
    | none => .error .tlAssert
    | some waiting => do
        let waiting := waiting ++ [thr]
        let present := waiting.length
        tlAssert (present > 0 ∧ present ≤ bar.size)
        if present < bar.size then
          pure (tab.setBar barrier { bar with waiting := some waiting }, [])
        else do
          tlAssert (waiting.length = bar.size)
          let hb ← exchange tab.hb waiting so
          pure ({ tab with hb := hb }.setBar barrier
            { bar with waiting := some [] }, [])

end BarTab

inductive BarEvent where
  | initPre (thr barrier count : Nat)
  | reinitPre (thr barrier count : Nat)
  | destroyPre (thr barrier : Nat)
  | waitPre (thr barrier so : Nat)
  deriving DecidableEq

namespace BarEvent

def thr : BarEvent → Nat
  | initPre thr _ _ | reinitPre thr _ _ | destroyPre thr _ | waitPre thr _ _ =>
      thr

/-- The count that a barrier is initialised with. -/
def count : BarEvent → Option Nat
  | initPre _ _ count | reinitPre _ _ count => some count
  | destroyPre _ _ | waitPre _ _ _ => none

def so : BarEvent → Option Nat
  | waitPre _ _ so => some so
  | initPre _ _ _ | reinitPre _ _ _ | destroyPre _ _ => none

end BarEvent

namespace BarTab

def handle (tab : BarTab) : BarEvent → Except Abort (BarTab × List HgError)
  | .initPre thr barrier count => tab.pthreadBarrierInitPre thr barrier count
  | .reinitPre thr barrier count => tab.ompBarrierReinitPre thr barrier count
  | .destroyPre thr barrier => tab.pthreadBarrierDestroyPre thr barrier
  | .waitPre thr barrier so => tab.pthreadBarrierWaitPre thr barrier so

end BarTab

namespace AbsHb

def sends (abs : AbsHb) (waiting : List Nat) (so : Nat) : Option AbsHb :=
  waiting.foldlM (fun abs t => abs.step (.soSend t so false)) abs

def recvs (abs : AbsHb) (waiting : List Nat) (so : Nat) : Option AbsHb :=
  waiting.foldlM (fun abs t => abs.step (.soRecv t so true)) abs

/-- The exchange over timestamps. -/
def exchange (abs : AbsHb) (waiting : List Nat) (so : Nat) :
    Option AbsHb := do
  let sent ← (abs.setSO so none).sends waiting so
  let received ← sent.recvs waiting so
  some { received with sos := Function.update received.sos so none }

section Existence

variable {abs : AbsHb} {waiting : List Nat} {so : Nat}

/-- The same threads exist, and an object is only changed in its contents. -/
structure SameShape (so : Nat) (abs abs' : AbsHb) : Prop where
  exist : ∀ t, abs'.Exists t ↔ abs.Exists t
  others : ∀ other, other ≠ so → abs'.sos other = abs.sos other
  alive : abs'.sos so ≠ none

theorem SameShape.trans {abs' abs'' : AbsHb}
    (first : SameShape so abs abs') (second : SameShape so abs' abs'') :
    SameShape so abs abs'' where
  exist t := (second.exist t).trans (first.exist t)
  others other apart :=
    (second.others other apart).trans (first.others other apart)
  alive := second.alive

theorem exists_setThr {thr : Nat} {clocks : Clocks} (known : abs.Exists thr)
    (t : Nat) : (abs.setThr thr clocks).Exists t ↔ abs.Exists t := by
  by_cases same : t = thr
  · subst same
    simp [Exists, setThr] at known ⊢
    exact known
  · simp [Exists, setThr, same]

private theorem step_sameShape {op : Nat → SyncOp} {t : Nat}
    (isSync : op = (.soSend · so false) ∨ op = (.soRecv · so true))
    (known : abs.Exists t) (alive : abs.sos so ≠ none) :
    ∃ abs', abs.step (op t) = some abs' ∧ SameShape so abs abs' := by
  obtain ⟨clocks, atThr⟩ := Option.ne_none_iff_exists'.mp known
  obtain ⟨contents, atSO⟩ := Option.ne_none_iff_exists'.mp alive
  rcases isSync with rfl | rfl
  · refine ⟨(abs.setSO so (some (sent contents clocks false))).setThr t
      (clocks.tick t), by simp [step, atThr, atSO], ?_, ?_, ?_⟩
    · exact exists_setThr known
    · intro other apart
      simp [setThr, setSO, apart]
    · simp [setThr, setSO]
  · refine ⟨abs.setThr t (received clocks contents true),
      by simp [step, atThr, atSO], exists_setThr known, ?_, ?_⟩
    · exact fun other apart => rfl
    · exact alive

theorem foldlM_sameShape {op : Nat → SyncOp}
    (isSync : op = (.soSend · so false) ∨ op = (.soRecv · so true))
    (known : ∀ t ∈ waiting, abs.Exists t) (alive : abs.sos so ≠ none) :
    ∃ abs', waiting.foldlM (fun abs t => abs.step (op t)) abs = some abs' ∧
      SameShape so abs abs' := by
  induction waiting generalizing abs with
  | nil => exact ⟨abs, rfl, fun _ => .rfl, fun _ _ => rfl, alive⟩
  | cons t waiting induction =>
      obtain ⟨abs₁, first, same₁⟩ :=
        step_sameShape isSync (known t (by simp)) alive
      obtain ⟨abs₂, rest, same₂⟩ := induction
        (fun u member => (same₁.exist u).mpr (known u (by simp [member])))
        same₁.alive
      refine ⟨abs₂, ?_, same₁.trans same₂⟩
      rw [List.foldlM_cons, first]
      exact rest

/-- The exchange is allowed whenever the threads exist, also if some of them
occur twice. -/
theorem exchange_allowed (known : ∀ t ∈ waiting, abs.Exists t)
    (unused : abs.sos so = none) :
    ∃ abs', abs.exchange waiting so = some abs' ∧
      (∀ t, abs'.Exists t ↔ abs.Exists t) ∧ abs'.sos = abs.sos := by
  obtain ⟨sent, isSent, same₁⟩ := foldlM_sameShape (.inl rfl)
    (show ∀ t ∈ waiting, (abs.setSO so none).Exists t from known)
    (show (abs.setSO so none).sos so ≠ none by simp [setSO])
  obtain ⟨received, isReceived, same₂⟩ := foldlM_sameShape (.inr rfl)
    (fun t member => (same₁.exist t).mpr (known t member)) same₁.alive
  have both := same₁.trans same₂
  refine ⟨{ received with sos := Function.update received.sos so none }, ?_,
    both.exist, ?_⟩
  · unfold exchange sends recvs
    rw [isSent]
    simp only [Option.bind_eq_bind, Option.bind_some]
    rw [isReceived]
    rfl
  · funext other
    by_cases same : other = so
    · subst same
      simp [unused]
    · simp [same, both.others other same, setSO]

end Existence
end AbsHb

namespace BarTab

open Hb

section Exchange

variable {hb hb' : Hb} {others : Multiset Nat} {abs abs' abs'' : AbsHb}
  {waiting : List Nat} {so : Nat}

theorem simulates_trans (first : hb.Simulates others abs' hb')
    {hb'' : Hb} (second : hb'.Simulates others abs'' hb'') :
    hb.Simulates others abs'' hb'' :=
  ⟨second.1, first.2.trans second.2⟩

private theorem foldlM_simulates {op : Nat → SyncOp}
    (refines : hb.Refines others abs)
    (allowed : waiting.foldlM (fun abs t => abs.step (op t)) abs =
      some abs') :
    Returns (waiting.foldlM (fun hb t => hb.step (op t)) hb)
      (hb.Simulates others abs') := by
  induction waiting generalizing hb abs with
  | nil =>
      cases allowed
      exact .pure ⟨refines, VtsTab.Extends.refl _⟩
  | cons t waiting induction =>
      rw [List.foldlM_cons] at allowed ⊢
      obtain ⟨abs₁, first, rest⟩ := Option.bind_eq_some_iff.mp allowed
      apply (step_simulates refines first).bind
      intro hb₁ simulates
      apply (induction simulates.1 rest).mono
      intro hb₂ later
      exact simulates_trans simulates later

theorem exchange_simulates (refines : hb.Refines others abs) {t : Nat}
    (member : t ∈ waiting) (known : ∀ u ∈ waiting, abs.Exists u)
    (unused : abs.unused so = true)
    (allowed : abs.exchange waiting so = some abs') :
    Returns (exchange hb waiting so) (hb.Simulates others abs') := by
  obtain ⟨sent, isSent, rest⟩ := Option.bind_eq_some_iff.mp allowed
  obtain ⟨received, isReceived, same⟩ := Option.bind_eq_some_iff.mp rest
  cases same
  -- the same threads and objects are there in between
  have alive : (abs.setSO so none).sos so ≠ none := by simp [AbsHb.setSO]
  obtain ⟨sent', isSent', same₁⟩ := AbsHb.foldlM_sameShape (.inl rfl)
    (show ∀ u ∈ waiting, (abs.setSO so none).Exists u from known) alive
  rw [AbsHb.sends, isSent'] at isSent
  cases isSent
  obtain ⟨received', isReceived', same₂⟩ := AbsHb.foldlM_sameShape (.inr rfl)
    (fun u isWaiting => (same₁.exist u).mpr (known u isWaiting)) same₁.alive
  rw [AbsHb.recvs, isReceived'] at isReceived
  cases isReceived
  have both := same₁.trans same₂
  obtain ⟨clocks, atThr⟩ :=
    Option.ne_none_iff_exists'.mp (known t member)
  obtain ⟨clocks', atThr'⟩ := Option.ne_none_iff_exists'.mp
    ((both.exist t).mpr (known t member))
  obtain ⟨contents, atSO⟩ := Option.ne_none_iff_exists'.mp both.alive
  have alloc : abs.step (.soAlloc t so) = some (abs.setSO so none) := by
    simp [AbsHb.step, atThr, unused]
  have dealloc : received.step (.soDealloc t so) = some { received with
      sos := Function.update received.sos so none } := by
    simp [AbsHb.step, atThr', atSO]
  unfold exchange
  apply (soAlloc_simulates refines alloc).bind
  intro hb₁ simulates₁
  apply (foldlM_simulates simulates₁.1 isSent').bind
  intro hb₂ simulates₂
  apply (foldlM_simulates simulates₂.1 isReceived').bind
  intro hb₃ simulates₃
  apply (soDealloc_simulates simulates₃.1 dealloc).mono
  intro hb₄ simulates₄
  exact simulates_trans (simulates_trans (simulates_trans simulates₁
    simulates₂) simulates₃) simulates₄

end Exchange

/-- The barrier at an address, which is a new one if nothing is known. -/
def bar (tab : BarTab) (barrier : Nat) : Bar :=
  (tab.mapBarrierToBar.lookup barrier).getD newBar

end BarTab

/-- A barrier that the wait handler can work with. -/
def Bar.Good (bar : Bar) : Prop :=
  bar.initted = false ∨ (0 < bar.size ∧
    ∃ waiting, bar.waiting = some waiting ∧ waiting.length < bar.size)

namespace BarTab

/-- The events that are mistakes of the program. -/
def Wrong (tab : BarTab) : BarEvent → Prop
  | .initPre _ barrier count => count = 0 ∨
      (tab.bar barrier).initted = true ∨ (tab.bar barrier).waiters ≠ []
  | .reinitPre _ barrier count => count = 0 ∨
      (tab.bar barrier).initted = false ∨ (tab.bar barrier).waiters ≠ []
  | .destroyPre _ barrier =>
      (tab.bar barrier).initted = false ∨ (tab.bar barrier).waiters ≠ []
  | .waitPre _ barrier _ => (tab.bar barrier).initted = false

/-- All barriers are good, and stay so along the events, each of which is
handled and, if it is wrong, reported. -/
def Diagnoses (tab : BarTab) : List BarEvent → Prop
  | [] => ∀ barrier, (tab.bar barrier).Good
  | event :: events => (∀ barrier, (tab.bar barrier).Good) ∧
      Returns (tab.handle event) (fun out =>
        (tab.Wrong event → out.2 ≠ []) ∧ out.1.Diagnoses events)

section Misuse

variable {tab tab' : BarTab} {known : Nat → Prop} {thr barrier count so : Nat}
  {bar bar' : Bar} {others : Multiset Nat} {abs₀ : AbsHb}

theorem lookupOrAlloc_snd (tab : BarTab) (barrier : Nat) :
    (tab.mapBarrierToBarLookupOrAlloc barrier).2 = tab.bar barrier := by
  unfold mapBarrierToBarLookupOrAlloc BarTab.bar
  split <;> simp_all

theorem lookupOrAlloc_hb (tab : BarTab) (barrier : Nat) :
    (tab.mapBarrierToBarLookupOrAlloc barrier).1.hb = tab.hb := by
  unfold mapBarrierToBarLookupOrAlloc
  split <;> rfl

theorem lookupOrAlloc_bar (tab : BarTab) (barrier other : Nat) :
    (tab.mapBarrierToBarLookupOrAlloc barrier).1.bar other =
      tab.bar other := by
  unfold mapBarrierToBarLookupOrAlloc
  split
  · rfl
  · rename_i missing
    by_cases same : other = barrier
    · subst same
      simp [BarTab.bar, setBar, missing]
    · simp [BarTab.bar, setBar, same]

theorem bar_setBar (other : Nat) :
    (tab.setBar barrier bar).bar other =
      if other = barrier then bar else tab.bar other := by
  by_cases same : other = barrier
  · subst same
    simp [BarTab.bar, setBar]
  · simp [BarTab.bar, setBar, same]

/-- A barrier as the handlers leave it, if no count is zero. -/
def Steady (known : Nat → Prop) (bar : Bar) : Prop :=
  bar = newBar ∨ (bar.initted = true ∧ 0 < bar.size ∧
    ∃ waiting, bar.waiting = some waiting ∧ waiting.length < bar.size ∧
      ∀ t ∈ waiting, known t)

theorem Steady.good (steady : Steady known bar) : bar.Good := by
  rcases steady with rfl | ⟨-, positive, waiting, isWaiting, fewer, -⟩
  · exact .inl rfl
  · exact .inr ⟨positive, waiting, isWaiting, fewer⟩

/-- Only barriers that are initialised have threads that wait. -/
def Known (bar : Bar) : Prop := bar = newBar ∨ bar.initted = true

theorem Steady.isKnown (steady : Steady known bar) : Known bar := by
  rcases steady with isNew | ⟨initted, -⟩
  · exact .inl isNew
  · exact .inr initted

theorem Known.dropWaiting (isKnown : Known bar) :
    Returns (dropWaiting bar) (fun bar' => bar'.waiters = []) := by
  unfold BarTab.dropWaiting
  split
  case isTrue busy =>
    rcases isKnown with rfl | initted
    · exact absurd busy (by simp [newBar, Bar.waiters])
    · rw [tlAssert_of initted, ok_bind]
      exact .pure rfl
  case isFalse idle =>
    exact .ok (List.length_eq_zero_iff.mp (by omega))

/-- Both handlers leave an empty barrier of the given size. -/
theorem initialise_returns {texts : InitTexts} {record : Thr}
    (isThr : tab.hb.thrs.lookup thr = some record)
    (isKnown : Known (tab.bar barrier)) :
    Returns (initialise texts tab thr barrier count) (fun out =>
      out.1.hb = tab.hb ∧
      (∀ other, out.1.bar other = if other = barrier then
        ⟨true, count, some []⟩ else tab.bar other) ∧
      (out.2 = [] ↔ ¬ (count = 0 ∨
        (tab.bar barrier).initted = texts.wrongInitted ∨
        (tab.bar barrier).waiters ≠ []))) := by
  unfold initialise
  rw [Hb.getThr_of isThr, ok_bind]
  have hbSame := lookupOrAlloc_hb tab barrier
  have barsSame := lookupOrAlloc_bar tab barrier
  have isBar := lookupOrAlloc_snd tab barrier
  generalize tab.mapBarrierToBarLookupOrAlloc barrier = found at *
  obtain ⟨tab₁, bar₁⟩ := found
  dsimp only at hbSame barsSame isBar ⊢
  subst isBar
  apply isKnown.dropWaiting.bind
  intro bar₂ nobody
  have waiting : (if bar₂.waiting = none then { bar₂ with waiting := some [] }
      else bar₂).waiting = some [] := by
    split
    · rfl
    · rename_i isSome
      obtain ⟨waiting, isWaiting⟩ := Option.ne_none_iff_exists'.mp isSome
      rw [Bar.waiters, isWaiting] at nobody
      rw [isWaiting]
      exact congrArg some nobody
  generalize (if bar₂.waiting = none then { bar₂ with waiting := some [] }
      else bar₂) = bar₃ at waiting ⊢
  have isSome : bar₃.waiting ≠ none := by simp [waiting]
  have none : bar₃.waiters.length = 0 := by simp [Bar.waiters, waiting]
  rw [tlAssert_of isSome, ok_bind, tlAssert_of none, ok_bind]
  refine .pure ⟨hbSame, ?_, ?_⟩
  · intro other
    rw [bar_setBar, waiting, barsSame]
  · simp only [List.append_eq_nil_iff, gt_iff_lt, List.length_pos_iff]
    split <;> split <;> split <;> simp_all

theorem destroyPre_returns {record : Thr}
    (isThr : tab.hb.thrs.lookup thr = some record) :
    Returns (tab.pthreadBarrierDestroyPre thr barrier) (fun out =>
      out.1.hb = tab.hb ∧
      (∀ other, out.1.bar other = if other = barrier then newBar
        else tab.bar other) ∧
      (out.2 = [] ↔ (tab.bar barrier).initted = true ∧
        (tab.bar barrier).waiters = [])) := by
  unfold pthreadBarrierDestroyPre
  rw [Hb.getThr_of isThr, ok_bind]
  have hbSame := lookupOrAlloc_hb tab barrier
  have barsSame := lookupOrAlloc_bar tab barrier
  have isBar := lookupOrAlloc_snd tab barrier
  generalize tab.mapBarrierToBarLookupOrAlloc barrier = found at *
  obtain ⟨tab₁, bar₁⟩ := found
  dsimp only at hbSame barsSame isBar ⊢
  subst isBar
  refine .pure ⟨hbSame, ?_, ?_⟩
  · intro other
    by_cases same : other = barrier
    · subst same
      simp [BarTab.bar, mapBarrierToBarDelete]
    · have kept := barsSame other
      simp only [BarTab.bar] at kept
      simp [BarTab.bar, mapBarrierToBarDelete, same, kept]
  · simp only [List.append_eq_nil_iff, gt_iff_lt, List.length_pos_iff]
    split <;> split <;> simp_all

/-- A wait at a barrier that is not initialised is reported. -/
theorem waitPre_uninitialised {record : Thr}
    (isThr : tab.hb.thrs.lookup thr = some record)
    (uninitialised : (tab.bar barrier).initted = false) :
    Returns (tab.pthreadBarrierWaitPre thr barrier so) (fun out =>
      out.1.hb = tab.hb ∧ (∀ other, out.1.bar other = tab.bar other) ∧
      out.2 ≠ []) := by
  unfold pthreadBarrierWaitPre
  rw [Hb.getThr_of isThr, ok_bind]
  have hbSame := lookupOrAlloc_hb tab barrier
  have barsSame := lookupOrAlloc_bar tab barrier
  have isBar := lookupOrAlloc_snd tab barrier
  generalize tab.mapBarrierToBarLookupOrAlloc barrier = found at *
  obtain ⟨tab₁, bar₁⟩ := found
  dsimp only at hbSame barsSame isBar ⊢
  subst isBar
  rw [if_pos uninitialised]
  exact .pure ⟨hbSame, barsSame, by simp⟩

/-- A wait at a barrier of size `n` where others wait already.  The last one
lets all of them go. -/
theorem waitPre_satisfies {record : Thr} {n : Nat} {waiting : List Nat}
    {exchanged : Hb → Prop} {fails : Abort → Prop}
    (isThr : tab.hb.thrs.lookup thr = some record)
    (isBar : tab.bar barrier = ⟨true, n, some waiting⟩)
    (fewer : waiting.length < n)
    (exchanges : waiting.length + 1 = n →
      Satisfies fails (exchange tab.hb (waiting ++ [thr]) so) exchanged) :
    Satisfies fails (tab.pthreadBarrierWaitPre thr barrier so) (fun out =>
      (∀ other, out.1.bar other = if other = barrier then
        ⟨true, n, some (if waiting.length + 1 < n then waiting ++ [thr]
          else [])⟩ else tab.bar other) ∧
      (if waiting.length + 1 < n then out.1.hb = tab.hb
        else exchanged out.1.hb) ∧
      out.2 = []) := by
  unfold pthreadBarrierWaitPre
  rw [Hb.getThr_of isThr, ok_bind]
  have hbSame := lookupOrAlloc_hb tab barrier
  have barsSame := lookupOrAlloc_bar tab barrier
  have found := lookupOrAlloc_snd tab barrier
  rw [isBar] at found
  generalize tab.mapBarrierToBarLookupOrAlloc barrier = allocated at *
  obtain ⟨tab₁, bar₁⟩ := allocated
  dsimp only at hbSame barsSame found ⊢
  subst found
  have positive : n > 0 := by omega
  have present : (waiting ++ [thr]).length > 0 ∧
      (waiting ++ [thr]).length ≤ n := by
    rw [List.length_append, List.length_singleton]
    omega
  rw [if_neg (by simp)]
  dsimp only
  rw [tlAssert_of positive, ok_bind, tlAssert_of present, ok_bind,
    List.length_append, List.length_singleton]
  split
  case isTrue more =>
    refine .pure ⟨?_, hbSame, rfl⟩
    intro other
    rw [bar_setBar, barsSame]
  case isFalse last =>
    have full : waiting.length + 1 = n := by omega
    rw [tlAssert_of full, ok_bind, hbSame]
    apply (exchanges full).bind
    intro hb holds
    refine .pure ⟨?_, holds, rfl⟩
    intro other
    rw [bar_setBar]
    split
    · rfl
    · exact barsSame other

/-- Exchanges change neither which threads exist nor which objects. -/
def Intact (abs₀ : AbsHb) (tab : BarTab) : Prop :=
  (∃ abs : AbsHb, tab.hb.Refines 0 abs ∧
    (∀ t, abs.Exists t ↔ abs₀.Exists t) ∧ abs.sos = abs₀.sos) ∧
  ∀ barrier, Steady abs₀.Exists (tab.bar barrier)

theorem Intact.setBar (intact : Intact abs₀ tab) (sameHb : tab'.hb = tab.hb)
    (steady : Steady abs₀.Exists bar)
    (bars : ∀ other, tab'.bar other =
      if other = barrier then bar else tab.bar other) : Intact abs₀ tab' := by
  constructor
  · rw [sameHb]
    exact intact.1
  · intro other
    rw [bars other]
    split
    · exact steady
    · exact intact.2 other

theorem Intact.getThr (intact : Intact abs₀ tab) (known : abs₀.Exists thr) :
    ∃ record, tab.hb.thrs.lookup thr = some record := by
  obtain ⟨⟨abs, refines, exist, -⟩, -⟩ := intact
  obtain ⟨clocks, atThr⟩ :=
    Option.ne_none_iff_exists'.mp ((exist thr).mpr known)
  obtain ⟨record, isThr, -⟩ := refines.thrs.of_some atThr
  exact ⟨record, isThr⟩

theorem Intact.waitPre (intact : Intact abs₀ tab) (isKnown : abs₀.Exists thr)
    (unused : abs₀.thrs so = none ∧ abs₀.sos so = none) :
    Returns (tab.pthreadBarrierWaitPre thr barrier so) (fun out =>
      Intact abs₀ out.1 ∧
      ((tab.bar barrier).initted = false → out.2 ≠ [])) := by
  obtain ⟨record, isThr⟩ := intact.getThr isKnown
  rcases intact.2 barrier with isNew | steady
  · have uninitialised : (tab.bar barrier).initted = false := by
      rw [isNew]
      rfl
    apply (waitPre_uninitialised isThr uninitialised).mono
    intro out after
    obtain ⟨sameHb, sameBars, reported⟩ := after
    refine ⟨⟨?_, ?_⟩, fun _ => reported⟩
    · rw [sameHb]
      exact intact.1
    · intro other
      rw [sameBars other]
      exact intact.2 other
  · obtain ⟨initted, positive, waiting, isWaiting, fewer, all⟩ := steady
    obtain ⟨abs, refines, exist, sos⟩ := intact.1
    have isBar : tab.bar barrier =
        ⟨true, (tab.bar barrier).size, some waiting⟩ := by
      rw [← initted, ← isWaiting]
    have known : ∀ t ∈ waiting ++ [thr], abs.Exists t := by
      intro t member
      rw [exist t]
      rcases List.mem_append.mp member with earlier | last
      · exact all t earlier
      · exact List.mem_singleton.mp last ▸ isKnown
    have noThr : abs.thrs so = none := by
      have missing : ¬ abs.Exists so := by
        rw [exist so]
        exact not_not.mpr unused.1
      exact not_not.mp missing
    have noSO : abs.sos so = none := by
      rw [sos]
      exact unused.2
    obtain ⟨abs', allowed, exist', sos'⟩ :=
      AbsHb.exchange_allowed known noSO
    have simulates := exchange_simulates refines (t := thr) (by simp) known
      (by simp [AbsHb.unused, noThr, noSO]) allowed
    apply (waitPre_satisfies isThr isBar fewer
      fun _ => simulates.satisfies).returns.mono
    intro out after
    obtain ⟨bars, sameHb, -⟩ := after
    refine ⟨⟨?_, ?_⟩, by simp [initted]⟩
    · split at sameHb
      · rw [sameHb]
        exact ⟨abs, refines, exist, sos⟩
      · exact ⟨abs', sameHb.1, fun t => (exist' t).trans (exist t),
          sos'.trans sos⟩
    · intro other
      rw [bars other]
      split
      · refine .inr ⟨rfl, positive, _, rfl, ?_, ?_⟩
        · split
          · simpa using ‹_›
          · exact positive
        · intro t member
          split at member
          · exact (exist t).mp (known t member)
          · cases member
      · exact intact.2 other

/-- What every event does, unless it initialises with a count of zero. -/
theorem Intact.handle (intact : Intact abs₀ tab) {event : BarEvent}
    (known : abs₀.Exists event.thr)
    (unused : ∀ so, event.so = some so →
      abs₀.thrs so = none ∧ abs₀.sos so = none)
    (positive : event.count ≠ some 0) :
    Returns (tab.handle event) (fun out =>
      Intact abs₀ out.1 ∧ (tab.Wrong event → out.2 ≠ [])) := by
  obtain ⟨record, isThr⟩ := intact.getThr known
  cases event with
  | initPre thr barrier count =>
      have many : 0 < count := by
        simp only [BarEvent.count, ne_eq, Option.some.injEq] at positive
        omega
      apply (initialise_returns isThr (intact.2 barrier).isKnown).mono
      intro out after
      obtain ⟨sameHb, bars, reported⟩ := after
      refine ⟨intact.setBar sameHb (.inr ⟨rfl, many, [], rfl, many, ?_⟩)
        bars, ?_⟩
      · simp
      · exact fun wrong silent => reported.mp silent wrong
  | reinitPre thr barrier count =>
      have many : 0 < count := by
        simp only [BarEvent.count, ne_eq, Option.some.injEq] at positive
        omega
      apply (initialise_returns isThr (intact.2 barrier).isKnown).mono
      intro out after
      obtain ⟨sameHb, bars, reported⟩ := after
      refine ⟨intact.setBar sameHb (.inr ⟨rfl, many, [], rfl, many, ?_⟩)
        bars, ?_⟩
      · simp
      · exact fun wrong silent => reported.mp silent wrong
  | destroyPre thr barrier =>
      apply (destroyPre_returns isThr).mono
      intro out after
      obtain ⟨sameHb, bars, reported⟩ := after
      refine ⟨intact.setBar sameHb (.inl rfl) bars, ?_⟩
      intro wrong silent
      obtain ⟨initted, nobody⟩ := reported.mp silent
      rcases wrong with uninitialised | busy
      · rw [initted] at uninitialised
        cases uninitialised
      · exact busy nobody
  | waitPre thr barrier so => exact intact.waitPre known (unused so rfl)

theorem Intact.diagnoses {events : List BarEvent} (intact : Intact abs₀ tab)
    (known : ∀ event ∈ events, abs₀.Exists event.thr)
    (unused : ∀ event ∈ events, ∀ so, event.so = some so →
      abs₀.thrs so = none ∧ abs₀.sos so = none)
    (positive : ∀ event ∈ events, event.count ≠ some 0) :
    tab.Diagnoses events := by
  have good : ∀ barrier, (tab.bar barrier).Good :=
    fun barrier => (intact.2 barrier).good
  induction events generalizing tab with
  | nil => exact good
  | cons event events induction =>
      refine ⟨good, ?_⟩
      apply (intact.handle (known event (by simp)) (unused event (by simp))
        (positive event (by simp))).mono
      intro out after
      refine ⟨after.2, induction after.1 ?_ ?_ ?_ ?_⟩
      · exact fun later member => known later (by simp [member])
      · exact fun later member => unused later (by simp [member])
      · exact fun later member => positive later (by simp [member])
      · exact fun barrier => (after.1.2 barrier).good

theorem Diagnoses.good {events : List BarEvent}
    (diagnoses : tab.Diagnoses events) (barrier : Nat) :
    (tab.bar barrier).Good := by
  cases events with
  | nil => exact diagnoses barrier
  | cons event events => exact diagnoses.1 barrier

/-- A count of zero leaves a barrier that no thread can wait at. -/
theorem Intact.count_zero (intact : Intact abs₀ tab) {event : BarEvent}
    (known : abs₀.Exists event.thr) (zero : event.count = some 0) :
    Returns (tab.handle event) (fun out =>
      ∃ barrier, ¬ (out.1.bar barrier).Good) := by
  obtain ⟨record, isThr⟩ := intact.getThr known
  have bad : ¬ Bar.Good ⟨true, 0, some []⟩ := by simp [Bar.Good]
  cases event with
  | initPre thr barrier count =>
      cases zero
      apply (initialise_returns isThr (intact.2 barrier).isKnown).mono
      intro out after
      refine ⟨barrier, ?_⟩
      rw [after.2.1 barrier, if_pos rfl]
      exact bad
  | reinitPre thr barrier count =>
      cases zero
      apply (initialise_returns isThr (intact.2 barrier).isKnown).mono
      intro out after
      refine ⟨barrier, ?_⟩
      rw [after.2.1 barrier, if_pos rfl]
      exact bad
  | destroyPre thr barrier => cases zero
  | waitPre thr barrier so => cases zero

theorem Intact.count_positive {events : List BarEvent}
    (intact : Intact abs₀ tab)
    (known : ∀ event ∈ events, abs₀.Exists event.thr)
    (unused : ∀ event ∈ events, ∀ so, event.so = some so →
      abs₀.thrs so = none ∧ abs₀.sos so = none)
    (diagnoses : tab.Diagnoses events) :
    ∀ event ∈ events, event.count ≠ some 0 := by
  induction events generalizing tab with
  | nil => simp
  | cons event events induction =>
      obtain ⟨out, handled, -, later⟩ := diagnoses.2
      have positive : event.count ≠ some 0 := by
        intro zero
        obtain ⟨barrier, bad⟩ :=
          (intact.count_zero (known event (by simp)) zero).of_eq_ok handled
        exact bad (later.good barrier)
      have after := (intact.handle (known event (by simp))
        (unused event (by simp)) positive).of_eq_ok handled
      have rest := induction after.1
        (fun later member => known later (by simp [member]))
        (fun later member => unused later (by simp [member])) later
      intro other member
      rcases List.mem_cons.mp member with rfl | isLater
      · exact positive
      · exact rest other isLater

/-- The handlers diagnose every misuse but one: a count of zero is reported,
and kept. -/
theorem misuse_diagnosed_iff {root : Nat} {ops : List HbOp} {hb : Hb}
    {events : List BarEvent} (reached : Hb.runOps root ops = .ok hb)
    (known : ∀ event ∈ events, (hb.thrs.lookup event.thr).isSome)
    (unused : ∀ event ∈ events, ∀ so, event.so = some so →
      hb.thrs.lookup so = none ∧ hb.sos.lookup so = none) :
    Diagnoses ⟨hb, ∅⟩ events ↔ ∀ event ∈ events, event.count ≠ some 0 := by
  obtain ⟨abs, refines⟩ := Hb.runOps_refines reached
  have intact : Intact abs ⟨hb, ∅⟩ :=
    ⟨⟨abs, refines, fun _ => .rfl, rfl⟩, fun _ => .inl rfl⟩
  have known' : ∀ event ∈ events, abs.Exists event.thr := by
    intro event member missing
    have unbound := refines.thrs.of_none missing
    simpa [unbound] using known event member
  have unused' : ∀ event ∈ events, ∀ so, event.so = some so →
      abs.thrs so = none ∧ abs.sos so = none := by
    intro event member so isSO
    obtain ⟨noThr, noSO⟩ := unused event member so isSO
    exact ⟨refines.thrs.of_unbound noThr, refines.sos.of_unbound noSO⟩
  constructor
  · exact intact.count_positive known' unused'
  · exact intact.diagnoses known' unused'

/-- Waits at a barrier that is not there, a destruction while a thread waits,
and a barrier that is initialised by the wrong call. -/
theorem misuse_diagnosed_seven : ∃ hb, Hb.runOps 1 [] = .ok hb ∧
    Diagnoses ⟨hb, ∅⟩ [.waitPre 1 100 7, .initPre 1 100 2, .waitPre 1 100 7,
      .destroyPre 1 100, .waitPre 1 100 7, .reinitPre 1 100 1,
      .waitPre 1 100 7] := by
  have shown : (Hb.runOps 1 []).toOption.map (fun hb =>
      ((hb.thrs.lookup 1).isSome, (hb.thrs.lookup 7).isNone,
        (hb.sos.lookup 7).isNone)) = some (true, true, true) := by decide
  obtain ⟨hb, reached, view⟩ := exists_ok_of_map shown
  obtain ⟨known, noThr, noSO⟩ : (hb.thrs.lookup 1).isSome = true ∧
      (hb.thrs.lookup 7).isNone = true ∧ (hb.sos.lookup 7).isNone = true := by
    simpa only [Prod.mk.injEq] using view
  refine ⟨hb, reached, (misuse_diagnosed_iff reached ?_ ?_).mpr ?_⟩
  · simpa [BarEvent.thr] using known
  · simpa [BarEvent.so] using ⟨Option.isNone_iff_eq_none.mp noThr,
      Option.isNone_iff_eq_none.mp noSO⟩
  · simp [BarEvent.count]

/-- The first wait after a count of zero runs into the assertion that says
that the other handler guarantees it. -/
theorem wait_after_count_zero : ∃ hb, Hb.runOps 1 [] = .ok hb ∧
    ¬ Diagnoses ⟨hb, ∅⟩ [.initPre 1 100 0, .waitPre 1 100 7] ∧
    (do let out ← handle ⟨hb, ∅⟩ (.initPre 1 100 0)
        out.1.handle (.waitPre 1 100 7)) = .error .tlAssert := by
  have shown : (Hb.runOps 1 []).toOption.map (fun hb =>
      (do let out ← handle ⟨hb, ∅⟩ (.initPre 1 100 0)
          out.1.handle (.waitPre 1 100 7)).map (fun _ => ())) =
      some (.error .tlAssert) := by decide
  obtain ⟨hb, reached, view⟩ := exists_ok_of_map shown
  have aborts := eq_error_of_map view
  refine ⟨hb, reached, ?_, aborts⟩
  intro diagnoses
  obtain ⟨out, handled, -, later⟩ := diagnoses.2
  obtain ⟨last, returned, -⟩ := later.2
  rw [handled, ok_bind, returned] at aborts
  cases aborts

end Misuse
end BarTab
end HelgrindPlus
