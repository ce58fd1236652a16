import HelgrindPlus.LibHB.HbOps
import HelgrindPlus.Main.Locks

/-!
# Semaphores

The handlers of semaphore events in `hg_main.c`.  A semaphore has a stack of
synchronisation objects, one for each post that no wait has used up yet.  The
addresses of new objects are part of the events.  The calls to `libhb` are
recorded as they are made, so that one can say what happens to an object.
-/

namespace HelgrindPlus

open Outcome

inductive SoCall where
  | alloc (so : Nat)
  | send (thr so : Nat) (strong : Bool)
  | recv (thr so : Nat) (strong : Bool)
  | dealloc (so : Nat)
  deriving DecidableEq

def SoCall.so : SoCall → Nat
  | alloc so | send _ so _ | recv _ so _ | dealloc so => so

def Hb.call (hb : Hb) : SoCall → Except Abort Hb
  | .alloc so => hb.soAlloc so
  | .send thr so strong => hb.soSend thr so strong
  | .recv thr so strong => hb.soRecv thr so strong
  | .dealloc so => hb.soDealloc so

structure SemTab where
  hb : Hb
  mapSemToSOStack : AList (fun _ : Nat => List Nat)
  calls : List SoCall

namespace SemTab

def call (tab : SemTab) (libhb : SoCall) : Except Abort SemTab := do
  let hb ← tab.hb.call libhb
  pure { tab with hb := hb, calls := tab.calls ++ [libhb] }

def setStack (tab : SemTab) (sem : Nat) (xa : List Nat) : SemTab :=
  { tab with mapSemToSOStack := tab.mapSemToSOStack.insert sem xa }

/-- The stack of a semaphore, whose top is the last element. -/
def stack (tab : SemTab) (sem : Nat) : List Nat :=
  (tab.mapSemToSOStack.lookup sem).getD []

def pushSOForSem (tab : SemTab) (sem so : Nat) : SemTab :=
  match tab.mapSemToSOStack.lookup sem with
  | some xa => tab.setStack sem (xa ++ [so])
  | none => tab.setStack sem [so]

def mbPopSOForSem (tab : SemTab) (sem : Nat) : SemTab × Option Nat :=
  match tab.mapSemToSOStack.lookup sem with
  | some xa =>
      match xa.getLast? with
      | none => (tab, none)
      | some so => (tab.setStack sem xa.dropLast, some so)
  | none => (tab, none)

/-- The loop that two of the handlers start with.  It ends with the first pop
that finds nothing, after as many rounds as there are elements. -/
def emptyStack (sem : Nat) : Nat → SemTab → Except Abort SemTab
  | 0, tab => .ok tab
  | rounds + 1, tab =>
      match tab.mbPopSOForSem sem with
      | (tab, none) => .ok tab
      | (tab, some so) => do
          let tab ← tab.call (.dealloc so)
          emptyStack sem rounds tab

def posixSemDestroyPre (tab : SemTab) (sem : Nat) : Except Abort SemTab := do
  let tab ← emptyStack sem ((tab.stack sem).length + 1) tab
  match tab.mapSemToSOStack.lookup sem with
  | some xa => do
      tlAssert (xa.length = 0)
      pure { tab with mapSemToSOStack := tab.mapSemToSOStack.erase sem }
  | none => pure tab

/-- A new object, with the clocks of the thread, goes onto the stack. -/
def sendNew (tab : SemTab) (thr sem so : Nat) : Except Abort SemTab := do
  let tab ← tab.call (.alloc so)
  let tab ← tab.call (.send thr so true)
  pure (tab.pushSOForSem sem so)

/-- The loop over `value`, which needs as many addresses. -/
def sendAll (thr sem : Nat) : Nat → List Nat → SemTab → Except Abort SemTab
  | 0, _, tab => .ok tab
  | _ + 1, [], _ => .error .dangling
  | value + 1, so :: sos, tab => do
      let tab ← tab.sendNew thr sem so
      sendAll thr sem value sos tab

def posixSemInitPost (tab : SemTab) (thr sem value : Nat) (sos : List Nat) :
    Except Abort (SemTab × List HgError) := do
  let _ ← tab.hb.getThr thr
  let tab ← emptyStack sem ((tab.stack sem).length + 1) tab
  let (value, errors) :=
    if value > 10000 then (10000, [HgError.misc thr
      "sem_init: initial value exceeds 10000; using 10000"])
    else (value, [])
  let tab ← sendAll thr sem value sos tab
  pure (tab, errors)

def posixSemPostPre (tab : SemTab) (thr sem so : Nat) :
    Except Abort SemTab := do
  let _ ← tab.hb.getThr thr
  tab.sendNew thr sem so

def posixSemWaitPost (tab : SemTab) (thr sem : Nat) :
    Except Abort (SemTab × List HgError) := do
  let _ ← tab.hb.getThr thr
  match tab.mbPopSOForSem sem with
  | (tab, some so) => do
      let tab ← tab.call (.recv thr so true)
      let tab ← tab.call (.dealloc so)
      pure (tab, [])
  | (tab, none) =>
      pure (tab, [.misc thr ("Bug in libpthread: sem_wait succeeded on" ++
        " semaphore without prior sem_post")])

end SemTab

inductive SemEvent where
  | initPost (thr sem value : Nat) (sos : List Nat)
  | postPre (thr sem so : Nat)
  | destroyPre (thr sem : Nat)
  | waitPost (thr sem : Nat)
  deriving DecidableEq

namespace SemTab

def handle (tab : SemTab) : SemEvent → Except Abort (SemTab × List HgError)
  | .initPost thr sem value sos => tab.posixSemInitPost thr sem value sos
  | .postPre thr sem so => do
      let tab ← tab.posixSemPostPre thr sem so
      pure (tab, [])
  | .destroyPre _ sem => do
      let tab ← tab.posixSemDestroyPre sem
      pure (tab, [])
  | .waitPost thr sem => tab.posixSemWaitPost thr sem

def handleLogged (acc : SemTab × List HgError) (event : SemEvent) :
    Except Abort (SemTab × List HgError) := do
  let (tab, errors) ← acc.1.handle event
  pure (tab, acc.2 ++ errors)

/-- A run, with the errors that are recorded. -/
def run (hb : Hb) (events : List SemEvent) :
    Except Abort (SemTab × List HgError) :=
  events.foldlM handleLogged (⟨hb, ∅, []⟩, [])

end SemTab

namespace SemEvent

def thr : SemEvent → Nat
  | initPost thr _ _ _ | postPre thr _ _ | destroyPre thr _ | waitPost thr _ =>
      thr

/-- The stacks after an event. -/
def stackAfter (stack : Nat → List Nat) : SemEvent → Nat → List Nat
  | initPost _ sem _ sos => Function.update stack sem sos
  | postPre _ sem so => Function.update stack sem (stack sem ++ [so])
  | destroyPre _ sem => Function.update stack sem []
  | waitPost _ sem => Function.update stack sem (stack sem).dropLast

def freeing (xa : List Nat) : List SoCall := xa.reverse.map .dealloc

def sending (thr : Nat) (sos : List Nat) : List SoCall :=
  sos.flatMap fun so => [.alloc so, .send thr so true]

/-- The calls that an event makes. -/
def callsAfter (stack : Nat → List Nat) : SemEvent → List SoCall
  | initPost thr sem _ sos => freeing (stack sem) ++ sending thr sos
  | postPre thr _ so => sending thr [so]
  | destroyPre _ sem => freeing (stack sem)
  | waitPost thr sem =>
      match (stack sem).getLast? with
      | some so => [.recv thr so true, .dealloc so]
      | none => []

end SemEvent

namespace SemTab

/-- The thread of an event exists, and the allocator finds room for new
objects, also where the event itself has freed some. -/
def Allowed (tab : SemTab) (event : SemEvent) : Prop :=
  (tab.hb.thrs.lookup event.thr).isSome ∧
  match event with
  | .initPost _ sem value sos => sos.length = value ∧ sos.Nodup ∧
      ∀ so ∈ sos, tab.hb.thrs.lookup so = none ∧
        (tab.hb.sos.lookup so = none ∨ so ∈ tab.stack sem)
  | .postPre _ _ so =>
      tab.hb.thrs.lookup so = none ∧ tab.hb.sos.lookup so = none
  | .destroyPre _ _ | .waitPost _ _ => True

end SemTab

/-- The threads and the synchronisation objects that exist. -/
def Hb.Pool (hb : Hb) (known live : Set Nat) : Prop :=
  ∃ abs : AbsHb, hb.Refines 0 abs ∧ (∀ t, abs.Exists t ↔ t ∈ known) ∧
    ∀ so, abs.sos so ≠ none ↔ so ∈ live

namespace Hb

section Pool

variable {hb : Hb} {known live : Set Nat} {thr so : Nat} {strong : Bool}

theorem Pool.getThr (pool : hb.Pool known live) (isKnown : thr ∈ known) :
    ∃ record, hb.getThr thr = .ok record := by
  obtain ⟨abs, refines, exist, -⟩ := pool
  obtain ⟨clocks, atThr⟩ :=
    Option.ne_none_iff_exists'.mp ((exist thr).mpr isKnown)
  obtain ⟨record, isThr, -⟩ := refines.thrs.of_some atThr
  exact ⟨record, getThr_of isThr⟩

theorem Pool.mem_known (pool : hb.Pool known live) :
    thr ∈ known ↔ (hb.thrs.lookup thr).isSome := by
  obtain ⟨abs, refines, exist, -⟩ := pool
  rw [← exist thr]
  cases atThr : abs.thrs thr with
  | none => simp [AbsHb.Exists, atThr, refines.thrs.of_none atThr]
  | some clocks =>
      obtain ⟨record, isThr, -⟩ := refines.thrs.of_some atThr
      simp [AbsHb.Exists, atThr, isThr]

theorem Pool.mem_live (pool : hb.Pool known live) :
    so ∈ live ↔ (hb.sos.lookup so).isSome := by
  obtain ⟨abs, refines, -, alive⟩ := pool
  rw [← alive so]
  cases atSO : abs.sos so with
  | none => simp [refines.sos.of_none atSO]
  | some contents =>
      obtain ⟨record, isSO, -⟩ := refines.sos.of_some atSO
      simp [isSO]

theorem Pool.alloc (pool : hb.Pool known live) (isKnown : thr ∈ known)
    (noThr : so ∉ known) (noSO : so ∉ live) :
    Returns (hb.call (.alloc so)) (·.Pool known (insert so live)) := by
  obtain ⟨abs, refines, exist, alive⟩ := pool
  obtain ⟨clocks, atThr⟩ :=
    Option.ne_none_iff_exists'.mp ((exist thr).mpr isKnown)
  have unused : abs.unused so = true := by
    have absentThr : abs.thrs so = none := by
      by_contra found
      exact noThr ((exist so).mp found)
    have absentSO : abs.sos so = none := by
      by_contra found
      exact noSO ((alive so).mp found)
    simp [AbsHb.unused, absentThr, absentSO]
  have allowed : abs.step (.soAlloc thr so) = some (abs.setSO so none) := by
    simp [AbsHb.step, atThr, unused]
  apply (soAlloc_simulates refines allowed).mono
  intro hb' simulates
  refine ⟨_, simulates.1, exist, ?_⟩
  intro other
  by_cases same : other = so
  · simp [AbsHb.setSO, same]
  · simp [AbsHb.setSO, same, alive other]

theorem Pool.send (pool : hb.Pool known live) (isKnown : thr ∈ known)
    (isLive : so ∈ live) :
    Returns (hb.call (.send thr so strong)) (·.Pool known live) := by
  obtain ⟨abs, refines, exist, alive⟩ := pool
  obtain ⟨clocks, atThr⟩ :=
    Option.ne_none_iff_exists'.mp ((exist thr).mpr isKnown)
  obtain ⟨contents, atSO⟩ :=
    Option.ne_none_iff_exists'.mp ((alive so).mpr isLive)
  have allowed : abs.step (.soSend thr so strong) = some ((abs.setSO so
      (some (AbsHb.sent contents clocks strong))).setThr thr
        (clocks.tick thr)) := by
    simp [AbsHb.step, atThr, atSO]
  apply (soSend_simulates refines allowed).mono
  intro hb' simulates
  refine ⟨_, simulates.1, ?_, ?_⟩
  · intro t
    by_cases same : t = thr
    · simp [AbsHb.Exists, AbsHb.setThr, same, isKnown]
    · simpa [AbsHb.Exists, AbsHb.setThr, AbsHb.setSO, same] using exist t
  · intro other
    by_cases same : other = so
    · simp [AbsHb.setThr, AbsHb.setSO, same, isLive]
    · simpa [AbsHb.setThr, AbsHb.setSO, same] using alive other

theorem Pool.recv (pool : hb.Pool known live) (isKnown : thr ∈ known)
    (isLive : so ∈ live) :
    Returns (hb.call (.recv thr so strong)) (·.Pool known live) := by
  obtain ⟨abs, refines, exist, alive⟩ := pool
  obtain ⟨clocks, atThr⟩ :=
    Option.ne_none_iff_exists'.mp ((exist thr).mpr isKnown)
  obtain ⟨contents, atSO⟩ :=
    Option.ne_none_iff_exists'.mp ((alive so).mpr isLive)
  have allowed : abs.step (.soRecv thr so strong) = some
      (abs.setThr thr (AbsHb.received clocks contents strong)) := by
    simp [AbsHb.step, atThr, atSO]
  apply (soRecv_simulates refines allowed).mono
  intro hb' simulates
  refine ⟨_, simulates.1, ?_, alive⟩
  intro t
  by_cases same : t = thr
  · simp [AbsHb.Exists, AbsHb.setThr, same, isKnown]
  · simpa [AbsHb.Exists, AbsHb.setThr, same] using exist t

theorem Pool.dealloc (pool : hb.Pool known live) (isKnown : thr ∈ known)
    (isLive : so ∈ live) :
    Returns (hb.call (.dealloc so)) (·.Pool known (live \ {so})) := by
  obtain ⟨abs, refines, exist, alive⟩ := pool
  obtain ⟨clocks, atThr⟩ :=
    Option.ne_none_iff_exists'.mp ((exist thr).mpr isKnown)
  obtain ⟨contents, atSO⟩ :=
    Option.ne_none_iff_exists'.mp ((alive so).mpr isLive)
  have allowed : abs.step (.soDealloc thr so) = some
      { abs with sos := Function.update abs.sos so none } := by
    simp [AbsHb.step, atThr, atSO]
  apply (soDealloc_simulates refines allowed).mono
  intro hb' simulates
  refine ⟨_, simulates.1, exist, ?_⟩
  intro other
  by_cases same : other = so
  · simp [same]
  · simp [same, alive other]

end Pool
end Hb

namespace SemTab

section Effects

variable {tab : SemTab} {known live : Set Nat} {thr sem so : Nat}
  {xa sos : List Nat}

theorem call_returns {libhb : SoCall} {after : Hb → Prop}
    (returns : Returns (tab.hb.call libhb) after) :
    Returns (tab.call libhb) (fun tab' => after tab'.hb ∧
      tab'.stack = tab.stack ∧ tab'.calls = tab.calls ++ [libhb]) := by
  unfold call
  apply returns.bind
  intro hb holds
  exact .pure ⟨holds, rfl, rfl⟩

theorem stack_setStack : (tab.setStack sem xa).stack =
    Function.update tab.stack sem xa := by
  funext other
  by_cases same : other = sem
  · subst same
    simp [stack, setStack]
  · simp [stack, setStack, same]

private theorem stack_push : (tab.pushSOForSem sem so).stack =
    Function.update tab.stack sem (tab.stack sem ++ [so]) := by
  unfold pushSOForSem
  split
  · rename_i xa found
    rw [stack_setStack, stack, found, Option.getD_some]
  · rename_i missing
    rw [stack_setStack, stack, missing, Option.getD_none, List.nil_append]

private theorem push_hb : (tab.pushSOForSem sem so).hb = tab.hb := by
  unfold pushSOForSem
  split <;> rfl

private theorem push_calls : (tab.pushSOForSem sem so).calls = tab.calls := by
  unfold pushSOForSem
  split <;> rfl

private theorem pop_nil (empty : tab.stack sem = []) :
    tab.mbPopSOForSem sem = (tab, none) := by
  unfold mbPopSOForSem
  split
  · rename_i xa found
    rw [stack, found, Option.getD_some] at empty
    rw [empty]
    rfl
  · rfl

private theorem pop_append (top : tab.stack sem = xa ++ [so]) :
    tab.mbPopSOForSem sem = (tab.setStack sem xa, some so) := by
  unfold mbPopSOForSem
  split
  · rename_i found
    rw [stack, found, Option.getD_some] at top
    subst top
    simp
  · rename_i missing
    rw [stack, missing, Option.getD_none] at top
    simp at top

theorem emptyStack_returns {rounds : Nat} (pool : tab.hb.Pool known live)
    (isKnown : thr ∈ known) (isStack : tab.stack sem = xa)
    (nodup : xa.Nodup) (all : ∀ so ∈ xa, so ∈ live)
    (enough : xa.length < rounds) :
    Returns (emptyStack sem rounds tab) (fun tab' =>
      tab'.hb.Pool known (live \ {so | so ∈ xa}) ∧
      tab'.stack = Function.update tab.stack sem [] ∧
      tab'.calls = tab.calls ++ SemEvent.freeing xa) := by
  induction xa using List.reverseRecOn generalizing tab live rounds with
  | nil =>
      obtain ⟨rounds, rfl⟩ := Nat.exists_eq_succ_of_ne_zero
        (Nat.ne_of_gt enough)
      rw [emptyStack, pop_nil isStack]
      refine .ok ⟨by simpa using pool, ?_, ?_⟩
      · rw [← isStack, Function.update_eq_self]
      · simp [SemEvent.freeing]
  | append_singleton xa so induction =>
      rw [List.length_append, List.length_singleton] at enough
      obtain ⟨rounds, rfl⟩ := Nat.exists_eq_succ_of_ne_zero
        (Nat.ne_of_gt (Nat.zero_lt_of_lt enough))
      rw [List.nodup_append] at nodup
      rw [emptyStack, pop_append isStack]
      dsimp only
      have popped : (tab.setStack sem xa).hb.Pool known live := pool
      apply (call_returns (popped.dealloc isKnown (all so (by simp)))).bind
      intro tab₁ after
      obtain ⟨pool₁, stack₁, calls₁⟩ := after
      rw [stack_setStack] at stack₁
      have rest : ∀ other ∈ xa, other ∈ live \ {so} := by
        intro other member
        refine ⟨all other (by simp [member]), ?_⟩
        exact nodup.2.2 other member so (by simp)
      apply (induction pool₁ (by simp [stack₁]) nodup.1 rest
        (by omega)).mono
      intro tab₂ after
      obtain ⟨pool₂, stack₂, calls₂⟩ := after
      refine ⟨?_, ?_, ?_⟩
      · have same : live \ {other | other ∈ xa ++ [so]} =
            (live \ {so}) \ {other | other ∈ xa} := by
          ext other
          simp only [Set.mem_sdiff, Set.mem_ofPred_eq, List.mem_append,
            List.mem_singleton, Set.mem_singleton_iff]
          tauto
        rw [same]
        exact pool₂
      · rw [stack₂, stack₁, Function.update_idem]
      · rw [calls₂, calls₁]
        simp [SemEvent.freeing, setStack]

private theorem sendNew_returns (pool : tab.hb.Pool known live)
    (isKnown : thr ∈ known) (noThr : so ∉ known) (noSO : so ∉ live) :
    Returns (tab.sendNew thr sem so) (fun tab' =>
      tab'.hb.Pool known (insert so live) ∧
      tab'.stack = Function.update tab.stack sem (tab.stack sem ++ [so]) ∧
      tab'.calls = tab.calls ++ SemEvent.sending thr [so]) := by
  unfold sendNew
  apply (call_returns (pool.alloc isKnown noThr noSO)).bind
  intro tab₁ after
  obtain ⟨pool₁, stack₁, calls₁⟩ := after
  apply (call_returns (pool₁.send isKnown (Set.mem_insert so live))).bind
  intro tab₂ after
  obtain ⟨pool₂, stack₂, calls₂⟩ := after
  apply Returns.pure
  rw [push_hb, stack_push, push_calls, stack₂, stack₁, calls₂, calls₁]
  exact ⟨pool₂, rfl, by simp [SemEvent.sending]⟩

private theorem sendAll_returns (pool : tab.hb.Pool known live)
    (isKnown : thr ∈ known) (nodup : sos.Nodup)
    (fresh : ∀ so ∈ sos, so ∉ known ∧ so ∉ live) :
    Returns (sendAll thr sem sos.length sos tab) (fun tab' =>
      tab'.hb.Pool known (live ∪ {so | so ∈ sos}) ∧
      tab'.stack = Function.update tab.stack sem (tab.stack sem ++ sos) ∧
      tab'.calls = tab.calls ++ SemEvent.sending thr sos) := by
  induction sos generalizing tab live with
  | nil => exact .ok ⟨by simpa using pool, by simp, by simp [SemEvent.sending]⟩
  | cons so sos induction =>
      obtain ⟨once, nodup⟩ := List.nodup_cons.mp nodup
      obtain ⟨noThr, noSO⟩ := fresh so (by simp)
      rw [List.length_cons, sendAll]
      apply (sendNew_returns pool isKnown noThr noSO).bind
      intro tab₁ after
      obtain ⟨pool₁, stack₁, calls₁⟩ := after
      have rest : ∀ other ∈ sos, other ∉ known ∧ other ∉ insert so live := by
        intro other member
        obtain ⟨noThr, noSO⟩ := fresh other (by simp [member])
        refine ⟨noThr, ?_⟩
        rw [Set.mem_insert_iff, not_or]
        exact ⟨fun same => once (same ▸ member), noSO⟩
      apply (induction pool₁ nodup rest).mono
      intro tab₂ after
      obtain ⟨pool₂, stack₂, calls₂⟩ := after
      refine ⟨?_, ?_, ?_⟩
      · have same : live ∪ {other | other ∈ so :: sos} =
            insert so live ∪ {other | other ∈ sos} := by
          ext other
          simp only [Set.mem_union, Set.mem_ofPred_eq, List.mem_cons,
            Set.mem_insert_iff]
          tauto
        rw [same]
        exact pool₂
      · rw [stack₂, stack₁]
        simp
      · rw [calls₂, calls₁]
        simp [SemEvent.sending]

/-- Every object on a stack exists, and is on no other stack. -/
structure Owned (live : Set Nat) (stack : Nat → List Nat) : Prop where
  all : ∀ sem so, so ∈ stack sem → so ∈ live
  nodup : ∀ sem, (stack sem).Nodup
  apart : ∀ sem other so, so ∈ stack sem → so ∈ stack other → sem = other

theorem Owned.update {live' : Set Nat} {stack : Nat → List Nat}
    (owned : Owned live stack) (nodup : xa.Nodup) (all : ∀ so ∈ xa, so ∈ live')
    (others : ∀ other, other ≠ sem → ∀ so ∈ stack other,
      so ∈ live' ∧ so ∉ xa) :
    Owned live' (Function.update stack sem xa) := by
  constructor
  · intro other so member
    by_cases same : other = sem
    · subst same
      exact all so (by simpa using member)
    · exact (others other same so (by simpa [same] using member)).1
  · intro other
    by_cases same : other = sem
    · subst same
      simpa using nodup
    · simpa [same] using owned.nodup other
  · intro left right so isLeft isRight
    by_cases sameLeft : left = sem
    · by_cases sameRight : right = sem
      · rw [sameLeft, sameRight]
      · rw [sameLeft, Function.update_self] at isLeft
        rw [Function.update_of_ne sameRight] at isRight
        exact absurd isLeft (others right sameRight so isRight).2
    · rw [Function.update_of_ne sameLeft] at isLeft
      by_cases sameRight : right = sem
      · rw [sameRight, Function.update_self] at isRight
        exact absurd isRight (others left sameLeft so isLeft).2
      · rw [Function.update_of_ne sameRight] at isRight
        exact owned.apart left right so isLeft isRight

/-- A wait finds something to take, and no semaphore starts with too much. -/
def Fits (stack : Nat → List Nat) : SemEvent → Prop
  | .initPost _ _ value _ => value ≤ 10000
  | .waitPost _ sem => stack sem ≠ []
  | .postPre _ _ _ | .destroyPre _ _ => True

/-- The state that an event leaves. -/
def Leaves (known : Set Nat) (tab : SemTab) (event : SemEvent)
    (tab' : SemTab) : Prop :=
  tab'.stack = event.stackAfter tab.stack ∧
  tab'.calls = tab.calls ++ event.callsAfter tab.stack ∧
  ∃ live, tab'.hb.Pool known live ∧ Owned live tab'.stack

private theorem initPost_returns {value : Nat} (pool : tab.hb.Pool known live)
    (owned : Owned live tab.stack)
    (allowed : tab.Allowed (.initPost thr sem value sos))
    (few : value ≤ 10000) :
    Returns (tab.posixSemInitPost thr sem value sos) (fun out =>
      out.2 = [] ∧ Leaves known tab (.initPost thr sem value sos) out.1) := by
  obtain ⟨isThr, length, nodup, room⟩ := allowed
  have isKnown : thr ∈ known := pool.mem_known.mpr isThr
  obtain ⟨record, found⟩ := pool.getThr isKnown
  unfold posixSemInitPost
  rw [found, ok_bind]
  apply (emptyStack_returns pool isKnown rfl (owned.nodup sem)
    (owned.all sem) (Nat.lt_succ_self _)).bind
  intro tab₁ after
  obtain ⟨pool₁, stack₁, calls₁⟩ := after
  rw [if_neg (Nat.not_lt.mpr few)]
  dsimp only
  have fresh : ∀ so ∈ sos, so ∉ known ∧
      so ∉ live \ {so | so ∈ tab.stack sem} := by
    intro so member
    obtain ⟨noThr, noSO⟩ := room so member
    constructor
    · rw [pool.mem_known, noThr]
      simp
    · rcases noSO with absent | freed
      · intro isLive
        have found := pool.mem_live.mp isLive.1
        rw [absent] at found
        cases found
      · exact fun isLive => isLive.2 freed
  rw [← length]
  apply (sendAll_returns pool₁ isKnown nodup fresh).bind
  intro tab₂ after
  obtain ⟨pool₂, stack₂, calls₂⟩ := after
  have isStack : tab₂.stack = Function.update tab.stack sem sos := by
    rw [stack₂, stack₁]
    simp
  refine .pure ⟨rfl, isStack, ?_, _, pool₂, ?_⟩
  · rw [calls₂, calls₁, SemEvent.callsAfter, List.append_assoc]
  · rw [isStack]
    apply owned.update nodup
    · intro so member
      exact .inr member
    · intro other apart so member
      have elsewhere : so ∉ tab.stack sem := fun here =>
        apart (owned.apart other sem so member here)
      have isLive : so ∈ live \ {so | so ∈ tab.stack sem} :=
        ⟨owned.all other so member, elsewhere⟩
      exact ⟨.inl isLive, fun isNew => (fresh so isNew).2 isLive⟩

private theorem postPre_returns (pool : tab.hb.Pool known live)
    (owned : Owned live tab.stack)
    (allowed : tab.Allowed (.postPre thr sem so)) :
    Returns (tab.posixSemPostPre thr sem so)
      (Leaves known tab (.postPre thr sem so)) := by
  obtain ⟨isThr, noThr, noSO⟩ := allowed
  have isKnown : thr ∈ known := pool.mem_known.mpr isThr
  obtain ⟨record, found⟩ := pool.getThr isKnown
  have notKnown : so ∉ known := by
    rw [pool.mem_known, noThr]
    simp
  have notLive : so ∉ live := by
    rw [pool.mem_live, noSO]
    simp
  unfold posixSemPostPre
  rw [found, ok_bind]
  apply (sendNew_returns pool isKnown notKnown notLive).mono
  intro tab₁ after
  obtain ⟨pool₁, stack₁, calls₁⟩ := after
  refine ⟨stack₁, calls₁, _, pool₁, ?_⟩
  rw [stack₁]
  apply owned.update
  · rw [List.nodup_append]
    refine ⟨owned.nodup sem, by simp, ?_⟩
    intro other member new isNew same
    rw [List.mem_singleton] at isNew
    rw [same, isNew] at member
    exact notLive (owned.all sem so member)
  · intro other member
    rcases List.mem_append.mp member with old | new
    · exact .inr (owned.all sem other old)
    · exact .inl (List.mem_singleton.mp new)
  · intro other apart old member
    have isLive := owned.all other old member
    refine ⟨.inr isLive, ?_⟩
    intro isHere
    rcases List.mem_append.mp isHere with here | new
    · exact apart (owned.apart other sem old member here)
    · rw [List.mem_singleton.mp new] at isLive
      exact notLive isLive

theorem destroyPre_returns (pool : tab.hb.Pool known live)
    (owned : Owned live tab.stack) (isKnown : thr ∈ known) :
    Returns (tab.posixSemDestroyPre sem)
      (Leaves known tab (.destroyPre thr sem)) := by
  unfold posixSemDestroyPre
  apply (emptyStack_returns pool isKnown rfl (owned.nodup sem)
    (owned.all sem) (Nat.lt_succ_self _)).bind
  intro tab₁ after
  obtain ⟨pool₁, stack₁, calls₁⟩ := after
  have owned₁ : Owned (live \ {so | so ∈ tab.stack sem})
      (Function.update tab.stack sem []) := by
    apply owned.update List.nodup_nil
    · simp
    · intro other apart so member
      refine ⟨⟨owned.all other so member, ?_⟩, by simp⟩
      exact fun here => apart (owned.apart other sem so member here)
  have empty : tab₁.stack sem = [] := by
    rw [stack₁, Function.update_self]
  cases found : tab₁.mapSemToSOStack.lookup sem with
  | none => exact .pure ⟨stack₁, calls₁, _, pool₁, stack₁ ▸ owned₁⟩
  | some xa =>
      rw [stack, found, Option.getD_some] at empty
      have none : xa.length = 0 := by rw [empty]; rfl
      dsimp only
      rw [tlAssert_of none, ok_bind]
      have isStack : stack ⟨tab₁.hb, tab₁.mapSemToSOStack.erase sem,
          tab₁.calls⟩ = Function.update tab.stack sem [] := by
        funext other
        by_cases same : other = sem
        · subst same
          simp [stack]
        · rw [← stack₁]
          simp [stack, same]
      exact .pure ⟨isStack, calls₁, _, pool₁, isStack ▸ owned₁⟩

private theorem waitPost_returns (pool : tab.hb.Pool known live)
    (owned : Owned live tab.stack) (isKnown : thr ∈ known)
    (top : tab.stack sem = xa ++ [so]) :
    Returns (tab.posixSemWaitPost thr sem) (fun out =>
      out.2 = [] ∧ Leaves known tab (.waitPost thr sem) out.1) := by
  obtain ⟨record, found⟩ := pool.getThr isKnown
  have isLive : so ∈ live := owned.all sem so (by simp [top])
  unfold posixSemWaitPost
  rw [found, ok_bind, pop_append top]
  dsimp only
  have popped : (tab.setStack sem xa).hb.Pool known live := pool
  apply (call_returns (popped.recv isKnown isLive)).bind
  intro tab₁ after
  obtain ⟨pool₁, stack₁, calls₁⟩ := after
  apply (call_returns (pool₁.dealloc isKnown isLive)).bind
  intro tab₂ after
  obtain ⟨pool₂, stack₂, calls₂⟩ := after
  rw [stack₁, stack_setStack] at stack₂
  refine .pure ⟨rfl, ?_, ?_, _, pool₂, ?_⟩
  · simp [stack₂, SemEvent.stackAfter, top]
  · simp [calls₂, calls₁, SemEvent.callsAfter, top, setStack]
  · have nodup := owned.nodup sem
    rw [top, List.nodup_append] at nodup
    rw [stack₂]
    apply owned.update nodup.1
    · intro other member
      refine ⟨owned.all sem other (by simp [top, member]), ?_⟩
      exact nodup.2.2 other member so (by simp)
    · intro other apart old member
      refine ⟨⟨owned.all other old member, ?_⟩, ?_⟩
      · intro same
        rw [Set.mem_singleton_iff.mp same] at member
        exact apart (owned.apart other sem so member (by simp [top]))
      · intro here
        exact apart (owned.apart other sem old member (by simp [top, here]))

/-- No event aborts, and none records an error. -/
theorem handle_returns {event : SemEvent} (pool : tab.hb.Pool known live)
    (owned : Owned live tab.stack) (allowed : tab.Allowed event)
    (fits : Fits tab.stack event) :
    Returns (tab.handle event) (fun out =>
      out.2 = [] ∧ Leaves known tab event out.1) := by
  have isKnown := pool.mem_known.mpr allowed.1
  cases event with
  | initPost thr sem value sos =>
      exact initPost_returns pool owned allowed fits
  | postPre thr sem so =>
      apply (postPre_returns pool owned allowed).bind
      intro tab' leaves
      exact .pure ⟨rfl, leaves⟩
  | destroyPre thr sem =>
      apply (destroyPre_returns pool owned isKnown).bind
      intro tab' leaves
      exact .pure ⟨rfl, leaves⟩
  | waitPost thr sem =>
      have top : tab.stack sem = (tab.stack sem).dropLast ++
          [(tab.stack sem).getLast fits] :=
        (List.dropLast_append_getLast fits).symm
      exact waitPost_returns pool owned isKnown top

end Effects
end SemTab
end HelgrindPlus
