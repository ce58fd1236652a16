import HelgrindPlus.Main.Threads

/-!
# Forks and joins

In every run the ids of the core and the `Thread`s that have one are inverse to
each other, as are the `Thr`s of libhb and all `Thread`s.  From this it follows
which events the handlers accept, and that a join orders the quitter before
everything that the stayer does from then on.
-/

namespace HelgrindPlus

open Outcome

namespace ThreadTab

variable {σ κ : Type}

/-- What the tables have to do with each other. -/
structure Wired (inv : σ → Prop) (held : σ → Holdings κ)
    (tab : ThreadTab σ) : Prop where
  sound : inv tab.libhb
  mapped : ∀ {tid thr}, tab.mapThreads.lookup tid = some thr →
    tid ≠ 0 ∧ tid < vgNThreads ∧
      ∃ thread, tab.threads.lookup thr = some thread ∧ thread.coretid = tid
  bound : ∀ {thr thread}, tab.threads.lookup thr = some thread →
    thread.coretid ≠ 0 → tab.mapThreads.lookup thread.coretid = some thr
  users : ∀ {thr thread}, tab.threads.lookup thr = some thread →
    tab.thrOpaque.lookup thread.hbthr = some thr
  owned : ∀ {hbthr thr}, tab.thrOpaque.lookup hbthr = some thr →
    ∃ thread, tab.threads.lookup thr = some thread ∧ thread.hbthr = hbthr
  live : ∀ {thr thread}, tab.threads.lookup thr = some thread →
    ∃ clock, (held tab.libhb).thrs thread.hbthr = some clock
  pthreads : ∀ {pthread thr},
    tab.mapPthreadToThread.lookup pthread = some thr →
    ∃ thread, tab.threads.lookup thr = some thread

section Tables

variable {tab : ThreadTab σ} {tid thr : Nat} {thread : ThreadRec}

theorem deref_eq_ok (found : tab.deref thr = .ok thread) :
    tab.threads.lookup thr = some thread := by
  unfold deref at found
  split at found
  · rename_i isThread
    cases found
    exact isThread
  · cases found

theorem deref_of_some (found : tab.threads.lookup thr = some thread) :
    tab.deref thr = .ok thread := by
  unfold deref
  rw [found]

theorem mapThreadsLookup_eq_ok (found : tab.mapThreadsLookup tid = .ok thr) :
    tab.mapThreads.lookup tid = some thr := by
  obtain ⟨result, maybe, found⟩ := bind_eq_ok.mp found
  obtain ⟨_, -, same⟩ := bind_eq_ok.mp maybe
  cases same
  split at found
  · rename_i thr' isThr
    cases found
    exact isThr
  · cases found

theorem mapThreadsLookup_of_some (sane : tid < vgNThreads)
    (found : tab.mapThreads.lookup tid = some thr) :
    tab.mapThreadsLookup tid = .ok thr := by
  have isSane : isSaneThreadId tid = true := decide_eq_true sane
  unfold mapThreadsLookup mapThreadsMaybeLookup
  rw [tlAssert_of isSane, ok_bind, found]
  rfl

/-- The tables with one more thread. -/
def added (tab : ThreadTab σ) (hbthr coretid fresh : Nat) : ThreadTab σ :=
  { tab with
    threads := tab.threads.insert fresh ⟨hbthr, coretid⟩
    thrOpaque := tab.thrOpaque.insert hbthr fresh
    mapThreads := tab.mapThreads.insert coretid fresh }

private theorem bindThread_eq {coretid : Nat}
    (found : tab.threads.lookup thr = some thread)
    (unbound : thread.coretid = vgInvalidThreadId) :
    tab.bindThread coretid thr = .ok { tab with
      mapThreads := tab.mapThreads.insert coretid thr
      threads := tab.threads.insert thr ⟨thread.hbthr, coretid⟩ } := by
  unfold bindThread
  rw [deref_of_some found, ok_bind, tlAssert_of unbound, ok_bind]
  rfl

private theorem addThread_eq {hbthr coretid fresh : Nat}
    (new : tab.threads.lookup fresh = none)
    (unowned : tab.thrOpaque.lookup hbthr = none) :
    tab.addThread hbthr coretid fresh =
      .ok (tab.added hbthr coretid fresh) := by
  have made : tab.mkThread hbthr fresh =
      .ok (tab.setThread fresh ⟨hbthr, vgInvalidThreadId⟩) := by
    unfold mkThread
    rw [new]
  have owned : (tab.setThread fresh ⟨hbthr, vgInvalidThreadId⟩).setThrOpaque
      hbthr fresh = .ok { tab.setThread fresh ⟨hbthr, vgInvalidThreadId⟩ with
        thrOpaque := tab.thrOpaque.insert hbthr fresh } := by
    have unowned' : (tab.setThread fresh
        ⟨hbthr, vgInvalidThreadId⟩).thrOpaque.lookup hbthr = none := unowned
    unfold setThrOpaque
    rw [tlAssert_of unowned', ok_bind]
    rfl
  unfold addThread
  rw [made, ok_bind, owned, ok_bind,
    bindThread_eq (AList.lookup_insert _) rfl]
  simp only [added, setThread, AList.insert_insert]

private theorem addThread_eq_ok {tab' : ThreadTab σ} {hbthr coretid fresh : Nat}
    (done : tab.addThread hbthr coretid fresh = .ok tab') :
    tab.threads.lookup fresh = none ∧ tab.thrOpaque.lookup hbthr = none ∧
      tab' = tab.added hbthr coretid fresh := by
  have new : tab.threads.lookup fresh = none := by
    obtain ⟨tab₁, made, -⟩ := bind_eq_ok.mp done
    unfold mkThread at made
    split at made
    · cases made
    · rename_i new
      exact new
  have unowned : tab.thrOpaque.lookup hbthr = none := by
    obtain ⟨tab₁, made, owned⟩ := bind_eq_ok.mp done
    obtain ⟨tab₂, owned, -⟩ := bind_eq_ok.mp owned
    obtain ⟨_, unowned, -⟩ := bind_eq_ok.mp owned
    unfold mkThread at made
    rw [new] at made
    cases made
    exact tlAssert_eq_ok unowned
  rw [addThread_eq new unowned] at done
  exact ⟨new, unowned, (Except.ok.inj done).symm⟩

end Tables

section Steps

variable {inv : σ → Prop} {held : σ → Holdings κ} {tab tab' : ThreadTab σ}

/-- The clock interface may change if no thread loses its clock. -/
theorem Wired.withLib (wired : Wired inv held tab) {libhb : σ}
    (sound : inv libhb)
    (grows : ∀ thr clock, (held tab.libhb).thrs thr = some clock →
      ∃ later, (held libhb).thrs thr = some later) :
    Wired inv held { tab with libhb := libhb } where
  sound := sound
  mapped := wired.mapped
  bound := wired.bound
  users := wired.users
  owned := wired.owned
  live := by
    intro thr thread found
    obtain ⟨clock, isClock⟩ := wired.live found
    exact grows _ clock isClock
  pthreads := wired.pthreads

theorem Wired.has_clock (wired : Wired inv held tab) {thr : Nat}
    {thread : ThreadRec} (found : tab.threads.lookup thr = some thread) :
    (held tab.libhb).thrs thread.hbthr ≠ none := by
  obtain ⟨clock, isClock⟩ := wired.live found
  rw [isClock]
  exact Option.some_ne_none clock

/-- An unused `Thr` belongs to no thread. -/
theorem Wired.unowned (wired : Wired inv held tab) {hbthr : Nat}
    (unused : (held tab.libhb).thrs hbthr = none) :
    tab.thrOpaque.lookup hbthr = none := by
  by_contra owned
  obtain ⟨thr, isThr⟩ := Option.ne_none_iff_exists'.mp owned
  obtain ⟨thread, isThread, same⟩ := wired.owned isThr
  obtain ⟨clock, isClock⟩ := wired.live isThread
  rw [same, unused] at isClock
  cases isClock

theorem Wired.added {hbthr coretid fresh : Nat} {clock : κ}
    (wired : Wired inv held tab) (valid : coretid ≠ 0)
    (sane : coretid < vgNThreads)
    (freeId : tab.mapThreads.lookup coretid = none)
    (new : tab.threads.lookup fresh = none)
    (unowned : tab.thrOpaque.lookup hbthr = none)
    (isClock : (held tab.libhb).thrs hbthr = some clock) :
    Wired inv held (tab.added hbthr coretid fresh) := by
  -- the threads that have been there are others
  have old : ∀ {thr thread}, tab.threads.lookup thr = some thread →
      thr ≠ fresh := by
    intro thr thread found same
    rw [same, new] at found
    cases found
  have kept : ∀ {thr thread}, tab.threads.lookup thr = some thread →
      (tab.added hbthr coretid fresh).threads.lookup thr = some thread := by
    intro thr thread found
    exact (AList.lookup_insert_ne (old found)).trans found
  have newest : (tab.added hbthr coretid fresh).threads.lookup fresh =
      some ⟨hbthr, coretid⟩ := AList.lookup_insert _
  have cases_thread : ∀ {thr thread},
      (tab.added hbthr coretid fresh).threads.lookup thr = some thread →
      (thr = fresh ∧ thread = ⟨hbthr, coretid⟩) ∨
        tab.threads.lookup thr = some thread := by
    intro thr thread found
    by_cases same : thr = fresh
    · rw [same, newest] at found
      exact .inl ⟨same, (Option.some.inj found).symm⟩
    · exact .inr ((AList.lookup_insert_ne same).symm.trans found)
  refine ⟨wired.sound, ?_, ?_, ?_, ?_, ?_, ?_⟩
  · intro tid thr found
    change (tab.mapThreads.insert coretid fresh).lookup tid = some thr at found
    by_cases same : tid = coretid
    · rw [same, AList.lookup_insert] at found
      cases found
      rw [same]
      exact ⟨valid, sane, _, newest, rfl⟩
    · rw [AList.lookup_insert_ne same] at found
      obtain ⟨nonzero, below, thread, isThread, isTid⟩ := wired.mapped found
      exact ⟨nonzero, below, thread, kept isThread, isTid⟩
  · intro thr thread found nonzero
    change (tab.mapThreads.insert coretid fresh).lookup _ = some thr
    obtain ⟨isNew, isRec⟩ | was := cases_thread found
    · rw [isRec, isNew, AList.lookup_insert]
    · have isBound := wired.bound was nonzero
      have different : thread.coretid ≠ coretid := by
        intro same
        rw [same, freeId] at isBound
        cases isBound
      rw [AList.lookup_insert_ne different]
      exact isBound
  · intro thr thread found
    change (tab.thrOpaque.insert hbthr fresh).lookup _ = some thr
    obtain ⟨isNew, isRec⟩ | was := cases_thread found
    · rw [isRec, isNew, AList.lookup_insert]
    · have isUser := wired.users was
      have different : thread.hbthr ≠ hbthr := by
        intro same
        rw [same, unowned] at isUser
        cases isUser
      rw [AList.lookup_insert_ne different]
      exact isUser
  · intro hbthr' thr found
    change (tab.thrOpaque.insert hbthr fresh).lookup hbthr' = some thr at found
    by_cases same : hbthr' = hbthr
    · rw [same, AList.lookup_insert] at found
      cases found
      rw [same]
      exact ⟨_, newest, rfl⟩
    · rw [AList.lookup_insert_ne same] at found
      obtain ⟨thread, isThread, isHb⟩ := wired.owned found
      exact ⟨thread, kept isThread, isHb⟩
  · intro thr thread found
    obtain ⟨-, isRec⟩ | was := cases_thread found
    · rw [isRec]
      exact ⟨clock, isClock⟩
    · exact wired.live was
  · intro pthread thr found
    obtain ⟨thread, isThread⟩ := wired.pthreads found
    exact ⟨thread, kept isThread⟩

/-- The tables without the id of a thread. -/
def exited (tab : ThreadTab σ) (quitTid thrQ hbthr : Nat) : ThreadTab σ :=
  { tab with
    threads := tab.threads.insert thrQ ⟨hbthr, vgInvalidThreadId⟩
    mapThreads := tab.mapThreads.erase quitTid }

def exitErrors (thrQ nHeld : Nat) : List HgError :=
  if nHeld > 0 then [.misc thrQ (stillHolds nHeld)] else []

/-- The asserts of the handler hold in every state of the tables. -/
theorem Wired.exit_eq (wired : Wired inv held tab) {quitTid thrQ : Nat}
    (nHeld : Nat) (found : tab.mapThreads.lookup quitTid = some thrQ) :
    ∃ threadQ, tab.threads.lookup thrQ = some threadQ ∧
      threadQ.coretid = quitTid ∧
      tab.preThreadLlExit quitTid nHeld =
        .ok (tab.exited quitTid thrQ threadQ.hbthr,
          exitErrors thrQ nHeld) := by
  obtain ⟨nonzero, below, threadQ, isThread, isTid⟩ := wired.mapped found
  refine ⟨threadQ, isThread, isTid, ?_⟩
  have still : (tab.setThread thrQ
      { threadQ with coretid := vgInvalidThreadId }).mapThreads.lookup
      quitTid = some thrQ := found
  have deleted : (tab.setThread thrQ
      { threadQ with coretid := vgInvalidThreadId }).mapThreadsDelete quitTid =
      .ok (tab.exited quitTid thrQ threadQ.hbthr) := by
    unfold mapThreadsDelete
    rw [tlAssert_of nonzero, ok_bind, mapThreadsLookup_of_some below still,
      ok_bind]
    rfl
  unfold preThreadLlExit
  rw [mapThreadsLookup_of_some below found, ok_bind,
    deref_of_some isThread, ok_bind, tlAssert_of isTid, ok_bind]
  exact bind_eq_ok.mpr ⟨_, deleted, rfl⟩

theorem exit_eq_ok {quitTid nHeld : Nat}
    {out : ThreadTab σ × List HgError}
    (done : tab.preThreadLlExit quitTid nHeld = .ok out) :
    ∃ thrQ, tab.mapThreads.lookup quitTid = some thrQ := by
  obtain ⟨thrQ, found, -⟩ := bind_eq_ok.mp done
  exact ⟨thrQ, mapThreadsLookup_eq_ok found⟩

theorem Wired.exited (wired : Wired inv held tab) {thrQ : Nat}
    {threadQ : ThreadRec} (isThread : tab.threads.lookup thrQ = some threadQ)
    (bound : tab.mapThreads.lookup threadQ.coretid = some thrQ) :
    Wired inv held (tab.exited threadQ.coretid thrQ threadQ.hbthr) := by
  have quit : (tab.exited threadQ.coretid thrQ threadQ.hbthr).threads.lookup
      thrQ = some ⟨threadQ.hbthr, vgInvalidThreadId⟩ := AList.lookup_insert _
  have other : ∀ {thr}, thr ≠ thrQ →
      (tab.exited threadQ.coretid thrQ threadQ.hbthr).threads.lookup thr =
        tab.threads.lookup thr := fun different =>
    AList.lookup_insert_ne different
  -- a thread keeps its `Thr`, and has had one before
  have same_hbthr : ∀ {thr thread},
      (tab.exited threadQ.coretid thrQ threadQ.hbthr).threads.lookup thr =
        some thread → ∃ before, tab.threads.lookup thr = some before ∧
          thread.hbthr = before.hbthr := by
    intro thr thread found
    by_cases same : thr = thrQ
    · rw [same, quit] at found
      cases found
      exact ⟨threadQ, same ▸ isThread, rfl⟩
    · rw [other same] at found
      exact ⟨thread, found, rfl⟩
  have kept : ∀ {thr thread}, tab.threads.lookup thr = some thread →
      ∃ after, (tab.exited threadQ.coretid thrQ
        threadQ.hbthr).threads.lookup thr = some after ∧
          after.hbthr = thread.hbthr := by
    intro thr thread found
    by_cases same : thr = thrQ
    · rw [same, isThread] at found
      cases found
      rw [same]
      exact ⟨_, quit, rfl⟩
    · exact ⟨thread, (other same).trans found, rfl⟩
  refine ⟨wired.sound, ?_, ?_, ?_, ?_, ?_, ?_⟩
  · intro tid thr found
    change (tab.mapThreads.erase threadQ.coretid).lookup tid = some thr at found
    by_cases same : tid = threadQ.coretid
    · rw [same, AList.lookup_erase] at found
      cases found
    · rw [AList.lookup_erase_ne same] at found
      obtain ⟨nonzero, below, thread, isRec, isTid⟩ := wired.mapped found
      have different : thr ≠ thrQ := by
        intro isQuit
        rw [isQuit, isThread] at isRec
        cases isRec
        exact same isTid.symm
      exact ⟨nonzero, below, thread, (other different).trans isRec, isTid⟩
  · intro thr thread found nonzero
    change (tab.mapThreads.erase threadQ.coretid).lookup _ = some thr
    have different : thr ≠ thrQ := by
      intro same
      rw [same, quit] at found
      cases found
      exact nonzero rfl
    rw [other different] at found
    have isBound := wired.bound found nonzero
    have apart : thread.coretid ≠ threadQ.coretid := by
      intro same
      rw [same, bound] at isBound
      exact different (Option.some.inj isBound).symm
    rw [AList.lookup_erase_ne apart]
    exact isBound
  · intro thr thread found
    obtain ⟨before, was, sameHb⟩ := same_hbthr found
    rw [sameHb]
    exact wired.users was
  · intro hbthr thr found
    obtain ⟨thread, isRec, isHb⟩ := wired.owned found
    obtain ⟨after, isAfter, sameHb⟩ := kept isRec
    exact ⟨after, isAfter, sameHb.trans isHb⟩
  · intro thr thread found
    obtain ⟨before, was, sameHb⟩ := same_hbthr found
    rw [sameHb]
    exact wired.live was
  · intro pthread thr found
    obtain ⟨thread, isRec⟩ := wired.pthreads found
    obtain ⟨after, isAfter, -⟩ := kept isRec
    exact ⟨after, isAfter⟩

theorem Wired.named (wired : Wired inv held tab) {tid pthread : Nat}
    (done : tab.setMyPthreadT tid pthread = .ok tab') :
    Wired inv held tab' := by
  obtain ⟨thr, found, same⟩ := bind_eq_ok.mp done
  cases same
  refine ⟨wired.sound, wired.mapped, wired.bound, wired.users, wired.owned,
    wired.live, ?_⟩
  intro pthread' thr' isThr
  by_cases same : pthread' = pthread
  · rw [same, AList.lookup_insert] at isThr
    cases isThr
    obtain ⟨-, -, thread, isRec, -⟩ :=
      wired.mapped (mapThreadsLookup_eq_ok found)
    exact ⟨thread, isRec⟩
  · rw [AList.lookup_insert_ne same] at isThr
    exact wired.pthreads isThr

def Bound (tab : ThreadTab σ) (tid : Nat) : Prop :=
  ∃ thr, tab.mapThreads.lookup tid = some thr

private theorem not_bound_iff {tid : Nat} :
    ¬ tab.Bound tid ↔ tab.mapThreads.lookup tid = none := by
  unfold Bound
  rw [← Option.ne_none_iff_exists', not_not]

theorem Wired.name_iff (wired : Wired inv held tab) {tid pthread : Nat} :
    (∃ tab', tab.setMyPthreadT tid pthread = .ok tab') ↔ tab.Bound tid := by
  constructor
  · intro returned
    obtain ⟨tab', done⟩ := returned
    obtain ⟨thr, found, -⟩ := bind_eq_ok.mp done
    exact ⟨thr, mapThreadsLookup_eq_ok found⟩
  · intro bound
    obtain ⟨thr, found⟩ := bound
    have below := (wired.mapped found).2.1
    exact ⟨_, bind_eq_ok.mpr
      ⟨thr, mapThreadsLookup_of_some below found, rfl⟩⟩

theorem Wired.exit_iff (wired : Wired inv held tab) {quitTid nHeld : Nat} :
    (∃ out, tab.preThreadLlExit quitTid nHeld = .ok out) ↔
      tab.Bound quitTid := by
  constructor
  · intro returned
    obtain ⟨out, done⟩ := returned
    exact exit_eq_ok done
  · intro bound
    obtain ⟨thrQ, found⟩ := bound
    obtain ⟨threadQ, -, -, exits⟩ := wired.exit_eq nHeld found
    exact ⟨_, exits⟩

/-- What a fork finds in the tables. -/
structure Forks (tab : ThreadTab σ) (parent child fresh freshHb : Nat)
    (threadP : ThreadRec) : Prop where
  parent : ∃ thrP, tab.mapThreads.lookup parent = some thrP ∧
    tab.threads.lookup thrP = some threadP
  sane : child < vgNThreads
  freeId : tab.mapThreads.lookup child = none
  new : tab.threads.lookup fresh = none
  unowned : tab.thrOpaque.lookup freshHb = none

theorem preThreadLlCreate_eq_ok {lib : LibHB σ κ}
    {parent child fresh freshHb : Nat}
    (done : tab.preThreadLlCreate lib parent child fresh freshHb =
      .ok tab') : (parent = vgInvalidThreadId ∧ tab' = tab) ∨
    ∃ threadP libhb, Forks tab parent child fresh freshHb threadP ∧
      lib.perform tab.libhb (.sync (.create threadP.hbthr freshHb)) =
        .ok libhb ∧
      tab' = ({ tab with libhb := libhb } : ThreadTab σ).added freshHb child
        fresh := by
  unfold preThreadLlCreate at done
  split at done
  · rename_i noParent
    cases done
    exact .inl ⟨noParent, rfl⟩
  · obtain ⟨_, -, done⟩ := bind_eq_ok.mp done
    obtain ⟨_, sane, done⟩ := bind_eq_ok.mp done
    obtain ⟨_, -, done⟩ := bind_eq_ok.mp done
    obtain ⟨thrP, found, done⟩ := bind_eq_ok.mp done
    obtain ⟨thrC, maybe, done⟩ := bind_eq_ok.mp done
    obtain ⟨_, -, same⟩ := bind_eq_ok.mp maybe
    cases same
    obtain ⟨_, freeId, done⟩ := bind_eq_ok.mp done
    obtain ⟨threadP, isP, done⟩ := bind_eq_ok.mp done
    obtain ⟨_, -, done⟩ := bind_eq_ok.mp done
    obtain ⟨libhb, created, done⟩ := bind_eq_ok.mp done
    obtain ⟨new, unowned, same⟩ := addThread_eq_ok done
    exact .inr ⟨threadP, libhb,
      ⟨⟨thrP, mapThreadsLookup_eq_ok found, deref_eq_ok isP⟩,
        of_decide_eq_true (tlAssert_eq_ok sane), tlAssert_eq_ok freeId, new,
        unowned⟩, created, same⟩

/-- The threads of a join: the quitter has no id any more. -/
structure Joins (tab : ThreadTab σ) (tid pthread : Nat)
    (threadS threadQ : ThreadRec) : Prop where
  stayer : ∃ thrS, tab.mapThreads.lookup tid = some thrS ∧
    tab.threads.lookup thrS = some threadS
  quitter : ∃ thrQ, tab.mapPthreadToThread.lookup pthread = some thrQ ∧
    tab.threads.lookup thrQ = some threadQ
  gone : threadQ.coretid = vgInvalidThreadId
  apart : threadS.hbthr ≠ threadQ.hbthr

variable {lib : LibHB σ κ}

private theorem joinRequest_eq_ok {tid pthread so : Nat}
    (done : tab.joinRequest lib tid pthread so = .ok tab') :
    ∃ threadS threadQ libhb, Joins tab tid pthread threadS threadQ ∧
      orderAfter lib tab.libhb threadS.hbthr threadQ.hbthr so = .ok libhb ∧
      tab' = { tab with libhb := libhb } := by
  unfold joinRequest at done
  split at done
  · cases done
  · rename_i thrQ isQuitter
    obtain ⟨_, -, done⟩ := bind_eq_ok.mp done
    obtain ⟨thrS, found, done⟩ := bind_eq_ok.mp done
    obtain ⟨_, -, done⟩ := bind_eq_ok.mp done
    obtain ⟨threadS, isS, done⟩ := bind_eq_ok.mp done
    obtain ⟨threadQ, isQ, done⟩ := bind_eq_ok.mp done
    obtain ⟨_, apart, done⟩ := bind_eq_ok.mp done
    obtain ⟨_, -, done⟩ := bind_eq_ok.mp done
    obtain ⟨_, -, done⟩ := bind_eq_ok.mp done
    obtain ⟨libhb, ordered, done⟩ := bind_eq_ok.mp done
    obtain ⟨tid', reversed, done⟩ := bind_eq_ok.mp done
    obtain ⟨_, gone, same⟩ := bind_eq_ok.mp done
    cases same
    obtain ⟨threadQ', isQ', reversed⟩ := bind_eq_ok.mp reversed
    obtain ⟨_, -, reversed⟩ := bind_eq_ok.mp reversed
    obtain ⟨_, -, same⟩ := bind_eq_ok.mp reversed
    cases same
    have sameQ : threadQ' = threadQ := by
      have first : tab.threads.lookup thrQ = some threadQ := deref_eq_ok isQ
      have second : tab.threads.lookup thrQ = some threadQ' :=
        deref_eq_ok isQ'
      exact Option.some.inj (second.symm.trans first)
    rw [sameQ] at gone
    exact ⟨threadS, threadQ, libhb,
      ⟨⟨thrS, mapThreadsLookup_eq_ok found, deref_eq_ok isS⟩,
        ⟨thrQ, isQuitter, deref_eq_ok isQ⟩, tlAssert_eq_ok gone,
        tlAssert_eq_ok apart⟩, ordered, rfl⟩

/-- The threads of a join that has to succeed. -/
theorem Wired.joins (wired : Wired inv held tab)
    {tid pthread thrS thrQ : Nat} {threadQ : ThreadRec}
    (stays : tab.mapThreads.lookup tid = some thrS)
    (quits : tab.mapPthreadToThread.lookup pthread = some thrQ)
    (isQ : tab.threads.lookup thrQ = some threadQ)
    (gone : threadQ.coretid = vgInvalidThreadId) :
    ∃ threadS, tab.threads.lookup thrS = some threadS ∧ thrS ≠ thrQ ∧
      Joins tab tid pthread threadS threadQ := by
  obtain ⟨nonzero, -, threadS, isS, isTid⟩ := wired.mapped stays
  have different : thrS ≠ thrQ := by
    intro same
    rw [same, isQ] at isS
    cases isS
    exact nonzero (isTid.symm.trans gone)
  refine ⟨threadS, isS, different, ⟨thrS, stays, isS⟩, ⟨thrQ, quits, isQ⟩,
    gone, ?_⟩
  intro same
  have first := wired.users isS
  rw [same, wired.users isQ] at first
  exact different (Option.some.inj first).symm

theorem Wired.join_returns (wired : Wired inv held tab)
    {tid pthread thrS thrQ so : Nat} {threadS threadQ : ThreadRec}
    {libhb : σ} (joins : Joins tab tid pthread threadS threadQ)
    (stays : tab.mapThreads.lookup tid = some thrS)
    (quits : tab.mapPthreadToThread.lookup pthread = some thrQ)
    (isS : tab.threads.lookup thrS = some threadS)
    (isQ : tab.threads.lookup thrQ = some threadQ) (different : thrS ≠ thrQ)
    (ordered : orderAfter lib tab.libhb threadS.hbthr threadQ.hbthr so =
      .ok libhb) :
    tab.joinRequest lib tid pthread so = .ok { tab with libhb := libhb } := by
  have below := (wired.mapped stays).2.1
  have isSane : isSaneThreadId tid = true := decide_eq_true below
  have root : tab.mapThreads.lookup vgInvalidThreadId = none := by
    by_contra bound
    obtain ⟨thr, isThr⟩ := Option.ne_none_iff_exists'.mp bound
    exact (wired.mapped isThr).1 rfl
  have reversed : mapThreadsMaybeReverseLookup { tab with libhb := libhb }
      thrQ = .ok vgInvalidThreadId := by
    have found : deref { tab with libhb := libhb } thrQ = .ok threadQ :=
      deref_of_some isQ
    unfold mapThreadsMaybeReverseLookup
    rw [found, ok_bind, tlAssert_of root, ok_bind, joins.gone]
    rfl
  unfold joinRequest pthreadJoinPost
  rw [quits]
  dsimp only
  rw [tlAssert_of isSane, ok_bind, mapThreadsLookup_of_some below stays,
    ok_bind, tlAssert_of different, ok_bind, deref_of_some isS, ok_bind,
    deref_of_some isQ, ok_bind, tlAssert_of joins.apart, ok_bind,
    tlAssert_of (wired.users isS), ok_bind, tlAssert_of (wired.users isQ),
    ok_bind, ordered, ok_bind]
  exact bind_eq_ok.mpr ⟨_, reversed, rfl⟩

variable [Preorder κ] [ClockOps κ]

theorem Wired.hb (laws : lib.ForkLaws inv held) (wired : Wired inv held tab)
    {op : HbOp} {libhb : σ} (done : lib.perform tab.libhb op = .ok libhb) :
    Wired inv held { tab with libhb := libhb } := by
  apply wired.withLib (laws.perform wired.sound done).1
  intro thr clock isClock
  obtain ⟨later, isLater, -⟩ := laws.grows wired.sound done thr clock isClock
  exact ⟨later, isLater⟩

theorem Wired.created (laws : lib.ForkLaws inv held)
    (wired : Wired inv held tab) {parent child fresh freshHb : Nat}
    (valid : child ≠ 0)
    (done : tab.preThreadLlCreate lib parent child fresh freshHb =
      .ok tab') : Wired inv held tab' := by
  obtain ⟨-, same⟩ | ⟨threadP, libhb, forks, created, same⟩ :=
    preThreadLlCreate_eq_ok done
  · rw [same]
    exact wired
  · obtain ⟨clock, -, after⟩ := laws.create wired.sound created
    have isChild : ∃ clock', (held libhb).thrs freshHb = some clock' := by
      rw [after]
      by_cases same : freshHb = threadP.hbthr
      · rw [same, Holdings.setThr_thrs_self]
        exact ⟨_, rfl⟩
      · rw [Holdings.setThr_thrs_other _ same, Holdings.setThr_thrs_self]
        exact ⟨_, rfl⟩
    obtain ⟨clock', isClock⟩ := isChild
    rw [same]
    exact (wired.hb laws created).added valid forks.sane forks.freeId
      forks.new forks.unowned isClock

/-- What the imaginary message does to the clocks. -/
structure Ordered (held : σ → Holdings κ) (libhb libhb' : σ)
    (stayer quitter : Nat) (own last : κ) : Prop where
  isOwn : (held libhb).thrs stayer = some own
  isLast : (held libhb).thrs quitter = some last
  atStayer : (held libhb').thrs stayer = some (ClockOps.join own last)
  atQuitter : (held libhb').thrs quitter = some (ClockOps.tick last quitter)
  others : ∀ other, other ≠ stayer → other ≠ quitter →
    (held libhb').thrs other = (held libhb).thrs other
  sos : (held libhb').sos = (held libhb).sos

theorem orderAfter_eq_ok (laws : lib.ForkLaws inv held) {libhb libhb' : σ}
    {stayer quitter so : Nat} (sound : inv libhb) (apart : stayer ≠ quitter)
    (done : orderAfter lib libhb stayer quitter so = .ok libhb') :
    inv libhb' ∧ ∃ own last,
      Ordered held libhb libhb' stayer quitter own last := by
  obtain ⟨libhb₁, allocated, done⟩ := bind_eq_ok.mp done
  obtain ⟨libhb₂, sent, done⟩ := bind_eq_ok.mp done
  obtain ⟨libhb₃, received, freed⟩ := bind_eq_ok.mp done
  obtain ⟨sound₁, unused, after₁⟩ := laws.soAlloc sound allocated
  have sound₂ := (laws.perform sound₁ sent).1
  obtain ⟨last, isLast, after₂⟩ := laws.strongSend sound₁ sent
  have sound₃ := (laws.perform sound₂ received).1
  obtain ⟨own, contents, isOwn, atSO, after₃⟩ := laws.soRecv sound₂ received
  obtain ⟨sound', -, after'⟩ := laws.soDealloc sound₃ freed
  rw [after₁, Holdings.setSO_thrs] at isLast
  rw [after₂, Holdings.setThr_thrs_other _ apart, Holdings.setSO_thrs,
    after₁, Holdings.setSO_thrs] at isOwn
  rw [after₂, Holdings.setThr_sos, Holdings.setSO_sos_self] at atSO
  cases atSO
  have thrs : (held libhb').thrs = (held libhb₃).thrs := by
    rw [after', Holdings.setSO_thrs]
  refine ⟨sound', own, last, isOwn, isLast, ?_, ?_, ?_, ?_⟩
  · rw [thrs, after₃, Holdings.setThr_thrs_self]
    rfl
  · rw [thrs, after₃, Holdings.setThr_thrs_other _ apart.symm, after₂,
      Holdings.setThr_thrs_self]
  · intro other notStayer notQuitter
    rw [thrs, after₃, Holdings.setThr_thrs_other _ notStayer, after₂,
      Holdings.setThr_thrs_other _ notQuitter, Holdings.setSO_thrs, after₁,
      Holdings.setSO_thrs]
  · funext so'
    by_cases same : so' = so
    · rw [same, after', Holdings.setSO_sos_self, unused]
    · rw [after', Holdings.setSO_sos_other _ same, after₃,
        Holdings.setThr_sos, after₂, Holdings.setThr_sos,
        Holdings.setSO_sos_other _ same, after₁,
        Holdings.setSO_sos_other _ same]

private theorem orderAfter_returns (laws : lib.ForkLaws inv held) {libhb : σ}
    {stayer quitter so : Nat} (sound : inv libhb)
    (free : (held libhb).Free so)
    (isStayer : (held libhb).thrs stayer ≠ none)
    (isQuitter : (held libhb).thrs quitter ≠ none) :
    ∃ libhb', orderAfter lib libhb stayer quitter so = .ok libhb' := by
  obtain ⟨libhb₁, allocated⟩ := (laws.alloc_iff sound).mpr free
  obtain ⟨sound₁, -, after₁⟩ := laws.soAlloc sound allocated
  have live₁ : (held libhb₁).sos so ≠ none := by
    rw [after₁, Holdings.setSO_sos_self]
    exact Option.some_ne_none _
  have quitter₁ : (held libhb₁).thrs quitter ≠ none := by
    rwa [after₁, Holdings.setSO_thrs]
  obtain ⟨libhb₂, sent⟩ := laws.send_returns sound₁ quitter₁ live₁
  have sound₂ := (laws.perform sound₁ sent).1
  obtain ⟨last, -, after₂⟩ := laws.strongSend sound₁ sent
  have live₂ : (held libhb₂).sos so ≠ none := by
    rw [after₂, Holdings.setThr_sos, Holdings.setSO_sos_self]
    exact Option.some_ne_none _
  have stayer₂ : (held libhb₂).thrs stayer ≠ none := by
    obtain ⟨clock, isClock⟩ := Option.ne_none_iff_exists'.mp isStayer
    have same : (held libhb₁).thrs stayer = some clock := by
      rw [after₁, Holdings.setSO_thrs, isClock]
    obtain ⟨later, isLater, -⟩ := laws.grows sound₁ sent stayer clock same
    rw [isLater]
    exact Option.some_ne_none later
  obtain ⟨libhb₃, received⟩ := laws.recv_returns sound₂ stayer₂ live₂
  have sound₃ := (laws.perform sound₂ received).1
  obtain ⟨own, contents, -, -, after₃⟩ := laws.soRecv sound₂ received
  have live₃ : (held libhb₃).sos so ≠ none := by
    rw [after₃, Holdings.setThr_sos]
    exact live₂
  obtain ⟨libhb', freed⟩ := laws.dealloc_returns sound₃ live₃
  refine ⟨libhb', ?_⟩
  unfold orderAfter
  rw [allocated, ok_bind, sent, ok_bind, received, ok_bind, freed]

theorem Wired.joined (laws : lib.ForkLaws inv held)
    (wired : Wired inv held tab) {tid pthread so : Nat}
    (done : tab.joinRequest lib tid pthread so = .ok tab') :
    Wired inv held tab' ∧ ∃ threadS threadQ own last,
      Joins tab tid pthread threadS threadQ ∧
      Ordered held tab.libhb tab'.libhb threadS.hbthr threadQ.hbthr
        own last := by
  obtain ⟨threadS, threadQ, libhb, joins, ordered, same⟩ :=
    joinRequest_eq_ok done
  obtain ⟨sound, own, last, clocks⟩ :=
    orderAfter_eq_ok laws wired.sound joins.apart ordered
  rw [same]
  refine ⟨wired.withLib sound ?_, threadS, threadQ, own, last, joins,
    clocks⟩
  intro thr clock isClock
  by_cases isStayer : thr = threadS.hbthr
  · rw [isStayer]
    exact ⟨_, clocks.atStayer⟩
  · by_cases isQuitter : thr = threadQ.hbthr
    · rw [isQuitter]
      exact ⟨_, clocks.atQuitter⟩
    · rw [clocks.others thr isStayer isQuitter]
      exact ⟨clock, isClock⟩

theorem Wired.perform (laws : lib.ForkLaws inv held)
    (wired : Wired inv held tab) {op : ThreadOp} {errors : List HgError}
    (valid : op.hasValidChild = true)
    (done : tab.perform lib op = .ok (tab', errors)) :
    Wired inv held tab' := by
  cases op with
  | hb op =>
      obtain ⟨libhb, performed, same⟩ := bind_eq_ok.mp done
      cases same
      exact wired.hb laws performed
  | llCreate parent child fresh freshHb =>
      obtain ⟨tab₁, created, same⟩ := bind_eq_ok.mp done
      cases same
      exact wired.created laws (of_decide_eq_true valid) created
  | setMyPthreadT tid pthread =>
      obtain ⟨tab₁, named, same⟩ := bind_eq_ok.mp done
      cases same
      exact wired.named named
  | llExit quitTid nHeld =>
      obtain ⟨thrQ, found⟩ := exit_eq_ok done
      obtain ⟨threadQ, isThread, isTid, exits⟩ :=
        wired.exit_eq nHeld found
      have same : (tab', errors) = _ :=
        Except.ok.inj (done.symm.trans exits)
      cases same
      rw [← isTid] at found ⊢
      exact wired.exited isThread found
  | joinPost tid pthread so =>
      obtain ⟨tab₁, joined, same⟩ := bind_eq_ok.mp done
      cases same
      exact (wired.joined laws joined).1

/-- The root thread has the id 1. -/
theorem Wired.init (laws : lib.ForkLaws inv held) {hbthrRoot root : Nat}
    (started : init lib hbthrRoot root = .ok tab) : Wired inv held tab := by
  obtain ⟨libhb, begun, started⟩ := bind_eq_ok.mp started
  obtain ⟨new, unowned, same⟩ := addThread_eq_ok started
  obtain ⟨clock, isClock⟩ :=
    Option.ne_none_iff_exists'.mp (laws.root_live begun)
  have empty : Wired inv held (⟨libhb, ∅, ∅, ∅, ∅⟩ : ThreadTab σ) := by
    constructor
    · exact (laws.init begun).1
    all_goals
      intro _ _ found
      cases found
  rw [same]
  exact empty.added Nat.one_ne_zero (by decide) rfl new unowned isClock

/-- An address that the allocator can return. -/
def Unused (lib : LibHB σ κ) (tab : ThreadTab σ) (addr : Nat) : Prop :=
  ∃ libhb, lib.soAlloc tab.libhb addr = .ok libhb

/-- A thread that has exited, under the name that `pthread_join` has for it. -/
def HasExited (tab : ThreadTab σ) (pthread : Nat) : Prop :=
  ∃ thrQ threadQ, tab.mapPthreadToThread.lookup pthread = some thrQ ∧
    tab.threads.lookup thrQ = some threadQ ∧
    threadQ.coretid = vgInvalidThreadId

/-- What the events of a thread need to succeed. -/
def Accepts (lib : LibHB σ κ) (tab : ThreadTab σ) : ThreadOp → Prop
  | .hb op => ∃ libhb, lib.perform tab.libhb op = .ok libhb
  | .llCreate parent child fresh freshHb =>
      parent = vgInvalidThreadId ∨ tab.Bound parent ∧ child < vgNThreads ∧
        ¬ tab.Bound child ∧ tab.threads.lookup fresh = none ∧
        tab.Unused lib freshHb
  | .setMyPthreadT tid _ => tab.Bound tid
  | .llExit quitTid _ => tab.Bound quitTid
  | .joinPost tid pthread so =>
      tab.Bound tid ∧ tab.HasExited pthread ∧ tab.Unused lib so

theorem Wired.create_iff (laws : lib.ForkLaws inv held)
    (wired : Wired inv held tab) {parent child fresh freshHb : Nat} :
    (∃ tab', tab.preThreadLlCreate lib parent child fresh freshHb =
      .ok tab') ↔ tab.Accepts lib (.llCreate parent child fresh freshHb) := by
  constructor
  · intro returned
    obtain ⟨tab', done⟩ := returned
    obtain ⟨none, -⟩ | ⟨threadP, libhb, forks, created, -⟩ :=
      preThreadLlCreate_eq_ok done
    · exact .inl none
    · obtain ⟨thrP, found, -⟩ := forks.parent
      have free := ((laws.create_iff wired.sound).mp ⟨libhb, created⟩).2
      exact .inr ⟨⟨thrP, found⟩, forks.sane, not_bound_iff.mpr forks.freeId,
        forks.new, (laws.alloc_iff wired.sound).mpr free⟩
  · intro ready
    unfold preThreadLlCreate
    by_cases noParent : parent = vgInvalidThreadId
    · rw [if_pos noParent]
      exact ⟨tab, rfl⟩
    rw [if_neg noParent]
    obtain ⟨bound, sane, noChild, new, unused⟩ := ready.resolve_left noParent
    obtain ⟨thrP, found⟩ := bound
    have apart : parent ≠ child := by
      intro same
      exact noChild ⟨thrP, same ▸ found⟩
    obtain ⟨-, below, threadP, isP, -⟩ := wired.mapped found
    have saneP : isSaneThreadId parent = true := decide_eq_true below
    have saneC : isSaneThreadId child = true := decide_eq_true sane
    have maybe : tab.mapThreadsMaybeLookup child = .ok none := by
      unfold mapThreadsMaybeLookup
      rw [tlAssert_of saneC, ok_bind, not_bound_iff.mp noChild]
      rfl
    -- libhb knows the parent, and the child is new to it
    have live := wired.has_clock isP
    have free := (laws.alloc_iff wired.sound).mp unused
    obtain ⟨libhb, created⟩ :=
      (laws.create_iff wired.sound).mpr ⟨live, free⟩
    have unowned := wired.unowned free.1
    refine ⟨({ tab with libhb := libhb } : ThreadTab σ).added freshHb child
      fresh, ?_⟩
    rw [tlAssert_of saneP, ok_bind, tlAssert_of saneC, ok_bind,
      tlAssert_of apart, ok_bind, mapThreadsLookup_of_some below found,
      ok_bind, maybe, ok_bind, tlAssert_of rfl, ok_bind, deref_of_some isP,
      ok_bind, tlAssert_of (wired.users isP), ok_bind, created, ok_bind]
    exact addThread_eq new unowned

theorem Wired.join_iff (laws : lib.ForkLaws inv held)
    (wired : Wired inv held tab) {tid pthread so : Nat} :
    (∃ tab', tab.joinRequest lib tid pthread so = .ok tab') ↔
      tab.Bound tid ∧ tab.HasExited pthread ∧ tab.Unused lib so := by
  constructor
  · intro returned
    obtain ⟨tab', done⟩ := returned
    obtain ⟨threadS, threadQ, libhb, joins, ordered, -⟩ :=
      joinRequest_eq_ok done
    obtain ⟨thrS, stays, -⟩ := joins.stayer
    obtain ⟨thrQ, quits, isQ⟩ := joins.quitter
    obtain ⟨libhb₁, allocated, -⟩ := bind_eq_ok.mp ordered
    exact ⟨⟨thrS, stays⟩, ⟨thrQ, threadQ, quits, isQ, joins.gone⟩,
      ⟨libhb₁, allocated⟩⟩
  · intro ready
    obtain ⟨⟨thrS, stays⟩, ⟨thrQ, threadQ, quits, isQ, gone⟩, unused⟩ := ready
    obtain ⟨threadS, isS, different, joins⟩ :=
      wired.joins stays quits isQ gone
    obtain ⟨libhb, ordered⟩ := orderAfter_returns laws wired.sound
      ((laws.alloc_iff wired.sound).mp unused)
      (wired.has_clock isS) (wired.has_clock isQ)
    exact ⟨_, wired.join_returns joins stays quits isS isQ different ordered⟩

theorem Wired.accepts (laws : lib.ForkLaws inv held)
    (wired : Wired inv held tab) {op : ThreadOp} :
    (∃ out, tab.perform lib op = .ok out) ↔ tab.Accepts lib op := by
  have silent : ∀ {α β : Type} {computation : Except Abort α} {f : α → β},
      (∃ out, (computation >>= fun result => Except.ok (f result)) =
        .ok out) ↔ ∃ result, computation = .ok result := by
    intro α β computation f
    constructor
    · intro returned
      obtain ⟨out, done⟩ := returned
      obtain ⟨result, done, -⟩ := bind_eq_ok.mp done
      exact ⟨result, done⟩
    · intro returned
      obtain ⟨result, done⟩ := returned
      exact ⟨f result, bind_eq_ok.mpr ⟨result, done, rfl⟩⟩
  cases op with
  | hb op => exact silent
  | llCreate parent child fresh freshHb =>
      exact silent.trans (wired.create_iff laws)
  | setMyPthreadT tid pthread => exact silent.trans wired.name_iff
  | llExit quitTid nHeld => exact wired.exit_iff
  | joinPost tid pthread so => exact silent.trans (wired.join_iff laws)

theorem Ordered.grows {libhb libhb' : σ} {stayer quitter : Nat} {own last : κ}
    (ordered : Ordered held libhb libhb' stayer quitter own last) :
    (held libhb).Grows (held libhb') := by
  intro thr clock isClock
  by_cases isStayer : thr = stayer
  · rw [isStayer, ordered.isOwn] at isClock
    cases isClock
    rw [isStayer]
    exact ⟨_, ordered.atStayer, ClockOps.le_join_left own last⟩
  · by_cases isQuitter : thr = quitter
    · rw [isQuitter, ordered.isLast] at isClock
      cases isClock
      rw [isQuitter]
      exact ⟨_, ordered.atQuitter, ClockOps.le_tick last quitter⟩
    · rw [ordered.others thr isStayer isQuitter]
      exact ⟨clock, isClock, le_rfl⟩

theorem Wired.grows (laws : lib.ForkLaws inv held)
    (wired : Wired inv held tab) {op : ThreadOp} {errors : List HgError}
    (done : tab.perform lib op = .ok (tab', errors)) :
    (held tab.libhb).Grows (held tab'.libhb) := by
  have still : (held tab.libhb).Grows (held tab.libhb) :=
    fun _ clock isClock => ⟨clock, isClock, le_rfl⟩
  cases op with
  | hb op =>
      obtain ⟨libhb, performed, same⟩ := bind_eq_ok.mp done
      cases same
      exact laws.grows wired.sound performed
  | llCreate parent child fresh freshHb =>
      obtain ⟨tab₁, created, same⟩ := bind_eq_ok.mp done
      cases same
      obtain ⟨-, same⟩ | ⟨threadP, libhb, -, performed, same⟩ :=
        preThreadLlCreate_eq_ok created
      · rw [same]
        exact still
      · rw [same]
        exact laws.grows wired.sound performed
  | setMyPthreadT tid pthread =>
      obtain ⟨tab₁, named, same⟩ := bind_eq_ok.mp done
      cases same
      obtain ⟨thr, -, same⟩ := bind_eq_ok.mp named
      cases same
      exact still
  | llExit quitTid nHeld =>
      obtain ⟨thrQ, found⟩ := exit_eq_ok done
      obtain ⟨threadQ, -, -, exits⟩ := wired.exit_eq nHeld found
      have same : (tab', errors) = _ :=
        Except.ok.inj (done.symm.trans exits)
      cases same
      exact still
  | joinPost tid pthread so =>
      obtain ⟨tab₁, joined, same⟩ := bind_eq_ok.mp done
      cases same
      obtain ⟨-, threadS, threadQ, own, last, -, ordered⟩ :=
        wired.joined laws joined
      exact ordered.grows

/-- A run keeps the tables wired, and takes no clock back. -/
theorem Wired.foldlM (laws : lib.ForkLaws inv held) (ops : List ThreadOp)
    (valid : ∀ op ∈ ops, op.hasValidChild = true)
    (wired : Wired inv held tab)
    (ran : ops.foldlM (ThreadTab.performSilent lib) tab = .ok tab') :
    Wired inv held tab' ∧ (held tab.libhb).Grows (held tab'.libhb) := by
  induction ops generalizing tab with
  | nil =>
      cases ran
      exact ⟨wired, fun _ clock isClock => ⟨clock, isClock, le_rfl⟩⟩
  | cons op ops induction =>
      obtain ⟨tab₁, done, ran⟩ := bind_eq_ok.mp ran
      obtain ⟨out, performed, same⟩ := bind_eq_ok.mp done
      cases same
      obtain ⟨wired', grows⟩ := induction
        (fun later isLater => valid later (.tail _ isLater))
        (wired.perform laws (valid op (.head _)) performed) ran
      exact ⟨wired', (wired.grows laws performed).trans grows⟩

theorem run_wired (laws : lib.ForkLaws inv held) {hbthrRoot root : Nat}
    {ops : List ThreadOp} (valid : ∀ op ∈ ops, op.hasValidChild = true)
    (ran : run lib hbthrRoot root ops = .ok tab) : Wired inv held tab := by
  obtain ⟨start, started, ran⟩ := bind_eq_ok.mp ran
  exact ((Wired.init laws started).foldlM laws ops valid ran).1

end Steps

variable {build : Build} {hbthrRoot root : Nat} {ops later : List ThreadOp}
  {tab tab' tab'' : ThreadTab build.Hb} {errors : List HgError}

/-- The ids and the `Thread`s that have one are inverse to each other, and so
are the `Thr`s and all `Thread`s. -/
theorem threads_wired (valid : ∀ op ∈ ops, op.hasValidChild = true)
    (ran : run build.lib hbthrRoot root ops = .ok tab) :
    (∀ tid thr, tab.mapThreads.lookup tid = some thr ↔ tid ≠ 0 ∧
      ∃ thread, tab.threads.lookup thr = some thread ∧
        thread.coretid = tid) ∧
    (∀ hbthr thr, tab.thrOpaque.lookup hbthr = some thr ↔
      ∃ thread, tab.threads.lookup thr = some thread ∧
        thread.hbthr = hbthr) ∧
    ∀ thr thread, tab.threads.lookup thr = some thread →
      thread.coretid < vgNThreads ∧
        (build.lib.thrClock tab.libhb thread.hbthr).isSome := by
  obtain ⟨inv, held, laws⟩ := build.forkLaws
  have wired := run_wired laws valid ran
  refine ⟨fun tid thr => ⟨?_, ?_⟩, fun hbthr thr => ⟨wired.owned, ?_⟩, ?_⟩
  · intro found
    obtain ⟨nonzero, -, isThread⟩ := wired.mapped found
    exact ⟨nonzero, isThread⟩
  · intro isThread
    obtain ⟨nonzero, thread, isThread, isTid⟩ := isThread
    have bound := wired.bound isThread (isTid ▸ nonzero)
    rwa [isTid] at bound
  · intro isThread
    obtain ⟨thread, isThread, isHb⟩ := isThread
    exact isHb ▸ wired.users isThread
  · intro thr thread found
    constructor
    · by_cases gone : thread.coretid = 0
      · rw [gone]
        decide
      · exact (wired.mapped (wired.bound found gone)).2.1
    · obtain ⟨clock, isClock⟩ := wired.live found
      rw [laws.thrClock wired.sound, isClock]
      rfl

/-- A thread that has exited, with a lock. -/
def forkedAndGone : List ThreadOp :=
  [.llCreate 1 2 20 2, .setMyPthreadT 2 77, .llExit 2 1]

theorem threads_wired_gone :
    ∃ tab, run Build.default.lib 1 10 forkedAndGone = .ok tab ∧
      (∀ tid thr, tab.mapThreads.lookup tid = some thr ↔ tid ≠ 0 ∧
        ∃ thread, tab.threads.lookup thr = some thread ∧
          thread.coretid = tid) ∧
      (∀ hbthr thr, tab.thrOpaque.lookup hbthr = some thr ↔
        ∃ thread, tab.threads.lookup thr = some thread ∧
          thread.hbthr = hbthr) ∧
      ∀ thr thread, tab.threads.lookup thr = some thread →
        thread.coretid < vgNThreads ∧
          (Build.default.lib.thrClock tab.libhb thread.hbthr).isSome := by
  have seen : (run Build.default.lib 1 10 forkedAndGone).toOption.map
      (fun tab => tab.mapThreads.lookup 2) = some none := by
    decide +kernel
  obtain ⟨tab, ran, -⟩ := exists_ok_of_map seen
  exact ⟨tab, ran, threads_wired (by decide) ran⟩

/-- No assertion of the handlers can fail but those about what the core and
the program do. -/
theorem accepts_iff {op : ThreadOp}
    (valid : ∀ op ∈ ops, op.hasValidChild = true)
    (ran : run build.lib hbthrRoot root ops = .ok tab) :
    (∃ out, tab.perform build.lib op = .ok out) ↔
      tab.Accepts build.lib op := by
  obtain ⟨inv, held, laws⟩ := build.forkLaws
  exact (run_wired laws valid ran).accepts laws

/-- The root thread joins the one that has exited. -/
theorem accepts_iff_gone :
    ∃ tab, run Build.ukal.lib 1 10 forkedAndGone = .ok tab ∧
      ((∃ out, tab.perform Build.ukal.lib (.joinPost 1 77 50) = .ok out) ↔
        tab.Accepts Build.ukal.lib (.joinPost 1 77 50)) := by
  have seen : (run Build.ukal.lib 1 10 forkedAndGone).toOption.map
      (fun tab => tab.mapThreads.lookup 2) = some none := by
    decide +kernel
  obtain ⟨tab, ran, -⟩ := exists_ok_of_map seen
  exact ⟨tab, ran, accepts_iff (by decide) ran⟩

/-- From the fork on the child is after all that the parent has done before. -/
theorem fork_orders {parent child fresh freshHb : Nat}
    (isParent : parent ≠ 0) (isChild : child ≠ 0)
    (valid : ∀ op ∈ ops ++ later, op.hasValidChild = true)
    (ran : run build.lib hbthrRoot root ops = .ok tab)
    (forks : tab.perform build.lib (.llCreate parent child fresh freshHb) =
      .ok (tab', errors))
    (continues : later.foldlM (performSilent build.lib) tab' = .ok tab'') :
    ∃ threadP own now, Forks tab parent child fresh freshHb threadP ∧
      build.lib.thrClock tab.libhb threadP.hbthr = some own ∧
      build.lib.thrClock tab''.libhb freshHb = some now ∧ own ≤ now := by
  obtain ⟨inv, held, laws⟩ := build.forkLaws
  have wired := run_wired laws
    (fun op isOp => valid op (List.mem_append_left later isOp)) ran
  have valid' : (ThreadOp.llCreate parent child fresh freshHb).hasValidChild =
      true := decide_eq_true isChild
  have wired' := wired.perform laws valid' forks
  obtain ⟨wired'', grows⟩ := wired'.foldlM laws later
    (fun op isOp => valid op (List.mem_append_right ops isOp)) continues
  obtain ⟨tab₁, created, same⟩ := bind_eq_ok.mp forks
  cases same
  obtain ⟨noParent, -⟩ | ⟨threadP, libhb, forks, created, same⟩ :=
    preThreadLlCreate_eq_ok created
  · exact absurd noParent isParent
  have free := ((laws.create_iff wired.sound).mp ⟨libhb, created⟩).2
  obtain ⟨own, isOwn, after⟩ := laws.create wired.sound created
  have apart : freshHb ≠ threadP.hbthr := by
    intro same
    rw [← same, free.1] at isOwn
    cases isOwn
  have atChild : (held tab'.libhb).thrs freshHb =
      some (ClockOps.tick own freshHb) := by
    rw [same]
    change (held libhb).thrs freshHb = _
    rw [after, Holdings.setThr_thrs_other _ apart, Holdings.setThr_thrs_self]
  obtain ⟨now, isNow, above⟩ := grows freshHb _ atChild
  refine ⟨threadP, own, now, forks, ?_, ?_,
    (ClockOps.le_tick own freshHb).trans above⟩
  · rw [laws.thrClock wired.sound, isOwn]
  · rw [laws.thrClock wired''.sound, isNow]

/-- The child has a child. -/
theorem fork_orders_nested :
    ∃ tab tab' tab'' errors threadP own now, Forks tab 1 2 20 2 threadP ∧
      run Build.default.lib 1 10 [] = .ok tab ∧
      tab.perform Build.default.lib (.llCreate 1 2 20 2) = .ok (tab', errors) ∧
      [ThreadOp.llCreate 2 3 30 3].foldlM
        (performSilent Build.default.lib) tab' = .ok tab'' ∧
      Build.default.lib.thrClock tab.libhb threadP.hbthr = some own ∧
      Build.default.lib.thrClock tab''.libhb 2 = some now ∧ own ≤ now := by
  have seen : (do
      let tab ← run Build.default.lib 1 10 []
      let (tab', errors) ← tab.perform Build.default.lib (.llCreate 1 2 20 2)
      let tab'' ← [ThreadOp.llCreate 2 3 30 3].foldlM
        (performSilent Build.default.lib) tab'
      pure (tab, tab', errors, tab'')).toOption.map (fun _ => ()) =
        some () := by
    decide +kernel
  obtain ⟨out, done, -⟩ := exists_ok_of_map seen
  obtain ⟨tab, ran, done⟩ := bind_eq_ok.mp done
  obtain ⟨⟨tab', errors⟩, forks, done⟩ := bind_eq_ok.mp done
  obtain ⟨tab'', continues, same⟩ := bind_eq_ok.mp done
  cases same
  obtain ⟨threadP, own, now, isFork, clocks⟩ := fork_orders
    Nat.one_ne_zero (Nat.succ_ne_zero 1) (by decide) ran forks continues
  exact ⟨tab, tab', tab'', errors, threadP, own, now, isFork, ran, forks,
    continues, clocks⟩

/-- A join takes over the last clock of the quitter, which has exited, and no
other; the stayer is after it from then on. -/
theorem join_orders {tid pthread so : Nat}
    (valid : ∀ op ∈ ops ++ later, op.hasValidChild = true)
    (ran : run build.lib hbthrRoot root ops = .ok tab)
    (joined : tab.perform build.lib (.joinPost tid pthread so) =
      .ok (tab', errors))
    (continues : later.foldlM (performSilent build.lib) tab' = .ok tab'') :
    ∃ threadS threadQ own last joined now,
      Joins tab tid pthread threadS threadQ ∧
      build.lib.thrClock tab.libhb threadS.hbthr = some own ∧
      build.lib.thrClock tab.libhb threadQ.hbthr = some last ∧
      build.lib.thrClock tab'.libhb threadS.hbthr = some joined ∧
      IsLUB {own, last} joined ∧
      (∀ thr, thr ≠ threadS.hbthr → thr ≠ threadQ.hbthr →
        build.lib.thrClock tab'.libhb thr =
          build.lib.thrClock tab.libhb thr) ∧
      (∀ so, build.lib.soClock tab'.libhb so =
        build.lib.soClock tab.libhb so) ∧
      build.lib.thrClock tab''.libhb threadS.hbthr = some now ∧
      joined ≤ now := by
  obtain ⟨inv, held, laws⟩ := build.forkLaws
  have wired := run_wired laws
    (fun op isOp => valid op (List.mem_append_left later isOp)) ran
  have wired' := wired.perform laws rfl joined
  obtain ⟨wired'', grows⟩ := wired'.foldlM laws later
    (fun op isOp => valid op (List.mem_append_right ops isOp)) continues
  obtain ⟨tab₁, done, same⟩ := bind_eq_ok.mp joined
  cases same
  obtain ⟨-, threadS, threadQ, own, last, joins, ordered⟩ :=
    wired.joined laws done
  obtain ⟨now, isNow, above⟩ := grows _ _ ordered.atStayer
  refine ⟨threadS, threadQ, own, last, ClockOps.join own last, now, joins,
    ?_, ?_, ?_, ⟨?_, ?_⟩, ?_, ?_, ?_, above⟩
  · rw [laws.thrClock wired.sound, ordered.isOwn]
  · rw [laws.thrClock wired.sound, ordered.isLast]
  · rw [laws.thrClock wired'.sound, ordered.atStayer]
  · intro clock isIn
    obtain same | same := isIn
    · rw [same]
      exact ClockOps.le_join_left own last
    · rw [same]
      exact ClockOps.le_join_right own last
  · intro clock isAbove
    exact ClockOps.join_le (isAbove (.inl rfl)) (isAbove (.inr rfl))
  · intro thr notStayer notQuitter
    rw [laws.thrClock wired'.sound, laws.thrClock wired.sound,
      ordered.others thr notStayer notQuitter]
  · intro so'
    rw [laws.soClock wired'.sound, laws.soClock wired.sound, ordered.sos]
  · rw [laws.thrClock wired''.sound, isNow]

/-- The id of the quitter is used again. -/
theorem join_orders_gone :
    ∃ tab tab' tab'' errors threadS threadQ own last joined now,
      run Build.ukas.lib 1 10 forkedAndGone = .ok tab ∧
      tab.perform Build.ukas.lib (.joinPost 1 77 50) = .ok (tab', errors) ∧
      [ThreadOp.llCreate 1 2 30 3].foldlM
        (performSilent Build.ukas.lib) tab' = .ok tab'' ∧
      Joins tab 1 77 threadS threadQ ∧
      Build.ukas.lib.thrClock tab.libhb threadS.hbthr = some own ∧
      Build.ukas.lib.thrClock tab.libhb threadQ.hbthr = some last ∧
      Build.ukas.lib.thrClock tab'.libhb threadS.hbthr = some joined ∧
      IsLUB {own, last} joined ∧
      (∀ thr, thr ≠ threadS.hbthr → thr ≠ threadQ.hbthr →
        Build.ukas.lib.thrClock tab'.libhb thr =
          Build.ukas.lib.thrClock tab.libhb thr) ∧
      (∀ so, Build.ukas.lib.soClock tab'.libhb so =
        Build.ukas.lib.soClock tab.libhb so) ∧
      Build.ukas.lib.thrClock tab''.libhb threadS.hbthr = some now ∧
      joined ≤ now := by
  have seen : (do
      let tab ← run Build.ukas.lib 1 10 forkedAndGone
      let (tab', errors) ← tab.perform Build.ukas.lib (.joinPost 1 77 50)
      let tab'' ← [ThreadOp.llCreate 1 2 30 3].foldlM
        (performSilent Build.ukas.lib) tab'
      pure (tab, tab', errors, tab'')).toOption.map (fun _ => ()) =
        some () := by
    decide +kernel
  obtain ⟨out, done, -⟩ := exists_ok_of_map seen
  obtain ⟨tab, ran, done⟩ := bind_eq_ok.mp done
  obtain ⟨⟨tab', errors⟩, joined, done⟩ := bind_eq_ok.mp done
  obtain ⟨tab'', continues, same⟩ := bind_eq_ok.mp done
  cases same
  obtain ⟨threadS, threadQ, own, last, after, now, joins, clocks⟩ :=
    join_orders (by decide) ran joined continues
  exact ⟨tab, tab', tab'', errors, threadS, threadQ, own, last, after, now,
    ran, joined, continues, joins, clocks⟩

end ThreadTab

end HelgrindPlus
