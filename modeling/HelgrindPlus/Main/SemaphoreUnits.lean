import HelgrindPlus.Main.Semaphore

/-!
# Semaphore units

The value of a semaphore, counted along the events, is the height of its
stack.  Every unit is one synchronisation object: it is sent to once, by the
event that makes the unit, received from at most once, by the wait that takes
it, and not used again before its address is allocated anew.
-/

namespace HelgrindPlus

open Outcome

inductive SoLife where
  | absent | made | sent | received
  deriving DecidableEq

def SoLife.next : SoLife → SoCall → Option SoLife
  | .absent, .alloc _ => some .made
  | .made, .send _ _ true => some .sent
  | .sent, .recv _ _ true => some .received
  | .sent, .dealloc _ | .received, .dealloc _ => some .absent
  | _, _ => none

/-- What the calls make of the object at an address; `none` if one of them
comes at a wrong time. -/
def lifeOf (so : Nat) (calls : List SoCall) : Option SoLife :=
  (calls.filter (·.so = so)).foldlM SoLife.next .absent

section Life

variable {calls more : List SoCall} {stack : Nat → List Nat}
  {thr sem so : Nat} {xa sos : List Nat} {life : SoLife}

theorem lifeOf_append (isLife : lifeOf so calls = some life) :
    lifeOf so (calls ++ more) =
      (more.filter (·.so = so)).foldlM SoLife.next life := by
  unfold lifeOf at isLife ⊢
  rw [List.filter_append, List.foldlM_append, isLife]
  rfl

theorem lifeOf_untouched (isLife : lifeOf so calls = some life)
    (untouched : ∀ call ∈ more, call.so ≠ so) :
    lifeOf so (calls ++ more) = some life := by
  have none : more.filter (·.so = so) = [] := by
    simpa [List.filter_eq_nil_iff] using untouched
  rw [lifeOf_append isLife, none]
  rfl

private theorem filter_freeing (nodup : xa.Nodup) (member : so ∈ xa) :
    (SemEvent.freeing xa).filter (·.so = so) = [.dealloc so] := by
  have one : xa.reverse.filter (· = so) = [so] := by
    rw [List.filter_eq, List.count_reverse,
      List.count_eq_one_of_mem nodup member]
    rfl
  unfold SemEvent.freeing
  rw [List.filter_map]
  change List.map SoCall.dealloc (xa.reverse.filter (· = so)) = _
  rw [one]
  rfl

theorem freeing_so {call : SoCall} (member : call ∈ SemEvent.freeing xa) :
    call.so ∈ xa := by
  unfold SemEvent.freeing at member
  obtain ⟨so, isFreed, rfl⟩ := List.mem_map.mp member
  exact List.mem_reverse.mp isFreed

theorem sending_so {call : SoCall} (member : call ∈ SemEvent.sending thr sos) :
    call.so ∈ sos := by
  unfold SemEvent.sending at member
  obtain ⟨so, isSent, isCall⟩ := List.mem_flatMap.mp member
  simp only [List.mem_cons, List.not_mem_nil, or_false] at isCall
  rcases isCall with rfl | rfl
  · exact isSent
  · exact isSent

private theorem mem_sending (member : so ∈ sos) :
    .send thr so true ∈ SemEvent.sending thr sos :=
  List.mem_flatMap.mpr ⟨so, member, by simp⟩

private theorem filter_sending (nodup : sos.Nodup) (member : so ∈ sos) :
    (SemEvent.sending thr sos).filter (·.so = so) =
      [.alloc so, .send thr so true] := by
  induction sos with
  | nil => cases member
  | cons first sos induction =>
      obtain ⟨once, nodup⟩ := List.nodup_cons.mp nodup
      have split : SemEvent.sending thr (first :: sos) =
          [.alloc first, .send thr first true] ++
            SemEvent.sending thr sos := by
        simp [SemEvent.sending]
      rw [split, List.filter_append]
      rcases List.mem_cons.mp member with rfl | later
      · have none : (SemEvent.sending thr sos).filter (·.so = so) = [] := by
          rw [List.filter_eq_nil_iff]
          intro call isCall same
          exact once (of_decide_eq_true same ▸ sending_so isCall)
        rw [none]
        simp [SoCall.so]
      · have apart : first ≠ so := fun same => once (same ▸ later)
        rw [induction nodup later]
        simp [SoCall.so, apart]

/-- The objects on the stacks are sent to, and the others do not exist or are
none of ours. -/
structure Alive (calls : List SoCall) (stack : Nat → List Nat) : Prop where
  stacked : ∀ sem so, so ∈ stack sem → lifeOf so calls = some .sent
  others : ∀ so, (∀ sem, so ∉ stack sem) → lifeOf so calls = some .absent

theorem Alive.free (alive : Alive calls stack) (nodup : (stack sem).Nodup)
    (apart : ∀ other so, so ∈ stack other → so ∈ stack sem → other = sem) :
    Alive (calls ++ SemEvent.freeing (stack sem))
      (Function.update stack sem []) := by
  constructor
  · intro other so member
    by_cases same : other = sem
    · simp [same] at member
    · rw [Function.update_of_ne same] at member
      apply lifeOf_untouched (alive.stacked other so member)
      intro call isCall here
      exact same (apart other so member (here ▸ freeing_so isCall))
  · intro so nowhere
    by_cases freed : so ∈ stack sem
    · rw [lifeOf_append (alive.stacked sem so freed),
        filter_freeing nodup freed]
      rfl
    · apply lifeOf_untouched
      · apply alive.others
        intro other
        by_cases same : other = sem
        · rw [same]
          exact freed
        · simpa [same] using nowhere other
      · intro call isCall here
        exact freed (here ▸ freeing_so isCall)

theorem Alive.make (alive : Alive calls stack) (nodup : sos.Nodup)
    (fresh : ∀ so ∈ sos, ∀ other, so ∉ stack other) :
    Alive (calls ++ SemEvent.sending thr sos)
      (Function.update stack sem (stack sem ++ sos)) := by
  constructor
  · intro other so member
    by_cases isNew : so ∈ sos
    · rw [lifeOf_append (alive.others so (fresh so isNew)),
        filter_sending nodup isNew]
      rfl
    · have old : so ∈ stack other := by
        by_cases same : other = sem
        · subst same
          simpa [isNew] using member
        · simpa [same] using member
      apply lifeOf_untouched (alive.stacked other so old)
      intro call isCall here
      exact isNew (here ▸ sending_so isCall)
  · intro so nowhere
    apply lifeOf_untouched
    · apply alive.others
      intro other member
      apply nowhere other
      by_cases same : other = sem
      · subst same
        simp [member]
      · simpa [same] using member
    · intro call isCall here
      apply nowhere sem
      simp [here ▸ sending_so isCall]

theorem Alive.take (alive : Alive calls stack) (top : stack sem = xa ++ [so])
    (nodup : (stack sem).Nodup)
    (apart : ∀ other so, so ∈ stack other → so ∈ stack sem → other = sem) :
    Alive (calls ++ [.recv thr so true, .dealloc so])
      (Function.update stack sem xa) := by
  have isTop : so ∈ stack sem := by simp [top]
  have once : so ∉ xa := by
    rw [top, List.nodup_append] at nodup
    exact fun member => nodup.2.2 so member so (by simp) rfl
  constructor
  · intro other held member
    have old : held ∈ stack other ∧ held ≠ so := by
      by_cases same : other = sem
      · subst same
        rw [Function.update_self] at member
        exact ⟨by simp [top, member], fun here => once (here ▸ member)⟩
      · rw [Function.update_of_ne same] at member
        exact ⟨member, fun here => same (apart other held member
          (here ▸ isTop))⟩
    apply lifeOf_untouched (alive.stacked other held old.1)
    intro call isCall here
    simp only [List.mem_cons, List.not_mem_nil, or_false] at isCall
    rcases isCall with rfl | rfl
    · exact old.2 here.symm
    · exact old.2 here.symm
  · intro other nowhere
    by_cases same : other = so
    · subst same
      rw [lifeOf_append (alive.stacked sem other isTop)]
      simp [SoCall.so, SoLife.next]
    · apply lifeOf_untouched
      · apply alive.others
        intro held member
        apply nowhere held
        by_cases here : held = sem
        · subst here
          simpa [top, same] using member
        · simpa [here] using member
      · intro call isCall here
        simp only [List.mem_cons, List.not_mem_nil, or_false] at isCall
        rcases isCall with rfl | rfl
        · exact same here.symm
        · exact same here.symm

end Life

namespace SemEvent

/-- The value of a semaphore after an event. -/
def valueAfter (sem old : Nat) : SemEvent → Nat
  | initPost _ addr value _ => if addr = sem then value else old
  | postPre _ addr _ => if addr = sem then old + 1 else old
  | destroyPre _ addr => if addr = sem then 0 else old
  | waitPost _ addr => if addr = sem then old - 1 else old

def valueAt (events : List SemEvent) (sem : Nat) : Nat → Nat
  | 0 => 0
  | n + 1 =>
      match events[n]? with
      | some event => event.valueAfter sem (valueAt events sem n)
      | none => valueAt events sem n

/-- A wait only completes while the value is positive. -/
def Legal (value : Nat → Nat) : SemEvent → Prop
  | initPost _ _ initial _ => initial ≤ 10000
  | waitPost _ sem => 0 < value sem
  | postPre _ _ _ | destroyPre _ _ => True

def Resets (sem : Nat) : SemEvent → Prop
  | initPost _ addr _ _ | destroyPre _ addr => addr = sem
  | postPre _ _ _ | waitPost _ _ => False

/-- The events that make units. -/
def Makes (thr sem : Nat) : SemEvent → Prop
  | initPost actor addr _ _ | postPre actor addr _ =>
      actor = thr ∧ addr = sem
  | destroyPre _ _ | waitPost _ _ => False

/-- The addresses of new objects are on no stack, unless the event empties
it. -/
def Fresh (stack : Nat → List Nat) : SemEvent → Prop
  | initPost _ sem _ sos => sos.Nodup ∧
      ∀ so ∈ sos, ∀ other, other ≠ sem → so ∉ stack other
  | postPre _ _ so => ∀ other, so ∉ stack other
  | destroyPre _ _ | waitPost _ _ => True

section Effects

variable {event : SemEvent} {stack : Nat → List Nat} {live : Set Nat}
  {calls : List SoCall} {sem so : Nat}

theorem alive_after (alive : Alive calls stack)
    (owned : SemTab.Owned live stack) (fresh : event.Fresh stack)
    (fits : SemTab.Fits stack event) :
    Alive (calls ++ event.callsAfter stack) (event.stackAfter stack) := by
  have apart : ∀ sem other so, so ∈ stack other → so ∈ stack sem →
      other = sem :=
    fun sem other so isOther here => owned.apart other sem so isOther here
  cases event with
  | initPost thr sem value sos =>
      have freed := alive.free (owned.nodup sem) (apart sem)
      have room : ∀ so ∈ sos, ∀ other,
          so ∉ Function.update stack sem [] other := by
        intro so member other isOther
        by_cases same : other = sem
        · simp [same] at isOther
        · rw [Function.update_of_ne same] at isOther
          exact fresh.2 so member other same isOther
      have made : Alive
          ((calls ++ freeing (stack sem)) ++ sending thr sos)
          (Function.update (Function.update stack sem []) sem
            (Function.update stack sem [] sem ++ sos)) :=
        freed.make fresh.1 room
      simpa [callsAfter, stackAfter] using made
  | postPre thr sem so =>
      apply alive.make (List.nodup_singleton so)
      intro other member
      rw [List.mem_singleton.mp member]
      exact fresh
  | destroyPre thr sem => exact alive.free (owned.nodup sem) (apart sem)
  | waitPost thr sem =>
      have top : stack sem = (stack sem).dropLast ++
          [(stack sem).getLast fits] :=
        (List.dropLast_append_getLast fits).symm
      have last : (stack sem).getLast? = some ((stack sem).getLast fits) :=
        List.getLast?_eq_some_getLast fits
      rw [callsAfter, last]
      exact alive.take top (owned.nodup sem) (apart sem)

private theorem getLast_of_mem {call : SoCall} {thr : Nat}
    (member : call ∈ callsAfter stack (.waitPost thr sem)) :
    (stack sem).getLast? = some call.so := by
  simp only [callsAfter] at member
  split at member
  · rename_i so isTop
    simp only [List.mem_cons, List.not_mem_nil, or_false] at member
    rcases member with rfl | rfl
    · exact isTop
    · exact isTop
  · cases member

/-- A unit was there before, and its object is left alone, or the event makes
it. -/
theorem mem_stackAfter (owned : SemTab.Owned live stack)
    (fresh : event.Fresh stack) (member : so ∈ event.stackAfter stack sem) :
    (so ∈ stack sem ∧ ¬ event.Resets sem ∧
      ∀ call ∈ event.callsAfter stack, call.so ≠ so) ∨
    ∃ thr, event.Makes thr sem ∧
      .send thr so true ∈ event.callsAfter stack := by
  cases event with
  | initPost thr addr value sos =>
      by_cases same : sem = addr
      · subst same
        right
        have isNew : so ∈ sos := by simpa [stackAfter] using member
        exact ⟨thr, ⟨rfl, rfl⟩, List.mem_append_right _ (mem_sending isNew)⟩
      · left
        have old : so ∈ stack sem := by simpa [stackAfter, same] using member
        refine ⟨old, fun here => same here.symm, ?_⟩
        intro call isCall here
        rcases List.mem_append.mp isCall with freed | made
        · exact same (owned.apart sem addr so old (here ▸ freeing_so freed))
        · exact fresh.2 so (here ▸ sending_so made) sem same old
  | postPre thr addr new =>
      by_cases isNew : so = new
      · subst isNew
        have here : sem = addr := by
          by_contra other
          simp only [stackAfter, Function.update_of_ne other] at member
          exact fresh sem member
        exact .inr ⟨thr, ⟨rfl, here.symm⟩, mem_sending (by simp)⟩
      · left
        have old : so ∈ stack sem := by
          by_cases same : sem = addr
          · subst same
            simpa [stackAfter, isNew] using member
          · simpa [stackAfter, same] using member
        refine ⟨old, not_false, ?_⟩
        intro call isCall here
        exact isNew (here ▸ List.mem_singleton.mp (sending_so isCall))
  | destroyPre thr addr =>
      left
      have apart : sem ≠ addr := by
        intro same
        simp [stackAfter, same] at member
      have old : so ∈ stack sem := by simpa [stackAfter, apart] using member
      refine ⟨old, fun here => apart here.symm, ?_⟩
      intro call isCall here
      exact apart (owned.apart sem addr so old (here ▸ freeing_so isCall))
  | waitPost thr addr =>
      left
      have old : so ∈ stack sem := by
        by_cases same : sem = addr
        · subst same
          exact List.mem_of_mem_dropLast (by simpa [stackAfter] using member)
        · simpa [stackAfter, same] using member
      refine ⟨old, not_false, ?_⟩
      intro call isCall here
      have isTop := getLast_of_mem isCall
      rw [here] at isTop
      have same := owned.apart sem addr so old
        (List.mem_of_getLast? isTop)
      subst same
      obtain ⟨xa, top⟩ := List.getLast?_eq_some_iff.mp isTop
      have nodup := owned.nodup sem
      rw [top, List.nodup_append] at nodup
      have kept : so ∈ xa := by simpa [stackAfter, top] using member
      exact nodup.2.2 so kept so (by simp) rfl

private theorem length_stackAfter {value : Nat → Nat}
    (heights : ∀ sem, (stack sem).length = value sem)
    (room : ∀ thr addr initial sos,
      event = .initPost thr addr initial sos → sos.length = initial) :
    ∀ sem, (event.stackAfter stack sem).length =
      event.valueAfter sem (value sem) := by
  intro sem
  rw [← heights sem]
  cases event with
  | initPost thr addr initial sos =>
      have length := room thr addr initial sos rfl
      by_cases same : sem = addr
      · subst same
        simp [stackAfter, valueAfter, length]
      · simp [stackAfter, valueAfter, same, Ne.symm same]
  | postPre thr addr so =>
      by_cases same : sem = addr
      · subst same
        simp [stackAfter, valueAfter]
      · simp [stackAfter, valueAfter, same, Ne.symm same]
  | destroyPre thr addr =>
      by_cases same : sem = addr
      · subst same
        simp [stackAfter, valueAfter]
      · simp [stackAfter, valueAfter, same, Ne.symm same]
  | waitPost thr addr =>
      by_cases same : sem = addr
      · subst same
        simp [stackAfter, valueAfter]
      · simp [stackAfter, valueAfter, same, Ne.symm same]

end Effects
end SemEvent

namespace SemTab

section Units

variable {hb : Hb} {events : List SemEvent} {n : Nat} {known live : Set Nat}
  {tab : SemTab} {event : SemEvent}

theorem Allowed.fresh (allowed : tab.Allowed event)
    (pool : tab.hb.Pool known live) (owned : Owned live tab.stack) :
    event.Fresh tab.stack := by
  cases event with
  | initPost thr sem value sos =>
      obtain ⟨-, -, nodup, room⟩ := allowed
      refine ⟨nodup, ?_⟩
      intro so member other apart isOther
      rcases (room so member).2 with absent | own
      · have isLive := pool.mem_live.mp (owned.all other so isOther)
        rw [absent] at isLive
        cases isLive
      · exact apart (owned.apart other sem so isOther own)
  | postPre thr sem so =>
      intro other isOther
      have isLive := pool.mem_live.mp (owned.all other so isOther)
      rw [allowed.2.2] at isLive
      cases isLive
  | destroyPre thr sem | waitPost thr sem => trivial

/-- The object is one that an earlier event has sent to for the semaphore,
since it was last reset, and that no call has named after this event. -/
def SentFor (hb : Hb) (events : List SemEvent) (n sem so : Nat)
    (calls : List SoCall) : Prop :=
  ∃ j event thr start made new since, j < n ∧ events[j]? = some event ∧
    event.Makes thr sem ∧
    (∀ i later, j < i → i < n → events[i]? = some later →
      ¬ later.Resets sem) ∧
    run hb (events.take j) = .ok start ∧
    run hb (events.take (j + 1)) = .ok made ∧
    made.1.calls = start.1.calls ++ new ∧ .send thr so true ∈ new ∧
    calls = made.1.calls ++ since ∧ ∀ call ∈ since, call.so ≠ so

/-- A wait receives from one object, and frees it. -/
def Served (hb : Hb) (events : List SemEvent) (k thr sem : Nat) : Prop :=
  ∃ so before after, run hb (events.take k) = .ok before ∧
    run hb (events.take (k + 1)) = .ok after ∧
    after.1.calls = before.1.calls ++ [.recv thr so true, .dealloc so] ∧
    SentFor hb events k sem so before.1.calls

structure Conserves (hb : Hb) (events : List SemEvent) (known : Set Nat)
    (n : Nat) (out : SemTab × List HgError) : Prop where
  ran : run hb (events.take n) = .ok out
  silent : out.2 = []
  pool : ∃ live, out.1.hb.Pool known live ∧ Owned live out.1.stack
  heights : ∀ sem,
    (out.1.stack sem).length = SemEvent.valueAt events sem n
  alive : Alive out.1.calls out.1.stack
  sent : ∀ sem so, so ∈ out.1.stack sem →
    SentFor hb events n sem so out.1.calls
  served : ∀ k thr sem, k < n → events[k]? = some (.waitPost thr sem) →
    Served hb events k thr sem

theorem run_take_succ {before after : SemTab × List HgError}
    (ran : run hb (events.take n) = .ok before)
    (atN : events[n]? = some event)
    (stepped : handleLogged before event = .ok after) :
    run hb (events.take (n + 1)) = .ok after := by
  unfold run at ran ⊢
  rw [foldlM_take_succ atN, ran, ok_bind, stepped]

theorem SentFor.later {sem so : Nat} {calls new : List SoCall}
    (sent : SentFor hb events n sem so calls)
    (atN : events[n]? = some event) (keeps : ¬ event.Resets sem)
    (untouched : ∀ call ∈ new, call.so ≠ so) :
    SentFor hb events (n + 1) sem so (calls ++ new) := by
  obtain ⟨j, source, thr, start, made, own, since, earlier, atJ, makes, kept,
    ranStart, ranMade, isOwn, isSent, isSince, apart⟩ := sent
  refine ⟨j, source, thr, start, made, own, since ++ new, by omega, atJ,
    makes, ?_, ranStart, ranMade, isOwn, isSent, ?_, ?_⟩
  · intro i later after before atI
    by_cases last : i = n
    · subst last
      rw [atN] at atI
      cases atI
      exact keeps
    · exact kept i later after (by omega) atI
  · rw [isSince, List.append_assoc]
  · intro call member
    rcases List.mem_append.mp member with old | isNew
    · exact apart call old
    · exact untouched call isNew

theorem Conserves.step {out : SemTab × List HgError}
    (conserves : Conserves hb events known n out)
    (atN : events[n]? = some event)
    (legal : event.Legal fun sem => SemEvent.valueAt events sem n)
    (allowed : out.1.Allowed event) :
    Returns (handleLogged out event) (Conserves hb events known (n + 1)) := by
  obtain ⟨live, pool, owned⟩ := conserves.pool
  have fresh := allowed.fresh pool owned
  have fits : Fits out.1.stack event := by
    cases event with
    | initPost thr sem value sos => exact legal
    | waitPost thr sem =>
        intro empty
        have height := conserves.heights sem
        rw [empty, List.length_nil] at height
        exact absurd legal (by simp [SemEvent.Legal, ← height])
    | postPre thr sem so | destroyPre thr sem => trivial
  have value : ∀ sem, SemEvent.valueAt events sem (n + 1) =
      event.valueAfter sem (SemEvent.valueAt events sem n) := by
    intro sem
    simp only [SemEvent.valueAt, atN]
  obtain ⟨after, handled, silent, isStack, isCalls, live', pool', owned'⟩ :=
    handle_returns pool owned allowed fits
  have stepped : handleLogged out event = .ok (after.1, out.2 ++ after.2) := by
    unfold handleLogged
    rw [handled, ok_bind]
    rfl
  have ran := run_take_succ conserves.ran atN stepped
  refine ⟨_, stepped, ran, ?_, ⟨live', pool', owned'⟩, ?_, ?_, ?_, ?_⟩
  · simp [conserves.silent, silent]
  · intro sem
    rw [isStack, value sem]
    apply SemEvent.length_stackAfter conserves.heights
    rintro thr addr initial sos rfl
    exact allowed.2.1
  · rw [isStack, isCalls]
    exact SemEvent.alive_after conserves.alive owned fresh fits
  · intro sem so member
    rw [isStack] at member
    rcases SemEvent.mem_stackAfter owned fresh member with
      ⟨old, keeps, untouched⟩ | ⟨thr, makes, isSent⟩
    · rw [isCalls]
      exact (conserves.sent sem so old).later atN keeps untouched
    · refine ⟨n, event, thr, out, _, _, [], by omega, atN, makes, ?_,
        conserves.ran, ran, isCalls, isSent, by simp, by simp⟩
      intro i later above below
      omega
  · intro k thr sem earlier atK
    by_cases last : k = n
    · subst last
      rw [atN] at atK
      cases atK
      have isTop := List.getLast?_eq_some_getLast fits
      refine ⟨(out.1.stack sem).getLast fits, out, _, conserves.ran, ran,
        ?_, conserves.sent sem _ (List.getLast_mem fits)⟩
      rw [isCalls, SemEvent.callsAfter, isTop]
    · exact conserves.served k thr sem (by omega) atK

theorem Conserves.start {abs : AbsHb} (refines : hb.Refines 0 abs) :
    Conserves hb events {t | abs.Exists t} 0 (⟨hb, ∅, []⟩, []) where
  ran := rfl
  silent := rfl
  pool := by
    refine ⟨{so | abs.sos so ≠ none},
      ⟨abs, refines, fun _ => .rfl, fun _ => .rfl⟩, ?_, ?_, ?_⟩
    · intro sem so member
      cases member
    · intro sem
      exact List.nodup_nil
    · intro sem other so member
      cases member
  heights _ := rfl
  alive := by
    refine ⟨?_, fun _ _ => rfl⟩
    intro sem so member
    cases member
  sent := by
    intro sem so member
    cases member
  served k _ _ earlier := absurd earlier (Nat.not_lt_zero k)

/-- Every wait that completes takes one unit of its semaphore, and no unit is
lost or taken twice. -/
theorem units_conserved {root : Nat} {ops : List HbOp}
    (reached : Hb.runOps root ops = .ok hb)
    (legal : ∀ (n : Nat) (event : SemEvent), events[n]? = some event →
      event.Legal fun sem => SemEvent.valueAt events sem n)
    (allowed : ∀ n out event, run hb (events.take n) = .ok out →
      events[n]? = some event → out.1.Allowed event) :
    Returns (run hb events) (fun out =>
      out.2 = [] ∧
      (∀ sem, (out.1.stack sem).length =
        SemEvent.valueAt events sem events.length) ∧
      (∀ so, (lifeOf so out.1.calls).isSome) ∧
      ∀ k thr sem, events[k]? = some (.waitPost thr sem) →
        Served hb events k thr sem) := by
  obtain ⟨abs, refines⟩ := Hb.runOps_refines reached
  have conserved : Returns (run hb events)
      (Conserves hb events {t | abs.Exists t} events.length) := by
    apply Returns.foldlM _ (Conserves.start refines)
    intro n out event atN conserves
    exact conserves.step atN (legal n event atN)
      (allowed n out event conserves.ran atN)
  apply conserved.mono
  intro out conserves
  refine ⟨conserves.silent, conserves.heights, ?_, ?_⟩
  · intro so
    by_cases stacked : ∃ sem, so ∈ out.1.stack sem
    · obtain ⟨sem, member⟩ := stacked
      rw [conserves.alive.stacked sem so member]
      rfl
    · rw [conserves.alive.others so (not_exists.mp stacked)]
      rfl
  · intro k thr sem atK
    obtain ⟨bound, -⟩ := List.getElem?_eq_some_iff.mp atK
    exact conserves.served k thr sem bound atK

instance (value : Nat → Nat) (event : SemEvent) :
    Decidable (event.Legal value) :=
  match event with
  | .initPost _ _ initial _ => inferInstanceAs (Decidable (initial ≤ 10000))
  | .waitPost _ sem => inferInstanceAs (Decidable (0 < value sem))
  | .postPre _ _ _ => inferInstanceAs (Decidable True)
  | .destroyPre _ _ => inferInstanceAs (Decidable True)

instance (tab : SemTab) (event : SemEvent) : Decidable (tab.Allowed event) :=
  match event with
  | .initPost _ sem value sos => inferInstanceAs (Decidable (_ ∧
      sos.length = value ∧ sos.Nodup ∧ ∀ so ∈ sos,
        tab.hb.thrs.lookup so = none ∧
          (tab.hb.sos.lookup so = none ∨ so ∈ tab.stack sem)))
  | .postPre _ _ _ => inferInstanceAs (Decidable (_ ∧ _ ∧ _))
  | .destroyPre _ _ => inferInstanceAs (Decidable (_ ∧ True))
  | .waitPost _ _ => inferInstanceAs (Decidable (_ ∧ True))

/-- Two semaphores, with addresses that are used again. -/
def twoSemaphores : List SemEvent :=
  [.initPost 1 100 2 [50, 51], .postPre 1 200 52, .waitPost 1 100,
    .postPre 1 200 51, .waitPost 1 200, .initPost 1 200 1 [52],
    .destroyPre 1 100, .waitPost 1 200]

theorem units_conserved_twoSemaphores : ∃ hb, Hb.runOps 1 [] = .ok hb ∧
    Returns (run hb twoSemaphores) (fun out =>
      out.2 = [] ∧ (out.1.stack 100).length = 0 ∧
      Served hb twoSemaphores 7 1 200) := by
  have shown : (Hb.runOps 1 []).toOption.map (fun hb =>
      (List.range 8).all fun n =>
        (run hb (twoSemaphores.take n)).toOption.all fun out =>
          (twoSemaphores[n]?).all fun event =>
            decide (out.1.Allowed event)) = some true := by decide
  obtain ⟨hb, reached, allAllowed⟩ := exists_ok_of_map shown
  refine ⟨hb, reached, ?_⟩
  have legal : ∀ (n : Nat) (event : SemEvent),
      twoSemaphores[n]? = some event →
      event.Legal fun sem => SemEvent.valueAt twoSemaphores sem n := by
    intro n event atN
    obtain ⟨bound, -⟩ := List.getElem?_eq_some_iff.mp atN
    have all : (List.range 8).all (fun n => (twoSemaphores[n]?).all
        fun event => decide (event.Legal fun sem =>
          SemEvent.valueAt twoSemaphores sem n)) = true := by decide
    have here := List.all_eq_true.mp all n (List.mem_range.mpr bound)
    rw [atN] at here
    simpa using here
  have allowed : ∀ n out event, run hb (twoSemaphores.take n) = .ok out →
      twoSemaphores[n]? = some event → out.1.Allowed event := by
    intro n out event ran atN
    obtain ⟨bound, -⟩ := List.getElem?_eq_some_iff.mp atN
    have here := List.all_eq_true.mp allAllowed n (List.mem_range.mpr bound)
    rw [ran, atN] at here
    simpa [Except.toOption] using here
  apply (units_conserved reached legal allowed).mono
  intro out conserved
  obtain ⟨silent, heights, -, served⟩ := conserved
  exact ⟨silent, heights 100, served 7 1 200 rfl⟩

end Units
end SemTab
end HelgrindPlus
