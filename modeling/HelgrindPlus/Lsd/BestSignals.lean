import HelgrindPlus.Lsd.Signals

/-!
# The best signals

After any calls the records of a condition variable are its last signals, each
with the clock that the signalling thread had.  `hg_lsd__cond_direct_so` then
joins the clocks of those with the highest score, except in the default build,
where `libhb_so_join` does not accept an object that is still empty.
-/

namespace HelgrindPlus

open Outcome

namespace Lsd

variable {σ κ : Type}

/-- The signals on a condition variable, the latest first. -/
def signalsOn (log : List (Signal κ)) (cond : Nat) : List (Signal κ) :=
  (log.filter (·.cond = cond)).reverse

def candidates (log : List (Signal κ)) (cond : Nat) : List (Signal κ) :=
  (signalsOn log cond).take recordedSignalsSize

def record (st : Lsd σ) (cond i : Nat) : Option AccessList :=
  (st.lookupCondVar cond).recordedSignals.getD i none

/-- A record has the list and the clock of its signal. -/
inductive Slot (lib : LibHB σ κ) (libhb : σ) :
    Option AccessList → Option (Signal κ) → Prop where
  | empty : Slot lib libhb none none
  | holds {al : AccessList} {signal : Signal κ} (so : Nat)
      (addrs : al.addrs = signal.writes) (idle : al.iterating = false)
      (isSo : al.so = some so)
      (clock : lib.soClock libhb so = signal.clock)
      (known : signal.clock.isSome) :
      Slot lib libhb (some al) (some signal)

structure Follows (lib : LibHB σ κ) (inv : σ → Prop) (st : Lsd σ)
    (log : List (Signal κ)) : Prop where
  inv : inv st.libhb
  idle : ∀ thr me, st.thrs.lookup thr = some me →
    me.writes.iterating = false ∧ me.reads.iterating = false
  size : ∀ cond, (st.lookupCondVar cond).recordedSignals.length =
    recordedSignalsSize
  slots : ∀ cond i, i < recordedSignalsSize →
    Slot lib st.libhb (st.record cond i) (signalsOn log cond)[i]?
  distinct : ∀ cond i al cond' i' al', st.record cond i = some al →
    st.record cond' i' = some al' → al.so = al'.so →
    cond = cond' ∧ i = i'

section Steps

variable {lib : LibHB σ κ} {inv : σ → Prop} {st st' : Lsd σ}
  {log : List (Signal κ)} {thr cond fresh : Nat}

theorem getThr_eq_ok {me : ThrLSD} (found : st.getThr thr = .ok me) :
    st.thrs.lookup thr = some me := by
  unfold getThr at found
  split at found
  · rename_i bound
    cases found
    exact bound
  · cases found

theorem Follows.setThr (follows : Follows lib inv st log) {me : ThrLSD}
    (idle : me.writes.iterating = false ∧ me.reads.iterating = false)
    (thr : Nat) : Follows lib inv (st.setThr thr me) log where
  inv := follows.inv
  idle := by
    intro other record isRecord
    unfold Lsd.setThr at isRecord
    dsimp only at isRecord
    by_cases same : other = thr
    · rw [same, AList.lookup_insert] at isRecord
      cases isRecord
      exact idle
    · rw [AList.lookup_insert_ne same] at isRecord
      exact follows.idle other record isRecord
  size := follows.size
  slots := follows.slots
  distinct := follows.distinct

private theorem iterating_add {al : AccessList} (idle : al.iterating = false)
    (a : Nat) : (al.add a).iterating = false := by
  unfold AccessList.add
  split
  · exact idle
  · exact idle

/-- A recorded object is one of `recordedSOs`. -/
theorem mem_recordedSOs {al : AccessList} {i so : Nat}
    (isRecord : st.record cond i = some al) (isSo : al.so = some so) :
    so ∈ st.recordedSOs := by
  unfold record lookupCondVar at isRecord
  cases found : st.conds.lookup cond with
  | none =>
      rw [found] at isRecord
      rw [Option.getD_none, CondVar.new, List.getD_eq_getElem?_getD,
        List.getElem?_replicate] at isRecord
      split at isRecord <;> cases isRecord
  | some cv =>
      rw [found, Option.getD_some] at isRecord
      have entry : (⟨cond, cv⟩ : Σ _ : Nat, CondVar) ∈ st.conds.entries :=
        AList.mem_lookup_iff.mp found
      apply List.mem_flatMap.mpr
      refine ⟨_, entry, List.mem_filterMap.mpr ⟨some al, ?_, isSo⟩⟩
      rw [List.getD_eq_getElem?_getD] at isRecord
      cases atI : cv.recordedSignals[i]? with
      | none =>
          rw [atI] at isRecord
          cases isRecord
      | some found =>
          rw [atI, Option.getD_some] at isRecord
          rw [← isRecord]
          exact List.mem_of_getElem? atI

theorem Slot.mono {libhb libhb' : σ} {record : Option AccessList}
    {signal : Option (Signal κ)} (slot : Slot lib libhb record signal)
    (same : ∀ al so, record = some al → al.so = some so →
      lib.soClock libhb' so = lib.soClock libhb so) :
    Slot lib libhb' record signal := by
  cases slot with
  | empty => exact .empty
  | holds so addrs idle isSo clock known =>
      exact .holds so addrs idle isSo ((same _ so rfl isSo).trans clock) known

/-- The clock interface may change if it leaves the recorded objects alone. -/
theorem Follows.withLib (follows : Follows lib inv st log) {libhb : σ}
    (holds : inv libhb) (same : ∀ cond i al so, st.record cond i = some al →
      al.so = some so → lib.soClock libhb so = lib.soClock st.libhb so) :
    Follows lib inv { st with libhb := libhb } log where
  inv := holds
  idle := follows.idle
  size := follows.size
  slots cond i inside := (follows.slots cond i inside).mono
    fun al so isRecord isSo => same cond i al so isRecord isSo
  distinct := follows.distinct

theorem lookupCondVar_insert (st : Lsd σ) (cond : Nat) (cv : CondVar)
    (other : Nat) :
    lookupCondVar { st with conds := st.conds.insert cond cv } other =
      if other = cond then cv else st.lookupCondVar other := by
  unfold lookupCondVar
  dsimp only
  split
  · rename_i same
    rw [same, AList.lookup_insert]
    rfl
  · rename_i different
    rw [AList.lookup_insert_ne different]

/-- The loop and the assignment behind it. -/
theorem shiftSignals_set (recorded : List (Option AccessList))
    (size : recorded.length = recordedSignalsSize)
    (latest : Option AccessList) :
    ((shiftSignals recorded).set 0 latest).length = recordedSignalsSize ∧
    ((shiftSignals recorded).set 0 latest).getD 0 none = latest ∧
    ∀ i, i + 1 < recordedSignalsSize →
      ((shiftSignals recorded).set 0 latest).getD (i + 1) none =
        recorded.getD i none := by
  match recorded, size with
  | [a, b, c, d, e, f, g, h], _ =>
      refine ⟨rfl, rfl, ?_⟩
      intro i inside
      match i with
      | 0 | 1 | 2 | 3 | 4 | 5 | 6 => rfl
      | i + 7 =>
          unfold recordedSignalsSize at inside
          omega

private theorem signalsOn_append (log : List (Signal κ)) (signal : Signal κ)
    (cond : Nat) :
    signalsOn (log ++ [signal]) cond =
      if signal.cond = cond then signal :: signalsOn log cond
      else signalsOn log cond := by
  unfold signalsOn
  rw [List.filter_append, List.reverse_append]
  split
  · rename_i same
    simp [same]
  · rename_i different
    simp [different]

/-- Forgetting the oldest record leaves the others. -/
theorem forget_eq_ok (lawful : lib.Lawful inv)
    (follows : Follows lib inv st log) {libhb : σ}
    (done : forget lib st.libhb (st.record cond (recordedSignalsSize - 1)) =
      .ok libhb) :
    inv libhb ∧ (∀ thr, lib.thrClock libhb thr =
      lib.thrClock st.libhb thr) ∧
    ∀ cond' i al so, st.record cond' i = some al → al.so = some so →
      (cond' = cond → i ≠ recordedSignalsSize - 1) →
      lib.soClock libhb so = lib.soClock st.libhb so := by
  unfold forget at done
  split at done
  · cases done
    exact ⟨follows.inv, fun _ => rfl, fun _ _ _ _ _ _ _ => rfl⟩
  · rename_i oldest isOldest
    split at done
    · cases done
    · rename_i old isOld
      obtain ⟨holds, thrs, others⟩ := lawful.soDealloc follows.inv done
      refine ⟨holds, thrs, ?_⟩
      intro cond' i al so isRecord isSo notOldest
      apply others
      rintro rfl
      have same := follows.distinct cond' i al cond _ oldest isRecord
        isOldest (isSo.trans isOld.symm)
      exact notOldest same.1 same.2

/-- The state after a signal. -/
structure Signalled (lib : LibHB σ κ) (st : Lsd σ) (thr cond fresh : Nat)
    (me : ThrLSD) (libhb : σ) (st' : Lsd σ) : Prop where
  bound : st.thrs.lookup thr = some me
  forgotten : forget lib st.libhb
    (st.record cond (recordedSignalsSize - 1)) = .ok libhb
  extracted : lib.soExtract libhb thr fresh = .ok st'.libhb
  thrs : st'.thrs = st.thrs.insert thr { me with writes := .new }
  latest : st'.record cond 0 = some { me.writes with so := some fresh }
  shifted : ∀ i, i + 1 < recordedSignalsSize →
    st'.record cond (i + 1) = st.record cond i
  size : (st'.lookupCondVar cond).recordedSignals.length =
    recordedSignalsSize
  others : ∀ other, other ≠ cond →
    st'.lookupCondVar other = st.lookupCondVar other

theorem condSignalPre_eq_ok
    (size : (st.lookupCondVar cond).recordedSignals.length =
      recordedSignalsSize)
    (done : st.condSignalPre lib thr cond fresh = .ok st') :
    ∃ me libhb, Signalled lib st thr cond fresh me libhb st' := by
  obtain ⟨me, found, done⟩ := bind_eq_ok.mp done
  obtain ⟨libhb₁, forgotten, done⟩ := bind_eq_ok.mp done
  obtain ⟨libhb₂, extracted, same⟩ := bind_eq_ok.mp done
  cases same
  obtain ⟨newSize, atZero, later⟩ := shiftSignals_set
    (st.lookupCondVar cond).recordedSignals size
    (some { me.writes with so := some fresh })
  have look := lookupCondVar_insert st cond ⟨true,
    (shiftSignals (st.lookupCondVar cond).recordedSignals).set 0
      (some { me.writes with so := some fresh })⟩
  have atCond := look cond
  rw [if_pos rfl] at atCond
  refine ⟨me, libhb₁, getThr_eq_ok found, forgotten, extracted, rfl, ?_, ?_,
    ?_, ?_⟩
  · exact (congrArg (·.recordedSignals.getD 0 none) atCond).trans atZero
  · intro i inside
    exact (congrArg (·.recordedSignals.getD (i + 1) none) atCond).trans
      (later i inside)
  · exact (congrArg (·.recordedSignals.length) atCond).trans newSize
  · intro other different
    have atOther := look other
    rw [if_neg different] at atOther
    exact atOther

theorem record_eq_none {i : Nat}
    (size : (st.lookupCondVar cond).recordedSignals.length =
      recordedSignalsSize) (outside : recordedSignalsSize ≤ i) :
    st.record cond i = none := by
  unfold record
  rw [List.getD_eq_getElem?_getD, List.getElem?_eq_none (by omega)]
  rfl

section Signalled

variable {me : ThrLSD} {libhb : σ}

/-- A record is the latest one or has been one before, which was not the
oldest of its variable. -/
theorem Signalled.record_cases
    (signalled : Signalled lib st thr cond fresh me libhb st')
    {other i : Nat} {al : AccessList}
    (isRecord : st'.record other i = some al) :
    (other = cond ∧ i = 0 ∧ al = { me.writes with so := some fresh }) ∨
    (other = cond ∧ ∃ j, i = j + 1 ∧ j ≠ recordedSignalsSize - 1 ∧
      st.record cond j = some al) ∨
    (other ≠ cond ∧ st.record other i = some al) := by
  by_cases isCond : other = cond
  · subst isCond
    cases i with
    | zero =>
        rw [signalled.latest] at isRecord
        exact .inl ⟨rfl, rfl, (Option.some.inj isRecord).symm⟩
    | succ j =>
        by_cases inside : j + 1 < recordedSignalsSize
        · rw [signalled.shifted j inside] at isRecord
          exact .inr (.inl ⟨rfl, j, rfl, by omega, isRecord⟩)
        · rw [record_eq_none signalled.size (by omega)] at isRecord
          cases isRecord
  · unfold record at isRecord
    rw [signalled.others other isCond] at isRecord
    exact .inr (.inr ⟨isCond, isRecord⟩)

theorem Follows.signal (lawful : lib.Lawful inv)
    (follows : Follows lib inv st log)
    (done : st.condSignalPre lib thr cond fresh = .ok st') :
    Follows lib inv st'
      (log ++ signalOf lib st (.condSignalPre thr cond fresh)) := by
  obtain ⟨me, libhb, signalled⟩ :=
    condSignalPre_eq_ok (follows.size cond) done
  obtain ⟨holds₁, thrs₁, kept₁⟩ :=
    forget_eq_ok lawful follows signalled.forgotten
  obtain ⟨holds₂, unused, isClock, known, kept₂⟩ :=
    lawful.soExtract holds₁ signalled.extracted
  rw [thrs₁] at isClock known
  have logged : signalOf lib st (.condSignalPre thr cond fresh) =
      [⟨cond, me.writes.addrs, lib.thrClock st.libhb thr⟩] := by
    simp only [signalOf, signalled.bound]
    rfl
  rw [logged]
  have idle := follows.idle thr me signalled.bound
  -- a record that is kept: its object is not the new one, and has its clock
  have kept : ∀ cond' i al so, st.record cond' i = some al →
      al.so = some so → (cond' = cond → i ≠ recordedSignalsSize - 1) →
      so ≠ fresh ∧ lib.soClock st'.libhb so = lib.soClock st.libhb so := by
    intro cond' i al so isRecord isSo notOldest
    have inside : i < recordedSignalsSize := by
      by_contra outside
      rw [record_eq_none (follows.size cond') (by omega)] at isRecord
      cases isRecord
    have slot := follows.slots cond' i inside
    rw [isRecord] at slot
    have same := kept₁ cond' i al so isRecord isSo notOldest
    have different : so ≠ fresh := by
      rintro rfl
      rw [unused] at same
      generalize (signalsOn log cond')[i]? = signal at slot
      cases slot with
      | holds so' _ _ isSo' clock isKnown =>
          rw [isSo] at isSo'
          cases isSo'
          rw [← clock, ← same] at isKnown
          cases isKnown
    exact ⟨different, (kept₂ so different).trans same⟩
  refine ⟨holds₂, ?_, ?_, ?_, ?_⟩
  · intro other record isRecord
    rw [signalled.thrs] at isRecord
    by_cases same : other = thr
    · rw [same, AList.lookup_insert] at isRecord
      cases isRecord
      exact ⟨rfl, idle.2⟩
    · rw [AList.lookup_insert_ne same] at isRecord
      exact follows.idle other record isRecord
  · intro other
    by_cases isCond : other = cond
    · rw [isCond]
      exact signalled.size
    · rw [signalled.others other isCond]
      exact follows.size other
  · intro other i inside
    rw [signalsOn_append]
    dsimp only
    by_cases isCond : cond = other
    · subst isCond
      rw [if_pos rfl]
      cases i with
      | zero =>
          rw [signalled.latest]
          exact .holds fresh rfl idle.1 rfl isClock known
      | succ j =>
          rw [signalled.shifted j inside, List.getElem?_cons_succ]
          apply (follows.slots cond j (by omega)).mono
          intro al so isRecord isSo
          exact (kept cond j al so isRecord isSo fun _ => by omega).2
    · rw [if_neg isCond]
      have same : st'.record other i = st.record other i := by
        unfold record
        rw [signalled.others other (Ne.symm isCond)]
      rw [same]
      apply (follows.slots other i inside).mono
      intro al so isRecord isSo
      exact (kept other i al so isRecord isSo fun impossible =>
        absurd impossible.symm isCond).2
  · intro cond₁ i₁ al₁ cond₂ i₂ al₂ isFirst isSecond sameSo
    -- the latest record has a new object; the others were distinct before
    have notFresh : ∀ cond' i al, st.record cond' i = some al →
        (cond' = cond → i ≠ recordedSignalsSize - 1) →
        al.so ≠ some fresh := by
      intro cond' i al isRecord notOldest isSo
      exact (kept cond' i al fresh isRecord isSo notOldest).1 rfl
    rcases signalled.record_cases isFirst with ⟨rfl, rfl, rfl⟩ |
        ⟨rfl, j₁, rfl, notOldest₁, was₁⟩ | ⟨other₁, was₁⟩ <;>
      rcases signalled.record_cases isSecond with ⟨isCond, rfl, rfl⟩ |
        ⟨isCond, j₂, rfl, notOldest₂, was₂⟩ | ⟨other₂, was₂⟩
    · exact ⟨isCond.symm, rfl⟩
    · exact absurd sameSo.symm
        (notFresh _ _ _ was₂ fun _ => notOldest₂)
    · exact absurd sameSo.symm
        (notFresh _ _ _ was₂ fun impossible => absurd impossible other₂)
    · exact absurd sameSo (notFresh _ _ _ was₁ fun _ => notOldest₁)
    · have same := follows.distinct _ _ _ _ _ _ was₁ was₂ sameSo
      exact ⟨isCond.symm, by omega⟩
    · have same := follows.distinct _ _ _ _ _ _ was₁ was₂ sameSo
      exact absurd same.1.symm other₂
    · exact absurd sameSo
        (notFresh _ _ _ was₁ fun impossible => absurd impossible other₁)
    · have same := follows.distinct _ _ _ _ _ _ was₁ was₂ sameSo
      exact absurd same.1 other₁
    · exact follows.distinct _ _ _ _ _ _ was₁ was₂ sameSo

end Signalled

/-- The records are the same, and their objects have the same clocks. -/
def Unchanged (lib : LibHB σ κ) (st st' : Lsd σ) : Prop :=
  ∀ cond i, st'.record cond i = st.record cond i ∧
    ∀ al so, st.record cond i = some al → al.so = some so →
      lib.soClock st'.libhb so = lib.soClock st.libhb so

private theorem joinBest_eq_ok (lawful : lib.Lawful inv) {so best : Nat}
    {records : List (Option AccessList)} {scores : List Nat}
    {libhb libhb' : σ} (holds : inv libhb)
    (done : joinBest lib so best records scores libhb = .ok libhb') :
    inv libhb' ∧ ∀ other, other ≠ so →
      lib.soClock libhb' other = lib.soClock libhb other := by
  induction records generalizing scores libhb with
  | nil =>
      cases done
      exact ⟨holds, fun _ _ => rfl⟩
  | cons record rest induction =>
      cases record with
      | none =>
          cases done
          exact ⟨holds, fun _ _ => rfl⟩
      | some al =>
          cases scores with
          | nil =>
              cases done
              exact ⟨holds, fun _ _ => rfl⟩
          | cons score scores =>
              obtain ⟨libhb₁, joined, done⟩ := bind_eq_ok.mp done
              have first : inv libhb₁ ∧ ∀ other, other ≠ so →
                  lib.soClock libhb₁ other = lib.soClock libhb other := by
                unfold joinRecord at joined
                split at joined
                · split at joined
                  · cases joined
                  · exact lawful.soJoin holds joined
                · cases joined
                  exact ⟨holds, fun _ _ => rfl⟩
              obtain ⟨holds', kept⟩ := induction first.1 done
              exact ⟨holds', fun other different =>
                (kept other different).trans (first.2 other different)⟩

theorem record_setSignaled (st : Lsd σ) (cond : Nat) (signaled : Bool)
    (other i : Nat) :
    (st.setSignaled cond signaled).record other i = st.record other i := by
  unfold record setSignaled
  rw [lookupCondVar_insert]
  split
  · rename_i same
    rw [same]
  · rfl

theorem Follows.setSignaled (follows : Follows lib inv st log) (cond : Nat)
    (signaled : Bool) :
    Follows lib inv (st.setSignaled cond signaled) log where
  inv := follows.inv
  idle := follows.idle
  size := by
    intro other
    unfold Lsd.setSignaled
    rw [lookupCondVar_insert]
    split
    · exact follows.size cond
    · exact follows.size other
  slots := by
    intro other i inside
    rw [record_setSignaled]
    exact follows.slots other i inside
  distinct := by
    intro cond₁ i₁ al₁ cond₂ i₂ al₂ isFirst isSecond
    rw [record_setSignaled] at isFirst isSecond
    exact follows.distinct cond₁ i₁ al₁ cond₂ i₂ al₂ isFirst isSecond

/-- A record has an object with a clock. -/
theorem Follows.known (follows : Follows lib inv st log) {i so : Nat}
    {al : AccessList} (isRecord : st.record cond i = some al)
    (isSo : al.so = some so) : (lib.soClock st.libhb so).isSome := by
  have inside : i < recordedSignalsSize := by
    by_contra outside
    rw [record_eq_none (follows.size cond) (by omega)] at isRecord
    cases isRecord
  have slot := follows.slots cond i inside
  rw [isRecord] at slot
  generalize (signalsOn log cond)[i]? = signal at slot
  cases slot with
  | holds so' _ _ isSo' clock isKnown =>
      rw [isSo] at isSo'
      cases isSo'
      rw [clock]
      exact isKnown

theorem Follows.direct (lawful : lib.Lawful inv)
    (follows : Follows lib inv st log) {result : Option Nat}
    (done : st.condDirectSo lib thr cond fresh = .ok (st', result)) :
    Follows lib inv st' log ∧ Unchanged lib st st' := by
  obtain ⟨me, -, done⟩ := bind_eq_ok.mp done
  obtain ⟨set, -, done⟩ := bind_eq_ok.mp done
  obtain ⟨scores, -, done⟩ := bind_eq_ok.mp done
  have marked := follows.setSignaled cond false
  dsimp only at done
  split at done
  · cases done
    exact ⟨marked, fun other i => ⟨record_setSignaled st cond false other i,
      fun _ _ _ _ => rfl⟩⟩
  · obtain ⟨libhb₁, allocated, done⟩ := bind_eq_ok.mp done
    obtain ⟨libhb₂, joined, same⟩ := bind_eq_ok.mp done
    cases same
    obtain ⟨holds₁, unused, kept₁⟩ := lawful.soAlloc follows.inv allocated
    obtain ⟨holds₂, kept₂⟩ := joinBest_eq_ok lawful holds₁ joined
    -- the new object is none of the recorded ones
    have kept : ∀ other i al so, st.record other i = some al →
        al.so = some so →
        lib.soClock libhb₂ so = lib.soClock st.libhb so := by
      intro other i al so isRecord isSo
      have different : so ≠ fresh := by
        rintro rfl
        have known := follows.known isRecord isSo
        rw [unused] at known
        cases known
      exact (kept₂ so different).trans (kept₁ so different)
    constructor
    · apply marked.withLib holds₂
      intro other i al so isRecord isSo
      rw [record_setSignaled] at isRecord
      exact kept other i al so isRecord isSo
    · exact fun other i => ⟨record_setSignaled st cond false other i,
        kept other i⟩

theorem Follows.perform (lawful : lib.Lawful inv)
    (follows : Follows lib inv st log) {op : LsdOp}
    (done : st.perform lib op = .ok st') :
    Follows lib inv st' (log ++ signalOf lib st op) := by
  have silent : ∀ {after : Lsd σ}, signalOf lib st op = [] →
      Follows lib inv after log →
      Follows lib inv after (log ++ signalOf lib st op) := by
    intro after none holds
    rwa [none, List.append_nil]
  cases op with
  | hb op =>
      simp only [Lsd.perform] at done
      split at done
      · cases done
      · rename_i unnamed
        obtain ⟨libhb, performed, same⟩ := bind_eq_ok.mp done
        cases same
        obtain ⟨holds, kept⟩ := lawful.perform follows.inv performed
        refine silent rfl (follows.withLib holds ?_)
        intro cond i al so isRecord isSo
        apply kept
        intro named
        apply unnamed
        simp only [List.any_eq_true, decide_eq_true_eq]
        exact ⟨so, named, mem_recordedSOs isRecord isSo⟩
  | createThrLSD thr =>
      cases done
      exact silent rfl (follows.setThr ⟨rfl, rfl⟩ thr)
  | mutexLock thr =>
      obtain ⟨me, found, same⟩ := bind_eq_ok.mp done
      cases same
      have idle := follows.idle thr me (getThr_eq_ok found)
      refine silent rfl (follows.setThr ?_ thr)
      dsimp only
      split
      · exact idle
      · exact ⟨rfl, rfl⟩
  | mutexUnlock thr =>
      obtain ⟨me, found, same⟩ := bind_eq_ok.mp done
      cases same
      have idle := follows.idle thr me (getThr_eq_ok found)
      refine silent rfl (follows.setThr ?_ thr)
      exact idle
  | recWrite thr a ignored =>
      obtain ⟨me, found, same⟩ := bind_eq_ok.mp done
      cases same
      have idle := follows.idle thr me (getThr_eq_ok found)
      apply silent rfl
      split
      · refine follows.setThr ?_ thr
        exact ⟨iterating_add idle.1 a, idle.2⟩
      · exact follows
  | recRead thr a ignored =>
      obtain ⟨me, found, same⟩ := bind_eq_ok.mp done
      cases same
      have idle := follows.idle thr me (getThr_eq_ok found)
      apply silent rfl
      split
      · refine follows.setThr ?_ thr
        exact ⟨idle.1, iterating_add idle.2 a⟩
      · exact follows
  | condWaitPre thr | condWaitPost thr =>
      obtain ⟨me, found, done⟩ := bind_eq_ok.mp done
      obtain ⟨-, -, same⟩ := bind_eq_ok.mp done
      cases same
      have idle := follows.idle thr me (getThr_eq_ok found)
      refine silent rfl (follows.setThr ?_ thr)
      exact idle
  | condSignalPre thr cond fresh => exact follows.signal lawful done
  | condDirectSo thr cond fresh =>
      obtain ⟨⟨after, result⟩, direct, same⟩ := bind_eq_ok.mp done
      cases same
      exact silent rfl (follows.direct lawful direct).1

theorem Follows.init {libhb : σ} (holds : inv libhb) :
    Follows lib inv ⟨libhb, ∅, ∅⟩ [] where
  inv := holds
  idle := by
    intro thr me isRecord
    cases isRecord
  size _ := rfl
  slots := by
    intro cond i inside
    have none : record (σ := σ) ⟨libhb, ∅, ∅⟩ cond i = none := by
      change (List.replicate recordedSignalsSize none).getD i none = none
      rw [List.getD_eq_getElem?_getD, List.getElem?_replicate]
      split <;> rfl
    rw [none]
    exact .empty
  distinct := by
    intro cond i al cond' i' al' isRecord
    change (List.replicate recordedSignalsSize none).getD i none = _
      at isRecord
    rw [List.getD_eq_getElem?_getD, List.getElem?_replicate] at isRecord
    split at isRecord <;> cases isRecord

theorem run_follows (lawful : lib.Lawful inv) {root : Nat}
    {ops : List LsdOp} (ran : run lib root ops = .ok (st, log)) :
    Follows lib inv st log := by
  obtain ⟨libhb, started, ran⟩ := bind_eq_ok.mp ran
  refine @foldlM_eq_ok_invariant _ _ _ _
    (fun _ acc => Follows lib inv acc.1 acc.2) _ _ _ ?_
    (Follows.init (lawful.init started)) ran
  intro n acc next op atN follows done
  obtain ⟨after, performed, same⟩ := bind_eq_ok.mp done
  cases same
  exact follows.perform lawful performed

end Steps

end Lsd

theorem foldl_max_le_iff {l : List Nat} {start bound : Nat} :
    l.foldl max start ≤ bound ↔ start ≤ bound ∧ ∀ n ∈ l, n ≤ bound := by
  induction l generalizing start with
  | nil => simp
  | cons n l induction =>
      rw [List.foldl_cons, induction, max_le_iff, List.forall_mem_cons,
        and_assoc]

/-- The number of recorded writes that are among the reads. -/
def Signal.score {κ : Type} (signal : Signal κ) (reads : List Nat) : Nat :=
  signal.writes.countP (· ∈ reads)

namespace Lsd

variable {σ κ : Type}

/-- The signal has the highest score. -/
def IsBest (signals : List (Signal κ)) (reads : List Nat)
    (signal : Signal κ) : Prop :=
  signal ∈ signals ∧
    ∀ other ∈ signals, other.score reads ≤ signal.score reads

/-- There is no object if all scores are zero; otherwise it has the join of
the clocks of the best signals. -/
def JoinsBest [Preorder κ] (lib : LibHB σ κ) (st : Lsd σ)
    (signals : List (Signal κ)) (reads : List Nat) (fresh : Nat)
    (out : Except Abort (Lsd σ × Option Nat)) : Prop :=
  ∃ st' result, out = .ok (st', result) ∧ Unchanged lib st st' ∧
    ((∀ signal ∈ signals, signal.score reads = 0) → result = none) ∧
    ((∃ signal ∈ signals, signal.score reads ≠ 0) → result = some fresh ∧
      ∃ clock, lib.soClock st'.libhb fresh = some clock ∧
        IsLUB {c | ∃ signal, IsBest signals reads signal ∧
          signal.clock = some c} clock)

section Scores

variable {lib : LibHB σ κ} {inv : σ → Prop} {st : Lsd σ}
  {log : List (Signal κ)} {thr cond fresh : Nat} {libhb : σ}
  {records : List (Option AccessList)} {signals : List (Signal κ)}
  {reads : List Nat} {me : ThrLSD}

/-- The first record of a list, and the slots behind it. -/
theorem slots_tail {record : Option AccessList} {signal : Signal κ}
    (slots : ∀ i, i < (record :: records).length → Slot lib libhb
      ((record :: records).getD i none) (signal :: signals)[i]?) :
    ∀ i, i < records.length →
      Slot lib libhb (records.getD i none) signals[i]? :=
  fun i inside => slots (i + 1) (Nat.succ_lt_succ inside)

private theorem scores_eq (slots : ∀ i, i < records.length →
      Slot lib libhb (records.getD i none) signals[i]?) (reads : List Nat) :
    scores reads records =
      .ok ((signals.take records.length).map (·.score reads)) := by
  induction records generalizing signals with
  | nil => rfl
  | cons record rest induction =>
      have first := slots 0 (Nat.succ_pos _)
      cases signals with
      | nil =>
          cases record with
          | none => rfl
          | some al => cases first
      | cons signal signals =>
          cases record with
          | none => cases first
          | some al =>
              cases first with
              | holds so addrs idle =>
                  unfold scores
                  rw [AccessList.iterate, tlAssert_of idle, ok_bind,
                    induction (slots_tail slots), addrs]
                  rfl

theorem Follows.slots_of (follows : Follows lib inv st log) (cond : Nat) :
    ∀ i, i < (st.lookupCondVar cond).recordedSignals.length →
      Slot lib st.libhb
        ((st.lookupCondVar cond).recordedSignals.getD i none)
        (signalsOn log cond)[i]? := by
  intro i inside
  rw [follows.size cond] at inside
  exact follows.slots cond i inside

/-- The call up to the loop that joins. -/
theorem Follows.condDirectSo_eq (follows : Follows lib inv st log)
    (bound : st.thrs.lookup thr = some me) :
    st.condDirectSo lib thr cond fresh =
      let scores := (candidates log cond).map (·.score me.reads.addrs)
      if scores.foldl max 0 = 0 then .ok (st.setSignaled cond false, none)
      else (do
        let libhb ← lib.soAlloc st.libhb fresh
        let libhb ← joinBest lib fresh (scores.foldl max 0)
          (st.lookupCondVar cond).recordedSignals scores libhb
        pure ({ st.setSignaled cond false with libhb := libhb },
          some fresh)) := by
  unfold condDirectSo getThr
  rw [bound, ok_bind, AccessList.iterate,
    tlAssert_of (follows.idle thr me bound).2, ok_bind]
  change (scores me.reads.addrs
    (st.lookupCondVar cond).recordedSignals >>= _) = _
  rw [scores_eq (follows.slots_of cond), follows.size cond]
  rfl

theorem best_eq_zero_iff :
    (signals.map (·.score reads)).foldl max 0 = 0 ↔
      ∀ signal ∈ signals, signal.score reads = 0 := by
  rw [← Nat.le_zero, foldl_max_le_iff, List.forall_mem_map]
  simp

theorem score_eq_best_iff {signal : Signal κ} (isIn : signal ∈ signals) :
    signal.score reads = (signals.map (·.score reads)).foldl max 0 ↔
      IsBest signals reads signal := by
  have bounds : ∀ other ∈ signals, other.score reads ≤
      (signals.map (·.score reads)).foldl max 0 := by
    have all := (@foldl_max_le_iff (signals.map (·.score reads)) 0 _).mp
      le_rfl
    exact List.forall_mem_map.mp all.2
  constructor
  · intro isMax
    refine ⟨isIn, ?_⟩
    rw [isMax]
    exact bounds
  · rintro ⟨-, highest⟩
    apply le_antisymm (bounds signal isIn)
    exact foldl_max_le_iff.mpr
      ⟨Nat.zero_le _, List.forall_mem_map.mpr highest⟩

/-- The best score is the score of a signal. -/
theorem exists_best (nonzero : (signals.map (·.score reads)).foldl max 0 ≠ 0) :
    ∃ signal ∈ signals, signal.score reads =
      (signals.map (·.score reads)).foldl max 0 := by
  by_contra none
  have bounds := (@foldl_max_le_iff (signals.map (·.score reads)) 0 _).mp
    le_rfl
  have below : (signals.map (·.score reads)).foldl max 0 ≤
      (signals.map (·.score reads)).foldl max 0 - 1 := by
    refine foldl_max_le_iff.mpr ⟨Nat.zero_le _, ?_⟩
    refine List.forall_mem_map.mpr ?_
    intro signal isIn
    have atMost := List.forall_mem_map.mp bounds.2 signal isIn
    have notBest : signal.score reads ≠ _ :=
      fun same => none ⟨signal, isIn, same⟩
    omega
  omega

/-- Every candidate has a clock. -/
theorem Follows.clock_known (follows : Follows lib inv st log)
    {signal : Signal κ} (isIn : signal ∈ candidates log cond) :
    signal.clock.isSome := by
  obtain ⟨i, atI⟩ := List.mem_iff_getElem?.mp isIn
  unfold candidates at atI
  rw [List.getElem?_take] at atI
  split at atI
  · rename_i inside
    have slot := follows.slots cond i inside
    rw [atI] at slot
    generalize st.record cond i = record at slot
    cases slot with
    | holds _ _ _ _ _ known => exact known
  · cases atI

/-- The slots after a new object has been allocated. -/
theorem Follows.slots_alloc (lawful : lib.Lawful inv)
    (follows : Follows lib inv st log)
    (allocated : lib.soAlloc st.libhb fresh = .ok libhb) (cond : Nat) :
    ∀ i, i < (st.lookupCondVar cond).recordedSignals.length →
      Slot lib libhb ((st.lookupCondVar cond).recordedSignals.getD i none)
        (signalsOn log cond)[i]? := by
  intro i inside
  obtain ⟨-, unused, kept⟩ := lawful.soAlloc follows.inv allocated
  apply (follows.slots_of cond i inside).mono
  intro al so isRecord isSo
  apply kept
  rintro rfl
  have known := follows.known isRecord isSo
  rw [unused] at known
  cases known

theorem Follows.joinsNone [Preorder κ] (follows : Follows lib inv st log)
    (bound : st.thrs.lookup thr = some me)
    (zero : ∀ signal ∈ candidates log cond,
      signal.score me.reads.addrs = 0) :
    JoinsBest lib st (candidates log cond) me.reads.addrs fresh
      (st.condDirectSo lib thr cond fresh) := by
  refine ⟨st.setSignaled cond false, none, ?_, ?_, fun _ => rfl, ?_⟩
  · rw [follows.condDirectSo_eq bound]
    exact if_pos (best_eq_zero_iff.mpr zero)
  · exact fun other i => ⟨record_setSignaled st cond false other i,
      fun _ _ _ _ => rfl⟩
  · rintro ⟨signal, isIn, nonzero⟩
    exact absurd (zero signal isIn) nonzero

end Scores

section Default

variable {hb : Hb} {abs : AbsHb} {fresh best : Nat}
  {records : List (Option AccessList)} {signals : List (Signal Clocks)}
  {reads : List Nat}

/-- The new object is empty, so the first join fails. -/
theorem joinBest_default (refines : hb.Refines 0 abs)
    (empty : abs.sos fresh = some none)
    (slots : ∀ i, i < records.length →
      Slot Hb.lib hb (records.getD i none) signals[i]?)
    (hit : ∃ signal ∈ signals.take records.length,
      signal.score reads = best) :
    joinBest Hb.lib fresh best records
      ((signals.take records.length).map (·.score reads)) hb =
        .error .indexXA := by
  induction records generalizing signals with
  | nil =>
      obtain ⟨signal, isIn, -⟩ := hit
      cases isIn
  | cons record rest induction =>
      have first := slots 0 (Nat.succ_pos _)
      cases signals with
      | nil =>
          obtain ⟨signal, isIn, -⟩ := hit
          cases isIn
      | cons signal signals =>
          cases record with
          | none => cases first
          | some al =>
              cases first with
              | holds so _ _ isSo clock known =>
                  rw [List.length_cons, List.take_succ_cons, List.map_cons]
                  unfold joinBest joinRecord
                  split
                  · rw [isSo]
                    have atSo : abs.sos so = some signal.clock := by
                      have same : hb.soClock so = signal.clock := clock
                      rw [refines.soClock_eq] at same
                      rw [← same] at known ⊢
                      cases stored : abs.sos so with
                      | none =>
                          rw [stored] at known
                          cases known
                      | some contents => rfl
                    obtain ⟨clocks, isClocks⟩ :=
                      Option.isSome_iff_exists.mp known
                    rw [isClocks] at atSo
                    have refused : abs.soJoin fresh so = .error .indexXA := by
                      unfold AbsHb.soJoin
                      rw [empty, atSo]
                      have different : fresh ≠ so := by
                        rintro rfl
                        rw [empty] at atSo
                        cases atSo
                      exact if_neg different
                    have agrees := Hb.soJoin_agrees refines fresh so
                    rw [refused] at agrees
                    have failed : Hb.lib.soJoin hb fresh so =
                        .error .indexXA := agrees
                    dsimp only
                    rw [failed]
                    rfl
                  · rename_i notBest
                    rw [ok_bind]
                    apply induction (slots_tail slots)
                    obtain ⟨other, isIn, isBest⟩ := hit
                    rw [List.length_cons, List.take_succ_cons,
                      List.mem_cons] at isIn
                    rcases isIn with rfl | isIn
                    · exact absurd isBest notBest
                    · exact ⟨other, isIn, isBest⟩

end Default

section Uka

variable {hb start : UkaHb} {so other best : Nat} {own : Option VTS}
  {clock : VTS} {clocks : Set VTS} {records : List (Option AccessList)}
  {signals : List (Signal VTS)} {reads : List Nat}

/-- An object holds the join of the clocks that it has got so far. -/
def Gathers (clocks : Set VTS) : Option VTS → Prop
  | none => clocks = ∅
  | some clock => IsLUB clocks clock

theorem Gathers.join (gathers : Gathers clocks own) (clock : VTS) :
    Gathers (insert clock clocks) (some (AbsUka.joined own clock)) := by
  cases own with
  | none =>
      have empty : clocks = ∅ := gathers
      rw [empty, insert_empty_eq]
      exact isLUB_singleton
  | some held =>
      obtain ⟨upper, least⟩ : IsLUB clocks held := gathers
      constructor
      · rintro c (rfl | isIn)
        · exact VTS.le_join_right held c
        · exact le_trans (upper isIn) (VTS.le_join_left held clock)
      · intro bound isBound
        apply VTS.join_le
        · exact least fun c isIn => isBound (Set.mem_insert_of_mem clock isIn)
        · exact isBound (Set.mem_insert clock clocks)

/-- A state in which the object is live. -/
def Holds (hb : UkaHb) (so : Nat) : Prop :=
  ∃ abs, hb.Refines 0 abs ∧ (abs.sos so).isSome

private theorem soJoin_returns (live : Holds hb so)
    (known : hb.soClock other = some clock) :
    Returns (hb.soJoin so other) (fun hb' => Holds hb' so ∧
      hb'.soClock so = some (AbsUka.joined (hb.soClock so) clock) ∧
      ∀ third, third ≠ so → hb'.soClock third = hb.soClock third) := by
  obtain ⟨abs, refines, isLive⟩ := live
  obtain ⟨contents, atSO⟩ := Option.isSome_iff_exists.mp isLive
  have atOther : abs.sos other = some (some clock) := by
    rw [refines.soClock_eq] at known
    exact Option.join_eq_some_iff.mp known
  have joined : abs.soJoin so other =
      .ok (abs.setSO so (some (AbsUka.joined contents clock))) := by
    unfold AbsUka.soJoin AbsUka.getSO
    rw [atSO, atOther]
    rfl
  have agrees := UkaHb.soJoin_agrees refines so other
  rw [joined] at agrees
  have returns : Returns (hb.soJoin so other) _ := agrees
  apply returns.mono
  rintro hb' ⟨refines', -⟩
  have here : (abs.setSO so (some (AbsUka.joined contents clock))).sos so =
      some (some (AbsUka.joined contents clock)) :=
    Function.update_self so _ abs.sos
  refine ⟨⟨_, refines', ?_⟩, ?_, ?_⟩
  · rw [here]
    rfl
  · rw [refines'.soClock_eq, refines.soClock_eq, here, atSO]
    rfl
  · intro third different
    rw [refines'.soClock_eq, refines.soClock_eq]
    exact congrArg Option.join (Function.update_of_ne different _ abs.sos)

/-- The clocks of the signals with a score. -/
def clocksWith (signals : List (Signal VTS)) (reads : List Nat)
    (best : Nat) : Set VTS :=
  {c | ∃ signal ∈ signals, signal.score reads = best ∧ signal.clock = some c}

private theorem clocksWith_nil (reads : List Nat) (best : Nat) :
    clocksWith [] reads best = ∅ := by
  simp [clocksWith]

private theorem clocksWith_cons_of_eq {signal : Signal VTS}
    (isBest : signal.score reads = best) (isClock : signal.clock = some clock) :
    clocksWith (signal :: signals) reads best =
      insert clock (clocksWith signals reads best) := by
  ext c
  simp [clocksWith, isBest, isClock, eq_comm]

private theorem clocksWith_cons_of_ne {signal : Signal VTS}
    (notBest : signal.score reads ≠ best) :
    clocksWith (signal :: signals) reads best =
      clocksWith signals reads best := by
  ext c
  simp [clocksWith, notBest]

/-- The loop adds the clocks of the signals with the best score. -/
theorem joinBest_uka
    (slots : ∀ i, i < records.length →
      Slot UkaHb.lib start (records.getD i none) signals[i]?)
    (unused : start.soClock so = none)
    (same : ∀ third, third ≠ so → hb.soClock third = start.soClock third)
    (live : Holds hb so) (gathers : Gathers clocks (hb.soClock so)) :
    Returns (joinBest UkaHb.lib so best records
      ((signals.take records.length).map (·.score reads)) hb)
      (fun hb' => Gathers (clocks ∪
        clocksWith (signals.take records.length) reads best)
        (hb'.soClock so)) := by
  induction records generalizing signals hb clocks with
  | nil =>
      rw [List.length_nil, List.take_zero, clocksWith_nil, Set.union_empty]
      exact Returns.ok gathers
  | cons record rest induction =>
      have first := slots 0 (Nat.succ_pos _)
      cases signals with
      | nil =>
          cases record with
          | none =>
              rw [List.take_nil, clocksWith_nil, Set.union_empty]
              exact Returns.ok gathers
          | some al => cases first
      | cons signal signals =>
          cases record with
          | none => cases first
          | some al =>
              cases first with
              | holds other _ _ isSo clock known =>
                  rw [List.length_cons, List.take_succ_cons, List.map_cons]
                  unfold joinBest joinRecord
                  obtain ⟨c, isC⟩ := Option.isSome_iff_exists.mp known
                  have atOther : start.soClock other = some c :=
                    Eq.trans clock isC
                  have different : other ≠ so := by
                    rintro rfl
                    rw [unused] at atOther
                    cases atOther
                  split
                  · rename_i isBest
                    rw [isSo, clocksWith_cons_of_eq isBest isC,
                      Set.union_insert, ← Set.insert_union]
                    dsimp only
                    have here : hb.soClock other = some c :=
                      (same other different).trans atOther
                    apply (soJoin_returns live here).bind
                    rintro hb₁ ⟨live₁, atSo₁, kept₁⟩
                    have gathers₁ := gathers.join c
                    rw [← atSo₁] at gathers₁
                    exact induction (slots_tail slots) (fun third apart =>
                      (kept₁ third apart).trans (same third apart)) live₁
                      gathers₁
                  · rename_i notBest
                    rw [ok_bind, clocksWith_cons_of_ne notBest]
                    exact induction (slots_tail slots) same live gathers

end Uka

end Lsd

namespace Build

def Hb : Build → Type
  | .default => HelgrindPlus.Hb
  | .ukas | .ukal => UkaHb

def Clock : Build → Type
  | .default => Clocks
  | .ukas | .ukal => VTS

def lib : (build : Build) → LibHB build.Hb build.Clock
  | .default => HelgrindPlus.Hb.lib
  | .ukas | .ukal => UkaHb.lib

instance : (build : Build) → Preorder build.Clock
  | .default => inferInstanceAs (Preorder Clocks)
  | .ukas | .ukal => inferInstanceAs (Preorder VTS)

end Build

namespace Lsd

variable {thr cond fresh : Nat} {me : ThrLSD} {root : Nat} {ops : List LsdOp}

private theorem default_joinsBest_iff {st : Lsd Hb} {log : List (Signal Clocks)}
    (ran : run Hb.lib root ops = .ok (st, log))
    (bound : st.thrs.lookup thr = some me) :
    JoinsBest Hb.lib st (candidates log cond) me.reads.addrs fresh
      (st.condDirectSo Hb.lib thr cond fresh) ↔
    ∀ signal ∈ candidates log cond, signal.score me.reads.addrs = 0 := by
  have follows := run_follows Hb.lib_lawful ran
  constructor
  · rintro ⟨st', result, done, -⟩
    by_contra scored
    have nonzero := mt best_eq_zero_iff.mp scored
    rw [follows.condDirectSo_eq bound] at done
    dsimp only at done
    rw [if_neg nonzero] at done
    obtain ⟨hb₁, allocated, done⟩ := bind_eq_ok.mp done
    obtain ⟨hb₂, joined, -⟩ := bind_eq_ok.mp done
    obtain ⟨abs, refines⟩ := follows.inv
    have slots := follows.slots_alloc Hb.lib_lawful allocated cond
    have isAlloc : st.libhb.soAlloc fresh = .ok hb₁ := allocated
    cases unused : abs.unused fresh with
    | false =>
        unfold Hb.soAlloc at isAlloc
        rw [Hb.zalloc_of_used refines unused] at isAlloc
        cases isAlloc
    | true =>
        have refines₁ := ((Hb.soAlloc_returns refines unused).of_eq_ok
          isAlloc).1
        have empty : (abs.setSO fresh none).sos fresh = some none := by
          simp [AbsHb.setSO]
        have failed := @joinBest_default hb₁ _ fresh
          (((candidates log cond).map (·.score me.reads.addrs)).foldl max 0)
          _ _ me.reads.addrs refines₁ empty slots
        rw [follows.size cond] at failed
        have aborted := failed (exists_best nonzero)
        have returned := joined.symm.trans aborted
        cases returned
  · exact follows.joinsNone bound

private theorem uka_joinsBest {st : Lsd UkaHb} {log : List (Signal VTS)}
    (ran : run UkaHb.lib root ops = .ok (st, log))
    (bound : st.thrs.lookup thr = some me)
    (free : ∃ after, UkaHb.lib.soAlloc st.libhb fresh = .ok after) :
    JoinsBest UkaHb.lib st (candidates log cond) me.reads.addrs fresh
      (st.condDirectSo UkaHb.lib thr cond fresh) := by
  have follows := run_follows UkaHb.lib_lawful ran
  by_cases zero : ∀ signal ∈ candidates log cond,
      signal.score me.reads.addrs = 0
  · exact follows.joinsNone bound zero
  have nonzero := mt best_eq_zero_iff.mp zero
  obtain ⟨hb₁, allocated⟩ := free
  have isAlloc : st.libhb.soAlloc fresh = .ok hb₁ := allocated
  obtain ⟨-, unused, kept⟩ := UkaHb.lib_lawful.soAlloc follows.inv allocated
  obtain ⟨abs, refines⟩ := follows.inv
  obtain ⟨abs₁, made, simulates⟩ :=
    (UkaHb.soAlloc_agrees refines fresh).eq_ok isAlloc
  obtain ⟨-, -, same⟩ := bind_eq_ok.mp made
  cases same
  have here : (abs.setSO fresh none).sos fresh = some none := by
    simp [AbsUka.setSO]
  have live : Holds hb₁ fresh := ⟨_, simulates.1, by rw [here]; rfl⟩
  have empty : Gathers ∅ (hb₁.soClock fresh) := by
    rw [simulates.1.soClock_eq, here]
    rfl
  have joined := @joinBest_uka hb₁ st.libhb fresh
    (((candidates log cond).map (·.score me.reads.addrs)).foldl max 0) ∅ _ _
    me.reads.addrs (follows.slots_of cond) unused kept live empty
  rw [follows.size cond] at joined
  obtain ⟨hb₂, done, gathers⟩ := joined
  have result : st.condDirectSo UkaHb.lib thr cond fresh =
      .ok ({ st.setSignaled cond false with libhb := hb₂ }, some fresh) := by
    rw [follows.condDirectSo_eq bound]
    dsimp only
    rw [if_neg nonzero, allocated, ok_bind]
    exact bind_eq_ok.mpr ⟨hb₂, done, rfl⟩
  refine ⟨_, _, result, (follows.direct UkaHb.lib_lawful result).2, ?_, ?_⟩
  · exact fun all => absurd all zero
  · intro _
    refine ⟨rfl, ?_⟩
    have isSet : ∅ ∪ clocksWith (candidates log cond) me.reads.addrs
        (((candidates log cond).map (·.score me.reads.addrs)).foldl max 0) =
        {c | ∃ signal, IsBest (candidates log cond) me.reads.addrs signal ∧
          signal.clock = some c} := by
      rw [Set.empty_union]
      ext c
      constructor
      · rintro ⟨signal, isIn, isMax, isClock⟩
        exact ⟨signal, (score_eq_best_iff isIn).mp isMax, isClock⟩
      · rintro ⟨signal, isBest, isClock⟩
        exact ⟨signal, isBest.1, (score_eq_best_iff isBest.1).mpr isBest,
          isClock⟩
    have lub : Gathers _ (hb₂.soClock fresh) := gathers
    rw [show (signalsOn log cond).take recordedSignalsSize =
      candidates log cond from rfl, isSet] at lub
    cases atFresh : hb₂.soClock fresh with
    | some clock =>
        rw [atFresh] at lub
        exact ⟨clock, atFresh, lub⟩
    | none =>
        -- there is a best signal, and it has a clock
        rw [atFresh] at lub
        obtain ⟨signal, isIn, isMax⟩ := exists_best nonzero
        obtain ⟨clock, isClock⟩ := Option.isSome_iff_exists.mp
          (follows.clock_known isIn)
        have isMember : clock ∈ {c | ∃ signal, IsBest (candidates log cond)
            me.reads.addrs signal ∧ signal.clock = some c} :=
          ⟨signal, (score_eq_best_iff isIn).mp isMax, isClock⟩
        have noMember : {c | ∃ signal, IsBest (candidates log cond)
            me.reads.addrs signal ∧ signal.clock = some c} = ∅ := lub
        rw [noMember] at isMember
        cases isMember

/-- The call joins exactly the best signals if and only if the build is a
hybrid one or no signal has a score. -/
theorem cond_direct_so_joins_best_iff (build : Build) {st : Lsd build.Hb}
    {log : List (Signal build.Clock)}
    (ran : run build.lib root ops = .ok (st, log))
    (bound : st.thrs.lookup thr = some me)
    (free : ∃ after, build.lib.soAlloc st.libhb fresh = .ok after) :
    JoinsBest build.lib st (candidates log cond) me.reads.addrs fresh
      (st.condDirectSo build.lib thr cond fresh) ↔
    build ≠ .default ∨
      ∀ signal ∈ candidates log cond, signal.score me.reads.addrs = 0 := by
  cases build with
  | default =>
      rw [show (Build.default ≠ .default) = False from by simp, false_or]
      exact default_joinsBest_iff ran bound
  | ukas => exact iff_of_true (uka_joinsBest ran bound free) (.inl nofun)
  | ukal => exact iff_of_true (uka_joinsBest ran bound free) (.inl nofun)

/-- Thread 1 writes a location and signals, and thread 2 reads it. -/
def signalled : List LsdOp :=
  [.hb (.sync (.create 1 2)), .createThrLSD 1, .createThrLSD 2,
    .mutexLock 1, .recWrite 1 4096 false, .condSignalPre 1 9 50,
    .mutexLock 2, .recRead 2 4096 false]

theorem cond_direct_so_joins_best_signalled :
    ∃ (st : Lsd Build.ukal.Hb) (log : List (Signal Build.ukal.Clock))
      (me : ThrLSD), run Build.ukal.lib 1 signalled = .ok (st, log) ∧
      st.thrs.lookup 2 = some me ∧
      (candidates log 9).map (·.score me.reads.addrs) = [1] ∧
      JoinsBest Build.ukal.lib st (candidates log 9) me.reads.addrs 60
        (st.condDirectSo Build.ukal.lib 2 9 60) := by
  have seen : (run UkaHb.lib 1 signalled).toOption.map (fun out =>
      ((out.1.thrs.lookup 2).map fun me =>
        (candidates out.2 9).map (·.score me.reads.addrs),
      (out.1.libhb.soAlloc 60).toOption.isSome)) =
      some (some [1], true) := by
    decide +kernel
  obtain ⟨⟨st, log⟩, ran, view⟩ := exists_ok_of_map seen
  obtain ⟨scored, allocated⟩ := Prod.mk.inj view
  obtain ⟨me, bound, scores⟩ := Option.map_eq_some_iff.mp scored
  have free : ∃ after, Build.ukal.lib.soAlloc st.libhb 60 = .ok after := by
    change ∃ after, st.libhb.soAlloc 60 = .ok after
    cases made : st.libhb.soAlloc 60 with
    | error abort =>
        dsimp only at allocated
        rw [made] at allocated
        cases allocated
    | ok after => exact ⟨after, rfl⟩
  exact ⟨st, log, me, ran, bound, scores,
    (cond_direct_so_joins_best_iff .ukal ran bound free).mpr (.inl nofun)⟩

/-- In the default build the call aborts. -/
theorem cond_direct_so_aborts :
    ∃ (st : Lsd Build.default.Hb) (log : List (Signal Build.default.Clock))
      (me : ThrLSD), run Build.default.lib 1 signalled = .ok (st, log) ∧
      st.thrs.lookup 2 = some me ∧
      (candidates log 9).map (·.score me.reads.addrs) = [1] ∧
      st.condDirectSo Build.default.lib 2 9 60 = .error .indexXA ∧
      ¬ JoinsBest Build.default.lib st (candidates log 9) me.reads.addrs 60
        (st.condDirectSo Build.default.lib 2 9 60) := by
  have seen : (run Hb.lib 1 signalled).toOption.map (fun out =>
      ((out.1.thrs.lookup 2).map fun me =>
        (candidates out.2 9).map (·.score me.reads.addrs),
      (out.1.condDirectSo Hb.lib 2 9 60).map fun _ => ())) =
      some (some [1], .error .indexXA) := by
    decide +kernel
  obtain ⟨⟨st, log⟩, ran, view⟩ := exists_ok_of_map seen
  obtain ⟨scored, aborted⟩ := Prod.mk.inj view
  obtain ⟨me, bound, scores⟩ := Option.map_eq_some_iff.mp scored
  have failed : st.condDirectSo Build.default.lib 2 9 60 =
      .error .indexXA := eq_error_of_map aborted
  refine ⟨st, log, me, ran, bound, scores, failed, ?_⟩
  rintro ⟨st', result, returned, -⟩
  rw [failed] at returned
  cases returned

end Lsd

end HelgrindPlus
