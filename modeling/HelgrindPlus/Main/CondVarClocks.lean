import HelgrindPlus.Main.CondVars

/-!
# Clocks of condition variables

In every run the object of a condition variable holds the least upper bound of
the clocks of the signals on it.  Below the highest level of the detector a
wait outside of waiting loops takes over exactly these clocks, and the end of a
waiting loop those of all variables that the thread has waited for or has
expected, whether a signal came before the wait or not.
-/

namespace HelgrindPlus

open Outcome

section Joins

variable {κ : Type} [Preorder κ] [ClockOps κ]

private theorem isLUB_join {clocks clocks' : Set κ} {left right : κ}
    (isLeft : IsLUB clocks left) (isRight : IsLUB clocks' right) :
    IsLUB (clocks ∪ clocks') (ClockOps.join left right) := by
  constructor
  · intro clock isIn
    cases isIn with
    | inl isIn =>
        exact le_trans (isLeft.1 isIn) (ClockOps.le_join_left left right)
    | inr isIn =>
        exact le_trans (isRight.1 isIn) (ClockOps.le_join_right left right)
  · intro above isAbove
    apply ClockOps.join_le
    · exact isLeft.2 fun clock isIn => isAbove (.inl isIn)
    · exact isRight.2 fun clock isIn => isAbove (.inr isIn)

/-- What an object holds after some weak sends. -/
def joinedAll (clocks : List κ) : Option κ :=
  clocks.foldl (fun contents clock => some (sentWeakly contents clock)) none

private theorem joinedAll_append (clocks : List κ) (clock : κ) :
    joinedAll (clocks ++ [clock]) =
      some (sentWeakly (joinedAll clocks) clock) := by
  unfold joinedAll
  rw [List.foldl_append]
  rfl

/-- An empty object, or one that holds the least upper bound. -/
theorem joinedAll_spec (clocks : List κ) :
    (clocks = [] ∧ joinedAll clocks = none) ∨
    ∃ joined, clocks ≠ [] ∧ joinedAll clocks = some joined ∧
      IsLUB {c | c ∈ clocks} joined := by
  induction clocks using List.reverseRecOn with
  | nil => exact .inl ⟨rfl, rfl⟩
  | append_singleton clocks clock induction =>
      right
      have members : {c | c ∈ clocks ++ [clock]} =
          {c | c ∈ clocks} ∪ {clock} := by
        ext c
        simp [or_comm]
      refine ⟨sentWeakly (joinedAll clocks) clock, by simp,
        joinedAll_append clocks clock, ?_⟩
      rw [members]
      obtain ⟨none, empty⟩ | ⟨joined, -, holds, isLub⟩ := induction
      · rw [empty, none, show {c | c ∈ ([] : List κ)} = ∅ by simp,
          Set.empty_union]
        exact isLUB_singleton
      · rw [holds]
        exact isLUB_join isLub isLUB_singleton

private theorem isSome_joinedAll (clocks : List κ) :
    (joinedAll clocks).isSome = !clocks.isEmpty := by
  obtain ⟨none, empty⟩ | ⟨joined, nonempty, holds, -⟩ := joinedAll_spec clocks
  · rw [empty, none]
    rfl
  · rw [holds, List.isEmpty_eq_false_iff.mpr nonempty]
    rfl

theorem isLUB_joinInto {clocks : Set κ} {now : κ} (isLub : IsLUB clocks now)
    (signals : List κ) :
    IsLUB (clocks ∪ {c | c ∈ signals}) (joinInto now (joinedAll signals)) := by
  obtain ⟨none, empty⟩ | ⟨joined, -, holds, isJoined⟩ :=
    joinedAll_spec signals
  · rw [empty, none, show {c | c ∈ ([] : List κ)} = ∅ by simp,
      Set.union_empty]
    exact isLub
  · rw [holds]
    exact isLUB_join isLub isJoined

end Joins

/-- The laws, with that of the test. -/
structure CondLib.Laws {σ κ : Type} [Preorder κ] [ClockOps κ]
    (lib : CondLib σ κ) (inv : σ → Prop) (held : σ → Holdings κ) : Prop
    extends lib.toLibHB.Laws inv held where
  everSent : ∀ {s so sent}, inv s → lib.soEverSent s so = .ok sent →
    ∃ contents, (held s).sos so = some contents ∧ sent = contents.isSome

/-- The calls that change nothing but what the detector knows of a thread. -/
def LsdOp.isLocal : LsdOp → Bool
  | .mutexLock _ | .mutexUnlock _ | .recWrite _ _ _ | .recRead _ _ _
  | .condWaitPre _ | .condWaitPost _ => true
  | _ => false

theorem Lsd.perform_local {σ κ : Type} {lib : LibHB σ κ} {st st' : Lsd σ}
    {op : LsdOp} (isLocal : op.isLocal = true)
    (done : st.perform lib op = .ok st') :
    st'.libhb = st.libhb ∧ st'.conds = st.conds := by
  cases op with
  | mutexLock thr | mutexUnlock thr =>
      obtain ⟨me, -, same⟩ := bind_eq_ok.mp done
      cases same
      exact ⟨rfl, rfl⟩
  | recWrite thr a ignored | recRead thr a ignored =>
      obtain ⟨me, -, same⟩ := bind_eq_ok.mp done
      cases same
      split
      · exact ⟨rfl, rfl⟩
      · exact ⟨rfl, rfl⟩
  | condWaitPre thr | condWaitPost thr =>
      obtain ⟨me, -, done⟩ := bind_eq_ok.mp done
      obtain ⟨-, -, same⟩ := bind_eq_ok.mp done
      cases same
      exact ⟨rfl, rfl⟩
  | hb op | createThrLSD thr | condSignalPre thr cond fresh
  | condDirectSo thr cond fresh => cases isLocal

theorem Lsd.condSignalPre_conds {σ κ : Type} {lib : LibHB σ κ}
    {st st' : Lsd σ} {thr cond fresh : Nat}
    (done : st.condSignalPre lib thr cond fresh = .ok st') :
    ∃ cv, st'.conds = st.conds.insert cond cv := by
  obtain ⟨me, -, done⟩ := bind_eq_ok.mp done
  obtain ⟨libhb₁, -, done⟩ := bind_eq_ok.mp done
  obtain ⟨libhb₂, -, same⟩ := bind_eq_ok.mp done
  cases same
  exact ⟨_, rfl⟩

/-- The condition variables that a thread has expected or waited for. -/
def WaitingLoop.conds (loop : WaitingLoop) : List Nat :=
  loop.expectCond :: loop.cvlist.map (·.1)

theorem WaitingLoop.exists_conds (loop : WaitingLoop) (holds : Nat → Prop) :
    (∃ cond ∈ loop.conds, holds cond) ↔
      holds loop.expectCond ∨ ∃ wait ∈ loop.cvlist, holds wait.1 := by
  simp [conds]

namespace CondTab

variable {σ κ : Type}

/-- What every handler keeps, up to the sends and the binding of objects. -/
structure Keeps (held : σ → Holdings κ) (tab tab' : CondTab σ) : Prop where
  bound : tab'.mapCondToSO = tab.mapCondToSO
  sos : ∀ {cond so}, tab.mapCondToSO.lookup cond = some so →
    (held tab'.lsd.libhb).sos so = (held tab.lsd.libhb).sos so
  records : ∀ {cond i al so}, tab'.lsd.record cond i = some al →
    al.so = some so → (held tab.lsd.libhb).sos so = none ∨
      ∃ other j al', tab.lsd.record other j = some al' ∧ al'.so = some so
  known : ∀ {cond}, (tab.lsd.conds.lookup cond).isSome →
    (tab'.lsd.conds.lookup cond).isSome

theorem Keeps.of_eq {held : σ → Holdings κ} {tab tab' : CondTab σ}
    (bound : tab'.mapCondToSO = tab.mapCondToSO)
    (libhb : tab'.lsd.libhb = tab.lsd.libhb)
    (conds : tab'.lsd.conds = tab.lsd.conds) : Keeps held tab tab' where
  bound := bound
  sos _ := by rw [libhb]
  records := by
    intro cond i al so isRecord isSo
    unfold Lsd.record Lsd.lookupCondVar at isRecord
    rw [conds] at isRecord
    exact .inr ⟨cond, i, al, isRecord, isSo⟩
  known isKnown := by rwa [conds]

/-- The thread is inside a waiting loop. -/
def inLoop (tab : CondTab σ) (thr : Nat) : Bool :=
  match tab.loops.lookup thr with
  | some loop => loop.inWaitingLoop
  | none => false

section Takes

variable [Preorder κ] {held : σ → Holdings κ} {tab tab' : CondTab σ}

/-- The clock of a thread takes a set of clocks over. -/
def Takes (held : σ → Holdings κ) (tab tab' : CondTab σ) (thr : Nat)
    (signals : Set κ) : Prop :=
  ∀ clocks clock, (held tab.lsd.libhb).thrs thr = some clock →
    IsLUB clocks clock → ∃ after,
      (held tab'.lsd.libhb).thrs thr = some after ∧
      IsLUB (clocks ∪ signals) after

theorem Takes.none {thr : Nat}
    (thrs : (held tab'.lsd.libhb).thrs = (held tab.lsd.libhb).thrs) :
    Takes held tab tab' thr ∅ := by
  intro clocks clock atThr isLub
  rw [Set.union_empty, thrs]
  exact ⟨clock, atThr, isLub⟩

theorem Takes.trans {tab'' : CondTab σ} {thr : Nat} {signals more : Set κ}
    (first : Takes held tab tab' thr signals)
    (second : Takes held tab' tab'' thr more) :
    Takes held tab tab'' thr (signals ∪ more) := by
  intro clocks clock atThr isLub
  obtain ⟨clock', atThr', isLub'⟩ := first clocks clock atThr isLub
  rw [← Set.union_assoc]
  exact second _ clock' atThr' isLub'

end Takes

variable [Preorder κ] [ClockOps κ]

/-- The objects of the condition variables hold the signals that count. -/
structure Tracks (lib : CondLib σ κ) (inv : σ → Prop)
    (held : σ → Holdings κ) (tab : CondTab σ) (log : Nat → List κ) :
    Prop where
  follows : ∃ signals, tab.lsd.Follows lib.toLibHB inv signals
  holds : ∀ {cond so}, tab.mapCondToSO.lookup cond = some so →
    (held tab.lsd.libhb).sos so = some (joinedAll (log cond))
  unbound : ∀ {cond}, tab.mapCondToSO.lookup cond = none → log cond = []
  distinct : ∀ {cond other so}, tab.mapCondToSO.lookup cond = some so →
    tab.mapCondToSO.lookup other = some so → cond = other
  separate : ∀ {cond so other i al},
    tab.mapCondToSO.lookup cond = some so →
    tab.lsd.record other i = some al → al.so ≠ some so
  known : ∀ {cond}, log cond ≠ [] → (tab.lsd.conds.lookup cond).isSome

section Steps

variable {lib : CondLib σ κ} {inv : σ → Prop} {held : σ → Holdings κ}
  {tab tab' : CondTab σ} {log : Nat → List κ}

theorem Tracks.sound (tracks : Tracks lib inv held tab log) :
    inv tab.lsd.libhb := by
  obtain ⟨signals, follows⟩ := tracks.follows
  exact follows.inv

theorem Tracks.keeps (tracks : Tracks lib inv held tab log)
    (keeps : Keeps held tab tab')
    (follows : ∃ signals, tab'.lsd.Follows lib.toLibHB inv signals) :
    Tracks lib inv held tab' log where
  follows := follows
  holds := by
    intro cond so bound
    rw [keeps.bound] at bound
    rw [keeps.sos bound]
    exact tracks.holds bound
  unbound := by
    intro cond unbound
    rw [keeps.bound] at unbound
    exact tracks.unbound unbound
  distinct := by
    intro cond other so isFirst isSecond
    rw [keeps.bound] at isFirst isSecond
    exact tracks.distinct isFirst isSecond
  separate := by
    intro cond so other i al bound isRecord isSo
    rw [keeps.bound] at bound
    obtain unused | ⟨cond', j, al', was, isSo'⟩ := keeps.records isRecord isSo
    · rw [tracks.holds bound] at unused
      cases unused
    · exact tracks.separate bound was isSo'
  known some := keeps.known (tracks.known some)

/-- Loops and locks have nothing to do with the clocks. -/
theorem Tracks.of_lsd_eq (tracks : Tracks lib inv held tab log)
    (lsd : tab'.lsd = tab.lsd)
    (bound : tab'.mapCondToSO = tab.mapCondToSO) :
    Tracks lib inv held tab' log :=
  tracks.keeps (.of_eq bound (by rw [lsd]) (by rw [lsd]))
    (by rw [lsd]; exact tracks.follows)

theorem Tracks.setLoop (tracks : Tracks lib inv held tab log) (thr : Nat)
    (loop : WaitingLoop) : Tracks lib inv held (tab.setLoop thr loop) log :=
  tracks.of_lsd_eq rfl rfl

theorem Tracks.setThr (tracks : Tracks lib inv held tab log) {me : ThrLSD}
    (idle : me.writes.iterating = false ∧ me.reads.iterating = false)
    (thr : Nat) :
    Tracks lib inv held { tab with lsd := tab.lsd.setThr thr me } log := by
  obtain ⟨signals, follows⟩ := tracks.follows
  exact tracks.keeps (.of_eq rfl rfl rfl) ⟨signals, follows.setThr idle thr⟩

/-- A call of the detector that concerns one thread only. -/
theorem Tracks.local (laws : lib.Laws inv held)
    (tracks : Tracks lib inv held tab log) {op : LsdOp} {st : Lsd σ}
    (isLocal : op.isLocal = true)
    (done : tab.lsd.perform lib.toLibHB op = .ok st) :
    Tracks lib inv held { tab with lsd := st } log := by
  obtain ⟨libhb, conds⟩ := Lsd.perform_local isLocal done
  obtain ⟨signals, follows⟩ := tracks.follows
  exact tracks.keeps (.of_eq rfl libhb conds)
    ⟨_, follows.perform laws.lawful done⟩

/-- The object of a record is live. -/
theorem Tracks.live (laws : lib.Laws inv held)
    (tracks : Tracks lib inv held tab log) {cond i so : Nat}
    {al : AccessList} (isRecord : tab.lsd.record cond i = some al)
    (isSo : al.so = some so) : (held tab.lsd.libhb).sos so ≠ none := by
  obtain ⟨signals, follows⟩ := tracks.follows
  have known := follows.known isRecord isSo
  rw [laws.soClock follows.inv] at known
  intro dead
  rw [dead] at known
  cases known

/-- The clock interface may change if it keeps the objects that the tables
name. -/
theorem Tracks.withLib (laws : lib.Laws inv held)
    (tracks : Tracks lib inv held tab log) {libhb : σ} (sound : inv libhb)
    (records : ∀ {cond i al so}, tab.lsd.record cond i = some al →
      al.so = some so →
      (held libhb).sos so = (held tab.lsd.libhb).sos so)
    (sos : ∀ {cond so}, tab.mapCondToSO.lookup cond = some so →
      (held libhb).sos so = (held tab.lsd.libhb).sos so) :
    Tracks lib inv held (tab.withLib libhb) log := by
  refine tracks.keeps ⟨rfl, sos, ?_, fun isKnown => isKnown⟩ ?_
  · intro cond i al so isRecord isSo
    exact .inr ⟨cond, i, al, isRecord, isSo⟩
  · obtain ⟨signals, follows⟩ := tracks.follows
    refine ⟨signals, follows.withLib sound ?_⟩
    intro cond i al so isRecord isSo
    rw [laws.soClock sound, laws.soClock follows.inv,
      records isRecord isSo]

/-- A condition variable has its object, and no clock has changed. -/
structure Found (lib : CondLib σ κ) (inv : σ → Prop)
    (held : σ → Holdings κ) (tab tab' : CondTab σ) (log : Nat → List κ)
    (cond so : Nat) : Prop where
  tracks : Tracks lib inv held tab' log
  bound : tab'.mapCondToSO.lookup cond = some so
  loops : tab'.loops = tab.loops
  conds : tab'.lsd.conds = tab.lsd.conds
  thrs : (held tab'.lsd.libhb).thrs = (held tab.lsd.libhb).thrs

theorem Tracks.lookupOrAlloc (laws : lib.Laws inv held)
    (tracks : Tracks lib inv held tab log) {cond fresh so : Nat}
    (done : tab.mapCondToSOLookupOrAlloc lib cond fresh = .ok (tab', so)) :
    Found lib inv held tab tab' log cond so := by
  unfold mapCondToSOLookupOrAlloc at done
  split at done
  · rename_i so' bound
    cases done
    exact ⟨tracks, bound, rfl, rfl, rfl⟩
  · rename_i unbound
    obtain ⟨libhb, allocated, same⟩ := bind_eq_ok.mp done
    cases same
    obtain ⟨sound, unused, after⟩ := laws.soAlloc tracks.sound allocated
    have other : ∀ {so'}, (held tab.lsd.libhb).sos so' ≠ none →
        so' ≠ fresh := by
      intro so' isLive same
      exact isLive (same ▸ unused)
    have boundLive : ∀ {cond' so'},
        tab.mapCondToSO.lookup cond' = some so' →
        so' ≠ fresh := by
      intro cond' so' bound
      apply other
      rw [tracks.holds bound]
      exact Option.some_ne_none _
    have thrs : (held libhb).thrs = (held tab.lsd.libhb).thrs := by
      rw [after, Holdings.setSO_thrs]
    have kept : Tracks lib inv held (tab.withLib libhb) log := by
      apply tracks.withLib laws sound
      · intro cond' i al so' isRecord isSo
        rw [after, Holdings.setSO_sos_other _
          (other (tracks.live laws isRecord isSo))]
      · intro cond' so' bound
        rw [after, Holdings.setSO_sos_other _ (boundLive bound)]
    refine ⟨⟨kept.follows, ?_, ?_, ?_, ?_, kept.known⟩,
      AList.lookup_insert _, rfl, rfl, thrs⟩
    · intro cond' so' bound
      by_cases same : cond' = cond
      · rw [same, AList.lookup_insert] at bound
        cases bound
        rw [same, tracks.unbound unbound]
        change (held libhb).sos fresh = _
        rw [after, Holdings.setSO_sos_self]
        rfl
      · rw [AList.lookup_insert_ne same] at bound
        exact kept.holds bound
    · intro cond' unbound'
      by_cases same : cond' = cond
      · rw [same, AList.lookup_insert] at unbound'
        cases unbound'
      · rw [AList.lookup_insert_ne same] at unbound'
        exact tracks.unbound unbound'
    · intro cond₁ cond₂ so' isFirst isSecond
      by_cases same₁ : cond₁ = cond
      · by_cases same₂ : cond₂ = cond
        · rw [same₁, same₂]
        · rw [same₁, AList.lookup_insert] at isFirst
          rw [AList.lookup_insert_ne same₂] at isSecond
          cases isFirst
          exact absurd rfl (boundLive isSecond)
      · rw [AList.lookup_insert_ne same₁] at isFirst
        by_cases same₂ : cond₂ = cond
        · rw [same₂, AList.lookup_insert] at isSecond
          cases isSecond
          exact absurd rfl (boundLive isFirst)
        · rw [AList.lookup_insert_ne same₂] at isSecond
          exact tracks.distinct isFirst isSecond
    · intro cond' so' other' i al bound isRecord isSo
      by_cases same : cond' = cond
      · rw [same, AList.lookup_insert] at bound
        cases bound
        exact other (tracks.live laws isRecord isSo) rfl
      · rw [AList.lookup_insert_ne same] at bound
        exact tracks.separate bound isRecord isSo

theorem isSome_lookup_insert {conds : AList (fun _ : Nat => CondVar)}
    {cond other : Nat} {cv : CondVar}
    (isKnown : other = cond ∨ (conds.lookup other).isSome) :
    ((conds.insert cond cv).lookup other).isSome := by
  by_cases same : other = cond
  · rw [same, AList.lookup_insert]
    rfl
  · rw [AList.lookup_insert_ne same]
    exact isKnown.resolve_left same

/-- What the detector does at a signal leaves the clocks of the threads and the
objects of the variables. -/
structure Noted (lib : CondLib σ κ) (inv : σ → Prop)
    (held : σ → Holdings κ) (tab tab' : CondTab σ) (log : Nat → List κ)
    (cond : Nat) : Prop where
  tracks : Tracks lib inv held tab' log
  bound : tab'.mapCondToSO = tab.mapCondToSO
  thrs : (held tab'.lsd.libhb).thrs = (held tab.lsd.libhb).thrs
  known : (tab'.lsd.conds.lookup cond).isSome

private theorem forget_held (laws : lib.Laws inv held) {libhb libhb' : σ}
    {oldest : Option AccessList} (sound : inv libhb)
    (done : Lsd.forget lib.toLibHB libhb oldest = .ok libhb') :
    inv libhb' ∧ (held libhb').thrs = (held libhb).thrs ∧
    ∀ so, (held libhb').sos so = (held libhb).sos so ∨
      ∃ al, oldest = some al ∧ al.so = some so := by
  unfold Lsd.forget at done
  split at done
  · cases done
    exact ⟨sound, rfl, fun so => .inl rfl⟩
  · rename_i al
    split at done
    · cases done
    · rename_i old isOld
      obtain ⟨sound', -, after⟩ := laws.soDealloc sound done
      refine ⟨sound', by rw [after, Holdings.setSO_thrs], fun so => ?_⟩
      by_cases same : so = old
      · exact .inr ⟨al, rfl, same ▸ isOld⟩
      · rw [after, Holdings.setSO_sos_other _ same]
        exact .inl rfl

theorem Tracks.lsdSignal (laws : lib.Laws inv held)
    (tracks : Tracks lib inv held tab log) {level thr cond fresh : Nat}
    (done : tab.lsdCondSignalPre lib level thr cond fresh = .ok tab') :
    Noted lib inv held tab tab' log cond := by
  obtain ⟨signals, follows⟩ := tracks.follows
  obtain ⟨me, -, done⟩ := bind_eq_ok.mp done
  split at done
  · cases done
    refine ⟨tracks.keeps ⟨rfl, fun _ => rfl, ?_, fun isKnown =>
      isSome_lookup_insert (.inr isKnown)⟩ ⟨_, follows.setSignaled cond true⟩,
      rfl, rfl, isSome_lookup_insert (.inl rfl)⟩
    intro other i al so isRecord isSo
    rw [Lsd.record_setSignaled] at isRecord
    exact .inr ⟨other, i, al, isRecord, isSo⟩
  · obtain ⟨lsd, signalled, same⟩ := bind_eq_ok.mp done
    cases same
    have after := follows.signal laws.lawful signalled
    obtain ⟨cv, conds⟩ := Lsd.condSignalPre_conds signalled
    obtain ⟨me, libhb, steps⟩ :=
      Lsd.condSignalPre_eq_ok (follows.size cond) signalled
    obtain ⟨sound₁, thrs₁, kept₁⟩ :=
      forget_held laws follows.inv steps.forgotten
    obtain ⟨-, unused, clock, -, extracted⟩ :=
      laws.soExtract sound₁ steps.extracted
    -- an object of a variable is neither forgotten nor made here
    have bound : ∀ {cond' so}, tab.mapCondToSO.lookup cond' = some so →
        (held lsd.libhb).sos so = (held tab.lsd.libhb).sos so := by
      intro cond' so bound
      obtain kept | ⟨al, isOldest, isSo⟩ := kept₁ so
      · have different : so ≠ fresh := by
          intro same
          rw [← same, kept, tracks.holds bound] at unused
          cases unused
        rw [extracted, Holdings.setSO_sos_other _ different, kept]
      · exact absurd isSo (tracks.separate bound isOldest)
    have isKnown : ∀ {other}, other = cond ∨
        (tab.lsd.conds.lookup other).isSome →
        (lsd.conds.lookup other).isSome := by
      intro other isKnown
      rw [conds]
      exact isSome_lookup_insert isKnown
    refine ⟨tracks.keeps ⟨rfl, bound, ?_, fun known => isKnown (.inr known)⟩
      ⟨_, after⟩, rfl, ?_, isKnown (.inl rfl)⟩
    · intro other i al so isRecord isSo
      obtain ⟨-, -, isLatest⟩ | ⟨-, j, -, -, was⟩ | ⟨-, was⟩ :=
        steps.record_cases isRecord
      · rw [isLatest] at isSo
        cases isSo
        obtain kept | ⟨oldest, isOldest, isSo⟩ := kept₁ fresh
        · exact .inl (kept ▸ unused)
        · exact .inr ⟨_, _, oldest, isOldest, isSo⟩
      · exact .inr ⟨cond, j, al, was, isSo⟩
      · exact .inr ⟨other, i, al, was, isSo⟩
    · exact (congrArg Holdings.thrs extracted).trans thrs₁

theorem Tracks.signal (laws : lib.Laws inv held)
    (tracks : Tracks lib inv held tab log) {level thr cond : Nat}
    {fresh extracted : Nat}
    (done : tab.condSignalPre lib level thr cond fresh extracted =
      .ok tab') :
    Tracks lib inv held tab'
      (noteSignals lib tab log (.signalPre thr cond fresh extracted)) := by
  obtain ⟨⟨tab₁, so⟩, looked, done⟩ := bind_eq_ok.mp done
  obtain ⟨tab₂, noted, done⟩ := bind_eq_ok.mp done
  obtain ⟨libhb, sent, same⟩ := bind_eq_ok.mp done
  cases same
  have found := tracks.lookupOrAlloc laws looked
  have noted := found.tracks.lsdSignal laws noted
  have tracks₂ := noted.tracks
  have isBound : tab₂.mapCondToSO.lookup cond = some so := by
    rw [noted.bound]
    exact found.bound
  obtain ⟨sound, others⟩ := laws.perform tracks₂.sound sent
  obtain ⟨clock, contents, atThr, atSO, after⟩ :=
    laws.soSend tracks₂.sound sent
  rw [tracks₂.holds isBound] at atSO
  cases atSO
  have isClock : lib.thrClock tab.lsd.libhb thr = some clock := by
    rw [laws.thrClock tracks.sound, ← found.thrs, ← noted.thrs, atThr]
  have isLog : noteSignals lib tab log (.signalPre thr cond fresh extracted) =
      Function.update log cond (log cond ++ [clock]) := by
    simp only [noteSignals, isClock, Option.toList_some]
  rw [isLog]
  have kept : ∀ {so'}, so' ≠ so →
      (held libhb).sos so' = (held tab₂.lsd.libhb).sos so' := by
    intro so' different
    exact others so' fun isIn => different (List.mem_singleton.mp isIn)
  refine ⟨?_, ?_, ?_, tracks₂.distinct, tracks₂.separate, ?_⟩
  · obtain ⟨signals, follows⟩ := tracks₂.follows
    refine ⟨signals, follows.withLib sound ?_⟩
    intro other i al so' isRecord isSo
    have different : so' ≠ so := by
      intro same
      exact tracks₂.separate isBound isRecord (same ▸ isSo)
    rw [laws.soClock sound, laws.soClock follows.inv, kept different]
  · intro other so' bound
    change (held libhb).sos so' = _
    by_cases same : other = cond
    · rw [same] at bound
      rw [same, Function.update_self, joinedAll_append]
      have isSame : so' = so :=
        Option.some.inj (bound.symm.trans isBound)
      rw [isSame, after, Holdings.setThr_sos, Holdings.setSO_sos_self]
    · rw [Function.update_of_ne same]
      have different : so' ≠ so := by
        intro isSame
        exact same (tracks₂.distinct bound (isSame ▸ isBound))
      rw [kept different]
      exact tracks₂.holds bound
  · intro other unbound
    have different : other ≠ cond := by
      intro same
      rw [same] at unbound
      change tab₂.mapCondToSO.lookup cond = none at unbound
      rw [isBound] at unbound
      cases unbound
    rw [Function.update_of_ne different]
    exact tracks₂.unbound unbound
  · intro other nonempty
    by_cases same : other = cond
    · rw [same]
      exact noted.known
    · rw [Function.update_of_ne same] at nonempty
      exact tracks₂.known nonempty

theorem Tracks.destroy (laws : lib.Laws inv held)
    (tracks : Tracks lib inv held tab log) {cond : Nat}
    (done : tab.mapCondToSODelete lib cond = .ok tab') :
    Tracks lib inv held tab' (Function.update log cond []) := by
  unfold mapCondToSODelete at done
  split at done
  · rename_i so isBound
    obtain ⟨libhb, freed, same⟩ := bind_eq_ok.mp done
    cases same
    obtain ⟨sound, -, after⟩ := laws.soDealloc tracks.sound freed
    have kept : ∀ {so'}, so' ≠ so →
        (held libhb).sos so' = (held tab.lsd.libhb).sos so' := by
      intro so' different
      rw [after, Holdings.setSO_sos_other _ different]
    -- the variables that are left
    have rest : ∀ {other so'},
        (tab.mapCondToSO.erase cond).lookup other = some so' →
        other ≠ cond ∧ tab.mapCondToSO.lookup other = some so' := by
      intro other so' bound
      by_cases same : other = cond
      · rw [same, AList.lookup_erase] at bound
        cases bound
      · rw [AList.lookup_erase_ne same] at bound
        exact ⟨same, bound⟩
    refine ⟨?_, ?_, ?_, ?_, ?_, ?_⟩
    · obtain ⟨signals, follows⟩ := tracks.follows
      refine ⟨signals, follows.withLib sound ?_⟩
      intro other i al so' isRecord isSo
      have different : so' ≠ so := by
        intro same
        exact tracks.separate isBound isRecord (same ▸ isSo)
      rw [laws.soClock sound, laws.soClock follows.inv, kept different]
    · intro other so' bound
      obtain ⟨different, bound⟩ := rest bound
      rw [Function.update_of_ne different, ← tracks.holds bound]
      apply kept
      intro same
      exact different (tracks.distinct bound (same ▸ isBound))
    · intro other unbound
      change (tab.mapCondToSO.erase cond).lookup other = none at unbound
      by_cases same : other = cond
      · rw [same, Function.update_self]
      · rw [AList.lookup_erase_ne same] at unbound
        rw [Function.update_of_ne same, tracks.unbound unbound]
    · intro cond₁ cond₂ so' isFirst isSecond
      exact tracks.distinct (rest isFirst).2 (rest isSecond).2
    · intro other so' other' i al bound isRecord
      exact tracks.separate (rest bound).2 isRecord
    · intro other nonempty
      apply tracks.known
      intro empty
      apply nonempty
      by_cases same : other = cond
      · rw [same, Function.update_self]
      · rw [Function.update_of_ne same, empty]
  · rename_i unbound
    cases done
    have same : Function.update log cond [] = log := by
      rw [← tracks.unbound unbound, Function.update_eq_self]
    rwa [same]

private theorem joinBest_held (laws : lib.Laws inv held) {so best : Nat}
    {records : List (Option AccessList)} {scores : List Nat}
    {libhb libhb' : σ} (sound : inv libhb)
    (done : Lsd.joinBest lib.toLibHB so best records scores libhb =
      .ok libhb') : inv libhb' ∧ ∀ other, other ≠ so →
        (held libhb').sos other = (held libhb).sos other := by
  induction records generalizing scores libhb with
  | nil =>
      cases done
      exact ⟨sound, fun _ _ => rfl⟩
  | cons record rest induction =>
      cases record with
      | none =>
          cases done
          exact ⟨sound, fun _ _ => rfl⟩
      | some al =>
          cases scores with
          | nil =>
              cases done
              exact ⟨sound, fun _ _ => rfl⟩
          | cons score scores =>
              obtain ⟨libhb₁, joined, done⟩ := bind_eq_ok.mp done
              have first : inv libhb₁ ∧ ∀ other, other ≠ so →
                  (held libhb₁).sos other = (held libhb).sos other := by
                unfold Lsd.joinRecord at joined
                split at joined
                · split at joined
                  · cases joined
                  · obtain ⟨sound₁, -, contents, after⟩ :=
                      laws.soJoin sound joined
                    refine ⟨sound₁, fun other different => ?_⟩
                    rw [after, Holdings.setSO_sos_other _ different]
                · cases joined
                  exact ⟨sound, fun _ _ => rfl⟩
              obtain ⟨sound', kept⟩ := induction first.1 done
              exact ⟨sound', fun other different =>
                (kept other different).trans (first.2 other different)⟩

/-- What the detector says at a wait.  The object that it makes is none of
those of the tables. -/
structure Directed (lib : CondLib σ κ) (inv : σ → Prop)
    (held : σ → Holdings κ) (tab tab' : CondTab σ) (log : Nat → List κ)
    (level : Nat) (direct : Option Nat) : Prop where
  tracks : Tracks lib inv held tab' log
  bound : tab'.mapCondToSO = tab.mapCondToSO
  libhb : direct = none → tab'.lsd.libhb = tab.lsd.libhb
  below : level < 2 → direct = none
  unbound : ∀ {so cond}, direct = some so →
    tab'.mapCondToSO.lookup cond ≠ some so
  unrecorded : ∀ {so cond i al}, direct = some so →
    tab'.lsd.record cond i = some al → al.so ≠ some so

theorem Directed.of_none {level : Nat}
    (tracks : Tracks lib inv held tab' log)
    (bound : tab'.mapCondToSO = tab.mapCondToSO)
    (libhb : tab'.lsd.libhb = tab.lsd.libhb) :
    Directed lib inv held tab tab' log level none where
  tracks := tracks
  bound := bound
  libhb _ := libhb
  below _ := rfl
  unbound := by
    intro so cond impossible
    cases impossible
  unrecorded := by
    intro so cond i al impossible
    cases impossible

theorem Tracks.direct (laws : lib.Laws inv held)
    (tracks : Tracks lib inv held tab log) {level thr cond fresh : Nat}
    {direct : Option Nat}
    (done : tab.lsdCondDirectSo lib level thr cond fresh =
      .ok (tab', direct)) :
    Directed lib inv held tab tab' log level direct := by
  obtain ⟨signals, follows⟩ := tracks.follows
  have marked : Keeps held tab
      { tab with lsd := tab.lsd.setSignaled cond false } := by
    refine ⟨rfl, fun _ => rfl, ?_, fun isKnown =>
      isSome_lookup_insert (.inr isKnown)⟩
    intro other i al so isRecord isSo
    rw [Lsd.record_setSignaled] at isRecord
    exact .inr ⟨other, i, al, isRecord, isSo⟩
  unfold lsdCondDirectSo at done
  split at done
  · cases done
    exact .of_none
      (tracks.keeps marked ⟨_, follows.setSignaled cond false⟩) rfl rfl
  · rename_i high
    obtain ⟨⟨lsd, result⟩, directed, same⟩ := bind_eq_ok.mp done
    cases same
    have after := (follows.direct laws.lawful directed).1
    obtain ⟨me, -, directed⟩ := bind_eq_ok.mp directed
    obtain ⟨set, -, directed⟩ := bind_eq_ok.mp directed
    obtain ⟨scores, -, directed⟩ := bind_eq_ok.mp directed
    dsimp only at directed
    split at directed
    · cases directed
      exact .of_none (tracks.keeps marked ⟨_, after⟩) rfl rfl
    · obtain ⟨libhb₁, allocated, directed⟩ := bind_eq_ok.mp directed
      obtain ⟨libhb₂, joined, same⟩ := bind_eq_ok.mp directed
      cases same
      obtain ⟨sound₁, unused, made⟩ := laws.soAlloc follows.inv allocated
      obtain ⟨-, kept⟩ := joinBest_held laws sound₁ joined
      have unbound : ∀ {other}, tab.mapCondToSO.lookup other ≠ some fresh := by
        intro other bound
        rw [tracks.holds bound] at unused
        cases unused
      refine ⟨tracks.keeps ⟨rfl, ?_, ?_, ?_⟩ ⟨_, after⟩, rfl, ?_, ?_, ?_, ?_⟩
      · intro other so bound
        have different : so ≠ fresh := by
          intro same
          exact unbound (same ▸ bound)
        change (held libhb₂).sos so = _
        rw [kept so different, made, Holdings.setSO_sos_other _ different]
      · intro other i al so isRecord isSo
        exact marked.records isRecord isSo
      · intro other isKnown
        exact marked.known isKnown
      · intro impossible
        cases impossible
      · intro below
        exact absurd below high
      · intro so other isDirect
        cases isDirect
        exact unbound
      · intro so other i al isDirect isRecord isSo
        cases isDirect
        change (tab.lsd.setSignaled cond false).record other i = _ at isRecord
        rw [Lsd.record_setSignaled] at isRecord
        exact tracks.live laws isRecord isSo unused

theorem Tracks.acquire (laws : lib.Laws inv held)
    (tracks : Tracks lib inv held tab log) {level thr cond so fresh : Nat}
    (isBound : tab.mapCondToSO.lookup cond = some so)
    (done : tab.acquireSignal lib level thr cond so fresh = .ok tab') :
    Tracks lib inv held tab' log ∧
      (level < 2 → Takes held tab tab' thr {c | c ∈ log cond}) := by
  obtain ⟨⟨tab₁, direct⟩, directed, done⟩ := bind_eq_ok.mp done
  have directed := tracks.direct laws directed
  have tracks₁ := directed.tracks
  cases direct with
  | none =>
      obtain ⟨libhb, received, same⟩ := bind_eq_ok.mp done
      cases same
      obtain ⟨sound, -⟩ := laws.perform tracks₁.sound received
      obtain ⟨clock, contents, atThr, atSO, after⟩ :=
        laws.soRecv tracks₁.sound received
      have sos : ∀ so', (held libhb).sos so' =
          (held tab₁.lsd.libhb).sos so' := by
        intro so'
        rw [after, Holdings.setThr_sos]
      refine ⟨tracks₁.withLib laws sound (fun _ _ => sos _) (fun _ => sos _),
        ?_⟩
      intro below clocks now atNow isLub
      rw [← directed.libhb rfl, atThr] at atNow
      cases atNow
      rw [directed.libhb rfl, tracks.holds isBound] at atSO
      cases atSO
      refine ⟨_, ?_, isLUB_joinInto isLub (log cond)⟩
      change (held libhb).thrs thr = _
      rw [after, Holdings.setThr_thrs_self]
  | some direct =>
      obtain ⟨libhb₁, received, done⟩ := bind_eq_ok.mp done
      obtain ⟨libhb₂, freed, same⟩ := bind_eq_ok.mp done
      cases same
      obtain ⟨sound₁, others⟩ := laws.perform tracks₁.sound received
      obtain ⟨sound₂, -, after⟩ := laws.soDealloc sound₁ freed
      have kept : ∀ {so'}, so' ≠ direct →
          (held libhb₂).sos so' = (held tab₁.lsd.libhb).sos so' := by
        intro so' different
        rw [after, Holdings.setSO_sos_other _ different]
        exact others so' fun isIn => different (List.mem_singleton.mp isIn)
      refine ⟨tracks₁.withLib laws sound₂ ?_ ?_, ?_⟩
      · intro other i al so' isRecord isSo
        apply kept
        intro same
        exact directed.unrecorded rfl isRecord (same ▸ isSo)
      · intro other so' bound
        apply kept
        intro same
        exact directed.unbound rfl (same ▸ bound)
      · intro below
        cases directed.below below

private theorem getLoop_eq_ok {thr : Nat} {loop : WaitingLoop}
    (found : tab.getLoop thr = .ok loop) :
    tab.loops.lookup thr = some loop := by
  unfold getLoop at found
  split at found
  · rename_i bound
    cases found
    exact bound
  · cases found

theorem Tracks.lsdWaitPost (laws : lib.Laws inv held)
    (tracks : Tracks lib inv held tab log) {thr cond mutex : Nat}
    {takes : Bool}
    (done : tab.lsdCondWaitPost thr cond mutex = .ok (tab', takes)) :
    Tracks lib inv held tab' log ∧ tab'.lsd.libhb = tab.lsd.libhb ∧
      tab'.mapCondToSO = tab.mapCondToSO ∧ takes = !tab.inLoop thr := by
  obtain ⟨lsd, posted, done⟩ := bind_eq_ok.mp done
  obtain ⟨loop, found, done⟩ := bind_eq_ok.mp done
  have isLocal : (LsdOp.condWaitPost thr).isLocal = true := rfl
  have called : tab.lsd.perform lib.toLibHB (.condWaitPost thr) =
      .ok lsd := posted
  have tracks₁ := tracks.local laws isLocal called
  have libhb := (Lsd.perform_local isLocal called).1
  have isLoop : tab.inLoop thr = loop.inWaitingLoop := by
    have bound : tab.loops.lookup thr = some loop := getLoop_eq_ok found
    unfold inLoop
    rw [bound]
  rw [isLoop]
  split at done
  · rename_i waiting
    rw [waiting]
    split at done
    · obtain ⟨-, -, same⟩ := bind_eq_ok.mp done
      cases same
      exact ⟨tracks₁, libhb, rfl, rfl⟩
    · cases done
      exact ⟨tracks₁.setLoop thr _, libhb, rfl, rfl⟩
  · rename_i outside
    cases done
    exact ⟨tracks₁, libhb, rfl, by simp [outside]⟩

/-- The end of a wait, which takes the clocks over if it is told to. -/
theorem Tracks.finishWait (laws : lib.Laws inv held) {tab₂ : CondTab σ}
    (tracks₂ : Tracks lib inv held tab₂ log) {level thr cond so fresh : Nat}
    {takes : Bool} {noted errors : List HgError}
    (isBound : tab₂.mapCondToSO.lookup cond = some so)
    (thrs : (held tab₂.lsd.libhb).thrs = (held tab.lsd.libhb).thrs)
    (done : (if takes = true then do
        let tab ← tab₂.acquireSignal lib level thr cond so fresh
        pure (tab, noted)
      else pure (tab₂, noted) : Except Abort (CondTab σ × List HgError)) =
      .ok (tab', errors)) :
    Tracks lib inv held tab' log ∧ errors = noted ∧
      (level < 2 → Takes held tab tab' thr
        {c | takes = true ∧ c ∈ log cond}) := by
  split at done
  · rename_i taken
    obtain ⟨tab₃, acquired, same⟩ := bind_eq_ok.mp done
    cases same
    obtain ⟨tracks', takes'⟩ := tracks₂.acquire laws isBound acquired
    refine ⟨tracks', rfl, fun below => ?_⟩
    have isSet : {c | takes = true ∧ c ∈ log cond} = {c | c ∈ log cond} := by
      ext c
      simp [taken]
    intro clocks clock atThr isLub
    rw [isSet]
    exact takes' below clocks clock (thrs ▸ atThr) isLub
  · rename_i kept
    cases done
    refine ⟨tracks₂, rfl, fun _ => ?_⟩
    have isSet : {c | takes = true ∧ c ∈ log cond} = ∅ := by
      ext c
      simp [kept]
    rw [isSet]
    exact .none thrs

theorem Tracks.wait (laws : lib.Laws inv held)
    (tracks : Tracks lib inv held tab log) {level thr cond mutex : Nat}
    {annotating : Bool} {fresh : Nat × Nat} {errors : List HgError}
    (done : tab.doSignalWait lib level thr cond mutex annotating fresh =
      .ok (tab', errors)) :
    Tracks lib inv held tab' log ∧
      (errors = if (log cond).isEmpty = true ∧ annotating = false then
        [HgError.misc thr waitWithoutPost] else []) ∧
      (level < 2 → Takes held tab tab' thr
        {c | (annotating || !tab.inLoop thr) = true ∧ c ∈ log cond}) := by
  obtain ⟨⟨tab₁, so⟩, looked, done⟩ := bind_eq_ok.mp done
  obtain ⟨sent, tested, done⟩ := bind_eq_ok.mp done
  have found := tracks.lookupOrAlloc laws looked
  obtain ⟨contents, atSO, isSent⟩ :=
    laws.everSent found.tracks.sound tested
  rw [found.tracks.holds found.bound] at atSO
  cases atSO
  have unsent : sent = false ↔ (log cond).isEmpty = true := by
    rw [isSent, isSome_joinedAll, Bool.not_eq_false']
  have sameLoop : tab₁.inLoop thr = tab.inLoop thr := by
    unfold inLoop
    rw [found.loops]
  simp only [unsent] at done
  split at done
  · rename_i annotated
    obtain ⟨_, same, done⟩ := bind_eq_ok.mp done
    cases same
    obtain ⟨tracks', noted, takes⟩ :=
      found.tracks.finishWait laws found.bound found.thrs done
    rw [annotated, Bool.true_or]
    rw [annotated] at noted
    exact ⟨tracks', noted, takes⟩
  · rename_i unannotated
    obtain ⟨⟨tab₂, takes⟩, posted, done⟩ := bind_eq_ok.mp done
    obtain ⟨tracks₂, libhb, bound, isTaken⟩ :=
      found.tracks.lsdWaitPost laws posted
    have bound₂ : tab₂.mapCondToSO.lookup cond = some so := by
      rw [bound]
      exact found.bound
    have thrs₂ : (held tab₂.lsd.libhb).thrs =
        (held tab.lsd.libhb).thrs := by
      rw [libhb]
      exact found.thrs
    obtain ⟨tracks', noted, takes'⟩ :=
      tracks₂.finishWait laws bound₂ thrs₂ done
    rw [Bool.not_eq_true] at unannotated
    rw [unannotated, Bool.false_or, ← sameLoop, ← isTaken]
    rw [unannotated] at noted
    exact ⟨tracks', noted, takes'⟩

theorem Tracks.annotate (laws : lib.Laws inv held)
    {acc acc' : CondTab σ × List HgError}
    (tracks : Tracks lib inv held acc.1 log) {level thr : Nat}
    {addrs : Nat → Nat × Nat} {wait : Nat × Nat}
    (done : annotateWait lib level thr addrs acc wait = .ok acc') :
    Tracks lib inv held acc'.1 log ∧ acc'.2 = acc.2 ∧
      (level < 2 → Takes held acc.1 acc'.1 thr {c | c ∈ log wait.1}) := by
  unfold annotateWait at done
  split at done
  · obtain ⟨⟨tab, errors⟩, waited, same⟩ := bind_eq_ok.mp done
    cases same
    obtain ⟨tracks', silent, takes⟩ := tracks.wait laws waited
    have none : errors = [] := by
      rw [silent, if_neg (by simp)]
    have isSet : {c | (true || !acc.1.inLoop thr) = true ∧ c ∈ log wait.1} =
        {c | c ∈ log wait.1} := by
      ext c
      simp
    rw [isSet] at takes
    exact ⟨tracks', by rw [none, List.append_nil], takes⟩
  · rename_i unknown
    cases done
    refine ⟨tracks, rfl, fun _ => ?_⟩
    -- a variable that the detector does not know has had no signal
    have empty : log wait.1 = [] := by
      by_contra nonempty
      exact unknown (tracks.known nonempty)
    have isSet : {c | c ∈ log wait.1} = ∅ := by
      ext c
      simp [empty]
    rw [isSet]
    exact .none rfl

theorem Tracks.annotateAll (laws : lib.Laws inv held) {level thr : Nat}
    {addrs : Nat → Nat × Nat} {loop : WaitingLoop}
    {waits : List (Nat × Nat)} {acc acc' : CondTab σ × List HgError}
    (tracks : Tracks lib inv held acc.1 log)
    (done : waits.foldlM (annotateWaits lib level thr loop addrs) acc =
      .ok acc') :
    Tracks lib inv held acc'.1 log ∧ acc'.2 = acc.2 ∧
      (level < 2 → Takes held acc.1 acc'.1 thr
        {c | ∃ wait ∈ waits, c ∈ log wait.1}) := by
  induction waits generalizing acc with
  | nil =>
      cases done
      refine ⟨tracks, rfl, fun _ => ?_⟩
      have isSet : {c | ∃ wait ∈ ([] : List (Nat × Nat)),
          c ∈ log wait.1} = ∅ := by
        ext c
        simp
      rw [isSet]
      exact .none rfl
  | cons wait waits induction =>
      rw [List.foldlM_cons] at done
      obtain ⟨acc₁, annotated, done⟩ := bind_eq_ok.mp done
      obtain ⟨-, -, annotated⟩ := bind_eq_ok.mp annotated
      obtain ⟨tracks₁, errors₁, takes₁⟩ := tracks.annotate laws annotated
      obtain ⟨tracks', errors', takes'⟩ := induction tracks₁ done
      refine ⟨tracks', errors'.trans errors₁, fun below => ?_⟩
      have isSet : {c | ∃ wait' ∈ wait :: waits, c ∈ log wait'.1} =
          {c | c ∈ log wait.1} ∪ {c | ∃ wait' ∈ waits, c ∈ log wait'.1} := by
        ext c
        simp
      rw [isSet]
      exact (takes₁ below).trans (takes' below)

theorem Tracks.loopEnd (laws : lib.Laws inv held)
    (tracks : Tracks lib inv held tab log) {level thr : Nat}
    {addrs : Nat → Nat × Nat} {errors : List HgError}
    (done : tab.waitingLoopEnd lib level thr addrs = .ok (tab', errors)) :
    Tracks lib inv held tab' log ∧ errors = [] ∧
      ∃ loop, tab.loops.lookup thr = some loop ∧
        (level < 2 → Takes held tab tab' thr
          {c | ∃ cond ∈ loop.conds, c ∈ log cond}) := by
  obtain ⟨loop, found, done⟩ := bind_eq_ok.mp done
  have isLoop := getLoop_eq_ok found
  obtain ⟨acc, annotated, done⟩ := bind_eq_ok.mp done
  have start := tracks.setLoop thr { loop with inWaitingLoop := false }
  obtain ⟨tracks₁, silent₁, takes₁⟩ := start.annotateAll laws annotated
  dsimp only at done
  split at done
  · rename_i isIn
    obtain ⟨_, same, done⟩ := bind_eq_ok.mp done
    cases same
    obtain ⟨loop', -, same⟩ := bind_eq_ok.mp done
    cases same
    refine ⟨tracks₁.setLoop thr _, silent₁, loop, isLoop, fun below => ?_⟩
    -- the expected variable is one of the list
    have isSet : {c | ∃ cond ∈ loop.conds, c ∈ log cond} =
        {c | ∃ wait ∈ loop.cvlist, c ∈ log wait.1} := by
      obtain ⟨wait, isWait, isExpected⟩ := List.any_eq_true.mp isIn
      have isExpected : wait.1 = loop.expectCond := by simpa using isExpected
      ext c
      refine (loop.exists_conds (c ∈ log ·)).trans ?_
      constructor
      · intro holds
        cases holds with
        | inl isIn => exact ⟨wait, isWait, isExpected ▸ isIn⟩
        | inr isIn => exact isIn
      · intro isIn
        exact .inr isIn
    rw [isSet]
    exact takes₁ below
  · obtain ⟨acc', expected, done⟩ := bind_eq_ok.mp done
    obtain ⟨loop', -, same⟩ := bind_eq_ok.mp done
    cases same
    obtain ⟨tracks', silent', takes'⟩ := tracks₁.annotate laws expected
    refine ⟨tracks'.setLoop thr _, silent'.trans silent₁, loop, isLoop,
      fun below => ?_⟩
    have isSet : {c | ∃ cond ∈ loop.conds, c ∈ log cond} =
        {c | ∃ wait ∈ loop.cvlist, c ∈ log wait.1} ∪
          {c | c ∈ log loop.expectCond} := by
      ext c
      exact (loop.exists_conds (c ∈ log ·)).trans or_comm
    rw [isSet]
    exact (takes₁ below).trans (takes' below)

theorem Tracks.withLsd (laws : lib.Laws inv held)
    (tracks : Tracks lib inv held tab log) {op : LsdOp}
    {errors : List HgError} (isLocal : op.isLocal = true)
    (done : tab.withLsd (tab.lsd.perform lib.toLibHB op) =
      .ok (tab', errors)) : Tracks lib inv held tab' log := by
  obtain ⟨st, called, same⟩ := bind_eq_ok.mp done
  cases same
  exact tracks.local laws isLocal called

theorem Tracks.hb (laws : lib.Laws inv held)
    (tracks : Tracks lib inv held tab log) {op : HbOp} {libhb : σ}
    (apart : ∀ so ∈ op.sos, so ∉ tab.ownSOs)
    (done : lib.perform tab.lsd.libhb op = .ok libhb) :
    Tracks lib inv held (tab.withLib libhb) log := by
  obtain ⟨sound, kept⟩ := laws.perform tracks.sound done
  apply tracks.withLib laws sound
  · intro cond i al so isRecord isSo
    refine kept so fun named => apart so named ?_
    exact List.mem_append_right _ (Lsd.mem_recordedSOs isRecord isSo)
  · intro cond so bound
    refine kept so fun named => apart so named ?_
    apply List.mem_append_left
    exact List.mem_map.mpr ⟨_, AList.mem_lookup_iff.mp bound, rfl⟩

theorem Tracks.perform (laws : lib.Laws inv held)
    (tracks : Tracks lib inv held tab log) {level : Nat} {op : CondOp}
    {errors : List HgError}
    (done : tab.perform lib level op = .ok (tab', errors)) :
    Tracks lib inv held tab' (noteSignals lib tab log op) := by
  cases op with
  | hb op =>
      simp only [CondTab.perform] at done
      split at done
      · cases done
      · rename_i unnamed
        obtain ⟨libhb, performed, same⟩ := bind_eq_ok.mp done
        cases same
        refine tracks.hb laws (fun so named isOwn => unnamed ?_) performed
        rw [List.any_eq_true]
        exact ⟨so, named, decide_eq_true isOwn⟩
  | create parent child =>
      obtain ⟨libhb, performed, same⟩ := bind_eq_ok.mp done
      cases same
      have tracks₁ := tracks.hb laws
        (fun so named => absurd named List.not_mem_nil) performed
      exact (tracks₁.setThr ⟨rfl, rfl⟩ child).setLoop child .new
  | lock event =>
      obtain ⟨⟨locks, reports⟩, handled, same⟩ := bind_eq_ok.mp done
      cases same
      exact tracks.of_lsd_eq rfl rfl
  | mutexLock thr =>
      exact @Tracks.withLsd _ _ _ _ _ _ _ _ _ _ laws tracks (.mutexLock thr)
        _ rfl done
  | mutexUnlock thr =>
      exact @Tracks.withLsd _ _ _ _ _ _ _ _ _ _ laws tracks
        (.mutexUnlock thr) _ rfl done
  | recWrite thr a ignored =>
      exact @Tracks.withLsd _ _ _ _ _ _ _ _ _ _ laws tracks
        (.recWrite thr a ignored) _ rfl done
  | recRead thr a ignored =>
      exact @Tracks.withLsd _ _ _ _ _ _ _ _ _ _ laws tracks
        (.recRead thr a ignored) _ rfl done
  | signalPre thr cond fresh extracted =>
      obtain ⟨tab₁, signalled, same⟩ := bind_eq_ok.mp done
      cases same
      exact tracks.signal laws signalled
  | waitPre thr cond mutex =>
      obtain ⟨⟨tab₁, reports, valid⟩, waits, same⟩ := bind_eq_ok.mp done
      cases same
      obtain ⟨complaint, -, waits⟩ := bind_eq_ok.mp waits
      obtain ⟨lsd, called, same⟩ := bind_eq_ok.mp waits
      cases same
      have isLocal : (LsdOp.condWaitPre thr).isLocal = true := rfl
      exact tracks.local laws isLocal called
  | waitPost thr cond mutex fresh => exact (tracks.wait laws done).1
  | waitTimeout thr cond mutex fresh =>
      obtain ⟨tab₁, timedOut, same⟩ := bind_eq_ok.mp done
      cases same
      obtain ⟨⟨tab₂, so⟩, looked, timedOut⟩ := bind_eq_ok.mp timedOut
      obtain ⟨lsd, posted, same⟩ := bind_eq_ok.mp timedOut
      cases same
      have isLocal : (LsdOp.condWaitPost thr).isLocal = true := rfl
      exact (tracks.lookupOrAlloc laws looked).tracks.local laws isLocal posted
  | destroyPre thr cond =>
      obtain ⟨tab₁, deleted, same⟩ := bind_eq_ok.mp done
      cases same
      exact tracks.destroy laws deleted
  | waitingLoop thr cond mutex =>
      obtain ⟨tab₁, entered, same⟩ := bind_eq_ok.mp done
      cases same
      obtain ⟨loop, -, same⟩ := bind_eq_ok.mp entered
      cases same
      exact tracks.setLoop thr _
  | waitingLoopBegin thr =>
      obtain ⟨tab₁, begun, same⟩ := bind_eq_ok.mp done
      cases same
      obtain ⟨me, found, begun⟩ := bind_eq_ok.mp begun
      obtain ⟨loop, -, same⟩ := bind_eq_ok.mp begun
      cases same
      obtain ⟨signals, follows⟩ := tracks.follows
      have idle := follows.idle thr me (Lsd.getThr_eq_ok found)
      have still : ({ me with recordReads := false } : ThrLSD).writes.iterating =
          false ∧ me.reads.iterating = false := idle
      exact (tracks.setThr still thr).setLoop thr _
  | waitingLoopEnd thr addrs => exact (tracks.loopEnd laws done).1

theorem Tracks.init (laws : lib.Laws inv held) {root : Nat} {locks : LockTab}
    (started : CondTab.init lib root locks = .ok tab) :
    Tracks lib inv held tab (fun _ => []) := by
  obtain ⟨libhb, made, same⟩ := bind_eq_ok.mp started
  cases same
  have sound := (laws.init made).1
  have fresh : Lsd.Follows lib.toLibHB inv ⟨libhb, ∅, ∅⟩ [] := .init sound
  refine ⟨⟨[], fresh.setThr ⟨rfl, rfl⟩ root⟩, ?_, ?_, ?_, ?_, ?_⟩
  · intro cond so bound
    cases bound
  · intro cond unbound
    rfl
  · intro cond other so bound
    cases bound
  · intro cond so other i al bound
    cases bound
  · intro cond nonempty
    exact absurd rfl nonempty

theorem run_tracks (laws : lib.Laws inv held) {level root : Nat}
    {locks : LockTab} {ops : List CondOp}
    (ran : run lib level root locks ops = .ok (tab, log)) :
    Tracks lib inv held tab log := by
  obtain ⟨start, started, ran⟩ := bind_eq_ok.mp ran
  refine @foldlM_eq_ok_invariant _ _ _ _
    (fun _ (acc : CondTab σ × (Nat → List κ)) =>
      Tracks lib inv held acc.1 acc.2) _ _ _ ?_ (Tracks.init laws started) ran
  intro n acc acc' op atN tracks done
  obtain ⟨⟨after, errors⟩, performed, same⟩ := bind_eq_ok.mp done
  cases same
  exact tracks.perform laws performed

end Steps

end CondTab

theorem Hb.condLaws :
    Hb.condLib.Laws (fun hb => ∃ abs, hb.Refines 0 abs) Hb.held where
  toLaws := Hb.laws
  everSent := by
    intro hb so sent sound done
    obtain ⟨abs, refines⟩ := sound
    change hb.soEverSent so = .ok sent at done
    rw [refines.held_eq]
    unfold Hb.soEverSent at done
    cases atSO : abs.sos so with
    | none =>
        rw [refines.sos.of_none atSO] at done
        cases done
    | some contents =>
        obtain ⟨record, bound, denotes⟩ := refines.sos.of_some atSO
        rw [bound] at done
        obtain ⟨-, -, same⟩ := bind_eq_ok.mp done
        cases same
        cases denotes with
        | empty => exact ⟨none, atSO, rfl⟩
        | holds denotes => exact ⟨_, atSO, rfl⟩

theorem UkaHb.condLaws :
    UkaHb.condLib.Laws (fun hb => ∃ abs, hb.Refines 0 abs) UkaHb.held where
  toLaws := UkaHb.laws
  everSent := by
    intro hb so sent sound done
    obtain ⟨abs, refines⟩ := sound
    change hb.soEverSent so = .ok sent at done
    rw [refines.held_eq]
    unfold UkaHb.soEverSent at done
    cases atSO : abs.sos so with
    | none =>
        rw [refines.sos.of_none atSO] at done
        cases done
    | some contents =>
        obtain ⟨record, bound, denotes⟩ := refines.sos.of_some atSO
        rw [bound] at done
        cases done
        cases denotes with
        | empty => exact ⟨none, atSO, rfl⟩
        | holds known => exact ⟨_, atSO, rfl⟩

namespace Build

theorem condLaws (build : Build) : ∃ inv held,
    build.condLib.Laws inv held := by
  cases build with
  | default => exact ⟨_, _, HelgrindPlus.Hb.condLaws⟩
  | ukas | ukal => exact ⟨_, _, UkaHb.condLaws⟩

end Build

namespace CondTab

variable {build : Build} {level root thr cond so : Nat} {locks : LockTab}
  {ops : List CondOp} {tab tab' : CondTab build.Hb}
  {log : Nat → List build.Clock} {errors : List HgError}

/-- The object of a condition variable holds exactly the signals on it. -/
theorem cond_so_holds_signals
    (ran : run build.condLib level root locks ops = .ok (tab, log))
    (bound : tab.mapCondToSO.lookup cond = some so) :
    (build.condLib.soClock tab.lsd.libhb so = none ↔ log cond = []) ∧
    ∀ clock, build.condLib.soClock tab.lsd.libhb so = some clock →
      IsLUB {c | c ∈ log cond} clock := by
  obtain ⟨inv, held, laws⟩ := build.condLaws
  have tracks := run_tracks laws ran
  rw [laws.soClock tracks.sound, tracks.holds bound]
  change (joinedAll (log cond) = none ↔ _) ∧
    ∀ clock, joinedAll (log cond) = some clock → _
  obtain ⟨none, empty⟩ | ⟨joined, nonempty, holds, isLub⟩ :=
    joinedAll_spec (log cond)
  · rw [empty]
    exact ⟨iff_of_true rfl none, fun clock impossible => by cases impossible⟩
  · rw [holds]
    refine ⟨iff_of_false (Option.some_ne_none joined) nonempty, ?_⟩
    intro clock same
    cases same
    exact isLub

/-- Thread 1 signals while thread 2 is in a waiting loop, which thus need not
wait at all. -/
def lostSignal : List CondOp :=
  [.create 1 2, .waitingLoop 2 9 5, .waitingLoopBegin 2, .signalPre 1 9 50 60]

theorem cond_so_holds_signals_lost :
    ∃ (tab : CondTab Build.ukas.Hb) (log : Nat → List Build.ukas.Clock),
      run Build.ukas.condLib 2 1 ⟨∅, ∅, ∅⟩ lostSignal = .ok (tab, log) ∧
      tab.mapCondToSO.lookup 9 = some 50 ∧ (log 9).length = 1 ∧
      (Build.ukas.condLib.soClock tab.lsd.libhb 50 = none ↔ log 9 = []) ∧
      ∀ clock, Build.ukas.condLib.soClock tab.lsd.libhb 50 = some clock →
        IsLUB {c | c ∈ log 9} clock := by
  have seen : (run UkaHb.condLib 2 1 ⟨∅, ∅, ∅⟩ lostSignal).toOption.map
      (fun out => (out.1.mapCondToSO.lookup 9, (out.2 9).length)) =
      some (some 50, 1) := by
    decide +kernel
  obtain ⟨⟨tab, log⟩, ran, view⟩ := exists_ok_of_map seen
  obtain ⟨bound, once⟩ := Prod.mk.inj view
  exact ⟨tab, log, ran, bound, once,
    cond_so_holds_signals ran bound⟩

/-- The thread that an event may give more clocks, and the condition variables
whose signals these are. -/
def takenFrom (tab : CondTab build.Hb) : CondOp → Option (Nat × List Nat)
  | .waitPost thr cond _ _ =>
      some (thr, if tab.inLoop thr then [] else [cond])
  | .waitingLoopEnd thr _ =>
      (tab.loops.lookup thr).map fun loop => (thr, loop.conds)
  | _ => none

/-- A wait or the end of a waiting loop takes over exactly the signals on the
condition variables. -/
theorem waits_take_signals {op : CondOp} {conds : List Nat}
    {before : build.Clock} (below : level < 2)
    (ran : run build.condLib level root locks ops = .ok (tab, log))
    (waits : tab.takenFrom op = some (thr, conds))
    (isClock : build.condLib.thrClock tab.lsd.libhb thr = some before)
    (done : tab.perform build.condLib level op = .ok (tab', errors)) :
    ∃ after, build.condLib.thrClock tab'.lsd.libhb thr = some after ∧
      IsLUB (insert before {c | ∃ cond ∈ conds, c ∈ log cond}) after := by
  obtain ⟨inv, held, laws⟩ := build.condLaws
  have tracks := run_tracks laws ran
  have tracks' := tracks.perform laws done
  rw [laws.thrClock tracks.sound] at isClock
  rw [laws.thrClock tracks'.sound, ← Set.singleton_union]
  have takes : Takes held tab tab' thr {c | ∃ cond ∈ conds, c ∈ log cond} := by
    cases op with
    | waitPost thr' cond mutex fresh =>
        cases waits
        have takes := (tracks.wait laws done).2.2 below
        have isSet : {c | ∃ cond' ∈ if tab.inLoop thr then [] else [cond],
            c ∈ log cond'} =
            {c | (false || !tab.inLoop thr) = true ∧ c ∈ log cond} := by
          ext c
          cases tab.inLoop thr with
          | true => simp
          | false => simp
        rw [isSet]
        exact takes
    | waitingLoopEnd thr' addrs =>
        obtain ⟨-, -, loop, isLoop, takes⟩ := tracks.loopEnd laws done
        simp only [takenFrom, isLoop, Option.map_some, Option.some.injEq,
          Prod.mk.injEq] at waits
        obtain ⟨sameThr, sameConds⟩ := waits
        rw [← sameThr, ← sameConds]
        exact takes below
    | _ => cases waits
  exact takes {before} before isClock isLUB_singleton

/-- The signal is not lost. -/
theorem waits_take_signals_lost :
    ∃ (tab tab' : CondTab Build.ukal.Hb) (log : Nat → List Build.ukal.Clock)
      (errors : List HgError) (before : Build.ukal.Clock),
      run Build.ukal.condLib 1 1 ⟨∅, ∅, ∅⟩ lostSignal = .ok (tab, log) ∧
      (log 9).length = 1 ∧
      tab.perform Build.ukal.condLib 1
        (.waitingLoopEnd 2 fun _ => (70, 80)) = .ok (tab', errors) ∧
      ∃ after, Build.ukal.condLib.thrClock tab'.lsd.libhb 2 = some after ∧
        IsLUB (insert before {c | ∃ cond ∈ [9], c ∈ log cond}) after := by
  have seen : (run UkaHb.condLib 1 1 ⟨∅, ∅, ∅⟩ lostSignal).toOption.map
      (fun out => ((out.1.loops.lookup 2).map (·.conds),
        (out.1.lsd.libhb.thrClock 2).isSome, (out.2 9).length,
        (out.1.perform UkaHb.condLib 1
          (.waitingLoopEnd 2 fun _ => (70, 80))).toOption.isSome)) =
      some (some [9], true, 1, true) := by
    decide +kernel
  obtain ⟨⟨tab, log⟩, ran, view⟩ := exists_ok_of_map seen
  obtain ⟨isLoop, view⟩ := Prod.mk.inj view
  obtain ⟨known, view⟩ := Prod.mk.inj view
  obtain ⟨once, ends⟩ := Prod.mk.inj view
  obtain ⟨before, isClock⟩ := Option.isSome_iff_exists.mp known
  obtain ⟨loop, bound, conds⟩ := Option.map_eq_some_iff.mp isLoop
  have waits : @takenFrom .ukal tab
      (.waitingLoopEnd 2 fun _ => (70, 80)) = some (2, [9]) := by
    simp only [takenFrom]
    rw [bound, Option.map_some, conds]
  cases ended : tab.perform UkaHb.condLib 1
      (.waitingLoopEnd 2 fun _ => (70, 80)) with
  | error abort =>
      dsimp only at ends
      rw [ended] at ends
      cases ends
  | ok out =>
      have below : 1 < 2 := Nat.one_lt_two
      exact ⟨tab, out.1, log, out.2, before, ran, once, ended,
        waits_take_signals below ran waits isClock ended⟩

/-- A wait is complained about if and only if there was no signal, in a waiting
loop or not. -/
theorem wait_complains_iff_unsignalled {mutex : Nat} {fresh : Nat × Nat}
    (ran : run build.condLib level root locks ops = .ok (tab, log))
    (done : tab.perform build.condLib level (.waitPost thr cond mutex fresh) =
      .ok (tab', errors)) :
    errors = if (log cond).isEmpty then [.misc thr waitWithoutPost] else [] := by
  obtain ⟨inv, held, laws⟩ := build.condLaws
  have complains := ((run_tracks laws ran).wait laws done).2.1
  rw [complains]
  simp

/-- Thread 2 comes back from a wait that nobody has ended. -/
theorem wait_complains_iff_unsignalled_spurious :
    ∃ (tab tab' : CondTab Build.default.Hb)
      (log : Nat → List Build.default.Clock) (errors : List HgError),
      run Build.default.condLib 0 1 ⟨∅, ∅, ∅⟩
        [.create 1 2, .waitPre 2 9 5] = .ok (tab, log) ∧
      tab.perform Build.default.condLib 0 (.waitPost 2 9 5 (70, 80)) =
        .ok (tab', errors) ∧
      errors = if (log 9).isEmpty then [.misc 2 waitWithoutPost] else [] := by
  have seen : (run Hb.condLib 0 1 ⟨∅, ∅, ∅⟩
      [.create 1 2, .waitPre 2 9 5]).toOption.map
      (fun out => (out.1.perform Hb.condLib 0
        (.waitPost 2 9 5 (70, 80))).toOption.isSome) = some true := by
    decide +kernel
  obtain ⟨⟨tab, log⟩, ran, ends⟩ := exists_ok_of_map seen
  cases ended : tab.perform Hb.condLib 0 (.waitPost 2 9 5 (70, 80)) with
  | error abort =>
      dsimp only at ends
      rw [ended] at ends
      cases ends
  | ok out =>
      exact ⟨tab, out.1, log, out.2, ran, ended,
        wait_complains_iff_unsignalled ran ended⟩

end CondTab

end HelgrindPlus
