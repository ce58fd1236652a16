import HelgrindPlus.Msm.UkalMachine

/-!
# The clocks in the shadow values of the long hybrid machine

As long as no access enters `ShM`, each clock that is taken from a shadow value
is the one the value was built from, and the table counts the references from
threads, objects and stored values.  `SVal__mk_ShM` drops the clock that it is
given; an id that is not in the value is then counted in its place.
-/

namespace HelgrindPlus.Ukal

open Outcome VtsTab

/-- Notes that are truthful so far, and of values that tell their clock. -/
structure Honest (notes : List Note) : Prop where
  truthful : Truthful notes
  tells : ∀ sv vtsid, .made sv vtsid ∈ notes → sv.getVTS = some vtsid

theorem Truthful.concat {notes : List Note} {note : Note}
    (truthful : Truthful notes)
    (last : ∀ sv vtsid inUse, note = .taken sv vtsid inUse →
      inUse = true ∧ .made sv vtsid ∈ notes ∧
        ∀ other, .made sv other ∈ notes → other = vtsid) :
    Truthful (notes ++ [note]) := by
  intro before sv vtsid inUse rest split
  rcases List.eq_nil_or_concat' rest with none | ⟨rest', final, more⟩
  · rw [none] at split
    obtain ⟨same, taken⟩ := List.append_inj' split rfl
    rw [← same]
    exact last sv vtsid inUse (List.singleton_inj.mp taken)
  · rw [more, ← List.cons_append, ← List.append_assoc] at split
    obtain ⟨same, -⟩ := List.append_inj' split rfl
    exact truthful before sv vtsid inUse rest' same

namespace Honest

variable {notes : List Note} {sv : SVal Nat} {vtsid : Nat}

theorem nil : Honest [] := by
  refine ⟨?_, ?_⟩
  · intro before sv vtsid inUse rest split
    simp at split
  · intro sv vtsid member
    cases member

theorem made (honest : Honest notes) (tells : sv.getVTS = some vtsid) :
    Honest (notes ++ [.made sv vtsid]) := by
  refine ⟨honest.truthful.concat nofun, ?_⟩
  intro sv' vtsid' member
  rcases List.mem_append.mp member with old | new
  · exact honest.tells sv' vtsid' old
  · cases List.mem_singleton.mp new
    exact tells

theorem taken (honest : Honest notes) (built : .made sv vtsid ∈ notes) :
    Honest (notes ++ [.taken sv vtsid true]) := by
  refine ⟨honest.truthful.concat ?_, ?_⟩
  · rintro sv vtsid inUse ⟨⟩
    refine ⟨rfl, built, ?_⟩
    intro other again
    have first := honest.tells sv vtsid built
    rw [honest.tells sv other again] at first
    exact Option.some.inj first
  · intro sv' vtsid' member
    rcases List.mem_append.mp member with old | new
    · exact honest.tells sv' vtsid' old
    · cases List.mem_singleton.mp new

end Honest

namespace SVal

def isShM {V : Type} : SVal V → Bool
  | ShM _ => true
  | _ => false

private theorem refs_eq_zero {sv : SVal Nat} (none : sv.getVTS = .none) :
    sv.refs = 0 := by
  cases sv <;> first | rfl | cases none

theorem refs_eq_singleton {sv : SVal Nat} {vtsid : Nat}
    (holds : sv.getVTS = some vtsid) (kept : sv.isShM = false) :
    sv.refs = {vtsid} := by
  cases sv with
  | ShM lset => cases kept
  | _ => cases holds <;> rfl

end SVal

/-- A value that was built from the clock it tells. -/
structure Made (notes : List Note) (sv : SVal Nat) : Prop where
  kept : sv.isShM = false
  built : ∀ vtsid, sv.getVTS = some vtsid → .made sv vtsid ∈ notes

theorem Made.mono {notes more : List Note} {sv : SVal Nat}
    (made : Made notes sv) (subset : notes ⊆ more) : Made more sv :=
  ⟨made.kept, fun vtsid tells => subset (made.built vtsid tells)⟩

theorem svalRefs_cons (sv : SVal Nat) (vals : Multiset (SVal Nat)) :
    svalRefs (sv ::ₘ vals) = sv.refs + svalRefs vals := by
  simp [svalRefs]

theorem svalRefs_add_noAccess (vals : Multiset (SVal Nat)) (n : Nat) :
    svalRefs (vals + Multiset.replicate n noAccess) = svalRefs vals := by
  have none : SVal.refs noAccess = 0 := rfl
  simp [svalRefs, none]

/-- A value that a location may have. -/
structure Known (abs : AbsUka) (core : Core) (sv : SVal Nat) : Prop
    extends Made core.notes sv where
  valid : sv ≠ .Invalid
  inUse : ∀ vtsid, sv.getVTS = some vtsid →
    ∃ vts, core.hb.tab.clock vtsid = some vts ∧ abs.Mentions vts

/-- A value without a clock. -/
theorem Known.of_none {abs : AbsUka} {core : Core} {sv : SVal Nat}
    (none : sv.getVTS = .none) (valid : sv ≠ .Invalid) :
    Known abs core sv where
  kept := by
    cases sv <;> first | rfl | cases none
  built vtsid tells := by
    rw [none] at tells
    cases tells
  valid := valid
  inUse vtsid tells := by
    rw [none] at tells
    cases tells

theorem Known.mono {abs abs' : AbsUka} {core core' : Core} {sv : SVal Nat}
    (known : Known abs core sv) (notes : core.notes ⊆ core'.notes)
    (grown : Extends core.hb.tab core'.hb.tab)
    (threads : ∀ idx, abs'.thrs idx = none → abs.thrs idx = none) :
    Known abs' core' sv where
  toMade := known.toMade.mono notes
  valid := known.valid
  inUse vtsid tells := by
    obtain ⟨vts, clock, mentions⟩ := known.inUse vtsid tells
    exact ⟨vts, grown _ _ clock, mentions.mono threads⟩

namespace Core

variable {start core : Core} {abs : AbsUka}
  {held vals vals' : Multiset (SVal Nat)} {sv : SVal Nat}
  {events : List (RcEvent (SVal Nat))}

/-- The state in the middle of a sequence of calls of `rcinc` and `rcdec`. -/
structure Counting (start : Core) (abs : AbsUka)
    (held : Multiset (SVal Nat)) (core : Core) : Prop where
  hb : core.hb.Refines (svalRefs held) abs
  tab : SameButCounts start.hb.tab core.hb.tab
  notes : start.notes ⊆ core.notes
  stored : ∀ sv ∈ held, Made core.notes sv
  honest : Honest core.notes

/-- A clock is taken from a value and counted. -/
theorem Counting.takes (counting : Counting start abs held core)
    {tab : VtsTab} {vtsid : Nat} {vts : VTS}
    (counted : tab.Counted (core.hb.refs + svalRefs vals))
    (same : SameButCounts core.hb.tab tab)
    (inUse : core.hb.tab.clock vtsid = some vts)
    (built : .made sv vtsid ∈ core.notes)
    (stored : ∀ sv ∈ vals, Made core.notes sv) :
    Counting start abs vals ((core.takes sv vtsid).withTab tab) where
  hb := counting.hb.withTab counted (Extends.of_clock_eq same.clock)
  tab := counting.tab.trans same
  notes := List.Subset.trans counting.notes (List.subset_append_left _ _)
  stored other member := (stored other member).mono
    (List.subset_append_left _ _)
  honest := by
    have found := counting.honest.taken built
    unfold Core.withTab Core.takes Core.note
    rw [inUse]
    exact found

theorem Counting.inc (counting : Counting start abs held core)
    (known : Known abs start sv) :
    Returns (core.rcSVal (.inc sv)) (Counting start abs (sv ::ₘ held)) := by
  have made := known.toMade.mono counting.notes
  have stored : ∀ other ∈ sv ::ₘ held, Made core.notes other := by
    intro other member
    rcases Multiset.mem_cons.mp member with rfl | old
    · exact made
    · exact counting.stored other old
  unfold rcSVal
  dsimp only
  split
  · rename_i none
    apply Returns.ok
    refine ⟨?_, counting.tab, counting.notes, stored, counting.honest⟩
    rw [svalRefs_cons, SVal.refs_eq_zero none, zero_add]
    exact counting.hb
  · rename_i vtsid tells
    obtain ⟨vts, inUse, -⟩ := known.inUse vtsid tells
    rw [← counting.tab.clock] at inUse
    apply (rcinc_counts counting.hb.counted inUse).bind
    rintro tab ⟨counted, same⟩
    apply Returns.pure
    apply counting.takes _ same inUse (made.built vtsid tells) stored
    rw [svalRefs_cons, SVal.refs_eq_singleton tells known.kept,
      Multiset.singleton_add, Multiset.add_cons]
    exact counted

theorem Counting.dec (counting : Counting start abs (sv ::ₘ held) core) :
    Returns (core.rcSVal (.dec sv)) (Counting start abs held) := by
  have made := counting.stored sv (Multiset.mem_cons_self sv held)
  have stored : ∀ other ∈ held, Made core.notes other :=
    fun other member => counting.stored other (Multiset.mem_cons_of_mem member)
  unfold rcSVal
  dsimp only
  split
  · rename_i none
    apply Returns.ok
    refine ⟨?_, counting.tab, counting.notes, stored, counting.honest⟩
    have hb := counting.hb
    rw [svalRefs_cons, SVal.refs_eq_zero none, zero_add] at hb
    exact hb
  · rename_i vtsid tells
    have counted := counting.hb.counted
    rw [svalRefs_cons, SVal.refs_eq_singleton tells made.kept,
      Multiset.singleton_add, Multiset.add_cons] at counted
    obtain ⟨vts, inUse⟩ := counted.held vtsid (Multiset.mem_cons_self _ _)
    apply (rcdec_counts counted).bind
    rintro tab ⟨counted', same⟩
    apply Returns.pure
    exact counting.takes counted' same inUse (made.built vtsid tells) stored

/-- The calls that an operation on shadow memory makes. -/
theorem replay_returns (refines : core.hb.Refines (svalRefs vals) abs)
    (stored : ∀ sv ∈ vals, Made core.notes sv) (honest : Honest core.notes)
    (ledger : RcEvent.Ledger noAccess vals events vals')
    (known : ∀ sv, .inc sv ∈ events → Known abs core sv) :
    Returns (events.foldlM rcSVal core) (Counting core abs vals') := by
  obtain ⟨n, replays⟩ := ledger
  have initially : Counting core abs
      (vals + Multiset.replicate n noAccess) core := by
    refine ⟨?_, .refl _, fun _ member => member, ?_, honest⟩
    · rwa [svalRefs_add_noAccess]
    · intro sv member
      rcases Multiset.mem_add.mp member with old | unused
      · exact stored sv old
      · cases Multiset.eq_of_mem_replicate unused
        exact (@Known.of_none abs core .NoAccess rfl nofun).toMade
  exact RcEvent.Replays.foldlM_returns
    (fun _ _ _ allowed counting => Counting.inc counting allowed)
    (fun _ _ _ counting => Counting.dec counting) replays known initially

end Core

/-- The clock in a value. -/
def SVal.vts {V : Type} : SVal V → Option V
  | .SpinVar vts | .ShM2 vts _ | .ShR vts _ | .ExclRW vts | .ExclR vts
  | .ExclW vts => some vts
  | .ShM _ | .Race | .New | .NoAccess | .Invalid => none

/-- A read in a spin loop, over timestamps. -/
def absSpinRead (sv : SVal VTS) (clock : VTS) : MsmOut VTS (SVal VTS) :=
  match sv.vts with
  | some vts => ⟨some (clock.join vts), .SpinVar vts, false⟩
  | none => .stay (.SpinVar clock)

/-- The machine over timestamps, in spin loops as well. -/
def absMsm (sv : SVal VTS) (clock : VTS) (acc : Access) :
    MsmOut VTS (SVal VTS) :=
  if acc.isWrite then absWrite sv clock acc
  else if acc.spinReading then absSpinRead sv clock
  else absRead sv clock acc

section Call

variable {tab : VtsTab} {sv : SVal Nat} {abs : SVal VTS}
  {refs : Multiset Nat} {tvid : Nat} {clock : VTS} {acc : Access}

theorem SVDenotes.isShM (denotes : SVDenotes tab sv abs) :
    sv.isShM = abs.isShM := by
  cases denotes <;> rfl

/-- A value that is not `ShM` tells the clock that it denotes. -/
theorem SVDenotes.getVTS (denotes : SVDenotes tab sv abs)
    (kept : sv.isShM = false) :
    Option.Rel (fun ii vts => tab.clock ii = some vts) sv.getVTS abs.vts := by
  cases denotes with
  | SpinVar known | ShM2 known | ShR known | ExclRW known | ExclR known
  | ExclW known => exact .some known
  | ShM => cases kept
  | Race | New | NoAccess => exact .none

theorem msm_returns (counted : tab.Counted (tvid ::ₘ refs))
    (mine : tab.clock tvid = some clock) (value : SVDenotes tab sv abs)
    (kept : sv.isShM = false) :
    Returns (machine.msm tab sv tvid acc) (fun result =>
      VtsTab.HybridResult SVDenotes tab tvid refs result
        (absMsm abs clock acc)) := by
  unfold HybridMachine.msm absMsm machine
  dsimp only
  split
  · exact msmWrite_returns acc counted mine value
  split
  · rename_i spinning
    unfold msmRead absSpinRead
    rw [if_pos spinning]
    have tells := value.getVTS kept
    generalize sv.getVTS = found at tells
    generalize abs.vts = expected at tells
    cases tells with
    | none =>
        exact Returns.ok (.still _ counted (.refl tab) (.SpinVar mine))
    | some known =>
        apply (VtsTab.spinJoin_returns counted mine known).bind
        intro ⟨tab₁, vid⟩ moves
        exact Returns.pure (.moving moves (.SpinVar (moves.2.1 _ _ known)))
  · rename_i notSpinning
    exact msmRead_returns acc (Bool.eq_false_iff.mpr notSpinning) counted
      mine value

/-- What a call does to the clocks, unless it enters `ShM`. -/
structure ClockStep (abs : SVal VTS) (clock : VTS) (acc : Access)
    (out : MsmOut VTS (SVal VTS)) : Prop where
  later : clock ≤ out.vid.getD clock
  joined : ∀ vts, abs = .SpinVar vts → acc.isWrite = false →
    vts ≤ out.vid.getD clock
  thread : ∀ idx, idx ≠ acc.thr → clock.indexAt idx = 0 →
    (∀ vts, abs.vts = some vts → vts.indexAt idx = 0) →
    (out.vid.getD clock).indexAt idx = 0
  value : ∀ vts, out.svNew.vts = some vts → vts = clock ∨ abs.vts = some vts

theorem ClockStep.still {svNew : SVal VTS} {raced : Bool}
    (notRead : ∀ vts, abs = .SpinVar vts → acc.isWrite = true)
    (value : ∀ vts, svNew.vts = some vts →
      vts = clock ∨ abs.vts = some vts) :
    ClockStep abs clock acc ⟨none, svNew, raced⟩ where
  later := le_refl clock
  joined vts same isRead := by
    rw [notRead vts same] at isRead
    cases isRead
  thread idx _ mine _ := mine
  value := value

private theorem absSpinRead_clockStep :
    ClockStep abs clock acc (absSpinRead abs clock) := by
  unfold absSpinRead
  split
  · rename_i vts holds
    refine ⟨VTS.le_join_left _ _, ?_, ?_, ?_⟩
    · intro vts' same isRead
      rw [same] at holds
      cases holds
      exact VTS.le_join_right _ _
    · intro idx other mine known
      simp [known vts holds, mine]
    · intro vts' same
      cases same
      exact .inr holds
  · rename_i none
    apply ClockStep.still
    · intro vts same
      rw [same] at none
      cases none
    · intro vts same
      cases same
      exact .inl rfl

theorem absRead_clockStep :
    ClockStep abs clock acc (absRead abs clock acc) := by
  unfold absRead
  split
  · rename_i skipped
    apply ClockStep.still _ fun vts same => .inr same
    rintro vts rfl
    simp [SVal.isSpinVar] at skipped
  cases abs with
  | SpinVar vts =>
      refine ⟨VTS.le_join_left _ _, ?_, ?_, ?_⟩
      · rintro vts' ⟨⟩ isRead
        exact VTS.le_join_right _ _
      · intro idx other mine known
        simp [known vts rfl, mine]
      · exact fun vts' same => .inr same
  | _ =>
      dsimp only
      repeat' split
      all_goals
        refine ClockStep.still nofun fun vts same => ?_
        cases same <;> first | exact .inl rfl | exact .inr rfl

theorem absWrite_clockStep (isWrite : acc.isWrite = true) :
    ClockStep abs clock acc (absWrite abs clock acc) := by
  unfold absWrite
  split
  · exact ClockStep.still (fun _ _ => isWrite) fun vts same => .inr same
  cases abs with
  | SpinVar vts =>
      refine ⟨VTS.le_tick _ _, ?_, ?_, ?_⟩
      · intro vts' same isRead
        rw [isWrite] at isRead
        cases isRead
      · intro idx other mine known
        simp [VTS.indexAt_tick, mine, other]
      · rintro vts' ⟨⟩
        exact .inl rfl
  | _ =>
      dsimp only
      repeat' split
      all_goals
        refine ClockStep.still (fun _ _ => isWrite) fun vts same => ?_
        cases same <;> first | exact .inl rfl | exact .inr rfl

theorem absMsm_clockStep : ClockStep abs clock acc (absMsm abs clock acc) := by
  unfold absMsm
  split
  · rename_i isWrite
    exact absWrite_clockStep isWrite
  split
  · exact absSpinRead_clockStep
  · exact absRead_clockStep

private theorem absWrite_isShM (isWrite : acc.isWrite = true)
    (value : SVDenotes tab sv abs) (kept : sv.isShM = false)
    (keeps : ¬ EntersShM tab sv clock acc) :
    (absWrite abs clock acc).svNew.isShM = false := by
  rw [value.isShM] at kept
  unfold absWrite
  split
  · exact kept
  rename_i taken
  cases value with
  | @ExclW ii vts known | @ExclR ii vts known =>
      dsimp only
      split
      · rfl
      rename_i unordered
      split
      · rfl
      rename_i locked
      refine (keeps ⟨?_, .inl isWrite, ⟨vts, known, unordered⟩, ?_⟩).elim
      · simpa [SVal.isSpinVar] using taken
      · simp [Access.getLockSet, isWrite, locked]
  | @ShR ii vts lset known =>
      dsimp only
      split
      · rfl
      rename_i locked
      refine (keeps ⟨?_, .inl isWrite, isWrite, locked⟩).elim
      simpa [SVal.isSpinVar] using taken
  | ShM => cases kept
  | _ =>
      dsimp only
      repeat' split
      all_goals rfl

private theorem absRead_isShM (isRead : acc.isWrite = false)
    (notSpinning : acc.spinReading = false) (value : SVDenotes tab sv abs)
    (kept : sv.isShM = false) (keeps : ¬ EntersShM tab sv clock acc) :
    (absRead abs clock acc).svNew.isShM = false := by
  rw [value.isShM] at kept
  unfold absRead
  split
  · exact kept
  rename_i taken
  cases value with
  | @ExclW ii vts known =>
      dsimp only
      split
      · rfl
      rename_i unordered
      split
      · rfl
      rename_i locked
      refine (keeps ⟨?_, .inr notSpinning, ⟨vts, known, unordered⟩, ?_⟩).elim
      · simpa [SVal.isSpinVar] using taken
      · simp [Access.getLockSet, isRead, locked]
  | ShM => cases kept
  | _ =>
      dsimp only
      repeat' split
      all_goals rfl

/-- Only the accesses of `EntersShM` lead into `ShM`. -/
theorem absMsm_isShM (value : SVDenotes tab sv abs)
    (kept : sv.isShM = false) (keeps : ¬ EntersShM tab sv clock acc) :
    (absMsm abs clock acc).svNew.isShM = false := by
  unfold absMsm
  split
  · rename_i isWrite
    exact absWrite_isShM isWrite value kept keeps
  rename_i isRead
  split
  · unfold absSpinRead
    split <;> rfl
  · rename_i notSpinning
    exact absRead_isShM (Bool.eq_false_iff.mpr isRead)
      (Bool.eq_false_iff.mpr notSpinning) value kept keeps

end Call

structure Inv (s : Machine) (abs : AbsUka) : Prop where
  wf : s.1.WF
  hb : s.2.hb.Refines (svalRefs s.1.store.vals) abs
  bytes : ∀ c, Known abs s.2 (s.1.byte c)
  stored : ∀ sv ∈ s.1.store.vals, Made s.2.notes sv
  honest : Honest s.2.notes

section Inv

variable {z after : Zsm (SVal Nat)} {core : Core} {abs : AbsUka}
  {events : List (RcEvent (SVal Nat))}

/-- Shadow memory may change if the calls account for it. -/
theorem Inv.replay (inv : Inv (z, core) abs) (wf : after.WF)
    (ledger : RcEvent.Ledger noAccess z.store.vals events after.store.vals)
    (known : ∀ sv, .inc sv ∈ events → Known abs core sv)
    (bytes : ∀ c, Known abs core (after.byte c)) :
    Returns (events.foldlM Core.rcSVal core) (fun core' =>
      Inv (after, core') abs ∧ SameButCounts core.hb.tab core'.hb.tab) := by
  apply (Core.replay_returns inv.hb inv.stored inv.honest ledger known).mono
  intro core' counting
  have grown := Extends.of_clock_eq counting.tab.clock
  exact ⟨⟨wf, counting.hb, fun c => (bytes c).mono counting.notes grown
    fun _ none => none, counting.stored, counting.honest⟩, counting.tab⟩

theorem Inv.moved (inv : Inv (z, core) abs)
    (moved : Zsm.Moved z (after, events)) :
    Returns (events.foldlM Core.rcSVal core) (fun core' =>
      Inv (after, core') abs ∧ SameButCounts core.hb.tab core'.hb.tab) := by
  apply inv.replay moved.wf moved.ledger
  · intro sv member
    obtain ⟨a, same⟩ := moved.incs sv member
    rw [← same]
    exact inv.bytes a
  · intro c
    rw [moved.bytes c]
    exact inv.bytes c

theorem Known.denotes {sv : SVal Nat} (known : Known abs core sv) :
    ∃ value, SVDenotes core.hb.tab sv value := by
  cases sv with
  | SpinVar ii =>
      obtain ⟨vts, clock, -⟩ := known.inUse ii rfl
      exact ⟨_, .SpinVar clock⟩
  | ShM2 ii lset =>
      obtain ⟨vts, clock, -⟩ := known.inUse ii rfl
      exact ⟨_, .ShM2 clock⟩
  | ShM lset => exact ⟨_, .ShM⟩
  | ShR ii lset =>
      obtain ⟨vts, clock, -⟩ := known.inUse ii rfl
      exact ⟨_, .ShR clock⟩
  | ExclRW ii =>
      obtain ⟨vts, clock, -⟩ := known.inUse ii rfl
      exact ⟨_, .ExclRW clock⟩
  | ExclR ii =>
      obtain ⟨vts, clock, -⟩ := known.inUse ii rfl
      exact ⟨_, .ExclR clock⟩
  | ExclW ii =>
      obtain ⟨vts, clock, -⟩ := known.inUse ii rfl
      exact ⟨_, .ExclW clock⟩
  | Race => exact ⟨_, .Race⟩
  | New => exact ⟨_, .New⟩
  | NoAccess => exact ⟨_, .NoAccess⟩
  | Invalid => exact (known.valid rfl).elim

end Inv

section Called

variable {z : Zsm (SVal Nat)} {core : Core} {abs : AbsUka} {acc : Access}
  {clock : VTS} {sv : SVal Nat}

/-- What a call of the machine does. -/
structure Called (z : Zsm (SVal Nat)) (core : Core) (abs : AbsUka)
    (acc : Access) (clock : VTS) (sv : SVal Nat)
    (result : Machine × SVal Nat) (abs' : AbsUka) (clock' : VTS) : Prop where
  same : result.1.1 = z
  hb : result.1.2.hb.Refines (svalRefs z.store.vals) abs'
  grown : Extends core.hb.tab result.1.2.hb.tab
  notes : core.notes ⊆ result.1.2.notes
  honest : Honest result.1.2.notes
  value : Known abs' result.1.2 result.2
  threads : ∀ idx, abs'.thrs idx = none ↔ abs.thrs idx = none
  thread : abs'.thrs acc.thr = some clock'
  later : clock ≤ clock'
  joined : ∀ ii vts, sv = .SpinVar ii → core.hb.tab.clock ii = some vts →
    acc.isWrite = false → vts ≤ clock'

theorem SVal.passed_of_kept {svNew : SVal Nat} (svOld : SVal Nat)
    (tvid : Nat) (acc : Access) (kept : svNew.isShM = false) :
    svOld.passed tvid acc svNew = svNew.getVTS := by
  cases svNew with
  | ShM lset => cases kept
  | _ => rfl

theorem Core.spinReads_notes (known : Known abs core sv)
    (honest : Honest core.notes) :
    core.notes ⊆ (core.spinReads acc sv).notes ∧
      Honest (core.spinReads acc sv).notes := by
  unfold Core.spinReads
  split
  · exact ⟨fun _ member => member, honest⟩
  split
  · split
    · exact ⟨fun _ member => member, honest⟩
    · rename_i vtsid tells
      obtain ⟨vts, inUse, -⟩ := known.inUse vtsid tells
      unfold Core.takes Core.note
      rw [inUse]
      exact ⟨List.subset_append_left _ _,
        honest.taken (known.built vtsid tells)⟩
  · exact ⟨fun _ member => member, honest⟩

theorem Core.makes_hb (svNew : SVal Nat) (vtsid : Option Nat) :
    (core.makes svNew vtsid).hb = core.hb := by
  cases vtsid <;> rfl

/-- The new value is made from the clock that it tells. -/
theorem Core.makes_notes (honest : Honest core.notes)
    (kept : sv.isShM = false) :
    core.notes ⊆ (core.makes sv sv.getVTS).notes ∧
      Honest (core.makes sv sv.getVTS).notes ∧
      Made (core.makes sv sv.getVTS).notes sv := by
  cases tells : sv.getVTS with
  | none =>
      refine ⟨fun _ member => member, honest, kept, ?_⟩
      intro vtsid impossible
      rw [tells] at impossible
      cases impossible
  | some vtsid =>
      refine ⟨List.subset_append_left _ _, honest.made tells, kept, ?_⟩
      intro other same
      rw [tells] at same
      cases same
      exact List.mem_append_right _ (List.mem_singleton_self _)

/-- The clock of the value at a location mentions threads that exist. -/
theorem Known.mentions {value : SVal VTS} {vts : VTS}
    (known : Known abs core sv) (denotes : SVDenotes core.hb.tab sv value)
    (holds : value.vts = some vts) : abs.Mentions vts := by
  have tells := denotes.getVTS known.kept
  rw [holds] at tells
  cases found : sv.getVTS with
  | none =>
      rw [found] at tells
      cases tells
  | some vtsid =>
      rw [found] at tells
      cases tells with
      | some clock =>
          obtain ⟨vts', clock', mentions⟩ := known.inUse vtsid found
          rw [clock] at clock'
          cases clock'
          exact mentions

theorem Inv.msm_returns (inv : Inv (z, core) abs) {b : Nat}
    (atThr : abs.thrs acc.thr = some clock)
    (keeps : ¬ EntersShM core.hb.tab (z.byte b) clock acc) (szB : Nat) :
    Returns (Machine.msm acc (z, core) (z.byte b) b szB) (fun result =>
      ∃ abs' clock', Called z core abs acc clock (z.byte b) result abs'
        clock') := by
  obtain ⟨vid, bound, mine⟩ := inv.hb.thrs.of_some atThr
  have known := inv.bytes b
  dsimp only at known bound mine
  generalize z.byte b = sv at known keeps ⊢
  obtain ⟨value, denotes⟩ := known.denotes
  have counted := inv.hb.counted
  dsimp only at counted
  rw [UkaHb.refs_eq_of_thr bound, Multiset.cons_add] at counted
  have thread : core.hb.getThr acc.thr = .ok vid := by
    unfold UkaHb.getThr
    rw [bound]
  unfold Machine.msm
  dsimp only
  rw [thread, ok_bind]
  apply (Ukal.msm_returns counted mine denotes known.kept).bind
  rintro ⟨tab, out⟩ result
  have step := @absMsm_clockStep value clock acc
  have kept : out.svNew.isShM = false := by
    rw [result.svNew.isShM]
    exact absMsm_isShM denotes known.kept keeps
  have mentions : ∀ idx, idx ≠ acc.thr → abs.thrs idx = none →
      ((absMsm value clock acc).vid.getD clock).indexAt idx = 0 := by
    intro idx other unknown
    apply step.thread idx other
    · exact inv.hb.grounded.thrs acc.thr clock atThr idx unknown
    · exact fun vts holds => known.mentions denotes holds idx unknown
  obtain ⟨abs', refines, threads, thread'⟩ := inv.hb.exchange atThr
    result.counted bound result.grown result.moved mentions
  obtain ⟨noted, honest⟩ :=
    @Core.spinReads_notes core abs acc sv known inv.honest
  have hb : (Core.makes { core.spinReads acc sv with
      hb := core.hb.exchange tab acc.thr out.vid } out.svNew
      (sv.passed vid acc out.svNew)).hb =
        core.hb.exchange tab acc.thr out.vid := Core.makes_hb _ _
  obtain ⟨noted', honest', made⟩ := @Core.makes_notes
    { core.spinReads acc sv with
      hb := core.hb.exchange tab acc.thr out.vid } out.svNew honest kept
  rw [← SVal.passed_of_kept sv vid acc kept] at noted' honest' made
  apply Returns.pure
  refine ⟨abs', _, rfl, ?_, ?_, List.Subset.trans noted noted', honest',
    ⟨made, ?_, ?_⟩, threads, thread', step.later, ?_⟩
  · dsimp only
    rw [hb]
    exact refines
  · dsimp only
    rw [hb, UkaHb.exchange_tab]
    exact result.grown
  · intro isInvalid
    have denoted := result.svNew
    dsimp only at denoted isInvalid
    rw [isInvalid] at denoted
    cases denoted
  · intro vtsid tells
    dsimp only at tells ⊢
    rw [hb, UkaHb.exchange_tab]
    have related := result.svNew.getVTS kept
    dsimp only at related
    rw [tells] at related
    generalize holds : (absMsm value clock acc).svNew.vts = expected
      at related
    cases related with
    | @some _ vts inUse =>
        refine ⟨vts, inUse, fun idx unknown => ?_⟩
        rw [threads idx] at unknown
        rcases step.value vts holds with rfl | old
        · exact inv.hb.grounded.thrs acc.thr vts atThr idx unknown
        · exact known.mentions denotes old idx unknown
  · intro ii vts same inUse isRead
    cases denotes with
    | @SpinVar ii' vts' inUse' =>
        cases same
        rw [inUse'] at inUse
        cases inUse
        exact step.joined _ rfl isRead
    | _ => cases same

end Called

section Access

variable {start : Machine} {initial : AbsUka} {acc : Access} {a len : Nat}

/-- The clock at the end of bytes that all have one value. -/
theorem Machine.reached_le {n k : Nat} {sv : SVal Nat} {early upper : VTS}
    (reached : start.reached acc a n = some early) (le : early ≤ upper)
    (uniform : ∀ c, a + n ≤ c → c < a + n + k → start.1.byte c = sv)
    (inUse : ∀ ii, sv = .SpinVar ii →
      ∃ vts, start.2.hb.tab.clock ii = some vts)
    (joined : ∀ ii vts, sv = .SpinVar ii →
      start.2.hb.tab.clock ii = some vts → acc.isWrite = false →
      vts ≤ upper) :
    ∃ late, start.reached acc a (n + k) = some late ∧ late ≤ upper := by
  induction k with
  | zero => exact ⟨early, reached, le⟩
  | succ k induction =>
      obtain ⟨late, reached', le'⟩ := induction fun c first last =>
        uniform c first (by omega)
      have here := uniform (a + (n + k)) (by omega) (by omega)
      have next : start.reached acc a (n + (k + 1)) =
          start.reached acc a (n + k + 1) := rfl
      rw [next]
      unfold Machine.reached
      rw [reached', here]
      cases sv with
      | SpinVar ii =>
          obtain ⟨vts, clock⟩ := inUse ii rfl
          cases direction : acc.isWrite with
          | true => exact ⟨late, by simp, le'⟩
          | false =>
              refine ⟨late.join vts, by simp [clock], ?_⟩
              exact VTS.join_le le' (joined ii vts rfl clock direction)
      | _ => exact ⟨late, rfl, le'⟩

/-- How far an access has got. -/
structure AccessedTo (start : Machine) (acc : Access) (a b : Nat)
    (s : Machine) (abs : AbsUka) : Prop where
  first : a ≤ b
  inv : Inv s abs
  ahead : ∀ c, b ≤ c → s.1.byte c = start.1.byte c
  grown : Extends start.2.hb.tab s.2.hb.tab
  unknown : abs.thrs acc.thr = none →
    start.2.hb.thrs.lookup acc.thr = none
  clock : ∀ clock, abs.thrs acc.thr = some clock →
    ∃ early, start.reached acc a (b - a) = some early ∧ early ≤ clock

theorem Inv.accessed (inv : Inv start initial) :
    AccessedTo start acc a a start initial where
  first := le_refl a
  inv := inv
  ahead _ _ := rfl
  grown := .refl _
  unknown none := inv.hb.thrs.of_none none
  clock clock atThr := by
    obtain ⟨vid, bound, mine⟩ := inv.hb.thrs.of_some atThr
    refine ⟨clock, ?_, le_refl clock⟩
    rw [Nat.sub_self]
    unfold Machine.reached
    rw [bound]
    exact mine

/-- The bytes ahead do not enter `ShM`. -/
theorem AccessedTo.keeps (startInv : Inv start initial)
    (keeps : ¬ start.LosesClock acc a len) {b : Nat} {s : Machine}
    {abs : AbsUka} (accessed : AccessedTo start acc a b s abs)
    (inside : b < a + len) {clock : VTS}
    (atThr : abs.thrs acc.thr = some clock) :
    ¬ EntersShM s.2.hb.tab (s.1.byte b) clock acc := by
  rintro ⟨notAtomic, direction, enters⟩
  obtain ⟨early, reached, le⟩ := accessed.clock clock atThr
  have here : a + (b - a) = b := by
    have first := accessed.first
    omega
  have older : ∀ ii, (s.1.byte b).getVTS = some ii →
      (∃ vts, s.2.hb.tab.clock ii = some vts ∧ ¬ vts ≤ clock) →
      ∃ vts, start.2.hb.tab.clock ii = some vts ∧ ¬ vts ≤ early := by
    rintro ii tells ⟨vts, known, unordered⟩
    rw [accessed.ahead b (le_refl b)] at tells
    obtain ⟨vts', known', -⟩ := (startInv.bytes b).inUse ii tells
    rw [accessed.grown _ _ known'] at known
    cases known
    exact ⟨_, known', fun before => unordered (before.trans le)⟩
  refine keeps ⟨b - a, by omega, early, reached, notAtomic, direction, ?_⟩
  rw [here, ← accessed.ahead b (le_refl b)]
  cases value : s.1.byte b with
  | ExclW ii =>
      rw [value] at enters older
      exact ⟨older ii rfl enters.1, enters.2⟩
  | ExclR ii =>
      rw [value] at enters older
      exact ⟨older ii rfl enters.1, enters.2⟩
  | ShR ii lset =>
      rw [value] at enters
      exact enters
  | _ =>
      rw [value] at enters
      exact enters.elim

theorem Inv.called {z after : Zsm (SVal Nat)} {core : Core}
    {abs abs' : AbsUka} {clock clock' : VTS} {b szB : Nat} {sv : SVal Nat}
    {result : Machine × SVal Nat} (inv : Inv (z, core) abs)
    (called : Called z core abs acc clock sv result abs' clock')
    (wrote : Zsm.Wrote z b szB result.2 after) :
    Inv (after, result.1.2) abs' where
  wf := wrote.wf
  hb := by
    dsimp only
    rw [wrote.store]
    exact called.hb
  bytes c := by
    dsimp only
    rw [wrote.bytes c]
    split
    · exact called.value
    · exact (inv.bytes c).mono called.notes called.grown fun idx =>
        (called.threads idx).mp
  stored sv member := by
    dsimp only at member
    rw [wrote.store] at member
    exact (inv.stored sv member).mono called.notes
  honest := called.honest

/-- After a call for some bytes with one value. -/
theorem AccessedTo.called (startInv : Inv start initial)
    {z after : Zsm (SVal Nat)} {core : Core} {abs abs' : AbsUka}
    {clock clock' : VTS} {b szB : Nat} {result : Machine × SVal Nat}
    (accessed : AccessedTo start acc a b (z, core) abs)
    (atThr : abs.thrs acc.thr = some clock)
    (uniform : ∀ c, b ≤ c → c < b + szB → z.byte c = z.byte b)
    (called : Called z core abs acc clock (z.byte b) result abs' clock')
    (wrote : Zsm.Wrote z b szB result.2 after) :
    AccessedTo start acc a (b + szB) (after, result.1.2) abs' where
  first := accessed.first.trans (Nat.le_add_right b szB)
  inv := accessed.inv.called called wrote
  ahead c from_ := by
    rw [← accessed.ahead c (by omega)]
    dsimp only
    rw [wrote.bytes c, if_neg (by omega)]
  grown := accessed.grown.trans called.grown
  unknown none := by
    rw [called.thread] at none
    cases none
  clock clock₁ atThr₁ := by
    rw [called.thread] at atThr₁
    cases atThr₁
    obtain ⟨early, reached, le⟩ := accessed.clock clock atThr
    have first := accessed.first
    have here : a + (b - a) = b := by omega
    have length : b + szB - a = b - a + szB := by omega
    rw [length]
    have same : start.1.byte b = z.byte b := (accessed.ahead b le_rfl).symm
    apply Machine.reached_le reached (le.trans called.later)
    · intro c from_ to_
      rw [here] at from_ to_
      rw [← accessed.ahead c from_]
      exact uniform c from_ to_
    · intro ii isSpin
      rw [← same] at isSpin
      have tells : (start.1.byte b).getVTS = some ii := by
        rw [isSpin]
        rfl
      obtain ⟨vts, inUse, -⟩ := (startInv.bytes b).inUse ii tells
      exact ⟨vts, inUse⟩
    · intro ii vts isSpin inUse isRead
      exact called.joined ii vts isSpin (accessed.grown _ _ inUse) isRead

theorem access_rule (startInv : Inv start initial)
    (keeps : ¬ start.LosesClock acc a len) :
    ApplyRule Core.rcSVal (Machine.msm acc)
      (fun _ => start.2.hb.thrs.lookup acc.thr = none) (a + len)
      (fun b s => ∃ abs, AccessedTo start acc a b s abs) where
  wf b s holds := by
    obtain ⟨abs, accessed⟩ := holds
    exact accessed.inv.wf
  moved b z core after events holds moved := by
    obtain ⟨abs, accessed⟩ := holds
    apply (accessed.inv.moved moved).satisfies.mono
    rintro core' ⟨inv, same⟩
    refine ⟨abs, accessed.first, inv, ?_, ?_, accessed.unknown,
      accessed.clock⟩
    · intro c from_
      rw [← accessed.ahead c from_]
      exact moved.bytes c
    · exact accessed.grown.trans (Extends.of_clock_eq same.clock)
  called b szB z core kind bounded holds uniform := by
    obtain ⟨abs, accessed⟩ := holds
    have positive : 0 < szB := by
      simp only [List.mem_cons, List.not_mem_nil, or_false] at kind
      omega
    cases atThr : abs.thrs acc.thr with
    | none =>
        have unbound : core.hb.thrs.lookup acc.thr = none :=
          accessed.inv.hb.thrs.of_none atThr
        have failed : Machine.msm acc (z, core) (z.byte b) b szB =
            .error .dangling := by
          unfold Machine.msm UkaHb.getThr
          rw [unbound]
          rfl
        rw [failed]
        exact accessed.unknown atThr
    | some clock =>
        have keeps' := accessed.keeps startInv keeps (by omega) atThr
        apply (accessed.inv.msm_returns atThr keeps' szB).satisfies.mono
        rintro result ⟨abs', clock', called⟩
        refine ⟨called.same, called.value.valid, fun after wrote => ?_⟩
        exact ⟨abs', accessed.called startInv atThr uniform called wrote⟩

end Access

section Collect

variable {z : Zsm (SVal Nat)} {core : Core} {abs : AbsUka}

theorem mem_svalRefs {sv : SVal Nat} {vals : Multiset (SVal Nat)} {ii : Nat}
    (member : sv ∈ vals) (inside : ii ∈ sv.refs) : ii ∈ svalRefs vals := by
  obtain ⟨rest, rfl⟩ := Multiset.exists_cons_of_mem member
  rw [svalRefs_cons, Multiset.mem_add]
  exact .inl inside

/-- What is referred to outlives a collection, if the cache is empty. -/
theorem Inv.collect (inv : Inv (z, core) abs)
    (flushed : ∀ wix, z.cache.lookup wix = none)
    (noOrderings : ∀ slot, core.hb.tab.getOrderingCache slot = none)
    (noJoins : ∀ slot, core.hb.tab.join2Cache slot = none) :
    Returns core.hb.tab.collect (fun tab =>
      Inv (z, core.withTab tab) abs) := by
  apply (collect_returns inv.hb.counted noOrderings noJoins).mono
  rintro tab ⟨counted, clock⟩
  have kept : ∀ ii ∈ core.hb.refs + svalRefs z.store.vals, ∀ vts,
      core.hb.tab.clock ii = some vts → tab.clock ii = some vts := by
    intro ii member vts known
    rw [clock ii, if_pos member, known]
  refine ⟨inv.wf, ⟨counted, ?_, ?_, inv.hb.grounded⟩, ?_, inv.stored,
    inv.honest⟩
  · apply inv.hb.thrs.keep
    intro thr vid vts bound known
    apply kept vid _ vts known
    have split := UkaHb.refs_eq_of_thr bound
    dsimp only at split
    rw [split]
    simp
  · apply inv.hb.sos.keep
    intro so record contents bound denotes
    cases denotes with
    | empty => exact .empty
    | @holds vid vts known =>
        apply UkaHb.SODenotes.holds
        apply kept vid _ vts known
        have split := AList.total_eq_of_lookup UkaHb.soRefs bound
        unfold UkaHb.refs
        dsimp only at split
        rw [split]
        simp [UkaHb.soRefs]
  · intro c
    have value := inv.bytes c
    have stored : z.byte c = z.store.byte c := Zsm.byte_of_unbound (flushed _)
    dsimp only at value ⊢
    rw [stored] at value ⊢
    rcases inv.wf.store.byte_mem_vals c with unused | counted'
    · rw [unused]
      exact Known.of_none rfl nofun
    · refine ⟨value.toMade, value.valid, fun vtsid tells => ?_⟩
      obtain ⟨vts, known, mentions⟩ := value.inUse vtsid tells
      refine ⟨vts, kept vtsid ?_ vts known, mentions⟩
      apply Multiset.mem_add.mpr (.inr (mem_svalRefs counted' _))
      rw [SVal.refs_eq_singleton tells value.kept]
      exact Multiset.mem_singleton_self vtsid

theorem Inv.invalidateCaches (inv : Inv (z, core) abs) :
    Inv (z, core.withTab core.hb.tab.invalidateCaches) abs where
  wf := inv.wf
  hb := inv.hb.withTab inv.hb.counted.invalidateCaches fun _ _ known => known
  bytes c := (inv.bytes c).mono (fun _ member => member)
    (fun _ _ known => known) fun _ none => none
  stored := inv.stored
  honest := inv.honest

theorem Inv.flush (inv : Inv (z, core) abs) :
    Returns (Machine.flushCache (z, core)) (fun after => Inv after abs ∧
      (∀ wix, after.1.cache.lookup wix = none) ∧
      SameButCounts core.hb.tab after.2.hb.tab) := by
  unfold Machine.flushCache counting
  apply (Zsm.flushCache_returns inv.wf).bind
  rintro ⟨after, events⟩ ⟨moved, empty⟩
  apply (inv.moved moved).bind
  rintro core' ⟨inv', same⟩
  exact Returns.pure ⟨inv', empty, same⟩

theorem Inv.maybeGC (inv : Inv (z, core) abs) (due : Bool) :
    Returns (Machine.maybeGC (z, core) due) (Inv · abs) := by
  unfold Machine.maybeGC
  split
  · exact Returns.ok inv
  rename_i none
  split
  · exact Returns.ok inv
  unfold Machine.doGC
  rw [tlAssert_of (not_not.mp none), ok_bind]
  apply inv.invalidateCaches.flush.bind
  rintro ⟨after, core'⟩ ⟨inv', empty, same⟩
  apply (inv'.collect empty _ _).bind
  · intro tab collected
    exact Returns.pure collected
  · intro slot
    exact congrFun same.orderings slot
  · intro slot
    exact congrFun same.joins slot

/-- The counts are those of the references. -/
theorem Inv.counts {s : Machine} (inv : Inv s abs) : s.Counts := by
  intro ii vts known
  obtain ⟨te, entry, -⟩ := clock_eq_some_iff.mp known
  rw [entry]
  exact congrArg some (inv.hb.counted.counts ii te entry)

end Collect

section Operations

variable {z : Zsm (SVal Nat)} {core : Core} {abs : AbsUka}

theorem Inv.changed (inv : Inv (z, core) abs) {allowed : SVal Nat → Prop}
    {content : Nat → SVal Nat}
    {operation : Zsm (SVal Nat) →
      Except Abort (Zsm (SVal Nat) × List (RcEvent (SVal Nat)))}
    (returns : Returns (operation z) (Zsm.Changed allowed z content))
    (known : ∀ sv, allowed sv → Known abs core sv)
    (bytes : ∀ c, Known abs core (content c)) :
    Returns (counting Core.rcSVal (z, core) operation) (Inv · abs) := by
  unfold counting
  apply returns.bind
  rintro ⟨after, events⟩ changed
  apply (inv.replay changed.wf changed.ledger
    (fun sv member => known sv (changed.incs sv member)) fun c => by
      rw [changed.bytes c]
      exact bytes c).bind
  rintro core' ⟨inv', -⟩
  exact Returns.pure inv'

/-- A value without a clock is put into a range. -/
theorem Inv.setRange (inv : Inv (z, core) abs) {sv : SVal Nat}
    (none : sv.getVTS = .none) (valid : sv ≠ .Invalid) (a len : Nat) :
    Returns (counting Core.rcSVal (z, core) (·.setRange a len sv))
      (Inv · abs) := by
  have known : Known abs core sv := .of_none none valid
  apply inv.changed (Zsm.setRange_returns inv.wf valid a len)
  · rintro other (rfl | ⟨c, rfl⟩)
    · exact known
    · exact inv.bytes c
  · intro c
    unfold fill
    split
    · exact known
    · exact inv.bytes c

theorem Inv.copyRange (inv : Inv (z, core) abs) (src dst len : Nat) :
    Satisfies (fun _ => ¬ (src + len ≤ dst ∨ dst + len ≤ src))
      (Machine.copyRange (z, core) src dst len) (Inv · abs) := by
  by_cases apart : src + len ≤ dst ∨ dst + len ≤ src
  · apply (inv.changed (Zsm.copyRange_returns inv.wf apart) _ _).satisfies
    · rintro sv ⟨c, rfl⟩
      exact inv.bytes c
    · intro c
      unfold Zsm.copied
      split
      · exact inv.bytes _
      · exact inv.bytes c
  · unfold Machine.copyRange counting Zsm.copyRange
    dsimp only
    split
    · exact inv
    · rw [tlAssert_of_not apart]
      exact apart

theorem Inv.hbOp (inv : Inv (z, core) abs) (op : HbOp) {after : Machine}
    (done : Machine.perform (z, core) (.hb op) = .ok after) :
    ∃ abs', Inv after abs' := by
  obtain ⟨hb, performed, same⟩ := bind_eq_ok.mp done
  cases same
  obtain ⟨abs', expected, refines, grown⟩ :=
    (UkaHb.perform_agrees inv.hb op).eq_ok performed
  refine ⟨abs', inv.wf, refines, fun c => ?_, inv.stored, inv.honest⟩
  exact (inv.bytes c).mono (fun _ member => member) grown fun idx =>
    AbsUka.thrs_of_perform expected

/-- An operation that does not enter `ShM` keeps the invariant, and aborts
only where its caller has not kept to the interface. -/
theorem Inv.perform {s : Machine} (inv : Inv s abs) (op : Op)
    (keeps : ¬ op.LosesClock s) :
    Satisfies (fun _ => ¬ op.Allowed s) (s.perform op)
      (fun after => ∃ abs', Inv after abs') := by
  obtain ⟨z, core⟩ := s
  have same : ∀ {computation : Except Abort Machine},
      Returns computation (Inv · abs) →
      Satisfies (fun _ => ¬ op.Allowed (z, core)) computation
        (fun after => ∃ abs', Inv after abs') := fun returns =>
    returns.satisfies.mono fun _ inv' => ⟨abs, inv'⟩
  cases op with
  | hb op =>
      cases done : Machine.perform (z, core) (.hb op) with
      | error abort => exact id
      | ok after => exact inv.hbOp op done
  | apply acc width a =>
      have done := applyWidths_satisfies (access_rule inv keeps) width a
        (z, core) (le_refl _) ⟨abs, inv.accessed⟩
      apply (done.failing fun _ => not_not.mpr).mono
      rintro after ⟨abs', accessed⟩
      exact ⟨abs', accessed.inv⟩
  | applyRange acc a len =>
      have done := applyRange_satisfies (access_rule inv keeps)
        ⟨abs, inv.accessed⟩
      apply (done.failing fun _ => not_not.mpr).mono
      rintro after ⟨abs', accessed⟩
      exact ⟨abs', accessed.inv⟩
  | rangeNew a szB =>
      exact same (@Inv.setRange z core abs inv .New rfl nofun a szB)
  | rangeNoaccess a szB =>
      exact same (@Inv.setRange z core abs inv .NoAccess rfl nofun a szB)
  | copyRange src dst len =>
      exact (inv.copyRange src dst len).mono fun _ inv' => ⟨abs, inv'⟩
  | maybeGC due => exact same (inv.maybeGC due)

theorem Inv.init (root : Nat) :
    Returns (Machine.init root) (Inv · (.init root)) := by
  unfold Machine.init
  apply (UkaHb.Refines.init root).bind
  intro hb refines
  apply Returns.pure
  refine ⟨Zsm.init_wf, refines, fun c => .of_none rfl nofun, ?_, .nil⟩
  intro sv member
  cases member

/-- Every state of a run of which no access enters `ShM`. -/
theorem run_inv {root : Nat} {ops : List Op}
    (keeps : ∀ n s op, Machine.run root (ops.take n) = .ok s →
      ops[n]? = some op → ¬ op.LosesClock s)
    {n : Nat} {s : Machine} (ran : Machine.run root (ops.take n) = .ok s) :
    ∃ abs, Inv s abs := by
  obtain ⟨s₀, started, inv⟩ := Inv.init root
  have runs : ∀ ops, Machine.run root ops = ops.foldlM Machine.perform s₀ := by
    intro ops
    unfold Machine.run
    rw [started, ok_bind]
  have kept : ∀ n before op after,
      (ops.take n).foldlM Machine.perform s₀ = .ok before →
      ops[n]? = some op → (∃ abs, Inv before abs) →
      before.perform op = .ok after → ∃ abs, Inv after abs := by
    rintro n before op after reached atN ⟨abs, inv⟩ performed
    rw [← runs] at reached
    exact (inv.perform op (keeps n before op reached atN)).of_eq_ok performed
  rw [runs] at ran
  exact foldlM_take_invariant kept ⟨_, inv⟩ n ran

end Operations

/-- In a run of which no access enters `ShM`, every id that is taken from a
shadow value is the one that the value was built from, and in use; once the
cache is flushed the counts are those of the references; and operations on
shadow memory do not abort. -/
theorem shadow_words_hold_their_clocks (root : Nat) (ops : List Op)
    (keeps : ∀ n s op, Machine.run root (ops.take n) = .ok s →
      ops[n]? = some op → ¬ op.LosesClock s) :
    ∀ n s, Machine.run root (ops.take n) = .ok s →
      Truthful s.2.notes ∧
      Returns s.flushCache (fun after =>
        Truthful after.2.notes ∧ after.Counts) ∧
      ∀ op, ops[n]? = some op → op.Allowed s →
        ∃ next, s.perform op = .ok next := by
  intro n s ran
  obtain ⟨abs, inv⟩ := run_inv keeps ran
  refine ⟨inv.honest.truthful, ?_, ?_⟩
  · obtain ⟨z, core⟩ := s
    apply inv.flush.mono
    rintro after ⟨inv', -⟩
    exact ⟨inv'.honest.truthful, inv'.counts⟩
  · intro op atN allowed
    have done := inv.perform op (keeps n s op ran atN)
    cases performed : s.perform op with
    | ok next => exact ⟨next, rfl⟩
    | error abort =>
        rw [performed] at done
        exact (done allowed).elim

/-- An access of a thread that holds some locks, in no spin loop. -/
def lockedAccess (thr : Nat) (isWrite : Bool) (lset : Finset Nat) : Access :=
  ⟨thr, isWrite, false, false, false, lset, lset, Finset.Subset.refl lset⟩

/-- Without locks nothing enters `ShM`. -/
theorem lockedAccess_not_entersShM (tab : VtsTab) (sv : SVal Nat)
    (clock : VTS) (thr : Nat) (isWrite : Bool) :
    ¬ EntersShM tab sv clock (lockedAccess thr isWrite ∅) := by
  rintro ⟨-, -, enters⟩
  cases sv <;> cases isWrite <;>
    simp [lockedAccess, Access.getLockSet] at enters

/-- Two threads that hold no locks use neighbouring locations. -/
def unlockedOps : List Op :=
  [.rangeNew 0 8, .apply (lockedAccess 1 true ∅) .w8 0,
    .hb (.sync (.create 1 2)), .apply (lockedAccess 2 true ∅) .w8 1,
    .apply (lockedAccess 2 false ∅) .w8 0]

theorem unlockedOps_keep {s : Machine} {op : Op} (member : op ∈ unlockedOps) :
    ¬ op.LosesClock s := by
  simp only [unlockedOps, List.mem_cons, List.not_mem_nil, or_false] at member
  rcases member with rfl | rfl | rfl | rfl | rfl
  case inl | inr.inr.inl => exact id
  all_goals
    rintro ⟨i, -, clock, -, enters⟩
    exact lockedAccess_not_entersShM _ _ clock _ _ enters

/-- The flush at the end takes the clocks from the values. -/
theorem shadow_words_hold_their_clocks_unlocked :
    ∃ s after, Machine.run 1 unlockedOps = .ok s ∧
      s.flushCache = .ok after ∧
      after.2.notes = [.made (.ExclW 0) 0, .made (.ExclW 1) 1,
        .made (.ExclR 1) 1, .taken (.ExclR 1) 1 true,
        .taken (.ExclW 1) 1 true] ∧
      Truthful after.2.notes ∧ after.Counts := by
  have view : (Machine.run 1 unlockedOps >>=
      Machine.flushCache).toOption.map (·.2.notes) =
      some [.made (.ExclW 0) 0, .made (.ExclW 1) 1, .made (.ExclR 1) 1,
        .taken (.ExclR 1) 1 true, .taken (.ExclW 1) 1 true] := by
    decide +kernel
  obtain ⟨after, done, notes⟩ := exists_ok_of_map view
  obtain ⟨s, ran, flushed⟩ := bind_eq_ok.mp done
  have holds := shadow_words_hold_their_clocks 1 unlockedOps
    (fun n s op _ atN => unlockedOps_keep (List.mem_of_getElem? atN))
  obtain ⟨-, ⟨after', flushed', truthful, counts⟩, -⟩ := holds 5 s ran
  rw [flushed] at flushed'
  cases flushed'
  exact ⟨s, after, ran, flushed, notes, truthful, counts⟩

/-- Thread 2 writes a location, and its parent, which holds a lock, reads it.
The value is built from the clock of thread 2; what is counted for it is the
id zero, to which nothing refers. -/
theorem shared_word_counts_clock_zero :
    ∃ s after, Machine.run 1 [.rangeNew 0 8, .hb (.sync (.create 1 2)),
        .apply (lockedAccess 2 true ∅) .w8 0,
        .apply (lockedAccess 1 false {7}) .w8 0] = .ok s ∧
      s.flushCache = .ok after ∧ ¬ Truthful after.2.notes ∧
      ¬ after.Counts := by
  have view : (Machine.run 1 [.rangeNew 0 8, .hb (.sync (.create 1 2)),
      .apply (lockedAccess 2 true ∅) .w8 0,
      .apply (lockedAccess 1 false {7}) .w8 0] >>=
        Machine.flushCache).toOption.map (fun after =>
      (after.2.notes, after.2.hb.tab.vtsTab[0]?.map (·.rc),
        (after.2.hb.tab.clock 0).isSome, after.refs.count 0)) =
      some ([.made (.ExclW 1) 1, .made (.ShM {7}) 1,
        .taken (.ShM {7}) 0 true], some 1, true, 0) := by
    decide +kernel
  obtain ⟨after, done, seen⟩ := exists_ok_of_map view
  obtain ⟨s, ran, flushed⟩ := bind_eq_ok.mp done
  simp only [Prod.mk.injEq] at seen
  obtain ⟨notes, count, inUse, none⟩ := seen
  refine ⟨s, after, ran, flushed, ?_, ?_⟩
  · intro truthful
    rw [notes] at truthful
    have verdict := truthful [.made (.ExclW 1) 1, .made (.ShM {7}) 1]
      (.ShM {7}) 0 true [] rfl
    have made := verdict.2.1
    revert made
    decide
  · intro counts
    obtain ⟨vts, known⟩ := Option.isSome_iff_exists.mp inUse
    have expected := counts 0 vts known
    rw [count, none] at expected
    cases expected

end HelgrindPlus.Ukal
