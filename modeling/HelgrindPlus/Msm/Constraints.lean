import HelgrindPlus.LibHB.HbOps
import HelgrindPlus.Msm.Default

/-!
# The order of clocks and constraints

Clock operations interleaved with accesses to any locations, in the default
machine.  A thread's write clock never passes its read clock.  `Rmin` may
pass `Wmin` when a race is recorded, and then the next race on the location
fails an assertion; here is exactly when that happens.
-/

namespace HelgrindPlus

open Outcome VtsTab

inductive MemOp where
  | sync (op : SyncOp)
  | read (thr a : Nat)
  | write (thr a : Nat)
  | rangeNew (thr a szB : Nat)
  deriving DecidableEq

/-- The library's state and the shadow value of each location. -/
structure Mem where
  hb : Hb
  shadow : Nat → SVal

namespace Mem

def step (mem : Mem) : MemOp → Except Abort Mem
  | .sync op => do
      let hb ← mem.hb.step op
      pure { mem with hb := hb }
  | .read thr a => do
      let t ← mem.hb.getThr thr
      let (tab, sv, _) ← msmRead mem.hb.tab (mem.shadow a) t
      pure ⟨{ mem.hb with tab := tab }, Function.update mem.shadow a sv⟩
  | .write thr a => do
      let t ← mem.hb.getThr thr
      let (tab, sv, _) ← msmWrite mem.hb.tab (mem.shadow a) t
      pure ⟨{ mem.hb with tab := tab }, Function.update mem.shadow a sv⟩
  | .rangeNew thr a szB => do
      let t ← mem.hb.getThr thr
      let (tab, sv) ← rangeNewSVal mem.hb.tab t
      pure ⟨{ mem.hb with tab := tab },
        fun b => if a ≤ b ∧ b < a + szB then sv else mem.shadow b⟩

/-- A run from `libhb_init`, when no location may be accessed yet. -/
def run (root : Nat) (ops : List MemOp) : Except Abort Mem := do
  let hb ← Hb.init root
  ops.foldlM step ⟨hb, fun _ => .A⟩

end Mem

namespace VtsTab

/-- Both ids are in use, and the first stands for the lesser timestamp. -/
def Below (tab : VtsTab) (vi1 vi2 : Nat) : Prop :=
  ∃ v1 v2, tab.clock vi1 = some v1 ∧ tab.clock vi2 = some v2 ∧ v1 ≤ v2

end VtsTab

namespace Mem

/-- Write clocks lag behind read clocks, and `Rmin` behind `Wmin`. -/
structure Sane (mem : Mem) : Prop where
  thrs : ∀ (thr : Nat) (t : Thr), mem.hb.thrs.lookup thr = some t →
    mem.hb.tab.Below t.viW t.viR
  sos : ∀ so viR viW, mem.hb.sos.lookup so = some ⟨some viR, some viW⟩ →
    mem.hb.tab.Below viW viR
  shadow : ∀ a rmini wmini, mem.shadow a = .C rmini wmini →
    mem.hb.tab.Below rmini wmini

/-- The threads and objects that an operation names are there, and the
address for a new one is not in use. -/
def Owns (mem : Mem) : MemOp → Prop
  | .sync (.create thr addr) | .sync (.soAlloc thr addr) =>
      mem.hb.thrs.lookup thr ≠ none ∧ mem.hb.zalloc addr = .ok ()
  | .sync (.soDealloc thr so) | .sync (.soSend thr so _)
  | .sync (.soRecv thr so _) =>
      mem.hb.thrs.lookup thr ≠ none ∧ mem.hb.sos.lookup so ≠ none
  | .read thr _ | .write thr _ | .rangeNew thr _ _ =>
      mem.hb.thrs.lookup thr ≠ none

/-- The read clock of a racing thread is covered by the constraint `wmin` and
the thread's write clock. -/
def Covered (mem : Mem) (thr a : Nat)
    (races : VTS → VTS → Clocks → Prop) : Prop :=
  ∀ (t : Thr) (rmini wmini : Nat) (rmin wmin : VTS) (clocks : Clocks),
    mem.hb.thrs.lookup thr = some t → mem.shadow a = .C rmini wmini →
    mem.hb.tab.clock rmini = some rmin → mem.hb.tab.clock wmini = some wmin →
    mem.hb.tab.clock t.viR = some clocks.vR →
    mem.hb.tab.clock t.viW = some clocks.vW →
    races rmin wmin clocks → clocks.vR ≤ wmin.join clocks.vW

/-- An access that does not race, or that leaves `Rmin` below `Wmin`. -/
def Settles (mem : Mem) : MemOp → Prop
  | .read thr a =>
      mem.Covered thr a fun rmin _ clocks => ¬ rmin ≤ clocks.vR
  | .write thr a =>
      mem.Covered thr a fun _ wmin clocks => ¬ wmin ≤ clocks.vW
  | .sync _ | .rangeNew _ _ _ => True

/-- The state stands for timestamps throughout. -/
structure Refines (mem : Mem) (abs : AbsHb) (values : Nat → AbsSVal) :
    Prop where
  hb : mem.hb.Refines 0 abs
  shadow : ∀ a, mem.hb.tab.SVDenotes (mem.shadow a) (values a)
  valid : ∀ a, values a ≠ .I

section Steps

variable {mem after : Mem} {abs : AbsHb} {values : Nat → AbsSVal}
  {op : MemOp} {thr a : Nat}

/-- The shadow value `C(Rmin,Wmin)` has its bounds in order. -/
def InOrder : AbsSVal → Prop
  | .C rmin wmin => rmin ≤ wmin
  | .E | .A | .I => True

theorem Refines.sane_iff (refines : mem.Refines abs values) :
    mem.Sane ↔ ∀ a, InOrder (values a) := by
  constructor
  · intro sane a
    have denotes := refines.shadow a
    cases value : values a with
    | C rmin wmin =>
        rw [value] at denotes
        cases stored : mem.shadow a with
        | C rmini wmini =>
            rw [stored] at denotes
            cases denotes with
            | C read write =>
                obtain ⟨v1, v2, first, second, below⟩ :=
                  sane.shadow a rmini wmini stored
                rw [read] at first
                rw [write] at second
                cases first
                cases second
                exact below
        | E | A | I =>
            rw [stored] at denotes
            cases denotes
    | E | A | I => trivial
  · intro inOrder
    refine ⟨?_, ?_, ?_⟩
    · intro thr t bound
      cases known : abs.thrs thr with
      | none =>
          rw [refines.hb.thrs.of_none known] at bound
          cases bound
      | some clocks =>
          obtain ⟨record, found, denotes⟩ := refines.hb.thrs.of_some known
          rw [bound] at found
          cases found
          exact ⟨_, _, denotes.write, denotes.read, denotes.sane⟩
    · intro so viR viW bound
      cases known : abs.sos so with
      | none =>
          rw [refines.hb.sos.of_none known] at bound
          cases bound
      | some contents =>
          obtain ⟨record, found, denotes⟩ := refines.hb.sos.of_some known
          rw [bound] at found
          cases found
          cases denotes with
          | holds denotes =>
              exact ⟨_, _, denotes.write, denotes.read, denotes.sane⟩
    · intro a rmini wmini stored
      have denotes := refines.shadow a
      have ordered := inOrder a
      rw [stored] at denotes
      cases value : values a with
      | C rmin wmin =>
          rw [value] at denotes ordered
          cases denotes with
          | C read write => exact ⟨_, _, read, write, ordered⟩
      | E | A | I =>
          rw [value] at denotes
          cases denotes

/-- An access changes one location and the table. -/
theorem Refines.access (refines : mem.Refines abs values)
    {result : VtsTab × SVal × Bool} {expected : AbsSVal × Bool}
    (done : MsmResult mem.hb.tab (mem.hb.refs + 0) result expected)
    (valid : expected.1 ≠ .I) :
    Refines ⟨{ mem.hb with tab := result.1 },
      Function.update mem.shadow a result.2.1⟩ abs
      (Function.update values a expected.1) := by
  refine ⟨refines.hb.withTab done.counted done.grown, ?_, ?_⟩
  · intro b
    by_cases same : b = a
    · subst same
      simpa using done.value
    · simpa [same] using (refines.shadow b).mono done.grown
  · intro b
    by_cases same : b = a
    · subst same
      simpa using valid
    · simpa [same] using refines.valid b

/-- A machine function over timestamps, and whether it sees a race. -/
structure Judges (msm : AbsSVal → Clocks → Except Abort (AbsSVal × Bool))
    (races : VTS → VTS → Clocks → Prop) : Prop where
  quiet : ∀ rmin wmin clocks, rmin ≤ wmin → ¬ races rmin wmin clocks →
    ∃ sv, msm (.C rmin wmin) clocks = .ok (sv, false) ∧ InOrder sv ∧ sv ≠ .I
  racing : ∀ rmin wmin clocks, races rmin wmin clocks →
    msm (.C rmin wmin) clocks = AbsSVal.raced rmin wmin clocks
  others : ∀ sv clocks, (∀ rmin wmin, sv ≠ .C rmin wmin) → sv ≠ .I →
    msm sv clocks = .ok (sv, false)
  invalid : ∀ clocks, msm .I clocks = .error .tlAssert

private theorem read_judges : Judges AbsSVal.read
    fun rmin _ clocks => ¬ rmin ≤ clocks.vR where
  quiet rmin wmin clocks inOrder ordered := by
    refine ⟨_, if_pos (not_not.mp ordered), ?_, by simp⟩
    exact le_trans inOrder (VTS.le_join_left _ _)
  racing rmin wmin clocks race := if_neg race
  others sv clocks notC notI := by
    cases sv with
    | C rmin wmin => exact absurd rfl (notC rmin wmin)
    | E | A => rfl
    | I => exact absurd rfl notI
  invalid clocks := rfl

private theorem write_judges : Judges AbsSVal.write
    fun _ wmin clocks => ¬ wmin ≤ clocks.vW where
  quiet rmin wmin clocks inOrder ordered := by
    refine ⟨_, if_pos (not_not.mp ordered), ?_, by simp⟩
    exact le_refl clocks.vW
  racing rmin wmin clocks race := if_neg race
  others sv clocks notC notI := by
    cases sv with
    | C rmin wmin => exact absurd rfl (notC rmin wmin)
    | E | A => rfl
    | I => exact absurd rfl notI
  invalid clocks := rfl

/-- From bounds in order the machine returns, and it keeps them in order
exactly if the read clock of a racing thread is covered. -/
theorem Judges.outcome
    {msm : AbsSVal → Clocks → Except Abort (AbsSVal × Bool)}
    {races : VTS → VTS → Clocks → Prop} (judges : Judges msm races)
    {sv : AbsSVal} (clocks : Clocks) (valid : sv ≠ .I)
    (inOrder : InOrder sv) :
    ∃ result, msm sv clocks = .ok result ∧ result.1 ≠ .I ∧
      (InOrder result.1 ↔ ∀ rmin wmin, sv = .C rmin wmin →
        races rmin wmin clocks → clocks.vR ≤ wmin.join clocks.vW) := by
  cases sv with
  | C rmin wmin =>
      change rmin ≤ wmin at inOrder
      by_cases race : races rmin wmin clocks
      · have raced := judges.racing rmin wmin clocks race
        rw [AbsSVal.raced, if_pos inOrder] at raced
        refine ⟨_, raced, by simp, ?_⟩
        constructor
        · intro kept rmin' wmin' same _
          cases same
          exact le_trans (VTS.le_join_right _ _) kept
        · intro covered
          apply VTS.join_le
          · exact le_trans inOrder (VTS.le_join_left _ _)
          · exact covered rmin wmin rfl race
      · obtain ⟨sv, returned, ordered, isValid⟩ :=
          judges.quiet rmin wmin clocks inOrder race
        refine ⟨_, returned, isValid, iff_of_true ordered ?_⟩
        intro rmin' wmin' same raced
        cases same
        exact absurd raced race
  | E | A =>
      refine ⟨_, judges.others _ clocks (by simp) valid, valid,
        iff_of_true trivial ?_⟩
      intro rmin wmin same
      cases same
  | I => exact absurd rfl valid

/-- `Settles` speaks of ids, and the machine over timestamps of what they
stand for. -/
theorem Refines.covered_iff (refines : mem.Refines abs values) {t : Thr}
    {clocks : Clocks} (bound : mem.hb.thrs.lookup thr = some t)
    (denotes : mem.hb.tab.Denotes t.viR t.viW clocks)
    {races : VTS → VTS → Clocks → Prop} :
    mem.Covered thr a races ↔ ∀ rmin wmin, values a = .C rmin wmin →
      races rmin wmin clocks → clocks.vR ≤ wmin.join clocks.vW := by
  have value := refines.shadow a
  constructor
  · intro covered rmin wmin same race
    rw [same] at value
    generalize stored : mem.shadow a = sv at value
    cases value with
    | C read write =>
        exact covered t _ _ rmin wmin clocks bound stored read write
          denotes.read denotes.write race
  · intro covered t' rmini wmini rmin wmin clocks' bound' stored read write
      ofR ofW race
    rw [bound] at bound'
    cases bound'
    rw [denotes.read] at ofR
    rw [denotes.write] at ofW
    have sameClocks : clocks = clocks' := by
      cases clocks
      cases clocks'
      simp_all
    subst sameClocks
    rw [stored] at value
    generalize known : values a = v at value
    cases value with
    | C read' write' =>
        rw [read] at read'
        rw [write] at write'
        cases read'
        cases write'
        exact covered rmin wmin known race

/-- The access of a thread to a location, for both machine functions. -/
theorem Refines.msm_spec (refines : mem.Refines abs values)
    (inOrder : ∀ a, InOrder (values a))
    {msm : AbsSVal → Clocks → Except Abort (AbsSVal × Bool)}
    {races : VTS → VTS → Clocks → Prop} (judges : Judges msm races)
    {call : VtsTab → SVal → Thr → Except Abort (VtsTab × SVal × Bool)}
    (agrees : ∀ {t : Thr} {clocks : Clocks},
      mem.hb.tab.Denotes t.viR t.viW clocks →
      Agrees (call mem.hb.tab (mem.shadow a) t) (msm (values a) clocks)
        (MsmResult mem.hb.tab (mem.hb.refs + 0)))
    {t : Thr} (bound : mem.hb.thrs.lookup thr = some t) :
    Returns (do
        let (tab, sv, _) ← call mem.hb.tab (mem.shadow a) t
        pure (⟨{ mem.hb with tab := tab },
          Function.update mem.shadow a sv⟩ : Mem)) fun after =>
      ∃ values', after.Refines abs values' ∧
        ((∀ b, InOrder (values' b)) ↔ mem.Covered thr a races) := by
  cases known : abs.thrs thr with
  | none =>
      rw [refines.hb.thrs.of_none known] at bound
      cases bound
  | some clocks =>
      obtain ⟨record, found, denotes⟩ := refines.hb.thrs.of_some known
      rw [bound] at found
      cases found
      obtain ⟨expected, returned, valid, ordered⟩ :=
        judges.outcome clocks (refines.valid a) (inOrder a)
      have result := agrees denotes
      rw [returned] at result
      apply Returns.bind result
      intro ⟨tab, sv, raced⟩ done
      refine Returns.pure ⟨_, refines.access done valid, ?_⟩
      rw [refines.covered_iff bound denotes, ← ordered]
      constructor
      · intro all
        simpa using all a
      · intro here b
        by_cases same : b = a
        · subst same
          simpa using here
        · simpa [same] using inOrder b

theorem Refines.rangeNew_spec (refines : mem.Refines abs values)
    (inOrder : ∀ a, InOrder (values a)) (szB : Nat) {t : Thr}
    (bound : mem.hb.thrs.lookup thr = some t) :
    Returns (do
        let (tab, sv) ← rangeNewSVal mem.hb.tab t
        pure (⟨{ mem.hb with tab := tab },
          fun b => if a ≤ b ∧ b < a + szB then sv else mem.shadow b⟩ :
          Mem)) fun after =>
      ∃ values', after.Refines abs values' ∧
        ∀ b, InOrder (values' b) := by
  cases known : abs.thrs thr with
  | none =>
      rw [refines.hb.thrs.of_none known] at bound
      cases bound
  | some clocks =>
      obtain ⟨record, found, denotes⟩ := refines.hb.thrs.of_some known
      rw [bound] at found
      cases found
      rw [rangeNewSVal_eq]
      refine Returns.ok ⟨fun b => if a ≤ b ∧ b < a + szB then
        .C clocks.vW clocks.vW else values b, ⟨refines.hb, ?_, ?_⟩, ?_⟩
      · intro b
        dsimp only
        split
        · exact .C denotes.write denotes.write
        · exact refines.shadow b
      · intro b
        split
        · simp
        · exact refines.valid b
      · intro b
        dsimp only
        split
        · exact le_refl clocks.vW
        · exact inOrder b

theorem Refines.sync (refines : mem.Refines abs values) {hb : Hb}
    {abs' : AbsHb} (simulates : mem.hb.Simulates 0 abs' hb) :
    Refines { mem with hb := hb } abs' values :=
  ⟨simulates.1, fun a => (refines.shadow a).mono simulates.2, refines.valid⟩

/-- One operation, from a state whose bounds are in order. -/
theorem Refines.step_eq_ok (refines : mem.Refines abs values)
    (inOrder : ∀ a, InOrder (values a)) (done : mem.step op = .ok after) :
    ∃ abs' values', after.Refines abs' values' ∧
      ((∀ b, InOrder (values' b)) ↔ mem.Settles op) := by
  cases op with
  | sync op =>
      obtain ⟨hb, stepped, same⟩ := bind_eq_ok.mp done
      cases same
      obtain ⟨abs', -, simulates⟩ :=
        (Hb.sync_agrees refines.hb op).eq_ok stepped
      exact ⟨abs', values, refines.sync simulates,
        iff_of_true inOrder trivial⟩
  | read thr a =>
      obtain ⟨t, found, done⟩ := bind_eq_ok.mp done
      have spec := refines.msm_spec inOrder read_judges
        (fun denotes => msmRead_agrees refines.hb.counted denotes
          (refines.shadow a)) (Hb.getThr_eq_ok found)
      obtain ⟨values', result⟩ := spec.of_eq_ok done
      exact ⟨abs, values', result⟩
  | write thr a =>
      obtain ⟨t, found, done⟩ := bind_eq_ok.mp done
      have spec := refines.msm_spec inOrder write_judges
        (fun denotes => msmWrite_agrees refines.hb.counted denotes
          (refines.shadow a)) (Hb.getThr_eq_ok found)
      obtain ⟨values', result⟩ := spec.of_eq_ok done
      exact ⟨abs, values', result⟩
  | rangeNew thr a szB =>
      obtain ⟨t, found, done⟩ := bind_eq_ok.mp done
      obtain ⟨values', result, ordered⟩ :=
        (refines.rangeNew_spec inOrder szB (Hb.getThr_eq_ok found)).of_eq_ok
          done
      exact ⟨abs, values', result, iff_of_true ordered trivial⟩

theorem Refines.exists_thr (refines : mem.Refines abs values)
    (present : mem.hb.thrs.lookup thr ≠ none) :
    ∃ clocks, abs.thrs thr = some clocks := by
  cases known : abs.thrs thr with
  | none => exact absurd (refines.hb.thrs.of_none known) present
  | some clocks => exact ⟨clocks, rfl⟩

theorem Refines.exists_so (refines : mem.Refines abs values) {so : Nat}
    (present : mem.hb.sos.lookup so ≠ none) :
    ∃ contents, abs.sos so = some contents := by
  cases known : abs.sos so with
  | none => exact absurd (refines.hb.sos.of_none known) present
  | some contents => exact ⟨contents, rfl⟩

theorem Refines.unused (refines : mem.Refines abs values) {addr : Nat}
    (fresh : mem.hb.zalloc addr = .ok ()) : abs.unused addr = true := by
  cases unused : abs.unused addr with
  | true => rfl
  | false =>
      rw [Hb.zalloc_of_used refines.hb unused] at fresh
      cases fresh

theorem Refines.sync_returns (refines : mem.Refines abs values)
    {op : SyncOp} (owns : mem.Owns (.sync op)) :
    ∃ after, mem.step (.sync op) = .ok after := by
  have allowed : ∃ abs', abs.step op = some abs' := by
    cases op with
    | create thr addr | soAlloc thr addr =>
        obtain ⟨clocks, isThr⟩ := refines.exists_thr owns.1
        simp [AbsHb.step, isThr, refines.unused owns.2]
    | soDealloc thr so | soSend thr so strong | soRecv thr so strong =>
        obtain ⟨clocks, isThr⟩ := refines.exists_thr owns.1
        obtain ⟨contents, isSO⟩ := refines.exists_so owns.2
        simp [AbsHb.step, isThr, isSO]
  obtain ⟨abs', stepped⟩ := allowed
  obtain ⟨hb, returned, -⟩ := Hb.step_simulates refines.hb stepped
  exact ⟨_, by simp only [step, returned, ok_bind]; rfl⟩

theorem Refines.step_returns (refines : mem.Refines abs values)
    (inOrder : ∀ a, InOrder (values a)) (owns : mem.Owns op) :
    ∃ after, mem.step op = .ok after := by
  cases op with
  | sync op => exact refines.sync_returns owns
  | read thr a =>
      obtain ⟨t, bound⟩ := Option.ne_none_iff_exists'.mp owns
      obtain ⟨after, returned, -⟩ := refines.msm_spec inOrder read_judges
        (fun denotes => msmRead_agrees refines.hb.counted denotes
          (refines.shadow a)) bound
      refine ⟨after, ?_⟩
      simp only [step, Hb.getThr_of bound, ok_bind]
      exact returned
  | write thr a =>
      obtain ⟨t, bound⟩ := Option.ne_none_iff_exists'.mp owns
      obtain ⟨after, returned, -⟩ := refines.msm_spec inOrder write_judges
        (fun denotes => msmWrite_agrees refines.hb.counted denotes
          (refines.shadow a)) bound
      refine ⟨after, ?_⟩
      simp only [step, Hb.getThr_of bound, ok_bind]
      exact returned
  | rangeNew thr a szB =>
      obtain ⟨t, bound⟩ := Option.ne_none_iff_exists'.mp owns
      obtain ⟨after, returned, -⟩ :=
        refines.rangeNew_spec inOrder szB bound
      refine ⟨after, ?_⟩
      simp only [step, Hb.getThr_of bound, ok_bind]
      exact returned

end Steps

section Runs

variable {root n : Nat} {ops : List MemOp} {mem after : Mem} {op : MemOp}

theorem run_take_succ (ran : run root (ops.take n) = .ok mem)
    (atN : ops[n]? = some op) (stepped : mem.step op = .ok after) :
    run root (ops.take (n + 1)) = .ok after := by
  obtain ⟨hb, started, ran⟩ := bind_eq_ok.mp ran
  apply bind_eq_ok.mpr
  refine ⟨hb, started, ?_⟩
  rw [foldlM_take_succ atN, ran, ok_bind, stepped]

/-- The last step of a run that is not empty. -/
theorem run_take_succ_inv (ran : run root (ops.take (n + 1)) = .ok after)
    (atN : ops[n]? = some op) :
    ∃ mem, run root (ops.take n) = .ok mem ∧ mem.step op = .ok after := by
  obtain ⟨hb, started, ran⟩ := bind_eq_ok.mp ran
  rw [foldlM_take_succ atN] at ran
  obtain ⟨mem, earlier, stepped⟩ := bind_eq_ok.mp ran
  exact ⟨mem, bind_eq_ok.mpr ⟨hb, started, earlier⟩, stepped⟩

private theorem run_zero (ran : run root (ops.take 0) = .ok mem) :
    mem.Refines (AbsHb.init root) (fun _ => .A) := by
  obtain ⟨hb, started, ran⟩ := bind_eq_ok.mp ran
  cases ran
  exact ⟨(Hb.Refines.init root).of_eq_ok started, fun _ => .A, by simp⟩

/-- As long as every state is sane the run stands for timestamps. -/
theorem run_refines
    (sane : ∀ m mem, m < n → run root (ops.take m) = .ok mem → mem.Sane)
    (ran : run root (ops.take n) = .ok mem) :
    ∃ abs values, mem.Refines abs values := by
  induction n generalizing mem with
  | zero => exact ⟨_, _, run_zero ran⟩
  | succ n induction =>
      cases atN : ops[n]? with
      | none =>
          rw [take_succ_of_none atN] at ran
          exact induction (fun m mem below => sane m mem (by omega)) ran
      | some op =>
          obtain ⟨before, earlier, stepped⟩ := run_take_succ_inv ran atN
          obtain ⟨abs, values, refines⟩ :=
            induction (fun m mem below => sane m mem (by omega)) earlier
          have inOrder := refines.sane_iff.mp
            (sane n before (Nat.lt_succ_self n) earlier)
          obtain ⟨abs', values', refines', -⟩ :=
            refines.step_eq_ok inOrder stepped
          exact ⟨abs', values', refines'⟩

/-- Every state of a run is sane and no assertion fails: an operation that
names what is there returns. -/
def StaysSane (root : Nat) (ops : List MemOp) : Prop :=
  ∀ n mem, run root (ops.take n) = .ok mem → mem.Sane ∧
    ∀ op, ops[n]? = some op → mem.Owns op →
      ∃ after, mem.step op = .ok after

private theorem run_sane
    (settles : ∀ n mem op, run root (ops.take n) = .ok mem →
      ops[n]? = some op → mem.Settles op)
    (ran : run root (ops.take n) = .ok mem) : mem.Sane := by
  induction n using Nat.strong_induction_on generalizing mem with
  | _ n induction =>
  obtain ⟨abs, values, refines⟩ :=
    run_refines (fun m mem below => induction m below) ran
  rw [refines.sane_iff]
  cases n with
  | zero =>
      have start := run_zero ran
      have same := (start.sane_iff).mpr fun _ => trivial
      exact refines.sane_iff.mp same
  | succ n =>
      cases atN : ops[n]? with
      | none =>
          rw [take_succ_of_none atN] at ran
          exact refines.sane_iff.mp (induction n (Nat.lt_succ_self n) ran)
      | some op =>
          obtain ⟨before, earlier, stepped⟩ := run_take_succ_inv ran atN
          obtain ⟨abs₀, values₀, refines₀⟩ := run_refines
            (fun m mem below => induction m (by omega)) earlier
          have inOrder := refines₀.sane_iff.mp
            (induction n (Nat.lt_succ_self n) earlier)
          obtain ⟨abs', values', refines', kept⟩ :=
            refines₀.step_eq_ok inOrder stepped
          have ordered := kept.mpr (settles n before op earlier atN)
          exact refines.sane_iff.mp (refines'.sane_iff.mpr ordered)

/-- A run stays sane exactly if every racing thread's read clock is covered
when the race is recorded. -/
theorem staysSane_iff (root : Nat) (ops : List MemOp) :
    StaysSane root ops ↔ ∀ n mem op, run root (ops.take n) = .ok mem →
      ops[n]? = some op → mem.Settles op := by
  constructor
  · intro stays n mem op ran atN
    obtain ⟨abs, values, refines⟩ :=
      run_refines (fun m mem _ ran => (stays m mem ran).1) ran
    have inOrder := refines.sane_iff.mp (stays n mem ran).1
    have settled : mem.Owns op → mem.Settles op := by
      intro owns
      obtain ⟨after, stepped⟩ := (stays n mem ran).2 op atN owns
      obtain ⟨abs', values', refines', kept⟩ :=
        refines.step_eq_ok inOrder stepped
      have sane := (stays (n + 1) after (run_take_succ ran atN stepped)).1
      exact kept.mp (refines'.sane_iff.mp sane)
    cases op with
    | sync op => trivial
    | rangeNew thr a szB => trivial
    | read thr a =>
        intro t rmini wmini rmin wmin clocks bound
        exact settled (Option.ne_none_iff_exists'.mpr ⟨t, bound⟩) t rmini
          wmini rmin wmin clocks bound
    | write thr a =>
        intro t rmini wmini rmin wmin clocks bound
        exact settled (Option.ne_none_iff_exists'.mpr ⟨t, bound⟩) t rmini
          wmini rmin wmin clocks bound
  · intro settles n mem ran
    have sane := run_sane settles ran
    refine ⟨sane, ?_⟩
    intro op atN owns
    obtain ⟨abs, values, refines⟩ :=
      run_refines (fun m mem _ => run_sane settles) ran
    exact refines.step_returns (refines.sane_iff.mp sane) owns

/-- Thread 0 has received weakly from thread 1 when it races with thread 2,
which leaves `Rmin` ahead of `Wmin`.  The race of thread 1 then fails the
assertion. -/
theorem rmin_passes_wmin :
    (run 0 [.sync (.create 0 1), .sync (.create 0 2), .sync (.soAlloc 1 9),
      .sync (.soSend 1 9 true), .sync (.soRecv 0 9 false), .rangeNew 2 64 1,
      .read 0 64, .read 1 64]).map (fun _ => ()) = .error .tlAssert ∧
    ¬ StaysSane 0 [.sync (.create 0 1), .sync (.create 0 2),
      .sync (.soAlloc 1 9), .sync (.soSend 1 9 true),
      .sync (.soRecv 0 9 false), .rangeNew 2 64 1, .read 0 64,
      .read 1 64] := by
  refine ⟨by decide, ?_⟩
  intro stays
  have shown : (run 0 ([.sync (.create 0 1), .sync (.create 0 2),
      .sync (.soAlloc 1 9), .sync (.soSend 1 9 true),
      .sync (.soRecv 0 9 false), .rangeNew 2 64 1, .read 0 64,
      .read 1 64].take 7)).toOption.map (fun mem =>
        ((mem.hb.thrs.lookup 1).isSome,
          ((mem.step (.read 1 64)).toOption.isSome))) =
      some (true, false) := by decide
  obtain ⟨mem, ran, seen⟩ := exists_ok_of_map shown
  obtain ⟨present, stuck⟩ := Prod.mk.inj seen
  obtain ⟨after, stepped⟩ := (stays 7 mem ran).2 (.read 1 64) rfl
    (Option.isSome_iff_ne_none.mp present)
  rw [stepped] at stuck
  cases stuck

end Runs
end Mem
end HelgrindPlus
