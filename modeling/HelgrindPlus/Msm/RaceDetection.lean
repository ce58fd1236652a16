import HelgrindPlus.Msm.FirstRace
import HelgrindPlus.Msm.MachineRuns

/-!
# Race detection over whole runs

The operations of a run that concern one byte are its history.  Since the byte
was last made new and up to the first report on it, the machine on a plain map
keeps for it the bounds of `Loc`; so the machine on compressed shadow memory
reports it exactly when the history has an unordered conflict.
-/

namespace HelgrindPlus

open Outcome

def LocOp.access (isWrite : Bool) (thr : Nat) : LocOp :=
  if isWrite then .write thr else .read thr

namespace MachineOp

/-- What an operation is for one byte.  The macro `LIBHB_WRITE_N` makes reads. -/
def onByte (c : Nat) : MachineOp → Option LocOp
  | hb (.sync op) => some (.sync op)
  | apply isWrite width thr a =>
      if a ≤ c ∧ c < a + width.bytes then some (.access isWrite thr) else none
  | readN thr a n | writeN thr a n =>
      if a ≤ c ∧ c < a + n then some (.access false thr) else none
  | rangeNew thr a szB =>
      if a ≤ c ∧ c < a + szB then some (.rangeNew thr) else none
  | hb (.soJoin ..) | hb (.soExtract ..) | hb (.soEverSent _)
  | rangeNoaccess .. | copyRange .. | maybeGC _ => none

/-- Clocks move as happens-before has it: all receives are strong, and
nothing is done to objects behind the threads' backs. -/
def Ordinary : MachineOp → Bool
  | hb (.sync op) => ! op.isWeakRecv
  | hb (.soJoin ..) | hb (.soExtract ..) => false
  | hb (.soEverSent _) | apply .. | readN .. | writeN .. | rangeNew ..
  | rangeNoaccess .. | copyRange .. | maybeGC _ => true

/-- The history of the byte goes on. -/
def Continues (c : Nat) : MachineOp → Bool
  | rangeNew _ a szB | rangeNoaccess a szB =>
      decide (¬ (a ≤ c ∧ c < a + szB))
  | copyRange _ dst len => decide (¬ (dst ≤ c ∧ c < dst + len))
  | hb _ | apply .. | readN .. | writeN .. | maybeGC _ => true

def history (c : Nat) (ops : List MachineOp) : List LocOp :=
  ops.filterMap (onByte c)

private theorem history_append (c : Nat) (left right : List MachineOp) :
    history c (left ++ right) = history c left ++ history c right :=
  List.filterMap_append

end MachineOp

namespace AbsMachine

variable {c : Nat} {op : MachineOp} {m after : AbsMachine}

/-- What an operation does to the clocks and to a byte. -/
inductive ByteStep (c : Nat) (op : MachineOp) (m after : AbsMachine) :
    Option LocOp → Prop where
  | sync {call : SyncOp} (strong : call.isWeakRecv = false)
      (stepped : m.hb.step call = some after.hb)
      (map : after.map c = m.map c)
      (count : reportsOn after.races c = reportsOn m.races c) :
      ByteStep c op m after (some (.sync call))
  | access {isWrite : Bool} {thr : Nat} {clocks : Clocks}
      (known : m.hb.thrs thr = some clocks) (hb : after.hb = m.hb)
      (accessed : ByteAccessed isWrite clocks m after c) :
      ByteStep c op m after (some (.access isWrite thr))
  | rangeNew {thr : Nat} {clocks : Clocks} (ends : op.Continues c = false)
      (known : m.hb.thrs thr = some clocks) (hb : after.hb = m.hb)
      (map : after.map c = .C clocks.vW clocks.vW)
      (count : reportsOn after.races c = reportsOn m.races c) :
      ByteStep c op m after (some (.rangeNew thr))
  | other (hb : after.hb = m.hb)
      (map : op.Continues c = true → after.map c = m.map c)
      (count : reportsOn after.races c = reportsOn m.races c) :
      ByteStep c op m after none

private theorem access_byteStep {isWrite : Bool} {thr a n : Nat}
    (done : access isWrite thr m a n = .ok after) :
    ByteStep c op m after
      (if a ≤ c ∧ c < a + n then some (.access isWrite thr) else none) := by
  cases known : m.hb.thrs thr with
  | some clocks =>
      have accessed := access_accessed known done
      split
      · rename_i inside
        exact .access known accessed.hb (accessed.inside c inside.1 inside.2)
      · rename_i outside
        obtain ⟨map, count⟩ := accessed.outside c outside
        exact .other accessed.hb (fun _ => map) count
  | none =>
      cases n with
      | zero =>
          rw [access_zero] at done
          cases done
          rw [if_neg (by omega)]
          exact .other rfl (fun _ => rfl) rfl
      | succ n =>
          rw [Nat.add_comm, access_add, access_one, accessByte, known] at done
          cases done

theorem perform_byteStep (ordinary : op.Ordinary = true)
    (done : m.perform op = .ok after) :
    ByteStep c op m after (op.onByte c) := by
  cases op with
  | hb call =>
      obtain ⟨hb, stepped, finish⟩ := bind_eq_ok.mp done
      cases finish
      cases call with
      | sync call =>
          have strong : call.isWeakRecv = false := by
            simpa [MachineOp.Ordinary] using ordinary
          simp only [AbsHb.perform] at stepped
          split at stepped
          · rename_i stepped'
            cases stepped
            exact .sync strong stepped' rfl rfl
          · cases stepped
      | soJoin | soExtract => cases ordinary
      | soEverSent so =>
          simp only [AbsHb.perform] at stepped
          split at stepped
          · cases stepped
            exact .other rfl (fun _ => rfl) rfl
          · cases stepped
  | apply isWrite width thr a => exact access_byteStep done
  | readN thr a n | writeN thr a n => exact access_byteStep done
  | rangeNew thr a szB =>
      simp only [perform, rangeNew] at done
      split at done
      · cases done
      · rename_i clocks known
        cases done
        simp only [MachineOp.onByte]
        split
        · rename_i inside
          exact .rangeNew (decide_eq_false (not_not_intro inside)) known rfl
            (if_pos inside) rfl
        · rename_i outside
          exact .other rfl (fun _ => if_neg outside) rfl
  | rangeNoaccess a szB =>
      cases done
      exact .other rfl (fun continues => if_neg (of_decide_eq_true continues))
        rfl
  | copyRange src dst len =>
      obtain ⟨_, _, finish⟩ := bind_eq_ok.mp done
      cases finish
      exact .other rfl (fun continues => if_neg (of_decide_eq_true continues))
        rfl
  | maybeGC due =>
      cases done
      exact .other rfl (fun _ => rfl) rfl

theorem ByteStep.accessed {isWrite : Bool} {thr : Nat}
    (step : ByteStep c op m after (some (.access isWrite thr))) :
    ∃ clocks, m.hb.thrs thr = some clocks ∧
      ByteAccessed isWrite clocks m after c := by
  generalize same : LocOp.access isWrite thr = y at step
  cases step with
  | @access isWrite' thr' clocks known hb accessed =>
      cases isWrite <;> cases isWrite' <;> cases same <;>
        exact ⟨clocks, known, accessed⟩
  | sync | rangeNew => cases isWrite <;> cases same

theorem ByteStep.count_le {y : Option LocOp}
    (step : ByteStep c op m after y) :
    reportsOn m.races c ≤ reportsOn after.races c := by
  cases step with
  | access known hb accessed =>
      obtain ⟨raced, -, count⟩ := accessed
      omega
  | sync strong stepped map count => omega
  | rangeNew ends known hb map count => omega
  | other hb map count => omega

end AbsMachine

section History

variable {root k n c : Nat} {hist : List LocOp} {op : MachineOp}
  {m after : AbsMachine} {y : LocOp}

/-- The clocks are those of the protocol after the first `n` operations. -/
structure Traced (root : Nat) (hist : List LocOp) (n : Nat) (hb : AbsHb) :
    Prop where
  tracks : hb.Tracks (Causality.clocksAt root (hist.map LocOp.act) n)
  allowed : ∀ i op, i < n → hist[i]? = some op →
    Causality.Allowed (Causality.clocksAt root (hist.map LocOp.act) i) op.act

/-- The value of the byte bounds the accesses from the `k`th operation on. -/
structure Bounded (root : Nat) (hist : List LocOp) (c k n : Nat)
    (m : AbsMachine) : Prop where
  traced : Traced root hist n m.hb
  started : k ≤ n
  value : ∃ rmin wmin, m.map c = .C rmin wmin ∧
    Loc.IsLeast root hist k n LocOp.isWrite rmin ∧
    Loc.IsLeast root hist k n LocOp.isAccess wmin

theorem Traced.extend {hb hb' : AbsHb} (traced : Traced root hist n hb)
    (atN : hist[n]? = some y)
    (tracks : hb'.Tracks
      (Causality.after (Causality.clocksAt root (hist.map LocOp.act) n) y.act))
    (allowed : Causality.Allowed
      (Causality.clocksAt root (hist.map LocOp.act) n) y.act) :
    Traced root hist (n + 1) hb' := by
  have atActs : (hist.map LocOp.act)[n]? = some y.act := by simp [atN]
  refine ⟨Causality.clocksAt_succ atActs ▸ tracks, ?_⟩
  intro i op before atI
  rcases Nat.lt_succ_iff_lt_or_eq.mp before with earlier | rfl
  · exact traced.allowed i op earlier atI
  · rw [atN] at atI
    cases atI
    exact allowed

/-- A thread that accesses memory: its clocks agree, and are the stamp. -/
theorem Traced.actor {hb : AbsHb} {thr : Nat} {clocks : Clocks}
    (traced : Traced root hist n hb) (atN : hist[n]? = some y)
    (isStep : y.act = .step thr) (known : hb.thrs thr = some clocks) :
    Traced root hist (n + 1) hb ∧ clocks.vW = clocks.vR ∧
      clocks.vR.indexAt =
        Causality.stampAt root (hist.map LocOp.act) n := by
  have atActs : (hist.map LocOp.act)[n]? = some (.step thr) := by
    simp [atN, isStep]
  obtain ⟨same, value⟩ := traced.tracks.thrs thr clocks known
  refine ⟨traced.extend atN ?_ ?_, same, ?_⟩
  · rw [isStep]
    exact traced.tracks
  · rw [isStep]
    refine ⟨(traced.tracks.alive thr).mpr (by simp [AbsHb.Exists, known]), ?_⟩
    intro parent child fork
    cases fork
  · rw [value, Causality.stampAt_of atActs]
    rfl

theorem LocOp.act_access (isWrite : Bool) (thr : Nat) :
    (LocOp.access isWrite thr).act = .step thr := by
  cases isWrite <;> rfl

theorem Traced.byteStep (traced : Traced root hist n m.hb)
    (step : AbsMachine.ByteStep c op m after (some y))
    (atN : hist[n]? = some y) : Traced root hist (n + 1) after.hb := by
  cases step with
  | sync strong stepped map count =>
      exact traced.extend atN (traced.tracks.step strong stepped)
        (traced.tracks.allowed stepped)
  | @access isWrite thr clocks known hb accessed =>
      rw [hb]
      exact (traced.actor atN (LocOp.act_access isWrite thr) known).1
  | rangeNew ends known hb map count =>
      rw [hb]
      exact (traced.actor atN rfl known).1

theorem AbsSVal.raced_eq_ok {rmin wmin : VTS} {clocks : Clocks}
    {sv : AbsSVal} {raced : Bool}
    (verdict : AbsSVal.raced rmin wmin clocks = .ok (sv, raced)) :
    raced = true := by
  unfold AbsSVal.raced at verdict
  split at verdict
  · cases verdict
    rfl
  · cases verdict

theorem AbsSVal.read_eq_ok {rmin wmin : VTS} {clocks : Clocks} {sv : AbsSVal}
    {raced : Bool}
    (verdict : (AbsSVal.C rmin wmin).read clocks = .ok (sv, raced)) :
    (raced = true ↔ ¬ rmin ≤ clocks.vR) ∧
      (raced = false → sv = .C rmin (wmin.join clocks.vW)) := by
  simp only [AbsSVal.read] at verdict
  split at verdict
  · rename_i ordered
    cases verdict
    exact ⟨by simp [ordered], fun _ => rfl⟩
  · rename_i unordered
    have isRace := AbsSVal.raced_eq_ok verdict
    exact ⟨by simp [isRace, unordered], by simp [isRace]⟩

theorem AbsSVal.write_eq_ok {rmin wmin : VTS} {clocks : Clocks} {sv : AbsSVal}
    {raced : Bool}
    (verdict : (AbsSVal.C rmin wmin).write clocks = .ok (sv, raced)) :
    (raced = true ↔ ¬ wmin ≤ clocks.vW) ∧
      (raced = false → sv = .C clocks.vW clocks.vW) := by
  simp only [AbsSVal.write] at verdict
  split at verdict
  · rename_i ordered
    cases verdict
    exact ⟨by simp [ordered], fun _ => rfl⟩
  · rename_i unordered
    have isRace := AbsSVal.raced_eq_ok verdict
    exact ⟨by simp [isRace, unordered], by simp [isRace]⟩

/-- The earlier accesses in conflict with `y`. -/
def LocOp.conflicts (y x : LocOp) : Bool :=
  x.isAccess && (x.isWrite || y.isWrite)

/-- An access is reported unless its stamp covers all it conflicts with. -/
theorem Bounded.reported_iff {isWrite : Bool} {thr : Nat} {clocks : Clocks}
    (bounded : Bounded root hist c k n m)
    (atN : hist[n]? = some (.access isWrite thr))
    (known : m.hb.thrs thr = some clocks)
    (accessed : AbsMachine.ByteAccessed isWrite clocks m after c) :
    reportsOn m.races c < reportsOn after.races c ↔
      ¬ Loc.Covers root hist k n (LocOp.conflicts (.access isWrite thr))
        (Causality.stampAt root (hist.map LocOp.act) n) := by
  obtain ⟨rmin, wmin, value, writes, accesses⟩ := bounded.value
  obtain ⟨-, same, stamp⟩ :=
    bounded.traced.actor atN (LocOp.act_access isWrite thr) known
  obtain ⟨raced, verdict, count⟩ := accessed
  have counted : reportsOn m.races c < reportsOn after.races c ↔
      raced = true := by
    rw [count]
    cases raced <;> simp
  rw [counted]
  rw [value] at verdict
  cases isWrite with
  | false =>
      have selected : LocOp.conflicts (.access false thr) =
          LocOp.isWrite := by
        funext x
        cases x <;> rfl
      rw [(AbsSVal.read_eq_ok verdict).1, selected,
        Loc.covers_iff_le writes stamp]
  | true =>
      have selected : LocOp.conflicts (.access true thr) =
          LocOp.isAccess := by
        funext x
        cases x <;> rfl
      rw [(AbsSVal.write_eq_ok verdict).1, selected, same,
        Loc.covers_iff_le accesses stamp]

theorem Bounded.accessed {isWrite : Bool} {thr : Nat} {clocks : Clocks}
    (bounded : Bounded root hist c k n m)
    (atN : hist[n]? = some (.access isWrite thr))
    (known : m.hb.thrs thr = some clocks) (hb : after.hb = m.hb)
    (accessed : AbsMachine.ByteAccessed isWrite clocks m after c)
    (silent : reportsOn after.races c = reportsOn m.races c) :
    Bounded root hist c k (n + 1) after := by
  have inside := bounded.started
  obtain ⟨rmin, wmin, value, writes, accesses⟩ := bounded.value
  obtain ⟨traced, same, stamp⟩ :=
    bounded.traced.actor atN (LocOp.act_access isWrite thr) known
  rw [← hb] at traced
  obtain ⟨raced, verdict, count⟩ := accessed
  obtain rfl : raced = false := by
    cases raced with
    | false => rfl
    | true =>
        rw [if_pos rfl] at count
        omega
  rw [value] at verdict
  refine ⟨traced, by omega, ?_⟩
  cases isWrite with
  | false =>
      refine ⟨_, _, (AbsSVal.read_eq_ok verdict).2 rfl,
        writes.skip atN inside rfl, ?_⟩
      rw [same]
      exact accesses.join atN inside rfl stamp
  | true =>
      obtain ⟨onlyIf, moved⟩ := AbsSVal.write_eq_ok verdict
      have below : wmin ≤ clocks.vW := by simpa using onlyIf
      rw [same] at moved below
      have all := (Loc.covers_iff_le accesses stamp).mpr below
      have some : Loc.Covers root hist k n LocOp.isWrite
          (Causality.stampAt root (hist.map LocOp.act) n) := by
        intro i op above before atI isWrite
        apply all i op above before atI
        cases op <;> simp_all [LocOp.isWrite, LocOp.isAccess]
      rw [← stamp] at all some
      exact ⟨_, _, moved rfl, .replace some atN inside rfl stamp,
        .replace all atN inside rfl stamp⟩

theorem Bounded.byteStep (bounded : Bounded root hist c k n m)
    (step : AbsMachine.ByteStep c op m after (some y))
    (continues : op.Continues c = true) (atN : hist[n]? = some y)
    (silent : reportsOn after.races c = reportsOn m.races c) :
    Bounded root hist c k (n + 1) after := by
  have traced := bounded.traced.byteStep step atN
  cases step with
  | sync strong stepped map count =>
      obtain ⟨rmin, wmin, value, writes, accesses⟩ := bounded.value
      have inside := bounded.started
      exact ⟨traced, by omega, rmin, wmin, map.trans value,
        writes.skip atN inside rfl, accesses.skip atN inside rfl⟩
  | access known hb accessed =>
      exact bounded.accessed atN known hb accessed silent
  | rangeNew ends known hb map count =>
      rw [continues] at ends
      cases ends

theorem Traced.rangeNew {thr : Nat} (traced : Traced root hist n m.hb)
    (step : AbsMachine.ByteStep c op m after (some (.rangeNew thr)))
    (atN : hist[n]? = some (.rangeNew thr)) :
    Bounded root hist c n (n + 1) after := by
  refine ⟨traced.byteStep step atN, n.le_succ, ?_⟩
  generalize same : LocOp.rangeNew thr = y at step
  cases step with
  | sync => cases same
  | @access isWrite => cases isWrite <;> cases same
  | @rangeNew thr' clocks ends known hb map count =>
      cases same
      obtain ⟨-, same, stamp⟩ := traced.actor atN rfl known
      have none : ∀ select, Loc.Covers root hist n n select
          clocks.vR.indexAt := by
        intro select i op above below
        omega
      rw [same] at map
      exact ⟨_, _, map, .replace (none _) atN le_rfl rfl stamp,
        .replace (none _) atN le_rfl rfl stamp⟩

/-- The rule for an invariant that follows the history of a byte. -/
theorem AbsMachine.foldlM_history {P : Nat → AbsMachine → Prop}
    {ops : List MachineOp} {back : List LocOp}
    (kept : ∀ op ∈ ops, ∀ n m after, m.perform op = .ok after → P n m →
      match op.onByte c with
      | none => P n after
      | some y => hist[n]? = some y → P (n + 1) after)
    (at_ : hist.drop n = MachineOp.history c ops ++ back) (holds : P n m)
    (done : ops.foldlM perform m = .ok after) :
    P (n + (MachineOp.history c ops).length) after := by
  induction ops generalizing n m with
  | nil =>
      cases done
      exact holds
  | cons op ops induction =>
      rw [List.foldlM_cons] at done
      obtain ⟨middle, stepped, rest⟩ := bind_eq_ok.mp done
      have here := kept op List.mem_cons_self n m middle stepped holds
      have later := fun op inside => kept op (List.mem_cons_of_mem _ inside)
      cases onByte : op.onByte c with
      | none =>
          have same : MachineOp.history c (op :: ops) =
              MachineOp.history c ops := List.filterMap_cons_none onByte
          rw [onByte] at here
          rw [same] at at_ ⊢
          exact induction later at_ here rest
      | some y =>
          have more : MachineOp.history c (op :: ops) =
              y :: MachineOp.history c ops :=
            List.filterMap_cons_some onByte
          rw [onByte] at here
          rw [more] at at_ ⊢
          have atN : hist[n]? = some y := by
            rw [← Nat.add_zero n, ← List.getElem?_drop, at_]
            rfl
          have at' : hist.drop (n + 1) = MachineOp.history c ops ++ back := by
            rw [← List.drop_drop, at_]
            rfl
          have ended := induction later at' (here atN) rest
          rw [List.length_cons, Nat.add_comm _ 1, ← Nat.add_assoc]
          exact ended

theorem Traced.foldlM {ops : List MachineOp} {back : List LocOp}
    (ordinary : ∀ op ∈ ops, op.Ordinary = true)
    (at_ : hist.drop n = MachineOp.history c ops ++ back)
    (traced : Traced root hist n m.hb)
    (done : ops.foldlM AbsMachine.perform m = .ok after) :
    Traced root hist (n + (MachineOp.history c ops).length) after.hb := by
  refine AbsMachine.foldlM_history (P := fun n m => Traced root hist n m.hb)
    ?_ at_ traced done
  intro op member n m middle stepped traced
  have step := AbsMachine.perform_byteStep (c := c) (ordinary op member) stepped
  cases onByte : op.onByte c with
  | none =>
      rw [onByte] at step
      cases step with
      | other hb map count =>
          dsimp only
          rw [hb]
          exact traced
  | some y =>
      rw [onByte] at step
      exact traced.byteStep step

theorem Bounded.foldlM {ops : List MachineOp} {back : List LocOp}
    (ordinary : ∀ op ∈ ops, op.Ordinary = true)
    (continues : ∀ op ∈ ops, op.Continues c = true)
    (at_ : hist.drop n = MachineOp.history c ops ++ back)
    (bounded : Bounded root hist c k n m)
    (done : ops.foldlM AbsMachine.perform m = .ok after)
    (silent : reportsOn after.races c ≤ reportsOn m.races c) :
    Bounded root hist c k (n + (MachineOp.history c ops).length) after := by
  -- Reports are never withdrawn, so there are none in between either.
  suffices along : reportsOn m.races c ≤ reportsOn after.races c ∧
      (reportsOn after.races c = reportsOn m.races c →
        Bounded root hist c k (n + (MachineOp.history c ops).length)
          after) from
    along.2 (Nat.le_antisymm silent along.1)
  refine AbsMachine.foldlM_history
    (P := fun n middle => reportsOn m.races c ≤ reportsOn middle.races c ∧
      (reportsOn middle.races c = reportsOn m.races c →
        Bounded root hist c k n middle))
    ?_ at_ ⟨le_rfl, fun _ => bounded⟩ done
  rintro op member n middle next stepped ⟨more, bounded⟩
  have step := AbsMachine.perform_byteStep (c := c) (ordinary op member) stepped
  have grown := step.count_le
  cases onByte : op.onByte c with
  | none =>
      rw [onByte] at step
      cases step with
      | other hb map count =>
          refine ⟨by omega, fun same => ?_⟩
          obtain ⟨traced, started, value⟩ := bounded (by omega)
          refine ⟨hb ▸ traced, started, ?_⟩
          rw [map (continues op member)]
          exact value
  | some y =>
      rw [onByte] at step
      refine fun atN => ⟨by omega, fun same => ?_⟩
      exact (bounded (by omega)).byteStep step (continues op member) atN
        (by omega)

theorem Traced.legal {hb : AbsHb} (traced : Traced root hist hist.length hb) :
    Causality.Legal root (hist.map LocOp.act) := by
  intro n act atN
  obtain ⟨op, atOp, rfl⟩ : ∃ op, hist[n]? = some op ∧ op.act = act := by
    simpa using atN
  exact traced.allowed n op (List.getElem?_eq_some_iff.mp atOp).1 atOp

/-- The `n`th operation of a history conflicts with an earlier one, from the
`k`th on, that does not happen before it. -/
def UnorderedConflict (hist : List LocOp) (k n : Nat) : Prop :=
  ∃ i x y, k ≤ i ∧ i < n ∧ hist[i]? = some x ∧ hist[n]? = some y ∧
    x.isAccess = true ∧ (x.isWrite = true ∨ y.isWrite = true) ∧
    ¬ Causality.HappensBefore (hist.map LocOp.act) i n

theorem not_covers_iff (legal : Causality.Legal root (hist.map LocOp.act))
    (atN : hist[n]? = some y) :
    ¬ Loc.Covers root hist k n (LocOp.conflicts y)
        (Causality.stampAt root (hist.map LocOp.act) n) ↔
      UnorderedConflict hist k n := by
  have actN : (hist.map LocOp.act)[n]? = some y.act := by simp [atN]
  unfold Loc.Covers UnorderedConflict
  push Not
  apply exists_congr
  intro i
  apply exists_congr
  intro x
  constructor
  · rintro ⟨above, below, atI, conflict, exceeds⟩
    have actI : (hist.map LocOp.act)[i]? = some x.act := by simp [atI]
    rw [LocOp.conflicts, Bool.and_eq_true, Bool.or_eq_true] at conflict
    refine ⟨y, above, below, atI, atN, conflict.1, conflict.2, ?_⟩
    rw [← legal.stampAt_le_iff_of_lt below actI actN]
    push Not
    exact exceeds
  · rintro ⟨y', above, below, atI, atN', isAccess, conflict, unordered⟩
    have actI : (hist.map LocOp.act)[i]? = some x.act := by simp [atI]
    rw [atN] at atN'
    cases atN'
    rw [← legal.stampAt_le_iff_of_lt below actI actN] at unordered
    push Not at unordered
    refine ⟨above, below, atI, ?_, unordered⟩
    rw [LocOp.conflicts, Bool.and_eq_true, Bool.or_eq_true]
    exact ⟨isAccess, conflict⟩

end History

namespace Machine

/-- `new` has made the byte new, and it has not been reported since. -/
structure NewSince (root c : Nat) (before : List MachineOp) (new : MachineOp)
    (since : List MachineOp) (s : Machine) : Prop where
  ordinary : ∀ op ∈ before ++ new :: since, op.Ordinary = true
  makes : ∃ thr, new.onByte c = some (.rangeNew thr)
  continues : ∀ op ∈ since, op.Continues c = true
  silent : ∃ made, run root (before ++ [new]) = .ok made ∧
    since.foldlM perform made = .ok s ∧ ¬ Reported made s c

/-- What a machine on a plain map has established, read off its run. -/
theorem NewSince.bounded {root c : Nat} {before since : List MachineOp}
    {new : MachineOp} {s : Machine}
    (newSince : NewSince root c before new since s) (back : List LocOp) :
    ∃ m, Sim s m ∧
      Bounded root (MachineOp.history c (before ++ new :: since) ++ back) c
        (MachineOp.history c before).length
        (MachineOp.history c (before ++ new :: since)).length m := by
  obtain ⟨ordinary, ⟨thr, makes⟩, continues, made, ran, rest, silent⟩ :=
    newSince
  obtain ⟨m₁, plain, sim₁⟩ := (run_agrees root _).eq_ok ran
  have agrees : Agrees (since.foldlM perform made)
      (since.foldlM AbsMachine.perform m₁) Sim :=
    Agrees.foldlM (fun op _ _ sim => perform_agrees sim op) since sim₁
  obtain ⟨m₂, plain₂, sim₂⟩ := agrees.eq_ok rest
  unfold AbsMachine.run at plain
  rw [List.foldlM_append] at plain
  obtain ⟨m₀, plain₀, last⟩ := bind_eq_ok.mp plain
  simp only [List.foldlM_cons, List.foldlM_nil, bind_pure] at last
  -- the history is that of `before`, then `new`, then that of `since`
  have parts : MachineOp.history c (before ++ new :: since) =
      MachineOp.history c before ++
        (.rangeNew thr :: MachineOp.history c since) := by
    rw [MachineOp.history_append]
    congr 1
    exact List.filterMap_cons_some makes
  have length : (MachineOp.history c (before ++ new :: since)).length =
      (MachineOp.history c before).length + 1 +
        (MachineOp.history c since).length := by
    rw [parts, List.length_append, List.length_cons]
    omega
  generalize whole :
    MachineOp.history c (before ++ new :: since) ++ back = hist
  rw [parts, List.append_assoc] at whole
  have started : Traced root hist 0 (AbsMachine.init root).hb :=
    ⟨AbsHb.Tracks.init root, fun i op before => by omega⟩
  have traced := started.foldlM
    (fun op member => ordinary op (List.mem_append_left _ member))
    (by rw [List.drop_zero, whole]) plain₀
  rw [Nat.zero_add] at traced
  have atNew : hist[(MachineOp.history c before).length]? =
      some (.rangeNew thr) := by
    rw [← whole, List.getElem?_append_right le_rfl, Nat.sub_self]
    rfl
  have step := AbsMachine.perform_byteStep (c := c)
    (ordinary new (List.mem_append_right _ List.mem_cons_self)) last
  rw [makes] at step
  have bounded := traced.rangeNew step atNew
  have atSince : hist.drop ((MachineOp.history c before).length + 1) =
      MachineOp.history c since ++ back := by
    rw [← whole, ← List.drop_drop, List.drop_left]
    rfl
  refine ⟨m₂, sim₂, ?_⟩
  rw [length]
  refine bounded.foldlM (fun op member => ordinary op
      (List.mem_append_right _ (List.mem_cons_of_mem _ member)))
    continues atSince plain₂ ?_
  unfold Reported at silent
  rw [reportsOn_eq sim₁, reportsOn_eq sim₂] at silent
  exact Nat.le_of_not_lt silent

/-- Whatever the cache, the compression, the recycling of ids and the
collections do: the first race on a byte is reported exactly. -/
theorem first_race_exact {root c thr : Nat} {before since : List MachineOp}
    {new op : MachineOp} {s after : Machine} {isWrite : Bool}
    (newSince : NewSince root c before new since s)
    (access : op.onByte c = some (.access isWrite thr))
    (stepped : s.perform op = .ok after) :
    Reported s after c ↔ UnorderedConflict
      (MachineOp.history c (before ++ new :: since ++ [op]))
      (MachineOp.history c before).length
      (MachineOp.history c (before ++ new :: since)).length := by
  have ordinary : op.Ordinary = true := by
    cases op with
    | hb call =>
        cases call with
        | sync => cases isWrite <;> cases access
        | soJoin | soExtract | soEverSent => cases access
    | apply | readN | writeN | rangeNew | rangeNoaccess | copyRange
    | maybeGC => rfl
  have last : MachineOp.history c [op] = [.access isWrite thr] :=
    List.filterMap_cons_some access
  rw [MachineOp.history_append, last]
  obtain ⟨m, sim, bounded⟩ := newSince.bounded [.access isWrite thr]
  obtain ⟨m', plain, sim'⟩ := (perform_agrees sim op).eq_ok stepped
  have step := AbsMachine.perform_byteStep (c := c) ordinary plain
  rw [access] at step
  obtain ⟨clocks, known, accessed⟩ := step.accessed
  generalize MachineOp.history c (before ++ new :: since) = past at bounded ⊢
  have atN : (past ++ [LocOp.access isWrite thr])[past.length]? =
      some (.access isWrite thr) := List.getElem?_concat_length
  have traced := bounded.traced.byteStep step atN
  have length : past.length + 1 =
      (past ++ [LocOp.access isWrite thr]).length := by simp
  rw [length] at traced
  unfold Reported
  rw [reportsOn_eq sim, reportsOn_eq sim',
    bounded.reported_iff atN known accessed]
  exact not_covers_iff traced.legal atN

/-- Thread 1 makes sixteen bytes new and writes four of them, there is a
collection, and thread 2, created before, reads one of them: nothing orders
the read after the write. -/
theorem first_race_exact_unordered : ∃ s after,
    NewSince 1 4098 [.hb (.sync (.create 1 2))] (.rangeNew 1 4096 16)
      [.apply true .w32 1 4096, .maybeGC true] s ∧
    s.perform (.apply false .w8 2 4098) = .ok after ∧
    Reported s after 4098 ∧
    UnorderedConflict
      [.sync (.create 1 2), .rangeNew 1, .write 1, .read 2] 1 3 := by
  have seen : ((run 1 [.hb (.sync (.create 1 2)),
      .rangeNew 1 4096 16]).toOption.map fun made =>
        (reportsOn made.2.races 4098,
          ([.apply true .w32 1 4096, .maybeGC true].foldlM perform
            made).toOption.map fun s =>
              (reportsOn s.2.races 4098,
                (s.perform (.apply false .w8 2 4098)).toOption.map
                  (reportsOn ·.2.races 4098)))) =
      some (0, some (0, some 1)) := by
    decide +kernel
  obtain ⟨made, ran, counts⟩ := exists_ok_of_map seen
  simp only [Prod.mk.injEq] at counts
  obtain ⟨before, later⟩ := counts
  obtain ⟨s, rest, counts⟩ := exists_ok_of_map later
  simp only [Prod.mk.injEq] at counts
  obtain ⟨quiet, last⟩ := counts
  obtain ⟨after, stepped, one⟩ := exists_ok_of_map last
  have newSince : NewSince 1 4098 [.hb (.sync (.create 1 2))]
      (.rangeNew 1 4096 16) [.apply true .w32 1 4096, .maybeGC true] s := by
    refine ⟨by decide, ⟨1, rfl⟩, by decide, made, ran, rest, ?_⟩
    unfold Reported
    omega
  have reported : Reported s after 4098 := by
    unfold Reported
    omega
  refine ⟨s, after, newSince, stepped, reported, ?_⟩
  exact (first_race_exact newSince rfl stepped).mp reported

end Machine

end HelgrindPlus
