import HelgrindPlus.LibHB.OwnClocks
import HelgrindPlus.LibHB.UkaSync

/-!
# Recorded signals

The part of `hg_lsd.c` that relates what a thread wrote before a signal to what
another one has read, with the option `--lost-signal-detector` at its highest
level.  The functions on synchronisation objects that it calls differ between
the builds; they are collected in `LibHB`.

A `ThrLSD` has the number of its thread, which also names its `Thr`.
-/

namespace HelgrindPlus

open Outcome

inductive Build where
  | default | ukas | ukal
  deriving DecidableEq, Repr

/-- The functions of the clock interface, and the clocks that threads and
objects hold. -/
structure LibHB (σ κ : Type) where
  init : Nat → Except Abort σ
  perform : σ → HbOp → Except Abort σ
  soAlloc : σ → Nat → Except Abort σ
  soDealloc : σ → Nat → Except Abort σ
  soJoin : σ → Nat → Nat → Except Abort σ
  soExtract : σ → Nat → Nat → Except Abort σ
  thrClock : σ → Nat → Option κ
  soClock : σ → Nat → Option κ

/-- The timestamps that two ids stand for. -/
def VtsTab.clocks (tab : VtsTab) (viR viW : Nat) : Option Clocks := do
  let vR ← tab.clock viR
  let vW ← tab.clock viW
  pure ⟨vR, vW⟩

def Hb.thrClock (hb : Hb) (thr : Nat) : Option Clocks := do
  let t ← hb.thrs.lookup thr
  hb.tab.clocks t.viR t.viW

def Hb.soClock (hb : Hb) (so : Nat) : Option Clocks := do
  let record ← hb.sos.lookup so
  let viR ← record.viR
  let viW ← record.viW
  hb.tab.clocks viR viW

def Hb.lib : LibHB Hb Clocks where
  init := Hb.init
  perform := Hb.perform
  soAlloc := Hb.soAlloc
  soDealloc := Hb.soDealloc
  soJoin := Hb.soJoin
  soExtract := Hb.soExtract
  thrClock := Hb.thrClock
  soClock := Hb.soClock

def UkaHb.thrClock (hb : UkaHb) (thr : Nat) : Option VTS := do
  let vid ← hb.thrs.lookup thr
  hb.tab.clock vid

def UkaHb.soClock (hb : UkaHb) (so : Nat) : Option VTS := do
  let record ← hb.sos.lookup so
  let vid ← record
  hb.tab.clock vid

def UkaHb.lib : LibHB UkaHb VTS where
  init := UkaHb.init
  perform := UkaHb.perform
  soAlloc := UkaHb.soAlloc
  soDealloc := UkaHb.soDealloc
  soJoin := UkaHb.soJoin
  soExtract := UkaHb.soExtract
  thrClock := UkaHb.thrClock
  soClock := UkaHb.soClock

def accesslistSize : Nat := 100

/-- The entries of `addrs` up to `size`. -/
structure AccessList where
  addrs : List Nat
  iterating : Bool
  so : Option Nat
  deriving DecidableEq

namespace AccessList

/-- A list from `HG_(zalloc)`. -/
def new : AccessList := ⟨[], false, none⟩

def clear (al : AccessList) : AccessList :=
  { al with addrs := [], iterating := false }

def add (al : AccessList) (addr : Nat) : AccessList :=
  if al.addrs.length < accesslistSize then
    { al with addrs := al.addrs ++ [addr] }
  else al

/-- A loop between `alist_iterate_begin` and `alist_iterate_end`. -/
def iterate (al : AccessList) : Except Abort (List Nat) := do
  tlAssert (al.iterating = false)
  pure al.addrs

end AccessList

structure ThrLSD where
  writes : AccessList
  reads : AccessList
  recordWrites : Bool
  recordReads : Bool
  waiting : Bool
  deriving DecidableEq

def ThrLSD.new : ThrLSD := ⟨.new, .new, false, false, false⟩

def recordedSignalsSize : Nat := 8

structure CondVar where
  signaled : Bool
  recordedSignals : List (Option AccessList)
  deriving DecidableEq

/-- The function `mk_CondVar`. -/
def CondVar.new : CondVar :=
  ⟨false, List.replicate recordedSignalsSize none⟩

/-- The loop of `hg_lsd__cond_signal_pre` that moves every record up. -/
def shiftSignals (recorded : List (Option AccessList)) :
    List (Option AccessList) :=
  (List.range (recordedSignalsSize - 1)).reverse.foldl
    (fun recorded i => recorded.set (i + 1) (recorded.getD i none)) recorded

structure Lsd (σ : Type) where
  libhb : σ
  thrs : AList (fun _ : Nat => ThrLSD)
  conds : AList (fun _ : Nat => CondVar)

namespace Lsd

variable {σ κ : Type}

def getThr (st : Lsd σ) (thr : Nat) : Except Abort ThrLSD :=
  match st.thrs.lookup thr with
  | some me => .ok me
  | none => .error .dangling

def setThr (st : Lsd σ) (thr : Nat) (me : ThrLSD) : Lsd σ :=
  { st with thrs := st.thrs.insert thr me }

/-- The function `lookup_CondVar`; the caller stores the variable. -/
def lookupCondVar (st : Lsd σ) (cond : Nat) : CondVar :=
  (st.conds.lookup cond).getD .new

def setSignaled (st : Lsd σ) (cond : Nat) (signaled : Bool) : Lsd σ :=
  { st with conds := st.conds.insert cond
              { st.lookupCondVar cond with signaled := signaled } }

def mutexLock (st : Lsd σ) (thr : Nat) : Except Abort (Lsd σ) := do
  let me ← st.getThr thr
  let me := if me.waiting then me
    else { me with writes := me.writes.clear, reads := me.reads.clear }
  pure (st.setThr thr { me with recordWrites := true, recordReads := true })

def mutexUnlock (st : Lsd σ) (thr : Nat) : Except Abort (Lsd σ) := do
  let me ← st.getThr thr
  pure (st.setThr thr { me with recordWrites := false, recordReads := false })

/-- The function `hg_lsd__rec_write`; `ignored` is what its tests of the
section and the stack say of the address. -/
def recWrite (st : Lsd σ) (thr a : Nat) (ignored : Bool) :
    Except Abort (Lsd σ) := do
  let me ← st.getThr thr
  pure (if me.recordWrites && !ignored then
    st.setThr thr { me with writes := me.writes.add a } else st)

def recRead (st : Lsd σ) (thr a : Nat) (ignored : Bool) :
    Except Abort (Lsd σ) := do
  let me ← st.getThr thr
  pure (if me.recordReads && !ignored then
    st.setThr thr { me with reads := me.reads.add a } else st)

def condWaitPre (st : Lsd σ) (thr : Nat) : Except Abort (Lsd σ) := do
  let me ← st.getThr thr
  tlAssert (me.waiting = false)
  pure (st.setThr thr { me with waiting := true })

/-- What `hg_lsd__cond_wait_post` and `hg_lsd__cond_wait_timeout` do to the
flag. -/
def condWaitPost (st : Lsd σ) (thr : Nat) : Except Abort (Lsd σ) := do
  let me ← st.getThr thr
  tlAssert (me.waiting = true)
  pure (st.setThr thr { me with waiting := false })

/-- The latest record is forgotten with its object. -/
def forget (lib : LibHB σ κ) (libhb : σ) :
    Option AccessList → Except Abort σ
  | none => .ok libhb
  | some al =>
      match al.so with
      | none => .error .tlAssert
      | some so => lib.soDealloc libhb so

def condSignalPre (lib : LibHB σ κ) (st : Lsd σ) (thr cond fresh : Nat) :
    Except Abort (Lsd σ) := do
  let me ← st.getThr thr
  let cv := st.lookupCondVar cond
  let libhb ← forget lib st.libhb
    (cv.recordedSignals.getD (recordedSignalsSize - 1) none)
  let libhb ← lib.soExtract libhb thr fresh
  let recorded := (shiftSignals cv.recordedSignals).set 0
    (some { me.writes with so := some fresh })
  pure {
    libhb := libhb
    thrs := st.thrs.insert thr { me with writes := .new }
    conds := st.conds.insert cond ⟨true, recorded⟩ }

/-- The scores of the records before the first `NULL`. -/
def scores (set : List Nat) : List (Option AccessList) →
    Except Abort (List Nat)
  | [] | none :: _ => .ok []
  | some al :: rest => do
      let addrs ← al.iterate
      let more ← scores set rest
      pure (addrs.countP (· ∈ set) :: more)

def joinRecord (lib : LibHB σ κ) (so best : Nat) (libhb : σ) (score : Nat)
    (al : AccessList) : Except Abort σ :=
  if score = best then
    match al.so with
    | none => .error .tlAssert
    | some other => lib.soJoin libhb so other
  else .ok libhb

/-- The second loop of `hg_lsd__cond_direct_so`. -/
def joinBest (lib : LibHB σ κ) (so best : Nat) : List (Option AccessList) →
    List Nat → σ → Except Abort σ
  | some al :: rest, score :: scores, libhb => do
      let libhb ← joinRecord lib so best libhb score al
      joinBest lib so best rest scores libhb
  | _, _, libhb => .ok libhb

def condDirectSo (lib : LibHB σ κ) (st : Lsd σ) (thr cond fresh : Nat) :
    Except Abort (Lsd σ × Option Nat) := do
  let me ← st.getThr thr
  let cv := st.lookupCondVar cond
  let st := st.setSignaled cond false
  let set ← me.reads.iterate
  let scores ← scores set cv.recordedSignals
  let best := scores.foldl max 0
  if best = 0 then pure (st, none)
  else do
    let libhb ← lib.soAlloc st.libhb fresh
    let libhb ← joinBest lib fresh best cv.recordedSignals scores libhb
    pure ({ st with libhb := libhb }, some fresh)

/-- The objects of the recorded signals. -/
def recordedSOs (st : Lsd σ) : List Nat :=
  st.conds.entries.flatMap fun entry =>
    entry.2.recordedSignals.filterMap fun record => record.bind (·.so)

end Lsd

/-- The objects that an operation names. -/
def HbOp.sos : HbOp → List Nat
  | .sync (.create _ _) => []
  | .sync (.soAlloc _ so) | .sync (.soDealloc _ so) | .sync (.soSend _ so _)
  | .sync (.soRecv _ so _) | .soExtract _ so | .soEverSent so => [so]
  | .soJoin so1 so2 => [so1, so2]

inductive LsdOp where
  | hb (op : HbOp)
  | createThrLSD (thr : Nat)
  | mutexLock (thr : Nat)
  | mutexUnlock (thr : Nat)
  | recWrite (thr a : Nat) (ignored : Bool)
  | recRead (thr a : Nat) (ignored : Bool)
  | condWaitPre (thr : Nat)
  | condWaitPost (thr : Nat)
  | condSignalPre (thr cond fresh : Nat)
  | condDirectSo (thr cond fresh : Nat)
  deriving DecidableEq

/-- A signal, with what the thread had written and its clock. -/
structure Signal (κ : Type) where
  cond : Nat
  writes : List Nat
  clock : Option κ

namespace Lsd

variable {σ κ : Type}

/-- One call.  Nobody else has the objects of the recorded signals. -/
def perform (lib : LibHB σ κ) (st : Lsd σ) : LsdOp → Except Abort (Lsd σ)
  | .hb op =>
      if op.sos.any (· ∈ st.recordedSOs) then .error .dangling
      else do
        let libhb ← lib.perform st.libhb op
        pure { st with libhb := libhb }
  | .createThrLSD thr => .ok (st.setThr thr .new)
  | .mutexLock thr => st.mutexLock thr
  | .mutexUnlock thr => st.mutexUnlock thr
  | .recWrite thr a ignored => st.recWrite thr a ignored
  | .recRead thr a ignored => st.recRead thr a ignored
  | .condWaitPre thr => st.condWaitPre thr
  | .condWaitPost thr => st.condWaitPost thr
  | .condSignalPre thr cond fresh => st.condSignalPre lib thr cond fresh
  | .condDirectSo thr cond fresh => do
      let (st, _) ← st.condDirectSo lib thr cond fresh
      pure st

/-- The signal that a call records. -/
def signalOf (lib : LibHB σ κ) (st : Lsd σ) : LsdOp → List (Signal κ)
  | .condSignalPre thr cond _ =>
      [⟨cond, ((st.thrs.lookup thr).map (·.writes.addrs)).getD [],
        lib.thrClock st.libhb thr⟩]
  | _ => []

def performLogged (lib : LibHB σ κ) (acc : Lsd σ × List (Signal κ))
    (op : LsdOp) : Except Abort (Lsd σ × List (Signal κ)) := do
  let st ← acc.1.perform lib op
  pure (st, acc.2 ++ signalOf lib acc.1 op)

/-- A run, with the signals of it. -/
def run (lib : LibHB σ κ) (root : Nat) (ops : List LsdOp) :
    Except Abort (Lsd σ × List (Signal κ)) := do
  let libhb ← lib.init root
  ops.foldlM (performLogged lib) (⟨libhb, ∅, ∅⟩, [])

end Lsd

/-- The laws that hold in every build, in states that satisfy `inv`. -/
structure LibHB.Lawful {σ κ : Type} (lib : LibHB σ κ) (inv : σ → Prop) :
    Prop where
  init : ∀ {root s}, lib.init root = .ok s → inv s
  perform : ∀ {s s' op}, inv s → lib.perform s op = .ok s' →
    inv s' ∧ ∀ so, so ∉ op.sos → lib.soClock s' so = lib.soClock s so
  soAlloc : ∀ {s s' so}, inv s → lib.soAlloc s so = .ok s' →
    inv s' ∧ lib.soClock s so = none ∧
      ∀ other, other ≠ so → lib.soClock s' other = lib.soClock s other
  soDealloc : ∀ {s s' so}, inv s → lib.soDealloc s so = .ok s' →
    inv s' ∧ (∀ thr, lib.thrClock s' thr = lib.thrClock s thr) ∧
      ∀ other, other ≠ so → lib.soClock s' other = lib.soClock s other
  soJoin : ∀ {s s' so other}, inv s → lib.soJoin s so other = .ok s' →
    inv s' ∧ ∀ third, third ≠ so → lib.soClock s' third = lib.soClock s third
  soExtract : ∀ {s s' thr so}, inv s → lib.soExtract s thr so = .ok s' →
    inv s' ∧ lib.soClock s so = none ∧
      lib.soClock s' so = lib.thrClock s thr ∧
      (lib.thrClock s thr).isSome ∧
      ∀ other, other ≠ so → lib.soClock s' other = lib.soClock s other

namespace AbsHb

theorem soJoin_sos {abs abs' : AbsHb} {so1 so2 so : Nat}
    (done : abs.soJoin so1 so2 = .ok abs') (other : so ≠ so1) :
    abs'.sos so = abs.sos so := by
  unfold AbsHb.soJoin at done
  split at done
  · split at done
    · cases done
      rfl
    · split at done
      · cases done
        rfl
      · cases done
        exact Function.update_of_ne other _ _
      · cases done
      · cases done
  · cases done

theorem perform_sos {abs abs' : AbsHb} {op : HbOp} {so : Nat}
    (done : abs.perform op = .ok abs') (other : so ∉ op.sos) :
    abs'.sos so = abs.sos so := by
  cases op with
  | sync op =>
      simp only [AbsHb.perform] at done
      split at done
      · rename_i after stepped
        cases done
        cases op with
        | create thr child =>
            simp only [step, Option.bind_eq_bind, Option.bind_eq_some_iff,
              Option.ite_none_right_eq_some, Option.some.injEq] at stepped
            obtain ⟨_, _, _, rfl⟩ := stepped
            rfl
        | soAlloc thr so' =>
            simp only [step, Option.bind_eq_bind, Option.bind_eq_some_iff,
              Option.ite_none_right_eq_some, Option.some.injEq] at stepped
            obtain ⟨_, _, _, rfl⟩ := stepped
            exact Function.update_of_ne (List.ne_of_not_mem_cons other) _ _
        | soDealloc thr so' =>
            simp only [step, Option.bind_eq_bind, Option.bind_eq_some_iff,
              Option.some.injEq] at stepped
            obtain ⟨_, _, _, _, rfl⟩ := stepped
            exact Function.update_of_ne (List.ne_of_not_mem_cons other) _ _
        | soSend thr so' strong =>
            simp only [step, Option.bind_eq_bind, Option.bind_eq_some_iff,
              Option.some.injEq] at stepped
            obtain ⟨_, _, _, _, rfl⟩ := stepped
            exact Function.update_of_ne (List.ne_of_not_mem_cons other) _ _
        | soRecv thr so' strong =>
            simp only [step, Option.bind_eq_bind, Option.bind_eq_some_iff,
              Option.some.injEq] at stepped
            obtain ⟨_, _, _, _, rfl⟩ := stepped
            rfl
      · cases done
  | soJoin so1 so2 =>
      exact soJoin_sos done (List.ne_of_not_mem_cons other)
  | soExtract thr so' =>
      simp only [AbsHb.perform, AbsHb.soExtract] at done
      split at done
      · split at done
        · cases done
          exact Function.update_of_ne (List.ne_of_not_mem_cons other) _ _
        · cases done
      · cases done
  | soEverSent so' =>
      simp only [AbsHb.perform] at done
      split at done
      · cases done
        rfl
      · cases done

end AbsHb

namespace Hb

variable {hb hb' : Hb} {abs : AbsHb} {thr so : Nat}

theorem clocks_of_denotes {tab : VtsTab} {viR viW : Nat} {clocks : Clocks}
    (denotes : tab.Denotes viR viW clocks) :
    tab.clocks viR viW = some clocks := by
  unfold VtsTab.clocks
  rw [denotes.read, denotes.write]
  rfl

theorem Refines.thrClock_eq (refines : hb.Refines 0 abs) (thr : Nat) :
    hb.thrClock thr = abs.thrs thr := by
  unfold thrClock
  cases atThr : abs.thrs thr with
  | none =>
      rw [refines.thrs.of_none atThr]
      rfl
  | some clocks =>
      obtain ⟨t, bound, denotes⟩ := refines.thrs.of_some atThr
      rw [bound]
      exact clocks_of_denotes denotes

theorem Refines.soClock_eq (refines : hb.Refines 0 abs) (so : Nat) :
    hb.soClock so = (abs.sos so).join := by
  unfold soClock
  cases atSO : abs.sos so with
  | none =>
      rw [refines.sos.of_none atSO]
      rfl
  | some contents =>
      obtain ⟨record, bound, denotes⟩ := refines.sos.of_some atSO
      rw [bound]
      cases denotes with
      | empty => rfl
      | holds denotes => exact clocks_of_denotes denotes

theorem lib_lawful : Hb.lib.Lawful (fun hb => ∃ abs, hb.Refines 0 abs) where
  init started := ⟨_, (Refines.init _).of_eq_ok started⟩
  perform := by
    rintro hb hb' op ⟨abs, refines⟩ done
    obtain ⟨abs', performed, simulates⟩ := (perform_agrees refines op).eq_ok
      done
    refine ⟨⟨abs', simulates.1⟩, ?_⟩
    intro so other
    change hb'.soClock so = hb.soClock so
    rw [refines.soClock_eq, simulates.1.soClock_eq,
      AbsHb.perform_sos performed other]
  soAlloc := by
    rintro hb hb' so ⟨abs, refines⟩ done
    change hb.soAlloc so = .ok hb' at done
    cases unused : abs.unused so with
    | false =>
        unfold soAlloc at done
        rw [zalloc_of_used refines unused] at done
        cases done
    | true =>
        have after := (soAlloc_returns refines unused).of_eq_ok done
        simp only [AbsHb.unused, Bool.and_eq_true,
          Option.isNone_iff_eq_none] at unused
        refine ⟨⟨_, after.1⟩, ?_, ?_⟩
        · change hb.soClock so = none
          rw [refines.soClock_eq, unused.2]
          rfl
        · intro other different
          change hb'.soClock other = hb.soClock other
          rw [refines.soClock_eq, after.1.soClock_eq]
          exact congrArg Option.join (Function.update_of_ne different _ _)
  soDealloc := by
    rintro hb hb' so ⟨abs, refines⟩ done
    change hb.soDealloc so = .ok hb' at done
    cases atSO : abs.sos so with
    | none =>
        unfold soDealloc at done
        rw [getSO_of_none refines atSO] at done
        cases done
    | some contents =>
        have after := (soDealloc_returns refines atSO).of_eq_ok done
        refine ⟨⟨_, after.1⟩, ?_, ?_⟩
        · intro thr
          change hb'.thrClock thr = hb.thrClock thr
          rw [refines.thrClock_eq, after.1.thrClock_eq]
        · intro other different
          change hb'.soClock other = hb.soClock other
          rw [refines.soClock_eq, after.1.soClock_eq]
          exact congrArg Option.join (Function.update_of_ne different _ _)
  soJoin := by
    rintro hb hb' so other ⟨abs, refines⟩ done
    change hb.soJoin so other = .ok hb' at done
    obtain ⟨abs', joined, simulates⟩ :=
      (soJoin_agrees refines so other).eq_ok done
    refine ⟨⟨abs', simulates.1⟩, ?_⟩
    intro third different
    change hb'.soClock third = hb.soClock third
    rw [refines.soClock_eq, simulates.1.soClock_eq,
      AbsHb.soJoin_sos joined different]
  soExtract := by
    rintro hb hb' thr so ⟨abs, refines⟩ done
    change hb.soExtract thr so = .ok hb' at done
    obtain ⟨abs', extracted, simulates⟩ :=
      (soExtract_agrees refines thr so).eq_ok done
    unfold AbsHb.soExtract at extracted
    split at extracted
    · rename_i clocks atThr
      split at extracted
      · rename_i unused
        cases extracted
        simp only [AbsHb.unused, Bool.and_eq_true,
          Option.isNone_iff_eq_none] at unused
        refine ⟨⟨_, simulates.1⟩, ?_, ?_, ?_, ?_⟩
        · change hb.soClock so = none
          rw [refines.soClock_eq, unused.2]
          rfl
        · change hb'.soClock so = hb.thrClock thr
          rw [refines.thrClock_eq, simulates.1.soClock_eq, atThr]
          exact congrArg Option.join
            (Function.update_self so (some (some clocks)) abs.sos)
        · change (hb.thrClock thr).isSome
          rw [refines.thrClock_eq, atThr]
          rfl
        · intro other different
          change hb'.soClock other = hb.soClock other
          rw [refines.soClock_eq, simulates.1.soClock_eq]
          exact congrArg Option.join (Function.update_of_ne different _ _)
      · cases extracted
    · cases extracted

end Hb

namespace AbsUka

theorem getThr_eq_ok {abs : AbsUka} {thr : Nat} {clock : VTS}
    (found : abs.getThr thr = .ok clock) : abs.thrs thr = some clock := by
  unfold getThr at found
  split at found
  · rename_i atThr
    cases found
    exact atThr
  · cases found

theorem zalloc_eq_ok {abs : AbsUka} {addr : Nat} {done : Unit}
    (free : abs.zalloc addr = .ok done) : abs.sos addr = none := by
  unfold zalloc at free
  split at free
  · rename_i unused
    simp only [AbsUka.unused, Bool.and_eq_true,
      Option.isNone_iff_eq_none] at unused
    exact unused.2
  · cases free

theorem soJoin_sos {abs abs' : AbsUka} {so1 so2 so : Nat}
    (done : abs.soJoin so1 so2 = .ok abs') (other : so ≠ so1) :
    abs'.sos so = abs.sos so := by
  obtain ⟨_, -, done⟩ := bind_eq_ok.mp done
  obtain ⟨_, -, done⟩ := bind_eq_ok.mp done
  split at done
  · cases done
  · cases done
    exact Function.update_of_ne other _ _

theorem perform_sos {abs abs' : AbsUka} {op : HbOp} {so : Nat}
    (done : abs.perform op = .ok abs') (other : so ∉ op.sos) :
    abs'.sos so = abs.sos so := by
  cases op with
  | sync op =>
      cases op with
      | create thr child =>
          obtain ⟨_, -, done⟩ := bind_eq_ok.mp done
          obtain ⟨_, -, same⟩ := bind_eq_ok.mp done
          cases same
          rfl
      | soAlloc thr so' | soDealloc thr so' =>
          obtain ⟨_, -, done⟩ := bind_eq_ok.mp done
          obtain ⟨_, -, same⟩ := bind_eq_ok.mp done
          cases same
          exact Function.update_of_ne (List.ne_of_not_mem_cons other) _ _
      | soSend thr so' strong =>
          obtain ⟨_, -, done⟩ := bind_eq_ok.mp done
          obtain ⟨_, -, same⟩ := bind_eq_ok.mp done
          cases same
          exact Function.update_of_ne (List.ne_of_not_mem_cons other) _ _
      | soRecv thr so' strong =>
          obtain ⟨_, -, done⟩ := bind_eq_ok.mp done
          obtain ⟨_, -, same⟩ := bind_eq_ok.mp done
          cases same
          rfl
  | soJoin so1 so2 =>
      exact soJoin_sos done (List.ne_of_not_mem_cons other)
  | soExtract thr so' =>
      obtain ⟨_, -, done⟩ := bind_eq_ok.mp done
      obtain ⟨_, -, same⟩ := bind_eq_ok.mp done
      cases same
      exact Function.update_of_ne (List.ne_of_not_mem_cons other) _ _
  | soEverSent so' =>
      simp only [AbsUka.perform] at done
      split at done
      · cases done
        rfl
      · cases done

end AbsUka

namespace UkaHb

variable {hb hb' : UkaHb} {abs : AbsUka} {thr so : Nat}

theorem Refines.thrClock_eq (refines : hb.Refines 0 abs) (thr : Nat) :
    hb.thrClock thr = abs.thrs thr := by
  unfold thrClock
  cases atThr : abs.thrs thr with
  | none =>
      rw [refines.thrs.of_none atThr]
      rfl
  | some clock =>
      obtain ⟨vid, bound, known⟩ := refines.thrs.of_some atThr
      rw [bound]
      exact known

theorem Refines.soClock_eq (refines : hb.Refines 0 abs) (so : Nat) :
    hb.soClock so = (abs.sos so).join := by
  unfold soClock
  cases atSO : abs.sos so with
  | none =>
      rw [refines.sos.of_none atSO]
      rfl
  | some contents =>
      obtain ⟨record, bound, denotes⟩ := refines.sos.of_some atSO
      rw [bound]
      cases denotes with
      | empty => rfl
      | holds known => exact known

theorem lib_lawful :
    UkaHb.lib.Lawful (fun hb => ∃ abs, hb.Refines 0 abs) where
  init started := ⟨_, (Refines.init _).of_eq_ok started⟩
  perform := by
    rintro hb hb' op ⟨abs, refines⟩ done
    obtain ⟨abs', performed, simulates⟩ := (perform_agrees refines op).eq_ok
      done
    refine ⟨⟨abs', simulates.1⟩, ?_⟩
    intro so other
    change hb'.soClock so = hb.soClock so
    rw [refines.soClock_eq, simulates.1.soClock_eq,
      AbsUka.perform_sos performed other]
  soAlloc := by
    rintro hb hb' so ⟨abs, refines⟩ done
    change hb.soAlloc so = .ok hb' at done
    obtain ⟨abs', allocated, simulates⟩ := (soAlloc_agrees refines so).eq_ok
      done
    obtain ⟨_, free, same⟩ := bind_eq_ok.mp allocated
    cases same
    refine ⟨⟨_, simulates.1⟩, ?_, ?_⟩
    · change hb.soClock so = none
      rw [refines.soClock_eq, AbsUka.zalloc_eq_ok free]
      rfl
    · intro other different
      change hb'.soClock other = hb.soClock other
      rw [refines.soClock_eq, simulates.1.soClock_eq]
      exact congrArg Option.join (Function.update_of_ne different _ _)
  soDealloc := by
    rintro hb hb' so ⟨abs, refines⟩ done
    change hb.soDealloc so = .ok hb' at done
    obtain ⟨abs', freed, simulates⟩ := (soDealloc_agrees refines so).eq_ok
      done
    obtain ⟨_, -, same⟩ := bind_eq_ok.mp freed
    cases same
    refine ⟨⟨_, simulates.1⟩, ?_, ?_⟩
    · intro thr
      change hb'.thrClock thr = hb.thrClock thr
      rw [refines.thrClock_eq, simulates.1.thrClock_eq]
    · intro other different
      change hb'.soClock other = hb.soClock other
      rw [refines.soClock_eq, simulates.1.soClock_eq]
      exact congrArg Option.join (Function.update_of_ne different _ _)
  soJoin := by
    rintro hb hb' so other ⟨abs, refines⟩ done
    change hb.soJoin so other = .ok hb' at done
    obtain ⟨abs', joined, simulates⟩ :=
      (soJoin_agrees refines so other).eq_ok done
    refine ⟨⟨abs', simulates.1⟩, ?_⟩
    intro third different
    change hb'.soClock third = hb.soClock third
    rw [refines.soClock_eq, simulates.1.soClock_eq,
      AbsUka.soJoin_sos joined different]
  soExtract := by
    rintro hb hb' thr so ⟨abs, refines⟩ done
    change hb.soExtract thr so = .ok hb' at done
    obtain ⟨abs', extracted, simulates⟩ :=
      (soExtract_agrees refines thr so).eq_ok done
    obtain ⟨_, free, extracted⟩ := bind_eq_ok.mp extracted
    obtain ⟨clock, found, same⟩ := bind_eq_ok.mp extracted
    cases same
    have atThr := AbsUka.getThr_eq_ok found
    refine ⟨⟨_, simulates.1⟩, ?_, ?_, ?_, ?_⟩
    · change hb.soClock so = none
      rw [refines.soClock_eq, AbsUka.zalloc_eq_ok free]
      rfl
    · change hb'.soClock so = hb.thrClock thr
      rw [refines.thrClock_eq, simulates.1.soClock_eq, atThr]
      exact congrArg Option.join
        (Function.update_self so (some (some clock)) abs.sos)
    · change (hb.thrClock thr).isSome
      rw [refines.thrClock_eq, atThr]
      rfl
    · intro other different
      change hb'.soClock other = hb.soClock other
      rw [refines.soClock_eq, simulates.1.soClock_eq]
      exact congrArg Option.join (Function.update_of_ne different _ _)

end UkaHb

end HelgrindPlus
