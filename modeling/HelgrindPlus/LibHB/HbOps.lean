import HelgrindPlus.LibHB.SyncRefinement

/-!
# All operations on clocks

The operations of `Sync` together with those that work on synchronisation
objects only: `libhb_so_join`, `libhb_so_extract` and `libhb_so_everSent`.
Here it also matters how a call aborts that the interface does not allow.
-/

namespace HelgrindPlus

open Outcome VtsTab

inductive HbOp where
  | sync (op : SyncOp)
  | soJoin (so1 so2 : Nat)
  | soExtract (thr so : Nat)
  | soEverSent (so : Nat)
  deriving DecidableEq

namespace Hb

/-- The three lines for one clock in `libhb_so_join`.  `VtsID_INVALID` is no
index into the table. -/
def soJoinId (tab : VtsTab) : Option Nat → Option Nat →
    Except Abort (VtsTab × Nat)
  | some own, some other => recvId tab own other
  | some own, none => do
      let _ ← tab.rcdec own
      .error .indexXA
  | none, _ => .error .indexXA

def soJoin (hb : Hb) (so1 so2 : Nat) : Except Abort Hb := do
  let record1 ← hb.getSO so1
  let record2 ← hb.getSO so2
  if so1 = so2 then pure hb
  else if record1.viW = record2.viW ∧ record1.viR = record2.viR then pure hb
  else do
    let (tab, viW) ← soJoinId hb.tab record1.viW record2.viW
    let (tab, viR) ← soJoinId tab record1.viR record2.viR
    pure { hb with
      tab := tab, sos := hb.sos.insert so1 ⟨some viR, some viW⟩ }

def soExtract (hb : Hb) (thr so : Nat) : Except Abort Hb := do
  hb.zalloc so
  let t ← hb.getThr thr
  let tab ← hb.tab.rcinc t.viR
  let tab ← tab.rcinc t.viW
  pure { hb with
    tab := tab, sos := hb.sos.insert so ⟨some t.viR, some t.viW⟩ }

/-- The function `libhb_so_everSent`, which does not look at `magic`. -/
def soEverSent (hb : Hb) (so : Nat) : Except Abort Bool :=
  match hb.sos.lookup so with
  | none => .error .dangling
  | some record => do
      tlAssert (record.viR = none ↔ record.viW = none)
      pure record.viR.isSome

def perform (hb : Hb) : HbOp → Except Abort Hb
  | .sync op => hb.step op
  | .soJoin so1 so2 => hb.soJoin so1 so2
  | .soExtract thr so => hb.soExtract thr so
  | .soEverSent so => do
      let _ ← hb.soEverSent so
      pure hb

end Hb

namespace AbsHb

/-- How a call aborts that `AbsHb.step` does not allow. -/
def refusal (abs : AbsHb) (op : SyncOp) : Abort :=
  match abs.thrs op.thr, op with
  | none, _ | some _, .create .. | some _, .soAlloc .. => .dangling
  | some _, .soDealloc .. | some _, .soSend .. | some _, .soRecv .. =>
      .tlAssert

def soJoin (abs : AbsHb) (so1 so2 : Nat) : Except Abort AbsHb :=
  match abs.sos so1, abs.sos so2 with
  | some contents1, some contents2 =>
      if so1 = so2 then .ok abs
      else
        match contents1, contents2 with
        | none, none => .ok abs
        | some clocks1, some clocks2 =>
            .ok (abs.setSO so1 (some (clocks1.join clocks2)))
        | some _, none | none, some _ => .error .indexXA
  | _, _ => .error .tlAssert

def soExtract (abs : AbsHb) (thr so : Nat) : Except Abort AbsHb :=
  match abs.thrs thr with
  | some clocks =>
      if abs.unused so then .ok (abs.setSO so (some clocks))
      else .error .dangling
  | none => .error .dangling

def perform (abs : AbsHb) : HbOp → Except Abort AbsHb
  | .sync op =>
      match abs.step op with
      | some after => .ok after
      | none => .error (abs.refusal op)
  | .soJoin so1 so2 => abs.soJoin so1 so2
  | .soExtract thr so => abs.soExtract thr so
  | .soEverSent so =>
      match abs.sos so with
      | some _ => .ok abs
      | none => .error .dangling

end AbsHb

namespace Hb

variable {hb : Hb} {others : Multiset Nat} {abs : AbsHb}

theorem getThr_eq_ok {thr : Nat} {t : Thr}
    (found : hb.getThr thr = .ok t) : hb.thrs.lookup thr = some t := by
  unfold getThr at found
  split at found
  · rename_i bound
    cases found
    exact bound
  · cases found

theorem getThr_of_none (refines : hb.Refines others abs) {thr : Nat}
    (unknown : abs.thrs thr = none) : hb.getThr thr = .error .dangling := by
  unfold getThr
  rw [refines.thrs.of_none unknown]

theorem getSO_of_none (refines : hb.Refines others abs) {so : Nat}
    (unknown : abs.sos so = none) : hb.getSO so = .error .tlAssert := by
  unfold getSO
  rw [refines.sos.of_none unknown]

theorem zalloc_of_used (refines : hb.Refines others abs) {addr : Nat}
    (used : abs.unused addr = false) :
    hb.zalloc addr = .error .dangling := by
  apply if_neg
  rintro ⟨noThr, noSO⟩
  have thr := refines.thrs.of_unbound noThr
  have so := refines.sos.of_unbound noSO
  rw [AbsHb.unused, thr, so] at used
  cases used

private theorem step_refused (refines : hb.Refines others abs) {op : SyncOp}
    (refused : abs.step op = none) :
    hb.step op = .error (abs.refusal op) := by
  cases actor : abs.thrs op.thr with
  | none =>
      have missing := getThr_of_none refines actor
      have verdict : abs.refusal op = .dangling := by
        simp [AbsHb.refusal, actor]
      rw [verdict]
      cases op <;> simp only [SyncOp.thr] at missing <;>
        simp [step, create, soSend, soRecv, missing, bind, Except.bind]
  | some clocks =>
      obtain ⟨record, bound, -⟩ := refines.thrs.of_some actor
      have found := getThr_of bound
      cases op with
      | create thr child =>
          simp only [SyncOp.thr] at actor found
          have used : abs.unused child = false := by
            simpa [AbsHb.step, actor] using refused
          simp [step, create, found, zalloc_of_used refines used,
            AbsHb.refusal, SyncOp.thr, actor, bind, Except.bind]
      | soAlloc thr so =>
          simp only [SyncOp.thr] at actor found
          have used : abs.unused so = false := by
            simpa [AbsHb.step, actor] using refused
          simp [step, soAlloc, found, zalloc_of_used refines used,
            AbsHb.refusal, SyncOp.thr, actor, bind, Except.bind]
      | soDealloc thr so =>
          simp only [SyncOp.thr] at actor found
          have missing : abs.sos so = none := by
            cases atSO : abs.sos so with
            | none => rfl
            | some contents => simp [AbsHb.step, actor, atSO] at refused
          simp [step, soDealloc, found, getSO_of_none refines missing,
            AbsHb.refusal, SyncOp.thr, actor, bind, Except.bind]
      | soSend thr so strong =>
          simp only [SyncOp.thr] at actor found
          have missing : abs.sos so = none := by
            cases atSO : abs.sos so with
            | none => rfl
            | some contents => simp [AbsHb.step, actor, atSO] at refused
          simp [step, soSend, found, getSO_of_none refines missing,
            AbsHb.refusal, SyncOp.thr, actor, bind, Except.bind]
      | soRecv thr so strong =>
          simp only [SyncOp.thr] at actor found
          have missing : abs.sos so = none := by
            cases atSO : abs.sos so with
            | none => rfl
            | some contents => simp [AbsHb.step, actor, atSO] at refused
          simp [step, soRecv, found, getSO_of_none refines missing,
            AbsHb.refusal, SyncOp.thr, actor, bind, Except.bind]

theorem sync_agrees (refines : hb.Refines others abs) (op : SyncOp) :
    Agrees (hb.step op) (abs.perform (.sync op)) fun hb' abs' =>
      hb.Simulates others abs' hb' := by
  cases stepped : abs.step op with
  | some after =>
      simp only [AbsHb.perform, stepped]
      exact step_simulates refines stepped
  | none =>
      simp only [AbsHb.perform, stepped]
      exact step_refused refines stepped

/-- Replacing the contents of one object. -/
theorem Refines.insertSO (refines : hb.Refines others abs) {so : Nat}
    {new : SO} {tab : VtsTab} {contents : Option Clocks}
    (counted : tab.Counted (new.refs +
      (hb.thrs.total Thr.refs + (hb.sos.erase so).total SO.refs + others)))
    (grown : VtsTab.Extends hb.tab tab)
    (denotes : SODenotes tab new contents)
    (grounded : (abs.setSO so contents).Grounded) :
    Refines ⟨tab, hb.thrs, hb.sos.insert so new⟩ others
      (abs.setSO so contents) := by
  refine ⟨?_, ?_, ?_, grounded⟩
  · have total : refs ⟨tab, hb.thrs, hb.sos.insert so new⟩ + others =
        new.refs + (hb.thrs.total Thr.refs +
          (hb.sos.erase so).total SO.refs + others) := by
      simp only [refs, AList.total_insert]
      abel
    rw [total]
    exact counted
  · exact refines.thrs.mono fun _ _ known => known.mono grown
  · exact (refines.sos.mono fun _ _ known => known.mono grown).insert so
      denotes

/-- Different ids stand for different timestamps, so the test of
`libhb_so_join` for equal ids changes nothing. -/
theorem soJoin_agrees (refines : hb.Refines others abs) (so1 so2 : Nat) :
    Agrees (hb.soJoin so1 so2) (abs.soJoin so1 so2) fun hb' abs' =>
      hb.Simulates others abs' hb' := by
  unfold soJoin AbsHb.soJoin
  cases at1 : abs.sos so1 with
  | none =>
      rw [getSO_of_none refines at1]
      rfl
  | some contents1 =>
  obtain ⟨record1, bound1, denotes1⟩ := refines.sos.of_some at1
  rw [getSO_of bound1, ok_bind]
  cases at2 : abs.sos so2 with
  | none =>
      rw [getSO_of_none refines at2]
      rfl
  | some contents2 =>
  obtain ⟨record2, bound2, denotes2⟩ := refines.sos.of_some at2
  rw [getSO_of bound2, ok_bind]
  dsimp only
  split
  · exact Returns.ok ⟨refines, Extends.refl _⟩
  cases denotes1 with
  | empty =>
      cases denotes2 with
      | empty => exact Returns.ok ⟨refines, Extends.refl _⟩
      | holds => rfl
  | @holds viR1 viW1 clocks1 denotes1 =>
  have counted := refines.counted
  have total : hb.refs + others = viR1 ::ₘ viW1 ::ₘ
      (hb.thrs.total Thr.refs + (hb.sos.erase so1).total SO.refs
        + others) := by
    rw [← SO.refs_add]
    simp only [refs, AList.total_eq_of_lookup SO.refs bound1]
    abel
  rw [total, Multiset.cons_swap] at counted
  cases denotes2 with
  | empty =>
      obtain ⟨tab₁, dropped, -⟩ := rcdec_returns_cons counted
      simp [soJoinId, dropped, Agrees, bind, Except.bind]
  | @holds viR2 viW2 clocks2 denotes2 =>
  have grounded : (abs.setSO so1 (some (clocks1.join clocks2))).Grounded := by
    apply refines.grounded.setSO
    intro clocks same
    cases same
    exact (refines.grounded.sos _ _ at1).join (refines.grounded.sos _ _ at2)
  dsimp only
  split
  · rename_i same
    obtain ⟨sameW, sameR⟩ := same
    cases sameW
    cases sameR
    -- The join of a timestamp with itself is the timestamp.
    have equal : clocks2 = clocks1 := by
      have read := denotes1.read.symm.trans denotes2.read
      have write := denotes1.write.symm.trans denotes2.write
      cases clocks1
      cases clocks2
      simp_all
    have unchanged : abs.setSO so1 (some (clocks1.join clocks2)) = abs := by
      simp [AbsHb.setSO, equal, Clocks.join, VTS.join_self, ← at1]
    refine Returns.ok ⟨?_, Extends.refl _⟩
    rw [unchanged]
    exact refines
  apply (recvId_returns counted denotes1.write denotes2.write).bind
  rintro ⟨tab₁, viW⟩ ⟨counted₁, grown₁, knownW⟩
  dsimp only at counted₁ grown₁ knownW
  rw [Multiset.cons_swap] at counted₁
  apply (recvId_returns counted₁ (denotes1.mono grown₁).read
    (denotes2.mono grown₁).read).bind
  rintro ⟨tab₂, viR⟩ ⟨counted₂, grown₂, knownR⟩
  apply Returns.pure
  have grown := grown₁.trans grown₂
  refine ⟨refines.insertSO ?_ grown (.holds ⟨knownR, grown₂ _ _ knownW,
    denotes1.sane.join denotes2.sane⟩) grounded, grown⟩
  rw [SO.refs_add]
  exact counted₂

theorem soExtract_agrees (refines : hb.Refines others abs) (thr so : Nat) :
    Agrees (hb.soExtract thr so) (abs.soExtract thr so) fun hb' abs' =>
      hb.Simulates others abs' hb' := by
  unfold soExtract AbsHb.soExtract
  cases atThr : abs.thrs thr with
  | none =>
      rw [getThr_of_none refines atThr]
      unfold zalloc
      split
      · rfl
      · rfl
  | some clocks =>
      obtain ⟨t, bound, denotes⟩ := refines.thrs.of_some atThr
      rw [getThr_of bound]
      dsimp only
      cases unused : abs.unused so with
      | false =>
          rw [zalloc_of_used refines unused]
          rfl
      | true =>
          have absent : abs.sos so = none := by
            simp only [AbsHb.unused, Bool.and_eq_true,
              Option.isNone_iff_eq_none] at unused
            exact unused.2
          rw [refines.zalloc unused, if_pos rfl, ok_bind, ok_bind]
          apply (rcinc_returns refines.counted denotes.read).bind
          rintro tab₁ ⟨counted₁, same₁⟩
          have denotes₁ := denotes.mono (Extends.of_clock_eq same₁)
          apply (rcinc_returns counted₁ denotes₁.write).bind
          rintro tab₂ ⟨counted₂, same₂⟩
          have grown : VtsTab.Extends hb.tab tab₂ :=
            Extends.of_clock_eq (same₂.trans same₁)
          apply Returns.pure
          refine ⟨refines.insertSO ?_ grown (.holds (denotes.mono grown)) ?_,
            grown⟩
          · rw [SO.refs_add, AList.total_erase_of_notBound SO.refs
              (refines.sos.of_none absent), Multiset.cons_swap]
            exact counted₂
          · apply refines.grounded.setSO
            intro stored same
            cases same
            exact refines.grounded.thrs thr clocks atThr

private theorem soEverSent_agrees (refines : hb.Refines others abs) (so : Nat) :
    Agrees (hb.perform (.soEverSent so)) (abs.perform (.soEverSent so))
      fun hb' abs' => hb.Simulates others abs' hb' := by
  simp only [perform, AbsHb.perform, soEverSent]
  cases atSO : abs.sos so with
  | none =>
      rw [refines.sos.of_none atSO]
      rfl
  | some contents =>
      obtain ⟨record, bound, denotes⟩ := refines.sos.of_some atSO
      rw [bound]
      cases denotes with
      | empty => exact Returns.ok ⟨refines, Extends.refl _⟩
      | holds denotes =>
          simp only [tlAssert, reduceCtorEq, if_true]
          exact Returns.ok ⟨refines, Extends.refl _⟩

/-- The interface refines the interface over timestamps, its aborts
included. -/
theorem perform_agrees (refines : hb.Refines others abs) (op : HbOp) :
    Agrees (hb.perform op) (abs.perform op) fun hb' abs' =>
      hb.Simulates others abs' hb' := by
  cases op with
  | sync op => exact sync_agrees refines op
  | soJoin so1 so2 => exact soJoin_agrees refines so1 so2
  | soExtract thr so => exact soExtract_agrees refines thr so
  | soEverSent so => exact soEverSent_agrees refines so

/-- The operations of a run that starts with one thread. -/
def runOps (root : Nat) (ops : List HbOp) : Except Abort Hb := do
  let hb ← Hb.init root
  ops.foldlM perform hb

theorem runOps_refines {root : Nat} {ops : List HbOp}
    (ran : runOps root ops = .ok hb) : ∃ abs, hb.Refines 0 abs := by
  obtain ⟨start, isStart, ran⟩ := bind_eq_ok.mp ran
  refine @foldlM_eq_ok_invariant _ _ _ _
    (fun _ hb => ∃ abs, Hb.Refines hb 0 abs) _ _ _ ?_
    ⟨_, (Refines.init root).of_eq_ok isStart⟩ ran
  intro n before after op atN refined done
  obtain ⟨abs, refines⟩ := refined
  obtain ⟨abs', -, simulates⟩ := (perform_agrees refines op).eq_ok done
  exact ⟨abs', simulates.1⟩

end Hb

end HelgrindPlus
