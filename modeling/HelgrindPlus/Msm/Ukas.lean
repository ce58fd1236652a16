import HelgrindPlus.Msm.Hybrid

/-!
# The short hybrid machine

`libhb_ukas_sval.h` and `libhb_ukas_core.h`.  Each function is the code
between `HG_(onMSM)`, which has no effect on clocks or shadow values, and the
label `out`, put between the reference that the function takes to the clock
of the thread and the one it drops.

A shadow value is taken over a type of clocks: ids, as in the code, or
timestamps.
-/

namespace HelgrindPlus.Ukas

open Outcome

inductive SVal (V : Type) where
  | SpinVar (vts : V)
  | ShM (vts : V) (lset : Finset Nat)
  | ShR (vts : V) (lset : Finset Nat)
  | ExclR (vts : V)
  | ExclW (vts : V)
  | Race
  | New
  | NoAccess
  | Invalid
  deriving DecidableEq

namespace SVal

variable {V : Type}

def isSpinVar : SVal V → Bool
  | SpinVar _ => true
  | _ => false

/-- `SVal__get_VTS`, defined on the values of which `SVal__has_VTS` holds. -/
def getVTS : SVal V → Option V
  | SpinVar vts | ShM vts _ | ShR vts _ | ExclR vts | ExclW vts => some vts
  | Race | New | NoAccess | Invalid => none

end SVal

/-- The read of a variable that a spin loop waits for. -/
def spinRead (tab : VtsTab) (svOld : SVal Nat) (tvid : Nat) (acc : Access) :
    Except Abort (VtsTab × MsmOut Nat (SVal Nat)) :=
  if acc.wasALock then
    match svOld.getVTS with
    | some last => .ok (tab, .stay (.SpinVar last))
    | none => .ok (tab, .stay (.SpinVar tvid))
  else
    match svOld.getVTS with
    | some lastAccess => do
        let (tab, vid) ← tab.spinJoin tvid lastAccess
        pure (tab, ⟨some vid, .SpinVar lastAccess, false⟩)
    | none => .ok (tab, .stay (.SpinVar tvid))

def readBody (tab : VtsTab) (svOld : SVal Nat) (tvid : Nat) (acc : Access) :
    Except Abort (VtsTab × MsmOut Nat (SVal Nat)) :=
  if acc.spinReading then spinRead tab svOld tvid acc
  else if acc.atomic && !svOld.isSpinVar then .ok (tab, .stay svOld)
  else
    match svOld with
    | .ExclW vtsidOld => do
        let (tab, ord) ← tab.getOrdering vtsidOld tvid
        if ord.isLeq then pure (tab, .stay (.ExclR tvid))
        else if acc.getLockSet true = ∅ then pure (tab, .race .Race)
        else pure (tab, .stay (.ShM vtsidOld (acc.getLockSet true)))
    | .ExclR vtsidOld => do
        let (tab, ord) ← tab.getOrdering vtsidOld tvid
        match ord with
        | .eq => pure (tab, .stay svOld)
        | .lt => pure (tab, .stay (.ExclR tvid))
        | _ => pure (tab, .stay (.ShR vtsidOld (acc.getLockSet true)))
    | .ShR vtsidOld lsetOld =>
        .ok (tab, .stay (.ShR vtsidOld (lsetOld ∩ acc.getLockSet true)))
    | .ShM vtsidOld lsetOld =>
        let lsetNew := lsetOld ∩ acc.getLockSet true
        if lsetNew = ∅ then do
          let (tab, ord) ← tab.getOrdering vtsidOld tvid
          if ord.isLeq then pure (tab, .stay (.ExclR tvid))
          else pure (tab, .race .Race)
        else .ok (tab, .stay (.ShM tvid lsetNew))
    | .SpinVar lastWrite => do
        -- an id has 30 bits, so it is not VtsID_INVALID
        let (tab, vid) ← tab.spinJoin tvid lastWrite
        pure (tab, ⟨some vid, svOld, false⟩)
    | .Race => .ok (tab, .stay .Race)
    | .New => .ok (tab, .stay (.ExclR tvid))
    | .NoAccess => .ok (tab, .stay .NoAccess)
    | .Invalid => .error .tlAssert

def writeBody (tab : VtsTab) (svOld : SVal Nat) (tvid : Nat) (acc : Access) :
    Except Abort (VtsTab × MsmOut Nat (SVal Nat)) :=
  if acc.atomic && !svOld.isSpinVar then .ok (tab, .stay svOld)
  else
    match svOld with
    | .New => .ok (tab, .stay (.ExclW tvid))
    | .ExclW vtsidOld => do
        let (tab, ord) ← tab.getOrdering vtsidOld tvid
        if ord.isLeq then pure (tab, .stay (.ExclW tvid))
        else if acc.getLockSet false = ∅ then pure (tab, .race .Race)
        else pure (tab, .stay (.ShM vtsidOld (acc.getLockSet false)))
    | .ExclR vtsidOld => do
        let (tab, ord) ← tab.getOrdering vtsidOld tvid
        if ord.isLeq then pure (tab, .stay (.ExclW tvid))
        else if acc.getLockSet false = ∅ then pure (tab, .race .Race)
        else pure (tab, .stay (.ShM vtsidOld (acc.getLockSet false)))
    | .ShR vtsidOld lsetOld =>
        let lsetNew := lsetOld ∩ acc.getLockSet false
        if lsetNew = ∅ then do
          let (tab, ord) ← tab.getOrdering vtsidOld tvid
          if ord.isLeq then pure (tab, .stay (.ShM tvid lsetNew))
          else pure (tab, .race .Race)
        else .ok (tab, .stay (.ShM vtsidOld lsetNew))
    | .ShM vtsidOld lsetOld =>
        let lsetNew := lsetOld ∩ acc.getLockSet false
        if lsetNew = ∅ then do
          let (tab, ord) ← tab.getOrdering vtsidOld tvid
          if ord.isLeq then pure (tab, .stay (.ExclW tvid))
          else pure (tab, .race .Race)
        else .ok (tab, .stay (.ShM tvid lsetNew))
    | .SpinVar _ =>
        if acc.wasALock then .ok (tab, .stay svOld)
        else do
          let (tab, vid) ← tab.spinTick tvid acc.thr
          pure (tab, ⟨some vid, .SpinVar tvid, false⟩)
    | .Race => .ok (tab, .stay .Race)
    | .NoAccess => .ok (tab, .stay .NoAccess)
    | .Invalid => .error .tlAssert

def msmRead (tab : VtsTab) (svOld : SVal Nat) (tvid : Nat) (acc : Access) :
    Except Abort (VtsTab × MsmOut Nat (SVal Nat)) := do
  let tab ← tab.rcinc tvid
  let (tab, out) ← readBody tab svOld tvid acc
  let tab ← tab.rcdec tvid
  pure (tab, out)

def msmWrite (tab : VtsTab) (svOld : SVal Nat) (tvid : Nat) (acc : Access) :
    Except Abort (VtsTab × MsmOut Nat (SVal Nat)) := do
  let tab ← tab.rcinc tvid
  let (tab, out) ← writeBody tab svOld tvid acc
  let tab ← tab.rcdec tvid
  pure (tab, out)

def machine : HybridMachine (SVal Nat) := ⟨.New, msmRead, msmWrite⟩

def absRead (sv : SVal VTS) (clock : VTS) (acc : Access) :
    MsmOut VTS (SVal VTS) :=
  if acc.spinReading then
    match sv.getVTS with
    | some last =>
        if acc.wasALock then .stay (.SpinVar last)
        else ⟨some (clock.join last), .SpinVar last, false⟩
    | none => .stay (.SpinVar clock)
  else if acc.atomic && !sv.isSpinVar then .stay sv
  else
    match sv with
    | .ExclW vts =>
        if vts ≤ clock then .stay (.ExclR clock)
        else if acc.locksetA = ∅ then .race .Race
        else .stay (.ShM vts acc.locksetA)
    | .ExclR vts =>
        if vts ≤ clock then .stay (.ExclR clock)
        else .stay (.ShR vts acc.locksetA)
    | .ShR vts lset => .stay (.ShR vts (lset ∩ acc.locksetA))
    | .ShM vts lset =>
        if lset ∩ acc.locksetA = ∅ then
          if vts ≤ clock then .stay (.ExclR clock) else .race .Race
        else .stay (.ShM clock (lset ∩ acc.locksetA))
    | .SpinVar vts => ⟨some (clock.join vts), .SpinVar vts, false⟩
    | .New => .stay (.ExclR clock)
    | .Race => .stay .Race
    | .NoAccess => .stay .NoAccess
    | .Invalid => .stay .Invalid

def absWrite (sv : SVal VTS) (clock : VTS) (acc : Access) :
    MsmOut VTS (SVal VTS) :=
  if acc.atomic && !sv.isSpinVar then .stay sv
  else
    match sv with
    | .ExclW vts | .ExclR vts =>
        if vts ≤ clock then .stay (.ExclW clock)
        else if acc.locksetW = ∅ then .race .Race
        else .stay (.ShM vts acc.locksetW)
    | .ShR vts lset =>
        if lset ∩ acc.locksetW = ∅ then
          if vts ≤ clock then .stay (.ShM clock ∅) else .race .Race
        else .stay (.ShM vts (lset ∩ acc.locksetW))
    | .ShM vts lset =>
        if lset ∩ acc.locksetW = ∅ then
          if vts ≤ clock then .stay (.ExclW clock) else .race .Race
        else .stay (.ShM clock (lset ∩ acc.locksetW))
    | .SpinVar vts =>
        if acc.wasALock then .stay (.SpinVar vts)
        else ⟨some (clock.tick acc.thr), .SpinVar clock, false⟩
    | .New => .stay (.ExclW clock)
    | .Race => .stay .Race
    | .NoAccess => .stay .NoAccess
    | .Invalid => .stay .Invalid

inductive SVDenotes (tab : VtsTab) : SVal Nat → SVal VTS → Prop where
  | SpinVar {ii : Nat} {vts : VTS} (known : tab.clock ii = some vts) :
      SVDenotes tab (.SpinVar ii) (.SpinVar vts)
  | ShM {ii : Nat} {vts : VTS} {lset : Finset Nat}
      (known : tab.clock ii = some vts) :
      SVDenotes tab (.ShM ii lset) (.ShM vts lset)
  | ShR {ii : Nat} {vts : VTS} {lset : Finset Nat}
      (known : tab.clock ii = some vts) :
      SVDenotes tab (.ShR ii lset) (.ShR vts lset)
  | ExclR {ii : Nat} {vts : VTS} (known : tab.clock ii = some vts) :
      SVDenotes tab (.ExclR ii) (.ExclR vts)
  | ExclW {ii : Nat} {vts : VTS} (known : tab.clock ii = some vts) :
      SVDenotes tab (.ExclW ii) (.ExclW vts)
  | Race : SVDenotes tab .Race .Race
  | New : SVDenotes tab .New .New
  | NoAccess : SVDenotes tab .NoAccess .NoAccess

def spec : HybridSpec (SVal Nat) (SVal VTS) where
  new := .New
  msm sv clock acc :=
    if acc.isWrite then absWrite sv clock acc else absRead sv clock acc
  value := SVDenotes

section Machine

variable {tab after : VtsTab} {sv : SVal Nat} {abs : SVal VTS}
  {refs : Multiset Nat} {tvid : Nat} {clock : VTS}

theorem SVDenotes.mono (denotes : SVDenotes tab sv abs)
    (grown : tab.Extends after) : SVDenotes after sv abs := by
  cases denotes with
  | SpinVar known => exact .SpinVar (grown _ _ known)
  | ShM known => exact .ShM (grown _ _ known)
  | ShR known => exact .ShR (grown _ _ known)
  | ExclR known => exact .ExclR (grown _ _ known)
  | ExclW known => exact .ExclW (grown _ _ known)
  | Race => exact .Race
  | New => exact .New
  | NoAccess => exact .NoAccess

theorem SVDenotes.isSpinVar (denotes : SVDenotes tab sv abs) :
    sv.isSpinVar = abs.isSpinVar := by
  cases denotes <;> rfl

theorem SVDenotes.getVTS (denotes : SVDenotes tab sv abs) :
    Option.Rel (fun ii vts => tab.clock ii = some vts) sv.getVTS
      abs.getVTS := by
  cases denotes with
  | SpinVar known | ShM known | ShR known | ExclR known | ExclW known =>
      exact .some known
  | Race | New | NoAccess => exact .none

private theorem spinRead_returns (acc : Access)
    (counted : tab.Counted (tvid ::ₘ refs))
    (mine : tab.clock tvid = some clock) (value : SVDenotes tab sv abs)
    (spinning : acc.spinReading = true) :
    Returns (spinRead tab sv tvid acc) (fun result =>
      VtsTab.HybridResult SVDenotes tab tvid refs result
        (absRead abs clock acc)) := by
  have last := value.getVTS
  simp only [spinRead, absRead, spinning, if_true]
  cases hasOld : sv.getVTS with
  | none =>
      rw [hasOld] at last
      cases hasAbs : abs.getVTS with
      | some vts =>
          rw [hasAbs] at last
          cases last
      | none =>
          simp only [ite_self]
          exact Returns.ok (.still _ counted (.refl tab) (.SpinVar mine))
  | some ii =>
      rw [hasOld] at last
      cases hasAbs : abs.getVTS with
      | none =>
          rw [hasAbs] at last
          cases last
      | some vts =>
          rw [hasAbs] at last
          cases last with
          | some known =>
          dsimp only
          split
          · exact Returns.ok (.still _ counted (.refl tab) (.SpinVar known))
          · apply (VtsTab.spinJoin_returns counted mine known).bind
            intro ⟨tab₁, vid⟩ moves
            exact Returns.pure
              (.moving moves (.SpinVar (moves.2.1 _ _ known)))

theorem readBody_returns (acc : Access)
    (counted : tab.Counted (tvid ::ₘ refs))
    (mine : tab.clock tvid = some clock) (value : SVDenotes tab sv abs) :
    Returns (readBody tab sv tvid acc) (fun result =>
      VtsTab.HybridResult SVDenotes tab tvid refs result
        (absRead abs clock acc)) := by
  by_cases spinning : acc.spinReading = true
  · rw [readBody.eq_def, if_pos spinning]
    exact spinRead_returns acc counted mine value spinning
  rw [readBody.eq_def, absRead.eq_def, if_neg spinning, if_neg spinning,
    value.isSpinVar]
  split
  · exact Returns.ok (.still _ counted (.refl tab) value)
  cases value with
  | ExclW known =>
      apply VtsTab.Returns.getOrdering counted known mine
      intro after counted₁ grown₁
      simp only [VTS.cmp_isLeq_iff]
      split
      · exact Returns.pure (.still _ counted₁ grown₁
          (.ExclR (grown₁ _ _ mine)))
      · simp only [Access.getLockSet, if_true]
        split
        · exact Returns.pure (.still _ counted₁ grown₁ .Race)
        · exact Returns.pure (.still _ counted₁ grown₁
            (.ShM (grown₁ _ _ known)))
  | @ExclR ii vts known =>
      apply VtsTab.Returns.getOrdering counted known mine
      intro after counted₁ grown₁
      dsimp only
      split
      · rename_i isEq
        have equal : vts = clock := (VTS.cmp_eq_eq_iff vts clock).mp isEq
        rw [if_pos (le_of_eq equal)]
        rw [equal] at known
        exact Returns.pure (.still _ counted₁ grown₁
          (.ExclR (grown₁ _ _ known)))
      · rename_i isLt
        rw [if_pos (VTS.le_of_cmp_lt isLt)]
        exact Returns.pure (.still _ counted₁ grown₁
          (.ExclR (grown₁ _ _ mine)))
      · rename_i notEq notLt
        rw [if_neg (VTS.not_le_of_cmp notEq notLt)]
        exact Returns.pure (.still _ counted₁ grown₁
          (.ShR (grown₁ _ _ known)))
  | ShR known => exact Returns.ok (.still _ counted (.refl tab) (.ShR known))
  | ShM known =>
      simp only [Access.getLockSet, if_true]
      split
      · apply VtsTab.Returns.getOrdering counted known mine
        intro after counted₁ grown₁
        simp only [VTS.cmp_isLeq_iff]
        split
        · exact Returns.pure (.still _ counted₁ grown₁
            (.ExclR (grown₁ _ _ mine)))
        · exact Returns.pure (.still _ counted₁ grown₁ .Race)
      · exact Returns.ok (.still _ counted (.refl tab) (.ShM mine))
  | SpinVar known =>
      apply (VtsTab.spinJoin_returns counted mine known).bind
      intro ⟨tab₁, vid⟩ moves
      exact Returns.pure (.moving moves (.SpinVar (moves.2.1 _ _ known)))
  | Race => exact Returns.ok (.still _ counted (.refl tab) .Race)
  | New => exact Returns.ok (.still _ counted (.refl tab) (.ExclR mine))
  | NoAccess => exact Returns.ok (.still _ counted (.refl tab) .NoAccess)

theorem writeBody_returns (acc : Access)
    (counted : tab.Counted (tvid ::ₘ refs))
    (mine : tab.clock tvid = some clock) (value : SVDenotes tab sv abs) :
    Returns (writeBody tab sv tvid acc) (fun result =>
      VtsTab.HybridResult SVDenotes tab tvid refs result
        (absWrite abs clock acc)) := by
  rw [writeBody.eq_def, absWrite.eq_def, value.isSpinVar]
  split
  · exact Returns.ok (.still _ counted (.refl tab) value)
  cases value with
  | ExclW known | ExclR known =>
      apply VtsTab.Returns.getOrdering counted known mine
      intro after counted₁ grown₁
      simp only [VTS.cmp_isLeq_iff]
      split
      · exact Returns.pure (.still _ counted₁ grown₁
          (.ExclW (grown₁ _ _ mine)))
      · simp only [Access.getLockSet, Bool.false_eq_true, if_false]
        split
        · exact Returns.pure (.still _ counted₁ grown₁ .Race)
        · exact Returns.pure (.still _ counted₁ grown₁
            (.ShM (grown₁ _ _ known)))
  | ShR known =>
      simp only [Access.getLockSet, Bool.false_eq_true, if_false]
      split
      · rename_i disjoint
        rw [disjoint]
        apply VtsTab.Returns.getOrdering counted known mine
        intro after counted₁ grown₁
        simp only [VTS.cmp_isLeq_iff]
        split
        · exact Returns.pure (.still _ counted₁ grown₁
            (.ShM (grown₁ _ _ mine)))
        · exact Returns.pure (.still _ counted₁ grown₁ .Race)
      · exact Returns.ok (.still _ counted (.refl tab) (.ShM known))
  | ShM known =>
      simp only [Access.getLockSet, Bool.false_eq_true, if_false]
      split
      · apply VtsTab.Returns.getOrdering counted known mine
        intro after counted₁ grown₁
        simp only [VTS.cmp_isLeq_iff]
        split
        · exact Returns.pure (.still _ counted₁ grown₁
            (.ExclW (grown₁ _ _ mine)))
        · exact Returns.pure (.still _ counted₁ grown₁ .Race)
      · exact Returns.ok (.still _ counted (.refl tab) (.ShM mine))
  | SpinVar known =>
      dsimp only
      split
      · exact Returns.ok (.still _ counted (.refl tab) (.SpinVar known))
      · apply (VtsTab.spinTick_returns acc.thr counted mine).bind
        intro ⟨tab₁, vid⟩ moves
        exact Returns.pure (.moving moves (.SpinVar (moves.2.1 _ _ mine)))
  | Race => exact Returns.ok (.still _ counted (.refl tab) .Race)
  | New => exact Returns.ok (.still _ counted (.refl tab) (.ExclW mine))
  | NoAccess => exact Returns.ok (.still _ counted (.refl tab) .NoAccess)

/-- The reference around the body is dropped again, also when the body has
moved the thread away from `tvid`. -/
theorem bracketed_returns
    {body : VtsTab → Except Abort (VtsTab × MsmOut Nat (SVal Nat))}
    {expected : MsmOut VTS (SVal VTS)}
    (counted : tab.Counted (tvid ::ₘ refs))
    (mine : tab.clock tvid = some clock) (value : SVDenotes tab sv abs)
    (bodyReturns : ∀ (before : VtsTab) (others : Multiset Nat),
      before.Counted (tvid ::ₘ others) → before.clock tvid = some clock →
      SVDenotes before sv abs → Returns (body before) (fun result =>
        VtsTab.HybridResult SVDenotes before tvid others result expected)) :
    Returns (do
        let tab ← tab.rcinc tvid
        let (tab, out) ← body tab
        let tab ← tab.rcdec tvid
        pure (tab, out)) (fun result =>
      VtsTab.HybridResult SVDenotes tab tvid refs result expected) := by
  apply (VtsTab.rcinc_returns counted mine).bind
  intro tab₁ ⟨counted₁, same₁⟩
  have grown₁ : tab.Extends tab₁ := .of_clock_eq same₁
  apply (bodyReturns tab₁ _ counted₁ (grown₁ _ _ mine)
    (value.mono grown₁)).bind
  intro ⟨tab₂, out⟩ result
  have recounted := result.counted
  rw [Multiset.cons_swap] at recounted
  apply (VtsTab.rcdec_returns_cons recounted).bind
  intro tab₃ ⟨counted₃, same₃⟩
  have grown₃ : tab₂.Extends tab₃ := .of_clock_eq same₃
  apply Returns.pure
  exact ⟨counted₃, grown₁.trans (result.grown.trans grown₃),
    grown₃.rel result.moved, result.svNew.mono grown₃, result.raced⟩

/-- The machine computes what the specification says, also in spin loops. -/
theorem msm_returns (acc : Access) (counted : tab.Counted (tvid ::ₘ refs))
    (mine : tab.clock tvid = some clock) (value : SVDenotes tab sv abs) :
    Returns (machine.msm tab sv tvid acc) (fun result =>
      VtsTab.HybridResult SVDenotes tab tvid refs result
        (spec.msm abs clock acc)) := by
  unfold HybridMachine.msm spec
  dsimp only [machine]
  split
  · exact bracketed_returns counted mine value
      fun _ _ => writeBody_returns acc
  · exact bracketed_returns counted mine value
      fun _ _ => readBody_returns acc

theorem spec_describes : spec.Describes machine where
  new _ := .New
  grows := SVDenotes.mono
  msm acc _ := msm_returns acc

end Machine

end HelgrindPlus.Ukas
