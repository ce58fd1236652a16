import HelgrindPlus.Msm.Hybrid

/-!
# The long hybrid machine

`libhb_ukal_sval.h` and `libhb_ukal_core.h`.  Unlike the short machine it does
not report the first unordered access to a shared location: `ShM` keeps no
clock, and only the states `ExclRW` and `ShM2` behind it lead to a report.
-/

namespace HelgrindPlus.Ukal

open Outcome

/-- `SVal__mk_ShM` is given a clock too, but does not store it. -/
inductive SVal (V : Type) where
  | SpinVar (vts : V)
  | ShM2 (vts : V) (lset : Finset Nat)
  | ShM (lset : Finset Nat)
  | ShR (vts : V) (lset : Finset Nat)
  | ExclRW (vts : V)
  | ExclR (vts : V)
  | ExclW (vts : V)
  | Race
  | New
  | NoAccess
  | Invalid
  deriving DecidableEq

namespace SVal

def isSpinVar {V : Type} : SVal V → Bool
  | SpinVar _ => true
  | _ => false

/-- `SVal__get_VTS`, where `SVal__has_VTS` holds.  It reads id zero from a
`ShM` value. -/
def getVTS : SVal Nat → Option Nat
  | SpinVar vts | ShM2 vts _ | ShR vts _ | ExclRW vts | ExclR vts
  | ExclW vts => some vts
  | ShM _ => some 0
  | Race | New | NoAccess | Invalid => none

end SVal

def msmRead (tab : VtsTab) (svOld : SVal Nat) (tvid : Nat) (acc : Access) :
    Except Abort (VtsTab × MsmOut Nat (SVal Nat)) :=
  if acc.spinReading then
    match svOld.getVTS with
    | some lastAccess => do
        let (tab, vid) ← tab.spinJoin tvid lastAccess
        pure (tab, ⟨some vid, .SpinVar lastAccess, false⟩)
    | none => .ok (tab, .stay (.SpinVar tvid))
  else if acc.atomic && !svOld.isSpinVar then .ok (tab, .stay svOld)
  else
    match svOld with
    | .ExclW vtsidOld => do
        let (tab, ord) ← tab.getOrdering vtsidOld tvid
        if ord.isLeq then pure (tab, .stay (.ExclR tvid))
        else if acc.getLockSet true = ∅ then pure (tab, .race .Race)
        else pure (tab, .stay (.ShM (acc.getLockSet true)))
    | .ExclR vtsidOld => do
        let (tab, ord) ← tab.getOrdering vtsidOld tvid
        match ord with
        | .eq => pure (tab, .stay svOld)
        | .lt => pure (tab, .stay (.ExclR tvid))
        | _ => pure (tab, .stay (.ShR vtsidOld (acc.getLockSet true)))
    | .ExclRW vtsidOld => do
        let (tab, ord) ← tab.getOrdering vtsidOld tvid
        if ord.isLeq then
          pure (tab, .stay (.ShR vtsidOld (acc.getLockSet true)))
        else pure (tab, .stay (.ShM2 vtsidOld (acc.getLockSet true)))
    | .ShR vtsidOld lsetOld =>
        .ok (tab, .stay (.ShR vtsidOld (lsetOld ∩ acc.getLockSet true)))
    | .ShM lsetOld =>
        let lsetNew := lsetOld ∩ acc.getLockSet true
        if lsetNew = ∅ then .ok (tab, .stay (.ExclRW tvid))
        else .ok (tab, .stay (.ShM lsetNew))
    | .ShM2 vtsidOld lsetOld =>
        let lsetNew := lsetOld ∩ acc.getLockSet true
        if lsetNew = ∅ then do
          let (tab, ord) ← tab.getOrdering vtsidOld tvid
          if ord.isLeq then pure (tab, .stay (.ExclRW tvid))
          else pure (tab, .race .Race)
        else .ok (tab, .stay (.ShM2 tvid lsetNew))
    | .SpinVar lastWrite => do
        let (tab, vid) ← tab.spinJoin tvid lastWrite
        pure (tab, ⟨some vid, svOld, false⟩)
    | .Race => .ok (tab, .stay .Race)
    | .New => .ok (tab, .stay (.ExclR tvid))
    | .NoAccess => .ok (tab, .stay .NoAccess)
    | .Invalid => .error .tlAssert

def msmWrite (tab : VtsTab) (svOld : SVal Nat) (tvid : Nat) (acc : Access) :
    Except Abort (VtsTab × MsmOut Nat (SVal Nat)) :=
  if acc.atomic && !svOld.isSpinVar then .ok (tab, .stay svOld)
  else
    match svOld with
    | .New => .ok (tab, .stay (.ExclW tvid))
    | .ExclW vtsidOld => do
        let (tab, ord) ← tab.getOrdering vtsidOld tvid
        if ord.isLeq then pure (tab, .stay (.ExclW tvid))
        else if acc.getLockSet false = ∅ then pure (tab, .race .Race)
        else pure (tab, .stay (.ShM (acc.getLockSet false)))
    | .ExclR vtsidOld => do
        let (tab, ord) ← tab.getOrdering vtsidOld tvid
        if ord.isLeq then pure (tab, .stay (.ExclW tvid))
        else if acc.getLockSet false = ∅ then pure (tab, .race .Race)
        else pure (tab, .stay (.ShM (acc.getLockSet false)))
    | .ExclRW vtsidOld => do
        let (tab, ord) ← tab.getOrdering vtsidOld tvid
        match ord with
        | .eq => pure (tab, .stay svOld)
        | .lt => pure (tab, .stay (.ExclRW tvid))
        | _ =>
            if acc.getLockSet false = ∅ then pure (tab, .race .Race)
            else pure (tab, .stay (.ShM2 vtsidOld (acc.getLockSet false)))
    | .ShR _ lsetOld =>
        let lsetNew := lsetOld ∩ acc.getLockSet false
        if lsetNew = ∅ then .ok (tab, .stay (.ExclRW tvid))
        else .ok (tab, .stay (.ShM lsetNew))
    | .ShM lsetOld =>
        let lsetNew := lsetOld ∩ acc.getLockSet false
        if lsetNew = ∅ then .ok (tab, .stay (.ExclRW tvid))
        else .ok (tab, .stay (.ShM lsetNew))
    | .ShM2 vtsidOld lsetOld =>
        let lsetNew := lsetOld ∩ acc.getLockSet false
        if lsetNew = ∅ then do
          let (tab, ord) ← tab.getOrdering vtsidOld tvid
          if ord.isLeq then pure (tab, .stay (.ExclRW tvid))
          else pure (tab, .race .Race)
        else .ok (tab, .stay (.ShM2 tvid lsetNew))
    | .SpinVar _ => do
        let (tab, vid) ← tab.spinTick tvid acc.thr
        pure (tab, ⟨some vid, .SpinVar tvid, false⟩)
    | .Race => .ok (tab, .stay .Race)
    | .NoAccess => .ok (tab, .stay .NoAccess)
    | .Invalid => .error .tlAssert

def machine : HybridMachine (SVal Nat) := ⟨.New, msmRead, msmWrite⟩

def absRead (sv : SVal VTS) (clock : VTS) (acc : Access) :
    MsmOut VTS (SVal VTS) :=
  if acc.atomic && !sv.isSpinVar then .stay sv
  else
    match sv with
    | .ExclW vts =>
        if vts ≤ clock then .stay (.ExclR clock)
        else if acc.locksetA = ∅ then .race .Race
        else .stay (.ShM acc.locksetA)
    | .ExclR vts =>
        if vts ≤ clock then .stay (.ExclR clock)
        else .stay (.ShR vts acc.locksetA)
    | .ExclRW vts =>
        if vts ≤ clock then .stay (.ShR vts acc.locksetA)
        else .stay (.ShM2 vts acc.locksetA)
    | .ShR vts lset => .stay (.ShR vts (lset ∩ acc.locksetA))
    | .ShM lset =>
        if lset ∩ acc.locksetA = ∅ then .stay (.ExclRW clock)
        else .stay (.ShM (lset ∩ acc.locksetA))
    | .ShM2 vts lset =>
        if lset ∩ acc.locksetA = ∅ then
          if vts ≤ clock then .stay (.ExclRW clock) else .race .Race
        else .stay (.ShM2 clock (lset ∩ acc.locksetA))
    | .SpinVar vts => ⟨some (clock.join vts), .SpinVar vts, false⟩
    | .New => .stay (.ExclR clock)
    | .Race => .stay .Race
    | .NoAccess => .stay .NoAccess
    | .Invalid => .stay .Invalid

def absWrite (sv : SVal VTS) (clock : VTS) (acc : Access) :
    MsmOut VTS (SVal VTS) :=
  if acc.atomic && !sv.isSpinVar then .stay sv
  else
    match sv with
    | .ExclW vts | .ExclR vts =>
        if vts ≤ clock then .stay (.ExclW clock)
        else if acc.locksetW = ∅ then .race .Race
        else .stay (.ShM acc.locksetW)
    | .ExclRW vts =>
        if vts ≤ clock then .stay (.ExclRW clock)
        else if acc.locksetW = ∅ then .race .Race
        else .stay (.ShM2 vts acc.locksetW)
    | .ShR _ lset | .ShM lset =>
        if lset ∩ acc.locksetW = ∅ then .stay (.ExclRW clock)
        else .stay (.ShM (lset ∩ acc.locksetW))
    | .ShM2 vts lset =>
        if lset ∩ acc.locksetW = ∅ then
          if vts ≤ clock then .stay (.ExclRW clock) else .race .Race
        else .stay (.ShM2 clock (lset ∩ acc.locksetW))
    | .SpinVar _ => ⟨some (clock.tick acc.thr), .SpinVar clock, false⟩
    | .New => .stay (.ExclW clock)
    | .Race => .stay .Race
    | .NoAccess => .stay .NoAccess
    | .Invalid => .stay .Invalid

inductive SVDenotes (tab : VtsTab) : SVal Nat → SVal VTS → Prop where
  | SpinVar {ii : Nat} {vts : VTS} (known : tab.clock ii = some vts) :
      SVDenotes tab (.SpinVar ii) (.SpinVar vts)
  | ShM2 {ii : Nat} {vts : VTS} {lset : Finset Nat}
      (known : tab.clock ii = some vts) :
      SVDenotes tab (.ShM2 ii lset) (.ShM2 vts lset)
  | ShM {lset : Finset Nat} : SVDenotes tab (.ShM lset) (.ShM lset)
  | ShR {ii : Nat} {vts : VTS} {lset : Finset Nat}
      (known : tab.clock ii = some vts) :
      SVDenotes tab (.ShR ii lset) (.ShR vts lset)
  | ExclRW {ii : Nat} {vts : VTS} (known : tab.clock ii = some vts) :
      SVDenotes tab (.ExclRW ii) (.ExclRW vts)
  | ExclR {ii : Nat} {vts : VTS} (known : tab.clock ii = some vts) :
      SVDenotes tab (.ExclR ii) (.ExclR vts)
  | ExclW {ii : Nat} {vts : VTS} (known : tab.clock ii = some vts) :
      SVDenotes tab (.ExclW ii) (.ExclW vts)
  | Race : SVDenotes tab .Race .Race
  | New : SVDenotes tab .New .New
  | NoAccess : SVDenotes tab .NoAccess .NoAccess

def spec : HybridSpec (SVal Nat) (SVal VTS) where
  new := .New
  msm sv clock acc :=
    if acc.isWrite then absWrite sv clock acc else absRead sv clock acc
  value := SVDenotes

section Machine

variable {tab after : VtsTab} {sv : SVal Nat} {abs : SVal VTS}
  {refs : Multiset Nat} {tvid : Nat} {clock : VTS}

theorem SVDenotes.mono (denotes : SVDenotes tab sv abs)
    (grown : tab.Extends after) : SVDenotes after sv abs := by
  cases denotes with
  | SpinVar known => exact .SpinVar (grown _ _ known)
  | ShM2 known => exact .ShM2 (grown _ _ known)
  | ShM => exact .ShM
  | ShR known => exact .ShR (grown _ _ known)
  | ExclRW known => exact .ExclRW (grown _ _ known)
  | ExclR known => exact .ExclR (grown _ _ known)
  | ExclW known => exact .ExclW (grown _ _ known)
  | Race => exact .Race
  | New => exact .New
  | NoAccess => exact .NoAccess

theorem SVDenotes.isSpinVar (denotes : SVDenotes tab sv abs) :
    sv.isSpinVar = abs.isSpinVar := by
  cases denotes <;> rfl

theorem msmRead_returns (acc : Access) (notSpinning : acc.spinReading = false)
    (counted : tab.Counted (tvid ::ₘ refs))
    (mine : tab.clock tvid = some clock) (value : SVDenotes tab sv abs) :
    Returns (msmRead tab sv tvid acc) (fun result =>
      VtsTab.HybridResult SVDenotes tab tvid refs result
        (absRead abs clock acc)) := by
  rw [msmRead.eq_def, absRead.eq_def, if_neg (by simp [notSpinning]),
    value.isSpinVar]
  split
  · exact Returns.ok (.still _ counted (.refl tab) value)
  cases value with
  | ExclW known =>
      apply VtsTab.Returns.getOrdering counted known mine
      intro after counted₁ grown₁
      simp only [VTS.cmp_isLeq_iff]
      split
      · exact Returns.pure (.still _ counted₁ grown₁
          (.ExclR (grown₁ _ _ mine)))
      · simp only [Access.getLockSet, if_true]
        split
        · exact Returns.pure (.still _ counted₁ grown₁ .Race)
        · exact Returns.pure (.still _ counted₁ grown₁ .ShM)
  | @ExclR ii vts known =>
      apply VtsTab.Returns.getOrdering counted known mine
      intro after counted₁ grown₁
      dsimp only
      split
      · rename_i isEq
        have equal : vts = clock := (VTS.cmp_eq_eq_iff vts clock).mp isEq
        rw [if_pos (le_of_eq equal)]
        rw [equal] at known
        exact Returns.pure (.still _ counted₁ grown₁
          (.ExclR (grown₁ _ _ known)))
      · rename_i isLt
        rw [if_pos (VTS.le_of_cmp_lt isLt)]
        exact Returns.pure (.still _ counted₁ grown₁
          (.ExclR (grown₁ _ _ mine)))
      · rename_i notEq notLt
        rw [if_neg (VTS.not_le_of_cmp notEq notLt)]
        exact Returns.pure (.still _ counted₁ grown₁
          (.ShR (grown₁ _ _ known)))
  | ExclRW known =>
      apply VtsTab.Returns.getOrdering counted known mine
      intro after counted₁ grown₁
      simp only [VTS.cmp_isLeq_iff]
      split
      · exact Returns.pure (.still _ counted₁ grown₁
          (.ShR (grown₁ _ _ known)))
      · exact Returns.pure (.still _ counted₁ grown₁
          (.ShM2 (grown₁ _ _ known)))
  | ShR known => exact Returns.ok (.still _ counted (.refl tab) (.ShR known))
  | ShM =>
      simp only [Access.getLockSet, if_true]
      split
      · exact Returns.ok (.still _ counted (.refl tab) (.ExclRW mine))
      · exact Returns.ok (.still _ counted (.refl tab) .ShM)
  | ShM2 known =>
      simp only [Access.getLockSet, if_true]
      split
      · apply VtsTab.Returns.getOrdering counted known mine
        intro after counted₁ grown₁
        simp only [VTS.cmp_isLeq_iff]
        split
        · exact Returns.pure (.still _ counted₁ grown₁
            (.ExclRW (grown₁ _ _ mine)))
        · exact Returns.pure (.still _ counted₁ grown₁ .Race)
      · exact Returns.ok (.still _ counted (.refl tab) (.ShM2 mine))
  | SpinVar known =>
      apply (VtsTab.spinJoin_returns counted mine known).bind
      intro ⟨tab₁, vid⟩ moves
      exact Returns.pure (.moving moves (.SpinVar (moves.2.1 _ _ known)))
  | Race => exact Returns.ok (.still _ counted (.refl tab) .Race)
  | New => exact Returns.ok (.still _ counted (.refl tab) (.ExclR mine))
  | NoAccess => exact Returns.ok (.still _ counted (.refl tab) .NoAccess)

theorem msmWrite_returns (acc : Access)
    (counted : tab.Counted (tvid ::ₘ refs))
    (mine : tab.clock tvid = some clock) (value : SVDenotes tab sv abs) :
    Returns (msmWrite tab sv tvid acc) (fun result =>
      VtsTab.HybridResult SVDenotes tab tvid refs result
        (absWrite abs clock acc)) := by
  rw [msmWrite.eq_def, absWrite.eq_def, value.isSpinVar]
  split
  · exact Returns.ok (.still _ counted (.refl tab) value)
  cases value with
  | ExclW known | ExclR known =>
      apply VtsTab.Returns.getOrdering counted known mine
      intro after counted₁ grown₁
      simp only [VTS.cmp_isLeq_iff]
      split
      · exact Returns.pure (.still _ counted₁ grown₁
          (.ExclW (grown₁ _ _ mine)))
      · simp only [Access.getLockSet, Bool.false_eq_true, if_false]
        split
        · exact Returns.pure (.still _ counted₁ grown₁ .Race)
        · exact Returns.pure (.still _ counted₁ grown₁ .ShM)
  | @ExclRW ii vts known =>
      apply VtsTab.Returns.getOrdering counted known mine
      intro after counted₁ grown₁
      dsimp only
      split
      · rename_i isEq
        have equal : vts = clock := (VTS.cmp_eq_eq_iff vts clock).mp isEq
        rw [if_pos (le_of_eq equal)]
        rw [equal] at known
        exact Returns.pure (.still _ counted₁ grown₁
          (.ExclRW (grown₁ _ _ known)))
      · rename_i isLt
        rw [if_pos (VTS.le_of_cmp_lt isLt)]
        exact Returns.pure (.still _ counted₁ grown₁
          (.ExclRW (grown₁ _ _ mine)))
      · rename_i notEq notLt
        rw [if_neg (VTS.not_le_of_cmp notEq notLt)]
        simp only [Access.getLockSet, Bool.false_eq_true, if_false]
        split
        · exact Returns.pure (.still _ counted₁ grown₁ .Race)
        · exact Returns.pure (.still _ counted₁ grown₁
            (.ShM2 (grown₁ _ _ known)))
  | ShR | ShM =>
      simp only [Access.getLockSet, Bool.false_eq_true, if_false]
      split
      · exact Returns.ok (.still _ counted (.refl tab) (.ExclRW mine))
      · exact Returns.ok (.still _ counted (.refl tab) .ShM)
  | ShM2 known =>
      simp only [Access.getLockSet, Bool.false_eq_true, if_false]
      split
      · apply VtsTab.Returns.getOrdering counted known mine
        intro after counted₁ grown₁
        simp only [VTS.cmp_isLeq_iff]
        split
        · exact Returns.pure (.still _ counted₁ grown₁
            (.ExclRW (grown₁ _ _ mine)))
        · exact Returns.pure (.still _ counted₁ grown₁ .Race)
      · exact Returns.ok (.still _ counted (.refl tab) (.ShM2 mine))
  | SpinVar known =>
      apply (VtsTab.spinTick_returns acc.thr counted mine).bind
      intro ⟨tab₁, vid⟩ moves
      exact Returns.pure (.moving moves (.SpinVar (moves.2.1 _ _ mine)))
  | Race => exact Returns.ok (.still _ counted (.refl tab) .Race)
  | New => exact Returns.ok (.still _ counted (.refl tab) (.ExclW mine))
  | NoAccess => exact Returns.ok (.still _ counted (.refl tab) .NoAccess)

theorem spec_describes : spec.Describes machine where
  new _ := .New
  grows := SVDenotes.mono
  msm acc notSpinning counted mine value := by
    unfold HybridMachine.msm spec
    dsimp only [machine]
    split
    · exact msmWrite_returns acc counted mine value
    · exact msmRead_returns acc notSpinning counted mine value

end Machine

end HelgrindPlus.Ukal
