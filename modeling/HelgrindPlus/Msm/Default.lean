import HelgrindPlus.LibHB.SyncRefinement
import HelgrindPlus.Zsm.Tree

/-!
# The default memory state machine

Shadow values and the functions `msm_read` and `msm_write` of
`libhb_core.c`, with `MSM_RACE2ERR` zero and `CHECK_MSM` off.  A function
returns the new shadow value and whether `record_race_info` was called.

`AbsSVal` is the machine over timestamps.  The functions on ids agree with
it, the assertions included.
-/

namespace HelgrindPlus

open Outcome

/-- `C(Rmin,Wmin)`, `E`rror, `A`: no access, and `I`nvalid. -/
inductive SVal where
  | C (rmini wmini : Nat)
  | E
  | A
  | I
  deriving DecidableEq, Repr

/-- The constants `SVal_INVALID` and `SVal_NOACCESS`. -/
instance : ShadowVal SVal where
  invalid := .I
  noAccess := .A
  noAccess_ne_invalid := by decide

namespace SVal

def isC : SVal → Bool
  | C _ _ => true
  | E | A | I => false

/-- `is_sane_SVal_C`. -/
def isSaneC (tab : VtsTab) : SVal → Except Abort (VtsTab × Bool)
  | C rmini wmini => do
      let (tab, ord) ← tab.getOrdering rmini wmini
      pure (tab, ord.isLeq)
  | _ => .ok (tab, true)

end SVal

/-- The new value after a race, in the "consistent" setting. -/
def msmRaced (tab : VtsTab) (rmini wmini : Nat) (thr : Thr) :
    Except Abort (VtsTab × SVal × Bool) := do
  let (tab, ordxx) ← tab.getOrdering rmini wmini
  tlAssert (ordxx.isLeq = true)
  let (tab, rnew) ← tab.join2 rmini thr.viR
  let (tab, wnew) ← tab.join2 wmini thr.viW
  pure (tab, .C rnew wnew, true)

def msmRead (tab : VtsTab) (svOld : SVal) (thr : Thr) :
    Except Abort (VtsTab × SVal × Bool) :=
  match svOld with
  | .C rmini wmini => do
      let (tab, ord) ← tab.getOrdering rmini thr.viR
      if ord.isLeq then do
        -- RWLOCK subtlety: use tviW, not tviR
        let (tab, wnew) ← tab.join2 wmini thr.viW
        pure (tab, .C rmini wnew, false)
      else msmRaced tab rmini wmini thr
  | .A => .ok (tab, .A, false)
  | .E => .ok (tab, .E, false)
  | .I => .error .tlAssert

def msmWrite (tab : VtsTab) (svOld : SVal) (thr : Thr) :
    Except Abort (VtsTab × SVal × Bool) :=
  match svOld with
  | .C rmini wmini => do
      let (tab, ord) ← tab.getOrdering wmini thr.viW
      if ord.isLeq then pure (tab, .C thr.viW thr.viW, false)
      else msmRaced tab rmini wmini thr
  | .A => .ok (tab, .A, false)
  | .E => .ok (tab, .E, false)
  | .I => .error .tlAssert

/-- The value that `libhb_range_new` sets, with its assertion. -/
def rangeNewSVal (tab : VtsTab) (thr : Thr) :
    Except Abort (VtsTab × SVal) := do
  let sv := SVal.C thr.viW thr.viW
  let (tab, sane) ← sv.isSaneC tab
  tlAssert (sane = true)
  pure (tab, sv)

inductive AbsSVal where
  | C (rmin wmin : VTS)
  | E
  | A
  | I
  deriving DecidableEq

namespace AbsSVal

def raced (rmin wmin : VTS) (clocks : Clocks) :
    Except Abort (AbsSVal × Bool) :=
  if rmin ≤ wmin then
    .ok (C (rmin.join clocks.vR) (wmin.join clocks.vW), true)
  else .error .tlAssert

def read (sv : AbsSVal) (clocks : Clocks) : Except Abort (AbsSVal × Bool) :=
  match sv with
  | C rmin wmin =>
      if rmin ≤ clocks.vR then .ok (C rmin (wmin.join clocks.vW), false)
      else raced rmin wmin clocks
  | A => .ok (A, false)
  | E => .ok (E, false)
  | I => .error .tlAssert

def write (sv : AbsSVal) (clocks : Clocks) : Except Abort (AbsSVal × Bool) :=
  match sv with
  | C rmin wmin =>
      if wmin ≤ clocks.vW then .ok (C clocks.vW clocks.vW, false)
      else raced rmin wmin clocks
  | A => .ok (A, false)
  | E => .ok (E, false)
  | I => .error .tlAssert

end AbsSVal

namespace VtsTab

inductive SVDenotes (tab : VtsTab) : SVal → AbsSVal → Prop where
  | C {rmini wmini : Nat} {rmin wmin : VTS}
      (read : tab.clock rmini = some rmin)
      (write : tab.clock wmini = some wmin) :
      SVDenotes tab (.C rmini wmini) (.C rmin wmin)
  | E : SVDenotes tab .E .E
  | A : SVDenotes tab .A .A
  | I : SVDenotes tab .I .I

theorem SVDenotes.mono {tab after : VtsTab} {sv : SVal} {abs : AbsSVal}
    (denotes : SVDenotes tab sv abs) (grown : Extends tab after) :
    SVDenotes after sv abs := by
  cases denotes with
  | C read write => exact .C (grown _ _ read) (grown _ _ write)
  | E => exact .E
  | A => exact .A
  | I => exact .I

/-- What a machine function promises besides the verdict. -/
structure MsmResult (before : VtsTab) (refs : Multiset Nat)
    (result : VtsTab × SVal × Bool) (expected : AbsSVal × Bool) : Prop where
  counted : result.1.Counted refs
  grown : Extends before result.1
  value : SVDenotes result.1 result.2.1 expected.1
  report : result.2.2 = expected.2

section Machine

variable {tab : VtsTab} {refs : Multiset Nat} {thr : Thr} {clocks : Clocks}
  {sv : SVal} {abs : AbsSVal} {rmini wmini : Nat} {rmin wmin : VTS}

private theorem msmRaced_agrees (counted : tab.Counted refs)
    (denotes : tab.Denotes thr.viR thr.viW clocks)
    (read : tab.clock rmini = some rmin)
    (write : tab.clock wmini = some wmin) :
    Agrees (msmRaced tab rmini wmini thr) (AbsSVal.raced rmin wmin clocks)
      (MsmResult tab refs) := by
  obtain ⟨⟨tab₁, ord⟩, ordered, counted₁, same₁, verdict⟩ :=
    getOrdering_returns counted read write
  dsimp only at counted₁ same₁ verdict
  have leq := VTS.cmp_isLeq_iff rmin wmin
  unfold msmRaced AbsSVal.raced
  simp only [ordered, ok_bind, verdict]
  split
  · rename_i sane
    rw [tlAssert_of (leq.mpr sane)]
    rw [← same₁] at read write
    have denotes₁ := denotes.mono (Extends.of_clock_eq same₁)
    apply (join2_returns counted₁ read denotes₁.read).bind
    rintro ⟨tab₂, rnew⟩ ⟨counted₂, grown₂, knownR⟩
    apply (join2_returns counted₂ (grown₂ _ _ write)
      (denotes₁.mono grown₂).write).bind
    rintro ⟨tab₃, wnew⟩ ⟨counted₃, grown₃, knownW⟩
    apply Returns.pure
    exact ⟨counted₃, (Extends.of_clock_eq same₁).trans (grown₂.trans grown₃),
      .C (grown₃ _ _ knownR) knownW, rfl⟩
  · rename_i insane
    have failed : tlAssert ((rmin.cmp wmin).isLeq = true) =
        .error .tlAssert := by
      rw [tlAssert, if_neg (fun passed => insane (leq.mp passed))]
    rw [failed]
    rfl

theorem msmRead_agrees (counted : tab.Counted refs)
    (denotes : tab.Denotes thr.viR thr.viW clocks)
    (value : SVDenotes tab sv abs) :
    Agrees (msmRead tab sv thr) (abs.read clocks) (MsmResult tab refs) := by
  cases value with
  | @C rmini wmini rmin wmin read write =>
      obtain ⟨⟨tab₁, ord⟩, ordered, counted₁, same₁, verdict⟩ :=
        getOrdering_returns counted read denotes.read
      dsimp only at counted₁ same₁ verdict
      have leq := VTS.cmp_isLeq_iff rmin clocks.vR
      have grown₁ : Extends tab tab₁ := Extends.of_clock_eq same₁
      unfold msmRead AbsSVal.read
      simp only [ordered, ok_bind, verdict]
      by_cases ordered : rmin ≤ clocks.vR
      · rw [if_pos (leq.mpr ordered), if_pos ordered]
        apply (join2_returns counted₁ (grown₁ _ _ write)
          (denotes.mono grown₁).write).bind
        rintro ⟨tab₂, wnew⟩ ⟨counted₂, grown₂, known⟩
        apply Returns.pure
        exact ⟨counted₂, grown₁.trans grown₂,
          .C (grown₂ _ _ (grown₁ _ _ read)) known, rfl⟩
      · rw [if_neg (fun passed => ordered (leq.mp passed)), if_neg ordered]
        have raced := msmRaced_agrees counted₁ (denotes.mono grown₁)
          (grown₁ _ _ read) (grown₁ _ _ write)
        exact raced.weaken fun result expected holds =>
          { holds with grown := grown₁.trans holds.grown }
  | E => exact Returns.ok ⟨counted, Extends.refl _, .E, rfl⟩
  | A => exact Returns.ok ⟨counted, Extends.refl _, .A, rfl⟩
  | I => rfl

theorem msmWrite_agrees (counted : tab.Counted refs)
    (denotes : tab.Denotes thr.viR thr.viW clocks)
    (value : SVDenotes tab sv abs) :
    Agrees (msmWrite tab sv thr) (abs.write clocks) (MsmResult tab refs) := by
  cases value with
  | @C rmini wmini rmin wmin read write =>
      obtain ⟨⟨tab₁, ord⟩, ordered, counted₁, same₁, verdict⟩ :=
        getOrdering_returns counted write denotes.write
      dsimp only at counted₁ same₁ verdict
      have leq := VTS.cmp_isLeq_iff wmin clocks.vW
      have grown₁ : Extends tab tab₁ := Extends.of_clock_eq same₁
      unfold msmWrite AbsSVal.write
      simp only [ordered, ok_bind, verdict]
      by_cases ordered : wmin ≤ clocks.vW
      · rw [if_pos (leq.mpr ordered), if_pos ordered]
        apply Returns.pure
        have mine := (denotes.mono grown₁).write
        exact ⟨counted₁, grown₁, .C mine mine, rfl⟩
      · rw [if_neg (fun passed => ordered (leq.mp passed)), if_neg ordered]
        have raced := msmRaced_agrees counted₁ (denotes.mono grown₁)
          (grown₁ _ _ read) (grown₁ _ _ write)
        exact raced.weaken fun result expected holds =>
          { holds with grown := grown₁.trans holds.grown }
  | E => exact Returns.ok ⟨counted, Extends.refl _, .E, rfl⟩
  | A => exact Returns.ok ⟨counted, Extends.refl _, .A, rfl⟩
  | I => rfl

/-- The assertion of `libhb_range_new` compares an id with itself. -/
theorem rangeNewSVal_eq (tab : VtsTab) (thr : Thr) :
    rangeNewSVal tab thr = .ok (tab, .C thr.viW thr.viW) := by
  have same : tab.getOrdering thr.viW thr.viW = .ok (tab, .eq) := by
    simp [getOrdering]
  simp only [rangeNewSVal, SVal.isSaneC, same, ok_bind]
  rfl

end Machine

end VtsTab
end HelgrindPlus
