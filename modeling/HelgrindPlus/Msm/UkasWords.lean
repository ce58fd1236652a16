import HelgrindPlus.Lib.Fields
import HelgrindPlus.Msm.Ukas
import Mathlib.Algebra.GroupWithZero.Nat

/-!
# The words of the short hybrid machine

`libhb_ukas_sval.h` and `libhb_uka_svalconst.h`.  The state of a location, the
handle of a lock set and the id of a clock share one word of 64 bits: the state
in the upper three bits, the handle from bit 32 on and the id from bit 0 on.
A `Shadow` is what such a word is meant to say.
-/

namespace HelgrindPlus.Ukas

open Outcome

abbrev Word := BitVec 64

abbrev VtsID := BitVec 32

abbrev WordSetID := BitVec 32

namespace Word

def svalRace : Word := 4#64 <<< 8

def svalNew : Word := 2#64 <<< 8

def svalNoAccess : Word := 1#64 <<< 8

def svalInvalid : Word := 0#64 <<< 8

/-- `SVAL__N_LSID_MASK`. -/
def nLsidMask : Word := (1#64 <<< 28) - 1#64

def nLsidShift : Nat := 32

/-- `SVAL__N_VTSID_MASK`. -/
def nVtsidMask : Word := (1#64 <<< 30) - 1#64

def nVtsidShift : Nat := 0

def isSaneWordSetIDLSet (wset : WordSetID) : Bool :=
  decide (0#32 ≤ wset) && decide (wset.setWidth 64 ≤ nLsidMask)

/-- The constructors that mask the id they are given. -/
def mkMasked (state : Word) (vtsid : VtsID) : Word :=
  (state <<< 61) ||| ((vtsid.setWidth 64 &&& nVtsidMask) <<< nVtsidShift)

/-- The constructors that check the handle and mask nothing.  `SVal__mk_fail`
ends in `tl_assert(0)`. -/
def mkShared (state : Word) (vtsid : VtsID) (lset : WordSetID) :
    Except Abort Word :=
  if isSaneWordSetIDLSet lset then
    .ok ((state <<< 61) ||| (lset.setWidth 64 <<< nLsidShift)
      ||| (vtsid.setWidth 64 <<< nVtsidShift))
  else .error .tlAssert

def mkSpinVar (vtsid : VtsID) : Word := mkMasked 7#64 vtsid

def mkShM (vtsid : VtsID) (lset : WordSetID) : Except Abort Word :=
  mkShared 5#64 vtsid lset

def mkShR (vtsid : VtsID) (lset : WordSetID) : Except Abort Word :=
  mkShared 4#64 vtsid lset

def mkExclR (vtsid : VtsID) : Word := mkMasked 2#64 vtsid

def mkExclW (vtsid : VtsID) : Word := mkMasked 1#64 vtsid

def mkRace : Word := svalRace

def isState (state sv : Word) : Bool := sv >>> 61 == state

def isSpinVar (sv : Word) : Bool := isState 7#64 sv

def isShM (sv : Word) : Bool := isState 5#64 sv

def isShR (sv : Word) : Bool := isState 4#64 sv

def isSh (sv : Word) : Bool := isShM sv || isShR sv

def isExclR (sv : Word) : Bool := isState 2#64 sv

def isExclW (sv : Word) : Bool := isState 1#64 sv

def isRace (sv : Word) : Bool := sv == svalRace

def isNew (w64 : Word) : Bool := w64 == svalNew

def isNoAccess (w64 : Word) : Bool := w64 == svalNoAccess

def hasVTS (sv : Word) : Bool :=
  isExclW sv || isExclR sv || isShM sv || isShR sv || isSpinVar sv

def getVTS (sv : Word) : Except Abort VtsID := do
  tlAssert (hasVTS sv = true)
  pure (((sv &&& nVtsidMask) >>> nVtsidShift).setWidth 32)

def getLset (sv : Word) : Except Abort WordSetID := do
  tlAssert (isSh sv = true)
  pure (((sv >>> nLsidShift) &&& nLsidMask).setWidth 32)

end Word

/-- The ids that the field of a word can hold. -/
abbrev ClockID := {vtsid : VtsID // vtsid.toNat < 2 ^ 30}

/-- The handles that the field of a word can hold. -/
abbrev LockSetID := {lset : WordSetID // lset.toNat < 2 ^ 28}

inductive Shadow where
  | SpinVar (vtsid : ClockID)
  | ShM (vtsid : ClockID) (lset : LockSetID)
  | ShR (vtsid : ClockID) (lset : LockSetID)
  | ExclR (vtsid : ClockID)
  | ExclW (vtsid : ClockID)
  | Race
  | New
  | NoAccess
  deriving DecidableEq

inductive State where
  | SpinVar | ShM | ShR | ExclR | ExclW | Race | New | NoAccess
  deriving DecidableEq

namespace Shadow

def state : Shadow → State
  | SpinVar _ => .SpinVar
  | ShM _ _ => .ShM
  | ShR _ _ => .ShR
  | ExclR _ => .ExclR
  | ExclW _ => .ExclW
  | Race => .Race
  | New => .New
  | NoAccess => .NoAccess

def vtsid : Shadow → Option ClockID
  | SpinVar vtsid | ShM vtsid _ | ShR vtsid _ | ExclR vtsid | ExclW vtsid =>
      some vtsid
  | Race | New | NoAccess => none

def lset : Shadow → Option LockSetID
  | ShM _ lset | ShR _ lset => some lset
  | SpinVar _ | ExclR _ | ExclW _ | Race | New | NoAccess => none

/-- The word that the source makes for a shadow value. -/
def encode : Shadow → Except Abort Word
  | SpinVar vtsid => .ok (Word.mkSpinVar vtsid)
  | ShM vtsid lset => Word.mkShM vtsid lset
  | ShR vtsid lset => Word.mkShR vtsid lset
  | ExclR vtsid => .ok (Word.mkExclR vtsid)
  | ExclW vtsid => .ok (Word.mkExclW vtsid)
  | Race => .ok Word.mkRace
  | New => .ok Word.svalNew
  | NoAccess => .ok Word.svalNoAccess

end Shadow

/-- The predicate by which the source asks for a state. -/
def State.test : State → Word → Bool
  | SpinVar => Word.isSpinVar
  | ShM => Word.isShM
  | ShR => Word.isShR
  | ExclR => Word.isExclR
  | ExclW => Word.isExclW
  | Race => Word.isRace
  | New => Word.isNew
  | NoAccess => Word.isNoAccess

namespace Word

variable {state sv mark : Word} {vtsid : VtsID} {lset : WordSetID}
  {code lsetField vtsidField : Nat}

/-- The word holds a state in its upper bits and two fields below it, each
in its place. -/
structure HasFields (sv : Word) (code lsetField vtsidField : Nat) : Prop where
  shares : sv.toNat = code * 2 ^ 61 + lsetField * 2 ^ 32 + vtsidField
  lsetFits : lsetField < 2 ^ 28
  vtsidFits : vtsidField < 2 ^ 30

theorem toNat_state (small : state.toNat < 8) :
    (state <<< 61).toNat = state.toNat * 2 ^ 61 := by
  apply Fields.toNat_shiftLeft
  omega

theorem toNat_wide (handle : BitVec 32) :
    (handle.setWidth 64).toNat = handle.toNat :=
  BitVec.toNat_setWidth_of_le (by decide)

theorem mkMasked_hasFields (vtsid : VtsID) (small : state.toNat < 8) :
    HasFields (mkMasked state vtsid) state.toNat 0 (vtsid.toNat % 2 ^ 30) := by
  have masked : ((vtsid.setWidth 64 &&& nVtsidMask) <<< nVtsidShift).toNat =
      vtsid.toNat % 2 ^ 30 := by
    rw [nVtsidShift, BitVec.shiftLeft_zero, nVtsidMask,
      Fields.toNat_and_mask (by decide), toNat_wide]
  have below : vtsid.toNat % 2 ^ 30 < 2 ^ 30 := Nat.mod_lt _ (by decide)
  refine ⟨?_, by decide, below⟩
  rw [mkMasked, Fields.toNat_or 61, toNat_state small, masked]
  · omega
  · rw [toNat_state small]
    exact Nat.dvd_mul_left _ _
  · omega

private theorem isSaneWordSetIDLSet_iff :
    isSaneWordSetIDLSet lset = true ↔ lset.toNat < 2 ^ 28 := by
  have mask : nLsidMask.toNat = 2 ^ 28 - 1 := Fields.toNat_mask (by decide)
  simp only [isSaneWordSetIDLSet, Bool.and_eq_true, decide_eq_true_eq,
    BitVec.le_def, mask, toNat_wide, BitVec.toNat_ofNat]
  omega

/-- An id is not masked, but 30 bits do not reach the handle. -/
theorem mkShared_hasFields (small : state.toNat < 8)
    (lsetFits : lset.toNat < 2 ^ 28) (vtsidFits : vtsid.toNat < 2 ^ 30) :
    Returns (mkShared state vtsid lset)
      (HasFields · state.toNat lset.toNat vtsid.toNat) := by
  have shifted : (lset.setWidth 64 <<< nLsidShift).toNat =
      lset.toNat * 2 ^ 32 := by
    rw [nLsidShift, Fields.toNat_shiftLeft, toNat_wide]
    rw [toNat_wide]
    omega
  have upper : ((state <<< 61) ||| (lset.setWidth 64 <<< nLsidShift)).toNat =
      state.toNat * 2 ^ 61 + lset.toNat * 2 ^ 32 := by
    rw [Fields.toNat_or 61, toNat_state small, shifted]
    · rw [toNat_state small]
      exact Nat.dvd_mul_left _ _
    · omega
  rw [mkShared, if_pos (isSaneWordSetIDLSet_iff.mpr lsetFits)]
  apply Returns.ok
  refine ⟨?_, lsetFits, vtsidFits⟩
  rw [nVtsidShift, BitVec.shiftLeft_zero, Fields.toNat_or 32, upper,
    toNat_wide]
  · rw [upper]
    omega
  · rw [toNat_wide]
    exact vtsid.isLt

private theorem getVTS_of_hasVTS (has : hasVTS sv = true) :
    Returns (getVTS sv) (fun vtsid => vtsid.toNat = sv.toNat % 2 ^ 30) := by
  rw [getVTS, tlAssert_of has]
  apply Returns.ok
  rw [nVtsidShift, BitVec.ushiftRight_zero, BitVec.toNat_setWidth, nVtsidMask,
    Fields.toNat_and_mask (by decide)]
  omega

private theorem getLset_of_isSh (shared : isSh sv = true) :
    Returns (getLset sv)
      (fun lset => lset.toNat = sv.toNat / 2 ^ 32 % 2 ^ 28) := by
  rw [getLset, tlAssert_of shared]
  apply Returns.ok
  rw [BitVec.toNat_setWidth, nLsidMask, Fields.toNat_and_mask (by decide),
    nLsidShift, Fields.toNat_ushiftRight]
  omega

/-- The whole word is truncated to an id, and the mask drops what the
truncation keeps above the id. -/
theorem mkSpinVar_setWidth (has : hasVTS sv = true) :
    Returns (getVTS sv)
      (fun vtsid => mkSpinVar (sv.setWidth 32) = mkSpinVar vtsid) := by
  apply (getVTS_of_hasVTS has).mono
  intro vtsid isLow
  apply BitVec.eq_of_toNat_eq
  rw [mkSpinVar, mkSpinVar, (mkMasked_hasFields _ (by decide)).shares,
    (mkMasked_hasFields _ (by decide)).shares, isLow, BitVec.toNat_setWidth]
  omega

namespace HasFields

private theorem isState_iff (fields : HasFields sv code lsetField vtsidField) :
    isState state sv = true ↔ code = state.toNat := by
  obtain ⟨shares, lsetFits, vtsidFits⟩ := fields
  have top : sv.toNat / 2 ^ 61 = code := by omega
  rw [isState, beq_iff_eq, ← BitVec.toNat_inj, Fields.toNat_ushiftRight, top]

theorem getVTS_eq (fields : HasFields sv code lsetField vtsid.toNat)
    (has : hasVTS sv = true) : getVTS sv = .ok vtsid := by
  obtain ⟨shares, lsetFits, vtsidFits⟩ := fields
  obtain ⟨found, tells, isLow⟩ := getVTS_of_hasVTS has
  rw [tells, BitVec.eq_of_toNat_eq (show found.toNat = vtsid.toNat by omega)]

theorem getLset_eq (fields : HasFields sv code lset.toNat vtsidField)
    (shared : isSh sv = true) : getLset sv = .ok lset := by
  obtain ⟨shares, lsetFits, vtsidFits⟩ := fields
  obtain ⟨found, tells, isMiddle⟩ := getLset_of_isSh shared
  rw [tells, BitVec.eq_of_toNat_eq (show found.toNat = lset.toNat by omega)]

/-- The constants have no bit in the state. -/
theorem ne_of_small (fields : HasFields sv code lsetField vtsidField)
    (stated : 0 < code) (small : mark.toNat < 2 ^ 61) : sv ≠ mark := by
  rintro rfl
  have shares := fields.shares
  omega

end HasFields

end Word

namespace Shadow

variable {shadow other : Shadow} {sv : Word}

/-- The upper three bits. -/
def code : Shadow → Nat
  | SpinVar _ => 7
  | ShM _ _ => 5
  | ShR _ _ => 4
  | ExclR _ => 2
  | ExclW _ => 1
  | Race | New | NoAccess => 0

def lsetField : Shadow → WordSetID
  | ShM _ lset | ShR _ lset => lset
  | SpinVar _ | ExclR _ | ExclW _ | Race | New | NoAccess => 0#32

/-- The field of the id, where the constants have their mark. -/
def vtsidField : Shadow → VtsID
  | SpinVar vtsid | ShM vtsid _ | ShR vtsid _ | ExclR vtsid | ExclW vtsid =>
      vtsid
  | Race => 1024#32
  | New => 512#32
  | NoAccess => 256#32

theorem code_pos (clocked : shadow.vtsid.isSome = true) : 0 < shadow.code := by
  cases shadow with
  | SpinVar | ShM | ShR | ExclR | ExclW => exact Nat.succ_pos _
  | Race | New | NoAccess => cases clocked

/-- The word is what the shadow value says, field by field. -/
def Laid (shadow : Shadow) (sv : Word) : Prop :=
  Word.HasFields sv shadow.code shadow.lsetField.toNat
    shadow.vtsidField.toNat

theorem laid_mkMasked {state : Word} (vtsid : ClockID)
    (small : state.toNat < 8) :
    Word.HasFields (Word.mkMasked state vtsid) state.toNat 0
      vtsid.val.toNat := by
  have fields := Word.mkMasked_hasFields vtsid.val small
  rwa [Nat.mod_eq_of_lt vtsid.property] at fields

theorem encode_laid (shadow : Shadow) : Returns shadow.encode shadow.Laid := by
  cases shadow with
  | SpinVar vtsid | ExclR vtsid | ExclW vtsid =>
      exact Returns.ok (laid_mkMasked vtsid (by decide))
  | ShM vtsid lset | ShR vtsid lset =>
      exact Word.mkShared_hasFields (by decide) lset.property vtsid.property
  | Race | New | NoAccess =>
      exact Returns.ok ⟨rfl, by decide, by decide⟩

/-- A shadow value is its state and its fields. -/
theorem eq_of_parts (states : shadow.state = other.state)
    (vtsids : shadow.vtsid = other.vtsid) (lsets : shadow.lset = other.lset) :
    shadow = other := by
  cases shadow <;> cases other <;> cases states <;> cases vtsids <;>
    cases lsets <;> rfl

namespace Laid

theorem test_iff (laid : shadow.Laid sv) (state : State) :
    state.test sv = true ↔ state = shadow.state := by
  cases state with
  | SpinVar | ShM | ShR | ExclR | ExclW =>
      refine laid.isState_iff.trans ?_
      cases shadow <;> simp [code, Shadow.state]
  | Race | New | NoAccess =>
      refine beq_iff_eq.trans ?_
      cases shadow with
      | SpinVar | ShM | ShR | ExclR | ExclW =>
          simp only [Shadow.state, reduceCtorEq, iff_false]
          exact laid.ne_of_small (code_pos rfl) (by decide)
      | Race | New | NoAccess =>
          rw [← BitVec.toNat_inj, laid.shares]
          simp [Shadow.state, code, lsetField, vtsidField, Word.svalRace,
            Word.svalNew, Word.svalNoAccess]

private theorem ne_invalid (laid : shadow.Laid sv) : sv ≠ Word.svalInvalid := by
  cases shadow with
  | SpinVar | ShM | ShR | ExclR | ExclW =>
      exact laid.ne_of_small (code_pos rfl) (by decide)
  | Race | New | NoAccess =>
      rw [ne_eq, ← BitVec.toNat_inj, laid.shares]
      decide

theorem test_eq (laid : shadow.Laid sv) (state : State) :
    state.test sv = decide (state = shadow.state) := by
  rw [Bool.eq_iff_iff, decide_eq_true_eq]
  exact laid.test_iff state

theorem isSpinVar_eq (laid : shadow.Laid sv) :
    Word.isSpinVar sv = decide (State.SpinVar = shadow.state) :=
  laid.test_eq .SpinVar

theorem isShM_eq (laid : shadow.Laid sv) :
    Word.isShM sv = decide (State.ShM = shadow.state) :=
  laid.test_eq .ShM

theorem isShR_eq (laid : shadow.Laid sv) :
    Word.isShR sv = decide (State.ShR = shadow.state) :=
  laid.test_eq .ShR

theorem isExclR_eq (laid : shadow.Laid sv) :
    Word.isExclR sv = decide (State.ExclR = shadow.state) :=
  laid.test_eq .ExclR

theorem isExclW_eq (laid : shadow.Laid sv) :
    Word.isExclW sv = decide (State.ExclW = shadow.state) :=
  laid.test_eq .ExclW

theorem isRace_eq (laid : shadow.Laid sv) :
    Word.isRace sv = decide (State.Race = shadow.state) :=
  laid.test_eq .Race

theorem isNew_eq (laid : shadow.Laid sv) :
    Word.isNew sv = decide (State.New = shadow.state) :=
  laid.test_eq .New

theorem isNoAccess_eq (laid : shadow.Laid sv) :
    Word.isNoAccess sv = decide (State.NoAccess = shadow.state) :=
  laid.test_eq .NoAccess

theorem hasVTS_eq (laid : shadow.Laid sv) :
    Word.hasVTS sv = shadow.vtsid.isSome := by
  rw [Word.hasVTS, laid.isExclW_eq, laid.isExclR_eq, laid.isShM_eq,
    laid.isShR_eq, laid.isSpinVar_eq]
  cases shadow <;> rfl

private theorem isSh_eq (laid : shadow.Laid sv) :
    Word.isSh sv = shadow.lset.isSome := by
  rw [Word.isSh, laid.isShM_eq, laid.isShR_eq]
  cases shadow <;> rfl

theorem getVTS_eq (laid : shadow.Laid sv) {vtsid : ClockID}
    (carries : shadow.vtsid = some vtsid) :
    Word.getVTS sv = .ok vtsid.val := by
  have has : Word.hasVTS sv = true := by
    rw [laid.hasVTS_eq, carries]
    rfl
  have field : shadow.vtsidField = vtsid.val := by
    cases shadow <;> cases carries <;> rfl
  rw [← field]
  exact Word.HasFields.getVTS_eq laid has

theorem getLset_eq (laid : shadow.Laid sv) {lset : LockSetID}
    (carries : shadow.lset = some lset) :
    Word.getLset sv = .ok lset.val := by
  have shared : Word.isSh sv = true := by
    rw [laid.isSh_eq, carries]
    rfl
  have field : shadow.lsetField = lset.val := by
    cases shadow <;> cases carries <;> rfl
  rw [← field]
  exact Word.HasFields.getLset_eq laid shared

theorem vtsids (laid : shadow.Laid sv) :
    shadow.vtsid.map Subtype.val = (Word.getVTS sv).toOption := by
  cases carries : shadow.vtsid with
  | some vtsid =>
      rw [laid.getVTS_eq carries]
      rfl
  | none =>
      have lacks : Word.hasVTS sv = false := by
        rw [laid.hasVTS_eq, carries]
        rfl
      rw [Word.getVTS, tlAssert_of_not (by simp [lacks])]
      rfl

theorem lsets (laid : shadow.Laid sv) :
    shadow.lset.map Subtype.val = (Word.getLset sv).toOption := by
  cases carries : shadow.lset with
  | some lset =>
      rw [laid.getLset_eq carries]
      rfl
  | none =>
      have lacks : Word.isSh sv = false := by
        rw [laid.isSh_eq, carries]
        rfl
      rw [Word.getLset, tlAssert_of_not (by simp [lacks])]
      rfl

/-- A word says one thing only. -/
theorem unique (laid : shadow.Laid sv) (laid' : other.Laid sv) :
    shadow = other := by
  apply eq_of_parts
  · exact (laid'.test_iff _).mp ((laid.test_iff _).mpr rfl)
  · apply Option.map_injective Subtype.val_injective
    rw [laid.vtsids, laid'.vtsids]
  · apply Option.map_injective Subtype.val_injective
    rw [laid.lsets, laid'.lsets]

end Laid

private theorem encode_injective : Function.Injective encode := by
  intro shadow other same
  obtain ⟨sv, encoded, laid⟩ := shadow.encode_laid
  exact laid.unique ((other.encode_laid).of_eq_ok (same ▸ encoded))

end Shadow

/-- What a word is made from is read back from it, and truncating it to an id
keeps the id. -/
theorem words_lossless :
    (∀ shadow : Shadow, Returns shadow.encode (fun sv =>
      (∀ vtsid, shadow.vtsid = some vtsid →
        Word.getVTS sv = .ok vtsid.val) ∧
      (∀ lset, shadow.lset = some lset → Word.getLset sv = .ok lset.val) ∧
      (∀ state : State, state.test sv = true ↔ state = shadow.state) ∧
      sv ≠ Word.svalInvalid)) ∧
    (∀ shadow other : Shadow, shadow.encode = other.encode →
      shadow = other) ∧
    (∀ sv : Word, Word.hasVTS sv = true → Returns (Word.getVTS sv)
      (fun vtsid => Word.mkSpinVar (sv.setWidth 32) =
        Word.mkSpinVar vtsid)) := by
  refine ⟨?_, Shadow.encode_injective, fun _ => Word.mkSpinVar_setWidth⟩
  intro shadow
  apply shadow.encode_laid.mono
  intro sv laid
  exact ⟨fun _ => laid.getVTS_eq, fun _ => laid.getLset_eq, laid.test_iff,
    laid.ne_invalid⟩

example : Word.mkShM 42#32 3#32 = .ok 0xA00000030000002A#64 := by decide

end HelgrindPlus.Ukas
