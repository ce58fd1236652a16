import HelgrindPlus.Lib.Outcome
import Mathlib.Data.List.Basic
import Mathlib.Data.Set.Card
import Mathlib.Logic.Function.Basic

/-!
# Sparse word arrays

The 256-way tree of `m_sparsewa.c`.  A key is a word of `top + 1` bytes, where
`top` is `_3_or_7`; each level of the tree takes one byte of it.  A pointer to
a node is the tree below it, so that writing through the pointers on the way
to a key means building that path anew.
-/

namespace HelgrindPlus

open Outcome

namespace SparseWA

inductive Stop where
  | vgAssert | outOfFuel
  deriving DecidableEq, Repr

def vgAssert (condition : Prop) [Decidable condition] : Except Stop Unit :=
  if condition then .ok () else .error .vgAssert

theorem vgAssert_of {condition : Prop} [Decidable condition]
    (holds : condition) : vgAssert condition = .ok () :=
  if_pos holds

abbrev Word (top : Nat) := BitVec (8 * (top + 1))

/-- What a pointer to a `Level0` or a `LevelN` points to.  The magic word is
the constructor. -/
inductive Node (top : Nat) where
  | null
  | level0 (words : BitVec 8 → Word top) (nInUse : Int)
      (inUse : BitVec 5 → BitVec 8)
  | levelN (child : BitVec 8 → Node top) (nInUse : Int) (level : Nat)

def bix (ix : BitVec 8) : BitVec 5 := (ix >>> 3).setWidth 5

def off (ix : BitVec 8) : Nat := (ix &&& 7).toNat

def swa_bitarray_read (arr : BitVec 5 → BitVec 8) (ix : BitVec 8) :
    BitVec 8 :=
  (arr (bix ix) >>> off ix) &&& 1

/-- The array after `swa_bitarray_read_then_set`. -/
def swa_bitarray_set (arr : BitVec 5 → BitVec 8) (ix : BitVec 8) :
    BitVec 5 → BitVec 8 :=
  Function.update arr (bix ix) (arr (bix ix) ||| (1#8 <<< off ix))

/-- The array after `swa_bitarray_read_then_clear`. -/
def swa_bitarray_clear (arr : BitVec 5 → BitVec 8) (ix : BitVec 8) :
    BitVec 5 → BitVec 8 :=
  Function.update arr (bix ix) (arr (bix ix) &&& ~~~(1#8 <<< off ix))

variable {top : Nat}

/-- The byte of the key that is used on a level. -/
def ixOf (key : Word top) (level : Nat) : BitVec 8 :=
  (key >>> (level * 8)).setWidth 8

def Node.isNull : Node top → Bool
  | .null => true
  | _ => false

def swa_new_LevelN (level : Nat) : Node top := .levelN (fun _ => .null) 0 level

def swa_new_Level0 : Node top := .level0 (fun _ => 0) 0 (fun _ => 0)

/-- The loop of `VG_(lookupSWA)` from a level on. -/
def lookupFrom (key : Word top) :
    Nat → Node top → Except Stop (Option (Word top))
  | _, .null => .ok none
  | 0, .level0 words nInUse inUse => do
      vgAssert (nInUse > 0)
      if swa_bitarray_read inUse (ixOf key 0) = 0 then pure none
      else pure (some (words (ixOf key 0)))
  | i + 1, .levelN child nInUse level => do
      vgAssert (level = i + 1)
      vgAssert (nInUse > 0)
      lookupFrom key i (child (ixOf key (i + 1)))
  | _, _ => .error .vgAssert

/-- The loop of `VG_(addToSWA)` from a level on: the changed node, and whether
the key was there. -/
def addFrom (key val : Word top) :
    Nat → Node top → Except Stop (Node top × Bool)
  | 0, .level0 words nInUse inUse => do
      let ix := ixOf key 0
      let present := swa_bitarray_read inUse ix ≠ 0
      let nInUse := if present then nInUse else nInUse + 1
      vgAssert (nInUse ≥ 1 ∧ nInUse ≤ 256)
      pure (.level0 (Function.update words ix val) nInUse
        (swa_bitarray_set inUse ix), present)
  | i + 1, .levelN child nInUse level => do
      vgAssert (level = i + 1)
      let ix := ixOf key (i + 1)
      let isNew := (child ix).isNull
      let sub := if isNew then
        if i = 0 then swa_new_Level0 else swa_new_LevelN i else child ix
      let nInUse := if isNew then nInUse + 1 else nInUse
      vgAssert (nInUse ≥ 1 ∧ nInUse ≤ 256)
      let (sub, present) ← addFrom key val i sub
      pure (.levelN (Function.update child ix sub) nInUse level, present)
  | _, _ => .error .vgAssert

/-- The loops of `VG_(delFromSWA)`, down from a level and back up to it: the
changed node, which is `null` if it was freed, and the value of the key.  The
arrays `visited` and `visitedIx` are the calls that have not returned yet. -/
def delFrom (key : Word top) :
    Nat → Node top → Except Stop (Option (Node top × Word top))
  | _, .null => .ok none
  | 0, .level0 words nInUse inUse => do
      vgAssert (nInUse > 0)
      let ix := ixOf key 0
      if swa_bitarray_read inUse ix = 0 then pure none
      else if nInUse - 1 > 0 then
        pure (some (.level0 words (nInUse - 1) (swa_bitarray_clear inUse ix),
          words ix))
      else pure (some (.null, words ix))
  | i + 1, .levelN child nInUse level => do
      vgAssert (level = i + 1)
      vgAssert (nInUse > 0)
      let ix := ixOf key (i + 1)
      match ← delFrom key i (child ix) with
      | none => pure none
      | some (sub, oldV) =>
          if sub.isNull then do
            vgAssert ((child ix).isNull = false)
            vgAssert (nInUse - 1 ≥ 0)
            if nInUse - 1 > 0 then
              pure (some (.levelN (Function.update child ix .null)
                (nInUse - 1) level, oldV))
            else pure (some (.null, oldV))
          else
            pure (some (.levelN (Function.update child ix sub) nInUse level,
              oldV))
  | _, _ => .error .vgAssert

/-- The values of a loop variable from `n` up to 255. -/
def ixs (n : Nat) : List (BitVec 8) :=
  (List.range' n (256 - n)).map (BitVec.ofNat 8)

/-- The number of bits of a byte. -/
def popcount (byte : BitVec 8) : Nat :=
  let x := byte.toNat
  let x := (x &&& 0x55) + ((x >>> 1) &&& 0x55)
  let x := (x &&& 0x33) + ((x >>> 2) &&& 0x33)
  (x &&& 0x0F) + ((x >>> 4) &&& 0x0F)

def swa_sizeSWA_wrk : Node top → Nat
  | .null => 0
  | .level0 _ _ inUse =>
      ((List.range 16).map fun i => popcount (inUse (BitVec.ofNat 5 (2 * i))) +
        popcount (inUse (BitVec.ofNat 5 (2 * i + 1)))).sum
  | .levelN child _ _ =>
      ((ixs 0).map fun i => swa_sizeSWA_wrk (child i)).sum

inductive ResumePoint where
  | startNewNode | resumeLeafNode | resumeNonleafNode
  deriving DecidableEq, Repr

structure SWAStackElem (top : Nat) where
  partial_key : Word top
  curr_ix : Nat
  curr_nd : Node top
  resume_point : ResumePoint

/-- The field `isUsed` is the length of the stack. -/
structure SWA (top : Nat) where
  root : Node top
  iterStack : List (SWAStackElem top)

namespace SWA

def newSWA : SWA top := ⟨.null, []⟩

/-- The key and its value, if it is there. -/
def lookupSWA (swa : SWA top) (key : Word top) :
    Except Stop (Option (Word top × Word top)) := do
  let found ← lookupFrom key top swa.root
  pure (found.map fun val => (key, val))

def addToSWA (swa : SWA top) (key val : Word top) :
    Except Stop (SWA top × Bool) := do
  let root := if swa.root.isNull then swa_new_LevelN top else swa.root
  let (root, already_present) ← addFrom key val top root
  pure ({ swa with root }, already_present)

def delFromSWA (swa : SWA top) (key : Word top) :
    Except Stop (SWA top × Option (Word top × Word top)) := do
  match ← delFrom key top swa.root with
  | none => pure (swa, none)
  | some (root, oldV) => pure ({ swa with root }, some (key, oldV))

def sizeSWA (swa : SWA top) : Nat := swa_sizeSWA_wrk swa.root

end SWA

theorem bix_toNat : ∀ ix, (bix ix).toNat = ix.toNat / 8 := by
  decide +kernel

theorem off_eq : ∀ ix, off ix = ix.toNat % 8 := by
  decide +kernel

theorem off_lt (ix : BitVec 8) : off ix < 8 := by
  rw [off_eq]
  exact Nat.mod_lt _ (by decide)

private theorem ix_ext {ix jx : BitVec 8} (sameByte : bix ix = bix jx)
    (sameOff : off ix = off jx) : ix = jx := by
  have bytes := congrArg BitVec.toNat sameByte
  rw [bix_toNat, bix_toNat] at bytes
  rw [off_eq, off_eq] at sameOff
  exact BitVec.eq_of_toNat_eq (by omega)

/-- The bit of the slot is set. -/
def occupied (inUse : BitVec 5 → BitVec 8) (ix : BitVec 8) : Bool :=
  (inUse (bix ix)).getLsbD (off ix)

private theorem read_bit : ∀ (byte : BitVec 8) (o : Fin 8),
    ((byte >>> o.val) &&& 1 = 0) ↔ byte.getLsbD o = false := by
  decide +kernel

theorem read_eq_zero_iff {inUse : BitVec 5 → BitVec 8} {ix : BitVec 8} :
    swa_bitarray_read inUse ix = 0 ↔ occupied inUse ix = false :=
  read_bit (inUse (bix ix)) ⟨off ix, off_lt ix⟩

private theorem decide_read (inUse : BitVec 5 → BitVec 8) (ix : BitVec 8) :
    decide (swa_bitarray_read inUse ix ≠ 0) = occupied inUse ix := by
  rw [Bool.eq_iff_iff, decide_eq_true_iff, ne_eq, read_eq_zero_iff,
    Bool.not_eq_false]

private theorem getLsbD_one_shift : ∀ o o' : Fin 8,
    (1#8 <<< o.val).getLsbD o' = decide (o = o') := by
  decide

private theorem getLsbD_bit (ix jx : BitVec 8) :
    (1#8 <<< off ix).getLsbD (off jx) = decide (off ix = off jx) := by
  have bit := getLsbD_one_shift ⟨off ix, off_lt ix⟩ ⟨off jx, off_lt jx⟩
  simpa [Fin.ext_iff] using bit

private theorem occupied_set (inUse : BitVec 5 → BitVec 8) (ix jx : BitVec 8) :
    occupied (swa_bitarray_set inUse ix) jx =
      if jx = ix then true else occupied inUse jx := by
  unfold occupied swa_bitarray_set
  by_cases sameByte : bix jx = bix ix
  · rw [sameByte, Function.update_self, BitVec.getLsbD_or, getLsbD_bit]
    by_cases sameOff : off ix = off jx
    · rw [if_pos (ix_ext sameByte sameOff.symm), decide_eq_true sameOff,
        Bool.or_true]
    · have differ : jx ≠ ix := fun same => sameOff (same ▸ rfl)
      rw [if_neg differ, decide_eq_false sameOff, Bool.or_false]
  · have differ : jx ≠ ix := fun same => sameByte (same ▸ rfl)
    rw [Function.update_of_ne sameByte, if_neg differ]

theorem occupied_clear (inUse : BitVec 5 → BitVec 8) (ix jx : BitVec 8) :
    occupied (swa_bitarray_clear inUse ix) jx =
      if jx = ix then false else occupied inUse jx := by
  unfold occupied swa_bitarray_clear
  by_cases sameByte : bix jx = bix ix
  · rw [sameByte, Function.update_self, BitVec.getLsbD_and,
      BitVec.getLsbD_not, getLsbD_bit]
    by_cases sameOff : off ix = off jx
    · rw [if_pos (ix_ext sameByte sameOff.symm), decide_eq_true sameOff]
      simp
    · have differ : jx ≠ ix := fun same => sameOff (same ▸ rfl)
      rw [if_neg differ, decide_eq_false sameOff]
      simp [off_lt jx]
  · have differ : jx ≠ ix := fun same => sameByte (same ▸ rfl)
    rw [Function.update_of_ne sameByte, if_neg differ]

theorem ixs_of_lt {n : Nat} (bound : n < 256) :
    ixs n = BitVec.ofNat 8 n :: ixs (n + 1) := by
  unfold ixs
  rw [show 256 - n = (256 - (n + 1)) + 1 by omega, List.range'_succ,
    List.map_cons]

theorem ixs_of_le {n : Nat} (bound : 256 ≤ n) : ixs n = [] := by
  unfold ixs
  rw [Nat.sub_eq_zero_of_le bound]
  rfl

theorem mem_ixs (ix : BitVec 8) : ix ∈ ixs 0 := by
  have bound := ix.isLt
  refine List.mem_map.mpr ⟨ix.toNat, ?_, BitVec.ofNat_toNat ..⟩
  simp only [List.mem_range'_1]
  omega

theorem ixs_pairwise (n : Nat) :
    (ixs n).Pairwise fun ix jx => ix.toNat < jx.toNat := by
  unfold ixs
  rw [List.pairwise_map]
  refine List.Pairwise.imp_of_mem ?_ List.pairwise_lt_range'
  intro ix jx isIx isJx less
  simp only [List.mem_range'_1] at isIx isJx
  simp only [BitVec.toNat_ofNat]
  omega

private theorem ixs_nodup (n : Nat) : (ixs n).Nodup :=
  (ixs_pairwise n).imp fun {ix jx} less (same : ix = jx) =>
    Nat.ne_of_lt less (congrArg BitVec.toNat same)

/-- The number of slots that a test accepts. -/
def slots (test : BitVec 8 → Bool) : Nat := (ixs 0).countP test

private theorem slots_le (test : BitVec 8 → Bool) : slots test ≤ 256 :=
  List.countP_le_length.trans (by simp [ixs])

theorem slots_pos_iff {test : BitVec 8 → Bool} :
    0 < slots test ↔ ∃ ix, test ix = true := by
  unfold slots
  rw [List.countP_pos_iff]
  exact ⟨fun ⟨ix, _, holds⟩ => ⟨ix, holds⟩,
    fun ⟨ix, holds⟩ => ⟨ix, mem_ixs ix, holds⟩⟩

theorem slots_add_one {before after : BitVec 8 → Bool} {ix : BitVec 8}
    (free : before ix = false) (taken : after ix = true)
    (others : ∀ jx, jx ≠ ix → after jx = before jx) :
    slots after = slots before + 1 := by
  have order : (ixs 0).Perm (ix :: (ixs 0).erase ix) :=
    List.perm_cons_erase (mem_ixs ix)
  have rest : ((ixs 0).erase ix).countP after =
      ((ixs 0).erase ix).countP before := by
    apply List.countP_congr
    intro jx member
    have differ := ((ixs_nodup 0).mem_erase_iff.mp member).1
    rw [others jx differ]
  unfold slots
  rw [order.countP_eq, order.countP_eq, List.countP_cons, List.countP_cons,
    rest, free, taken]
  simp

private theorem slots_congr {before after : BitVec 8 → Bool}
    (same : ∀ ix, after ix = before ix) : slots after = slots before :=
  List.countP_congr fun ix _ => by rw [same ix]

def Node.isSome (nd : Node top) : Bool := !nd.isNull

theorem Node.isNull_iff {nd : Node top} : nd.isNull = true ↔ nd = .null := by
  cases nd <;> simp [Node.isNull]

def Node.nInUse : Node top → Int
  | .null => 0
  | .level0 _ nInUse _ => nInUse
  | .levelN _ nInUse _ => nInUse

/-- The node belongs to the level, its count is that of its occupied slots,
and the nodes below it are well formed and not empty. -/
def Shape : Nat → Node top → Prop
  | 0, .level0 _ nInUse inUse => nInUse = slots (occupied inUse)
  | i + 1, .levelN child nInUse level =>
      level = i + 1 ∧ nInUse = slots (fun ix => (child ix).isSome) ∧
        ∀ ix, (child ix).isSome = true →
          Shape i (child ix) ∧ 0 < (child ix).nInUse
  | _, _ => False

structure WellFormed (i : Nat) (nd : Node top) : Prop where
  shape : Shape i nd
  inUse : 0 < nd.nInUse

/-- The pointer is `NULL`, or points to a well-formed node. -/
def Sound (i : Nat) (nd : Node top) : Prop :=
  nd.isSome = true → WellFormed i nd

theorem sound_null (i : Nat) : Sound i (.null : Node top) :=
  fun isSome => (nomatch isSome)

theorem WellFormed.sound {i : Nat} {nd : Node top}
    (wellFormed : WellFormed i nd) : Sound i nd :=
  fun _ => wellFormed

/-- The value of a key below a node of a level. -/
def get (key : Word top) : Nat → Node top → Option (Word top)
  | 0, .level0 words _ inUse =>
      if occupied inUse (ixOf key 0) then some (words (ixOf key 0)) else none
  | i + 1, .levelN child _ _ => get key i (child (ixOf key (i + 1)))
  | _, _ => none

@[simp] theorem get_null (key : Word top) (i : Nat) :
    get key i .null = none := by
  cases i <;> rfl

/-- The keys have the same bytes up to a level. -/
def Agree : Nat → Word top → Word top → Prop
  | 0, key, key' => ixOf key 0 = ixOf key' 0
  | i + 1, key, key' =>
      ixOf key (i + 1) = ixOf key' (i + 1) ∧ Agree i key key'

instance decidableAgree : (i : Nat) → (key key' : Word top) →
    Decidable (Agree i key key')
  | 0, key, key' => inferInstanceAs (Decidable (ixOf key 0 = ixOf key' 0))
  | i + 1, key, key' =>
      have := decidableAgree i key key'
      inferInstanceAs (Decidable (_ ∧ _))

section Operations

variable {key val : Word top} {i : Nat} {nd : Node top}

theorem lookupFrom_eq (sound : Sound i nd) :
    lookupFrom key i nd = .ok (get key i nd) := by
  induction i generalizing nd with
  | zero =>
      cases nd with
      | null => rfl
      | level0 words nInUse inUse =>
          have used : nInUse > 0 := (sound rfl).inUse
          rw [lookupFrom, vgAssert_of used, ok_bind]
          simp only [read_eq_zero_iff, get]
          cases occupied inUse (ixOf key 0) <;> rfl
      | levelN child nInUse level => exact (sound rfl).shape.elim
  | succ i induction =>
      cases nd with
      | null => rfl
      | level0 words nInUse inUse => exact (sound rfl).shape.elim
      | levelN child nInUse level =>
          obtain ⟨⟨isLevel, -, below⟩, inUse⟩ := sound rfl
          have used : nInUse > 0 := inUse
          rw [lookupFrom, vgAssert_of isLevel, ok_bind, vgAssert_of used,
            ok_bind, get]
          exact induction fun isSome => ⟨(below _ isSome).1,
            (below _ isSome).2⟩

private theorem slots_eq_zero {test : BitVec 8 → Bool}
    (free : ∀ ix, test ix = false) : slots test = 0 := by
  by_contra taken
  obtain ⟨ix, holds⟩ := slots_pos_iff.mp (Nat.pos_of_ne_zero taken)
  rw [free ix] at holds
  exact (nomatch holds)

theorem shape_new (i : Nat) :
    Shape i (if i = 0 then swa_new_Level0 else swa_new_LevelN i :
      Node top) := by
  cases i with
  | zero =>
      have free : slots (occupied fun _ => 0) = 0 :=
        slots_eq_zero fun ix => by simp [occupied]
      exact (congrArg Int.ofNat free).symm
  | succ i =>
      have free : slots (fun _ => (Node.null : Node top).isSome) = 0 :=
        slots_eq_zero fun ix => rfl
      exact ⟨rfl, (congrArg Int.ofNat free).symm, fun ix used => (nomatch used)⟩

theorem get_new (i : Nat) : get key i (if i = 0 then swa_new_Level0
    else swa_new_LevelN i : Node top) = none := by
  cases i with
  | zero => simp [get, swa_new_Level0, occupied]
  | succ i => simp [get, swa_new_LevelN]

/-- What an insertion does below a node. -/
structure Inserted (key val : Word top) (i : Nat) (nd : Node top)
    (result : Node top × Bool) : Prop where
  wellFormed : WellFormed i result.1
  present : result.2 = (get key i nd).isSome
  values : ∀ key', get key' i result.1 =
    if Agree i key' key then some val else get key' i nd

private theorem addFrom_level0 {words : BitVec 8 → Word top} {nInUse : Int}
    {inUse : BitVec 5 → BitVec 8}
    (shape : Shape 0 (.level0 words nInUse inUse)) :
    Returns (addFrom key val 0 (.level0 words nInUse inUse))
      (Inserted key val 0 (.level0 words nInUse inUse)) := by
  replace shape : nInUse = slots (occupied inUse) := shape
  have taken := occupied_set inUse (ixOf key 0)
  have here : occupied (swa_bitarray_set inUse (ixOf key 0)) (ixOf key 0) =
      true := (taken _).trans (if_pos rfl)
  have bound := slots_le (occupied (swa_bitarray_set inUse (ixOf key 0)))
  have used : 0 < slots (occupied (swa_bitarray_set inUse (ixOf key 0))) :=
    slots_pos_iff.mpr ⟨_, here⟩
  have values : ∀ nInUse' key', get key' 0 (.level0
      (Function.update words (ixOf key 0) val) nInUse'
        (swa_bitarray_set inUse (ixOf key 0))) =
      if Agree 0 key' key then some val
        else get key' 0 (.level0 words nInUse inUse) := by
    intro nInUse' key'
    by_cases same : ixOf key' 0 = ixOf key 0
    · rw [if_pos (show Agree 0 key' key from same), get, same, here,
        if_pos rfl, Function.update_self]
    · rw [if_neg (show ¬ Agree 0 key' key from same), get, get, taken,
        if_neg same, Function.update_of_ne same]
  -- the count afterwards, whether the key was there or not
  have counted : (if swa_bitarray_read inUse (ixOf key 0) ≠ 0 then nInUse
      else nInUse + 1) =
        slots (occupied (swa_bitarray_set inUse (ixOf key 0))) := by
    cases before : occupied inUse (ixOf key 0) with
    | true =>
        have same : slots (occupied (swa_bitarray_set inUse (ixOf key 0))) =
            slots (occupied inUse) := by
          apply slots_congr
          intro ix
          rw [taken]
          split_ifs with isIx
          · rw [isIx, before]
          · rfl
        rw [if_pos (by rw [ne_eq, read_eq_zero_iff, before]; simp), same,
          shape]
    | false =>
        have more := slots_add_one before here fun jx differ => by
          rw [taken, if_neg differ]
        rw [if_neg (by rw [ne_eq, read_eq_zero_iff, before]; simp), more,
          shape]
        rfl
  rw [addFrom]
  simp only [counted]
  rw [vgAssert_of (by omega), ok_bind]
  refine Returns.pure ⟨⟨rfl, ?_⟩, ?_, values _⟩
  · show (0 : Int) < slots _
    omega
  · show decide (swa_bitarray_read inUse (ixOf key 0) ≠ 0) = _
    rw [decide_read, get]
    cases occupied inUse (ixOf key 0) <;> rfl

/-- A slot of a node that gets a well-formed node below it. -/
theorem shape_update {child : BitVec 8 → Node top} {nInUse : Int}
    {level : Nat} (shape : Shape (i + 1) (.levelN child nInUse level))
    (ix : BitVec 8) {sub : Node top} (below : WellFormed i sub) :
    WellFormed (i + 1) (.levelN (Function.update child ix sub)
      (if (child ix).isNull then nInUse + 1 else nInUse) level) := by
  obtain ⟨isLevel, count, others⟩ := shape
  have isSome : sub.isSome = true := by
    cases sub with
    | null => exact absurd below.inUse (by simp [Node.nInUse])
    | level0 words nInUse inUse => rfl
    | levelN child nInUse level => rfl
  have here : (Function.update child ix sub ix).isSome = true := by
    rw [Function.update_self, isSome]
  have elsewhere : ∀ jx, jx ≠ ix →
      (Function.update child ix sub jx).isSome = (child jx).isSome :=
    fun jx differ => by rw [Function.update_of_ne differ]
  have counted : (if (child ix).isNull then nInUse + 1 else nInUse) =
      slots fun jx => (Function.update child ix sub jx).isSome := by
    cases free : (child ix).isNull with
    | true =>
        have more := @slots_add_one (fun jx => (child jx).isSome)
          (fun jx => (Function.update child ix sub jx).isSome) ix
          (by simp [Node.isSome, free]) here elsewhere
        rw [if_pos rfl, more, count]
        rfl
    | false =>
        rw [if_neg (by simp), count]
        congr 1
        symm
        apply slots_congr
        intro jx
        by_cases same : jx = ix
        · rw [same, here, Node.isSome, free]
          rfl
        · exact elsewhere jx same
  have used : 0 < slots fun jx => (Function.update child ix sub jx).isSome :=
    slots_pos_iff.mpr ⟨ix, here⟩
  refine ⟨⟨isLevel, counted, fun jx => ?_⟩, ?_⟩
  · by_cases same : jx = ix
    · rw [same, Function.update_self]
      exact fun _ => ⟨below.shape, below.inUse⟩
    · rw [Function.update_of_ne same]
      exact others jx
  · show (0 : Int) < if (child ix).isNull then nInUse + 1 else nInUse
    omega

private theorem get_update {child : BitVec 8 → Node top} {nInUse nInUse' : Int}
    {level : Nat} {sub : Node top} {found : Option (Word top)}
    (values : ∀ key', get key' i sub = if Agree i key' key then found
      else get key' i (child (ixOf key (i + 1)))) (key' : Word top) :
    get key' (i + 1)
        (.levelN (Function.update child (ixOf key (i + 1)) sub) nInUse'
          level) =
      if Agree (i + 1) key' key then found
        else get key' (i + 1) (.levelN child nInUse level) := by
  by_cases same : ixOf key' (i + 1) = ixOf key (i + 1)
  · simp only [get, Agree, same, Function.update_self, true_and]
    exact values key'
  · simp only [get, Agree, same, false_and, if_false,
      Function.update_of_ne same]

theorem addFrom_spec (shape : Shape i nd) :
    Returns (addFrom key val i nd) (Inserted key val i nd) := by
  induction i generalizing nd with
  | zero =>
      cases nd with
      | null => exact shape.elim
      | level0 words nInUse inUse => exact addFrom_level0 shape
      | levelN child nInUse level => exact shape.elim
  | succ i induction =>
      cases nd with
      | null => exact shape.elim
      | level0 words nInUse inUse => exact shape.elim
      | levelN child nInUse level =>
          obtain ⟨isLevel, count, below⟩ := shape
          -- the node below, which may be a new one
          have sub : ∃ sub : Node top, sub =
              (if (child (ixOf key (i + 1))).isNull then
                if i = 0 then swa_new_Level0 else swa_new_LevelN i
              else child (ixOf key (i + 1))) ∧ Shape i sub ∧
              ∀ key', get key' i sub =
                get key' i (child (ixOf key (i + 1))) := by
            refine ⟨_, rfl, ?_⟩
            cases free : (child (ixOf key (i + 1))).isNull with
            | true =>
                rw [Node.isNull_iff.mp free]
                exact ⟨shape_new i, fun key' =>
                  (get_new i).trans (get_null key' i).symm⟩
            | false =>
                exact ⟨(below _ (by simp [Node.isSome, free])).1,
                  fun _ => rfl⟩
          obtain ⟨sub, isSub, subShape, subValues⟩ := sub
          obtain ⟨⟨sub', present⟩, added, wellFormed, isPresent, values⟩ :=
            induction subShape
          simp only [subValues] at wellFormed isPresent values
          have grown := shape_update ⟨isLevel, count, below⟩
            (ixOf key (i + 1)) wellFormed
          have bound := slots_le fun jx =>
            (Function.update child (ixOf key (i + 1)) sub' jx).isSome
          have counted := grown.shape.2.1
          have used := grown.inUse
          simp only [Node.nInUse] at used
          refine ⟨(.levelN (Function.update child (ixOf key (i + 1)) sub')
            (if (child (ixOf key (i + 1))).isNull then nInUse + 1
              else nInUse) level, present), ?_, grown, isPresent,
            get_update values⟩
          simp only [addFrom, ← isSub]
          rw [vgAssert_of isLevel, ok_bind, vgAssert_of (by omega), ok_bind,
            added, ok_bind]
          rfl

/-- What a deletion does below a node. -/
def Deleted (key : Word top) (i : Nat) (nd : Node top) :
    Option (Node top × Word top) → Prop
  | none => get key i nd = none
  | some (nd', oldV) => get key i nd = some oldV ∧ Sound i nd' ∧
      ∀ key', get key' i nd' =
        if Agree i key' key then none else get key' i nd

private theorem delFrom_level0 {words : BitVec 8 → Word top} {nInUse : Int}
    {inUse : BitVec 5 → BitVec 8}
    (wellFormed : WellFormed 0 (.level0 words nInUse inUse)) :
    Returns (delFrom key 0 (.level0 words nInUse inUse))
      (Deleted key 0 (.level0 words nInUse inUse)) := by
  have count : nInUse = slots (occupied inUse) := wellFormed.shape
  have used : nInUse > 0 := wellFormed.inUse
  have taken := occupied_clear inUse (ixOf key 0)
  rw [delFrom, vgAssert_of used, ok_bind]
  cases before : occupied inUse (ixOf key 0) with
  | false =>
      rw [if_pos (read_eq_zero_iff.mpr before)]
      refine Returns.pure ?_
      rw [Deleted, get, before]
      rfl
  | true =>
      have isThere : ¬ swa_bitarray_read inUse (ixOf key 0) = 0 := by
        rw [read_eq_zero_iff, before]
        exact (nomatch ·)
      have free : occupied (swa_bitarray_clear inUse (ixOf key 0))
          (ixOf key 0) = false := (taken _).trans (if_pos rfl)
      have fewer := slots_add_one free before fun jx differ => by
        rw [taken, if_neg differ]
      have found : get key 0 (.level0 words nInUse inUse) =
          some (words (ixOf key 0)) := by
        rw [get, before, if_pos rfl]
      have values : ∀ key', (if occupied
          (swa_bitarray_clear inUse (ixOf key 0)) (ixOf key' 0) then
            some (words (ixOf key' 0)) else none) =
          if Agree 0 key' key then none
            else get key' 0 (.level0 words nInUse inUse) := by
        intro key'
        by_cases same : ixOf key' 0 = ixOf key 0
        · rw [if_pos (show Agree 0 key' key from same), same, free]
          rfl
        · rw [if_neg (show ¬ Agree 0 key' key from same), get, taken,
            if_neg same]
      rw [if_neg isThere]
      split_ifs with more
      · refine Returns.pure ⟨found, fun _ => ⟨?_, more⟩, values⟩
        show nInUse - 1 = slots _
        omega
      · -- no other slot was occupied
        refine Returns.pure ⟨found, sound_null 0, fun key' => ?_⟩
        have empty : occupied (swa_bitarray_clear inUse (ixOf key 0))
            (ixOf key' 0) = false := by
          by_contra other
          have some : 0 < slots (occupied
              (swa_bitarray_clear inUse (ixOf key 0))) :=
            slots_pos_iff.mpr ⟨_, Bool.eq_true_of_not_eq_false other⟩
          omega
        rw [← values key', get_null, empty]
        rfl

/-- A slot of a node that loses the node below it. -/
theorem slots_update_null {child : BitVec 8 → Node top} {ix : BitVec 8}
    (there : (child ix).isSome = true) :
    slots (fun jx => (child jx).isSome) =
      slots (fun jx => (Function.update child ix .null jx).isSome) + 1 := by
  apply @slots_add_one _ _ ix
  · rw [Function.update_self]
    rfl
  · exact there
  · exact fun jx differ => by rw [Function.update_of_ne differ]

/-- A node that loses a node below it, and is freed itself if that was the
last one. -/
theorem delFrom_freed {child : BitVec 8 → Node top} {nInUse : Int}
    {level : Nat} {oldV : Word top}
    (shape : Shape (i + 1) (.levelN child nInUse level))
    (there : (child (ixOf key (i + 1))).isSome = true)
    (found : get key (i + 1) (.levelN child nInUse level) = some oldV)
    (changed : ∀ key', get key' (i + 1)
        (.levelN (Function.update child (ixOf key (i + 1)) .null)
          (nInUse - 1) level) =
      if Agree (i + 1) key' key then none
        else get key' (i + 1) (.levelN child nInUse level)) :
    Returns (if nInUse - 1 > 0 then
        pure (some (.levelN (Function.update child (ixOf key (i + 1)) .null)
          (nInUse - 1) level, oldV))
      else pure (some (.null, oldV)) : Except Stop _)
      (Deleted key (i + 1) (.levelN child nInUse level)) := by
  obtain ⟨isLevel, count, below⟩ := shape
  have fewer := slots_update_null there
  split_ifs with more
  · refine Returns.pure ⟨found, fun _ => ⟨⟨isLevel, ?_, fun jx => ?_⟩, more⟩,
      changed⟩
    · omega
    · by_cases same : jx = ixOf key (i + 1)
      · rw [same, Function.update_self]
        exact fun used => (nomatch used)
      · rw [Function.update_of_ne same]
        exact below jx
  · -- no other slot was occupied
    refine Returns.pure ⟨found, sound_null _, fun key' => ?_⟩
    have empty : Function.update child (ixOf key (i + 1)) .null
        (ixOf key' (i + 1)) = .null := by
      by_contra other
      have used : (Function.update child (ixOf key (i + 1)) .null
          (ixOf key' (i + 1))).isSome = true := by
        rw [Node.isSome, Bool.not_eq_true', ← Bool.not_eq_true,
          Node.isNull_iff]
        exact other
      have := @slots_pos_iff (fun jx => (Function.update child
        (ixOf key (i + 1)) .null jx).isSome)
      have some := this.mpr ⟨_, used⟩
      omega
    rw [← changed key', get_null, get, empty, get_null]

theorem delFrom_spec (sound : Sound i nd) :
    Returns (delFrom key i nd) (Deleted key i nd) := by
  induction i generalizing nd with
  | zero =>
      cases nd with
      | null => exact Returns.ok rfl
      | level0 words nInUse inUse => exact delFrom_level0 (sound rfl)
      | levelN child nInUse level => exact (sound rfl).shape.elim
  | succ i induction =>
      cases nd with
      | null => exact Returns.ok rfl
      | level0 words nInUse inUse => exact (sound rfl).shape.elim
      | levelN child nInUse level =>
          obtain ⟨⟨isLevel, count, below⟩, inUse⟩ := sound rfl
          have used : nInUse > 0 := inUse
          have subSound : Sound i (child (ixOf key (i + 1))) :=
            fun isSome => ⟨(below _ isSome).1, (below _ isSome).2⟩
          obtain ⟨result, deleted, spec⟩ := induction subSound
          rw [delFrom, vgAssert_of isLevel, ok_bind, vgAssert_of used, ok_bind]
          simp only [deleted, ok_bind]
          cases result with
          | none => exact Returns.pure spec
          | some result =>
              obtain ⟨sub, oldV⟩ := result
              obtain ⟨found, sound', values⟩ := spec
              have there : (child (ixOf key (i + 1))).isSome = true := by
                cases isNull : (child (ixOf key (i + 1))).isNull with
                | true =>
                    rw [Node.isNull_iff.mp isNull, get_null] at found
                    exact (nomatch found)
                | false => simp [Node.isSome, isNull]
              have notNull : (child (ixOf key (i + 1))).isNull = false := by
                simpa [Node.isSome] using there
              have changed := fun nInUse' => @get_update _ key i child nInUse
                nInUse' level sub none values
              cases freed : sub.isNull with
              | false =>
                  have kept := shape_update ⟨isLevel, count, below⟩
                    (ixOf key (i + 1)) (sound' (by simp [Node.isSome, freed]))
                  simp only [notNull, Bool.false_eq_true, if_false] at kept
                  have deletes : Deleted key (i + 1)
                      (.levelN child nInUse level) (some (.levelN
                        (Function.update child (ixOf key (i + 1)) sub) nInUse
                        level, oldV)) := ⟨found, kept.sound, changed _⟩
                  simp only [freed, Bool.false_eq_true, if_false]
                  exact Returns.pure deletes
              | true =>
                  obtain rfl := Node.isNull_iff.mp freed
                  simp only [freed, if_true, vgAssert_of notNull, ok_bind]
                  rw [vgAssert_of (by omega), ok_bind]
                  exact delFrom_freed ⟨isLevel, count, below⟩ there found
                    (changed _)

end Operations

end SparseWA
end HelgrindPlus
