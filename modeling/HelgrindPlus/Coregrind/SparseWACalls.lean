import HelgrindPlus.Coregrind.SparseWA
import Mathlib.Data.Set.Card

/-!
# Sparse word arrays as partial maps

The entries of a tree in the order in which its slots are passed, and the
answers of any sequence of calls on a new array.
-/

namespace HelgrindPlus

open Outcome

namespace SparseWA

variable {top : Nat}

section Bytes

variable {key key' : Word top} {i : Nat}

theorem ixOf_toNat (key : Word top) (i : Nat) :
    (ixOf key i).toNat = key.toNat / 256 ^ i % 256 := by
  have power : (2 : Nat) ^ (i * 8) = 256 ^ i := by
    rw [Nat.mul_comm, Nat.pow_mul]
  rw [ixOf, BitVec.toNat_setWidth, BitVec.toNat_ushiftRight,
    Nat.shiftRight_eq_div_pow, power]

theorem toNat_lt (key : Word top) : key.toNat < 256 ^ (top + 1) := by
  have bound := key.isLt
  have power : (2 : Nat) ^ (8 * (top + 1)) = 256 ^ (top + 1) := Nat.pow_mul ..
  omega

theorem digits_unique {base low low' high high' : Nat} (isLow : low < base)
    (isLow' : low' < base) (same : low + base * high = low' + base * high') :
    high = high' ∧ low = low' := by
  have sameLow := congrArg (· % base) same
  simp only [Nat.add_mul_mod_self_left, Nat.mod_eq_of_lt isLow,
    Nat.mod_eq_of_lt isLow'] at sameLow
  have scaled : base * high = base * high' := by omega
  exact ⟨Nat.eq_of_mul_eq_mul_left (Nat.zero_lt_of_lt isLow) scaled, sameLow⟩

private theorem agree_iff : Agree i key key' ↔
    key.toNat % 256 ^ (i + 1) = key'.toNat % 256 ^ (i + 1) := by
  induction i with
  | zero =>
      rw [Agree, ← BitVec.toNat_inj, ixOf_toNat, ixOf_toNat]
      simp
  | succ i induction =>
      rw [Agree, induction, ← BitVec.toNat_inj, ixOf_toNat, ixOf_toNat,
        Nat.mod_pow_succ (b := 256) (k := i + 1),
        Nat.mod_pow_succ (b := 256) (k := i + 1)]
      have base : 0 < 256 ^ (i + 1) := Nat.pow_pos (by decide)
      constructor
      · rintro ⟨same, rest⟩
        rw [same, rest]
      · exact digits_unique (Nat.mod_lt _ base) (Nat.mod_lt _ base)

private theorem agree_top_iff : Agree top key key' ↔ key = key' := by
  rw [agree_iff, Nat.mod_eq_of_lt (toNat_lt key),
    Nat.mod_eq_of_lt (toNat_lt key'), BitVec.toNat_inj]

end Bytes

/-- A prefix of keys with one more byte. -/
def nextKey (p_key : Word top) (ix : BitVec 8) : Word top :=
  (p_key <<< 8) + ix.setWidth _

/-- The entries of a node whose keys begin with a prefix, from a slot on. -/
def entriesFrom : Nat → Word top → Node top → Nat →
    List (Word top × Word top)
  | 0, p_key, .level0 words _ inUse, n => (ixs n).filterMap fun ix =>
      if occupied inUse ix then some (nextKey p_key ix, words ix) else none
  | i + 1, p_key, .levelN child _ _, n => (ixs n).flatMap fun ix =>
      entriesFrom i (nextKey p_key ix) (child ix) 0
  | _, _, _, _ => []

def entries (i : Nat) (p_key : Word top) (nd : Node top) :
    List (Word top × Word top) :=
  entriesFrom i p_key nd 0

@[simp] theorem entries_null (i : Nat) (p_key : Word top) :
    entries i p_key .null = [] := by
  cases i <;> rfl

/-- There is room for the bytes of a level and those below it. -/
def Fits (i : Nat) (p_key : Word top) : Prop :=
  (p_key.toNat + 1) * 256 ^ (i + 1) ≤ 256 ^ (top + 1)

theorem fits_root : Fits top (0 : Word top) := by
  simp [Fits]

section Fits

variable {i : Nat} {p_key key : Word top} {ix : BitVec 8}

theorem Fits.nextKey_toNat (fits : Fits i p_key) (ix : BitVec 8) :
    (nextKey p_key ix).toNat = p_key.toNat * 256 + ix.toNat := by
  have isByte := ix.isLt
  have room : (p_key.toNat + 1) * 256 ≤ 256 ^ (top + 1) := by
    refine le_trans (Nat.mul_le_mul_left _ ?_) fits
    exact Nat.le_self_pow (Nat.succ_ne_zero i) 256
  have power : (2 : Nat) ^ (8 * (top + 1)) = 256 ^ (top + 1) := Nat.pow_mul ..
  have byteFits : ix.toNat < 256 ^ (top + 1) := by omega
  rw [nextKey, BitVec.toNat_add, BitVec.toNat_shiftLeft,
    BitVec.toNat_setWidth, power, Nat.shiftLeft_eq, Nat.mod_eq_of_lt byteFits,
    Nat.mod_eq_of_lt (show p_key.toNat * 2 ^ 8 < _ by omega),
    Nat.mod_eq_of_lt (by omega)]
  rfl

theorem Fits.next (fits : Fits (i + 1) p_key) (ix : BitVec 8) :
    Fits i (nextKey p_key ix) := by
  have isByte := ix.isLt
  unfold Fits at fits ⊢
  rw [Fits.nextKey_toNat fits]
  refine le_trans ?_ fits
  calc (p_key.toNat * 256 + ix.toNat + 1) * 256 ^ (i + 1)
      ≤ ((p_key.toNat + 1) * 256) * 256 ^ (i + 1) :=
        Nat.mul_le_mul_right _ (by omega)
    _ = (p_key.toNat + 1) * 256 ^ (i + 2) := by
        rw [Nat.mul_assoc, Nat.pow_succ' (n := i + 1)]

/-- The keys that begin with a prefix and one more byte. -/
theorem Fits.below_iff (fits : Fits i p_key) :
    key.toNat / 256 ^ i = (nextKey p_key ix).toNat ↔
      key.toNat / 256 ^ (i + 1) = p_key.toNat ∧ ixOf key i = ix := by
  have isByte := ix.isLt
  rw [fits.nextKey_toNat, ← BitVec.toNat_inj, ixOf_toNat, Nat.pow_succ,
    ← Nat.div_div_eq_div_mul]
  omega

theorem mem_entries {nd : Node top} {val : Word top} (fits : Fits i p_key) :
    (key, val) ∈ entries i p_key nd ↔
      key.toNat / 256 ^ (i + 1) = p_key.toNat ∧ get key i nd = some val := by
  induction i generalizing p_key nd with
  | zero =>
      cases nd with
      | null => simp
      | levelN child nInUse level => simp [entries, entriesFrom, get]
      | level0 words nInUse inUse =>
          have below : ∀ ix, nextKey p_key ix = key ↔
              key.toNat / 256 ^ 1 = p_key.toNat ∧ ixOf key 0 = ix := by
            intro ix
            rw [← fits.below_iff, Nat.pow_zero, Nat.div_one,
              BitVec.toNat_inj, eq_comm]
          constructor
          · intro member
            obtain ⟨ix, -, isEntry⟩ := List.mem_filterMap.mp member
            split_ifs at isEntry with used
            obtain ⟨isKey, isVal⟩ := Prod.mk.inj (Option.some.inj isEntry)
            obtain ⟨isPrefix, isIx⟩ := (below ix).mp isKey
            rw [get, isIx, if_pos used, isVal]
            exact ⟨isPrefix, rfl⟩
          · rintro ⟨isPrefix, found⟩
            rw [get] at found
            split_ifs at found with used
            refine List.mem_filterMap.mpr ⟨ixOf key 0, mem_ixs _, ?_⟩
            rw [if_pos used, (below _).mpr ⟨isPrefix, rfl⟩,
              Option.some.inj found]
  | succ i induction =>
      cases nd with
      | null => simp
      | level0 words nInUse inUse => simp [entries, entriesFrom, get]
      | levelN child nInUse level =>
          have below := fun ix => @induction (nextKey p_key ix) (child ix)
            (fits.next ix)
          constructor
          · intro member
            obtain ⟨ix, -, isEntry⟩ := List.mem_flatMap.mp member
            obtain ⟨isPrefix, found⟩ := (below ix).mp isEntry
            obtain ⟨isPrefix, isIx⟩ := fits.below_iff.mp isPrefix
            rw [get, isIx]
            exact ⟨isPrefix, found⟩
          · rintro ⟨isPrefix, found⟩
            refine List.mem_flatMap.mpr ⟨ixOf key (i + 1), mem_ixs _, ?_⟩
            exact (below _).mpr ⟨fits.below_iff.mpr ⟨isPrefix, rfl⟩, found⟩

theorem entries_sorted {nd : Node top} (fits : Fits i p_key) :
    (entries i p_key nd).Pairwise fun entry entry' =>
      entry.1.toNat < entry'.1.toNat := by
  induction i generalizing p_key nd with
  | zero =>
      cases nd with
      | null => simp
      | levelN child nInUse level => exact List.Pairwise.nil
      | level0 words nInUse inUse =>
          apply List.pairwise_filterMap.mpr
          apply (ixs_pairwise 0).imp
          intro ix jx less entry isEntry entry' isEntry'
          split_ifs at isEntry isEntry'
          rw [← Option.some.inj isEntry, ← Option.some.inj isEntry']
          simp only [fits.nextKey_toNat]
          omega
  | succ i induction =>
      cases nd with
      | null => simp
      | level0 words nInUse inUse => exact List.Pairwise.nil
      | levelN child nInUse level =>
          apply List.pairwise_flatMap.mpr
          refine ⟨fun ix _ => induction (fits.next ix), ?_⟩
          apply (ixs_pairwise 0).imp
          intro ix jx less entry isEntry entry' isEntry'
          -- the keys differ in the byte of this level
          have first := ((mem_entries (fits.next ix)).mp isEntry).1
          have second := ((mem_entries (fits.next jx)).mp isEntry').1
          rw [fits.nextKey_toNat] at first second
          apply Nat.lt_of_div_lt_div (c := 256 ^ (i + 1))
          omega

end Fits

private theorem popcount_eq : ∀ byte : BitVec 8,
    popcount byte = (List.range 8).countP fun o => byte.getLsbD o := by
  decide +kernel

/-- The slots of a byte of the bit array. -/
def slotsOf (b : Nat) : List (BitVec 8) :=
  (List.range 8).map fun o => BitVec.ofNat 8 (8 * b + o)

private theorem ixs_eq : ixs 0 = (List.range 16).flatMap fun i =>
    slotsOf (2 * i) ++ slotsOf (2 * i + 1) := by
  decide +kernel

theorem countP_slotsOf (inUse : BitVec 5 → BitVec 8) {b : Nat} (bound : b < 32) :
    (slotsOf b).countP (occupied inUse) =
      popcount (inUse (BitVec.ofNat 5 b)) := by
  rw [popcount_eq, slotsOf, List.countP_map]
  apply List.countP_congr
  intro o member
  have isOff : o < 8 := List.mem_range.mp member
  have place : (BitVec.ofNat 8 (8 * b + o)).toNat = 8 * b + o :=
    Nat.mod_eq_of_lt (by omega)
  have isByte : bix (BitVec.ofNat 8 (8 * b + o)) = BitVec.ofNat 5 b := by
    apply BitVec.eq_of_toNat_eq
    rw [bix_toNat, place, BitVec.toNat_ofNat]
    omega
  have isBit : off (BitVec.ofNat 8 (8 * b + o)) = o := by
    rw [off_eq, place]
    omega
  rw [Function.comp_apply, occupied, isByte, isBit]

private theorem size_level0 (inUse : BitVec 5 → BitVec 8) :
    ((List.range 16).map fun i => popcount (inUse (BitVec.ofNat 5 (2 * i))) +
      popcount (inUse (BitVec.ofNat 5 (2 * i + 1)))).sum =
        slots (occupied inUse) := by
  rw [slots, ixs_eq, List.countP_flatMap]
  congr 1
  apply List.map_congr_left
  intro i member
  have bound := List.mem_range.mp member
  rw [Function.comp_apply, List.countP_append,
    countP_slotsOf inUse (by omega), countP_slotsOf inUse (by omega)]

/-- The tree is as large as its entries are many. -/
theorem sizeSWA_wrk_eq {i : Nat} {nd : Node top} (sound : Sound i nd)
    (p_key : Word top) :
    swa_sizeSWA_wrk nd = (entries i p_key nd).length := by
  induction i generalizing nd p_key with
  | zero =>
      cases nd with
      | null => rfl
      | levelN child nInUse level => exact (sound rfl).shape.elim
      | level0 words nInUse inUse =>
          rw [swa_sizeSWA_wrk, size_level0, slots, entries, entriesFrom,
            List.length_filterMap_eq_countP]
          apply List.countP_congr
          intro ix _
          split_ifs with used
          · simp [used]
          · simp [used]
  | succ i induction =>
      cases nd with
      | null => rfl
      | level0 words nInUse inUse => exact (sound rfl).shape.elim
      | levelN child nInUse level =>
          obtain ⟨-, -, below⟩ := (sound rfl).shape
          rw [swa_sizeSWA_wrk, entries, entriesFrom, List.length_flatMap]
          congr 1
          apply List.map_congr_left
          intro ix _
          exact induction (fun isSome => ⟨(below _ isSome).1,
            (below _ isSome).2⟩) _

inductive Call (top : Nat) where
  | addToSWA (key val : Word top)
  | delFromSWA (key : Word top)
  | lookupSWA (key : Word top)
  | sizeSWA

inductive Answer (top : Nat) where
  | added (already_present : Bool)
  | found (entry : Option (Word top × Word top))
  | size (n : Nat)
  deriving DecidableEq

def SWA.call (swa : SWA top) : Call top → Except Stop (SWA top × Answer top)
  | .addToSWA key val => do
      let (swa, already_present) ← swa.addToSWA key val
      pure (swa, .added already_present)
  | .delFromSWA key => do
      let (swa, entry) ← swa.delFromSWA key
      pure (swa, .found entry)
  | .lookupSWA key => do
      let entry ← swa.lookupSWA key
      pure (swa, .found entry)
  | .sizeSWA => pure (swa, .size swa.sizeSWA)

def SWA.calls (swa : SWA top) :
    List (Call top) → Except Stop (SWA top × List (Answer top))
  | [] => pure (swa, [])
  | call :: rest => do
      let (swa, answer) ← swa.call call
      let (swa, answers) ← swa.calls rest
      pure (swa, answer :: answers)

/-- A partial map from words to words. -/
abbrev PartialMap (top : Nat) := Word top → Option (Word top)

noncomputable def PartialMap.size (map : PartialMap top) : Nat :=
  Set.ncard {key | map key ≠ none}

noncomputable def mapCall (map : PartialMap top) :
    Call top → PartialMap top × Answer top
  | .addToSWA key val =>
      (Function.update map key (some val), .added (map key).isSome)
  | .delFromSWA key => (Function.update map key none,
      .found ((map key).map fun val => (key, val)))
  | .lookupSWA key => (map, .found ((map key).map fun val => (key, val)))
  | .sizeSWA => (map, .size map.size)

noncomputable def mapCalls (map : PartialMap top) :
    List (Call top) → PartialMap top × List (Answer top)
  | [] => (map, [])
  | call :: rest =>
      ((mapCalls (mapCall map call).1 rest).1,
        (mapCall map call).2 :: (mapCalls (mapCall map call).1 rest).2)

/-- The array is well formed and has the values of the map. -/
structure SWA.Represents (swa : SWA top) (map : PartialMap top) : Prop where
  sound : Sound top swa.root
  values : ∀ key, get key top swa.root = map key

section Calls

variable {swa : SWA top} {map : PartialMap top}

theorem represents_new : (SWA.newSWA : SWA top).Represents fun _ => none :=
  ⟨sound_null top, fun key => get_null key top⟩

theorem SWA.Represents.mem_entries (represents : swa.Represents map)
    {key val : Word top} :
    (key, val) ∈ entries top 0 swa.root ↔ map key = some val := by
  have room := toNat_lt key
  rw [SparseWA.mem_entries fits_root, represents.values,
    Nat.div_eq_of_lt room]
  simp

theorem SWA.Represents.size (represents : swa.Represents map) :
    swa.sizeSWA = map.size := by
  have sorted := @entries_sorted top top 0 swa.root fits_root
  have nodup : ((entries top 0 swa.root).map Prod.fst).Nodup := by
    apply List.pairwise_map.mpr
    exact sorted.imp fun {entry entry'} less (same : entry.1 = entry'.1) =>
      Nat.ne_of_lt less (congrArg BitVec.toNat same)
  have keys : {key | map key ≠ none} =
      (((entries top 0 swa.root).map Prod.fst).toFinset : Set (Word top)) := by
    ext key
    simp only [Set.mem_ofPred_eq, List.coe_toFinset, List.mem_map]
    rw [Option.ne_none_iff_exists']
    constructor
    · intro ⟨val, isVal⟩
      exact ⟨(key, val), represents.mem_entries.mpr isVal, rfl⟩
    · intro ⟨entry, member, isKey⟩
      subst isKey
      exact ⟨entry.2, represents.mem_entries.mp member⟩
  rw [PartialMap.size, keys, Set.ncard_coe_finset,
    List.toFinset_card_of_nodup nodup, List.length_map]
  exact sizeSWA_wrk_eq represents.sound 0

/-- A value that was changed at one key. -/
theorem update_eq_ite (map : PartialMap top) (key key' : Word top)
    (found : Option (Word top)) :
    Function.update map key found key' =
      if Agree top key' key then found else map key' := by
  by_cases same : key' = key
  · rw [if_pos (agree_top_iff.mpr same), same, Function.update_self]
  · rw [if_neg (fun agree => same (agree_top_iff.mp agree)),
      Function.update_of_ne same]

theorem SWA.Represents.addToSWA (represents : swa.Represents map)
    (host : top = 3 ∨ top = 7) (key val : Word top) :
    Returns (swa.addToSWA key val) fun result =>
      result.1.Represents (Function.update map key (some val)) ∧
        result.2 = (map key).isSome := by
  have notLeaf : top ≠ 0 := by omega
  have root : ∃ root : Node top, root =
      (if swa.root.isNull then swa_new_LevelN top else swa.root) ∧
      Shape top root ∧ ∀ key', get key' top root = map key' := by
    refine ⟨_, rfl, ?_⟩
    cases isNull : swa.root.isNull with
    | true =>
        have shape := @shape_new top top
        have values := fun key' => @get_new top key' top
        simp only [if_neg notLeaf] at shape values
        refine ⟨shape, fun key' => ?_⟩
        rw [if_pos rfl, values, ← represents.values, Node.isNull_iff.mp isNull,
          get_null]
    | false =>
        exact ⟨(represents.sound (by simp [Node.isSome, isNull])).shape,
          represents.values⟩
  obtain ⟨root, isRoot, shape, values⟩ := root
  obtain ⟨⟨root', present⟩, added, wellFormed, isPresent, changed⟩ :=
    @addFrom_spec top key val top root shape
  refine ⟨({ swa with root := root' }, present), ?_,
    ⟨wellFormed.sound, fun key' => ?_⟩, isPresent.trans (by rw [values])⟩
  · simp only [SWA.addToSWA, ← isRoot, added, ok_bind]
    rfl
  · exact (changed key').trans (by rw [values, update_eq_ite])

theorem SWA.Represents.delFromSWA (represents : swa.Represents map)
    (key : Word top) :
    Returns (swa.delFromSWA key) fun result =>
      result.1.Represents (Function.update map key none) ∧
        result.2 = (map key).map fun val => (key, val) := by
  obtain ⟨found, deleted, spec⟩ := @delFrom_spec top key top swa.root
    represents.sound
  rw [SWA.delFromSWA, deleted, ok_bind]
  cases found with
  | none =>
      have absent : map key = none := (represents.values key).symm.trans spec
      refine Returns.pure ⟨⟨represents.sound, fun key' => ?_⟩, ?_⟩
      · by_cases same : key' = key
        · rw [same, Function.update_self, represents.values, absent]
        · rw [Function.update_of_ne same, represents.values]
      · rw [absent]
        rfl
  | some found =>
      obtain ⟨root', oldV⟩ := found
      obtain ⟨isVal, sound, changed⟩ := spec
      refine Returns.pure ⟨⟨sound, fun key' => ?_⟩, ?_⟩
      · exact (changed key').trans
          (by rw [represents.values, update_eq_ite])
      · rw [← represents.values, isVal]
        rfl

theorem SWA.Represents.lookupSWA (represents : swa.Represents map)
    (key : Word top) :
    swa.lookupSWA key = .ok ((map key).map fun val => (key, val)) := by
  rw [SWA.lookupSWA, lookupFrom_eq represents.sound, represents.values]
  rfl

/-- One call does to the array what it does to the map. -/
theorem SWA.Represents.call (represents : swa.Represents map)
    (host : top = 3 ∨ top = 7) (call : Call top) :
    Returns (swa.call call) fun result =>
      result.1.Represents (mapCall map call).1 ∧
        result.2 = (mapCall map call).2 := by
  cases call with
  | addToSWA key val =>
      obtain ⟨⟨swa', present⟩, added, kept, isPresent⟩ :=
        represents.addToSWA host key val
      rw [SWA.call, added]
      exact Returns.pure ⟨kept, congrArg Answer.added isPresent⟩
  | delFromSWA key =>
      obtain ⟨⟨swa', entry⟩, deleted, kept, isEntry⟩ :=
        represents.delFromSWA key
      rw [SWA.call, deleted]
      exact Returns.pure ⟨kept, congrArg Answer.found isEntry⟩
  | lookupSWA key =>
      rw [SWA.call, represents.lookupSWA key]
      exact Returns.pure ⟨represents, rfl⟩
  | sizeSWA =>
      exact Returns.pure ⟨represents, congrArg Answer.size represents.size⟩

theorem SWA.Represents.calls (represents : swa.Represents map)
    (host : top = 3 ∨ top = 7) (calls : List (Call top)) :
    Returns (swa.calls calls) fun result =>
      result.1.Represents (mapCalls map calls).1 ∧
        result.2 = (mapCalls map calls).2 := by
  induction calls generalizing swa map with
  | nil => exact Returns.pure ⟨represents, rfl⟩
  | cons call rest induction =>
      obtain ⟨⟨swa', answer⟩, called, kept, isAnswer⟩ :=
        represents.call host call
      obtain ⟨⟨swa'', answers⟩, later, final, areAnswers⟩ := induction kept
      refine ⟨(swa'', answer :: answers), ?_, final,
        congrArg₂ List.cons isAnswer areAnswers⟩
      rw [SWA.calls, called, ok_bind]
      simp only [later, ok_bind]
      rfl

end Calls

end SparseWA
end HelgrindPlus
