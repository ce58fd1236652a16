import HelgrindPlus.Zsm.Tree

/-!
# Lines of shadow memory

A line covers 64 bytes.  In the cache it is a `CacheLine` of eight trees; in
the backing store it is a `LineZ`, four values and an array of two-bit
indices, or if it has more than four values a `LineF`.
-/

namespace HelgrindPlus

open Outcome

variable {α : Type}

structure CacheLine (α : Type) where
  descrs : Nat → Descr
  svals : Nat → α

namespace CacheLine

/-- The pointer `&cl->svals[tno << 3]`. -/
def tree (cl : CacheLine α) (tno : Nat) : Tree α :=
  fun i => cl.svals (8 * tno + i)

/-- The line after a function has worked on one of its trees in place. -/
def setTree (cl : CacheLine α) (tno : Nat) (node : Tree α × Descr) :
    CacheLine α where
  descrs := Function.update cl.descrs tno node.2
  svals := fun i =>
    if i / 8 = tno then node.1 (Fin.ofNat 8 i) else cl.svals i

def sequentialise (cl : CacheLine α) : List (CountedSVal α) :=
  (List.range 8).flatMap fun tno =>
    sequentialiseTree (cl.descrs tno) (cl.tree tno)

def normalise [DecidableEq α] [ShadowVal α] (cl : CacheLine α) :
    Except Abort (CacheLine α) :=
  (List.range 8).foldlM (fun cl tno => do
    let node ← normaliseTree (cl.tree tno)
    pure (cl.setTree tno node)) cl

end CacheLine

/-- If `dict[0]` is `SVal_INVALID` then the source reads `dict[1]` as the
index of a `LineF`.  The field `fix` is `dict[1]` under that reading. -/
structure LineZ (α : Type) where
  dict : Nat → α
  ix2s : Nat → BitVec 8
  fix : Nat

structure LineF (α : Type) where
  inUse : Bool
  w64s : Nat → α

def writeTwobitArray (arr : Nat → BitVec 8) (ix b2 : Nat) :
    Nat → BitVec 8 :=
  let bix := ix / 4
  let shft := 2 * (ix % 4)
  let mask := 3#8 <<< shft
  let prep := BitVec.ofNat 8 b2 <<< shft
  Function.update arr bix (arr bix &&& ~~~mask ||| prep)

def readTwobitArray (arr : Nat → BitVec 8) (ix : Nat) : Nat :=
  let bix := ix / 4
  let shft := 2 * (ix % 4)
  (arr bix >>> shft &&& 3#8).toNat

/-- The statements `write_twobit_array(ix2s, i+0, j)` and so on for a run. -/
def writeRun (arr : Nat → BitVec 8) (i j m : Nat) : Nat → BitVec 8 :=
  (List.range m).foldl (fun arr k => writeTwobitArray arr (i + k) j) arr

section Values

variable [DecidableEq α] [ShadowVal α]

/-- The position of `sv` in the dictionary, in a free slot if it is new. -/
def dictSlot (dict : Nat → α) (sv : α) : Option ((Nat → α) × Nat) :=
  match (List.range 4).find? fun j => decide (sv = dict j) with
  | some j => some (dict, j)
  | none =>
      match (List.range 4).find? fun j => decide (dict j = invalid) with
      | some j => some (Function.update dict j sv, j)
      | none => none

/-- The first loop of `cacheline_wback`.  It stops early if the dictionary is
full; `i` counts the bytes that have found their place. -/
def compress : List (CountedSVal α) → LineZ α → Nat →
    Except Abort (LineZ α × Nat)
  | [], lineZ, i => .ok (lineZ, i)
  | csval :: rest, lineZ, i =>
      match dictSlot lineZ.dict csval.sval with
      | none => .ok (lineZ, i)
      | some (dict, j) => do
          let m := csval.count
          tlAssert (m = 8 ∨ m = 4 ∨ m = 1 ∨ m = 2)
          compress rest { lineZ with
            dict := dict
            ix2s := writeRun lineZ.ix2s i j m } (i + m)

/-- The expansion of a `LineZ` into the bottom layer of the trees. -/
def LineZ.expand (lineZ : LineZ α) : Except Abort (Nat → α) := do
  tlAssert (∀ i : Nat, i < 64 →
    lineZ.dict (readTwobitArray lineZ.ix2s i) ≠ invalid)
  pure fun i => lineZ.dict (readTwobitArray lineZ.ix2s i)

end Values

namespace CacheLine

/-- The shadow value of byte `i` of the line. -/
def byte (cl : CacheLine α) (i : Nat) : α :=
  treeByte (cl.descrs (i / 8)) (cl.tree (i / 8)) (Fin.ofNat 8 i)

/-- The function `is_sane_CacheLine`. -/
def Sane [DecidableEq α] [ShadowVal α] (cl : CacheLine α) : Prop :=
  ∀ tno < 8, isSaneDescrAndTree (cl.descrs tno) (cl.tree tno) = true

variable {cl : CacheLine α} {tno : Nat} {node : Tree α × Descr}

theorem setTree_tree_self : (cl.setTree tno node).tree tno = node.1 := by
  funext i
  have inside : (8 * tno + i) / 8 = tno := by omega
  have position : Fin.ofNat 8 (8 * tno + i) = i := by
    apply Fin.ext
    simp only [Fin.val_ofNat]
    omega
  simp only [tree, setTree, inside, position, if_true]

theorem setTree_tree_of_ne {other : Nat} (different : other ≠ tno) :
    (cl.setTree tno node).tree other = cl.tree other := by
  funext i
  have outside : (8 * other + i) / 8 ≠ tno := by omega
  simp [tree, setTree, outside]

theorem setTree_descrs_self :
    (cl.setTree tno node).descrs tno = node.2 :=
  Function.update_self ..

theorem setTree_descrs_of_ne {other : Nat} (different : other ≠ tno) :
    (cl.setTree tno node).descrs other = cl.descrs other :=
  Function.update_of_ne different ..

theorem setTree_byte (i : Nat) :
    (cl.setTree tno node).byte i =
      if i / 8 = tno then treeByte node.2 node.1 (Fin.ofNat 8 i)
      else cl.byte i := by
  unfold byte
  split
  · rename_i here
    rw [here, setTree_tree_self, setTree_descrs_self]
  · rename_i elsewhere
    rw [setTree_tree_of_ne elsewhere, setTree_descrs_of_ne elsewhere]

variable [DecidableEq α] [ShadowVal α]

theorem Sane.setTree (sane : cl.Sane)
    (saneNode : isSaneDescrAndTree node.2 node.1 = true) :
    (cl.setTree tno node).Sane := by
  intro other bounded
  by_cases here : other = tno
  · rw [here, setTree_tree_self, setTree_descrs_self]
    exact saneNode
  · rw [setTree_tree_of_ne here, setTree_descrs_of_ne here]
    exact sane other bounded

theorem Sane.byte_ne_invalid (sane : cl.Sane) {i : Nat} (bounded : i < 64) :
    cl.byte i ≠ invalid :=
  treeByte_ne_invalid (sane (i / 8) (by omega)) _

theorem normalise_returns (valid : ∀ i < 64, cl.svals i ≠ invalid) :
    Returns cl.normalise fun result =>
      result.Sane ∧ ∀ i < 64, result.byte i = cl.svals i := by
  let invariant (n : Nat) (state : CacheLine α) : Prop :=
    (∀ tno < n, Describes (cl.tree tno)
      (state.tree tno, state.descrs tno)) ∧
    ∀ tno, n ≤ tno → state.tree tno = cl.tree tno
  have loop : Returns cl.normalise (invariant (List.range 8).length) := by
    apply @Returns.foldlM _ _ _ _ invariant
    · intro n state tno listed holds
      obtain ⟨bounded, rfl⟩ := List.getElem?_eq_some_iff.mp listed
      rw [List.length_range] at bounded
      rw [List.getElem_range]
      have bytes : ∀ i, cl.tree n i ≠ invalid :=
        fun i => valid _ (by omega)
      rw [holds.2 n (le_refl n)]
      apply (normaliseTree_returns bytes).bind
      intro node describes
      apply Returns.pure
      constructor
      · intro tno below
        by_cases here : tno = n
        · rw [here, setTree_tree_self, setTree_descrs_self]
          exact describes
        · rw [setTree_tree_of_ne here, setTree_descrs_of_ne here]
          exact holds.1 tno (by omega)
      · intro tno above
        rw [setTree_tree_of_ne (by omega)]
        exact holds.2 tno (by omega)
    · exact ⟨by simp, fun tno _ => rfl⟩
  apply loop.mono
  intro result holds
  rw [List.length_range] at holds
  refine ⟨fun tno bounded => (holds.1 tno bounded).sane, fun i bounded => ?_⟩
  have described := (holds.1 (i / 8) (by omega)).bytes (Fin.ofNat 8 i)
  have position : 8 * (i / 8) + (Fin.ofNat 8 i).val = i := by
    simp only [Fin.val_ofNat]
    omega
  unfold byte
  rw [described]
  unfold tree
  rw [position]

theorem sequentialise_sane (sane : cl.Sane) :
    ∀ csval ∈ cl.sequentialise, csval.Sane := by
  intro csval member
  obtain ⟨tno, bounded, listed⟩ := List.mem_flatMap.mp member
  exact sequentialiseTree_sane (sane tno (List.mem_range.mp bounded)) csval
    listed

/-- The runs of a line are its bytes. -/
theorem expand_sequentialise (sane : cl.Sane) :
    HelgrindPlus.expand cl.sequentialise = (List.range 64).map cl.byte := by
  have trees : ∀ tno ∈ List.range 8,
      HelgrindPlus.expand (sequentialiseTree (cl.descrs tno) (cl.tree tno)) =
        (List.range 8).map fun i => cl.byte (8 * tno + i) := by
    intro tno bounded
    rw [expand_sequentialiseTree (sane tno (List.mem_range.mp bounded))]
    rw [← List.map_coe_finRange_eq_range, List.map_map, List.ofFn_eq_map]
    apply List.map_congr_left
    intro i _
    have inside : (8 * tno + i.val) / 8 = tno := by omega
    have position : Fin.ofNat 8 (8 * tno + i.val) = i := by
      apply Fin.ext
      simp only [Fin.val_ofNat]
      omega
    simp only [byte, inside, position, Function.comp_apply]
  unfold sequentialise HelgrindPlus.expand at *
  rw [List.flatMap_assoc]
  rw [List.flatMap_congr trees]
  rfl

end CacheLine

private theorem twobit_byte : ∀ (s t b : Fin 4) (old : BitVec 8),
    ((old &&& ~~~(3#8 <<< (2 * s.val)) |||
      BitVec.ofNat 8 b <<< (2 * s.val)) >>> (2 * t.val) &&& 3#8).toNat =
    if s = t then b.val else (old >>> (2 * t.val) &&& 3#8).toNat := by
  decide +kernel

private theorem readTwobitArray_write (arr : Nat → BitVec 8) {b2 : Nat}
    (small : b2 < 4) (ix jx : Nat) :
    readTwobitArray (writeTwobitArray arr ix b2) jx =
      if jx = ix then b2 else readTwobitArray arr jx := by
  unfold readTwobitArray writeTwobitArray
  by_cases sameByte : jx / 4 = ix / 4
  · have shared := twobit_byte ⟨ix % 4, by omega⟩ ⟨jx % 4, by omega⟩
      ⟨b2, small⟩ (arr (ix / 4))
    dsimp only at shared ⊢
    rw [sameByte, Function.update_self, shared]
    have position : (⟨ix % 4, by omega⟩ : Fin 4) = ⟨jx % 4, by omega⟩ ↔
        jx = ix := by
      rw [Fin.mk.injEq]
      omega
    simp only [position]
  · have apart : jx ≠ ix := fun same => sameByte (by rw [same])
    dsimp only
    rw [Function.update_of_ne sameByte, if_neg apart]

private theorem readTwobitArray_writeRun (arr : Nat → BitVec 8) {j : Nat}
    (small : j < 4) (i m k : Nat) :
    readTwobitArray (writeRun arr i j m) k =
      if i ≤ k ∧ k < i + m then j else readTwobitArray arr k := by
  induction m with
  | zero =>
      rw [if_neg (by omega)]
      rfl
  | succ m induction =>
      unfold writeRun at induction ⊢
      rw [List.range_succ, List.foldl_append, List.foldl_cons,
        List.foldl_nil, readTwobitArray_write _ small, induction]
      by_cases last : k = i + m
      · rw [if_pos last, if_pos (by omega)]
      · rw [if_neg last]
        by_cases inside : i ≤ k ∧ k < i + m
        · rw [if_pos inside, if_pos (by omega)]
        · rw [if_neg inside, if_neg (by omega)]

theorem readTwobitArray_zero (k : Nat) :
    readTwobitArray (fun _ => 0#8) k = 0 := by
  simp [readTwobitArray]

theorem readTwobitArray_lt (arr : Nat → BitVec 8) (k : Nat) :
    readTwobitArray arr k < 4 := by
  unfold readTwobitArray
  rw [BitVec.toNat_and]
  exact Nat.lt_of_le_of_lt Nat.and_le_right (by decide)

section Values

variable [DecidableEq α] [ShadowVal α] {dict : Nat → α} {sv : α}

/-- The slots of a dictionary are filled from the front. -/
def FilledInOrder (dict : Nat → α) : Prop :=
  dict 0 = invalid → ∀ j < 4, dict j = invalid

/-- What `dictSlot` promises about the slot it finds. -/
structure SlotFound (dict : Nat → α) (sv : α)
    (result : (Nat → α) × Nat) : Prop where
  small : result.2 < 4
  here : result.1 result.2 = sv
  first : result.1 0 ≠ invalid
  kept : ∀ j, dict j ≠ invalid → result.1 j = dict j
  values : ∀ j, result.1 j = dict j ∨ result.1 j = sv

private theorem find?_range_four {test : Nat → Bool} {j : Nat}
    (found : (List.range 4).find? test = some j) :
    j < 4 ∧ test j = true :=
  ⟨List.mem_range.mp (List.mem_of_find?_eq_some found),
    List.find?_some found⟩

private theorem dictSlot_found (ordered : FilledInOrder dict)
    (valid : sv ≠ invalid) {result : (Nat → α) × Nat}
    (found : dictSlot dict sv = some result) :
    SlotFound dict sv result := by
  unfold dictSlot at found
  split at found
  · rename_i j present
    cases found
    obtain ⟨small, same⟩ := find?_range_four present
    have here : sv = dict j := of_decide_eq_true same
    refine ⟨small, here.symm, ?_, fun j _ => rfl, fun j => .inl rfl⟩
    intro empty
    exact valid (here.trans (ordered empty j small))
  · rename_i absent
    split at found
    · rename_i j free
      cases found
      obtain ⟨small, same⟩ := find?_range_four free
      have empty : dict j = invalid := of_decide_eq_true same
      refine ⟨small, Function.update_self .., ?_, ?_, ?_⟩
      · intro cleared
        dsimp only at cleared
        by_cases first : j = 0
        · rw [first, Function.update_self] at cleared
          exact valid cleared
        · rw [Function.update_of_ne (Ne.symm first)] at cleared
          have front : (List.range 4).find?
              (fun j => decide (dict j = invalid)) = some 0 :=
            List.find?_cons_of_pos (decide_eq_true cleared)
          rw [front] at free
          exact first (Option.some.inj free).symm
      · intro other occupied
        have apart : other ≠ j := fun same => occupied (same ▸ empty)
        exact Function.update_of_ne apart ..
      · intro other
        by_cases same : other = j
        · right
          rw [same]
          exact Function.update_self ..
        · left
          exact Function.update_of_ne same ..
    · cases found

/-- The first `i` bytes of a line are those of `content`. -/
def LineZ.Holds (lineZ : LineZ α) (i : Nat) (content : List α) : Prop :=
  ∀ k < i, content[k]? =
    some (lineZ.dict (readTwobitArray lineZ.ix2s k))

/-- The state of the first loop of `cacheline_wback` after `i` bytes. -/
structure Compressing (content : List α) (lineZ : LineZ α) (i : Nat) :
    Prop where
  holds : lineZ.Holds i content
  ordered : FilledInOrder lineZ.dict
  started : 0 < i → lineZ.dict 0 ≠ invalid
  values : ∀ j, lineZ.dict j = invalid ∨ lineZ.dict j ∈ content

theorem Compressing.round {content done rest : List α} {lineZ : LineZ α}
    {csval : CountedSVal α} {found : (Nat → α) × Nat}
    (before : Compressing content lineZ done.length)
    (valid : ∀ v ∈ content, v ≠ invalid)
    (split : content =
      done ++ (List.replicate csval.count csval.sval ++ rest))
    (positive : 0 < csval.count)
    (slot : dictSlot lineZ.dict csval.sval = some found) :
    Compressing content { lineZ with
        dict := found.1
        ix2s := writeRun lineZ.ix2s done.length found.2 csval.count }
      (done.length + csval.count) := by
  have listed : csval.sval ∈ content := by
    rw [split]
    simp [positive.ne']
  have slotFound := dictSlot_found before.ordered (valid _ listed) slot
  constructor
  · intro k bounded
    dsimp only
    rw [readTwobitArray_writeRun _ slotFound.small]
    by_cases old : k < done.length
    · rw [if_neg (by omega), before.holds k old]
      have present := before.holds k old
      have member := List.mem_of_getElem? present
      rw [slotFound.kept _ (valid _ member)]
    · rw [if_pos (by omega), slotFound.here, split,
        List.getElem?_append_right (by omega),
        List.getElem?_append_left (by simp; omega)]
      simp only [List.getElem?_replicate]
      rw [if_pos (by omega)]
  · intro empty
    exact absurd empty slotFound.first
  · intro _
    exact slotFound.first
  · intro j
    obtain same | new := slotFound.values j
    · dsimp only
      rw [same]
      exact before.values j
    · right
      dsimp only
      rw [new]
      exact listed

/-- The loop has placed the whole line, or it has stopped before its end. -/
def Compressed (content : List α) (start : LineZ α)
    (result : LineZ α × Nat) : Prop :=
  result.1.fix = start.fix ∧
    (result.2 = content.length ∧
        Compressing content result.1 content.length ∨
      result.2 < content.length)

theorem compress_returns {csvals : List (CountedSVal α)}
    {content done : List α} {lineZ : LineZ α}
    (sane : ∀ csval ∈ csvals, csval.Sane)
    (valid : ∀ v ∈ content, v ≠ invalid)
    (split : content = done ++ expand csvals)
    (before : Compressing content lineZ done.length) :
    Returns (compress csvals lineZ done.length)
      (Compressed content lineZ) := by
  induction csvals generalizing done lineZ with
  | nil =>
      have finished : content = done := by simpa [expand] using split
      subst finished
      exact Returns.ok ⟨rfl, .inl ⟨rfl, before⟩⟩
  | cons csval rest induction =>
      obtain ⟨count, -⟩ := sane csval List.mem_cons_self
      have positive : 0 < csval.count := by
        simp only [List.mem_cons, List.not_mem_nil, or_false] at count
        omega
      have parts : content = done ++
          (List.replicate csval.count csval.sval ++ expand rest) := by
        simpa [expand] using split
      unfold compress
      split
      · have more : done.length < content.length := by
          rw [parts]
          simp only [List.length_append, List.length_replicate]
          omega
        exact Returns.ok ⟨rfl, .inr more⟩
      · rename_i dict j slot
        have legitimate : csval.count = 8 ∨ csval.count = 4 ∨
            csval.count = 1 ∨ csval.count = 2 := by
          simp only [List.mem_cons, List.not_mem_nil, or_false] at count
          omega
        dsimp only
        rw [tlAssert_of legitimate, ok_bind]
        have after := before.round valid parts positive slot
        have longer : done.length + csval.count =
            (done ++ List.replicate csval.count csval.sval).length := by
          simp
        rw [longer] at after ⊢
        exact induction (fun csval member =>
            sane csval (List.mem_cons_of_mem _ member))
          (by rw [parts, List.append_assoc]) after

end Values

end HelgrindPlus
