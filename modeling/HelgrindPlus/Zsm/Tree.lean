import HelgrindPlus.LibHB.VtsTab
import Mathlib.Algebra.GroupWithZero.Nat
import Mathlib.Data.Fintype.Basic
import Mathlib.Logic.Function.Basic

/-!
# Descriptors and implicit trees

The section "CacheLine and implicit-tree related" of `libhb_core.c`.  Eight
shadow values and a 16-bit descriptor describe eight bytes: the descriptor
says which nodes of a binary tree carry a value, and the value of a node is
kept at the position of the first byte below it.  Positions that carry no
node hold `SVal_INVALID`.

The functions move values about without looking at them, apart from
`normalise_tree`.  Each is therefore the composition of the tree with what it
does to the positions themselves, and the facts about positions are finitely
many: there are 26 descriptors.
-/

namespace HelgrindPlus

open Outcome

/-- A tree has eight positions. -/
instance neZero_eight : NeZero 8 := ⟨by decide⟩

/-- What the compressed shadow memory needs to know about shadow values. -/
class ShadowVal (α : Type) where
  invalid : α
  noAccess : α
  noAccess_ne_invalid : noAccess ≠ invalid

export ShadowVal (invalid noAccess)

abbrev Descr := BitVec 16

abbrev Tree (α : Type) := Fin 8 → α

namespace Descr

def d16_0 : Descr := 1#16 <<< 0
def d32_0 : Descr := 1#16 <<< 1
def d16_1 : Descr := 1#16 <<< 2
def d64 : Descr := 1#16 <<< 3
def d16_2 : Descr := 1#16 <<< 4
def d32_1 : Descr := 1#16 <<< 5
def d16_3 : Descr := 1#16 <<< 6
def d8_0 : Descr := 1#16 <<< 7
def d8_1 : Descr := 1#16 <<< 8
def d8_2 : Descr := 1#16 <<< 9
def d8_3 : Descr := 1#16 <<< 10
def d8_4 : Descr := 1#16 <<< 11
def d8_5 : Descr := 1#16 <<< 12
def d8_6 : Descr := 1#16 <<< 13
def d8_7 : Descr := 1#16 <<< 14

/-- The test `descr & mask`. -/
def has (descr mask : Descr) : Bool := descr &&& mask != 0#16

/-- The cases of `descr_to_validbits`. -/
def validbitsTable : List (Descr × BitVec 8) := [
  (0b11111111_000_0_000#16, 0b11111111#8),
  (0b11001111_001_0_000#16, 0b11011111#8),
  (0b00111111_100_0_000#16, 0b01111111#8),
  (0b00001111_101_0_000#16, 0b01011111#8),

  (0b11111100_000_0_001#16, 0b11111101#8),
  (0b11001100_001_0_001#16, 0b11011101#8),
  (0b00111100_100_0_001#16, 0b01111101#8),
  (0b00001100_101_0_001#16, 0b01011101#8),

  (0b11110011_000_0_100#16, 0b11110111#8),
  (0b11000011_001_0_100#16, 0b11010111#8),
  (0b00110011_100_0_100#16, 0b01110111#8),
  (0b00000011_101_0_100#16, 0b01010111#8),

  (0b11110000_000_0_101#16, 0b11110101#8),
  (0b11000000_001_0_101#16, 0b11010101#8),
  (0b00110000_100_0_101#16, 0b01110101#8),
  (0b00000000_101_0_101#16, 0b01010101#8),

  (0b00001111_010_0_000#16, 0b00011111#8),
  (0b00001100_010_0_001#16, 0b00011101#8),
  (0b00000011_010_0_100#16, 0b00010111#8),
  (0b00000000_010_0_101#16, 0b00010101#8),

  (0b11110000_000_0_010#16, 0b11110001#8),
  (0b11000000_001_0_010#16, 0b11010001#8),
  (0b00110000_100_0_010#16, 0b01110001#8),
  (0b00000000_101_0_010#16, 0b01010001#8),

  (0b00000000_010_0_010#16, 0b00010001#8),

  (0b00000000_000_1_000#16, 0b00000001#8)]

def toValidbits (descr : Descr) : BitVec 8 :=
  (validbitsTable.lookup descr).getD 0#8

end Descr

open Descr

variable {α β : Type}

/-- The step that all `pulldown` functions share: the node `whole`, whose
value is at `lo`, is replaced by its two halves. -/
def splitNode (tree : Tree α) (descr whole halves : Descr) (lo hi : Fin 8) :
    Except Abort (Tree α × Descr) := do
  tlAssert (descr.has whole = true)
  pure (Function.update tree hi (tree lo), descr &&& ~~~whole ||| halves)

def pulldownTo32 (tree : Tree α) (toff : Nat) (descr : Descr) :
    Except Abort (Tree α × Descr) :=
  match toff with
  | 0 | 4 => splitNode tree descr d64 (d32_1 ||| d32_0) 0 4
  | _ => .error .tlAssert

/-- The lines `if (!(descr & whole)) descr = pulldown(...)`. -/
def unlessThere (tree : Tree α) (descr whole : Descr)
    (pulldown : Except Abort (Tree α × Descr)) :
    Except Abort (Tree α × Descr) :=
  if descr.has whole then .ok (tree, descr) else pulldown

def pulldownTo16 (tree : Tree α) (toff : Nat) (descr : Descr) :
    Except Abort (Tree α × Descr) :=
  match toff with
  | 0 | 2 => do
      let (tree, descr) ←
        unlessThere tree descr d32_0 (pulldownTo32 tree 0 descr)
      splitNode tree descr d32_0 (d16_1 ||| d16_0) 0 2
  | 4 | 6 => do
      let (tree, descr) ←
        unlessThere tree descr d32_1 (pulldownTo32 tree 4 descr)
      splitNode tree descr d32_1 (d16_3 ||| d16_2) 4 6
  | _ => .error .tlAssert

def pulldownTo8 (tree : Tree α) (toff : Nat) (descr : Descr) :
    Except Abort (Tree α × Descr) :=
  match toff with
  | 0 | 1 => do
      let (tree, descr) ←
        unlessThere tree descr d16_0 (pulldownTo16 tree 0 descr)
      splitNode tree descr d16_0 (d8_1 ||| d8_0) 0 1
  | 2 | 3 => do
      let (tree, descr) ←
        unlessThere tree descr d16_1 (pulldownTo16 tree 2 descr)
      splitNode tree descr d16_1 (d8_3 ||| d8_2) 2 3
  | 4 | 5 => do
      let (tree, descr) ←
        unlessThere tree descr d16_2 (pulldownTo16 tree 4 descr)
      splitNode tree descr d16_2 (d8_5 ||| d8_4) 4 5
  | 6 | 7 => do
      let (tree, descr) ←
        unlessThere tree descr d16_3 (pulldownTo16 tree 6 descr)
      splitNode tree descr d16_3 (d8_7 ||| d8_6) 6 7
  | _ => .error .tlAssert

/-- The step that all `pullup_descr` functions share. -/
def mergeDescr (descr mask whole : Descr) : Except Abort Descr := do
  tlAssert (descr &&& mask = mask)
  pure (descr &&& ~~~mask ||| whole)

def pullupDescrTo16 (descr : Descr) (toff : Nat) : Except Abort Descr :=
  match toff with
  | 0 => mergeDescr descr (d8_1 ||| d8_0) d16_0
  | 2 => mergeDescr descr (d8_3 ||| d8_2) d16_1
  | 4 => mergeDescr descr (d8_5 ||| d8_4) d16_2
  | 6 => mergeDescr descr (d8_7 ||| d8_6) d16_3
  | _ => .error .tlAssert

/-- The lines `if (!(descr & half)) descr = pullup_descr_to_16(descr, toff)`. -/
def pullupUnlessThere (descr half : Descr) (toff : Nat) :
    Except Abort Descr :=
  if descr.has half then .ok descr else pullupDescrTo16 descr toff

def pullupDescrTo32 (descr : Descr) (toff : Nat) : Except Abort Descr :=
  match toff with
  | 0 => do
      let descr ← pullupUnlessThere descr d16_0 0
      let descr ← pullupUnlessThere descr d16_1 2
      mergeDescr descr (d16_1 ||| d16_0) d32_0
  | 4 => do
      let descr ← pullupUnlessThere descr d16_2 4
      let descr ← pullupUnlessThere descr d16_3 6
      mergeDescr descr (d16_3 ||| d16_2) d32_1
  | _ => .error .tlAssert

def validValueIsAboveMe32 (descr : Descr) (toff : Nat) :
    Except Abort Bool :=
  match toff with
  | 0 | 4 => .ok (descr.has d64)
  | _ => .error .tlAssert

def validValueIsBelowMe16 (descr : Descr) (toff : Nat) :
    Except Abort Bool :=
  match toff with
  | 0 => .ok (descr.has (d8_1 ||| d8_0))
  | 2 => .ok (descr.has (d8_3 ||| d8_2))
  | 4 => .ok (descr.has (d8_5 ||| d8_4))
  | 6 => .ok (descr.has (d8_7 ||| d8_6))
  | _ => .error .tlAssert

structure CountedSVal (α : Type) where
  count : Nat
  sval : α
  deriving DecidableEq

/-- The lines `if (descr & bit) PUT(n, v); else ...`. -/
def putIf (descr : Descr) (choices : List (Descr × Nat)) (sval : α) :
    List (CountedSVal α) :=
  match choices.find? fun choice => descr.has choice.1 with
  | some (_, count) => [⟨count, sval⟩]
  | none => []

/-- The body of the loop of `sequentialise_CacheLine`. -/
def sequentialiseTree (descr : Descr) (tree : Tree α) :
    List (CountedSVal α) :=
  putIf descr [(d64, 8), (d32_0, 4), (d16_0, 2), (d8_0, 1)] (tree 0) ++
  putIf descr [(d8_1, 1)] (tree 1) ++
  putIf descr [(d16_1, 2), (d8_2, 1)] (tree 2) ++
  putIf descr [(d8_3, 1)] (tree 3) ++
  putIf descr [(d32_1, 4), (d16_2, 2), (d8_4, 1)] (tree 4) ++
  putIf descr [(d8_5, 1)] (tree 5) ++
  putIf descr [(d16_3, 2), (d8_6, 1)] (tree 6) ++
  putIf descr [(d8_7, 1)] (tree 7)

section Values

variable [DecidableEq α] [ShadowVal α]

/-- The function `is_sane_Descr_and_Tree`. -/
def isSaneDescrAndTree (descr : Descr) (tree : Tree α) : Bool :=
  toValidbits descr ≠ 0#8 ∧
    ∀ i : Fin 8, (toValidbits descr).getLsbD i = true ↔ tree i ≠ invalid

/-- The step that all layers of `normalise_tree` share. -/
def mergeNodes (node : Tree α × Descr) (hi : Fin 8) (halves whole : Descr) :
    Tree α × Descr :=
  (Function.update node.1 hi invalid, node.2 &&& ~~~halves ||| whole)

/-- The 16-bit layer. -/
def merge16 (node : Tree α × Descr) (lo hi : Fin 8) (halves whole : Descr) :
    Tree α × Descr :=
  if node.1 hi = node.1 lo then mergeNodes node hi halves whole else node

/-- The 32-bit and 64-bit layers, which also look at the two halves. -/
def mergeAbove (node : Tree α × Descr) (lo hi : Fin 8)
    (half₁ half₀ whole : Descr) : Tree α × Descr :=
  if node.1 hi = node.1 lo ∧ node.2.has half₁ = true ∧
      node.2.has half₀ = true then
    mergeNodes node hi (half₁ ||| half₀) whole
  else node

def leavesDescr : Descr :=
  d8_7 ||| d8_6 ||| d8_5 ||| d8_4 ||| d8_3 ||| d8_2 ||| d8_1 ||| d8_0

def normaliseTree (tree : Tree α) : Except Abort (Tree α × Descr) := do
  tlAssert (∀ i, tree i ≠ invalid)
  let node := (tree, leavesDescr)
  let node := merge16 node 0 1 (d8_1 ||| d8_0) d16_0
  let node := merge16 node 2 3 (d8_3 ||| d8_2) d16_1
  let node := merge16 node 4 5 (d8_5 ||| d8_4) d16_2
  let node := merge16 node 6 7 (d8_7 ||| d8_6) d16_3
  let node := mergeAbove node 0 2 d16_1 d16_0 d32_0
  let node := mergeAbove node 4 6 d16_3 d16_2 d32_1
  let node := mergeAbove node 0 4 d32_1 d32_0 d64
  pure node

end Values

/-- The node that carries the value of a byte: its position and its width. -/
def nodeAt (descr : Descr) (i : Fin 8) : Fin 8 × Nat :=
  if descr.has d64 then (0, 8)
  else if descr.has (d32_0 <<< (i.val / 4 * 4)) then (4 * (i / 4), 4)
  else if descr.has (d16_0 <<< (i.val / 2 * 2)) then (2 * (i / 2), 2)
  else (i, 1)

def treeByte (descr : Descr) (tree : Tree α) (i : Fin 8) : α :=
  tree (nodeAt descr i).1

def descrs : List Descr := validbitsTable.map Prod.fst

theorem mem_descrs_of_toValidbits {descr : Descr}
    (valid : toValidbits descr ≠ 0#8) : descr ∈ descrs := by
  unfold toValidbits at valid
  cases found : validbitsTable.lookup descr with
  | none =>
      rw [found] at valid
      exact absurd rfl valid
  | some bits =>
      rw [List.lookup_eq_some_iff] at found
      obtain ⟨left, right, split, -⟩ := found
      unfold descrs
      rw [split]
      simp

/-- The positions `σ` are a way to describe with `after` what `before`
describes. -/
def Rearranges (before after : Descr) (σ : Fin 8 → Fin 8) : Prop :=
  toValidbits after ≠ 0#8 ∧
    (∀ i : Fin 8, (toValidbits after).getLsbD i =
      (toValidbits before).getLsbD (σ i)) ∧
    ∀ i : Fin 8, σ (nodeAt after i).1 = (nodeAt before i).1

instance (before after : Descr) (σ : Fin 8 → Fin 8) :
    Decidable (Rearranges before after σ) :=
  inferInstanceAs (Decidable (_ ∧ _ ∧ _))

/-- The byte at `toff` begins a node of the given width. -/
def IsNode (descr : Descr) (toff width : Nat) : Prop :=
  nodeAt descr (Fin.ofNat 8 toff) = (Fin.ofNat 8 toff, width)

instance (descr : Descr) (toff width : Nat) :
    Decidable (IsNode descr toff width) :=
  inferInstanceAs (Decidable (_ = _))

/-- What a `pulldown` function that starts at `descr` has to do to the
positions, so that `toff` becomes a node of the given width; where a node
begins, one begins afterwards. -/
def PullsDown (descr : Descr) (toff width : Nat)
    (result : Except Abort (Tree (Fin 8) × Descr)) : Prop :=
  match result with
  | .ok (σ, after) =>
      Rearranges descr after σ ∧ IsNode after toff width ∧
        ∀ i : Fin 8, (toValidbits descr).getLsbD i = true →
          (toValidbits after).getLsbD i = true
  | .error _ => False

instance (descr : Descr) (toff width : Nat) :
    (result : Except Abort (Tree (Fin 8) × Descr)) →
      Decidable (PullsDown descr toff width result)
  | .ok (_, _) => inferInstanceAs (Decidable (_ ∧ _ ∧ _))
  | .error _ => inferInstanceAs (Decidable False)

theorem forall_descrs {property : Descr → Prop} [DecidablePred property]
    (checked : (descrs.all fun descr => decide (property descr)) = true) :
    ∀ descr ∈ descrs, property descr := by
  simpa using checked

private theorem pulldownTo8_positions : ∀ descr ∈ descrs, ∀ toff < 8,
    descr.has (d8_0 <<< toff) = false →
    PullsDown descr toff 1 (pulldownTo8 id toff descr) :=
  forall_descrs (by decide +kernel)

theorem pulldownTo16_positions : ∀ descr ∈ descrs, ∀ toff ∈ [0, 2, 4, 6],
    descr.has (d16_0 <<< toff) = false →
    validValueIsBelowMe16 descr toff = .ok false →
    PullsDown descr toff 2 (pulldownTo16 id toff descr) :=
  forall_descrs (by decide +kernel)

private theorem pulldownTo32_positions : ∀ descr ∈ descrs, ∀ toff ∈ [0, 4],
    descr.has (d32_0 <<< toff) = false →
    validValueIsAboveMe32 descr toff = .ok true →
    PullsDown descr toff 4 (pulldownTo32 id toff descr) :=
  forall_descrs (by decide +kernel)

/-- The values of `tree` at the positions that a function has computed. -/
def atPositions (tree : Tree α) (node : Tree (Fin 8) × Descr) :
    Tree α × Descr :=
  (tree ∘ node.1, node.2)

private theorem bind_map_atPositions {tree : Tree α}
    {moved : Except Abort (Tree (Fin 8) × Descr)}
    {next : Tree α × Descr → Except Abort (Tree α × Descr)}
    {nextMoved : Tree (Fin 8) × Descr → Except Abort (Tree (Fin 8) × Descr)}
    (natural : ∀ node, next (atPositions tree node) =
      (nextMoved node).map (atPositions tree)) :
    moved.map (atPositions tree) >>= next =
      (moved >>= nextMoved).map (atPositions tree) := by
  cases moved with
  | error abort => rfl
  | ok node => exact natural node

theorem splitNode_natural (tree : Tree α) (σ : Tree (Fin 8))
    (descr whole halves : Descr) (lo hi : Fin 8) :
    splitNode (tree ∘ σ) descr whole halves lo hi =
      (splitNode σ descr whole halves lo hi).map (atPositions tree) := by
  unfold splitNode tlAssert
  split
  · have moved : Function.update (tree ∘ σ) hi ((tree ∘ σ) lo) =
        tree ∘ Function.update σ hi (σ lo) :=
      (Function.comp_update tree σ hi (σ lo)).symm
    rw [moved]
    rfl
  · rfl

private theorem unlessThere_natural (tree : Tree α) (σ : Tree (Fin 8))
    (descr whole : Descr) {pulldown : Except Abort (Tree α × Descr)}
    {moved : Except Abort (Tree (Fin 8) × Descr)}
    (natural : pulldown = moved.map (atPositions tree)) :
    unlessThere (tree ∘ σ) descr whole pulldown =
      (unlessThere σ descr whole moved).map (atPositions tree) := by
  unfold unlessThere
  split
  · rfl
  · exact natural

theorem pulldownTo32_natural (tree : Tree α) (σ : Tree (Fin 8)) (toff : Nat)
    (descr : Descr) :
    pulldownTo32 (tree ∘ σ) toff descr =
      (pulldownTo32 σ toff descr).map (atPositions tree) := by
  unfold pulldownTo32
  split
  · exact splitNode_natural ..
  · exact splitNode_natural ..
  · rfl

theorem pulldownTo16_natural (tree : Tree α) (σ : Tree (Fin 8)) (toff : Nat)
    (descr : Descr) :
    pulldownTo16 (tree ∘ σ) toff descr =
      (pulldownTo16 σ toff descr).map (atPositions tree) := by
  unfold pulldownTo16
  split
  case h_5 => rfl
  all_goals
    rw [unlessThere_natural tree σ _ _ (pulldownTo32_natural tree σ _ descr)]
    apply bind_map_atPositions
    intro node
    exact splitNode_natural ..

theorem pulldownTo8_natural (tree : Tree α) (σ : Tree (Fin 8)) (toff : Nat)
    (descr : Descr) :
    pulldownTo8 (tree ∘ σ) toff descr =
      (pulldownTo8 σ toff descr).map (atPositions tree) := by
  unfold pulldownTo8
  split
  case h_9 => rfl
  all_goals
    rw [unlessThere_natural tree σ _ _ (pulldownTo16_natural tree σ _ descr)]
    apply bind_map_atPositions
    intro node
    exact splitNode_natural ..

section Values

variable [DecidableEq α] [ShadowVal α] {descr after : Descr} {tree : Tree α}
  {σ : Fin 8 → Fin 8} {toff width : Nat} {value : α}

theorem isSane_iff : isSaneDescrAndTree descr tree = true ↔
    toValidbits descr ≠ 0#8 ∧ ∀ i : Fin 8,
      ((toValidbits descr).getLsbD i = true ↔ tree i ≠ invalid) := by
  unfold isSaneDescrAndTree
  exact decide_eq_true_iff

theorem Rearranges.isSane (rearranges : Rearranges descr after σ)
    (sane : isSaneDescrAndTree descr tree = true) :
    isSaneDescrAndTree after (tree ∘ σ) = true := by
  obtain ⟨valid, bits, -⟩ := rearranges
  rw [isSane_iff]
  refine ⟨valid, fun i => ?_⟩
  rw [bits i]
  exact (isSane_iff.mp sane).2 (σ i)

omit [DecidableEq α] [ShadowVal α] in
theorem Rearranges.treeByte_eq (rearranges : Rearranges descr after σ)
    (i : Fin 8) : treeByte after (tree ∘ σ) i = treeByte descr tree i :=
  congrArg tree (rearranges.2.2 i)

/-- A tree after a `pulldown` to a node of the given width at `toff`. -/
structure PulledDown (descr : Descr) (tree : Tree α) (toff width : Nat)
    (result : Tree α × Descr) : Prop where
  sane : isSaneDescrAndTree result.2 result.1 = true
  bytes : ∀ i, treeByte result.2 result.1 i = treeByte descr tree i
  node : IsNode result.2 toff width
  begins : ∀ i, tree i ≠ invalid → result.1 i ≠ invalid

theorem PullsDown.returns {pulled : Except Abort (Tree α × Descr)}
    {moved : Except Abort (Tree (Fin 8) × Descr)}
    (positions : PullsDown descr toff width moved)
    (natural : pulled = moved.map (atPositions tree))
    (sane : isSaneDescrAndTree descr tree = true) :
    Returns pulled (PulledDown descr tree toff width) := by
  subst natural
  cases moved with
  | error abort => exact positions.elim
  | ok node =>
      obtain ⟨rearranges, isNode, begins⟩ := positions
      have sane' := rearranges.isSane sane
      refine Returns.ok ⟨sane', rearranges.treeByte_eq, isNode, ?_⟩
      intro i valid
      have there := begins i (((isSane_iff.mp sane).2 i).mpr valid)
      exact ((isSane_iff.mp sane').2 i).mp there

theorem pulldownTo8_returns
    (sane : isSaneDescrAndTree descr tree = true) (bounded : toff < 8)
    (missing : descr.has (d8_0 <<< toff) = false) :
    Returns (pulldownTo8 tree toff descr)
      (PulledDown descr tree toff 1) := by
  have known := mem_descrs_of_toValidbits (isSane_iff.mp sane).1
  exact (pulldownTo8_positions descr known toff bounded missing).returns
    (pulldownTo8_natural tree id toff descr) sane

theorem pulldownTo16_returns
    (sane : isSaneDescrAndTree descr tree = true)
    (aligned : toff ∈ [0, 2, 4, 6])
    (missing : descr.has (d16_0 <<< toff) = false)
    (below : validValueIsBelowMe16 descr toff = .ok false) :
    Returns (pulldownTo16 tree toff descr)
      (PulledDown descr tree toff 2) := by
  have known := mem_descrs_of_toValidbits (isSane_iff.mp sane).1
  exact (pulldownTo16_positions descr known toff aligned missing below).returns
    (pulldownTo16_natural tree id toff descr) sane

theorem pulldownTo32_returns
    (sane : isSaneDescrAndTree descr tree = true) (aligned : toff ∈ [0, 4])
    (missing : descr.has (d32_0 <<< toff) = false)
    (above : validValueIsAboveMe32 descr toff = .ok true) :
    Returns (pulldownTo32 tree toff descr)
      (PulledDown descr tree toff 4) := by
  have known := mem_descrs_of_toValidbits (isSane_iff.mp sane).1
  exact (pulldownTo32_positions descr known toff aligned missing above).returns
    (pulldownTo32_natural tree id toff descr) sane

end Values

/-- The assignments `svals[cloff+0] = value` and `svals[cloff+i] =
SVal_INVALID` for the other bytes of a node. -/
def storeNode [ShadowVal α] (tree : Tree α) (toff width : Nat) (value : α) :
    Tree α := fun i =>
  if i.val = toff then value
  else if toff < i.val ∧ i.val < toff + width then invalid
  else tree i

/-- The descriptor `after` has a node at `toff` where `before` has some
subtree, and is `before` elsewhere. -/
def Overwrites (before after : Descr) (toff width : Nat) : Prop :=
  toValidbits after ≠ 0#8 ∧ ∀ i : Fin 8,
    ((toValidbits after).getLsbD i =
      if i.val = toff then true
      else if toff < i.val ∧ i.val < toff + width then false
      else (toValidbits before).getLsbD i) ∧
    if toff ≤ i.val ∧ i.val < toff + width then
      (nodeAt after i).1.val = toff
    else nodeAt after i = nodeAt before i ∧
      ((nodeAt before i).1.val < toff ∨
        toff + width ≤ (nodeAt before i).1.val)

instance (before after : Descr) (toff width : Nat) :
    Decidable (Overwrites before after toff width) :=
  inferInstanceAs (Decidable (_ ∧ _))

def PullsUp (descr : Descr) (toff width : Nat) : Except Abort Descr → Prop
  | .ok after => Overwrites descr after toff width
  | .error _ => False

instance (descr : Descr) (toff width : Nat) :
    (result : Except Abort Descr) →
      Decidable (PullsUp descr toff width result)
  | .ok _ => inferInstanceAs (Decidable (Overwrites _ _ _ _))
  | .error _ => inferInstanceAs (Decidable False)

private theorem pullupDescrTo16_positions : ∀ descr ∈ descrs,
    ∀ toff ∈ [0, 2, 4, 6], descr.has (d16_0 <<< toff) = false →
    validValueIsBelowMe16 descr toff = .ok true →
    PullsUp descr toff 2 (pullupDescrTo16 descr toff) :=
  forall_descrs (by decide +kernel)

private theorem pullupDescrTo32_positions : ∀ descr ∈ descrs, ∀ toff ∈ [0, 4],
    descr.has (d32_0 <<< toff) = false →
    validValueIsAboveMe32 descr toff = .ok false →
    PullsUp descr toff 4 (pullupDescrTo32 descr toff) :=
  forall_descrs (by decide +kernel)

theorem overwrites_d64 : ∀ descr ∈ descrs, Overwrites descr d64 0 8 :=
  forall_descrs (by decide +kernel)

private theorem isNode_positions : ∀ descr ∈ descrs, ∀ toff < 8,
    (nodeAt descr (Fin.ofNat 8 toff)).1.val = toff →
    Overwrites descr descr toff (nodeAt descr (Fin.ofNat 8 toff)).2 :=
  forall_descrs (by decide +kernel)

/-- The bits that the accesses test are those of nodes of the right width. -/
theorem isNode_of_has : ∀ descr ∈ descrs,
    (∀ toff < 8, descr.has (d8_0 <<< toff) = true →
      IsNode descr toff 1) ∧
    (∀ toff ∈ [0, 2, 4, 6], descr.has (d16_0 <<< toff) = true →
      IsNode descr toff 2) ∧
    (∀ toff ∈ [0, 4], descr.has (d32_0 <<< toff) = true →
      IsNode descr toff 4) ∧
    (descr.has d64 = true → IsNode descr 0 8) :=
  forall_descrs (by decide +kernel)

theorem nodeAt_valid : ∀ descr ∈ descrs, ∀ i : Fin 8,
    (toValidbits descr).getLsbD (nodeAt descr i).1 = true ∧
      0 < (nodeAt descr i).2 :=
  forall_descrs (by decide +kernel)

section Values

variable [DecidableEq α] [ShadowVal α] {descr after : Descr} {tree : Tree α}
  {toff width : Nat} {value : α}

theorem treeByte_ne_invalid (sane : isSaneDescrAndTree descr tree = true)
    (i : Fin 8) : treeByte descr tree i ≠ invalid := by
  obtain ⟨valid, values⟩ := isSane_iff.mp sane
  have known := mem_descrs_of_toValidbits valid
  exact (values _).mp (nodeAt_valid descr known i).1

/-- A tree after a value has been stored at a node. -/
structure Stored (descr : Descr) (tree : Tree α) (toff width : Nat)
    (value : α) (result : Tree α × Descr) : Prop where
  sane : isSaneDescrAndTree result.2 result.1 = true
  bytes : ∀ i : Fin 8, treeByte result.2 result.1 i =
    if toff ≤ i.val ∧ i.val < toff + width then value
    else treeByte descr tree i

theorem Overwrites.stored (overwrites : Overwrites descr after toff width)
    (sane : isSaneDescrAndTree descr tree = true)
    (valid : value ≠ invalid) (wide : 0 < width) :
    Stored descr tree toff width value
      (storeNode tree toff width value, after) := by
  obtain ⟨-, values⟩ := isSane_iff.mp sane
  obtain ⟨validAfter, positions⟩ := overwrites
  constructor
  · rw [isSane_iff]
    refine ⟨validAfter, fun i => ?_⟩
    rw [(positions i).1]
    unfold storeNode
    dsimp only
    split_ifs
    · simp [valid]
    · simp
    · exact values i
  · intro i
    have node := (positions i).2
    unfold treeByte storeNode
    dsimp only
    split at node
    · rename_i inside
      rw [if_pos node, if_pos inside]
    · rename_i outside
      obtain ⟨same, elsewhere⟩ := node
      rw [same, if_neg (by omega), if_neg (by omega), if_neg outside]

theorem Overwrites.update_eq_storeNode
    (overwrites : Overwrites descr descr toff width)
    (sane : isSaneDescrAndTree descr tree = true) (value : α)
    (bounded : toff < 8) :
    Function.update tree (Fin.ofNat 8 toff) value =
      storeNode tree toff width value := by
  have small : toff % 8 = toff := Nat.mod_eq_of_lt bounded
  funext i
  have here : i = Fin.ofNat 8 toff ↔ i.val = toff := by
    rw [Fin.ext_iff]
    simp [small]
  unfold storeNode
  split
  · rename_i at_
    rw [here.mpr at_, Function.update_self]
  · rename_i apart
    rw [Function.update_of_ne (fun same => apart (here.mp same))]
    split
    · rename_i inside
      have bit := (overwrites.2 i).1
      rw [if_neg apart, if_pos inside] at bit
      have invalidHere := ((isSane_iff.mp sane).2 i).not
      rw [bit] at invalidHere
      simpa using invalidHere
    · rfl

theorem overwrites_of_isNode (sane : isSaneDescrAndTree descr tree = true)
    (bounded : toff < 8) (node : IsNode descr toff width) :
    Overwrites descr descr toff width ∧ 0 < width := by
  have known := mem_descrs_of_toValidbits (isSane_iff.mp sane).1
  have small : toff % 8 = toff := Nat.mod_eq_of_lt bounded
  have overwrites := isNode_positions descr known toff bounded
  have wide := (nodeAt_valid descr known (Fin.ofNat 8 toff)).2
  unfold IsNode at node
  rw [node] at overwrites wide
  exact ⟨overwrites (by simp [small]), wide⟩

/-- Assigning to the position of a node changes the bytes below it. -/
theorem stored_of_isNode (sane : isSaneDescrAndTree descr tree = true)
    (bounded : toff < 8) (node : IsNode descr toff width)
    (valid : value ≠ invalid) :
    Stored descr tree toff width value
      (Function.update tree (Fin.ofNat 8 toff) value, descr) := by
  obtain ⟨overwrites, wide⟩ := overwrites_of_isNode sane bounded node
  rw [overwrites.update_eq_storeNode sane value bounded]
  exact overwrites.stored sane valid wide

/-- A value may be stored at a node after a `pulldown` to it. -/
theorem PulledDown.stored {pulled result : Tree α × Descr}
    (down : PulledDown descr tree toff width pulled)
    (stored : Stored pulled.2 pulled.1 toff width value result) :
    Stored descr tree toff width value result := by
  refine ⟨stored.sane, fun i => ?_⟩
  rw [stored.bytes i, down.bytes i]

theorem pullupDescrTo16_returns
    (sane : isSaneDescrAndTree descr tree = true)
    (aligned : toff ∈ [0, 2, 4, 6])
    (missing : descr.has (d16_0 <<< toff) = false)
    (below : validValueIsBelowMe16 descr toff = .ok true)
    (valid : value ≠ invalid) :
    Returns (pullupDescrTo16 descr toff) fun after =>
      Stored descr tree toff 2 value
        (storeNode tree toff 2 value, after) := by
  have known := mem_descrs_of_toValidbits (isSane_iff.mp sane).1
  have positions :=
    pullupDescrTo16_positions descr known toff aligned missing below
  cases pulled : pullupDescrTo16 descr toff with
  | error abort =>
      rw [pulled] at positions
      exact positions.elim
  | ok after =>
      rw [pulled] at positions
      exact Returns.ok (positions.stored sane valid (by decide))

theorem pullupDescrTo32_returns
    (sane : isSaneDescrAndTree descr tree = true) (aligned : toff ∈ [0, 4])
    (missing : descr.has (d32_0 <<< toff) = false)
    (above : validValueIsAboveMe32 descr toff = .ok false)
    (valid : value ≠ invalid) :
    Returns (pullupDescrTo32 descr toff) fun after =>
      Stored descr tree toff 4 value
        (storeNode tree toff 4 value, after) := by
  have known := mem_descrs_of_toValidbits (isSane_iff.mp sane).1
  have positions :=
    pullupDescrTo32_positions descr known toff aligned missing above
  cases pulled : pullupDescrTo32 descr toff with
  | error abort =>
      rw [pulled] at positions
      exact positions.elim
  | ok after =>
      rw [pulled] at positions
      exact Returns.ok (positions.stored sane valid (by decide))

end Values

/-- The descriptor `after` has one node at `lo` where `before` has the two
halves `lo` and `hi` of it. -/
def Merges (before after : Descr) (lo hi : Fin 8) : Prop :=
  toValidbits after ≠ 0#8 ∧ ∀ i : Fin 8,
    ((toValidbits after).getLsbD i =
      if i = hi then false else (toValidbits before).getLsbD i) ∧
    (nodeAt after i).1 =
      if (nodeAt before i).1 = hi then lo else (nodeAt before i).1

instance (before after : Descr) (lo hi : Fin 8) :
    Decidable (Merges before after lo hi) :=
  inferInstanceAs (Decidable (_ ∧ _))

/-- A 16-bit layer may start from any descriptor that has the two leaves and
the leaves `rest`, and leaves `rest` alone. -/
def Merges16 (lo hi : Fin 8) (halves whole rest : Descr) : Prop :=
  ∀ descr ∈ descrs, descr &&& (halves ||| rest) = halves ||| rest →
    descr &&& rest = rest ∧
    Merges descr (descr &&& ~~~halves ||| whole) lo hi ∧
    (descr &&& ~~~halves ||| whole) &&& rest = rest

def MergesAbove (lo hi : Fin 8) (half₁ half₀ whole : Descr) : Prop :=
  ∀ descr ∈ descrs, descr.has half₁ = true → descr.has half₀ = true →
    Merges descr (descr &&& ~~~(half₁ ||| half₀) ||| whole) lo hi

section Values

variable [DecidableEq α] [ShadowVal α] {bytes : Tree α}
  {node : Tree α × Descr} {lo hi : Fin 8}
  {halves whole half₁ half₀ rest : Descr}

/-- The node describes the given bytes. -/
structure Describes (bytes : Tree α) (node : Tree α × Descr) : Prop where
  sane : isSaneDescrAndTree node.2 node.1 = true
  bytes : ∀ i, treeByte node.2 node.1 i = bytes i

theorem Describes.known (describes : Describes bytes node) :
    node.2 ∈ descrs :=
  mem_descrs_of_toValidbits (isSane_iff.mp describes.sane).1

theorem Describes.mergeNodes (describes : Describes bytes node)
    (merges : Merges node.2 (node.2 &&& ~~~halves ||| whole) lo hi)
    (apart : lo ≠ hi) (same : node.1 hi = node.1 lo) :
    Describes bytes (mergeNodes node hi halves whole) := by
  obtain ⟨valid, positions⟩ := merges
  constructor
  · rw [isSane_iff]
    refine ⟨valid, fun i => ?_⟩
    have bit := (positions i).1
    unfold HelgrindPlus.mergeNodes
    dsimp only
    rw [bit]
    split
    · rename_i here
      rw [here, Function.update_self]
      simp
    · rename_i elsewhere
      rw [Function.update_of_ne elsewhere]
      exact (isSane_iff.mp describes.sane).2 i
  · intro i
    rw [← describes.bytes i]
    unfold treeByte HelgrindPlus.mergeNodes
    dsimp only
    rw [(positions i).2]
    split
    · rename_i here
      rw [Function.update_of_ne apart, here, same]
    · rename_i elsewhere
      rw [Function.update_of_ne elsewhere]

theorem Describes.merge16 (describes : Describes bytes node)
    (leaves : node.2 &&& (halves ||| rest) = halves ||| rest)
    (merges : Merges16 lo hi halves whole rest) (apart : lo ≠ hi) :
    Describes bytes (merge16 node lo hi halves whole) ∧
      (merge16 node lo hi halves whole).2 &&& rest = rest := by
  obtain ⟨untouched, merged, kept⟩ := merges node.2 describes.known leaves
  unfold HelgrindPlus.merge16
  split
  · rename_i same
    exact ⟨describes.mergeNodes merged apart same, kept⟩
  · exact ⟨describes, untouched⟩

theorem Describes.mergeAbove (describes : Describes bytes node)
    (merges : MergesAbove lo hi half₁ half₀ whole) (apart : lo ≠ hi) :
    Describes bytes (mergeAbove node lo hi half₁ half₀ whole) := by
  unfold HelgrindPlus.mergeAbove
  split
  · rename_i holds
    obtain ⟨same, has₁, has₀⟩ := holds
    have merged := merges node.2 describes.known has₁ has₀
    exact describes.mergeNodes merged apart same
  · exact describes

private theorem merges16_layer :
    Merges16 0 1 (d8_1 ||| d8_0) d16_0
      ((d8_3 ||| d8_2) |||
        ((d8_5 ||| d8_4) ||| ((d8_7 ||| d8_6) ||| 0#16))) ∧
    Merges16 2 3 (d8_3 ||| d8_2) d16_1
      ((d8_5 ||| d8_4) ||| ((d8_7 ||| d8_6) ||| 0#16)) ∧
    Merges16 4 5 (d8_5 ||| d8_4) d16_2 ((d8_7 ||| d8_6) ||| 0#16) ∧
    Merges16 6 7 (d8_7 ||| d8_6) d16_3 0#16 :=
  ⟨forall_descrs (by decide +kernel), forall_descrs (by decide +kernel),
    forall_descrs (by decide +kernel), forall_descrs (by decide +kernel)⟩

private theorem mergesAbove_layers :
    MergesAbove 0 2 d16_1 d16_0 d32_0 ∧
    MergesAbove 4 6 d16_3 d16_2 d32_1 ∧
    MergesAbove 0 4 d32_1 d32_0 d64 :=
  ⟨forall_descrs (by decide +kernel), forall_descrs (by decide +kernel),
    forall_descrs (by decide +kernel)⟩

private theorem leavesDescr_leaves : leavesDescr &&& ((d8_1 ||| d8_0) |||
    ((d8_3 ||| d8_2) ||| ((d8_5 ||| d8_4) ||| ((d8_7 ||| d8_6) ||| 0#16)))) =
    ((d8_1 ||| d8_0) ||| ((d8_3 ||| d8_2) |||
      ((d8_5 ||| d8_4) ||| ((d8_7 ||| d8_6) ||| 0#16)))) := by
  decide +kernel

private theorem describes_leaves (valid : ∀ i, bytes i ≠ invalid) :
    Describes bytes (bytes, leavesDescr) := by
  have valid₀ : toValidbits leavesDescr ≠ 0#8 := by decide +kernel
  have leaves : ∀ i : Fin 8,
      (toValidbits leavesDescr).getLsbD i = true ∧
        (nodeAt leavesDescr i).1 = i := by
    decide +kernel
  constructor
  · rw [isSane_iff]
    refine ⟨valid₀, fun i => ?_⟩
    simp [(leaves i).1, valid i]
  · intro i
    exact congrArg bytes (leaves i).2

theorem normaliseTree_returns (valid : ∀ i, bytes i ≠ invalid) :
    Returns (normaliseTree bytes) (Describes bytes) := by
  obtain ⟨first, second, third, fourth⟩ := merges16_layer
  obtain ⟨low, high, top⟩ := mergesAbove_layers
  unfold normaliseTree
  rw [tlAssert_of valid, ok_bind]
  apply Returns.pure
  have leaves := describes_leaves valid
  obtain ⟨holds₁, rest₁⟩ := leaves.merge16 leavesDescr_leaves first (by decide)
  obtain ⟨holds₂, rest₂⟩ := holds₁.merge16 rest₁ second (by decide)
  obtain ⟨holds₃, rest₃⟩ := holds₂.merge16 rest₂ third (by decide)
  obtain ⟨holds₄, -⟩ := holds₃.merge16 rest₃ fourth (by decide)
  exact ((holds₄.mergeAbove low (by decide)).mergeAbove high
    (by decide)).mergeAbove top (by decide)

end Values

/-- The values that a sequence of runs stands for. -/
def expand (csvals : List (CountedSVal α)) : List α :=
  csvals.flatMap fun csval => List.replicate csval.count csval.sval

/-- The values of `tree` at the positions of a run. -/
def CountedSVal.atPosition (tree : Tree α) (csval : CountedSVal (Fin 8)) :
    CountedSVal α :=
  ⟨csval.count, tree csval.sval⟩

private theorem putIf_natural (descr : Descr) (choices : List (Descr × Nat))
    (tree : Tree α) (i : Fin 8) :
    putIf descr choices (tree i) =
      (putIf descr choices i).map (CountedSVal.atPosition tree) := by
  unfold putIf
  split <;> rfl

private theorem sequentialiseTree_natural (descr : Descr) (tree : Tree α) :
    sequentialiseTree descr tree = (sequentialiseTree descr id).map
      (CountedSVal.atPosition tree) := by
  simp [sequentialiseTree, putIf_natural descr _ tree]

private theorem sequentialiseTree_positions : ∀ descr ∈ descrs,
    expand (sequentialiseTree descr id) =
      List.ofFn (fun i => (nodeAt descr i).1) ∧
    ∀ csval ∈ sequentialiseTree descr id,
      csval.count ∈ [1, 2, 4, 8] ∧
        (toValidbits descr).getLsbD csval.sval = true :=
  forall_descrs (by decide +kernel)

/-- A run as `cacheline_wback` expects it. -/
def CountedSVal.Sane [ShadowVal α] (csval : CountedSVal α) : Prop :=
  csval.count ∈ [1, 2, 4, 8] ∧ csval.sval ≠ invalid

section Values

variable [DecidableEq α] [ShadowVal α] {descr : Descr} {tree : Tree α}

theorem expand_sequentialiseTree
    (sane : isSaneDescrAndTree descr tree = true) :
    expand (sequentialiseTree descr tree) =
      List.ofFn (treeByte descr tree) := by
  have known := mem_descrs_of_toValidbits (isSane_iff.mp sane).1
  have positions := (sequentialiseTree_positions descr known).1
  have values := congrArg (List.map tree) positions
  rw [sequentialiseTree_natural]
  rw [List.map_ofFn] at values
  rw [← show tree ∘ (fun i => (nodeAt descr i).1) = treeByte descr tree
    from rfl, ← values]
  simp [expand, List.map_flatMap, List.flatMap_map, CountedSVal.atPosition]

theorem sequentialiseTree_sane
    (sane : isSaneDescrAndTree descr tree = true) :
    ∀ csval ∈ sequentialiseTree descr tree, csval.Sane := by
  obtain ⟨valid, values⟩ := isSane_iff.mp sane
  have known := mem_descrs_of_toValidbits valid
  have positions := (sequentialiseTree_positions descr known).2
  intro csval member
  rw [sequentialiseTree_natural, List.mem_map] at member
  obtain ⟨position, listed, rfl⟩ := member
  obtain ⟨count, bit⟩ := positions position listed
  exact ⟨count, (values _).mp bit⟩

end Values

end HelgrindPlus
