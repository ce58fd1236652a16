import HelgrindPlus.Main.IntervalRuns
import HelgrindPlus.Loops.Superblock
import Mathlib.Data.Set.Card

/-!
# Closing the code region of a loop

The function `addSBtoLoop` follows the edges of the graph up to a depth, and
adds the extents of each superblock from which the union is reached.  After a
change it starts again from the same superblock, at the full depth.
-/

namespace HelgrindPlus

open Outcome Relation

namespace Loops

variable {w : Nat}

/-- Why a call of the model stops: the tool aborts, or the bound on the nested
calls of `addSBtoLoop` to itself with the full depth is exhausted. -/
inductive Stop where
  | abort (abort : Abort)
  | outOfFuel
  deriving DecidableEq, Repr

/-- The local variables of `addSBtoLoop`, and the union. -/
structure Locals (w : Nat) where
  ivu : Ivu w
  j : Nat
  res : Bool
  changed : Bool

def addExtent (s : Locals w) (bblock : BBlock w) :
    Except Stop (Locals w) := do
  let (ivu, added) ← (s.ivu.ivUnionAddInterval bblock.base
    bblock.stop).mapError .abort
  pure { s with ivu := ivu, j := s.j + 1, changed := s.changed || added }

/-- The loop `for(;j<stop;j++)`. -/
def addUpTo (sb : SB w) (stop : Nat) (s : Locals w) :
    Except Stop (Locals w) :=
  ((sb.bblocks.take stop).drop s.j).foldlM addExtent s

def testStart (sb : SB w) (bblock : BBlock w) (i : Nat) (s : Locals w) :
    Except Stop (Locals w) := do
  let found ← (s.ivu.ivUnionContains bblock.base).mapError .abort
  if found.isSome then do
    let s ← addUpTo sb (i + 1) s
    pure { s with res := true }
  else pure s

/-- A search from another superblock, if there is one. -/
def follow (search : Ivu w → BitVec w → Except Stop (Ivu w × Bool))
    (sb : SB w) (stop : Nat) (dst : Option (BitVec w)) (s : Locals w) :
    Except Stop (Locals w) :=
  match dst with
  | none => pure s
  | some dst => do
      let (ivu, found) ← search s.ivu dst
      if found then addUpTo sb stop { s with ivu := ivu, res := true }
      else pure { s with ivu := ivu }

/-- One round of the loop over the extents.  The branches are indexed like
them. -/
def round (search : Ivu w → BitVec w → Except Stop (Ivu w × Bool))
    (sb : SB w) (s : Locals w) (item : BBlock w × Nat) :
    Except Stop (Locals w) := do
  let (bblock, i) := item
  let s ← testStart sb bblock i s
  let s ← follow search sb (i + 1) (sb.branches[i]?.join) s
  follow search sb (i + 1)
    (if bblock.isFuncCall then some bblock.stop else none) s

def restartIf (restart : Ivu w → BitVec w → Except Stop (Ivu w))
    (base : BitVec w) (s : Locals w) : Except Stop (Ivu w) :=
  if s.res && s.changed then restart s.ivu base else pure s.ivu

/-- The body of `addSBtoLoop`, where `restart` is its last call. -/
def searchSB (sbs : Superblocks w)
    (restart : Ivu w → BitVec w → Except Stop (Ivu w)) :
    Nat → Ivu w → BitVec w → Except Stop (Ivu w × Bool)
  | 0, ivu, _ => .ok (ivu, false)
  | depth + 1, ivu, base =>
      match sbs base with
      | none => .ok (ivu, false)
      | some sb => do
          let search := searchSB sbs restart depth
          let s ← sb.bblocks.zipIdx.foldlM (round search sb)
            ⟨ivu, 0, false, false⟩
          let s ← follow search sb sb.bblocks.length sb.next s
          let ivu ← restartIf restart base s
          pure (ivu, s.res)

/-- A depth below one is the depth zero; `clo` is the value of
`--control-flow-graph`. -/
def addSBtoLoop (sbs : Superblocks w) (clo : Nat) :
    Nat → Ivu w → BitVec w → Nat → Except Stop (Ivu w × Bool)
  | 0, ivu, base, depth =>
      searchSB sbs (fun _ _ => .error .outOfFuel) depth ivu base
  | fuel + 1, ivu, base, depth =>
      searchSB sbs (fun ivu base => do
        let (ivu, _) ← addSBtoLoop sbs clo fuel ivu base clo
        pure ivu) depth ivu base

/-- An edge that `addSBtoLoop` follows: of the branches only those with the
index of an extent. -/
def SB.Followed (sb : SB w) (dst : BitVec w) : Prop :=
  (∃ i < sb.bblocks.length, sb.branches[i]?.join = some dst) ∨
    sb.next = some dst ∨
    ∃ bblock ∈ sb.bblocks, bblock.isFuncCall = true ∧ bblock.stop = dst

def Followed (sbs : Superblocks w) (base dst : BitVec w) : Prop :=
  ∃ sb, sbs base = some sb ∧ sb.Followed dst

/-- An extent of the superblock starts in the union. -/
def Touches (sbs : Superblocks w) (stored : Ivu.Stored w) (base : BitVec w) :
    Prop :=
  ∃ sb, sbs base = some sb ∧
    ∃ bblock ∈ sb.bblocks, Ivu.Within stored bblock.base

/-- A superblock that touches the union is reached by fewer steps than the
depth. -/
def Hits (edge : BitVec w → BitVec w → Prop) (sbs : Superblocks w)
    (stored : Ivu.Stored w) (depth : Nat) (base : BitVec w) : Prop :=
  ∃ dst, Paths.Near edge depth base dst ∧ Touches sbs stored dst

section Union

variable {ivu : Ivu w} {stored stored' stored'' : Ivu.Stored w}
  {iv : Interval w}

/-- The word that freed blocks are filled with is no end point. -/
def Clean (iv : Interval w) : Prop := iv.start ≠ junk w ∧ iv.stop ≠ junk w

/-- The union keeps these intervals, and no addition to it can go wrong. -/
structure Holds (ivu : Ivu w) (stored : Ivu.Stored w) : Prop where
  represents : ivu.Represents stored
  clean : ∀ entry ∈ stored, Clean entry.2

theorem Holds.harmless (holds : Holds ivu stored) (start stop : BitVec w) :
    ivu.Harmless start stop := by
  intro swallowed isSwallowed other isOther _ _ _ _
  rw [holds.represents.collect] at isOther
  obtain ⟨entry, member, -, isKey⟩ := Ivu.mem_keysOf.mp isOther
  have clean := holds.clean entry member
  rcases isKey with same | same
  · exact same ▸ clean.1
  · exact same ▸ clean.2

theorem Holds.add (holds : Holds ivu stored) (proper : iv.start < iv.stop)
    (clean : Clean iv) :
    Returns (ivu.ivUnionAddInterval iv.start iv.stop) fun result =>
      ∃ stored', Holds result.1 stored' ∧
        (∀ v, Ivu.Within stored' v ↔ Ivu.Within stored v ∨ iv.Contains v) ∧
        (result.2 = true ↔ ∃ v, iv.Contains v ∧ ¬ Ivu.Within stored v) := by
  apply (holds.represents.ivUnionAddInterval_ends proper
    (holds.harmless _ _)).mono
  rintro result ⟨stored', kept, within, isNew, ends⟩
  refine ⟨stored', ⟨kept, fun entry member => ?_⟩, within, isNew⟩
  have known : ∀ old ∈ (ivu.allocd, iv) :: stored, Clean old.2 := by
    intro old isOld
    rcases List.mem_cons.mp isOld with rfl | older
    · exact clean
    · exact holds.clean old older
  obtain ⟨⟨low, isLow, starts⟩, ⟨high, isHigh, stops⟩⟩ := ends entry member
  exact ⟨starts ▸ (known low isLow).1, stops ▸ (known high isHigh).2⟩

/-- The number of addresses that are not in the union. -/
noncomputable def missing (stored : Ivu.Stored w) : Nat :=
  {n : Fin (2 ^ w) | ¬ Ivu.Within stored (BitVec.ofFin n)}.ncard

theorem missing_le (kept : ∀ v, Ivu.Within stored v → Ivu.Within stored' v) :
    missing stored' ≤ missing stored :=
  Set.ncard_le_ncard (fun _ outside inside => outside (kept _ inside))

theorem missing_lt (kept : ∀ v, Ivu.Within stored v → Ivu.Within stored' v)
    {v : BitVec w} (isNew : Ivu.Within stored' v)
    (outside : ¬ Ivu.Within stored v) : missing stored' < missing stored :=
  Set.ncard_lt_ncard
    ⟨fun _ outside inside => outside (kept _ inside),
      fun subset => subset (a := v.toFin) outside isNew⟩

private theorem missing_le_two_pow (stored : Ivu.Stored w) :
    missing stored ≤ 2 ^ w := by
  have all := Set.ncard_le_ncard (Set.subset_univ
    {n : Fin (2 ^ w) | ¬ Ivu.Within stored (BitVec.ofFin n)})
  rwa [Set.ncard_univ, Nat.card_fin] at all

/-- The union has grown only by code that is reachable from the base. -/
structure Grown (sbs : Superblocks w) (base : BitVec w)
    (stored stored' : Ivu.Stored w) : Prop where
  kept : ∀ v, Ivu.Within stored v → Ivu.Within stored' v
  added : ∀ v, Ivu.Within stored' v → Ivu.Within stored v ∨
    ∃ dst sb, ReflTransGen (Edge sbs) base dst ∧ sbs dst = some sb ∧
      sb.Covers v

variable {sbs : Superblocks w} {base dst : BitVec w}

theorem Grown.refl : Grown sbs base stored stored :=
  ⟨fun _ inside => inside, fun _ inside => .inl inside⟩

theorem Grown.trans (first : Grown sbs base stored stored')
    (second : Grown sbs base stored' stored'') :
    Grown sbs base stored stored'' := by
  refine ⟨fun v inside => second.kept v (first.kept v inside),
    fun v inside => ?_⟩
  rcases second.added v inside with before | reached
  · exact first.added v before
  · exact .inr reached

theorem Grown.of_edge (edge : Edge sbs base dst)
    (grown : Grown sbs dst stored stored') :
    Grown sbs base stored stored' := by
  refine ⟨grown.kept, fun v inside => ?_⟩
  rcases grown.added v inside with before | ⟨place, sb, path, found, covers⟩
  · exact .inl before
  · exact .inr ⟨place, sb, .head edge path, found, covers⟩

end Union

/-- Each extent that is reachable from the base has an address and ends at an
address, and the word that freed blocks are filled with is no end point. -/
def ProperCode (sbs : Superblocks w) (base : BitVec w) : Prop :=
  ∀ place sb, ReflTransGen (Edge sbs) base place → sbs place = some sb →
    ∀ bblock ∈ sb.bblocks,
      bblock.base < bblock.stop ∧ Clean ⟨bblock.base, bblock.stop⟩

section Search

variable {sbs : Superblocks w} {base : BitVec w} {sb : SB w} {ivu : Ivu w}
  {stored : Ivu.Stored w} {s : Locals w}

theorem ProperCode.of_edge {dst : BitVec w} (proper : ProperCode sbs base)
    (edge : Edge sbs base dst) : ProperCode sbs dst :=
  fun place sb path => proper place sb (.head edge path)

/-- The union of the locals, seen from the entry of the function. -/
structure Progress (sbs : Superblocks w) (base : BitVec w)
    (stored : Ivu.Stored w) (s : Locals w) (stored' : Ivu.Stored w) :
    Prop where
  holds : Holds s.ivu stored'
  grown : Grown sbs base stored stored'
  fewer : s.changed = true → missing stored' < missing stored

private theorem addExtent_returns (proper : ProperCode sbs base)
    (isSB : sbs base = some sb) {bblock : BBlock w}
    (member : bblock ∈ sb.bblocks) {stored' : Ivu.Stored w}
    (progress : Progress sbs base stored s stored') :
    Returns (addExtent s bblock) fun s' =>
      (∃ stored', Progress sbs base stored s' stored') ∧ s'.res = s.res := by
  obtain ⟨hasAddress, clean⟩ := proper base sb .refl isSB bblock member
  apply ((progress.holds.add hasAddress clean).mapError Stop.abort).bind
  rintro ⟨ivu', added⟩ ⟨stored'', holds, within, isNew⟩
  refine Returns.pure ⟨⟨stored'', holds, progress.grown.trans ⟨?_, ?_⟩, ?_⟩,
    rfl⟩
  · exact fun v inside => (within v).mpr (.inl inside)
  · intro v inside
    rcases (within v).mp inside with before | here
    · exact .inl before
    · exact .inr ⟨base, sb, .refl, isSB, bblock, member, here⟩
  · intro changed
    have kept : ∀ v, Ivu.Within stored' v → Ivu.Within stored'' v :=
      fun v inside => (within v).mpr (.inl inside)
    rcases Bool.or_eq_true _ _ ▸ changed with before | now
    · exact Nat.lt_of_le_of_lt (missing_le kept) (progress.fewer before)
    · obtain ⟨v, here, outside⟩ := isNew.mp now
      have fewer := missing_lt kept ((within v).mpr (.inr here)) outside
      exact Nat.lt_of_lt_of_le fewer (missing_le progress.grown.kept)

private theorem addUpTo_returns (proper : ProperCode sbs base)
    (isSB : sbs base = some sb) (stop : Nat) {stored' : Ivu.Stored w}
    (progress : Progress sbs base stored s stored') :
    Returns (addUpTo sb stop s) fun s' =>
      (∃ stored', Progress sbs base stored s' stored') ∧ s'.res = s.res := by
  apply @Returns.foldlM _ _ _ _ (fun _ s' =>
    (∃ stored', Progress sbs base stored s' stored') ∧ s'.res = s.res)
  · rintro n s' bblock atN ⟨⟨stored'', progress⟩, same⟩
    have member : bblock ∈ sb.bblocks :=
      List.mem_of_mem_take (List.mem_of_mem_drop (List.mem_of_getElem? atN))
    apply (addExtent_returns proper isSB member progress).mono
    rintro s'' ⟨progress', same'⟩
    exact ⟨progress', same'.trans same⟩
  · exact ⟨⟨stored', progress⟩, rfl⟩

/-- What holds between the steps of the function, where `found` says what the
steps so far have looked for. -/
structure Searched (sbs : Superblocks w) (base : BitVec w) (ivu : Ivu w)
    (stored : Ivu.Stored w) (found : Prop) (s : Locals w) : Prop where
  progress : ∃ stored', Progress sbs base stored s stored'
  res : s.res = true ↔ found
  same : s.res = false → s.ivu = ivu ∧ s.changed = false

theorem Searched.mono {found found' : Prop}
    (searched : Searched sbs base ivu stored found s)
    (same : found ↔ found') : Searched sbs base ivu stored found' s :=
  ⟨searched.progress, searched.res.trans same, searched.same⟩

private theorem isSome_containing (v : BitVec w) :
    ((stored.find? fun entry => entry.2.Contains v).map
      Prod.fst).isSome = true ↔ Ivu.Within stored v := by
  rw [Option.isSome_map, List.find?_isSome]
  simp [Ivu.Within]

private theorem testStart_returns (proper : ProperCode sbs base)
    (isSB : sbs base = some sb) (bblock : BBlock w) (i : Nat)
    {found : Prop} (holds : Holds ivu stored)
    (searched : Searched sbs base ivu stored found s) :
    Returns (testStart sb bblock i s) (Searched sbs base ivu stored
      (found ∨ Ivu.Within stored bblock.base)) := by
  obtain ⟨stored', progress⟩ := searched.progress
  have contains := progress.holds.represents.ivUnionContains bblock.base
  unfold testStart
  rw [contains]
  show Returns (if _ then _ else _) _
  split
  · rename_i inside
    apply (addUpTo_returns proper isSB (i + 1) progress).bind
    rintro s' ⟨⟨stored'', progress'⟩, -⟩
    refine Returns.pure ⟨⟨stored'', progress'.holds, progress'.grown,
      progress'.fewer⟩, iff_of_true rfl ?_, nofun⟩
    by_cases before : s.res = true
    · exact .inl (searched.res.mp before)
    · right
      have same := (searched.same (by simpa using before)).1
      have again := holds.represents.ivUnionContains bblock.base
      rw [same, again] at contains
      rw [← Except.ok.inj contains] at inside
      exact (isSome_containing _).mp inside
  · rename_i outside
    refine Returns.pure ⟨searched.progress, ?_, searched.same⟩
    rw [searched.res]
    refine ⟨.inl, fun either => either.resolve_right fun inside => ?_⟩
    exact outside ((isSome_containing _).mpr
      (progress.grown.kept _ inside))

/-- What a search from a superblock does, if few enough addresses are
missing. -/
def SearchSpec (sbs : Superblocks w) (bound depth : Nat)
    (search : Ivu w → BitVec w → Except Stop (Ivu w × Bool)) : Prop :=
  ∀ ivu stored base, ProperCode sbs base → Holds ivu stored →
    missing stored ≤ bound → Returns (search ivu base) fun out =>
      (∃ stored', Holds out.1 stored' ∧ Grown sbs base stored stored') ∧
      (out.2 = true ↔ Hits (Followed sbs) sbs stored depth base) ∧
      (out.2 = false → out.1 = ivu)

theorem follow_returns (proper : ProperCode sbs base)
    (isSB : sbs base = some sb) {bound depth : Nat}
    {search : Ivu w → BitVec w → Except Stop (Ivu w × Bool)}
    (spec : SearchSpec sbs bound depth search) (stop : Nat)
    {dst : Option (BitVec w)} (edges : ∀ place, dst = some place →
      sb.Edge place) {found : Prop} (holds : Holds ivu stored)
    (few : missing stored ≤ bound)
    (searched : Searched sbs base ivu stored found s) :
    Returns (follow search sb stop dst s) (Searched sbs base ivu stored
      (found ∨ ∃ place, dst = some place ∧
        Hits (Followed sbs) sbs stored depth place)) := by
  cases dst with
  | none => exact Returns.pure (searched.mono (by simp))
  | some place =>
      have edge : Edge sbs base place := ⟨sb, isSB, edges place rfl⟩
      obtain ⟨stored', progress⟩ := searched.progress
      have fewer := missing_le progress.grown.kept
      obtain ⟨⟨ivu', isFound⟩, done, ⟨stored'', holds', grown⟩, hits, same⟩ :=
        spec s.ivu stored' place (proper.of_edge edge) progress.holds
          (fewer.trans few)
      have progress' : Progress sbs base stored { s with ivu := ivu' }
          stored'' := by
        refine ⟨holds', progress.grown.trans (grown.of_edge edge),
          fun changed => ?_⟩
        exact Nat.lt_of_le_of_lt (missing_le grown.kept)
          (progress.fewer changed)
      -- before anything has been found the union is that of the entry
      have first : s.res = false →
          (isFound = true ↔ Hits (Followed sbs) sbs stored depth place) := by
        intro nothing
        obtain ⟨out, again, -, hits', -⟩ :=
          spec ivu stored place (proper.of_edge edge) holds few
        rw [(searched.same nothing).1, again] at done
        rw [← hits', Except.ok.inj done]
      unfold follow
      dsimp only
      rw [done, ok_bind]
      cases isFound with
      | true =>
          apply (addUpTo_returns proper isSB stop (s := ⟨ivu', s.j, true,
            s.changed⟩) ⟨progress'.holds, progress'.grown,
              progress'.fewer⟩).mono
          rintro s' ⟨progress'', same'⟩
          have found' : s'.res = true := same'
          refine ⟨progress'', iff_of_true found' ?_, fun nothing => ?_⟩
          · cases before : s.res with
            | true => exact .inl (searched.res.mp before)
            | false => exact .inr ⟨place, rfl, (first before).mp rfl⟩
          · rw [found'] at nothing
            cases nothing
      | false =>
          refine Returns.pure ⟨⟨stored'', progress'⟩, ?_, fun nothing => ?_⟩
          · rw [searched.res]
            refine ⟨.inl, fun either => either.elim id ?_⟩
            rintro ⟨place', isPlace, hits'⟩
            cases isPlace
            cases before : s.res with
            | true => exact searched.res.mp before
            | false => exact nomatch (first before).mpr hits'
          · obtain ⟨atEntry, unchanged⟩ := searched.same nothing
            exact ⟨(same rfl).trans atEntry, unchanged⟩

/-- What one round of the loop looks for. -/
def RoundHits (sbs : Superblocks w) (stored : Ivu.Stored w) (depth : Nat)
    (sb : SB w) (item : BBlock w × Nat) : Prop :=
  Ivu.Within stored item.1.base ∨
    (∃ place, sb.branches[item.2]?.join = some place ∧
      Hits (Followed sbs) sbs stored depth place) ∨
    ∃ place, (if item.1.isFuncCall then some item.1.stop else none) =
      some place ∧ Hits (Followed sbs) sbs stored depth place

private theorem join_mem_branches {i : Nat} {place : BitVec w}
    (isBranch : sb.branches[i]?.join = some place) :
    some place ∈ sb.branches := by
  rw [Option.join_eq_some_iff] at isBranch
  exact List.mem_of_getElem? isBranch

private theorem round_returns (proper : ProperCode sbs base)
    (isSB : sbs base = some sb) {bound depth : Nat}
    {search : Ivu w → BitVec w → Except Stop (Ivu w × Bool)}
    (spec : SearchSpec sbs bound depth search) {item : BBlock w × Nat}
    (member : item.1 ∈ sb.bblocks) {found : Prop} (holds : Holds ivu stored)
    (few : missing stored ≤ bound)
    (searched : Searched sbs base ivu stored found s) :
    Returns (round search sb s item) (Searched sbs base ivu stored
      (found ∨ RoundHits sbs stored depth sb item)) := by
  obtain ⟨bblock, i⟩ := item
  apply (testStart_returns proper isSB bblock i holds searched).bind
  intro s searched
  apply (follow_returns proper isSB spec (i + 1)
    (fun place isBranch => .inl (join_mem_branches isBranch)) holds few
    searched).bind
  intro s searched
  have edges : ∀ place, (if bblock.isFuncCall then some bblock.stop
      else none) = some place → sb.Edge place := by
    intro place isReturn
    split at isReturn
    · rename_i isCall
      exact .inr (.inr ⟨bblock, member, isCall, Option.some.inj isReturn⟩)
    · cases isReturn
  apply (follow_returns proper isSB spec (i + 1) edges holds few
    searched).mono
  intro s searched
  apply searched.mono
  simp only [RoundHits, or_assoc]

/-- The steps of the function look for what is reached in one step less from
the places that follow. -/
theorem hits_succ_iff (isSB : sbs base = some sb) (depth : Nat) :
    ((∃ item ∈ sb.bblocks.zipIdx, RoundHits sbs stored depth sb item) ∨
      ∃ place, sb.next = some place ∧
        Hits (Followed sbs) sbs stored depth place) ↔
      Hits (Followed sbs) sbs stored (depth + 1) base := by
  have indexed : ∀ item : BBlock w × Nat, item ∈ sb.bblocks.zipIdx ↔
      sb.bblocks[item.2]? = some item.1 :=
    fun _ => List.mem_zipIdx_iff_getElem?
  have further : ∀ place, sb.Followed place →
      Hits (Followed sbs) sbs stored depth place →
      Hits (Followed sbs) sbs stored (depth + 1) base := by
    rintro place isFollowed ⟨dst, near, touches⟩
    exact ⟨dst, .step ⟨sb, isSB, isFollowed⟩ near, touches⟩
  constructor
  · rintro (⟨item, member, found⟩ | ⟨place, isNext, hits⟩)
    · have atIndex := (indexed item).mp member
      have isExtent := List.mem_of_getElem? atIndex
      rcases found with inside | ⟨place, isBranch, hits⟩ |
        ⟨place, isReturn, hits⟩
      · exact ⟨base, .refl, sb, isSB, item.1, isExtent, inside⟩
      · exact further place (.inl ⟨_, (List.getElem?_eq_some_iff.mp
          atIndex).1, isBranch⟩) hits
      · split at isReturn
        · rename_i isCall
          exact further place (.inr (.inr ⟨item.1, isExtent, isCall,
            Option.some.inj isReturn⟩)) hits
        · cases isReturn
    · exact further place (.inr (.inl isNext)) hits
  · rintro ⟨dst, near, touches⟩
    rcases Paths.near_succ.mp near with rfl |
      ⟨place, ⟨sb', isSB', first⟩, rest⟩
    · obtain ⟨sb', isSB', bblock, member, inside⟩ := touches
      rw [isSB] at isSB'
      cases isSB'
      obtain ⟨k, atK⟩ := List.mem_iff_getElem?.mp member
      exact .inl ⟨(bblock, k), (indexed _).mpr atK, .inl inside⟩
    · rw [isSB] at isSB'
      cases isSB'
      have hits : Hits (Followed sbs) sbs stored depth place :=
        ⟨dst, rest, touches⟩
      rcases first with ⟨i, below, isBranch⟩ | isNext |
        ⟨bblock, member, isCall, rfl⟩
      · exact .inl ⟨(sb.bblocks[i], i),
          (indexed _).mpr (List.getElem?_eq_getElem below),
          .inr (.inl ⟨place, isBranch, hits⟩)⟩
      · exact .inr ⟨place, isNext, hits⟩
      · obtain ⟨k, atK⟩ := List.mem_iff_getElem?.mp member
        exact .inl ⟨(bblock, k), (indexed _).mpr atK,
          .inr (.inr ⟨bblock.stop, if_pos isCall, hits⟩)⟩

private theorem rounds_returns (proper : ProperCode sbs base)
    (isSB : sbs base = some sb) {bound depth : Nat}
    {search : Ivu w → BitVec w → Except Stop (Ivu w × Bool)}
    (spec : SearchSpec sbs bound depth search) (holds : Holds ivu stored)
    (few : missing stored ≤ bound) :
    Returns (sb.bblocks.zipIdx.foldlM (round search sb) ⟨ivu, 0, false, false⟩)
      (Searched sbs base ivu stored
        (∃ item ∈ sb.bblocks.zipIdx, RoundHits sbs stored depth sb item)) := by
  have entry : Searched sbs base ivu stored
      (∃ item ∈ sb.bblocks.zipIdx.take 0, RoundHits sbs stored depth sb item)
      ⟨ivu, 0, false, false⟩ :=
    ⟨⟨stored, holds, .refl, nofun⟩, by simp, fun _ => ⟨rfl, rfl⟩⟩
  have loop := @Returns.foldlM _ _ _ (round search sb)
    (fun n => Searched sbs base ivu stored (∃ item ∈
      sb.bblocks.zipIdx.take n, RoundHits sbs stored depth sb item))
    sb.bblocks.zipIdx _ (by
      intro n s item atN searched
      have member : item.1 ∈ sb.bblocks :=
        List.fst_mem_of_mem_zipIdx (List.mem_of_getElem? atN)
      apply (round_returns proper isSB spec member holds few searched).mono
      intro s' searched'
      apply searched'.mono
      rw [List.take_add_one, atN]
      simp [or_and_right, exists_or]) entry
  rw [List.take_length] at loop
  exact loop

/-- What the last call of the function does, from a union that has grown. -/
def RestartSpec (sbs : Superblocks w) (bound : Nat)
    (restart : Ivu w → BitVec w → Except Stop (Ivu w)) : Prop :=
  ∀ ivu stored base, ProperCode sbs base → Holds ivu stored →
    missing stored < bound → Returns (restart ivu base) fun ivu' =>
      ∃ stored', Holds ivu' stored' ∧ Grown sbs base stored stored'

private theorem searchSB_spec {bound : Nat}
    {restart : Ivu w → BitVec w → Except Stop (Ivu w)}
    (restarts : RestartSpec sbs bound restart) (depth : Nat) :
    SearchSpec sbs bound depth (searchSB sbs restart depth) := by
  induction depth with
  | zero =>
      intro ivu stored base _ holds few
      refine Returns.ok ⟨⟨stored, holds, .refl⟩, ⟨nofun, ?_⟩, fun _ => rfl⟩
      rintro ⟨dst, near, -⟩
      exact absurd near Paths.not_near_zero
  | succ depth induction =>
      intro ivu stored base proper holds few
      unfold searchSB
      cases isSB : sbs base with
      | none =>
          refine Returns.ok ⟨⟨stored, holds, .refl⟩, ⟨nofun, ?_⟩,
            fun _ => rfl⟩
          rintro ⟨dst, near, sb, isDst, touches⟩
          rcases Paths.near_succ.mp near with rfl | ⟨_, ⟨sb', isBase, -⟩, -⟩
          · rw [isSB] at isDst
            cases isDst
          · rw [isSB] at isBase
            cases isBase
      | some sb =>
          apply (rounds_returns proper isSB induction holds few).bind
          intro s searched
          apply (follow_returns proper isSB induction sb.bblocks.length
            (fun place isNext => .inr (.inl isNext)) holds few
            searched).bind
          intro s searched
          replace searched := searched.mono (hits_succ_iff isSB depth)
          obtain ⟨stored', progress⟩ := searched.progress
          unfold restartIf
          cases again : s.res && s.changed with
          | true =>
              obtain ⟨found, changed⟩ := Bool.and_eq_true _ _ ▸ again
              have fewer := progress.fewer changed
              rw [if_pos rfl]
              apply (restarts s.ivu stored' base proper progress.holds
                (Nat.lt_of_lt_of_le fewer few)).bind
              rintro ivu' ⟨stored'', holds', grown⟩
              refine Returns.pure ⟨⟨stored'', holds',
                progress.grown.trans grown⟩, searched.res, fun nothing => ?_⟩
              rw [show s.res = false from nothing] at found
              cases found
          | false =>
              rw [if_neg Bool.false_ne_true]
              exact Returns.pure ⟨⟨stored', progress.holds, progress.grown⟩,
                searched.res, fun nothing => (searched.same nothing).1⟩

private theorem addSBtoLoop_spec (clo fuel depth : Nat) : SearchSpec sbs fuel
    depth (fun ivu base => addSBtoLoop sbs clo fuel ivu base depth) := by
  induction fuel generalizing depth with
  | zero =>
      apply searchSB_spec
      exact fun _ _ _ _ _ none => absurd none (Nat.not_lt_zero _)
  | succ fuel induction =>
      apply searchSB_spec
      intro ivu stored base proper holds fewer
      apply (induction clo ivu stored base proper holds
        (Nat.le_of_lt_succ fewer)).bind
      exact fun out ⟨grown, _⟩ => Returns.pure grown

end Search

section Fuel

variable {sbs : Superblocks w}
  {search search' : Ivu w → BitVec w → Except Stop (Ivu w × Bool)}

/-- The second search returns what the first one returns. -/
def Extends {β : Type} (search search' : Ivu w → BitVec w → Except Stop β) :
    Prop :=
  ∀ ivu base out, search ivu base = .ok out → search' ivu base = .ok out

theorem follow_extends (more : Extends search search') {sb : SB w}
    {stop : Nat} {dst : Option (BitVec w)} {s s' : Locals w}
    (done : follow search sb stop dst s = .ok s') :
    follow search' sb stop dst s = .ok s' := by
  cases dst with
  | none => exact done
  | some dst =>
      obtain ⟨out, searched, done⟩ := bind_eq_ok.mp done
      exact bind_eq_ok.mpr ⟨out, more s.ivu dst out searched, done⟩

private theorem round_extends (more : Extends search search') {sb : SB w}
    {item : BBlock w × Nat} {s s' : Locals w}
    (done : round search sb s item = .ok s') :
    round search' sb s item = .ok s' := by
  obtain ⟨s₁, first, done⟩ := bind_eq_ok.mp done
  obtain ⟨s₂, second, third⟩ := bind_eq_ok.mp done
  exact bind_eq_ok.mpr ⟨s₁, first, bind_eq_ok.mpr
    ⟨s₂, follow_extends more second, follow_extends more third⟩⟩

private theorem searchSB_extends
    {restart restart' : Ivu w → BitVec w → Except Stop (Ivu w)}
    (more : Extends restart restart') (depth : Nat) :
    Extends (searchSB sbs restart depth) (searchSB sbs restart' depth) := by
  induction depth with
  | zero => exact fun _ _ _ done => done
  | succ depth induction =>
      intro ivu base out done
      unfold searchSB at done ⊢
      cases isSB : sbs base with
      | none =>
          rw [isSB] at done
          exact done
      | some sb =>
          rw [isSB] at done
          obtain ⟨s₁, rounds, done⟩ := bind_eq_ok.mp done
          obtain ⟨s₂, last, done⟩ := bind_eq_ok.mp done
          obtain ⟨ivu', again, done⟩ := bind_eq_ok.mp done
          have restarted : restartIf restart' base s₂ = .ok ivu' := by
            unfold restartIf at again ⊢
            split at again
            · rename_i isAgain
              rw [if_pos isAgain]
              exact more _ _ _ again
            · rename_i isDone
              rw [if_neg isDone]
              exact again
          have rounds' := foldlM_eq_ok_mono
            (fun _ _ _ => round_extends induction) rounds
          exact bind_eq_ok.mpr ⟨s₁, rounds', bind_eq_ok.mpr
            ⟨s₂, follow_extends induction last,
              bind_eq_ok.mpr ⟨ivu', restarted, done⟩⟩⟩

private theorem addSBtoLoop_extends (clo fuel depth : Nat) :
    Extends (fun ivu base => addSBtoLoop sbs clo fuel ivu base depth)
      (fun ivu base => addSBtoLoop sbs clo (fuel + 1) ivu base depth) := by
  induction fuel generalizing depth with
  | zero =>
      apply searchSB_extends
      intro ivu base ivu' exhausted
      cases exhausted
  | succ fuel induction =>
      apply searchSB_extends
      intro ivu base ivu' again
      obtain ⟨out, searched, again⟩ := bind_eq_ok.mp again
      exact bind_eq_ok.mpr ⟨out, induction clo ivu base out searched, again⟩

private theorem addSBtoLoop_of_le {clo fuel fuel' depth : Nat} {ivu : Ivu w}
    {base : BitVec w} {out : Ivu w × Bool}
    (done : addSBtoLoop sbs clo fuel ivu base depth = .ok out)
    (more : fuel ≤ fuel') :
    addSBtoLoop sbs clo fuel' ivu base depth = .ok out := by
  induction more with
  | refl => exact done
  | step _ induction => exact addSBtoLoop_extends clo _ depth _ _ _ induction

end Fuel

section Result

variable {sbs : Superblocks w} {ivu : Ivu w} {stored : Ivu.Stored w}

/-- The function returns; the union has grown by reachable code at most, and
the result says whether it is reached within the depth. -/
def ClosesLoop (sbs : Superblocks w) (clo : Nat) (ivu : Ivu w)
    (stored : Ivu.Stored w) (base : BitVec w) (depth : Nat) : Prop :=
  ∃ out stored' enough,
    (∀ fuel, enough ≤ fuel →
      addSBtoLoop sbs clo fuel ivu base depth = .ok out) ∧
    out.1.Represents stored' ∧ Grown sbs base stored stored' ∧
    (out.2 = true ↔ Hits (Edge sbs) sbs stored depth base)

theorem Followed.edge {base dst : BitVec w} (followed : Followed sbs base dst) :
    Edge sbs base dst := by
  obtain ⟨sb, isSB, ⟨i, -, isBranch⟩ | isNext | isReturn⟩ := followed
  · exact ⟨sb, isSB, .inl (join_mem_branches isBranch)⟩
  · exact ⟨sb, isSB, .inr (.inl isNext)⟩
  · exact ⟨sb, isSB, .inr (.inr isReturn)⟩

/-- The search closes the region exactly if the union is not reached only
through branches whose index is no index of an extent. -/
theorem addSBtoLoop_closes_iff (clo : Nat) (base : BitVec w) (depth : Nat)
    (proper : ProperCode sbs base) (represents : ivu.Represents stored)
    (clean : ∀ entry ∈ stored, Clean entry.2) :
    ClosesLoop sbs clo ivu stored base depth ↔
      (Hits (Edge sbs) sbs stored depth base →
        Hits (Followed sbs) sbs stored depth base) := by
  obtain ⟨out, done, ⟨stored', holds, grown⟩, hits, -⟩ :=
    addSBtoLoop_spec clo (2 ^ w) depth ivu stored base proper
      ⟨represents, clean⟩ (missing_le_two_pow stored)
  constructor
  · rintro ⟨out', -, enough, same, -, -, hits'⟩ reached
    have more := same _ (Nat.le_max_left enough (2 ^ w))
    rw [addSBtoLoop_of_le done (Nat.le_max_right enough (2 ^ w))] at more
    rw [← Except.ok.inj more, hits] at hits'
    exact hits'.mpr reached
  · intro followed
    refine ⟨out, stored', 2 ^ w, fun fuel more => addSBtoLoop_of_le done more,
      holds.represents, grown, hits.trans ⟨?_, followed⟩⟩
    rintro ⟨dst, near, touches⟩
    exact ⟨dst, near.mono fun _ _ => Followed.edge, touches⟩

end Result

/-- A superblock of one extent with exits to two others. -/
def twoExits : Superblocks 32 := fun base =>
  if base = 0x1000 then
    some ⟨.analysed, [⟨0x1000, 16, false⟩], .ret, none,
      [some 0x2000, some 0x3000, none], 0, 0⟩
  else if base = 0x3000 then
    some ⟨.analysed, [⟨0x3000, 16, false⟩], .ret, none,
      [none, none, none], 0, 0⟩
  else none

/-- The union of the one extent at `0x3000`. -/
def target : Ivu 32 :=
  ⟨[(0x3000, 0), (0x3010, 0)], fun _ => ⟨⟨0x3000, 0x3010⟩, true⟩, 1⟩

private theorem target_represents :
    target.Represents [(0, ⟨0x3000, 0x3010⟩)] := by
  refine ⟨rfl, ?_, ⟨?_, List.pairwise_singleton _ _⟩, by decide, ?_⟩ <;>
    simp [target]

private theorem target_clean :
    ∀ entry ∈ ([(0, ⟨0x3000, 0x3010⟩)] : Ivu.Stored 32),
      Clean entry.2 := by
  unfold Clean
  decide

theorem twoExits_proper (base : BitVec 32) : ProperCode twoExits base := by
  intro place sb _ isSB bblock member
  unfold twoExits at isSB
  split at isSB
  · cases isSB
    cases List.mem_singleton.mp member
    unfold Clean
    decide
  · split at isSB
    · cases isSB
      cases List.mem_singleton.mp member
      unfold Clean
      decide
    · cases isSB

theorem addSBtoLoop_closes_iff_twoExits :
    ClosesLoop twoExits 5 target [(0, ⟨0x3000, 0x3010⟩)] 0x3000 1 ↔
      (Hits (Edge twoExits) twoExits [(0, ⟨0x3000, 0x3010⟩)] 1 0x3000 →
        Hits (Followed twoExits) twoExits [(0, ⟨0x3000, 0x3010⟩)] 1
          0x3000) :=
  addSBtoLoop_closes_iff 5 0x3000 1 (twoExits_proper 0x3000)
    target_represents target_clean

/-- The second exit leads into the union, but only the first is followed. -/
theorem addSBtoLoop_misses_branch :
    Hits (Edge twoExits) twoExits [(0, ⟨0x3000, 0x3010⟩)] 2 0x1000 ∧
    (∀ fuel, (addSBtoLoop twoExits 5 fuel target 0x1000 2).map (·.2) =
      .ok false) ∧
    ¬ ClosesLoop twoExits 5 target [(0, ⟨0x3000, 0x3010⟩)] 0x1000 2 := by
  have reached : Hits (Edge twoExits) twoExits [(0, ⟨0x3000, 0x3010⟩)] 2
      0x1000 := by
    have exits : Edge twoExits 0x1000 0x3000 := ⟨_, rfl, .inl (by decide)⟩
    refine ⟨0x3000, .step exits .refl, _, rfl, ⟨0x3000, 16, false⟩,
      List.mem_cons_self, (0, ⟨0x3000, 0x3010⟩), List.mem_cons_self, ?_⟩
    unfold Interval.Contains
    decide
  have answers : ∀ fuel, (addSBtoLoop twoExits 5 fuel target 0x1000 2).map
      (·.2) = .ok false := by
    intro fuel
    cases fuel <;> rfl
  refine ⟨reached, answers, ?_⟩
  rintro ⟨out, stored', enough, done, -, -, hits⟩
  have answer := answers enough
  rw [done enough le_rfl] at answer
  have wrong := hits.mpr reached
  rw [show out.2 = false from Except.ok.inj answer] at wrong
  cases wrong

end Loops
end HelgrindPlus
