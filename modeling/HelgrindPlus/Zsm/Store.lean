import HelgrindPlus.Lib.Ledger
import HelgrindPlus.Zsm.Line
import Mathlib.Algebra.BigOperators.Group.Finset.Basic
import Mathlib.Data.List.AList
import Mathlib.Tactic.Abel

/-!
# The backing store

`SecMap`s and the functions on them: `map_shmem` and its three-entry cache
`smCache`, the choice between the two representations of a line, and the
writing and reading of whole lines.  An address is a natural number; a
`SecMap *` is the number of the allocation that made it.

The calls of the functions `rcinc` and `rcdec`, which the client passes to
`zsm_init`, are returned as a list in the order in which they are made.
-/

namespace HelgrindPlus

open Outcome

variable {α : Type}

structure SecMap (α : Type) where
  linesZ : Nat → LineZ α
  linesF : Nat → LineF α
  linesFSize : Nat

structure SMCacheEnt where
  gaKey : Nat
  sm : Nat
  deriving DecidableEq

/-- Initially no entry of `smCache` is in use: an address of a `SecMap` is
never 1. -/
structure Store (α : Type) where
  secMaps : Nat → SecMap α
  secMapsAllocd : Nat
  mapShmem : AList (fun _ : Nat => Nat)
  smCache₀ : SMCacheEnt
  smCache₁ : SMCacheEnt
  smCache₂ : SMCacheEnt

def roundToSecMapBase (a : Nat) : Nat := a / 8192 * 8192

def getSecMapOffset (a : Nat) : Nat := a % 8192

section Values

variable [DecidableEq α] [ShadowVal α]

namespace LineZ

/-- The line that `shmem__alloc_SecMap` and `zsm_set_range` write. -/
def uniform (sv : α) (fix : Nat) : LineZ α where
  dict := Function.update (fun _ => invalid) 0 sv
  ix2s := fun _ => 0#8
  fix := fix

/-- The values on which `rcinc_LineZ` and `rcdec_LineZ` call. -/
def counted (lineZ : LineZ α) : List α :=
  lineZ.dict 0 ::
    [lineZ.dict 1, lineZ.dict 2, lineZ.dict 3].filter (· ≠ invalid)

end LineZ

omit [DecidableEq α] [ShadowVal α] in
/-- The values on which `rcinc_LineF` and `rcdec_LineF` call. -/
def LineF.counted (lineF : LineF α) : List α :=
  (List.range 64).map lineF.w64s

namespace SecMap

def alloc : SecMap α where
  linesZ := fun _ => LineZ.uniform noAccess 0
  linesF := fun _ => ⟨false, fun _ => invalid⟩
  linesFSize := 0

def setLineZ (sm : SecMap α) (zix : Nat) (lineZ : LineZ α) : SecMap α :=
  { sm with linesZ := Function.update sm.linesZ zix lineZ }

def setLineF (sm : SecMap α) (fix : Nat) (lineF : LineF α) : SecMap α :=
  { sm with linesF := Function.update sm.linesF fix lineF }

/-- The `LineF` to which a `LineZ` refers, with the assertions on it. -/
def getLineF (sm : SecMap α) (fix : Nat) : Except Abort (LineF α) := do
  tlAssert (0 < sm.linesFSize)
  tlAssert (fix < sm.linesFSize)
  tlAssert ((sm.linesF fix).inUse = true)
  pure (sm.linesF fix)

/-- The second half of `find_Z_for_writing`, with the values to `rcdec`. -/
def release (sm : SecMap α) (zix : Nat) : Except Abort (SecMap α × List α) :=
  if (sm.linesZ zix).dict 0 = invalid then do
    let fix := (sm.linesZ zix).fix
    let lineF ← sm.getLineF fix
    pure (sm.setLineF fix { lineF with inUse := false }, lineF.counted)
  else pure (sm, (sm.linesZ zix).counted)

/-- The search for a `LineF` that is not in use. -/
def findFreeF (sm : SecMap α) : Option Nat :=
  (List.range sm.linesFSize).find? fun i => !(sm.linesF i).inUse

/-- The array that `alloc_F_for_writing` makes when it finds no free line. -/
def growLinesF (sm : SecMap α) : SecMap α :=
  { sm with
    linesF := fun i =>
      if i < sm.linesFSize then sm.linesF i
      else { sm.linesF i with inUse := false }
    linesFSize := if sm.linesFSize = 0 then 1 else 2 * sm.linesFSize }

def allocFForWriting (sm : SecMap α) : Except Abort (SecMap α × Nat) :=
  match sm.findFreeF with
  | some i => .ok (sm, i)
  | none =>
      match sm.growLinesF.findFreeF with
      | some i => .ok (sm.growLinesF, i)
      | none => .error .tlAssert

/-- The end of `cacheline_wback`, with the values to `rcinc`: the loop over
the runs has filled in `lineZ` for the first `i` bytes of the line. -/
def park (sm : SecMap α) (zix : Nat) (csvals : List (CountedSVal α))
    (lineZ : LineZ α) (i : Nat) : Except Abort (SecMap α × List α) :=
  if i = 64 then do
    tlAssert (lineZ.dict 0 ≠ invalid)
    pure (sm.setLineZ zix lineZ, lineZ.counted)
  else do
    tlAssert (i < 64)
    let (sm, fix) ← sm.allocFForWriting
    tlAssert (0 < sm.linesFSize)
    tlAssert (fix < sm.linesFSize)
    tlAssert ((sm.linesF fix).inUse = false)
    let values := expand csvals
    tlAssert (values.length = 64)
    let lineF : LineF α := ⟨true, fun i => values.getD i invalid⟩
    pure ((sm.setLineZ zix { lineZ with dict := fun _ => invalid, fix := fix }
      ).setLineF fix lineF, lineF.counted)

/-- The writing of a line, from `find_Z_for_writing` on. -/
def writeLine (sm : SecMap α) (zix : Nat) (csvals : List (CountedSVal α)) :
    Except Abort (SecMap α × List (RcEvent α)) := do
  let (sm, decs) ← sm.release zix
  tlAssert (1 ≤ csvals.length ∧ csvals.length ≤ 64)
  let (lineZ, i) ←
    compress csvals { sm.linesZ zix with dict := fun _ => invalid } 0
  let (sm, incs) ← sm.park zix csvals lineZ i
  pure (sm, decs.map .dec ++ incs.map .inc)

/-- The branch of `zsm_set_range` for a line that is not in the cache. -/
def setLine (sm : SecMap α) (zix : Nat) (svNew : α) :
    Except Abort (SecMap α × List (RcEvent α)) := do
  let (sm, decs) ← sm.release zix
  let lineZ := LineZ.uniform svNew (sm.linesZ zix).fix
  tlAssert (lineZ.dict 0 ≠ invalid)
  pure (sm.setLineZ zix lineZ, decs.map .dec ++ lineZ.counted.map .inc)

/-- The values of a line, as `cacheline_fetch` expands them. -/
def readLine (sm : SecMap α) (zix : Nat) : Except Abort (Nat → α) :=
  if (sm.linesZ zix).dict 0 = invalid then do
    let lineF ← sm.getLineF (sm.linesZ zix).fix
    pure lineF.w64s
  else (sm.linesZ zix).expand

end SecMap

namespace Store

def init : Store α where
  secMaps := fun _ => SecMap.alloc
  secMapsAllocd := 0
  mapShmem := ∅
  smCache₀ := ⟨1, 0⟩
  smCache₁ := ⟨1, 0⟩
  smCache₂ := ⟨1, 0⟩

omit [DecidableEq α] [ShadowVal α] in
def findSecMap (st : Store α) (ga : Nat) : Store α × Option Nat :=
  let gaKey := roundToSecMapBase ga
  if gaKey = st.smCache₀.gaKey then (st, some st.smCache₀.sm)
  else if gaKey = st.smCache₁.gaKey then
    ({ st with smCache₀ := st.smCache₁, smCache₁ := st.smCache₀ },
      some st.smCache₁.sm)
  else if gaKey = st.smCache₂.gaKey then
    ({ st with smCache₁ := st.smCache₂, smCache₂ := st.smCache₁ },
      some st.smCache₂.sm)
  else
    match st.mapShmem.lookup gaKey with
    | some sm =>
        ({ st with
          smCache₀ := ⟨gaKey, sm⟩
          smCache₁ := st.smCache₀
          smCache₂ := st.smCache₁ }, some sm)
    | none => (st, none)

/-- A new `SecMap` for an address that has none. -/
def addSecMap (st : Store α) (ga : Nat) : Store α :=
  { st with
    secMaps := Function.update st.secMaps st.secMapsAllocd SecMap.alloc
    secMapsAllocd := st.secMapsAllocd + 1
    mapShmem := st.mapShmem.insert (roundToSecMapBase ga) st.secMapsAllocd }

def findOrAllocSecMap (st : Store α) (ga : Nat) : Store α × Nat :=
  match st.findSecMap ga with
  | (st, some sm) => (st, sm)
  | (st, none) => (st.addSecMap ga, st.secMapsAllocd)

omit [DecidableEq α] [ShadowVal α] in
def setSecMap (st : Store α) (sm : Nat) (secMap : SecMap α) : Store α :=
  { st with secMaps := Function.update st.secMaps sm secMap }

/-- Finds the `SecMap` and the line in it that belong to `tag`, and works on
that line. -/
def onLine {β : Type} (st : Store α) (tag : Nat)
    (work : SecMap α → Nat → Except Abort (SecMap α × β)) :
    Except Abort (Store α × β) := do
  let (st, sm) := st.findOrAllocSecMap tag
  let smoff := getSecMapOffset tag
  tlAssert (smoff % 64 = 0)
  let zix := smoff / 64
  tlAssert (zix < 128)
  let (secMap, result) ← work (st.secMaps sm) zix
  pure (st.setSecMap sm secMap, result)

/-- The function `cacheline_wback` for a line with a valid tag. -/
def cachelineWback (st : Store α) (tag : Nat) (cl : CacheLine α) :
    Except Abort (Store α × List (RcEvent α)) :=
  st.onLine tag fun sm zix => sm.writeLine zix cl.sequentialise

def setLine (st : Store α) (tag : Nat) (svNew : α) :
    Except Abort (Store α × List (RcEvent α)) :=
  st.onLine tag fun sm zix => sm.setLine zix svNew

/-- The function `cacheline_fetch`; the descriptors of the line are all
overwritten. -/
def cachelineFetch (st : Store α) (tag : Nat) :
    Except Abort (Store α × CacheLine α) := do
  tlAssert (tag % 64 = 0)
  let (st, svals) ← st.onLine tag fun sm zix => do
    let svals ← sm.readLine zix
    pure (sm, svals)
  let cl ← CacheLine.normalise ⟨fun _ => 0#16, svals⟩
  pure (st, cl)

end Store

end Values

section Values

variable [DecidableEq α] [ShadowVal α]

/-- The values for which the user's reference counts are to account. -/
def LineZ.vals (lineZ : LineZ α) : Multiset α :=
  if lineZ.dict 0 = invalid then 0 else ↑lineZ.counted

omit [DecidableEq α] [ShadowVal α] in
def LineF.vals (lineF : LineF α) : Multiset α :=
  if lineF.inUse then ↑lineF.counted else 0

namespace SecMap

variable {sm after : SecMap α} {zix : Nat}

def vals (sm : SecMap α) : Multiset α :=
  ∑ z ∈ Finset.range 128, (sm.linesZ z).vals +
    ∑ f ∈ Finset.range sm.linesFSize, (sm.linesF f).vals

/-- The value of byte `i` of a line. -/
def lineByte (sm : SecMap α) (zix i : Nat) : α :=
  if (sm.linesZ zix).dict 0 = invalid then
    (sm.linesF (sm.linesZ zix).fix).w64s i
  else (sm.linesZ zix).dict (readTwobitArray (sm.linesZ zix).ix2s i)

/-- A line without a `LineF`. -/
def IsDirect (sm : SecMap α) (zix : Nat) : Prop :=
  (sm.linesZ zix).dict 0 ≠ invalid

instance (sm : SecMap α) (zix : Nat) : Decidable (sm.IsDirect zix) :=
  inferInstanceAs (Decidable (_ ≠ _))

/-- A line whose values are all there. -/
structure LineWF (sm : SecMap α) (zix : Nat) : Prop where
  values : ∀ i < 64, sm.lineByte zix i ≠ invalid
  inUse : ¬ sm.IsDirect zix → (sm.linesZ zix).fix < sm.linesFSize ∧
    (sm.linesF (sm.linesZ zix).fix).inUse = true

/-- The lines of `zone` are well formed and do not share a `LineF`. -/
structure LinesWF (sm : SecMap α) (zone : Nat → Prop) : Prop where
  line : ∀ z < 128, zone z → sm.LineWF z
  own : ∀ z < 128, ∀ z' < 128, zone z → zone z' → ¬ sm.IsDirect z →
    ¬ sm.IsDirect z' → (sm.linesZ z).fix = (sm.linesZ z').fix → z = z'

def WF (sm : SecMap α) : Prop := sm.LinesWF fun _ => True

/-- The values of the lines other than `zix`. -/
def otherVals (sm : SecMap α) (zix : Nat) : Multiset α :=
  ∑ z ∈ (Finset.range 128).erase zix, (sm.linesZ z).vals +
    ∑ f ∈ Finset.range sm.linesFSize, (sm.linesF f).vals

/-- A section in which the line `zix` is about to be overwritten. -/
structure Released (sm : SecMap α) (zix : Nat)
    (result : SecMap α × List α) : Prop where
  lines : result.1.LinesWF (· ≠ zix)
  bytes : ∀ z < 128, z ≠ zix → ∀ i,
    result.1.lineByte z i = sm.lineByte z i
  ledger : sm.vals = result.1.otherVals zix + ↑result.2

theorem vals_eq (bounded : zix < 128) :
    sm.vals = (sm.linesZ zix).vals + sm.otherVals zix := by
  unfold vals otherVals
  rw [← Finset.add_sum_erase _ _ (Finset.mem_range.mpr bounded)]
  abel

/-- Putting a `LineF` in use, or out of it. -/
theorem otherVals_setLineF (zix : Nat) {fix : Nat} (lineF : LineF α)
    (bounded : fix < sm.linesFSize) :
    (sm.setLineF fix lineF).otherVals zix + (sm.linesF fix).vals =
      sm.otherVals zix + lineF.vals := by
  have member := Finset.mem_range.mpr bounded
  have rest : ∀ f ∈ (Finset.range sm.linesFSize).erase fix,
      ((sm.setLineF fix lineF).linesF f).vals = (sm.linesF f).vals := by
    intro f other
    have apart : f ≠ fix := (Finset.mem_erase.mp other).1
    simp [setLineF, apart]
  have after := Finset.add_sum_erase (Finset.range sm.linesFSize)
    (fun f => ((sm.setLineF fix lineF).linesF f).vals) member
  have before := Finset.add_sum_erase (Finset.range sm.linesFSize)
    (fun f => (sm.linesF f).vals) member
  rw [Finset.sum_congr rfl rest] at after
  simp only [setLineF, Function.update_self] at after
  unfold otherVals
  rw [← before]
  simp only [setLineF]
  rw [← after]
  abel

omit [DecidableEq α] [ShadowVal α] in
theorem getLineF_of {fix : Nat} (bounded : fix < sm.linesFSize)
    (inUse : (sm.linesF fix).inUse = true) :
    sm.getLineF fix = .ok (sm.linesF fix) := by
  unfold getLineF
  rw [tlAssert_of (by omega), ok_bind, tlAssert_of bounded, ok_bind,
    tlAssert_of inUse]
  rfl

/-- Lines with a `LineF` of their own do not notice a change of another. -/
theorem lineByte_setLineF {fix z : Nat} (lineF : LineF α)
    (apart : ¬ sm.IsDirect z → (sm.linesZ z).fix ≠ fix) (i : Nat) :
    (sm.setLineF fix lineF).lineByte z i = sm.lineByte z i := by
  by_cases direct : sm.IsDirect z
  · have first : (sm.linesZ z).dict 0 ≠ invalid := direct
    simp [lineByte, setLineF, first]
  · have other := apart direct
    simp [lineByte, setLineF, other]

theorem LineWF.setLineF {fix z : Nat} (wf : sm.LineWF z) (lineF : LineF α)
    (apart : ¬ sm.IsDirect z → (sm.linesZ z).fix ≠ fix) :
    (sm.setLineF fix lineF).LineWF z := by
  constructor
  · intro i bounded
    rw [lineByte_setLineF lineF apart]
    exact wf.values i bounded
  · intro indirect
    obtain ⟨bounded, inUse⟩ := wf.inUse indirect
    refine ⟨bounded, ?_⟩
    have other : (sm.linesZ z).fix ≠ fix := apart indirect
    simpa [SecMap.setLineF, other] using inUse

private theorem release_returns (wf : sm.WF) (bounded : zix < 128) :
    Returns (sm.release zix) (Released sm zix) := by
  unfold release
  split
  · rename_i indirect
    have notDirect : ¬ sm.IsDirect zix := not_not_intro indirect
    obtain ⟨inside, inUse⟩ := (wf.line zix bounded trivial).inUse notDirect
    dsimp only
    rw [getLineF_of inside inUse, ok_bind]
    apply Returns.pure
    have apart : ∀ z < 128, z ≠ zix → ¬ sm.IsDirect z →
        (sm.linesZ z).fix ≠ (sm.linesZ zix).fix :=
      fun z small different indirectZ same =>
        different (wf.own z small zix bounded trivial trivial indirectZ
          notDirect same)
    refine ⟨⟨?_, ?_⟩, ?_, ?_⟩
    · intro z small different
      exact (wf.line z small trivial).setLineF _ (apart z small different)
    · intro z small z' small' _ _ indirectZ indirectZ' same
      exact wf.own z small z' small' trivial trivial indirectZ indirectZ' same
    · intro z small different i
      exact lineByte_setLineF _ (apart z small different) i
    · have sums := otherVals_setLineF zix
        { sm.linesF (sm.linesZ zix).fix with inUse := false } inside
      have empty : (sm.linesZ zix).vals = 0 := if_pos indirect
      have full : (sm.linesF (sm.linesZ zix).fix).vals =
          ↑(sm.linesF (sm.linesZ zix).fix).counted := if_pos inUse
      have freed : LineF.vals
          { sm.linesF (sm.linesZ zix).fix with inUse := false } = 0 := rfl
      rw [full, freed, add_zero] at sums
      rw [vals_eq bounded, empty, zero_add]
      exact sums.symm
  · rename_i direct
    apply Returns.pure
    refine ⟨⟨fun z small _ => wf.line z small trivial, ?_⟩,
      fun z _ _ i => rfl, ?_⟩
    · intro z small z' small' _ _ indirectZ indirectZ' same
      exact wf.own z small z' small' trivial trivial indirectZ indirectZ' same
    · have full : (sm.linesZ zix).vals = ↑(sm.linesZ zix).counted :=
        if_neg direct
      rw [vals_eq bounded, full, add_comm]

/-- The line `zix` of a released section has got the given contents. -/
structure Parked (sm : SecMap α) (zix : Nat) (content : Nat → α)
    (result : SecMap α × List α) : Prop where
  wf : result.1.WF
  here : ∀ i < 64, result.1.lineByte zix i = content i
  others : ∀ z < 128, z ≠ zix → ∀ i,
    result.1.lineByte z i = sm.lineByte z i
  ledger : result.1.vals = sm.otherVals zix + ↑result.2
  values : ∀ sv ∈ result.2, ∃ i < 64, content i = sv

theorem lineByte_setLineZ_of_ne {z : Nat} (lineZ : LineZ α)
    (different : z ≠ zix) (i : Nat) :
    (sm.setLineZ zix lineZ).lineByte z i = sm.lineByte z i := by
  simp [lineByte, setLineZ, different]

theorem LineWF.setLineZ {z : Nat} (wf : sm.LineWF z) (lineZ : LineZ α)
    (different : z ≠ zix) : (sm.setLineZ zix lineZ).LineWF z := by
  constructor
  · intro i bounded
    rw [lineByte_setLineZ_of_ne lineZ different]
    exact wf.values i bounded
  · intro indirect
    have old : ¬ sm.IsDirect z := by
      simpa [IsDirect, SecMap.setLineZ, different] using indirect
    simpa [SecMap.setLineZ, different] using wf.inUse old

private theorem otherVals_setLineZ (lineZ : LineZ α) :
    (sm.setLineZ zix lineZ).otherVals zix = sm.otherVals zix := by
  unfold otherVals
  congr 1
  apply Finset.sum_congr rfl
  intro z other
  have different : z ≠ zix := (Finset.mem_erase.mp other).1
  simp [setLineZ, different]

private theorem parked_setLineZ (lineZ : LineZ α)
    (lines : sm.LinesWF (· ≠ zix)) (bounded : zix < 128)
    (direct : lineZ.dict 0 ≠ invalid)
    (valid : ∀ i < 64, lineZ.dict (readTwobitArray lineZ.ix2s i) ≠ invalid)
    (values : ∀ sv ∈ lineZ.counted, ∃ i < 64,
      lineZ.dict (readTwobitArray lineZ.ix2s i) = sv) :
    Parked sm zix (fun i => lineZ.dict (readTwobitArray lineZ.ix2s i))
      (sm.setLineZ zix lineZ, lineZ.counted) := by
  have hereZ : (sm.setLineZ zix lineZ).linesZ zix = lineZ :=
    Function.update_self ..
  have isDirect : (sm.setLineZ zix lineZ).IsDirect zix := by
    unfold IsDirect
    rw [hereZ]
    exact direct
  have here : ∀ i, (sm.setLineZ zix lineZ).lineByte zix i =
      lineZ.dict (readTwobitArray lineZ.ix2s i) := by
    intro i
    unfold lineByte
    rw [hereZ, if_neg direct]
  refine ⟨⟨?_, ?_⟩, fun i _ => here i, ?_, ?_, values⟩
  · intro z small _
    by_cases same : z = zix
    · subst same
      refine ⟨fun i small => ?_, fun indirect => absurd isDirect indirect⟩
      rw [here i]
      exact valid i small
    · exact (lines.line z small same).setLineZ lineZ same
  · intro z small z' small' _ _ indirectZ indirectZ' shared
    have different : z ≠ zix := by
      rintro rfl
      exact indirectZ isDirect
    have different' : z' ≠ zix := by
      rintro rfl
      exact indirectZ' isDirect
    simp only [IsDirect, SecMap.setLineZ, Function.update_of_ne different,
      Function.update_of_ne different'] at indirectZ indirectZ' shared
    exact lines.own z small z' small' different different' indirectZ
      indirectZ' shared
  · intro z small different i
    exact lineByte_setLineZ_of_ne lineZ different i
  · have full : ((sm.setLineZ zix lineZ).linesZ zix).vals =
        ↑lineZ.counted := by
      rw [hereZ]
      exact if_neg direct
    rw [vals_eq bounded, otherVals_setLineZ, full, add_comm]

/-- What `alloc_F_for_writing` promises about the line it finds. -/
structure FoundF (sm : SecMap α) (zix : Nat) (result : SecMap α × Nat) :
    Prop where
  linesZ : result.1.linesZ = sm.linesZ
  bounded : result.2 < result.1.linesFSize
  free : (result.1.linesF result.2).inUse = false
  bytes : ∀ z, sm.LineWF z → ∀ i,
    result.1.lineByte z i = sm.lineByte z i
  lines : ∀ z, sm.LineWF z → result.1.LineWF z
  otherVals : result.1.otherVals zix = sm.otherVals zix

omit [DecidableEq α] [ShadowVal α] in
theorem findFreeF_eq_some {i : Nat} (found : sm.findFreeF = some i) :
    i < sm.linesFSize ∧ (sm.linesF i).inUse = false := by
  refine ⟨List.mem_range.mp (List.mem_of_find?_eq_some found), ?_⟩
  simpa using List.find?_some found

omit [DecidableEq α] [ShadowVal α] in
theorem growLinesF_linesF {f : Nat} (old : f < sm.linesFSize) :
    sm.growLinesF.linesF f = sm.linesF f :=
  if_pos old

omit [DecidableEq α] [ShadowVal α] in
theorem growLinesF_size : sm.linesFSize < sm.growLinesF.linesFSize := by
  unfold growLinesF
  dsimp only
  split <;> omega

omit [DecidableEq α] [ShadowVal α] in
theorem growLinesF_free : ∃ i, sm.growLinesF.findFreeF = some i := by
  apply Option.isSome_iff_exists.mp
  unfold findFreeF
  rw [List.find?_isSome]
  refine ⟨sm.linesFSize, List.mem_range.mpr growLinesF_size, ?_⟩
  simp [growLinesF]

theorem LineWF.growLinesF {z : Nat} (wf : sm.LineWF z) :
    sm.growLinesF.LineWF z ∧
      ∀ i, sm.growLinesF.lineByte z i = sm.lineByte z i := by
  have bytes : ∀ i, sm.growLinesF.lineByte z i = sm.lineByte z i := by
    intro i
    by_cases direct : sm.IsDirect z
    · have first : (sm.linesZ z).dict 0 ≠ invalid := direct
      simp [lineByte, SecMap.growLinesF, first]
    · have old := (wf.inUse direct).1
      simp [lineByte, SecMap.growLinesF, old]
  refine ⟨⟨?_, ?_⟩, bytes⟩
  · intro i bounded
    rw [bytes i]
    exact wf.values i bounded
  · intro indirect
    obtain ⟨old, inUse⟩ := wf.inUse indirect
    refine ⟨old.trans growLinesF_size, ?_⟩
    have same := growLinesF_linesF old
    exact (congrArg LineF.inUse same).trans inUse

private theorem otherVals_growLinesF :
    sm.growLinesF.otherVals zix = sm.otherVals zix := by
  unfold otherVals
  congr 1
  symm
  have old : ∀ f ∈ Finset.range sm.linesFSize,
      (sm.linesF f).vals = (sm.growLinesF.linesF f).vals := by
    intro f bounded
    rw [growLinesF_linesF (Finset.mem_range.mp bounded)]
  rw [Finset.sum_congr rfl old]
  apply Finset.sum_subset
  · exact Finset.range_mono growLinesF_size.le
  · intro f _ new
    have beyond : ¬ f < sm.linesFSize :=
      fun bounded => new (Finset.mem_range.mpr bounded)
    simp [SecMap.growLinesF, beyond, LineF.vals]

private theorem allocFForWriting_returns (zix : Nat) :
    Returns sm.allocFForWriting (FoundF sm zix) := by
  unfold allocFForWriting
  split
  · rename_i i found
    obtain ⟨bounded, free⟩ := findFreeF_eq_some found
    exact Returns.ok ⟨rfl, bounded, free, fun z _ i => rfl,
      fun z wf => wf, rfl⟩
  · obtain ⟨i, found⟩ := sm.growLinesF_free
    obtain ⟨bounded, free⟩ := findFreeF_eq_some found
    rw [found]
    exact Returns.ok ⟨rfl, bounded, free, fun z wf => wf.growLinesF.2,
      fun z wf => wf.growLinesF.1, otherVals_growLinesF⟩

/-- A line is moved to a `LineF` that nothing refers to. -/
theorem parked_setLineF (lineZ : LineZ α) (lineF : LineF α) {fix : Nat}
    (lines : sm.LinesWF (· ≠ zix)) (bounded : zix < 128)
    (inside : fix < sm.linesFSize) (free : (sm.linesF fix).inUse = false)
    (indirect : lineZ.dict 0 = invalid) (refers : lineZ.fix = fix)
    (inUse : lineF.inUse = true) (valid : ∀ i < 64, lineF.w64s i ≠ invalid) :
    Parked sm zix lineF.w64s
      ((sm.setLineZ zix lineZ).setLineF fix lineF, lineF.counted) := by
  have hereZ : (sm.setLineZ zix lineZ).linesZ zix = lineZ :=
    Function.update_self ..
  have hereF : ((sm.setLineZ zix lineZ).setLineF fix lineF).linesF fix =
      lineF := Function.update_self ..
  have here : ∀ i, ((sm.setLineZ zix lineZ).setLineF fix lineF).lineByte
      zix i = lineF.w64s i := by
    intro i
    have first : (((sm.setLineZ zix lineZ).setLineF fix lineF).linesZ
        zix).dict 0 = invalid := by
      change ((sm.setLineZ zix lineZ).linesZ zix).dict 0 = invalid
      rw [hereZ]
      exact indirect
    have index : (((sm.setLineZ zix lineZ).setLineF fix lineF).linesZ
        zix).fix = fix := by
      change ((sm.setLineZ zix lineZ).linesZ zix).fix = fix
      rw [hereZ]
      exact refers
    unfold lineByte
    rw [if_pos first, index, hereF]
  -- the other lines refer to lines that are in use
  have apart : ∀ z < 128, z ≠ zix →
      ¬ (sm.setLineZ zix lineZ).IsDirect z →
      ((sm.setLineZ zix lineZ).linesZ z).fix ≠ fix := by
    intro z small different indirectZ same
    have wf := (lines.line z small different).setLineZ lineZ different
    have used := (wf.inUse indirectZ).2
    rw [same] at used
    have unused : ((sm.setLineZ zix lineZ).linesF fix).inUse = false := free
    rw [unused] at used
    cases used
  refine ⟨⟨?_, ?_⟩, fun i _ => here i, ?_, ?_, ?_⟩
  · intro z small _
    by_cases same : z = zix
    · subst same
      refine ⟨fun i small => ?_, fun _ => ?_⟩
      · rw [here i]
        exact valid i small
      · have index : (((sm.setLineZ z lineZ).setLineF fix lineF).linesZ
            z).fix = fix := by
          change ((sm.setLineZ z lineZ).linesZ z).fix = fix
          rw [hereZ]
          exact refers
        rw [index, hereF]
        exact ⟨inside, inUse⟩
    · exact ((lines.line z small same).setLineZ lineZ same).setLineF lineF
        (apart z small same)
  · intro z small z' small' _ _ indirectZ indirectZ' shared
    change ¬ (sm.setLineZ zix lineZ).IsDirect z at indirectZ
    change ¬ (sm.setLineZ zix lineZ).IsDirect z' at indirectZ'
    change ((sm.setLineZ zix lineZ).linesZ z).fix =
      ((sm.setLineZ zix lineZ).linesZ z').fix at shared
    have index : ((sm.setLineZ zix lineZ).linesZ zix).fix = fix := by
      rw [hereZ]
      exact refers
    by_cases same : z = zix
    · by_contra different
      have different' : z' ≠ zix := fun same' =>
        different (same.trans same'.symm)
      rw [same, index] at shared
      exact apart z' small' different' indirectZ' shared.symm
    · by_cases same' : z' = zix
      · rw [same', index] at shared
        exact absurd shared (apart z small same indirectZ)
      · simp only [IsDirect, SecMap.setLineZ, Function.update_of_ne same,
          Function.update_of_ne same'] at indirectZ indirectZ' shared
        exact lines.own z small z' small' same same' indirectZ indirectZ'
          shared
  · intro z small different i
    rw [lineByte_setLineF lineF (apart z small different),
      lineByte_setLineZ_of_ne lineZ different]
  · have sums := otherVals_setLineF zix lineF
      (show fix < (sm.setLineZ zix lineZ).linesFSize from inside)
    have unused : ((sm.setLineZ zix lineZ).linesF fix).vals = 0 := by
      change (sm.linesF fix).vals = 0
      simp [LineF.vals, free]
    have used : lineF.vals = ↑lineF.counted := if_pos inUse
    have empty : (((sm.setLineZ zix lineZ).setLineF fix lineF).linesZ
        zix).vals = 0 := by
      change ((sm.setLineZ zix lineZ).linesZ zix).vals = 0
      rw [hereZ]
      exact if_pos indirect
    rw [unused, add_zero, used, otherVals_setLineZ] at sums
    rw [vals_eq bounded, empty, zero_add]
    exact sums
  · intro sv member
    obtain ⟨i, bounded, same⟩ := List.mem_map.mp member
    exact ⟨i, List.mem_range.mp bounded, same⟩

end SecMap

end Values

section Values

variable [DecidableEq α] [ShadowVal α]

namespace SecMap

variable {sm : SecMap α} {zix : Nat}

/-- The line `zix` has got the given contents, and the calls of `rcinc` and
`rcdec` account for the change. -/
structure Rewritten (sm : SecMap α) (zix : Nat) (content : Nat → α)
    (result : SecMap α × List (RcEvent α)) : Prop where
  wf : result.1.WF
  here : ∀ i < 64, result.1.lineByte zix i = content i
  others : ∀ z < 128, z ≠ zix → ∀ i,
    result.1.lineByte z i = sm.lineByte z i
  ledger : RcEvent.Replays sm.vals result.2 result.1.vals
  incs : ∀ sv, .inc sv ∈ result.2 → ∃ i < 64, content i = sv

theorem Released.rewritten {released parked : SecMap α} {decs incs : List α}
    {content : Nat → α} (first : Released sm zix (released, decs))
    (second : Parked released zix content (parked, incs)) :
    Rewritten sm zix content
      (parked, decs.map .dec ++ incs.map .inc) := by
  refine ⟨second.wf, second.here, ?_, ?_, ?_⟩
  · intro z small different i
    rw [second.others z small different, first.bytes z small different]
  · rw [first.ledger, second.ledger]
    exact (RcEvent.Replays.decs _ decs).append (.incs _ incs)
  · intro sv member
    simp only [List.mem_append, List.mem_map, reduceCtorEq, and_false,
      exists_false, false_or, RcEvent.inc.injEq, exists_eq_right] at member
    exact second.values sv member

end SecMap

omit [DecidableEq α] [ShadowVal α] in
theorem length_le_length_expand {csvals : List (CountedSVal α)}
    (positive : ∀ csval ∈ csvals, 0 < csval.count) :
    csvals.length ≤ (expand csvals).length := by
  induction csvals with
  | nil => simp
  | cons csval rest induction =>
      have first := positive csval List.mem_cons_self
      have others := induction fun csval member =>
        positive csval (List.mem_cons_of_mem _ member)
      simp only [expand, List.flatMap_cons, List.length_append,
        List.length_replicate, List.length_cons] at others ⊢
      omega

omit [DecidableEq α] in
theorem CountedSVal.Sane.positive {csval : CountedSVal α}
    (sane : csval.Sane) : 0 < csval.count := by
  have count := sane.1
  simp only [List.mem_cons, List.not_mem_nil, or_false] at count
  omega

omit [DecidableEq α] in
theorem expand_valid {csvals : List (CountedSVal α)}
    (sane : ∀ csval ∈ csvals, csval.Sane) :
    ∀ sv ∈ expand csvals, sv ≠ invalid := by
  intro sv member
  obtain ⟨csval, listed, copied⟩ := List.mem_flatMap.mp member
  rw [List.eq_of_mem_replicate copied]
  exact (sane csval listed).2

omit [DecidableEq α] in
theorem LineZ.uniform_first (sv : α) (fix : Nat) :
    (LineZ.uniform sv fix).dict 0 = sv := by
  simp [LineZ.uniform]

omit [DecidableEq α] in
theorem LineZ.uniform_byte (sv : α) (fix i : Nat) :
    (LineZ.uniform sv fix).dict
      (readTwobitArray (LineZ.uniform sv fix).ix2s i) = sv := by
  have index : readTwobitArray (LineZ.uniform sv fix).ix2s i = 0 :=
    readTwobitArray_zero i
  rw [index, uniform_first]

theorem LineZ.uniform_counted (sv : α) (fix : Nat) :
    (LineZ.uniform sv fix).counted = [sv] := by
  simp [counted, LineZ.uniform]

theorem LineZ.mem_counted {lineZ : LineZ α} {sv : α}
    (direct : lineZ.dict 0 ≠ invalid) (member : sv ∈ lineZ.counted) :
    sv ≠ invalid ∧ ∃ j, lineZ.dict j = sv := by
  unfold counted at member
  simp only [List.mem_cons, List.mem_filter, List.not_mem_nil, or_false,
    decide_eq_true_eq, ne_eq] at member
  obtain rfl | ⟨rfl | rfl | rfl, valid⟩ := member
  · exact ⟨direct, 0, rfl⟩
  · exact ⟨valid, 1, rfl⟩
  · exact ⟨valid, 2, rfl⟩
  · exact ⟨valid, 3, rfl⟩

theorem LineZ.mem_counted_of {lineZ : LineZ α} {j : Nat} (bounded : j < 4)
    (valid : lineZ.dict j ≠ invalid) : lineZ.dict j ∈ lineZ.counted := by
  unfold counted
  obtain rfl | rfl | rfl | rfl : j = 0 ∨ j = 1 ∨ j = 2 ∨ j = 3 := by omega
  · simp
  · simp [valid]
  · simp [valid]
  · simp [valid]

/-- The values of the bytes of a line are accounted for. -/
theorem SecMap.LineWF.mem_vals {sm : SecMap α} {zix i : Nat}
    (wf : sm.LineWF zix) (bounded : zix < 128) (inside : i < 64) :
    sm.lineByte zix i ∈ sm.vals := by
  have valid := wf.values i inside
  unfold SecMap.vals
  rw [Multiset.mem_add]
  by_cases direct : sm.IsDirect zix
  · left
    rw [Multiset.mem_sum]
    refine ⟨zix, Finset.mem_range.mpr bounded, ?_⟩
    unfold SecMap.lineByte at valid ⊢
    rw [if_neg direct] at valid ⊢
    unfold LineZ.vals
    rw [if_neg direct]
    exact LineZ.mem_counted_of (readTwobitArray_lt _ _) valid
  · right
    obtain ⟨small, inUse⟩ := wf.inUse direct
    rw [Multiset.mem_sum]
    refine ⟨_, Finset.mem_range.mpr small, ?_⟩
    unfold SecMap.lineByte LineF.vals LineF.counted
    rw [if_pos (not_not.mp direct), if_pos inUse]
    exact List.mem_map_of_mem (List.mem_range.mpr inside)

namespace SecMap

variable {sm : SecMap α} {zix : Nat} {csvals : List (CountedSVal α)}

private theorem park_returns {lineZ start : LineZ α} {i : Nat}
    (lines : sm.LinesWF (· ≠ zix)) (bounded : zix < 128)
    (valid : ∀ sv ∈ expand csvals, sv ≠ invalid)
    (whole : (expand csvals).length = 64)
    (compressed : Compressed (expand csvals) start (lineZ, i)) :
    Returns (sm.park zix csvals lineZ i)
      (Parked sm zix fun i => (expand csvals).getD i invalid) := by
  obtain ⟨-, ⟨all, compressing⟩ | stopped⟩ := compressed
  · dsimp only at all
    unfold park
    have full : i = 64 := all.trans whole
    rw [if_pos full]
    have direct := compressing.started (by omega)
    rw [tlAssert_of direct, ok_bind]
    apply Returns.pure
    have holds := compressing.holds
    rw [whole] at holds
    have bytes : ∀ k < 64, lineZ.dict (readTwobitArray lineZ.ix2s k) =
        (expand csvals).getD k invalid := by
      intro k small
      rw [List.getD_eq_getElem?_getD, holds k small]
      rfl
    have parked := parked_setLineZ lineZ lines bounded direct ?_ ?_
    · exact { parked with
        here := fun k small => (parked.here k small).trans (bytes k small)
        values := fun sv member => by
          obtain ⟨k, small, same⟩ := parked.values sv member
          exact ⟨k, small, (bytes k small).symm.trans same⟩ }
    · intro k small
      exact valid _ (List.mem_of_getElem? (holds k small))
    · intro sv member
      obtain ⟨present, j, slot⟩ := LineZ.mem_counted direct member
      obtain empty | listed := compressing.values j
      · exact absurd (slot.symm.trans empty) present
      · rw [slot] at listed
        obtain ⟨k, small, same⟩ := List.mem_iff_getElem.mp listed
        refine ⟨k, by omega, ?_⟩
        have known := holds k (by omega)
        rw [List.getElem?_eq_getElem small, same] at known
        exact (Option.some.inj known).symm
  · dsimp only at stopped
    unfold park
    rw [if_neg (by omega), tlAssert_of (by omega), ok_bind]
    apply (allocFForWriting_returns zix).bind
    rintro ⟨grown, fix⟩ found
    have linesGrown : grown.LinesWF (· ≠ zix) := by
      refine ⟨fun z small different =>
        found.lines z (lines.line z small different), ?_⟩
      have same : grown.linesZ = sm.linesZ := found.linesZ
      unfold IsDirect
      rw [same]
      exact lines.own
    have inside : fix < grown.linesFSize := found.bounded
    have free : (grown.linesF fix).inUse = false := found.free
    dsimp only
    rw [tlAssert_of (by omega), ok_bind, tlAssert_of inside, ok_bind,
      tlAssert_of free, ok_bind, tlAssert_of whole, ok_bind]
    apply Returns.pure
    have values : ∀ i < 64, (expand csvals).getD i invalid ≠ invalid := by
      intro k small
      have inside : k < (expand csvals).length := by omega
      rw [List.getD_eq_getElem?_getD, List.getElem?_eq_getElem inside]
      exact valid _ (List.getElem_mem inside)
    have parked := parked_setLineF
      { lineZ with dict := fun _ => invalid, fix := fix }
      ⟨true, fun i => (expand csvals).getD i invalid⟩ linesGrown bounded
      inside free rfl rfl rfl values
    refine { parked with others := ?_, ledger := ?_ }
    · intro z small different i
      rw [parked.others z small different i]
      exact found.bytes z (lines.line z small different) i
    · rw [parked.ledger, found.otherVals]

private theorem writeLine_returns (wf : sm.WF) (bounded : zix < 128)
    (sane : ∀ csval ∈ csvals, csval.Sane)
    (whole : (expand csvals).length = 64) :
    Returns (sm.writeLine zix csvals)
      (Rewritten sm zix fun i => (expand csvals).getD i invalid) := by
  unfold writeLine
  apply (release_returns wf bounded).bind
  rintro ⟨released, decs⟩ first
  have short := length_le_length_expand
    fun csval member => (sane csval member).positive
  have nonempty : 1 ≤ csvals.length := by
    cases csvals with
    | nil => cases whole
    | cons csval rest => simp
  dsimp only
  rw [tlAssert_of ⟨nonempty, by omega⟩, ok_bind]
  have valid := expand_valid sane
  have empty : Compressing (expand csvals)
      { released.linesZ zix with dict := fun _ => invalid }
      ([] : List α).length :=
    ⟨fun k impossible => absurd impossible (by simp), fun _ j _ => rfl,
      fun impossible => absurd impossible (by simp), fun j => .inl rfl⟩
  apply (compress_returns sane valid (List.nil_append _).symm empty).bind
  rintro ⟨lineZ, i⟩ compressed
  apply (park_returns first.lines bounded valid whole compressed).bind
  rintro ⟨parked, incs⟩ second
  exact Returns.pure (first.rewritten second)

theorem setLine_returns {svNew : α} (wf : sm.WF) (bounded : zix < 128)
    (valid : svNew ≠ invalid) :
    Returns (sm.setLine zix svNew) (Rewritten sm zix fun _ => svNew) := by
  unfold setLine
  apply (release_returns wf bounded).bind
  rintro ⟨released, decs⟩ first
  have direct := LineZ.uniform_first svNew (released.linesZ zix).fix
  have bytes := LineZ.uniform_byte svNew (released.linesZ zix).fix
  have counted := LineZ.uniform_counted svNew (released.linesZ zix).fix
  dsimp only
  rw [tlAssert_of (by rw [direct]; exact valid), ok_bind]
  apply Returns.pure
  have parked := parked_setLineZ
    (LineZ.uniform svNew (released.linesZ zix).fix) first.lines bounded
    (by rw [direct]; exact valid)
    (fun i _ => by rw [bytes i]; exact valid)
    (fun sv member => ⟨0, by decide, by
      rw [counted, List.mem_singleton] at member
      rw [bytes 0, member]⟩)
  simp only [bytes] at parked
  exact first.rewritten parked

private theorem readLine_returns (wf : sm.WF) (bounded : zix < 128) :
    Returns (sm.readLine zix) fun svals =>
      ∀ i < 64, svals i = sm.lineByte zix i := by
  have line := wf.line zix bounded trivial
  have values := line.values
  unfold readLine
  unfold lineByte at values ⊢
  split
  · rename_i indirect
    obtain ⟨inside, inUse⟩ := line.inUse (not_not_intro indirect)
    rw [getLineF_of inside inUse, ok_bind]
    exact Returns.pure fun i _ => rfl
  · rename_i direct
    simp only [if_neg direct] at values
    unfold LineZ.expand
    rw [tlAssert_of values, ok_bind]
    exact Returns.pure fun i _ => rfl

end SecMap

end Values

section Values

variable [DecidableEq α] [ShadowVal α]

namespace SecMap

private theorem alloc_lineByte (z i : Nat) :
    (SecMap.alloc : SecMap α).lineByte z i = noAccess := by
  have direct := LineZ.uniform_first (noAccess : α) 0
  have present : (LineZ.uniform (noAccess : α) 0).dict 0 ≠ invalid := by
    rw [direct]
    exact ShadowVal.noAccess_ne_invalid
  unfold lineByte alloc
  rw [if_neg present]
  exact LineZ.uniform_byte noAccess 0 i

omit [DecidableEq α] in
theorem alloc_isDirect (z : Nat) : (SecMap.alloc : SecMap α).IsDirect z := by
  change (LineZ.uniform (noAccess : α) 0).dict 0 ≠ invalid
  rw [LineZ.uniform_first]
  exact ShadowVal.noAccess_ne_invalid

private theorem alloc_wf : (SecMap.alloc : SecMap α).WF := by
  refine ⟨fun z _ _ => ⟨fun i _ => ?_, ?_⟩, ?_⟩
  · rw [alloc_lineByte]
    exact ShadowVal.noAccess_ne_invalid
  · intro indirect
    exact absurd (alloc_isDirect z) indirect
  · intro z _ z' _ _ _ indirect
    exact absurd (alloc_isDirect z) indirect

private theorem alloc_vals : (SecMap.alloc : SecMap α).vals =
    Multiset.replicate 128 noAccess := by
  have line : ∀ z ∈ Finset.range 128,
      ((SecMap.alloc : SecMap α).linesZ z).vals = {noAccess} := by
    intro z _
    have counted := LineZ.uniform_counted (noAccess : α) 0
    have direct := alloc_isDirect (α := α) z
    unfold LineZ.vals
    rw [if_neg direct]
    exact congrArg _ counted
  unfold vals
  rw [Finset.sum_congr rfl line]
  simp [alloc, Multiset.nsmul_singleton]

end SecMap

namespace Store

variable {st : Store α} {tag ga : Nat}

def byte (st : Store α) (a : Nat) : α :=
  match st.mapShmem.lookup (roundToSecMapBase a) with
  | some sm => (st.secMaps sm).lineByte (getSecMapOffset a / 64) (a % 64)
  | none => noAccess

def vals (st : Store α) : Multiset α :=
  ∑ sm ∈ Finset.range st.secMapsAllocd, (st.secMaps sm).vals

omit [DecidableEq α] [ShadowVal α] in
/-- An entry of `smCache` that says what the map says, or that is not used. -/
def EntOk (st : Store α) (ent : SMCacheEnt) : Prop :=
  ent.gaKey = 1 ∨ st.mapShmem.lookup ent.gaKey = some ent.sm

structure WF (st : Store α) : Prop where
  allocd : ∀ gaKey sm, st.mapShmem.lookup gaKey = some sm →
    sm < st.secMapsAllocd
  own : ∀ gaKey gaKey' sm, st.mapShmem.lookup gaKey = some sm →
    st.mapShmem.lookup gaKey' = some sm → gaKey = gaKey'
  ent₀ : st.EntOk st.smCache₀
  ent₁ : st.EntOk st.smCache₁
  ent₂ : st.EntOk st.smCache₂
  secMap : ∀ sm < st.secMapsAllocd, (st.secMaps sm).WF

theorem init_wf : (Store.init : Store α).WF := by
  constructor
  · intro gaKey sm bound
    cases bound
  · intro gaKey gaKey' sm bound
    cases bound
  · exact .inl rfl
  · exact .inl rfl
  · exact .inl rfl
  · intro sm bounded
    cases bounded

theorem WF.byte_ne_invalid (wf : st.WF) (a : Nat) : st.byte a ≠ invalid := by
  unfold byte
  split
  · rename_i sm bound
    have small : getSecMapOffset a / 64 < 128 := by
      unfold getSecMapOffset
      omega
    exact ((wf.secMap sm (wf.allocd _ _ bound)).line _ small trivial).values _
      (Nat.mod_lt _ (by decide))
  · exact ShadowVal.noAccess_ne_invalid

theorem WF.byte_mem_vals (wf : st.WF) (a : Nat) :
    st.byte a = noAccess ∨ st.byte a ∈ st.vals := by
  unfold byte
  split
  · rename_i sm bound
    right
    have allocd := wf.allocd _ _ bound
    have small : getSecMapOffset a / 64 < 128 := by
      unfold getSecMapOffset
      omega
    unfold vals
    rw [Multiset.mem_sum]
    exact ⟨sm, Finset.mem_range.mpr allocd,
      ((wf.secMap sm allocd).line _ small trivial).mem_vals small
        (Nat.mod_lt _ (by decide))⟩
  · exact .inl rfl

omit [DecidableEq α] [ShadowVal α] in
/-- The same store apart from the entries of `smCache`. -/
structure SameMaps (st after : Store α) : Prop where
  secMaps : after.secMaps = st.secMaps
  allocd : after.secMapsAllocd = st.secMapsAllocd
  map : after.mapShmem = st.mapShmem

omit [DecidableEq α] [ShadowVal α] in
theorem EntOk.hit {ent : SMCacheEnt} (ok : st.EntOk ent)
    (hit : roundToSecMapBase ga = ent.gaKey) :
    st.mapShmem.lookup (roundToSecMapBase ga) = some ent.sm := by
  obtain unused | known := ok
  · unfold roundToSecMapBase at hit
    omega
  · rw [hit]
    exact known

private theorem findSecMap_spec (wf : st.WF) (ga : Nat) :
    (st.findSecMap ga).1.WF ∧ SameMaps st (st.findSecMap ga).1 ∧
      (st.findSecMap ga).2 =
        st.mapShmem.lookup (roundToSecMapBase ga) := by
  unfold findSecMap
  dsimp only
  split_ifs with hit₀ hit₁ hit₂
  · exact ⟨wf, ⟨rfl, rfl, rfl⟩, (wf.ent₀.hit hit₀).symm⟩
  · exact ⟨{ wf with ent₀ := wf.ent₁, ent₁ := wf.ent₀ }, ⟨rfl, rfl, rfl⟩,
      (wf.ent₁.hit hit₁).symm⟩
  · exact ⟨{ wf with ent₁ := wf.ent₂, ent₂ := wf.ent₁ }, ⟨rfl, rfl, rfl⟩,
      (wf.ent₂.hit hit₂).symm⟩
  · split
    · rename_i sm bound
      exact ⟨{ wf with
        ent₀ := .inr bound, ent₁ := wf.ent₀, ent₂ := wf.ent₁ },
        ⟨rfl, rfl, rfl⟩, bound.symm⟩
    · rename_i unbound
      exact ⟨wf, ⟨rfl, rfl, rfl⟩, unbound.symm⟩

/-- The `SecMap` of an address has been found, or made. -/
structure Found (st : Store α) (ga : Nat) (result : Store α × Nat) :
    Prop where
  wf : result.1.WF
  bound : result.1.mapShmem.lookup (roundToSecMapBase ga) = some result.2
  bytes : ∀ a, result.1.byte a = st.byte a
  vals : ∃ n, result.1.vals = st.vals + Multiset.replicate n noAccess

theorem SameMaps.byte {after : Store α} (same : SameMaps st after)
    (a : Nat) : after.byte a = st.byte a := by
  unfold Store.byte
  rw [same.map, same.secMaps]

theorem SameMaps.vals {after : Store α} (same : SameMaps st after) :
    after.vals = st.vals := by
  unfold Store.vals
  rw [same.allocd, same.secMaps]

private theorem addSecMap_found (wf : st.WF)
    (unbound : st.mapShmem.lookup (roundToSecMapBase ga) = none) :
    Found st ga (st.addSecMap ga, st.secMapsAllocd) := by
  -- the entries of `smCache` are about other addresses
  have entries : ∀ ent, st.EntOk ent → (st.addSecMap ga).EntOk ent := by
    intro ent ok
    obtain unused | known := ok
    · exact .inl unused
    · right
      have apart : ent.gaKey ≠ roundToSecMapBase ga := by
        intro same
        rw [same, unbound] at known
        cases known
      unfold addSecMap
      rw [AList.lookup_insert_ne apart]
      exact known
  have bound : (st.addSecMap ga).mapShmem.lookup (roundToSecMapBase ga) =
      some st.secMapsAllocd := AList.lookup_insert _
  have others : ∀ gaKey, gaKey ≠ roundToSecMapBase ga →
      (st.addSecMap ga).mapShmem.lookup gaKey =
        st.mapShmem.lookup gaKey :=
    fun gaKey apart => AList.lookup_insert_ne apart
  have old : ∀ sm < st.secMapsAllocd,
      (st.addSecMap ga).secMaps sm = st.secMaps sm :=
    fun sm bounded => Function.update_of_ne bounded.ne _ _
  have new : (st.addSecMap ga).secMaps st.secMapsAllocd = SecMap.alloc :=
    Function.update_self ..
  refine ⟨⟨?_, ?_, entries _ wf.ent₀, entries _ wf.ent₁, entries _ wf.ent₂,
    ?_⟩, bound, ?_, 128, ?_⟩
  · intro gaKey sm known
    by_cases here : gaKey = roundToSecMapBase ga
    · rw [here, bound] at known
      cases known
      exact Nat.lt_succ_self _
    · rw [others gaKey here] at known
      exact Nat.lt_succ_of_lt (wf.allocd gaKey sm known)
  · intro gaKey gaKey' sm known known'
    by_cases here : gaKey = roundToSecMapBase ga
    · by_cases here' : gaKey' = roundToSecMapBase ga
      · rw [here, here']
      · rw [here, bound] at known
        rw [others gaKey' here'] at known'
        cases known
        exact absurd (wf.allocd gaKey' _ known') (Nat.lt_irrefl _)
    · rw [others gaKey here] at known
      by_cases here' : gaKey' = roundToSecMapBase ga
      · rw [here', bound] at known'
        cases known'
        exact absurd (wf.allocd gaKey _ known) (Nat.lt_irrefl _)
      · rw [others gaKey' here'] at known'
        exact wf.own gaKey gaKey' sm known known'
  · intro sm bounded
    obtain small | rfl := Nat.lt_succ_iff_lt_or_eq.mp bounded
    · rw [old sm small]
      exact wf.secMap sm small
    · rw [new]
      exact SecMap.alloc_wf
  · intro a
    unfold Store.byte
    by_cases here : roundToSecMapBase a = roundToSecMapBase ga
    · dsimp only
      rw [here, bound, unbound]
      dsimp only
      rw [new, SecMap.alloc_lineByte]
    · dsimp only
      rw [others _ here]
      split
      · rename_i sm known
        rw [old sm (wf.allocd _ _ known)]
      · rfl
  · unfold Store.vals
    change ∑ sm ∈ Finset.range (st.secMapsAllocd + 1),
      ((st.addSecMap ga).secMaps sm).vals = _
    have kept : ∀ sm ∈ Finset.range st.secMapsAllocd,
        ((st.addSecMap ga).secMaps sm).vals = (st.secMaps sm).vals := by
      intro sm bounded
      rw [old sm (Finset.mem_range.mp bounded)]
    rw [Finset.sum_range_succ, new, SecMap.alloc_vals,
      Finset.sum_congr rfl kept]

private theorem findOrAllocSecMap_found (wf : st.WF) (ga : Nat) :
    Found st ga (st.findOrAllocSecMap ga) := by
  obtain ⟨wfFound, same, result⟩ := findSecMap_spec wf ga
  unfold findOrAllocSecMap
  split
  · rename_i found sm equation
    rw [equation] at wfFound same result
    refine ⟨wfFound, ?_, same.byte, 0, ?_⟩
    · rw [same.map]
      exact result.symm
    · simpa using same.vals
  · rename_i found equation
    rw [equation] at wfFound same result
    have unbound : found.mapShmem.lookup (roundToSecMapBase ga) = none := by
      rw [same.map]
      exact result.symm
    have added := addSecMap_found wfFound unbound
    obtain ⟨n, vals⟩ := added.vals
    refine { wf := added.wf, bound := added.bound, bytes := ?_, vals := ⟨n, ?_⟩ }
    · intro a
      exact (added.bytes a).trans (same.byte a)
    · rw [← same.vals]
      exact vals

/-- A function that works on one line is called on a well-formed section. -/
theorem onLine_returns {β : Type}
    {work : SecMap α → Nat → Except Abort (SecMap α × β)}
    {post : SecMap α → SecMap α × β → Prop} (wf : st.WF)
    (aligned : tag % 64 = 0)
    (works : ∀ sm, sm.WF → getSecMapOffset tag / 64 < 128 →
      Returns (work sm (getSecMapOffset tag / 64)) (post sm)) :
    Returns (st.onLine tag work) fun result =>
      ∃ found secMap, Found st tag found ∧
        post (found.1.secMaps found.2) (secMap, result.2) ∧
        result.1 = found.1.setSecMap found.2 secMap := by
  have found := findOrAllocSecMap_found wf tag
  unfold onLine
  revert found
  obtain ⟨located, sm⟩ := st.findOrAllocSecMap tag
  intro found
  dsimp only
  have offset : getSecMapOffset tag % 64 = 0 := by
    unfold getSecMapOffset
    omega
  have bounded : getSecMapOffset tag / 64 < 128 := by
    unfold getSecMapOffset
    omega
  rw [tlAssert_of offset, ok_bind, tlAssert_of bounded, ok_bind]
  have sane := found.wf.secMap sm (found.wf.allocd _ _ found.bound)
  apply (works _ sane bounded).bind
  rintro ⟨secMap, result⟩ holds
  exact Returns.pure ⟨(located, sm), secMap, found, holds, rfl⟩

/-- The line of `tag` has got the given contents. -/
structure Rewritten (st : Store α) (tag : Nat) (content : Nat → α)
    (result : Store α × List (RcEvent α)) : Prop where
  wf : result.1.WF
  bytes : ∀ a, result.1.byte a =
    if a / 64 * 64 = tag then content (a % 64) else st.byte a
  ledger : RcEvent.Ledger noAccess st.vals result.2 result.1.vals
  incs : ∀ sv, .inc sv ∈ result.2 → ∃ i < 64, content i = sv

theorem Found.rewritten {found : Store α × Nat} {secMap : SecMap α}
    {content : Nat → α} {events : List (RcEvent α)}
    (found' : Found st tag found) (aligned : tag % 64 = 0)
    (written : SecMap.Rewritten (found.1.secMaps found.2)
      (getSecMapOffset tag / 64) content (secMap, events)) :
    Rewritten st tag content
      (found.1.setSecMap found.2 secMap, events) := by
  obtain ⟨located, sm⟩ := found
  obtain ⟨wf, bound, bytes, n, vals⟩ := found'
  dsimp only at wf bound bytes vals written
  have bounded : sm < located.secMapsAllocd := wf.allocd _ _ bound
  have here : (located.setSecMap sm secMap).secMaps sm = secMap :=
    Function.update_self ..
  have others : ∀ other, other ≠ sm →
      (located.setSecMap sm secMap).secMaps other = located.secMaps other :=
    fun other different => Function.update_of_ne different ..
  refine ⟨{ wf with secMap := ?_ }, ?_, ⟨n, ?_⟩, written.incs⟩
  · intro other inside
    by_cases same : other = sm
    · rw [same, here]
      exact written.wf
    · rw [others other same]
      exact wf.secMap other inside
  · intro a
    dsimp only
    rw [← bytes a]
    unfold Store.byte
    change (match located.mapShmem.lookup (roundToSecMapBase a) with
      | some other => ((located.setSecMap sm secMap).secMaps other).lineByte
          (getSecMapOffset a / 64) (a % 64)
      | none => noAccess) = _
    by_cases sameMap : roundToSecMapBase a = roundToSecMapBase tag
    · rw [sameMap, bound]
      dsimp only
      rw [here]
      have small : getSecMapOffset a / 64 < 128 := by
        unfold getSecMapOffset
        omega
      by_cases sameLine : getSecMapOffset a / 64 = getSecMapOffset tag / 64
      · have line : a / 64 * 64 = tag := by
          unfold roundToSecMapBase getSecMapOffset at *
          omega
        rw [if_pos line, sameLine]
        exact written.here _ (Nat.mod_lt _ (by decide))
      · have line : a / 64 * 64 ≠ tag := by
          unfold roundToSecMapBase getSecMapOffset at *
          omega
        rw [if_neg line]
        exact written.others _ small sameLine _
    · have line : a / 64 * 64 ≠ tag := by
        unfold roundToSecMapBase at sameMap
        omega
      rw [if_neg line]
      cases known : located.mapShmem.lookup (roundToSecMapBase a) with
      | some other =>
          have different : other ≠ sm := by
            rintro rfl
            exact sameMap (wf.own _ _ _ known bound)
          dsimp only
          rw [others other different]
      | none => rfl
  · rw [← vals]
    unfold Store.vals
    have member := Finset.mem_range.mpr bounded
    have rest : ∀ other ∈ (Finset.range located.secMapsAllocd).erase sm,
        ((located.setSecMap sm secMap).secMaps other).vals =
          (located.secMaps other).vals := by
      intro other listed
      rw [others other (Finset.mem_erase.mp listed).1]
    change RcEvent.Replays _ _
      (∑ other ∈ Finset.range located.secMapsAllocd,
        ((located.setSecMap sm secMap).secMaps other).vals)
    rw [← Finset.add_sum_erase _ _ member,
      ← Finset.add_sum_erase (Finset.range located.secMapsAllocd) _ member,
      Finset.sum_congr rfl rest, here]
    exact written.ledger.frame _

theorem cachelineWback_returns {cl : CacheLine α} (wf : st.WF)
    (aligned : tag % 64 = 0) (sane : cl.Sane) :
    Returns (st.cachelineWback tag cl) (Rewritten st tag cl.byte) := by
  have runs := CacheLine.sequentialise_sane sane
  have content := CacheLine.expand_sequentialise sane
  have whole : (expand cl.sequentialise).length = 64 := by
    rw [content]
    simp
  have written : ∀ sm : SecMap α, sm.WF → getSecMapOffset tag / 64 < 128 →
      Returns (sm.writeLine (getSecMapOffset tag / 64) cl.sequentialise)
        (SecMap.Rewritten sm (getSecMapOffset tag / 64)
          fun i => (expand cl.sequentialise).getD i invalid) :=
    fun sm wf bounded => SecMap.writeLine_returns wf bounded runs whole
  have bytes : ∀ i < 64,
      (expand cl.sequentialise).getD i invalid = cl.byte i := by
    intro i small
    rw [content]
    simp [small]
  apply (onLine_returns wf aligned written).mono
  rintro ⟨after, events⟩ ⟨found, secMap, located, holds, rfl⟩
  apply located.rewritten aligned
  exact { holds with
    here := fun i small => (holds.here i small).trans (bytes i small)
    incs := fun sv member => by
      obtain ⟨i, small, same⟩ := holds.incs sv member
      exact ⟨i, small, (bytes i small).symm.trans same⟩ }

theorem setLine_returns {svNew : α} (wf : st.WF) (aligned : tag % 64 = 0)
    (valid : svNew ≠ invalid) :
    Returns (st.setLine tag svNew) (Rewritten st tag fun _ => svNew) := by
  have written : ∀ sm : SecMap α, sm.WF → getSecMapOffset tag / 64 < 128 →
      Returns (sm.setLine (getSecMapOffset tag / 64) svNew)
        (SecMap.Rewritten sm (getSecMapOffset tag / 64) fun _ => svNew) :=
    fun sm wf bounded => SecMap.setLine_returns wf bounded valid
  apply (onLine_returns wf aligned written).mono
  rintro ⟨after, events⟩ ⟨found, secMap, located, holds, rfl⟩
  exact located.rewritten aligned holds

/-- A line has been read into the cache. -/
structure Fetched (st : Store α) (tag : Nat)
    (result : Store α × CacheLine α) : Prop where
  wf : result.1.WF
  bytes : ∀ a, result.1.byte a = st.byte a
  ledger : RcEvent.Ledger noAccess st.vals [] result.1.vals
  sane : result.2.Sane
  line : ∀ a, a / 64 * 64 = tag → result.2.byte (a % 64) = st.byte a

omit [DecidableEq α] [ShadowVal α] in
theorem setSecMap_self (sm : Nat) : st.setSecMap sm (st.secMaps sm) = st := by
  unfold setSecMap
  rw [Function.update_eq_self]

theorem cachelineFetch_returns (wf : st.WF) (aligned : tag % 64 = 0) :
    Returns (st.cachelineFetch tag) (Fetched st tag) := by
  unfold cachelineFetch
  rw [tlAssert_of aligned, ok_bind]
  have read : ∀ sm : SecMap α, sm.WF → getSecMapOffset tag / 64 < 128 →
      Returns (do
        let svals ← sm.readLine (getSecMapOffset tag / 64)
        pure (sm, svals) : Except Abort (SecMap α × (Nat → α)))
        fun result => result.1 = sm ∧ ∀ i < 64, result.2 i ≠ invalid ∧
          result.2 i = sm.lineByte (getSecMapOffset tag / 64) i := by
    intro sm wf bounded
    apply (SecMap.readLine_returns wf bounded).bind
    intro svals same
    apply Returns.pure
    refine ⟨rfl, fun i small => ⟨?_, same i small⟩⟩
    dsimp only
    rw [same i small]
    exact (wf.line _ bounded trivial).values i small
  apply (onLine_returns wf aligned read).bind
  rintro ⟨after, svals⟩ ⟨found, secMap, located, ⟨rfl, values⟩, rfl⟩
  dsimp only at values ⊢
  rw [setSecMap_self]
  have valid : ∀ i < 64, (⟨fun _ => 0#16, svals⟩ : CacheLine α).svals i ≠
      invalid := fun i small => (values i small).1
  apply (CacheLine.normalise_returns valid).bind
  intro cl holds
  apply Returns.pure
  obtain ⟨n, vals⟩ := located.vals
  refine ⟨located.wf, located.bytes, ⟨n, ?_⟩, holds.1, ?_⟩
  · dsimp only
    rw [vals]
    exact .nil _
  · intro a sameLine
    have small : a % 64 < 64 := Nat.mod_lt _ (by decide)
    dsimp only
    rw [holds.2 _ small, ← located.bytes a]
    unfold Store.byte
    have sameMap : roundToSecMapBase a = roundToSecMapBase tag := by
      unfold roundToSecMapBase
      omega
    have offset : getSecMapOffset a / 64 = getSecMapOffset tag / 64 := by
      unfold getSecMapOffset
      omega
    rw [sameMap, located.bound, offset]
    exact (values _ small).2

end Store

end Values

end HelgrindPlus
