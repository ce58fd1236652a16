import HelgrindPlus.Main.WordSet

/-!
# What word-set handles stand for

The table of vectors grows at its end only, so a handle keeps its set.  Equal
sets have equal handles, because every vector is sorted and stored once, and
the caches hold true statements about handles.
-/

namespace HelgrindPlus

open Outcome

namespace WordSetU

open WordVec

/-- The set that a handle stands for. -/
def Denotes (ix2vec : List (List Nat)) (ws : Nat) (set : Finset Nat) : Prop :=
  ∃ wv, ix2vec[ws]? = some wv ∧ wv.toFinset = set

/-- An entry of a cache is a true statement about the sets. -/
def EntSound (ix2vec : List (List Nat)) : CacheField → WCacheEnt → Prop
  | .addTo, ent => ∃ set, Denotes ix2vec ent.arg1 set ∧
      Denotes ix2vec ent.res (insert ent.arg2 set)
  | .delFrom, ent => ∃ set, Denotes ix2vec ent.arg1 set ∧
      Denotes ix2vec ent.res (set.erase ent.arg2)
  | .intersect, ent => ∃ set1 set2, Denotes ix2vec ent.arg1 set1 ∧
      Denotes ix2vec ent.arg2 set2 ∧ Denotes ix2vec ent.res (set1 ∩ set2)
  | .minus, ent => ∃ set1 set2, Denotes ix2vec ent.arg1 set1 ∧
      Denotes ix2vec ent.arg2 set2 ∧ Denotes ix2vec ent.res (set1 \ set2)

/-- A cache passes the checks of the lookup. -/
structure Fits (cache : WCache) : Prop where
  positive : 1 ≤ cache.dynMax
  bounded : cache.dynMax ≤ WCache.nWCacheStatMax
  inUse : cache.ent.length ≤ cache.dynMax

/-- The table of vectors and the caches, before the empty set is noted. -/
structure Table (wsu : WordSetU) : Prop where
  inverse : ∀ (wv : List Nat) (ix : Nat),
    (wv, ix) ∈ wsu.vec2ix ↔ wsu.ix2vec[ix]? = some wv
  injective : ∀ {ix jx : Nat} {wv : List Nat}, wsu.ix2vec[ix]? = some wv →
    wsu.ix2vec[jx]? = some wv → ix = jx
  sorted : ∀ {ix : Nat} {wv : List Nat}, wsu.ix2vec[ix]? = some wv →
    Sorted wv
  space : wsu.ix2vec.length ≤ wsu.ix2vecSize
  fits : ∀ field, Fits (wsu.caches field)
  sound : ∀ field, ∀ ent ∈ (wsu.caches field).ent,
    EntSound wsu.ix2vec field ent

structure WF (wsu : WordSetU) : Prop extends Table wsu where
  empty : wsu.ix2vec[wsu.empty]? = some []

section Meaning

variable {wsu wsu' : WordSetU} {ws w : Nat} {wv : List Nat}
  {set set1 set2 : Finset Nat} {before after : List (List Nat)}

private theorem getElem?_of_prefix {ix : Nat} (grown : before <+: after)
    (known : before[ix]? = some wv) : after[ix]? = some wv := by
  obtain ⟨more, rfl⟩ := grown
  have bound : ix < before.length := (List.getElem?_eq_some_iff.mp known).1
  rw [List.getElem?_append_left bound]
  exact known

/-- Handles keep their meaning. -/
theorem Denotes.mono (denotes : Denotes before ws set)
    (grown : before <+: after) : Denotes after ws set := by
  obtain ⟨wv, known, same⟩ := denotes
  exact ⟨wv, getElem?_of_prefix grown known, same⟩

theorem Denotes.lt (denotes : Denotes before ws set) : ws < before.length := by
  obtain ⟨wv, known, -⟩ := denotes
  exact (List.getElem?_eq_some_iff.mp known).1

theorem Denotes.unique (first : Denotes before ws set1)
    (second : Denotes before ws set2) : set1 = set2 := by
  obtain ⟨wv1, known1, rfl⟩ := first
  obtain ⟨wv2, known2, rfl⟩ := second
  rw [known1] at known2
  cases known2
  rfl

theorem EntSound.mono {field : CacheField} {ent : WCacheEnt}
    (sound : EntSound before field ent) (grown : before <+: after) :
    EntSound after field ent := by
  cases field with
  | addTo | delFrom =>
      obtain ⟨set, arg, res⟩ := sound
      exact ⟨set, arg.mono grown, res.mono grown⟩
  | intersect | minus =>
      obtain ⟨set1, set2, arg1, arg2, res⟩ := sound
      exact ⟨set1, set2, arg1.mono grown, arg2.mono grown, res.mono grown⟩

/-- Two handles are equal if they stand for the same set. -/
theorem Table.denotes_injective (table : Table wsu) {ws1 ws2 : Nat}
    (first : Denotes wsu.ix2vec ws1 set)
    (second : Denotes wsu.ix2vec ws2 set) : ws1 = ws2 := by
  obtain ⟨wv1, known1, same1⟩ := first
  obtain ⟨wv2, known2, same2⟩ := second
  have same : wv1 = wv2 := (table.sorted known1).eq_of_toFinset_eq
    (table.sorted known2) (same1.trans same2.symm)
  subst same
  exact table.injective known1 known2

theorem Table.doIx2vec_of (table : Table wsu)
    (known : wsu.ix2vec[ws]? = some wv) : wsu.doIx2vec ws = .ok wv := by
  simp [doIx2vec, tlAssert_of table.space, known]

theorem Table.lookupFM_eq_some (table : Table wsu) {wvOld : List Nat}
    {ix : Nat} (found : wsu.lookupFM wv = some (wvOld, ix)) :
    wvOld = wv ∧ wsu.ix2vec[ix]? = some wv := by
  have same := List.find?_some found
  have member := List.mem_of_find?_eq_some found
  simp only [decide_eq_true_eq, cmpForFM_eq_zero_iff] at same
  subst same
  exact ⟨rfl, (table.inverse _ _).mp member⟩

theorem Table.lookupFM_eq_none (table : Table wsu)
    (missing : wsu.lookupFM wv = none) (ix : Nat) :
    wsu.ix2vec[ix]? ≠ some wv := by
  intro known
  have member := (table.inverse wv ix).mpr known
  have differs := List.find?_eq_none.mp missing _ member
  simp [cmpForFM_eq_zero_iff] at differs

private theorem ensureIx2vecSpace_returns (table : Table wsu) :
    Returns wsu.ensureIx2vecSpace (fun wsu' =>
      wsu'.ix2vec.length < wsu'.ix2vecSize ∧
      ∃ size, wsu' = { wsu with ix2vecSize := size }) := by
  have space := table.space
  unfold ensureIx2vecSpace
  rw [tlAssert_of space, ok_bind]
  split
  case isTrue room => exact .pure ⟨room, _, rfl⟩
  case isFalse full =>
    refine .pure ⟨?_, _, rfl⟩
    dsimp only
    split <;> omega

/-- A vector that is not there yet. -/
theorem Table.push (table : Table wsu) {size : Nat}
    (sorted : Sorted wv) (missing : ∀ ix : Nat, wsu.ix2vec[ix]? ≠ some wv)
    (room : wsu.ix2vec.length < size) :
    Table { wsu with
      ix2vecSize := size
      ix2vec := wsu.ix2vec ++ [wv]
      vec2ix := (wv, wsu.ix2vec.length) :: wsu.vec2ix } where
  inverse := by
    intro other ix
    have old := table.inverse other ix
    have last : wsu.ix2vec[wsu.ix2vec.length]? = none := by simp
    simp only [List.mem_cons, Prod.mk.injEq, old, List.getElem?_append,
      List.getElem?_singleton]
    grind
  injective := by
    intro ix jx other known known'
    have old := @table.injective ix jx other
    have fresh := missing ix
    have fresh' := missing jx
    simp only [List.getElem?_append, List.getElem?_singleton] at known known'
    grind
  sorted := by
    intro ix other known
    rcases List.mem_append.mp (List.mem_of_getElem? known) with old | new
    · obtain ⟨jx, isOld⟩ := List.mem_iff_getElem?.mp old
      exact table.sorted isOld
    · rw [List.mem_singleton.mp new]
      exact sorted
  space := by simp; omega
  fits := table.fits
  sound := fun field ent member =>
    (table.sound field ent member).mono (List.prefix_append _ _)

/-- What every operation keeps: the table grows at its end only. -/
structure Grows (wsu wsu' : WordSetU) : Prop where
  table : Table wsu'
  grown : wsu.ix2vec <+: wsu'.ix2vec
  sameEmpty : wsu'.empty = wsu.empty

theorem Grows.wf (grows : Grows wsu wsu') (wf : WF wsu) : WF wsu' where
  toTable := grows.table
  empty := by
    rw [grows.sameEmpty]
    exact getElem?_of_prefix grows.grown wf.empty

theorem Table.addOrDealloc_returns (table : Table wsu) (sorted : Sorted wv) :
    Returns (wsu.addOrDeallocWordVec wv) (fun out =>
      Grows wsu out.1 ∧ out.1.ix2vec[out.2]? = some wv) := by
  unfold addOrDeallocWordVec
  cases found : wsu.lookupFM wv with
  | some entry =>
      obtain ⟨wvOld, ixOld⟩ := entry
      obtain ⟨rfl, known⟩ := table.lookupFM_eq_some found
      have bound : ixOld < wsu.ix2vec.length :=
        (List.getElem?_eq_some_iff.mp known).1
      simp only [tlAssert_of bound, tlAssert_of known, ok_bind]
      exact .pure ⟨⟨table, List.prefix_rfl, rfl⟩, known⟩
  | none =>
      dsimp only
      apply (ensureIx2vecSpace_returns table).bind
      rintro _ ⟨room, size, rfl⟩
      dsimp only at room ⊢
      have space : (wsu.ix2vec ++ [wv]).length ≤ size := by simp; omega
      rw [tlAssert_of room, ok_bind, tlAssert_of space, ok_bind]
      refine .pure ⟨⟨table.push sorted (table.lookupFM_eq_none found) room,
        List.prefix_append _ _, rfl⟩, ?_⟩
      simp

/-- An operation returns a handle of a given set. -/
def Yields (wsu : WordSetU) (set : Finset Nat) (out : WordSetU × Nat) :
    Prop :=
  Grows wsu out.1 ∧ Denotes out.1.ix2vec out.2 set

theorem Yields.of_denotes (table : Table wsu)
    (denotes : Denotes wsu.ix2vec ws set) : Yields wsu set (wsu, ws) :=
  ⟨⟨table, List.prefix_rfl, rfl⟩, denotes⟩

theorem Table.yields_vector (table : Table wsu) (sorted : Sorted wv)
    (same : wv.toFinset = set) :
    Returns (wsu.addOrDeallocWordVec wv) (Yields wsu set) :=
  (table.addOrDealloc_returns sorted).mono fun _ ⟨grows, known⟩ =>
    ⟨grows, wv, known, same⟩

section Caches

variable {cache : WCache} {arg1 arg2 : Nat}

private theorem sanityCheck_of_fits (fits : Fits cache) :
    cache.sanityCheck = .ok () := by
  simp [WCache.sanityCheck, tlAssert_of fits.positive,
    tlAssert_of fits.bounded, tlAssert_of fits.inUse]

theorem lookupFrom_eq_some {previous : WCacheEnt} {rest moved : List WCacheEnt}
    {res : Nat}
    (found : WCache.lookupFrom arg1 arg2 previous rest = some (moved, res)) :
    moved.Perm (previous :: rest) ∧ ⟨arg1, arg2, res⟩ ∈ rest := by
  induction rest generalizing previous moved with
  | nil => cases found
  | cons ent rest induction =>
      simp only [WCache.lookupFrom] at found
      split at found
      case isTrue hit =>
        obtain ⟨rfl, rfl⟩ := hit
        cases found
        exact ⟨.swap _ _ _, by simp⟩
      case isFalse miss =>
        obtain ⟨⟨below, value⟩, isFound, same⟩ := Option.map_eq_some_iff.mp found
        cases same
        obtain ⟨perm, member⟩ := induction isFound
        exact ⟨perm.cons previous, by simp [member]⟩

theorem lookup_returns (fits : Fits cache) :
    Returns (cache.lookup arg1 arg2) (fun out =>
      ∀ cache' res, out = some (cache', res) →
        cache'.dynMax = cache.dynMax ∧ cache'.ent.Perm cache.ent ∧
        ⟨arg1, arg2, res⟩ ∈ cache.ent) := by
  unfold WCache.lookup
  rw [sanityCheck_of_fits fits, ok_bind]
  cases entries : cache.ent with
  | nil => exact .pure (fun _ _ impossible => nomatch impossible)
  | cons ent rest =>
      dsimp only
      split
      case isTrue hit =>
        obtain ⟨rfl, rfl⟩ := hit
        refine .pure fun cache' res same => ?_
        cases same
        exact ⟨rfl, entries ▸ .refl _, by simp⟩
      case isFalse miss =>
        refine .pure fun cache' res same => ?_
        obtain ⟨⟨moved, value⟩, found, same⟩ := Option.map_eq_some_iff.mp same
        cases same
        obtain ⟨perm, member⟩ := lookupFrom_eq_some found
        exact ⟨rfl, perm, by simp [member]⟩

private theorem update_returns (fits : Fits cache) (res : Nat) :
    Returns (cache.update arg1 arg2 res) (fun cache' => Fits cache' ∧
      ∀ ent ∈ cache'.ent, ent = ⟨arg1, arg2, res⟩ ∨ ent ∈ cache.ent) := by
  unfold WCache.update
  rw [sanityCheck_of_fits fits, ok_bind]
  refine .pure ⟨⟨fits.positive, fits.bounded, ?_⟩, ?_⟩
  · exact List.length_take_le _ _
  · intro ent member
    exact List.mem_cons.mp (List.mem_of_mem_take member)

/-- A cache may be replaced by another one with true entries. -/
theorem Table.setCache (table : Table wsu) {field : CacheField}
    (fits : Fits cache)
    (sound : ∀ ent ∈ cache.ent, EntSound wsu.ix2vec field ent) :
    Table (wsu.setCache field cache) where
  inverse := table.inverse
  injective := table.injective
  sorted := table.sorted
  space := table.space
  fits := by
    intro other
    by_cases same : other = field
    · subst same
      simpa [WordSetU.setCache] using fits
    · simpa [WordSetU.setCache, same] using table.fits other
  sound := by
    intro other ent member
    by_cases same : other = field
    · subst same
      exact sound ent (by simpa [WordSetU.setCache] using member)
    · exact table.sound other ent
        (by simpa [WordSetU.setCache, same] using member)

/-- A cached operation: an entry that is hit has to say what the operation
computes, and the result must be worth noting. -/
theorem Table.cached_returns (table : Table wsu) {field : CacheField}
    {compute : Except Abort (WordSetU × Nat)}
    (hit : ∀ res, EntSound wsu.ix2vec field ⟨arg1, arg2, res⟩ →
      Denotes wsu.ix2vec res set)
    (computes : Returns compute (Yields wsu set))
    (note : ∀ {ix2vec : List (List Nat)} {res : Nat},
      wsu.ix2vec <+: ix2vec → Denotes ix2vec res set →
        EntSound ix2vec field ⟨arg1, arg2, res⟩) :
    Returns (wsu.cached field arg1 arg2 compute) (Yields wsu set) := by
  unfold cached
  apply (lookup_returns (table.fits field)).bind
  intro out found
  cases out with
  | some entry =>
      obtain ⟨cache', res⟩ := entry
      obtain ⟨sameMax, perm, member⟩ := found cache' res rfl
      have fits := table.fits field
      refine .pure ⟨⟨table.setCache ⟨?_, ?_, ?_⟩ ?_, List.prefix_rfl, rfl⟩,
        hit res (table.sound field _ member)⟩
      · exact sameMax ▸ fits.positive
      · exact sameMax ▸ fits.bounded
      · rw [sameMax, perm.length_eq]
        exact fits.inUse
      · intro ent isEntry
        exact table.sound field ent (perm.mem_iff.mp isEntry)
  | none =>
      apply computes.bind
      intro out yields
      obtain ⟨wsu', result⟩ := out
      obtain ⟨grows, denotes⟩ := yields
      apply (update_returns (grows.table.fits field) result).bind
      intro cache' updated
      obtain ⟨fits, entries⟩ := updated
      refine .pure ⟨⟨grows.table.setCache fits ?_, grows.grown,
        grows.sameEmpty⟩, denotes⟩
      intro ent isEntry
      rcases entries ent isEntry with rfl | old
      · exact note grows.grown denotes
      · exact grows.table.sound field ent old

end Caches

theorem newWordSetU_returns {cacheSize : Nat} (positive : 1 ≤ cacheSize)
    (bounded : cacheSize ≤ 32) :
    Returns (newWordSetU cacheSize) (fun wsu => WF wsu) := by
  have table : Table ⟨[], [], 0, 0, fun _ => ⟨[], cacheSize⟩⟩ :=
    { inverse := by simp
      injective := by simp
      sorted := by simp
      space := by simp
      fits := fun _ => ⟨positive, bounded, by simp⟩
      sound := by simp }
  have init : WCache.init cacheSize = .ok ⟨[], cacheSize⟩ := by
    have fits : cacheSize ≤ WCache.nWCacheStatMax := bounded
    unfold WCache.init
    rw [tlAssert_of positive, ok_bind, tlAssert_of fits]
    rfl
  unfold newWordSetU
  rw [init, ok_bind]
  apply (table.addOrDealloc_returns List.Pairwise.nil).bind
  intro out added
  obtain ⟨wsu, empty⟩ := out
  obtain ⟨grows, known⟩ := added
  exact .pure
    { inverse := grows.table.inverse
      injective := grows.table.injective
      sorted := grows.table.sorted
      space := grows.table.space
      fits := grows.table.fits
      sound := grows.table.sound
      empty := known }

theorem WF.denotes_empty (wf : WF wsu) :
    Denotes wsu.ix2vec wsu.emptyWS ∅ :=
  ⟨[], wf.empty, rfl⟩

theorem WF.eq_empty_iff (wf : WF wsu) (known : wsu.ix2vec[ws]? = some wv) :
    ws = wsu.empty ↔ wv.length = 0 := by
  constructor
  · intro same
    subst same
    rw [wf.empty] at known
    cases known
    rfl
  · intro none
    have empty : wv = [] := List.length_eq_zero_iff.mp none
    subst empty
    exact wf.injective known wf.empty

theorem WF.doubletonWS_returns (wf : WF wsu) (w1 w2 : Nat) :
    Returns (wsu.doubletonWS w1 w2) (Yields wsu {w1, w2}) := by
  have table := wf.toTable
  unfold doubletonWS
  split
  case isTrue same =>
    subst same
    exact table.yields_vector (List.pairwise_singleton _ _) (by simp)
  case isFalse different =>
    split
    case isTrue less =>
      exact table.yields_vector (by simpa using less) (by simp)
    case isFalse notLess =>
      have more : w1 > w2 := by omega
      rw [tlAssert_of more, ok_bind]
      refine table.yields_vector (by simpa using more) ?_
      simp [Finset.pair_comm]

theorem WF.singletonWS_returns (wf : WF wsu) (w : Nat) :
    Returns (wsu.singletonWS w) (Yields wsu {w}) := by
  have both := wf.doubletonWS_returns w w
  rwa [Finset.pair_eq_singleton] at both

theorem WF.addToWS_returns (wf : WF wsu)
    (denotes : Denotes wsu.ix2vec ws set) (w : Nat) :
    Returns (wsu.addToWS ws w) (Yields wsu (insert w set)) := by
  have table := wf.toTable
  apply table.cached_returns
  · intro res sound
    obtain ⟨set', arg, isRes⟩ := sound
    rw [arg.unique denotes] at isRes
    exact isRes
  · obtain ⟨wv, known, rfl⟩ := denotes
    have sorted := wf.sorted known
    unfold addToUncached
    rw [table.doIx2vec_of known, ok_bind]
    split
    case isTrue present =>
      refine .pure (Yields.of_denotes table ⟨wv, known, ?_⟩)
      exact (Finset.insert_eq_self.mpr (List.mem_toFinset.mpr present)).symm
    case isFalse absent =>
      have above := above_of_dropWhile sorted absent
      have count : (wv.takeWhile (· < w) ++ w :: wv.dropWhile (· < w)).length =
          wv.length + 1 := by
        have parts := congrArg List.length
          (List.takeWhile_append_dropWhile (p := (· < w)) (l := wv))
        simp only [List.length_append, List.length_cons] at parts ⊢
        omega
      simp only [tlAssert_of above, tlAssert_of count, ok_bind]
      exact table.yields_vector (sorted_insert sorted absent) toFinset_insert
  · intro ix2vec res grown isRes
    exact ⟨set, denotes.mono grown, isRes⟩

theorem WF.delFromUncached_returns (wf : WF wsu)
    (known : wsu.ix2vec[ws]? = some wv) (w : Nat) :
    Returns (wsu.delFromUncached ws w wv)
      (Yields wsu (wv.toFinset.erase w)) := by
  have table := wf.toTable
  have sorted := wf.sorted known
  unfold delFromUncached
  dsimp only
  split
  case isTrue missing =>
    have absent : w ∉ wv := List.idxOf_eq_length_iff.mp missing
    refine .ok (Yields.of_denotes table ⟨wv, known, ?_⟩)
    exact (Finset.erase_eq_of_notMem (by simpa using absent)).symm
  case isFalse isThere =>
    have bound : wv.idxOf w < wv.length :=
      lt_of_le_of_ne List.idxOf_le_length isThere
    have positive : wv.length > 0 := by omega
    have count : (wv.eraseIdx (wv.idxOf w)).length = wv.length - 1 :=
      List.length_eraseIdx_of_lt bound
    simp only [tlAssert_of bound, tlAssert_of positive, tlAssert_of count,
      ok_bind]
    apply (table.addOrDealloc_returns
      (sorted.sublist (List.eraseIdx_sublist _ _))).bind
    intro out added
    obtain ⟨wsu', result⟩ := out
    obtain ⟨grows, isResult⟩ := added
    have isEmpty : wv.length = 1 → result = wsu'.empty := by
      intro single
      apply ((grows.wf wf).eq_empty_iff isResult).mpr
      omega
    rw [tlAssert_of isEmpty, ok_bind]
    exact .pure ⟨grows, _, isResult, toFinset_eraseIdx sorted⟩

theorem WF.delFromWS_returns (wf : WF wsu)
    (denotes : Denotes wsu.ix2vec ws set) (w : Nat) :
    Returns (wsu.delFromWS ws w) (Yields wsu (set.erase w)) := by
  have table := wf.toTable
  obtain ⟨wv, known, rfl⟩ := denotes
  unfold delFromWS
  rw [table.doIx2vec_of known, ok_bind]
  split
  case isTrue none =>
    have empty : wv = [] := List.length_eq_zero_iff.mp none
    subst empty
    rw [tlAssert_of ((wf.eq_empty_iff known).mpr rfl), ok_bind]
    exact .pure (Yields.of_denotes table ⟨[], known, by simp⟩)
  case isFalse some =>
    apply table.cached_returns
    · intro res sound
      obtain ⟨set', arg, isRes⟩ := sound
      rw [arg.unique ⟨wv, known, rfl⟩] at isRes
      exact isRes
    · exact wf.delFromUncached_returns known w
    · intro ix2vec res grown isRes
      exact ⟨wv.toFinset, Denotes.mono ⟨wv, known, rfl⟩ grown, isRes⟩

theorem WF.mergeWS_returns (wf : WF wsu) (rule : MergeRule) {ws1 ws2 : Nat}
    (first : Denotes wsu.ix2vec ws1 set1)
    (second : Denotes wsu.ix2vec ws2 set2) :
    Returns (mergeWS rule wsu ws1 ws2) (fun out =>
      Yields wsu (rule.onSets set1 set2) (out.1, out.2.1) ∧
      (out.2.2 = 0 → out.2.1 = out.1.empty)) := by
  have table := wf.toTable
  obtain ⟨wv1, known1, rfl⟩ := first
  obtain ⟨wv2, known2, rfl⟩ := second
  have sorted1 := wf.sorted known1
  have sorted2 := wf.sorted known2
  have agree : (rule.fill wv1 wv2).length = rule.size wv1 wv2 :=
    MergeRule.length_fill
  unfold mergeWS
  simp only [table.doIx2vec_of known1, table.doIx2vec_of known2, ok_bind,
    tlAssert_of agree]
  apply (table.addOrDealloc_returns
    (MergeRule.sorted_fill sorted1 sorted2)).bind
  intro out added
  obtain ⟨wsu', wsNew⟩ := out
  obtain ⟨grows, isNew⟩ := added
  refine .pure ⟨⟨grows, _, isNew,
    MergeRule.toFinset_fill sorted1 sorted2⟩, ?_⟩
  intro none
  apply ((grows.wf wf).eq_empty_iff isNew).mpr
  rw [agree]
  exact none

theorem WF.unionWS_returns (wf : WF wsu) {ws1 ws2 : Nat}
    (first : Denotes wsu.ix2vec ws1 set1)
    (second : Denotes wsu.ix2vec ws2 set2) :
    Returns (wsu.unionWS ws1 ws2) (Yields wsu (set1 ∪ set2)) := by
  unfold unionWS
  apply (wf.mergeWS_returns unionRule first second).bind
  intro out merged
  rw [unionRule_onSets] at merged
  exact .pure merged.1

theorem WF.mergeChecked_returns (wf : WF wsu) (rule : MergeRule)
    {ws1 ws2 : Nat} (first : Denotes wsu.ix2vec ws1 set1)
    (second : Denotes wsu.ix2vec ws2 set2) :
    Returns (mergeChecked rule wsu ws1 ws2)
      (Yields wsu (rule.onSets set1 set2)) := by
  unfold mergeChecked
  apply (wf.mergeWS_returns rule first second).bind
  intro out merged
  dsimp only
  rw [tlAssert_of merged.2, ok_bind]
  exact .pure merged.1

theorem WF.intersectOrdered_returns (wf : WF wsu) {ws1 ws2 : Nat}
    (first : Denotes wsu.ix2vec ws1 set1)
    (second : Denotes wsu.ix2vec ws2 set2) :
    Returns (wsu.intersectOrdered ws1 ws2) (Yields wsu (set1 ∩ set2)) := by
  apply wf.toTable.cached_returns
  · intro res sound
    obtain ⟨set1', set2', arg1, arg2, isRes⟩ := sound
    rw [arg1.unique first, arg2.unique second] at isRes
    exact isRes
  · rw [← intersectRule_onSets]
    exact wf.mergeChecked_returns intersectRule first second
  · intro ix2vec res grown isRes
    exact ⟨set1, set2, first.mono grown, second.mono grown, isRes⟩

theorem WF.intersectWS_returns (wf : WF wsu) {ws1 ws2 : Nat}
    (first : Denotes wsu.ix2vec ws1 set1)
    (second : Denotes wsu.ix2vec ws2 set2) :
    Returns (wsu.intersectWS ws1 ws2) (Yields wsu (set1 ∩ set2)) := by
  unfold intersectWS
  split
  case isTrue same =>
    subst same
    rw [first.unique second, Finset.inter_self]
    exact .ok (Yields.of_denotes wf.toTable second)
  case isFalse different =>
    split
    · rw [Finset.inter_comm]
      exact wf.intersectOrdered_returns second first
    · exact wf.intersectOrdered_returns first second

theorem WF.minusWS_returns (wf : WF wsu) {ws1 ws2 : Nat}
    (first : Denotes wsu.ix2vec ws1 set1)
    (second : Denotes wsu.ix2vec ws2 set2) :
    Returns (wsu.minusWS ws1 ws2) (Yields wsu (set1 \ set2)) := by
  apply wf.toTable.cached_returns
  · intro res sound
    obtain ⟨set1', set2', arg1, arg2, isRes⟩ := sound
    rw [arg1.unique first, arg2.unique second] at isRes
    exact isRes
  · rw [← minusRule_onSets]
    exact wf.mergeChecked_returns minusRule first second
  · intro ix2vec res grown isRes
    exact ⟨set1, set2, first.mono grown, second.mono grown, isRes⟩

theorem WF.isSubsetOf_returns (wf : WF wsu) {small big : Nat}
    (first : Denotes wsu.ix2vec small set1)
    (second : Denotes wsu.ix2vec big set2) :
    Returns (wsu.isSubsetOf small big) (fun out =>
      Grows wsu out.1 ∧ (out.2 = true ↔ set1 ⊆ set2)) := by
  unfold isSubsetOf
  apply (wf.intersectWS_returns first second).bind
  intro out yields
  obtain ⟨wsu', common⟩ := out
  obtain ⟨grows, denotes⟩ := yields
  refine .pure ⟨grows, ?_⟩
  have first' := first.mono grows.grown
  rw [decide_eq_true_eq, ← Finset.inter_eq_left]
  constructor
  · intro same
    subst same
    exact denotes.unique first'
  · intro same
    rw [same] at denotes
    exact grows.table.denotes_injective first' denotes

/-- One operation enters one vector at most. -/
def AddsOne (wsu wsu' : WordSetU) : Prop :=
  wsu'.ix2vec.length ≤ wsu.ix2vec.length + 1

private theorem addOrDealloc_addsOne (wv : List Nat) :
    Satisfies (fun _ => True) (wsu.addOrDeallocWordVec wv)
      (AddsOne wsu ·.1) := by
  unfold addOrDeallocWordVec
  split
  · apply (Satisfies.any _).bind
    intro _ _
    apply (Satisfies.any _).bind
    intro _ _
    exact Nat.le_succ _
  · have roomy : Satisfies (fun _ => True) wsu.ensureIx2vecSpace
        (fun wsu' => wsu'.ix2vec = wsu.ix2vec) := by
      apply (Satisfies.any _).bind
      intro _ _
      split <;> rfl
    apply roomy.bind
    intro wsu' same
    apply (Satisfies.any _).bind
    intro _ _
    apply (Satisfies.any _).bind
    intro _ _
    simp [AddsOne, Satisfies, pure, Except.pure, same]

private theorem cached_addsOne {field : CacheField} {arg1 arg2 : Nat}
    {compute : Except Abort (WordSetU × Nat)}
    (adds : Satisfies (fun _ => True) compute (AddsOne wsu ·.1)) :
    Satisfies (fun _ => True) (cached field wsu arg1 arg2 compute)
      (AddsOne wsu ·.1) := by
  apply (Satisfies.any _).bind
  intro found _
  cases found with
  | some entry => exact Nat.le_succ _
  | none =>
      apply adds.bind
      intro out few
      apply (Satisfies.any _).bind
      intro _ _
      exact few

private theorem mergeChecked_addsOne (rule : MergeRule) (ws1 ws2 : Nat) :
    Satisfies (fun _ => True) (mergeChecked rule wsu ws1 ws2)
      (AddsOne wsu ·.1) := by
  have merged : Satisfies (fun _ => True) (mergeWS rule wsu ws1 ws2)
      (AddsOne wsu ·.1) := by
    apply (Satisfies.any _).bind
    intro wv1 _
    apply (Satisfies.any _).bind
    intro wv2 _
    apply (Satisfies.any _).bind
    intro _ _
    exact (addOrDealloc_addsOne _).bind fun out few => few
  apply merged.bind
  intro out few
  apply (Satisfies.any _).bind
  intro _ _
  exact few

theorem intersectWS_addsOne (ws1 ws2 : Nat) :
    Satisfies (fun _ => True) (wsu.intersectWS ws1 ws2)
      (AddsOne wsu ·.1) := by
  unfold intersectWS
  split
  · exact Nat.le_succ _
  · split <;> exact cached_addsOne (mergeChecked_addsOne _ _ _)

theorem WF.isEmptyWS_eq (wf : WF wsu) (denotes : Denotes wsu.ix2vec ws set) :
    wsu.isEmptyWS ws = .ok (decide (set = ∅)) := by
  obtain ⟨wv, known, rfl⟩ := denotes
  have empty := wf.eq_empty_iff known
  unfold isEmptyWS
  rw [wf.toTable.doIx2vec_of known, ok_bind]
  split
  case isTrue none =>
    rw [tlAssert_of (empty.mpr none), ok_bind]
    simp [List.length_eq_zero_iff.mp none]
    rfl
  case isFalse some =>
    have nonempty : wv ≠ [] := fun isNil => some (by simp [isNil])
    have different : ws ≠ wsu.empty := fun same => some (empty.mp same)
    rw [tlAssert_of different, ok_bind]
    simp [nonempty]
    rfl

theorem WF.elemWS_eq (wf : WF wsu) (denotes : Denotes wsu.ix2vec ws set)
    (w : Nat) : wsu.elemWS ws w = .ok (decide (w ∈ set)) := by
  obtain ⟨wv, known, rfl⟩ := denotes
  unfold elemWS
  rw [wf.toTable.doIx2vec_of known, ok_bind]
  simp
  rfl

theorem WF.cardinalityWS_eq (wf : WF wsu)
    (denotes : Denotes wsu.ix2vec ws set) :
    wsu.cardinalityWS ws = .ok set.card := by
  obtain ⟨wv, known, rfl⟩ := denotes
  have nodup : wv.Nodup :=
    (wf.sorted known).imp fun less => Nat.ne_of_lt less
  unfold cardinalityWS
  rw [wf.toTable.doIx2vec_of known, ok_bind, List.toFinset_card_of_nodup nodup]
  rfl

theorem WF.isSingletonWS_eq (wf : WF wsu)
    (denotes : Denotes wsu.ix2vec ws set) (w : Nat) :
    wsu.isSingletonWS ws w = .ok (decide (set = {w})) := by
  obtain ⟨wv, known, rfl⟩ := denotes
  have single : (wv.length = 1 ∧ wv[0]? = some w) ↔ wv.toFinset = {w} := by
    have vector : (wv.length = 1 ∧ wv[0]? = some w) ↔ wv = [w] := by
      cases wv with
      | nil => simp
      | cons first rest => cases rest <;> simp
    rw [vector]
    constructor
    · intro same
      simp [same]
    · intro same
      exact (wf.sorted known).eq_of_toFinset_eq (List.pairwise_singleton _ _)
        (by simpa using same)
  unfold isSingletonWS
  rw [wf.toTable.doIx2vec_of known, ok_bind]
  simp only [single]
  rfl

theorem WF.getPayloadWS_returns (wf : WF wsu)
    (denotes : Denotes wsu.ix2vec ws set) :
    Returns (wsu.getPayloadWS ws) (fun words =>
      Sorted words ∧ words.toFinset = set) := by
  obtain ⟨wv, known, same⟩ := denotes
  unfold getPayloadWS
  rw [wf.toTable.doIx2vec_of known]
  exact .ok ⟨wf.sorted known, same⟩

end Meaning
end WordSetU

/-- A call of the interface.  A set argument is given by the number of the
handle, in the order in which the handles were returned. -/
inductive SetCall where
  | emptyWS
  | singletonWS (w : Nat)
  | doubletonWS (w1 w2 : Nat)
  | addToWS (ws w : Nat)
  | delFromWS (ws w : Nat)
  | unionWS (ws1 ws2 : Nat)
  | intersectWS (ws1 ws2 : Nat)
  | minusWS (ws1 ws2 : Nat)
  | isSubsetOf (small big : Nat)
  deriving DecidableEq, Repr

namespace SetCall

/-- The sets that the calls define; no result if a handle is named that was
not returned before. -/
def onSets (sets : List (Finset Nat)) : SetCall → Option (List (Finset Nat))
  | .emptyWS => some (sets ++ [∅])
  | .singletonWS w => some (sets ++ [{w}])
  | .doubletonWS w1 w2 => some (sets ++ [{w1, w2}])
  | .addToWS ws w => do
      let set ← sets[ws]?
      pure (sets ++ [insert w set])
  | .delFromWS ws w => do
      let set ← sets[ws]?
      pure (sets ++ [set.erase w])
  | .unionWS ws1 ws2 => do
      let set1 ← sets[ws1]?
      let set2 ← sets[ws2]?
      pure (sets ++ [set1 ∪ set2])
  | .intersectWS ws1 ws2 => do
      let set1 ← sets[ws1]?
      let set2 ← sets[ws2]?
      pure (sets ++ [set1 ∩ set2])
  | .minusWS ws1 ws2 => do
      let set1 ← sets[ws1]?
      let set2 ← sets[ws2]?
      pure (sets ++ [set1 \ set2])
  | .isSubsetOf small big => do
      let _ ← sets[small]?
      let _ ← sets[big]?
      pure sets

def denotations (calls : List SetCall) : Option (List (Finset Nat)) :=
  calls.foldlM onSets []

end SetCall

namespace WordSetU

/-- A handle that was returned before. -/
def returned (handles : List Nat) (k : Nat) : Except Abort Nat :=
  match handles[k]? with
  | some ws => .ok ws
  | none => .error .dangling

/-- A call on two sets, and the handles after it. -/
def callOnTwo (operation : Nat → Nat → Except Abort (WordSetU × Nat))
    (handles : List Nat) (k1 k2 : Nat) :
    Except Abort (WordSetU × List Nat) := do
  let ws1 ← returned handles k1
  let ws2 ← returned handles k2
  let (wsu, res) ← operation ws1 ws2
  pure (wsu, handles ++ [res])

/-- A call on a set and a word. -/
def callOnWord (operation : Nat → Nat → Except Abort (WordSetU × Nat))
    (handles : List Nat) (k w : Nat) :
    Except Abort (WordSetU × List Nat) := do
  let ws ← returned handles k
  let (wsu, res) ← operation ws w
  pure (wsu, handles ++ [res])

def perform (st : WordSetU × List Nat) :
    SetCall → Except Abort (WordSetU × List Nat)
  | .emptyWS => .ok (st.1, st.2 ++ [st.1.emptyWS])
  | .singletonWS w => do
      let (wsu, res) ← st.1.singletonWS w
      pure (wsu, st.2 ++ [res])
  | .doubletonWS w1 w2 => do
      let (wsu, res) ← st.1.doubletonWS w1 w2
      pure (wsu, st.2 ++ [res])
  | .addToWS k w => callOnWord st.1.addToWS st.2 k w
  | .delFromWS k w => callOnWord st.1.delFromWS st.2 k w
  | .unionWS k1 k2 => callOnTwo st.1.unionWS st.2 k1 k2
  | .intersectWS k1 k2 => callOnTwo st.1.intersectWS st.2 k1 k2
  | .minusWS k1 k2 => callOnTwo st.1.minusWS st.2 k1 k2
  | .isSubsetOf k1 k2 => do
      let small ← returned st.2 k1
      let big ← returned st.2 k2
      let (wsu, _) ← st.1.isSubsetOf small big
      pure (wsu, st.2)

/-- The calls on a new universe, with the handles that they return. -/
def runCalls (cacheSize : Nat) (calls : List SetCall) :
    Except Abort (WordSetU × List Nat) := do
  let wsu ← newWordSetU cacheSize
  calls.foldlM perform (wsu, [])

/-- Handles and the sets that they stand for. -/
structure Represents (st : WordSetU × List Nat) (sets : List (Finset Nat)) :
    Prop where
  wf : WF st.1
  denote : List.Forall₂ (Denotes st.1.ix2vec) st.2 sets

section Calls

variable {st : WordSetU × List Nat} {sets sets' : List (Finset Nat)}
  {set set1 set2 : Finset Nat} {k k1 k2 : Nat}

theorem returned_of {handles : List Nat} {relation : Nat → Finset Nat → Prop}
    (denote : List.Forall₂ relation handles sets)
    (known : sets[k]? = some set) :
    Returns (returned handles k) (fun ws => relation ws set) := by
  induction denote generalizing k with
  | nil => cases known
  | @cons ws here handles rest isHere later induction =>
      cases k with
      | zero =>
          cases known
          exact .ok isHere
      | succ k => exact induction known

/-- The handles from before keep their meaning, and there is one more. -/
theorem Represents.push (represents : Represents st sets)
    {out : WordSetU × Nat} (yields : Yields st.1 set out) :
    Represents (out.1, st.2 ++ [out.2]) (sets ++ [set]) where
  wf := yields.1.wf represents.wf
  denote := List.rel_append (represents.denote.imp fun _ _ denotes =>
    denotes.mono yields.1.grown) (.cons yields.2 .nil)

/-- A call and the sets after it, and the table from before it. -/
def Keeps (st : WordSetU × List Nat) (sets' : List (Finset Nat))
    (st' : WordSetU × List Nat) : Prop :=
  Represents st' sets' ∧ st.1.ix2vec <+: st'.1.ix2vec ∧ st.2 <+: st'.2

theorem Represents.keeps (represents : Represents st sets)
    {operation : Except Abort (WordSetU × Nat)}
    (yields : Returns operation (Yields st.1 set)) :
    Returns (do
      let (wsu, res) ← operation
      pure (wsu, st.2 ++ [res])) (Keeps st (sets ++ [set])) := by
  apply yields.bind
  intro out yielded
  exact .pure ⟨represents.push yielded, yielded.1.grown,
    List.prefix_append _ _⟩

theorem Represents.callOnWord (represents : Represents st sets)
    {operation : Nat → Nat → Except Abort (WordSetU × Nat)} {w : Nat}
    {result : Finset Nat → Finset Nat}
    (yields : ∀ {ws : Nat} {set : Finset Nat}, Denotes st.1.ix2vec ws set →
      Returns (operation ws w) (Yields st.1 (result set)))
    (known : sets[k]? = some set) :
    Returns (callOnWord operation st.2 k w)
      (Keeps st (sets ++ [result set])) := by
  apply (returned_of represents.denote known).bind
  intro ws denotes
  exact represents.keeps (yields denotes)

theorem Represents.callOnTwo (represents : Represents st sets)
    {operation : Nat → Nat → Except Abort (WordSetU × Nat)}
    {result : Finset Nat → Finset Nat → Finset Nat}
    (yields : ∀ {ws1 ws2 : Nat} {set1 set2 : Finset Nat},
      Denotes st.1.ix2vec ws1 set1 → Denotes st.1.ix2vec ws2 set2 →
      Returns (operation ws1 ws2) (Yields st.1 (result set1 set2)))
    (known1 : sets[k1]? = some set1) (known2 : sets[k2]? = some set2) :
    Returns (callOnTwo operation st.2 k1 k2)
      (Keeps st (sets ++ [result set1 set2])) := by
  apply (returned_of represents.denote known1).bind
  intro ws1 denotes1
  apply (returned_of represents.denote known2).bind
  intro ws2 denotes2
  exact represents.keeps (yields denotes1 denotes2)

theorem Represents.isSubsetOf (represents : Represents st sets)
    (known1 : sets[k1]? = some set1) (known2 : sets[k2]? = some set2) :
    Returns (perform st (.isSubsetOf k1 k2)) (Keeps st sets) := by
  apply (returned_of represents.denote known1).bind
  intro small denotes1
  apply (returned_of represents.denote known2).bind
  intro big denotes2
  apply (represents.wf.isSubsetOf_returns denotes1 denotes2).bind
  intro out answered
  obtain ⟨grows, -⟩ := answered
  refine .pure ⟨⟨grows.wf represents.wf, ?_⟩, grows.grown, List.prefix_rfl⟩
  exact represents.denote.imp fun _ _ denotes => denotes.mono grows.grown

theorem Represents.perform (represents : Represents st sets)
    {call : SetCall} (defined : call.onSets sets = some sets') :
    Returns (perform st call) (Keeps st sets') := by
  have wf := represents.wf
  cases call with
  | emptyWS =>
      cases defined
      exact .ok ⟨represents.push
        (Yields.of_denotes wf.toTable wf.denotes_empty), List.prefix_rfl,
        List.prefix_append _ _⟩
  | singletonWS w =>
      cases defined
      exact represents.keeps (wf.singletonWS_returns w)
  | doubletonWS w1 w2 =>
      cases defined
      exact represents.keeps (wf.doubletonWS_returns w1 w2)
  | addToWS k w =>
      obtain ⟨set, known, same⟩ := Option.bind_eq_some_iff.mp defined
      cases same
      exact represents.callOnWord (fun denotes =>
        wf.addToWS_returns denotes w) known
  | delFromWS k w =>
      obtain ⟨set, known, same⟩ := Option.bind_eq_some_iff.mp defined
      cases same
      exact represents.callOnWord (fun denotes =>
        wf.delFromWS_returns denotes w) known
  | unionWS k1 k2 =>
      obtain ⟨set1, known1, rest⟩ := Option.bind_eq_some_iff.mp defined
      obtain ⟨set2, known2, same⟩ := Option.bind_eq_some_iff.mp rest
      cases same
      exact represents.callOnTwo wf.unionWS_returns known1 known2
  | intersectWS k1 k2 =>
      obtain ⟨set1, known1, rest⟩ := Option.bind_eq_some_iff.mp defined
      obtain ⟨set2, known2, same⟩ := Option.bind_eq_some_iff.mp rest
      cases same
      exact represents.callOnTwo wf.intersectWS_returns known1 known2
  | minusWS k1 k2 =>
      obtain ⟨set1, known1, rest⟩ := Option.bind_eq_some_iff.mp defined
      obtain ⟨set2, known2, same⟩ := Option.bind_eq_some_iff.mp rest
      cases same
      exact represents.callOnTwo wf.minusWS_returns known1 known2
  | isSubsetOf k1 k2 =>
      obtain ⟨set1, known1, rest⟩ := Option.bind_eq_some_iff.mp defined
      obtain ⟨set2, known2, same⟩ := Option.bind_eq_some_iff.mp rest
      cases same
      exact represents.isSubsetOf known1 known2

theorem Represents.foldlM (represents : Represents st sets)
    {calls : List SetCall}
    (defined : calls.foldlM SetCall.onSets sets = some sets') :
    Returns (calls.foldlM WordSetU.perform st) (Keeps st sets') := by
  induction calls generalizing st sets with
  | nil =>
      cases defined
      exact .ok ⟨represents, List.prefix_rfl, List.prefix_rfl⟩
  | cons call calls induction =>
      obtain ⟨middle, first, rest⟩ := Option.bind_eq_some_iff.mp defined
      rw [List.foldlM_cons]
      apply (represents.perform first).bind
      intro st' kept
      apply (induction kept.1 rest).mono
      intro st'' later
      exact ⟨later.1, kept.2.1.trans later.2.1, kept.2.2.trans later.2.2⟩

/-- What a user of the interface relies on, for handles that stand for the
given sets. -/
structure Canonical (st : WordSetU × List Nat) (sets : List (Finset Nat)) :
    Prop where
  denote : List.Forall₂ (Denotes st.1.ix2vec) st.2 sets
  canonical : ∀ {ws1 ws2 : Nat} {set1 set2 : Finset Nat},
    Denotes st.1.ix2vec ws1 set1 → Denotes st.1.ix2vec ws2 set2 →
    (ws1 = ws2 ↔ set1 = set2)
  increasing : ∀ wv ∈ st.1.ix2vec, wv.Pairwise (· < ·)
  elem : ∀ {ws : Nat} {set : Finset Nat}, Denotes st.1.ix2vec ws set →
    ∀ w, st.1.elemWS ws w = .ok (decide (w ∈ set))
  isEmpty : ∀ {ws : Nat} {set : Finset Nat}, Denotes st.1.ix2vec ws set →
    st.1.isEmptyWS ws = .ok (decide (set = ∅))
  isSingleton : ∀ {ws : Nat} {set : Finset Nat}, Denotes st.1.ix2vec ws set →
    ∀ w, st.1.isSingletonWS ws w = .ok (decide (set = {w}))
  cardinality : ∀ {ws : Nat} {set : Finset Nat}, Denotes st.1.ix2vec ws set →
    st.1.cardinalityWS ws = .ok set.card
  isSubset : ∀ {small big : Nat} {set1 set2 : Finset Nat},
    Denotes st.1.ix2vec small set1 → Denotes st.1.ix2vec big set2 →
    ∃ wsu, st.1.isSubsetOf small big = .ok (wsu, decide (set1 ⊆ set2))

theorem Represents.canonical (represents : Represents st sets) :
    Canonical st sets where
  denote := represents.denote
  canonical := by
    intro ws1 ws2 set1 set2 first second
    constructor
    · intro same
      subst same
      exact first.unique second
    · intro same
      subst same
      exact represents.wf.toTable.denotes_injective first second
  increasing := by
    intro wv member
    obtain ⟨ix, known⟩ := List.mem_iff_getElem?.mp member
    exact represents.wf.sorted known
  elem := fun denotes w => represents.wf.elemWS_eq denotes w
  isEmpty := fun denotes => represents.wf.isEmptyWS_eq denotes
  isSingleton := fun denotes w => represents.wf.isSingletonWS_eq denotes w
  cardinality := fun denotes => represents.wf.cardinalityWS_eq denotes
  isSubset := by
    intro small big set1 set2 first second
    obtain ⟨⟨wsu, answer⟩, returns, -, isAnswer⟩ :=
      represents.wf.isSubsetOf_returns first second
    refine ⟨wsu, ?_⟩
    rw [returns, ← (Bool.eq_iff_iff.mpr (by simpa using isAnswer) :
      answer = decide (set1 ⊆ set2))]

/-- Every sequence of calls on handles that were returned before runs to its
end.  Each handle stands for the set that the call defines, equal handles for
equal sets and the other way round, and so it stays whatever is called
afterwards. -/
theorem handles_denote_sets {cacheSize : Nat} (positive : 1 ≤ cacheSize)
    (bounded : cacheSize ≤ 32) {calls more : List SetCall}
    (defined : SetCall.denotations calls = some sets)
    (continued : more.foldlM SetCall.onSets sets = some sets') :
    Returns (runCalls cacheSize calls) (fun st => Canonical st sets ∧
      Returns (more.foldlM perform st) (fun st' => Canonical st' sets' ∧
        st.2 <+: st'.2 ∧
        ∀ {ws : Nat} {set : Finset Nat}, Denotes st.1.ix2vec ws set →
          Denotes st'.1.ix2vec ws set)) := by
  unfold runCalls
  apply (newWordSetU_returns positive bounded).bind
  intro wsu wf
  have start : Represents (wsu, []) [] := ⟨wf, .nil⟩
  apply (start.foldlM defined).mono
  intro st kept
  refine ⟨kept.1.canonical, (kept.1.foldlM continued).mono ?_⟩
  intro st' later
  exact ⟨later.1.canonical, later.2.2, fun denotes =>
    denotes.mono later.2.1⟩

/-- The set of 5 is made in three ways, with caches of one entry. -/
theorem handles_denote_sets_five :
    SetCall.denotations [.emptyWS, .addToWS 0 5, .doubletonWS 7 5,
      .delFromWS 2 7, .intersectWS 2 1] =
      some [∅, {5}, {7, 5}, {5}, {5}] ∧
    ∃ st, runCalls 1 [.emptyWS, .addToWS 0 5, .doubletonWS 7 5,
      .delFromWS 2 7, .intersectWS 2 1] = .ok st ∧
      st.2 = [0, 1, 2, 1, 1] ∧
      Canonical st [∅, {5}, {7, 5}, {5}, {5}] := by
  have defined : SetCall.denotations [.emptyWS, .addToWS 0 5,
      .doubletonWS 7 5, .delFromWS 2 7, .intersectWS 2 1] =
      some [∅, {5}, {7, 5}, {5}, {5}] := by decide
  have continued : ([] : List SetCall).foldlM SetCall.onSets
      [∅, {5}, {7, 5}, {5}, {5}] = some [∅, {5}, {7, 5}, {5}, {5}] := rfl
  have seen : (runCalls 1 [.emptyWS, .addToWS 0 5, .doubletonWS 7 5,
      .delFromWS 2 7, .intersectWS 2 1]).toOption.map Prod.snd =
      some [0, 1, 2, 1, 1] := by decide
  obtain ⟨st, returned, canonical, -⟩ := handles_denote_sets (le_refl 1)
    (by decide) defined continued
  obtain ⟨st', returned', handles⟩ := exists_ok_of_map seen
  rw [returned] at returned'
  cases returned'
  exact ⟨defined, st, returned, handles, canonical⟩

end Calls
end WordSetU
end HelgrindPlus
