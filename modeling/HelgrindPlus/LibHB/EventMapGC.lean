import HelgrindPlus.LibHB.EventMapCheck
import HelgrindPlus.LibHB.Generations

/-!
# Collecting old accesses

The function `event_map_maybe_GC` of `libhb_core.c`.  It throws away the
oldest generations as long as more than half of the map's maximum stays, and
then the stack traces that nobody refers to any more.  If the oldest
generation is too large it throws away about half of the map at random.
-/

namespace HelgrindPlus

open Outcome

/-- The function `VG_(random)`. -/
def random (seed : BitVec 32) : BitVec 32 := 1103515245 * seed + 12345

namespace EventMap

def threshold (map : EventMap) (size : Nat) : Except Abort (Nat × Nat) := do
  match ← (map.iter.map (·.2.gen)).foldlM GenMap.count none with
  | none => .error .tlAssert
  | some genMap => do
      tlAssert (genMap.counts.length > 0)
      tlAssert (genMap.counts.sum = map.oldrefTreeN)
      GenMap.discard (size / 2) genMap.counts genMap.min map.oldrefTreeN 0

def pickRandomly (acc : BitVec 32 × List UWord × Nat)
    (entry : Σ _ : UWord, OldRef) : BitVec 32 × List UWord × Nat :=
  let n := random acc.1
  if n &&& 0xFFF < 0x800 then (n, acc.2.1 ++ [entry.1], acc.2.2 - 1)
  else (n, acc.2)

/-- The addresses to delete, and how many stay. -/
def refsToDelete (map : EventMap) (retained maxGen : Nat) :
    Except Abort (BitVec 32 × List UWord × Nat) :=
  if retained < map.oldrefTreeN then
    .ok (map.randSeed,
      (map.iter.filter (·.2.gen ≤ maxGen)).map (·.1), retained)
  else do
    tlAssert (retained = map.oldrefTreeN)
    pure (map.iter.foldl pickRandomly (map.randSeed, [], retained))

def dropSlot (ctxts : Contexts) (acc : ThrNRCEC) : Except Abort Contexts :=
  if acc.ref ≠ 0 then do
    tlAssert (acc.thr &&& ~~~3 ≠ 0)
    ctxts.rcdec acc.ref
  else do
    tlAssert (acc.thr &&& ~~~3 = 0)
    pure ctxts

def deleteRef (map : EventMap) (ga2del : UWord) : Except Abort EventMap :=
  match map.oldrefTree.lookup ga2del with
  | none => .error .tlAssert
  | some oldref => do
      let ctxts ← oldref.accs.foldlM dropSlot map.ctxts
      pure { map with
        ctxts := ctxts
        oldrefTree := map.oldrefTree.erase ga2del }

/-- The check is made if it is compiled in. -/
def checkCEM (check before : Bool) (map : EventMap) :
    Except Abort EventMap :=
  if check then map.checkReferenceCounts before else .ok map

/-- The part of `event_map_maybe_GC` after the test of the size. -/
def collect (check : Bool) (size : Nat) (map : EventMap) :
    Except Abort EventMap := do
  tlAssert (size ≥ 10 * 1000)
  tlAssert (size ≤ 10 * 1000 * 1000)
  tlAssert (check = true → map.oldrefTreeN = map.oldrefTree.entries.length)
  let map ← map.checkCEM check true
  let (retained, maxGen) ← map.threshold size
  tlAssert (retained ≤ map.oldrefTreeN)
  let (seed, refs2del, retained) ← map.refsToDelete retained maxGen
  tlAssert (refs2del.length = map.oldrefTreeN - retained)
  let map ← refs2del.foldlM deleteRef { map with randSeed := seed }
  tlAssert (map.oldrefTree.entries.length = retained)
  let ctxts ← map.ctxts.sweep
  { map with
    ctxts := ctxts
    oldrefTreeN := retained
    oldrefGenIncAt := retained }.checkCEM check false

def maybeGC (check : Bool) (size : Nat) (map : EventMap) :
    Except Abort EventMap :=
  if map.oldrefTreeN < size then .ok map else map.collect check size

end EventMap

namespace EventMap

section Collect

variable {map : EventMap} {size retained maxGen : Nat}

/-- How many addresses have a later generation. -/
def later (map : EventMap) (maxGen : Nat) : Nat :=
  (map.iter.map (·.2.gen)).countP (maxGen < ·)

theorem length_iter (map : EventMap) :
    map.iter.length = map.oldrefTree.entries.length :=
  map.iter_perm.length_eq

private theorem later_le (map : EventMap) (maxGen : Nat) :
    map.later maxGen ≤ map.iter.length := by
  have bound : map.later maxGen ≤ (map.iter.map (·.2.gen)).length :=
    List.countP_le_length
  rwa [List.length_map] at bound

/-- A generation is discarded only if there is something in it. -/
theorem threshold_returns (consistent : map.Consistent)
    (some : 0 < map.oldrefTreeN) :
    Returns (map.threshold size) (fun out => out.1 = map.later out.2 ∧
      (out.2 ≠ 0 → out.1 < map.oldrefTreeN)) := by
  have length : (map.iter.map (·.2.gen)).length = map.oldrefTreeN := by
    rw [List.length_map, length_iter, consistent.size]
  have positive : ∀ key ∈ map.iter.map (·.2.gen), 0 < key := by
    intro key member
    obtain ⟨entry, isEntry, rfl⟩ := List.mem_map.mp member
    exact consistent.gens entry.1 entry.2 (lookup_of_mem_iter isEntry)
  unfold threshold later
  generalize map.iter.map (·.2.gen) = keys at length positive ⊢
  have nonempty : keys ≠ [] := List.ne_nil_of_length_pos (by omega)
  apply (GenMap.count_all nonempty).bind
  intro after counted
  obtain ⟨genMap, rfl, tallies⟩ := counted
  have inside := tallies.below tallies.least
  have more : genMap.counts.length > 0 := by omega
  have sum : genMap.counts.sum = map.oldrefTreeN := tallies.sum.trans length
  dsimp only
  rw [tlAssert_of more, ok_bind, tlAssert_of sum, ok_bind]
  have rest : map.oldrefTreeN = keys.countP (genMap.min ≤ ·) := by
    rw [← length, eq_comm, List.countP_eq_length]
    exact fun key member => decide_eq_true (tallies.above key member)
  have stays : map.oldrefTreeN = keys.countP (0 < ·) := by
    rw [← length, eq_comm, List.countP_eq_length]
    exact fun key member => decide_eq_true (positive key member)
  have least := positive genMap.min tallies.least
  apply (GenMap.discard_returns tallies.counts least least rest stays).mono
  intro out spec
  refine ⟨spec.1, fun discarded => ?_⟩
  rcases spec.2 with none | beyond
  · exact absurd none discarded
  · rw [spec.1, ← length]
    apply lt_of_le_of_ne List.countP_le_length
    intro all
    have kept := List.countP_eq_length.mp all genMap.min tallies.least
    have above := of_decide_eq_true kept
    omega

/-- The addresses to delete. -/
structure Doomed (map : EventMap) (retained maxGen : Nat)
    (out : BitVec 32 × List UWord × Nat) : Prop where
  sublist : out.2.1.Sublist (map.iter.map (·.1))
  length : out.2.2 + out.2.1.length = map.iter.length
  old : retained < map.iter.length →
    out.2.1 = (map.iter.filter (·.2.gen ≤ maxGen)).map (·.1)

private theorem foldl_pickRandomly (entries : List (Σ _ : UWord, OldRef))
    (acc : BitVec 32 × List UWord × Nat)
    (enough : entries.length ≤ acc.2.2) :
    ∃ picked, (entries.foldl pickRandomly acc).2.1 = acc.2.1 ++ picked ∧
      picked.Sublist (entries.map (·.1)) ∧
      (entries.foldl pickRandomly acc).2.2 + picked.length = acc.2.2 := by
  induction entries generalizing acc with
  | nil => exact ⟨[], by simp, .slnil, rfl⟩
  | cons entry entries induction =>
      rw [List.foldl_cons, List.map_cons]
      rw [List.length_cons] at enough
      by_cases low : random acc.1 &&& 0xFFF < 0x800
      · have step : pickRandomly acc entry =
            (random acc.1, acc.2.1 ++ [entry.1], acc.2.2 - 1) := if_pos low
        obtain ⟨picked, isPicked, sublist, length⟩ := induction
          (random acc.1, acc.2.1 ++ [entry.1], acc.2.2 - 1)
          (by dsimp only; omega)
        dsimp only at isPicked length
        refine ⟨entry.1 :: picked, ?_, sublist.cons_cons _, ?_⟩
        · rw [step, isPicked, List.append_assoc, List.singleton_append]
        · rw [step, List.length_cons]
          omega
      · have step : pickRandomly acc entry = (random acc.1, acc.2) :=
          if_neg low
        obtain ⟨picked, isPicked, sublist, length⟩ := induction
          (random acc.1, acc.2) (by dsimp only; omega)
        rw [step]
        exact ⟨picked, isPicked, sublist.cons _, length⟩

private theorem refsToDelete_returns (consistent : map.Consistent)
    (isLater : retained = map.later maxGen) :
    Returns (map.refsToDelete retained maxGen)
      (Doomed map retained maxGen) := by
  have isSize : map.iter.length = map.oldrefTreeN := by
    rw [length_iter, consistent.size]
  unfold refsToDelete
  split
  · refine .ok ⟨List.filter_sublist.map _, ?_, fun _ => rfl⟩
    change retained + ((map.iter.filter (·.2.gen ≤ maxGen)).map (·.1)).length =
      map.iter.length
    rw [List.length_map, isLater, later, List.countP_map,
      ← List.countP_eq_length_filter,
      List.length_eq_countP_add_countP (fun entry => maxGen < entry.2.gen)]
    congr 1
    apply List.countP_congr
    intro entry _
    simp
  · rename_i full
    have bound := map.later_le maxGen
    have all : retained = map.oldrefTreeN := by omega
    rw [tlAssert_of all, ok_bind]
    obtain ⟨picked, isPicked, sublist, length⟩ := foldl_pickRandomly map.iter
      (map.randSeed, [], retained) (by change map.iter.length ≤ retained; omega)
    rw [List.nil_append] at isPicked
    refine .pure ⟨?_, ?_, ?_⟩
    · rw [isPicked]
      exact sublist
    · rw [isPicked, length]
      exact all.trans isSize.symm
    · intro fewer
      omega

private theorem dropSlots_returns {ctxts : Contexts} {accs : List ThrNRCEC}
    {others : Multiset UWord} (wf : ctxts.Wf)
    (counts : ctxts.Counts (((accs.map ThrNRCEC.ref : List UWord) :
      Multiset UWord) + others))
    (valid : ∀ acc ∈ accs, acc.Used ∨ acc = .null) :
    Returns (accs.foldlM dropSlot ctxts) (fun ctxts' => ctxts'.Wf ∧
      ctxts'.Counts others) := by
  induction accs generalizing ctxts with
  | nil => exact .pure ⟨wf, by simpa using counts⟩
  | cons acc accs induction =>
      rw [List.map_cons, ← Multiset.cons_coe, Multiset.cons_add] at counts
      have next : Returns (dropSlot ctxts acc) (fun ctxts' => ctxts'.Wf ∧
          ctxts'.Counts (((accs.map ThrNRCEC.ref : List UWord) :
            Multiset UWord) + others)) := by
        unfold dropSlot
        rcases valid acc (by simp) with isUsed | rfl
        · rw [if_pos isUsed.ref_ne_zero, tlAssert_of isUsed.thr_ne_zero,
            ok_bind]
          exact counts.rcdec wf isUsed.ref_ne_zero
        · rw [if_neg (by decide), tlAssert_of (by decide), ok_bind]
          exact .pure ⟨wf, counts.drop_null wf⟩
      rw [List.foldlM_cons]
      apply next.bind
      intro ctxts' after
      exact induction after.1 after.2
        fun later member => valid later (by simp [member])

/-- The map after some addresses have been deleted from it. -/
structure Without (start : EventMap) (gone : List UWord) (map : EventMap) :
    Prop where
  wf : map.ctxts.Wf
  counts : map.ctxts.Counts map.refs
  lookup : ∀ a, map.oldrefTree.lookup a =
    if a ∈ gone then none else start.oldrefTree.lookup a
  length : map.oldrefTree.entries.length + gone.length =
    start.oldrefTree.entries.length
  gen : map.oldrefGen = start.oldrefGen

theorem deleteRef_returns {start : EventMap} {gone : List UWord} {a : UWord}
    (consistent : start.Consistent) (without : start.Without gone map)
    (bound : start.oldrefTree.lookup a ≠ none) (once : a ∉ gone) :
    Returns (map.deleteRef a) (start.Without (gone ++ [a])) := by
  obtain ⟨ref, isRef⟩ := Option.ne_none_iff_exists'.mp bound
  have found : map.oldrefTree.lookup a = some ref := by
    rw [without.lookup, if_neg once, isRef]
  obtain ⟨used, good⟩ := consistent.good a ref isRef
  have counts := without.counts
  rw [refs, AList.total_eq_of_lookup OldRef.refs found] at counts
  unfold deleteRef
  rw [found]
  apply (dropSlots_returns without.wf counts good.valid).bind
  intro ctxts after
  refine .pure ⟨after.1, after.2, ?_, ?_, without.gen⟩
  · intro b
    change (map.oldrefTree.erase a).lookup b = _
    by_cases here : b = a
    · subst here
      simp
    · rw [AList.lookup_erase_ne here, without.lookup]
      simp [here]
  · have shorter := AList.length_erase_of_bound
      (show map.oldrefTree.lookup a ≠ none by simp [found])
    have length := without.length
    change (map.oldrefTree.erase a).entries.length + _ = _
    rw [List.length_append, List.length_singleton]
    omega

private theorem deleteRefs_returns {refs2del : List UWord}
    (consistent : map.Consistent)
    (sublist : refs2del.Sublist (map.iter.map (·.1))) {start : EventMap}
    (same : map.Without [] start) :
    Returns (refs2del.foldlM deleteRef start) (map.Without refs2del) := by
  have keys : (map.iter.map (·.1)).Nodup :=
    ((map.iter_perm.map _).nodup_iff).mpr map.oldrefTree.keys_nodup
  have nodup := keys.sublist sublist
  have all : Returns (refs2del.foldlM deleteRef start)
      (map.Without (refs2del.take refs2del.length)) := by
    apply @Returns.foldlM _ _ _ _ (fun n => map.Without (refs2del.take n))
    · intro n state a atN without
      have bound : map.oldrefTree.lookup a ≠ none := by
        have member := sublist.mem (List.mem_of_getElem? atN)
        obtain ⟨entry, isEntry, rfl⟩ := List.mem_map.mp member
        simp [lookup_of_mem_iter isEntry]
      have once : a ∉ refs2del.take n := by
        intro earlier
        obtain ⟨i, isA⟩ := List.mem_iff_getElem?.mp earlier
        rw [List.getElem?_take] at isA
        split at isA
        · rename_i before
          have index := List.nodup_iff_getElem?_ne_getElem?.mp nodup i n before
            (List.getElem?_eq_some_iff.mp atN).1
          exact index (isA.trans atN.symm)
        · cases isA
      rw [List.take_add_one, atN]
      exact deleteRef_returns consistent without bound once
    · exact same
  rwa [List.take_length] at all

theorem Consistent.withCtxts {ctxts : Contexts} (consistent : map.Consistent)
    (wf : ctxts.Wf) (counts : ctxts.Counts map.refs) :
    Consistent { map with ctxts := ctxts } :=
  ⟨wf, counts, consistent.good, consistent.gens, consistent.size,
    consistent.started⟩

theorem checkCEM_returns (consistent : map.Consistent) (check before : Bool)
    (inUse : before = false →
      ∀ p ec, map.ctxts.heap.lookup p = some ec → ec.rc ≠ 0) :
    Returns (map.checkCEM check before) (fun map' =>
      ∃ ctxts, map' = { map with ctxts := ctxts } ∧ ctxts.Wf ∧
        ctxts.Counts map.refs ∧
        ∀ p, ctxts.heap.lookup p ≠ none →
          map.ctxts.heap.lookup p ≠ none) := by
  unfold checkCEM
  cases check with
  | true => exact checkReferenceCounts_returns consistent inUse
  | false =>
      exact .ok ⟨map.ctxts, rfl, consistent.wf, consistent.counts,
        fun _ bound => bound⟩

/-- What a collection leaves: only stack traces that are in use, and if a
generation was discarded, exactly the addresses of later generations. -/
structure Collected (size : Nat) (before after : EventMap) : Prop where
  inUse : ∀ p ec, after.ctxts.heap.lookup p = some ec → ec.rc ≠ 0
  discarded : ∃ retained maxGen,
    before.threshold size = .ok (retained, maxGen) ∧
    (maxGen ≠ 0 → ∀ a, after.oldrefTree.lookup a =
      (before.oldrefTree.lookup a).filter (maxGen < ·.gen))

theorem Doomed.lookup {out : BitVec 32 × List UWord × Nat}
    (doomed : Doomed map retained maxGen out)
    (fewer : retained < map.iter.length) (a : UWord) :
    (if a ∈ out.2.1 then none else map.oldrefTree.lookup a) =
      (map.oldrefTree.lookup a).filter (maxGen < ·.gen) := by
  have isGone : a ∈ out.2.1 ↔
      ∃ ref, map.oldrefTree.lookup a = some ref ∧ ref.gen ≤ maxGen := by
    rw [doomed.old fewer, List.mem_map]
    constructor
    · rintro ⟨entry, member, rfl⟩
      obtain ⟨isEntry, old⟩ := List.mem_filter.mp member
      exact ⟨entry.2, lookup_of_mem_iter isEntry, of_decide_eq_true old⟩
    · rintro ⟨ref, found, old⟩
      refine ⟨⟨a, ref⟩, List.mem_filter.mpr ⟨?_, decide_eq_true old⟩, rfl⟩
      exact map.iter_perm.mem_iff.mpr (AList.mem_lookup_iff.mp found)
  cases found : map.oldrefTree.lookup a with
  | none => simp
  | some ref =>
      rw [found] at isGone
      by_cases old : ref.gen ≤ maxGen
      · have gone : a ∈ out.2.1 := isGone.mpr ⟨ref, rfl, old⟩
        rw [if_pos gone, Option.filter_some_neg (by simpa using old)]
      · have stays : a ∉ out.2.1 := by
          intro member
          obtain ⟨other, isOther, older⟩ := isGone.mp member
          cases isOther
          exact old older
        rw [if_neg stays, Option.filter_some_pos (by simpa using old)]

/-- After a collection nothing is wrong, and the counts are exact. -/
theorem collect_returns (consistent : map.Consistent) (check : Bool)
    (least : 10000 ≤ size) (most : size ≤ 10000000)
    (full : size ≤ map.oldrefTreeN) :
    Returns (map.collect check size) (fun after => after.Consistent ∧
      Collected size map after) := by
  unfold collect
  rw [tlAssert_of least, ok_bind, tlAssert_of most, ok_bind,
    tlAssert_of fun _ => consistent.size, ok_bind]
  apply (checkCEM_returns consistent check true fun impossible => by
    cases impossible).bind
  rintro _ ⟨ctxts, rfl, wf, counts, -⟩
  have checked := consistent.withCtxts wf counts
  -- the check changes nothing that the rest of the function looks at
  have limit : Returns (map.threshold size) _ :=
    threshold_returns consistent (by omega)
  obtain ⟨⟨retained, maxGen⟩, isLimit, isLater, discarded⟩ := limit
  have isLimit' : ({ map with ctxts := ctxts } : EventMap).threshold size =
      .ok (retained, maxGen) := isLimit
  rw [isLimit', ok_bind]
  dsimp only at isLater discarded ⊢
  have isSize : map.iter.length = map.oldrefTreeN := by
    rw [length_iter, consistent.size]
  have notMore := isSize ▸ isLater ▸ map.later_le maxGen
  rw [tlAssert_of notMore, ok_bind]
  apply (refsToDelete_returns checked isLater).bind
  intro out doomed
  have total : out.2.2 + out.2.1.length = map.iter.length := doomed.length
  have number : out.2.1.length = map.oldrefTreeN - out.2.2 := by omega
  rw [tlAssert_of number, ok_bind]
  have start : Without { map with ctxts := ctxts } []
      { map with ctxts := ctxts, randSeed := out.1 } :=
    ⟨wf, counts, fun _ => rfl, rfl, rfl⟩
  apply (deleteRefs_returns checked doomed.sublist start).bind
  intro rest without
  have left : rest.oldrefTree.entries.length = out.2.2 := by
    have length : rest.oldrefTree.entries.length + out.2.1.length =
        map.oldrefTree.entries.length := without.length
    rw [← map.length_iter] at length
    omega
  rw [tlAssert_of left, ok_bind]
  apply (Contexts.sweep_returns without.wf without.counts).bind
  rintro swept ⟨wf', counts', inUse⟩
  have older : ∀ a ref, rest.oldrefTree.lookup a = some ref →
      map.oldrefTree.lookup a = some ref := by
    intro a ref found
    rw [without.lookup] at found
    split at found
    · cases found
    · exact found
  have consistent' : Consistent { rest with
      ctxts := swept
      oldrefTreeN := out.2.2
      oldrefGenIncAt := out.2.2 } := by
    refine ⟨wf', counts', ?_, ?_, left.symm, ?_⟩
    · exact fun a ref found => consistent.good a ref (older a ref found)
    · exact fun a ref found => consistent.gens a ref (older a ref found)
    · intro zero
      have empty := consistent.started (without.gen.symm.trans zero)
      omega
  apply (checkCEM_returns consistent' check false fun _ => inUse).mono
  rintro _ ⟨ctxts', rfl, wf'', counts'', fewer⟩
  refine ⟨consistent'.withCtxts wf'' counts'', ?_, retained, maxGen, isLimit,
    ?_⟩
  · intro p ec found
    obtain ⟨old, isOld⟩ := Option.ne_none_iff_exists'.mp
      (fewer p (by simp [found]))
    have positive := inUse p old isOld
    rw [counts'.exact p old isOld] at positive
    rw [counts''.exact p ec found]
    exact positive
  · intro some a
    have lookup : rest.oldrefTree.lookup a = _ := without.lookup a
    have shorter : retained < map.iter.length := isSize ▸ discarded some
    exact lookup.trans (doomed.lookup shorter a)

theorem maybeGC_returns (consistent : map.Consistent) (check : Bool)
    (least : 10000 ≤ size) (most : size ≤ 10000000) :
    Returns (map.maybeGC check size) (fun after => after.Consistent ∧
      (size ≤ map.oldrefTreeN → Collected size map after)) := by
  unfold maybeGC
  split
  · rename_i small
    exact .ok ⟨consistent, fun full => absurd small (not_lt.mpr full)⟩
  · rename_i notSmall
    apply (collect_returns consistent check least most
      (not_lt.mp notSmall)).mono
    exact fun after spec => ⟨spec.1, fun _ => spec.2⟩

end Collect
end EventMap
end HelgrindPlus
