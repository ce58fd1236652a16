import HelgrindPlus.LibHB.EventMap
import Mathlib.Data.List.Sort

/-!
# Checking the reference counts

The function `event_map__check_reference_counts` of `libhb_core.c`, which is
compiled in on demand.  It counts all references a second time, in the fields
`rcX`, and compares.
-/

namespace HelgrindPlus

open Outcome

/-- The records in the order in which the loops over the table visit them. -/
def Contexts.chains (ctxts : Contexts) : List UWord :=
  (List.range nRcecTab).flatMap ctxts.contextTab

namespace EventMap

/-- The iterator of the sparse array visits addresses in order. -/
def iter (map : EventMap) : List (Σ _ : UWord, OldRef) :=
  map.oldrefTree.entries.insertionSort fun left right => left.1 ≤ right.1

def resetRcX (before : Bool) (acc : Contexts × Nat) (rcec : UWord) :
    Except Abort (Contexts × Nat) := do
  let record ← acc.1.get rcec
  tlAssert (before = false → record.rc > 0)
  pure (acc.1.set rcec { record with rcX := 0 }, acc.2 + 1)

def countSlot (ctxts : Contexts) (acc : ThrNRCEC) : Except Abort Contexts :=
  if acc.thr &&& ~~~3 ≠ 0 then do
    tlAssert (acc.ref ≠ 0)
    let record ← ctxts.get acc.ref
    pure (ctxts.set acc.ref { record with rcX := record.rcX + 1 })
  else do
    tlAssert (acc.ref = 0)
    pure ctxts

def compareRcX (ctxts : Contexts) (rcec : UWord) : Except Abort Unit := do
  let record ← ctxts.get rcec
  tlAssert (record.rc = record.rcX)

def checkReferenceCounts (before : Bool) (map : EventMap) :
    Except Abort EventMap := do
  let (ctxts, nEnts) ←
    map.ctxts.chains.foldlM (resetRcX before) (map.ctxts, 0)
  tlAssert (nEnts = ctxts.ctxtTabCurr)
  tlAssert (ctxts.ctxtTabCurr ≤ ctxts.ctxtTabMax)
  let ctxts ← map.iter.foldlM
    (fun ctxts entry => entry.2.accs.foldlM countSlot ctxts) ctxts
  ctxts.chains.forM (compareRcX ctxts)
  pure { map with ctxts := ctxts }

end EventMap

namespace Contexts

section Chains

variable {ctxts : Contexts} {held seen : Multiset UWord} {p : UWord}
  {ec ec' : RCEC}

theorem Wf.mem_chains (wf : Wf ctxts) :
    p ∈ ctxts.chains ↔ ctxts.heap.lookup p ≠ none := by
  unfold chains
  rw [List.mem_flatMap]
  constructor
  · rintro ⟨i, -, member⟩
    obtain ⟨ec, found, -⟩ := wf.listed i p member
    simp [found]
  · intro bound
    obtain ⟨ec, found⟩ := Option.ne_none_iff_exists'.mp bound
    exact ⟨_, List.mem_range.mpr (Nat.mod_lt _ (by decide)),
      wf.chained p ec found⟩

theorem Wf.length_chains (wf : Wf ctxts) :
    ctxts.chains.length = ctxts.heap.entries.length := by
  have nodup : ctxts.chains.Nodup := by
    unfold chains
    rw [List.nodup_flatMap]
    refine ⟨fun i _ => wf.nodup i, ?_⟩
    apply List.nodup_range.imp
    intro i j apart q inI inJ
    obtain ⟨ec, found, isI⟩ := wf.listed i q inI
    obtain ⟨ec', found', isJ⟩ := wf.listed j q inJ
    rw [found] at found'
    cases found'
    exact apart (isI.symm.trans isJ)
  have perm : ctxts.chains.Perm ctxts.heap.keys := by
    rw [List.perm_ext_iff_of_nodup nodup ctxts.heap.keys_nodup]
    intro q
    rw [wf.mem_chains, ← AList.mem_keys, ← AList.lookup_isSome]
    exact Option.isSome_iff_ne_none.symm
  rw [perm.length_eq]
  exact List.length_map _

/-- Changing `rcX` changes nothing else. -/
theorem Counts.setRcX (counts : Counts ctxts held)
    (found : ctxts.heap.lookup p = some ec) (same : ec'.rc = ec.rc) :
    Counts (ctxts.set p ec') held := by
  constructor
  · intro q record isRecord
    rw [lookup_set] at isRecord
    split at isRecord
    · rename_i here
      subst here
      cases isRecord
      rw [same, counts.exact q ec found]
    · exact counts.exact q record isRecord
  · intro q member
    rw [lookup_set]
    rcases counts.bound q member with null | bound
    · exact .inl null
    · right
      split
      · simp
      · exact bound

/-- What has been counted so far. -/
def Tally (ctxts : Contexts) (seen : Multiset UWord) : Prop :=
  ∀ p ec, ctxts.heap.lookup p = some ec → ec.rcX = seen.count p

theorem Tally.inc (tally : Tally ctxts seen)
    (found : ctxts.heap.lookup p = some ec) :
    Tally (ctxts.set p { ec with rcX := ec.rcX + 1 }) (p ::ₘ seen) := by
  intro q record isRecord
  rw [lookup_set] at isRecord
  split at isRecord
  · rename_i here
    subst here
    cases isRecord
    rw [Multiset.count_cons_self, ← tally q ec found]
  · rename_i apart
    rw [Multiset.count_cons_of_ne apart]
    exact tally q record isRecord

end Chains
end Contexts

namespace EventMap

section Check

variable {map : EventMap} {ctxts : Contexts} {held seen : Multiset UWord}
  {before : Bool}

/-- The state of the table in the middle of a check. -/
structure Checking (held : Multiset UWord) (start ctxts : Contexts) :
    Prop where
  wf : ctxts.Wf
  counts : ctxts.Counts held
  tab : ctxts.contextTab = start.contextTab
  curr : ctxts.ctxtTabCurr = start.ctxtTabCurr
  max : ctxts.ctxtTabMax = start.ctxtTabMax
  bound : ∀ p, ctxts.heap.lookup p ≠ none → start.heap.lookup p ≠ none

theorem Checking.set {start : Contexts} {p : UWord} {ec ec' : RCEC}
    (checking : Checking held start ctxts)
    (found : ctxts.heap.lookup p = some ec) (same : ec'.frames = ec.frames)
    (sameRc : ec'.rc = ec.rc) : Checking held start (ctxts.set p ec') := by
  refine ⟨checking.wf.set found same, checking.counts.setRcX found sameRc,
    checking.tab, checking.curr, checking.max, ?_⟩
  intro q bound
  rw [Contexts.lookup_set] at bound
  apply checking.bound q
  split at bound
  · rename_i here
    rw [here, found]
    simp
  · exact bound

private theorem reset_returns {start : Contexts} {chains : List UWord} {n : Nat}
    (checking : Checking held start ctxts)
    (bound : ∀ p ∈ chains, ctxts.heap.lookup p ≠ none)
    (inUse : before = false → ∀ p ∈ chains, p ∈ held)
    {zeroed : UWord → Prop}
    (zero : ∀ p ec, ctxts.heap.lookup p = some ec → zeroed p → ec.rcX = 0) :
    Returns (chains.foldlM (resetRcX before) (ctxts, n)) (fun out =>
      Checking held start out.1 ∧ out.2 = n + chains.length ∧
      ∀ p ec, out.1.heap.lookup p = some ec →
        (zeroed p ∨ p ∈ chains) → ec.rcX = 0) := by
  induction chains generalizing ctxts n zeroed with
  | nil =>
      refine .pure ⟨checking, rfl, ?_⟩
      intro p ec found isZero
      exact zero p ec found (by simpa using isZero)
  | cons q chains induction =>
      obtain ⟨record, isRecord⟩ :=
        Option.ne_none_iff_exists'.mp (bound q (by simp))
      have positive : before = false → record.rc > 0 := by
        intro after
        rw [checking.counts.exact q record isRecord]
        exact Multiset.count_pos.mpr (inUse after q (by simp))
      rw [List.foldlM_cons, resetRcX, Contexts.get_of isRecord, ok_bind,
        tlAssert_of positive, ok_bind, pure_bind]
      have lookup : ∀ p, (ctxts.set q { record with rcX := 0 }).heap.lookup p =
          if p = q then some { record with rcX := 0 }
          else ctxts.heap.lookup p := Contexts.lookup_set
      refine (@induction (ctxts.set q { record with rcX := 0 }) (n + 1)
        (checking.set isRecord rfl rfl) ?_ ?_
        (fun p => zeroed p ∨ p = q) ?_).mono ?_
      · intro p member
        rw [lookup]
        split
        · simp
        · exact bound p (by simp [member])
      · exact fun after p member => inUse after p (by simp [member])
      · intro p ec found isZero
        rw [lookup] at found
        split at found
        · cases found
          rfl
        · rename_i apart
          exact zero p ec found (by simpa [apart] using isZero)
      · intro out after
        obtain ⟨checking', length, zero'⟩ := after
        refine ⟨checking', ?_, ?_⟩
        · rw [length, List.length_cons]
          omega
        · intro p ec found isZero
          apply zero' p ec found
          rcases isZero with old | member
          · exact .inl (.inl old)
          · rcases List.mem_cons.mp member with here | later
            · exact .inl (.inr here)
            · exact .inr later

private theorem countSlots_returns {start : Contexts} {accs : List ThrNRCEC}
    (checking : Checking held start ctxts) (tally : ctxts.Tally seen)
    (valid : ∀ acc ∈ accs, acc.Used ∨ acc = .null)
    (counted : ∀ acc ∈ accs, acc.ref ∈ held) :
    Returns (accs.foldlM countSlot ctxts) (fun ctxts' =>
      Checking held start ctxts' ∧
      ctxts'.Tally (((accs.map ThrNRCEC.ref : List UWord) :
        Multiset UWord) + seen)) := by
  induction accs generalizing ctxts seen with
  | nil => exact .pure ⟨checking, by simpa using tally⟩
  | cons acc accs induction =>
      have next : Returns (countSlot ctxts acc) (fun ctxts' =>
          Checking held start ctxts' ∧ ctxts'.Tally (acc.ref ::ₘ seen)) := by
        unfold countSlot
        rcases valid acc (by simp) with isUsed | rfl
        · rw [if_pos isUsed.thr_ne_zero, tlAssert_of isUsed.ref_ne_zero,
            ok_bind]
          have bound : ctxts.heap.lookup acc.ref ≠ none := by
            rcases checking.counts.bound acc.ref (counted acc (by simp))
              with null | bound
            · exact absurd null isUsed.ref_ne_zero
            · exact bound
          obtain ⟨record, isRecord⟩ := Option.ne_none_iff_exists'.mp bound
          rw [Contexts.get_of isRecord, ok_bind]
          exact .pure ⟨checking.set isRecord rfl rfl, tally.inc isRecord⟩
        · rw [if_neg (by decide), tlAssert_of (by decide), ok_bind]
          refine .pure ⟨checking, ?_⟩
          intro p ec found
          have apart : p ≠ ThrNRCEC.null.ref :=
            (checking.wf.aligned p ec found).2
          rw [Multiset.count_cons_of_ne apart]
          exact tally p ec found
      rw [List.foldlM_cons]
      apply next.bind
      intro ctxts' after
      obtain ⟨checking', tally'⟩ := after
      apply (induction checking' tally'
        (fun later member => valid later (by simp [member]))
        (fun later member => counted later (by simp [member]))).mono
      intro ctxts'' done
      refine ⟨done.1, ?_⟩
      rw [List.map_cons, ← Multiset.cons_coe, Multiset.cons_add,
        ← Multiset.add_cons]
      exact done.2

theorem iter_perm (map : EventMap) : map.iter.Perm map.oldrefTree.entries :=
  List.perm_insertionSort _ _

private theorem countRefs_returns {start : Contexts}
    {entries : List (Σ _ : UWord, OldRef)}
    (checking : Checking held start ctxts) (tally : ctxts.Tally seen)
    (good : ∀ entry ∈ entries, ∃ used, entry.2.Good used)
    (counted : ∀ entry ∈ entries, ∀ acc ∈ entry.2.accs, acc.ref ∈ held) :
    Returns (entries.foldlM
      (fun ctxts entry => entry.2.accs.foldlM countSlot ctxts) ctxts)
      (fun ctxts' => Checking held start ctxts' ∧
        ctxts'.Tally ((entries.map (·.2.refs)).sum + seen)) := by
  induction entries generalizing ctxts seen with
  | nil => exact .pure ⟨checking, by simpa using tally⟩
  | cons entry entries induction =>
      obtain ⟨used, isGood⟩ := good entry (by simp)
      rw [List.foldlM_cons]
      apply (countSlots_returns checking tally isGood.valid
        (counted entry (by simp))).bind
      intro ctxts' after
      apply (induction after.1 after.2
        (fun later member => good later (by simp [member]))
        (fun later member => counted later (by simp [member]))).mono
      intro ctxts'' done
      refine ⟨done.1, ?_⟩
      rw [List.map_cons, List.sum_cons, add_comm entry.2.refs, add_assoc]
      exact done.2

theorem lookup_of_mem_iter {entry : Σ _ : UWord, OldRef}
    (member : entry ∈ map.iter) :
    map.oldrefTree.lookup entry.1 = some entry.2 :=
  AList.mem_lookup_iff.mpr ((map.iter_perm.mem_iff).mp member)

private theorem refs_eq_sum (map : EventMap) :
    map.refs = (map.iter.map (·.2.refs)).sum :=
  ((map.iter_perm.map _).sum_eq).symm

/-- The check passes, and changes nothing that matters. -/
theorem checkReferenceCounts_returns (consistent : map.Consistent)
    (inUse : before = false →
      ∀ p ec, map.ctxts.heap.lookup p = some ec → ec.rc ≠ 0) :
    Returns (map.checkReferenceCounts before) (fun map' =>
      ∃ ctxts, map' = { map with ctxts := ctxts } ∧ ctxts.Wf ∧
        ctxts.Counts map.refs ∧
        ∀ p, ctxts.heap.lookup p ≠ none →
          map.ctxts.heap.lookup p ≠ none) := by
  have start : Checking map.refs map.ctxts map.ctxts :=
    ⟨consistent.wf, consistent.counts, rfl, rfl, rfl, fun _ bound => bound⟩
  have bound : ∀ p ∈ map.ctxts.chains, map.ctxts.heap.lookup p ≠ none :=
    fun p member => consistent.wf.mem_chains.mp member
  have referred : before = false → ∀ p ∈ map.ctxts.chains, p ∈ map.refs := by
    intro after p member
    obtain ⟨ec, found⟩ := Option.ne_none_iff_exists'.mp (bound p member)
    have positive := inUse after p ec found
    rw [consistent.counts.exact p ec found] at positive
    exact Multiset.count_ne_zero.mp positive
  unfold checkReferenceCounts
  have reset := @reset_returns map.ctxts map.refs before map.ctxts
    map.ctxts.chains 0 start bound referred (fun _ => False)
    (fun _ _ _ impossible => impossible.elim)
  apply reset.bind
  intro out after
  obtain ⟨checking, length, zero⟩ := after
  have isCurr : out.2 = out.1.ctxtTabCurr := by
    rw [length, zero_add, consistent.wf.length_chains, checking.curr,
      consistent.wf.curr]
  dsimp only
  rw [tlAssert_of isCurr, ok_bind, tlAssert_of checking.wf.max, ok_bind]
  have tally : out.1.Tally 0 := by
    intro p ec found
    rw [Multiset.count_zero]
    apply zero p ec found
    right
    apply consistent.wf.mem_chains.mpr
    apply checking.bound p
    simp [found]
  have good : ∀ entry ∈ map.iter, ∃ used, entry.2.Good used := by
    intro entry member
    exact consistent.good entry.1 entry.2 (lookup_of_mem_iter member)
  have counted : ∀ entry ∈ map.iter, ∀ acc ∈ entry.2.accs,
      acc.ref ∈ map.refs := by
    intro entry member acc isAcc
    rw [refs, AList.total_eq_of_lookup _ (lookup_of_mem_iter member)]
    exact Multiset.mem_add.mpr (.inl (List.mem_map_of_mem isAcc))
  apply (countRefs_returns checking tally good counted).bind
  intro ctxts after
  obtain ⟨checking', tally'⟩ := after
  have passes : ∀ p ∈ ctxts.chains, compareRcX ctxts p = .ok () := by
    intro p member
    obtain ⟨ec, found⟩ := Option.ne_none_iff_exists'.mp
      (checking'.wf.mem_chains.mp member)
    have same : ec.rc = ec.rcX := by
      rw [checking'.counts.exact p ec found, tally' p ec found, add_zero,
        ← refs_eq_sum]
    unfold compareRcX
    rw [Contexts.get_of found, ok_bind, tlAssert_of same]
  rw [forM_eq_ok passes, ok_bind]
  exact .pure ⟨ctxts, rfl, checking'.wf, checking'.counts, checking'.bound⟩

end Check
end EventMap
end HelgrindPlus
