import HelgrindPlus.Lib.Ledger
import HelgrindPlus.LibHB.VtsTab

/-!
# Runs of the table of timestamps

Every state that the functions on `vts_set`, `vts_tab`, the free list and the
two caches can reach, whoever calls them and with whatever ids.  The calls of
`VtsID__rcinc` and `VtsID__rcdec` that `zsm_flush_cache` makes during a
collection are a parameter.
-/

namespace HelgrindPlus

open Outcome

namespace VtsTab

/-- One call of `VtsID__rcinc` or `VtsID__rcdec`. -/
def rcCall (tab : VtsTab) : RcEvent Nat → Except Abort VtsTab
  | .inc vi => tab.rcinc vi
  | .dec vi => tab.rcdec vi

/-- The function `vts_tab__do_GC`, with the calls that the flush of shadow
memory makes. -/
def doGC (tab : VtsTab) (flush : List (RcEvent Nat)) :
    Except Abort VtsTab := do
  tlAssert (tab.freelist = none)
  let tab ← flush.foldlM rcCall tab.invalidateCaches
  tab.collect

end VtsTab

inductive VtsOp where
  | mkSingleton (thr : Nat)
  | tick (vi idx : Nat)
  | join2 (vi1 vi2 : Nat)
  | getOrdering (vi1 vi2 : Nat)
  | rc (event : RcEvent Nat)
  | doGC (flush : List (RcEvent Nat))
  deriving DecidableEq

namespace VtsTab

def step (tab : VtsTab) : VtsOp → Except Abort VtsTab
  | .mkSingleton thr => do
      let (tab, _) ← tab.mkSingleton thr
      pure tab
  | .tick vi idx => do
      let (tab, _) ← tab.tick vi idx
      pure tab
  | .join2 vi1 vi2 => do
      let (tab, _) ← tab.join2 vi1 vi2
      pure tab
  | .getOrdering vi1 vi2 => do
      let (tab, _) ← tab.getOrdering vi1 vi2
      pure tab
  | .rc event => tab.rcCall event
  | .doGC flush => tab.doGC flush

def run (tab : VtsTab) (ops : List VtsOp) : Except Abort VtsTab :=
  ops.foldlM step tab

/-- The counts are those of some references. -/
def Consistent (tab : VtsTab) : Prop := ∃ refs, Counted tab refs

section Steps

variable {tab after : VtsTab} {vi vi1 vi2 : Nat} {vts : VTS}

theorem indexXA_eq_ok {te : VtsTE} (entry : tab.indexXA vi = .ok te) :
    tab.vtsTab[vi]? = some te := by
  unfold indexXA at entry
  split at entry
  · rename_i present
    cases entry
    exact present
  · cases entry

theorem toVTS_eq_ok (found : tab.toVTS vi = .ok vts) :
    tab.clock vi = some vts := by
  obtain ⟨te, entry, stored⟩ := bind_eq_ok.mp found
  split at stored
  · cases stored
  · rename_i used
    cases stored
    exact clock_eq_some_iff.mpr ⟨te, indexXA_eq_ok entry, used⟩

theorem Consistent.rcCall (consistent : tab.Consistent)
    {event : RcEvent Nat} (done : tab.rcCall event = .ok after) :
    after.Consistent := by
  obtain ⟨refs, counted⟩ := consistent
  cases event with
  | inc vi =>
      change tab.rcinc vi = .ok after at done
      obtain ⟨te, entry, rest⟩ := bind_eq_ok.mp done
      have present := indexXA_eq_ok entry
      split at rest
      · cases rest
      · rename_i vts used
        have known := clock_eq_some_iff.mpr ⟨te, present, used⟩
        exact ⟨_, ((rcinc_returns counted known).of_eq_ok done).1⟩
  | dec vi =>
      change tab.rcdec vi = .ok after at done
      obtain ⟨te, entry, rest⟩ := bind_eq_ok.mp done
      have present := indexXA_eq_ok entry
      split at rest
      · cases rest
      · split at rest
        · cases rest
        · rename_i positive
          rw [counted.counts vi te present] at positive
          have referenced := Multiset.count_ne_zero.mp positive
          exact ⟨_, ((rcdec_returns counted referenced).of_eq_ok done).1⟩

/-- The counts of references are not cached. -/
theorem rcCall_caches {event : RcEvent Nat}
    (done : tab.rcCall event = .ok after) :
    after.getOrderingCache = tab.getOrderingCache ∧
      after.join2Cache = tab.join2Cache := by
  cases event with
  | inc vi =>
      obtain ⟨te, -, rest⟩ := bind_eq_ok.mp done
      split at rest
      · cases rest
      · obtain ⟨-, -, same⟩ := bind_eq_ok.mp rest
        cases same
        exact ⟨rfl, rfl⟩
  | dec vi =>
      obtain ⟨te, -, rest⟩ := bind_eq_ok.mp done
      split at rest
      · cases rest
      · split at rest
        · cases rest
        · obtain ⟨-, -, same⟩ := bind_eq_ok.mp rest
          cases same
          exact ⟨rfl, rfl⟩

/-- A table that the sweep of the collection can work on. -/
structure Flushed (tab : VtsTab) : Prop where
  consistent : tab.Consistent
  noOrderings : ∀ slot, tab.getOrderingCache slot = none
  noJoins : ∀ slot, tab.join2Cache slot = none

theorem Flushed.flush (flushed : tab.Flushed) {flush : List (RcEvent Nat)}
    (done : flush.foldlM VtsTab.rcCall tab = .ok after) : after.Flushed := by
  apply @foldlM_eq_ok_invariant _ _ _ _ (fun _ tab => tab.Flushed) _ _ _ ?_
    flushed done
  intro n tab next event _ holds stepped
  obtain ⟨sameOrderings, sameJoins⟩ := rcCall_caches stepped
  refine ⟨holds.consistent.rcCall stepped, ?_, ?_⟩
  · rw [sameOrderings]
    exact holds.noOrderings
  · rw [sameJoins]
    exact holds.noJoins

theorem Consistent.doGC (consistent : tab.Consistent)
    {flush : List (RcEvent Nat)} (done : tab.doGC flush = .ok after) :
    after.Consistent := by
  obtain ⟨-, -, done⟩ := bind_eq_ok.mp done
  obtain ⟨middle, flushing, collected⟩ := bind_eq_ok.mp done
  obtain ⟨refs, counted⟩ := consistent
  -- The caches are emptied first, so no id in them can be recycled.
  have start : tab.invalidateCaches.Flushed :=
    ⟨⟨refs, counted.invalidateCaches⟩, fun _ => rfl, fun _ => rfl⟩
  have flushed := start.flush flushing
  obtain ⟨refs', counted'⟩ := flushed.consistent
  exact ⟨refs', ((collect_returns counted' flushed.noOrderings
    flushed.noJoins).of_eq_ok collected).1⟩

theorem Consistent.getOrdering (consistent : tab.Consistent) {ord : POrd}
    (done : tab.getOrdering vi1 vi2 = .ok (after, ord)) :
    after.Consistent := by
  have full := done
  unfold VtsTab.getOrdering at done
  split at done
  · cases done
    exact consistent
  · unfold getOrderingWRK at done
    split at done
    · cases done
      exact consistent
    · obtain ⟨v1, left, done⟩ := bind_eq_ok.mp done
      obtain ⟨v2, right, -⟩ := bind_eq_ok.mp done
      obtain ⟨refs, counted⟩ := consistent
      exact ⟨refs, ((getOrdering_returns counted (toVTS_eq_ok left)
        (toVTS_eq_ok right)).of_eq_ok full).1⟩

theorem Consistent.join2 (consistent : tab.Consistent) {res : Nat}
    (done : tab.join2 vi1 vi2 = .ok (after, res)) : after.Consistent := by
  have full := done
  unfold VtsTab.join2 at done
  split at done
  · cases done
    exact consistent
  · unfold join2WRK at done
    split at done
    · cases done
      exact consistent
    · obtain ⟨v1, left, done⟩ := bind_eq_ok.mp done
      obtain ⟨v2, right, -⟩ := bind_eq_ok.mp done
      obtain ⟨refs, counted⟩ := consistent
      exact ⟨refs, ((join2_returns counted (toVTS_eq_ok left)
        (toVTS_eq_ok right)).of_eq_ok full).1⟩

theorem Consistent.step (consistent : tab.Consistent) {op : VtsOp}
    (done : tab.step op = .ok after) : after.Consistent := by
  cases op with
  | mkSingleton thr =>
      obtain ⟨⟨middle, vi⟩, made, same⟩ := bind_eq_ok.mp done
      cases same
      obtain ⟨refs, counted⟩ := consistent
      exact ⟨refs, ((mkSingleton_returns counted thr).of_eq_ok made).1⟩
  | tick vi idx =>
      obtain ⟨⟨middle, res⟩, ticked, same⟩ := bind_eq_ok.mp done
      cases same
      obtain ⟨refs, counted⟩ := consistent
      obtain ⟨vts, found, -⟩ := bind_eq_ok.mp ticked
      exact ⟨refs,
        ((tick_returns counted (toVTS_eq_ok found) idx).of_eq_ok ticked).1⟩
  | join2 vi1 vi2 =>
      obtain ⟨⟨middle, res⟩, joined, same⟩ := bind_eq_ok.mp done
      cases same
      exact consistent.join2 joined
  | getOrdering vi1 vi2 =>
      obtain ⟨⟨middle, ord⟩, ordered, same⟩ := bind_eq_ok.mp done
      cases same
      exact consistent.getOrdering ordered
  | rc event => exact consistent.rcCall done
  | doGC flush => exact consistent.doGC done

theorem run_consistent {ops : List VtsOp}
    (ran : VtsTab.init.run ops = .ok tab) : tab.Consistent :=
  @foldlM_eq_ok_invariant _ _ _ _ (fun _ tab => tab.Consistent) _ _ _
    (fun _ _ _ _ _ holds stepped => holds.step stepped)
    ⟨0, Counted.init⟩ ran

end Steps

/-- Ids stand for timestamps faithfully, whatever has been interned, cached
and recycled before. -/
theorem ids_represent_clocks {ops : List VtsOp} {tab : VtsTab}
    (ran : VtsTab.init.run ops = .ok tab) :
    (∀ vi1 vi2 v1 v2, tab.clock vi1 = some v1 → tab.clock vi2 = some v2 →
      (vi1 = vi2 ↔ v1 = v2)) ∧
    (∀ vi vts, tab.clock vi = some vts ↔ tab.vtsSet.lookup vts = some vi) ∧
    (∃ chain, FreeChain tab.vtsTab tab.freelist chain ∧ chain.Nodup ∧
      ∀ (vi : Nat) (te : VtsTE), tab.vtsTab[vi]? = some te →
        (te.vts = none ↔ vi ∈ chain)) ∧
    (∀ vi1 vi2 v1 v2, tab.clock vi1 = some v1 → tab.clock vi2 = some v2 →
      Returns (tab.getOrdering vi1 vi2) (fun result =>
        result.2 = v1.cmp v2) ∧
      Returns (tab.join2 vi1 vi2) (fun result =>
        result.1.clock result.2 = some (v1.join v2))) ∧
    (∀ vi vts idx, tab.clock vi = some vts →
      Returns (tab.tick vi idx) (fun result =>
        result.1.clock result.2 = some (vts.tick idx))) ∧
    ∀ thr, Returns (tab.mkSingleton thr) (fun result =>
      result.1.clock result.2 =
        some (VTS.singleton thr 1 Nat.one_pos)) := by
  obtain ⟨refs, counted⟩ := run_consistent ran
  refine ⟨?_, ?_, counted.free, ?_, ?_, ?_⟩
  · intro vi1 vi2 v1 v2 left right
    constructor
    · rintro rfl
      exact Option.some.inj (left.symm.trans right)
    · rintro rfl
      exact counted.clock_injective left right
  · exact fun vi vts => (counted.interned vts vi).symm
  · intro vi1 vi2 v1 v2 left right
    exact ⟨(getOrdering_returns counted left right).mono
        fun result holds => holds.2.2,
      (join2_returns counted left right).mono fun result holds => holds.2.2⟩
  · intro vi vts idx known
    exact (tick_returns counted known idx).mono fun result holds => holds.2.2
  · intro thr
    exact (mkSingleton_returns counted thr).mono fun result holds => holds.2.2

/-- The id 2 first stands for a join that a collection frees, and then for
another timestamp. -/
theorem ids_represent_clocks_recycled :
    ∃ tab v1 v2, VtsTab.init.run [.mkSingleton 1, .mkSingleton 2,
        .rc (.inc 0), .join2 0 1, .getOrdering 0 2, .doGC [], .tick 0 1] =
        .ok tab ∧
      tab.clock 0 = some v1 ∧ tab.clock 2 = some v2 ∧ v1.cmp v2 = .lt ∧
      Returns (tab.getOrdering 0 2) (fun result =>
        result.2 = v1.cmp v2) := by
  have shown : (VtsTab.init.run [.mkSingleton 1, .mkSingleton 2,
      .rc (.inc 0), .join2 0 1, .getOrdering 0 2, .doGC [],
      .tick 0 1]).toOption.map (fun tab => (tab.clock 0, tab.clock 2)) =
      some (some (VTS.singleton 1 1 Nat.one_pos),
        some ((VTS.singleton 1 1 Nat.one_pos).tick 1)) := by decide
  obtain ⟨tab, ran, seen⟩ := exists_ok_of_map shown
  obtain ⟨left, right⟩ := Prod.mk.inj seen
  exact ⟨tab, _, _, ran, left, right, by decide,
    ((ids_represent_clocks ran).2.2.2.1 0 2 _ _ left right).1⟩

end VtsTab
end HelgrindPlus
