import HelgrindPlus.Zsm.Store
import Mathlib.Data.List.Sort

/-!
# The cache of lines

`cache_shmem`, a direct-mapped write-back cache of 65536 lines in front of
the store.  A line of the cache whose tag is 1 is not in use; the model lists
those that are, by their index.  The functions return the calls of `rcinc`
and `rcdec` that they make.
-/

namespace HelgrindPlus

open Outcome

variable {α : Type}

structure Zsm (α : Type) where
  store : Store α
  cache : AList (fun _ : Nat => Nat × CacheLine α)

/-- The tag of the line of an address: `a & ~(N_LINE_ARANGE - 1)`. -/
def lineTag (a : Nat) : Nat := a / 64 * 64

/-- The variable `wix`: `(a >> N_LINE_BITS) & (N_WAY_NENT - 1)`. -/
def wayIndex (a : Nat) : Nat := a / 64 % 65536

def isValidScacheTag (tag : Nat) : Bool := tag % 64 = 0

private theorem isValidScacheTag_of {tag : Nat} (aligned : tag % 64 = 0) :
    isValidScacheTag tag = true := decide_eq_true aligned

namespace Zsm

def init [ShadowVal α] : Zsm α := ⟨Store.init, ∅⟩

def tags0 (z : Zsm α) (wix : Nat) : Nat :=
  match z.cache.lookup wix with
  | some (tag, _) => tag
  | none => 1

section Values

variable [DecidableEq α] [ShadowVal α]

def cachelineWback (z : Zsm α) (wix : Nat) :
    Except Abort (Zsm α × List (RcEvent α)) :=
  match z.cache.lookup wix with
  | some (tag, cl) =>
      if isValidScacheTag tag then do
        let (store, events) ← z.store.cachelineWback tag cl
        pure ({ z with store := store }, events)
      else .ok (z, [])
  | none => .ok (z, [])

def getCachelineMISS (z : Zsm α) (a : Nat) :
    Except Abort (Zsm α × List (RcEvent α)) := do
  tlAssert (lineTag a ≠ z.tags0 (wayIndex a))
  let (z, events) ← z.cachelineWback (wayIndex a)
  let (store, cl) ← z.store.cachelineFetch (lineTag a)
  pure (⟨store, z.cache.insert (wayIndex a) (lineTag a, cl)⟩, events)

def getCacheline (z : Zsm α) (a : Nat) :
    Except Abort (Zsm α × List (RcEvent α)) :=
  if lineTag a = z.tags0 (wayIndex a) then .ok (z, [])
  else z.getCachelineMISS a

/-- The body of the loop of `shmem__flush_and_invalidate_scache`. -/
def flushLine (acc : Zsm α × List (RcEvent α)) (wix : Nat) :
    Except Abort (Zsm α × List (RcEvent α)) := do
  let (z, events) := acc
  tlAssert (isValidScacheTag (z.tags0 wix) = true)
  let (z, more) ← z.cachelineWback wix
  pure ({ z with cache := z.cache.erase wix }, events ++ more)

/-- The function `zsm_flush_cache`.  Lines that are not in use need no
work. -/
def flushCache (z : Zsm α) : Except Abort (Zsm α × List (RcEvent α)) :=
  (z.cache.keys.insertionSort (· ≤ ·)).foldlM flushLine (z, [])

variable {z : Zsm α} {a wix : Nat}

/-- The shadow value of a byte, wherever it is kept. -/
def byte (z : Zsm α) (a : Nat) : α :=
  match z.cache.lookup (wayIndex a) with
  | some (tag, cl) => if tag = lineTag a then cl.byte (a % 64)
      else z.store.byte a
  | none => z.store.byte a

structure WF (z : Zsm α) : Prop where
  store : z.store.WF
  lines : ∀ wix tag cl, z.cache.lookup wix = some (tag, cl) →
    tag % 64 = 0 ∧ wayIndex tag = wix ∧ cl.Sane

theorem init_wf : (Zsm.init : Zsm α).WF := by
  refine ⟨Store.init_wf, ?_⟩
  intro wix tag cl bound
  cases bound

theorem init_byte (a : Nat) : (Zsm.init : Zsm α).byte a = noAccess := rfl

theorem WF.byte_ne_invalid (wf : z.WF) (a : Nat) : z.byte a ≠ invalid := by
  unfold byte
  split
  · rename_i tag cl bound
    split
    · exact (wf.lines _ _ _ bound).2.2.byte_ne_invalid
        (Nat.mod_lt _ (by decide))
    · exact wf.store.byte_ne_invalid a
  · exact wf.store.byte_ne_invalid a

/-- An operation that moves lines about and changes no byte. -/
structure Moved (z : Zsm α) (result : Zsm α × List (RcEvent α)) : Prop where
  wf : result.1.WF
  bytes : ∀ a, result.1.byte a = z.byte a
  ledger : RcEvent.Ledger noAccess z.store.vals result.2 result.1.store.vals
  incs : ∀ sv, .inc sv ∈ result.2 → ∃ a, z.byte a = sv

theorem Moved.refl (wf : z.WF) : Moved z (z, []) :=
  ⟨wf, fun a => rfl, RcEvent.Ledger.refl _, fun sv member => by cases member⟩

theorem Moved.trans {middle final : Zsm α}
    {events more : List (RcEvent α)} (first : Moved z (middle, events))
    (second : Moved middle (final, more)) :
    Moved z (final, events ++ more) := by
  refine ⟨second.wf, fun a => ?_, first.ledger.append second.ledger, ?_⟩
  · exact (second.bytes a).trans (first.bytes a)
  · intro sv member
    obtain early | late := List.mem_append.mp member
    · exact first.incs sv early
    · obtain ⟨a, same⟩ := second.incs sv late
      exact ⟨a, (first.bytes a).symm.trans same⟩

/-- The store is up to date for the addresses of a line of the cache. -/
def Synced (z : Zsm α) (wix : Nat) : Prop :=
  ∀ a, wayIndex a = wix → z.store.byte a = z.byte a

theorem byte_of_bound {tag : Nat} {cl : CacheLine α}
    (bound : z.cache.lookup (wayIndex a) = some (tag, cl)) :
    z.byte a = if tag = lineTag a then cl.byte (a % 64)
      else z.store.byte a := by
  unfold byte
  rw [bound]

theorem byte_of_unbound (unbound : z.cache.lookup (wayIndex a) = none) :
    z.byte a = z.store.byte a := by
  unfold byte
  rw [unbound]

/-- The store may change where the cache does not show it. -/
theorem byte_congr {after : Zsm α}
    (sameCache : after.cache.lookup (wayIndex a) =
      z.cache.lookup (wayIndex a))
    (sameStore : z.tags0 (wayIndex a) ≠ lineTag a →
      after.store.byte a = z.store.byte a) :
    after.byte a = z.byte a := by
  unfold byte
  unfold tags0 at sameStore
  rw [sameCache]
  split
  · rename_i tag cl bound
    rw [bound] at sameStore
    split
    · rfl
    · rename_i other
      exact sameStore other
  · rename_i unbound
    rw [unbound] at sameStore
    apply sameStore
    unfold lineTag
    dsimp only
    omega

theorem cachelineWback_returns (wf : z.WF) (wix : Nat) :
    Returns (z.cachelineWback wix) fun result =>
      Moved z result ∧ result.1.cache = z.cache ∧ result.1.Synced wix := by
  unfold cachelineWback
  split
  · rename_i tag cl bound
    obtain ⟨aligned, index, sane⟩ := wf.lines wix tag cl bound
    rw [if_pos (isValidScacheTag_of aligned)]
    apply (Store.cachelineWback_returns wf.store aligned sane).bind
    rintro ⟨store, events⟩ written
    apply Returns.pure
    have line : ∀ a, lineTag a = tag → wayIndex a = wix := by
      intro a same
      unfold wayIndex at index ⊢
      unfold lineTag at same
      omega
    have bytes : ∀ a, ({ z with store := store } : Zsm α).byte a =
        z.byte a := by
      intro a
      refine byte_congr (by rfl) fun other => ?_
      have elsewhere : lineTag a ≠ tag := by
        intro same
        unfold tags0 at other
        rw [line a same, bound] at other
        exact other same.symm
      exact (written.bytes a).trans (if_neg elsewhere)
    refine ⟨⟨⟨written.wf, wf.lines⟩, bytes, written.ledger, ?_⟩, rfl, ?_⟩
    · intro sv member
      obtain ⟨i, small, same⟩ := written.incs sv member
      have tagged : lineTag (tag + i) = tag := by
        unfold lineTag
        omega
      refine ⟨tag + i, ?_⟩
      have known := bound
      rw [← line _ tagged] at known
      rw [byte_of_bound known, if_pos tagged.symm, ← same]
      congr 1
      omega
    · intro a here
      rw [bytes a]
      have known := bound
      rw [← here] at known
      rw [byte_of_bound known]
      have stored : store.byte a = _ := written.bytes a
      dsimp only
      rw [stored]
      by_cases same : lineTag a = tag
      · rw [if_pos same.symm]
        exact if_pos same
      · rw [if_neg (Ne.symm same)]
        exact if_neg same
  · rename_i unbound
    refine Returns.ok ⟨Moved.refl wf, rfl, ?_⟩
    intro a here
    rw [← here] at unbound
    exact (byte_of_unbound unbound).symm

/-- The line of an address is in the cache. -/
def Resident (z : Zsm α) (a : Nat) : Prop :=
  ∃ cl, z.cache.lookup (wayIndex a) = some (lineTag a, cl)

private theorem getCachelineMISS_returns (wf : z.WF)
    (missing : lineTag a ≠ z.tags0 (wayIndex a)) :
    Returns (z.getCachelineMISS a) fun result =>
      Moved z result ∧ result.1.Resident a := by
  unfold getCachelineMISS
  rw [tlAssert_of missing, ok_bind]
  apply (cachelineWback_returns wf _).bind
  rintro ⟨evicted, events⟩ ⟨moved, sameCache, synced⟩
  have aligned : lineTag a % 64 = 0 := Nat.mul_mod_left _ _
  apply (Store.cachelineFetch_returns moved.wf.store aligned).bind
  rintro ⟨store, cl⟩ fetched
  apply Returns.pure
  have here : (evicted.cache.insert (wayIndex a) (lineTag a, cl)).lookup
      (wayIndex a) = some (lineTag a, cl) := AList.lookup_insert _
  have others : ∀ wix, wix ≠ wayIndex a →
      (evicted.cache.insert (wayIndex a) (lineTag a, cl)).lookup wix =
        evicted.cache.lookup wix :=
    fun wix different => AList.lookup_insert_ne different
  have fetch : Moved evicted
      (⟨store, evicted.cache.insert (wayIndex a) (lineTag a, cl)⟩, []) := by
    refine ⟨⟨fetched.wf, ?_⟩, ?_, fetched.ledger, fun sv member => by
      cases member⟩
    · intro wix tag line bound
      by_cases same : wix = wayIndex a
      · dsimp only at bound
        rw [same, here] at bound
        cases bound
        refine ⟨aligned, ?_, fetched.sane⟩
        rw [same]
        unfold wayIndex lineTag
        omega
      · dsimp only at bound
        rw [others wix same] at bound
        exact moved.wf.lines wix tag line bound
    · intro b
      by_cases same : wayIndex b = wayIndex a
      · rw [← synced b same]
        have known : (evicted.cache.insert (wayIndex a)
            (lineTag a, cl)).lookup (wayIndex b) = some (lineTag a, cl) := by
          rw [same]
          exact here
        rw [byte_of_bound known]
        split
        · rename_i sameLine
          exact fetched.line b sameLine.symm
        · exact fetched.bytes b
      · apply byte_congr (others _ same)
        intro _
        exact fetched.bytes b
  have both := moved.trans fetch
  rw [List.append_nil] at both
  exact ⟨both, cl, here⟩

omit [DecidableEq α] [ShadowVal α] in
theorem resident_of_tags0 (hit : lineTag a = z.tags0 (wayIndex a)) :
    z.Resident a := by
  unfold tags0 at hit
  unfold Resident
  split at hit
  · rename_i tag cl bound
    exact ⟨cl, by rw [bound, hit]⟩
  · unfold lineTag at hit
    omega

theorem getCacheline_returns (wf : z.WF) (a : Nat) :
    Returns (z.getCacheline a) fun result =>
      Moved z result ∧ result.1.Resident a := by
  unfold getCacheline
  split
  · rename_i hit
    exact Returns.ok ⟨Moved.refl wf, resident_of_tags0 hit⟩
  · rename_i missing
    exact getCachelineMISS_returns wf missing

/-- A line that the store has may be dropped. -/
theorem Synced.erase (wf : z.WF) (synced : z.Synced wix) :
    Moved z ({ z with cache := z.cache.erase wix }, []) := by
  have others : ∀ other, other ≠ wix →
      (z.cache.erase wix).lookup other = z.cache.lookup other :=
    fun other different => AList.lookup_erase_ne different
  refine ⟨⟨wf.store, ?_⟩, ?_, RcEvent.Ledger.refl _, fun sv member => by
    cases member⟩
  · intro other tag cl bound
    have different : other ≠ wix := by
      rintro rfl
      dsimp only at bound
      rw [AList.lookup_erase] at bound
      cases bound
    dsimp only at bound
    rw [others other different] at bound
    exact wf.lines other tag cl bound
  · intro a
    by_cases here : wayIndex a = wix
    · rw [← synced a here]
      apply byte_of_unbound
      dsimp only
      rw [here]
      exact AList.lookup_erase wix z.cache
    · exact byte_congr (others _ here) fun _ => rfl

private theorem flushLine_returns {start : Zsm α} {events : List (RcEvent α)}
    {tag : Nat} {cl : CacheLine α} (moved : Moved start (z, events))
    (bound : z.cache.lookup wix = some (tag, cl)) :
    Returns (flushLine (z, events) wix) fun result =>
      Moved start result ∧ result.1.cache = z.cache.erase wix := by
  have wf : z.WF := moved.wf
  have valid : isValidScacheTag (z.tags0 wix) = true := by
    unfold tags0
    rw [bound]
    exact isValidScacheTag_of (wf.lines wix tag cl bound).1
  unfold flushLine
  dsimp only
  rw [tlAssert_of valid, ok_bind]
  apply (cachelineWback_returns wf wix).bind
  rintro ⟨evicted, more⟩ ⟨wback, sameCache, synced⟩
  apply Returns.pure
  have dropped := (moved.trans wback).trans (synced.erase wback.wf)
  rw [List.append_nil] at dropped
  dsimp only at sameCache ⊢
  rw [sameCache] at dropped ⊢
  exact ⟨dropped, rfl⟩

/-- The lines whose indices the loop has passed are gone. -/
theorem foldlM_flushLine_returns {start : Zsm α}
    {events : List (RcEvent α)} {indices : List Nat}
    (distinct : indices.Nodup)
    (listed : ∀ wix, wix ∈ indices ↔ wix ∈ z.cache)
    (moved : Moved start (z, events)) :
    Returns (indices.foldlM flushLine (z, events)) fun result =>
      Moved start result ∧ ∀ wix, result.1.cache.lookup wix = none := by
  induction indices generalizing z events with
  | nil =>
      refine Returns.pure ⟨moved, fun wix => ?_⟩
      rw [AList.lookup_eq_none]
      exact fun bound => absurd ((listed wix).mpr bound) (by simp)
  | cons wix rest induction =>
      rw [List.foldlM_cons]
      have present : wix ∈ z.cache := (listed wix).mp List.mem_cons_self
      obtain ⟨⟨tag, cl⟩, bound⟩ :=
        Option.isSome_iff_exists.mp (AList.lookup_isSome.mpr present)
      apply (flushLine_returns moved bound).bind
      rintro ⟨flushed, more⟩ ⟨movedOn, erased⟩
      have unlisted := (List.nodup_cons.mp distinct).1
      apply induction (List.nodup_cons.mp distinct).2 ?_ movedOn
      intro other
      dsimp only at erased
      rw [erased, AList.mem_erase, ← listed other]
      constructor
      · intro member
        refine ⟨?_, List.mem_cons_of_mem _ member⟩
        rintro rfl
        exact unlisted member
      · rintro ⟨different, member⟩
        exact (List.mem_cons.mp member).resolve_left different

theorem flushCache_returns (wf : z.WF) :
    Returns z.flushCache fun result =>
      Moved z result ∧ ∀ wix, result.1.cache.lookup wix = none := by
  unfold flushCache
  have sorted := List.perm_insertionSort (· ≤ ·) z.cache.keys
  apply foldlM_flushLine_returns
  · exact sorted.nodup_iff.mpr z.cache.nodupKeys
  · intro wix
    rw [sorted.mem_iff]
    rfl
  · exact Moved.refl wf

end Values

end Zsm

end HelgrindPlus
