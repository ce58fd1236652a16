import HelgrindPlus.LibHB.EventMapGC

/-!
# Runs of the map of conflicting accesses

Any sequence of `event_map_bind` and `event_map_maybe_GC` of `libhb_core.c`.
The stack trace of the thread and the address that the allocator hands out
come with the call.  The counts stay exact, whether or not the expensive
checks are compiled in.
-/

namespace HelgrindPlus

open Outcome

inductive MapCall where
  | bind (a : UWord) (szB : Nat) (isW : Bool) (thr : UWord)
      (trace : Vector UWord 8) (fresh : UWord)
  | maybeGC
  deriving DecidableEq

/-- Accesses are of a size that can be encoded, and pointers to threads and
stack traces have room for tags. -/
def MapCall.Allowed : MapCall → Prop
  | .bind _ szB _ thr _ fresh => (szB = 1 ∨ szB = 2 ∨ szB = 4 ∨ szB = 8) ∧
      (thr &&& 3 = 0 ∧ thr ≠ 0) ∧ fresh &&& 3 = 0 ∧ fresh ≠ 0
  | .maybeGC => True

instance : DecidablePred MapCall.Allowed
  | .bind .. => inferInstanceAs (Decidable (_ ∧ _))
  | .maybeGC => inferInstanceAs (Decidable True)

/-- The allocator does not hand out the address of a record that has not been
freed. -/
def MapCall.Unused (map : EventMap) : MapCall → Prop
  | .bind _ _ _ _ _ fresh => map.ctxts.heap.lookup fresh = none
  | .maybeGC => True

namespace EventMap

def perform (check : Bool) (size : Nat) (map : EventMap) :
    MapCall → Except Abort EventMap
  | .bind a szB isW thr trace fresh => map.bind a szB isW thr trace fresh
  | .maybeGC => map.maybeGC check size

def run (check : Bool) (size : Nat) (calls : List MapCall) :
    Except Abort EventMap :=
  calls.foldlM (perform check size) init

/-- The slots of all addresses. -/
def slots (map : EventMap) : List ThrNRCEC :=
  map.oldrefTree.entries.flatMap (·.2.accs)

/-- Every count is the number of slots that refer to the record. -/
structure Exact (map : EventMap) : Prop where
  rc : ∀ p ec, map.ctxts.heap.lookup p = some ec →
    ec.rc = map.slots.countP (·.ref = p)
  referred : ∀ acc ∈ map.slots, acc ≠ .null →
    map.ctxts.heap.lookup acc.ref ≠ none
  chained : ∀ p ec, map.ctxts.heap.lookup p = some ec →
    p ∈ map.ctxts.contextTab (hent ec.frames)
  listed : ∀ i p, p ∈ map.ctxts.contextTab i →
    ∃ ec, map.ctxts.heap.lookup p = some ec ∧ hent ec.frames = i
  once : ∀ i, (map.ctxts.contextTab i).Nodup
  frames : ∀ p q ec ec', map.ctxts.heap.lookup p = some ec →
    map.ctxts.heap.lookup q = some ec' → ec.frames = ec'.frames → p = q
  triples : ∀ a ref, map.oldrefTree.lookup a = some ref → ∀ i j,
    ref.slot i ≠ .null → ref.slot j ≠ .null →
      (ref.slot i).triple = (ref.slot j).triple → i = j
  first : ∀ a ref, map.oldrefTree.lookup a = some ref →
    ∃ n, 0 < n ∧ n ≤ nOldrefAccs ∧ ∀ i, ref.slot i ≠ .null ↔ i < n
  size : map.oldrefTreeN = map.oldrefTree.entries.length
  curr : map.ctxts.ctxtTabCurr = map.ctxts.heap.entries.length

end EventMap

namespace OldRef

section Slots

variable {ref : OldRef} {used : List ThrNRCEC} {i : Nat}

theorem Good.slot_eq (good : ref.Good used) (i : Nat) :
    ref.slot i = used.getD i .null := by
  unfold slot
  rw [good.accs]
  by_cases inside : i < used.length
  · rw [List.getD_eq_getElem?_getD, List.getD_eq_getElem?_getD,
      List.getElem?_append_left inside]
  · have outside : used.length ≤ i := not_lt.mp inside
    rw [List.getD_eq_getElem?_getD, List.getD_eq_getElem?_getD,
      List.getElem?_append_right outside, List.getElem?_eq_none outside,
      List.getElem?_replicate]
    split <;> rfl

theorem Good.slot_ne_null (good : ref.Good used) :
    ref.slot i ≠ .null ↔ i < used.length := by
  rw [good.slot_eq]
  constructor
  · intro isUsed
    by_contra outside
    apply isUsed
    rw [List.getD_eq_getElem?_getD,
      List.getElem?_eq_none (not_lt.mp outside), Option.getD_none]
  · intro inside null
    have isUsed := good.all used[i] (List.getElem_mem inside)
    apply isUsed.ref_ne_zero
    have isNull : used[i] = .null := by simpa [inside] using null
    rw [isNull]
    decide

end Slots
end OldRef

namespace EventMap

section Runs

variable {map : EventMap} {ref : OldRef} {used : List ThrNRCEC}
  {check : Bool} {size : Nat} {calls : List MapCall}

private theorem count_refs (map : EventMap) (p : UWord) :
    map.refs.count p = map.slots.countP (·.ref = p) := by
  have sum : map.refs = ((map.slots.map ThrNRCEC.ref : List UWord) :
      Multiset UWord) := by
    unfold refs slots AList.total
    generalize map.oldrefTree.entries = entries
    induction entries with
    | nil => rfl
    | cons entry entries induction =>
        rw [List.map_cons, List.sum_cons, induction, List.flatMap_cons,
          List.map_append, ← Multiset.coe_add]
        rfl
  rw [sum, Multiset.coe_count, List.count_eq_countP, List.countP_map]
  apply List.countP_congr
  intro acc _
  simp

theorem Consistent.exact (consistent : map.Consistent) : map.Exact where
  rc p ec found := by rw [consistent.counts.exact p ec found, count_refs]
  referred acc member isUsed := by
    have positive : 0 < map.slots.countP (·.ref = acc.ref) :=
      List.countP_pos_iff.mpr ⟨acc, member, decide_eq_true rfl⟩
    rw [← count_refs, Multiset.count_pos] at positive
    obtain ⟨entry, isEntry, inAccs⟩ := List.mem_flatMap.mp member
    obtain ⟨used, good⟩ := consistent.good entry.1 entry.2
      (AList.mem_lookup_iff.mpr isEntry)
    rcases consistent.counts.bound acc.ref positive with null | bound
    · rcases good.valid acc inAccs with valid | unused
      · exact absurd null valid.ref_ne_zero
      · exact absurd unused isUsed
    · exact bound
  chained := consistent.wf.chained
  listed := consistent.wf.listed
  once := consistent.wf.nodup
  frames := consistent.wf.distinct
  triples a ref found i j inUse inUse' same := by
    obtain ⟨used, good⟩ := consistent.good a ref found
    have inside := good.slot_ne_null.mp inUse
    have inside' := good.slot_ne_null.mp inUse'
    have isSlot : ref.slot i = used[i] := by simp [good.slot_eq, inside]
    have isSlot' : ref.slot j = used[j] := by simp [good.slot_eq, inside']
    rw [isSlot, isSlot'] at same
    have equal : (used.map ThrNRCEC.triple)[i]? =
        (used.map ThrNRCEC.triple)[j]? := by
      simp [inside, inside', same]
    exact (List.getElem?_inj (by simpa using inside) good.triples).mp equal
  first a ref found := by
    obtain ⟨used, good⟩ := consistent.good a ref found
    exact ⟨used.length, List.length_pos_of_ne_nil good.some, good.length_le,
      fun i => good.slot_ne_null⟩
  size := consistent.size
  curr := consistent.wf.curr

theorem perform_returns (consistent : map.Consistent) (least : 10000 ≤ size)
    (most : size ≤ 10000000) {call : MapCall} (allowed : call.Allowed)
    (unused : call.Unused map) :
    Returns (map.perform check size call) (fun after => after.Consistent ∧
      (call = .maybeGC → size ≤ map.oldrefTreeN →
        Collected size map after)) := by
  cases call with
  | bind a szB isW thr trace fresh =>
      obtain ⟨isSize, isThr, isFresh⟩ := allowed
      apply (bind_returns consistent isSize isThr isFresh unused).mono
      rintro after ⟨consistent', -⟩
      exact ⟨consistent', fun impossible => by cases impossible⟩
  | maybeGC =>
      apply (maybeGC_returns consistent check least most).mono
      intro after spec
      exact ⟨spec.1, fun _ => spec.2⟩

theorem run_take_succ {n : Nat} {call : MapCall}
    (atN : calls[n]? = some call) :
    run check size (calls.take (n + 1)) =
      run check size (calls.take n) >>= (perform check size · call) :=
  foldlM_take_succ atN _

theorem run_consistent (least : 10000 ≤ size) (most : size ≤ 10000000)
    (allowed : ∀ call ∈ calls, call.Allowed)
    (unused : ∀ n map call, run check size (calls.take n) = .ok map →
      calls[n]? = some call → call.Unused map) (n : Nat) :
    Returns (run check size (calls.take n)) Consistent := by
  refine take_induction ?_ (fun n call atN induction => ?_) n
  · exact .pure .init
  · obtain ⟨map, isMap, consistent⟩ := induction
    rw [run_take_succ atN, isMap, ok_bind]
    apply (perform_returns consistent least most
      (allowed call (List.mem_of_getElem? atN))
      (unused n map call isMap atN)).mono
    exact fun after spec => spec.1

/-- No assertion fails, the counts are exact after any calls, and a collection
leaves what it should. -/
theorem event_map_exact (check : Bool) {size : Nat} (least : 10000 ≤ size)
    (most : size ≤ 10000000) {calls : List MapCall}
    (allowed : ∀ call ∈ calls, call.Allowed)
    (unused : ∀ n map call, run check size (calls.take n) = .ok map →
      calls[n]? = some call → call.Unused map) :
    Returns (run check size calls) Exact ∧
    ∀ n before after, calls[n]? = some .maybeGC →
      run check size (calls.take n) = .ok before →
      run check size (calls.take (n + 1)) = .ok after →
      size ≤ before.oldrefTreeN → Collected size before after := by
  have consistent := run_consistent least most allowed unused
  constructor
  · have final := consistent calls.length
    rw [List.take_length] at final
    exact final.mono fun map isConsistent => isConsistent.exact
  · intro n before after atN isBefore isAfter full
    rw [run_take_succ atN, isBefore, ok_bind] at isAfter
    have spec := (perform_returns ((consistent n).of_eq_ok isBefore) least
      most (allowed _ (List.mem_of_getElem? atN))
      (unused n before _ isBefore atN)).of_eq_ok isAfter
    exact spec.2 rfl full

/-- Whether the allocator may hand out what it does at a call. -/
def unusedAt (check : Bool) (size : Nat) (calls : List MapCall) (n : Nat) :
    Bool :=
  match run check size (calls.take n), calls[n]? with
  | .ok map, some (.bind _ _ _ _ _ fresh) =>
      (map.ctxts.heap.lookup fresh).isNone
  | _, _ => true

theorem unused_of_unusedAt
    (holds : ∀ n < calls.length, unusedAt check size calls n = true) (n : Nat)
    (map : EventMap) (call : MapCall)
    (isMap : run check size (calls.take n) = .ok map)
    (atN : calls[n]? = some call) : call.Unused map := by
  have here := holds n (List.getElem?_eq_some_iff.mp atN).1
  unfold unusedAt at here
  rw [isMap, atN] at here
  cases call with
  | bind a szB isW thr trace fresh => exact Option.isNone_iff_eq_none.mp here
  | maybeGC => trivial

/-- Two threads access an address, the second one again from another place,
and its neighbour is accessed. -/
def neighbours : List MapCall :=
  let trace := #v[0x4004, 0x4008, 0, 0, 0, 0, 0, 0]
  let other := #v[0x4010, 0x4008, 0, 0, 0, 0, 0, 0]
  [.bind 0x1000 4 true 0x80 trace 0x200,
    .bind 0x1000 4 false 0x90 trace 0x300,
    .bind 0x1000 4 false 0x90 other 0x300, .maybeGC,
    .bind 0x1004 1 true 0x80 trace 0x400]

theorem event_map_exact_neighbours :
    Returns (run true 10000 neighbours) Exact :=
  (event_map_exact true (by decide) (by decide) (by decide)
    (unused_of_unusedAt (by decide))).1

end Runs
end EventMap
end HelgrindPlus
