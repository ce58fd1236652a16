import HelgrindPlus.LibHB.EventMapRuns

/-!
# Looking up a conflicting access

The function `libhb_event_map_lookup` of `libhb_core.c`.  Accesses are kept
under the address at which they start, so the search tries every address from
which an access of at most eight bytes can reach the range asked about, and
in each slot there decodes the thread, the direction and the size.
-/

namespace HelgrindPlus

open Outcome

/-- The end of an access has an address. -/
def NoWrap (a : UWord) (szB : Nat) : Prop := a.toNat + szB < 2 ^ 64

/-- Two ranges of addresses have one in common. -/
def Overlap (a1 : UWord) (n1 : Nat) (a2 : UWord) (n2 : Nat) : Prop :=
  a1.toNat < a2.toNat + n2 ∧ a2.toNat < a1.toNat + n1

instance (a1 : UWord) (n1 : Nat) (a2 : UWord) (n2 : Nat) :
    Decidable (Overlap a1 n1 a2 n2) :=
  inferInstanceAs (Decidable (_ ∧ _))

def cmpNonemptyIntervals (a1 : UWord) (n1 : Nat) (a2 : UWord) (n2 : Nat) :
    Except Abort Int := do
  let n1w := BitVec.ofNat 64 n1
  let n2w := BitVec.ofNat 64 n2
  tlAssert (n1w > 0#64 ∧ n2w > 0#64)
  if a1 + n1w ≤ a2 then pure (-1)
  else if a2 + n2w ≤ a1 then pure 1
  else pure 0

/-- The variables `cand_thr`, `cand_rcec`, `cand_isW` and `cand_szB`. -/
structure Candidate where
  thr : UWord
  rcec : UWord
  isW : Bool
  szB : Nat
  deriving DecidableEq

def ThrNRCEC.candidate (cand : ThrNRCEC) : Candidate where
  thr := cand.thr &&& ~~~3
  rcec := cand.rcec &&& ~~~3
  isW := cand.thr &&& 1 = 1
  szB :=
    if cand.rcec &&& 3 = 0 then 1
    else if cand.rcec &&& 3 = 1 then 2
    else if cand.rcec &&& 3 = 2 then 4
    else 8

/-- The results of a lookup.  An `ExeContext` is its frames. -/
structure Conflict where
  ec : List UWord
  thr : UWord
  szB : Nat
  isW : Bool
  deriving DecidableEq

def nFrames : Nat := 8

namespace EventMap

section Search

variable (backtraceSize : Nat) (map : EventMap) (thr a : UWord) (szB : Nat)
  (isW : Bool)

/-- One round of the loop over the slots of an address. -/
def probeSlot (candA : UWord) (acc : ThrNRCEC) :
    Except Abort (Option Candidate) :=
  let cand := acc.candidate
  if cand.thr = 0 then .ok none
  else if cand.thr = thr then .ok none
  else if !cand.isW && !isW then .ok none
  else do
    let ord ← cmpNonemptyIntervals a szB candA cand.szB
    if ord ≠ 0 then pure none else pure (some cand)

/-- One round of the loop over `toCheck`. -/
def probeAddr (candA : UWord) : Except Abort (Option Conflict) :=
  match map.oldrefTree.lookup candA with
  | none => .ok none
  | some ref => do
      tlAssert ((ref.slot 0).thr ≠ 0)
      match ← ref.accs.findSomeM? (probeSlot thr a szB isW candA) with
      | none => pure none
      | some cand => do
          tlAssert (cand.thr ≠ 0)
          tlAssert (cand.rcec ≠ 0)
          let record ← map.ctxts.get cand.rcec
          tlAssert (cand.szB ≥ 1)
          let frames := record.frames.toList.drop 1
          pure (some ⟨frames.take (min nFrames backtraceSize), cand.thr,
            cand.szB, cand.isW⟩)

/-- The addresses from `a - 7` up to the end of the range, `a` itself
first. -/
def toCheck : List UWord :=
  a :: (((List.range (7 + szB)).map fun n : Nat => (n : Int) - 7).filter
    (· ≠ 0)).map fun i => a + BitVec.ofInt 64 i

def lookup : Except Abort (Option Conflict) := do
  tlAssert (thr ≠ 0)
  tlAssert (szB = 8 ∨ szB = 4 ∨ szB = 2 ∨ szB = 1)
  tlAssert ((toCheck a szB).length ≤ 15)
  (toCheck a szB).findSomeM? (probeAddr backtraceSize map thr a szB isW)

end Search

/-- A recorded access. -/
structure Entry where
  a : UWord
  thr : UWord
  szB : Nat
  isW : Bool
  trace : List UWord

/-- The map holds the access, encoded as `event_map_bind` does it. -/
def Held (map : EventMap) (entry : Entry) : Prop :=
  ∃ ref rcec size record, map.oldrefTree.lookup entry.a = some ref ∧
    encodeSize entry.szB = .ok size ∧
    (entry.thr &&& 3 = 0 ∧ entry.thr ≠ 0) ∧ (rcec &&& 3 = 0 ∧ rcec ≠ 0) ∧
    ⟨entry.thr ||| (if entry.isW then 1 else 0), rcec ||| size⟩ ∈ ref.accs ∧
    map.ctxts.heap.lookup rcec = some record ∧
    entry.trace = record.frames.toList.drop 1

/-- The access is by another thread, one of the two is a write, and they have
a byte in common. -/
def Entry.ConflictsWith (entry : Entry) (thr a : UWord) (szB : Nat)
    (isW : Bool) : Prop :=
  entry.thr ≠ thr ∧ (entry.isW = true ∨ isW = true) ∧
    Overlap a szB entry.a entry.szB

end EventMap

private theorem cmpNonemptyIntervals_returns {a1 a2 : UWord} {n1 n2 : Nat}
    (some1 : 0 < n1) (some2 : 0 < n2) (noWrap1 : NoWrap a1 n1)
    (noWrap2 : NoWrap a2 n2) :
    Returns (cmpNonemptyIntervals a1 n1 a2 n2) fun ord =>
      ord = 0 ↔ Overlap a1 n1 a2 n2 := by
  unfold NoWrap at noWrap1 noWrap2
  have small1 : n1 < 2 ^ 64 := by omega
  have small2 : n2 < 2 ^ 64 := by omega
  have nonempty : BitVec.ofNat 64 n1 > 0#64 ∧ BitVec.ofNat 64 n2 > 0#64 := by
    simp only [gt_iff_lt, BitVec.lt_def, BitVec.toNat_ofNat]
    omega
  have end1 : a1 + BitVec.ofNat 64 n1 ≤ a2 ↔ a1.toNat + n1 ≤ a2.toNat := by
    rw [BitVec.le_def, BitVec.toNat_add, BitVec.toNat_ofNat]
    omega
  have end2 : a2 + BitVec.ofNat 64 n2 ≤ a1 ↔ a2.toNat + n2 ≤ a1.toNat := by
    rw [BitVec.le_def, BitVec.toNat_add, BitVec.toNat_ofNat]
    omega
  unfold cmpNonemptyIntervals Overlap
  simp only [end1, end2]
  rw [tlAssert_of nonempty, ok_bind]
  split
  · exact Returns.pure (by omega)
  · split
    · exact Returns.pure (by omega)
    · exact Returns.pure (by omega)

namespace EventMap

variable {map : EventMap} {thr a candA rcec size : UWord} {szB : Nat}
  {isW : Bool} {acc : ThrNRCEC} {entry : Entry}

theorem size_of_encodeSize {szB : Nat} (encoded : encodeSize szB = .ok size) :
    (szB = 1 ∧ size = 0) ∨ (szB = 2 ∧ size = 1) ∨ (szB = 4 ∧ size = 2) ∨
      (szB = 8 ∧ size = 3) := by
  unfold encodeSize at encoded
  split at encoded
  · exact .inl ⟨rfl, (Except.ok.inj encoded).symm⟩
  · exact .inr (.inl ⟨rfl, (Except.ok.inj encoded).symm⟩)
  · exact .inr (.inr (.inl ⟨rfl, (Except.ok.inj encoded).symm⟩))
  · exact .inr (.inr (.inr ⟨rfl, (Except.ok.inj encoded).symm⟩))
  · cases encoded

/-- A slot is decoded to what was encoded in it. -/
theorem candidate_of_encoded (isThr : thr &&& 3 = 0) (isRcec : rcec &&& 3 = 0)
    (encoded : encodeSize szB = .ok size) (isW : Bool) :
    ThrNRCEC.candidate ⟨thr ||| (if isW then 1 else 0), rcec ||| size⟩ =
      ⟨thr, rcec, isW, szB⟩ := by
  have sizes := size_of_encodeSize encoded
  have fits : size &&& ~~~3 = 0 := by
    rcases sizes with ⟨-, rfl⟩ | ⟨-, rfl⟩ | ⟨-, rfl⟩ | ⟨-, rfl⟩ <;> decide
  have bit : (if isW then 1 else 0 : UWord) = 0 ∨
      (if isW then 1 else 0 : UWord) = 1 := by
    cases isW <;> simp
  have within : (if isW then 1 else 0 : UWord) &&& ~~~3 = 0 := by
    rcases bit with same | same <;> rw [same] <;> decide
  unfold ThrNRCEC.candidate
  dsimp only
  rw [Tagged.word_of_tagged isThr within, Tagged.word_of_tagged isRcec fits,
    ThrNRCEC.direction_of_tagged isThr bit, Tagged.tag_of_tagged isRcec fits]
  rw [Candidate.mk.injEq]
  refine ⟨rfl, rfl, ?_, ?_⟩
  · cases isW <;> rfl
  · rcases sizes with ⟨rfl, rfl⟩ | ⟨rfl, rfl⟩ | ⟨rfl, rfl⟩ | ⟨rfl, rfl⟩ <;> rfl

private theorem encodeSize_of_fits (fits : size &&& ~~~3 = 0) :
    ∃ szB, encodeSize szB = .ok size := by
  have masked : size &&& 3 = size := Tagged.and_of_within fits
  have small : size.toNat ≤ 3 := by
    rw [← masked, BitVec.toNat_and]
    exact Nat.and_le_right
  obtain zero | one | two | three :
      size = 0#64 ∨ size = 1#64 ∨ size = 2#64 ∨ size = 3#64 := by
    simp only [← BitVec.toNat_inj, BitVec.toNat_ofNat]
    omega
  · exact ⟨1, by rw [zero]; rfl⟩
  · exact ⟨2, by rw [one]; rfl⟩
  · exact ⟨4, by rw [two]; rfl⟩
  · exact ⟨8, by rw [three]; rfl⟩

/-- Every slot in use holds an access. -/
theorem Consistent.held (consistent : map.Consistent) {ref : OldRef}
    (found : map.oldrefTree.lookup candA = some ref) (member : acc ∈ ref.accs)
    (isUsed : acc.Used) :
    ∃ entry, map.Held entry ∧ entry.a = candA ∧ entry.thr ≠ 0 ∧
      ∃ rcec record, acc.candidate =
        ⟨entry.thr, rcec, entry.isW, entry.szB⟩ ∧ rcec ≠ 0 ∧
        map.ctxts.heap.lookup rcec = some record ∧
        entry.trace = record.frames.toList.drop 1 := by
  have listed : acc ∈ map.slots :=
    List.mem_flatMap.mpr ⟨⟨candA, ref⟩, AList.mem_lookup_iff.mp found, member⟩
  have inUse : acc ≠ .null := by
    intro null
    apply isUsed.ref_ne_zero
    rw [null]
    decide
  have bound := consistent.exact.referred acc listed inUse
  obtain ⟨thr, bit, rcec, size, rfl, isThr, direction, isRcec, fits⟩ :=
    isUsed.encoded
  obtain ⟨szB, encoded⟩ := encodeSize_of_fits fits
  obtain ⟨isW, isBit⟩ : ∃ isW : Bool, bit = if isW then 1 else 0 := by
    rcases direction with rfl | rfl
    · exact ⟨false, rfl⟩
    · exact ⟨true, rfl⟩
  subst isBit
  have isRef : ThrNRCEC.ref ⟨thr ||| (if isW then 1 else 0), rcec ||| size⟩ =
      rcec := Tagged.word_of_tagged isRcec.1 fits
  rw [isRef] at bound
  obtain ⟨record, isRecord⟩ := Option.ne_none_iff_exists'.mp bound
  refine ⟨⟨candA, thr, szB, isW, record.frames.toList.drop 1⟩, ?_, rfl,
    isThr.2, rcec, record, ?_, isRcec.2, isRecord, rfl⟩
  · exact ⟨ref, rcec, size, record, found, encoded, isThr, isRcec, member,
      isRecord, rfl⟩
  · exact candidate_of_encoded isThr.1 isRcec.1 encoded isW

/-- What the loop over the slots looks for. -/
def Hit (thr a : UWord) (szB : Nat) (isW : Bool) (candA : UWord)
    (cand : Candidate) : Prop :=
  cand.thr ≠ 0 ∧ cand.thr ≠ thr ∧ (cand.isW = true ∨ isW = true) ∧
    Overlap a szB candA cand.szB

private theorem probeSlot_returns (nonempty : 0 < szB) (noWrap : NoWrap a szB)
    (fits : acc.candidate.thr ≠ 0 → 0 < acc.candidate.szB ∧
      NoWrap candA acc.candidate.szB) :
    Returns (probeSlot thr a szB isW candA acc) fun found =>
      match found with
      | some cand => cand = acc.candidate ∧ Hit thr a szB isW candA cand
      | none => ¬ Hit thr a szB isW candA acc.candidate := by
  unfold probeSlot Hit
  dsimp only
  split
  · rename_i unused
    exact Returns.ok fun hit => hit.1 unused
  rename_i used
  split
  · rename_i own
    exact Returns.ok fun hit => hit.2.1 own
  rename_i other
  split
  · rename_i reads
    refine Returns.ok fun hit => ?_
    simp only [Bool.and_eq_true, Bool.not_eq_true'] at reads
    rcases hit.2.2.1 with wrote | writes
    · rw [reads.1] at wrote
      cases wrote
    · rw [reads.2] at writes
      cases writes
  rename_i writes
  obtain ⟨nonemptyCand, noWrapCand⟩ := fits used
  apply (cmpNonemptyIntervals_returns nonempty nonemptyCand noWrap
    noWrapCand).bind
  intro ord isOrd
  split
  · rename_i apart
    exact Returns.pure fun hit => apart (isOrd.mpr hit.2.2.2)
  · rename_i meet
    refine Returns.pure ⟨rfl, used, other, ?_, isOrd.mp (not_not.mp meet)⟩
    simp only [Bool.and_eq_true, Bool.not_eq_true', not_and_or,
      Bool.not_eq_false] at writes
    exact writes

/-- No access in the map reaches past the last address. -/
def NoneWraps (map : EventMap) : Prop :=
  ∀ entry, map.Held entry → NoWrap entry.a entry.szB

/-- What a lookup answers for an access. -/
def Entry.conflict (entry : Entry) (backtraceSize : Nat) : Conflict :=
  ⟨entry.trace.take (min nFrames backtraceSize), entry.thr, entry.szB,
    entry.isW⟩

theorem Held.szB_pos (held : map.Held entry) : 0 < entry.szB := by
  obtain ⟨ref, rcec, size, record, -, encoded, -⟩ := held
  have := size_of_encodeSize encoded
  omega

theorem Held.szB_le (held : map.Held entry) : entry.szB ≤ 8 := by
  obtain ⟨ref, rcec, size, record, -, encoded, -⟩ := held
  have := size_of_encodeSize encoded
  omega

private theorem probeAddr_returns (consistent : map.Consistent)
    (noneWraps : map.NoneWraps) (nonempty : 0 < szB) (noWrap : NoWrap a szB)
    (backtraceSize : Nat) (candA : UWord) :
    Returns (probeAddr backtraceSize map thr a szB isW candA) fun found =>
      match found with
      | some conflict => ∃ entry, map.Held entry ∧
          entry.ConflictsWith thr a szB isW ∧
          conflict = entry.conflict backtraceSize
      | none => ∀ entry, map.Held entry → entry.a = candA →
          ¬ entry.ConflictsWith thr a szB isW := by
  unfold probeAddr
  split
  · rename_i unbound
    refine Returns.ok fun entry held here => ?_
    obtain ⟨ref, rcec, size, record, bound, -⟩ := held
    rw [here, unbound] at bound
    cases bound
  rename_i ref bound
  obtain ⟨used, good⟩ := consistent.good candA ref bound
  have first : (ref.slot 0).thr ≠ 0 := by
    have inside := List.length_pos_of_ne_nil good.some
    have isFirst : ref.slot 0 = used[0] := by
      simp [good.slot_eq, inside]
    rw [isFirst]
    exact (good.all _ (List.getElem_mem inside)).packed_ne_zero
  rw [tlAssert_of first, ok_bind]
  have slots : ∀ acc ∈ ref.accs, Returns (probeSlot thr a szB isW candA acc)
      fun found =>
        match found with
        | some cand => cand = acc.candidate ∧ Hit thr a szB isW candA cand
        | none => ¬ Hit thr a szB isW candA acc.candidate := by
    intro acc member
    apply probeSlot_returns nonempty noWrap
    intro inUse
    rcases good.valid acc member with isUsed | isNull
    · obtain ⟨entry, held, here, -, rcec, record, decoded, -⟩ :=
        consistent.held bound member isUsed
      rw [decoded]
      refine ⟨held.szB_pos, ?_⟩
      rw [← here]
      exact noneWraps entry held
    · rw [isNull] at inUse
      exact absurd rfl inUse
  apply (Returns.findSomeM? slots).bind
  intro found searched
  cases found with
  | none =>
      refine Returns.pure fun entry held here conflicts => ?_
      obtain ⟨ref', rcec, size, record, bound', encoded, isThr, isRcec,
        member, -⟩ := held
      rw [here, bound] at bound'
      cases bound'
      apply searched _ member
      rw [candidate_of_encoded isThr.1 isRcec.1 encoded]
      obtain ⟨other, writes, overlap⟩ := conflicts
      rw [here] at overlap
      exact ⟨isThr.2, other, writes, overlap⟩
  | some cand =>
      obtain ⟨acc, member, isCand, inUse, other, writes, overlap⟩ := searched
      subst isCand
      have isUsed : acc.Used := by
        rcases good.valid acc member with isUsed | isNull
        · exact isUsed
        · rw [isNull] at inUse
          exact absurd rfl inUse
      obtain ⟨entry, held, here, -, rcec, record, decoded, isRcec, isRecord,
        isTrace⟩ := consistent.held bound member isUsed
      rw [decoded] at inUse other writes overlap ⊢
      have fetched : map.ctxts.get rcec = .ok record := by
        unfold Contexts.get
        rw [isRecord]
      dsimp only at inUse other writes overlap ⊢
      rw [tlAssert_of inUse, ok_bind, tlAssert_of isRcec, ok_bind, fetched,
        ok_bind, tlAssert_of (show entry.szB ≥ 1 from held.szB_pos), ok_bind]
      refine Returns.pure ⟨entry, held, ⟨other, writes, ?_⟩, ?_⟩
      · rw [here]
        exact overlap
      · rw [Entry.conflict, isTrace]

/-- An access of at most eight bytes that overlaps the range starts at one of
the addresses tried. -/
theorem mem_toCheck (small : entry.szB ≤ 8)
    (overlap : Overlap a szB entry.a entry.szB) :
    entry.a ∈ toCheck a szB := by
  obtain ⟨before, after⟩ := overlap
  by_cases same : entry.a = a
  · rw [same]
    exact List.mem_cons_self
  have different : entry.a.toNat ≠ a.toNat :=
    fun equal => same (BitVec.eq_of_toNat_eq equal)
  apply List.mem_cons_of_mem
  rw [List.mem_map]
  refine ⟨(entry.a.toNat : Int) - a.toNat, ?_, ?_⟩
  · rw [List.mem_filter, List.mem_map]
    refine ⟨⟨entry.a.toNat + 7 - a.toNat, ?_, ?_⟩, ?_⟩
    · rw [List.mem_range]
      omega
    · omega
    · simp only [ne_eq, decide_eq_true_eq]
      omega
  · apply BitVec.eq_of_toNat_eq
    rw [BitVec.toNat_add, BitVec.toNat_ofInt]
    omega

theorem length_toCheck_le (isSize : szB = 1 ∨ szB = 2 ∨ szB = 4 ∨ szB = 8) :
    (toCheck a szB).length ≤ 15 := by
  unfold toCheck
  rw [List.length_cons, List.length_map]
  rcases isSize with rfl | rfl | rfl | rfl <;> decide

theorem lookup_returns (consistent : map.Consistent)
    (noneWraps : map.NoneWraps) (backtraceSize : Nat) (isThr : thr ≠ 0)
    (isSize : szB = 1 ∨ szB = 2 ∨ szB = 4 ∨ szB = 8)
    (noWrap : NoWrap a szB) :
    Returns (map.lookup backtraceSize thr a szB isW) fun found =>
      match found with
      | some conflict => ∃ entry, map.Held entry ∧
          entry.ConflictsWith thr a szB isW ∧
          conflict = entry.conflict backtraceSize
      | none => ∀ entry, map.Held entry →
          ¬ entry.ConflictsWith thr a szB isW := by
  have nonempty : 0 < szB := by omega
  unfold lookup
  rw [tlAssert_of isThr, ok_bind, tlAssert_of (by omega), ok_bind,
    tlAssert_of (length_toCheck_le isSize), ok_bind]
  have probed : ∀ candA ∈ toCheck a szB,
      Returns (probeAddr backtraceSize map thr a szB isW candA) _ :=
    fun candA _ => probeAddr_returns consistent noneWraps nonempty noWrap
      backtraceSize candA
  apply (Returns.findSomeM? probed).mono
  intro found searched
  cases found with
  | some conflict =>
      obtain ⟨candA, -, entry, held, conflicts, answer⟩ := searched
      exact ⟨entry, held, conflicts, answer⟩
  | none =>
      intro entry held conflicts
      exact searched entry.a (mem_toCheck held.szB_le conflicts.2.2) entry
        held rfl conflicts

/-- After any sequence of recorded accesses and collections, a lookup finds a
conflicting access exactly if the map holds one, and what it returns is one
that the map holds. -/
theorem event_map_lookup_exact (check : Bool) {size : Nat}
    (least : 10000 ≤ size) (most : size ≤ 10000000) {calls : List MapCall}
    (allowed : ∀ call ∈ calls, call.Allowed)
    (unused : ∀ n map call, run check size (calls.take n) = .ok map →
      calls[n]? = some call → call.Unused map)
    {map : EventMap} (reached : run check size calls = .ok map)
    (noneWraps : map.NoneWraps) (backtraceSize : Nat) (thr a : UWord)
    (szB : Nat) (isW : Bool) (isThr : thr ≠ 0)
    (isSize : szB = 1 ∨ szB = 2 ∨ szB = 4 ∨ szB = 8)
    (noWrap : NoWrap a szB) :
    Returns (map.lookup backtraceSize thr a szB isW) fun found =>
      (found.isSome = true ↔
        ∃ entry, map.Held entry ∧ entry.ConflictsWith thr a szB isW) ∧
      ∀ conflict, found = some conflict →
        ∃ entry, map.Held entry ∧ entry.ConflictsWith thr a szB isW ∧
          conflict = entry.conflict backtraceSize := by
  have consistent : map.Consistent := by
    have final := run_consistent least most allowed unused calls.length
    rw [List.take_length] at final
    exact final.of_eq_ok reached
  apply (lookup_returns consistent noneWraps backtraceSize isThr isSize
    noWrap).mono
  intro found searched
  cases found with
  | some conflict =>
      refine ⟨⟨fun _ => ?_, fun _ => rfl⟩, fun other same => ?_⟩
      · obtain ⟨entry, held, conflicts, -⟩ := searched
        exact ⟨entry, held, conflicts⟩
      · cases same
        exact searched
  | none =>
      refine ⟨⟨fun impossible => (nomatch impossible), ?_⟩,
        fun other same => (nomatch same)⟩
      rintro ⟨entry, held, conflicts⟩
      exact absurd conflicts (searched entry held)

private theorem noneWraps_of_keys
    (low : map.oldrefTree.keys.all (·.toNat < 2 ^ 32) = true) :
    map.NoneWraps := by
  intro entry held
  have small := held.szB_le
  obtain ⟨ref, rcec, size, record, bound, -⟩ := held
  have listed : entry.a ∈ map.oldrefTree.keys :=
    AList.mem_keys.mp (AList.lookup_isSome.mp (by rw [bound]; rfl))
  have below := of_decide_eq_true (List.all_eq_true.mp low entry.a listed)
  unfold NoWrap
  omega

/-- A read of four bytes by a third thread, which meets the last two bytes of
a write. -/
theorem event_map_lookup_exact_straddling : ∃ map,
    run true 10000 neighbours = .ok map ∧
    Returns (map.lookup 12 0xa0 0x1002 4 false) fun found =>
      found.isSome = true ∧
        ∃ entry, map.Held entry ∧ entry.ConflictsWith 0xa0 0x1002 4 false := by
  have seen : ((run true 10000 neighbours).toOption.map fun map =>
      (map.oldrefTree.keys.all (·.toNat < 2 ^ 32),
        (map.lookup 12 0xa0 0x1002 4 false).toOption.map (·.isSome))) =
      some (true, some true) := by
    decide +kernel
  obtain ⟨map, reached, known⟩ := exists_ok_of_map seen
  obtain ⟨low, answer⟩ := Prod.mk.inj known
  refine ⟨map, reached, ?_⟩
  obtain ⟨found, isFound, exact, -⟩ := event_map_lookup_exact true (by decide)
    (by decide) (by decide) (unused_of_unusedAt (by decide)) reached
    (noneWraps_of_keys low) 12 0xa0 0x1002 4 false (by decide) (by decide)
    (by unfold NoWrap; decide)
  obtain ⟨found', isFound', some⟩ := exists_ok_of_map answer
  rw [isFound] at isFound'
  cases isFound'
  exact ⟨found, isFound, some, exact.mp some⟩

end EventMap
end HelgrindPlus
