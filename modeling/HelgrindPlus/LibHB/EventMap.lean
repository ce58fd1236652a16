import HelgrindPlus.LibHB.Rcec
import Mathlib.Algebra.Order.Group.Multiset

/-!
# The map of conflicting accesses

For every address the last accesses to it, in `libhb_core.c` an array of
slots that is kept in move-to-front order.  A slot names a thread and a stack
trace; the low bits of the two pointers say whether the access was a write,
and how large it was.
-/

namespace HelgrindPlus

open Outcome

structure ThrNRCEC where
  thr : UWord
  rcec : UWord
  deriving DecidableEq

namespace ThrNRCEC

/-- A slot that is not in use. -/
def null : ThrNRCEC := ⟨0, 0⟩

/-- The thread, the direction and the size of an access. -/
def triple (acc : ThrNRCEC) : UWord × UWord × UWord :=
  (acc.thr &&& ~~~3, acc.thr &&& 1, acc.rcec &&& 3)

/-- The record that a slot refers to. -/
def ref (acc : ThrNRCEC) : UWord := acc.rcec &&& ~~~3

end ThrNRCEC

def nOldrefAccs : Nat := 5

structure OldRef where
  gen : Nat
  accs : List ThrNRCEC
  slots : accs.length = nOldrefAccs

namespace OldRef

def slot (ref : OldRef) (i : Nat) : ThrNRCEC := ref.accs.getD i .null

def setSlot (ref : OldRef) (i : Nat) (acc : ThrNRCEC) : OldRef :=
  { ref with
    accs := ref.accs.set i acc
    slots := by rw [List.length_set, ref.slots] }

def new (gen : Nat) (acc : ThrNRCEC) : OldRef :=
  ⟨gen, acc :: List.replicate (nOldrefAccs - 1) .null, rfl⟩

/-- The loop over the slots for one with the same thread, direction and
size. -/
def findSlot (ref : OldRef) (acc : ThrNRCEC) : Option Nat :=
  ref.accs.findIdx? fun old =>
    old.thr = acc.thr ∧ old.rcec &&& 3 = acc.rcec &&& 3

def moveUp (ref : OldRef) (i : Nat) : OldRef × Nat :=
  if i > 0 then
    ((ref.setSlot (i - 1) (ref.slot i)).setSlot i (ref.slot (i - 1)), i - 1)
  else (ref, i)

/-- All slots move down by one, and the last one is lost. -/
def shuffleDown (ref : OldRef) (acc : ThrNRCEC) : OldRef :=
  { ref with
    accs := acc :: ref.accs.dropLast
    slots := by
      rw [List.length_cons, List.length_dropLast, ref.slots]
      rfl }

/-- What `event_map_bind` does if there is a record for the address. -/
def bind (ctxts : Contexts) (ref : OldRef) (acc : ThrNRCEC) :
    Except Abort (Contexts × OldRef) := do
  tlAssert (acc.thr ≠ 0)
  match ref.findSlot acc with
  | some i => do
      let (ref, i) := ref.moveUp i
      let ctxts ← ctxts.rcdec (ref.slot i).ref
      let ref := ref.setSlot i { ref.slot i with rcec := acc.rcec }
      tlAssert ((ref.slot i).thr = acc.thr)
      pure (ctxts, ref)
  | none => do
      let last := ref.slot (nOldrefAccs - 1)
      let ctxts ←
        if last.thr ≠ 0 then do
          tlAssert (last.rcec ≠ 0)
          ctxts.rcdec last.ref
        else do
          tlAssert (last.rcec = 0)
          pure ctxts
      let ref := ref.shuffleDown acc
      tlAssert (acc.thr &&& ~~~3 ≠ 0)
      pure (ctxts, ref)

end OldRef

structure EventMap where
  ctxts : Contexts
  oldrefTree : AList (fun _ : UWord => OldRef)
  oldrefGen : Nat
  oldrefTreeN : Nat
  oldrefGenIncAt : Nat
  randSeed : BitVec 32

namespace EventMap

def init : EventMap := ⟨.empty, ∅, 0, 0, 0, 0⟩

def encodeSize : Nat → Except Abort UWord
  | 1 => .ok 0
  | 2 => .ok 1
  | 4 => .ok 2
  | 8 => .ok 3
  | _ => .error .tlAssert

/-- What `event_map_bind` does once it has encoded the access. -/
def bindAcc (map : EventMap) (ctxts : Contexts) (a : UWord)
    (acc : ThrNRCEC) : Except Abort EventMap :=
  match map.oldrefTree.lookup a with
  | some ref => do
      let (ctxts, ref) ← ref.bind ctxts acc
      pure { map with
        ctxts := ctxts
        oldrefTree := map.oldrefTree.insert a
          { ref with gen := map.oldrefGen } }
  | none => do
      let (gen, incAt) :=
        if map.oldrefTreeN ≥ map.oldrefGenIncAt then
          (map.oldrefGen + 1, map.oldrefTreeN + 50000)
        else (map.oldrefGen, map.oldrefGenIncAt)
      tlAssert (acc.thr &&& ~~~3 ≠ 0)
      pure { map with
        ctxts := ctxts
        oldrefTree := map.oldrefTree.insert a (.new gen acc)
        oldrefGen := gen
        oldrefTreeN := map.oldrefTreeN + 1
        oldrefGenIncAt := incAt }

/-- The function `event_map_bind`, for the stack trace of the thread. -/
def bind (map : EventMap) (a : UWord) (szB : Nat) (isW : Bool) (thr : UWord)
    (trace : Vector UWord 8) (fresh : UWord) : Except Abort EventMap := do
  let (ctxts, rcec) ← map.ctxts.getRCEC trace fresh
  let ctxts ← ctxts.rcinc rcec
  let size ← encodeSize szB
  map.bindAcc ctxts a ⟨thr ||| (if isW then 1 else 0), rcec ||| size⟩

end EventMap

namespace ThrNRCEC

/-- A slot in use: both pointers are aligned and not null, and the tags fit
into the low bits. -/
structure Used (acc : ThrNRCEC) : Prop where
  encoded : ∃ thr isW ec size : UWord, acc = ⟨thr ||| isW, ec ||| size⟩ ∧
    (thr &&& 3 = 0 ∧ thr ≠ 0) ∧ (isW = 0 ∨ isW = 1) ∧
    (ec &&& 3 = 0 ∧ ec ≠ 0) ∧ size &&& ~~~3 = 0

section Used

variable {acc other : ThrNRCEC}

theorem Used.thr_ne_zero (used : acc.Used) : acc.thr &&& ~~~3 ≠ 0 := by
  obtain ⟨thr, isW, ec, size, rfl, ⟨clear, nonnull⟩, direction, -, -⟩ :=
    used.encoded
  have within : isW &&& ~~~3 = 0 := by rcases direction with rfl | rfl <;> decide
  rw [Tagged.word_of_tagged clear within]
  exact nonnull

theorem Used.ref_ne_zero (used : acc.Used) : acc.ref ≠ 0 := by
  obtain ⟨thr, isW, ec, size, rfl, -, -, ⟨clear, nonnull⟩, within⟩ :=
    used.encoded
  rw [ref, Tagged.word_of_tagged clear within]
  exact nonnull

theorem Used.packed_ne_zero (used : acc.Used) : acc.thr ≠ 0 := by
  intro zero
  apply used.thr_ne_zero
  rw [zero]
  rfl

theorem Used.rcec_ne_zero (used : acc.Used) : acc.rcec ≠ 0 := by
  intro zero
  apply used.ref_ne_zero
  rw [ref, zero]
  rfl

theorem direction_of_tagged {word bit : UWord} (clear : word &&& 3 = 0)
    (isBit : bit = 0 ∨ bit = 1) : (word ||| bit) &&& 1 = bit := by
  have clearLow : word &&& 1 = 0 := Tagged.and_of_narrower clear (by decide)
  rw [Tagged.or_and, clearLow]
  rcases isBit with rfl | rfl <;> decide

/-- What is encoded in a slot. -/
theorem triple_of_tagged {thr isW ec size : UWord} (isThr : thr &&& 3 = 0)
    (direction : isW = 0 ∨ isW = 1) (isEc : ec &&& 3 = 0)
    (fits : size &&& ~~~3 = 0) :
    triple ⟨thr ||| isW, ec ||| size⟩ = (thr, isW, size) := by
  have within : isW &&& ~~~3 = 0 := by rcases direction with rfl | rfl <;> decide
  unfold triple
  rw [Tagged.word_of_tagged isThr within, direction_of_tagged isThr direction,
    Tagged.tag_of_tagged isEc fits]

/-- The test of the loop over the slots compares triples. -/
theorem Used.triple_eq_iff (used : acc.Used) (used' : other.Used) :
    acc.triple = other.triple ↔
      acc.thr = other.thr ∧ acc.rcec &&& 3 = other.rcec &&& 3 := by
  constructor
  · intro same
    simp only [triple, Prod.mk.injEq] at same
    obtain ⟨sameThr, sameDirection, sameSize⟩ := same
    refine ⟨?_, sameSize⟩
    obtain ⟨thr, isW, ec, size, rfl, ⟨clear, -⟩, direction, -⟩ := used.encoded
    obtain ⟨thr', isW', ec', size', rfl, ⟨clear', -⟩, direction', -⟩ :=
      used'.encoded
    have within : isW &&& ~~~3 = 0 := by
      rcases direction with rfl | rfl <;> decide
    have within' : isW' &&& ~~~3 = 0 := by
      rcases direction' with rfl | rfl <;> decide
    rw [Tagged.word_of_tagged clear within,
      Tagged.word_of_tagged clear' within'] at sameThr
    rw [direction_of_tagged clear direction,
      direction_of_tagged clear' direction'] at sameDirection
    rw [sameThr, sameDirection]
  · rintro ⟨sameThr, sameSize⟩
    simp only [triple, sameThr, sameSize]

end Used
end ThrNRCEC

namespace OldRef

/-- The slots in use come first. -/
structure Good (ref : OldRef) (used : List ThrNRCEC) : Prop where
  accs : ref.accs = used ++ List.replicate (nOldrefAccs - used.length) .null
  some : used ≠ []
  all : ∀ acc ∈ used, acc.Used
  triples : (used.map ThrNRCEC.triple).Nodup

/-- The records that the slots refer to, and the null pointer for each slot
that is not in use. -/
def refs (ref : OldRef) : Multiset UWord :=
  (ref.accs.map ThrNRCEC.ref : List UWord)

section Slots

variable {ref : OldRef} {used : List ThrNRCEC} {acc : ThrNRCEC} {i : Nat}

theorem Good.length_le (good : ref.Good used) : used.length ≤ nOldrefAccs := by
  have length := ref.slots
  rw [good.accs, List.length_append, List.length_replicate] at length
  omega

theorem Good.valid (good : ref.Good used) :
    ∀ acc ∈ ref.accs, acc.Used ∨ acc = .null := by
  intro acc member
  rw [good.accs] at member
  rcases List.mem_append.mp member with isUsed | isNull
  · exact .inl (good.all acc isUsed)
  · exact .inr (List.eq_of_mem_replicate isNull)

theorem getD_append_cons (left right : List ThrNRCEC) (acc : ThrNRCEC) :
    (left ++ acc :: right).getD left.length .null = acc := by
  simp

theorem set_append_cons (left right : List ThrNRCEC) (old acc : ThrNRCEC) :
    (left ++ old :: right).set left.length acc = left ++ acc :: right := by
  simp

theorem Good.findSlot_eq (good : ref.Good used) (isUsed : acc.Used) :
    ref.findSlot acc = used.findIdx? fun old =>
      old.thr = acc.thr ∧ old.rcec &&& 3 = acc.rcec &&& 3 := by
  unfold findSlot
  have unused : (List.replicate (nOldrefAccs - used.length)
      ThrNRCEC.null).findIdx? (fun old => old.thr = acc.thr ∧
        old.rcec &&& 3 = acc.rcec &&& 3) = none := by
    rw [List.findIdx?_eq_none_iff]
    intro old member
    rw [List.eq_of_mem_replicate member, decide_eq_false_iff_not]
    rintro ⟨same, -⟩
    exact isUsed.packed_ne_zero same.symm
  rw [good.accs, List.findIdx?_append, unused]
  simp

private theorem moveUp_eq (left right tail : List ThrNRCEC) (old : ThrNRCEC)
    (isAccs : ref.accs = left ++ old :: (right ++ tail)) :
    ∃ left' right', (ref.moveUp left.length).2 = left'.length ∧
      (ref.moveUp left.length).1.accs = left' ++ old :: (right' ++ tail) ∧
      left' ++ right' = left ++ right := by
  induction left using List.reverseRecOn with
  | nil => exact ⟨[], right, rfl, isAccs, rfl⟩
  | append_singleton left before _ =>
      have length : (left ++ [before]).length = left.length + 1 := by simp
      have here : ref.slot (left.length + 1) = old := by
        rw [← length, slot, isAccs]
        exact getD_append_cons _ _ _
      have isAccs' : ref.accs = left ++ before :: old :: (right ++ tail) := by
        rw [isAccs, List.append_assoc]
        rfl
      have above : ref.slot left.length = before := by
        rw [slot, isAccs']
        exact getD_append_cons _ _ _
      refine ⟨left, before :: right, ?_, ?_, ?_⟩
      · rw [length]
        rfl
      · rw [length]
        change (ref.accs.set left.length (ref.slot (left.length + 1))).set
          (left.length + 1) (ref.slot left.length) = _
        rw [here, above, isAccs', set_append_cons]
        simp
      · rw [List.append_assoc]
        rfl

/-- A slot that is found is one in use, and after it has moved up it stands
where the loop says. -/
theorem Good.hit (good : ref.Good used) (isUsed : acc.Used)
    (found : ref.findSlot acc = .some i) :
    ∃ old rest used', old ∈ used ∧ old.thr = acc.thr ∧
      old.rcec &&& 3 = acc.rcec &&& 3 ∧
      used.Perm (old :: rest) ∧ used'.Perm (acc :: rest) ∧
      (ref.moveUp i).1.slot (ref.moveUp i).2 = old ∧
      ((ref.moveUp i).1.setSlot (ref.moveUp i).2 acc).slot
        (ref.moveUp i).2 = acc ∧
      ((ref.moveUp i).1.setSlot (ref.moveUp i).2 acc).accs =
        used' ++ List.replicate (nOldrefAccs - used.length) .null := by
  rw [good.findSlot_eq isUsed] at found
  obtain ⟨bound, isMatch, -⟩ := List.findIdx?_eq_some_iff_getElem.mp found
  obtain ⟨sameThr, sameSize⟩ := of_decide_eq_true isMatch
  generalize isOld : used[i] = old at sameThr sameSize
  have split : used = used.take i ++ old :: used.drop (i + 1) := by
    rw [← isOld, ← List.drop_eq_getElem_cons bound, List.take_append_drop]
  have isI : (used.take i).length = i := by
    rw [List.length_take]
    omega
  generalize used.take i = left at split isI
  generalize used.drop (i + 1) = right at split
  generalize zeros : List.replicate (nOldrefAccs - used.length)
    ThrNRCEC.null = unused
  have isAccs : ref.accs = left ++ old :: (right ++ unused) := by
    rw [good.accs, zeros, split, List.append_assoc]
    rfl
  obtain ⟨left', right', position, moved, same⟩ :=
    moveUp_eq left right unused old isAccs
  rw [isI] at position moved
  have after : ((ref.moveUp i).1.setSlot (ref.moveUp i).2 acc).accs =
      left' ++ acc :: (right' ++ unused) := by
    rw [setSlot, position]
    simp only [moved, set_append_cons]
  refine ⟨old, left ++ right, left' ++ acc :: right', ?_, sameThr, sameSize,
    ?_, ?_, ?_, ?_, ?_⟩
  · rw [split]
    simp
  · rw [split]
    exact List.perm_middle
  · rw [← same]
    exact List.perm_middle
  · rw [slot, position, moved]
    exact getD_append_cons _ _ _
  · rw [slot, after, position]
    exact getD_append_cons _ _ _
  · rw [after, List.append_assoc]
    rfl

/-- A slot for a triple that is not there goes to the front. -/
theorem Good.miss (good : ref.Good used) (isUsed : acc.Used)
    (missing : ref.findSlot acc = none) :
    ∀ old ∈ used, old.triple ≠ acc.triple := by
  intro old member same
  rw [good.findSlot_eq isUsed, List.findIdx?_eq_none_iff] at missing
  have apart := of_decide_eq_false (missing old member)
  exact apart (((good.all old member).triple_eq_iff isUsed).mp same)

end Slots

/-- The slot is there afterwards, next to slots that were there before. -/
def Takes (ref : OldRef) (acc : ThrNRCEC) (ref' : OldRef) : Prop :=
  acc ∈ ref'.accs ∧
    ∀ one ∈ ref'.accs, one ≠ .null → one = acc ∨ one ∈ ref.accs

section Bind

variable {ctxts : Contexts} {ref : OldRef} {used : List ThrNRCEC}
  {acc : ThrNRCEC} {others : Multiset UWord}

theorem Good.takes {ref' : OldRef} {used' : List ThrNRCEC}
    (good : ref.Good used) (good' : ref'.Good used') (taken : acc ∈ used')
    (only : ∀ one ∈ used', one = acc ∨ one ∈ used) :
    ref.Takes acc ref' := by
  constructor
  · rw [good'.accs]
    exact List.mem_append_left _ taken
  · intro one member isUsed
    rw [good'.accs] at member
    rcases List.mem_append.mp member with inUse | unused
    · rcases only one inUse with same | old
      · exact .inl same
      · right
        rw [good.accs]
        exact List.mem_append_left _ old
    · exact absurd (List.eq_of_mem_replicate unused) isUsed

private theorem refs_eq (good : ref.Good used) : ref.refs =
    ((used.map ThrNRCEC.ref : List UWord) : Multiset UWord) +
      Multiset.replicate (nOldrefAccs - used.length) 0 := by
  have null : ThrNRCEC.null.ref = 0 := by decide
  unfold refs
  rw [good.accs, List.map_append, List.map_replicate, null,
    ← Multiset.coe_replicate, Multiset.coe_add]

theorem refs_of_perm {first : ThrNRCEC} {rest : List ThrNRCEC}
    (good : ref.Good used) (perm : used.Perm (first :: rest)) :
    ref.refs = first.ref ::ₘ
      (((rest.map ThrNRCEC.ref : List UWord) : Multiset UWord) +
        Multiset.replicate (nOldrefAccs - used.length) 0) := by
  have same : ((used.map ThrNRCEC.ref : List UWord) : Multiset UWord) =
      first.ref ::ₘ ((rest.map ThrNRCEC.ref : List UWord) : Multiset UWord) :=
    Multiset.coe_eq_coe.mpr (perm.map ThrNRCEC.ref)
  rw [refs_eq good, same, Multiset.cons_add]

/-- A matching slot is overwritten, and takes its reference from the old one
to the new one. -/
theorem bind_hit (good : ref.Good used) (isUsed : acc.Used) {i : Nat}
    (found : ref.findSlot acc = some i) (wf : ctxts.Wf)
    (counts : ctxts.Counts (acc.ref ::ₘ (ref.refs + others))) :
    Returns (ref.bind ctxts acc) (fun out => out.1.Wf ∧
      (∃ used', out.2.Good used') ∧
      out.1.Counts (out.2.refs + others) ∧ ref.Takes acc out.2) := by
  obtain ⟨old, rest, used', member, sameThr, sameSize, perm, perm', isOld,
    position, isAccs⟩ := good.hit isUsed found
  have oldUsed := good.all old member
  have length : used'.length = used.length := by
    rw [perm.length_eq, perm'.length_eq]
    rfl
  have good' : ((ref.moveUp i).1.setSlot (ref.moveUp i).2 acc).Good used' := by
    refine ⟨?_, ?_, ?_, ?_⟩
    · rw [isAccs, length]
    · intro empty
      rw [empty] at perm'
      exact absurd perm'.length_eq (by simp)
    · intro one isOne
      rcases List.mem_cons.mp (perm'.mem_iff.mp isOne) with rfl | other
      · exact isUsed
      · exact good.all one (perm.mem_iff.mpr (List.mem_cons_of_mem _ other))
    · have same : old.triple = acc.triple :=
        (oldUsed.triple_eq_iff isUsed).mpr ⟨sameThr, sameSize⟩
      have nodup := (perm.map ThrNRCEC.triple).nodup_iff.mp good.triples
      rw [List.map_cons, same, ← List.map_cons] at nodup
      exact (perm'.map ThrNRCEC.triple).nodup_iff.mpr nodup
  rw [refs_of_perm good perm, Multiset.cons_add, Multiset.cons_swap] at counts
  unfold bind
  rw [tlAssert_of isUsed.packed_ne_zero, ok_bind, found]
  dsimp only
  rw [isOld]
  apply (counts.rcdec wf oldUsed.ref_ne_zero).bind
  intro ctxts' after
  have isAcc : ({ old with rcec := acc.rcec } : ThrNRCEC) = acc := by
    rw [sameThr]
  rw [isAcc]
  rw [position, tlAssert_of rfl, ok_bind]
  refine .pure ⟨after.1, ⟨used', good'⟩, ?_, good.takes good' ?_ ?_⟩
  · rw [refs_of_perm good' perm', length, Multiset.cons_add]
    exact after.2
  · exact perm'.mem_iff.mpr List.mem_cons_self
  · intro one member
    rcases List.mem_cons.mp (perm'.mem_iff.mp member) with same | other
    · exact .inl same
    · exact .inr (perm.mem_iff.mpr (List.mem_cons_of_mem _ other))

private theorem good_shuffleDown {kept : List ThrNRCEC} (good : ref.Good used)
    (isUsed : acc.Used) (missing : ref.findSlot acc = none)
    (isKept : kept.Sublist used)
    (isAccs : ref.accs.dropLast =
      kept ++ List.replicate (nOldrefAccs - (kept.length + 1)) .null) :
    (ref.shuffleDown acc).Good (acc :: kept) := by
  refine ⟨?_, by simp, ?_, ?_⟩
  · change acc :: ref.accs.dropLast = _
    rw [isAccs]
    rfl
  · intro one member
    rcases List.mem_cons.mp member with rfl | old
    · exact isUsed
    · exact good.all one (isKept.mem old)
  · rw [List.map_cons, List.nodup_cons]
    constructor
    · intro member
      obtain ⟨old, isOld, same⟩ := List.mem_map.mp member
      exact good.miss isUsed missing old (isKept.mem isOld) same
    · exact good.triples.sublist (isKept.map _)

/-- All slots are in use, and the last one gives up its reference. -/
theorem bind_miss_full (good : ref.Good used) (isUsed : acc.Used)
    (missing : ref.findSlot acc = none) (full : used.length = nOldrefAccs)
    (wf : ctxts.Wf)
    (counts : ctxts.Counts (acc.ref ::ₘ (ref.refs + others))) :
    Returns (ref.bind ctxts acc) (fun out => out.1.Wf ∧
      (∃ used', out.2.Good used') ∧
      out.1.Counts (out.2.refs + others) ∧ ref.Takes acc out.2) := by
  obtain ⟨kept, last, rfl⟩ : ∃ kept last, used = kept ++ [last] :=
    ⟨_, _, (List.dropLast_append_getLast good.some).symm⟩
  rw [List.length_append, List.length_singleton] at full
  have isAccs : ref.accs = kept ++ [last] := by
    rw [good.accs, List.length_append, List.length_singleton, full]
    simp
  have isLast : ref.slot (nOldrefAccs - 1) = last := by
    have position : nOldrefAccs - 1 = kept.length := by omega
    rw [slot, isAccs, position]
    exact getD_append_cons _ _ _
  have lastUsed : last.Used := good.all last (by simp)
  have good' : (ref.shuffleDown acc).Good (acc :: kept) := by
    apply good_shuffleDown good isUsed missing (List.sublist_append_left _ _)
    rw [isAccs, full]
    simp
  have perm : (kept ++ [last]).Perm (last :: kept) :=
    List.perm_append_singleton _ _
  have none : nOldrefAccs - (kept ++ [last]).length = 0 := by
    rw [List.length_append, List.length_singleton]
    omega
  rw [refs_of_perm good perm, none, Multiset.cons_add, Multiset.cons_swap]
    at counts
  unfold bind
  rw [tlAssert_of isUsed.packed_ne_zero, ok_bind, missing]
  dsimp only
  rw [isLast, if_pos lastUsed.packed_ne_zero,
    tlAssert_of lastUsed.rcec_ne_zero, ok_bind]
  apply (counts.rcdec wf lastUsed.ref_ne_zero).bind
  intro ctxts' after
  rw [tlAssert_of isUsed.thr_ne_zero, ok_bind]
  have none' : nOldrefAccs - (acc :: kept).length = 0 := by
    rw [List.length_cons]
    omega
  refine .pure ⟨after.1, ⟨_, good'⟩, ?_, good.takes good' (by simp) ?_⟩
  · rw [refs_of_perm good' (.refl _), none', Multiset.cons_add]
    exact after.2
  · intro one member
    rcases List.mem_cons.mp member with same | old
    · exact .inl same
    · exact .inr (List.mem_append_left _ old)

private theorem bind_miss_free (good : ref.Good used) (isUsed : acc.Used)
    (missing : ref.findSlot acc = none) (free : used.length < nOldrefAccs)
    (wf : ctxts.Wf)
    (counts : ctxts.Counts (acc.ref ::ₘ (ref.refs + others))) :
    Returns (ref.bind ctxts acc) (fun out => out.1.Wf ∧
      (∃ used', out.2.Good used') ∧
      out.1.Counts (out.2.refs + others) ∧ ref.Takes acc out.2) := by
  obtain ⟨n, isN⟩ : ∃ n, nOldrefAccs - used.length = n + 1 :=
    Nat.exists_eq_succ_of_ne_zero (by omega)
  have isAccs : ref.accs = used ++ List.replicate n .null ++ [.null] := by
    rw [good.accs, isN, List.replicate_succ', List.append_assoc]
  have isLast : ref.slot (nOldrefAccs - 1) = .null := by
    have position : nOldrefAccs - 1 =
        (used ++ List.replicate n ThrNRCEC.null).length := by
      rw [List.length_append, List.length_replicate]
      omega
    rw [slot, isAccs, position]
    exact getD_append_cons _ _ _
  have good' : (ref.shuffleDown acc).Good (acc :: used) := by
    apply good_shuffleDown good isUsed missing (List.Sublist.refl _)
    have isN' : nOldrefAccs - (used.length + 1) = n := by omega
    rw [isAccs, List.dropLast_concat, isN']
  have dropped : ctxts.Counts (acc.ref ::ₘ
      (((used.map ThrNRCEC.ref : List UWord) : Multiset UWord) +
        Multiset.replicate n 0 + others)) := by
    rw [refs_eq good, isN, Multiset.replicate_succ, Multiset.add_cons,
      Multiset.cons_add, Multiset.cons_swap] at counts
    exact counts.drop_null wf
  unfold bind
  rw [tlAssert_of isUsed.packed_ne_zero, ok_bind, missing]
  dsimp only
  rw [isLast, if_neg (by decide), tlAssert_of (by rfl), ok_bind, pure_bind,
    tlAssert_of isUsed.thr_ne_zero, ok_bind]
  have isN' : nOldrefAccs - (acc :: used).length = n := by
    rw [List.length_cons]
    omega
  refine .pure ⟨wf, ⟨_, good'⟩, ?_, good.takes good' (by simp) ?_⟩
  · rw [refs_of_perm good' (.refl _), isN', Multiset.cons_add]
    exact dropped
  · exact fun one member => List.mem_cons.mp member

theorem bind_returns (good : ref.Good used) (isUsed : acc.Used)
    (wf : ctxts.Wf)
    (counts : ctxts.Counts (acc.ref ::ₘ (ref.refs + others))) :
    Returns (ref.bind ctxts acc) (fun out => out.1.Wf ∧
      (∃ used', out.2.Good used') ∧
      out.1.Counts (out.2.refs + others) ∧ ref.Takes acc out.2) := by
  cases found : ref.findSlot acc with
  | some i => exact bind_hit good isUsed found wf counts
  | none =>
      rcases good.length_le.lt_or_eq with free | full
      · exact bind_miss_free good isUsed found free wf counts
      · exact bind_miss_full good isUsed found full wf counts

end Bind
end OldRef

namespace EventMap

/-- All references from slots. -/
def refs (map : EventMap) : Multiset UWord :=
  map.oldrefTree.total OldRef.refs

structure Consistent (map : EventMap) : Prop where
  wf : map.ctxts.Wf
  counts : map.ctxts.Counts map.refs
  good : ∀ a ref, map.oldrefTree.lookup a = some ref →
    ∃ used, ref.Good used
  gens : ∀ a ref, map.oldrefTree.lookup a = some ref → 0 < ref.gen
  size : map.oldrefTreeN = map.oldrefTree.entries.length
  started : map.oldrefGen = 0 → map.oldrefTreeN = 0 ∧ map.oldrefGenIncAt = 0

/-- What recording an access leaves: its slot, next to slots that the address
had before. -/
structure Recorded (map : EventMap) (a : UWord) (acc : ThrNRCEC)
    (after : EventMap) : Prop where
  here : ∃ ref, after.oldrefTree.lookup a = some ref ∧ acc ∈ ref.accs ∧
    ∀ one ∈ ref.accs, one ≠ .null → one = acc ∨
      ∃ old, map.oldrefTree.lookup a = some old ∧ one ∈ old.accs
  others : ∀ b, b ≠ a →
    after.oldrefTree.lookup b = map.oldrefTree.lookup b

theorem Consistent.init : init.Consistent where
  wf := .empty
  counts := by
    constructor
    · intro p ec found
      cases found
    · intro p member
      exact absurd member (Multiset.notMem_zero p)
  good _ _ found := by cases found
  gens _ _ found := by cases found
  size := rfl
  started _ := ⟨rfl, rfl⟩

section Bind

variable {map : EventMap} {a thr fresh rcec : UWord} {szB : Nat} {isW : Bool}
  {trace : Vector UWord 8} {ctxts : Contexts} {ref : OldRef}
  {used : List ThrNRCEC} {acc : ThrNRCEC}

private theorem encodeSize_returns
    (known : szB = 1 ∨ szB = 2 ∨ szB = 4 ∨ szB = 8) :
    Returns (encodeSize szB) (fun size => size &&& ~~~3 = 0) := by
  rcases known with rfl | rfl | rfl | rfl
  · exact .ok (by decide)
  · exact .ok (by decide)
  · exact .ok (by decide)
  · exact .ok (by decide)

/-- The slot of an access. -/
theorem used_of_bind {size : UWord} (isThr : thr &&& 3 = 0 ∧ thr ≠ 0)
    (isRcec : rcec &&& 3 = 0 ∧ rcec ≠ 0) (fits : size &&& ~~~3 = 0) :
    ThrNRCEC.Used ⟨thr ||| (if isW then 1 else 0), rcec ||| size⟩ := by
  refine ⟨thr, _, rcec, size, rfl, isThr, ?_, isRcec, fits⟩
  cases isW with
  | true => exact .inr rfl
  | false => exact .inl rfl

/-- A record for the address is there already. -/
theorem Consistent.replace (consistent : map.Consistent)
    (found : map.oldrefTree.lookup a = some ref) {ref' : OldRef}
    (wf : ctxts.Wf) (good : ref'.Good used)
    (counts : ctxts.Counts (ref'.refs +
      (map.oldrefTree.erase a).total OldRef.refs)) :
    Consistent { map with
      ctxts := ctxts
      oldrefTree := map.oldrefTree.insert a
        { ref' with gen := map.oldrefGen } } := by
  have bound : map.oldrefTree.lookup a ≠ none := by simp [found]
  have positive : 0 < map.oldrefGen := by
    apply Nat.pos_of_ne_zero
    intro zero
    have length := AList.length_erase_of_bound bound
    have size := consistent.size
    have empty := (consistent.started zero).1
    omega
  have back : ∀ b old, (map.oldrefTree.insert a
      { ref' with gen := map.oldrefGen }).lookup b = some old →
      old = { ref' with gen := map.oldrefGen } ∨
        map.oldrefTree.lookup b = some old := by
    intro b old isOld
    by_cases here : b = a
    · subst here
      rw [AList.lookup_insert] at isOld
      exact .inl (Option.some.inj isOld).symm
    · rw [AList.lookup_insert_ne here] at isOld
      exact .inr isOld
  constructor
  · exact wf
  · have total : (map.oldrefTree.insert a
        { ref' with gen := map.oldrefGen }).total OldRef.refs =
        ref'.refs + (map.oldrefTree.erase a).total OldRef.refs := by
      rw [AList.total_insert]
      rfl
    rw [refs, total]
    exact counts
  · intro b old isOld
    rcases back b old isOld with rfl | before
    · exact ⟨used, good.accs, good.some, good.all, good.triples⟩
    · exact consistent.good b old before
  · intro b old isOld
    rcases back b old isOld with rfl | before
    · exact positive
    · exact consistent.gens b old before
  · exact consistent.size.trans (AList.length_insert_of_bound bound _).symm
  · exact consistent.started

theorem Consistent.add (consistent : map.Consistent)
    (missing : map.oldrefTree.lookup a = none) (wf : ctxts.Wf)
    (isUsed : acc.Used) (counts : ctxts.Counts (acc.ref ::ₘ map.refs))
    {gen incAt : Nat} (positive : 0 < gen) :
    Consistent { map with
      ctxts := ctxts
      oldrefTree := map.oldrefTree.insert a (.new gen acc)
      oldrefGen := gen
      oldrefTreeN := map.oldrefTreeN + 1
      oldrefGenIncAt := incAt } := by
  have good : (OldRef.new gen acc).Good [acc] :=
    ⟨rfl, by simp, by simpa using isUsed, by simp⟩
  have back : ∀ b old, (map.oldrefTree.insert a
      (OldRef.new gen acc)).lookup b = some old →
      old = .new gen acc ∨ map.oldrefTree.lookup b = some old := by
    intro b old isOld
    by_cases here : b = a
    · subst here
      rw [AList.lookup_insert] at isOld
      exact .inl (Option.some.inj isOld).symm
    · rw [AList.lookup_insert_ne here] at isOld
      exact .inr isOld
  constructor
  · exact wf
  · have total : (map.oldrefTree.insert a (.new gen acc)).total OldRef.refs =
        (OldRef.new gen acc).refs + map.refs := by
      rw [AList.total_insert, AList.total_erase_of_notBound _ missing]
      rfl
    have nulls : (OldRef.new gen acc).refs =
        acc.ref ::ₘ Multiset.replicate (nOldrefAccs - 1) 0 :=
      OldRef.refs_of_perm good (.refl _)
    have parts : (OldRef.new gen acc).refs + map.refs =
        (acc.ref ::ₘ map.refs) +
          Multiset.replicate (nOldrefAccs - 1) 0 := by
      rw [nulls, Multiset.cons_add, Multiset.cons_add, add_comm map.refs]
    rw [refs, total, parts]
    exact counts.add_nulls wf _
  · intro b old isOld
    rcases back b old isOld with rfl | before
    · exact ⟨_, good⟩
    · exact consistent.good b old before
  · intro b old isOld
    rcases back b old isOld with rfl | before
    · exact positive
    · exact consistent.gens b old before
  · change map.oldrefTreeN + 1 =
      (map.oldrefTree.insert a (.new gen acc)).entries.length
    rw [AList.length_insert_of_notBound missing, consistent.size]
  · intro zero
    have isZero : gen = 0 := zero
    omega

private theorem bindAcc_returns (consistent : map.Consistent) (wf : ctxts.Wf)
    (isUsed : acc.Used) (counts : ctxts.Counts (acc.ref ::ₘ map.refs)) :
    Returns (map.bindAcc ctxts a acc) (fun after =>
      after.Consistent ∧ map.Recorded a acc after) := by
  unfold bindAcc
  cases found : map.oldrefTree.lookup a with
  | some ref =>
      obtain ⟨used, good⟩ := consistent.good a ref found
      rw [refs, AList.total_eq_of_lookup OldRef.refs found] at counts
      apply (OldRef.bind_returns good isUsed wf counts).bind
      intro out after
      obtain ⟨wf', ⟨used', good'⟩, counts', taken, only⟩ := after
      refine .pure ⟨consistent.replace found wf' good' counts', ?_, ?_⟩
      · refine ⟨_, AList.lookup_insert _, taken, fun one member isUsed => ?_⟩
        rcases only one member isUsed with same | old
        · exact .inl same
        · exact .inr ⟨ref, found, old⟩
      · intro b other
        exact AList.lookup_insert_ne other
  | none =>
      dsimp only
      rw [tlAssert_of isUsed.thr_ne_zero, ok_bind]
      refine .pure ⟨consistent.add found wf isUsed counts ?_, ?_, ?_⟩
      · split
        · exact Nat.succ_pos _
        · apply Nat.pos_of_ne_zero
          intro zero
          have empty := consistent.started zero
          omega
      · refine ⟨_, AList.lookup_insert _, List.mem_cons_self, ?_⟩
        intro one member isUsed
        rcases List.mem_cons.mp member with same | unused
        · exact .inl same
        · exact absurd (List.eq_of_mem_replicate unused) isUsed
      · intro b other
        exact AList.lookup_insert_ne other

/-- Recording an access. -/
theorem bind_returns (consistent : map.Consistent)
    (isSize : szB = 1 ∨ szB = 2 ∨ szB = 4 ∨ szB = 8)
    (isThr : thr &&& 3 = 0 ∧ thr ≠ 0)
    (isFresh : fresh &&& 3 = 0 ∧ fresh ≠ 0)
    (unused : map.ctxts.heap.lookup fresh = none) :
    Returns (map.bind a szB isW thr trace fresh) (fun after =>
      after.Consistent ∧ ∃ size acc, encodeSize szB = .ok size ∧
        acc.Used ∧ acc.triple = (thr, if isW then 1 else 0, size) ∧
        map.Recorded a acc after) := by
  unfold EventMap.bind Contexts.getRCEC
  apply (Contexts.findOrAdd_returns consistent.wf consistent.counts isFresh
    unused rfl).bind
  intro out after
  obtain ⟨wf, counts, ec, found, -⟩ := after
  apply (counts.rcinc wf found).bind
  intro ctxts after
  obtain ⟨wf', counts'⟩ := after
  obtain ⟨size, encoded, fits⟩ := encodeSize_returns isSize
  rw [encoded, ok_bind]
  have isRcec := wf.aligned out.2 ec found
  have isUsed := @used_of_bind thr out.2 isW size isThr isRcec fits
  have isRef : (⟨thr ||| (if isW then 1 else 0), out.2 ||| size⟩ :
      ThrNRCEC).ref = out.2 :=
    Tagged.word_of_tagged isRcec.1 fits
  have isTriple : (⟨thr ||| (if isW then 1 else 0), out.2 ||| size⟩ :
      ThrNRCEC).triple = (thr, if isW then 1 else 0, size) := by
    apply ThrNRCEC.triple_of_tagged isThr.1 _ isRcec.1 fits
    cases isW with
    | true => exact .inr rfl
    | false => exact .inl rfl
  generalize (⟨thr ||| (if isW then 1 else 0), out.2 ||| size⟩ :
    ThrNRCEC) = acc at isUsed isRef isTriple
  rw [← isRef] at counts'
  apply (bindAcc_returns consistent wf' isUsed counts').mono
  rintro after ⟨consistent', recorded⟩
  exact ⟨consistent', size, acc, rfl, isUsed, isTriple, recorded⟩

end Bind
end EventMap
end HelgrindPlus
