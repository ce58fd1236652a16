import HelgrindPlus.Main.Heap

/-!
# The size of a zeroed block

`hg_cli__calloc` asks for the signs of its two factors, while `handle_alloc`
asserts that their product, a word again, is not negative.  Hosts have words
of 32 or of 64 bits.
-/

namespace HelgrindPlus

open Outcome

namespace Heap

variable {w : Nat}

/-- The function `handle_alloc` on a host whose words have `w` bits. -/
def handleAllocOn (thr : Nat) (h : Heap) (szB : BitVec w) (isZeroed : Bool)
    (p : Nat) : Except Abort (Heap × Nat) := do
  tlAssert (0 ≤ szB.toInt)
  if p = 0 then pure (h, 0)
  else do
    let h :=
      if isZeroed then { h with mem := fill h.mem p szB.toNat 0 } else h
    let h ← (h.htAddNode ⟨p, szB.toNat⟩).evhNewMemHeap thr p szB.toNat
    pure (h, p)

/-- The function `hg_cli__calloc`, where the allocator returns `p`. -/
def hgCliCalloc (thr : Nat) (h : Heap) (nmemb size1 : BitVec w) (p : Nat) :
    Except Abort (Heap × Nat) :=
  if nmemb.toInt < 0 ∨ size1.toInt < 0 then .ok (h, 0)
  else h.handleAllocOn thr (nmemb * size1) true p

/-- The client gets `NULL`, or a zeroed block whose recorded size is `n` and
whose bytes are new to shadow memory. -/
def Allocates (thr n : Nat) (out : Heap × Nat) : Prop :=
  out.2 = 0 ∨
    out.1.htLookup out.2 = some ⟨out.2, n⟩ ∧
    ∀ c, out.2 ≤ c → c < out.2 + n → out.1.mem c = 0 ∧ out.1.IsNew thr c

section Sizes

theorem toInt_nonneg_iff (a : BitVec w) :
    0 ≤ a.toInt ↔ 2 * a.toNat < 2 ^ w := by
  have below := a.isLt
  rw [BitVec.toInt_eq_toNat_cond]
  split_ifs with small
  · exact iff_of_true (Int.natCast_nonneg _) small
  · refine iff_of_false ?_ small
    rw [Int.not_le]
    omega

/-- The product of two words is not cut off if it is the product of the
numbers. -/
theorem toNat_mul_eq_iff (a b : BitVec w) :
    (a * b).toNat = a.toNat * b.toNat ↔ a.toNat * b.toNat < 2 ^ w := by
  rw [BitVec.toNat_mul]
  constructor
  · intro same
    rw [← same]
    exact Nat.mod_lt _ (Nat.two_pow_pos w)
  · exact Nat.mod_eq_of_lt

end Sizes

/-- On hosts with words of 64 bits this is the function of the runs above. -/
theorem handleAllocOn_eq (thr : Nat) (h : Heap) (szB : BitVec 64)
    (isZeroed : Bool) (p : Nat) :
    h.handleAllocOn thr szB isZeroed p =
      h.handleAlloc thr szB.toNat isZeroed p := by
  have same : 0 ≤ szB.toInt ↔ szB.toNat < 2 ^ 63 := by
    rw [toInt_nonneg_iff]
    omega
  unfold handleAllocOn handleAlloc tlAssert
  simp only [same]

theorem hgCliCalloc_eq (thr : Nat) (h : Heap) (nmemb size1 : BitVec 64)
    (p : Nat) :
    h.hgCliCalloc thr nmemb size1 p =
      h.calloc thr nmemb.toNat size1.toNat p := by
  have negative : ∀ a : BitVec 64, a.toInt < 0 ↔ 2 ^ 63 ≤ a.toNat := by
    intro a
    have := toInt_nonneg_iff a
    omega
  unfold hgCliCalloc calloc
  simp only [negative, handleAllocOn_eq, BitVec.toNat_mul]

section Call

variable {h : Heap} {thr p : Nat} {szB nmemb size1 : BitVec w}

/-- A block that the allocator has served is recorded with the size that
`handle_alloc` was called with. -/
theorem handleAllocOn_returns (wf : h.machine.WF)
    (known : (h.machine.2.hb.thrs.lookup thr).isSome)
    (signed : 0 ≤ szB.toInt) (served : p ≠ 0) :
    Returns (h.handleAllocOn thr szB true p) (fun out => out.2 = p ∧
      out.1.htLookup p = some ⟨p, szB.toNat⟩ ∧
      ∀ c, p ≤ c → c < p + szB.toNat →
        out.1.mem c = 0 ∧ out.1.IsNew thr c) := by
  obtain ⟨m, sim⟩ := wf
  obtain ⟨t, bound⟩ := Option.isSome_iff_exists.mp known
  obtain ⟨clocks, isClocks, -⟩ := sim.hb.thrs.of_bound bound
  unfold handleAllocOn
  rw [tlAssert_of signed, ok_bind, if_neg served]
  dsimp only [if_true]
  have added : Sim (Heap.htAddNode
      { h with mem := fill h.mem p szB.toNat 0 } ⟨p, szB.toNat⟩).machine m :=
    sim
  obtain ⟨after, done, sim', table⟩ :=
    evhNewMemHeap_returns added isClocks p szB.toNat
  have mem : after.mem = fill h.mem p szB.toNat 0 := by
    unfold evhNewMemHeap at done
    obtain ⟨machine, -, done⟩ := bind_eq_ok.mp done
    cases done
    rfl
  rw [if_pos rfl, done, ok_bind]
  refine Returns.pure ⟨rfl, ?_, fun c first last => ⟨?_, ?_⟩⟩
  · unfold htLookup
    rw [table]
    exact List.find?_cons_of_pos (by simp)
  · rw [mem, fill, if_pos ⟨first, last⟩]
  · obtain ⟨t', bound', denotes⟩ := sim'.hb.thrs.of_some isClocks
    refine ⟨t', clocks, bound', denotes, ?_⟩
    have value := sim'.bytes c
    dsimp only at value
    rwa [fill, if_pos ⟨first, last⟩] at value

/-- The client gets what it asks for, or `NULL`, exactly if a factor is taken
for negative, or the product is below half of the words; or else if the
product is cut off to a word below that half and the allocator fails. -/
theorem calloc_allocates_iff (wf : h.machine.WF)
    (known : (h.machine.2.hb.thrs.lookup thr).isSome) :
    Returns (h.hgCliCalloc thr nmemb size1 p)
        (Allocates thr (nmemb.toNat * size1.toNat)) ↔
      nmemb.toInt < 0 ∨ size1.toInt < 0 ∨
        2 * (nmemb.toNat * size1.toNat) < 2 ^ w ∨
        0 ≤ (nmemb * size1).toInt ∧ p = 0 := by
  unfold hgCliCalloc
  by_cases negative : nmemb.toInt < 0 ∨ size1.toInt < 0
  · rw [if_pos negative]
    exact iff_of_true (Returns.ok (.inl rfl))
      (or_assoc.mp (.inl negative))
  rw [if_neg negative, ← or_assoc, or_iff_right negative]
  by_cases signed : 0 ≤ (nmemb * size1).toInt
  · by_cases isNull : p = 0
    · refine iff_of_true ?_ (.inr ⟨signed, isNull⟩)
      unfold handleAllocOn
      rw [tlAssert_of signed, ok_bind, if_pos isNull]
      exact Returns.pure (.inl rfl)
    · obtain ⟨out, done, isP, recorded, bytes⟩ :=
        handleAllocOn_returns wf known signed isNull
      have small := (toInt_nonneg_iff _).mp signed
      have exact_iff := toNat_mul_eq_iff nmemb size1
      constructor
      · intro allocates
        left
        rcases allocates.of_eq_ok done with null | ⟨found, -⟩
        · exact absurd (isP.symm.trans null) isNull
        · rw [isP, recorded, Option.some.injEq, MallocMeta.mk.injEq] at found
          rw [← found.2]
          exact small
      · rintro (fits | ⟨-, null⟩)
        · have same := exact_iff.mpr (by omega)
          rw [same] at recorded bytes
          refine ⟨out, done, .inr ?_⟩
          rw [isP]
          exact ⟨recorded, bytes⟩
        · exact absurd null isNull
  · refine iff_of_false ?_ ?_
    · rintro ⟨out, done, -⟩
      unfold handleAllocOn at done
      rw [tlAssert_of_not signed] at done
      cases done
    · rintro (fits | ⟨nonnegative, -⟩)
      · apply signed
        rw [toInt_nonneg_iff, (toNat_mul_eq_iff nmemb size1).mpr (by omega)]
        exact fits
      · exact signed nonnegative

end Call

/-- Four elements of eight bytes. -/
theorem calloc_allocates_iff_small : ∃ h : Heap,
    Machine.init 1 = .ok h.machine ∧
    (Returns (h.hgCliCalloc 1 4#64 8#64 4096) (Allocates 1 (4 * 8)) ↔
      (4#64).toInt < 0 ∨ (8#64).toInt < 0 ∨ 2 * (4 * 8) < 2 ^ 64 ∨
        0 ≤ (4#64 * 8#64).toInt ∧ 4096 = 0) := by
  have seen : ((Machine.init 1).toOption.map fun machine =>
      (machine.2.hb.thrs.lookup 1).isSome) = some true := by
    decide +kernel
  obtain ⟨machine, started, isThread⟩ := exists_ok_of_map seen
  obtain ⟨machine', started', sim⟩ := Sim.init 1
  rw [started] at started'
  cases started'
  exact ⟨⟨[], machine, fun _ => 0⟩, started,
    calloc_allocates_iff ⟨_, sim⟩ isThread⟩

/-- The product of 2^32 and 2^31 has the sign bit, and that of 2^33 and 2^31
is cut off to zero. -/
theorem calloc_aborts_or_shrinks : ∃ h : Heap,
    Machine.init 1 = .ok h.machine ∧
    ¬ Returns (h.hgCliCalloc 1 0x100000000#64 0x80000000#64 4096)
      (Allocates 1 (0x100000000 * 0x80000000)) ∧
    h.hgCliCalloc 1 0x100000000#64 0x80000000#64 4096 =
      .error .tlAssert ∧
    ¬ Returns (h.hgCliCalloc 1 0x200000000#64 0x80000000#64 4096)
      (Allocates 1 (0x200000000 * 0x80000000)) := by
  have seen : ((Machine.init 1).toOption.map fun machine =>
      let h : Heap := ⟨[], machine, fun _ => 0⟩
      (h.hgCliCalloc 1 0x200000000#64 0x80000000#64 4096).toOption.map
        fun out => (out.2, out.1.htLookup 4096)) =
      some (some (4096, some ⟨4096, 0⟩)) := by
    decide +kernel
  obtain ⟨machine, started, onCall⟩ := exists_ok_of_map seen
  obtain ⟨out, done, both⟩ := exists_ok_of_map onCall
  simp only [Prod.mk.injEq] at both
  obtain ⟨isP, recorded⟩ := both
  have aborts : Heap.hgCliCalloc 1 ⟨[], machine, fun _ => 0⟩
      0x100000000#64 0x80000000#64 4096 = .error .tlAssert := rfl
  refine ⟨⟨[], machine, fun _ => 0⟩, started, ?_, aborts, ?_⟩
  · rw [aborts]
    rintro ⟨out, returned, -⟩
    cases returned
  · intro allocates
    rcases allocates.of_eq_ok done with null | ⟨found, -⟩
    · rw [isP] at null
      cases null
    · rw [isP, recorded] at found
      cases found

end Heap
end HelgrindPlus
