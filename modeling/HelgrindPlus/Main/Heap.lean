import HelgrindPlus.Msm.RangeWrites

/-!
# The replacements of the allocation functions

The part of `hg_main.c` that keeps a record for each block of the client's
heap and tells shadow memory about blocks that come and go.  The allocator
`VG_(cli_malloc)` belongs to the core: a call carries the address that it
returns if it is asked.

A size is taken for negative from `2 ^ 63` on.
-/

namespace HelgrindPlus

open Outcome

/-- An entry of `hg_mallocmeta_table`.  Where the block was allocated and by
which thread only matters to error messages. -/
structure MallocMeta where
  payload : Nat
  szB : Nat
  deriving DecidableEq, Repr

/-- The table, with the nodes of one key in the order of their chain, shadow
memory, and the contents of the client's memory. -/
structure Heap where
  table : List MallocMeta
  machine : Machine
  mem : Nat → UInt8

namespace Heap

def htLookup (h : Heap) (key : Nat) : Option MallocMeta :=
  h.table.find? (·.payload = key)

def htRemove (h : Heap) (key : Nat) : Heap :=
  { h with table := h.table.eraseP (·.payload = key) }

/-- The first node of the key is changed in place. -/
def htSet (h : Heap) (key : Nat) (md : MallocMeta) : Heap :=
  { h with table := h.table.replaceF fun old =>
      if old.payload = key then some md else none }

def htAddNode (h : Heap) (md : MallocMeta) : Heap :=
  { h with table := md :: h.table }

/-- The handler `evh__new_mem_heap`; both values of `is_inited` lead to
`shadow_mem_make_New`. -/
def evhNewMemHeap (thr : Nat) (h : Heap) (a len : Nat) :
    Except Abort Heap := do
  let machine ← h.machine.rangeNew thr a len
  pure { h with machine := machine }

def evhDieMemHeap (h : Heap) (a len : Nat) : Except Abort Heap := do
  let machine ← h.machine.rangeNoaccess a len
  pure { h with machine := machine }

def shadowMemCopyRange (h : Heap) (src dst len : Nat) :
    Except Abort Heap := do
  let machine ← h.machine.copyRange src dst len
  pure { h with machine := machine }

/-- The bytes after a block is copied. -/
def copyBytes (mem : Nat → UInt8) (src dst len : Nat) : Nat → UInt8 :=
  (List.range len).foldl
    (fun mem i => Function.update mem (dst + i) (mem (src + i))) mem

/-- The function `handle_alloc`, where the allocator returns `p`. -/
def handleAlloc (thr : Nat) (h : Heap) (szB : Nat) (isZeroed : Bool)
    (p : Nat) : Except Abort (Heap × Nat) := do
  tlAssert (szB < 2 ^ 63)
  if p = 0 then pure (h, 0)
  else do
    let h := if isZeroed then { h with mem := fill h.mem p szB 0 } else h
    let h ← (h.htAddNode ⟨p, szB⟩).evhNewMemHeap thr p szB
    pure (h, p)

/-- The functions `hg_cli__malloc`, `hg_cli____builtin_new` and
`hg_cli____builtin_vec_new`, which are the same, and `hg_cli__memalign`, which
passes another alignment to the allocator. -/
def malloc (thr : Nat) (h : Heap) (n p : Nat) : Except Abort (Heap × Nat) :=
  if 2 ^ 63 ≤ n then .ok (h, 0) else h.handleAlloc thr n false p

def calloc (thr : Nat) (h : Heap) (nmemb size1 p : Nat) :
    Except Abort (Heap × Nat) :=
  if 2 ^ 63 ≤ nmemb ∨ 2 ^ 63 ≤ size1 then .ok (h, 0)
  else h.handleAlloc thr (nmemb * size1 % 2 ^ 64) true p

/-- The function `handle_free`, which is called by `hg_cli__free` and by the
two replacements of `delete`. -/
def handleFree (h : Heap) (p : Nat) : Except Abort Heap :=
  match h.htLookup p with
  | none => .ok h
  | some md => (h.htRemove p).evhDieMemHeap p md.szB

/-- The branch of `hg_cli__realloc` for a smaller size.  The size is stored
before the length of the rest is computed from it. -/
def shrink (h : Heap) (md : MallocMeta) (newSize : Nat) :
    Except Abort Heap :=
  let md := { md with szB := newSize }
  let h := h.htSet md.payload md
  h.evhDieMemHeap (md.payload + newSize) (md.szB - newSize)

/-- The loop that copies the contents of a block, which faults at the first
byte that it writes through `NULL`. -/
def copyContents (h : Heap) (src dst len : Nat) : Except Abort Heap :=
  if dst = 0 ∧ len ≠ 0 then .error .dangling
  else .ok { h with mem := copyBytes h.mem src dst len }

/-- The branch for a bigger size.  It does not ask whether the allocator has
returned `NULL`. -/
def grow (thr : Nat) (h : Heap) (md : MallocMeta) (newSize pNew : Nat) :
    Except Abort Heap := do
  let h ← h.shadowMemCopyRange md.payload pNew md.szB
  let h ← h.evhNewMemHeap thr (pNew + md.szB) (newSize - md.szB)
  let h ← h.evhDieMemHeap md.payload md.szB
  let h ← h.copyContents md.payload pNew md.szB
  pure ((h.htRemove md.payload).htAddNode ⟨pNew, newSize⟩)

def realloc (thr : Nat) (h : Heap) (payload newSize pNew : Nat) :
    Except Abort (Heap × Nat) :=
  if 2 ^ 63 ≤ newSize then .ok (h, 0)
  else
    match h.htLookup payload with
    | none => .ok (h, 0)
    | some md =>
        if md.szB = newSize then .ok (h, payload)
        else if newSize < md.szB then do
          let h ← h.shrink md newSize
          pure (h, payload)
        else do
          let h ← h.grow thr md newSize pNew
          pure (h, pNew)

end Heap

inductive HeapOp where
  | malloc (n p : Nat)
  | calloc (nmemb size1 p : Nat)
  | free (p : Nat)
  | realloc (payload newSize pNew : Nat)
  deriving DecidableEq, Repr

namespace Heap

/-- A call, with the address that the client gets. -/
def perform (thr : Nat) (h : Heap) : HeapOp → Except Abort (Heap × Nat)
  | .malloc n p => h.malloc thr n p
  | .calloc nmemb size1 p => h.calloc thr nmemb size1 p
  | .free p => do
      let h ← h.handleFree p
      pure (h, 0)
  | .realloc payload newSize pNew => h.realloc thr payload newSize pNew

end Heap

/-- The size of the live block at an address. -/
abbrev Live := Nat → Option Nat

namespace Live

def none : Live := fun _ => .none

/-- The blocks after a call that has returned `result`. -/
def after (live : Live) (result : Nat) : HeapOp → Live
  | .malloc n _ =>
      if result = 0 then live else Function.update live result (some n)
  | .calloc nmemb size1 _ =>
      if result = 0 then live
      else Function.update live result (some (nmemb * size1 % 2 ^ 64))
  | .free p => Function.update live p .none
  | .realloc payload newSize _ =>
      if result = 0 then live
      else Function.update (Function.update live payload .none) result
        (some newSize)

/-- The byte is part of a live block. -/
def Covers (live : Live) (c : Nat) : Prop :=
  ∃ p n, live p = some n ∧ p ≤ c ∧ c < p + n

/-- A block of the allocator, which has at least one byte, does not overlap
any live block. -/
def Apart (live : Live) (p n : Nat) : Prop :=
  ∀ q m, live q = some m → p + max n 1 ≤ q ∨ q + max m 1 ≤ p

theorem Apart.unused {live : Live} {p n : Nat} (apart : live.Apart p n) :
    live p = .none := by
  cases found : live p with
  | none => rfl
  | some m =>
      have disjoint := apart p m found
      omega

end Live

/-- What the core promises: `VG_(cli_malloc)` returns `NULL` or a block that
does not overlap any live one. -/
def HeapOp.Served (live : Live) : HeapOp → Prop
  | .malloc n p => p = 0 ∨ live.Apart p n
  | .calloc nmemb size1 p => p = 0 ∨ live.Apart p (nmemb * size1 % 2 ^ 64)
  | .free _ => True
  | .realloc _ newSize pNew => pNew = 0 ∨ live.Apart pNew newSize

/-- The size passes the sign check of `handle_alloc`. -/
def HeapOp.Signed : HeapOp → Prop
  | .calloc nmemb size1 _ => nmemb < 2 ^ 63 → size1 < 2 ^ 63 →
      nmemb * size1 % 2 ^ 64 < 2 ^ 63
  | _ => True

/-- No block is made smaller, and the allocator does not fail when one is to
be made bigger. -/
def HeapOp.Harmless (live : Live) : HeapOp → Prop
  | .realloc payload newSize pNew => newSize < 2 ^ 63 → ∀ n,
      live payload = some n → n ≤ newSize ∧ (n < newSize → pNew ≠ 0)
  | _ => True

namespace Heap

/-- A call by a thread, with the blocks that the client then has. -/
def performLive (acc : Heap × Live) (call : Nat × HeapOp) :
    Except Abort (Heap × Live) := do
  let (h, result) ← acc.1.perform call.1 call.2
  pure (h, acc.2.after result call.2)

def run (h : Heap) (calls : List (Nat × HeapOp)) :
    Except Abort (Heap × Live) :=
  calls.foldlM performLive (h, .none)

/-- The table has one entry for each live block, and no other. -/
def Recorded (h : Heap) (live : Live) : Prop :=
  ∀ p, h.table.filter (·.payload = p) =
    ((live p).map (MallocMeta.mk p)).toList

/-- The byte has the shadow value that `libhb_range_new` sets. -/
def IsNew (h : Heap) (thr c : Nat) : Prop :=
  ∃ t clocks, h.machine.2.hb.thrs.lookup thr = some t ∧
    h.machine.2.hb.tab.Denotes t.viR t.viW clocks ∧
    h.machine.2.hb.tab.SVDenotes (h.machine.1.byte c)
      (.C clocks.vW clocks.vW)

/-- The byte has the shadow value that another one had before. -/
def IsCopy (before h : Heap) (old c : Nat) : Prop :=
  ∃ value, before.machine.2.hb.tab.SVDenotes (before.machine.1.byte old)
      value ∧
    h.machine.2.hb.tab.SVDenotes (h.machine.1.byte c) value

/-- Every byte that a call has added to the live blocks is new, or has the
shadow value of its old position. -/
def Joined (call : Nat × HeapOp) (before after : Heap × Live) : Prop :=
  ∀ c, after.2.Covers c → ¬ before.2.Covers c →
    after.1.IsNew call.1 c ∨
    ∃ payload newSize pNew, call.2 = .realloc payload newSize pNew ∧
      pNew ≤ c ∧ before.2.Covers (payload + (c - pNew)) ∧
      IsCopy before.1 after.1 (payload + (c - pNew)) c

private theorem filter_eraseP_self {α : Type} (p : α → Bool) (l : List α) :
    (l.eraseP p).filter p = (l.filter p).tail := by
  induction l with
  | nil => rfl
  | cons a l induction =>
      by_cases holds : p a = true
      · rw [List.eraseP_cons_of_pos holds, List.filter_cons_of_pos holds,
          List.tail_cons]
      · rw [List.eraseP_cons_of_neg holds, List.filter_cons_of_neg holds,
          List.filter_cons_of_neg holds, induction]

private theorem filter_eraseP_of_disjoint {α : Type} {p q : α → Bool}
    (disjoint : ∀ a, p a = true → q a = false) (l : List α) :
    (l.eraseP p).filter q = l.filter q := by
  induction l with
  | nil => rfl
  | cons a l induction =>
      by_cases holds : p a = true
      · have skipped : ¬ q a = true := by simp [disjoint a holds]
        rw [List.eraseP_cons_of_pos holds, List.filter_cons_of_neg skipped]
      · rw [List.eraseP_cons_of_neg holds, List.filter_cons, List.filter_cons,
          induction]

section Table

variable {h : Heap} {live : Live} {p n : Nat}

theorem Recorded.lookup (recorded : h.Recorded live) (p : Nat) :
    h.htLookup p = (live p).map (MallocMeta.mk p) := by
  unfold htLookup
  rw [← List.head?_filter, recorded p]
  cases live p <;> rfl

theorem Recorded.remove (recorded : h.Recorded live) (p : Nat) :
    (h.htRemove p).Recorded (Function.update live p none) := by
  intro q
  by_cases same : q = p
  · subst same
    change (h.table.eraseP _).filter _ = _
    rw [filter_eraseP_self, recorded q, Function.update_self]
    cases live q <;> rfl
  · change (h.table.eraseP _).filter _ = _
    rw [Function.update_of_ne same, ← recorded q]
    apply filter_eraseP_of_disjoint
    intro md isP
    simp only [decide_eq_true_eq] at isP
    simp only [decide_eq_false_iff_not, isP]
    exact Ne.symm same

theorem Recorded.add (recorded : h.Recorded live) (unused : live p = none)
    (n : Nat) :
    (h.htAddNode ⟨p, n⟩).Recorded (Function.update live p (some n)) := by
  intro q
  change (MallocMeta.mk p n :: h.table).filter _ = _
  by_cases same : q = p
  · subst same
    rw [List.filter_cons_of_pos (by simp), recorded q, unused,
      Function.update_self]
    rfl
  · rw [List.filter_cons_of_neg (by simpa using Ne.symm same),
      Function.update_of_ne same, recorded q]

end Table

section Shadow

variable {h : Heap} {m : AbsMachine} {clocks : Clocks} {thr : Nat}

theorem evhNewMemHeap_returns (sim : Sim h.machine m)
    (known : m.hb.thrs thr = some clocks) (a len : Nat) :
    Returns (h.evhNewMemHeap thr a len) (fun after =>
      Sim after.machine { m with
        map := fill m.map a len (.C clocks.vW clocks.vW) } ∧
      after.table = h.table) := by
  have agrees := @Sim.rangeNew_agrees h.machine.1 h.machine.2 m sim thr a len
  unfold AbsMachine.rangeNew at agrees
  rw [known] at agrees
  have returns : Returns (h.machine.rangeNew thr a len) _ := agrees
  apply returns.bind
  intro machine sim'
  exact Returns.pure ⟨sim', rfl⟩

private theorem evhDieMemHeap_returns (sim : Sim h.machine m) (a len : Nat) :
    Returns (h.evhDieMemHeap a len) (fun after =>
      Sim after.machine { m with map := fill m.map a len .A } ∧
      after.table = h.table) := by
  have returns : Returns (h.machine.rangeNoaccess a len) _ :=
    Sim.setRange sim (by nofun) .A a len
  apply returns.bind
  intro machine sim'
  exact Returns.pure ⟨sim', rfl⟩

private theorem shadowMemCopyRange_returns (sim : Sim h.machine m)
    {src dst len : Nat} (apart : src + len ≤ dst ∨ dst + len ≤ src) :
    Returns (h.shadowMemCopyRange src dst len) (fun after =>
      Sim after.machine { m with map := Zsm.copied m.map src dst len } ∧
      after.table = h.table) := by
  have agrees := @Sim.copyRange_agrees h.machine.1 h.machine.2 m sim src dst
    len
  unfold AbsMachine.copyRange at agrees
  rw [tlAssert_of (.inr apart), ok_bind] at agrees
  have returns : Returns (h.machine.copyRange src dst len) _ := agrees
  apply returns.bind
  intro machine sim'
  exact Returns.pure ⟨sim', rfl⟩

end Shadow

/-- The invariant, where the bytes of `past` have been part of some block. -/
structure Tracks (past : Nat → Prop) (m : AbsMachine) (h : Heap)
    (live : Live) : Prop where
  sim : Sim h.machine m
  recorded : h.Recorded live
  apart : ∀ p n, live p = some n →
    Live.Apart (Function.update live p none) p n
  null : live 0 = none
  gone : ∀ c, past c → ¬ live.Covers c → m.map c = .A

structure Stepped (past : Nat → Prop) (m : AbsMachine)
    (call : Nat × HeapOp) (before after : Heap × Live) : Prop where
  tracks : ∃ m', m'.hb = m.hb ∧
    Tracks (fun c => past c ∨ after.2.Covers c) m' after.1 after.2
  joined : Joined call before after

section Calls

variable {past : Nat → Prop} {m : AbsMachine} {h : Heap} {live : Live}
  {thr p n : Nat} {op : HeapOp} {clocks : Clocks}

/-- A call that changes nothing. -/
theorem Tracks.unchanged (tracks : Tracks past m h live)
    (call : Nat × HeapOp) : Stepped past m call (h, live) (h, live) where
  tracks := by
    refine ⟨m, rfl, tracks.sim, tracks.recorded, tracks.apart, tracks.null,
      ?_⟩
    rintro c (before | now) outside
    · exact tracks.gone c before outside
    · exact absurd now outside
  joined c covered outside := absurd covered outside

theorem Covers.of_update {size : Option Nat} {c : Nat}
    (covered : Live.Covers (Function.update live p size) c) :
    (∃ n, size = some n ∧ p ≤ c ∧ c < p + n) ∨
      ∃ q n, q ≠ p ∧ live q = some n ∧ q ≤ c ∧ c < q + n := by
  obtain ⟨q, n, isSize, first, last⟩ := covered
  by_cases same : q = p
  · subst same
    rw [Function.update_self] at isSize
    exact .inl ⟨n, isSize, first, last⟩
  · rw [Function.update_of_ne same] at isSize
    exact .inr ⟨q, n, same, isSize, first, last⟩

theorem Covers.update_self {c : Nat} (first : p ≤ c) (last : c < p + n) :
    Live.Covers (Function.update live p (some n)) c :=
  ⟨p, n, Function.update_self .., first, last⟩

theorem Covers.update_of_ne {q size : Nat} {value : Option Nat} {c : Nat}
    (other : q ≠ p) (isSize : live q = some size) (first : q ≤ c)
    (last : c < q + size) : Live.Covers (Function.update live p value) c :=
  ⟨q, size, by rw [Function.update_of_ne other]; exact isSize, first, last⟩

/-- A new block does not overlap the others. -/
theorem apart_update (apart : ∀ q k, live q = some k →
      Live.Apart (Function.update live q none) q k)
    (fresh : live.Apart p n) :
    ∀ q k, Function.update live p (some n) q = some k → Live.Apart
      (Function.update (Function.update live p (some n)) q none) q k := by
  intro q k isSize r j isOther
  have distinct : r ≠ q := by
    rintro rfl
    rw [Function.update_self] at isOther
    cases isOther
  rw [Function.update_of_ne distinct] at isOther
  by_cases isP : q = p
  · subst isP
    rw [Function.update_self] at isSize
    cases isSize
    rw [Function.update_of_ne distinct] at isOther
    exact fresh r j isOther
  · rw [Function.update_of_ne isP] at isSize
    by_cases otherP : r = p
    · subst otherP
      rw [Function.update_self] at isOther
      cases isOther
      exact (fresh q k isSize).symm
    · rw [Function.update_of_ne otherP] at isOther
      apply apart q k isSize r j
      rw [Function.update_of_ne distinct]
      exact isOther

theorem update_none_eq_some {q k : Nat}
    (isSize : Function.update live p none q = some k) :
    q ≠ p ∧ live q = some k := by
  by_cases isP : q = p
  · rw [isP, Function.update_self] at isSize
    cases isSize
  · rw [Function.update_of_ne isP] at isSize
    exact ⟨isP, isSize⟩

private theorem apart_remove (apart : ∀ q k, live q = some k →
      Live.Apart (Function.update live q none) q k) (p : Nat) :
    ∀ q k, Function.update live p none q = some k → Live.Apart
      (Function.update (Function.update live p none) q none) q k := by
  intro q k isSize r j isOther
  obtain ⟨-, isSize⟩ := update_none_eq_some isSize
  obtain ⟨distinct, isOther⟩ := update_none_eq_some isOther
  obtain ⟨-, isOther⟩ := update_none_eq_some isOther
  apply apart q k isSize r j
  rw [Function.update_of_ne distinct]
  exact isOther

private theorem handleAlloc_returns (tracks : Tracks past m h live)
    (known : m.hb.thrs thr = some clocks) (signed : n < 2 ^ 63)
    (served : p = 0 ∨ live.Apart p n) (isZeroed : Bool) (op : HeapOp) :
    Returns (h.handleAlloc thr n isZeroed p) (fun out =>
      Stepped past m (thr, op) (h, live) (out.1,
        if out.2 = 0 then live
        else Function.update live out.2 (some n))) := by
  unfold handleAlloc
  rw [tlAssert_of signed, ok_bind]
  by_cases isNull : p = 0
  · rw [if_pos isNull]
    exact Returns.pure (tracks.unchanged _)
  have fresh := served.resolve_left isNull
  rw [if_neg isNull]
  dsimp only
  have same : Sim ((if isZeroed then { h with mem := fill h.mem p n 0 }
      else h).htAddNode ⟨p, n⟩).machine m := by
    cases isZeroed <;> exact tracks.sim
  have added : ((if isZeroed then { h with mem := fill h.mem p n 0 }
      else h).htAddNode ⟨p, n⟩).table = ⟨p, n⟩ :: h.table := by
    cases isZeroed <;> rfl
  apply (evhNewMemHeap_returns same known p n).bind
  rintro after ⟨sim, table⟩
  apply Returns.pure
  dsimp only
  rw [if_neg isNull]
  have isNew : ∀ c, p ≤ c → c < p + n → after.IsNew thr c := by
    intro c first last
    obtain ⟨t, bound, denotes⟩ := sim.hb.thrs.of_some known
    refine ⟨t, clocks, bound, denotes, ?_⟩
    have value := sim.bytes c
    dsimp only at value
    rwa [fill, if_pos ⟨first, last⟩] at value
  refine ⟨⟨{ m with map := fill m.map p n (.C clocks.vW clocks.vW) }, rfl,
    sim, ?_, ?_, ?_, ?_⟩, ?_⟩
  · have recorded := tracks.recorded.add fresh.unused n
    intro q
    dsimp only
    rw [table, added]
    exact recorded q
  · exact apart_update tracks.apart fresh
  · dsimp only
    rw [Function.update_of_ne (Ne.symm isNull)]
    exact tracks.null
  · rintro c (before | now) outside
    · have notNew : ¬(p ≤ c ∧ c < p + n) := fun inside =>
        outside (Covers.update_self inside.1 inside.2)
      dsimp only
      rw [fill, if_neg notNew]
      apply tracks.gone c before
      rintro ⟨q, k, isSize, first, last⟩
      apply outside
      refine Covers.update_of_ne ?_ isSize first last
      rintro rfl
      rw [fresh.unused] at isSize
      cases isSize
    · exact absurd now outside
  · intro c covered outside
    rcases Covers.of_update covered with ⟨k, isSize, first, last⟩ |
        ⟨q, k, -, isSize, first, last⟩
    · cases isSize
      exact .inl (isNew c first last)
    · exact absurd ⟨q, k, isSize, first, last⟩ outside

private theorem handleFree_returns (tracks : Tracks past m h live) (p : Nat) :
    Returns (h.handleFree p) (fun after =>
      Stepped past m (thr, .free p) (h, live)
        (after, Function.update live p none)) := by
  unfold handleFree
  rw [tracks.recorded.lookup p]
  cases found : live p with
  | none =>
      have same : Function.update live p none = live := by
        rw [← found]
        exact Function.update_eq_self p live
      rw [same]
      exact Returns.ok (tracks.unchanged _)
  | some n =>
      have sim : Sim (h.htRemove p).machine m := tracks.sim
      apply (evhDieMemHeap_returns sim p n).mono
      rintro after ⟨sim', table⟩
      refine ⟨⟨{ m with map := fill m.map p n .A }, rfl, sim', ?_, ?_, ?_,
        ?_⟩, ?_⟩
      · intro q
        dsimp only
        rw [table]
        exact tracks.recorded.remove p q
      · exact apart_remove tracks.apart p
      · dsimp only
        by_cases isP : 0 = p
        · rw [← isP, Function.update_self]
        · rw [Function.update_of_ne isP]
          exact tracks.null
      · rintro c (before | now) outside
        · dsimp only
          unfold fill
          split
          · rfl
          · rename_i notFreed
            apply tracks.gone c before
            rintro ⟨q, k, isSize, first, last⟩
            apply outside
            refine Covers.update_of_ne ?_ isSize first last
            rintro rfl
            rw [found] at isSize
            cases isSize
            exact notFreed ⟨first, last⟩
        · exact absurd now outside
      · intro c covered outside
        rcases Covers.of_update covered with ⟨k, isSize, -⟩ |
            ⟨q, k, -, isSize, first, last⟩
        · cases isSize
        · exact absurd ⟨q, k, isSize, first, last⟩ outside

private theorem grow_returns (tracks : Tracks past m h live)
    (known : m.hb.thrs thr = some clocks) {newSize pNew : Nat}
    (found : live p = some n) (bigger : n < newSize) (fits : pNew ≠ 0)
    (fresh : live.Apart pNew newSize) :
    Returns (h.grow thr ⟨p, n⟩ newSize pNew) (fun after =>
      Stepped past m (thr, .realloc p newSize pNew) (h, live) (after,
        Function.update (Function.update live p none) pNew
          (some newSize))) := by
  have disjoint := fresh p n found
  have rangesApart : p + n ≤ pNew ∨ pNew + n ≤ p := by omega
  unfold grow
  apply (shadowMemCopyRange_returns tracks.sim rangesApart).bind
  rintro h₁ ⟨sim₁, table₁⟩
  apply (evhNewMemHeap_returns sim₁ known (pNew + n) (newSize - n)).bind
  rintro h₂ ⟨sim₂, table₂⟩
  apply (evhDieMemHeap_returns sim₂ p n).bind
  rintro h₃ ⟨sim₃, table₃⟩
  unfold copyContents
  rw [if_neg (not_and_of_not_left _ fits), ok_bind]
  apply Returns.pure
  have other : pNew ≠ p := by
    rintro rfl
    rw [fresh.unused] at found
    cases found
  have unused : Function.update live p none pNew = none := by
    rw [Function.update_of_ne other]
    exact fresh.unused
  dsimp only at sim₃
  -- the copied bytes, and the new ones behind them
  have copied : ∀ c, pNew ≤ c → c < pNew + n →
      h₃.machine.2.hb.tab.SVDenotes (h₃.machine.1.byte c)
        (m.map (p + (c - pNew))) := by
    intro c first last
    have value := sim₃.bytes c
    dsimp only at value
    rw [fill, if_neg (by omega), fill, if_neg (by omega), Zsm.copied,
      if_pos ⟨first, last⟩] at value
    exact value
  have isNew : ∀ c, pNew + n ≤ c → c < pNew + newSize →
      h₃.IsNew thr c := by
    intro c first last
    obtain ⟨t, bound, denotes⟩ := sim₃.hb.thrs.of_some known
    refine ⟨t, clocks, bound, denotes, ?_⟩
    have value := sim₃.bytes c
    dsimp only at value
    rwa [fill, if_neg (by omega), fill, if_pos (by omega)] at value
  refine ⟨⟨{ m with map := fill (fill (Zsm.copied m.map p pNew n) (pNew + n)
    (newSize - n) (.C clocks.vW clocks.vW)) p n .A }, rfl, sim₃, ?_, ?_, ?_,
    ?_⟩, ?_⟩
  · have recorded : h₃.Recorded live := by
      intro q
      rw [table₃, table₂, table₁]
      exact tracks.recorded q
    exact (recorded.remove p).add unused newSize
  · refine apart_update (apart_remove tracks.apart p) ?_
    intro q k isSize
    exact fresh q k (update_none_eq_some isSize).2
  · dsimp only
    rw [Function.update_of_ne (Ne.symm fits)]
    by_cases isP : 0 = p
    · rw [← isP, Function.update_self]
    · rw [Function.update_of_ne isP]
      exact tracks.null
  · rintro c (before | now) outside
    · have notNew : ¬(pNew ≤ c ∧ c < pNew + newSize) := fun inside =>
        outside (Covers.update_self inside.1 inside.2)
      dsimp only
      by_cases inOld : p ≤ c ∧ c < p + n
      · rw [fill, if_pos inOld]
      · rw [fill, if_neg inOld, fill, if_neg (by omega), Zsm.copied,
          if_neg (by omega)]
        apply tracks.gone c before
        rintro ⟨q, k, isSize, first, last⟩
        apply outside
        have notP : q ≠ p := by
          rintro rfl
          rw [found] at isSize
          cases isSize
          exact inOld ⟨first, last⟩
        have notPNew : q ≠ pNew := by
          rintro rfl
          rw [fresh.unused] at isSize
          cases isSize
        refine Covers.update_of_ne notPNew ?_ first last
        rw [Function.update_of_ne notP]
        exact isSize
    · exact absurd now outside
  · intro c covered outside
    rcases Covers.of_update covered with ⟨k, isSize, first, last⟩ |
        ⟨q, k, -, isSize, first, last⟩
    · cases isSize
      by_cases early : c < pNew + n
      · have old : live.Covers (p + (c - pNew)) :=
          ⟨p, n, found, by omega, by omega⟩
        exact .inr ⟨p, newSize, pNew, rfl, first, old,
          m.map (p + (c - pNew)), tracks.sim.bytes _, copied c first early⟩
      · exact .inl (isNew c (by omega) last)
    · exact absurd ⟨q, k, (update_none_eq_some isSize).2, first, last⟩
        outside

private theorem realloc_returns (tracks : Tracks past m h live)
    (known : m.hb.thrs thr = some clocks) {payload newSize pNew : Nat}
    (served : pNew = 0 ∨ live.Apart pNew newSize)
    (harmless : newSize < 2 ^ 63 → ∀ n, live payload = some n →
      n ≤ newSize ∧ (n < newSize → pNew ≠ 0)) :
    Returns (h.realloc thr payload newSize pNew) (fun out =>
      Stepped past m (thr, .realloc payload newSize pNew) (h, live) (out.1,
        live.after out.2 (.realloc payload newSize pNew))) := by
  unfold realloc
  split
  · exact Returns.ok (tracks.unchanged _)
  rename_i nonnegative
  rw [tracks.recorded.lookup payload]
  cases found : live payload with
  | none => exact Returns.ok (tracks.unchanged _)
  | some n =>
      obtain ⟨notSmaller, notNull⟩ := harmless (not_le.mp nonnegative) n found
      have nonnull : payload ≠ 0 := by
        rintro rfl
        rw [tracks.null] at found
        cases found
      dsimp only [Option.map_some]
      by_cases isSame : n = newSize
      · rw [if_pos isSame]
        have same : live.after payload (.realloc payload newSize pNew) =
            live := by
          change (if payload = 0 then live else _) = live
          rw [if_neg nonnull, Function.update_idem, ← isSame, ← found]
          exact Function.update_eq_self payload live
        apply Returns.ok
        dsimp only
        rw [same]
        exact tracks.unchanged _
      · have bigger : n < newSize := by omega
        rw [if_neg isSame, if_neg (by omega)]
        have fits := notNull bigger
        apply (grow_returns tracks known found bigger fits
          (served.resolve_left fits)).bind
        intro after stepped
        apply Returns.pure
        unfold Live.after
        dsimp only
        rw [if_neg fits]
        exact stepped

theorem perform_returns (tracks : Tracks past m h live)
    (known : m.hb.thrs thr = some clocks) (signed : op.Signed)
    (served : op.Served live) (harmless : op.Harmless live) :
    Returns (h.perform thr op) (fun out =>
      Stepped past m (thr, op) (h, live)
        (out.1, live.after out.2 op)) := by
  cases op with
  | malloc n p =>
      change Returns (if 2 ^ 63 ≤ n then _ else _) _
      split
      · exact Returns.ok (tracks.unchanged _)
      · rename_i nonnegative
        exact handleAlloc_returns tracks known (not_le.mp nonnegative) served
          false _
  | calloc nmemb size1 p =>
      change Returns (if 2 ^ 63 ≤ nmemb ∨ 2 ^ 63 ≤ size1 then _ else _) _
      split
      · exact Returns.ok (tracks.unchanged _)
      · rename_i nonnegative
        exact handleAlloc_returns tracks known
          (signed (by omega) (by omega)) served true _
  | free p =>
      apply (handleFree_returns tracks p).bind
      intro after stepped
      exact Returns.pure stepped
  | realloc payload newSize pNew =>
      exact realloc_returns tracks known served harmless

end Calls

section Runs

variable {h : Heap} {calls : List (Nat × HeapOp)}

/-- The byte has been part of a live block after one of the first `k`
calls. -/
def WasLive (h : Heap) (calls : List (Nat × HeapOp)) (k c : Nat) : Prop :=
  ∃ j ≤ k, ∃ s, h.run (calls.take j) = .ok s ∧ s.2.Covers c

theorem run_take_succ {k : Nat} {call : Nat × HeapOp}
    (atK : calls[k]? = some call) :
    h.run (calls.take (k + 1)) =
      h.run (calls.take k) >>= (performLive · call) :=
  foldlM_take_succ atK _

private theorem performLive_returns {past : Nat → Prop} {m : AbsMachine}
    {s : Heap × Live} {call : Nat × HeapOp} {clocks : Clocks}
    (tracks : Tracks past m s.1 s.2)
    (known : m.hb.thrs call.1 = some clocks) (signed : call.2.Signed)
    (served : call.2.Served s.2) (harmless : call.2.Harmless s.2) :
    Returns (performLive s call) (Stepped past m call s) := by
  unfold performLive
  apply (perform_returns tracks known signed served harmless).bind
  intro out stepped
  exact Returns.pure stepped

/-- What a run needs: the threads exist, sizes pass the sign checks, and each
call is served by the allocator and harmless in the state that it finds. -/
structure Allowed (h : Heap) (calls : List (Nat × HeapOp)) : Prop where
  present : ∀ call ∈ calls, (h.machine.2.hb.thrs.lookup call.1).isSome
  signed : ∀ call ∈ calls, call.2.Signed
  served : ∀ k s call, h.run (calls.take k) = .ok s →
    calls[k]? = some call → call.2.Served s.2
  harmless : ∀ k s call, h.run (calls.take k) = .ok s →
    calls[k]? = some call → call.2.Harmless s.2

theorem step_returns {m₀ m : AbsMachine} {s : Heap × Live} {k : Nat}
    {call : Nat × HeapOp} (start : Sim h.machine m₀)
    (allowed : Allowed h calls) (sameHb : m.hb = m₀.hb)
    (reached : h.run (calls.take k) = .ok s)
    (tracks : Tracks (WasLive h calls k) m s.1 s.2)
    (atK : calls[k]? = some call) :
    Returns (performLive s call) (Stepped (WasLive h calls k) m call s) := by
  have isCall := List.mem_of_getElem? atK
  obtain ⟨t, bound⟩ := Option.isSome_iff_exists.mp
    (allowed.present call isCall)
  obtain ⟨clocks, known, -⟩ := start.hb.thrs.of_bound bound
  rw [← sameHb] at known
  exact performLive_returns tracks known (allowed.signed call isCall)
    (allowed.served k s call reached atK)
    (allowed.harmless k s call reached atK)

theorem run_tracks {m₀ : AbsMachine} (start : Sim h.machine m₀)
    (empty : h.table = []) (allowed : Allowed h calls) (k : Nat) :
    Returns (h.run (calls.take k)) (fun s => ∃ m, m.hb = m₀.hb ∧
      Tracks (WasLive h calls k) m s.1 s.2) := by
  induction k with
  | zero =>
      refine Returns.pure ⟨m₀, rfl, start, ?_, by nofun, rfl, ?_⟩
      · intro p
        rw [empty]
        rfl
      · rintro c ⟨j, atStart, s, reached, covered⟩ outside
        cases Nat.le_zero.mp atStart
        cases reached
        exact absurd covered outside
  | succ k induction =>
      obtain ⟨s, reached, m, sameHb, tracks⟩ := induction
      cases atK : calls[k]? with
      | none =>
          have short : calls.length ≤ k := List.getElem?_eq_none_iff.mp atK
          have same : ∀ j, k ≤ j → calls.take j = calls.take k := by
            intro j later
            rw [List.take_of_length_le short,
              List.take_of_length_le (by omega)]
          rw [same (k + 1) (by omega)]
          refine ⟨s, reached, m, sameHb, tracks.sim, tracks.recorded,
            tracks.apart, tracks.null, ?_⟩
          rintro c ⟨j, early, s', reached', covered⟩ outside
          by_cases later : k ≤ j
          · rw [same j later] at reached'
            exact tracks.gone c ⟨k, le_rfl, s', reached', covered⟩ outside
          · exact tracks.gone c ⟨j, by omega, s', reached', covered⟩ outside
      | some call =>
          have stepped := step_returns start allowed sameHb reached tracks atK
          obtain ⟨after, performed, ⟨m', same', tracks'⟩, -⟩ := stepped
          have reached' : h.run (calls.take (k + 1)) = .ok after := by
            rw [run_take_succ atK, reached, ok_bind, performed]
          refine ⟨after, reached', m', same'.trans sameHb, tracks'.sim,
            tracks'.recorded, tracks'.apart, tracks'.null, ?_⟩
          rintro c ⟨j, early, earlier, atJ, covered⟩ outside
          apply tracks'.gone c ?_ outside
          rcases Nat.lt_or_eq_of_le early with before | rfl
          · exact .inl ⟨j, by omega, earlier, atJ, covered⟩
          · rw [reached'] at atJ
            cases atJ
            exact .inr covered

/-- In a run of harmless calls the table has one entry for each live block,
bytes that have left a live block are inaccessible, and bytes that have
joined one are new or have been copied. -/
theorem heap_shadow_follows (wf : h.machine.WF) (empty : h.table = [])
    (allowed : Allowed h calls) (k : Nat) :
    Returns (h.run (calls.take k)) (fun s =>
      s.1.Recorded s.2 ∧
      (∀ c, WasLive h calls k c → ¬ s.2.Covers c →
        s.1.machine.1.byte c = .A) ∧
      ∀ call after, calls[k]? = some call →
        h.run (calls.take (k + 1)) = .ok after → Joined call s after) := by
  obtain ⟨m₀, start⟩ := wf
  obtain ⟨s, reached, m, sameHb, tracks⟩ :=
    run_tracks start empty allowed k
  refine ⟨s, reached, tracks.recorded, ?_, ?_⟩
  · intro c was outside
    have value := tracks.sim.bytes c
    rw [tracks.gone c was outside] at value
    generalize s.1.machine.1.byte c = shadow at value ⊢
    cases value
    rfl
  · intro call after atK reached'
    rw [run_take_succ atK, reached, ok_bind] at reached'
    have stepped := step_returns start allowed sameHb reached tracks atK
    exact (stepped.of_eq_ok reached').joined

private theorem live_after {s after : Heap × Live} {call : Nat × HeapOp}
    {out : Heap × Nat} (performed : s.1.perform call.1 call.2 = .ok out)
    (isAfter : performLive s call = .ok after) :
    after = (out.1, s.2.after out.2 call.2) := by
  unfold performLive at isAfter
  rw [performed, ok_bind] at isAfter
  exact (Except.ok.inj isAfter).symm

/-- A block is made bigger, which moves it, and is freed. -/
def moved : List (Nat × HeapOp) :=
  [(1, .malloc 16 4096), (1, .realloc 4096 32 8192), (1, .free 8192)]

theorem heap_shadow_follows_moved : ∃ h : Heap,
    Machine.init 1 = .ok h.machine ∧ h.table = [] ∧
    Allowed h moved ∧ Returns (h.run moved) (fun s =>
      s.1.Recorded s.2 ∧
      ∀ c, WasLive h moved 3 c → ¬ s.2.Covers c →
        s.1.machine.1.byte c = .A) := by
  have seen : ((Machine.init 1).toOption.map fun machine =>
      ((machine.2.hb.thrs.lookup 1).isSome,
        ((Heap.mk [] machine fun _ => 0).perform 1
          (.malloc 16 4096)).toOption.map (·.2))) =
      some (true, some 4096) := by
    decide +kernel
  obtain ⟨machine, started, both⟩ := exists_ok_of_map seen
  simp only [Prod.mk.injEq] at both
  obtain ⟨isThread, onFirst⟩ := both
  obtain ⟨out, performed, atFirst⟩ := exists_ok_of_map onFirst
  let h : Heap := ⟨[], machine, fun _ => 0⟩
  have wf : h.machine.WF := by
    obtain ⟨machine', started', sim⟩ := Sim.init 1
    rw [started] at started'
    cases started'
    exact ⟨_, sim⟩
  -- the blocks that the second call finds
  have afterFirst : ∀ s, h.run (moved.take 1) = .ok s →
      s.2 = Function.update Live.none 4096 (some 16) := by
    intro s reached
    rw [run_take_succ rfl] at reached
    have isAfter : performLive (h, .none) (1, .malloc 16 4096) = .ok s :=
      reached
    rw [live_after performed isAfter]
    dsimp only
    rw [atFirst]
    rfl
  have allowed : Allowed h moved := by
    refine ⟨?_, ?_, ?_, ?_⟩
    · simp only [moved, List.forall_mem_cons]
      exact ⟨isThread, isThread, isThread, by nofun⟩
    · simp only [moved, List.forall_mem_cons]
      exact ⟨trivial, trivial, trivial, by nofun⟩
    · intro k s call reached atK
      match k, atK with
      | 0, rfl =>
          cases reached
          exact .inr nofun
      | 1, rfl =>
          rw [afterFirst s reached]
          right
          intro q m isSize
          by_cases isBlock : q = 4096
          · rw [isBlock, Function.update_self] at isSize
            cases isSize
            omega
          · rw [Function.update_of_ne isBlock] at isSize
            cases isSize
      | 2, rfl => trivial
    · intro k s call reached atK
      match k, atK with
      | 0, rfl => trivial
      | 1, rfl =>
          rw [afterFirst s reached]
          intro _ n isSize
          rw [Function.update_self] at isSize
          cases isSize
          omega
      | 2, rfl => trivial
  refine ⟨h, started, rfl, allowed, ?_⟩
  apply (heap_shadow_follows wf rfl allowed 3).mono
  exact fun s holds => ⟨holds.1, holds.2.1⟩

/-- A block of sixteen bytes is made smaller.  Its last bytes keep their
shadow value. -/
theorem shrunk_block_keeps_shadow : ∃ (h : Heap) (s : Heap × Live),
    Machine.init 1 = .ok h.machine ∧ h.table = [] ∧
    h.run [(1, .malloc 16 4096), (1, .realloc 4096 8 0)] = .ok s ∧
    WasLive h [(1, .malloc 16 4096), (1, .realloc 4096 8 0)] 2 4104 ∧
    ¬ s.2.Covers 4104 ∧ s.1.machine.1.byte 4104 ≠ .A := by
  have seen : ((Machine.init 1).toOption.map fun machine =>
      ((Heap.mk [] machine fun _ => 0).perform 1
        (.malloc 16 4096)).toOption.map fun out => (out.2,
          (out.1.perform 1 (.realloc 4096 8 0)).toOption.map fun out' =>
            (out'.2, decide (out'.1.machine.1.byte 4104 = .A)))) =
      some (some (4096, some (4096, false))) := by
    decide +kernel
  obtain ⟨machine, started, onFirst⟩ := exists_ok_of_map seen
  obtain ⟨out, first, both⟩ := exists_ok_of_map onFirst
  simp only [Prod.mk.injEq] at both
  obtain ⟨atFirst, onSecond⟩ := both
  obtain ⟨out', second, both'⟩ := exists_ok_of_map onSecond
  simp only [Prod.mk.injEq, decide_eq_false_iff_not] at both'
  obtain ⟨atSecond, shadow⟩ := both'
  let h : Heap := ⟨[], machine, fun _ => 0⟩
  let live₁ : Live := Function.update Live.none 4096 (some 16)
  let live₂ : Live := Function.update (Function.update live₁ 4096 none) 4096
    (some 8)
  have afterFirst : performLive (h, .none) (1, .malloc 16 4096) =
      .ok (out.1, live₁) := by
    unfold performLive
    rw [first, ok_bind]
    dsimp only
    rw [atFirst]
    rfl
  have afterSecond : performLive (out.1, live₁) (1, .realloc 4096 8 0) =
      .ok (out'.1, live₂) := by
    unfold performLive
    rw [second, ok_bind]
    dsimp only
    rw [atSecond]
    rfl
  refine ⟨h, (out'.1, live₂), started, rfl, ?_,
    ⟨1, by decide, (out.1, live₁), ?_, ?_⟩, ?_, shadow⟩
  · change performLive (h, .none) _ >>= (performLive · _ >>= pure) = _
    rw [afterFirst, ok_bind, afterSecond]
    rfl
  · change performLive (h, .none) _ >>= pure = _
    rw [afterFirst]
    rfl
  · exact Covers.update_self (by decide) (by decide)
  · intro covered
    rcases Covers.of_update covered with ⟨n, isSize, -, last⟩ |
        ⟨q, n, other, isSize, -⟩
    · cases isSize
      omega
    · have before : Function.update Live.none 4096 (some 16) q = some n :=
        (update_none_eq_some isSize).2
      rw [Function.update_of_ne other] at before
      cases before

end Runs

end Heap
end HelgrindPlus
