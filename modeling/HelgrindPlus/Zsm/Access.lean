import HelgrindPlus.Zsm.Cache

/-!
# Accesses to shadow memory

The functions `zsm_apply*`, `zsm_write*`, `zsm_read8`, `zsm_copy_range` and
`zsm_set_range`.  Those that apply the memory state machine exist once for
reads and once for writes in the source, with the same text; here the machine
function is a parameter.  It is given the whole state, since a machine
function may itself access shadow memory.  The other functions return the
calls of `rcinc` and `rcdec` that they make.
-/

namespace HelgrindPlus

open Outcome Descr

variable {α ρ σ : Type}

/-- An access of each of the four widths. -/
structure Widths (σ : Type) where
  w8 : σ → Nat → Except Abort σ
  w16 : σ → Nat → Except Abort σ
  w32 : σ → Nat → Except Abort σ
  w64 : σ → Nat → Except Abort σ

inductive Width where
  | w8 | w16 | w32 | w64
  deriving DecidableEq

def Width.bytes : Width → Nat
  | w8 => 1
  | w16 => 2
  | w32 => 4
  | w64 => 8

def Widths.access {σ : Type} (ops : Widths σ) :
    Width → σ → Nat → Except Abort σ
  | .w8 => ops.w8
  | .w16 => ops.w16
  | .w32 => ops.w32
  | .w64 => ops.w64

/-- The accesses that make the address a multiple of `2 * width`. -/
def leading (width : Nat) (access : σ → Nat → Except Abort σ)
    (at_ : σ × Nat × Nat) : Except Abort (σ × Nat × Nat) :=
  let (s, a, len) := at_
  if a % (2 * width) ≠ 0 ∧ width ≤ len then do
    let s ← access s a
    tlAssert ((a + width) % (2 * width) = 0)
    pure (s, a + width, len - width)
  else pure (s, a, len)

/-- The loop `while (len >= 8)`. -/
def middle (access : σ → Nat → Except Abort σ) (at_ : σ × Nat × Nat) :
    Except Abort (σ × Nat × Nat) :=
  let (s, a, len) := at_
  if 8 ≤ len then do
    tlAssert (a % 8 = 0)
    let s ← (List.range (len / 8)).foldlM (fun s i => access s (a + 8 * i)) s
    pure (s, a + 8 * (len / 8), len % 8)
  else pure (s, a, len)

/-- The accesses to what is left after the loop. -/
def trailing (width : Nat) (access : σ → Nat → Except Abort σ)
    (at_ : σ × Nat × Nat) : Except Abort (σ × Nat × Nat) :=
  let (s, a, len) := at_
  if width ≤ len then do
    tlAssert (a % width = 0)
    let s ← access s a
    pure (s, a + width, len - width)
  else pure (s, a, len)

/-- The body of `zsm_apply_range` and `zsm_set_range_SMALL`.  Once `len` is
zero the remaining steps do nothing, so the returns in between are left
out. -/
def overRange (ops : Widths σ) (s : σ) (a len : Nat) : Except Abort σ :=
  if len = 4 ∧ a % 4 = 0 then ops.w32 s a
  else if len = 8 ∧ a % 8 = 0 then ops.w64 s a
  else do
    let at_ ← leading 1 ops.w8 (s, a, len)
    let at_ ← leading 2 ops.w16 at_
    let at_ ← leading 4 ops.w32 at_
    let at_ ← middle ops.w64 at_
    let at_ ← trailing 4 ops.w32 at_
    let at_ ← trailing 2 ops.w16 at_
    let at_ ← trailing 1 ops.w8 at_
    tlAssert (at_.2.2 = 0)
    pure at_.1

namespace Zsm

/-- Works on the tree of an address in the line `cl` that `get_cacheline` has
returned: a place in the cache, whatever its tag. -/
def onTree (z : Zsm α) (a : Nat)
    (work : Tree α → Descr → Nat → Except Abort (Tree α × Descr)) :
    Except Abort (Zsm α) :=
  match z.cache.lookup (wayIndex a) with
  | some (tag, cl) => do
      let tno := a % 64 / 8
      let node ← work (cl.tree tno) (cl.descrs tno) (a % 8)
      pure { z with
        cache := z.cache.insert (wayIndex a) (tag, cl.setTree tno node) }
  | none => .error .dangling

/-- The expression `cl->descrs[tno]`. -/
def descrAt (z : Zsm α) (a : Nat) : Except Abort Descr :=
  match z.cache.lookup (wayIndex a) with
  | some (_, cl) => .ok (cl.descrs (a % 64 / 8))
  | none => .error .dangling

/-- The expression `cl->svals[cloff]`. -/
def svalAt (z : Zsm α) (a : Nat) : Except Abort α :=
  match z.cache.lookup (wayIndex a) with
  | some (_, cl) => .ok (cl.svals (a % 64))
  | none => .error .dangling

end Zsm

/-- The lines `if (!(descr & (TREE_DESCR_8_0 << toff))) pulldown_to_8`. -/
def reach8 (tree : Tree α) (descr : Descr) (toff : Nat) :
    Except Abort (Tree α × Descr) :=
  if descr.has (d8_0 <<< toff) then .ok (tree, descr)
  else pulldownTo8 tree toff descr

section Values

variable [DecidableEq α] [ShadowVal α]

/-- The lines `tl_assert(svNew != SVal_INVALID); cl->svals[cloff] = svNew`. -/
def assign (svNew : α) (tree : Tree α) (descr : Descr) (toff : Nat) :
    Except Abort (Tree α × Descr) := do
  tlAssert (svNew ≠ invalid)
  pure (Function.update tree (Fin.ofNat 8 toff) svNew, descr)

section Apply

variable (rc : ρ → RcEvent α → Except Abort ρ)
  (msm : Zsm α × ρ → α → Nat → Nat → Except Abort ((Zsm α × ρ) × α))

/-- Runs an operation and makes the calls of `rcinc` and `rcdec`. -/
def counting (s : Zsm α × ρ)
    (operation : Zsm α → Except Abort (Zsm α × List (RcEvent α))) :
    Except Abort (Zsm α × ρ) := do
  let (z, events) ← operation s.1
  let r ← events.foldlM rc s.2
  pure (z, r)

/-- The end of every apply function: the machine is called for a node. -/
def applyNode (s : Zsm α × ρ) (a szB : Nat) : Except Abort (Zsm α × ρ) := do
  let svOld ← s.1.svalAt a
  let (s, svNew) ← msm s svOld a szB
  let z ← s.1.onTree a (assign svNew)
  pure (z, s.2)

def apply8 (s : Zsm α × ρ) (a : Nat) : Except Abort (Zsm α × ρ) := do
  let s ← counting rc s (·.getCacheline a)
  let z ← s.1.onTree a reach8
  applyNode msm (z, s.2) a 1

def apply16Slowcase (s : Zsm α × ρ) (a : Nat) :
    Except Abort (Zsm α × ρ) := do
  let s ← apply8 rc msm s (a + 0)
  apply8 rc msm s (a + 1)

def apply16 (s : Zsm α × ρ) (a : Nat) : Except Abort (Zsm α × ρ) :=
  if a % 2 ≠ 0 then apply16Slowcase rc msm s a
  else do
    let s ← counting rc s (·.getCacheline a)
    let descr ← s.1.descrAt a
    if descr.has (d16_0 <<< (a % 8)) then applyNode msm s a 2
    else do
      let below ← validValueIsBelowMe16 descr (a % 8)
      if below then apply16Slowcase rc msm s a
      else do
        let z ← s.1.onTree a fun tree descr toff =>
          pulldownTo16 tree toff descr
        applyNode msm (z, s.2) a 2

def apply32Slowcase (s : Zsm α × ρ) (a : Nat) :
    Except Abort (Zsm α × ρ) := do
  let s ← apply16 rc msm s (a + 0)
  apply16 rc msm s (a + 2)

def apply32 (s : Zsm α × ρ) (a : Nat) : Except Abort (Zsm α × ρ) :=
  if a % 4 ≠ 0 then apply32Slowcase rc msm s a
  else do
    let s ← counting rc s (·.getCacheline a)
    let descr ← s.1.descrAt a
    if descr.has (d32_0 <<< (a % 8)) then applyNode msm s a 4
    else do
      let above ← validValueIsAboveMe32 descr (a % 8)
      if above then do
        let z ← s.1.onTree a fun tree descr toff =>
          pulldownTo32 tree toff descr
        applyNode msm (z, s.2) a 4
      else apply32Slowcase rc msm s a

def apply64Slowcase (s : Zsm α × ρ) (a : Nat) :
    Except Abort (Zsm α × ρ) := do
  let s ← apply32 rc msm s (a + 0)
  apply32 rc msm s (a + 4)

def apply64 (s : Zsm α × ρ) (a : Nat) : Except Abort (Zsm α × ρ) :=
  if a % 8 ≠ 0 then apply64Slowcase rc msm s a
  else do
    let s ← counting rc s (·.getCacheline a)
    let descr ← s.1.descrAt a
    if descr.has d64 then applyNode msm s a 8
    else apply64Slowcase rc msm s a

def applyWidths : Widths (Zsm α × ρ) where
  w8 := apply8 rc msm
  w16 := apply16 rc msm
  w32 := apply32 rc msm
  w64 := apply64 rc msm

def applyRange (s : Zsm α × ρ) (a len : Nat) : Except Abort (Zsm α × ρ) :=
  overRange (applyWidths rc msm) s a len

end Apply

/-- What `zsm_write16` does to a tree. -/
def write16Tree (svNew : α) (tree : Tree α) (descr : Descr) (toff : Nat) :
    Except Abort (Tree α × Descr) :=
  if descr.has (d16_0 <<< toff) then do
    tlAssert (svNew ≠ invalid)
    pure (storeNode tree toff 2 svNew, descr)
  else do
    let below ← validValueIsBelowMe16 descr toff
    if below then do
      let descr ← pullupDescrTo16 descr toff
      tlAssert (svNew ≠ invalid)
      pure (storeNode tree toff 2 svNew, descr)
    else do
      let (tree, descr) ← pulldownTo16 tree toff descr
      tlAssert (svNew ≠ invalid)
      pure (storeNode tree toff 2 svNew, descr)

/-- What `zsm_write32` does to a tree. -/
def write32Tree (svNew : α) (tree : Tree α) (descr : Descr) (toff : Nat) :
    Except Abort (Tree α × Descr) :=
  if descr.has (d32_0 <<< toff) then do
    tlAssert (svNew ≠ invalid)
    pure (storeNode tree toff 4 svNew, descr)
  else do
    let above ← validValueIsAboveMe32 descr toff
    if above then do
      let (tree, descr) ← pulldownTo32 tree toff descr
      tlAssert (svNew ≠ invalid)
      pure (storeNode tree toff 4 svNew, descr)
    else do
      let descr ← pullupDescrTo32 descr toff
      tlAssert (svNew ≠ invalid)
      pure (storeNode tree toff 4 svNew, descr)

/-- What `zsm_write64` does to a tree. -/
def write64Tree (svNew : α) (tree : Tree α) (_ : Descr) (toff : Nat) :
    Except Abort (Tree α × Descr) := do
  tlAssert (svNew ≠ invalid)
  pure (storeNode tree toff 8 svNew, d64)

namespace Zsm

/-- Fetches the line of an address and works on the tree in it; `acc` holds
the calls made so far. -/
def withLine (acc : Zsm α × List (RcEvent α)) (a : Nat)
    (work : Tree α → Descr → Nat → Except Abort (Tree α × Descr)) :
    Except Abort (Zsm α × List (RcEvent α)) := do
  let (z, events) ← acc.1.getCacheline a
  let z ← z.onTree a work
  pure (z, acc.2 ++ events)

def write8 (svNew : α) (acc : Zsm α × List (RcEvent α)) (a : Nat) :
    Except Abort (Zsm α × List (RcEvent α)) :=
  withLine acc a fun tree descr toff => do
    let (tree, descr) ← reach8 tree descr toff
    assign svNew tree descr toff

def write16 (svNew : α) (acc : Zsm α × List (RcEvent α)) (a : Nat) :
    Except Abort (Zsm α × List (RcEvent α)) :=
  if a % 2 ≠ 0 then do
    let acc ← write8 svNew acc (a + 0)
    write8 svNew acc (a + 1)
  else withLine acc a (write16Tree svNew)

def write32 (svNew : α) (acc : Zsm α × List (RcEvent α)) (a : Nat) :
    Except Abort (Zsm α × List (RcEvent α)) :=
  if a % 4 ≠ 0 then do
    let acc ← write16 svNew acc (a + 0)
    write16 svNew acc (a + 2)
  else withLine acc a (write32Tree svNew)

def write64 (svNew : α) (acc : Zsm α × List (RcEvent α)) (a : Nat) :
    Except Abort (Zsm α × List (RcEvent α)) :=
  if a % 8 ≠ 0 then do
    let acc ← write32 svNew acc (a + 0)
    write32 svNew acc (a + 4)
  else withLine acc a (write64Tree svNew)

def read8 (acc : Zsm α × List (RcEvent α)) (a : Nat) :
    Except Abort ((Zsm α × List (RcEvent α)) × α) := do
  let acc ← withLine acc a reach8
  let sv ← acc.1.svalAt a
  pure (acc, sv)

def copy8 (acc : Zsm α × List (RcEvent α)) (src dst : Nat) :
    Except Abort (Zsm α × List (RcEvent α)) := do
  let (acc, sv) ← read8 acc src
  write8 sv acc dst

def copyRange (z : Zsm α) (src dst len : Nat) :
    Except Abort (Zsm α × List (RcEvent α)) :=
  if len = 0 then .ok (z, [])
  else do
    tlAssert (src + len ≤ dst ∨ dst + len ≤ src)
    (List.range len).foldlM (fun acc i => copy8 acc (src + i) (dst + i))
      (z, [])

def writeWidths (svNew : α) : Widths (Zsm α × List (RcEvent α)) where
  w8 := write8 svNew
  w16 := write16 svNew
  w32 := write32 svNew
  w64 := write64 svNew

def setRangeSMALL (svNew : α) (acc : Zsm α × List (RcEvent α))
    (a len : Nat) : Except Abort (Zsm α × List (RcEvent α)) :=
  overRange (writeWidths svNew) acc a len

/-- One round of the loop of `zsm_set_range`: a whole line, in the cache or
in the store. -/
def setWholeLine (svNew : α) (acc : Zsm α × List (RcEvent α)) (a : Nat) :
    Except Abort (Zsm α × List (RcEvent α)) := do
  tlAssert (a % 64 = 0)
  if lineTag a = acc.1.tags0 (wayIndex a) then
    (List.range 8).foldlM (fun acc i => write64 svNew acc (a + i * 8)) acc
  else do
    let (store, events) ← acc.1.store.setLine (lineTag a) svNew
    pure ({ acc.1 with store := store }, acc.2 ++ events)

def setRange (z : Zsm α) (a len : Nat) (svNew : α) :
    Except Abort (Zsm α × List (RcEvent α)) := do
  tlAssert (svNew ≠ invalid)
  if len < 128 then setRangeSMALL svNew (z, []) a len
  else do
    let alignedStart := (a + 63) / 64 * 64
    let afterStart := (a + len) / 64 * 64
    let beforeLen := alignedStart - a
    let afterLen := a + len - afterStart
    tlAssert (a ≤ alignedStart)
    tlAssert (alignedStart ≤ afterStart)
    tlAssert (beforeLen < 64)
    tlAssert (afterLen < 64)
    -- a range of length zero needs no test: nothing is done for it
    let acc ← setRangeSMALL svNew (z, []) a beforeLen
    let acc ← setRangeSMALL svNew acc afterStart afterLen
    (List.range ((afterStart - alignedStart) / 64)).foldlM
      (fun acc i => setWholeLine svNew acc (alignedStart + 64 * i)) acc

end Zsm

end Values

section Values

variable [DecidableEq α] [ShadowVal α] {tree : Tree α} {descr : Descr}
  {toff : Nat} {svNew : α}

theorem reach8_returns (sane : isSaneDescrAndTree descr tree = true)
    (bounded : toff < 8) :
    Returns (reach8 tree descr toff) (PulledDown descr tree toff 1) := by
  have known := mem_descrs_of_toValidbits (isSane_iff.mp sane).1
  unfold reach8
  split
  · rename_i there
    exact Returns.ok ⟨sane, fun i => rfl,
      (isNode_of_has descr known).1 toff bounded there, fun i valid => valid⟩
  · rename_i missing
    exact pulldownTo8_returns sane bounded (Bool.eq_false_iff.mpr missing)

theorem assign_returns {width : Nat}
    (sane : isSaneDescrAndTree descr tree = true) (bounded : toff < 8)
    (node : IsNode descr toff width) (valid : svNew ≠ invalid) :
    Returns (assign svNew tree descr toff)
      (Stored descr tree toff width svNew) := by
  unfold assign
  rw [tlAssert_of valid, ok_bind]
  exact Returns.pure (stored_of_isNode sane bounded node valid)

/-- What `zsm_write8` does to a tree. -/
theorem write8Tree_returns (sane : isSaneDescrAndTree descr tree = true)
    (bounded : toff < 8) (valid : svNew ≠ invalid) :
    Returns (do
      let (tree, descr) ← reach8 tree descr toff
      assign svNew tree descr toff)
      (Stored descr tree toff 1 svNew) := by
  apply (reach8_returns sane bounded).bind
  rintro ⟨pulled, descr'⟩ down
  apply (assign_returns down.sane bounded down.node valid).mono
  intro result stored
  exact down.stored stored

theorem storeNode_stored {width : Nat}
    (sane : isSaneDescrAndTree descr tree = true) (bounded : toff < 8)
    (node : IsNode descr toff width) (valid : svNew ≠ invalid) :
    Stored descr tree toff width svNew
      (storeNode tree toff width svNew, descr) := by
  obtain ⟨overwrites, wide⟩ := overwrites_of_isNode sane bounded node
  exact overwrites.stored sane valid wide

omit [DecidableEq α] [ShadowVal α] in
theorem validValueIsBelowMe16_ok (descr : Descr)
    (aligned : toff ∈ [0, 2, 4, 6]) :
    ∃ below, validValueIsBelowMe16 descr toff = .ok below := by
  simp only [List.mem_cons, List.not_mem_nil, or_false] at aligned
  obtain rfl | rfl | rfl | rfl := aligned <;> exact ⟨_, rfl⟩

omit [DecidableEq α] [ShadowVal α] in
theorem validValueIsAboveMe32_ok (descr : Descr)
    (aligned : toff ∈ [0, 4]) :
    ∃ above, validValueIsAboveMe32 descr toff = .ok above := by
  simp only [List.mem_cons, List.not_mem_nil, or_false] at aligned
  obtain rfl | rfl := aligned <;> exact ⟨_, rfl⟩

theorem write16Tree_returns (sane : isSaneDescrAndTree descr tree = true)
    (aligned : toff ∈ [0, 2, 4, 6]) (valid : svNew ≠ invalid) :
    Returns (write16Tree svNew tree descr toff)
      (Stored descr tree toff 2 svNew) := by
  have known := mem_descrs_of_toValidbits (isSane_iff.mp sane).1
  have bounded : toff < 8 := by
    simp only [List.mem_cons, List.not_mem_nil, or_false] at aligned
    omega
  obtain ⟨below, answer⟩ := validValueIsBelowMe16_ok descr aligned
  unfold write16Tree
  split
  · rename_i there
    rw [tlAssert_of valid, ok_bind]
    have node := (isNode_of_has descr known).2.1 toff aligned there
    exact Returns.pure (storeNode_stored sane bounded node valid)
  · rename_i there
    have missing := Bool.eq_false_iff.mpr there
    rw [answer, ok_bind]
    cases below with
    | true =>
        rw [if_pos rfl]
        apply (pullupDescrTo16_returns sane aligned missing answer
          valid).bind
        intro after stored
        rw [tlAssert_of valid, ok_bind]
        exact Returns.pure stored
    | false =>
        rw [if_neg (by decide)]
        apply (pulldownTo16_returns sane aligned missing answer).bind
        rintro ⟨pulled, descr'⟩ down
        dsimp only
        rw [tlAssert_of valid, ok_bind]
        exact Returns.pure (down.stored
          (storeNode_stored down.sane bounded down.node valid))

theorem write32Tree_returns (sane : isSaneDescrAndTree descr tree = true)
    (aligned : toff ∈ [0, 4]) (valid : svNew ≠ invalid) :
    Returns (write32Tree svNew tree descr toff)
      (Stored descr tree toff 4 svNew) := by
  have known := mem_descrs_of_toValidbits (isSane_iff.mp sane).1
  have bounded : toff < 8 := by
    simp only [List.mem_cons, List.not_mem_nil, or_false] at aligned
    omega
  obtain ⟨above, answer⟩ := validValueIsAboveMe32_ok descr aligned
  unfold write32Tree
  split
  · rename_i there
    rw [tlAssert_of valid, ok_bind]
    have node := (isNode_of_has descr known).2.2.1 toff aligned there
    exact Returns.pure (storeNode_stored sane bounded node valid)
  · rename_i there
    have missing := Bool.eq_false_iff.mpr there
    rw [answer, ok_bind]
    cases above with
    | true =>
        rw [if_pos rfl]
        apply (pulldownTo32_returns sane aligned missing answer).bind
        rintro ⟨pulled, descr'⟩ down
        dsimp only
        rw [tlAssert_of valid, ok_bind]
        exact Returns.pure (down.stored
          (storeNode_stored down.sane bounded down.node valid))
    | false =>
        rw [if_neg (by decide)]
        apply (pullupDescrTo32_returns sane aligned missing answer
          valid).bind
        intro after stored
        rw [tlAssert_of valid, ok_bind]
        exact Returns.pure stored

theorem write64Tree_returns (sane : isSaneDescrAndTree descr tree = true)
    (valid : svNew ≠ invalid) :
    Returns (write64Tree svNew tree descr 0)
      (Stored descr tree 0 8 svNew) := by
  have known := mem_descrs_of_toValidbits (isSane_iff.mp sane).1
  unfold write64Tree
  rw [tlAssert_of valid, ok_bind]
  exact Returns.pure
    ((overwrites_d64 descr known).stored sane valid (by decide))

end Values

namespace Zsm

variable [DecidableEq α] [ShadowVal α] {z : Zsm α} {a width : Nat}

theorem Resident.sane {cl : CacheLine α} (wf : z.WF)
    (bound : z.cache.lookup (wayIndex a) = some (lineTag a, cl)) :
    isSaneDescrAndTree (cl.descrs (a % 64 / 8)) (cl.tree (a % 64 / 8)) =
      true :=
  (wf.lines _ _ _ bound).2.2 _ (by omega)

/-- The bytes around an address are those of its tree. -/
theorem byte_of_resident {cl : CacheLine α} {c : Nat}
    (bound : z.cache.lookup (wayIndex a) = some (lineTag a, cl))
    (near : c / 8 = a / 8) :
    z.byte c = treeByte (cl.descrs (a % 64 / 8)) (cl.tree (a % 64 / 8))
      (Fin.ofNat 8 c) := by
  have index : wayIndex c = wayIndex a := by
    unfold wayIndex
    omega
  have tag : lineTag a = lineTag c := by
    unfold lineTag
    omega
  have known := bound
  rw [← index] at known
  rw [byte_of_bound known, if_pos tag]
  unfold CacheLine.byte
  have tno : c % 64 / 8 = a % 64 / 8 := by omega
  have position : Fin.ofNat 8 (c % 64) = Fin.ofNat 8 c := by
    apply Fin.ext
    simp only [Fin.val_ofNat]
    omega
  rw [tno, position]

/-- A line of the cache after one of its trees has been replaced. -/
def putTree (z : Zsm α) (a : Nat) (cl : CacheLine α)
    (node : Tree α × Descr) : Zsm α :=
  { z with
    cache := z.cache.insert (wayIndex a)
      (lineTag a, cl.setTree (a % 64 / 8) node) }

omit [DecidableEq α] [ShadowVal α] in
theorem onTree_of_resident {cl : CacheLine α}
    {work : Tree α → Descr → Nat → Except Abort (Tree α × Descr)}
    {post : Tree α × Descr → Prop}
    (bound : z.cache.lookup (wayIndex a) = some (lineTag a, cl))
    (works : Returns (work (cl.tree (a % 64 / 8)) (cl.descrs (a % 64 / 8))
      (a % 8)) post) :
    Returns (z.onTree a work) fun after =>
      ∃ node, post node ∧ after = z.putTree a cl node := by
  unfold onTree
  rw [bound]
  apply works.bind
  intro node holds
  exact Returns.pure ⟨node, holds, rfl⟩

theorem putTree_wf {cl : CacheLine α} {node : Tree α × Descr} (wf : z.WF)
    (bound : z.cache.lookup (wayIndex a) = some (lineTag a, cl))
    (sane : isSaneDescrAndTree node.2 node.1 = true) :
    (z.putTree a cl node).WF := by
  refine ⟨wf.store, ?_⟩
  intro wix tag line known
  unfold putTree at known
  dsimp only at known
  by_cases here : wix = wayIndex a
  · rw [here, AList.lookup_insert] at known
    cases known
    obtain ⟨aligned, index, saneLine⟩ := wf.lines _ _ _ bound
    exact ⟨aligned, index.trans here.symm, saneLine.setTree sane⟩
  · rw [AList.lookup_insert_ne here] at known
    exact wf.lines wix tag line known

private theorem putTree_byte {cl : CacheLine α} {node : Tree α × Descr}
    (bound : z.cache.lookup (wayIndex a) = some (lineTag a, cl)) (c : Nat) :
    (z.putTree a cl node).byte c =
      if c / 8 = a / 8 then treeByte node.2 node.1 (Fin.ofNat 8 c)
      else z.byte c := by
  by_cases near : c / 8 = a / 8
  · have known : (z.putTree a cl node).cache.lookup (wayIndex a) =
        some (lineTag a, cl.setTree (a % 64 / 8) node) :=
      AList.lookup_insert _
    rw [byte_of_resident known near, CacheLine.setTree_tree_self,
      CacheLine.setTree_descrs_self, if_pos near]
  · rw [if_neg near]
    by_cases index : wayIndex c = wayIndex a
    · have known : (z.putTree a cl node).cache.lookup (wayIndex c) =
          some (lineTag a, cl.setTree (a % 64 / 8) node) := by
        rw [index]
        exact AList.lookup_insert _
      have old := bound
      rw [← index] at old
      rw [byte_of_bound known, byte_of_bound old]
      split
      · rename_i tag
        have other : c % 64 / 8 ≠ a % 64 / 8 := by
          unfold lineTag at tag
          omega
        rw [CacheLine.setTree_byte, if_neg other]
      · rfl
    · apply byte_congr
      · exact AList.lookup_insert_ne index
      · intro _
        rfl

/-- Shadow memory after the bytes from `a` on have got a value. -/
structure Wrote (z : Zsm α) (a width : Nat) (svNew : α) (after : Zsm α) :
    Prop where
  wf : after.WF
  store : after.store = z.store
  bytes : ∀ c, after.byte c =
    if a ≤ c ∧ c < a + width then svNew else z.byte c

theorem putTree_wrote {cl : CacheLine α} {node : Tree α × Descr}
    {svNew : α} (wf : z.WF)
    (bound : z.cache.lookup (wayIndex a) = some (lineTag a, cl))
    (inside : a % 8 + width ≤ 8)
    (stored : Stored (cl.descrs (a % 64 / 8)) (cl.tree (a % 64 / 8))
      (a % 8) width svNew node) :
    Wrote z a width svNew (z.putTree a cl node) := by
  refine ⟨putTree_wf wf bound stored.sane, rfl, fun c => ?_⟩
  rw [putTree_byte bound]
  by_cases near : c / 8 = a / 8
  · rw [if_pos near, stored.bytes, ← byte_of_resident bound near]
    have range : (a % 8 ≤ (Fin.ofNat 8 c).val ∧
        (Fin.ofNat 8 c).val < a % 8 + width) ↔ a ≤ c ∧ c < a + width := by
      simp only [Fin.val_ofNat]
      omega
    simp only [range]
  · rw [if_neg near, if_neg (by omega)]

theorem putTree_moved {cl : CacheLine α} {node : Tree α × Descr}
    (wf : z.WF)
    (bound : z.cache.lookup (wayIndex a) = some (lineTag a, cl))
    (pulled : PulledDown (cl.descrs (a % 64 / 8)) (cl.tree (a % 64 / 8))
      (a % 8) width node) :
    Moved z (z.putTree a cl node, []) := by
  refine ⟨putTree_wf wf bound pulled.sane, fun c => ?_,
    RcEvent.Ledger.refl _, fun sv member => by cases member⟩
  rw [putTree_byte bound]
  split
  · rename_i near
    rw [pulled.bytes, ← byte_of_resident bound near]
  · rfl

end Zsm

end HelgrindPlus
