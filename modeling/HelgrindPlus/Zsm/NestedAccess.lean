import HelgrindPlus.Zsm.OwnedLines

/-!
# An access in the middle of another

The functions `zsm_apply*` keep the pointer that `get_cacheline` has returned
while the machine function is called.  If that function accesses shadow memory
itself, the slot of the cache may hold another line when the new value is
written.  The line stays where it is if no address accessed in between lies in
another line with the same index; it may only be pulled down further.
-/

namespace HelgrindPlus

open Outcome Descr

variable {α ρ : Type}

/-- An access of the four bytes from `adr` on displaces the line of `a` from
the cache. -/
def Displaces (a adr : Nat) : Prop :=
  ∃ i < 4, wayIndex (adr + i) = wayIndex a ∧ lineTag (adr + i) ≠ lineTag a

instance (a adr : Nat) : Decidable (Displaces a adr) :=
  inferInstanceAs (Decidable (∃ i < 4, _ ∧ _))

private theorem nodeAt_of_valid : ∀ descr ∈ descrs, ∀ i : Fin 8,
    (toValidbits descr).getLsbD i = true → (nodeAt descr i).1 = i :=
  forall_descrs (by decide +kernel)

/-- A node ends in its tree, and there the next one begins. -/
theorem nodeAt_next : ∀ descr ∈ descrs, ∀ i : Fin 8,
    (nodeAt descr i).1 = i → i.val + (nodeAt descr i).2 ≤ 8 ∧
      (i.val + (nodeAt descr i).2 < 8 →
        (toValidbits descr).getLsbD (i.val + (nodeAt descr i).2) = true) :=
  forall_descrs (by decide +kernel)

variable [DecidableEq α] [ShadowVal α]

section Trees

variable {descr₀ descr : Descr} {tree₀ tree : Tree α} {toff width : Nat}
  {svNew : α}

/-- After a tree has been pulled down, a node of it is at most as wide. -/
theorem IsNode.narrower (node : IsNode descr₀ toff width)
    (sane₀ : isSaneDescrAndTree descr₀ tree₀ = true)
    (sane : isSaneDescrAndTree descr tree = true) (bounded : toff < 8)
    (keeps : ∀ i, tree₀ i ≠ invalid → tree i ≠ invalid) :
    ∃ width' ≤ width, IsNode descr toff width' ∧ toff + width' ≤ 8 := by
  obtain ⟨bits₀, values₀⟩ := isSane_iff.mp sane₀
  obtain ⟨bits, values⟩ := isSane_iff.mp sane
  have known₀ := mem_descrs_of_toValidbits bits₀
  have known := mem_descrs_of_toValidbits bits
  have small : toff % 8 = toff := Nat.mod_eq_of_lt bounded
  have still : ∀ i : Fin 8, (toValidbits descr₀).getLsbD i = true →
      (toValidbits descr).getLsbD i = true := fun i valid =>
    (values i).mpr (keeps i ((values₀ i).mp valid))
  have first := (nodeAt_valid descr₀ known₀ (Fin.ofNat 8 toff)).1
  have next₀ := nodeAt_next descr₀ known₀ (Fin.ofNat 8 toff)
  unfold IsNode at node
  rw [node] at first next₀
  obtain ⟨inside, next⟩ := next₀ rfl
  simp only [Fin.val_ofNat, small] at inside next
  have there := nodeAt_of_valid descr known _ (still _ first)
  have node' : IsNode descr toff (nodeAt descr (Fin.ofNat 8 toff)).2 :=
    Prod.ext there rfl
  have within := (nodeAt_next descr known _ there).1
  simp only [Fin.val_ofNat, small] at within
  refine ⟨_, ?_, node', within⟩
  -- a wider node would swallow the beginning of the next one
  by_contra wider
  have overwrites := (overwrites_of_isNode sane bounded node').1
  have swallowed := (overwrites.2 (Fin.ofNat 8 (toff + width))).1
  have wide : 0 < width := by
    have positive := (nodeAt_valid descr₀ known₀ (Fin.ofNat 8 toff)).2
    rwa [node] at positive
  have position : (toff + width) % 8 = toff + width := by omega
  have valid := still (Fin.ofNat 8 (toff + width)) (by
    simp only [Fin.val_ofNat, position]
    exact next (by omega))
  rw [valid] at swallowed
  simp only [Fin.val_ofNat, position] at swallowed
  rw [if_neg (by omega), if_pos (by omega)] at swallowed
  cases swallowed

/-- An assignment drops no node. -/
theorem assign_keeps (sane : isSaneDescrAndTree descr tree = true)
    (bounded : toff < 8) (node : IsNode descr toff width)
    (valid : svNew ≠ invalid) :
    Returns (assign svNew tree descr toff) fun result =>
      Stored descr tree toff width svNew result ∧
        ∀ i, tree i ≠ invalid → result.1 i ≠ invalid := by
  have stored := assign_returns sane bounded node valid
  unfold assign at stored ⊢
  rw [tlAssert_of valid, ok_bind] at stored ⊢
  refine Returns.pure ⟨stored.of_eq_ok rfl, fun i old => ?_⟩
  dsimp only
  rw [Function.update_apply]
  split
  · exact valid
  · exact old

end Trees

namespace Zsm

variable {z : Zsm α} {a b width : Nat} {svNew : α} {cl₀ : CacheLine α}

/-- The line of an address is in the cache, and a node begins wherever one
begins in `cl₀`. -/
def Covers (z : Zsm α) (a : Nat) (cl₀ : CacheLine α) : Prop :=
  ∃ cl, z.cache.lookup (wayIndex a) = some (lineTag a, cl) ∧
    ∀ tno i, cl₀.tree tno i ≠ invalid → cl.tree tno i ≠ invalid

/-- Where a node begins a new value may still be written, at most for the
bytes of the node. -/
theorem Covers.assign (covers : z.Covers a cl₀) (wf : z.WF)
    (sane₀ : cl₀.Sane)
    (node₀ : IsNode (cl₀.descrs (a % 64 / 8)) (a % 8) width)
    (valid : svNew ≠ invalid) :
    Returns (z.onTree a (assign svNew)) fun after =>
      ∃ width' ≤ width, z.Wrote a width' svNew after := by
  obtain ⟨cl, bound, keeps⟩ := covers
  have sane := Resident.sane wf bound
  have small : a % 8 < 8 := Nat.mod_lt a (by decide)
  obtain ⟨width', narrower, node, inside⟩ :=
    node₀.narrower (sane₀ _ (by omega)) sane small (keeps _)
  apply (onTree_of_resident bound
    (assign_returns sane small node valid)).mono
  rintro after ⟨tree, stored, rfl⟩
  exact ⟨width', narrower, putTree_wrote wf bound inside stored⟩

omit [DecidableEq α] in
/-- A change of a tree that drops no node of it. -/
theorem Covers.putTree (covers : z.Covers a cl₀) {cl : CacheLine α}
    {node : Tree α × Descr}
    (bound : z.cache.lookup (wayIndex b) = some (lineTag b, cl))
    (keeps : ∀ i, cl.tree (b % 64 / 8) i ≠ invalid → node.1 i ≠ invalid) :
    (z.putTree b cl node).Covers a cl₀ := by
  obtain ⟨line, bound', keeps'⟩ := covers
  unfold Zsm.putTree Covers
  dsimp only
  by_cases same : wayIndex a = wayIndex b
  · rw [same] at bound' ⊢
    rw [bound] at bound'
    obtain ⟨tag, rfl⟩ := Prod.mk.inj (Option.some.inj bound')
    rw [← tag]
    refine ⟨_, AList.lookup_insert _, fun tno i value => ?_⟩
    by_cases here : tno = b % 64 / 8
    · subst here
      rw [CacheLine.setTree_tree_self]
      exact keeps i (keeps' _ i value)
    · rw [CacheLine.setTree_tree_of_ne here]
      exact keeps' tno i value
  · exact ⟨line, by rw [AList.lookup_insert_ne same, bound'], keeps'⟩

/-- Fetching a line replaces at most the one with its index. -/
theorem getCacheline_others (z : Zsm α) (b : Nat) :
    Satisfies (fun _ => True) (z.getCacheline b) fun result =>
      (lineTag b = z.tags0 (wayIndex b) → result.1 = z) ∧
      ∀ wix ≠ wayIndex b, result.1.cache.lookup wix = z.cache.lookup wix := by
  unfold Zsm.getCacheline
  split
  · exact ⟨fun _ => rfl, fun wix _ => rfl⟩
  · rename_i missing
    have evicts : Satisfies (fun _ => True) (z.cachelineWback (wayIndex b))
        (·.1.cache = z.cache) := by
      unfold Zsm.cachelineWback
      split
      · split
        · apply (Satisfies.any _).bind
          exact fun _ _ => rfl
        · rfl
      · rfl
    apply (Satisfies.any _).bind
    intro _ _
    apply evicts.bind
    rintro ⟨evicted, events⟩ same
    apply (Satisfies.any _).bind
    rintro ⟨store, cl⟩ -
    refine ⟨fun hit => absurd hit missing, fun wix other => ?_⟩
    dsimp only at same ⊢
    rw [AList.lookup_insert_ne other, same]

theorem Covers.getCacheline (covers : z.Covers a cl₀)
    (apart : wayIndex b = wayIndex a → lineTag b = lineTag a) :
    Satisfies (fun _ => True) (z.getCacheline b) (·.1.Covers a cl₀) := by
  apply (getCacheline_others z b).mono
  rintro ⟨fetched, events⟩ ⟨hit, others⟩
  obtain ⟨cl, bound, keeps⟩ := covers
  by_cases same : wayIndex a = wayIndex b
  · have there : lineTag b = z.tags0 (wayIndex b) := by
      unfold tags0
      rw [← same, bound]
      exact apart same.symm
    have unchanged : fetched = z := hit there
    subst unchanged
    exact ⟨cl, bound, keeps⟩
  · refine ⟨cl, ?_, keeps⟩
    dsimp only at others ⊢
    rw [others _ same, bound]

end Zsm

section Plain

variable {rc : ρ → RcEvent α → Except Abort ρ}
  {msm : Zsm α × ρ → α → Nat → Nat → Except Abort ((Zsm α × ρ) × α)}
  {s : Zsm α × ρ} {a adr n : Nat} {cl₀ : CacheLine α}

/-- The machine function does not touch shadow memory, and makes values that
may be stored of such values. -/
def LeavesMemory
    (msm : Zsm α × ρ → α → Nat → Nat → Except Abort ((Zsm α × ρ) × α)) :
    Prop :=
  ∀ s sv a szB, Satisfies (fun _ => True) (msm s sv a szB)
    fun result => result.1.1 = s.1 ∧ (sv ≠ invalid → result.2 ≠ invalid)

variable (rc) in
theorem LeavesMemory.keeps_owned (leaves : LeavesMemory msm) :
    Keeps rc msm (·.1.Owned) := by
  apply HelgrindPlus.keeps_owned
  intro s sv a szB owned
  apply (leaves s sv a szB).mono
  rintro result ⟨same, -⟩
  rw [same]
  exact owned

variable (rc) in
/-- Applying such a function keeps the lines well formed. -/
theorem LeavesMemory.wf_rule (leaves : LeavesMemory msm) (bound : Nat) :
    ApplyRule rc msm (fun _ => True) bound (fun _ s => s.1.WF) where
  wf _ _ wf := wf
  moved _ _ _ _ _ _ moved := (Satisfies.any _).mono fun _ _ => moved.wf
  called b szB z r _ _ wf _ := by
    apply (leaves (z, r) (z.byte b) b szB).mono
    rintro result ⟨same, valid⟩
    exact ⟨same, valid (wf.byte_ne_invalid b), fun after wrote => wrote.wf⟩

/-- Applying it does not displace a line, and drops no node of it, if none of
the addresses does. -/
theorem LeavesMemory.covers_rule (leaves : LeavesMemory msm)
    (apart : ∀ c, adr ≤ c → c < adr + n → wayIndex c = wayIndex a →
      lineTag c = lineTag a) :
    NodeRule rc msm (fun _ => True) (adr + n)
      (fun b s => adr ≤ b ∧ s.1.WF ∧ s.1.Covers a cl₀) where
  wf _ _ holds := holds.2.1
  fetched b s bounded holds := by
    obtain ⟨from_, wf, covers⟩ := holds
    obtain ⟨⟨z, events⟩, done, moved, resident⟩ :=
      Zsm.getCacheline_returns wf b
    have kept := (covers.getCacheline (apart b from_ bounded)).of_eq_ok done
    unfold counting
    dsimp only
    rw [done, ok_bind]
    apply (Satisfies.any _).bind
    exact fun _ _ => ⟨⟨from_, moved.wf, kept⟩, resident⟩
  pulled b z r cl width node holds resident pulled := by
    obtain ⟨from_, wf, covers⟩ := holds
    exact ⟨from_, Zsm.putTree_wf wf resident pulled.sane,
      covers.putTree resident pulled.begins⟩
  node b s width kind inside bounded holds node := by
    obtain ⟨from_, wf, covers⟩ := holds
    unfold applyNode
    rw [node.svalAt, ok_bind]
    apply (leaves s (s.1.byte b) b width).bind
    rintro ⟨⟨z, r⟩, svNew⟩ ⟨same, valid⟩
    dsimp only at same ⊢
    subst same
    obtain ⟨cl, resident, isNode⟩ := node
    have sane := Zsm.Resident.sane wf resident
    obtain ⟨after, done, tree, ⟨stored, keeps⟩, rfl⟩ :=
      Zsm.onTree_of_resident resident
        (assign_keeps sane (Nat.mod_lt b (by decide)) isNode
          (valid (wf.byte_ne_invalid b)))
    rw [done, ok_bind]
    exact Satisfies.pure ⟨by omega, Zsm.putTree_wf wf resident stored.sane,
      covers.putTree resident keeps⟩

end Plain

end HelgrindPlus
