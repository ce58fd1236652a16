import HelgrindPlus.Zsm.Access

/-!
# Rules for accesses

What the accesses of `Zsm.Access` do to the bytes of shadow memory and to the
references that the store holds.  A function that applies the machine is
described by a rule: an invariant of the point that the application has
reached holds at the end of the range, if it survives when lines are moved
about and if each call of the machine moves it on.
-/

namespace HelgrindPlus

open Outcome Descr

variable {α ρ σ : Type}

section Range

variable {fails : Abort → Prop} {invariant : Nat → σ → Prop}
  {bound a len width : Nat} {s : σ} {ops : Widths σ}
  {access : σ → Nat → Except Abort σ}

/-- An access that moves the point up to which the work is done. -/
def Advances (fails : Abort → Prop) (invariant : Nat → σ → Prop)
    (bound width : Nat) (access : σ → Nat → Except Abort σ) : Prop :=
  ∀ b s, b + width ≤ bound → invariant b s →
    Satisfies fails (access s b) (invariant (b + width))

/-- The position of a range access of which `len` bytes are left. -/
def Reached (invariant : Nat → σ → Prop) (bound : Nat)
    (at_ : σ × Nat × Nat) : Prop :=
  invariant at_.2.1 at_.1 ∧ at_.2.1 + at_.2.2 = bound

theorem leading_satisfies
    (advances : Advances fails invariant bound width access)
    (reached : Reached invariant bound (s, a, len))
    (half : a % (2 * width) ≠ 0 → width ≤ len →
      (a + width) % (2 * width) = 0) :
    Satisfies fails (leading width access (s, a, len)) fun at_ =>
      Reached invariant bound at_ ∧ (at_.2.1 % (2 * width) = 0 ∨
        at_.2 = (a, len) ∧ len < width) := by
  obtain ⟨holds, sum⟩ := reached
  dsimp only at holds sum
  unfold leading
  dsimp only
  split
  · rename_i needed
    apply (advances a s (by omega) holds).bind
    intro after moved
    rw [tlAssert_of (half needed.1 needed.2)]
    refine Satisfies.pure ⟨⟨moved, ?_⟩, .inl (half needed.1 needed.2)⟩
    dsimp only
    omega
  · rename_i unneeded
    refine Satisfies.pure ⟨⟨holds, sum⟩, ?_⟩
    by_cases aligned : a % (2 * width) = 0
    · exact .inl aligned
    · exact .inr ⟨rfl, by omega⟩

private theorem middle_satisfies
    (advances : Advances fails invariant bound 8 access)
    (reached : Reached invariant bound (s, a, len))
    (aligned : 8 ≤ len → a % 8 = 0) :
    Satisfies fails (middle access (s, a, len)) fun at_ =>
      Reached invariant bound at_ ∧ at_.2.1 % 8 = a % 8 ∧ at_.2.2 < 8 ∧
        (at_.2 = (a, len) ∨ a % 8 = 0) := by
  obtain ⟨holds, sum⟩ := reached
  dsimp only at holds sum
  unfold middle
  dsimp only
  split
  · rename_i long
    rw [tlAssert_of (aligned long), ok_bind]
    have loop : Satisfies fails
        ((List.range (len / 8)).foldlM (fun s i => access s (a + 8 * i)) s)
        (invariant (a + 8 * (List.range (len / 8)).length)) := by
      apply @Satisfies.foldlM _ _ _ _ _ (fun n => invariant (a + 8 * n))
      · intro n state i listed before
        obtain ⟨inside, rfl⟩ := List.getElem?_eq_some_iff.mp listed
        rw [List.length_range] at inside
        rw [List.getElem_range, Nat.mul_succ, ← Nat.add_assoc]
        exact advances _ state (by omega) before
      · exact holds
    rw [List.length_range] at loop
    apply loop.bind
    intro after moved
    refine Satisfies.pure ⟨⟨moved, ?_⟩, ?_, ?_, .inr (aligned long)⟩
    · dsimp only
      omega
    · dsimp only
      omega
    · dsimp only
      omega
  · rename_i short
    exact Satisfies.pure ⟨⟨holds, sum⟩, rfl, by dsimp only; omega, .inl rfl⟩

theorem trailing_satisfies
    (advances : Advances fails invariant bound width access)
    (reached : Reached invariant bound (s, a, len))
    (aligned : width ≤ len → a % width = 0) :
    Satisfies fails (trailing width access (s, a, len)) fun at_ =>
      Reached invariant bound at_ ∧
        (len < width ∧ at_.2 = (a, len) ∨
          width ≤ len ∧ at_.2 = (a + width, len - width)) := by
  obtain ⟨holds, sum⟩ := reached
  dsimp only at holds sum
  unfold trailing
  dsimp only
  split
  · rename_i needed
    rw [tlAssert_of (aligned needed), ok_bind]
    apply (advances a s (by omega) holds).bind
    intro after moved
    refine Satisfies.pure ⟨⟨moved, ?_⟩, .inr ⟨needed, rfl⟩⟩
    dsimp only
    omega
  · rename_i unneeded
    exact Satisfies.pure ⟨⟨holds, sum⟩, .inl ⟨by omega, rfl⟩⟩

/-- The rule for a range: what each of the four accesses moves along, the
whole moves to the end. -/
theorem overRange_satisfies
    (advances : ∀ width : Width,
      Advances fails invariant (a + len) width.bytes (ops.access width))
    (holds : invariant a s) :
    Satisfies fails (overRange ops s a len) (invariant (a + len)) := by
  have advances8 : Advances fails invariant (a + len) 1 ops.w8 :=
    advances .w8
  have advances16 : Advances fails invariant (a + len) 2 ops.w16 :=
    advances .w16
  have advances32 : Advances fails invariant (a + len) 4 ops.w32 :=
    advances .w32
  have advances64 : Advances fails invariant (a + len) 8 ops.w64 :=
    advances .w64
  unfold overRange
  split
  · rename_i fast
    rw [fast.1] at advances32 ⊢
    exact advances32 a s (le_refl _) holds
  split
  · rename_i fast
    rw [fast.1] at advances64 ⊢
    exact advances64 a s (le_refl _) holds
  apply (leading_satisfies advances8 ⟨holds, rfl⟩ (by omega)).bind
  rintro ⟨s₁, a₁, len₁⟩ ⟨reached₁, aligned₁⟩
  simp only [Prod.mk.injEq] at aligned₁
  apply (leading_satisfies advances16 reached₁ (by omega)).bind
  rintro ⟨s₂, a₂, len₂⟩ ⟨reached₂, aligned₂⟩
  simp only [Prod.mk.injEq] at aligned₂
  apply (leading_satisfies advances32 reached₂ (by omega)).bind
  rintro ⟨s₃, a₃, len₃⟩ ⟨reached₃, aligned₃⟩
  simp only [Prod.mk.injEq] at aligned₃
  apply (middle_satisfies advances64 reached₃ (by omega)).bind
  rintro ⟨s₄, a₄, len₄⟩ ⟨reached₄, same₄, short₄, moved₄⟩
  simp only [Prod.mk.injEq] at same₄ short₄ moved₄
  apply (trailing_satisfies advances32 reached₄ (by omega)).bind
  rintro ⟨s₅, a₅, len₅⟩ ⟨reached₅, moved₅⟩
  simp only [Prod.mk.injEq] at moved₅
  apply (trailing_satisfies advances16 reached₅ (by omega)).bind
  rintro ⟨s₆, a₆, len₆⟩ ⟨reached₆, moved₆⟩
  simp only [Prod.mk.injEq] at moved₆
  apply (trailing_satisfies advances8 reached₆ (by omega)).bind
  rintro ⟨s₇, a₇, len₇⟩ ⟨⟨holds₇, sum₇⟩, moved₇⟩
  simp only [Prod.mk.injEq] at moved₇ holds₇ sum₇
  have finished : len₇ = 0 := by omega
  rw [tlAssert_of finished, ok_bind]
  apply Satisfies.pure
  rw [← sum₇, finished]
  exact holds₇

end Range

/-- A map after the `n` places from `a` on have got a value. -/
def fill (content : Nat → α) (a n : Nat) (sv : α) : Nat → α :=
  fun c => if a ≤ c ∧ c < a + n then sv else content c

theorem fill_zero (content : Nat → α) (a : Nat) (sv : α) :
    fill content a 0 sv = content := by
  funext c
  exact if_neg (by omega)

theorem fill_fill (content : Nat → α) (a m n : Nat) (sv : α) :
    fill (fill content a m sv) (a + m) n sv = fill content a (m + n) sv := by
  funext c
  unfold fill
  by_cases late : a + m ≤ c ∧ c < a + m + n
  · rw [if_pos late, if_pos (by omega)]
  · rw [if_neg late]
    by_cases early : a ≤ c ∧ c < a + m
    · rw [if_pos early, if_pos (by omega)]
    · rw [if_neg early, if_neg (by omega)]

/-- The two ends of a range and then the lines between them. -/
theorem fill_around {content : Nat → α} {a len start stop : Nat} {sv : α}
    (first : a ≤ start) (second : start ≤ stop) (third : stop ≤ a + len) :
    fill (fill (fill content a (start - a) sv) stop (a + len - stop) sv)
      start (stop - start) sv = fill content a len sv := by
  funext c
  unfold fill
  split_ifs <;> first | rfl | omega

theorem fill_mem {content : Nat → α} {a n : Nat} {sv : α}
    {allowed : α → Prop} (values : ∀ c, allowed (content c))
    (value : allowed sv) (c : Nat) : allowed (fill content a n sv c) := by
  unfold fill
  split
  · exact value
  · exact values c

namespace Zsm

variable [DecidableEq α] [ShadowVal α] {z : Zsm α} {a width : Nat}
  {allowed : α → Prop} {content : Nat → α} {svNew : α}
  {acc : Zsm α × List (RcEvent α)}

/-- Shadow memory holds `content` now, and the calls of `rcinc` and `rcdec`
made since `z` account for the change.  Only values that are `allowed` have
been counted up. -/
structure Changed (allowed : α → Prop) (z : Zsm α) (content : Nat → α)
    (result : Zsm α × List (RcEvent α)) : Prop where
  wf : result.1.WF
  bytes : ∀ c, result.1.byte c = content c
  ledger : RcEvent.Ledger noAccess z.store.vals result.2 result.1.store.vals
  incs : ∀ sv, .inc sv ∈ result.2 → allowed sv

theorem Changed.refl (allowed : α → Prop) (wf : z.WF) :
    Changed allowed z z.byte (z, []) :=
  ⟨wf, fun c => rfl, RcEvent.Ledger.refl _, fun sv member => by cases member⟩

theorem Changed.moved {after : Zsm α} {events : List (RcEvent α)}
    (changed : Changed allowed z content acc)
    (values : ∀ c, allowed (content c)) (moved : Moved acc.1 (after, events)) :
    Changed allowed z content (after, acc.2 ++ events) := by
  refine ⟨moved.wf, fun c => ?_, changed.ledger.append moved.ledger, ?_⟩
  · exact (moved.bytes c).trans (changed.bytes c)
  · intro sv member
    obtain early | late := List.mem_append.mp member
    · exact changed.incs sv early
    · obtain ⟨c, rfl⟩ := moved.incs sv late
      rw [changed.bytes c]
      exact values c

theorem Changed.wrote {after : Zsm α}
    (changed : Changed allowed z content acc)
    (wrote : Wrote acc.1 a width svNew after) :
    Changed allowed z (fill content a width svNew) (after, acc.2) := by
  refine ⟨wrote.wf, fun c => ?_, ?_, changed.incs⟩
  · rw [wrote.bytes c, changed.bytes c]
    rfl
  · dsimp only
    rw [wrote.store]
    exact changed.ledger

theorem Changed.withLine
    {work : Tree α → Descr → Nat → Except Abort (Tree α × Descr)}
    (changed : Changed allowed z content acc)
    (values : ∀ c, allowed (content c)) (inside : a % 8 + width ≤ 8)
    (works : ∀ tree descr, isSaneDescrAndTree descr tree = true →
      Returns (work tree descr (a % 8))
        (Stored descr tree (a % 8) width svNew)) :
    Returns (Zsm.withLine acc a work)
      (Changed allowed z (fill content a width svNew)) := by
  unfold Zsm.withLine
  apply (getCacheline_returns changed.wf a).bind
  rintro ⟨fetched, events⟩ ⟨moved, cl, bound⟩
  have sane := Resident.sane moved.wf bound
  apply (onTree_of_resident bound (works _ _ sane)).bind
  rintro after ⟨node, stored, rfl⟩
  apply Returns.pure
  have wrote := putTree_wrote moved.wf bound inside stored
  exact (changed.moved values moved).wrote wrote

section Write

variable (changed : Changed allowed z content acc)
  (values : ∀ c, allowed (content c)) (value : allowed svNew)
  (valid : svNew ≠ invalid) (a : Nat)

include changed values valid

theorem write8_returns : Returns (write8 svNew acc a)
    (Changed allowed z (fill content a 1 svNew)) := by
  apply changed.withLine values (by omega)
  intro tree descr sane
  exact write8Tree_returns sane (by omega) valid

include value

theorem write16_returns : Returns (write16 svNew acc a)
    (Changed allowed z (fill content a 2 svNew)) := by
  unfold write16
  split
  · apply (write8_returns changed values valid a).bind
    intro middle first
    have second := write8_returns first (fill_mem values value) valid (a + 1)
    rw [fill_fill] at second
    exact second
  · apply changed.withLine values (by omega)
    intro tree descr sane
    have aligned : a % 8 ∈ [0, 2, 4, 6] := by
      simp only [List.mem_cons, List.not_mem_nil, or_false]
      omega
    exact write16Tree_returns sane aligned valid

theorem write32_returns : Returns (write32 svNew acc a)
    (Changed allowed z (fill content a 4 svNew)) := by
  unfold write32
  split
  · apply (write16_returns changed values value valid a).bind
    intro middle first
    have second :=
      write16_returns first (fill_mem values value) value valid (a + 2)
    rw [fill_fill] at second
    exact second
  · apply changed.withLine values (by omega)
    intro tree descr sane
    have aligned : a % 8 ∈ [0, 4] := by
      simp only [List.mem_cons, List.not_mem_nil, or_false]
      omega
    exact write32Tree_returns sane aligned valid

private theorem write64_returns : Returns (write64 svNew acc a)
    (Changed allowed z (fill content a 8 svNew)) := by
  unfold write64
  split
  · apply (write32_returns changed values value valid a).bind
    intro middle first
    have second :=
      write32_returns first (fill_mem values value) value valid (a + 4)
    rw [fill_fill] at second
    exact second
  · rename_i aligned
    apply changed.withLine values (by omega)
    intro tree descr sane
    have start : a % 8 = 0 := by omega
    rw [start]
    exact write64Tree_returns sane valid

theorem writeWidths_returns (width : Width) :
    Returns ((writeWidths svNew).access width acc a)
      (Changed allowed z (fill content a width.bytes svNew)) := by
  cases width with
  | w8 => exact write8_returns changed values valid a
  | w16 => exact write16_returns changed values value valid a
  | w32 => exact write32_returns changed values value valid a
  | w64 => exact write64_returns changed values value valid a

theorem setRangeSMALL_returns (len : Nat) :
    Returns (setRangeSMALL svNew acc a len)
      (Changed allowed z (fill content a len svNew)) := by
  let invariant (b : Nat) (state : Zsm α × List (RcEvent α)) : Prop :=
    a ≤ b ∧ Changed allowed z (fill content a (b - a) svNew) state
  have advances : ∀ width : Width, Advances (fun _ => False) invariant
      (a + len) width.bytes ((writeWidths svNew).access width) := by
    intro width b state _ holds
    have written := writeWidths_returns holds.2 (fill_mem values value) value
      valid b width
    apply written.satisfies.mono
    intro after wrote
    have position : b = a + (b - a) := by omega
    have next : b - a + width.bytes = b + width.bytes - a := by omega
    refine ⟨by omega, ?_⟩
    rw [← next, ← fill_fill, ← position]
    exact wrote
  have start : invariant a acc := by
    refine ⟨le_refl a, ?_⟩
    rw [Nat.sub_self, fill_zero]
    exact changed
  have whole : Satisfies (fun _ => False) (setRangeSMALL svNew acc a len)
      (invariant (a + len)) := overRange_satisfies advances start
  apply whole.returns.mono
  intro result holds
  have final := holds.2
  rw [Nat.add_sub_cancel_left] at final
  exact final

private theorem setWholeLine_returns (aligned : a % 64 = 0) :
    Returns (setWholeLine svNew acc a)
      (Changed allowed z (fill content a 64 svNew)) := by
  unfold setWholeLine
  rw [tlAssert_of aligned, ok_bind]
  split
  · have loop : Returns
        ((List.range 8).foldlM (fun acc i => write64 svNew acc (a + i * 8))
          acc)
        (Changed allowed z
          (fill content a (8 * (List.range 8).length) svNew)) := by
      apply @Returns.foldlM _ _ _ _
        (fun n => Changed allowed z (fill content a (8 * n) svNew))
      · intro n state i listed held
        obtain ⟨inside, rfl⟩ := List.getElem?_eq_some_iff.mp listed
        rw [List.getElem_range, Nat.mul_comm n, Nat.mul_succ, ← fill_fill]
        exact write64_returns held (fill_mem values value) value valid _
      · rw [Nat.mul_zero, fill_zero]
        exact changed
    exact loop
  · rename_i missing
    have wf := changed.wf
    have tagAligned : lineTag a % 64 = 0 := Nat.mul_mod_left _ _
    apply (Store.setLine_returns wf.store tagAligned valid).bind
    rintro ⟨store, events⟩ written
    apply Returns.pure
    refine ⟨⟨written.wf, wf.lines⟩, fun c => ?_,
      changed.ledger.append written.ledger, ?_⟩
    · have stored : store.byte c = _ := written.bytes c
      by_cases here : lineTag c = lineTag a
      · have range : a ≤ c ∧ c < a + 64 := by
          unfold lineTag at here
          omega
        have index : wayIndex c = wayIndex a := by
          unfold wayIndex
          unfold lineTag at here
          omega
        have filled : fill content a 64 svNew c = svNew := if_pos range
        rw [filled]
        unfold byte
        dsimp only
        rw [stored, index]
        unfold tags0 at missing
        split
        · rename_i tag cl bound
          rw [bound] at missing
          rw [if_neg (fun same => missing (here.symm.trans same.symm))]
          exact if_pos here
        · exact if_pos here
      · have range : ¬ (a ≤ c ∧ c < a + 64) := by
          unfold lineTag at here
          omega
        have kept : fill content a 64 svNew c = content c := if_neg range
        rw [kept, ← changed.bytes c]
        refine byte_congr (by rfl) fun _ => ?_
        exact stored.trans (if_neg here)
    · intro sv member
      obtain early | late := List.mem_append.mp member
      · exact changed.incs sv early
      · obtain ⟨i, -, rfl⟩ := written.incs sv late
        exact value

private theorem setLines_returns (n : Nat) (aligned : a % 64 = 0) :
    Returns ((List.range n).foldlM
        (fun acc i => setWholeLine svNew acc (a + 64 * i)) acc)
      (Changed allowed z (fill content a (64 * n) svNew)) := by
  have loop : Returns ((List.range n).foldlM
      (fun acc i => setWholeLine svNew acc (a + 64 * i)) acc)
      (Changed allowed z
        (fill content a (64 * (List.range n).length) svNew)) := by
    apply @Returns.foldlM _ _ _ _
      (fun n => Changed allowed z (fill content a (64 * n) svNew))
    · intro n state i listed held
      obtain ⟨inside, rfl⟩ := List.getElem?_eq_some_iff.mp listed
      rw [List.getElem_range, Nat.mul_succ, ← fill_fill]
      exact setWholeLine_returns held (fill_mem values value) value valid _
        (by omega)
    · rw [Nat.mul_zero, fill_zero]
      exact changed
  rw [List.length_range] at loop
  exact loop

end Write

theorem setRange_returns (wf : z.WF) (valid : svNew ≠ invalid)
    (a len : Nat) :
    Returns (z.setRange a len svNew)
      (Changed (fun sv => sv = svNew ∨ ∃ c, z.byte c = sv) z
        (fill z.byte a len svNew)) := by
  let known (sv : α) : Prop := sv = svNew ∨ ∃ c, z.byte c = sv
  have initially : Changed known z z.byte (z, []) := Changed.refl _ wf
  have values : ∀ c, known (z.byte c) := fun c => .inr ⟨c, rfl⟩
  have value : known svNew := .inl rfl
  unfold setRange
  rw [tlAssert_of valid, ok_bind]
  split
  · exact setRangeSMALL_returns initially values value valid a len
  · rename_i long
    dsimp only
    rw [tlAssert_of (by omega), ok_bind, tlAssert_of (by omega), ok_bind,
      tlAssert_of (by omega), ok_bind, tlAssert_of (by omega), ok_bind]
    apply (setRangeSMALL_returns initially values value valid a _).bind
    intro before first
    have values₁ := fill_mem (a := a) (n := (a + 63) / 64 * 64 - a) values
      value
    apply (setRangeSMALL_returns first values₁ value valid _ _).bind
    intro around second
    have values₂ := fill_mem (a := (a + len) / 64 * 64)
      (n := a + len - (a + len) / 64 * 64) values₁ value
    apply (setLines_returns second values₂ value valid
      ((a + 63) / 64 * 64) _ (by omega)).mono
    intro result holds
    have lines : 64 * (((a + len) / 64 * 64 - (a + 63) / 64 * 64) / 64) =
        (a + len) / 64 * 64 - (a + 63) / 64 * 64 := by omega
    rw [lines, fill_around (by omega) (by omega) (by omega)] at holds
    exact holds

/-- The address begins a node of the given width in its line. -/
def NodeAt (z : Zsm α) (a width : Nat) : Prop :=
  ∃ cl, z.cache.lookup (wayIndex a) = some (lineTag a, cl) ∧
    IsNode (cl.descrs (a % 64 / 8)) (a % 8) width

omit [DecidableEq α] [ShadowVal α] in
theorem putTree_nodeAt {cl : CacheLine α} {node : Tree α × Descr}
    (isNode : IsNode node.2 (a % 8) width) :
    (z.putTree a cl node).NodeAt a width := by
  refine ⟨_, AList.lookup_insert _, ?_⟩
  rw [CacheLine.setTree_descrs_self]
  exact isNode

/-- The value of a node is that of its first byte. -/
theorem NodeAt.svalAt (node : z.NodeAt a width) :
    z.svalAt a = .ok (z.byte a) := by
  obtain ⟨cl, bound, isNode⟩ := node
  have position : 8 * (a % 64 / 8) + (Fin.ofNat 8 a).val = a % 64 := by
    simp only [Fin.val_ofNat]
    omega
  have same : Fin.ofNat 8 (a % 8) = Fin.ofNat 8 a := by
    apply Fin.ext
    simp only [Fin.val_ofNat]
    omega
  have first : nodeAt (cl.descrs (a % 64 / 8)) (Fin.ofNat 8 a) =
      (Fin.ofNat 8 a, width) := by
    rw [← same]
    exact isNode
  rw [byte_of_resident bound rfl]
  unfold Zsm.svalAt treeByte CacheLine.tree
  rw [bound, first, position]

theorem read8_returns (changed : Changed allowed z content acc)
    (values : ∀ c, allowed (content c)) (a : Nat) :
    Returns (read8 acc a) fun result =>
      Changed allowed z content result.1 ∧ result.2 = content a := by
  unfold read8 withLine
  rw [bind_assoc]
  apply (getCacheline_returns changed.wf a).bind
  rintro ⟨fetched, events⟩ ⟨moved, cl, bound⟩
  have sane := Resident.sane moved.wf bound
  have held := changed.moved values moved
  dsimp only
  rw [bind_assoc]
  apply (onTree_of_resident bound
    (reach8_returns sane (Nat.mod_lt a (by decide)))).bind
  rintro after ⟨node, pulled, rfl⟩
  have movedOn := putTree_moved moved.wf bound pulled
  have final := held.moved values movedOn
  rw [List.append_nil] at final
  have reached : (fetched.putTree a cl node).NodeAt a 1 :=
    putTree_nodeAt pulled.node
  rw [pure_bind, reached.svalAt, ok_bind]
  exact Returns.pure ⟨final, final.bytes a⟩

private theorem copy8_returns (changed : Changed allowed z content acc)
    (values : ∀ c, allowed (content c)) (src dst : Nat)
    (valid : content src ≠ invalid) :
    Returns (copy8 acc src dst)
      (Changed allowed z (fill content dst 1 (content src))) := by
  unfold copy8
  apply (read8_returns changed values src).bind
  rintro ⟨read, sv⟩ ⟨held, rfl⟩
  exact write8_returns held values valid dst

/-- A map after `n` places from `src` on have been copied. -/
def copied (content : Nat → α) (src dst n : Nat) : Nat → α :=
  fun c => if dst ≤ c ∧ c < dst + n then content (src + (c - dst))
    else content c

theorem copyRange_returns (wf : z.WF) {src dst len : Nat}
    (apart : src + len ≤ dst ∨ dst + len ≤ src) :
    Returns (z.copyRange src dst len)
      (Changed (fun sv => ∃ c, z.byte c = sv) z
        (copied z.byte src dst len)) := by
  have zero : copied z.byte src dst 0 = z.byte := by
    funext c
    exact if_neg (by omega)
  unfold copyRange
  split
  · rename_i empty
    rw [empty, zero]
    exact Returns.ok (Changed.refl _ wf)
  · rw [tlAssert_of apart, ok_bind]
    have loop : Returns ((List.range len).foldlM
        (fun acc i => copy8 acc (src + i) (dst + i)) (z, []))
        (Changed (fun sv => ∃ c, z.byte c = sv) z
          (copied z.byte src dst (List.range len).length)) := by
      apply @Returns.foldlM _ _ _ _ (fun n =>
        Changed (fun sv => ∃ c, z.byte c = sv) z (copied z.byte src dst n))
      · intro n state i listed held
        obtain ⟨inside, rfl⟩ := List.getElem?_eq_some_iff.mp listed
        rw [List.length_range] at inside
        rw [List.getElem_range]
        have values : ∀ c, ∃ b, z.byte b = copied z.byte src dst n c := by
          intro c
          unfold copied
          split <;> exact ⟨_, rfl⟩
        have source : copied z.byte src dst n (src + n) =
            z.byte (src + n) := if_neg (by omega)
        have valid : copied z.byte src dst n (src + n) ≠ invalid := by
          rw [source]
          exact wf.byte_ne_invalid _
        apply (copy8_returns held values _ _ valid).mono
        intro result next
        rw [source] at next
        have step : fill (copied z.byte src dst n) (dst + n) 1
            (z.byte (src + n)) = copied z.byte src dst (n + 1) := by
          funext c
          unfold fill copied
          by_cases last : c = dst + n
          · rw [if_pos (by omega), if_pos (by omega), last]
            congr 1
            omega
          · rw [if_neg (by omega)]
            by_cases early : dst ≤ c ∧ c < dst + n
            · rw [if_pos early, if_pos (by omega)]
            · rw [if_neg early, if_neg (by omega)]
        rw [step] at next
        exact next
      · rw [zero]
        exact Changed.refl _ wf
    rw [List.length_range] at loop
    exact loop

end Zsm

section Rule

variable [DecidableEq α] [ShadowVal α]
  {rc : ρ → RcEvent α → Except Abort ρ}
  {msm : Zsm α × ρ → α → Nat → Nat → Except Abort ((Zsm α × ρ) × α)}
  {fails : Abort → Prop} {invariant : Nat → Zsm α × ρ → Prop}
  {bound a width : Nat} {s : Zsm α × ρ}

/-- What has to be shown of an invariant of the point up to which a machine
function has been applied: it survives when lines are moved about, and a call
for bytes with one value moves it on. -/
structure ApplyRule (rc : ρ → RcEvent α → Except Abort ρ)
    (msm : Zsm α × ρ → α → Nat → Nat → Except Abort ((Zsm α × ρ) × α))
    (fails : Abort → Prop) (bound : Nat)
    (invariant : Nat → Zsm α × ρ → Prop) : Prop where
  wf : ∀ b s, invariant b s → s.1.WF
  moved : ∀ b z r after events, invariant b (z, r) →
    Zsm.Moved z (after, events) →
    Satisfies fails (events.foldlM rc r) fun r => invariant b (after, r)
  called : ∀ b szB z r, szB ∈ [1, 2, 4, 8] → b + szB ≤ bound →
    invariant b (z, r) →
    (∀ c, b ≤ c → c < b + szB → z.byte c = z.byte b) →
    Satisfies fails (msm (z, r) (z.byte b) b szB) fun result =>
      result.1.1 = z ∧ result.2 ≠ invalid ∧
        ∀ after, Zsm.Wrote z b szB result.2 after →
          invariant (b + szB) (after, result.1.2)

/-- The bytes below a node have its value. -/
theorem Zsm.NodeAt.uniform {z : Zsm α} (wf : z.WF) (node : z.NodeAt a width)
    (inside : a % 8 + width ≤ 8) {c : Nat} (first : a ≤ c)
    (last : c < a + width) : z.byte c = z.byte a := by
  obtain ⟨cl, bound, isNode⟩ := node
  have sane := Resident.sane wf bound
  obtain ⟨overwrites, wide⟩ := overwrites_of_isNode sane (by omega) isNode
  have near : c / 8 = a / 8 := by omega
  rw [byte_of_resident bound near, byte_of_resident bound rfl]
  have position : ∀ d, a ≤ d → d < a + width →
      (nodeAt (cl.descrs (a % 64 / 8)) (Fin.ofNat 8 d)).1.val = a % 8 := by
    intro d from_ to_
    have here := (overwrites.2 (Fin.ofNat 8 d)).2
    rw [if_pos (by simp only [Fin.val_ofNat]; omega)] at here
    exact here
  unfold treeByte
  congr 1
  apply Fin.ext
  rw [position c first last, position a (le_refl a) (by omega)]

theorem ApplyRule.fetched (rule : ApplyRule rc msm fails bound invariant)
    {b : Nat} (holds : invariant b s) (a : Nat) :
    Satisfies fails (counting rc s (·.getCacheline a)) fun after =>
      invariant b after ∧ after.1.Resident a := by
  obtain ⟨z, r⟩ := s
  unfold counting
  obtain ⟨⟨after, events⟩, fetched, moved, resident⟩ :=
    Zsm.getCacheline_returns (rule.wf b _ holds) a
  dsimp only at fetched ⊢
  rw [fetched, ok_bind]
  apply (rule.moved b z r after events holds moved).bind
  intro r' next
  exact Satisfies.pure ⟨next, resident⟩

theorem ApplyRule.node (rule : ApplyRule rc msm fails bound invariant)
    (holds : invariant a s) (node : s.1.NodeAt a width)
    (kind : width ∈ [1, 2, 4, 8]) (inside : a % 8 + width ≤ 8)
    (bounded : a + width ≤ bound) :
    Satisfies fails (applyNode msm s a width) (invariant (a + width)) := by
  obtain ⟨z, r⟩ := s
  have wf : z.WF := rule.wf a _ holds
  unfold applyNode
  dsimp only at node ⊢
  rw [node.svalAt, ok_bind]
  apply (rule.called a width z r kind bounded holds
    fun c first last => node.uniform wf inside first last).bind
  rintro ⟨⟨z', r'⟩, svNew⟩ ⟨same, valid, stored⟩
  dsimp only at same valid stored ⊢
  subst same
  obtain ⟨cl, resident, isNode⟩ := node
  have sane := Zsm.Resident.sane wf resident
  obtain ⟨after, done, tree, wrote, same⟩ :=
    Zsm.onTree_of_resident resident
      (assign_returns sane (by omega) isNode valid)
  subst same
  rw [done, ok_bind]
  exact Satisfies.pure
    (stored _ (Zsm.putTree_wrote wf resident inside wrote))

/-- The same in smaller steps, for a machine function that may itself access
shadow memory: a line is fetched, a tree is pulled down, and the machine is
called for a node. -/
structure NodeRule (rc : ρ → RcEvent α → Except Abort ρ)
    (msm : Zsm α × ρ → α → Nat → Nat → Except Abort ((Zsm α × ρ) × α))
    (fails : Abort → Prop) (bound : Nat)
    (invariant : Nat → Zsm α × ρ → Prop) : Prop where
  wf : ∀ b s, invariant b s → s.1.WF
  fetched : ∀ b s, b < bound → invariant b s →
    Satisfies fails (counting rc s (·.getCacheline b)) fun after =>
      invariant b after ∧ after.1.Resident b
  pulled : ∀ b z r cl width node, invariant b (z, r) →
    z.cache.lookup (wayIndex b) = some (lineTag b, cl) →
    PulledDown (cl.descrs (b % 64 / 8)) (cl.tree (b % 64 / 8)) (b % 8) width
      node → invariant b (z.putTree b cl node, r)
  node : ∀ b s width, width ∈ [1, 2, 4, 8] → b % 8 + width ≤ 8 →
    b + width ≤ bound → invariant b s → s.1.NodeAt b width →
    Satisfies fails (applyNode msm s b width) (invariant (b + width))

theorem ApplyRule.nodeRule (rule : ApplyRule rc msm fails bound invariant) :
    NodeRule rc msm fails bound invariant where
  wf := rule.wf
  fetched b _ _ holds := rule.fetched holds b
  pulled b z r _ _ _ holds resident pulled :=
    rule.moved b z r _ [] holds
      (Zsm.putTree_moved (rule.wf b _ holds) resident pulled)
  node _ _ _ kind inside bounded holds node :=
    rule.node holds node kind inside bounded

/-- A line that is in the cache is pulled down to a node. -/
theorem pulled_satisfies (rule : NodeRule rc msm fails bound invariant)
    {b : Nat} (holds : invariant b s)
    {work : Tree α → Descr → Nat → Except Abort (Tree α × Descr)}
    {cl : CacheLine α}
    (resident : s.1.cache.lookup (wayIndex b) = some (lineTag b, cl))
    (works : isSaneDescrAndTree (cl.descrs (b % 64 / 8))
        (cl.tree (b % 64 / 8)) = true →
      Returns (work (cl.tree (b % 64 / 8)) (cl.descrs (b % 64 / 8)) (b % 8))
        (PulledDown (cl.descrs (b % 64 / 8)) (cl.tree (b % 64 / 8)) (b % 8)
          width)) :
    Satisfies fails (s.1.onTree b work) fun after =>
      invariant b (after, s.2) ∧ after.NodeAt b width := by
  have sane := Zsm.Resident.sane (rule.wf b s holds) resident
  obtain ⟨after, done, node, pulled, same⟩ :=
    Zsm.onTree_of_resident resident (works sane)
  subst same
  rw [done]
  exact ⟨rule.pulled b s.1 s.2 cl width node holds resident pulled,
    Zsm.putTree_nodeAt pulled.node⟩

theorem apply8_satisfies (rule : NodeRule rc msm fails bound invariant) :
    Advances fails invariant bound 1 (apply8 rc msm) := by
  intro b s bounded holds
  unfold apply8
  apply (rule.fetched b s (by omega) holds).bind
  rintro fetched ⟨held, cl, resident⟩
  apply (pulled_satisfies rule held resident
    fun sane => reach8_returns sane (Nat.mod_lt b (by decide))).bind
  rintro pulled ⟨kept, node⟩
  exact rule.node b _ _ (by decide) (by omega) bounded kept
    node

private theorem apply16Slowcase_satisfies
    (rule : NodeRule rc msm fails bound invariant) :
    Advances fails invariant bound 2 (apply16Slowcase rc msm) := by
  intro b s bounded holds
  unfold apply16Slowcase
  apply (apply8_satisfies rule b s (by omega) holds).bind
  intro middle held
  exact apply8_satisfies rule (b + 1) middle (by omega) held

theorem apply16_satisfies (rule : NodeRule rc msm fails bound invariant) :
    Advances fails invariant bound 2 (apply16 rc msm) := by
  intro b s bounded holds
  unfold apply16
  split
  · exact apply16Slowcase_satisfies rule b s bounded holds
  rename_i even
  have aligned : b % 8 ∈ [0, 2, 4, 6] := by
    simp only [List.mem_cons, List.not_mem_nil, or_false]
    omega
  apply (rule.fetched b s (by omega) holds).bind
  rintro fetched ⟨held, cl, resident⟩
  have sane := Zsm.Resident.sane (rule.wf b _ held) resident
  have known := mem_descrs_of_toValidbits (isSane_iff.mp sane).1
  have descr : fetched.1.descrAt b = .ok (cl.descrs (b % 64 / 8)) := by
    unfold Zsm.descrAt
    rw [resident]
  rw [descr, ok_bind]
  split
  · rename_i there
    have isNode := (isNode_of_has _ known).2.1 _ aligned there
    exact rule.node b _ _ (by decide) (by omega) bounded held
      ⟨cl, resident, isNode⟩
  · rename_i there
    obtain ⟨below, answer⟩ :=
      validValueIsBelowMe16_ok (cl.descrs (b % 64 / 8)) aligned
    rw [answer, ok_bind]
    cases below with
    | true => exact apply16Slowcase_satisfies rule b fetched bounded held
    | false =>
        rw [if_neg (by decide)]
        apply (pulled_satisfies rule held resident fun sane =>
          pulldownTo16_returns sane aligned (Bool.eq_false_iff.mpr there)
            answer).bind
        rintro pulled ⟨kept, node⟩
        exact rule.node b _ _ (by decide) (by omega) bounded kept
          node

private theorem apply32Slowcase_satisfies
    (rule : NodeRule rc msm fails bound invariant) :
    Advances fails invariant bound 4 (apply32Slowcase rc msm) := by
  intro b s bounded holds
  unfold apply32Slowcase
  apply (apply16_satisfies rule b s (by omega) holds).bind
  intro middle held
  exact apply16_satisfies rule (b + 2) middle (by omega) held

theorem apply32_satisfies (rule : NodeRule rc msm fails bound invariant) :
    Advances fails invariant bound 4 (apply32 rc msm) := by
  intro b s bounded holds
  unfold apply32
  split
  · exact apply32Slowcase_satisfies rule b s bounded holds
  have aligned : b % 8 ∈ [0, 4] := by
    simp only [List.mem_cons, List.not_mem_nil, or_false]
    omega
  apply (rule.fetched b s (by omega) holds).bind
  rintro fetched ⟨held, cl, resident⟩
  have sane := Zsm.Resident.sane (rule.wf b _ held) resident
  have known := mem_descrs_of_toValidbits (isSane_iff.mp sane).1
  have descr : fetched.1.descrAt b = .ok (cl.descrs (b % 64 / 8)) := by
    unfold Zsm.descrAt
    rw [resident]
  rw [descr, ok_bind]
  split
  · rename_i there
    have isNode := (isNode_of_has _ known).2.2.1 _ aligned there
    exact rule.node b _ _ (by decide) (by omega) bounded held
      ⟨cl, resident, isNode⟩
  · rename_i there
    obtain ⟨above, answer⟩ :=
      validValueIsAboveMe32_ok (cl.descrs (b % 64 / 8)) aligned
    rw [answer, ok_bind]
    cases above with
    | true =>
        rw [if_pos rfl]
        apply (pulled_satisfies rule held resident fun sane =>
          pulldownTo32_returns sane aligned (Bool.eq_false_iff.mpr there)
            answer).bind
        rintro pulled ⟨kept, node⟩
        exact rule.node b _ _ (by decide) (by omega) bounded kept
          node
    | false => exact apply32Slowcase_satisfies rule b fetched bounded held

private theorem apply64Slowcase_satisfies
    (rule : NodeRule rc msm fails bound invariant) :
    Advances fails invariant bound 8 (apply64Slowcase rc msm) := by
  intro b s bounded holds
  unfold apply64Slowcase
  apply (apply32_satisfies rule b s (by omega) holds).bind
  intro middle held
  exact apply32_satisfies rule (b + 4) middle (by omega) held

theorem apply64_satisfies (rule : NodeRule rc msm fails bound invariant) :
    Advances fails invariant bound 8 (apply64 rc msm) := by
  intro b s bounded holds
  unfold apply64
  split
  · exact apply64Slowcase_satisfies rule b s bounded holds
  have start : b % 8 = 0 := by omega
  apply (rule.fetched b s (by omega) holds).bind
  rintro fetched ⟨held, cl, resident⟩
  have sane := Zsm.Resident.sane (rule.wf b _ held) resident
  have known := mem_descrs_of_toValidbits (isSane_iff.mp sane).1
  have descr : fetched.1.descrAt b = .ok (cl.descrs (b % 64 / 8)) := by
    unfold Zsm.descrAt
    rw [resident]
  rw [descr, ok_bind]
  split
  · rename_i there
    have isNode := (isNode_of_has _ known).2.2.2 there
    rw [← start] at isNode
    exact rule.node b _ _ (by decide) (by omega) bounded held
      ⟨cl, resident, isNode⟩
  · exact apply64Slowcase_satisfies rule b fetched bounded held

theorem NodeRule.applyWidths (rule : NodeRule rc msm fails bound invariant)
    (width : Width) :
    Advances fails invariant bound width.bytes
      ((applyWidths rc msm).access width) := by
  cases width with
  | w8 => exact apply8_satisfies rule
  | w16 => exact apply16_satisfies rule
  | w32 => exact apply32_satisfies rule
  | w64 => exact apply64_satisfies rule

theorem applyWidths_satisfies
    (rule : ApplyRule rc msm fails bound invariant) (width : Width) :
    Advances fails invariant bound width.bytes
      ((applyWidths rc msm).access width) :=
  rule.nodeRule.applyWidths width

/-- The rule for the functions that apply the machine to a range. -/
theorem NodeRule.applyRange {len : Nat}
    (rule : NodeRule rc msm fails (a + len) invariant)
    (holds : invariant a s) :
    Satisfies fails (applyRange rc msm s a len) (invariant (a + len)) :=
  overRange_satisfies rule.applyWidths holds

theorem applyRange_satisfies {len : Nat}
    (rule : ApplyRule rc msm fails (a + len) invariant)
    (holds : invariant a s) :
    Satisfies fails (applyRange rc msm s a len) (invariant (a + len)) :=
  rule.nodeRule.applyRange holds

end Rule

section Kept

variable [DecidableEq α] [ShadowVal α]
  {rc : ρ → RcEvent α → Except Abort ρ}
  {msm : Zsm α × ρ → α → Nat → Nat → Except Abort ((Zsm α × ρ) × α)}
  {kept : Zsm α × ρ → Prop} {s : Zsm α × ρ}

/-- What holds of the state after every step of an application that returns,
if it holds before. -/
structure Keeps (rc : ρ → RcEvent α → Except Abort ρ)
    (msm : Zsm α × ρ → α → Nat → Nat → Except Abort ((Zsm α × ρ) × α))
    (kept : Zsm α × ρ → Prop) : Prop where
  fetches : ∀ s a, kept s → Satisfies (fun _ => True)
    (counting rc s (·.getCacheline a)) kept
  works : ∀ s a work, kept s → Satisfies (fun _ => True)
    (s.1.onTree a work) fun z => kept (z, s.2)
  calls : ∀ s sv a szB, kept s → Satisfies (fun _ => True)
    (msm s sv a szB) fun result => kept result.1

namespace Keeps

theorem applyNode (keeps : Keeps rc msm kept) (a szB : Nat)
    (holds : kept s) :
    Satisfies (fun _ => True) (applyNode msm s a szB) kept := by
  apply (Satisfies.any _).bind
  intro svOld _
  apply (keeps.calls s svOld a szB holds).bind
  rintro ⟨called, svNew⟩ next
  apply (keeps.works called a _ next).bind
  exact fun z done => done

theorem apply8 (keeps : Keeps rc msm kept) (a : Nat) (holds : kept s) :
    Satisfies (fun _ => True) (apply8 rc msm s a) kept := by
  apply (keeps.fetches s a holds).bind
  intro s fetched
  apply (keeps.works s a _ fetched).bind
  exact fun z worked => keeps.applyNode a 1 worked

theorem apply16Slowcase (keeps : Keeps rc msm kept) (a : Nat)
    (holds : kept s) :
    Satisfies (fun _ => True) (apply16Slowcase rc msm s a) kept := by
  apply (keeps.apply8 (a + 0) holds).bind
  exact fun s middle => keeps.apply8 (a + 1) middle

theorem apply16 (keeps : Keeps rc msm kept) (a : Nat) (holds : kept s) :
    Satisfies (fun _ => True) (apply16 rc msm s a) kept := by
  unfold HelgrindPlus.apply16
  split
  · exact keeps.apply16Slowcase a holds
  apply (keeps.fetches s a holds).bind
  intro s fetched
  apply (Satisfies.any _).bind
  intro descr _
  split
  · exact keeps.applyNode a 2 fetched
  apply (Satisfies.any _).bind
  intro below _
  split
  · exact keeps.apply16Slowcase a fetched
  apply (keeps.works s a _ fetched).bind
  exact fun z worked => keeps.applyNode a 2 worked

theorem apply32Slowcase (keeps : Keeps rc msm kept) (a : Nat)
    (holds : kept s) :
    Satisfies (fun _ => True) (apply32Slowcase rc msm s a) kept := by
  apply (keeps.apply16 (a + 0) holds).bind
  exact fun s middle => keeps.apply16 (a + 2) middle

theorem apply32 (keeps : Keeps rc msm kept) (a : Nat) (holds : kept s) :
    Satisfies (fun _ => True) (apply32 rc msm s a) kept := by
  unfold HelgrindPlus.apply32
  split
  · exact keeps.apply32Slowcase a holds
  apply (keeps.fetches s a holds).bind
  intro s fetched
  apply (Satisfies.any _).bind
  intro descr _
  split
  · exact keeps.applyNode a 4 fetched
  apply (Satisfies.any _).bind
  intro above _
  split
  · apply (keeps.works s a _ fetched).bind
    exact fun z worked => keeps.applyNode a 4 worked
  · exact keeps.apply32Slowcase a fetched

theorem apply64Slowcase (keeps : Keeps rc msm kept) (a : Nat)
    (holds : kept s) :
    Satisfies (fun _ => True) (apply64Slowcase rc msm s a) kept := by
  apply (keeps.apply32 (a + 0) holds).bind
  exact fun s middle => keeps.apply32 (a + 4) middle

theorem apply64 (keeps : Keeps rc msm kept) (a : Nat) (holds : kept s) :
    Satisfies (fun _ => True) (apply64 rc msm s a) kept := by
  unfold HelgrindPlus.apply64
  split
  · exact keeps.apply64Slowcase a holds
  apply (keeps.fetches s a holds).bind
  intro s fetched
  apply (Satisfies.any _).bind
  intro descr _
  split
  · exact keeps.applyNode a 8 fetched
  · exact keeps.apply64Slowcase a fetched

theorem applyWidths (keeps : Keeps rc msm kept) (width : Width) (a : Nat)
    (holds : kept s) :
    Satisfies (fun _ => True) ((applyWidths rc msm).access width s a)
      kept := by
  cases width with
  | w8 => exact keeps.apply8 a holds
  | w16 => exact keeps.apply16 a holds
  | w32 => exact keeps.apply32 a holds
  | w64 => exact keeps.apply64 a holds

theorem applyRange (keeps : Keeps rc msm kept) (a len : Nat)
    (holds : kept s) :
    Satisfies (fun _ => True) (applyRange rc msm s a len) kept :=
  @overRange_satisfies _ _ (fun _ => kept) _ _ _ _
    (fun width b _ _ holds => keeps.applyWidths width b holds) holds

end Keeps

variable {related : ρ → ρ → Prop}

/-- What every call of the machine and every change of a count does to the
rest of the state, if it returns. -/
structure Relates (rc : ρ → RcEvent α → Except Abort ρ)
    (msm : Zsm α × ρ → α → Nat → Nat → Except Abort ((Zsm α × ρ) × α))
    (related : ρ → ρ → Prop) : Prop where
  refl : ∀ r, related r r
  trans : ∀ r₁ r₂ r₃, related r₁ r₂ → related r₂ r₃ → related r₁ r₃
  counts : ∀ r event, Satisfies (fun _ => True) (rc r event) (related r)
  calls : ∀ s sv a szB, Satisfies (fun _ => True) (msm s sv a szB)
    fun result => related s.2 result.1.2

theorem Relates.keeps (relates : Relates rc msm related) (r : ρ) :
    Keeps rc msm fun s => related r s.2 where
  fetches s a holds := by
    apply (Satisfies.any _).bind
    rintro ⟨z, events⟩ -
    have loop : Satisfies (fun _ => True) (events.foldlM rc s.2)
        (related r) := by
      refine Satisfies.foldlM_kept ?_ holds
      intro r' event _ holds
      apply (relates.counts r' event).mono
      exact fun r'' step => relates.trans _ _ _ holds step
    exact loop.bind fun r holds => holds
  works s a work holds :=
    (Satisfies.any _).mono fun _ _ => holds
  calls s sv a szB holds :=
    (relates.calls s sv a szB).mono fun _ step =>
      relates.trans _ _ _ holds step

/-- A flush moves values, and does to the rest of the state what counting
does. -/
theorem counting_flushCache_leaves
    {rc : ρ → RcEvent α → Except Abort ρ} {left : ρ → Prop} {z : Zsm α}
    {r : ρ}
    (counts : ∀ r event, left r →
      Satisfies (fun _ => True) (rc r event) left)
    (wf : z.WF) (initially : left r) :
    Satisfies (fun _ => True) (counting rc (z, r) (·.flushCache))
      fun after => left after.2 ∧ ∀ c, after.1.byte c = z.byte c := by
  apply (Zsm.flushCache_returns wf).satisfies.bind
  intro result flushed
  obtain ⟨moved, -⟩ := flushed
  have replayed : Satisfies (fun _ => True) (result.2.foldlM rc r) left :=
    Satisfies.foldlM_kept (fun r event _ holds => counts r event holds)
      initially
  apply replayed.bind
  exact fun _ holds => ⟨holds, moved.bytes⟩

end Kept

end HelgrindPlus
