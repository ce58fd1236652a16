import HelgrindPlus.Msm.Default
import HelgrindPlus.Zsm.AccessRules

/-!
# Shadow memory is a map from addresses to values

Any sequence of operations on the compressed, cached shadow memory is the
same sequence on a plain map.  The machine function that the operations apply
is any function of the old value alone, and the reference counts are ignored.
-/

namespace HelgrindPlus

open Outcome

variable {α : Type}

inductive ZsmOp (α : Type) where
  | setRange (a len : Nat) (svNew : α)
  | copyRange (src dst len : Nat)
  | write (width : Width) (a : Nat) (svNew : α)
  | apply (width : Width) (a : Nat) (update : α → α)
  | applyRange (a len : Nat) (update : α → α)
  | read8 (a : Nat)
  | flushCache

namespace ZsmOp

/-- What the callers ensure: `SVal_INVALID` is not stored, and a copy does
not overlap its source. -/
def Legal [ShadowVal α] : ZsmOp α → Prop
  | setRange _ _ svNew | write _ _ svNew => svNew ≠ invalid
  | copyRange src dst len => src + len ≤ dst ∨ dst + len ≤ src
  | apply _ _ update | applyRange _ _ update =>
      ∀ sv, sv ≠ invalid → update sv ≠ invalid
  | read8 _ | flushCache => True

/-- The operation on a plain map. -/
def onMap (map : Nat → α) : ZsmOp α → Nat → α
  | setRange a len svNew => fill map a len svNew
  | copyRange src dst len => Zsm.copied map src dst len
  | write width a svNew => fill map a width.bytes svNew
  | apply width a update => fun c =>
      if a ≤ c ∧ c < a + width.bytes then update (map c) else map c
  | applyRange a len update => fun c =>
      if a ≤ c ∧ c < a + len then update (map c) else map c
  | read8 _ | flushCache => map

end ZsmOp

namespace Zsm

variable [DecidableEq α] [ShadowVal α]

/-- The functions `zsm_apply*` for a machine that is a function of the old
value. -/
def updateWidths (update : α → α) : Widths (Zsm α × Unit) :=
  applyWidths (fun _ _ => .ok ()) fun s svOld _ _ => .ok (s, update svOld)

def step (z : Zsm α) : ZsmOp α → Except Abort (Zsm α)
  | .setRange a len svNew => do
      let (z, _) ← z.setRange a len svNew
      pure z
  | .copyRange src dst len => do
      let (z, _) ← z.copyRange src dst len
      pure z
  | .write width a svNew => do
      let (z, _) ← (writeWidths svNew).access width (z, []) a
      pure z
  | .apply width a update => do
      let (z, _) ← (updateWidths update).access width (z, ()) a
      pure z
  | .applyRange a len update => do
      let (z, _) ← overRange (updateWidths update) (z, ()) a len
      pure z
  | .read8 a => do
      let ((z, _), _) ← read8 (z, []) a
      pure z
  | .flushCache => do
      let (z, _) ← z.flushCache
      pure z

def run (ops : List (ZsmOp α)) : Except Abort (Zsm α) :=
  ops.foldlM step init

/-- Shadow memory is well formed and holds the given map. -/
def Holds (map : Nat → α) (z : Zsm α) : Prop :=
  z.WF ∧ ∀ c, z.byte c = map c

variable {z : Zsm α} {map : Nat → α} {a bound : Nat}

theorem Changed.holds {allowed : α → Prop} {content : Nat → α}
    {result : Zsm α × List (RcEvent α)}
    (changed : Changed allowed z content result) : Holds content result.1 :=
  ⟨changed.wf, changed.bytes⟩

/-- The map after the update of the places from `a` up to `b`. -/
def updatedUpTo (map : Nat → α) (update : α → α) (a b c : Nat) : α :=
  if a ≤ c ∧ c < b then update (map c) else map c

private theorem update_rule {update : α → α}
    (legal : ∀ sv, sv ≠ invalid → update sv ≠ invalid) :
    ApplyRule (fun _ _ => .ok ())
      (fun s svOld _ _ => .ok (s, update svOld)) (fun _ => False) bound
      fun b (s : Zsm α × Unit) =>
        a ≤ b ∧ Holds (updatedUpTo map update a b) s.1 := by
  constructor
  · intro b s holds
    exact holds.2.1
  · intro b z r after events holds moved
    have replayed : ∀ r : Unit, events.foldlM
        (fun _ _ => (.ok () : Except Abort Unit)) r = .ok () := by
      clear moved
      induction events with
      | nil => exact fun r => rfl
      | cons event rest induction => exact fun r => induction ()
    rw [replayed]
    refine ⟨holds.1, moved.wf, fun c => ?_⟩
    exact (moved.bytes c).trans (holds.2.2 c)
  · intro b szB z r kind _ holds uniform
    obtain ⟨start, wf, bytes⟩ := holds
    have positive : 0 < szB := by
      simp only [List.mem_cons, List.not_mem_nil, or_false] at kind
      omega
    refine ⟨rfl, legal _ (wf.byte_ne_invalid b), ?_⟩
    intro after wrote
    refine ⟨by omega, wrote.wf, fun c => ?_⟩
    dsimp only
    rw [wrote.bytes c]
    by_cases here : b ≤ c ∧ c < b + szB
    · have old : z.byte b = map c := by
        rw [← uniform c here.1 here.2, bytes c]
        exact if_neg (by omega)
      rw [if_pos here, old]
      exact (if_pos (by omega)).symm
    · rw [if_neg here, bytes c]
      unfold updatedUpTo
      by_cases early : a ≤ c ∧ c < b
      · rw [if_pos early, if_pos (by omega)]
      · rw [if_neg early, if_neg (by omega)]

omit [DecidableEq α] [ShadowVal α] in
theorem updatedUpTo_self (map : Nat → α) (update : α → α) (a : Nat) :
    updatedUpTo map update a a = map := by
  funext c
  exact if_neg (by omega)

private theorem apply_returns {update : α → α} (holds : Holds map z)
    (legal : ∀ sv, sv ≠ invalid → update sv ≠ invalid) (width : Width)
    (a : Nat) :
    Returns ((updateWidths update).access width (z, ()) a) fun result =>
      Holds (updatedUpTo map update a (a + width.bytes)) result.1 := by
  have initially : a ≤ a ∧ Holds (updatedUpTo map update a a) z := by
    rw [updatedUpTo_self]
    exact ⟨le_refl a, holds⟩
  have rule := @update_rule α _ _ map a (a + width.bytes) update legal
  have applied :=
    applyWidths_satisfies rule width a (z, ()) (le_refl _) initially
  exact applied.returns.mono fun result final => final.2

private theorem applyRange_returns {update : α → α} (holds : Holds map z)
    (legal : ∀ sv, sv ≠ invalid → update sv ≠ invalid) (a len : Nat) :
    Returns (overRange (updateWidths update) (z, ()) a len) fun result =>
      Holds (updatedUpTo map update a (a + len)) result.1 := by
  have initially : a ≤ a ∧ Holds (updatedUpTo map update a a) z := by
    rw [updatedUpTo_self]
    exact ⟨le_refl a, holds⟩
  have rule := @update_rule α _ _ map a (a + len) update legal
  have whole := applyRange_satisfies (s := (z, ())) rule initially
  exact whole.returns.mono fun result final => final.2

theorem step_returns {op : ZsmOp α} (holds : Holds map z)
    (legal : op.Legal) :
    Returns (z.step op) (Holds (op.onMap map)) := by
  obtain ⟨wf, bytes⟩ := holds
  have same : z.byte = map := funext bytes
  cases op with
  | setRange a len svNew =>
      apply (setRange_returns wf legal a len).bind
      rintro ⟨after, events⟩ changed
      rw [same] at changed
      exact Returns.pure changed.holds
  | copyRange src dst len =>
      apply (copyRange_returns wf legal).bind
      rintro ⟨after, events⟩ changed
      rw [same] at changed
      exact Returns.pure changed.holds
  | write width a svNew =>
      apply (writeWidths_returns (Changed.refl (fun _ => True) wf)
        (fun _ => trivial) trivial legal a width).bind
      rintro ⟨after, events⟩ changed
      rw [same] at changed
      exact Returns.pure changed.holds
  | apply width a update =>
      apply (apply_returns ⟨wf, bytes⟩ legal width a).bind
      rintro ⟨after, none⟩ changed
      exact Returns.pure changed
  | applyRange a len update =>
      apply (applyRange_returns ⟨wf, bytes⟩ legal a len).bind
      rintro ⟨after, none⟩ changed
      exact Returns.pure changed
  | read8 a =>
      apply (read8_returns (Changed.refl (fun _ => True) wf)
        (fun _ => trivial) a).bind
      rintro ⟨⟨after, events⟩, sv⟩ ⟨changed, -⟩
      rw [same] at changed
      exact Returns.pure changed.holds
  | flushCache =>
      apply (flushCache_returns wf).bind
      rintro ⟨after, events⟩ ⟨moved, -⟩
      refine Returns.pure ⟨moved.wf, fun c => ?_⟩
      exact (moved.bytes c).trans (bytes c)

private theorem run_returns {ops : List (ZsmOp α)}
    (legal : ∀ op ∈ ops, op.Legal) (holds : Holds map z) :
    Returns (ops.foldlM step z) (Holds (ops.foldl ZsmOp.onMap map)) := by
  induction ops generalizing z map with
  | nil => exact Returns.pure holds
  | cons op rest induction =>
      rw [List.foldlM_cons]
      apply (step_returns holds (legal op List.mem_cons_self)).bind
      intro after next
      exact induction (fun op member =>
        legal op (List.mem_cons_of_mem _ member)) next

/-- The value that `zsm_read8` returns after any sequence of operations is
the value that a plain map would hold, which is `SVal_NOACCESS` everywhere at
first. -/
theorem read8_after_run (ops : List (ZsmOp α))
    (legal : ∀ op ∈ ops, op.Legal) (a : Nat) :
    Returns (do
      let z ← run ops
      read8 (z, []) a)
      fun result => result.2 =
        ops.foldl ZsmOp.onMap (fun _ => noAccess) a := by
  have start : Holds (fun _ => noAccess) (init : Zsm α) :=
    ⟨init_wf, init_byte⟩
  apply (run_returns legal start).bind
  rintro z ⟨wf, bytes⟩
  apply (read8_returns (Changed.refl (fun _ => True) wf)
    (fun _ => trivial) a).mono
  rintro ⟨acc, sv⟩ ⟨-, value⟩
  exact value.trans (bytes a)

/-- A range over several lines, an update inside it, and a copy of the
updated bytes. -/
def copyingOps : List (ZsmOp SVal) :=
  [.setRange 4096 300 (.C 1 1), .applyRange 4099 7 (fun _ => .E),
    .flushCache, .copyRange 4096 5000 64, .read8 4096]

private theorem copyingOps_legal : ∀ op ∈ copyingOps, op.Legal := by
  intro op member
  simp only [copyingOps, List.mem_cons, List.not_mem_nil, or_false] at member
  obtain rfl | rfl | rfl | rfl | rfl := member
  · exact fun impossible => nomatch impossible
  · exact fun sv _ impossible => nomatch impossible
  · exact trivial
  · exact .inl (by decide)
  · exact trivial

theorem read8_after_copyingOps : (∀ op ∈ copyingOps, op.Legal) ∧
    Returns (do
      let z ← run copyingOps
      read8 (z, []) 5004) (·.2 = .E) := by
  refine ⟨copyingOps_legal, ?_⟩
  apply (read8_after_run copyingOps copyingOps_legal 5004).mono
  intro result same
  rw [same]
  rfl

end Zsm

end HelgrindPlus
