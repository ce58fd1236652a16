import HelgrindPlus.Zsm.AccessRules

/-!
# The `LineF`s in use

A `LineF` is in use if and only if a `LineZ` refers to it.  That those to
which a `LineZ` refers are in use is part of `Zsm.WF`; here it is shown that
no other is.  Nothing needs to be known about the lines for that, and it holds
also if an access is interrupted by another.
-/

namespace HelgrindPlus

open Outcome

variable {α ρ : Type} [ShadowVal α]

namespace SecMap

variable {sm : SecMap α} {zix : Nat} {csvals : List (CountedSVal α)}

/-- Every `LineF` in use belongs to a line of `zone`. -/
def Owned (sm : SecMap α) (zone : Nat → Prop) : Prop :=
  ∀ f < sm.linesFSize, (sm.linesF f).inUse = true →
    ∃ z < 128, zone z ∧ ¬ sm.IsDirect z ∧ (sm.linesZ z).fix = f

private theorem alloc_owned (zone : Nat → Prop) :
    (SecMap.alloc : SecMap α).Owned zone := by
  intro f bounded
  cases bounded

theorem Owned.mono {zone wider : Nat → Prop} (owned : sm.Owned zone)
    (inside : ∀ z, zone z → wider z) : sm.Owned wider := by
  intro f bounded inUse
  obtain ⟨z, small, inZone, indirect, refers⟩ := owned f bounded inUse
  exact ⟨z, small, inside z inZone, indirect, refers⟩

theorem Owned.allocFForWriting {zone : Nat → Prop} (owned : sm.Owned zone) :
    Satisfies (fun _ => True) sm.allocFForWriting (·.1.Owned zone) := by
  unfold SecMap.allocFForWriting
  split
  · exact owned
  · split
    · intro f bounded inUse
      dsimp only [growLinesF] at bounded inUse
      by_cases old : f < sm.linesFSize
      · rw [if_pos old] at inUse
        exact owned f old inUse
      · rw [if_neg old] at inUse
        cases inUse
    · trivial

/-- A line is given up by what it referred to, and written anew. -/
theorem Owned.setLineZ (owned : sm.Owned (· ≠ zix)) (lineZ : LineZ α) :
    (sm.setLineZ zix lineZ).Owned (· ≠ zix) := by
  intro f bounded inUse
  obtain ⟨z, small, different, indirect, refers⟩ := owned f bounded inUse
  refine ⟨z, small, different, ?_, ?_⟩
  · simpa [IsDirect, SecMap.setLineZ, different] using indirect
  · simpa [SecMap.setLineZ, different] using refers

variable [DecidableEq α]

private theorem release_owned (owned : sm.Owned fun _ => True) :
    Satisfies (fun _ => True) (sm.release zix) (·.1.Owned (· ≠ zix)) := by
  unfold release
  split
  · apply (Satisfies.any _).bind
    intro lineF _ f bounded inUse
    dsimp only [setLineF] at bounded inUse
    by_cases freed : f = (sm.linesZ zix).fix
    · rw [freed, Function.update_self] at inUse
      cases inUse
    · rw [Function.update_of_ne freed] at inUse
      obtain ⟨z, small, -, indirect, refers⟩ := owned f bounded inUse
      refine ⟨z, small, ?_, indirect, refers⟩
      rintro rfl
      exact freed refers.symm
  · rename_i direct
    intro f bounded inUse
    obtain ⟨z, small, -, indirect, refers⟩ := owned f bounded inUse
    refine ⟨z, small, ?_, indirect, refers⟩
    rintro rfl
    exact indirect direct

theorem Owned.park (owned : sm.Owned (· ≠ zix)) (small : zix < 128)
    (lineZ : LineZ α) (i : Nat) :
    Satisfies (fun _ => True) (sm.park zix csvals lineZ i)
      (·.1.Owned fun _ => True) := by
  unfold SecMap.park
  split
  · apply (Satisfies.any _).bind
    intro _ _
    exact (owned.setLineZ lineZ).mono fun _ _ => trivial
  · apply (Satisfies.any _).bind
    intro _ _
    apply owned.allocFForWriting.bind
    rintro ⟨grown, fix⟩ owned'
    iterate 4
      apply (Satisfies.any _).bind
      intro _ _
    intro f bounded inUse
    by_cases new : f = fix
    · refine ⟨zix, small, trivial, ?_, ?_⟩
      · simp [IsDirect, SecMap.setLineZ, setLineF]
      · simp [SecMap.setLineZ, setLineF, new]
    · dsimp only [setLineF] at inUse
      rw [Function.update_of_ne new] at inUse
      exact ((owned'.setLineZ _).mono fun _ _ => trivial) f bounded inUse

theorem Owned.writeLine (owned : sm.Owned fun _ => True)
    (small : zix < 128) :
    Satisfies (fun _ => True) (sm.writeLine zix csvals)
      (·.1.Owned fun _ => True) := by
  apply (release_owned owned).bind
  rintro ⟨released, decs⟩ others
  apply (Satisfies.any _).bind
  intro _ _
  apply (Satisfies.any _).bind
  rintro ⟨lineZ, i⟩ -
  apply (others.park small lineZ i).bind
  exact fun _ parked => parked

theorem Owned.setLine (owned : sm.Owned fun _ => True) (svNew : α) :
    Satisfies (fun _ => True) (sm.setLine zix svNew)
      (·.1.Owned fun _ => True) := by
  apply (release_owned owned).bind
  rintro ⟨released, decs⟩ others
  apply (Satisfies.any _).bind
  intro _ _
  exact (others.setLineZ _).mono fun _ _ => trivial

end SecMap

namespace Store

variable {st : Store α}

def Owned (st : Store α) : Prop :=
  ∀ sm, (st.secMaps sm).Owned fun _ => True

theorem init_owned : (Store.init : Store α).Owned :=
  fun _ => SecMap.alloc_owned _

omit [ShadowVal α] in
theorem findSecMap_secMaps (st : Store α) (ga : Nat) :
    (st.findSecMap ga).1.secMaps = st.secMaps := by
  unfold findSecMap
  dsimp only
  repeat' split
  all_goals rfl

theorem Owned.findOrAllocSecMap (owned : st.Owned) (ga : Nat) :
    (st.findOrAllocSecMap ga).1.Owned := by
  have found := findSecMap_secMaps st ga
  unfold Store.findOrAllocSecMap
  split
  · rename_i same
    rw [same] at found
    intro sm
    rw [found]
    exact owned sm
  · rename_i same
    rw [same] at found
    intro sm
    dsimp only [addSecMap] at found ⊢
    rw [found, Function.update_apply]
    split
    · exact SecMap.alloc_owned _
    · exact owned sm

theorem Owned.onLine {β : Type} (owned : st.Owned) (tag : Nat)
    {work : SecMap α → Nat → Except Abort (SecMap α × β)}
    (works : ∀ (sm : SecMap α) (zix : Nat), (sm.Owned fun _ => True) →
      zix < 128 → Satisfies (fun _ => True) (work sm zix)
        (·.1.Owned fun _ => True)) :
    Satisfies (fun _ => True) (st.onLine tag work) (·.1.Owned) := by
  have owned' := owned.findOrAllocSecMap tag
  unfold Store.onLine
  generalize st.findOrAllocSecMap tag = found at owned'
  obtain ⟨found, sm⟩ := found
  apply (Satisfies.any _).bind
  intro _ _
  have small : getSecMapOffset tag / 64 < 128 := by
    unfold getSecMapOffset
    omega
  dsimp only
  rw [tlAssert_of small, ok_bind]
  apply (works _ _ (owned' sm) small).bind
  rintro ⟨secMap, result⟩ worked
  intro other
  dsimp only [setSecMap]
  rw [Function.update_apply]
  split
  · exact worked
  · exact owned' other

variable [DecidableEq α]

theorem Owned.cachelineWback (owned : st.Owned) (tag : Nat)
    (cl : CacheLine α) :
    Satisfies (fun _ => True) (st.cachelineWback tag cl) (·.1.Owned) :=
  owned.onLine tag fun _ _ lines small => lines.writeLine small

theorem Owned.setLine (owned : st.Owned) (tag : Nat) (svNew : α) :
    Satisfies (fun _ => True) (st.setLine tag svNew) (·.1.Owned) :=
  owned.onLine tag fun _ _ lines _ => lines.setLine svNew

theorem Owned.cachelineFetch (owned : st.Owned) (tag : Nat) :
    Satisfies (fun _ => True) (st.cachelineFetch tag) (·.1.Owned) := by
  apply (Satisfies.any _).bind
  intro _ _
  have fetched : Satisfies (fun _ => True)
      (st.onLine tag fun sm zix => do
        let svals ← sm.readLine zix
        pure (sm, svals)) (·.1.Owned) := by
    apply owned.onLine tag
    intro sm zix lines _
    apply (Satisfies.any _).bind
    exact fun _ _ => lines
  apply fetched.bind
  rintro ⟨st', svals⟩ owned'
  apply (Satisfies.any _).bind
  exact fun _ _ => owned'

end Store

namespace Zsm

variable {z : Zsm α}

def Owned (z : Zsm α) : Prop := z.store.Owned

theorem init_owned : (Zsm.init : Zsm α).Owned := Store.init_owned

theorem Owned.onTree (owned : z.Owned) (a : Nat)
    (work : Tree α → Descr → Nat → Except Abort (Tree α × Descr)) :
    Satisfies (fun _ => True) (z.onTree a work) Owned := by
  unfold Zsm.onTree
  split
  · apply (Satisfies.any _).bind
    exact fun _ _ => owned
  · trivial

variable [DecidableEq α]

theorem Owned.cachelineWback (owned : z.Owned) (wix : Nat) :
    Satisfies (fun _ => True) (z.cachelineWback wix) (·.1.Owned) := by
  unfold Zsm.cachelineWback
  split
  · split
    · apply (Store.Owned.cachelineWback owned _ _).bind
      exact fun _ wrote => wrote
    · exact owned
  · exact owned

theorem Owned.getCacheline (owned : z.Owned) (a : Nat) :
    Satisfies (fun _ => True) (z.getCacheline a) (·.1.Owned) := by
  unfold Zsm.getCacheline
  split
  · exact owned
  · apply (Satisfies.any _).bind
    intro _ _
    apply (owned.cachelineWback _).bind
    rintro ⟨evicted, events⟩ wrote
    apply (Store.Owned.cachelineFetch wrote _).bind
    exact fun _ fetched => fetched

theorem Owned.flushCache (owned : z.Owned) :
    Satisfies (fun _ => True) z.flushCache (·.1.Owned) := by
  refine Satisfies.foldlM_kept ?_ owned
  rintro ⟨z, events⟩ wix - owned
  apply (Satisfies.any _).bind
  intro _ _
  apply (Owned.cachelineWback owned wix).bind
  exact fun _ wrote => wrote

variable {acc : Zsm α × List (RcEvent α)} (svNew : α) (a : Nat)

theorem Owned.withLine (owned : acc.1.Owned)
    (work : Tree α → Descr → Nat → Except Abort (Tree α × Descr)) :
    Satisfies (fun _ => True) (withLine acc a work) (·.1.Owned) := by
  apply (owned.getCacheline a).bind
  rintro ⟨fetched, events⟩ owned
  apply (Owned.onTree owned a work).bind
  exact fun _ worked => worked

theorem Owned.write8 (owned : acc.1.Owned) :
    Satisfies (fun _ => True) (write8 svNew acc a) (·.1.Owned) :=
  owned.withLine a _

theorem Owned.write16 (owned : acc.1.Owned) :
    Satisfies (fun _ => True) (write16 svNew acc a) (·.1.Owned) := by
  unfold Zsm.write16
  split
  · apply (owned.write8 svNew (a + 0)).bind
    exact fun _ middle => middle.write8 svNew (a + 1)
  · exact owned.withLine a _

theorem Owned.write32 (owned : acc.1.Owned) :
    Satisfies (fun _ => True) (write32 svNew acc a) (·.1.Owned) := by
  unfold Zsm.write32
  split
  · apply (owned.write16 svNew (a + 0)).bind
    exact fun _ middle => middle.write16 svNew (a + 2)
  · exact owned.withLine a _

theorem Owned.write64 (owned : acc.1.Owned) :
    Satisfies (fun _ => True) (write64 svNew acc a) (·.1.Owned) := by
  unfold Zsm.write64
  split
  · apply (owned.write32 svNew (a + 0)).bind
    exact fun _ middle => middle.write32 svNew (a + 4)
  · exact owned.withLine a _

theorem Owned.setRangeSMALL (owned : acc.1.Owned) (len : Nat) :
    Satisfies (fun _ => True) (setRangeSMALL svNew acc a len)
      (·.1.Owned) := by
  refine @overRange_satisfies (Zsm α × List (RcEvent α)) _
    (fun _ acc => acc.1.Owned) _ _ _ _ ?_ owned
  intro width b acc _ owned
  cases width with
  | w8 => exact owned.write8 svNew b
  | w16 => exact owned.write16 svNew b
  | w32 => exact owned.write32 svNew b
  | w64 => exact owned.write64 svNew b

theorem Owned.setWholeLine (owned : acc.1.Owned) :
    Satisfies (fun _ => True) (setWholeLine svNew acc a) (·.1.Owned) := by
  apply (Satisfies.any _).bind
  intro _ _
  split
  · exact Satisfies.foldlM_kept
      (fun acc i _ owned => Owned.write64 svNew (a + i * 8) owned) owned
  · apply (Store.Owned.setLine owned _ svNew).bind
    exact fun _ written => written

theorem Owned.setRange (owned : z.Owned) (len : Nat) :
    Satisfies (fun _ => True) (z.setRange a len svNew) (·.1.Owned) := by
  apply (Satisfies.any _).bind
  intro _ _
  split
  · exact Owned.setRangeSMALL svNew a owned len
  · iterate 4
      apply (Satisfies.any _).bind
      intro _ _
    apply (@Owned.setRangeSMALL _ _ _ (z, []) svNew a owned _).bind
    intro acc owned
    apply (Owned.setRangeSMALL svNew _ owned _).bind
    intro acc owned
    exact Satisfies.foldlM_kept
      (fun acc i _ owned => Owned.setWholeLine svNew _ owned) owned

theorem Owned.copy8 (owned : acc.1.Owned) (src dst : Nat) :
    Satisfies (fun _ => True) (copy8 acc src dst) (·.1.Owned) := by
  have read : Satisfies (fun _ => True) (read8 acc src)
      (·.1.1.Owned) := by
    apply (owned.withLine src _).bind
    intro acc owned
    apply (Satisfies.any _).bind
    exact fun _ _ => owned
  apply read.bind
  rintro ⟨acc, sv⟩ owned
  exact Owned.write8 sv dst owned

theorem Owned.copyRange (owned : z.Owned) (src dst len : Nat) :
    Satisfies (fun _ => True) (z.copyRange src dst len) (·.1.Owned) := by
  unfold Zsm.copyRange
  split
  · exact owned
  · apply (Satisfies.any _).bind
    intro _ _
    exact Satisfies.foldlM_kept
      (fun acc i _ owned => Owned.copy8 owned _ _) owned

end Zsm

/-- An operation on shadow memory, with the calls of `rcinc` and `rcdec`. -/
theorem counting_owned {rc : ρ → RcEvent α → Except Abort ρ}
    {s : Zsm α × ρ}
    {operation : Zsm α → Except Abort (Zsm α × List (RcEvent α))}
    (owned : Satisfies (fun _ => True) (operation s.1) (·.1.Owned)) :
    Satisfies (fun _ => True) (counting rc s operation) (·.1.Owned) := by
  apply owned.bind
  rintro ⟨z, events⟩ owned
  apply (Satisfies.any _).bind
  exact fun _ _ => owned

variable [DecidableEq α]

/-- The machine may do what it likes, as long as it keeps the lines owned. -/
theorem keeps_owned {rc : ρ → RcEvent α → Except Abort ρ}
    {msm : Zsm α × ρ → α → Nat → Nat → Except Abort ((Zsm α × ρ) × α)}
    (calls : ∀ s sv a szB, s.1.Owned → Satisfies (fun _ => True)
      (msm s sv a szB) (·.1.1.Owned)) :
    Keeps rc msm (·.1.Owned) where
  fetches _ a owned := counting_owned (Zsm.Owned.getCacheline owned a)
  works _ a work owned := Zsm.Owned.onTree owned a work
  calls := calls

namespace SecMap

/-- Either the line has its values in `dict`, or `dict[1]` is the index of a
`LineF` in use. -/
def LineOk (sm : SecMap α) (z : Nat) : Prop :=
  ((sm.linesZ z).dict 0 ≠ invalid ∧ ∀ i < 64,
    (sm.linesZ z).dict (readTwobitArray (sm.linesZ z).ix2s i) ≠ invalid) ∨
  ((sm.linesZ z).dict 0 = invalid ∧ (sm.linesZ z).fix < sm.linesFSize ∧
    (sm.linesF (sm.linesZ z).fix).inUse = true)

/-- The lines are as they should be, and each `LineF` in use belongs to
exactly one of them. -/
structure LinesOk (sm : SecMap α) : Prop where
  line : ∀ z < 128, sm.LineOk z
  own : ∀ f < sm.linesFSize, (sm.linesF f).inUse = true →
    ∃! z, z < 128 ∧ (sm.linesZ z).dict 0 = invalid ∧ (sm.linesZ z).fix = f

theorem linesOk_of {sm : SecMap α} (wf : sm.WF)
    (owned : sm.Owned fun _ => True) : sm.LinesOk := by
  constructor
  · intro z small
    obtain ⟨values, inUse⟩ := wf.line z small trivial
    by_cases direct : sm.IsDirect z
    · have first : (sm.linesZ z).dict 0 ≠ invalid := direct
      refine .inl ⟨first, fun i inside => ?_⟩
      have value := values i inside
      rwa [lineByte, if_neg first] at value
    · exact .inr ⟨not_not.mp direct, inUse direct⟩
  · intro f bounded inUse
    obtain ⟨z, small, -, indirect, refers⟩ := owned f bounded inUse
    refine ⟨z, ⟨small, not_not.mp indirect, refers⟩, ?_⟩
    rintro other ⟨small', indirect', refers'⟩
    exact wf.own other small' z small trivial trivial
      (not_not_intro indirect') indirect (refers'.trans refers.symm)

end SecMap

/-- Every line in the cache is sane, and so are those of the store. -/
structure Zsm.LinesOk (z : Zsm α) : Prop where
  cache : ∀ wix tag cl, z.cache.lookup wix = some (tag, cl) → cl.Sane
  store : ∀ sm < z.store.secMapsAllocd, (z.store.secMaps sm).LinesOk

theorem Zsm.linesOk_of {z : Zsm α} (wf : z.WF) (owned : z.Owned) :
    z.LinesOk where
  cache wix tag cl bound := (wf.lines wix tag cl bound).2.2
  store sm allocd := SecMap.linesOk_of (wf.store.secMap sm allocd) (owned sm)

end HelgrindPlus
