import HelgrindPlus.Lib.Totals
import HelgrindPlus.LibHB.Sync
import Mathlib.Algebra.Order.Group.Multiset
import Mathlib.Tactic.Abel

/-!
# Refinement of the clock interface

Every operation of `Hb` that `AbsHb` allows returns and does what `AbsHb`
says, with the reference counts of the table exact.  The references that
shadow memory holds are a parameter, so that the result can be used while
there are any.
-/

namespace HelgrindPlus

open Outcome

def Thr.refs (thr : Thr) : Multiset Nat := {thr.viR} + {thr.viW}

def SO.refs (so : SO) : Multiset Nat :=
  (so.viR.toList : Multiset Nat) + (so.viW.toList : Multiset Nat)

theorem Thr.refs_add (thr : Thr) (rest : Multiset Nat) :
    thr.refs + rest = thr.viR ::ₘ thr.viW ::ₘ rest := by
  simp only [Thr.refs, ← Multiset.singleton_add]
  abel

theorem SO.refs_add (viR viW : Nat) (rest : Multiset Nat) :
    SO.refs ⟨some viR, some viW⟩ + rest = viR ::ₘ viW ::ₘ rest := by
  simp only [SO.refs, Option.toList_some, Multiset.coe_singleton,
    ← Multiset.singleton_add]
  abel

/-- The references that threads and live objects hold. -/
def Hb.refs (hb : Hb) : Multiset Nat :=
  hb.thrs.total Thr.refs + hb.sos.total SO.refs

namespace VtsTab

structure Denotes (tab : VtsTab) (viR viW : Nat) (clocks : Clocks) :
    Prop where
  read : tab.clock viR = some clocks.vR
  write : tab.clock viW = some clocks.vW
  sane : clocks.Sane

theorem Denotes.mono {tab after : VtsTab} {viR viW : Nat} {clocks : Clocks}
    (denotes : Denotes tab viR viW clocks) (grown : Extends tab after) :
    Denotes after viR viW clocks :=
  ⟨grown _ _ denotes.read, grown _ _ denotes.write, denotes.sane⟩

theorem Denotes.unique {tab : VtsTab} {viR viW : Nat} {left right : Clocks}
    (first : Denotes tab viR viW left) (second : Denotes tab viR viW right) :
    left = right := by
  obtain ⟨vR, vW⟩ := left
  have read := first.read.symm.trans second.read
  have write := first.write.symm.trans second.write
  cases Option.some.inj read
  cases Option.some.inj write
  rfl

/-- An object is either empty or holds two ids. -/
inductive SODenotes (tab : VtsTab) : SO → Option Clocks → Prop where
  | empty : SODenotes tab ⟨none, none⟩ none
  | holds {viR viW : Nat} {clocks : Clocks}
      (denotes : Denotes tab viR viW clocks) :
      SODenotes tab ⟨some viR, some viW⟩ (some clocks)

theorem SODenotes.mono {tab after : VtsTab} {so : SO}
    {contents : Option Clocks} (denotes : SODenotes tab so contents)
    (grown : Extends tab after) : SODenotes after so contents := by
  cases denotes with
  | empty => exact .empty
  | holds denotes => exact .holds (denotes.mono grown)

/-- The records of `map` stand for the values of `values`, key by key. -/
def Represents {ρ υ : Type} (tab : VtsTab) (relation : VtsTab → ρ → υ → Prop)
    (map : AList (fun _ : Nat => ρ)) (values : Nat → Option υ) : Prop :=
  ∀ key, match map.lookup key, values key with
    | none, none => True
    | some record, some value => relation tab record value
    | _, _ => False

section Represents

variable {ρ υ : Type} {tab after : VtsTab}
  {relation : VtsTab → ρ → υ → Prop} {map : AList (fun _ : Nat => ρ)}
  {values : Nat → Option υ} {key : Nat} {record : ρ} {value : υ}

theorem Represents.mono (represents : Represents tab relation map values)
    (monotone : ∀ record value, relation tab record value →
      relation after record value) :
    Represents after relation map values := by
  intro key
  have here := represents key
  split at here
  · simp_all
  · exact monotone _ _ here
  · cases here

theorem Represents.insert (represents : Represents tab relation map values)
    (key : Nat) (holds : relation tab record value) :
    Represents tab relation (map.insert key record)
      (Function.update values key (some value)) := by
  intro other
  by_cases same : other = key
  · subst same
    simpa using holds
  · rw [AList.lookup_insert_ne same, Function.update_of_ne same]
    exact represents other

theorem Represents.erase (represents : Represents tab relation map values)
    (key : Nat) :
    Represents tab relation (map.erase key)
      (Function.update values key none) := by
  intro other
  by_cases same : other = key
  · subst same
    simp
  · rw [AList.lookup_erase_ne same, Function.update_of_ne same]
    exact represents other

theorem Represents.of_some (represents : Represents tab relation map values)
    (known : values key = some value) :
    ∃ record, map.lookup key = some record ∧ relation tab record value := by
  have here := represents key
  rw [known] at here
  cases bound : map.lookup key with
  | none =>
      rw [bound] at here
      cases here
  | some record =>
      rw [bound] at here
      exact ⟨record, rfl, here⟩

theorem Represents.of_none (represents : Represents tab relation map values)
    (unknown : values key = none) : map.lookup key = none := by
  have here := represents key
  rw [unknown] at here
  cases bound : map.lookup key with
  | none => rfl
  | some record =>
      rw [bound] at here
      cases here

theorem Represents.of_bound (represents : Represents tab relation map values)
    (bound : map.lookup key = some record) :
    ∃ value, values key = some value ∧ relation tab record value := by
  cases known : values key with
  | none =>
      rw [represents.of_none known] at bound
      cases bound
  | some value =>
      obtain ⟨other, bound', related⟩ := represents.of_some known
      rw [bound] at bound'
      cases bound'
      exact ⟨value, rfl, related⟩

theorem Represents.of_unbound (represents : Represents tab relation map values)
    (unbound : map.lookup key = none) : values key = none := by
  cases known : values key with
  | none => rfl
  | some value =>
      obtain ⟨record, bound, _⟩ := represents.of_some known
      rw [unbound] at bound
      cases bound

end Represents

end VtsTab

open VtsTab in
/-- `hb` stands for `abs`, and its table counts the references of `hb` and
the references `others` that are held elsewhere. -/
structure Hb.Refines (hb : Hb) (others : Multiset Nat) (abs : AbsHb) :
    Prop where
  counted : hb.tab.Counted (hb.refs + others)
  thrs : hb.tab.Represents
    (fun tab thr clocks => tab.Denotes thr.viR thr.viW clocks)
    hb.thrs abs.thrs
  sos : hb.tab.Represents SODenotes hb.sos abs.sos
  grounded : abs.Grounded

namespace Hb

open VtsTab

/-- The references apart from those of one thread. -/
def refsWithoutThr (hb : Hb) (thr : Nat) : Multiset Nat :=
  (hb.thrs.erase thr).total Thr.refs + hb.sos.total SO.refs

theorem refs_eq_of_thr {hb : Hb} {thr : Nat} {record : Thr}
    (bound : hb.thrs.lookup thr = some record) :
    hb.refs = record.refs + hb.refsWithoutThr thr := by
  unfold refs refsWithoutThr
  rw [AList.total_eq_of_lookup Thr.refs bound, add_assoc]

theorem Refines.init (root : Nat) :
    Returns (Hb.init root) (fun hb => hb.Refines 0 (AbsHb.init root)) := by
  unfold Hb.init
  apply (mkSingleton_returns Counted.init root).bind
  rintro ⟨tab, vi⟩ ⟨counted, _, known⟩
  apply (rcinc_returns counted known).bind
  rintro tab₁ ⟨counted₁, same₁⟩
  rw [← same₁] at known
  apply (rcinc_returns counted₁ known).bind
  rintro tab₂ ⟨counted₂, same₂⟩
  rw [← same₂] at known
  apply Returns.pure
  refine ⟨counted₂, ?_, ?_, AbsHb.Grounded.init root⟩
  · have empty : tab₂.Represents
        (fun tab (thr : Thr) clocks => tab.Denotes thr.viR thr.viW clocks)
        ∅ (fun _ => none) := by
      intro key
      simp
    have denotes : tab₂.Denotes vi vi ⟨_, _⟩ :=
      ⟨known, known, Clocks.Sane.same _⟩
    exact empty.insert root denotes
  · intro key
    simp [AbsHb.init]

theorem getThr_of {hb : Hb} {thr : Nat} {record : Thr}
    (bound : hb.thrs.lookup thr = some record) :
    hb.getThr thr = .ok record := by
  simp [getThr, bound]

theorem getSO_of {hb : Hb} {so : Nat} {record : SO}
    (bound : hb.sos.lookup so = some record) :
    hb.getSO so = .ok record := by
  simp [getSO, bound]

theorem Refines.zalloc {hb : Hb} {others : Multiset Nat} {abs : AbsHb}
    (refines : hb.Refines others abs) {addr : Nat}
    (unused : abs.unused addr = true) : hb.zalloc addr = .ok () := by
  simp only [AbsHb.unused, Bool.and_eq_true, Option.isNone_iff_eq_none]
    at unused
  exact if_pos ⟨refines.thrs.of_none unused.1, refines.sos.of_none unused.2⟩

theorem moveAlong_returns {tab : VtsTab} {thr : Thr} {rest : Multiset Nat}
    {clocks : Clocks} (me : Nat) (counted : tab.Counted (thr.refs + rest))
    (denotes : tab.Denotes thr.viR thr.viW clocks) :
    Returns (moveAlong tab thr me) (fun result =>
      result.1.Counted (result.2.refs + rest) ∧
        VtsTab.Extends tab result.1 ∧
        result.1.Denotes result.2.viR result.2.viW (clocks.tick me)) := by
  rw [Thr.refs_add] at counted
  unfold moveAlong
  apply (rcdec_returns_cons counted).bind
  rintro tab₁ ⟨counted₁, same₁⟩
  apply (rcdec_returns_cons counted₁).bind
  rintro tab₂ ⟨counted₂, same₂⟩
  have denotes₂ := denotes.mono
    (Extends.of_clock_eq (same₂.trans same₁))
  apply (tick_returns counted₂ denotes₂.read me).bind
  rintro ⟨tab₃, viR⟩ ⟨counted₃, grown₃, knownR⟩
  apply (tick_returns counted₃ (denotes₂.mono grown₃).write me).bind
  rintro ⟨tab₄, viW⟩ ⟨counted₄, grown₄, knownW⟩
  replace knownR := grown₄ _ _ knownR
  apply (rcinc_returns counted₄ knownR).bind
  rintro tab₅ ⟨counted₅, same₅⟩
  rw [← same₅] at knownR knownW
  apply (rcinc_returns counted₅ knownW).bind
  rintro tab₆ ⟨counted₆, same₆⟩
  rw [← same₆] at knownR knownW
  apply Returns.pure
  refine ⟨?_, ?_, ⟨knownR, knownW, denotes.sane.tick me⟩⟩
  · rw [Thr.refs_add, Multiset.cons_swap]
    exact counted₆
  · exact (Extends.of_clock_eq (same₂.trans same₁)).trans (grown₃.trans
      (grown₄.trans (Extends.of_clock_eq (same₆.trans same₅))))

section Operations

variable {hb : Hb} {others : Multiset Nat} {abs abs' : AbsHb}

/-- What every operation of the interface promises. -/
def Simulates (hb : Hb) (others : Multiset Nat) (abs' : AbsHb)
    (result : Hb) : Prop :=
  result.Refines others abs' ∧ VtsTab.Extends hb.tab result.tab

private theorem total_thrs_insert_insert {thrs : AList (fun _ : Nat => Thr)}
    {parent child : Nat} {old new record : Thr}
    (bound : thrs.lookup parent = some old)
    (fresh : thrs.lookup child = none) :
    ((thrs.insert child record).insert parent new).total Thr.refs =
      new.refs + record.refs + (thrs.erase parent).total Thr.refs := by
  have different : parent ≠ child := by
    rintro rfl
    rw [bound] at fresh
    cases fresh
  have stillBound : (thrs.insert child record).lookup parent = some old := by
    rw [AList.lookup_insert_ne different, bound]
  have inner : old.refs +
      ((thrs.insert child record).erase parent).total Thr.refs =
      old.refs + (record.refs + (thrs.erase parent).total Thr.refs) := by
    rw [← AList.total_eq_of_lookup Thr.refs stillBound, AList.total_insert,
      AList.total_erase_of_notBound Thr.refs fresh,
      AList.total_eq_of_lookup Thr.refs bound]
    abel
  rw [AList.total_insert, add_left_cancel inner, add_assoc]

theorem create_simulates (refines : hb.Refines others abs) {parent child : Nat}
    (allowed : abs.step (.create parent child) = some abs') :
    Returns (hb.create parent child) (hb.Simulates others abs') := by
  have grounded := refines.grounded.step allowed
  simp only [AbsHb.step, Option.bind_eq_bind, Option.bind_eq_some_iff,
    Option.ite_none_right_eq_some, Option.some.injEq] at allowed
  obtain ⟨clocks, atParent, unused, rfl⟩ := allowed
  obtain ⟨p, bound, denotes⟩ := refines.thrs.of_some atParent
  have childAbsent : abs.thrs child = none := by
    simp only [AbsHb.unused, Bool.and_eq_true,
      Option.isNone_iff_eq_none] at unused
    exact unused.1
  have fresh := refines.thrs.of_none childAbsent
  have unmentioned := refines.grounded.thrs parent clocks atParent child
    (by simp [AbsHb.Exists, childAbsent])
  have counted := refines.counted
  unfold create
  rw [getThr_of bound, refines.zalloc unused]
  apply (tick_returns counted denotes.read child).bind
  rintro ⟨tab₁, childR⟩ ⟨counted₁, grown₁, knownR⟩
  apply (tick_returns counted₁ (denotes.mono grown₁).write child).bind
  rintro ⟨tab₂, childW⟩ ⟨counted₂, grown₂, knownW⟩
  replace knownR := grown₂ _ _ knownR
  apply (rcinc_returns counted₂ knownR).bind
  rintro tab₃ ⟨counted₃, same₃⟩
  rw [← same₃] at knownR knownW
  apply (rcinc_returns counted₃ knownW).bind
  rintro tab₄ ⟨counted₄, same₄⟩
  rw [← same₄] at knownR knownW
  -- The child's own component was zero before its tick.
  have oneR : (clocks.vR.tick child).indexAt child = 1 := by
    simp [VTS.indexAt_tick, unmentioned.1]
  have oneW : (clocks.vW.tick child).indexAt child = 1 := by
    simp [VTS.indexAt_tick, unmentioned.2]
  simp only [indexAt_of knownR, indexAt_of knownW, ok_bind, tlAssert_of oneR,
    tlAssert_of oneW]
  have grown : VtsTab.Extends hb.tab tab₄ := grown₁.trans (grown₂.trans
    (Extends.of_clock_eq (same₄.trans same₃)))
  have split : childW ::ₘ childR ::ₘ (hb.refs + others) =
      p.refs + (Thr.refs ⟨childR, childW⟩ + hb.refsWithoutThr parent
        + others) := by
    rw [refs_eq_of_thr bound]
    simp only [Thr.refs, ← Multiset.singleton_add]
    abel
  rw [split] at counted₄
  apply (moveAlong_returns parent counted₄ (denotes.mono grown)).bind
  rintro ⟨tab₅, moved⟩ ⟨counted₅, grown₅, denotes₅⟩
  apply Returns.pure
  have childDenotes : tab₅.Denotes childR childW (clocks.tick child) :=
    ⟨grown₅ _ _ knownR, grown₅ _ _ knownW, denotes.sane.tick child⟩
  have grownAll := grown.trans grown₅
  refine ⟨⟨?_, ?_, ?_, grounded⟩, grownAll⟩
  · have total : refs ⟨tab₅, (hb.thrs.insert child ⟨childR, childW⟩).insert
        parent moved, hb.sos⟩ + others =
        moved.refs + (Thr.refs ⟨childR, childW⟩ + hb.refsWithoutThr parent
          + others) := by
      simp only [refs, refsWithoutThr, total_thrs_insert_insert bound fresh]
      abel
    rw [total]
    exact counted₅
  · exact ((refines.thrs.mono fun _ _ known => known.mono grownAll).insert
      child childDenotes).insert parent denotes₅
  · exact refines.sos.mono fun _ _ known => known.mono grownAll

theorem soAlloc_returns (refines : hb.Refines others abs) {so : Nat}
    (unused : abs.unused so = true) :
    Returns (hb.soAlloc so) (hb.Simulates others (abs.setSO so none)) := by
  have grounded : (abs.setSO so none).Grounded :=
    refines.grounded.setSO nofun
  have absent : abs.sos so = none := by
    simp only [AbsHb.unused, Bool.and_eq_true,
      Option.isNone_iff_eq_none] at unused
    exact unused.2
  have fresh := refines.sos.of_none absent
  unfold soAlloc
  rw [refines.zalloc unused]
  apply Returns.ok
  refine ⟨⟨?_, refines.thrs, refines.sos.insert so .empty, grounded⟩,
    Extends.refl _⟩
  have total : refs ⟨hb.tab, hb.thrs, hb.sos.insert so ⟨none, none⟩⟩ =
      hb.refs := by
    simp only [refs, AList.total_insert,
      AList.total_erase_of_notBound SO.refs fresh]
    simp [SO.refs]
  rw [total]
  exact refines.counted

theorem soAlloc_simulates (refines : hb.Refines others abs) {thr so : Nat}
    (allowed : abs.step (.soAlloc thr so) = some abs') :
    Returns (hb.soAlloc so) (hb.Simulates others abs') := by
  simp only [AbsHb.step, Option.bind_eq_bind, Option.bind_eq_some_iff,
    Option.ite_none_right_eq_some, Option.some.injEq] at allowed
  obtain ⟨_, _, unused, rfl⟩ := allowed
  exact soAlloc_returns refines unused

theorem soDealloc_returns (refines : hb.Refines others abs) {so : Nat}
    {contents : Option Clocks} (atSO : abs.sos so = some contents) :
    Returns (hb.soDealloc so) (hb.Simulates others
      { abs with sos := Function.update abs.sos so none }) := by
  have grounded := refines.grounded.dropSO so
  obtain ⟨record, bound, denotes⟩ := refines.sos.of_some atSO
  have counted := refines.counted
  have total : hb.refs + others =
      record.refs + (hb.thrs.total Thr.refs +
        (hb.sos.erase so).total SO.refs + others) := by
    simp only [refs, AList.total_eq_of_lookup SO.refs bound]
    abel
  rw [total] at counted
  unfold soDealloc
  rw [getSO_of bound]
  cases denotes with
  | empty =>
      apply Returns.ok
      refine ⟨⟨?_, refines.thrs, refines.sos.erase so, grounded⟩,
        Extends.refl _⟩
      simpa [SO.refs, refs] using counted
  | @holds viR viW clocks denotes =>
      rw [SO.refs_add] at counted
      apply (rcdec_returns_cons counted).bind
      rintro tab₁ ⟨counted₁, same₁⟩
      apply (rcdec_returns_cons counted₁).bind
      rintro tab₂ ⟨counted₂, same₂⟩
      have grown : VtsTab.Extends hb.tab tab₂ :=
        Extends.of_clock_eq (same₂.trans same₁)
      apply Returns.pure
      exact ⟨⟨counted₂,
        refines.thrs.mono fun _ _ known => known.mono grown,
        (refines.sos.mono fun _ _ known => known.mono grown).erase so,
        grounded⟩, grown⟩

theorem soDealloc_simulates (refines : hb.Refines others abs) {thr so : Nat}
    (allowed : abs.step (.soDealloc thr so) = some abs') :
    Returns (hb.soDealloc so) (hb.Simulates others abs') := by
  simp only [AbsHb.step, Option.bind_eq_bind, Option.bind_eq_some_iff,
    Option.some.injEq] at allowed
  obtain ⟨_, _, contents, atSO, rfl⟩ := allowed
  exact soDealloc_returns refines atSO

theorem sentId_returns {tab : VtsTab} {refs : Multiset Nat} {old mine : Nat}
    {vOld vMine : VTS} (counted : tab.Counted refs)
    (oldKnown : tab.clock old = some vOld)
    (mineKnown : tab.clock mine = some vMine) (strong : Bool) :
    Returns (sentId tab strong old mine)
      (Yields tab refs (if strong then vMine else vOld.join vMine)) := by
  cases strong with
  | true => exact Returns.ok ⟨counted, Extends.refl _, mineKnown⟩
  | false => exact join2_returns counted oldKnown mineKnown

theorem recvId_returns {tab : VtsTab} {rest : Multiset Nat}
    {mine posted : Nat} {vMine vPosted : VTS}
    (counted : tab.Counted (mine ::ₘ rest))
    (mineKnown : tab.clock mine = some vMine)
    (postedKnown : tab.clock posted = some vPosted) :
    Returns (recvId tab mine posted) (fun result =>
      Yields tab (result.2 ::ₘ rest) (vMine.join vPosted) result) := by
  unfold recvId
  apply (rcdec_returns_cons counted).bind
  rintro tab₁ ⟨counted₁, same₁⟩
  rw [← same₁] at mineKnown postedKnown
  apply (join2_returns counted₁ mineKnown postedKnown).bind
  rintro ⟨tab₂, vi⟩ ⟨counted₂, grown₂, known⟩
  apply (rcinc_returns counted₂ known).bind
  rintro tab₃ ⟨counted₃, same₃⟩
  apply Returns.pure
  refine ⟨counted₃, ?_, ?_⟩
  · exact (Extends.of_clock_eq same₁).trans
      (grown₂.trans (Extends.of_clock_eq same₃))
  · rw [same₃]
    exact known

theorem soSendInto_returns {tab : VtsTab} {thr : Thr} {record : SO}
    {clocks : Clocks} {contents : Option Clocks} {rest : Multiset Nat}
    (counted : tab.Counted (record.refs + rest))
    (thrDenotes : tab.Denotes thr.viR thr.viW clocks)
    (soDenotes : SODenotes tab record contents) (strong : Bool) :
    Returns (soSendInto tab thr record strong) (fun result =>
      result.1.Counted (Thr.refs ⟨result.2.1, result.2.2⟩ + rest) ∧
      VtsTab.Extends tab result.1 ∧
      result.1.Denotes result.2.1 result.2.2
        (AbsHb.sent contents clocks strong)) := by
  unfold soSendInto
  cases soDenotes with
  | empty =>
      dsimp only
      rw [tlAssert_of rfl]
      apply (rcinc_returns counted thrDenotes.read).bind
      rintro tab₁ ⟨counted₁, same₁⟩
      have denotes₁ := thrDenotes.mono (Extends.of_clock_eq same₁)
      apply (rcinc_returns counted₁ denotes₁.write).bind
      rintro tab₂ ⟨counted₂, same₂⟩
      have grown : VtsTab.Extends tab tab₂ :=
        Extends.of_clock_eq (same₂.trans same₁)
      apply Returns.pure
      refine ⟨?_, grown, thrDenotes.mono grown⟩
      rw [Thr.refs_add, Multiset.cons_swap]
      simpa [SO.refs] using counted₂
  | @holds oldR oldW old oldDenotes =>
      rw [SO.refs_add] at counted
      dsimp only
      apply (rcdec_returns_cons counted).bind
      rintro tab₁ ⟨counted₁, same₁⟩
      apply (rcdec_returns_cons counted₁).bind
      rintro tab₂ ⟨counted₂, same₂⟩
      have grown₂ : VtsTab.Extends tab tab₂ :=
        Extends.of_clock_eq (same₂.trans same₁)
      have mine := thrDenotes.mono grown₂
      have theirs := oldDenotes.mono grown₂
      apply (sentId_returns counted₂ theirs.read mine.read strong).bind
      rintro ⟨tab₃, viR⟩ ⟨counted₃, grown₃, knownR⟩
      apply (sentId_returns counted₃ (theirs.mono grown₃).write
        (mine.mono grown₃).write strong).bind
      rintro ⟨tab₄, viW⟩ ⟨counted₄, grown₄, knownW⟩
      replace knownR := grown₄ _ _ knownR
      apply (rcinc_returns counted₄ knownR).bind
      rintro tab₅ ⟨counted₅, same₅⟩
      rw [← same₅] at knownR knownW
      apply (rcinc_returns counted₅ knownW).bind
      rintro tab₆ ⟨counted₆, same₆⟩
      rw [← same₆] at knownR knownW
      apply Returns.pure
      refine ⟨?_, grown₂.trans (grown₃.trans (grown₄.trans
        (Extends.of_clock_eq (same₆.trans same₅)))), ?_⟩
      · rw [Thr.refs_add, Multiset.cons_swap]
        exact counted₆
      · cases strong with
        | true => exact ⟨knownR, knownW, thrDenotes.sane⟩
        | false =>
            exact ⟨knownR, knownW, oldDenotes.sane.join thrDenotes.sane⟩

theorem soSend_simulates (refines : hb.Refines others abs) {thr so : Nat}
    {strong : Bool}
    (allowed : abs.step (.soSend thr so strong) = some abs') :
    Returns (hb.soSend thr so strong) (hb.Simulates others abs') := by
  have grounded := refines.grounded.step allowed
  simp only [AbsHb.step, Option.bind_eq_bind, Option.bind_eq_some_iff,
    Option.some.injEq] at allowed
  obtain ⟨clocks, atThr, contents, atSO, rfl⟩ := allowed
  obtain ⟨t, thrBound, denotes⟩ := refines.thrs.of_some atThr
  obtain ⟨record, soBound, soDenotes⟩ := refines.sos.of_some atSO
  have total : hb.refs + others = record.refs + (t.refs +
      ((hb.thrs.erase thr).total Thr.refs + (hb.sos.erase so).total SO.refs
        + others)) := by
    simp only [refs, AList.total_eq_of_lookup Thr.refs thrBound,
      AList.total_eq_of_lookup SO.refs soBound]
    abel
  have counted := refines.counted
  rw [total] at counted
  unfold soSend
  rw [getThr_of thrBound, getSO_of soBound]
  simp only [ok_bind]
  apply (getOrdering_returns counted denotes.write denotes.read).bind
  rintro ⟨tab₁, ord⟩ ⟨counted₁, same₁, verdict⟩
  dsimp only at verdict
  have sane : ord.isLeq = true := by
    rw [verdict, VTS.cmp_isLeq_iff]
    exact denotes.sane
  have grown₁ : VtsTab.Extends hb.tab tab₁ := Extends.of_clock_eq same₁
  simp only [tlAssert_of sane, ok_bind]
  apply (soSendInto_returns counted₁ (denotes.mono grown₁)
    (soDenotes.mono grown₁) strong).bind
  rintro ⟨tab₂, soR, soW⟩ ⟨counted₂, grown₂, sentDenotes⟩
  have swap : Thr.refs ⟨soR, soW⟩ + (t.refs +
      ((hb.thrs.erase thr).total Thr.refs + (hb.sos.erase so).total SO.refs
        + others)) = t.refs + (Thr.refs ⟨soR, soW⟩ +
      ((hb.thrs.erase thr).total Thr.refs + (hb.sos.erase so).total SO.refs
        + others)) := by
    abel
  dsimp only at counted₂ sentDenotes
  rw [swap] at counted₂
  apply (moveAlong_returns thr counted₂
    (denotes.mono (grown₁.trans grown₂))).bind
  rintro ⟨tab₃, moved⟩ ⟨counted₃, grown₃, movedDenotes⟩
  have grown := grown₁.trans (grown₂.trans grown₃)
  apply Returns.pure
  refine ⟨⟨?_, ?_, ?_, grounded⟩, grown⟩
  · have final : refs ⟨tab₃, hb.thrs.insert thr moved,
        hb.sos.insert so ⟨some soR, some soW⟩⟩ + others =
        moved.refs + (Thr.refs ⟨soR, soW⟩ +
          ((hb.thrs.erase thr).total Thr.refs +
            (hb.sos.erase so).total SO.refs + others)) := by
      simp only [refs, AList.total_insert, SO.refs, Thr.refs,
        Option.toList_some, Multiset.coe_singleton]
      abel
    rw [final]
    exact counted₃
  · exact (refines.thrs.mono fun _ _ known => known.mono grown).insert thr
      movedDenotes
  · exact (refines.sos.mono fun _ _ known => known.mono grown).insert so
      (.holds (sentDenotes.mono grown₃))

/-- Replacing the ids of one thread. -/
theorem Refines.insertThr (refines : hb.Refines others abs) {thr : Nat}
    {new : Thr} {tab : VtsTab} {clocks : Clocks}
    (counted : tab.Counted (new.refs + (hb.refsWithoutThr thr + others)))
    (grown : VtsTab.Extends hb.tab tab)
    (denotes : tab.Denotes new.viR new.viW clocks)
    (grounded : (abs.setThr thr clocks).Grounded) :
    Refines ⟨tab, hb.thrs.insert thr new, hb.sos⟩ others
      (abs.setThr thr clocks) := by
  refine ⟨?_, ?_, ?_, grounded⟩
  · have total : refs ⟨tab, hb.thrs.insert thr new, hb.sos⟩ + others =
        new.refs + (hb.refsWithoutThr thr + others) := by
      simp only [refs, refsWithoutThr, AList.total_insert]
      abel
    rw [total]
    exact counted
  · exact (refines.thrs.mono fun _ _ known => known.mono grown).insert thr
      denotes
  · exact refines.sos.mono fun _ _ known => known.mono grown

/-- A change of the table alone. -/
theorem Refines.withTab (refines : hb.Refines others abs) {tab : VtsTab}
    (counted : tab.Counted (hb.refs + others))
    (grown : VtsTab.Extends hb.tab tab) :
    Refines { hb with tab := tab } others abs where
  counted := counted
  thrs := refines.thrs.mono fun _ _ known => known.mono grown
  sos := refines.sos.mono fun _ _ known => known.mono grown
  grounded := refines.grounded

theorem soRecv_simulates (refines : hb.Refines others abs) {thr so : Nat}
    {strong : Bool}
    (allowed : abs.step (.soRecv thr so strong) = some abs') :
    Returns (hb.soRecv thr so strong) (hb.Simulates others abs') := by
  have grounded := refines.grounded.step allowed
  simp only [AbsHb.step, Option.bind_eq_bind, Option.bind_eq_some_iff,
    Option.some.injEq] at allowed
  obtain ⟨clocks, atThr, contents, atSO, rfl⟩ := allowed
  obtain ⟨t, thrBound, denotes⟩ := refines.thrs.of_some atThr
  obtain ⟨record, soBound, soDenotes⟩ := refines.sos.of_some atSO
  unfold soRecv
  rw [getThr_of thrBound, getSO_of soBound]
  simp only [ok_bind]
  cases soDenotes with
  | empty =>
      apply Returns.ok
      have same : abs.setThr thr clocks = abs := by
        simp [AbsHb.setThr, ← atThr]
      simp only [AbsHb.received, same]
      exact ⟨refines, Extends.refl _⟩
  | @holds soR soW posted soDenotes =>
      have counted := refines.counted
      rw [refs_eq_of_thr thrBound, add_assoc, Thr.refs_add] at counted
      dsimp only
      apply (recvId_returns counted denotes.read soDenotes.read).bind
      rintro ⟨tab₁, viR⟩ ⟨counted₁, grown₁, knownR⟩
      dsimp only at counted₁ grown₁ knownR
      cases strong with
      | true =>
          simp only [if_true]
          rw [Multiset.cons_swap] at counted₁
          apply (recvId_returns counted₁ (denotes.mono grown₁).write
            (soDenotes.mono grown₁).write).bind
          rintro ⟨tab₂, viW⟩ ⟨counted₂, grown₂, knownW⟩
          apply Returns.pure
          refine ⟨refines.insertThr ?_ (grown₁.trans grown₂)
            ⟨grown₂ _ _ knownR, knownW, ?_⟩ grounded, grown₁.trans grown₂⟩
          · rw [Thr.refs_add, Multiset.cons_swap]
            exact counted₂
          · exact denotes.sane.join soDenotes.sane
      | false =>
          simp only [Bool.false_eq_true, if_false]
          apply Returns.pure
          refine ⟨refines.insertThr ?_ grown₁
            ⟨knownR, (denotes.mono grown₁).write, ?_⟩ grounded, grown₁⟩
          · rw [Thr.refs_add]
            exact counted₁
          · exact le_trans denotes.sane (VTS.le_join_left _ _)

theorem step_simulates (refines : hb.Refines others abs) {op : SyncOp}
    (allowed : abs.step op = some abs') :
    Returns (hb.step op) (hb.Simulates others abs') := by
  have actor : ∀ thr clocks, abs.thrs thr = some clocks →
      ∃ record, hb.getThr thr = .ok record := by
    intro thr clocks atThr
    obtain ⟨record, bound, _⟩ := refines.thrs.of_some atThr
    exact ⟨record, getThr_of bound⟩
  cases op with
  | create thr child => exact create_simulates refines allowed
  | soAlloc thr so =>
      obtain ⟨clocks, atThr, _⟩ := Option.bind_eq_some_iff.mp allowed
      obtain ⟨record, found⟩ := actor thr clocks atThr
      simp only [step, found, ok_bind]
      exact soAlloc_simulates refines allowed
  | soDealloc thr so =>
      obtain ⟨clocks, atThr, _⟩ := Option.bind_eq_some_iff.mp allowed
      obtain ⟨record, found⟩ := actor thr clocks atThr
      simp only [step, found, ok_bind]
      exact soDealloc_simulates refines allowed
  | soSend thr so strong => exact soSend_simulates refines allowed
  | soRecv thr so strong => exact soRecv_simulates refines allowed

end Operations

end Hb
end HelgrindPlus
