import HelgrindPlus.LibHB.HbOps

/-!
# Threads and synchronisation objects of the hybrid builds

The file `libhb_uka_so_api.h`, which replaces the clock interface when one of
the hybrid memory state machines is built in.  A thread and an object have one
clock each.  `AbsUka` is the same interface over the timestamps themselves.
-/

namespace HelgrindPlus

open Outcome VtsTab

structure UkaHb where
  tab : VtsTab
  thrs : AList (fun _ : Nat => Nat)
  sos : AList (fun _ : Nat => Option Nat)

namespace UkaHb

def getThr (hb : UkaHb) (thr : Nat) : Except Abort Nat :=
  match hb.thrs.lookup thr with
  | some vid => .ok vid
  | none => .error .dangling

/-- The test `so->magic == SO_MAGIC`. -/
def getSO (hb : UkaHb) (so : Nat) : Except Abort (Option Nat) :=
  match hb.sos.lookup so with
  | some vid => .ok vid
  | none => .error .tlAssert

def zalloc (hb : UkaHb) (addr : Nat) : Except Abort Unit :=
  if hb.thrs.lookup addr = none ∧ hb.sos.lookup addr = none then .ok ()
  else .error .dangling

def init (root : Nat) : Except Abort UkaHb := do
  let (tab, vi) ← VtsTab.init.mkSingleton root
  let tab ← tab.rcinc vi
  pure ⟨tab, AList.singleton root vi, ∅⟩

/-- The lines that move the clock of the calling thread along one step. -/
def moveAlong (tab : VtsTab) (vid me : Nat) :
    Except Abort (VtsTab × Nat) := do
  let tab ← tab.rcdec vid
  let (tab, vid) ← tab.tick vid me
  let tab ← tab.rcinc vid
  pure (tab, vid)

/-- A new table and, where a memory state machine has assigned one, a new
clock for a thread. -/
def exchange (hb : UkaHb) (tab : VtsTab) (thr : Nat) : Option Nat → UkaHb
  | none => { hb with tab := tab }
  | some vid => { hb with tab := tab, thrs := hb.thrs.insert thr vid }

def create (hb : UkaHb) (parent child : Nat) : Except Abort UkaHb := do
  let vid ← hb.getThr parent
  hb.zalloc child
  let (tab, childVid) ← hb.tab.tick vid child
  let tab ← tab.rcinc childVid
  let own ← tab.indexAt childVid child
  tlAssert (own = 1)
  let (tab, vid) ← moveAlong tab vid parent
  pure { hb with
    tab := tab
    thrs := (hb.thrs.insert child childVid).insert parent vid }

def soAlloc (hb : UkaHb) (so : Nat) : Except Abort UkaHb := do
  hb.zalloc so
  pure { hb with sos := hb.sos.insert so none }

def soDealloc (hb : UkaHb) (so : Nat) : Except Abort UkaHb := do
  let record ← hb.getSO so
  match record with
  | none => pure { hb with sos := hb.sos.erase so }
  | some vid => do
      let tab ← hb.tab.rcdec vid
      pure { hb with tab := tab, sos := hb.sos.erase so }

/-- The first half of `libhb_so_send`: the new contents of the object. -/
def soSendInto (tab : VtsTab) (vid : Nat) (record : Option Nat)
    (strong : Bool) : Except Abort (VtsTab × Nat) :=
  match record with
  | none => do
      let tab ← tab.rcinc vid
      pure (tab, vid)
  | some old => do
      let tab ← tab.rcdec old
      let (tab, new) ← Hb.sentId tab strong old vid
      let tab ← tab.rcinc new
      pure (tab, new)

def soSend (hb : UkaHb) (thr so : Nat) (strong : Bool) :
    Except Abort UkaHb := do
  let vid ← hb.getThr thr
  let record ← hb.getSO so
  let (tab, posted) ← soSendInto hb.tab vid record strong
  let (tab, vid) ← moveAlong tab vid thr
  pure ⟨tab, hb.thrs.insert thr vid, hb.sos.insert so (some posted)⟩

/-- A strong receive differs from a weak one only in what is printed. -/
def soRecv (hb : UkaHb) (thr so : Nat) : Except Abort UkaHb := do
  let vid ← hb.getThr thr
  let record ← hb.getSO so
  match record with
  | none => pure hb
  | some posted => do
      let (tab, vid) ← Hb.recvId hb.tab vid posted
      pure { hb with tab := tab, thrs := hb.thrs.insert thr vid }

/-- The new contents of the first object in `libhb_so_join`. -/
def soJoinInto (tab : VtsTab) : Option Nat → Nat →
    Except Abort (VtsTab × Nat)
  | none, other => do
      let tab ← tab.rcinc other
      pure (tab, other)
  | some own, other => Hb.recvId tab own other

def soJoin (hb : UkaHb) (so other : Nat) : Except Abort UkaHb := do
  let record ← hb.getSO so
  let recordOther ← hb.getSO other
  match recordOther with
  | none => .error .tlAssert
  | some posted => do
      let (tab, vid) ← soJoinInto hb.tab record posted
      pure { hb with tab := tab, sos := hb.sos.insert so (some vid) }

def soExtract (hb : UkaHb) (thr so : Nat) : Except Abort UkaHb := do
  hb.zalloc so
  let vid ← hb.getThr thr
  let tab ← hb.tab.rcinc vid
  pure { hb with tab := tab, sos := hb.sos.insert so (some vid) }

/-- The function `libhb_so_everSent`, which does not look at `magic`. -/
def soEverSent (hb : UkaHb) (so : Nat) : Except Abort Bool :=
  match hb.sos.lookup so with
  | none => .error .dangling
  | some record => .ok record.isSome

def step (hb : UkaHb) : SyncOp → Except Abort UkaHb
  | .create thr child => hb.create thr child
  | .soAlloc thr so => do
      let _ ← hb.getThr thr
      hb.soAlloc so
  | .soDealloc thr so => do
      let _ ← hb.getThr thr
      hb.soDealloc so
  | .soSend thr so strong => hb.soSend thr so strong
  | .soRecv thr so _ => hb.soRecv thr so

def perform (hb : UkaHb) : HbOp → Except Abort UkaHb
  | .sync op => hb.step op
  | .soJoin so1 so2 => hb.soJoin so1 so2
  | .soExtract thr so => hb.soExtract thr so
  | .soEverSent so => do
      let _ ← hb.soEverSent so
      pure hb

end UkaHb

structure AbsUka where
  thrs : Nat → Option VTS
  sos : Nat → Option (Option VTS)

namespace AbsUka

def init (root : Nat) : AbsUka where
  thrs := Function.update (fun _ => none) root
    (some (VTS.singleton root 1 Nat.one_pos))
  sos := fun _ => none

def setThr (abs : AbsUka) (thr : Nat) (clock : VTS) : AbsUka :=
  { abs with thrs := Function.update abs.thrs thr (some clock) }

def setSO (abs : AbsUka) (so : Nat) (contents : Option VTS) : AbsUka :=
  { abs with sos := Function.update abs.sos so (some contents) }

def unused (abs : AbsUka) (addr : Nat) : Bool :=
  (abs.thrs addr).isNone && (abs.sos addr).isNone

/-- What a send leaves in the object. -/
def sent (old : Option VTS) (clock : VTS) (strong : Bool) : VTS :=
  match old with
  | none => clock
  | some contents => if strong then clock else contents.join clock

def joined (own : Option VTS) (other : VTS) : VTS :=
  match own with
  | none => other
  | some clock => clock.join other

def received (clock : VTS) : Option VTS → VTS
  | none => clock
  | some posted => clock.join posted

def getThr (abs : AbsUka) (thr : Nat) : Except Abort VTS :=
  match abs.thrs thr with
  | some clock => .ok clock
  | none => .error .dangling

def getSO (abs : AbsUka) (so : Nat) : Except Abort (Option VTS) :=
  match abs.sos so with
  | some contents => .ok contents
  | none => .error .tlAssert

def zalloc (abs : AbsUka) (addr : Nat) : Except Abort Unit :=
  if abs.unused addr then .ok () else .error .dangling

def soAlloc (abs : AbsUka) (so : Nat) : Except Abort AbsUka := do
  abs.zalloc so
  pure (abs.setSO so none)

def soDealloc (abs : AbsUka) (so : Nat) : Except Abort AbsUka := do
  let _ ← abs.getSO so
  pure { abs with sos := Function.update abs.sos so none }

def step (abs : AbsUka) : SyncOp → Except Abort AbsUka
  | .create thr child => do
      let clock ← abs.getThr thr
      abs.zalloc child
      pure ((abs.setThr child (clock.tick child)).setThr thr
        (clock.tick thr))
  | .soAlloc thr so => do
      let _ ← abs.getThr thr
      abs.soAlloc so
  | .soDealloc thr so => do
      let _ ← abs.getThr thr
      abs.soDealloc so
  | .soSend thr so strong => do
      let clock ← abs.getThr thr
      let contents ← abs.getSO so
      pure ((abs.setSO so (some (sent contents clock strong))).setThr thr
        (clock.tick thr))
  | .soRecv thr so _ => do
      let clock ← abs.getThr thr
      let contents ← abs.getSO so
      pure (abs.setThr thr (received clock contents))

def soJoin (abs : AbsUka) (so other : Nat) : Except Abort AbsUka := do
  let own ← abs.getSO so
  let contents ← abs.getSO other
  match contents with
  | none => .error .tlAssert
  | some posted => pure (abs.setSO so (some (joined own posted)))

def soExtract (abs : AbsUka) (thr so : Nat) : Except Abort AbsUka := do
  abs.zalloc so
  let clock ← abs.getThr thr
  pure (abs.setSO so (some clock))

def perform (abs : AbsUka) : HbOp → Except Abort AbsUka
  | .sync op => abs.step op
  | .soJoin so1 so2 => abs.soJoin so1 so2
  | .soExtract thr so => abs.soExtract thr so
  | .soEverSent so =>
      match abs.sos so with
      | some _ => .ok abs
      | none => .error .dangling

/-- No clock mentions a thread that does not exist yet. -/
structure Grounded (abs : AbsUka) : Prop where
  thrs : ∀ thr clock, abs.thrs thr = some clock → ∀ idx,
    abs.thrs idx = none → clock.indexAt idx = 0
  sos : ∀ so clock, abs.sos so = some (some clock) → ∀ idx,
    abs.thrs idx = none → clock.indexAt idx = 0

theorem Grounded.init (root : Nat) : (AbsUka.init root).Grounded := by
  constructor
  · intro thr clock stored idx unknown
    unfold AbsUka.init at stored unknown
    dsimp only at stored unknown
    have different : idx ≠ root := by
      rintro rfl
      rw [Function.update_self] at unknown
      cases unknown
    by_cases same : thr = root
    · rw [same, Function.update_self] at stored
      cases stored
      simp [different]
    · rw [Function.update_of_ne same] at stored
      cases stored
  · intro so clock stored
    cases stored

theorem Grounded.setThr {abs : AbsUka} (grounded : abs.Grounded) (thr : Nat)
    {clock : VTS} (mentions : ∀ idx, idx ≠ thr → abs.thrs idx = none →
      clock.indexAt idx = 0) : (abs.setThr thr clock).Grounded := by
  have before : ∀ idx, (abs.setThr thr clock).thrs idx = none →
      idx ≠ thr ∧ abs.thrs idx = none := by
    intro idx unknown
    unfold AbsUka.setThr at unknown
    dsimp only at unknown
    by_cases same : idx = thr
    · rw [same, Function.update_self] at unknown
      cases unknown
    · rw [Function.update_of_ne same] at unknown
      exact ⟨same, unknown⟩
  constructor
  · intro other found stored idx unknown
    obtain ⟨different, unknown⟩ := before idx unknown
    unfold AbsUka.setThr at stored
    dsimp only at stored
    by_cases same : other = thr
    · rw [same, Function.update_self] at stored
      cases stored
      exact mentions idx different unknown
    · rw [Function.update_of_ne same] at stored
      exact grounded.thrs other found stored idx unknown
  · intro so found stored idx unknown
    exact grounded.sos so found stored idx (before idx unknown).2

theorem Grounded.setSO {abs : AbsUka} (grounded : abs.Grounded) (so : Nat)
    {contents : Option VTS} (mentions : ∀ clock, contents = some clock →
      ∀ idx, abs.thrs idx = none → clock.indexAt idx = 0) :
    (abs.setSO so contents).Grounded := by
  refine ⟨grounded.thrs, ?_⟩
  intro other found stored idx unknown
  unfold AbsUka.setSO at stored
  dsimp only at stored
  by_cases same : other = so
  · rw [same, Function.update_self] at stored
    exact mentions found (Option.some.inj stored) idx unknown
  · rw [Function.update_of_ne same] at stored
    exact grounded.sos other found stored idx unknown

theorem Grounded.dropSO {abs : AbsUka} (grounded : abs.Grounded) (so : Nat) :
    Grounded { abs with sos := Function.update abs.sos so none } := by
  refine ⟨grounded.thrs, ?_⟩
  intro other found stored idx unknown
  dsimp only at stored
  by_cases same : other = so
  · rw [same, Function.update_self] at stored
    cases stored
  · rw [Function.update_of_ne same] at stored
    exact grounded.sos other found stored idx unknown

/-- A clock that mentions only threads that exist. -/
def Mentions (abs : AbsUka) (vts : VTS) : Prop :=
  ∀ idx, abs.thrs idx = none → vts.indexAt idx = 0

theorem Mentions.mono {abs after : AbsUka} {vts : VTS}
    (mentions : abs.Mentions vts)
    (threads : ∀ idx, after.thrs idx = none → abs.thrs idx = none) :
    after.Mentions vts :=
  fun idx unknown => mentions idx (threads idx unknown)

theorem thrs_of_setThr {abs : AbsUka} {thr idx : Nat} {clock : VTS}
    (unknown : (abs.setThr thr clock).thrs idx = none) :
    abs.thrs idx = none := by
  unfold setThr at unknown
  dsimp only at unknown
  by_cases same : idx = thr
  · rw [same, Function.update_self] at unknown
    cases unknown
  · rwa [Function.update_of_ne same] at unknown

/-- Threads stay. -/
theorem thrs_of_step {abs after : AbsUka} {op : SyncOp} {idx : Nat}
    (done : abs.step op = .ok after) (unknown : after.thrs idx = none) :
    abs.thrs idx = none := by
  cases op with
  | create thr child =>
      obtain ⟨clock, -, done⟩ := bind_eq_ok.mp done
      obtain ⟨_, -, done⟩ := bind_eq_ok.mp done
      cases done
      exact thrs_of_setThr (thrs_of_setThr unknown)
  | soAlloc thr so =>
      obtain ⟨clock, -, done⟩ := bind_eq_ok.mp done
      obtain ⟨_, -, done⟩ := bind_eq_ok.mp done
      cases done
      exact unknown
  | soDealloc thr so =>
      obtain ⟨clock, -, done⟩ := bind_eq_ok.mp done
      obtain ⟨_, -, done⟩ := bind_eq_ok.mp done
      cases done
      exact unknown
  | soSend thr so strong =>
      obtain ⟨clock, -, done⟩ := bind_eq_ok.mp done
      obtain ⟨contents, -, done⟩ := bind_eq_ok.mp done
      cases done
      exact thrs_of_setThr unknown
  | soRecv thr so strong =>
      obtain ⟨clock, -, done⟩ := bind_eq_ok.mp done
      obtain ⟨contents, -, done⟩ := bind_eq_ok.mp done
      cases done
      exact thrs_of_setThr unknown

theorem thrs_of_perform {abs after : AbsUka} {op : HbOp} {idx : Nat}
    (done : abs.perform op = .ok after) (unknown : after.thrs idx = none) :
    abs.thrs idx = none := by
  cases op with
  | sync op => exact thrs_of_step done unknown
  | soJoin so1 so2 =>
      obtain ⟨own, -, done⟩ := bind_eq_ok.mp done
      obtain ⟨contents, -, done⟩ := bind_eq_ok.mp done
      cases contents with
      | none => cases done
      | some posted =>
          cases done
          exact unknown
  | soExtract thr so =>
      obtain ⟨_, -, done⟩ := bind_eq_ok.mp done
      obtain ⟨clock, -, done⟩ := bind_eq_ok.mp done
      cases done
      exact unknown
  | soEverSent so =>
      unfold perform at done
      dsimp only at done
      split at done
      · cases done
        exact unknown
      · cases done

end AbsUka

namespace UkaHb

/-- An object is empty or holds an id. -/
inductive SODenotes (tab : VtsTab) : Option Nat → Option VTS → Prop where
  | empty : SODenotes tab none none
  | holds {vid : Nat} {clock : VTS} (known : tab.clock vid = some clock) :
      SODenotes tab (some vid) (some clock)

theorem SODenotes.mono {tab after : VtsTab} {so : Option Nat}
    {contents : Option VTS} (denotes : SODenotes tab so contents)
    (grown : Extends tab after) : SODenotes after so contents := by
  cases denotes with
  | empty => exact .empty
  | holds known => exact .holds (grown _ _ known)

def soRefs (so : Option Nat) : Multiset Nat := (so.toList : Multiset Nat)

/-- The references that threads and live objects hold. -/
def refs (hb : UkaHb) : Multiset Nat :=
  hb.thrs.total (fun vid => {vid}) + hb.sos.total soRefs

/-- The table counts the references of `hb` and the references `others` that
are held elsewhere. -/
structure Refines (hb : UkaHb) (others : Multiset Nat) (abs : AbsUka) :
    Prop where
  counted : hb.tab.Counted (hb.refs + others)
  thrs : hb.tab.Represents (fun tab vid clock => tab.clock vid = some clock)
    hb.thrs abs.thrs
  sos : hb.tab.Represents SODenotes hb.sos abs.sos
  grounded : abs.Grounded

/-- What every operation of the interface promises. -/
def Simulates (hb : UkaHb) (others : Multiset Nat) (result : UkaHb)
    (abs' : AbsUka) : Prop :=
  result.Refines others abs' ∧ Extends hb.tab result.tab

section Operations

variable {hb : UkaHb} {others : Multiset Nat} {abs : AbsUka} {thr so : Nat}

theorem Refines.init (root : Nat) :
    Returns (UkaHb.init root) (fun hb => hb.Refines 0 (AbsUka.init root)) := by
  unfold UkaHb.init
  apply (mkSingleton_returns Counted.init root).bind
  rintro ⟨tab, vi⟩ ⟨counted, _, known⟩
  apply (rcinc_returns counted known).bind
  rintro tab₁ ⟨counted₁, same₁⟩
  rw [← same₁] at known
  apply Returns.pure
  refine ⟨counted₁, ?_, ?_, AbsUka.Grounded.init root⟩
  · have empty : tab₁.Represents
        (fun tab (vid : Nat) clock => tab.clock vid = some clock)
        ∅ (fun _ => none) := by
      intro key
      simp
    exact empty.insert root known
  · intro key
    simp [AbsUka.init]

theorem getThr_agrees (refines : hb.Refines others abs) (thr : Nat) :
    Agrees (hb.getThr thr) (abs.getThr thr) (fun vid clock =>
      hb.thrs.lookup thr = some vid ∧ abs.thrs thr = some clock ∧
        hb.tab.clock vid = some clock) := by
  unfold getThr AbsUka.getThr
  cases atThr : abs.thrs thr with
  | none =>
      rw [refines.thrs.of_none atThr]
      rfl
  | some clock =>
      obtain ⟨vid, bound, known⟩ := refines.thrs.of_some atThr
      rw [bound]
      exact Returns.ok ⟨rfl, rfl, known⟩

theorem getSO_agrees (refines : hb.Refines others abs) (so : Nat) :
    Agrees (hb.getSO so) (abs.getSO so) (fun record contents =>
      hb.sos.lookup so = some record ∧ abs.sos so = some contents ∧
        SODenotes hb.tab record contents) := by
  unfold getSO AbsUka.getSO
  cases atSO : abs.sos so with
  | none =>
      rw [refines.sos.of_none atSO]
      rfl
  | some contents =>
      obtain ⟨record, bound, denotes⟩ := refines.sos.of_some atSO
      rw [bound]
      exact Returns.ok ⟨rfl, rfl, denotes⟩

theorem zalloc_agrees (refines : hb.Refines others abs) (addr : Nat) :
    Agrees (hb.zalloc addr) (abs.zalloc addr) (fun _ _ =>
      abs.thrs addr = none ∧ abs.sos addr = none) := by
  unfold zalloc AbsUka.zalloc
  cases unused : abs.unused addr with
  | false =>
      have used : ¬(hb.thrs.lookup addr = none ∧
          hb.sos.lookup addr = none) := by
        rintro ⟨noThr, noSO⟩
        rw [AbsUka.unused, refines.thrs.of_unbound noThr,
          refines.sos.of_unbound noSO] at unused
        cases unused
      rw [if_neg used]
      rfl
  | true =>
      simp only [AbsUka.unused, Bool.and_eq_true,
        Option.isNone_iff_eq_none] at unused
      rw [if_pos ⟨refines.thrs.of_none unused.1,
        refines.sos.of_none unused.2⟩]
      exact Returns.ok unused

theorem moveAlong_returns {tab : VtsTab} {vid : Nat} {rest : Multiset Nat}
    {clock : VTS} (me : Nat) (counted : tab.Counted (vid ::ₘ rest))
    (known : tab.clock vid = some clock) :
    Returns (moveAlong tab vid me) (fun result =>
      Yields tab (result.2 ::ₘ rest) (clock.tick me) result) := by
  unfold moveAlong
  apply (rcdec_returns_cons counted).bind
  rintro tab₁ ⟨counted₁, same₁⟩
  rw [← same₁] at known
  apply (tick_returns counted₁ known me).bind
  rintro ⟨tab₂, vid'⟩ ⟨counted₂, grown₂, known'⟩
  apply (rcinc_returns counted₂ known').bind
  rintro tab₃ ⟨counted₃, same₃⟩
  apply Returns.pure
  refine ⟨counted₃, ?_, ?_⟩
  · exact (Extends.of_clock_eq same₁).trans
      (grown₂.trans (Extends.of_clock_eq same₃))
  · rw [same₃]
    exact known'

/-- The references apart from those of a thread. -/
theorem refs_eq_of_thr {vid : Nat} (bound : hb.thrs.lookup thr = some vid) :
    hb.refs = vid ::ₘ ((hb.thrs.erase thr).total (fun vid => {vid}) +
      hb.sos.total soRefs) := by
  unfold refs
  rw [AList.total_eq_of_lookup _ bound, add_assoc, Multiset.singleton_add]

/-- The references apart from those of an object. -/
theorem refs_eq_of_so {record : Option Nat}
    (bound : hb.sos.lookup so = some record) :
    hb.refs = soRefs record + (hb.thrs.total (fun vid => {vid}) +
      (hb.sos.erase so).total soRefs) := by
  unfold refs
  rw [AList.total_eq_of_lookup _ bound]
  abel

/-- Replacing the id of one thread. -/
theorem Refines.insertThr (refines : hb.Refines others abs) {vid : Nat}
    {tab : VtsTab} {clock : VTS} {others' : Multiset Nat}
    (counted : tab.Counted (vid ::ₘ ((hb.thrs.erase thr).total
      (fun vid => {vid}) + hb.sos.total soRefs) + others'))
    (grown : Extends hb.tab tab) (known : tab.clock vid = some clock)
    (grounded : (abs.setThr thr clock).Grounded) :
    Refines ⟨tab, hb.thrs.insert thr vid, hb.sos⟩ others'
      (abs.setThr thr clock) := by
  refine ⟨?_, ?_, ?_, grounded⟩
  · unfold refs
    rw [AList.total_insert, add_assoc ({vid} : Multiset Nat),
      Multiset.singleton_add]
    exact counted
  · exact (refines.thrs.mono fun _ _ known => grown _ _ known).insert thr
      known
  · exact refines.sos.mono fun _ _ denotes => denotes.mono grown

/-- Replacing the contents of one object. -/
theorem Refines.insertSO (refines : hb.Refines others abs)
    {record : Option Nat} {tab : VtsTab} {contents : Option VTS}
    (counted : tab.Counted (soRefs record + (hb.thrs.total
      (fun vid => {vid}) + (hb.sos.erase so).total soRefs) + others))
    (grown : Extends hb.tab tab) (denotes : SODenotes tab record contents)
    (grounded : (abs.setSO so contents).Grounded) :
    Refines ⟨tab, hb.thrs, hb.sos.insert so record⟩ others
      (abs.setSO so contents) := by
  refine ⟨?_, ?_, ?_, grounded⟩
  · have total : refs ⟨tab, hb.thrs, hb.sos.insert so record⟩ =
        soRefs record + (hb.thrs.total (fun vid => {vid}) +
          (hb.sos.erase so).total soRefs) := by
      unfold refs
      rw [AList.total_insert]
      abel
    rw [total]
    exact counted
  · exact refines.thrs.mono fun _ _ known => grown _ _ known
  · exact (refines.sos.mono fun _ _ old => old.mono grown).insert so denotes

/-- A change of the table alone. -/
theorem Refines.withTab (refines : hb.Refines others abs) {tab : VtsTab}
    {others' : Multiset Nat} (counted : tab.Counted (hb.refs + others'))
    (grown : Extends hb.tab tab) :
    Refines { hb with tab := tab } others' abs where
  counted := counted
  thrs := refines.thrs.mono fun _ _ known => grown _ _ known
  sos := refines.sos.mono fun _ _ denotes => denotes.mono grown
  grounded := refines.grounded

@[simp] theorem exchange_tab (hb : UkaHb) (tab : VtsTab) (thr : Nat)
    (vid : Option Nat) : (hb.exchange tab thr vid).tab = tab := by
  cases vid <;> rfl

/-- A thread that has exchanged its clock, or kept it. -/
theorem Refines.exchange (refines : hb.Refines others abs) {clock : VTS}
    (atThr : abs.thrs thr = some clock) {vid : Nat} {tab : VtsTab}
    {found : Option Nat} {expected : Option VTS} {others' : Multiset Nat}
    (counted : tab.Counted (found.getD vid ::ₘ
      ((hb.thrs.erase thr).total (fun vid => {vid}) +
        hb.sos.total soRefs + others')))
    (bound : hb.thrs.lookup thr = some vid)
    (grown : Extends hb.tab tab)
    (moved : Option.Rel (fun ii vts => tab.clock ii = some vts) found
      expected)
    (mentions : ∀ idx, idx ≠ thr → abs.thrs idx = none →
      (expected.getD clock).indexAt idx = 0) :
    ∃ abs' : AbsUka, (hb.exchange tab thr found).Refines others' abs' ∧
      (∀ idx, abs'.thrs idx = none ↔ abs.thrs idx = none) ∧
      abs'.thrs thr = some (expected.getD clock) := by
  cases moved with
  | none =>
      refine ⟨abs, ?_, fun idx => Iff.rfl, atThr⟩
      apply refines.withTab _ grown
      rw [refs_eq_of_thr bound, Multiset.cons_add]
      exact counted
  | @some ii vts known =>
      refine ⟨abs.setThr thr vts, ?_, ?_, ?_⟩
      · apply refines.insertThr _ grown known
        · exact refines.grounded.setThr thr mentions
        · rw [Multiset.cons_add]
          exact counted
      · intro idx
        unfold AbsUka.setThr
        dsimp only
        by_cases same : idx = thr
        · simp [same, atThr]
        · rw [Function.update_of_ne same]
      · exact Function.update_self _ _ _

private theorem create_agrees (refines : hb.Refines others abs)
    (parent child : Nat) :
    Agrees (hb.create parent child) (abs.step (.create parent child))
      (hb.Simulates others) := by
  unfold create AbsUka.step
  apply (getThr_agrees refines parent).bind
  rintro vid clock ⟨bound, atParent, known⟩
  apply (zalloc_agrees refines child).bind
  rintro - - ⟨noThr, -⟩
  have fresh := refines.thrs.of_none noThr
  have unmentioned := refines.grounded.thrs parent clock atParent child noThr
  change Returns _ (hb.Simulates others · _)
  apply (tick_returns refines.counted known child).bind
  rintro ⟨tab₁, childVid⟩ ⟨counted₁, grown₁, childKnown⟩
  apply (rcinc_returns counted₁ childKnown).bind
  rintro tab₂ ⟨counted₂, same₂⟩
  rw [← same₂] at childKnown
  have one : (clock.tick child).indexAt child = 1 := by
    simp [VTS.indexAt_tick, unmentioned]
  dsimp only at childKnown ⊢
  rw [indexAt_of childKnown, ok_bind, tlAssert_of one, ok_bind]
  have grown₂ : Extends hb.tab tab₂ :=
    grown₁.trans (Extends.of_clock_eq same₂)
  have split : childVid ::ₘ (hb.refs + others) =
      vid ::ₘ (childVid ::ₘ ((hb.thrs.erase parent).total
        (fun vid => {vid}) + hb.sos.total soRefs) + others) := by
    rw [refs_eq_of_thr bound, Multiset.cons_add, Multiset.cons_add,
      Multiset.cons_swap]
  dsimp only at counted₂
  rw [split] at counted₂
  apply (moveAlong_returns parent counted₂ (grown₂ _ _ known)).bind
  rintro ⟨tab₃, moved⟩ ⟨counted₃, grown₃, movedKnown⟩
  apply Returns.pure
  have grown := grown₂.trans grown₃
  have different : parent ≠ child := by
    rintro rfl
    rw [bound] at fresh
    cases fresh
  refine ⟨⟨?_, ?_, ?_, ?_⟩, grown⟩
  · have inner : (hb.thrs.insert child childVid).lookup parent =
        some vid := by
      rw [AList.lookup_insert_ne different, bound]
    have total : ((hb.thrs.insert child childVid).insert parent moved).total
        (fun vid => ({vid} : Multiset Nat)) =
        moved ::ₘ childVid ::ₘ (hb.thrs.erase parent).total
          (fun vid => {vid}) := by
      have twice := AList.total_eq_of_lookup
        (fun vid => ({vid} : Multiset Nat)) inner
      rw [AList.total_insert, AList.total_erase_of_notBound _ fresh,
        AList.total_eq_of_lookup _ bound] at twice
      rw [AList.total_insert]
      have cancel : childVid ::ₘ (hb.thrs.erase parent).total
          (fun vid => ({vid} : Multiset Nat)) =
          ((hb.thrs.insert child childVid).erase parent).total
            (fun vid => {vid}) := by
        apply add_left_cancel (a := ({vid} : Multiset Nat))
        rw [← twice, ← Multiset.singleton_add]
        abel
      rw [← cancel, Multiset.singleton_add]
    unfold refs
    dsimp only
    rw [total, Multiset.cons_add, Multiset.cons_add, Multiset.cons_add]
    exact counted₃
  · exact ((refines.thrs.mono fun _ _ old => grown _ _ old).insert child
      (grown₃ _ _ childKnown)).insert parent movedKnown
  · exact refines.sos.mono fun _ _ denotes => denotes.mono grown
  · have withChild : (abs.setThr child (clock.tick child)).Grounded := by
      apply refines.grounded.setThr
      intro idx other unknown
      simp [VTS.indexAt_tick, other,
        refines.grounded.thrs parent clock atParent idx unknown]
    apply withChild.setThr
    intro idx other unknown
    have before : abs.thrs idx = none := by
      unfold AbsUka.setThr at unknown
      dsimp only at unknown
      by_cases isChild : idx = child
      · rw [isChild, Function.update_self] at unknown
        cases unknown
      · rwa [Function.update_of_ne isChild] at unknown
    simp [VTS.indexAt_tick, other,
      refines.grounded.thrs parent clock atParent idx before]

theorem soAlloc_agrees (refines : hb.Refines others abs) (so : Nat) :
    Agrees (hb.soAlloc so) (abs.soAlloc so) (hb.Simulates others) := by
  unfold soAlloc AbsUka.soAlloc
  apply (zalloc_agrees refines so).bind
  rintro - - ⟨-, noSO⟩
  apply Returns.pure
  refine ⟨refines.insertSO ?_ (Extends.refl _) .empty
    (refines.grounded.setSO so nofun), Extends.refl _⟩
  have total : soRefs none + (hb.thrs.total (fun vid => {vid}) +
      (hb.sos.erase so).total soRefs) = hb.refs := by
    rw [AList.total_erase_of_notBound _ (refines.sos.of_none noSO)]
    exact zero_add _
  rw [total]
  exact refines.counted

theorem soDealloc_agrees (refines : hb.Refines others abs) (so : Nat) :
    Agrees (hb.soDealloc so) (abs.soDealloc so) (hb.Simulates others) := by
  unfold soDealloc AbsUka.soDealloc
  apply (getSO_agrees refines so).bind
  rintro record contents ⟨bound, -, denotes⟩
  change Returns _ (hb.Simulates others · _)
  have counted := refines.counted
  rw [refs_eq_of_so bound, add_assoc] at counted
  cases denotes with
  | empty =>
      apply Returns.pure
      refine ⟨⟨?_, refines.thrs, refines.sos.erase so,
        refines.grounded.dropSO so⟩, Extends.refl _⟩
      rwa [show soRefs none = 0 from rfl, zero_add] at counted
  | @holds vid clock known =>
      rw [show soRefs (some vid) = {vid} from rfl,
        Multiset.singleton_add] at counted
      apply (rcdec_returns_cons counted).bind
      rintro tab₁ ⟨counted₁, same₁⟩
      have grown : Extends hb.tab tab₁ := Extends.of_clock_eq same₁
      apply Returns.pure
      exact ⟨⟨counted₁, refines.thrs.mono fun _ _ old => grown _ _ old,
        (refines.sos.mono fun _ _ old => old.mono grown).erase so,
        refines.grounded.dropSO so⟩, grown⟩

theorem soSendInto_returns {tab : VtsTab} {vid : Nat} {record : Option Nat}
    {clock : VTS} {contents : Option VTS} {rest : Multiset Nat}
    (counted : tab.Counted (soRefs record + rest))
    (known : tab.clock vid = some clock)
    (denotes : SODenotes tab record contents) (strong : Bool) :
    Returns (soSendInto tab vid record strong) (fun result =>
      Yields tab (result.2 ::ₘ rest) (AbsUka.sent contents clock strong)
        result) := by
  unfold soSendInto
  cases denotes with
  | empty =>
      rw [show soRefs none = 0 from rfl, zero_add] at counted
      apply (rcinc_returns counted known).bind
      rintro tab₁ ⟨counted₁, same₁⟩
      apply Returns.pure
      refine ⟨counted₁, Extends.of_clock_eq same₁, ?_⟩
      rw [same₁]
      exact known
  | @holds old vOld oldKnown =>
      rw [show soRefs (some old) = {old} from rfl,
        Multiset.singleton_add] at counted
      apply (rcdec_returns_cons counted).bind
      rintro tab₁ ⟨counted₁, same₁⟩
      rw [← same₁] at known oldKnown
      apply (Hb.sentId_returns counted₁ oldKnown known strong).bind
      rintro ⟨tab₂, new⟩ ⟨counted₂, grown₂, newKnown⟩
      apply (rcinc_returns counted₂ newKnown).bind
      rintro tab₃ ⟨counted₃, same₃⟩
      apply Returns.pure
      refine ⟨counted₃, ?_, ?_⟩
      · exact (Extends.of_clock_eq same₁).trans
          (grown₂.trans (Extends.of_clock_eq same₃))
      · rw [same₃]
        exact newKnown

theorem grounded_sent {strong : Bool} {clock : VTS} {contents : Option VTS}
    (grounded : abs.Grounded) (atThr : abs.thrs thr = some clock)
    (atSO : abs.sos so = some contents) (idx : Nat)
    (unknown : abs.thrs idx = none) :
    (AbsUka.sent contents clock strong).indexAt idx = 0 := by
  have mine := grounded.thrs thr clock atThr idx unknown
  cases contents with
  | none => exact mine
  | some old =>
      have theirs := grounded.sos so old atSO idx unknown
      cases strong with
      | true => exact mine
      | false => simp [AbsUka.sent, mine, theirs]

private theorem soSend_agrees (refines : hb.Refines others abs) (thr so : Nat)
    (strong : Bool) :
    Agrees (hb.soSend thr so strong) (abs.step (.soSend thr so strong))
      (hb.Simulates others) := by
  unfold soSend AbsUka.step
  apply (getThr_agrees refines thr).bind
  rintro vid clock ⟨bound, atThr, known⟩
  apply (getSO_agrees refines so).bind
  rintro record contents ⟨soBound, atSO, denotes⟩
  change Returns _ (hb.Simulates others · _)
  have counted := refines.counted
  rw [refs_eq_of_so soBound, add_assoc] at counted
  apply (soSendInto_returns counted known denotes strong).bind
  rintro ⟨tab₁, posted⟩ ⟨counted₁, grown₁, postedKnown⟩
  dsimp only at counted₁ grown₁ postedKnown
  have split : posted ::ₘ (hb.thrs.total (fun vid => {vid}) +
      (hb.sos.erase so).total soRefs + others) =
      vid ::ₘ (posted ::ₘ ((hb.thrs.erase thr).total (fun vid => {vid}) +
        (hb.sos.erase so).total soRefs + others)) := by
    rw [AList.total_eq_of_lookup _ bound, Multiset.cons_swap]
    simp only [← Multiset.singleton_add]
    abel
  rw [split] at counted₁
  apply (moveAlong_returns thr counted₁ (grown₁ _ _ known)).bind
  rintro ⟨tab₂, moved⟩ ⟨counted₂, grown₂, movedKnown⟩
  dsimp only at counted₂ grown₂ movedKnown
  have grown := grown₁.trans grown₂
  apply Returns.pure
  refine ⟨⟨?_, ?_, ?_, ?_⟩, grown⟩
  · have total : refs ⟨tab₂, hb.thrs.insert thr moved,
        hb.sos.insert so (some posted)⟩ + others =
        moved ::ₘ posted ::ₘ ((hb.thrs.erase thr).total (fun vid => {vid}) +
          (hb.sos.erase so).total soRefs + others) := by
      unfold refs
      dsimp only
      rw [AList.total_insert, AList.total_insert,
        show soRefs (some posted) = {posted} from rfl]
      simp only [← Multiset.singleton_add]
      abel
    rw [total]
    exact counted₂
  · exact (refines.thrs.mono fun _ _ old => grown _ _ old).insert thr
      movedKnown
  · exact (refines.sos.mono fun _ _ old => old.mono grown).insert so
      (.holds (grown₂ _ _ postedKnown))
  · have withSO : (abs.setSO so
        (some (AbsUka.sent contents clock strong))).Grounded := by
      apply refines.grounded.setSO
      intro stored same
      cases same
      exact grounded_sent refines.grounded atThr atSO
    apply withSO.setThr
    intro idx other unknown
    simp [VTS.indexAt_tick, other,
      refines.grounded.thrs thr clock atThr idx unknown]

private theorem soRecv_agrees (refines : hb.Refines others abs) (thr so : Nat)
    (strong : Bool) :
    Agrees (hb.soRecv thr so) (abs.step (.soRecv thr so strong))
      (hb.Simulates others) := by
  unfold soRecv AbsUka.step
  apply (getThr_agrees refines thr).bind
  rintro vid clock ⟨bound, atThr, known⟩
  apply (getSO_agrees refines so).bind
  rintro record contents ⟨soBound, atSO, denotes⟩
  change Returns _ (hb.Simulates others · _)
  cases denotes with
  | empty =>
      have same : abs.setThr thr clock = abs := by
        simp [AbsUka.setThr, ← atThr]
      apply Returns.pure
      simp only [AbsUka.received, same]
      exact ⟨refines, Extends.refl _⟩
  | @holds posted vPosted postedKnown =>
      have counted := refines.counted
      rw [refs_eq_of_thr bound, Multiset.cons_add] at counted
      apply (Hb.recvId_returns counted known postedKnown).bind
      rintro ⟨tab₁, vid'⟩ ⟨counted₁, grown₁, known'⟩
      apply Returns.pure
      refine ⟨refines.insertThr ?_ grown₁ known' ?_, grown₁⟩
      · rw [Multiset.cons_add]
        exact counted₁
      · apply refines.grounded.setThr
        intro idx _ unknown
        simp [AbsUka.received,
          refines.grounded.thrs thr clock atThr idx unknown,
          refines.grounded.sos so vPosted atSO idx unknown]

theorem soJoinInto_returns {tab : VtsTab} {record : Option Nat} {other : Nat}
    {clock : VTS} {contents : Option VTS} {rest : Multiset Nat}
    (counted : tab.Counted (soRefs record + rest))
    (known : tab.clock other = some clock)
    (denotes : SODenotes tab record contents) :
    Returns (soJoinInto tab record other) (fun result =>
      Yields tab (result.2 ::ₘ rest) (AbsUka.joined contents clock)
        result) := by
  cases denotes with
  | empty =>
      rw [show soRefs none = 0 from rfl, zero_add] at counted
      apply (rcinc_returns counted known).bind
      rintro tab₁ ⟨counted₁, same₁⟩
      apply Returns.pure
      refine ⟨counted₁, Extends.of_clock_eq same₁, ?_⟩
      rw [same₁]
      exact known
  | @holds own vOwn ownKnown =>
      rw [show soRefs (some own) = {own} from rfl,
        Multiset.singleton_add] at counted
      exact Hb.recvId_returns counted ownKnown known

theorem soJoin_agrees (refines : hb.Refines others abs) (so other : Nat) :
    Agrees (hb.soJoin so other) (abs.soJoin so other)
      (hb.Simulates others) := by
  unfold soJoin AbsUka.soJoin
  apply (getSO_agrees refines so).bind
  rintro record contents ⟨bound, atSO, denotes⟩
  apply (getSO_agrees refines other).bind
  rintro recordOther contentsOther ⟨-, atOther, denotesOther⟩
  cases denotesOther with
  | empty => rfl
  | @holds posted vPosted postedKnown =>
      change Returns _ (hb.Simulates others · _)
      have counted := refines.counted
      rw [refs_eq_of_so bound, add_assoc] at counted
      apply (soJoinInto_returns counted postedKnown denotes).bind
      rintro ⟨tab₁, vid⟩ ⟨counted₁, grown₁, known⟩
      apply Returns.pure
      refine ⟨refines.insertSO ?_ grown₁ (.holds known) ?_, grown₁⟩
      · rw [show soRefs (some vid) = {vid} from rfl, add_assoc,
          Multiset.singleton_add]
        exact counted₁
      · apply refines.grounded.setSO
        intro stored same idx unknown
        cases same
        have theirs := refines.grounded.sos other vPosted atOther idx unknown
        cases contents with
        | none => exact theirs
        | some own =>
            simp [AbsUka.joined, theirs,
              refines.grounded.sos so own atSO idx unknown]

theorem soExtract_agrees (refines : hb.Refines others abs) (thr so : Nat) :
    Agrees (hb.soExtract thr so) (abs.soExtract thr so)
      (hb.Simulates others) := by
  unfold soExtract AbsUka.soExtract
  apply (zalloc_agrees refines so).bind
  rintro - - ⟨-, noSO⟩
  apply (getThr_agrees refines thr).bind
  rintro vid clock ⟨bound, atThr, known⟩
  change Returns _ (hb.Simulates others · _)
  apply (rcinc_returns refines.counted known).bind
  rintro tab₁ ⟨counted₁, same₁⟩
  have grown : Extends hb.tab tab₁ := Extends.of_clock_eq same₁
  apply Returns.pure
  refine ⟨refines.insertSO ?_ grown (.holds (grown _ _ known)) ?_, grown⟩
  · rw [AList.total_erase_of_notBound _ (refines.sos.of_none noSO),
      show soRefs (some vid) = {vid} from rfl, add_assoc,
      Multiset.singleton_add]
    exact counted₁
  · apply refines.grounded.setSO
    intro stored same
    cases same
    exact refines.grounded.thrs thr clock atThr

/-- The interface refines the one over timestamps, its aborts included. -/
theorem perform_agrees (refines : hb.Refines others abs) (op : HbOp) :
    Agrees (hb.perform op) (abs.perform op) (hb.Simulates others) := by
  cases op with
  | sync op =>
      cases op with
      | create thr child => exact create_agrees refines thr child
      | soAlloc thr so =>
          apply (getThr_agrees refines thr).bind
          rintro - - -
          exact soAlloc_agrees refines so
      | soDealloc thr so =>
          apply (getThr_agrees refines thr).bind
          rintro - - -
          exact soDealloc_agrees refines so
      | soSend thr so strong => exact soSend_agrees refines thr so strong
      | soRecv thr so strong => exact soRecv_agrees refines thr so strong
  | soJoin so1 so2 => exact soJoin_agrees refines so1 so2
  | soExtract thr so => exact soExtract_agrees refines thr so
  | soEverSent so =>
      simp only [perform, AbsUka.perform, soEverSent]
      cases atSO : abs.sos so with
      | none =>
          rw [refines.sos.of_none atSO]
          rfl
      | some contents =>
          obtain ⟨record, bound, -⟩ := refines.sos.of_some atSO
          rw [bound]
          exact Returns.ok ⟨refines, Extends.refl _⟩

end Operations

end UkaHb

end HelgrindPlus
