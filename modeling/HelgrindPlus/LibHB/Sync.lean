import HelgrindPlus.LibHB.VtsTab

/-!
# Threads and synchronisation objects

The part of the "Top Level API" of `libhb_core.c` that moves clocks about, in
the build without a separate memory state machine.  The address that
`HG_(zalloc)` hands out for a new `Thr` or `SO` is a parameter of the
operation; threads are never freed and a synchronisation object is live
exactly while it carries `SO_MAGIC`.

`AbsHb` is the same interface over the timestamps themselves.
-/

namespace HelgrindPlus

open Outcome

structure Thr where
  viR : Nat
  viW : Nat
  deriving DecidableEq

structure SO where
  viR : Option Nat
  viW : Option Nat
  deriving DecidableEq

structure Hb where
  tab : VtsTab
  thrs : AList (fun _ : Nat => Thr)
  sos : AList (fun _ : Nat => SO)

namespace Hb

def getThr (hb : Hb) (thr : Nat) : Except Abort Thr :=
  match hb.thrs.lookup thr with
  | some record => .ok record
  | none => .error .dangling

/-- The test `so->magic == SO_MAGIC`. -/
def getSO (hb : Hb) (so : Nat) : Except Abort SO :=
  match hb.sos.lookup so with
  | some record => .ok record
  | none => .error .tlAssert

/-- `HG_(zalloc)` does not return an address that is in use. -/
def zalloc (hb : Hb) (addr : Nat) : Except Abort Unit :=
  if hb.thrs.lookup addr = none ∧ hb.sos.lookup addr = none then .ok ()
  else .error .dangling

def init (root : Nat) : Except Abort Hb := do
  let (tab, vi) ← VtsTab.init.mkSingleton root
  let tab ← tab.rcinc vi
  let tab ← tab.rcinc vi
  pure ⟨tab, AList.singleton root ⟨vi, vi⟩, ∅⟩

/-- The lines by which `libhb_create` and `libhb_so_send` move the clocks of
the calling thread along one step. -/
def moveAlong (tab : VtsTab) (thr : Thr) (me : Nat) :
    Except Abort (VtsTab × Thr) := do
  let tab ← tab.rcdec thr.viR
  let tab ← tab.rcdec thr.viW
  let (tab, viR) ← tab.tick thr.viR me
  let (tab, viW) ← tab.tick thr.viW me
  let tab ← tab.rcinc viR
  let tab ← tab.rcinc viW
  pure (tab, ⟨viR, viW⟩)

def create (hb : Hb) (parent child : Nat) : Except Abort Hb := do
  let p ← hb.getThr parent
  hb.zalloc child
  let (tab, childR) ← hb.tab.tick p.viR child
  let (tab, childW) ← tab.tick p.viW child
  let tab ← tab.rcinc childR
  let tab ← tab.rcinc childW
  let ownR ← tab.indexAt childR child
  tlAssert (ownR = 1)
  let ownW ← tab.indexAt childW child
  tlAssert (ownW = 1)
  let (tab, p) ← moveAlong tab p parent
  pure { hb with
    tab := tab
    thrs := (hb.thrs.insert child ⟨childR, childW⟩).insert parent p }

def soAlloc (hb : Hb) (so : Nat) : Except Abort Hb := do
  hb.zalloc so
  pure { hb with sos := hb.sos.insert so ⟨none, none⟩ }

def soDealloc (hb : Hb) (so : Nat) : Except Abort Hb := do
  let record ← hb.getSO so
  match record.viR with
  | none =>
      tlAssert (record.viW = none)
      pure { hb with sos := hb.sos.erase so }
  | some viR =>
      match record.viW with
      | none => .error .tlAssert
      | some viW =>
          let tab ← hb.tab.rcdec viR
          let tab ← tab.rcdec viW
          pure { hb with tab := tab, sos := hb.sos.erase so }

/-- The expression `strong_send ? mine : VtsID__join2(old, mine)`. -/
def sentId (tab : VtsTab) (strong : Bool) (old mine : Nat) :
    Except Abort (VtsTab × Nat) :=
  if strong then .ok (tab, mine) else tab.join2 old mine

/-- The first half of `libhb_so_send`: the new contents of the object. -/
def soSendInto (tab : VtsTab) (thr : Thr) (record : SO) (strong : Bool) :
    Except Abort (VtsTab × Nat × Nat) :=
  match record.viR with
  | none => do
      tlAssert (record.viW = none)
      let tab ← tab.rcinc thr.viR
      let tab ← tab.rcinc thr.viW
      pure (tab, thr.viR, thr.viW)
  | some oldR =>
      match record.viW with
      | none => .error .tlAssert
      | some oldW => do
          let tab ← tab.rcdec oldR
          let tab ← tab.rcdec oldW
          let (tab, viR) ← sentId tab strong oldR thr.viR
          let (tab, viW) ← sentId tab strong oldW thr.viW
          let tab ← tab.rcinc viR
          let tab ← tab.rcinc viW
          pure (tab, viR, viW)

def soSend (hb : Hb) (thr so : Nat) (strong : Bool) : Except Abort Hb := do
  let t ← hb.getThr thr
  let record ← hb.getSO so
  let (tab, ord) ← hb.tab.getOrdering t.viW t.viR
  tlAssert (ord.isLeq = true)
  let (tab, soR, soW) ← soSendInto tab t record strong
  let (tab, t) ← moveAlong tab t thr
  pure {
    tab := tab
    thrs := hb.thrs.insert thr t
    sos := hb.sos.insert so ⟨some soR, some soW⟩ }

/-- The lines that take a clock of the object into one of the thread's. -/
def recvId (tab : VtsTab) (mine posted : Nat) :
    Except Abort (VtsTab × Nat) := do
  let tab ← tab.rcdec mine
  let (tab, vi) ← tab.join2 mine posted
  let tab ← tab.rcinc vi
  pure (tab, vi)

def soRecv (hb : Hb) (thr so : Nat) (strong : Bool) : Except Abort Hb := do
  let t ← hb.getThr thr
  let record ← hb.getSO so
  match record.viR with
  | none =>
      -- Nothing has been sent, so there is nothing to receive.
      tlAssert (record.viW = none)
      pure hb
  | some soR =>
      match record.viW with
      | none => .error .tlAssert
      | some soW => do
          let (tab, viR) ← recvId hb.tab t.viR soR
          if strong then do
            let (tab, viW) ← recvId tab t.viW soW
            pure { hb with tab := tab, thrs := hb.thrs.insert thr ⟨viR, viW⟩ }
          else
            pure { hb with
              tab := tab, thrs := hb.thrs.insert thr ⟨viR, t.viW⟩ }

end Hb

/-- An operation, with the thread that performs it. -/
inductive SyncOp where
  | create (thr child : Nat)
  | soAlloc (thr so : Nat)
  | soDealloc (thr so : Nat)
  | soSend (thr so : Nat) (strong : Bool)
  | soRecv (thr so : Nat) (strong : Bool)
  deriving DecidableEq

namespace SyncOp

def thr : SyncOp → Nat
  | create thr _ | soAlloc thr _ | soDealloc thr _ | soSend thr _ _
  | soRecv thr _ _ => thr

end SyncOp

def Hb.step (hb : Hb) : SyncOp → Except Abort Hb
  | .create thr child => hb.create thr child
  | .soAlloc thr so => do
      let _ ← hb.getThr thr
      hb.soAlloc so
  | .soDealloc thr so => do
      let _ ← hb.getThr thr
      hb.soDealloc so
  | .soSend thr so strong => hb.soSend thr so strong
  | .soRecv thr so strong => hb.soRecv thr so strong

/-- A read clock and a write clock. -/
structure Clocks where
  vR : VTS
  vW : VTS
  deriving DecidableEq

namespace Clocks

def tick (clocks : Clocks) (me : Nat) : Clocks :=
  ⟨clocks.vR.tick me, clocks.vW.tick me⟩

def join (left right : Clocks) : Clocks :=
  ⟨left.vR.join right.vR, left.vW.join right.vW⟩

/-- The write clock is the same as the read clock or lags behind it. -/
def Sane (clocks : Clocks) : Prop := clocks.vW ≤ clocks.vR

theorem Sane.same (vts : VTS) : Sane ⟨vts, vts⟩ := le_refl vts

theorem Sane.tick {clocks : Clocks} (sane : clocks.Sane) (me : Nat) :
    (clocks.tick me).Sane :=
  VTS.tick_mono me sane

theorem Sane.join {left right : Clocks} (first : left.Sane)
    (second : right.Sane) : (left.join right).Sane :=
  VTS.join_mono first second

/-- A clock that mentions only threads satisfying `known`. -/
def Mentions (clocks : Clocks) (known : Nat → Prop) : Prop :=
  ∀ idx, ¬ known idx → clocks.vR.indexAt idx = 0 ∧ clocks.vW.indexAt idx = 0

theorem Mentions.mono {clocks : Clocks} {known more : Nat → Prop}
    (mentions : clocks.Mentions known) (weaker : ∀ idx, known idx → more idx) :
    clocks.Mentions more :=
  fun idx unknown => mentions idx (fun old => unknown (weaker idx old))

theorem Mentions.tick {clocks : Clocks} {known : Nat → Prop} {me : Nat}
    (mentions : clocks.Mentions known) (self : known me) :
    (clocks.tick me).Mentions known := by
  intro idx unknown
  have different : idx ≠ me := by
    rintro rfl
    exact unknown self
  simpa [Clocks.tick, VTS.indexAt_tick, different] using mentions idx unknown

theorem Mentions.join {left right : Clocks} {known : Nat → Prop}
    (first : left.Mentions known) (second : right.Mentions known) :
    (left.join right).Mentions known := by
  intro idx unknown
  simp [Clocks.join, first idx unknown, second idx unknown]

end Clocks

structure AbsHb where
  thrs : Nat → Option Clocks
  sos : Nat → Option (Option Clocks)

namespace AbsHb

def init (root : Nat) : AbsHb where
  thrs := Function.update (fun _ => none) root
    (some ⟨VTS.singleton root 1 Nat.one_pos,
      VTS.singleton root 1 Nat.one_pos⟩)
  sos := fun _ => none

def setThr (abs : AbsHb) (thr : Nat) (clocks : Clocks) : AbsHb :=
  { abs with thrs := Function.update abs.thrs thr (some clocks) }

def setSO (abs : AbsHb) (so : Nat) (contents : Option Clocks) : AbsHb :=
  { abs with sos := Function.update abs.sos so (some contents) }

def unused (abs : AbsHb) (addr : Nat) : Bool :=
  (abs.thrs addr).isNone && (abs.sos addr).isNone

/-- What a send leaves in the object. -/
def sent (old : Option Clocks) (clocks : Clocks) (strong : Bool) : Clocks :=
  match old with
  | none => clocks
  | some contents => if strong then clocks else contents.join clocks

/-- What a receive makes of the receiver's clocks. -/
def received (clocks : Clocks) (contents : Option Clocks) (strong : Bool) :
    Clocks :=
  match contents with
  | none => clocks
  | some posted =>
      if strong then clocks.join posted
      else ⟨clocks.vR.join posted.vR, clocks.vW⟩

/-- One operation; `none` if the caller does not own what it names. -/
def step (abs : AbsHb) : SyncOp → Option AbsHb
  | .create thr child => do
      let clocks ← abs.thrs thr
      if abs.unused child then
        some ((abs.setThr child (clocks.tick child)).setThr thr
          (clocks.tick thr))
      else none
  | .soAlloc thr so => do
      let _ ← abs.thrs thr
      if abs.unused so then some (abs.setSO so none) else none
  | .soDealloc thr so => do
      let _ ← abs.thrs thr
      let _ ← abs.sos so
      some { abs with sos := Function.update abs.sos so none }
  | .soSend thr so strong => do
      let clocks ← abs.thrs thr
      let contents ← abs.sos so
      some ((abs.setSO so (some (sent contents clocks strong))).setThr thr
        (clocks.tick thr))
  | .soRecv thr so strong => do
      let clocks ← abs.thrs thr
      let contents ← abs.sos so
      some (abs.setThr thr (received clocks contents strong))

def Exists (abs : AbsHb) (thr : Nat) : Prop := abs.thrs thr ≠ none

/-- No clock mentions a thread that does not exist yet. -/
structure Grounded (abs : AbsHb) : Prop where
  thrs : ∀ thr clocks, abs.thrs thr = some clocks →
    clocks.Mentions abs.Exists
  sos : ∀ so clocks, abs.sos so = some (some clocks) →
    clocks.Mentions abs.Exists

theorem Grounded.setThr {abs : AbsHb} {thr : Nat} {clocks : Clocks}
    (grounded : abs.Grounded)
    (mentions : clocks.Mentions (abs.setThr thr clocks).Exists) :
    (abs.setThr thr clocks).Grounded := by
  have weaker : ∀ idx, abs.Exists idx → (abs.setThr thr clocks).Exists idx := by
    intro idx old
    by_cases same : idx = thr
    · simp [Exists, AbsHb.setThr, same]
    · simpa [Exists, AbsHb.setThr, same] using old
  constructor
  · intro other found stored
    by_cases same : other = thr
    · subst same
      simp only [AbsHb.setThr, Function.update_self, Option.some.injEq]
        at stored
      subst stored
      exact mentions
    · simp only [AbsHb.setThr, Function.update_of_ne same] at stored
      exact (grounded.thrs other found stored).mono weaker
  · intro so found stored
    exact (grounded.sos so found stored).mono weaker

theorem Grounded.setSO {abs : AbsHb} {so : Nat} {contents : Option Clocks}
    (grounded : abs.Grounded)
    (mentions : ∀ clocks, contents = some clocks →
      clocks.Mentions abs.Exists) :
    (abs.setSO so contents).Grounded := by
  refine ⟨grounded.thrs, ?_⟩
  intro other found stored
  by_cases same : other = so
  · subst same
    simp only [AbsHb.setSO, Function.update_self, Option.some.injEq] at stored
    exact mentions found stored
  · simp only [AbsHb.setSO, Function.update_of_ne same] at stored
    exact grounded.sos other found stored

theorem Grounded.dropSO {abs : AbsHb} (grounded : abs.Grounded) (so : Nat) :
    Grounded { abs with sos := Function.update abs.sos so none } := by
  refine ⟨grounded.thrs, ?_⟩
  intro other clocks stored
  by_cases same : other = so
  · simp [same] at stored
  · simp only [Function.update_of_ne same] at stored
    exact grounded.sos other clocks stored

theorem Grounded.init (root : Nat) : (AbsHb.init root).Grounded := by
  constructor
  · intro thr clocks stored idx unknown
    have different : idx ≠ root := by
      rintro rfl
      simp [Exists, AbsHb.init] at unknown
    by_cases same : thr = root
    · subst same
      simp only [AbsHb.init, Function.update_self, Option.some.injEq]
        at stored
      subst stored
      simp [different]
    · simp [AbsHb.init, same] at stored
  · intro so clocks stored
    simp [AbsHb.init] at stored

theorem Grounded.step {abs abs' : AbsHb} {op : SyncOp}
    (grounded : abs.Grounded) (allowed : abs.step op = some abs') :
    abs'.Grounded := by
  cases op with
  | create thr child =>
      simp only [AbsHb.step, Option.bind_eq_bind, Option.bind_eq_some_iff,
        Option.ite_none_right_eq_some, Option.some.injEq] at allowed
      obtain ⟨clocks, atThr, _, rfl⟩ := allowed
      have known := grounded.thrs thr clocks atThr
      have withChild : (abs.setThr child (clocks.tick child)).Grounded := by
        apply grounded.setThr
        apply Clocks.Mentions.tick
        · apply known.mono
          intro idx old
          by_cases same : idx = child
          · simp [Exists, AbsHb.setThr, same]
          · simpa [Exists, AbsHb.setThr, same] using old
        · simp [Exists, AbsHb.setThr]
      apply withChild.setThr
      apply Clocks.Mentions.tick
      · apply known.mono
        intro idx old
        by_cases isThr : idx = thr
        · simp [Exists, AbsHb.setThr, isThr]
        · by_cases isChild : idx = child
          · simp [Exists, AbsHb.setThr, ← isChild, isThr]
          · simpa [Exists, AbsHb.setThr, isThr, isChild] using old
      · simp [Exists, AbsHb.setThr]
  | soAlloc thr so =>
      simp only [AbsHb.step, Option.bind_eq_bind, Option.bind_eq_some_iff,
        Option.ite_none_right_eq_some, Option.some.injEq] at allowed
      obtain ⟨_, _, _, rfl⟩ := allowed
      apply grounded.setSO
      intro clocks impossible
      cases impossible
  | soDealloc thr so =>
      simp only [AbsHb.step, Option.bind_eq_bind, Option.bind_eq_some_iff,
        Option.some.injEq] at allowed
      obtain ⟨_, _, _, _, rfl⟩ := allowed
      exact grounded.dropSO so
  | soSend thr so strong =>
      simp only [AbsHb.step, Option.bind_eq_bind, Option.bind_eq_some_iff,
        Option.some.injEq] at allowed
      obtain ⟨clocks, atThr, contents, atSO, rfl⟩ := allowed
      have known := grounded.thrs thr clocks atThr
      have self : abs.Exists thr := by simp [Exists, atThr]
      have posted : (abs.setSO so (some (sent contents clocks strong))).Grounded
          := by
        apply grounded.setSO
        intro stored same
        cases same
        cases contents with
        | none => exact known
        | some old =>
            cases strong with
            | true => exact known
            | false => exact (grounded.sos so old atSO).join known
      apply posted.setThr
      have keeps : ∀ idx, abs.Exists idx →
          ((abs.setSO so (some (sent contents clocks strong))).setThr thr
            (clocks.tick thr)).Exists idx := by
        intro idx old
        by_cases same : idx = thr
        · simp [Exists, AbsHb.setThr, same]
        · simpa [Exists, AbsHb.setThr, AbsHb.setSO, same] using old
      exact (known.mono keeps).tick (keeps thr self)
  | soRecv thr so strong =>
      simp only [AbsHb.step, Option.bind_eq_bind, Option.bind_eq_some_iff,
        Option.some.injEq] at allowed
      obtain ⟨clocks, atThr, contents, atSO, rfl⟩ := allowed
      have known := grounded.thrs thr clocks atThr
      apply grounded.setThr
      have result : Clocks.Mentions (received clocks contents strong)
          abs.Exists := by
        cases contents with
        | none => exact known
        | some posted =>
            have joined := known.join (grounded.sos so posted atSO)
            cases strong with
            | true => exact joined
            | false =>
                exact fun idx unknown =>
                  ⟨(joined idx unknown).1, (known idx unknown).2⟩
      apply result.mono
      intro idx old
      by_cases same : idx = thr
      · simp [Exists, AbsHb.setThr, same]
      · simpa [Exists, AbsHb.setThr, same] using old

end AbsHb

end HelgrindPlus
