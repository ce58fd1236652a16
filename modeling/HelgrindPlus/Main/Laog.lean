import HelgrindPlus.Main.Holding
import HelgrindPlus.Main.WordSetHandles
import Mathlib.Algebra.GroupWithZero.Nat
import Mathlib.Data.List.Sort

/-!
# The lock acquisition order graph

The section of `hg_main.c` on `laog`.  An edge from one lock to another says
that the first was held when the second was acquired.  The graph is stored
twice, as the successors and as the predecessors of each lock, in sets of the
universe `univ_laog`.

`laog__init`, which the functions call when there is no graph yet, makes the
empty graph that a run starts with here.  The sets of locks of a thread, which
live in a universe of their own, are finite sets as in the rest of the model.
-/

namespace HelgrindPlus

open Outcome

structure LAOGLinks where
  inns : Nat
  outs : Nat
  deriving DecidableEq

/-- `exposition` holds the addresses of the edges for which both places of
acquisition are known. -/
structure Laog where
  univ : WordSetU
  links : AList (fun _ : Nat => LAOGLinks)
  exposition : List (Nat × Nat)

/-- The arguments of `HG_(record_error_LockOrder)`; `placed` tells whether it
is given the places of acquisition. -/
structure LockOrder where
  thr : Nat
  beforeGa : Nat
  afterGa : Nat
  placed : Bool
  deriving DecidableEq

namespace Laog

def succs (laog : Laog) (lk : Nat) : Nat :=
  match laog.links.lookup lk with
  | some links => links.outs
  | none => laog.univ.emptyWS

def preds (laog : Laog) (lk : Nat) : Nat :=
  match laog.links.lookup lk with
  | some links => links.inns
  | none => laog.univ.emptyWS

/-- The update of the out edges in `laog__add_edge`, with `presentF`. -/
def addOut (laog : Laog) (src dst : Nat) : Except Abort (Laog × Bool) :=
  match laog.links.lookup src with
  | some links => do
      let (univ, outsNew) ← laog.univ.addToWS links.outs dst
      pure ({ laog with
        univ := univ
        links := laog.links.insert src { links with outs := outsNew } },
        outsNew = links.outs)
  | none => do
      let inns := laog.univ.emptyWS
      let (univ, outs) ← laog.univ.singletonWS dst
      pure ({ laog with
        univ := univ
        links := laog.links.insert src ⟨inns, outs⟩ }, false)

/-- The update of the in edges, with `presentR`. -/
def addInn (laog : Laog) (src dst : Nat) : Except Abort (Laog × Bool) :=
  match laog.links.lookup dst with
  | some links => do
      let (univ, innsNew) ← laog.univ.addToWS links.inns src
      pure ({ laog with
        univ := univ
        links := laog.links.insert dst { links with inns := innsNew } },
        innsNew = links.inns)
  | none => do
      let (univ, inns) ← laog.univ.singletonWS src
      let outs := univ.emptyWS
      pure ({ laog with
        univ := univ
        links := laog.links.insert dst ⟨inns, outs⟩ }, false)

/-- An edge that enters the graph is noted with its places of acquisition, if
there are any. -/
def expose (laog : Laog) (st : LockTab) (src dst : Nat) :
    Except Abort Laog := do
  let srcLock ← st.deref src
  if srcLock.acquiredAt then do
    let dstLock ← st.deref dst
    let expo := (srcLock.guestaddr, dstLock.guestaddr)
    if dstLock.acquiredAt ∧ expo ∉ laog.exposition then
      pure { laog with exposition := expo :: laog.exposition }
    else pure laog
  else pure laog

def addEdge (laog : Laog) (st : LockTab) (src dst : Nat) :
    Except Abort Laog := do
  let (laog, presentF) ← laog.addOut src dst
  let (laog, presentR) ← laog.addInn src dst
  tlAssert ((presentF ∧ presentR) ∨ (¬ presentF ∧ ¬ presentR))
  if presentF then pure laog else laog.expose st src dst

def delOut (laog : Laog) (src dst : Nat) : Except Abort Laog :=
  match laog.links.lookup src with
  | some links => do
      let (univ, outs) ← laog.univ.delFromWS links.outs dst
      pure { laog with
        univ := univ
        links := laog.links.insert src { links with outs := outs } }
  | none => .ok laog

def delInn (laog : Laog) (src dst : Nat) : Except Abort Laog :=
  match laog.links.lookup dst with
  | some links => do
      let (univ, inns) ← laog.univ.delFromWS links.inns src
      pure { laog with
        univ := univ
        links := laog.links.insert dst { links with inns := inns } }
  | none => .ok laog

def delEdge (laog : Laog) (src dst : Nat) : Except Abort Laog := do
  let laog ← laog.delOut src dst
  laog.delInn src dst

/-- One of the two loops of `laog__sanity_check`: every word has `me` in its
set in the other direction. -/
def checkBack (laog : Laog) (back : Nat → Nat) (me ws : Nat) :
    Except Abort Unit := do
  let words ← laog.univ.getPayloadWS ws
  words.forM fun word => do
    let known ← laog.univ.elemWS (back word) me
    tlAssert (known = true)

def sanityCheck (laog : Laog) : Except Abort Unit :=
  laog.links.entries.forM fun entry => do
    laog.checkBack laog.succs entry.1 entry.2.inns
    laog.checkBack laog.preds entry.1 entry.2.outs

/-- The successors that are stored for a lock. -/
def outs (laog : Laog) (lk : Nat) : List Nat :=
  (laog.univ.ix2vec[laog.succs lk]?).getD []

/-- The predecessors that are stored for a lock. -/
def inns (laog : Laog) (lk : Nat) : List Nat :=
  (laog.univ.ix2vec[laog.preds lk]?).getD []

/-- The loop of `laog__do_dfs_from_to`, whose stack ends with the head of the
list.  Each round takes one lock off the stack, and each lock puts its
successors there at most once. -/
def dfsLoop (laog : Laog) (dsts : List Nat) :
    Nat → List Nat → List Nat → Except Abort (Option Nat)
  | 0, _, _ => .error .tlAssert
  | _ + 1, [], _ => .ok none
  | rounds + 1, here :: stack, visited =>
      if here ∈ dsts then .ok (some here)
      else if here ∈ visited then laog.dfsLoop dsts rounds stack visited
      else do
        let words ← laog.univ.getPayloadWS (laog.succs here)
        laog.dfsLoop dsts rounds (words.reverse ++ stack) (here :: visited)

def doDfsFromTo (laog : Laog) (src : Nat) (dsts : List Nat) :
    Except Abort (Option Nat) :=
  if dsts = [] then .ok none
  else
    let pushes := (laog.links.keys.map fun lk => (laog.outs lk).length).sum
    laog.dfsLoop dsts (pushes + 2) [src] []

/-- `HG_(getPayloadWS)` on the locks of a thread. -/
def lockWords (lockset : Finset Nat) : List Nat :=
  Quot.liftOn lockset.1 (List.insertionSort (· ≤ ·)) fun _ _ perm =>
    ((List.perm_insertionSort _ _).trans (perm.trans
      (List.perm_insertionSort _ _).symm)).eq_of_pairwise
      (fun _ _ _ _ => Nat.le_antisymm)
      (List.pairwise_insertionSort _ _) (List.pairwise_insertionSort _ _)

/-- The complaint about a lock that should have been acquired before
`other`. -/
def lockOrder (laog : Laog) (st : LockTab) (thr lk other : Nat) :
    Except Abort LockOrder := do
  let lkLock ← st.deref lk
  let otherLock ← st.deref other
  pure ⟨thr, lkLock.guestaddr, otherLock.guestaddr,
    decide ((lkLock.guestaddr, otherLock.guestaddr) ∈ laog.exposition)⟩

/-- The pair of a lock that the thread holds and the one it acquires. -/
def addOld (st : LockTab) (lk : Nat) (laog : Laog) (old : Nat) :
    Except Abort Laog := do
  let oldLock ← st.deref old
  tlAssert (oldLock.acquiredAt = true)
  laog.addEdge st old lk

/-- `laog__pre_thread_acquires_lock`, with the call of
`HG_(record_error_LockOrder)` that it makes, if any. -/
def preThreadAcquiresLock (laog : Laog) (st : LockTab) (thr lk : Nat) :
    Except Abort (Laog × Option LockOrder) := do
  let thread ← st.getThread thr
  if lk ∈ thread.locksetA then pure (laog, none)
  else do
    let words := lockWords thread.locksetA
    let other ← laog.doDfsFromTo lk words
    let order ← other.mapM (laog.lockOrder st thr lk)
    let lkLock ← st.deref lk
    tlAssert (lkLock.acquiredAt = true)
    let laog ← words.foldlM (addOld st lk) laog
    pure (laog, order)

/-- `laog__handle_one_lock_deletion`.  The payloads are those of the sets
before the first edge goes. -/
def handleOneLockDeletion (laog : Laog) (st : LockTab) (lk : Nat) :
    Except Abort Laog := do
  let preds := laog.preds lk
  let succs := laog.succs lk
  let predsWords ← laog.univ.getPayloadWS preds
  let laog ← predsWords.foldlM (fun laog pred => laog.delEdge pred lk) laog
  let succsWords ← laog.univ.getPayloadWS succs
  let laog ← succsWords.foldlM (fun laog succ => laog.delEdge lk succ) laog
  predsWords.foldlM (fun laog pred =>
    succsWords.foldlM (fun laog succ =>
      if pred ≠ succ then laog.addEdge st pred succ else pure laog) laog) laog

/-- No graph yet. -/
def init : Except Abort Laog := do
  let univ ← WordSetU.newWordSetU 24
  pure ⟨univ, ∅, []⟩

/-- The sets of successors and of predecessors, as relations. -/
structure Stores (laog : Laog) (out inn : Nat → Nat → Prop) : Prop where
  wf : WordSetU.WF laog.univ
  succs : ∀ a, ∃ set, WordSetU.Denotes laog.univ.ix2vec (laog.succs a) set ∧
    ∀ b, b ∈ set ↔ out a b
  preds : ∀ b, ∃ set, WordSetU.Denotes laog.univ.ix2vec (laog.preds b) set ∧
    ∀ a, a ∈ set ↔ inn a b

section Edges

open WordSetU

variable {laog laog' : Laog} {out out' inn inn' edge : Nat → Nat → Prop}
  {st : LockTab} {src dst lk : Nat}

private theorem mem_of_denotes {univ : WordSetU} {ws b : Nat} {set : Finset Nat}
    (denotes : Denotes univ.ix2vec ws set) :
    b ∈ (univ.ix2vec[ws]?).getD [] ↔ b ∈ set := by
  obtain ⟨wv, known, rfl⟩ := denotes
  simp [known]

theorem Stores.mem_outs (stores : Stores laog out inn) {a b : Nat} :
    b ∈ laog.outs a ↔ out a b := by
  obtain ⟨set, denotes, members⟩ := stores.succs a
  exact (mem_of_denotes denotes).trans (members b)

theorem Stores.mem_inns (stores : Stores laog out inn) {a b : Nat} :
    a ∈ laog.inns b ↔ inn a b := by
  obtain ⟨set, denotes, members⟩ := stores.preds b
  exact (mem_of_denotes denotes).trans (members a)

/-- The links of one lock are replaced, in a universe that may have grown. -/
theorem Stores.update (stores : Stores laog out inn) {univ : WordSetU}
    {key : Nat} {links : LAOGLinks} {outSet innSet : Finset Nat}
    (grows : Grows laog.univ univ)
    (outDenotes : Denotes univ.ix2vec links.outs outSet)
    (innDenotes : Denotes univ.ix2vec links.inns innSet)
    (outHere : ∀ b, b ∈ outSet ↔ out' key b)
    (innHere : ∀ a, a ∈ innSet ↔ inn' a key)
    (outElse : ∀ a b, a ≠ key → (out' a b ↔ out a b))
    (innElse : ∀ a b, b ≠ key → (inn' a b ↔ inn a b)) :
    Stores { laog with univ := univ, links := laog.links.insert key links }
      out' inn' where
  wf := grows.wf stores.wf
  succs := by
    intro a
    by_cases same : a = key
    · subst same
      refine ⟨outSet, ?_, outHere⟩
      simpa [Laog.succs] using outDenotes
    · obtain ⟨set, denotes, members⟩ := stores.succs a
      refine ⟨set, ?_, fun b => (members b).trans (outElse a b same).symm⟩
      have moved := denotes.mono grows.grown
      unfold Laog.succs at moved ⊢
      rw [AList.lookup_insert_ne same]
      split at moved <;> simp_all [emptyWS, grows.sameEmpty]
  preds := by
    intro b
    by_cases same : b = key
    · subst same
      refine ⟨innSet, ?_, innHere⟩
      simpa [Laog.preds] using innDenotes
    · obtain ⟨set, denotes, members⟩ := stores.preds b
      refine ⟨set, ?_, fun a => (members a).trans (innElse a b same).symm⟩
      have moved := denotes.mono grows.grown
      unfold Laog.preds at moved ⊢
      rw [AList.lookup_insert_ne same]
      split at moved <;> simp_all [emptyWS, grows.sameEmpty]

/-- A set and the one with a word added have the same handle if the word was
there. -/
theorem eq_handle_iff {univ : WordSetU} {old new w : Nat} {set : Finset Nat}
    (table : Table univ) (oldDenotes : Denotes univ.ix2vec old set)
    (newDenotes : Denotes univ.ix2vec new (insert w set)) :
    new = old ↔ w ∈ set := by
  constructor
  · intro same
    subst same
    rw [oldDenotes.unique newDenotes]
    exact Finset.mem_insert_self w set
  · intro present
    rw [Finset.insert_eq_self.mpr present] at newDenotes
    exact table.denotes_injective newDenotes oldDenotes

private theorem addOut_returns (stores : Stores laog out inn) (src dst : Nat) :
    Returns (laog.addOut src dst) (fun result =>
      Stores result.1 (fun a b => out a b ∨ (a = src ∧ b = dst)) inn ∧
      (result.2 = true ↔ out src dst)) := by
  obtain ⟨outSet, outDenotes, outMembers⟩ := stores.succs src
  obtain ⟨innSet, innDenotes, innMembers⟩ := stores.preds src
  unfold addOut
  unfold Laog.succs at outDenotes
  unfold Laog.preds at innDenotes
  cases known : laog.links.lookup src with
  | some links =>
      simp only [known] at outDenotes innDenotes ⊢
      apply (stores.wf.addToWS_returns outDenotes dst).bind
      intro result yields
      obtain ⟨univ, outsNew⟩ := result
      obtain ⟨grows, newDenotes⟩ := yields
      have oldDenotes := outDenotes.mono grows.grown
      refine .pure ⟨stores.update grows newDenotes
        (innDenotes.mono grows.grown) ?_ innMembers ?_ (fun a b _ => .rfl), ?_⟩
      · intro b
        simp only [Finset.mem_insert, outMembers, true_and]
        tauto
      · intro a b different
        simp [different]
      · rw [decide_eq_true_eq, eq_handle_iff grows.table oldDenotes newDenotes]
        exact outMembers dst
  | none =>
      simp only [known] at outDenotes innDenotes ⊢
      have empty : outSet = ∅ := outDenotes.unique stores.wf.denotes_empty
      apply (stores.wf.singletonWS_returns dst).bind
      intro result yields
      obtain ⟨univ, outsNew⟩ := result
      obtain ⟨grows, newDenotes⟩ := yields
      have nothing : ∀ b, ¬ out src b := by
        intro b
        rw [← outMembers, empty]
        exact Finset.notMem_empty b
      refine .pure ⟨stores.update grows newDenotes
        (innDenotes.mono grows.grown) ?_ innMembers ?_ (fun a b _ => .rfl), ?_⟩
      · intro b
        simp [nothing]
      · intro a b different
        simp [different]
      · simp [nothing]

private theorem addInn_returns (stores : Stores laog out inn) (src dst : Nat) :
    Returns (laog.addInn src dst) (fun result =>
      Stores result.1 out (fun a b => inn a b ∨ (a = src ∧ b = dst)) ∧
      (result.2 = true ↔ inn src dst)) := by
  obtain ⟨outSet, outDenotes, outMembers⟩ := stores.succs dst
  obtain ⟨innSet, innDenotes, innMembers⟩ := stores.preds dst
  unfold addInn
  unfold Laog.succs at outDenotes
  unfold Laog.preds at innDenotes
  cases known : laog.links.lookup dst with
  | some links =>
      simp only [known] at outDenotes innDenotes ⊢
      apply (stores.wf.addToWS_returns innDenotes src).bind
      intro result yields
      obtain ⟨univ, innsNew⟩ := result
      obtain ⟨grows, newDenotes⟩ := yields
      have oldDenotes := innDenotes.mono grows.grown
      refine .pure ⟨stores.update grows (outDenotes.mono grows.grown)
        newDenotes outMembers ?_ (fun a b _ => .rfl) ?_, ?_⟩
      · intro a
        simp only [Finset.mem_insert, innMembers, and_true]
        tauto
      · intro a b different
        simp [different]
      · rw [decide_eq_true_eq, eq_handle_iff grows.table oldDenotes newDenotes]
        exact innMembers src
  | none =>
      simp only [known] at outDenotes innDenotes ⊢
      have empty : innSet = ∅ := innDenotes.unique stores.wf.denotes_empty
      apply (stores.wf.singletonWS_returns src).bind
      intro result yields
      obtain ⟨univ, innsNew⟩ := result
      obtain ⟨grows, newDenotes⟩ := yields
      have nothing : ∀ a, ¬ inn a dst := by
        intro a
        rw [← innMembers, empty]
        exact Finset.notMem_empty a
      have outsDenote := outDenotes.mono grows.grown
      rw [emptyWS, ← grows.sameEmpty] at outsDenote
      refine .pure ⟨stores.update grows outsDenote newDenotes outMembers ?_
        (fun a b _ => .rfl) ?_, ?_⟩
      · intro a
        simp [nothing]
      · intro a b different
        simp [different]
      · simp [nothing]

/-- The two halves of the store are the same graph. -/
abbrev Shows (laog : Laog) (edge : Nat → Nat → Prop) : Prop :=
  Stores laog edge edge

theorem Stores.congr (stores : Stores laog out inn)
    (outSame : ∀ a b, out' a b ↔ out a b)
    (innSame : ∀ a b, inn' a b ↔ inn a b) : Stores laog out' inn' where
  wf := stores.wf
  succs := by
    intro a
    obtain ⟨set, denotes, members⟩ := stores.succs a
    exact ⟨set, denotes, fun b => (members b).trans (outSame a b).symm⟩
  preds := by
    intro b
    obtain ⟨set, denotes, members⟩ := stores.preds b
    exact ⟨set, denotes, fun a => (members a).trans (innSame a b).symm⟩

/-- The lock has not been freed. -/
def Live (st : LockTab) (lk : Nat) : Prop :=
  ∃ lock, st.heap.lookup lk = some lock

/-- The lock is live and its place of acquisition is known. -/
def AcquiredIn (st : LockTab) (lk : Nat) : Prop :=
  ∃ lock, st.heap.lookup lk = some lock ∧ lock.acquiredAt = true

theorem AcquiredIn.live (acquired : AcquiredIn st lk) : Live st lk := by
  obtain ⟨lock, isLock, -⟩ := acquired
  exact ⟨lock, isLock⟩

-- The lemmas below are used in two ways.  With `bad` false they say that a
-- function returns, with `bad` true what holds if it returns.
variable {bad : Prop}

theorem deref_satisfies (live : Live st lk ∨ bad) :
    Satisfies (fun _ => bad) (st.deref lk)
      (fun lock => st.heap.lookup lk = some lock) := by
  unfold LockTab.deref
  cases found : st.heap.lookup lk with
  | some lock => exact rfl
  | none =>
      rcases live with isLive | isBad
      · obtain ⟨lock, isLock⟩ := isLive
        rw [found] at isLock
        cases isLock
      · exact isBad

theorem acquired_satisfies {lock : Lock}
    (acquired : AcquiredIn st lk ∨ bad)
    (found : st.heap.lookup lk = some lock) :
    Satisfies (fun _ => bad) (tlAssert (lock.acquiredAt = true))
      (fun _ => True) := by
  unfold tlAssert
  split
  case isTrue passed => trivial
  case isFalse failed =>
    rcases acquired with ⟨other, isLock, atPlace⟩ | isBad
    · rw [found] at isLock
      cases isLock
      exact absurd atPlace failed
    · exact isBad

private theorem expose_satisfies (stores : Stores laog out inn)
    (srcLive : Live st src ∨ bad) (dstLive : Live st dst ∨ bad) :
    Satisfies (fun _ => bad) (laog.expose st src dst)
      (fun laog' => Stores laog' out inn) := by
  unfold expose
  apply (deref_satisfies srcLive).bind
  intro srcLock _
  split
  · apply (deref_satisfies dstLive).bind
    intro dstLock _
    dsimp only
    split
    · exact Satisfies.pure ⟨stores.wf, stores.succs, stores.preds⟩
    · exact Satisfies.pure stores
  · exact Satisfies.pure stores

theorem addEdge_satisfies (graph : Shows laog edge)
    (srcLive : Live st src ∨ bad) (dstLive : Live st dst ∨ bad) :
    Satisfies (fun _ => bad) (laog.addEdge st src dst) (fun laog' =>
      Shows laog' (fun a b => edge a b ∨ (a = src ∧ b = dst))) := by
  unfold addEdge
  apply (addOut_returns graph src dst).satisfies.bind
  intro first added
  obtain ⟨laog₁, presentF⟩ := first
  obtain ⟨stores₁, isPresentF⟩ := added
  apply (addInn_returns stores₁ src dst).satisfies.bind
  intro second added
  obtain ⟨laog₂, presentR⟩ := second
  obtain ⟨stores₂, isPresentR⟩ := added
  dsimp only at stores₁ isPresentF stores₂ isPresentR ⊢
  have agree : (presentF = true ∧ presentR = true) ∨
      (¬ presentF = true ∧ ¬ presentR = true) := by
    rw [isPresentF, isPresentR]
    tauto
  rw [tlAssert_of agree, ok_bind]
  split
  · exact Satisfies.pure stores₂
  · exact expose_satisfies stores₂ srcLive dstLive

private theorem delOut_returns (stores : Stores laog out inn) (src dst : Nat) :
    Returns (laog.delOut src dst) (fun laog' =>
      Stores laog' (fun a b => out a b ∧ ¬ (a = src ∧ b = dst)) inn ∧
      laog.univ.ix2vec <+: laog'.univ.ix2vec) := by
  obtain ⟨outSet, outDenotes, outMembers⟩ := stores.succs src
  obtain ⟨innSet, innDenotes, innMembers⟩ := stores.preds src
  unfold delOut
  unfold Laog.succs at outDenotes
  unfold Laog.preds at innDenotes
  cases known : laog.links.lookup src with
  | some links =>
      simp only [known] at outDenotes innDenotes ⊢
      apply (stores.wf.delFromWS_returns outDenotes dst).bind
      intro result yields
      obtain ⟨univ, outsNew⟩ := result
      obtain ⟨grows, newDenotes⟩ := yields
      refine .pure ⟨stores.update grows newDenotes
        (innDenotes.mono grows.grown) ?_ innMembers ?_ (fun a b _ => .rfl),
        grows.grown⟩
      · intro b
        simp only [Finset.mem_erase, outMembers, true_and]
        tauto
      · intro a b different
        simp [different]
  | none =>
      simp only [known] at outDenotes ⊢
      have empty : outSet = ∅ := outDenotes.unique stores.wf.denotes_empty
      have nothing : ¬ out src dst := by
        rw [← outMembers, empty]
        exact Finset.notMem_empty dst
      refine .ok ⟨stores.congr ?_ (fun a b => .rfl), List.prefix_rfl⟩
      intro a b
      constructor
      · exact fun both => both.1
      · intro isEdge
        refine ⟨isEdge, ?_⟩
        rintro ⟨rfl, rfl⟩
        exact nothing isEdge

private theorem delInn_returns (stores : Stores laog out inn) (src dst : Nat) :
    Returns (laog.delInn src dst) (fun laog' =>
      Stores laog' out (fun a b => inn a b ∧ ¬ (a = src ∧ b = dst)) ∧
      laog.univ.ix2vec <+: laog'.univ.ix2vec) := by
  obtain ⟨outSet, outDenotes, outMembers⟩ := stores.succs dst
  obtain ⟨innSet, innDenotes, innMembers⟩ := stores.preds dst
  unfold delInn
  unfold Laog.succs at outDenotes
  unfold Laog.preds at innDenotes
  cases known : laog.links.lookup dst with
  | some links =>
      simp only [known] at outDenotes innDenotes ⊢
      apply (stores.wf.delFromWS_returns innDenotes src).bind
      intro result yields
      obtain ⟨univ, innsNew⟩ := result
      obtain ⟨grows, newDenotes⟩ := yields
      refine .pure ⟨stores.update grows (outDenotes.mono grows.grown)
        newDenotes outMembers ?_ (fun a b _ => .rfl) ?_, grows.grown⟩
      · intro a
        simp only [Finset.mem_erase, innMembers, and_true]
        tauto
      · intro a b different
        simp [different]
  | none =>
      simp only [known] at innDenotes ⊢
      have empty : innSet = ∅ := innDenotes.unique stores.wf.denotes_empty
      have nothing : ¬ inn src dst := by
        rw [← innMembers, empty]
        exact Finset.notMem_empty src
      refine .ok ⟨stores.congr (fun a b => .rfl) ?_, List.prefix_rfl⟩
      intro a b
      constructor
      · exact fun both => both.1
      · intro isEdge
        refine ⟨isEdge, ?_⟩
        rintro ⟨rfl, rfl⟩
        exact nothing isEdge

theorem delEdge_returns (graph : Shows laog edge) (src dst : Nat) :
    Returns (laog.delEdge src dst) (fun laog' =>
      Shows laog' (fun a b => edge a b ∧ ¬ (a = src ∧ b = dst)) ∧
      laog.univ.ix2vec <+: laog'.univ.ix2vec) := by
  unfold delEdge
  apply (delOut_returns graph src dst).bind
  intro laog₁ first
  apply (delInn_returns first.1 src dst).mono
  intro laog₂ second
  exact ⟨second.1, first.2.trans second.2⟩

theorem foldlM_adds {body : Laog → Nat → Except Abort Laog}
    {new : Nat → Nat → Nat → Prop} {words : List Nat}
    (step : ∀ {laog : Laog} {edge : Nat → Nat → Prop} {word : Nat},
      word ∈ words → Shows laog edge →
      Satisfies (fun _ => bad) (body laog word) (fun laog' =>
        Shows laog' (fun a b => edge a b ∨ new word a b)))
    (graph : Shows laog edge) :
    Satisfies (fun _ => bad) (words.foldlM body laog) (fun laog' =>
      Shows laog' (fun a b => edge a b ∨ ∃ word ∈ words, new word a b)) := by
  induction words generalizing laog edge with
  | nil => exact Satisfies.pure (graph.congr (by simp) (by simp))
  | cons word words induction =>
      rw [List.foldlM_cons]
      apply (step (by simp) graph).bind
      intro laog₁ first
      apply (induction (fun member => step (by simp [member])) first).mono
      intro laog₂ rest
      refine rest.congr ?_ ?_ <;>
        simp [or_assoc]

theorem foldlM_delEdge {body : Laog → Nat → Except Abort Laog}
    {gone : Nat → Nat → Nat → Prop} {words : List Nat}
    (step : ∀ {laog : Laog} {edge : Nat → Nat → Prop} (word : Nat),
      Shows laog edge → Returns (body laog word) (fun laog' =>
        Shows laog' (fun a b => edge a b ∧ ¬ gone word a b) ∧
        laog.univ.ix2vec <+: laog'.univ.ix2vec))
    (graph : Shows laog edge) :
    Returns (words.foldlM body laog) (fun laog' =>
      Shows laog' (fun a b => edge a b ∧ ¬ ∃ word ∈ words, gone word a b) ∧
      laog.univ.ix2vec <+: laog'.univ.ix2vec) := by
  induction words generalizing laog edge with
  | nil => exact .pure ⟨graph.congr (by simp) (by simp), List.prefix_rfl⟩
  | cons word words induction =>
      rw [List.foldlM_cons]
      apply (step word graph).bind
      intro laog₁ first
      apply (induction first.1).mono
      intro laog₂ rest
      refine ⟨rest.1.congr ?_ ?_, first.2.trans rest.2⟩ <;>
        simp [and_assoc]

end Edges
end Laog
end HelgrindPlus
