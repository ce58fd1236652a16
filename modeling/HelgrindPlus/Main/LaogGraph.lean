import HelgrindPlus.Main.Laog
import HelgrindPlus.Lib.Graph
import Mathlib.Algebra.BigOperators.Group.Finset.Basic

/-!
# Paths in the lock order graph

The deletion of a lock takes a node out of the graph and joins its neighbours,
and the search finds a path if there is one.  Both halves of the store stay
inverse to each other along every sequence of calls.
-/

namespace HelgrindPlus

open Outcome

namespace Laog

section Edges

open WordSetU

variable {laog laog' : Laog} {edge : Nat → Nat → Prop} {st : LockTab}
  {src lk : Nat} {bad : Prop}

private theorem getPayloadWS_of_denotes {univ : WordSetU} {ws : Nat}
    {set : Finset Nat} (wf : WF univ) (denotes : Denotes univ.ix2vec ws set) :
    univ.getPayloadWS ws = .ok ((univ.ix2vec[ws]?).getD []) := by
  obtain ⟨wv, known, -⟩ := denotes
  unfold getPayloadWS
  rw [wf.toTable.doIx2vec_of known, known]
  rfl

private theorem joinSuccs_satisfies (graph : Shows laog edge) {pred : Nat}
    {words : List Nat} (predLive : Live st pred ∨ bad)
    (succsLive : ∀ succ ∈ words, Live st succ ∨ bad) :
    Satisfies (fun _ => bad) (words.foldlM (fun laog succ =>
        if pred ≠ succ then laog.addEdge st pred succ else pure laog) laog)
      (fun laog' => Shows laog' (fun a b => edge a b ∨
        ∃ succ ∈ words, pred ≠ succ ∧ a = pred ∧ b = succ)) := by
  refine foldlM_adds ?_ graph
  intro laog edge succ isSucc graph
  split
  case isTrue different =>
    apply (addEdge_satisfies graph predLive (succsLive succ isSucc)).mono
    intro laog' graph'
    exact graph'.congr (by simp [different]) (by simp [different])
  case isFalse same =>
    exact Satisfies.pure (graph.congr (by simp [same]) (by simp [same]))

private theorem joinNeighbours_satisfies (graph : Shows laog edge)
    {preds words : List Nat}
    (predsLive : ∀ pred ∈ preds, Live st pred ∨ bad)
    (succsLive : ∀ succ ∈ words, Live st succ ∨ bad) :
    Satisfies (fun _ => bad) (preds.foldlM (fun laog pred =>
        words.foldlM (fun laog succ =>
          if pred ≠ succ then laog.addEdge st pred succ else pure laog) laog)
        laog)
      (fun laog' => Shows laog' (fun a b => edge a b ∨
        ∃ pred ∈ preds, ∃ succ ∈ words,
          pred ≠ succ ∧ a = pred ∧ b = succ)) := by
  refine foldlM_adds ?_ graph
  intro laog edge pred isPred graph
  exact joinSuccs_satisfies graph (predsLive pred isPred) succsLive

/-- The lock is taken out, and its neighbours are joined. -/
theorem handleOneLockDeletion_satisfies (graph : Shows laog edge)
    (predsLive : ∀ a, edge a lk → Live st a ∨ bad)
    (succsLive : ∀ b, edge lk b → Live st b ∨ bad) :
    Satisfies (fun _ => bad) (laog.handleOneLockDeletion st lk)
      (fun laog' => Shows laog' (Paths.Bypass edge lk)) := by
  obtain ⟨predSet, predDenotes, -⟩ := graph.preds lk
  obtain ⟨succSet, succDenotes, succMembers⟩ := graph.succs lk
  have inns : ∀ a, a ∈ laog.inns lk ↔ edge a lk := fun a => graph.mem_inns
  unfold handleOneLockDeletion
  dsimp only
  rw [getPayloadWS_of_denotes graph.wf predDenotes, ok_bind]
  apply (foldlM_delEdge (fun pred graph => delEdge_returns graph pred lk)
    graph).satisfies.bind
  intro laog₁ first
  obtain ⟨graph₁, grown⟩ := first
  -- the set of successors is the one from before, whatever was deleted
  obtain ⟨words, isWords, -, members⟩ :=
    graph₁.wf.getPayloadWS_returns (succDenotes.mono grown)
  have succWords : ∀ b, b ∈ words ↔ edge lk b := by
    intro b
    rw [← succMembers, ← members, List.mem_toFinset]
  rw [isWords, ok_bind]
  apply (foldlM_delEdge (fun succ graph => delEdge_returns graph lk succ)
    graph₁).satisfies.bind
  intro laog₂ second
  apply (joinNeighbours_satisfies second.1
    (fun pred isPred => predsLive pred ((inns pred).mp isPred))
    (fun succ isSucc => succsLive succ ((succWords succ).mp isSucc))).mono
  intro laog' graph'
  have final : ∀ a b, Paths.Bypass edge lk a b ↔
      ((edge a b ∧ ¬ ∃ word ∈ laog.inns lk, a = word ∧ b = lk) ∧
        ¬ ∃ word ∈ words, a = lk ∧ b = word) ∨
      ∃ pred ∈ laog.inns lk, ∃ succ ∈ words,
        pred ≠ succ ∧ a = pred ∧ b = succ := by
    intro a b
    simp only [Paths.Bypass, inns, succWords]
    constructor
    · rintro (⟨aAside, bAside, isEdge⟩ | ⟨different, into, out⟩)
      · refine .inl ⟨⟨isEdge, ?_⟩, ?_⟩
        · rintro ⟨_, _, _, isLk⟩
          exact bAside isLk
        · rintro ⟨_, _, isLk, _⟩
          exact aAside isLk
      · exact .inr ⟨a, into, b, out, different, rfl, rfl⟩
    · rintro (⟨⟨isEdge, noPred⟩, noSucc⟩ | ⟨_, into, _, out, different, rfl, rfl⟩)
      · refine .inl ⟨?_, ?_, isEdge⟩
        · intro isLk
          subst isLk
          exact noSucc ⟨b, isEdge, rfl, rfl⟩
        · intro isLk
          subst isLk
          exact noPred ⟨a, isEdge, rfl, rfl⟩
      · exact .inr ⟨different, into, out⟩
  exact graph'.congr final final

private theorem checkBack_eq_ok {back : Nat → Nat} {me ws : Nat}
    {set : Finset Nat} (wf : WF laog.univ)
    (denotes : Denotes laog.univ.ix2vec ws set)
    (pointsBack : ∀ word ∈ set, ∃ other,
      Denotes laog.univ.ix2vec (back word) other ∧ me ∈ other) :
    laog.checkBack back me ws = .ok () := by
  unfold checkBack
  obtain ⟨words, isWords, -, rfl⟩ := wf.getPayloadWS_returns denotes
  rw [isWords, ok_bind]
  apply forM_eq_ok
  intro word member
  obtain ⟨other, isOther, present⟩ :=
    pointsBack word (List.mem_toFinset.mpr member)
  rw [wf.elemWS_eq isOther, ok_bind]
  exact tlAssert_of (decide_eq_true present)

theorem sanityCheck_eq_ok (graph : Shows laog edge) :
    laog.sanityCheck = .ok () := by
  apply forM_eq_ok
  intro entry member
  obtain ⟨me, links⟩ := entry
  have known : laog.links.lookup me = some links :=
    AList.mem_lookup_iff.mpr member
  obtain ⟨innSet, innDenotes, innMembers⟩ := graph.preds me
  obtain ⟨outSet, outDenotes, outMembers⟩ := graph.succs me
  unfold Laog.preds at innDenotes
  unfold Laog.succs at outDenotes
  rw [known] at innDenotes outDenotes
  have inns : laog.checkBack laog.succs me links.inns = .ok () := by
    apply checkBack_eq_ok graph.wf innDenotes
    intro word isInn
    obtain ⟨other, denotes, members⟩ := graph.succs word
    exact ⟨other, denotes, (members me).mpr ((innMembers word).mp isInn)⟩
  have outs : laog.checkBack laog.preds me links.outs = .ok () := by
    apply checkBack_eq_ok graph.wf outDenotes
    intro word isOut
    obtain ⟨other, denotes, members⟩ := graph.preds word
    exact ⟨other, denotes, (members me).mpr ((outMembers word).mp isOut)⟩
  dsimp only
  rw [inns, ok_bind, outs]

/-- What the locks that are not yet visited can still put on the stack. -/
def remaining (laog : Laog) (visited : List Nat) : Nat :=
  ∑ lk ∈ laog.links.keys.toFinset \ visited.toFinset, (laog.outs lk).length

theorem remaining_visit (wf : WF laog.univ) {here : Nat} {visited : List Nat}
    (unseen : here ∉ visited) :
    (laog.outs here).length + laog.remaining (here :: visited) ≤
      laog.remaining visited := by
  unfold remaining
  rw [List.toFinset_cons, Finset.sdiff_insert]
  by_cases stored : here ∈ laog.links.keys.toFinset \ visited.toFinset
  · exact (Finset.add_sum_erase _ (fun lk => (laog.outs lk).length)
      stored).le
  · have missing : laog.links.lookup here = none := by
      rw [AList.lookup_eq_none, AList.mem_keys]
      intro isKey
      apply stored
      simp [isKey, unseen]
    have none : laog.outs here = [] := by
      unfold Laog.outs Laog.succs
      rw [missing]
      simp only
      rw [emptyWS, wf.empty]
      rfl
    rw [none, Finset.erase_eq_of_notMem stored]
    simp

/-- What a search from `src` has to find. -/
def Finds (edge : Nat → Nat → Prop) (src : Nat) (dsts : List Nat)
    (found : Option Nat) : Prop :=
  match found with
  | some other => other ∈ dsts ∧ Relation.ReflTransGen edge src other
  | none => ∀ other ∈ dsts, ¬ Relation.ReflTransGen edge src other

/-- The loop ends before its rounds are used up. -/
theorem dfsLoop_returns (graph : Shows laog edge) {dsts : List Nat}
    {rounds : Nat} {stack visited : List Nat}
    (frontier : Paths.Frontier edge (· ∈ dsts) src stack visited)
    (enough : stack.length + laog.remaining visited < rounds) :
    Returns (laog.dfsLoop dsts rounds stack visited)
      (Finds edge src dsts) := by
  induction rounds generalizing stack visited with
  | zero => omega
  | succ rounds induction =>
      cases stack with
      | nil => exact .ok fun other isDst path => frontier.finish path isDst
      | cons here stack =>
          rw [List.length_cons] at enough
          unfold dfsLoop
          split
          case isTrue isDst =>
            exact .ok ⟨isDst, frontier.reached here (by simp)⟩
          case isFalse noDst =>
            split
            case isTrue seen =>
              exact induction (frontier.skip seen) (by omega)
            case isFalse unseen =>
              obtain ⟨set, denotes, -⟩ := graph.succs here
              have bound := remaining_visit graph.wf unseen
              rw [getPayloadWS_of_denotes graph.wf denotes, ok_bind]
              apply induction
              · apply frontier.visit noDst
                intro next
                rw [List.mem_reverse]
                exact graph.mem_outs
              · rw [List.length_append, List.length_reverse]
                change (laog.outs here).length + stack.length + _ < _
                omega

private theorem doDfsFromTo_returns (graph : Shows laog edge) (src : Nat)
    (dsts : List Nat) :
    Returns (laog.doDfsFromTo src dsts) (Finds edge src dsts) := by
  unfold doDfsFromTo
  split
  case isTrue none =>
    subst none
    exact .ok fun other isDst => absurd isDst (by simp)
  case isFalse some =>
    apply dfsLoop_returns graph (Paths.Frontier.start edge (· ∈ dsts) src)
    unfold remaining
    rw [List.toFinset_nil, Finset.sdiff_empty,
      List.sum_toFinset _ laog.links.keys_nodup, List.length_singleton]
    omega

theorem mem_lockWords {lockset : Finset Nat} :
    lk ∈ lockWords lockset ↔ lk ∈ lockset := by
  obtain ⟨words, nodup⟩ := lockset
  induction words using Quot.inductionOn with
  | h words => exact (List.perm_insertionSort _ _).mem_iff

theorem lockOrder_satisfies {thr other : Nat} (lkLive : Live st lk ∨ bad)
    (otherLive : Live st other ∨ bad) :
    Satisfies (fun _ => bad) (laog.lockOrder st thr lk other)
      (fun _ => True) := by
  unfold lockOrder
  apply (deref_satisfies lkLive).bind
  intro lkLock _
  apply (deref_satisfies otherLive).bind
  intro otherLock _
  exact Satisfies.pure trivial

private theorem addOld_satisfies (graph : Shows laog edge) {old : Nat}
    (lkLive : Live st lk ∨ bad) (oldAcquired : AcquiredIn st old ∨ bad) :
    Satisfies (fun _ => bad) (addOld st lk laog old) (fun laog' =>
      Shows laog' (fun a b => edge a b ∨ (a = old ∧ b = lk))) := by
  have oldLive := oldAcquired.imp_left AcquiredIn.live
  unfold addOld
  apply (deref_satisfies oldLive).bind
  intro oldLock isOld
  apply (acquired_satisfies oldAcquired isOld).bind
  intro _ _
  exact addEdge_satisfies graph oldLive lkLive

/-- The complaint is made if and only if the search has found something. -/
theorem complaint_satisfies {thr : Nat} {lockset : Finset Nat}
    {found : Option Nat} (unheld : lk ∉ lockset)
    (finds : Finds edge lk (lockWords lockset) found)
    (lkLive : Live st lk ∨ bad)
    (otherLive : ∀ other ∈ lockset, Live st other ∨ bad) :
    Satisfies (fun _ => bad) (found.mapM (laog.lockOrder st thr lk))
      (fun order => (order.isSome = true ↔
        ∃ other ∈ lockset, Relation.TransGen edge lk other)) := by
  cases found with
  | none =>
      refine Satisfies.pure ?_
      simp only [Option.isSome_none, Bool.false_eq_true, false_iff]
      rintro ⟨other, isHeld, path⟩
      exact finds other (mem_lockWords.mpr isHeld) path.to_reflTransGen
  | some other =>
      obtain ⟨isHeld, path⟩ := finds
      rw [mem_lockWords] at isHeld
      have moved : Relation.TransGen edge lk other := by
        rcases Relation.reflTransGen_iff_eq_or_transGen.mp path with
          same | path
        · rw [same] at isHeld
          exact absurd isHeld unheld
        · exact path
      apply (lockOrder_satisfies lkLive (otherLive other isHeld)).bind
      intro order _
      refine Satisfies.pure ?_
      simp only [Option.isSome_some, true_iff]
      exact ⟨other, isHeld, moved⟩

/-- An error is recorded if and only if a lock that the thread holds can be
reached from the one it acquires. -/
theorem preThreadAcquiresLock_satisfies (graph : Shows laog edge) {thr : Nat}
    {thread : Thread} (isThread : st.mapThreads.lookup thr = some thread)
    (lkAcquired : AcquiredIn st lk ∨ bad)
    (oldAcquired : ∀ old ∈ thread.locksetA, AcquiredIn st old ∨ bad) :
    Satisfies (fun _ => bad) (laog.preThreadAcquiresLock st thr lk)
      (fun result =>
        (result.2.isSome = true ↔ lk ∉ thread.locksetA ∧
          ∃ other ∈ thread.locksetA, Relation.TransGen edge lk other) ∧
        Shows result.1 (fun a b => edge a b ∨
          (lk ∉ thread.locksetA ∧ a ∈ thread.locksetA ∧ b = lk))) := by
  have known : st.getThread thr = .ok thread := by
    simp [LockTab.getThread, isThread]
  have lkLive := lkAcquired.imp_left AcquiredIn.live
  unfold preThreadAcquiresLock
  rw [known, ok_bind]
  split
  case isTrue held =>
    exact Satisfies.pure ⟨by simp [held],
      graph.congr (by simp [held]) (by simp [held])⟩
  case isFalse unheld =>
    dsimp only
    apply (doDfsFromTo_returns graph lk
      (lockWords thread.locksetA)).satisfies.bind
    intro found finds
    apply (complaint_satisfies unheld finds lkLive fun other isHeld =>
      (oldAcquired other isHeld).imp_left AcquiredIn.live).bind
    intro order recorded
    apply (deref_satisfies lkLive).bind
    intro lkLock isLk
    apply (acquired_satisfies lkAcquired isLk).bind
    intro _ _
    have added : Satisfies (fun _ => bad)
        ((lockWords thread.locksetA).foldlM (addOld st lk) laog)
        (fun laog' => Shows laog' (fun a b => edge a b ∨
          ∃ old ∈ lockWords thread.locksetA, a = old ∧ b = lk)) := by
      refine foldlM_adds ?_ graph
      intro laog edge old isOld graph
      exact addOld_satisfies graph lkLive
        (oldAcquired old (mem_lockWords.mp isOld))
    apply added.bind
    intro laog' graph'
    refine Satisfies.pure ⟨by simp [unheld, recorded], graph'.congr ?_ ?_⟩ <;>
      simp [mem_lockWords, unheld]

end Edges

/-- An edge of the stored graph. -/
def Edge (laog : Laog) (a b : Nat) : Prop := b ∈ laog.outs a

/-- The two halves of the store are inverse to each other. -/
def Inverse (laog : Laog) : Prop :=
  ∀ a b, b ∈ laog.outs a ↔ a ∈ laog.inns b

end Laog

/-- A call on the graph, each with a lock table of its own.  The calls of
`laog__add_edge` and `laog__del_edge` lead to the graphs in between. -/
inductive LaogCall where
  | preThreadAcquiresLock (st : LockTab) (thr lk : Nat)
  | handleOneLockDeletion (st : LockTab) (lk : Nat)
  | addEdge (st : LockTab) (src dst : Nat)
  | delEdge (src dst : Nat)

namespace LaogCall

def perform (laog : Laog) : LaogCall → Except Abort Laog
  | .preThreadAcquiresLock st thr lk => do
      let (laog, _) ← laog.preThreadAcquiresLock st thr lk
      pure laog
  | .handleOneLockDeletion st lk => laog.handleOneLockDeletion st lk
  | .addEdge st src dst => laog.addEdge st src dst
  | .delEdge src dst => laog.delEdge src dst

/-- Nobody calls `laog__add_edge` with the same lock twice. -/
def Proper : LaogCall → Prop
  | .addEdge _ src dst => src ≠ dst
  | _ => True

end LaogCall

namespace Laog

def run (calls : List LaogCall) : Except Abort Laog := do
  let laog ← init
  calls.foldlM LaogCall.perform laog

section Runs

open WordSetU

variable {laog laog' : Laog} {edge : Nat → Nat → Prop}

theorem Stores.edge_eq (graph : Shows laog edge) : laog.Edge = edge := by
  funext a b
  exact propext graph.mem_outs

theorem Stores.inverse (graph : Shows laog edge) : laog.Inverse :=
  fun _ _ => graph.mem_outs.trans graph.mem_inns.symm

theorem init_returns :
    Returns init (fun laog => Shows laog (fun _ _ => False)) := by
  unfold init
  apply (newWordSetU_returns (by decide) (by decide)).bind
  intro univ wf
  exact .pure ⟨wf, fun a => ⟨∅, wf.denotes_empty, by simp⟩,
    fun b => ⟨∅, wf.denotes_empty, by simp⟩⟩

/-- A graph in which no lock is before itself. -/
def Loopless (laog : Laog) : Prop :=
  ∃ edge, Shows laog edge ∧ ∀ a, ¬ edge a a

theorem Loopless.perform (loopless : Loopless laog) {call : LaogCall}
    (proper : call.Proper) (done : call.perform laog = .ok laog') :
    Loopless laog' := by
  obtain ⟨edge, graph, irreflexive⟩ := loopless
  cases call with
  | preThreadAcquiresLock st thr lk =>
      obtain ⟨⟨laog₁, order⟩, acquired, same⟩ := bind_eq_ok.mp done
      cases same
      obtain ⟨thread, isThread, -⟩ := bind_eq_ok.mp acquired
      obtain ⟨-, graph'⟩ := Satisfies.of_eq_ok
        (preThreadAcquiresLock_satisfies graph
          (LockTab.getThread_eq_ok isThread) (.inr trivial)
          (fun _ _ => .inr trivial)) acquired
      refine ⟨_, graph', ?_⟩
      rintro a (isEdge | ⟨unheld, isHeld, rfl⟩)
      · exact irreflexive a isEdge
      · exact unheld isHeld
  | handleOneLockDeletion st lk =>
      have graph' := Satisfies.of_eq_ok (handleOneLockDeletion_satisfies graph
        (fun _ _ => .inr trivial) (fun _ _ => .inr trivial)) done
      refine ⟨_, graph', ?_⟩
      rintro a (⟨-, -, isEdge⟩ | ⟨different, -, -⟩)
      · exact irreflexive a isEdge
      · exact different rfl
  | addEdge st src dst =>
      have graph' := Satisfies.of_eq_ok (addEdge_satisfies graph
        (.inr trivial) (.inr trivial)) done
      refine ⟨_, graph', ?_⟩
      rintro a (isEdge | ⟨rfl, same⟩)
      · exact irreflexive a isEdge
      · exact proper same
  | delEdge src dst =>
      have graph' := (delEdge_returns graph src dst).of_eq_ok done
      exact ⟨_, graph'.1, fun a isEdge => irreflexive a isEdge.1⟩

private theorem run_loopless {calls : List LaogCall}
    (proper : ∀ call ∈ calls, call.Proper) (ran : run calls = .ok laog) :
    Loopless laog := by
  obtain ⟨start, isStart, ran⟩ := bind_eq_ok.mp ran
  refine @foldlM_eq_ok_invariant _ _ _ _ (fun _ laog => Loopless laog) _ _ _
    ?_ ⟨_, init_returns.of_eq_ok isStart, by simp⟩ ran
  intro n before after call atN loopless done
  exact loopless.perform (proper call (List.mem_of_getElem? atN)) done

/-- In every graph that the calls lead to, the two halves of the store agree,
also after one more edge comes or goes, and a lock can be deleted without any
loss for the others. -/
theorem deletion_keeps_paths {calls : List LaogCall}
    (proper : ∀ call ∈ calls, call.Proper) (ran : run calls = .ok laog) :
    laog.Inverse ∧ laog.sanityCheck = .ok () ∧
    (∀ st src dst, Live st src → Live st dst →
      Returns (laog.addEdge st src dst) (fun laog' =>
        laog'.Inverse ∧ laog'.sanityCheck = .ok ())) ∧
    (∀ src dst, Returns (laog.delEdge src dst) (fun laog' =>
        laog'.Inverse ∧ laog'.sanityCheck = .ok ())) ∧
    ∀ st lk, (∀ a, laog.Edge a lk ∨ laog.Edge lk a → Live st a) →
      Returns (laog.handleOneLockDeletion st lk) (fun laog' =>
        laog'.Inverse ∧ laog'.sanityCheck = .ok () ∧
        (∀ a b, laog'.Edge a b → a ≠ lk ∧ b ≠ lk) ∧
        ∀ a b, a ≠ b → a ≠ lk → b ≠ lk →
          (Relation.TransGen laog'.Edge a b ↔
            Relation.TransGen laog.Edge a b)) := by
  obtain ⟨edge, graph, irreflexive⟩ := run_loopless proper ran
  refine ⟨graph.inverse, sanityCheck_eq_ok graph, ?_, ?_, ?_⟩
  · intro st src dst srcLive dstLive
    apply (addEdge_satisfies graph (.inl srcLive)
      (.inl dstLive)).returns.mono
    intro laog' graph'
    exact ⟨graph'.inverse, sanityCheck_eq_ok graph'⟩
  · intro src dst
    apply (delEdge_returns graph src dst).mono
    intro laog' graph'
    exact ⟨graph'.1.inverse, sanityCheck_eq_ok graph'.1⟩
  · intro st lk live
    rw [graph.edge_eq] at live ⊢
    apply (handleOneLockDeletion_satisfies graph
      (fun a into => .inl (live a (.inl into)))
      (fun b out => .inl (live b (.inr out)))).returns.mono
    intro laog' graph'
    rw [graph'.edge_eq]
    refine ⟨graph'.inverse, sanityCheck_eq_ok graph', ?_, ?_⟩
    · rintro a b (⟨aAside, bAside, -⟩ | ⟨-, into, out⟩)
      · exact ⟨aAside, bAside⟩
      · refine ⟨?_, ?_⟩
        · rintro rfl
          exact irreflexive a into
        · rintro rfl
          exact irreflexive b out
    · intro a b different aAside bAside
      exact Paths.bypass_path_iff (irreflexive lk) different aAside bAside

/-- Thread 1 acquires lock 12 holding 11, and thread 2 lock 13 holding 12.
Without 12, there is still a path from 11 to 13. -/
theorem deletion_keeps_paths_chain :
    ∃ st laog, run [.preThreadAcquiresLock st 1 12,
        .preThreadAcquiresLock st 2 13] = .ok laog ∧
      laog.outs 11 = [12] ∧ laog.outs 12 = [13] ∧
      Returns (laog.handleOneLockDeletion st 12) (fun laog' =>
        laog'.Inverse ∧ Relation.TransGen laog'.Edge 11 13) := by
  let st : LockTab :=
    { mapThreads := (AList.insert 1 ⟨{11}, {11}⟩ ∅).insert 2 ⟨{12}, {12}⟩
      mapLocks := ((AList.insert 16 11 ∅).insert 24 12).insert 32 13
      heap := ((AList.insert 11
        ⟨16, .nonRec, some 11, true, true, some [1]⟩ ∅).insert 12
        ⟨24, .mbRec, some 12, true, true, some [2]⟩).insert 13
        ⟨32, .nonRec, some 13, true, true, some [2]⟩ }
  have seen : (run [.preThreadAcquiresLock st 1 12,
      .preThreadAcquiresLock st 2 13]).toOption.map (fun laog =>
        (laog.outs 11, laog.outs 12, laog.inns 12)) =
      some ([12], [13], [11]) := by decide
  obtain ⟨laog, ran, view⟩ := exists_ok_of_map seen
  obtain ⟨outs11, view⟩ := Prod.mk.inj view
  obtain ⟨outs12, inns12⟩ := Prod.mk.inj view
  have proper : ∀ call ∈ [LaogCall.preThreadAcquiresLock st 1 12,
      .preThreadAcquiresLock st 2 13], call.Proper := by
    intro call member
    simp only [List.mem_cons, List.not_mem_nil, or_false] at member
    rcases member with rfl | rfl <;> trivial
  have path : Relation.TransGen laog.Edge 11 13 :=
    (Relation.TransGen.single (show 12 ∈ laog.outs 11 by simp [outs11])).tail
      (show 13 ∈ laog.outs 12 by simp [outs12])
  obtain ⟨inverse, -, -, -, deletes⟩ := deletion_keeps_paths proper ran
  have live : ∀ a, laog.Edge a 12 ∨ laog.Edge 12 a → Live st a := by
    rintro a (into | out)
    · have member : a ∈ laog.inns 12 := (inverse a 12).mp into
      rw [inns12, List.mem_singleton] at member
      exact ⟨_, by rw [member]; rfl⟩
    · have member : a ∈ laog.outs 12 := out
      rw [outs12, List.mem_singleton] at member
      exact ⟨_, by rw [member]; rfl⟩
  refine ⟨st, laog, ran, outs11, outs12, (deletes st 12 live).mono ?_⟩
  intro laog' kept
  exact ⟨kept.1, (kept.2.2.2 11 13 (by decide) (by decide)
    (by decide)).mpr path⟩

end Runs
end Laog
end HelgrindPlus
