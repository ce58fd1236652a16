import HelgrindPlus.Lib.Outcome
import HelgrindPlus.Loops.Superblock

/-!
# The search for loops

The function `dfs_search_WRK` looks for cycles through a superblock, and
appends the addresses of each one it finds to a list.  Superblocks that have
not been seen yet are translated ahead during the search, and calls whose
target is only known at run time get their successors, so the graph may change
while it is searched.
-/

namespace HelgrindPlus

open Outcome

namespace Loops

variable {w : Nat}

/-- The superblocks, and the destinations in `map_unpredictable_calls`. -/
structure Graph (w : Nat) where
  sbs : Superblocks w
  ucs : BitVec w → Option (BitVec w)

namespace Graph

/-- The superblock behind a pointer. -/
def get (g : Graph w) (base : BitVec w) : SB w := (g.sbs base).getD mkSB

def set (g : Graph w) (base : BitVec w) (sb : SB w) : Graph w :=
  { g with sbs := Function.update g.sbs base (some sb) }

def lookupOrCreateSB (g : Graph w) (base : BitVec w) : Graph w :=
  g.set base (g.get base)

end Graph

/-- The assertions of the search. -/
inductive Failure where
  | ucNull | pathMismatch
  deriving DecidableEq, Repr

def updateSBwithUC (g : Graph w) (base : BitVec w) :
    Except Failure (Graph w) :=
  if (g.get base).lastJumpIaddr ≠ 0 then
    match g.ucs (g.get base).lastJumpIaddr with
    | none => .error .ucNull
    | some destAddr =>
        if destAddr ≠ 0 then
          let g := g.lookupOrCreateSB destAddr
          .ok (g.set base { g.get base with next := some destAddr })
        else .ok g
  else .ok g

/-- The test `get_sb_index(sb, addr) != -1`. -/
def SB.hasIndex (sb : SB w) (addr : BitVec w) : Bool :=
  sb.bblocks.any fun bblock => bblock.base ≤ addr && addr < bblock.stop

/-- A loop of `sb_intersects`, which leaves out the extents of functions that
were chased into. -/
def startsIn (sb : SB w) : List (BBlock w) → Bool
  | [] => false
  | bblock :: rest =>
      sb.hasIndex bblock.base || (!bblock.isFuncCall && startsIn sb rest)

/-- The function `sb_intersects` on two different superblocks. -/
def sbIntersects (sb1 sb2 : SB w) : Bool :=
  startsIn sb2 sb1.bblocks || startsIn sb1 sb2.bblocks

/-- The function `addrlist_push_all_back`; zero does not replace anything. -/
def pushAllBack (src dst : List (BitVec w)) (replaceFirst : BitVec w) :
    List (BitVec w) :=
  match src with
  | [] => dst
  | first :: rest =>
      dst ++ (if replaceFirst ≠ 0 then replaceFirst else first) :: rest

/-- What the search changes. -/
structure Search (w : Nat) where
  graph : Graph w
  loop : List (BitVec w)
  path : List (BitVec w)

/-- The return addresses of the functions that were chased into. -/
def SB.calls (sb : SB w) : List (BitVec w) :=
  (sb.bblocks.filter (·.isFuncCall)).map (·.stop)

/-- The stack of return addresses that the superblock begins with. -/
def SB.parents (sb : SB w) (fromParent : Option (List (BitVec w))) :
    List (BitVec w) :=
  match fromParent with
  | some returns => returns
  | none => if sb.returnHint ≠ 0 then [sb.returnHint] else []

/-- A search from another superblock, with the variable `loop_found`. -/
abbrev Found (w : Nat) := Search w × Bool

section Deeper

/-- The search from a superblock with a stack of return addresses, at one
depth less. -/
abbrev Go (w : Nat) :=
  BitVec w → List (BitVec w) → Search w → Except Failure (Found w)

variable (go : Go w)

def goTo (dst : BitVec w) (returns : List (BitVec w)) (acc : Found w) :
    Except Failure (Found w) := do
  let (s, found) ← go dst returns acc.1
  pure (s, acc.2 || found)

/-- The superblock at a popped return address is created, if need be. -/
def goBack (retip : BitVec w) (returns : List (BitVec w)) (acc : Found w) :
    Except Failure (Found w) :=
  goTo go retip returns
    ({ acc.1 with graph := acc.1.graph.lookupOrCreateSB retip }, acc.2)

def goBranch (here : BitVec w) (returns : List (BitVec w)) (acc : Found w)
    (i : Nat) : Except Failure (Found w) :=
  match (acc.1.graph.get here).branches[i]?.join with
  | none => pure acc
  | some dst => goTo go dst returns acc

/-- The successor or, after a return, the address on top of the stack.  The
stack and the number of unhandled calls may change. -/
def goNext (here : BitVec w) (returns : List (BitVec w)) (unhandled : Nat)
    (acc : Found w) :
    Except Failure (Found w × List (BitVec w) × Nat) :=
  let sb := acc.1.graph.get here
  match sb.next, sb.nextType with
  | some dst, .direct | some dst, .unknown => do
      let acc ← goTo go dst returns acc
      pure (acc, returns, unhandled)
  | _, .ret | _, .indirect =>
      match returns.getLast? with
      | none => pure (acc, returns, unhandled)
      | some retip => do
          let acc ← goBack go retip returns.dropLast acc
          pure (acc, returns.dropLast, unhandled - 1)
  | none, .direct | none, .unknown => pure (acc, returns, unhandled)

/-- The loop over the calls that have not been handled. -/
def goCalls : Nat → List (BitVec w) → Found w → Except Failure (Found w)
  | 0, _, acc => pure acc
  | unhandled + 1, returns, acc =>
      if acc.2 then pure acc
      else
        match returns.getLast? with
        | none => goCalls unhandled returns acc
        | some retip => do
            let acc ← goBack go retip returns.dropLast acc
            goCalls unhandled returns.dropLast acc

def goDeeper (here : BitVec w) (fromParent : Option (List (BitVec w)))
    (s : Search w) : Except Failure (Found w) := do
  let sb := s.graph.get here
  let returns := sb.parents fromParent ++ sb.calls
  let acc ← (List.range maxBblocks).foldlM (goBranch go here returns)
    ({ s with path := s.path ++ [here] }, false)
  let (acc, returns, unhandled) ← goNext go here returns sb.calls.length acc
  let acc ← goCalls go unhandled returns acc
  match acc.1.path.getLast? with
  | none => .error .pathMismatch
  | some lastAddr =>
      if lastAddr = here then
        pure ({ acc.1 with path := acc.1.path.dropLast }, acc.2)
      else .error .pathMismatch

end Deeper

/-- Whether a loop ends at the superblock; not for the one that the search
begins with. -/
def detect (sbBase here : BitVec w) (fromParent : Option (List (BitVec w)))
    (s : Search w) : Option (Search w) :=
  if fromParent.isNone then none
  else if sbBase = here then
    some { s with loop := pushAllBack s.path s.loop 0 }
  else if sbIntersects (s.graph.get sbBase) (s.graph.get here) then
    some { s with loop := pushAllBack s.path s.loop here }
  else none

/-- The ahead translation of a superblock that is not known yet. -/
def discover (translateAhead : Graph w → BitVec w → Graph w × Bool)
    (g : Graph w) (here : BitVec w) : Graph w × Bool :=
  if (g.get here).mark = .unknown then
    let (g, ret) := translateAhead g here
    (g, ret && (g.get here).mark ≠ .unknown)
  else (g, true)

/-- The function `dfs_search_WRK`, where `translateAhead` stands for
`VG_(translate_ahead)` with `look_ahead`. -/
def dfsSearchWRK (translateAhead : Graph w → BitVec w → Graph w × Bool)
    (sbBase : BitVec w) :
    Nat → BitVec w → Option (List (BitVec w)) → Search w →
      Except Failure (Found w)
  | 0, _, _, s => .ok (s, false)
  | depth + 1, here, fromParent, s =>
      match discover translateAhead s.graph here with
      | (graph, false) => .ok ({ s with graph := graph }, false)
      | (graph, true) => do
          let graph ← updateSBwithUC graph here
          let s := { s with graph := graph }
          match detect sbBase here fromParent s with
          | some s => pure (s, true)
          | none =>
              if depth = 0 then pure (s, false)
              else
                goDeeper
                  (fun dst returns => dfsSearchWRK translateAhead sbBase depth
                    dst (some returns)) here fromParent s

/-- The stack of return addresses with which the search leaves the
superblock. -/
def SB.opened (sb : SB w) (fromParent : Option (List (BitVec w))) :
    List (BitVec w) :=
  sb.parents fromParent ++ sb.calls

/-- A walk that begins where a search does, has gone along `path` and has come
to a superblock with a stack of return addresses.  Each step is a branch, the
successor, a return to the address on top of the stack, or a return from a
function that the superblock has chased into.  Every edge is one of a graph
that there has been. -/
inductive Walk (ever : Graph w → Prop) (path₀ : List (BitVec w))
    (here₀ : BitVec w) (from₀ : Option (List (BitVec w))) :
    List (BitVec w) → BitVec w → Option (List (BitVec w)) → Prop where
  | start : Walk ever path₀ here₀ from₀ path₀ here₀ from₀
  | branch {path : List (BitVec w)} {here dst : BitVec w}
      {fromParent : Option (List (BitVec w))} {g g' : Graph w} :
      Walk ever path₀ here₀ from₀ path here fromParent →
      ever g → ever g' → some dst ∈ (g'.get here).branches →
      Walk ever path₀ here₀ from₀ (path ++ [here]) dst
        (some ((g.get here).opened fromParent))
  | next {path : List (BitVec w)} {here dst : BitVec w}
      {fromParent : Option (List (BitVec w))} {g g' : Graph w} :
      Walk ever path₀ here₀ from₀ path here fromParent →
      ever g → ever g' → (g'.get here).next = some dst →
      Walk ever path₀ here₀ from₀ (path ++ [here]) dst
        (some ((g.get here).opened fromParent))
  | ret {path returns : List (BitVec w)} {here dst : BitVec w}
      {fromParent : Option (List (BitVec w))} {g g' : Graph w} :
      Walk ever path₀ here₀ from₀ path here fromParent →
      ever g → ever g' →
      (g'.get here).nextType = .ret ∨ (g'.get here).nextType = .indirect →
      (g.get here).opened fromParent = returns ++ [dst] →
      Walk ever path₀ here₀ from₀ (path ++ [here]) dst (some returns)
  | call {path before after : List (BitVec w)} {here dst : BitVec w}
      {fromParent : Option (List (BitVec w))} {g : Graph w} :
      Walk ever path₀ here₀ from₀ path here fromParent →
      ever g → (g.get here).calls = before ++ dst :: after →
      Walk ever path₀ here₀ from₀ (path ++ [here]) dst
        (some ((g.get here).parents fromParent ++ before))

/-- A walk that ends where it began. -/
def ClosedWalk (ever : Graph w → Prop) (seq : List (BitVec w)) : Prop :=
  ∃ first returns, Walk ever [] first none seq first (some returns)

/-- The sequence is a walk from the base to a superblock that shares code with
it, whose address stands in the place of the base. -/
def Intersecting (ever : Graph w → Prop) (sbBase : BitVec w)
    (seq : List (BitVec w)) : Prop :=
  ∃ path found returns g,
    Walk ever [] sbBase none path found (some returns) ∧
    ever g ∧ found ≠ sbBase ∧
    sbIntersects (g.get sbBase) (g.get found) = true ∧
    seq = pushAllBack path [] found

/-- The graphs that there may be during a search. -/
structure Closed (translateAhead : Graph w → BitVec w → Graph w × Bool)
    (ever : Graph w → Prop) : Prop where
  translateAhead : ∀ g here, ever g → ever (translateAhead g here).1
  update : ∀ g here g', ever g → updateSBwithUC g here = .ok g' → ever g'
  create : ∀ g retip, ever g → ever (g.lookupOrCreateSB retip)

section Runs

variable {translateAhead : Graph w → BitVec w → Graph w × Bool}
  {ever : Graph w → Prop} {sbBase : BitVec w} {path₀ : List (BitVec w)}
  {here₀ : BitVec w} {from₀ : Option (List (BitVec w))}

/-- What one detection appends. -/
def Detected (ever : Graph w → Prop) (sbBase : BitVec w)
    (path₀ : List (BitVec w)) (here₀ : BitVec w)
    (from₀ : Option (List (BitVec w))) (seq : List (BitVec w)) : Prop :=
  ∃ path found returns,
    Walk ever path₀ here₀ from₀ path found (some returns) ∧
    (found = sbBase ∧ seq = path ∨
      ∃ g, ever g ∧ found ≠ sbBase ∧
        sbIntersects (g.get sbBase) (g.get found) = true ∧
        seq = pushAllBack path [] found)

/-- What holds after a part of the search. -/
structure After (ever : Graph w → Prop) (sbBase : BitVec w)
    (path₀ : List (BitVec w)) (here₀ : BitVec w)
    (from₀ : Option (List (BitVec w))) (loop path : List (BitVec w))
    (s : Search w) : Prop where
  graph : ever s.graph
  path : s.path = path
  loop : ∃ seqs : List (List (BitVec w)), s.loop = loop ++ seqs.flatten ∧
    ∀ seq ∈ seqs, Detected ever sbBase path₀ here₀ from₀ seq

/-- The search from the places that the walk goes on to. -/
def GoSpec (ever : Graph w → Prop) (sbBase : BitVec w)
    (path₀ : List (BitVec w)) (here₀ : BitVec w)
    (from₀ : Option (List (BitVec w))) (go : Go w) : Prop :=
  ∀ dst returns s, ever s.graph →
    Walk ever path₀ here₀ from₀ s.path dst (some returns) →
    Satisfies (· = .ucNull) (go dst returns s)
      (After ever sbBase path₀ here₀ from₀ s.loop s.path ·.1)

private theorem pushAllBack_nil (src dst : List (BitVec w)) (first : BitVec w) :
    pushAllBack src dst first = dst ++ pushAllBack src [] first := by
  cases src with
  | nil => exact (List.append_nil dst).symm
  | cons _ _ => rfl

private theorem pushAllBack_zero (src : List (BitVec w)) :
    pushAllBack src [] 0 = src := by
  cases src with
  | nil => rfl
  | cons _ _ => simp [pushAllBack]

theorem After.trans {loop path : List (BitVec w)} {s s' : Search w}
    (first : After ever sbBase path₀ here₀ from₀ loop path s)
    (second : After ever sbBase path₀ here₀ from₀ s.loop s.path s') :
    After ever sbBase path₀ here₀ from₀ loop path s' := by
  obtain ⟨seqs, isLoop, each⟩ := first.loop
  obtain ⟨seqs', isLoop', each'⟩ := second.loop
  refine ⟨second.graph, second.path.trans first.path, seqs ++ seqs', ?_, ?_⟩
  · rw [isLoop', isLoop, List.flatten_append, List.append_assoc]
  · intro seq member
    rcases List.mem_append.mp member with early | late
    · exact each seq early
    · exact each' seq late

theorem After.refl {s : Search w} (known : ever s.graph) :
    After ever sbBase path₀ here₀ from₀ s.loop s.path s :=
  ⟨known, rfl, [], (List.append_nil _).symm, by nofun⟩

section Steps

variable {go : Go w} {loop path : List (BitVec w)} {here : BitVec w}
  {fromParent : Option (List (BitVec w))} {acc : Found w}

theorem goTo_satisfies (spec : GoSpec ever sbBase path₀ here₀ from₀ go)
    {dst : BitVec w} {returns : List (BitVec w)}
    (after : After ever sbBase path₀ here₀ from₀ loop path acc.1)
    (walk : Walk ever path₀ here₀ from₀ path dst (some returns)) :
    Satisfies (· = .ucNull) (goTo go dst returns acc)
      (After ever sbBase path₀ here₀ from₀ loop path ·.1) := by
  have walks : Walk ever path₀ here₀ from₀ acc.1.path dst (some returns) := by
    rw [after.path]
    exact walk
  apply (spec dst returns acc.1 after.graph walks).bind
  intro out after'
  exact Satisfies.pure (after.trans after')

private theorem goBack_satisfies (closed : Closed translateAhead ever)
    (spec : GoSpec ever sbBase path₀ here₀ from₀ go)
    {retip : BitVec w} {returns : List (BitVec w)}
    (after : After ever sbBase path₀ here₀ from₀ loop path acc.1)
    (walk : Walk ever path₀ here₀ from₀ path retip (some returns)) :
    Satisfies (· = .ucNull) (goBack go retip returns acc)
      (After ever sbBase path₀ here₀ from₀ loop path ·.1) := by
  apply goTo_satisfies spec _ walk
  exact ⟨closed.create _ retip after.graph, after.path, after.loop⟩

private theorem goBranch_satisfies
    (spec : GoSpec ever sbBase path₀ here₀ from₀ go) {g : Graph w}
    (known : ever g)
    (walk : Walk ever path₀ here₀ from₀ path here fromParent) (i : Nat)
    (after : After ever sbBase path₀ here₀ from₀ loop (path ++ [here])
      acc.1) :
    Satisfies (· = .ucNull)
      (goBranch go here ((g.get here).opened fromParent) acc i)
      (After ever sbBase path₀ here₀ from₀ loop (path ++ [here]) ·.1) := by
  unfold goBranch
  cases isBranch : (acc.1.graph.get here).branches[i]?.join with
  | none => exact Satisfies.pure after
  | some dst =>
      rw [Option.join_eq_some_iff] at isBranch
      exact goTo_satisfies spec after (.branch walk known after.graph
        (List.mem_of_getElem? isBranch))

/-- The calls of the superblock that have not been handled are on top of the
stack. -/
def Pending (sb : SB w) (fromParent : Option (List (BitVec w)))
    (returns : List (BitVec w)) (unhandled : Nat) : Prop :=
  unhandled = 0 ∨ ∃ before after, sb.calls = before ++ after ∧
    returns = sb.parents fromParent ++ before ∧ unhandled = before.length

theorem pending_opened (sb : SB w) (fromParent : Option (List (BitVec w))) :
    Pending sb fromParent (sb.opened fromParent) sb.calls.length :=
  .inr ⟨sb.calls, [], (List.append_nil _).symm, rfl, rfl⟩

private theorem pending_dropLast (sb : SB w)
    (fromParent : Option (List (BitVec w))) :
    Pending sb fromParent (sb.opened fromParent).dropLast
      (sb.calls.length - 1) := by
  cases last : sb.calls.getLast? with
  | none =>
      rw [List.getLast?_eq_none_iff] at last
      exact .inl (by rw [last]; rfl)
  | some dst =>
      obtain ⟨before, isCalls⟩ := List.getLast?_eq_some_iff.mp last
      refine .inr ⟨before, [dst], isCalls, ?_, ?_⟩
      · rw [SB.opened, isCalls, ← List.append_assoc, List.dropLast_concat]
      · rw [isCalls, List.length_append]
        rfl

private theorem goNext_satisfies (closed : Closed translateAhead ever)
    (spec : GoSpec ever sbBase path₀ here₀ from₀ go) {g : Graph w}
    (known : ever g)
    (walk : Walk ever path₀ here₀ from₀ path here fromParent)
    (after : After ever sbBase path₀ here₀ from₀ loop (path ++ [here])
      acc.1) :
    Satisfies (· = .ucNull)
      (goNext go here ((g.get here).opened fromParent)
        (g.get here).calls.length acc)
      (fun out =>
        After ever sbBase path₀ here₀ from₀ loop (path ++ [here]) out.1.1 ∧
        Pending (g.get here) fromParent out.2.1 out.2.2) := by
  have stays := pending_opened (g.get here) fromParent
  have forward : ∀ dst, (acc.1.graph.get here).next = some dst →
      Satisfies (· = .ucNull) (do
        let acc ← goTo go dst ((g.get here).opened fromParent) acc
        pure (acc, (g.get here).opened fromParent,
          (g.get here).calls.length)) (fun out =>
        After ever sbBase path₀ here₀ from₀ loop (path ++ [here]) out.1.1 ∧
        Pending (g.get here) fromParent out.2.1 out.2.2) := by
    intro dst isNext
    apply (goTo_satisfies spec after
      (.next walk known after.graph isNext)).bind
    exact fun out after' => Satisfies.pure ⟨after', stays⟩
  have back : (acc.1.graph.get here).nextType = .ret ∨
        (acc.1.graph.get here).nextType = .indirect →
      Satisfies (· = .ucNull)
        (match ((g.get here).opened fromParent).getLast? with
        | none => pure (acc, (g.get here).opened fromParent,
            (g.get here).calls.length)
        | some retip => do
            let acc ← goBack go retip
              ((g.get here).opened fromParent).dropLast acc
            pure (acc, ((g.get here).opened fromParent).dropLast,
              (g.get here).calls.length - 1)) (fun out =>
        After ever sbBase path₀ here₀ from₀ loop (path ++ [here]) out.1.1 ∧
        Pending (g.get here) fromParent out.2.1 out.2.2) := by
    intro isReturn
    cases top : ((g.get here).opened fromParent).getLast? with
    | none => exact Satisfies.pure ⟨after, stays⟩
    | some retip =>
        obtain ⟨returns, isTop⟩ := List.getLast?_eq_some_iff.mp top
        have below : (g.get here).opened fromParent =
            ((g.get here).opened fromParent).dropLast ++ [retip] := by
          rw [isTop, List.dropLast_concat]
        apply (goBack_satisfies closed spec after
          (.ret walk known after.graph isReturn below)).bind
        exact fun out after' => Satisfies.pure
          ⟨after', pending_dropLast (g.get here) fromParent⟩
  unfold goNext
  dsimp only
  split
  · rename_i dst isNext _
    exact forward dst isNext
  · rename_i dst isNext _
    exact forward dst isNext
  · rename_i isType
    exact back (.inl isType)
  · rename_i isType
    exact back (.inr isType)
  · exact Satisfies.pure ⟨after, stays⟩
  · exact Satisfies.pure ⟨after, stays⟩

private theorem goCalls_satisfies (closed : Closed translateAhead ever)
    (spec : GoSpec ever sbBase path₀ here₀ from₀ go) {g : Graph w}
    (known : ever g)
    (walk : Walk ever path₀ here₀ from₀ path here fromParent)
    (unhandled : Nat) {returns : List (BitVec w)}
    (pending : Pending (g.get here) fromParent returns unhandled)
    (after : After ever sbBase path₀ here₀ from₀ loop (path ++ [here])
      acc.1) :
    Satisfies (· = .ucNull) (goCalls go unhandled returns acc)
      (After ever sbBase path₀ here₀ from₀ loop (path ++ [here]) ·.1) := by
  induction unhandled generalizing returns acc with
  | zero => exact Satisfies.pure after
  | succ unhandled induction =>
      unfold goCalls
      split
      · exact Satisfies.pure after
      · obtain ⟨before, later, isCalls, isReturns, count⟩ :=
          pending.resolve_left (Nat.succ_ne_zero _)
        obtain ⟨earlier, dst, isBefore⟩ : ∃ earlier dst,
            before = earlier ++ [dst] := by
          have nonempty : before ≠ [] := by
            rintro rfl
            cases count
          exact ⟨before.dropLast, before.getLast nonempty,
            (List.dropLast_concat_getLast nonempty).symm⟩
        have top : returns = ((g.get here).parents fromParent ++ earlier) ++
            [dst] := by
          rw [isReturns, isBefore, List.append_assoc]
        have inOrder : (g.get here).calls = earlier ++ dst :: later := by
          rw [isCalls, isBefore, List.append_assoc]
          rfl
        rw [top, List.getLast?_concat, List.dropLast_concat]
        apply (goBack_satisfies closed spec after
          (.call walk known inOrder)).bind
        intro acc' after'
        apply induction _ after'
        refine .inr ⟨earlier, dst :: later, inOrder, rfl, ?_⟩
        rw [isBefore, List.length_append] at count
        exact Nat.succ.inj count

private theorem goDeeper_satisfies (closed : Closed translateAhead ever)
    (spec : GoSpec ever sbBase path₀ here₀ from₀ go) {s : Search w}
    (known : ever s.graph)
    (walk : Walk ever path₀ here₀ from₀ s.path here fromParent) :
    Satisfies (· = .ucNull) (goDeeper go here fromParent s)
      (After ever sbBase path₀ here₀ from₀ s.loop s.path ·.1) := by
  unfold goDeeper
  have entry : After ever sbBase path₀ here₀ from₀ s.loop (s.path ++ [here])
      { s with path := s.path ++ [here] } :=
    ⟨known, rfl, [], (List.append_nil _).symm, by nofun⟩
  have branches := @Satisfies.foldlM_kept _ _ _ (· = Failure.ucNull)
    (goBranch go here ((s.graph.get here).opened fromParent))
    (fun acc => After ever sbBase path₀ here₀ from₀ s.loop
      (s.path ++ [here]) acc.1) (List.range maxBblocks)
    ({ s with path := s.path ++ [here] }, false)
    (fun acc i _ after => goBranch_satisfies spec known walk i after) entry
  apply branches.bind
  intro acc after
  apply (goNext_satisfies closed spec known walk after).bind
  rintro ⟨acc, returns, unhandled⟩ ⟨after, pending⟩
  apply (goCalls_satisfies closed spec known walk unhandled pending after).bind
  intro acc after
  rw [after.path, List.getLast?_concat, List.dropLast_concat]
  dsimp only
  rw [if_pos rfl]
  exact Satisfies.pure ⟨after.graph, rfl, after.loop⟩

end Steps

private theorem detect_spec {here : BitVec w}
    {fromParent : Option (List (BitVec w))} {s s' : Search w}
    (known : ever s.graph)
    (walk : Walk ever path₀ here₀ from₀ s.path here fromParent)
    (found : detect sbBase here fromParent s = some s') :
    After ever sbBase path₀ here₀ from₀ s.loop s.path s' := by
  cases fromParent with
  | none => cases found
  | some returns =>
      have single : ∀ seq, Detected ever sbBase path₀ here₀ from₀ seq →
          After ever sbBase path₀ here₀ from₀ s.loop s.path
            { s with loop := s.loop ++ seq } := by
        intro seq detected
        refine ⟨known, rfl, [seq], by simp, ?_⟩
        intro other member
        rw [List.mem_singleton.mp member]
        exact detected
      unfold detect at found
      rw [if_neg (by simp)] at found
      split at found
      · rename_i isBase
        cases found
        rw [pushAllBack_nil, pushAllBack_zero]
        exact single _ ⟨s.path, here, returns, walk, .inl ⟨isBase.symm, rfl⟩⟩
      · rename_i notBase
        split at found
        · rename_i intersects
          cases found
          rw [pushAllBack_nil]
          exact single _ ⟨s.path, here, returns, walk, .inr
            ⟨s.graph, known, Ne.symm notBase, intersects, rfl⟩⟩
        · cases found

private theorem dfsSearchWRK_satisfies (closed : Closed translateAhead ever)
    (depth : Nat) {here : BitVec w} {fromParent : Option (List (BitVec w))}
    {s : Search w} (known : ever s.graph)
    (walk : Walk ever path₀ here₀ from₀ s.path here fromParent) :
    Satisfies (· = .ucNull)
      (dfsSearchWRK translateAhead sbBase depth here fromParent s)
      (After ever sbBase path₀ here₀ from₀ s.loop s.path ·.1) := by
  induction depth generalizing here fromParent s with
  | zero => exact After.refl known
  | succ depth induction =>
      have discovered : ever (discover translateAhead s.graph here).1 := by
        unfold discover
        split
        · exact closed.translateAhead _ _ known
        · exact known
      unfold dfsSearchWRK
      split
      · rename_i graph isGraph
        rw [isGraph] at discovered
        exact Satisfies.pure ⟨discovered, rfl, [],
          (List.append_nil _).symm, by nofun⟩
      · rename_i graph isGraph
        rw [isGraph] at discovered
        cases updated : updateSBwithUC graph here with
        | error failure =>
            show failure = .ucNull
            unfold updateSBwithUC at updated
            split at updated
            · split at updated
              · cases updated
                rfl
              · split at updated <;> cases updated
            · cases updated
        | ok graph' =>
            have known' := closed.update _ _ _ discovered updated
            rw [ok_bind]
            dsimp only
            split
            · rename_i s' found
              exact detect_spec (s := { s with graph := graph' }) known' walk
                found
            · split
              · exact Satisfies.pure ⟨known', rfl, [],
                  (List.append_nil _).symm, by nofun⟩
              · apply goDeeper_satisfies (s := { s with graph := graph' })
                  closed _ known' walk
                intro dst returns s' ever' walk'
                exact induction ever' walk'

/-- The search with the base and an empty path appends closed walks, and walks
from the base to another superblock with code of the base, which then takes
the place of the base.  Whatever the search begins with, the path is restored,
and only the assertion about unpredictable calls can fail. -/
theorem dfs_search_appends_walks (closed : Closed translateAhead ever)
    (depth : Nat) :
    (∀ here fromParent s, ever s.graph → Satisfies (· = .ucNull)
      (dfsSearchWRK translateAhead sbBase depth here fromParent s)
      (·.1.path = s.path)) ∧
    ∀ s out, ever s.graph → s.path = [] →
      dfsSearchWRK translateAhead sbBase depth sbBase none s = .ok out →
      ∃ seqs : List (List (BitVec w)), out.1.loop = s.loop ++ seqs.flatten ∧
        ∀ seq ∈ seqs, ClosedWalk ever seq ∨ Intersecting ever sbBase seq := by
  constructor
  · intro here fromParent s known
    apply (dfsSearchWRK_satisfies closed depth known .start).mono
    exact fun out after => after.path
  · intro s out known empty done
    have atBase : Walk ever [] sbBase none s.path sbBase none := by
      rw [empty]
      exact .start
    have searched := @dfsSearchWRK_satisfies _ _ _ sbBase _ _ _ closed depth
      _ _ _ known atBase
    obtain ⟨seqs, isLoop, each⟩ := (searched.of_eq_ok done).loop
    refine ⟨seqs, isLoop, fun seq member => ?_⟩
    obtain ⟨path, found, returns, walk, ⟨rfl, rfl⟩ |
      ⟨g, isGraph, other, intersects, isSeq⟩⟩ := each seq member
    · exact .inl ⟨found, returns, walk⟩
    · exact .inr ⟨path, found, returns, g, walk, isGraph, other, intersects,
        isSeq⟩

end Runs

/-- The base has a branch to `0x200` before the address `0x108`, at which the
superblock begins that follows. -/
def enteredBehind : Graph 32 where
  sbs base :=
    if base = 0x100 then
      some ⟨.analysed, [⟨0x100, 16, false⟩], .direct, some 0x300,
        [some 0x200, none, none], 0, 0⟩
    else if base = 0x200 then
      some ⟨.analysed, [⟨0x200, 16, false⟩], .direct, some 0x108,
        [none, none, none], 0, 0⟩
    else if base = 0x108 then
      some ⟨.analysed, [⟨0x108, 8, false⟩], .direct, some 0x300,
        [none, none, none], 0, 0⟩
    else some ⟨.analysed, [⟨0x300, 16, false⟩], .ret, none,
      [none, none, none], 0, 0⟩
  ucs := fun _ => none

/-- Where a walk can go in one step. -/
def SB.Leads (sb : SB w) (dst : BitVec w) : Prop :=
  some dst ∈ sb.branches ∨ sb.next = some dst ∨ sb.nextType = .ret ∨
    sb.nextType = .indirect ∨ dst ∈ sb.calls

theorem Walk.last {ever : Graph w → Prop} {here₀ here dst : BitVec w}
    {path : List (BitVec w)} {arrived : Option (List (BitVec w))}
    (walk : Walk ever [] here₀ none (path ++ [here]) dst arrived) :
    ∃ fromParent g, Walk ever [] here₀ none path here fromParent ∧ ever g ∧
      (g.get here).Leads dst := by
  generalize isWhole : path ++ [here] = whole at walk
  cases walk with
  | start => exact absurd isWhole (by simp)
  | branch before known known' isBranch =>
      obtain ⟨rfl, same⟩ := List.append_inj' isWhole rfl
      cases same
      exact ⟨_, _, before, known', .inl isBranch⟩
  | next before known known' isNext =>
      obtain ⟨rfl, same⟩ := List.append_inj' isWhole rfl
      cases same
      exact ⟨_, _, before, known', .inr (.inl isNext)⟩
  | ret before known known' isReturn _ =>
      obtain ⟨rfl, same⟩ := List.append_inj' isWhole rfl
      cases same
      refine ⟨_, _, before, known', .inr (.inr ?_)⟩
      exact isReturn.elim .inl fun indirect => .inr (.inl indirect)
  | call before known inOrder =>
      obtain ⟨rfl, same⟩ := List.append_inj' isWhole rfl
      cases same
      refine ⟨_, _, before, known, .inr (.inr (.inr (.inr ?_)))⟩
      rw [inOrder]
      exact List.mem_append_right _ List.mem_cons_self

theorem Walk.here_of_nil {ever : Graph w → Prop} {here₀ here : BitVec w}
    {arrived : Option (List (BitVec w))}
    (walk : Walk ever [] here₀ none [] here arrived) : here = here₀ := by
  generalize isPath : ([] : List (BitVec w)) = path at walk
  cases walk with
  | start => rfl
  | branch | next | ret | call => exact absurd isPath (by simp)

private theorem enteredBehind_leads {dst : BitVec 32}
    (leads : (enteredBehind.get 0x108).Leads dst) : dst = 0x300 := by
  have isSB : enteredBehind.get 0x108 =
      ⟨.analysed, [⟨0x108, 8, false⟩], .direct, some 0x300,
        [none, none, none], 0, 0⟩ := rfl
  rw [isSB] at leads
  simp only [SB.Leads, SB.calls] at leads
  simpa [eq_comm] using leads

private theorem enteredBehind_not_closed {seq : List (BitVec 32)}
    (isSeq : seq = [0x108] ∨ seq = [0x108, 0x200]) :
    ¬ ClosedWalk (· = enteredBehind) seq := by
  rintro ⟨first, returns, walk⟩
  rcases isSeq with rfl | rfl
  · obtain ⟨_, g, before, rfl, leads⟩ := @Walk.last _ _ _ _ _ [] _ walk
    rw [enteredBehind_leads leads] at before
    exact absurd before.here_of_nil (by decide)
  · obtain ⟨_, _, before, -, -⟩ := @Walk.last _ _ _ _ _ [0x108] _ walk
    obtain ⟨_, g, -, rfl, leads⟩ := @Walk.last _ _ _ _ _ [] _ before
    exact absurd (enteredBehind_leads leads) (by decide)

/-- The search takes `0x108` for the base.  The sequence that it appends does
not split into closed walks, since the branch to `0x200` lies before
`0x108`. -/
theorem dfs_search_replaces_base : ∃ out,
    dfsSearchWRK (fun g _ => (g, true)) 0x100 3 0x100 none
      ⟨enteredBehind, [], []⟩ = .ok out ∧
    out.1.loop = [0x108, 0x200] ∧
    ¬ ∃ seqs : List (List (BitVec 32)), out.1.loop = seqs.flatten ∧
      ∀ seq ∈ seqs, ClosedWalk (· = enteredBehind) seq := by
  have seen : (dfsSearchWRK (fun g _ => (g, true)) 0x100 3 0x100 none
      ⟨enteredBehind, [], []⟩).toOption.map (·.1.loop) =
        some [0x108, 0x200] := by
    decide +kernel
  obtain ⟨out, done, isLoop⟩ := exists_ok_of_map seen
  refine ⟨out, done, isLoop, ?_⟩
  rintro ⟨seqs, isFlat, each⟩
  rw [isLoop] at isFlat
  cases seqs with
  | nil => cases isFlat
  | cons seq rest =>
      apply enteredBehind_not_closed _ (each seq List.mem_cons_self)
      match seq with
      | [] =>
          obtain ⟨first, returns, walk⟩ := each [] List.mem_cons_self
          generalize isPath : ([] : List (BitVec 32)) = path at walk
          cases walk with
          | branch | next | ret | call => exact absurd isPath (by simp)
      | [a] =>
          have first : some 0x108 = some a := congrArg (·[0]?) isFlat
          cases first
          exact .inl rfl
      | [a, b] =>
          have first : some 0x108 = some a := congrArg (·[0]?) isFlat
          have second : some 0x200 = some b := congrArg (·[1]?) isFlat
          cases first
          cases second
          exact .inr rfl
      | a :: b :: c :: more =>
          have third : none = some c := congrArg (·[2]?) isFlat
          cases third

private theorem enteredBehind_closed :
    Closed (fun g _ => (g, true)) (· = enteredBehind) := by
  have isSome : ∀ here, enteredBehind.sbs here =
      some (enteredBehind.get here) := by
    intro here
    unfold Graph.get enteredBehind
    dsimp only
    split_ifs <;> rfl
  refine ⟨fun _ _ same => same, ?_, ?_⟩
  · rintro g here g' rfl updated
    have noJump : (enteredBehind.get here).lastJumpIaddr = 0 := by
      unfold Graph.get enteredBehind
      dsimp only
      split_ifs <;> rfl
    unfold updateSBwithUC at updated
    rw [if_neg (not_not_intro noJump)] at updated
    exact (Except.ok.inj updated).symm
  · rintro g retip rfl
    unfold Graph.lookupOrCreateSB Graph.set
    rw [← isSome, Function.update_eq_self]

theorem dfs_search_appends_walks_enteredBehind : ∃ out,
    dfsSearchWRK (fun g _ => (g, true)) 0x100 3 0x100 none
      ⟨enteredBehind, [], []⟩ = .ok out ∧
    ∃ seqs : List (List (BitVec 32)), out.1.loop = [] ++ seqs.flatten ∧
      ∀ seq ∈ seqs, ClosedWalk (· = enteredBehind) seq ∨
        Intersecting (· = enteredBehind) 0x100 seq := by
  have seen : (dfsSearchWRK (fun g _ => (g, true)) 0x100 3 0x100 none
      ⟨enteredBehind, [], []⟩).toOption.map (·.1.loop) =
        some [0x108, 0x200] := by
    decide +kernel
  obtain ⟨out, done, -⟩ := exists_ok_of_map seen
  exact ⟨out, done, (dfs_search_appends_walks enteredBehind_closed 3).2
    ⟨enteredBehind, [], []⟩ out rfl rfl done⟩

end Loops
end HelgrindPlus
