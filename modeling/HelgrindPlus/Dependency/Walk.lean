import HelgrindPlus.Dependency.TreeIterator

/-!
# The steps of a walk

What one call of `treeIterator_Next` can do, and a measure that every call
lowers whose value the loops go on with.  The measure does not look at the
tree, so that it bounds the rounds also where the tree is rewritten.
-/

namespace HelgrindPlus

namespace Dependency

open Outcome

/-- The types of the values whose children the walk goes into. -/
theorem returned_of {typ : IteratValueTyp} {stmtDone : Bool}
    (regular : ¬ (typ = .error ∨ typ = .recurse))
    (visited : ¬ (typ = .stmt ∧ stmtDone = false)) :
    typ = .expr ∨ typ = .stmt ∧ stmtDone = true := by
  cases typ <;> cases stmtDone <;> simp_all

namespace TreeIteratValue

/-- The value has been returned and has no child left. -/
structure Finished (val : TreeIteratValue) : Prop where
  typed : val.typ = .expr ∨ val.typ = .stmt ∧ val.stmtDone = true
  noChild : nextChild val.subExpr = none

/-- What the walk still has to return from the value itself. -/
def pending (val : TreeIteratValue) : Nat :=
  val.subExpr.countP Option.isSome +
    (if val.typ = .stmt ∧ val.stmtDone = false then 1 else 0)

end TreeIteratValue

/-- The step that yields a value: the finished values on the top are taken
off, and the first that is left is returned or gives its next child. -/
inductive Yields (tree : IrsbTree) (iter : TreeIterator)
    (top : TreeIteratValue) (rest : List TreeIteratValue) :
    TreeIterator → TreeIteratValue → Prop where
  | enter (isStmt : top.typ = .stmt) (fresh : top.stmtDone = false) :
      Yields tree iter top rest
        { iter with stack :=
          { top with stmtDone := true, curDepth := rest.length } :: rest }
        { top with stmtDone := true, curDepth := rest.length }
  | child {e : IRExpr} {subExpr : List (Option IRExpr)} {iter' : TreeIterator}
      {val : TreeIteratValue}
      (typed : top.typ = .expr ∨ top.typ = .stmt ∧ top.stmtDone = true)
      (next : nextChild top.subExpr = some (e, subExpr))
      (descended : descend tree
        { iter with stack := { top with subExpr := subExpr } :: rest } top e =
          .ok (iter', some val)) :
      Yields tree iter top rest iter' val

section Steps

variable {tree : IrsbTree} {iter iter' : TreeIterator}
  {val top : TreeIteratValue}

theorem treeIteratorPop_yields {stack : List TreeIteratValue}
    (popped : treeIteratorPop tree iter stack = .ok (iter', some val))
    (goesOn : val.typ ≠ .recurse) :
    ∃ finished top rest, stack = finished ++ top :: rest ∧
      (∀ done ∈ finished, done.Finished) ∧ rest.length < iter.stackSize ∧
      Yields tree iter top rest iter' val := by
  induction stack with
  | nil => cases popped
  | cons top rest induction =>
      unfold treeIteratorPop at popped
      split at popped
      · cases popped
        exact absurd rfl goesOn
      · next room =>
          have room : rest.length < iter.stackSize := Nat.lt_of_not_le room
          split at popped
          · cases popped
          · next typed =>
              split at popped
              · next fresh =>
                  cases popped
                  exact ⟨[], top, rest, rfl, by simp, room,
                    .enter fresh.1 fresh.2⟩
              · next visited =>
                  have typed := returned_of typed visited
                  cases next : nextChild top.subExpr with
                  | none =>
                      simp only [next] at popped
                      obtain ⟨finished, top', rest', split, done, below,
                        yields⟩ := induction popped
                      refine ⟨top :: finished, top', rest', ?_, ?_, below,
                        yields⟩
                      · rw [split, List.cons_append]
                      · intro value member
                        rcases List.mem_cons.mp member with rfl | member
                        · exact ⟨typed, next⟩
                        · exact done value member
                  | some child =>
                      simp only [next] at popped
                      exact ⟨[], top, rest, rfl, by simp, room,
                        .child typed next popped⟩

end Steps

/-- The operands that the walk takes as the children of the expression. -/
def IRExpr.children : IRExpr → List IRAtom
  | get _ _ | getI _ _ _ | atom _ | ccall _ _ _ => []
  | qop _ arg1 arg2 arg3 arg4 => [arg1, arg2, arg3, arg4]
  | triop _ arg1 arg2 arg3 => [arg1, arg2, arg3]
  | binop _ arg1 arg2 => [arg1, arg2]
  | unop _ arg => [arg]
  | load _ _ addr => [addr]
  | mux0X cond expr0 exprX => [cond, expr0, exprX]

/-- The expressions that end the walk. -/
def IRExpr.unknown : IRExpr → Bool
  | getI _ _ _ | ccall _ _ _ => true
  | _ => false

def IRExpr.isLoad : IRExpr → Bool
  | load _ _ _ => true
  | _ => false

/-- The statement that an expression has its value from. -/
def leadsTo (tree : IrsbTree) (loopGetPut : Bool) :
    IRExpr → Except Halt (Option Nat)
  | .atom (.rdTmp tmp) => do
      let stmtIdx ← treeNodeTmp tree tmp
      return some stmtIdx
  | .get offset ty =>
      if loopGetPut then treeNodeRegister tree offset ty else return none
  | _ => return none

/-- What is put on the stack under the value of an expression. -/
def under (tree : IrsbTree) (loopGetPut : Bool) (e : IRExpr) :
    Except Halt (List TreeIteratValue) := do
  match ← leadsTo tree loopGetPut e with
  | none => return []
  | some stmtIdx => do
      let val ← treeIteratorStmt tree stmtIdx
      return [val]

section Descent

variable {tree : IrsbTree} {iter iter' : TreeIterator}
  {val top : TreeIteratValue} {e : IRExpr}

private theorem children_length_le (e : IRExpr) : e.children.length ≤ 4 := by
  cases e <;> simp [IRExpr.children]

theorem children_tmps {e : IRExpr} {arg : IRAtom} (member : arg ∈ e.children)
    {tmp : Nat} (read : tmp ∈ arg.tmps) : tmp ∈ e.tmps := by
  cases e <;>
    simp only [IRExpr.children, List.mem_cons, List.not_mem_nil, or_false]
      at member <;>
    simp only [IRExpr.tmps, List.mem_append]
  case mux0X => rcases member with rfl | rfl | rfl <;> simp [read]
  case qop => rcases member with rfl | rfl | rfl | rfl <;> simp [read]
  case triop => rcases member with rfl | rfl | rfl <;> simp [read]
  case binop => rcases member with rfl | rfl <;> simp [read]
  case unop => exact member ▸ read
  case load => exact member ▸ read

theorem leadsTo_rdTmp {loopGetPut : Bool} {tmp : Nat} {target : Option Nat}
    (led : leadsTo tree loopGetPut (.atom (.rdTmp tmp)) = .ok target) :
    ∃ idx, treeNodeTmp tree tmp = .ok idx ∧ target = some idx := by
  obtain ⟨idx, node, led⟩ := bind_eq_ok.mp led
  cases led
  exact ⟨idx, node, rfl⟩

private theorem followStmt_expr {stmtIdx : Nat} {whenFull : IteratValueTyp}
    (followed : followStmt tree iter e stmtIdx whenFull = .ok (iter', val))
    (typed : val.typ = .expr) (other : whenFull ≠ .expr) :
    ∃ below, treeIteratorStmt tree stmtIdx = .ok below ∧
      iter' = iter.push below ∧ val = exprValue e [] := by
  unfold followStmt at followed
  split at followed
  · cases followed
    exact absurd typed other
  · obtain ⟨below, found, done⟩ := bind_eq_ok.mp followed
    cases done
    exact ⟨below, found, rfl, rfl⟩

private theorem treeIteratorExpr_expr
    (walked : treeIteratorExpr tree iter e = .ok (iter', val))
    (typed : val.typ = .expr) :
    ∃ below, under tree iter.loopGetPut e = .ok below ∧
      e.unknown = false ∧ (e.isLoad = true → iter.loopLoadStore = false) ∧
      iter' = { iter with stack := below ++ iter.stack } ∧
      val = exprValue e e.children := by
  have notLoad : false = true → iter.loopLoadStore = false :=
    (absurd · Bool.false_ne_true)
  cases e with
  | getI descr ix bias => cases walked; cases typed
  | ccall cee retty args => cases walked; cases typed
  | atom operand =>
      cases operand with
      | const con => cases walked; exact ⟨[], rfl, rfl, notLoad, rfl, rfl⟩
      | rdTmp tmp =>
          obtain ⟨stmtIdx, node, followed⟩ := bind_eq_ok.mp walked
          obtain ⟨below, found, rfl, rfl⟩ :=
            followStmt_expr followed typed (by decide)
          refine ⟨[below], ?_, rfl, notLoad, rfl, rfl⟩
          simp only [under, leadsTo, node, ok_bind]
          rw [show (pure (some stmtIdx) : Except Halt (Option Nat)) =
            .ok (some stmtIdx) from rfl, ok_bind]
          simp only [found, ok_bind]
          rfl
  | get offset ty =>
      unfold treeIteratorExpr at walked
      rcases Bool.eq_false_or_eq_true iter.loopGetPut with loops | loops
      · simp only [loops, if_true] at walked
        obtain ⟨target, node, followed⟩ := bind_eq_ok.mp walked
        cases target with
        | none =>
            cases followed
            refine ⟨[], ?_, rfl, notLoad, rfl, rfl⟩
            simp only [under, leadsTo, loops, if_true, node, ok_bind]
            rfl
        | some stmtIdx =>
            obtain ⟨below, found, rfl, rfl⟩ :=
              followStmt_expr followed typed (by decide)
            refine ⟨[below], ?_, rfl, notLoad, rfl, rfl⟩
            simp only [under, leadsTo, loops, if_true, node, ok_bind, found]
            rfl
      · simp only [loops] at walked
        cases walked
        refine ⟨[], ?_, rfl, notLoad, rfl, rfl⟩
        simp only [under, leadsTo, loops]
        rfl
  | load endness ty addr =>
      obtain ⟨done, asserted, walked⟩ := bind_eq_ok.mp walked
      cases walked
      exact ⟨[], rfl, rfl, fun _ => tlAssert_eq_ok.mp asserted, rfl, rfl⟩
  | qop op arg1 arg2 arg3 arg4 =>
      cases walked; exact ⟨[], rfl, rfl, notLoad, rfl, rfl⟩
  | triop op arg1 arg2 arg3 =>
      cases walked; exact ⟨[], rfl, rfl, notLoad, rfl, rfl⟩
  | binop op arg1 arg2 =>
      cases walked; exact ⟨[], rfl, rfl, notLoad, rfl, rfl⟩
  | unop op arg =>
      cases walked; exact ⟨[], rfl, rfl, notLoad, rfl, rfl⟩
  | mux0X cond expr0 exprX =>
      cases walked; exact ⟨[], rfl, rfl, notLoad, rfl, rfl⟩

/-- The value of an expression whose parent is `top`. -/
def childValue (top : TreeIteratValue) (e : IRExpr) (depth : Nat) :
    TreeIteratValue :=
  { exprValue e e.children with stmtIdx := top.stmtIdx, curDepth := depth }

/-- What a child of a value adds to the stack. -/
theorem descend_expr
    (descended : descend tree iter top e = .ok (iter', some val))
    (typed : val.typ = .expr) :
    ∃ below, under tree iter.loopGetPut e = .ok below ∧
      e.unknown = false ∧ (e.isLoad = true → iter.loopLoadStore = false) ∧
      (below ++ iter.stack).length ≤ iter.stackSize ∧
      iter' = { iter with stack := val :: (below ++ iter.stack) } ∧
      val = childValue top e (below ++ iter.stack).length := by
  obtain ⟨⟨iter₁, val₁⟩, walked, done⟩ := bind_eq_ok.mp descended
  dsimp only at done
  split at done
  · cases done
    cases typed
  · next room =>
      cases done
      obtain ⟨below, found, known, allowed, rfl, rfl⟩ :=
        treeIteratorExpr_expr walked typed
      refine ⟨below, found, known, allowed, ?_, rfl, rfl⟩
      simpa [TreeIterator.full] using room

theorem under_eq_ok {loopGetPut : Bool} {e : IRExpr}
    {below : List TreeIteratValue}
    (found : under tree loopGetPut e = .ok below) :
    (leadsTo tree loopGetPut e = .ok none ∧ below = []) ∨
      ∃ stmtIdx entered, leadsTo tree loopGetPut e = .ok (some stmtIdx) ∧
        treeIteratorStmt tree stmtIdx = .ok entered ∧ below = [entered] := by
  obtain ⟨target, led, found⟩ := bind_eq_ok.mp found
  cases target with
  | none =>
      cases found
      exact .inl ⟨led, rfl⟩
  | some stmtIdx =>
      obtain ⟨entered, known, done⟩ := bind_eq_ok.mp found
      cases done
      exact .inr ⟨stmtIdx, entered, led, known, rfl⟩

private theorem treeIteratorExpr_of_under {below : List TreeIteratValue}
    (found : under tree iter.loopGetPut e = .ok below)
    (known : e.unknown = false) (single : iter.loopLoadStore = false)
    (room : (below ++ iter.stack).length ≤ iter.stackSize) :
    treeIteratorExpr tree iter e =
      .ok ({ iter with stack := below ++ iter.stack },
        exprValue e e.children) := by
  have follows : ∀ stmtIdx entered whenFull,
      treeIteratorStmt tree stmtIdx = .ok entered → below = [entered] →
      followStmt tree iter e stmtIdx whenFull =
        .ok ({ iter with stack := below ++ iter.stack }, exprValue e []) := by
    rintro stmtIdx entered whenFull entering rfl
    have notFull : iter.full = false := by
      simp only [TreeIterator.full, decide_eq_false_iff_not, Nat.not_lt]
      exact Nat.le_of_succ_le room
    rw [followStmt, notFull, entering]
    rfl
  rcases under_eq_ok found with
    ⟨led, rfl⟩ | ⟨stmtIdx, entered, led, entering, same⟩
  · cases e with
    | getI _ _ _ => cases known
    | ccall _ _ _ => cases known
    | atom operand =>
        cases operand with
        | const con => rfl
        | rdTmp tmp =>
            obtain ⟨stmtIdx, _, led⟩ := bind_eq_ok.mp led
            cases led
    | get offset ty =>
        simp only [leadsTo] at led
        simp only [treeIteratorExpr]
        split at led
        · next loops =>
            rw [if_pos loops, led]
            rfl
        · next loops =>
            rw [if_neg loops]
            rfl
    | load endness ty addr =>
        rw [treeIteratorExpr, tlAssert_of single]
        rfl
    | _ => rfl
  · cases e with
    | atom operand =>
        cases operand with
        | const con => cases led
        | rdTmp tmp =>
            obtain ⟨target, node, led⟩ := bind_eq_ok.mp led
            cases led
            rw [treeIteratorExpr, node, ok_bind]
            exact follows _ _ _ entering same
    | get offset ty =>
        simp only [leadsTo] at led
        simp only [treeIteratorExpr]
        split at led
        · next loops =>
            rw [if_pos loops, led, ok_bind]
            exact follows _ _ _ entering same
        · cases led
    | _ => cases led

/-- What an expression leads to is looked up first. -/
theorem descend_of_error {halt : Halt}
    (failed : leadsTo tree iter.loopGetPut e = .error halt) :
    descend tree iter top e = .error halt := by
  have walked : treeIteratorExpr tree iter e = .error halt := by
    cases e with
    | atom operand =>
        cases operand with
        | const con => cases failed
        | rdTmp tmp =>
            cases node : treeNodeTmp tree tmp with
            | error halt' =>
                rw [leadsTo, node] at failed
                rw [treeIteratorExpr, node]
                cases failed
                rfl
            | ok idx =>
                rw [leadsTo, node] at failed
                cases failed
    | get offset ty =>
        simp only [leadsTo] at failed
        split at failed
        · next loops =>
            rw [treeIteratorExpr, if_pos loops, failed]
            rfl
        · cases failed
    | _ => cases failed
  rw [descend, walked]
  rfl

/-- The child is put on the stack where there is room. -/
theorem descend_of_under {below : List TreeIteratValue}
    (found : under tree iter.loopGetPut e = .ok below)
    (known : e.unknown = false) (single : iter.loopLoadStore = false)
    (room : (below ++ iter.stack).length ≤ iter.stackSize) :
    let iter' : TreeIterator := { iter with stack := below ++ iter.stack }
    let val := childValue top e iter'.stack.length
    descend tree iter top e = .ok (iter'.push val, some val) := by
  have notFull : ({ iter with stack := below ++ iter.stack } :
      TreeIterator).full = false := by
    simpa [TreeIterator.full] using room
  rw [descend, treeIteratorExpr_of_under found known single room, ok_bind]
  simp only [notFull]
  rfl

end Descent

theorem nextChild_eq_some {children children' : List (Option IRExpr)}
    {e : IRExpr} (next : nextChild children = some (e, children')) :
    ∃ done later, children = done ++ some e :: later ∧
      children' = done ++ none :: later ∧ ∀ child ∈ done, child = none := by
  induction children generalizing children' with
  | nil => cases next
  | cons child rest induction =>
      cases child with
      | some first =>
          cases next
          exact ⟨[], rest, rfl, rfl, by simp⟩
      | none =>
          simp only [nextChild] at next
          split at next
          · next found =>
              cases next
              obtain ⟨done, later, rfl, rfl, all⟩ := induction found
              exact ⟨none :: done, later, rfl, rfl, by simpa using all⟩
          · cases next

theorem nextChild_eq_none {children : List (Option IRExpr)} :
    nextChild children = none ↔ ∀ child ∈ children, child = none := by
  induction children with
  | nil => simp [nextChild]
  | cons child rest induction =>
      cases child with
      | some first => simp [nextChild]
      | none =>
          rw [List.forall_mem_cons, ← induction]
          simp only [nextChild, true_and]
          split <;> simp_all

/-- The children that are left before and after one is taken. -/
theorem some_mem_of_nextChild {children children' : List (Option IRExpr)}
    {e : IRExpr} (next : nextChild children = some (e, children'))
    (child : IRExpr) :
    some child ∈ children ↔ child = e ∨ some child ∈ children' := by
  obtain ⟨done, later, rfl, rfl, _⟩ := nextChild_eq_some next
  simp
  tauto

/-- A weight of the values on the stack: that of a value outweighs what its
children can add above it. -/
def stackWeight (size : Nat) : List TreeIteratValue → Nat
  | [] => 0
  | top :: rest =>
      top.pending * 5 ^ (size + 1 - rest.length) + stackWeight size rest

def TreeIterator.weight (iter : TreeIterator) : Nat :=
  stackWeight iter.stackSize iter.stack

section Weight

variable {tree : IrsbTree} {iter iter' : TreeIterator}
  {val top : TreeIteratValue} {rest : List TreeIteratValue} {size : Nat}

private theorem stackWeight_append (finished stack : List TreeIteratValue) :
    stackWeight size stack ≤ stackWeight size (finished ++ stack) := by
  induction finished with
  | nil => exact Nat.le_refl _
  | cons done finished induction =>
      rw [List.cons_append, stackWeight]
      omega

private theorem treeIteratorStmt_pending {root : Nat}
    (found : treeIteratorStmt tree root = .ok val) : val.pending ≤ 3 := by
  unfold treeIteratorStmt at found
  split at found <;> cases found <;> simp [TreeIteratValue.pending]

private theorem childValue_pending (top : TreeIteratValue) (e : IRExpr)
    (depth : Nat) : (childValue top e depth).pending ≤ 4 := by
  have few := children_length_le e
  have bound := List.countP_le_length (p := Option.isSome)
    (l := e.children.map fun arg => some (IRExpr.atom arg))
  rw [List.length_map] at bound
  simp only [TreeIteratValue.pending, childValue, exprValue]
  simp only [reduceCtorEq, false_and, if_false]
  omega

theorem pending_of_nextChild {e : IRExpr} {subExpr : List (Option IRExpr)}
    (next : nextChild top.subExpr = some (e, subExpr)) :
    top.pending = ({ top with subExpr := subExpr } : TreeIteratValue).pending +
      1 := by
  obtain ⟨done, later, before, rfl, _⟩ := nextChild_eq_some next
  simp only [TreeIteratValue.pending, before, List.countP_append,
    List.countP_cons, Option.isSome_some, Option.isSome_none]
  simp only [if_true, Bool.false_eq_true, if_false]
  omega

private theorem treeIteratorExpr_typ {e : IRExpr}
    (walked : treeIteratorExpr tree iter e = .ok (iter', val)) :
    val.typ ≠ .stmt := by
  have follows : ∀ stmtIdx whenFull, whenFull ≠ IteratValueTyp.stmt →
      followStmt tree iter e stmtIdx whenFull = .ok (iter', val) →
      val.typ ≠ .stmt := by
    intro stmtIdx whenFull other followed
    unfold followStmt at followed
    split at followed
    · cases followed
      exact other
    · obtain ⟨below, found, done⟩ := bind_eq_ok.mp followed
      cases done
      nofun
  unfold treeIteratorExpr at walked
  split at walked
  case h_4 offset ty =>
    split at walked
    · obtain ⟨target, node, followed⟩ := bind_eq_ok.mp walked
      cases target with
      | none => cases followed; nofun
      | some stmtIdx => exact follows stmtIdx .error nofun followed
    · cases walked
      nofun
  case h_5 tmp =>
    obtain ⟨stmtIdx, node, followed⟩ := bind_eq_ok.mp walked
    exact follows stmtIdx .recurse nofun followed
  case h_11 endness ty addr =>
    obtain ⟨done, asserted, walked⟩ := bind_eq_ok.mp walked
    cases walked
    nofun
  all_goals
    cases walked
    nofun

theorem descend_typ {e : IRExpr}
    (descended : descend tree iter top e = .ok (iter', some val)) :
    val.typ ≠ .stmt := by
  obtain ⟨⟨iter₁, val₁⟩, walked, done⟩ := bind_eq_ok.mp descended
  dsimp only at done
  split at done
  · cases done
    nofun
  · cases done
    exact @treeIteratorExpr_typ tree iter iter₁ val₁ e walked

/-- What a child adds to the weight is less than what its parent loses. -/
theorem descend_weight_lt {e : IRExpr} {subExpr : List (Option IRExpr)}
    (next : nextChild top.subExpr = some (e, subExpr))
    (descended : descend tree
      { iter with stack := { top with subExpr := subExpr } :: rest } top e =
        .ok (iter', some val))
    (typed : val.typ = .expr) :
    iter'.stackSize = iter.stackSize ∧
      iter'.weight < stackWeight iter.stackSize (top :: rest) := by
  obtain ⟨below, found, _, _, room, rfl, rfl⟩ := descend_expr descended typed
  refine ⟨rfl, ?_⟩
  have light := childValue_pending top e
    (below ++ { top with subExpr := subExpr } :: rest).length
  simp only [TreeIterator.weight, stackWeight, pending_of_nextChild next,
    Nat.add_mul, Nat.one_mul]
  rcases under_eq_ok found with ⟨_, rfl⟩ | ⟨_, entered, _, known, rfl⟩
  · obtain ⟨room', atLeast⟩ : ∃ room',
        iter.stackSize + 1 - rest.length = room' + 1 := by
      have fits : rest.length + 1 ≤ iter.stackSize := room
      exact ⟨iter.stackSize - rest.length, by omega⟩
    have above : iter.stackSize + 1 - (rest.length + 1) = room' := by omega
    have bound := Nat.mul_le_mul_right (5 ^ room') light
    have positive : 0 < 5 ^ room' := Nat.pow_pos (by decide)
    simp only [List.nil_append, List.length_cons, stackWeight, atLeast, above,
      Nat.pow_succ] at bound ⊢
    omega
  · obtain ⟨room', atLeast⟩ : ∃ room',
        iter.stackSize + 1 - rest.length = room' + 2 := by
      have fits : rest.length + 1 + 1 ≤ iter.stackSize := room
      exact ⟨iter.stackSize - rest.length - 1, by omega⟩
    have above : iter.stackSize + 1 - (rest.length + 1) = room' + 1 := by
      omega
    have above' : iter.stackSize + 1 - (rest.length + 1 + 1) = room' := by
      omega
    have bound := Nat.mul_le_mul_right (5 ^ room') light
    have bound' := Nat.mul_le_mul_right (5 ^ (room' + 1))
      (treeIteratorStmt_pending known)
    have positive : 0 < 5 ^ room' := Nat.pow_pos (by decide)
    simp only [List.cons_append, List.nil_append, List.length_cons,
      stackWeight, atLeast, above, above', Nat.pow_succ] at bound bound' ⊢
    omega

/-- A step to a value that a walk goes on with lowers the weight. -/
theorem Yields.weight_lt (yields : Yields tree iter top rest iter' val)
    (goesOn : val.typ = .stmt ∨ val.typ = .expr) :
    iter'.stackSize = iter.stackSize ∧
      iter'.weight < stackWeight iter.stackSize (top :: rest) := by
  cases yields with
  | enter isStmt fresh =>
      refine ⟨rfl, ?_⟩
      simp only [TreeIterator.weight, stackWeight, TreeIteratValue.pending,
        isStmt, fresh, true_and, if_true, if_false, Nat.add_zero, Nat.add_mul,
        Nat.one_mul, Bool.true_eq_false]
      have positive : 0 < 5 ^ (iter.stackSize + 1 - rest.length) :=
        Nat.pow_pos (by decide)
      omega
  | child typed next descended =>
      rcases goesOn with isStmt | isExpr
      · exact absurd isStmt (descend_typ descended)
      · exact descend_weight_lt next descended isExpr

/-- The weight bounds the calls that a loop can go on after. -/
theorem treeIteratorNext_weight_lt
    (moved : treeIteratorNext tree iter = .ok (iter', some val))
    (goesOn : val.typ = .stmt ∨ val.typ = .expr) :
    iter'.stackSize = iter.stackSize ∧ iter'.weight < iter.weight := by
  have walks : val.typ ≠ .recurse := by
    rcases goesOn with typ | typ <;> rw [typ] <;> nofun
  obtain ⟨finished, top, rest, split, _, _, yields⟩ :=
    treeIteratorPop_yields moved walks
  obtain ⟨size, lower⟩ := yields.weight_lt goesOn
  refine ⟨size, lower.trans_le ?_⟩
  rw [TreeIterator.weight, split]
  exact stackWeight_append finished (top :: rest)

end Weight

/-- A walk that starts at a statement of a block of this length has at most
this weight. -/
def walkBound (stmts : Nat) : Nat := 3 * 5 ^ (2 * stmts + 1)

section Ends

variable {tree : IrsbTree} {iter : TreeIterator}

/-- The computation aborts at most at an assertion or with a panic. -/
abbrev Ends {α : Type} (computation : Except Halt α) (post : α → Prop) :
    Prop :=
  Satisfies (· ≠ Halt.outOfFuel) computation post

theorem tlAssert_ends (condition : Prop) [Decidable condition] :
    Ends (tlAssert condition) fun _ => condition := by
  unfold tlAssert
  split
  · assumption
  · nofun

theorem treeNodeTmp_ends (tree : IrsbTree) (tmp : Nat) :
    Ends (treeNodeTmp tree tmp) fun _ => True := by
  unfold treeNodeTmp
  split
  · split
    · trivial
    · nofun
  · nofun

private theorem sizeofIRType_ends (ty : IRType) :
    Ends (sizeofIRType ty) fun _ => True := by
  cases ty <;> first | trivial | nofun

theorem treeNodeRegister_ends (tree : IrsbTree) (offset : Nat)
    (ty : IRType) : Ends (treeNodeRegister tree offset ty) fun _ => True := by
  refine @Satisfies.bind _ _ _ _ _ _ (fun _ => True) _ ?_
    fun _ _ => trivial
  apply (sizeofIRType_ends ty).bind
  intro size _
  apply (tlAssert_ends _).bind
  intro _ _
  apply (tlAssert_ends _).bind
  intro _ _
  trivial

private theorem treeIteratorStmt_ends (tree : IrsbTree) (root : Nat) :
    Ends (treeIteratorStmt tree root) fun _ => True := by
  unfold treeIteratorStmt
  split
  · nofun
  all_goals trivial

private theorem followStmt_ends (e : IRExpr) (stmtIdx : Nat)
    (whenFull : IteratValueTyp) :
    Ends (followStmt tree iter e stmtIdx whenFull) fun _ => True := by
  unfold followStmt
  split
  · trivial
  · exact (treeIteratorStmt_ends tree stmtIdx).bind fun _ _ => trivial

private theorem treeIteratorExpr_ends (e : IRExpr) :
    Ends (treeIteratorExpr tree iter e) fun _ => True := by
  unfold treeIteratorExpr
  split
  case h_4 offset ty =>
    split
    · apply (treeNodeRegister_ends tree offset ty).bind
      intro target _
      cases target with
      | none => trivial
      | some stmtIdx => exact followStmt_ends _ stmtIdx _
    · trivial
  case h_5 tmp =>
    apply (treeNodeTmp_ends tree tmp).bind
    intro stmtIdx _
    exact followStmt_ends _ stmtIdx _
  case h_11 endness ty addr =>
    exact (tlAssert_ends _).bind fun _ _ => trivial
  all_goals trivial

private theorem treeIteratorPop_ends (stack : List TreeIteratValue) :
    Ends (treeIteratorPop tree iter stack) fun _ => True := by
  induction stack with
  | nil => trivial
  | cons top rest induction =>
      unfold treeIteratorPop
      split
      · trivial
      · split
        · nofun
        · split
          · trivial
          · split
            · exact induction
            · exact (treeIteratorExpr_ends _).bind fun _ _ => trivial

theorem treeIteratorNext_ends (tree : IrsbTree) (iter : TreeIterator) :
    Ends (treeIteratorNext tree iter) fun _ => True :=
  treeIteratorPop_ends iter.stack

theorem treeIteratorNew_ends (tree : IrsbTree) (stmtIdx : Nat) :
    Ends (treeIteratorNew tree stmtIdx) fun iter =>
      iter.weight ≤ walkBound tree.irsb.stmts.length := by
  cases entered : treeIteratorStmt tree stmtIdx with
  | error halt =>
      have ends := treeIteratorStmt_ends tree stmtIdx
      rw [entered] at ends
      rw [treeIteratorNew, entered]
      exact ends
  | ok val =>
      rw [treeIteratorNew, entered]
      have light := treeIteratorStmt_pending entered
      have bound := Nat.mul_le_mul_right
        (5 ^ (2 * tree.irsb.stmts.length + 1)) light
      show stackWeight (tree.irsb.stmts.length * 2) [val] ≤ _
      simpa [stackWeight, walkBound, Nat.mul_comm 2] using bound

/-- The call of `treeIterator_Next` in a loop: what comes after it may use
that the weight has gone down. -/
theorem Ends.next {α : Type}
    {body : TreeIterator × Option TreeIteratValue → Except Halt α}
    {post : α → Prop}
    (done : ∀ iter', Ends (body (iter', none)) post)
    (stops : ∀ iter' val, val.typ = .recurse ∨ val.typ = .error →
      Ends (body (iter', some val)) post)
    (goesOn : ∀ iter' val, val.typ = .stmt ∨ val.typ = .expr →
      iter'.weight < iter.weight → Ends (body (iter', some val)) post) :
    Ends (treeIteratorNext tree iter >>= body) post := by
  cases moved : treeIteratorNext tree iter with
  | error halt =>
      have ends := treeIteratorNext_ends tree iter
      rw [moved] at ends
      exact ends
  | ok result =>
      obtain ⟨iter', found⟩ := result
      cases found with
      | none => exact done iter'
      | some val =>
          have walked := @treeIteratorNext_weight_lt tree iter iter' val moved
          rw [ok_bind]
          cases typ : val.typ with
          | stmt => exact goesOn iter' val (.inl typ) (walked (.inl typ)).2
          | expr => exact goesOn iter' val (.inr typ) (walked (.inr typ)).2
          | recurse => exact stops iter' val (.inl typ)
          | error => exact stops iter' val (.inr typ)

end Ends

end Dependency

end HelgrindPlus
