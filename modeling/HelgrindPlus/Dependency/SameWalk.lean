import HelgrindPlus.Dependency.LoadWalk
import HelgrindPlus.Dependency.SameExpression

/-!
# Walks in step

Two walks go in step as long as they come to expressions that the comparison
takes for the same.  What is left of them then is a list of pairs, and the
comparison goes through it until there is a difference or no pair is left.
-/

namespace HelgrindPlus

namespace Dependency

open Outcome

/-- The expression that a statement has its value from. -/
def IRStmt.source : IRStmt → Option IRExpr
  | wrTmp _ data => some data
  | put _ data => some (.atom data)
  | _ => none

/-- The pairs right below two expressions: what the statements to which these
lead have their values from, or the operands. -/
inductive PairsBelow (tree : IrsbTree) (e1 e2 : IRExpr) :
    List (IRExpr × IRExpr) → Prop where
  | source {data1 data2 : IRExpr} {idx1 idx2 : Nat} {st1 st2 : IRStmt}
      (led1 : leadsTo tree true e1 = .ok (some idx1))
      (led2 : leadsTo tree true e2 = .ok (some idx2))
      (found1 : tree.irsb.stmts[idx1]? = some st1)
      (found2 : tree.irsb.stmts[idx2]? = some st2)
      (gives1 : st1.source = some data1) (gives2 : st2.source = some data2) :
      PairsBelow tree e1 e2 [(data1, data2)]
  | operands (led1 : leadsTo tree true e1 = .ok none)
      (led2 : leadsTo tree true e2 = .ok none) :
      PairsBelow tree e1 e2
        ((e1.children.zip e2.children).map fun args =>
          (.atom args.1, .atom args.2))

/-- The pairs that are left of two walks that have come to no difference, the
next one first. -/
inductive PairsAhead (tree : IrsbTree) (root1 root2 : IRExpr) :
    List (IRExpr × IRExpr) → Prop where
  | root : PairsAhead tree root1 root2 [(root1, root2)]
  | next {e1 e2 : IRExpr} {below later : List (IRExpr × IRExpr)}
      (ahead : PairsAhead tree root1 root2 ((e1, e2) :: later))
      (same : sameExpr e1 e2) (pairs : PairsBelow tree e1 e2 below) :
      PairsAhead tree root1 root2 (below ++ later)

/-- The statement that the expression leads to, if any, can be looked up. -/
def HasNode (tree : IrsbTree) (e : IRExpr) : Prop :=
  ∃ target, leadsTo tree true e = .ok target

/-- The walks find the statements of all that they come to before the first
difference; the second one is not at its end where only the first has a write
to follow; and if there is no difference, then what is taken for the same has
the same meaning. -/
structure Comparable (tree : IrsbTree) (root1 root2 : IRExpr) : Prop where
  nodes : ∀ e1 e2 later, PairsAhead tree root1 root2 ((e1, e2) :: later) →
    HasNode tree e1 ∧ HasNode tree e2
  /-- A walk without a write to follow is at the pair behind the reads. -/
  nexts : ∀ offset ty1 ty2 next later,
    PairsAhead tree root1 root2
      ((.get offset ty1, .get offset ty2) :: next :: later) →
    (leadsTo tree true (.get offset ty1) = .ok none → HasNode tree next.1) ∧
      (leadsTo tree true (.get offset ty2) = .ok none → HasNode tree next.2)
  lasts : ∀ offset ty1 ty2 idx,
    PairsAhead tree root1 root2 [(.get offset ty1, .get offset ty2)] →
    leadsTo tree true (.get offset ty1) = .ok (some idx) →
    leadsTo tree true (.get offset ty2) ≠ .ok none
  gets : PairsAhead tree root1 root2 [] → ∀ offset ty1 ty2 later,
    PairsAhead tree root1 root2 ((.get offset ty1, .get offset ty2) :: later) →
    ty1 = ty2
  loads : PairsAhead tree root1 root2 [] →
    ∀ endness1 endness2 ty1 ty2 addr1 addr2 later,
    PairsAhead tree root1 root2
      ((.load endness1 ty1 addr1, .load endness2 ty2 addr2) :: later) →
    ty1 = ty2
  zeros : PairsAhead tree root1 root2 [] → ∀ bits1 bits2 later,
    PairsAhead tree root1 root2 ((.atom (.const (.F64 bits1)),
      .atom (.const (.F64 bits2))) :: later) →
    isZero bits1 → isZero bits2 → bits1 = bits2

/-- The pairs on which the comparison goes on. -/
inductive SameForm : IRExpr → IRExpr → Prop where
  | get (offset : Nat) (ty1 ty2 : IRType) :
      SameForm (.get offset ty1) (.get offset ty2)
  | rdTmp (tmp1 tmp2 : Nat) :
      SameForm (.atom (.rdTmp tmp1)) (.atom (.rdTmp tmp2))
  | const {con1 con2 : IRConst} (equal : eqIRConst con1 con2) :
      SameForm (.atom (.const con1)) (.atom (.const con2))
  | qop (op : IROp) {arg1 arg2 arg3 arg4 arg1' arg2' arg3' arg4' : IRAtom} :
      SameForm (.qop op arg1 arg2 arg3 arg4) (.qop op arg1' arg2' arg3' arg4')
  | triop (op : IROp) {arg1 arg2 arg3 arg1' arg2' arg3' : IRAtom} :
      SameForm (.triop op arg1 arg2 arg3) (.triop op arg1' arg2' arg3')
  | binop (op : IROp) {arg1 arg2 arg1' arg2' : IRAtom} :
      SameForm (.binop op arg1 arg2) (.binop op arg1' arg2')
  | unop (op : IROp) {arg arg' : IRAtom} :
      SameForm (.unop op arg) (.unop op arg')
  | load {endness1 endness2 : IREndness} {ty1 ty2 : IRType}
      {addr1 addr2 : IRAtom} :
      SameForm (.load endness1 ty1 addr1) (.load endness2 ty2 addr2)

theorem sameForm_of {e1 e2 : IRExpr} (same : sameExpr e1 e2) :
    SameForm e1 e2 := by
  unfold sameExpr at same
  split at same
  case h_1 => cases of_decide_eq_true same; exact .get ..
  case h_2 => exact .rdTmp ..
  case h_3 => cases of_decide_eq_true same; exact .binop _
  case h_4 => cases of_decide_eq_true same; exact .triop _
  case h_5 => cases of_decide_eq_true same; exact .qop _
  case h_6 => cases of_decide_eq_true same; exact .unop _
  case h_7 => exact .const same
  case h_8 => exact .load
  case h_9 => cases same

private theorem eqIRConst_denotes {con1 con2 : IRConst}
    (same : eqIRConst con1 con2)
    (zeros : ∀ bits1 bits2, con1 = .F64 bits1 → con2 = .F64 bits2 →
      isZero bits1 → isZero bits2 → bits1 = bits2) :
    con1.denotes = con2.denotes := by
  unfold eqIRConst at same
  split at same
  case h_6 bits1 bits2 =>
    simp only [eqDouble, Bool.and_eq_true, Bool.or_eq_true,
      decide_eq_true_eq] at same
    rcases same.2 with equal | ⟨zero1, zero2⟩
    · rw [equal]
    · rw [zeros bits1 bits2 rfl rfl zero1 zero2]
  case h_9 => cases same
  all_goals rw [of_decide_eq_true same]

section Values

variable {tree : IrsbTree} {root1 root2 e1 e2 : IRExpr} {host : Host}
  {values : Valuation}

/-- The operands have equal values if the pairs of them have. -/
private theorem operands_equal {args1 args2 : List IRAtom}
    (long : args1.length = args2.length)
    (equal : ∀ pair ∈ (args1.zip args2).map fun args =>
      ((.atom args.1, .atom args.2) : IRExpr × IRExpr),
      values.eval host pair.1 = values.eval host pair.2) :
    args1.map values.atom = args2.map values.atom := by
  induction args1 generalizing args2 with
  | nil =>
      cases List.length_eq_zero_iff.mp long.symm
      rfl
  | cons arg1 rest1 induction =>
      cases args2 with
      | nil => cases long
      | cons arg2 rest2 =>
          have first : values.atom arg1 = values.atom arg2 :=
            equal _ List.mem_cons_self
          have later := induction (Nat.succ.inj long) fun pair member =>
            equal pair (List.mem_cons_of_mem _ member)
          rw [List.map_cons, List.map_cons, first, later]

/-- Where the pairs below have equal values, the expressions have. -/
theorem equal_of_below (shaped : tree.Shaped)
    (consistent : values.Consistent host tree)
    (comparable : Comparable tree root1 root2)
    (finished : PairsAhead tree root1 root2 [])
    {below later : List (IRExpr × IRExpr)}
    (ahead : PairsAhead tree root1 root2 ((e1, e2) :: later))
    (same : sameExpr e1 e2) (pairs : PairsBelow tree e1 e2 below)
    (equal : ∀ pair ∈ below,
      values.eval host pair.1 = values.eval host pair.2) :
    values.eval host e1 = values.eval host e2 := by
  cases pairs with
  | @source data1 data2 _ _ _ _ led1 led2 found1 found2 gives1 gives2 =>
      cases sameForm_of same with
      | get offset ty1 ty2 =>
          obtain rfl := comparable.gets finished offset ty1 ty2 later ahead
          rfl
      | rdTmp tmp1 tmp2 =>
          obtain ⟨idx1, node1, ⟨⟩⟩ := leadsTo_rdTmp led1
          obtain ⟨idx2, node2, ⟨⟩⟩ := leadsTo_rdTmp led2
          obtain ⟨_, isData1⟩ := shaped.node _ _ (treeNodeTmp_eq_ok node1)
          obtain ⟨_, isData2⟩ := shaped.node _ _ (treeNodeTmp_eq_ok node2)
          cases found1.symm.trans isData1
          cases found2.symm.trans isData2
          cases gives1
          cases gives2
          calc values.temps tmp1
              = values.eval host data1 :=
                consistent tmp1 _ data1 node1 isData1
            _ = values.eval host data2 := equal _ (List.mem_singleton_self _)
            _ = values.temps tmp2 :=
                (consistent tmp2 _ data2 node2 isData2).symm
      | _ => cases led1
  | operands led1 led2 =>
      have long : e1.children.length = e2.children.length := by
        cases sameForm_of same <;> rfl
      have operands := operands_equal long equal
      cases sameForm_of same with
      | get offset ty1 ty2 =>
          obtain rfl := comparable.gets finished offset ty1 ty2 later ahead
          rfl
      | rdTmp tmp1 tmp2 =>
          obtain ⟨idx, _, ⟨⟩⟩ := leadsTo_rdTmp led1
      | const sameCon =>
          apply eqIRConst_denotes sameCon
          rintro bits1 bits2 rfl rfl
          exact comparable.zeros finished bits1 bits2 later ahead
      | load =>
          obtain rfl := comparable.loads finished _ _ _ _ _ _ _ ahead
          simp only [IRExpr.children, List.map_cons, List.map_nil,
            List.cons.injEq, and_true] at operands
          simp only [Valuation.eval, operands]
      | _ =>
          simp only [IRExpr.children, List.map_cons, List.map_nil,
            List.cons.injEq, and_true] at operands
          simp only [Valuation.eval, operands]

/-- Walks that end without a difference started from equal values. -/
theorem PairsAhead.equal (shaped : tree.Shaped)
    (consistent : values.Consistent host tree)
    (comparable : Comparable tree root1 root2)
    (finished : PairsAhead tree root1 root2 [])
    {pairs : List (IRExpr × IRExpr)} (ahead : PairsAhead tree root1 root2 pairs)
    (equal : ∀ pair ∈ pairs,
      values.eval host pair.1 = values.eval host pair.2) :
    values.eval host root1 = values.eval host root2 := by
  induction ahead with
  | root => exact equal _ (List.mem_singleton_self _)
  | next ahead same pairs induction =>
      apply induction
      intro pair member
      rcases List.mem_cons.mp member with rfl | isLater
      · exact equal_of_below shaped consistent comparable finished ahead same
          pairs fun pair isBelow => equal pair (List.mem_append_left _ isBelow)
      · exact equal pair (List.mem_append_right _ isLater)

end Values

section Pairs

/-- The children that are left of two values, in pairs. -/
inductive LeftChildren : List (Option IRExpr) → List (Option IRExpr) →
    List (IRExpr × IRExpr) → Prop where
  | nil : LeftChildren [] [] []
  | taken {children1 children2 : List (Option IRExpr)}
      {pairs : List (IRExpr × IRExpr)}
      (later : LeftChildren children1 children2 pairs) :
      LeftChildren (none :: children1) (none :: children2) pairs
  | left {children1 children2 : List (Option IRExpr)}
      {pairs : List (IRExpr × IRExpr)} (e1 e2 : IRExpr)
      (later : LeftChildren children1 children2 pairs) :
      LeftChildren (some e1 :: children1) (some e2 :: children2)
        ((e1, e2) :: pairs)

/-- The value has been returned itself. -/
def TreeIteratValue.Visited (val : TreeIteratValue) : Prop :=
  val.typ = .expr ∨ val.typ = .stmt ∧ val.stmtDone = true

/-- The pairs that are left on two stacks. -/
inductive LeftStacks : List TreeIteratValue → List TreeIteratValue →
    List (IRExpr × IRExpr) → Prop where
  | nil : LeftStacks [] [] []
  | cons {top1 top2 : TreeIteratValue} {rest1 rest2 : List TreeIteratValue}
      {pairs later : List (IRExpr × IRExpr)} (visited1 : top1.Visited)
      (visited2 : top2.Visited)
      (children : LeftChildren top1.subExpr top2.subExpr pairs)
      (rest : LeftStacks rest1 rest2 later) :
      LeftStacks (top1 :: rest1) (top2 :: rest2) (pairs ++ later)

/-- The first child that is left on a stack, the value that it is a child of,
and the stack when it is taken. -/
def firstLeft : List TreeIteratValue →
    Option (IRExpr × TreeIteratValue × List TreeIteratValue)
  | [] => none
  | top :: rest =>
      match nextChild top.subExpr with
      | none => firstLeft rest
      | some (e, subExpr) =>
          some (e, top, { top with subExpr := subExpr } :: rest)

variable {children1 children2 : List (Option IRExpr)}
  {stack1 stack2 : List TreeIteratValue} {pairs : List (IRExpr × IRExpr)}

theorem LeftChildren.next (left : LeftChildren children1 children2 pairs) :
    (pairs = [] ∧ nextChild children1 = none ∧ nextChild children2 = none) ∨
      ∃ e1 e2 later rest1 rest2, pairs = (e1, e2) :: later ∧
        nextChild children1 = some (e1, rest1) ∧
        nextChild children2 = some (e2, rest2) ∧
        LeftChildren rest1 rest2 later := by
  induction left with
  | nil => exact .inl ⟨rfl, rfl, rfl⟩
  | taken _ induction =>
      simp only [nextChild]
      rcases induction with ⟨none, next1, next2⟩ |
        ⟨e1, e2, later, rest1, rest2, isPairs, next1, next2, left⟩
      · exact .inl ⟨none, by rw [next1], by rw [next2]⟩
      · exact .inr ⟨e1, e2, later, _, _, isPairs, by rw [next1], by rw [next2],
          .taken left⟩
  | left e1 e2 later _ =>
      exact .inr ⟨e1, e2, _, _, _, rfl, rfl, rfl, .taken later⟩

theorem LeftStacks.first (left : LeftStacks stack1 stack2 pairs) :
    (pairs = [] ∧ firstLeft stack1 = none ∧ firstLeft stack2 = none) ∨
      ∃ e1 e2 later top1 top2 left1 left2, pairs = (e1, e2) :: later ∧
        firstLeft stack1 = some (e1, top1, left1) ∧
        firstLeft stack2 = some (e2, top2, left2) ∧
        LeftStacks left1 left2 later := by
  induction left with
  | nil => exact .inl ⟨rfl, rfl, rfl⟩
  | cons visited1 visited2 children rest induction =>
      simp only [firstLeft]
      rcases children.next with ⟨rfl, next1, next2⟩ |
        ⟨e1, e2, later, rest1, rest2, rfl, next1, next2, left⟩
      · rw [next1, next2]
        exact induction
      · rw [next1, next2]
        exact .inr ⟨e1, e2, _, _, _, _, _, rfl, rfl, rfl,
          .cons visited1 visited2 left rest⟩

theorem LeftStacks.visited (left : LeftStacks stack1 stack2 pairs) :
    (∀ val ∈ stack1, val.Visited) ∧ ∀ val ∈ stack2, val.Visited := by
  induction left with
  | nil => simp
  | cons visited1 visited2 _ _ induction =>
      exact ⟨List.forall_mem_cons.mpr ⟨visited1, induction.1⟩,
        List.forall_mem_cons.mpr ⟨visited2, induction.2⟩⟩

theorem LeftStacks.length_eq (left : LeftStacks stack1 stack2 pairs) :
    stack1.length = stack2.length := by
  induction left with
  | nil => rfl
  | cons _ _ _ _ induction => exact congrArg Nat.succ induction

private theorem leftChildren_operands {args1 args2 : List IRAtom}
    (long : args1.length = args2.length) :
    LeftChildren (args1.map fun arg => some (.atom arg))
      (args2.map fun arg => some (.atom arg))
      ((args1.zip args2).map fun args => (.atom args.1, .atom args.2)) := by
  induction args1 generalizing args2 with
  | nil =>
      cases List.length_eq_zero_iff.mp long.symm
      exact .nil
  | cons arg1 rest1 induction =>
      cases args2 with
      | nil => cases long
      | cons arg2 rest2 => exact .left _ _ (induction (Nat.succ.inj long))

end Pairs

section Pops

variable {tree : IrsbTree} {iter : TreeIterator}
  {stack : List TreeIteratValue}

theorem pop_full (full : iter.stackSize < stack.length) :
    treeIteratorPop tree iter stack =
      .ok ({ iter with stack := stack }, some recurseValue) := by
  cases stack with
  | nil => exact absurd full (Nat.not_lt_zero _)
  | cons top rest =>
      rw [treeIteratorPop, if_pos (Nat.le_of_lt_succ full)]
      rfl

/-- A stack of visited values gives the first child that is left. -/
theorem pop_visited (visited : ∀ val ∈ stack, val.Visited)
    (room : stack.length ≤ iter.stackSize) :
    treeIteratorPop tree iter stack =
      match firstLeft stack with
      | none => .ok ({ iter with stack := [] }, none)
      | some (e, top, left) =>
          descend tree { iter with stack := left } top e := by
  induction stack with
  | nil => rfl
  | cons top rest induction =>
      obtain ⟨isVisited, later⟩ := List.forall_mem_cons.mp visited
      have regular : ¬ (top.typ = .error ∨ top.typ = .recurse) := by
        rcases isVisited with typ | ⟨typ, _⟩ <;> rw [typ] <;> decide
      have notFresh : ¬ (top.typ = .stmt ∧ top.stmtDone = false) := by
        rcases isVisited with typ | ⟨_, done⟩
        · simp [typ]
        · simp [done]
      rw [treeIteratorPop, if_neg (Nat.not_le.mpr room), if_neg regular,
        if_neg notFresh, firstLeft]
      cases next : nextChild top.subExpr with
      | none => exact induction later (Nat.le_of_succ_le room)
      | some child => rfl

/-- A statement that is entered comes next when nothing is left of the
expressions above it. -/
theorem pop_entering {above rest : List TreeIteratValue}
    {entered : TreeIteratValue}
    (bare : ∀ val ∈ above, val.typ = .expr ∧ nextChild val.subExpr = none)
    (isStmt : entered.typ = .stmt) (fresh : entered.stmtDone = false)
    (room : (above ++ entered :: rest).length ≤ iter.stackSize) :
    treeIteratorPop tree iter (above ++ entered :: rest) =
      .ok ({ iter with stack :=
          { entered with stmtDone := true, curDepth := rest.length } ::
            rest },
        some { entered with stmtDone := true, curDepth := rest.length }) := by
  induction above with
  | nil =>
      rw [List.nil_append] at room ⊢
      rw [treeIteratorPop, if_neg (Nat.not_le.mpr room),
        if_neg (by rw [isStmt]; decide), if_pos ⟨isStmt, fresh⟩]
      rfl
  | cons val above induction =>
      obtain ⟨⟨isExpr, noChild⟩, bare⟩ := List.forall_mem_cons.mp bare
      rw [List.cons_append] at room ⊢
      rw [treeIteratorPop, if_neg (Nat.not_le.mpr room),
        if_neg (by rw [isExpr]; decide), if_neg (by simp [isExpr]), noChild]
      exact induction bare (Nat.le_of_succ_le room)

end Pops

section Steps

variable {tree : IrsbTree} {root1 root2 e1 e2 : IRExpr}
  {iter iter' iter1 iter2 iter1' iter2' : TreeIterator} {fuel : Nat}

/-- Going down ends with a value. -/
theorem descend_returns (shaped : tree.Shaped) (top : TreeIteratValue)
    {target : Option Nat} (led : leadsTo tree iter.loopGetPut e1 = .ok target)
    (single : iter.loopLoadStore = false) :
    ∃ iter' val, descend tree iter top e1 = .ok (iter', some val) ∧
      val.typ ≠ .stmt ∧ (val.typ = .expr → val.expr = some e1) := by
  have walks : ∃ result, treeIteratorExpr tree iter e1 = .ok result := by
    have follows : ∀ stmtIdx whenFull, target = some stmtIdx →
        ∃ result, followStmt tree iter e1 stmtIdx whenFull = .ok result := by
      rintro stmtIdx whenFull rfl
      obtain ⟨entered, entering, _⟩ := shaped.enters led
      unfold followStmt
      split
      · exact ⟨_, rfl⟩
      · rw [entering]
        exact ⟨_, rfl⟩
    cases e1 with
    | get offset ty =>
        simp only [leadsTo] at led
        rw [treeIteratorExpr]
        split at led
        · next loops =>
            rw [if_pos loops, led, ok_bind]
            cases target with
            | none => exact ⟨_, rfl⟩
            | some stmtIdx => exact follows stmtIdx _ rfl
        · next loops =>
            rw [if_neg loops]
            exact ⟨_, rfl⟩
    | atom operand =>
        cases operand with
        | const con => exact ⟨_, rfl⟩
        | rdTmp tmp =>
            obtain ⟨idx, node, rfl⟩ := leadsTo_rdTmp led
            rw [treeIteratorExpr, node, ok_bind]
            exact follows idx _ rfl
    | load endness ty addr =>
        rw [treeIteratorExpr, tlAssert_of single]
        exact ⟨_, rfl⟩
    | _ => exact ⟨_, rfl⟩
  obtain ⟨⟨iter', val⟩, walked⟩ := walks
  have descended : ∃ iter' val,
      descend tree iter top e1 = .ok (iter', some val) := by
    rw [descend, walked, ok_bind]
    dsimp only
    split <;> exact ⟨_, _, rfl⟩
  obtain ⟨iter', val, descended⟩ := descended
  refine ⟨iter', val, descended, descend_typ descended, fun typed => ?_⟩
  obtain ⟨_, _, _, _, _, _, rfl⟩ := descend_expr descended typed
  rfl

/-- A statement that is led to is put on the stack with what it has its value
from. -/
theorem entered_source (shaped : tree.Shaped) {e : IRExpr} {idx : Nat}
    {entered : TreeIteratValue} (led : leadsTo tree true e = .ok (some idx))
    (entering : treeIteratorStmt tree idx = .ok entered) :
    ∃ st data, tree.irsb.stmts[idx]? = some st ∧ st.source = some data ∧
      entered = ⟨.stmt, idx, 0, none, [some data], false⟩ := by
  obtain ⟨st, found, ⟨tmp, data, rfl⟩ | ⟨offset, data, rfl⟩⟩ :=
    shaped.leads_to led
  all_goals
    rw [treeIteratorStmt, found] at entering
    cases entering
    exact ⟨_, _, found, rfl, rfl⟩

theorem under_of_some {e : IRExpr} {idx : Nat} {below : List TreeIteratValue}
    (led : leadsTo tree true e = .ok (some idx))
    (found : under tree true e = .ok below) :
    ∃ entered, treeIteratorStmt tree idx = .ok entered ∧
      below = [entered] := by
  rcases under_eq_ok found with ⟨led', _⟩ | ⟨idx', entered, led', rest⟩
  · rw [led] at led'
    cases led'
  · rw [led] at led'
    cases led'
    exact ⟨entered, rest⟩

/-- A statement that is to be entered, and the values above it, of which
nothing is left. -/
structure Entering (above : List TreeIteratValue)
    (entered : TreeIteratValue) : Prop where
  bare : ∀ val ∈ above, val.typ = .expr ∧ nextChild val.subExpr = none
  isStmt : entered.typ = .stmt
  fresh : entered.stmtDone = false

/-- The statement when it has been returned. -/
abbrev TreeIteratValue.entered (val : TreeIteratValue) (depth : Nat) :
    TreeIteratValue :=
  { val with stmtDone := true, curDepth := depth }

/-- The walks have come to no difference, and the pairs are left of them. -/
inductive InStep (iter1 iter2 : TreeIterator)
    (pairs : List (IRExpr × IRExpr)) : Prop where
  | visited (left : LeftStacks iter1.stack iter2.stack pairs)
  | entering {above1 above2 rest1 rest2 : List TreeIteratValue}
      {entered1 entered2 : TreeIteratValue}
      (stack1 : iter1.stack = above1 ++ entered1 :: rest1)
      (stack2 : iter2.stack = above2 ++ entered2 :: rest2)
      (length : above1.length = above2.length)
      (entering1 : Entering above1 entered1)
      (entering2 : Entering above2 entered2)
      (left : LeftStacks (entered1.entered rest1.length :: rest1)
        (entered2.entered rest2.length :: rest2) pairs)

theorem InStep.length_eq {pairs : List (IRExpr × IRExpr)}
    (inStep : InStep iter1 iter2 pairs) :
    iter1.stack.length = iter2.stack.length := by
  cases inStep with
  | visited left => exact left.length_eq
  | entering stack1 stack2 length _ _ left =>
      have rest := left.length_eq
      simp only [List.length_cons] at rest
      rw [stack1, stack2]
      simp only [List.length_append, List.length_cons, length, rest]

/-- The iterator follows registers to their writes, and no loads. -/
structure Follows (iter : TreeIterator) : Prop where
  loops : iter.loopGetPut = true
  single : iter.loopLoadStore = false

/-- Both iterators are of the kind that the comparison makes. -/
structure Twins (iter1 iter2 : TreeIterator) : Prop where
  size : iter1.stackSize = iter2.stackSize
  first : Follows iter1
  second : Follows iter2

theorem Twins.withStacks (twins : Twins iter1 iter2)
    (stack1 stack2 : List TreeIteratValue) :
    Twins { iter1 with stack := stack1 } { iter2 with stack := stack2 } :=
  ⟨twins.size, ⟨twins.first.loops, twins.first.single⟩,
    ⟨twins.second.loops, twins.second.single⟩⟩

theorem next_entered {above rest : List TreeIteratValue}
    {entered : TreeIteratValue}
    (isStack : iter.stack = above ++ entered :: rest)
    (entering : Entering above entered)
    (room : iter.stack.length ≤ iter.stackSize) :
    treeIteratorNext tree iter =
      .ok ({ iter with stack := entered.entered rest.length :: rest },
        some (entered.entered rest.length)) := by
  rw [isStack] at room
  rw [treeIteratorNext, isStack]
  exact pop_entering entering.bare entering.isStmt entering.fresh room

private theorem next_entering {above rest : List TreeIteratValue}
    {entered : TreeIteratValue}
    (isStack : iter.stack = above ++ entered :: rest)
    (entering : Entering above entered) :
    ∃ iter' val, treeIteratorNext tree iter = .ok (iter', some val) ∧
      (val.typ = .stmt ∨ val.typ = .recurse) := by
  by_cases full : iter.stackSize < iter.stack.length
  · exact ⟨_, _, pop_full full, .inr rfl⟩
  · exact ⟨_, _, next_entered isStack entering (not_lt.mp full),
      .inl entering.isStmt⟩

/-- A walk that is not at a statement does not return one. -/
theorem next_left (shaped : tree.Shaped) (follows : Follows iter)
    (visited : ∀ val ∈ iter.stack, val.Visited)
    (node : ∀ e top left, firstLeft iter.stack = some (e, top, left) →
      HasNode tree e) :
    ∃ iter' found, treeIteratorNext tree iter = .ok (iter', found) ∧
      (found = none → firstLeft iter.stack = none) ∧
      ∀ val, found = some val → val.typ ≠ .stmt := by
  unfold treeIteratorNext
  by_cases full : iter.stackSize < iter.stack.length
  · refine ⟨_, _, pop_full full, by simp, ?_⟩
    intro val isVal
    cases isVal
    decide
  · rw [pop_visited visited (not_lt.mp full)]
    cases first : firstLeft iter.stack with
    | none => exact ⟨_, none, rfl, fun _ => rfl, by simp⟩
    | some child =>
        obtain ⟨e, top, left⟩ := child
        obtain ⟨target, led⟩ := node e top left first
        rw [← follows.loops] at led
        obtain ⟨iter', val, descended, typ, _⟩ :=
          @descend_returns tree e { iter with stack := left } shaped top
            target led follows.single
        refine ⟨iter', some val, descended, by simp, ?_⟩
        intro val' isVal
        cases isVal
        exact typ

/-- The comparison comes to an answer without reading through an iterator at
its end, and declares the same only what shows no difference. -/
def Answers (tree : IrsbTree) (root1 root2 : IRExpr)
    (comparison : Except Halt Comparison) : Prop :=
  ∃ answer, comparison = .ok answer ∧ answer ≠ .exhausted ∧
    (answer = .same → PairsAhead tree root1 root2 [])

theorem answers_of_different {comparison : Except Halt Comparison}
    (different : comparison = .ok .different) :
    Answers tree root1 root2 comparison :=
  ⟨_, different, nofun, nofun⟩

theorem sameLoop_apart {found1 : Option TreeIteratValue}
    {val2 : TreeIteratValue}
    (next1 : treeIteratorNext tree iter1 = .ok (iter1', found1))
    (next2 : treeIteratorNext tree iter2 = .ok (iter2', some val2))
    (apart : ∀ val1, found1 = some val1 → val1.typ = val2.typ →
      val1.typ = .recurse ∨ val1.typ = .error) :
    sameLoop tree (fuel + 1) iter1 iter2 = .ok .different := by
  simp only [sameLoop, next1, next2, ok_bind]
  cases found1 with
  | none => rfl
  | some val1 =>
      dsimp only
      by_cases typ : val1.typ = val2.typ
      · rw [if_neg (not_not.mpr typ)]
        rcases apart val1 rfl typ with typ1 | typ1 <;> rw [typ1] <;> rfl
      · rw [if_pos typ]
        rfl

/-- Only the first walk follows a write, and the second has a child left. -/
theorem sameLoop_first_follows (shaped : tree.Shaped)
    (follows : Follows iter2) {above rest left : List TreeIteratValue}
    {entered top : TreeIteratValue}
    (isStack : iter1.stack = above ++ entered :: rest)
    (entering : Entering above entered)
    (visited : ∀ val ∈ iter2.stack, val.Visited) {e : IRExpr}
    (first : firstLeft iter2.stack = some (e, top, left))
    (node : HasNode tree e) :
    sameLoop tree (fuel + 1) iter1 iter2 = .ok .different := by
  obtain ⟨_, val1, next1, typ1⟩ := @next_entering tree _ _ _ _ isStack entering
  obtain ⟨_, found2, next2, some2, typ2⟩ := next_left shaped follows visited
    fun _ _ _ first' => by
      cases first.symm.trans first'
      exact node
  cases found2 with
  | none => cases first.symm.trans (some2 rfl)
  | some val2 =>
      apply sameLoop_apart next1 next2
      intro val isVal equal
      cases isVal
      rcases typ1 with isStmt | isRecurse
      · exact absurd (equal.symm.trans isStmt) (typ2 val2 rfl)
      · exact .inl isRecurse

/-- Only the second walk follows a write. -/
theorem sameLoop_second_follows (shaped : tree.Shaped)
    (follows : Follows iter1) {above rest : List TreeIteratValue}
    {entered : TreeIteratValue}
    (isStack : iter2.stack = above ++ entered :: rest)
    (entering : Entering above entered)
    (visited : ∀ val ∈ iter1.stack, val.Visited)
    (node : ∀ e top left, firstLeft iter1.stack = some (e, top, left) →
      HasNode tree e) :
    sameLoop tree (fuel + 1) iter1 iter2 = .ok .different := by
  obtain ⟨_, val2, next2, typ2⟩ := @next_entering tree _ _ _ _ isStack entering
  obtain ⟨_, found1, next1, _, typ1⟩ := next_left shaped follows visited node
  apply sameLoop_apart next1 next2
  intro val1 isVal equal
  rcases typ2 with isStmt | isRecurse
  · exact absurd (equal.trans isStmt) (typ1 val1 isVal)
  · exact .inl (equal.trans isRecurse)

/-- What is put on the stack for an expression that leads to a statement. -/
theorem entering_of_under (shaped : tree.Shaped) {idx depth : Nat}
    {top : TreeIteratValue} {below : List TreeIteratValue}
    (led : leadsTo tree true e1 = .ok (some idx))
    (found : under tree true e1 = .ok below) :
    ∃ st data, tree.irsb.stmts[idx]? = some st ∧ st.source = some data ∧
      below = [⟨.stmt, idx, 0, none, [some data], false⟩] ∧
      Entering [childValue top e1 depth]
        ⟨.stmt, idx, 0, none, [some data], false⟩ := by
  obtain ⟨entered, entering, rfl⟩ := under_of_some led found
  obtain ⟨st, data, at1, gives, rfl⟩ := entered_source shaped led entering
  have bare : e1.children = [] := by
    cases e1 <;> first | rfl | cases led
  refine ⟨st, data, at1, gives, rfl, ?_, rfl, rfl⟩
  intro val member
  cases List.mem_singleton.mp member
  exact ⟨rfl, by simp [childValue, exprValue, bare, nextChild]⟩

/-- The round after two expressions that are taken for the same. -/
theorem descended_answers (shaped : tree.Shaped)
    (comparable : Comparable tree root1 root2) (twins : Twins iter1 iter2)
    {later : List (IRExpr × IRExpr)}
    (ahead : PairsAhead tree root1 root2 ((e1, e2) :: later))
    (same : sameExpr e1 e2) {depth1 depth2 : Nat}
    {top1 top2 : TreeIteratValue}
    {below1 below2 left1 left2 : List TreeIteratValue}
    (left : LeftStacks left1 left2 later)
    (found1 : under tree true e1 = .ok below1)
    (found2 : under tree true e2 = .ok below2)
    (stack1 : iter1.stack = childValue top1 e1 depth1 :: (below1 ++ left1))
    (stack2 : iter2.stack = childValue top2 e2 depth2 :: (below2 ++ left2))
    (goesOn : ∀ pairs, PairsAhead tree root1 root2 pairs →
      InStep iter1 iter2 pairs →
      Answers tree root1 root2 (sameLoop tree (fuel + 1) iter1 iter2)) :
    Answers tree root1 root2 (sameLoop tree (fuel + 1) iter1 iter2) := by
  obtain ⟨⟨target1, led1⟩, target2, led2⟩ := comparable.nodes e1 e2 later ahead
  have long : e1.children.length = e2.children.length := by
    cases sameForm_of same <;> rfl
  -- a value without a statement under it
  have lone : ∀ {e : IRExpr} {below : List TreeIteratValue},
      leadsTo tree true e = .ok none → under tree true e = .ok below →
      below = [] := by
    intro e below led found
    rw [under, led] at found
    cases found
    rfl
  -- where only one read has a write, the other walk is at the next pair
  have bare : ∀ {offset : Nat} {ty : IRType} {top : TreeIteratValue}
      {depth : Nat} {stack : List TreeIteratValue},
      firstLeft (childValue top (.get offset ty) depth :: stack) =
        firstLeft stack := fun {_ _ _ _ _} => rfl
  cases target1 with
  | none =>
      cases target2 with
      | none =>
          obtain rfl := lone led1 found1
          obtain rfl := lone led2 found2
          apply goesOn _ (.next ahead same (.operands led1 led2))
          apply InStep.visited
          rw [stack1, stack2]
          exact .cons (.inl rfl) (.inl rfl) (leftChildren_operands long) left
      | some idx2 =>
          obtain rfl := lone led1 found1
          cases sameForm_of same with
          | get offset ty1 ty2 =>
              obtain ⟨_, _, _, _, rfl, entering⟩ :=
                @entering_of_under _ _ shaped idx2 depth2 top2 _ led2 found2
              apply answers_of_different
              refine sameLoop_second_follows shaped twins.first stack2 entering
                ?_ ?_
              · rw [stack1]
                exact List.forall_mem_cons.mpr ⟨.inl rfl, left.visited.1⟩
              · intro e top stack first
                rw [stack1, List.nil_append, bare] at first
                rcases left.first with ⟨_, none1, _⟩ |
                  ⟨e1', e2', later', _, _, _, _, rfl, some1, _, _⟩
                · cases none1.symm.trans first
                · cases some1.symm.trans first
                  exact (comparable.nexts offset ty1 ty2 _ _ ahead).1 led1
          | rdTmp tmp1 tmp2 => obtain ⟨_, _, ⟨⟩⟩ := leadsTo_rdTmp led1
          | _ => cases led2
  | some idx1 =>
      cases target2 with
      | none =>
          obtain rfl := lone led2 found2
          cases sameForm_of same with
          | get offset ty1 ty2 =>
              obtain ⟨_, _, _, _, rfl, entering⟩ :=
                @entering_of_under _ _ shaped idx1 depth1 top1 _ led1 found1
              rcases left.first with ⟨rfl, _, _⟩ |
                ⟨e1', e2', later', _, _, _, _, rfl, _, some2, _⟩
              · exact absurd led2
                  (comparable.lasts offset ty1 ty2 idx1 ahead led1)
              · have first2 := some2
                rw [← @bare offset ty2 top2 depth2, ← List.nil_append left2,
                  ← stack2] at first2
                apply answers_of_different
                refine sameLoop_first_follows shaped twins.second stack1
                  entering ?_ first2
                  ((comparable.nexts offset ty1 ty2 _ _ ahead).2 led2)
                rw [stack2]
                exact List.forall_mem_cons.mpr ⟨.inl rfl, left.visited.2⟩
          | rdTmp tmp1 tmp2 => obtain ⟨_, _, ⟨⟩⟩ := leadsTo_rdTmp led2
          | _ => cases led1
      | some idx2 =>
          obtain ⟨_, _, at1, gives1, rfl, entering1⟩ :=
            @entering_of_under _ _ shaped idx1 depth1 top1 _ led1 found1
          obtain ⟨_, _, at2, gives2, rfl, entering2⟩ :=
            @entering_of_under _ _ shaped idx2 depth2 top2 _ led2 found2
          apply goesOn _ (.next ahead same
            (.source led1 led2 at1 at2 gives1 gives2))
          have length : [childValue top1 e1 depth1].length =
              [childValue top2 e2 depth2].length := rfl
          refine .entering stack1 stack2 length entering1 entering2 ?_
          exact .cons (.inr ⟨rfl, rfl⟩) (.inr ⟨rfl, rfl⟩) (.left _ _ .nil) left

/-- The round in which the walks come to a pair. -/
theorem sameLoop_pair (shaped : tree.Shaped)
    (comparable : Comparable tree root1 root2) (twins : Twins iter1 iter2)
    {later : List (IRExpr × IRExpr)}
    (ahead : PairsAhead tree root1 root2 ((e1, e2) :: later))
    {top1 top2 : TreeIteratValue} {left1 left2 : List TreeIteratValue}
    (left : LeftStacks left1 left2 later)
    (next1 : treeIteratorNext tree iter1 =
      descend tree { iter1 with stack := left1 } top1 e1)
    (next2 : treeIteratorNext tree iter2 =
      descend tree { iter2 with stack := left2 } top2 e2)
    (enough : iter1.weight < fuel + 1)
    (goesOn : ∀ {iter1' iter2' : TreeIterator}, Twins iter1' iter2' →
      ∀ {pairs : List (IRExpr × IRExpr)}, InStep iter1' iter2' pairs →
      PairsAhead tree root1 root2 pairs → iter1'.weight < fuel →
      Answers tree root1 root2 (sameLoop tree fuel iter1' iter2')) :
    Answers tree root1 root2 (sameLoop tree (fuel + 1) iter1 iter2) := by
  obtain ⟨⟨target1, led1⟩, target2, led2⟩ := comparable.nodes e1 e2 later ahead
  rw [← twins.first.loops] at led1
  rw [← twins.second.loops] at led2
  obtain ⟨iter1', val1, descended1, typ1, expr1⟩ :=
    @descend_returns tree e1 { iter1 with stack := left1 } shaped top1 target1
      led1 twins.first.single
  obtain ⟨iter2', val2, descended2, typ2, expr2⟩ :=
    @descend_returns tree e2 { iter2 with stack := left2 } shaped top2 target2
      led2 twins.second.single
  rw [descended1] at next1
  rw [descended2] at next2
  by_cases both : val1.typ = .expr ∧ val2.typ = .expr
  · obtain ⟨isExpr1, isExpr2⟩ := both
    have round : sameLoop tree (fuel + 1) iter1 iter2 =
        if sameExpr e1 e2 then sameLoop tree fuel iter1' iter2'
        else .ok .different := by
      rw [sameLoop]
      simp only [next1, next2, ok_bind, isExpr1, isExpr2, sameValue,
        expr1 isExpr1, expr2 isExpr2, ne_eq, not_true_eq_false, if_false]
      rfl
    rw [round]
    split
    · next same =>
        have lower := (treeIteratorNext_weight_lt next1 (.inr isExpr1)).2
        obtain ⟨below1, found1, _, _, _, rfl, rfl⟩ :=
          descend_expr descended1 isExpr1
        obtain ⟨below2, found2, _, _, _, rfl, rfl⟩ :=
          descend_expr descended2 isExpr2
        obtain ⟨less, rfl⟩ : ∃ less, fuel = less + 1 :=
          Nat.exists_eq_succ_of_ne_zero (by omega)
        rw [show TreeIterator.loopGetPut { iter1 with stack := _ } = true from
          twins.first.loops] at found1
        rw [show TreeIterator.loopGetPut { iter2 with stack := _ } = true from
          twins.second.loops] at found2
        exact descended_answers shaped comparable (twins.withStacks _ _) ahead
          same left found1 found2 rfl rfl fun pairs ahead inStep =>
            goesOn (twins.withStacks _ _) inStep ahead (by omega)
    · exact answers_of_different rfl
  · apply answers_of_different
    apply sameLoop_apart next1 next2
    intro val isVal equal
    cases isVal
    cases typ : val1.typ with
    | expr => exact absurd ⟨typ, equal.symm.trans typ⟩ both
    | stmt => exact absurd typ typ1
    | recurse => exact .inl rfl
    | error => exact .inr rfl

/-- Each round lowers the weight of the first walk. -/
theorem sameLoop_answers (shaped : tree.Shaped)
    (comparable : Comparable tree root1 root2) (twins : Twins iter1 iter2)
    {pairs : List (IRExpr × IRExpr)} (inStep : InStep iter1 iter2 pairs)
    (ahead : PairsAhead tree root1 root2 pairs) (enough : iter1.weight < fuel) :
    Answers tree root1 root2 (sameLoop tree fuel iter1 iter2) := by
  induction fuel generalizing iter1 iter2 pairs with
  | zero => exact absurd enough (Nat.not_lt_zero _)
  | succ fuel induction =>
      by_cases full : iter1.stackSize < iter1.stack.length
      · have full2 : iter2.stackSize < iter2.stack.length := by
          rwa [← twins.size, ← inStep.length_eq]
        apply answers_of_different
        apply sameLoop_apart (pop_full full) (pop_full full2)
        intro val isVal _
        cases isVal
        exact .inl rfl
      have room1 := not_lt.mp full
      have room2 := room1
      rw [twins.size, inStep.length_eq] at room2
      cases inStep with
      | entering stack1 stack2 _ entering1 entering2 left =>
          have next1 := @next_entered tree _ _ _ _ stack1 entering1 room1
          have next2 := @next_entered tree _ _ _ _ stack2 entering2 room2
          have lower := (treeIteratorNext_weight_lt next1
            (.inl entering1.isStmt)).2
          rw [sameLoop]
          simp only [next1, next2, ok_bind, entering1.isStmt, entering2.isStmt]
          exact induction (twins.withStacks _ _) (.visited left) ahead
            (by omega)
      | visited left =>
          have next1 := @pop_visited tree iter1 _ left.visited.1 room1
          have next2 := @pop_visited tree iter2 _ left.visited.2 room2
          rcases left.first with ⟨rfl, none1, none2⟩ |
            ⟨e1, e2, later, top1, top2, left1, left2, rfl, some1, some2, left⟩
          · rw [none1] at next1
            rw [none2] at next2
            refine ⟨.same, ?_, by decide, fun _ => ahead⟩
            simp only [sameLoop, treeIteratorNext, next1, next2, ok_bind]
            rfl
          · rw [some1] at next1
            rw [some2] at next2
            exact sameLoop_pair shaped comparable twins ahead left next1 next2
              enough induction

end Steps

end Dependency

end HelgrindPlus
