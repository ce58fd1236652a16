import HelgrindPlus.Dependency.ConstantSums

/-!
# What the walk sums up

`tree_simplifyExpression` visits the statements in the order in which the walk
enters them.  The stack of the walk holds the temporaries that are still to be
read, in their order, and after an addition or a subtraction of a constant the
sum grows by the constant.
-/

namespace HelgrindPlus

namespace Dependency

open Outcome

/-- The temporaries that the children read. -/
def unreadOf (children : List (Option IRExpr)) : List Nat :=
  children.flatMap fun child => child.elim [] IRExpr.tmps

/-- The temporaries that the walk has still to read. -/
def unread (stack : List TreeIteratValue) : List Nat :=
  stack.flatMap fun val => unreadOf val.subExpr

/-- Every statement on the stack was returned. -/
def Entered (stack : List TreeIteratValue) : Prop :=
  ∀ val ∈ stack, val.typ = .stmt → val.stmtDone = true

/-- The walk returns the statement next, and has the temporaries to read after
what it reads. -/
inductive Coming (tree : IrsbTree) (idx : Nat) (later : List Nat) :
    List TreeIteratValue → Prop where
  | here {top : TreeIteratValue} {rest : List TreeIteratValue}
      (fresh : treeIteratorStmt tree idx = .ok top) (entered : Entered rest)
      (left : unread rest = later) : Coming tree idx later (top :: rest)
  | after {top : TreeIteratValue} {rest : List TreeIteratValue}
      (finished : top.Finished) (coming : Coming tree idx later rest) :
      Coming tree idx later (top :: rest)

section Walk

variable {tree : IrsbTree} {iter iter' : TreeIterator}
  {val top : TreeIteratValue} {idx : Nat} {later : List Nat}
  {finished rest : List TreeIteratValue}

@[simp] theorem unread_cons (val : TreeIteratValue)
    (rest : List TreeIteratValue) :
    unread (val :: rest) = unreadOf val.subExpr ++ unread rest := rfl

private theorem unreadOf_none {children : List (Option IRExpr)}
    (all : ∀ child ∈ children, child = none) : unreadOf children = [] := by
  apply List.flatMap_eq_nil_iff.mpr
  intro child member
  rw [all child member]
  rfl

private theorem unreadOf_nextChild {children children' : List (Option IRExpr)}
    {e : IRExpr} (next : nextChild children = some (e, children')) :
    unreadOf children = e.tmps ++ unreadOf children' := by
  obtain ⟨done, after, rfl, rfl, all⟩ := nextChild_eq_some next
  have before := unreadOf_none all
  unfold unreadOf at before ⊢
  rw [List.flatMap_append, List.flatMap_append, before]
  rfl

private theorem unreadOf_children {e : IRExpr} (known : e.unknown = false)
    (other : ∀ tmp, e ≠ .atom (.rdTmp tmp)) :
    unreadOf (e.children.map fun arg => some (.atom arg)) = e.tmps := by
  cases e with
  | getI descr ix bias => cases known
  | ccall cee retty args => cases known
  | atom operand =>
      cases operand with
      | rdTmp tmp => exact absurd rfl (other tmp)
      | const con => rfl
  | _ => simp [unreadOf, IRExpr.children, IRExpr.tmps]

private theorem unread_finished (all : ∀ done ∈ finished, done.Finished)
    (stack : List TreeIteratValue) :
    unread (finished ++ stack) = unread stack := by
  have nothing : unread finished = [] := by
    apply List.flatMap_eq_nil_iff.mpr
    intro done member
    exact unreadOf_none (nextChild_eq_none.mp (all done member).noChild)
  unfold unread at nothing ⊢
  rw [List.flatMap_append, nothing, List.nil_append]

private theorem treeIteratorStmt_fresh
    (fresh : treeIteratorStmt tree idx = .ok top) :
    top.stmtDone = false ∧ top.typ ≠ .expr ∧ top.stmtIdx = idx ∧
      ∀ tmp data, tree.irsb.stmts[idx]? = some (.wrTmp tmp data) →
        top.subExpr = [some data] := by
  unfold treeIteratorStmt at fresh
  split at fresh
  · cases fresh
  case h_4 tmp data found =>
    cases fresh
    refine ⟨rfl, nofun, rfl, fun tmp' data' found' => ?_⟩
    rw [found] at found'
    cases found'
    rfl
  case h_6 st notStore notPut notWrTmp notExit found =>
    cases fresh
    refine ⟨rfl, nofun, rfl, fun tmp' data' found' => ?_⟩
    rw [found] at found'
    cases found'
    exact (notWrTmp tmp' data' rfl).elim
  all_goals
    next found =>
      cases fresh
      refine ⟨rfl, nofun, rfl, fun tmp' data' found' => ?_⟩
      rw [found] at found'
      cases found'

theorem Coming.drop (all : ∀ done ∈ finished, done.Finished)
    (coming : Coming tree idx later (finished ++ top :: rest)) :
    Coming tree idx later (top :: rest) := by
  induction finished with
  | nil => exact coming
  | cons done finished induction =>
      cases coming with
      | here fresh _ _ =>
          obtain ⟨new, notExpr, _⟩ := treeIteratorStmt_fresh fresh
          rcases (all done List.mem_cons_self).typed with isExpr | ⟨_, old⟩
          · exact absurd isExpr notExpr
          · rw [new] at old
            cases old
      | after _ coming =>
          exact induction (fun val member =>
            all val (List.mem_cons_of_mem _ member)) coming

/-- A statement that comes is returned, and what it reads is read next. -/
theorem Coming.next (coming : Coming tree idx later iter.stack)
    (moved : treeIteratorNext tree iter = .ok (iter', some val))
    (goesOn : val.typ ≠ .recurse) :
    val.typ = .stmt ∧ val.stmtIdx = idx ∧ Entered iter'.stack ∧
      iter'.loopGetPut = iter.loopGetPut ∧
      ∀ tmp data, tree.irsb.stmts[idx]? = some (.wrTmp tmp data) →
        unread iter'.stack = data.tmps ++ later := by
  obtain ⟨finished, top, rest, split, all, _, yields⟩ :=
    treeIteratorPop_yields moved goesOn
  rw [split] at coming
  cases coming.drop all with
  | here fresh entered left =>
      obtain ⟨new, notExpr, sameIdx, children⟩ := treeIteratorStmt_fresh fresh
      cases yields with
      | enter isStmt _ =>
          refine ⟨isStmt, sameIdx, ?_, rfl, ?_⟩
          · intro val member
            rcases List.mem_cons.mp member with rfl | member
            · exact fun _ => rfl
            · exact entered val member
          · intro tmp data found
            simp [children tmp data found, left, unreadOf]
      | child typed _ _ =>
          rcases typed with isExpr | ⟨_, old⟩
          · exact absurd isExpr notExpr
          · rw [new] at old
            cases old
  | after finished _ =>
      cases yields with
      | enter isStmt new =>
          rcases finished.typed with isExpr | ⟨_, old⟩
          · rw [isStmt] at isExpr
            cases isExpr
          · rw [new] at old
            cases old
      | child _ next _ =>
          rw [finished.noChild] at next
          cases next

/-- Where every statement was returned, an expression is.  Nothing is read, or
the first temporary, whose statement then comes. -/
theorem Entered.next (entered : Entered iter.stack)
    (inside : iter.loopGetPut = false)
    (moved : treeIteratorNext tree iter = .ok (iter', some val))
    (goesOn : val.typ = .stmt ∨ val.typ = .expr) :
    val.typ = .expr ∧ iter'.loopGetPut = false ∧
      (Entered iter'.stack ∧ unread iter'.stack = unread iter.stack ∨
        ∃ tmp idx later, unread iter.stack = tmp :: later ∧
          treeNodeTmp tree tmp = .ok idx ∧
          Coming tree idx later iter'.stack) := by
  have walks : val.typ ≠ .recurse := by
    rcases goesOn with typ | typ <;> rw [typ] <;> nofun
  obtain ⟨finished, top, rest, split, all, _, yields⟩ :=
    treeIteratorPop_yields moved walks
  rw [split] at entered ⊢
  rw [unread_finished all]
  have below : Entered rest := fun val member =>
    entered val (List.mem_append_right _ (List.mem_cons_of_mem _ member))
  cases yields with
  | enter isStmt fresh =>
      have old :=
        entered top (List.mem_append_right _ List.mem_cons_self) isStmt
      rw [fresh] at old
      cases old
  | @child e subExpr _ _ typed next descended =>
      have isExpr : val.typ = .expr := by
        rcases goesOn with isStmt | isExpr
        · exact absurd isStmt (descend_typ descended)
        · exact isExpr
      obtain ⟨under, found, known, _, _, rfl, rfl⟩ :=
        descend_expr descended isExpr
      refine ⟨isExpr, inside, ?_⟩
      have topEntered : Entered ({ top with subExpr := subExpr } :: rest) := by
        intro val member
        rcases List.mem_cons.mp member with rfl | member
        · exact entered top (List.mem_append_right _ List.mem_cons_self)
        · exact below val member
      have reads : unread (top :: rest) =
          e.tmps ++ unread ({ top with subExpr := subExpr } :: rest) := by
        rw [unread_cons, unreadOf_nextChild next, List.append_assoc]
        rfl
      rw [reads]
      simp only [inside] at found ⊢
      rcases under_eq_ok found with
        ⟨led, rfl⟩ | ⟨stmtIdx, entering, led, fresh, rfl⟩
      · left
        constructor
        · intro val member
          rcases List.mem_cons.mp member with rfl | member
          · nofun
          · exact topEntered val member
        · have children := unreadOf_children known (by
            rintro tmp rfl
            obtain ⟨stmtIdx, _, led⟩ := bind_eq_ok.mp led
            cases led)
          rw [← children]
          rfl
      · right
        obtain ⟨tmp, rfl⟩ : ∃ tmp, e = .atom (.rdTmp tmp) := by
          cases e with
          | atom operand =>
              cases operand with
              | rdTmp tmp => exact ⟨tmp, rfl⟩
              | const con => cases led
          | _ => cases led
        obtain ⟨stmtIdx', node, led⟩ := bind_eq_ok.mp led
        cases led
        exact ⟨tmp, stmtIdx, _, rfl, node,
          .after ⟨.inl rfl, rfl⟩ (.here fresh topEntered rfl)⟩

end Walk

namespace AddSubRun

/-- No other width than the given was added or subtracted. -/
def Allows (lpt : AddSubRun) (width : IntWidth) : Prop :=
  (lpt.lastAdd = none ∨ lpt.lastAdd = some (.add width)) ∧
    (lpt.lastSub = none ∨ lpt.lastSub = some (.sub width))

/-- Something of the width was added or subtracted. -/
structure HasWidth (lpt : AddSubRun) (width : IntWidth) : Prop where
  allows : lpt.Allows width
  begun : lpt.lastAdd ≠ none ∨ lpt.lastSub ≠ none

theorem HasWidth.unique {lpt : AddSubRun} {width width' : IntWidth}
    (hasWidth : lpt.HasWidth width) (allows : lpt.Allows width') :
    width' = width := by
  obtain ⟨⟨add, sub⟩, begun⟩ := hasWidth
  obtain ⟨add', sub'⟩ := allows
  rcases begun with some | some
  · have added := add.resolve_left some
    have added' := add'.resolve_left some
    rw [added] at added'
    cases added'
    rfl
  · have subtracted := sub.resolve_left some
    have subtracted' := sub'.resolve_left some
    rw [subtracted] at subtracted'
    cases subtracted'
    rfl

end AddSubRun

/-- The amount was added to the sum that was there, if that may be, or one with
the statement as its first was begun. -/
def Added (addrBits : Nat) (lpt lpt' : AddSubRun) (compatible : Prop)
    (idx : Nat) (amount : Int) : Prop :=
  lpt'.lastStmt = some idx ∧
      (lpt'.sumation : Int) ≡ amount [ZMOD 2 ^ addrBits] ∨
    compatible ∧ ∃ first, lpt.lastStmt = some first ∧
      lpt'.lastStmt = some first ∧
      (lpt'.sumation : Int) ≡ lpt.sumation + amount [ZMOD 2 ^ addrBits]

section Sum

variable {addrBits : Nat} {lpt lpt' : AddSubRun} {idx : Nat}

private theorem negateAddr_modEq (value : Nat) :
    (negateAddr addrBits value : Int) ≡ -value [ZMOD 2 ^ addrBits] := by
  have small : value % 2 ^ addrBits ≤ 2 ^ addrBits :=
    (Nat.mod_lt _ (Nat.two_pow_pos _)).le
  simp only [negateAddr]
  push_cast [small]
  refine (Int.mod_modEq _ _).trans ?_
  have whole : (2 ^ addrBits : Int) ≡ 0 [ZMOD 2 ^ addrBits] :=
    Int.modEq_zero_iff_dvd.mpr dvd_rfl
  have reduced := whole.sub (Int.mod_modEq (value : Int) (2 ^ addrBits))
  rwa [zero_sub] at reduced

private theorem accumulate_added {compatible : Bool} {amount : Nat}
    (done : accumulate addrBits lpt compatible idx amount = .ok lpt') :
    Added addrBits lpt lpt' compatible idx amount := by
  unfold accumulate at done
  split at done
  · next allowed =>
      obtain ⟨_, asserted, done⟩ := bind_eq_ok.mp done
      cases done
      have reduced : (((lpt.sumation + amount) % 2 ^ addrBits : Nat) : Int) ≡
          lpt.sumation + amount [ZMOD 2 ^ addrBits] := by
        push_cast
        exact Int.mod_modEq _ _
      cases started : lpt.lastStmt with
      | none =>
          have zero : lpt.sumation = 0 := by
            rcases tlAssert_eq_ok.mp asserted with running | zero
            · exact absurd started running
            · exact zero
          rw [zero, Nat.cast_zero, zero_add] at reduced
          left
          exact ⟨by simp, by simpa [zero] using reduced⟩
      | some first =>
          right
          exact ⟨allowed, first, started, by simp, reduced⟩
  · cases done
    exact .inl ⟨rfl, Int.ModEq.refl _⟩

theorem Added.congr {lpt'' : AddSubRun} {compatible compatible' : Prop}
    {amount amount' : Int}
    (added : Added addrBits lpt lpt' compatible idx amount)
    (allows : compatible → compatible')
    (same : amount ≡ amount' [ZMOD 2 ^ addrBits])
    (lastStmt : lpt''.lastStmt = lpt'.lastStmt)
    (sumation : lpt''.sumation = lpt'.sumation) :
    Added addrBits lpt lpt'' compatible' idx amount' := by
  rw [Added, lastStmt, sumation]
  rcases added with ⟨begun, sum⟩ | ⟨allowed, first, before, after, sum⟩
  · exact .inl ⟨begun, sum.trans same⟩
  · exact .inr ⟨allows allowed, first, before, after,
      sum.trans (same.add_left _)⟩

theorem shift_eq_none {op : IROp} {arg1 arg2 : IRAtom}
    (noOperand : tmpAndConst arg1 arg2 = none) :
    (IRExpr.binop op arg1 arg2).shift = none := by
  cases op <;> cases arg1 <;> cases arg2 <;> first | rfl | cases noOperand

/-- What is added is the amount of the operation, to a sum of its width. -/
theorem addSubStep_added {op : IROp} {arg1 arg2 : IRAtom} {tmp : Nat}
    {con : IRConst} {result : Option AddSubRun}
    (operands : tmpAndConst arg1 arg2 = some (tmp, con))
    (done : addSubStep addrBits lpt idx op con = .ok result) :
    (IRExpr.binop op arg1 arg2).tmps = [tmp] ∧
      ((IRExpr.binop op arg1 arg2).shift = none ∧ result = none ∨
        ∃ shift lpt', (IRExpr.binop op arg1 arg2).shift = some shift ∧
          result = some lpt' ∧ lpt'.HasWidth shift.width ∧
          Added addrBits lpt lpt' (lpt.Allows shift.width) idx
            shift.amount) := by
  have reduced : ((con.valueOf % 2 ^ addrBits : Nat) : Int) ≡ con.valueOf
      [ZMOD 2 ^ addrBits] := by
    push_cast
    exact Int.mod_modEq _ _
  have negated := @negateAddr_modEq addrBits con.valueOf
  unfold tmpAndConst at operands
  split at operands
  all_goals cases operands
  all_goals
    refine ⟨rfl, ?_⟩
    cases op with
    | other tag =>
        cases done
        exact .inl ⟨rfl, rfl⟩
    | add width =>
        obtain ⟨lpt', accumulated, done⟩ := bind_eq_ok.mp done
        cases done
        refine .inr ⟨_, _, rfl, rfl, ⟨⟨.inr rfl, ?_⟩, .inl nofun⟩,
          (accumulate_added accumulated).congr of_decide_eq_true reduced rfl
            rfl⟩
        dsimp only
        split
        · next allowed => exact allowed.2
        · exact .inl rfl
    | sub width =>
        obtain ⟨lpt', accumulated, done⟩ := bind_eq_ok.mp done
        cases done
        refine .inr ⟨_, _, rfl, rfl, ⟨⟨?_, .inr rfl⟩, .inr nofun⟩,
          (accumulate_added accumulated).congr
            (fun allowed => (of_decide_eq_true allowed).symm) negated rfl rfl⟩
        dsimp only
        split
        · next allowed => exact allowed.2
        · exact .inl rfl

end Sum

end Dependency

end HelgrindPlus
