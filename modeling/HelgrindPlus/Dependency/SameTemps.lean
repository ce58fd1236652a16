import HelgrindPlus.Dependency.SameWalk
import HelgrindPlus.Dependency.SimplifiedTree
import HelgrindPlus.Dependency.SpinDependencies

/-!
# Temporaries that are declared the same

Where the walks from two temporaries can be compared, the comparison comes to
an answer, and temporaries that it declares the same have equal values.
-/

namespace HelgrindPlus

namespace Dependency

open Outcome

/-- The comparison comes to an answer, and what it declares the same has equal
values. -/
def SoundAnswer (tree : IrsbTree) (equal : Host → Valuation → Prop)
    (comparison : Except Halt Comparison) : Prop :=
  ∃ answer, comparison = .ok answer ∧ answer ≠ .exhausted ∧
    (answer = .same → ∀ host values, values.Consistent host tree →
      equal host values)

/-- The comparison of the two temporaries comes to an answer without reading
through an iterator that is at its end, and temporaries that it declares the
same have equal values for all values of registers and memory. -/
def SameHaveEqualValues (fuel : Nat) (tree : IrsbTree) (tmp1 tmp2 : Nat) :
    Prop :=
  SoundAnswer tree (fun _ values => values.temps tmp1 = values.temps tmp2)
    (treeIsSameSubExpressionTree fuel tree tmp1 tmp2)

/-- The iterator at a statement that has its value from the expression. -/
def iterFrom (tree : IrsbTree) (idx : Nat) (data : IRExpr) : TreeIterator :=
  ⟨[⟨.stmt, idx, 0, none, [some data], false⟩], tree.irsb.stmts.length * 2,
    true, false⟩

private theorem treeIteratorNew_source {tree : IrsbTree} {tmp idx : Nat}
    (shaped : tree.Shaped) (node : treeNodeTmp tree tmp = .ok idx) :
    ∃ data, tree.irsb.stmts[idx]? = some (.wrTmp tmp data) ∧
      treeIteratorNew tree idx = .ok (iterFrom tree idx data) := by
  obtain ⟨data, found⟩ := shaped.node tmp idx (treeNodeTmp_eq_ok node)
  refine ⟨data, found, ?_⟩
  rw [treeIteratorNew, treeIteratorStmt, found]
  rfl

private theorem sameTemps_sound {fuel : Nat} {tree : IrsbTree} {tmp1 tmp2 : Nat}
    (shaped : tree.Shaped) (simplified : tree.wasSimplified = true)
    (enough : walkBound tree.irsb.stmts.length < fuel)
    (comparable : Comparable tree (.atom (.rdTmp tmp1))
      (.atom (.rdTmp tmp2))) : SameHaveEqualValues fuel tree tmp1 tmp2 := by
  obtain ⟨⟨target1, led1⟩, target2, led2⟩ :=
    comparable.nodes _ _ _ .root
  obtain ⟨idx1, node1, rfl⟩ := leadsTo_rdTmp led1
  obtain ⟨idx2, node2, rfl⟩ := leadsTo_rdTmp led2
  obtain ⟨data1, found1, new1⟩ := treeIteratorNew_source shaped node1
  obtain ⟨data2, found2, new2⟩ := treeIteratorNew_source shaped node2
  have light := treeIteratorNew_ends tree idx1
  rw [new1] at light
  have ahead : PairsAhead tree (.atom (.rdTmp tmp1)) (.atom (.rdTmp tmp2))
      [(data1, data2)] :=
    .next .root rfl (.source led1 led2 found1 found2 rfl rfl)
  have inStep : InStep (iterFrom tree idx1 data1) (iterFrom tree idx2 data2)
      [(data1, data2)] :=
    @InStep.entering _ _ _ [] [] [] [] _ _ rfl rfl rfl ⟨by simp, rfl, rfl⟩
      ⟨by simp, rfl, rfl⟩
      (@LeftStacks.cons _ _ _ _ [_] [] (.inr ⟨rfl, rfl⟩) (.inr ⟨rfl, rfl⟩)
        (.left _ _ .nil) .nil)
  have twins : Twins (iterFrom tree idx1 data1) (iterFrom tree idx2 data2) :=
    ⟨rfl, ⟨rfl, rfl⟩, ⟨rfl, rfl⟩⟩
  obtain ⟨answer, returned, sane, same⟩ := sameLoop_answers shaped comparable
    twins inStep ahead (light.trans_lt enough)
  refine ⟨answer, ?_, sane, fun declared host values consistent => ?_⟩
  · rw [treeIsSameSubExpressionTree, tlAssert_of simplified, ok_bind, node1,
      ok_bind, new1, ok_bind, node2, ok_bind, new2, ok_bind, returned]
  · have finished := same declared
    exact finished.equal shaped consistent comparable finished (by simp)

section Types

variable (sig : Nat → List IRType) (wordTy : IRType) (tyenv : List IRType)

/-- The types of the operands, which `typeOfPrimop` gives. -/
def IROp.argTypes : IROp → List IRType
  | .add width | .sub width => [width.type, width.type]
  | .other tag => sig tag

def operandTypes (args : List IRAtom) : List (Option IRType) :=
  args.map fun arg => (typeOfIRAtom tyenv arg).toOption

/-- What `tcExpr` checks of the operands. -/
def IRExpr.saneOperands : IRExpr → Bool
  | .qop op arg1 arg2 arg3 arg4 =>
      operandTypes tyenv [arg1, arg2, arg3, arg4] =
        (op.argTypes sig).map some
  | .triop op arg1 arg2 arg3 =>
      operandTypes tyenv [arg1, arg2, arg3] = (op.argTypes sig).map some
  | .binop op arg1 arg2 =>
      operandTypes tyenv [arg1, arg2] = (op.argTypes sig).map some
  | .unop op arg => operandTypes tyenv [arg] = (op.argTypes sig).map some
  | .load _ _ addr => (typeOfIRAtom tyenv addr).toOption = some wordTy
  | _ => true

/-- The assignments of a tree are typed. -/
def IrsbTree.Typed (host : Host) (tree : IrsbTree) : Prop :=
  ∀ tmp data, .wrTmp tmp data ∈ tree.irsb.stmts →
    (typeOfIRExpr host tree.irsb.tyenv data).toOption =
        tree.irsb.tyenv[tmp]? ∧
      data.saneOperands sig wordTy tree.irsb.tyenv

end Types

section SameType

variable {host : Host} {sig : Nat → List IRType} {wordTy : IRType}
  {tree : IrsbTree} {tmp1 tmp2 : Nat}

/-- The pairs are of one type, and typed. -/
structure TypedPair (host : Host) (sig : Nat → List IRType) (wordTy : IRType)
    (tyenv : List IRType) (e1 e2 : IRExpr) : Prop where
  types : (typeOfIRExpr host tyenv e1).toOption =
    (typeOfIRExpr host tyenv e2).toOption
  sane1 : e1.saneOperands sig wordTy tyenv
  sane2 : e2.saneOperands sig wordTy tyenv

theorem typeOf_rdTmp (tyenv : List IRType) (tmp : Nat) :
    (typeOfIRExpr host tyenv (.atom (.rdTmp tmp))).toOption = tyenv[tmp]? := by
  simp only [typeOfIRExpr, typeOfIRAtom]
  cases tyenv[tmp]? <;> rfl

/-- Operands at the same place of operations that are the same are of one
type. -/
theorem operandTypes_zip {tyenv : List IRType} {args1 args2 : List IRAtom}
    {arg1 arg2 : IRAtom}
    (same : operandTypes tyenv args1 = operandTypes tyenv args2)
    (member : (arg1, arg2) ∈ args1.zip args2) :
    (typeOfIRAtom tyenv arg1).toOption =
      (typeOfIRAtom tyenv arg2).toOption := by
  induction args1 generalizing args2 with
  | nil => cases member
  | cons first1 rest1 induction =>
      cases args2 with
      | nil => cases member
      | cons first2 rest2 =>
          obtain ⟨first, later⟩ := List.cons.inj same
          rcases List.mem_cons.mp member with here | there
          · cases here
            exact first
          · exact induction later there

theorem TypedPair.operand {tyenv : List IRType} {e1 e2 : IRExpr}
    (pair : TypedPair host sig wordTy tyenv e1 e2) (same : sameExpr e1 e2)
    {arg1 arg2 : IRAtom} (member : (arg1, arg2) ∈ e1.children.zip e2.children) :
    (typeOfIRAtom tyenv arg1).toOption =
      (typeOfIRAtom tyenv arg2).toOption := by
  have sane1 := pair.sane1
  have sane2 := pair.sane2
  have fromOperands : ∀ {args1 args2 : List IRAtom} {types : List IRType},
      decide (operandTypes tyenv args1 = types.map some) = true →
      decide (operandTypes tyenv args2 = types.map some) = true →
      (arg1, arg2) ∈ args1.zip args2 →
      (typeOfIRAtom tyenv arg1).toOption =
        (typeOfIRAtom tyenv arg2).toOption := by
    intro args1 args2 types left right member
    exact operandTypes_zip
      ((of_decide_eq_true left).trans (of_decide_eq_true right).symm) member
  cases sameForm_of same with
  | qop op => exact fromOperands sane1 sane2 member
  | triop op => exact fromOperands sane1 sane2 member
  | binop op => exact fromOperands sane1 sane2 member
  | unop op => exact fromOperands sane1 sane2 member
  | load =>
      cases List.mem_singleton.mp member
      exact (of_decide_eq_true sane1).trans (of_decide_eq_true sane2).symm
  | _ => cases member

theorem TypedPair.below (shaped : tree.Shaped)
    (typed : tree.Typed sig wordTy host) {e1 e2 : IRExpr}
    (pair : TypedPair host sig wordTy tree.irsb.tyenv e1 e2)
    (same : sameExpr e1 e2) {below : List (IRExpr × IRExpr)}
    (pairs : PairsBelow tree e1 e2 below) {later : IRExpr × IRExpr}
    (member : later ∈ below) :
    TypedPair host sig wordTy tree.irsb.tyenv later.1 later.2 := by
  cases pairs with
  | @source data1 data2 idx1 idx2 st1 st2 led1 led2 found1 found2 gives1
      gives2 =>
      cases List.mem_singleton.mp member
      cases sameForm_of same with
      | get offset ty1 ty2 =>
          -- reads of one type have the value of the same write
          obtain rfl : ty1 = ty2 := Option.some.inj pair.types
          cases led1.symm.trans led2
          cases found1.symm.trans found2
          cases gives1.symm.trans gives2
          have sane : data1.saneOperands sig wordTy tree.irsb.tyenv := by
            cases st1 with
            | wrTmp tmp data =>
                cases gives1
                exact (typed tmp data1 (List.mem_of_getElem? found1)).2
            | put offset data => cases gives1; rfl
            | _ => cases gives1
          exact ⟨rfl, sane, sane⟩
      | rdTmp tmp tmp' =>
          obtain ⟨idx, node1, ⟨⟩⟩ := leadsTo_rdTmp led1
          obtain ⟨idx', node2, ⟨⟩⟩ := leadsTo_rdTmp led2
          obtain ⟨_, isData1⟩ := shaped.node _ _ (treeNodeTmp_eq_ok node1)
          obtain ⟨_, isData2⟩ := shaped.node _ _ (treeNodeTmp_eq_ok node2)
          cases found1.symm.trans isData1
          cases found2.symm.trans isData2
          cases gives1
          cases gives2
          obtain ⟨type1, sane1⟩ := typed _ _ (List.mem_of_getElem? found1)
          obtain ⟨type2, sane2⟩ := typed _ _ (List.mem_of_getElem? found2)
          have types := pair.types
          rw [typeOf_rdTmp, typeOf_rdTmp] at types
          exact ⟨by rw [type1, type2, types], sane1, sane2⟩
      | _ => cases led1
  | operands led1 led2 =>
      obtain ⟨⟨arg1, arg2⟩, operands, rfl⟩ := List.mem_map.mp member
      exact ⟨pair.operand same operands, rfl, rfl⟩

/-- Below temporaries of one type, the pairs are of one type. -/
theorem PairsAhead.typed (shaped : tree.Shaped)
    (typed : tree.Typed sig wordTy host)
    (oneType : tree.irsb.tyenv[tmp1]? = tree.irsb.tyenv[tmp2]?)
    {pairs : List (IRExpr × IRExpr)}
    (ahead : PairsAhead tree (.atom (.rdTmp tmp1)) (.atom (.rdTmp tmp2))
      pairs) :
    ∀ pair ∈ pairs,
      TypedPair host sig wordTy tree.irsb.tyenv pair.1 pair.2 := by
  induction ahead with
  | root =>
      intro pair member
      cases List.mem_singleton.mp member
      refine ⟨?_, rfl, rfl⟩
      rw [typeOf_rdTmp, typeOf_rdTmp, oneType]
  | next _ same pairs induction =>
      intro pair member
      rcases List.mem_append.mp member with isBelow | isLater
      · exact (induction _ List.mem_cons_self).below shaped typed same pairs
          isBelow
      · exact induction pair (List.mem_cons_of_mem _ isLater)

/-- In a typed block, temporaries of one type can be compared. -/
theorem comparable_of_typed (shaped : tree.Shaped)
    (typed : tree.Typed sig wordTy host)
    (oneType : tree.irsb.tyenv[tmp1]? = tree.irsb.tyenv[tmp2]?)
    (zeros : ∀ bits1 bits2 later,
      PairsAhead tree (.atom (.rdTmp tmp1)) (.atom (.rdTmp tmp2))
        ((.atom (.const (.F64 bits1)), .atom (.const (.F64 bits2))) ::
          later) →
      isZero bits1 → isZero bits2 → bits1 = bits2)
    (nodes : ∀ e1 e2 later,
      PairsAhead tree (.atom (.rdTmp tmp1)) (.atom (.rdTmp tmp2))
        ((e1, e2) :: later) → HasNode tree e1 ∧ HasNode tree e2) :
    Comparable tree (.atom (.rdTmp tmp1)) (.atom (.rdTmp tmp2)) := by
  have oneGet : ∀ {offset ty1 ty2 later},
      PairsAhead tree (.atom (.rdTmp tmp1)) (.atom (.rdTmp tmp2))
        ((.get offset ty1, .get offset ty2) :: later) → ty1 = ty2 := by
    intro offset ty1 ty2 later ahead
    exact Option.some.inj
      (ahead.typed shaped typed oneType _ List.mem_cons_self).types
  exact
    { nodes := nodes
      nexts := by
        intro offset ty1 ty2 next later ahead
        obtain rfl := oneGet ahead
        have onward : leadsTo tree true (.get offset ty1) = .ok none →
            HasNode tree next.1 ∧ HasNode tree next.2 :=
          fun led => nodes _ _ _ (.next ahead (by simp [sameExpr])
            (.operands led led))
        exact ⟨fun led => (onward led).1, fun led => (onward led).2⟩
      lasts := by
        intro offset ty1 ty2 idx ahead led none
        obtain rfl := oneGet ahead
        cases led.symm.trans none
      gets := fun _ _ _ _ _ ahead => oneGet ahead
      loads := fun _ _ _ _ _ _ _ _ ahead => Option.some.inj
        (ahead.typed shaped typed oneType _ List.mem_cons_self).types
      zeros := fun _ => zeros }

end SameType

section Walked

variable {tree : IrsbTree} {root1 root2 e1 e2 : IRExpr}

theorem IRStmt.source_walked {st : IRStmt} {data : IRExpr}
    (gives : st.source = some data) : data ∈ st.walked := by
  cases st <;> cases gives <;> exact List.mem_cons_self

theorem IRStmt.operand_walked {st : IRStmt} {e : IRExpr} {arg : IRAtom}
    (member : e ∈ st.walked) (operand : arg ∈ e.children) :
    .atom arg ∈ st.walked := by
  cases st with
  | wrTmp tmp data =>
      rcases List.mem_cons.mp member with rfl | below
      · exact List.mem_cons_of_mem _ (List.mem_map_of_mem operand)
      · obtain ⟨arg', _, rfl⟩ := List.mem_map.mp below
        cases operand
  | put offset data => cases List.mem_singleton.mp member; cases operand
  | store endness addr data => cases List.mem_singleton.mp member; cases operand
  | exit guard => cases List.mem_singleton.mp member; cases operand
  | _ => cases member

/-- The expression is one of the block, or the root. -/
def RootOrWalked (tree : IrsbTree) (root e : IRExpr) : Prop :=
  e = root ∨ ∃ st ∈ tree.irsb.stmts, e ∈ st.walked

theorem RootOrWalked.operand {root e : IRExpr} {arg : IRAtom}
    (inside : RootOrWalked tree root e) (bare : root.children = [])
    (operand : arg ∈ e.children) : RootOrWalked tree root (.atom arg) := by
  rcases inside with rfl | ⟨st, member, walked⟩
  · rw [bare] at operand
    cases operand
  · exact .inr ⟨st, member, IRStmt.operand_walked walked operand⟩

/-- Below the roots there are only expressions of the block. -/
theorem PairsAhead.walked {pairs : List (IRExpr × IRExpr)}
    (ahead : PairsAhead tree root1 root2 pairs) (bare1 : root1.children = [])
    (bare2 : root2.children = []) :
    ∀ pair ∈ pairs, RootOrWalked tree root1 pair.1 ∧
      RootOrWalked tree root2 pair.2 := by
  induction ahead with
  | root =>
      intro pair member
      cases List.mem_singleton.mp member
      exact ⟨.inl rfl, .inl rfl⟩
  | next _ _ pairs induction =>
      intro pair member
      rcases List.mem_append.mp member with isBelow | isLater
      · obtain ⟨inside1, inside2⟩ := induction _ List.mem_cons_self
        cases pairs with
        | source _ _ found1 found2 gives1 gives2 =>
            cases List.mem_singleton.mp isBelow
            exact ⟨.inr ⟨_, List.mem_of_getElem? found1,
                IRStmt.source_walked gives1⟩,
              .inr ⟨_, List.mem_of_getElem? found2,
                IRStmt.source_walked gives2⟩⟩
        | operands _ _ =>
            obtain ⟨args, isArgs, rfl⟩ := List.mem_map.mp isBelow
            obtain ⟨operand1, operand2⟩ := List.of_mem_zip isArgs
            exact ⟨inside1.operand bare1 operand1,
              inside2.operand bare2 operand2⟩
      · exact induction pair (List.mem_cons_of_mem _ isLater)

end Walked

/-- No constant of the block is a double. -/
def IrsbTree.integral (tree : IrsbTree) : Bool :=
  tree.irsb.stmts.all fun st => st.walked.all fun
    | .atom (.const (.F64 _)) => false
    | _ => true

private theorem comparable_of_descending {host : Host} {sig : Nat → List IRType}
    {wordTy : IRType} {tree : IrsbTree} {tmp1 tmp2 : Nat}
    (shaped : tree.Shaped) (typed : tree.Typed sig wordTy host)
    (oneType : tree.irsb.tyenv[tmp1]? = tree.irsb.tyenv[tmp2]?)
    (integral : tree.integral) (descending : tree.descending)
    (node1 : ∃ idx, treeNodeTmp tree tmp1 = .ok idx)
    (node2 : ∃ idx, treeNodeTmp tree tmp2 = .ok idx) :
    Comparable tree (.atom (.rdTmp tmp1)) (.atom (.rdTmp tmp2)) := by
  have atRoot : ∀ {tmp}, (∃ idx, treeNodeTmp tree tmp = .ok idx) →
      ∃ target, leadsTo tree true (.atom (.rdTmp tmp)) = .ok target := by
    rintro tmp ⟨idx, node⟩
    exact ⟨some idx, by rw [leadsTo, node]; rfl⟩
  have inside : ∀ e, (∃ st ∈ tree.irsb.stmts, e ∈ st.walked) →
      ∃ target, leadsTo tree true e = .ok target := by
    rintro e ⟨st, member, walked⟩
    obtain ⟨idx, found⟩ := List.getElem?_of_mem member
    obtain ⟨_, target, led, _⟩ := descending_at descending found walked
    exact ⟨target, led⟩
  refine comparable_of_typed shaped typed oneType ?_ ?_
  · intro bits1 bits2 later ahead
    rcases (ahead.walked rfl rfl _ List.mem_cons_self).1 with
      isRoot | ⟨st, member, walked⟩
    · cases isRoot
    · cases List.all_eq_true.mp (List.all_eq_true.mp integral st member) _
        walked
  · intro e1 e2 later ahead
    obtain ⟨rfl | walked1, rfl | walked2⟩ :=
      ahead.walked rfl rfl _ List.mem_cons_self
    · exact ⟨atRoot node1, atRoot node2⟩
    · exact ⟨atRoot node1, inside e2 walked2⟩
    · exact ⟨inside e1 walked1, atRoot node2⟩
    · exact ⟨inside e1 walked1, inside e2 walked2⟩

/-- In a block that was simplified, the comparison is right about temporaries
if the walks from them find all statements, do not end one before the other,
and end only if what they took for the same has the same meaning. -/
theorem same_have_equal_values (addrBits fuel : Nat) (bb : IRSB)
    (fresh tree : IrsbTree) (tmp1 tmp2 : Nat)
    (built : treeInit bb = .ok fresh)
    (simplified : treeSimplify addrBits fuel fresh = .ok tree)
    (enough : walkBound fresh.irsb.stmts.length < fuel)
    (comparable : Comparable tree (.atom (.rdTmp tmp1))
      (.atom (.rdTmp tmp2))) : SameHaveEqualValues fuel tree tmp1 tmp2 := by
  obtain ⟨shaped, flag, length⟩ :=
    treeSimplify_shaped (treeInit_shaped built) enough simplified
  exact sameTemps_sound shaped flag (length ▸ enough) comparable

/-- A host whose operations give the lowest bit of their operand. -/
def parityHost : Host where
  opType _ := .I1
  op _ args := args.headD 0 % 2
  op_lt _ _ := Nat.mod_lt _ Nat.two_pos
  ccall _ _ _ := 0
  ccall_lt := zero_lt_bits
  dirty _ state := state

/-- An address is computed twice. -/
def offsetBlock : IRSB where
  tyenv := [.I32, .I32, .I32]
  stmts := [.iMark 0x8048000 6, .wrTmp 0 (.get 8 .I32),
    .wrTmp 1 (.binop (.add .w32) (.rdTmp 0) (.const (.U32 4))),
    .wrTmp 2 (.binop (.add .w32) (.rdTmp 0) (.const (.U32 4)))]

def offsetTree : IrsbTree where
  irsb := offsetBlock
  tstruct := [some 1, some 2, some 3]
  regLoopDefs := []
  stmtAddressProps := []
  wasSimplified := true

theorem same_have_equal_values_offset :
    treeInit offsetBlock = .ok { offsetTree with wasSimplified := false } ∧
      treeSimplify 32 (walkBound 4 + 1)
        { offsetTree with wasSimplified := false } = .ok offsetTree ∧
      (treeIsSameSubExpressionTree 100 offsetTree 1 2).toOption = some .same ∧
      SameHaveEqualValues (walkBound 4 + 1) offsetTree 1 2 := by
  have built : treeInit offsetBlock =
      .ok { offsetTree with wasSimplified := false } := by decide +kernel
  have simplified : treeSimplify 32 (walkBound 4 + 1)
      { offsetTree with wasSimplified := false } = .ok offsetTree := by
    decide +kernel
  have shaped := (treeSimplify_shaped (treeInit_shaped built)
    (Nat.lt_succ_self _) simplified).1
  have typed : offsetTree.Typed (fun _ => []) .I32 parityHost := by
    intro tmp data member
    simp only [offsetTree, offsetBlock, List.mem_cons, reduceCtorEq,
      IRStmt.wrTmp.injEq, List.not_mem_nil, or_false, false_or] at member
    rcases member with ⟨rfl, rfl⟩ | ⟨rfl, rfl⟩ | ⟨rfl, rfl⟩ <;>
      exact ⟨rfl, rfl⟩
  refine ⟨built, simplified, by decide +kernel, ?_⟩
  exact same_have_equal_values 32 (walkBound 4 + 1) offsetBlock _ offsetTree 1
    2 built simplified (Nat.lt_succ_self _)
    (comparable_of_descending shaped typed rfl (by decide +kernel)
      (by decide +kernel) ⟨2, rfl⟩ ⟨3, rfl⟩)

/-- The two zeros are told apart by an operation, and its results subtracted
from themselves. -/
def cancelledBlock : IRSB where
  tyenv := [.I32, .I32, .I32, .I32]
  stmts := [.iMark 0x8048000 6,
    .wrTmp 0 (.unop (.other 5) (.const (.F64 0))),
    .wrTmp 1 (.unop (.other 5) (.const (.F64 0x8000000000000000))),
    .wrTmp 2 (.binop (.sub .w32) (.rdTmp 0) (.rdTmp 0)),
    .wrTmp 3 (.binop (.sub .w32) (.rdTmp 1) (.rdTmp 1))]

def cancelledTree : IrsbTree where
  irsb := cancelledBlock
  tstruct := [some 1, some 2, some 3, some 4]
  regLoopDefs := []
  stmtAddressProps := []
  wasSimplified := true

/-- What the walks take for the same may have different values and the
temporaries still be equal. -/
theorem equal_not_comparable :
    (treeInit cancelledBlock).bind (treeSimplify 32 100) =
        .ok cancelledTree ∧
      SameHaveEqualValues 100 cancelledTree 2 3 ∧
      ¬ Comparable cancelledTree (.atom (.rdTmp 2)) (.atom (.rdTmp 3)) := by
  refine ⟨by decide +kernel, ⟨.same, by decide +kernel, by decide, ?_⟩, ?_⟩
  · intro _ host values consistent
    have value2 := consistent 2 3 _ rfl rfl
    have value3 := consistent 3 4 _ rfl rfl
    rw [value2, value3]
    have modulus : 2 ^ IntWidth.w32.bits = 4294967296 := by decide
    simp only [Valuation.eval, IROp.apply, modulus]
    omega
  · intro comparable
    have ahead0 := @PairsAhead.root cancelledTree (.atom (.rdTmp 2))
      (.atom (.rdTmp 3))
    have ahead1 := ahead0.next rfl (.source rfl rfl rfl rfl rfl rfl)
    have ahead2 := ahead1.next rfl (.operands rfl rfl)
    have ahead3 := ahead2.next rfl (.source rfl rfl rfl rfl rfl rfl)
    have ahead4 := ahead3.next rfl (.operands rfl rfl)
    have ahead5 := ahead4.next rfl (.operands rfl rfl)
    have ahead6 := ahead5.next rfl (.source rfl rfl rfl rfl rfl rfl)
    have ahead7 := ahead6.next rfl (.operands rfl rfl)
    have ahead8 := ahead7.next rfl (.operands rfl rfl)
    have equal := comparable.zeros ahead8 _ _ _ ahead4 rfl rfl
    exact absurd equal (by decide)

/-- The register is read with two widths, and written at the end, or not. -/
def widthsBlock (last : List IRStmt) : IRSB where
  tyenv := [.I32, .I64]
  stmts := [.iMark 0x8048000 6, .wrTmp 0 (.get 8 .I32),
    .wrTmp 1 (.get 8 .I64)] ++ last

def widthsTree (last : List IRStmt) (defs : List (Nat × Nat)) : IrsbTree where
  irsb := widthsBlock last
  tstruct := [some 1, some 2]
  regLoopDefs := defs
  stmtAddressProps := []
  wasSimplified := true

/-- The reads are declared the same, and with the write the comparison goes
on after the end of a walk. -/
theorem same_have_different_values :
    (treeInit (widthsBlock [])).bind (treeSimplify 32 100) =
        .ok (widthsTree [] []) ∧
      ¬ SameHaveEqualValues 100 (widthsTree [] []) 0 1 ∧
      (treeInit (widthsBlock [.put 8 (.const (.U64 5))])).bind
          (treeSimplify 32 100) =
        .ok (widthsTree [.put 8 (.const (.U64 5))] [(0x8000F, 3)]) ∧
      treeIsSameSubExpressionTree 100
          (widthsTree [.put 8 (.const (.U64 5))] [(0x8000F, 3)]) 1 0 =
        .ok .exhausted := by
  have same : treeIsSameSubExpressionTree 100 (widthsTree [] []) 0 1 =
      .ok .same := by decide +kernel
  refine ⟨by decide +kernel, ?_, by decide +kernel, by decide +kernel⟩
  rintro ⟨answer, returned, _, sound⟩
  rw [same] at returned
  cases returned
  let values : Valuation :=
    ⟨fun _ ty => ty.bytes, fun _ _ => 0, fun _ => 0,
      fun tmp => if tmp = 0 then 4 else 8⟩
  have consistent : values.Consistent parityHost (widthsTree [] []) := by
    intro tmp idx data node found
    match tmp with
    | 0 => cases node; cases found; rfl
    | 1 => cases node; cases found; rfl
    | tmp + 2 => cases node
  have equal := sound rfl parityHost values consistent
  revert equal
  decide

end Dependency

end HelgrindPlus
