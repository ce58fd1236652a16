import HelgrindPlus.Dependency.FinalValues
import HelgrindPlus.Dependency.SameTemps
import Mathlib.Data.Int.ModEq

/-!
# Sums of constants

The constants that are added and subtracted on the way from one statement to
another.  If nothing else is computed on the way, the temporary that is
assigned first differs by their sum from the one that is read last.
-/

namespace HelgrindPlus

namespace Dependency

open Outcome

/-- What an addition or a subtraction of a constant adds to the sum, and
whether it adds that to its operand. -/
structure Shift where
  width : IntWidth
  amount : Int
  exact : Bool
  deriving DecidableEq, Repr

namespace IRExpr

/-- The difference of a constant and a temporary is taken for one of the
temporary and the constant. -/
def shift : IRExpr → Option Shift
  | binop (.add width) (.rdTmp _) (.const con)
  | binop (.add width) (.const con) (.rdTmp _) =>
      some ⟨width, con.valueOf, true⟩
  | binop (.sub width) (.rdTmp _) (.const con) =>
      some ⟨width, -con.valueOf, true⟩
  | binop (.sub width) (.const con) (.rdTmp _) =>
      some ⟨width, -con.valueOf, false⟩
  | _ => none

private theorem tmps_of_shift {data : IRExpr} {shift : Shift}
    (shifts : data.shift = some shift) : ∃ source, data.tmps = [source] := by
  unfold IRExpr.shift at shifts
  split at shifts
  · next source con => exact ⟨source, rfl⟩
  · next con source => exact ⟨source, rfl⟩
  · next source con => exact ⟨source, rfl⟩
  · next con source => exact ⟨source, rfl⟩
  · cases shifts

end IRExpr

/-- What the walk from some temporary has still to read: what an entered
statement reads comes first. -/
inductive ToRead (tree : IrsbTree) : List Nat → Prop where
  | root (tmp : Nat) : ToRead tree [tmp]
  | enter {tmp tmp' idx : Nat} {rest : List Nat} {data : IRExpr}
      (toRead : ToRead tree (tmp :: rest))
      (node : treeNodeTmp tree tmp = .ok idx)
      (found : tree.irsb.stmts[idx]? = some (.wrTmp tmp' data)) :
      ToRead tree (data.tmps ++ rest)

/-- The sum of the constants from the statement `first` on, and whether nothing
else was computed. -/
structure Sum where
  first : Nat
  width : IntWidth
  total : Int
  exact : Bool

def Sum.add (sum : Sum) (shift : Shift) : Sum :=
  { sum with
    total := sum.total + shift.amount
    exact := sum.exact && shift.exact }

/-- The sum when the walk has still to read the temporaries.  The flag tells
whether the statement that was entered last has added to it.  An operation of
another width begins a new sum; one from which on the constants cancel has
become a copy before. -/
inductive Sums (addrBits : Nat) (tree : IrsbTree) :
    Sum → Bool → List Nat → Prop where
  | start {tmp tmp' first : Nat} {rest : List Nat} {data : IRExpr}
      {shift : Shift} (toRead : ToRead tree (tmp :: rest))
      (node : treeNodeTmp tree tmp = .ok first)
      (found : tree.irsb.stmts[first]? = some (.wrTmp tmp' data))
      (shifts : data.shift = some shift) :
      Sums addrBits tree ⟨first, shift.width, shift.amount, shift.exact⟩ true
        (data.tmps ++ rest)
  | copy {sum : Sum} {adds : Bool} {tmp tmp' source idx : Nat}
      {rest : List Nat} (sums : Sums addrBits tree sum adds (tmp :: rest))
      (node : treeNodeTmp tree tmp = .ok idx)
      (found : tree.irsb.stmts[idx]? =
        some (.wrTmp tmp' (.atom (.rdTmp source)))) :
      Sums addrBits tree sum false (source :: rest)
  | shift {sum : Sum} {adds : Bool} {tmp tmp' idx : Nat} {rest : List Nat}
      {data : IRExpr} {shift : Shift}
      (sums : Sums addrBits tree sum adds (tmp :: rest))
      (node : treeNodeTmp tree tmp = .ok idx)
      (found : tree.irsb.stmts[idx]? = some (.wrTmp tmp' data))
      (shifts : data.shift = some shift) (sameWidth : shift.width = sum.width) :
      Sums addrBits tree (sum.add shift) true (data.tmps ++ rest)
  | other {sum : Sum} {adds : Bool} {tmp tmp' idx : Nat} {rest : List Nat}
      {op : IROp} {arg1 arg2 : IRAtom}
      (sums : Sums addrBits tree sum adds (tmp :: rest))
      (node : treeNodeTmp tree tmp = .ok idx)
      (found : tree.irsb.stmts[idx]? =
        some (.wrTmp tmp' (.binop op arg1 arg2)))
      (noShift : (IRExpr.binop op arg1 arg2).shift = none) :
      Sums addrBits tree { sum with exact := false } false
        ((IRExpr.binop op arg1 arg2).tmps ++ rest)
  | folded {sum inner : Sum} {adds : Bool} {tmp source : Nat}
      {rest : List Nat} (sums : Sums addrBits tree sum adds (tmp :: rest))
      (node : treeNodeTmp tree tmp = .ok inner.first)
      (innerSums : Sums addrBits tree inner true (source :: rest))
      (innerExact : inner.exact = true)
      (zero : (2 ^ addrBits : Int) ∣ inner.total)
      (whole : (2 ^ inner.width.bits : Int) ∣ inner.total) :
      Sums addrBits tree sum false (source :: rest)

/-- Somewhere the constants sum up to zero in an address. -/
def ConstantsCancel (addrBits : Nat) (tree : IrsbTree) : Prop :=
  ∃ sum unread, Sums addrBits tree sum true unread ∧
    (2 ^ addrBits : Int) ∣ sum.total

/-- Wherever constants sum up to zero in an address, they do so in the width of
the first operation too, and nothing else was computed. -/
def SumsExact (addrBits : Nat) (tree : IrsbTree) : Prop :=
  ∀ sum unread, Sums addrBits tree sum true unread →
    (2 ^ addrBits : Int) ∣ sum.total →
    sum.exact = true ∧ (2 ^ sum.width.bits : Int) ∣ sum.total

/-- Where nothing else is computed, the same is read next wherever the walk
comes to the first statement. -/
theorem Sums.again {addrBits : Nat} {tree : IrsbTree} {sum : Sum}
    {adds : Bool} {unread : List Nat}
    (sums : Sums addrBits tree sum adds unread) (isExact : sum.exact = true) :
    ∃ source rest, unread = source :: rest ∧
      ∀ tmp rest', treeNodeTmp tree tmp = .ok sum.first →
        ToRead tree (tmp :: rest') →
        ToRead tree (source :: rest') ∧
          Sums addrBits tree sum adds (source :: rest') := by
  induction sums with
  | @start tmp tmp' first rest data shift toRead node found shifts =>
      obtain ⟨source, reads⟩ := IRExpr.tmps_of_shift shifts
      refine ⟨source, rest, by rw [reads]; rfl, ?_⟩
      intro tmp'' rest' node' toRead'
      have entered := ToRead.enter toRead' node' found
      have started := @Sums.start addrBits _ _ _ _ _ _ _ toRead' node' found
        shifts
      rw [reads] at entered started
      exact ⟨entered, started⟩
  | @copy sum adds tmp tmp' source idx rest sums node found induction =>
      obtain ⟨source', rest', same, again⟩ := induction isExact
      cases same
      refine ⟨source, rest, rfl, ?_⟩
      intro tmp'' rest' node' toRead'
      obtain ⟨toRead, sums'⟩ := again tmp'' rest' node' toRead'
      exact ⟨.enter toRead node found, .copy sums' node found⟩
  | @shift sum adds tmp tmp' idx rest data shift sums node found shifts
      sameWidth induction =>
      have before : sum.exact = true := (Bool.and_eq_true_iff.mp isExact).1
      obtain ⟨source', rest', same, again⟩ := induction before
      cases same
      obtain ⟨source, reads⟩ := IRExpr.tmps_of_shift shifts
      refine ⟨source, rest, by rw [reads]; rfl, ?_⟩
      intro tmp'' rest' node' toRead'
      obtain ⟨toRead, sums'⟩ := again tmp'' rest' node' toRead'
      have entered := ToRead.enter toRead node found
      have added := Sums.shift sums' node found shifts sameWidth
      rw [reads] at entered added
      exact ⟨entered, added⟩
  | other => cases isExact
  | @folded sum inner adds tmp source rest sums node innerSums innerExact zero
      whole induction innerInduction =>
      obtain ⟨tmp', rest', same, again⟩ := induction isExact
      cases same
      obtain ⟨source', rest', same, againInner⟩ := innerInduction innerExact
      cases same
      refine ⟨source, rest, rfl, ?_⟩
      intro tmp'' rest' node' toRead'
      obtain ⟨toRead, sums'⟩ := again tmp'' rest' node' toRead'
      obtain ⟨toRead', inner'⟩ := againInner tmp rest' node toRead
      exact ⟨toRead', .folded sums' node inner' innerExact zero whole⟩

section Operations

variable {host : Host} {sig : Nat → List IRType} {wordTy : IRType}
  {tyenv : List IRType}

theorem valueOf_of_type {con : IRConst} {width : IntWidth}
    (typed : con.typeOf = width.type) : con.valueOf = con.denotes := by
  cases con with
  | V128 value => cases width <;> cases typed
  | _ => rfl

private theorem type_injective {width width' : IntWidth}
    (same : width.type = width'.type) : width = width' := by
  cases width <;> cases width' <;> first | rfl | cases same

/-- The operands of additions and subtractions have their width. -/
theorem operands_of_sane {op : IROp} {width : IntWidth} {arg1 arg2 : IRAtom}
    (isSum : op = .add width ∨ op = .sub width)
    (sane : (IRExpr.binop op arg1 arg2).saneOperands sig wordTy tyenv) :
    (typeOfIRAtom tyenv arg1).toOption = some width.type ∧
      (typeOfIRAtom tyenv arg2).toOption = some width.type := by
  rcases isSum with rfl | rfl <;>
    simpa [IRExpr.saneOperands, operandTypes, IROp.argTypes] using sane

theorem tyenv_of_typeOf {tmp : Nat} {ty : IRType}
    (typed : (typeOfIRAtom tyenv (.rdTmp tmp)).toOption = some ty) :
    tyenv[tmp]? = some ty := by
  simp only [typeOfIRAtom] at typed
  cases declared : tyenv[tmp]? with
  | none =>
      rw [declared] at typed
      cases typed
  | some ty' =>
      rw [declared] at typed
      exact typed

end Operations

section Values

variable {host : Host} {sig : Nat → List IRType} {wordTy : IRType}
  {tree : IrsbTree} {addrBits : Nat}

/-- The statement assigns a sum: its temporary, and the one that is read, have
the width, and their values differ by the amount. -/
structure Differs (host : Host) (tree : IrsbTree) (width : IntWidth)
    (tmp source : Nat) (amount : Int) : Prop where
  declared : tree.irsb.tyenv[tmp]? = some width.type
  sourceDeclared : tree.irsb.tyenv[source]? = some width.type
  values : ∀ start, ((tree.irsb.final host start).temps tmp : Int) ≡
    (tree.irsb.final host start).temps source + amount
      [ZMOD 2 ^ width.bits]

private theorem differs_of_shift (sane : tree.irsb.Sane host)
    (respects : host.Respects tree.irsb.tyenv)
    (typed : tree.Typed sig wordTy host) {idx tmp : Nat} {data : IRExpr}
    {width : IntWidth} {amount : Int}
    (found : tree.irsb.stmts[idx]? = some (.wrTmp tmp data))
    (shift : data.shift = some ⟨width, amount, true⟩) :
    ∃ source, data.tmps = [source] ∧
      Differs host tree width tmp source amount := by
  obtain ⟨type, operands⟩ := typed tmp data (List.mem_of_getElem? found)
  unfold IRExpr.shift at shift
  split at shift
  · next source con =>
      cases shift
      obtain ⟨left, right⟩ := operands_of_sane (.inl rfl) operands
      refine ⟨source, rfl, type.symm, tyenv_of_typeOf left, fun start => ?_⟩
      rw [final_binop sane respects found,
        valueOf_of_type (Option.some.inj right)]
      exact apply_add_modEq width _ _
  · next con source =>
      cases shift
      obtain ⟨left, right⟩ := operands_of_sane (.inl rfl) operands
      refine ⟨source, rfl, type.symm, tyenv_of_typeOf right, fun start => ?_⟩
      rw [final_binop sane respects found, add_comm,
        valueOf_of_type (Option.some.inj left)]
      exact apply_add_modEq width _ _
  · next source con =>
      cases shift
      obtain ⟨left, right⟩ := operands_of_sane (.inr rfl) operands
      refine ⟨source, rfl, type.symm, tyenv_of_typeOf left, fun start => ?_⟩
      rw [final_binop sane respects found, ← sub_eq_add_neg,
        valueOf_of_type (Option.some.inj right)]
      exact apply_sub_modEq width _ _
  · cases shift
  · cases shift

/-- What is between the ends of an exact sum. -/
structure SumsUp (host : Host) (tree : IrsbTree) (sum : Sum) (source : Nat) :
    Prop where
  known : source ∈ tree.irsb.scope sum.first
  differ : ∃ tmp data,
    tree.irsb.stmts[sum.first]? = some (.wrTmp tmp data) ∧
      Differs host tree sum.width tmp source sum.total

/-- What is read in place of a known temporary is known as well. -/
theorem known_of_node (inScope : Scoped tree.irsb.tyenv [] tree.irsb.stmts)
    (shaped : tree.Shaped) {first idx tmp source : Nat}
    (known : tmp ∈ tree.irsb.scope first)
    (node : treeNodeTmp tree tmp = .ok idx)
    (reads : source ∈ tree.irsb.scope idx) :
    source ∈ tree.irsb.scope first := by
  obtain ⟨data, found⟩ := shaped.node tmp idx (treeNodeTmp_eq_ok node)
  apply scope_mono _ reads
  by_contra later
  exact inScope.defines_at found tmp (List.mem_singleton_self tmp)
    (scope_mono (Nat.le_of_not_le later) known)

theorem found_of_node (shaped : tree.Shaped) {idx tmp tmp' : Nat}
    {data : IRExpr} (node : treeNodeTmp tree tmp = .ok idx)
    (found : tree.irsb.stmts[idx]? = some (.wrTmp tmp' data)) :
    tmp' = tmp := by
  obtain ⟨data', found'⟩ := shaped.node tmp idx (treeNodeTmp_eq_ok node)
  rw [found] at found'
  cases found'
  rfl

theorem Sums.sumsUp (sane : tree.irsb.Sane host)
    (respects : host.Respects tree.irsb.tyenv)
    (typed : tree.Typed sig wordTy host) (shaped : tree.Shaped) {sum : Sum}
    {adds : Bool} {unread : List Nat}
    (sums : Sums addrBits tree sum adds unread) (isExact : sum.exact = true) :
    ∃ source rest, unread = source :: rest ∧ SumsUp host tree sum source := by
  have readsAt : ∀ {idx tmp source : Nat} {data : IRExpr},
      tree.irsb.stmts[idx]? = some (.wrTmp tmp data) → data.tmps = [source] →
      source ∈ tree.irsb.scope idx := by
    intro idx tmp source data found reads
    apply sane.inScope.reads_at found source
    change source ∈ data.tmps
    rw [reads]
    exact List.mem_singleton_self source
  induction sums with
  | @start tmp tmp' first rest data shift toRead node found shifts =>
      obtain ⟨width, amount, exact⟩ := shift
      obtain rfl : exact = true := isExact
      obtain ⟨source, reads, differs⟩ :=
        differs_of_shift sane respects typed found shifts
      exact ⟨source, rest, by rw [reads]; rfl, readsAt found reads, tmp', data,
        found, differs⟩
  | @copy sum adds tmp tmp' source idx rest sums node found induction =>
      obtain ⟨_, _, same, known, tmp₁, data₁, found₁, differs⟩ :=
        induction isExact
      cases same
      obtain rfl := found_of_node shaped node found
      refine ⟨source, rest, rfl,
        known_of_node sane.inScope shaped known node (readsAt found rfl), tmp₁,
        data₁, found₁, differs.declared, ?_, fun start => ?_⟩
      · obtain ⟨type, _⟩ := typed tmp' _ (List.mem_of_getElem? found)
        rw [typeOf_rdTmp] at type
        rw [type, differs.sourceDeclared]
      · have before := differs.values start
        rwa [final_copy sane respects found] at before
  | @shift sum adds tmp tmp' idx rest data shift sums node found shifts
      sameWidth induction =>
      obtain ⟨before, now⟩ := Bool.and_eq_true_iff.mp isExact
      obtain ⟨_, _, same, known, tmp₁, data₁, found₁, differs⟩ :=
        induction before
      cases same
      obtain rfl := found_of_node shaped node found
      obtain ⟨width, amount, exact⟩ := shift
      obtain rfl : exact = true := now
      obtain rfl : width = sum.width := sameWidth
      obtain ⟨source, reads, differs'⟩ :=
        differs_of_shift sane respects typed found shifts
      refine ⟨source, rest, by rw [reads]; rfl,
        known_of_node sane.inScope shaped known node (readsAt found reads),
        tmp₁, data₁, found₁, differs.declared, differs'.sourceDeclared,
        fun start => ?_⟩
      have both := (differs.values start).trans
        ((differs'.values start).add_right sum.total)
      rwa [add_assoc, add_comm amount] at both
  | other => cases isExact
  | @folded sum inner adds tmp source rest sums node innerSums innerExact zero
      whole induction innerInduction =>
      obtain ⟨_, _, same, known, tmp₁, data₁, found₁, differs⟩ :=
        induction isExact
      cases same
      obtain ⟨_, _, same, known', tmp', data', found', differs'⟩ :=
        innerInduction innerExact
      cases same
      obtain rfl := found_of_node shaped node found'
      have sameWidth : inner.width = sum.width :=
        type_injective (Option.some.inj
          (differs'.declared.symm.trans differs.sourceDeclared))
      rw [sameWidth] at differs' whole
      refine ⟨source, rest, rfl,
        known_of_node sane.inScope shaped known node known', tmp₁, data₁,
        found₁, differs.declared, differs'.sourceDeclared, fun start => ?_⟩
      have unchanged := (differs'.values start).trans
        ((Int.modEq_zero_iff_dvd.mpr whole).add_left _)
      rw [add_zero] at unchanged
      exact (differs.values start).trans (unchanged.add_right sum.total)

/-- Where the constants sum up to zero, the temporaries have one value. -/
theorem SumsUp.final_eq {sum : Sum} {tmp source : Nat} {data : IRExpr}
    (sumsUp : SumsUp host tree sum source)
    (sane : tree.irsb.Sane host) (respects : host.Respects tree.irsb.tyenv)
    (zero : (2 ^ sum.width.bits : Int) ∣ sum.total)
    (found : tree.irsb.stmts[sum.first]? = some (.wrTmp tmp data)) :
    ∀ start, (tree.irsb.final host start).temps tmp =
      (tree.irsb.final host start).temps source := by
  obtain ⟨known, tmp₁, data₁, found₁, differs⟩ := sumsUp
  rw [found] at found₁
  cases found₁
  have bound := (List.getElem?_eq_some_iff.mp found).1
  have assigned : tmp ∈ tree.irsb.scope (sum.first + 1) := by
    rw [scope_succ found]
    exact List.mem_append_left _ (List.mem_singleton_self tmp)
  intro start
  have low := @final_lt host tree.irsb start sane respects _ _ _ bound assigned
    differs.declared
  have low' := @final_lt host tree.irsb start sane respects _ _ _ bound.le
    known differs.sourceDeclared
  rw [IntWidth.bits_type] at low low'
  have equal := (differs.values start).trans
    ((Int.modEq_zero_iff_dvd.mpr zero).add_left _)
  rw [add_zero] at equal
  exact Nat.ModEq.eq_of_lt_of_lt (Int.natCast_modEq_iff.mp
    (by exact_mod_cast equal)) low low'

end Values

end Dependency

end HelgrindPlus
