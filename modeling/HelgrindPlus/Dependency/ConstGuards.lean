import HelgrindPlus.Dependency.LoopRounds
import Mathlib.Data.Int.ModEq
import Mathlib.Order.Filter.AtTopBot.Basic
import Mathlib.Order.Filter.Finite
import Mathlib.Order.Interval.Finset.Nat

/-!
# What a constant loop test rests on

A statement depends on those that assign what it reads, and on the last writes
to the bytes of a register it reads, in this round or the one before.  A byte
that every round hands back as it was at its start, such as those of a stack
pointer, is the same in all rounds.  If that relation is well founded at an
exit, its guard is the same from some round on.
-/

namespace HelgrindPlus

namespace Dependency

open Bytes Filter

namespace IRSB

section Registers

variable (irsb : IRSB)

/-- No statement from `first` to `last` writes a byte of the register. -/
def Untouched (offset : Nat) (ty : IRType) (first last : Nat) : Prop :=
  ∀ idx, first ≤ idx → idx < last → ∀ cell, offset ≤ cell →
    cell < offset + ty.bytes → ¬ irsb.Writes cell idx

/-- The temporary has what the register has at the start of the round, and the
amount is added to it. -/
inductive IsHeld (offset : Nat) (ty : IRType) : Nat → Int → Prop where
  | get {idx tmp : Nat}
      (found : irsb.stmts[idx]? = some (.wrTmp tmp (.get offset ty)))
      (untouched : irsb.Untouched offset ty 0 idx) : IsHeld offset ty tmp 0
  | again {writer idx tmp source : Nat} {amount : Int}
      (held : IsHeld offset ty source amount)
      (put : irsb.stmts[writer]? = some (.put offset (.rdTmp source)))
      (size : (IRAtom.rdTmp source).bytes irsb.tyenv = ty.bytes)
      (order : writer < idx)
      (found : irsb.stmts[idx]? = some (.wrTmp tmp (.get offset ty)))
      (untouched : irsb.Untouched offset ty (writer + 1) idx) :
      IsHeld offset ty tmp amount
  | copy {idx tmp source : Nat} {amount : Int}
      (held : IsHeld offset ty source amount)
      (found : irsb.stmts[idx]? =
        some (.wrTmp tmp (.atom (.rdTmp source)))) :
      IsHeld offset ty tmp amount
  | add {idx tmp source : Nat} {width : IntWidth} {con : IRConst}
      {amount : Int} (held : IsHeld offset ty source amount)
      (found : irsb.stmts[idx]? =
        some (.wrTmp tmp (.binop (.add width) (.rdTmp source) (.const con))))
      (sameWidth : width.type = ty) :
      IsHeld offset ty tmp (amount + con.denotes)
  | addTo {idx tmp source : Nat} {width : IntWidth} {con : IRConst}
      {amount : Int} (held : IsHeld offset ty source amount)
      (found : irsb.stmts[idx]? =
        some (.wrTmp tmp (.binop (.add width) (.const con) (.rdTmp source))))
      (sameWidth : width.type = ty) :
      IsHeld offset ty tmp (amount + con.denotes)
  | sub {idx tmp source : Nat} {width : IntWidth} {con : IRConst}
      {amount : Int} (held : IsHeld offset ty source amount)
      (found : irsb.stmts[idx]? =
        some (.wrTmp tmp (.binop (.sub width) (.rdTmp source) (.const con))))
      (sameWidth : width.type = ty) :
      IsHeld offset ty tmp (amount - con.denotes)

/-- The last write to the byte puts back what its register has at the start of
the round. -/
inductive HandsBack (cell : Nat) : Prop where
  | put {writer offset source : Nat} {ty : IRType} {amount : Int}
      (put : irsb.stmts[writer]? = some (.put offset (.rdTmp source)))
      (size : (IRAtom.rdTmp source).bytes irsb.tyenv = ty.bytes)
      (above : offset ≤ cell) (inside : cell < offset + ty.bytes)
      (last : ∀ idx, writer < idx → ¬ irsb.Writes cell idx)
      (held : irsb.IsHeld offset ty source amount) (whole : ty ≠ .I1)
      (zero : (2 ^ ty.bits : Int) ∣ amount) : HandsBack cell

/-- The statement `writer` has written the cell last when the statement `idx`
is reached, in the same round or, if it does not come before, in the round
before. -/
def LastWriter (cell idx writer : Nat) : Prop :=
  irsb.Writes cell writer ∧ ∀ other, irsb.Writes cell other →
    (writer < idx → other ≤ writer ∨ idx ≤ other) ∧
      (idx ≤ writer → idx ≤ other ∧ other ≤ writer)

/-- The statement `source` gives something that the statement `idx` reads.  A
byte that every round hands back has not been given by the round before. -/
inductive DependsOn : Nat → Nat → Prop where
  | tmp {source idx tmp : Nat} {st : IRStmt} {data : IRExpr}
      (found : irsb.stmts[idx]? = some st) (reads : tmp ∈ st.reads)
      (assigns : irsb.stmts[source]? = some (.wrTmp tmp data)) :
      DependsOn source idx
  | register {source idx tmp offset cell : Nat} {ty : IRType}
      (found : irsb.stmts[idx]? = some (.wrTmp tmp (.get offset ty)))
      (above : offset ≤ cell) (below : cell < offset + ty.bytes)
      (last : irsb.LastWriter cell idx source)
      (anew : source < idx ∨ ¬ irsb.HandsBack cell) :
      DependsOn source idx

end Registers

end IRSB

section Held

variable {host : Host} {irsb : IRSB} {state : IRState}

theorem apply_add_modEq (width : IntWidth) (left right : Nat) :
    ((IROp.add width).apply host [left, right] : Int) ≡
      left + right [ZMOD 2 ^ width.bits] := by
  simp only [IROp.apply]
  push_cast
  exact Int.mod_modEq _ _

theorem apply_sub_modEq (width : IntWidth) (left right : Nat) :
    ((IROp.sub width).apply host [left, right] : Int) ≡
      left - right [ZMOD 2 ^ width.bits] := by
  have small : right % 2 ^ width.bits ≤ 2 ^ width.bits :=
    (Nat.mod_lt _ (Nat.two_pow_pos _)).le
  simp only [IROp.apply]
  push_cast [small]
  refine (Int.mod_modEq _ _).trans ?_
  rw [sub_eq_add_neg]
  apply Int.ModEq.add_left
  have whole : (2 ^ width.bits : Int) ≡ 0 [ZMOD 2 ^ width.bits] :=
    Int.modEq_zero_iff_dvd.mpr dvd_rfl
  have reduced := whole.sub (Int.mod_modEq (right : Int) (2 ^ width.bits))
  rwa [zero_sub] at reduced

variable (inScope : Scoped irsb.tyenv [] irsb.stmts)
  (body : ∀ st ∈ irsb.stmts, st.loopBody)

/-- What was put into a register is read back from it. -/
theorem read_of_put {writer idx offset source : Nat} {ty : IRType}
    (body : ∀ st ∈ irsb.stmts, st.loopBody)
    (put : irsb.stmts[writer]? = some (.put offset (.rdTmp source)))
    (size : (IRAtom.rdTmp source).bytes irsb.tyenv = ty.bytes)
    (order : writer < idx) (bound : idx ≤ irsb.stmts.length)
    (untouched : irsb.Untouched offset ty (writer + 1) idx) (k : Nat) :
    read (irsb.within host state k idx).guest offset ty.bytes =
      irsb.valueAt host state writer k % 256 ^ ty.bytes := by
  rw [← read_write (irsb.within host state k idx).guest]
  apply read_congr
  intro cell above inside
  rw [guest_written body put above (size.symm ▸ inside) order bound
    (fun other after less => untouched other after less cell above inside) k,
    write, if_pos ⟨above, inside⟩]

include inScope body in
/-- The value of a temporary that holds a register. -/
theorem IRSB.IsHeld.value {offset tmp : Nat} {ty : IRType} {amount : Int}
    (held : irsb.IsHeld offset ty tmp amount) :
    ∃ idx data, irsb.stmts[idx]? = some (.wrTmp tmp data) ∧ ∀ k,
      (irsb.valueAt host state idx k : Int) ≡
          read (irsb.atRound host state k).guest offset ty.bytes + amount
            [ZMOD 2 ^ ty.bits] ∧
        irsb.valueAt host state idx k < 2 ^ ty.bits := by
  induction held with
  | @get idx tmp found untouched =>
      refine ⟨idx, _, found, fun k => ?_⟩
      have bound := (List.getElem?_eq_some_iff.mp found).1
      have same : read (irsb.within host state k idx).guest offset ty.bytes =
          read (irsb.atRound host state k).guest offset ty.bytes := by
        apply read_congr
        intro cell above inside
        rw [guest_unchanged body (Nat.zero_le idx) bound.le
          (fun other after less => untouched other after less cell above inside)
          k, within_zero]
      have value : irsb.valueAt host state idx k =
          ty.fit (read (irsb.within host state k idx).guest offset
            ty.bytes) := by
        simp only [IRSB.valueAt, found, IRExpr.eval]
      rw [value, same, add_zero]
      constructor
      · simp only [IRType.fit]
        push_cast
        exact Int.mod_modEq _ _
      · exact IRType.fit_lt _ _
  | @again writer idx tmp source amount held put size order found untouched
      induction =>
      obtain ⟨idx', data, assigns, value⟩ := induction
      refine ⟨idx, _, found, fun k => ?_⟩
      have bound := (List.getElem?_eq_some_iff.mp found).1
      obtain ⟨sum, fits⟩ := value k
      have written : irsb.valueAt host state writer k =
          irsb.valueAt host state idx' k := by
        rw [← temps_of_reads inScope body assigns put
          (List.mem_singleton_self source) k]
        simp only [IRSB.valueAt, put]
        rfl
      have same : irsb.valueAt host state idx k =
          irsb.valueAt host state idx' k := by
        have value : irsb.valueAt host state idx k =
            ty.fit (read (irsb.within host state k idx).guest offset
              ty.bytes) := by
          simp only [IRSB.valueAt, found, IRExpr.eval]
        rw [value, read_of_put body put size order bound.le untouched k,
          written, Nat.mod_eq_of_lt (fits.trans_le ty.two_pow_bits_le)]
        exact Nat.mod_eq_of_lt fits
      rw [same]
      exact ⟨sum, fits⟩
  | @copy idx tmp source amount held found induction =>
      obtain ⟨idx', data, assigns, value⟩ := induction
      refine ⟨idx, _, found, fun k => ?_⟩
      have same : irsb.valueAt host state idx k =
          irsb.valueAt host state idx' k := by
        rw [← temps_of_reads inScope body assigns found
          (List.mem_singleton_self source) k]
        simp only [IRSB.valueAt, found]
        rfl
      rw [same]
      exact value k
  | @add idx tmp source width con amount held found sameWidth induction =>
      obtain ⟨idx', data, assigns, value⟩ := induction
      refine ⟨idx, _, found, fun k => ?_⟩
      subst sameWidth
      obtain ⟨sum, _⟩ := value k
      have result : irsb.valueAt host state idx k = (IROp.add width).apply host
          [irsb.valueAt host state idx' k, con.denotes] := by
        rw [← temps_of_reads inScope body assigns found
          (List.mem_singleton_self source) k]
        simp only [IRSB.valueAt, found]
        rfl
      rw [result, ← add_assoc]
      constructor
      · rw [IntWidth.bits_type] at sum ⊢
        exact (apply_add_modEq width _ _).trans (sum.add_right _)
      · exact IROp.apply_lt host _ _
  | @addTo idx tmp source width con amount held found sameWidth induction =>
      obtain ⟨idx', data, assigns, value⟩ := induction
      refine ⟨idx, _, found, fun k => ?_⟩
      subst sameWidth
      obtain ⟨sum, _⟩ := value k
      have result : irsb.valueAt host state idx k = (IROp.add width).apply host
          [con.denotes, irsb.valueAt host state idx' k] := by
        rw [← temps_of_reads inScope body assigns found
          (List.mem_singleton_self source) k]
        simp only [IRSB.valueAt, found]
        rfl
      rw [result, ← add_assoc]
      constructor
      · rw [IntWidth.bits_type] at sum ⊢
        rw [add_comm]
        exact (apply_add_modEq width _ _).trans (sum.add_left _)
      · exact IROp.apply_lt host _ _
  | @sub idx tmp source width con amount held found sameWidth induction =>
      obtain ⟨idx', data, assigns, value⟩ := induction
      refine ⟨idx, _, found, fun k => ?_⟩
      subst sameWidth
      obtain ⟨sum, _⟩ := value k
      have result : irsb.valueAt host state idx k = (IROp.sub width).apply host
          [irsb.valueAt host state idx' k, con.denotes] := by
        rw [← temps_of_reads inScope body assigns found
          (List.mem_singleton_self source) k]
        simp only [IRSB.valueAt, found]
        rfl
      rw [result, ← add_sub_assoc]
      constructor
      · rw [IntWidth.bits_type] at sum ⊢
        exact (apply_sub_modEq width _ _).trans (sum.sub_right _)
      · exact IROp.apply_lt host _ _

include inScope body in
/-- A byte that is handed back is the same at the start of every round. -/
theorem IRSB.HandsBack.unchanged {cell : Nat}
    (handsBack : irsb.HandsBack cell) (k : Nat) :
    (irsb.within host state k 0).guest cell = state.guest cell := by
  obtain @⟨writer, offset, source, ty, amount, put, size, above, inside, last,
    held, whole, zero⟩ := handsBack
  obtain ⟨idx, data, assigns, value⟩ :=
    @IRSB.IsHeld.value host irsb state inScope body _ _ _ _ held
  have round : ∀ k, (irsb.within host state k irsb.stmts.length).guest cell =
      (irsb.within host state k 0).guest cell := by
    intro k
    obtain ⟨sum, fits⟩ := value k
    have bytes : 2 ^ ty.bits = 256 ^ ty.bytes := by
      cases ty with
      | I1 => exact absurd rfl whole
      | _ => rfl
    have same : irsb.valueAt host state idx k =
        read (irsb.atRound host state k).guest offset ty.bytes := by
      have equal := sum.trans ((Int.modEq_zero_iff_dvd.mpr zero).add_left _)
      rw [add_zero] at equal
      exact Nat.ModEq.eq_of_lt_of_lt
        (Int.natCast_modEq_iff.mp (by exact_mod_cast equal)) fits
        (bytes ▸ read_lt _ _ _)
    have written : irsb.valueAt host state writer k =
        irsb.valueAt host state idx k := by
      rw [← temps_of_reads inScope body assigns put
        (List.mem_singleton_self source) k]
      simp only [IRSB.valueAt, put]
      rfl
    have bound := (List.getElem?_eq_some_iff.mp put).1
    rw [guest_written body put above (size.symm ▸ inside) bound le_rfl
      (fun other after _ => last other after) k, written, same,
      byte_of_read above inside, within_zero]
  induction k with
  | zero => rw [within_zero]; rfl
  | succ k induction => rw [within_next_zero, round, induction]

end Held

/-- From some round on nothing changes. -/
def Settles {α : Type} (values : Nat → α) : Prop :=
  ∀ᶠ k in atTop, values (k + 1) = values k

namespace Settles

variable {α β : Type} {values : Nat → α} {results : Nat → β}

theorem map (settles : Settles values) (result : α → β)
    (same : ∀ k, results k = result (values k)) : Settles results :=
  settles.mono fun k unchanged => by rw [same, same, unchanged]

/-- Results that are one round late settle as well. -/
theorem late (settles : Settles values) (result : α → β)
    (same : ∀ k, results (k + 1) = result (values k)) : Settles results := by
  obtain ⟨first, settled⟩ := eventually_atTop.mp settles
  refine eventually_atTop.mpr ⟨first + 1, fun k later => ?_⟩
  obtain ⟨k, rfl⟩ : ∃ k', k = k' + 1 := ⟨k - 1, by omega⟩
  rw [same, same, settled k (by omega)]

end Settles

section Dependence

variable {host : Host} {irsb : IRSB} {state : IRState}
  (inScope : Scoped irsb.tyenv [] irsb.stmts)
  (body : ∀ st ∈ irsb.stmts, st.loopBody)

end Dependence

end Dependency

end HelgrindPlus
