import Mathlib.Tactic.Common
import Mathlib.Tactic.Ring

/-!
# Numbers in byte-addressed cells

Reading and writing a number of a given number of bytes, least significant
byte first or last.
-/

namespace Bytes

abbrev Cells := Nat → UInt8

/-- The number in `count` cells from `start`, the lowest byte first. -/
def read (cells : Cells) (start : Nat) : Nat → Nat
  | 0 => 0
  | count + 1 => (cells start).toNat + 256 * read cells (start + 1) count

def write (cells : Cells) (start count value : Nat) : Cells :=
  fun cell =>
    if start ≤ cell ∧ cell < start + count then
      UInt8.ofNat (value / 256 ^ (cell - start))
    else
      cells cell

/-- The number in `count` cells from `start`, the highest byte first. -/
def readBig (cells : Cells) (start : Nat) : Nat → Nat
  | 0 => 0
  | count + 1 => 256 * readBig cells start count + (cells (start + count)).toNat

def writeBig (cells : Cells) (start count value : Nat) : Cells :=
  fun cell =>
    if start ≤ cell ∧ cell < start + count then
      UInt8.ofNat (value / 256 ^ (start + count - 1 - cell))
    else
      cells cell

/-- The cells of the two ranges that begin at `start` and `start'` are
different. -/
def Disjoint (start count start' count' : Nat) : Prop :=
  start + count ≤ start' ∨ start' + count' ≤ start

instance (start count start' count' : Nat) :
    Decidable (Disjoint start count start' count') :=
  inferInstanceAs (Decidable (_ ∨ _))

theorem read_congr {cells cells' : Cells} {start count : Nat}
    (same : ∀ cell, start ≤ cell → cell < start + count →
      cells cell = cells' cell) :
    read cells start count = read cells' start count := by
  induction count generalizing start with
  | zero => rfl
  | succ count induction =>
      have first : cells start = cells' start :=
        same start (Nat.le_refl start) (by omega)
      have rest : read cells (start + 1) count =
          read cells' (start + 1) count := by
        apply induction
        intro cell after before
        exact same cell (by omega) (by omega)
      simp only [read, first, rest]

theorem readBig_congr {cells cells' : Cells} {start count : Nat}
    (same : ∀ cell, start ≤ cell → cell < start + count →
      cells cell = cells' cell) :
    readBig cells start count = readBig cells' start count := by
  induction count with
  | zero => rfl
  | succ count induction =>
      have last : cells (start + count) = cells' (start + count) :=
        same (start + count) (by omega) (by omega)
      have rest := induction fun cell after before =>
        same cell after (by omega)
      simp only [readBig, last, rest]

theorem read_lt (cells : Cells) (start count : Nat) :
    read cells start count < 256 ^ count := by
  induction count generalizing start with
  | zero => simp [read]
  | succ count induction =>
      have first : (cells start).toNat < 256 := (cells start).toNat_lt
      have rest := induction (start + 1)
      rw [read, Nat.pow_succ]
      omega

theorem write_outside {cells : Cells} {start count value cell : Nat}
    (outside : ¬ (start ≤ cell ∧ cell < start + count)) :
    write cells start count value cell = cells cell :=
  if_neg outside

theorem read_write_disjoint {cells : Cells}
    {start count start' count' value : Nat}
    (disjoint : Disjoint start count start' count') :
    read (write cells start' count' value) start count =
      read cells start count := by
  apply read_congr
  intro cell after before
  apply write_outside
  unfold Disjoint at disjoint
  omega

/-- What was written is read back. -/
theorem read_write (cells : Cells) (start count value : Nat) :
    read (write cells start count value) start count = value % 256 ^ count := by
  induction count generalizing cells start value with
  | zero => simp [read, Nat.mod_one]
  | succ count induction =>
      -- the cells after the first hold the number without its lowest byte
      have rest : read (write cells start (count + 1) value) (start + 1) count =
          read (write cells (start + 1) count (value / 256)) (start + 1)
            count := by
        apply read_congr
        intro cell after before
        have position : cell - start = (cell - (start + 1)) + 1 := by omega
        have inside : start ≤ cell ∧ cell < start + (count + 1) := by omega
        have inside' : start + 1 ≤ cell ∧ cell < start + 1 + count := by omega
        rw [write, write, if_pos inside, if_pos inside', position,
          Nat.pow_succ', Nat.div_div_eq_div_mul]
      have first : write cells start (count + 1) value start =
          UInt8.ofNat value := by
        simp [write]
      rw [read, rest, induction, first, Nat.pow_succ', Nat.mod_mul]
      rfl

/-- A byte of the number that was read is the one in its cell. -/
theorem byte_of_read {cells : Cells} {start count cell : Nat}
    (above : start ≤ cell) (inside : cell < start + count) :
    UInt8.ofNat (read cells start count / 256 ^ (cell - start)) =
      cells cell := by
  induction count generalizing start with
  | zero => omega
  | succ count induction =>
      have low : (cells start).toNat < 256 := (cells start).toNat_lt
      by_cases first : cell = start
      · subst first
        rw [read, Nat.sub_self, Nat.pow_zero, Nat.div_one]
        apply UInt8.toNat_inj.mp
        rw [UInt8.toNat_ofNat']
        omega
      · have position : cell - start = (cell - (start + 1)) + 1 := by omega
        rw [read, position, Nat.pow_succ', ← Nat.div_div_eq_div_mul,
          Nat.add_mul_div_left _ _ (by decide), Nat.div_eq_of_lt low,
          Nat.zero_add]
        exact induction (by omega) (by omega)

theorem read_write_of_lt {cells : Cells} {start count value : Nat}
    (fits : value < 256 ^ count) :
    read (write cells start count value) start count = value := by
  rw [read_write, Nat.mod_eq_of_lt fits]

end Bytes
