import PLZero.Code
import PLZero.Machine.CallStack

/-!
# Operands

Numbers below the bound of signed words survive the way through an operand of an instruction.
-/

namespace PLZero

namespace Operand

theorem toInt_ofNat {n : Nat} (h : n < Decimal.int64Bound) : (Int64.ofNat n).toInt = n :=
  Int64.toInt_ofNat_of_lt h

theorem not_ofNat_lt_zero {n : Nat} (h : n < Decimal.int64Bound) : ¬ Int64.ofNat n < 0 := by
  rw [Int64.lt_iff_toInt_lt, toInt_ofNat h]
  exact Int.not_lt.mpr (Int.natCast_nonneg n)

theorem ofNat_toNat {d : Int64} (h : ¬ d < 0) : Int64.ofNat d.toInt.toNat = d := by
  rw [Int64.lt_iff_toInt_lt, Int.not_lt] at h
  rw [← Int64.ofInt_eq_ofNat, Int.toNat_of_nonneg h, Int64.ofInt_toInt]

theorem ofNat_sub {m n : Nat} (h : n ≤ m) : Int64.ofNat m - Int64.ofNat n = Int64.ofNat (m - n) := by
  obtain ⟨k, rfl⟩ := Nat.exists_eq_add_of_le h
  rw [Nat.add_sub_cancel_left, Int64.ofNat_add, Int64.add_comm, Int64.add_sub_cancel]

theorem slot?_ofNat {n : Nat} (h : n < Decimal.int64Bound) : CallStack.slot? (.ofNat n) = some n := by
  unfold CallStack.slot?
  rw [if_neg (not_ofNat_lt_zero h), toInt_ofNat h, Int.toNat_natCast]

theorem slot?_eq_some {w : Int64} {n : Nat} : CallStack.slot? w = some n ↔ ¬ w < 0 ∧ w.toInt.toNat = n := by
  unfold CallStack.slot?
  split <;> simp_all

end Operand

namespace Code

/-- The operand is the number: as a word, and as an integer in code of a length that words count. -/
def Counts (code : Code) (operand : Int64) (n : Nat) : Prop :=
  operand = .ofNat n ∧ (code.size < Decimal.int64Bound → operand.toInt = n)

theorem counts_ofNat {code : Code} {n : Nat} (hn : n ≤ code.size) : code.Counts (.ofNat n) n :=
  ⟨rfl, fun hsize => Operand.toInt_ofNat (Nat.lt_of_le_of_lt hn hsize)⟩

end Code

end PLZero
