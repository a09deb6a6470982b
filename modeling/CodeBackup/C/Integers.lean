import Mathlib.Tactic.NormNum
import Mathlib.Algebra.Order.Ring.Int

/-!
# Integers

An `int` has 32 bits, and an operation on it leaves the remainder that 32 bits
can hold (`int32`). Where the exact result is an `int`, that is the result
(`IsInt.int32_eq`). A division has no result (`none`) by zero, and for the
quotient of the smallest `int` by -1, which no `int` holds.
-/

namespace CodeBackup.C

/-- The values of an `int`. -/
def IsInt (a : Int) : Prop := -2 ^ 31 ≤ a ∧ a < 2 ^ 31

instance (a : Int) : Decidable (IsInt a) := inferInstanceAs (Decidable (_ ∧ _))

/-- The value of an `int` after an operation. -/
def int32 (a : Int) : Int := a.bmod (2 ^ 32)

def uint32 (a : Int) : Nat := (a % 2 ^ 32).toNat
def uint64 (a : Int) : Nat := (a % 2 ^ 64).toNat

/-- A division without a result. -/
abbrev NoQuotient (a b : Int) : Prop := b = 0 ∨ a = -2 ^ 31 ∧ b = -1

/-- `a / b`. -/
def div (a b : Int) : Option Int := if NoQuotient a b then none else some (a.tdiv b)

/-- `a % b`. -/
def mod (a b : Int) : Option Int := if NoQuotient a b then none else some (a.tmod b)

section

variable {a b : Int}

/-! ## Wrapping around -/

theorem int32_eq (a : Int) : int32 a = if a % 2 ^ 32 < 2 ^ 31 then a % 2 ^ 32 else a % 2 ^ 32 - 2 ^ 32 := by
  rw [int32, Int.bmod_def]
  norm_num

theorem isInt_int32 (a : Int) : IsInt (int32 a) := by
  unfold IsInt
  rw [int32_eq]
  split
  · omega
  · omega

/-- **Nothing is lost** of a result that is an `int`. -/
theorem IsInt.int32_eq (h : IsInt a) : int32 a = a := by
  obtain ⟨ge, lt⟩ := h
  rw [C.int32_eq]
  split
  · omega
  · omega

/-- Whatever the order of the operations, an `int` holds the centred remainder of the product. -/
theorem int32_mul (a b : Int) : int32 (int32 a * b) = int32 (a * b) := Int.bmod_mul_bmod

theorem mul_int32 (a b : Int) : int32 (a * int32 b) = int32 (a * b) := Int.mul_bmod_bmod

theorem int32_add (a b : Int) : int32 (int32 a + b) = int32 (a + b) := Int.bmod_add_bmod

/-! ## Divisions -/

theorem div_of_ne (ne : b ≠ 0) (fits : ¬(a = -2 ^ 31 ∧ b = -1)) : div a b = some (a.tdiv b) := by
  rw [div, if_neg (not_or.2 ⟨ne, fits⟩)]

theorem div_of_pos (pos : 0 < b) : div a b = some (a.tdiv b) := div_of_ne pos.ne' (by omega)

theorem mod_of_pos (pos : 0 < b) : mod a b = some (a.tmod b) := by
  rw [mod, if_neg (by omega)]

/-- A quotient is between the dividend and 0. -/
theorem IsInt.tdiv (h : IsInt a) (pos : 0 < b) : IsInt (a.tdiv b) := by
  unfold IsInt at *
  rcases le_total 0 a with ge | le
  · have := Int.ediv_nonneg ge pos.le
    have := Int.ediv_le_self b ge
    rw [Int.tdiv_eq_ediv_of_nonneg ge]
    omega
  · obtain ⟨n, rfl⟩ : ∃ n, a = -n := ⟨-a, by omega⟩
    have ge : 0 ≤ n := by omega
    have := Int.ediv_nonneg ge pos.le
    have := Int.ediv_le_self b ge
    rw [Int.neg_tdiv, Int.tdiv_eq_ediv_of_nonneg ge]
    omega

end

end CodeBackup.C
