import Mathlib.Algebra.Order.Ring.Nat
import Mathlib.Data.Int.Notation

/-! The conversion of integers to a type of 32 bits. -/

namespace Narrowing

/-- The number of 32 bits, with a sign, that is congruent to `n`. -/
def toInt32 (n : Int) : Int := n.bmod (2 ^ 32)

theorem toInt32_self {n : Int} (hn : 0 ≤ n) (hlt : n < 2 ^ 31) : toInt32 n = n := by
  rw [toInt32, Int.bmod_eq_of_le] <;> omega

theorem toInt32_spec (n : Int) :
    ∃ q, n = toInt32 n + 2 ^ 32 * q ∧ -2 ^ 31 ≤ toInt32 n ∧ toInt32 n < 2 ^ 31 := by
  have hlt : n.bmod (2 ^ 32) < ((2 ^ 32 : Nat) + 1) / 2 := Int.bmod_lt (by omega)
  have hle : -((2 ^ 32 : Nat) / 2) ≤ n.bmod (2 ^ 32) := Int.le_bmod (by omega)
  obtain ⟨q, hq⟩ : ((2 ^ 32 : Nat) : Int) ∣ n - n.bmod (2 ^ 32) := Int.dvd_self_sub_bmod
  rw [toInt32]
  exact ⟨q, by omega, by omega, by omega⟩

end Narrowing
