import Mathlib.Algebra.Group.Int.Defs
import Mathlib.Algebra.GroupWithZero.Nat
import Mathlib.Data.Int.Basic
import Mathlib.Data.Nat.Size

/-!
# Machine integers

The conversions between C's integer types that the kernel relies on, and unsigned
64-bit subtraction.
-/

namespace BareMetal.CS

/-- Conversion to a signed 32-bit integer. -/
def toInt32 (value : ℤ) : ℤ := Int.bmod value (2 ^ 32)

theorem toInt32_of_lt {value : ℕ} (small : value < 2 ^ 31) : toInt32 value = value := by
  rw [toInt32, Int.bmod_def]
  omega

theorem toInt32_eq_iff {value : ℕ} : toInt32 value = value ↔ value < 2 ^ 31 := by
  refine ⟨fun same => ?_, toInt32_of_lt⟩
  have range := Int.bmod_lt (x := value) (show 0 < 2 ^ 32 by decide)
  rw [toInt32] at same
  omega

theorem toInt32_of_range {value : ℤ} (low : -2 ^ 31 ≤ value) (high : value < 2 ^ 31) :
    toInt32 value = value := by
  rw [toInt32, Int.bmod_def]
  omega

/-- Conversions do not see multiples of 2^32. -/
theorem toInt32_congr {a b : ℤ} (same : a % 2 ^ 32 = b % 2 ^ 32) : toInt32 a = toInt32 b := by
  rw [toInt32, toInt32, Int.bmod_def, Int.bmod_def]
  omega

theorem toInt32_emod (value : ℤ) : toInt32 value % 2 ^ 32 = value % 2 ^ 32 := by
  rw [toInt32, Int.bmod_def]
  omega

/-- Conversion to an unsigned 32-bit integer. -/
def toU32 (value : ℤ) : ℕ := (value % 2 ^ 32).toNat

/-- Conversion to an unsigned 64-bit integer. -/
def toU64 (value : ℤ) : ℕ := (value % 2 ^ 64).toNat

/-- A signed 32-bit integer survives the widening to 64 bits and back. -/
theorem toInt32_toU64 {value : ℤ} (low : -2 ^ 31 ≤ value) (high : value < 2 ^ 31) :
    toInt32 (toU64 value) = value := by
  rw [toInt32, toU64, Int.bmod_def]
  omega

/-- Subtraction of unsigned 64-bit integers. -/
def subU64 (a b : ℕ) : ℕ := (a + (2 ^ 64 - b % 2 ^ 64)) % 2 ^ 64

theorem subU64_of_le {a b : ℕ} (le : b ≤ a) (small : a < 2 ^ 64) : subU64 a b = a - b := by
  rw [subU64]
  omega

end BareMetal.CS
