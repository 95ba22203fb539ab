import BareMetal.CS.Outcome
import Mathlib.Data.Nat.Bitwise
import Mathlib.Tactic.Common

/-!
# Words in rows of bytes

A word has 32 bits and lies in four bytes. `loadWord` reads it with the lowest byte first, as
the processor does, and `bigEndian` writes a number with the highest byte first.

A row of bytes lies at an offset of a longer one when it is a prefix of what is left there;
`prefix_drop_append` cuts such a row in two.
-/

namespace BareMetal.CS

/-- The word at the front of a row of bytes. -/
def loadWord : List UInt8 → Outcome (BitVec 32)
  | b₀ :: b₁ :: b₂ :: b₃ :: _ =>
    .ok (b₃.toBitVec ++ b₂.toBitVec ++ b₁.toBitVec ++ b₀.toBitVec)
  | _ => .error .outOfBounds

/-- The bytes of a number below 2^32, the highest one first. -/
def bigEndian (n : ℕ) : List UInt8 :=
  [UInt8.ofNat (n / 2 ^ 24), UInt8.ofNat (n / 2 ^ 16), UInt8.ofNat (n / 2 ^ 8), UInt8.ofNat n]

@[simp] theorem length_bigEndian (n : ℕ) : (bigEndian n).length = 4 := rfl

theorem toNat_append_byte {w : ℕ} (v : BitVec w) (b : BitVec 8) :
    (v ++ b).toNat = v.toNat * 2 ^ 8 + b.toNat := by
  rw [BitVec.toNat_append, ← Nat.shiftLeft_add_eq_or_of_lt b.isLt, Nat.shiftLeft_eq]

/-- The four bytes of a number, put together in their order. -/
theorem toNat_bigEndian {n : ℕ} (small : n < 2 ^ 32) :
    ((UInt8.ofNat (n / 2 ^ 24)).toBitVec ++ (UInt8.ofNat (n / 2 ^ 16)).toBitVec ++
      (UInt8.ofNat (n / 2 ^ 8)).toBitVec ++ (UInt8.ofNat n).toBitVec).toNat = n := by
  simp only [toNat_append_byte, UInt8.toNat_toBitVec, UInt8.toNat_ofNat']
  omega

/-- Two rows, one behind the other. -/
theorem prefix_drop_append {α : Type*} {a b mem : List α} {n : ℕ} :
    a ++ b <+: mem.drop n ↔ a <+: mem.drop n ∧ b <+: mem.drop (n + a.length) := by
  rw [← List.drop_drop]
  constructor
  · rintro ⟨rest, splits⟩
    rw [← splits, List.append_assoc, List.drop_left]
    exact ⟨List.prefix_append _ _, List.prefix_append _ _⟩
  · rintro ⟨⟨rest, splits⟩, behind⟩
    rw [← splits] at behind ⊢
    rw [List.drop_left] at behind
    exact (List.prefix_append_right_inj a).mpr behind

end BareMetal.CS
