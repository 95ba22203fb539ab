import BareMetal.Buddy.Level
import BareMetal.Pool.Model

/-!
# The layout of pool pages

Where the header, `page_info` and the slots of a page lie, for every class of sizes: a
class of at most `0x800` bytes has slots in a single page, a larger one has `total` 0 and
a single chunk behind the header, which covers the byte of `page_info`.

`free` finds the page and the slot from the address of a chunk.
-/

namespace BareMetal.Pool

open CS Buddy

variable {size i : ℕ}

/-- The classes of `malloc_`. -/
inductive PoolClass : ℕ → Prop
  | small {l : ℕ} (high : l ≤ 11) : PoolClass (2 ^ l)
  | large {l : ℕ} (low : 13 ≤ l) (high : l ≤ 18) : PoolClass (2 ^ l)

namespace PoolClass

theorem small_or_large (cls : PoolClass size) :
    0 < size ∧ size ≤ 0x800 ∨ 0x2000 ≤ size ∧ size ≤ 0x40000 := by
  cases cls with
  | @small l high =>
    have lower := Nat.two_pow_pos l
    have upper : 2 ^ l ≤ 2 ^ 11 := Nat.pow_le_pow_right (by omega) high
    omega
  | @large l low high =>
    have lower : 2 ^ 13 ≤ 2 ^ l := Nat.pow_le_pow_right (by omega) low
    have upper : 2 ^ l ≤ 2 ^ 18 := Nat.pow_le_pow_right (by omega) high
    omega

theorem bounds (cls : PoolClass size) : 0 < size ∧ size ≤ 0x40000 := by
  rcases cls.small_or_large with ⟨low, high⟩ | ⟨low, high⟩ <;> omega

/-- The search of `malloc_` compares sizes up to a factor of 2, which separates the
classes. -/
theorem eq_of_near {size' : ℕ} (cls : PoolClass size) (cls' : PoolClass size')
    (low : size ≤ size') (high : size' < 2 * size) : size' = size := by
  obtain ⟨l, rfl⟩ : ∃ l, size = 2 ^ l := by cases cls <;> exact ⟨_, rfl⟩
  obtain ⟨l', rfl⟩ : ∃ l', size' = 2 ^ l' := by cases cls' <;> exact ⟨_, rfl⟩
  have le : l ≤ l' := (Nat.pow_le_pow_iff_right (by omega)).mp low
  have lt : l' < l + 1 := by
    refine (Nat.pow_lt_pow_iff_right (a := 2) (by omega)).mp ?_
    rwa [pow_succ, Nat.mul_comm]
  rw [show l' = l by omega]

end PoolClass

/-- The class covers the request. -/
theorem classOf_eq (request : size ≤ 2 ^ 17) :
    ∃ cls, classOf size = .ok cls ∧ PoolClass cls ∧
      (cls ≤ 0x800 ∧ size ≤ cls ∨ 0x2000 ≤ cls ∧ 2 * size ≤ cls) := by
  let padded := if size < 8 then 8 else size
  have least : 8 ≤ padded ∧ size ≤ padded ∧ padded ≤ 2 ^ 17 := by
    simp only [padded]
    split_ifs <;> omega
  let order := (padded - 1).size
  have order_low : 3 ≤ order := Nat.lt_size.mpr (by omega)
  have order_high : order ≤ 17 := Nat.size_le.mpr (by omega)
  have covers : padded - 1 < 2 ^ order := Nat.lt_size_self _
  have narrow : toInt32 (padded - 1 : ℕ) = (padded - 1 : ℕ) := toInt32_of_lt (by omega)
  have exponent : min pageMaxOrder ((order : ℤ) - 1) + 1 = order := by
    rw [pageMaxOrder]
    omega
  have power : power2 (min pageMaxOrder ((order : ℤ) - 1) + 1) = 2 ^ order := by
    rw [exponent, power2_eq, Int.toNat_natCast]
  have result : classOf size = .ok (if 2 ^ order > 0x800 then 2 ^ order * 2 else 2 ^ order) := by
    change (log2 (toInt32 (subU64 padded 1 : ℕ)) >>= _) = _
    rw [subU64_of_le (by omega) (by omega), narrow, log2_eq (by omega), outcome_bind_ok]
    change Except.ok (if power2 (min pageMaxOrder ((order : ℤ) - 1) + 1) > 0x800
      then power2 (min pageMaxOrder ((order : ℤ) - 1) + 1) * 2
      else power2 (min pageMaxOrder ((order : ℤ) - 1) + 1)) = _
    rw [power]
  refine ⟨_, result, ?_⟩
  by_cases doubled : 2 ^ order > 0x800
  · have above : 11 < order := (Nat.pow_lt_pow_iff_right (a := 2) (by omega)).mp doubled
    have lower : 2 ^ 12 ≤ 2 ^ order := Nat.pow_le_pow_right (by omega) above
    rw [if_pos doubled, ← pow_succ]
    refine ⟨.large (by omega) (by omega), .inr ?_⟩
    rw [pow_succ]
    omega
  · rw [if_neg doubled]
    have below : order ≤ 11 :=
      (Nat.pow_le_pow_iff_right (a := 2) (by omega)).mp (Nat.le_of_not_gt doubled)
    exact ⟨.small below, .inl ⟨by omega, by omega⟩⟩

/-- Requests between 2¹⁷ and 2³⁰ bytes have the last class, which the cap of `log2` gives. -/
theorem classOf_capped (low : 2 ^ 17 < size) (high : size ≤ 2 ^ 30) :
    classOf size = .ok 0x40000 := by
  have unpadded : (if size < 8 then 8 else size) = size := if_neg (by omega)
  have narrow : toInt32 (size - 1 : ℕ) = (size - 1 : ℕ) := toInt32_of_lt (by omega)
  have digits : 17 < (size - 1).size := Nat.lt_size.mpr (by omega)
  have order : min pageMaxOrder (((size - 1).size : ℤ) - 1) = 16 := by
    rw [pageMaxOrder]
    omega
  rw [classOf]
  dsimp only
  rw [unpadded, subU64_of_le (by omega) (by omega), narrow, log2_eq (by omega), order,
    outcome_bind_ok]
  rfl

/-- Up to 32 bytes less than that the class has room for the header too. -/
theorem classOf_covers (request : size ≤ 2 ^ 18 - 32) :
    ∃ cls, classOf size = .ok cls ∧
      (cls ≤ 0x800 ∧ size ≤ cls ∨ 0x2000 ≤ cls ∧ size + 32 ≤ cls) := by
  by_cases low : size ≤ 2 ^ 17
  · obtain ⟨cls, run, -, covers⟩ := classOf_eq low
    exact ⟨cls, run, by omega⟩
  · exact ⟨0x40000, classOf_capped (by omega) (by omega), .inr (by omega)⟩

/-- Every request has a class of `malloc_`, unless `log2` does not end. -/
theorem classOf_poolClass {cls : ℕ} (run : classOf size = .ok cls) : PoolClass cls := by
  obtain ⟨order, log, run⟩ := outcome_bind_eq_ok.mp run
  obtain ⟨low, high⟩ := log2_range log
  obtain ⟨e, exponent⟩ := Int.eq_ofNat_of_zero_le (show 0 ≤ order + 1 by omega)
  rw [outcome_pure, Except.ok.injEq, exponent, power2_eq, Int.toNat_natCast] at run
  split_ifs at run with doubled
  · have above : 11 < e := (Nat.pow_lt_pow_iff_right (a := 2) (by omega)).mp doubled
    rw [← run, ← pow_succ]
    exact .large (by omega) (by omega)
  · rw [← run]
    exact .small ((Nat.pow_le_pow_iff_right (a := 2) (by omega)).mp (Nat.le_of_not_gt doubled))

/-- A class is at most half a page, or whole pages, of at most 64. -/
theorem PoolClass.range (cls : PoolClass size) :
    0 < size ∧ size ≤ 0x800 ∨ ∃ l, 1 ≤ l ∧ l ≤ 6 ∧ size = 2 ^ l * 0x1000 := by
  cases cls with
  | @small l high => exact .inl ⟨Nat.two_pow_pos l, Nat.pow_le_pow_right (by omega) high⟩
  | @large l low high =>
    obtain ⟨d, rfl⟩ := Nat.exists_eq_add_of_le low
    refine .inr ⟨d + 1, by omega, by omega, ?_⟩
    rw [show 13 + d = d + 1 + 12 by omega, pow_add]
    rfl

/-! ## Offsets in a page -/

@[simp] theorem aling8_sizeofPoolHeader : aling8 sizeofPoolHeader = 32 := rfl

theorem aling8_bounds (value : ℕ) : value ≤ aling8 value ∧ aling8 value ≤ value + 7 := by
  rw [aling8]
  split_ifs <;> omega

/-- The offset of slot `i` in its page. -/
def slotOffset (size i : ℕ) : ℕ := 32 + aling8 (totalFor size) + size * i

/-- The number of bytes of a chunk: a slot, or the rest of a block. -/
def chunkSize (size : ℕ) : ℕ := if totalFor size = 0 then size - 32 else size

theorem totalFor_le (size : ℕ) : totalFor size * size + totalFor size ≤ 4048 := by
  have quotient := Nat.div_mul_le_self 4048 (size + 1)
  rw [Nat.mul_add, Nat.mul_one] at quotient
  exact quotient

theorem totalFor_le_info (size : ℕ) : totalFor size ≤ 4048 := by
  have layout := totalFor_le size
  omega

theorem totalFor_pos (small : size ≤ 0x800) : 0 < totalFor size :=
  Nat.div_pos (by simp; omega) (by omega)

theorem totalFor_eq_zero (large : 0x2000 ≤ size) : totalFor size = 0 :=
  Nat.div_eq_of_lt (by simp; omega)

/-- The number of bytes in the block of a page. -/
def blockSize (size : ℕ) : ℕ := 2 ^ levelFor size * 0x1000

namespace PoolClass

/-- Chunks lie behind the header and `page_info` and inside the block; the first byte
of `page_info` may be covered. -/
theorem slot_bounds (cls : PoolClass size) (slot : i < max (totalFor size) 1) :
    32 + totalFor size ≤ slotOffset size i ∧
      slotOffset size i + chunkSize size ≤ blockSize size ∧ slotOffset size i < 0x1000 := by
  have covers := le_of_levelFor size
  have bounds := aling8_bounds (totalFor size)
  have layout := totalFor_le size
  rw [slotOffset, chunkSize, blockSize]
  rcases cls.small_or_large with ⟨low, high⟩ | ⟨low, high⟩
  · have positive := totalFor_pos high
    have level : 2 ^ levelFor size * 0x1000 = 0x1000 := by
      have fits : size ≤ 2 ^ 0 * 0x1000 := high.trans (by decide)
      have zero : levelFor size = 0 := Nat.le_zero.mp (levelFor_le_of_le (by omega) fits)
      rw [zero, pow_zero, Nat.one_mul]
    have slots : size * i + size ≤ totalFor size * size := by
      rw [← Nat.mul_succ, Nat.mul_comm (totalFor size)]
      exact Nat.mul_le_mul_left _ (by omega)
    rw [if_neg (by omega), level]
    omega
  · have none := totalFor_eq_zero low
    obtain rfl : i = 0 := by omega
    have unaligned : aling8 0 = 0 := rfl
    rw [none, if_pos rfl, unaligned, Nat.mul_zero]
    omega

/-- Two slots of a page do not overlap. -/
theorem slot_disjoint {j : ℕ} (lt : i < j)
    (slot : j < max (totalFor size) 1) :
    slotOffset size i + chunkSize size ≤ slotOffset size j := by
  have several : totalFor size ≠ 0 := by omega
  have step : size * i + size ≤ size * j := by
    rw [← Nat.mul_succ]
    exact Nat.mul_le_mul_left _ lt
  rw [slotOffset, slotOffset, chunkSize, if_neg several]
  omega

/-- `free` computes the slot from the offset. -/
theorem slot_index (cls : PoolClass size) (slot : i < max (totalFor size) 1) :
    subU64 (subU64 (slotOffset size i) (aling8 (totalFor size))) 32 / size = i := by
  obtain ⟨-, -, inside⟩ := cls.slot_bounds slot
  have positive := cls.bounds.1
  rw [slotOffset] at inside ⊢
  have behind : subU64 (32 + aling8 (totalFor size) + size * i) (aling8 (totalFor size)) =
      32 + size * i := by
    rw [subU64_of_le (by omega) (by omega)]
    omega
  rw [behind, subU64_of_le (by omega) (by omega), Nat.add_sub_cancel_left,
    Nat.mul_div_cancel_left _ positive]

end PoolClass

end BareMetal.Pool
