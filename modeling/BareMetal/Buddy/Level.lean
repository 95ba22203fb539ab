import BareMetal.Buddy.Model
import Mathlib.Algebra.Order.Ring.Nat
import Mathlib.Tactic.Ring

/-!
# Levels of requests

`log2` rounds down, so `page_allocate` looks for the level `log2((size-1)/0x1000)+1`.
Within the range of requests this is the least level whose block covers the
request.
-/

namespace BareMetal.Buddy

open CS

@[simp] theorem power2_eq (value : ℤ) : power2 value = 2 ^ value.toNat := by
  unfold power2
  induction value.toNat with
  | zero => rfl
  | succ n ih => rw [Function.iterate_succ_apply', ih, pow_succ]

/-- The loop of `log2` stops at the number of binary digits of its argument. -/
theorem log2Loop_eq {value i : ℕ} (small : value < 2 ^ 30) {fuel : ℕ}
    (digits : i ≤ value.size) (enough : value.size < i + fuel) :
    log2Loop value fuel ((2 : ℤ) ^ i) i = .ok (min pageMaxOrder ((value.size : ℤ) - 1)) := by
  induction fuel generalizing i with
  | zero => omega
  | succ fuel ih =>
    rw [log2Loop]
    by_cases stop : (2 : ℤ) ^ i > value
    · have large : value < 2 ^ i := by exact_mod_cast stop
      have same : i = value.size := le_antisymm digits (Nat.size_le.mpr large)
      rw [if_pos stop, same, min_def]
      split_ifs <;> first | rfl | (congr 1; omega)
    · have below : i < value.size := Nat.lt_size.mpr (by exact_mod_cast not_lt.mp stop)
      have bound : value.size ≤ 30 := Nat.size_le.mpr small
      have pow_small : 2 ^ (i + 1) < 2 ^ 31 := Nat.pow_lt_pow_right (by omega) (by omega)
      have doubled : toInt32 ((2 : ℤ) ^ i * 2) = (2 : ℤ) ^ (i + 1) := by
        have := toInt32_of_lt pow_small
        rw [← pow_succ]
        exact_mod_cast this
      rw [if_neg stop, doubled]
      exact ih below (by omega)

/-- `log2` is the number of binary digits less one, capped. -/
theorem log2_eq {value : ℕ} (small : value < 2 ^ 30) :
    log2 value = .ok (min pageMaxOrder ((value.size : ℤ) - 1)) := by
  have bound : value.size ≤ 30 := Nat.size_le.mpr small
  exact log2Loop_eq (i := 0) small (Nat.zero_le _) (by omega)

/-- `log2` of what is not positive is `-1`. -/
theorem log2_of_nonpos {value : ℤ} (nonpos : value ≤ 0) : log2 value = .ok (-1) := by
  rw [log2, log2Loop, if_pos (by omega)]
  rfl

private theorem log2Loop_diverges {value ans i : ℤ} {fuel : ℕ}
    (below : ∀ j < fuel, (fun ans => toInt32 (ans * 2))^[j] ans ≤ value) :
    log2Loop value fuel ans i = .error .outOfFuel := by
  induction fuel generalizing ans i with
  | zero => rfl
  | succ fuel ih =>
    have first : ans ≤ value := below 0 (Nat.succ_pos fuel)
    rw [log2Loop, if_neg (not_lt.mpr first)]
    exact ih fun j hj => below (j + 1) (Nat.succ_lt_succ hj)

/-- From `2^30` on no power of two that an `int` holds is larger, and `log2` does not end. -/
theorem log2_diverges {value : ℤ} (large : 2 ^ 30 ≤ value) : log2 value = .error .outOfFuel := by
  have powers : ∀ j < 33, (fun ans => toInt32 (ans * 2))^[j] 1 ≤ 2 ^ 30 := by decide
  exact log2Loop_diverges fun j hj => (powers j hj).trans large

/-- The cap of `log2`. -/
theorem log2_range {value order : ℤ} (run : log2 value = .ok order) : -1 ≤ order ∧ order ≤ 16 := by
  by_cases nonpos : value ≤ 0
  · rw [log2_of_nonpos nonpos, Except.ok.injEq] at run
    omega
  · by_cases large : 2 ^ 30 ≤ value
    · rw [log2_diverges large] at run
      cases run
    · obtain ⟨v, rfl⟩ := Int.eq_ofNat_of_zero_le (not_le.mp nonpos).le
      rw [log2_eq (by omega), Except.ok.injEq, pageMaxOrder] at run
      omega

/-- The largest request that fits a block of the top level, in bytes. -/
def maxRequest : ℕ := 2 ^ 16 * 0x1000

/-- The least level whose block covers a request of `size` bytes. -/
def levelFor (size : ℕ) : ℕ := ((size - 1) / 0x1000).size

theorem levelFor_le {size : ℕ} (large : size ≤ maxRequest) : levelFor size ≤ 16 :=
  Nat.size_le.mpr (by unfold maxRequest at large; omega)

theorem le_of_levelFor (size : ℕ) : size ≤ 2 ^ levelFor size * 0x1000 := by
  have := Nat.lt_size_self ((size - 1) / 0x1000)
  unfold levelFor
  omega

theorem levelFor_le_of_le {size l : ℕ} (positive : 0 < size) (fits : size ≤ 2 ^ l * 0x1000) :
    levelFor size ≤ l :=
  Nat.size_le.mpr (by omega)

/-- `page_allocate` looks for the least level that covers the request. -/
theorem pageLevel_eq {size : ℕ} (positive : 0 < size) (large : size ≤ maxRequest) :
    pageLevel size = .ok (levelFor size : ℤ) := by
  have level_le := levelFor_le large
  unfold maxRequest at large
  have narrow : toInt32 ((size - 1) / 0x1000 : ℕ) = ((size - 1) / 0x1000 : ℕ) :=
    toInt32_of_lt (by omega)
  have capped : min pageMaxOrder ((levelFor size : ℤ) - 1) = levelFor size - 1 :=
    min_eq_right (by unfold pageMaxOrder; omega)
  rw [pageLevel, subU64_of_le positive (by omega), narrow, log2_eq (by omega), outcome_bind_ok,
    outcome_pure]
  change Except.ok (min pageMaxOrder ((levelFor size : ℤ) - 1) + 1) = _
  rw [capped, sub_add_cancel]

/-- The pages of a request less one, as the `int` that `log2` takes. -/
def pagesLessOne (size : ℕ) : ℤ := toInt32 (subU64 size 1 / 0x1000 : ℕ)

/-- The level for a request of up to `2^16` pages. -/
theorem pageLevel_of_lt {size : ℕ} (small : pagesLessOne size < 2 ^ 16) :
    pageLevel size = .ok ((pagesLessOne size).toNat.size : ℤ) := by
  rw [pageLevel]
  change (log2 (pagesLessOne size) >>= fun order => pure (order + 1)) = _
  by_cases nonpos : pagesLessOne size ≤ 0
  · rw [log2_of_nonpos nonpos, Int.toNat_of_nonpos nonpos]
    rfl
  · obtain ⟨v, value⟩ := Int.eq_ofNat_of_zero_le (not_le.mp nonpos).le
    rw [value] at small ⊢
    have capped : v.size ≤ 16 := Nat.size_le.mpr (by omega)
    rw [log2_eq (by omega), outcome_bind_ok, outcome_pure, Int.toNat_natCast,
      min_eq_right (by unfold pageMaxOrder; omega), sub_add_cancel]

/-- For more pages the cap of `log2` is no cap of the level. -/
theorem pageLevel_of_ge {size : ℕ} (large : 2 ^ 16 ≤ pagesLessOne size)
    (small : pagesLessOne size < 2 ^ 30) : pageLevel size = .ok 17 := by
  rw [pageLevel]
  change (log2 (pagesLessOne size) >>= fun order => pure (order + 1)) = _
  obtain ⟨v, value⟩ := Int.eq_ofNat_of_zero_le (show 0 ≤ pagesLessOne size by omega)
  rw [value] at large small ⊢
  have digits : 16 < v.size := Nat.lt_size.mpr (by omega)
  rw [log2_eq (by omega), outcome_bind_ok, outcome_pure,
    min_eq_left (by unfold pageMaxOrder; omega)]
  rfl

/-- For `2^30` pages and more `log2` does not end. -/
theorem pageLevel_diverges {size : ℕ} (large : 2 ^ 30 ≤ pagesLessOne size) :
    pageLevel size = .error .outOfFuel := by
  rw [pageLevel]
  change (log2 (pagesLessOne size) >>= fun order => pure (order + 1)) = _
  rw [log2_diverges large, outcome_bind_error]

/-- A request for exactly one block of a level. -/
theorem levelFor_block (l : ℕ) : levelFor (2 ^ l * 0x1000) = l := by
  have positive : 0 < 2 ^ l * 0x1000 := Nat.mul_pos (Nat.two_pow_pos l) (by decide)
  refine le_antisymm (levelFor_le_of_le positive le_rfl) ?_
  have covered := Nat.le_of_mul_le_mul_right (le_of_levelFor (2 ^ l * 0x1000)) (by decide)
  exact (Nat.pow_le_pow_iff_right (by decide)).mp covered

/-- Up to `2^16` pages a request, also one for 0 bytes, has the level of one in range. -/
theorem pageLevel_in_range {size : ℕ} (small : pagesLessOne size < 2 ^ 16) :
    ∃ size', 0 < size' ∧ size' ≤ maxRequest ∧ pageLevel size = pageLevel size' := by
  have level := pageLevel_of_lt small
  have bound : (pagesLessOne size).toNat.size ≤ 16 := Nat.size_le.mpr (by omega)
  generalize (pagesLessOne size).toNat.size = l at level bound
  have positive : 0 < 2 ^ l * 0x1000 := Nat.mul_pos (Nat.two_pow_pos l) (by decide)
  have large : 2 ^ l * 0x1000 ≤ maxRequest :=
    Nat.mul_le_mul_right _ (Nat.pow_le_pow_right (by decide) bound)
  exact ⟨_, positive, large, by rw [level, pageLevel_eq positive large, levelFor_block]⟩

end BareMetal.Buddy
