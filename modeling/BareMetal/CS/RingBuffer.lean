import Mathlib.Data.List.Basic
import Mathlib.Data.Nat.ModEq
import Mathlib.Logic.Function.Basic

/-!
# Ring buffers

A ring buffer has `n` cells and the indices of the next write and of the next read, which
start again at 0 behind the last cell. Its contents are the cells from the one index up to the
other; with equal indices there are none. So at most `n - 1` cells are in use, and a write to
a ring with that many empties it.

## Main results

* `RingBuffer.contents_push`, `RingBuffer.contents_pop` — a ring is a queue
* `RingBuffer.count_push_full` — a write too many empties it
* `RingBuffer.full_iff` — the test for a full ring
-/

namespace BareMetal.CS

variable {α : Type*}

/-- The cells and the two indices. -/
structure RingBuffer (α : Type*) where
  cells : ℕ → α
  widx : ℕ
  ridx : ℕ

namespace RingBuffer

/-- Both indices are those of cells. -/
structure Ok (n : ℕ) (ring : RingBuffer α) : Prop where
  widx_lt : ring.widx < n
  ridx_lt : ring.ridx < n

/-- The index behind. -/
def advance (n i : ℕ) : ℕ := if i + 1 ≥ n then 0 else i + 1

/-- The number of cells in use. -/
def count (n : ℕ) (ring : RingBuffer α) : ℕ := (ring.widx + (n - ring.ridx)) % n

/-- The cells in use, in the order in which they were written. -/
def contents (n : ℕ) (ring : RingBuffer α) : List α :=
  (List.range (ring.count n)).map fun i => ring.cells ((ring.ridx + i) % n)

/-- A write. -/
def push (n : ℕ) (c : α) (ring : RingBuffer α) : RingBuffer α where
  cells := Function.update ring.cells ring.widx c
  widx := advance n ring.widx
  ridx := ring.ridx

/-- A read. -/
def pop (n : ℕ) (ring : RingBuffer α) : RingBuffer α :=
  { ring with ridx := advance n ring.ridx }

theorem advance_lt {n i : ℕ} (lt : i < n) : advance n i < n := by
  unfold advance
  split_ifs <;> omega

variable {n : ℕ} {ring : RingBuffer α}

theorem length_contents : (ring.contents n).length = ring.count n := by
  rw [contents, List.length_map, List.length_range]

namespace Ok

theorem push (ok : ring.Ok n) (c : α) : (ring.push n c).Ok n :=
  ⟨advance_lt ok.widx_lt, ok.ridx_lt⟩

theorem pop (ok : ring.Ok n) : (ring.pop n).Ok n := ⟨ok.widx_lt, advance_lt ok.ridx_lt⟩

/-- The number of cells in use, without the remainder. -/
theorem count_eq (ok : ring.Ok n) : ring.count n =
    if ring.ridx ≤ ring.widx then ring.widx - ring.ridx else ring.widx + n - ring.ridx := by
  have lt := ok.widx_lt
  have lt' := ok.ridx_lt
  unfold count
  split_ifs with ahead
  · rw [show ring.widx + (n - ring.ridx) = ring.widx - ring.ridx + n by omega, Nat.add_mod_right,
      Nat.mod_eq_of_lt (by omega)]
  · rw [Nat.mod_eq_of_lt (by omega)]
    omega

theorem count_lt (ok : ring.Ok n) : ring.count n < n :=
  Nat.mod_lt _ (Nat.zero_lt_of_lt ok.widx_lt)

/-- Equal indices stand for an empty ring. -/
theorem count_eq_zero (ok : ring.Ok n) : ring.count n = 0 ↔ ring.ridx = ring.widx := by
  have lt := ok.widx_lt
  have lt' := ok.ridx_lt
  rw [ok.count_eq]
  split_ifs <;> omega

theorem contents_eq_nil (ok : ring.Ok n) : ring.contents n = [] ↔ ring.ridx = ring.widx := by
  rw [← ok.count_eq_zero, ← length_contents, List.length_eq_zero_iff]

/-- The test for a full ring: the next write would reach the place of the next read. -/
theorem full_iff (ok : ring.Ok n) : (ring.widx + 1) % n = ring.ridx ↔ ring.count n + 1 = n := by
  have lt := ok.widx_lt
  have lt' := ok.ridx_lt
  rw [ok.count_eq]
  rcases Nat.eq_or_lt_of_le (Nat.succ_le_of_lt lt) with last | inner
  · rw [show ring.widx + 1 = n from last, Nat.mod_self]
    split_ifs <;> omega
  · rw [Nat.mod_eq_of_lt inner]
    split_ifs <;> omega

/-- The place of the next write, from the place of the next read on. -/
theorem widx_eq (ok : ring.Ok n) : (ring.ridx + ring.count n) % n = ring.widx := by
  have lt := ok.widx_lt
  have lt' := ok.ridx_lt
  rw [ok.count_eq]
  split_ifs with ahead
  · rw [Nat.add_sub_cancel' ahead, Nat.mod_eq_of_lt lt]
  · rw [show ring.ridx + (ring.widx + n - ring.ridx) = ring.widx + n by omega, Nat.add_mod_right,
      Nat.mod_eq_of_lt lt]

theorem count_push (ok : ring.Ok n) (c : α) (room : ring.count n + 1 < n) :
    (ring.push n c).count n = ring.count n + 1 := by
  have lt := ok.widx_lt
  have lt' := ok.ridx_lt
  rw [ok.count_eq] at room
  rw [(ok.push c).count_eq, ok.count_eq]
  simp only [RingBuffer.push, advance]
  split_ifs at room ⊢ <;> omega

/-- A write to a full ring empties it. -/
theorem count_push_full (ok : ring.Ok n) (c : α) (full : ring.count n + 1 = n) :
    (ring.push n c).count n = 0 := by
  have lt := ok.widx_lt
  rw [(ok.push c).count_eq_zero]
  have here := ok.full_iff.mpr full
  change ring.ridx = advance n ring.widx
  unfold advance
  split_ifs with last
  · rw [← here, show ring.widx + 1 = n by omega, Nat.mod_self]
  · rw [← here, Nat.mod_eq_of_lt (by omega)]

theorem count_pop (ok : ring.Ok n) (filled : ring.ridx ≠ ring.widx) :
    (ring.pop n).count n + 1 = ring.count n := by
  have lt := ok.widx_lt
  have lt' := ok.ridx_lt
  rw [ok.pop.count_eq, ok.count_eq]
  simp only [RingBuffer.pop, advance]
  split_ifs <;> omega

/-- **A write appends**, when there is room. -/
theorem contents_push (ok : ring.Ok n) (c : α) (room : ring.count n + 1 < n) :
    (ring.push n c).contents n = ring.contents n ++ [c] := by
  rw [contents, ok.count_push c room, List.range_succ, List.map_append, List.map_singleton]
  congr 1
  · -- none of the cells in use is the one written to
    refine List.map_congr_left fun i inside => Function.update_of_ne ?_ _ _
    have below : i < ring.count n := List.mem_range.mp inside
    have here := ok.widx_eq
    intro same
    have congruent : Nat.ModEq n (ring.ridx + i) (ring.ridx + ring.count n) :=
      Eq.trans same here.symm
    have equal := (Nat.ModEq.add_left_cancel' _ congruent).eq_of_lt_of_lt
      (below.trans ok.count_lt) ok.count_lt
    exact below.ne equal
  · change [Function.update ring.cells ring.widx c ((ring.ridx + ring.count n) % n)] = [c]
    rw [ok.widx_eq, Function.update_self]

/-- **A read takes the first.** -/
theorem contents_pop (ok : ring.Ok n) (filled : ring.ridx ≠ ring.widx) :
    ring.contents n = ring.cells ring.ridx :: (ring.pop n).contents n := by
  have lt' := ok.ridx_lt
  rw [contents, ← ok.count_pop filled, List.range_succ_eq_map, List.map_cons, List.map_map,
    Nat.add_zero, Nat.mod_eq_of_lt lt']
  congr 1
  refine List.map_congr_left fun i _ => ?_
  change ring.cells ((ring.ridx + (i + 1)) % n) = ring.cells ((advance n ring.ridx + i) % n)
  congr 1
  unfold advance
  split_ifs with last
  · rw [show ring.ridx + (i + 1) = i + n by omega, Nat.add_mod_right, Nat.zero_add]
  · rw [Nat.add_assoc, Nat.add_comm 1 i]

end Ok

end RingBuffer

end BareMetal.CS
