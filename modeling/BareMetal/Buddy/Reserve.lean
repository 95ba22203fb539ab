import BareMetal.Buddy.Boot
import BareMetal.Buddy.Checked
import Mathlib.Order.Interval.Set.LinearOrder

/-!
# Reserving frames

`memory_reserve` takes the frames of an address range out of the free blocks before
any list is filled. It splits the block of the first frame until a block starts there,
takes whole blocks while they end before the last frame, and splits again until a block
ends at the last frame.

The middle loop stops at a block that ends right before the last frame. The splitting
loop after it, meant for a block that holds the last frame, then goes on below level 0.
Whether this happens is decided by the heads after the first loop: the last frame must
not be one of them (`Spares`).

## Main results

* `Partitioned.memoryReserve_returns` — a range that `Spares` allows becomes reserved and
  the table stays partitioned; any other range leaves its last frame in no block
-/

namespace BareMetal.Buddy

open CS Math Math.Block

variable {n h l s e : ℕ} {k : Allocator} {b : Block}

/-! ## The function -/

/-- `PAGE_RESERVED`, the mark of a frame inside a reserved block. -/
def pageReservedMark : ℤ := -3

/-- The conversion `int index = addr/0x1000`. An index that turns negative names no frame. -/
def frameIndex (addr : ℕ) : Outcome ℕ :=
  let index := toInt32 (addr / 0x1000 : ℕ)
  if index < 0 then .error .outOfBounds else .ok index.toNat

/-- `while ((frame+head)->index == -1) head--;`. Before frame 0 the array ends. -/
def findHead (k : Allocator) : ℕ → Outcome ℕ
  | 0 => if (k.frame 0).index = -1 then .error .outOfBounds else .ok 0
  | head + 1 => if (k.frame (head + 1)).index = -1 then findHead k head else .ok (head + 1)

/-- The block at `head` becomes its two halves. -/
def halve (head : ℕ) (k : Allocator) : Allocator :=
  let k := k.setIndex head ((k.frame head).index - 1)
  let k := k.setStatus head 0
  let upper := head + power2 (k.frame head).index
  let k := k.setIndex upper (k.frame head).index
  k.setStatus upper 0

/-- The block at `head` is reserved. -/
def reserveBlock (head : ℕ) (k : Allocator) : Allocator :=
  let k := k.setStatus head 1
  k.markFrames head pageReservedMark (power2 (k.frame head).index - 1)

/-- `while(head != start_index)`: splits until a block starts at `startIndex`. -/
def splitLeft (startIndex : ℕ) : ℕ → ℕ → Allocator → Outcome (ℕ × Allocator)
  | 0, _, _ => .error .outOfFuel
  | fuel + 1, head, k =>
    if head ≠ startIndex then
      let k := halve head k
      let head := head + power2 (k.frame head).index
      if head > startIndex then
        splitLeft startIndex fuel (head - power2 (k.frame head).index) k
      else splitLeft startIndex fuel head k
    else .ok (head, k)

/-- `while(head+power2((frame+head)->index) < end_index)`: takes whole blocks. -/
def takeMiddle (endIndex : ℕ) : ℕ → ℕ → Allocator → Outcome (ℕ × Allocator)
  | 0, _, _ => .error .outOfFuel
  | fuel + 1, head, k =>
    if head + power2 (k.frame head).index < endIndex then
      let k := reserveBlock head k
      takeMiddle endIndex fuel (head + power2 (k.frame head).index) k
    else .ok (head, k)

/-- `while(head+power2((frame+head)->index)-1 != end_index)`: splits until a block ends at
`endIndex`, taking the lower halves that lie before it. -/
def splitRight (endIndex : ℕ) : ℕ → ℕ → Allocator → Outcome (ℕ × Allocator)
  | 0, _, _ => .error .outOfFuel
  | fuel + 1, head, k =>
    if head + power2 (k.frame head).index - 1 ≠ endIndex then
      let k := halve head k
      if endIndex ≥ head + power2 (k.frame head).index then
        let k := reserveBlock head k
        splitRight endIndex fuel (head + power2 (k.frame head).index) k
      else splitRight endIndex fuel head k
    else .ok (head, k)

/-- `memory_reserve`. -/
def memoryReserve (fuel start stop : ℕ) (k : Allocator) : Outcome Allocator := do
  let startIndex ← frameIndex start
  let endIndex ← frameIndex stop
  let head ← findHead k startIndex
  let (head, k) ← splitLeft startIndex fuel head k
  let (head, k) ← takeMiddle endIndex fuel head k
  let (head, k) ← splitRight endIndex fuel head k
  return reserveBlock head k

/-! ## Larger bounds -/

theorem splitLeft_mono (startIndex head : ℕ) (k : Allocator) :
    FuelMonotone fun fuel => splitLeft startIndex fuel head k := by
  intro fuel r returns
  induction fuel generalizing head k with
  | zero => simp [splitLeft] at returns
  | succ fuel ih =>
    dsimp only at returns ih ⊢
    rw [splitLeft] at returns ⊢
    by_cases apart : head ≠ startIndex
    · rw [if_pos apart] at returns ⊢
      dsimp only at returns ⊢
      by_cases past : head + power2 ((halve head k).frame head).index > startIndex
      · rw [if_pos past] at returns ⊢
        exact ih _ _ returns
      · rw [if_neg past] at returns ⊢
        exact ih _ _ returns
    · rw [if_neg apart] at returns ⊢
      exact returns

theorem takeMiddle_mono (endIndex head : ℕ) (k : Allocator) :
    FuelMonotone fun fuel => takeMiddle endIndex fuel head k := by
  intro fuel r returns
  induction fuel generalizing head k with
  | zero => simp [takeMiddle] at returns
  | succ fuel ih =>
    dsimp only at returns ih ⊢
    rw [takeMiddle] at returns ⊢
    by_cases whole : head + power2 (k.frame head).index < endIndex
    · rw [if_pos whole] at returns ⊢
      exact ih _ _ returns
    · rw [if_neg whole] at returns ⊢
      exact returns

theorem splitRight_mono (endIndex head : ℕ) (k : Allocator) :
    FuelMonotone fun fuel => splitRight endIndex fuel head k := by
  intro fuel r returns
  induction fuel generalizing head k with
  | zero => simp [splitRight] at returns
  | succ fuel ih =>
    dsimp only at returns ih ⊢
    rw [splitRight] at returns ⊢
    by_cases apart : head + power2 (k.frame head).index - 1 ≠ endIndex
    · rw [if_pos apart] at returns ⊢
      dsimp only at returns ⊢
      by_cases below : endIndex ≥ head + power2 ((halve head k).frame head).index
      · rw [if_pos below] at returns ⊢
        exact ih _ _ returns
      · rw [if_neg below] at returns ⊢
        exact ih _ _ returns
    · rw [if_neg apart] at returns ⊢
      exact returns

theorem memoryReserve_mono (start stop : ℕ) (k : Allocator) :
    FuelMonotone fun fuel => memoryReserve fuel start stop k :=
  (fuelMonotone_const _).bind fun _ => (fuelMonotone_const _).bind fun endIndex =>
    (fuelMonotone_const _).bind fun head => (splitLeft_mono _ head k).bind fun left =>
      (takeMiddle_mono endIndex left.1 left.2).bind fun middle =>
        (splitRight_mono endIndex middle.1 middle.2).bind fun _ => fuelMonotone_const _

/-! ## The lists stay -/

theorem halve_pageList (head : ℕ) (k : Allocator) : (halve head k).pageList = k.pageList := by
  simp only [halve, Allocator.setStatus_pageList, Allocator.setIndex_pageList]

theorem reserveBlock_pageList (head : ℕ) (k : Allocator) :
    (reserveBlock head k).pageList = k.pageList := by
  simp only [reserveBlock, Allocator.markFrames_pageList, Allocator.setStatus_pageList]

theorem splitLeft_pageList {fuel startIndex head : ℕ} {k : Allocator} {r : ℕ × Allocator}
    (run : splitLeft startIndex fuel head k = .ok r) : r.2.pageList = k.pageList := by
  induction fuel generalizing head k with
  | zero => simp [splitLeft] at run
  | succ fuel ih =>
    rw [splitLeft] at run
    dsimp only at run
    split_ifs at run
    · rw [ih run, halve_pageList]
    · rw [ih run, halve_pageList]
    · rw [← Except.ok.inj run]

theorem takeMiddle_pageList {fuel endIndex head : ℕ} {k : Allocator} {r : ℕ × Allocator}
    (run : takeMiddle endIndex fuel head k = .ok r) : r.2.pageList = k.pageList := by
  induction fuel generalizing head k with
  | zero => simp [takeMiddle] at run
  | succ fuel ih =>
    rw [takeMiddle] at run
    split_ifs at run
    · rw [ih run, reserveBlock_pageList]
    · rw [← Except.ok.inj run]

theorem splitRight_pageList {fuel endIndex head : ℕ} {k : Allocator} {r : ℕ × Allocator}
    (run : splitRight endIndex fuel head k = .ok r) : r.2.pageList = k.pageList := by
  induction fuel generalizing head k with
  | zero => simp [splitRight] at run
  | succ fuel ih =>
    rw [splitRight] at run
    dsimp only at run
    split_ifs at run
    · rw [ih run, reserveBlock_pageList, halve_pageList]
    · rw [ih run, halve_pageList]
    · rw [← Except.ok.inj run]

theorem memoryReserve_pageList {fuel start stop : ℕ} {k k' : Allocator}
    (run : memoryReserve fuel start stop k = .ok k') : k'.pageList = k.pageList := by
  obtain ⟨_, -, run⟩ := outcome_bind_eq_ok.mp run
  obtain ⟨_, -, run⟩ := outcome_bind_eq_ok.mp run
  obtain ⟨_, -, run⟩ := outcome_bind_eq_ok.mp run
  obtain ⟨_, left, run⟩ := outcome_bind_eq_ok.mp run
  obtain ⟨_, middle, run⟩ := outcome_bind_eq_ok.mp run
  obtain ⟨_, right, run⟩ := outcome_bind_eq_ok.mp run
  rw [← Except.ok.inj run, reserveBlock_pageList, splitRight_pageList right,
    takeMiddle_pageList middle, splitLeft_pageList left]

/-! ## Partitioned tables -/

/-- The first `n` frames are partitioned into blocks, and inside a free block every frame
but the head carries the mark of free frames. Nothing is said of what lies past them. -/
structure Partitioned (n : ℕ) (k : Allocator) : Prop where
  table : Table n (clip n k).frame
  marked : ∀ b ∈ freeBlocks n k.frame, ∀ i ∈ b.cells, i ≠ b.head →
    (k.frame i).index = pageFreeMark

namespace Partitioned

theorem family (part : Partitioned n k) : Decomposition 16 (blocks n k.frame) :=
  blocks_clip n k ▸ part.table.family

theorem covers (part : Partitioned n k) : covered (blocks n k.frame) = Set.Iio n :=
  blocks_clip n k ▸ part.table.covers

theorem fits (part : Partitioned n k) (mem : b ∈ blocks n k.frame) :
    b.head + 2 ^ b.level ≤ n :=
  part.table.fits (by rwa [blocks_clip])

theorem free_or_used (part : Partitioned n k) (mem : b ∈ blocks n k.frame) :
    b ∈ freeBlocks n k.frame ∨ b ∈ usedBlocks n k.frame := by
  have either : b ∈ freeBlocks n (clip n k).frame ∨ b ∈ usedBlocks n (clip n k).frame :=
    part.table.free_or_used (by rwa [blocks_clip])
  rwa [freeBlocks_clip, usedBlocks_clip] at either

/-- The frames in free blocks are those of the table outside the used blocks. -/
theorem covered_free (part : Partitioned n k) :
    covered (freeBlocks n k.frame) = Set.Iio n \ covered (usedBlocks n k.frame) := by
  rw [← freeBlocks_clip, ← usedBlocks_clip]
  exact part.table.covered_free

/-- A frame inside a block, its head apart, heads no block. -/
theorem inner_neg (part : Partitioned n k) {x : ℕ} (mem : b ∈ blocks n k.frame)
    (inb : x ∈ b.cells) (inner : x ≠ b.head) : (k.frame x).index < 0 := by
  have mem' : b ∈ blocks n ((clip n k).frame) := by rwa [blocks_clip]
  have neg := part.table.inner_neg mem' inb inner
  rwa [clip_frame (part.table.lt_of_mem mem' inb)] at neg

/-- Where a block ends, the next one starts. -/
theorem next_head (part : Partitioned n k) (mem : ⟨h, l⟩ ∈ blocks n k.frame)
    (more : h + 2 ^ l < n) : ∃ m, ⟨h + 2 ^ l, m⟩ ∈ blocks n k.frame := by
  have inside : h + 2 ^ l ∈ covered (blocks n k.frame) := by
    rw [part.covers]
    exact more
  obtain ⟨⟨i, m⟩, mem', ini⟩ := inside
  rw [mem_cells] at ini
  simp only at ini
  have positive := Nat.two_pow_pos l
  refine ⟨m, ?_⟩
  rcases eq_or_lt_of_le ini.1 with same | before
  · exact same ▸ mem'
  · -- a block that began before would meet the one that ends here
    have same : (⟨i, m⟩ : Block) = ⟨h, l⟩ :=
      part.family.disjoint _ mem' _ mem (h + 2 ^ l - 1) ⟨by simp only; omega, by simp only; omega⟩
        ⟨by simp only; omega, by simp only; omega⟩
    simp only [Block.mk.injEq] at same
    obtain ⟨rfl, rfl⟩ := same
    omega

end Partitioned

/-! ## Splitting and taking a block -/

theorem halve_index (head i : ℕ) (k : Allocator) : ((halve head k).frame i).index =
    if i = head ∨ i = head + 2 ^ ((k.frame head).index - 1).toNat then (k.frame head).index - 1
    else (k.frame i).index := by
  simp only [halve, Allocator.setStatus_index, Allocator.setIndex_index, if_true, power2_eq]
  split_ifs <;> first | rfl | omega

theorem halve_status (head i : ℕ) (k : Allocator) : ((halve head k).frame i).status =
    if i = head ∨ i = head + 2 ^ ((k.frame head).index - 1).toNat then 0
    else (k.frame i).status := by
  simp only [halve, Allocator.setStatus_index, Allocator.setIndex_index, if_true, power2_eq,
    Allocator.setStatus_status, Allocator.setIndex_status]
  split_ifs <;> first | rfl | omega

theorem reserveBlock_index (head i : ℕ) (k : Allocator) : ((reserveBlock head k).frame i).index =
    if head < i ∧ i ≤ head + (2 ^ (k.frame head).index.toNat - 1) then pageReservedMark
    else (k.frame i).index := by
  simp only [reserveBlock, Allocator.markFrames_index, Allocator.setStatus_index, power2_eq]

theorem reserveBlock_status (head i : ℕ) (k : Allocator) :
    ((reserveBlock head k).frame i).status = if i = head then 1 else (k.frame i).status := by
  rw [reserveBlock, Allocator.markFrames_status, Allocator.setStatus_status]

/-- `halve` splits a free block. -/
theorem Partitioned.halve_free (part : Partitioned n k)
    (mem : ⟨h, l + 1⟩ ∈ freeBlocks n k.frame) :
    Partitioned n (halve h k) ∧
      freeBlocks n (halve h k).frame = splitAt (freeBlocks n k.frame) h l ∧
      usedBlocks n (halve h k).frame = usedBlocks n k.frame ∧
      ∀ i, ((halve h k).frame i).index =
        if i = h ∨ i = h + 2 ^ l then (l : ℤ) else (k.frame i).index := by
  have level : (k.frame h).index - 1 = (l : ℤ) := by
    have := mem.1.2
    simp only at this
    omega
  have index : ∀ i, ((halve h k).frame i).index =
      if i = h ∨ i = h + 2 ^ l then (l : ℤ) else (k.frame i).index := fun i => by
    rw [halve_index, level, Int.toNat_natCast]
  have fits := part.fits mem.1
  have positive := Nat.two_pow_pos l
  have doubled : 2 ^ (l + 1) = 2 ^ l + 2 ^ l := by ring
  simp only at fits
  have upper_in : h + 2 ^ l ∈ (⟨h, l + 1⟩ : Block).cells := ⟨by simp, by simp only; omega⟩
  have upper_neg := part.inner_neg mem.1 upper_in (by simp)
  -- no frame of the table changes its status
  have status : ∀ i, i < n → ((halve h k).frame i).status = (k.frame i).status := by
    intro i inside
    rw [halve_status, level, Int.toNat_natCast]
    split_ifs with touched
    · rcases touched with rfl | rfl
      · exact mem.2.symm
      · have zero := part.table.status_of_neg inside (by rwa [clip_frame inside])
        rw [clip_frame inside] at zero
        exact zero.symm
    · rfl
  -- the table is that of the clipped frames
  have mem' : ⟨h, l + 1⟩ ∈ freeBlocks n (clip n k).frame := by rwa [freeBlocks_clip]
  have levels : ∀ i, ((clip n (halve h k)).frame i).index =
      if i = h ∨ i = h + 2 ^ l then (l : ℤ) else ((clip n k).frame i).index := by
    intro i
    by_cases inside : i < n
    · rw [clip_frame inside, clip_frame inside, index]
    · rw [if_neg (by omega)]
      rw [clip_frame_past (not_lt.mp inside), clip_frame_past (not_lt.mp inside)]
  have statuses : ∀ i, ((clip n (halve h k)).frame i).status =
      ((clip n k).frame i).status := by
    intro i
    by_cases inside : i < n
    · rw [clip_frame inside, clip_frame inside, status i inside]
    · rw [clip_frame_past (not_lt.mp inside), clip_frame_past (not_lt.mp inside)]
  obtain ⟨table, free, used⟩ := part.table.split mem' levels statuses
  rw [freeBlocks_clip, freeBlocks_clip] at free
  rw [usedBlocks_clip, usedBlocks_clip] at used
  refine ⟨⟨table, fun c hc i inc inner => ?_⟩, free, used, index⟩
  rw [free] at hc
  rcases hc with old | half
  · -- the frames of another block were not touched
    have untouched : ¬ (i = h ∨ i = h + 2 ^ l) := by
      rintro touched
      refine old.2 (part.family.disjoint c old.1.1 _ mem.1 i inc ?_)
      rcases touched with rfl | rfl
      · exact head_mem_cells _
      · exact upper_in
    rw [index, if_neg untouched]
    exact part.marked c old.1 i inc inner
  · -- the inner frames of a half are inner frames of the block
    have whole : i ∈ (⟨h, l + 1⟩ : Block).cells := by
      rw [cells_halves]
      rcases half with rfl | rfl
      · exact .inl inc
      · exact .inr inc
    have untouched : ¬ (i = h ∨ i = h + 2 ^ l) := by
      rw [mem_cells] at inc
      rcases half with rfl | rfl
      · simp only [lower] at inc inner
        omega
      · simp only [upper] at inc inner
        omega
    rw [index, if_neg untouched]
    exact part.marked _ mem i whole fun same => untouched (.inl same)

/-- `reserveBlock` takes a free block. -/
theorem Partitioned.reserve_free (part : Partitioned n k)
    (mem : ⟨h, l⟩ ∈ freeBlocks n k.frame) :
    Partitioned n (reserveBlock h k) ∧
      freeBlocks n (reserveBlock h k).frame = freeBlocks n k.frame \ {⟨h, l⟩} ∧
      usedBlocks n (reserveBlock h k).frame = insert ⟨h, l⟩ (usedBlocks n k.frame) ∧
      ∀ i, i ∉ (⟨h, l⟩ : Block).cells ∨ i = h →
        ((reserveBlock h k).frame i).index = (k.frame i).index := by
  have level : (k.frame h).index = (l : ℤ) := mem.1.2
  have fits := part.fits mem.1
  have positive := Nat.two_pow_pos l
  simp only at fits
  have index : ∀ i, ((reserveBlock h k).frame i).index =
      if h < i ∧ i < h + 2 ^ l then pageReservedMark else (k.frame i).index := fun i => by
    rw [reserveBlock_index, level, Int.toNat_natCast]
    split_ifs <;> first | rfl | omega
  -- the inner frames get another mark, and are negative before and afterwards
  have marks : ∀ i, ((clip n (reserveBlock h k)).frame i).index =
      ((clip n k).frame i).index ∨
        i < n ∧ ((clip n (reserveBlock h k)).frame i).index < 0 ∧
          ((clip n k).frame i).index < 0 := by
    intro i
    by_cases inside : i < n
    · rw [clip_frame inside, clip_frame inside, index]
      split_ifs with inner
      · refine .inr ⟨inside, by decide, ?_⟩
        exact part.inner_neg mem.1 ⟨by simp only; omega, by simp only; omega⟩ (by simp only; omega)
      · exact .inl rfl
    · left
      rw [clip_frame_past (not_lt.mp inside), clip_frame_past (not_lt.mp inside)]
  -- the table is that of the clipped frames
  have mem' : ⟨h, l⟩ ∈ freeBlocks n (clip n k).frame := by rwa [freeBlocks_clip]
  have statuses : ∀ i, ((clip n (reserveBlock h k)).frame i).status =
      if i = h then 1 else ((clip n k).frame i).status := by
    intro i
    by_cases inside : i < n
    · rw [clip_frame inside, clip_frame inside, reserveBlock_status]
    · rw [if_neg (by omega)]
      rw [clip_frame_past (not_lt.mp inside), clip_frame_past (not_lt.mp inside)]
  obtain ⟨table, free, used⟩ := part.table.take mem' marks statuses
  rw [freeBlocks_clip, freeBlocks_clip] at free
  rw [usedBlocks_clip, usedBlocks_clip] at used
  have other : ∀ i, i ∉ (⟨h, l⟩ : Block).cells ∨ i = h →
      ((reserveBlock h k).frame i).index = (k.frame i).index := by
    intro i outside
    rw [index, if_neg]
    rintro ⟨low, high⟩
    rcases outside with outside | rfl
    · exact outside ⟨low.le, high⟩
    · omega
  refine ⟨⟨table, fun c hc i inc inner => ?_⟩, free, used, other⟩
  rw [free] at hc
  rw [other i (.inl fun inside => hc.2 (part.family.disjoint c hc.1.1 _ mem.1 i inc inside))]
  exact part.marked c hc.1 i inc inner

/-! ## The loops -/

/-- The search goes down to the head of the free block. -/
theorem Partitioned.findHead_eq (part : Partitioned n k) (mem : b ∈ freeBlocks n k.frame)
    (inb : s ∈ b.cells) : findHead k s = .ok b.head := by
  have level : (k.frame b.head).index = (b.level : ℤ) := mem.1.2
  induction s with
  | zero =>
    have head : b.head = 0 := Nat.le_zero.mp inb.1
    rw [head] at level
    rw [findHead, if_neg (by omega), head]
  | succ s ih =>
    by_cases head : s + 1 = b.head
    · rw [← head] at level
      rw [findHead, if_neg (by omega), head]
    · have marked : (k.frame (s + 1)).index = -1 := part.marked b mem _ inb head
      rw [findHead, if_pos marked]
      rw [mem_cells] at inb ih
      exact ih (by omega)

/-- Every aligned block that ends before `e` starts from `s` on. -/
def EndsWithin (s e : ℕ) : Prop := ∀ j, 2 ^ j ∣ e → s + 2 ^ j ≤ e

theorem endsWithin_of_odd (odd : e % 2 = 1) (behind : s < e) : EndsWithin s e := by
  intro j ends
  cases j with
  | zero => exact behind
  | succ j =>
    have even : 2 ∣ e := (dvd_pow_self 2 j.succ_ne_zero).trans ends
    omega

/-- The first loop stops at a block that starts at `s`. -/
private theorem Partitioned.splitLeft_here (part : Partitioned n k)
    (mem : ⟨s, l⟩ ∈ freeBlocks n k.frame) (fuel : ℕ) :
    splitLeft s (fuel + 1) s k = .ok (s, k) ∧
      ∀ e, s < e → (0 ≤ (k.frame e).index ↔
        0 ≤ (k.frame e).index ∨ e ∈ (⟨s, l⟩ : Block).cells ∧ ¬ EndsWithin s e) := by
  refine ⟨by rw [splitLeft, if_neg (by simp)], fun e behind => ⟨.inl, ?_⟩⟩
  rintro (old | ⟨ine, reaches⟩)
  · exact old
  · exact absurd (fun j ends =>
      (part.family.aligned _ mem.1).head_add_le ine (by simp only; omega) ends) reaches

/-- The first loop splits the block of `s` until a block starts there. Among the new heads
behind `s` are those before which an aligned block ends that reaches below `s`. -/
theorem Partitioned.splitLeft_ok (part : Partitioned n k)
    (mem : ⟨h, l⟩ ∈ freeBlocks n k.frame) (inb : s ∈ (⟨h, l⟩ : Block).cells) {fuel : ℕ}
    (enough : l < fuel) :
    ∃ l' k', splitLeft s fuel h k = .ok (s, k') ∧ Partitioned n k' ∧
      ⟨s, l'⟩ ∈ freeBlocks n k'.frame ∧ usedBlocks n k'.frame = usedBlocks n k.frame ∧
      ∀ e, s < e → (0 ≤ (k'.frame e).index ↔
        0 ≤ (k.frame e).index ∨ e ∈ (⟨h, l⟩ : Block).cells ∧ ¬ EndsWithin s e) := by
  obtain ⟨fuel, rfl⟩ : ∃ m, fuel = m + 1 := ⟨fuel - 1, by omega⟩
  have bounds := inb
  rw [mem_cells] at bounds
  simp only at bounds
  induction l generalizing h k fuel with
  | zero =>
    obtain rfl : h = s := by omega
    obtain ⟨run, heads⟩ := part.splitLeft_here mem fuel
    exact ⟨0, k, run, part, mem, rfl, heads⟩
  | succ l ih =>
    by_cases stop : h = s
    · subst stop
      obtain ⟨run, heads⟩ := part.splitLeft_here mem fuel
      exact ⟨l + 1, k, run, part, mem, rfl, heads⟩
    have aligned := part.family.aligned _ mem.1
    obtain ⟨part', free', used', index'⟩ := part.halve_free mem
    have positive := Nat.two_pow_pos l
    have doubled : 2 ^ (l + 1) = 2 ^ l + 2 ^ l := by ring
    have level : ((halve h k).frame h).index = (l : ℤ) := by rw [index', if_pos (.inl rfl)]
    have level' : ((halve h k).frame (h + 2 ^ l)).index = (l : ℤ) := by
      rw [index', if_pos (.inr rfl)]
    have heads : ∀ e, s < e → (0 ≤ ((halve h k).frame e).index ↔
        0 ≤ (k.frame e).index ∨ e = h + 2 ^ l) := by
      intro e behind
      rw [index']
      split_ifs with touched
      · exact iff_of_true (by omega) (.inr (by omega))
      · exact ⟨.inl, fun old => by omega⟩
    obtain ⟨fuel, rfl⟩ : ∃ m, fuel = m + 1 := ⟨fuel - 1, by omega⟩
    -- the loop goes on with the half that holds `s`
    by_cases below : s < h + 2 ^ l
    · have half : ⟨h, l⟩ ∈ freeBlocks n (halve h k).frame := by
        rw [free']
        exact .inr (.inl rfl)
      obtain ⟨l', k', run, part'', mem', used'', heads'⟩ :=
        ih part' half ⟨by simp only; omega, by simp only; omega⟩ fuel (by omega) (by omega)
      refine ⟨l', k', ?_, part'', mem', used''.trans used', fun e behind => ?_⟩
      · rw [splitLeft, if_pos stop]
        simp only [level, power2_eq, Int.toNat_natCast, level']
        rw [if_pos (by omega), Nat.add_sub_cancel]
        exact run
      · rw [heads' e behind, heads e behind, cells_halves]
        have middle : e = h + 2 ^ l → ¬ EndsWithin s e := by
          rintro rfl ends
          have := ends l (Nat.dvd_add (aligned_lower aligned) dvd_rfl)
          omega
        have upper : e ∈ (upper h l).cells → e ≠ h + 2 ^ l → EndsWithin s e := by
          intro ine inner j ends
          have := (aligned_upper aligned).head_add_le ine inner ends
          simp only [Block.upper] at this
          omega
        have upper_head : h + 2 ^ l ∈ (Block.upper h l).cells := head_mem_cells (Block.upper h l)
        constructor
        · rintro ((old | rfl) | ⟨ine, reaches⟩)
          · exact .inl old
          · exact .inr ⟨.inr upper_head, middle rfl⟩
          · exact .inr ⟨.inl ine, reaches⟩
        · rintro (old | ⟨ine | ine, reaches⟩)
          · exact .inl (.inl old)
          · exact .inr ⟨ine, reaches⟩
          · exact .inl (.inr (by_contra fun inner => reaches (upper ine inner)))
    · have half : ⟨h + 2 ^ l, l⟩ ∈ freeBlocks n (halve h k).frame := by
        rw [free']
        exact .inr (.inr rfl)
      obtain ⟨l', k', run, part'', mem', used'', heads'⟩ :=
        ih part' half ⟨by simp only; omega, by simp only; omega⟩ fuel (by omega) (by omega)
      refine ⟨l', k', ?_, part'', mem', used''.trans used', fun e behind => ?_⟩
      · rw [splitLeft, if_pos stop]
        simp only [level, power2_eq, Int.toNat_natCast, level']
        rw [if_neg (by omega)]
        exact run
      · rw [heads' e behind, heads e behind, cells_halves]
        have after : e ≠ h + 2 ^ l := by omega
        have not_lower : e ∉ (lower h l).cells := by
          intro ine
          rw [mem_cells] at ine
          simp only [lower] at ine
          omega
        simp only [after, or_false, Set.mem_union, not_lower, false_or, upper]

/-- Behind a free block a frame that is free heads a free block. -/
theorem Partitioned.next_free (part : Partitioned n k) (mem : ⟨h, l⟩ ∈ freeBlocks n k.frame)
    (free : h + 2 ^ l ∈ covered (freeBlocks n k.frame)) :
    ∃ m, ⟨h + 2 ^ l, m⟩ ∈ freeBlocks n k.frame := by
  obtain ⟨b, hb, inb⟩ := free
  have inside : h + 2 ^ l ∈ covered (blocks n k.frame) := ⟨b, hb.1, inb⟩
  rw [part.covers] at inside
  obtain ⟨m, next⟩ := part.next_head mem.1 inside
  have same := part.family.disjoint _ hb.1 _ next (h + 2 ^ l) inb (head_mem_cells _)
  exact ⟨m, same ▸ hb⟩

/-- The second loop takes blocks up to the one that reaches `e`, or ends right before it. -/
theorem Partitioned.takeMiddle_ok (part : Partitioned n k)
    (mem : ⟨h, l⟩ ∈ freeBlocks n k.frame) (low : h ≤ e)
    (free : ∀ x, h ≤ x → x ≤ e → x ∈ covered (freeBlocks n k.frame)) {fuel : ℕ}
    (enough : e < h + fuel) :
    ∃ h' l' k', takeMiddle e fuel h k = .ok (h', k') ∧ Partitioned n k' ∧
      ⟨h', l'⟩ ∈ freeBlocks n k'.frame ∧ h ≤ h' ∧ (h < e → h' < e) ∧ h' ≤ e ∧ e ≤ h' + 2 ^ l' ∧
      covered (usedBlocks n k'.frame) = covered (usedBlocks n k.frame) ∪ Set.Ico h h' ∧
      (k'.frame e).index = (k.frame e).index := by
  induction fuel generalizing h l k with
  | zero => omega
  | succ fuel ih =>
    have level : (k.frame h).index = (l : ℤ) := mem.1.2
    have positive := Nat.two_pow_pos l
    rw [takeMiddle]
    simp only [level, power2_eq, Int.toNat_natCast]
    by_cases whole : h + 2 ^ l < e
    · -- the block ends before `e` and is taken; the next head is that of a free block
      obtain ⟨part', free', used', index'⟩ := part.reserve_free mem
      have level' : ((reserveBlock h k).frame h).index = (l : ℤ) := by
        rw [index' h (.inr rfl), level]
      obtain ⟨m, next⟩ := part.next_free mem (free _ (by omega) whole.le)
      have next' : ⟨h + 2 ^ l, m⟩ ∈ freeBlocks n (reserveBlock h k).frame := by
        rw [free']
        refine ⟨next, fun same => ?_⟩
        have := congrArg Block.head same
        simp only at this
        omega
      have rest : ∀ x, h + 2 ^ l ≤ x → x ≤ e →
          x ∈ covered (freeBlocks n (reserveBlock h k).frame) := by
        intro x past high
        obtain ⟨b, hb, inb⟩ := free x (by omega) high
        refine ⟨b, ?_, inb⟩
        rw [free']
        refine ⟨hb, ?_⟩
        rintro rfl
        exact absurd inb.2 (not_lt.mpr past)
      obtain ⟨h', l', k', run, part'', mem', low', before, high, reach, used'', index''⟩ :=
        ih part' next' whole.le rest (by omega)
      refine ⟨h', l', k', ?_, part'', mem', by omega, fun _ => before whole, high, reach, ?_, ?_⟩
      · rw [if_pos whole, level', Int.toNat_natCast]
        exact run
      · rw [used'', used', covered_insert, cells, Set.union_comm (Set.Ico _ _), Set.union_assoc,
          Set.Ico_union_Ico_eq_Ico (by simp) low']
      · rw [index'', index' e (.inl fun ine => absurd ine.2 (by simp only; omega))]
    · -- the block reaches `e`
      exact ⟨h, l, k, by rw [if_neg whole], part, mem, le_rfl, id, low, by omega, by simp, rfl⟩

/-- The last loop splits the block of `e` until a block ends there, and takes the lower
halves before it. -/
theorem Partitioned.splitRight_ok (part : Partitioned n k)
    (mem : ⟨h, l⟩ ∈ freeBlocks n k.frame) (ine : e ∈ (⟨h, l⟩ : Block).cells) {fuel : ℕ}
    (enough : l < fuel) :
    ∃ h' l' k', splitRight e fuel h k = .ok (h', k') ∧ Partitioned n k' ∧
      ⟨h', l'⟩ ∈ freeBlocks n k'.frame ∧ h ≤ h' ∧ h' + 2 ^ l' = e + 1 ∧
      covered (usedBlocks n k'.frame) = covered (usedBlocks n k.frame) ∪ Set.Ico h h' := by
  rw [mem_cells] at ine
  simp only at ine
  obtain ⟨fuel, rfl⟩ : ∃ m, fuel = m + 1 := ⟨fuel - 1, by omega⟩
  have level : (k.frame h).index = (l : ℤ) := mem.1.2
  induction l generalizing h k fuel with
  | zero =>
    refine ⟨h, 0, k, ?_, part, mem, le_rfl, by omega, by simp⟩
    rw [splitRight, level]
    simp only [power2_eq, Int.toNat_natCast]
    rw [if_neg (by omega)]
  | succ l ih =>
    have positive := Nat.two_pow_pos l
    have doubled : 2 ^ (l + 1) = 2 ^ l + 2 ^ l := by ring
    rw [splitRight, level]
    simp only [power2_eq, Int.toNat_natCast]
    -- a block that ends at `e` ends the loop
    by_cases stop : h + 2 ^ (l + 1) - 1 = e
    · exact ⟨h, l + 1, k, by rw [if_neg (by omega)], part, mem, le_rfl, by omega, by simp⟩
    rw [if_pos stop]
    obtain ⟨part', free', used', index'⟩ := part.halve_free mem
    have low : ((halve h k).frame h).index = (l : ℤ) := by rw [index', if_pos (.inl rfl)]
    have high : ((halve h k).frame (h + 2 ^ l)).index = (l : ℤ) := by
      rw [index', if_pos (.inr rfl)]
    have lower_free : ⟨h, l⟩ ∈ freeBlocks n (halve h k).frame := by
      rw [free']
      exact .inr (.inl rfl)
    have upper_free : ⟨h + 2 ^ l, l⟩ ∈ freeBlocks n (halve h k).frame := by
      rw [free']
      exact .inr (.inr rfl)
    obtain ⟨fuel, rfl⟩ : ∃ m, fuel = m + 1 := ⟨fuel - 1, by omega⟩
    simp only [low, Int.toNat_natCast]
    by_cases above : e ≥ h + 2 ^ l
    · -- the lower half lies before `e`
      obtain ⟨part'', free'', used'', index''⟩ := part'.reserve_free lower_free
      have low' : ((reserveBlock h (halve h k)).frame h).index = (l : ℤ) := by
        rw [index'' h (.inr rfl), low]
      have high' : ((reserveBlock h (halve h k)).frame (h + 2 ^ l)).index = (l : ℤ) := by
        rw [index'' _ (.inl fun inside => absurd inside.2 (by simp)), high]
      have rest : ⟨h + 2 ^ l, l⟩ ∈ freeBlocks n (reserveBlock h (halve h k)).frame := by
        rw [free'']
        refine ⟨upper_free, fun same => ?_⟩
        have := congrArg Block.head same
        simp only at this
        omega
      obtain ⟨h', l', k', run, part₃, mem', low₃, reach, used₃⟩ :=
        ih part'' rest (by omega) fuel (by omega) high'
      refine ⟨h', l', k', ?_, part₃, mem', by omega, reach, ?_⟩
      · rw [if_pos above, low', Int.toNat_natCast]
        exact run
      · rw [used₃, used'', used', covered_insert, cells, Set.union_comm (Set.Ico _ _),
          Set.union_assoc, Set.Ico_union_Ico_eq_Ico (by simp) low₃]
    · obtain ⟨h', l', k', run, part₃, mem', low₃, reach, used₃⟩ :=
        ih part' lower_free (by omega) fuel (by omega) low
      refine ⟨h', l', k', ?_, part₃, mem', low₃, reach, ?_⟩
      · rw [if_neg above]
        exact run
      · rw [used₃, used']

/-- Where a block ends right before `e`, the last loop takes it down below level 0 and
leaves `e` in no block. -/
theorem Partitioned.splitRight_spoils (part : Partitioned n k)
    (mem : ⟨h, l⟩ ∈ freeBlocks n k.frame) (ends : h + 2 ^ l = e) (inside : e < n) {fuel : ℕ}
    (enough : l + 1 < fuel) :
    ∃ k', splitRight e fuel h k = .ok (e, k') ∧ (k'.frame e).index = -1 ∧
      e ∉ covered (blocks n k'.frame) := by
  obtain ⟨fuel, rfl⟩ : ∃ m, fuel = m + 2 := ⟨fuel - 2, by omega⟩
  have level : (k.frame h).index = (l : ℤ) := mem.1.2
  have apart : h + 2 ^ l - 1 ≠ e := by
    have := Nat.two_pow_pos l
    omega
  rw [splitRight, level]
  simp only [power2_eq, Int.toNat_natCast]
  rw [if_pos apart]
  clear apart
  -- down to level 0 the halves are as they should be; the next round halves a single frame
  induction l generalizing h k fuel with
  | zero =>
    obtain ⟨m, next⟩ := part.next_head mem.1 (by omega)
    rw [ends] at next
    -- level 0 becomes -1, at `h` and at the head behind it, which is `e`
    have halved : ∀ i, ((halve h k).frame i).index =
        if i = h ∨ i = e then -1 else (k.frame i).index := fun i => by
      rw [halve_index, level, ← ends]
      rfl
    have index : ∀ i, ((reserveBlock h (halve h k)).frame i).index =
        if i = h ∨ i = e then -1 else (k.frame i).index := fun i => by
      rw [reserveBlock_index, if_neg, halved]
      rw [halved, if_pos (.inl rfl)]
      exact fun between => Nat.not_le.mpr between.1 between.2
    have low : ((halve h k).frame h).index = -1 := by rw [halved, if_pos (.inl rfl)]
    have low' : ((reserveBlock h (halve h k)).frame h).index = -1 := by
      rw [index, if_pos (.inl rfl)]
    have high : ((reserveBlock h (halve h k)).frame e).index = -1 := by
      rw [index, if_pos (.inr rfl)]
    have next_head : h + 2 ^ (-1 : ℤ).toNat = e := ends
    refine ⟨reserveBlock h (halve h k), ?_, high, ?_⟩
    · rw [low, low', next_head, if_pos (le_refl e), splitRight, high]
      exact if_neg (by simp)
    · -- before the call `e` was the head of a block of its own
      rintro ⟨b, hb, inb⟩
      have other : ¬ (b.head = h ∨ b.head = e) := by
        intro touched
        have level' := hb.2
        rw [index, if_pos touched] at level'
        omega
      have old : b ∈ blocks n k.frame := by
        refine ⟨hb.1, ?_⟩
        rw [← hb.2, index, if_neg other]
      have same := part.family.disjoint b old _ next e inb (head_mem_cells _)
      exact other (.inr (congrArg Block.head same))
  | succ l ih =>
    have positive := Nat.two_pow_pos l
    have doubled : 2 ^ (l + 1) = 2 ^ l + 2 ^ l := by ring
    -- the lower half is taken, and the upper one ends right before `e` as well
    obtain ⟨part', free', -, index'⟩ := part.halve_free mem
    have low : ((halve h k).frame h).index = (l : ℤ) := by rw [index', if_pos (.inl rfl)]
    have high : ((halve h k).frame (h + 2 ^ l)).index = (l : ℤ) := by
      rw [index', if_pos (.inr rfl)]
    have lower_free : ⟨h, l⟩ ∈ freeBlocks n (halve h k).frame := by
      rw [free']
      exact .inr (.inl rfl)
    obtain ⟨part'', free'', -, index''⟩ := part'.reserve_free lower_free
    have low' : ((reserveBlock h (halve h k)).frame h).index = (l : ℤ) := by
      rw [index'' h (.inr rfl), low]
    have high' : ((reserveBlock h (halve h k)).frame (h + 2 ^ l)).index = (l : ℤ) := by
      rw [index'' _ (.inl fun inside => absurd inside.2 (by simp)), high]
    have rest : ⟨h + 2 ^ l, l⟩ ∈ freeBlocks n (reserveBlock h (halve h k)).frame := by
      rw [free'']
      refine ⟨by rw [free']; exact .inr (.inr rfl), fun same => ?_⟩
      have := congrArg Block.head same
      simp only at this
      omega
    obtain ⟨fuel, rfl⟩ : ∃ m, fuel = m + 1 := ⟨fuel - 1, by omega⟩
    obtain ⟨k', run, index, outside⟩ := ih part'' rest (by omega) fuel (by omega) high'
    refine ⟨k', ?_, index, outside⟩
    rw [low, Int.toNat_natCast, if_pos (by omega), low', Int.toNat_natCast, splitRight, high']
    simp only [power2_eq, Int.toNat_natCast]
    rw [if_pos (by omega)]
    exact run

/-! ## The whole call -/

/-- The range from `s` to `e` starts no block at its last frame when it is taken. -/
def Spares (frame : ℕ → FrameInfo) (s e : ℕ) : Prop :=
  s = e ∨ (frame e).index < 0 ∧ EndsWithin s e

theorem frameIndex_eq (addr : ℕ) (narrow : addr / 0x1000 < 2 ^ 31) :
    frameIndex addr = .ok (addr / 0x1000) := by
  rw [frameIndex, toInt32_of_lt narrow]
  exact if_neg (by omega)

/-- Where an aligned block that ends right before `e` starts below `s`, and `e` heads no
block, `e` lies in the block of `s`. -/
theorem Partitioned.mem_of_reaches (part : Partitioned n k) (mem : b ∈ blocks n k.frame)
    (inb : s ∈ b.cells) (behind : s < e) (inside : e < n) (neg : (k.frame e).index < 0)
    (reaches : ¬ EndsWithin s e) : e ∈ b.cells := by
  have held : e ∈ covered (blocks n k.frame) := by
    rw [part.covers]
    exact inside
  obtain ⟨c, hc, inc⟩ := held
  have level : (k.frame c.head).index = (c.level : ℤ) := hc.2
  by_cases before : c.head ≤ s
  · have := part.family.disjoint b mem c hc s inb ⟨before, behind.trans inc.2⟩
    rwa [this]
  · -- a block that ends before `e` starts in `c`, behind `s`
    refine absurd (fun j ends => ?_) reaches
    have inner : e ≠ c.head := by
      rintro rfl
      omega
    have := (part.family.aligned c hc).head_add_le inc inner ends
    omega

/-- Up to the last loop. The block it starts from holds `e` when the range is spared, and
ends right before `e` when not. -/
theorem Partitioned.front_ok (part : Partitioned n k) (order : s ≤ e) (inside : e < n)
    (free : ∀ x, s ≤ x → x ≤ e → x ∈ covered (freeBlocks n k.frame)) {fuel : ℕ}
    (enough : e + 16 < fuel) :
    ∃ head k₁ h l k', findHead k s = .ok head ∧ splitLeft s fuel head k = .ok (s, k₁) ∧
      takeMiddle e fuel s k₁ = .ok (h, k') ∧ Partitioned n k' ∧
      ⟨h, l⟩ ∈ freeBlocks n k'.frame ∧ s ≤ h ∧
      covered (usedBlocks n k'.frame) = covered (usedBlocks n k.frame) ∪ Set.Ico s h ∧
      (Spares k.frame s e → e ∈ (⟨h, l⟩ : Block).cells) ∧
      (¬ Spares k.frame s e → h + 2 ^ l = e) := by
  obtain ⟨⟨head, m⟩, mem, inb⟩ := free s le_rfl order
  have search := part.findHead_eq mem inb
  have bound : m ≤ 16 := part.family.level_le _ mem.1
  obtain ⟨l₁, k₁, left, part₁, mem₁, used₁, heads₁⟩ := part.splitLeft_ok mem inb
    (show m < fuel by omega)
  have free₁ : ∀ x, s ≤ x → x ≤ e → x ∈ covered (freeBlocks n k₁.frame) := by
    intro x low high
    rw [part₁.covered_free, used₁, ← part.covered_free]
    exact free x low high
  obtain ⟨h, l, k', middle, part', mem', low, before, high, reach, used', index'⟩ :=
    part₁.takeMiddle_ok mem₁ order free₁ (show e < s + fuel by omega)
  refine ⟨head, k₁, h, l, k', search, left, middle, part', mem', low, by rw [used', used₁],
    fun spares => ?_, fun spoils => ?_⟩
  · rcases spares with rfl | ⟨neg, ends⟩
    · exact ⟨high, by have := Nat.two_pow_pos l; simp only; omega⟩
    · refine ⟨high, lt_of_le_of_ne reach fun same : e = h + 2 ^ l => ?_⟩
      obtain ⟨m', next⟩ := part'.next_head mem'.1 (show h + 2 ^ l < n by omega)
      have level : (k'.frame (h + 2 ^ l)).index = (m' : ℤ) := next.2
      have behind : s < e := by
        have := ends 0 (one_dvd e)
        omega
      have nonneg : 0 ≤ (k₁.frame e).index := by
        rw [← index', same, level]
        omega
      rcases (heads₁ e behind).mp nonneg with old | ⟨-, reaches⟩
      · omega
      · exact reaches ends
  · have apart : s ≠ e := fun same => spoils (.inl same)
    have behind : s < e := by omega
    have nonneg : 0 ≤ (k'.frame e).index := by
      rw [index', heads₁ e behind]
      by_contra fresh
      have neg : (k.frame e).index < 0 := by
        by_contra old
        exact fresh (.inl (not_lt.mp old))
      have reaches : ¬ EndsWithin s e := fun ends => spoils (.inr ⟨neg, ends⟩)
      exact fresh (.inr ⟨part.mem_of_reaches mem.1 inb behind inside neg reaches, reaches⟩)
    by_contra more
    have inner := part'.inner_neg mem'.1 (x := e) ⟨high, by simp only; omega⟩
      (before behind).ne'
    omega

variable {start stop : ℕ}

/-- The call as its parts. -/
theorem memoryReserve_eq {fuel head h h' : ℕ} {k₁ k₂ k₃ : Allocator}
    (first : frameIndex start = .ok s) (last : frameIndex stop = .ok e)
    (search : findHead k s = .ok head) (left : splitLeft s fuel head k = .ok (s, k₁))
    (middle : takeMiddle e fuel s k₁ = .ok (h, k₂))
    (right : splitRight e fuel h k₂ = .ok (h', k₃)) :
    memoryReserve fuel start stop k = .ok (reserveBlock h' k₃) := by
  simp only [memoryReserve, first, last, search, left, middle, right, outcome_bind_ok,
    outcome_pure]

/-- **One reservation.** The call returns. It reserves the range and keeps the table
partitioned when the range is spared, and leaves its last frame in no block when not. -/
theorem Partitioned.memoryReserve_returns (part : Partitioned n k) (small : n < 2 ^ 31)
    (order : start / 0x1000 ≤ stop / 0x1000) (inside : stop / 0x1000 < n)
    (free : ∀ x, start / 0x1000 ≤ x → x ≤ stop / 0x1000 → x ∈ covered (freeBlocks n k.frame)) :
    ∃ k', Returns (fun fuel => memoryReserve fuel start stop k) k' ∧
      (Spares k.frame (start / 0x1000) (stop / 0x1000) → Partitioned n k' ∧
        covered (usedBlocks n k'.frame) = covered (usedBlocks n k.frame) ∪
          Set.Icc (start / 0x1000) (stop / 0x1000)) ∧
      (¬ Spares k.frame (start / 0x1000) (stop / 0x1000) →
        stop / 0x1000 ∉ covered (blocks n k'.frame)) := by
  have first := frameIndex_eq start (by omega)
  have last := frameIndex_eq stop (by omega)
  generalize start / 0x1000 = s at *
  generalize stop / 0x1000 = e at *
  obtain ⟨head, k₁, h, l, k₂, search, left, middle, part₂, mem₂, low, used₂, within, short⟩ :=
    part.front_ok order inside free (show e + 16 < e + 18 by omega)
  have bound : l ≤ 16 := part₂.family.level_le _ mem₂.1
  by_cases spares : Spares k.frame s e
  · obtain ⟨h', l', k₃, right, part₃, mem₃, low₃, reach, used₃⟩ :=
      part₂.splitRight_ok mem₂ (within spares) (show l < e + 18 by omega)
    obtain ⟨part₄, -, used₄, -⟩ := part₃.reserve_free mem₃
    refine ⟨_, ⟨e + 18, memoryReserve_eq first last search left middle right⟩,
      fun _ => ⟨part₄, ?_⟩, fun spoils => absurd spares spoils⟩
    have cells₃ : (⟨h', l'⟩ : Block).cells = Set.Ico h' (e + 1) := by rw [cells, ← reach]
    have positive := Nat.two_pow_pos l'
    have taken : Set.Ico s h ∪ (Set.Ico h h' ∪ Set.Ico h' (e + 1)) = Set.Icc s e := by
      have past : h' ≤ e + 1 := by omega
      rw [Set.Ico_union_Ico_eq_Ico low₃ past, Set.Ico_union_Ico_eq_Ico low (low₃.trans past)]
      ext x
      simp only [Set.mem_Ico, Set.mem_Icc]
      omega
    rw [used₄, covered_insert, used₃, used₂, cells₃, Set.union_comm, Set.union_assoc,
      Set.union_assoc, taken]
  · obtain ⟨k₃, right, index, outside⟩ := part₂.splitRight_spoils mem₂ (short spares) inside
      (show l + 1 < e + 18 by omega)
    refine ⟨_, ⟨e + 18, memoryReserve_eq first last search left middle right⟩,
      fun h => absurd h spares, fun _ => ?_⟩
    -- the last block has one frame, whose mark stays
    have same : blocks n (reserveBlock e k₃).frame = blocks n k₃.frame := by
      ext b
      refine and_congr_right fun _ => ?_
      rw [reserveBlock_index, index, if_neg]
      exact fun between => Nat.not_le.mpr between.1 between.2
    rw [same]
    exact outside

end BareMetal.Buddy
