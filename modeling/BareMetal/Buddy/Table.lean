import BareMetal.Buddy.Model
import BareMetal.Math.Dyadic

/-!
# Frame tables as decompositions into blocks

`blocks n frame` reads the blocks off a table of `n` frames: every frame with a
nonnegative `index` heads one. `Table n frame` says that they are aligned, of
level at most 16, and partition the table, that `status` is 1 on heads only, and
that what lies past the table never passes for a free block.

Each operation of the allocator changes the frames in one of four ways: a free
block is split into its halves, two free buddies are joined, a free block is
taken, a used one is given back. The lemmas say what each does to the free and
to the used blocks.
-/

namespace BareMetal.Buddy

open CS Math Math.Block

variable {n h l i : ℕ} {frame frame' : ℕ → FrameInfo} {b : Block}

/-- The blocks of a table of `n` frames. -/
def blocks (n : ℕ) (frame : ℕ → FrameInfo) : Set Block :=
  {b | b.head < n ∧ (frame b.head).index = b.level}

/-- The blocks that are neither allocated nor reserved. -/
def freeBlocks (n : ℕ) (frame : ℕ → FrameInfo) : Set Block :=
  {b | b ∈ blocks n frame ∧ (frame b.head).status = 0}

/-- The allocated and the reserved blocks. -/
def usedBlocks (n : ℕ) (frame : ℕ → FrameInfo) : Set Block :=
  {b | b ∈ blocks n frame ∧ (frame b.head).status = 1}

/-- The blocks of the table are aligned, of level 0 to 16, and partition it;
`status` is 0 or 1, and 1 on heads only; no frame past the table can be taken
for the head of a free block. -/
structure Table (n : ℕ) (frame : ℕ → FrameInfo) : Prop where
  family : Decomposition 16 (blocks n frame)
  covers : covered (blocks n frame) = Set.Iio n
  status : ∀ i < n, (frame i).status = 0 ∨ (frame i).status = 1 ∧ 0 ≤ (frame i).index
  beyond : ∀ i, n ≤ i →
    ¬ (0 ≤ (frame i).index ∧ (frame i).index ≤ 16 ∧ (frame i).status = 0)

namespace Table

/-- A frame with a nonnegative index heads a block. -/
theorem mem_blocks_of_nonneg (inside : i < n) (nonneg : 0 ≤ (frame i).index) :
    ⟨i, (frame i).index.toNat⟩ ∈ blocks n frame :=
  ⟨inside, (Int.toNat_of_nonneg nonneg).symm⟩

theorem lt_of_mem (table : Table n frame) {x : ℕ} (mem : b ∈ blocks n frame)
    (inb : x ∈ b.cells) : x < n := by
  have : x ∈ covered (blocks n frame) := ⟨b, mem, inb⟩
  rwa [table.covers] at this

theorem fits (table : Table n frame) (mem : b ∈ blocks n frame) : b.head + 2 ^ b.level ≤ n := by
  have positive := Nat.two_pow_pos b.level
  have := table.lt_of_mem mem (x := b.head + 2 ^ b.level - 1) ⟨by omega, by omega⟩
  omega

/-- A frame inside a block, its head apart, holds a negative mark. -/
theorem inner_neg (table : Table n frame) {x : ℕ} (mem : b ∈ blocks n frame)
    (inb : x ∈ b.cells) (inner : x ≠ b.head) : (frame x).index < 0 := by
  by_contra nonneg
  have own := mem_blocks_of_nonneg (table.lt_of_mem mem inb) (not_lt.mp nonneg)
  have same := table.family.disjoint b mem _ own x inb (head_mem_cells _)
  exact inner (congrArg Block.head same).symm

theorem status_of_neg (table : Table n frame) (inside : i < n) (neg : (frame i).index < 0) :
    (frame i).status = 0 := by
  rcases table.status i inside with zero | ⟨-, nonneg⟩
  · exact zero
  · omega

/-- Every block is free or used. -/
theorem free_or_used (table : Table n frame) (mem : b ∈ blocks n frame) :
    b ∈ freeBlocks n frame ∨ b ∈ usedBlocks n frame := by
  rcases table.status b.head mem.1 with zero | ⟨one, -⟩
  · exact .inl ⟨mem, zero⟩
  · exact .inr ⟨mem, one⟩

/-- A free and a used block do not meet. -/
theorem free_used_disjoint (table : Table n frame) {c : Block} {x : ℕ}
    (free : b ∈ freeBlocks n frame) (used : c ∈ usedBlocks n frame)
    (inb : x ∈ b.cells) (inc : x ∈ c.cells) : False := by
  obtain rfl := table.family.disjoint b free.1 c used.1 x inb inc
  have zero := free.2
  have one := used.2
  omega

/-- The frames in free blocks are those of the table outside the used blocks. -/
theorem covered_free (table : Table n frame) :
    covered (freeBlocks n frame) = Set.Iio n \ covered (usedBlocks n frame) := by
  ext x
  constructor
  · rintro ⟨b, free, inb⟩
    refine ⟨table.lt_of_mem free.1 inb, ?_⟩
    rintro ⟨c, used, inc⟩
    exact table.free_used_disjoint free used inb inc
  · rintro ⟨inside, unused⟩
    rw [← table.covers] at inside
    obtain ⟨b, mem, inb⟩ := inside
    rcases table.free_or_used mem with free | used
    · exact ⟨b, free, inb⟩
    · exact absurd ⟨b, used, inb⟩ unused

/-! ## The four changes -/

/-- A free block of level `l + 1` becomes its two halves. -/
theorem split (table : Table n frame) (mem : ⟨h, l + 1⟩ ∈ freeBlocks n frame)
    (index : ∀ i, (frame' i).index = if i = h ∨ i = h + 2 ^ l then (l : ℤ) else (frame i).index)
    (status : ∀ i, (frame' i).status = (frame i).status) :
    Table n frame' ∧ freeBlocks n frame' = splitAt (freeBlocks n frame) h l ∧
      usedBlocks n frame' = usedBlocks n frame := by
  have positive := Nat.two_pow_pos l
  have doubled : 2 ^ (l + 1) = 2 ^ l + 2 ^ l := by ring
  have upper_in : h + 2 ^ l ∈ (⟨h, l + 1⟩ : Block).cells := ⟨by simp, by simp only; omega⟩
  have upper_lt : h + 2 ^ l < n := table.lt_of_mem mem.1 upper_in
  have upper_neg : (frame (h + 2 ^ l)).index < 0 :=
    table.inner_neg mem.1 upper_in (by simp)
  have upper_zero := table.status_of_neg upper_lt upper_neg
  have head_level : (frame h).index = ((l + 1 : ℕ) : ℤ) := mem.1.2
  -- two heads change: that of the block loses a level, and its middle becomes one
  have blocks_split : blocks n frame' = splitAt (blocks n frame) h l := by
    ext ⟨i, m⟩
    by_cases touched : i = h ∨ i = h + 2 ^ l
    · simp only [blocks, Set.mem_ofPred_eq, index, if_pos touched]
      rcases touched with rfl | rfl <;>
        simp [Math.splitAt, lower, upper, head_level] <;> omega
    · have other := not_or.mp touched
      simp [blocks, index, other.1, other.2, Math.splitAt, lower, upper]
  have free_split : freeBlocks n frame' = splitAt (freeBlocks n frame) h l := by
    ext ⟨i, m⟩
    simp only [freeBlocks, blocks_split, status, Set.mem_ofPred_eq, Math.splitAt, lower, upper,
      Set.mem_union, Set.mem_sdiff, Set.mem_singleton_iff, Set.mem_insert_iff, Block.mk.injEq]
    have head_zero : (frame h).status = 0 := mem.2
    constructor
    · rintro ⟨⟨old, new⟩ | half, zero⟩
      · exact .inl ⟨⟨old, zero⟩, new⟩
      · exact .inr half
    · rintro (⟨⟨old, zero⟩, new⟩ | half)
      · exact ⟨.inl ⟨old, new⟩, zero⟩
      · refine ⟨.inr half, ?_⟩
        rcases half with ⟨rfl, -⟩ | ⟨rfl, -⟩ <;> assumption
  -- the changed heads are free
  have used_same : usedBlocks n frame' = usedBlocks n frame := by
    ext ⟨i, m⟩
    simp only [usedBlocks, blocks_split, status, Set.mem_ofPred_eq, Math.splitAt, lower, upper,
      Set.mem_union, Set.mem_sdiff, Set.mem_singleton_iff, Set.mem_insert_iff, Block.mk.injEq]
    have head_zero : (frame h).status = 0 := mem.2
    constructor
    · rintro ⟨⟨old, -⟩ | ⟨rfl, -⟩ | ⟨rfl, -⟩, one⟩
      · exact ⟨old, one⟩
      · omega
      · omega
    · rintro ⟨old, one⟩
      refine ⟨.inl ⟨old, ?_⟩, one⟩
      rintro ⟨rfl, -⟩
      omega
  refine ⟨⟨?_, ?_, fun i inside => ?_, fun i past => ?_⟩, free_split, used_same⟩
  · rw [blocks_split]
    exact table.family.splitAt mem.1
  · rw [blocks_split, covered_splitAt mem.1, table.covers]
  · rw [status, index]
    have old := table.status i inside
    split_ifs <;> omega
  · have old := table.beyond i past
    have head_lt : h < n := mem.1.1
    have untouched : ¬ (i = h ∨ i = h + 2 ^ l) := by omega
    rwa [status, index, if_neg untouched]

/-- Two free buddies of level `l` become one block. -/
theorem join (table : Table n frame) (low : lower h l ∈ freeBlocks n frame)
    (high : upper h l ∈ freeBlocks n frame) (aligned : 2 ^ (l + 1) ∣ h) (level : l < 16)
    (index : ∀ i, (frame' i).index =
      if i = h then ((l + 1 : ℕ) : ℤ) else if i = h + 2 ^ l then -1 else (frame i).index)
    (status : ∀ i, (frame' i).status = (frame i).status) :
    Table n frame' ∧ freeBlocks n frame' = joinAt (freeBlocks n frame) h l ∧
      usedBlocks n frame' = usedBlocks n frame := by
  have positive := Nat.two_pow_pos l
  have low_lt : h < n := low.1.1
  have high_lt : h + 2 ^ l < n := high.1.1
  have low_level : (frame h).index = (l : ℤ) := low.1.2
  have high_level : (frame (h + 2 ^ l)).index = (l : ℤ) := high.1.2
  have low_zero : (frame h).status = 0 := low.2
  have high_zero : (frame (h + 2 ^ l)).status = 0 := high.2
  -- two heads change: the lower one gains a level, and the upper one is none any more
  have blocks_join : blocks n frame' = joinAt (blocks n frame) h l := by
    ext ⟨i, m⟩
    by_cases head : i = h
    · subst head
      simp only [blocks, Set.mem_ofPred_eq, index, if_true]
      simp [Math.joinAt, lower, upper, low_level]
      omega
    · by_cases inner : i = h + 2 ^ l
      · subst inner
        simp only [blocks, Set.mem_ofPred_eq, index, if_neg head, if_true]
        simp [Math.joinAt, lower, upper, high_level]
        omega
      · simp [blocks, index, head, inner, Math.joinAt, lower, upper]
  have free_join : freeBlocks n frame' = joinAt (freeBlocks n frame) h l := by
    ext ⟨i, m⟩
    simp only [freeBlocks, blocks_join, status, Set.mem_ofPred_eq, Math.joinAt, lower, upper,
      Set.mem_union, Set.mem_sdiff, Set.mem_singleton_iff, Set.mem_insert_iff, Block.mk.injEq]
    constructor
    · rintro ⟨⟨old, new⟩ | whole, zero⟩
      · exact .inl ⟨⟨old, zero⟩, new⟩
      · exact .inr whole
    · rintro (⟨⟨old, zero⟩, new⟩ | ⟨rfl, rfl⟩)
      · exact ⟨.inl ⟨old, new⟩, zero⟩
      · exact ⟨.inr ⟨rfl, rfl⟩, low_zero⟩
  -- the changed heads are free
  have used_same : usedBlocks n frame' = usedBlocks n frame := by
    ext ⟨i, m⟩
    simp only [usedBlocks, blocks_join, status, Set.mem_ofPred_eq, Math.joinAt, lower, upper,
      Set.mem_union, Set.mem_sdiff, Set.mem_singleton_iff, Set.mem_insert_iff, Block.mk.injEq]
    constructor
    · rintro ⟨⟨old, -⟩ | ⟨rfl, -⟩, one⟩
      · exact ⟨old, one⟩
      · omega
    · rintro ⟨old, one⟩
      refine ⟨.inl ⟨old, ?_⟩, one⟩
      rintro (⟨rfl, -⟩ | ⟨rfl, -⟩) <;> omega
  refine ⟨⟨?_, ?_, fun i inside => ?_, fun i past => ?_⟩, free_join, used_same⟩
  · rw [blocks_join]
    exact table.family.joinAt low.1 high.1 aligned level
  · rw [blocks_join, covered_joinAt low.1 high.1, table.covers]
  · rw [status, index]
    have old := table.status i inside
    split_ifs with head inner
    · omega
    · subst inner
      omega
    · exact old
  · have old := table.beyond i past
    have not_head : i ≠ h := by omega
    have not_inner : i ≠ h + 2 ^ l := by omega
    rwa [status, index, if_neg not_head, if_neg not_inner]

/-- Marks inside a block may change as long as they stay negative. -/
theorem blocks_congr (marks : ∀ i, (frame' i).index = (frame i).index ∨
      i < n ∧ (frame' i).index < 0 ∧ (frame i).index < 0) : blocks n frame' = blocks n frame := by
  ext ⟨i, m⟩
  simp only [blocks, Set.mem_ofPred_eq]
  have := marks i
  omega

/-- The status of one head changes, and with it the side its block is on. -/
private theorem restatus (table : Table n frame) (mem : b ∈ blocks n frame) {value : ℕ}
    (marks : ∀ i, (frame' i).index = (frame i).index ∨
      i < n ∧ (frame' i).index < 0 ∧ (frame i).index < 0)
    (status : ∀ i, (frame' i).status = if i = b.head then value else (frame i).status)
    (bit : value = 0 ∨ value = 1) : Table n frame' := by
  have same := blocks_congr marks
  have head_level : (frame b.head).index = (b.level : ℤ) := mem.2
  refine ⟨by rw [same]; exact table.family, by rw [same, table.covers], fun i inside => ?_,
    fun i past => ?_⟩
  · rw [status]
    have mark := marks i
    split_ifs with head
    · subst head
      omega
    · have old := table.status i inside
      have inner_zero := table.status_of_neg inside
      omega
  · have old := table.beyond i past
    have head_lt : b.head < n := mem.1
    have mark := marks i
    rw [status, if_neg (by omega)]
    omega

/-- A free block is taken. -/
theorem take (table : Table n frame) (mem : b ∈ freeBlocks n frame)
    (marks : ∀ i, (frame' i).index = (frame i).index ∨
      i < n ∧ (frame' i).index < 0 ∧ (frame i).index < 0)
    (status : ∀ i, (frame' i).status = if i = b.head then 1 else (frame i).status) :
    Table n frame' ∧ freeBlocks n frame' = freeBlocks n frame \ {b} ∧
      usedBlocks n frame' = insert b (usedBlocks n frame) := by
  have same := blocks_congr marks
  have head_eq : ∀ c ∈ blocks n frame, c.head = b.head → c = b := fun c hc heads =>
    table.family.disjoint c hc b mem.1 c.head c.head_mem_cells (heads ▸ b.head_mem_cells)
  refine ⟨table.restatus mem.1 marks status (.inr rfl), ?_, ?_⟩
  · ext c
    simp only [freeBlocks, same, status, Set.mem_ofPred_eq, Set.mem_sdiff, Set.mem_singleton_iff]
    constructor
    · rintro ⟨hc, zero⟩
      have other : c.head ≠ b.head := fun heads => by simp [heads] at zero
      rw [if_neg other] at zero
      exact ⟨⟨hc, zero⟩, fun eq => other (congrArg Block.head eq)⟩
    · rintro ⟨⟨hc, zero⟩, ne⟩
      exact ⟨hc, by rw [if_neg fun heads => ne (head_eq c hc heads)]; exact zero⟩
  · ext c
    simp only [usedBlocks, same, status, Set.mem_ofPred_eq, Set.mem_insert_iff]
    constructor
    · rintro ⟨hc, one⟩
      by_cases heads : c.head = b.head
      · exact .inl (head_eq c hc heads)
      · rw [if_neg heads] at one
        exact .inr ⟨hc, one⟩
    · rintro (rfl | ⟨hc, one⟩)
      · exact ⟨mem.1, by simp⟩
      · exact ⟨hc, by split_ifs <;> first | rfl | exact one⟩

/-- A used block is given back. -/
theorem give (table : Table n frame) (mem : b ∈ usedBlocks n frame)
    (marks : ∀ i, (frame' i).index = (frame i).index ∨
      i < n ∧ (frame' i).index < 0 ∧ (frame i).index < 0)
    (status : ∀ i, (frame' i).status = if i = b.head then 0 else (frame i).status) :
    Table n frame' ∧ freeBlocks n frame' = insert b (freeBlocks n frame) ∧
      usedBlocks n frame' = usedBlocks n frame \ {b} := by
  have same := blocks_congr marks
  have head_eq : ∀ c ∈ blocks n frame, c.head = b.head → c = b := fun c hc heads =>
    table.family.disjoint c hc b mem.1 c.head c.head_mem_cells (heads ▸ b.head_mem_cells)
  refine ⟨table.restatus mem.1 marks status (.inl rfl), ?_, ?_⟩
  · ext c
    simp only [freeBlocks, same, status, Set.mem_ofPred_eq, Set.mem_insert_iff]
    constructor
    · rintro ⟨hc, zero⟩
      by_cases heads : c.head = b.head
      · exact .inl (head_eq c hc heads)
      · rw [if_neg heads] at zero
        exact .inr ⟨hc, zero⟩
    · rintro (rfl | ⟨hc, zero⟩)
      · exact ⟨mem.1, by simp⟩
      · exact ⟨hc, by split_ifs <;> first | rfl | exact zero⟩
  · ext c
    simp only [usedBlocks, same, status, Set.mem_ofPred_eq, Set.mem_sdiff, Set.mem_singleton_iff]
    constructor
    · rintro ⟨hc, one⟩
      have other : c.head ≠ b.head := fun heads => by simp [heads] at one
      rw [if_neg other] at one
      exact ⟨⟨hc, one⟩, fun eq => other (congrArg Block.head eq)⟩
    · rintro ⟨⟨hc, one⟩, ne⟩
      exact ⟨hc, by rw [if_neg fun heads => ne (head_eq c hc heads)]; exact one⟩

end Table

end BareMetal.Buddy
