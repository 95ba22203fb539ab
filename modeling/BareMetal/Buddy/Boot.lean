import BareMetal.Buddy.Invariant

/-!
# Filling the free lists

The loops of `page_init` walk a table from head to head. A table along which this
walk meets aligned blocks up to its end (`Walk`) partitions its frames. The last
loop then calls `add_page_item` for the head of every free block, on lists that
are still empty, which gives a consistent allocator.
-/

namespace BareMetal.Buddy

open CS Math Math.Block

variable {n : ℕ} {k : Allocator} {lists : ℕ → List ℕ}

/-! ## Walking a table -/

/-- From `h` the walk from head to head meets aligned blocks and ends at `n`. -/
inductive Walk (n : ℕ) (frame : ℕ → FrameInfo) : ℕ → Prop
  | done : Walk n frame n
  | next {h : ℕ} (l : ℕ) (index : (frame h).index = l) (bound : l ≤ 16) (aligned : 2 ^ l ∣ h)
      (status : (frame h).status = 0 ∨ (frame h).status = 1)
      (inner : ∀ i, h < i → i < h + 2 ^ l → (frame i).index < 0 ∧ (frame i).status = 0)
      (rest : Walk n frame (h + 2 ^ l)) : Walk n frame h

namespace Walk

variable {frame : ℕ → FrameInfo} {h : ℕ}

theorem le (walk : Walk n frame h) : h ≤ n := by
  induction walk with
  | done => exact le_rfl
  | next => omega

/-- The walk depends on the frames of the table only. -/
theorem congr {frame' : ℕ → FrameInfo} (walk : Walk n frame h)
    (same : ∀ i < n, frame' i = frame i) : Walk n frame' h := by
  induction walk with
  | done => exact .done
  | @next h l index bound aligned status inner rest ih =>
    have positive := Nat.two_pow_pos l
    have fits := rest.le
    refine .next l ?_ bound aligned ?_ (fun i low high => ?_) ih
    · rw [same h (by omega), index]
    · rwa [same h (by omega)]
    · rw [same i (by omega)]
      exact inner i low high

/-- Every frame from `h` on lies in a block of the walk. -/
theorem covers (walk : Walk n frame h) {x : ℕ} (low : h ≤ x) (high : x < n) :
    ∃ b ∈ blocks n frame, x ∈ b.cells := by
  induction walk with
  | done => omega
  | @next h l index bound aligned status inner rest ih =>
    by_cases inside : x < h + 2 ^ l
    · exact ⟨⟨h, l⟩, ⟨by simp only; omega, index⟩, low, inside⟩
    · exact ih (by omega)

/-- The blocks whose heads lie from `h` on are aligned, of level at most 16, and
end within the table. -/
theorem block (walk : Walk n frame h) {b : Block} (mem : b ∈ blocks n frame)
    (low : h ≤ b.head) : b.Aligned ∧ b.level ≤ 16 ∧ b.head + 2 ^ b.level ≤ n := by
  have head_lt : b.head < n := mem.1
  have level : (frame b.head).index = b.level := mem.2
  induction walk with
  | done => omega
  | @next h l index bound aligned status inner rest ih =>
    rcases eq_or_lt_of_le low with same | past
    · have same_level : l = b.level := by
        rw [← same, index] at level
        exact_mod_cast level
      subst same_level
      refine ⟨?_, bound, same ▸ rest.le⟩
      rw [same] at aligned
      exact aligned
    · by_cases inside : b.head < h + 2 ^ l
      · have := (inner b.head past inside).1
        omega
      · exact ih (by omega)

/-- The blocks whose heads lie from `h` on are disjoint. -/
theorem disjoint (walk : Walk n frame h) {b c : Block} {x : ℕ} (hb : b ∈ blocks n frame)
    (hc : c ∈ blocks n frame) (lowb : h ≤ b.head) (lowc : h ≤ c.head) (inb : x ∈ b.cells)
    (inc : x ∈ c.cells) : b = c := by
  have head_lt : b.head < n := hb.1
  have levelb : (frame b.head).index = b.level := hb.2
  have levelc : (frame c.head).index = c.level := hc.2
  rw [mem_cells] at inb inc
  induction walk with
  | done => omega
  | @next h l index bound aligned status inner rest ih =>
    -- a head is `h` itself, with level `l`, or lies behind this block
    have place : ∀ a : Block, (frame a.head).index = a.level → h ≤ a.head →
        a = ⟨h, l⟩ ∨ h + 2 ^ l ≤ a.head := by
      intro a level low
      rcases eq_or_lt_of_le low with same | past
      · rw [← same, index] at level
        exact .inl (Block.ext same.symm (by exact_mod_cast level.symm))
      · refine .inr (not_lt.mp fun inside => ?_)
        have := (inner a.head past inside).1
        omega
    rcases place b levelb lowb with rfl | behindb <;> rcases place c levelc lowc with rfl | behindc
    · rfl
    · simp only at inb; omega
    · simp only at inc; omega
    · exact ih behindb behindc

theorem status (walk : Walk n frame h) {i : ℕ} (low : h ≤ i) (high : i < n) :
    (frame i).status = 0 ∨ (frame i).status = 1 ∧ 0 ≤ (frame i).index := by
  induction walk with
  | done => omega
  | @next h l index bound aligned status inner rest ih =>
    rcases eq_or_lt_of_le low with rfl | past
    · rcases status with zero | one
      · exact .inl zero
      · exact .inr ⟨one, by omega⟩
    · by_cases inside : i < h + 2 ^ l
      · exact .inl (inner i past inside).2
      · exact ih (by omega)

/-- A table that can be walked from its start is partitioned into blocks. -/
theorem table (walk : Walk n frame 0)
    (beyond : ∀ i, n ≤ i →
      ¬ (0 ≤ (frame i).index ∧ (frame i).index ≤ 16 ∧ (frame i).status = 0)) :
    Table n frame where
  family :=
    ⟨fun b hb => (walk.block hb b.head.zero_le).1, fun b hb => (walk.block hb b.head.zero_le).2.1,
      fun b hb c hc x inb inc => walk.disjoint hb hc b.head.zero_le c.head.zero_le inb inc⟩
  covers := by
    ext x
    constructor
    · rintro ⟨b, hb, inb⟩
      have := (walk.block hb b.head.zero_le).2.2
      rw [mem_cells] at inb
      exact lt_of_lt_of_le inb.2 this
    · exact fun high => walk.covers x.zero_le high
  status i high := walk.status i.zero_le high
  beyond := beyond

end Walk

/-! ## Adding the free heads -/

/-- `add_page_item` for each of the heads, the last one first. -/
def addPageItems (heads : List ℕ) (k : Allocator) : Allocator := heads.foldr addPageItem k

@[simp] theorem addPageItems_frame (heads : List ℕ) (k : Allocator) :
    (addPageItems heads k).frame = k.frame := by
  induction heads with
  | nil => rfl
  | cons i heads ih =>
    change (addPageItem i (addPageItems heads k)).frame = _
    rw [FreeLists.addPageItem_frame, ih]

/-- New heads enter the lists of their levels. -/
theorem FreeLists.pushAll (fl : FreeLists k lists) {heads : List ℕ} (distinct : heads.Nodup)
    (levels : ∀ i ∈ heads, ∃ l : ℕ, l ≤ 16 ∧ (k.frame i).index = l)
    (fresh : ∀ i ∈ heads, ∀ m, i ∉ lists m) :
    ∃ lists', FreeLists (addPageItems heads k) lists' ∧
      ∀ (i l : ℕ), i ∈ lists' l ↔ i ∈ lists l ∨ i ∈ heads ∧ (k.frame i).index = l := by
  induction heads with
  | nil => exact ⟨lists, fl, fun i l => by simp⟩
  | cons i heads ih =>
    obtain ⟨absent, distinct⟩ := List.nodup_cons.mp distinct
    obtain ⟨lists', fl', mem⟩ := ih distinct (fun j hj => levels j (List.mem_cons_of_mem i hj))
      (fun j hj => fresh j (List.mem_cons_of_mem i hj))
    obtain ⟨l, bound, level⟩ := levels i List.mem_cons_self
    have level' : ((addPageItems heads k).frame i).index = (l : ℤ) := by
      rw [addPageItems_frame, level]
    -- the later heads are in the lists already, and this one is none of them
    have new : ∀ m, i ∉ lists' m := by
      intro m inside
      rcases (mem i m).mp inside with old | ⟨inside, -⟩
      · exact fresh i List.mem_cons_self m old
      · exact absent inside
    obtain ⟨pushed, -⟩ := fl'.push bound level' new
    refine ⟨_, pushed, fun j m => ?_⟩
    by_cases same : m = l
    · subst same
      rw [Function.update_self, List.mem_cons, mem, List.mem_cons]
      constructor
      · rintro (rfl | old | ⟨inside, at_level⟩)
        · exact .inr ⟨.inl rfl, level⟩
        · exact .inl old
        · exact .inr ⟨.inr inside, at_level⟩
      · rintro (old | ⟨rfl | inside, at_level⟩)
        · exact .inr (.inl old)
        · exact .inl rfl
        · exact .inr (.inr ⟨inside, at_level⟩)
    · rw [Function.update_of_ne same, mem, List.mem_cons]
      constructor
      · rintro (old | ⟨inside, at_level⟩)
        · exact .inl old
        · exact .inr ⟨.inr inside, at_level⟩
      · rintro (old | ⟨rfl | inside, at_level⟩)
        · exact .inl old
        · rw [level] at at_level
          exact absurd (by exact_mod_cast at_level.symm) same
        · exact .inr ⟨inside, at_level⟩

/-- **The state after `page_init`'s last loop** is consistent: the table
partitions its frames, and the heads of the free blocks have been added. -/
theorem Table.wellFormed {frame : ℕ → FrameInfo} {mem : Memory} {heads : List ℕ}
    (table : Table n frame) (distinct : heads.Nodup)
    (free : ∀ i, i ∈ heads ↔ i < n ∧ 0 ≤ (frame i).index ∧ (frame i).status = 0) :
    WellFormed n (addPageItems heads ⟨frame, fun _ => none, mem⟩) := by
  have empty : FreeLists ⟨frame, fun _ => none, mem⟩ fun _ => [] :=
    ⟨fun _ _ => ⟨rfl, List.isChain_nil⟩, by simp, by simp, fun _ _ => rfl⟩
  have levels : ∀ i ∈ heads, ∃ l : ℕ, l ≤ 16 ∧ (frame i).index = l := by
    intro i hi
    obtain ⟨inside, nonneg, -⟩ := (free i).mp hi
    have block := Table.mem_blocks_of_nonneg inside nonneg
    exact ⟨_, table.family.level_le _ block, block.2⟩
  obtain ⟨lists, fl, mem⟩ := empty.pushAll distinct levels (by simp)
  refine ⟨lists, ?_, fl, fun i l => ?_⟩
  · rw [addPageItems_frame]
    exact table
  · rw [mem, free, addPageItems_frame]
    simp only [List.not_mem_nil, false_or, freeBlocks, blocks, Set.mem_ofPred_eq]
    omega

/-! ## A table of the board's size -/

/-- A table of the `0x3c000` frames of the board: the first 256 MiB are in use as
one block, the rest is free. -/
def upperFrames (i : ℕ) : FrameInfo :=
  if i = 0 then ⟨1, 16⟩
  else if i = 0x10000 ∨ i = 0x20000 then ⟨0, 16⟩
  else if i = 0x30000 then ⟨0, 15⟩
  else if i = 0x38000 then ⟨0, 14⟩
  else if i < 0x3c000 then ⟨0, -1⟩
  else ⟨1, -1⟩

/-- The allocator with these frames, over memory that reads as zero. -/
def upperFree : Allocator :=
  addPageItems [0x38000, 0x30000, 0x20000, 0x10000] ⟨upperFrames, fun _ => none, fun _ => ⟨0, 0⟩⟩

theorem upperFrames_inner {i : ℕ} (inside : i < 0x3c000)
    (inner : i ≠ 0 ∧ i ≠ 0x10000 ∧ i ≠ 0x20000 ∧ i ≠ 0x30000 ∧ i ≠ 0x38000) :
    upperFrames i = ⟨0, -1⟩ := by
  obtain ⟨h₁, h₂, h₃, h₄, h₅⟩ := inner
  simp only [upperFrames, h₁, h₂, h₃, h₄, h₅, inside, if_true, if_false, or_self]

private theorem upperFrames_walk : Walk 0x3c000 upperFrames 0 := by
  have inner : ∀ h l i, h < i → i < h + 2 ^ l → h + 2 ^ l ≤ 0x3c000 →
      (h % 0x10000 = 0 ∧ l = 16 ∨ h = 0x30000 ∧ l = 15 ∨ h = 0x38000 ∧ l = 14) →
      (upperFrames i).index < 0 ∧ (upperFrames i).status = 0 := by
    rintro h l i low high fits (⟨aligned, rfl⟩ | ⟨rfl, rfl⟩ | ⟨rfl, rfl⟩) <;>
      rw [upperFrames_inner (by omega) (by omega)] <;> decide
  refine .next 16 (by rfl) le_rfl (by decide) (.inr rfl)
    (fun i low high => inner 0 16 i low high (by omega) (by omega)) ?_
  refine .next 16 (by rfl) le_rfl (by decide) (.inl rfl)
    (fun i low high => inner _ 16 i low high (by omega) (by omega)) ?_
  refine .next 16 (by rfl) le_rfl (by decide) (.inl rfl)
    (fun i low high => inner _ 16 i low high (by omega) (by omega)) ?_
  refine .next 15 (by rfl) (by decide) (by decide) (.inl rfl)
    (fun i low high => inner _ 15 i low high (by omega) (by omega)) ?_
  refine .next 14 (by rfl) (by decide) (by decide) (.inl rfl)
    (fun i low high => inner _ 14 i low high (by omega) (by omega)) ?_
  exact .done

/-- It is consistent. -/
theorem upperFree_wellFormed : WellFormed 0x3c000 upperFree := by
  refine Table.wellFormed (upperFrames_walk.table fun i past => ?_) (by decide) fun i => ?_
  · have : upperFrames i = ⟨1, -1⟩ := by
      unfold upperFrames
      split_ifs <;> first | rfl | omega
    rw [this]
    decide
  · unfold upperFrames
    simp only [List.mem_cons, List.not_mem_nil, or_false]
    split_ifs <;> simp <;> omega

/-- Its blocks: the first is in use, the others are free. -/
theorem upperFree_block {b : Block} (mem : b ∈ blocks 0x3c000 upperFree.frame) :
    b = ⟨0, 16⟩ ∨ (upperFree.frame b.head).status = 0 ∧
      b ∈ [⟨0x10000, 16⟩, ⟨0x20000, 16⟩, ⟨0x30000, 15⟩, ⟨0x38000, 14⟩] := by
  obtain ⟨inside, index⟩ := mem
  obtain ⟨i, l⟩ := b
  rw [upperFree, addPageItems_frame] at index ⊢
  simp only [upperFrames, List.mem_cons, Block.mk.injEq] at index inside ⊢
  split_ifs at index ⊢ <;> simp at index ⊢ <;> omega

end BareMetal.Buddy
