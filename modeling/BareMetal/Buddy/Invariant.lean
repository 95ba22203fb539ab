import BareMetal.Buddy.FreeLists
import BareMetal.Buddy.Table

/-!
# The allocator invariant

`Represents n k lists` joins the two halves of the invariant: the frame table
partitions its `n` frames into blocks, and the list of each level holds exactly
the heads of the free blocks of this level. `WellFormed n k` forgets the lists.
-/

namespace BareMetal.Buddy

open CS Math Math.Block

variable {n i l : ℕ} {k : Allocator} {lists : ℕ → List ℕ} {rest : List ℕ}

/-- The table partitions `n` frames into blocks, and `lists l` are the heads of
the free blocks of level `l` in the order of `page_list[l]`. -/
structure Represents (n : ℕ) (k : Allocator) (lists : ℕ → List ℕ) : Prop where
  table : Table n k.frame
  freeLists : FreeLists k lists
  mem_lists : ∀ i l, i ∈ lists l ↔ ⟨i, l⟩ ∈ freeBlocks n k.frame

/-- The allocator state is consistent. -/
def WellFormed (n : ℕ) (k : Allocator) : Prop := ∃ lists, Represents n k lists

/-- The frames in free blocks. -/
abbrev freeFrames (n : ℕ) (k : Allocator) : Set ℕ := covered (freeBlocks n k.frame)

namespace Represents

theorem free_of_mem (rep : Represents n k lists) (mem : i ∈ lists l) :
    ⟨i, l⟩ ∈ freeBlocks n k.frame :=
  (rep.mem_lists i l).mp mem

theorem free_of_cons (rep : Represents n k lists) (head : lists l = i :: rest) :
    ⟨i, l⟩ ∈ freeBlocks n k.frame :=
  rep.free_of_mem (by simp [head])

/-- The frames of listed heads are free. -/
theorem mem_freeFrames (rep : Represents n k lists) (mem : i ∈ lists l) : i ∈ freeFrames n k :=
  ⟨_, rep.free_of_mem mem, head_mem_cells _⟩

/-- A frame that heads no free block is in no list. -/
theorem not_listed (rep : Represents n k lists)
    (used : ¬ (0 ≤ (k.frame i).index ∧ (k.frame i).status = 0)) (m : ℕ) : i ∉ lists m := by
  intro mem
  obtain ⟨⟨-, level⟩, zero⟩ := rep.free_of_mem mem
  exact used ⟨by simp only at level; omega, zero⟩

theorem itemIndex_of_cons (rep : Represents n k lists) (head : lists l = i :: rest) :
    itemIndex k.mem i = i :=
  rep.freeLists.self l i (by simp [head])

/-- Free frames are decided by the used blocks. -/
theorem freeFrames_eq {k' : Allocator} {lists' : ℕ → List ℕ} (rep : Represents n k lists)
    (rep' : Represents n k' lists')
    (used : usedBlocks n k'.frame = usedBlocks n k.frame) : freeFrames n k' = freeFrames n k := by
  rw [freeFrames, freeFrames, rep'.table.covered_free, rep.table.covered_free, used]

end Represents

end BareMetal.Buddy
