import Mathlib.Data.Set.Pairwise.Basic
import Mathlib.Order.Interval.Set.Basic
import Mathlib.Tactic.Ring

/-!
# Aligned power-of-two blocks

A block of level `l` is a run of `2 ^ l` consecutive naturals; it is aligned when
its head is a multiple of `2 ^ l`. Aligned blocks are nested or disjoint, and a
block is the disjoint union of its two halves, which are each other's buddies.

A family of aligned blocks is *coalesced* below a top level when it contains no
two buddies of a lower level. The main result is that a set of naturals has at
most one coalesced decomposition into disjoint aligned blocks: two coalesced
families of disjoint blocks that cover the same naturals are equal.

## Main results

* `Block.Aligned.subset_of_mem` — aligned blocks are nested or disjoint
* `Coalesced.exists_superset` — a coalesced family that covers an aligned block
  covers it by one of its own blocks
* `Coalesced.unique` — the coalesced decomposition is unique
-/

namespace BareMetal.Math

/-- A run of `2 ^ level` naturals from `head` on. -/
@[ext]
structure Block where
  head : ℕ
  level : ℕ
deriving DecidableEq, Repr

namespace Block

variable {b c : Block} {h l m x : ℕ}

/-- The naturals of a block. -/
def cells (b : Block) : Set ℕ := Set.Ico b.head (b.head + 2 ^ b.level)

@[simp] theorem mem_cells : x ∈ b.cells ↔ b.head ≤ x ∧ x < b.head + 2 ^ b.level := Iff.rfl

theorem head_mem_cells (b : Block) : b.head ∈ b.cells :=
  ⟨le_rfl, Nat.lt_add_of_pos_right (Nat.two_pow_pos _)⟩

/-- The head is a multiple of the size. -/
def Aligned (b : Block) : Prop := 2 ^ b.level ∣ b.head

/-- A natural lies in exactly one aligned block of each level. -/
theorem Aligned.mem_iff (aligned : b.Aligned) :
    x ∈ b.cells ↔ x / 2 ^ b.level = b.head / 2 ^ b.level := by
  obtain ⟨k, hk⟩ := aligned
  have positive := Nat.two_pow_pos b.level
  rw [mem_cells, hk, Nat.mul_div_cancel_left k positive, Nat.div_eq_iff positive,
    Nat.mul_comm k]
  omega

/-- Of two aligned blocks that meet, the one of lower level lies in the other. -/
theorem Aligned.subset_of_mem (hb : b.Aligned) (hc : c.Aligned) (level : b.level ≤ c.level)
    (inb : x ∈ b.cells) (inc : x ∈ c.cells) : b.cells ⊆ c.cells := by
  intro y iny
  rw [hb.mem_iff] at inb iny
  rw [hc.mem_iff] at inc ⊢
  obtain ⟨d, hd⟩ := Nat.exists_eq_add_of_le level
  rw [hd, pow_add, ← Nat.div_div_eq_div_mul, ← Nat.div_div_eq_div_mul] at inc ⊢
  rw [iny, ← inb, inc]

/-- Aligned blocks of one level that meet are equal. -/
theorem Aligned.eq_of_mem (hb : b.Aligned) (hc : c.Aligned) (level : b.level = c.level)
    (inb : x ∈ b.cells) (inc : x ∈ c.cells) : b = c := by
  have forward := hb.subset_of_mem hc level.le inb inc b.head_mem_cells
  have backward := hc.subset_of_mem hb level.ge inc inb c.head_mem_cells
  exact Block.ext (le_antisymm backward.1 forward.1) level

/-- The lower half of a block of level `l + 1`. -/
def lower (h l : ℕ) : Block := ⟨h, l⟩

/-- The upper half of a block of level `l + 1`. -/
def upper (h l : ℕ) : Block := ⟨h + 2 ^ l, l⟩

theorem cells_halves (h l : ℕ) :
    (⟨h, l + 1⟩ : Block).cells = (lower h l).cells ∪ (upper h l).cells := by
  ext x
  have : 2 ^ (l + 1) = 2 ^ l + 2 ^ l := by ring
  simp only [mem_cells, lower, upper, Set.mem_union]
  omega

theorem aligned_lower (aligned : (⟨h, l + 1⟩ : Block).Aligned) : (lower h l).Aligned :=
  (pow_dvd_pow 2 l.le_succ).trans aligned

theorem aligned_upper (aligned : (⟨h, l + 1⟩ : Block).Aligned) : (upper h l).Aligned :=
  Nat.dvd_add (aligned_lower aligned) dvd_rfl

/-- An aligned block that ends at a natural inside another one, its head apart, starts
within that one. -/
theorem Aligned.head_add_le (aligned : b.Aligned) (inb : x ∈ b.cells) (inner : x ≠ b.head)
    (ends : 2 ^ m ∣ x) : b.head + 2 ^ m ≤ x := by
  rw [mem_cells] at inb
  have past : 0 < x - b.head := by omega
  by_cases larger : b.level ≤ m
  · -- then the distance would be a multiple of the whole size
    have dvd : 2 ^ b.level ∣ x - b.head := Nat.dvd_sub ((pow_dvd_pow 2 larger).trans ends) aligned
    have := Nat.le_of_dvd past dvd
    omega
  · have dvd : 2 ^ m ∣ x - b.head :=
      Nat.dvd_sub ends ((pow_dvd_pow 2 (not_le.mp larger).le).trans aligned)
    have := Nat.le_of_dvd past dvd
    omega

end Block

open Block

variable {top : ℕ} {B C : Set Block} {b : Block}

/-- The naturals a family of blocks covers. -/
def covered (B : Set Block) : Set ℕ := {x | ∃ b ∈ B, x ∈ b.cells}

theorem covered_insert (b : Block) (B : Set Block) :
    covered (insert b B) = b.cells ∪ covered B := by
  ext x
  simp [covered]

theorem covered_union (B C : Set Block) : covered (B ∪ C) = covered B ∪ covered C := by
  ext x
  simp only [covered, Set.mem_union, Set.mem_ofPred_eq, or_and_right, exists_or]

/-- No two buddies of a level below `top` are both in the family. -/
def Coalesced (top : ℕ) (B : Set Block) : Prop :=
  ∀ h l, l < top → 2 ^ (l + 1) ∣ h → ¬ (lower h l ∈ B ∧ upper h l ∈ B)

/-- Disjoint aligned blocks of level at most `top`. -/
structure Decomposition (top : ℕ) (B : Set Block) : Prop where
  aligned : ∀ b ∈ B, b.Aligned
  level_le : ∀ b ∈ B, b.level ≤ top
  disjoint : ∀ b ∈ B, ∀ c ∈ B, ∀ x, x ∈ b.cells → x ∈ c.cells → b = c

theorem Decomposition.mono (family : Decomposition top B) (sub : C ⊆ B) :
    Decomposition top C where
  aligned b hb := family.aligned b (sub hb)
  level_le b hb := family.level_le b (sub hb)
  disjoint b hb c hc := family.disjoint b (sub hb) c (sub hc)

/-! ## Splitting and joining -/

/-- A block of level `l + 1` replaced by its halves. -/
def splitAt (B : Set Block) (h l : ℕ) : Set Block := (B \ {⟨h, l + 1⟩}) ∪ {lower h l, upper h l}

/-- The two halves of a block of level `l + 1` replaced by the block. -/
def joinAt (B : Set Block) (h l : ℕ) : Set Block := (B \ {lower h l, upper h l}) ∪ {⟨h, l + 1⟩}

variable {h l x : ℕ}

private theorem mem_cells_parent (b : Block) (half : b = lower h l ∨ b = upper h l)
    (inb : x ∈ b.cells) : x ∈ (⟨h, l + 1⟩ : Block).cells := by
  rw [cells_halves]
  rcases half with rfl | rfl
  · exact .inl inb
  · exact .inr inb

private theorem halves_disjoint (low : x ∈ (lower h l).cells) (high : x ∈ (upper h l).cells) :
    False :=
  absurd low.2 (not_lt.mpr high.1)

theorem covered_splitAt (mem : ⟨h, l + 1⟩ ∈ B) : covered (splitAt B h l) = covered B := by
  ext x
  constructor
  · rintro ⟨b, old | half, inb⟩
    · exact ⟨b, old.1, inb⟩
    · exact ⟨_, mem, mem_cells_parent b half inb⟩
  · rintro ⟨b, hb, inb⟩
    by_cases parent : b = ⟨h, l + 1⟩
    · rw [parent, cells_halves] at inb
      rcases inb with low | high
      · exact ⟨_, .inr (.inl rfl), low⟩
      · exact ⟨_, .inr (.inr rfl), high⟩
    · exact ⟨b, .inl ⟨hb, parent⟩, inb⟩

theorem Decomposition.splitAt (family : Decomposition top B) (mem : ⟨h, l + 1⟩ ∈ B) :
    Decomposition top (splitAt B h l) where
  aligned := by
    rintro b (old | rfl | rfl)
    · exact family.aligned b old.1
    · exact aligned_lower (family.aligned _ mem)
    · exact aligned_upper (family.aligned _ mem)
  level_le := by
    have level := family.level_le _ mem
    rintro b (old | rfl | rfl)
    · exact family.level_le b old.1
    · exact Nat.le_of_succ_le level
    · exact Nat.le_of_succ_le level
  disjoint := by
    rintro b (oldb | halfb) c (oldc | halfc) x inb inc
    · exact family.disjoint b oldb.1 c oldc.1 x inb inc
    · exact absurd (family.disjoint b oldb.1 _ mem x inb (mem_cells_parent c halfc inc)) oldb.2
    · exact absurd (family.disjoint c oldc.1 _ mem x inc (mem_cells_parent b halfb inb)) oldc.2
    · rcases halfb with rfl | rfl <;> rcases halfc with rfl | rfl
      · rfl
      · exact (halves_disjoint inb inc).elim
      · exact (halves_disjoint inc inb).elim
      · rfl

theorem covered_joinAt (low : lower h l ∈ B) (high : upper h l ∈ B) :
    covered (joinAt B h l) = covered B := by
  ext x
  constructor
  · rintro ⟨b, old | rfl, inb⟩
    · exact ⟨b, old.1, inb⟩
    · rw [cells_halves] at inb
      rcases inb with inb | inb
      · exact ⟨_, low, inb⟩
      · exact ⟨_, high, inb⟩
  · rintro ⟨b, hb, inb⟩
    by_cases half : b = lower h l ∨ b = upper h l
    · exact ⟨_, .inr rfl, mem_cells_parent b half inb⟩
    · exact ⟨b, .inl ⟨hb, half⟩, inb⟩

theorem Decomposition.joinAt (family : Decomposition top B) (low : lower h l ∈ B)
    (high : upper h l ∈ B) (aligned : 2 ^ (l + 1) ∣ h) (level : l < top) :
    Decomposition top (joinAt B h l) where
  aligned := by
    rintro b (old | rfl)
    · exact family.aligned b old.1
    · exact aligned
  level_le := by
    rintro b (old | rfl)
    · exact family.level_le b old.1
    · exact level
  disjoint := by
    have apart : ∀ b ∈ B, ¬ (b = lower h l ∨ b = upper h l) → ∀ x, x ∈ b.cells →
        x ∈ (⟨h, l + 1⟩ : Block).cells → False := by
      intro b hb old x inb inside
      rw [cells_halves] at inside
      rcases inside with inside | inside
      · exact old (.inl (family.disjoint b hb _ low x inb inside))
      · exact old (.inr (family.disjoint b hb _ high x inb inside))
    rintro b (oldb | rfl) c (oldc | rfl) x inb inc
    · exact family.disjoint b oldb.1 c oldc.1 x inb inc
    · exact (apart b oldb.1 oldb.2 x inb inc).elim
    · exact (apart c oldc.1 oldc.2 x inc inb).elim
    · rfl

/-! ## Uniqueness of coalesced decompositions -/

/-- A coalesced family that covers every natural of an aligned block covers the
block by one of its own. -/
theorem Coalesced.exists_superset (coalesced : Coalesced top B) (family : Decomposition top B)
    {h l : ℕ} (aligned : (⟨h, l⟩ : Block).Aligned) (level : l ≤ top)
    (cover : (⟨h, l⟩ : Block).cells ⊆ covered B) :
    ∃ c ∈ B, l ≤ c.level ∧ h ∈ c.cells := by
  induction l generalizing h with
  | zero =>
    obtain ⟨c, inB, inc⟩ := cover (head_mem_cells _)
    exact ⟨c, inB, Nat.zero_le _, inc⟩
  | succ l ih =>
    rw [cells_halves] at cover
    obtain ⟨c, cB, cl, hc⟩ := ih (aligned_lower aligned) (by omega)
      (Set.subset_union_left.trans cover)
    obtain ⟨d, dB, dl, hd⟩ := ih (aligned_upper aligned) (by omega)
      (Set.subset_union_right.trans cover)
    rcases cl.lt_or_eq with larger | same
    · exact ⟨c, cB, larger, hc⟩
    rcases dl.lt_or_eq with larger | same'
    · -- a block above the upper half reaches down to the whole block
      refine ⟨d, dB, larger, ?_⟩
      have inside := aligned.subset_of_mem (b := ⟨h, l + 1⟩) (family.aligned d dB) larger
        (x := h + 2 ^ l) (by rw [cells_halves]; exact .inr (upper h l).head_mem_cells) hd
      exact inside (head_mem_cells _)
    · -- both halves are blocks of the family, against coalescing
      have lowerB : lower h l = c := (aligned_lower aligned).eq_of_mem (family.aligned c cB) same
        (lower h l).head_mem_cells hc
      have upperB : upper h l = d := (aligned_upper aligned).eq_of_mem (family.aligned d dB) same'
        (upper h l).head_mem_cells hd
      exact absurd ⟨lowerB ▸ cB, upperB ▸ dB⟩ (coalesced h l (by omega) aligned)

private theorem Coalesced.subset (coalescedC : Coalesced top C) (familyB : Decomposition top B)
    (coalescedB : Coalesced top B) (familyC : Decomposition top C)
    (same : covered B = covered C) : B ⊆ C := by
  intro b inB
  have alignedB := familyB.aligned b inB
  have coverB : b.cells ⊆ covered C := fun x inb => same ▸ ⟨b, inB, inb⟩
  obtain ⟨c, inC, level, hc⟩ := coalescedC.exists_superset familyC alignedB
    (familyB.level_le b inB) coverB
  have coverC : c.cells ⊆ covered B := fun x inc => same ▸ ⟨c, inC, inc⟩
  obtain ⟨d, inB', level', hd⟩ := coalescedB.exists_superset familyB (familyC.aligned c inC)
    (familyC.level_le c inC) coverC
  have head_in : b.head ∈ d.cells :=
    (familyC.aligned c inC).subset_of_mem (familyB.aligned d inB') level'
      c.head_mem_cells hd hc
  obtain rfl := familyB.disjoint b inB d inB' b.head b.head_mem_cells head_in
  exact alignedB.eq_of_mem (familyC.aligned c inC) (le_antisymm level level')
    b.head_mem_cells hc ▸ inC

/-- Two coalesced families of disjoint aligned blocks that cover the same
naturals are equal. -/
theorem Coalesced.unique (coalescedB : Coalesced top B) (coalescedC : Coalesced top C)
    (familyB : Decomposition top B) (familyC : Decomposition top C)
    (same : covered B = covered C) : B = C :=
  Set.Subset.antisymm (coalescedC.subset familyB coalescedB familyC same)
    (coalescedB.subset familyC coalescedC familyB same.symm)

end BareMetal.Math
