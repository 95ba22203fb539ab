import BareMetal.Buddy.Invariant
import BareMetal.Buddy.Level

/-!
# `merge` and `page_free`

`merge` looks at the buddy of a free block and, when it is a free block of the
same level, joins the two and goes on with the result. Each join takes both items
out of their list and puts one in front of the list above, so the block merged
next is again the head of its list: `Front` holds where `delete_page_item` needs
it. The level rises with each join, so the recursion ends within 17 calls.

While merging, the only pair of buddies that may both be free involves the block
in hand (`CoalescedBut`); when merging stops there is none.
-/

namespace BareMetal.Buddy

open CS Math Math.Block

variable {n i l fuel : ℕ} {k k' : Allocator} {lists : ℕ → List ℕ} {F : Set Block} {b : Block}

/-! ## Fuel -/

theorem merge_mono (index : ℕ) (k : Allocator) : FuelMonotone fun fuel => merge fuel index k := by
  intro fuel r h
  change merge (fuel + 1) index k = .ok r
  replace h : merge fuel index k = .ok r := h
  induction fuel generalizing index k r with
  | zero => simp [merge] at h
  | succ fuel ih =>
    rw [merge] at h ⊢
    dsimp only at h ⊢
    split_ifs at h ⊢
    all_goals first | exact h | exact ih _ _ h

/-! ## Buddies -/

/-- The index `merge` compares a block of level `l` with. -/
def buddyIndex (i l : ℕ) : ℕ := if i % (2 * 2 ^ l) ≠ 0 then i - 2 ^ l else i + 2 ^ l

/-- A block and its buddy are the two halves of an aligned block. -/
theorem buddyIndex_cases (aligned : 2 ^ l ∣ i) :
    ∃ h, 2 ^ (l + 1) ∣ h ∧
      (i = h ∧ buddyIndex i l = h + 2 ^ l ∨ i = h + 2 ^ l ∧ buddyIndex i l = h) := by
  obtain ⟨q, rfl⟩ := aligned
  have residue : 2 ^ l * q % (2 * 2 ^ l) = 2 ^ l * (q % 2) := by
    rw [Nat.mul_comm 2, Nat.mul_mod_mul_left]
  have positive := Nat.two_pow_pos l
  unfold buddyIndex
  rw [residue]
  rcases Nat.mod_two_eq_zero_or_one q with even | odd
  · refine ⟨2 ^ l * q, ?_, .inl ⟨rfl, by simp [even]⟩⟩
    rw [pow_succ]
    exact Nat.mul_dvd_mul_left _ (Nat.dvd_of_mod_eq_zero even)
  · have whole : q = q / 2 * 2 + 1 := by omega
    refine ⟨2 ^ l * (q / 2 * 2), ?_, .inr ⟨?_, ?_⟩⟩
    · rw [pow_succ]
      exact Nat.mul_dvd_mul_left _ (Dvd.intro_left _ rfl)
    · conv_lhs => rw [whole]
      ring
    · rw [if_pos (by rw [odd]; omega)]
      conv_lhs => rw [whole]
      rw [Nat.mul_add, Nat.mul_one, Nat.add_sub_cancel]

/-- The lower half of an aligned block has the upper half as its buddy. -/
theorem buddyIndex_lower {h : ℕ} (aligned : 2 ^ (l + 1) ∣ h) : buddyIndex h l = h + 2 ^ l := by
  have : h % (2 * 2 ^ l) = 0 := by
    rw [← pow_succ']
    exact Nat.mod_eq_zero_of_dvd aligned
  simp [buddyIndex, this]

/-- The upper half of an aligned block has the lower half as its buddy. -/
theorem buddyIndex_upper {h : ℕ} (aligned : 2 ^ (l + 1) ∣ h) : buddyIndex (h + 2 ^ l) l = h := by
  obtain ⟨q, rfl⟩ := aligned
  have positive := Nat.two_pow_pos l
  have residue : (2 ^ (l + 1) * q + 2 ^ l) % (2 * 2 ^ l) = 2 ^ l := by
    rw [pow_succ', Nat.mul_add_mod]
    exact Nat.mod_eq_of_lt (by omega)
  rw [buddyIndex, residue, if_pos (by omega), Nat.add_sub_cancel]

/-- Every pair of free buddies below the top involves `b`. -/
def CoalescedBut (b : Block) (F : Set Block) : Prop :=
  ∀ h l, l < 16 → 2 ^ (l + 1) ∣ h → lower h l ∈ F → upper h l ∈ F →
    lower h l = b ∨ upper h l = b

/-- A block added to a coalesced family is the only one with a free buddy. -/
theorem CoalescedBut.insert (coalesced : Coalesced 16 F) : CoalescedBut b (Insert.insert b F) := by
  intro h l level aligned low high
  rcases low with rfl | low
  · exact .inl rfl
  rcases high with rfl | high
  · exact .inr rfl
  exact absurd ⟨low, high⟩ (coalesced h l level aligned)

/-- Joining the block in hand with its buddy leaves only the joined block. -/
theorem CoalescedBut.joinAt {h : ℕ} (but : CoalescedBut b F)
    (half : b = lower h l ∨ b = upper h l) :
    CoalescedBut ⟨h, l + 1⟩ (joinAt F h l) := by
  intro h' m level aligned low high
  rcases low with low | low
  · rcases high with high | high
    · rcases but h' m level aligned low.1 high.1 with rfl | rfl
      · exact absurd half low.2
      · exact absurd half high.2
    · exact .inr high
  · exact .inl low

/-! ## One join -/

/-- The state in which `merge` has taken two buddies of level `l` out of their list. -/
def dropPair (i j : ℕ) (k : Allocator) : Allocator := deletePageItem j (deletePageItem i k)

/-- The marks `merge` leaves on the two halves of the joined block. -/
def markJoined (h l : ℕ) (k : Allocator) : Allocator :=
  (k.setIndex (h + 2 ^ l) pageFreeMark).setIndex h ((l : ℤ) + 1)

/-- The state after `merge` has joined the buddies of level `l` at `h`. -/
def joinBuddies (i j h l : ℕ) (k : Allocator) : Allocator :=
  addPageItem h (markJoined h l (dropPair i j k))

/-- The lists after two heads have left level `l`. -/
def dropLists (lists : ℕ → List ℕ) (i j l : ℕ) : ℕ → List ℕ :=
  Function.update lists l (((lists l).erase i).erase j)

/-- The lists after the buddies of level `l` at `h` are joined. -/
def joinLists (lists : ℕ → List ℕ) (i j h l : ℕ) : ℕ → List ℕ :=
  Function.update (dropLists lists i j l) (l + 1) (h :: lists (l + 1))

@[simp] theorem markJoined_mem (h l : ℕ) (k : Allocator) : (markJoined h l k).mem = k.mem := rfl

@[simp] theorem markJoined_pageList (h l : ℕ) (k : Allocator) :
    (markJoined h l k).pageList = k.pageList := rfl

theorem markJoined_index (h l : ℕ) (k : Allocator) (x : ℕ) : ((markJoined h l k).frame x).index =
    if x = h then ((l + 1 : ℕ) : ℤ) else if x = h + 2 ^ l then -1 else (k.frame x).index := by
  simp only [markJoined, Allocator.setIndex_index, pageFreeMark, Nat.cast_add, Nat.cast_one]

@[simp] theorem markJoined_status (h l : ℕ) (k : Allocator) (x : ℕ) :
    ((markJoined h l k).frame x).status = (k.frame x).status := by
  simp only [markJoined, Allocator.setIndex_status]

@[simp] theorem dropPair_frame (i j : ℕ) (k : Allocator) : (dropPair i j k).frame = k.frame := by
  simp only [dropPair, FreeLists.deletePageItem_frame]

namespace Represents

variable {j h : ℕ}

/-- Both buddies leave their list. -/
theorem dropPair (rep : Represents n k lists) (front : Front k l) (ne : i ≠ j)
    (free_i : ⟨i, l⟩ ∈ freeBlocks n k.frame) (free_j : ⟨j, l⟩ ∈ freeBlocks n k.frame) :
    FreeLists (dropPair i j k) (dropLists lists i j l) ∧
      ItemWrites (freeFrames n k) k.mem (Buddy.dropPair i j k).mem := by
  have listed_i := (rep.mem_lists i l).mpr free_i
  have listed_j := (rep.mem_lists j l).mpr free_j
  have in_free : ∀ x ∈ lists l, x ∈ freeFrames n k := fun x => rep.mem_freeFrames
  obtain ⟨fl, front'⟩ := rep.freeLists.delete free_i.1.2 listed_i front
  have level_j : ((deletePageItem i k).frame j).index = (l : ℤ) := by
    rw [FreeLists.deletePageItem_frame]
    exact free_j.1.2
  have listed_j' : j ∈ Function.update lists l ((lists l).erase i) l := by
    rw [Function.update_self]
    exact (List.mem_erase_of_ne (Ne.symm ne)).mpr listed_j
  have in_free' : ∀ x ∈ Function.update lists l ((lists l).erase i) l, x ∈ freeFrames n k := by
    rw [Function.update_self]
    exact fun x hx => in_free x (List.mem_of_mem_erase hx)
  obtain ⟨fl', -⟩ := fl.delete level_j listed_j' front'
  rw [Function.update_idem, Function.update_self] at fl'
  have first := rep.freeLists.itemWrites_delete listed_i front in_free
  exact ⟨fl', first.trans (fl.itemWrites_delete listed_j' front' in_free')⟩

theorem mem_dropLists (rep : Represents n k lists) (x m : ℕ) : x ∈ dropLists lists i j l m ↔
    x ∈ lists m ∧ ¬ (m = l ∧ (x = i ∨ x = j)) := by
  unfold dropLists
  by_cases same : m = l
  · subst same
    have distinct := rep.freeLists.nodup m
    rw [Function.update_self, (distinct.erase i).mem_erase_iff, distinct.mem_erase_iff]
    tauto
  · rw [Function.update_of_ne same]
    simp [same]

theorem mem_joinLists (rep : Represents n k lists) (x m : ℕ) : x ∈ joinLists lists i j h l m ↔
    x ∈ lists m ∧ ¬ (m = l ∧ (x = i ∨ x = j)) ∨ m = l + 1 ∧ x = h := by
  unfold joinLists
  by_cases above : m = l + 1
  · subst above
    simp [or_comm]
  · rw [Function.update_of_ne above, rep.mem_dropLists]
    simp [above]

/-- The joined block heads the list above. -/
theorem pushJoined (rep : Represents n k lists) (front : Front k l) (bound : l < 16)
    (ne : i ≠ j) (free_i : ⟨i, l⟩ ∈ freeBlocks n k.frame)
    (free_j : ⟨j, l⟩ ∈ freeBlocks n k.frame) (half : h = i ∨ h = j) :
    FreeLists (joinBuddies i j h l k) (joinLists lists i j h l) ∧
      Front (joinBuddies i j h l k) (l + 1) ∧
      ItemWrites (freeFrames n k) k.mem (joinBuddies i j h l k).mem := by
  obtain ⟨fl, writes⟩ := rep.dropPair front ne free_i free_j
  have fl' : FreeLists (markJoined h l (Buddy.dropPair i j k)) (dropLists lists i j l) :=
    fl.congr _ (markJoined_pageList ..) (markJoined_mem ..)
  have level : ((markJoined h l (Buddy.dropPair i j k)).frame h).index = ((l + 1 : ℕ) : ℤ) := by
    rw [markJoined_index, if_pos rfl]
  have listed : h ∈ lists l := by
    rcases half with rfl | rfl
    · exact (rep.mem_lists _ l).mpr free_i
    · exact (rep.mem_lists _ l).mpr free_j
  have fresh : ∀ m, h ∉ dropLists lists i j l m := by
    intro m inside
    obtain ⟨inside, absent⟩ := (rep.mem_dropLists h m).mp inside
    exact absent ⟨rep.freeLists.apart m l h inside listed, half⟩
  have unchanged : dropLists lists i j l (l + 1) = lists (l + 1) :=
    Function.update_of_ne (by omega) _ _
  obtain ⟨pushed, front'⟩ := fl'.push (l := l + 1) (by omega) level fresh
  rw [unchanged] at pushed
  have heads : ∀ x, (markJoined h l (Buddy.dropPair i j k)).pageList
      ((markJoined h l (Buddy.dropPair i j k)).frame h).index = some x → x ∈ freeFrames n k := by
    intro x hx
    rw [level] at hx
    have linked := (fl'.linked (l + 1) (by omega)).linked
    rw [hx, unchanged] at linked
    obtain ⟨tail, list, -⟩ := linked.exists_cons
    exact rep.mem_freeFrames (l := l + 1) (by simp [list])
  have added := ItemWrites.addPageItem (rep.mem_freeFrames listed) heads
  rw [markJoined_mem] at added
  exact ⟨pushed, front', writes.trans added⟩

/-- Joining two free buddies keeps the invariant. -/
theorem joinBuddies (rep : Represents n k lists) (front : Front k l)
    (bound : l < 16) (aligned : 2 ^ (l + 1) ∣ h) (low : lower h l ∈ freeBlocks n k.frame)
    (high : upper h l ∈ freeBlocks n k.frame)
    (pair : i = h ∧ j = h + 2 ^ l ∨ i = h + 2 ^ l ∧ j = h) :
    Represents n (joinBuddies i j h l k) (joinLists lists i j h l) ∧
      Front (Buddy.joinBuddies i j h l k) (l + 1) ∧
      freeBlocks n (Buddy.joinBuddies i j h l k).frame = joinAt (freeBlocks n k.frame) h l ∧
      usedBlocks n (Buddy.joinBuddies i j h l k).frame = usedBlocks n k.frame ∧
      ItemWrites (freeFrames n k) k.mem (Buddy.joinBuddies i j h l k).mem := by
  have positive := Nat.two_pow_pos l
  have ne : i ≠ j := by omega
  have free_both : ⟨i, l⟩ ∈ freeBlocks n k.frame ∧ ⟨j, l⟩ ∈ freeBlocks n k.frame := by
    rcases pair with ⟨rfl, rfl⟩ | ⟨rfl, rfl⟩
    · exact ⟨low, high⟩
    · exact ⟨high, low⟩
  obtain ⟨fl, front', writes⟩ :=
    rep.pushJoined front bound ne free_both.1 free_both.2 (h := h) (by omega)
  have frames : ∀ x, ((Buddy.joinBuddies i j h l k).frame x).index =
      if x = h then ((l + 1 : ℕ) : ℤ) else if x = h + 2 ^ l then -1 else (k.frame x).index := by
    intro x
    rw [Buddy.joinBuddies, FreeLists.addPageItem_frame, markJoined_index, dropPair_frame]
  have status : ∀ x, ((Buddy.joinBuddies i j h l k).frame x).status = (k.frame x).status := by
    intro x
    rw [Buddy.joinBuddies, FreeLists.addPageItem_frame, markJoined_status, dropPair_frame]
  obtain ⟨table, joined, used⟩ := rep.table.join low high aligned bound frames status
  refine ⟨⟨table, fl, fun x m => ?_⟩, front', joined, used, writes⟩
  have halves : (x = i ∨ x = j) ↔ (x = h ∨ x = h + 2 ^ l) := by omega
  rw [joined, rep.mem_joinLists, rep.mem_lists, halves]
  simp only [Math.joinAt, lower, upper, Set.mem_union, Set.mem_sdiff, Set.mem_singleton_iff,
    Set.mem_insert_iff, Block.mk.injEq, ← or_and_right]
  rw [and_comm (a := m = l), and_comm (a := m = l + 1)]

end Represents

/-! ## `merge` -/

/-- What one call of `merge` does with the free block `⟨i, l⟩`. -/
theorem Represents.merge_step (rep : Represents n k lists) (free : ⟨i, l⟩ ∈ freeBlocks n k.frame) :
    (∀ fuel, merge (fuel + 1) i k = .ok k) ∧
        (l = 16 ∨ ⟨buddyIndex i l, l⟩ ∉ freeBlocks n k.frame) ∨
      ∃ h, l < 16 ∧ 2 ^ (l + 1) ∣ h ∧ lower h l ∈ freeBlocks n k.frame ∧
        upper h l ∈ freeBlocks n k.frame ∧
        (i = h ∧ buddyIndex i l = h + 2 ^ l ∨ i = h + 2 ^ l ∧ buddyIndex i l = h) ∧
        ∀ fuel, merge (fuel + 1) i k =
          merge fuel h (Buddy.joinBuddies i (buddyIndex i l) h l k) := by
  have level : (k.frame i).index = (l : ℤ) := free.1.2
  have bound : l ≤ 16 := rep.table.family.level_le _ free.1
  by_cases top : l = 16
  · refine .inl ⟨fun fuel => ?_, .inl top⟩
    rw [merge, level, top, if_pos (by rfl)]
  have not_top : ¬ ((l : ℤ) = pageMaxOrder) := by unfold pageMaxOrder; omega
  have unfolded : ∀ fuel, merge (fuel + 1) i k =
      if (l : ℤ) = (k.frame (buddyIndex i l)).index then
        if (k.frame i).status = 0 ∧ (k.frame (buddyIndex i l)).status = 0 then
          let k := deletePageItem (buddyIndex i l) (deletePageItem i k)
          let inner := max i (buddyIndex i l)
          let head := min i (buddyIndex i l)
          let k := k.setIndex inner pageFreeMark
          let k := k.setIndex head ((k.frame head).index + 1)
          merge fuel head (addPageItem head k)
        else .ok k
      else .ok k := by
    intro fuel
    rw [merge, level, if_neg not_top]
    simp only [power2_eq, Int.toNat_natCast]
    rfl
  by_cases buddy_free : ⟨buddyIndex i l, l⟩ ∈ freeBlocks n k.frame
  · right
    obtain ⟨h, aligned, pair⟩ := buddyIndex_cases (i := i) (l := l)
      (rep.table.family.aligned _ free.1)
    have positive := Nat.two_pow_pos l
    have halves : lower h l ∈ freeBlocks n k.frame ∧ upper h l ∈ freeBlocks n k.frame := by
      rw [lower, upper]
      rcases pair with ⟨head, other⟩ | ⟨other, head⟩
      · rw [← head, head, ← other, ← head]
        exact ⟨free, buddy_free⟩
      · rw [← other, ← head]
        exact ⟨buddy_free, free⟩
    obtain ⟨low, high⟩ := halves
    refine ⟨h, by omega, aligned, low, high, pair, fun fuel => ?_⟩
    have inner : max i (buddyIndex i l) = h + 2 ^ l := by omega
    have head : min i (buddyIndex i l) = h := by omega
    have buddy_level : (l : ℤ) = (k.frame (buddyIndex i l)).index := buddy_free.1.2.symm
    have low_level : (k.frame h).index = (l : ℤ) := low.1.2
    rw [unfolded, if_pos buddy_level, if_pos ⟨free.2, buddy_free.2⟩]
    dsimp only
    rw [inner, head, Allocator.setIndex_index, if_neg (by omega), FreeLists.deletePageItem_frame,
      FreeLists.deletePageItem_frame, low_level]
    rfl
  · -- the buddy is used, or has another level
    refine .inl ⟨fun fuel => ?_, .inr buddy_free⟩
    rw [unfolded]
    split_ifs with same_level zeros
    · exfalso
      by_cases inside : buddyIndex i l < n
      · exact buddy_free ⟨⟨inside, same_level.symm⟩, zeros.2⟩
      · exact rep.table.beyond _ (not_lt.mp inside) ⟨by omega, by omega, zeros.2⟩
    · rfl
    · rfl

/-- **`merge` returns**, keeps the invariant and the used blocks, and leaves no
two free buddies below the top level if there were none but the block in hand's. -/
theorem Represents.merge_ok (rep : Represents n k lists) (front : Front k l)
    (free : ⟨i, l⟩ ∈ freeBlocks n k.frame) (enough : 16 < l + fuel) :
    ∃ k', merge fuel i k = .ok k' ∧ WellFormed n k' ∧
      usedBlocks n k'.frame = usedBlocks n k.frame ∧
      ItemWrites (freeFrames n k) k.mem k'.mem ∧
      (CoalescedBut ⟨i, l⟩ (freeBlocks n k.frame) → Coalesced 16 (freeBlocks n k'.frame)) := by
  induction fuel generalizing i l k lists with
  | zero =>
    have : l ≤ 16 := rep.table.family.level_le _ free.1
    omega
  | succ fuel ih =>
    rcases rep.merge_step free with ⟨stop, alone⟩ | ⟨h, bound, aligned, low, high, pair, step⟩
    · -- nothing is joined; a free pair left over would be the block and its buddy
      refine ⟨k, stop fuel, ⟨lists, rep⟩, rfl, ItemWrites.refl _ _, fun but => ?_⟩
      rintro h m level aligned ⟨low, high⟩
      rcases but h m level aligned low high with same | same
      · obtain ⟨rfl, rfl⟩ := Block.mk.inj same
        rcases alone with top | alone
        · omega
        · rw [buddyIndex_lower aligned] at alone
          exact alone high
      · obtain ⟨rfl, rfl⟩ := Block.mk.inj same
        rcases alone with top | alone
        · omega
        · rw [buddyIndex_upper aligned] at alone
          exact alone low
    · -- the buddies are joined, and the recursion goes on with the larger block
      obtain ⟨rep', front', joined, used, writes⟩ :=
        rep.joinBuddies front bound aligned low high pair
      have free' : (⟨h, l + 1⟩ : Block) ∈
          freeBlocks n (Buddy.joinBuddies i (buddyIndex i l) h l k).frame := by
        rw [joined]
        exact .inr rfl
      obtain ⟨k', run, wf, used', writes', coalesced⟩ := ih rep' front' free' (by omega)
      rw [rep.freeFrames_eq rep' used] at writes'
      refine ⟨k', by rw [step, run], wf, used'.trans used, writes.trans writes', fun but => ?_⟩
      refine coalesced ?_
      rw [joined]
      refine but.joinAt ?_
      rcases pair with ⟨rfl, -⟩ | ⟨rfl, -⟩
      · exact .inl rfl
      · exact .inr rfl

/-! ## `page_free` -/

theorem pageFree_mono (index : ℕ) (k : Allocator) :
    FuelMonotone fun fuel => pageFree fuel index k :=
  merge_mono _ _

/-- The state in which `page_free` starts to merge. -/
def giveBack (l i : ℕ) (k : Allocator) : Allocator :=
  ((addPageItem i k).setStatus i 0).markFrames i pageFreeMark (2 ^ l - 1)

/-- Giving a used block back keeps the invariant, and the block heads its list. -/
theorem Represents.giveBack (rep : Represents n k lists) (used : ⟨i, l⟩ ∈ usedBlocks n k.frame) :
    Represents n (giveBack l i k) (Function.update lists l (i :: lists l)) ∧
      Front (Buddy.giveBack l i k) l ∧
      freeBlocks n (Buddy.giveBack l i k).frame = insert ⟨i, l⟩ (freeBlocks n k.frame) ∧
      usedBlocks n (Buddy.giveBack l i k).frame = usedBlocks n k.frame \ {⟨i, l⟩} := by
  have positive := Nat.two_pow_pos l
  have level : (k.frame i).index = (l : ℤ) := used.1.2
  have one : (k.frame i).status = 1 := used.2
  have fresh := rep.not_listed (i := i) (by rw [one]; simp)
  have bound : l ≤ 16 := rep.table.family.level_le _ used.1
  obtain ⟨fl, front⟩ := rep.freeLists.push bound level fresh
  -- the inner frames get another mark, and were negative
  have marks : ∀ j, ((Buddy.giveBack l i k).frame j).index = (k.frame j).index ∨
      j < n ∧ ((Buddy.giveBack l i k).frame j).index < 0 ∧ (k.frame j).index < 0 := by
    intro j
    rw [Buddy.giveBack, Allocator.markFrames_index, Allocator.setStatus_index,
      FreeLists.addPageItem_frame]
    split_ifs with inner
    · have inside : j ∈ (⟨i, l⟩ : Block).cells := ⟨by simp only; omega, by simp only; omega⟩
      refine .inr ⟨rep.table.lt_of_mem used.1 inside, by decide, ?_⟩
      exact rep.table.inner_neg used.1 inside (by simp only; omega)
    · exact .inl rfl
  have status : ∀ j, ((Buddy.giveBack l i k).frame j).status =
      if j = i then 0 else (k.frame j).status := by
    intro j
    rw [Buddy.giveBack, Allocator.markFrames_status, Allocator.setStatus_status,
      FreeLists.addPageItem_frame]
  obtain ⟨table, free', used'⟩ := rep.table.give used marks status
  have fl' : FreeLists (Buddy.giveBack l i k) (Function.update lists l (i :: lists l)) :=
    fl.congr _ (by simp [Buddy.giveBack]) (by simp [Buddy.giveBack])
  refine ⟨⟨table, fl', fun j m => ?_⟩, ?_, free', used'⟩
  · -- the block is the new head of its list
    have old := rep.mem_lists j m
    rw [free', Set.mem_insert_iff, ← old, Block.mk.injEq]
    by_cases same : m = l
    · subst same
      rw [Function.update_self, List.mem_cons]
      tauto
    · rw [Function.update_of_ne same]
      tauto
  · unfold Front at front ⊢
    simpa [Buddy.giveBack] using front

/-- What `page_free` of the used block `b` does. -/
structure FreeEffect (n : ℕ) (b : Block) (k k' : Allocator) : Prop where
  wellFormed : WellFormed n k'
  used : usedBlocks n k'.frame = usedBlocks n k.frame \ {b}
  coalesced : Coalesced 16 (freeBlocks n k.frame) → Coalesced 16 (freeBlocks n k'.frame)
  writes : ItemWrites (freeFrames n k ∪ b.cells) k.mem k'.mem

/-- **`page_free` of a used block returns**, and has given the block back. -/
theorem Represents.pageFree_ok (rep : Represents n k lists)
    (used : ⟨i, l⟩ ∈ usedBlocks n k.frame) (enough : 16 < fuel) :
    ∃ k', pageFree fuel i k = .ok k' ∧ FreeEffect n ⟨i, l⟩ k k' := by
  have level : (k.frame i).index = (l : ℤ) := used.1.2
  have bound : l ≤ 16 := rep.table.family.level_le _ used.1
  obtain ⟨rep', front, free', used'⟩ := rep.giveBack used
  have free : ⟨i, l⟩ ∈ freeBlocks n (Buddy.giveBack l i k).frame := by
    rw [free']
    exact Set.mem_insert _ _
  obtain ⟨k', run, wf, same, writes, coalesced⟩ :=
    rep'.merge_ok front free (show 16 < l + fuel by omega)
  -- `merge` writes to the items of free frames, now also to those of the block
  have frames : freeFrames n (Buddy.giveBack l i k) = freeFrames n k ∪ (⟨i, l⟩ : Block).cells := by
    ext x
    simp only [freeFrames, covered, free', Set.mem_ofPred_eq, Set.mem_union]
    constructor
    · rintro ⟨c, rfl | hc, inc⟩
      · exact .inr inc
      · exact .inl ⟨c, hc, inc⟩
    · rintro (⟨c, hc, inc⟩ | inc)
      · exact ⟨c, Set.mem_insert_of_mem _ hc, inc⟩
      · exact ⟨_, Set.mem_insert _ _, inc⟩
  refine ⟨k', ?_, wf, same.trans used', fun before => ?_, ?_⟩
  · rw [pageFree, level, power2_eq, Int.toNat_natCast]
    exact run
  · refine coalesced ?_
    rw [free']
    exact CoalescedBut.insert before
  · rw [frames] at writes
    refine ItemWrites.trans ?_ writes
    rw [show (Buddy.giveBack l i k).mem = (addPageItem i k).mem by simp [Buddy.giveBack]]
    refine ItemWrites.addPageItem (.inr (head_mem_cells _)) fun j hj => .inl ?_
    rw [level] at hj
    obtain ⟨tail, list, -⟩ := (hj ▸ (rep.freeLists.linked l bound).linked :
      Linked _ (some j) _).exists_cons
    exact rep.mem_freeFrames (l := l) (by simp [list])

end BareMetal.Buddy
