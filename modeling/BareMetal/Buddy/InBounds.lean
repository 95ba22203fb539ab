import BareMetal.Buddy.Checked
import BareMetal.Buddy.Completeness
import BareMetal.Pool.Model
import Mathlib.Tactic.IntervalCases

/-!
# Accesses outside of the tables

`log2` caps the order it returns, but `page_allocate` adds one to it: a request for more
than `2^16` pages looks at `page_list[17]`. And `merge` looks at the buddy of every block
below the top level. The table ends in the middle of a block of level 15, so the block of
level 14 in front of the end has its buddy behind it, and a block that is merged up to this
one takes `merge` there. Last, a list that `page_divide` could not fill is still empty, and
`page_allocate` takes what lies at address 0 for an index.

## Main results

* `Represents.allocate_inBounds_iff`, `Represents.free_inBounds_iff` — one call
* `Run.tables_bounded` — runs whose calls avoid these three cases
-/

namespace BareMetal.Buddy

open CS Math Math.Block
open Pool (pageMaxEntry)

variable {n i l fuel size : ℕ} {k k' : Allocator} {lists : ℕ → List ℕ} {rest : List ℕ}

/-- The call passes its checks, at every depth of its recursion. -/
def InBounds {α : Type} (call : ℕ → Outcome α) : Prop := ∀ fuel, call fuel ≠ .error .outOfBounds

/-! ## `page_allocate` -/

theorem checkedMarkFrames_ok {index count : ℕ} (inside : index + count < n) (mark : ℤ)
    (k : Allocator) :
    checkedMarkFrames n index mark count k = .ok (k.markFrames index mark count) := by
  induction count with
  | zero => rfl
  | succ count ih =>
    rw [checkedMarkFrames, ih (by omega), outcome_bind_ok, checkFrame_ok inside, outcome_bind_ok]
    rfl

theorem checkedMarkFrames_error {index count : ℕ} (inside : index < n) (past : n ≤ index + count)
    (mark : ℤ) (k : Allocator) :
    checkedMarkFrames n index mark count k = .error .outOfBounds := by
  induction count with
  | zero => omega
  | succ count ih =>
    by_cases fits : index + count < n
    · rw [checkedMarkFrames, checkedMarkFrames_ok fits, outcome_bind_ok,
        checkFrame_error (by exact_mod_cast past), outcome_bind_error]
    · rw [checkedMarkFrames, ih (not_lt.mp fits), outcome_bind_error]

theorem checkedAddPageItem_ok (inside : i < n) (bound : l ≤ 16) (level : (k.frame i).index = l) :
    checkedAddPageItem n i k = .ok (addPageItem i k) := by
  rw [checkedAddPageItem, checkFrame_ok inside, outcome_bind_ok, level, checkList_ok bound]
  rfl

theorem checkedDeletePageItem_ok (inside : i < n) (bound : l ≤ 16)
    (level : (k.frame i).index = l) :
    checkedDeletePageItem n i k = .ok (deletePageItem i k) := by
  rw [checkedDeletePageItem, checkFrame_ok inside, outcome_bind_ok, level, checkList_ok bound]
  split <;> rfl

namespace Represents

/-- The split of the head of a list passes its checks. -/
theorem checkedPageDivide_cons (rep : Represents n k lists) (head : lists (l + 1) = i :: rest)
    (fuel : ℕ) :
    checkedPageDivide n (fuel + 1) ((l : ℤ) + 1) k = pageDivide (fuel + 1) ((l : ℤ) + 1) k := by
  have cast : ((l : ℤ) + 1) = ((l + 1 : ℕ) : ℤ) := by push_cast; rfl
  have positive := Nat.two_pow_pos l
  have free := rep.free_of_cons head
  have bound : l + 1 ≤ 16 := rep.table.family.level_le _ free.1
  have fits : i + 2 ^ (l + 1) ≤ n := rep.table.fits free.1
  rw [pow_succ] at fits
  have pred : ((l + 1 : ℕ) : ℤ) - 1 = l := by push_cast; ring
  have level : (k.frame i).index - 1 = l := by
    rw [show (k.frame i).index = ((l + 1 : ℕ) : ℤ) from free.1.2, pred]
  rw [checkedPageDivide, pageDivide, cast, checkList_ok bound, outcome_bind_ok,
    rep.freeLists.pageList_of_cons head]
  dsimp only
  rw [rep.itemIndex_of_cons head, pred, power2_eq, Int.toNat_natCast,
    checkFrame_ok (show i < n by omega), outcome_bind_ok, level,
    checkedAddPageItem_ok (l := l) (by omega) (by omega)
      (by rw [Allocator.setIndex_index, if_pos rfl]), outcome_bind_ok,
    checkFrame_ok (show i + 2 ^ l < n by omega), outcome_bind_ok]
  exact checkedAddPageItem_ok (l := l) (by omega) (by omega)
    (by rw [Allocator.setIndex_index, if_pos rfl])

/-- `page_divide` passes its checks. -/
theorem checkedPageDivide_eq (rep : Represents n k lists) (bound : l < 16) (fuel : ℕ) :
    checkedPageDivide n fuel ((l : ℤ) + 1) k = pageDivide fuel ((l : ℤ) + 1) k := by
  induction fuel generalizing k lists l with
  | zero => rfl
  | succ fuel ih =>
    cases head : lists (l + 1) with
    | cons i rest => exact rep.checkedPageDivide_cons head fuel
    | nil =>
      have null : k.pageList ((l : ℤ) + 1) = none := by
        exact_mod_cast rep.freeLists.pageList_of_nil (l := l + 1) (by omega) head
      have inside : checkList ((l : ℤ) + 1) = .ok () := by
        exact_mod_cast checkList_ok (l := l + 1) (by omega)
      rw [pageDivide_of_null null, checkedPageDivide, inside, outcome_bind_ok, null]
      dsimp only
      split_ifs with low
      · have above : (l : ℤ) + 1 + 1 = ((l + 1 : ℕ) : ℤ) + 1 := by push_cast; rfl
        rw [above, ih rep (by omega)]
        cases first : pageDivide fuel (((l + 1 : ℕ) : ℤ) + 1) k with
        | error e => rfl
        | ok k₁ =>
          rw [outcome_bind_ok, outcome_bind_ok]
          rcases rep.pageDivide_ok (show l + 1 < 16 by omega) first with
            ⟨rfl, -⟩ | ⟨lists₁, rep₁, -⟩
          · exact ih rep bound
          · exact ih rep₁ bound
      · rfl

/-- Taking the head of a list passes its checks. -/
theorem checkedTakeFirst_cons (rep : Represents n k lists) (head : lists l = i :: rest) :
    checkedTakeFirst n l k = takeFirst l k := by
  have free := rep.free_of_cons head
  have bound : l ≤ 16 := rep.table.family.level_le _ free.1
  have fits : i + 2 ^ l ≤ n := rep.table.fits free.1
  have positive := Nat.two_pow_pos l
  rw [checkedTakeFirst, takeFirst, checkList_ok bound, outcome_bind_ok,
    rep.freeLists.pageList_of_cons head]
  dsimp only
  rw [rep.itemIndex_of_cons head, checkFrame_ok (by omega), outcome_bind_ok, power2_eq,
    Int.toNat_natCast, checkedMarkFrames_ok (by omega)]
  rfl

end Represents

/-- The word at address 0 is the number of a frame, with room behind it for a block of level
`l`. -/
def NullIndex (n : ℕ) (k : Allocator) (l : ℕ) : Prop :=
  0 ≤ toInt32 (k.mem.load 0 4) ∧ toInt32 (k.mem.load 0 4) + 2 ^ l ≤ n

/-- On an empty list the index is the word at address 0. -/
theorem checkedTakeFirst_null (bound : l ≤ 16) (null : k.pageList l = none) :
    checkedTakeFirst n l k = .error .outOfBounds ↔ ¬ NullIndex n k l := by
  have positive : (0 : ℤ) < 2 ^ l := by positivity
  rw [checkedTakeFirst, checkList_ok bound, outcome_bind_ok, null, power2_eq, Int.toNat_natCast]
  dsimp only
  unfold NullIndex
  by_cases inside : 0 ≤ toInt32 (k.mem.load 0 4) ∧ toInt32 (k.mem.load 0 4) < n
  · obtain ⟨word, value⟩ := Int.eq_ofNat_of_zero_le inside.1
    rw [value] at inside ⊢
    have below : word < n := by exact_mod_cast inside.2
    rw [checkFrame_ok below, outcome_bind_ok, Int.toNat_natCast]
    -- the frames behind the first are marked too
    by_cases fits : word + (2 ^ l - 1) < n
    · have room : (word : ℤ) + 2 ^ l ≤ n := by
        have := Nat.two_pow_pos l
        exact_mod_cast (show word + 2 ^ l ≤ n by omega)
      rw [checkedMarkFrames_ok fits, outcome_bind_ok]
      simp [room]
    · have short : ¬ (word : ℤ) + 2 ^ l ≤ n := by
        have := Nat.two_pow_pos l
        exact_mod_cast (show ¬ word + 2 ^ l ≤ n by omega)
      rw [checkedMarkFrames_error below (not_lt.mp fits), outcome_bind_error]
      simp [short]
  · rw [checkFrame, if_neg inside, outcome_bind_error]
    refine iff_of_true rfl fun fits => inside ⟨fits.1, ?_⟩
    omega

theorem pageDivide_error {level : ℤ} {e : Fault} (fails : pageDivide fuel level k = .error e) :
    e = .outOfFuel := by
  induction fuel generalizing level k with
  | zero => exact (Except.error.inj fails).symm
  | succ fuel ih =>
    rw [pageDivide] at fails
    split at fails
    · cases fails
    · split_ifs at fails
      cases first : pageDivide fuel (level + 1) k with
      | error e' =>
        rw [first] at fails
        obtain rfl : e' = e := Except.error.inj fails
        exact ih first
      | ok k₁ =>
        rw [first] at fails
        exact ih fails

/-- In a searchable state `page_divide` has filled the list. -/
theorem Represents.divided_of_searchable (rep : Represents n k lists) (bound : l < 16)
    (empty : lists l = []) (search : Searchable k l) {k₁ : Allocator}
    (divided : pageDivide fuel ((l : ℤ) + 1) k = .ok k₁) :
    checkedTakeFirst n l k₁ = takeFirst l k₁ := by
  rcases rep.pageDivide_ok bound divided with ⟨same, -⟩ | ⟨lists₁, rep₁, -, effect, -⟩
  · exfalso
    have level := levelFor_block l
    have positive : 0 < 2 ^ l * 0x1000 := Nat.mul_pos (Nat.two_pow_pos l) (by decide)
    have large : 2 ^ l * 0x1000 ≤ maxRequest :=
      Nat.mul_le_mul_right _ (Nat.pow_le_pow_right (by decide) bound.le)
    obtain ⟨fuel', r, returns⟩ :=
      rep.pageAllocate_returns positive large (level.symm ▸ search)
    rw [rep.pageAllocate_nil positive large (level.symm ▸ empty), level, if_pos bound] at returns
    obtain ⟨k₂, divided', taken⟩ := outcome_bind_eq_ok.mp returns
    obtain rfl : k₁ = k₂ := (pageDivide_mono _ k).returns_unique ⟨fuel, divided⟩ ⟨fuel', divided'⟩
    rw [same, rep.takeFirst_nil bound.le empty] at taken
    cases taken
  · obtain ⟨a, b, new⟩ := effect.halves
    exact rep₁.checkedTakeFirst_cons new

theorem Represents.divide_inBounds_iff (rep : Represents n k lists) (bound : l < 16)
    (empty : lists l = []) :
    InBounds (fun fuel => pageDivide fuel ((l : ℤ) + 1) k >>= checkedTakeFirst n l) ↔
      (4 ≤ l → ¬ Searchable k l → NullIndex n k l) := by
  have null := rep.freeLists.pageList_of_nil bound.le empty
  constructor
  · intro inside high stuck
    -- `page_divide` gives up at once
    have above : k.pageList ((l : ℤ) + 1) = none := by
      by_contra found
      exact stuck (.inr (.inr ⟨l + 1, by omega, by omega, by exact_mod_cast found⟩))
    by_contra outside
    apply inside 1
    dsimp only
    rw [pageDivide_gives_up above (by omega), outcome_bind_ok]
    exact (checkedTakeFirst_null bound.le null).mpr outside
  · intro word fuel
    dsimp only
    cases divided : pageDivide fuel ((l : ℤ) + 1) k with
    | error e =>
      obtain rfl := pageDivide_error divided
      simp
    | ok k₁ =>
      rw [outcome_bind_ok]
      by_cases search : Searchable k l
      · rw [rep.divided_of_searchable bound empty search divided, takeFirst]
        split <;> simp
      · have high : 4 ≤ l := by
          by_contra low
          simp only [Searchable, not_or, not_exists, not_and, not_not] at search
          -- at level 4 and below `page_divide` would climb for ever
          have diverges : pageDivide fuel ((l : ℤ) + 1) k = .error .outOfFuel := by
            apply pageDivide_diverges (by omega)
            intro m from_level to_five
            have := search.2.2 m.toNat (by omega) (by omega)
            rwa [Int.toNat_of_nonneg (by omega)] at this
          rw [diverges] at divided
          cases divided
        have above : k.pageList ((l : ℤ) + 1) = none := by
          by_contra found
          exact search (.inr (.inr ⟨l + 1, by omega, by omega, by exact_mod_cast found⟩))
        obtain rfl : k = k₁ := by
          cases fuel with
          | zero => cases divided
          | succ fuel =>
            rw [pageDivide_gives_up above (by omega)] at divided
            exact Except.ok.inj divided
        exact fun outside => (checkedTakeFirst_null bound.le null).mp outside (word high search)

/-- A request that stays in the tables: its level is not 17, and `page_allocate` finds a
block, or else what it takes for the index has room for one. -/
structure AllocateFits (n : ℕ) (k : Allocator) (size : ℕ) : Prop where
  level : pagesLessOne size < 2 ^ 16 ∨ 2 ^ 30 ≤ pagesLessOne size
  word : pagesLessOne size < 2 ^ 16 → 4 ≤ (pagesLessOne size).toNat.size →
    ¬ Searchable k (pagesLessOne size).toNat.size → NullIndex n k (pagesLessOne size).toNat.size

/-- **`page_allocate` stays in its tables** exactly for these requests. -/
theorem Represents.allocate_inBounds_iff (rep : Represents n k lists) (size : ℕ) :
    InBounds (fun fuel => checkedPageAllocate n fuel size k) ↔ AllocateFits n k size := by
  -- levels up to 16 are those of the tables
  by_cases small : pagesLessOne size < 2 ^ 16
  · have level := pageLevel_of_lt small
    have bound : (pagesLessOne size).toNat.size ≤ 16 := Nat.size_le.mpr (by omega)
    have fits : AllocateFits n k size ↔ (4 ≤ (pagesLessOne size).toNat.size →
        ¬ Searchable k (pagesLessOne size).toNat.size →
          NullIndex n k (pagesLessOne size).toNat.size) :=
      ⟨fun fits => fits.word small, fun word => ⟨.inl small, fun _ => word⟩⟩
    rw [fits]
    generalize (pagesLessOne size).toNat.size = l at level bound
    have unfolded : ∀ fuel, checkedPageAllocate n fuel size k =
        if k.pageList l = none then
          if (l : ℤ) < pageMaxOrder then
            checkedPageDivide n fuel ((l : ℤ) + 1) k >>= checkedTakeFirst n l
          else .ok (-1, k)
        else checkedTakeFirst n l k := by
      intro fuel
      rw [checkedPageAllocate, level, outcome_bind_ok, checkList_ok bound, outcome_bind_ok]
      rfl
    simp only [InBounds, unfolded]
    cases head : lists l with
    | cons i rest =>
      have found := rep.freeLists.pageList_of_cons head
      refine iff_of_true (fun fuel => ?_) fun _ stuck => absurd ?_ stuck
      · -- the head of the list is taken
        rw [if_neg (by simp [found]), rep.checkedTakeFirst_cons head, rep.takeFirst_cons head]
        simp
      · exact .inr (.inl (by simp [found]))
    | nil =>
      simp only [if_pos (rep.freeLists.pageList_of_nil bound head)]
      by_cases top : l = 16
      · -- the top list is empty, and nothing else is looked at
        refine iff_of_true (fun fuel => ?_) fun _ stuck => absurd (.inl top) stuck
        rw [top, if_neg (by unfold pageMaxOrder; omega)]
        simp
      · have below : l < 16 := by omega
        have low : (l : ℤ) < pageMaxOrder := by unfold pageMaxOrder; omega
        simp only [if_pos low, rep.checkedPageDivide_eq below]
        exact rep.divide_inBounds_iff below head
  · by_cases wide : 2 ^ 30 ≤ pagesLessOne size
    · -- the loop for the level does not end, so no list is looked at
      refine iff_of_true (fun fuel => ?_) ⟨.inr wide, fun below => absurd below small⟩
      dsimp only
      rw [checkedPageAllocate, pageLevel_diverges wide, outcome_bind_error]
      simp
    · -- level 17
      refine iff_of_false (fun inside => inside 0 ?_) fun fits => ?_
      · dsimp only
        rw [checkedPageAllocate, pageLevel_of_ge (not_lt.mp small) (not_le.mp wide),
          outcome_bind_ok]
        rfl
      · exact fits.level.elim small wide

/-! ## `page_free` -/

/-- A block that merges up to the last block of level 14: it lies in there, and the buddy of
every block on the way up is one of the free blocks `F`. -/
def ReachesEnd (F : Set Block) (b : Block) : Prop :=
  0x38000 ≤ b.head ∧ ∀ m, b.level ≤ m → m < 14 →
    ⟨buddyIndex (b.head / 2 ^ m * 2 ^ m) m, m⟩ ∈ F

/-- Only the last block of level 14 has its buddy outside of the table. -/
theorem buddyIndex_lt {m h : ℕ} (below : m < 16) (aligned : 2 ^ m ∣ h)
    (fits : h + 2 ^ m ≤ pageMaxEntry) (other : ¬ (h = 0x38000 ∧ m = 14)) :
    buddyIndex h m < pageMaxEntry := by
  unfold buddyIndex
  unfold pageMaxEntry at fits ⊢
  split_ifs with odd
  · have := Nat.two_pow_pos m
    omega
  · interval_cases m <;> omega

theorem buddyIndex_ne (i l : ℕ) : buddyIndex i l ≠ i := by
  have positive := Nat.two_pow_pos l
  unfold buddyIndex
  split_ifs with odd
  · have : i ≠ 0 := by
      rintro rfl
      exact odd (Nat.zero_mod _)
    omega
  · omega

/-- One call of `merge` on a block whose buddy is in the table. -/
theorem Represents.checkedMerge_step (rep : Represents n k lists)
    (free : ⟨i, l⟩ ∈ freeBlocks n k.frame) (inside : l < 16 → buddyIndex i l < n) :
    (∀ fuel, checkedMerge n (fuel + 1) i k = .ok k) ∧
        (l = 16 ∨ ⟨buddyIndex i l, l⟩ ∉ freeBlocks n k.frame) ∨
      ∃ h, l < 16 ∧ 2 ^ (l + 1) ∣ h ∧ lower h l ∈ freeBlocks n k.frame ∧
        upper h l ∈ freeBlocks n k.frame ∧
        (i = h ∧ buddyIndex i l = h + 2 ^ l ∨ i = h + 2 ^ l ∧ buddyIndex i l = h) ∧
        ∀ fuel, checkedMerge n (fuel + 1) i k =
          checkedMerge n fuel h (Buddy.joinBuddies i (buddyIndex i l) h l k) := by
  have level : (k.frame i).index = (l : ℤ) := free.1.2
  have bound : l ≤ 16 := rep.table.family.level_le _ free.1
  have in_table : checkFrame n i = .ok () := checkFrame_ok free.1.1
  by_cases top : l = 16
  · refine .inl ⟨fun fuel => ?_, .inl top⟩
    rw [checkedMerge, in_table, outcome_bind_ok, level, top, if_pos (by rfl)]
    rfl
  have not_top : ¬ ((l : ℤ) = pageMaxOrder) := by unfold pageMaxOrder; omega
  have buddy_in_table : checkFrame n (if i % (2 * 2 ^ l) ≠ 0 then (i : ℤ) - (2 ^ l : ℕ)
      else i + (2 ^ l : ℕ)) = .ok () := by
    have lt := inside (by omega)
    have positive := Nat.two_pow_pos l
    unfold buddyIndex at lt
    apply if_pos
    split_ifs at lt ⊢ with odd
    · have le : 2 ^ l ≤ i := by
        obtain ⟨q, rfl⟩ : 2 ^ l ∣ i := rep.table.family.aligned _ free.1
        rcases Nat.eq_zero_or_pos q with rfl | positive
        · exact absurd (Nat.zero_mod _) odd
        · exact Nat.le_mul_of_pos_right _ positive
      omega
    · omega
  -- the checks of the block and of its buddy pass
  have unfolded : ∀ fuel, checkedMerge n (fuel + 1) i k =
      if (l : ℤ) = (k.frame (buddyIndex i l)).index then
        if (k.frame i).status = 0 ∧ (k.frame (buddyIndex i l)).status = 0 then
          checkedDeletePageItem n i k >>= checkedDeletePageItem n (buddyIndex i l) >>= fun k =>
            let inner := max i (buddyIndex i l)
            let head := min i (buddyIndex i l)
            let k := k.setIndex inner pageFreeMark
            let k := k.setIndex head ((k.frame head).index + 1)
            checkedAddPageItem n head k >>= checkedMerge n fuel head
        else .ok k
      else .ok k := by
    intro fuel
    rw [checkedMerge, in_table, outcome_bind_ok, level, if_neg not_top]
    simp only [power2_eq, Int.toNat_natCast]
    rw [buddy_in_table, outcome_bind_ok, bind_assoc]
    rfl
  by_cases buddy_free : ⟨buddyIndex i l, l⟩ ∈ freeBlocks n k.frame
  · rcases rep.merge_step free with ⟨-, same | alone⟩ | ⟨h, below, aligned, low, high, pair, -⟩
    · exact absurd same top
    · exact absurd buddy_free alone
    · -- all stores of the branch are to the two halves
      refine .inr ⟨h, below, aligned, low, high, pair, fun fuel => ?_⟩
      have positive := Nat.two_pow_pos l
      have inner : max i (buddyIndex i l) = h + 2 ^ l := by omega
      have head : min i (buddyIndex i l) = h := by omega
      have low_level : (k.frame h).index = (l : ℤ) := low.1.2
      have buddy_level : (k.frame (buddyIndex i l)).index = (l : ℤ) := buddy_free.1.2
      rw [unfolded, if_pos buddy_level.symm, if_pos ⟨free.2, buddy_free.2⟩,
        checkedDeletePageItem_ok free.1.1 bound level, outcome_bind_ok,
        checkedDeletePageItem_ok buddy_free.1.1 bound
          (by rw [FreeLists.deletePageItem_frame]; exact buddy_level), outcome_bind_ok]
      dsimp only
      rw [inner, head, Allocator.setIndex_index, if_neg (by omega), FreeLists.deletePageItem_frame,
        FreeLists.deletePageItem_frame, low_level]
      change (checkedAddPageItem n h (markJoined h l (Buddy.dropPair i (buddyIndex i l) k)) >>=
        _) = _
      have in_table : h < n := low.1.1
      rw [checkedAddPageItem_ok (l := l + 1) in_table (by omega)
        (by rw [markJoined_index, if_pos rfl])]
      rfl
  · refine .inl ⟨fun fuel => ?_, .inr buddy_free⟩
    rw [unfolded]
    split_ifs with same_level zeros
    · exact absurd ⟨⟨inside (by omega), same_level.symm⟩, zeros.2⟩ buddy_free
    · rfl
    · rfl

/-- The way up of a joined block is the rest of the way of its halves. -/
theorem ReachesEnd.joinAt_iff {F : Set Block} {h : ℕ} (below : l < 16) (aligned : 2 ^ (l + 1) ∣ h)
    (fits : h + 2 ^ (l + 1) ≤ pageMaxEntry)
    (pair : i = h ∧ buddyIndex i l = h + 2 ^ l ∨ i = h + 2 ^ l ∧ buddyIndex i l = h)
    (buddy : ⟨buddyIndex i l, l⟩ ∈ F) :
    ReachesEnd (joinAt F h l) ⟨h, l + 1⟩ ↔ ReachesEnd F ⟨i, l⟩ := by
  have positive := Nat.two_pow_pos l
  have double : 2 ^ (l + 1) = 2 ^ l * 2 := pow_succ 2 l
  have inside : i ∈ (⟨h, l + 1⟩ : Block).cells := ⟨by simp only; omega, by simp only; omega⟩
  have own : i / 2 ^ l * 2 ^ l = i := by
    apply Nat.div_mul_cancel
    rcases pair with ⟨rfl, -⟩ | ⟨rfl, -⟩
    · exact (pow_dvd_pow 2 (Nat.le_succ l)).trans aligned
    · exact Nat.dvd_add ((pow_dvd_pow 2 (Nat.le_succ l)).trans aligned) dvd_rfl
  have above : ∀ m, l + 1 ≤ m → i / 2 ^ m = h / 2 ^ m := by
    intro m le
    have same := (Block.Aligned.mem_iff (b := ⟨h, l + 1⟩) aligned).mp inside
    obtain ⟨d, rfl⟩ := Nat.exists_eq_add_of_le le
    rw [pow_add, ← Nat.div_div_eq_div_mul, ← Nat.div_div_eq_div_mul, same]
  have range : 0x38000 ≤ h ↔ 0x38000 ≤ i := by
    refine ⟨fun le => by omega, fun le => ?_⟩
    unfold pageMaxEntry at fits
    interval_cases l <;> omega
  constructor
  · rintro ⟨low, way⟩
    refine ⟨range.mp low, fun m le lt => ?_⟩
    -- the lowest buddy on the way is the one that was joined
    rcases Nat.eq_or_lt_of_le le with rfl | above_l
    · exact own.symm ▸ buddy
    · rcases way m above_l lt with old | joined
      · exact (above m above_l).symm ▸ old.1
      · -- a block is not its own buddy
        exfalso
        obtain ⟨same, rfl⟩ := Block.mk.inj joined
        have whole : h / 2 ^ (l + 1) * 2 ^ (l + 1) = h := Nat.div_mul_cancel aligned
        rw [whole] at same
        exact buddyIndex_ne h (l + 1) same
  · rintro ⟨low, way⟩
    refine ⟨range.mpr low, fun m le lt => .inl ⟨?_, ?_⟩⟩
    · exact above m le ▸ way m (Nat.le_of_succ_le le) lt
    · -- the two halves are of a lower level than the blocks on the way
      rintro (same | same)
      · have := congrArg Block.level same
        simp only [lower] at this le
        omega
      · have := congrArg Block.level same
        simp only [upper] at this le
        omega

/-- A check that fails at the last block of level 14. -/
theorem merge_at_end
    (free : ⟨0x38000, 14⟩ ∈ freeBlocks pageMaxEntry k.frame) :
    checkedMerge pageMaxEntry 1 0x38000 k = .error .outOfBounds := by
  have level : (k.frame 0x38000).index = (14 : ℕ) := free.1.2
  have not_top : ¬ (((14 : ℕ) : ℤ) = pageMaxOrder) := by decide
  rw [checkedMerge, checkFrame_ok free.1.1, outcome_bind_ok, level, if_neg not_top]
  simp only [power2_eq, Int.toNat_natCast]
  rw [checkFrame_error (by decide)]
  rfl

/-- **`merge` stays in its tables** unless the block is merged up to the end. -/
theorem Represents.merge_inBounds_iff (rep : Represents pageMaxEntry k lists) (front : Front k l)
    (free : ⟨i, l⟩ ∈ freeBlocks pageMaxEntry k.frame) :
    InBounds (fun fuel => checkedMerge pageMaxEntry fuel i k) ↔
      ¬ ReachesEnd (freeBlocks pageMaxEntry k.frame) ⟨i, l⟩ := by
  have bound : l ≤ 16 := rep.table.family.level_le _ free.1
  -- the level rises with each call
  obtain ⟨d, top⟩ := Nat.exists_eq_add_of_le bound
  induction d generalizing k i l lists with
  | zero =>
    have fits : i + 2 ^ l ≤ pageMaxEntry := rep.table.fits free.1
    obtain rfl : l = 16 := by omega
    refine iff_of_true (fun fuel => ?_) fun reaches => ?_
    · cases fuel with
      | zero => simp [checkedMerge]
      | succ fuel =>
        rcases rep.checkedMerge_step free (by omega) with ⟨stop, -⟩ | ⟨h, below, -⟩
        · simp [stop]
        · omega
    · have low : 0x38000 ≤ i := reaches.1
      unfold pageMaxEntry at fits
      omega
  | succ d ih =>
    have fits : i + 2 ^ l ≤ pageMaxEntry := rep.table.fits free.1
    have aligned : 2 ^ l ∣ i := rep.table.family.aligned _ free.1
    by_cases edge : i = 0x38000 ∧ l = 14
    · -- here the check of the buddy fails
      obtain ⟨rfl, rfl⟩ := edge
      refine iff_of_false (fun inside => inside 1 (merge_at_end free)) ?_
      exact not_not.mpr ⟨le_rfl, fun m le lt => absurd lt (not_lt.mpr le)⟩
    · have inside := buddyIndex_lt (show l < 16 by omega) aligned fits edge
      rcases rep.checkedMerge_step free (fun _ => inside) with
        ⟨stop, alone⟩ | ⟨h, below, aligned_h, low, high, pair, step⟩
      · refine iff_of_true (fun fuel => ?_) fun reaches => ?_
        · cases fuel with
          | zero => simp [checkedMerge]
          | succ fuel => simp [stop]
        · -- below level 14 the buddy would be free
          have low : 0x38000 ≤ i := reaches.1
          have below : l < 14 := by
            by_contra high
            unfold pageMaxEntry at fits
            have : l = 14 ∨ l = 15 := by omega
            rcases this with rfl | rfl <;> omega
          have buddy := reaches.2 l le_rfl below
          rw [Nat.div_mul_cancel aligned] at buddy
          rcases alone with same | alone
          · omega
          · exact alone buddy
      · obtain ⟨rep', front', joined, -⟩ := rep.joinBuddies front below aligned_h low high pair
        have free' : (⟨h, l + 1⟩ : Block) ∈
            freeBlocks pageMaxEntry (Buddy.joinBuddies i (buddyIndex i l) h l k).frame := by
          rw [joined]
          exact .inr rfl
        have buddy : ⟨buddyIndex i l, l⟩ ∈ freeBlocks pageMaxEntry k.frame := by
          rcases pair with ⟨-, same⟩ | ⟨-, same⟩
          · exact same ▸ high
          · exact same ▸ low
        have next := ih rep' front' free' below (by omega)
        rw [joined, ReachesEnd.joinAt_iff below aligned_h (rep'.table.fits free'.1) pair buddy]
          at next
        -- one call more is the call on the joined block
        refine Iff.trans ?_ next
        constructor
        · intro calls fuel
          have call := calls (fuel + 1)
          dsimp only at call
          rwa [step] at call
        · intro calls fuel
          cases fuel with
          | zero => simp [checkedMerge]
          | succ fuel =>
            dsimp only
            rw [step]
            exact calls fuel

/-- A block that is given back is no buddy of its own. -/
theorem ReachesEnd.insert_iff {F : Set Block} {b : Block} (aligned : b.Aligned) :
    ReachesEnd (insert b F) b ↔ ReachesEnd F b := by
  refine ⟨fun ⟨low, way⟩ => ⟨low, fun m le lt => ?_⟩,
    fun ⟨low, way⟩ => ⟨low, fun m le lt => .inr (way m le lt)⟩⟩
  rcases way m le lt with own | buddy
  · have level : m = b.level := congrArg Block.level own
    have head := congrArg Block.head own
    simp only [level, Nat.div_mul_cancel aligned] at head
    exact absurd head (buddyIndex_ne _ _)
  · exact buddy

/-- **`page_free` stays in its tables** exactly when the block is not merged up to the end. -/
theorem Represents.free_inBounds_iff (rep : Represents pageMaxEntry k lists)
    (used : ⟨i, l⟩ ∈ usedBlocks pageMaxEntry k.frame) :
    InBounds (fun fuel => checkedPageFree pageMaxEntry fuel i k) ↔
      ¬ ReachesEnd (freeBlocks pageMaxEntry k.frame) ⟨i, l⟩ := by
  have level : (k.frame i).index = (l : ℤ) := used.1.2
  have bound : l ≤ 16 := rep.table.family.level_le _ used.1
  have inside : i < pageMaxEntry := used.1.1
  have fits : i + 2 ^ l ≤ pageMaxEntry := rep.table.fits used.1
  have positive := Nat.two_pow_pos l
  obtain ⟨rep', front, free', -⟩ := rep.giveBack used
  have free : ⟨i, l⟩ ∈ freeBlocks pageMaxEntry (Buddy.giveBack l i k).frame := by
    rw [free']
    exact Set.mem_insert _ _
  have unfolded : ∀ fuel, checkedPageFree pageMaxEntry fuel i k =
      checkedMerge pageMaxEntry fuel i (Buddy.giveBack l i k) := by
    intro fuel
    rw [checkedPageFree, checkFrame_ok inside, outcome_bind_ok,
      checkedAddPageItem_ok inside bound level, outcome_bind_ok, level, power2_eq,
      Int.toNat_natCast]
    dsimp only
    rw [checkedMarkFrames_ok (by omega), outcome_bind_ok]
    rfl
  simp only [unfolded]
  rw [rep'.merge_inBounds_iff front free, free',
    ReachesEnd.insert_iff (rep.table.family.aligned _ used.1)]

/-! ## Memory behind the table -/

theorem inBounds_map {α β : Type} (c : α → β) (call : ℕ → Outcome α) :
    InBounds (fun fuel => Except.map c (call fuel)) ↔ InBounds call := by
  apply forall_congr'
  intro fuel
  dsimp only
  cases call fuel with
  | error e => simp
  | ok a => simp

/-- The `PAGE_MAX_ENTRY` frames are a well-formed partition, whatever lies behind them. -/
def Sound (k : Allocator) : Prop := WellFormed pageMaxEntry (clip pageMaxEntry k)

/-! ## Runs -/

/-- A call of the allocator: for a number of bytes, or with the head of a block. -/
inductive Request
  | allocate (size : ℕ)
  | free (b : Block)

/-- What may be freed is in use. -/
def Allowed (k : Allocator) : Request → Prop
  | .allocate _ => True
  | .free b => b ∈ usedBlocks pageMaxEntry k.frame

/-- A call that returns. -/
inductive PageStep : Allocator → Request → Allocator → Prop
  | allocate {size : ℕ} {result : ℤ} {k k' : Allocator}
      (returns : Returns (fun fuel => pageAllocate fuel size k) (result, k')) :
      PageStep k (.allocate size) k'
  | free {b : Block} {k k' : Allocator} (allowed : Allowed k (.free b))
      (returns : Returns (fun fuel => pageFree fuel b.head k) k') : PageStep k (.free b) k'

/-- The accesses of a call are to its tables. -/
def StaysInBounds (k : Allocator) : Request → Prop
  | .allocate size => InBounds fun fuel => checkedPageAllocate pageMaxEntry fuel size k
  | .free b => InBounds fun fuel => checkedPageFree pageMaxEntry fuel b.head k

/-- The condition of a call. -/
def InTables (k : Allocator) : Request → Prop
  | .allocate size => AllocateFits pageMaxEntry k size
  | .free b => ¬ ReachesEnd (freeBlocks pageMaxEntry k.frame) b

/-- A call leaves its tables exactly when it misses the condition. -/
theorem Sound.inBounds_iff (sound : Sound k) {call : Request} (allowed : Allowed k call) :
    StaysInBounds k call ↔ InTables k call := by
  obtain ⟨lists, rep⟩ := sound
  cases call with
  | allocate size =>
    have fits := rep.allocate_inBounds_iff size
    simp only [checkedPageAllocate_clip, inBounds_map] at fits
    exact fits.trans ⟨fun fits => ⟨fits.level, fits.word⟩, fun fits => ⟨fits.level, fits.word⟩⟩
  | free b =>
    have used : b ∈ usedBlocks pageMaxEntry (clip pageMaxEntry k).frame := by
      rw [usedBlocks_clip]
      exact allowed
    have stays := rep.free_inBounds_iff used
    simp only [checkedPageFree_clip, inBounds_map] at stays
    rwa [freeBlocks_clip] at stays

/-- A call that stays in its tables keeps them well formed. -/
theorem Sound.step {call : Request} (sound : Sound k)
    (step : Guarded PageStep InTables k call k') : Sound k' := by
  obtain ⟨within, step⟩ := step
  cases step with
  | @allocate size result _ _ returns =>
    have allowed : Allowed k (.allocate size) := trivial
    have stays : StaysInBounds k (.allocate size) := (sound.inBounds_iff allowed).mpr within
    obtain ⟨fuel, returns⟩ := returns
    dsimp only at returns
    have same : pageAllocate fuel size (clip pageMaxEntry k) =
        .ok (result, clip pageMaxEntry k') :=
      (checkedPageAllocate_checks ..).map_ok (checkedPageAllocate_checks ..)
        (checkedPageAllocate_clip ..) (stays fuel) returns
    -- the level decides what the call does
    have small : pagesLessOne size < 2 ^ 16 := by
      refine within.level.resolve_right fun wide => ?_
      rw [pageAllocate, pageLevel_diverges wide, outcome_bind_error] at returns
      cases returns
    obtain ⟨size', positive, large, level⟩ := pageLevel_in_range small
    have exactly : pageAllocate fuel size' (clip pageMaxEntry k) =
        .ok (result, clip pageMaxEntry k') := by
      rw [pageAllocate, ← level]
      exact same
    obtain ⟨lists, rep⟩ := sound
    rcases rep.pageAllocate_ok positive large exactly with ⟨-, unchanged, -⟩ | ⟨i, -, effect⟩
    · rw [Sound, unchanged]
      exact ⟨lists, rep⟩
    · exact effect.wellFormed
  | @free b _ _ allowed returns =>
    have stays : StaysInBounds k (.free b) := (sound.inBounds_iff allowed).mpr within
    obtain ⟨fuel, returns⟩ := returns
    dsimp only at returns
    have same : pageFree fuel b.head (clip pageMaxEntry k) = .ok (clip pageMaxEntry k') :=
      (checkedPageFree_checks ..).map_ok (checkedPageFree_checks ..)
        (checkedPageFree_clip ..) (stays fuel) returns
    obtain ⟨lists, rep⟩ := sound
    have used : b ∈ usedBlocks pageMaxEntry (clip pageMaxEntry k).frame := by
      rw [usedBlocks_clip]
      exact allowed
    obtain ⟨k'', run, effect⟩ := rep.pageFree_ok used (show 16 < 17 by decide)
    have unique := (pageFree_mono b.head (clip pageMaxEntry k)).returns_unique
      ⟨fuel, same⟩ ⟨17, run⟩
    rw [Sound, unique]
    exact effect.wellFormed

/-- **Accesses to the tables.** In every state that calls under the condition lead to, a call
stays in its tables exactly under the condition. -/
theorem Run.tables_bounded {k₀ : Allocator} {w : List Request} (start : Sound k₀)
    (run : Run (Guarded PageStep InTables) k₀ w k) {call : Request} (allowed : Allowed k call) :
    StaysInBounds k call ↔ InTables k call :=
  (run.preserves Sound (fun _ _ _ sound step => sound.step step) start).inBounds_iff allowed

/-! ## The board's table -/

theorem upperFree_sound : Sound upperFree := by
  rw [Sound, clip_of_past]
  · exact upperFree_wellFormed
  · intro i past
    rw [upperFree, addPageItems_frame]
    change upperFrames i = _
    unfold pageMaxEntry at past
    unfold upperFrames
    split_ifs <;> first | rfl | omega

/-- A request for 128 MiB from there. -/
theorem upperFree_tables_bounded : ∃ k, Run (Guarded PageStep InTables) upperFree
      [.allocate 0x8000000] k ∧ ∀ size, StaysInBounds k (.allocate size) ↔
        AllocateFits pageMaxEntry k size := by
  obtain ⟨t, step, -⟩ := upperFree_step
  cases step with
  | allocate positive large returns =>
    obtain ⟨lists, rep⟩ := upperFree_wellFormed
    have pages : pagesLessOne 0x8000000 = 0x7fff := by decide
    have found : upperFree.pageList 15 ≠ none := by decide
    have within : AllocateFits pageMaxEntry upperFree 0x8000000 := by
      refine ⟨.inl (by rw [pages]; decide), fun _ _ stuck => absurd (.inr (.inl ?_)) stuck⟩
      rw [pages]
      exact found
    have step : Guarded PageStep InTables upperFree (.allocate 0x8000000) _ :=
      ⟨within, .allocate returns⟩
    have run := CS.Run.single step
    exact ⟨_, run, fun size => Run.tables_bounded upperFree_sound run trivial⟩

/-- A request for one byte more than 256 MiB looks at `page_list[17]`; and when the last
block of level 14 is allocated and freed, `merge` looks behind the table. -/
theorem upperFree_out_of_bounds : Sound upperFree ∧
    ¬ StaysInBounds upperFree (.allocate 0x10000001) ∧
      ∃ k, PageStep upperFree (.allocate 0x4000000) k ∧ Allowed k (.free ⟨0x38000, 14⟩) ∧
        ¬ StaysInBounds k (.free ⟨0x38000, 14⟩) := by
  refine ⟨upperFree_sound, fun stays => stays 0 rfl, ?_⟩
  obtain ⟨lists, rep⟩ := upperFree_wellFormed
  have level : levelFor 0x4000000 = 14 := by decide
  have listed : 0x38000 ∈ lists 14 := by
    rw [rep.mem_lists]
    refine ⟨⟨by decide, ?_⟩, ?_⟩ <;> rw [upperFree, addPageItems_frame] <;> rfl
  obtain ⟨i, rest, head⟩ := List.exists_cons_of_ne_nil (List.ne_nil_of_mem listed)
  obtain rfl : i = 0x38000 := by
    rcases upperFree_block (rep.free_of_cons head).1 with same | ⟨-, same⟩ <;>
      simp at same
    exact same
  have returns := rep.pageAllocate_cons (show 0 < 0x4000000 by decide) (by decide) (level ▸ head) 0
  obtain ⟨rep', -, used⟩ := rep.takeHead (level ▸ head)
  have allowed : Allowed (takeHead (levelFor 0x4000000) 0x38000 upperFree)
      (.free ⟨0x38000, 14⟩) := by
    change _ ∈ usedBlocks 0x3c000 _
    rw [used, level]
    exact Set.mem_insert _ _
  refine ⟨_, .allocate ⟨0, returns⟩, allowed, ?_⟩
  intro stays
  refine (rep'.free_inBounds_iff allowed).mp stays ⟨le_rfl, fun m le lt => ?_⟩
  exact absurd lt (not_lt.mpr le)

end BareMetal.Buddy
