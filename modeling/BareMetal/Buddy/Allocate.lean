import BareMetal.Buddy.Invariant
import BareMetal.Buddy.Level

/-!
# `page_divide` and `page_allocate`

`page_divide` on a level whose list is not empty splits the head of that list and
puts both halves in front of the list below. On an empty list of a level below 5
it first calls itself one level up. Both keep the invariant, take frames from no
used block, and store to items of free frames only.

`DivideEffect` is what a successful `page_divide` does to the lists: two new
heads one level below, nothing changed further down, and on every level from
there up a list that shrank or has become a single block. The last part is what
keeps the free blocks coalesced.
-/

namespace BareMetal.Buddy

open CS Math Math.Block

variable {n i l fuel size : ℕ} {k k' : Allocator} {lists lists' : ℕ → List ℕ} {rest : List ℕ}

/-! ## Fuel -/

theorem pageDivide_of_null {level : ℤ} (null : k.pageList level = none) :
    pageDivide (fuel + 1) level k =
      if level < 5 then pageDivide fuel (level + 1) k >>= pageDivide fuel level else .ok k := by
  rw [pageDivide, null]

theorem pageDivide_mono (level : ℤ) (k : Allocator) :
    FuelMonotone fun fuel => pageDivide fuel level k := by
  intro fuel r h
  change pageDivide (fuel + 1) level k = .ok r
  replace h : pageDivide fuel level k = .ok r := h
  induction fuel generalizing level k r with
  | zero => simp [pageDivide] at h
  | succ fuel ih =>
    cases head : k.pageList level with
    | some current =>
      rw [pageDivide, head] at h ⊢
      exact h
    | none =>
      rw [pageDivide_of_null head] at h ⊢
      split_ifs at h ⊢ with low
      · obtain ⟨k₁, first, second⟩ := outcome_bind_eq_ok.mp h
        exact outcome_bind_eq_ok.mpr ⟨k₁, ih _ _ first, ih _ _ second⟩
      · exact h

/-! ## Splitting the head of a list -/

/-- The lists after the head `i` of level `l + 1` is split. -/
def splitLists (lists : ℕ → List ℕ) (i l : ℕ) (rest : List ℕ) : ℕ → List ℕ :=
  Function.update (Function.update lists (l + 1) rest) l ((i + 2 ^ l) :: i :: lists l)

/-- `page_divide` on a non-empty list splits its head. -/
theorem Represents.pageDivide_cons (rep : Represents n k lists) (head : lists (l + 1) = i :: rest) :
    ∃ k', (∀ fuel, pageDivide (fuel + 1) ((l : ℤ) + 1) k = .ok k') ∧
      Represents n k' (splitLists lists i l rest) ∧
      usedBlocks n k'.frame = usedBlocks n k.frame ∧
      ItemWrites (freeFrames n k) k.mem k'.mem := by
  have cast : ((l : ℤ) + 1) = ((l + 1 : ℕ) : ℤ) := by push_cast; rfl
  have positive := Nat.two_pow_pos l
  have free := rep.free_of_cons head
  have bound : l + 1 ≤ 16 := rep.table.family.level_le _ free.1
  have level : (k.frame i).index = ((l + 1 : ℕ) : ℤ) := free.1.2
  have in_list : i ∈ lists (l + 1) := by simp [head]
  have other_list : ∀ m, i ∈ lists m → m = l + 1 := fun m hm =>
    rep.freeLists.apart m (l + 1) i hm in_list
  -- the upper half is an inner frame, so it is in no list
  have upper_in : i + 2 ^ l ∈ (⟨i, l + 1⟩ : Block).cells := by
    rw [cells_halves]
    exact .inr (upper i l).head_mem_cells
  have upper_ne : i + 2 ^ l ≠ i := by omega
  have upper_neg : (k.frame (i + 2 ^ l)).index < 0 := rep.table.inner_neg free.1 upper_in upper_ne
  have upper_fresh := rep.not_listed (i := i + 2 ^ l) (fun nonneg => by omega)
  -- the steps of the function
  let k₁ : Allocator :=
    { k with pageList := Function.update k.pageList ((l + 1 : ℕ) : ℤ) (itemNext k.mem i) }
  let k₂ := k₁.setIndex i l
  let k₃ := addPageItem i k₂
  let k₄ := k₃.setIndex (i + 2 ^ l) l
  let k₅ := addPageItem (i + 2 ^ l) k₄
  have run : ∀ fuel, pageDivide (fuel + 1) ((l : ℤ) + 1) k = .ok k₅ := by
    intro fuel
    have pred : ((l + 1 : ℕ) : ℤ) - 1 = l := by push_cast; ring
    have level' : (k₁.frame i).index - 1 = l := by
      change (k.frame i).index - 1 = l
      rw [level, pred]
    rw [pageDivide, cast, rep.freeLists.pageList_of_cons head]
    dsimp only
    rw [rep.itemIndex_of_cons head, pred, power2_eq, Int.toNat_natCast]
    change Except.ok (addPageItem (i + 2 ^ l) ((addPageItem i
      (k₁.setIndex i ((k₁.frame i).index - 1))).setIndex (i + 2 ^ l) l)) = _
    rw [level']
  have fl₁ : FreeLists k₁ (Function.update lists (l + 1) rest) := rep.freeLists.pop head
  have index₂ : (k₂.frame i).index = l := by simp [k₂, Allocator.setIndex_index]
  have fresh₂ : ∀ m, i ∉ Function.update lists (l + 1) rest m := by
    intro m
    by_cases same : m = l + 1
    · have distinct := rep.freeLists.nodup (l + 1)
      rw [head] at distinct
      rw [same, Function.update_self]
      exact (List.nodup_cons.mp distinct).1
    · rw [Function.update_of_ne same]
      exact fun inside => same (other_list m inside)
  obtain ⟨fl₃, -⟩ := (fl₁.congr k₂ rfl rfl).push (by omega) index₂ fresh₂
  have index₄ : (k₄.frame (i + 2 ^ l)).index = l := by simp [k₄, Allocator.setIndex_index]
  have fresh₄ : ∀ m, i + 2 ^ l ∉ Function.update (Function.update lists (l + 1) rest) l
      (i :: Function.update lists (l + 1) rest l) m := by
    intro m
    have below : (l : ℕ) ≠ l + 1 := by omega
    by_cases same : m = l
    · rw [same, Function.update_self, Function.update_of_ne below]
      exact List.not_mem_cons_of_ne_of_not_mem upper_ne (upper_fresh l)
    · rw [Function.update_of_ne same]
      by_cases same' : m = l + 1
      · rw [same', Function.update_self]
        intro inside
        exact upper_fresh (l + 1) (by simp [head, inside])
      · rw [Function.update_of_ne same']
        exact upper_fresh m
  obtain ⟨fl₅, -⟩ := (fl₃.congr k₄ rfl rfl).push (by omega) index₄ fresh₄
  have lists_eq : Function.update (Function.update (Function.update lists (l + 1) rest) l
      (i :: Function.update lists (l + 1) rest l)) l ((i + 2 ^ l) :: Function.update
        (Function.update lists (l + 1) rest) l (i :: Function.update lists (l + 1) rest l) l) =
      splitLists lists i l rest := by
    rw [Function.update_idem, Function.update_self, Function.update_of_ne (by omega), splitLists]
  rw [lists_eq] at fl₅
  -- the table
  have frames : ∀ j, (k₅.frame j).index =
      if j = i ∨ j = i + 2 ^ l then (l : ℤ) else (k.frame j).index := by
    intro j
    simp only [k₅, k₄, k₃, k₂, k₁, FreeLists.addPageItem_frame, Allocator.setIndex_index]
    split_ifs <;> first | rfl | omega
  have status : ∀ j, (k₅.frame j).status = (k.frame j).status := by
    intro j
    simp only [k₅, k₄, k₃, k₂, k₁, FreeLists.addPageItem_frame, Allocator.setIndex_status]
  obtain ⟨table, split, used⟩ := rep.table.split free frames status
  refine ⟨k₅, run, ⟨table, fl₅, fun j m => ?_⟩, used, ?_⟩
  · have old := rep.mem_lists j m
    rw [split]
    simp only [splitLists, Math.splitAt, lower, upper, Set.mem_union, Set.mem_sdiff,
      Set.mem_singleton_iff, Set.mem_insert_iff, Block.mk.injEq]
    by_cases here : m = l
    · subst here
      rw [Function.update_self, List.mem_cons, List.mem_cons, old]
      have apart : ¬ (m = m + 1) := by omega
      tauto
    · rw [Function.update_of_ne here]
      by_cases above : m = l + 1
      · subst above
        rw [Function.update_self, ← old, head]
        have distinct := rep.freeLists.nodup (l + 1)
        rw [head] at distinct
        have absent := (List.nodup_cons.mp distinct).1
        constructor
        · intro inside
          refine .inl ⟨List.mem_cons_of_mem i inside, ?_⟩
          rintro ⟨rfl, -⟩
          exact absent inside
        · rintro (⟨inside, ne⟩ | ⟨-, bad⟩ | ⟨-, bad⟩)
          · rcases List.mem_cons.mp inside with same | tail
            · exact absurd ⟨same, rfl⟩ ne
            · exact tail
          · omega
          · omega
      · rw [Function.update_of_ne above, old]
        have ne : ¬ (m = l) := here
        tauto
  · -- both items and the old head of the lower list are in free frames
    have free_i : i ∈ freeFrames n k := rep.mem_freeFrames in_list
    have free_upper : i + 2 ^ l ∈ freeFrames n k := ⟨_, free, upper_in⟩
    have below : ((l : ℕ) : ℤ) ≠ ((l + 1 : ℕ) : ℤ) := by push_cast; omega
    have first : ItemWrites (freeFrames n k) k.mem k₃.mem := by
      refine ItemWrites.addPageItem (k := k₂) free_i fun j hj => ?_
      rw [index₂] at hj
      change Function.update k.pageList _ _ _ = some j at hj
      rw [Function.update_of_ne below] at hj
      have linked := (rep.freeLists.linked l (by omega)).linked
      obtain ⟨tail, same, -⟩ := (hj ▸ linked : Linked _ (some j) _).exists_cons
      exact rep.mem_freeFrames (l := l) (by simp [same])
    refine first.trans (ItemWrites.addPageItem (k := k₄) free_upper fun j hj => ?_)
    rw [index₄] at hj
    change (addPageItem i k₂).pageList l = some j at hj
    rw [FreeLists.addPageItem_pageList index₂, Function.update_self, Option.some.injEq] at hj
    exact hj ▸ free_i

/-! ## `page_divide` -/

/-- What a successful split for level `l` does to the lists. -/
structure DivideEffect (l : ℕ) (lists lists' : ℕ → List ℕ) : Prop where
  halves : ∃ a b, lists' l = b :: a :: lists l
  below : ∀ m < l, lists' m = lists m
  above : ∀ m, l < m → lists' m ⊆ lists m ∨ ∃ a, lists' m = [a]

/-- `splitLists` has the effect. -/
theorem DivideEffect.splitLists (head : lists (l + 1) = i :: rest) :
    DivideEffect l lists (splitLists lists i l rest) where
  halves := ⟨i, i + 2 ^ l, by simp [Buddy.splitLists]⟩
  below m hm := by
    rw [Buddy.splitLists, Function.update_of_ne (by omega), Function.update_of_ne (by omega)]
  above m hm := by
    left
    rw [Buddy.splitLists, Function.update_of_ne (by omega)]
    by_cases same : m = l + 1
    · rw [same, Function.update_self, head]
      exact List.subset_cons_self i rest
    · rw [Function.update_of_ne same]
      exact List.Subset.refl _

/-- Splitting one level up and then here, where the list was empty. -/
theorem DivideEffect.step {lists₁ lists₂ : ℕ → List ℕ} {a b : ℕ}
    (first : DivideEffect (l + 1) lists lists₁)
    (second : lists₂ = Buddy.splitLists lists₁ b l [a]) : DivideEffect l lists lists₂ where
  halves := ⟨b, b + 2 ^ l, by
    rw [second, Buddy.splitLists, Function.update_self, first.below l (by omega)]⟩
  below m hm := by
    rw [second, Buddy.splitLists, Function.update_of_ne (by omega),
      Function.update_of_ne (by omega), first.below m (by omega)]
  above m hm := by
    rw [second, Buddy.splitLists, Function.update_of_ne (by omega)]
    by_cases same : m = l + 1
    · exact .inr ⟨a, by rw [same, Function.update_self]⟩
    · rw [Function.update_of_ne same]
      exact first.above m (by omega)

/-- Every return of `page_divide` either found nothing to split and left the
state alone, or has the effect of a split. -/
theorem Represents.pageDivide_ok (rep : Represents n k lists) (bound : l < 16)
    (h : pageDivide fuel ((l : ℤ) + 1) k = .ok k') :
    (k' = k ∧ lists (l + 1) = []) ∨
      ∃ lists', Represents n k' lists' ∧ usedBlocks n k'.frame = usedBlocks n k.frame ∧
        DivideEffect l lists lists' ∧ ItemWrites (freeFrames n k) k.mem k'.mem := by
  induction fuel generalizing k k' lists l with
  | zero => simp [pageDivide] at h
  | succ fuel ih =>
    cases head : lists (l + 1) with
    | cons i rest =>
      obtain ⟨k₁, run, rep₁, used, writes⟩ := rep.pageDivide_cons head
      obtain rfl : k₁ = k' := Except.ok.inj ((run fuel).symm.trans h)
      exact .inr ⟨_, rep₁, used, .splitLists head, writes⟩
    | nil =>
      have null : k.pageList ((l : ℤ) + 1) = none := by
        have := rep.freeLists.pageList_of_nil (l := l + 1) (by omega) head
        exact_mod_cast this
      rw [pageDivide_of_null null] at h
      split_ifs at h with low
      · obtain ⟨k₁, first, second⟩ := outcome_bind_eq_ok.mp h
        have above : (l : ℤ) + 1 + 1 = ((l + 1 : ℕ) : ℤ) + 1 := by push_cast; rfl
        rw [above] at first
        rcases ih rep (by omega) first with ⟨rfl, -⟩ | ⟨lists₁, rep₁, used₁, effect, writes₁⟩
        · rcases ih rep bound second with ⟨rfl, -⟩ | split
          · exact .inl ⟨rfl, rfl⟩
          · exact .inr split
        · -- the level above was divided, so that this level has two blocks now
          obtain ⟨a, b, new⟩ := effect.halves
          rw [head] at new
          obtain ⟨k₂, run, rep₂, used₂, writes₂⟩ := rep₁.pageDivide_cons new
          have same : k₂ = k' := by
            cases fuel with
            | zero => simp [pageDivide] at second
            | succ fuel => exact Except.ok.inj ((run fuel).symm.trans second)
          subst same
          rw [rep.freeFrames_eq rep₁ used₁] at writes₂
          exact .inr ⟨_, rep₂, used₂.trans used₁, effect.step rfl, writes₁.trans writes₂⟩
      · exact .inl ⟨(Except.ok.inj h).symm, rfl⟩

/-! ## `page_allocate` -/

theorem pageAllocate_mono (size : ℕ) (k : Allocator) :
    FuelMonotone fun fuel => pageAllocate fuel size k := by
  unfold pageAllocate
  refine (fuelMonotone_const _).bind fun level => ?_
  split_ifs
  · exact (pageDivide_mono _ _).bind fun _ => fuelMonotone_const _
  · exact fuelMonotone_const _
  · exact fuelMonotone_const _

/-- Taking the head of a list, the last part of `page_allocate`. -/
def takeHead (l i : ℕ) (k : Allocator) : Allocator :=
  { (k.setStatus i 1).markFrames i pageAllocatedMark (2 ^ l - 1) with
    pageList := Function.update k.pageList l (itemNext k.mem i) }

/-- Taking the head of a list keeps the invariant. -/
theorem Represents.takeHead (rep : Represents n k lists) (head : lists l = i :: rest) :
    Represents n (takeHead l i k) (Function.update lists l rest) ∧
      freeBlocks n (Buddy.takeHead l i k).frame = freeBlocks n k.frame \ {⟨i, l⟩} ∧
      usedBlocks n (Buddy.takeHead l i k).frame = insert ⟨i, l⟩ (usedBlocks n k.frame) := by
  have free := rep.free_of_cons head
  have positive := Nat.two_pow_pos l
  -- the inner frames get another mark, and were negative
  have marks : ∀ j, ((Buddy.takeHead l i k).frame j).index = (k.frame j).index ∨
      j < n ∧ ((Buddy.takeHead l i k).frame j).index < 0 ∧ (k.frame j).index < 0 := by
    intro j
    change (((k.setStatus i 1).markFrames i pageAllocatedMark (2 ^ l - 1)).frame j).index = _ ∨
      j < n ∧ (((k.setStatus i 1).markFrames i pageAllocatedMark (2 ^ l - 1)).frame j).index < 0 ∧ _
    rw [Allocator.markFrames_index, Allocator.setStatus_index]
    split_ifs with inner
    · have inside : j ∈ (⟨i, l⟩ : Block).cells := ⟨by simp only; omega, by simp only; omega⟩
      refine .inr ⟨rep.table.lt_of_mem free.1 inside, by decide, ?_⟩
      exact rep.table.inner_neg free.1 inside (by simp only; omega)
    · exact .inl rfl
  have status : ∀ j, ((Buddy.takeHead l i k).frame j).status =
      if j = i then 1 else (k.frame j).status := by
    intro j
    change (((k.setStatus i 1).markFrames i pageAllocatedMark (2 ^ l - 1)).frame j).status = _
    rw [Allocator.markFrames_status, Allocator.setStatus_status]
  obtain ⟨table, taken, used⟩ := rep.table.take free marks status
  have fl : FreeLists (Buddy.takeHead l i k) (Function.update lists l rest) :=
    (rep.freeLists.pop head).congr _ rfl (by simp [Buddy.takeHead])
  refine ⟨⟨table, fl, fun j m => ?_⟩, taken, used⟩
  -- the list of the level has lost its head, which is the block that was taken
  have old := rep.mem_lists j m
  rw [taken, Set.mem_sdiff, Set.mem_singleton_iff, ← old, Block.mk.injEq]
  by_cases same : m = l
  · subst same
    have distinct := rep.freeLists.nodup m
    rw [head] at distinct ⊢
    rw [Function.update_self, List.mem_cons]
    have absent := (List.nodup_cons.mp distinct).1
    constructor
    · intro inside
      exact ⟨.inr inside, fun bad => absent (bad.1 ▸ inside)⟩
    · rintro ⟨here | inside, ne⟩
      · exact absurd ⟨here, rfl⟩ ne
      · exact inside
  · rw [Function.update_of_ne same]
    tauto

/-- What a call of `page_allocate` that returned a block has done: the block
`⟨i, levelFor size⟩` went from the free to the used side, and each free list
shrank or has become a single block. -/
structure AllocateEffect (n size i : ℕ) (k k' : Allocator) : Prop where
  wellFormed : WellFormed n k'
  taken : ⟨i, levelFor size⟩ ∈ usedBlocks n k'.frame
  used : usedBlocks n k'.frame = insert ⟨i, levelFor size⟩ (usedBlocks n k.frame)
  fresh : (⟨i, levelFor size⟩ : Block).cells ⊆ freeFrames n k
  levels : ∀ m, (∀ j, ⟨j, m⟩ ∈ freeBlocks n k'.frame → ⟨j, m⟩ ∈ freeBlocks n k.frame) ∨
    ∃ a, ∀ j, ⟨j, m⟩ ∈ freeBlocks n k'.frame → j = a
  writes : ItemWrites (freeFrames n k) k.mem k'.mem

/-- The block taken was made of free frames. -/
private theorem fresh_of_used {k₁ : Allocator} {lists₁ : ℕ → List ℕ} (rep : Represents n k lists)
    (rep₁ : Represents n k₁ lists₁) (used : usedBlocks n k₁.frame = usedBlocks n k.frame)
    (head : lists₁ l = i :: rest) : (⟨i, l⟩ : Block).cells ⊆ freeFrames n k := by
  rw [← rep.freeFrames_eq rep₁ used]
  exact fun x inside => ⟨_, rep₁.free_of_cons head, inside⟩

theorem Represents.takeFirst_cons (rep : Represents n k lists) (head : lists l = i :: rest) :
    takeFirst l k = .ok ((i : ℤ), Buddy.takeHead l i k) := by
  rw [takeFirst, rep.freeLists.pageList_of_cons head]
  simp [rep.itemIndex_of_cons head, Buddy.takeHead]

theorem Represents.takeFirst_nil (rep : Represents n k lists) (bound : l ≤ 16)
    (empty : lists l = []) : takeFirst l k = .error .nullPointer := by
  rw [takeFirst, rep.freeLists.pageList_of_nil bound empty]

/-- A request whose level has a free block. -/
theorem Represents.pageAllocate_cons (rep : Represents n k lists) (positive : 0 < size)
    (large : size ≤ maxRequest) (head : lists (levelFor size) = i :: rest) (fuel : ℕ) :
    pageAllocate fuel size k = .ok ((i : ℤ), Buddy.takeHead (levelFor size) i k) := by
  rw [pageAllocate, pageLevel_eq positive large, outcome_bind_ok,
    rep.freeLists.pageList_of_cons head, if_neg (by simp), rep.takeFirst_cons head]

/-- A request whose level has none. -/
theorem Represents.pageAllocate_nil (rep : Represents n k lists) (positive : 0 < size)
    (large : size ≤ maxRequest) (empty : lists (levelFor size) = []) :
    pageAllocate fuel size k =
      if levelFor size < 16 then
        pageDivide fuel ((levelFor size : ℤ) + 1) k >>= takeFirst (levelFor size)
      else .ok (-1, k) := by
  have low : ((levelFor size : ℕ) : ℤ) < pageMaxOrder ↔ levelFor size < 16 := by
    unfold pageMaxOrder
    omega
  rw [pageAllocate, pageLevel_eq positive large, outcome_bind_ok,
    rep.freeLists.pageList_of_nil (levelFor_le large) empty, if_pos rfl]
  simp only [low, outcome_pure]

/-- **Every return of `page_allocate`.** Either it reports that the top list is
empty and leaves the state alone, or it hands out a block of the least level
that covers the request. -/
theorem Represents.pageAllocate_ok (rep : Represents n k lists) (positive : 0 < size)
    (large : size ≤ maxRequest) {r : ℤ} (h : pageAllocate fuel size k = .ok (r, k')) :
    (r = -1 ∧ k' = k ∧ levelFor size = 16 ∧ lists 16 = []) ∨
      ∃ i : ℕ, r = i ∧ AllocateEffect n size i k k' := by
  have bound := levelFor_le large
  cases head : lists (levelFor size) with
  | cons i rest =>
    -- the list of the level has a block
    rw [rep.pageAllocate_cons positive large head] at h
    simp only [Except.ok.injEq, Prod.mk.injEq] at h
    obtain ⟨rfl, rfl⟩ := h
    obtain ⟨rep', taken, used⟩ := rep.takeHead head
    refine .inr ⟨i, rfl, ⟨_, rep'⟩, ?_, used, fresh_of_used rep rep rfl head, fun m => .inl ?_, ?_⟩
    · rw [used]
      exact Set.mem_insert _ _
    · intro j hj
      rw [taken] at hj
      exact hj.1
    · rw [show (Buddy.takeHead (levelFor size) i k).mem = k.mem by simp [Buddy.takeHead]]
      exact ItemWrites.refl _ _
  | nil =>
    -- a larger block is divided, and leaves two of this level
    rw [rep.pageAllocate_nil positive large head] at h
    split_ifs at h with low
    · obtain ⟨k₁, divided, taken⟩ := outcome_bind_eq_ok.mp h
      rcases rep.pageDivide_ok low divided with ⟨rfl, -⟩ | ⟨lists₁, rep₁, used₁, effect, writes⟩
      · rw [rep.takeFirst_nil bound head] at taken
        simp at taken
      · obtain ⟨a, b, new⟩ := effect.halves
        rw [head] at new
        rw [rep₁.takeFirst_cons new] at taken
        simp only [Except.ok.injEq, Prod.mk.injEq] at taken
        obtain ⟨rfl, rfl⟩ := taken
        obtain ⟨rep', free', used'⟩ := rep₁.takeHead new
        refine .inr ⟨b, rfl, ⟨_, rep'⟩, ?_, by rw [used', used₁],
          fresh_of_used rep rep₁ used₁ new, fun m => ?_, ?_⟩
        · rw [used']
          exact Set.mem_insert _ _
        · simp only [← rep'.mem_lists, ← rep.mem_lists]
          rcases lt_trichotomy m (levelFor size) with below | rfl | above
          · rw [Function.update_of_ne (by omega), effect.below m below]
            exact .inl fun _ => id
          · rw [Function.update_self]
            exact .inr ⟨a, fun j hj => List.mem_singleton.mp hj⟩
          · rw [Function.update_of_ne (by omega)]
            rcases effect.above m above with sub | ⟨c, single⟩
            · exact .inl fun j hj => sub hj
            · exact .inr ⟨c, fun j hj => by rw [single] at hj; exact List.mem_singleton.mp hj⟩
        · rw [show (Buddy.takeHead (levelFor size) b k₁).mem = k₁.mem by simp [Buddy.takeHead]]
          exact writes
    · simp only [Except.ok.injEq, Prod.mk.injEq] at h
      have top : levelFor size = 16 := by omega
      exact .inl ⟨h.1.symm, h.2.symm, top, top ▸ head⟩

end BareMetal.Buddy
