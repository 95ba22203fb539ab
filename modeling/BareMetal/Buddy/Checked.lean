import BareMetal.Buddy.Invariant
import BareMetal.Buddy.Level

/-!
# The page allocator with checked accesses

The functions of the allocator once more, with a check in front of every access to
`frame[]` and `page_list[]`: an index outside of the table ends the call with a fault. A
call that passes its checks does what the unchecked one does, and depends only on the
table: `clip n k` is `k` with other frames past the end.
-/

namespace BareMetal.Buddy

open CS

variable {n fuel index size : ℕ} {k k' : Allocator}

/-! ## Checks -/

/-- An access to `frame[i]`, in a table of `n` frames. -/
def checkFrame (n : ℕ) (i : ℤ) : Outcome Unit :=
  if 0 ≤ i ∧ i < n then .ok () else .error .outOfBounds

/-- An access to `page_list[level]`. -/
def checkList (level : ℤ) : Outcome Unit :=
  if 0 ≤ level ∧ level ≤ pageMaxOrder then .ok () else .error .outOfBounds

theorem checkFrame_ok {i : ℕ} (inside : i < n) : checkFrame n i = .ok () :=
  if_pos ⟨Int.natCast_nonneg i, by exact_mod_cast inside⟩

theorem checkFrame_error {i : ℤ} (outside : (n : ℤ) ≤ i) : checkFrame n i = .error .outOfBounds :=
  if_neg fun inside => absurd inside.2 (not_lt.mpr outside)

theorem checkList_ok {l : ℕ} (bound : l ≤ 16) : checkList l = .ok () :=
  if_pos ⟨Int.natCast_nonneg l, by unfold pageMaxOrder; omega⟩

theorem checkFrame_cases (n : ℕ) (i : ℤ) : checkFrame n i = .error .outOfBounds ∨
    checkFrame n i = .ok () ∧ i.toNat < n ∧ 0 ≤ i := by
  by_cases inside : 0 ≤ i ∧ i < n
  · exact .inr ⟨if_pos inside, by omega, inside.1⟩
  · exact .inl (if_neg inside)

theorem checks_frame (n : ℕ) (i : ℤ) : Checks (checkFrame n i) (.ok ()) :=
  (checkFrame_cases n i).imp_right fun passes => passes.1

theorem checks_list (level : ℤ) : Checks (checkList level) (.ok ()) := by
  by_cases inside : 0 ≤ level ∧ level ≤ pageMaxOrder
  · exact .inr (if_pos inside)
  · exact .inl (if_neg inside)

/-! ## Functions -/

/-- `add_page_item`. -/
def checkedAddPageItem (n index : ℕ) (k : Allocator) : Outcome Allocator := do
  checkFrame n index
  checkList (k.frame index).index
  return addPageItem index k

/-- `delete_page_item`, which writes to `page_list[]` for the first item of a list only. -/
def checkedDeletePageItem (n index : ℕ) (k : Allocator) : Outcome Allocator := do
  checkFrame n index
  match itemPrevious k.mem index with
  | some _ => return deletePageItem index k
  | none => do
    checkList (k.frame index).index
    return deletePageItem index k

/-- The loops over the frames behind `index`. -/
def checkedMarkFrames (n index : ℕ) (mark : ℤ) : ℕ → Allocator → Outcome Allocator
  | 0, k => .ok k
  | count + 1, k => do
    let k ← checkedMarkFrames n index mark count k
    checkFrame n (index + (count + 1) : ℕ)
    return k.setIndex (index + (count + 1)) mark

/-- `page_divide`. -/
def checkedPageDivide (n : ℕ) : ℕ → ℤ → Allocator → Outcome Allocator
  | 0, _, _ => .error .outOfFuel
  | fuel + 1, level, k => do
    checkList level
    match k.pageList level with
    | some current => do
      let index := itemIndex k.mem current
      let k := { k with pageList := Function.update k.pageList level (itemNext k.mem current) }
      checkFrame n index
      let k := k.setIndex index ((k.frame index).index - 1)
      let k ← checkedAddPageItem n index k
      checkFrame n (index + power2 (level - 1) : ℕ)
      let k := k.setIndex (index + power2 (level - 1)) (level - 1)
      checkedAddPageItem n (index + power2 (level - 1)) k
    | none =>
      if level < 5 then do
        let k ← checkedPageDivide n fuel (level + 1) k
        checkedPageDivide n fuel level k
      else return k

/-- The second half of `page_allocate`. -/
def checkedTakeFirst (n : ℕ) (level : ℤ) (k : Allocator) : Outcome (ℤ × Allocator) := do
  checkList level
  match k.pageList level with
  | none => do
    -- `current->index` is what lies at address 0, and is used like any other
    let word := toInt32 (k.mem.load 0 4)
    checkFrame n word
    let _ ← checkedMarkFrames n word.toNat pageAllocatedMark (power2 level - 1)
      (k.setStatus word.toNat 1)
    .error .nullPointer
  | some current => do
    let index := itemIndex k.mem current
    checkFrame n index
    let k := k.setStatus index 1
    let k ← checkedMarkFrames n index pageAllocatedMark (power2 level - 1) k
    return (index, { k with pageList := Function.update k.pageList level (itemNext k.mem current) })

/-- `page_allocate`. -/
def checkedPageAllocate (n fuel size : ℕ) (k : Allocator) : Outcome (ℤ × Allocator) := do
  let level ← pageLevel size
  checkList level
  if k.pageList level = none then
    if level < pageMaxOrder then do
      let k ← checkedPageDivide n fuel (level + 1) k
      checkedTakeFirst n level k
    else return (-1, k)
  else checkedTakeFirst n level k

/-- `merge`. -/
def checkedMerge (n : ℕ) : ℕ → ℕ → Allocator → Outcome Allocator
  | 0, _, _ => .error .outOfFuel
  | fuel + 1, index, k => do
    checkFrame n index
    if (k.frame index).index = pageMaxOrder then return k
    else do
      let size := power2 (k.frame index).index
      let mergeIndex := if index % (2 * size) ≠ 0 then index - size else index + size
      checkFrame n (if index % (2 * size) ≠ 0 then (index : ℤ) - size else index + size)
      if (k.frame index).index = (k.frame mergeIndex).index then
        if (k.frame index).status = 0 ∧ (k.frame mergeIndex).status = 0 then do
          let k ← checkedDeletePageItem n index k
          let k ← checkedDeletePageItem n mergeIndex k
          let inner := max index mergeIndex
          let head := min index mergeIndex
          let k := k.setIndex inner pageFreeMark
          let k := k.setIndex head ((k.frame head).index + 1)
          let k ← checkedAddPageItem n head k
          checkedMerge n fuel head k
        else return k
      else return k

/-- `page_free`. -/
def checkedPageFree (n fuel index : ℕ) (k : Allocator) : Outcome Allocator := do
  checkFrame n index
  let size := (k.frame index).index
  let k ← checkedAddPageItem n index k
  let k := k.setStatus index 0
  let k ← checkedMarkFrames n index pageFreeMark (power2 size - 1) k
  checkedMerge n fuel index k

/-! ## What passes the checks is as before -/

theorem checkedAddPageItem_checks (n index : ℕ) (k : Allocator) :
    Checks (checkedAddPageItem n index k) (.ok (addPageItem index k)) := by
  apply (checks_frame n index).guard
  exact (checks_list _).guard (.refl _)

theorem checkedDeletePageItem_checks (n index : ℕ) (k : Allocator) :
    Checks (checkedDeletePageItem n index k) (.ok (deletePageItem index k)) := by
  apply (checks_frame n index).guard
  split
  · exact .refl _
  · exact (checks_list _).guard (.refl _)

theorem checkedMarkFrames_checks (n index : ℕ) (mark : ℤ) (count : ℕ) (k : Allocator) :
    Checks (checkedMarkFrames n index mark count k) (.ok (k.markFrames index mark count)) := by
  induction count with
  | zero => exact .refl _
  | succ count ih => exact ih.guard ((checks_frame n _).guard (.refl _))

theorem checkedPageDivide_checks (n fuel : ℕ) (level : ℤ) (k : Allocator) :
    Checks (checkedPageDivide n fuel level k) (pageDivide fuel level k) := by
  induction fuel generalizing level k with
  | zero => exact .refl _
  | succ fuel ih =>
    apply (checks_list level).guard
    cases head : k.pageList level with
    | some current =>
      rw [pageDivide, head]
      apply (checks_frame n _).guard
      apply (checkedAddPageItem_checks n _ _).guard
      apply (checks_frame n _).guard
      exact checkedAddPageItem_checks n _ _
    | none =>
      rw [pageDivide, head]
      dsimp only
      split_ifs
      · exact (ih _ _).bind fun k => ih _ _
      · exact .refl _

theorem checkedTakeFirst_checks (n : ℕ) (level : ℤ) (k : Allocator) :
    Checks (checkedTakeFirst n level k) (takeFirst level k) := by
  apply (checks_list level).guard
  cases head : k.pageList level with
  | none =>
    rw [takeFirst, head]
    apply (checks_frame n _).guard
    exact (checkedMarkFrames_checks n _ _ _ _).guard (.refl _)
  | some current =>
    rw [takeFirst, head]
    apply (checks_frame n _).guard
    exact (checkedMarkFrames_checks n _ _ _ _).guard (.refl _)

theorem checkedPageAllocate_checks (n fuel size : ℕ) (k : Allocator) :
    Checks (checkedPageAllocate n fuel size k) (pageAllocate fuel size k) := by
  refine (Checks.refl _).bind fun level => ?_
  apply (checks_list level).guard
  split_ifs
  · exact (checkedPageDivide_checks n _ _ _).bind fun k => checkedTakeFirst_checks n _ _
  · exact .refl _
  · exact checkedTakeFirst_checks n _ _

theorem checkedMerge_checks (n fuel index : ℕ) (k : Allocator) :
    Checks (checkedMerge n fuel index k) (merge fuel index k) := by
  induction fuel generalizing index k with
  | zero => exact .refl _
  | succ fuel ih =>
    apply (checks_frame n index).guard
    rw [merge]
    by_cases top : (k.frame index).index = pageMaxOrder
    · rw [if_pos top, if_pos top]
      exact .refl _
    · rw [if_neg top, if_neg top]
      apply (checks_frame n _).guard
      dsimp only
      generalize (if index % (2 * power2 (k.frame index).index) ≠ 0 then
        index - power2 (k.frame index).index else index + power2 (k.frame index).index) = buddy
      split_ifs
      · apply (checkedDeletePageItem_checks n _ _).guard
        apply (checkedDeletePageItem_checks n _ _).guard
        apply (checkedAddPageItem_checks n _ _).guard
        exact ih _ _
      all_goals exact .refl _

theorem checkedPageFree_checks (n fuel index : ℕ) (k : Allocator) :
    Checks (checkedPageFree n fuel index k) (pageFree fuel index k) := by
  apply (checks_frame n index).guard
  apply (checkedAddPageItem_checks n index k).guard
  apply (checkedMarkFrames_checks n _ _ _ _).guard
  exact checkedMerge_checks n _ _ _

/-! ## What passes the checks depends on the table only -/

/-- Frames of a table, with marks past its end that never pass for a free block. -/
def clip (n : ℕ) (k : Allocator) : Allocator :=
  { k with frame := fun i => if i < n then k.frame i else ⟨1, -1⟩ }

section Clip

variable {i : ℕ}

theorem clip_frame (inside : i < n) (k : Allocator) : (clip n k).frame i = k.frame i :=
  if_pos inside

theorem clip_frame_past (past : n ≤ i) (k : Allocator) : (clip n k).frame i = ⟨1, -1⟩ :=
  if_neg (not_lt.mpr past)

@[simp] theorem clip_pageList (n : ℕ) (k : Allocator) : (clip n k).pageList = k.pageList := rfl

@[simp] theorem clip_mem (n : ℕ) (k : Allocator) : (clip n k).mem = k.mem := rfl

theorem blocks_clip (n : ℕ) (k : Allocator) : blocks n (clip n k).frame = blocks n k.frame := by
  ext b
  refine and_congr_right fun inside => ?_
  rw [clip_frame inside]

theorem freeBlocks_clip (n : ℕ) (k : Allocator) :
    freeBlocks n (clip n k).frame = freeBlocks n k.frame := by
  ext b
  rw [freeBlocks, freeBlocks, blocks_clip]
  refine and_congr_right fun block => ?_
  rw [clip_frame block.1]

theorem usedBlocks_clip (n : ℕ) (k : Allocator) :
    usedBlocks n (clip n k).frame = usedBlocks n k.frame := by
  ext b
  rw [usedBlocks, usedBlocks, blocks_clip]
  refine and_congr_right fun block => ?_
  rw [clip_frame block.1]

theorem clip_of_past (past : ∀ i, n ≤ i → k.frame i = ⟨1, -1⟩) : clip n k = k := by
  have frames : (clip n k).frame = k.frame := by
    funext i
    by_cases inside : i < n
    · exact clip_frame inside k
    · rw [past i (not_lt.mp inside), clip_frame_past (not_lt.mp inside)]
  exact congrArg (fun frame => ({ k with frame := frame } : Allocator)) frames

theorem clip_update (inside : i < n) (k : Allocator) (f : FrameInfo) :
    clip n { k with frame := Function.update k.frame i f } =
      { clip n k with frame := Function.update (clip n k).frame i f } := by
  have frames : (clip n { k with frame := Function.update k.frame i f }).frame =
      Function.update (clip n k).frame i f := by
    funext j
    by_cases same : j = i
    · subst same
      rw [clip_frame inside, Function.update_self]
      exact Function.update_self ..
    · rw [Function.update_of_ne same]
      by_cases below : j < n
      · rw [clip_frame below, clip_frame below]
        exact Function.update_of_ne same ..
      · rw [clip_frame_past (not_lt.mp below), clip_frame_past (not_lt.mp below)]
  exact congrArg (fun frame => ({ k with frame := frame } : Allocator)) frames

theorem clip_setIndex (inside : i < n) (k : Allocator) (value : ℤ) :
    clip n (k.setIndex i value) = (clip n k).setIndex i value := by
  rw [Allocator.setIndex, clip_update inside, Allocator.setIndex, clip_frame inside]

theorem clip_setStatus (inside : i < n) (k : Allocator) (value : ℕ) :
    clip n (k.setStatus i value) = (clip n k).setStatus i value := by
  rw [Allocator.setStatus, clip_update inside, Allocator.setStatus, clip_frame inside]

theorem clip_addPageItem (inside : i < n) (k : Allocator) :
    clip n (addPageItem i k) = addPageItem i (clip n k) := by
  simp only [addPageItem, clip_frame inside, clip_pageList, clip_mem]
  cases k.pageList (k.frame i).index <;> rfl

theorem clip_deletePageItem (inside : i < n) (k : Allocator) :
    clip n (deletePageItem i k) = deletePageItem i (clip n k) := by
  simp only [deletePageItem, clip_frame inside, clip_pageList, clip_mem]
  cases itemNext k.mem i <;> cases itemPrevious k.mem i <;> rfl

end Clip

/-- A check in front of two calls that agree behind it. -/
theorem checkFrame_bind {α : Type} {i : ℤ} {x y : Unit → Outcome α}
    (agree : i.toNat < n → 0 ≤ i → x () = y ()) :
    (checkFrame n i >>= x) = (checkFrame n i >>= y) := by
  rcases checkFrame_cases n i with fails | ⟨passes, inside, nonneg⟩
  · rw [fails]
    rfl
  · rw [passes]
    exact agree inside nonneg

theorem checkedAddPageItem_clip (n index : ℕ) (k : Allocator) :
    checkedAddPageItem n index (clip n k) = Except.map (clip n) (checkedAddPageItem n index k) := by
  rw [checkedAddPageItem, checkedAddPageItem, outcome_bind_map]
  apply checkFrame_bind
  intro inside _
  rw [Int.toNat_natCast] at inside
  rw [clip_frame inside, outcome_bind_map]
  cases checkList (k.frame index).index with
  | error e => rfl
  | ok => exact congrArg Except.ok (clip_addPageItem inside k).symm

theorem checkedDeletePageItem_clip (n index : ℕ) (k : Allocator) :
    checkedDeletePageItem n index (clip n k) =
      Except.map (clip n) (checkedDeletePageItem n index k) := by
  rw [checkedDeletePageItem, checkedDeletePageItem, outcome_bind_map]
  apply checkFrame_bind
  intro inside _
  rw [Int.toNat_natCast] at inside
  rw [clip_frame inside, clip_mem]
  cases itemPrevious k.mem index with
  | some _ => exact congrArg Except.ok (clip_deletePageItem inside k).symm
  | none =>
    dsimp only
    rw [outcome_bind_map]
    cases checkList (k.frame index).index with
    | error e => rfl
    | ok => exact congrArg Except.ok (clip_deletePageItem inside k).symm

theorem checkedMarkFrames_clip (n index : ℕ) (mark : ℤ) (count : ℕ) (k : Allocator) :
    checkedMarkFrames n index mark count (clip n k) =
      Except.map (clip n) (checkedMarkFrames n index mark count k) := by
  induction count with
  | zero => rfl
  | succ count ih =>
    rw [checkedMarkFrames, checkedMarkFrames, ih, outcome_map_bind, outcome_bind_map]
    congr 1
    funext k
    rw [outcome_bind_map]
    apply checkFrame_bind
    intro inside _
    rw [Int.toNat_natCast] at inside
    exact congrArg Except.ok (clip_setIndex inside k mark).symm

theorem checkedPageDivide_clip (n fuel : ℕ) (level : ℤ) (k : Allocator) :
    checkedPageDivide n fuel level (clip n k) =
      Except.map (clip n) (checkedPageDivide n fuel level k) := by
  induction fuel generalizing level k with
  | zero => rfl
  | succ fuel ih =>
    rw [checkedPageDivide, checkedPageDivide, outcome_bind_map, clip_pageList]
    cases checkList level with
    | error e => rfl
    | ok =>
      rw [outcome_bind_ok, outcome_bind_ok]
      cases k.pageList level with
      | none =>
        dsimp only
        split_ifs
        · rw [ih, outcome_map_bind, outcome_bind_map]
          congr 1
          funext k
          exact ih level k
        · rfl
      | some current =>
        dsimp only
        rw [outcome_bind_map]
        apply checkFrame_bind
        intro inside _
        rw [Int.toNat_natCast, clip_mem] at inside
        let k₁ : Allocator :=
          { k with pageList := Function.update k.pageList level (itemNext k.mem current) }
        -- each access is checked first, and inside the table clipping changes nothing
        have first : (clip n k₁).setIndex (itemIndex k.mem current)
            (((clip n k₁).frame (itemIndex k.mem current)).index - 1) =
            clip n (k₁.setIndex (itemIndex k.mem current)
              ((k₁.frame (itemIndex k.mem current)).index - 1)) := by
          rw [clip_frame inside, clip_setIndex inside]
        change (checkedAddPageItem n _ ((clip n k₁).setIndex (itemIndex k.mem current)
          (((clip n k₁).frame (itemIndex k.mem current)).index - 1)) >>= _) = _
        rw [first, checkedAddPageItem_clip, outcome_map_bind, outcome_bind_map]
        congr 1
        funext k₂
        rw [outcome_bind_map]
        apply checkFrame_bind
        intro inside' _
        rw [Int.toNat_natCast, clip_mem] at inside'
        rw [clip_mem, ← clip_setIndex inside']
        exact checkedAddPageItem_clip n _ _

theorem checkedTakeFirst_clip (n : ℕ) (level : ℤ) (k : Allocator) :
    checkedTakeFirst n level (clip n k) =
      Except.map (Prod.map id (clip n)) (checkedTakeFirst n level k) := by
  rw [checkedTakeFirst, checkedTakeFirst, outcome_bind_map, clip_pageList, clip_mem]
  cases checkList level with
  | error e => rfl
  | ok =>
    rw [outcome_bind_ok, outcome_bind_ok]
    cases k.pageList level with
    | none =>
      dsimp only
      rw [outcome_bind_map]
      apply checkFrame_bind
      intro inside _
      rw [← clip_setStatus inside, checkedMarkFrames_clip, outcome_map_bind, outcome_bind_map]
      rfl
    | some current =>
      dsimp only
      rw [outcome_bind_map]
      apply checkFrame_bind
      intro inside _
      rw [Int.toNat_natCast] at inside
      rw [← clip_setStatus inside, checkedMarkFrames_clip, outcome_map_bind, outcome_bind_map]
      rfl

theorem checkedPageAllocate_clip (n fuel size : ℕ) (k : Allocator) :
    checkedPageAllocate n fuel size (clip n k) =
      Except.map (Prod.map id (clip n)) (checkedPageAllocate n fuel size k) := by
  rw [checkedPageAllocate, checkedPageAllocate, outcome_bind_map, clip_pageList]
  congr 1
  funext level
  cases checkList level with
  | error e => rfl
  | ok =>
    rw [outcome_bind_ok, outcome_bind_ok]
    split_ifs
    · rw [checkedPageDivide_clip, outcome_map_bind, outcome_bind_map]
      congr 1
      funext k₁
      exact checkedTakeFirst_clip n level k₁
    · rfl
    · exact checkedTakeFirst_clip n level k

theorem checkedMerge_clip (n fuel index : ℕ) (k : Allocator) :
    checkedMerge n fuel index (clip n k) = Except.map (clip n) (checkedMerge n fuel index k) := by
  induction fuel generalizing index k with
  | zero => rfl
  | succ fuel ih =>
    rw [checkedMerge, checkedMerge, outcome_bind_map]
    apply checkFrame_bind
    intro inside _
    rw [Int.toNat_natCast] at inside
    rw [clip_frame inside]
    by_cases top : (k.frame index).index = pageMaxOrder
    · rw [if_pos top, if_pos top]
      rfl
    · rw [if_neg top, if_neg top, outcome_bind_map]
      apply checkFrame_bind
      intro below nonneg
      -- the index checked is that of the buddy
      have buddy_inside : (if index % (2 * power2 (k.frame index).index) ≠ 0 then
          index - power2 (k.frame index).index else index + power2 (k.frame index).index) < n := by
        split_ifs at below nonneg ⊢ <;> omega
      revert buddy_inside
      generalize (if index % (2 * power2 (k.frame index).index) ≠ 0 then
        index - power2 (k.frame index).index else index + power2 (k.frame index).index) = buddy
      intro buddy_inside
      rw [clip_frame buddy_inside]
      split_ifs
      · rw [checkedDeletePageItem_clip, outcome_map_bind, outcome_bind_map]
        congr 1
        funext k₁
        rw [checkedDeletePageItem_clip, outcome_map_bind, outcome_bind_map]
        congr 1
        funext k₂
        have inner : max index buddy < n := max_lt inside buddy_inside
        have head : min index buddy < n := lt_of_le_of_lt (min_le_left _ _) inside
        dsimp only
        rw [← clip_setIndex inner, clip_frame head, ← clip_setIndex head, checkedAddPageItem_clip,
          outcome_map_bind, outcome_bind_map]
        congr 1
        funext k₃
        exact ih _ _
      all_goals rfl

theorem checkedPageFree_clip (n fuel index : ℕ) (k : Allocator) :
    checkedPageFree n fuel index (clip n k) =
      Except.map (clip n) (checkedPageFree n fuel index k) := by
  rw [checkedPageFree, checkedPageFree, outcome_bind_map]
  apply checkFrame_bind
  intro inside _
  rw [Int.toNat_natCast] at inside
  dsimp only
  rw [clip_frame inside, checkedAddPageItem_clip, outcome_map_bind, outcome_bind_map]
  congr 1
  funext k₁
  rw [← clip_setStatus inside, checkedMarkFrames_clip, outcome_map_bind, outcome_bind_map]
  congr 1
  funext k₂
  exact checkedMerge_clip n fuel index k₂

end BareMetal.Buddy
