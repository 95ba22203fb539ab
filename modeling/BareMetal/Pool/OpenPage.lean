import BareMetal.Pool.Pages

/-!
# `open_page`

A new page goes in front of the pool, with its first slot in use. It is made of frames that
were free, so no byte of another page is stored to.
-/

namespace BareMetal.Pool

open CS Buddy Math Math.Block

variable {others : Set Block} {s s' : Pools} {pages : List Page} {mem : Memory}
  {cls size page i fuel addr x : ℕ} {next : Option ℕ}

/-! ## The stores to the new page -/

/-- The marks of a new page do not reach its header. -/
theorem field_clearInfo {n off width : ℕ} (positive : 0 < width) (header : off + width ≤ 32)
    (bound : n ≤ 4048) :
    field (clearInfo mem page n) page off width = field mem page off width := by
  induction n with
  | zero => rfl
  | succ n ih =>
    rw [clearInfo]
    split_ifs with first
    · exact ih (by omega)
    · rw [setPageInfo, aling8_sizeofPoolHeader,
        field_setField_of_apart positive (by omega) (by omega) (by omega)]
      exact ih (by omega)

/-- The marks from 1 on are cleared. -/
theorem pageInfo_clearInfo {n : ℕ} (inside : i < n) (bound : n ≤ 4048) :
    pageInfo (clearInfo mem page n) page i = if i = 0 then pageInfo mem page 0 else 0 := by
  induction n with
  | zero => omega
  | succ n ih =>
    have kept (below : i < n) (positive : n ≠ 0) :
        pageInfo (setPageInfo (clearInfo mem page n) page n 0) page i =
          pageInfo (clearInfo mem page n) page i := by
      rw [pageInfo, setPageInfo, aling8_sizeofPoolHeader]
      exact field_setField_of_apart (by omega) (by omega) (by omega) (by omega)
    rw [clearInfo]
    rcases Nat.eq_or_lt_of_le (Nat.le_of_lt_succ inside) with rfl | below
    · split_ifs with first
      · rw [first]
        rfl
      · exact field_setField (by omega)
    · rw [if_neg (show n ≠ 0 by omega), kept below (by omega)]
      exact ih below (by omega)

/-- The stores are to the page's `page_info`. -/
theorem clearInfo_writes {n : ℕ} (changed : clearInfo mem page n x ≠ mem x) :
    page * 0x1000 + 32 ≤ x ∧ x < page * 0x1000 + 32 + n := by
  induction n with
  | zero => exact absurd rfl changed
  | succ n ih =>
    rw [clearInfo] at changed
    split_ifs at changed with first
    · obtain ⟨low, high⟩ := ih changed
      exact ⟨low, by omega⟩
    · by_cases within : page * 0x1000 + (32 + n) ≤ x ∧ x < page * 0x1000 + (32 + n) + 1
      · omega
      · rw [setPageInfo, setField, aling8_sizeofPoolHeader,
          Memory.store_apply_of_outside (by omega)] at changed
        obtain ⟨low, high⟩ := ih changed
        exact ⟨low, by omega⟩

/-- The header of a new page. -/
theorem initPage_header : headerSize (initPage mem page cls next) page = cls ∧
    headerTotal (initPage mem page cls next) page = totalFor cls ∧
      headerUsed (initPage mem page cls next) page = 1 ∧
        field (initPage mem page cls next) page 24 8 = headerPtr next := by
  have slots := totalFor_le_info cls
  rw [headerSize, headerTotal, headerUsed, initPage, field_clearInfo (by omega) (by omega) slots,
    field_clearInfo (by omega) (by omega) slots, field_clearInfo (by omega) (by omega) slots,
    field_clearInfo (by omega) (by omega) slots, setPageInfo, setHeaderNext,
    aling8_sizeofPoolHeader]
  refine ⟨?_, ?_, ?_, ?_⟩
  · rw [field_setField_of_apart (by omega) (by omega) (by omega) (by omega),
      field_setField_of_apart (by omega) (by omega) (by omega) (by omega),
      field_setField_of_apart (by omega) (by omega) (by omega) (by omega),
      field_setField_of_apart (by omega) (by omega) (by omega) (by omega),
      field_setField (by omega)]
  · rw [field_setField_of_apart (by omega) (by omega) (by omega) (by omega),
      field_setField_of_apart (by omega) (by omega) (by omega) (by omega),
      field_setField_of_apart (by omega) (by omega) (by omega) (by omega),
      field_setField (by omega)]
  · rw [field_setField_of_apart (by omega) (by omega) (by omega) (by omega),
      field_setField_of_apart (by omega) (by omega) (by omega) (by omega),
      field_setField (by omega)]
  · rw [field_setField_of_apart (by omega) (by omega) (by omega) (by omega),
      field_setField (by omega)]

theorem initPage_shape (mem : Memory) (page cls : ℕ) (next : Option ℕ) :
    headerTotal (initPage mem page cls next) page = totalFor cls ∧
      headerSize (initPage mem page cls next) page = cls :=
  ⟨initPage_header.2.1, initPage_header.1⟩

/-- The stores are to the header and to `page_info`, of which there is a byte at least. -/
theorem initPage_writes (changed : initPage mem page cls next x ≠ mem x) :
    page * 0x1000 ≤ x ∧ x < page * 0x1000 + 32 + max (totalFor cls) 1 := by
  by_contra outside
  apply changed
  rw [initPage]
  have cleared : clearInfo (setPageInfo (setHeaderNext (setField (setField (setField mem page 0 8
      cls) page 8 8 (totalFor cls)) page 16 8 1) page next) page 0 1) page (totalFor cls) x =
      setPageInfo (setHeaderNext (setField (setField (setField mem page 0 8
        cls) page 8 8 (totalFor cls)) page 16 8 1) page next) page 0 1 x := by
    by_contra changed
    have := clearInfo_writes changed
    omega
  rw [cleared, setPageInfo, setHeaderNext, aling8_sizeofPoolHeader]
  simp only [setField]
  rw [Memory.store_apply_of_outside (by omega), Memory.store_apply_of_outside (by omega),
    Memory.store_apply_of_outside (by omega), Memory.store_apply_of_outside (by omega),
    Memory.store_apply_of_outside (by omega)]

/-! ## The new page -/

/-- A page as `open_page` leaves it. -/
def Page.opened (frame size : ℕ) (cls : PoolClass size) : Page where
  frame := frame
  size := size
  slots := {0}
  cls := cls
  occupied := Finset.singleton_nonempty 0
  bounded := by
    intro i hi
    obtain rfl := Finset.mem_singleton.mp hi
    omega

theorem Page.opened_ok (cls : PoolClass size) :
    (Page.opened page size cls).Ok (initPage mem page size next) where
  size := initPage_header.1
  total := initPage_header.2.1
  used := initPage_header.2.2.1
  marks i hi := by
    have slots := totalFor_le_info size
    change i < totalFor size at hi
    change pageInfo (initPage mem page size next) page i ≠ 0 ↔ i ∈ ({0} : Finset ℕ)
    rw [initPage, pageInfo_clearInfo hi slots, Finset.mem_singleton]
    split_ifs with first
    · rw [pageInfo, setPageInfo, aling8_sizeofPoolHeader, field_setField (by omega)]
      simp [first]
    · simp [first]

theorem headerAt_headerPtr (nonzero : next ≠ some 0) : headerAt (headerPtr next) = next := by
  cases next with
  | none => rfl
  | some p =>
    have positive : p ≠ 0 := fun zero => nonzero (congrArg some zero)
    rw [headerPtr, headerAt, if_neg (by omega), Nat.mul_div_cancel _ (by decide)]

theorem headerNext_initPage (nonzero : next ≠ some 0) :
    headerNext (initPage mem page cls next) page = next := by
  rw [headerNext, initPage_header.2.2.2, headerAt_headerPtr nonzero]

/-! ## `open_page` -/

namespace PoolOk

theorem pool_ne_zero (inv : PoolOk others s pages) : s.pool ≠ some 0 := by
  intro zero
  cases pages with
  | nil =>
    have empty : s.pool = none := inv.linked
    rw [empty] at zero
    cases zero
  | cons page rest =>
    obtain ⟨head, -⟩ := inv.linked
    exact inv.frame_ne_zero List.mem_cons_self (Option.some.inj (head.symm.trans zero))

/-- A block for a new page: it is made of free frames, and frame 0 is none of them. -/
theorem allocates (inv : PoolOk others s pages) (cls : PoolClass size) {result : ℤ} {k : Allocator}
    (run : pageAllocate fuel size s.k = .ok (result, k)) :
    ∃ frame : ℕ, result = frame ∧ frame ≠ 0 ∧ frame < pageMaxEntry ∧
      ItemWrites (freeFrames pageMaxEntry s.k) s.k.mem k.mem ∧
      (⟨frame, levelFor size⟩ : Block).cells ⊆ freeFrames pageMaxEntry s.k ∧
      Consistent pageMaxEntry others
        ⟨k, insert ⟨frame, levelFor size⟩ {b | b ∈ pages.map Page.block}, ∅⟩ := by
  have range := cls.bounds
  have large : size ≤ maxRequest := range.2.trans (by decide)
  have step : Step ⟨s.k, {b | b ∈ pages.map Page.block}, ∅⟩ (.allocate size result) ⟨k, _, ∅⟩ :=
    .allocate range.1 large ⟨fuel, run⟩
  obtain ⟨lists, rep⟩ := inv.buddy.wellFormed
  obtain ⟨-, ⟨refused, -⟩ | ⟨frame, rfl, effect, live, -⟩⟩ := inv.buddy.allocate_effect step
  · -- only a request for the top level is refused
    exfalso
    rcases rep.pageAllocate_ok range.1 large run with ⟨-, -, top, -⟩ | ⟨frame, head, -⟩
    · have low : levelFor size ≤ 6 := levelFor_le_of_le range.1 (range.2.trans (by decide))
      omega
    · omega
  · have after := inv.buddy.step step
    dsimp only at live
    rw [live] at after
    refine ⟨frame, rfl, ?_, effect.taken.1.1, effect.writes, effect.fresh, after⟩
    -- frame 0 is reserved, so it is not in a free block
    rintro rfl
    obtain ⟨b, reserved, covers⟩ := inv.zero
    have used : b ∈ usedBlocks pageMaxEntry s.k.frame := by
      rw [inv.buddy.used]
      exact .inr reserved
    obtain ⟨c, free, inside⟩ := effect.fresh (head_mem_cells _)
    exact rep.table.free_used_disjoint free used inside covers

/-- No byte of a page in use is in a free frame. -/
theorem not_free (inv : PoolOk others s pages) {page : Page} (listed : page ∈ pages)
    (inside : x ∈ page.block.cells) : x ∉ freeFrames pageMaxEntry s.k := by
  rintro ⟨b, free, within⟩
  obtain ⟨lists, rep⟩ := inv.buddy.wellFormed
  exact rep.table.free_used_disjoint free (inv.used listed) within inside

/-- **`open_page`** puts a page in front of the pool, with the first slot in use, and stores to
no page that was in use. -/
theorem openPage (inv : PoolOk others s pages) (cls : PoolClass size)
    (run : openPage fuel size s = .ok (addr, s')) :
    ∃ frame, PoolOk others s' (Page.opened frame size cls :: pages) ∧
      addr = (Page.opened frame size cls).addr 0 ∧
      (∀ page ∈ pages, ∀ x, x / 0x1000 ∈ page.block.cells → s'.k.mem x = s.k.mem x) ∧
      usedBlocks pageMaxEntry s.k.frame ⊆ usedBlocks pageMaxEntry s'.k.frame := by
  obtain ⟨⟨result, k⟩, allocated, run⟩ := outcome_bind_eq_ok.mp run
  obtain ⟨frame, rfl, nonzero, bound, writes, fresh, after⟩ := inv.allocates cls allocated
  -- the address fits, and it is the frame's
  have pointer : 0x1000 * toU64 frame % 2 ^ 64 = frame * 0x1000 := by
    unfold pageMaxEntry at bound
    rw [toU64]
    omega
  have page : frame * 0x1000 / 0x1000 = frame := Nat.mul_div_cancel _ (by decide)
  have header : headerAt (frame * 0x1000) = some frame := by
    rw [headerAt, if_neg (by omega), page]
  simp only [outcome_pure, Except.ok.injEq, Prod.mk.injEq, aling8_sizeofPoolHeader, pointer, page,
    header, initPage_header.2.1] at run
  obtain ⟨rfl, rfl⟩ := run
  -- the new page is in its block, and the stores are in the new page
  have in_page : ∀ x, initPage k.mem frame size s.pool x ≠ k.mem x → x / 0x1000 = frame := by
    intro x changed
    have slots := totalFor_le_info size
    have := initPage_writes changed
    omega
  have apart : ∀ other ∈ pages, ∀ x, x / 0x1000 ∈ other.block.cells → x / 0x1000 ≠ frame := by
    intro other listed x inside same
    exact inv.not_free listed (same ▸ inside) (fresh (head_mem_cells _))
  have kept : ∀ other ∈ pages, ∀ x, x / 0x1000 ∈ other.block.cells →
      initPage k.mem frame size s.pool x = s.k.mem x := by
    intro other listed x inside
    have first : k.mem x = s.k.mem x := writes.eq_of_outside (.inl (inv.not_free listed inside))
    by_contra changed
    rw [← first] at changed
    exact apart other listed x inside (in_page x changed)
  refine ⟨frame, ⟨?_, ?_, ?_, inv.zero⟩, ?_, kept, ?_⟩
  · -- the new page leads to the old head
    refine ⟨rfl, ?_⟩
    change Segment _ (headerNext (initPage k.mem frame size s.pool) frame) _ none
    rw [headerNext_initPage inv.pool_ne_zero]
    refine inv.linked.congr fun f in_frames => ?_
    obtain ⟨other, listed, rfl⟩ := List.mem_map.mp in_frames
    exact Page.headerNext_congr fun x inside => kept other listed x (other.info_block inside)
  · intro other listed
    rcases List.mem_cons.mp listed with rfl | listed
    · exact Page.opened_ok cls
    · refine (inv.ok other listed).congr fun x inside => ?_
      exact kept other listed x (other.info_block inside)
  · have blocks : {b | b ∈ (Page.opened frame size cls :: pages).map Page.block} =
        insert ⟨frame, levelFor size⟩ {b | b ∈ pages.map Page.block} := by
      ext b
      simp [Page.block, Page.opened]
    rw [blocks]
    refine after.with_mem fun x changed => ⟨⟨frame, levelFor size⟩, .inl (.inl (.inl rfl)), ?_⟩
    rw [in_page x changed]
    exact head_mem_cells _
  · change frame * 0x1000 + 32 + aling8 (totalFor size) = frame * 0x1000 + slotOffset size 0
    rw [slotOffset, Nat.mul_zero]
    omega
  · change _ ⊆ usedBlocks pageMaxEntry k.frame
    rw [inv.buddy.used, after.used, Set.insert_union, Set.insert_union]
    exact Set.subset_insert _ _

end PoolOk

end BareMetal.Pool
