import BareMetal.Buddy.Runs
import BareMetal.Pool.Layout
import Mathlib.Data.Finset.Card

/-!
# The pages of the pool

A `Page` is a page of the pool as it should be: its frame, its class and the slots in
use, at least one. `PoolOk others s pages` says that the list of `pool` holds these pages,
that their headers and `page_info` show their slots, and that the page allocator has
their blocks in use, next to the blocks `others` of somebody else.
-/

namespace BareMetal.Pool

open CS Buddy Math Math.Block

/-- A page of the pool. -/
structure Page where
  frame : ℕ
  size : ℕ
  slots : Finset ℕ
  cls : PoolClass size
  occupied : slots.Nonempty
  bounded : ∀ i ∈ slots, i < max (totalFor size) 1

namespace Page

variable {mem mem' : Memory} {page : Page} {i x : ℕ}

/-- The block the page starts. -/
def block (page : Page) : Block := ⟨page.frame, levelFor page.size⟩

/-- The address of slot `i`. -/
def addr (page : Page) (i : ℕ) : ℕ := page.frame * 0x1000 + slotOffset page.size i

/-- The bytes of the chunk in slot `i`. -/
def chunk (page : Page) (i : ℕ) : Set ℕ :=
  Set.Ico (page.addr i) (page.addr i + chunkSize page.size)

/-- The bytes of the header and of `page_info`. -/
def info (page : Page) : Set ℕ :=
  Set.Ico (page.frame * 0x1000) (page.frame * 0x1000 + 32 + totalFor page.size)

/-- The header and `page_info` show the page. -/
structure Ok (mem : Memory) (page : Page) : Prop where
  size : headerSize mem page.frame = page.size
  total : headerTotal mem page.frame = totalFor page.size
  used : headerUsed mem page.frame = page.slots.card
  marks : ∀ i < totalFor page.size, pageInfo mem page.frame i ≠ 0 ↔ i ∈ page.slots

theorem mem_info : x ∈ page.info ↔
    page.frame * 0x1000 ≤ x ∧ x < page.frame * 0x1000 + 32 + totalFor page.size :=
  Iff.rfl

theorem card_le (page : Page) : page.slots.card ≤ max (totalFor page.size) 1 := by
  have inside : page.slots ⊆ Finset.range (max (totalFor page.size) 1) :=
    fun i hi => Finset.mem_range.mpr (page.bounded i hi)
  have many := Finset.card_le_card inside
  rwa [Finset.card_range] at many

/-- The header and `page_info` lie in the first page of the block. -/
theorem frame_of_info (inside : x ∈ page.info) : x / 0x1000 = page.frame := by
  have small := totalFor_le_info page.size
  rw [mem_info] at inside
  omega

/-- Fields are read inside the header and `page_info`. -/
theorem field_congr (agree : ∀ x ∈ page.info, mem' x = mem x) {off width : ℕ}
    (positive : 0 < width) (inside : off + width ≤ 32 + totalFor page.size) :
    field mem' page.frame off width = field mem page.frame off width := by
  refine Memory.load_congr positive fun d hd => agree _ ?_
  rw [mem_info]
  omega

theorem headerNext_congr (agree : ∀ x ∈ page.info, mem' x = mem x) :
    headerNext mem' page.frame = headerNext mem page.frame :=
  congrArg headerAt (field_congr agree (by omega) (by omega))

theorem Ok.congr (ok : page.Ok mem) (agree : ∀ x ∈ page.info, mem' x = mem x) :
    page.Ok mem' where
  size := (field_congr agree (by omega) (by omega)).trans ok.size
  total := (field_congr agree (by omega) (by omega)).trans ok.total
  used := (field_congr agree (by omega) (by omega)).trans ok.used
  marks i hi := by
    rw [pageInfo, field_congr agree (by omega) (by rw [aling8_sizeofPoolHeader]; omega)]
    exact ok.marks i hi

/-- A chunk lies in its block, behind the header and `page_info` or over the first mark. -/
theorem chunk_bounds (inside : x ∈ page.chunk i) (slot : i < max (totalFor page.size) 1) :
    x ∉ page.info ∧ x / 0x1000 ∈ page.block.cells := by
  obtain ⟨behind, fits, -⟩ := page.cls.slot_bounds slot
  rw [blockSize] at fits
  obtain ⟨low, high⟩ := inside
  rw [addr] at low high
  constructor
  · rw [mem_info]
    omega
  · change page.frame ≤ x / 0x1000 ∧ x / 0x1000 < page.frame + 2 ^ levelFor page.size
    omega

theorem info_block (inside : x ∈ page.info) : x / 0x1000 ∈ page.block.cells := by
  rw [frame_of_info inside]
  exact head_mem_cells page.block

/-- Chunks of one page are disjoint. -/
theorem chunk_disjoint {j : ℕ} (ne : i ≠ j) (slot : i < max (totalFor page.size) 1)
    (slot' : j < max (totalFor page.size) 1) : Disjoint (page.chunk i) (page.chunk j) := by
  refine Set.disjoint_left.mpr fun x ⟨low, high⟩ ⟨low', high'⟩ => ?_
  rw [addr] at low high low' high'
  rcases Nat.lt_or_gt_of_ne ne with lt | lt
  · have apart := PoolClass.slot_disjoint lt slot'
    omega
  · have apart := PoolClass.slot_disjoint lt slot
    omega

theorem frame_of_addr (slot : i < max (totalFor page.size) 1) :
    page.addr i / 0x1000 = page.frame ∧ page.addr i % 0x1000 = slotOffset page.size i := by
  obtain ⟨-, -, inside⟩ := page.cls.slot_bounds slot
  rw [addr]
  omega

end Page

variable {others : Set Block} {s : Pools} {pages : List Page} {page page' : Page} {p x : ℕ}

/-- The pool is in order. -/
structure PoolOk (others : Set Block) (s : Pools) (pages : List Page) : Prop where
  linked : Linked (headerNext s.k.mem) s.pool (pages.map Page.frame)
  ok : ∀ page ∈ pages, page.Ok s.k.mem
  buddy : Consistent pageMaxEntry others ⟨s.k, {b | b ∈ pages.map Page.block}, ∅⟩
  zero : ∃ b ∈ others, 0 ∈ b.cells

/-- A chunk of class `size` is in use at the address. -/
def Live (pages : List Page) (p size : ℕ) : Prop :=
  ∃ page ∈ pages, page.size = size ∧ ∃ i ∈ page.slots, p = page.addr i

namespace PoolOk

theorem used (inv : PoolOk others s pages) (mem : page ∈ pages) :
    page.block ∈ usedBlocks pageMaxEntry s.k.frame := by
  rw [inv.buddy.used]
  exact .inl (.inl (List.mem_map_of_mem mem))

/-- Frame 0 belongs to somebody else. -/
theorem frame_ne_zero (inv : PoolOk others s pages) (mem : page ∈ pages) : page.frame ≠ 0 := by
  intro zero
  obtain ⟨b, reserved, covers⟩ := inv.zero
  have used : b ∈ usedBlocks pageMaxEntry s.k.frame := by
    rw [inv.buddy.used]
    exact .inr reserved
  have here : 0 ∈ page.block.cells := zero ▸ head_mem_cells page.block
  have same : page.block = b :=
    inv.buddy.wellFormed.decomposition.disjoint _ (inv.used mem).1 _ used.1 0 here covers
  exact inv.buddy.apart b reserved (.inl (List.mem_map.mpr ⟨page, mem, same⟩))

/-- Pages of the pool share no frame. -/
theorem page_unique (inv : PoolOk others s pages) (mem : page ∈ pages) (mem' : page' ∈ pages)
    (both : x ∈ page.block.cells) (both' : x ∈ page'.block.cells) : page' = page := by
  have same : page.block = page'.block :=
    inv.buddy.wellFormed.decomposition.disjoint _ (inv.used mem).1 _ (inv.used mem').1 x both both'
  exact List.inj_on_of_nodup_map inv.linked.nodup mem' mem (congrArg Block.head same).symm

theorem page_unique_frame (inv : PoolOk others s pages) (mem : page ∈ pages)
    (mem' : page' ∈ pages) (same : page'.frame = page.frame) : page' = page :=
  List.inj_on_of_nodup_map inv.linked.nodup mem' mem same

/-- A live address determines its page and slot. -/
theorem addr_unique (inv : PoolOk others s pages) {i j : ℕ} (mem : page ∈ pages)
    (mem' : page' ∈ pages) (slot : i ∈ page.slots) (slot' : j ∈ page'.slots)
    (same : page'.addr j = page.addr i) : page' = page ∧ j = i := by
  have at_frame := page.frame_of_addr (page.bounded i slot)
  have at_frame' := page'.frame_of_addr (page'.bounded j slot')
  rw [same] at at_frame'
  obtain rfl := inv.page_unique_frame mem mem' (at_frame'.1.symm.trans at_frame.1)
  refine ⟨rfl, ?_⟩
  have index := page'.cls.slot_index (page'.bounded i slot)
  have index' := page'.cls.slot_index (page'.bounded j slot')
  rw [← at_frame'.2, at_frame.2, index] at index'
  exact index'.symm

/-- Stores to the header and to `page_info` of a page of the pool touch no chunk. -/
theorem chunk_kept (inv : PoolOk others s pages) {mem : Memory} (listed : page ∈ pages)
    (writes : ∀ x, mem x ≠ s.k.mem x → x ∈ page.info) (listed' : page' ∈ pages) {i : ℕ}
    (slot : i ∈ page'.slots) (inside : x ∈ page'.chunk i) : mem x = s.k.mem x := by
  by_contra changed
  have written := writes x changed
  obtain ⟨outside, block⟩ := page'.chunk_bounds inside (page'.bounded i slot)
  obtain rfl := inv.page_unique listed listed' (page.info_block written) block
  exact outside written

end PoolOk

end BareMetal.Pool
