import BareMetal.Pool.Pages

/-!
# Marking slots

`malloc_` and `free` change `used` and one byte of `page_info`. The search of `malloc_`
ends at the first page of the class with a slot that is not in use.
-/

namespace BareMetal.Pool

open CS Buddy Math Math.Block

variable {others : Set Block} {s : Pools} {pages before after : List Page} {page page' : Page}
  {mem : Memory} {i size fuel : ℕ}

/-! ## One page -/

/-- The stores of `malloc_` and `free` to a page. -/
def mark (mem : Memory) (page used i value : ℕ) : Memory :=
  setPageInfo (setField mem page 16 8 used) page i value

namespace Page

/-- The page with one more slot in use. -/
def take (page : Page) (i : ℕ) (slot : i < totalFor page.size) : Page where
  frame := page.frame
  size := page.size
  slots := insert i page.slots
  cls := page.cls
  occupied := Finset.insert_nonempty i page.slots
  bounded := by
    intro j hj
    rcases Finset.mem_insert.mp hj with rfl | hj
    · omega
    · exact page.bounded j hj

/-- The page with one slot less in use. -/
def give (page : Page) (i : ℕ) (left : (page.slots.erase i).Nonempty) : Page where
  frame := page.frame
  size := page.size
  slots := page.slots.erase i
  cls := page.cls
  occupied := left
  bounded := fun j hj => page.bounded j (Finset.mem_of_mem_erase hj)

theorem mem_take {slot : i < totalFor page.size} {j : ℕ} :
    j ∈ (page.take i slot).slots ↔ j = i ∨ j ∈ page.slots :=
  Finset.mem_insert

theorem mem_give {left : (page.slots.erase i).Nonempty} {j : ℕ} :
    j ∈ (page.give i left).slots ↔ j ≠ i ∧ j ∈ page.slots :=
  Finset.mem_erase

/-- The stores touch the header and `page_info` only. -/
theorem mark_writes {used value x : ℕ} (slot : i < totalFor page.size)
    (changed : mark mem page.frame used i value x ≠ mem x) : x ∈ page.info := by
  rw [mem_info]
  by_contra outside
  apply changed
  rw [mark, setPageInfo, setField, setField, aling8_sizeofPoolHeader,
    Memory.store_apply_of_outside (by omega), Memory.store_apply_of_outside (by omega)]

/-- The page shows the slots that are marked. -/
theorem Ok.mark {used value : ℕ} (ok : page.Ok mem) (slot : i < totalFor page.size)
    (frame : page'.frame = page.frame) (size : page'.size = page.size)
    (card : used = page'.slots.card)
    (slots : ∀ j < totalFor page.size,
      j ∈ page'.slots ↔ j = i ∧ value ≠ 0 ∨ j ≠ i ∧ j ∈ page.slots) :
    page'.Ok (mark mem page.frame used i value) := by
  have small := totalFor_le_info page.size
  -- the two stores are behind the size and the number of slots
  have kept : ∀ off width, 0 < width → off + width ≤ 16 →
      field (Pool.mark mem page.frame used i value) page.frame off width =
        field mem page.frame off width := by
    intro off width positive front
    rw [Pool.mark, setPageInfo, aling8_sizeofPoolHeader,
      field_setField_of_apart positive (by omega) (by omega) (by omega),
      field_setField_of_apart positive (by omega) (by omega) (by omega)]
  refine ⟨?_, ?_, ?_, fun j hj => ?_⟩
  · rw [frame, size]
    exact (kept 0 8 (by omega) (by omega)).trans ok.size
  · rw [frame, size]
    exact (kept 8 8 (by omega) (by omega)).trans ok.total
  · rw [frame, ← card]
    change field (setPageInfo _ _ _ _) _ 16 8 = _
    rw [setPageInfo, aling8_sizeofPoolHeader,
      field_setField_of_apart (by omega) (by omega) (by omega) (by omega),
      field_setField (by omega)]
  · rw [size] at hj
    rw [frame, slots j hj]
    change field (setPageInfo _ _ _ _) _ (32 + j) 1 ≠ 0 ↔ _
    rw [setPageInfo, aling8_sizeofPoolHeader]
    by_cases same : j = i
    · subst same
      rw [field_setField (by omega)]
      tauto
    · rw [field_setField_of_apart (by omega) (by omega) (by omega) (by omega),
        field_setField_of_apart (by omega) (by omega) (by omega) (by omega)]
      have marks := ok.marks j hj
      rw [pageInfo, aling8_sizeofPoolHeader] at marks
      tauto

theorem headerNext_mark {used value : ℕ} (slot : i < totalFor page.size) :
    headerNext (mark mem page.frame used i value) page.frame = headerNext mem page.frame := by
  have small := totalFor_le_info page.size
  rw [headerNext, headerNext, mark, setPageInfo, aling8_sizeofPoolHeader,
    field_setField_of_apart (by omega) (by omega) (by omega) (by omega),
    field_setField_of_apart (by omega) (by omega) (by omega) (by omega)]

end Page

/-- The other pages are at other frames. -/
theorem PoolOk.not_mem_others (inv : PoolOk others s (before ++ page :: after)) {other : Page}
    (listed : other ∈ before ++ after) : other.frame ≠ page.frame := by
  have distinct := inv.linked.nodup
  rw [List.map_append, List.map_cons] at distinct
  intro same
  refine (List.nodup_cons.mp (List.nodup_middle.mp distinct)).1 ?_
  rw [← same, ← List.map_append]
  exact List.mem_map_of_mem listed

/-- A page of the pool may be replaced by one that its header and `page_info` show. -/
theorem PoolOk.replace (inv : PoolOk others s (before ++ page :: after))
    (writes : ∀ x, mem x ≠ s.k.mem x → x ∈ page.info)
    (next : headerNext mem page.frame = headerNext s.k.mem page.frame)
    (ok : page'.Ok mem) (frame : page'.frame = page.frame) (size : page'.size = page.size) :
    PoolOk others (s.setMem mem) (before ++ page' :: after) := by
  have listed : page ∈ before ++ page :: after := by simp
  have elsewhere : ∀ other ∈ before ++ after, ∀ x ∈ other.info, mem x = s.k.mem x := by
    intro other inside x in_info
    by_contra changed
    refine inv.not_mem_others inside ?_
    rw [← Page.frame_of_info in_info, Page.frame_of_info (writes x changed)]
  have frames : (before ++ page' :: after).map Page.frame =
      (before ++ page :: after).map Page.frame := by simp [frame]
  refine ⟨?_, fun other inside => ?_, ?_, inv.zero⟩
  · -- the links are as before, also that of the page itself
    rw [frames]
    refine inv.linked.congr fun f hf => ?_
    obtain ⟨other, inside, rfl⟩ := List.mem_map.mp hf
    by_cases same : other ∈ before ++ after
    · exact Page.headerNext_congr (elsewhere other same)
    · obtain rfl : other = page := by
        simp only [List.mem_append, List.mem_cons] at inside same
        tauto
      exact next
  · by_cases same : other ∈ before ++ after
    · refine (inv.ok other ?_).congr (elsewhere other same)
      simp only [List.mem_append, List.mem_cons] at same ⊢
      tauto
    · obtain rfl : other = page' := by
        simp only [List.mem_append, List.mem_cons] at inside same
        tauto
      exact ok
  · have blocks : (before ++ page' :: after).map Page.block =
        (before ++ page :: after).map Page.block := by simp [Page.block, frame, size]
    rw [blocks]
    refine inv.buddy.with_mem fun x changed => ⟨page.block, ?_, Page.info_block (writes x changed)⟩
    exact .inl (.inl (List.mem_map_of_mem listed))

/-! ## The search of `malloc_` -/

theorem freeSlot_some {cur left j : ℕ} (found : freeSlot mem cur left i = some j) :
    (i ≤ j ∧ j < i + left) ∧ pageInfo mem cur j = 0 := by
  induction left generalizing i with
  | zero => simp [freeSlot] at found
  | succ left ih =>
    rw [freeSlot] at found
    split_ifs at found with free
    · obtain rfl := Option.some.inj found
      exact ⟨⟨le_rfl, by omega⟩, free⟩
    · obtain ⟨range, free'⟩ := ih found
      exact ⟨by omega, free'⟩

theorem freeSlot_none {cur left : ℕ} (none_found : freeSlot mem cur left i = none) {j : ℕ}
    (low : i ≤ j) (high : j < i + left) : pageInfo mem cur j ≠ 0 := by
  induction left generalizing i with
  | zero => omega
  | succ left ih =>
    rw [freeSlot] at none_found
    split_ifs at none_found with free
    rcases Nat.eq_or_lt_of_le low with rfl | lt
    · exact free
    · exact ih none_found lt (by omega)

/-- A page with fewer slots in use than it has has a free one, which the `for` loop of
`malloc_` finds. -/
theorem Page.Ok.freeSlot (ok : page.Ok mem) (room : page.slots.card < totalFor page.size) :
    ∃ j, freeSlot mem page.frame (totalFor page.size) 0 = some j ∧ j < totalFor page.size ∧
      j ∉ page.slots := by
  cases found : Pool.freeSlot mem page.frame (totalFor page.size) 0 with
  | some j =>
    obtain ⟨⟨-, high⟩, free⟩ := freeSlot_some found
    refine ⟨j, rfl, by omega, fun inside => (ok.marks j (by omega)).mpr inside free⟩
  | none =>
    -- all slots would be in use
    have all : Finset.range (totalFor page.size) ⊆ page.slots := by
      intro j hj
      have high := Finset.mem_range.mp hj
      exact (ok.marks j high).mp (freeSlot_none found (Nat.zero_le j) (by omega))
    have many := Finset.card_le_card all
    rw [Finset.card_range] at many
    omega

end BareMetal.Pool
