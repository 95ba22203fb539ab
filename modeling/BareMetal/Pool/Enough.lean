import BareMetal.Buddy.Completeness
import BareMetal.Pool.Malloc
import BareMetal.Pool.OpenPage

/-!
# Whether a chunk is large enough

`malloc_` computes a class from the size, and from there on knows the class only. The
class is capped at `2^18`, so a large request gets a block of 256 KiB, of which the header
takes 32 bytes; and `log2` takes an `int`, so a request of `2^31` bytes or more gets
whatever the lower half of its size asks for, or does not return.

## Main results

* `InOrder.gives_enough_iff` — the requests for which the chunk is large enough
-/

namespace BareMetal.Pool

open CS Buddy Math Math.Block

variable {s s' : Pools} {k : Allocator} {mem : Memory} {cur : Option ℕ} {frames : List ℕ}
  {cls size addr page i fuel : ℕ}

/-! ## The law -/

/-- At least `size` bytes from `addr` lie in the chunk there, a slot of its page or, where
the page has no slots, the block of the page. -/
def Encloses (s : Pools) (addr size : ℕ) : Prop :=
  let page := addr / 0x1000
  if headerTotal s.k.mem page = 0 then
    ∃ l, ⟨page, l⟩ ∈ usedBlocks pageMaxEntry s.k.frame ∧ addr + size ≤ (page + 2 ^ l) * 0x1000
  else
    (∃ i < headerTotal s.k.mem page, addr = slotAddr s.k.mem page i) ∧
      size ≤ headerSize s.k.mem page

/-- `malloc_` returns, and gives at least what was asked for. -/
def GivesEnough (s : Pools) (size : ℕ) : Prop :=
  ∃ addr s', Returns (fun fuel => malloc fuel size s) (addr, s') ∧ Encloses s' addr size

/-- What `malloc_` relies on: the pages of the pool are linked, each has the slots that
fit, with a free one unless it is used up, and the page allocator is in order. -/
structure InOrder (s : Pools) (frames : List ℕ) : Prop where
  linked : Linked (headerNext s.k.mem) s.pool frames
  total : ∀ page ∈ frames, headerTotal s.k.mem page = totalFor (headerSize s.k.mem page)
  room : ∀ page ∈ frames, headerUsed s.k.mem page < headerTotal s.k.mem page →
    ∃ i < headerTotal s.k.mem page, pageInfo s.k.mem page i = 0
  wellFormed : WellFormed pageMaxEntry s.k

/-- A pool with its slots counted is in order. -/
theorem PoolOk.inOrder {others : Set Block} {pages : List Page} (inv : PoolOk others s pages) :
    InOrder s (pages.map Page.frame) where
  linked := inv.linked
  total := by
    intro frame listed
    obtain ⟨page, mem, rfl⟩ := List.mem_map.mp listed
    rw [(inv.ok page mem).total, (inv.ok page mem).size]
  room := by
    intro frame listed room
    obtain ⟨page, mem, rfl⟩ := List.mem_map.mp listed
    have ok := inv.ok page mem
    rw [ok.used, ok.total] at room
    obtain ⟨i, -, inside, free⟩ := ok.freeSlot room
    refine ⟨i, by rwa [ok.total], ?_⟩
    by_contra marked
    exact free ((ok.marks i inside).mp marked)
  wellFormed := inv.buddy.wellFormed

/-! ## Slots -/

/-- Slots lie in their page. -/
theorem slotOffset_lt (slot : i < totalFor size) : slotOffset size i < 0x1000 := by
  have layout := totalFor_le size
  have bounds := aling8_bounds (totalFor size)
  have slots : size * i + size ≤ totalFor size * size := by
    rw [← Nat.mul_succ, Nat.mul_comm (totalFor size)]
    exact Nat.mul_le_mul_left _ (by omega)
  rw [slotOffset]
  rcases Nat.eq_zero_or_pos size with rfl | positive <;> omega

theorem slotAddr_eq (total : headerTotal mem page = totalFor (headerSize mem page)) :
    slotAddr mem page i = page * 0x1000 + slotOffset (headerSize mem page) i := by
  rw [slotAddr, slotOffset, total, aling8_sizeofPoolHeader, Nat.add_assoc, Nat.add_assoc,
    Nat.add_assoc]

/-- The chunk in a slot is as large as the size of the page. -/
theorem encloses_slot (total : headerTotal s.k.mem page = totalFor (headerSize s.k.mem page))
    (slot : i < headerTotal s.k.mem page) :
    Encloses s (slotAddr s.k.mem page i) size ↔ size ≤ headerSize s.k.mem page := by
  have small : slotOffset (headerSize s.k.mem page) i < 0x1000 := slotOffset_lt (total ▸ slot)
  have at_page : slotAddr s.k.mem page i / 0x1000 = page := by
    rw [slotAddr_eq total]
    omega
  rw [Encloses, at_page, if_neg (by omega)]
  exact and_iff_right ⟨i, slot, rfl⟩

/-! ## The search -/

/-- Marking a slot keeps the shape of the page. -/
theorem mark_shape (mem : Memory) (page used value : ℕ) (slot : i < 4048) :
    headerTotal (mark mem page used i value) page = headerTotal mem page ∧
      headerSize (mark mem page used i value) page = headerSize mem page := by
  rw [mark, setPageInfo, aling8_sizeofPoolHeader]
  constructor
  · rw [headerTotal, field_setField_of_apart (by omega) (by omega) (by omega) (by omega),
      field_setField_of_apart (by omega) (by omega) (by omega) (by omega)]
  · rw [headerSize, field_setField_of_apart (by omega) (by omega) (by omega) (by omega),
      field_setField_of_apart (by omega) (by omega) (by omega) (by omega)]

/-- What the search ends with. -/
def Found (cls : ℕ) (frames : List ℕ) (mem : Memory) (r : Option ℕ × Memory) : Prop :=
  r = (none, mem) ∨ ∃ page ∈ frames, ∃ i < headerTotal mem page, cls ≤ headerSize mem page ∧
    r = (some (slotAddr mem page i), mark mem page (headerUsed mem page + 1) i 1)

/-- What the loop does at a page. -/
theorem searchPools_at (cls fuel : ℕ)
    (total : headerTotal mem page = totalFor (headerSize mem page))
    (room : headerUsed mem page < headerTotal mem page →
      ∃ i < headerTotal mem page, pageInfo mem page i = 0) :
    searchPools cls (fuel + 1) (some page) mem = searchPools cls fuel (headerNext mem page) mem ∨
      ∃ i < headerTotal mem page, cls ≤ headerSize mem page ∧
        searchPools cls (fuel + 1) (some page) mem =
          .ok (some (slotAddr mem page i), mark mem page (headerUsed mem page + 1) i 1) := by
  have layout := totalFor_le (headerSize mem page)
  have slots : headerTotal mem page ≤ 4048 := by omega
  rw [searchPools_some]
  split_ifs with passed
  · exact .inl rfl
  · simp only [not_or] at passed
    obtain ⟨fits, -, unused⟩ := passed
    obtain ⟨j, inside, free⟩ := room (not_le.mp unused)
    have total' : headerTotal (setField mem page 16 8 (headerUsed mem page + 1)) page =
        headerTotal mem page := field_setField_of_apart (by omega) (by omega) (by omega) (by omega)
    have size' : headerSize (setField mem page 16 8 (headerUsed mem page + 1)) page =
        headerSize mem page := field_setField_of_apart (by omega) (by omega) (by omega) (by omega)
    dsimp only
    rw [total', freeSlot_setUsed (by omega)]
    cases found : freeSlot mem page (headerTotal mem page) 0 with
    | none => exact absurd free (freeSlot_none found (Nat.zero_le j) (by omega))
    | some i =>
      obtain ⟨⟨-, high⟩, -⟩ := freeSlot_some found
      refine .inr ⟨i, by omega, not_lt.mp fits, ?_⟩
      have addr : slotAddr (setField mem page 16 8 (headerUsed mem page + 1)) page i =
          slotAddr mem page i := by rw [slotAddr, slotAddr, total', size']
      dsimp only
      rw [addr]
      rfl

theorem searchPools_found {r : Option ℕ × Memory} (linked : Linked (headerNext mem) cur frames)
    (total : ∀ page ∈ frames, headerTotal mem page = totalFor (headerSize mem page))
    (room : ∀ page ∈ frames, headerUsed mem page < headerTotal mem page →
      ∃ i < headerTotal mem page, pageInfo mem page i = 0)
    (run : searchPools cls fuel cur mem = .ok r) : Found cls frames mem r := by
  induction frames generalizing cur fuel with
  | nil =>
    obtain rfl : cur = none := linked
    cases fuel with
    | zero => cases run
    | succ fuel => exact .inl (Except.ok.inj run).symm
  | cons page frames ih =>
    obtain ⟨rfl, rest⟩ := linked
    cases fuel with
    | zero => cases run
    | succ fuel =>
      have here := searchPools_at cls fuel (total page List.mem_cons_self)
        (room page List.mem_cons_self)
      rcases here with skipped | ⟨i, inside, fits, marked⟩
      · -- the search goes on behind the page
        rw [skipped] at run
        rcases ih rest (fun p hp => total p (List.mem_cons_of_mem page hp))
          (fun p hp => room p (List.mem_cons_of_mem page hp)) run with none | ⟨p, listed, slot⟩
        · exact .inl none
        · exact .inr ⟨p, List.mem_cons_of_mem page listed, slot⟩
      · rw [marked, Except.ok.injEq] at run
        exact .inr ⟨page, List.mem_cons_self, i, inside, fits, run.symm⟩

theorem searchPools_ends (linked : Linked (headerNext mem) cur frames)
    (total : ∀ page ∈ frames, headerTotal mem page = totalFor (headerSize mem page))
    (room : ∀ page ∈ frames, headerUsed mem page < headerTotal mem page →
      ∃ i < headerTotal mem page, pageInfo mem page i = 0) (enough : frames.length < fuel) :
    ∃ r, searchPools cls fuel cur mem = .ok r := by
  induction frames generalizing cur fuel with
  | nil =>
    obtain rfl : cur = none := linked
    obtain ⟨fuel, rfl⟩ := Nat.exists_eq_succ_of_ne_zero (by omega : fuel ≠ 0)
    exact ⟨_, rfl⟩
  | cons page frames ih =>
    obtain ⟨rfl, rest⟩ := linked
    obtain ⟨fuel, rfl⟩ := Nat.exists_eq_succ_of_ne_zero (by omega : fuel ≠ 0)
    have here := searchPools_at cls fuel (total page List.mem_cons_self)
      (room page List.mem_cons_self)
    rcases here with skipped | ⟨i, -, -, marked⟩
    · rw [List.length_cons] at enough
      obtain ⟨r, run⟩ := ih rest (fun p hp => total p (List.mem_cons_of_mem page hp))
        (fun p hp => room p (List.mem_cons_of_mem page hp)) (show frames.length < fuel by omega)
      exact ⟨r, skipped.trans run⟩
    · exact ⟨_, marked⟩

/-! ## New pages -/

/-- The bytes that a new page has for a chunk. -/
def Covers (cls size : ℕ) : Prop := cls ≤ 0x800 ∧ size ≤ cls ∨ 0x2000 ≤ cls ∧ size + 32 ≤ cls

/-- The chunk of a page just opened is its first slot, or the rest of the block. -/
theorem encloses_new {index : ℕ} {next : Option ℕ} (isClass : PoolClass cls)
    (used : ⟨index, levelFor cls⟩ ∈ usedBlocks pageMaxEntry s.k.frame)
    (init : s.k.mem = initPage mem index cls next) :
    Encloses s (index * 0x1000 + 32 + aling8 (totalFor cls)) size ↔ Covers cls size := by
  obtain ⟨total, stride⟩ := initPage_shape mem index cls next
  rw [← init] at total stride
  rcases isClass.range with ⟨positive, small⟩ | ⟨l, low, high, rfl⟩
  · have slots := totalFor_pos small
    have addr : slotAddr s.k.mem index 0 = index * 0x1000 + 32 + aling8 (totalFor cls) := by
      rw [slotAddr, total, aling8_sizeofPoolHeader, Nat.mul_zero, Nat.add_zero]
    rw [← addr, encloses_slot (by rw [total, stride]) (by omega), stride, Covers]
    omega
  · have lower : 2 ^ 1 ≤ 2 ^ l := Nat.pow_le_pow_right (by decide) low
    have none : totalFor (2 ^ l * 0x1000) = 0 := totalFor_eq_zero (by omega)
    have unaligned : aling8 0 = 0 := rfl
    have at_page : (index * 0x1000 + 32 + 0) / 0x1000 = index := by omega
    rw [levelFor_block] at used
    rw [none] at total ⊢
    rw [unaligned, Encloses, at_page, if_pos total, Covers]
    constructor
    · rintro ⟨m, block, fits⟩
      -- the table shows one level
      have same : ((m : ℕ) : ℤ) = l := block.1.2.symm.trans used.1.2
      obtain rfl : m = l := by omega
      rw [Nat.add_mul] at fits
      exact .inr (by omega)
    · intro covers
      refine ⟨l, used, ?_⟩
      rw [Nat.add_mul]
      omega

/-- What `open_page` returns when `page_allocate` has a block. -/
theorem openPage_encloses (wellFormed : WellFormed pageMaxEntry s.k) (isClass : PoolClass cls)
    (block : ∃ (index : ℕ) (k' : Allocator),
      Returns (fun fuel => pageAllocate fuel cls s.k) (index, k'))
    (run : openPage fuel cls s = .ok (addr, s')) : Encloses s' addr size ↔ Covers cls size := by
  obtain ⟨lists, rep⟩ := wellFormed
  have positive : 0 < cls ∧ cls ≤ maxRequest :=
    ⟨isClass.bounds.1, isClass.bounds.2.trans (by decide)⟩
  obtain ⟨index, k', returns⟩ := block
  obtain ⟨⟨result, k₁⟩, allocated, run⟩ := outcome_bind_eq_ok.mp run
  have same := (pageAllocate_mono cls s.k).returns_unique returns ⟨fuel, allocated⟩
  obtain ⟨rfl, rfl⟩ : (index : ℤ) = result ∧ k' = k₁ := Prod.mk.inj same
  rcases rep.pageAllocate_ok positive.1 positive.2 allocated with ⟨refused, -⟩ | ⟨i, head, effect⟩
  · omega
  · obtain rfl : index = i := by omega
    have inside : index < 0x3c000 := effect.taken.1.1
    have pointer : 0x1000 * toU64 index % 2 ^ 64 = index * 0x1000 := by
      rw [toU64]
      omega
    have page : index * 0x1000 / 0x1000 = index := Nat.mul_div_cancel _ (by decide)
    simp only [outcome_pure, Except.ok.injEq, Prod.mk.injEq, aling8_sizeofPoolHeader, pointer,
      page, (initPage_shape ..).1] at run
    obtain ⟨rfl, rfl⟩ := run
    exact encloses_new isClass effect.taken rfl

/-! ## `malloc_` -/

/-- What `malloc_` returns, when `page_allocate` has a block of the class. -/
theorem InOrder.malloc_encloses (order : InOrder s frames) (cls_run : classOf size = .ok cls)
    (block : ∃ (index : ℕ) (k' : Allocator),
      Returns (fun fuel => pageAllocate fuel cls s.k) (index, k'))
    (run : malloc fuel size s = .ok (addr, s')) :
    (∃ stride, cls ≤ stride ∧ stride < 4048 ∧ (Encloses s' addr size ↔ size ≤ stride)) ∨
      (Encloses s' addr size ↔ Covers cls size) := by
  obtain ⟨cls', cls_run', run⟩ := outcome_bind_eq_ok.mp run
  obtain rfl : cls = cls' := Except.ok.inj (cls_run.symm.trans cls_run')
  obtain ⟨⟨found, mem⟩, search, run⟩ := outcome_bind_eq_ok.mp run
  rcases searchPools_found order.linked order.total order.room search with
    none | ⟨page, listed, i, inside, fits, marked⟩
  · obtain ⟨rfl, rfl⟩ := Prod.mk.inj none
    exact .inr (openPage_encloses order.wellFormed (classOf_poolClass cls_run) block run)
  · obtain ⟨rfl, rfl⟩ := Prod.mk.inj marked
    obtain ⟨rfl, rfl⟩ := Prod.mk.inj (Except.ok.inj run)
    have total := order.total page listed
    have layout := totalFor_le (headerSize s.k.mem page)
    have slots : headerTotal s.k.mem page ≤ 4048 := by omega
    obtain ⟨total', stride⟩ := mark_shape s.k.mem page (headerUsed s.k.mem page + 1) 1
      (show i < 4048 by omega)
    -- the page has a slot, so its size is less than a page
    have narrow : headerSize s.k.mem page < 4048 := by
      by_contra wide
      have none : totalFor (headerSize s.k.mem page) = 0 :=
        Nat.div_eq_of_lt (by rw [aling8_sizeofPoolHeader]; omega)
      omega
    have addr : slotAddr (mark s.k.mem page (headerUsed s.k.mem page + 1) i 1) page i =
        slotAddr s.k.mem page i := by rw [slotAddr, slotAddr, total', stride]
    refine .inl ⟨_, fits, narrow, ?_⟩
    rw [← addr, ← stride]
    exact encloses_slot (total'.trans (total.trans (congrArg _ stride.symm))) (total'.symm ▸ inside)

theorem InOrder.malloc_ends (order : InOrder s frames) (cls_run : classOf size = .ok cls)
    (block : ∃ (index : ℕ) (k' : Allocator),
      Returns (fun fuel => pageAllocate fuel cls s.k) (index, k')) :
    ∃ addr s', Returns (fun fuel => malloc fuel size s) (addr, s') := by
  obtain ⟨index, k', fuel, allocated⟩ := block
  -- the search takes a call for each page and one at the end of the list
  let enough := max (frames.length + 1) fuel
  obtain ⟨r, search⟩ : ∃ r, searchPools cls enough s.pool s.k.mem = .ok r :=
    searchPools_ends order.linked order.total order.room
      (Nat.lt_of_succ_le (Nat.le_max_left _ _))
  have ends : ∃ r, malloc enough size s = .ok r := by
    rcases searchPools_found order.linked order.total order.room search with
      rfl | ⟨page, -, i, -, -, rfl⟩
    · have allocated' : pageAllocate enough cls s.k = .ok (index, k') :=
        (pageAllocate_mono cls s.k).of_le (Nat.le_max_right _ _) allocated
      obtain ⟨r, opened⟩ : ∃ r, openPage enough cls s = .ok r :=
        ⟨_, outcome_bind_eq_ok.mpr ⟨_, allocated', rfl⟩⟩
      refine ⟨r, outcome_bind_eq_ok.mpr ⟨cls, cls_run, outcome_bind_eq_ok.mpr ⟨_, search, ?_⟩⟩⟩
      exact opened
    · exact ⟨_, outcome_bind_eq_ok.mpr ⟨cls, cls_run, outcome_bind_eq_ok.mpr ⟨_, search, rfl⟩⟩⟩
  obtain ⟨⟨addr, s'⟩, run⟩ := ends
  exact ⟨addr, s', enough, run⟩

/-- **Requests that are served in full.** Where `page_allocate` has a block, `malloc_` gives
at least what was asked for exactly up to 256 KiB less the header. -/
theorem InOrder.gives_enough_iff (order : InOrder s frames)
    (block : ∀ cls, classOf size = .ok cls → ∃ (index : ℕ) (k' : Allocator),
      Returns (fun fuel => pageAllocate fuel cls s.k) (index, k')) :
    GivesEnough s size ↔ size ≤ 2 ^ 18 - 32 := by
  constructor
  · rintro ⟨addr, s', ⟨fuel, run⟩, encloses⟩
    obtain ⟨cls, cls_run, -⟩ := outcome_bind_eq_ok.mp run
    rcases order.malloc_encloses cls_run (block cls cls_run) run with
      ⟨stride, -, narrow, slot⟩ | new
    · have := slot.mp encloses
      omega
    · have covers := new.mp encloses
      rw [Covers] at covers
      have largest := (classOf_poolClass cls_run).bounds.2
      omega
  · intro request
    obtain ⟨cls, cls_run, covers⟩ := classOf_covers request
    obtain ⟨addr, s', fuel, run⟩ := order.malloc_ends cls_run (block cls cls_run)
    refine ⟨addr, s', ⟨fuel, run⟩, ?_⟩
    rcases order.malloc_encloses cls_run (block cls cls_run) run with
      ⟨stride, fits, narrow, slot⟩ | new
    · refine slot.mpr ?_
      rcases covers with ⟨-, le⟩ | ⟨large, -⟩ <;> omega
    · exact new.mpr covers

/-! ## A block of 256 KiB -/

/-- Splitting the last block of `upperFree` supplies each level below. -/
theorem upperFree_divided {l : ℕ} (below : l ≤ 14) :
    ∃ k lists, Represents 0x3c000 k lists ∧ lists l ≠ [] ∧
      usedBlocks 0x3c000 k.frame = usedBlocks 0x3c000 upperFree.frame := by
  induction below using Nat.decreasingInduction with
  | self =>
    obtain ⟨lists, rep⟩ := upperFree_wellFormed
    refine ⟨_, lists, rep, List.ne_nil_of_mem (a := 0x38000) ?_, rfl⟩
    rw [rep.mem_lists]
    refine ⟨⟨by decide, ?_⟩, ?_⟩ <;> rw [upperFree, addPageItems_frame] <;> rfl
  | of_succ l lt ih =>
    obtain ⟨k, lists, rep, free, used⟩ := ih
    obtain ⟨i, rest, head⟩ := List.exists_cons_of_ne_nil free
    obtain ⟨k', -, rep', used', -⟩ := rep.pageDivide_cons head
    exact ⟨k', _, rep', by simp [splitLists], used'.trans used⟩

/-- With such a block the pool is in order, and `page_allocate` has a block of the last class. -/
theorem lastClass_block : ∃ s, InOrder s [] ∧ ∀ size, 2 ^ 17 < size → size ≤ 2 ^ 30 →
    ∀ cls, classOf size = .ok cls → ∃ (index : ℕ) (k' : Allocator),
      Returns (fun fuel => pageAllocate fuel cls s.k) (index, k') := by
  obtain ⟨k, lists, rep, free, -⟩ := upperFree_divided (l := 6) (by decide)
  refine ⟨⟨k, none⟩, ⟨rfl, by simp, by simp, lists, rep⟩, fun size low high cls run => ?_⟩
  obtain rfl : 0x40000 = cls := Except.ok.inj ((classOf_capped low high).symm.trans run)
  obtain ⟨index, rest, head⟩ := List.exists_cons_of_ne_nil free
  have level : levelFor 0x40000 = 6 := by decide
  exact ⟨index, _, 0, rep.pageAllocate_cons (by decide) (by decide) (level ▸ head) 0⟩

/-- The largest request that is served in full. -/
theorem lastClass_gives_enough : ∃ s, GivesEnough s (2 ^ 18 - 32) := by
  obtain ⟨s, order, block⟩ := lastClass_block
  exact ⟨s, (order.gives_enough_iff (block _ (by decide) (by decide))).mpr le_rfl⟩

/-- One byte more is not; a request of `2^30 + 1` bytes does not return, and one of
`2^31 + 1` bytes gets a single byte. -/
theorem lastClass_not_enough :
    (∃ s, InOrder s [] ∧ (∀ cls, classOf (2 ^ 18 - 31) = .ok cls →
        ∃ (index : ℕ) (k' : Allocator),
          Returns (fun fuel => pageAllocate fuel cls s.k) (index, k')) ∧
      ¬ GivesEnough s (2 ^ 18 - 31)) ∧
    classOf (2 ^ 30 + 1) = .error .outOfFuel ∧ classOf (2 ^ 31 + 1) = .ok 1 := by
  refine ⟨?_, rfl, rfl⟩
  obtain ⟨s, order, block⟩ := lastClass_block
  refine ⟨s, order, block _ (by decide) (by decide), ?_⟩
  rintro ⟨addr, s', ⟨fuel, run⟩, encloses⟩
  have cls_run : classOf (2 ^ 18 - 31) = .ok 0x40000 := classOf_capped (by decide) (by decide)
  rcases order.malloc_encloses cls_run (block _ (by decide) (by decide) _ cls_run) run with
    ⟨stride, -, narrow, slot⟩ | new
  · have := slot.mp encloses
    omega
  · have covers := new.mp encloses
    rw [Covers] at covers
    omega

end BareMetal.Pool
