import BareMetal.Buddy.Model

/-!
# The pool allocator of `lib/malloc.c`

`malloc_` and `free` over the page allocator, in the same memory. A `pool_header` lies
at the start of its page, so a pointer to one is represented by the number of that
page; frame 0 stands for the null pointer. The fields are read from and stored to
memory at the offsets of `struct pool_header`, and `page_info` are the bytes behind it.

The search of `malloc_` and the page allocator take a bound on their depth.
-/

namespace BareMetal.Pool

open CS Buddy

/-- `PAGE_MAX_ENTRY`. -/
def pageMaxEntry : ℕ := 0x3c000

/-! ## Fields of pages -/

/-- `width` bytes at offset `off` of a page. -/
def field (mem : Memory) (page off width : ℕ) : ℕ := mem.load (page * 0x1000 + off) width

/-- A store of `width` bytes at offset `off` of a page. -/
def setField (mem : Memory) (page off width value : ℕ) : Memory :=
  mem.store (page * 0x1000 + off) width value

section Fields

variable {mem : Memory} {page page' off off' width width' value : ℕ}

theorem field_setField (positive : 0 < width) :
    field (setField mem page off width value) page off width = value :=
  Memory.load_store_self positive

/-- A store to another page, or to another place of the page, is not seen. -/
theorem field_setField_of_apart (positive : 0 < width') (inside : off + width ≤ 0x1000)
    (inside' : off' + width' ≤ 0x1000)
    (apart : page ≠ page' ∨ off' + width' ≤ off ∨ off + width ≤ off') :
    field (setField mem page off width value) page' off' width' =
      field mem page' off' width' := by
  refine Memory.load_store_of_disjoint positive ?_
  omega

end Fields

/-- The page that a `pool_header` pointer holds. -/
def headerAt (addr : ℕ) : Option ℕ := if addr = 0 then none else some (addr / 0x1000)

/-- The address of a `pool_header`. -/
def headerPtr : Option ℕ → ℕ
  | none => 0
  | some page => page * 0x1000

/-- `page->size`. -/
abbrev headerSize (mem : Memory) (page : ℕ) : ℕ := field mem page 0 8

/-- `page->total`. -/
abbrev headerTotal (mem : Memory) (page : ℕ) : ℕ := field mem page 8 8

/-- `page->used`. -/
abbrev headerUsed (mem : Memory) (page : ℕ) : ℕ := field mem page 16 8

/-- `page->next`. -/
def headerNext (mem : Memory) (page : ℕ) : Option ℕ := headerAt (field mem page 24 8)

/-- `page->next = next`. -/
def setHeaderNext (mem : Memory) (page : ℕ) (next : Option ℕ) : Memory :=
  setField mem page 24 8 (headerPtr next)

/-- `aling8`. -/
def aling8 (value : ℕ) : ℕ := if value % 8 = 0 then value else 8 + value - value % 8

/-- `sizeof(pool_header)`. -/
def sizeofPoolHeader : ℕ := 32

/-- `page_info[i]`. -/
abbrev pageInfo (mem : Memory) (page i : ℕ) : ℕ :=
  field mem page (aling8 sizeofPoolHeader + i) 1

/-- `page_info[i] = value`. -/
abbrev setPageInfo (mem : Memory) (page i value : ℕ) : Memory :=
  setField mem page (aling8 sizeofPoolHeader + i) 1 value

/-! ## State -/

/-- The page allocator with its memory, and `pool`. -/
structure Pools where
  k : Allocator
  pool : Option ℕ

/-- A change to memory. -/
def Pools.setMem (s : Pools) (mem : Memory) : Pools := { s with k := { s.k with mem := mem } }

/-! ## `malloc_` -/

/-- The class of a request: the power of two that covers it, doubled above `0x800`. -/
def classOf (size : ℕ) : Outcome ℕ := do
  let size := if size < 8 then 8 else size
  let order ← log2 (toInt32 (subU64 size 1 : ℕ))
  let size := power2 (order + 1)
  return if size > 0x800 then size * 2 else size

/-- The `for` loop of `malloc_`: the first slot from `i` on that is not in use. -/
def freeSlot (mem : Memory) (cur : ℕ) : ℕ → ℕ → Option ℕ
  | 0, _ => none
  | left + 1, i => if pageInfo mem cur i = 0 then some i else freeSlot mem cur left (i + 1)

/-- The address of slot `i`. -/
def slotAddr (mem : Memory) (page i : ℕ) : ℕ :=
  page * 0x1000 + aling8 sizeofPoolHeader + aling8 (headerTotal mem page) +
    headerSize mem page * i

/-- The `while` loop of `malloc_`. A page whose slots are all marked is looked at again,
with `used` raised once more. -/
def searchPools (size : ℕ) : ℕ → Option ℕ → Memory → Outcome (Option ℕ × Memory)
  | 0, _, _ => .error .outOfFuel
  | _ + 1, none, mem => .ok (none, mem)
  | fuel + 1, some cur, mem =>
    if headerSize mem cur < size ∨ headerSize mem cur ≥ 2 * size ∨
        headerUsed mem cur ≥ headerTotal mem cur then
      searchPools size fuel (headerNext mem cur) mem
    else
      let mem := setField mem cur 16 8 (headerUsed mem cur + 1)
      match freeSlot mem cur (headerTotal mem cur) 0 with
      | some i => .ok (some (slotAddr mem cur i), setPageInfo mem cur i 1)
      | none => searchPools size fuel (some cur) mem

theorem searchPools_none (size fuel : ℕ) (mem : Memory) :
    searchPools size (fuel + 1) none mem = .ok (none, mem) :=
  (rfl)

theorem searchPools_some (size fuel page : ℕ) (mem : Memory) :
    searchPools size (fuel + 1) (some page) mem =
      if headerSize mem page < size ∨ headerSize mem page ≥ 2 * size ∨
          headerUsed mem page ≥ headerTotal mem page then
        searchPools size fuel (headerNext mem page) mem
      else
        let mem := setField mem page 16 8 (headerUsed mem page + 1)
        match freeSlot mem page (headerTotal mem page) 0 with
        | some i => .ok (some (slotAddr mem page i), setPageInfo mem page i 1)
        | none => searchPools size fuel (some page) mem :=
  (rfl)

/-- The `for` loop of `open_page`: clears `page_info` from 1 up to `total`. -/
def clearInfo (mem : Memory) (page : ℕ) : ℕ → Memory
  | 0 => mem
  | n + 1 => if n = 0 then clearInfo mem page n else setPageInfo (clearInfo mem page n) page n 0

/-- The number of slots `open_page` makes. -/
def totalFor (size : ℕ) : ℕ := (0x1000 - aling8 sizeofPoolHeader - 16) / (size + 1)

/-- The stores of `open_page` to the new page. -/
def initPage (mem : Memory) (page size : ℕ) (next : Option ℕ) : Memory :=
  let mem := setField mem page 0 8 size
  let mem := setField mem page 8 8 (totalFor size)
  let mem := setField mem page 16 8 1
  let mem := setHeaderNext mem page next
  let mem := setPageInfo mem page 0 1
  clearInfo mem page (totalFor size)

/-- `open_page`. -/
def openPage (fuel size : ℕ) (s : Pools) : Outcome (ℕ × Pools) := do
  let (pageIndex, k) ← pageAllocate fuel size s.k
  let addr := 0x1000 * toU64 pageIndex % 2 ^ 64
  let mem := initPage k.mem (addr / 0x1000) size s.pool
  return (addr + aling8 sizeofPoolHeader + aling8 (headerTotal mem (addr / 0x1000)),
    { k := { k with mem := mem }, pool := headerAt addr })

/-- `malloc_`. -/
def malloc (fuel size : ℕ) (s : Pools) : Outcome (ℕ × Pools) := do
  let size ← classOf size
  let (found, mem) ← searchPools size fuel s.pool s.k.mem
  match found with
  | some addr => return (addr, s.setMem mem)
  | none => openPage fuel size (s.setMem mem)

/-! ## `free` -/

/-- The `while` loop of `remove_page`: the page in front of `page`. -/
def pageBefore (mem : Memory) (page : ℕ) : ℕ → Option ℕ → Option ℕ → Outcome (Option ℕ)
  | 0, _, _ => .error .outOfFuel
  | fuel + 1, pre, cur =>
    if cur = some page then .ok pre
    else
      match cur with
      | none => .error .nullPointer
      | some c => pageBefore mem page fuel (some c) (headerNext mem c)

/-- `remove_page`. -/
def removePage (fuel page : ℕ) (s : Pools) : Outcome Pools := do
  let pre ← pageBefore s.k.mem page fuel none s.pool
  let next := headerNext s.k.mem page
  let s :=
    match pre with
    | none => { s with pool := next }
    | some pre => s.setMem (setHeaderNext s.k.mem pre next)
  let k ← pageFree fuel page s.k
  return { s with k := k }

/-- `free`. -/
def free (fuel addr : ℕ) (s : Pools) : Outcome Pools :=
  let mem := s.k.mem
  let page := addr / 0x1000
  let index := subU64 (subU64 (addr % 0x1000) (aling8 (headerTotal mem page)))
    (aling8 sizeofPoolHeader) / headerSize mem page
  if headerUsed mem page ≠ 1 then
    let mem := setField mem page 16 8 (subU64 (headerUsed mem page) 1)
    .ok (s.setMem (setPageInfo mem page index 0))
  else removePage fuel page s

end BareMetal.Pool
