import BareMetal.CS.MachineInt
import BareMetal.CS.Memory
import BareMetal.CS.Outcome

/-!
# The page allocator of `lib/malloc.c`

The frame table, the seventeen free lists and the items threaded through the free
pages, with the functions that work on them. A `page_item` lives in the last 24
bytes of the page of its frame, so a pointer to one is represented by the number
of that frame; the fields are read from and stored to memory at the offsets of
`struct page_item`. `frame[]` and `page_list[]` are total maps: what lies past
their ends is whatever the surrounding memory holds.

`pageDivide` and `merge` call themselves without a bound of their own and take
one on their depth.
-/

namespace BareMetal.Buddy

open CS

/-! ## Constants and arithmetic -/

/-- `PAGE_MAX_ORDER`, the level of the largest block. -/
def pageMaxOrder : ℤ := 16

/-- `PAGE_FREE`, the mark of a frame inside a free block. -/
def pageFreeMark : ℤ := -1

/-- `PAGE_ALLOCATED`, the mark of a frame inside an allocated block. -/
def pageAllocatedMark : ℤ := -2

/-- `power2`: doubles `ans` once for each `i < value`. -/
def power2 (value : ℤ) : ℕ := (· * 2)^[value.toNat] 1

/-- The loop of `log2`. After 32 doublings `ans` has left its 32 bits and stays 0. -/
def log2Loop (value : ℤ) : ℕ → ℤ → ℤ → Outcome ℤ
  | 0, _, _ => .error .outOfFuel
  | fuel + 1, ans, i =>
    if ans > value then
      .ok (if i - 1 > pageMaxOrder then pageMaxOrder else i - 1)
    else log2Loop value fuel (toInt32 (ans * 2)) (i + 1)

/-- `log2`, capped at `PAGE_MAX_ORDER`; it is `-1` at 0. -/
def log2 (value : ℤ) : Outcome ℤ := log2Loop value 33 1 0

/-- The level `page_allocate` looks for: `log2((size-1)/0x1000)+1`. -/
def pageLevel (size : ℕ) : Outcome ℤ := do
  let order ← log2 (toInt32 (subU64 size 1 / 0x1000 : ℕ))
  return order + 1

/-! ## Page items -/

/-- The address of the item of a frame. -/
def itemAddr (i : ℕ) : ℕ := i * 0x1000 + 0x1000 - 24

/-- The address a `page_item` pointer holds. -/
def itemPtr : Option ℕ → ℕ
  | none => 0
  | some i => itemAddr i

/-- The item an address points to. -/
def itemAt (addr : ℕ) : Option ℕ := if addr = 0 then none else some (addr / 0x1000)

@[simp] theorem itemAt_itemPtr (p : Option ℕ) : itemAt (itemPtr p) = p := by
  cases p with
  | none => rfl
  | some i =>
    have nonzero : itemAddr i ≠ 0 := by unfold itemAddr; omega
    have page : itemAddr i / 0x1000 = i := by unfold itemAddr; omega
    simp [itemAt, itemPtr, nonzero, page]

def itemIndex (mem : Memory) (i : ℕ) : ℕ := mem.load (itemAddr i) 4

def itemPrevious (mem : Memory) (i : ℕ) : Option ℕ := itemAt (mem.load (itemAddr i + 8) 8)

def itemNext (mem : Memory) (i : ℕ) : Option ℕ := itemAt (mem.load (itemAddr i + 16) 8)

def setItemIndex (mem : Memory) (i value : ℕ) : Memory := mem.store (itemAddr i) 4 value

def setItemPrevious (mem : Memory) (i : ℕ) (p : Option ℕ) : Memory :=
  mem.store (itemAddr i + 8) 8 (itemPtr p)

def setItemNext (mem : Memory) (i : ℕ) (p : Option ℕ) : Memory :=
  mem.store (itemAddr i + 16) 8 (itemPtr p)

section ItemFields

variable (mem : Memory) (i value : ℕ) (p : Option ℕ)

private theorem itemField_load_store {i j a b width width' value : ℕ} (mem : Memory)
    (positive : 0 < width') (inside : a + width ≤ 24) (inside' : b + width' ≤ 24)
    (apart : i ≠ j ∨ b + width' ≤ a ∨ a + width ≤ b) :
    (mem.store (itemAddr i + a) width value).load (itemAddr j + b) width' =
      mem.load (itemAddr j + b) width' := by
  refine Memory.load_store_of_disjoint positive ?_
  unfold itemAddr
  omega

@[simp] theorem itemIndex_setItemIndex :
    itemIndex (setItemIndex mem i value) = Function.update (itemIndex mem) i value := by
  funext j
  by_cases same : j = i
  · subst same
    simp [itemIndex, setItemIndex, Memory.load_store_self]
  · rw [Function.update_of_ne same]
    exact itemField_load_store (a := 0) (b := 0) mem (by omega) (by omega) (by omega)
      (.inl (Ne.symm same))

@[simp] theorem itemPrevious_setItemIndex :
    itemPrevious (setItemIndex mem i value) = itemPrevious mem :=
  funext fun _ => congrArg itemAt
    (itemField_load_store (a := 0) mem (by omega) (by omega) (by omega) (by omega))

@[simp] theorem itemNext_setItemIndex :
    itemNext (setItemIndex mem i value) = itemNext mem :=
  funext fun _ => congrArg itemAt
    (itemField_load_store (a := 0) mem (by omega) (by omega) (by omega) (by omega))

@[simp] theorem itemIndex_setItemPrevious :
    itemIndex (setItemPrevious mem i p) = itemIndex mem :=
  funext fun _ =>
    itemField_load_store (b := 0) mem (by omega) (by omega) (by omega) (by omega)

@[simp] theorem itemPrevious_setItemPrevious :
    itemPrevious (setItemPrevious mem i p) = Function.update (itemPrevious mem) i p := by
  funext j
  by_cases same : j = i
  · subst same
    simp [itemPrevious, setItemPrevious, Memory.load_store_self]
  · rw [Function.update_of_ne same]
    exact congrArg itemAt (itemField_load_store mem (by omega) (by omega) (by omega)
      (.inl (Ne.symm same)))

@[simp] theorem itemNext_setItemPrevious :
    itemNext (setItemPrevious mem i p) = itemNext mem :=
  funext fun _ => congrArg itemAt
    (itemField_load_store mem (by omega) (by omega) (by omega) (by omega))

@[simp] theorem itemIndex_setItemNext :
    itemIndex (setItemNext mem i p) = itemIndex mem :=
  funext fun _ =>
    itemField_load_store (b := 0) mem (by omega) (by omega) (by omega) (by omega)

@[simp] theorem itemPrevious_setItemNext :
    itemPrevious (setItemNext mem i p) = itemPrevious mem :=
  funext fun _ => congrArg itemAt
    (itemField_load_store mem (by omega) (by omega) (by omega) (by omega))

@[simp] theorem itemNext_setItemNext :
    itemNext (setItemNext mem i p) = Function.update (itemNext mem) i p := by
  funext j
  by_cases same : j = i
  · subst same
    simp [itemNext, setItemNext, Memory.load_store_self]
  · rw [Function.update_of_ne same]
    exact congrArg itemAt (itemField_load_store mem (by omega) (by omega) (by omega)
      (.inl (Ne.symm same)))

end ItemFields

/-! ## State -/

/-- `struct frame_info`. A head frame holds its block's level in `index`, a frame
inside a block a negative mark. -/
structure FrameInfo where
  status : ℕ
  index : ℤ
deriving DecidableEq, Repr

/-- The allocator's static state together with memory. -/
structure Allocator where
  frame : ℕ → FrameInfo
  pageList : ℤ → Option ℕ
  mem : Memory

namespace Allocator

/-- `(frame+i)->index = value`. -/
def setIndex (k : Allocator) (i : ℕ) (value : ℤ) : Allocator :=
  { k with frame := Function.update k.frame i { k.frame i with index := value } }

/-- `(frame+i)->status = value`. -/
def setStatus (k : Allocator) (i value : ℕ) : Allocator :=
  { k with frame := Function.update k.frame i { k.frame i with status := value } }

/-- The loops `for(int i=1; i<=n; i++) (frame+index+i)->index = mark`. -/
def markFrames (k : Allocator) (index : ℕ) (mark : ℤ) : ℕ → Allocator
  | 0 => k
  | n + 1 => (markFrames k index mark n).setIndex (index + (n + 1)) mark

variable (k : Allocator) (i n : ℕ) (value : ℤ)

@[simp] theorem setIndex_mem : (k.setIndex i value).mem = k.mem := rfl

@[simp] theorem setIndex_pageList : (k.setIndex i value).pageList = k.pageList := rfl

@[simp] theorem setStatus_mem : (k.setStatus i n).mem = k.mem := rfl

@[simp] theorem setStatus_pageList : (k.setStatus i n).pageList = k.pageList := rfl

theorem setIndex_index (j : ℕ) :
    ((k.setIndex i value).frame j).index = if j = i then value else (k.frame j).index := by
  by_cases same : j = i
  · simp [setIndex, same]
  · simp [setIndex, same]

@[simp] theorem setIndex_status (j : ℕ) :
    ((k.setIndex i value).frame j).status = (k.frame j).status := by
  by_cases same : j = i
  · simp [setIndex, same]
  · simp [setIndex, Function.update_of_ne same]

@[simp] theorem setStatus_index (j : ℕ) :
    ((k.setStatus i n).frame j).index = (k.frame j).index := by
  by_cases same : j = i
  · simp [setStatus, same]
  · simp [setStatus, Function.update_of_ne same]

theorem setStatus_status (j : ℕ) :
    ((k.setStatus i n).frame j).status = if j = i then n else (k.frame j).status := by
  by_cases same : j = i
  · simp [setStatus, same]
  · simp [setStatus, same]

@[simp] theorem markFrames_mem : (k.markFrames i value n).mem = k.mem := by
  induction n with
  | zero => rfl
  | succ n ih => simp [markFrames, ih]

@[simp] theorem markFrames_pageList : (k.markFrames i value n).pageList = k.pageList := by
  induction n with
  | zero => rfl
  | succ n ih => simp [markFrames, ih]

@[simp] theorem markFrames_status (j : ℕ) :
    ((k.markFrames i value n).frame j).status = (k.frame j).status := by
  induction n with
  | zero => rfl
  | succ n ih => simp [markFrames, ih]

theorem markFrames_index (j : ℕ) : ((k.markFrames i value n).frame j).index =
    if i < j ∧ j ≤ i + n then value else (k.frame j).index := by
  induction n with
  | zero => rw [if_neg (by omega)]; rfl
  | succ n ih =>
    rw [markFrames, setIndex_index, ih]
    split_ifs <;> first | rfl | omega

end Allocator

/-! ## Functions -/

/-- `add_page_item`: the item of frame `index` becomes the head of its level's list. -/
def addPageItem (index : ℕ) (k : Allocator) : Allocator :=
  let level := (k.frame index).index
  let mem := setItemIndex k.mem index index
  let mem := setItemPrevious mem index none
  let mem := setItemNext mem index none
  match k.pageList level with
  | none => { k with mem := mem, pageList := Function.update k.pageList level (some index) }
  | some current =>
    let mem := setItemNext mem index (some current)
    let mem := setItemPrevious mem current (some index)
    { k with mem := mem, pageList := Function.update k.pageList level (some index) }

/-- `delete_page_item`: the item of frame `index` leaves its level's list. -/
def deletePageItem (index : ℕ) (k : Allocator) : Allocator :=
  let level := (k.frame index).index
  match itemNext k.mem index, itemPrevious k.mem index with
  | some next, some previous =>
    { k with mem := setItemPrevious (setItemNext k.mem previous (some next)) next (some previous) }
  | some next, none =>
    { k with
      mem := setItemPrevious k.mem next none
      pageList := Function.update k.pageList level (some next) }
  | none, some previous => { k with mem := setItemNext k.mem previous none }
  | none, none => { k with pageList := Function.update k.pageList level none }

/-- `page_divide`: splits a block of `level`, or one above it first. -/
def pageDivide : ℕ → ℤ → Allocator → Outcome Allocator
  | 0, _, _ => .error .outOfFuel
  | fuel + 1, level, k =>
    match k.pageList level with
    | some current =>
      let index := itemIndex k.mem current
      let k := { k with pageList := Function.update k.pageList level (itemNext k.mem current) }
      let k := k.setIndex index ((k.frame index).index - 1)
      let k := addPageItem index k
      let k := k.setIndex (index + power2 (level - 1)) (level - 1)
      .ok (addPageItem (index + power2 (level - 1)) k)
    | none =>
      if level < 5 then do
        let k ← pageDivide fuel (level + 1) k
        pageDivide fuel level k
      else .ok k -- "No page can be divided!!!"

/-- The second half of `page_allocate`: takes the block at the head of the list. -/
def takeFirst (level : ℤ) (k : Allocator) : Outcome (ℤ × Allocator) :=
  match k.pageList level with
  | none => .error .nullPointer
  | some current =>
    let index := itemIndex k.mem current
    let k := k.setStatus index 1
    let k := k.markFrames index pageAllocatedMark (power2 level - 1)
    let k := { k with pageList := Function.update k.pageList level (itemNext k.mem current) }
    .ok (index, k)

/-- `page_allocate`: takes the first block of the level that covers `size` bytes,
splitting a larger one when the level's list is empty. -/
def pageAllocate (fuel size : ℕ) (k : Allocator) : Outcome (ℤ × Allocator) := do
  let level ← pageLevel size
  if k.pageList level = none then
    if level < pageMaxOrder then
      let k ← pageDivide fuel (level + 1) k
      takeFirst level k
    else return (-1, k) -- "No page to use!!"
  else takeFirst level k

/-- `merge`: joins the free block at `index` with its buddy while that is free too. -/
def merge : ℕ → ℕ → Allocator → Outcome Allocator
  | 0, _, _ => .error .outOfFuel
  | fuel + 1, index, k =>
    if (k.frame index).index = pageMaxOrder then .ok k
    else
      let size := power2 (k.frame index).index
      let mergeIndex := if index % (2 * size) ≠ 0 then index - size else index + size
      if (k.frame index).index = (k.frame mergeIndex).index then
        if (k.frame index).status = 0 ∧ (k.frame mergeIndex).status = 0 then
          let k := deletePageItem index k
          let k := deletePageItem mergeIndex k
          -- the larger of the two becomes an inner frame
          let inner := max index mergeIndex
          let head := min index mergeIndex
          let k := k.setIndex inner pageFreeMark
          let k := k.setIndex head ((k.frame head).index + 1)
          let k := addPageItem head k
          merge fuel head k
        else .ok k
      else .ok k

/-- `page_free`: returns the block at `index` and merges it upwards. -/
def pageFree (fuel index : ℕ) (k : Allocator) : Outcome Allocator :=
  let size := (k.frame index).index
  let k := addPageItem index k
  let k := k.setStatus index 0
  let k := k.markFrames index pageFreeMark (power2 size - 1)
  merge fuel index k

end BareMetal.Buddy
