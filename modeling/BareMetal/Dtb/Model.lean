import BareMetal.CS.Word
import BareMetal.Strings.Model

/-!
# The device tree of `lib/dtb.c`

Memory is the list of its bytes from `dtb_place` on, and pointers into it are counted from
there; `dtb` is the address of `dtb_place`, which decides what is aligned. A callback changes
a state of its own, whatever it is, and nothing that the traversal reads.
A string is shorter than 2^31 bytes, as memory is, so the `int` that `strlen` counts with
does not overflow.
-/

namespace BareMetal.Dtb

open CS Strings

/-! ## Words -/

/-- `little2big`. -/
def little2big (str : BitVec 32) : BitVec 32 :=
  ((str >>> 24) &&& 0xff#32) ||| ((str <<< 8) &&& 0xff0000#32) |||
    ((str >>> 8) &&& 0xff00#32) ||| ((str <<< 24) &&& 0xff000000#32)

/-- `little2big` of the word at a pointer, as an unsigned number. -/
def readWord (mem : List UInt8) (pointer : ℕ) : Outcome ℕ := do
  let str ← loadWord (mem.drop pointer)
  return (little2big str).toNat

/-! ## Data -/

/-- `FDT_BEGIN_NODE`. -/
def fdtBeginNode : ℕ := 1

/-- `FDT_END_NODE`. -/
def fdtEndNode : ℕ := 2

/-- `FDT_PROP`. -/
def fdtProp : ℕ := 3

/-- `FDT_NOP`. -/
def fdtNop : ℕ := 4

/-- `FDT_END`. -/
def fdtEnd : ℕ := 9

/-- The number in the field `magic`. -/
def fdtMagic : ℕ := 0xD00DFEED

/-- The arguments of a call of a `dtb_callback`; `value` is none for the null pointer. -/
structure Call where
  nodeType : ℕ
  name : ℕ
  value : Option ℕ
  nameSize : ℕ
deriving DecidableEq, Repr

/-- A `dtb_callback`. -/
abbrev DtbCallback (σ : Type) := Call → σ → Outcome σ

/-- What `fdt_traverse` leaves behind: `dtb_size`, its local `pointer` when it has come to its
loop, and the state of the callback. -/
structure Traversed (σ : Type) where
  dtbSize : ℕ
  pointer : Option ℕ
  state : σ
deriving DecidableEq, Repr

/-! ## `fdt_traverse` -/

variable {σ : Type}

/-- The loop of `fdt_traverse` from `pointer` to `stop`. -/
def traverseLoop (dtb : ℕ) (mem : List UInt8) (dtStringsPtr stop : ℕ) (callback : DtbCallback σ)
    (pointer : ℕ) (state : σ) : Outcome (ℕ × σ) :=
  if pointer < stop then do
    let tokenType ← readWord mem pointer
    let prodPtr := pointer + 4
    if tokenType = fdtBeginNode then do
      let state ← callback ⟨tokenType, prodPtr, none, 0⟩ state
      let length ← strlen (mem.drop prodPtr)
      let behind := prodPtr + length
      -- one to four bytes, so that the NUL is skipped as well
      traverseLoop dtb mem dtStringsPtr stop callback (behind + (4 - (dtb + behind) % 4)) state
    else if tokenType = fdtProp then do
      let len ← readWord mem prodPtr
      let nameoff ← readWord mem (prodPtr + 4)
      let value := prodPtr + 8
      let state ← callback ⟨tokenType, dtStringsPtr + nameoff, some value, len⟩ state
      let behind := value + len
      if (dtb + behind) % 4 ≠ 0 then
        traverseLoop dtb mem dtStringsPtr stop callback (behind + (4 - (dtb + behind) % 4)) state
      else traverseLoop dtb mem dtStringsPtr stop callback behind state
    else traverseLoop dtb mem dtStringsPtr stop callback prodPtr state
  else .ok (pointer, state)
termination_by stop - pointer

/-- `fdt_traverse`, with `dtb_size` and the state of the callback before it. -/
def fdtTraverse (dtb : ℕ) (mem : List UInt8) (callback : DtbCallback σ) (dtbSize : ℕ) (state : σ) :
    Outcome (Traversed σ) := do
  let magic ← readWord mem 0
  -- it reports a wrong magic and returns
  if magic ≠ fdtMagic then return ⟨dtbSize, none, state⟩
  else do
    let structSize ← readWord mem 36
    let dtStructPtr ← readWord mem 8
    let dtStringsPtr ← readWord mem 12
    let (pointer, state) ←
      traverseLoop dtb mem dtStringsPtr (dtStructPtr + structSize) callback dtStructPtr state
    return ⟨structSize, some pointer, state⟩

/-! ## `initramfs_callback` -/

/-- `CPIO_DEFAULT_PLACE` and `CPIO_DEFAULT_PLACE_END`. -/
structure CpioPlace where
  place : ℕ
  placeEnd : ℕ
deriving DecidableEq, Repr

/-- The name `linux,initrd-start`. -/
def initrdStart : List UInt8 :=
  [108, 105, 110, 117, 120, 44, 105, 110, 105, 116, 114, 100, 45, 115, 116, 97, 114, 116]

/-- The name `linux,initrd-end`. -/
def initrdEnd : List UInt8 :=
  [108, 105, 110, 117, 120, 44, 105, 110, 105, 116, 114, 100, 45, 101, 110, 100]

/-- `*(uint32_t*)value`, from the other byte order. -/
def readValue (mem : List UInt8) : Option ℕ → Outcome ℕ
  | none => .error .nullPointer
  | some value => readWord mem value

/-- `initramfs_callback`. -/
def initramfsCallback (mem : List UInt8) : DtbCallback CpioPlace := fun call cpio => do
  if call.nodeType = fdtProp then do
    let order ← strcmp (mem.drop call.name) (cstr initrdStart)
    let cpio ←
      if order = 0 then do
        let place ← readValue mem call.value
        pure { cpio with place }
      else pure cpio
    let order ← strcmp (mem.drop call.name) (cstr initrdEnd)
    if order = 0 then do
      let placeEnd ← readValue mem call.value
      return { cpio with placeEnd }
    else return cpio
  else return cpio

end BareMetal.Dtb
