import BareMetal.CS.Heap
import BareMetal.Strings.Model

/-!
# The archive of `lib/cpio.c`

The archive is the list of the bytes from `CPIO_DEFAULT_PLACE` on, and pointers into it
are counted from there. The array `a` of `read_header` has no initial value in the
source; here its contents are an argument, and a walk takes the contents at each of its calls of
`read_header`.

A walk goes from header to header until it meets the trailer, so it takes a bound on the
number of headers, and counts the rounds: each has two calls of `read_header`.
-/

namespace BareMetal.Cpio

open CS Strings

/-! ## Data -/

/-- The name `TRAILER!!!`. -/
def trailerName : List UInt8 := [84, 82, 65, 73, 76, 69, 82, 33, 33, 33]

/-- `USER_PROGRAM_MAX_SIZE`. -/
def userProgramMaxSize : ℤ := 0x500000

/-- `cpio_file_ll`. -/
structure CpioFile where
  pathname : ℤ
  fileSize : ℕ
  dataPtr : ℤ
  next : Option ℕ
deriving DecidableEq, Repr

/-- The bytes from an address on. -/
def bytesAt (mem : List UInt8) (addr : ℤ) : Outcome (List UInt8) :=
  if 0 ≤ addr then .ok (mem.drop addr.toNat) else .error .outOfBounds

/-! ## Headers -/

/-- The loop of `read_header`. -/
def readHeaderLoop : List UInt8 → ℕ → List UInt8 → Outcome (List UInt8)
  | _, 0, a => .ok a
  | [], _ + 1, _ => .error .outOfBounds
  | c :: str, left + 1, a => do
    let a ← appendStr a c
    readHeaderLoop str left a

/-- `read_header` with what its array holds before. -/
def readHeader (a str : List UInt8) (size : ℕ) : Outcome ℤ := do
  let a ← readHeaderLoop str size (a.set 1 0)
  myHex2Int a

/-- The fields `c_namesize` and `c_filesize` of the header at an address, in a round of a walk. -/
def readSizes (a : ℕ → List UInt8) (round : ℕ) (mem : List UInt8) (header : ℤ) :
    Outcome (ℤ × ℤ) := do
  let field ← bytesAt mem (header + 94)
  let namesize ← readHeader (a (2 * round)) field 8
  let field ← bytesAt mem (header + 54)
  let filesize ← readHeader (a (2 * round + 1)) field 8
  return (namesize, filesize)

/-- `strcmp(header+110, str)`. -/
def compareName (mem : List UInt8) (header : ℤ) (str : List UInt8) : Outcome ℤ := do
  let name ← bytesAt mem (header + 110)
  strcmp name (cstr str)

/-- `namesize + namesize%2`. -/
def evenName (namesize : ℤ) : ℤ := toInt32 (namesize + namesize.tmod 2)

/-- `namesize` after it is rounded up with the header to a multiple of 4. -/
def padName (namesize : ℤ) : ℤ :=
  let odd := (toInt32 (namesize + 110)).tmod 4
  if odd ≠ 0 then toInt32 (namesize + (4 - odd)) else namesize

/-- `filesize` after it is rounded up to a multiple of 4. -/
def padFile (filesize : ℤ) : ℤ :=
  let odd := filesize.tmod 4
  if odd ≠ 0 then toInt32 (filesize + (4 - odd)) else filesize

/-! ## `cpio_ls`, `cpio_cat`, `load_program` -/

/-- The loop of `cpio_ls`: the names that it prints. -/
def cpioLsLoop (a : ℕ → List UInt8) (mem : List UInt8) :
    ℕ → ℕ → ℤ → Outcome (List (List UInt8))
  | 0, _, _ => .error .outOfFuel
  | fuel + 1, round, header => do
    let order ← compareName mem header trailerName
    if order = 0 then return []
    else do
      let (namesize, filesize) ← readSizes a round mem header
      let namesize := padName namesize
      let filesize := padFile filesize
      let name ← bytesAt mem (header + 110)
      let name ← readStr name
      let names ← cpioLsLoop a mem fuel (round + 1) (header + namesize + filesize + 110)
      return name :: names

/-- `cpio_ls`. -/
def cpioLs (a : ℕ → List UInt8) (mem : List UInt8) (fuel : ℕ) : Outcome (List (List UInt8)) :=
  cpioLsLoop a mem fuel 0 0

/-- The loop of `cpio_cat`: the address of the string that it prints, when there is one. -/
def cpioCatLoop (a : ℕ → List UInt8) (mem str : List UInt8) : ℕ → ℕ → ℤ → Outcome (Option ℤ)
  | 0, _, _ => .error .outOfFuel
  | fuel + 1, round, header => do
    let order ← compareName mem header trailerName
    if order = 0 then return none
    else do
      let (namesize, filesize) ← readSizes a round mem header
      let namesize := padName (evenName namesize)
      let filesize := padFile filesize
      let order ← compareName mem header str
      if order = 0 ∧ filesize ≠ 0 then return some (header + 110 + namesize)
      else cpioCatLoop a mem str fuel (round + 1) (header + namesize + filesize + 110)

/-- `cpio_cat`: the address of the string that it prints, none when it reports that it cannot
find the file. -/
def cpioCat (a : ℕ → List UInt8) (mem str : List UInt8) (fuel : ℕ) : Outcome (Option ℤ) :=
  cpioCatLoop a mem str fuel 0 0

/-- How `load_program` ends. -/
inductive Loaded
  /-- It returns `USER_PROGRAM_SPACE`, where it has stored these bytes. -/
  | program (bytes : List UInt8)
  /-- It reports that the file is too large. -/
  | tooLarge
  /-- It reports that it cannot find the file. -/
  | notFound
deriving DecidableEq, Repr

/-- The loop of `load_program` that copies: the bytes in the order in which it stores them. -/
def copyProgram : ℕ → List UInt8 → Outcome (List UInt8)
  | 0, _ => .ok []
  | _ + 1, [] => .error .outOfBounds
  | left + 1, byte :: data => do
    let rest ← copyProgram left data
    return byte :: rest

/-- The loop of `load_program` over the headers. -/
def loadProgramLoop (a : ℕ → List UInt8) (mem name : List UInt8) : ℕ → ℕ → ℤ → Outcome Loaded
  | 0, _, _ => .error .outOfFuel
  | fuel + 1, round, header => do
    let order ← compareName mem header trailerName
    if order = 0 then return .notFound
    else do
      let (namesize, filesize) ← readSizes a round mem header
      let namesize := padName (evenName namesize)
      let filesize := padFile filesize
      let order ← compareName mem header name
      if order = 0 ∧ filesize ≠ 0 then
        if filesize > userProgramMaxSize then return .tooLarge
        else do
          let data ← bytesAt mem (header + 110 + namesize)
          let bytes ← copyProgram filesize.toNat data
          return .program bytes
      else loadProgramLoop a mem name fuel (round + 1) (header + namesize + filesize + 110)

/-- `load_program`. -/
def loadProgram (a : ℕ → List UInt8) (mem name : List UInt8) (fuel : ℕ) : Outcome Loaded :=
  loadProgramLoop a mem name fuel 0 0

/-! ## `cpio_parse` -/

/-- The chunks that `malloc_` returns, one after the other, and what `next` holds in a new
chunk. -/
structure Supply where
  chunk : ℕ → ℕ
  stale : ℕ → Option ℕ

/-- The loop of `cpio_parse` after `calls` rounds, each with a call of `malloc_`, and with the store
behind it. The local `ptr` has no value before the first entry. -/
def cpioParseLoop (a : ℕ → List UInt8) (mem : List UInt8) (supply : Supply) :
    ℕ → ℕ → Heap CpioFile → Option ℕ → Option ℕ → ℤ → Outcome (Heap CpioFile × Option ℕ)
  | 0, _, _, _, _, _ => .error .outOfFuel
  | fuel + 1, calls, heap, file, ptr, header => do
    let order ← compareName mem header trailerName
    if order = 0 then
      let heap ← heap.write ptr fun file => { file with next := none }
      return (heap, file)
    else do
      let cur := supply.chunk calls
      let (namesize, filesize) ← readSizes a calls mem header
      let namesize := padName namesize
      let filesize := padFile filesize
      let heap := heap.alloc cur {
        pathname := header + 110
        fileSize := toU64 filesize
        dataPtr := header + 110 + namesize
        next := supply.stale calls }
      let header := header + namesize + filesize + 110
      match file with
      | none => cpioParseLoop a mem supply fuel (calls + 1) heap (some cur) (some cur) header
      | some _ => do
        let heap ← heap.write ptr fun file => { file with next := some cur }
        cpioParseLoop a mem supply fuel (calls + 1) heap file (some cur) header

/-- `cpio_parse` from `*file` on: the list it leaves and `*file`. -/
def cpioParse (a : ℕ → List UInt8) (mem : List UInt8) (supply : Supply) (heap : Heap CpioFile)
    (file : Option ℕ) (fuel : ℕ) : Outcome (Heap CpioFile × Option ℕ) :=
  cpioParseLoop a mem supply fuel 0 heap file none 0

end BareMetal.Cpio
