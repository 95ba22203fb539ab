import BareMetal.CS.MachineInt
import BareMetal.CS.Outcome
import BareMetal.CS.Sink

/-!
# The formatted output of `lib/printf.c`

`_vsnprintf` walks over a format string and hands characters to an output function, which gets
each with its place in the output. The format is the list of bytes from the pointer to the end
of what may be read, and so is a string behind a `%s`; a read past the end is the fault
`outOfBounds`, and so is an argument that is missing or of another kind.

The output functions get `maxlen` with each character. It does not change during a call, so an
output function is a sink that has its `maxlen` already.

The conversions of `double` values are parameters: `FloatFormat` holds the characters that
`_ftoa` and `_etoa` output for a value.
-/

namespace BareMetal.Printf

open CS

variable {σ : Type}

/-- The byte of a character. -/
abbrev chr (c : Char) : UInt8 := c.toUInt8

/-- `PRINTF_NTOA_BUFFER_SIZE`. -/
def ntoaBufferSize : ℕ := 32

/-- The bits of `flags`. -/
structure Flags where
  zeropad : Bool := false
  left : Bool := false
  plus : Bool := false
  space : Bool := false
  hash : Bool := false
  uppercase : Bool := false
  char : Bool := false
  short : Bool := false
  long : Bool := false
  longLong : Bool := false
  precision : Bool := false
  adaptExp : Bool := false
deriving DecidableEq, Repr

/-! ## Output functions -/

/-- `_out_buffer`. -/
def outBuffer (maxlen : ℕ) : Sink UInt8 (ℕ → UInt8) := bufferSink maxlen

/-- `_out_null`. -/
def outNull : Sink UInt8 σ := fun _ _ dest => dest

/-- `_out_char`, which sends to the UART. -/
def outChar : Sink UInt8 (List UInt8) := streamSink fun character => character ≠ 0

/-- `_out_fct`, for a function that changes a state. -/
def outFct (fct : UInt8 → σ → σ) : Sink UInt8 σ := fun character _ dest =>
  if character ≠ 0 then fct character dest else dest

/-! ## Numbers -/

/-- A loop that outputs `count` spaces. -/
def padSpaces (out : Sink UInt8 σ) : ℕ → Cursor σ → Cursor σ
  | 0, cur => cur
  | count + 1, cur => padSpaces out count (cur.put out (chr ' '))

/-- `while (len) out(buf[--len], ...)`. -/
def outReversed (out : Sink UInt8 σ) (buf : List UInt8) : ℕ → Cursor σ → Cursor σ
  | 0, cur => cur
  | len + 1, cur => outReversed out buf len (cur.put out (buf.getD len 0))

/-- `_out_rev`. -/
def outRev (out : Sink UInt8 σ) (buf : List UInt8) (width : ℕ) (flags : Flags) (cur : Cursor σ) :
    Cursor σ :=
  let startIdx := cur.idx
  let cur :=
    if ¬ flags.left ∧ ¬ flags.zeropad then padSpaces out (width - buf.length) cur else cur
  let cur := outReversed out buf buf.length cur
  if flags.left then padSpaces out (width - (cur.idx - startIdx)) cur else cur

/-- A loop that appends zeros while the buffer is shorter than `target`, with the room left. -/
def padZeros (target : ℕ) : ℕ → List UInt8 → List UInt8
  | 0, buf => buf
  | room + 1, buf =>
    if buf.length < target then padZeros target room (buf ++ [chr '0']) else buf

/-- `if (len < PRINTF_NTOA_BUFFER_SIZE) buf[len++] = c;`. -/
def pushChar (c : UInt8) (buf : List UInt8) : List UInt8 :=
  if buf.length < ntoaBufferSize then buf ++ [c] else buf

/-- The branch of `_ntoa_format` for the `#` flag. -/
def handleHash (base prec width : ℕ) (flags : Flags) (buf : List UInt8) : List UInt8 :=
  let buf :=
    if ¬ flags.precision ∧ buf.length ≠ 0 ∧ (buf.length = prec ∨ buf.length = width) then
      let buf := buf.dropLast
      if buf.length ≠ 0 ∧ base = 16 then buf.dropLast else buf
    else buf
  let buf :=
    if base = 16 ∧ ¬ flags.uppercase then pushChar (chr 'x') buf
    else if base = 16 ∧ flags.uppercase then pushChar (chr 'X') buf
    else if base = 2 then pushChar (chr 'b') buf
    else buf
  pushChar (chr '0') buf

/-- The sign in front of a number. -/
def signChars (negative : Bool) (flags : Flags) : List UInt8 :=
  if negative then [chr '-']
  else if flags.plus then [chr '+']
  else if flags.space then [chr ' ']
  else []

/-- The width of `_ntoa_format` after `width--`. -/
def numberWidth (negative : Bool) (width : ℕ) (flags : Flags) : ℕ :=
  if ¬ flags.left ∧ width ≠ 0 ∧ flags.zeropad ∧ (negative ∨ flags.plus ∨ flags.space) then
    width - 1
  else width

/-- `_ntoa_format`. -/
def ntoaFormat (out : Sink UInt8 σ) (buf : List UInt8) (negative : Bool)
    (base prec width : ℕ) (flags : Flags) (cur : Cursor σ) : Cursor σ :=
  let width := numberWidth negative width flags
  let buf := if flags.left then buf else padZeros prec (ntoaBufferSize - buf.length) buf
  let buf :=
    if ¬ flags.left ∧ flags.zeropad then padZeros width (ntoaBufferSize - buf.length) buf else buf
  let buf := if flags.hash then handleHash base prec width flags buf else buf
  let buf := if buf.length < ntoaBufferSize then buf ++ signChars negative flags else buf
  outRev out buf width flags cur

/-- The character of a digit. -/
def digitChar (digit : ℕ) (uppercase : Bool) : UInt8 :=
  if digit < 10 then .ofNat (48 + digit)
  else .ofNat ((if uppercase then 65 else 97) + digit - 10)

/-- The loop that converts `value`, least digit first, with the room left in the buffer. -/
def digitLoop (base : ℕ) (uppercase : Bool) : ℕ → ℕ → List UInt8 → List UInt8
  | 0, _, buf => buf
  | room + 1, value, buf =>
    let buf := buf ++ [digitChar (value % base) uppercase]
    let value := value / base
    if value ≠ 0 then digitLoop base uppercase room value buf else buf

/-- `_ntoa_long`, for a value of 64 bits. -/
def ntoaLong (out : Sink UInt8 σ) (value : ℕ) (negative : Bool) (base prec width : ℕ)
    (flags : Flags) (cur : Cursor σ) : Cursor σ :=
  let flags := if value = 0 then { flags with hash := false } else flags
  let buf :=
    if ¬ flags.precision ∨ value ≠ 0 then digitLoop base flags.uppercase ntoaBufferSize value []
    else []
  ntoaFormat out buf negative base prec width flags cur

/-- `_ntoa_long_long`, which differs from `_ntoa_long` in the types of `value` and `base`
only, and these have the same size. -/
def ntoaLongLong (out : Sink UInt8 σ) (value : ℕ) (negative : Bool) (base prec width : ℕ)
    (flags : Flags) (cur : Cursor σ) : Cursor σ :=
  ntoaLong out value negative base prec width flags cur

/-! ## Arguments -/

/-- An argument: an integer or a pointer in its register, a pointer to a string as what may
be read behind it, or the bits of a `double`. -/
inductive Arg
  | word (bits : BitVec 64)
  | string (bytes : List UInt8)
  | double (bits : BitVec 64)
deriving DecidableEq, Repr

/-- `va_arg` of an integer or pointer type. -/
def nextWord : List Arg → Outcome (BitVec 64 × List Arg)
  | .word bits :: args => .ok (bits, args)
  | _ => .error .outOfBounds

/-- `va_arg` of `char*`. -/
def nextString : List Arg → Outcome (List UInt8 × List Arg)
  | .string bytes :: args => .ok (bytes, args)
  | _ => .error .outOfBounds

/-- `va_arg` of `double`. -/
def nextDouble : List Arg → Outcome (BitVec 64 × List Arg)
  | .double bits :: args => .ok (bits, args)
  | _ => .error .outOfBounds

/-- `(int)` of an argument. -/
def toInt (bits : BitVec 64) : ℤ := (bits.setWidth 32).toInt

/-! ## Directives -/

/-- What stands between the `%` and the specifier. -/
structure Spec where
  flags : Flags
  width : ℕ
  precision : ℕ
deriving DecidableEq, Repr

/-- `_is_digit`. -/
def isDigit (ch : UInt8) : Bool := chr '0' ≤ ch ∧ ch ≤ chr '9'

/-- `_atoi`, with the value read so far. -/
def atoi : List UInt8 → ℕ → Outcome (ℕ × List UInt8)
  | [], _ => .error .outOfBounds
  | c :: rest, i =>
    if isDigit c then atoi rest ((i * 10 + (c.toNat - 48)) % 2 ^ 32) else .ok (i, c :: rest)

/-- The loop over the flags. -/
def parseFlags : List UInt8 → Flags → Outcome (Flags × List UInt8)
  | [], _ => .error .outOfBounds
  | c :: rest, flags =>
    if c = chr '0' then parseFlags rest { flags with zeropad := true }
    else if c = chr '-' then parseFlags rest { flags with left := true }
    else if c = chr '+' then parseFlags rest { flags with plus := true }
    else if c = chr ' ' then parseFlags rest { flags with space := true }
    else if c = chr '#' then parseFlags rest { flags with hash := true }
    else .ok (flags, c :: rest)

/-- The width field. A negative argument sets the flag `-`. -/
def parseWidth (format : List UInt8) (flags : Flags) (args : List Arg) :
    Outcome (ℕ × Flags × List UInt8 × List Arg) :=
  match format with
  | [] => .error .outOfBounds
  | c :: rest =>
    if isDigit c then do
      let (width, rest) ← atoi (c :: rest) 0
      return (width, flags, rest, args)
    else if c = chr '*' then do
      let (bits, args) ← nextWord args
      let w := toInt bits
      if w < 0 then return (toU32 (-w), { flags with left := true }, rest, args)
      else return (toU32 w, flags, rest, args)
    else return (0, flags, c :: rest, args)

/-- The number behind the `.` of a precision field. -/
def parsePrecisionValue (format : List UInt8) (args : List Arg) :
    Outcome (ℕ × List UInt8 × List Arg) :=
  match format with
  | [] => .error .outOfBounds
  | c :: rest =>
    if isDigit c then do
      let (precision, rest) ← atoi (c :: rest) 0
      return (precision, rest, args)
    else if c = chr '*' then do
      let (bits, args) ← nextWord args
      let prec := toInt bits
      return (if prec > 0 then toU32 prec else 0, rest, args)
    else return (0, c :: rest, args)

/-- The precision field. -/
def parsePrecision (format : List UInt8) (flags : Flags) (args : List Arg) :
    Outcome (ℕ × Flags × List UInt8 × List Arg) :=
  match format with
  | [] => .error .outOfBounds
  | c :: rest =>
    if c = chr '.' then do
      let (precision, rest, args) ← parsePrecisionValue rest args
      return (precision, { flags with precision := true }, rest, args)
    else return (0, flags, c :: rest, args)

/-- The length field. `ptrdiff_t`, `intmax_t` and `size_t` have the size of `long`. -/
def parseLength : List UInt8 → Flags → Outcome (Flags × List UInt8)
  | [], _ => .error .outOfBounds
  | c :: rest, flags =>
    if c = chr 'l' then
      match rest with
      | [] => .error .outOfBounds
      | c' :: rest' =>
        if c' = chr 'l' then .ok ({ flags with long := true, longLong := true }, rest')
        else .ok ({ flags with long := true }, c' :: rest')
    else if c = chr 'h' then
      match rest with
      | [] => .error .outOfBounds
      | c' :: rest' =>
        if c' = chr 'h' then .ok ({ flags with short := true, char := true }, rest')
        else .ok ({ flags with short := true }, c' :: rest')
    else if c = chr 't' ∨ c = chr 'j' ∨ c = chr 'z' then .ok ({ flags with long := true }, rest)
    else .ok (flags, c :: rest)

/-- From the `%` to the specifier. -/
def parseSpec (format : List UInt8) (args : List Arg) :
    Outcome (Spec × List UInt8 × List Arg) := do
  let (flags, format) ← parseFlags format {}
  let (width, flags, format, args) ← parseWidth format flags args
  let (precision, flags, format, args) ← parsePrecision format flags args
  let (flags, format) ← parseLength format flags
  return (⟨flags, width, precision⟩, format, args)

/-! ## Conversions -/

/-- The characters that `_ftoa` and `_etoa` output for the bits of a `double`. -/
structure FloatFormat where
  ftoa : BitVec 64 → Spec → List UInt8
  etoa : BitVec 64 → Spec → List UInt8

/-- The base of an integer conversion. -/
def integerBase (specifier : UInt8) : ℕ :=
  if specifier = chr 'x' ∨ specifier = chr 'X' then 16
  else if specifier = chr 'o' then 8
  else if specifier = chr 'b' then 2
  else 10

/-- `%d` and `%i`. -/
def IsSigned (specifier : UInt8) : Prop := specifier = chr 'i' ∨ specifier = chr 'd'

instance (specifier : UInt8) : Decidable (IsSigned specifier) :=
  inferInstanceAs (Decidable (specifier = chr 'i' ∨ specifier = chr 'd'))

/-- The flags of an integer conversion. -/
def integerFlags (specifier : UInt8) (flags : Flags) : Flags :=
  let flags := if integerBase specifier = 10 then { flags with hash := false } else flags
  let flags := if specifier = chr 'X' then { flags with uppercase := true } else flags
  let flags :=
    if ¬ IsSigned specifier then { flags with plus := false, space := false } else flags
  if flags.precision then { flags with zeropad := false } else flags

/-- The value of a signed conversion. `char` is unsigned on this machine. -/
def signedValue (flags : Flags) (bits : BitVec 64) : ℤ :=
  if flags.longLong ∨ flags.long then bits.toInt
  else if flags.char then (bits.setWidth 8).toNat
  else if flags.short then (bits.setWidth 16).toInt
  else toInt bits

/-- The value of an unsigned conversion. -/
def unsignedValue (flags : Flags) (bits : BitVec 64) : ℕ :=
  if flags.longLong ∨ flags.long then bits.toNat
  else if flags.char then (bits.setWidth 8).toNat
  else if flags.short then (bits.setWidth 16).toNat
  else (bits.setWidth 32).toNat

/-- The conversions `d`, `i`, `u`, `x`, `X`, `o` and `b`. The negation of the least value is
that value again, as an unsigned one. -/
def convertInteger (out : Sink UInt8 σ) (specifier : UInt8) (spec : Spec) (bits : BitVec 64)
    (cur : Cursor σ) : Cursor σ :=
  let base := integerBase specifier
  let flags := integerFlags specifier spec.flags
  if IsSigned specifier then
    let value := signedValue flags bits
    if flags.longLong then
      ntoaLongLong out value.natAbs (value < 0) base spec.precision spec.width flags cur
    else ntoaLong out value.natAbs (value < 0) base spec.precision spec.width flags cur
  else
    let value := unsignedValue flags bits
    if flags.longLong then
      ntoaLongLong out value false base spec.precision spec.width flags cur
    else ntoaLong out value false base spec.precision spec.width flags cur

/-- The conversion `c`. -/
def convertChar (out : Sink UInt8 σ) (spec : Spec) (bits : BitVec 64) (cur : Cursor σ) :
    Cursor σ :=
  let cur := if ¬ spec.flags.left then padSpaces out (spec.width - 1) cur else cur
  let cur := cur.put out (.ofBitVec (bits.setWidth 8))
  if spec.flags.left then padSpaces out (spec.width - 1) cur else cur

/-- `_strnlen_s`. -/
def strnlenS : List UInt8 → ℕ → Outcome ℕ
  | [], _ => .error .outOfBounds
  | c :: rest, maxsize =>
    if c ≠ 0 ∧ maxsize ≠ 0 then do
      let n ← strnlenS rest (maxsize - 1)
      return n + 1
    else .ok 0

/-- The loop that outputs the string, with the precision left. -/
def outString (out : Sink UInt8 σ) (limited : Bool) :
    List UInt8 → ℕ → Cursor σ → Outcome (Cursor σ)
  | [], _, _ => .error .outOfBounds
  | c :: rest, precision, cur =>
    if c ≠ 0 ∧ (¬ limited ∨ precision ≠ 0) then
      outString out limited rest (precision - 1) (cur.put out c)
    else .ok cur

/-- `l` of the conversion `s`: the length that the padding counts with. -/
def stringLength (spec : Spec) (p : List UInt8) : Outcome ℕ := do
  let n ← strnlenS p (if spec.precision ≠ 0 then spec.precision else 2 ^ 64 - 1)
  let l := n % 2 ^ 32
  return if spec.flags.precision then min l spec.precision else l

/-- The conversion `s`. -/
def convertString (out : Sink UInt8 σ) (spec : Spec) (p : List UInt8) (cur : Cursor σ) :
    Outcome (Cursor σ) := do
  let l ← stringLength spec p
  let cur := if ¬ spec.flags.left then padSpaces out (spec.width - l) cur else cur
  let cur ← outString out spec.flags.precision p spec.precision cur
  return if spec.flags.left then padSpaces out (spec.width - l) cur else cur

/-- The conversion `p`. -/
def convertPointer (out : Sink UInt8 σ) (spec : Spec) (bits : BitVec 64) (cur : Cursor σ) :
    Cursor σ :=
  let flags := { spec.flags with zeropad := true, uppercase := true }
  ntoaLongLong out bits.toNat false 16 spec.precision 16 flags cur

/-- The specifiers `d`, `i`, `u`, `x`, `X`, `o` and `b`. -/
def IsInteger (specifier : UInt8) : Prop :=
  specifier ∈ [chr 'd', chr 'i', chr 'u', chr 'x', chr 'X', chr 'o', chr 'b']

instance (specifier : UInt8) : Decidable (IsInteger specifier) :=
  inferInstanceAs (Decidable (specifier ∈ [_, _, _, _, _, _, _]))

/-- The `switch` over the specifier. Anything else stands for itself, the NUL too. -/
def convert (floats : FloatFormat) (out : Sink UInt8 σ) (specifier : UInt8) (spec : Spec)
    (args : List Arg) (cur : Cursor σ) : Outcome (List Arg × Cursor σ) :=
  if IsInteger specifier then do
    let (bits, args) ← nextWord args
    return (args, convertInteger out specifier spec bits cur)
  else if specifier = chr 'f' ∨ specifier = chr 'F' then do
    let (bits, args) ← nextDouble args
    let upper := decide (specifier = chr 'F')
    let flags := { spec.flags with uppercase := spec.flags.uppercase || upper }
    return (args, cur.emit out (floats.ftoa bits { spec with flags := flags }))
  else if specifier ∈ [chr 'e', chr 'E', chr 'g', chr 'G'] then do
    let (bits, args) ← nextDouble args
    let adapt := decide (specifier = chr 'g' ∨ specifier = chr 'G')
    let upper := decide (specifier = chr 'E' ∨ specifier = chr 'G')
    let flags := { spec.flags with
      adaptExp := spec.flags.adaptExp || adapt
      uppercase := spec.flags.uppercase || upper }
    return (args, cur.emit out (floats.etoa bits { spec with flags := flags }))
  else if specifier = chr 'c' then do
    let (bits, args) ← nextWord args
    return (args, convertChar out spec bits cur)
  else if specifier = chr 's' then do
    let (p, args) ← nextString args
    let cur ← convertString out spec p cur
    return (args, cur)
  else if specifier = chr 'p' then do
    let (bits, args) ← nextWord args
    return (args, convertPointer out spec bits cur)
  else return (args, cur.put out specifier)

/-! ## The loop -/

/-- A directive: what follows a `%`. -/
def directive (floats : FloatFormat) (out : Sink UInt8 σ) (format : List UInt8) (args : List Arg)
    (cur : Cursor σ) : Outcome (List UInt8 × List Arg × Cursor σ) := do
  let (spec, format, args) ← parseSpec format args
  match format with
  | [] => .error .outOfBounds
  | specifier :: format => do
    let (args, cur) ← convert floats out specifier spec args cur
    return (format, args, cur)

/-- The loop of `_vsnprintf`. -/
def vsnprintfLoop (floats : FloatFormat) (out : Sink UInt8 σ) :
    ℕ → List UInt8 → List Arg → Cursor σ → Outcome (Cursor σ)
  | 0, _, _, _ => .error .outOfFuel
  | _ + 1, [], _, _ => .error .outOfBounds
  | fuel + 1, c :: format, args, cur =>
    if c = 0 then .ok cur
    else if c ≠ chr '%' then vsnprintfLoop floats out fuel format args (cur.put out c)
    else do
      let (format, args, cur) ← directive floats out format args cur
      vsnprintfLoop floats out fuel format args cur

/-- `_vsnprintf`, with the output function for its `maxlen`. It returns the number of
characters and the destination. -/
def vsnprintf (floats : FloatFormat) (out : Sink UInt8 σ) (maxlen fuel : ℕ)
    (format : List UInt8) (args : List Arg) (dest : σ) : Outcome (ℤ × σ) := do
  let cur ← vsnprintfLoop floats out fuel format args ⟨0, dest⟩
  let place := if cur.idx < maxlen then cur.idx else subU64 maxlen 1
  return (toInt32 cur.idx, out 0 place cur.dest)

/-! ## The functions of `printf.h` -/

variable (floats : FloatFormat) (fuel : ℕ) (format : List UInt8) (args : List Arg)

/-- `printf_`, which returns what it sends to the UART. -/
def printf (sent : List UInt8) : Outcome (ℤ × List UInt8) :=
  vsnprintf floats outChar (2 ^ 64 - 1) fuel format args sent

/-- `snprintf_`. Without a buffer nothing is output. -/
def snprintf (hasBuffer : Bool) (count : ℕ) (memory : ℕ → UInt8) : Outcome (ℤ × (ℕ → UInt8)) :=
  vsnprintf floats (if hasBuffer then outBuffer count else outNull) count fuel format args memory

/-- `sprintf_`. -/
def sprintf (hasBuffer : Bool) (memory : ℕ → UInt8) : Outcome (ℤ × (ℕ → UInt8)) :=
  vsnprintf floats (if hasBuffer then outBuffer (2 ^ 64 - 1) else outNull) (2 ^ 64 - 1) fuel format
    args memory

/-- `fctprintf`. -/
def fctprintf (fct : UInt8 → σ → σ) (dest : σ) : Outcome (ℤ × σ) :=
  vsnprintf floats (outFct fct) (2 ^ 64 - 1) fuel format args dest

end BareMetal.Printf
