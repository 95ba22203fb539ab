import BareMetal.Printf.Model
import Mathlib.Tactic.Common

/-!
# The text of a format

Whatever the output function, `_vsnprintf` hands it the characters of one text, each with its
place. `formatText` is this text. The functions of `printf.h` differ in what they do with it:
the UART gets all but the NUL bytes, a buffer the part that fits, with a NUL behind it.

## Main results

* `vsnprintf_eq` — the output function gets the characters of `formatText`
* `printf_returns_iff`, `fctprintf_returns_iff`, `snprintf_returns_iff` — what becomes of them
-/

namespace BareMetal.Printf

open CS

variable {σ : Type} {out : Sink UInt8 σ} {cur : Cursor σ} {floats : FloatFormat}

/-! ## Padding and numbers -/

/-- Spaces. -/
def spaces (count : ℕ) : List UInt8 := List.replicate count (chr ' ')

theorem padSpaces_eq (count : ℕ) (cur : Cursor σ) :
    padSpaces out count cur = cur.emit out (spaces count) := by
  induction count generalizing cur with
  | zero => rfl
  | succ count ih => exact ih (cur.put out (chr ' '))

theorem outReversed_eq (buf : List UInt8) {len : ℕ} (inside : len ≤ buf.length)
    (cur : Cursor σ) :
    outReversed out buf len cur = cur.emit out (buf.take len).reverse := by
  induction len generalizing cur with
  | zero => rfl
  | succ len ih =>
    have here : len < buf.length := inside
    have last : buf.getD len 0 = buf[len] := by simp [List.getD, here]
    rw [outReversed, ih here.le, List.take_succ_eq_append_getElem here, List.reverse_append, last]
    rfl

/-- A buffer that holds a text backwards, in a field. -/
def revText (buf : List UInt8) (width : ℕ) (flags : Flags) : List UInt8 :=
  (if ¬ flags.left ∧ ¬ flags.zeropad then spaces (width - buf.length) else []) ++ buf.reverse ++
    if flags.left then spaces (width - buf.length) else []

theorem outRev_eq (buf : List UInt8) (width : ℕ) (flags : Flags) (cur : Cursor σ) :
    outRev out buf width flags cur = cur.emit out (revText buf width flags) := by
  have whole : ∀ cur : Cursor σ, outReversed out buf buf.length cur = cur.emit out buf.reverse :=
    fun cur => by rw [outReversed_eq buf le_rfl, List.take_length]
  rw [outRev, revText, Cursor.emit_append, Cursor.emit_append]
  cases left : flags.left with
  | false =>
    simp only [whole, padSpaces_eq]
    split_ifs <;> simp_all
  | true => simp [whole, padSpaces_eq]

/-- The buffer of `_ntoa_format` when it is handed to `_out_rev`. -/
def ntoaBuffer (buf : List UInt8) (negative : Bool) (base prec width : ℕ) (flags : Flags) :
    List UInt8 :=
  let buf := if flags.left then buf else padZeros prec (ntoaBufferSize - buf.length) buf
  let buf :=
    if ¬ flags.left ∧ flags.zeropad then padZeros width (ntoaBufferSize - buf.length) buf else buf
  let buf := if flags.hash then handleHash base prec width flags buf else buf
  if buf.length < ntoaBufferSize then buf ++ signChars negative flags else buf

theorem ntoaFormat_eq (buf : List UInt8) (negative : Bool) (base prec width : ℕ) (flags : Flags)
    (cur : Cursor σ) :
    ntoaFormat out buf negative base prec width flags cur = cur.emit out
      (revText (ntoaBuffer buf negative base prec (numberWidth negative width flags) flags)
        (numberWidth negative width flags) flags) :=
  outRev_eq _ _ _ cur

/-- The flags of `_ntoa_long`: no `#` for 0. -/
def ntoaFlags (value : ℕ) (flags : Flags) : Flags :=
  if value = 0 then { flags with hash := false } else flags

/-- The digits that `_ntoa_long` converts, the least one first. -/
def ntoaDigits (value base : ℕ) (flags : Flags) : List UInt8 :=
  if ¬ flags.precision ∨ value ≠ 0 then digitLoop base flags.uppercase ntoaBufferSize value []
  else []

/-- The text of a number. -/
def ntoaText (value : ℕ) (negative : Bool) (base prec width : ℕ) (flags : Flags) : List UInt8 :=
  let flags := ntoaFlags value flags
  let width := numberWidth negative width flags
  revText (ntoaBuffer (ntoaDigits value base flags) negative base prec width flags) width flags

theorem ntoaLong_eq (value : ℕ) (negative : Bool) (base prec width : ℕ) (flags : Flags)
    (cur : Cursor σ) :
    ntoaLong out value negative base prec width flags cur =
      cur.emit out (ntoaText value negative base prec width flags) :=
  ntoaFormat_eq _ _ _ _ _ _ cur

/-! ## Conversions -/

/-- The text of an integer conversion. -/
def integerText (specifier : UInt8) (spec : Spec) (bits : BitVec 64) : List UInt8 :=
  let base := integerBase specifier
  let flags := integerFlags specifier spec.flags
  if IsSigned specifier then
    ntoaText (signedValue flags bits).natAbs (signedValue flags bits < 0) base spec.precision
      spec.width flags
  else ntoaText (unsignedValue flags bits) false base spec.precision spec.width flags

theorem convertInteger_eq (specifier : UInt8) (spec : Spec) (bits : BitVec 64) (cur : Cursor σ) :
    convertInteger out specifier spec bits cur =
      cur.emit out (integerText specifier spec bits) := by
  simp only [convertInteger, integerText, ntoaLongLong, ntoaLong_eq, ite_self]
  split_ifs <;> rfl

/-- A text in a field. -/
def fieldText (spec : Spec) (text : List UInt8) (l : ℕ) : List UInt8 :=
  (if ¬ spec.flags.left then spaces (spec.width - l) else []) ++ text ++
    if spec.flags.left then spaces (spec.width - l) else []

/-- The text of a character. -/
def charText (spec : Spec) (bits : BitVec 64) : List UInt8 :=
  fieldText spec [.ofBitVec (bits.setWidth 8)] 1

theorem convertChar_eq (spec : Spec) (bits : BitVec 64) (cur : Cursor σ) :
    convertChar out spec bits cur = cur.emit out (charText spec bits) := by
  rw [convertChar, charText, fieldText, Cursor.emit_append, Cursor.emit_append]
  simp only [padSpaces_eq]
  split_ifs <;> simp_all

/-- The characters of a string that `%s` outputs. -/
def stringChars (limited : Bool) : List UInt8 → ℕ → Outcome (List UInt8)
  | [], _ => .error .outOfBounds
  | c :: rest, precision =>
    if c ≠ 0 ∧ (¬ limited ∨ precision ≠ 0) then do
      let text ← stringChars limited rest (precision - 1)
      return c :: text
    else .ok []

theorem outString_eq (limited : Bool) (p : List UInt8) (precision : ℕ) (cur : Cursor σ) :
    outString out limited p precision cur =
      (stringChars limited p precision).map fun text => cur.emit out text := by
  induction p generalizing precision cur with
  | nil => rfl
  | cons c rest ih =>
    rw [outString, stringChars]
    split_ifs
    · rw [ih]
      cases stringChars limited rest (precision - 1) <;> rfl
    · rfl

/-- The text of a string. -/
def stringText (spec : Spec) (p : List UInt8) : Outcome (List UInt8) := do
  let l ← stringLength spec p
  let text ← stringChars spec.flags.precision p spec.precision
  return fieldText spec text l

theorem convertString_eq (spec : Spec) (p : List UInt8) (cur : Cursor σ) :
    convertString out spec p cur = (stringText spec p).map fun text => cur.emit out text := by
  rw [convertString, stringText, outcome_bind_map]
  congr 1
  funext l
  simp only [outString_eq, padSpaces_eq]
  cases stringChars spec.flags.precision p spec.precision with
  | error e => rfl
  | ok text =>
    simp only [outcome_map_ok, outcome_bind_ok, outcome_pure, fieldText, Cursor.emit_append]
    split_ifs <;> simp_all

/-- The text of a pointer. -/
def pointerText (spec : Spec) (bits : BitVec 64) : List UInt8 :=
  ntoaText bits.toNat false 16 spec.precision 16
    { spec.flags with zeropad := true, uppercase := true }

/-- The text of a conversion, and the arguments left. -/
def convertText (floats : FloatFormat) (specifier : UInt8) (spec : Spec) (args : List Arg) :
    Outcome (List UInt8 × List Arg) :=
  if IsInteger specifier then do
    let (bits, args) ← nextWord args
    return (integerText specifier spec bits, args)
  else if specifier = chr 'f' ∨ specifier = chr 'F' then do
    let (bits, args) ← nextDouble args
    let upper := decide (specifier = chr 'F')
    let flags := { spec.flags with uppercase := spec.flags.uppercase || upper }
    return (floats.ftoa bits { spec with flags := flags }, args)
  else if specifier ∈ [chr 'e', chr 'E', chr 'g', chr 'G'] then do
    let (bits, args) ← nextDouble args
    let adapt := decide (specifier = chr 'g' ∨ specifier = chr 'G')
    let upper := decide (specifier = chr 'E' ∨ specifier = chr 'G')
    let flags := { spec.flags with
      adaptExp := spec.flags.adaptExp || adapt
      uppercase := spec.flags.uppercase || upper }
    return (floats.etoa bits { spec with flags := flags }, args)
  else if specifier = chr 'c' then do
    let (bits, args) ← nextWord args
    return (charText spec bits, args)
  else if specifier = chr 's' then do
    let (p, args) ← nextString args
    let text ← stringText spec p
    return (text, args)
  else if specifier = chr 'p' then do
    let (bits, args) ← nextWord args
    return (pointerText spec bits, args)
  else return ([specifier], args)

theorem convert_eq (specifier : UInt8) (spec : Spec) (args : List Arg) (cur : Cursor σ) :
    convert floats out specifier spec args cur =
      (convertText floats specifier spec args).map fun r => (r.2, cur.emit out r.1) := by
  rw [convert, convertText]
  split_ifs
  · rw [outcome_bind_map]
    refine bind_congr fun r => ?_
    obtain ⟨value, args⟩ := r
    dsimp only
    rw [convertInteger_eq]
    rfl
  · rw [outcome_bind_map]
    rfl
  · rw [outcome_bind_map]
    rfl
  · rw [outcome_bind_map]
    refine bind_congr fun r => ?_
    obtain ⟨value, args⟩ := r
    dsimp only
    rw [convertChar_eq]
    rfl
  · rw [outcome_bind_map]
    refine bind_congr fun r => ?_
    obtain ⟨value, args⟩ := r
    dsimp only
    rw [convertString_eq, outcome_map_bind, outcome_bind_map]
    rfl
  · rw [outcome_bind_map]
    refine bind_congr fun r => ?_
    obtain ⟨value, args⟩ := r
    dsimp only
    rw [convertPointer, ntoaLongLong, ntoaLong_eq]
    rfl
  · rfl

/-! ## The whole format -/

/-- The text of a directive, what follows it, and the arguments left. -/
def directiveText (floats : FloatFormat) (format : List UInt8) (args : List Arg) :
    Outcome (List UInt8 × List UInt8 × List Arg) := do
  let (spec, format, args) ← parseSpec format args
  match format with
  | [] => .error .outOfBounds
  | specifier :: format => do
    let (text, args) ← convertText floats specifier spec args
    return (text, format, args)

theorem directive_eq (format : List UInt8) (args : List Arg) (cur : Cursor σ) :
    directive floats out format args cur =
      (directiveText floats format args).map fun r => (r.2.1, r.2.2, cur.emit out r.1) := by
  rw [directive, directiveText, outcome_bind_map]
  refine bind_congr fun r => ?_
  obtain ⟨spec, format, args⟩ := r
  cases format with
  | nil => rfl
  | cons specifier format =>
    dsimp only
    rw [convert_eq, outcome_map_bind, outcome_bind_map]
    rfl

/-- The text of a format. -/
def formatText (floats : FloatFormat) : ℕ → List UInt8 → List Arg → Outcome (List UInt8)
  | 0, _, _ => .error .outOfFuel
  | _ + 1, [], _ => .error .outOfBounds
  | fuel + 1, c :: format, args =>
    if c = 0 then .ok []
    else if c ≠ chr '%' then do
      let text ← formatText floats fuel format args
      return c :: text
    else do
      let (front, format, args) ← directiveText floats format args
      let text ← formatText floats fuel format args
      return front ++ text

/-- The loop hands out the text of the format. -/
theorem vsnprintfLoop_eq (fuel : ℕ) (format : List UInt8) (args : List Arg) (cur : Cursor σ) :
    vsnprintfLoop floats out fuel format args cur =
      (formatText floats fuel format args).map fun text => cur.emit out text := by
  induction fuel generalizing format args cur with
  | zero => rfl
  | succ fuel ih =>
    cases format with
    | nil => rfl
    | cons c format =>
      rw [vsnprintfLoop, formatText]
      split_ifs
      · rfl
      · rw [ih, outcome_bind_map]
        cases formatText floats fuel format args <;> rfl
      · rw [directive_eq, outcome_map_bind, outcome_bind_map]
        refine bind_congr fun r => ?_
        obtain ⟨front, format, args⟩ := r
        dsimp only
        rw [ih, outcome_bind_map]
        cases formatText floats fuel format args with
        | error e => rfl
        | ok text => exact congrArg Except.ok (Cursor.emit_append front text cur).symm

/-- **One text.** Whatever the output function, it gets the characters of `formatText` and
then a NUL. -/
theorem vsnprintf_eq (maxlen fuel : ℕ) (format : List UInt8) (args : List Arg) (dest : σ) :
    vsnprintf floats out maxlen fuel format args dest =
      (formatText floats fuel format args).map fun text =>
        (toInt32 text.length,
          out 0 (if text.length < maxlen then text.length else subU64 maxlen 1)
            (Cursor.emit out text ⟨0, dest⟩).dest) := by
  rw [vsnprintf, vsnprintfLoop_eq, outcome_map_bind]
  cases formatText floats fuel format args with
  | error e => rfl
  | ok text =>
    simp only [outcome_bind_ok, outcome_map_ok, outcome_pure, Cursor.emit_idx, Nat.zero_add]

/-! ## What becomes of the text -/

variable {format : List UInt8} {args : List Arg} {r : ℤ}

/-- The format has a text. -/
def Prints (floats : FloatFormat) (format : List UInt8) (args : List Arg) (text : List UInt8) :
    Prop := Returns (fun fuel => formatText floats fuel format args) text

/-- A call returns when the format has a text. -/
theorem returns_map_iff {α β : Type} {f : ℕ → Outcome α} {g : α → β} {b : β} :
    Returns (fun fuel => (f fuel).map g) b ↔ ∃ a, Returns f a ∧ g a = b := by
  constructor
  · rintro ⟨fuel, run⟩
    dsimp only at run
    cases result : f fuel with
    | error e => simp [result] at run
    | ok a => exact ⟨a, ⟨fuel, result⟩, by simpa [result] using run⟩
  · rintro ⟨a, ⟨fuel, run⟩, rfl⟩
    exact ⟨fuel, by dsimp only; rw [run]; rfl⟩

/-- **`printf_`** sends the text without its NUL bytes. -/
theorem printf_returns_iff {sent sent' : List UInt8} :
    Returns (fun fuel => printf floats fuel format args sent) (r, sent') ↔
      ∃ text, Prints floats format args text ∧ r = toInt32 text.length ∧
        sent' = sent ++ text.filter (· ≠ 0) := by
  simp only [printf, vsnprintf_eq, returns_map_iff, Prints, outChar, Prod.mk.injEq]
  refine exists_congr fun text => and_congr_right fun _ => and_congr eq_comm ?_
  rw [Cursor.emit_streamSink, eq_comm]
  simp [streamSink]

theorem emit_outFct (fct : UInt8 → σ → σ) (text : List UInt8) (cur : Cursor σ) :
    (cur.emit (outFct fct) text).dest =
      (text.filter (· ≠ 0)).foldl (fun dest c => fct c dest) cur.dest := by
  induction text generalizing cur with
  | nil => rfl
  | cons c text ih =>
    rw [Cursor.emit_cons, ih]
    by_cases nul : c = 0
    · simp [Cursor.put, outFct, nul]
    · simp [Cursor.put, outFct, nul]

/-- **`fctprintf`** calls its function for the text without its NUL bytes. -/
theorem fctprintf_returns_iff {fct : UInt8 → σ → σ} {dest dest' : σ} :
    Returns (fun fuel => fctprintf floats fuel format args fct dest) (r, dest') ↔
      ∃ text, Prints floats format args text ∧ r = toInt32 text.length ∧
        dest' = (text.filter (· ≠ 0)).foldl (fun dest c => fct c dest) dest := by
  simp only [fctprintf, vsnprintf_eq, returns_map_iff, Prints, Prod.mk.injEq]
  refine exists_congr fun text => and_congr_right fun _ => and_congr eq_comm ?_
  rw [emit_outFct, eq_comm]
  simp [outFct]

/-- Memory after as much of a text as fits `count` bytes with its NUL has been stored. -/
def truncated (count : ℕ) (text : List UInt8) (memory : ℕ → UInt8) (i : ℕ) : UInt8 :=
  if count ≤ i then memory i
  else if i < min text.length (count - 1) then text.getD i 0
  else if i = min text.length (count - 1) then 0
  else memory i

theorem outBuffer_text {count : ℕ} (narrow : count < 2 ^ 64) (text : List UInt8)
    (memory : ℕ → UInt8) :
    outBuffer count 0 (if text.length < count then text.length else subU64 count 1)
      (Cursor.emit (outBuffer count) text ⟨0, memory⟩).dest = truncated count text memory := by
  funext i
  have held : (Cursor.emit (bufferSink count) text ⟨0, memory⟩).dest (0 + i) = _ :=
    Cursor.emit_bufferSink ⟨0, memory⟩ i
  simp only [Nat.zero_add] at held
  rw [outBuffer, truncated]
  rcases Nat.eq_zero_or_pos count with rfl | positive
  · -- no room for the NUL: its place is far behind the buffer
    have far : 0 ≤ (if text.length < 0 then text.length else subU64 0 1) := Nat.zero_le _
    rw [bufferSink_past far, held]
    simp
  · have place : (if text.length < count then text.length else subU64 count 1) =
        min text.length (count - 1) := by
      rw [subU64_of_le positive narrow]
      split_ifs <;> omega
    rw [place]
    by_cases past : count ≤ i
    · rw [if_pos past, bufferSink_of_ne (by omega), held, if_neg (by omega)]
    · rw [if_neg past]
      by_cases last : i = min text.length (count - 1)
      · rw [if_neg (by omega), if_pos last, ← last, bufferSink_self (by omega)]
      · rw [bufferSink_of_ne last, held, if_pos (by omega), if_neg last]
        by_cases inside : i < text.length
        · rw [if_pos (by omega)]
          simp [inside]
        · rw [if_neg (by omega), List.getElem?_eq_none (by omega)]
          rfl

/-- **`snprintf_`** stores as much of the text as fits, and returns the length of all of it. -/
theorem snprintf_returns_iff {count : ℕ} (narrow : count < 2 ^ 64) {memory memory' : ℕ → UInt8} :
    Returns (fun fuel => snprintf floats fuel format args true count memory) (r, memory') ↔
      ∃ text, Prints floats format args text ∧ r = toInt32 text.length ∧
        memory' = truncated count text memory := by
  simp only [snprintf, if_true, vsnprintf_eq, returns_map_iff, Prints, Prod.mk.injEq,
    outBuffer_text narrow]
  exact exists_congr fun text => and_congr_right fun _ => and_congr eq_comm eq_comm

/-- `%x` of 0xabc, in a buffer of three bytes. -/
theorem snprintf_cut :
    Returns (fun fuel => snprintf ⟨fun _ _ => [], fun _ _ => []⟩ fuel [chr '%', chr 'x', 0]
        [.word 0xabc#64] true 3 fun _ => 0)
      (3, truncated 3 [chr 'a', chr 'b', chr 'c'] fun _ => 0) :=
  (snprintf_returns_iff (by decide)).mpr ⟨[chr 'a', chr 'b', chr 'c'], ⟨2, rfl⟩, rfl, rfl⟩

end BareMetal.Printf
