import BareMetal.Printf.Numbers

/-!
# Reading the integer fields

A reader takes the spaces, the sign and the prefix from a field and reads the digits in between.
It gets back the number that was converted, except where `_ntoa_format` ran out of its buffer of
32 characters or dropped digits for the prefix of the flag `#`.

## Main results

* `readField_integerText_iff` — when a field without a prefix reads as its number
* `readField_prefixed_iff` — when a field with a prefix does
-/

namespace BareMetal.Printf

open CS

variable {base value width prec : ℕ} {negative : Bool} {flags : Flags}
  {sign core buf : List UInt8}

/-! ## The reader -/

/-- A text without the prefix of its base. -/
def stripPrefix (base : ℕ) : List UInt8 → List UInt8
  | c :: d :: text =>
    if c = chr '0' ∧ (base = 16 ∧ (d = chr 'x' ∨ d = chr 'X') ∨ base = 2 ∧ d = chr 'b') then text
    else c :: d :: text
  | text => text

/-- The number that a text stands for, if it has digits only. -/
def readDigits (base : ℕ) (text : List UInt8) : Option ℕ :=
  if text.all fun c => DigitOf base c then some (readNumber base text) else none

theorem readDigits_of_digits {text : List UInt8} (held : ∀ c ∈ text, DigitOf base c) :
    readDigits base text = some (readNumber base text) :=
  if_pos (List.all_eq_true.mpr fun c hc => decide_eq_true (held c hc))

/-- The number that a text without spaces in front stands for: a sign, a prefix, digits. -/
def readSigned (base : ℕ) (text : List UInt8) : Option ℤ :=
  let negative := text.head? = some (chr '-')
  let text := if negative ∨ text.head? = some (chr '+') then text.tail else text
  (readDigits base (stripPrefix base (text.takeWhile (· ≠ chr ' ')))).map fun n : ℕ =>
    if negative then -(n : ℤ) else n

/-- The number in a field, which may have spaces on both sides. -/
def readField (base : ℕ) (text : List UInt8) : Option ℤ :=
  readSigned base (text.dropWhile (· = chr ' '))

/-- A character that is no space and no sign. -/
def Plain (c : UInt8) : Prop := c ≠ chr ' ' ∧ c ≠ chr '-' ∧ c ≠ chr '+'

theorem dropWhile_spaces (count : ℕ) (text : List UInt8) :
    (spaces count ++ text).dropWhile (· = chr ' ') = text.dropWhile (· = chr ' ') :=
  List.dropWhile_append_of_pos fun c hc => by simp [List.eq_of_mem_replicate hc]

theorem takeWhile_core (plain : ∀ c ∈ core, Plain c) (count : ℕ) :
    (core ++ spaces count).takeWhile (· ≠ chr ' ') = core := by
  rw [List.takeWhile_append_of_pos fun c hc => by simpa using (plain c hc).1]
  cases count <;> simp [spaces, List.replicate_succ]

theorem head_core (plain : ∀ c ∈ core, Plain c) (count : ℕ) :
    (core ++ spaces count).head? ≠ some (chr '-') ∧
      (core ++ spaces count).head? ≠ some (chr '+') := by
  cases core with
  | nil =>
    have other : chr ' ' ≠ chr '-' ∧ chr ' ' ≠ chr '+' := by decide
    cases count <;> simp [spaces, List.replicate_succ, other]
  | cons c core =>
    have here := plain c List.mem_cons_self
    exact ⟨by simpa using here.2.1, by simpa using here.2.2⟩

theorem readSigned_core (plain : ∀ c ∈ core, Plain c) (count : ℕ) :
    readSigned base (core ++ spaces count) =
      (readDigits base (stripPrefix base core)).map fun n : ℕ => (n : ℤ) := by
  obtain ⟨positive, noplus⟩ := head_core plain count
  simp only [readSigned, positive, noplus, or_self, if_false, takeWhile_core plain]

theorem readField_core (plain : ∀ c ∈ core, Plain c) (count : ℕ) :
    readField base (core ++ spaces count) =
      (readDigits base (stripPrefix base core)).map fun n : ℕ => (n : ℤ) := by
  rw [readField]
  cases core with
  | nil =>
    have none := dropWhile_spaces count []
    rw [List.append_nil] at none
    rw [List.nil_append, none]
    exact readSigned_core plain 0
  | cons c core =>
    rw [List.cons_append, List.dropWhile_cons_of_neg (by
      simpa using (plain c List.mem_cons_self).1)]
    exact readSigned_core plain count

/-- The reader finds the sign and what follows it. -/
theorem readField_parts (plain : ∀ c ∈ core, Plain c)
    (signs : sign ∈ [[], [chr '-'], [chr '+'], [chr ' ']]) (front back : ℕ) :
    readField base (spaces front ++ (sign ++ core) ++ spaces back) =
      (readDigits base (stripPrefix base core)).map fun n : ℕ =>
        if sign = [chr '-'] then -(n : ℤ) else n := by
  rw [List.append_assoc, readField, dropWhile_spaces, ← readField, List.append_assoc]
  simp only [List.mem_cons, List.not_mem_nil, or_false] at signs
  rcases signs with rfl | rfl | rfl | rfl
  · exact readField_core plain back
  · have minus : readField base ([chr '-'] ++ (core ++ spaces back)) =
        readSigned base (chr '-' :: (core ++ spaces back)) := rfl
    rw [minus]
    simp only [readSigned, List.head?_cons, List.tail_cons, true_or, if_true, takeWhile_core plain]
  · have plus : readField base ([chr '+'] ++ (core ++ spaces back)) =
        readSigned base (chr '+' :: (core ++ spaces back)) := rfl
    have positive : some (chr '+') ≠ some (chr '-') := by decide
    have none : [chr '+'] ≠ [chr '-'] := by decide
    rw [plus]
    simp only [readSigned, List.head?_cons, List.tail_cons, or_true, if_true, positive, none,
      if_false, takeWhile_core plain]
  · have space : readField base ([chr ' '] ++ (core ++ spaces back)) =
        readField base (core ++ spaces back) := rfl
    have none : [chr ' '] ≠ [chr '-'] := by decide
    rw [space, readField_core plain]
    simp only [none, if_false]

/-! ## Numbers without a prefix -/

theorem DigitOf.plain {c : UInt8} (digit : DigitOf base c) : Plain c := by
  refine ⟨?_, ?_, ?_⟩ <;> rintro rfl <;> exact absurd digit.1 (by decide)

theorem stripPrefix_digits (digits : ∀ c ∈ core, DigitOf base c) :
    stripPrefix base core = core := by
  rcases core with _ | ⟨c, _ | ⟨d, text⟩⟩
  · rfl
  · rfl
  · have digit : DigitOf base d := digits d (by simp)
    refine if_neg ?_
    rintro ⟨-, ⟨-, rfl | rfl⟩ | ⟨rfl, rfl⟩⟩
    · exact absurd digit.1 (by decide)
    · exact absurd digit.1 (by decide)
    · exact absurd digit (by decide)

theorem signChars_mem (negative : Bool) (flags : Flags) :
    signChars negative flags ∈ [[], [chr '-'], [chr '+'], [chr ' ']] := by
  rw [signChars]
  split_ifs <;> simp

theorem signChars_minus (negative : Bool) (flags : Flags) :
    signChars negative flags = [chr '-'] ↔ negative = true := by
  have plus : chr '+' ≠ chr '-' := by decide
  have space : chr ' ' ≠ chr '-' := by decide
  rw [signChars]
  split_ifs with minus <;> simp_all

theorem signChars_reverse (negative : Bool) (flags : Flags) :
    (signChars negative flags).reverse = signChars negative flags := by
  rw [signChars]
  split_ifs <;> rfl

theorem revText_parts (buf : List UInt8) (width : ℕ) (flags : Flags) :
    ∃ front back, revText buf width flags = spaces front ++ buf.reverse ++ spaces back := by
  rw [revText]
  split_ifs
  exacts [⟨_, _, rfl⟩, ⟨_, 0, rfl⟩, ⟨0, _, rfl⟩, ⟨0, 0, rfl⟩]

/-- A number without a prefix. -/
theorem ntoaText_plain (range : 2 ≤ base) (plain : flags.hash = false ∨ value = 0)
    (negative : Bool) (prec width : ℕ) :
    ntoaText value negative base prec width flags =
      revText
        (let digits := numberDigits value negative base prec width flags
        if digits.length < ntoaBufferSize then digits ++ signChars negative flags else digits)
        (numberWidth negative width flags) flags := by
  have off : ntoaFlags value flags = { flags with hash := false } := by
    rw [ntoaFlags]
    split_ifs with zero
    · rfl
    · rw [← plain.resolve_right zero]
  simp only [ntoaText, off]
  rw [ntoaBuffer_eq (ntoaDigits_length range value _)]
  rfl

/-- The reader on digits with a sign, which is there if the buffer has room. -/
theorem readField_revText {digits : List UInt8} (held : ∀ c ∈ digits, DigitOf base c)
    (negative : Bool) (width : ℕ) (flags : Flags) :
    readField base (revText
      (if digits.length < ntoaBufferSize then digits ++ signChars negative flags else digits)
      width flags) =
      some (if negative = true ∧ digits.length < ntoaBufferSize
        then -(readNumber base digits.reverse : ℤ) else readNumber base digits.reverse) := by
  have held' : ∀ c ∈ digits.reverse, DigitOf base c := fun c hc => held c (List.mem_reverse.mp hc)
  have plain : ∀ c ∈ digits.reverse, Plain c := fun c hc => (held' c hc).plain
  have number : readDigits base (stripPrefix base digits.reverse) =
      some (readNumber base digits.reverse) := by
    rw [stripPrefix_digits held', readDigits_of_digits held']
  obtain ⟨front, back, parts⟩ := revText_parts
    (if digits.length < ntoaBufferSize then digits ++ signChars negative flags else digits)
    width flags
  rw [parts]
  by_cases room : digits.length < ntoaBufferSize
  · rw [if_pos room, List.reverse_append, signChars_reverse,
      readField_parts plain (signChars_mem negative flags), number]
    simp [signChars_minus, room]
  · have unsigned : readField base (spaces front ++ ([] ++ digits.reverse) ++ spaces back) = _ :=
      readField_parts plain List.mem_cons_self front back
    rw [if_neg room, ← List.nil_append digits.reverse, unsigned, number]
    simp [room]

/-- The reader on a number without a prefix. -/
theorem readField_ntoaText (range : 2 ≤ base) (most : base ≤ 16)
    (plain : flags.hash = false ∨ value = 0) (negative : Bool) (prec width : ℕ) :
    readField base (ntoaText value negative base prec width flags) =
      some (if negative = true ∧
          (numberDigits value negative base prec width flags).length < ntoaBufferSize
        then -((value % base ^ ntoaBufferSize : ℕ) : ℤ)
        else (value % base ^ ntoaBufferSize : ℕ)) := by
  rw [ntoaText_plain range plain]
  dsimp only
  rw [readField_revText (digitOf_numberDigits range most),
    ← readNumber_take_numberDigits range most le_rfl,
    List.take_of_length_le (numberDigits_length range)]

/-! ## Numbers with a prefix -/

theorem readField_plain {text : List UInt8} (plain : ∀ c ∈ text.reverse, Plain c) (width : ℕ)
    (flags : Flags) :
    readField base (revText text width flags) =
      (readDigits base (stripPrefix base text.reverse)).map fun n : ℕ => (n : ℤ) := by
  obtain ⟨front, back, parts⟩ := revText_parts text width flags
  have unsigned : readField base (spaces front ++ ([] ++ text.reverse) ++ spaces back) = _ :=
    readField_parts plain List.mem_cons_self front back
  rw [parts, ← List.nil_append text.reverse, unsigned]
  simp

theorem readDigits_zero_cons {text : List UInt8} (range : 2 ≤ base) :
    readDigits base (chr '0' :: text) = readDigits base text := by
  have zero : readDigit (chr '0') = 0 := by decide
  have digit : DigitOf base (chr '0') := ⟨by decide, by omega⟩
  have number : readNumber base (chr '0' :: text) = readNumber base text := by
    rw [readNumber, List.foldl_cons, zero, Nat.zero_mul, readNumber]
  rw [readDigits, readDigits, number]
  simp [digit]

/-- A prefix of two characters in front of digits: the mark of the base stays alone where the
buffer has room for one character only. -/
theorem readDigits_mark {mark : UInt8} {kept : List UInt8} (other : ¬ DigitOf base mark)
    (strip : ∀ text, stripPrefix base (chr '0' :: mark :: text) = text) (nonzero : mark ≠ chr '0')
    (short : kept.length ≤ ntoaBufferSize) (held : ∀ c ∈ kept.reverse, DigitOf base c) :
    readDigits base (stripPrefix base (pushChar (chr '0') (pushChar mark kept)).reverse) =
      if kept.length = ntoaBufferSize - 1 then none else readDigits base kept.reverse := by
  have pushed : ∀ {c : UInt8} {buf : List UInt8}, buf.length < 32 → pushChar c buf = buf ++ [c] :=
    fun room => if_pos room
  have refused : ∀ {c : UInt8} {buf : List UInt8}, ¬ buf.length < 32 → pushChar c buf = buf :=
    fun room => if_neg room
  rw [ntoaBufferSize] at short ⊢
  have longer : (kept ++ [mark]).length = kept.length + 1 := List.length_append
  rcases Nat.lt_trichotomy kept.length 31 with below | last | full
  · rw [if_neg (by omega), pushed (by omega : kept.length < 32), pushed (by omega)]
    simp [strip]
  · have first : pushChar mark kept = kept ++ [mark] := pushed (by omega)
    have alone : stripPrefix base (mark :: kept.reverse) = mark :: kept.reverse := by
      cases kept.reverse with
      | nil => rfl
      | cons d text => exact if_neg fun h => nonzero h.1
    rw [if_pos (by omega), first, refused (by omega), List.reverse_append,
      List.reverse_singleton, List.singleton_append, alone, readDigits]
    simp [other]
  · have same : pushChar mark kept = kept := refused (by omega)
    rw [if_neg (by omega), same, refused (by omega), stripPrefix_digits held]

/-- The characters of a prefix in front of digits. -/
theorem readDigits_prefix (known : base = 2 ∨ base = 8 ∨ base = 16) (flags : Flags)
    {kept : List UInt8} (short : kept.length ≤ ntoaBufferSize)
    (held : ∀ c ∈ kept.reverse, DigitOf base c) :
    readDigits base (stripPrefix base
      ((prefixChars base flags).foldl (fun buf c => pushChar c buf) kept).reverse) =
      if base ≠ 8 ∧ kept.length = ntoaBufferSize - 1 then none
      else readDigits base kept.reverse := by
  rcases known with rfl | rfl | rfl
  · simpa [prefixChars] using
      readDigits_mark (by decide) (fun _ => rfl) (by decide) short held
  · have pushed : ((prefixChars 8 flags).foldl (fun buf c => pushChar c buf) kept).reverse =
        if kept.length < ntoaBufferSize then chr '0' :: kept.reverse else kept.reverse := by
      simp only [prefixChars, pushChar]
      split_ifs <;> simp_all
    have front : stripPrefix 8 (chr '0' :: kept.reverse) = chr '0' :: kept.reverse := by
      cases kept.reverse <;> simp [stripPrefix]
    have octal : ¬ (8 ≠ 8 ∧ kept.length = ntoaBufferSize - 1) := fun h => h.1 rfl
    rw [pushed, if_neg octal]
    split_ifs
    · rw [front, readDigits_zero_cons (by decide)]
    · rw [stripPrefix_digits held]
  · cases upper : flags.uppercase with
    | false =>
      simpa [prefixChars, upper] using
        readDigits_mark (by decide) (fun _ => rfl) (by decide) short held
    | true =>
      simpa [prefixChars, upper] using
        readDigits_mark (by decide) (fun _ => rfl) (by decide) short held

theorem mem_foldl_pushChar {c : UInt8} {chars kept : List UInt8}
    (member : c ∈ chars.foldl (fun buf c => pushChar c buf) kept) : c ∈ kept ∨ c ∈ chars := by
  induction chars generalizing kept with
  | nil => exact .inl member
  | cons d chars ih =>
    rcases ih member with old | new
    · dsimp only [pushChar] at old
      split_ifs at old
      · rcases List.mem_append.mp old with here | here
        · exact .inl here
        · exact .inr (by simp [List.mem_singleton.mp here])
      · exact .inl old
    · exact .inr (List.mem_cons_of_mem d new)

theorem prefixChars_plain (base : ℕ) (flags : Flags) : ∀ c ∈ prefixChars base flags, Plain c := by
  have plain : Plain (chr 'x') ∧ Plain (chr 'X') ∧ Plain (chr 'b') ∧ Plain (chr '0') := by
    simp only [Plain]
    decide
  intro c hc
  rw [prefixChars] at hc
  split_ifs at hc <;> simp only [List.mem_cons, List.not_mem_nil, or_false] at hc <;>
    grind

/-- The digits that stay when the flag `#` makes room for its prefix. -/
def keptCount (len base prec width : ℕ) (flags : Flags) : ℕ :=
  len - dropCount len base prec width flags

/-- The reader on a number with a prefix. -/
theorem readField_ntoaText_hash (known : base = 2 ∨ base = 8 ∨ base = 16)
    (hash : flags.hash = true) (nonzero : value ≠ 0) (unsigned : signChars false flags = [])
    (prec width : ℕ) :
    readField base (ntoaText value false base prec width flags) =
      (let kept := keptCount (numberDigits value false base prec width flags).length base prec
        (numberWidth false width flags) flags
      if base ≠ 8 ∧ kept = ntoaBufferSize - 1 then none
      else some ((value % base ^ kept : ℕ) : ℤ)) := by
  have range : 2 ≤ base := by omega
  have most : base ≤ 16 := by omega
  set digits := numberDigits value false base prec width flags with hdigits
  set count := keptCount digits.length base prec (numberWidth false width flags) flags with hcount
  have short : digits.length ≤ ntoaBufferSize := numberDigits_length range
  have inside : count ≤ digits.length := Nat.sub_le ..
  have length : (digits.take count).length = count := List.length_take_of_le inside
  have held : ∀ c ∈ (digits.take count).reverse, DigitOf base c := fun c hc =>
    digitOf_numberDigits range most c (List.mem_of_mem_take (List.mem_reverse.mp hc))
  -- the buffer holds the digits that are kept and, behind them, the prefix
  have text : ntoaText value false base prec width flags =
      revText ((prefixChars base flags).foldl (fun buf c => pushChar c buf) (digits.take count))
        (numberWidth false width flags) flags := by
    rw [ntoaText, ntoaFlags, if_neg nonzero, ntoaBuffer_eq (ntoaDigits_length range value _),
      unsigned, hash]
    simp only [if_true, List.append_nil, ite_self, handleHash_eq]
    rfl
  have plain : ∀ c ∈ ((prefixChars base flags).foldl (fun buf c => pushChar c buf)
      (digits.take count)).reverse, Plain c := by
    intro c hc
    rcases mem_foldl_pushChar (List.mem_reverse.mp hc) with digit | front
    · exact (held c (List.mem_reverse.mpr digit)).plain
    · exact prefixChars_plain base flags c front
  rw [text, readField_plain plain,
    readDigits_prefix known flags (length.le.trans (inside.trans short)) held, length]
  dsimp only
  split_ifs
  · rfl
  · rw [readDigits_of_digits held, readNumber_take_numberDigits range most (inside.trans short)]
    rfl

/-! ## Integer conversions -/

variable {specifier : UInt8} {spec : Spec} {bits : BitVec 64}

/-- The number that an integer conversion shows. -/
def integerValue (specifier : UInt8) (spec : Spec) (bits : BitVec 64) : ℤ :=
  let flags := integerFlags specifier spec.flags
  if IsSigned specifier then signedValue flags bits else unsignedValue flags bits

/-- The digits and zeros of an integer conversion, backwards. -/
def integerDigits (specifier : UInt8) (spec : Spec) (bits : BitVec 64) : List UInt8 :=
  numberDigits (integerValue specifier spec bits).natAbs (integerValue specifier spec bits < 0)
    (integerBase specifier) spec.precision spec.width (integerFlags specifier spec.flags)

theorem integerText_eq (specifier : UInt8) (spec : Spec) (bits : BitVec 64) :
    integerText specifier spec bits =
      ntoaText (integerValue specifier spec bits).natAbs (integerValue specifier spec bits < 0)
        (integerBase specifier) spec.precision spec.width (integerFlags specifier spec.flags) := by
  rw [integerText, integerValue]
  split_ifs
  · rfl
  · have positive : ∀ n : ℕ, ¬ (n : ℤ) < 0 := fun n => by omega
    simp [positive]

theorem integerBase_cases (specifier : UInt8) :
    integerBase specifier = 10 ∨ specifier = chr 'b' ∧ integerBase specifier = 2 ∨
      integerBase specifier = 8 ∨ integerBase specifier = 16 := by
  rw [integerBase]
  split_ifs <;> simp_all

theorem integerBase_range (specifier : UInt8) :
    2 ≤ integerBase specifier ∧ integerBase specifier ≤ 16 := by
  rcases integerBase_cases specifier with h | ⟨-, h⟩ | h | h <;> simp [h]

theorem integerValue_nonneg (unsigned : ¬ IsSigned specifier) :
    0 ≤ integerValue specifier spec bits := by
  rw [integerValue, if_neg unsigned]
  exact Int.natCast_nonneg _

theorem integerValue_lt (specifier : UInt8) (spec : Spec) (bits : BitVec 64) :
    (integerValue specifier spec bits).natAbs < 2 ^ 64 := by
  have whole := bits.isLt
  have low := BitVec.le_toInt bits
  have high := BitVec.toInt_lt (x := bits)
  have low16 := BitVec.le_toInt (bits.setWidth 16)
  have high16 := BitVec.toInt_lt (x := bits.setWidth 16)
  have low32 := BitVec.le_toInt (bits.setWidth 32)
  have high32 := BitVec.toInt_lt (x := bits.setWidth 32)
  rw [integerValue, signedValue, unsignedValue, toInt]
  have size8 := (bits.setWidth 8).isLt
  have size16 := (bits.setWidth 16).isLt
  have size32 := (bits.setWidth 32).isLt
  split_ifs <;> omega

/-- At most 22 digits are converted, except in base 2. -/
theorem ntoaDigits_length_le (wide : 8 ≤ base) (narrow : value < 2 ^ 64) (flags : Flags) :
    (ntoaDigits value base flags).length ≤ 22 := by
  have range : 2 ≤ base := by omega
  have fits : value < base ^ 22 := calc
    value < 2 ^ 64 := narrow
    _ ≤ 8 ^ 22 := by norm_num
    _ ≤ base ^ 22 := Nat.pow_le_pow_left wide 22
  have count : (digitsOf base value).length ≤ 22 := by
    rw [digitsOf]
    split_ifs
    · exact Nat.le_of_ble_eq_true rfl
    · exact (Nat.digits_length_le_iff range value).mpr fits
  rw [ntoaDigits_eq range, List.length_map, heldDigits]
  split_ifs
  · exact (List.length_take_le' ..).trans count
  · exact Nat.zero_le _

/-- The sign of a number has room unless zeros fill the buffer. -/
theorem sign_has_room_iff (wide : 8 ≤ base) (narrow : value < 2 ^ 64) (flags : Flags)
    (prec width : ℕ) :
    (numberDigits value true base prec width flags).length < ntoaBufferSize ↔
      flags.left = true ∨ prec < 32 ∧ (flags.zeropad = true → width ≤ 32) := by
  have few := ntoaDigits_length_le wide narrow flags
  rw [numberDigits, List.length_append, List.length_replicate, zeroCount, numberWidth,
    ntoaBufferSize]
  cases flags.left <;> cases flags.zeropad <;> grind

theorem integerFlags_left (specifier : UInt8) (flags : Flags) :
    (integerFlags specifier flags).left = flags.left := by
  rw [integerFlags]
  split_ifs <;> rfl

/-- **Reading back.** A field without a prefix reads as its number, unless zeros leave no room
for the sign or the number has more than 32 binary digits. -/
theorem readField_integerText_iff
    (plain : (integerFlags specifier spec.flags).hash = false ∨
      integerValue specifier spec bits = 0) :
    readField (integerBase specifier) (integerText specifier spec bits) =
        some (integerValue specifier spec bits) ↔
      (integerValue specifier spec bits < 0 → spec.flags.left = true ∨
        spec.precision < 32 ∧
          ((integerFlags specifier spec.flags).zeropad = true → spec.width ≤ 32)) ∧
      (specifier = chr 'b' → (integerValue specifier spec bits).natAbs < 2 ^ 32) := by
  obtain ⟨range, most⟩ := integerBase_range specifier
  have narrow := integerValue_lt specifier spec bits
  have unsigned : specifier = chr 'b' → 0 ≤ integerValue specifier spec bits := by
    rintro rfl
    exact integerValue_nonneg (by decide)
  set v := integerValue specifier spec bits with hv
  rw [integerText_eq, readField_ntoaText range most (plain.imp id fun zero => by
    rw [← hv, zero]; rfl), ← hv, Option.some_inj]
  rcases eq_or_ne specifier (chr 'b') with binary | other
  · -- in base 2 the buffer holds 32 digits, and no number has a sign
    have positive := unsigned binary
    have base : integerBase specifier = 2 := by rw [binary]; decide
    rw [base, ntoaBufferSize, if_neg (by simp only [decide_eq_true_eq]; omega)]
    constructor
    · intro same
      refine ⟨fun negative => by omega, fun _ => ?_⟩
      have low := Nat.mod_lt v.natAbs (show 0 < 2 ^ 32 by norm_num)
      omega
    · rintro ⟨-, low⟩
      rw [Nat.mod_eq_of_lt (low binary)]
      omega
  · -- in the other bases 32 digits hold every number, and only the sign can be lost
    have wide : 8 ≤ integerBase specifier := by
      rcases integerBase_cases specifier with h | ⟨h, -⟩ | h | h
      exacts [by omega, absurd h other, by omega, by omega]
    have whole : v.natAbs % integerBase specifier ^ ntoaBufferSize = v.natAbs :=
      Nat.mod_eq_of_lt (narrow.trans_le ((show 2 ^ 64 ≤ 8 ^ 32 by norm_num).trans
        (Nat.pow_le_pow_left wide 32)))
    rw [whole, and_iff_left fun h => absurd h other]
    by_cases negative : v < 0
    · have room := sign_has_room_iff wide narrow (integerFlags specifier spec.flags)
        spec.precision spec.width
      rw [integerFlags_left] at room
      simp only [negative, decide_true, true_and, forall_const, ← room]
      split_ifs with fits
      · simp only [fits, iff_true]
        omega
      · simp only [fits, iff_false]
        omega
    · rw [if_neg (by simp [negative])]
      simp only [negative, false_imp_iff, iff_true]
      omega

/-- `%6d` of -42. -/
theorem readField_padded :
    readField 10 (integerText (chr 'd') ⟨{}, 6, 0⟩ (BitVec.ofInt 64 (-42))) = some (-42) :=
  (readField_integerText_iff (.inl rfl)).mpr ⟨fun _ => by decide, fun h => absurd h (by decide)⟩

theorem integerFlags_unsigned (unsigned : ¬ IsSigned specifier) (flags : Flags) :
    signChars false (integerFlags specifier flags) = [] := by
  simp only [integerFlags, signChars, unsigned, not_false_eq_true, if_true]
  split_ifs <;> simp_all

theorem integerFlags_hash (hash : (integerFlags specifier spec.flags).hash = true) :
    integerBase specifier ≠ 10 := by
  intro decimal
  simp only [integerFlags, decimal, if_true] at hash
  split_ifs at hash

/-- **Reading back, with a prefix.** A field with a prefix reads as its number unless digits of
the number were dropped for the prefix, or the prefix stands without its `0`. -/
theorem readField_prefixed_iff (hash : (integerFlags specifier spec.flags).hash = true)
    (nonzero : integerValue specifier spec bits ≠ 0) :
    let kept := keptCount (integerDigits specifier spec bits).length (integerBase specifier)
      spec.precision spec.width (integerFlags specifier spec.flags)
    readField (integerBase specifier) (integerText specifier spec bits) =
        some (integerValue specifier spec bits) ↔
      (integerValue specifier spec bits).natAbs < integerBase specifier ^ kept ∧
        (integerBase specifier = 8 ∨ kept ≠ 31) := by
  have known : integerBase specifier = 2 ∨ integerBase specifier = 8 ∨
      integerBase specifier = 16 := by
    rcases integerBase_cases specifier with h | ⟨-, h⟩ | h | h
    exacts [absurd h (integerFlags_hash hash), .inl h, .inr (.inl h), .inr (.inr h)]
  have unsigned : ¬ IsSigned specifier := by
    rintro (rfl | rfl) <;> exact integerFlags_hash hash (by decide)
  have positive : 0 ≤ integerValue specifier spec bits := integerValue_nonneg unsigned
  have off : decide (integerValue specifier spec bits < 0) = false := by simpa using positive
  have signless := integerFlags_unsigned unsigned spec.flags
  have nowidth : numberWidth false spec.width (integerFlags specifier spec.flags) = spec.width := by
    rw [numberWidth, if_neg]
    rintro ⟨-, -, -, sign⟩
    rw [signChars] at signless
    split_ifs at signless <;> simp_all
  rw [integerText_eq, off, readField_ntoaText_hash known hash (by omega) signless, nowidth,
    integerDigits, off]
  dsimp only
  set kept := keptCount _ _ _ _ _ with hkept
  set v := integerValue specifier spec bits with hv
  rw [ntoaBufferSize]
  have pos : 0 < integerBase specifier ^ kept := Nat.pow_pos (by omega)
  split_ifs with alone
  · -- the prefix lost its `0`, and nothing is read
    simp only [false_iff, not_and, not_or, not_not]
    exact fun _ => alone
  · have whole : integerBase specifier = 8 ∨ kept ≠ 31 := by
      by_contra h
      exact alone ⟨fun eight => h (.inl eight), not_not.mp fun other => h (.inr other)⟩
    rw [and_iff_left whole, Option.some_inj]
    constructor
    · intro same
      have low := Nat.mod_lt v.natAbs pos
      omega
    · intro low
      rw [Nat.mod_eq_of_lt low]
      omega

/-- `%#06x` of 0x2a keeps its digits. -/
theorem readField_prefixed :
    readField 16 (integerText (chr 'x') ⟨{ zeropad := true, hash := true }, 6, 0⟩ 0x2a#64) =
      some 0x2a :=
  (readField_prefixed_iff rfl (by decide)).mpr (by decide)

end BareMetal.Printf
