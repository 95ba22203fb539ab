import BareMetal.Printf.Text
import Mathlib.Data.Nat.Digits.Lemmas

/-!
# Numbers in their buffer

`_ntoa_long` converts at most 32 digits, and `_ntoa_format` puts zeros, a prefix and a sign in
front of them as long as its buffer of 32 characters has room.

## Main results

* `readNumber_reverse` — digits stand for the number they came from
* `readNumber_take_numberDigits` — what the digits and zeros of a number stand for
* `handleHash_eq` — which of them the flag `#` drops
-/

namespace BareMetal.Printf

open CS

variable {base value width prec room : ℕ} {uppercase negative : Bool} {flags : Flags}
  {buf text : List UInt8}

/-! ## Digits -/

/-- The value of a digit. -/
def readDigit (c : UInt8) : ℕ :=
  if c < 58 then c.toNat - 48 else if c < 97 then c.toNat - 55 else c.toNat - 87

/-- The number that a text of digits stands for. -/
def readNumber (base : ℕ) (text : List UInt8) : ℕ :=
  text.foldl (fun n c => n * base + readDigit c) 0

theorem readDigit_digitChar {d : ℕ} (small : d < 16) (uppercase : Bool) :
    readDigit (digitChar d uppercase) = d := by
  interval_cases d <;> cases uppercase <;> decide

theorem readNumber_foldl (start : ℕ) (text : List UInt8) :
    text.foldl (fun n c => n * base + readDigit c) start =
      start * base ^ text.length + readNumber base text := by
  induction text generalizing start with
  | nil => simp [readNumber]
  | cons c text ih =>
    rw [readNumber, List.foldl_cons, List.foldl_cons, ih, ih, List.length_cons]
    ring

theorem readNumber_append (front back : List UInt8) :
    readNumber base (front ++ back) =
      readNumber base front * base ^ back.length + readNumber base back := by
  rw [readNumber, List.foldl_append, readNumber_foldl]
  rfl

/-- Digits with the least one first, read backwards. -/
theorem readNumber_reverse {ds : List ℕ} (small : ∀ d ∈ ds, d < 16) (uppercase : Bool) :
    readNumber base (ds.map (digitChar · uppercase)).reverse = Nat.ofDigits base ds := by
  induction ds with
  | nil => rfl
  | cons d ds ih =>
    rw [List.map_cons, List.reverse_cons, readNumber_append,
      ih fun e he => small e (List.mem_cons_of_mem d he), Nat.ofDigits_cons]
    have last : readNumber base [digitChar d uppercase] = d := by
      simp [readNumber, readDigit_digitChar (small d List.mem_cons_self)]
    rw [last, List.length_singleton, pow_one, Nat.mul_comm, Nat.add_comm]

/-- The digits of a number, the least one first; 0 has one digit. -/
def digitsOf (base value : ℕ) : List ℕ := if value = 0 then [0] else Nat.digits base value

theorem digitLoop_eq (range : 2 ≤ base) (value : ℕ) (buf : List UInt8) :
    digitLoop base uppercase (room + 1) value buf =
      buf ++ ((digitsOf base value).take (room + 1)).map (digitChar · uppercase) := by
  have step : digitsOf base value = value % base :: Nat.digits base (value / base) := by
    by_cases zero : value = 0
    · subst zero
      simp [digitsOf]
    · rw [digitsOf, if_neg zero, Nat.digits_def' range (Nat.pos_of_ne_zero zero)]
  rw [step, List.take_succ_cons, List.map_cons, digitLoop]
  induction room generalizing value buf with
  | zero => simp [digitLoop]
  | succ room ih =>
    by_cases done : value / base = 0
    · rw [if_neg (not_not.mpr done), done]
      simp
    · rw [if_pos done, digitLoop]
      have next : Nat.digits base (value / base) =
          value / base % base :: Nat.digits base (value / base / base) :=
        Nat.digits_def' range (Nat.pos_of_ne_zero done)
      rw [next, List.take_succ_cons, List.map_cons, ih (value / base) (buf ++ _) ?_]
      · simp
      · rw [digitsOf, if_neg done, next]

theorem ofDigits_take_digitsOf (range : 2 ≤ base) (count : ℕ) (positive : 0 < count) :
    Nat.ofDigits base ((digitsOf base value).take count) = value % base ^ count := by
  rw [digitsOf]
  split_ifs with zero
  · subst zero
    rw [List.take_of_length_le (Nat.succ_le_of_lt positive)]
    simp
  · exact (Nat.self_mod_pow_eq_ofDigits_take count value range).symm

/-! ## The buffer -/

theorem padZeros_eq (target room : ℕ) (buf : List UInt8) :
    padZeros target room buf =
      buf ++ List.replicate (min (target - buf.length) room) (chr '0') := by
  induction room generalizing buf with
  | zero => simp [padZeros]
  | succ room ih =>
    rw [padZeros]
    split_ifs with short
    · rw [ih, List.length_append, List.length_singleton, List.append_assoc]
      have count : min (target - buf.length) (room + 1) =
          min (target - (buf.length + 1)) room + 1 := by omega
      rw [count, List.replicate_succ]
      rfl
    · have none : min (target - buf.length) (room + 1) = 0 := by omega
      rw [none]
      simp

/-- The zeros in front of `len` digits. -/
def zeroCount (len prec width : ℕ) (flags : Flags) : ℕ :=
  if flags.left then 0
  else min (max prec (if flags.zeropad then width else 0)) ntoaBufferSize - len

/-- The digits of a number and the zeros in front of them, as the buffer holds them. -/
def numberDigits (value : ℕ) (negative : Bool) (base prec width : ℕ) (flags : Flags) :
    List UInt8 :=
  let digits := ntoaDigits value base flags
  digits ++ List.replicate
    (zeroCount digits.length prec (numberWidth negative width flags) flags) (chr '0')

theorem padZeros_padZeros (short : buf.length ≤ ntoaBufferSize) (prec width : ℕ)
    (right : flags.left = false) :
    (if ¬ flags.left ∧ flags.zeropad then
      padZeros width (ntoaBufferSize - (padZeros prec (ntoaBufferSize - buf.length) buf).length)
        (padZeros prec (ntoaBufferSize - buf.length) buf)
      else padZeros prec (ntoaBufferSize - buf.length) buf) =
      buf ++ List.replicate (zeroCount buf.length prec width flags) (chr '0') := by
  simp only [padZeros_eq, zeroCount, right, Bool.false_eq_true, not_false_eq_true, true_and,
    if_false, List.length_append, List.length_replicate]
  split_ifs
  · rw [List.append_assoc, List.replicate_append_replicate]
    congr 2
    omega
  · congr 2
    omega

/-- The buffer of `_ntoa_format` with its zeros. -/
theorem ntoaBuffer_eq (short : buf.length ≤ ntoaBufferSize) (negative : Bool)
    (base prec width : ℕ) (flags : Flags) :
    ntoaBuffer buf negative base prec width flags =
      (let buf := buf ++ List.replicate (zeroCount buf.length prec width flags) (chr '0')
      let buf := if flags.hash then handleHash base prec width flags buf else buf
      if buf.length < ntoaBufferSize then buf ++ signChars negative flags else buf) := by
  have padded : (let buf := if flags.left then buf
        else padZeros prec (ntoaBufferSize - buf.length) buf
      if ¬ flags.left ∧ flags.zeropad then padZeros width (ntoaBufferSize - buf.length) buf
      else buf) =
      buf ++ List.replicate (zeroCount buf.length prec width flags) (chr '0') := by
    cases left : flags.left with
    | true => simp [zeroCount, left]
    | false =>
      have := padZeros_padZeros short prec width left
      simpa [left] using this
  rw [← padded]
  rfl

/-! ## What the digits stand for -/

/-- A digit of a base. -/
def DigitOf (base : ℕ) (c : UInt8) : Prop :=
  (chr '0' ≤ c ∧ c ≤ chr '9' ∨ chr 'A' ≤ c ∧ c ≤ chr 'F' ∨ chr 'a' ≤ c ∧ c ≤ chr 'f') ∧
    readDigit c < base

instance (base : ℕ) (c : UInt8) : Decidable (DigitOf base c) :=
  inferInstanceAs (Decidable ((_ ∨ _ ∨ _) ∧ _))

theorem digitOf_digitChar {d : ℕ} (small : d < base) (most : base ≤ 16) (uppercase : Bool) :
    DigitOf base (digitChar d uppercase) := by
  have low : d < 16 := small.trans_le most
  refine ⟨?_, (readDigit_digitChar low uppercase).trans_lt small⟩
  interval_cases d <;> cases uppercase <;> decide

theorem digitsOf_lt (range : 2 ≤ base) : ∀ d ∈ digitsOf base value, d < base := by
  intro d hd
  rw [digitsOf] at hd
  split_ifs at hd with zero
  · simp only [List.mem_singleton] at hd
    omega
  · exact Nat.digits_lt_base range hd

/-- The digits that are converted: none for a 0 with a precision. -/
def heldDigits (value base : ℕ) (flags : Flags) : List ℕ :=
  if ¬ flags.precision ∨ value ≠ 0 then (digitsOf base value).take ntoaBufferSize else []

theorem ntoaDigits_eq (range : 2 ≤ base) :
    ntoaDigits value base flags =
      (heldDigits value base flags).map (digitChar · flags.uppercase) := by
  rw [ntoaDigits, heldDigits]
  split_ifs
  · exact digitLoop_eq range value []
  · rfl

theorem heldDigits_lt (range : 2 ≤ base) : ∀ d ∈ heldDigits value base flags, d < base := by
  intro d hd
  rw [heldDigits] at hd
  split_ifs at hd
  · exact digitsOf_lt range d (List.mem_of_mem_take hd)
  · simp at hd

theorem ofDigits_heldDigits (range : 2 ≤ base) :
    Nat.ofDigits base (heldDigits value base flags) = value % base ^ ntoaBufferSize := by
  rw [heldDigits]
  split_ifs with held
  · exact ofDigits_take_digitsOf range _ (by decide)
  · have zero : value = 0 := by
      by_contra nonzero
      exact held (.inr nonzero)
    simp [zero]

theorem ntoaDigits_length (range : 2 ≤ base) (value : ℕ) (flags : Flags) :
    (ntoaDigits value base flags).length ≤ ntoaBufferSize := by
  rw [ntoaDigits_eq range, List.length_map, heldDigits]
  split_ifs
  · exact List.length_take_le ..
  · exact Nat.zero_le _

theorem numberDigits_length (range : 2 ≤ base) :
    (numberDigits value negative base prec width flags).length ≤ ntoaBufferSize := by
  have short := ntoaDigits_length range value flags
  rw [numberDigits, List.length_append, List.length_replicate, zeroCount]
  split_ifs <;> omega

/-- The digits and zeros of a number, as numbers. -/
theorem numberDigits_eq_map (range : 2 ≤ base) (value : ℕ) (negative : Bool) (prec width : ℕ)
    (flags : Flags) :
    ∃ zeros, numberDigits value negative base prec width flags =
      (heldDigits value base flags ++ List.replicate zeros 0).map
        (digitChar · flags.uppercase) := by
  refine ⟨zeroCount (ntoaDigits value base flags).length prec (numberWidth negative width flags)
    flags, ?_⟩
  rw [numberDigits, List.map_append, List.map_replicate, ← ntoaDigits_eq range]
  rfl

theorem paddedDigits_lt (range : 2 ≤ base) (value : ℕ) (flags : Flags) (zeros : ℕ) :
    ∀ d ∈ heldDigits value base flags ++ List.replicate zeros 0, d < base := by
  intro d hd
  rcases List.mem_append.mp hd with held | zero
  · exact heldDigits_lt range d held
  · rw [List.eq_of_mem_replicate zero]
    omega

theorem digitOf_numberDigits (range : 2 ≤ base) (most : base ≤ 16) :
    ∀ c ∈ numberDigits value negative base prec width flags, DigitOf base c := by
  intro c hc
  obtain ⟨zeros, parts⟩ := numberDigits_eq_map range value negative prec width flags
  rw [parts, List.mem_map] at hc
  obtain ⟨d, hd, rfl⟩ := hc
  exact digitOf_digitChar (paddedDigits_lt range value flags zeros d hd) most _

/-- The last digits and zeros stand for the value modulo a power of the base. -/
theorem readNumber_take_numberDigits (range : 2 ≤ base) (most : base ≤ 16) {count : ℕ}
    (inside : count ≤ ntoaBufferSize) :
    readNumber base ((numberDigits value negative base prec width flags).take count).reverse =
      value % base ^ count := by
  obtain ⟨zeros, parts⟩ := numberDigits_eq_map range value negative prec width flags
  have low := paddedDigits_lt range value flags zeros
  rw [parts, ← List.map_take, readNumber_reverse fun d hd =>
      (low d (List.mem_of_mem_take hd)).trans_le most,
    ← Nat.ofDigits_mod_pow_eq_ofDigits_take count (by omega) _ low,
    Nat.ofDigits_append, Nat.ofDigits_replicate_zero, Nat.mul_zero, Nat.add_zero,
    ofDigits_heldDigits range]
  exact Nat.mod_mod_of_dvd _ (pow_dvd_pow base inside)

/-! ## The flag `#` -/

/-- How many digits the flag `#` drops to make room for its prefix. -/
def dropCount (len base prec width : ℕ) (flags : Flags) : ℕ :=
  if ¬ flags.precision ∧ (len = prec ∨ len = width) then if base = 16 then 2 else 1 else 0

/-- The prefix of a base, as the buffer holds it. -/
def prefixChars (base : ℕ) (flags : Flags) : List UInt8 :=
  if base = 16 then [if flags.uppercase then chr 'X' else chr 'x', chr '0']
  else if base = 2 then [chr 'b', chr '0']
  else [chr '0']

theorem handleHash_eq (base prec width : ℕ) (flags : Flags) (buf : List UInt8) :
    handleHash base prec width flags buf =
      (prefixChars base flags).foldl (fun buf c => pushChar c buf)
        (buf.take (buf.length - dropCount buf.length base prec width flags)) := by
  have kept : (if ¬ flags.precision ∧ buf.length ≠ 0 ∧ (buf.length = prec ∨ buf.length = width)
      then
        let buf := buf.dropLast
        if buf.length ≠ 0 ∧ base = 16 then buf.dropLast else buf
      else buf) =
      buf.take (buf.length - dropCount buf.length base prec width flags) := by
    rw [dropCount]
    by_cases empty : buf.length = 0
    · simp [List.length_eq_zero_iff.mp empty]
    · by_cases cut : ¬ flags.precision ∧ (buf.length = prec ∨ buf.length = width)
      · rw [if_pos ⟨cut.1, empty, cut.2⟩, if_pos cut]
        by_cases hex : base = 16
        · simp only [hex, List.dropLast_eq_take, List.length_take, List.take_take, if_true]
          split_ifs with two
          · congr 1
            omega
          · congr 1
            simp only [and_true] at two
            omega
        · rw [if_neg hex, if_neg (by simp [hex]), List.dropLast_eq_take]
      · rw [if_neg (fun h => cut ⟨h.1, h.2.2⟩), if_neg cut, Nat.sub_zero, List.take_length]
  rw [handleHash, kept, prefixChars]
  by_cases hex : base = 16
  · cases upper : flags.uppercase <;> simp [hex]
  · by_cases binary : base = 2
    · simp [binary]
    · simp [hex, binary]

end BareMetal.Printf
