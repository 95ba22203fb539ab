import BareMetal.CS.MachineInt
import BareMetal.CS.Outcome
import Mathlib.Algebra.Group.Basic
import Mathlib.Algebra.Group.Int.Defs
import Mathlib.Data.List.Basic

/-!
# Strings of `lib/string.c`

A string is the list of its bytes in front of the NUL that ends it; `cstr` is what a
pointer to it points to. Functions that follow a pointer to the NUL take the bytes
from the pointer on to the end of what may be read, and reading past them is the fault
`outOfBounds`. `strtok` and `spilt_strings` cut lists here; `InPlace.spiltStrings_refines` has the
same pieces for the functions that cut the string in memory.

## Main results

* `strcmp_cstr` — `strcmp` finds out whether two strings are equal
* `appendStr_cstr` — `append_str` appends a character
* `myHex2Int_eq` — `myHex2Int` reads hexadecimal numbers
* `spiltStrings_eq` — `spilt_strings` splits at every delimiter
-/

namespace BareMetal.Strings

open CS

/-- A string with its NUL. -/
def cstr (s : List UInt8) : List UInt8 := s ++ [0]

/-! ## `strcmp` -/

/-- `strcmp`. -/
def strcmp : List UInt8 → List UInt8 → Outcome ℤ
  | x :: xs, y :: ys =>
    -- `while (*X)` ends at the NUL or at the first difference
    if x = 0 ∨ x ≠ y then .ok ((x.toNat : ℤ) - y.toNat) else strcmp xs ys
  | _, _ => .error .outOfBounds

theorem toNat_sub_eq_zero {x y : UInt8} : (x.toNat : ℤ) - y.toNat = 0 ↔ x = y := by
  rw [sub_eq_zero, Int.natCast_inj, UInt8.toNat_inj]

/-- **`strcmp` compares strings**, whatever follows them. -/
theorem strcmp_cstr {x y : List UInt8} (no_nul : 0 ∉ x) (no_nul' : 0 ∉ y) (u v : List UInt8) :
    ∃ order, strcmp (cstr x ++ u) (cstr y ++ v) = .ok order ∧ (order = 0 ↔ x = y) := by
  induction x generalizing y with
  | nil =>
    cases y with
    | nil => exact ⟨_, if_pos (.inl rfl), iff_of_true (toNat_sub_eq_zero.mpr rfl) rfl⟩
    | cons b y =>
      refine ⟨_, if_pos (.inl rfl), iff_of_false ?_ (by simp)⟩
      rw [toNat_sub_eq_zero]
      exact fun same => no_nul' (same ▸ List.mem_cons_self)
  | cons a x ih =>
    have nonzero : a ≠ 0 := fun same => no_nul (same ▸ List.mem_cons_self)
    cases y with
    | nil =>
      refine ⟨_, if_pos (.inr nonzero), iff_of_false ?_ (by simp)⟩
      rwa [toNat_sub_eq_zero]
    | cons b y =>
      by_cases same : a = b
      · subst same
        obtain ⟨order, result, iff⟩ := ih (fun inside => no_nul (List.mem_cons_of_mem a inside))
          fun inside => no_nul' (List.mem_cons_of_mem a inside)
        refine ⟨order, ?_, iff.trans (by simp)⟩
        rw [← result]
        exact if_neg (by simp [nonzero])
      · refine ⟨_, if_pos (.inr same), iff_of_false ?_ (by simp [same])⟩
        rwa [toNat_sub_eq_zero]

/-- `strcmp` of two strings with nothing behind them. -/
theorem strcmp_strings {x y : List UInt8} (no_nul : 0 ∉ x) (no_nul' : 0 ∉ y) :
    ∃ order, strcmp (cstr x) (cstr y) = .ok order ∧ (order = 0 ↔ x = y) := by
  have general := strcmp_cstr no_nul no_nul' [] []
  rwa [List.append_nil, List.append_nil] at general

/-! ## `strlen`, `append_str`, `myHex2Int` -/

/-- `strlen`. -/
def strlen : List UInt8 → Outcome ℕ
  | [] => .error .outOfBounds
  | c :: rest =>
    if c = 0 then .ok 0
    else do
      let n ← strlen rest
      return n + 1

/-- The string behind a pointer, as `%s` prints it. -/
def readStr : List UInt8 → Outcome (List UInt8)
  | [] => .error .outOfBounds
  | c :: rest =>
    if c = 0 then .ok []
    else do
      let s ← readStr rest
      return c :: s

/-- `append_str` to an array. -/
def appendStr (s : List UInt8) (ch : UInt8) : Outcome (List UInt8) := do
  let i ← strlen s
  if i + 1 < s.length then return (s.set i ch).set (i + 1) 0 else .error .outOfBounds

/-- What `myHex2Int` adds for a character. -/
def hexDigit (c : UInt8) : ℤ :=
  if 0x60 < c ∧ c < 0x67 then c.toNat - 0x57
  else if 0x40 < c ∧ c < 0x47 then c.toNat - 0x37
  else c.toNat - 0x30

/-- The loop of `myHex2Int`. -/
def myHex2IntLoop : List UInt8 → ℤ → Outcome ℤ
  | [], _ => .error .outOfBounds
  | c :: rest, res =>
    if c = 0 then .ok res else myHex2IntLoop rest (toInt32 (res * 16 + hexDigit c))

/-- `myHex2Int`. -/
def myHex2Int (str : List UInt8) : Outcome ℤ := myHex2IntLoop str 0

theorem strlen_cstr {s : List UInt8} (no_nul : 0 ∉ s) (u : List UInt8) :
    strlen (cstr s ++ u) = .ok s.length := by
  induction s with
  | nil => rfl
  | cons c s ih =>
    have nonzero : c ≠ 0 := fun same => no_nul (same ▸ List.mem_cons_self)
    have rest := ih fun inside => no_nul (List.mem_cons_of_mem c inside)
    change strlen (c :: (cstr s ++ u)) = _
    rw [strlen, if_neg nonzero, rest]
    rfl

theorem readStr_cstr {s : List UInt8} (no_nul : 0 ∉ s) (u : List UInt8) :
    readStr (cstr s ++ u) = .ok s := by
  induction s with
  | nil => rfl
  | cons c s ih =>
    have nonzero : c ≠ 0 := fun same => no_nul (same ▸ List.mem_cons_self)
    have rest := ih fun inside => no_nul (List.mem_cons_of_mem c inside)
    change readStr (c :: (cstr s ++ u)) = _
    rw [readStr, if_neg nonzero, rest]
    rfl

/-- `append_str` overwrites the NUL and the byte behind it. -/
theorem appendStr_cstr {s : List UInt8} (no_nul : 0 ∉ s) (ch old : UInt8) (u : List UInt8) :
    appendStr (cstr s ++ old :: u) ch = .ok (cstr (s ++ [ch]) ++ u) := by
  have room : s.length + 1 < (cstr s ++ old :: u).length := by
    simp [cstr]
  rw [appendStr, strlen_cstr no_nul, outcome_bind_ok, if_pos room]
  simp [cstr]

/-- Where the NUL is the last byte there is no room. -/
theorem appendStr_full {s : List UInt8} (no_nul : 0 ∉ s) (ch : UInt8) :
    appendStr (cstr s) ch = .error .outOfBounds := by
  have read := strlen_cstr no_nul (u := [])
  rw [List.append_nil] at read
  rw [appendStr, read, outcome_bind_ok, if_neg (by simp [cstr])]

/-! ## Hexadecimal numbers -/

/-- A hexadecimal digit, of either case. -/
def IsHexDigit (c : UInt8) : Prop :=
  0x30 ≤ c ∧ c ≤ 0x39 ∨ 0x41 ≤ c ∧ c ≤ 0x46 ∨ 0x61 ≤ c ∧ c ≤ 0x66

instance (c : UInt8) : Decidable (IsHexDigit c) :=
  inferInstanceAs (Decidable (_ ∨ _))

/-- The value of a hexadecimal digit. -/
def digitValue (c : UInt8) : ℕ :=
  if c ≤ 0x39 then c.toNat - 0x30 else if c ≤ 0x46 then c.toNat - 0x37 else c.toNat - 0x57

/-- The value of a hexadecimal number. -/
def hexValue (s : List UInt8) : ℕ := s.foldl (fun value c => value * 16 + digitValue c) 0

/-- `myHex2Int` knows the digits. -/
theorem hexDigit_eq {c : UInt8} (digit : IsHexDigit c) : hexDigit c = digitValue c := by
  simp only [IsHexDigit, hexDigit, digitValue, UInt8.lt_iff_toNat_lt, UInt8.le_iff_toNat_le,
    UInt8.reduceToNat] at digit ⊢
  split_ifs <;> omega

theorem IsHexDigit.ne_zero {c : UInt8} (digit : IsHexDigit c) : c ≠ 0 := by
  rintro rfl
  revert digit
  decide

/-- The loop of `myHex2Int`: its number is the value so far, as an `int`. -/
theorem myHex2IntLoop_eq {s : List UInt8} (digits : ∀ c ∈ s, IsHexDigit c) (u : List UInt8)
    (value : ℕ) : myHex2IntLoop (cstr s ++ u) (toInt32 value) =
      .ok (toInt32 (s.foldl (fun value c => value * 16 + digitValue c) value : ℕ)) := by
  induction s generalizing value with
  | nil => rfl
  | cons c s ih =>
    have digit := digits c List.mem_cons_self
    change myHex2IntLoop (c :: (cstr s ++ u)) _ = _
    have next : toInt32 (toInt32 value * 16 + hexDigit c) =
        toInt32 ((value * 16 + digitValue c : ℕ) : ℤ) := by
      apply toInt32_congr
      have wrapped := toInt32_emod value
      rw [hexDigit_eq digit]
      push_cast
      omega
    rw [myHex2IntLoop, if_neg digit.ne_zero, next, List.foldl_cons]
    exact ih (fun c' inside => digits c' (List.mem_cons_of_mem c inside)) _

/-- **`myHex2Int` reads hexadecimal numbers**, modulo 2^32. -/
theorem myHex2Int_eq {s : List UInt8} (digits : ∀ c ∈ s, IsHexDigit c) (u : List UInt8) :
    myHex2Int (cstr s ++ u) = .ok (toInt32 (hexValue s)) :=
  myHex2IntLoop_eq digits u 0

/-! ## `strtok` -/

/-- The static variables of `strtok`. -/
structure Strtok where
  tempPtr : Option (List UInt8)
  flag : Bool
deriving DecidableEq, Repr

/-- `strtok` has nothing to go on with. -/
def Strtok.idle : Strtok := ⟨none, false⟩

/-- The loops of `strtok`: the bytes up to the first delimiter and those behind it, or all
bytes, when no delimiter is in the string. -/
def strtokScan (delimiter : List UInt8) : List UInt8 → List UInt8 × Option (List UInt8)
  | [] => ([], none)
  | c :: rest =>
    if c ∈ delimiter then ([], some rest)
    else (c :: (strtokScan delimiter rest).1, (strtokScan delimiter rest).2)

/-- `strtok`. -/
def strtok (str : Option (List UInt8)) (delimiter : Option (List UInt8)) (st : Strtok) :
    Outcome (Option (List UInt8) × Strtok) :=
  match delimiter with
  | none => .ok (none, .idle)
  | some delimiter =>
    if st.flag then .ok (none, .idle)
    else
      match str.or st.tempPtr with
      | none => .error .nullPointer
      | some tempPtr =>
        -- without delimiters the inner loop does not run
        if delimiter = [] then .ok (none, .idle)
        else
          match strtokScan delimiter tempPtr with
          | (token, none) => .ok (some token, ⟨some tempPtr, true⟩)
          | (token, some rest) => .ok (some token, ⟨some rest, false⟩)

/-! ## `spilt_strings` -/

/-- The loop of `spilt_strings` with the strings counted so far, the one stored last, and
the number of places behind it in the array. -/
def spiltLoop (deli : List UInt8) :
    ℕ → List (List UInt8) → Option (List UInt8) → Strtok → Outcome (List (List UInt8) × Strtok)
  | _, counted, none, st => .ok (counted, st)
  | 0, _, some _, _ => .error .outOfBounds
  | room + 1, counted, some token, st => do
    let (next, st) ← strtok none (some deli) st
    spiltLoop deli room (counted ++ [token]) next st

/-- `spilt_strings` into an array of `room + 1` places: the strings in front of the NULL
that ends them. -/
def spiltStrings (room : ℕ) (str deli : List UInt8) (st : Strtok) :
    Outcome (List (List UInt8) × Strtok) := do
  let (first, st) ← strtok (some str) (some deli) st
  spiltLoop deli room [] first st

/-- The scan for one delimiter finds the first piece. -/
theorem strtokScan_splitOn (c : UInt8) (s : List UInt8) :
    s.splitOn c = (strtokScan [c] s).1 ::
      ((strtokScan [c] s).2.map (List.splitOn c)).getD [] := by
  induction s with
  | nil => rfl
  | cons b s ih =>
    rw [List.splitOn_cons_eq_if_modifyHead, strtokScan]
    by_cases cut : b = c
    · subst cut
      simp
    · simp [cut, ih]

/-- The loop returns the pieces that are left. -/
theorem spiltLoop_eq (c : UInt8) (s : List UInt8) {room : ℕ} {counted : List (List UInt8)}
    (fits : (s.splitOn c).length ≤ room) {st : Strtok} (ready : st.flag = false)
    (str : Option (List UInt8)) (here : str.or st.tempPtr = some s) :
    (strtok str (some [c]) st >>= fun r => spiltLoop [c] room counted r.1 r.2) =
      .ok (counted ++ s.splitOn c, .idle) := by
  induction room generalizing s counted st str with
  | zero =>
    have none_left := List.length_eq_zero_iff.mp (Nat.le_zero.mp fits)
    exact absurd none_left (List.splitOn_ne_nil c s)
  | succ room ih =>
    have pieces := strtokScan_splitOn c s
    rw [strtok]
    simp only [ready, Bool.false_eq_true, if_false, here, List.cons_ne_self]
    match scan : strtokScan [c] s with
    | (token, none) =>
      rw [scan] at pieces
      rw [pieces]
      cases room <;> rfl
    | (token, some rest) =>
      rw [scan] at pieces
      have shorter : (rest.splitOn c).length ≤ room := by
        rw [pieces] at fits
        simpa using fits
      have tail := @ih rest (counted ++ [token]) shorter ⟨some rest, false⟩ rfl none rfl
      rw [pieces]
      simpa [spiltLoop] using tail

/-- **`spilt_strings` splits** at every occurrence of its delimiter, and leaves `strtok`
as it was. -/
theorem spiltStrings_eq {c : UInt8} {s : List UInt8} {room : ℕ} {st : Strtok}
    (ready : st.flag = false) (fits : (s.splitOn c).length ≤ room) :
    spiltStrings room s [c] st = .ok (s.splitOn c, .idle) :=
  spiltLoop_eq c s fits ready (some s) rfl

/-- The loop runs out of places when more pieces are left. -/
theorem spiltLoop_full (c : UInt8) (s : List UInt8) {room : ℕ} {counted : List (List UInt8)}
    (full : room < (s.splitOn c).length) {st : Strtok} (ready : st.flag = false)
    (str : Option (List UInt8)) (here : str.or st.tempPtr = some s) :
    (strtok str (some [c]) st >>= fun r => spiltLoop [c] room counted r.1 r.2) =
      .error .outOfBounds := by
  induction room generalizing s counted st str with
  | zero =>
    rw [strtok]
    simp only [ready, Bool.false_eq_true, if_false, here, List.cons_ne_self]
    match strtokScan [c] s with
    | (token, none) => rfl
    | (token, some rest) => rfl
  | succ room ih =>
    have pieces := strtokScan_splitOn c s
    rw [strtok]
    simp only [ready, Bool.false_eq_true, if_false, here, List.cons_ne_self]
    match scan : strtokScan [c] s with
    | (token, none) =>
      rw [scan] at pieces
      rw [pieces] at full
      simp at full
    | (token, some rest) =>
      rw [scan] at pieces
      have more : room < (rest.splitOn c).length := by
        rw [pieces] at full
        simpa using full
      have tail := @ih rest (counted ++ [token]) more ⟨some rest, false⟩ rfl none rfl
      simpa [spiltLoop] using tail

theorem spiltStrings_full {c : UInt8} {s : List UInt8} {room : ℕ} {st : Strtok}
    (ready : st.flag = false) (full : room < (s.splitOn c).length) :
    spiltStrings room s [c] st = .error .outOfBounds :=
  spiltLoop_full c s full ready (some s) rfl

/-! ## Pieces -/

section Pieces

variable {c : UInt8}

/-- A string has no delimiter, or a first one with a string behind it. -/
theorem splitOn_induct {motive : List UInt8 → Prop} (whole : ∀ s, c ∉ s → motive s)
    (cut : ∀ a s, c ∉ a → motive s → motive (a ++ c :: s)) (s : List UInt8) : motive s := by
  induction length : s.length using Nat.strongRecOn generalizing s with
  | ind n ih =>
    by_cases inside : c ∈ s
    · obtain ⟨a, b, rfl, first⟩ := List.eq_append_cons_of_mem inside
      refine cut a b first (ih b.length ?_ b rfl)
      rw [← length, List.length_append, List.length_cons]
      omega
    · exact whole s inside

theorem length_pieces (c : UInt8) (s : List UInt8) : (s.splitOn c).length = s.count c + 1 := by
  induction s using splitOn_induct (c := c) with
  | whole s none => rw [List.splitOn_eq_singleton none, List.count_eq_zero.mpr none]; rfl
  | cut a s first ih =>
    rw [List.splitOn_append_cons_self_of_not_mem first, List.length_cons, ih, List.count_append,
      List.count_eq_zero.mpr first, List.count_cons_self, Nat.zero_add]

theorem not_mem_pieces (c : UInt8) (s : List UInt8) : ∀ piece ∈ s.splitOn c, c ∉ piece := by
  induction s using splitOn_induct (c := c) with
  | whole s none =>
    rw [List.splitOn_eq_singleton none, List.forall_mem_singleton]
    exact none
  | cut a s first ih =>
    rw [List.splitOn_append_cons_self_of_not_mem first, List.forall_mem_cons]
    exact ⟨first, ih⟩

end Pieces

end BareMetal.Strings
