import BareMetal.Cpio.Format

/-!
# The array of `read_header`

`read_header` appends the characters of a field to the string in its array, which holds
anything at first. It clears `a[1]`, not `a[0]`: a byte that was left in `a[0]` stays in front
of the field, and the string has one character more than there is room for.

## Main results

* `readsField_iff` — the field is read exactly when `a[0]` is 0 before
* `readHeader_stale` — what happens when it is not
-/

namespace BareMetal.Cpio

open CS Strings

/-- With `a` in its array `read_header` stores only there and returns the value of the field,
whatever lies behind the array and behind the field. -/
structure ReadsField (a field : List UInt8) : Prop where
  inside : ∀ behind rest, ∃ a', a'.length = a.length ∧
    readHeaderLoop (field ++ rest) field.length ((a ++ behind).set 1 0) = .ok (a' ++ behind)
  value : ∀ behind rest,
    readHeader (a ++ behind) (field ++ rest) field.length = .ok (toInt32 (hexValue field))

variable {a field behind rest : List UInt8} {c b : UInt8}

theorem no_nul_of_digits (digits : ∀ c ∈ field, IsHexDigit c) : 0 ∉ field :=
  fun inside => (digits 0 inside).ne_zero rfl

/-- From an empty string on the loop stores the field and a NUL, and these fill the array. -/
theorem readHeaderLoop_clear (no_nul : 0 ∉ field) (length : a.length + 1 = field.length) :
    readHeaderLoop (field ++ rest) field.length ((0 :: b :: a ++ behind).set 1 0) =
      .ok (cstr field ++ behind) := by
  have no_nul' : 0 ∉ [] ++ field := no_nul
  have room : field.length ≤ (0 :: (a ++ behind)).length := by
    simp only [List.length_cons, List.length_append]
    omega
  have read := readHeaderLoop_eq no_nul' rest room
  have start : (0 :: b :: a ++ behind).set 1 0 = cstr [] ++ 0 :: (a ++ behind) := rfl
  rw [start, read, List.nil_append, ← length, List.drop_succ_cons, List.drop_left]

/-- With a byte in front they go on into what is behind the array. -/
theorem readHeaderLoop_stale (stale : c ≠ 0) (no_nul : 0 ∉ field)
    (length : a.length + 1 = field.length) {next : UInt8} :
    readHeaderLoop (field ++ rest) field.length ((c :: b :: a ++ next :: behind).set 1 0) =
      .ok (cstr (c :: field) ++ behind) := by
  have no_nul' : 0 ∉ [c] ++ field := by
    rw [List.singleton_append, List.mem_cons, not_or]
    exact ⟨stale.symm, no_nul⟩
  have room : field.length ≤ (a ++ next :: behind).length := by
    simp only [List.length_cons, List.length_append]
    omega
  have read := readHeaderLoop_eq no_nul' rest room
  have start : (c :: b :: a ++ next :: behind).set 1 0 = cstr [c] ++ (a ++ next :: behind) := rfl
  rw [start, read, ← length, ← List.drop_drop, List.drop_left]
  rfl

/-- The byte in front is taken for a digit of the number. -/
theorem readHeader_stale (digit : IsHexDigit c) (digits : ∀ c ∈ field, IsHexDigit c)
    (length : a.length + 1 = field.length) {next : UInt8} :
    readHeader (c :: b :: a ++ next :: behind) (field ++ rest) field.length =
      .ok (toInt32 (hexValue (c :: field))) := by
  rw [readHeader, readHeaderLoop_stale digit.ne_zero (no_nul_of_digits digits) length,
    outcome_bind_ok]
  exact myHex2Int_eq (List.forall_mem_cons.mpr ⟨digit, digits⟩) behind

/-- Where the string and the field do not fit, the loop leaves the array. -/
theorem readHeaderLoop_full {done : List UInt8} (no_nul : 0 ∉ done ++ field)
    (short : a.length < field.length) :
    readHeaderLoop (field ++ rest) field.length (cstr done ++ a) = .error .outOfBounds := by
  induction field generalizing done a with
  | nil => simp at short
  | cons c field ih =>
    have split : done ++ c :: field = done ++ [c] ++ field := by simp
    rw [split] at no_nul
    have no_nul' : 0 ∉ done := fun inside => no_nul (by simp [inside])
    change (appendStr _ c >>= _) = _
    cases a with
    | nil =>
      -- the string fills the array, so that the NUL of the next one lies behind it
      rw [List.append_nil, appendStr_full no_nul', outcome_bind_error]
    | cons old a =>
      rw [appendStr_cstr no_nul', outcome_bind_ok]
      exact ih no_nul (Nat.lt_of_succ_lt_succ short)

/-- So an array of nine bytes is too short for a size when something is left in `a[0]`. -/
theorem readHeader_full {value : ℕ} (length : a.length = 9) (stale : a.head? ≠ some 0)
    (isField : IsField field value) : readHeader a (field ++ rest) 8 = .error .outOfBounds := by
  match a, length with
  | c :: b :: a, length =>
    replace length : a.length = 7 := Nat.succ_inj.mp (Nat.succ_inj.mp length)
    have nonzero : c ≠ 0 := fun zero => stale (congrArg some zero)
    have no_nul : 0 ∉ [c] ++ field := by
      rw [List.singleton_append, List.mem_cons, not_or]
      exact ⟨nonzero.symm, no_nul_of_digits isField.digits⟩
    have start : (c :: b :: a).set 1 0 = cstr [c] ++ a := rfl
    have short : a.length < field.length := by
      rw [isField.length, length]
      decide
    have full : readHeaderLoop (field ++ rest) field.length _ = _ :=
      readHeaderLoop_full no_nul short
    rw [isField.length] at full
    rw [readHeader, start, full, outcome_bind_error]

/-- The sizes of a record are read only if the string in the array is empty both times. -/
theorem Record.isClear_of_readSizes {a : ℕ → List UInt8} {round header : ℕ} {mem : List UInt8}
    {r : Record} {sizes : ℤ × ℤ} (length : ∀ k, (a k).length = 9)
    (holds : r.encode <+: mem.drop header) (returns : readSizes a round mem header = .ok sizes) :
    IsClear (a (2 * round)) ∧ IsClear (a (2 * round + 1)) := by
  obtain ⟨rest, namesize⟩ := Record.bytesAt_namesize holds
  obtain ⟨rest', filesize⟩ := Record.bytesAt_filesize holds
  rw [readSizes, namesize, outcome_bind_ok] at returns
  obtain ⟨size, first, returns⟩ := outcome_bind_eq_ok.mp returns
  rw [filesize, outcome_bind_ok] at returns
  obtain ⟨size', second, -⟩ := outcome_bind_eq_ok.mp returns
  -- neither call has left its array
  refine ⟨⟨length _, ?_⟩, length _, ?_⟩
  · by_contra stale
    rw [readHeader_full (length _) stale r.isNamesize] at first
    contradiction
  · by_contra stale
    rw [readHeader_full (length _) stale r.isFilesize] at second
    contradiction

/-- A NUL is stored behind the array when something is left in `a[0]`. -/
theorem not_readsField (stale : c ≠ 0) (no_nul : 0 ∉ field)
    (length : a.length + 1 = field.length) : ¬ ReadsField (c :: b :: a) field := by
  intro reads
  obtain ⟨a', -, stays⟩ := reads.inside [1] []
  rw [readHeaderLoop_stale stale no_nul length, List.append_nil] at stays
  have last := congrArg List.getLast? (Except.ok.inj stays)
  rw [cstr, List.getLast?_concat, List.getLast?_concat] at last
  exact absurd last (by decide)

/-- **`read_header` reads its field exactly when `a[0]` is 0 before**: only then does it store in
its array alone and return the value of the hexadecimal digits, as an `int`. -/
theorem readsField_iff (digits : ∀ c ∈ field, IsHexDigit c) (nonempty : field ≠ [])
    (length : a.length = field.length + 1) : ReadsField a field ↔ a.head? = some 0 := by
  have no_nul := no_nul_of_digits digits
  have some_digit := List.length_pos_iff.mpr nonempty
  obtain ⟨c, b, a, rfl⟩ : ∃ c b a', a = c :: b :: a' := by
    match a with
    | c :: b :: a => exact ⟨c, b, a, rfl⟩
    | [] | [_] =>
      simp only [List.length_cons, List.length_nil] at length
      omega
  replace length : a.length + 1 = field.length := Nat.succ_inj.mp length
  rw [List.head?_cons, Option.some_inj]
  constructor
  · intro reads
    by_contra stale
    exact not_readsField stale no_nul length reads
  · rintro rfl
    refine ⟨fun behind rest => ⟨cstr field, ?_, readHeaderLoop_clear no_nul length⟩,
      fun behind rest => ?_⟩
    · simp [cstr, ← length]
    · rw [readHeader, readHeaderLoop_clear no_nul length, outcome_bind_ok]
      exact myHex2Int_eq digits behind

/-- An array of zeros. -/
theorem readsField_cleared : ReadsField (cleared 0) (hexField 5) :=
  (readsField_iff (isField_hexField (by decide)).digits (by decide) rfl).mpr rfl

/-- Bytes of an earlier call in the array. -/
def leftOver : List UInt8 := 0x31 :: List.replicate 8 0x55

/-- With the character `1` in `a[0]` the field `00000002` clears the byte behind the array, and
the field `2` is read as 18. -/
theorem readsField_fails : ¬ ReadsField leftOver (hexField 2) ∧
    readHeaderLoop (hexField 2) 8 ((leftOver ++ [0x55]).set 1 0) =
      .ok (0x31 :: hexField 2 ++ [0]) ∧
    readHeader ([0x31, 0x55] ++ [0x55]) [0x32] 1 = .ok 18 :=
  ⟨not_readsField (by decide) (by decide) rfl, by decide, by decide⟩

end BareMetal.Cpio
