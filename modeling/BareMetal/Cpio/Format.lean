import BareMetal.Cpio.Model
import Mathlib.Tactic.Common

/-!
# The newc layout

An archive is a row of records: a header of 110 characters, in which the two sizes are
hexadecimal numbers of 8 digits, then the name with its NUL, padded together with the
header to a multiple of 4, then the data, padded as well. The walks read
nothing else of a header, so a record may hold anything there.

`Walkable mem header entries` says that from the offset `header` on `mem` holds the
records `entries` and behind them a trailer. It is the invariant of the walks.

## Main results

* `walkable_archive` — an archive is walkable from its first byte on
* `Record.readSizes_eq`, `Record.compareName_eq` — what the code finds in a record
* `newc` — the record of a name and data
-/

namespace BareMetal.Cpio

open CS Strings

/-- The number of bytes that pad `n` bytes to a multiple of 4. -/
def padding (n : ℕ) : ℕ := (4 - n % 4) % 4

/-- The array of `read_header` for 8 characters holds the empty string. -/
structure IsClear (a : List UInt8) : Prop where
  length : a.length = 9
  first : a.head? = some 0

/-- It is zero at every call. -/
abbrev cleared : ℕ → List UInt8 := fun _ => List.replicate 9 0

theorem isClear_cleared (k : ℕ) : IsClear (cleared k) := ⟨rfl, rfl⟩

/-- It holds the empty string at all calls of some rounds of a walk. -/
def ClearFrom (a : ℕ → List UInt8) (round rounds : ℕ) : Prop :=
  ∀ k, 2 * round ≤ k → k < 2 * (round + rounds) → IsClear (a k)

theorem ClearFrom.next {a : ℕ → List UInt8} {round rounds : ℕ}
    (clear : ClearFrom a round (rounds + 1)) : IsClear (a (2 * round)) ∧
      IsClear (a (2 * round + 1)) ∧ ClearFrom a (round + 1) rounds :=
  ⟨clear _ (by omega) (by omega), clear _ (by omega) (by omega),
    fun k low high => clear k (by omega) (by omega)⟩

theorem ClearFrom.cons {a : ℕ → List UInt8} {round rounds : ℕ}
    (clear : ClearFrom a (round + 1) rounds) (first : IsClear (a (2 * round)))
    (second : IsClear (a (2 * round + 1))) : ClearFrom a round (rounds + 1) := by
  intro k low high
  rcases (show k = 2 * round ∨ k = 2 * round + 1 ∨ 2 * (round + 1) ≤ k by omega) with
    rfl | rfl | low'
  · exact first
  · exact second
  · exact clear k low' (by omega)

/-- The field `field` holds the number `value` in 8 hexadecimal digits. -/
structure IsField (field : List UInt8) (value : ℕ) : Prop where
  digits : ∀ c ∈ field, IsHexDigit c
  length : field.length = 8
  value : hexValue field = value

/-- A record of the archive. -/
structure Record where
  name : List UInt8
  data : List UInt8
  /-- `c_magic` to `c_mtime` -/
  front : List UInt8
  /-- `c_filesize` -/
  filesize : List UInt8
  /-- `c_devmajor` to `c_rdevminor` -/
  middle : List UInt8
  /-- `c_namesize` -/
  namesize : List UInt8
  /-- `c_check` -/
  check : List UInt8
  namePad : List UInt8
  dataPad : List UInt8
  name_ne_nil : name ≠ []
  no_nul : 0 ∉ name
  front_length : front.length = 54
  isFilesize : IsField filesize data.length
  middle_length : middle.length = 32
  isNamesize : IsField namesize (name.length + 1)
  check_length : check.length = 8
  namePad_length : namePad.length = padding (110 + (name.length + 1))
  dataPad_length : dataPad.length = padding data.length
  name_small : 110 + (name.length + 1) + namePad.length < 2 ^ 31
  data_small : data.length + dataPad.length < 2 ^ 31

namespace Record

variable (r : Record)

/-- The bytes of a record. -/
def encode : List UInt8 :=
  r.front ++ r.filesize ++ r.middle ++ r.namesize ++ r.check ++ cstr r.name ++ r.namePad ++
    r.data ++ r.dataPad

/-- The place of the data behind the header. -/
def dataOffset : ℕ := 110 + (r.name.length + 1) + r.namePad.length

/-- The padded length of the data. -/
def dataSize : ℕ := r.data.length + r.dataPad.length

/-- The length of the record. -/
def size : ℕ := r.dataOffset + r.dataSize

theorem length_encode : r.encode.length = r.size := by
  simp only [encode, cstr, List.length_append, List.length_cons, List.length_nil, r.front_length,
    r.isFilesize.length, r.middle_length, r.isNamesize.length, r.check_length, size, dataOffset,
    dataSize]
  omega

/-- Behind the first bytes of a record. -/
theorem drop_encode (before : List UInt8) {after : List UInt8} (splits : r.encode = before ++ after)
    {n : ℕ}
    (length : before.length = n) : r.encode.drop n = after := by
  rw [splits, ← length, List.drop_left]

theorem drop_filesize : r.encode.drop 54 = r.filesize ++ (r.middle ++ r.namesize ++ r.check ++
    cstr r.name ++ r.namePad ++ r.data ++ r.dataPad) := by
  apply r.drop_encode r.front _ r.front_length
  simp [encode]

theorem drop_namesize : r.encode.drop 94 =
    r.namesize ++ (r.check ++ cstr r.name ++ r.namePad ++ r.data ++ r.dataPad) := by
  apply r.drop_encode (r.front ++ r.filesize ++ r.middle)
  · simp [encode]
  · simp [r.front_length, r.isFilesize.length, r.middle_length]

theorem drop_name : r.encode.drop 110 = cstr r.name ++ (r.namePad ++ r.data ++ r.dataPad) := by
  apply r.drop_encode (r.front ++ r.filesize ++ r.middle ++ r.namesize ++ r.check)
  · simp [encode]
  · simp [r.front_length, r.isFilesize.length, r.middle_length, r.isNamesize.length,
      r.check_length]

theorem drop_data : r.encode.drop r.dataOffset = r.data ++ r.dataPad := by
  apply r.drop_encode (r.front ++ r.filesize ++ r.middle ++ r.namesize ++ r.check ++
    cstr r.name ++ r.namePad)
  · simp [encode]
  · simp only [cstr, List.length_append, List.length_cons, List.length_nil, r.front_length,
      r.isFilesize.length, r.middle_length, r.isNamesize.length, r.check_length, dataOffset]

end Record

/-! ## Reading a record -/

section Read

variable {mem : List UInt8} {header : ℕ} {r : Record}

theorem Record.header_le_size (r : Record) : 110 ≤ r.size := by
  rw [Record.size, Record.dataOffset]
  omega

/-- The bytes of a record at an offset. -/
theorem bytesAt_record (holds : r.encode <+: mem.drop header) (n : ℕ) (inside : n ≤ r.size) :
    ∃ rest, bytesAt mem (header + n) = .ok (r.encode.drop n ++ rest) := by
  obtain ⟨rest, splits⟩ := holds
  refine ⟨rest, ?_⟩
  rw [bytesAt, if_pos (by omega)]
  have address : (header + n : ℤ).toNat = header + n := by omega
  rw [address, ← List.drop_drop, ← splits, List.drop_append_of_le_length]
  rwa [r.length_encode]

/-- The loop of `read_header` appends the characters that it reads. -/
theorem readHeaderLoop_eq {done field : List UInt8} (no_nul : 0 ∉ done ++ field)
    (u : List UInt8) {a : List UInt8} (room : field.length ≤ a.length) :
    readHeaderLoop (field ++ u) field.length (cstr done ++ a) =
      .ok (cstr (done ++ field) ++ a.drop field.length) := by
  induction field generalizing done a with
  | nil => simp [readHeaderLoop]
  | cons c field ih =>
    obtain ⟨old, rest, rfl⟩ : ∃ old rest, a = old :: rest := by
      cases a with
      | nil => simp at room
      | cons old rest => exact ⟨old, rest, rfl⟩
    have split : done ++ c :: field = done ++ [c] ++ field := by simp
    rw [split] at no_nul
    have no_nul' : 0 ∉ done := fun inside => no_nul (by simp [inside])
    have appended := appendStr_cstr no_nul' c old rest
    have next := ih no_nul (Nat.le_of_succ_le_succ room)
    change (appendStr _ c >>= _) = _
    rw [appended, split]
    exact next

theorem IsClear.exists_eq {a : List UInt8} (clear : IsClear a) :
    ∃ b a', a = 0 :: b :: a' ∧ a'.length = 7 := by
  obtain ⟨length, head⟩ := clear
  match a, length with
  | c :: b :: a, length =>
    obtain rfl := Option.some_inj.mp head
    exact ⟨b, a, rfl, Nat.succ_inj.mp (Nat.succ_inj.mp length)⟩

/-- `read_header` reads a field, when its array is empty before. -/
theorem readHeader_eq {a field : List UInt8} {value : ℕ} (clear : IsClear a)
    (isField : IsField field value) (small : value < 2 ^ 31) (u : List UInt8) :
    readHeader a (field ++ u) 8 = .ok (value : ℤ) := by
  obtain ⟨b, a, rfl, length⟩ := clear.exists_eq
  have no_nul : 0 ∉ [] ++ field := fun inside => (isField.digits 0 inside).ne_zero rfl
  have read := readHeaderLoop_eq no_nul u (a := 0 :: a) (by simp [isField.length, length])
  have start : (0 :: b :: a).set 1 0 = cstr [] ++ 0 :: a := rfl
  rw [isField.length] at read
  rw [readHeader, start, read, outcome_bind_ok, List.nil_append, myHex2Int_eq isField.digits,
    isField.value, toInt32_of_lt small]

theorem Record.bytesAt_namesize (holds : r.encode <+: mem.drop header) :
    ∃ rest, bytesAt mem (header + 94) = .ok (r.namesize ++ rest) := by
  have large := r.header_le_size
  obtain ⟨rest, bytes⟩ := bytesAt_record holds 94 (by omega)
  rw [r.drop_namesize, List.append_assoc] at bytes
  exact ⟨_, bytes⟩

theorem Record.bytesAt_filesize (holds : r.encode <+: mem.drop header) :
    ∃ rest, bytesAt mem (header + 54) = .ok (r.filesize ++ rest) := by
  have large := r.header_le_size
  obtain ⟨rest, bytes⟩ := bytesAt_record holds 54 (by omega)
  rw [r.drop_filesize, List.append_assoc] at bytes
  exact ⟨_, bytes⟩

theorem Record.bytesAt_name (holds : r.encode <+: mem.drop header) :
    ∃ rest, bytesAt mem (header + 110) = .ok (cstr r.name ++ rest) := by
  obtain ⟨rest, bytes⟩ := bytesAt_record holds 110 r.header_le_size
  rw [r.drop_name, List.append_assoc] at bytes
  exact ⟨_, bytes⟩

/-- **`read_header` reads the sizes** of a record. -/
theorem Record.readSizes_eq {a : ℕ → List UInt8} {round : ℕ} (clear : IsClear (a (2 * round)))
    (clear' : IsClear (a (2 * round + 1))) (holds : r.encode <+: mem.drop header) :
    readSizes a round mem header =
      .ok (((r.name.length + 1 : ℕ) : ℤ), (r.data.length : ℤ)) := by
  have name_small := r.name_small
  have data_small := r.data_small
  obtain ⟨rest, namesize⟩ := Record.bytesAt_namesize holds
  obtain ⟨rest', filesize⟩ := Record.bytesAt_filesize holds
  rw [readSizes, namesize, outcome_bind_ok, readHeader_eq clear r.isNamesize (by omega),
    outcome_bind_ok, filesize, outcome_bind_ok, readHeader_eq clear' r.isFilesize (by omega)]
  rfl

/-- **The name of a record is found** behind its header. -/
theorem Record.compareName_eq (holds : r.encode <+: mem.drop header) {str : List UInt8}
    (no_nul : 0 ∉ str) : ∃ order, compareName mem header str = .ok order ∧
      (order = 0 ↔ r.name = str) := by
  obtain ⟨rest, name⟩ := Record.bytesAt_name holds
  obtain ⟨order, result, iff⟩ := strcmp_cstr r.no_nul no_nul rest []
  rw [List.append_nil] at result
  exact ⟨order, by rw [compareName, name, outcome_bind_ok, result], iff⟩

theorem Record.readStr_eq (holds : r.encode <+: mem.drop header) :
    (bytesAt mem (header + 110) >>= readStr) = .ok r.name := by
  obtain ⟨rest, name⟩ := Record.bytesAt_name holds
  rw [name, outcome_bind_ok, readStr_cstr r.no_nul]

theorem Record.copyProgram_eq (data rest : List UInt8) :
    copyProgram data.length (data ++ rest) = .ok data := by
  induction data with
  | nil => rfl
  | cons byte data ih =>
    change (copyProgram data.length (data ++ rest) >>= _) = _
    rw [ih]
    rfl

/-- The data are found, with their padding. -/
theorem Record.copyData_eq (holds : r.encode <+: mem.drop header) :
    (bytesAt mem (header + r.dataOffset) >>= copyProgram r.dataSize) =
      .ok (r.data ++ r.dataPad) := by
  obtain ⟨rest, data⟩ := bytesAt_record holds r.dataOffset (by
    rw [Record.size]
    omega)
  have copied := copyProgram_eq (r.data ++ r.dataPad) rest
  rw [List.length_append] at copied
  rw [data, outcome_bind_ok, r.drop_data]
  exact copied

/-- Rounding up to a multiple of 4 adds the padding. -/
theorem padName_natCast {n : ℕ} (small : 110 + n + padding (110 + n) < 2 ^ 31) :
    padName n = n + padding (110 + n) := by
  have plain : toInt32 ((n : ℤ) + 110) = n + 110 := toInt32_of_range (by omega) (by omega)
  have odd : ((n : ℤ) + 110).tmod 4 = ((110 + n) % 4 : ℕ) := by
    rw [Int.tmod_eq_emod_of_nonneg (by omega)]
    omega
  rw [padding] at small ⊢
  simp only [padName, plain, odd]
  split_ifs with round
  · apply Eq.trans (toInt32_of_range _ _) <;> omega
  · omega

theorem padFile_natCast {n : ℕ} (small : n + padding n < 2 ^ 31) :
    padFile n = n + padding n := by
  have odd : (n : ℤ).tmod 4 = (n % 4 : ℕ) := by
    rw [Int.tmod_eq_emod_of_nonneg (by omega)]
    omega
  rw [padding] at small ⊢
  simp only [padFile, odd]
  split_ifs with round
  · apply Eq.trans (toInt32_of_range _ _) <;> omega
  · omega

/-- An odd size that is made even first ends at the same multiple of 4. -/
theorem padName_evenName {n : ℕ} (small : 110 + n + padding (110 + n) < 2 ^ 31) :
    padName (evenName n) = n + padding (110 + n) := by
  have even : evenName n = (n + n % 2 : ℕ) := by
    have odd : (n : ℤ).tmod 2 = (n % 2 : ℕ) := by
      rw [Int.tmod_eq_emod_of_nonneg (by omega)]
      omega
    rw [evenName, odd]
    apply Eq.trans (toInt32_of_range _ _) <;> omega
  have same : n + n % 2 + padding (110 + (n + n % 2)) = n + padding (110 + n) := by
    simp only [padding]
    omega
  rw [even, padName_natCast (by omega)]
  omega

theorem Record.padName_eq (r : Record) :
    padName ((r.name.length + 1 : ℕ) : ℤ) = r.name.length + 1 + r.namePad.length := by
  rw [padName_natCast (by
    rw [← r.namePad_length]
    exact r.name_small), r.namePad_length]
  rfl

theorem Record.padName_even_eq (r : Record) :
    padName (evenName ((r.name.length + 1 : ℕ) : ℤ)) = r.name.length + 1 + r.namePad.length := by
  rw [padName_evenName (by
    rw [← r.namePad_length]
    exact r.name_small), r.namePad_length]
  rfl

theorem Record.padFile_eq (r : Record) : padFile r.data.length = r.dataSize := by
  rw [padFile_natCast (by
    rw [← r.dataPad_length]
    exact r.data_small), ← r.dataPad_length]
  rfl

end Read

/-! ## The record of a name and data -/

/-- The hexadecimal digit of a number below 16. -/
def hexChar (n : ℕ) : UInt8 := if n < 10 then UInt8.ofNat (0x30 + n) else UInt8.ofNat (0x37 + n)

/-- A number in 8 hexadecimal digits. -/
def hexField (n : ℕ) : List UInt8 :=
  [7, 6, 5, 4, 3, 2, 1, 0].map fun i => hexChar (n / 16 ^ i % 16)

theorem isHexDigit_hexChar : ∀ n < 16, IsHexDigit (hexChar n) ∧ digitValue (hexChar n) = n := by
  decide

/-- One more hexadecimal digit. -/
theorem div_pow_digit (n k : ℕ) : n / 16 ^ (k + 1) * 16 + n / 16 ^ k % 16 = n / 16 ^ k := by
  rw [Nat.pow_succ, ← Nat.div_div_eq_div_mul]
  exact Nat.div_add_mod' (n / 16 ^ k) 16

theorem isField_hexField {n : ℕ} (small : n < 2 ^ 32) : IsField (hexField n) n where
  digits c inside := by
    obtain ⟨i, -, rfl⟩ := List.mem_map.mp inside
    exact (isHexDigit_hexChar _ (Nat.mod_lt _ (by decide))).1
  length := rfl
  value := by
    have digit (i : ℕ) : digitValue (hexChar (n / 16 ^ i % 16)) = n / 16 ^ i % 16 :=
      (isHexDigit_hexChar _ (Nat.mod_lt _ (by decide))).2
    have above : n / 16 ^ 8 = 0 := Nat.div_eq_of_lt (small.trans_le (by decide))
    have top : n / 16 ^ 7 % 16 = n / 16 ^ 7 := by
      rw [← div_pow_digit n 7, above, Nat.zero_mul, Nat.zero_add, Nat.mod_mod]
    simp only [hexValue, hexField, List.map_cons, List.map_nil, List.foldl_cons, List.foldl_nil,
      digit, Nat.zero_mul, Nat.zero_add]
    rw [top, div_pow_digit n 6, div_pow_digit n 5, div_pow_digit n 4, div_pow_digit n 3,
      div_pow_digit n 2, div_pow_digit n 1, div_pow_digit n 0, Nat.pow_zero, Nat.div_one]

/-- The record of a name and data. The fields that nothing reads are zero. -/
def newc (name data : List UInt8) (name_ne_nil : name ≠ []) (no_nul : 0 ∉ name)
    (name_small : 110 + (name.length + 1) + padding (110 + (name.length + 1)) < 2 ^ 31)
    (data_small : data.length + padding data.length < 2 ^ 31) : Record where
  name := name
  data := data
  front := [48, 55, 48, 55, 48, 49] ++ List.replicate 48 48
  filesize := hexField data.length
  middle := List.replicate 32 48
  namesize := hexField (name.length + 1)
  check := List.replicate 8 48
  namePad := List.replicate (padding (110 + (name.length + 1))) 0
  dataPad := List.replicate (padding data.length) 0
  name_ne_nil := name_ne_nil
  no_nul := no_nul
  front_length := rfl
  isFilesize := isField_hexField (by omega)
  middle_length := rfl
  isNamesize := isField_hexField (by omega)
  check_length := rfl
  namePad_length := List.length_replicate
  dataPad_length := List.length_replicate
  name_small := by rwa [List.length_replicate]
  data_small := by rwa [List.length_replicate]

/-! ## Archives -/

/-- A record at the offset of its header. -/
structure Placed where
  record : Record
  header : ℕ

namespace Placed

/-- The address of the name. -/
def namePtr (p : Placed) : ℕ := p.header + 110

/-- The address of the data. -/
def dataPtr (p : Placed) : ℕ := p.header + p.record.dataOffset

/-- The record is where it should be. -/
def Holds (mem : List UInt8) (p : Placed) : Prop := p.record.encode <+: mem.drop p.header

/-- The address of the name is that of a string, the name. -/
theorem Holds.name {mem : List UInt8} {p : Placed} (holds : p.Holds mem) :
    cstr p.record.name <+: mem.drop p.namePtr := by
  obtain ⟨rest, splits⟩ := holds
  have large : 110 ≤ p.record.encode.length := by
    rw [p.record.length_encode, Record.size, Record.dataOffset]
    omega
  rw [namePtr, ← List.drop_drop, ← splits, List.drop_append_of_le_length large,
    p.record.drop_name, List.append_assoc]
  exact List.prefix_append ..

/-- At the address of the data are the data. -/
theorem Holds.data {mem : List UInt8} {p : Placed} (holds : p.Holds mem) :
    p.record.data <+: mem.drop p.dataPtr := by
  obtain ⟨rest, splits⟩ := holds
  have large : p.record.dataOffset ≤ p.record.encode.length := by
    rw [p.record.length_encode, Record.size]
    omega
  rw [dataPtr, ← List.drop_drop, ← splits, List.drop_append_of_le_length large,
    p.record.drop_data, List.append_assoc]
  exact List.prefix_append ..

end Placed

/-- Records one behind the other. -/
def layout : ℕ → List Record → List Placed
  | _, [] => []
  | header, r :: rest => ⟨r, header⟩ :: layout (header + r.size) rest

theorem map_layout (header : ℕ) (entries : List Record) :
    (layout header entries).map Placed.record = entries := by
  induction entries generalizing header with
  | nil => rfl
  | cons r rest ih => rw [layout, List.map_cons, ih]

/-- The last record of a layout. -/
theorem layout_concat (header : ℕ) (entries : List Record) (r : Record) :
    ∃ place, layout header (entries ++ [r]) = layout header entries ++ [⟨r, place⟩] := by
  induction entries generalizing header with
  | nil => exact ⟨header, rfl⟩
  | cons r' rest ih =>
    obtain ⟨place, same⟩ := ih (header + r'.size)
    exact ⟨place, by rw [List.cons_append, layout, same, layout, List.cons_append]⟩

/-- The bytes of an archive: the entries, a trailer and anything. -/
def archive (entries : List Record) (trailer : Record) (rest : List UInt8) : List UInt8 :=
  entries.flatMap Record.encode ++ (trailer.encode ++ rest)

/-- From an offset on memory holds entries and a trailer. -/
inductive Walkable (mem : List UInt8) : ℕ → List Record → Prop
  | trailer {header : ℕ} {r : Record} (holds : r.encode <+: mem.drop header)
      (ends : r.name = trailerName) : Walkable mem header []
  | entry {header : ℕ} {r : Record} {rest : List Record} (holds : r.encode <+: mem.drop header)
      (goes : r.name ≠ trailerName) (next : Walkable mem (header + r.size) rest) :
      Walkable mem header (r :: rest)

/-- Every record of a layout is where it should be. -/
theorem Walkable.holds {mem : List UInt8} {header : ℕ} {entries : List Record}
    (walkable : Walkable mem header entries) : ∀ p ∈ layout header entries, p.Holds mem := by
  induction walkable with
  | trailer => exact fun p inside => absurd inside List.not_mem_nil
  | entry holds _ _ ih =>
    intro p inside
    rcases List.mem_cons.mp inside with rfl | inside
    · exact holds
    · exact ih p inside

/-- **An archive is walkable.** -/
theorem walkable_archive {entries : List Record} (goes : ∀ r ∈ entries, r.name ≠ trailerName)
    {trailer : Record} (ends : trailer.name = trailerName) (rest : List UInt8) :
    Walkable (archive entries trailer rest) 0 entries := by
  -- the induction carries the bytes in front of the entries that are left
  suffices walk : ∀ before : List UInt8,
      Walkable (before ++ archive entries trailer rest) before.length entries from walk []
  induction entries with
  | nil =>
    intro before
    refine .trailer (r := trailer) ?_ ends
    rw [List.drop_left]
    exact List.prefix_append ..
  | cons r entries ih =>
    intro before
    have split : archive (r :: entries) trailer rest =
      r.encode ++ archive entries trailer rest := by
      simp [archive]
    have next := ih (fun r' inside => goes r' (List.mem_cons_of_mem r inside)) (before ++ r.encode)
    rw [List.append_assoc, List.length_append, r.length_encode] at next
    rw [split]
    refine .entry ?_ (goes r List.mem_cons_self) next
    rw [List.drop_left]
    exact List.prefix_append ..

end BareMetal.Cpio
