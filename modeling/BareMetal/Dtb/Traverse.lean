import BareMetal.Dtb.Format
import Mathlib.Tactic.IntervalCases

/-!
# The traversal undoes the encoding

Each turn of the loop reads one token and what follows it. Names and values are padded by two
rules: a name is skipped with one to four bytes, its NUL among them, and a value with none to
three. Both lead to the next token, since every token is aligned, so the loop follows an
encoding by induction on its items.

## Main results

* `traverseLoop_items` — the loop makes the calls of an encoding and comes to its end
* `fdtTraverse_undoes` — `fdt_traverse` makes the calls of a device tree, one for each node and
  each property in document order, and stops at the end of its block
* `fdtTraverse_initramfs` — with `initramfs_callback` it finds the place of the archive
-/

namespace BareMetal.Dtb

open CS Strings

variable {σ : Type} {dtb : ℕ} {mem strings : List UInt8} {dtStringsPtr stop pointer n : ℕ}
  {callback : DtbCallback σ} {state : σ} {name : List UInt8} {p : Property}

/-! ## Words -/

/-- `little2big` turns the bytes of a word round. -/
theorem little2big_append (b₀ b₁ b₂ b₃ : BitVec 8) :
    little2big (b₃ ++ b₂ ++ b₁ ++ b₀) = b₀ ++ b₁ ++ b₂ ++ b₃ := by
  apply BitVec.eq_of_getLsbD_eq
  intro i inside
  simp only [little2big, BitVec.getLsbD_or, BitVec.getLsbD_and, BitVec.getLsbD_ushiftRight,
    BitVec.getLsbD_shiftLeft, BitVec.getLsbD_append]
  interval_cases i <;> simp

/-- **`little2big` undoes the byte order** of the device tree. -/
theorem readWord_bigEndian (small : n < 2 ^ 32) (holds : bigEndian n <+: mem.drop pointer) :
    readWord mem pointer = .ok n := by
  obtain ⟨rest, splits⟩ := holds
  rw [readWord, ← splits, bigEndian]
  change Except.ok (little2big _).toNat = _
  rw [little2big_append, toNat_bigEndian small]

/-! ## One turn of the loop -/

/-- A token that is no node and no property is skipped. -/
theorem traverseLoop_skip (inside : pointer < stop) (small : n < 2 ^ 32)
    (no_node : n ≠ fdtBeginNode)
    (no_prop : n ≠ fdtProp) (holds : bigEndian n <+: mem.drop pointer) :
    traverseLoop dtb mem dtStringsPtr stop callback pointer state =
      traverseLoop dtb mem dtStringsPtr stop callback (pointer + 4) state := by
  rw [traverseLoop, if_pos inside, readWord_bigEndian small holds, outcome_bind_ok, if_neg no_node,
    if_neg no_prop]

/-- A name is skipped with its NUL and its padding. -/
theorem skip_name (aligned : (dtb + pointer) % 4 = 0) :
    pointer + 4 + name.length + (4 - (dtb + (pointer + 4 + name.length)) % 4) =
      pointer + (encodeBegin name).length := by
  rw [length_encodeBegin, length_padded, cstr, List.length_append, List.length_singleton]
  omega

theorem traverseLoop_begin (inside : pointer < stop) (no_nul : 0 ∉ name)
    (aligned : (dtb + pointer) % 4 = 0) (holds : encodeBegin name <+: mem.drop pointer) :
    traverseLoop dtb mem dtStringsPtr stop callback pointer state = (do
      let state ← callback (nodeCall (pointer + 4)) state
      traverseLoop dtb mem dtStringsPtr stop callback
        (pointer + (encodeBegin name).length) state) := by
  obtain ⟨token, begins⟩ := encodeBegin_prefix_iff.mp holds
  obtain ⟨rest, splits⟩ := prefix_of_padded begins
  rw [traverseLoop, if_pos inside, readWord_bigEndian (by decide) token, outcome_bind_ok,
    if_pos rfl,
    ← splits, strlen_cstr no_nul]
  simp only [outcome_bind_ok, skip_name aligned]
  rfl

/-- A value is skipped with its padding, which may be empty. -/
theorem skip_value (aligned : (dtb + pointer) % 4 = 0) :
    (if (dtb + (pointer + 4 + 8 + p.value.length)) % 4 ≠ 0 then
        pointer + 4 + 8 + p.value.length + (4 - (dtb + (pointer + 4 + 8 + p.value.length)) % 4)
      else pointer + 4 + 8 + p.value.length) = pointer + p.encode.length := by
  rw [Property.length_encode, length_padded]
  split_ifs with odd <;> omega

theorem traverseLoop_prop (inside : pointer < stop) (value_small : p.value.length < 2 ^ 32)
    (nameoff_small : p.nameoff < 2 ^ 32) (aligned : (dtb + pointer) % 4 = 0)
    (holds : p.encode <+: mem.drop pointer) :
    traverseLoop dtb mem dtStringsPtr stop callback pointer state = (do
      let state ← callback (p.call dtStringsPtr (pointer + 12)) state
      traverseLoop dtb mem dtStringsPtr stop callback (pointer + p.encode.length) state) := by
  obtain ⟨token, len, nameoff, _⟩ := Property.encode_prefix_iff.mp holds
  rw [traverseLoop, if_pos inside, readWord_bigEndian (by decide) token, outcome_bind_ok,
    if_neg (by decide), if_pos rfl, readWord_bigEndian value_small len, outcome_bind_ok,
    readWord_bigEndian nameoff_small nameoff, outcome_bind_ok]
  have skipped := @skip_value dtb pointer p aligned
  apply bind_congr
  intro state
  dsimp only
  rw [← skipped]
  split_ifs <;> rfl

/-! ## The whole block -/

/-- The offset of a name lies inside the strings. -/
theorem nameoff_lt (named : cstr name <+: strings.drop n) : n < strings.length := by
  have long := named.length_le
  rw [cstr, List.length_append, List.length_singleton, List.length_drop] at long
  omega

/-- **The loop makes the calls of an encoding**, and goes on behind it. -/
theorem traverseLoop_items (items : Items) (named : items.Named strings)
    (strings_small : strings.length < 2 ^ 32) (small : items.encode.length < 2 ^ 32)
    (holds : items.encode <+: mem.drop pointer) (aligned : (dtb + pointer) % 4 = 0)
    (inside : pointer + items.encode.length ≤ stop) :
    traverseLoop dtb mem dtStringsPtr stop callback pointer state = (do
      let state ← (items.calls dtStringsPtr pointer).foldlM (fun state call => callback call state)
        state
      traverseLoop dtb mem dtStringsPtr stop callback (pointer + items.encode.length) state) := by
  induction items generalizing pointer state with
  | nil => rfl
  | nop rest ih =>
    obtain ⟨token, behind⟩ := prefix_drop_append.mp holds
    rw [Items.encode, List.length_append] at small inside
    rw [length_bigEndian] at small inside behind
    rw [traverseLoop_skip (by omega) (by decide) (by decide) (by decide) token,
      ih named (by omega) behind (by omega) (by omega), Items.encode, List.length_append,
      length_bigEndian, Nat.add_assoc]
    rfl
  | prop p rest ih =>
    obtain ⟨here, behind⟩ := prefix_drop_append.mp holds
    have aligned' := Items.length_encode_mod (.prop p .nil)
    rw [Items.encode, Items.encode, List.append_nil] at aligned'
    rw [Items.encode, List.length_append] at small inside
    have value_small := p.length_encode
    rw [length_padded] at value_small
    have nameoff_small := (nameoff_lt named.1).trans strings_small
    rw [traverseLoop_prop (by omega) (by omega) nameoff_small aligned here, Items.calls,
      List.foldlM_cons, bind_assoc, Items.encode, List.length_append, ← Nat.add_assoc]
    apply bind_congr
    intro state
    exact ih named.2 (by omega) behind (by omega) (by omega)
  | node name no_nul body rest body_ih rest_ih =>
    obtain ⟨here, behind⟩ := prefix_drop_append.mp holds
    obtain ⟨body_holds, behind⟩ := prefix_drop_append.mp behind
    obtain ⟨token, behind⟩ := prefix_drop_append.mp behind
    have aligned' := body.length_encode_mod
    have aligned'' : (encodeBegin name).length % 4 = 0 := by
      rw [length_encodeBegin, length_padded]
      omega
    simp only [Items.encode, List.length_append, length_bigEndian] at small inside behind
    rw [traverseLoop_begin (by rw [length_encodeBegin] at inside; omega) no_nul aligned here,
      Items.calls, List.foldlM_cons, bind_assoc]
    apply bind_congr
    intro state
    rw [List.foldlM_append, bind_assoc,
      body_ih named.1 (by omega) body_holds (by omega) (by omega)]
    apply bind_congr
    intro state
    -- behind the body stands the token that ends the node
    rw [traverseLoop_skip (by omega) (by decide) (by decide) (by decide) token,
      rest_ih named.2 (by omega) behind (by omega) (by omega)]
    simp only [Items.encode, List.length_append, length_bigEndian, Nat.add_assoc]

/-- `fdt_traverse` makes the calls of a device tree. -/
theorem fdtTraverse_calls (blob : Blob) (lies : blob.Lies dtb mem) (callback : DtbCallback σ)
    (dtbSize : ℕ) (state : σ) :
    fdtTraverse dtb mem callback dtbSize state = (do
      let state ← blob.calls.foldlM (fun state call => callback call state) state
      return ⟨blob.block.length, some blob.stop, state⟩) := by
  obtain ⟨holds, token⟩ := prefix_drop_append.mp lies.block
  have length := blob.length_block
  have small := blob.items_small
  rw [fdtTraverse, readWord_bigEndian (by decide) lies.magic, outcome_bind_ok,
    if_neg (not_not.mpr rfl), readWord_bigEndian (length ▸ small) lies.size_dt_struct,
    outcome_bind_ok, readWord_bigEndian blob.offStruct_small lies.off_dt_struct, outcome_bind_ok,
    readWord_bigEndian blob.offStrings_small lies.off_dt_strings, outcome_bind_ok,
    traverseLoop_items blob.items blob.named blob.strings_small (by omega) holds lies.aligned
      (by omega), bind_assoc]
  apply bind_congr
  intro state
  -- the last token is `FDT_END`, and behind it the loop has come to its end
  have ends : blob.offStruct + blob.items.encode.length + 4 = blob.stop := by
    rw [Blob.stop, length, Nat.add_assoc]
  rw [traverseLoop_skip (by omega) (by decide) (by decide) (by decide) token, ends, traverseLoop,
    if_neg (by rw [Blob.stop]; exact lt_irrefl _)]
  rfl

/-- **`fdt_traverse` undoes the encoding**: it makes one call for each node and each property,
in document order and with their names and values, no others, and stops at the end of the
structure block. -/
theorem fdtTraverse_undoes (blob : Blob) (lies : blob.Lies dtb mem) (callback : DtbCallback σ)
    (dtbSize : ℕ) (state : σ) :
    fdtTraverse dtb mem callback dtbSize state = (do
      let state ← blob.calls.foldlM (fun state call => callback call state) state
      return ⟨blob.block.length, some blob.stop, state⟩) ∧
    List.Forall₂ (Shows mem) blob.calls blob.items.events := by
  obtain ⟨holds, _⟩ := prefix_drop_append.mp lies.block
  exact ⟨fdtTraverse_calls blob lies callback dtbSize state,
    blob.items.shows_calls holds lies.strings blob.named⟩

/-- The property `r` with a value of five bytes. -/
def reg : Property := ⟨[114], by decide, 2, [1, 2, 3, 4, 5]⟩

/-- The property `e` without a value. -/
def empty : Property := ⟨[101], by decide, 0, []⟩

/-- A root without a name that holds both properties, the second one in a node `cpu`. -/
def cpuTree : Blob where
  items := .nop (.node [] (by decide)
    (.prop reg (.node [99, 112, 117] (by decide) (.prop empty (.nop .nil)) .nil)) .nil)
  strings := [101, 0, 114, 0]
  offStruct := 40
  offStrings := 108
  named := ⟨⟨by decide, ⟨by decide, trivial⟩, trivial⟩, trivial⟩
  strings_small := by decide
  items_small := by decide
  offStruct_small := by decide
  offStrings_small := by decide

/-- The tree in memory, with a header that holds nothing else. -/
def cpuTreeMemory : List UInt8 :=
  bigEndian fdtMagic ++ bigEndian 112 ++ bigEndian 40 ++ bigEndian 108 ++ List.replicate 20 0 ++
    bigEndian cpuTree.block.length ++ cpuTree.block ++ cpuTree.strings

theorem cpuTree_lies : cpuTree.Lies 0x8000000 cpuTreeMemory where
  magic := by decide
  off_dt_struct := by decide
  off_dt_strings := by decide
  size_dt_struct := by decide
  aligned := by decide
  block := by decide
  strings := by decide

/-- The calls for the tree, as a callback sees them that keeps a list. -/
theorem cpuTree_traversed :
    fdtTraverse 0x8000000 cpuTreeMemory (fun call seen => .ok (seen ++ [call])) 0 [] =
      .ok ⟨68, some 108, [nodeCall 48, reg.call 108 64, nodeCall 76, empty.call 108 92]⟩ ∧
    List.Forall₂ (Shows cpuTreeMemory) cpuTree.calls
      [.node [], .prop [114] [1, 2, 3, 4, 5], .node [99, 112, 117], .prop [101] []] :=
  fdtTraverse_undoes cpuTree cpuTree_lies _ 0 []

/-! ## The place of the archive -/

/-- The number in a row of bytes, the highest one first. -/
def numberOf (bytes : List UInt8) : ℕ := bytes.foldl (fun n byte => n * 2 ^ 8 + byte.toNat) 0

/-- The properties that tell where the archive is have a word as their value. -/
def Event.HasWord : Event → Prop
  | .node _ => True
  | .prop name value => name = initrdStart ∨ name = initrdEnd → value.length = 4

/-- What `initramfs_callback` learns of a document. -/
def CpioPlace.learn (cpio : CpioPlace) : Event → CpioPlace
  | .node _ => cpio
  | .prop name value =>
    if name = initrdStart then { cpio with place := numberOf value }
    else if name = initrdEnd then { cpio with placeEnd := numberOf value }
    else cpio

theorem readWord_bytes {bytes : List UInt8} (length : bytes.length = 4)
    (holds : bytes <+: mem.drop pointer) : readWord mem pointer = .ok (numberOf bytes) := by
  obtain ⟨rest, splits⟩ := holds
  match bytes with
  | [b₀, b₁, b₂, b₃] =>
    rw [readWord, ← splits]
    change Except.ok (little2big _).toNat = _
    rw [little2big_append]
    simp [toNat_append_byte, numberOf]

/-- `strcmp` of a name and another string. -/
theorem PointsTo.strcmp {s : List UInt8} (points : PointsTo mem pointer s) (no_nul : 0 ∉ name) :
    ∃ order, Strings.strcmp (mem.drop pointer) (cstr name) = .ok order ∧
      (order = 0 ↔ s = name) := by
  obtain ⟨no_nul', rest, splits⟩ := points
  have general := strcmp_cstr no_nul' no_nul rest []
  rwa [splits, List.append_nil] at general

theorem no_nul_initrdStart : 0 ∉ initrdStart := by decide

theorem no_nul_initrdEnd : 0 ∉ initrdEnd := by decide

/-- `initramfs_callback` learns from each call what the document says. -/
theorem initramfsCallback_eq {call : Call} {event : Event} (shows : Shows mem call event)
    (word : event.HasWord) (cpio : CpioPlace) :
    initramfsCallback mem call cpio = .ok (cpio.learn event) := by
  cases event with
  | node name =>
    rw [initramfsCallback, if_neg (by rw [shows.1]; decide)]
    rfl
  | prop name value =>
    obtain ⟨isProp, points, _, pointer, isValue, holds⟩ := shows
    obtain ⟨order, compared, starts⟩ := points.strcmp no_nul_initrdStart
    obtain ⟨order', compared', ends⟩ := points.strcmp no_nul_initrdEnd
    rw [initramfsCallback, if_pos isProp, compared, compared', CpioPlace.learn, isValue, readValue]
    have different : initrdStart ≠ initrdEnd := by decide
    by_cases start : name = initrdStart
    · have number := readWord_bytes (word (.inl start)) holds
      simp [start, starts.mpr start, ends, number, different]
    · by_cases finish : name = initrdEnd
      · have number := readWord_bytes (word (.inr finish)) holds
        simp [starts, ends.mpr finish, number, finish, different.symm]
      · simp [start, starts, ends, finish]

theorem foldlM_initramfsCallback {calls : List Call} {events : List Event}
    (shows : List.Forall₂ (Shows mem) calls events) (words : ∀ event ∈ events, event.HasWord)
    (cpio : CpioPlace) :
    calls.foldlM (fun cpio call => initramfsCallback mem call cpio) cpio =
      .ok (events.foldl CpioPlace.learn cpio) := by
  induction shows generalizing cpio with
  | nil => rfl
  | cons first _ ih =>
    rw [List.foldlM_cons, initramfsCallback_eq first (words _ List.mem_cons_self), outcome_bind_ok]
    exact ih (fun event inside => words event (List.mem_cons_of_mem _ inside)) _

/-- **The traversal with `initramfs_callback`** finds the place of the archive that the device
tree gives: the last one, when it gives several. -/
theorem fdtTraverse_initramfs (blob : Blob) (lies : blob.Lies dtb mem)
    (words : ∀ event ∈ blob.items.events, event.HasWord) (dtbSize : ℕ) (cpio : CpioPlace) :
    fdtTraverse dtb mem (initramfsCallback mem) dtbSize cpio =
      .ok ⟨blob.block.length, some blob.stop, blob.items.events.foldl CpioPlace.learn cpio⟩ := by
  obtain ⟨holds, _⟩ := prefix_drop_append.mp lies.block
  have shows := blob.items.shows_calls holds lies.strings blob.named
  rw [fdtTraverse_calls blob lies]
  exact congrArg (· >>= _) (foldlM_initramfsCallback shows words cpio)

end BareMetal.Dtb
