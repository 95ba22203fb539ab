import BareMetal.Dtb.Model
import Mathlib.Data.List.Forall2
import Mathlib.Data.List.Infix

/-!
# The flattened device tree

A structure block is a row of tokens. A node stands between two of them, behind the first its
name, padded with its NUL to a multiple of 4; a property is its token, the length of its value,
the offset of its name among the strings, and the value, padded as well; a NOP may stand
anywhere. `Items` is what a node holds, or what the whole block does, and `encode` its bytes.

`Blob.Lies` says that memory holds a device tree: its header, its block and its strings.

## Main results

* `Items.length_encode_mod` — an encoding keeps what follows it aligned
* `Items.shows_calls` — the arguments of the callback point to names and values
-/

namespace BareMetal.Dtb

open CS Strings

/-! ## Encoding -/

/-- A row of bytes with the zeros that pad it to a multiple of 4. -/
def padded (bytes : List UInt8) : List UInt8 :=
  bytes ++ List.replicate ((4 - bytes.length % 4) % 4) 0

/-- A property, with the offset of its name among the strings. -/
structure Property where
  name : List UInt8
  no_nul : 0 ∉ name
  nameoff : ℕ
  value : List UInt8

/-- What stands in a node. -/
inductive Items
  | nil
  | nop (rest : Items)
  | prop (p : Property) (rest : Items)
  | node (name : List UInt8) (no_nul : 0 ∉ name) (body rest : Items)

/-- A property in the structure block. -/
def Property.encode (p : Property) : List UInt8 :=
  bigEndian fdtProp ++ (bigEndian p.value.length ++ (bigEndian p.nameoff ++ padded p.value))

/-- The start of a node in the structure block. -/
def encodeBegin (name : List UInt8) : List UInt8 := bigEndian fdtBeginNode ++ padded (cstr name)

namespace Items

/-- The tokens, with what follows them. -/
def encode : Items → List UInt8
  | nil => []
  | nop rest => bigEndian fdtNop ++ rest.encode
  | prop p rest => p.encode ++ rest.encode
  | node name _ body rest =>
    encodeBegin name ++ (body.encode ++ (bigEndian fdtEndNode ++ rest.encode))

/-- The strings hold the name of each property at its offset. -/
def Named (strings : List UInt8) : Items → Prop
  | nil => True
  | nop rest => rest.Named strings
  | prop p rest => cstr p.name <+: strings.drop p.nameoff ∧ rest.Named strings
  | node _ _ body rest => body.Named strings ∧ rest.Named strings

end Items

@[simp] theorem length_padded (bytes : List UInt8) :
    (padded bytes).length = bytes.length + (4 - bytes.length % 4) % 4 := by
  rw [padded, List.length_append, List.length_replicate]

@[simp] theorem length_encodeBegin (name : List UInt8) :
    (encodeBegin name).length = 4 + (padded (cstr name)).length :=
  List.length_append

@[simp] theorem Property.length_encode (p : Property) :
    p.encode.length = 12 + (padded p.value).length := by
  simp only [Property.encode, List.length_append, length_bigEndian]
  omega

/-- **An encoding keeps the alignment.** -/
theorem Items.length_encode_mod (items : Items) : items.encode.length % 4 = 0 := by
  induction items with
  | nil => rfl
  | nop rest ih =>
    rw [encode, List.length_append, length_bigEndian]
    omega
  | prop p rest ih =>
    rw [encode, List.length_append, Property.length_encode, length_padded]
    omega
  | node name no_nul body rest body_ih rest_ih =>
    simp only [encode, List.length_append, length_encodeBegin, length_padded, length_bigEndian]
    omega

/-! ## What the callback is to see -/

/-- What a document is made of. -/
inductive Event
  | node (name : List UInt8)
  | prop (name value : List UInt8)
deriving DecidableEq, Repr

/-- The nodes and properties in document order. -/
def Items.events : Items → List Event
  | nil => []
  | nop rest => rest.events
  | prop p rest => .prop p.name p.value :: rest.events
  | node name _ body rest => .node name :: (body.events ++ rest.events)

/-- The arguments for a node whose name is at an address. -/
def nodeCall (name : ℕ) : Call := ⟨fdtBeginNode, name, none, 0⟩

/-- The arguments for a property whose value is at an address. -/
def Property.call (p : Property) (dtStringsPtr value : ℕ) : Call :=
  ⟨fdtProp, dtStringsPtr + p.nameoff, some value, p.value.length⟩

/-- The arguments for each node and each property of an encoding that is at an address. -/
def Items.calls (dtStringsPtr : ℕ) : Items → ℕ → List Call
  | nil, _ => []
  | nop rest, pointer => rest.calls dtStringsPtr (pointer + 4)
  | prop p rest, pointer =>
    p.call dtStringsPtr (pointer + 12) :: rest.calls dtStringsPtr (pointer + p.encode.length)
  | node name _ body rest, pointer =>
    let inside := pointer + (encodeBegin name).length
    nodeCall (pointer + 4) :: (body.calls dtStringsPtr inside ++
      rest.calls dtStringsPtr (inside + body.encode.length + 4))

/-- A pointer to a string. -/
def PointsTo (mem : List UInt8) (pointer : ℕ) (s : List UInt8) : Prop :=
  0 ∉ s ∧ cstr s <+: mem.drop pointer

/-- The arguments describe a node or a property: they point to its name and its value. -/
def Shows (mem : List UInt8) (call : Call) : Event → Prop
  | .node name =>
    call.nodeType = fdtBeginNode ∧ PointsTo mem call.name name ∧ call.value = none ∧
      call.nameSize = 0
  | .prop name value =>
    call.nodeType = fdtProp ∧ PointsTo mem call.name name ∧ call.nameSize = value.length ∧
      ∃ pointer, call.value = some pointer ∧ value <+: mem.drop pointer

section Shows

variable {mem strings : List UInt8} {pointer dtStringsPtr : ℕ} {name : List UInt8} {p : Property}

/-- The padding stands behind what it pads. -/
theorem prefix_of_padded {bytes : List UInt8} (holds : padded bytes <+: mem.drop pointer) :
    bytes <+: mem.drop pointer :=
  (List.prefix_append _ _).trans holds

/-- The fields of a property in memory. -/
theorem Property.encode_prefix_iff : p.encode <+: mem.drop pointer ↔
    bigEndian fdtProp <+: mem.drop pointer ∧ bigEndian p.value.length <+: mem.drop (pointer + 4) ∧
      bigEndian p.nameoff <+: mem.drop (pointer + 8) ∧
        padded p.value <+: mem.drop (pointer + 12) := by
  rw [encode, prefix_drop_append, prefix_drop_append, prefix_drop_append]
  rfl

theorem encodeBegin_prefix_iff : encodeBegin name <+: mem.drop pointer ↔
    bigEndian fdtBeginNode <+: mem.drop pointer ∧ padded (cstr name) <+: mem.drop (pointer + 4) :=
  prefix_drop_append

/-- What lies in a row of bytes lies where the row does. -/
theorem prefix_drop_of_inside {bytes : List UInt8} {n : ℕ} (lies : strings <+: mem.drop pointer)
    (inside : bytes <+: strings.drop n) : bytes <+: mem.drop (pointer + n) := by
  rw [← List.drop_drop]
  exact inside.trans (List.IsPrefix.drop lies n)

/-- **The calls show the document.** -/
theorem Items.shows_calls (items : Items) (holds : items.encode <+: mem.drop pointer)
    (lies : strings <+: mem.drop dtStringsPtr) (named : items.Named strings) :
    List.Forall₂ (Shows mem) (items.calls dtStringsPtr pointer) items.events := by
  induction items generalizing pointer with
  | nil => exact List.Forall₂.nil
  | nop rest ih => exact ih (prefix_drop_append.mp holds).2 named
  | prop p rest ih =>
    obtain ⟨here, behind⟩ := prefix_drop_append.mp holds
    obtain ⟨_, _, _, value⟩ := Property.encode_prefix_iff.mp here
    apply List.Forall₂.cons
    · have name := prefix_drop_of_inside lies named.1
      exact ⟨rfl, ⟨p.no_nul, name⟩, rfl, _, rfl, prefix_of_padded value⟩
    · exact ih behind named.2
  | node name no_nul body rest body_ih rest_ih =>
    obtain ⟨here, behind⟩ := prefix_drop_append.mp holds
    obtain ⟨inside, behind⟩ := prefix_drop_append.mp behind
    obtain ⟨_, behind⟩ := prefix_drop_append.mp behind
    obtain ⟨_, begins⟩ := encodeBegin_prefix_iff.mp here
    apply List.Forall₂.cons
    · exact ⟨rfl, ⟨no_nul, prefix_of_padded begins⟩, rfl, rfl⟩
    · exact List.rel_append (body_ih inside named.1) (rest_ih behind named.2)

end Shows

/-! ## Device trees -/

/-- A device tree, with the places of its block and its strings. -/
structure Blob where
  items : Items
  strings : List UInt8
  offStruct : ℕ
  offStrings : ℕ
  named : items.Named strings
  strings_small : strings.length < 2 ^ 32
  items_small : items.encode.length + 4 < 2 ^ 32
  offStruct_small : offStruct < 2 ^ 32
  offStrings_small : offStrings < 2 ^ 32

namespace Blob

variable (blob : Blob)

/-- The structure block. -/
def block : List UInt8 := blob.items.encode ++ bigEndian fdtEnd

/-- The end of the structure block. -/
def stop : ℕ := blob.offStruct + blob.block.length

/-- The arguments for all its nodes and properties. -/
def calls : List Call := blob.items.calls blob.offStrings blob.offStruct

/-- Memory holds the device tree, with its block at an aligned address. -/
structure Lies (dtb : ℕ) (mem : List UInt8) : Prop where
  magic : bigEndian fdtMagic <+: mem.drop 0
  off_dt_struct : bigEndian blob.offStruct <+: mem.drop 8
  off_dt_strings : bigEndian blob.offStrings <+: mem.drop 12
  size_dt_struct : bigEndian blob.block.length <+: mem.drop 36
  aligned : (dtb + blob.offStruct) % 4 = 0
  block : blob.block <+: mem.drop blob.offStruct
  strings : blob.strings <+: mem.drop blob.offStrings

theorem length_block : blob.block.length = blob.items.encode.length + 4 :=
  List.length_append

end Blob

end BareMetal.Dtb
