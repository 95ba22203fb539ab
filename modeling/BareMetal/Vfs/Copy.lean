import BareMetal.Vfs.ByteFile
import BareMetal.Vfs.Model

/-!
# Copies and regular files

`memcpy_` splices. `Holds fs v content` says that the vnode `v` is a regular file with
this content.
-/

namespace BareMetal.Vfs

open CS ByteFile

variable {fs fs' : Fs} {v start len : ℕ} {content src dest buf : List UInt8}

/-! ## `memcpy_` -/

theorem memcpyLoop_eq {i : ℕ} (source : i + len ≤ src.length)
    (room : start + i + len ≤ dest.length) :
    memcpyLoop src start len i dest = .ok (splice dest (start + i) ((src.drop i).take len)) := by
  induction len generalizing i dest with
  | zero => rw [List.take_zero, splice_nil, memcpyLoop]
  | succ len ih =>
    have here : src[i]? = some src[i] := List.getElem?_eq_getElem (by omega)
    have first : (src.drop i).take (len + 1) = src[i] :: (src.drop (i + 1)).take len := by
      rw [List.drop_eq_getElem_cons (by omega), List.take_succ_cons]
    have inside : start + i < dest.length := by omega
    rw [memcpyLoop, here]
    dsimp only
    rw [if_pos inside, ih (by omega) (by rw [List.length_set]; omega), first, splice_cons inside,
      Nat.add_assoc]

/-- **`memcpy_` splices**, when both areas are large enough. -/
theorem memcpy_eq (source : len ≤ src.length) (room : start + len ≤ dest.length) :
    memcpy dest start src len = .ok (splice dest start (src.take len)) := by
  rw [memcpy, memcpyLoop_eq (by omega) (by omega), Nat.add_zero, List.drop_zero]

/-! ## Regular files -/

/-- The component is a regular file with this content. -/
structure Contains (fs : Fs) (component : Component) (content : List UInt8) : Prop where
  type : component.type = .file
  len : component.len = content.length
  data : content = [] ∨ ∃ addr, component.payload = .data addr ∧ fs.buffers addr = some content

/-- The vnode is a regular file with this content. -/
def Holds (fs : Fs) (v : ℕ) (content : List UInt8) : Prop :=
  ∃ node, fs.nodes[v]? = some node ∧ Contains fs node.component content

theorem Fs.node_eq_ok {node : Vnode} : fs.node v = .ok node ↔ fs.nodes[v]? = some node := by
  rw [Fs.node]
  cases fs.nodes[v]? <;> simp

theorem Holds.unique {content' : List UInt8} (holds : Holds fs v content)
    (holds' : Holds fs v content') : content' = content := by
  obtain ⟨node, here, contains⟩ := holds
  obtain ⟨node', here', contains'⟩ := holds'
  obtain rfl := Option.some.inj (here.symm.trans here')
  have same_length := contains.len.symm.trans contains'.len
  rcases contains.data with rfl | ⟨addr, payload, data⟩
  · exact List.length_eq_zero_iff.mp same_length.symm
  rcases contains'.data with rfl | ⟨addr', payload', data'⟩
  · exact (List.length_eq_zero_iff.mp same_length).symm
  · obtain rfl := Payload.data.inj (payload.symm.trans payload')
    exact Option.some.inj (data'.symm.trans data)

/-- The data of a regular file can be read up to its length. -/
theorem Contains.take {component : Component} (contains : Contains fs component content)
    (le : len ≤ content.length) :
    len ≤ (fs.bytes component.payload).length ∧
      (fs.bytes component.payload).take len = content.take len := by
  rcases contains.data with rfl | ⟨addr, payload, here⟩
  · obtain rfl : len = 0 := Nat.le_zero.mp le
    exact ⟨Nat.zero_le _, rfl⟩
  · rw [payload, Fs.bytes, here, Option.getD_some]
    exact ⟨le, rfl⟩

/-! ## `tmpfs_write` -/

/-- The length of a file after it has grown for a write that ends at `final`. -/
theorem newLen_eq (final : ℕ) : newLen final = min final tmpfsMaxFileSize := by
  simp only [newLen]
  split_ifs <;> omega

/-- The new chunk begins with the old content. -/
theorem newSpace_eq {component : Component} {size : ℕ} (chunk : Chunk)
    (contains : Contains fs component content) (larger : content.length ≤ size) :
    ∃ extra, newSpace chunk component size fs = .ok (content ++ extra) ∧
      (content ++ extra).length = size := by
  let space := (List.range size).map chunk.old
  have space_length : space.length = size := by simp [space]
  refine ⟨space.drop content.length, ?_, ?_⟩
  · obtain ⟨source, all⟩ := contains.take (le_refl content.length)
    have room : 0 + content.length ≤ space.length := by omega
    rw [newSpace, contains.len]
    split_ifs with some_bytes
    · rw [memcpy_eq source room, all, List.take_length, splice_zero]
    · obtain rfl : content = [] := List.length_eq_zero_iff.mp (by omega)
      rfl
  · rw [List.length_append, List.length_drop]
    omega

/-- Growing appends bytes, as many as the write needs and the limit allows. -/
theorem grow_eq {node : Vnode} (chunk : Chunk) (final : ℕ) (here : fs.nodes[v]? = some node)
    (contains : Contains fs node.component content)
    (bounded : content.length ≤ tmpfsMaxFileSize) :
    ∃ fs' extra, grow chunk v node.component final fs = .ok fs' ∧ fs'.files = fs.files ∧
      Holds fs' v (content ++ extra) ∧
      (content ++ extra).length = max content.length (min final tmpfsMaxFileSize) := by
  have len := contains.len
  by_cases grows : final > node.component.len ∧ node.component.len < tmpfsMaxFileSize
  · rw [grow, if_pos grows, newLen_eq]
    rw [len] at grows
    have larger : content.length ≤ min final tmpfsMaxFileSize := by omega
    obtain ⟨extra, copied, length⟩ := newSpace_eq chunk contains larger
    rw [copied, outcome_bind_ok]
    have present : (fs.freeOld node.component).nodes[v]? = some node := by
      rw [Fs.freeOld_nodes, here]
    refine ⟨_, extra, rfl, fs.freeOld_files _, ⟨_, Fs.modifyComponent_self _ present, ?_⟩, by omega⟩
    exact ⟨contains.type, length.symm, .inr ⟨chunk.addr, rfl, Heap.alloc_self⟩⟩
  · rw [grow, if_neg grows]
    rw [len] at grows
    refine ⟨fs, [], rfl, rfl, ?_, ?_⟩
    · rw [List.append_nil]
      exact ⟨node, here, contains⟩
    · rw [List.append_nil]
      omega

/-- A store inside the content splices it. -/
theorem storeData_eq {node : Vnode} {pos : ℕ} (here : fs.nodes[v]? = some node)
    (contains : Contains fs node.component content) (source : len ≤ buf.length)
    (inside : pos + len ≤ content.length) :
    ∃ fs', storeData node.component pos buf len fs = .ok fs' ∧ fs'.files = fs.files ∧
      Holds fs' v (splice content pos (buf.take len)) := by
  obtain ⟨room, -⟩ := contains.take inside
  rw [storeData, memcpy_eq source room, outcome_bind_ok]
  rcases contains.data with rfl | ⟨addr, payload, data⟩
  · -- nothing is stored in an empty file
    obtain rfl : len = 0 := by simp at inside; omega
    have unchanged : splice ([] : List UInt8) pos (buf.take 0) = [] := by
      rw [List.take_zero, splice_nil]
    rw [unchanged]
    cases payload : node.component.payload with
    | data addr => exact ⟨_, rfl, rfl, node, here, contains.type, contains.len, .inl rfl⟩
    | _ => exact ⟨_, rfl, rfl, node, here, contains⟩
  · have bytes : fs.bytes (.data addr) = content := by rw [Fs.bytes, data, Option.getD_some]
    rw [payload, bytes]
    refine ⟨_, rfl, rfl, node, here, contains.type, ?_, .inr ⟨addr, payload, ?_⟩⟩
    · rw [contains.len, length_splice (by omega), List.length_take]
      omega
    · exact Heap.modify_self.trans (by rw [data, Option.map_some])

/-- What was appended only to be written over does not show. -/
theorem splice_append {extra bytes : List UInt8} {pos : ℕ} (inside : pos ≤ content.length)
    (covered : extra = [] ∨ (content ++ extra).length = pos + bytes.length) :
    splice (content ++ extra) pos bytes = splice content pos bytes := by
  rcases covered with rfl | covered
  · rw [List.append_nil]
  · have length := covered
    rw [List.length_append] at length
    rw [splice_of_le covered.le, splice_of_le (by omega), List.take_append_of_le_length inside]

/-- The state after the handle `f` has moved by `n`. -/
def Fs.move (fs : Fs) (f n : ℕ) : Fs :=
  { fs with files := fs.files.modify f fun handle =>
    { handle with fPos := (handle.fPos + n) % 2 ^ 64 } }

theorem Fs.move_self {f n : ℕ} {handle : File} (opened : fs.files f = some handle)
    (no_wrap : handle.fPos + n < 2 ^ 64) :
    (fs.move f n).files f = some { handle with fPos := handle.fPos + n } := by
  change fs.files.modify f _ f = _
  rw [Heap.modify_self, opened, Option.map_some, Nat.mod_eq_of_lt no_wrap]

theorem Fs.move_of_ne {f n h : ℕ} (ne : h ≠ f) : (fs.move f n).files h = fs.files h :=
  Heap.modify_of_ne ne

/-- The content does not depend on the open files. -/
theorem Holds.with_files (holds : Holds fs v content) (files : Heap File) :
    Holds { fs with files := files } v content := by
  obtain ⟨node, here, contains⟩ := holds
  exact ⟨node, here, contains.type, contains.len, contains.data⟩

/-- **`tmpfs_write`** writes as much as fits below the limit. -/
theorem tmpfsWrite_eq {f n : ℕ} {handle : File} (chunk : Chunk)
    (opened : fs.files f = some handle) (points : handle.vnode = some v)
    (holds : Holds fs v content) (inside : handle.fPos ≤ content.length)
    (bounded : content.length ≤ tmpfsMaxFileSize) (no_wrap : handle.fPos + len < 2 ^ 64)
    (taken : n = writable tmpfsMaxFileSize handle.fPos len) (source : n ≤ buf.length) :
    ∃ fs', tmpfsWrite chunk (some f) buf len fs = .ok ((n : ℤ), fs') ∧
      Holds fs' v (splice content handle.fPos (buf.take n)) ∧
      fs'.files = (fs.move f n).files := by
  have max_size : tmpfsMaxFileSize = 4096 := rfl
  obtain ⟨node, here, contains⟩ := holds
  have final : (handle.fPos + len) % 2 ^ 64 = handle.fPos + len :=
    Nat.mod_eq_of_lt no_wrap
  -- the difference to the limit does not wrap around, as the file is within it
  have write_able : (if handle.fPos + len ≥ tmpfsMaxFileSize
      then subU64 tmpfsMaxFileSize handle.fPos else len) = n := by
    rw [subU64_of_le (inside.trans bounded) (by decide), taken, writable]
    split_ifs <;> omega
  rw [writable] at taken
  obtain ⟨fs₁, extra, grown, files₁, ⟨node₁, here₁, contains₁⟩, length₁⟩ :=
    grow_eq chunk (handle.fPos + len) here contains bounded
  have fits : handle.fPos + n ≤ (content ++ extra).length := by omega
  have small : n < 2 ^ 31 := by omega
  obtain ⟨fs₂, stored, files₂, holds₂⟩ := storeData_eq here₁ contains₁ source fits
  have files : fs₂.files = fs.files := files₂.trans files₁
  have opened₂ : (fs₂.files f).isSome := by rw [files, opened]; rfl
  have type : ¬ node.component.type ≠ .file := not_not.mpr contains.type
  rw [splice_append inside] at holds₂
  · rw [tmpfsWrite, Heap.get_some opened, outcome_bind_ok, points]
    dsimp only
    rw [Fs.node_eq_ok.mpr here, outcome_bind_ok, if_neg type, final, grown, outcome_bind_ok,
      write_able, Fs.node_eq_ok.mpr here₁, outcome_bind_ok, stored, outcome_bind_ok,
      Heap.write_some opened₂, outcome_bind_ok, toInt32_of_lt small]
    exact ⟨_, rfl, holds₂.with_files _, by rw [files]; rfl⟩
  · rw [List.length_append] at length₁ ⊢
    rw [List.length_take, ← List.length_eq_zero_iff]
    omega

/-! ## `tmpfs_read` -/

/-- **`tmpfs_read`** returns the number of bytes left, and copies as many bytes from the
start of the data: the position of the handle is not added to `component->data`. -/
theorem tmpfsRead_eq {f n : ℕ} {handle : File} (opened : fs.files f = some handle)
    (points : handle.vnode = some v) (holds : Holds fs v content)
    (inside : handle.fPos ≤ content.length) (small : content.length < 2 ^ 64)
    (no_wrap : handle.fPos + len < 2 ^ 64) (left : n = readable content handle.fPos len)
    (room : n ≤ buf.length) :
    tmpfsRead (some f) buf len fs =
      .ok (toInt32 n, content.take n ++ buf.drop n, fs.move f n) := by
  obtain ⟨node, here, contains⟩ := holds
  have final : (handle.fPos + len) % 2 ^ 64 = handle.fPos + len :=
    Nat.mod_eq_of_lt no_wrap
  have read_able : (if handle.fPos + len ≥ content.length
      then subU64 content.length handle.fPos else len) = n := by
    rw [subU64_of_le inside small, left, readable]
    split_ifs <;> omega
  rw [readable] at left
  have all : n ≤ content.length := by omega
  have room' : 0 + n ≤ buf.length := by omega
  obtain ⟨source, bytes⟩ := contains.take all
  have opened' : (fs.files f).isSome := by rw [opened]; rfl
  have type : ¬ node.component.type ≠ .file := not_not.mpr contains.type
  have length : (content.take n).length = n := List.length_take_of_le all
  rw [tmpfsRead, Heap.get_some opened, outcome_bind_ok, points]
  dsimp only
  rw [Fs.node_eq_ok.mpr here, outcome_bind_ok, if_neg type, final, contains.len, read_able,
    memcpy_eq source room', outcome_bind_ok, Heap.write_some opened', outcome_bind_ok,
    bytes, splice_zero, length]
  rfl

end BareMetal.Vfs
