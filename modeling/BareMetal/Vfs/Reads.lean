import BareMetal.Vfs.Copy

/-!
# Sequences of reads

Successive reads through one handle should deliver successive pieces of the content.
`tmpfs_read`, which `initramfs_read` and `vfs_read` call, returns the right numbers, but
always copies from the start of the content.

## Main results

* `reads_exact_iff` — the reads deliver the pieces exactly when the content repeats
  its beginning at the position of each read
-/

namespace BareMetal.Vfs

open CS ByteFile

variable {fs fs' : Fs} {v f pos : ℕ} {content : List UInt8} {bufs : List (List UInt8)}
  {handle : File}

/-! ## Pieces of a content -/

/-- The pieces that reads into buffers of these lengths should deliver, from `pos` on. -/
def pieces (content : List UInt8) : ℕ → List ℕ → List (List UInt8)
  | _, [] => []
  | pos, len :: lens =>
    (content.drop pos).take (readable content pos len) ::
      pieces content (pos + readable content pos len) lens

/-- What the reads should return, with the buffers after them. -/
def expected (content : List UInt8) : ℕ → List (List UInt8) → List (ℤ × List UInt8)
  | _, [] => []
  | pos, buf :: bufs =>
    let n := readable content pos buf.length
    ((n : ℤ), (content.drop pos).take n ++ buf.drop n) :: expected content (pos + n) bufs

/-- At each read the content repeats its beginning, and the number of bytes read fits an
`int`. -/
def Repeats (content : List UInt8) : ℕ → List (List UInt8) → Prop
  | _, [] => True
  | pos, buf :: bufs =>
    (readable content pos buf.length < 2 ^ 31 ∧
      (content.drop pos).take (readable content pos buf.length) =
        content.take (readable content pos buf.length)) ∧
      Repeats content (pos + readable content pos buf.length) bufs

/-- No end of a read wraps around. -/
def NoWrap (content : List UInt8) : ℕ → List (List UInt8) → Prop
  | _, [] => True
  | pos, buf :: bufs =>
    pos + buf.length < 2 ^ 64 ∧ NoWrap content (pos + readable content pos buf.length) bufs

/-! ## Reads through one handle -/

/-- The type of `tmpfs_read`, `initramfs_read` and `vfs_read`. -/
abbrev ReadFn : Type := Option ℕ → List UInt8 → ℕ → Fs → Outcome (ℤ × List UInt8 × Fs)

/-- The reads into the buffers, one after the other. -/
def readAll (read : ReadFn) (f : ℕ) :
    List (List UInt8) → Fs → Outcome (List (ℤ × List UInt8) × Fs)
  | [], fs => .ok ([], fs)
  | buf :: bufs, fs => do
    let (result, buf, fs) ← read (some f) buf buf.length fs
    let (results, fs) ← readAll read f bufs fs
    return ((result, buf) :: results, fs)

/-- What the reads do return. -/
def returned (content : List UInt8) : ℕ → List (List UInt8) → List (ℤ × List UInt8)
  | _, [] => []
  | pos, buf :: bufs =>
    let n := readable content pos buf.length
    (toInt32 n, content.take n ++ buf.drop n) :: returned content (pos + n) bufs

theorem returned_eq_expected_iff :
    returned content pos bufs = expected content pos bufs ↔ Repeats content pos bufs := by
  induction bufs generalizing pos with
  | nil => exact iff_of_true rfl trivial
  | cons buf bufs ih =>
    rw [returned, expected, Repeats, ← ih]
    simp only [List.cons.injEq, Prod.mk.injEq, List.append_cancel_right_eq, toInt32_eq_iff]
    rw [eq_comm (a := content.take _)]

/-- Through handles with the operations `kind` the function does what `tmpfs_read` does. -/
def ReadsFiles (read : ReadFn) (kind : FsKind) : Prop :=
  ∀ {fs : Fs} {f : ℕ} {handle : File} {buf : List UInt8} {len : ℕ}, fs.files f = some handle →
    handle.fOps = kind → read (some f) buf len fs = tmpfsRead (some f) buf len fs

theorem tmpfsRead_readsFiles (kind : FsKind) : ReadsFiles tmpfsRead kind := fun _ _ => rfl

theorem initramfsRead_readsFiles (kind : FsKind) : ReadsFiles initramfsRead kind :=
  fun _ _ => rfl

theorem vfsRead_readsFiles {kind : FsKind} (regular : kind ≠ .devfs) :
    ReadsFiles vfsRead kind := by
  intro fs f handle buf len opened ops
  rw [vfsRead, Heap.get_some opened, outcome_bind_ok, ops]
  cases kind with
  | tmpfs => rfl
  | initramfs => rfl
  | devfs => exact absurd rfl regular

/-- The results of the reads, by induction on the buffers: each read moves the handle. -/
theorem readAll_eq {read : ReadFn} {kind : FsKind} (reads : ReadsFiles read kind)
    (opened : fs.files f = some handle) (points : handle.vnode = some v)
    (ops : handle.fOps = kind) (at_pos : handle.fPos = pos) (holds : Holds fs v content)
    (inside : pos ≤ content.length) (small : content.length < 2 ^ 64)
    (no_wrap : NoWrap content pos bufs) :
    ∃ fs', readAll read f bufs fs = .ok (returned content pos bufs, fs') := by
  induction bufs generalizing fs handle pos with
  | nil => exact ⟨fs, rfl⟩
  | cons buf bufs ih =>
    obtain ⟨here, later⟩ := no_wrap
    subst at_pos
    have bounded : handle.fPos + readable content handle.fPos buf.length ≤ content.length := by
      rw [readable]
      omega
    have moved := Fs.move_self (n := readable content handle.fPos buf.length) opened (by omega)
    obtain ⟨fs', rest⟩ := ih moved points ops rfl (holds.with_files _) bounded later
    rw [readAll, reads opened ops, tmpfsRead_eq opened points holds inside small here rfl
      (Nat.min_le_left _ _), outcome_bind_ok]
    dsimp only
    rw [rest]
    exact ⟨fs', rfl⟩

/-! ## The exact condition -/

/-- `tmpfs_open` opens a handle at the start of the file. -/
theorem tmpfsOpen_returns {flags : ℕ} (returns : tmpfsOpen f v flags fs = .ok (0, fs')) :
    ∃ node, fs.nodes[v]? = some node ∧
      fs' = { fs with files := fs.files.alloc f ⟨some v, 0, node.fOps, flags⟩ } := by
  obtain ⟨node, read, returns⟩ := outcome_bind_eq_ok.mp returns
  split_ifs at returns with other
  · simp at returns
  · simp only [outcome_pure, Except.ok.injEq, Prod.mk.injEq, true_and] at returns
    exact ⟨node, Fs.node_eq_ok.mp read, returns.symm⟩

/-- **Sequential reads.** Reads through a new handle return the successive pieces of the
content exactly when, at each of them, the content repeats its beginning. This holds of
`tmpfs_read` and `initramfs_read`, and of `vfs_read` for files that are no device. -/
theorem reads_exact_iff {flags : ℕ} (holds : Holds fs v content)
    (small : content.length < 2 ^ 64) (returns : tmpfsOpen f v flags fs = .ok (0, fs'))
    (no_wrap : NoWrap content 0 bufs) {read : ReadFn}
    (through : read = tmpfsRead ∨ read = initramfsRead ∨
      read = vfsRead ∧ ∀ node, fs.nodes[v]? = some node → node.fOps ≠ .devfs) :
    (∃ fs'', readAll read f bufs fs' = .ok (expected content 0 bufs, fs'')) ↔
      Repeats content 0 bufs := by
  obtain ⟨node, here, rfl⟩ := tmpfsOpen_returns returns
  have reads : ReadsFiles read node.fOps := by
    rcases through with rfl | rfl | ⟨rfl, regular⟩
    · exact tmpfsRead_readsFiles _
    · exact initramfsRead_readsFiles _
    · exact vfsRead_readsFiles (regular node here)
  let opened : Fs := { fs with files := fs.files.alloc f ⟨some v, 0, node.fOps, flags⟩ }
  have at_start : opened.files f = some ⟨some v, 0, node.fOps, flags⟩ := Heap.alloc_self
  obtain ⟨fs'', result⟩ := readAll_eq reads at_start rfl rfl rfl (holds.with_files opened.files)
    (Nat.zero_le _) small no_wrap
  rw [← returned_eq_expected_iff, result]
  simp

/-- A file of the bytes 7, 8, 7. -/
def repeating : Fs where
  nodes := [⟨none, .initramfs, .initramfs, ⟨[97], .file, 3, .data 0x10⟩⟩]
  buffers := fun addr => if addr = 0x10 then some [7, 8, 7] else none
  files := fun _ => none
  uartIn := []
  uartOut := []

/-- Two reads of two bytes return them, as the second begins like the first. -/
theorem repeating_exact : ∃ fs', tmpfsOpen 0x20 0 0 repeating = .ok (0, fs') ∧
    ∃ fs'', readAll vfsRead 0x20 [[0, 0], [0, 0]] fs' = .ok ([(2, [7, 8]), (1, [7, 0])], fs'') := by
  have holds : Holds repeating 0 [7, 8, 7] := ⟨_, rfl, rfl, rfl, .inr ⟨0x10, rfl, rfl⟩⟩
  have opened : tmpfsOpen 0x20 0 0 repeating = .ok (0, _) := rfl
  have regular : ∀ node, repeating.nodes[0]? = some node → node.fOps ≠ .devfs := by
    rintro node here
    obtain rfl := Option.some.inj here
    simp
  have no_wrap : NoWrap [7, 8, 7] 0 [[0, 0], [0, 0]] := ⟨by decide, by decide, trivial⟩
  have repeats : Repeats [7, 8, 7] 0 [[0, 0], [0, 0]] :=
    ⟨⟨by decide, by decide⟩, ⟨by decide, by decide⟩, trivial⟩
  exact ⟨_, opened, (reads_exact_iff holds (by decide) opened no_wrap
    (.inr (.inr ⟨rfl, regular⟩))).mpr repeats⟩

/-- A file of two different bytes. -/
def twoBytes : Fs where
  nodes := [⟨none, .initramfs, .initramfs, ⟨[97], .file, 2, .data 0x10⟩⟩]
  buffers := fun addr => if addr = 0x10 then some [1, 2] else none
  files := fun _ => none
  uartIn := []
  uartOut := []

/-- Two reads of one byte return the first byte twice. -/
theorem twoBytes_not_exact : ∃ fs', tmpfsOpen 0x20 0 0 twoBytes = .ok (0, fs') ∧
    expected [1, 2] 0 [[0], [0]] = [(1, [1]), (1, [2])] ∧
    (∃ fs'', readAll tmpfsRead 0x20 [[0], [0]] fs' = .ok ([(1, [1]), (1, [1])], fs'')) ∧
    ¬ ∃ fs'', readAll tmpfsRead 0x20 [[0], [0]] fs' =
      .ok (expected [1, 2] 0 [[0], [0]], fs'') := by
  have reads : ∃ fs' fs'', tmpfsOpen 0x20 0 0 twoBytes = .ok (0, fs') ∧
      readAll tmpfsRead 0x20 [[0], [0]] fs' = .ok ([(1, [1]), (1, [1])], fs'') :=
    ⟨_, _, rfl, rfl⟩
  obtain ⟨fs', fs'', opened, actual⟩ := reads
  refine ⟨fs', opened, by decide, ⟨fs'', actual⟩, ?_⟩
  rintro ⟨fs₂, wanted⟩
  rw [actual, Except.ok.injEq, Prod.mk.injEq] at wanted
  exact absurd wanted.1 (by decide)

end BareMetal.Vfs
