import BareMetal.Vfs.Copy

/-!
# Counts of any size

`sysc_write` and `sysc_read` pass the user's count on, and `tmpfs_write` and `tmpfs_read`
clamp the end of the access, `f_pos + len`. Where this sum wraps around it is small, nothing
is clamped, and the whole count is copied.

## Main results

* `io_lengths_iff` — a call takes as many bytes as there are, and no more, exactly when the
  end of the access does not wrap around and the result fits an `int`
-/

namespace BareMetal.Vfs

open CS ByteFile

variable {fs fs' : Fs} {v f start count i : ℕ} {content buf src dest : List UInt8} {handle : File}

/-! ## The laws -/

/-- `tmpfs_write` takes and returns as many bytes as fit, stores them in the file and
moves the handle behind them. -/
def WritesExactly (chunk : Chunk) (fs : Fs) (v f : ℕ) (handle : File) (content buf : List UInt8)
    (count : ℕ) : Prop :=
  ∃ fs', tmpfsWrite chunk (some f) buf count fs =
      .ok ((writable tmpfsMaxFileSize handle.fPos count : ℕ), fs') ∧
    let n := writable tmpfsMaxFileSize handle.fPos count
    let content' := splice content handle.fPos (buf.take n)
    Holds fs' v content' ∧ fs'.files f = some { handle with fPos := handle.fPos + n } ∧
      handle.fPos + n ≤ content'.length

/-- `tmpfs_read` copies and returns as many bytes as are left, and moves the handle behind
them. -/
def ReadsExactly (fs : Fs) (v f : ℕ) (handle : File) (content buf : List UInt8) (count : ℕ) :
    Prop :=
  ∃ bytes fs', tmpfsRead (some f) buf count fs =
      .ok ((readable content handle.fPos count : ℕ),
        bytes ++ buf.drop (readable content handle.fPos count), fs') ∧
    let n := readable content handle.fPos count
    bytes.length = n ∧ Holds fs' v content ∧
      fs'.files f = some { handle with fPos := handle.fPos + n } ∧
      handle.fPos + n ≤ content.length

/-! ## Copies of too many bytes -/

/-- A copy that returns has stayed inside its destination. -/
theorem memcpyLoop_fits {bytes : List UInt8}
    (returns : memcpyLoop src start count i dest = .ok bytes) :
    count = 0 ∨ start + i + count ≤ dest.length := by
  induction count generalizing i dest with
  | zero => exact .inl rfl
  | succ count ih =>
    rw [memcpyLoop] at returns
    cases read : src[i]? with
    | none => simp [read] at returns
    | some byte =>
      rw [read] at returns
      dsimp only at returns
      by_cases inside : start + i < dest.length
      · rw [if_pos inside] at returns
        have rest := ih returns
        rw [List.length_set] at rest
        omega
      · simp [if_neg inside] at returns

theorem memcpy_fits {bytes : List UInt8} (returns : memcpy dest start src count = .ok bytes) :
    count = 0 ∨ start + count ≤ dest.length :=
  memcpyLoop_fits returns

/-! ## Ends that wrap around -/

/-- The end of an access that wraps around lies below the position of the handle. -/
private theorem wrapped_end {pos : ℕ} (wraps : 2 ^ 64 ≤ pos + count) (large : count < 2 ^ 64)
    (low : pos < 2 ^ 64) : (pos + count) % 2 ^ 64 < pos := by
  omega

/-- A write whose end wraps around runs out of the data. -/
theorem tmpfsWrite_wraps (chunk : Chunk) (opened : fs.files f = some handle)
    (points : handle.vnode = some v) (holds : Holds fs v content)
    (inside : handle.fPos ≤ content.length) (bounded : content.length ≤ tmpfsMaxFileSize)
    (large : count < 2 ^ 64) (wraps : 2 ^ 64 ≤ handle.fPos + count) (r : ℤ × Fs) :
    tmpfsWrite chunk (some f) buf count fs ≠ .ok r := by
  intro returns
  have max_size : tmpfsMaxFileSize = 4096 := rfl
  obtain ⟨node, here, contains⟩ := holds
  have type : ¬ node.component.type ≠ .file := not_not.mpr contains.type
  have final := wrapped_end wraps large (by omega)
  have len := contains.len
  -- nothing grows and nothing is clamped
  have stays : ¬ ((handle.fPos + count) % 2 ^ 64 > node.component.len ∧
      node.component.len < tmpfsMaxFileSize) := by omega
  have unclamped : ¬ (handle.fPos + count) % 2 ^ 64 ≥ tmpfsMaxFileSize := by omega
  rw [tmpfsWrite, Heap.get_some opened, outcome_bind_ok, points] at returns
  dsimp only at returns
  rw [Fs.node_eq_ok.mpr here, outcome_bind_ok, if_neg type, grow, if_neg stays, outcome_pure,
    outcome_bind_ok, if_neg unclamped, Fs.node_eq_ok.mpr here, outcome_bind_ok] at returns
  obtain ⟨stored, store, -⟩ := outcome_bind_eq_ok.mp returns
  rw [storeData] at store
  obtain ⟨bytes, copied, -⟩ := outcome_bind_eq_ok.mp store
  -- so the copy would run over the end of the data
  rcases contains.data with rfl | ⟨addr, payload, data⟩
  · simp at inside
    omega
  · rw [payload, Fs.bytes, data, Option.getD_some] at copied
    rcases memcpy_fits copied with none | fits
    · omega
    · omega

/-- A read whose end wraps around moves the handle back. -/
theorem tmpfsRead_wraps (opened : fs.files f = some handle) (points : handle.vnode = some v)
    (holds : Holds fs v content) (inside : handle.fPos ≤ content.length)
    (small : content.length < 2 ^ 64) (large : count < 2 ^ 64)
    (wraps : 2 ^ 64 ≤ handle.fPos + count) {result : ℤ} {buf' : List UInt8}
    (returns : tmpfsRead (some f) buf count fs = .ok (result, buf', fs')) :
    ∃ handle', fs'.files f = some handle' ∧ handle'.fPos < handle.fPos := by
  obtain ⟨node, here, contains⟩ := holds
  have type : ¬ node.component.type ≠ .file := not_not.mpr contains.type
  have final := wrapped_end wraps large (by omega)
  have len := contains.len
  have unclamped : ¬ (handle.fPos + count) % 2 ^ 64 ≥ node.component.len := by omega
  have opened' : (fs.files f).isSome := by rw [opened]; rfl
  rw [tmpfsRead, Heap.get_some opened, outcome_bind_ok, points] at returns
  dsimp only at returns
  rw [Fs.node_eq_ok.mpr here, outcome_bind_ok, if_neg type, if_neg unclamped] at returns
  obtain ⟨bytes, -, returns⟩ := outcome_bind_eq_ok.mp returns
  rw [Heap.write_some opened', outcome_bind_ok] at returns
  simp only [outcome_pure, Except.ok.injEq, Prod.mk.injEq] at returns
  obtain ⟨-, -, rfl⟩ := returns
  exact ⟨_, Heap.modify_self.trans (by rw [opened, Option.map_some]), final⟩

/-! ## The exact condition -/

/-- **Counts.** Through a handle inside a regular file, a write takes exactly what fits
below the limit when its end does not wrap around, and a read delivers exactly what is left
when, besides, the number fits an `int`. The buffer must hold the bytes that are copied. -/
theorem io_lengths_iff (chunk : Chunk) (opened : fs.files f = some handle)
    (points : handle.vnode = some v) (holds : Holds fs v content)
    (inside : handle.fPos ≤ content.length) (large : count < 2 ^ 64) :
    (content.length ≤ tmpfsMaxFileSize → writable tmpfsMaxFileSize handle.fPos count ≤ buf.length →
      (WritesExactly chunk fs v f handle content buf count ↔ handle.fPos + count < 2 ^ 64)) ∧
    (content.length < 2 ^ 64 → readable content handle.fPos count ≤ buf.length →
      (ReadsExactly fs v f handle content buf count ↔
        handle.fPos + count < 2 ^ 64 ∧ readable content handle.fPos count < 2 ^ 31)) := by
  constructor
  · intro bounded room
    constructor
    · rintro ⟨fs', returns, -⟩
      -- a write whose end wraps around returns something else
      by_contra wraps
      exact tmpfsWrite_wraps chunk opened points holds inside bounded large (not_lt.mp wraps) _
        returns
    · intro no_wrap
      obtain ⟨fs', returns, holds', files⟩ :=
        tmpfsWrite_eq chunk opened points holds inside bounded no_wrap rfl room
      have taken : (buf.take (writable tmpfsMaxFileSize handle.fPos count)).length =
          writable tmpfsMaxFileSize handle.fPos count := List.length_take_of_le room
      refine ⟨fs', returns, holds', ?_, ?_⟩
      · rw [files, Fs.move_self opened (by rw [writable]; omega)]
      · rw [length_splice inside, taken]
        omega
  · intro small room
    constructor
    · rintro ⟨bytes, fs', returns, -, -, moved, -⟩
      -- a read whose end wraps around moves the handle back
      by_cases no_wrap : handle.fPos + count < 2 ^ 64
      · refine ⟨no_wrap, ?_⟩
        rw [tmpfsRead_eq opened points holds inside small no_wrap rfl room, Except.ok.injEq,
          Prod.mk.injEq] at returns
        exact toInt32_eq_iff.mp returns.1
      · obtain ⟨handle', back, less⟩ := tmpfsRead_wraps opened points holds inside small large
          (not_lt.mp no_wrap) returns
        obtain rfl := Option.some.inj (moved.symm.trans back)
        simp only at less
        omega
    · rintro ⟨no_wrap, narrow⟩
      have returns := tmpfsRead_eq opened points holds inside small no_wrap rfl room
      rw [toInt32_of_lt narrow] at returns
      have left : readable content handle.fPos count ≤ content.length - handle.fPos :=
        Nat.min_le_right _ _
      refine ⟨_, _, returns, List.length_take_of_le (by omega), holds.with_files _, ?_, by omega⟩
      exact Fs.move_self opened (by omega)

/-- A file of one byte with a handle behind it. -/
def oneByte : Fs where
  nodes := [⟨none, .tmpfs, .tmpfs, ⟨[97], .file, 1, .data 0x10⟩⟩]
  buffers := fun addr => if addr = 0x10 then some [7] else none
  files := fun addr => if addr = 0x20 then some ⟨some 0, 1, .tmpfs, 0⟩ else none
  uartIn := []
  uartOut := []

theorem oneByte_holds : Holds oneByte 0 [7] := ⟨_, rfl, rfl, rfl, .inr ⟨0x10, rfl, rfl⟩⟩

theorem oneByte_opened : oneByte.files 0x20 = some ⟨some 0, 1, .tmpfs, 0⟩ := rfl

/-- Two bytes are written behind the first one, and nothing is left to read. -/
theorem oneByte_lengths :
    WritesExactly ⟨0x30, fun _ => 0⟩ oneByte 0 0x20 ⟨some 0, 1, .tmpfs, 0⟩ [7] [8, 9] 2 ∧
      ReadsExactly oneByte 0 0x20 ⟨some 0, 1, .tmpfs, 0⟩ [7] [8, 9] 2 := by
  constructor
  · exact ((io_lengths_iff _ oneByte_opened rfl oneByte_holds (by decide) (by decide)).1
      (by decide) (by decide)).mpr (by decide)
  · exact ((io_lengths_iff ⟨0x30, fun _ => 0⟩ oneByte_opened rfl oneByte_holds (by decide)
      (by decide)).2 (by decide) (by decide)).mpr (by decide)

/-- With the largest count the end of the access is the start of the file, and both calls
copy far more than the byte. -/
theorem oneByte_runs_over :
    ¬ WritesExactly ⟨0x30, fun _ => 0⟩ oneByte 0 0x20 ⟨some 0, 1, .tmpfs, 0⟩ [7]
        (List.replicate 4095 0) (2 ^ 64 - 1) ∧
      ¬ ReadsExactly oneByte 0 0x20 ⟨some 0, 1, .tmpfs, 0⟩ [7] [] (2 ^ 64 - 1) := by
  constructor
  · rintro ⟨fs', returns, -⟩
    exact tmpfsWrite_wraps _ oneByte_opened rfl oneByte_holds (by decide) (by decide) (by decide)
      (by decide) _ returns
  · rintro ⟨bytes, fs', returns, -, -, moved, -⟩
    obtain ⟨handle', back, less⟩ := tmpfsRead_wraps oneByte_opened rfl oneByte_holds (by decide)
      (by decide) (by decide) (by decide) returns
    obtain rfl := Option.some.inj (moved.symm.trans back)
    simp only at less
    omega

end BareMetal.Vfs
