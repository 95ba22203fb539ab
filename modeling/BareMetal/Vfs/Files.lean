import BareMetal.CS.Transition
import BareMetal.Vfs.Copy

/-!
# tmpfs files refine byte strings

The component of a regular file and the handles opened on it represent a `ByteFile`,
and `tmpfs_open`, `tmpfs_write` and `tmpfs_read` simulate its operations.

## Main results

* `Run.refines` — every run of calls through any number of handles is a run of the
  byte string, with the same results
-/

namespace BareMetal.Vfs

open CS ByteFile

variable {fs fs' : Fs} {v : ℕ}

/-- A byte string under the limit of tmpfs. -/
abbrev TmpFile : Type := ByteFile tmpfsMaxFileSize

/-- The vnode holds the content, and the handles on it stand at these positions. -/
structure Represents (fs : Fs) (v : ℕ) (file : TmpFile) : Prop where
  holds : Holds fs v file.content
  handles : ∀ h pos, file.position h = some pos ↔
    ∃ handle, fs.files h = some handle ∧ handle.vnode = some v ∧ handle.fPos = pos

/-- One call through a handle of the vnode, with a buffer of `len` bytes whose end does
not wrap around. -/
inductive Step (v : ℕ) : Fs → Event → Fs → Prop
  | openHandle {fs fs' : Fs} {target flags : ℕ} (fresh : fs.files target = none)
      (returns : tmpfsOpen target v flags fs = .ok (0, fs')) : Step v fs (.openHandle target) fs'
  | write {fs fs' : Fs} {chunk : Chunk} {f : ℕ} {handle : File} {buf : List UInt8} {result : ℤ}
      (opened : fs.files f = some handle) (points : handle.vnode = some v)
      (no_wrap : handle.fPos + buf.length < 2 ^ 64) (fresh : fs.buffers chunk.addr = none)
      (returns : tmpfsWrite chunk (some f) buf buf.length fs = .ok (result, fs')) :
      Step v fs (.write f buf result) fs'
  | read {fs fs' : Fs} {f : ℕ} {handle : File} {buf buf' : List UInt8} {result : ℤ}
      (opened : fs.files f = some handle) (points : handle.vnode = some v)
      (no_wrap : handle.fPos + buf.length < 2 ^ 64)
      (returns : tmpfsRead (some f) buf buf.length fs = .ok (result, buf', fs')) :
      Step v fs (.read f buf.length result) fs'

namespace Represents

variable {file : TmpFile} {f : ℕ} {handle : File}

theorem position (rep : Represents fs v file) (opened : fs.files f = some handle)
    (points : handle.vnode = some v) : file.position f = some handle.fPos :=
  (rep.handles f _).mpr ⟨handle, opened, points, rfl⟩

/-- The handles after one of them has moved by `n`. -/
theorem handles_move (rep : Represents fs v file) (opened : fs.files f = some handle)
    (points : handle.vnode = some v) {n : ℕ} (no_wrap : handle.fPos + n < 2 ^ 64) (h pos : ℕ) :
    Function.update file.position f (some (handle.fPos + n)) h = some pos ↔
      ∃ g, (fs.move f n).files h = some g ∧ g.vnode = some v ∧ g.fPos = pos := by
  by_cases same : h = f
  · subst same
    rw [Function.update_self, Fs.move_self opened no_wrap]
    constructor
    · intro moved
      exact ⟨_, rfl, points, Option.some.inj moved⟩
    · rintro ⟨g, at_h, -, rfl⟩
      rw [← Option.some.inj at_h]
  · rw [Function.update_of_ne same, Fs.move_of_ne same, rep.handles]

/-- `tmpfs_open` opens a handle at the start. -/
theorem openHandle {target flags : ℕ} (rep : Represents fs v file)
    (returns : tmpfsOpen target v flags fs = .ok (0, fs')) :
    Represents fs' v (file.openHandle target) := by
  obtain ⟨node, here, contains⟩ := rep.holds
  have type : ¬ node.component.type ≠ .file := not_not.mpr contains.type
  rw [tmpfsOpen, Fs.node_eq_ok.mpr here, outcome_bind_ok, if_neg type] at returns
  simp only [outcome_pure, Except.ok.injEq, Prod.mk.injEq, true_and] at returns
  subst returns
  refine ⟨rep.holds.with_files _, fun h pos => ?_⟩
  by_cases same : h = target
  · subst same
    simp [ByteFile.openHandle]
  · simp only [ByteFile.openHandle, Function.update_of_ne same, Heap.alloc_of_ne same]
    exact rep.handles h pos

/-- `tmpfs_write` through a handle writes at its position. -/
theorem write {buf : List UInt8} (rep : Represents fs v file) (chunk : Chunk)
    (opened : fs.files f = some handle) (points : handle.vnode = some v)
    (no_wrap : handle.fPos + buf.length < 2 ^ 64) :
    ∃ fs', tmpfsWrite chunk (some f) buf buf.length fs =
        .ok ((writable tmpfsMaxFileSize handle.fPos buf.length : ℕ), fs') ∧
      Represents fs' v (file.write f handle.fPos buf (rep.position opened points)) := by
  have inside := file.inside (rep.position opened points)
  obtain ⟨fs', returns, holds, files⟩ :=
    tmpfsWrite_eq chunk opened points rep.holds inside file.bounded no_wrap rfl
      (Nat.min_le_left _ _)
  refine ⟨fs', returns, holds, fun h pos => ?_⟩
  rw [files]
  refine rep.handles_move opened points ?_ h pos
  rw [writable]
  omega

/-- `tmpfs_read` through a handle moves it. -/
theorem read {buf : List UInt8} (rep : Represents fs v file)
    (opened : fs.files f = some handle) (points : handle.vnode = some v)
    (no_wrap : handle.fPos + buf.length < 2 ^ 64) :
    ∃ buf' fs', tmpfsRead (some f) buf buf.length fs =
        .ok ((readable file.content handle.fPos buf.length : ℕ), buf', fs') ∧
      Represents fs' v (file.read f handle.fPos buf.length (rep.position opened points)) := by
  have inside := file.inside (rep.position opened points)
  have bounded : file.content.length ≤ 4096 := file.bounded
  have small : readable file.content handle.fPos buf.length < 2 ^ 31 := by
    rw [readable]
    omega
  have returns := tmpfsRead_eq opened points rep.holds inside (by omega) no_wrap rfl
    (Nat.min_le_left _ _)
  rw [toInt32_of_lt small] at returns
  refine ⟨_, _, returns, rep.holds.with_files _, fun h pos => ?_⟩
  refine rep.handles_move opened points ?_ h pos
  rw [readable]
  omega

/-- **Simulation.** A call does to the byte string what its operation does. -/
theorem step {e : Event} (rep : Represents fs v file) (step : Step v fs e fs') :
    ∃ file', ByteFile.Step file e file' ∧ Represents fs' v file' := by
  cases step with
  | openHandle fresh returns => exact ⟨_, .openHandle file _, rep.openHandle returns⟩
  | @write _ chunk f handle buf result opened points no_wrap fresh returns =>
    obtain ⟨fs₁, returns₁, rep₁⟩ := rep.write chunk opened points no_wrap
    rw [returns₁, Except.ok.injEq, Prod.mk.injEq] at returns
    obtain ⟨rfl, rfl⟩ := returns
    exact ⟨_, .write file buf (rep.position opened points), rep₁⟩
  | @read _ f handle buf buf' result opened points no_wrap returns =>
    obtain ⟨buf₁, fs₁, returns₁, rep₁⟩ := rep.read opened points no_wrap
    rw [returns₁, Except.ok.injEq, Prod.mk.injEq, Prod.mk.injEq] at returns
    obtain ⟨rfl, -, rfl⟩ := returns
    exact ⟨_, .read file buf.length (rep.position opened points), rep₁⟩

end Represents

/-- **tmpfs files are byte strings.** Every run of `tmpfs_open`, `tmpfs_write` and
`tmpfs_read` through handles of a regular file is a run of its byte string, with the same
results. The file never shrinks, every handle stands inside it and it stays under the
limit; every further write returns how much it takes and splices it into the content. -/
theorem Run.refines {w : List Event} {file : TmpFile} (start : Represents fs v file)
    (steps : Run (Step v) fs w fs') :
    ∃ file' : TmpFile, Run ByteFile.Step file w file' ∧ Holds fs' v file'.content ∧
      file.content.length ≤ file'.content.length ∧
      file'.content.length ≤ tmpfsMaxFileSize ∧
      ∀ f handle, fs'.files f = some handle → handle.vnode = some v →
        handle.fPos ≤ file'.content.length ∧
        ∀ chunk buf, handle.fPos + buf.length < 2 ^ 64 →
          ∃ fs'', tmpfsWrite chunk (some f) buf buf.length fs' =
              .ok ((writable tmpfsMaxFileSize handle.fPos buf.length : ℕ), fs'') ∧
            Holds fs'' v (splice file'.content handle.fPos
              (buf.take (writable tmpfsMaxFileSize handle.fPos buf.length))) := by
  obtain ⟨file', abstract, rep⟩ := steps.simulate (r := fun fs file => Represents fs v file)
    (T := ByteFile.Step) (fun _ _ _ _ rep step => rep.step step) start
  have longer : file.content.length ≤ file'.content.length := by
    refine abstract.preserves (fun g => file.content.length ≤ g.content.length) ?_ le_rfl
    exact fun _ _ _ le step => le.trans step.length_le
  refine ⟨file', abstract, rep.holds, longer, file'.bounded, fun f handle opened points => ?_⟩
  refine ⟨file'.inside (rep.position opened points), fun chunk buf no_wrap => ?_⟩
  obtain ⟨fs'', returns, rep'⟩ := rep.write chunk opened points no_wrap
  exact ⟨fs'', returns, rep'.holds⟩

/-- An empty file of tmpfs, as `vfs_open` creates it, that no handle is open on. -/
def emptyFile : Fs where
  nodes := [⟨none, .tmpfs, .tmpfs, ⟨[97], .file, 0, .null⟩⟩]
  buffers := fun _ => none
  files := fun _ => none
  uartIn := []
  uartOut := []

theorem emptyFile_represents : Represents emptyFile 0 (.closed [] (Nat.zero_le _)) where
  holds := ⟨_, rfl, rfl, rfl, .inl rfl⟩
  handles := by simp [ByteFile.closed, emptyFile]

/-- Two handles write over each other. -/
theorem emptyFile_refines : ∃ (w : List Event) (fs' : Fs) (file' : TmpFile),
    w.length = 4 ∧ Run (Step 0) emptyFile w fs' ∧
      Run ByteFile.Step (.closed [] (Nat.zero_le _)) w file' ∧ Holds fs' 0 file'.content := by
  have r₁ : Run (Step 0) emptyFile _ _ :=
    Run.single (.openHandle (by rfl) (show tmpfsOpen 0x100 0 0 emptyFile = .ok (0, _) from rfl))
  have r₂ := r₁.snoc (.openHandle (by rfl) (show tmpfsOpen 0x200 0 0 _ = .ok (0, _) from rfl))
  have r₃ := r₂.snoc (.write (by rfl) rfl (by decide) (by rfl)
    (show tmpfsWrite ⟨0x300, fun _ => 0⟩ (some 0x100) [1, 2, 3] [1, 2, 3].length _ =
      .ok (3, _) from rfl))
  have r₄ := r₃.snoc (.write (by rfl) rfl (by decide) (by rfl)
    (show tmpfsWrite ⟨0x400, fun _ => 0⟩ (some 0x200) [4] [4].length _ = .ok (1, _) from rfl))
  obtain ⟨file', abstract, holds, -⟩ := Run.refines emptyFile_represents r₄
  exact ⟨_, _, file', rfl, r₄, abstract, holds⟩

end BareMetal.Vfs
