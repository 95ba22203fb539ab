import BareMetal.CS.Splice
import Mathlib.Order.Lattice
import Mathlib.Logic.Function.Basic

/-!
# Abstract files

What a regular file of limited size is for: a byte string that handles read and write
at their positions. The bound on the length and the bounds on the positions are
fields, so every operation comes with the proof that it keeps them.
-/

namespace BareMetal.Vfs

open CS

/-- A byte string of at most `limit` bytes, and the position of each open handle. -/
structure ByteFile (limit : ℕ) where
  content : List UInt8
  position : ℕ → Option ℕ
  bounded : content.length ≤ limit
  inside : ∀ {h pos}, position h = some pos → pos ≤ content.length

namespace ByteFile

variable {limit : ℕ} {file : ByteFile limit} {h pos : ℕ}

/-- A file that no handle is open on. -/
def closed (content : List UInt8) (bounded : content.length ≤ limit) : ByteFile limit where
  content := content
  position := fun _ => none
  bounded := bounded
  inside := by simp

/-- A new handle stands at the start. -/
def openHandle (file : ByteFile limit) (h : ℕ) : ByteFile limit where
  content := file.content
  position := Function.update file.position h (some 0)
  bounded := file.bounded
  inside := by
    intro g pos at_pos
    by_cases same : g = h
    · subst same
      rw [Function.update_self, Option.some.injEq] at at_pos
      omega
    · rw [Function.update_of_ne same] at at_pos
      exact file.inside at_pos

/-- How many bytes a write takes. -/
def writable (limit pos len : ℕ) : ℕ := min len (limit - pos)

/-- How many bytes a read delivers. -/
def readable (content : List UInt8) (pos len : ℕ) : ℕ := min len (content.length - pos)

/-- A write of `buf` at the position `pos` of `h`. -/
def write (file : ByteFile limit) (h pos : ℕ) (buf : List UInt8)
    (at_pos : file.position h = some pos) : ByteFile limit where
  content := splice file.content pos (buf.take (writable limit pos buf.length))
  position := Function.update file.position h (some (pos + writable limit pos buf.length))
  bounded := by
    have inside := file.inside at_pos
    have bounded := file.bounded
    rw [length_splice inside, List.length_take, writable]
    omega
  inside := by
    intro g pos' at_pos'
    have inside := file.inside at_pos
    rw [length_splice inside, List.length_take, writable]
    by_cases same : g = h
    · subst same
      rw [Function.update_self, Option.some.injEq, writable] at at_pos'
      omega
    · rw [Function.update_of_ne same] at at_pos'
      exact (file.inside at_pos').trans (le_max_left _ _)

/-- A read of at most `len` bytes at the position `pos` of `h`. -/
def read (file : ByteFile limit) (h pos len : ℕ) (at_pos : file.position h = some pos) :
    ByteFile limit where
  content := file.content
  position := Function.update file.position h (some (pos + readable file.content pos len))
  bounded := file.bounded
  inside := by
    intro g pos' at_pos'
    have inside := file.inside at_pos
    by_cases same : g = h
    · subst same
      rw [Function.update_self, Option.some.injEq, readable] at at_pos'
      omega
    · rw [Function.update_of_ne same] at at_pos'
      exact file.inside at_pos'

/-- Writes do not shorten a file. -/
theorem length_write {buf : List UInt8} (at_pos : file.position h = some pos) :
    file.content.length ≤ (file.write h pos buf at_pos).content.length := by
  rw [write, length_splice (file.inside at_pos)]
  exact le_max_left _ _

/-- What is done through the handles of a file, and the results. -/
inductive Event
  | openHandle (h : ℕ)
  | write (h : ℕ) (buf : List UInt8) (result : ℤ)
  | read (h len : ℕ) (result : ℤ)
deriving DecidableEq, Repr

/-- One operation. -/
inductive Step : ByteFile limit → Event → ByteFile limit → Prop
  | openHandle (file : ByteFile limit) (h : ℕ) :
      Step file (.openHandle h) (file.openHandle h)
  | write (file : ByteFile limit) {h pos : ℕ} (buf : List UInt8)
      (at_pos : file.position h = some pos) :
      Step file (.write h buf (writable limit pos buf.length)) (file.write h pos buf at_pos)
  | read (file : ByteFile limit) {h pos : ℕ} (len : ℕ) (at_pos : file.position h = some pos) :
      Step file (.read h len (readable file.content pos len)) (file.read h pos len at_pos)

/-- No operation shortens the file. -/
theorem Step.length_le {e : Event} {file' : ByteFile limit} (step : Step file e file') :
    file.content.length ≤ file'.content.length := by
  cases step with
  | openHandle => exact le_rfl
  | write buf at_pos => exact length_write at_pos
  | read => exact le_rfl

end ByteFile

end BareMetal.Vfs
