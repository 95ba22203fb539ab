import BareMetal.CS.MachineInt
import BareMetal.CS.Transition
import BareMetal.Vfs.ByteFile
import BareMetal.Vfs.Chdir
import BareMetal.Vfs.Mount

/-!
# What a task sees of the files

What the system calls on files are for: absolute paths lead to files, a file is a byte string on
some medium, and an open descriptor stands at a position in a file. Each call is one step of this
machine. Reads deliver from the start of the file, as those of the kernel do. A mount puts the root
of another filesystem in place of the directory that its path leads to.

## Main results

* `View.Step.files_eq`, `View.Step.leads_eq` — a call leaves the other files alone
* `View.Run.persists` — a file that is not written keeps its name and its content
* `View.Run.appends` — writes in pieces add up
* `View.Step.reads_back` — what is in a file is read through a new descriptor
-/

namespace BareMetal.Vfs

open CS ByteFile

/-- Where the bytes of a regular file are. -/
inductive Medium
  | memory
  | archive
  | terminal
  | null
deriving DecidableEq, Repr

/-- The directories, files and descriptors of a task. -/
@[ext]
structure View where
  cwd : List UInt8
  leads : List UInt8 → Option ℕ
  files : ℕ → Option (Medium × List UInt8)
  fds : List (Option (ℕ × ℕ))
  uartIn : List UInt8
  uartOut : List UInt8

/-- A call that a task makes, with what it gets back. -/
inductive FileEvent
  | opened (pathname : List UInt8) (flags : ℕ) (result : ℤ)
  | closed (fd : ℕ) (result : ℤ)
  | read (fd : ℕ) (buf : List UInt8) (result : ℤ) (buf' : List UInt8)
  | written (fd : ℕ) (buf : List UInt8) (result : ℤ)
  | madeDir (pathname : List UInt8) (result : ℤ)
  | mounted (target fileName : List UInt8) (result : ℤ)
  | changedDir (pathname : List UInt8) (result : ℤ)
deriving DecidableEq, Repr

namespace View

variable {w w' w₁ w₂ : View} {e : FileEvent} {v pos fd : ℕ} {p buf buf' bytes : List UInt8}
  {m : Medium} {n : ℤ}

/-- The path that a name stands for in the working directory. -/
def path (w : View) (pathname : List UInt8) : List UInt8 := absolute w.cwd pathname

/-- The lowest descriptor that is not open. -/
def FirstIdle (w : View) (fd : ℕ) : Prop := w.fds[fd]? = some none ∧ none ∉ w.fds.take fd

/-- The descriptor stands at a position in a file, or is closed. -/
def place (w : View) (fd : ℕ) (entry : Option (ℕ × ℕ)) : View :=
  { w with fds := w.fds.set fd entry }

/-- The descriptor is open on the file. -/
def StandsAt (w : View) (fd v pos : ℕ) : Prop := w.fds[fd]? = some (some (v, pos))

theorem StandsAt.unique {v' pos' : ℕ} (stands : w.StandsAt fd v pos)
    (stands' : w.StandsAt fd v' pos') : v = v' ∧ pos = pos' := by
  have same : some (some (v, pos)) = some (some (v', pos')) := stands.symm.trans stands'
  simpa using same

/-- New names: paths that led somewhere still do, and no file has got another name. -/
structure Grown (w : View) (leads' : List UInt8 → Option ℕ) : Prop where
  keeps : ∀ {p v}, w.leads p = some v → leads' p = some v
  old : ∀ {p v}, (w.files v).isSome → leads' p = some v → w.leads p = some v

theorem Grown.refl (w : View) : w.Grown w.leads := ⟨id, fun _ => id⟩

/-- The calls. -/
inductive Step : View → FileEvent → View → Prop
  | full {w : View} (pathname : List UInt8) (flags : ℕ) (full : none ∉ w.fds) :
      Step w (.opened pathname flags (-1)) w
  | opened {w : View} {pathname : List UInt8} {fd v : ℕ} (flags : ℕ) (idle : w.FirstIdle fd)
      (leads : w.leads (w.path pathname) = some v) (regular : (w.files v).isSome) :
      Step w (.opened pathname flags fd) (w.place fd (some (v, 0)))
  | created {w : View} {pathname : List UInt8} {flags fd v : ℕ} {leads' : List UInt8 → Option ℕ}
      (idle : w.FirstIdle fd) (creat : flags &&& oCreat ≠ 0)
      (nowhere : w.leads (w.path pathname) = none) (new : w.files v = none)
      (unnamed : ∀ p, w.leads p ≠ some v) (grown : w.Grown leads')
      (leads : leads' (w.path pathname) = some v) :
      Step w (.opened pathname flags fd)
        { w.place fd (some (v, 0)) with
          leads := leads'
          files := Function.update w.files v (some (.memory, [])) }
  | closed {w : View} {fd v pos : ℕ} (stands : w.StandsAt fd v pos) :
      Step w (.closed fd 0) (w.place fd none)
  | read {w : View} {fd v pos : ℕ} {m : Medium} {bytes : List UInt8} (buf : List UInt8)
      (stands : w.StandsAt fd v pos) (file : w.files v = some (m, bytes))
      (medium : m = .memory ∨ m = .archive) :
      Step w (.read fd buf (toInt32 (readable bytes pos buf.length))
          (bytes.take (readable bytes pos buf.length) ++ buf.drop (readable bytes pos buf.length)))
        (w.place fd (some (v, pos + readable bytes pos buf.length)))
  | readTerminal {w : View} {fd v pos : ℕ} {bytes : List UInt8} (buf : List UInt8)
      (stands : w.StandsAt fd v pos) (file : w.files v = some (.terminal, bytes))
      (enough : buf.length ≤ w.uartIn.length) :
      Step w (.read fd buf (toInt32 buf.length) (w.uartIn.take buf.length))
        { w with uartIn := w.uartIn.drop buf.length }
  | readNull {w : View} {fd v pos : ℕ} {bytes : List UInt8} (buf : List UInt8)
      (stands : w.StandsAt fd v pos) (file : w.files v = some (.null, bytes)) :
      Step w (.read fd buf 0 buf) w
  | write {w : View} {fd v pos : ℕ} {bytes : List UInt8} (buf : List UInt8)
      (stands : w.StandsAt fd v pos) (file : w.files v = some (.memory, bytes)) :
      Step w (.written fd buf (writable tmpfsMaxFileSize pos buf.length))
        { w.place fd (some (v, pos + writable tmpfsMaxFileSize pos buf.length)) with
          files := Function.update w.files v
            (some (.memory,
              splice bytes pos (buf.take (writable tmpfsMaxFileSize pos buf.length)))) }
  | writeTerminal {w : View} {fd v pos : ℕ} {bytes : List UInt8} (buf : List UInt8)
      (stands : w.StandsAt fd v pos) (file : w.files v = some (.terminal, bytes)) :
      Step w (.written fd buf (toInt32 buf.length)) { w with uartOut := w.uartOut ++ buf }
  | writeNothing {w : View} {fd v pos : ℕ} {m : Medium} {bytes : List UInt8} (buf : List UInt8)
      (stands : w.StandsAt fd v pos) (file : w.files v = some (m, bytes))
      (medium : m = .archive ∨ m = .null) : Step w (.written fd buf 0) w
  | madeDir {w : View} {pathname : List UInt8} {leads' : List UInt8 → Option ℕ}
      (grown : w.Grown leads') (made : (leads' (w.path pathname)).isSome) :
      Step w (.madeDir pathname 0) { w with leads := leads' }
  | mounted {w : View} {target : List UInt8} {d r : ℕ}
      (leads : w.leads (w.path target) = some d) (dir : w.files d = none)
      (new : w.files r = none) :
      Step w (.mounted target tmpfsName 0)
        { w with leads := fun p => if w.leads p = some d then some r else w.leads p }
  | notMounted {w : View} {target : List UInt8} (fileName : List UInt8)
      (nowhere : w.leads (w.path target) = none) : Step w (.mounted target fileName (-1)) w
  | changedDir {w : View} {pathname cwd' : List UInt8}
      (leads : (w.leads (w.path pathname)).isSome) (is_cwd : IsCwd cwd')
      (names : normalNames cwd' = denoted w.cwd pathname) :
      Step w (.changedDir pathname 0) { w with cwd := cwd' }
  | staysInDir {w : View} {pathname : List UInt8} (nowhere : w.leads (w.path pathname) = none) :
      Step w (.changedDir pathname (-1)) w

/-! ## What a call leaves alone -/

/-- The call does not write to the file. -/
def Spares (v : ℕ) (w : View) : FileEvent → Prop
  | .written fd _ _ => ∀ pos, ¬ w.StandsAt fd v pos
  | _ => True

/-- A file that is not written stays as it is. -/
theorem Step.files_eq (step : Step w e w') (spares : w.Spares v e)
    (file : w.files v = some (m, bytes)) : w'.files v = some (m, bytes) := by
  cases step with
  | @created _ _ _ v' _ _ _ _ new =>
    have other : v ≠ v' := by
      rintro rfl
      rw [new] at file
      contradiction
    exact (Function.update_of_ne other _ _).trans file
  | @write _ v' pos _ _ stands =>
    have other : v ≠ v' := by
      rintro rfl
      exact spares pos stands
    exact (Function.update_of_ne other _ _).trans file
  | _ => exact file

/-- The names of a file never change. -/
theorem Step.leads_eq (step : Step w e w') (file : (w.files v).isSome) :
    w'.leads p = some v ↔ w.leads p = some v := by
  cases step with
  | created _ _ _ _ _ grown => exact ⟨grown.old file, grown.keeps⟩
  | madeDir grown => exact ⟨grown.old file, grown.keeps⟩
  | @mounted _ d r _ dir new =>
    have other {x : ℕ} (nothing : w.files x = none) : x ≠ v := by
      rintro rfl
      rw [nothing] at file
      contradiction
    dsimp only
    split_ifs with here
    · rw [here]
      simp [other dir, other new]
    · exact Iff.rfl
  | _ => exact Iff.rfl

/-- The call does not write to the file that the path leads to. -/
def SparesPath (p : List UInt8) (w : View) (e : FileEvent) : Prop :=
  ∀ v, w.leads p = some v → w.Spares v e

/-- **Files persist.** Along all calls that do not write to it, a file keeps its name and its
content. -/
theorem Run.persists {es : List FileEvent} (run : Run (Guarded Step (SparesPath p)) w es w')
    (leads : w.leads p = some v) (file : w.files v = some (m, bytes)) :
    w'.leads p = some v ∧ w'.files v = some (m, bytes) := by
  induction run with
  | refl => exact ⟨leads, file⟩
  | snoc _ last ih =>
    obtain ⟨spares, step⟩ := last
    obtain ⟨leads, file⟩ := ih
    refine ⟨(step.leads_eq ?_).mpr leads, step.files_eq (spares v leads) file⟩
    rw [file]
    rfl

/-! ## Writing piece by piece -/

/-- A write at the end of a file. -/
theorem Step.appends (step : Step w (.written fd buf n) w') (stands : w.StandsAt fd v bytes.length)
    (file : w.files v = some (.memory, bytes))
    (room : bytes.length + buf.length ≤ tmpfsMaxFileSize) :
    n = buf.length ∧ w'.StandsAt fd v (bytes ++ buf).length ∧
      w'.files v = some (.memory, bytes ++ buf) := by
  generalize writes : FileEvent.written fd buf n = e at step
  cases step with
  | @write _ v' pos bytes' _ stands' file' =>
    obtain ⟨rfl, rfl, rfl⟩ := FileEvent.written.inj writes
    obtain ⟨rfl, rfl⟩ := stands.unique stands'
    obtain rfl := (Prod.mk.inj (Option.some.inj (file.symm.trans file'))).2
    have all : writable tmpfsMaxFileSize bytes.length buf.length = buf.length := by
      rw [writable]
      omega
    have inside := (List.getElem?_eq_some_iff.mp stands).1
    rw [all, List.take_length, splice_of_le (by omega), List.take_length]
    refine ⟨rfl, ?_, Function.update_self ..⟩
    rw [List.length_append]
    exact List.getElem?_set_self inside
  | writeTerminal _ stands' file' =>
    obtain ⟨rfl, rfl, -⟩ := FileEvent.written.inj writes
    obtain ⟨rfl, rfl⟩ := stands.unique stands'
    exact absurd (Prod.mk.inj (Option.some.inj (file.symm.trans file'))).1 (by decide)
  | writeNothing _ stands' file' medium =>
    obtain ⟨rfl, rfl, -⟩ := FileEvent.written.inj writes
    obtain ⟨rfl, rfl⟩ := stands.unique stands'
    obtain ⟨rfl, -⟩ := Prod.mk.inj (Option.some.inj (file.symm.trans file'))
    simp at medium
  | _ => contradiction

/-- **Pieces add up.** Writes through one descriptor from the end of a file on append what they
write, as long as the file has room. -/
theorem Run.appends {pieces : List (List UInt8 × ℤ)}
    (run : Run Step w (pieces.map fun piece => .written fd piece.1 piece.2) w')
    (stands : w.StandsAt fd v bytes.length) (file : w.files v = some (.memory, bytes))
    (room : bytes.length + (pieces.map Prod.fst).flatten.length ≤ tmpfsMaxFileSize) :
    (∀ piece ∈ pieces, piece.2 = piece.1.length) ∧
      w'.files v = some (.memory, bytes ++ (pieces.map Prod.fst).flatten) ∧
      ∀ p, w.leads p = some v → w'.leads p = some v := by
  induction pieces generalizing w bytes with
  | nil =>
    obtain rfl := run.eq_of_nil
    simpa using file
  | cons piece pieces ih =>
    rw [List.map_cons, List.flatten_cons, List.length_append] at room
    obtain ⟨w₁, first, rest⟩ := Run.of_cons run
    obtain ⟨result, stands₁, file₁⟩ := first.appends stands file (by omega)
    obtain ⟨results, file', names⟩ := ih rest stands₁ file₁ (by rw [List.length_append]; omega)
    refine ⟨List.forall_mem_cons.mpr ⟨result, results⟩, ?_, fun p leads => names p ?_⟩
    · rw [file', List.map_cons, List.flatten_cons, List.append_assoc]
    · exact (first.leads_eq (Option.isSome_iff_exists.mpr ⟨_, file⟩)).mpr leads

/-! ## Reading back -/

/-- A path that led nowhere leads to an empty file when it has been opened. -/
theorem Step.created_at {pathname : List UInt8} {flags : ℕ}
    (step : Step w (.opened pathname flags fd) w') (nowhere : w.leads (w.path pathname) = none) :
    ∃ v, w'.StandsAt fd v 0 ∧ w'.files v = some (.memory, []) ∧
      w'.leads (w.path pathname) = some v := by
  generalize opens : FileEvent.opened pathname flags fd = e at step
  cases step with
  | full =>
    obtain ⟨-, -, negative⟩ := FileEvent.opened.inj opens
    omega
  | opened _ idle leads =>
    obtain ⟨rfl, -, -⟩ := FileEvent.opened.inj opens
    rw [nowhere] at leads
    contradiction
  | @created _ _ fd' v _ idle _ _ _ _ _ leads =>
    obtain ⟨rfl, -, same⟩ := FileEvent.opened.inj opens
    obtain rfl := Int.natCast_inj.mp same
    have inside := (List.getElem?_eq_some_iff.mp idle.1).1
    exact ⟨v, List.getElem?_set_self inside, Function.update_self .., leads⟩
  | _ => contradiction

/-- A new descriptor stands at the start of the file that the path leads to. -/
theorem Step.opened_at {pathname : List UInt8} {flags : ℕ}
    (step : Step w (.opened pathname flags fd) w') (leads : w.leads (w.path pathname) = some v) :
    w'.StandsAt fd v 0 ∧ w'.files = w.files := by
  generalize opens : FileEvent.opened pathname flags fd = e at step
  cases step with
  | full =>
    obtain ⟨-, -, negative⟩ := FileEvent.opened.inj opens
    omega
  | opened _ idle leads' =>
    obtain ⟨rfl, -, same⟩ := FileEvent.opened.inj opens
    obtain rfl := Int.natCast_inj.mp same
    obtain rfl := Option.some.inj (leads.symm.trans leads')
    have inside := (List.getElem?_eq_some_iff.mp idle.1).1
    exact ⟨List.getElem?_set_self inside, rfl⟩
  | created _ _ nowhere =>
    obtain ⟨rfl, -, -⟩ := FileEvent.opened.inj opens
    rw [leads] at nowhere
    contradiction
  | _ => contradiction

/-- **What is in a file is read back** through a descriptor at its start. -/
theorem Step.reads_back (step : Step w (.read fd buf n buf') w') (stands : w.StandsAt fd v 0)
    (file : w.files v = some (m, bytes)) (medium : m = .memory ∨ m = .archive)
    (room : bytes.length ≤ buf.length) :
    n = toInt32 bytes.length ∧ buf' = bytes ++ buf.drop bytes.length := by
  generalize reads : FileEvent.read fd buf n buf' = e at step
  cases step with
  | @read _ _ _ _ _ _ stands' file' =>
    obtain ⟨rfl, rfl, result, delivered⟩ := FileEvent.read.inj reads
    obtain ⟨rfl, rfl⟩ := stands.unique stands'
    obtain ⟨-, rfl⟩ := Prod.mk.inj (Option.some.inj (file.symm.trans file'))
    have all : readable bytes 0 buf.length = bytes.length := by
      rw [readable]
      omega
    rw [all] at result delivered
    rw [List.take_length] at delivered
    exact ⟨result, delivered⟩
  | readTerminal _ stands' file' =>
    obtain ⟨rfl, rfl, -⟩ := FileEvent.read.inj reads
    obtain ⟨rfl, rfl⟩ := stands.unique stands'
    obtain ⟨rfl, -⟩ := Prod.mk.inj (Option.some.inj (file.symm.trans file'))
    simp at medium
  | readNull _ stands' file' =>
    obtain ⟨rfl, rfl, -⟩ := FileEvent.read.inj reads
    obtain ⟨rfl, rfl⟩ := stands.unique stands'
    obtain ⟨rfl, -⟩ := Prod.mk.inj (Option.some.inj (file.symm.trans file'))
    simp at medium
  | _ => contradiction

end View

end BareMetal.Vfs
