import BareMetal.Vfs.Open

/-!
# File descriptors

`sysc_open` of `lib/exception.c` binds the handle that `vfs_open` stores to the lowest idle
entry of the task's `fd_table`, whatever `vfs_open` returns; `sysc_close` clears an entry.

## Main results

* `Run.different` — in runs whose calls keep the law of descriptors, open ones are different
-/

namespace BareMetal.Vfs

open CS Strings

/-! ## The system calls -/

/-- `VFS_PROCESS_MAX_OPEN_FILE`. -/
def vfsProcessMaxOpenFile : ℕ := 16

/-- The fields of `struct task` that name files. -/
structure Process where
  fdTable : Vector (Option ℕ) vfsProcessMaxOpenFile
  cwd : List UInt8

/-- The loop of `get_task_idle_fd` over the entries from the `i`-th on. -/
def idleFdLoop : List (Option ℕ) → ℕ → ℤ
  | [], _ => -1
  | none :: _, i => i
  | some _ :: rest, i => idleFdLoop rest (i + 1)

/-- `get_task_idle_fd`. -/
def getTaskIdleFd (thread : Process) : ℤ := idleFdLoop thread.fdTable.toList 0

/-- A store to `fd_table[fd]`. -/
def Process.setFd (cur : Process) (fd : ℤ) (file : Option ℕ) : Outcome Process :=
  if inside : 0 ≤ fd ∧ fd.toNat < vfsProcessMaxOpenFile then
    .ok { cur with fdTable := cur.fdTable.set fd.toNat file inside.2 }
  else .error .outOfBounds

/-- The entry `fd_table[fd]`. -/
def Process.getFd (cur : Process) (fd : ℤ) : Outcome (Option ℕ) :=
  if inside : 0 ≤ fd ∧ fd.toNat < vfsProcessMaxOpenFile then
    .ok (cur.fdTable.get ⟨fd.toNat, inside.2⟩)
  else .error .outOfBounds

/-- `sysc_open`. The `struct file` that `tmpfs_open` allocates is at `handle`. -/
def syscOpen (i₀ : ℤ) (fuel : ℕ) (handle : ℕ) (pathname : List UInt8) (flags : ℕ) (cur : Process)
    (s : State) : Outcome (ℤ × Process × State) :=
  let fd := getTaskIdleFd cur
  if fd < 0 then .ok (-1, cur, s)
  else do
    let (_, absPath, strtok) ← toAbsPath cur.cwd pathname s.strtok
    let (_, openFile, s) ← vfsOpen i₀ fuel absPath flags handle none { s with strtok := strtok }
    let cur ← cur.setFd fd openFile
    return (fd, cur, s)

/-- `sysc_close`. -/
def syscClose (fd : ℤ) (cur : Process) (s : State) : Outcome (ℤ × Process × State) := do
  let targetFile ← cur.getFd fd
  let (result, s) ← vfsClose targetFile s
  if result = 0 then do
    let cur ← cur.setFd fd none
    return (0, cur, s)
  else return (0, cur, s)

/-! ## Idle entries -/

theorem idleFdLoop_cases (table : List (Option ℕ)) (i : ℕ) :
    idleFdLoop table i = -1 ∨
      ∃ j, idleFdLoop table i = ((i + j : ℕ) : ℤ) ∧ table[j]? = some none := by
  induction table generalizing i with
  | nil => exact .inl rfl
  | cons entry table ih =>
    cases entry with
    | none => exact .inr ⟨0, rfl, rfl⟩
    | some file =>
      rcases ih (i + 1) with failed | ⟨j, result, idle⟩
      · exact .inl failed
      · refine .inr ⟨j + 1, ?_, idle⟩
        rw [idleFdLoop, result, Nat.add_assoc, Nat.add_comm 1]

/-- `get_task_idle_fd` finds an idle entry. -/
theorem getTaskIdleFd_cases (cur : Process) :
    getTaskIdleFd cur = -1 ∨ ∃ (fd : ℕ) (inside : fd < vfsProcessMaxOpenFile),
      getTaskIdleFd cur = fd ∧ cur.fdTable[fd] = none := by
  rcases idleFdLoop_cases cur.fdTable.toList 0 with failed | ⟨fd, result, idle⟩
  · exact .inl failed
  · obtain ⟨inside, idle⟩ := List.getElem?_eq_some_iff.mp idle
    rw [Vector.length_toList] at inside
    rw [Vector.getElem_toList] at idle
    rw [Nat.zero_add] at result
    exact .inr ⟨fd, inside, result, idle⟩

theorem Process.setFd_eq (cur : Process) {fd : ℕ} (inside : fd < vfsProcessMaxOpenFile)
    (file : Option ℕ) :
    cur.setFd fd file = .ok { cur with fdTable := cur.fdTable.set fd file } := by
  rw [setFd, dif_pos ⟨Int.natCast_nonneg fd, by simpa using inside⟩]
  rfl

/-! ## Sequences of calls -/

/-- A task and the files. -/
structure Session where
  process : Process
  state : State

/-- What the task calls. -/
inductive FdEvent
  | opened (i₀ : ℤ) (pathname : List UInt8) (flags handle : ℕ) (result : ℤ)
  | closed (fd : ℤ)
deriving DecidableEq, Repr

/-- One call, which returns. Paths are strings, and only open descriptors are closed. -/
inductive FdStep : Session → FdEvent → Session → Prop
  | opened {c : Session} {i₀ : ℤ} {pathname : List UInt8} {flags handle : ℕ} {result : ℤ}
      {process : Process} {state : State} (fresh : c.state.fs.files handle = none)
      (no_nul : 0 ∉ pathname)
      (returns : Returns (fun fuel => syscOpen i₀ fuel handle pathname flags c.process c.state)
        (result, process, state)) :
      FdStep c (.opened i₀ pathname flags handle result) ⟨process, state⟩
  | closed {c : Session} {fd result : ℤ} {f : ℕ} {process : Process} {state : State}
      (bound : c.process.getFd fd = .ok (some f))
      (returns : syscClose fd c.process c.state = .ok (result, process, state)) :
      FdStep c (.closed fd) ⟨process, state⟩

/-- The call of `vfs_open` is made and succeeds. -/
def Session.Opens (c : Session) (i₀ : ℤ) (pathname : List UInt8) (flags handle : ℕ) : Prop :=
  0 ≤ getTaskIdleFd c.process ∧ ∃ r absPath strtok file s',
    toAbsPath c.process.cwd pathname c.state.strtok = .ok (r, absPath, strtok) ∧
      Returns (fun fuel => vfsOpen i₀ fuel absPath flags handle none
        { c.state with strtok := strtok }) (0, file, s')

/-- What `sysc_open` should do: return an idle descriptor, now bound to the new handle, if
`vfs_open` succeeds, and else a negative value. -/
def FdLaw (c : Session) (e : FdEvent) (c' : Session) : Prop :=
  match e with
  | .opened i₀ pathname flags handle result =>
    (0 ≤ result ↔ c.Opens i₀ pathname flags handle) ∧
      (0 ≤ result → ∃ (fd : ℕ) (inside : fd < vfsProcessMaxOpenFile), result = fd ∧
        c.process.fdTable[fd] = none ∧
        c'.process.fdTable = c.process.fdTable.set fd (some handle) ∧
        ∃ opened, c'.state.fs.files handle = some opened ∧ opened.fPos = 0) ∧
      (result < 0 → c'.process.fdTable = c.process.fdTable)
  | .closed _ => True

/-! ## Open descriptors are different -/

/-- A descriptor was returned and has not been closed since. -/
def StillOpen (w : List FdEvent) (fd : ℤ) : Prop :=
  0 ≤ fd ∧ ∃ w₁ i₀ pathname flags handle w₂,
    w = w₁ ++ .opened i₀ pathname flags handle fd :: w₂ ∧ .closed fd ∉ w₂

/-- No open descriptor is returned again. -/
def DifferentFds (w : List FdEvent) : Prop :=
  ∀ w₁ i₀ pathname flags handle fd w₂, w = w₁ ++ .opened i₀ pathname flags handle fd :: w₂ →
    0 ≤ fd → ¬ StillOpen w₁ fd

/-- What is open after one more call. -/
theorem StillOpen.of_snoc {w : List FdEvent} {e : FdEvent} {fd : ℤ}
    (still : StillOpen (w ++ [e]) fd) :
    (∃ i₀ pathname flags handle, e = .opened i₀ pathname flags handle fd ∧ 0 ≤ fd) ∨
      StillOpen w fd ∧ e ≠ .closed fd := by
  obtain ⟨nonneg, w₁, i₀, pathname, flags, handle, w₂, same, unclosed⟩ := still
  rcases List.eq_nil_or_concat' w₂ with rfl | ⟨w₂, last, rfl⟩
  · obtain ⟨rfl, rfl⟩ := List.append_singleton_inj.mp same
    exact .inl ⟨i₀, pathname, flags, handle, rfl, nonneg⟩
  · rw [← List.cons_append, ← List.append_assoc] at same
    obtain ⟨rfl, rfl⟩ := List.append_singleton_inj.mp same
    rw [List.mem_append, not_or, List.mem_singleton] at unclosed
    exact .inr ⟨⟨nonneg, w₁, i₀, pathname, flags, handle, w₂, rfl, unclosed.1⟩,
      fun last => unclosed.2 last.symm⟩

/-- `sysc_close` leaves the other entries alone. -/
theorem syscClose_table {fd result : ℤ} {cur cur' : Process} {s s' : State}
    (returns : syscClose fd cur s = .ok (result, cur', s')) {i : ℕ}
    (inside : i < vfsProcessMaxOpenFile) (other : fd ≠ i) : cur'.fdTable[i] = cur.fdTable[i] := by
  obtain ⟨file, -, returns⟩ := outcome_bind_eq_ok.mp returns
  obtain ⟨⟨closed, s₁⟩, -, returns⟩ := outcome_bind_eq_ok.mp returns
  dsimp only at returns
  split_ifs at returns
  · rw [Process.setFd] at returns
    split_ifs at returns with valid
    · obtain ⟨-, rfl, -⟩ := by simpa using returns
      exact Vector.getElem_set_ne valid.2 inside (by omega)
    · contradiction
  · obtain ⟨-, rfl, -⟩ := by simpa using returns
    rfl

/-- It frees a handle, and changes no vnode. -/
theorem syscClose_others {fd result : ℤ} {cur cur' : Process} {s s' : State}
    (returns : syscClose fd cur s = .ok (result, cur', s')) :
    cur'.cwd = cur.cwd ∧ ∃ files, s' = { s with fs := { s.fs with files := files } } := by
  obtain ⟨file, -, returns⟩ := outcome_bind_eq_ok.mp returns
  obtain ⟨⟨closed, s₁⟩, call, returns⟩ := outcome_bind_eq_ok.mp returns
  dsimp only at returns
  have freed : ∃ files, s₁ = { s with fs := { s.fs with files := files } } := by
    cases file with
    | none => contradiction
    | some f =>
      rw [vfsClose] at call
      cases there : s.fs.files f with
      | none =>
        rw [there] at call
        contradiction
      | some opened =>
        rw [there] at call
        cases call
        exact ⟨_, rfl⟩
  split_ifs at returns
  · obtain ⟨cur₁, store, returns⟩ := outcome_bind_eq_ok.mp returns
    cases returns
    rw [Process.setFd] at store
    split_ifs at store
    cases store
    exact ⟨rfl, freed⟩
  · cases returns
    exact ⟨rfl, freed⟩

/-- An entry that is not idle stays so until it is closed. -/
theorem FdStep.keeps_bound {c c' : Session} {e : FdEvent} (step : FdStep c e c')
    (law : FdLaw c e c') {fd : ℕ} (inside : fd < vfsProcessMaxOpenFile)
    (bound : c.process.fdTable[fd] ≠ none) (unclosed : e ≠ .closed fd) :
    c'.process.fdTable[fd] ≠ none := by
  cases step with
  | @opened i₀ pathname flags handle result process state fresh no_nul returns =>
    rcases lt_or_ge result 0 with negative | nonneg
    · rwa [law.2.2 negative]
    · obtain ⟨fd', inside', rfl, idle, table, -⟩ := law.2.1 nonneg
      have other : fd' ≠ fd := by
        rintro rfl
        exact bound idle
      rwa [table, Vector.getElem_set_ne _ _ other]
  | @closed fd' result f process state open_fd returns =>
    have other : fd' ≠ fd := fun same => unclosed (same ▸ rfl)
    rwa [syscClose_table returns inside other]

/-- In runs that keep the law, what is still open is bound. -/
theorem Run.bound {c c' : Session} {w : List FdEvent}
    (run : Run (fun c e c' => FdStep c e c' ∧ FdLaw c e c') c w c') {fd : ℤ}
    (still : StillOpen w fd) :
    ∃ (i : ℕ) (inside : i < vfsProcessMaxOpenFile), fd = i ∧ c'.process.fdTable[i] ≠ none := by
  induction run with
  | refl =>
    obtain ⟨-, w₁, i₀, pathname, flags, handle, w₂, same, -⟩ := still
    simp at same
  | snoc _ last ih =>
    obtain ⟨step, law⟩ := last
    rcases still.of_snoc with ⟨i₀, pathname, flags, handle, rfl, nonneg⟩ | ⟨still, unclosed⟩
    · obtain ⟨i, inside, rfl, -, table, -⟩ := law.2.1 nonneg
      refine ⟨i, inside, rfl, ?_⟩
      rw [table, Vector.getElem_set_self]
      simp
    · obtain ⟨i, inside, rfl, bound⟩ := ih still
      exact ⟨i, inside, rfl, step.keeps_bound law inside bound unclosed⟩

/-- So no open descriptor is returned again. -/
theorem Run.different {c c' : Session} {w : List FdEvent}
    (run : Run (fun c e c' => FdStep c e c' ∧ FdLaw c e c') c w c') : DifferentFds w := by
  induction run with
  | refl =>
    intro w₁ i₀ pathname flags handle fd w₂ same
    simp at same
  | snoc front last ih =>
    intro w₁ i₀ pathname flags handle fd w₂ same nonneg still
    rcases List.eq_nil_or_concat' w₂ with rfl | ⟨w₂, e, rfl⟩
    · obtain ⟨rfl, rfl⟩ := List.append_singleton_inj.mp same
      obtain ⟨i, inside, rfl, bound⟩ := Run.bound front still
      obtain ⟨j, valid, same_fd, idle, -⟩ := last.2.2.1 nonneg
      obtain rfl := Int.natCast_inj.mp same_fd
      exact bound idle
    · rw [← List.cons_append, ← List.append_assoc] at same
      obtain ⟨rfl, -⟩ := List.append_singleton_inj.mp same
      exact ih w₁ i₀ pathname flags handle fd w₂ rfl nonneg still

/-- A task without open files, and an empty root. -/
def firstTask : Session := ⟨⟨Vector.replicate vfsProcessMaxOpenFile none, [slash]⟩, freshRoot⟩

end BareMetal.Vfs
