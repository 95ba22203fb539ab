import BareMetal.Vfs.Descriptors

/-!
# Descriptors without a handle

`sysc_read`, `sysc_write` and `sysc_close` of `lib/exception.c` take the descriptor from the
user as it is. The checks against null pointers are in the operations of the file systems,
which are called through the handle: a call returns only for a descriptor that has one.

## Main results

* `bad_fd_not_rejected` — no call on a descriptor without a handle returns
-/

namespace BareMetal.Vfs

open CS

variable {fd : ℤ} {count : ℕ} {buf : List UInt8} {chunk : Chunk} {cur : Process} {s : State}

/-! ## The system calls -/

/-- `devfs_write`. -/
def devfsWrite (file : Option ℕ) (buf : List UInt8) (len : ℕ) (fs : Fs) : Outcome (ℤ × Fs) := do
  let node ← fs.nodeOf file
  if node.component.name = devfsUartName then
    if buf.length < len then .error .outOfBounds
    else return (toInt32 len, { fs with uartOut := fs.uartOut ++ buf.take len })
  else return (0, fs)

/-- `vfs_write`. -/
def vfsWrite (chunk : Chunk) (file : Option ℕ) (buf : List UInt8) (len : ℕ) (fs : Fs) :
    Outcome (ℤ × Fs) := do
  let handle ← fs.files.get file
  match handle.fOps with
  | .tmpfs => tmpfsWrite chunk file buf len fs
  | .initramfs => initramfsWrite fs
  | .devfs => devfsWrite file buf len fs

/-- `sysc_write`. -/
def syscWrite (chunk : Chunk) (fd : ℤ) (buf : List UInt8) (count : ℕ) (cur : Process)
    (s : State) : Outcome (ℤ × State) := do
  let targetFile ← cur.getFd fd
  let (result, fs) ← vfsWrite chunk targetFile buf count s.fs
  return (result, { s with fs := fs })

/-- `sysc_read`, which returns the buffer with what it has stored in it. -/
def syscRead (fd : ℤ) (buf : List UInt8) (count : ℕ) (cur : Process) (s : State) :
    Outcome (ℤ × List UInt8 × State) := do
  let targetFile ← cur.getFd fd
  let (result, buf, fs) ← vfsRead targetFile buf count s.fs
  return (result, buf, { s with fs := fs })

/-! ## Calls that return -/

/-- The entry of the descriptor holds a handle. -/
def Process.Bound (cur : Process) (fd : ℤ) : Prop := ∃ file, cur.getFd fd = .ok (some file)

/-- A descriptor is bound if it is one of the table's and its entry is not null. -/
theorem Process.bound_iff : cur.Bound fd ↔
    ∃ (i : ℕ) (inside : i < vfsProcessMaxOpenFile), fd = i ∧ cur.fdTable[i] ≠ none := by
  constructor
  · rintro ⟨file, entry⟩
    rw [getFd] at entry
    split_ifs at entry with inside
    refine ⟨fd.toNat, inside.2, (Int.toNat_of_nonneg inside.1).symm, ?_⟩
    have same : cur.fdTable[fd.toNat] = some file := Except.ok.inj entry
    simp [same]
  · rintro ⟨i, inside, rfl, bound⟩
    obtain ⟨file, entry⟩ := Option.ne_none_iff_exists'.mp bound
    refine ⟨file, ?_⟩
    rw [getFd, dif_pos ⟨Int.natCast_nonneg i, by simpa using inside⟩]
    exact congrArg Except.ok entry

/-- What dereferences the entry of a descriptor returns only if it is bound. -/
private theorem bound_of_returns {α : Type} {call : Option ℕ → Outcome α} {r : α}
    (null : ∀ r, call none ≠ .ok r) (returns : (cur.getFd fd >>= call) = .ok r) :
    cur.Bound fd := by
  obtain ⟨file, entry, returns⟩ := outcome_bind_eq_ok.mp returns
  cases file with
  | none => exact absurd returns (null r)
  | some file => exact ⟨file, entry⟩

theorem syscRead_bound {r : ℤ × List UInt8 × State}
    (returns : syscRead fd buf count cur s = .ok r) : cur.Bound fd :=
  bound_of_returns (fun _ => by simp [vfsRead]) returns

theorem syscWrite_bound {r : ℤ × State} (returns : syscWrite chunk fd buf count cur s = .ok r) :
    cur.Bound fd :=
  bound_of_returns (fun _ => by simp [vfsWrite]) returns

theorem syscClose_bound {r : ℤ × Process × State} (returns : syscClose fd cur s = .ok r) :
    cur.Bound fd :=
  bound_of_returns (fun _ => by simp [vfsClose]) returns

/-! ## The law -/

/-- A read is refused: it returns a negative value and changes nothing. -/
def RejectsRead (fd : ℤ) (buf : List UInt8) (count : ℕ) (cur : Process) (s : State) : Prop :=
  ∃ r, r < 0 ∧ syscRead fd buf count cur s = .ok (r, buf, s)

/-- A write is refused. -/
def RejectsWrite (chunk : Chunk) (fd : ℤ) (buf : List UInt8) (count : ℕ) (cur : Process)
    (s : State) : Prop :=
  ∃ r, r < 0 ∧ syscWrite chunk fd buf count cur s = .ok (r, s)

/-- A close is refused. -/
def RejectsClose (fd : ℤ) (cur : Process) (s : State) : Prop :=
  ∃ r, r < 0 ∧ syscClose fd cur s = .ok (r, cur, s)

/-- **Bad descriptors are never rejected.** On a descriptor outside the table, or whose entry
is null, none of the calls returns, whatever the task, the files and the arguments are. -/
theorem bad_fd_not_rejected (bad : ¬ cur.Bound fd) :
    ¬ RejectsRead fd buf count cur s ∧ ¬ RejectsWrite chunk fd buf count cur s ∧
      ¬ RejectsClose fd cur s := by
  refine ⟨?_, ?_, ?_⟩
  · rintro ⟨r, -, returns⟩
    exact bad (syscRead_bound returns)
  · rintro ⟨r, -, returns⟩
    exact bad (syscWrite_bound returns)
  · rintro ⟨r, -, returns⟩
    exact bad (syscClose_bound returns)

theorem firstTask_not_bound (fd : ℤ) : ¬ firstTask.process.Bound fd := by
  rw [Process.bound_iff]
  rintro ⟨i, inside, -, bound⟩
  exact bound (Vector.getElem_replicate inside)

/-- Nor in a task without open files. -/
theorem firstTask_not_rejected : ¬ RejectsClose 16 firstTask.process firstTask.state :=
  (@bad_fd_not_rejected 16 0 [] ⟨0, fun _ => 0⟩ _ _ (firstTask_not_bound 16)).2.2

/-- A path that leads nowhere is opened, with result 0, and the descriptor 0 is read, written
and closed; each call dereferences the null pointer of the entry. -/
theorem firstTask_null : ∃ c,
    FdStep firstTask (.opened 0 [47, 120] 0 0x100 0) c ∧
      syscRead 0 [0] 1 c.process c.state = .error .nullPointer ∧
      syscWrite ⟨0x200, fun _ => 0⟩ 0 [0] 1 c.process c.state = .error .nullPointer ∧
      syscClose 0 c.process c.state = .error .nullPointer ∧
      ¬ RejectsRead 0 [0] 1 c.process c.state ∧
      ¬ RejectsWrite ⟨0x200, fun _ => 0⟩ 0 [0] 1 c.process c.state ∧
      ¬ RejectsClose 0 c.process c.state := by
  refine ⟨firstTask, .opened rfl (by decide) ⟨3, rfl⟩, rfl, rfl, rfl, ?_, ?_, ?_⟩
  · rintro ⟨r, -, returns⟩
    exact firstTask_not_bound 0 (syscRead_bound returns)
  · rintro ⟨r, -, returns⟩
    exact firstTask_not_bound 0 (syscWrite_bound returns)
  · rintro ⟨r, -, returns⟩
    exact firstTask_not_bound 0 (syscClose_bound returns)

end BareMetal.Vfs
