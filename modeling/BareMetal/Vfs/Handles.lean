import BareMetal.Vfs.Descriptors
import Mathlib.Algebra.Order.Group.Multiset
import Mathlib.Data.List.ReduceOption

/-!
# Handles of open files

`tmpfs_open` is the only function that allocates a `struct file`, and `tmpfs_close` the only
one that frees it. `handles` are the handles that the descriptors of a task are bound to.

`task_create` opens `/dev/uart` three times; `openUart` is that part of it.

## Main results

* `vfsOpen_handles` — `vfs_open` allocates a handle exactly if it succeeds
* `syscOpen_handles`, `syscClose_handles` — what `sysc_open` and `sysc_close` do to the handles of
  a task
* `openUart_handles` — the three calls for a new task all succeed or all fail
-/

namespace BareMetal.Vfs

open CS Strings

variable {s s' : State} {fs fs' : Fs} {i₀ : ℤ} {fuel d handle flags : ℕ} {pathname : List UInt8}
  {r : ℤ} {target target' file file' : Option ℕ} {cur cur' : Process}

/-! ## Functions that open no file -/

theorem tmpfsCreate_files {stale : CompType} {name : List UInt8}
    (returns : tmpfsCreate stale d target name fs = .ok (r, target', fs')) :
    fs'.files = fs.files := by
  obtain ⟨dir, -, returns⟩ := outcome_bind_eq_ok.mp returns
  by_cases other : dir.component.type ≠ .dir
  · rw [if_pos other] at returns
    obtain ⟨-, -, rfl⟩ := by simpa using returns
    rfl
  rw [if_neg other] at returns
  obtain ⟨⟨result, found⟩, -, returns⟩ := outcome_bind_eq_ok.mp returns
  dsimp only at returns
  by_cases exists_already : result = 0
  · rw [if_pos exists_already] at returns
    obtain ⟨-, -, rfl⟩ := by simpa using returns
    rfl
  rw [if_neg exists_already] at returns
  by_cases full : dir.component.len ≥ tmpfsMaxEntry
  · rw [if_pos full] at returns
    obtain ⟨-, -, rfl⟩ := by simpa using returns
    rfl
  rw [if_neg full] at returns
  by_cases long : name.length ≥ nameLen
  · rw [if_pos long] at returns
    contradiction
  · rw [if_neg long] at returns
    obtain ⟨component, -, returns⟩ := outcome_bind_eq_ok.mp returns
    obtain ⟨-, -, rfl⟩ := by simpa using returns
    rfl

theorem tmpfsMkdir_files {name : List UInt8}
    (returns : tmpfsMkdir d target name fs = .ok (r, target', fs')) : fs'.files = fs.files := by
  obtain ⟨dir, -, returns⟩ := outcome_bind_eq_ok.mp returns
  split_ifs at returns
  · obtain ⟨-, -, rfl⟩ := by simpa using returns
    rfl
  · obtain ⟨⟨result, found, fs₁⟩, created, returns⟩ := outcome_bind_eq_ok.mp returns
    have same := tmpfsCreate_files created
    dsimp only at returns
    split_ifs at returns
    · cases found with
      | none => contradiction
      | some node =>
        obtain ⟨-, -, rfl⟩ := by simpa using returns
        exact same
    · obtain ⟨-, -, rfl⟩ := by simpa using returns
      exact same
    · obtain ⟨-, -, rfl⟩ := by simpa using returns
      exact same

theorem FsKind.mkdir_files {kind : FsKind} {mounted : Bool} {name : List UInt8}
    (returns : kind.mkdir mounted d target name fs = .ok (r, target', fs')) :
    fs'.files = fs.files := by
  cases kind with
  | tmpfs => exact tmpfsMkdir_files returns
  | initramfs =>
    cases mounted with
    | true =>
      obtain ⟨-, -, rfl⟩ := by simpa [FsKind.mkdir, initramfsMkdir] using returns
      rfl
    | false => exact tmpfsMkdir_files returns
  | devfs =>
    obtain ⟨-, -, rfl⟩ := by simpa [FsKind.mkdir, devfsMkdir] using returns
    rfl

theorem createLoop_files {names : List (List UInt8)}
    (returns : createLoop names d target s = .ok (r, target', s')) :
    s'.fs.files = s.fs.files := by
  induction names generalizing d target s with
  | nil =>
    obtain ⟨-, -, rfl⟩ := by simpa [createLoop] using returns
    rfl
  | cons name names ih =>
    rw [createLoop] at returns
    split_ifs at returns with empty
    · exact ih returns
    · obtain ⟨dir, -, returns⟩ := outcome_bind_eq_ok.mp returns
      obtain ⟨⟨result, found, fs⟩, made, returns⟩ := outcome_bind_eq_ok.mp returns
      have same := FsKind.mkdir_files made
      dsimp only at returns
      by_cases success : result = 0
      · rw [if_pos success] at returns
        cases found with
        | none => contradiction
        | some node => exact (ih returns).trans same
      · rw [if_neg success] at returns
        exact (ih returns).trans same

theorem createPath_files (returns : createPath i₀ pathname d target s = .ok (r, target', s')) :
    s'.fs.files = s.fs.files := by
  rw [createPath] at returns
  by_cases long : pathname.length ≥ tmpfsMaxPathLen
  · rw [if_pos long] at returns
    contradiction
  rw [if_neg long] at returns
  obtain ⟨⟨names, strtok⟩, -, returns⟩ := outcome_bind_eq_ok.mp returns
  dsimp only at returns
  by_cases front : i₀ < 0
  · rw [if_pos front] at returns
    contradiction
  · rw [if_neg front] at returns
    exact (createLoop_files returns).trans rfl

/-- The create branch of `lookup_path` is reached through mounts only. -/
theorem lookupPath_create_files
    (returns : lookupPath i₀ fuel pathname d target true s = .ok (r, target', s')) :
    s'.fs.files = s.fs.files := by
  induction fuel generalizing d with
  | zero => contradiction
  | succ fuel ih =>
    rw [lookupPath] at returns
    obtain ⟨name, -, returns⟩ := outcome_bind_eq_ok.mp returns
    obtain ⟨dir, -, returns⟩ := outcome_bind_eq_ok.mp returns
    cases mount : dir.mount with
    | some root =>
      simp only [mount] at returns
      exact ih returns
    | none =>
      simp only [mount] at returns
      by_cases other : dir.component.type ≠ .dir
      · rw [if_pos other] at returns
        obtain ⟨-, -, rfl⟩ := by simpa using returns
        rfl
      · rw [if_neg other, if_true] at returns
        exact createPath_files returns

/-- The first part of `vfs_open` opens no file. -/
theorem openNode_files {node : Option ℕ}
    (returns : openNode i₀ fuel pathname flags s = .ok (node, s')) : s'.fs.files = s.fs.files := by
  rw [openNode] at returns
  obtain ⟨⟨result, found, s₁⟩, lookup, returns⟩ := outcome_bind_eq_ok.mp returns
  obtain ⟨same_state, -⟩ := vfsLookup_lookup lookup
  obtain rfl : s = s₁ := same_state.symm
  dsimp only at returns
  by_cases creates : result ≠ 0 ∧ flags &&& oCreat ≠ 0
  · rw [if_pos creates] at returns
    cases rootfs : s.rootfs with
    | none =>
      simp only [rootfs] at returns
      contradiction
    | some root =>
      simp only [rootfs] at returns
      obtain ⟨⟨result, made, s₂⟩, create, returns⟩ := outcome_bind_eq_ok.mp returns
      have same := lookupPath_create_files create
      dsimp only at returns
      split_ifs at returns
      · cases made with
        | none => contradiction
        | some v =>
          obtain ⟨node', -, returns⟩ := outcome_bind_eq_ok.mp returns
          obtain ⟨-, rfl⟩ := by simpa using returns
          exact same
      · obtain ⟨-, rfl⟩ := by simpa using returns
        exact same
  · rw [if_neg creates] at returns
    split_ifs at returns
    · obtain ⟨-, rfl⟩ := by simpa using returns
      rfl
    · cases found with
      | none => contradiction
      | some v =>
        obtain ⟨-, rfl⟩ := by simpa using returns
        rfl

/-! ## `vfs_open` -/

/-- **`vfs_open` allocates a handle** exactly if it succeeds. -/
theorem vfsOpen_handles
    (returns : Returns (fun fuel => vfsOpen i₀ fuel pathname flags handle file s) (r, file', s')) :
    (s.Openable pathname flags ∧ file' = some handle ∧
        ∃ opened, s'.fs.files = s.fs.files.alloc handle opened) ∨
      ¬ s.Openable pathname flags ∧ file' = file ∧ s'.fs.files = s.fs.files := by
  have cases := vfsOpen_returns returns
  obtain ⟨fuel, returns⟩ := returns
  simp only [vfsOpen] at returns
  obtain ⟨⟨node, s₁⟩, found, returns⟩ := outcome_bind_eq_ok.mp returns
  have same := openNode_files found
  cases node with
  | none =>
    obtain ⟨rfl, rfl, rfl⟩ := by simpa using returns
    rcases cases with ⟨-, failed, -⟩ | ⟨refused, -, -⟩
    · contradiction
    · exact .inr ⟨refused, rfl, same⟩
  | some v =>
    obtain ⟨⟨result, fs⟩, opened, returns⟩ := outcome_bind_eq_ok.mp returns
    obtain ⟨node', -, ⟨rfl, -, rfl⟩ | ⟨rfl, -, rfl⟩⟩ := tmpfsOpen_cases opened
    · obtain ⟨rfl, rfl, rfl⟩ := by simpa using returns
      rcases cases with ⟨openable, -⟩ | ⟨-, failed, -⟩
      · exact .inl ⟨openable, rfl, _, congrArg (fun files => Heap.alloc files handle _) same⟩
      · contradiction
    · obtain ⟨rfl, rfl, rfl⟩ := by simpa using returns
      rcases cases with ⟨-, failed, -⟩ | ⟨refused, -, -⟩
      · contradiction
      · exact .inr ⟨refused, rfl, same⟩

/-! ## The handles of a task -/

/-- The handles that the descriptors of a task are bound to. -/
def Process.handles (cur : Process) : Multiset ℕ := (cur.fdTable.toList.reduceOption : List ℕ)

/-- One entry of a table is replaced. -/
theorem coe_reduceOption_set {α : Type*} {table : List (Option α)} {i : ℕ}
    (inside : i < table.length) (entry : Option α) :
    ((table.set i entry).reduceOption : Multiset α) + (table[i].toList : Multiset α) =
      table.reduceOption + (entry.toList : Multiset α) := by
  have cut : ∀ (a : Option α) (rest : List (Option α)),
      ((a :: rest).reduceOption : Multiset α) = (a.toList : Multiset α) + rest.reduceOption := by
    intro a rest
    cases a <;> rfl
  have replaced := (List.set_perm_cons_eraseIdx inside entry).filterMap id
  have whole := (List.getElem_cons_eraseIdx_perm inside).filterMap id
  have replaced := Multiset.coe_eq_coe.mpr replaced
  have whole := Multiset.coe_eq_coe.mpr whole
  change ((table.set i entry).reduceOption : Multiset α) = (entry :: table.eraseIdx i).reduceOption
    at replaced
  change ((table[i] :: table.eraseIdx i).reduceOption : Multiset α) = table.reduceOption at whole
  rw [cut] at replaced whole
  rw [replaced, ← whole, add_comm, add_comm (entry.toList : Multiset α), add_assoc]

namespace Process

variable {fd : ℕ}

theorem handles_set (cur : Process) (inside : fd < vfsProcessMaxOpenFile) (entry : Option ℕ) :
    handles { cur with fdTable := cur.fdTable.set fd entry } +
        (cur.fdTable[fd].toList : Multiset ℕ) =
      cur.handles + (entry.toList : Multiset ℕ) := by
  have valid : fd < cur.fdTable.toList.length := by rwa [Vector.length_toList]
  have replaced := coe_reduceOption_set valid entry
  rw [Vector.getElem_toList] at replaced
  rw [handles, Vector.toList_set]
  exact replaced

/-- No descriptor is bound exactly if there are no handles. -/
theorem handles_eq_zero (cur : Process) :
    cur.handles = 0 ↔ ∀ (fd : ℕ) (_ : fd < vfsProcessMaxOpenFile), cur.fdTable[fd] = none := by
  rw [handles, Multiset.coe_eq_zero, List.reduceOption, List.filterMap_eq_nil_iff]
  constructor
  · intro idle fd inside
    exact idle _ (Vector.mem_toList_iff.mpr (Vector.getElem_mem inside))
  · intro idle entry inside
    obtain ⟨fd, valid, rfl⟩ := List.getElem_of_mem inside
    rw [Vector.getElem_toList]
    exact idle fd _

end Process

/-- The chunks among these that are open files. -/
def State.handed (s : State) (chunks : List ℕ) : List ℕ :=
  chunks.filter fun a => (s.fs.files a).isSome

/-- **`sysc_open`** gives the task the handle that it allocates, if any. -/
theorem syscOpen_handles (fresh : s.fs.files handle = none)
    (returns : Returns (fun fuel => syscOpen i₀ fuel handle pathname flags cur s) (r, cur', s')) :
    cur'.handles = cur.handles + (s'.handed [handle] : Multiset ℕ) := by
  obtain ⟨fuel, returns⟩ := returns
  have nothing : ∀ {t : State}, t.fs.files handle = none →
      (t.handed [handle] : Multiset ℕ) = 0 := by
    intro t unused
    simp [State.handed, unused]
  simp only [syscOpen] at returns
  rcases getTaskIdleFd_cases cur with full | ⟨fd, inside, found, idle⟩
  · have negative : getTaskIdleFd cur < 0 := by
      rw [full]
      decide
    rw [if_pos negative] at returns
    obtain ⟨-, rfl, rfl⟩ := by simpa using returns
    rw [nothing fresh, add_zero]
  · rw [found, if_neg (by omega)] at returns
    obtain ⟨⟨result, absPath, strtok⟩, -, returns⟩ := outcome_bind_eq_ok.mp returns
    obtain ⟨⟨opened, file, t⟩, call, returns⟩ := outcome_bind_eq_ok.mp returns
    dsimp only at returns call
    rw [cur.setFd_eq inside] at returns
    obtain ⟨-, rfl, rfl⟩ := by simpa using returns
    have bound := cur.handles_set inside file
    rw [idle, Option.toList_none, Multiset.coe_nil, add_zero] at bound
    rcases vfsOpen_handles ⟨fuel, call⟩ with ⟨-, rfl, opened, files⟩ | ⟨-, rfl, files⟩
    · have handed : t.handed [handle] = [handle] := by simp [State.handed, files]
      rw [handed]
      exact bound
    · rw [nothing (by rw [files]; exact fresh)]
      exact bound

/-- **`sysc_close`** takes the handle of the descriptor from the task. -/
theorem syscClose_handles {fd : ℤ} {f : ℕ} (bound : cur.getFd fd = .ok (some f))
    (returns : syscClose fd cur s = .ok (r, cur', s')) :
    f ∈ cur.handles ∧ cur'.handles = cur.handles - {f} := by
  obtain ⟨file, read, returns⟩ := outcome_bind_eq_ok.mp returns
  obtain rfl := Except.ok.inj (bound.symm.trans read)
  obtain ⟨⟨result, t⟩, closed, returns⟩ := outcome_bind_eq_ok.mp returns
  -- `tmpfs_close` of a file returns 0
  obtain rfl : result = 0 := by
    rw [vfsClose] at closed
    cases there : s.fs.files f with
    | none =>
      rw [there] at closed
      contradiction
    | some opened =>
      rw [there] at closed
      obtain ⟨rfl, -⟩ := by simpa using closed
      rfl
  rw [Process.getFd] at bound
  split_ifs at bound with inside
  · obtain ⟨n, rfl⟩ := Int.eq_ofNat_of_zero_le inside.1
    have valid : n < vfsProcessMaxOpenFile := inside.2
    have entry : cur.fdTable[n] = some f := Except.ok.inj bound
    simp only [if_true] at returns
    obtain ⟨cur₁, set, returns⟩ := outcome_bind_eq_ok.mp returns
    obtain ⟨-, rfl, -⟩ := by simpa using returns
    rw [cur.setFd_eq valid, Except.ok.injEq] at set
    have replaced := cur.handles_set valid none
    rw [set, entry] at replaced
    have whole : cur.handles = cur₁.handles + {f} := (add_zero _).symm.trans replaced.symm
    rw [whole]
    exact ⟨by simp, by simp⟩

/-! ## Lookups do not read the open files -/

/-- The state with other open files. -/
def State.withFiles (s : State) (files : Heap File) : State :=
  { s with fs := { s.fs with files := files } }

variable {files : Heap File}

theorem tmpfsLookupLoop_withFiles (component : Component) (name : List UInt8) (left i : ℕ) :
    tmpfsLookupLoop (s.withFiles files).fs component name left i =
      tmpfsLookupLoop s.fs component name left i := by
  induction left generalizing i with
  | zero => rfl
  | succ left ih =>
    rw [tmpfsLookupLoop, tmpfsLookupLoop]
    simp only [ih]
    rfl

theorem FsKind.lookup_withFiles (kind : FsKind) (name : List UInt8) :
    kind.lookup (s.withFiles files).fs d target name = kind.lookup s.fs d target name := by
  have lookup : tmpfsLookup (s.withFiles files).fs d target name =
      tmpfsLookup s.fs d target name := by
    rw [tmpfsLookup, tmpfsLookup]
    simp only [tmpfsLookupLoop_withFiles]
    rfl
  cases kind <;> exact lookup

theorem lookupPath_withFiles
    (returns : lookupPath i₀ fuel pathname d target false s = .ok (r, target', s')) :
    lookupPath i₀ fuel pathname d target false (s.withFiles files) =
      .ok (r, target', s'.withFiles files) := by
  induction fuel generalizing pathname d target with
  | zero => contradiction
  | succ fuel ih =>
    rw [lookupPath] at returns ⊢
    obtain ⟨name, first, returns⟩ := outcome_bind_eq_ok.mp returns
    obtain ⟨dir, here, returns⟩ := outcome_bind_eq_ok.mp returns
    refine outcome_bind_eq_ok.mpr ⟨name, first, outcome_bind_eq_ok.mpr ⟨dir, here, ?_⟩⟩
    cases mount : dir.mount with
    | some root =>
      simp only [mount] at returns ⊢
      exact ih returns
    | none =>
      simp only [mount] at returns ⊢
      -- no branch reads the open files
      by_cases other : dir.component.type ≠ .dir
      · rw [if_pos other] at returns ⊢
        obtain ⟨rfl, rfl, rfl⟩ := by simpa using returns
        rfl
      rw [if_neg other, if_neg Bool.false_ne_true] at returns ⊢
      obtain ⟨⟨result, found⟩, lookup, returns⟩ := outcome_bind_eq_ok.mp returns
      rw [FsKind.lookup_withFiles]
      refine outcome_bind_eq_ok.mpr ⟨⟨result, found⟩, lookup, ?_⟩
      dsimp only at returns ⊢
      by_cases success : result = 0
      · rw [if_pos success] at returns ⊢
        cases found with
        | none => contradiction
        | some v =>
          obtain ⟨node, there, returns⟩ := outcome_bind_eq_ok.mp returns
          refine outcome_bind_eq_ok.mpr ⟨node, there, ?_⟩
          by_cases last : popFirstComponent pathname = []
          · rw [if_pos last] at returns ⊢
            obtain ⟨rfl, rfl, rfl⟩ := by simpa using returns
            rfl
          rw [if_neg last] at returns ⊢
          cases type : node.component.type with
          | dir =>
            simp only [type] at returns ⊢
            exact ih returns
          | file =>
            simp only [type] at returns ⊢
            obtain ⟨rfl, rfl, rfl⟩ := by simpa using returns
            rfl
      · rw [if_neg success] at returns ⊢
        obtain ⟨rfl, rfl, rfl⟩ := by simpa using returns
        rfl

theorem State.Finds.withFiles {v : ℕ} (finds : s.Finds pathname v) (files : Heap File) :
    (s.withFiles files).Finds pathname v := by
  obtain ⟨fuel, returns⟩ := finds
  refine ⟨fuel, ?_⟩
  simp only [vfsLookup] at returns ⊢
  cases rootfs : s.rootfs with
  | none =>
    rw [rootfs] at returns
    contradiction
  | some root =>
    rw [show (s.withFiles files).rootfs = some root from rootfs]
    rw [rootfs] at returns
    obtain ⟨order, compared, returns⟩ := outcome_bind_eq_ok.mp returns
    refine outcome_bind_eq_ok.mpr ⟨order, compared, ?_⟩
    by_cases whole : order = 0
    · rw [if_pos whole] at returns ⊢
      obtain rfl : root = v := by simpa using returns
      rfl
    · rw [if_neg whole] at returns ⊢
      exact lookupPath_withFiles returns

/-- The files that can be opened do not depend on those that are. -/
theorem State.openable_withFiles (s : State) (pathname : List UInt8) (files : Heap File) :
    (s.withFiles files).Openable pathname 0 ↔ s.Openable pathname 0 := by
  have back : (s.withFiles files).withFiles s.fs.files = s := rfl
  constructor
  · rintro (⟨v, node, finds, here, type⟩ | ⟨-, creates, -⟩)
    · exact .inl ⟨v, node, back ▸ finds.withFiles s.fs.files, here, type⟩
    · simp at creates
  · rintro (⟨v, node, finds, here, type⟩ | ⟨-, creates, -⟩)
    · exact .inl ⟨v, node, finds.withFiles files, here, type⟩
    · simp at creates

theorem openNode_plain {node : Option ℕ}
    (returns : openNode i₀ fuel pathname 0 s = .ok (node, s')) : s' = s := by
  rw [openNode] at returns
  obtain ⟨⟨result, found, s₁⟩, lookup, returns⟩ := outcome_bind_eq_ok.mp returns
  have same := (vfsLookup_lookup lookup).1
  dsimp only at returns
  rw [if_neg (by simp)] at returns
  split_ifs at returns
  · obtain ⟨-, rfl⟩ := by simpa using returns
    exact same
  · cases found with
    | none => contradiction
    | some v =>
      obtain ⟨-, rfl⟩ := by simpa using returns
      exact same

/-- Without `O_CREAT`, `vfs_open` changes the open files only. -/
theorem vfsOpen_plain
    (returns : Returns (fun fuel => vfsOpen i₀ fuel pathname 0 handle file s) (r, file', s')) :
    (s.Openable pathname 0 ∧ file' = some handle ∧
        ∃ opened, s' = s.withFiles (s.fs.files.alloc handle opened)) ∨
      ¬ s.Openable pathname 0 ∧ file' = file ∧ s' = s := by
  have cases := vfsOpen_returns returns
  obtain ⟨fuel, returns⟩ := returns
  simp only [vfsOpen] at returns
  obtain ⟨⟨node, s₁⟩, found, returns⟩ := outcome_bind_eq_ok.mp returns
  have same := openNode_plain found
  cases node with
  | none =>
    obtain ⟨rfl, rfl, rfl⟩ := by simpa using returns
    rcases cases with ⟨-, failed, -⟩ | ⟨refused, -, -⟩
    · contradiction
    · exact .inr ⟨refused, rfl, same⟩
  | some v =>
    obtain ⟨⟨result, fs⟩, opened, returns⟩ := outcome_bind_eq_ok.mp returns
    obtain ⟨node', -, ⟨rfl, -, rfl⟩ | ⟨rfl, -, rfl⟩⟩ := tmpfsOpen_cases opened
    · obtain ⟨rfl, rfl, rfl⟩ := by simpa using returns
      rcases cases with ⟨openable, -⟩ | ⟨-, failed, -⟩
      · exact .inl ⟨openable, rfl, _, by rw [same]; rfl⟩
      · contradiction
    · obtain ⟨rfl, rfl, rfl⟩ := by simpa using returns
      rcases cases with ⟨-, failed, -⟩ | ⟨refused, -, -⟩
      · contradiction
      · exact .inr ⟨refused, rfl, same⟩

/-! ## The files of a new task -/

/-- `FD_STDIN`. -/
def fdStdin : ℕ := 0

/-- `FD_STDOUT`. -/
def fdStdout : ℕ := 1

/-- `FD_STDERR`. -/
def fdStderr : ℕ := 2

/-- The path `/dev/uart`. -/
def devUart : List UInt8 := [47, 100, 101, 118, 47, 117, 97, 114, 116]

/-- What `task_create` does to `cwd` and `fd_table`, with the chunks of the three handles. -/
def openUart (i₀ : ℤ) (fuel h₀ h₁ h₂ : ℕ) (s : State) : Outcome (Process × State) := do
  let fdTable : Vector (Option ℕ) vfsProcessMaxOpenFile := Vector.replicate _ none
  let (_, fileHandler, s) ← vfsOpen i₀ fuel devUart 0 h₀ none s
  let fdTable := fdTable.set fdStdin fileHandler
  let (_, fileHandler, s) ← vfsOpen i₀ fuel devUart 0 h₁ fileHandler s
  let fdTable := fdTable.set fdStdout fileHandler
  let (_, fileHandler, s) ← vfsOpen i₀ fuel devUart 0 h₂ fileHandler s
  let fdTable := fdTable.set fdStderr fileHandler
  return (⟨fdTable, [slash]⟩, s)

/-- **The handles of a new task** are those that were allocated for it: none, or all three. -/
theorem openUart_handles {h₀ h₁ h₂ : ℕ}
    (fresh : ∀ h ∈ [h₀, h₁, h₂], s.fs.files h = none)
    (returns : Returns (fun fuel => openUart i₀ fuel h₀ h₁ h₂ s) (cur, s')) :
    cur.handles = (s'.handed [h₀, h₁, h₂] : Multiset ℕ) := by
  obtain ⟨fuel, returns⟩ := returns
  simp only [openUart] at returns
  obtain ⟨⟨r₀, file₀, s₀⟩, stdin, returns⟩ := outcome_bind_eq_ok.mp returns
  obtain ⟨⟨r₁, file₁, s₁⟩, stdout, returns⟩ := outcome_bind_eq_ok.mp returns
  obtain ⟨⟨r₂, file₂, s₂⟩, stderr, returns⟩ := outcome_bind_eq_ok.mp returns
  dsimp only at stdout stderr
  obtain ⟨rfl, rfl⟩ := by simpa using returns
  -- the first call decides about the other two
  by_cases openable : s.Openable devUart 0
  · have again : ∀ files, (s.withFiles files).Openable devUart 0 := by
      intro files
      exact (s.openable_withFiles devUart files).mpr openable
    rcases vfsOpen_plain ⟨fuel, stdin⟩ with ⟨-, rfl, opened₀, rfl⟩ | ⟨refused, -⟩
    swap
    · exact absurd openable refused
    rcases vfsOpen_plain ⟨fuel, stdout⟩ with ⟨-, rfl, opened₁, rfl⟩ | ⟨refused, -⟩
    swap
    · exact absurd (again _) refused
    rcases vfsOpen_plain ⟨fuel, stderr⟩ with ⟨-, rfl, opened₂, state⟩ | ⟨refused, -⟩
    swap
    · exact absurd (again _) refused
    have files : s₂.fs.files =
        ((s.fs.files.alloc h₀ opened₀).alloc h₁ opened₁).alloc h₂ opened₂ := by
      rw [state]
      rfl
    have handed : s₂.handed [h₀, h₁, h₂] = [h₀, h₁, h₂] := by
      refine List.filter_eq_self.mpr fun h inside => ?_
      rw [files, Heap.isSome_alloc, Heap.isSome_alloc, Heap.isSome_alloc]
      simp only [List.mem_cons, List.not_mem_nil, or_false] at inside
      tauto
    rw [handed]
    rfl
  · rcases vfsOpen_plain ⟨fuel, stdin⟩ with ⟨opened, -⟩ | ⟨-, rfl, rfl⟩
    · exact absurd opened openable
    rcases vfsOpen_plain ⟨fuel, stdout⟩ with ⟨opened, -⟩ | ⟨-, rfl, rfl⟩
    · exact absurd opened openable
    rcases vfsOpen_plain ⟨fuel, stderr⟩ with ⟨opened, -⟩ | ⟨-, rfl, rfl⟩
    · exact absurd opened openable
    have handed : s₂.handed [h₀, h₁, h₂] = [] := by
      refine List.filter_eq_nil_iff.mpr fun h inside => ?_
      rw [fresh h inside]
      exact Bool.false_ne_true
    rw [handed]
    rfl

end BareMetal.Vfs
