import BareMetal.Vfs.Mkdir

/-!
# `vfs_open`

Lookups change nothing, and creation always returns 0 from a root that is a directory. So
`vfs_open` succeeds if the path leads to a regular file, or nowhere when `O_CREAT` is set.

## Main results

* `vfsOpen_returns` — when `vfs_open` succeeds, and what it has opened then
-/

namespace BareMetal.Vfs

open CS Strings

variable {s s' : State} {i₀ : ℤ} {fuel d v handle flags : ℕ} {pathname : List UInt8} {r : ℤ}
  {target target' file file' : Option ℕ} {node : Vnode}

/-! ## Lookups in any state -/

/-- A lookup changes nothing, and returns 0 with a vnode, or −1. -/
theorem lookupPath_lookup
    (returns : lookupPath i₀ fuel pathname d target false s = .ok (r, target', s')) :
    s' = s ∧ (r = 0 ∧ (∃ v, target' = some v) ∨ r = -1) := by
  induction fuel generalizing pathname d target with
  | zero => contradiction
  | succ fuel ih =>
    rw [lookupPath] at returns
    obtain ⟨name, -, returns⟩ := outcome_bind_eq_ok.mp returns
    obtain ⟨dir, -, returns⟩ := outcome_bind_eq_ok.mp returns
    cases mount : dir.mount with
    | some root =>
      simp only [mount] at returns
      exact ih returns
    | none =>
      simp only [mount] at returns
      by_cases other : dir.component.type ≠ .dir
      · rw [if_pos other] at returns
        obtain ⟨rfl, -, rfl⟩ := by simpa using returns
        exact ⟨rfl, .inr rfl⟩
      -- `create` is false, so that nothing is made
      rw [if_neg other, if_neg Bool.false_ne_true] at returns
      obtain ⟨⟨result, found⟩, -, returns⟩ := outcome_bind_eq_ok.mp returns
      dsimp only at returns
      by_cases success : result = 0
      · rw [if_pos success] at returns
        cases found with
        | none => contradiction
        | some v =>
          obtain ⟨node, -, returns⟩ := outcome_bind_eq_ok.mp returns
          by_cases last : popFirstComponent pathname = []
          · rw [if_pos last] at returns
            obtain ⟨rfl, rfl, rfl⟩ := by simpa using returns
            exact ⟨rfl, .inl ⟨rfl, v, rfl⟩⟩
          rw [if_neg last] at returns
          cases type : node.component.type with
          | dir =>
            simp only [type] at returns
            exact ih returns
          | file =>
            simp only [type] at returns
            obtain ⟨rfl, -, rfl⟩ := by simpa using returns
            exact ⟨rfl, .inr rfl⟩
      · rw [if_neg success] at returns
        obtain ⟨rfl, -, rfl⟩ := by simpa using returns
        exact ⟨rfl, .inr rfl⟩

/-- The create loop returns 0. -/
theorem createLoop_returns {names : List (List UInt8)}
    (returns : createLoop names d target s = .ok (r, target', s')) : r = 0 := by
  induction names generalizing d target s with
  | nil =>
    obtain ⟨rfl, -⟩ := by simpa [createLoop] using returns
    rfl
  | cons name names ih =>
    rw [createLoop] at returns
    split_ifs at returns with empty
    · exact ih returns
    · obtain ⟨dir, -, returns⟩ := outcome_bind_eq_ok.mp returns
      obtain ⟨⟨result, found, fs⟩, -, returns⟩ := outcome_bind_eq_ok.mp returns
      dsimp only at returns
      by_cases success : result = 0
      · rw [if_pos success] at returns
        cases found with
        | none => contradiction
        | some node => exact ih returns
      · rw [if_neg success] at returns
        exact ih returns

theorem createPath_returns (returns : createPath i₀ pathname d target s = .ok (r, target', s')) :
    r = 0 := by
  rw [createPath] at returns
  by_cases long : pathname.length ≥ tmpfsMaxPathLen
  · rw [if_pos long] at returns
    contradiction
  rw [if_neg long] at returns
  obtain ⟨⟨names, strtok⟩, -, returns⟩ := outcome_bind_eq_ok.mp returns
  dsimp only at returns
  by_cases front : i₀ < 0
  · rw [if_pos front] at returns
    contradiction
  · rw [if_neg front] at returns
    exact createLoop_returns returns

/-- Creation from a node returns 0 exactly if the chain of mounts ends at a directory. -/
theorem lookupPath_create
    (returns : lookupPath i₀ fuel pathname d target true s = .ok (r, target', s')) :
    ∃ u, s.fs.names.Settles d u ∧ (r = 0 ∧ s.fs.names.isDir u ∨ r = -1 ∧ ¬ s.fs.names.isDir u) := by
  induction fuel generalizing d with
  | zero => contradiction
  | succ fuel ih =>
    rw [lookupPath] at returns
    obtain ⟨name, -, returns⟩ := outcome_bind_eq_ok.mp returns
    obtain ⟨dir, here, returns⟩ := outcome_bind_eq_ok.mp returns
    rw [Fs.node_eq_ok] at here
    have cover := Fs.cover_eq here
    cases mount : dir.mount with
    | some root =>
      simp only [mount] at returns
      obtain ⟨u, settles, result⟩ := ih returns
      exact ⟨u, settles.head (cover.trans mount), result⟩
    | none =>
      simp only [mount] at returns
      refine ⟨d, Namespace.settles_self (cover.trans mount), ?_⟩
      rw [Fs.isDir_iff here]
      by_cases other : dir.component.type ≠ .dir
      · rw [if_pos other] at returns
        obtain ⟨rfl, -⟩ := by simpa using returns
        exact .inr ⟨rfl, other⟩
      · rw [if_neg other, if_true] at returns
        exact .inl ⟨createPath_returns returns, not_not.mp other⟩

/-- `vfs_lookup` changes nothing, too. -/
theorem vfsLookup_lookup (returns : vfsLookup fuel pathname target s = .ok (r, target', s')) :
    s' = s ∧ (r = 0 ∧ (∃ v, target' = some v) ∨ r = -1) := by
  rw [vfsLookup] at returns
  cases rootfs : s.rootfs with
  | none =>
    simp only [rootfs] at returns
    contradiction
  | some root =>
    simp only [rootfs] at returns
    obtain ⟨order, -, returns⟩ := outcome_bind_eq_ok.mp returns
    split_ifs at returns
    · obtain ⟨rfl, rfl, rfl⟩ := by simpa using returns
      exact ⟨rfl, .inl ⟨rfl, root, rfl⟩⟩
    · exact lookupPath_lookup returns

/-! ## Opening -/

/-- The root is a directory. -/
def State.RootDir (s : State) : Prop :=
  ∃ root d, s.rootfs = some root ∧ s.fs.names.Settles root d ∧ s.fs.names.isDir d

/-- The path leads to a regular file, or nowhere, and a new file is asked for. -/
def State.Openable (s : State) (pathname : List UInt8) (flags : ℕ) : Prop :=
  (∃ v node, s.Finds pathname v ∧ s.fs.nodes[v]? = some node ∧ node.component.type = .file) ∨
    (∀ v, ¬ s.Finds pathname v) ∧ flags &&& oCreat ≠ 0 ∧ s.RootDir

theorem openNode_stable (i₀ : ℤ) (pathname : List UInt8) (flags : ℕ) (s : State) :
    FuelStable fun fuel => openNode i₀ fuel pathname flags s := by
  apply (vfsLookup_stable pathname none s).bind
  rintro ⟨result, node, s⟩
  dsimp only
  split_ifs
  · cases s.rootfs with
    | none => exact fuelStable_const _
    | some root =>
      apply (lookupPath_stable i₀ pathname root node true s).bind
      rintro ⟨result, node, s⟩
      exact fuelStable_const _
  · exact fuelStable_const _
  · exact fuelStable_const _

theorem vfsOpen_stable (i₀ : ℤ) (pathname : List UInt8) (flags handle : ℕ) (file : Option ℕ)
    (s : State) : FuelStable fun fuel => vfsOpen i₀ fuel pathname flags handle file s := by
  apply (openNode_stable i₀ pathname flags s).bind
  rintro ⟨node, s⟩
  exact fuelStable_const _

theorem vfsOpen_mono (i₀ : ℤ) (pathname : List UInt8) (flags handle : ℕ) (file : Option ℕ)
    (s : State) : FuelMonotone fun fuel => vfsOpen i₀ fuel pathname flags handle file s :=
  (vfsOpen_stable i₀ pathname flags handle file s).mono

/-- `tmpfs_open` opens regular files only. -/
theorem tmpfsOpen_cases {fs fs' : Fs} (returns : tmpfsOpen handle v flags fs = .ok (r, fs')) :
    ∃ node, fs.nodes[v]? = some node ∧
      ((r = 0 ∧ node.component.type = .file ∧
          fs' = { fs with files := fs.files.alloc handle ⟨some v, 0, node.fOps, flags⟩ }) ∨
        r = -1 ∧ node.component.type ≠ .file ∧ fs' = fs) := by
  obtain ⟨node, here, returns⟩ := outcome_bind_eq_ok.mp returns
  refine ⟨node, Fs.node_eq_ok.mp here, ?_⟩
  split_ifs at returns with other
  · obtain ⟨rfl, rfl⟩ := by simpa using returns
    exact .inr ⟨rfl, other, rfl⟩
  · obtain ⟨rfl, rfl⟩ := by simpa using returns
    exact .inl ⟨rfl, not_not.mp other, rfl⟩

theorem State.Finds.unique {w : ℕ} (finds : s.Finds pathname v) (finds' : s.Finds pathname w) :
    v = w := by
  have same := (vfsLookup_mono ..).returns_unique finds finds'
  simpa using same

/-- A lookup that fails, fails in every call. -/
theorem State.not_finds {target' : Option ℕ}
    (failed : Returns (fun fuel => vfsLookup fuel pathname none s) (-1, target', s')) (v : ℕ) :
    ¬ s.Finds pathname v := by
  intro finds
  have same := (vfsLookup_mono ..).returns_unique failed finds
  simp at same

/-- What `vfs_open` makes of the vnode that creation has come to. -/
def Fs.newFile (fs : Fs) (v : ℕ) : Fs :=
  fs.modifyComponent v fun component => { component with type := .file, payload := .null }

/-- A new handle of the vnode. -/
def Fs.openFile (fs : Fs) (handle v flags : ℕ) (fOps : FsKind) : Fs :=
  { fs with files := fs.files.alloc handle ⟨some v, 0, fOps, flags⟩ }

theorem tmpfsOpen_file {fs : Fs} (here : fs.nodes[v]? = some node)
    (regular : node.component.type = .file) :
    tmpfsOpen handle v flags fs = .ok (0, fs.openFile handle v flags node.fOps) := by
  rw [tmpfsOpen, Fs.node_eq_ok.mpr here, outcome_bind_ok, if_neg (not_not.mpr regular)]
  rfl

theorem tmpfsOpen_dir {fs : Fs} (here : fs.nodes[v]? = some node)
    (other : node.component.type ≠ .file) : tmpfsOpen handle v flags fs = .ok (-1, fs) := by
  rw [tmpfsOpen, Fs.node_eq_ok.mpr here, outcome_bind_ok, if_pos other]
  rfl

theorem Fs.newFile_self {fs : Fs} (here : fs.nodes[v]? = some node) :
    (fs.newFile v).nodes[v]? = some { node with component :=
      { node.component with type := .file, payload := .null } } :=
  Fs.modifyComponent_self _ here

theorem tmpfsOpen_newFile {fs : Fs} (here : fs.nodes[v]? = some node) :
    tmpfsOpen handle v flags (fs.newFile v) =
      .ok (0, (fs.newFile v).openFile handle v flags node.fOps) := by
  rw [tmpfsOpen_file (Fs.newFile_self here) rfl]

/-- Behind a lookup that fails, the first part of `vfs_open` is a call for creation. -/
theorem openNode_iff {root : ℕ} {node : Option ℕ} (rootfs : s.rootfs = some root)
    (lookup : Returns (fun fuel => vfsLookup fuel pathname none s) (-1, target, s))
    (creat : flags &&& oCreat ≠ 0) :
    Returns (fun fuel => openNode i₀ fuel pathname flags s) (node, s') ↔
      ∃ result target' s₁, Returns (fun fuel => lookupPath i₀ fuel pathname root target true s)
        (result, target', s₁) ∧ (result = 0 ∧ (∃ v old, target' = some v ∧ node = some v ∧
          s₁.fs.nodes[v]? = some old ∧ s' = { s₁ with fs := s₁.fs.newFile v }) ∨
        result ≠ 0 ∧ node = none ∧ s' = s₁) := by
  have failed : (-1 : ℤ) ≠ 0 ∧ flags &&& oCreat ≠ 0 := ⟨by decide, creat⟩
  constructor
  · rintro ⟨fuel, returns⟩
    dsimp only [openNode] at returns
    obtain ⟨looked, first, returns⟩ := outcome_bind_eq_ok.mp returns
    obtain rfl := (vfsLookup_mono ..).returns_unique lookup ⟨fuel, first⟩
    simp only [if_pos failed, rootfs] at returns
    obtain ⟨⟨result, target', s₁⟩, create, returns⟩ := outcome_bind_eq_ok.mp returns
    refine ⟨result, target', s₁, ⟨fuel, create⟩, ?_⟩
    dsimp only at returns
    split_ifs at returns with success
    · cases target' with
      | none => contradiction
      | some v =>
        obtain ⟨old, here, returns⟩ := outcome_bind_eq_ok.mp returns
        cases returns
        exact .inl ⟨success, v, old, rfl, rfl, Fs.node_eq_ok.mp here, rfl⟩
    · cases returns
      exact .inr ⟨success, rfl, rfl⟩
  · rintro ⟨result, target', s₁, ⟨fuel', create⟩, made⟩
    obtain ⟨fuel, lookup⟩ := lookup
    -- one bound for both calls
    refine ⟨max fuel fuel', ?_⟩
    have lookup' := (vfsLookup_mono ..).of_le (Nat.le_max_left fuel fuel') lookup
    have create' := (lookupPath_mono ..).of_le (Nat.le_max_right fuel fuel') create
    simp only [openNode, lookup', outcome_bind_ok, if_pos failed, rootfs, create']
    rcases made with ⟨rfl, v, old, rfl, rfl, here, rfl⟩ | ⟨other, rfl, rfl⟩
    · simp only [if_true, Fs.node_eq_ok.mpr here]
      rfl
    · rw [if_neg other]
      rfl

/-- The vnode that `vfs_open` opens: one that the path leads to, or one that it has made a
regular file; or none, and then the path leads nowhere. -/
theorem openNode_cases {node : Option ℕ}
    (returns : openNode i₀ fuel pathname flags s = .ok (node, s')) :
    (∃ v, node = some v ∧ s' = s ∧ s.Finds pathname v) ∨
      (∀ v, ¬ s.Finds pathname v) ∧
        (flags &&& oCreat ≠ 0 ∧ s.RootDir ∧ (∃ v created, node = some v ∧
            s'.fs.nodes[v]? = some created ∧ created.component.type = .file) ∨
          ¬ (flags &&& oCreat ≠ 0 ∧ s.RootDir) ∧ node = none) := by
  have opened := returns
  rw [openNode] at returns
  obtain ⟨⟨result, found, s₁⟩, lookup, returns⟩ := outcome_bind_eq_ok.mp returns
  obtain ⟨rfl, success⟩ := vfsLookup_lookup lookup
  rcases success with ⟨rfl, v, rfl⟩ | rfl
  · obtain ⟨rfl, rfl⟩ := by simpa using returns
    exact .inl ⟨v, rfl, rfl, fuel, lookup⟩
  · -- the lookup failed, so it does in every call
    have nothing := State.not_finds ⟨fuel, lookup⟩
    refine .inr ⟨nothing, ?_⟩
    dsimp only at returns
    by_cases creat : flags &&& oCreat ≠ 0
    · rw [if_pos ⟨by decide, creat⟩] at returns
      cases rootfs : s₁.rootfs with
      | none =>
        simp only [rootfs] at returns
        contradiction
      | some root =>
        obtain ⟨result, made, s₂, ⟨fuel', create⟩, cases⟩ :=
          (openNode_iff rootfs ⟨fuel, lookup⟩ creat).mp ⟨fuel, opened⟩
        obtain ⟨u, settles, success⟩ := lookupPath_create create
        rcases cases with ⟨rfl, v, old, -, rfl, here, rfl⟩ | ⟨failed, rfl, rfl⟩
        · -- what `lookup_path` returns tells whether the root is a directory
          have dir := (success.resolve_right fun both => absurd both.1 (by decide)).2
          exact .inl ⟨creat, ⟨root, u, rootfs, settles, dir⟩, v, _, rfl,
            Fs.modifyComponent_self _ here, rfl⟩
        · have no_dir := (success.resolve_left fun both => failed both.1).2
          refine .inr ⟨?_, rfl⟩
          rintro ⟨-, root', u', rootfs', settles', dir⟩
          obtain rfl := Option.some.inj (rootfs.symm.trans rootfs')
          obtain rfl := settles.unique settles'
          exact no_dir dir
    · rw [if_neg fun both => creat both.2, if_pos (by decide)] at returns
      obtain ⟨rfl, rfl⟩ := by simpa using returns
      exact .inr ⟨fun both => creat both.1, rfl⟩

/-- **When `vfs_open` succeeds**, whatever the state and the variable `i₀`; and it has then
opened a new handle at the start of the file. -/
theorem vfsOpen_returns
    (returns : Returns (fun fuel => vfsOpen i₀ fuel pathname flags handle file s) (r, file', s')) :
    (s.Openable pathname flags ∧ r = 0 ∧ file' = some handle ∧
        ∃ opened, s'.fs.files handle = some opened ∧ opened.fPos = 0) ∨
      ¬ s.Openable pathname flags ∧ r = -1 ∧ file' = file := by
  obtain ⟨fuel, returns⟩ := returns
  simp only [vfsOpen] at returns
  obtain ⟨⟨node, s₁⟩, found, returns⟩ := outcome_bind_eq_ok.mp returns
  -- what `tmpfs_open` does with a vnode
  have opens : ∀ {v}, node = some v → ∃ node', s₁.fs.nodes[v]? = some node' ∧
      ((node'.component.type = .file ∧ r = 0 ∧ file' = some handle ∧
          ∃ opened, s'.fs.files handle = some opened ∧ opened.fPos = 0) ∨
        node'.component.type ≠ .file ∧ r = -1 ∧ file' = file) := by
    rintro v rfl
    obtain ⟨⟨result, fs⟩, opened, returns⟩ := outcome_bind_eq_ok.mp returns
    obtain ⟨node', here, ⟨rfl, type, rfl⟩ | ⟨rfl, type, rfl⟩⟩ := tmpfsOpen_cases opened
    · obtain ⟨rfl, rfl, rfl⟩ := by simpa using returns
      exact ⟨node', here, .inl ⟨type, rfl, rfl, _, Heap.alloc_self, rfl⟩⟩
    · obtain ⟨rfl, rfl, rfl⟩ := by simpa using returns
      exact ⟨node', here, .inr ⟨type, rfl, rfl⟩⟩
  rcases openNode_cases found with ⟨v, same, rfl, finds⟩ | ⟨nothing, created | failed⟩
  · obtain ⟨node', here, ⟨type, opened⟩ | ⟨type, failed⟩⟩ := opens same
    · exact .inl ⟨.inl ⟨v, node', finds, here, type⟩, opened⟩
    · refine .inr ⟨?_, failed⟩
      rintro (⟨w, node, finds', here', type'⟩ | ⟨nothing, -⟩)
      · obtain rfl := finds.unique finds'
        obtain rfl := Option.some.inj (here.symm.trans here')
        exact type type'
      · exact nothing v finds
  · obtain ⟨creat, root, v, made, same, there, regular⟩ := created
    obtain ⟨node', here, ⟨-, opened⟩ | ⟨type, -⟩⟩ := opens same
    · exact .inl ⟨.inr ⟨nothing, creat, root⟩, opened⟩
    · obtain rfl := Option.some.inj (there.symm.trans here)
      exact absurd regular type
  · obtain ⟨refused, rfl⟩ := failed
    obtain ⟨rfl, rfl, -⟩ := by simpa using returns
    refine .inr ⟨?_, rfl, rfl⟩
    rintro (⟨v, -, finds, -⟩ | ⟨-, wanted⟩)
    · exact nothing v finds
    · exact refused wanted

end BareMetal.Vfs
