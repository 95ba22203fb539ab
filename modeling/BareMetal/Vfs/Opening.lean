import BareMetal.Vfs.Buffers
import BareMetal.Vfs.Creation

/-!
# When `sysc_open` keeps the law of descriptors

`sysc_open` returns the descriptor also when `vfs_open` fails. And `vfs_open` may not return: the
create branch of `lookup_path` returns 0 whatever it has made, and if nothing has been stored in
`node` by then, neither by the lookup nor by the loop, `vfs_open` follows a null pointer.

## Main results

* `Rooted.vfsOpen_succeeds_iff` — when `vfs_open` returns 0
* `Session.Ready.law_iff` — a call of `sysc_open` returns and keeps the law exactly if no entry
  is idle, or what is copied fits and `vfs_open` returns 0
* `Run.descriptors` — in runs under this condition all calls of `sysc_open` do, and open
  descriptors are different
-/

namespace BareMetal.Vfs

open CS Strings

variable {s s' : State} {root d u v : ℕ} {node : Vnode} {pathname : List UInt8}
  {names : List (List UInt8)} {target target' : Option ℕ} {result i₀ : ℤ} {flags handle : ℕ}
  {returned : ℤ × Process × State}

/-! ## What a lookup leaves in `*target` -/

/-- A vnode in `*target` stays there, or another takes its place. -/
theorem Tree.lookupPath_points {fuel : ℕ} (tree : Tree s.fs root) (valid : d < s.fs.nodes.length)
    (no_nul : 0 ∉ pathname) (points : s.Points target)
    (returns : lookupPath i₀ fuel pathname d target false s = .ok (result, target', s')) :
    s.Points target' := by
  induction fuel generalizing pathname d target with
  | zero => cases returns
  | succ fuel ih =>
    have here := List.getElem?_eq_getElem valid
    have short : (firstName pathname).length < tmpfsMaxComponentName := by
      by_contra long
      exact not_returns_of_long_name i₀ long _ ⟨fuel + 1, returns⟩
    cases covered : s.fs.names.cover d with
    | some d' =>
      have mount := (Fs.cover_eq here).symm.trans covered
      rw [lookupPath, firstComponent_eq short, outcome_bind_ok, Fs.node_eq_ok.mpr here,
        outcome_bind_ok, mount] at returns
      exact ih (tree.mount_valid covered).2 no_nul points returns
    | none =>
      cases found : s.fs.names.child d (firstName pathname) with
      | none =>
        rw [tree.lookupPath_none i₀ target here covered no_nul short found] at returns
        cases returns
        exact points
      | some v =>
        have valid' := tree.child_valid found
        rw [tree.lookupPath_some i₀ target here covered no_nul short found
          (List.getElem?_eq_getElem valid')] at returns
        split_ifs at returns
        · cases returns
          exact ⟨v, rfl, valid'⟩
        · exact ih valid' (fun inside => no_nul (mem_of_mem_popFirstComponent inside))
            ⟨v, rfl, valid'⟩ returns
        · cases returns
          exact ⟨v, rfl, valid'⟩

/-- A lookup that fails leaves a vnode exactly if the root has an entry of the first name. -/
theorem Rooted.lookup_points_iff (rooted : Rooted s root) (settles : s.fs.names.Settles root u)
    (no_nul : 0 ∉ pathname) (fits : s.LookupFits root pathname)
    (lookup : Returns (fun fuel => vfsLookup fuel pathname none s) (-1, target, s)) :
    (s.Points target ↔ ∃ v, s.fs.names.child u (firstName pathname) = some v) ∧
      (¬ s.Points target → target = none) := by
  have not_root : pathname ≠ [slash] := by
    rintro rfl
    have same := (vfsLookup_mono ..).returns_unique lookup rooted.vfsLookup_root
    simp at same
  simp only [rooted.vfsLookup_eq not_root no_nul] at lookup
  have tree := rooted.tree
  have short := rooted.short_first fits
  have here := List.getElem?_eq_getElem (tree.settles_valid tree.root_valid settles)
  obtain ⟨depth, start⟩ := tree.lookupPath_settles 0 none false tree.root_valid short settles
  cases found : s.fs.names.child u (firstName pathname) with
  | none =>
    have step := tree.lookupPath_none 0 none here settles.2 no_nul short found 0
    have same := (lookupPath_mono ..).returns_unique lookup ⟨1 + depth, (start 1).trans step⟩
    obtain rfl : target = none := congrArg (fun returned => returned.2.1) same
    simp [State.Points]
  | some v =>
    have valid := tree.child_valid found
    have there := List.getElem?_eq_getElem valid
    have step := tree.lookupPath_some 0 none here settles.2 no_nul short found there
    obtain ⟨fuel, returns⟩ := lookup
    have enough : fuel ≤ fuel + 1 + depth := by omega
    have returns' := (start _).symm.trans ((lookupPath_mono ..).of_le enough returns)
    rw [step] at returns'
    have points : s.Points target := by
      split_ifs at returns' with last dir
      · cases returns'
      · exact tree.lookupPath_points valid
          (fun inside => no_nul (mem_of_mem_popFirstComponent inside)) ⟨v, rfl, valid⟩ returns'
      · cases returns'
        exact ⟨v, rfl, valid⟩
    exact ⟨iff_of_true points ⟨v, rfl⟩, fun nothing => absurd points nothing⟩

/-! ## `vfs_open` -/

/-- The lookup or the loop stores a vnode: the root has an entry of the first name, or does not
refuse all the names that the loop comes to. -/
def State.StoresVnode (s : State) (u : ℕ) (i₀ : ℤ) (pathname : List UInt8) : Prop :=
  (∃ v, s.fs.names.child u (firstName pathname) = some v) ∨
    ∃ k ∈ (pathname.splitOn slash).drop i₀.toNat, k ≠ [] ∧ ¬ s.Refuses u k

/-- Creation below the root goes well: the loop does not start in front of `rest_comps`,
everything fits, and there is a vnode in the end. -/
structure State.Creates (s : State) (u : ℕ) (i₀ : ℤ) (pathname : List UInt8) : Prop where
  dir : s.fs.names.isDir u
  start : 0 ≤ i₀
  fits : s.CreateFits u i₀ pathname
  stores : s.StoresVnode u i₀ pathname

/-- The path leads to a regular file. -/
def State.LeadsToFile (s : State) (root : ℕ) (pathname : List UInt8) : Prop :=
  ∃ v node, s.LeadsTo root pathname v ∧ s.fs.nodes[v]? = some node ∧ node.component.type = .file

/-- The lookup fits, and the path leads to a regular file, or nowhere, and a new file is asked
for and can be created. -/
def State.CanOpen (s : State) (root u : ℕ) (i₀ : ℤ) (pathname : List UInt8) (flags : ℕ) : Prop :=
  s.LookupFits root pathname ∧ (s.LeadsToFile root pathname ∨
    (∀ v, ¬ s.LeadsTo root pathname v) ∧ flags &&& oCreat ≠ 0 ∧ s.Creates u i₀ pathname)

section Calls

variable (rooted : Rooted s root) (settles : s.fs.names.Settles root u) (no_nul : 0 ∉ pathname)
include rooted settles no_nul

/-- What a call for creation leaves, behind a lookup that fails. -/
theorem Rooted.create_returns (dir : s.fs.names.isDir u) (fits : s.LookupFits root pathname)
    (lookup : Returns (fun fuel => vfsLookup fuel pathname none s) (-1, target, s))
    (create : Returns (fun fuel => lookupPath i₀ fuel pathname root target true s)
      (result, target', s')) :
    result = 0 ∧ Rooted s' root ∧ (s'.Points target' ↔ s.StoresVnode u i₀ pathname) := by
  have path_fits : Fits pathname := by
    by_contra long
    exact not_returns_of_long rooted settles dir i₀ target long _ create
  obtain ⟨-, loop⟩ := (returns_iff_createLoop rooted settles dir i₀ target path_fits _).mp create
  have clean : ∀ k ∈ (pathname.splitOn slash).drop i₀.toNat, 0 ∉ k ∧ slash ∉ k := by
    intro k inside
    have piece := List.mem_of_mem_drop inside
    exact ⟨not_nul_mem_splitOn no_nul k piece, not_mem_pieces slash pathname k piece⟩
  obtain ⟨rfl, -, rooted'⟩ := rooted.loop_adds clean loop
  refine ⟨rfl, rooted', ?_⟩
  obtain ⟨points_iff, nothing⟩ := rooted.lookup_points_iff settles no_nul fits lookup
  by_cases points : s.Points target
  · have points' : s'.Points target' :=
      Tree.createLoop_points (s := { s with strtok := .idle }) rooted.tree clean points loop
    exact iff_of_true points' (.inl (points_iff.mp points))
  · obtain rfl := nothing points
    have here := List.getElem?_eq_getElem (rooted.tree.settles_valid rooted.tree.root_valid settles)
    have stored := Tree.createLoop_points_iff (s := { s with strtok := .idle }) rooted.tree here
      ((Fs.isDir_iff here).mp dir) clean loop
    rw [State.StoresVnode, or_iff_right fun first => points (points_iff.mpr first)]
    exact stored

/-- What `vfs_open` looks up or creates leaves the files below the root. -/
theorem Rooted.openNode_rooted {found : Option ℕ}
    (returns : Returns (fun fuel => openNode i₀ fuel pathname flags s) (found, s')) :
    Rooted s' root := by
  have fits : s.LookupFits root pathname := by
    by_contra long
    have overflows : Ends (fun fuel => openNode i₀ fuel pathname flags s) (.error .outOfBounds) :=
      (rooted.vfsLookup_long no_nul long).bind_error
    have same := (openNode_stable i₀ pathname flags s).ends_unique (Returns.ends returns) overflows
    contradiction
  obtain ⟨r, target, lookup, looks⟩ := rooted.vfsLookup_ends no_nul fits
  by_cases creating : r ≠ 0 ∧ flags &&& oCreat ≠ 0
  · obtain rfl : r = -1 := looks.elim (fun found => absurd found.1 creating.1) And.left
    obtain ⟨result, target', s₁, create, made⟩ :=
      (openNode_iff rooted.rootfs lookup creating.2).mp returns
    have rooted₁ : Rooted s₁ root := by
      by_cases dir : s.fs.names.isDir u
      · exact (rooted.create_returns settles no_nul dir fits lookup create).2.1
      · have nothing := rooted.create_no_dir settles dir i₀ target (rooted.short_first fits)
        cases (lookupPath_mono ..).returns_unique create nothing
        exact rooted
    rcases made with ⟨-, v, old, -, -, -, rfl⟩ | ⟨-, -, rfl⟩
    · exact ⟨rooted₁.rootfs, makesFile_open.tree rooted₁.tree, rooted₁.idle⟩
    · exact rooted₁
  · -- a lookup changes nothing
    obtain ⟨fuel, returns⟩ := returns
    obtain ⟨looked, first, returns⟩ := outcome_bind_eq_ok.mp returns
    obtain rfl := (vfsLookup_mono ..).returns_unique lookup ⟨fuel, first⟩
    simp only [if_neg creating] at returns
    rcases looks with ⟨rfl, v, rfl, -⟩ | ⟨rfl, -⟩
    · cases returns
      exact rooted
    · cases returns
      exact rooted

/-- **When `vfs_open` returns 0**, for a path that fits `path_copy`. -/
theorem Rooted.vfsOpen_succeeds_iff (length : pathname.length < tmpfsMaxPathLen) (handle : ℕ)
    (file : Option ℕ) :
    (∃ file' s', Returns (fun fuel => vfsOpen i₀ fuel pathname flags handle file s)
        (0, file', s')) ↔ s.CanOpen root u i₀ pathname flags := by
  by_cases fits : s.LookupFits root pathname
  · rw [State.CanOpen, and_iff_right fits]
    have short := rooted.short_first fits
    obtain ⟨found, target, lookup, ⟨rfl, v, rfl, leads⟩ | ⟨rfl, nothing⟩⟩ :=
      rooted.vfsLookup_ends no_nul fits
    · -- the vnode is there, and `tmpfs_open` looks at its type
      rw [or_iff_left fun creates => creates.1 v leads]
      constructor
      · rintro ⟨file', s', returns⟩
        rcases vfsOpen_returns returns with ⟨openable, -⟩ | ⟨-, failed, -⟩
        · rcases openable with ⟨w, node, finds, regular⟩ | ⟨nowhere, -⟩
          · exact ⟨w, node, (rooted.finds_iff_leadsTo no_nul).mp finds, regular⟩
          · exact absurd ((rooted.finds_iff_leadsTo no_nul).mpr leads) (nowhere v)
        · exact absurd failed (by decide)
      · rintro ⟨w, node, leads', here, regular⟩
        obtain rfl := leads.unique leads'
        obtain ⟨fuel, lookup⟩ := lookup
        refine ⟨some handle, { s with fs := s.fs.openFile handle v flags node.fOps }, fuel, ?_⟩
        dsimp only at lookup
        simp [vfsOpen, openNode, lookup, tmpfsOpen_file here regular]
    · have missing : ¬ s.LeadsToFile root pathname := by
        rintro ⟨w, -, leads, -⟩
        exact nothing w leads
      rw [or_iff_right missing]
      constructor
      · rintro ⟨file', s', returns⟩
        have openable : s.Openable pathname flags := by
          rcases vfsOpen_returns returns with ⟨openable, -⟩ | ⟨-, failed, -⟩
          · exact openable
          · exact absurd failed (by decide)
        rcases openable with ⟨w, node, finds, -⟩ | ⟨-, creat, root', u', rootfs, settles', dir⟩
        · exact absurd ((rooted.finds_iff_leadsTo no_nul).mp finds) (nothing w)
        obtain rfl := Option.some.inj (rooted.rootfs.symm.trans rootfs)
        obtain rfl := settles.unique settles'
        obtain ⟨v, s₁, old, create, here, -⟩ :=
          (rooted.vfsOpen_iff settles dir lookup creat).mp returns
        have creation : s.CreationFits u i₀ pathname := by
          by_contra long
          have overflows :=
            (rooted.creation_ends settles i₀ no_nul short length target).2 long
          have same := (lookupPath_stable i₀ pathname root target true s).ends_unique
            (Returns.ends create) overflows
          contradiction
        obtain ⟨start, create_fits⟩ := creation dir
        obtain ⟨-, -, stores_iff⟩ :=
          rooted.create_returns settles no_nul dir fits lookup create
        have stores := stores_iff.mp ⟨v, rfl, (List.getElem?_eq_some_iff.mp here).1⟩
        exact ⟨nothing, creat, dir, start, create_fits, stores⟩
      · rintro ⟨-, creat, dir, start, create_fits, stores⟩
        obtain ⟨⟨result, target', s'⟩, create⟩ :=
          (rooted.creation_ends settles i₀ no_nul short length target).1
            fun _ => ⟨start, create_fits⟩
        obtain ⟨rfl, -, stores_iff⟩ :=
          rooted.create_returns settles no_nul dir fits lookup create
        obtain ⟨v, rfl, valid⟩ := stores_iff.mpr stores
        exact ⟨_, _, (rooted.vfsOpen_iff settles dir lookup creat).mpr
          ⟨v, s', _, create, List.getElem?_eq_getElem valid, rfl, rfl, rfl⟩⟩
  · refine iff_of_false ?_ fun both => fits both.1
    rintro ⟨file', s', returns⟩
    have overflows : Ends (fun fuel => vfsOpen i₀ fuel pathname flags handle file s)
        (.error .outOfBounds) := (rooted.vfsLookup_long no_nul fits).bind_error.bind_error
    have same := (vfsOpen_stable i₀ pathname flags handle file s).ends_unique
      (Returns.ends returns) overflows
    contradiction

/-- Whatever `vfs_open` returns, the files are still below the root. -/
theorem Rooted.vfsOpen_rooted {handle : ℕ} {file file' : Option ℕ}
    (returns : Returns (fun fuel => vfsOpen i₀ fuel pathname flags handle file s)
      (result, file', s')) : Rooted s' root := by
  obtain ⟨fuel, returns⟩ := returns
  obtain ⟨⟨node, s₁⟩, opened, returns⟩ := outcome_bind_eq_ok.mp returns
  have rooted₁ := rooted.openNode_rooted settles no_nul ⟨fuel, opened⟩
  cases node with
  | none =>
    obtain ⟨-, -, rfl⟩ := by simpa using returns
    exact rooted₁
  | some v =>
    obtain ⟨⟨result, fs⟩, opened, returns⟩ := outcome_bind_eq_ok.mp returns
    obtain ⟨node, -, ⟨rfl, -, rfl⟩ | ⟨rfl, -, rfl⟩⟩ := tmpfsOpen_cases opened
    · obtain ⟨-, -, rfl⟩ := by simpa using returns
      exact ⟨rooted₁.rootfs, rooted₁.tree.of_nodes rfl, rooted₁.idle⟩
    · obtain ⟨-, -, rfl⟩ := by simpa using returns
      exact rooted₁

end Calls

/-! ## `sysc_open` -/

section Sysc

variable {c c' : Session} {e : FdEvent}

/-- Without an idle entry `sysc_open` does nothing. -/
theorem syscOpen_full (full : getTaskIdleFd c.process < 0) :
    Returns (fun fuel => syscOpen i₀ fuel handle pathname flags c.process c.state) returned ↔
      returned = (-1, c.process, c.state) := by
  simp only [syscOpen, if_pos full]
  constructor
  · rintro ⟨_, returns⟩
    exact (Except.ok.inj returns).symm
  · rintro rfl
    exact ⟨0, rfl⟩

/-- With one, it binds what `vfs_open` stores. -/
theorem syscOpen_idle {fd : ℕ} (inside : fd < vfsProcessMaxOpenFile)
    (found : getTaskIdleFd c.process = fd) :
    Returns (fun fuel => syscOpen i₀ fuel handle pathname flags c.process c.state) returned ↔
      ∃ r absPath strtok opened file s',
        toAbsPath c.process.cwd pathname c.state.strtok = .ok (r, absPath, strtok) ∧
          Returns (fun fuel => vfsOpen i₀ fuel absPath flags handle none
            { c.state with strtok := strtok }) (opened, file, s') ∧
          returned =
            ((fd : ℤ), { c.process with fdTable := c.process.fdTable.set fd file }, s') := by
  have idle : ¬ (fd : ℤ) < 0 := not_lt.mpr (Int.natCast_nonneg fd)
  simp only [syscOpen, found, if_neg idle]
  constructor
  · rintro ⟨fuel, returns⟩
    obtain ⟨⟨r, absPath, strtok⟩, translated, returns⟩ := outcome_bind_eq_ok.mp returns
    obtain ⟨⟨opened, file, s'⟩, call, returns⟩ := outcome_bind_eq_ok.mp returns
    dsimp only at returns
    rw [c.process.setFd_eq inside] at returns
    exact ⟨r, absPath, strtok, opened, file, s', translated, ⟨fuel, call⟩,
      (Except.ok.inj returns).symm⟩
  · rintro ⟨r, absPath, strtok, opened, file, s', translated, ⟨fuel, call⟩, rfl⟩
    refine ⟨fuel, ?_⟩
    dsimp only at call ⊢
    rw [translated, outcome_bind_ok]
    dsimp only
    rw [call, outcome_bind_ok]
    dsimp only
    rw [c.process.setFd_eq inside]
    rfl

/-- **A call that returns keeps the law** exactly if no entry is idle or `vfs_open` succeeds. -/
theorem FdStep.law_iff (step : FdStep c (.opened i₀ pathname flags handle result) c') :
    FdLaw c (.opened i₀ pathname flags handle result) c' ↔
      getTaskIdleFd c.process < 0 ∨ c.Opens i₀ pathname flags handle := by
  cases step with
  | @opened _ _ _ _ _ process state fresh no_nul returns =>
    rcases getTaskIdleFd_cases c.process with full | ⟨fd, inside, found, idle⟩
    · -- no idle entry
      have negative : getTaskIdleFd c.process < 0 := by
        rw [full]
        decide
      obtain ⟨rfl, rfl, rfl⟩ := by simpa using (syscOpen_full negative).mp returns
      refine iff_of_true ⟨iff_of_false (by decide) fun opens => ?_, by simp, fun _ => rfl⟩
        (.inl negative)
      exact absurd opens.1 (not_le.mpr negative)
    · have nonneg : 0 ≤ getTaskIdleFd c.process := found ▸ Int.natCast_nonneg fd
      rw [or_iff_right (not_lt.mpr nonneg)]
      obtain ⟨r, absPath, strtok, opened, file, s', translated, call, same⟩ :=
        (syscOpen_idle inside found).mp returns
      obtain ⟨rfl, rfl, rfl⟩ := by simpa using same
      refine ⟨fun law => law.1.mp (Int.natCast_nonneg fd), fun opens => ?_⟩
      obtain ⟨-, r', absPath', strtok', file', s', translated', call'⟩ := opens
      cases translated.symm.trans translated'
      cases (vfsOpen_mono ..).returns_unique call call'
      rcases vfsOpen_returns call with ⟨-, -, rfl, at_start⟩ | ⟨-, failed, -⟩
      · refine ⟨iff_of_true (Int.natCast_nonneg fd) ⟨nonneg, r, absPath, strtok, _, _, translated,
          call⟩, fun _ => ⟨fd, inside, rfl, idle, rfl, at_start⟩, fun negative => ?_⟩
        exact absurd (Int.natCast_nonneg fd) (not_le.mpr negative)
      · exact absurd failed (by decide)

/-! ## Runs -/

/-- The files are below the root, and `cwd` is a working directory. -/
structure Session.Ready (c : Session) (root : ℕ) : Prop where
  rooted : Rooted c.state root
  cwd : IsCwd c.process.cwd

/-- `to_abs_path` returns the absolute path, and `vfs_open` opens it. -/
def Session.PathOpens (c : Session) (root : ℕ) (i₀ : ℤ) (pathname : List UInt8) (flags : ℕ) :
    Prop :=
  JoinFits c.process.cwd pathname ∧ ¬ EndsInBlank pathname ∧
    ∃ u, c.state.fs.names.Settles root u ∧
      c.state.CanOpen root u i₀ (absolute c.process.cwd pathname) flags

/-- No entry is idle, or the path can be opened. -/
def FdGuard (root : ℕ) (c : Session) (e : FdEvent) : Prop :=
  match e with
  | .opened i₀ pathname flags _ _ =>
    getTaskIdleFd c.process < 0 ∨ c.PathOpens root i₀ pathname flags
  | .closed _ => True

theorem State.canOpen_with_strtok (strtok : Strtok) :
    State.CanOpen { s with strtok := strtok } root u i₀ pathname flags ↔
      s.CanOpen root u i₀ pathname flags := by
  refine and_congr_right fun _ => or_congr_right (and_congr_right fun _ => and_congr_right fun _ =>
    ⟨fun creates => ?_, fun creates => ?_⟩)
  · exact ⟨creates.dir, creates.start, (State.createFits_with_strtok strtok).mp creates.fits,
      creates.stores⟩
  · exact ⟨creates.dir, creates.start, (State.createFits_with_strtok strtok).mpr creates.fits,
      creates.stores⟩

section Ready

variable (ready : c.Ready root) (no_nul : 0 ∉ pathname)
include ready no_nul

/-- When the call of `vfs_open` succeeds. -/
theorem Session.Ready.opens_iff (handle : ℕ) : c.Opens i₀ pathname flags handle ↔
    0 ≤ getTaskIdleFd c.process ∧ c.PathOpens root i₀ pathname flags := by
  refine and_congr_right fun _ => ?_
  obtain ⟨st', idle, result⟩ := toAbsPath_ends ready.cwd no_nul ready.rooted.idle
  have rooted : Rooted { c.state with strtok := st' } root :=
    ⟨ready.rooted.rootfs, ready.rooted.tree, idle⟩
  obtain ⟨u, settles⟩ := rooted.tree.exists_settles root
  rw [result]
  by_cases fits : JoinFits c.process.cwd pathname
  · by_cases blank : EndsInBlank pathname
    · simp [Session.PathOpens, fits, blank]
    · have succeeds : _ ↔ State.CanOpen _ root u i₀ _ flags :=
        rooted.vfsOpen_succeeds_iff settles (not_nul_mem_absolute ready.cwd no_nul)
          (length_absolute_lt ready.cwd fits) handle none
      rw [State.canOpen_with_strtok] at succeeds
      simp only [if_neg (not_not.mpr fits), if_neg blank]
      constructor
      · rintro ⟨r, absPath, strtok, file, s', translated, call⟩
        cases translated
        exact ⟨fits, blank, u, settles, succeeds.mp ⟨file, s', call⟩⟩
      · rintro ⟨-, -, u', settles', opens⟩
        obtain rfl := settles.unique settles'
        obtain ⟨file, s', call⟩ := succeeds.mpr opens
        exact ⟨0, _, st', file, s', rfl, call⟩
  · simp [Session.PathOpens, fits]

/-- **When `sysc_open` returns and keeps the law.** -/
theorem Session.Ready.law_iff (fresh : c.state.fs.files handle = none) :
    (∃ result c', FdStep c (.opened i₀ pathname flags handle result) c' ∧
        FdLaw c (.opened i₀ pathname flags handle result) c') ↔
      getTaskIdleFd c.process < 0 ∨ c.PathOpens root i₀ pathname flags := by
  rcases getTaskIdleFd_cases c.process with full | ⟨fd, inside, found, -⟩
  · have negative : getTaskIdleFd c.process < 0 := by
      rw [full]
      decide
    have step : FdStep c (.opened i₀ pathname flags handle (-1)) c :=
      .opened fresh no_nul ((syscOpen_full negative).mpr rfl)
    exact iff_of_true ⟨-1, c, step, step.law_iff.mpr (.inl negative)⟩ (.inl negative)
  · have nonneg : 0 ≤ getTaskIdleFd c.process := found ▸ Int.natCast_nonneg fd
    have opens_iff : c.Opens i₀ pathname flags handle ↔ _ := ready.opens_iff no_nul handle
    rw [or_iff_right (not_lt.mpr nonneg)]
    constructor
    · rintro ⟨result, c', step, law⟩
      exact (opens_iff.mp ((step.law_iff.mp law).resolve_left (not_lt.mpr nonneg))).2
    · intro can_open
      have opens := opens_iff.mpr ⟨nonneg, can_open⟩
      obtain ⟨-, r, absPath, strtok, file, s', translated, call⟩ := opens_iff.mpr
        ⟨nonneg, can_open⟩
      have step : FdStep c (.opened i₀ pathname flags handle fd) _ :=
        .opened fresh no_nul ((syscOpen_idle inside found).mpr
          ⟨r, absPath, strtok, 0, file, s', translated, call, rfl⟩)
      exact ⟨fd, _, step, step.law_iff.mpr (.inr opens)⟩

end Ready

/-- A call that returns keeps the law exactly under the condition. -/
theorem FdStep.law_iff_guard (ready : c.Ready root) (step : FdStep c e c') :
    FdLaw c e c' ↔ FdGuard root c e := by
  cases e with
  | closed => exact Iff.rfl
  | opened i₀ pathname flags handle result =>
    have no_nul : 0 ∉ pathname := by
      cases step
      assumption
    rw [step.law_iff, ready.opens_iff no_nul]
    by_cases full : getTaskIdleFd c.process < 0
    · exact iff_of_true (.inl full) (.inl full)
    · simp [FdGuard, full, not_lt.mp full]

/-- The files stay below the root. -/
theorem Session.Ready.next (ready : c.Ready root) (step : FdStep c e c') : c'.Ready root := by
  cases step with
  | @opened i₀ pathname flags handle result process state fresh no_nul returns =>
    rcases getTaskIdleFd_cases c.process with full | ⟨fd, inside, found, -⟩
    · have negative : getTaskIdleFd c.process < 0 := by
        rw [full]
        decide
      cases (syscOpen_full negative).mp returns
      exact ready
    · obtain ⟨r, absPath, strtok, opened, file, s', translated, call, same⟩ :=
        (syscOpen_idle inside found).mp returns
      cases same
      obtain ⟨_, idle, result⟩ := toAbsPath_ends ready.cwd no_nul ready.rooted.idle
      rw [result] at translated
      split_ifs at translated with fits blank
      cases translated
      have rooted : Rooted { c.state with strtok := strtok } root :=
        ⟨ready.rooted.rootfs, ready.rooted.tree, idle⟩
      obtain ⟨u, settles⟩ := rooted.tree.exists_settles root
      exact ⟨rooted.vfsOpen_rooted settles (not_nul_mem_absolute ready.cwd no_nul) call, ready.cwd⟩
  | @closed fd result f process state bound returns =>
    obtain ⟨cwd, files, rfl⟩ := syscClose_others returns
    exact ⟨⟨ready.rooted.rootfs, ready.rooted.tree.of_nodes rfl, ready.rooted.idle⟩,
      cwd ▸ ready.cwd⟩

end Sysc

/-- **Descriptors.** In every state that a run from a mounted root comes to, a call of `sysc_open`
returns and keeps the law exactly if no entry is idle or its path can be opened. The runs whose
calls meet this condition are those whose calls all keep the law, and in them no open descriptor is
returned again. -/
theorem Run.descriptors (c c' : Session) (w : List FdEvent) (ready : c.Ready root) :
    (Run FdStep c w c' → ∀ i₀ pathname flags handle,
        c'.state.fs.files handle = none → 0 ∉ pathname →
        ((∃ result c'', FdStep c' (.opened i₀ pathname flags handle result) c'' ∧
            FdLaw c' (.opened i₀ pathname flags handle result) c'') ↔
          getTaskIdleFd c'.process < 0 ∨ c'.PathOpens root i₀ pathname flags)) ∧
      (Run (Guarded FdStep (FdGuard root)) c w c' ↔
        Run (fun c e c' => FdStep c e c' ∧ FdLaw c e c') c w c') ∧
      (Run (Guarded FdStep (FdGuard root)) c w c' → DifferentFds w) := by
  have guarded_iff : Run (Guarded FdStep (FdGuard root)) c w c' ↔
      Run (fun c e c' => FdStep c e c' ∧ FdLaw c e c') c w c' :=
    Run.guarded_iff_ends ready (fun _ _ _ => Session.Ready.next)
      fun _ _ _ ready step => step.law_iff_guard ready
  refine ⟨fun run i₀ pathname flags handle fresh no_nul => ?_, guarded_iff,
    fun run => Run.different (guarded_iff.mp run)⟩
  have ready' : c'.Ready root :=
    run.preserves (·.Ready root) (fun _ _ _ => Session.Ready.next) ready
  exact ready'.law_iff no_nul fresh

/-- The task creates `/x` and `/y`. -/
theorem firstTask_different : ∃ c₁ c₂,
    FdStep firstTask (.opened 0 [47, 120] oCreat 0x100 0) c₁ ∧
      FdStep c₁ (.opened 0 [47, 121] oCreat 0x200 1) c₂ ∧
      DifferentFds [.opened 0 [47, 120] oCreat 0x100 0, .opened 0 [47, 121] oCreat 0x200 1] := by
  have ready : firstTask.Ready 0 := ⟨freshRoot_plain.rooted, rootCwd⟩
  obtain ⟨c₁, c₂, step, opens, step', opens'⟩ : ∃ c₁ c₂,
      FdStep firstTask (.opened 0 [47, 120] oCreat 0x100 0) c₁ ∧
        firstTask.Opens 0 [47, 120] oCreat 0x100 ∧
        FdStep c₁ (.opened 0 [47, 121] oCreat 0x200 1) c₂ ∧ c₁.Opens 0 [47, 121] oCreat 0x200 :=
    ⟨⟨_, _⟩, ⟨_, _⟩, .opened rfl (by decide) ⟨3, rfl⟩,
      ⟨by decide, 0, _, _, _, _, rfl, 3, rfl⟩, .opened rfl (by decide) ⟨3, rfl⟩,
      ⟨by decide, 0, _, _, _, _, rfl, 3, rfl⟩⟩
  have run : Run (fun c e c' => FdStep c e c' ∧ FdLaw c e c') firstTask _ c₂ :=
    (Run.single ⟨step, step.law_iff.mpr (.inr opens)⟩).snoc
      ⟨step', step'.law_iff.mpr (.inr opens')⟩
  obtain ⟨-, guarded_iff, different⟩ := Run.descriptors firstTask c₂ _ ready
  exact ⟨c₁, c₂, step, step', different (guarded_iff.mpr run)⟩

/-- A path that leads nowhere gets descriptor 0 again and again. -/
theorem firstTask_same : ∃ c₁ c₂,
    FdStep firstTask (.opened 0 [47, 120] 0 0x100 0) c₁ ∧
      FdStep c₁ (.opened 0 [47, 120] 0 0x200 0) c₂ ∧
      ¬ FdLaw firstTask (.opened 0 [47, 120] 0 0x100 0) c₁ ∧
      ¬ DifferentFds [.opened 0 [47, 120] 0 0x100 0, .opened 0 [47, 120] 0 0x200 0] := by
  have step : ∀ handle, FdStep firstTask (.opened 0 [47, 120] 0 handle 0) firstTask :=
    fun _ => .opened rfl (by decide) ⟨3, rfl⟩
  refine ⟨firstTask, firstTask, step _, step _, fun law => ?_, fun different => ?_⟩
  · -- `vfs_open` fails
    obtain ⟨-, r, absPath, strtok, file, s', translated, opened⟩ := law.1.mp le_rfl
    have path : toAbsPath firstTask.process.cwd [47, 120] firstTask.state.strtok =
      .ok (0, [47, 120], .idle) := rfl
    cases path.symm.trans translated
    have failed : Returns (fun fuel => vfsOpen 0 fuel [47, 120] 0 0x100 none freshRoot)
      (-1, none, freshRoot) := ⟨3, rfl⟩
    have same := (vfsOpen_mono ..).returns_unique failed opened
    simp at same
  · exact different [.opened 0 [47, 120] 0 0x100 0] 0 [47, 120] 0 0x200 0 [] rfl le_rfl
      ⟨le_rfl, [], 0, [47, 120], 0, 0x100, [], rfl, List.not_mem_nil⟩

end BareMetal.Vfs
