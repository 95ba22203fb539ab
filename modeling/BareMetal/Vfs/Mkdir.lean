import BareMetal.Vfs.Create

/-!
# `vfs_mkdir`

`vfs_mkdir` makes all missing directories of a path. Lookups cross mounts where they enter a
directory and creation where it finds an entry, so the two agree as long as at most one
filesystem is mounted on an entry.

## Main results

* `PlainTree.mkdir_lookup` — the path and its prefixes lead to directories afterwards, and
  all other paths lead where they led before
-/

namespace BareMetal.Vfs

open CS Strings

variable {s s' : State} {root d v : ℕ} {p q ks : List (List UInt8)} {k : List UInt8}

/-! ## Paths in normal form -/

theorem path_ne_root (some_name : ks ≠ []) (proper : ∀ k ∈ ks, IsName k) : path ks ≠ [slash] := by
  cases ks with
  | nil => exact absurd rfl some_name
  | cons k ks =>
    have nonempty := (proper k List.mem_cons_self).ne_nil
    simp [path_cons, nonempty]

theorem not_nul_mem_path (proper : ∀ k ∈ ks, IsName k) : 0 ∉ path ks := by
  intro inside
  obtain ⟨k, name, inside⟩ := List.mem_flatMap.mp inside
  rcases List.mem_cons.mp inside with zero | inside
  · exact absurd zero (by decide)
  · exact (proper k name).no_nul inside

theorem IsName.parts (proper : ∀ k ∈ ks, IsName k) : ∀ k ∈ ks, k ≠ [] ∧ slash ∉ k :=
  fun k inside => ⟨(proper k inside).ne_nil, (proper k inside).no_slash⟩

/-- Lookups of paths in normal form. -/
theorem Rooted.finds_path (rooted : Rooted s root) (some_name : ks ≠ [])
    (proper : ∀ k ∈ ks, IsName k) : s.Finds (path ks) v ↔ s.fs.names.Resolves root ks v := by
  have names := components_path some_name (IsName.parts proper)
  have iff := rooted.finds_iff (v := v) (path_ne_root some_name proper) (not_nul_mem_path proper)
    (by
      rw [names]
      exact fun k inside => (proper k inside).short.trans (by decide))
  rwa [names] at iff

/-- The limits of a path in normal form. -/
theorem fits_path (some_name : ks ≠ []) (proper : ∀ k ∈ ks, IsName k)
    (length : (path ks).length < tmpfsMaxPathLen) (depth : ks.length < vfsMaxDepth - 1) :
    Fits (path ks) where
  first := by
    have names := components_path some_name (IsName.parts proper)
    have inside := firstName_mem_components (path ks)
    rw [names] at inside
    exact (proper _ inside).short.trans (by decide)
  length := length
  depth := by
    rw [splitOn_path some_name fun k inside => (proper k inside).no_slash, List.length_cons]
    have bound : vfsMaxDepth = 64 := rfl
    omega

/-! ## `vfs_mkdir` -/

theorem vfsMkdir_stable (i₀ : ℤ) (pathname : List UInt8) (s : State) :
    FuelStable fun fuel => vfsMkdir i₀ fuel pathname s := by
  apply (vfsLookup_stable pathname none s).bind
  rintro ⟨result, node, s⟩
  dsimp only
  split_ifs
  · exact fuelStable_const _
  · cases s.rootfs with
    | none => exact fuelStable_const _
    | some root =>
      apply (lookupPath_stable i₀ pathname root node true s).bind
      rintro ⟨result, _, s⟩
      exact fuelStable_const _

/-- Behind its lookup, unless that returns 1, `vfs_mkdir` is the call for creation. -/
theorem Rooted.vfsMkdir_iff (rooted : Rooted s root) {pathname : List UInt8}
    {found ret : ℤ} {target : Option ℕ} (i₀ : ℤ)
    (lookup : Returns (fun fuel => vfsLookup fuel pathname none s) (found, target, s))
    (not_one : found ≠ 1) : Returns (fun fuel => vfsMkdir i₀ fuel pathname s) (ret, s') ↔
      ∃ result target', Returns (fun fuel => lookupPath i₀ fuel pathname root target true s)
        (result, target', s') ∧ ret = if result = 0 then 0 else -1 := by
  constructor
  · rintro ⟨fuel, returns⟩
    dsimp only [vfsMkdir] at returns
    obtain ⟨looked, first, returns⟩ := outcome_bind_eq_ok.mp returns
    obtain rfl := (vfsLookup_mono ..).returns_unique lookup ⟨fuel, first⟩
    simp only [if_neg not_one, rooted.rootfs] at returns
    obtain ⟨⟨result, target', s₁⟩, create, returns⟩ := outcome_bind_eq_ok.mp returns
    dsimp only at returns
    split_ifs at returns with success
    · cases returns
      exact ⟨result, target', ⟨fuel, create⟩, (if_pos success).symm⟩
    · cases returns
      exact ⟨result, target', ⟨fuel, create⟩, (if_neg success).symm⟩
  · rintro ⟨result, target', ⟨fuel', create⟩, rfl⟩
    obtain ⟨fuel, lookup⟩ := lookup
    refine ⟨max fuel fuel', ?_⟩
    have lookup' := (vfsLookup_mono ..).of_le (Nat.le_max_left fuel fuel') lookup
    have create' := (lookupPath_mono ..).of_le (Nat.le_max_right fuel fuel') create
    simp only [vfsMkdir, lookup', outcome_bind_ok, if_neg not_one, rooted.rootfs, create']
    split_ifs <;> rfl

/-- The lookup in `vfs_mkdir` never returns 1, so it always goes on to create the path. -/
theorem Rooted.vfsMkdir_create (rooted : Rooted s root) {pathname : List UInt8}
    (not_root : pathname ≠ [slash]) (no_nul : 0 ∉ pathname)
    (short : ∀ k ∈ components pathname, k.length < tmpfsMaxComponentName) (i₀ : ℤ) :
    ∃ target, ∀ result target' s',
      Returns (fun fuel => lookupPath i₀ fuel pathname root target true s) (result, target', s') →
        Returns (fun fuel => vfsMkdir i₀ fuel pathname s) (if result = 0 then 0 else -1, s') := by
  obtain ⟨⟨found, target, s₁⟩, lookup, same, looks⟩ :=
    rooted.vfsLookup_looksUp none not_root no_nul (Fs.shortAlong_of_all short)
  obtain rfl : s₁ = s := same
  have not_one : found ≠ 1 := by
    rcases looks with ⟨w, rfl, -⟩ | ⟨rfl, -⟩ <;> simp
  refine ⟨target, fun result target' s' create => ?_⟩
  exact (rooted.vfsMkdir_iff i₀ lookup not_one).mpr ⟨result, target', create, rfl⟩

/-! ## Making directories in a plain tree -/

/-- A tree of tmpfs directories with at most one filesystem mounted on each entry. -/
structure PlainTree (s : State) (root : ℕ) : Prop where
  rooted : Rooted s root
  root_dir : ∀ {d}, s.fs.names.Settles root d → s.fs.names.isDir d
  tmpfs : ∀ {p d node}, s.fs.names.Reaches root p d → s.fs.nodes[d]? = some node →
    node.vOps = .tmpfs
  one_mount : ∀ {p v}, s.fs.names.Resolves root p v → s.fs.names.cover v = none

/-- The names of a path in a plain tree can be made, unless one is a regular file or there is
no room. -/
theorem PlainTree.creatable (plain : PlainTree s root) (reaches : s.fs.names.Reaches root p d)
    (no_file : ∀ {q v}, q <+: p ++ ks → s.fs.names.Resolves root q v → s.fs.names.isDir v)
    (room : ∀ {q k d}, q ++ [k] <+: p ++ ks → s.fs.names.Reaches root q d →
      s.fs.names.child d k = none → s.fs.Room d) : s.Creatable d ks := by
  induction ks generalizing p d with
  | nil => trivial
  | cons k ks ih =>
    have here := List.getElem?_eq_getElem (plain.rooted.tree.reaches_valid reaches)
    have names : p ++ [k] ++ ks = p ++ k :: ks := by simp
    have front : p ++ [k] <+: p ++ k :: ks := ⟨ks, names⟩
    refine ⟨⟨_, here, .inl (plain.tmpfs reaches here)⟩, ?_⟩
    cases found : s.fs.names.child d k with
    | none => exact room front reaches found
    | some x =>
      have resolves : s.fs.names.Resolves root (p ++ [k]) x :=
        Namespace.resolves_snoc.mpr ⟨d, reaches, found⟩
      have dir := no_file front resolves
      have free := plain.one_mount resolves
      have reaches' : s.fs.names.Reaches root (p ++ [k]) x :=
        Namespace.reaches_snoc.mpr ⟨d, reaches, x, found, dir, Namespace.settles_self free⟩
      refine ⟨dir, free, ih reaches' ?_ ?_⟩
      · rw [names]
        exact no_file
      · rw [names]
        exact room

/-- What was created is rooted as before. -/
theorem Created.rooted (created : Created { s with strtok := .idle } root p ks v s')
    (rooted : Rooted s root) : Rooted s' root where
  rootfs := by
    rw [created.others]
    exact rooted.rootfs
  tree := created.tree
  idle := by
    rw [created.others]
    rfl

/-- **`vfs_mkdir`, then `vfs_lookup`.** In a plain tree `vfs_mkdir` returns 0 for each path in
normal form that fits the limits, meets no regular file and finds room. Then the path and its
prefixes lead to directories; all other paths lead where they led before, or nowhere, if
they led nowhere. -/
theorem PlainTree.mkdir_lookup (plain : PlainTree s root) (some_name : ks ≠ [])
    (proper : ∀ k ∈ ks, IsName k) (length : (path ks).length < tmpfsMaxPathLen)
    (depth : ks.length < vfsMaxDepth - 1)
    (no_file : ∀ q v, q ≠ [] → q <+: ks → s.Finds (path q) v → s.fs.names.isDir v)
    (room : ∀ q k d, q ++ [k] <+: ks → s.fs.names.Reaches root q d →
      s.fs.names.child d k = none → s.fs.Room d) :
    ∃ s', Returns (fun fuel => vfsMkdir 0 fuel (path ks) s) (0, s') ∧
      (∀ q, q ≠ [] → q <+: ks → ∃ v, s'.Finds (path q) v ∧ s'.fs.names.isDir v) ∧
      ∀ q, q ≠ [] → (∀ k ∈ q, IsName k) →
        (∀ v, s.Finds (path q) v → s'.Finds (path q) v) ∧
          (¬ q <+: ks → (∀ v, ¬ s.Finds (path q) v) → ∀ v, ¬ s'.Finds (path q) v) := by
  have rooted := plain.rooted
  have tree := rooted.tree
  have names := splitNames_path (IsName.parts proper)
  obtain ⟨d, settles⟩ := tree.exists_settles root
  have reaches : s.fs.names.Reaches root [] d := Namespace.reaches_nil.mpr settles
  have creatable : s.Creatable d ks := by
    apply plain.creatable reaches
    · intro q v inside resolves
      rcases eq_or_ne q [] with rfl | some_name'
      · exact absurd resolves Namespace.not_resolves_nil
      · have proper' := fun k name => proper k (inside.subset name)
        exact no_file q v some_name' inside ((rooted.finds_path some_name' proper').mpr resolves)
    · exact fun {q k d} => room q k d
  -- the call is one of `lookup_path`, which creates what is missing
  obtain ⟨target, mkdir⟩ := rooted.vfsMkdir_create (path_ne_root some_name proper)
    (not_nul_mem_path proper) (by
      rw [components_path some_name (IsName.parts proper)]
      exact fun k inside => (proper k inside).short.trans (by decide)) 0
  obtain ⟨v, s', returns, created⟩ := tree.lookupPath_creates target tree.root_valid
    rooted.idle (fits_path some_name proper length depth) settles reaches (plain.root_dir settles)
    (by rwa [names]) (by rwa [names]) (by rwa [names])
  rw [names] at created
  have rooted' := created.rooted rooted
  refine ⟨s', mkdir _ _ _ returns, fun q some_name' inside => ?_, fun q some_name' proper' => ?_⟩
  · obtain ⟨u, resolves, dir⟩ := created.reaches.exists_resolves some_name' inside
    have proper' := fun k name => proper k (inside.subset name)
    exact ⟨u, (rooted'.finds_path some_name' proper').mpr resolves, dir⟩
  · simp only [rooted.finds_path some_name' proper', rooted'.finds_path some_name' proper']
    refine ⟨fun v => created.keeps, fun outside nothing v resolves => ?_⟩
    rcases created.only resolves with old | inside
    · exact nothing v old
    · exact outside inside

/-! ## An empty root -/

/-- The root of a tmpfs. -/
def tmpfsRoot : Vnode := ⟨none, .tmpfs, .tmpfs, ⟨[], .dir, 0, .null⟩⟩

/-- Nothing but the root of a tmpfs. -/
def freshRoot : State where
  fs :=
    { nodes := [tmpfsRoot], buffers := fun _ => none, files := fun _ => none, uartIn := [],
      uartOut := [] }
  rootfs := some 0
  mounted := false
  strtok := .idle

theorem freshRoot_nodes {node : Vnode} (here : freshRoot.fs.nodes[d]? = some node) :
    d = 0 ∧ node = tmpfsRoot := by
  cases d with
  | zero => exact ⟨rfl, (Option.some.inj here).symm⟩
  | succ d => simp [freshRoot] at here

theorem freshRoot_listing (d : ℕ) : freshRoot.fs.listing d = [] := by
  cases d with
  | zero => rfl
  | succ d => simp [Fs.listing, freshRoot]

theorem freshRoot_cover (d : ℕ) : freshRoot.fs.names.cover d = none := by
  cases d with
  | zero => rfl
  | succ d => simp [Fs.names, freshRoot]

theorem freshRoot_child (d : ℕ) (k : List UInt8) : freshRoot.fs.names.child d k = none := by
  simp [Namespace.child, Fs.names, freshRoot_listing]

theorem freshRoot_reaches (reaches : freshRoot.fs.names.Reaches 0 p d) : p = [] ∧ d = 0 := by
  rcases List.eq_nil_or_concat' p with rfl | ⟨p, k, rfl⟩
  · have settles := Namespace.reaches_nil.mp reaches
    exact ⟨rfl, (Namespace.settles_iff_of_free (freshRoot_cover 0)).mp settles⟩
  · obtain ⟨d', -, x, found, -⟩ := Namespace.reaches_snoc.mp reaches
    rw [freshRoot_child] at found
    contradiction

theorem freshRoot_plain : PlainTree freshRoot 0 where
  rooted :=
    { rootfs := rfl
      idle := rfl
      tree :=
        { root_valid := by decide
          sound := by
            intro d node here
            obtain ⟨-, rfl⟩ := freshRoot_nodes here
            exact fun _ => .inl ⟨rfl, rfl⟩
          listed_valid := by simp [freshRoot_listing]
          listed_name := by simp [freshRoot_listing]
          listed_once := by simp [freshRoot_listing]
          root_listed := by simp [freshRoot_listing]
          mount_valid := by simp [freshRoot_cover]
          mount_once := by simp [freshRoot_cover]
          mount_listed := by simp [freshRoot_cover]
          root_mount := by simp [freshRoot_cover] } }
  root_dir settles := by
    obtain rfl := (Namespace.settles_iff_of_free (freshRoot_cover 0)).mp settles
    rfl
  tmpfs _ here := by
    obtain ⟨-, rfl⟩ := freshRoot_nodes here
    rfl
  one_mount _ := freshRoot_cover _

theorem freshRoot_not_finds (some_name : q ≠ []) (proper : ∀ k ∈ q, IsName k) :
    ¬ freshRoot.Finds (path q) v := by
  rw [freshRoot_plain.rooted.finds_path some_name proper]
  rintro ⟨init, last, d, rfl, reaches, found⟩
  rw [freshRoot_child] at found
  contradiction

/-- `/a/b` in an empty root. -/
theorem freshRoot_mkdir : ∃ s', Returns (fun fuel => vfsMkdir 0 fuel (path [[97], [98]]) freshRoot)
      (0, s') ∧
    (∀ q, q ≠ [] → q <+: [[97], [98]] → ∃ v, s'.Finds (path q) v ∧ s'.fs.names.isDir v) ∧
    ∀ q, q ≠ [] → (∀ k ∈ q, IsName k) →
      (∀ v, freshRoot.Finds (path q) v → s'.Finds (path q) v) ∧
        (¬ q <+: [[97], [98]] → (∀ v, ¬ freshRoot.Finds (path q) v) →
          ∀ v, ¬ s'.Finds (path q) v) := by
  have proper : ∀ k ∈ [[97], [98]], IsName k := by
    intro k inside
    rcases List.mem_pair.mp inside with rfl | rfl <;>
      exact ⟨by decide, by decide, by decide, by decide⟩
  refine freshRoot_plain.mkdir_lookup (by decide) proper (by decide) (by decide) ?_ ?_
  · intro q v some_name inside finds
    exact absurd finds (freshRoot_not_finds some_name fun k name => proper k (inside.subset name))
  · intro q k d _ reaches _
    obtain ⟨-, rfl⟩ := freshRoot_reaches reaches
    exact ⟨tmpfsRoot, rfl, by decide⟩

end BareMetal.Vfs
