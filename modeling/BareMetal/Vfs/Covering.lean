import BareMetal.Vfs.Creation
import BareMetal.Vfs.MountFailure

/-!
# What a mount covers

`vfs_mount` of a tmpfs hangs a new root on what its path leads to. `tmpfs_lookup` follows one mount
only, so that the path leads to the new root if nothing was mounted there before; lookups below it
cross all mounts, and the create loop crosses one at each name.

## Main results

* `vfsMount_tmpfs` — what a mount leaves
* `covers_iff` — when the path leads to the new root, and all others where they led before
* `createsBelow_iff` — when directories below it can be made and are found
-/

namespace BareMetal.Vfs

open CS Strings

variable {s s' : State} {root d u v r : ℕ} {k target pathname : List UInt8}
  {p q ks rest : List (List UInt8)} {initrd : Initrd} {i₀ : ℤ}

/-! ## The mount -/

/-- A tmpfs is mounted on the vnode. -/
def State.mountTmpfs (s : State) (v : ℕ) : State :=
  { s with fs := (s.fs.addRoot .tmpfs).setMount v s.fs.nodes.length }

/-- `vfs_mount` of a tmpfs returns 0 wherever its path leads. -/
theorem vfsMount_tmpfs (no_nul : 0 ∉ target) (not_root : target ≠ [slash])
    (not_initramfs : target ≠ initramfsPath) (not_dev : target ≠ devPath)
    (finds : s.Finds target v) (valid : v < s.fs.nodes.length) (returned : ℤ × State) :
    Returns (fun fuel => vfsMount initrd i₀ fuel target tmpfsName s) returned ↔
      returned = (0, s.mountTmpfs v) := by
  have here := List.getElem?_eq_getElem valid
  have mount {fuel : ℕ} (looks : vfsLookup fuel target none s = .ok (0, some v, s)) :
      vfsMount initrd i₀ fuel target tmpfsName s = .ok (0, s.mountTmpfs v) := by
    rw [vfsMount_elsewhere no_nul not_root not_initramfs not_dev, mountOn, looks, outcome_bind_ok]
    simp only [if_true, Fs.node_eq_ok.mpr here]
    rfl
  constructor
  · rintro ⟨fuel, returns⟩
    change vfsMount initrd i₀ fuel target tmpfsName s = .ok returned at returns
    have whole := returns
    rw [vfsMount_elsewhere no_nul not_root not_initramfs not_dev, mountOn] at returns
    obtain ⟨found, looks, -⟩ := outcome_bind_eq_ok.mp returns
    obtain rfl := (vfsLookup_mono target none s).returns_unique finds ⟨fuel, looks⟩
    exact Except.ok.inj (whole.symm.trans (mount looks))
  · rintro rfl
    obtain ⟨fuel, looks⟩ := finds
    exact ⟨fuel, mount looks⟩

section Mount

variable (rooted : Rooted s root) (resolves : s.fs.names.Resolves root q v)
include rooted resolves

/-- The new root is in the tree where it is mounted only. -/
theorem Rooted.mountTmpfs : Rooted (s.mountTmpfs v) root where
  rootfs := rooted.rootfs
  tree := by
    have valid := rooted.tree.resolves_valid resolves
    have new : s.fs.nodes.length < (s.fs.addRoot .tmpfs).nodes.length := by
      rw [Fs.length_addRoot]
      exact Nat.lt_succ_self _
    refine rooted.tree.addRoot.setMount valid new rooted.tree.root_valid.ne' ?_ ?_
    · intro d
      rw [Fs.listing_addRoot]
      exact rooted.tree.not_listed_length d
    · intro x
      rw [Fs.cover_addRoot]
      exact rooted.tree.not_cover_length x
  idle := rooted.idle

theorem Rooted.mounted (dir : s.fs.names.isDir v) :
    Namespace.Mounted (s.fs.addRoot .tmpfs).names (s.mountTmpfs v).fs.names root q v
      s.fs.nodes.length (· = s.fs.nodes.length) where
  entry := Fs.entry_setMount
  isDir := Fs.isDir_setMount
  cover_self := by
    refine Fs.cover_setMount_self ?_
    rw [Fs.length_addRoot]
    exact Nat.lt_succ_of_lt (rooted.tree.resolves_valid resolves)
  cover_of_ne := Fs.cover_setMount_of_ne
  resolves := rooted.tree.resolves_addRoot.mpr resolves
  dir := by
    obtain ⟨q, k, d, rfl, -, found⟩ := resolves
    exact (rooted.tree.isDir_addRoot found).mpr dir
  root_dir := (Fs.isDir_iff Fs.addRoot_new).mpr rfl
  root_inside := rfl
  outside := (rooted.tree.resolves_valid resolves).ne
  closed := by
    rintro d k x rfl entry
    have listed := (Fs.entry_mem entry).1
    rw [Fs.addRoot_listing (Nat.le_refl _)] at listed
    exact absurd listed List.not_mem_nil
  bare := by
    rintro x rfl
    rw [Fs.cover_addRoot]
    simp [Fs.names]

omit rooted resolves in
/-- The new root is empty. -/
theorem State.mountTmpfs_empty (s : State) (v : ℕ) (k : List UInt8) :
    (s.mountTmpfs v).fs.names.child s.fs.nodes.length k = none := by
  have nothing : (s.mountTmpfs v).fs.listing s.fs.nodes.length = [] := by
    rw [State.mountTmpfs, Fs.listing_setMount, Fs.addRoot_listing (Nat.le_refl _)]
  simp [Namespace.child, Fs.names, nothing]

/-- What all other paths resolve to. -/
theorem Rooted.mountTmpfs_resolves (dir : s.fs.names.isDir v) {w : ℕ} (other : p ≠ q) :
    (s.mountTmpfs v).fs.names.Resolves root p w ↔ ¬ q <+: p ∧ s.fs.names.Resolves root p w := by
  rw [(rooted.mounted resolves dir).resolves_iff rooted.tree.addRoot.forest
    rooted.tree.addRoot.exists_settles ?_ other, rooted.tree.resolves_addRoot]
  rintro d k rfl
  exact s.mountTmpfs_empty v k

end Mount

/-! ## The name of the mount -/

section Name

variable (rooted : Rooted s root) (front : s.fs.names.Reaches root p d)
  (found : s.fs.names.child d k = some v) (dir : s.fs.names.isDir v)
include rooted front found dir

/-- All other names find what they found. -/
theorem Rooted.mountTmpfs_child_of_ne {d' : ℕ} {k' : List UInt8} (other : ¬ (d' = d ∧ k' = k)) :
    (s.mountTmpfs v).fs.names.child d' k' = s.fs.names.child d' k' := by
  have mounted := rooted.mounted (Namespace.resolves_snoc.mpr ⟨d, front, found⟩) dir
  rw [mounted.child_of_ne rooted.tree.addRoot.forest
    ((rooted.tree.child_addRoot d k).trans found) other, rooted.tree.child_addRoot]

/-- The name of the mount finds the new root, if nothing was mounted there before. -/
theorem Rooted.mountTmpfs_child_first (free : ∀ x, s.fs.names.cover x ≠ some v) :
    (s.mountTmpfs v).fs.names.child d k = some s.fs.nodes.length := by
  have mounted := rooted.mounted (Namespace.resolves_snoc.mpr ⟨d, front, found⟩) dir
  apply mounted.child_first
  rw [rooted.tree.entry_addRoot]
  exact (rooted.tree.forest.entry_iff found).mpr free

/-- Else it finds what it found, and lookups below it find the new root behind that. -/
theorem Rooted.mountTmpfs_child_again (taken : ¬ ∀ x, s.fs.names.cover x ≠ some v) :
    (s.mountTmpfs v).fs.names.child d k = some v := by
  have mounted := rooted.mounted (Namespace.resolves_snoc.mpr ⟨d, front, found⟩) dir
  apply mounted.child_again ((rooted.tree.child_addRoot d k).trans found)
  rw [rooted.tree.entry_addRoot]
  exact (rooted.tree.forest.entry_iff found).not.mpr taken

end Name

/-! ## Lookups -/

/-- The path leads to somewhere below the other one. -/
def Below (target pathname : List UInt8) : Prop :=
  components target <+: components pathname ∧ components pathname ≠ components target

/-- The path leads to the root of a new tmpfs, under each of its spellings, no path below it
leads anywhere, and all others lead where they led. -/
structure Covers (s s' : State) (target : List UInt8) (r : ℕ) : Prop where
  root : s'.fs.nodes[r]? = some (rootNode .tmpfs)
  new : s.fs.nodes.length ≤ r
  self : ∀ pathname, 0 ∉ pathname → components pathname = components target →
    s'.Finds pathname r
  below : ∀ pathname w, 0 ∉ pathname → Below target pathname → ¬ s'.Finds pathname w
  elsewhere : ∀ pathname w, 0 ∉ pathname → ¬ components target <+: components pathname →
    (s'.Finds pathname w ↔ s.Finds pathname w)

/-- A path with a name that is not empty is not `/`. -/
theorem ne_root_of_name (inside : k ∈ components pathname) (nonempty : k ≠ []) :
    pathname ≠ [slash] := by
  rintro rfl
  rw [components_last rfl] at inside
  exact nonempty (List.mem_singleton.mp inside)

/-- A path other than `/` that finds something. -/
theorem Rooted.resolves_of_finds (rooted : Rooted s root) (no_nul : 0 ∉ target)
    (not_root : target ≠ [slash]) (finds : s.Finds target v) :
    s.fs.names.Resolves root (components target) v :=
  (((rooted.finds_iff_leadsTo no_nul).mp finds).resolve_left fun at_root => not_root at_root.1).2

section Lookups

variable (rooted : Rooted s root) (resolves : s.fs.names.Resolves root (components target) v)
  (dir : s.fs.names.isDir v)
include rooted resolves

/-- Lookups of the path and below it are lookups of their names. -/
theorem Rooted.finds_below (rooted' : Rooted s' root) {w : ℕ} (no_nul : 0 ∉ pathname)
    (inside : components target <+: components pathname) :
    s'.Finds pathname w ↔ s'.fs.names.Resolves root (components pathname) w := by
  obtain ⟨k, names, same⟩ := List.exists_cons_of_ne_nil (@components_ne_nil target)
  have first : k ∈ components target := same ▸ List.mem_cons_self
  have other := ne_root_of_name (inside.subset first)
    (rooted.tree.isName_of_resolves resolves k first).ne_nil
  rw [rooted'.finds_iff_leadsTo no_nul]
  simp [State.LeadsTo, other]

include dir

/-- **What a mount covers**: the path leads to the new root, and all others where they should, if
nothing was mounted there before. -/
theorem Rooted.covers_iff (no_nul : 0 ∉ target) :
    (∃ r, Covers s (s.mountTmpfs v) target r) ↔ ∀ x, s.fs.names.cover x ≠ some v := by
  have rooted' := rooted.mountTmpfs resolves
  obtain ⟨p, k, d, whole, front, found⟩ := id resolves
  have self_iff (w : ℕ) : (s.mountTmpfs v).fs.names.Resolves root (components target) w ↔
      (s.mountTmpfs v).fs.names.child d k = some w :=
    (rooted.mounted resolves dir).resolves_self rooted.tree.addRoot.forest
      rooted.tree.addRoot.exists_settles (rooted.tree.reaches_addRoot.mpr front) whole
  constructor
  · rintro ⟨r, covers⟩
    by_contra taken
    have self := (rooted.finds_below resolves rooted' no_nul List.prefix_rfl).mp
      (covers.self target no_nul rfl)
    rw [self_iff, rooted.mountTmpfs_child_again front found dir taken] at self
    have old := (Option.some.inj self) ▸ rooted.tree.resolves_valid resolves
    exact absurd old (Nat.not_lt.mpr covers.new)
  · intro free
    refine ⟨s.fs.nodes.length, ?_, Nat.le_refl _, ?_, ?_, ?_⟩
    · rw [State.mountTmpfs, Fs.setMount_of_ne (rooted.tree.resolves_valid resolves).ne',
        Fs.addRoot_new]
    · intro pathname no_nul' same
      rw [rooted.finds_below resolves rooted' no_nul' (same ▸ List.prefix_rfl), same, self_iff]
      exact rooted.mountTmpfs_child_first front found dir free
    · rintro pathname w no_nul' ⟨inside, other⟩ finds
      rw [rooted.finds_below resolves rooted' no_nul' inside,
        rooted.mountTmpfs_resolves resolves dir other] at finds
      exact finds.1 inside
    · intro pathname w no_nul' outside
      have other : components pathname ≠ components target := by
        intro same
        exact outside (same ▸ List.prefix_rfl)
      rw [rooted'.finds_iff_leadsTo no_nul', rooted.finds_iff_leadsTo no_nul']
      simp [State.LeadsTo, rooted.mountTmpfs_resolves resolves dir other, outside]

end Lookups

/-! ## Creation -/

/-- `vfs_mkdir` of the path returns 0, and the path leads somewhere then. -/
def CreatesBelow (i₀ : ℤ) (s : State) (pathname : List UInt8) : Prop :=
  ∃ s' w, Returns (fun fuel => vfsMkdir i₀ fuel pathname s) (0, s') ∧ s'.Finds pathname w

theorem State.mountTmpfs_writable (old : d < s.fs.nodes.length) :
    (s.mountTmpfs v).Writable d ↔ s.Writable d := by
  have kinds := @Fs.map_setMount (s.fs.addRoot .tmpfs) v s.fs.nodes.length _ (·.vOps)
    (fun _ _ => rfl) d
  rw [Fs.addRoot_old old] at kinds
  have writable_iff {s : State} :
      s.Writable d ↔ ∃ kind, s.fs.nodes[d]?.map (·.vOps) = some kind ∧ kind.Open s.mounted := by
    simp only [Option.map_eq_some_iff]
    constructor
    · rintro ⟨node, here, opens⟩
      exact ⟨node.vOps, ⟨node, here, rfl⟩, opens⟩
    · rintro ⟨_, ⟨node, here, rfl⟩, opens⟩
      exact ⟨node, here, opens⟩
  rw [writable_iff, writable_iff]
  exact exists_congr fun kind => and_congr_left fun _ => by rw [← kinds]; rfl

theorem State.mountTmpfs_isDir (old : d < s.fs.nodes.length) :
    (s.mountTmpfs v).fs.names.isDir d ↔ s.fs.names.isDir d := by
  rw [State.mountTmpfs, Fs.isDir_setMount]
  simp only [Fs.names, Fs.addRoot_old old]

theorem State.mountTmpfs_cover_of_ne (other : d ≠ v) :
    (s.mountTmpfs v).fs.names.cover d = s.fs.names.cover d := by
  rw [State.mountTmpfs, Fs.cover_setMount_of_ne other, Fs.cover_addRoot]

theorem State.mountTmpfs_cover_self (valid : v < s.fs.nodes.length) :
    (s.mountTmpfs v).fs.names.cover v = some s.fs.nodes.length := by
  refine Fs.cover_setMount_self ?_
  rw [Fs.length_addRoot]
  exact Nat.lt_succ_of_lt valid

/-- In the new root everything can be made. -/
theorem State.mountTmpfs_creatable_root (valid : v < s.fs.nodes.length) :
    (s.mountTmpfs v).Creatable s.fs.nodes.length ks := by
  have here : (s.mountTmpfs v).fs.nodes[s.fs.nodes.length]? = some (rootNode .tmpfs) := by
    rw [State.mountTmpfs, Fs.setMount_of_ne valid.ne', Fs.addRoot_new]
  cases ks with
  | nil => trivial
  | cons k ks =>
    rw [State.Creatable, s.mountTmpfs_empty v k]
    exact ⟨⟨_, here, .inl rfl⟩, _, here, Nat.zero_lt_succ _⟩

/-- A found node on which nothing can have been mounted, as it is the entry itself. -/
theorem Rooted.cover_of_free (rooted : Rooted s root) (found : s.fs.names.child d k = some v)
    (free : ∀ x, s.fs.names.cover x ≠ some v) : s.fs.names.cover v = none := by
  have entry := (rooted.tree.forest.entry_iff found).mpr free
  rw [Namespace.child, entry, Option.map_some, Option.some.injEq] at found
  cases covered : s.fs.names.cover v with
  | none => rfl
  | some z =>
    rw [covered, Option.getD_some] at found
    exact absurd (found ▸ covered) (free v)

/-- **Where the create loop gets to the new root**: if it got to the directory, and nothing was
mounted there before. -/
theorem Rooted.mountTmpfs_creatable (rooted : Rooted s root) (dir : s.fs.names.isDir v)
    (front : s.fs.names.Reaches root p d) (resolves : s.fs.names.Resolves root (p ++ ks) v)
    (some_name : ks ≠ []) :
    (s.mountTmpfs v).Creatable d (ks ++ rest) ↔
      (∀ x, s.fs.names.cover x ≠ some v) ∧ s.Creatable d ks := by
  induction ks generalizing d p with
  | nil => contradiction
  | cons k ks ih =>
    have valid := rooted.tree.reaches_valid front
    have valid' := rooted.tree.resolves_valid resolves
    rw [List.cons_append, State.Creatable, State.Creatable, State.mountTmpfs_writable valid]
    rcases List.eq_nil_or_concat' ks with rfl | ⟨init, last, rfl⟩
    · -- the name of the mount
      obtain ⟨d', front', found⟩ := Namespace.resolves_snoc.mp resolves
      obtain rfl := front'.unique front
      by_cases free : ∀ x, s.fs.names.cover x ≠ some v
      · have root_dir : (s.mountTmpfs v).fs.names.isDir s.fs.nodes.length :=
          (rooted.mounted resolves dir).isDir _ |>.mpr (rooted.mounted resolves dir).root_dir
        have root_free : (s.mountTmpfs v).fs.names.cover s.fs.nodes.length = none := by
          rw [State.mountTmpfs_cover_of_ne valid'.ne']
          simp [Fs.names]
        rw [rooted.mountTmpfs_child_first front found dir free, found]
        simp [root_dir, root_free, State.mountTmpfs_creatable_root valid', free, dir,
          rooted.cover_of_free found free, State.Creatable]
      · rw [rooted.mountTmpfs_child_again front found dir free]
        simp [State.mountTmpfs_cover_self valid', free]
    · -- a name on the way
      have whole : p ++ k :: (init ++ [last]) = p ++ [k] ++ init ++ [last] := by simp
      rw [whole] at resolves
      obtain ⟨d', front', found'⟩ := Namespace.resolves_snoc.mp resolves
      have inside : p ++ [k] <+: p ++ [k] ++ init ++ [last] :=
        (List.prefix_append _ _).trans (List.prefix_append _ _)
      obtain ⟨x, found⟩ := resolves.exists_child inside front
      have other : ¬ (d = d' ∧ k = last) := by
        rintro ⟨rfl, -⟩
        have same := rooted.tree.forest.path_unique front front'
        simp at same
      have other' : x ≠ v := by
        rintro rfl
        exact other (rooted.tree.forest.child_injective rooted.tree.exists_settles found found')
      rw [rooted.mountTmpfs_child_of_ne front' found' dir other, found]
      dsimp only
      rw [State.mountTmpfs_isDir (rooted.tree.child_valid found),
        State.mountTmpfs_cover_of_ne other']
      rw [List.append_assoc (p ++ [k])] at resolves
      have below (dir' : s.fs.names.isDir x) (free' : s.fs.names.cover x = none) :=
        ih (Namespace.reaches_snoc.mpr ⟨d, front, x, found, dir', Namespace.settles_self free'⟩)
          resolves (by simp)
      tauto

theorem Tree.isDir_of_child {fs : Fs} (found : fs.names.child d k = some v) :
    fs.names.isDir d := by
  obtain ⟨x, entry, -⟩ := Namespace.child_eq_some.mp found
  have listed := (Fs.entry_mem entry).1
  cases here : fs.nodes[d]? with
  | none => simp [Fs.listing, here] at listed
  | some node =>
    by_contra other
    rw [Fs.listing_eq here, Component.listed_of_ne (other ∘ (Fs.isDir_iff here).mpr)] at listed
    exact absurd listed List.not_mem_nil

/-- **When a directory below can be made**: nothing was mounted before, creation gets to
where the mount is, the path and its names fit, and the create loop skips none of them. -/
theorem Rooted.createsBelow_iff (rooted : Rooted s root) (settles : s.fs.names.Settles root u)
    (resolves : s.fs.names.Resolves root (components target) v) (dir : s.fs.names.isDir v)
    (no_nul : 0 ∉ pathname) (below : Below target pathname) :
    CreatesBelow i₀ (s.mountTmpfs v) pathname ↔ (∀ x, s.fs.names.cover x ≠ some v) ∧
      s.Creatable u (components target) ∧ Fits pathname ∧ (∀ k ∈ components pathname, IsName k) ∧
        Skips i₀ pathname := by
  have rooted' := rooted.mountTmpfs resolves
  have start : s.fs.names.Reaches root [] u := Namespace.reaches_nil.mpr settles
  obtain ⟨rest, split⟩ := below.1
  -- creation gets to the new root exactly if it got to the directory, and goes on from there
  have creatable_iff : (s.mountTmpfs v).Creatable u (components pathname) ↔
      (∀ x, s.fs.names.cover x ≠ some v) ∧ s.Creatable u (components target) := by
    rw [← split]
    exact rooted.mountTmpfs_creatable dir start resolves components_ne_nil
  have settles' : (s.mountTmpfs v).fs.names.Settles root u := by
    rw [(rooted.mounted resolves dir).start_iff rooted.tree.addRoot.forest
      rooted.tree.addRoot.exists_settles]
    exact (Namespace.settles_congr Fs.cover_addRoot).mpr settles
  have dir' : (s.mountTmpfs v).fs.names.isDir u := by
    obtain ⟨k, names, same⟩ := List.exists_cons_of_ne_nil (@components_ne_nil target)
    have inside : [] ++ [k] <+: components target := ⟨names, same.symm⟩
    obtain ⟨x, found⟩ := resolves.exists_child inside start
    exact (State.mountTmpfs_isDir (rooted.tree.reaches_valid start)).mpr
      (Tree.isDir_of_child found)
  -- the new root is empty
  have nowhere : ¬ ∃ w, (s.mountTmpfs v).LeadsTo root pathname w := by
    rintro ⟨w, leads⟩
    have finds := (rooted'.finds_iff_leadsTo no_nul).mpr leads
    rw [rooted.finds_below resolves rooted' no_nul below.1,
      rooted.mountTmpfs_resolves resolves dir below.2] at finds
    exact finds.1 below.1
  rw [CreatesBelow, rooted'.mkdir_start_iff settles' dir' no_nul nowhere,
    rooted'.mkdirLaw_iff settles' dir' no_nul, or_iff_right nowhere]
  constructor
  · rintro ⟨skips, lookup, path_fits, makes⟩
    obtain ⟨free, creatable⟩ := creatable_iff.mp makes.creatable
    have names := State.namesFit_filter.mpr path_fits.create.names
    change (s.mountTmpfs v).NamesFit u (splitNames pathname) at names
    rw [splitNames_of_named makes.named] at names
    exact ⟨free, creatable,
      ⟨rooted'.short_first lookup, path_fits.length, path_fits.create.depth⟩,
      rooted'.tree.isName_of_creatable dir' (proper_components no_nul makes.named)
        makes.creatable names, skips⟩
  · rintro ⟨free, creatable, fits, proper, skips⟩
    have named : [] ∉ components pathname := fun inside => (proper [] inside).ne_nil rfl
    have names : (s.mountTmpfs v).NamesFit u (splitNames pathname) := by
      rw [splitNames_of_named named]
      exact State.namesFit_of_short fun k inside => (proper k inside).short
    refine ⟨skips, .inr (Fs.shortAlong_of_all fun k inside => ?_),
      ⟨fits.length, fits.depth, State.namesFit_filter.mp names⟩, named,
      creatable_iff.mpr ⟨free, creatable⟩⟩
    exact (proper k inside).short.trans (by decide)

/-- **When mounts keep their law.** A mount of a tmpfs on a directory returns 0. Its path leads to
the new root and all others where they should if nothing was mounted there before, and else its
path does not. -/
theorem mount_law_iff (rooted : Rooted s root) (settles : s.fs.names.Settles root u)
    (no_nul : 0 ∉ target) (not_root : target ≠ [slash]) (not_initramfs : target ≠ initramfsPath)
    (not_dev : target ≠ devPath) (finds : s.Finds target v) (dir : s.fs.names.isDir v) :
    ∃ s', (∀ returned, Returns (fun fuel => vfsMount initrd i₀ fuel target tmpfsName s) returned ↔
        returned = (0, s')) ∧
      ((∃ r, Covers s s' target r) ↔ ∀ x, s.fs.names.cover x ≠ some v) ∧
      ∀ j₀ pathname, 0 ∉ pathname → Below target pathname →
        (CreatesBelow j₀ s' pathname ↔ (∀ x, s.fs.names.cover x ≠ some v) ∧
          s.Creatable u (components target) ∧ Fits pathname ∧
            (∀ k ∈ components pathname, IsName k) ∧ Skips j₀ pathname) := by
  have resolves := rooted.resolves_of_finds no_nul not_root finds
  refine ⟨s.mountTmpfs v, ?_, rooted.covers_iff resolves dir no_nul, ?_⟩
  · exact vfsMount_tmpfs no_nul not_root not_initramfs not_dev finds
      (rooted.tree.resolves_valid resolves)
  · intro j₀ pathname no_nul' below
    exact rooted.createsBelow_iff settles resolves dir no_nul' below

/-- A mount on `/a`, and `/a/b` behind it. -/
theorem mount_law_iff_oneDir : ∃ s',
    (∀ returned, Returns (fun fuel => vfsMount noInitrd 0 fuel [47, 97] tmpfsName oneDir) returned ↔
      returned = (0, s')) ∧
    (∃ r, Covers oneDir s' [47, 97] r) ∧ CreatesBelow 0 s' [47, 97, 47, 98] := by
  obtain ⟨s', returns, covers_iff, creates_iff⟩ := @mount_law_iff oneDir 0 0 1 [47, 97] noInitrd 0
    oneDir_rooted (Namespace.settles_self (oneDir_cover 0)) (by decide) (by decide) (by decide)
    (by decide) oneDir_finds rfl
  have free (x : ℕ) : oneDir.fs.names.cover x ≠ some 1 := by simp [oneDir_cover]
  have names : components [47, 97] = [[97]] := @components_path [[97]] (by decide) (by decide)
  have names' : components [47, 97, 47, 98] = [[97], [98]] :=
    @components_path [[97], [98]] (by decide) (by decide)
  refine ⟨s', returns, covers_iff.mpr free, (creates_iff 0 _ (by decide) ?_).mpr
    ⟨free, ?_, ⟨by decide, by decide, by decide⟩, ?_, by decide, by decide⟩⟩
  · rw [Below, names, names']
    decide
  · rw [names]
    exact ⟨⟨_, rfl, .inl rfl⟩, rfl, rfl, trivial⟩
  · rw [names']
    intro k inside
    rcases List.mem_pair.mp inside with rfl | rfl <;>
      exact ⟨by decide, by decide, by decide, by decide⟩

/-- One tmpfs on `/a`, and a second one. -/
def onceMounted : State := oneDir.mountTmpfs 1

def twiceMounted : State := onceMounted.mountTmpfs 2

/-- The second mount on `/a` returns 0, and `/a` still leads to the root of the first one. -/
theorem second_mount_lost :
    Returns (fun fuel => vfsMount noInitrd 0 fuel [47, 97] tmpfsName oneDir) (0, onceMounted) ∧
      Returns (fun fuel => vfsMount noInitrd 0 fuel [47, 97] tmpfsName onceMounted)
        (0, twiceMounted) ∧
      twiceMounted.Finds [47, 97] 2 ∧ (¬ ∃ r, Covers onceMounted twiceMounted [47, 97] r) ∧
      ¬ CreatesBelow 0 twiceMounted [47, 97, 47, 98] := by
  have finds : twiceMounted.Finds [47, 97] 2 := ⟨2, rfl⟩
  refine ⟨⟨2, rfl⟩, ⟨2, rfl⟩, finds, ?_, ?_⟩
  · rintro ⟨r, covers⟩
    obtain rfl := finds.unique (covers.self _ (by decide) rfl)
    exact absurd covers.new (by decide)
  · rintro ⟨s', w, returns, found⟩
    obtain ⟨s₁, made, lookup⟩ : ∃ s₁,
        Returns (fun fuel => vfsMkdir 0 fuel [47, 97, 47, 98] twiceMounted) (0, s₁) ∧
          Returns (fun fuel => vfsLookup fuel [47, 97, 47, 98] none s₁) (-1, some 2, s₁) :=
      ⟨_, ⟨4, rfl⟩, 4, rfl⟩
    cases (vfsMkdir_stable 0 _ twiceMounted).mono.returns_unique made returns
    exact State.not_finds lookup w found

end BareMetal.Vfs
