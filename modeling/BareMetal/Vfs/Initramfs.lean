import BareMetal.Cpio.Walk
import BareMetal.Vfs.Changes
import BareMetal.Vfs.Mkdir

/-!
# The initramfs

`initramfs_setup_mount` walks the list of `cpio_parse` and makes a file for each entry
that has data, but for the last entry of the list. `Stocked` says which files are there; a
round of the loop adds one.

## Main results

* `Stocked.insert` — one round of the loop
* `initramfs_faithful_iff` — when the files are those of the archive
-/

namespace BareMetal.Vfs

open CS Strings Cpio

variable {s s' : State} {root r d v place : ℕ} {p q ks : List (List UInt8)} {k : List UInt8}
  {files : List Placed} {e : Placed} {target : Option ℕ}

/-! ## Paths of files -/

/-- The names on the path of an entry. -/
def entryPath (e : Placed) : List (List UInt8) := components e.record.name

/-- Paths that the VFS can hold as those of files: the names and the paths are short, no path
leads through a file or twice to the same, and no directory gets more than 16 entries. -/
structure FitsVfs (paths : List (List UInt8)) : Prop where
  proper : ∀ p ∈ paths, ∀ k ∈ components p, IsName k
  length : ∀ p ∈ paths, p.length < tmpfsMaxPathLen
  depth : ∀ p ∈ paths, (p.splitOn slash).length < vfsMaxDepth
  different : (paths.map components).Nodup
  not_both : ∀ p ∈ paths, ∀ p' ∈ paths, components p <+: components p' →
    components p = components p'
  room : ∀ q ks : List (List UInt8), ks.Nodup →
    (∀ k ∈ ks, ∃ p ∈ paths, q ++ [k] <+: components p) → ks.length ≤ tmpfsMaxEntry

/-- Some of the paths fit when all do. -/
theorem FitsVfs.of_sublist {paths paths' : List (List UInt8)} (fits : FitsVfs paths)
    (sub : paths'.Sublist paths) : FitsVfs paths' where
  proper p inside := fits.proper p (sub.subset inside)
  length p inside := fits.length p (sub.subset inside)
  depth p inside := fits.depth p (sub.subset inside)
  different := fits.different.sublist (sub.map components)
  not_both p inside p' inside' := fits.not_both p (sub.subset inside) p' (sub.subset inside')
  room q ks distinct inside := fits.room q ks distinct fun k hk => by
    obtain ⟨p, here, front⟩ := inside k hk
    exact ⟨p, sub.subset here, front⟩

/-- The path of a new file does not meet those that are there. -/
theorem FitsVfs.not_prefix (fits : FitsVfs ((files ++ [e]).map fun e => e.record.name)) {f : Placed}
    (file : f ∈ files) : ¬ entryPath f <+: entryPath e ∧ ¬ entryPath e <+: entryPath f := by
  have here : f.record.name ∈ (files ++ [e]).map fun e => e.record.name :=
    List.mem_map_of_mem (List.mem_append_left _ file)
  have new : e.record.name ∈ (files ++ [e]).map fun e => e.record.name := by simp
  have other : entryPath f ≠ entryPath e := by
    intro same
    have different := fits.different
    rw [List.map_append, List.map_append, List.map_map] at different
    apply (List.nodup_append.mp different).2.2 _ (List.mem_map_of_mem file) _ ?_ same
    simp [entryPath]
  exact ⟨fun front => other (fits.not_both _ here _ new front),
    fun front => other (fits.not_both _ new _ here front).symm⟩

/-- The names that creation takes from a path that fits. -/
theorem FitsVfs.splitNames_eq {paths : List (List UInt8)} (fits : FitsVfs paths)
    {pathname : List UInt8} (inside : pathname ∈ paths) :
    splitNames pathname = components pathname := by
  rw [splitNames_eq_components, List.filter_eq_self]
  exact fun k name => decide_eq_true (fits.proper pathname inside k name).ne_nil

theorem FitsVfs.fits {paths : List (List UInt8)} (fits : FitsVfs paths) {pathname : List UInt8}
    (inside : pathname ∈ paths) : Fits pathname where
  first := by
    have name := fits.proper pathname inside _ (firstName_mem_components pathname)
    exact name.short.trans (by decide)
  length := fits.length pathname inside
  depth := fits.depth pathname inside

/-- From `r` on there are the files `files` of the archive and the directories that they need, and
nothing else. -/
structure Stocked (place : ℕ) (s : State) (r : ℕ) (files : List Placed) : Prop where
  tree : Tree s.fs r
  idle : s.strtok.flag = false
  first : s.mounted = false
  root_dir : s.fs.names.isDir r
  distinct : s.fs.Distinct r
  closed : s.fs.Closed r
  bare : s.fs.Bare r .initramfs
  only : ∀ ⦃q v⦄, s.fs.names.Resolves r q v → ∃ e ∈ files, q <+: entryPath e
  file : ∀ e ∈ files, ∃ v node, s.fs.names.Resolves r (entryPath e) v ∧
    s.fs.nodes[v]? = some node ∧ node.component.type = .file ∧
    node.component.len = e.record.dataSize ∧ node.component.payload = .data (place + e.dataPtr)
  dirs : ∀ ⦃q v⦄, s.fs.names.Resolves r q v → ¬ s.fs.names.isDir v → ∃ e ∈ files, q = entryPath e

namespace Stocked

variable (stocked : Stocked place s r files)
include stocked

/-- A directory with a missing name has room, when the paths of all files and the new one fit. -/
theorem room (fits : FitsVfs ((files ++ [e]).map fun e => e.record.name))
    (reaches : s.fs.names.Reaches r p d) (dir : s.fs.names.isDir d)
    (missing : s.fs.names.child d k = none) (inside : p ++ [k] <+: entryPath e) : s.fs.Room d := by
  have from_root := stocked.bare.le_of_reaches stocked.closed stocked.tree reaches
  have here := List.getElem?_eq_getElem (stocked.tree.reaches_valid reaches)
  -- the names of the entries
  let names := (s.fs.listing d).map fun v => (s.fs.nameOf v).getD []
  have named : names.map some = (s.fs.listing d).map s.fs.nameOf := by
    rw [List.map_map]
    refine List.map_congr_left fun v listed => ?_
    obtain ⟨entry, there⟩ := stocked.tree.sound_nodes.exists_listed listed
    simp [Fs.nameOf_eq there]
  have distinct : names.Nodup := by
    apply List.Nodup.of_map some
    rw [named]
    exact stocked.distinct from_root
  have new : k ∉ names := by
    intro old
    apply Fs.missing_name missing
    rw [← named]
    exact List.mem_map_of_mem old
  have prefixes : ∀ k' ∈ k :: names, ∃ path ∈ (files ++ [e]).map fun e => e.record.name,
      p ++ [k'] <+: components path := by
    intro k' either
    rcases List.mem_cons.mp either with rfl | old
    · exact ⟨e.record.name, by simp, inside⟩
    · obtain ⟨x, found⟩ := Fs.exists_child (named ▸ List.mem_map_of_mem (f := some) old)
      obtain ⟨f, file, front⟩ :=
        stocked.only (Namespace.resolves_snoc.mpr ⟨d, reaches, found⟩)
      exact ⟨f.record.name, List.mem_map_of_mem (List.mem_append_left _ file), front⟩
  have bound := fits.room p (k :: names) (List.nodup_cons.mpr ⟨new, distinct⟩) prefixes
  obtain ⟨len, -⟩ := (stocked.tree.sound here).entry ((Fs.isDir_iff here).mp dir)
  refine ⟨_, here, ?_⟩
  rw [len, ← Fs.listing_eq here]
  rw [List.length_cons, List.length_map] at bound
  exact bound

/-- The directories of a new file can be made. -/
theorem creatable (fits : FitsVfs ((files ++ [e]).map fun e => e.record.name))
    (names : p ++ ks = entryPath e) (reaches : s.fs.names.Reaches r p d)
    (dir : s.fs.names.isDir d) : s.Creatable d ks := by
  induction ks generalizing p d with
  | nil => trivial
  | cons k ks ih =>
    have here := List.getElem?_eq_getElem (stocked.tree.reaches_valid reaches)
    have names' : p ++ [k] ++ ks = entryPath e := by simpa using names
    have from_root := stocked.bare.le_of_reaches stocked.closed stocked.tree reaches
    refine ⟨⟨_, here, .inr ⟨(stocked.bare from_root here).2, stocked.first⟩⟩, ?_⟩
    cases found : s.fs.names.child d k with
    | none => exact stocked.room fits reaches dir found ⟨ks, names'⟩
    | some x =>
      have resolves : s.fs.names.Resolves r (p ++ [k]) x :=
        Namespace.resolves_snoc.mpr ⟨d, reaches, found⟩
      have free := stocked.bare.cover_eq (stocked.closed.child stocked.tree from_root found)
      have dir' : s.fs.names.isDir x := by
        by_contra other
        obtain ⟨f, file, same⟩ := stocked.dirs resolves other
        exact (fits.not_prefix file).1 ⟨ks, same ▸ names'⟩
      have reaches' : s.fs.names.Reaches r (p ++ [k]) x :=
        Namespace.reaches_snoc.mpr ⟨d, reaches, x, found, dir', Namespace.settles_self free⟩
      exact ⟨dir', free, ih names' reaches' dir'⟩

/-- The root of the initramfs is reached by the empty path. -/
theorem settles_root : s.fs.names.Settles r r :=
  Namespace.settles_self (stocked.bare.cover_eq (Nat.le_refl r))

omit stocked in
/-- What the create loop has made of the initramfs: the new directory is empty. -/
theorem created_empty (stocked : Stocked place s r files)
    (fits : FitsVfs ((files ++ [e]).map fun e => e.record.name)) (strtok : Strtok)
    (created : Created { s with strtok := strtok } r [] (entryPath e) v s') :
    s'.fs.listing v = [] := by
  apply created.empty
  intro k x old
  obtain ⟨f, file, front⟩ := stocked.only old
  exact (fits.not_prefix file).2 ((List.prefix_append _ _).trans front)

/-- Once the new directory has become a file, there is one more. -/
theorem setFile (fits : FitsVfs ((files ++ [e]).map fun e => e.record.name))
    (created : Created { s with strtok := .idle } r [] (entryPath e) v s')
    (adds : Adds r s.fs s'.fs) :
    Stocked place { s' with fs := s'.fs.setFile v (place + e.dataPtr) e.record.dataSize } r
      (files ++ [e]) := by
  have tree := created.tree
  have empty := stocked.created_empty fits _ created
  have here := List.getElem?_eq_getElem (tree.reaches_valid created.reaches)
  have distinct := adds.distinct stocked.tree stocked.distinct
  have closed := adds.closed stocked.closed
  have bare := adds.bare stocked.bare
  have settles : s'.fs.names.Settles r r :=
    Namespace.settles_self (bare.cover_eq (Nat.le_refl r))
  have nonempty : entryPath e ≠ [] := components_ne_nil
  -- the file is below the root
  have not_root : v ≠ r := by
    rintro rfl
    exact nonempty (tree.forest.path_unique created.reaches (Namespace.reaches_nil.mpr settles))
  have from_root := bare.le_of_reaches closed tree created.reaches
  have makes := makesFile_setFile (place + e.dataPtr) e.record.dataSize
  have pruned := makes.pruned empty (bare.cover_eq from_root)
  have resolves_new : s'.fs.names.Resolves r (entryPath e) v := by
    obtain ⟨p, k, names⟩ := (List.eq_nil_or_concat' (entryPath e)).resolve_left nonempty
    have reaches := created.reaches
    rw [List.nil_append, names] at reaches
    obtain ⟨d, reaches, x, found, -, settles⟩ := Namespace.reaches_snoc.mp reaches
    have inside := closed.child tree (bare.le_of_reaches closed tree reaches) found
    obtain rfl := (Namespace.settles_iff_of_free (bare.cover_eq inside)).mp settles
    rw [names]
    exact Namespace.resolves_snoc.mpr ⟨d, reaches, found⟩
  have idle := congrArg (fun s => s.strtok.flag) created.others
  have mounted := congrArg (fun s => s.mounted) created.others
  refine ⟨makes.tree tree, idle, mounted.trans stocked.first, ?_, ?_, ?_, ?_, ?_, ?_, ?_⟩
  · refine (pruned.isDir r not_root.symm).mpr ?_
    exact (created.extend.isDir_iff stocked.tree.root_valid).mpr stocked.root_dir
  · intro d inside
    rw [Fs.setFile, makes.listing empty, List.map_congr_left fun x _ => makes.nameOf x]
    exact distinct inside
  · intro d x inside listed
    exact closed inside (makes.mem_listing listed)
  · intro x node' inside there
    rcases Fs.modifyComponent_cases _ there with ⟨before, -, here', rfl⟩ | ⟨-, old⟩
    · exact ⟨(bare inside here').1, (bare inside here').2⟩
    · exact bare inside old
  · intro q x resolves
    rcases created.only (pruned.resolves_iff.mp resolves) with old | front
    · obtain ⟨f, file, front⟩ := stocked.only old
      exact ⟨f, List.mem_append_left _ file, front⟩
    · exact ⟨e, by simp, front⟩
  · intro f file
    rcases List.mem_append.mp file with file | new
    · obtain ⟨x, node, resolves, there, regular, len, payload⟩ := stocked.file f file
      obtain ⟨node', there', grows⟩ := created.extend there
      have component := grows.file regular
      have other : x ≠ v := by
        rintro rfl
        have dir := (Fs.isDir_iff there').mp created.dir
        rw [component, regular] at dir
        contradiction
      refine ⟨x, node', pruned.resolves_iff.mpr (created.keeps resolves), ?_, ?_⟩
      · rw [Fs.setFile, Fs.modifyComponent_of_ne _ other, there']
      · rw [component]
        exact ⟨regular, len, payload⟩
    · obtain rfl := List.mem_singleton.mp new
      exact ⟨v, _, pruned.resolves_iff.mpr resolves_new, Fs.modifyComponent_self _ here, rfl, rfl,
        rfl⟩
  · intro q x found other
    have resolves : s'.fs.names.Resolves r q x := pruned.resolves_iff.mp found
    by_cases same : x = v
    · subst same
      -- the new file is found on its path only
      have reaches := resolves.reaches created.dir
        (Namespace.settles_self (bare.cover_eq from_root))
      exact ⟨e, by simp, tree.forest.path_unique reaches created.reaches⟩
    · replace other := mt (pruned.isDir x same).mpr other
      rcases created.only resolves with old | front
      · have old_file : ¬ s.fs.names.isDir x := fun dir =>
          other ((created.extend.isDir_iff (stocked.tree.resolves_valid old)).mpr dir)
        obtain ⟨f, file, same⟩ := stocked.dirs old old_file
        exact ⟨f, List.mem_append_left _ file, same⟩
      · have some_name : q ≠ [] := by
          rintro rfl
          exact Namespace.not_resolves_nil resolves
        obtain ⟨u, resolves', dir⟩ := created.reaches.exists_resolves some_name front
        obtain rfl := resolves.unique resolves'
        exact absurd dir other

/-- **One round of the loop** adds a file. -/
theorem insert (target : Option ℕ) (fits : FitsVfs ((files ++ [e]).map fun e => e.record.name))
    (no_nul : 0 ∉ e.record.name) :
    ∃ v s₁ node, (∃ depth, ∀ fuel, depth ≤ fuel →
        lookupPath 0 fuel e.record.name r target true s = .ok (0, some v, s₁)) ∧
      s₁.fs.nodes[v]? = some node ∧ s₁.fs.buffers = s.fs.buffers ∧
      Stocked place { s₁ with fs := s₁.fs.setFile v (place + e.dataPtr) e.record.dataSize } r
        (files ++ [e]) := by
  have new : e.record.name ∈ (files ++ [e]).map fun e => e.record.name := by simp
  have tree := stocked.tree
  have names := fits.splitNames_eq new
  have reaches : s.fs.names.Reaches r [] r := Namespace.reaches_nil.mpr stocked.settles_root
  obtain ⟨depth, call⟩ := tree.lookupPath_create target tree.root_valid stocked.idle
    (fits.fits new) stocked.settles_root stocked.root_dir
  rw [names] at call
  obtain ⟨v, s₁, target', loop, result, created⟩ := Tree.createLoop_creates
    (s := { s with strtok := .idle }) target tree reaches stocked.root_dir
    (fits.proper _ new) ((stocked.creatable fits rfl reaches stocked.root_dir).with_strtok _)
  obtain ⟨-, adds, others⟩ := Tree.createLoop_adds (s := { s with strtok := .idle }) tree
    (components_clean no_nul) stocked.closed (Nat.le_refl r) tree.root_valid.le loop
  obtain rfl : target' = some v := by
    rcases result with same | ⟨none, -⟩
    · exact same
    · exact absurd none components_ne_nil
  have empty := stocked.created_empty fits _ created
  have valid := created.tree.reaches_valid created.reaches
  have here := List.getElem?_eq_getElem valid
  refine ⟨v, s₁, _, ⟨1 + depth, fun fuel enough => ?_⟩, here, ?_, ?_⟩
  · have exact_fuel := call (fuel - 1 - depth)
    have split : fuel - 1 - depth + 1 + depth = fuel := by omega
    rw [split] at exact_fuel
    exact exact_fuel.trans loop
  · rw [adds.others]
  · exact stocked.setFile fits created adds

end Stocked

/-! ## The loop -/

/-- The entry has data, so that there should be a file. -/
def hasData (e : Placed) : Bool := e.record.data ≠ []

theorem hasData_iff : hasData e = true ↔ 0 < e.record.dataSize := by
  have zero := e.record.dataSize_eq_zero
  rw [hasData, decide_eq_true_iff, ne_eq, ← zero]
  omega

/-- The name that a node of the list points to. -/
theorem readName_eq {mem : List UInt8} (holds : e.Holds mem) (next : Option ℕ) :
    (bytesAt mem (e.file next).pathname >>= readStr) = .ok e.record.name := by
  exact Record.readStr_eq holds

variable {initrd : Initrd} {heap : Heap CpioFile} {file : Option ℕ} {cells : List ℕ}
  {places : List Placed}

/-- **The loop** makes the files of all entries that have data, but for the last entry. -/
theorem insertFiles_eq (target : Option ℕ) (stocked : Stocked initrd.place s r files)
    (chain : Chain CpioFile.next heap file cells) (nodes : Nodes heap cells places)
    (nonempty : places ≠ []) (holds : ∀ e ∈ places, e.Holds initrd.mem)
    (fits : FitsVfs ((files ++ places.filter hasData).map fun e => e.record.name)) :
    ∃ s', (∃ depth, ∀ fuel rounds, depth ≤ fuel → places.length ≤ rounds →
        insertFiles initrd 0 fuel heap r rounds file target s = .ok s') ∧
      s'.fs.buffers = s.fs.buffers ∧
      Stocked initrd.place s' r (files ++ places.dropLast.filter hasData) := by
  induction nodes generalizing s files file target with
  | nil => exact absurd rfl nonempty
  | @cons cell e cells places here nodes ih =>
    obtain ⟨next, here⟩ := here
    obtain ⟨node, here', rfl, rest⟩ := chain.exists_head
    obtain rfl := Option.some.inj (here.symm.trans here')
    cases nodes with
    | nil =>
      -- the last node of the list
      obtain rfl : next = none := rest.linked
      refine ⟨s, ⟨0, fun fuel rounds _ more => ?_⟩, rfl, ?_⟩
      · obtain ⟨rounds, rfl⟩ := Nat.exists_eq_add_of_lt more
        rw [insertFiles, Heap.get_some here]
        rfl
      · simpa using stocked
    | @cons cell' e' cells' places' here_next nodes' =>
      obtain rfl : next = some cell' := rest.linked.head
      have more : e' :: places' ≠ [] := List.cons_ne_nil _ _
      have holds' := fun f inside => holds f (List.mem_cons_of_mem e inside)
      have last : (e :: e' :: places').dropLast = e :: (e' :: places').dropLast := rfl
      by_cases data : hasData e = true
      · have sub : (files ++ [e]).Sublist (files ++ (e :: e' :: places').filter hasData) := by
          rw [List.filter_cons_of_pos data]
          exact List.Sublist.append (List.Sublist.refl _)
            (List.Sublist.cons_cons _ (List.nil_sublist _))
        obtain ⟨v, s₁, node, ⟨depth, lookup⟩, there, buffers, stocked'⟩ :=
          stocked.insert target (fits.of_sublist (sub.map _)) e.record.no_nul
        have fits' : FitsVfs ((files ++ [e] ++ (e' :: places').filter hasData).map
            fun e => e.record.name) := by
          rw [List.filter_cons_of_pos data] at fits
          simpa using fits
        obtain ⟨s', ⟨depth', loop⟩, buffers', stocked''⟩ :=
          ih (some v) stocked' rest more holds' fits'
        refine ⟨s', ⟨max depth depth', fun fuel rounds enough many => ?_⟩, ?_, ?_⟩
        · obtain ⟨rounds, rfl⟩ : ∃ n, rounds = n + 1 :=
            ⟨rounds - 1, by
              simp only [List.length_cons] at many
              omega⟩
          have name := readName_eq (holds e List.mem_cons_self) (some cell')
          have size : (e.file (some cell')).fileSize > 0 := hasData_iff.mp data
          rw [insertFiles, Heap.get_some here, outcome_bind_ok]
          change (if _ then _ else _) = _
          rw [if_pos size, ← bind_assoc, name, outcome_bind_ok,
            lookup fuel ((Nat.le_max_left ..).trans enough), outcome_bind_ok]
          change (s₁.fs.node v >>= _) = _
          rw [Fs.node_eq_ok.mpr there, outcome_bind_ok]
          exact loop fuel rounds ((Nat.le_max_right ..).trans enough) (Nat.le_of_succ_le_succ many)
        · exact buffers'.trans buffers
        · rw [last, List.filter_cons_of_pos data]
          simpa using stocked''
      · have skip : (e :: e' :: places').filter hasData = (e' :: places').filter hasData :=
          List.filter_cons_of_neg data
        rw [skip] at fits
        obtain ⟨s', ⟨depth, loop⟩, buffers, stocked'⟩ :=
          ih target stocked rest more holds' fits
        refine ⟨s', ⟨depth, fun fuel rounds enough many => ?_⟩, buffers, ?_⟩
        · obtain ⟨rounds, rfl⟩ : ∃ n, rounds = n + 1 :=
            ⟨rounds - 1, by
              simp only [List.length_cons] at many
              omega⟩
          have size : ¬ (e.file (some cell')).fileSize > 0 := data ∘ hasData_iff.mpr
          rw [insertFiles, Heap.get_some here, outcome_bind_ok]
          change (if _ then _ else _) = _
          rw [if_neg size]
          exact loop fuel rounds enough (Nat.le_of_succ_le_succ many)
        · rw [last, List.filter_cons_of_neg data]
          exact stocked'

/-! ## The mount -/

/-- The archive is in memory, as it was built from these entries, and `cpio_parse` gets new
chunks. -/
structure Initrd.Holds (initrd : Initrd) (buffers : Heap (List UInt8)) (entries : List Record) :
    Prop where
  archive : ∃ trailer rest, trailer.name = trailerName ∧ initrd.mem = archive entries trailer rest
  present : ∀ offset < initrd.mem.length,
    buffers (initrd.place + offset) = some (initrd.mem.drop offset)
  chunks : Function.Injective initrd.supply.chunk

theorem Initrd.Holds.walkable {buffers : Heap (List UInt8)} {entries : List Record}
    (holds : initrd.Holds buffers entries) (goes : ∀ e ∈ entries, e.name ≠ trailerName) :
    Walkable initrd.mem 0 entries := by
  obtain ⟨trailer, rest, ends, encoded⟩ := holds.archive
  exact encoded ▸ walkable_archive goes ends rest

/-- The files below `r` are those of the archive. -/
structure Faithful (s : State) (r : ℕ) (entries : List Record) : Prop where
  files : ∀ e ∈ entries, e.data ≠ [] → ∃ v node,
    Returns (fun fuel => lookupPath 0 fuel e.name r none false s) (0, some v, s) ∧
    s.fs.nodes[v]? = some node ∧ node.component.type = .file ∧
    node.component.len = e.data.length ∧
    (s.fs.bytes node.component.payload).take node.component.len = e.data
  only : ∀ q v, s.fs.names.Resolves r q v → ¬ s.fs.names.isDir v →
    ∃ e ∈ entries, e.data ≠ [] ∧ q = components e.name

/-- The new root holds nothing yet. -/
theorem Tree.stocked_addRoot (place : ℕ) (tree : Tree s.fs root) (idle : s.strtok.flag = false)
    (first : s.mounted = false) :
    Stocked place { s with fs := s.fs.addRoot .initramfs } s.fs.nodes.length [] := by
  have closed : (s.fs.addRoot .initramfs).Closed s.fs.nodes.length := by
    intro d v inside listed
    rw [Fs.addRoot_listing inside] at listed
    exact absurd listed List.not_mem_nil
  have bare : (s.fs.addRoot .initramfs).Bare s.fs.nodes.length .initramfs := Fs.bare_addRoot
  have nothing : ∀ q v, ¬ (s.fs.addRoot .initramfs).names.Resolves s.fs.nodes.length q v := by
    rintro q v ⟨init, last, d, rfl, reaches, found⟩
    have inside := bare.le_of_reaches closed tree.addRoot_self reaches
    obtain ⟨x, entry, -⟩ := Namespace.child_eq_some.mp found
    have listed := (Fs.entry_mem entry).1
    rw [Fs.addRoot_listing inside] at listed
    exact absurd listed List.not_mem_nil
  refine ⟨tree.addRoot_self, idle, first, ?_, ?_, closed, bare, ?_, by simp, ?_⟩
  · rw [Fs.isDir_iff Fs.addRoot_new]
    rfl
  · intro d inside
    rw [Fs.addRoot_listing inside]
    exact List.nodup_nil
  · exact fun q v resolves => absurd resolves (nothing q v)
  · exact fun q v resolves => absurd resolves (nothing q v)

/-- The entries with data, of a layout and of the archive. -/
theorem map_filter_hasData (places : List Placed) :
    (places.filter hasData).map (fun e => e.record.name) =
      ((places.map Placed.record).filter fun e => e.data ≠ []).map Record.name := by
  rw [List.filter_map, List.map_map]
  rfl

/-- The first mount parses the archive, and goes through the list. -/
theorem initramfsSetupMount_first (initrd : Initrd) (i₀ : ℤ) (fuel : ℕ)
    (first : s.mounted = false) : initramfsSetupMount initrd i₀ fuel s = (do
      let list ← cpioParse initrd.a initrd.mem initrd.supply (fun _ => none) none fuel
      let s' ← insertFiles initrd i₀ fuel list.1 s.fs.nodes.length fuel list.2 none
        { s with fs := s.fs.addRoot .initramfs }
      return (0, s.fs.nodes.length, { s' with mounted := true })) := by
  have unmounted : ¬ ({ s with fs := s.fs.addRoot .initramfs } : State).mounted = true := by
    simp [first]
  exact if_neg unmounted

/-- **The mount** makes the files of all entries that have data, but for the last entry. -/
theorem initramfsSetupMount_stocked {init : List Record} {last : Record} (tree : Tree s.fs root)
    (idle : s.strtok.flag = false) (first : s.mounted = false)
    (goes : ∀ e ∈ init ++ [last], e.name ≠ trailerName)
    (holds : initrd.Holds s.fs.buffers (init ++ [last]))
    (clear : ClearFrom initrd.a 0 (init ++ [last]).length)
    (fits : FitsVfs (((init ++ [last]).filter fun e => e.data ≠ []).map Record.name)) :
    ∃ s', Returns (fun fuel => initramfsSetupMount initrd 0 fuel s)
        (0, s.fs.nodes.length, { s' with mounted := true }) ∧
      s'.fs.buffers = s.fs.buffers ∧
      Stocked initrd.place s' s.fs.nodes.length ((layout 0 init).filter hasData) := by
  have walkable := holds.walkable goes
  have nonempty : init ++ [last] ≠ [] := by simp
  have fresh : initrd.supply.Fresh 0 fun _ => none := ⟨holds.chunks, fun _ _ => rfl⟩
  obtain ⟨heap, file, parse, chain, nodes⟩ := cpioParse_eq walkable clear nonempty fresh
  obtain ⟨place, placed⟩ := layout_concat 0 init last
  have layout_ne_nil : layout 0 (init ++ [last]) ≠ [] := by simp [placed]
  have stocked := tree.stocked_addRoot initrd.place idle first
  have fits' : FitsVfs (([] ++ (layout 0 (init ++ [last])).filter hasData).map
      fun e : Placed => e.record.name) := by
    rw [List.nil_append, map_filter_hasData, map_layout]
    exact fits
  obtain ⟨s', ⟨depth, loop⟩, buffers, stocked'⟩ :=
    insertFiles_eq none stocked chain nodes layout_ne_nil walkable.holds fits'
  rw [placed, List.dropLast_concat, List.nil_append] at stocked'
  -- one bound for the parser, the loop and the lookups in it
  obtain ⟨fuel, deep, long, wide⟩ : ∃ fuel, depth ≤ fuel ∧
      (layout 0 (init ++ [last])).length ≤ fuel ∧ (init ++ [last]).length + 1 ≤ fuel :=
    ⟨depth + (layout 0 (init ++ [last])).length + ((init ++ [last]).length + 1), by omega, by omega,
      by omega⟩
  refine ⟨s', ⟨fuel, ?_⟩, buffers, stocked'⟩
  have parsed := (cpioParse_mono ..).of_le wide parse
  have inserted := loop fuel fuel deep long
  dsimp only
  rw [initramfsSetupMount_first initrd 0 fuel first, parsed, outcome_bind_ok, inserted,
    outcome_bind_ok]
  rfl

/-! ## Bounds -/

theorem insertFiles_mono {i₀ : ℤ} {fuel rounds : ℕ} {heap : Heap CpioFile} {file target : Option ℕ}
    (returns : insertFiles initrd i₀ fuel heap r rounds file target s = .ok s') :
    insertFiles initrd i₀ (fuel + 1) heap r (rounds + 1) file target s = .ok s' := by
  -- one round for each file of the list
  induction rounds generalizing file target s with
  | zero => contradiction
  | succ rounds ih =>
    rw [insertFiles] at returns ⊢
    obtain ⟨⟨pathname, fileSize, dataPtr, next⟩, here, returns⟩ := outcome_bind_eq_ok.mp returns
    refine outcome_bind_eq_ok.mpr ⟨_, here, ?_⟩
    cases next with
    | none => exact returns
    | some next =>
      dsimp only at returns ⊢
      split_ifs at returns ⊢ with size
      · obtain ⟨bytes, stored, returns⟩ := outcome_bind_eq_ok.mp returns
        obtain ⟨name, reads, returns⟩ := outcome_bind_eq_ok.mp returns
        obtain ⟨⟨result, found, s₁⟩, looks, returns⟩ := outcome_bind_eq_ok.mp returns
        refine outcome_bind_eq_ok.mpr ⟨bytes, stored, outcome_bind_eq_ok.mpr ⟨name, reads,
          outcome_bind_eq_ok.mpr ⟨_, (lookupPath_mono ..) looks, ?_⟩⟩⟩
        cases found with
        | none => contradiction
        | some v =>
          obtain ⟨node, here, returns⟩ := outcome_bind_eq_ok.mp returns
          exact outcome_bind_eq_ok.mpr ⟨node, here, ih returns⟩
      · exact ih returns

theorem initramfsSetupMount_mono (initrd : Initrd) (i₀ : ℤ) (s : State) :
    FuelMonotone fun fuel => initramfsSetupMount initrd i₀ fuel s := by
  intro fuel result returns
  dsimp only [initramfsSetupMount] at returns ⊢
  split_ifs at returns ⊢ with mounted
  · exact returns
  · obtain ⟨⟨heap, file⟩, parses, returns⟩ := outcome_bind_eq_ok.mp returns
    obtain ⟨s', inserts, returns⟩ := outcome_bind_eq_ok.mp returns
    exact outcome_bind_eq_ok.mpr ⟨_, (cpioParse_mono ..) parses,
      outcome_bind_eq_ok.mpr ⟨s', insertFiles_mono inserts, returns⟩⟩

/-- **The first mount does not return** when something is left in the array of `read_header`. -/
theorem clearFrom_of_initramfsSetupMount {entries : List Record} {i₀ : ℤ} {r : ℤ × ℕ × State}
    (first : s.mounted = false) (goes : ∀ e ∈ entries, e.name ≠ trailerName)
    (holds : initrd.Holds s.fs.buffers entries)
    (returns : Returns (fun fuel => initramfsSetupMount initrd i₀ fuel s) r) :
    ClearFrom initrd.a 0 entries.length := by
  obtain ⟨fuel, returns⟩ := returns
  dsimp only at returns
  rw [initramfsSetupMount_first initrd i₀ fuel first] at returns
  -- a mount that returns has parsed the archive
  obtain ⟨list, parsed, -⟩ := outcome_bind_eq_ok.mp returns
  by_contra stale
  exact cpioParseLoop_stale (holds.walkable goes) initrd.length_a stale _ _ _ _ _ parsed

/-! ## The files of the archive -/

theorem mem_of_mem_layout {header : ℕ} {entries : List Record}
    (inside : e ∈ layout header entries) :
    e.record ∈ entries := by
  rw [← map_layout header entries]
  exact List.mem_map_of_mem inside

/-- A file has the length of its entry exactly if the data need no padding. -/
theorem dataSize_eq_length {r : Record} : r.dataSize = r.data.length ↔ 4 ∣ r.data.length := by
  have pad := r.dataPad_length
  rw [padding] at pad
  rw [Record.dataSize]
  omega

/-- The data that a file points to. -/
theorem Initrd.Holds.data {entries : List Record} {buffers : Heap (List UInt8)}
    (holds : initrd.Holds buffers entries) (here : e.Holds initrd.mem) (data : e.record.data ≠ []) :
    ((buffers (initrd.place + e.dataPtr)).getD []).take e.record.data.length = e.record.data := by
  obtain ⟨rest, split⟩ := here.data
  have inside : e.dataPtr < initrd.mem.length := by
    by_contra beyond
    rw [List.drop_eq_nil_of_le (Nat.not_lt.mp beyond)] at split
    exact data (List.append_eq_nil_iff.mp split).1
  rw [holds.present _ inside, Option.getD_some, ← split, List.take_left]

section Files

variable {init : List Record} {last : Record}

/-- Entries with the same path are the same. -/
theorem FitsVfs.record_eq {entries : List Record}
    (fits : FitsVfs ((entries.filter fun e => e.data ≠ []).map Record.name)) {e e' : Record}
    (inside : e ∈ entries) (data : e.data ≠ []) (inside' : e' ∈ entries) (data' : e'.data ≠ [])
    (same : components e.name = components e'.name) : e = e' := by
  have different := fits.different
  rw [List.map_map] at different
  exact List.inj_on_of_nodup_map different (List.mem_filter.mpr ⟨inside, decide_eq_true data⟩)
    (List.mem_filter.mpr ⟨inside', decide_eq_true data'⟩) same

/-- The last entry is the only one with its path. -/
theorem FitsVfs.last_ne (fits : FitsVfs (((init ++ [last]).filter fun e => e.data ≠ []).map
    Record.name)) (data : last.data ≠ []) {e : Record} (inside : e ∈ init) (data' : e.data ≠ []) :
    components e.name ≠ components last.name := by
  have different := fits.different
  have kept : [last].filter (fun e => e.data ≠ []) = [last] := by simp [data]
  rw [List.filter_append, kept, List.map_append, List.map_append] at different
  refine (List.nodup_append.mp different).2.2 _ ?_ _ ?_
  · exact List.mem_map_of_mem (List.mem_map_of_mem
      (List.mem_filter.mpr ⟨inside, decide_eq_true data'⟩))
  · exact List.mem_singleton_self _

/-- The files below the root are those of the archive exactly if the last entry has no data, and
no file needs padding. -/
theorem Stocked.faithful_iff (stocked : Stocked initrd.place s r ((layout 0 init).filter hasData))
    (fits : FitsVfs (((init ++ [last]).filter fun e => e.data ≠ []).map Record.name))
    (goes : ∀ e ∈ init ++ [last], e.name ≠ trailerName)
    (holds : initrd.Holds s.fs.buffers (init ++ [last])) :
    Faithful { s with mounted := true } r (init ++ [last]) ↔
      (∀ e ∈ init ++ [last], 4 ∣ e.data.length) ∧ last.data = [] := by
  let mounted : State := { s with mounted := true }
  have tree : Tree mounted.fs r := stocked.tree
  -- what a lookup of an entry finds
  have lookup (e : Record) (inside : e ∈ init ++ [last]) (data : e.data ≠ []) (v : ℕ) :
      Returns (fun fuel => lookupPath 0 fuel e.name r none false mounted) (0, some v, mounted) ↔
        s.fs.names.Resolves r (components e.name) v := by
    apply tree.lookupPath_iff tree.root_valid e.no_nul
    intro k name
    have listed : e.name ∈ ((init ++ [last]).filter fun e => e.data ≠ []).map Record.name :=
      List.mem_map_of_mem (List.mem_filter.mpr ⟨inside, decide_eq_true data⟩)
    exact (fits.proper _ listed k name).short.trans (by decide)
  have listed (f : Placed) (file : f ∈ (layout 0 init).filter hasData) :
      f.record ∈ init ∧ f.record.data ≠ [] := by
    obtain ⟨inside, data⟩ := List.mem_filter.mp file
    exact ⟨mem_of_mem_layout inside, of_decide_eq_true data⟩
  constructor
  · intro faithful
    -- each file of the archive is one that the loop has made
    have found (e : Record) (inside : e ∈ init ++ [last]) (data : e.data ≠ []) :
        ∃ f ∈ (layout 0 init).filter hasData, components e.name = entryPath f ∧
          f.record.dataSize = e.data.length := by
      obtain ⟨v, node, returns, here, regular, len, -⟩ := faithful.files e inside data
      have resolves := (lookup e inside data v).mp returns
      have other : ¬ s.fs.names.isDir v := by
        rw [Fs.isDir_iff here, regular]
        simp
      obtain ⟨f, file, same⟩ := stocked.dirs resolves other
      obtain ⟨v', node', resolves', here', -, len', -⟩ := stocked.file f file
      obtain rfl := resolves.unique (same ▸ resolves')
      obtain rfl := Option.some.inj (here.symm.trans here')
      exact ⟨f, file, same, len'.symm.trans len⟩
    constructor
    · intro e inside
      by_cases data : e.data = []
      · simp [data]
      obtain ⟨f, file, same, size⟩ := found e inside data
      obtain ⟨before, data'⟩ := listed f file
      obtain rfl := fits.record_eq inside data (List.mem_append_left _ before) data' same
      exact dataSize_eq_length.mp size
    · by_contra data
      obtain ⟨f, file, same, -⟩ := found last (by simp) data
      obtain ⟨before, data'⟩ := listed f file
      exact fits.last_ne data before data' same.symm
  · rintro ⟨aligned, none_left⟩
    constructor
    · intro e inside data
      have before : e ∈ init := by
        rcases List.mem_append.mp inside with before | same
        · exact before
        · rw [List.mem_singleton.mp same] at data
          exact absurd none_left data
      obtain ⟨f, placed, rfl⟩ : ∃ f ∈ layout 0 init, f.record = e := by
        rw [← map_layout 0 init] at before
        exact List.mem_map.mp before
      have file : f ∈ (layout 0 init).filter hasData :=
        List.mem_filter.mpr ⟨placed, decide_eq_true data⟩
      obtain ⟨v, node, resolves, here, regular, len, payload⟩ := stocked.file f file
      have size := dataSize_eq_length.mpr (aligned _ inside)
      refine ⟨v, node, (lookup _ inside data v).mpr resolves, here, regular, len.trans size, ?_⟩
      obtain ⟨place, whole⟩ := layout_concat 0 init last
      have there := (holds.walkable goes).holds f (whole ▸ List.mem_append_left _ placed)
      rw [len, size, payload]
      exact holds.data there data
    · intro q v resolves other
      obtain ⟨f, file, same⟩ := stocked.dirs resolves other
      obtain ⟨before, data⟩ := listed f file
      exact ⟨f.record, List.mem_append_left _ before, data, same⟩

end Files

/-- The files that the first mount makes are those of the archive exactly if the last entry has no
data and no file needs padding. -/
theorem initramfsSetupMount_faithful {entries : List Record} (tree : Tree s.fs root)
    (idle : s.strtok.flag = false) (first : s.mounted = false) (nonempty : entries ≠ [])
    (goes : ∀ e ∈ entries, e.name ≠ trailerName) (holds : initrd.Holds s.fs.buffers entries)
    (clear : ClearFrom initrd.a 0 entries.length)
    (fits : FitsVfs ((entries.filter fun e => e.data ≠ []).map Record.name)) :
    ∃ s', Returns (fun fuel => initramfsSetupMount initrd 0 fuel s) (0, s.fs.nodes.length, s') ∧
      (Faithful s' s.fs.nodes.length entries ↔
        (∀ e ∈ entries, 4 ∣ e.data.length) ∧ ∀ last ∈ entries.getLast?, last.data = []) := by
  obtain ⟨init, last, rfl⟩ := (List.eq_nil_or_concat' entries).resolve_left nonempty
  obtain ⟨s', returns, buffers, stocked⟩ :=
    initramfsSetupMount_stocked tree idle first goes holds clear fits
  have iff := stocked.faithful_iff fits goes (buffers ▸ holds)
  refine ⟨_, returns, ?_⟩
  simpa using iff

/-- **When the initramfs is faithful.** The first mount returns and makes the files of the archive
exactly if nothing is left in `a[0]` when `read_header` is called, the last entry has no data and
the length of all data is a multiple of 4. -/
theorem initramfs_faithful_iff {entries : List Record} (tree : Tree s.fs root)
    (idle : s.strtok.flag = false) (first : s.mounted = false) (nonempty : entries ≠ [])
    (goes : ∀ e ∈ entries, e.name ≠ trailerName) (holds : initrd.Holds s.fs.buffers entries)
    (fits : FitsVfs ((entries.filter fun e => e.data ≠ []).map Record.name)) :
    (∃ s', Returns (fun fuel => initramfsSetupMount initrd 0 fuel s) (0, s.fs.nodes.length, s') ∧
        Faithful s' s.fs.nodes.length entries) ↔
      ClearFrom initrd.a 0 entries.length ∧ (∀ e ∈ entries, 4 ∣ e.data.length) ∧
        ∀ last ∈ entries.getLast?, last.data = [] := by
  constructor
  · rintro ⟨s', returns, faithful⟩
    have clear := clearFrom_of_initramfsSetupMount first goes holds returns
    obtain ⟨s'', returns', iff⟩ :=
      initramfsSetupMount_faithful tree idle first nonempty goes holds clear fits
    cases (initramfsSetupMount_mono ..).returns_unique returns returns'
    exact ⟨clear, iff.mp faithful⟩
  · rintro ⟨clear, whole⟩
    obtain ⟨s', returns, iff⟩ :=
      initramfsSetupMount_faithful tree idle first nonempty goes holds clear fits
    exact ⟨s', returns, iff.mpr whole⟩

/-! ## Two archives -/

/-- A single file that is not in a directory. -/
theorem fitsVfs_singleton {name : List UInt8} (proper : IsName name) : FitsVfs [name] := by
  have names : components name = [name] := by
    have cut := @components_relative name [] fun k inside => by
      rw [List.mem_singleton.mp inside]
      exact ⟨proper.ne_nil, proper.no_slash⟩
    simpa [path] using cut
  have short := proper.short
  have limits : nameLen = 16 ∧ tmpfsMaxPathLen = 255 ∧ tmpfsMaxEntry = 16 := ⟨rfl, rfl, rfl⟩
  refine ⟨?_, ?_, ?_, by simp, ?_, fun q ks distinct inside => ?_⟩
  · simpa [names] using proper
  · simp only [List.mem_singleton, forall_eq]
    omega
  · rw [List.forall_mem_singleton, List.splitOn_eq_singleton proper.no_slash, List.length_singleton]
    decide
  · simp
  · -- each of the names is that of the file
    have same : ∀ k ∈ ks, k = name := by
      intro k here
      obtain ⟨p, rfl, front⟩ : ∃ p, p = name ∧ q ++ [k] <+: components p := by
        simpa using inside k here
      rw [names] at front
      obtain ⟨rest, split⟩ := front
      cases q with
      | nil => simpa using (List.cons.inj split).1
      | cons _ q => simp at split
    have few : ks.length ≤ [name].length :=
      distinct.length_le_of_subset fun k here => by simp [same k here]
    rw [List.length_singleton] at few
    omega

/-- Nothing but the root of a tmpfs and the archive at address 0. -/
def bootState (mem : List UInt8) : State :=
  { freshRoot with fs :=
      { freshRoot.fs with buffers := fun a => if a < mem.length then some (mem.drop a) else none } }

/-- The archive at address 0, with chunks in the order of the addresses. -/
def bootInitrd (mem : List UInt8) : Initrd where
  place := 0
  mem := mem
  a := cleared
  length_a _ := rfl
  supply := ⟨id, fun _ => none⟩

theorem bootState_tree (mem : List UInt8) : Tree (bootState mem).fs 0 :=
  freshRoot_plain.rooted.tree.of_nodes rfl

theorem bootInitrd_holds (entries : List Record) :
    (bootInitrd (archive entries trailerRecord [])).Holds
      (bootState (archive entries trailerRecord [])).fs.buffers entries where
  archive := ⟨trailerRecord, [], rfl, rfl⟩
  present offset inside := by
    have same : (bootInitrd (archive entries trailerRecord [])).place + offset = offset :=
      Nat.zero_add offset
    rw [same]
    exact if_pos inside
  chunks := Function.injective_id

theorem bootInitrd_clear (mem : List UInt8) (n : ℕ) : ClearFrom (bootInitrd mem).a 0 n :=
  fun k _ _ => isClear_cleared k

/-- The file `hi` of four bytes. -/
def wholeFile : Record := newc [104, 105] [1, 2, 3, 4] hi_ne_nil hi_no_nul hi_small (by decide)

/-- The directory `d`. -/
def dirEntry : Record := newc [100] [] (by decide) (by decide) (by decide) nil_small

/-- A file of four bytes in front of a directory is there afterwards. -/
theorem wholeFile_faithful : ∃ s', Returns (fun fuel => initramfsSetupMount
      (bootInitrd (archive [wholeFile, dirEntry] trailerRecord [])) 0 fuel
      (bootState (archive [wholeFile, dirEntry] trailerRecord []))) (0, 1, s') ∧
    Faithful s' 1 [wholeFile, dirEntry] := by
  exact (initramfs_faithful_iff (bootState_tree _) rfl rfl (by simp) (by decide)
    (bootInitrd_holds [wholeFile, dirEntry])
    (@fitsVfs_singleton [104, 105] ⟨by decide, by decide, by decide, by decide⟩)).mpr
      ⟨bootInitrd_clear _ _, by decide, by decide⟩

/-- A file of three bytes that is the last entry is not. -/
theorem hiFile_lost : ∃ s', Returns (fun fuel => initramfsSetupMount
      (bootInitrd (archive [hiFile] trailerRecord [])) 0 fuel
      (bootState (archive [hiFile] trailerRecord []))) (0, 1, s') ∧
    ¬ Faithful s' 1 [hiFile] := by
  obtain ⟨s', returns, iff⟩ := initramfsSetupMount_faithful (bootState_tree _) rfl rfl (by simp)
    (by decide) (bootInitrd_holds [hiFile]) (bootInitrd_clear _ _)
    (@fitsVfs_singleton [104, 105] ⟨by decide, by decide, by decide, by decide⟩)
  refine ⟨s', returns, fun faithful => ?_⟩
  exact absurd ((iff.mp faithful).2 hiFile rfl) (by decide)

end BareMetal.Vfs
