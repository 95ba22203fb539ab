import BareMetal.Vfs.AllTasks

/-!
# The mounts of `main`

`main` mounts a tmpfs on `/`, the initramfs on `/initramfs` and the devices on `/dev`, and
`task_create` opens `/dev/uart` three times. After that the session of the new task is orderly.

## Main results

* `boot_orderly` — the first session is orderly, with the terminal and the files of the archive, and
  all tasks go on from there
-/

namespace BareMetal.Vfs

open CS Strings Cpio

variable {s s' : State} {root r v d : ℕ} {p q t : List (List UInt8)} {k : List UInt8}
  {node : Vnode} {initrd : Initrd} {kind : FsKind} {init : List Record} {last : Record}

/-! ## Definitions -/

/-- The string `"devfs"`. -/
def devfsName : List UInt8 := [100, 101, 118, 102, 115]

/-- The mounts of `main`. -/
def mountAll (initrd : Initrd) (i₀ : ℤ) (fuel : ℕ) (s : State) : Outcome State := do
  let (_, s) ← vfsMount initrd i₀ fuel [slash] tmpfsName s
  let (_, s) ← vfsMount initrd i₀ fuel initramfsPath tmpfsName s
  let (_, s) ← vfsMount initrd i₀ fuel devPath devfsName s
  return s

/-- `main` up to its first task. -/
def boot (initrd : Initrd) (i₀ : ℤ) (fuel : ℕ) (handles : Fin 3 → ℕ) (s : State) :
    Outcome Session := do
  let s ← mountAll initrd i₀ fuel s
  let (cur, s) ← openUart i₀ fuel (handles 0) (handles 1) (handles 2) s
  return ⟨cur, s⟩

/-! ## A mount -/

section MountOn

variable {setup : ℕ → State → Outcome (ℤ × ℕ × State)} {target fileName : List UInt8} {result : ℤ}

/-- A mount on a path that leads somewhere hangs what `setup_mount` makes there. -/
theorem mountOn_returns (finds : s.Finds target v) (here : s.fs.nodes[v]? = some node)
    (short : fileName.length < nameLen) (mono : FuelMonotone fun fuel => setup fuel s)
    (sets : Returns (fun fuel => setup fuel s) (result, r, s')) :
    Returns (fun fuel => mountOn fuel target fileName (setup fuel) s)
      (result, { s' with fs := s'.fs.setMount v r }) := by
  obtain ⟨n, looks⟩ := finds
  obtain ⟨m, sets⟩ := sets
  have looks := (vfsLookup_mono target none s).of_le (Nat.le_max_left n m) looks
  have sets := mono.of_le (Nat.le_max_right n m) sets
  refine ⟨max n m, ?_⟩
  dsimp only at looks sets ⊢
  rw [mountOn, looks, outcome_bind_ok]
  dsimp only
  rw [if_pos rfl, Fs.node_eq_ok.mpr here, outcome_bind_ok, copyFsName, if_pos short,
    outcome_bind_ok, sets]
  rfl

end MountOn

/-! ## A filesystem on a directory -/

/-- The root of a filesystem that is not mounted yet. -/
structure Fs.Detached (fs : Fs) (r : ℕ) (kind : FsKind) : Prop where
  tree : Tree fs r
  dir : fs.names.isDir r
  closed : fs.Closed r
  bare : fs.Bare r kind

theorem Fs.Detached.mounted (detached : s.fs.Detached r kind)
    (resolves : s.fs.names.Resolves root t v) (dir : s.fs.names.isDir v) (above : v < r) :
    Namespace.Mounted s.fs.names (s.fs.setMount v r).names root t v r (r ≤ ·) where
  entry := Fs.entry_setMount
  isDir := Fs.isDir_setMount
  cover_self := Fs.cover_setMount_self (above.trans detached.tree.root_valid)
  cover_of_ne := Fs.cover_setMount_of_ne
  resolves := resolves
  dir := dir
  root_dir := detached.dir
  root_inside := Nat.le_refl r
  outside := Nat.not_le.mpr above
  closed inside entry := detached.closed inside (Fs.entry_mem entry).1
  bare := detached.bare.cover_eq

/-- What a mount of it keeps and adds. -/
theorem Rooted.mountOn (rooted : Rooted s root) (tidy : s.fs.Tidy root)
    (detached : s.fs.Detached r kind) (resolves : s.fs.names.Resolves root t v)
    (dir : s.fs.names.isDir v) (above : v < r) (other : r ≠ root) :
    Rooted { s with fs := s.fs.setMount v r } root ∧ (s.fs.setMount v r).Tidy root ∧
      (∀ {q x}, s.fs.names.Resolves r q x →
        (s.fs.setMount v r).names.Resolves root (t ++ q) x) ∧
      ∀ {q x}, ¬ t <+: q → s.fs.names.Resolves root q x →
        (s.fs.setMount v r).names.Resolves root q x := by
  have mounted := detached.mounted resolves dir above
  have tree := rooted.tree.setMount above detached.tree.root_valid other
    (fun _ => detached.tree.root_listed) fun _ => detached.tree.root_mount
  exact ⟨⟨rooted.rootfs, tree, rooted.idle⟩, tidy.setMount tree,
    mounted.resolves_below rooted.tree.forest rooted.tree.exists_settles,
    mounted.resolves_outside rooted.tree.forest rooted.tree.exists_settles⟩

/-! ## Directories below `/` -/

/-- The mounted root is a directory of tmpfs with these names, and no file is open. -/
structure Started (s : State) (names : List (List UInt8)) : Prop where
  rooted : Rooted s 0
  tidy : s.fs.Tidy 0
  unopened : s.fs.files = fun _ => none
  top : ∃ node, s.fs.nodes[0]? = some node ∧ node.mount = none ∧ node.vOps = .tmpfs ∧
    node.component.type = .dir
  entries : (s.fs.listing 0).map s.fs.nameOf = names.map some

namespace Started

variable {names : List (List UInt8)} (started : Started s names)
include started

theorem top_len (here : s.fs.nodes[0]? = some node) (dir : node.component.type = .dir) :
    node.component.len = names.length := by
  obtain ⟨len, -⟩ := (started.tidy.tree.sound here).entry dir
  have count := congrArg List.length started.entries
  rw [List.length_map, List.length_map, Fs.listing_eq here] at count
  exact len.trans count

theorem missing (new : k ∉ names) : s.fs.names.child 0 k = none := by
  by_contra! there
  obtain ⟨v, found⟩ := Option.ne_none_iff_exists'.mp there
  obtain ⟨x, entry, -⟩ := Namespace.child_eq_some.mp found
  obtain ⟨listed, name⟩ := Fs.entry_mem entry
  have inside : some k ∈ names.map some := by
    rw [← started.entries, ← name]
    exact List.mem_map_of_mem listed
  obtain ⟨k', here, same⟩ := List.mem_map.mp inside
  exact new (Option.some.inj same ▸ here)

/-- **`vfs_mkdir`** of a new name makes a directory. -/
theorem mkdir (name : IsName k) (new : k ∉ names) (room : names.length < tmpfsMaxEntry) :
    ∃ s₁, Returns (fun fuel => vfsMkdir 0 fuel (path [k]) s) (0, s₁) ∧ Started s₁ (names ++ [k]) ∧
      Adds 0 s.fs s₁.fs ∧ s₁ = { s with strtok := .idle, fs := s₁.fs } ∧
      s₁.fs.nodes.length = s.fs.nodes.length + 1 ∧
      s₁.fs.names.Resolves 0 [k] s.fs.nodes.length ∧ s₁.fs.names.isDir s.fs.nodes.length := by
  obtain ⟨node, here, free, memory, dir⟩ := started.top
  have tree := started.tidy.tree
  have settles : s.fs.names.Settles 0 0 :=
    Namespace.settles_self ((Fs.cover_eq here).trans free)
  have is_dir := (Fs.isDir_iff here).mpr dir
  have missing := started.missing new
  have room' : node.component.len < tmpfsMaxEntry := (started.top_len here dir).trans_lt room
  have proper : ∀ k' ∈ [k], IsName k' := List.forall_mem_singleton.mpr name
  have parts := IsName.parts proper
  -- the path is not found, so that `lookup_path` is called to create it
  obtain ⟨target, mkdir⟩ := started.rooted.vfsMkdir_create
    (path_ne_root (List.cons_ne_nil k []) proper) (not_nul_mem_path proper) (by
      rw [components_path (List.cons_ne_nil k []) parts]
      exact fun k' inside => (proper k' inside).short.trans (by decide)) 0
  have fits : Fits (path [k]) := by
    refine fits_path (List.cons_ne_nil k []) proper ?_ (show 1 < vfsMaxDepth - 1 by decide)
    have short := name.short
    have limits : nameLen = 16 ∧ tmpfsMaxPathLen = 255 := ⟨rfl, rfl⟩
    simp only [path, List.flatMap_cons, List.flatMap_nil, List.append_nil, List.length_cons]
    omega
  obtain ⟨depth, call⟩ := tree.lookupPath_create target tree.root_valid started.rooted.idle fits
    settles is_dir
  -- the loop makes one entry of the root
  have loop : createLoop [k] 0 target { s with strtok := .idle } =
      .ok (0, some s.fs.nodes.length,
        { s with strtok := .idle, fs := s.fs.addDir 0 node k }) := by
    rw [createLoop, if_neg name.ne_nil, Fs.node_eq_ok.mpr here, outcome_bind_ok, memory]
    dsimp only [FsKind.mkdir]
    rw [tree.tmpfsMkdir_new here dir name.no_nul missing room' name.short]
    rfl
  rw [splitNames_path parts] at call
  have returns := mkdir _ _ _ ⟨0 + 1 + depth, (call 0).trans loop⟩
  have grafted := tree.grafted_addDir here dir missing
  have adds : Adds 0 s.fs (s.fs.addDir 0 node k) :=
    .single (.intro (Nat.zero_le 0) here dir missing name room')
  have reaches : s.fs.names.Reaches 0 [] 0 := Namespace.reaches_nil.mpr settles
  have reaches' := grafted.reaches_new tree.forest reaches
  refine ⟨_, returns, ⟨⟨started.rooted.rootfs, tree.addDir here dir name, rfl⟩,
    started.tidy.adds adds, started.unopened, ⟨_, Fs.addNode_self here, free, memory, dir⟩, ?_⟩,
    adds, rfl, Fs.length_addDir, ?_, grafted.dir⟩
  · have named : ((s.fs.addDir 0 node k).listing 0).map (s.fs.addDir 0 node k).nameOf = _ :=
      Fs.map_listing_addNode here tree.sound_nodes dir 0
    rw [if_pos rfl, started.entries] at named
    rw [List.map_append]
    exact named
  · exact (Namespace.resolves_singleton ((grafted.start 0).mpr settles)).mpr grafted.child_self

end Started

/-- What `setup_mount` leaves: a new root, and the vnodes from before. -/
structure SetUp (s s' : State) (kind : FsKind) : Prop where
  rooted : Rooted s' 0
  tidy : s'.fs.Tidy 0
  detached : s'.fs.Detached s.fs.nodes.length kind
  old : s'.fs.nodes.take s.fs.nodes.length = s.fs.nodes
  unopened : s'.fs.files = s.fs.files

namespace SetUp

variable {names : List (List UInt8)} (setUp : SetUp s s' kind)
include setUp

theorem getElem? (valid : v < s.fs.nodes.length) : s'.fs.nodes[v]? = s.fs.nodes[v]? := by
  conv_rhs => rw [← setUp.old]
  exact (List.getElem?_take_of_lt valid).symm

/-- The old vnodes have the names that they had. -/
theorem agree (tree : Tree s.fs 0) :
    Namespace.Agree s.fs.names s'.fs.names (· < s.fs.nodes.length) where
  entry valid k := by
    have same {x : ℕ} (valid : x < s.fs.nodes.length) := setUp.getElem? valid
    change (s'.fs.listing _).find? _ = (s.fs.listing _).find? _
    rw [Fs.listing, same valid]
    refine List.find?_congr fun x listed => ?_
    rw [Fs.nameOf, same (tree.listed_valid listed), Fs.nameOf]
  cover valid := by
    simp only [Fs.names, setUp.getElem? valid]
  isDir valid dir := by
    simp only [Fs.names, setUp.getElem? valid] at dir ⊢
    exact dir
  entry_inside _ entry := tree.listed_valid (Fs.entry_mem entry).1
  cover_inside _ covered := (tree.mount_valid covered).2

/-- **A mount** of the new root keeps the paths that do not go through it, and those in the new
filesystem are below it. -/
theorem mount (started : Started s names) (resolves : s.fs.names.Resolves 0 [k] v)
    (dir : s.fs.names.isDir v) (other : v ≠ 0) :
    Started { s' with fs := s'.fs.setMount v s.fs.nodes.length } names ∧
      (∀ {q x}, s'.fs.names.Resolves s.fs.nodes.length q x →
        (s'.fs.setMount v s.fs.nodes.length).names.Resolves 0 (k :: q) x) ∧
      ∀ {q x}, ¬ [k] <+: q → s.fs.names.Resolves 0 q x →
        (s'.fs.setMount v s.fs.nodes.length).names.Resolves 0 q x := by
  have tree := started.tidy.tree
  have agree := setUp.agree tree
  have valid := tree.resolves_valid resolves
  obtain ⟨rooted, tidy, below, outside⟩ := setUp.rooted.mountOn setUp.tidy setUp.detached
    (agree.resolves tree.root_valid resolves) (agree.isDir valid dir) valid tree.root_valid.ne'
  obtain ⟨node, here, free, memory, is_dir⟩ := started.top
  have here' := (setUp.getElem? tree.root_valid).trans here
  refine ⟨⟨rooted, tidy, setUp.unopened.trans started.unopened, ⟨node, ?_, free, memory, is_dir⟩,
    ?_⟩, below, fun away old => outside away (agree.resolves tree.root_valid old)⟩
  · exact (Fs.setMount_of_ne other.symm).trans here'
  · rw [← started.entries, Fs.listing_setMount, Fs.listing_eq here', Fs.listing_eq here]
    refine List.map_congr_left fun x listed => ?_
    rw [← Fs.listing_eq here] at listed
    rw [Fs.nameOf_setMount, Fs.nameOf, setUp.getElem? (tree.listed_valid listed), Fs.nameOf]

end SetUp

/-! ## The devices -/

theorem modify_concat_length {α : Type} (xs : List α) (x : α) (f : α → α) :
    (xs ++ [x]).modify xs.length f = xs ++ [f x] := by
  induction xs with
  | nil => rfl
  | cons _ xs ih => simp [ih]

/-- A new vnode becomes a file, whatever its type was. -/
theorem Fs.newFile_addDir {fs : Fs} : (fs.addNode d node k .file).modifyComponent fs.nodes.length
      (fun component => { component with type := .file }) =
    (fs.addDir d node k).newFile fs.nodes.length := by
  let others := fs.nodes.modify d fun node =>
    { node with component := node.component.withEntry fs.nodes.length }
  have len : fs.nodes.length = others.length := (List.length_modify ..).symm
  rw [newFile, Fs.modifyComponent, Fs.modifyComponent]
  have file : (fs.addNode d node k .file).nodes = others ++ [newNode node k .file] := rfl
  have dir : (fs.addDir d node k).nodes = others ++ [newDir node k] := rfl
  rw [file, dir, len, modify_concat_length, modify_concat_length]
  rfl

/-- **`devfs_setup_mount`** makes a root with the file `uart`. -/
theorem Started.setUp_devfs {names : List (List UInt8)} (started : Started s names) :
    ∃ s', devfsSetupMount s = .ok (0, s.fs.nodes.length, s') ∧ SetUp s s' .devfs ∧
      s' = { s with fs := s'.fs } ∧ s'.fs.buffers = s.fs.buffers ∧
      s'.fs.names.Resolves s.fs.nodes.length [devfsUartName] (s.fs.nodes.length + 1) ∧
      s'.fs.nodes[s.fs.nodes.length + 1]? =
        some ⟨none, .devfs, .devfs, ⟨devfsUartName, .file, 0, .null⟩⟩ := by
  have tree := started.tidy.tree
  -- the root of the devices, and a directory that becomes the file
  let root := s.fs.nodes.length
  let fs₁ := s.fs.addRoot .devfs
  let fs₂ := fs₁.addDir root (rootNode .devfs) devfsUartName
  have len : fs₁.nodes.length = root + 1 := Fs.length_addRoot
  have here : fs₁.nodes[root]? = some (rootNode .devfs) := Fs.addRoot_new
  have tree₁ : Tree fs₁ root := tree.addRoot_self
  have missing : fs₁.names.child root devfsUartName = none := by
    simp [Namespace.child, Fs.names, fs₁, Fs.addRoot_listing (Nat.le_refl root)]
  have name : IsName devfsUartName := ⟨by decide, by decide, by decide, by decide⟩
  have room : (rootNode .devfs).component.len < tmpfsMaxEntry := by decide
  have adds : AddsDir root fs₁ fs₂ := .intro (Nat.le_refl root) here rfl missing name room
  have grafted := tree₁.grafted_addDir here rfl missing
  have new : fs₂.nodes[root + 1]? = some (newDir (rootNode .devfs) devfsUartName) :=
    len ▸ Fs.addDir_new
  have empty : fs₂.listing (root + 1) = [] := by
    rw [Fs.listing_eq new]
    rfl
  have free : fs₂.names.cover (root + 1) = none := len ▸ grafted.free
  have pruned : Namespace.Pruned fs₂.names (fs₂.newFile (root + 1)).names (root + 1) :=
    makesFile_open.pruned empty free
  have settles : fs₁.names.Settles root root := Namespace.settles_self (Fs.cover_eq here)
  have create : tmpfsCreate .file root none devfsUartName fs₁ =
      .ok (0, some fs₁.nodes.length, fs₁.addNode root (rootNode .devfs) devfsUartName .file) :=
    tree₁.sound_nodes.tmpfsCreate_new here rfl name.no_nul missing room name.short
  have adds₀ : Adds 0 fs₁ fs₂ := .single (.intro (Nat.zero_le _) here rfl missing name room)
  have tidy := (started.tidy.addRoot .devfs).adds adds₀
  have closed : fs₁.Closed root := fun d v inside listed => by
    rw [Fs.addRoot_listing inside] at listed
    exact absurd listed List.not_mem_nil
  have bare : (fs₂.newFile (root + 1)).Bare root .devfs := fun v node inside there => by
    rcases Fs.modifyComponent_cases _ there with ⟨before, -, was, rfl⟩ | ⟨-, was⟩
    · have kept := adds.bare Fs.bare_addRoot inside was
      exact kept
    · exact adds.bare Fs.bare_addRoot inside was
  have dir : (fs₂.newFile (root + 1)).names.isDir root :=
    (pruned.isDir root (Nat.lt_succ_self root).ne).mpr
      ((Fs.isDir_iff (Fs.addNode_self here)).mpr rfl)
  refine ⟨{ s with fs := fs₂.newFile (root + 1) }, ?_, ⟨⟨started.rooted.rootfs,
    (tidy.newFile new rfl).tree, started.rooted.idle⟩, tidy.newFile new rfl,
    ⟨makesFile_open.tree (adds.tree tree₁), dir, ?_, bare⟩, ?_, rfl⟩, rfl, rfl, ?_,
    Fs.newFile_self new⟩
  · rw [devfsSetupMount]
    dsimp only
    rw [create, outcome_bind_ok]
    dsimp only
    rw [if_pos rfl, Fs.newFile_addDir, len]
    rfl
  · exact fun d v inside listed =>
      adds.closed closed inside (makesFile_open.mem_listing listed)
  · refine List.ext_getElem? fun x => ?_
    rw [List.getElem?_take]
    split_ifs with old
    · have other : x ≠ root + 1 := (Nat.lt_succ_of_lt old).ne
      refine (Fs.modifyComponent_of_ne _ other).trans ?_
      have valid : x < fs₁.nodes.length := len.symm ▸ Nat.lt_succ_of_lt old
      exact (Fs.addNode_of_ne valid old.ne).trans (Fs.addRoot_old old)
    · exact (List.getElem?_eq_none (Nat.not_lt.mp old)).symm
  · have child : fs₂.names.child root devfsUartName = some (root + 1) := len ▸ grafted.child_self
    exact pruned.resolves_iff.mpr
      ((Namespace.resolves_singleton ((grafted.start root).mpr settles)).mpr child)

/-! ## The archive -/

/-- The data of an entry and their padding are behind its address. -/
theorem Initrd.Holds.content {entries : List Record} {fs : Fs} {e : Placed}
    (holds : initrd.Holds fs.buffers entries) (here : e.Holds initrd.mem)
    (data : e.record.data ≠ []) :
    (fs.bytes (.data (initrd.place + e.dataPtr))).take e.record.dataSize =
      e.record.data ++ e.record.dataPad := by
  have front := holds_padded here
  have inside : e.dataPtr < initrd.mem.length := by
    by_contra beyond
    rw [List.drop_eq_nil_of_le (Nat.not_lt.mp beyond), List.prefix_nil] at front
    exact data (List.append_eq_nil_iff.mp front).1
  rw [Fs.bytes, holds.present _ inside, Option.getD_some]
  have take := List.prefix_iff_eq_take.mp front
  rw [List.length_append] at take
  exact take.symm

/-- **`initramfs_setup_mount`** makes a root with the files of the archive. -/
theorem Started.setUp_initramfs {names : List (List UInt8)} (started : Started s names)
    (dirs : ∀ (v : ℕ) (node : Vnode), s.fs.nodes[v]? = some node → node.component.type = .dir)
    (first : s.mounted = false) (goes : ∀ e ∈ init ++ [last], e.name ≠ trailerName)
    (holds : initrd.Holds s.fs.buffers (init ++ [last]))
    (clear : ClearFrom initrd.a 0 (init ++ [last]).length)
    (fits : FitsVfs (((init ++ [last]).filter fun e => e.data ≠ []).map Record.name)) :
    ∃ s', Returns (fun fuel => initramfsSetupMount initrd 0 fuel s) (0, s.fs.nodes.length, s') ∧
      SetUp s s' .initramfs ∧ s'.mounted = true ∧ s'.fs.buffers = s.fs.buffers ∧
      ∀ e ∈ init, e.data ≠ [] → ∃ v,
        s'.fs.names.Resolves s.fs.nodes.length (components e.name) v ∧
        s'.fs.file v = some (.archive, e.data ++ e.dataPad) := by
  have tree := started.tidy.tree
  obtain ⟨s₁, returns, buffers, stocked⟩ :=
    initramfsSetupMount_stocked tree started.rooted.idle first goes holds clear fits
  -- the list that the loop walks
  have walkable := holds.walkable goes
  have fresh : initrd.supply.Fresh 0 fun _ => none := ⟨holds.chunks, fun _ _ => rfl⟩
  obtain ⟨heap, file, parse, chain, nodes⟩ := cpioParse_eq walkable clear (by simp) fresh
  obtain ⟨place, placed⟩ := layout_concat 0 init last
  have shelved : Shelved initrd 0 s.fs.nodes.length s.fs.nodes (s.fs.addRoot .initramfs) := by
    refine ⟨tree.addRoot, List.take_left, (started.tidy.addRoot .initramfs).kinds, ?_⟩
    intro v node there regular
    rcases Fs.addRoot_cases there with ⟨-, rfl⟩ | old
    · contradiction
    · rw [dirs v node old] at regular
      contradiction
  have fits' : FitsVfs (([] ++ (layout 0 (init ++ [last])).filter hasData).map
      fun e : Placed => e.record.name) := by
    rw [List.nil_append, map_filter_hasData, map_layout]
    exact fits
  obtain ⟨fuel, run⟩ := returns
  have whole := run
  dsimp only at run
  rw [initramfsSetupMount_first initrd 0 fuel first] at run
  obtain ⟨parsed, parses, run⟩ := outcome_bind_eq_ok.mp run
  obtain rfl := (cpioParse_mono ..).returns_unique ⟨_, parse⟩ ⟨fuel, parses⟩
  obtain ⟨s₂, inserts, run⟩ := outcome_bind_eq_ok.mp run
  obtain ⟨shelved', rootfs, unopened⟩ := insertFiles_shelved
    (tree.stocked_addRoot initrd.place started.rooted.idle first) shelved chain nodes
    (by simp [placed]) walkable.holds fits' inserts
  obtain ⟨same_fs, same_rootfs, -⟩ :
      s₂.fs = s₁.fs ∧ s₂.rootfs = s₁.rootfs ∧ s₂.strtok = s₁.strtok := by
    simpa using run
  rw [same_fs] at shelved' unopened
  rw [← buffers] at holds
  have tidy := shelved'.tidy holds.present
  refine ⟨_, ⟨fuel, whole⟩, ⟨⟨?_, tidy.tree, stocked.idle⟩, tidy, ⟨stocked.tree, stocked.root_dir,
    stocked.closed, stocked.bare⟩, shelved'.low, unopened⟩, rfl, buffers, fun e inside data => ?_⟩
  · exact same_rootfs.symm.trans (rootfs.trans started.rooted.rootfs)
  · obtain ⟨f, listed, rfl⟩ : ∃ f ∈ layout 0 init, f.record = e := by
      rw [← map_layout 0 init] at inside
      exact List.mem_map.mp inside
    have here := walkable.holds f (placed ▸ List.mem_append_left _ listed)
    obtain ⟨v, node, resolves, there, regular, len, payload⟩ :=
      stocked.file f (List.mem_filter.mpr ⟨listed, decide_eq_true data⟩)
    refine ⟨v, resolves, (Fs.file_eq there regular).trans ?_⟩
    rw [Vnode.medium, (shelved'.files there regular).1, Fs.contentOf, payload, len,
      holds.content here data]

/-! ## The mounts below `/` -/

/-- The string `"initramfs"`. -/
def initramfsDir : List UInt8 := [105, 110, 105, 116, 114, 97, 109, 102, 115]

/-- The string `"dev"`. -/
def devDir : List UInt8 := [100, 101, 118]

theorem isName_initramfsDir : IsName initramfsDir := ⟨by decide, by decide, by decide, by decide⟩

theorem isName_devDir : IsName devDir := ⟨by decide, by decide, by decide, by decide⟩

/-- The files from before are as they were. -/
theorem SetUp.file_eq (setUp : SetUp s s' kind) (buffers : s'.fs.buffers = s.fs.buffers)
    (file : (s.fs.file v).isSome) : s'.fs.file v = s.fs.file v := by
  rw [Fs.file, setUp.getElem? (Fs.valid_of_file file), Fs.file]
  simp only [Fs.contentOf, Fs.bytes_congr buffers]

/-- The calls of `vfs_mount` for a path with a branch of its own. -/
theorem mkdir_mountOn_returns {setup : ℕ → State → Outcome (ℤ × ℕ × State)}
    {fileName : List UInt8} {s₁ s₂ : State} {names : List (List UInt8)}
    (mono : ∀ s, FuelMonotone fun fuel => setup fuel s) (name : IsName k)
    (short : fileName.length < nameLen)
    (made : Returns (fun fuel => vfsMkdir 0 fuel (path [k]) s) (0, s₁)) (started : Started s₁ names)
    (resolves : s₁.fs.names.Resolves 0 [k] v)
    (sets : Returns (fun fuel => setup fuel s₁) (0, r, s₂)) :
    Returns (fun fuel => vfsMkdir 0 fuel (path [k]) s >>= fun made =>
        mountOn fuel (path [k]) fileName (setup fuel) made.2)
      (0, { s₂ with fs := s₂.fs.setMount v r }) := by
  have proper : ∀ k' ∈ [k], IsName k' := List.forall_mem_singleton.mpr name
  have finds := (started.rooted.finds_path (List.cons_ne_nil k []) proper).mpr resolves
  have here := List.getElem?_eq_getElem (started.tidy.tree.resolves_valid resolves)
  exact Returns.bind (vfsMkdir_mono 0 (path [k]) s)
    (mountOn_mono mono (path [k]) fileName s₁) made
    (mountOn_returns finds here short (mono s₁) sets)

/-- **The mount on `/initramfs`.** -/
theorem Started.vfsMount_initramfs (started : Started s [])
    (dirs : ∀ (v : ℕ) (node : Vnode), s.fs.nodes[v]? = some node → node.component.type = .dir)
    (first : s.mounted = false) (goes : ∀ e ∈ init ++ [last], e.name ≠ trailerName)
    (holds : initrd.Holds s.fs.buffers (init ++ [last]))
    (clear : ClearFrom initrd.a 0 (init ++ [last]).length)
    (fits : FitsVfs (((init ++ [last]).filter fun e => e.data ≠ []).map Record.name)) :
    ∃ s', Returns (fun fuel => vfsMount initrd 0 fuel initramfsPath tmpfsName s) (0, s') ∧
      Started s' [initramfsDir] ∧ s'.mounted = true ∧ ∀ e ∈ init, e.data ≠ [] → ∃ v,
        s'.fs.names.Resolves 0 (initramfsDir :: components e.name) v ∧
        s'.fs.file v = some (.archive, e.data ++ e.dataPad) := by
  obtain ⟨s₁, made, started₁, adds, others, -, resolves, dir⟩ :=
    started.mkdir isName_initramfsDir List.not_mem_nil (by decide)
  have dirs₁ (v : ℕ) (node : Vnode) (there : s₁.fs.nodes[v]? = some node) :
      node.component.type = .dir := by
    by_contra other
    obtain ⟨node', here, component, -⟩ := Adds.regular_cases adds there (by
      cases type : node.component.type with
      | file => rfl
      | dir => exact absurd type other)
    rw [component] at other
    exact other (dirs v node' here)
  have first₁ : s₁.mounted = false := by
    rw [others]
    exact first
  have buffers : s₁.fs.buffers = s.fs.buffers := by rw [Adds.others adds]
  obtain ⟨s₂, sets, setUp, mounted, -, files⟩ :=
    started₁.setUp_initramfs dirs₁ first₁ goes (buffers ▸ holds) clear fits
  obtain ⟨started₂, below, -⟩ :=
    setUp.mount started₁ resolves dir (Nat.ne_of_gt started.rooted.tree.root_valid)
  refine ⟨_, mkdir_mountOn_returns (initramfsSetupMount_mono initrd 0) isName_initramfsDir
    (by decide) made started₁ resolves sets, started₂, mounted, fun e inside data => ?_⟩
  obtain ⟨v, resolves', file⟩ := files e inside data
  exact ⟨v, below resolves', (Fs.file_setMount ..).trans file⟩

/-- **The mount on `/dev`.** -/
theorem Started.vfsMount_dev {names : List (List UInt8)} (started : Started s names)
    (initrd : Initrd) (new : devDir ∉ names) (room : names.length < tmpfsMaxEntry) :
    ∃ s' u, Returns (fun fuel => vfsMount initrd 0 fuel devPath devfsName s) (0, s') ∧
      Started s' (names ++ [devDir]) ∧ s'.mounted = s.mounted ∧
      s'.fs.names.Resolves 0 [devDir, devfsUartName] u ∧
      s'.fs.nodes[u]? = some ⟨none, .devfs, .devfs, ⟨devfsUartName, .file, 0, .null⟩⟩ ∧
      (∀ {q v}, ¬ [devDir] <+: q → s.fs.names.Resolves 0 q v → s'.fs.names.Resolves 0 q v) ∧
      ∀ {v}, (s.fs.file v).isSome → s'.fs.file v = s.fs.file v := by
  obtain ⟨s₁, made, started₁, adds, others, len, resolves, dir⟩ :=
    started.mkdir isName_devDir new room
  obtain ⟨s₂, sets, setUp, others₂, buffers, uart, there⟩ := started₁.setUp_devfs
  obtain ⟨started₂, below, outside⟩ :=
    setUp.mount started₁ resolves dir (Nat.ne_of_gt started.rooted.tree.root_valid)
  refine ⟨_, s₁.fs.nodes.length + 1, mkdir_mountOn_returns
    (fun s => fuelMonotone_const (devfsSetupMount s)) isName_devDir (by decide) made started₁
    resolves ⟨0, sets⟩, started₂, ?_, below uart, ?_, fun away old => ?_, fun {v} file => ?_⟩
  · change s₂.mounted = _
    rw [others₂, others]
  · exact (Fs.setMount_of_ne (by omega)).trans there
  · exact outside away (Adds.resolves_mono adds started.tidy.tree old)
  · have same : s₁.fs.file v = s.fs.file v := congrFun (Adds.file_eq adds) v
    rw [← same] at file ⊢
    exact (Fs.file_setMount ..).trans (setUp.file_eq buffers file)

/-! ## `main` -/

/-- What `main` starts from: no vnode, and no open file. -/
structure State.Blank (s : State) : Prop where
  nodes : s.fs.nodes = []
  unopened : s.fs.files = fun _ => none
  idle : s.strtok.flag = false
  first : s.mounted = false

theorem vfsMount_root (initrd : Initrd) (i₀ : ℤ) (fuel : ℕ) (s : State) :
    vfsMount initrd i₀ fuel [slash] tmpfsName s =
      .ok (0, { s with fs := s.fs.addRoot .tmpfs, rootfs := some s.fs.nodes.length }) :=
  rfl

/-- **The mount on `/`** of a state without vnodes. -/
theorem State.Blank.started (blank : s.Blank) :
    Started { s with fs := s.fs.addRoot .tmpfs, rootfs := some s.fs.nodes.length } [] := by
  have nodes : (s.fs.addRoot .tmpfs).nodes = [tmpfsRoot] := by
    rw [Fs.addRoot, blank.nodes]
    rfl
  have tree : Tree (s.fs.addRoot .tmpfs) 0 := freshRoot_plain.rooted.tree.of_nodes nodes
  have here {v : ℕ} {node : Vnode} (there : (s.fs.addRoot .tmpfs).nodes[v]? = some node) :
      node = tmpfsRoot := by
    rw [nodes] at there
    exact List.mem_singleton.mp (List.mem_of_getElem? there)
  refine ⟨⟨?_, tree, blank.idle⟩, ⟨tree, ?_, ?_⟩, blank.unopened, ⟨tmpfsRoot, ?_, rfl, rfl, rfl⟩,
    ?_⟩
  · rw [blank.nodes]
    rfl
  · -- the vnode is a directory, and its data are null
    refine ⟨fun there regular => ?_, fun there regular => ?_, fun there regular => ?_,
      fun there data => ?_, fun there _ _ data => ?_⟩
    · rw [here there] at regular
      contradiction
    · rw [here there] at regular
      contradiction
    · rw [here there] at regular
      contradiction
    · rw [here there] at data
      contradiction
    · rw [here there] at data
      contradiction
  · intro v node there
    rw [here there]
    rfl
  · change (s.fs.addRoot .tmpfs).nodes[0]? = _
    rw [nodes]
    rfl
  · have listing : (s.fs.addRoot .tmpfs).listing 0 = [] :=
      Fs.addRoot_listing (blank.nodes ▸ Nat.le_refl 0)
    change ((s.fs.addRoot .tmpfs).listing 0).map _ = _
    rw [listing]
    rfl

/-- The task sees the terminal, and the files of the archive but for its last entry. -/
structure Furnished (s : State) (u : ℕ) (entries : List Record) : Prop where
  started : Started s [initramfsDir, devDir]
  mounted : s.mounted = true
  uart : s.fs.names.Resolves 0 [devDir, devfsUartName] u
  terminal : s.fs.nodes[u]? = some ⟨none, .devfs, .devfs, ⟨devfsUartName, .file, 0, .null⟩⟩
  files : ∀ e ∈ entries.dropLast, e.data ≠ [] → ∃ v,
    s.fs.names.Resolves 0 (initramfsDir :: components e.name) v ∧
    s.fs.file v = some (.archive, e.data ++ e.dataPad)

/-- **The mounts of `main`.** -/
theorem State.Blank.mountAll (blank : s.Blank) (goes : ∀ e ∈ init ++ [last], e.name ≠ trailerName)
    (holds : initrd.Holds s.fs.buffers (init ++ [last]))
    (clear : ClearFrom initrd.a 0 (init ++ [last]).length)
    (fits : FitsVfs (((init ++ [last]).filter fun e => e.data ≠ []).map Record.name)) :
    ∃ s' u, Returns (fun fuel => mountAll initrd 0 fuel s) s' ∧
      Furnished s' u (init ++ [last]) := by
  have started := blank.started
  have dirs (v : ℕ) (node : Vnode) (there : (s.fs.addRoot .tmpfs).nodes[v]? = some node) :
      node.component.type = .dir := by
    rcases Fs.addRoot_cases there with ⟨-, rfl⟩ | old
    · rfl
    · rw [blank.nodes] at old
      contradiction
  obtain ⟨s₁, archive, started₁, mounted, files⟩ :=
    started.vfsMount_initramfs dirs blank.first goes holds clear fits
  obtain ⟨s₂, u, devices, started₂, mounted₂, uart, terminal, outside, same⟩ :=
    started₁.vfsMount_dev initrd (by decide) (by decide)
  refine ⟨s₂, u, ?_, started₂, mounted₂.trans mounted, uart, terminal, fun e inside data => ?_⟩
  · refine Returns.bind (vfsMount_mono ..) ?_ ⟨0, vfsMount_root initrd 0 0 s⟩ ?_
    · exact (vfsMount_mono ..).bind fun _ => (vfsMount_mono ..).bind fun _ => fuelMonotone_const _
    refine Returns.bind (vfsMount_mono ..) ?_ archive ?_
    · exact (vfsMount_mono ..).bind fun _ => fuelMonotone_const _
    exact Returns.bind (vfsMount_mono ..) (fuelMonotone_const _) devices ⟨0, rfl⟩
  · rw [List.dropLast_concat] at inside
    obtain ⟨v, resolves, file⟩ := files e inside data
    have away : ¬ [devDir] <+: initramfsDir :: components e.name := by
      intro front
      have first := (List.cons_prefix_cons.mp front).1
      exact absurd first (by decide)
    refine ⟨v, outside away resolves, (same ?_).trans file⟩
    rw [file]
    rfl

/-! ## The first task -/

/-- The names of a path below the mount of the archive. -/
theorem components_initramfs {name : List UInt8} (some_byte : name ≠ []) :
    components (initramfsPath ++ slash :: name) = initramfsDir :: components name := by
  have rest : popFirstComponent (initramfsPath ++ slash :: name) = name := rfl
  rw [components_cons (rest.symm ▸ some_byte), rest]
  rfl

theorem components_devUart : components devUart = [devDir, devfsUartName] :=
  @components_path [devDir, devfsUartName] (List.cons_ne_nil _ _) (by decide)

/-- What the first task starts with: the terminal on its first three descriptors, and below
`/initramfs` the files of the archive that have data, but for its last entry. -/
structure FirstSession (c : Session) (u : ℕ) (entries : List Record) : Prop where
  orderly : c.Orderly 0
  cwd : c.view.cwd = [slash]
  fds : c.view.fds = List.replicate 3 (some (u, 0)) ++ List.replicate 13 none
  uart : c.view.leads devUart = some u
  terminal : c.view.files u = some (.terminal, [])
  files : ∀ e ∈ entries.dropLast, e.data ≠ [] → ∃ v,
    c.view.leads (initramfsPath ++ slash :: e.name) = some v ∧
    c.view.files v = some (.archive, e.data ++ e.dataPad)

theorem Furnished.firstSession {c : Session} {u : ℕ} {entries : List Record}
    (furnished : Furnished s u entries) (orderly : c.Orderly 0)
    (view : c.view = { (newTask s).view with fds := (Own.new u).fds }) :
    FirstSession c u entries := by
  have rooted := furnished.started.rooted
  have leads {p : List UInt8} {v : ℕ} (no_nul : 0 ∉ p) (not_root : p ≠ [slash])
      (resolves : s.fs.names.Resolves 0 (components p) v) : c.view.leads p = some v := by
    rw [view]
    exact rooted.leads_eq_some.mpr ⟨no_nul, .inr ⟨not_root, resolves⟩⟩
  refine ⟨orderly, ?_, ?_, ?_, ?_, fun e inside data => ?_⟩
  · rw [view]
    rfl
  · rw [view]
    rfl
  · exact leads (by decide) (by decide) (components_devUart.symm ▸ furnished.uart)
  · rw [view]
    exact Fs.file_eq furnished.terminal rfl
  · obtain ⟨v, resolves, file⟩ := furnished.files e inside data
    refine ⟨v, leads ?_ ?_ ?_, ?_⟩
    · rw [List.mem_append, List.mem_cons]
      rintro (inside | zero | inside)
      · exact absurd inside (by decide)
      · exact absurd zero (by decide)
      · exact e.no_nul inside
    · intro same
      simp [initramfsPath] at same
    · rw [components_initramfs e.name_ne_nil]
      exact resolves
    · rw [view]
      exact file

/-- **From `main` on.** Without a vnode and an open file, with an archive in memory whose paths
fit, and with nothing left in `a[0]` when `read_header` is called, the mounts of `main` and
`task_create` return. The session of the first task is orderly, and from then on all that tasks do
under the condition of the calls, in any order, are steps of what they see; every new task finds
the terminal. -/
theorem boot_orderly {entries : List Record} {handles : Fin 3 → ℕ} (blank : s.Blank)
    (nonempty : entries ≠ []) (goes : ∀ e ∈ entries, e.name ≠ trailerName)
    (holds : initrd.Holds s.fs.buffers entries) (clear : ClearFrom initrd.a 0 entries.length)
    (fits : FitsVfs ((entries.filter fun e => e.data ≠ []).map Record.name))
    (different : Function.Injective handles) :
    ∃ c u, Returns (fun fuel => boot initrd 0 fuel handles s) c ∧ FirstSession c u entries ∧
      ∀ as S', Run (Guarded System.Step (System.Guard 0)) ⟨[c.process], c.state⟩ as S' →
        S'.Orderly 0 ∧ S'.HasTerminal ∧
          Run Views.Step (System.views ⟨[c.process], c.state⟩) as S'.views := by
  obtain ⟨init, last, rfl⟩ := (List.eq_nil_or_concat' entries).resolve_left nonempty
  obtain ⟨s₁, u, mounts, furnished⟩ := blank.mountAll goes holds clear fits
  have rooted := furnished.started.rooted
  -- before the first task
  have nobody : System.Orderly ⟨[], s₁⟩ 0 := by
    refine ⟨newTask_orderly rooted furnished.started.tidy.stored fun here => ?_,
      fun here => by contradiction, fun here => by contradiction⟩
    exact ⟨furnished.started.tidy.kinds _ _ here, fun _ => furnished.mounted⟩
  have leads : s₁.leads devUart = some u :=
    rooted.leads_eq_some.mpr
      ⟨by decide, .inr ⟨by decide, components_devUart.symm ▸ furnished.uart⟩⟩
  have file := Fs.file_eq furnished.terminal rfl
  obtain ⟨c, opens, orderly, view, frame⟩ := openUart_returns nobody.newcomer leads
    (Option.isSome_iff_exists.mpr ⟨_, file⟩) different
    fun i => congrFun furnished.started.unopened (handles i)
  have first := furnished.firstSession orderly view
  obtain ⟨start, -⟩ := nobody.joined orderly view frame
  refine ⟨c, u, ?_, first, fun as S' run => ?_⟩
  · refine Returns.bind ?_ ((openUart_mono ..).bind fun _ => fuelMonotone_const _) mounts
      (Returns.bind (openUart_mono ..) (fuelMonotone_const _) opens ⟨0, rfl⟩)
    exact (vfsMount_mono ..).bind fun _ => (vfsMount_mono ..).bind fun _ =>
      (vfsMount_mono ..).bind fun _ => fuelMonotone_const _
  · obtain ⟨orderly', run'⟩ := start.run_views (fun _ _ => True)
      (fun _ _ guard => ⟨guard, trivial⟩) run
    have steps : Run Views.Step _ as S'.views := run'.mono fun _ _ _ step => step.2
    exact ⟨orderly', Views.Run.terminal_eq steps first.uart first.terminal, steps⟩

/-- Nothing is mounted yet, and the archive is at address 0. -/
def blankState (mem : List UInt8) : State :=
  { bootState mem with fs := { (bootState mem).fs with nodes := [] }, rootfs := none }

theorem blankState_blank (mem : List UInt8) : (blankState mem).Blank := ⟨rfl, rfl, rfl, rfl⟩

theorem blankState_holds (entries : List Record) :
    (bootInitrd (archive entries trailerRecord [])).Holds
      (blankState (archive entries trailerRecord [])).fs.buffers entries :=
  bootInitrd_holds entries

/-- From an archive with a file in front of a directory. -/
theorem boot_orderly_wholeFile : ∃ c u,
    Returns (fun fuel => boot (bootInitrd (archive [wholeFile, dirEntry] trailerRecord [])) 0 fuel
      Fin.val (blankState (archive [wholeFile, dirEntry] trailerRecord []))) c ∧
    FirstSession c u [wholeFile, dirEntry] ∧
    ∀ as S', Run (Guarded System.Step (System.Guard 0)) ⟨[c.process], c.state⟩ as S' →
      S'.Orderly 0 ∧ S'.HasTerminal ∧
        Run Views.Step (System.views ⟨[c.process], c.state⟩) as S'.views :=
  boot_orderly (blankState_blank _) (by simp) (by decide) (blankState_holds [wholeFile, dirEntry])
    (bootInitrd_clear _ _)
    (@fitsVfs_singleton [104, 105] ⟨by decide, by decide, by decide, by decide⟩) Fin.val_injective

end BareMetal.Vfs
