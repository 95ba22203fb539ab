import BareMetal.CS.Namespace
import BareMetal.Vfs.Copy
import BareMetal.Vfs.Paths

/-!
# The tree of vnodes as a namespace

`Fs.names` reads the entries and mounts of the vnodes as a namespace, and `Tree` says
that they form a tree below the root. In a tree `tmpfs_lookup` finds the child of a
directory, and the tables of functions of all filesystems share it.

## Main results

* `Fs.Sound.tmpfsLookup_eq`, `Tree.tmpfsLookup_eq` — `tmpfs_lookup` finds children
* `Tree.resolves_valid` — paths resolve to vnodes that are there
-/

namespace BareMetal.Vfs

open CS Strings

variable {fs : Fs} {root d v x u : ℕ} {node : Vnode} {k : List UInt8} {target : Option ℕ}

/-! ## Names -/

/-- What names of entries are. -/
structure IsName (name : List UInt8) : Prop where
  ne_nil : name ≠ []
  no_nul : 0 ∉ name
  no_slash : slash ∉ name
  short : name.length < nameLen

/-! ## The namespace -/

/-- The entries of a directory. -/
def Component.listed (component : Component) : List ℕ :=
  match component.type, component.payload with
  | .dir, .entries nodes => nodes
  | _, _ => []

/-- The entries of the vnode, if it is a directory. -/
def Fs.listing (fs : Fs) (d : ℕ) : List ℕ := (fs.nodes[d]?.map (·.component.listed)).getD []

/-- The name of a vnode. -/
def Fs.nameOf (fs : Fs) (v : ℕ) : Option (List UInt8) := fs.nodes[v]?.map (·.component.name)

/-- The entries and mounts of the vnodes. -/
def Fs.names (fs : Fs) : Namespace ℕ (List UInt8) where
  entry d k := (fs.listing d).find? fun v => fs.nameOf v = some k
  cover v := fs.nodes[v]?.bind (·.mount)
  isDir v := fs.nodes[v]?.map (·.component.type) = some .dir

/-- A directory has an array of its entries, or none yet. -/
def Component.Sound (component : Component) : Prop :=
  component.type = .dir → component.payload = .null ∧ component.len = 0 ∨
    ∃ nodes, component.payload = .entries nodes ∧ component.len = nodes.length

/-- The vnodes are a tree below the root. -/
structure Tree (fs : Fs) (root : ℕ) : Prop where
  root_valid : root < fs.nodes.length
  sound : ∀ {d : ℕ} {node : Vnode}, fs.nodes[d]? = some node → node.component.Sound
  listed_valid : ∀ {d v}, v ∈ fs.listing d → v < fs.nodes.length
  listed_name : ∀ {d v name}, v ∈ fs.listing d → fs.nameOf v = some name → IsName name
  listed_once : ∀ {d d' v}, v ∈ fs.listing d → v ∈ fs.listing d' → d = d'
  root_listed : ∀ {d}, root ∉ fs.listing d
  mount_valid : ∀ {x r}, fs.names.cover x = some r → x < r ∧ r < fs.nodes.length
  mount_once : ∀ {x y r}, fs.names.cover x = some r → fs.names.cover y = some r → x = y
  mount_listed : ∀ {x r d}, fs.names.cover x = some r → r ∉ fs.listing d
  root_mount : ∀ {x}, fs.names.cover x ≠ some root

theorem Fs.listing_eq (here : fs.nodes[d]? = some node) :
    fs.listing d = node.component.listed := by
  rw [listing, here, Option.map_some, Option.getD_some]

theorem Fs.nameOf_eq (here : fs.nodes[d]? = some node) :
    fs.nameOf d = some node.component.name := by
  rw [nameOf, here, Option.map_some]

theorem Fs.cover_eq (here : fs.nodes[d]? = some node) : fs.names.cover d = node.mount := by
  simp [names, here]

theorem Fs.isDir_iff (here : fs.nodes[d]? = some node) :
    fs.names.isDir d ↔ node.component.type = .dir := by
  simp [names, here]

/-- Only directories have entries. -/
theorem Component.listed_of_ne {component : Component} (other : component.type ≠ .dir) :
    component.listed = [] := by
  cases h : component.type with
  | file => simp [listed, h]
  | dir => exact absurd h other

/-- The array of a directory. -/
theorem Component.Sound.entry {component : Component} (sound : component.Sound)
    (dir : component.type = .dir) :
    component.len = component.listed.length ∧
      ∀ i (inside : i < component.listed.length), component.entry i = .ok component.listed[i] := by
  rcases sound dir with ⟨null, zero⟩ | ⟨nodes, array, len⟩
  · simp [listed, dir, null, zero]
  · have listed_eq : component.listed = nodes := by simp [listed, dir, array]
    rw [listed_eq]
    refine ⟨len, fun i inside => ?_⟩
    simp [Component.entry, array, List.getElem?_eq_getElem inside]

theorem Fs.entry_mem (found : fs.names.entry d k = some x) :
    x ∈ fs.listing d ∧ fs.nameOf x = some k := by
  refine ⟨List.mem_of_find?_eq_some found, ?_⟩
  simpa using List.find?_some found

/-! ## `tmpfs_lookup` -/

/-- Directories have their arrays, and the vnodes in them are there and have strings for their
names. -/
structure Fs.Sound (fs : Fs) : Prop where
  component : ∀ {d : ℕ} {node : Vnode}, fs.nodes[d]? = some node → node.component.Sound
  valid : ∀ {d v}, v ∈ fs.listing d → v < fs.nodes.length
  no_nul : ∀ {d v name}, v ∈ fs.listing d → fs.nameOf v = some name → 0 ∉ name

namespace Fs.Sound

/-- Every listed vnode is there. -/
theorem exists_listed (sound : fs.Sound) (listed : v ∈ fs.listing d) :
    ∃ node, fs.nodes[v]? = some node :=
  ⟨_, List.getElem?_eq_getElem (sound.valid listed)⟩

/-- The loop of `tmpfs_lookup` over the entries that are left. -/
theorem tmpfsLookupLoop_eq (sound : fs.Sound) (here : fs.nodes[d]? = some node)
    (dir : node.component.type = .dir) (no_nul : 0 ∉ k) {left i : ℕ}
    (all : i + left = node.component.listed.length) :
    tmpfsLookupLoop fs node.component k left i =
      .ok (((node.component.listed.drop i).find? fun v => fs.nameOf v = some k).map
        fun x => (fs.names.cover x).getD x) := by
  obtain ⟨-, entries⟩ := (sound.component here).entry dir
  induction left generalizing i with
  | zero =>
    rw [List.drop_eq_nil_of_le (by omega)]
    rfl
  | succ left ih =>
    have inside : i < node.component.listed.length := by omega
    have listed : node.component.listed[i] ∈ fs.listing d := by
      rw [Fs.listing_eq here]
      exact List.getElem_mem inside
    obtain ⟨entry, there⟩ := sound.exists_listed listed
    have name := Fs.nameOf_eq there
    obtain ⟨order, compared, same⟩ := strcmp_strings no_nul (sound.no_nul listed name)
    rw [tmpfsLookupLoop, entries i inside, outcome_bind_ok, Fs.node_eq_ok.mpr there,
      outcome_bind_ok, compared, outcome_bind_ok, List.drop_eq_getElem_cons inside,
      List.find?_cons, name]
    by_cases equal : k = entry.component.name
    · rw [if_pos (same.mpr equal)]
      simp [equal, Fs.cover_eq there]
    · rw [if_neg (equal ∘ same.mp), ih (by omega)]
      simp [Ne.symm equal]

/-- `tmpfs_lookup` finds the child of a directory. -/
theorem tmpfsLookup_eq (sound : fs.Sound) (here : fs.nodes[d]? = some node)
    (dir : node.component.type = .dir) (no_nul : 0 ∉ k) :
    tmpfsLookup fs d target k =
      .ok (if (fs.names.child d k).isSome then 0 else -1, (fs.names.child d k).or target) := by
  obtain ⟨len, -⟩ := (sound.component here).entry dir
  have loop : tmpfsLookupLoop fs node.component k node.component.len 0 =
      .ok (fs.names.child d k) := by
    rw [sound.tmpfsLookupLoop_eq here dir no_nul (by omega), List.drop_zero, ← Fs.listing_eq here]
    rfl
  rw [tmpfsLookup, Fs.node_eq_ok.mpr here, outcome_bind_ok, if_neg (not_not.mpr dir), loop,
    outcome_bind_ok]
  cases fs.names.child d k <;> rfl

end Fs.Sound

namespace Tree

theorem forest (tree : Tree fs root) : fs.names.Forest root where
  one_parent {d k d' k' x} entry entry' := by
    obtain ⟨listed, name⟩ := Fs.entry_mem entry
    obtain ⟨listed', name'⟩ := Fs.entry_mem entry'
    exact ⟨tree.listed_once listed listed', Option.some.inj (name.symm.trans name')⟩
  one_cover := tree.mount_once
  apart entry covered := tree.mount_listed covered (Fs.entry_mem entry).1
  root_entry _ _ entry := tree.root_listed (Fs.entry_mem entry).1
  root_cover _ := tree.root_mount

/-- What `tmpfs_lookup` needs of the vnodes. -/
theorem sound_nodes (tree : Tree fs root) : fs.Sound :=
  ⟨tree.sound, tree.listed_valid, fun listed name => (tree.listed_name listed name).no_nul⟩

theorem child_valid (tree : Tree fs root) (found : fs.names.child d k = some v) :
    v < fs.nodes.length := by
  obtain ⟨x, entry, rfl⟩ := Namespace.child_eq_some.mp found
  cases covered : fs.names.cover x with
  | none => exact tree.listed_valid (Fs.entry_mem entry).1
  | some r => exact (tree.mount_valid covered).2

theorem settles_valid (tree : Tree fs root) (valid : x < fs.nodes.length)
    (settles : fs.names.Settles x u) : u < fs.nodes.length := by
  rcases settles.1.cases_tail with rfl | ⟨y, -, covered⟩
  · exact valid
  · exact (tree.mount_valid covered).2

/-- Chains of mounts end, since mounted roots are newer. -/
theorem exists_settles (tree : Tree fs root) (x : ℕ) : ∃ u, fs.names.Settles x u := by
  induction left : fs.nodes.length - x using Nat.strong_induction_on generalizing x with
  | _ n ih =>
    cases covered : fs.names.cover x with
    | none => exact ⟨x, Namespace.settles_self covered⟩
    | some r =>
      obtain ⟨above, valid⟩ := tree.mount_valid covered
      obtain ⟨u, settles⟩ := ih (fs.nodes.length - r) (by omega) r rfl
      exact ⟨u, settles.head covered⟩

theorem reaches_valid (tree : Tree fs root) {p : List (List UInt8)}
    (reaches : fs.names.Reaches root p d) : d < fs.nodes.length := by
  rcases List.eq_nil_or_concat' p with rfl | ⟨p, k, rfl⟩
  · exact tree.settles_valid tree.root_valid (Namespace.reaches_nil.mp reaches)
  · obtain ⟨d', -, x, found, -, settles⟩ := Namespace.reaches_snoc.mp reaches
    exact tree.settles_valid (tree.child_valid found) settles

/-- Only the vnodes matter. -/
theorem of_nodes {fs' : Fs} (tree : Tree fs root) (same : fs'.nodes = fs.nodes) :
    Tree fs' root := by
  obtain ⟨nodes, _, _, _, _⟩ := fs
  obtain ⟨nodes', _, _, _, _⟩ := fs'
  obtain rfl : nodes' = nodes := same
  exact ⟨tree.root_valid, tree.sound, tree.listed_valid, tree.listed_name, tree.listed_once,
    tree.root_listed, tree.mount_valid, tree.mount_once, tree.mount_listed, tree.root_mount⟩

theorem resolves_valid (tree : Tree fs root) {p : List (List UInt8)}
    (resolves : fs.names.Resolves root p v) : v < fs.nodes.length := by
  obtain ⟨init, last, d, rfl, -, found⟩ := resolves
  exact tree.child_valid found

/-! ## `tmpfs_lookup` -/

/-- **`tmpfs_lookup`** finds the child of a directory. -/
theorem tmpfsLookup_eq (tree : Tree fs root) (here : fs.nodes[d]? = some node)
    (dir : node.component.type = .dir) (no_nul : 0 ∉ k) :
    tmpfsLookup fs d target k =
      .ok (if (fs.names.child d k).isSome then 0 else -1, (fs.names.child d k).or target) :=
  tree.sound_nodes.tmpfsLookup_eq here dir no_nul

/-- So do the lookups of all filesystems. -/
theorem lookup_eq (kind : FsKind) : kind.lookup = tmpfsLookup := by
  cases kind <;> rfl

end Tree

end BareMetal.Vfs
