import BareMetal.Vfs.Lookup
import Mathlib.Data.List.Find
import Mathlib.Data.List.TakeWhile

/-!
# Creation of directories

`addDir` is the change that a successful `tmpfs_mkdir` makes to the vnodes, and it grafts
a new name in the namespace. `tmpfs_mkdir` either finds the name, or makes this change, or
leaves the vnodes alone.

## Main results

* `Tree.addDir`, `Tree.grafted_addDir` — a new directory keeps the tree
* `Tree.tmpfsMkdir_found`, `Tree.tmpfsMkdir_new`, `Tree.tmpfsMkdir_full` — `tmpfs_mkdir`
-/

namespace BareMetal.Vfs

open CS Strings

variable {fs fs' : Fs} {s : State} {root d v x u n : ℕ} {node : Vnode} {k name : List UInt8}
  {target : Option ℕ} {type : CompType}

/-! ## Extensions -/

/-- What a vnode may become when directories are created: only directories change, and they
only get new entries behind the others. -/
structure Grows (node node' : Vnode) : Prop where
  mount : node'.mount = node.mount
  vOps : node'.vOps = node.vOps
  fOps : node'.fOps = node.fOps
  name : node'.component.name = node.component.name
  type : node'.component.type = node.component.type
  file : node.component.type = .file → node'.component = node.component
  entries : ∃ new, node'.component.listed = node.component.listed ++ new

/-- All vnodes are still there. -/
def Extends (fs fs' : Fs) : Prop :=
  ∀ ⦃v : ℕ⦄ ⦃node : Vnode⦄, fs.nodes[v]? = some node →
    ∃ node', fs'.nodes[v]? = some node' ∧ Grows node node'

theorem Grows.refl (node : Vnode) : Grows node node :=
  ⟨rfl, rfl, rfl, rfl, rfl, fun _ => rfl, [], (List.append_nil _).symm⟩

theorem Grows.trans {node' node'' : Vnode} (first : Grows node node')
    (second : Grows node' node'') :
    Grows node node'' where
  mount := second.mount.trans first.mount
  vOps := second.vOps.trans first.vOps
  fOps := second.fOps.trans first.fOps
  name := second.name.trans first.name
  type := second.type.trans first.type
  file regular := (second.file (first.type.trans regular)).trans (first.file regular)
  entries := by
    obtain ⟨new, listed⟩ := first.entries
    obtain ⟨new', listed'⟩ := second.entries
    exact ⟨new ++ new', by rw [listed', listed, List.append_assoc]⟩

theorem Extends.refl (fs : Fs) : Extends fs fs := fun _ _ here => ⟨_, here, .refl _⟩

theorem Extends.trans {fs'' : Fs} (first : Extends fs fs') (second : Extends fs' fs'') :
    Extends fs fs'' := by
  intro v node here
  obtain ⟨node', here', grows⟩ := first here
  obtain ⟨node'', here'', grows'⟩ := second here'
  exact ⟨node'', here'', grows.trans grows'⟩

/-- Directories stay directories, and files stay files. -/
theorem Extends.isDir_iff (extend : Extends fs fs') (old : v < fs.nodes.length) :
    fs'.names.isDir v ↔ fs.names.isDir v := by
  have here := List.getElem?_eq_getElem old
  obtain ⟨node', there, grows⟩ := extend here
  rw [Fs.isDir_iff there, grows.type, ← Fs.isDir_iff here]

/-! ## A new vnode -/

/-- The component with one more entry. -/
def Component.withEntry (component : Component) (v : ℕ) : Component :=
  { component with len := component.len + 1, payload := .entries (component.listed ++ [v]) }

theorem Component.listed_withEntry {component : Component} (dir : component.type = .dir) :
    (component.withEntry v).listed = component.listed ++ [v] := by
  simp [listed, withEntry, dir]

/-- The entry that `tmpfs_create` adds, when there is room for it in the array. -/
theorem Component.Sound.addEntry {component : Component} (sound : component.Sound)
    (dir : component.type = .dir) (v : ℕ) :
    component.addEntry v = .ok (component.withEntry v) := by
  rcases sound dir with ⟨null, zero⟩ | ⟨nodes, array, len⟩
  · simp [Component.addEntry, Component.withEntry, Component.listed, dir, null, zero]
  · simp [Component.addEntry, Component.withEntry, Component.listed, dir, array, len]

theorem Fs.missing_name (missing : fs.names.child d k = none) :
    some k ∉ (fs.listing d).map fs.nameOf := by
  intro inside
  obtain ⟨v, listed, name⟩ := List.mem_map.mp inside
  have no_entry : fs.names.entry d k = none := by
    simpa [Namespace.child] using missing
  change (fs.listing d).find? _ = none at no_entry
  have other := List.find?_eq_none.mp no_entry v listed
  simp [name] at other

/-- The vnodes with a new one in `d`. -/
def Fs.addNode (fs : Fs) (d : ℕ) (dir : Vnode) (name : List UInt8) (type : CompType) : Fs :=
  { fs with nodes :=
      (fs.nodes.modify d fun node =>
        { node with component := node.component.withEntry fs.nodes.length })
        ++ [newNode dir name type] }

theorem Fs.addNode_new :
    (fs.addNode d node k type).nodes[fs.nodes.length]? = some (newNode node k type) := by
  rw [addNode, List.getElem?_append_right (by rw [List.length_modify]), List.length_modify,
    Nat.sub_self]
  rfl

theorem Fs.addNode_of_ne (old : v < fs.nodes.length) (other : v ≠ d) :
    (fs.addNode d node k type).nodes[v]? = fs.nodes[v]? := by
  rw [addNode, List.getElem?_append_left (by rwa [List.length_modify]),
    List.getElem?_modify_ne _ _ other.symm]

theorem Fs.length_addNode : (fs.addNode d node k type).nodes.length = fs.nodes.length + 1 := by
  rw [addNode, List.length_append, List.length_modify, List.length_singleton]

theorem Fs.nameOf_addNode_new : (fs.addNode d node k type).nameOf fs.nodes.length = some k := by
  rw [Fs.nameOf_eq Fs.addNode_new]
  rfl

section AddNode

variable (here : fs.nodes[d]? = some node)
include here

theorem Fs.addNode_self : (fs.addNode d node k type).nodes[d]? =
    some { node with component := node.component.withEntry fs.nodes.length } := by
  have inside := (List.getElem?_eq_some_iff.mp here).1
  rw [addNode, List.getElem?_append_left (by rwa [List.length_modify]),
    List.getElem?_modify_eq, here]
  rfl

/-- The vnodes after the change: the directory, the new one and all others. -/
theorem Fs.addNode_cases {node' : Vnode}
    (there : (fs.addNode d node k type).nodes[v]? = some node') :
    v = d ∧ node' = { node with component := node.component.withEntry fs.nodes.length } ∨
      v = fs.nodes.length ∧ node' = newNode node k type ∨ v ≠ d ∧ fs.nodes[v]? = some node' := by
  by_cases same : v = d
  · subst same
    rw [Fs.addNode_self here] at there
    exact .inl ⟨rfl, (Option.some.inj there).symm⟩
  have inside := (List.getElem?_eq_some_iff.mp there).1
  rw [Fs.length_addNode] at inside
  rcases Nat.lt_succ_iff_lt_or_eq.mp inside with old | rfl
  · rw [Fs.addNode_of_ne old same] at there
    exact .inr (.inr ⟨same, there⟩)
  · rw [Fs.addNode_new] at there
    exact .inr (.inl ⟨rfl, (Option.some.inj there).symm⟩)

theorem Fs.listing_addNode (dir : node.component.type = .dir) (v : ℕ) :
    (fs.addNode d node k type).listing v =
      if v = d then fs.listing d ++ [fs.nodes.length] else fs.listing v := by
  split_ifs with same
  · subst same
    rw [Fs.listing_eq (Fs.addNode_self here), Fs.listing_eq here, Component.listed_withEntry dir]
  · by_cases old : v < fs.nodes.length
    · rw [Fs.listing, Fs.addNode_of_ne old same, ← Fs.listing]
    · have nothing : fs.listing v = [] := by
        simp [Fs.listing, List.getElem?_eq_none (Nat.le_of_not_lt old)]
      rw [nothing, Fs.listing]
      cases there : (fs.addNode d node k type).nodes[v]? with
      | none => rfl
      | some node' =>
        rcases Fs.addNode_cases here there with ⟨rfl, -⟩ | ⟨-, rfl⟩ | ⟨-, there⟩
        · exact absurd rfl same
        · cases type <;> rfl
        · exact absurd (List.getElem?_eq_some_iff.mp there).1 old

theorem Fs.nameOf_addNode_old (old : v < fs.nodes.length) :
    (fs.addNode d node k type).nameOf v = fs.nameOf v := by
  by_cases same : v = d
  · subst same
    rw [Fs.nameOf_eq (Fs.addNode_self here), Fs.nameOf_eq here]
    rfl
  · rw [Fs.nameOf, Fs.addNode_of_ne old same, Fs.nameOf]

theorem Fs.isDir_addNode_old (old : v < fs.nodes.length) :
    (fs.addNode d node k type).names.isDir v ↔ fs.names.isDir v := by
  by_cases same : v = d
  · subst same
    rw [Fs.isDir_iff (Fs.addNode_self here), Fs.isDir_iff here]
    rfl
  · simp only [Fs.names, Fs.addNode_of_ne old same]

theorem Fs.cover_addNode (v : ℕ) :
    (fs.addNode d node k type).names.cover v = fs.names.cover v := by
  cases there : (fs.addNode d node k type).nodes[v]? with
  | none =>
    have beyond := List.getElem?_eq_none_iff.mp there
    rw [Fs.length_addNode] at beyond
    simp [Fs.names, there, List.getElem?_eq_none (show fs.nodes.length ≤ v by omega)]
  | some node' =>
    rw [Fs.cover_eq there]
    rcases Fs.addNode_cases here there with ⟨rfl, rfl⟩ | ⟨rfl, rfl⟩ | ⟨-, old⟩
    · rw [Fs.cover_eq here]
    · simp [Fs.names, newNode]
    · rw [Fs.cover_eq old]

/-- Where the listed vnodes come from. -/
theorem Fs.mem_listing_addNode {d' : ℕ} (dir : node.component.type = .dir)
    (listed : v ∈ (fs.addNode d node k type).listing d') :
    v ∈ fs.listing d' ∨ v = fs.nodes.length ∧ d' = d := by
  rw [Fs.listing_addNode here dir] at listed
  split_ifs at listed with same
  · rcases List.mem_append.mp listed with old | new
    · exact .inl (same ▸ old)
    · exact .inr ⟨List.mem_singleton.mp new, same⟩
  · exact .inl listed

/-- The names in the directories: the new one is the last in `d`. -/
theorem Fs.map_listing_addNode (sound : fs.Sound) (dir : node.component.type = .dir) (d' : ℕ) :
    ((fs.addNode d node k type).listing d').map (fs.addNode d node k type).nameOf =
      (fs.listing d').map fs.nameOf ++ if d' = d then [some k] else [] := by
  have old : ∀ v ∈ fs.listing d', (fs.addNode d node k type).nameOf v = fs.nameOf v :=
    fun v listed => Fs.nameOf_addNode_old here (sound.valid listed)
  rw [Fs.listing_addNode here dir]
  split_ifs with same
  · subst same
    rw [List.map_append, List.map_congr_left old, List.map_singleton, Fs.nameOf_addNode_new]
  · rw [List.map_congr_left old, List.append_nil]

/-- The names of a directory stay different when the new one was not among them. -/
theorem Fs.nodup_addNode {d' : ℕ} (sound : fs.Sound) (dir : node.component.type = .dir)
    (missing : fs.names.child d k = none) (different : ((fs.listing d').map fs.nameOf).Nodup) :
    (((fs.addNode d node k type).listing d').map (fs.addNode d node k type).nameOf).Nodup := by
  rw [Fs.map_listing_addNode here sound dir]
  split_ifs with same
  · subst same
    refine List.Nodup.append different (List.nodup_singleton _) ?_
    intro name inside new
    rw [List.mem_singleton.mp new] at inside
    exact Fs.missing_name missing inside
  · rw [List.append_nil]
    exact different

/-- The entries by name: the new one, and the old ones. -/
theorem Fs.Sound.entry_addNode (sound : fs.Sound) (dir : node.component.type = .dir)
    (missing : fs.names.entry d k = none) (d' : ℕ) (k' : List UInt8) :
    (fs.addNode d node k type).names.entry d' k' =
      if d' = d ∧ k' = k then some fs.nodes.length else fs.names.entry d' k' := by
  have old : ∀ v ∈ fs.listing d', decide ((fs.addNode d node k type).nameOf v = some k') =
      decide (fs.nameOf v = some k') := by
    intro v listed
    rw [Fs.nameOf_addNode_old here (sound.valid listed)]
  change ((fs.addNode d node k type).listing d').find? _ = ite _ _ ((fs.listing d').find? _)
  rw [Fs.listing_addNode here dir]
  by_cases same : d' = d
  · subst same
    rw [if_pos rfl, List.find?_append, List.find?_congr old, List.find?_singleton,
      Fs.nameOf_addNode_new]
    by_cases name : k' = k
    · subst name
      change (fs.listing d').find? _ = none at missing
      simp [missing]
    · simp [name, Ne.symm name]
  · rw [if_neg same, if_neg fun both => same both.1, List.find?_congr old]

/-- A new vnode keeps the vnodes sound. -/
theorem Fs.Sound.addNode (sound : fs.Sound) (dir : node.component.type = .dir) (no_nul : 0 ∉ k)
    (type : CompType) : (fs.addNode d node k type).Sound where
  component there := by
    rcases Fs.addNode_cases here there with ⟨rfl, rfl⟩ | ⟨rfl, rfl⟩ | ⟨-, old⟩
    · obtain ⟨len, -⟩ := (sound.component here).entry dir
      intro _
      exact .inr ⟨_, rfl, by simp [Component.withEntry, len]⟩
    · exact fun _ => .inl ⟨rfl, rfl⟩
    · exact sound.component old
  valid listed := by
    rw [Fs.length_addNode]
    rcases Fs.mem_listing_addNode here dir listed with old | ⟨rfl, -⟩
    · exact Nat.lt_succ_of_lt (sound.valid old)
    · exact Nat.lt_succ_self _
  no_nul listed name := by
    rcases Fs.mem_listing_addNode here dir listed with old | ⟨rfl, -⟩
    · rw [Fs.nameOf_addNode_old here (sound.valid old)] at name
      exact sound.no_nul old name
    · rw [Fs.nameOf_addNode_new] at name
      exact Option.some.inj name ▸ no_nul

/-! ## `tmpfs_create` -/

/-- The stores of `tmpfs_create` together. -/
theorem Fs.addNode_eq (type : CompType) :
    Fs.modifyComponent { fs with nodes := fs.nodes ++ [newNode node k type] } d
      (fun _ => node.component.withEntry fs.nodes.length) = fs.addNode d node k type := by
  have inside := (List.getElem?_eq_some_iff.mp here).1
  rw [Fs.addNode, Fs.modifyComponent]
  congr 1
  apply List.ext_getElem?
  intro i
  simp only [List.getElem?_modify, List.getElem?_append, List.length_modify]
  by_cases same : i = d
  · subst same
    simp only [inside, here, if_true, Option.map_eq_map, Option.map_some]
  · simp [Ne.symm same]

omit here in
/-- The last vnode gets its type. -/
theorem Fs.modifyComponent_new (type : CompType) : (fs.addNode d node k .file).modifyComponent
    fs.nodes.length (fun component => { component with type := type, payload := .null }) =
      fs.addNode d node k type := by
  rw [Fs.addNode, Fs.modifyComponent, Fs.addNode]
  congr 1
  apply List.ext_getElem?
  intro i
  simp only [List.getElem?_modify, List.getElem?_append, List.length_modify]
  rcases Nat.lt_trichotomy i fs.nodes.length with old | rfl | beyond
  · simp [old, old.ne']
  · simp [newNode]
  · have nothing : ¬ i < fs.nodes.length := by omega
    simp [nothing, beyond.ne,
      List.getElem?_eq_none (l := [_]) (show 1 ≤ i - fs.nodes.length by omega)]

namespace Fs.Sound

variable (sound : fs.Sound)
include sound

/-- The name is there. -/
theorem tmpfsCreate_found (dir : node.component.type = .dir) (no_nul : 0 ∉ k)
    (found : fs.names.child d k = some v) :
    tmpfsCreate type d target k fs = .ok (1, some v, fs) := by
  rw [tmpfsCreate, Fs.node_eq_ok.mpr here]
  simp [dir, sound.tmpfsLookup_eq here dir no_nul, found]

/-- The directory is full. -/
theorem tmpfsCreate_full (dir : node.component.type = .dir) (no_nul : 0 ∉ k)
    (missing : fs.names.child d k = none) (full : tmpfsMaxEntry ≤ node.component.len) :
    tmpfsCreate type d target k fs = .ok (-1, target, fs) := by
  rw [tmpfsCreate, Fs.node_eq_ok.mpr here]
  simp [dir, sound.tmpfsLookup_eq here dir no_nul, missing, full]

/-- The name is too long for its chunk. -/
theorem tmpfsCreate_long (dir : node.component.type = .dir) (no_nul : 0 ∉ k)
    (missing : fs.names.child d k = none) (room : node.component.len < tmpfsMaxEntry)
    (long : nameLen ≤ k.length) : tmpfsCreate type d target k fs = .error .outOfBounds := by
  rw [tmpfsCreate, Fs.node_eq_ok.mpr here]
  simp [dir, sound.tmpfsLookup_eq here dir no_nul, missing, Nat.not_le.mpr room, long]

/-- The name is new. -/
theorem tmpfsCreate_new (dir : node.component.type = .dir) (no_nul : 0 ∉ k)
    (missing : fs.names.child d k = none) (room : node.component.len < tmpfsMaxEntry)
    (short : k.length < nameLen) : tmpfsCreate type d target k fs =
      .ok (0, some fs.nodes.length, fs.addNode d node k type) := by
  rw [← Fs.addNode_eq here, tmpfsCreate, Fs.node_eq_ok.mpr here]
  simp [dir, sound.tmpfsLookup_eq here dir no_nul, missing, Nat.not_le.mpr room,
    Nat.not_le.mpr short, (sound.component here).addEntry dir]

end Fs.Sound

theorem tmpfsCreate_file (other : node.component.type ≠ .dir) :
    tmpfsCreate type d target k fs = .ok (-1, target, fs) := by
  rw [tmpfsCreate, Fs.node_eq_ok.mpr here, outcome_bind_ok, if_pos other]
  rfl

end AddNode

/-! ## A new directory -/

/-- The vnode of a new directory. -/
def newDir (dir : Vnode) (name : List UInt8) : Vnode :=
  ⟨none, dir.vOps, dir.fOps, ⟨name, .dir, 0, .null⟩⟩

/-- The vnodes with a new directory in `d`. -/
def Fs.addDir (fs : Fs) (d : ℕ) (dir : Vnode) (name : List UInt8) : Fs :=
  { fs with nodes :=
      (fs.nodes.modify d fun node =>
        { node with component := node.component.withEntry fs.nodes.length })
        ++ [newDir dir name] }

theorem Fs.addDir_new : (fs.addDir d node k).nodes[fs.nodes.length]? = some (newDir node k) :=
  Fs.addNode_new

theorem Fs.length_addDir : (fs.addDir d node k).nodes.length = fs.nodes.length + 1 :=
  Fs.length_addNode

theorem Fs.nameOf_addDir_new : (fs.addDir d node k).nameOf fs.nodes.length = some k :=
  Fs.nameOf_addNode_new

section AddDir

variable (here : fs.nodes[d]? = some node)
include here

/-- The vnodes after the change: the directory, the new one and all others. -/
theorem Fs.addDir_cases {node' : Vnode} (there : (fs.addDir d node k).nodes[v]? = some node') :
    v = d ∧ node' = { node with component := node.component.withEntry fs.nodes.length } ∨
      v = fs.nodes.length ∧ node' = newDir node k ∨ v ≠ d ∧ fs.nodes[v]? = some node' :=
  Fs.addNode_cases here there

theorem Fs.extends_addDir (dir : node.component.type = .dir) : Extends fs (fs.addDir d node k) := by
  intro v node' there
  by_cases same : v = d
  · subst same
    obtain rfl := Option.some.inj (here.symm.trans there)
    refine ⟨_, Fs.addNode_self here, rfl, rfl, rfl, rfl, rfl, fun file => ?_, [fs.nodes.length], ?_⟩
    · rw [dir] at file
      contradiction
    · exact Component.listed_withEntry dir
  · have old := (List.getElem?_eq_some_iff.mp there).1
    exact ⟨node', (Fs.addNode_of_ne old same).trans there, .refl node'⟩

theorem Fs.nameOf_addDir_old (old : v < fs.nodes.length) :
    (fs.addDir d node k).nameOf v = fs.nameOf v :=
  Fs.nameOf_addNode_old here old

theorem Fs.isDir_addDir_old (old : v < fs.nodes.length) :
    (fs.addDir d node k).names.isDir v ↔ fs.names.isDir v :=
  Fs.isDir_addNode_old here old

theorem Fs.cover_addDir (v : ℕ) : (fs.addDir d node k).names.cover v = fs.names.cover v :=
  Fs.cover_addNode here v

/-- Where the listed vnodes come from. -/
theorem Fs.mem_listing_addDir {d' : ℕ} (dir : node.component.type = .dir)
    (listed : v ∈ (fs.addDir d node k).listing d') :
    v ∈ fs.listing d' ∨ v = fs.nodes.length ∧ d' = d :=
  Fs.mem_listing_addNode here dir listed

/-- **A new directory keeps the tree.** -/
theorem Tree.addDir (tree : Tree fs root) (dir : node.component.type = .dir) (proper : IsName k) :
    Tree (fs.addDir d node k) root where
  root_valid := by
    rw [Fs.length_addDir]
    exact Nat.lt_succ_of_lt tree.root_valid
  sound := (tree.sound_nodes.addNode here dir proper.no_nul .dir).component
  listed_valid := (tree.sound_nodes.addNode here dir proper.no_nul .dir).valid
  listed_name listed name := by
    rcases Fs.mem_listing_addDir here dir listed with old | ⟨rfl, -⟩
    · rw [Fs.nameOf_addDir_old here (tree.listed_valid old)] at name
      exact tree.listed_name old name
    · rw [Fs.nameOf_addDir_new] at name
      exact Option.some.inj name ▸ proper
  listed_once listed listed' := by
    rcases Fs.mem_listing_addDir here dir listed with old | ⟨rfl, rfl⟩
    · rcases Fs.mem_listing_addDir here dir listed' with old' | ⟨rfl, rfl⟩
      · exact tree.listed_once old old'
      · exact absurd (tree.listed_valid old) (Nat.lt_irrefl _)
    · rcases Fs.mem_listing_addDir here dir listed' with old' | ⟨-, rfl⟩
      · exact absurd (tree.listed_valid old') (Nat.lt_irrefl _)
      · rfl
  root_listed listed := by
    rcases Fs.mem_listing_addDir here dir listed with old | ⟨same, -⟩
    · exact tree.root_listed old
    · exact absurd tree.root_valid (same ▸ Nat.lt_irrefl _)
  mount_valid covered := by
    rw [Fs.cover_addDir here] at covered
    rw [Fs.length_addDir]
    obtain ⟨above, valid⟩ := tree.mount_valid covered
    exact ⟨above, Nat.lt_succ_of_lt valid⟩
  mount_once covered covered' := by
    rw [Fs.cover_addDir here] at covered covered'
    exact tree.mount_once covered covered'
  mount_listed covered listed := by
    rw [Fs.cover_addDir here] at covered
    rcases Fs.mem_listing_addDir here dir listed with old | ⟨rfl, -⟩
    · exact tree.mount_listed covered old
    · exact absurd (tree.mount_valid covered).2 (Nat.lt_irrefl _)
  root_mount := by
    intro x
    rw [Fs.cover_addDir here]
    exact tree.root_mount

/-- The entries by name: the new one, and the old ones. -/
theorem Tree.entry_addDir (tree : Tree fs root) (dir : node.component.type = .dir)
    (missing : fs.names.entry d k = none) (d' : ℕ) (k' : List UInt8) :
    (fs.addDir d node k).names.entry d' k' =
      if d' = d ∧ k' = k then some fs.nodes.length else fs.names.entry d' k' :=
  tree.sound_nodes.entry_addNode here dir missing d' k'

/-- **A new directory grafts a name.** -/
theorem Tree.grafted_addDir (tree : Tree fs root) (dir : node.component.type = .dir)
    (missing : fs.names.child d k = none) :
    Namespace.Grafted fs.names (fs.addDir d node k).names root d k fs.nodes.length := by
  have no_entry : fs.names.entry d k = none := by
    simpa [Namespace.child] using missing
  have entry := tree.entry_addDir here dir no_entry
  have cover := Fs.cover_addDir (k := k) here
  have free : fs.names.cover fs.nodes.length = none := by
    simp [Fs.names]
  have child : ∀ {d' k'}, ¬ (d' = d ∧ k' = k) →
      (fs.addDir d node k).names.child d' k' = fs.names.child d' k' := by
    intro d' k' other
    rw [Namespace.child, entry, if_neg other, Namespace.child]
    simp only [cover]
  have inside := (List.getElem?_eq_some_iff.mp here).1
  refine ⟨fun u => Namespace.settles_congr cover, ?_, fun _ => child, fun _ other => ?_, ?_, ?_,
    ?_, ?_⟩
  · rw [Namespace.child, entry, if_pos ⟨rfl, rfl⟩, Option.map_some, cover, free, Option.getD_none]
  · simp only [Namespace.Step, child other, Namespace.settles_congr cover]
    refine exists_congr fun x => and_congr_right fun found => and_congr_left fun _ => ?_
    exact Fs.isDir_addDir_old here (tree.child_valid found)
  · rw [Fs.isDir_iff Fs.addDir_new]
    rfl
  · rw [cover, free]
  · intro k'
    rw [child fun both => inside.ne both.1.symm]
    simp [Namespace.child, Fs.names, Fs.listing]
  · intro p reaches
    exact absurd (tree.reaches_valid reaches) (Nat.lt_irrefl _)

/-! ## `tmpfs_mkdir` -/

theorem tmpfsMkdir_file (other : node.component.type ≠ .dir) :
    tmpfsMkdir d target k fs = .ok (-1, target, fs) := by
  rw [tmpfsMkdir, Fs.node_eq_ok.mpr here, outcome_bind_ok, if_pos other]
  rfl

section Sound

variable (sound : fs.Sound) (dir : node.component.type = .dir) (no_nul : 0 ∉ k)
include sound dir no_nul

/-- The name is there. -/
theorem Fs.Sound.tmpfsMkdir_found (found : fs.names.child d k = some v) :
    tmpfsMkdir d target k fs = .ok (0, some v, fs) := by
  rw [tmpfsMkdir, Fs.node_eq_ok.mpr here, outcome_bind_ok, if_neg (not_not.mpr dir),
    sound.tmpfsCreate_found here dir no_nul found]
  rfl

/-- The directory is full. -/
theorem Fs.Sound.tmpfsMkdir_full (missing : fs.names.child d k = none)
    (full : tmpfsMaxEntry ≤ node.component.len) :
    tmpfsMkdir d target k fs = .ok (-1, target, fs) := by
  rw [tmpfsMkdir, Fs.node_eq_ok.mpr here, outcome_bind_ok, if_neg (not_not.mpr dir),
    sound.tmpfsCreate_full here dir no_nul missing full]
  rfl

/-- The name is new. -/
theorem Fs.Sound.tmpfsMkdir_new (missing : fs.names.child d k = none)
    (room : node.component.len < tmpfsMaxEntry) (short : k.length < nameLen) :
    tmpfsMkdir d target k fs = .ok (0, some fs.nodes.length, fs.addNode d node k .dir) := by
  rw [tmpfsMkdir, Fs.node_eq_ok.mpr here, outcome_bind_ok, if_neg (not_not.mpr dir),
    sound.tmpfsCreate_new here dir no_nul missing room short, outcome_bind_ok,
    ← Fs.modifyComponent_new .dir]
  rfl

end Sound

/-- The name is there. -/
theorem Tree.tmpfsMkdir_found (tree : Tree fs root) (dir : node.component.type = .dir)
    (no_nul : 0 ∉ k) (found : fs.names.child d k = some v) :
    tmpfsMkdir d target k fs = .ok (0, some v, fs) :=
  tree.sound_nodes.tmpfsMkdir_found here dir no_nul found

/-- The directory is full. -/
theorem Tree.tmpfsMkdir_full (tree : Tree fs root) (dir : node.component.type = .dir)
    (no_nul : 0 ∉ k) (missing : fs.names.child d k = none)
    (full : tmpfsMaxEntry ≤ node.component.len) :
    tmpfsMkdir d target k fs = .ok (-1, target, fs) :=
  tree.sound_nodes.tmpfsMkdir_full here dir no_nul missing full

/-- The name is too long for its chunk. -/
theorem Tree.tmpfsMkdir_long (tree : Tree fs root) (dir : node.component.type = .dir)
    (no_nul : 0 ∉ k) (missing : fs.names.child d k = none)
    (room : node.component.len < tmpfsMaxEntry) (long : nameLen ≤ k.length) :
    tmpfsMkdir d target k fs = .error .outOfBounds := by
  rw [tmpfsMkdir, Fs.node_eq_ok.mpr here, outcome_bind_ok, if_neg (not_not.mpr dir),
    tree.sound_nodes.tmpfsCreate_long here dir no_nul missing room long, outcome_bind_error]

/-- The name is new. -/
theorem Tree.tmpfsMkdir_new (tree : Tree fs root) (dir : node.component.type = .dir)
    (no_nul : 0 ∉ k) (missing : fs.names.child d k = none)
    (room : node.component.len < tmpfsMaxEntry) (short : k.length < nameLen) :
    tmpfsMkdir d target k fs = .ok (0, some fs.nodes.length, fs.addDir d node k) :=
  tree.sound_nodes.tmpfsMkdir_new here dir no_nul missing room short

end AddDir

/-! ## The create loop -/

/-- Directories can be made in this one. -/
def State.Writable (s : State) (d : ℕ) : Prop :=
  ∃ node, s.fs.nodes[d]? = some node ∧
    (node.vOps = .tmpfs ∨ node.vOps = .initramfs ∧ s.mounted = false)

/-- There is room for one more entry. -/
def Fs.Room (fs : Fs) (d : ℕ) : Prop :=
  ∃ node, fs.nodes[d]? = some node ∧ node.component.len < tmpfsMaxEntry

/-- From the directory on, the names lead through writable directories that nothing is mounted
on, and where the first name is missing there is room for it. -/
def State.Creatable (s : State) : ℕ → List (List UInt8) → Prop
  | _, [] => True
  | d, k :: ks => s.Writable d ∧
      match s.fs.names.child d k with
      | some x => s.fs.names.isDir x ∧ s.fs.names.cover x = none ∧ s.Creatable x ks
      | none => s.fs.Room d

theorem State.Creatable.with_strtok {s : State} {d : ℕ} {ks : List (List UInt8)}
    (creatable : s.Creatable d ks) (strtok : Strtok) :
    State.Creatable { s with strtok := strtok } d ks := by
  induction ks generalizing d with
  | nil => trivial
  | cons k ks ih =>
    obtain ⟨writable, rest⟩ := creatable
    refine ⟨writable, ?_⟩
    cases found : s.fs.names.child d k with
    | none =>
      rw [found] at rest
      exact rest
    | some x =>
      rw [found] at rest
      exact ⟨rest.1, rest.2.1, ih rest.2.2⟩

/-- What the create loop does, from the directory at `p` on, when it makes all directories. -/
structure Created (s : State) (root : ℕ) (p ks : List (List UInt8)) (v : ℕ) (s' : State) :
    Prop where
  tree : Tree s'.fs root
  extend : Extends s.fs s'.fs
  others : s' = { s with fs := { s.fs with nodes := s'.fs.nodes } }
  reaches : s'.fs.names.Reaches root (p ++ ks) v
  dir : s'.fs.names.isDir v
  keeps : ∀ {q u}, s.fs.names.Resolves root q u → s'.fs.names.Resolves root q u
  only : ∀ {q u}, s'.fs.names.Resolves root q u → s.fs.names.Resolves root q u ∨ q <+: p ++ ks
  new_dirs : ∀ {u}, s.fs.nodes.length ≤ u → u < s'.fs.nodes.length → s'.fs.names.isDir u

theorem State.Writable.mkdir_eq {s : State} {d : ℕ} (writable : s.Writable d) {node : Vnode}
    (here : s.fs.nodes[d]? = some node) (k : List UInt8) (target : Option ℕ) :
    node.vOps.mkdir s.mounted d target k s.fs = tmpfsMkdir d target k s.fs := by
  obtain ⟨node', here', kind⟩ := writable
  obtain rfl := Option.some.inj (here.symm.trans here')
  rcases kind with kind | ⟨kind, first⟩
  · rw [kind]
    rfl
  · rw [kind, first]
    rfl

/-- A new directory is writable as its parent, and empty. -/
theorem State.Writable.creatable_addDir {s : State} {d : ℕ} {node : Vnode} {k : List UInt8}
    (writable : s.Writable d) (here : s.fs.nodes[d]? = some node)
    (empty : ∀ k', (s.fs.addDir d node k).names.child s.fs.nodes.length k' = none)
    (ks : List (List UInt8)) :
    State.Creatable { s with fs := s.fs.addDir d node k } s.fs.nodes.length ks := by
  obtain ⟨node', here', kind⟩ := writable
  obtain rfl := Option.some.inj (here.symm.trans here')
  cases ks with
  | nil => trivial
  | cons k' ks =>
    rw [State.Creatable, empty k']
    exact ⟨⟨_, Fs.addDir_new, kind⟩, _, Fs.addDir_new, Nat.zero_lt_succ _⟩

/-- A name that is there leads on. -/
theorem Created.found {s s' : State} {root v : ℕ} {p ks : List (List UInt8)} {k : List UInt8}
    (created : Created s root (p ++ [k]) ks v s') : Created s root p (k :: ks) v s' := by
  have names : p ++ [k] ++ ks = p ++ k :: ks := by simp
  obtain ⟨tree, extend, others, reaches, dir, keeps, only, new_dirs⟩ := created
  rw [names] at reaches
  simp only [names] at only
  exact ⟨tree, extend, others, reaches, dir, keeps, only, new_dirs⟩

/-- A new name, and then the others below it. -/
theorem Created.new {s s' : State} {root d v : ℕ} {p ks : List (List UInt8)} {k : List UInt8}
    {node : Vnode} (tree : Tree s.fs root) (here : s.fs.nodes[d]? = some node)
    (is_dir : node.component.type = .dir) (reaches : s.fs.names.Reaches root p d)
    (missing : s.fs.names.child d k = none)
    (created : Created { s with fs := s.fs.addDir d node k } root (p ++ [k]) ks v s') :
    Created s root p (k :: ks) v s' := by
  have grafted := tree.grafted_addDir here is_dir missing
  have names : p ++ [k] ++ ks = p ++ k :: ks := by simp
  have extend := created.extend
  obtain ⟨tree', -, others, reaches', dir, keeps, only, new_dirs⟩ := created
  rw [names] at reaches'
  refine ⟨tree', (Fs.extends_addDir here is_dir).trans extend, others, reaches', dir, ?_, ?_, ?_⟩
  · exact fun resolves => keeps (grafted.keeps tree.forest reaches missing resolves)
  · intro q u resolves
    rcases only resolves with resolves | inside
    · rcases (grafted.resolves_iff tree.forest reaches).mp resolves with ⟨rfl, -⟩ | ⟨-, old⟩
      · exact .inr ⟨ks, names⟩
      · exact .inl old
    · exact .inr (names ▸ inside)
  · intro u beyond inside
    rcases Nat.eq_or_lt_of_le beyond with rfl | above
    · -- the new directory itself
      obtain ⟨node', there, grows⟩ := extend Fs.addDir_new
      rw [Fs.isDir_iff there, grows.type]
      rfl
    · exact new_dirs (by rwa [Fs.length_addDir]) inside

/-- **The create loop makes the directories**, by induction on the names. -/
theorem Tree.createLoop_creates {s : State} {root d : ℕ} {p ks : List (List UInt8)}
    (target : Option ℕ) (tree : Tree s.fs root) (reaches : s.fs.names.Reaches root p d)
    (dir : s.fs.names.isDir d) (proper : ∀ k ∈ ks, IsName k) (creatable : s.Creatable d ks) :
    ∃ v s' target', createLoop ks d target s = .ok (0, target', s') ∧
      (target' = some v ∨ ks = [] ∧ v = d ∧ target' = target) ∧ Created s root p ks v s' := by
  induction ks generalizing s d p target with
  | nil =>
    refine ⟨d, s, target, rfl, .inr ⟨rfl, rfl, rfl⟩, tree, Extends.refl _, rfl,
      by simpa using reaches,
      dir, id, .inl, ?_⟩
    intro u beyond inside
    omega
  | cons k ks ih =>
    have name := proper k List.mem_cons_self
    have proper' := fun k' inside => proper k' (List.mem_cons_of_mem k inside)
    obtain ⟨node, here⟩ : ∃ node, s.fs.nodes[d]? = some node :=
      ⟨_, List.getElem?_eq_getElem (tree.reaches_valid reaches)⟩
    have is_dir := (Fs.isDir_iff here).mp dir
    obtain ⟨writable, rest⟩ := creatable
    have mkdir := writable.mkdir_eq here k target
    cases found : s.fs.names.child d k with
    | some x =>
      rw [found] at rest
      -- the directory is there
      obtain ⟨dir', free, creatable⟩ := rest
      have reaches' : s.fs.names.Reaches root (p ++ [k]) x :=
        Namespace.reaches_snoc.mpr ⟨d, reaches, x, found, dir', Namespace.settles_self free⟩
      obtain ⟨v, s', target', loop, result, created⟩ :=
        ih (some x) tree reaches' dir' proper' creatable
      refine ⟨v, s', target', ?_, .inl ?_, created.found⟩
      · rw [createLoop, if_neg name.ne_nil, Fs.node_eq_ok.mpr here, outcome_bind_ok, mkdir,
          tree.tmpfsMkdir_found here is_dir name.no_nul found, outcome_bind_ok]
        exact loop
      · rcases result with same | ⟨-, rfl, same⟩ <;> exact same
    | none =>
      rw [found] at rest
      obtain ⟨node', here', room⟩ := rest
      obtain rfl := Option.some.inj (here.symm.trans here')
      -- a new directory, which is empty, so that the loop goes on
      let fs' := s.fs.addDir d node k
      have grafted := tree.grafted_addDir here is_dir found
      obtain ⟨v, s', target', loop, result, created⟩ :=
        ih (s := { s with fs := fs' }) (some s.fs.nodes.length) (tree.addDir here is_dir name)
          (grafted.reaches_new tree.forest reaches) grafted.dir proper'
          (writable.creatable_addDir here grafted.empty ks)
      refine ⟨v, s', target', ?_, .inl ?_, Created.new tree here is_dir reaches found created⟩
      · rw [createLoop, if_neg name.ne_nil, Fs.node_eq_ok.mpr here, outcome_bind_ok, mkdir,
          tree.tmpfsMkdir_new here is_dir name.no_nul found room name.short, outcome_bind_ok]
        exact loop
      · rcases result with same | ⟨-, rfl, same⟩ <;> exact same

/-! ## The create branch of `lookup_path` -/

/-- The pieces of a path that the create loop does not skip. -/
def splitNames (pathname : List UInt8) : List (List UInt8) :=
  (pathname.splitOn slash).filter (· ≠ [])

/-- The create loop skips empty pieces. -/
theorem createLoop_filter (names : List (List UInt8)) (d : ℕ) (target : Option ℕ) (s : State) :
    createLoop names d target s = createLoop (names.filter (· ≠ [])) d target s := by
  induction names generalizing d target s with
  | nil => rfl
  | cons name names ih =>
    by_cases empty : name = []
    · rw [createLoop, if_pos empty, List.filter_cons_of_neg (by simpa using empty), ih]
    · rw [List.filter_cons_of_pos (by simpa using empty), createLoop, createLoop]
      simp only [if_neg empty, ← ih]

theorem splitNames_path {ks : List (List UInt8)} (proper : ∀ k ∈ ks, k ≠ [] ∧ slash ∉ k) :
    splitNames (path ks) = ks := by
  cases ks with
  | nil => rfl
  | cons k ks =>
    have no_slash : ∀ k' ∈ k :: ks, slash ∉ k' := fun k' inside => (proper k' inside).2
    rw [splitNames, splitOn_path (List.cons_ne_nil k ks) no_slash,
      List.filter_cons_of_neg (by simp), List.filter_eq_self]
    intro k' inside
    exact decide_eq_true (proper k' inside).1

/-- A slash separates the names in front of it from those behind. -/
theorem splitNames_append (name rest : List UInt8) (no_slash : slash ∉ name) :
    splitNames (name ++ slash :: rest) = [name].filter (· ≠ []) ++ splitNames rest := by
  rw [splitNames, List.splitOn_append_cons_self_of_not_mem no_slash, ← List.singleton_append,
    List.filter_append, splitNames]

/-- Both ways to cut a path take off the same first name. -/
theorem splitNames_step (pathname : List UInt8) : splitNames pathname =
    [firstName pathname].filter (· ≠ []) ++ splitNames (popFirstComponent pathname) := by
  have skip : splitNames pathname = splitNames (skipSlash pathname) := by
    cases pathname with
    | nil => rfl
    | cons c rest =>
      rw [skipSlash]
      split_ifs with leading
      · rw [leading]
        exact splitNames_append [] rest List.not_mem_nil
      · rfl
  have no_slash : slash ∉ firstName pathname := fun inside => by
    simpa using List.mem_takeWhile_imp inside
  rw [skip]
  rcases skipSlash_parts pathname with ⟨last, parts⟩ | parts
  · rw [parts, last, splitNames, List.splitOn_eq_singleton no_slash]
    exact (List.append_nil _).symm
  · rw [parts, splitNames_append _ _ no_slash]

/-- **Lookup and creation cut a path into the same names**, but for empty ones. -/
theorem splitNames_eq_components (pathname : List UInt8) :
    splitNames pathname = (components pathname).filter (· ≠ []) := by
  induction length : pathname.length using Nat.strong_induction_on generalizing pathname with
  | _ n ih =>
    rw [splitNames_step]
    by_cases last : popFirstComponent pathname = []
    · rw [components_last last, last]
      exact List.append_nil _
    · have shorter := length_popFirstComponent_lt last
      rw [components_cons last, ih _ (length ▸ shorter) _ rfl, ← List.filter_append]
      rfl

/-- The names of a path have no slashes, and no NUL if the path has none. -/
theorem components_clean {pathname : List UInt8} (no_nul : 0 ∉ pathname) :
    ∀ k ∈ components pathname, 0 ∉ k ∧ slash ∉ k := by
  induction length : pathname.length using Nat.strong_induction_on generalizing pathname with
  | _ n ih =>
    have first : 0 ∉ firstName pathname ∧ slash ∉ firstName pathname :=
      ⟨fun inside => no_nul (mem_of_mem_firstName inside), fun inside => by
        simpa using List.mem_takeWhile_imp inside⟩
    by_cases last : popFirstComponent pathname = []
    · rw [components_last last]
      exact fun k inside => List.mem_singleton.mp inside ▸ first
    · have shorter := length_popFirstComponent_lt last
      rw [components_cons last]
      intro k inside
      rcases List.mem_cons.mp inside with rfl | inside
      · exact first
      · exact ih _ (length ▸ shorter) (fun zero => no_nul (mem_of_mem_popFirstComponent zero)) rfl k
          inside

/-- So have the names that creation takes. -/
theorem splitNames_clean {pathname : List UInt8} (no_nul : 0 ∉ pathname) :
    ∀ k ∈ splitNames pathname, 0 ∉ k ∧ slash ∉ k := by
  rw [splitNames_eq_components]
  exact fun k inside => components_clean no_nul k (List.mem_of_mem_filter inside)

/-- What a path has to be like for `path_copy` and `rest_comps`. -/
structure Fits (pathname : List UInt8) : Prop where
  first : (firstName pathname).length < tmpfsMaxComponentName
  length : pathname.length < tmpfsMaxPathLen
  depth : (pathname.splitOn slash).length < vfsMaxDepth

/-- The create branch runs the create loop on the pieces from the start value on. -/
theorem createPath_start {s : State} {pathname : List UInt8} {d : ℕ} {target : Option ℕ}
    (i₀ : ℤ) (idle : s.strtok.flag = false) (fits : Fits pathname) :
    createPath i₀ pathname d target s =
      if i₀ < 0 then .error .outOfBounds
      else createLoop ((pathname.splitOn slash).drop i₀.toNat) d target
        { s with strtok := .idle } := by
  have split := spiltStrings_eq idle (Nat.le_sub_one_of_lt fits.depth)
  rw [createPath, if_neg (Nat.not_le.mpr fits.length), split, outcome_bind_ok]

/-- From the first piece on it runs on the names. -/
theorem createPath_eq {s : State} {pathname : List UInt8} {d : ℕ} {target : Option ℕ}
    (idle : s.strtok.flag = false) (fits : Fits pathname) :
    createPath 0 pathname d target s =
      createLoop (splitNames pathname) d target { s with strtok := .idle } := by
  rw [createPath_start 0 idle fits, splitNames, ← createLoop_filter]
  rfl

/-- A call of `lookup_path` for creation, from a node with a directory at the end of its chain. -/
theorem Tree.lookupPath_start {s : State} {root d u : ℕ} {pathname : List UInt8} (i₀ : ℤ)
    (target : Option ℕ) (tree : Tree s.fs root) (valid : d < s.fs.nodes.length)
    (short : (firstName pathname).length < tmpfsMaxComponentName)
    (settles : s.fs.names.Settles d u) (dir : s.fs.names.isDir u) :
    ∃ depth, ∀ fuel, lookupPath i₀ (fuel + 1 + depth) pathname d target true s =
      createPath i₀ pathname u target s := by
  obtain ⟨depth, start⟩ := tree.lookupPath_settles i₀ target true valid short settles
  refine ⟨depth, fun fuel => ?_⟩
  have here := List.getElem?_eq_getElem (tree.settles_valid valid settles)
  have is_dir := (Fs.isDir_iff here).mp dir
  have mount := (Fs.cover_eq here).symm.trans settles.2
  rw [start, lookupPath, firstComponent_eq short, outcome_bind_ok, Fs.node_eq_ok.mpr here,
    outcome_bind_ok, mount]
  simp only [is_dir, ne_eq, not_true_eq_false, if_false, if_true]

theorem Tree.lookupPath_create {s : State} {root d u : ℕ} {pathname : List UInt8}
    (target : Option ℕ) (tree : Tree s.fs root) (valid : d < s.fs.nodes.length)
    (idle : s.strtok.flag = false) (fits : Fits pathname) (settles : s.fs.names.Settles d u)
    (dir : s.fs.names.isDir u) :
    ∃ depth, ∀ fuel, lookupPath 0 (fuel + 1 + depth) pathname d target true s =
      createLoop (splitNames pathname) u target { s with strtok := .idle } := by
  obtain ⟨depth, start⟩ := tree.lookupPath_start 0 target valid fits.first settles dir
  exact ⟨depth, fun fuel => (start fuel).trans (createPath_eq idle fits)⟩

/-- **`lookup_path` creates directories**, when the names can be made from the directory on. -/
theorem Tree.lookupPath_creates {s : State} {root d u : ℕ} {pathname : List UInt8}
    {p : List (List UInt8)} (target : Option ℕ) (tree : Tree s.fs root)
    (valid : d < s.fs.nodes.length) (idle : s.strtok.flag = false) (fits : Fits pathname)
    (settles : s.fs.names.Settles d u) (reaches : s.fs.names.Reaches root p u)
    (dir : s.fs.names.isDir u) (some_name : splitNames pathname ≠ [])
    (proper : ∀ k ∈ splitNames pathname, IsName k)
    (creatable : s.Creatable u (splitNames pathname)) :
    ∃ v s', Returns (fun fuel => lookupPath 0 fuel pathname d target true s) (0, some v, s') ∧
      Created { s with strtok := .idle } root p (splitNames pathname) v s' := by
  obtain ⟨depth, call⟩ := tree.lookupPath_create target valid idle fits settles dir
  obtain ⟨v, s', target', loop, result, created⟩ := Tree.createLoop_creates
    (s := { s with strtok := .idle }) target tree reaches dir proper
    (creatable.with_strtok _)
  rcases result with rfl | ⟨nothing, -⟩
  · exact ⟨v, s', ⟨0 + 1 + depth, (call 0).trans loop⟩, created⟩
  · exact absurd nothing some_name

end BareMetal.Vfs
