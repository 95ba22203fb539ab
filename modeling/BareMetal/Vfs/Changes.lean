import BareMetal.Vfs.Growth
import BareMetal.Vfs.Mount

/-!
# New roots, mounts and new files

A new root is in no directory, so no path sees it before it is mounted. Where a vnode becomes a
file the tree loses its entries; if it had none, paths lead where they led before.

## Main results

* `Tree.addRoot`, `Tree.addRoot_self` — a new root keeps the tree, and is one of its own
* `Tree.setMount` — a mount
* `MakesFile.tree`, `MakesFile.pruned` — a new file
-/

namespace BareMetal.Vfs

open CS Strings

variable {fs : Fs} {root d v x r addr len : ℕ} {node : Vnode} {k : List UInt8}
  {q : List (List UInt8)} {kind : FsKind}

/-! ## A new root -/

theorem Fs.addRoot_new : (fs.addRoot kind).nodes[fs.nodes.length]? = some (rootNode kind) := by
  rw [addRoot, List.getElem?_append_right (Nat.le_refl _), Nat.sub_self]
  rfl

theorem Fs.addRoot_old (old : v < fs.nodes.length) :
    (fs.addRoot kind).nodes[v]? = fs.nodes[v]? :=
  List.getElem?_append_left old

theorem Fs.length_addRoot : (fs.addRoot kind).nodes.length = fs.nodes.length + 1 := by
  rw [addRoot, List.length_append, List.length_singleton]

/-- The vnodes afterwards: the new root and the old ones. -/
theorem Fs.addRoot_cases (there : (fs.addRoot kind).nodes[v]? = some node) :
    v = fs.nodes.length ∧ node = rootNode kind ∨ fs.nodes[v]? = some node := by
  have inside := (List.getElem?_eq_some_iff.mp there).1
  rw [length_addRoot] at inside
  rcases Nat.lt_succ_iff_lt_or_eq.mp inside with old | rfl
  · rw [addRoot_old old] at there
    exact .inr there
  · rw [addRoot_new] at there
    exact .inl ⟨rfl, (Option.some.inj there).symm⟩

theorem Fs.listing_addRoot (d : ℕ) : (fs.addRoot kind).listing d = fs.listing d := by
  rcases Nat.lt_trichotomy d fs.nodes.length with old | rfl | beyond
  · rw [listing, addRoot_old old, ← listing]
  · simp [listing, addRoot_new, rootNode, Component.listed]
  · have nothing : (fs.addRoot kind).nodes.length ≤ d := by
      rw [length_addRoot]
      exact beyond
    simp [listing, List.getElem?_eq_none nothing, List.getElem?_eq_none beyond.le]

theorem Fs.nameOf_addRoot (old : v < fs.nodes.length) :
    (fs.addRoot kind).nameOf v = fs.nameOf v := by
  rw [nameOf, addRoot_old old, nameOf]

theorem Fs.cover_addRoot (v : ℕ) : (fs.addRoot kind).names.cover v = fs.names.cover v := by
  rcases Nat.lt_trichotomy v fs.nodes.length with old | rfl | beyond
  · simp only [names, addRoot_old old]
  · simp [names, addRoot_new, rootNode]
  · have nothing : (fs.addRoot kind).nodes.length ≤ v := by
      rw [length_addRoot]
      exact beyond
    simp [names, List.getElem?_eq_none nothing, List.getElem?_eq_none beyond.le]

namespace Tree

theorem entry_addRoot (tree : Tree fs root) (d : ℕ) (k : List UInt8) :
    (fs.addRoot kind).names.entry d k = fs.names.entry d k := by
  have old : ∀ v ∈ fs.listing d, decide ((fs.addRoot kind).nameOf v = some k) =
      decide (fs.nameOf v = some k) := by
    intro v listed
    rw [Fs.nameOf_addRoot (tree.listed_valid listed)]
  change ((fs.addRoot kind).listing d).find? _ = (fs.listing d).find? _
  rw [Fs.listing_addRoot, List.find?_congr old]

theorem child_addRoot (tree : Tree fs root) (d : ℕ) (k : List UInt8) :
    (fs.addRoot kind).names.child d k = fs.names.child d k := by
  rw [Namespace.child, tree.entry_addRoot, Namespace.child]
  simp only [Fs.cover_addRoot]

/-- A vnode that is in no directory and mounted nowhere is a root of the vnodes with a new
root. -/
theorem addRoot_of (tree : Tree fs root) (valid : r < fs.nodes.length + 1)
    (unlisted : ∀ d, r ∉ fs.listing d) (unmounted : ∀ x, fs.names.cover x ≠ some r) :
    Tree (fs.addRoot kind) r where
  root_valid := by rwa [Fs.length_addRoot]
  sound there := by
    rcases Fs.addRoot_cases there with ⟨-, rfl⟩ | old
    · exact fun _ => .inl ⟨rfl, rfl⟩
    · exact tree.sound old
  listed_valid listed := by
    rw [Fs.listing_addRoot] at listed
    rw [Fs.length_addRoot]
    exact Nat.lt_succ_of_lt (tree.listed_valid listed)
  listed_name listed name := by
    rw [Fs.listing_addRoot] at listed
    rw [Fs.nameOf_addRoot (tree.listed_valid listed)] at name
    exact tree.listed_name listed name
  listed_once listed listed' := by
    rw [Fs.listing_addRoot] at listed listed'
    exact tree.listed_once listed listed'
  root_listed := by
    intro d
    rw [Fs.listing_addRoot]
    exact unlisted d
  mount_valid covered := by
    rw [Fs.cover_addRoot] at covered
    rw [Fs.length_addRoot]
    obtain ⟨above, valid⟩ := tree.mount_valid covered
    exact ⟨above, Nat.lt_succ_of_lt valid⟩
  mount_once covered covered' := by
    rw [Fs.cover_addRoot] at covered covered'
    exact tree.mount_once covered covered'
  mount_listed covered := by
    rw [Fs.cover_addRoot] at covered
    rw [Fs.listing_addRoot]
    exact tree.mount_listed covered
  root_mount := by
    intro x
    rw [Fs.cover_addRoot]
    exact unmounted x

theorem not_listed_length (tree : Tree fs root) (d : ℕ) : fs.nodes.length ∉ fs.listing d :=
  fun listed => absurd (tree.listed_valid listed) (Nat.lt_irrefl _)

theorem not_cover_length (tree : Tree fs root) (x : ℕ) :
    fs.names.cover x ≠ some fs.nodes.length :=
  fun covered => absurd (tree.mount_valid covered).2 (Nat.lt_irrefl _)

/-- **A new root keeps the tree.** -/
theorem addRoot (tree : Tree fs root) : Tree (fs.addRoot kind) root :=
  tree.addRoot_of (Nat.lt_succ_of_lt tree.root_valid) (fun _ => tree.root_listed)
    fun _ => tree.root_mount

/-- **A new root has a tree of its own.** -/
theorem addRoot_self (tree : Tree fs root) : Tree (fs.addRoot kind) fs.nodes.length :=
  tree.addRoot_of (Nat.lt_succ_self _) tree.not_listed_length tree.not_cover_length

end Tree

/-- From the new root on there is nothing but it. -/
theorem Fs.addRoot_listing (from_root : fs.nodes.length ≤ d) :
    (fs.addRoot kind).listing d = [] := by
  rw [Fs.listing_addRoot, Fs.listing, List.getElem?_eq_none from_root]
  rfl

theorem Fs.bare_addRoot : (fs.addRoot kind).Bare fs.nodes.length kind := by
  intro v node from_root there
  rcases addRoot_cases there with ⟨-, rfl⟩ | old
  · exact ⟨rfl, rfl⟩
  · exact absurd (List.getElem?_eq_some_iff.mp old).1 (Nat.not_lt.mpr from_root)

namespace Tree

theorem isDir_addRoot (tree : Tree fs root) (found : fs.names.child d k = some x) :
    (fs.addRoot kind).names.isDir x ↔ fs.names.isDir x := by
  simp only [Fs.names, Fs.addRoot_old (tree.child_valid found)]

theorem reaches_addRoot (tree : Tree fs root) :
    (fs.addRoot kind).names.Reaches root q d ↔ fs.names.Reaches root q d :=
  Namespace.reaches_congr tree.child_addRoot Fs.cover_addRoot tree.isDir_addRoot

theorem resolves_addRoot (tree : Tree fs root) :
    (fs.addRoot kind).names.Resolves root q v ↔ fs.names.Resolves root q v :=
  Namespace.resolves_congr tree.child_addRoot Fs.cover_addRoot tree.isDir_addRoot

end Tree

/-! ## A mount -/

theorem Fs.setMount_of_ne (other : x ≠ v) : (fs.setMount v r).nodes[x]? = fs.nodes[x]? := by
  rw [setMount, List.getElem?_modify_ne _ _ other.symm]

/-- A mount changes nothing of a vnode but what is mounted on it. -/
theorem Fs.map_setMount {α : Type} (f : Vnode → α)
    (same : ∀ node mount, f { node with mount := mount } = f node) (x : ℕ) :
    (fs.setMount v r).nodes[x]?.map f = fs.nodes[x]?.map f := by
  by_cases here : x = v
  · subst here
    rw [setMount, List.getElem?_modify_eq]
    cases fs.nodes[x]? with
    | none => rfl
    | some node => exact congrArg some (same node _)
  · rw [setMount_of_ne here]

theorem Fs.length_setMount : (fs.setMount v r).nodes.length = fs.nodes.length := by
  rw [setMount, List.length_modify]

theorem Fs.setMount_before {node' : Vnode} (there : (fs.setMount v r).nodes[x]? = some node') :
    ∃ node, fs.nodes[x]? = some node ∧ node'.component = node.component ∧
      node'.vOps = node.vOps ∧ node'.fOps = node.fOps := by
  have same := @map_setMount fs v r _
    (fun node => (node.component, node.vOps, node.fOps)) (fun _ _ => rfl) x
  rw [there, Option.map_some, eq_comm, Option.map_eq_some_iff] at same
  obtain ⟨node, here, same⟩ := same
  simp only [Prod.mk.injEq] at same
  exact ⟨node, here, same.1.symm, same.2.1.symm, same.2.2.symm⟩

theorem Fs.setMount_after (here : fs.nodes[x]? = some node) :
    ∃ node', (fs.setMount v r).nodes[x]? = some node' ∧ node'.component = node.component ∧
      node'.vOps = node.vOps ∧ node'.fOps = node.fOps := by
  have valid : x < (fs.setMount v r).nodes.length := by
    rw [length_setMount]
    exact (List.getElem?_eq_some_iff.mp here).1
  have there := List.getElem?_eq_getElem valid
  obtain ⟨_, here', same⟩ := setMount_before there
  obtain rfl := Option.some.inj (here.symm.trans here')
  exact ⟨_, there, same⟩

theorem Fs.listing_setMount (d : ℕ) : (fs.setMount v r).listing d = fs.listing d := by
  rw [listing, map_setMount _ fun _ _ => rfl, listing]

theorem Fs.nameOf_setMount (x : ℕ) : (fs.setMount v r).nameOf x = fs.nameOf x := by
  rw [nameOf, map_setMount _ fun _ _ => rfl, nameOf]

theorem Fs.entry_setMount (d : ℕ) (k : List UInt8) :
    (fs.setMount v r).names.entry d k = fs.names.entry d k := by
  simp only [names, listing_setMount, nameOf_setMount]

theorem Fs.isDir_setMount (x : ℕ) : (fs.setMount v r).names.isDir x ↔ fs.names.isDir x := by
  simp only [names, map_setMount (·.component.type) fun _ _ => rfl]

theorem Fs.cover_setMount_self (valid : v < fs.nodes.length) :
    (fs.setMount v r).names.cover v = some r := by
  simp [names, setMount, List.getElem?_eq_getElem valid]

theorem Fs.cover_setMount_of_ne (other : x ≠ v) :
    (fs.setMount v r).names.cover x = fs.names.cover x := by
  simp only [names, setMount_of_ne other]

/-- What is mounted somewhere afterwards. -/
theorem Fs.cover_setMount_cases {y : ℕ} (covered : (fs.setMount v r).names.cover x = some y) :
    x = v ∧ y = r ∨ x ≠ v ∧ fs.names.cover x = some y := by
  by_cases same : x = v
  · subst same
    by_cases valid : x < fs.nodes.length
    · rw [cover_setMount_self valid] at covered
      exact .inl ⟨rfl, (Option.some.inj covered).symm⟩
    · have nothing : (fs.setMount x r).nodes.length ≤ x := by
        rw [length_setMount]
        exact not_lt.mp valid
      simp [names, List.getElem?_eq_none nothing] at covered
  · rw [cover_setMount_of_ne same] at covered
    exact .inr ⟨same, covered⟩

/-- **A mount keeps the tree**, if its root is younger than the vnode, and in the tree nowhere. -/
theorem Tree.setMount (tree : Tree fs root) (above : v < r) (valid : r < fs.nodes.length)
    (other : r ≠ root) (unlisted : ∀ d, r ∉ fs.listing d)
    (unmounted : ∀ x, fs.names.cover x ≠ some r) : Tree (fs.setMount v r) root where
  root_valid := by
    rw [Fs.length_setMount]
    exact tree.root_valid
  sound := by
    intro d node' there
    obtain ⟨node, here, component, -⟩ := Fs.setMount_before there
    rw [component]
    exact tree.sound here
  listed_valid listed := by
    rw [Fs.listing_setMount] at listed
    rw [Fs.length_setMount]
    exact tree.listed_valid listed
  listed_name listed name := by
    rw [Fs.listing_setMount] at listed
    rw [Fs.nameOf_setMount] at name
    exact tree.listed_name listed name
  listed_once listed listed' := by
    rw [Fs.listing_setMount] at listed listed'
    exact tree.listed_once listed listed'
  root_listed := by
    intro d
    rw [Fs.listing_setMount]
    exact tree.root_listed
  mount_valid covered := by
    rw [Fs.length_setMount]
    rcases Fs.cover_setMount_cases covered with ⟨rfl, rfl⟩ | ⟨-, old⟩
    · exact ⟨above, valid⟩
    · exact tree.mount_valid old
  mount_once covered covered' := by
    rcases Fs.cover_setMount_cases covered with ⟨rfl, rfl⟩ | ⟨-, old⟩ <;>
      rcases Fs.cover_setMount_cases covered' with ⟨rfl, same⟩ | ⟨-, old'⟩
    · rfl
    · exact absurd old' (unmounted _)
    · exact absurd (same ▸ old) (unmounted _)
    · exact tree.mount_once old old'
  mount_listed covered := by
    rw [Fs.listing_setMount]
    rcases Fs.cover_setMount_cases covered with ⟨-, rfl⟩ | ⟨-, old⟩
    · exact unlisted _
    · exact tree.mount_listed old
  root_mount := by
    intro x covered
    rcases Fs.cover_setMount_cases covered with ⟨-, same⟩ | ⟨-, old⟩
    · exact other same.symm
    · exact tree.root_mount old

/-! ## A new file -/

/-- The component becomes that of a regular file. -/
structure MakesFile (f : Component → Component) : Prop where
  type : ∀ component, (f component).type = .file
  name : ∀ component, (f component).name = component.name

theorem makesFile_setFile (addr len : ℕ) : MakesFile fun component =>
    { component with type := .file, payload := .data addr, len := len } :=
  ⟨fun _ => rfl, fun _ => rfl⟩

/-- What `vfs_open` does to the vnode of a new file. -/
theorem makesFile_open : MakesFile fun component =>
    { component with type := .file, payload := .null } :=
  ⟨fun _ => rfl, fun _ => rfl⟩

theorem Fs.modifyComponent_of_ne (f : Component → Component) (other : x ≠ v) :
    (fs.modifyComponent v f).nodes[x]? = fs.nodes[x]? := by
  rw [modifyComponent, List.getElem?_modify_ne _ _ other.symm]

theorem Fs.length_modifyComponent (f : Component → Component) :
    (fs.modifyComponent v f).nodes.length = fs.nodes.length := by
  rw [modifyComponent, List.length_modify]

/-- The vnodes afterwards. -/
theorem Fs.modifyComponent_cases (f : Component → Component)
    (there : (fs.modifyComponent v f).nodes[x]? = some node) :
    (∃ before, x = v ∧ fs.nodes[x]? = some before ∧
      node = { before with component := f before.component }) ∨
      x ≠ v ∧ fs.nodes[x]? = some node := by
  by_cases same : x = v
  · subst same
    obtain ⟨before, here⟩ : ∃ before, fs.nodes[x]? = some before :=
      ⟨_, List.getElem?_eq_getElem
        (Fs.length_modifyComponent f ▸ (List.getElem?_eq_some_iff.mp there).1)⟩
    rw [Fs.modifyComponent_self f here] at there
    exact .inl ⟨before, rfl, here, (Option.some.inj there).symm⟩
  · rw [Fs.modifyComponent_of_ne f same] at there
    exact .inr ⟨same, there⟩

theorem Fs.cover_modifyComponent (f : Component → Component) (x : ℕ) :
    (fs.modifyComponent v f).names.cover x = fs.names.cover x := by
  by_cases same : x = v
  · subst same
    cases here : fs.nodes[x]? with
    | none => simp [Fs.names, Fs.modifyComponent, here]
    | some node => rw [Fs.cover_eq (Fs.modifyComponent_self f here), Fs.cover_eq here]
  · simp only [Fs.names, Fs.modifyComponent_of_ne f same]

theorem Fs.listing_modifyComponent_of_ne (f : Component → Component) (other : x ≠ v) :
    (fs.modifyComponent v f).listing x = fs.listing x := by
  rw [Fs.listing, Fs.modifyComponent_of_ne f other, Fs.listing]

theorem Fs.isDir_modifyComponent_of_ne (f : Component → Component) (other : x ≠ v) :
    (fs.modifyComponent v f).names.isDir x ↔ fs.names.isDir x := by
  simp only [Fs.names, Fs.modifyComponent_of_ne f other]

namespace MakesFile

variable {f : Component → Component} (makes : MakesFile f)
include makes

theorem nameOf (x : ℕ) : (fs.modifyComponent v f).nameOf x = fs.nameOf x := by
  by_cases same : x = v
  · subst same
    cases here : fs.nodes[x]? with
    | none => simp [Fs.nameOf, Fs.modifyComponent, here]
    | some node =>
      rw [Fs.nameOf_eq (Fs.modifyComponent_self f here), Fs.nameOf_eq here, makes.name]
  · rw [Fs.nameOf, Fs.modifyComponent_of_ne f same, Fs.nameOf]

theorem listing_self : (fs.modifyComponent v f).listing v = [] := by
  cases here : fs.nodes[v]? with
  | none => simp [Fs.listing, Fs.modifyComponent, here]
  | some node =>
    rw [Fs.listing_eq (Fs.modifyComponent_self f here)]
    exact Component.listed_of_ne (by simp [makes.type])

theorem mem_listing (listed : x ∈ (fs.modifyComponent v f).listing d) : x ∈ fs.listing d := by
  by_cases same : d = v
  · rw [same, makes.listing_self] at listed
    exact absurd listed List.not_mem_nil
  · rwa [Fs.listing_modifyComponent_of_ne f same] at listed

theorem not_isDir : ¬ (fs.modifyComponent v f).names.isDir v := by
  intro dir
  cases here : fs.nodes[v]? with
  | none => simp [Fs.names, Fs.modifyComponent, here] at dir
  | some node =>
    rw [Fs.isDir_iff (Fs.modifyComponent_self f here), makes.type] at dir
    contradiction

/-- **A file in place of any vnode keeps the tree.** -/
theorem tree (tree : Tree fs root) : Tree (fs.modifyComponent v f) root where
  root_valid := by
    rw [Fs.length_modifyComponent]
    exact tree.root_valid
  sound := by
    intro d node' there
    rcases Fs.modifyComponent_cases f there with ⟨before, -, -, rfl⟩ | ⟨-, old⟩
    · exact fun dir => absurd ((makes.type _).symm.trans dir) (by decide)
    · exact tree.sound old
  listed_valid listed := by
    rw [Fs.length_modifyComponent]
    exact tree.listed_valid (makes.mem_listing listed)
  listed_name listed name := by
    rw [makes.nameOf] at name
    exact tree.listed_name (makes.mem_listing listed) name
  listed_once listed listed' :=
    tree.listed_once (makes.mem_listing listed) (makes.mem_listing listed')
  root_listed listed := tree.root_listed (makes.mem_listing listed)
  mount_valid covered := by
    rw [Fs.cover_modifyComponent] at covered
    rw [Fs.length_modifyComponent]
    exact tree.mount_valid covered
  mount_once covered covered' := by
    rw [Fs.cover_modifyComponent] at covered covered'
    exact tree.mount_once covered covered'
  mount_listed covered listed := by
    rw [Fs.cover_modifyComponent] at covered
    exact tree.mount_listed covered (makes.mem_listing listed)
  root_mount := by
    intro x
    rw [Fs.cover_modifyComponent]
    exact tree.root_mount

/-- It takes names away, and adds none. -/
theorem shrunk : Namespace.Shrunk fs.names (fs.modifyComponent v f).names where
  child := by
    intro d k x found
    obtain ⟨y, entry, covered⟩ := Namespace.child_eq_some.mp found
    rw [Fs.cover_modifyComponent] at covered
    refine Namespace.child_eq_some.mpr ⟨y, ?_, covered⟩
    change ((fs.modifyComponent v f).listing d).find? _ = some y at entry
    by_cases same : d = v
    · rw [same, makes.listing_self] at entry
      contradiction
    · rw [Fs.listing_modifyComponent_of_ne f same] at entry
      simp only [makes.nameOf] at entry
      exact entry
  cover := Fs.cover_modifyComponent f
  isDir := by
    intro x dir
    have other : x ≠ v := by
      rintro rfl
      exact makes.not_isDir dir
    exact (Fs.isDir_modifyComponent_of_ne f other).mp dir

section Empty

variable (empty : fs.listing v = [])
include empty

theorem listing (d : ℕ) : (fs.modifyComponent v f).listing d = fs.listing d := by
  by_cases same : d = v
  · rw [same, makes.listing_self, empty]
  · exact Fs.listing_modifyComponent_of_ne f same

/-- **A file in place of an empty directory prunes the tree.** -/
theorem pruned (free : fs.names.cover v = none) :
    Namespace.Pruned fs.names (fs.modifyComponent v f).names v where
  child d k := by
    have entry : (fs.modifyComponent v f).names.entry d k = fs.names.entry d k := by
      change ((fs.modifyComponent v f).listing d).find? _ = (fs.listing d).find? _
      rw [makes.listing empty]
      simp only [makes.nameOf]
    rw [Namespace.child, entry, Namespace.child]
    simp only [Fs.cover_modifyComponent]
  cover := Fs.cover_modifyComponent f
  isDir x other := Fs.isDir_modifyComponent_of_ne f other
  empty k := by simp [Namespace.child, Fs.names, empty]
  free := free

end Empty

end MakesFile

end BareMetal.Vfs
