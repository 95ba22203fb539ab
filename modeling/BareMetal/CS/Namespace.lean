import BareMetal.CS.Transition
import Mathlib.Logic.Relation

/-!
# Trees of names with mounts

A namespace has named entries in its directories, and a node may be covered by another
one that is mounted on it. Looking up one name finds the entry, or the node mounted on it.
To go on below it, the whole chain of mounts is followed to its end; the path then
leads through `Step`s between such ends.

In a forest every node is an entry of at most one directory or mounted on at most one
node, but not both. There, a directory is reached along one path only.

## Main results

* `Forest.path_unique` — one path leads to each directory
* `Grafted.resolves_iff` — what paths resolve to after one name got a new, empty directory
* `Mounted.resolves_iff` — what paths resolve to after an empty directory was mounted
* `Pruned.resolves_iff` — an empty directory may become a file
-/

namespace BareMetal.CS

/-- Entries by name, the node mounted on each node, and which nodes are directories. -/
structure Namespace (ν κ : Type*) where
  entry : ν → κ → Option ν
  cover : ν → Option ν
  isDir : ν → Prop

namespace Namespace

variable {ν κ : Type*} {ns ns' : Namespace ν κ} {root start x y r u v d d' : ν} {k k' : κ}
  {p q : List κ}

/-- `y` is mounted on `x`. -/
def CoveredBy (ns : Namespace ν κ) (x y : ν) : Prop := ns.cover x = some y

/-- The chain of mounts on `x` ends at `y`. -/
def Settles (ns : Namespace ν κ) (x y : ν) : Prop :=
  Relation.ReflTransGen ns.CoveredBy x y ∧ ns.cover y = none

/-- What a lookup of a name in a directory finds. -/
def child (ns : Namespace ν κ) (d : ν) (k : κ) : Option ν :=
  (ns.entry d k).map fun x => (ns.cover x).getD x

/-- One component of a path, between ends of chains. -/
def Step (ns : Namespace ν κ) (d : ν) (k : κ) (d' : ν) : Prop :=
  ∃ x, ns.child d k = some x ∧ ns.isDir x ∧ ns.Settles x d'

/-- The path leads from the node to the directory. -/
def Reaches (ns : Namespace ν κ) (root : ν) (p : List κ) (d : ν) : Prop :=
  ∃ start, ns.Settles root start ∧ Run ns.Step start p d

/-- A lookup of the path from the node on finds `v`. -/
def Resolves (ns : Namespace ν κ) (root : ν) (p : List κ) (v : ν) : Prop :=
  ∃ init last d, p = init ++ [last] ∧ ns.Reaches root init d ∧ ns.child d last = some v

/-! ## Chains of mounts -/

theorem settles_self (free : ns.cover x = none) : ns.Settles x x := ⟨.refl, free⟩

theorem Settles.head (covered : ns.cover x = some y) (settles : ns.Settles y u) :
    ns.Settles x u :=
  ⟨.head covered settles.1, settles.2⟩

theorem settles_iff_of_cover (covered : ns.cover x = some y) :
    ns.Settles x u ↔ ns.Settles y u := by
  refine ⟨fun ⟨chain, ends⟩ => ?_, .head covered⟩
  rcases chain.cases_head with rfl | ⟨z, first, chain⟩
  · rw [covered] at ends
    contradiction
  · obtain rfl : y = z := Option.some.inj (covered.symm.trans first)
    exact ⟨chain, ends⟩

theorem settles_iff_of_free (free : ns.cover x = none) : ns.Settles x u ↔ u = x := by
  constructor
  · rintro ⟨chain, -⟩
    rcases chain.cases_head with rfl | ⟨z, first, -⟩
    · rfl
    · rw [CoveredBy, free] at first
      contradiction
  · rintro rfl
    exact settles_self free

/-- A chain has one end. -/
theorem Settles.unique (settles : ns.Settles x u) (settles' : ns.Settles x v) : u = v := by
  obtain ⟨chain, ends⟩ := settles
  induction chain using Relation.ReflTransGen.head_induction_on with
  | refl => exact ((settles_iff_of_free ends).mp settles').symm
  | head covered _ ih => exact ih ((settles_iff_of_cover covered).mp settles')

/-- Chains only read what is mounted. -/
theorem settles_congr (same : ∀ x, ns'.cover x = ns.cover x) :
    ns'.Settles x u ↔ ns.Settles x u := by
  have chains : ns'.CoveredBy = ns.CoveredBy := by
    funext x y
    rw [CoveredBy, CoveredBy, same]
  rw [Settles, Settles, chains, same]

/-! ## Paths -/

theorem step_unique (step : ns.Step d k u) (step' : ns.Step d k v) : u = v := by
  obtain ⟨x, found, -, settles⟩ := step
  obtain ⟨y, found', -, settles'⟩ := step'
  obtain rfl := Option.some.inj (found.symm.trans found')
  exact settles.unique settles'

theorem reaches_nil : ns.Reaches root [] d ↔ ns.Settles root d := by
  constructor
  · rintro ⟨start, settles, run⟩
    obtain rfl := Run.eq_of_nil run
    exact settles
  · exact fun settles => ⟨d, settles, .refl d⟩

theorem reaches_snoc :
    ns.Reaches root (p ++ [k]) d' ↔ ∃ d, ns.Reaches root p d ∧ ns.Step d k d' := by
  constructor
  · rintro ⟨start, settles, run⟩
    obtain ⟨d, run, step⟩ := Run.of_snoc run
    exact ⟨d, ⟨start, settles, run⟩, step⟩
  · rintro ⟨d, ⟨start, settles, run⟩, step⟩
    exact ⟨start, settles, run.snoc step⟩

theorem reaches_cons :
    ns.Reaches root (k :: p) d' ↔ ∃ d x, ns.Settles root d ∧ ns.child d k = some x ∧
      ns.isDir x ∧ ns.Reaches x p d' := by
  constructor
  · rintro ⟨start, settles, run⟩
    obtain ⟨d, ⟨x, found, dir, settles'⟩, run⟩ := Run.of_cons run
    exact ⟨start, x, settles, found, dir, d, settles', run⟩
  · rintro ⟨d, x, settles, found, dir, d₁, settles', run⟩
    exact ⟨d, settles, Run.cons ⟨x, found, dir, settles'⟩ run⟩

/-- Paths lead to ends of chains. -/
theorem Reaches.cover_eq (reaches : ns.Reaches root p d) : ns.cover d = none := by
  rcases List.eq_nil_or_concat' p with rfl | ⟨p, k, rfl⟩
  · exact (reaches_nil.mp reaches).2
  · obtain ⟨d', -, x, -, -, settles⟩ := reaches_snoc.mp reaches
    exact settles.2

/-- A path leads to one directory. -/
theorem Reaches.unique (reaches : ns.Reaches root p u) (reaches' : ns.Reaches root p v) :
    u = v := by
  obtain ⟨start, settles, run⟩ := reaches
  obtain ⟨start', settles', run'⟩ := reaches'
  obtain rfl := settles.unique settles'
  exact run.unique (fun _ _ _ _ => step_unique) run'

theorem resolves_snoc :
    ns.Resolves root (p ++ [k]) v ↔ ∃ d, ns.Reaches root p d ∧ ns.child d k = some v := by
  constructor
  · rintro ⟨init, last, d, same, reaches, found⟩
    obtain ⟨rfl, rfl⟩ := List.append_singleton_inj.mp same
    exact ⟨d, reaches, found⟩
  · rintro ⟨d, reaches, found⟩
    exact ⟨p, k, d, rfl, reaches, found⟩

theorem not_resolves_nil : ¬ ns.Resolves root [] v := by
  rintro ⟨init, last, d, same, -⟩
  simp at same

theorem Resolves.unique (resolves : ns.Resolves root p u) (resolves' : ns.Resolves root p v) :
    u = v := by
  obtain ⟨init, last, d, rfl, reaches, found⟩ := resolves
  obtain ⟨d', reaches', found'⟩ := resolves_snoc.mp resolves'
  obtain rfl := reaches.unique reaches'
  exact Option.some.inj (found.symm.trans found')

theorem resolves_singleton (settles : ns.Settles root d) :
    ns.Resolves root [k] v ↔ ns.child d k = some v := by
  have split := @resolves_snoc _ _ ns root v k []
  rw [List.nil_append] at split
  simp only [split, reaches_nil]
  refine ⟨?_, fun found => ⟨d, settles, found⟩⟩
  rintro ⟨d', settles', found⟩
  rwa [settles.unique settles']

/-- The first component of a longer path leads to a directory. -/
theorem resolves_cons (settles : ns.Settles root d) (more : p ≠ []) :
    ns.Resolves root (k :: p) v ↔ ∃ x, ns.child d k = some x ∧ ns.isDir x ∧ ns.Resolves x p v := by
  obtain ⟨init, last, rfl⟩ := (List.eq_nil_or_concat' p).resolve_left more
  rw [← List.cons_append, resolves_snoc]
  simp only [reaches_cons, resolves_snoc]
  constructor
  · rintro ⟨d', ⟨d₁, x, settles', found, dir, reaches⟩, last_found⟩
    obtain rfl := settles.unique settles'
    exact ⟨x, found, dir, d', reaches, last_found⟩
  · rintro ⟨x, found, dir, d', reaches, last_found⟩
    exact ⟨d', ⟨d, x, settles, found, dir, reaches⟩, last_found⟩

section Congr

variable (child : ∀ d k, ns'.child d k = ns.child d k) (cover : ∀ x, ns'.cover x = ns.cover x)
  (dirs : ∀ {d k x}, ns.child d k = some x → (ns'.isDir x ↔ ns.isDir x))
include child cover dirs

/-- Paths only ask of what they find whether it is a directory. -/
theorem reaches_congr : ns'.Reaches root q u ↔ ns.Reaches root q u := by
  induction q using List.reverseRecOn generalizing u with
  | nil => rw [reaches_nil, reaches_nil, settles_congr cover]
  | append_singleton q k ih =>
    rw [reaches_snoc, reaches_snoc]
    simp only [ih, Step, child, settles_congr cover]
    refine exists_congr fun d => and_congr_right fun _ => exists_congr fun x => ?_
    exact and_congr_right fun found => and_congr_left fun _ => dirs found

theorem resolves_congr : ns'.Resolves root q u ↔ ns.Resolves root q u := by
  simp only [Resolves, child, reaches_congr child cover dirs]

end Congr

/-- The front of a path leads to a directory, too. -/
theorem Reaches.of_append (reaches : ns.Reaches root (p ++ q) d) : ∃ d', ns.Reaches root p d' := by
  induction q using List.reverseRecOn generalizing d with
  | nil => exact ⟨d, by simpa using reaches⟩
  | append_singleton q k ih =>
    rw [← List.append_assoc] at reaches
    obtain ⟨d', front, -⟩ := reaches_snoc.mp reaches
    exact ih front

/-- A path that resolves to a directory leads to the end of its chain. -/
theorem Resolves.reaches (resolves : ns.Resolves root q v) (dir : ns.isDir v)
    (settles : ns.Settles v u) : ns.Reaches root q u := by
  obtain ⟨init, last, d, rfl, reaches, found⟩ := resolves
  exact reaches_snoc.mpr ⟨d, reaches, v, found, dir, settles⟩

/-- Each name on a path to a directory is found, and a directory. -/
theorem Reaches.exists_resolves (reaches : ns.Reaches root q v) (some_name : p ≠ [])
    (inside : p <+: q) : ∃ u, ns.Resolves root p u ∧ ns.isDir u := by
  obtain ⟨r, rfl⟩ := inside
  obtain ⟨d', front⟩ := reaches.of_append
  obtain ⟨p, k, rfl⟩ := (List.eq_nil_or_concat' p).resolve_left some_name
  obtain ⟨d, reaches', x, found, dir, -⟩ := reaches_snoc.mp front
  exact ⟨x, resolves_snoc.mpr ⟨d, reaches', found⟩, dir⟩

/-- Every name on a path that resolves is found. -/
theorem Resolves.exists_child (resolves : ns.Resolves root q v) (inside : p ++ [k] <+: q)
    (reaches : ns.Reaches root p d) : ∃ x, ns.child d k = some x := by
  obtain ⟨r, rfl⟩ := inside
  rcases List.eq_nil_or_concat' r with rfl | ⟨r, last, rfl⟩
  · rw [List.append_nil] at resolves
    obtain ⟨d', reaches', found⟩ := resolves_snoc.mp resolves
    obtain rfl := reaches.unique reaches'
    exact ⟨v, found⟩
  · rw [← List.append_assoc] at resolves
    obtain ⟨d', reaches', -⟩ := resolves_snoc.mp resolves
    obtain ⟨d₁, front⟩ := reaches'.of_append
    obtain ⟨d₂, reaches₂, x, found, -⟩ := reaches_snoc.mp front
    obtain rfl := reaches.unique reaches₂
    exact ⟨x, found⟩

/-- Paths end at an empty directory. -/
theorem Resolves.eq_of_empty (resolves : ns.Resolves root p v) (dir : ns.isDir v)
    (free : ns.cover v = none) (empty : ∀ k, ns.child v k = none) (reaches : ns.Reaches root q d)
    (below : p <+: q) : q = p ∧ d = v := by
  have here := resolves.reaches dir (settles_self free)
  obtain ⟨rest, rfl⟩ := below
  cases rest with
  | nil =>
    rw [List.append_nil] at reaches ⊢
    exact ⟨rfl, reaches.unique here⟩
  | cons k rest =>
    -- the next name would be one of the directory
    rw [List.append_cons] at reaches
    obtain ⟨d', front⟩ := reaches.of_append
    obtain ⟨d₁, reaches₁, x, found, -⟩ := reaches_snoc.mp front
    rw [reaches₁.unique here, empty] at found
    contradiction

/-! ## Forests -/

/-- From the root down, each node is an entry of at most one directory, under one name, or
mounted on at most one node. -/
structure Forest (ns : Namespace ν κ) (root : ν) : Prop where
  one_parent : ∀ {d k d' k' x}, ns.entry d k = some x → ns.entry d' k' = some x → d = d' ∧ k = k'
  one_cover : ∀ {x y r}, ns.cover x = some r → ns.cover y = some r → x = y
  apart : ∀ {d k x y}, ns.entry d k = some x → ns.cover y ≠ some x
  root_entry : ∀ d k, ns.entry d k ≠ some root
  root_cover : ∀ y, ns.cover y ≠ some root

theorem child_eq_some :
    ns.child d k = some y ↔ ∃ x, ns.entry d k = some x ∧ (ns.cover x).getD x = y := by
  rw [child, Option.map_eq_some_iff]

/-- The chain from a found node ends where the one from its entry does. -/
theorem settles_child (found : ns.child d k = some y) :
    ∃ x, ns.entry d k = some x ∧ ∀ u, ns.Settles x u ↔ ns.Settles y u := by
  obtain ⟨x, entry, rfl⟩ := child_eq_some.mp found
  refine ⟨x, entry, fun u => ?_⟩
  cases covered : ns.cover x with
  | none => rfl
  | some r => exact settles_iff_of_cover covered

namespace Forest

/-- Chains that meet start one inside the other. -/
theorem chain_total (forest : ns.Forest root) (settles : ns.Settles x u)
    (settles' : ns.Settles y u) :
    Relation.ReflTransGen ns.CoveredBy x y ∨ Relation.ReflTransGen ns.CoveredBy y x := by
  have backwards : Relator.RightUnique (Function.swap ns.CoveredBy) :=
    fun _ _ _ covered covered' => forest.one_cover covered covered'
  have total := Relation.ReflTransGen.total_of_right_unique backwards
    settles.1.swap settles'.1.swap
  exact total.symm.imp (fun chain => chain.swap) fun chain => chain.swap

/-- No chain leads to a node that nothing is covered by. -/
theorem eq_of_chain (bare : ∀ z, ns.cover z ≠ some y)
    (chain : Relation.ReflTransGen ns.CoveredBy x y) : x = y := by
  rcases chain.cases_tail with rfl | ⟨z, -, covered⟩
  · rfl
  · exact absurd covered (bare z)

/-- The chains from two nodes that are not mounted end at different nodes. -/
theorem eq_of_settles (forest : ns.Forest root) (bare : ∀ z, ns.cover z ≠ some x)
    (bare' : ∀ z, ns.cover z ≠ some y) (settles : ns.Settles x u) (settles' : ns.Settles y u) :
    x = y := by
  rcases forest.chain_total settles settles' with chain | chain
  · exact eq_of_chain bare' chain
  · exact (eq_of_chain bare chain).symm

/-- A directory is entered by one component only. -/
theorem step_injective (forest : ns.Forest root) (step : ns.Step d k u)
    (step' : ns.Step d' k' u) : d = d' ∧ k = k' := by
  obtain ⟨y, found, -, settles⟩ := step
  obtain ⟨y', found', -, settles'⟩ := step'
  obtain ⟨x, entry, same⟩ := settles_child found
  obtain ⟨x', entry', same'⟩ := settles_child found'
  obtain rfl : x = x' := forest.eq_of_settles (fun _ => forest.apart entry)
    (fun _ => forest.apart entry') ((same u).mpr settles) ((same' u).mpr settles')
  exact forest.one_parent entry entry'

/-- No component leads back to the start. -/
theorem not_step_start (forest : ns.Forest root) (settles : ns.Settles root start) :
    ¬ ns.Step d k start := by
  rintro ⟨y, found, -, settles'⟩
  obtain ⟨x, entry, same⟩ := settles_child found
  obtain rfl : x = root := forest.eq_of_settles (fun _ => forest.apart entry) forest.root_cover
    ((same start).mpr settles') settles
  exact forest.root_entry d k entry

/-- **One path** leads to each directory. -/
theorem path_unique (forest : ns.Forest root) (reaches : ns.Reaches root p d)
    (reaches' : ns.Reaches root q d) : p = q := by
  obtain ⟨start, settles, run⟩ := reaches
  obtain ⟨start', settles', run'⟩ := reaches'
  obtain rfl := settles.unique settles'
  exact run.unique_word (fun _ _ _ _ _ => forest.step_injective)
    (fun _ _ => forest.not_step_start settles) run'

/-- A found node is found under one name only. -/
theorem child_injective (forest : ns.Forest root) (settles : ∀ x, ∃ u, ns.Settles x u)
    (found : ns.child d k = some x) (found' : ns.child d' k' = some x) : d = d' ∧ k = k' := by
  obtain ⟨y, entry, same⟩ := settles_child found
  obtain ⟨y', entry', same'⟩ := settles_child found'
  obtain ⟨u, ends⟩ := settles x
  obtain rfl : y = y' := forest.eq_of_settles (fun _ => forest.apart entry)
    (fun _ => forest.apart entry') ((same u).mpr ends) ((same' u).mpr ends)
  exact forest.one_parent entry entry'

/-- The chain through a found node starts under its name only. -/
theorem away_of_ne (forest : ns.Forest root) (settles : ∀ x, ∃ u, ns.Settles x u)
    (found : ns.child d k = some v) (found' : ns.child d' k' = some x)
    (other : ¬ (d' = d ∧ k' = k)) :
    ¬ Relation.ReflTransGen ns.CoveredBy x v := by
  intro chain
  obtain ⟨u, ends⟩ := settles v
  obtain ⟨y, entry, same⟩ := settles_child found
  obtain ⟨y', entry', same'⟩ := settles_child found'
  obtain rfl : y = y' := forest.eq_of_settles (fun _ => forest.apart entry)
    (fun _ => forest.apart entry') ((same u).mpr ends) ((same' u).mpr ⟨chain.trans ends.1, ends.2⟩)
  exact other (forest.one_parent entry' entry)

/-- No chain from the root leads through it. -/
theorem away_of_root (forest : ns.Forest root) (settles : ∀ x, ∃ u, ns.Settles x u)
    (found : ns.child d k = some v) : ¬ Relation.ReflTransGen ns.CoveredBy root v := by
  intro chain
  obtain ⟨u, ends⟩ := settles v
  obtain ⟨y, entry, same⟩ := settles_child found
  obtain rfl : y = root := forest.eq_of_settles (fun _ => forest.apart entry) forest.root_cover
    ((same u).mpr ends) ⟨chain.trans ends.1, ends.2⟩
  exact forest.root_entry _ _ entry

/-- A found node is the entry itself, or the root of a mount. -/
theorem entry_iff (forest : ns.Forest root) (found : ns.child d k = some v) :
    ns.entry d k = some v ↔ ∀ x, ns.cover x ≠ some v := by
  constructor
  · exact fun entry x => forest.apart entry
  · intro bare
    obtain ⟨y, entry, covers⟩ := child_eq_some.mp found
    cases covered : ns.cover y with
    | none =>
      rw [covered, Option.getD_none] at covers
      rwa [← covers]
    | some z =>
      rw [covered, Option.getD_some] at covers
      exact absurd (covers ▸ covered) (bare y)

/-- Paths lead to what is found in a node through the node. -/
theorem reaches_child (forest : ns.Forest root) (settles : ∀ x, ∃ u, ns.Settles x u)
    (found : ns.child d k = some v) (reaches : ns.Reaches root q v) :
    ∃ p, q = p ++ [k] ∧ ns.Reaches root p d := by
  rcases List.eq_nil_or_concat' q with rfl | ⟨p, k', rfl⟩
  · exact absurd (reaches_nil.mp reaches).1 (forest.away_of_root settles found)
  · obtain ⟨d', reaches', x, found', -, chain, -⟩ := reaches_snoc.mp reaches
    by_cases same : d' = d ∧ k' = k
    · obtain ⟨rfl, rfl⟩ := same
      exact ⟨p, rfl, reaches'⟩
    · exact absurd chain (forest.away_of_ne settles found found' same)

/-- **One path** resolves to each node. -/
theorem resolves_injective (forest : ns.Forest root) (settles : ∀ x, ∃ u, ns.Settles x u)
    (resolves : ns.Resolves root p x) (resolves' : ns.Resolves root q x) : p = q := by
  obtain ⟨p, k, d, rfl, reaches, found⟩ := resolves
  obtain ⟨q, k', d', rfl, reaches', found'⟩ := resolves'
  obtain ⟨rfl, rfl⟩ := forest.child_injective settles found found'
  rw [forest.path_unique reaches reaches']

end Forest

/-! ## A new directory under one name -/

/-- The name `k` of `d` has become that of the empty directory `v`, which was not in the tree
before. All other names are as they were. -/
structure Grafted (ns ns' : Namespace ν κ) (root d : ν) (k : κ) (v : ν) : Prop where
  start : ∀ u, ns'.Settles root u ↔ ns.Settles root u
  child_self : ns'.child d k = some v
  child_of_ne : ∀ {d' k'}, d' ≠ v → ¬ (d' = d ∧ k' = k) → ns'.child d' k' = ns.child d' k'
  step_of_ne : ∀ {d' k' u}, d' ≠ v → ¬ (d' = d ∧ k' = k) → (ns'.Step d' k' u ↔ ns.Step d' k' u)
  dir : ns'.isDir v
  free : ns'.cover v = none
  empty : ∀ k', ns'.child v k' = none
  new : ∀ p, ¬ ns.Reaches root p v

namespace Grafted

theorem step_self (grafted : Grafted ns ns' root d k v) : ns'.Step d k u ↔ u = v := by
  constructor
  · rintro ⟨x, found, -, settles⟩
    obtain rfl := Option.some.inj (found.symm.trans grafted.child_self)
    exact (settles_iff_of_free grafted.free).mp settles
  · rintro rfl
    exact ⟨u, grafted.child_self, grafted.dir, settles_self grafted.free⟩

/-- One more component: if paths lead to directories as stated, and from there on only the new
name behaves differently, then longer paths do as stated. -/
theorem extend (grafted : Grafted ns ns' root d k v) (forest : ns.Forest root)
    (reaches : ns.Reaches root p d) {k₁ : κ}
    (here : ∀ {d₁}, ns'.Reaches root q d₁ ↔
      q = p ++ [k] ∧ d₁ = v ∨ ¬ p ++ [k] <+: q ∧ ns.Reaches root q d₁)
    {next next' : ν → Prop} {ends : Prop} (from_new : ¬ next' v)
    (from_dir : k₁ = k → (next' d ↔ ends))
    (elsewhere : ∀ d₁, d₁ ≠ v → ¬ (d₁ = d ∧ k₁ = k) → (next' d₁ ↔ next d₁)) :
    (∃ d₁, ns'.Reaches root q d₁ ∧ next' d₁) ↔
      q ++ [k₁] = p ++ [k] ∧ ends ∨
        ¬ p ++ [k] <+: q ++ [k₁] ∧ ∃ d₁, ns.Reaches root q d₁ ∧ next d₁ := by
  have too_short : ¬ p ++ [k] <+: p := by
    intro inside
    have le := inside.length_le
    rw [List.length_append, List.length_singleton] at le
    omega
  constructor
  · rintro ⟨d₁, reaches', step⟩
    rcases here.mp reaches' with ⟨-, rfl⟩ | ⟨outside, reaches'⟩
    · exact absurd step from_new
    · by_cases new : d₁ = d ∧ k₁ = k
      · obtain ⟨rfl, rfl⟩ := new
        obtain rfl := forest.path_unique reaches reaches'
        exact .inl ⟨rfl, (from_dir rfl).mp step⟩
      · have old : d₁ ≠ v := by
          rintro rfl
          exact grafted.new q reaches'
        -- the longer path does not begin with the new one either
        refine .inr ⟨fun inside => ?_, d₁, reaches', (elsewhere d₁ old new).mp step⟩
        rcases List.prefix_concat_iff.mp inside with same | inside
        · obtain ⟨rfl, rfl⟩ := List.append_singleton_inj.mp same
          exact new ⟨reaches'.unique reaches, rfl⟩
        · exact outside inside
  · rintro (⟨same, step⟩ | ⟨outside, d₁, reaches', step⟩)
    · obtain ⟨rfl, rfl⟩ := List.append_singleton_inj.mp same
      exact ⟨d, here.mpr (.inr ⟨too_short, reaches⟩), (from_dir rfl).mpr step⟩
    · have shorter : ¬ p ++ [k] <+: q := fun inside =>
        outside (inside.trans (List.prefix_append _ _))
      have old : d₁ ≠ v := by
        rintro rfl
        exact grafted.new q reaches'
      have new : ¬ (d₁ = d ∧ k₁ = k) := by
        rintro ⟨rfl, rfl⟩
        obtain rfl := forest.path_unique reaches reaches'
        exact outside List.prefix_rfl
      exact ⟨d₁, here.mpr (.inr ⟨shorter, reaches'⟩), (elsewhere d₁ old new).mpr step⟩

/-- Where paths lead now. -/
theorem reaches_iff (grafted : Grafted ns ns' root d k v) (forest : ns.Forest root)
    (reaches : ns.Reaches root p d) :
    ns'.Reaches root q u ↔
      q = p ++ [k] ∧ u = v ∨ ¬ p ++ [k] <+: q ∧ ns.Reaches root q u := by
  induction q using List.reverseRecOn generalizing u with
  | nil =>
    rw [reaches_nil, reaches_nil, grafted.start]
    simp
  | append_singleton q k₁ ih =>
    rw [reaches_snoc, reaches_snoc]
    refine grafted.extend forest reaches ih ?_ ?_ fun d₁ old new => grafted.step_of_ne old new
    · rintro ⟨x, found, -⟩
      rw [grafted.empty] at found
      contradiction
    · rintro rfl
      exact grafted.step_self

/-- **What paths resolve to** after a name got a new, empty directory: its own path leads to
this directory, longer ones nowhere, and all others where they led before. -/
theorem resolves_iff (grafted : Grafted ns ns' root d k v) (forest : ns.Forest root)
    (reaches : ns.Reaches root p d) :
    ns'.Resolves root q u ↔
      q = p ++ [k] ∧ u = v ∨ ¬ p ++ [k] <+: q ∧ ns.Resolves root q u := by
  rcases List.eq_nil_or_concat' q with rfl | ⟨q, k₁, rfl⟩
  · simp [not_resolves_nil]
  rw [resolves_snoc, resolves_snoc]
  refine grafted.extend forest reaches (grafted.reaches_iff forest reaches) ?_ ?_
    fun d₁ old new => by rw [grafted.child_of_ne old new]
  · rw [grafted.empty]
    simp
  · rintro rfl
    rw [grafted.child_self, Option.some.injEq, eq_comm]

/-- Where the name was not there, all paths lead where they led before. -/
theorem keeps (grafted : Grafted ns ns' root d k v) (forest : ns.Forest root)
    (reaches : ns.Reaches root p d) (missing : ns.child d k = none)
    (resolves : ns.Resolves root q u) : ns'.Resolves root q u := by
  refine (grafted.resolves_iff forest reaches).mpr (.inr ⟨fun inside => ?_, resolves⟩)
  obtain ⟨x, found⟩ := resolves.exists_child inside reaches
  rw [missing] at found
  contradiction

/-- Wherever the new name is, paths that led somewhere still do. -/
theorem reaches_mono (grafted : Grafted ns ns' root d k v) (missing : ns.child d k = none)
    (reaches : ns.Reaches root q u) : ns'.Reaches root q u := by
  induction q using List.reverseRecOn generalizing u with
  | nil => exact reaches_nil.mpr ((grafted.start u).mpr (reaches_nil.mp reaches))
  | append_singleton q k₁ ih =>
    obtain ⟨d₁, reaches', step⟩ := reaches_snoc.mp reaches
    have old : d₁ ≠ v := by
      rintro rfl
      exact grafted.new q reaches'
    have other : ¬ (d₁ = d ∧ k₁ = k) := by
      rintro ⟨rfl, rfl⟩
      obtain ⟨x, found, -⟩ := step
      rw [missing] at found
      contradiction
    exact reaches_snoc.mpr ⟨d₁, ih reaches', (grafted.step_of_ne old other).mpr step⟩

theorem resolves_mono (grafted : Grafted ns ns' root d k v) (missing : ns.child d k = none)
    (resolves : ns.Resolves root q u) : ns'.Resolves root q u := by
  obtain ⟨q, k₁, d₁, rfl, reaches, found⟩ := resolves
  have old : d₁ ≠ v := by
    rintro rfl
    exact grafted.new q reaches
  have other : ¬ (d₁ = d ∧ k₁ = k) := by
    rintro ⟨rfl, rfl⟩
    rw [missing] at found
    contradiction
  exact resolves_snoc.mpr ⟨d₁, grafted.reaches_mono missing reaches,
    (grafted.child_of_ne old other).trans found⟩

/-- A path leads where it led before, or to the new directory. -/
theorem reaches_cases (grafted : Grafted ns ns' root d k v) (reaches : ns'.Reaches root q u) :
    ns.Reaches root q u ∨ u = v ∧ ∃ p, q = p ++ [k] ∧ ns.Reaches root p d := by
  induction q using List.reverseRecOn generalizing u with
  | nil => exact .inl (reaches_nil.mpr ((grafted.start u).mp (reaches_nil.mp reaches)))
  | append_singleton q k₁ ih =>
    obtain ⟨d₁, reaches', step⟩ := reaches_snoc.mp reaches
    rcases ih reaches' with old | ⟨rfl, -⟩
    · by_cases here : d₁ = d ∧ k₁ = k
      · obtain ⟨rfl, rfl⟩ := here
        exact .inr ⟨grafted.step_self.mp step, q, rfl, old⟩
      · have other : d₁ ≠ v := by
          rintro rfl
          exact grafted.new q old
        exact .inl (reaches_snoc.mpr ⟨d₁, old, (grafted.step_of_ne other here).mp step⟩)
    · obtain ⟨x, found, -⟩ := step
      rw [grafted.empty] at found
      contradiction

/-- A path resolves to what it resolved to before, or to the new directory. -/
theorem resolves_cases (grafted : Grafted ns ns' root d k v) (resolves : ns'.Resolves root q u) :
    ns.Resolves root q u ∨ u = v ∧ ∃ p, q = p ++ [k] ∧ ns.Reaches root p d := by
  obtain ⟨q, k₁, d₁, rfl, reaches, found⟩ := resolves
  rcases grafted.reaches_cases reaches with old | ⟨rfl, -⟩
  · by_cases here : d₁ = d ∧ k₁ = k
    · obtain ⟨rfl, rfl⟩ := here
      exact .inr ⟨Option.some.inj (found.symm.trans grafted.child_self), q, rfl, old⟩
    · have other : d₁ ≠ v := by
        rintro rfl
        exact grafted.new q old
      rw [grafted.child_of_ne other here] at found
      exact .inl (resolves_snoc.mpr ⟨d₁, old, found⟩)
  · rw [grafted.empty] at found
    contradiction

/-- The path to the new directory. -/
theorem reaches_new (grafted : Grafted ns ns' root d k v) (forest : ns.Forest root)
    (reaches : ns.Reaches root p d) : ns'.Reaches root (p ++ [k]) v :=
  (grafted.reaches_iff forest reaches).mpr (.inl ⟨rfl, rfl⟩)

end Grafted

/-! ## A mount -/

/-- The root `r` is mounted on the directory `v` that the path `t` resolves to. What is `inside`
the mount is bare, and not yet in the tree. -/
structure Mounted (ns ns' : Namespace ν κ) (root : ν) (t : List κ) (v r : ν) (inside : ν → Prop) :
    Prop where
  entry : ∀ d k, ns'.entry d k = ns.entry d k
  isDir : ∀ x, ns'.isDir x ↔ ns.isDir x
  cover_self : ns'.cover v = some r
  cover_of_ne : ∀ {x}, x ≠ v → ns'.cover x = ns.cover x
  resolves : ns.Resolves root t v
  dir : ns.isDir v
  root_dir : ns.isDir r
  root_inside : inside r
  outside : ¬ inside v
  closed : ∀ {d k x}, inside d → ns.entry d k = some x → inside x
  bare : ∀ {x}, inside x → ns.cover x = none

namespace Mounted

variable {t : List κ} {inside : ν → Prop}

/-- Chains that do not meet `v` are as before. -/
theorem settles_of_away (mounted : Mounted ns ns' root t v r inside) (settles : ns.Settles x u)
    (away : ¬ Relation.ReflTransGen ns.CoveredBy x v) : ns'.Settles x u := by
  obtain ⟨chain, ends⟩ := settles
  induction chain using Relation.ReflTransGen.head_induction_on with
  | refl =>
    have ne : u ≠ v := by
      rintro rfl
      exact away .refl
    exact settles_self ((mounted.cover_of_ne ne).trans ends)
  | @head a b step chain ih =>
    have ne : a ≠ v := by
      rintro rfl
      exact away .refl
    have same : ns'.cover a = some b := (mounted.cover_of_ne ne).trans step
    exact (ih fun chain' => away (.head step chain')).head same

/-- Inside of the mount there are no chains. -/
theorem settles_inside (mounted : Mounted ns ns' root t v r inside) (here : inside x) :
    ns'.Settles x u ↔ u = x := by
  have ne : x ≠ v := by
    rintro rfl
    exact mounted.outside here
  exact settles_iff_of_free ((mounted.cover_of_ne ne).trans (mounted.bare here))

/-- From `v` paths go on with `r`. -/
theorem settles_mount (mounted : Mounted ns ns' root t v r inside) :
    ns'.Settles v u ↔ u = r :=
  (settles_iff_of_cover mounted.cover_self).trans (mounted.settles_inside mounted.root_inside)

theorem child_inside (mounted : Mounted ns ns' root t v r inside) (here : inside d)
    (found : ns'.child d k = some x) : inside x := by
  obtain ⟨y, entry, rfl⟩ := child_eq_some.mp found
  rw [mounted.entry] at entry
  have inside' := mounted.closed here entry
  have ne : y ≠ v := by
    rintro rfl
    exact mounted.outside inside'
  rwa [mounted.cover_of_ne ne, mounted.bare inside']

/-- Other names find what they found. -/
theorem child_of_ne (mounted : Mounted ns ns' root t v r inside) (forest : ns.Forest root)
    (found : ns.child d k = some v) (other : ¬ (d' = d ∧ k' = k)) :
    ns'.child d' k' = ns.child d' k' := by
  rw [child, child, mounted.entry]
  cases entry' : ns.entry d' k' with
  | none => rfl
  | some x =>
    have ne : x ≠ v := by
      rintro rfl
      obtain ⟨y, entry, covers⟩ := child_eq_some.mp found
      cases covered : ns.cover y with
      | none =>
        rw [covered, Option.getD_none] at covers
        subst covers
        exact other (forest.one_parent entry' entry)
      | some z =>
        rw [covered, Option.getD_some] at covers
        subst covers
        exact forest.apart entry' covered
    rw [Option.map_some, Option.map_some, mounted.cover_of_ne ne]

/-- The name finds `r`, when nothing was mounted on its entry before. -/
theorem child_first (mounted : Mounted ns ns' root t v r inside) (first : ns.entry d k = some v) :
    ns'.child d k = some r := by
  rw [child, mounted.entry, first, Option.map_some, mounted.cover_self, Option.getD_some]

/-- Else it finds `v` as before. -/
theorem child_again (mounted : Mounted ns ns' root t v r inside) (found : ns.child d k = some v)
    (again : ns.entry d k ≠ some v) : ns'.child d k = some v := by
  obtain ⟨y, entry, covers⟩ := child_eq_some.mp found
  have ne : y ≠ v := by
    rintro rfl
    exact again entry
  rw [child, mounted.entry, entry, Option.map_some, mounted.cover_of_ne ne, covers]

/-- Inside of the mount names find what they found. -/
theorem child_of_inside (mounted : Mounted ns ns' root t v r inside) (here : inside d) :
    ns'.child d k = ns.child d k := by
  rw [child, child, mounted.entry]
  cases entry : ns.entry d k with
  | none => rfl
  | some x =>
    have ne : x ≠ v := by
      rintro rfl
      exact mounted.outside (mounted.closed here entry)
    rw [Option.map_some, Option.map_some, mounted.cover_of_ne ne]

/-- From the name on, paths go on with `r` in both cases. -/
theorem step_self (mounted : Mounted ns ns' root t v r inside) (found : ns.child d k = some v) :
    ns'.Step d k u ↔ u = r := by
  by_cases first : ns.entry d k = some v
  · simp [Step, mounted.child_first first, mounted.isDir, mounted.root_dir,
      mounted.settles_inside mounted.root_inside]
  · simp [Step, mounted.child_again found first, mounted.isDir, mounted.dir, mounted.settles_mount]

section Paths

variable (mounted : Mounted ns ns' root t v r inside) (forest : ns.Forest root)
  (settles : ∀ x, ∃ u, ns.Settles x u)
include mounted forest settles

theorem start_iff : ns'.Settles root u ↔ ns.Settles root u := by
  obtain ⟨p, k, d, rfl, -, found⟩ := mounted.resolves
  obtain ⟨w, ends⟩ := settles root
  have ends' := mounted.settles_of_away ends (forest.away_of_root settles found)
  constructor
  · intro h
    rwa [h.unique ends']
  · intro h
    rwa [h.unique ends]

theorem step_of_ne (found : ns.child d k = some v) (other : ¬ (d' = d ∧ k' = k)) :
    ns'.Step d' k' u ↔ ns.Step d' k' u := by
  simp only [Step, mounted.child_of_ne forest found other, mounted.isDir]
  refine exists_congr fun x => and_congr_right fun found' => and_congr_right fun _ => ?_
  obtain ⟨w, ends⟩ := settles x
  have ends' := mounted.settles_of_away ends (forest.away_of_ne settles found found' other)
  constructor
  · intro h
    rwa [h.unique ends']
  · intro h
    rwa [h.unique ends]

/-- Paths lead into the mount, when `t` is on them, and else where they led before. -/
theorem reaches_cases (reaches : ns'.Reaches root q u) :
    t <+: q ∧ inside u ∨ ¬ t <+: q ∧ ns.Reaches root q u := by
  obtain ⟨p, k, d, rfl, front, found⟩ := mounted.resolves
  induction q using List.reverseRecOn generalizing u with
  | nil =>
    have start := (mounted.start_iff forest settles).mp (reaches_nil.mp reaches)
    exact .inr ⟨by simp, reaches_nil.mpr start⟩
  | append_singleton q k₁ ih =>
    obtain ⟨d₁, reaches', step⟩ := reaches_snoc.mp reaches
    rcases ih reaches' with ⟨below, here⟩ | ⟨away, old⟩
    · obtain ⟨x, found₁, -, settles₁⟩ := step
      have inside' := mounted.child_inside here found₁
      rw [(mounted.settles_inside inside').mp settles₁]
      exact .inl ⟨below.trans (List.prefix_append _ _), inside'⟩
    · by_cases same : d₁ = d ∧ k₁ = k
      · obtain ⟨rfl, rfl⟩ := same
        rw [(mounted.step_self found).mp step, forest.path_unique old front]
        exact .inl ⟨List.prefix_rfl, mounted.root_inside⟩
      · refine .inr ⟨fun below => ?_, reaches_snoc.mpr ⟨d₁, old,
          (mounted.step_of_ne forest settles found same).mp step⟩⟩
        rcases List.prefix_concat_iff.mp below with whole | below
        · obtain ⟨rfl, rfl⟩ := List.append_singleton_inj.mp whole
          exact same ⟨old.unique front, rfl⟩
        · exact away below

/-- Paths that do not lead through `t` lead where they led before. -/
theorem reaches_outside (away : ¬ t <+: q) (reaches : ns.Reaches root q u) :
    ns'.Reaches root q u := by
  obtain ⟨p, k, d, rfl, front, found⟩ := mounted.resolves
  induction q using List.reverseRecOn generalizing u with
  | nil => exact reaches_nil.mpr ((mounted.start_iff forest settles).mpr (reaches_nil.mp reaches))
  | append_singleton q k₁ ih =>
    obtain ⟨d₁, reaches', step⟩ := reaches_snoc.mp reaches
    have away' : ¬ p ++ [k] <+: q := fun below => away (below.trans (List.prefix_append _ _))
    refine reaches_snoc.mpr ⟨d₁, ih reaches' away',
      (mounted.step_of_ne forest settles found fun same => ?_).mpr step⟩
    obtain ⟨rfl, rfl⟩ := same
    rw [forest.path_unique reaches' front] at away
    exact away List.prefix_rfl

/-- What `t` resolves to now: the root of the mount, if it is the first on the entry. -/
theorem resolves_self (front : ns.Reaches root p d) (whole : t = p ++ [k]) :
    ns'.Resolves root t u ↔ ns'.child d k = some u := by
  have away : ¬ t <+: p := by
    intro below
    have le := below.length_le
    rw [whole, List.length_append, List.length_singleton] at le
    omega
  have front' := mounted.reaches_outside forest settles away front
  rw [whole, resolves_snoc]
  constructor
  · rintro ⟨d₁, reaches, found₁⟩
    rwa [← reaches.unique front']
  · exact fun found' => ⟨d, front', found'⟩

/-- Paths that do not lead through `t` resolve as before. -/
theorem resolves_outside (away : ¬ t <+: q) (resolves : ns.Resolves root q u) :
    ns'.Resolves root q u := by
  obtain ⟨p, k, d, rfl, front, found⟩ := mounted.resolves
  obtain ⟨init, last, d₁, rfl, reaches, found₁⟩ := resolves
  have away' : ¬ p ++ [k] <+: init := fun below => away (below.trans (List.prefix_append _ _))
  have other : ¬ (d₁ = d ∧ last = k) := by
    rintro ⟨rfl, rfl⟩
    rw [forest.path_unique reaches front] at away
    exact away List.prefix_rfl
  refine resolves_snoc.mpr ⟨d₁, mounted.reaches_outside forest settles away' reaches, ?_⟩
  exact (mounted.child_of_ne forest found other).trans found₁

/-- Below `t` paths lead where they led from `r` on. -/
theorem reaches_below (reaches : ns.Reaches r q u) : ns'.Reaches root (t ++ q) u ∧ inside u := by
  induction q using List.reverseRecOn generalizing u with
  | nil =>
    obtain ⟨p, k, d, rfl, front, found⟩ := mounted.resolves
    have away : ¬ p ++ [k] <+: p := by
      intro below
      have le := below.length_le
      rw [List.length_append, List.length_singleton] at le
      omega
    have free := mounted.bare mounted.root_inside
    rw [(settles_iff_of_free free).mp (reaches_nil.mp reaches), List.append_nil]
    refine ⟨reaches_snoc.mpr ⟨d, ?_, (mounted.step_self found).mpr rfl⟩, mounted.root_inside⟩
    exact mounted.reaches_outside forest settles away front
  | append_singleton q k₁ ih =>
    obtain ⟨d₁, reaches', x, found, dir, ends⟩ := reaches_snoc.mp reaches
    obtain ⟨front, here⟩ := ih reaches'
    have found' := (mounted.child_of_inside here).trans found
    have inside' := mounted.child_inside here found'
    rw [(settles_iff_of_free (mounted.bare inside')).mp ends, ← List.append_assoc]
    refine ⟨reaches_snoc.mpr ⟨d₁, front, x, found', (mounted.isDir x).mpr dir, ?_⟩, inside'⟩
    exact (mounted.settles_inside inside').mpr rfl

/-- Below `t` paths resolve as from `r` on. -/
theorem resolves_below (resolves : ns.Resolves r q x) : ns'.Resolves root (t ++ q) x := by
  obtain ⟨init, last, d, rfl, reaches, found⟩ := resolves
  obtain ⟨front, here⟩ := mounted.reaches_below forest settles reaches
  rw [← List.append_assoc]
  exact resolves_snoc.mpr ⟨d, front, (mounted.child_of_inside here).trans found⟩

/-- **What paths resolve to** after an empty root was mounted: nothing below `t`, and what they
resolved to before, when they do not lead through `t`. -/
theorem resolves_iff (empty : ∀ d k, inside d → ns'.child d k = none) (other : q ≠ t) :
    ns'.Resolves root q u ↔ ¬ t <+: q ∧ ns.Resolves root q u := by
  obtain ⟨p, k, d, rfl, front, found⟩ := mounted.resolves
  rcases List.eq_nil_or_concat' q with rfl | ⟨q, k₁, rfl⟩
  · simp [not_resolves_nil]
  rw [resolves_snoc, resolves_snoc]
  constructor
  · rintro ⟨d₁, reaches, found₁⟩
    rcases mounted.reaches_cases forest settles reaches with ⟨-, here⟩ | ⟨away, old⟩
    · rw [empty d₁ k₁ here] at found₁
      contradiction
    · have same : ¬ (d₁ = d ∧ k₁ = k) := by
        rintro ⟨rfl, rfl⟩
        exact other (by rw [forest.path_unique old front])
      refine ⟨fun below => ?_, d₁, old, ?_⟩
      · rcases List.prefix_concat_iff.mp below with whole | below
        · exact other whole.symm
        · exact away below
      · rwa [mounted.child_of_ne forest found same] at found₁
  · rintro ⟨away, d₁, reaches, found₁⟩
    have away' : ¬ p ++ [k] <+: q := fun below => away (below.trans (List.prefix_append _ _))
    have same : ¬ (d₁ = d ∧ k₁ = k) := by
      rintro ⟨rfl, rfl⟩
      exact other (by rw [forest.path_unique reaches front])
    refine ⟨d₁, mounted.reaches_outside forest settles away' reaches, ?_⟩
    rwa [mounted.child_of_ne forest found same]

variable (free : ns.cover v = none) (empty : ∀ k, ns.child v k = none)
include free empty

/-- A mount on an empty directory takes no directory away. -/
theorem reaches_still (reaches : ns.Reaches root q u) : ∃ w, ns'.Reaches root q w := by
  by_cases below : t <+: q
  · obtain ⟨rfl, -⟩ := mounted.resolves.eq_of_empty mounted.dir free empty reaches below
    have start := reaches_nil.mpr (settles_self (mounted.bare mounted.root_inside))
    obtain ⟨reaches', -⟩ := mounted.reaches_below forest settles start
    rw [List.append_nil] at reaches'
    exact ⟨r, reaches'⟩
  · exact ⟨u, mounted.reaches_outside forest settles below reaches⟩

/-- All other paths resolve to what they did, when the new root is empty as well. -/
theorem resolves_still (empty' : ∀ d k, inside d → ns'.child d k = none) (other : q ≠ t) :
    ns'.Resolves root q u ↔ ns.Resolves root q u := by
  rw [mounted.resolves_iff forest settles empty' other]
  refine and_iff_right_of_imp fun resolves below => ?_
  obtain ⟨init, last, d, rfl, reaches, found⟩ := resolves
  have front := (List.prefix_concat_iff.mp below).resolve_left (Ne.symm other)
  obtain ⟨-, rfl⟩ := mounted.resolves.eq_of_empty mounted.dir free empty reaches front
  rw [empty] at found
  contradiction

end Paths

end Mounted

/-! ## A directory that becomes a leaf -/

/-- The empty directory `v` is no directory any more. -/
structure Pruned (ns ns' : Namespace ν κ) (v : ν) : Prop where
  child : ∀ d k, ns'.child d k = ns.child d k
  cover : ∀ x, ns'.cover x = ns.cover x
  isDir : ∀ x, x ≠ v → (ns'.isDir x ↔ ns.isDir x)
  empty : ∀ k, ns.child v k = none
  free : ns.cover v = none

namespace Pruned

theorem step_iff (pruned : Pruned ns ns' v) (other : u ≠ v) : ns'.Step d k u ↔ ns.Step d k u := by
  simp only [Step, pruned.child, settles_congr pruned.cover]
  refine exists_congr fun x => and_congr_right fun _ => and_congr_left fun settles => ?_
  apply pruned.isDir
  rintro rfl
  exact other ((settles_iff_of_free pruned.free).mp settles)

/-- All other directories are reached as before. -/
theorem reaches_iff (pruned : Pruned ns ns' v) (other : u ≠ v) :
    ns'.Reaches root q u ↔ ns.Reaches root q u := by
  induction q using List.reverseRecOn generalizing u with
  | nil => rw [reaches_nil, reaches_nil, settles_congr pruned.cover]
  | append_singleton q k ih =>
    rw [reaches_snoc, reaches_snoc]
    refine exists_congr fun d => ?_
    rw [pruned.step_iff other]
    refine and_congr_left fun step => ih ?_
    -- no component leads on from the leaf
    rintro rfl
    obtain ⟨x, found, -⟩ := step
    rw [pruned.empty] at found
    contradiction

/-- **Every path resolves as before.** -/
theorem resolves_iff (pruned : Pruned ns ns' v) : ns'.Resolves root q u ↔ ns.Resolves root q u := by
  rcases List.eq_nil_or_concat' q with rfl | ⟨q, k, rfl⟩
  · simp [not_resolves_nil]
  rw [resolves_snoc, resolves_snoc]
  refine exists_congr fun d => ?_
  rw [pruned.child]
  refine and_congr_left fun found => pruned.reaches_iff ?_
  rintro rfl
  rw [pruned.empty] at found
  contradiction

end Pruned

/-! ## Fewer names -/

/-- Some names are gone, and some directories are none any more. -/
structure Shrunk (ns ns' : Namespace ν κ) : Prop where
  child : ∀ {d k x}, ns'.child d k = some x → ns.child d k = some x
  cover : ∀ x, ns'.cover x = ns.cover x
  isDir : ∀ {x}, ns'.isDir x → ns.isDir x

namespace Shrunk

/-- What is still reached was reached before. -/
theorem reaches (shrunk : Shrunk ns ns') (reaches : ns'.Reaches root q u) :
    ns.Reaches root q u := by
  induction q using List.reverseRecOn generalizing u with
  | nil => exact reaches_nil.mpr ((settles_congr shrunk.cover).mp (reaches_nil.mp reaches))
  | append_singleton q k ih =>
    obtain ⟨d, reaches', x, found, dir, settles⟩ := reaches_snoc.mp reaches
    exact reaches_snoc.mpr ⟨d, ih reaches', x, shrunk.child found, shrunk.isDir dir,
      (settles_congr shrunk.cover).mp settles⟩

theorem resolves (shrunk : Shrunk ns ns') (resolves : ns'.Resolves root q u) :
    ns.Resolves root q u := by
  obtain ⟨q, k, d, rfl, reaches, found⟩ := resolves
  exact resolves_snoc.mpr ⟨d, shrunk.reaches reaches, shrunk.child found⟩

end Shrunk

/-! ## Namespaces that agree -/

/-- The two agree on what is `inside`, and nothing there leads out of it. -/
structure Agree (ns ns' : Namespace ν κ) (inside : ν → Prop) : Prop where
  entry : ∀ {d}, inside d → ∀ k, ns'.entry d k = ns.entry d k
  cover : ∀ {x}, inside x → ns'.cover x = ns.cover x
  isDir : ∀ {x}, inside x → ns.isDir x → ns'.isDir x
  entry_inside : ∀ {d k x}, inside d → ns.entry d k = some x → inside x
  cover_inside : ∀ {x y}, inside x → ns.cover x = some y → inside y

namespace Agree

variable {inside : ν → Prop} (agree : Agree ns ns' inside)
include agree

theorem settles (here : inside x) (settles : ns.Settles x u) : ns'.Settles x u ∧ inside u := by
  obtain ⟨chain, ends⟩ := settles
  induction chain using Relation.ReflTransGen.head_induction_on with
  | refl => exact ⟨settles_self ((agree.cover here).trans ends), here⟩
  | head step _ ih =>
    obtain ⟨settles, inside⟩ := ih (agree.cover_inside here step)
    exact ⟨settles.head ((agree.cover here).trans step), inside⟩

theorem child (here : inside d) (found : ns.child d k = some v) :
    ns'.child d k = some v ∧ inside v := by
  obtain ⟨x, entry, rfl⟩ := child_eq_some.mp found
  have inside := agree.entry_inside here entry
  refine ⟨child_eq_some.mpr ⟨x, (agree.entry here k).trans entry, ?_⟩, ?_⟩
  · rw [agree.cover inside]
  · cases covered : ns.cover x with
    | none => exact inside
    | some y => exact agree.cover_inside inside covered

theorem reaches (here : inside root) (reaches : ns.Reaches root q d) :
    ns'.Reaches root q d ∧ inside d := by
  induction q using List.reverseRecOn generalizing d with
  | nil =>
    obtain ⟨settles, inside⟩ := agree.settles here (reaches_nil.mp reaches)
    exact ⟨reaches_nil.mpr settles, inside⟩
  | append_singleton q k ih =>
    obtain ⟨d', front, x, found, dir, settles⟩ := reaches_snoc.mp reaches
    obtain ⟨front, inside⟩ := ih front
    obtain ⟨found, inside⟩ := agree.child inside found
    obtain ⟨settles, inside'⟩ := agree.settles inside settles
    exact ⟨reaches_snoc.mpr ⟨d', front, x, found, agree.isDir inside dir, settles⟩, inside'⟩

/-- **Paths from inside lead where they led.** -/
theorem resolves (here : inside root) (resolves : ns.Resolves root q v) :
    ns'.Resolves root q v := by
  obtain ⟨init, last, d, rfl, front, found⟩ := resolves
  obtain ⟨front, inside⟩ := agree.reaches here front
  exact ⟨init, last, d, rfl, front, (agree.child inside found).1⟩

end Agree

end Namespace

end BareMetal.CS
