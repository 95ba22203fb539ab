import BareMetal.Vfs.Create

/-!
# What creation leaves alone

Whatever becomes of a path, the create loop of `lookup_path` changes the vnodes by one
new directory after the other. `Adds` is the relation between vnodes before and after any
number of these changes, and what each of them keeps, they keep.

## Main results

* `Tree.createLoop_adds` — the create loop only adds directories
* `Adds.tree`, `Adds.extend`, `Adds.distinct` — what this keeps
* `Adds.resolves_mono`, `Adds.resolves_old` — where paths lead
-/

namespace BareMetal.Vfs

open CS Strings

variable {fs fs' : Fs} {s s' : State} {root d v r : ℕ} {node : Vnode} {k : List UInt8}
  {names p q : List (List UInt8)} {target target' : Option ℕ} {result : ℤ}

/-- One new directory, in one of the vnodes from `r` on. -/
inductive AddsDir (r : ℕ) (fs : Fs) : Fs → Prop
  | intro {d : ℕ} {node : Vnode} {k : List UInt8} (inside : r ≤ d)
      (here : fs.nodes[d]? = some node) (dir : node.component.type = .dir)
      (missing : fs.names.child d k = none) (proper : IsName k)
      (room : node.component.len < tmpfsMaxEntry) : AddsDir r fs (fs.addDir d node k)

/-- One new directory under this name. -/
inductive AddsAt (d : ℕ) (k : List UInt8) (fs : Fs) : Fs → Prop
  | intro {node : Vnode} (here : fs.nodes[d]? = some node) (dir : node.component.type = .dir)
      (missing : fs.names.child d k = none) (proper : IsName k)
      (room : node.component.len < tmpfsMaxEntry) : AddsAt d k fs (fs.addDir d node k)

theorem AddsAt.addsDir (adds : AddsAt d k fs fs') (inside : r ≤ d) : AddsDir r fs fs' := by
  obtain ⟨here, dir, missing, proper, room⟩ := adds
  exact .intro inside here dir missing proper room

theorem AddsAt.length_lt (adds : AddsAt d k fs fs') : fs.nodes.length < fs'.nodes.length := by
  cases adds
  rw [Fs.length_addDir]
  exact Nat.lt_succ_self _

/-- New directories, one after the other. -/
abbrev Adds (r : ℕ) : Fs → Fs → Prop := Relation.ReflTransGen (AddsDir r)

/-! ## What is kept -/

/-- In each directory from `r` on the names of the entries are different. -/
def Fs.Distinct (fs : Fs) (r : ℕ) : Prop := ∀ ⦃d⦄, r ≤ d → ((fs.listing d).map fs.nameOf).Nodup

/-- The vnodes from `r` on have their entries among themselves. -/
def Fs.Closed (fs : Fs) (r : ℕ) : Prop := ∀ ⦃d v⦄, r ≤ d → v ∈ fs.listing d → r ≤ v

/-- The vnodes from `r` on have these functions, and nothing is mounted on them. -/
def Fs.Bare (fs : Fs) (r : ℕ) (kind : FsKind) : Prop :=
  ∀ ⦃v node⦄, r ≤ v → fs.nodes[v]? = some node → node.mount = none ∧ node.vOps = kind

theorem Fs.closed_zero (fs : Fs) : fs.Closed 0 := fun _ v _ _ => Nat.zero_le v

/-- The directory has no entry of this name, and no room for it. -/
def Fs.Full (fs : Fs) (d : ℕ) (k : List UInt8) : Prop :=
  fs.names.child d k = none ∧
    ∃ node, fs.nodes[d]? = some node ∧ tmpfsMaxEntry ≤ node.component.len

theorem Fs.exists_child (listed : some k ∈ (fs.listing d).map fs.nameOf) :
    ∃ x, fs.names.child d k = some x := by
  cases found : fs.names.child d k with
  | none => exact absurd listed (Fs.missing_name found)
  | some x => exact ⟨x, rfl⟩

/-- The last directory that was made is empty. -/
theorem Created.empty (created : Created s root p names v s')
    (nowhere : ∀ k x, ¬ s.fs.names.Resolves root (p ++ names ++ [k]) x) :
    s'.fs.listing v = [] := by
  rw [List.eq_nil_iff_forall_not_mem]
  intro x listed
  obtain ⟨node, there⟩ := created.tree.sound_nodes.exists_listed listed
  have name := Fs.nameOf_eq there
  obtain ⟨y, found⟩ := Fs.exists_child (name ▸ List.mem_map_of_mem (f := s'.fs.nameOf) listed)
  rcases created.only (Namespace.resolves_snoc.mpr ⟨v, created.reaches, found⟩) with old | inside
  · exact nowhere _ y old
  · have le := inside.length_le
    rw [List.length_append, List.length_singleton] at le
    omega

namespace AddsDir

theorem tree (adds : AddsDir r fs fs') (tree : Tree fs root) : Tree fs' root := by
  obtain ⟨-, here, dir, -, proper, -⟩ := adds
  exact tree.addDir here dir proper

theorem extend (adds : AddsDir r fs fs') : Extends fs fs' := by
  obtain ⟨-, here, dir, -, -, -⟩ := adds
  exact Fs.extends_addDir here dir

theorem others (adds : AddsDir r fs fs') : fs' = { fs with nodes := fs'.nodes } := by
  cases adds
  rfl

theorem length_le (adds : AddsDir r fs fs') : fs.nodes.length ≤ fs'.nodes.length := by
  cases adds
  rw [Fs.length_addDir]
  exact Nat.le_succ _

theorem cover (adds : AddsDir r fs fs') (x : ℕ) : fs'.names.cover x = fs.names.cover x := by
  obtain ⟨-, here, -, -, -, -⟩ := adds
  exact Fs.cover_addDir here x

theorem distinct (adds : AddsDir r fs fs') (tree : Tree fs root) (distinct : fs.Distinct r) :
    fs'.Distinct r := by
  obtain @⟨d, node, k, -, here, dir, missing, -, -⟩ := adds
  intro d' from_r
  exact Fs.nodup_addNode here tree.sound_nodes dir missing (distinct from_r)

theorem closed (adds : AddsDir r fs fs') (closed : fs.Closed r) : fs'.Closed r := by
  obtain ⟨inside, here, dir, -, -, -⟩ := adds
  intro d' v inside' listed
  rcases Fs.mem_listing_addDir here dir listed with old | ⟨rfl, -⟩
  · exact closed inside' old
  · exact inside.trans (List.getElem?_eq_some_iff.mp here).1.le

theorem bare {kind : FsKind} (adds : AddsDir r fs fs') (bare : fs.Bare r kind) :
    fs'.Bare r kind := by
  obtain ⟨inside, here, dir, -, -, -⟩ := adds
  intro v node' inside' there
  rcases Fs.addDir_cases here there with ⟨rfl, rfl⟩ | ⟨-, rfl⟩ | ⟨-, old⟩
  · exact ⟨(bare inside here).1, (bare inside here).2⟩
  · exact ⟨rfl, (bare inside here).2⟩
  · exact bare inside' old

section Paths

variable (adds : AddsDir r fs fs') (tree : Tree fs root)
include adds tree

/-- A path that leads to a directory still does. -/
theorem reaches_mono (reaches : fs.names.Reaches root q d) : fs'.names.Reaches root q d := by
  obtain ⟨-, here, dir, missing, -, -⟩ := adds
  exact (tree.grafted_addDir here dir missing).reaches_mono missing reaches

/-- A path that resolves still does. -/
theorem resolves_mono (resolves : fs.names.Resolves root q v) : fs'.names.Resolves root q v := by
  obtain ⟨-, here, dir, missing, -, -⟩ := adds
  exact (tree.grafted_addDir here dir missing).resolves_mono missing resolves

/-- A path that resolves to an old vnode did so before. -/
theorem resolves_old (old : v < fs.nodes.length) (resolves : fs'.names.Resolves root q v) :
    fs.names.Resolves root q v := by
  obtain ⟨-, here, dir, missing, -, -⟩ := adds
  rcases (tree.grafted_addDir here dir missing).resolves_cases resolves with before | ⟨rfl, -⟩
  · exact before
  · exact absurd old (Nat.lt_irrefl _)

/-- A full directory gets no entry. -/
theorem full (full : fs.Full d k) : fs'.Full d k := by
  obtain ⟨nothing, node, here, many⟩ := full
  obtain @⟨d', node', k', -, here', dir, missing, -, room⟩ := adds
  have other : d ≠ d' := by
    rintro rfl
    obtain rfl := Option.some.inj (here.symm.trans here')
    exact absurd room (Nat.not_lt.mpr many)
  have old := (List.getElem?_eq_some_iff.mp here).1
  have grafted := tree.grafted_addDir here' dir missing
  refine ⟨(grafted.child_of_ne old.ne fun same => other same.1).trans nothing, node, ?_, many⟩
  exact (Fs.addNode_of_ne old other).trans here

end Paths

end AddsDir

namespace Adds

theorem tree (adds : Adds r fs fs') (tree : Tree fs root) : Tree fs' root := by
  induction adds with
  | refl => exact tree
  | tail _ step ih => exact step.tree ih

theorem extend (adds : Adds r fs fs') : Extends fs fs' := by
  induction adds with
  | refl => exact Extends.refl fs
  | tail _ step ih => exact ih.trans step.extend

theorem others (adds : Adds r fs fs') : fs' = { fs with nodes := fs'.nodes } := by
  induction adds with
  | refl => rfl
  | tail _ step ih =>
    rw [step.others, ih]

theorem length_le (adds : Adds r fs fs') : fs.nodes.length ≤ fs'.nodes.length := by
  induction adds with
  | refl => exact Nat.le_refl _
  | tail _ step ih => exact ih.trans step.length_le

theorem cover (adds : Adds r fs fs') (x : ℕ) : fs'.names.cover x = fs.names.cover x := by
  induction adds with
  | refl => rfl
  | tail _ step ih => rw [step.cover, ih]

theorem distinct (adds : Adds r fs fs') (tree : Tree fs root) (distinct : fs.Distinct r) :
    fs'.Distinct r := by
  induction adds with
  | refl => exact distinct
  | tail before step ih => exact step.distinct (Adds.tree before tree) ih

theorem closed (adds : Adds r fs fs') (closed : fs.Closed r) : fs'.Closed r := by
  induction adds with
  | refl => exact closed
  | tail _ step ih => exact step.closed ih

theorem bare {kind : FsKind} (adds : Adds r fs fs') (bare : fs.Bare r kind) : fs'.Bare r kind := by
  induction adds with
  | refl => exact bare
  | tail _ step ih => exact step.bare ih

section Paths

variable (adds : Adds r fs fs') (tree : Tree fs root)
include adds tree

theorem resolves_mono (resolves : fs.names.Resolves root q v) : fs'.names.Resolves root q v := by
  induction adds with
  | refl => exact resolves
  | tail before step ih => exact step.resolves_mono (Adds.tree before tree) ih

theorem resolves_old (old : v < fs.nodes.length) (resolves : fs'.names.Resolves root q v) :
    fs.names.Resolves root q v := by
  induction adds with
  | refl => exact resolves
  | tail before step ih =>
    exact ih (step.resolves_old (Adds.tree before tree) (old.trans_le (length_le before)) resolves)

/-- Below a name that a full directory lacks no path resolves. -/
theorem not_resolves_full (reaches : fs.names.Reaches root p d) (full : fs.Full d k)
    (inside : p ++ [k] <+: q) : ¬ fs'.names.Resolves root q v := by
  have kept : fs'.names.Reaches root p d ∧ fs'.Full d k := by
    induction adds with
    | refl => exact ⟨reaches, full⟩
    | tail before step ih =>
      have tree' := Adds.tree before tree
      exact ⟨step.reaches_mono tree' ih.1, step.full tree' ih.2⟩
  intro resolves
  obtain ⟨x, found⟩ := resolves.exists_child inside kept.1
  rw [kept.2.1] at found
  contradiction

end Paths

end Adds

/-! ## The create loop -/

/-- A child of a vnode from `r` on. -/
theorem Fs.Closed.child (closed : fs.Closed r) (tree : Tree fs root) (inside : r ≤ d)
    (found : fs.names.child d k = some v) : r ≤ v := by
  obtain ⟨x, entry, rfl⟩ := Namespace.child_eq_some.mp found
  have listed := closed inside (Fs.entry_mem entry).1
  cases covered : fs.names.cover x with
  | none => exact listed
  | some y => exact listed.trans (tree.mount_valid covered).1.le

/-- Nothing is mounted on bare vnodes. -/
theorem Fs.Bare.cover_eq {kind : FsKind} (bare : fs.Bare r kind) (inside : r ≤ v) :
    fs.names.cover v = none := by
  cases here : fs.nodes[v]? with
  | none => simp [Fs.names, here]
  | some node => rw [Fs.cover_eq here, (bare inside here).1]

/-- The directories below a bare root. -/
theorem Fs.Bare.le_of_reaches {kind : FsKind} {p : List (List UInt8)} (bare : fs.Bare r kind)
    (closed : fs.Closed r) (tree : Tree fs root) (reaches : fs.names.Reaches r p d) : r ≤ d := by
  induction p using List.reverseRecOn generalizing d with
  | nil =>
    have settles := Namespace.reaches_nil.mp reaches
    rw [(Namespace.settles_iff_of_free (bare.cover_eq (Nat.le_refl r))).mp settles]
  | append_singleton p k ih =>
    obtain ⟨d', reaches', x, found, -, settles⟩ := Namespace.reaches_snoc.mp reaches
    have inside := closed.child tree (ih reaches') found
    rwa [(Namespace.settles_iff_of_free (bare.cover_eq inside)).mp settles]

/-- `tmpfs_mkdir` adds a directory, or nothing, and leaves a child in `*target` when it
returns 0. -/
theorem Tree.tmpfsMkdir_cases (tree : Tree fs root) (no_nul : 0 ∉ k) (nonempty : k ≠ [])
    (no_slash : slash ∉ k)
    (returns : tmpfsMkdir d target k fs = .ok (result, target', fs')) :
    result = 0 ∧ (∃ v, target' = some v ∧ fs.names.child d k = some v ∧ fs' = fs ∨
        target' = some fs.nodes.length ∧ fs.names.child d k = none ∧ AddsAt d k fs fs') ∨
      result = -1 ∧ target' = target ∧ fs' = fs := by
  cases here : fs.nodes[d]? with
  | none =>
    rw [tmpfsMkdir, Fs.node, here] at returns
    contradiction
  | some node =>
    by_cases dir : node.component.type = .dir
    · cases found : fs.names.child d k with
      | some v =>
        rw [tree.tmpfsMkdir_found here dir no_nul found] at returns
        cases returns
        exact .inl ⟨rfl, v, .inl ⟨rfl, rfl, rfl⟩⟩
      | none =>
        by_cases room : node.component.len < tmpfsMaxEntry
        · by_cases short : k.length < nameLen
          · rw [tree.tmpfsMkdir_new here dir no_nul found room short] at returns
            cases returns
            have adds := AddsAt.intro here dir found ⟨nonempty, no_nul, no_slash, short⟩ room
            exact .inl ⟨rfl, 0, .inr ⟨rfl, rfl, adds⟩⟩
          · rw [tree.tmpfsMkdir_long here dir no_nul found room (Nat.not_lt.mp short)] at returns
            contradiction
        · rw [tree.tmpfsMkdir_full here dir no_nul found (Nat.not_lt.mp room)] at returns
          cases returns
          exact .inr ⟨rfl, rfl, rfl⟩
    · rw [tmpfsMkdir_file here dir] at returns
      cases returns
      exact .inr ⟨rfl, rfl, rfl⟩

/-- A filesystem whose function `mkdir` makes directories. -/
def FsKind.Open (mounted : Bool) (kind : FsKind) : Prop :=
  kind = .tmpfs ∨ kind = .initramfs ∧ mounted = false

/-- So do the functions `mkdir` of all filesystems, which may also refuse. -/
theorem Tree.mkdir_cases (tree : Tree fs root) (no_nul : 0 ∉ k) (nonempty : k ≠ [])
    (no_slash : slash ∉ k) {kind : FsKind} {mounted : Bool}
    (returns : kind.mkdir mounted d target k fs = .ok (result, target', fs')) :
    result = 0 ∧ kind.Open mounted ∧
      (∃ v, target' = some v ∧ fs.names.child d k = some v ∧ fs' = fs ∨
        target' = some fs.nodes.length ∧ fs.names.child d k = none ∧ AddsAt d k fs fs') ∨
      result ≠ 0 ∧ target' = target ∧ fs' = fs := by
  have made (opens : kind.Open mounted)
      (returns : tmpfsMkdir d target k fs = .ok (result, target', fs')) :=
    (tree.tmpfsMkdir_cases no_nul nonempty no_slash returns).imp
      (fun done => And.intro done.1 (And.intro opens done.2))
      fun failed => And.intro (show result ≠ 0 by simp [failed.1]) failed.2
  cases kind with
  | tmpfs => exact made (.inl rfl) returns
  | initramfs =>
    change initramfsMkdir mounted d target k fs = _ at returns
    rw [initramfsMkdir] at returns
    split_ifs at returns with is_mounted
    · cases returns
      exact .inr ⟨by decide, rfl, rfl⟩
    · exact made (.inr ⟨rfl, Bool.eq_false_of_not_eq_true is_mounted⟩) returns
  | devfs =>
    cases returns
    exact .inr ⟨by decide, rfl, rfl⟩

/-- **The create loop only adds directories**, by induction on the names. -/
theorem Tree.createLoop_adds (tree : Tree s.fs root) (clean : ∀ k ∈ names, 0 ∉ k ∧ slash ∉ k)
    (closed : s.fs.Closed r) (inside : r ≤ d) (small : r ≤ s.fs.nodes.length)
    (returns : createLoop names d target s = .ok (result, target', s')) :
    result = 0 ∧ Adds r s.fs s'.fs ∧ s' = { s with fs := s'.fs } := by
  induction names generalizing d target s with
  | nil =>
    cases returns
    exact ⟨rfl, .refl, rfl⟩
  | cons k names ih =>
    have clean' := fun k' inside => clean k' (List.mem_cons_of_mem k inside)
    rw [createLoop] at returns
    by_cases empty : k = []
    · rw [if_pos empty] at returns
      exact ih tree clean' closed inside small returns
    rw [if_neg empty] at returns
    obtain ⟨dir, -, returns⟩ := outcome_bind_eq_ok.mp returns
    obtain ⟨⟨made, target₁, fs₁⟩, mkdir, returns⟩ := outcome_bind_eq_ok.mp returns
    obtain ⟨no_nul, no_slash⟩ := clean k List.mem_cons_self
    dsimp only at returns
    rcases tree.mkdir_cases no_nul empty no_slash mkdir with
      ⟨rfl, -, v, ⟨rfl, found, rfl⟩ | ⟨rfl, missing, adds_here⟩⟩ | ⟨failed, rfl, rfl⟩
    · exact ih tree clean' closed (closed.child tree inside found) small returns
    · have adds := adds_here.addsDir inside
      obtain ⟨zero, adds', others⟩ := ih (s := { s with fs := fs₁ }) (adds.tree tree) clean'
        (adds.closed closed) small (small.trans adds.length_le) returns
      exact ⟨zero, .head adds adds', others⟩
    · rw [if_neg failed] at returns
      exact ih tree clean' closed inside small returns

end BareMetal.Vfs
