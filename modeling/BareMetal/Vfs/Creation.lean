import BareMetal.Vfs.Changes
import BareMetal.Vfs.Names
import BareMetal.Vfs.Open

/-!
# What creation leaves

The create loop of `lookup_path` passes over a name that cannot be made and goes on with the
next one in the directory reached so far, and the call returns 0 all the same. `vfs_open` makes
a file of the vnode it has come to.

## Main results

* `Tree.createLoop_resolves_iff` — when the path leads somewhere afterwards
* `creation_iff` — when `vfs_mkdir` and `vfs_open` keep the law of creation
-/

namespace BareMetal.Vfs

open CS Strings

variable {fs fs' : Fs} {s s' : State} {root d u v : ℕ} {node : Vnode} {k pathname : List UInt8}
  {p q ks names : List (List UInt8)} {target target' : Option ℕ} {result : ℤ}

/-! ## Names on paths -/

theorem Tree.isName_of_child (tree : Tree fs root) (found : fs.names.child d k = some v) :
    IsName k := by
  obtain ⟨x, entry, -⟩ := Namespace.child_eq_some.mp found
  obtain ⟨listed, name⟩ := Fs.entry_mem entry
  exact tree.listed_name listed name

theorem Tree.isName_of_reaches (tree : Tree fs root) (reaches : fs.names.Reaches root q d) :
    ∀ k ∈ q, IsName k := by
  induction q using List.reverseRecOn generalizing d with
  | nil => simp
  | append_singleton q k ih =>
    obtain ⟨d', reaches', x, found, -⟩ := Namespace.reaches_snoc.mp reaches
    rw [List.forall_mem_append, List.forall_mem_singleton]
    exact ⟨ih reaches', tree.isName_of_child found⟩

/-- A path that resolves has proper names only. -/
theorem Tree.isName_of_resolves (tree : Tree fs root) (resolves : fs.names.Resolves root q v) :
    ∀ k ∈ q, IsName k := by
  obtain ⟨q, k, d, rfl, reaches, found⟩ := resolves
  rw [List.forall_mem_append, List.forall_mem_singleton]
  exact ⟨tree.isName_of_reaches reaches, tree.isName_of_child found⟩

/-! ## Where creation stops -/

/-- The paths to what the create loop makes lead through the directory where it starts, and go on
with some of the names. -/
theorem Tree.createLoop_resolves (tree : Tree s.fs root) (clean : ∀ k ∈ names, 0 ∉ k ∧ slash ∉ k)
    (returns : createLoop names d target s = .ok (result, target', s'))
    (resolves : s'.fs.names.Resolves root q v) : s.fs.names.Resolves root q v ∨
      ∃ p ks, q = p ++ ks ∧ s.fs.names.Reaches root p d ∧ ks.Sublist names := by
  induction names generalizing d target s with
  | nil =>
    cases returns
    exact .inl resolves
  | cons k names ih =>
    obtain ⟨⟨no_nul, no_slash⟩, clean'⟩ := List.forall_mem_cons.mp clean
    -- a name that is skipped is not one of those below
    have skip (more : s.fs.names.Resolves root q v ∨
        ∃ p ks, q = p ++ ks ∧ s.fs.names.Reaches root p d ∧ ks.Sublist names) :=
      more.imp_right fun ⟨p, ks, whole, reaches, some_names⟩ =>
        show ∃ p ks, q = p ++ ks ∧ s.fs.names.Reaches root p d ∧ ks.Sublist (k :: names) from
          ⟨p, ks, whole, reaches, some_names.cons k⟩
    rw [createLoop] at returns
    by_cases empty : k = []
    · rw [if_pos empty] at returns
      exact skip (ih tree clean' returns)
    rw [if_neg empty] at returns
    obtain ⟨dir, -, returns⟩ := outcome_bind_eq_ok.mp returns
    obtain ⟨⟨made, target₁, fs₁⟩, mkdir, returns⟩ := outcome_bind_eq_ok.mp returns
    dsimp only at returns
    rcases tree.mkdir_cases no_nul empty no_slash mkdir with
      ⟨rfl, -, v', ⟨rfl, found, rfl⟩ | ⟨rfl, missing, adds⟩⟩ | ⟨failed, rfl, rfl⟩
    · rcases ih tree clean' returns with old | ⟨p, ks, rfl, reaches, some_names⟩
      · exact .inl old
      · obtain ⟨p, rfl, reaches'⟩ :=
          tree.forest.reaches_child tree.exists_settles found reaches
        exact .inr ⟨p, k :: ks, by simp, reaches', some_names.cons_cons k⟩
    · -- a new directory, to which no old path leads
      obtain ⟨here, is_dir, -, proper, -⟩ := adds
      have grafted := tree.grafted_addDir here is_dir missing
      rcases ih (s := { s with fs := s.fs.addDir d _ k }) (tree.addDir here is_dir proper) clean'
        returns with old | ⟨p, ks, rfl, reaches, some_names⟩
      · rcases grafted.resolves_cases old with old | ⟨-, p, rfl, reaches⟩
        · exact .inl old
        · exact .inr ⟨p, [k], rfl, reaches, (List.nil_sublist names).cons_cons k⟩
      · rcases grafted.reaches_cases reaches with old | ⟨-, p, rfl, reaches'⟩
        · exact absurd old (grafted.new p)
        · exact .inr ⟨p, k :: ks, by simp, reaches', some_names.cons_cons k⟩
    · rw [if_neg failed] at returns
      exact skip (ih tree clean' returns)

/-- **Where creation stops**, a path that led nowhere still does: at a directory in which nothing
can be made, a regular file, an entry on which something is mounted, or a full directory. -/
theorem Tree.createLoop_stops (tree : Tree s.fs root)
    (proper : ∀ k ∈ ks, k ≠ [] ∧ 0 ∉ k ∧ slash ∉ k) (reaches : s.fs.names.Reaches root p d)
    (dir : s.fs.names.isDir d) (nowhere : ∀ v, ¬ s.fs.names.Resolves root (p ++ ks) v)
    (stops : ¬ s.Creatable d ks)
    (returns : createLoop ks d target s = .ok (result, target', s')) :
    ∀ v, ¬ s'.fs.names.Resolves root (p ++ ks) v := by
  induction ks generalizing d p target with
  | nil => exact absurd trivial stops
  | cons k ks ih =>
    have names : p ++ [k] ++ ks = p ++ k :: ks := by simp
    obtain ⟨⟨nonempty, no_nul, -⟩, proper'⟩ := List.forall_mem_cons.mp proper
    have clean : ∀ k' ∈ k :: ks, 0 ∉ k' ∧ slash ∉ k' := fun k' inside => (proper k' inside).2
    have valid := tree.reaches_valid reaches
    have here := List.getElem?_eq_getElem valid
    have is_dir := (Fs.isDir_iff here).mp dir
    by_cases opens : s.fs.nodes[d].vOps.Open s.mounted
    · have writable : s.Writable d := ⟨_, here, opens⟩
      cases found : s.fs.names.child d k with
      | some x =>
        have there := List.getElem?_eq_getElem (tree.child_valid found)
        rw [createLoop, if_neg nonempty, Fs.node_eq_ok.mpr here, outcome_bind_ok,
          mkdir_of_open opens, tree.tmpfsMkdir_found here is_dir no_nul found] at returns
        change createLoop ks x (some x) s = _ at returns
        by_cases dir' : s.fs.names.isDir x
        · by_cases free : s.fs.names.cover x = none
          · have reaches' : s.fs.names.Reaches root (p ++ [k]) x :=
              Namespace.reaches_snoc.mpr ⟨d, reaches, x, found, dir', Namespace.settles_self free⟩
            rw [← names] at nowhere ⊢
            refine ih proper' reaches' dir' nowhere (fun creatable => stops ⟨writable, ?_⟩) returns
            rw [found]
            exact ⟨dir', free, creatable⟩
          · -- no path leads to where the loop goes on
            intro v resolves
            rcases tree.createLoop_resolves (List.forall_mem_cons.mp clean).2 returns resolves with
              old | ⟨p', _, -, reaches', -⟩
            · exact nowhere v old
            · exact free reaches'.cover_eq
        · rw [createLoop_fails there fun _ _ _ =>
            mkdir_of_file there (dir' ∘ (Fs.isDir_iff there).mpr)] at returns
          cases returns
          exact nowhere
      | none =>
        -- nothing else stops creation at a name that is missing
        have full : s.fs.Full d k := by
          refine ⟨found, _, here, ?_⟩
          by_contra! room
          refine stops ⟨writable, ?_⟩
          rw [found]
          exact ⟨_, here, room⟩
        obtain ⟨-, adds, -⟩ := tree.createLoop_adds clean s.fs.closed_zero (Nat.zero_le d)
          (Nat.zero_le _) returns
        exact fun v => Adds.not_resolves_full adds tree reaches full ⟨ks, names⟩
    · rw [createLoop_fails here fun _ _ _ => ⟨1, mkdir_of_not_open opens, by decide⟩] at returns
      cases returns
      exact nowhere

/-! ## Where it does not -/

/-- Names that can be made and fit are proper. -/
theorem Tree.isName_of_creatable (tree : Tree s.fs root) (dir : s.fs.names.isDir d)
    (proper : ∀ k ∈ ks, k ≠ [] ∧ 0 ∉ k ∧ slash ∉ k) (creatable : s.Creatable d ks)
    (fits : s.NamesFit d ks) : ∀ k ∈ ks, IsName k := by
  induction ks generalizing d with
  | nil => simp
  | cons k ks ih =>
    obtain ⟨⟨nonempty, -, -⟩, proper'⟩ := List.forall_mem_cons.mp proper
    obtain ⟨⟨node, here, opens⟩, rest⟩ := creatable
    cases found : s.fs.names.child d k with
    | some x =>
      rw [found] at rest
      have goes_on : ¬ (k = [] ∨ ¬ s.fs.names.isDir d ∨ s.Refuses d k) := by
        rintro (empty | other | refuses)
        · exact nonempty empty
        · exact other dir
        · rcases refuses here with closed | ⟨missing, -⟩
          · exact closed opens
          · rw [found] at missing
            contradiction
      rw [State.namesFit_found goes_on found] at fits
      exact List.forall_mem_cons.mpr
        ⟨tree.isName_of_child found, ih rest.1 proper' rest.2.2 fits⟩
    | none =>
      rw [found] at rest
      obtain ⟨node', here', room⟩ := rest
      obtain rfl := Option.some.inj (here.symm.trans here')
      have goes_on : ¬ (k = [] ∨ ¬ s.fs.names.isDir d ∨ s.Refuses d k) := by
        rintro (empty | other | refuses)
        · exact nonempty empty
        · exact other dir
        · rcases refuses here with closed | ⟨-, full⟩
          · exact closed opens
          · exact absurd room (Nat.not_lt.mpr full)
      rw [State.namesFit_missing goes_on found] at fits
      exact fun k' inside =>
        ⟨(proper k' inside).1, (proper k' inside).2.1, (proper k' inside).2.2, fits k' inside⟩

section Loop

variable (tree : Tree s.fs root) (settles : s.fs.names.Settles root u) (dir : s.fs.names.isDir u)
  (proper : ∀ k ∈ ks, k ≠ [] ∧ 0 ∉ k ∧ slash ∉ k) (some_name : ks ≠ [])
  (returns : createLoop ks u target s = .ok (result, target', s'))
include tree settles dir proper some_name returns

theorem Tree.createLoop_created (creatable : s.Creatable u ks) :
    ∃ v, target' = some v ∧ Created s root [] ks v s' := by
  have reaches : s.fs.names.Reaches root [] u := Namespace.reaches_nil.mpr settles
  have fits : s.NamesFit u ks := by
    by_contra long
    rw [(tree.createLoop_ends target (tree.reaches_valid reaches) fun k inside =>
      (proper k inside).2).2 long] at returns
    contradiction
  have names := tree.isName_of_creatable dir proper creatable fits
  obtain ⟨v, s₁, target₁, loop, made, created⟩ :=
    tree.createLoop_creates target reaches dir names creatable
  cases loop.symm.trans returns
  exact ⟨v, made.resolve_right fun nothing => some_name nothing.1, created⟩

/-- **Where the path leads behind the loop.** It leads somewhere if it did before, or all its names
can be made. -/
theorem Tree.createLoop_resolves_iff : (∃ v, s'.fs.names.Resolves root ks v) ↔
    (∃ v, s.fs.names.Resolves root ks v) ∨ s.Creatable u ks := by
  constructor
  · rintro ⟨v, resolves⟩
    by_contra! neither
    exact tree.createLoop_stops (p := []) proper (Namespace.reaches_nil.mpr settles) dir neither.1
      neither.2 returns v resolves
  · rintro (⟨v, resolves⟩ | creatable)
    · obtain ⟨-, adds, -⟩ := tree.createLoop_adds (fun k inside => (proper k inside).2)
        s.fs.closed_zero (Nat.zero_le u) (Nat.zero_le _) returns
      exact ⟨v, Adds.resolves_mono adds tree resolves⟩
    · obtain ⟨v, -, created⟩ :=
        tree.createLoop_created settles dir proper some_name returns creatable
      obtain ⟨x, resolves, -⟩ := created.reaches.exists_resolves some_name List.prefix_rfl
      exact ⟨x, resolves⟩

end Loop

/-! ## Lookups -/

theorem State.LeadsTo.unique {w : ℕ} (leads : s.LeadsTo root pathname v)
    (leads' : s.LeadsTo root pathname w) : v = w := by
  rcases leads with ⟨same, rfl⟩ | ⟨other, resolves⟩ <;>
    rcases leads' with ⟨same', rfl⟩ | ⟨other', resolves'⟩
  · rfl
  · exact absurd same other'
  · exact absurd same' other
  · exact resolves.unique resolves'

/-- `vfs_lookup` on every path. -/
theorem Rooted.finds_iff_leadsTo (rooted : Rooted s root) (no_nul : 0 ∉ pathname) :
    s.Finds pathname v ↔ s.LeadsTo root pathname v := by
  by_cases fits : s.LookupFits root pathname
  · obtain ⟨r, found, returns, ⟨rfl, w, rfl, leads⟩ | ⟨rfl, nothing⟩⟩ :=
      rooted.vfsLookup_ends no_nul fits
    · constructor
      · intro finds
        obtain rfl := State.Finds.unique (s := s) returns finds
        exact leads
      · intro leads'
        obtain rfl := leads.unique leads'
        exact returns
    · exact iff_of_false (State.not_finds returns v) (nothing v)
  · constructor
    · intro finds
      have same := (vfsLookup_stable pathname none s).ends_unique (Returns.ends finds)
        (rooted.vfsLookup_long no_nul fits)
      contradiction
    · rintro (⟨same, -⟩ | ⟨-, resolves⟩)
      · exact absurd (.inl same) fits
      · refine absurd (.inr (Fs.shortAlong_of_all fun k inside => ?_)) fits
        exact (rooted.tree.isName_of_resolves resolves k inside).short.trans (by decide)

/-! ## The law of creation -/

/-- No vnode loses anything: only directories change, and they get new entries. -/
structure Kept (fs fs' : Fs) : Prop where
  extend : Extends fs fs'
  buffers : fs'.buffers = fs.buffers

theorem Adds.kept {r : ℕ} (adds : Adds r fs fs') : Kept fs fs' where
  extend := Adds.extend adds
  buffers := by rw [Adds.others adds]

/-- `vfs_mkdir` returns, 0 only if the path leads somewhere then, and no vnode loses anything. -/
def State.MkdirLaw (s : State) (pathname : List UInt8) : Prop :=
  ∃ ret s', Returns (fun fuel => vfsMkdir 0 fuel pathname s) (ret, s') ∧
    (ret = 0 → ∃ v, s'.Finds pathname v) ∧ Kept s.fs s'.fs

/-- `vfs_open` returns, 0 only if the path leads to a regular file then, and no vnode loses
anything. -/
def State.OpenLaw (s : State) (pathname : List UInt8) (flags handle : ℕ) (file : Option ℕ) : Prop :=
  ∃ ret file' s',
    Returns (fun fuel => vfsOpen 0 fuel pathname flags handle file s) (ret, file', s') ∧
      (ret = 0 → ∃ v node, s'.Finds pathname v ∧ s'.fs.nodes[v]? = some node ∧
        node.component.type = .file) ∧ Kept s.fs s'.fs

/-- The path and its names fit where creation copies them. -/
structure State.PathFits (s : State) (u : ℕ) (pathname : List UInt8) : Prop where
  length : pathname.length < tmpfsMaxPathLen
  create : s.CreateFits u 0 pathname

/-- No name of the path is empty, and all are there or can be made. -/
structure State.Makes (s : State) (u : ℕ) (pathname : List UInt8) : Prop where
  named : [] ∉ components pathname
  creatable : s.Creatable u (components pathname)

/-- A path that ended nowhere and was made ends at the new vnode. -/
theorem Created.resolves_new (created : Created s root [] ks v s') (adds : Adds 0 s.fs s'.fs)
    (tree : Tree s.fs root) (some_name : ks ≠ [])
    (nowhere : ∀ v, ¬ s.fs.names.Resolves root ks v) :
    s'.fs.names.Resolves root ks v ∧ s.fs.nodes.length ≤ v ∧ s'.fs.names.cover v = none := by
  obtain ⟨p, k, rfl⟩ := (List.eq_nil_or_concat' ks).resolve_left some_name
  obtain ⟨d, reaches, x, found, -, settles⟩ := Namespace.reaches_snoc.mp created.reaches
  have resolves : s'.fs.names.Resolves root (p ++ [k]) x :=
    Namespace.resolves_snoc.mpr ⟨d, reaches, found⟩
  have new : s.fs.nodes.length ≤ x := by
    by_contra! old
    exact nowhere x (Adds.resolves_old adds tree old resolves)
  have free : s'.fs.names.cover x = none := by
    rw [Adds.cover adds]
    simp [Fs.names, List.getElem?_eq_none new]
  rw [(Namespace.settles_iff_of_free free).mp settles]
  exact ⟨resolves, new, free⟩

theorem splitNames_of_named (named : [] ∉ components pathname) :
    splitNames pathname = components pathname := by
  rw [splitNames_eq_components, List.filter_eq_self]
  intro k inside
  rw [decide_eq_true_eq]
  rintro rfl
  exact named inside

theorem proper_components (no_nul : 0 ∉ pathname) (named : [] ∉ components pathname) :
    ∀ k ∈ components pathname, k ≠ [] ∧ 0 ∉ k ∧ slash ∉ k :=
  fun k inside => ⟨fun empty => named (empty ▸ inside), components_clean no_nul k inside⟩

/-- A file in place of a vnode, and a handle of it. -/
theorem Rooted.newFile {handle flags : ℕ} {fOps : FsKind} (rooted : Rooted s root) (v : ℕ) :
    Rooted { s with fs := (s.fs.newFile v).openFile handle v flags fOps } root where
  rootfs := rooted.rootfs
  tree := (makesFile_open.tree rooted.tree).of_nodes rfl
  idle := rooted.idle

/-- `vfs_open` of a path that leads somewhere. -/
theorem Rooted.open_found (rooted : Rooted s root) (no_nul : 0 ∉ pathname)
    (lookup : Returns (fun fuel => vfsLookup fuel pathname none s) (0, some v, s))
    (leads : s.LeadsTo root pathname v) (flags handle : ℕ) (file : Option ℕ) :
    s.OpenLaw pathname flags handle file := by
  have valid : v < s.fs.nodes.length := by
    rcases leads with ⟨-, rfl⟩ | ⟨-, resolves⟩
    · exact rooted.tree.root_valid
    · exact rooted.tree.resolves_valid resolves
  have here := List.getElem?_eq_getElem valid
  obtain ⟨fuel, lookup⟩ := lookup
  have opened : openNode 0 fuel pathname flags s = .ok (some v, s) := by
    dsimp only at lookup
    simp [openNode, lookup]
  by_cases regular : s.fs.nodes[v].component.type = .file
  · have rooted' : Rooted { s with fs := s.fs.openFile handle v flags s.fs.nodes[v].fOps } root :=
      ⟨rooted.rootfs, rooted.tree.of_nodes rfl, rooted.idle⟩
    refine ⟨0, some handle, _, ⟨fuel, ?_⟩, fun _ => ⟨v, _,
      (rooted'.finds_iff_leadsTo no_nul).mpr leads, here, regular⟩, Extends.refl _, rfl⟩
    simp [vfsOpen, opened, tmpfsOpen_file here regular]
  · refine ⟨-1, file, s, ⟨fuel, ?_⟩, by simp, Extends.refl _, rfl⟩
    simp [vfsOpen, opened, tmpfsOpen_dir here regular]

theorem Rooted.vfsMkdir_fits {ret i₀ : ℤ} (rooted : Rooted s root) (no_nul : 0 ∉ pathname)
    (returns : Returns (fun fuel => vfsMkdir i₀ fuel pathname s) (ret, s')) :
    s.LookupFits root pathname := by
  by_contra long
  have overflows : Ends (fun fuel => vfsMkdir i₀ fuel pathname s) (.error .outOfBounds) :=
    (rooted.vfsLookup_long no_nul long).bind_error
  have same := (vfsMkdir_stable i₀ pathname s).ends_unique (Returns.ends returns) overflows
  contradiction

theorem Rooted.openLaw_fits {flags handle : ℕ} {file : Option ℕ} (rooted : Rooted s root)
    (no_nul : 0 ∉ pathname) (law : s.OpenLaw pathname flags handle file) :
    s.LookupFits root pathname := by
  by_contra long
  obtain ⟨ret, file', s', returns, -⟩ := law
  have overflows : Ends (fun fuel => vfsOpen 0 fuel pathname flags handle file s)
      (.error .outOfBounds) :=
    (rooted.vfsLookup_long no_nul long).bind_error.bind_error
  have same := (vfsOpen_stable 0 pathname flags handle file s).ends_unique
    (Returns.ends returns) overflows
  contradiction

section NoDir

variable (rooted : Rooted s root) (settles : s.fs.names.Settles root u)
  (no_dir : ¬ s.fs.names.isDir u) (no_nul : 0 ∉ pathname) (fits : s.LookupFits root pathname)
include rooted settles no_dir no_nul fits

theorem Rooted.mkdirLaw_of_no_dir : s.MkdirLaw pathname := by
  obtain ⟨found, target, lookup, looks⟩ := rooted.vfsLookup_ends no_nul fits
  have not_one : found ≠ 1 := by
    rcases looks with ⟨rfl, -⟩ | ⟨rfl, -⟩ <;> decide
  have create := rooted.create_no_dir settles no_dir 0 target (rooted.short_first fits)
  exact ⟨-1, s, (rooted.vfsMkdir_iff 0 lookup not_one).mpr ⟨-1, target, create, rfl⟩, by simp,
    Extends.refl _, rfl⟩

theorem Rooted.openLaw_of_no_dir {flags : ℕ} (creat : flags &&& oCreat ≠ 0) (handle : ℕ)
    (file : Option ℕ) : s.OpenLaw pathname flags handle file := by
  obtain ⟨found, target, lookup, ⟨rfl, v, rfl, leads⟩ | ⟨rfl, -⟩⟩ :=
    rooted.vfsLookup_ends no_nul fits
  · exact rooted.open_found no_nul lookup leads flags handle file
  · have create := rooted.create_no_dir settles no_dir 0 target (rooted.short_first fits)
    obtain ⟨fuel, opened⟩ : Returns (fun fuel => openNode 0 fuel pathname flags s) (none, s) :=
      (openNode_iff rooted.rootfs lookup creat).mpr
        ⟨-1, target, s, create, .inr ⟨by decide, rfl, rfl⟩⟩
    refine ⟨-1, file, s, ⟨fuel, ?_⟩, by simp, Extends.refl _, rfl⟩
    dsimp only at opened
    simp [vfsOpen, opened]

end NoDir

section Calls

variable (rooted : Rooted s root) (settles : s.fs.names.Settles root u) (dir : s.fs.names.isDir u)
  (no_nul : 0 ∉ pathname)
include rooted settles dir no_nul

/-- A call for creation returns if everything fits, and then what the loop returns. -/
theorem Rooted.create_iff (short : (firstName pathname).length < tmpfsMaxComponentName) :
    Returns (fun fuel => lookupPath 0 fuel pathname root target true s) (result, target', s') ↔
      s.PathFits u pathname ∧ createLoop (splitNames pathname) u target
        { s with strtok := .idle } = .ok (result, target', s') := by
  by_cases fits : Fits pathname
  · have loop := returns_iff_createLoop rooted settles dir 0 target fits (result, target', s')
    rw [and_iff_right (le_refl 0), Int.toNat_zero, List.drop_zero, createLoop_filter] at loop
    rw [loop, splitNames, iff_and_self]
    intro returns
    refine ⟨fits.length, ?_⟩
    by_contra long
    have overflows := (rooted.create_ends settles dir (le_refl 0) no_nul short fits.length
      target).2 long
    have same := (lookupPath_stable 0 pathname root target true s).ends_unique
      (Returns.ends (loop.mpr returns)) overflows
    contradiction
  · refine iff_of_false (not_returns_of_long rooted settles dir 0 target fits _) ?_
    rintro ⟨path_fits, -⟩
    exact fits ⟨short, path_fits.length, path_fits.create.depth⟩

omit settles dir no_nul in
/-- What the loop leaves. -/
theorem Rooted.loop_adds (clean : ∀ k ∈ names, 0 ∉ k ∧ slash ∉ k)
    (loop : createLoop names u target { s with strtok := .idle } = .ok (result, target', s')) :
    result = 0 ∧ Adds 0 s.fs s'.fs ∧ Rooted s' root := by
  obtain ⟨zero, adds, others⟩ := Tree.createLoop_adds (s := { s with strtok := .idle }) rooted.tree
    clean s.fs.closed_zero (Nat.zero_le u) (Nat.zero_le _) loop
  refine ⟨zero, adds, ?_, Adds.tree adds rooted.tree, ?_⟩
  · rw [others]
    exact rooted.rootfs
  · rw [others]
    rfl

/-- Where the path leads behind the loop. -/
theorem Rooted.loop_leads_iff (loop : createLoop (splitNames pathname) u target
    { s with strtok := .idle } = .ok (result, target', s')) :
    (∃ v, s'.LeadsTo root pathname v) ↔
      (∃ v, s.LeadsTo root pathname v) ∨ s.Makes u pathname := by
  obtain ⟨-, -, rooted'⟩ := rooted.loop_adds (splitNames_clean no_nul) loop
  by_cases at_root : pathname = [slash]
  · exact iff_of_true ⟨root, .inl ⟨at_root, rfl⟩⟩ (.inl ⟨root, .inl ⟨at_root, rfl⟩⟩)
  have leads_iff {s : State} {v : ℕ} :
      s.LeadsTo root pathname v ↔ s.fs.names.Resolves root (components pathname) v := by
    simp [State.LeadsTo, at_root]
  simp only [leads_iff]
  by_cases named : [] ∈ components pathname
  · have nowhere {s : State} (rooted : Rooted s root) (v : ℕ) :
        ¬ s.fs.names.Resolves root (components pathname) v :=
      fun resolves => (rooted.tree.isName_of_resolves resolves [] named).ne_nil rfl
    refine iff_of_false (fun leads => nowhere rooted' _ leads.choose_spec) ?_
    rintro (⟨v, resolves⟩ | makes)
    · exact nowhere rooted v resolves
    · exact makes.named named
  · rw [splitNames_of_named named] at loop
    rw [rooted.tree.createLoop_resolves_iff (s := { s with strtok := .idle }) settles dir
      (proper_components no_nul named) components_ne_nil loop]
    refine or_congr_right ⟨fun creatable => ⟨named, creatable.with_strtok s.strtok⟩, ?_⟩
    exact fun makes => makes.creatable.with_strtok _

/-- What `vfs_mkdir` returns, and what it leaves. -/
theorem Rooted.vfsMkdir_returns {ret : ℤ}
    (returns : Returns (fun fuel => vfsMkdir 0 fuel pathname s) (ret, s')) :
    ret = 0 ∧ Kept s.fs s'.fs ∧ Rooted s' root := by
  have fits := rooted.vfsMkdir_fits no_nul returns
  obtain ⟨found, target, lookup, looks⟩ := rooted.vfsLookup_ends no_nul fits
  have not_one : found ≠ 1 := by
    rcases looks with ⟨rfl, -⟩ | ⟨rfl, -⟩ <;> decide
  obtain ⟨result, target', create, rfl⟩ := (rooted.vfsMkdir_iff 0 lookup not_one).mp returns
  obtain ⟨-, loop⟩ := (rooted.create_iff settles dir no_nul (rooted.short_first fits)).mp create
  obtain ⟨rfl, adds, rooted'⟩ := rooted.loop_adds (splitNames_clean no_nul) loop
  exact ⟨if_pos rfl, Adds.kept adds, rooted'⟩

/-- The law is that the path is found afterwards. -/
theorem Rooted.mkdirLaw_iff_finds : s.MkdirLaw pathname ↔
    ∃ s' w, Returns (fun fuel => vfsMkdir 0 fuel pathname s) (0, s') ∧ s'.Finds pathname w := by
  constructor
  · rintro ⟨ret, s', returns, leads, -⟩
    obtain ⟨rfl, -, -⟩ := rooted.vfsMkdir_returns settles dir no_nul returns
    obtain ⟨w, finds⟩ := leads rfl
    exact ⟨s', w, returns, finds⟩
  · rintro ⟨s', w, returns, finds⟩
    obtain ⟨-, kept, -⟩ := rooted.vfsMkdir_returns settles dir no_nul returns
    exact ⟨0, s', returns, fun _ => ⟨w, finds⟩, kept⟩

/-- **When `vfs_mkdir` keeps the law**: the path led somewhere before, or all its names can be
made. -/
theorem Rooted.mkdirLaw_iff : s.MkdirLaw pathname ↔ s.LookupFits root pathname ∧
    s.PathFits u pathname ∧ ((∃ v, s.LeadsTo root pathname v) ∨ s.Makes u pathname) := by
  by_cases fits : s.LookupFits root pathname
  · rw [and_iff_right fits]
    have short := rooted.short_first fits
    obtain ⟨found, target, lookup, looks⟩ := rooted.vfsLookup_ends no_nul fits
    have not_one : found ≠ 1 := by
      rcases looks with ⟨rfl, -⟩ | ⟨rfl, -⟩ <;> decide
    constructor
    · rintro ⟨ret, s', returns, leads, -⟩
      obtain ⟨result, target', create, rfl⟩ := (rooted.vfsMkdir_iff 0 lookup not_one).mp returns
      obtain ⟨path_fits, loop⟩ := (rooted.create_iff settles dir no_nul short).mp create
      obtain ⟨rfl, -, rooted'⟩ := rooted.loop_adds (splitNames_clean no_nul) loop
      obtain ⟨v, finds⟩ := leads (if_pos rfl)
      exact ⟨path_fits, (rooted.loop_leads_iff settles dir no_nul loop).mp
        ⟨v, (rooted'.finds_iff_leadsTo no_nul).mp finds⟩⟩
    · rintro ⟨path_fits, leads⟩
      obtain ⟨⟨result, target', s'⟩, create⟩ := (rooted.create_ends settles dir (le_refl 0) no_nul
        short path_fits.length target).1 path_fits.create
      obtain ⟨-, loop⟩ := (rooted.create_iff settles dir no_nul short).mp create
      obtain ⟨rfl, adds, rooted'⟩ := rooted.loop_adds (splitNames_clean no_nul) loop
      obtain ⟨v, leads'⟩ := (rooted.loop_leads_iff settles dir no_nul loop).mpr leads
      refine ⟨0, s', (rooted.vfsMkdir_iff 0 lookup not_one).mpr ⟨0, target', create, rfl⟩,
        fun _ => ⟨v, (rooted'.finds_iff_leadsTo no_nul).mpr leads'⟩, Adds.kept adds⟩
  · refine iff_of_false ?_ fun both => fits both.1
    rintro ⟨ret, s', returns, -⟩
    exact fits (rooted.vfsMkdir_fits no_nul returns)

omit no_nul in
/-- Behind a lookup that fails, `vfs_open` makes a file of the vnode that creation comes to. -/
theorem Rooted.vfsOpen_iff {flags handle : ℕ} {file file' : Option ℕ} {ret i₀ : ℤ}
    (lookup : Returns (fun fuel => vfsLookup fuel pathname none s) (-1, target, s))
    (creat : flags &&& oCreat ≠ 0) :
    Returns (fun fuel => vfsOpen i₀ fuel pathname flags handle file s) (ret, file', s') ↔
      ∃ v s₁ old, Returns (fun fuel => lookupPath i₀ fuel pathname root target true s)
          (0, some v, s₁) ∧ s₁.fs.nodes[v]? = some old ∧ ret = 0 ∧ file' = some handle ∧
        s' = { s₁ with fs := (s₁.fs.newFile v).openFile handle v flags old.fOps } := by
  constructor
  · rintro ⟨fuel, returns⟩
    dsimp only [vfsOpen] at returns
    obtain ⟨⟨node, s₂⟩, opened, returns⟩ := outcome_bind_eq_ok.mp returns
    obtain ⟨result, target', s₁, ⟨fuel', create⟩, made⟩ :=
      (openNode_iff rooted.rootfs lookup creat).mp ⟨fuel, opened⟩
    rcases made with ⟨rfl, v, old, rfl, rfl, here, rfl⟩ | ⟨failed, -⟩
    · dsimp only at returns
      rw [tmpfsOpen_newFile here] at returns
      cases returns
      exact ⟨v, s₁, old, ⟨fuel', create⟩, here, rfl, rfl, rfl⟩
    · -- creation fails only where the root is not a directory
      obtain ⟨u', settles', success⟩ := lookupPath_create create
      obtain rfl := settles.unique settles'
      rcases success with ⟨zero, -⟩ | ⟨-, no_dir⟩
      · exact absurd zero failed
      · exact absurd dir no_dir
  · rintro ⟨v, s₁, old, create, here, rfl, rfl, rfl⟩
    obtain ⟨fuel, opened⟩ : Returns (fun fuel => openNode i₀ fuel pathname flags s)
        (some v, { s₁ with fs := s₁.fs.newFile v }) :=
      (openNode_iff rooted.rootfs lookup creat).mpr
        ⟨0, some v, s₁, create, .inl ⟨rfl, v, old, rfl, rfl, here, rfl⟩⟩
    refine ⟨fuel, ?_⟩
    dsimp only at opened
    dsimp only [vfsOpen]
    rw [opened, outcome_bind_ok]
    dsimp only
    rw [tmpfsOpen_newFile here]
    rfl

/-- **When `vfs_open` keeps the law** with `O_CREAT`: the path led somewhere before, or all its
names can be made. -/
theorem Rooted.openLaw_iff {flags : ℕ} (creat : flags &&& oCreat ≠ 0) (handle : ℕ)
    (file : Option ℕ) : s.OpenLaw pathname flags handle file ↔ s.LookupFits root pathname ∧
      ((∃ v, s.LeadsTo root pathname v) ∨ s.PathFits u pathname ∧ s.Makes u pathname) := by
  by_cases fits : s.LookupFits root pathname
  · rw [and_iff_right fits]
    have short := rooted.short_first fits
    obtain ⟨found, target, lookup, ⟨rfl, v, rfl, leads⟩ | ⟨rfl, nothing⟩⟩ :=
      rooted.vfsLookup_ends no_nul fits
    · exact iff_of_true (rooted.open_found no_nul lookup leads flags handle file) (.inl ⟨v, leads⟩)
    rw [or_iff_right (not_exists.mpr nothing)]
    constructor
    · rintro ⟨ret, file', s', returns, regular, -⟩
      obtain ⟨v, s₁, old, create, here, rfl, rfl, rfl⟩ :=
        (rooted.vfsOpen_iff settles dir lookup creat).mp returns
      obtain ⟨path_fits, loop⟩ := (rooted.create_iff settles dir no_nul short).mp create
      obtain ⟨-, -, rooted'⟩ := rooted.loop_adds (splitNames_clean no_nul) loop
      obtain ⟨w, node, finds, -⟩ := regular rfl
      -- the file has taken names away only
      have leads : s₁.LeadsTo root pathname w :=
        (((rooted'.newFile v).finds_iff_leadsTo no_nul).mp finds).imp_right
          fun both => ⟨both.1, makesFile_open.shrunk.resolves both.2⟩
      have before := (rooted.loop_leads_iff settles dir no_nul loop).mp ⟨w, leads⟩
      exact ⟨path_fits, before.resolve_left (not_exists.mpr nothing)⟩
    · rintro ⟨path_fits, makes⟩
      obtain ⟨⟨result, target', s'⟩, create⟩ := (rooted.create_ends settles dir (le_refl 0) no_nul
        short path_fits.length target).1 path_fits.create
      obtain ⟨-, loop⟩ := (rooted.create_iff settles dir no_nul short).mp create
      obtain ⟨rfl, adds, rooted'⟩ := rooted.loop_adds (splitNames_clean no_nul) loop
      have not_root : pathname ≠ [slash] := fun same => nothing root (.inl ⟨same, rfl⟩)
      have nowhere : ∀ v, ¬ s.fs.names.Resolves root (components pathname) v :=
        fun v resolves => nothing v (.inr ⟨not_root, resolves⟩)
      rw [splitNames_of_named makes.named] at loop
      obtain ⟨v, rfl, created⟩ := Tree.createLoop_created (s := { s with strtok := .idle })
        rooted.tree settles dir (proper_components no_nul makes.named) components_ne_nil loop
        (makes.creatable.with_strtok _)
      obtain ⟨resolves, new, free⟩ :=
        created.resolves_new adds rooted.tree components_ne_nil nowhere
      have empty : s'.fs.listing v = [] := by
        apply created.empty
        intro k x old
        obtain ⟨d, reaches, -⟩ := Namespace.resolves_snoc.mp old
        obtain ⟨w, before, -⟩ := reaches.exists_resolves components_ne_nil List.prefix_rfl
        exact nowhere w before
      have here := List.getElem?_eq_getElem (created.tree.resolves_valid resolves)
      have extends' : Extends s.fs (s'.fs.newFile v) := by
        intro x node there
        obtain ⟨node', there', grows⟩ := Adds.extend adds there
        -- the new vnode is none of the old ones
        have other : x ≠ v := ((List.getElem?_eq_some_iff.mp there).1.trans_le new).ne
        exact ⟨node', (Fs.modifyComponent_of_ne _ other).trans there', grows⟩
      refine ⟨0, some handle, _, (rooted.vfsOpen_iff settles dir lookup creat).mpr
        ⟨v, s', _, create, here, rfl, rfl, rfl⟩, fun _ => ⟨v, _, ?_,
          Fs.newFile_self here, rfl⟩, extends', (Adds.kept adds).buffers⟩
      refine ((rooted'.newFile v).finds_iff_leadsTo no_nul).mpr (.inr ⟨not_root, ?_⟩)
      exact (makesFile_open.pruned empty free).resolves_iff.mpr resolves
  · exact iff_of_false (fun law => fits (rooted.openLaw_fits no_nul law)) fun both => fits both.1

/-! ### Other start values -/

/-- The create loop skips empty pieces, so it may start behind them. -/
def Skips (i₀ : ℤ) (pathname : List UInt8) : Prop :=
  0 ≤ i₀ ∧ ∀ k ∈ (pathname.splitOn slash).take i₀.toNat, k = []

omit rooted settles dir no_nul in
theorem Skips.filter_drop {i₀ : ℤ} (skips : Skips i₀ pathname) :
    ((pathname.splitOn slash).drop i₀.toNat).filter (· ≠ []) = splitNames pathname := by
  have nothing : ((pathname.splitOn slash).take i₀.toNat).filter (· ≠ []) = [] :=
    List.filter_eq_nil_iff.mpr fun k inside => by simp [skips.2 k inside]
  rw [splitNames, ← List.take_append_drop i₀.toNat (pathname.splitOn slash), List.filter_append,
    List.take_append_drop, nothing, List.nil_append]

omit no_nul in
theorem Rooted.returns_iff_of_skips {i₀ : ℤ} (skips : Skips i₀ pathname)
    (returned : ℤ × Option ℕ × State) :
    Returns (fun fuel => lookupPath i₀ fuel pathname root target true s) returned ↔
      Returns (fun fuel => lookupPath 0 fuel pathname root target true s) returned := by
  by_cases fits : Fits pathname
  · rw [returns_iff_createLoop rooted settles dir i₀ target fits,
      returns_iff_createLoop rooted settles dir 0 target fits, createLoop_filter, skips.filter_drop,
      Int.toNat_zero, List.drop_zero, and_iff_right skips.1, and_iff_right (le_refl 0),
      createLoop_filter (pathname.splitOn slash), splitNames]
  · exact iff_of_false (not_returns_of_long rooted settles dir i₀ target fits _)
      (not_returns_of_long rooted settles dir 0 target fits _)

/-- A call for creation makes a path only if it skips none of its names. -/
theorem Rooted.skips_of_finds {i₀ : ℤ} {w : ℕ} (nowhere : ¬ ∃ w, s.LeadsTo root pathname w)
    (create : Returns (fun fuel => lookupPath i₀ fuel pathname root target true s)
      (result, target', s')) (finds : s'.Finds pathname w) : Skips i₀ pathname := by
  have fits : Fits pathname := by
    by_contra long
    exact not_returns_of_long rooted settles dir i₀ target long _ create
  obtain ⟨start, loop⟩ := (returns_iff_createLoop rooted settles dir i₀ target fits _).mp create
  have clean : ∀ k ∈ (pathname.splitOn slash).drop i₀.toNat, 0 ∉ k ∧ slash ∉ k := by
    intro k inside
    have piece := List.mem_of_mem_drop inside
    exact ⟨not_nul_mem_splitOn no_nul k piece, not_mem_pieces slash pathname k piece⟩
  obtain ⟨-, -, rooted'⟩ := rooted.loop_adds clean loop
  obtain ⟨not_root, resolves⟩ := ((rooted'.finds_iff_leadsTo no_nul).mp finds).resolve_left
    fun at_root => nowhere ⟨root, .inl ⟨at_root.1, rfl⟩⟩
  have proper := rooted'.tree.isName_of_resolves resolves
  have named : [] ∉ components pathname := fun inside => (proper [] inside).ne_nil rfl
  rcases Tree.createLoop_resolves (s := { s with strtok := .idle }) rooted.tree clean loop resolves
    with old | ⟨p, ks, whole, reaches, some_names⟩
  · exact absurd ⟨w, .inr ⟨not_root, old⟩⟩ nowhere
  · obtain rfl := rooted.tree.forest.path_unique reaches (Namespace.reaches_nil.mpr settles)
    rw [List.nil_append] at whole
    refine ⟨start, fun k inside => ?_⟩
    by_contra nonempty
    -- the piece is a name, and the loop has fewer names than the path
    have kept : k ∈ ((pathname.splitOn slash).take i₀.toNat).filter (· ≠ []) :=
      List.mem_filter.mpr ⟨inside, by simpa using nonempty⟩
    have parts : splitNames pathname = ((pathname.splitOn slash).take i₀.toNat).filter (· ≠ []) ++
        ((pathname.splitOn slash).drop i₀.toNat).filter (· ≠ []) := by
      rw [← List.filter_append, List.take_append_drop, splitNames]
    have few := (some_names.filter (· ≠ [])).length_le
    rw [← whole, ← splitNames_eq_components, parts, List.length_append] at few
    have some_name := List.length_pos_of_mem kept
    omega

/-- **What a start value changes** for a path that led nowhere: `vfs_mkdir` makes it only if the
loop skips none of its names, and then as from the first piece on. -/
theorem Rooted.mkdir_start_iff (nowhere : ¬ ∃ w, s.LeadsTo root pathname w) (i₀ : ℤ) :
    (∃ s' w, Returns (fun fuel => vfsMkdir i₀ fuel pathname s) (0, s') ∧ s'.Finds pathname w) ↔
      Skips i₀ pathname ∧ s.MkdirLaw pathname := by
  rw [rooted.mkdirLaw_iff_finds settles dir no_nul]
  by_cases fits : s.LookupFits root pathname
  · obtain ⟨found, target, lookup, looks⟩ := rooted.vfsLookup_ends no_nul fits
    have not_one : found ≠ 1 := by
      rcases looks with ⟨rfl, -⟩ | ⟨rfl, -⟩ <;> decide
    have same (skips : Skips i₀ pathname) (s' : State) :
        Returns (fun fuel => vfsMkdir i₀ fuel pathname s) (0, s') ↔
          Returns (fun fuel => vfsMkdir 0 fuel pathname s) (0, s') := by
      rw [rooted.vfsMkdir_iff i₀ lookup not_one, rooted.vfsMkdir_iff 0 lookup not_one]
      simp only [rooted.returns_iff_of_skips settles dir skips _]
    constructor
    · rintro ⟨s', w, returns, finds⟩
      obtain ⟨result, target', create, -⟩ := (rooted.vfsMkdir_iff i₀ lookup not_one).mp returns
      have skips := rooted.skips_of_finds settles dir no_nul nowhere create finds
      exact ⟨skips, s', w, (same skips s').mp returns, finds⟩
    · rintro ⟨skips, s', w, returns, finds⟩
      exact ⟨s', w, (same skips s').mpr returns, finds⟩
  · refine iff_of_false ?_ ?_
    · rintro ⟨s', w, returns, -⟩
      exact fits (rooted.vfsMkdir_fits no_nul returns)
    · rintro ⟨-, s', w, returns, -⟩
      exact fits (rooted.vfsMkdir_fits no_nul returns)

end Calls

/-- **When creation keeps the law.** What is copied on the way fits, and the path led
somewhere before, or none of its names is empty and all are there or can be made: where it goes on
they are directories with nothing mounted on them, and the directory of the first one missing is
writable and not full. Below a root that is no directory both calls fail as they should. -/
theorem creation_iff (rooted : Rooted s root) (settles : s.fs.names.Settles root u)
    (no_nul : 0 ∉ pathname) :
    (s.MkdirLaw pathname ↔ s.LookupFits root pathname ∧ (¬ s.fs.names.isDir u ∨
        s.PathFits u pathname ∧ ((∃ v, s.LeadsTo root pathname v) ∨ s.Makes u pathname))) ∧
      ∀ flags handle file, flags &&& oCreat ≠ 0 →
        (s.OpenLaw pathname flags handle file ↔ s.LookupFits root pathname ∧
          ((∃ v, s.LeadsTo root pathname v) ∨ ¬ s.fs.names.isDir u ∨
            s.PathFits u pathname ∧ s.Makes u pathname)) := by
  by_cases dir : s.fs.names.isDir u
  · simp only [dir, not_true_eq_false, false_or]
    exact ⟨rooted.mkdirLaw_iff settles dir no_nul,
      fun flags handle file creat => rooted.openLaw_iff settles dir no_nul creat handle file⟩
  · simp only [dir, not_false_eq_true, true_or, or_true, and_true]
    exact ⟨⟨fun ⟨_, _, returns, _⟩ => rooted.vfsMkdir_fits no_nul returns,
        rooted.mkdirLaw_of_no_dir settles dir no_nul⟩,
      fun flags handle file creat => ⟨rooted.openLaw_fits no_nul,
        fun fits => rooted.openLaw_of_no_dir settles dir no_nul fits creat handle file⟩⟩

/-- `/a` in the empty root. -/
theorem creation_iff_fresh :
    (freshRoot.MkdirLaw [47, 97] ↔ freshRoot.LookupFits 0 [47, 97] ∧
        (¬ freshRoot.fs.names.isDir 0 ∨ freshRoot.PathFits 0 [47, 97] ∧
          ((∃ v, freshRoot.LeadsTo 0 [47, 97] v) ∨ freshRoot.Makes 0 [47, 97]))) ∧
      ∀ flags handle file, flags &&& oCreat ≠ 0 →
        (freshRoot.OpenLaw [47, 97] flags handle file ↔ freshRoot.LookupFits 0 [47, 97] ∧
          ((∃ v, freshRoot.LeadsTo 0 [47, 97] v) ∨ ¬ freshRoot.fs.names.isDir 0 ∨
            freshRoot.PathFits 0 [47, 97] ∧ freshRoot.Makes 0 [47, 97])) :=
  creation_iff freshRoot_plain.rooted ((Namespace.settles_iff_of_free (freshRoot_cover 0)).mpr rfl)
    (by decide)

/-- The regular file `/a`, which holds the byte 1. -/
def fileA : State :=
  { freshRoot with fs :=
      { nodes := [⟨none, .tmpfs, .tmpfs, ⟨[], .dir, 1, .entries [1]⟩⟩,
          ⟨none, .tmpfs, .tmpfs, ⟨[97], .file, 1, .data 0x200⟩⟩]
        buffers := Heap.modify (Heap.alloc (fun _ => none) 0x200 [0]) 0x200 fun _ => [1]
        files := Heap.modify (Heap.alloc (fun _ => none) 0x100 ⟨some 1, 0, .tmpfs, oCreat⟩) 0x100
          fun handle => { handle with fPos := 1 }
        uartIn := []
        uartOut := [] } }

example : ∃ s fs, vfsOpen 0 2 [47, 97] oCreat 0x100 none freshRoot = .ok (0, some 0x100, s) ∧
    tmpfsWrite ⟨0x200, fun _ => 0⟩ (some 0x100) [1] 1 s.fs = .ok (1, fs) ∧
    fileA = { s with fs := fs } := ⟨_, _, rfl, rfl, rfl⟩

/-- Creation of `/a/x`. Both calls return 0, and `/a` has lost its byte when `vfs_open` does. -/
theorem throughFile_succeeds :
    Returns (fun fuel => vfsMkdir 0 fuel [47, 97, 47, 120] fileA) (0, fileA) ∧
      (∀ v, ¬ fileA.Finds [47, 97, 47, 120] v) ∧ ¬ fileA.MkdirLaw [47, 97, 47, 120] ∧
      ¬ fileA.OpenLaw [47, 97, 47, 120] oCreat 0x300 none := by
  have made : Returns (fun fuel => vfsMkdir 0 fuel [47, 97, 47, 120] fileA) (0, fileA) :=
    ⟨3, rfl⟩
  have lookup : Returns (fun fuel => vfsLookup fuel [47, 97, 47, 120] none fileA)
      (-1, some 1, fileA) := ⟨3, rfl⟩
  have nowhere := State.not_finds lookup
  refine ⟨made, nowhere, ?_, ?_⟩
  · rintro ⟨ret, s', returns, leads, -⟩
    cases (vfsMkdir_stable 0 _ fileA).mono.returns_unique made returns
    obtain ⟨v, finds⟩ := leads rfl
    exact nowhere v finds
  · rintro ⟨ret, file', s', returns, -, kept⟩
    obtain ⟨s₁, opened, emptied⟩ : ∃ s₁ : State,
        Returns (fun fuel => vfsOpen 0 fuel [47, 97, 47, 120] oCreat 0x300 none fileA)
          (0, some 0x300, s₁) ∧
        s₁.fs.nodes[1]? = some ⟨none, .tmpfs, .tmpfs, ⟨[97], .file, 1, .null⟩⟩ :=
      ⟨_, ⟨3, rfl⟩, rfl⟩
    cases (vfsOpen_mono ..).returns_unique opened returns
    obtain ⟨node, there, grows⟩ := kept.extend (v := 1) rfl
    cases there.symm.trans emptied
    exact absurd (grows.file rfl) (by decide)

end BareMetal.Vfs
