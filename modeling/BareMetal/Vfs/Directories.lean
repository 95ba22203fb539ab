import BareMetal.CS.Transition
import BareMetal.Vfs.Growth
import BareMetal.Vfs.Mkdir

/-!
# Entries of directories

Nothing but the lookup in front of it keeps `tmpfs_create` from adding a name twice. Along every
sequence of `tmpfs_create` and `tmpfs_mkdir` on the vnodes of a tree, the directories have at
most `TMPFS_MAX_ENTRY` entries with different names, and a call changes one lookup or none.
The vnodes need not form a tree for that, and a name may be empty or have slashes.

## Main results

* `Run.directories` — the directories along a run, and what the next call does
-/

namespace BareMetal.Vfs

open CS Strings

/-! ## Calls -/

/-- A call of `tmpfs_create`, with what the chunk of the new component holds for its type, or
of `tmpfs_mkdir`. -/
inductive DirCall
  | create (stale : CompType) (dirNode : ℕ) (target : Option ℕ) (componentName : List UInt8)
  | mkdir (dirNode : ℕ) (target : Option ℕ) (componentName : List UInt8)

namespace DirCall

def dirNode : DirCall → ℕ
  | create _ d _ _ | mkdir d _ _ => d

def target : DirCall → Option ℕ
  | create _ _ target _ | mkdir _ target _ => target

def name : DirCall → List UInt8
  | create _ _ _ name | mkdir _ _ name => name

/-- The type of a new vnode. -/
def newType : DirCall → CompType
  | create stale _ _ _ => stale
  | mkdir _ _ _ => .dir

/-- What the call returns when the name is there. -/
def present : DirCall → ℤ
  | create _ _ _ _ => 1
  | mkdir _ _ _ => 0

/-- The call: its result, `*target` and the files behind it. -/
def run : DirCall → Fs → Outcome (ℤ × Option ℕ × Fs)
  | create stale d target name => tmpfsCreate stale d target name
  | mkdir d target name => tmpfsMkdir d target name

/-- A call on a vnode that is there, with a string that fits the chunk for the name. -/
structure Fits (call : DirCall) (fs : Fs) : Prop where
  valid : call.dirNode < fs.nodes.length
  no_nul : 0 ∉ call.name
  short : call.name.length < nameLen

end DirCall

/-- A call that returns. -/
def DirStep (fs : Fs) (call : DirCall) (fs' : Fs) : Prop :=
  call.Fits fs ∧ ∃ r target, call.run fs = .ok (r, target, fs')

/-- The directories have few entries, with different names. -/
structure Directories (fs : Fs) : Prop where
  sound : fs.Sound
  few : ∀ d, (fs.listing d).length ≤ tmpfsMaxEntry
  different : ∀ d, ((fs.listing d).map fs.nameOf).Nodup

/-- What a call does. -/
structure DirCall.Effect (call : DirCall) (fs : Fs) (r : ℤ) (target : Option ℕ) (fs' : Fs) :
    Prop where
  /-- A name that is absent becomes the last entry, when there is room, and only the lookup of
  this name in this directory changes. -/
  absent : fs.names.isDir call.dirNode →
    tmpfsLookup fs call.dirNode none call.name = .ok (-1, none) →
    (fs.listing call.dirNode).length < tmpfsMaxEntry →
      r = 0 ∧ target = some fs.nodes.length ∧ fs'.nameOf fs.nodes.length = some call.name ∧
      (∀ d, fs'.listing d =
        if d = call.dirNode then fs.listing d ++ [fs.nodes.length] else fs.listing d) ∧
      (∀ t, tmpfsLookup fs' call.dirNode t call.name = .ok (0, some fs.nodes.length)) ∧
      ∀ d k t, d < fs.nodes.length → 0 ∉ k → d ≠ call.dirNode ∨ k ≠ call.name →
        tmpfsLookup fs' d t k = tmpfsLookup fs d t k
  /-- For a name that is there the call finds what `tmpfs_lookup` finds, the entry or the root
  mounted on it. -/
  present : ∀ v, tmpfsLookup fs call.dirNode none call.name = .ok (0, some v) →
    r = call.present ∧ target = some v ∧ fs' = fs ∧ ∃ x node, x ∈ fs.listing call.dirNode ∧
      fs.nodes[x]? = some node ∧ node.component.name = call.name ∧ v = node.mount.getD x
  /-- Otherwise it fails, -/
  full : ¬ fs.names.isDir call.dirNode ∨
    tmpfsLookup fs call.dirNode none call.name = .ok (-1, none) ∧
      tmpfsMaxEntry ≤ (fs.listing call.dirNode).length → r = -1
  /-- and a call that fails changes nothing. -/
  fails : r = -1 → target = call.target ∧ fs' = fs

/-! ## Lookups -/

variable {fs fs' fs₀ : Fs} {d v : ℕ} {node : Vnode} {k : List UInt8}

/-- A vnode that is no directory has no children. -/
theorem Fs.child_of_not_dir (here : fs.nodes[d]? = some node) (other : node.component.type ≠ .dir)
    (k : List UInt8) : fs.names.child d k = none := by
  have nothing : fs.listing d = [] := by
    rw [Fs.listing_eq here, Component.listed_of_ne other]
  simp [Namespace.child, Fs.names, nothing]

/-- `tmpfs_lookup` on every vnode. -/
theorem Fs.Sound.tmpfsLookup_valid (sound : fs.Sound) (valid : d < fs.nodes.length)
    (no_nul : 0 ∉ k) (target : Option ℕ) : tmpfsLookup fs d target k =
      .ok (if (fs.names.child d k).isSome then 0 else -1, (fs.names.child d k).or target) := by
  have here := List.getElem?_eq_getElem valid
  by_cases dir : fs.nodes[d].component.type = .dir
  · exact sound.tmpfsLookup_eq here dir no_nul
  · rw [tmpfsLookup, Fs.node_eq_ok.mpr here, outcome_bind_ok, if_pos dir,
      Fs.child_of_not_dir here dir]
    rfl

theorem Fs.Sound.tmpfsLookup_absent (sound : fs.Sound) (valid : d < fs.nodes.length)
    (no_nul : 0 ∉ k) : tmpfsLookup fs d none k = .ok (-1, none) ↔ fs.names.child d k = none := by
  rw [sound.tmpfsLookup_valid valid no_nul]
  cases fs.names.child d k <;> simp

theorem Fs.Sound.tmpfsLookup_present (sound : fs.Sound) (valid : d < fs.nodes.length)
    (no_nul : 0 ∉ k) :
    tmpfsLookup fs d none k = .ok (0, some v) ↔ fs.names.child d k = some v := by
  rw [sound.tmpfsLookup_valid valid no_nul]
  cases fs.names.child d k <;> simp

/-- The children behind a new vnode. -/
theorem Fs.Sound.child_addNode (sound : fs.Sound) (here : fs.nodes[d]? = some node)
    (dir : node.component.type = .dir) (missing : fs.names.child d k = none) (d' : ℕ)
    (k' : List UInt8) : (fs.addNode d node k type).names.child d' k' =
      if d' = d ∧ k' = k then some fs.nodes.length else fs.names.child d' k' := by
  have no_entry : fs.names.entry d k = none := by
    simpa [Namespace.child] using missing
  have free : fs.names.cover fs.nodes.length = none := by
    simp [Fs.names]
  rw [Namespace.child, sound.entry_addNode here dir no_entry, Namespace.child]
  simp only [Fs.cover_addNode here]
  split_ifs with new
  · rw [Option.map_some, free, Option.getD_none]
  · rfl

/-! ## One call -/

/-- What a call does: it finds the name, adds it, or fails. -/
theorem DirCall.run_cases (call : DirCall) (sound : fs.Sound) (fits : call.Fits fs) :
    (∃ v, fs.names.child call.dirNode call.name = some v ∧
      call.run fs = .ok (call.present, some v, fs)) ∨
    (fs.names.child call.dirNode call.name = none ∧ (¬ fs.names.isDir call.dirNode ∨
      tmpfsMaxEntry ≤ (fs.listing call.dirNode).length) ∧
      call.run fs = .ok (-1, call.target, fs)) ∨
    (fs.names.child call.dirNode call.name = none ∧
      (fs.listing call.dirNode).length < tmpfsMaxEntry ∧
      ∃ node, fs.nodes[call.dirNode]? = some node ∧ node.component.type = .dir ∧ call.run fs =
        .ok (0, some fs.nodes.length, fs.addNode call.dirNode node call.name call.newType)) := by
  obtain ⟨node, here⟩ : ∃ node, fs.nodes[call.dirNode]? = some node :=
    ⟨_, List.getElem?_eq_getElem fits.valid⟩
  have is_dir := Fs.isDir_iff here
  have listing := Fs.listing_eq here
  have no_nul := fits.no_nul
  by_cases dir : node.component.type = .dir
  · have len := ((sound.component here).entry dir).1
    rw [← listing] at len
    cases found : fs.names.child call.dirNode call.name with
    | some v =>
      refine .inl ⟨v, rfl, ?_⟩
      cases call with
      | create => exact sound.tmpfsCreate_found here dir no_nul found
      | mkdir => exact sound.tmpfsMkdir_found here dir no_nul found
    | none =>
      by_cases room : node.component.len < tmpfsMaxEntry
      · refine .inr (.inr ⟨rfl, len ▸ room, node, here, dir, ?_⟩)
        cases call with
        | create => exact sound.tmpfsCreate_new here dir no_nul found room fits.short
        | mkdir => exact sound.tmpfsMkdir_new here dir no_nul found room fits.short
      · refine .inr (.inl ⟨rfl, .inr (len ▸ not_lt.mp room), ?_⟩)
        cases call with
        | create => exact sound.tmpfsCreate_full here dir no_nul found (not_lt.mp room)
        | mkdir => exact sound.tmpfsMkdir_full here dir no_nul found (not_lt.mp room)
  · refine .inr (.inl ⟨Fs.child_of_not_dir here dir _, .inl (dir ∘ is_dir.mp), ?_⟩)
    cases call with
    | create => exact tmpfsCreate_file here dir
    | mkdir => exact tmpfsMkdir_file here dir

/-- A new vnode with a new name keeps the directories. -/
theorem Directories.addNode (dirs : Directories fs) (here : fs.nodes[d]? = some node)
    (dir : node.component.type = .dir) (no_nul : 0 ∉ k) (missing : fs.names.child d k = none)
    (room : (fs.listing d).length < tmpfsMaxEntry) (type : CompType) :
    Directories (fs.addNode d node k type) where
  sound := dirs.sound.addNode here dir no_nul type
  few d' := by
    rw [Fs.listing_addNode here dir]
    split_ifs with same
    · rw [List.length_append]
      exact room
    · exact dirs.few d'
  different d' := by
    exact Fs.nodup_addNode here dirs.sound dir missing (dirs.different d')

/-- **One call** keeps the directories. -/
theorem DirStep.keeps {call : DirCall} (dirs : Directories fs) (step : DirStep fs call fs') :
    Directories fs' := by
  obtain ⟨fits, r, target, returns⟩ := step
  rcases call.run_cases dirs.sound fits with
    ⟨v, -, run⟩ | ⟨-, -, run⟩ | ⟨missing, room, node, here, dir, run⟩ <;>
    obtain ⟨-, -, rfl⟩ := Prod.mk.inj (Except.ok.inj (run.symm.trans returns))
  · exact dirs
  · exact dirs
  · exact dirs.addNode here dir fits.no_nul missing room call.newType

/-- The entry behind a child. -/
theorem Fs.Sound.exists_entry (sound : fs.Sound) (found : fs.names.child d k = some v) :
    ∃ x node, x ∈ fs.listing d ∧ fs.nodes[x]? = some node ∧ node.component.name = k ∧
      v = node.mount.getD x := by
  obtain ⟨x, entry, covered⟩ := Namespace.child_eq_some.mp found
  obtain ⟨listed, name⟩ := Fs.entry_mem entry
  obtain ⟨node, there⟩ := sound.exists_listed listed
  rw [Fs.nameOf_eq there, Option.some_inj] at name
  rw [Fs.cover_eq there] at covered
  exact ⟨x, node, listed, there, name, covered.symm⟩

/-- **What one call does.** -/
theorem DirCall.effect (call : DirCall) (sound : fs.Sound) (fits : call.Fits fs) :
    ∃ r target fs', call.run fs = .ok (r, target, fs') ∧ call.Effect fs r target fs' := by
  have absent := sound.tmpfsLookup_absent fits.valid fits.no_nul
  have present {v : ℕ} := sound.tmpfsLookup_present (v := v) fits.valid fits.no_nul
  rcases call.run_cases sound fits with
    ⟨v, found, run⟩ | ⟨missing, fails, run⟩ | ⟨missing, room, node, here, dir, run⟩
  · -- the entry is there
    refine ⟨_, _, _, run, ?_, ?_, ?_, ?_⟩
    · intro _ lookup _
      exact absurd (found.symm.trans (absent.mp lookup)) (by simp)
    · intro v' lookup
      obtain rfl := Option.some.inj (found.symm.trans (present.mp lookup))
      exact ⟨rfl, rfl, rfl, sound.exists_entry found⟩
    · rintro (not_dir | ⟨lookup, -⟩)
      · have here := List.getElem?_eq_getElem fits.valid
        rw [Fs.child_of_not_dir here (not_dir ∘ (Fs.isDir_iff here).mpr)] at found
        contradiction
      · exact absurd (found.symm.trans (absent.mp lookup)) (by simp)
    · intro failed
      cases call <;> contradiction
  · -- the entry is missing and cannot be made
    refine ⟨_, _, _, run, ?_, ?_, fun _ => rfl, fun _ => ⟨rfl, rfl⟩⟩
    · intro is_dir _ room
      rcases fails with not_dir | full
      · exact absurd is_dir not_dir
      · exact absurd room (not_lt.mpr full)
    · intro v lookup
      exact absurd (missing.symm.trans (present.mp lookup)) (by simp)
  · -- a new entry
    let fs' := fs.addNode call.dirNode node call.name call.newType
    have sound' : fs'.Sound := sound.addNode here dir fits.no_nul call.newType
    have child : ∀ d k, fs'.names.child d k = if d = call.dirNode ∧ k = call.name then
        some fs.nodes.length else fs.names.child d k := sound.child_addNode here dir missing
    have more : fs.nodes.length < fs'.nodes.length := by
      rw [Fs.length_addNode]
      exact Nat.lt_succ_self _
    refine ⟨_, _, _, run, fun _ _ _ => ⟨rfl, rfl, Fs.nameOf_addNode_new, fun d => ?_, ?_, ?_⟩,
      ?_, ?_, fun failed => absurd failed (by decide)⟩
    · rw [Fs.listing_addNode here dir]
      split_ifs with same
      · rw [same]
      · rfl
    · intro t
      have found : fs'.names.child call.dirNode call.name = some fs.nodes.length :=
        (child _ _).trans (if_pos ⟨rfl, rfl⟩)
      rw [sound'.tmpfsLookup_valid (fits.valid.trans more) fits.no_nul, found]
      rfl
    · intro d k t valid no_nul other
      have same : fs'.names.child d k = fs.names.child d k := by
        rw [child, if_neg]
        rintro ⟨rfl, rfl⟩
        exact other.elim (· rfl) (· rfl)
      rw [sound'.tmpfsLookup_valid (valid.trans more) no_nul, same,
        sound.tmpfsLookup_valid valid no_nul]
    · intro v lookup
      exact absurd (missing.symm.trans (present.mp lookup)) (by simp)
    · rintro (not_dir | ⟨-, full⟩)
      · exact absurd ((Fs.isDir_iff here).mpr dir) not_dir
      · exact absurd room (not_lt.mpr full)

/-! ## Runs -/

/-- **Directories along a run**: every directory has at most 16 entries, with different names, and
the next call returns, changes what it should and leaves all other lookups as they were. -/
theorem Run.directories {calls : List DirCall} (dirs : Directories fs₀)
    (run : Run DirStep fs₀ calls fs) : Directories fs ∧ ∀ call : DirCall, call.Fits fs →
      ∃ r target fs', call.run fs = .ok (r, target, fs') ∧ call.Effect fs r target fs' := by
  have dirs' := run.preserves Directories (fun _ _ _ dirs step => step.keeps dirs) dirs
  exact ⟨dirs', fun call fits => call.effect dirs'.sound fits⟩

/-- A tree with few entries in its directories, with different names. -/
theorem Tree.few_different {root : ℕ} (tree : Tree fs root)
    (few : ∀ d, (fs.listing d).length ≤ tmpfsMaxEntry)
    (different : ∀ d, ((fs.listing d).map fs.nameOf).Nodup) : Directories fs :=
  ⟨tree.sound_nodes, few, different⟩

theorem freshRoot_directories : Directories freshRoot.fs := by
  refine freshRoot_plain.rooted.tree.few_different (fun d => ?_) fun d => ?_
  · rw [freshRoot_listing]
    exact Nat.zero_le _
  · rw [freshRoot_listing]
    exact List.nodup_nil

/-- A directory in a root: it is found, and cannot be made again. -/
theorem freshRoot_mkdir_twice : ∃ fs, Run DirStep freshRoot.fs [.mkdir 0 none [97]] fs ∧
    Directories fs ∧ tmpfsCreate .file 0 none [97] fs = .ok (1, some 1, fs) := by
  let call := DirCall.mkdir 0 none [97]
  have fits : call.Fits freshRoot.fs := ⟨by decide, by decide, by decide⟩
  obtain ⟨r, target, fs, returns, effect⟩ := call.effect freshRoot_directories.sound fits
  obtain ⟨-, -, -, listing, found, -⟩ := effect.absent rfl rfl (by decide)
  have run : Run DirStep freshRoot.fs [call] fs := .single ⟨fits, r, target, returns⟩
  obtain ⟨dirs, next⟩ := Run.directories freshRoot_directories run
  have valid : 1 < fs.nodes.length := by
    apply dirs.sound.valid (d := 0)
    rw [listing 0]
    exact List.mem_singleton.mpr rfl
  obtain ⟨r', target', fs', returns', effect'⟩ :=
    next (.create .file 0 none [97]) ⟨Nat.zero_lt_of_lt valid, by decide, by decide⟩
  obtain ⟨rfl, rfl, rfl, -⟩ := effect'.present 1 (found none)
  exact ⟨fs', run, dirs, returns'⟩

end BareMetal.Vfs
