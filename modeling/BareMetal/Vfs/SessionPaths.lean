import BareMetal.Vfs.Sessions

/-!
# Paths in sessions

In an orderly session `sysc_open`, `sysc_mkdir` and `sysc_chdir` of `lib/exception.c` are steps
of the view, where their paths fit and are not among those that the calls get wrong.

## Main results

* `Session.Orderly.open_found`, `Session.Orderly.open_new`, `Session.Orderly.mkdir`,
  `Session.Orderly.changeDir` — the calls on paths return, and what they do
-/

namespace BareMetal.Vfs

open CS Strings

variable {c : Session} {s s' : State} {fs fs' : Fs} {cur : Process} {root u v d fd handle flags : ℕ}
  {node : Vnode} {pathname p : List UInt8} {names q : List (List UInt8)}
  {target target' : Option ℕ} {result : ℤ}

/-! ## Idle descriptors -/

theorem idleFdLoop_first (table : List (Option ℕ)) (i : ℕ) :
    idleFdLoop table i = -1 ∧ none ∉ table ∨
      ∃ j : ℕ, idleFdLoop table i = ((i + j : ℕ) : ℤ) ∧ table[j]? = some none ∧
        none ∉ table.take j := by
  induction table generalizing i with
  | nil => exact .inl ⟨rfl, List.not_mem_nil⟩
  | cons entry table ih =>
    cases entry with
    | none => exact .inr ⟨0, rfl, rfl, List.not_mem_nil⟩
    | some file =>
      rcases ih (i + 1) with ⟨failed, full⟩ | ⟨j, found, idle, first⟩
      · exact .inl ⟨failed, by simp [full]⟩
      · refine .inr ⟨j + 1, ?_, idle, by simp [first]⟩
        rw [idleFdLoop, found, Nat.add_assoc, Nat.add_comm 1]

/-- In an orderly session an entry is null exactly if the descriptor is not open in the view. -/
theorem Session.Orderly.none_mem_view (orderly : c.Orderly root) {n : ℕ}
    (idle : none ∈ c.view.fds.take n) : none ∈ c.process.fdTable.toList.take n := by
  change none ∈ (c.process.fdTable.toList.map _).take n at idle
  rw [← List.map_take, List.mem_map] at idle
  obtain ⟨entry, inside, nothing⟩ := idle
  cases entry with
  | none => exact inside
  | some f =>
    obtain ⟨i, bound⟩ := List.mem_iff_getElem?.mp (List.mem_of_mem_take inside)
    obtain ⟨handle, v, node, stands⟩ := orderly.stands bound
    rw [Option.bind_some, stands.stand_eq] at nothing
    contradiction

/-- `get_task_idle_fd` finds the lowest idle descriptor. -/
theorem Session.Orderly.idle_cases (orderly : c.Orderly root) :
    getTaskIdleFd c.process = -1 ∧ none ∉ c.view.fds ∨
      ∃ fd : ℕ, fd < vfsProcessMaxOpenFile ∧ getTaskIdleFd c.process = fd ∧
        c.process.fdTable.toList[fd]? = some none ∧ c.view.FirstIdle fd := by
  rcases idleFdLoop_first c.process.fdTable.toList 0 with ⟨failed, full⟩ | ⟨fd, found, idle, first⟩
  · refine .inl ⟨failed, fun inside => full ?_⟩
    have whole : c.view.fds.take c.view.fds.length = c.view.fds := List.take_length
    exact List.mem_of_mem_take (orderly.none_mem_view (whole.symm ▸ inside))
  · rw [Nat.zero_add] at found
    refine .inr ⟨fd, by simpa using (List.getElem?_eq_some_iff.mp idle).1, found, idle, ?_,
      fun inside => first (orderly.none_mem_view inside)⟩
    change (c.process.fdTable.toList.map _)[fd]? = _
    rw [List.getElem?_map, idle]
    rfl

/-! ## New vnodes -/

theorem Adds.reaches_mono {r : ℕ} (adds : Adds r fs fs') (tree : Tree fs root)
    (reaches : fs.names.Reaches root q d) : fs'.names.Reaches root q d := by
  induction adds with
  | refl => exact reaches
  | tail before step ih => exact step.reaches_mono (Adds.tree before tree) ih

/-- The create loop makes vnodes of tmpfs only. -/
theorem Tree.createLoop_memory (old : ℕ) (tree : Tree s.fs root)
    (clean : ∀ k ∈ names, 0 ∉ k ∧ slash ∉ k)
    (suits : ∀ {v : ℕ} {node : Vnode}, s.fs.nodes[v]? = some node → Suits s.mounted node)
    (new : ∀ {v : ℕ} {node : Vnode}, old ≤ v → s.fs.nodes[v]? = some node → node.fOps = .tmpfs)
    (returns : createLoop names d target s = .ok (result, target', s')) {v : ℕ} {node : Vnode}
    (there : s'.fs.nodes[v]? = some node) :
    Suits s.mounted node ∧ (old ≤ v → node.fOps = .tmpfs) := by
  induction names generalizing d target s with
  | nil =>
    cases returns
    exact ⟨suits there, fun beyond => new beyond there⟩
  | cons k names ih =>
    obtain ⟨⟨no_nul, no_slash⟩, clean'⟩ := List.forall_mem_cons.mp clean
    rw [createLoop] at returns
    by_cases empty : k = []
    · rw [if_pos empty] at returns
      exact ih tree clean' suits new returns
    rw [if_neg empty] at returns
    obtain ⟨dir, here, returns⟩ := outcome_bind_eq_ok.mp returns
    obtain ⟨⟨made, target₁, fs₁⟩, mkdir, returns⟩ := outcome_bind_eq_ok.mp returns
    dsimp only at returns
    rw [Fs.node_eq_ok] at here
    rcases tree.mkdir_cases no_nul empty no_slash mkdir with
      ⟨rfl, opens, v', ⟨rfl, -, rfl⟩ | ⟨rfl, -, adds⟩⟩ | ⟨failed, rfl, rfl⟩
    · exact ih tree clean' suits new returns
    · -- the functions are those of the directory, and it is not one of the initramfs
      obtain @⟨parent, here', is_dir, missing, proper, -⟩ := adds
      obtain rfl := Option.some.inj (here.symm.trans here')
      have suits_dir := suits here
      have memory : dir.fOps = .tmpfs := by
        rcases opens with kind | ⟨kind, unmounted⟩
        · exact suits_dir.1.symm.trans kind
        · rw [suits_dir.2 kind] at unmounted
          contradiction
      refine ih (s := { s with fs := s.fs.addDir d dir k }) (tree.addDir here is_dir proper) clean'
        (fun there => ?_) (fun beyond there => ?_) returns
      · rcases Fs.addDir_cases here there with ⟨rfl, rfl⟩ | ⟨rfl, rfl⟩ | ⟨-, before⟩
        · exact suits_dir
        · exact suits_dir
        · exact suits before
      · rcases Fs.addDir_cases here there with ⟨rfl, rfl⟩ | ⟨rfl, rfl⟩ | ⟨-, before⟩
        · exact memory
        · exact memory
        · exact new beyond before
    · rw [if_neg failed] at returns
      exact ih tree clean' suits new returns

/-- The state before the vnode `v` becomes a file, when `vfs_open` has made the path. -/
structure NewDir (s s₁ : State) (root v : ℕ) (old : Vnode) (pathname : List UInt8) : Prop where
  adds : Adds 0 s.fs s₁.fs
  rooted : Rooted s₁ root
  mounted : s₁.mounted = s.mounted
  here : s₁.fs.nodes[v]? = some old
  dir : old.component.type = .dir
  empty : s₁.fs.listing v = []
  free : s₁.fs.names.cover v = none
  resolves : s₁.fs.names.Resolves root (components pathname) v
  new : s.fs.nodes.length ≤ v

/-- The handles and the bytes of the UART are left alone. -/
theorem Adds.frame {r : ℕ} (adds : Adds r fs fs') :
    fs'.files = fs.files ∧ fs'.uartIn = fs.uartIn ∧ fs'.uartOut = fs.uartOut := by
  rw [Adds.others adds]
  exact ⟨rfl, rfl, rfl⟩

theorem Tree.leadsTo_valid (tree : Tree s.fs root) (leads : s.LeadsTo root p v) :
    v < s.fs.nodes.length := by
  rcases leads with ⟨-, rfl⟩ | ⟨-, resolves⟩
  · exact tree.root_valid
  · exact tree.resolves_valid resolves

theorem Adds.notShorter {r : ℕ} (adds : Adds r fs fs') : fs.NotShorter fs' := by
  intro u m here regular
  obtain ⟨m', there, grows⟩ := Adds.extend adds here
  exact ⟨m', there, grows.type, grows.fOps, by rw [grows.file regular]⟩

namespace NewDir

variable {s₁ : State} {old : Vnode} {x : ℕ} (new : NewDir s s₁ root v old pathname)

include new

theorem other (valid : x < s.fs.nodes.length) : x ≠ v := (valid.trans_le new.new).ne

/-- The file takes no name away. -/
theorem pruned : Namespace.Pruned s₁.fs.names (s₁.fs.newFile v).names v :=
  makesFile_open.pruned new.empty new.free

theorem notShorter : s.fs.NotShorter (s₁.fs.newFile v) := by
  intro u m here regular
  obtain ⟨m', there, kept⟩ := Adds.notShorter new.adds here regular
  have other := new.other (List.getElem?_eq_some_iff.mp here).1
  exact ⟨m', (Fs.modifyComponent_of_ne _ other).trans there, kept⟩

variable (tree : Tree s.fs root)
include tree

theorem keeps (resolves : s.fs.names.Resolves root q x) :
    (s₁.fs.newFile v).names.Resolves root q x :=
  new.pruned.resolves_iff.mpr (Adds.resolves_mono new.adds tree resolves)

theorem is_old (valid : x < s.fs.nodes.length)
    (resolves : (s₁.fs.newFile v).names.Resolves root q x) : s.fs.names.Resolves root q x :=
  Adds.resolves_old new.adds tree valid (new.pruned.resolves_iff.mp resolves)

theorem reaches (reaches : s.fs.names.Reaches root q d) :
    (s₁.fs.newFile v).names.Reaches root q d :=
  (new.pruned.reaches_iff (new.other (tree.reaches_valid reaches))).mpr
    (Adds.reaches_mono new.adds tree reaches)

end NewDir

/-- The functions of the vnodes behind the loop. -/
theorem Rooted.loop_memory (rooted : Rooted s root) (clean : ∀ k ∈ names, 0 ∉ k ∧ slash ∉ k)
    (suits : ∀ {v : ℕ} {node : Vnode}, s.fs.nodes[v]? = some node → Suits s.mounted node)
    (loop : createLoop names u target { s with strtok := .idle } = .ok (result, target', s')) :
    s'.mounted = s.mounted ∧ ∀ {v : ℕ} {node : Vnode}, s'.fs.nodes[v]? = some node →
      Suits s'.mounted node ∧ (s.fs.nodes.length ≤ v → node.fOps = .tmpfs) := by
  obtain ⟨-, -, others⟩ := Tree.createLoop_adds (s := { s with strtok := .idle }) rooted.tree
    clean s.fs.closed_zero (Nat.zero_le u) (Nat.zero_le _) loop
  have mounted : s'.mounted = s.mounted := by rw [others]
  refine ⟨mounted, fun there => ?_⟩
  rw [mounted]
  exact Tree.createLoop_memory (s := { s with strtok := .idle }) s.fs.nodes.length rooted.tree
    clean suits
    (fun beyond old => absurd (List.getElem?_eq_some_iff.mp old).1 (Nat.not_lt.mpr beyond))
    loop there

section Created

variable (rooted : Rooted s root) (settles : s.fs.names.Settles root u) (dir : s.fs.names.isDir u)
  (no_nul : 0 ∉ pathname) (fits : s.LookupFits root pathname) (path_fits : s.PathFits u pathname)
include rooted settles dir no_nul fits path_fits

/-- A call for creation that fits returns 0 and leaves what the create loop leaves. -/
theorem Rooted.creates (target : Option ℕ) : ∃ target' s',
    Returns (fun fuel => lookupPath 0 fuel pathname root target true s) (0, target', s') ∧
      createLoop (splitNames pathname) u target { s with strtok := .idle } =
        .ok (0, target', s') := by
  have short := rooted.short_first fits
  obtain ⟨⟨result, target', s'⟩, create⟩ := (rooted.create_ends settles dir (le_refl 0) no_nul
    short path_fits.length target).1 path_fits.create
  obtain ⟨-, loop⟩ := (rooted.create_iff settles dir no_nul short).mp create
  obtain ⟨rfl, -, -⟩ := rooted.loop_adds (splitNames_clean no_nul) loop
  exact ⟨target', s', create, loop⟩

/-- **`vfs_open` makes a path** that led nowhere. -/
theorem Rooted.vfsOpen_new (creat : flags &&& oCreat ≠ 0)
    (nowhere : ∀ v, ¬ s.LeadsTo root pathname v) (makes : s.Makes u pathname)
    (suits : ∀ {v : ℕ} {node : Vnode}, s.fs.nodes[v]? = some node → Suits s.mounted node)
    (handle : ℕ) (file : Option ℕ) : ∃ v s₁ old,
      Returns (fun fuel => vfsOpen 0 fuel pathname flags handle file s)
        (0, some handle, { s₁ with fs := (s₁.fs.newFile v).openFile handle v flags old.fOps }) ∧
      NewDir s s₁ root v old pathname ∧ old.fOps = .tmpfs ∧
      ∀ {x : ℕ} {node : Vnode}, s₁.fs.nodes[x]? = some node → Suits s₁.mounted node := by
  obtain ⟨found, target, lookup, looks⟩ := rooted.vfsLookup_ends no_nul fits
  obtain ⟨rfl, -⟩ := looks.resolve_left fun here => here.2.elim fun v both => nowhere v both.2
  obtain ⟨target', s₁, create, loop⟩ :=
    rooted.creates settles dir no_nul fits path_fits target
  obtain ⟨-, adds, rooted'⟩ := rooted.loop_adds (splitNames_clean no_nul) loop
  obtain ⟨mounted, kinds⟩ := rooted.loop_memory (splitNames_clean no_nul) suits loop
  have not_root : pathname ≠ [slash] := fun same => nowhere root (.inl ⟨same, rfl⟩)
  have unresolved : ∀ v, ¬ s.fs.names.Resolves root (components pathname) v :=
    fun v resolves => nowhere v (.inr ⟨not_root, resolves⟩)
  rw [splitNames_of_named makes.named] at loop
  obtain ⟨v, rfl, created⟩ := Tree.createLoop_created (s := { s with strtok := .idle })
    rooted.tree settles dir (proper_components no_nul makes.named) components_ne_nil loop
    (makes.creatable.with_strtok _)
  obtain ⟨resolves, new, free⟩ :=
    created.resolves_new adds rooted.tree components_ne_nil unresolved
  have empty : s₁.fs.listing v = [] := by
    apply created.empty
    intro k x old
    obtain ⟨d, reaches, -⟩ := Namespace.resolves_snoc.mp old
    obtain ⟨w, before, -⟩ := reaches.exists_resolves components_ne_nil List.prefix_rfl
    exact unresolved w before
  have here := List.getElem?_eq_getElem (created.tree.resolves_valid resolves)
  exact ⟨v, s₁, _, (rooted.vfsOpen_iff settles dir lookup creat).mpr
    ⟨v, s₁, _, create, here, rfl, rfl, rfl⟩, ⟨adds, rooted', mounted, here,
      (Fs.isDir_iff here).mp created.dir, empty, free, resolves, new⟩, (kinds here).2 new,
    fun there => (kinds there).1⟩

end Created

/-! ## `sysc_open` -/

/-- A new handle of a file is bound to an idle descriptor, in files that may have got new ones. -/
theorem Session.Orderly.bind {v : ℕ} (orderly : c.Orderly root)
    (files : s.fs.files = c.state.fs.files) (longer : c.state.fs.NotShorter s.fs)
    (rooted : Rooted s root) (cwd : s.GoodCwd root c.process.cwd)
    (reaches : ∀ {q : List (List UInt8)}, (∃ d, c.state.fs.names.Reaches root q d) →
      ∃ d, s.fs.names.Reaches root q d) (stored : s.fs.Stored)
    (suits : ∀ {x : ℕ} {m : Vnode}, s.fs.nodes[x]? = some m → Suits s.mounted m)
    (here : s.fs.nodes[v]? = some node) (regular : node.component.type = .file)
    (fresh : c.state.fs.files handle = none) (inside : fd < vfsProcessMaxOpenFile)
    (idle : c.process.fdTable.toList[fd]? = some none) (flags : ℕ) :
    let after : Session :=
      ⟨{ c.process with fdTable := c.process.fdTable.set fd (some handle) },
        { s with fs := s.fs.openFile handle v flags node.fOps }⟩
    after.Orderly root ∧ after.view =
      { c.view.place fd (some (v, 0)) with
        leads := s.leads, files := s.fs.file, uartIn := s.fs.uartIn, uartOut := s.fs.uartOut } ∧
      c.Frame after root := by
  intro after
  have rooted' : Rooted after.state root :=
    ⟨rooted.rootfs, rooted.tree.of_nodes rfl, rooted.idle⟩
  have at_handle : after.state.fs.files handle = some ⟨some v, 0, node.fOps, flags⟩ :=
    Heap.alloc_self
  -- no descriptor is bound to the new handle yet
  have other {i g : ℕ} (bound : c.process.fdTable.toList[i]? = some (some g)) : g ≠ handle := by
    rintro rfl
    obtain ⟨h, x, m, stands⟩ := orderly.stands bound
    rw [stands.opened] at fresh
    contradiction
  have same {g : ℕ} (not_new : g ≠ handle) :
      after.state.fs.files g = c.state.fs.files g :=
    (Heap.alloc_of_ne not_new).trans (congrFun files g)
  -- a bound descriptor is the new one, or one from before
  have entries {i g : ℕ} (bound : after.process.fdTable.toList[i]? = some (some g)) :
      i = fd ∧ g = handle ∨ i ≠ fd ∧ c.process.fdTable.toList[i]? = some (some g) := by
    change (c.process.fdTable.set fd (some handle)).toList[i]? = _ at bound
    rw [Vector.toList_set, List.getElem?_set] at bound
    split_ifs at bound with at_fd
    · exact .inl ⟨at_fd.symm, (Option.some.inj (Option.some.inj bound)).symm⟩
    · exact .inr ⟨Ne.symm at_fd, bound⟩
  refine ⟨⟨⟨rooted', cwd.is_cwd, cwd.leads⟩, stored.of_data rfl rfl, suits, fun bound => ?_,
    fun bound bound' => ?_⟩, View.ext rfl (rooted.leads_congr rooted' rfl) rfl ?_ rfl rfl,
    ⟨fun {g} _ opened => same ?_, longer, reaches, fun bound => ?_⟩⟩
  · rcases entries bound with ⟨rfl, rfl⟩ | ⟨-, bound⟩
    · exact ⟨_, v, node, at_handle, rfl, here, regular, rfl, Nat.zero_le _⟩
    · obtain ⟨h, x, m, stands⟩ := orderly.stands bound
      obtain ⟨m', there, type, fOps, le⟩ := longer stands.here stands.regular
      exact ⟨h, x, m', (same (other bound)).trans stands.opened, stands.points, there,
        type.trans stands.regular, stands.fOps.trans fOps.symm, stands.inside.trans le⟩
  · rcases entries bound with ⟨rfl, rfl⟩ | ⟨-, old⟩ <;>
      rcases entries bound' with ⟨rfl, new⟩ | ⟨-, old'⟩
    · rfl
    · exact absurd rfl (other old')
    · exact absurd new (other old)
    · exact orderly.different old old'
  · -- what the view shows of the descriptors
    have set : after.process.stands after.state.fs =
        (c.process.stands c.state.fs).set fd ((some handle).bind after.state.fs.stand) :=
      Process.stands_set inside fun _ bound => by
        rw [Fs.stand, same (other bound), Fs.stand]
    rw [Option.bind_some, Fs.stand, at_handle] at set
    exact set
  · rintro rfl
    rw [fresh] at opened
    contradiction
  · rcases entries bound with ⟨-, rfl⟩ | ⟨-, old⟩
    · exact .inr fresh
    · exact .inl ⟨_, old⟩

/-- The path is translated, and its names fit where they are copied. -/
structure Session.PathOk (c : Session) (root : ℕ) (pathname : List UInt8) : Prop where
  no_nul : 0 ∉ pathname
  joins : JoinFits c.process.cwd pathname
  not_blank : ¬ EndsInBlank pathname
  lookup : c.state.LookupFits root (absolute c.process.cwd pathname)

/-- The first part of the calls: `to_abs_path`. -/
theorem Session.Orderly.translates (orderly : c.Orderly root) (ok : c.PathOk root pathname) :
    ∃ st, toAbsPath c.process.cwd pathname c.state.strtok = .ok (0, c.view.path pathname, st) ∧
      Rooted { c.state with strtok := st } root ∧ 0 ∉ c.view.path pathname := by
  have is_cwd := orderly.good.cwd.is_cwd
  obtain ⟨st, idle, translated⟩ := toAbsPath_ends is_cwd ok.no_nul orderly.good.rooted.idle
  rw [if_neg (not_not.mpr ok.joins), if_neg ok.not_blank] at translated
  exact ⟨st, translated, ⟨orderly.good.rooted.rootfs, orderly.good.rooted.tree, idle⟩,
    not_nul_mem_absolute is_cwd ok.no_nul⟩

/-- A session after a call that has changed no more than the state of `strtok`. -/
theorem Session.Orderly.with_strtok {st : Strtok} (orderly : c.Orderly root)
    (rooted : Rooted { c.state with strtok := st } root) :
    Session.Orderly ⟨c.process, { c.state with strtok := st }⟩ root ∧
      Session.view ⟨c.process, { c.state with strtok := st }⟩ = c.view ∧
      c.Frame ⟨c.process, { c.state with strtok := st }⟩ root :=
  ⟨⟨⟨rooted, orderly.good.cwd.is_cwd, orderly.good.cwd.leads⟩, orderly.stored, orderly.suits,
      orderly.stands, orderly.different⟩,
    View.ext rfl (orderly.good.rooted.leads_congr rooted rfl) rfl rfl rfl rfl,
    ⟨fun _ _ => rfl, Fs.NotShorter.refl _, id, fun bound => .inl ⟨_, bound⟩⟩⟩

/-- Whether and where a path leads, by the view and by the names. -/
theorem Session.Orderly.path_leads (orderly : c.Orderly root) (ok : c.PathOk root pathname) :
    c.view.leads (c.view.path pathname) = some v ↔
      c.state.LeadsTo root (c.view.path pathname) v := by
  refine orderly.good.rooted.leads_eq_some.trans (and_iff_right ?_)
  exact not_nul_mem_absolute orderly.good.cwd.is_cwd ok.no_nul

theorem Session.Orderly.path_nowhere (orderly : c.Orderly root)
    (nowhere : ∀ v, ¬ c.state.LeadsTo root (c.view.path pathname) v) :
    c.view.leads (c.view.path pathname) = none :=
  Option.eq_none_iff_forall_ne_some.mpr fun v leads =>
    nowhere v (orderly.good.rooted.leads_eq_some.mp leads).2

/-- Names that were there are still there, and those of old vnodes are not new. -/
theorem Session.Orderly.grown (orderly : c.Orderly root) (rooted : Rooted s root)
    (keeps : ∀ {q v}, c.state.fs.names.Resolves root q v → s.fs.names.Resolves root q v)
    (old : ∀ {q v}, v < c.state.fs.nodes.length → s.fs.names.Resolves root q v →
      c.state.fs.names.Resolves root q v) : c.view.Grown s.leads where
  keeps leads := by
    obtain ⟨no_nul, leads⟩ := orderly.good.rooted.leads_eq_some.mp leads
    exact rooted.leads_eq_some.mpr ⟨no_nul, leads.imp_right fun both => ⟨both.1, keeps both.2⟩⟩
  old file leads := by
    obtain ⟨no_nul, leads⟩ := rooted.leads_eq_some.mp leads
    exact orderly.good.rooted.leads_eq_some.mpr
      ⟨no_nul, leads.imp_right fun both => ⟨both.1, old (Fs.valid_of_file file) both.2⟩⟩

section Open

variable (orderly : c.Orderly root) (fresh : c.state.fs.files handle = none)
include orderly

/-- `sysc_open` without an idle descriptor. -/
theorem Session.Orderly.open_full (full : getTaskIdleFd c.process < 0) (pathname : List UInt8)
    (flags handle : ℕ) :
    Returns (fun fuel => syscOpen 0 fuel handle pathname flags c.process c.state)
        (-1, c.process, c.state) ∧
      View.Step c.view (.opened pathname flags (-1)) c.view := by
  refine ⟨⟨0, if_pos full⟩, ?_⟩
  rcases orderly.idle_cases with ⟨-, full⟩ | ⟨fd, -, found, -⟩
  · exact .full pathname flags full
  · omega

include fresh

/-- **`sysc_open`** of a path that leads to a regular file. -/
theorem Session.Orderly.open_found (ok : c.PathOk root pathname)
    (leads : c.state.LeadsTo root (c.view.path pathname) v)
    (here : c.state.fs.nodes[v]? = some node)
    (regular : node.component.type = .file) (idle : 0 ≤ getTaskIdleFd c.process) (flags : ℕ) :
    ∃ r cur' s', Returns (fun fuel => syscOpen 0 fuel handle pathname flags c.process c.state)
        (r, cur', s') ∧ Session.Orderly ⟨cur', s'⟩ root ∧
      View.Step c.view (.opened pathname flags r) (Session.view ⟨cur', s'⟩) ∧
      c.Frame ⟨cur', s'⟩ root := by
  obtain ⟨st, translated, rooted, no_nul⟩ := orderly.translates ok
  obtain ⟨found, target, ⟨fuel, lookup⟩, ⟨rfl, w, rfl, leads'⟩ | ⟨-, nowhere⟩⟩ :=
    rooted.vfsLookup_ends no_nul ok.lookup
  · obtain rfl := State.LeadsTo.unique leads leads'
    rcases orderly.idle_cases with ⟨failed, -⟩ | ⟨fd, inside, found, null, first⟩
    · omega
    obtain ⟨orderly', view, frame⟩ := orderly.bind (s := { c.state with strtok := st }) rfl
      (Fs.NotShorter.refl _) rooted ⟨orderly.good.cwd.is_cwd, orderly.good.cwd.leads⟩ id
      orderly.stored orderly.suits here regular fresh inside null flags
    refine ⟨fd, _, _, ⟨fuel, ?_⟩, orderly', ?_, frame⟩
    · -- `tmpfs_open` of a regular file leaves it as it is
      have opens : vfsOpen 0 fuel (c.view.path pathname) flags handle none
          { c.state with strtok := st } = .ok (0, some handle, { c.state with
            fs := c.state.fs.openFile handle v flags node.fOps, strtok := st }) := by
        dsimp only at lookup
        simp [vfsOpen, openNode, lookup, tmpfsOpen_file here regular]
      dsimp only [syscOpen]
      rw [found, if_neg (by omega), translated, outcome_bind_ok]
      dsimp only
      rw [opens, outcome_bind_ok]
      dsimp only
      rw [Process.setFd_eq _ inside]
      rfl
    · rw [view]
      have names : ({ c.state with strtok := st } : State).leads = c.view.leads :=
        orderly.good.rooted.leads_congr rooted rfl
      rw [names]
      refine View.Step.opened flags first ((orderly.path_leads ok).mpr leads) ?_
      exact Option.isSome_iff_exists.mpr ⟨_, Fs.file_eq here regular⟩
  · exact absurd leads (nowhere v)

/-- **`sysc_open`** of a path that led nowhere makes a regular file of tmpfs. -/
theorem Session.Orderly.open_new (ok : c.PathOk root pathname)
    (settles : c.state.fs.names.Settles root u) (dir : c.state.fs.names.isDir u)
    (nowhere : ∀ v, ¬ c.state.LeadsTo root (c.view.path pathname) v)
    (path_fits : c.state.PathFits u (c.view.path pathname))
    (makes : c.state.Makes u (c.view.path pathname)) (idle : 0 ≤ getTaskIdleFd c.process)
    (creat : flags &&& oCreat ≠ 0) :
    ∃ r cur' s', Returns (fun fuel => syscOpen 0 fuel handle pathname flags c.process c.state)
        (r, cur', s') ∧ Session.Orderly ⟨cur', s'⟩ root ∧
      View.Step c.view (.opened pathname flags r) (Session.view ⟨cur', s'⟩) ∧
      c.Frame ⟨cur', s'⟩ root := by
  obtain ⟨st, translated, rooted, no_nul⟩ := orderly.translates ok
  rcases orderly.idle_cases with ⟨failed, -⟩ | ⟨fd, inside, found, null, first⟩
  · omega
  obtain ⟨v, s₁, old, ⟨fuel, opens⟩, new, memory, suits⟩ := rooted.vfsOpen_new settles dir no_nul
    ok.lookup ⟨path_fits.length, (State.createFits_with_strtok st).mpr path_fits.create⟩ creat
    nowhere ⟨makes.named, makes.creatable.with_strtok st⟩ orderly.suits handle none
  have tree := orderly.good.rooted.tree
  -- the create loop makes directories; `tmpfs_open` makes a file of the last one
  have zero := new.rooted.tree.len_eq_zero new.here new.dir new.empty
  have stored := Adds.stays_stored new.adds orderly.stored tree
  have rooted₂ : Rooted { s₁ with fs := s₁.fs.newFile v } root :=
    ⟨new.rooted.rootfs, makesFile_open.tree new.rooted.tree, new.rooted.idle⟩
  obtain ⟨same_files, same_in, same_out⟩ := Adds.frame new.adds
  have suits₂ {x : ℕ} {m : Vnode} (there : (s₁.fs.newFile v).nodes[x]? = some m) :
      Suits s₁.mounted m := by
    rcases Fs.modifyComponent_cases _ there with ⟨before, -, was, rfl⟩ | ⟨-, was⟩
    · have kept := suits was
      exact kept
    · exact suits was
  obtain ⟨orderly', view, frame⟩ := orderly.bind (s := { s₁ with fs := s₁.fs.newFile v })
    same_files new.notShorter rooted₂
    ⟨orderly.good.cwd.is_cwd, orderly.good.cwd.leads.imp fun _ => new.reaches tree⟩
    (fun reaches => reaches.imp fun _ => new.reaches tree) (stored.newFile new.here zero) suits₂
    (Fs.newFile_self new.here) rfl fresh inside null flags
  refine ⟨fd, _, _, ⟨fuel, ?_⟩, orderly', ?_, frame⟩
  · dsimp only at opens
    dsimp only [syscOpen]
    rw [found, if_neg (by omega), translated, outcome_bind_ok]
    dsimp only
    rw [opens, outcome_bind_ok]
    dsimp only
    rw [Process.setFd_eq _ inside]
    rfl
  · have files : (s₁.fs.newFile v).file = Function.update c.view.files v (some (.memory, [])) := by
      rw [Fs.file_newFile new.here zero, Adds.file_eq new.adds, Vnode.medium, memory]
      rfl
    have not_root : c.view.path pathname ≠ [slash] := fun same => nowhere root (.inl ⟨same, rfl⟩)
    have leads : State.leads { s₁ with fs := s₁.fs.newFile v } (c.view.path pathname) = some v :=
      rooted₂.leads_eq_some.mpr
        ⟨no_nul, .inr ⟨not_root, new.pruned.resolves_iff.mpr new.resolves⟩⟩
    rw [view, files, show (s₁.fs.newFile v).uartIn = c.view.uartIn from same_in,
      show (s₁.fs.newFile v).uartOut = c.view.uartOut from same_out]
    refine View.Step.created first creat (orderly.path_nowhere nowhere) ?_ ?_
      (orderly.grown rooted₂ (new.keeps tree) (new.is_old tree)) leads
    · -- the vnode is new, and had neither content nor a name
      by_contra old_file
      have valid := Fs.valid_of_file (Option.isSome_iff_ne_none.mpr old_file)
      exact absurd new.new (Nat.not_le.mpr valid)
    · intro p leads
      obtain ⟨-, leads⟩ := orderly.good.rooted.leads_eq_some.mp leads
      exact absurd new.new (Nat.not_le.mpr (tree.leadsTo_valid leads))

end Open

/-! ## `sysc_mkdir` and `sysc_chdir` -/

/-- A session after directories have been made. -/
theorem Session.Orderly.added (orderly : c.Orderly root) (adds : Adds 0 c.state.fs s.fs)
    (rooted : Rooted s root)
    (suits : ∀ {x : ℕ} {m : Vnode}, s.fs.nodes[x]? = some m → Suits s.mounted m) :
    Session.Orderly ⟨c.process, s⟩ root ∧
      Session.view ⟨c.process, s⟩ = { c.view with leads := s.leads } ∧
      c.Frame ⟨c.process, s⟩ root := by
  have tree := orderly.good.rooted.tree
  obtain ⟨files, uartIn, uartOut⟩ := Adds.frame adds
  refine ⟨⟨⟨rooted, orderly.good.cwd.is_cwd, ?_⟩, Adds.stays_stored adds orderly.stored tree,
    suits, fun bound => ?_, orderly.different⟩,
    View.ext rfl rfl (Adds.file_eq adds) ?_ uartIn uartOut,
    ⟨fun _ _ => congrFun files _, Adds.notShorter adds,
      fun reaches => reaches.imp fun _ => Adds.reaches_mono adds tree,
      fun bound => .inl ⟨_, bound⟩⟩⟩
  · exact orderly.good.cwd.leads.imp fun _ => Adds.reaches_mono adds tree
  · obtain ⟨handle, v, node, stands⟩ := orderly.stands bound
    obtain ⟨node', there, type, fOps, le⟩ := Adds.notShorter adds stands.here stands.regular
    exact ⟨handle, v, node', (congrFun files _).trans stands.opened, stands.points, there,
      type.trans stands.regular, stands.fOps.trans fOps.symm, stands.inside.trans le⟩
  · have same : s.fs.stand = c.state.fs.stand := by
      ext f : 1
      rw [Fs.stand, Fs.stand, files]
    change c.process.fdTable.toList.map _ = c.process.fdTable.toList.map _
    rw [same]

/-- **`sysc_mkdir`** of a path that leads somewhere, or can be made. -/
theorem Session.Orderly.mkdir (orderly : c.Orderly root) (ok : c.PathOk root pathname)
    (settles : c.state.fs.names.Settles root u) (dir : c.state.fs.names.isDir u)
    (path_fits : c.state.PathFits u (c.view.path pathname))
    (makes : (∃ v, c.state.LeadsTo root (c.view.path pathname) v) ∨
      c.state.Makes u (c.view.path pathname)) :
    ∃ s', Returns (fun fuel => syscMkdir 0 fuel pathname c.process c.state) (0, s') ∧
      Session.Orderly ⟨c.process, s'⟩ root ∧
      View.Step c.view (.madeDir pathname 0) (Session.view ⟨c.process, s'⟩) ∧
      c.Frame ⟨c.process, s'⟩ root := by
  obtain ⟨st, translated, rooted, no_nul⟩ := orderly.translates ok
  have tree := orderly.good.rooted.tree
  obtain ⟨found, target, lookup, looks⟩ := rooted.vfsLookup_ends no_nul ok.lookup
  have not_one : found ≠ 1 := by
    rcases looks with ⟨rfl, -⟩ | ⟨rfl, -⟩ <;> decide
  -- the create loop runs whether or not the path led somewhere
  obtain ⟨target', s₁, create, loop⟩ := rooted.creates settles dir no_nul ok.lookup
    ⟨path_fits.length, (State.createFits_with_strtok st).mpr path_fits.create⟩ target
  obtain ⟨-, adds, rooted₁⟩ := rooted.loop_adds (splitNames_clean no_nul) loop
  obtain ⟨-, kinds⟩ := rooted.loop_memory (splitNames_clean no_nul) orderly.suits loop
  obtain ⟨v, leads⟩ := (rooted.loop_leads_iff settles dir no_nul loop).mpr
    (makes.imp_right fun makes => ⟨makes.named, makes.creatable.with_strtok st⟩)
  obtain ⟨orderly', view, frame⟩ := orderly.added adds rooted₁ fun there => (kinds there).1
  obtain ⟨fuel, returns⟩ := (rooted.vfsMkdir_iff 0 lookup not_one).mpr ⟨0, target', create, rfl⟩
  refine ⟨s₁, ⟨fuel, ?_⟩, orderly', ?_, frame⟩
  · dsimp only at returns
    dsimp only [syscMkdir]
    rw [translated, outcome_bind_ok]
    dsimp only
    rw [returns]
    rfl
  · rw [view]
    refine View.Step.madeDir (orderly.grown rooted₁ (Adds.resolves_mono adds tree)
      (Adds.resolves_old adds tree)) ?_
    rw [rooted₁.leads_eq_some.mpr ⟨no_nul, leads⟩]
    rfl

/-- **`sysc_chdir`** of a path under the condition for it. -/
theorem Session.Orderly.changeDir (orderly : c.Orderly root) (no_nul : 0 ∉ pathname)
    (guard : ChdirGuard root c pathname) :
    ∃ r cur' s', Returns (fun fuel => syscChdir fuel pathname c.process c.state) (r, cur', s') ∧
      Session.Orderly ⟨cur', s'⟩ root ∧
      View.Step c.view (.changedDir pathname r) (Session.view ⟨cur', s'⟩) ∧
      c.Frame ⟨cur', s'⟩ root := by
  have no_nul' := not_nul_mem_absolute orderly.good.cwd.is_cwd no_nul
  obtain ⟨ret, ⟨cur', s'⟩, ⟨fuel, returns⟩, rooted', same_fs, moved, -⟩ :=
    orderly.good.law_of_guard no_nul guard
  obtain ⟨st, r, idle, looks, found⟩ :=
    (orderly.good.chdirLookup_ends no_nul).1 guard.joins guard.not_blank guard.lookup
  refine ⟨ret, cur', s', ⟨fuel, returns⟩, ?_⟩
  -- what the call has looked up, and with it the state afterwards
  obtain ⟨⟨changedPath, r', s₁⟩, looks', rest⟩ := outcome_bind_eq_ok.mp returns
  have same := (chdirLookup_stable pathname c.process c.state).mono.returns_unique ⟨fuel, looks'⟩
    looks
  simp only [Prod.mk.injEq] at same
  obtain ⟨rfl, rfl, rfl⟩ := same
  obtain ⟨closed, -, rest⟩ := outcome_bind_eq_ok.mp rest
  dsimp only at rest
  rcases found with ⟨rfl, v, leads⟩ | ⟨rfl, nowhere⟩
  · obtain ⟨rfl, rfl, rfl⟩ := by simpa using rest
    obtain ⟨cwd, names⟩ := (moved.resolve_right fun failed => failed.1 rfl).2
    have view : Session.view ⟨{ c.process with cwd := closed }, { c.state with strtok := st }⟩ =
        { c.view with cwd := closed } :=
      View.ext rfl (orderly.good.rooted.leads_congr rooted' rfl) rfl rfl rfl rfl
    refine ⟨⟨⟨rooted', cwd⟩, orderly.stored, orderly.suits, orderly.stands, orderly.different⟩, ?_,
      ⟨fun _ _ => rfl, Fs.NotShorter.refl _, id, fun bound => .inl ⟨_, bound⟩⟩⟩
    rw [view]
    have found := orderly.good.rooted.leads_eq_some.mpr ⟨no_nul', leads⟩
    exact .changedDir (Option.isSome_iff_exists.mpr ⟨v, found⟩) cwd.is_cwd names
  · obtain ⟨rfl, rfl, rfl⟩ := by simpa using rest
    obtain ⟨orderly', view, frame⟩ := orderly.with_strtok rooted'
    refine ⟨orderly', ?_, frame⟩
    rw [view]
    exact .staysInDir (orderly.path_nowhere nowhere)

end BareMetal.Vfs
