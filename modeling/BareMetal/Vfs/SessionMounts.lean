import BareMetal.Vfs.Covering
import BareMetal.Vfs.SessionPaths
import BareMetal.Vfs.Shelves

/-!
# Mounts in sessions

In an orderly session `sysc_mount` of a tmpfs on an empty directory puts the root of the new
filesystem in its place, and takes no path away.

## Main results

* `vfsMount_mono` — a larger bound changes nothing
* `Session.Orderly.mount_tmpfs` — on an empty directory the call puts a new one in its place
* `Session.Orderly.mount_nowhere` — on a path that leads nowhere it fails
-/

namespace BareMetal.Vfs

open CS Strings Cpio

variable {c : Session} {s s' : State} {fs : Fs} {root r v x : ℕ} {node : Vnode} {initrd : Initrd}
  {target : List UInt8} {p q : List (List UInt8)}

/-- `sysc_mount`. -/
def syscMount (initrd : Initrd) (i₀ : ℤ) (fuel : ℕ) (target fileName : List UInt8) (cur : Process)
    (s : State) : Outcome (ℤ × State) := do
  let (_, absPath, strtok) ← toAbsPath cur.cwd target s.strtok
  vfsMount initrd i₀ fuel absPath fileName { s with strtok := strtok }

/-! ## Bounds -/

section MountOn

variable {setup : ℕ → State → Outcome (ℤ × ℕ × State)} {target fileName : List UInt8}

theorem mountOn_mono (mono : ∀ s, FuelMonotone fun fuel => setup fuel s)
    (target fileName : List UInt8) (s : State) :
    FuelMonotone fun fuel => mountOn fuel target fileName (setup fuel) s := by
  apply (vfsLookup_mono target none s).bind
  rintro ⟨result, node, s⟩
  dsimp only
  split_ifs
  · cases node with
    | none => exact fuelMonotone_const _
    | some v =>
      refine (fuelMonotone_const (s.fs.node v)).bind fun _ => ?_
      refine (fuelMonotone_const (copyFsName fileName)).bind fun _ => ?_
      exact (mono s).bind fun _ => fuelMonotone_const _
  · exact fuelMonotone_const _

theorem vfsMkdir_mono (i₀ : ℤ) (pathname : List UInt8) (s : State) :
    FuelMonotone fun fuel => vfsMkdir i₀ fuel pathname s :=
  (vfsMkdir_stable i₀ pathname s).mono

theorem vfsMount_mono (initrd : Initrd) (i₀ : ℤ) (target fileName : List UInt8) (s : State) :
    FuelMonotone fun fuel => vfsMount initrd i₀ fuel target fileName s := by
  refine (fuelMonotone_const (strcmp (cstr target) (cstr [slash]))).bind fun _ => ?_
  refine (fuelMonotone_const (strcmp (cstr target) (cstr initramfsPath))).bind fun _ => ?_
  refine (fuelMonotone_const (strcmp (cstr target) (cstr devPath))).bind fun _ => ?_
  split_ifs
  · exact fuelMonotone_const _
  · refine (vfsMkdir_mono i₀ target s).bind fun made => ?_
    exact mountOn_mono (initramfsSetupMount_mono initrd i₀) target fileName made.2
  · refine (vfsMkdir_mono i₀ target s).bind fun made => ?_
    exact mountOn_mono (fun s => fuelMonotone_const (devfsSetupMount s)) target fileName made.2
  · exact mountOn_mono (fun s => fuelMonotone_const (setupRegistered fileName s)) target fileName s

end MountOn

theorem syscMount_mono (initrd : Initrd) (i₀ : ℤ) (target fileName : List UInt8) (cur : Process)
    (s : State) : FuelMonotone fun fuel => syscMount initrd i₀ fuel target fileName cur s :=
  (fuelMonotone_const (toAbsPath cur.cwd target s.strtok)).bind fun _ => vfsMount_mono ..

/-! ## The vnodes -/

/-- A mount leaves the files as they are. -/
theorem Fs.file_setMount (fs : Fs) (v r x : ℕ) : (fs.setMount v r).file x = fs.file x := by
  cases here : fs.nodes[x]? with
  | none =>
    have nothing : (fs.setMount v r).nodes[x]? = none := by
      rw [List.getElem?_eq_none_iff, length_setMount]
      exact List.getElem?_eq_none_iff.mp here
    rw [file, nothing, file, here]
  | some node =>
    obtain ⟨node', there, component, -, kind⟩ := setMount_after here
    rw [file, there, file, here]
    dsimp only
    rw [Vnode.medium, component, kind]
    rfl

theorem Fs.file_addRoot (fs : Fs) (kind : FsKind) : (fs.addRoot kind).file = fs.file := by
  ext x : 1
  rcases Nat.lt_trichotomy x fs.nodes.length with old | rfl | beyond
  · rw [file, addRoot_old old, file]
    rfl
  · rw [file_of_not_file addRoot_new (by simp [rootNode]), file,
      List.getElem?_eq_none (Nat.le_refl _)]
  · rw [file, List.getElem?_eq_none (by rw [length_addRoot]; omega), file,
      List.getElem?_eq_none beyond.le]

/-- The vnodes from before are there. -/
theorem State.mountTmpfs_extend (s : State) (v : ℕ) (here : s.fs.nodes[x]? = some node) :
    ∃ node', (s.mountTmpfs v).fs.nodes[x]? = some node' ∧ node'.component = node.component ∧
      node'.fOps = node.fOps := by
  have old : (s.fs.addRoot .tmpfs).nodes[x]? = s.fs.nodes[x]? :=
    Fs.addRoot_old (List.getElem?_eq_some_iff.mp here).1
  obtain ⟨node', there, component, -, kind⟩ := Fs.setMount_after (old.trans here)
  exact ⟨node', there, component, kind⟩

/-! ## The paths -/

/-- A directory without entries, on which nothing is mounted. -/
structure Fs.EmptyDir (fs : Fs) (v : ℕ) : Prop where
  dir : fs.names.isDir v
  free : fs.names.cover v = none
  empty : ∀ k, fs.names.child v k = none

theorem Fs.EmptyDir.file_eq_none (bare : fs.EmptyDir v) : fs.file v = none := by
  rw [file]
  cases here : fs.nodes[v]? with
  | none => rfl
  | some node =>
    refine if_neg ?_
    rw [(Fs.isDir_iff here).mp bare.dir]
    decide

section Paths

variable (rooted : Rooted s root) (resolves : s.fs.names.Resolves root q v)
  (bare : s.fs.EmptyDir v)
include rooted resolves bare

theorem Rooted.mountTmpfs_reaches (reaches : ∃ d, s.fs.names.Reaches root p d) :
    ∃ d, (s.mountTmpfs v).fs.names.Reaches root p d := by
  obtain ⟨d, reaches⟩ := reaches
  refine (rooted.mounted resolves bare.dir).reaches_still rooted.tree.addRoot.forest
    rooted.tree.addRoot.exists_settles ((Fs.cover_addRoot v).trans bare.free) (fun k => ?_)
    (rooted.tree.reaches_addRoot.mpr reaches)
  exact (rooted.tree.child_addRoot v k).trans (bare.empty k)

theorem Rooted.mountTmpfs_still (other : p ≠ q) :
    (s.mountTmpfs v).fs.names.Resolves root p x ↔ s.fs.names.Resolves root p x := by
  rw [(rooted.mounted resolves bare.dir).resolves_still rooted.tree.addRoot.forest
    rooted.tree.addRoot.exists_settles ((Fs.cover_addRoot v).trans bare.free) (fun k => ?_)
    ?_ other, rooted.tree.resolves_addRoot]
  · rintro d k rfl
    exact s.mountTmpfs_empty v k
  · exact (rooted.tree.child_addRoot v k).trans (bare.empty k)

/-- The path of the mount resolves to the new root, or to the old one of an earlier mount. -/
theorem Rooted.mountTmpfs_self :
    ∃ r, (s.mountTmpfs v).fs.names.Resolves root q r ∧ s.fs.file r = none := by
  have mounted := rooted.mounted resolves bare.dir
  obtain ⟨front, k, d, rfl, reaches, found⟩ := resolves
  have self {r : ℕ} (found' : (s.mountTmpfs v).fs.names.child d k = some r) :
      (s.mountTmpfs v).fs.names.Resolves root (front ++ [k]) r :=
    (mounted.resolves_self rooted.tree.addRoot.forest rooted.tree.addRoot.exists_settles
      (rooted.tree.reaches_addRoot.mpr reaches) rfl).mpr found'
  -- lookups follow one mount only, which is the first one
  by_cases first : ∀ x, s.fs.names.cover x ≠ some v
  · refine ⟨_, self (rooted.mountTmpfs_child_first reaches found bare.dir first), ?_⟩
    rw [Fs.file, List.getElem?_eq_none (Nat.le_refl _)]
  · exact ⟨v, self (rooted.mountTmpfs_child_again reaches found bare.dir first),
      bare.file_eq_none⟩

end Paths

/-- **Where paths lead** after a mount on an empty directory. -/
theorem Rooted.mountTmpfs_leads (rooted : Rooted s root)
    (resolves : s.fs.names.Resolves root (components target) v) (bare : s.fs.EmptyDir v) :
    ∃ r, s.fs.file r = none ∧
      (s.mountTmpfs v).leads = fun p => if s.leads p = some v then some r else s.leads p := by
  have rooted' := rooted.mountTmpfs resolves
  have tree := rooted.tree
  obtain ⟨r, self, not_file⟩ := rooted.mountTmpfs_self resolves bare
  refine ⟨r, not_file, funext fun p => Option.ext fun w => ?_⟩
  by_cases same : components p = components target
  · -- a spelling of the path
    have not_root : p ≠ [slash] := by
      obtain ⟨front, k, d, whole, -, found⟩ := resolves
      obtain ⟨y, entry, -⟩ := Namespace.child_eq_some.mp found
      obtain ⟨listed, name⟩ := Fs.entry_mem entry
      refine ne_root_of_name (k := k) ?_ (tree.listed_name listed name).ne_nil
      rw [same, whole]
      exact List.mem_append_right _ List.mem_cons_self
    by_cases nul : 0 ∈ p
    · have nothing : s.leads p = none := by
        refine Option.eq_none_iff_forall_ne_some.mpr fun x leads => ?_
        exact (rooted.leads_eq_some.mp leads).1 nul
      rw [nothing, if_neg (by simp), rooted'.leads_eq_some]
      simp [nul]
    · rw [if_pos (rooted.leads_eq_some.mpr ⟨nul, .inr ⟨not_root, same ▸ resolves⟩⟩),
        rooted'.leads_eq_some.mpr ⟨nul, .inr ⟨not_root, same ▸ self⟩⟩]
  · -- no other path leads to the directory
    have other : s.leads p ≠ some v := by
      intro leads
      rcases (rooted.leads_eq_some.mp leads).2 with ⟨-, rfl⟩ | ⟨-, resolves'⟩
      · obtain ⟨front, k, d, -, -, found⟩ := resolves
        exact tree.forest.away_of_root tree.exists_settles found .refl
      · exact same (tree.forest.resolves_injective tree.exists_settles resolves' resolves)
    rw [if_neg other, rooted'.leads_eq_some, rooted.leads_eq_some]
    simp only [State.LeadsTo, rooted.mountTmpfs_still resolves bare same]

/-! ## `sysc_mount` -/

/-- The path is none of those that `vfs_mount` treats differently. -/
structure PlainTarget (p : List UInt8) : Prop where
  not_root : p ≠ [slash]
  not_initramfs : p ≠ initramfsPath
  not_dev : p ≠ devPath

/-- The vnodes afterwards are those from before and the new root. -/
theorem State.mountTmpfs_suits {m : Vnode}
    (suits : ∀ {x : ℕ} {m : Vnode}, s.fs.nodes[x]? = some m → Suits s.mounted m)
    (there : (s.mountTmpfs v).fs.nodes[x]? = some m) : Suits s.mounted m := by
  obtain ⟨node, here, -, vOps, fOps⟩ := Fs.setMount_before there
  rw [Suits, vOps, fOps]
  rcases Fs.addRoot_cases here with ⟨-, rfl⟩ | was
  · exact ⟨rfl, fun other => by contradiction⟩
  · exact suits was

theorem State.mountTmpfs_notShorter (s : State) (v : ℕ) :
    s.fs.NotShorter (s.mountTmpfs v).fs := by
  intro u m here _
  obtain ⟨m', there, component, kind⟩ := s.mountTmpfs_extend v here
  exact ⟨m', there, by rw [component], kind, by rw [component]⟩

section Mount

variable (orderly : c.Orderly root) (ok : c.PathOk root target)
  (plain : PlainTarget (c.view.path target))
include orderly ok plain

/-- **`sysc_mount`** of a tmpfs on an empty directory. -/
theorem Session.Orderly.mount_tmpfs (leads : c.state.LeadsTo root (c.view.path target) v)
    (bare : c.state.fs.EmptyDir v) (initrd : Initrd) :
    ∃ s', Returns (fun fuel => syscMount initrd 0 fuel target tmpfsName c.process c.state) (0, s') ∧
      Session.Orderly ⟨c.process, s'⟩ root ∧
      View.Step c.view (.mounted target tmpfsName 0) (Session.view ⟨c.process, s'⟩) ∧
      c.Frame ⟨c.process, s'⟩ root := by
  obtain ⟨st, translated, rooted, no_nul⟩ := orderly.translates ok
  have resolves := (leads.resolve_left fun at_root => plain.not_root at_root.1).2
  have tree := orderly.good.rooted.tree
  have finds : State.Finds { c.state with strtok := st } (c.view.path target) v :=
    (rooted.finds_iff_leadsTo no_nul).mpr leads
  have mounts : Returns (fun fuel => vfsMount initrd 0 fuel (c.view.path target) tmpfsName
      { c.state with strtok := st }) (0, State.mountTmpfs { c.state with strtok := st } v) :=
    (vfsMount_tmpfs no_nul plain.not_root plain.not_initramfs plain.not_dev finds
      (tree.resolves_valid resolves) _).mpr rfl
  obtain ⟨fuel, returns⟩ := mounts
  -- the names change at one vnode; handles, files and the other vnodes stay
  have rooted' := rooted.mountTmpfs resolves
  have tidy : c.state.fs.Tidy root := ⟨tree, orderly.stored, fun _ _ here => (orderly.suits here).1⟩
  have tidy' := (tidy.addRoot .tmpfs).setMount rooted'.tree
  have reaches {q : List (List UInt8)} (reaches : ∃ d, c.state.fs.names.Reaches root q d) :=
    rooted.mountTmpfs_reaches resolves bare reaches
  obtain ⟨r, not_file, leads'⟩ := rooted.mountTmpfs_leads resolves bare
  refine ⟨State.mountTmpfs { c.state with strtok := st } v, ⟨fuel, ?_⟩,
    ⟨⟨rooted', orderly.good.cwd.is_cwd, reaches orderly.good.cwd.leads⟩, tidy'.stored,
      fun there => ?_, fun bound => ?_, orderly.different⟩, ?_,
    ⟨fun _ _ => rfl, State.mountTmpfs_notShorter _ v, reaches, fun bound => .inl ⟨_, bound⟩⟩⟩
  · dsimp only at returns
    dsimp only [syscMount]
    rw [translated, outcome_bind_ok]
    exact returns
  · exact State.mountTmpfs_suits (s := { c.state with strtok := st }) orderly.suits there
  · obtain ⟨handle, w, node, stands⟩ := orderly.stands bound
    obtain ⟨node', there, component, kind⟩ := State.mountTmpfs_extend _ v stands.here
    exact ⟨handle, w, node', stands.opened, stands.points, there,
      component ▸ stands.regular, stands.fOps.trans kind.symm, component ▸ stands.inside⟩
  · have files : (State.mountTmpfs { c.state with strtok := st } v).fs.file = c.view.files := by
      funext x
      exact (Fs.file_setMount ..).trans (congrFun (Fs.file_addRoot ..) x)
    have before : State.leads { c.state with strtok := st } = c.view.leads :=
      orderly.good.rooted.leads_congr rooted rfl
    have view : Session.view ⟨c.process, State.mountTmpfs { c.state with strtok := st } v⟩ =
        { c.view with
          leads := fun p => if c.view.leads p = some v then some r else c.view.leads p } :=
      View.ext rfl (leads'.trans (by rw [before])) files rfl rfl rfl
    rw [view]
    exact .mounted ((orderly.path_leads ok).mpr leads) bare.file_eq_none not_file

/-- **`sysc_mount`** on a path that leads nowhere. -/
theorem Session.Orderly.mount_nowhere (nowhere : ∀ v, ¬ c.state.LeadsTo root (c.view.path target) v)
    (initrd : Initrd) (fileName : List UInt8) :
    ∃ s', Returns (fun fuel => syscMount initrd 0 fuel target fileName c.process c.state)
        (-1, s') ∧ Session.Orderly ⟨c.process, s'⟩ root ∧
      View.Step c.view (.mounted target fileName (-1)) (Session.view ⟨c.process, s'⟩) ∧
      c.Frame ⟨c.process, s'⟩ root := by
  obtain ⟨st, translated, rooted, no_nul⟩ := orderly.translates ok
  obtain ⟨found, looked, ⟨fuel, looks⟩, ⟨-, v, -, leads⟩ | ⟨rfl, -⟩⟩ :=
    rooted.vfsLookup_ends no_nul ok.lookup
  · exact absurd leads (nowhere v)
  · obtain ⟨orderly', view, frame⟩ := orderly.with_strtok rooted
    refine ⟨{ c.state with strtok := st }, ⟨fuel, ?_⟩, orderly', ?_, frame⟩
    · dsimp only at looks
      dsimp only [syscMount]
      rw [translated, outcome_bind_ok]
      dsimp only
      rw [vfsMount_elsewhere no_nul plain.not_root plain.not_initramfs plain.not_dev, mountOn,
        looks]
      rfl
    · rw [view]
      exact .notMounted fileName (orderly.path_nowhere nowhere)

end Mount

end BareMetal.Vfs
