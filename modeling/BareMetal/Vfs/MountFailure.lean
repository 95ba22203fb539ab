import BareMetal.Vfs.Mkdir
import BareMetal.Vfs.Mount

/-!
# Mounts of unsupported filesystems

`vfs_mount` hangs a new `struct mount` on the directory before `register_filesystem` looks at the
name, it ignores what that returns, and it calls `setup_mount` all the same. For any name but
`tmpfs` nothing was stored there. Until then the directory is the root of its own mount,
and a lookup that comes to it goes round for ever.

## Main results

* `vfsMount_unsupported` — a mount under another name does not return
* `unsupported_not_clean` — so it never fails cleanly
* `halfMount_swallows` — lookups through the mount that is left do not return
-/

namespace BareMetal.Vfs

open CS Strings

variable {initrd : Initrd} {i₀ : ℤ} {fuel v : ℕ} {target fileName pathname : List UInt8}
  {node : Option ℕ} {create : Bool} {s : State}

/-- A mount that fails cleanly: it returns a negative value, and the vnodes and the root are
as they were. -/
def FailsCleanly (initrd : Initrd) (i₀ : ℤ) (target fileName : List UInt8) (s : State) : Prop :=
  ∃ result s', Returns (fun fuel => vfsMount initrd i₀ fuel target fileName s) (result, s') ∧
    result < 0 ∧ s'.fs = s.fs ∧ s'.rootfs = s.rootfs

/-- The call of `setup_mount` for another name. -/
theorem setupRegistered_unsupported (no_nul : 0 ∉ fileName) (other : fileName ≠ tmpfsName) :
    setupRegistered fileName s = .error .danglingPointer := by
  obtain ⟨order, compare, same⟩ := strcmp_strings no_nul (show 0 ∉ tmpfsName by decide)
  rw [setupRegistered, compare, outcome_bind_ok, if_neg fun zero => other (same.mp zero)]

/-- What a mount does elsewhere than on the three paths with a branch of their own. -/
theorem vfsMount_elsewhere (no_nul : 0 ∉ target) (not_root : target ≠ [slash])
    (not_initramfs : target ≠ initramfsPath) (not_dev : target ≠ devPath) :
    vfsMount initrd i₀ fuel target fileName s =
      mountOn fuel target fileName (setupRegistered fileName) s := by
  obtain ⟨root, compare_root, same_root⟩ := strcmp_strings no_nul (show 0 ∉ [slash] by decide)
  obtain ⟨initramfs, compare_initramfs, same_initramfs⟩ :=
    strcmp_strings no_nul (show 0 ∉ initramfsPath by decide)
  obtain ⟨dev, compare_dev, same_dev⟩ := strcmp_strings no_nul (show 0 ∉ devPath by decide)
  rw [vfsMount, compare_root, outcome_bind_ok, compare_initramfs, outcome_bind_ok, compare_dev,
    outcome_bind_ok, if_neg fun zero => not_root (same_root.mp zero),
    if_neg fun zero => not_initramfs (same_initramfs.mp zero),
    if_neg fun zero => not_dev (same_dev.mp zero)]

/-- **A mount under another name does not return**, if there is something at its path. -/
theorem vfsMount_unsupported (no_nul : 0 ∉ target) (not_root : target ≠ [slash])
    (not_initramfs : target ≠ initramfsPath) (not_dev : target ≠ devPath)
    (finds : s.Finds target v) (name_no_nul : 0 ∉ fileName) (other : fileName ≠ tmpfsName)
    (result : ℤ × State) :
    ¬ Returns (fun fuel => vfsMount initrd i₀ fuel target fileName s) result := by
  rintro ⟨fuel, returns⟩
  change vfsMount initrd i₀ fuel target fileName s = .ok result at returns
  rw [vfsMount_elsewhere no_nul not_root not_initramfs not_dev, mountOn] at returns
  obtain ⟨found, looks, returns⟩ := outcome_bind_eq_ok.mp returns
  -- whatever bound lets the lookup return, it returns the vnode
  obtain rfl := (vfsLookup_mono target none s).returns_unique finds ⟨fuel, looks⟩
  obtain ⟨_, -, returns⟩ := outcome_bind_eq_ok.mp returns
  obtain ⟨_, -, returns⟩ := outcome_bind_eq_ok.mp returns
  rw [setupRegistered_unsupported name_no_nul other] at returns
  contradiction

/-- **Mounts under another name never fail cleanly.** -/
theorem unsupported_not_clean (no_nul : 0 ∉ target) (not_root : target ≠ [slash])
    (not_initramfs : target ≠ initramfsPath) (not_dev : target ≠ devPath)
    (finds : s.Finds target v) (name_no_nul : 0 ∉ fileName) (other : fileName ≠ tmpfsName) :
    ¬ FailsCleanly initrd i₀ target fileName s := by
  rintro ⟨result, s', returns, -, -, -⟩
  exact vfsMount_unsupported no_nul not_root not_initramfs not_dev finds name_no_nul other _ returns

/-- The directory `/a` below the root. -/
def oneDir : State := { freshRoot with fs := freshRoot.fs.addDir 0 tmpfsRoot [97] }

theorem oneDir_finds : oneDir.Finds [47, 97] 1 := ⟨2, rfl⟩

theorem oneDir_rooted : Rooted oneDir 0 where
  rootfs := rfl
  tree := freshRoot_plain.rooted.tree.addDir rfl rfl
    ⟨by decide, by decide, by decide, by decide⟩
  idle := rfl

theorem oneDir_cover (x : ℕ) : oneDir.fs.names.cover x = none := by
  rcases x with _ | _ | x <;> rfl

/-- No archive. -/
def noInitrd : Initrd :=
  ⟨0, [], fun _ => List.replicate 9 0, fun _ => rfl, ⟨id, fun _ => none⟩⟩

/-- A mount of `ext2` on `/a`. -/
theorem unsupported_not_clean_ext2 :
    ¬ FailsCleanly noInitrd 0 [47, 97] [101, 120, 116, 50] oneDir :=
  unsupported_not_clean (by decide) (by decide) (by decide) (by decide) oneDir_finds (by decide)
    (by decide)

/-- It calls `setup_mount`, where nothing was stored. -/
theorem ext2_faults : oneDir.fs.names.isDir 1 ∧ oneDir.Finds [47, 97] 1 ∧
    vfsMount noInitrd 0 2 [47, 97] [101, 120, 116, 50] oneDir = .error .danglingPointer ∧
    ¬ FailsCleanly noInitrd 0 [47, 97] [101, 120, 116, 50] oneDir := by
  refine ⟨rfl, oneDir_finds, rfl, ?_⟩
  rintro ⟨result, s', returns, -, -, -⟩
  exact vfsMount_unsupported (by decide) (by decide) (by decide) (by decide) oneDir_finds
    (by decide) (by decide) _ returns

/-! ## The mount that is left -/

/-- While `setup_mount` is called, the directory is the root of its own mount. -/
def State.halfMounted (s : State) (v : ℕ) : State := { s with fs := s.fs.setMount v v }

/-- **A lookup that comes to a directory on which half a mount hangs does not return.** -/
theorem halfMount_swallows (valid : v < s.fs.nodes.length) (result : ℤ × Option ℕ × State) :
    ¬ Returns (fun fuel => lookupPath i₀ fuel pathname v node create (s.halfMounted v)) result := by
  rintro ⟨fuel, returns⟩
  change lookupPath i₀ fuel pathname v node create (s.halfMounted v) = .ok result at returns
  have here : (s.halfMounted v).fs.nodes[v]? = some { s.fs.nodes[v] with mount := some v } := by
    simp [State.halfMounted, Fs.setMount, valid]
  induction fuel with
  | zero => contradiction
  | succ fuel ih =>
    rw [lookupPath] at returns
    obtain ⟨name, -, returns⟩ := outcome_bind_eq_ok.mp returns
    rw [Fs.node_eq_ok.mpr here, outcome_bind_ok] at returns
    exact ih returns

end BareMetal.Vfs
