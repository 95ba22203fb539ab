import BareMetal.Vfs.Descriptors
import BareMetal.Vfs.Names

/-!
# Buffers of the system calls with a path

`sysc_open`, `sysc_mkdir` and `sysc_chdir` of `lib/exception.c` hand a path of any length to
`to_abs_path` and `lookup_path`. Neither of them rejects one, so that the calls stay in their
buffers exactly if everything that is copied fits.

## Main results

* `buffers_iff` — when the three calls stay in their buffers
-/

namespace BareMetal.Vfs

open CS Strings

variable {s : State} {root u : ℕ} {pathname : List UInt8} {cur : Process} {i₀ : ℤ}
  {flags handle : ℕ}

/-! ## The system calls -/

/-- `sysc_mkdir`. -/
def syscMkdir (i₀ : ℤ) (fuel : ℕ) (pathname : List UInt8) (cur : Process) (s : State) :
    Outcome (ℤ × State) := do
  let (_, absPath, strtok) ← toAbsPath cur.cwd pathname s.strtok
  let (_, s) ← vfsMkdir i₀ fuel absPath { s with strtok := strtok }
  return (0, s)

/-- The first part of `sysc_chdir`: `changed_path`, and what `vfs_lookup` returns for it. -/
def chdirLookup (fuel : ℕ) (pathname : List UInt8) (cur : Process) (s : State) :
    Outcome (List UInt8 × ℤ × State) := do
  let (_, changedPath, strtok) ← toAbsPath cur.cwd pathname s.strtok
  let (ret, _, s) ← vfsLookup fuel changedPath none { s with strtok := strtok }
  return (changedPath, ret, s)

/-- `changed_path[strlen(changed_path)-1]`, and the slash behind it if there is none. -/
def closeSlash (changedPath : List UInt8) : Outcome (List UInt8) :=
  match changedPath.getLast? with
  | none => .error .outOfBounds
  | some c => if c ≠ slash then strcat changedPath [slash] else .ok changedPath

/-- `sysc_chdir`. -/
def syscChdir (fuel : ℕ) (pathname : List UInt8) (cur : Process) (s : State) :
    Outcome (ℤ × Process × State) := do
  let (changedPath, ret, s) ← chdirLookup fuel pathname cur s
  let changedPath ← closeSlash changedPath
  if ret = 0 then return (ret, { cur with cwd := changedPath }, s) else return (ret, cur, s)

theorem syscMkdir_stable (i₀ : ℤ) (pathname : List UInt8) (cur : Process) (s : State) :
    FuelStable fun fuel => syscMkdir i₀ fuel pathname cur s := by
  apply (fuelStable_const _).bind
  rintro ⟨r, absPath, strtok⟩
  apply (vfsMkdir_stable i₀ absPath { s with strtok := strtok }).bind
  rintro ⟨result, s⟩
  exact fuelStable_const _

theorem chdirLookup_stable (pathname : List UInt8) (cur : Process) (s : State) :
    FuelStable fun fuel => chdirLookup fuel pathname cur s := by
  apply (fuelStable_const _).bind
  rintro ⟨r, changedPath, strtok⟩
  apply (vfsLookup_stable changedPath none { s with strtok := strtok }).bind
  rintro ⟨ret, target, s⟩
  exact fuelStable_const _

theorem syscOpen_stable (i₀ : ℤ) (handle : ℕ) (pathname : List UInt8) (flags : ℕ) (cur : Process)
    (s : State) : FuelStable fun fuel => syscOpen i₀ fuel handle pathname flags cur s := by
  simp only [syscOpen]
  split_ifs
  · exact fuelStable_const _
  · apply (fuelStable_const _).bind
    rintro ⟨r, absPath, strtok⟩
    apply (vfsOpen_stable i₀ absPath flags handle none { s with strtok := strtok }).bind
    rintro ⟨r, openFile, s⟩
    exact fuelStable_const _

/-! ## Staying in the buffers -/

/-- No bound lets the call write outside its buffers. -/
def InBuffers {α : Type} (f : ℕ → Outcome α) : Prop := ∀ fuel, f fuel ≠ .error .outOfBounds

theorem inBuffers_of_ends {α : Type} {f : ℕ → Outcome α} {o : Outcome α} (stable : FuelStable f)
    (ends : Ends f o) (inside : o ≠ .error .outOfBounds) : InBuffers f := by
  intro fuel overflows
  exact inside (stable.ends_unique ends ⟨by simp, fuel, overflows⟩)

theorem not_inBuffers {α : Type} {f : ℕ → Outcome α} (ends : Ends f (.error .outOfBounds)) :
    ¬ InBuffers f := by
  intro inside
  obtain ⟨-, fuel, overflows⟩ := ends
  exact inside fuel overflows

/-- A sequence stays in its buffers if each part does. -/
theorem InBuffers.bind {α β : Type} {f : ℕ → Outcome α} {g : α → ℕ → Outcome β}
    (inside : InBuffers f) (inside' : ∀ a, Returns f a → InBuffers (g a)) :
    InBuffers fun fuel => f fuel >>= fun a => g a fuel := by
  intro fuel
  dsimp only
  cases first : f fuel with
  | error e =>
    rw [outcome_bind_error]
    exact fun same => inside fuel (first.trans (congrArg _ (Except.error.inj same)))
  | ok a =>
    rw [outcome_bind_ok]
    exact inside' a ⟨fuel, first⟩ fuel

theorem inBuffers_const {α : Type} {o : Outcome α} (inside : o ≠ .error .outOfBounds) :
    InBuffers fun _ => o := fun _ => inside

/-- What follows a call without a bound of its own. -/
theorem inBuffers_bind_iff {α β : Type} {f : ℕ → Outcome α} {k : α → Outcome β}
    (inside : ∀ a, k a ≠ .error .outOfBounds) :
    InBuffers (fun fuel => f fuel >>= k) ↔ InBuffers f := by
  constructor
  · intro whole fuel overflows
    refine whole fuel ?_
    dsimp only
    rw [overflows, outcome_bind_error]
  · exact fun first => first.bind fun a _ => inBuffers_const (inside a)

/-! ## Absolute paths -/

theorem not_nul_mem_absolute (is_cwd : IsCwd cur.cwd) (no_nul : 0 ∉ pathname) :
    0 ∉ absolute cur.cwd pathname := by
  rw [absolute]
  split_ifs
  · exact no_nul
  · intro inside
    obtain ⟨k, name, byte⟩ := List.mem_flatMap.mp inside
    have joined : 0 ∉ cur.cwd ++ pathname := by
      rw [List.mem_append, not_or]
      exact ⟨is_cwd.no_nul, no_nul⟩
    rcases List.mem_cons.mp byte with zero | zero
    · exact absurd zero (by decide)
    · exact not_nul_mem_splitOn joined k (mem_normalise (List.mem_reverse.mp name)) zero

theorem length_absolute_lt (is_cwd : IsCwd cur.cwd) (fits : JoinFits cur.cwd pathname) :
    (absolute cur.cwd pathname).length < tmpfsMaxPathLen := by
  by_cases leading : pathname.head? = some slash
  · rw [absolute, if_pos leading]
    exact (joinFits_of_absolute leading).mp fits
  · have start : (cur.cwd ++ pathname).head? = some slash := by
      rw [List.head?_append, is_cwd.starts, Option.some_or]
    rw [absolute, if_neg leading]
    exact (length_path_normalise_le start).trans_lt ((joinFits_of_relative leading).mp fits).1

/-! ## The parts of the calls -/

/-- `to_abs_path` and what follows it. -/
theorem inBuffers_toAbsPath_iff {α : Type} {st' : Strtok} {cwd : List UInt8} {st : Strtok}
    {g : ℤ × List UInt8 × Strtok → ℕ → Outcome α}
    (result : toAbsPath cwd pathname st =
      if ¬ JoinFits cwd pathname then .error .outOfBounds
      else if EndsInBlank pathname then .error .nullPointer
      else .ok (0, absolute cwd pathname, st')) :
    InBuffers (fun fuel => toAbsPath cwd pathname st >>= fun a => g a fuel) ↔
      JoinFits cwd pathname ∧
        (EndsInBlank pathname ∨ InBuffers (g (0, absolute cwd pathname, st'))) := by
  rw [result]
  by_cases fits : JoinFits cwd pathname
  · rw [if_neg (not_not.mpr fits), and_iff_right fits]
    by_cases blank : EndsInBlank pathname
    · rw [if_pos blank]
      exact iff_of_true (inBuffers_const (by simp)) (.inl blank)
    · rw [if_neg blank, or_iff_right blank]
      exact Iff.rfl
  · rw [if_pos fits]
    exact iff_of_false (fun inside => inside 0 rfl) fun both => fits both.1

/-- What has to fit for `vfs_open`. -/
def State.OpenFits (s : State) (root u : ℕ) (i₀ : ℤ) (pathname : List UInt8) (flags : ℕ) : Prop :=
  s.LookupFits root pathname ∧
    ((∃ v, s.LeadsTo root pathname v) ∨ flags &&& oCreat = 0 ∨ s.CreationFits u i₀ pathname)

section Root

variable (rooted : Rooted s root) (settles : s.fs.names.Settles root u)
include rooted

/-- Lookups that fit stay in `component_name`. -/
theorem inBuffers_vfsLookup (no_nul : 0 ∉ pathname) (fits : s.LookupFits root pathname) :
    InBuffers fun fuel => vfsLookup fuel pathname none s := by
  obtain ⟨r, target, returns, -⟩ := rooted.vfsLookup_ends no_nul fits
  exact inBuffers_of_ends (vfsLookup_stable pathname none s) returns.ends (by simp)

include settles

/-- **`vfs_mkdir`** stays in its buffers exactly if the lookup and the creation fit. -/
theorem inBuffers_vfsMkdir_iff (no_nul : 0 ∉ pathname)
    (length : pathname.length < tmpfsMaxPathLen) :
    InBuffers (fun fuel => vfsMkdir i₀ fuel pathname s) ↔
      s.LookupFits root pathname ∧ s.CreationFits u i₀ pathname := by
  by_cases fits : s.LookupFits root pathname
  · rw [and_iff_right fits]
    have create := rooted.creation_ends settles i₀ no_nul (rooted.short_first fits) length
    obtain ⟨r, target, looks, found⟩ := rooted.vfsLookup_ends no_nul fits
    have not_one : r ≠ 1 := by
      rcases found with ⟨rfl, -⟩ | ⟨rfl, -⟩ <;> decide
    by_cases creates : s.CreationFits u i₀ pathname
    · refine iff_of_true ?_ creates
      apply (inBuffers_vfsLookup rooted no_nul fits).bind
      intro a returns
      obtain rfl := (vfsLookup_mono pathname none s).returns_unique looks returns
      obtain ⟨made, returned⟩ := (create target).1 creates
      simp only [if_neg not_one, rooted.rootfs]
      apply InBuffers.bind
      · exact inBuffers_of_ends (lookupPath_stable i₀ pathname root target true s) returned.ends
          (by simp)
      · rintro ⟨result, target', s'⟩ -
        apply inBuffers_const
        dsimp only
        split_ifs <;> simp
    · refine iff_of_false (not_inBuffers ?_) creates
      refine (vfsLookup_stable pathname none s).ends_bind ?_ looks.ends ?_
      · simp only [if_neg not_one, rooted.rootfs]
        exact (lookupPath_stable i₀ pathname root target true s).bind fun _ => fuelStable_const _
      · simp only [if_neg not_one, rooted.rootfs]
        exact ((create target).2 creates).bind_error
  · exact iff_of_false (not_inBuffers (rooted.vfsLookup_long no_nul fits).bind_error)
      fun both => fits both.1

/-- **`vfs_open`** stays in its buffers exactly if the lookup fits, and the creation does where the
path is not found and `O_CREAT` is set. -/
theorem inBuffers_vfsOpen_iff (no_nul : 0 ∉ pathname)
    (length : pathname.length < tmpfsMaxPathLen) (file : Option ℕ) :
    InBuffers (fun fuel => vfsOpen i₀ fuel pathname flags handle file s) ↔
      s.OpenFits root u i₀ pathname flags := by
  by_cases fits : s.LookupFits root pathname
  · rw [State.OpenFits, and_iff_right fits]
    have create := rooted.creation_ends settles i₀ no_nul (rooted.short_first fits) length
    obtain ⟨r, target, looks, found⟩ := rooted.vfsLookup_ends no_nul fits
    by_cases opens : (∃ v, s.LeadsTo root pathname v) ∨ flags &&& oCreat = 0 ∨
        s.CreationFits u i₀ pathname
    · refine iff_of_true ?_ opens
      apply InBuffers.bind
      · -- the lookup, and the creation if there is one
        apply (inBuffers_vfsLookup rooted no_nul fits).bind
        intro a returns
        obtain rfl := (vfsLookup_mono pathname none s).returns_unique looks returns
        dsimp only
        by_cases creating : r ≠ 0 ∧ flags &&& oCreat ≠ 0
        · simp only [if_pos creating, rooted.rootfs]
          have creates : s.CreationFits u i₀ pathname := by
            rcases found with ⟨zero, -⟩ | ⟨-, nothing⟩
            · exact absurd zero creating.1
            · exact (opens.resolve_left fun some => nothing _ some.choose_spec).resolve_left
                creating.2
          obtain ⟨made, returned⟩ := (create target).1 creates
          apply InBuffers.bind
          · exact inBuffers_of_ends (lookupPath_stable i₀ pathname root target true s)
              returned.ends (by simp)
          · rintro ⟨result, node, s'⟩ -
            apply inBuffers_const
            dsimp only
            split_ifs
            · cases node with
              | none => simp
              | some created =>
                simp only [Fs.node]
                cases s'.fs.nodes[created]? <;> simp
            · simp
        · simp only [if_neg creating]
          apply inBuffers_const
          split_ifs
          · simp
          · cases target <;> simp
      · -- the function `open` of the vnode has no buffers
        rintro ⟨node, s'⟩ -
        apply inBuffers_const
        cases node with
        | none => simp
        | some node =>
          simp only [tmpfsOpen, Fs.node]
          cases s'.fs.nodes[node]? with
          | none => simp
          | some vnode =>
            simp only [outcome_bind_ok]
            split_ifs <;> simp
    · -- the path leads nowhere, and its names do not fit
      refine iff_of_false (not_inBuffers (Ends.bind_error ?_)) opens
      rw [not_or, not_or] at opens
      obtain ⟨nothing, asked, long⟩ := opens
      have failed : r ≠ 0 := by
        rcases found with ⟨-, v, -, finds⟩ | ⟨rfl, -⟩
        · exact absurd ⟨v, finds⟩ nothing
        · decide
      refine (vfsLookup_stable pathname none s).ends_bind ?_ looks.ends ?_
      · simp only [if_pos (And.intro failed asked), rooted.rootfs]
        exact (lookupPath_stable i₀ pathname root target true s).bind fun _ => fuelStable_const _
      · simp only [if_pos (And.intro failed asked), rooted.rootfs]
        exact ((create target).2 long).bind_error
  · -- a name on the way does not fit
    exact iff_of_false (not_inBuffers (rooted.vfsLookup_long no_nul fits).bind_error.bind_error)
      fun both => fits both.1

theorem inBuffers_syscMkdir_iff (is_cwd : IsCwd cur.cwd) (no_nul : 0 ∉ pathname) :
    InBuffers (fun fuel => syscMkdir i₀ fuel pathname cur s) ↔
      JoinFits cur.cwd pathname ∧ (EndsInBlank pathname ∨
        s.LookupFits root (absolute cur.cwd pathname) ∧
          s.CreationFits u i₀ (absolute cur.cwd pathname)) := by
  obtain ⟨st', idle, result⟩ := toAbsPath_ends is_cwd no_nul rooted.idle
  have rooted' : Rooted { s with strtok := st' } root := ⟨rooted.rootfs, rooted.tree, idle⟩
  simp only [syscMkdir]
  rw [inBuffers_toAbsPath_iff result]
  refine and_congr_right fun fits => or_congr_right ?_
  dsimp only
  rw [inBuffers_bind_iff (by simp), inBuffers_vfsMkdir_iff rooted' settles
    (not_nul_mem_absolute is_cwd no_nul) (length_absolute_lt is_cwd fits),
    State.creationFits_with_strtok]
  exact Iff.rfl

theorem inBuffers_syscOpen_iff (is_cwd : IsCwd cur.cwd) (no_nul : 0 ∉ pathname) :
    InBuffers (fun fuel => syscOpen i₀ fuel handle pathname flags cur s) ↔
      getTaskIdleFd cur < 0 ∨ JoinFits cur.cwd pathname ∧ (EndsInBlank pathname ∨
        s.OpenFits root u i₀ (absolute cur.cwd pathname) flags) := by
  obtain ⟨st', idle, result⟩ := toAbsPath_ends is_cwd no_nul rooted.idle
  have rooted' : Rooted { s with strtok := st' } root := ⟨rooted.rootfs, rooted.tree, idle⟩
  simp only [syscOpen]
  rcases getTaskIdleFd_cases cur with full | ⟨fd, inside, found, -⟩
  · have negative : getTaskIdleFd cur < 0 := by
      rw [full]
      decide
    simp only [if_pos negative]
    exact iff_of_true (inBuffers_const (by simp)) (.inl negative)
  · have some_fd : ¬ getTaskIdleFd cur < 0 := by
      rw [found]
      exact not_lt.mpr (Int.natCast_nonneg fd)
    rw [or_iff_right some_fd]
    simp only [if_neg some_fd]
    rw [inBuffers_toAbsPath_iff result]
    refine and_congr_right fun fits => or_congr_right ?_
    dsimp only
    rw [inBuffers_bind_iff, inBuffers_vfsOpen_iff rooted' settles
      (not_nul_mem_absolute is_cwd no_nul) (length_absolute_lt is_cwd fits), State.OpenFits,
      State.creationFits_with_strtok]
    · exact Iff.rfl
    · rintro ⟨r, openFile, s'⟩
      rw [found, cur.setFd_eq inside]
      simp

omit settles in
theorem inBuffers_chdirLookup_iff (is_cwd : IsCwd cur.cwd) (no_nul : 0 ∉ pathname) :
    InBuffers (fun fuel => chdirLookup fuel pathname cur s) ↔
      JoinFits cur.cwd pathname ∧
        (EndsInBlank pathname ∨ s.LookupFits root (absolute cur.cwd pathname)) := by
  obtain ⟨st', idle, result⟩ := toAbsPath_ends is_cwd no_nul rooted.idle
  have rooted' : Rooted { s with strtok := st' } root := ⟨rooted.rootfs, rooted.tree, idle⟩
  have no_nul' := not_nul_mem_absolute is_cwd no_nul
  simp only [chdirLookup]
  rw [inBuffers_toAbsPath_iff result]
  refine and_congr_right fun fits => or_congr_right ?_
  dsimp only
  rw [inBuffers_bind_iff (by simp)]
  by_cases looks : s.LookupFits root (absolute cur.cwd pathname)
  · exact iff_of_true (inBuffers_vfsLookup rooted' no_nul' looks) looks
  · exact iff_of_false (not_inBuffers (rooted'.vfsLookup_long no_nul' looks)) looks

/-- `to_abs_path` returns for the path: what it copies fits, and it does not read NULL. -/
def State.Converts (s : State) (cur : Process) (pathname : List UInt8) : Prop :=
  ∃ r, toAbsPath cur.cwd pathname s.strtok = .ok r

omit settles in
theorem Rooted.converts_iff (is_cwd : IsCwd cur.cwd) (no_nul : 0 ∉ pathname) :
    s.Converts cur pathname ↔ JoinFits cur.cwd pathname ∧ ¬ EndsInBlank pathname := by
  obtain ⟨st', -, result⟩ := toAbsPath_ends is_cwd no_nul rooted.idle
  rw [State.Converts, result]
  by_cases fits : JoinFits cur.cwd pathname
  · by_cases blank : EndsInBlank pathname
    · simp [fits, blank]
    · simp [fits, blank]
  · simp [fits]

omit rooted settles in
/-- What fits and is converted is all that a call stays in its buffers for. -/
theorem converts_and_iff {inside converts joins blank fits : Prop}
    (inside_iff : inside ↔ joins ∧ (blank ∨ fits)) (converts_iff : converts ↔ joins ∧ ¬ blank) :
    inside ∧ converts ↔ joins ∧ ¬ blank ∧ fits := by
  tauto

/-- **When the calls stay in their buffers**, and `to_abs_path` does not read NULL in them.
`sysc_open` does if no descriptor is idle, or the path fits; `sysc_mkdir` and the part of
`sysc_chdir` in `to_abs_path` and `vfs_lookup` if the path fits. -/
theorem buffers_iff (is_cwd : IsCwd cur.cwd) (no_nul : 0 ∉ pathname) :
    (InBuffers (fun fuel => syscOpen i₀ fuel handle pathname flags cur s) ∧
        (0 ≤ getTaskIdleFd cur → s.Converts cur pathname) ↔
        getTaskIdleFd cur < 0 ∨ JoinFits cur.cwd pathname ∧ ¬ EndsInBlank pathname ∧
          s.OpenFits root u i₀ (absolute cur.cwd pathname) flags) ∧
      (InBuffers (fun fuel => syscMkdir i₀ fuel pathname cur s) ∧ s.Converts cur pathname ↔
        JoinFits cur.cwd pathname ∧ ¬ EndsInBlank pathname ∧
          s.LookupFits root (absolute cur.cwd pathname) ∧
            s.CreationFits u i₀ (absolute cur.cwd pathname)) ∧
      (InBuffers (fun fuel => chdirLookup fuel pathname cur s) ∧ s.Converts cur pathname ↔
        JoinFits cur.cwd pathname ∧ ¬ EndsInBlank pathname ∧
          s.LookupFits root (absolute cur.cwd pathname)) := by
  have converts := rooted.converts_iff is_cwd no_nul
  refine ⟨?_, converts_and_iff (inBuffers_syscMkdir_iff rooted settles is_cwd no_nul) converts,
    converts_and_iff (inBuffers_chdirLookup_iff rooted is_cwd no_nul) converts⟩
  rw [inBuffers_syscOpen_iff rooted settles is_cwd no_nul]
  by_cases full : getTaskIdleFd cur < 0
  · simp [full]
  · simp only [full, false_or, not_lt.mp full, forall_const]
    exact converts_and_iff Iff.rfl converts

end Root

/-- A task in the root directory. -/
theorem rootCwd : IsCwd [slash] := ⟨rfl, rfl, by decide, by decide⟩

/-- `a` in the empty root. -/
theorem buffers_iff_fresh :
    (InBuffers (fun fuel => syscOpen 0 fuel 0x100 [97] oCreat firstTask.process freshRoot) ∧
        (0 ≤ getTaskIdleFd firstTask.process → freshRoot.Converts firstTask.process [97]) ↔
        getTaskIdleFd firstTask.process < 0 ∨ JoinFits [slash] [97] ∧ ¬ EndsInBlank [97] ∧
          freshRoot.OpenFits 0 0 0 (absolute [slash] [97]) oCreat) ∧
      (InBuffers (fun fuel => syscMkdir 0 fuel [97] firstTask.process freshRoot) ∧
          freshRoot.Converts firstTask.process [97] ↔
        JoinFits [slash] [97] ∧ ¬ EndsInBlank [97] ∧
          freshRoot.LookupFits 0 (absolute [slash] [97]) ∧
            freshRoot.CreationFits 0 0 (absolute [slash] [97])) ∧
      (InBuffers (fun fuel => chdirLookup fuel [97] firstTask.process freshRoot) ∧
          freshRoot.Converts firstTask.process [97] ↔
        JoinFits [slash] [97] ∧ ¬ EndsInBlank [97] ∧
          freshRoot.LookupFits 0 (absolute [slash] [97])) :=
  buffers_iff freshRoot_plain.rooted ((Namespace.settles_iff_of_free (freshRoot_cover 0)).mpr rfl)
    rootCwd (by decide)

/-- A directory with a name of 16 bytes: the NUL lands behind the name of the vnode. -/
theorem longName_overflows :
    ¬ InBuffers (fun fuel => syscMkdir 0 fuel (List.replicate 16 97) firstTask.process freshRoot) :=
  fun inside => inside 3 rfl

end BareMetal.Vfs
