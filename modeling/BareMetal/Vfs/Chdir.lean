import BareMetal.Vfs.Buffers
import BareMetal.Vfs.MountFailure

/-!
# Working directories

`sysc_chdir` of `lib/exception.c` stores the path that `to_abs_path` makes, with a slash behind it,
whatever `vfs_lookup` has found. `denoted` is where a path should lead from a working directory,
and a call keeps the law of working directories exactly under `ChdirGuard`.

## Main results

* `chdirLaw_iff` — when a call keeps the law
* `Run.chdir` — in runs under this condition `cwd` always leads to a directory
-/

namespace BareMetal.Vfs

open CS Strings

variable {s : State} {root : ℕ} {cwd pathname : List UInt8} {names stack : List (List UInt8)}
  {k : List UInt8} {c c' : Session} {ret : ℤ}

/-! ## Names that are left -/

/-- The names that are left of a path. -/
def normalNames (pathname : List UInt8) : List (List UInt8) :=
  (normalise (pathname.splitOn slash)).reverse

/-- The names on the way from the root to what a path denotes in a working directory. -/
def denoted (cwd pathname : List UInt8) : List (List UInt8) :=
  normalNames (if pathname.head? = some slash then pathname else cwd ++ pathname)

/-- Stacks of names that are left: no name is blank, and below `..` there is only `..`. -/
inductive IsNormal : List (List UInt8) → Prop
  | nil : IsNormal []
  | cons {k : List UInt8} {stack : List (List UInt8)} (stays : ¬ Blank k) (no_slash : slash ∉ k)
      (below : k = parentDir → ∀ b ∈ stack, b = parentDir) (rest : IsNormal stack) :
      IsNormal (k :: stack)

theorem IsNormal.pushName (normal : IsNormal stack) (no_slash : slash ∉ k) :
    IsNormal (pushName stack k) := by
  rw [Vfs.pushName]
  split_ifs with blank parent
  · exact normal
  · subst parent
    cases normal with
    | nil => exact .cons blank no_slash (fun _ b inside => absurd inside List.not_mem_nil) .nil
    | cons stays no_slash' below rest =>
      rw [climb]
      split_ifs with again
      · refine .cons blank no_slash (fun _ b inside => ?_) (.cons stays no_slash' below rest)
        rcases List.mem_cons.mp inside with rfl | inside
        · exact again
        · exact below again b inside
      · exact rest
  · exact .cons blank no_slash (fun same => absurd same parent) normal

/-- What is left is normal. -/
theorem isNormal_normalise (no_slash : ∀ k ∈ names, slash ∉ k) : IsNormal (normalise names) := by
  induction names using List.reverseRecOn with
  | nil => exact .nil
  | append_singleton names k ih =>
    rw [normalise_snoc]
    apply IsNormal.pushName
    · exact ih fun k' inside => no_slash k' (List.mem_append_left _ inside)
    · exact no_slash k (by simp)

/-- All of a normal path is left. -/
theorem IsNormal.normalise_reverse (normal : IsNormal stack) : normalise stack.reverse = stack := by
  induction normal with
  | nil => rfl
  | @cons k stack stays no_slash below rest ih =>
    rw [List.reverse_cons, normalise_snoc, ih, Vfs.pushName, if_neg stays]
    split_ifs with parent
    · cases stack with
      | nil => rw [climb, parent]
      | cons top stack =>
        have again := below parent top List.mem_cons_self
        rw [climb, if_pos again, parent]
    · rfl

theorem IsNormal.no_slash (normal : IsNormal stack) : ∀ k ∈ stack, k ≠ [] ∧ slash ∉ k := by
  induction normal with
  | nil => exact fun k inside => absurd inside List.not_mem_nil
  | cons stays no_slash _ _ ih =>
    rw [List.forall_mem_cons]
    exact ⟨⟨fun empty => stays (.inl empty), no_slash⟩, ih⟩

theorem normalNames_proper (pathname : List UInt8) :
    ∀ k ∈ normalNames pathname, k ≠ [] ∧ slash ∉ k := by
  intro k inside
  have normal := isNormal_normalise (not_mem_pieces slash pathname)
  exact normal.no_slash k (List.mem_reverse.mp inside)

/-- A slash at the end leaves the same names. -/
theorem normalNames_slash (pathname : List UInt8) :
    normalNames (pathname ++ [slash]) = normalNames pathname := by
  rw [normalNames, List.splitOn_append_cons_self, List.splitOn_nil, normalise_snoc,
    pushName_blank (.inl rfl), normalNames]

/-- The names that are left make a path of which they are left. -/
theorem normalNames_path (pathname : List UInt8) :
    normalNames (path (normalNames pathname)) = normalNames pathname := by
  have normal := isNormal_normalise (not_mem_pieces slash pathname)
  by_cases nothing : normalNames pathname = []
  · rw [nothing]
    rfl
  · have proper := normalNames_proper pathname
    rw [normalNames, splitOn_path nothing fun k inside => (proper k inside).2, normalise,
      List.foldl_cons, pushName_blank (.inl rfl)]
    change (normalise (normalise _).reverse).reverse = _
    rw [normal.normalise_reverse, normalNames]

/-- `..` from a directory below the root denotes the root. -/
theorem denoted_parentDir (closes : cwd.getLast? = some slash) (other : k ≠ parentDir)
    (below : normalNames cwd = [k]) : denoted cwd parentDir = [] := by
  obtain ⟨front, rfl⟩ : ∃ front, cwd = front ++ [slash] := List.getLast?_eq_some_iff.mp closes
  rw [normalNames_slash, normalNames, List.reverse_eq_iff, List.reverse_singleton] at below
  have relative : parentDir.head? ≠ some slash := by decide
  have single : parentDir.splitOn slash = [parentDir] := rfl
  have stays : ¬ Blank parentDir := by decide
  rw [denoted, if_neg relative, normalNames, List.append_assoc, List.singleton_append,
    List.splitOn_append_cons_self, single, normalise_snoc, below, pushName, if_neg stays,
    if_pos rfl, climb, if_neg other, List.reverse_nil]

theorem absolute_of_relative (relative : pathname.head? ≠ some slash) :
    absolute cwd pathname = path (denoted cwd pathname) := by
  rw [absolute, if_neg relative, denoted, if_neg relative, normalNames]

/-- The absolute path denotes what the path does. -/
theorem normalNames_absolute (cwd pathname : List UInt8) :
    normalNames (absolute cwd pathname) = denoted cwd pathname := by
  by_cases leading : pathname.head? = some slash
  · rw [absolute, if_pos leading, denoted, if_pos leading]
  · rw [absolute_of_relative leading, denoted, if_neg leading, normalNames_path]

/-! ## The law -/

/-- The working directory starts and ends with a slash, and leads to a directory. -/
structure State.GoodCwd (s : State) (root : ℕ) (cwd : List UInt8) : Prop where
  is_cwd : IsCwd cwd
  leads : ∃ d, s.fs.names.Reaches root (normalNames cwd) d

/-- A task and the files it works on, with the root at `root`. -/
structure Session.Good (c : Session) (root : ℕ) : Prop where
  rooted : Rooted c.state root
  cwd : c.state.GoodCwd root c.process.cwd

/-- A call of `sysc_chdir` that returns. -/
def ChdirReturns (c : Session) (pathname : List UInt8) (ret : ℤ) (c' : Session) : Prop :=
  Returns (fun fuel => syscChdir fuel pathname c.process c.state) (ret, c'.process, c'.state)

/-- What a call should do: return 0 in the directory that the path denotes, or fail in the
old one, and leave the files alone; and `..` from a directory below the root should not fail. -/
def ChdirLaw (root : ℕ) (c : Session) (pathname : List UInt8) : Prop :=
  ∃ ret c', ChdirReturns c pathname ret c' ∧ Rooted c'.state root ∧ c'.state.fs = c.state.fs ∧
    (ret = 0 ∧ c'.state.GoodCwd root c'.process.cwd ∧
        normalNames c'.process.cwd = denoted c.process.cwd pathname ∨
      ret ≠ 0 ∧ c'.process = c.process) ∧
    (pathname = parentDir → (∃ k, k ≠ parentDir ∧ normalNames c.process.cwd = [k]) → ret = 0)

/-- When a call does so: the path fits and does not end in a blank name, it is not a relative
path to the root, there is room for a slash behind it, and if anything is found it denotes a
directory. -/
structure ChdirGuard (root : ℕ) (c : Session) (pathname : List UInt8) : Prop where
  joins : JoinFits c.process.cwd pathname
  lookup : c.state.LookupFits root (absolute c.process.cwd pathname)
  not_blank : ¬ EndsInBlank pathname
  not_root : pathname.head? ≠ some slash → denoted c.process.cwd pathname ≠ []
  room : (absolute c.process.cwd pathname).getLast? = some slash ∨
    (absolute c.process.cwd pathname).length + 1 < tmpfsMaxPathLen
  directory : ∀ v, c.state.LeadsTo root (absolute c.process.cwd pathname) v →
    ∃ d, c.state.fs.names.Reaches root (denoted c.process.cwd pathname) d

/-- What `closeSlash` does. -/
theorem closeSlash_eq (nonempty : cwd ≠ []) : closeSlash cwd =
    if cwd.getLast? = some slash then .ok cwd
    else if cwd.length + 1 < tmpfsMaxPathLen then .ok (cwd ++ [slash])
    else .error .outOfBounds := by
  obtain ⟨front, c, rfl⟩ := (List.eq_nil_or_concat' cwd).resolve_left nonempty
  rw [closeSlash, List.getLast?_concat]
  by_cases closed : c = slash
  · simp [closed]
  · simp [closed, strcat]

/-- The path that is stored is a working directory again. -/
theorem closeSlash_isCwd {closed : List UInt8} (starts : cwd.head? = some slash) (no_nul : 0 ∉ cwd)
    (length : cwd.length < tmpfsMaxPathLen) (result : closeSlash cwd = .ok closed) :
    IsCwd closed ∧ normalNames closed = normalNames cwd := by
  have nonempty : cwd ≠ [] := by
    rintro rfl
    contradiction
  rw [closeSlash_eq nonempty] at result
  split_ifs at result with closes room
  · obtain rfl := Except.ok.inj result
    exact ⟨⟨starts, closes, no_nul, length⟩, rfl⟩
  · obtain rfl := Except.ok.inj result
    refine ⟨⟨?_, List.getLast?_concat, ?_, ?_⟩, normalNames_slash cwd⟩
    · rw [List.head?_append, starts, Option.some_or]
    · rw [List.mem_append, not_or, List.mem_singleton]
      exact ⟨no_nul, by decide⟩
    · rwa [List.length_append, List.length_singleton]

theorem absolute_eq_nil_iff : absolute cwd pathname = [] ↔
    pathname.head? ≠ some slash ∧ denoted cwd pathname = [] := by
  by_cases leading : pathname.head? = some slash
  · rw [absolute, if_pos leading]
    refine iff_of_false ?_ fun both => both.1 leading
    rintro rfl
    contradiction
  · rw [absolute_of_relative leading, and_iff_right leading]
    cases denoted cwd pathname with
    | nil => exact iff_of_true rfl rfl
    | cons k ks => simp [path_cons]

theorem head?_absolute (nonempty : absolute cwd pathname ≠ []) :
    (absolute cwd pathname).head? = some slash := by
  by_cases leading : pathname.head? = some slash
  · rw [absolute, if_pos leading, leading]
  · rw [absolute_of_relative leading] at nonempty ⊢
    cases names : denoted cwd pathname with
    | nil =>
      rw [names] at nonempty
      exact absurd rfl nonempty
    | cons k ks => rfl

/-! ## One call -/

theorem syscChdir_stable (pathname : List UInt8) (cur : Process) (s : State) :
    FuelStable fun fuel => syscChdir fuel pathname cur s := by
  apply (chdirLookup_stable pathname cur s).bind
  rintro ⟨changedPath, ret, s⟩
  exact fuelStable_const _

/-- The part of the call in `to_abs_path` and `vfs_lookup`. -/
theorem Session.Good.chdirLookup_ends (good : c.Good root) (no_nul : 0 ∉ pathname) :
    (JoinFits c.process.cwd pathname → ¬ EndsInBlank pathname →
      c.state.LookupFits root (absolute c.process.cwd pathname) →
        ∃ st' r, st'.flag = false ∧
          Returns (fun fuel => chdirLookup fuel pathname c.process c.state)
            (absolute c.process.cwd pathname, r, { c.state with strtok := st' }) ∧
          (r = 0 ∧ (∃ v, c.state.LeadsTo root (absolute c.process.cwd pathname) v) ∨
            r = -1 ∧ ∀ v, ¬ c.state.LeadsTo root (absolute c.process.cwd pathname) v)) ∧
      (¬ (JoinFits c.process.cwd pathname ∧ ¬ EndsInBlank pathname ∧
        c.state.LookupFits root (absolute c.process.cwd pathname)) →
        ∃ e, Ends (fun fuel => chdirLookup fuel pathname c.process c.state) (.error e)) := by
  have is_cwd := good.cwd.is_cwd
  obtain ⟨st', idle, result⟩ := toAbsPath_ends is_cwd no_nul good.rooted.idle
  have rooted' : Rooted { c.state with strtok := st' } root :=
    ⟨good.rooted.rootfs, good.rooted.tree, idle⟩
  have no_nul' := not_nul_mem_absolute is_cwd no_nul
  simp only [chdirLookup, result]
  constructor
  · intro joins not_blank lookup
    obtain ⟨r, target, ⟨fuel, looks⟩, found⟩ := rooted'.vfsLookup_ends no_nul' lookup
    refine ⟨st', r, idle, ⟨fuel, ?_⟩, ?_⟩
    · dsimp only at looks ⊢
      rw [if_neg (not_not.mpr joins), if_neg not_blank, outcome_bind_ok]
      dsimp only
      rw [looks]
      rfl
    · exact found.imp (fun here => ⟨here.1, here.2.imp fun v both => both.2⟩) id
  · intro fails
    by_cases joins : JoinFits c.process.cwd pathname
    · by_cases blank : EndsInBlank pathname
      · simp only [if_neg (not_not.mpr joins), if_pos blank]
        exact ⟨.nullPointer, by simp, 0, rfl⟩
      · have long := fun lookup => fails ⟨joins, blank, lookup⟩
        simp only [if_neg (not_not.mpr joins), if_neg blank]
        exact ⟨.outOfBounds, (rooted'.vfsLookup_long no_nul' long).bind_error⟩
    · simp only [if_pos joins]
      exact ⟨.outOfBounds, by simp, 0, rfl⟩

/-- Calls under the condition keep the law. -/
theorem Session.Good.law_of_guard (good : c.Good root) (no_nul : 0 ∉ pathname)
    (guard : ChdirGuard root c pathname) : ChdirLaw root c pathname := by
  have is_cwd := good.cwd.is_cwd
  have nonempty : absolute c.process.cwd pathname ≠ [] := by
    rw [Ne, absolute_eq_nil_iff]
    exact fun both => guard.not_root both.1 both.2
  obtain ⟨st', r, idle, ⟨fuel, looks⟩, found⟩ :=
    (good.chdirLookup_ends no_nul).1 guard.joins guard.not_blank guard.lookup
  have rooted' : Rooted { c.state with strtok := st' } root :=
    ⟨good.rooted.rootfs, good.rooted.tree, idle⟩
  -- the slash is appended whether or not the path was found
  obtain ⟨closed, closes⟩ :
      ∃ closed, closeSlash (absolute c.process.cwd pathname) = .ok closed := by
    rw [closeSlash_eq nonempty]
    rcases guard.room with slashed | room
    · exact ⟨_, if_pos slashed⟩
    · rw [if_pos room]
      split_ifs
      · exact ⟨_, rfl⟩
      · exact ⟨_, rfl⟩
  obtain ⟨closed_cwd, names⟩ := closeSlash_isCwd (head?_absolute nonempty)
    (not_nul_mem_absolute is_cwd no_nul) (length_absolute_lt is_cwd guard.joins) closes
  rw [normalNames_absolute] at names
  have parent : pathname = parentDir →
      (∃ k, k ≠ parentDir ∧ normalNames c.process.cwd = [k]) → r = 0 := by
    rintro rfl ⟨k, other, below⟩
    exact absurd (denoted_parentDir is_cwd.closes other below) (guard.not_root (by decide))
  dsimp only at looks
  rcases found with ⟨rfl, v, leads⟩ | ⟨rfl, -⟩
  · refine ⟨0, ⟨{ c.process with cwd := closed }, { c.state with strtok := st' }⟩, ⟨fuel, ?_⟩,
      rooted', rfl, .inl ⟨rfl, ⟨closed_cwd, ?_⟩, names⟩, parent⟩
    · dsimp only
      rw [syscChdir, looks, outcome_bind_ok]
      dsimp only
      rw [closes]
      rfl
    · rw [names]
      exact guard.directory v leads
  · refine ⟨-1, ⟨c.process, { c.state with strtok := st' }⟩, ⟨fuel, ?_⟩, rooted', rfl,
      .inr ⟨by decide, rfl⟩, parent⟩
    dsimp only
    rw [syscChdir, looks, outcome_bind_ok]
    dsimp only
    rw [closes]
    rfl

/-- Calls that keep the law are under the condition. -/
theorem Session.Good.guard_of_law (good : c.Good root) (no_nul : 0 ∉ pathname)
    (law : ChdirLaw root c pathname) : ChdirGuard root c pathname := by
  obtain ⟨ret, c', ⟨fuel, returns⟩, -, same_fs, moved, -⟩ := law
  obtain ⟨⟨changedPath, r, s'⟩, looks, returns⟩ := outcome_bind_eq_ok.mp returns
  have lookup_stable := chdirLookup_stable pathname c.process c.state
  by_cases fits : JoinFits c.process.cwd pathname ∧ ¬ EndsInBlank pathname ∧
      c.state.LookupFits root (absolute c.process.cwd pathname)
  · obtain ⟨joins, not_blank, lookup⟩ := fits
    obtain ⟨st', r', idle, looks', found⟩ :=
      (good.chdirLookup_ends no_nul).1 joins not_blank lookup
    have same := lookup_stable.mono.returns_unique ⟨fuel, looks⟩ looks'
    simp only [Prod.mk.injEq] at same
    obtain ⟨rfl, rfl, rfl⟩ := same
    obtain ⟨closed, closes, returns⟩ := outcome_bind_eq_ok.mp returns
    have nonempty : absolute c.process.cwd pathname ≠ [] := by
      intro empty
      rw [empty] at closes
      contradiction
    refine ⟨joins, lookup, not_blank, fun relative root_path => ?_, ?_, fun v leads => ?_⟩
    · exact nonempty (absolute_eq_nil_iff.mpr ⟨relative, root_path⟩)
    · rw [closeSlash_eq nonempty] at closes
      split_ifs at closes with slashed room
      · exact .inl slashed
      · exact .inr room
    · -- what is found is the new working directory
      have success : r = 0 := by
        rcases found with ⟨zero, -⟩ | ⟨-, nothing⟩
        · exact zero
        · exact absurd leads (nothing v)
      rw [if_pos success] at returns
      obtain ⟨rfl, -, -⟩ := by simpa using returns
      rcases moved with ⟨-, cwd', names⟩ | ⟨failed, -⟩
      · rw [← names, ← same_fs]
        exact cwd'.leads
      · exact absurd success failed
  · obtain ⟨e, ends⟩ := (good.chdirLookup_ends no_nul).2 fits
    have same := lookup_stable.ends_unique ends (Returns.ends ⟨fuel, looks⟩)
    simp at same

/-! ## Sequences of calls -/

/-- One call that returns. -/
def ChdirStep (c : Session) (pathname : List UInt8) (c' : Session) : Prop :=
  0 ∉ pathname ∧ ∃ ret, ChdirReturns c pathname ret c'

/-- A call under the condition leads to a good working directory. -/
theorem Session.Good.step (good : c.Good root) (guard : ChdirGuard root c pathname)
    (step : ChdirStep c pathname c') : c'.Good root ∧ c'.state.fs = c.state.fs := by
  obtain ⟨no_nul, ret, returns⟩ := step
  obtain ⟨ret', c'', returns', rooted, same_fs, moved, -⟩ := good.law_of_guard no_nul guard
  have same := (syscChdir_stable pathname c.process c.state).mono.returns_unique returns returns'
  simp only [Prod.mk.injEq] at same
  obtain ⟨-, process, state⟩ := same
  rw [← process, ← state] at moved
  rw [← state] at rooted same_fs
  refine ⟨⟨rooted, ?_⟩, same_fs⟩
  rcases moved with ⟨-, cwd, -⟩ | ⟨-, stays⟩
  · exact cwd
  · rw [stays]
    refine ⟨good.cwd.is_cwd, ?_⟩
    rw [same_fs]
    exact good.cwd.leads

/-- **Working directories.** A call keeps the law exactly under the condition, and along every
sequence of calls under the condition `cwd` starts and ends with a slash and leads to a
directory. -/
theorem Run.chdir (good : c.Good root) :
    (∀ c pathname, c.Good root → 0 ∉ pathname →
      (ChdirLaw root c pathname ↔ ChdirGuard root c pathname)) ∧
    ∀ w c', Run (Guarded ChdirStep (ChdirGuard root)) c w c' →
      c'.Good root ∧ c'.state.fs = c.state.fs := by
  refine ⟨fun c pathname good no_nul => ⟨good.guard_of_law no_nul, good.law_of_guard no_nul⟩, ?_⟩
  intro w c' run
  apply run.preserves fun c' => c'.Good root ∧ c'.state.fs = c.state.fs
  · rintro c₁ pathname c₂ ⟨good₁, same₁⟩ ⟨guard, step⟩
    obtain ⟨good₂, same₂⟩ := good₁.step guard step
    exact ⟨good₂, same₂.trans same₁⟩
  · exact ⟨good, rfl⟩

/-- The first task starts in the root directory. -/
theorem firstTask_good : firstTask.Good 0 where
  rooted := freshRoot_plain.rooted
  cwd := ⟨rootCwd, 0, Namespace.reaches_nil.mpr
    ((Namespace.settles_iff_of_free (freshRoot_cover 0)).mpr rfl)⟩

/-- A task in the root directory, next to `/a`. -/
def taskAtA : Session := ⟨firstTask.process, oneDir⟩

/-- A task in `/a`. -/
def taskInA : Session := ⟨{ firstTask.process with cwd := [47, 97, 47] }, oneDir⟩

theorem taskAtA_good : taskAtA.Good 0 where
  rooted := oneDir_rooted
  cwd := ⟨rootCwd, 0, Namespace.reaches_nil.mpr (Namespace.settles_self (oneDir_cover 0))⟩

theorem components_a : components [47, 97] = [[97]] :=
  @components_path [[97]] (by decide) (by decide)

/-- The name `a` in the root directory. -/
theorem path_a {cwd : List UInt8} (root_dir : cwd = [47]) : absolute cwd [97] = [47, 97] := by
  subst root_dir
  rfl

/-- `cd a` leads to `/a`. -/
theorem taskAtA_chdir : ChdirStep taskAtA [97] taskInA ∧ taskInA.Good 0 := by
  have reaches : oneDir.fs.names.Reaches 0 [[97]] 1 :=
    Namespace.reaches_snoc.mpr ⟨0, Namespace.reaches_nil.mpr
      (Namespace.settles_self (oneDir_cover 0)), 1, rfl, rfl,
      Namespace.settles_self (oneDir_cover 1)⟩
  have short : ∀ k ∈ components (absolute [slash] [97]), k.length < tmpfsMaxComponentName := by
    rw [@path_a [slash] rfl, components_a]
    decide
  have guard : ChdirGuard 0 taskAtA [97] :=
    { joins := by decide
      lookup := .inr (Fs.shortAlong_of_all short)
      not_blank := by decide
      not_root := fun _ => by decide
      room := .inr (by decide)
      directory := fun _ _ => ⟨1, reaches⟩ }
  have step : ChdirStep taskAtA [97] taskInA := ⟨by decide, 0, 3, rfl⟩
  have run : Run (Guarded ChdirStep (ChdirGuard 0)) taskAtA [[97]] taskInA :=
    Run.single ⟨guard, step⟩
  exact ⟨step, ((Run.chdir taskAtA_good).2 _ _ run).1⟩

/-- `cd a` leads there, and `cd ..` does not return. -/
theorem parentDir_faults :
    ChdirReturns taskAtA [97] 0 taskInA ∧ ¬ ChdirLaw 0 taskInA parentDir := by
  refine ⟨⟨3, rfl⟩, ?_⟩
  rintro ⟨ret, c', returns, -⟩
  -- `changed_path` is empty, so that the byte in front of it is read
  have faults : Ends (fun fuel => syscChdir fuel parentDir taskInA.process taskInA.state)
      (.error .outOfBounds) := ⟨by simp, 3, rfl⟩
  have stable := syscChdir_stable parentDir taskInA.process taskInA.state
  have same := stable.ends_unique faults (Returns.ends returns)
  simp at same

end BareMetal.Vfs
