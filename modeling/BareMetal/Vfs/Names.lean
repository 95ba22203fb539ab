import BareMetal.Vfs.AbsPath
import BareMetal.Vfs.StartValue

/-!
# What fits where a path goes

A path is copied to `abs_path`, to `path_copy` and, name by name, to `component_name` and
the names of new vnodes, and nothing looks at a length. Here is what has to be small for each of
the copies to stay in its buffer, in terms of the path and the vnodes before the call.

## Main results

* `toAbsPath_ends` — what `to_abs_path` does
* `Tree.createLoop_ends` — the create loop stays in the names of vnodes exactly if the names of the
  directories that are missing fit
* `Rooted.create_ends` — calls of `lookup_path` for creation
-/

namespace BareMetal.Vfs

open CS Strings

variable {fs : Fs} {s : State} {root d u v : ℕ} {node : Vnode} {k pathname cwd : List UInt8}
  {ks : List (List UInt8)} {target : Option ℕ} {i₀ : ℤ} {st : Strtok}

/-! ## `to_abs_path` -/

/-- What `cwd` of a task has to be like for `to_abs_path`. -/
structure IsCwd (cwd : List UInt8) : Prop where
  starts : cwd.head? = some slash
  closes : cwd.getLast? = some slash
  no_nul : 0 ∉ cwd
  length : cwd.length < tmpfsMaxPathLen

/-- The path is copied to `abs_path`, or joined and cut in `untranslate` and `comps`. -/
def JoinFits (cwd pathname : List UInt8) : Prop :=
  if pathname.head? = some slash then pathname.length < tmpfsMaxPathLen
  else (cwd ++ pathname).length < tmpfsMaxPathLen ∧ (cwd ++ pathname).count slash ≤ 62

instance (cwd pathname : List UInt8) : Decidable (JoinFits cwd pathname) :=
  inferInstanceAs (Decidable (ite _ _ _))

/-- A relative path that ends in a blank name, at which `to_abs_path` reads NULL. -/
def EndsInBlank (pathname : List UInt8) : Prop :=
  pathname.head? ≠ some slash ∧ Blank (lastPiece pathname)

instance (pathname : List UInt8) : Decidable (EndsInBlank pathname) :=
  inferInstanceAs (Decidable (_ ∧ _))

/-- What `to_abs_path` leaves in `abs_path`. -/
def absolute (cwd pathname : List UInt8) : List UInt8 :=
  if pathname.head? = some slash then pathname
  else path (normalise ((cwd ++ pathname).splitOn slash)).reverse

theorem joinFits_of_absolute (leading : pathname.head? = some slash) :
    JoinFits cwd pathname ↔ pathname.length < tmpfsMaxPathLen := by
  rw [JoinFits, if_pos leading]

theorem joinFits_of_relative (relative : pathname.head? ≠ some slash) :
    JoinFits cwd pathname ↔
      (cwd ++ pathname).length < tmpfsMaxPathLen ∧ (cwd ++ pathname).count slash ≤ 62 := by
  rw [JoinFits, if_neg relative]

/-- **What `to_abs_path` does**: it writes behind a buffer, or reads NULL, or returns the absolute
path. -/
theorem toAbsPath_ends (is_cwd : IsCwd cwd) (no_nul : 0 ∉ pathname) (ready : st.flag = false) :
    ∃ st', st'.flag = false ∧ toAbsPath cwd pathname st =
      if ¬ JoinFits cwd pathname then .error .outOfBounds
      else if EndsInBlank pathname then .error .nullPointer
      else .ok (0, absolute cwd pathname, st') := by
  by_cases leading : pathname.head? = some slash
  · -- an absolute path is copied as it is
    have not_blank : ¬ EndsInBlank pathname := fun blank => blank.1 leading
    have fits_iff := @joinFits_of_absolute pathname cwd leading
    refine ⟨st, ready, ?_⟩
    rw [if_neg not_blank, absolute, if_pos leading, toAbsPath, if_pos leading, strcat,
      List.nil_append]
    by_cases short : pathname.length < tmpfsMaxPathLen
    · rw [if_pos short, if_neg (not_not.mpr (fits_iff.mpr short))]
      rfl
    · rw [if_neg short, if_pos (fits_iff.not.mpr short)]
      rfl
  · have fits_iff := @joinFits_of_relative pathname cwd leading
    -- a relative path is appended to the working directory and split
    have is_path : ¬ (cwd.head? ≠ some slash ∨ cwd.getLast? ≠ some slash) := by
      simp [is_cwd.starts, is_cwd.closes]
    refine ⟨.idle, rfl, ?_⟩
    rw [absolute, if_neg leading]
    by_cases fits : JoinFits cwd pathname
    · obtain ⟨short, slashes⟩ := fits_iff.mp fits
      have no_nul' : 0 ∉ cwd ++ pathname := by
        rw [List.mem_append, not_or]
        exact ⟨is_cwd.no_nul, no_nul⟩
      have blank_iff : EndsInBlank pathname ↔ Blank (lastPiece pathname) := and_iff_right leading
      rw [if_neg (not_not.mpr fits), toAbsPath_settles leading is_cwd.starts is_cwd.closes no_nul'
        short slashes ready]
      by_cases blank : Blank (lastPiece pathname)
      · rw [if_pos blank, if_pos (blank_iff.mpr blank)]
      · rw [if_neg blank, if_neg (blank_iff.not.mpr blank)]
    · rw [if_pos fits, toAbsPath, if_neg leading, if_neg is_path, strcat, List.nil_append,
        if_pos is_cwd.length, outcome_bind_ok, strcat]
      by_cases short : (cwd ++ pathname).length < tmpfsMaxPathLen
      · -- too many pieces for `comps`
        have full : vfsMaxDepth - 1 < ((cwd ++ pathname).splitOn slash).length := by
          by_contra! few
          rw [length_pieces] at few
          exact fits (fits_iff.mpr ⟨short, Nat.le_of_succ_le_succ few⟩)
        rw [if_pos short, outcome_bind_ok, spiltStrings_full ready full, outcome_bind_error]
      · rw [if_neg short, outcome_bind_error]

/-! ## The create loop -/

/-- From this vnode on, the create loop gives no long name to a new directory: the names lead
through what is there, a name that is refused leads nowhere, and from the first one that is
missing on all have to be short. -/
def State.NamesFit (s : State) : ℕ → List (List UInt8) → Prop
  | _, [] => True
  | d, k :: ks =>
    (k = [] ∨ ¬ s.fs.names.isDir d ∨ s.Refuses d k) ∧ s.NamesFit d ks ∨
      ¬ (k = [] ∨ ¬ s.fs.names.isDir d ∨ s.Refuses d k) ∧
        match s.fs.names.child d k with
        | some v => s.NamesFit v ks
        | none => ∀ k' ∈ k :: ks, k'.length < nameLen

theorem State.namesFit_skip (skips : k = [] ∨ ¬ s.fs.names.isDir d ∨ s.Refuses d k) :
    s.NamesFit d (k :: ks) ↔ s.NamesFit d ks := by
  simp only [NamesFit, skips, not_true_eq_false, false_and, or_false, true_and]

theorem State.namesFit_found (goes_on : ¬ (k = [] ∨ ¬ s.fs.names.isDir d ∨ s.Refuses d k))
    (found : s.fs.names.child d k = some v) :
    s.NamesFit d (k :: ks) ↔ s.NamesFit v ks := by
  simp only [NamesFit, goes_on, found, not_false_eq_true, false_and, false_or, true_and]

theorem State.namesFit_missing (goes_on : ¬ (k = [] ∨ ¬ s.fs.names.isDir d ∨ s.Refuses d k))
    (missing : s.fs.names.child d k = none) :
    s.NamesFit d (k :: ks) ↔ ∀ k' ∈ k :: ks, k'.length < nameLen := by
  simp only [NamesFit, goes_on, missing, not_false_eq_true, false_and, false_or, true_and]

theorem createLoop_empty (rest : List (List UInt8)) (d : ℕ) (target : Option ℕ) (s : State) :
    createLoop ([] :: rest) d target s = createLoop rest d target s := by
  rw [createLoop, if_pos rfl]

/-- In a new directory every name is missing. -/
theorem Tree.createLoop_fresh (tree : Tree s.fs root) (here : s.fs.nodes[d]? = some node)
    (dir : node.component.type = .dir) (opens : node.vOps.Open s.mounted)
    (no_entries : node.component.listed = []) (clean : ∀ k ∈ ks, 0 ∉ k ∧ slash ∉ k) :
    ((∀ k ∈ ks, k.length < nameLen) → ∃ r, createLoop ks d target s = .ok r) ∧
      (¬ (∀ k ∈ ks, k.length < nameLen) → createLoop ks d target s = .error .outOfBounds) := by
  induction ks generalizing d node target s with
  | nil => exact ⟨fun _ => ⟨_, rfl⟩, fun long => absurd (by simp) long⟩
  | cons k ks ih =>
    obtain ⟨⟨no_nul, no_slash⟩, clean'⟩ := List.forall_mem_cons.mp clean
    simp only [List.forall_mem_cons]
    by_cases empty : k = []
    · subst empty
      rw [createLoop_empty, and_iff_right (show ([] : List UInt8).length < nameLen by decide)]
      exact ih tree here dir opens no_entries clean'
    have missing : s.fs.names.child d k = none := by
      simp [Namespace.child, Fs.names, Fs.listing_eq here, no_entries]
    have room : node.component.len < tmpfsMaxEntry := by
      rw [((tree.sound here).entry dir).1, no_entries]
      decide
    rw [createLoop, if_neg empty, Fs.node_eq_ok.mpr here, outcome_bind_ok, mkdir_of_open opens]
    by_cases short : k.length < nameLen
    · rw [tree.tmpfsMkdir_new here dir no_nul missing room short, outcome_bind_ok,
        and_iff_right short]
      have tree' := tree.addDir here dir ⟨empty, no_nul, no_slash, short⟩
      exact ih (s := { s with fs := s.fs.addDir d node k }) tree' Fs.addDir_new rfl opens rfl
        clean'
    · rw [tree.tmpfsMkdir_long here dir no_nul missing room (not_lt.mp short), outcome_bind_error]
      exact ⟨fun all => absurd all.1 short, fun _ => rfl⟩

/-- **The create loop** returns if the names fit, and else writes behind the name of a vnode. -/
theorem Tree.createLoop_ends (target : Option ℕ) (tree : Tree s.fs root)
    (valid : d < s.fs.nodes.length)
    (clean : ∀ k ∈ ks, 0 ∉ k ∧ slash ∉ k) :
    (s.NamesFit d ks → ∃ r, createLoop ks d target s = .ok r) ∧
      (¬ s.NamesFit d ks → createLoop ks d target s = .error .outOfBounds) := by
  induction ks generalizing d target with
  | nil => exact ⟨fun _ => ⟨_, rfl⟩, fun long => absurd trivial long⟩
  | cons k ks ih =>
    obtain ⟨⟨no_nul, no_slash⟩, clean'⟩ := List.forall_mem_cons.mp clean
    have here := List.getElem?_eq_getElem valid
    have dir_iff := Fs.isDir_iff here
    by_cases skips : k = [] ∨ ¬ s.fs.names.isDir d ∨ s.Refuses d k
    · rw [State.namesFit_skip skips]
      by_cases empty : k = []
      · rw [empty, createLoop_empty]
        exact ih target valid clean'
      · -- the function `mkdir` fails
        have refused : ∃ result,
            s.fs.nodes[d].vOps.mkdir s.mounted d target k s.fs = .ok (result, target, s.fs) ∧
              result ≠ 0 := by
          by_cases dir : s.fs.names.isDir d
          · have refuses := (skips.resolve_left empty).resolve_left (not_not.mpr dir)
            exact tree.mkdir_refused here (dir_iff.mp dir) no_nul refuses
          · exact mkdir_of_file here (dir ∘ dir_iff.mpr)
        obtain ⟨result, mkdir, failed⟩ := refused
        rw [createLoop, if_neg empty, Fs.node_eq_ok.mpr here, outcome_bind_ok, mkdir,
          outcome_bind_ok]
        simp only [if_neg failed]
        exact ih target valid clean'
    · have empty : k ≠ [] := fun empty => skips (.inl empty)
      have dir : s.fs.names.isDir d := by
        by_contra other
        exact skips (.inr (.inl other))
      have opens : s.fs.nodes[d].vOps.Open s.mounted := by
        by_contra closed
        refine skips (.inr (.inr fun node' here' => .inl ?_))
        rwa [← Option.some.inj (here.symm.trans here')]
      rw [createLoop, if_neg empty, Fs.node_eq_ok.mpr here, outcome_bind_ok, mkdir_of_open opens]
      cases found : s.fs.names.child d k with
      | some v =>
        -- the entry is there, and the loop goes on below it
        rw [State.namesFit_found skips found,
          tree.tmpfsMkdir_found here (dir_iff.mp dir) no_nul found, outcome_bind_ok]
        exact ih _ (tree.child_valid found) clean'
      | none =>
        -- a directory that does not refuse the name has room for it
        have room : s.fs.nodes[d].component.len < tmpfsMaxEntry := by
          by_contra! full
          refine skips (.inr (.inr fun node' here' => .inr ⟨found, ?_⟩))
          rwa [← Option.some.inj (here.symm.trans here')]
        rw [State.namesFit_missing skips found, List.forall_mem_cons]
        -- a longer name is written behind that of the new vnode
        by_cases short : k.length < nameLen
        · rw [tree.tmpfsMkdir_new here (dir_iff.mp dir) no_nul found room short, outcome_bind_ok,
            and_iff_right short]
          have tree' := tree.addDir here (dir_iff.mp dir) ⟨empty, no_nul, no_slash, short⟩
          exact Tree.createLoop_fresh (s := { s with fs := s.fs.addDir d _ k }) tree' Fs.addDir_new
            rfl opens rfl clean'
        · rw [tree.tmpfsMkdir_long here (dir_iff.mp dir) no_nul found room (not_lt.mp short),
            outcome_bind_error]
          exact ⟨fun all => absurd all.1 short, fun _ => rfl⟩

theorem State.namesFit_with_strtok (strtok : Strtok) :
    State.NamesFit { s with strtok := strtok } d ks ↔ s.NamesFit d ks := by
  induction ks generalizing d with
  | nil => exact Iff.rfl
  | cons k ks ih =>
    by_cases skips : k = [] ∨ ¬ s.fs.names.isDir d ∨ s.Refuses d k
    · rw [State.namesFit_skip skips,
        State.namesFit_skip (s := { s with strtok := strtok }) skips, ih]
    · cases found : s.fs.names.child d k with
      | some v =>
        rw [State.namesFit_found skips found,
          State.namesFit_found (s := { s with strtok := strtok }) skips found, ih]
      | none =>
        rw [State.namesFit_missing skips found,
          State.namesFit_missing (s := { s with strtok := strtok }) skips found]

/-- Short names fit everywhere. -/
theorem State.namesFit_of_short (short : ∀ k ∈ ks, k.length < nameLen) : s.NamesFit d ks := by
  induction ks generalizing d with
  | nil => trivial
  | cons k ks ih =>
    have short' := (List.forall_mem_cons.mp short).2
    by_cases skips : k = [] ∨ ¬ s.fs.names.isDir d ∨ s.Refuses d k
    · exact (State.namesFit_skip skips).mpr (ih short')
    · cases found : s.fs.names.child d k with
      | some v => exact (State.namesFit_found skips found).mpr (ih short')
      | none => exact (State.namesFit_missing skips found).mpr short

/-- Empty names are skipped. -/
theorem State.namesFit_filter : s.NamesFit d (ks.filter (· ≠ [])) ↔ s.NamesFit d ks := by
  induction ks generalizing d with
  | nil => rfl
  | cons k ks ih =>
    by_cases empty : k = []
    · rw [List.filter_cons_of_neg (by simpa using empty), ih, State.namesFit_skip (.inl empty)]
    · rw [List.filter_cons_of_pos (by simpa using empty)]
      by_cases skips : k = [] ∨ ¬ s.fs.names.isDir d ∨ s.Refuses d k
      · rw [State.namesFit_skip skips, State.namesFit_skip skips, ih]
      · cases found : s.fs.names.child d k with
        | some v => rw [State.namesFit_found skips found, State.namesFit_found skips found, ih]
        | none =>
          rw [State.namesFit_missing skips found, State.namesFit_missing skips found,
            List.forall_mem_cons, List.forall_mem_cons]
          refine and_congr_right fun _ => ⟨fun short k' inside => ?_, fun short k' inside => ?_⟩
          · by_cases empty' : k' = []
            · exact empty' ▸ (by decide)
            · exact short k' (List.mem_filter.mpr ⟨inside, by simpa using empty'⟩)
          · exact short k' (List.mem_filter.mp inside).1

/-! ## Calls from the root -/

/-- The names that a lookup comes to fit in `component_name`; `/` is not looked up. -/
def State.LookupFits (s : State) (root : ℕ) (pathname : List UInt8) : Prop :=
  pathname = [slash] ∨ s.fs.ShortAlong root (components pathname)

/-- The pieces fit in `rest_comps`, and the names of new directories in theirs. -/
structure State.CreateFits (s : State) (u : ℕ) (i₀ : ℤ) (pathname : List UInt8) : Prop where
  depth : (pathname.splitOn slash).length < vfsMaxDepth
  names : s.NamesFit u ((pathname.splitOn slash).drop i₀.toNat)

theorem State.createFits_with_strtok (strtok : Strtok) :
    State.CreateFits { s with strtok := strtok } u i₀ pathname ↔ s.CreateFits u i₀ pathname := by
  constructor
  · rintro ⟨depth, names⟩
    exact ⟨depth, (State.namesFit_with_strtok strtok).mp names⟩
  · rintro ⟨depth, names⟩
    exact ⟨depth, (State.namesFit_with_strtok strtok).mpr names⟩

/-- What the path leads to. -/
def State.LeadsTo (s : State) (root : ℕ) (pathname : List UInt8) (v : ℕ) : Prop :=
  pathname = [slash] ∧ v = root ∨
    pathname ≠ [slash] ∧ s.fs.names.Resolves root (components pathname) v

/-- Lookups that fit return, and change nothing. -/
theorem Rooted.vfsLookup_ends (rooted : Rooted s root) (no_nul : 0 ∉ pathname)
    (fits : s.LookupFits root pathname) : ∃ r target,
      Returns (fun fuel => vfsLookup fuel pathname none s) (r, target, s) ∧
        (r = 0 ∧ (∃ v, target = some v ∧ s.LeadsTo root pathname v) ∨
          r = -1 ∧ ∀ v, ¬ s.LeadsTo root pathname v) := by
  by_cases at_root : pathname = [slash]
  · subst at_root
    exact ⟨0, some root, rooted.vfsLookup_root, .inl ⟨rfl, root, rfl, .inl ⟨rfl, rfl⟩⟩⟩
  · obtain ⟨⟨r, target, s'⟩, returns, same, looks⟩ :=
      rooted.vfsLookup_looksUp none at_root no_nul (fits.resolve_left at_root)
    obtain rfl : s' = s := same
    refine ⟨r, target, returns, ?_⟩
    rcases looks with ⟨v, rfl, rfl, resolves⟩ | ⟨rfl, nothing⟩
    · exact .inl ⟨rfl, v, rfl, .inr ⟨at_root, resolves⟩⟩
    · refine .inr ⟨rfl, fun v leads => ?_⟩
      rcases leads with ⟨same, -⟩ | ⟨-, resolves⟩
      · exact at_root same
      · exact nothing v resolves

theorem Rooted.vfsLookup_long (rooted : Rooted s root) (no_nul : 0 ∉ pathname)
    (long : ¬ s.LookupFits root pathname) :
    Ends (fun fuel => vfsLookup fuel pathname none s) (.error .outOfBounds) := by
  rw [State.LookupFits, not_or] at long
  exact rooted.vfsLookup_overflows none long.1 no_nul long.2

/-- A path that can be looked up has a short first name. -/
theorem Rooted.short_first (rooted : Rooted s root) (fits : s.LookupFits root pathname) :
    (firstName pathname).length < tmpfsMaxComponentName := by
  obtain ⟨u, settles⟩ := rooted.tree.exists_settles root
  rcases fits with rfl | along
  · decide
  · by_cases last : popFirstComponent pathname = []
    · rw [components_last last] at along
      exact (Fs.shortAlong_singleton settles).mp along
    · rw [components_cons last] at along
      exact ((Fs.shortAlong_cons settles).mp along).1

/-- **Calls for creation** return if everything fits, and else write behind a buffer. -/
theorem Rooted.create_ends (rooted : Rooted s root) (settles : s.fs.names.Settles root u)
    (dir : s.fs.names.isDir u) (start : 0 ≤ i₀) (no_nul : 0 ∉ pathname)
    (short : (firstName pathname).length < tmpfsMaxComponentName)
    (length : pathname.length < tmpfsMaxPathLen) (target : Option ℕ) :
    (s.CreateFits u i₀ pathname →
        ∃ r, Returns (fun fuel => lookupPath i₀ fuel pathname root target true s) r) ∧
      (¬ s.CreateFits u i₀ pathname →
        Ends (fun fuel => lookupPath i₀ fuel pathname root target true s)
          (.error .outOfBounds)) := by
  have tree := rooted.tree
  have valid := tree.settles_valid tree.root_valid settles
  obtain ⟨depth, call⟩ := tree.lookupPath_start i₀ target tree.root_valid short settles dir
  have clean : ∀ k ∈ (pathname.splitOn slash).drop i₀.toNat, 0 ∉ k ∧ slash ∉ k := by
    intro k inside
    have piece := List.mem_of_mem_drop inside
    exact ⟨not_nul_mem_splitOn no_nul k piece, not_mem_pieces slash pathname k piece⟩
  by_cases fits : (pathname.splitOn slash).length < vfsMaxDepth
  · -- the names fit the array, and the loop is reached
    have path_fits : Fits pathname := ⟨short, length, fits⟩
    have loop := @createPath_start s pathname u target i₀ rooted.idle path_fits
    rw [if_neg (not_lt.mpr start)] at loop
    have ends := Tree.createLoop_ends (s := { s with strtok := .idle }) target tree valid clean
    rw [State.namesFit_with_strtok] at ends
    constructor
    · intro create
      obtain ⟨r, result⟩ := ends.1 create.names
      exact ⟨r, 0 + 1 + depth, (call 0).trans (loop.trans result)⟩
    · intro long
      have result := ends.2 fun names => long ⟨fits, names⟩
      exact ⟨by simp, 0 + 1 + depth, (call 0).trans (loop.trans result)⟩
  · -- too many names: the array of `spilt_strings` overflows
    have full : vfsMaxDepth - 1 < (pathname.splitOn slash).length :=
      Nat.lt_of_lt_of_le (by decide) (not_lt.mp fits)
    have overflows : createPath i₀ pathname u target s = .error .outOfBounds := by
      rw [createPath, if_neg (not_le.mpr length), spiltStrings_full rooted.idle full,
        outcome_bind_error]
    exact ⟨fun create => absurd create.depth fits,
      fun _ => ⟨by simp, 0 + 1 + depth, (call 0).trans overflows⟩⟩

/-- Below a root that is a directory the loop does not start in front of `rest_comps`, and
everything fits. -/
def State.CreationFits (s : State) (u : ℕ) (i₀ : ℤ) (pathname : List UInt8) : Prop :=
  s.fs.names.isDir u → 0 ≤ i₀ ∧ s.CreateFits u i₀ pathname

theorem State.creationFits_with_strtok (strtok : Strtok) :
    State.CreationFits { s with strtok := strtok } u i₀ pathname ↔ s.CreationFits u i₀ pathname :=
  imp_congr_right fun _ => and_congr_right fun _ => State.createFits_with_strtok strtok

/-- **Calls for creation** below any root, with any start value. -/
theorem Rooted.creation_ends (rooted : Rooted s root) (settles : s.fs.names.Settles root u)
    (i₀ : ℤ) (no_nul : 0 ∉ pathname) (short : (firstName pathname).length < tmpfsMaxComponentName)
    (length : pathname.length < tmpfsMaxPathLen) (target : Option ℕ) :
    (s.CreationFits u i₀ pathname →
        ∃ r, Returns (fun fuel => lookupPath i₀ fuel pathname root target true s) r) ∧
      (¬ s.CreationFits u i₀ pathname →
        Ends (fun fuel => lookupPath i₀ fuel pathname root target true s)
          (.error .outOfBounds)) := by
  by_cases dir : s.fs.names.isDir u
  · have fits_iff : s.CreationFits u i₀ pathname ↔ 0 ≤ i₀ ∧ s.CreateFits u i₀ pathname :=
      forall_prop_of_true dir
    rw [fits_iff]
    by_cases start : 0 ≤ i₀
    · rw [and_iff_right start]
      exact rooted.create_ends settles dir start no_nul short length target
    · refine ⟨fun fits => absurd fits.1 start, fun _ => ?_⟩
      -- the loop reads in front of the array, if the pieces have fitted it
      have overflows : createPath i₀ pathname u target s = .error .outOfBounds := by
        by_cases few : (pathname.splitOn slash).length < vfsMaxDepth
        · rw [createPath_start i₀ rooted.idle ⟨short, length, few⟩, if_pos (not_le.mp start)]
        · have full : vfsMaxDepth - 1 < (pathname.splitOn slash).length :=
            Nat.lt_of_lt_of_le (by decide) (not_lt.mp few)
          rw [createPath, if_neg (not_le.mpr length), spiltStrings_full rooted.idle full,
            outcome_bind_error]
      obtain ⟨depth, call⟩ :=
        rooted.tree.lookupPath_start i₀ target rooted.tree.root_valid short settles dir
      exact ⟨by simp, 0 + 1 + depth, (call 0).trans overflows⟩
  · refine ⟨fun _ => ⟨_, rooted.create_no_dir settles dir i₀ target short⟩, fun long => ?_⟩
    exact absurd (fun here => absurd here dir) long

end BareMetal.Vfs
