import BareMetal.Vfs.Tree

/-!
# Lookups of paths

`lookup_path` takes the names off a path one by one; `components` is the list of them.
In a tree a lookup returns 0 and a vnode if the components resolve to it, and −1 if they
resolve to none.

## Main results

* `components_path` — a path in normal form is cut into its names, in both ways
* `lookupPath_looksUp`, `vfsLookup_looksUp` — lookups resolve paths
-/

namespace BareMetal.Vfs

open CS Strings

variable {fs : Fs} {s : State} {root d v x u : ℕ} {node : Vnode} {k name pathname : List UInt8}
  {ks : List (List UInt8)} {target : Option ℕ} {i₀ : ℤ} {create : Bool}

/-! ## Components -/

/-- The name at the front of a path. -/
def firstName (pathname : List UInt8) : List UInt8 := (skipSlash pathname).takeWhile (· ≠ slash)

theorem length_skipSlash_le (pathname : List UInt8) :
    (skipSlash pathname).length ≤ pathname.length := by
  cases pathname with
  | nil => exact le_rfl
  | cons c rest =>
    rw [skipSlash]
    split_ifs
    · exact Nat.le_succ _
    · exact le_rfl

theorem mem_of_mem_skipSlash {c : UInt8} (inside : c ∈ skipSlash pathname) : c ∈ pathname := by
  cases pathname with
  | nil => exact inside
  | cons b rest =>
    rw [skipSlash] at inside
    split_ifs at inside
    · exact List.mem_cons_of_mem b inside
    · exact inside

theorem mem_of_mem_firstName {c : UInt8} (inside : c ∈ firstName pathname) : c ∈ pathname :=
  mem_of_mem_skipSlash ((List.takeWhile_prefix _).subset inside)

theorem mem_of_mem_popFirstComponent {c : UInt8} (inside : c ∈ popFirstComponent pathname) :
    c ∈ pathname :=
  mem_of_mem_skipSlash ((List.dropWhile_suffix _).subset (mem_of_mem_skipSlash inside))

/-- The first name of a path, and what `pop_first_component` leaves. -/
theorem skipSlash_parts (pathname : List UInt8) :
    (popFirstComponent pathname = [] ∧ skipSlash pathname = firstName pathname) ∨
      skipSlash pathname = firstName pathname ++ slash :: popFirstComponent pathname := by
  have parts := List.takeWhile_append_dropWhile (p := (· ≠ slash)) (l := skipSlash pathname)
  match behind : (skipSlash pathname).dropWhile (· ≠ slash) with
  | [] =>
    rw [behind, List.append_nil] at parts
    exact .inl ⟨by rw [popFirstComponent, behind, skipSlash], parts.symm⟩
  | c :: rest =>
    have cut : c = slash := by
      have stops := List.head_dropWhile_not (p := (· ≠ slash)) (l := skipSlash pathname)
        (by rw [behind]; simp)
      simpa only [behind, List.head_cons, decide_eq_false_iff_not, not_not] using stops
    rw [behind, cut] at parts
    rw [popFirstComponent, behind, cut, skipSlash, if_pos rfl]
    exact .inr parts.symm

/-- What is behind the first name is shorter. -/
theorem length_popFirstComponent_lt (more : popFirstComponent pathname ≠ []) :
    (popFirstComponent pathname).length < pathname.length := by
  have whole := length_skipSlash_le pathname
  rcases skipSlash_parts pathname with ⟨last, -⟩ | parts
  · exact absurd last more
  · have lengths := congrArg List.length parts
    rw [List.length_append, List.length_cons] at lengths
    omega

/-- The names that `lookup_path` looks up one after the other. -/
def components (pathname : List UInt8) : List (List UInt8) :=
  firstName pathname ::
    if _more : popFirstComponent pathname = [] then [] else components (popFirstComponent pathname)
termination_by pathname.length
decreasing_by exact length_popFirstComponent_lt _more

theorem components_last (last : popFirstComponent pathname = []) :
    components pathname = [firstName pathname] := by
  rw [components, dif_pos last]

theorem components_cons (more : popFirstComponent pathname ≠ []) :
    components pathname = firstName pathname :: components (popFirstComponent pathname) := by
  rw [components, dif_neg more]

theorem firstName_mem_components (pathname : List UInt8) :
    firstName pathname ∈ components pathname := by
  rw [components]
  exact List.mem_cons_self

theorem components_ne_nil : components pathname ≠ [] := by
  rw [components]
  exact List.cons_ne_nil _ _

/-- A leading slash does not matter. -/
theorem components_congr {pathname' : List UInt8}
    (skip : skipSlash pathname = skipSlash pathname') :
    components pathname = components pathname' := by
  have behind : popFirstComponent pathname = popFirstComponent pathname' := by
    rw [popFirstComponent, skip, popFirstComponent]
  have first : firstName pathname = firstName pathname' := by rw [firstName, skip, firstName]
  by_cases last : popFirstComponent pathname' = []
  · rw [components_last last, components_last (by rwa [behind]), first]
  · rw [components_cons last, components_cons (by rwa [behind]), first, behind]

/-- The absolute path of these names. -/
def path (ks : List (List UInt8)) : List UInt8 := ks.flatMap fun k => slash :: k

theorem path_cons : path (k :: ks) = slash :: (k ++ path ks) := rfl

theorem skipSlash_of_not_mem (nonempty : k ≠ []) (no_slash : slash ∉ k) (rest : List UInt8) :
    skipSlash (k ++ rest) = k ++ rest := by
  cases k with
  | nil => exact absurd rfl nonempty
  | cons c k => exact if_neg fun same : c = slash => no_slash (same ▸ List.mem_cons_self)

theorem takeWhile_path (no_slash : slash ∉ k) :
    (k ++ path ks).takeWhile (· ≠ slash) = k := by
  have all : ∀ c ∈ k, decide (c ≠ slash) = true := by
    intro c inside
    exact decide_eq_true (ne_of_mem_of_not_mem inside no_slash)
  rw [List.takeWhile_append_of_pos all]
  cases ks <;> simp [path]

theorem dropWhile_path (no_slash : slash ∉ k) :
    (k ++ path ks).dropWhile (· ≠ slash) = path ks := by
  have parts := List.takeWhile_append_dropWhile (p := (· ≠ slash)) (l := k ++ path ks)
  rw [takeWhile_path no_slash] at parts
  exact List.append_cancel_left parts

/-- A relative path in normal form is cut into its names. -/
theorem components_relative (proper : ∀ k' ∈ k :: ks, k' ≠ [] ∧ slash ∉ k') :
    components (k ++ path ks) = k :: ks := by
  induction ks generalizing k with
  | nil =>
    obtain ⟨nonempty, no_slash⟩ := proper k List.mem_cons_self
    have skip := skipSlash_of_not_mem nonempty no_slash (path [])
    rw [components_last, firstName, skip, takeWhile_path no_slash]
    rw [popFirstComponent, skip, dropWhile_path no_slash]
    rfl
  | cons k₁ ks ih =>
    obtain ⟨nonempty, no_slash⟩ := proper k List.mem_cons_self
    have proper' := fun k' inside => proper k' (List.mem_cons_of_mem k inside)
    have skip := skipSlash_of_not_mem nonempty no_slash (path (k₁ :: ks))
    have behind : popFirstComponent (k ++ path (k₁ :: ks)) = k₁ ++ path ks := by
      rw [popFirstComponent, skip, dropWhile_path no_slash, path_cons, skipSlash, if_pos rfl]
    have more : k₁ ++ path ks ≠ [] := by
      simp [(proper' k₁ List.mem_cons_self).1]
    rw [components_cons (by rwa [behind]), firstName, skip, takeWhile_path no_slash, behind,
      ih proper']

/-- An absolute path in normal form is cut into its names. -/
theorem components_path (some_name : ks ≠ []) (proper : ∀ k ∈ ks, k ≠ [] ∧ slash ∉ k) :
    components (path ks) = ks := by
  cases ks with
  | nil => exact absurd rfl some_name
  | cons k ks =>
    obtain ⟨nonempty, no_slash⟩ := proper k List.mem_cons_self
    have skip : skipSlash (path (k :: ks)) = skipSlash (k ++ path ks) := by
      rw [path_cons, skipSlash, if_pos rfl, skipSlash_of_not_mem nonempty no_slash]
    rw [components_congr skip, components_relative proper]

/-- `spilt_strings` cuts it into the same names. -/
theorem splitOn_relative (no_slash : ∀ k' ∈ k :: ks, slash ∉ k') :
    (k ++ path ks).splitOn slash = k :: ks := by
  induction ks generalizing k with
  | nil =>
    rw [path, List.flatMap_nil, List.append_nil]
    exact List.splitOn_eq_singleton (no_slash k List.mem_cons_self)
  | cons k₁ ks ih =>
    have no_slash' := fun k' inside => no_slash k' (List.mem_cons_of_mem k inside)
    rw [path_cons, List.splitOn_append_cons_self_of_not_mem (no_slash k List.mem_cons_self),
      ih no_slash']

theorem splitOn_path (some_name : ks ≠ []) (no_slash : ∀ k ∈ ks, slash ∉ k) :
    (path ks).splitOn slash = [] :: ks := by
  cases ks with
  | nil => exact absurd rfl some_name
  | cons k ks =>
    rw [path_cons, ← List.nil_append (slash :: (k ++ path ks)),
      List.splitOn_append_cons_self_of_not_mem List.not_mem_nil, splitOn_relative no_slash]

/-! ## Pieces of a path -/

theorem splitOn_cut (s : List UInt8) : (slash :: s).splitOn slash = [] :: s.splitOn slash := by
  simp [List.splitOn_cons_eq_if_modifyHead]

theorem splitOn_keep {c : UInt8} (keep : c ≠ slash) (s : List UInt8) :
    (c :: s).splitOn slash = (s.splitOn slash).modifyHead (List.cons c) := by
  simp [List.splitOn_cons_eq_if_modifyHead, keep]

theorem path_splitOn (s : List UInt8) : path (s.splitOn slash) = slash :: s := by
  induction s with
  | nil => rfl
  | cons c s ih =>
    by_cases cut : c = slash
    · subst cut
      rw [splitOn_cut, path_cons, ih]
      rfl
    · obtain ⟨first, rest, pieces⟩ : ∃ first rest, s.splitOn slash = first :: rest :=
        List.exists_cons_of_ne_nil (List.splitOn_ne_nil slash s)
      rw [pieces, path_cons, List.cons.injEq] at ih
      rw [splitOn_keep cut, pieces, List.modifyHead_cons, path_cons, List.cons_append, ih.2]

/-- Pieces of a string without NUL have none. -/
theorem not_nul_mem_splitOn {s : List UInt8} (no_nul : 0 ∉ s) : ∀ k ∈ s.splitOn slash, 0 ∉ k := by
  intro k inside zero
  have whole : (0 : UInt8) ∈ path (s.splitOn slash) :=
    List.mem_flatMap.mpr ⟨k, inside, List.mem_cons_of_mem _ zero⟩
  rw [path_splitOn] at whole
  rcases List.mem_cons.mp whole with cut | inside
  · exact absurd cut (by decide)
  · exact no_nul inside

/-! ## `lookup_path` -/

/-- A larger bound on the depth changes nothing. -/
theorem lookupPath_stable (i₀ : ℤ) (pathname : List UInt8) (d : ℕ) (target : Option ℕ)
    (create : Bool) (s : State) :
    FuelStable fun fuel => lookupPath i₀ fuel pathname d target create s := by
  intro fuel
  induction fuel generalizing pathname d target s with
  | zero => exact fun ended => absurd rfl ended
  | succ fuel ih =>
    refine StableAt.succ (fun n => lookupPath.eq_2 ..) ?_
    apply (stableAt_const _).bind
    intro name
    apply (stableAt_const _).bind
    intro dir
    cases dir.mount with
    | some root => exact ih _ _ _ _
    | none =>
      by_cases other : dir.component.type ≠ .dir
      · simp only [if_pos other]
        exact stableAt_const _
      by_cases creating : create = true
      · simp only [if_neg other, if_pos creating]
        exact stableAt_const _
      simp only [if_neg other, if_neg creating]
      apply (stableAt_const _).bind
      rintro ⟨result, target⟩
      by_cases failed : result ≠ 0
      · simp only [if_neg failed]
        exact stableAt_const _
      simp only [if_pos (not_not.mp failed)]
      cases target with
      | none => exact stableAt_const _
      | some found =>
        apply (stableAt_const _).bind
        intro node
        by_cases last : popFirstComponent pathname = []
        · simp only [if_pos last]
          exact stableAt_const _
        simp only [if_neg last]
        cases node.component.type with
        | dir => exact ih _ _ _ _
        | file => exact stableAt_const _

theorem lookupPath_mono (i₀ : ℤ) (pathname : List UInt8) (d : ℕ) (target : Option ℕ)
    (create : Bool) (s : State) :
    FuelMonotone fun fuel => lookupPath i₀ fuel pathname d target create s :=
  (lookupPath_stable i₀ pathname d target create s).mono

theorem firstComponent_eq (short : (firstName pathname).length < tmpfsMaxComponentName) :
    firstComponent pathname = .ok (firstName pathname) :=
  if_pos short

/-- `lookup_path` starts at the end of the chain of mounts. -/
theorem Tree.lookupPath_settles (i₀ : ℤ) (target : Option ℕ) (create : Bool) (tree : Tree s.fs root)
    (valid : d < s.fs.nodes.length)
    (short : (firstName pathname).length < tmpfsMaxComponentName)
    (settles : s.fs.names.Settles d u) :
    ∃ depth, ∀ fuel, lookupPath i₀ (fuel + depth) pathname d target create s =
      lookupPath i₀ fuel pathname u target create s := by
  obtain ⟨chain, ends⟩ := settles
  induction chain using Relation.ReflTransGen.head_induction_on with
  | refl => exact ⟨0, fun _ => rfl⟩
  | head covered chain ih =>
    obtain ⟨depth, same⟩ := ih (tree.mount_valid covered).2
    refine ⟨depth + 1, fun fuel => ?_⟩
    have here := List.getElem?_eq_getElem valid
    have mount := (Fs.cover_eq here).symm.trans covered
    rw [← same, ← Nat.add_assoc, lookupPath, firstComponent_eq short, outcome_bind_ok,
      Fs.node_eq_ok.mpr here, outcome_bind_ok, mount]

/-- What a lookup of these components should return. -/
def LooksUp (s : State) (d : ℕ) (ks : List (List UInt8)) (result : ℤ × Option ℕ × State) : Prop :=
  result.2.2 = s ∧
    ((∃ v, result.1 = 0 ∧ result.2.1 = some v ∧ s.fs.names.Resolves d ks v) ∨
      result.1 = -1 ∧ ∀ v, ¬ s.fs.names.Resolves d ks v)

theorem Fs.child_of_ne (here : fs.nodes[d]? = some node) (other : node.component.type ≠ .dir) :
    fs.names.child d k = none := by
  simp [Namespace.child, names, listing_eq here, Component.listed_of_ne other]

/-- A lookup in a settled directory that has no entry of the first name. -/
theorem Tree.lookupPath_none (i₀ : ℤ) (target : Option ℕ) (tree : Tree s.fs root)
    (here : s.fs.nodes[u]? = some node)
    (ends : s.fs.names.cover u = none) (no_nul : 0 ∉ pathname)
    (short : (firstName pathname).length < tmpfsMaxComponentName)
    (missing : s.fs.names.child u (firstName pathname) = none) (fuel : ℕ) :
    lookupPath i₀ (fuel + 1) pathname u target false s = .ok (-1, target, s) := by
  have mount := (Fs.cover_eq here).symm.trans ends
  rw [lookupPath, firstComponent_eq short, outcome_bind_ok, Fs.node_eq_ok.mpr here, outcome_bind_ok,
    mount]
  by_cases dir : node.component.type = .dir
  · simp [dir, lookup_eq, tree.tmpfsLookup_eq here dir fun inside =>
      no_nul (mem_of_mem_firstName inside),
      missing]
  · simp [dir]

/-- A lookup in a settled directory that has an entry of the first name. -/
theorem Tree.lookupPath_some (i₀ : ℤ) (target : Option ℕ) (tree : Tree s.fs root)
    (here : s.fs.nodes[u]? = some node)
    (ends : s.fs.names.cover u = none) (no_nul : 0 ∉ pathname)
    (short : (firstName pathname).length < tmpfsMaxComponentName)
    (found : s.fs.names.child u (firstName pathname) = some v) {child : Vnode}
    (there : s.fs.nodes[v]? = some child) (fuel : ℕ) :
    lookupPath i₀ (fuel + 1) pathname u target false s =
      if popFirstComponent pathname = [] then .ok (0, some v, s)
      else if child.component.type = .dir then
        lookupPath i₀ fuel (popFirstComponent pathname) v (some v) false s
      else .ok (-1, some v, s) := by
  have mount := (Fs.cover_eq here).symm.trans ends
  have dir : node.component.type = .dir := by
    by_contra other
    rw [Fs.child_of_ne here other] at found
    contradiction
  rw [lookupPath, firstComponent_eq short, outcome_bind_ok, Fs.node_eq_ok.mpr here, outcome_bind_ok,
    mount]
  simp only [dir, ne_eq, not_true_eq_false, if_false, Bool.false_eq_true, lookup_eq,
    tree.tmpfsLookup_eq here dir fun inside => no_nul (mem_of_mem_firstName inside), found,
    outcome_bind_ok, Option.isSome_some, if_true, Option.some_or, Fs.node_eq_ok.mpr there]
  cases child.component.type <;> simp

/-- Each name that a lookup from the node on comes to fits in `component_name`. -/
def Fs.ShortAlong (fs : Fs) (d : ℕ) (ks : List (List UInt8)) : Prop :=
  ∀ ⦃init k rest⦄, ks = init ++ k :: rest → (∃ u, fs.names.Reaches d init u) →
    k.length < tmpfsMaxComponentName

theorem Fs.shortAlong_of_all (short : ∀ k ∈ ks, k.length < tmpfsMaxComponentName) :
    fs.ShortAlong d ks := by
  rintro init k rest rfl -
  exact short k (List.mem_append_right init List.mem_cons_self)

/-- A lookup comes to the first name, and to the others if this one leads to a directory. -/
theorem Fs.shortAlong_cons (settles : fs.names.Settles d u) : fs.ShortAlong d (k :: ks) ↔
    k.length < tmpfsMaxComponentName ∧
      ∀ ⦃v⦄, fs.names.child u k = some v → fs.names.isDir v → fs.ShortAlong v ks := by
  constructor
  · intro along
    refine ⟨@along [] k ks rfl ⟨u, Namespace.reaches_nil.mpr settles⟩, fun v found dir => ?_⟩
    rintro init name rest rfl ⟨w, reaches⟩
    exact @along (k :: init) name rest rfl
      ⟨w, Namespace.reaches_cons.mpr ⟨u, v, settles, found, dir, reaches⟩⟩
  · rintro ⟨first, later⟩ init name rest cut ⟨w, reaches⟩
    cases init with
    | nil =>
      rw [List.nil_append, List.cons.injEq] at cut
      exact cut.1 ▸ first
    | cons k' init =>
      rw [List.cons_append, List.cons.injEq] at cut
      obtain ⟨rfl, rfl⟩ := cut
      obtain ⟨u', v, settles', found, dir, reaches⟩ := Namespace.reaches_cons.mp reaches
      obtain rfl := settles.unique settles'
      exact later found dir rfl ⟨w, reaches⟩

theorem Fs.shortAlong_singleton (settles : fs.names.Settles d u) :
    fs.ShortAlong d [k] ↔ k.length < tmpfsMaxComponentName := by
  rw [shortAlong_cons settles, and_iff_left]
  rintro v - - init name rest cut
  simp at cut

/-- **`lookup_path` resolves paths**: it returns 0 and the vnode if there is one, and else
−1. -/
theorem Tree.lookupPath_looksUp (i₀ : ℤ) (target : Option ℕ) (tree : Tree s.fs root)
    (valid : d < s.fs.nodes.length) (no_nul : 0 ∉ pathname)
    (along : s.fs.ShortAlong d (components pathname)) :
    ∃ result, Returns (fun fuel => lookupPath i₀ fuel pathname d target false s) result ∧
      LooksUp s d (components pathname) result := by
  induction length : pathname.length using Nat.strong_induction_on
    generalizing pathname d target with
  | _ n ih =>
    obtain ⟨u, settles⟩ := tree.exists_settles d
    have here := List.getElem?_eq_getElem (tree.settles_valid valid settles)
    by_cases last : popFirstComponent pathname = []
    · rw [components_last last] at along ⊢
      have short := (Fs.shortAlong_singleton settles).mp along
      obtain ⟨depth, start⟩ := tree.lookupPath_settles i₀ target false valid short settles
      simp only [LooksUp, Namespace.resolves_singleton settles]
      cases found : s.fs.names.child u (firstName pathname) with
      | none =>
        have step := tree.lookupPath_none i₀ target here settles.2 no_nul short found 0
        exact ⟨_, ⟨1 + depth, (start 1).trans step⟩, rfl, .inr ⟨rfl, by simp⟩⟩
      | some v =>
        have there := List.getElem?_eq_getElem (tree.child_valid found)
        have step := tree.lookupPath_some i₀ target here settles.2 no_nul short found there 0
        rw [if_pos last] at step
        exact ⟨_, ⟨1 + depth, (start 1).trans step⟩, rfl, .inl ⟨v, rfl, rfl, rfl⟩⟩
    · have shorter := length_popFirstComponent_lt last
      rw [components_cons last] at along ⊢
      obtain ⟨short, along'⟩ := (Fs.shortAlong_cons settles).mp along
      obtain ⟨depth, start⟩ := tree.lookupPath_settles i₀ target false valid short settles
      simp only [LooksUp, Namespace.resolves_cons settles components_ne_nil]
      cases found : s.fs.names.child u (firstName pathname) with
      | none =>
        have step := tree.lookupPath_none i₀ target here settles.2 no_nul short found 0
        exact ⟨_, ⟨1 + depth, (start 1).trans step⟩, rfl, .inr ⟨rfl, by simp⟩⟩
      | some v =>
        have valid' := tree.child_valid found
        have there := List.getElem?_eq_getElem valid'
        have dir_iff := Fs.isDir_iff there
        have step := tree.lookupPath_some i₀ target here settles.2 no_nul short found there
        simp only [if_neg last] at step
        by_cases dir : s.fs.names.isDir v
        · simp only [if_pos (dir_iff.mp dir)] at step
          -- the rest of the path is looked up from there
          have no_nul' := fun inside => no_nul (mem_of_mem_popFirstComponent inside)
          obtain ⟨result, ⟨fuel, returns⟩, looks⟩ :=
            ih _ (length ▸ shorter) (some v) valid' no_nul' (along' found dir) rfl
          refine ⟨result, ⟨fuel + 1 + depth, (start _).trans ((step fuel).trans returns)⟩, ?_⟩
          simpa [LooksUp, dir] using looks
        · simp only [if_neg (dir ∘ dir_iff.mpr)] at step
          exact ⟨_, ⟨1 + depth, (start 1).trans (step 0)⟩, rfl, .inr ⟨rfl, by simp [dir]⟩⟩

theorem lookupPath_long (i₀ : ℤ) (target : Option ℕ) (create : Bool)
    (long : ¬ (firstName pathname).length < tmpfsMaxComponentName) :
    Ends (fun fuel => lookupPath i₀ fuel pathname d target create s) (.error .outOfBounds) := by
  have overflows : firstComponent pathname = .error .outOfBounds := if_neg long
  refine ⟨by simp, 1, ?_⟩
  dsimp only
  rw [lookupPath, overflows, outcome_bind_error]

/-- A lookup that comes to a longer name writes behind `component_name`. -/
theorem Tree.lookupPath_overflows (i₀ : ℤ) (target : Option ℕ) (tree : Tree s.fs root)
    (valid : d < s.fs.nodes.length) (no_nul : 0 ∉ pathname)
    (long : ¬ s.fs.ShortAlong d (components pathname)) :
    Ends (fun fuel => lookupPath i₀ fuel pathname d target false s) (.error .outOfBounds) := by
  induction length : pathname.length using Nat.strong_induction_on
    generalizing pathname d target with
  | _ n ih =>
    by_cases short : (firstName pathname).length < tmpfsMaxComponentName
    · obtain ⟨u, settles⟩ := tree.exists_settles d
      have here := List.getElem?_eq_getElem (tree.settles_valid valid settles)
      have more : popFirstComponent pathname ≠ [] := by
        intro last
        rw [components_last last, Fs.shortAlong_singleton settles] at long
        exact long short
      rw [components_cons more, Fs.shortAlong_cons settles] at long
      push Not at long
      obtain ⟨v, found, dir, long'⟩ := long short
      have there := List.getElem?_eq_getElem (tree.child_valid found)
      obtain ⟨depth, start⟩ := tree.lookupPath_settles i₀ target false valid short settles
      have step := tree.lookupPath_some i₀ target here settles.2 no_nul short found there
      simp only [if_neg more, if_pos ((Fs.isDir_iff there).mp dir)] at step
      have no_nul' := fun inside => no_nul (mem_of_mem_popFirstComponent inside)
      obtain ⟨ended, fuel, ends⟩ := ih _ (length ▸ length_popFirstComponent_lt more) (some v)
        (tree.child_valid found) no_nul' long' rfl
      exact ⟨ended, fuel + 1 + depth, (start _).trans ((step fuel).trans ends)⟩
    · exact lookupPath_long i₀ target false short

/-- Which vnode `lookup_path` finds. -/
theorem Tree.lookupPath_iff (tree : Tree s.fs root) (valid : d < s.fs.nodes.length)
    (no_nul : 0 ∉ pathname) (short : ∀ k ∈ components pathname, k.length < tmpfsMaxComponentName) :
    Returns (fun fuel => lookupPath i₀ fuel pathname d target false s) (0, some v, s) ↔
      s.fs.names.Resolves d (components pathname) v := by
  obtain ⟨⟨result, found, s'⟩, returns, same, looks⟩ := tree.lookupPath_looksUp i₀
    target valid no_nul (Fs.shortAlong_of_all short)
  obtain rfl : s' = s := same
  constructor
  · intro finds
    have same := (lookupPath_mono ..).returns_unique returns finds
    rcases looks with ⟨w, -, here, resolves⟩ | ⟨failed, -⟩
    · simp only [Prod.mk.injEq] at same here
      obtain rfl := Option.some.inj (here.symm.trans same.2.1)
      exact resolves
    · have zero : result = 0 := congrArg Prod.fst same
      change result = -1 at failed
      omega
  · intro resolves
    rcases looks with ⟨w, rfl, here, resolves'⟩ | ⟨-, nothing⟩
    · obtain rfl := resolves.unique resolves'
      rw [← here]
      exact returns
    · exact absurd resolves (nothing v)

/-! ## `vfs_lookup` -/

theorem vfsLookup_stable (pathname : List UInt8) (target : Option ℕ) (s : State) :
    FuelStable fun fuel => vfsLookup fuel pathname target s := by
  cases rootfs : s.rootfs with
  | none =>
    simp only [vfsLookup, rootfs]
    exact fuelStable_const _
  | some root =>
    simp only [vfsLookup, rootfs]
    apply (fuelStable_const (strcmp (cstr pathname) (cstr [slash]))).bind
    intro order
    split_ifs
    · exact fuelStable_const _
    · exact lookupPath_stable 0 pathname root target false s

theorem vfsLookup_mono (pathname : List UInt8) (target : Option ℕ) (s : State) :
    FuelMonotone fun fuel => vfsLookup fuel pathname target s :=
  (vfsLookup_stable pathname target s).mono

/-- `vfs_lookup` of the path returns 0 and the vnode. -/
def State.Finds (s : State) (pathname : List UInt8) (v : ℕ) : Prop :=
  Returns (fun fuel => vfsLookup fuel pathname none s) (0, some v, s)

/-- The root is there, and the vnodes are a tree below it. -/
structure Rooted (s : State) (root : ℕ) : Prop where
  rootfs : s.rootfs = some root
  tree : Tree s.fs root
  idle : s.strtok.flag = false

theorem Rooted.vfsLookup_root (rooted : Rooted s root) :
    Returns (fun fuel => vfsLookup fuel [slash] target s) (0, some root, s) :=
  ⟨0, by simp only [vfsLookup, rooted.rootfs]; rfl⟩

/-- All paths but `/` are looked up from the root on. -/
theorem Rooted.vfsLookup_eq (rooted : Rooted s root) (not_root : pathname ≠ [slash])
    (no_nul : 0 ∉ pathname) (fuel : ℕ) :
    vfsLookup fuel pathname target s = lookupPath 0 fuel pathname root target false s := by
  obtain ⟨order, compared, same⟩ := strcmp_cstr no_nul (y := [slash]) (by decide) [] []
  rw [List.append_nil, List.append_nil] at compared
  simp only [vfsLookup, rooted.rootfs, compared, outcome_bind_ok]
  rw [if_neg (not_root ∘ same.mp)]

/-- **`vfs_lookup` resolves paths** from the root on. -/
theorem Rooted.vfsLookup_looksUp (target : Option ℕ) (rooted : Rooted s root)
    (not_root : pathname ≠ [slash]) (no_nul : 0 ∉ pathname)
    (along : s.fs.ShortAlong root (components pathname)) :
    ∃ result, Returns (fun fuel => vfsLookup fuel pathname target s) result ∧
      LooksUp s root (components pathname) result := by
  simp only [rooted.vfsLookup_eq not_root no_nul]
  exact rooted.tree.lookupPath_looksUp 0 target rooted.tree.root_valid no_nul along

theorem Rooted.vfsLookup_overflows (target : Option ℕ) (rooted : Rooted s root)
    (not_root : pathname ≠ [slash]) (no_nul : 0 ∉ pathname)
    (long : ¬ s.fs.ShortAlong root (components pathname)) :
    Ends (fun fuel => vfsLookup fuel pathname target s) (.error .outOfBounds) := by
  simp only [rooted.vfsLookup_eq not_root no_nul]
  exact rooted.tree.lookupPath_overflows 0 target rooted.tree.root_valid no_nul long

/-- Which vnode `vfs_lookup` finds. -/
theorem Rooted.finds_iff (rooted : Rooted s root) (not_root : pathname ≠ [slash])
    (no_nul : 0 ∉ pathname) (short : ∀ k ∈ components pathname, k.length < tmpfsMaxComponentName) :
    s.Finds pathname v ↔ s.fs.names.Resolves root (components pathname) v := by
  simp only [State.Finds, rooted.vfsLookup_eq not_root no_nul]
  exact rooted.tree.lookupPath_iff rooted.tree.root_valid no_nul short

end BareMetal.Vfs
