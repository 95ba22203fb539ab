import BareMetal.Vfs.Growth
import BareMetal.Vfs.Mkdir

/-!
# The start value of the create loop

The create branch of `lookup_path` declares its loop variable `i` without a value, so the loop
starts wherever the stack says. A negative value lets it read in front of `rest_comps`, one from
the number of pieces on lets it do nothing, and those between skip the names in front of them.
A call that overflows a buffer counts as one that does not return.

## Main results

* `startValue_irrelevant_iff` — below a root that is a directory the start value never goes
  without saying, and among those that are not negative only where the path fits and the root
  refuses every name
-/

namespace BareMetal.Vfs

open CS Strings

variable {fs fs' : Fs} {s s' : State} {root d u v : ℕ} {node : Vnode} {k pathname : List UInt8}
  {names : List (List UInt8)} {target target' : Option ℕ} {result i₀ i₁ : ℤ}

/-- With both start values the call returns, with the same result, the same `*target` and the same
vnodes. -/
def SameReturns (pathname : List UInt8) (d : ℕ) (target : Option ℕ) (s : State) (i₀ i₁ : ℤ) :
    Prop :=
  ∃ returned, Returns (fun fuel => lookupPath i₀ fuel pathname d target true s) returned ∧
    Returns (fun fuel => lookupPath i₁ fuel pathname d target true s) returned

/-- The directory takes no entry of this name, and has none: the function `mkdir` of its filesystem
makes nothing, or the directory is full. -/
def State.Refuses (s : State) (d : ℕ) (k : List UInt8) : Prop :=
  ∀ ⦃node⦄, s.fs.nodes[d]? = some node → ¬ node.vOps.Open s.mounted ∨
    s.fs.names.child d k = none ∧ tmpfsMaxEntry ≤ node.component.len

/-! ## Refusals -/

theorem mkdir_of_open {kind : FsKind} {mounted : Bool} (opens : kind.Open mounted) :
    kind.mkdir mounted d target k fs = tmpfsMkdir d target k fs := by
  rcases opens with rfl | ⟨rfl, rfl⟩
  · rfl
  · rfl

theorem mkdir_of_not_open {kind : FsKind} {mounted : Bool} (closed : ¬ kind.Open mounted) :
    kind.mkdir mounted d target k fs = .ok (1, target, fs) := by
  cases kind with
  | tmpfs => exact absurd (.inl rfl) closed
  | initramfs => exact if_pos (Bool.of_not_eq_false fun free => closed (.inr ⟨rfl, free⟩))
  | devfs => rfl

/-- In a regular file nothing is made. -/
theorem mkdir_of_file {mounted : Bool} (here : fs.nodes[d]? = some node)
    (other : node.component.type ≠ .dir) :
    ∃ result, node.vOps.mkdir mounted d target k fs = .ok (result, target, fs) ∧ result ≠ 0 := by
  by_cases opens : node.vOps.Open mounted
  · rw [mkdir_of_open opens, tmpfsMkdir_file here other]
    exact ⟨-1, rfl, by decide⟩
  · rw [mkdir_of_not_open opens]
    exact ⟨1, rfl, by decide⟩

/-- A refused name changes nothing. -/
theorem Tree.mkdir_refused (tree : Tree s.fs root) (here : s.fs.nodes[d]? = some node)
    (dir : node.component.type = .dir) (no_nul : 0 ∉ k) (refuses : s.Refuses d k) :
    ∃ result, node.vOps.mkdir s.mounted d target k s.fs = .ok (result, target, s.fs) ∧
      result ≠ 0 := by
  by_cases opens : node.vOps.Open s.mounted
  · rcases refuses here with closed | ⟨missing, full⟩
    · exact absurd opens closed
    · rw [mkdir_of_open opens, tree.tmpfsMkdir_full here dir no_nul missing full]
      exact ⟨-1, rfl, by decide⟩
  · rw [mkdir_of_not_open opens]
    exact ⟨1, rfl, by decide⟩

/-- Every other name is found or made, when the call returns. -/
theorem Tree.refuses_of_mkdir (tree : Tree s.fs root) (here : s.fs.nodes[d]? = some node)
    (dir : node.component.type = .dir) (no_nul : 0 ∉ k)
    (returns : node.vOps.mkdir s.mounted d target k s.fs = .ok (result, target', fs'))
    (failed : result ≠ 0) : s.Refuses d k := by
  intro node' here'
  obtain rfl := Option.some.inj (here.symm.trans here')
  by_cases opens : node.vOps.Open s.mounted
  · rw [mkdir_of_open opens] at returns
    cases found : s.fs.names.child d k with
    | some v =>
      rw [tree.tmpfsMkdir_found here dir no_nul found] at returns
      cases returns
      exact absurd rfl failed
    | none =>
      refine .inr ⟨rfl, ?_⟩
      by_contra! room
      by_cases short : k.length < nameLen
      · rw [tree.tmpfsMkdir_new here dir no_nul found room short] at returns
        cases returns
        exact failed rfl
      · rw [tree.tmpfsMkdir_long here dir no_nul found room (Nat.not_lt.mp short)] at returns
        contradiction
  · exact .inl opens

/-! ## The loop -/

/-- The loop changes nothing where the function `mkdir` fails for every name. -/
theorem createLoop_fails (here : s.fs.nodes[d]? = some node)
    (fails : ∀ k ∈ names, k ≠ [] → ∃ result,
      node.vOps.mkdir s.mounted d target k s.fs = .ok (result, target, s.fs) ∧ result ≠ 0) :
    createLoop names d target s = .ok (0, target, s) := by
  induction names with
  | nil => rfl
  | cons k names ih =>
    rw [List.forall_mem_cons] at fails
    rw [createLoop]
    by_cases empty : k = []
    · rw [if_pos empty]
      exact ih fails.2
    · obtain ⟨result, mkdir, failed⟩ := fails.1 empty
      rw [if_neg empty, Fs.node_eq_ok.mpr here, outcome_bind_ok, mkdir, outcome_bind_ok]
      simp only [if_neg failed]
      exact ih fails.2

/-- Names that the directory refuses are as good as none. -/
theorem Tree.createLoop_refused (tree : Tree s.fs root) (dir : s.fs.names.isDir d)
    (valid : d < s.fs.nodes.length) (no_nul : ∀ k ∈ names, 0 ∉ k)
    (refuses : ∀ k ∈ names, k ≠ [] → s.Refuses d k) :
    createLoop names d target s = .ok (0, target, s) := by
  have here := List.getElem?_eq_getElem valid
  exact createLoop_fails here fun k inside nonempty => tree.mkdir_refused here
    ((Fs.isDir_iff here).mp dir) (no_nul k inside) (refuses k inside nonempty)

/-- `*target` is a vnode. -/
def State.Points (s : State) (target : Option ℕ) : Prop :=
  ∃ v, target = some v ∧ v < s.fs.nodes.length

/-- Once `*target` is a vnode, there is one at the end. -/
theorem Tree.createLoop_points (tree : Tree s.fs root) (clean : ∀ k ∈ names, 0 ∉ k ∧ slash ∉ k)
    (points : s.Points target) (returns : createLoop names d target s = .ok (result, target', s')) :
    s'.Points target' := by
  induction names generalizing d target s with
  | nil =>
    cases returns
    exact points
  | cons k names ih =>
    obtain ⟨⟨no_nul, no_slash⟩, clean'⟩ := List.forall_mem_cons.mp clean
    rw [createLoop] at returns
    by_cases empty : k = []
    · rw [if_pos empty] at returns
      exact ih tree clean' points returns
    rw [if_neg empty] at returns
    obtain ⟨dir, -, returns⟩ := outcome_bind_eq_ok.mp returns
    obtain ⟨⟨made, target₁, fs₁⟩, mkdir, returns⟩ := outcome_bind_eq_ok.mp returns
    dsimp only at returns
    rcases tree.mkdir_cases no_nul empty no_slash mkdir with
      ⟨rfl, -, v, ⟨rfl, found, rfl⟩ | ⟨rfl, -, adds⟩⟩ | ⟨failed, rfl, rfl⟩
    · exact ih tree clean' ⟨v, rfl, tree.child_valid found⟩ returns
    · exact ih (s := { s with fs := fs₁ }) ((adds.addsDir (Nat.zero_le d)).tree tree) clean'
        ⟨_, rfl, adds.length_lt⟩ returns
    · rw [if_neg failed] at returns
      exact ih tree clean' points returns

/-- From NULL on, there is one at the end exactly if the directory does not refuse every name. -/
theorem Tree.createLoop_points_iff (tree : Tree s.fs root) (here : s.fs.nodes[d]? = some node)
    (dir : node.component.type = .dir) (clean : ∀ k ∈ names, 0 ∉ k ∧ slash ∉ k)
    (returns : createLoop names d none s = .ok (result, target', s')) :
    s'.Points target' ↔ ∃ k ∈ names, k ≠ [] ∧ ¬ s.Refuses d k := by
  induction names with
  | nil =>
    cases returns
    simp [State.Points]
  | cons k names ih =>
    obtain ⟨⟨no_nul, no_slash⟩, clean'⟩ := List.forall_mem_cons.mp clean
    simp only [List.mem_cons, exists_eq_or_imp]
    rw [createLoop] at returns
    by_cases empty : k = []
    · rw [if_pos empty] at returns
      rw [ih clean' returns]
      simp [empty]
    rw [if_neg empty, Fs.node_eq_ok.mpr here, outcome_bind_ok] at returns
    by_cases refuses : s.Refuses d k
    · -- nothing is stored, and the loop goes on in the same directory
      obtain ⟨made, mkdir, failed⟩ : ∃ made,
          node.vOps.mkdir s.mounted d none k s.fs = .ok (made, none, s.fs) ∧ made ≠ 0 :=
        tree.mkdir_refused here dir no_nul refuses
      rw [mkdir, outcome_bind_ok] at returns
      simp only [if_neg failed] at returns
      rw [ih clean' returns]
      simp [refuses]
    · refine iff_of_true ?_ (.inl ⟨empty, refuses⟩)
      obtain ⟨⟨made, target₁, fs₁⟩, mkdir, returns⟩ := outcome_bind_eq_ok.mp returns
      dsimp only at returns
      rcases tree.mkdir_cases no_nul empty no_slash mkdir with
        ⟨rfl, -, v, ⟨rfl, found, rfl⟩ | ⟨rfl, -, adds⟩⟩ | ⟨failed, -, -⟩
      · exact tree.createLoop_points clean' ⟨v, rfl, tree.child_valid found⟩ returns
      · exact Tree.createLoop_points (s := { s with fs := fs₁ })
          ((adds.addsDir (Nat.zero_le d)).tree tree) clean' ⟨_, rfl, adds.length_lt⟩ returns
      · exact absurd (tree.refuses_of_mkdir here dir no_nul mkdir failed) refuses

/-! ## Calls from the root -/

/-- A first component that does not fit overflows `component_name`. -/
theorem not_returns_of_long_name (i₀ : ℤ)
    (long : ¬ (firstName pathname).length < tmpfsMaxComponentName) {create : Bool}
    (returned : ℤ × Option ℕ × State) :
    ¬ Returns (fun fuel => lookupPath i₀ fuel pathname d target create s) returned := by
  rintro ⟨fuel, returns⟩
  have overflows : firstComponent pathname = .error .outOfBounds := if_neg long
  cases fuel with
  | zero => contradiction
  | succ fuel =>
    change lookupPath i₀ (fuel + 1) pathname d target create s = .ok returned at returns
    rw [lookupPath, overflows] at returns
    contradiction

/-- Below a root that is no directory nothing is made. -/
theorem Rooted.create_no_dir (rooted : Rooted s root) (settles : s.fs.names.Settles root u)
    (no_dir : ¬ s.fs.names.isDir u) (i₀ : ℤ) (target : Option ℕ)
    (short : (firstName pathname).length < tmpfsMaxComponentName) :
    Returns (fun fuel => lookupPath i₀ fuel pathname root target true s) (-1, target, s) := by
  obtain ⟨depth, start⟩ :=
    rooted.tree.lookupPath_settles i₀ target true rooted.tree.root_valid short settles
  refine ⟨0 + 1 + depth, ?_⟩
  obtain ⟨node, here⟩ : ∃ node, s.fs.nodes[u]? = some node :=
    ⟨_, List.getElem?_eq_getElem (rooted.tree.settles_valid rooted.tree.root_valid settles)⟩
  dsimp only
  rw [start, lookupPath, firstComponent_eq short, outcome_bind_ok, Fs.node_eq_ok.mpr here,
    outcome_bind_ok, (Fs.cover_eq here).symm.trans settles.2]
  exact if_pos (no_dir ∘ (Fs.isDir_iff here).mpr)

section Calls

variable (rooted : Rooted s root) (settles : s.fs.names.Settles root u) (dir : s.fs.names.isDir u)
include rooted settles dir

/-- Calls of `lookup_path` that are not too long return what the create branch does. -/
theorem returns_iff_createPath (i₀ : ℤ) (target : Option ℕ)
    (short : (firstName pathname).length < tmpfsMaxComponentName)
    (returned : ℤ × Option ℕ × State) :
    Returns (fun fuel => lookupPath i₀ fuel pathname root target true s) returned ↔
      createPath i₀ pathname u target s = .ok returned := by
  obtain ⟨depth, call⟩ :=
    rooted.tree.lookupPath_start i₀ target rooted.tree.root_valid short settles dir
  constructor
  · rintro ⟨fuel, returns⟩
    have enough : fuel ≤ fuel + 1 + depth := Nat.le_trans (Nat.le_succ fuel) (Nat.le_add_right _ _)
    exact (call fuel).symm.trans
      ((lookupPath_mono i₀ pathname root target true s).of_le enough returns)
  · intro returns
    exact ⟨0 + 1 + depth, (call 0).trans returns⟩

/-- Calls that reach the loop return what the loop returns. -/
theorem returns_iff_createLoop (i₀ : ℤ) (target : Option ℕ) (fits : Fits pathname)
    (returned : ℤ × Option ℕ × State) :
    Returns (fun fuel => lookupPath i₀ fuel pathname root target true s) returned ↔
      0 ≤ i₀ ∧ createLoop ((pathname.splitOn slash).drop i₀.toNat) u target
        { s with strtok := .idle } = .ok returned := by
  rw [returns_iff_createPath rooted settles dir i₀ target fits.first,
    createPath_start i₀ rooted.idle fits]
  by_cases negative : i₀ < 0
  · rw [if_pos negative]
    simp [negative]
  · rw [if_neg negative, and_iff_right (not_lt.mp negative)]

/-- Calls with a path that does not fit do not return. -/
theorem not_returns_of_long (i₀ : ℤ) (target : Option ℕ) (long : ¬ Fits pathname)
    (returned : ℤ × Option ℕ × State) :
    ¬ Returns (fun fuel => lookupPath i₀ fuel pathname root target true s) returned := by
  by_cases short : (firstName pathname).length < tmpfsMaxComponentName
  · rw [returns_iff_createPath rooted settles dir i₀ target short, createPath]
    by_cases room : pathname.length < tmpfsMaxPathLen
    · have full : vfsMaxDepth - 1 < (pathname.splitOn slash).length := by
        by_contra! few
        exact long ⟨short, room, Nat.lt_of_le_of_lt few (by decide)⟩
      rw [if_neg (Nat.not_le.mpr room), spiltStrings_full rooted.idle full]
      simp
    · rw [if_pos (Nat.not_lt.mp room)]
      simp
  · exact not_returns_of_long_name i₀ short returned

/-- From the number of pieces on the loop does nothing. -/
theorem returns_nothing (target : Option ℕ) (fits : Fits pathname) :
    Returns
      (fun fuel => lookupPath (pathname.splitOn slash).length fuel pathname root target true s)
      (0, target, { s with strtok := .idle }) := by
  rw [returns_iff_createLoop rooted settles dir _ target fits, Int.toNat_natCast, List.drop_length]
  exact ⟨Int.natCast_nonneg _, rfl⟩

/-- Both calls return only if the path fits. -/
theorem fits_of_sameReturns {target : Option ℕ} (same : SameReturns pathname root target s i₀ i₁) :
    Fits pathname := by
  obtain ⟨returned, returns, -⟩ := same
  by_contra long
  exact not_returns_of_long rooted settles dir i₀ target long returned returns

/-- A negative start value reads in front of the array. -/
theorem not_sameReturns_negative (target : Option ℕ) (i₀ : ℤ) :
    ¬ SameReturns pathname root target s i₀ (-1) := by
  intro same
  have fits := fits_of_sameReturns rooted settles dir same
  obtain ⟨returned, -, negative⟩ := same
  rw [returns_iff_createLoop rooted settles dir _ target fits] at negative
  exact absurd negative.1 (by decide)

/-- Names that the root refuses may be skipped. -/
theorem sameReturns_of_refused (no_nul : 0 ∉ pathname) (target : Option ℕ) (fits : Fits pathname)
    (refuses : ∀ k ∈ splitNames pathname, s.Refuses u k) (positive : 0 ≤ i₀) (positive' : 0 ≤ i₁) :
    SameReturns pathname root target s i₀ i₁ := by
  have valid := rooted.tree.settles_valid rooted.tree.root_valid settles
  have loop (start : ℕ) : createLoop ((pathname.splitOn slash).drop start) u target
      { s with strtok := .idle } = .ok (0, target, { s with strtok := .idle }) := by
    apply Tree.createLoop_refused (s := { s with strtok := .idle }) rooted.tree dir valid
    · exact fun k inside => not_nul_mem_splitOn no_nul k (List.mem_of_mem_drop inside)
    · exact fun k inside nonempty =>
        refuses k (List.mem_filter.mpr ⟨List.mem_of_mem_drop inside, decide_eq_true nonempty⟩)
  refine ⟨(0, target, { s with strtok := .idle }), ?_, ?_⟩
  · exact (returns_iff_createLoop rooted settles dir i₀ target fits _).mpr ⟨positive, loop _⟩
  · exact (returns_iff_createLoop rooted settles dir i₁ target fits _).mpr ⟨positive', loop _⟩

/-- A name that may be skipped is refused by the root. -/
theorem refused_of_sameReturns (no_nul : 0 ∉ pathname) (fits : Fits pathname)
    (same : ∀ i₀ i₁, 0 ≤ i₀ → 0 ≤ i₁ → SameReturns pathname root none s i₀ i₁)
    (inside : k ∈ splitNames pathname) : s.Refuses u k := by
  have valid := rooted.tree.settles_valid rooted.tree.root_valid settles
  have here := List.getElem?_eq_getElem valid
  obtain ⟨piece, nonempty⟩ := List.mem_filter.mp inside
  obtain ⟨before, behind, cut⟩ := List.append_of_mem piece
  -- a call that starts at the name stores nothing in `*target`, as the one that does nothing
  obtain ⟨returned, skips, starts⟩ := same (pathname.splitOn slash).length before.length
    (Int.natCast_nonneg _) (Int.natCast_nonneg _)
  obtain rfl := (lookupPath_mono ..).returns_unique skips
    (returns_nothing rooted settles dir none fits)
  rw [returns_iff_createLoop rooted settles dir _ none fits, Int.toNat_natCast, cut,
    List.drop_left] at starts
  have clean : ∀ k' ∈ k :: behind, 0 ∉ k' ∧ slash ∉ k' := by
    intro k' inside'
    have piece' : k' ∈ pathname.splitOn slash := cut ▸ List.mem_append_right before inside'
    exact ⟨not_nul_mem_splitOn no_nul k' piece', not_mem_pieces slash pathname k' piece'⟩
  by_contra accepts
  obtain ⟨v, same, -⟩ := (Tree.createLoop_points_iff (s := { s with strtok := .idle }) rooted.tree
    here ((Fs.isDir_iff here).mp dir) clean starts.2).mpr
      ⟨k, List.mem_cons_self, of_decide_eq_true nonempty, accepts⟩
  cases same

end Calls

/-- **The start value matters** for every path below a root that is a directory, since it may be
negative. Among the values that are not, it does not matter exactly if the path fits and the root
refuses every name. -/
theorem startValue_irrelevant_iff (rooted : Rooted s root) (settles : s.fs.names.Settles root u)
    (no_nul : 0 ∉ pathname) :
    ((∀ i₀ i₁, SameReturns pathname root target s i₀ i₁) ↔
        (firstName pathname).length < tmpfsMaxComponentName ∧ ¬ s.fs.names.isDir u) ∧
      ((∀ i₀ i₁, 0 ≤ i₀ → 0 ≤ i₁ → SameReturns pathname root none s i₀ i₁) ↔
        (firstName pathname).length < tmpfsMaxComponentName ∧
          (¬ s.fs.names.isDir u ∨ Fits pathname ∧ ∀ k ∈ splitNames pathname, s.Refuses u k)) := by
  by_cases dir : s.fs.names.isDir u
  · simp only [dir, not_true_eq_false, and_false, iff_false, false_or]
    refine ⟨fun same => ?_, fun same => ?_, ?_⟩
    · exact not_sameReturns_negative rooted settles dir target 0 (same 0 (-1))
    · have fits := fits_of_sameReturns rooted settles dir (same 0 0 le_rfl le_rfl)
      exact ⟨fits.first, fits, fun k inside =>
        refused_of_sameReturns rooted settles dir no_nul fits same inside⟩
    · rintro ⟨-, fits, refuses⟩ i₀ i₁
      exact sameReturns_of_refused rooted settles dir no_nul none fits refuses
  · simp only [dir, not_false_eq_true, and_true, true_or]
    -- the calls return -1 in front of the loop
    have short_iff (target : Option ℕ) (i₀ i₁ : ℤ) : SameReturns pathname root target s i₀ i₁ ↔
        (firstName pathname).length < tmpfsMaxComponentName := by
      refine ⟨fun ⟨returned, returns, _⟩ => ?_, fun short => ?_⟩
      · by_contra long
        exact not_returns_of_long_name i₀ long returned returns
      · exact ⟨(-1, target, s), rooted.create_no_dir settles dir i₀ target short,
          rooted.create_no_dir settles dir i₁ target short⟩
    refine ⟨⟨fun same => ?_, fun short i₀ i₁ => (short_iff target i₀ i₁).mpr short⟩,
      fun same => ?_, fun short i₀ i₁ _ _ => (short_iff none i₀ i₁).mpr short⟩
    · exact (short_iff target 0 0).mp (same 0 0)
    · exact (short_iff none 0 0).mp (same 0 0 le_rfl le_rfl)

/-- The empty root and `/a`. -/
theorem startValue_irrelevant_iff_fresh :
    ((∀ i₀ i₁, SameReturns [47, 97] 0 none freshRoot i₀ i₁) ↔
        (firstName [47, 97]).length < tmpfsMaxComponentName ∧ ¬ freshRoot.fs.names.isDir 0) ∧
      ((∀ i₀ i₁, 0 ≤ i₀ → 0 ≤ i₁ → SameReturns [47, 97] 0 none freshRoot i₀ i₁) ↔
        (firstName [47, 97]).length < tmpfsMaxComponentName ∧ (¬ freshRoot.fs.names.isDir 0 ∨
          Fits [47, 97] ∧ ∀ k ∈ splitNames [47, 97], freshRoot.Refuses 0 k)) :=
  startValue_irrelevant_iff freshRoot_plain.rooted
    ((Namespace.settles_iff_of_free (freshRoot_cover 0)).mpr rfl) (by decide)

/-- With 2 in `i`, the call for `/a` makes nothing. -/
theorem startTwo_differs : ¬ SameReturns [47, 97] 0 none freshRoot 0 2 := by
  rintro ⟨returned, zero, two⟩
  have skips : Returns (fun fuel => lookupPath 2 fuel [47, 97] 0 none true freshRoot)
      (0, none, freshRoot) := ⟨1, rfl⟩
  have makes : Returns (fun fuel => lookupPath 0 fuel [47, 97] 0 none true freshRoot)
      (0, some 1, { freshRoot with fs := freshRoot.fs.addDir 0 tmpfsRoot [97] }) := ⟨1, rfl⟩
  have equal := ((lookupPath_mono ..).returns_unique makes zero).trans
    ((lookupPath_mono ..).returns_unique two skips)
  exact Option.some_ne_none 1 (congrArg (fun returned => returned.2.1) equal)

end BareMetal.Vfs
