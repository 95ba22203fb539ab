import BareMetal.Vfs.Create

/-!
# Two ways to cut a path

`lookup_path` with `create = 0` takes the names off the path one by one with `first_component` and
`pop_first_component`; its create branch takes them from `spilt_strings` and skips blank ones.
The first way drops one slash in front of a name and one behind it, so between two names it
puts up with two.

## Main results

* `lookupNames_eq_createNames_iff` — when both ways give the same names
-/

namespace BareMetal.Vfs

open CS Strings

variable {pathname k rest w : List UInt8} {st : Strtok} {c : UInt8}

/-! ## Names -/

/-- The names that `lookup_path` asks for with `create = 0`, while each of them is found. -/
def lookupNames (pathname : List UInt8) : Outcome (List (List UInt8)) := do
  let componentName ← firstComponent pathname
  if _more : popFirstComponent pathname = [] then return [componentName]
  else do
    let names ← lookupNames (popFirstComponent pathname)
    return componentName :: names
termination_by pathname.length
decreasing_by exact length_popFirstComponent_lt _more

/-- The names that the create branch of `lookup_path` gives to `mkdir`. -/
def createNames (pathname : List UInt8) (st : Strtok) : Outcome (List (List UInt8)) :=
  if pathname.length ≥ tmpfsMaxPathLen then .error .outOfBounds
  else do
    let (restComps, _) ← spiltStrings (vfsMaxDepth - 1) pathname [slash] st
    return restComps.filter (· ≠ [])

/-- No name is too long for `component_name`. -/
def ShortNames (pathname : List UInt8) : Prop :=
  ∀ k ∈ components pathname, k.length < tmpfsMaxComponentName

instance (pathname : List UInt8) : Decidable (ShortNames pathname) :=
  inferInstanceAs (Decidable (∀ k ∈ _, _))

theorem shortNames_cons (more : popFirstComponent pathname ≠ []) : ShortNames pathname ↔
    (firstName pathname).length < tmpfsMaxComponentName ∧
      ShortNames (popFirstComponent pathname) := by
  simp only [ShortNames, components_cons more, List.forall_mem_cons]

/-- The names are the components, if each fits. -/
theorem lookupNames_eq (pathname : List UInt8) : lookupNames pathname =
    if ShortNames pathname then .ok (components pathname) else .error .outOfBounds := by
  induction length : pathname.length using Nat.strong_induction_on generalizing pathname with
  | _ n ih =>
    rw [lookupNames]
    by_cases short : (firstName pathname).length < tmpfsMaxComponentName
    · rw [firstComponent_eq short, outcome_bind_ok]
      by_cases last : popFirstComponent pathname = []
      · have all : ShortNames pathname := by
          intro k inside
          rw [components_last last, List.mem_singleton] at inside
          rwa [inside]
        rw [dif_pos last, if_pos all, components_last last]
        rfl
      · rw [dif_neg last, ih _ (length ▸ length_popFirstComponent_lt last) _ rfl,
          components_cons last]
        by_cases fits : ShortNames (popFirstComponent pathname)
        · rw [if_pos fits, if_pos ((shortNames_cons last).mpr ⟨short, fits⟩)]
          rfl
        · rw [if_neg fits, if_neg fun all => fits ((shortNames_cons last).mp all).2]
          rfl
    · have long : ¬ ShortNames pathname := fun all =>
        short (all _ (firstName_mem_components pathname))
      have overflows : firstComponent pathname = .error .outOfBounds := if_neg short
      rw [overflows, outcome_bind_error, if_neg long]

theorem createNames_eq (ready : st.flag = false) : createNames pathname st =
    if pathname.length < tmpfsMaxPathLen ∧ (pathname.splitOn slash).length < vfsMaxDepth then
      .ok (splitNames pathname)
    else .error .outOfBounds := by
  by_cases long : pathname.length ≥ tmpfsMaxPathLen
  · rw [createNames, if_pos long, if_neg fun fits => (Nat.not_lt.mpr long) fits.1]
  · rw [createNames, if_neg long]
    by_cases fits : (pathname.splitOn slash).length < vfsMaxDepth
    · rw [spiltStrings_eq ready (Nat.le_sub_one_of_lt fits), if_pos ⟨not_le.mp long, fits⟩]
      rfl
    · have full : vfsMaxDepth - 1 < (pathname.splitOn slash).length :=
        Nat.lt_of_lt_of_le (by decide) (not_lt.mp fits)
      rw [spiltStrings_full ready full, if_neg fun both => fits both.2]
      rfl

/-! ## Slashes in a row -/

theorem infix_cons_of_ne (other : c ≠ slash) :
    slash :: w <:+: c :: rest ↔ slash :: w <:+: rest := by
  rw [List.infix_cons_iff, List.cons_prefix_cons]
  simp [other.symm]

theorem suffix_cons_of_ne (other : c ≠ slash) : slash :: w <:+ c :: rest ↔ slash :: w <:+ rest := by
  rw [List.suffix_cons_iff, List.cons.injEq]
  simp [other.symm]

/-- Slashes in a row are not in a name in front of them. -/
theorem infix_append_iff (no_slash : slash ∉ k) :
    slash :: w <:+: k ++ rest ↔ slash :: w <:+: rest := by
  induction k with
  | nil => rw [List.nil_append]
  | cons c k ih =>
    rw [List.mem_cons, not_or] at no_slash
    rw [List.cons_append, infix_cons_of_ne (Ne.symm no_slash.1), ih no_slash.2]

theorem suffix_append_iff (no_slash : slash ∉ k) :
    slash :: w <:+ k ++ rest ↔ slash :: w <:+ rest := by
  induction k with
  | nil => rw [List.nil_append]
  | cons c k ih =>
    rw [List.mem_cons, not_or] at no_slash
    rw [List.cons_append, suffix_cons_of_ne (Ne.symm no_slash.1), ih no_slash.2]

/-- What a path has to be like for both ways to give the same names: it does not start or end
with two slashes, and has no three in a row. -/
structure FewSlashes (pathname : List UInt8) : Prop where
  start : ¬ [slash, slash] <+: pathname
  between : ¬ [slash, slash, slash] <:+: pathname
  close : ¬ [slash, slash] <:+ pathname

/-- A leading slash in front of a name does not matter. -/
theorem fewSlashes_cons (other : c ≠ slash) (rest : List UInt8) :
    FewSlashes (slash :: c :: rest) ↔ FewSlashes (c :: rest) := by
  constructor
  · rintro ⟨-, between, close⟩
    refine ⟨?_, fun inside => between (inside.trans (List.suffix_cons slash _).isInfix),
      fun inside => close (inside.trans (List.suffix_cons slash _))⟩
    simp [List.cons_prefix_cons, other.symm]
  · rintro ⟨-, between, close⟩
    refine ⟨by simp [List.cons_prefix_cons, other.symm], ?_, ?_⟩
    · rw [List.infix_cons_iff, not_or]
      exact ⟨by simp [List.cons_prefix_cons, other.symm], between⟩
    · rw [List.suffix_cons_iff, not_or]
      exact ⟨by simp [other.symm], close⟩

/-- A name and the slash behind it leave a path that has to be as good. -/
theorem fewSlashes_append (nonempty : k ≠ []) (no_slash : slash ∉ k) :
    FewSlashes (k ++ slash :: rest) ↔ rest ≠ [slash] ∧ FewSlashes rest := by
  have first : ¬ [slash, slash] <+: k ++ slash :: rest := by
    cases k with
    | nil => exact absurd rfl nonempty
    | cons c k =>
      rw [List.cons_append, List.cons_prefix_cons]
      exact fun both => no_slash (both.1 ▸ List.mem_cons_self)
  constructor
  · rintro ⟨-, between, close⟩
    rw [infix_append_iff no_slash, List.infix_cons_iff, not_or, List.cons_prefix_cons] at between
    rw [suffix_append_iff no_slash, List.suffix_cons_iff, not_or, List.cons.injEq] at close
    exact ⟨fun same => close.1 ⟨rfl, same.symm⟩, fun inside => between.1 ⟨rfl, inside⟩, between.2,
      close.2⟩
  · rintro ⟨other, start, between, close⟩
    refine ⟨first, ?_, ?_⟩
    · rw [infix_append_iff no_slash, List.infix_cons_iff, not_or, List.cons_prefix_cons]
      exact ⟨fun both => start both.2, between⟩
    · rw [suffix_append_iff no_slash, List.suffix_cons_iff, not_or, List.cons.injEq]
      exact ⟨fun both => other both.2.symm, close⟩

/-- A single name. -/
theorem fewSlashes_name (no_slash : slash ∉ k) : FewSlashes k where
  start inside := no_slash (inside.subset List.mem_cons_self)
  between inside := no_slash (inside.subset List.mem_cons_self)
  close inside := no_slash (inside.subset List.mem_cons_self)

theorem skipSlash_cases (pathname : List UInt8) :
    skipSlash pathname = pathname ∧ ¬ [slash] <+: pathname ∨
      pathname = slash :: skipSlash pathname := by
  cases pathname with
  | nil => exact .inl ⟨rfl, by simp⟩
  | cons c rest =>
    by_cases leading : c = slash
    · rw [skipSlash, if_pos leading, leading]
      exact .inr rfl
    · rw [skipSlash, if_neg leading, List.cons_prefix_cons]
      exact .inl ⟨rfl, fun both => leading both.1.symm⟩

/-- Without a first name there are two slashes at the front. -/
theorem not_fewSlashes (some_byte : skipSlash pathname ≠ []) (nothing : firstName pathname = []) :
    ¬ FewSlashes pathname := by
  intro few
  rcases skipSlash_parts pathname with ⟨-, parts⟩ | parts
  · exact some_byte (parts.trans nothing)
  · rw [nothing, List.nil_append] at parts
    rcases skipSlash_cases pathname with ⟨same, other⟩ | leading
    · rw [same] at parts
      refine other (parts ▸ ?_)
      simp
    · rw [parts] at leading
      refine few.start (leading ▸ ?_)
      simp

theorem fewSlashes_skipSlash (name : firstName pathname ≠ []) :
    FewSlashes pathname ↔ FewSlashes (skipSlash pathname) := by
  rcases skipSlash_cases pathname with ⟨same, -⟩ | leading
  · rw [same]
  · obtain ⟨c, k, first⟩ := List.exists_cons_of_ne_nil name
    have other : c ≠ slash := by
      have inside : c ∈ firstName pathname := first ▸ List.mem_cons_self
      simpa using List.mem_takeWhile_imp inside
    have front : ∃ rest, skipSlash pathname = c :: rest := by
      rcases skipSlash_parts pathname with ⟨-, parts⟩ | parts
      · exact ⟨k, parts.trans first⟩
      · exact ⟨_, by rw [parts, first, List.cons_append]⟩
    obtain ⟨rest, front⟩ := front
    rw [front] at leading ⊢
    rw [leading, fewSlashes_cons other]

/-- No component is empty exactly if there are few slashes in a row. -/
theorem components_nonempty_iff (some_byte : skipSlash pathname ≠ []) :
    (∀ k ∈ components pathname, k ≠ []) ↔ FewSlashes pathname := by
  induction length : pathname.length using Nat.strong_induction_on generalizing pathname with
  | _ n ih =>
    by_cases nothing : firstName pathname = []
    · refine iff_of_false (fun all => ?_) (not_fewSlashes some_byte nothing)
      exact all _ (firstName_mem_components pathname) nothing
    · have no_slash : slash ∉ firstName pathname := fun inside => by
        simpa using List.mem_takeWhile_imp inside
      rw [fewSlashes_skipSlash nothing]
      rcases skipSlash_parts pathname with ⟨last, parts⟩ | parts
      · rw [components_last last, List.forall_mem_singleton, parts]
        exact iff_of_true nothing (fewSlashes_name no_slash)
      · rw [parts, fewSlashes_append nothing no_slash]
        by_cases last : popFirstComponent pathname = []
        · rw [components_last last, List.forall_mem_singleton, last]
          exact iff_of_true nothing ⟨by simp, fewSlashes_name List.not_mem_nil⟩
        · rw [components_cons last, List.forall_mem_cons, and_iff_right nothing]
          -- a single slash is left of two at the end
          by_cases single : popFirstComponent pathname = [slash]
          · refine iff_of_false (fun all => ?_) fun both => both.1 single
            exact all _ (firstName_mem_components _) (by rw [single]; rfl)
          · have some_byte' : skipSlash (popFirstComponent pathname) ≠ [] := by
              intro empty
              rcases skipSlash_cases (popFirstComponent pathname) with ⟨same, -⟩ | leading
              · exact last (same.symm.trans empty)
              · exact single (leading.trans (congrArg _ empty))
            rw [ih _ (length ▸ length_popFirstComponent_lt last) some_byte' rfl]
            exact (and_iff_right single).symm

/-! ## Both ways -/

/-- **Lookup and creation cut a path into the same names** exactly if both have room for the path
and it has few slashes in a row. -/
theorem lookupNames_eq_createNames_iff (some_name : ∃ k ∈ pathname.splitOn slash, k ≠ [])
    (ready : st.flag = false) :
    (∃ names, lookupNames pathname = .ok names ∧ createNames pathname st = .ok names) ↔
      (ShortNames pathname ∧ pathname.length < tmpfsMaxPathLen ∧
        (pathname.splitOn slash).length < vfsMaxDepth) ∧ FewSlashes pathname := by
  obtain ⟨k, piece, nonempty⟩ := some_name
  have some_byte : skipSlash pathname ≠ [] := by
    intro empty
    have names : k ∈ splitNames pathname := List.mem_filter.mpr ⟨piece, decide_eq_true nonempty⟩
    rw [splitNames_eq_components, components_last, List.mem_filter] at names
    · have first := List.mem_singleton.mp names.1
      rw [firstName, empty, List.takeWhile_nil] at first
      exact nonempty first
    · rw [popFirstComponent, empty]
      rfl
  rw [lookupNames_eq, createNames_eq ready, ← components_nonempty_iff some_byte]
  by_cases fits : ShortNames pathname ∧ pathname.length < tmpfsMaxPathLen ∧
      (pathname.splitOn slash).length < vfsMaxDepth
  · rw [if_pos fits.1, if_pos fits.2, and_iff_right fits, splitNames_eq_components]
    have kept : (components pathname).filter (· ≠ []) = components pathname ↔
        ∀ k ∈ components pathname, k ≠ [] := by
      rw [List.filter_eq_self]
      simp
    rw [← kept]
    constructor
    · rintro ⟨names, asks, makes⟩
      exact Except.ok.inj (makes.trans asks.symm)
    · intro same
      exact ⟨_, rfl, congrArg _ same⟩
  · refine iff_of_false ?_ fun both => fits both.1
    rintro ⟨names, asks, makes⟩
    split_ifs at asks makes with short room
    exact fits ⟨short, room⟩

/-- `a//b/`: two slashes between names are one for both. -/
theorem lookupNames_eq_createNames_iff_double :
    (∃ names, lookupNames [97, 47, 47, 98, 47] = .ok names ∧
        createNames [97, 47, 47, 98, 47] .idle = .ok names) ↔
      (ShortNames [97, 47, 47, 98, 47] ∧ [97, 47, 47, 98, 47].length < tmpfsMaxPathLen ∧
        ([97, 47, 47, 98, 47].splitOn slash).length < vfsMaxDepth) ∧
      FewSlashes [97, 47, 47, 98, 47] :=
  lookupNames_eq_createNames_iff ⟨[97], by decide, by decide⟩ rfl

/-- `//a`: a lookup asks for the empty name first. -/
theorem double_slash_differs : ¬ ∃ names, lookupNames [47, 47, 97] = .ok names ∧
    createNames [47, 47, 97] .idle = .ok names := by
  rintro ⟨names, asks, makes⟩
  have created : createNames [47, 47, 97] .idle = .ok [[97]] := rfl
  have first : [] ∈ components [47, 47, 97] := firstName_mem_components [47, 47, 97]
  rw [lookupNames_eq] at asks
  split_ifs at asks
  have same := Except.ok.inj (created.symm.trans makes)
  rw [Except.ok.inj asks, ← same] at first
  simp at first

end BareMetal.Vfs
