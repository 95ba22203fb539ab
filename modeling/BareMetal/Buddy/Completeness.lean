import BareMetal.Buddy.Runs

/-!
# When `page_allocate` succeeds

`page_divide` looks for a larger block level by level, but only up to level 5,
and it has no way to say that it found none. `Searchable k l` is the condition
under which this is enough for a request of level `l`: the list of the level or
of the next one is not empty, or a list up to level 5 is, or the request is for
the top level.

Otherwise the call does not return. Below level 4 the two recursive calls of
`page_divide` go on without end: the first returns with nothing done, and the
second starts over. From level 4 on it gives up, and `page_allocate` dereferences
the empty list.

## Main results

* `Represents.pageAllocate_returns`, `Represents.pageAllocate_stuck` — the two cases
* `Run.fulfils_iff` — a call meets its specification exactly in searchable states
-/

namespace BareMetal.Buddy

open CS Math Math.Block

variable {n l fuel size : ℕ} {k k' : Allocator} {lists : ℕ → List ℕ} {reserved : Set Block}
  {s t : Holding} {w : List Call}

/-! ## The search -/

/-- `page_divide` can supply a block of level `l`, or need not. -/
def Searchable (k : Allocator) (l : ℕ) : Prop :=
  l = 16 ∨ k.pageList l ≠ none ∨ ∃ m : ℕ, l < m ∧ m ≤ max (l + 1) 5 ∧ k.pageList m ≠ none

/-- A split of the head of a list above supplies the level. -/
private theorem Represents.pageDivide_supplies (rep : Represents n k lists)
    (free : lists (l + 1) ≠ []) : ∃ k' lists',
      (∀ fuel, pageDivide (fuel + 1) ((l : ℤ) + 1) k = .ok k') ∧ Represents n k' lists' ∧
        lists' l ≠ [] := by
  obtain ⟨i, rest, head⟩ := List.exists_cons_of_ne_nil free
  obtain ⟨k', run, rep', -⟩ := rep.pageDivide_cons head
  exact ⟨k', _, run, rep', by simp [splitLists]⟩

/-- `page_divide` supplies the level when a list within its reach is not empty. -/
theorem Represents.pageDivide_returns (rep : Represents n k lists) {m : ℕ} (above : l < m)
    (reach : m ≤ max (l + 1) 5) (free : lists m ≠ []) :
    ∃ k' lists', Returns (fun fuel => pageDivide fuel ((l : ℤ) + 1) k) k' ∧
      Represents n k' lists' ∧ lists' l ≠ [] := by
  obtain ⟨d, rfl⟩ := Nat.exists_eq_add_of_lt above
  induction d generalizing l with
  | zero =>
    obtain ⟨k', lists', run, rep', supplied⟩ := rep.pageDivide_supplies free
    exact ⟨k', lists', ⟨1, run 0⟩, rep', supplied⟩
  | succ d ih =>
    by_cases here : lists (l + 1) ≠ []
    · obtain ⟨k', lists', run, rep', supplied⟩ := rep.pageDivide_supplies here
      exact ⟨k', lists', ⟨1, run 0⟩, rep', supplied⟩
    -- one level up first, then this level again
    have same : l + 1 + d + 1 = l + (d + 1) + 1 := by omega
    obtain ⟨k₁, lists₁, ⟨fuel, first⟩, rep₁, supplied⟩ :=
      ih (l := l + 1) (by omega) (by omega) (same ▸ free)
    obtain ⟨k₂, lists₂, run, rep₂, supplied₂⟩ := rep₁.pageDivide_supplies supplied
    have null : k.pageList ((l : ℤ) + 1) = none := by
      exact_mod_cast rep.freeLists.pageList_of_nil (l := l + 1) (by omega) (not_not.mp here)
    refine ⟨k₂, lists₂, ⟨fuel + 2, ?_⟩, rep₂, supplied₂⟩
    change pageDivide (fuel + 2) ((l : ℤ) + 1) k = .ok k₂
    have first' : pageDivide (fuel + 1) ((l : ℤ) + 1 + 1) k = .ok k₁ :=
      pageDivide_mono _ _ (by exact_mod_cast first)
    rw [pageDivide_of_null null, if_pos (by omega), first', outcome_bind_ok, run]

/-- Above level 4 `page_divide` gives up on an empty list. -/
theorem pageDivide_gives_up {level : ℤ} (null : k.pageList level = none) (high : 5 ≤ level) :
    pageDivide (fuel + 1) level k = .ok k := by
  rw [pageDivide_of_null null, if_neg (by omega)]

/-- Below level 5 it never returns when all lists up to 5 are empty. -/
theorem pageDivide_diverges {level : ℤ} (low : level < 5)
    (null : ∀ m, level ≤ m → m ≤ 5 → k.pageList m = none) :
    pageDivide fuel level k = .error .outOfFuel := by
  induction fuel generalizing level with
  | zero => rfl
  | succ fuel ih =>
    rw [pageDivide_of_null (null level le_rfl low.le), if_pos low]
    by_cases next : level + 1 < 5
    · rw [ih next fun m hm => null m (by omega), outcome_bind_error]
    · cases fuel with
      | zero => rfl
      | succ fuel =>
        rw [pageDivide_gives_up (null _ (by omega) (by omega)) (by omega), outcome_bind_ok]
        exact ih low null

/-! ## `page_allocate` -/

/-- A request for the top level is refused when its list is empty. -/
theorem Represents.pageAllocate_top (rep : Represents n k lists) (positive : 0 < size)
    (large : size ≤ maxRequest) (top : levelFor size = 16) (empty : lists (levelFor size) = []) :
    pageAllocate fuel size k = .ok (-1, k) := by
  rw [rep.pageAllocate_nil positive large empty, if_neg (by omega)]

/-- In a searchable state `page_allocate` returns. -/
theorem Represents.pageAllocate_returns (rep : Represents n k lists) (positive : 0 < size)
    (large : size ≤ maxRequest) (search : Searchable k (levelFor size)) :
    ∃ fuel r, pageAllocate fuel size k = .ok r := by
  have bound := levelFor_le large
  cases head : lists (levelFor size) with
  | cons i rest => exact ⟨0, _, rep.pageAllocate_cons positive large head 0⟩
  | nil =>
    by_cases top : levelFor size = 16
    · exact ⟨0, _, rep.pageAllocate_top positive large top head⟩
    have reachable : ∃ m, levelFor size < m ∧ m ≤ max (levelFor size + 1) 5 ∧ lists m ≠ [] := by
      rcases search with same | here | ⟨m, above, reach, found⟩
      · exact absurd same top
      · exact absurd (rep.freeLists.pageList_of_nil bound head) here
      · exact ⟨m, above, reach, fun empty =>
          found (rep.freeLists.pageList_of_nil (by omega) empty)⟩
    obtain ⟨m, above, reach, found⟩ := reachable
    obtain ⟨k', lists', ⟨fuel, divided⟩, rep', supplied⟩ :=
      rep.pageDivide_returns above reach found
    obtain ⟨i, rest, head'⟩ := List.exists_cons_of_ne_nil supplied
    refine ⟨fuel, (i, Buddy.takeHead (levelFor size) i k'), ?_⟩
    rw [rep.pageAllocate_nil positive large head, if_pos (by omega)]
    exact outcome_bind_eq_ok.mpr ⟨k', divided, rep'.takeFirst_cons head'⟩

/-- Otherwise it goes on for ever or dereferences a null pointer. -/
theorem Represents.pageAllocate_stuck (rep : Represents n k lists) (positive : 0 < size)
    (large : size ≤ maxRequest) (stuck : ¬ Searchable k (levelFor size)) (fuel : ℕ) :
    pageAllocate fuel size k = .error .outOfFuel ∨
      4 ≤ levelFor size ∧ pageAllocate fuel size k = .error .nullPointer := by
  have bound := levelFor_le large
  simp only [Searchable, not_or, not_exists, not_and, not_not] at stuck
  obtain ⟨top, here, above⟩ := stuck
  have head := (rep.freeLists.pageList_eq_none_iff bound).mp here
  rw [rep.pageAllocate_nil positive large head, if_pos (by omega)]
  by_cases low : levelFor size < 4
  · refine .inl ?_
    rw [pageDivide_diverges (by omega), outcome_bind_error]
    intro m from_level to_five
    have := above m.toNat (by omega) (by omega)
    rwa [Int.toNat_of_nonneg (by omega)] at this
  · cases fuel with
    | zero => exact .inl rfl
    | succ fuel =>
      have null : k.pageList ((levelFor size : ℤ) + 1) = none := by
        exact_mod_cast above (levelFor size + 1) (by omega) (by omega)
      refine .inr ⟨by omega, ?_⟩
      rw [pageDivide_gives_up null (by omega), outcome_bind_ok, rep.takeFirst_nil bound head]

/-- What a call of `page_allocate` is to do: it returns; if a list at or above
the level is not empty it returns the head of a block of this level made of free
frames; if all are empty it returns -1 and leaves lists and frames alone. -/
def Fulfils (n size : ℕ) (k : Allocator) : Prop :=
  ∃ r k', Returns (fun fuel => pageAllocate fuel size k) (r, k') ∧
    ((∃ m : ℕ, levelFor size ≤ m ∧ m ≤ 16 ∧ k.pageList m ≠ none) →
      ∃ i : ℕ, r = i ∧ ⟨i, levelFor size⟩ ∈ usedBlocks n k'.frame ∧
        (⟨i, levelFor size⟩ : Block).cells ⊆ freeFrames n k) ∧
    ((∀ m : ℕ, levelFor size ≤ m → m ≤ 16 → k.pageList m = none) →
      r = -1 ∧ k'.pageList = k.pageList ∧ k'.frame = k.frame)

/-- A call meets its specification exactly when the state is searchable. -/
theorem Represents.fulfils_iff_searchable (rep : Represents n k lists) (positive : 0 < size)
    (large : size ≤ maxRequest) : Fulfils n size k ↔ Searchable k (levelFor size) := by
  have bound := levelFor_le large
  constructor
  · rintro ⟨r, k', ⟨fuel, run⟩, -⟩
    by_contra stuck
    rcases rep.pageAllocate_stuck positive large stuck fuel with diverges | ⟨-, null⟩
    · simp [diverges] at run
    · simp [null] at run
  · intro search
    obtain ⟨fuel, ⟨r, k'⟩, run⟩ := rep.pageAllocate_returns positive large search
    refine ⟨r, k', ⟨fuel, run⟩, ?_⟩
    rcases rep.pageAllocate_ok positive large run with ⟨rfl, rfl, top, empty⟩ | ⟨i, rfl, effect⟩
    · refine ⟨?_, fun _ => ⟨rfl, rfl, rfl⟩⟩
      rintro ⟨m, low, high, found⟩
      have : m = 16 := by omega
      subst this
      exact absurd (rep.freeLists.pageList_of_nil le_rfl empty) found
    · refine ⟨fun _ => ⟨i, rfl, effect.taken, effect.fresh⟩, fun empty => ?_⟩
      -- with all lists empty only a request for the top level is searchable
      rcases search with top | here | ⟨m, above, reach, found⟩
      · have head := (rep.freeLists.pageList_eq_none_iff bound).mp (empty _ le_rfl bound)
        rw [rep.pageAllocate_top positive large top head] at run
        simp only [Except.ok.injEq, Prod.mk.injEq] at run
        omega
      · exact absurd (empty _ le_rfl bound) here
      · by_cases table : m ≤ 16
        · exact absurd (empty m above.le table) found
        · have head := (rep.freeLists.pageList_eq_none_iff bound).mp (empty _ le_rfl bound)
          rw [rep.pageAllocate_top positive large (by omega) head] at run
          simp only [Except.ok.injEq, Prod.mk.injEq] at run
          omega

/-- **`page_allocate` is complete exactly in searchable states**, whatever calls
led there. -/
theorem Run.fulfils_iff (start : Consistent n reserved s) (run : Run Step s w t)
    (positive : 0 < size) (large : size ≤ maxRequest) :
    Fulfils n size t.k ↔ Searchable t.k (levelFor size) := by
  obtain ⟨lists, rep⟩ := (start.run run).wellFormed
  exact rep.fulfils_iff_searchable positive large

/-- `Run.fulfils_iff` where the list of the level is not empty. -/
theorem upperFree_fulfils : Fulfils 0x3c000 0x8000000 upperFree := by
  refine (Run.fulfils_iff upperFree_consistent (.refl _) (by decide) (by decide)).mpr ?_
  obtain ⟨lists, rep⟩ := upperFree_wellFormed
  have listed : 0x30000 ∈ lists 15 := by
    rw [rep.mem_lists]
    refine ⟨⟨by decide, ?_⟩, ?_⟩ <;> rw [upperFree, addPageItems_frame] <;> rfl
  have level : levelFor 0x8000000 = 15 := by decide
  rw [level]
  refine .inr (.inl fun null => ?_)
  rw [(rep.freeLists.pageList_eq_none_iff (by omega)).mp null] at listed
  exact List.not_mem_nil listed

/-! ## A request that is never answered -/

/-- **With the first 256 MiB in use and the rest free**, a request for one byte
makes `page_divide` call itself for ever. -/
theorem upperFree_diverges : Consistent 0x3c000 {⟨0, 16⟩} ⟨upperFree, ∅, ∅⟩ ∧
    (∀ fuel, pageAllocate fuel 1 upperFree = .error .outOfFuel) ∧
    ¬ Fulfils 0x3c000 1 upperFree := by
  obtain ⟨lists, rep⟩ := upperFree_wellFormed
  have level : levelFor 1 = 0 := by decide
  have empty : ∀ l : ℕ, l ≤ 5 → upperFree.pageList l = none := by
    intro l low
    refine rep.freeLists.pageList_of_nil (by omega) (List.eq_nil_iff_forall_not_mem.mpr ?_)
    intro i listed
    obtain ⟨mem, zero⟩ := rep.free_of_mem listed
    have block := upperFree_block mem
    simp only [List.mem_cons, List.not_mem_nil, or_false, Block.mk.injEq] at block
    omega
  have stuck : ¬ Searchable upperFree (levelFor 1) := by
    rw [level]
    rintro (top | here | ⟨m, -, reach, found⟩)
    · omega
    · exact here (empty 0 (by omega))
    · exact found (empty m (by omega))
  refine ⟨upperFree_consistent, fun fuel => ?_, fun fulfilled => stuck ?_⟩
  · rcases rep.pageAllocate_stuck one_pos (by decide) stuck fuel with
      diverges | ⟨high, -⟩
    · exact diverges
    · omega
  · exact (rep.fulfils_iff_searchable (by omega) (by decide)).mp fulfilled

end BareMetal.Buddy
