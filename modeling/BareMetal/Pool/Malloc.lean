import BareMetal.Pool.Slots

/-!
# `malloc_`

Every return of `malloc_` has marked a slot that was free, in a page of the class of the
request, or has opened a page. No byte of a chunk in use is stored to.
-/

namespace BareMetal.Pool

open CS Buddy Math Math.Block

variable {others : Set Block} {s s' : Pools} {pages : List Page} {page : Page} {mem : Memory}
  {cur : Option ℕ} {i p x size fuel : ℕ}

/-! ## The search -/

/-- What the search ends with: no page of the class has room, or a free slot of one that
does is marked. -/
inductive SearchResult (size : ℕ) (mem : Memory) (pages : List Page) : Option ℕ × Memory → Prop
  | none (full : ∀ page ∈ pages, page.size = size → totalFor size ≤ page.slots.card) :
      SearchResult size mem pages (none, mem)
  | found {before after : List Page} {page : Page} {i : ℕ} (split : pages = before ++ page :: after)
      (cls : page.size = size) (slot : i < totalFor page.size) (free : i ∉ page.slots) :
      SearchResult size mem pages
        (some (page.addr i), mark mem page.frame (page.slots.card + 1) i 1)

theorem SearchResult.cons {r : Option ℕ × Memory} (result : SearchResult size mem pages r)
    (full : page.size = size → totalFor size ≤ page.slots.card) :
    SearchResult size mem (page :: pages) r := by
  cases result with
  | none others_full =>
    refine .none fun other inside cls => ?_
    rcases List.mem_cons.mp inside with rfl | inside
    · exact full cls
    · exact others_full other inside cls
  | @found before after found i split cls slot free =>
    refine @SearchResult.found size mem (page :: pages) (page :: before) after found i ?_ cls slot
      free
    rw [split, List.cons_append]

/-- The store to `used` does not change which slots are free. -/
theorem freeSlot_setUsed {frame value left : ℕ} (bound : i + left ≤ 4048) :
    freeSlot (setField mem frame 16 8 value) frame left i = freeSlot mem frame left i := by
  induction left generalizing i with
  | zero => rfl
  | succ left ih =>
    have kept : pageInfo (setField mem frame 16 8 value) frame i = pageInfo mem frame i := by
      rw [pageInfo, aling8_sizeofPoolHeader]
      exact field_setField_of_apart (by omega) (by omega) (by omega) (by omega)
    rw [freeSlot, freeSlot, ih (by omega), kept]

theorem searchPools_mono (size : ℕ) (cur : Option ℕ) (mem : Memory) :
    FuelMonotone fun fuel => searchPools size fuel cur mem := by
  intro fuel r returns
  replace returns : searchPools size fuel cur mem = .ok r := returns
  change searchPools size (fuel + 1) cur mem = .ok r
  induction fuel generalizing cur mem with
  | zero => cases returns
  | succ fuel ih =>
    cases cur with
    | none => exact returns
    | some page =>
      rw [searchPools_some] at returns ⊢
      split_ifs at returns ⊢ with passed
      · exact ih _ _ returns
      · dsimp only at returns ⊢
        split at returns
        · exact returns
        · exact ih _ _ returns

theorem malloc_mono (size : ℕ) (s : Pools) : FuelMonotone fun fuel => malloc fuel size s := by
  refine (fuelMonotone_const (classOf size)).bind fun cls => ?_
  refine (searchPools_mono cls s.pool s.k.mem).bind fun ⟨found, mem⟩ => ?_
  cases found with
  | none => exact (pageAllocate_mono cls _).bind fun _ => fuelMonotone_const _
  | some addr => exact fuelMonotone_const _

/-- What the loop does at a page. -/
theorem searchPools_cons (fuel : ℕ) (cls : PoolClass size) (ok : page.Ok mem) :
    (page.size = size → totalFor size ≤ page.slots.card) ∧
        searchPools size (fuel + 1) (some page.frame) mem =
          searchPools size fuel (headerNext mem page.frame) mem ∨
      ∃ i, page.size = size ∧ i < totalFor page.size ∧ i ∉ page.slots ∧
        searchPools size (fuel + 1) (some page.frame) mem =
          .ok (some (page.addr i), mark mem page.frame (page.slots.card + 1) i 1) := by
  have small := totalFor_le_info page.size
  rw [searchPools_some, ok.size, ok.total, ok.used]
  split_ifs with passed
  · refine .inl ⟨fun same => ?_, rfl⟩
    have positive := page.cls.bounds.1
    subst same
    omega
  · obtain ⟨low, high, room⟩ : ¬ page.size < size ∧ ¬ page.size ≥ 2 * size ∧
        ¬ page.slots.card ≥ totalFor page.size := by tauto
    have same : page.size = size := cls.eq_of_near page.cls (by omega) (by omega)
    obtain ⟨j, found, slot, free⟩ := ok.freeSlot (by omega)
    have total : headerTotal (setField mem page.frame 16 8 (page.slots.card + 1)) page.frame =
        totalFor page.size :=
      (field_setField_of_apart (by omega) (by omega) (by omega) (by omega)).trans ok.total
    have stride : headerSize (setField mem page.frame 16 8 (page.slots.card + 1)) page.frame =
        page.size :=
      (field_setField_of_apart (by omega) (by omega) (by omega) (by omega)).trans ok.size
    have addr : slotAddr (setField mem page.frame 16 8 (page.slots.card + 1)) page.frame j =
        page.addr j := by
      rw [slotAddr, total, stride, Page.addr, slotOffset, aling8_sizeofPoolHeader, Nat.add_assoc,
        Nat.add_assoc, Nat.add_assoc]
    refine .inr ⟨j, same, slot, free, ?_⟩
    dsimp only
    rw [total, freeSlot_setUsed (by omega), found]
    dsimp only
    rw [addr]
    rfl

theorem searchPools_returns {r : Option ℕ × Memory} (cls : PoolClass size)
    (linked : Linked (headerNext mem) cur (pages.map Page.frame))
    (ok : ∀ page ∈ pages, page.Ok mem) (run : searchPools size fuel cur mem = .ok r) :
    SearchResult size mem pages r := by
  induction pages generalizing cur fuel with
  | nil =>
    obtain rfl : cur = none := linked
    cases fuel with
    | zero => cases run
    | succ fuel =>
      obtain rfl : (none, mem) = r := Except.ok.inj run
      exact .none (by simp)
  | cons page pages ih =>
    obtain ⟨rfl, rest⟩ := linked
    cases fuel with
    | zero => cases run
    | succ fuel =>
      have here := searchPools_cons fuel cls (ok page List.mem_cons_self)
      rcases here with ⟨full, skipped⟩ | ⟨i, same, slot, free, marked⟩
      · rw [skipped] at run
        exact (ih rest (fun p hp => ok p (List.mem_cons_of_mem page hp)) run).cons full
      · rw [marked, Except.ok.injEq] at run
        subst run
        exact @SearchResult.found size mem (page :: pages) [] pages page i rfl same slot free

/-- The search ends. -/
theorem searchPools_total (cls : PoolClass size)
    (linked : Linked (headerNext mem) cur (pages.map Page.frame))
    (ok : ∀ page ∈ pages, page.Ok mem) (enough : pages.length < fuel) :
    ∃ r, searchPools size fuel cur mem = .ok r := by
  induction pages generalizing cur fuel with
  | nil =>
    obtain rfl : cur = none := linked
    obtain ⟨fuel, rfl⟩ := Nat.exists_eq_succ_of_ne_zero (by omega : fuel ≠ 0)
    exact ⟨_, rfl⟩
  | cons page pages ih =>
    obtain ⟨rfl, rest⟩ := linked
    obtain ⟨fuel, rfl⟩ := Nat.exists_eq_succ_of_ne_zero (by omega : fuel ≠ 0)
    have here := searchPools_cons fuel cls (ok page List.mem_cons_self)
    rcases here with ⟨-, skipped⟩ | ⟨i, -, -, -, marked⟩
    · rw [List.length_cons] at enough
      obtain ⟨r, run⟩ := ih rest (fun p hp => ok p (List.mem_cons_of_mem page hp))
        (show pages.length < fuel by omega)
      exact ⟨r, skipped.trans run⟩
    · exact ⟨_, marked⟩

end BareMetal.Pool
