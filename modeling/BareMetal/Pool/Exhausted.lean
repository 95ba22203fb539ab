import BareMetal.Buddy.Allocate
import BareMetal.Buddy.Boot
import BareMetal.Pool.Layout

/-!
# Out of memory

`page_allocate` returns `-1` when no block is large enough. Its callers multiply the
result by the page size without looking at it: `page_allocate_addr` returns the address
of the last page of the address space, and `open_page` stores a header there and puts it
at the front of the pool.

## Main results

* `exhausted_not_reported` — no caller ever returns a null pointer
-/

namespace BareMetal.Pool

open CS Buddy

variable {s : Pools} {k : Allocator} {size : ℕ}

/-- `page_allocate_addr`. The product is an `int`, and the address is 64 bits wide. -/
def pageAllocateAddr (fuel size : ℕ) (s : Pools) : Outcome (ℕ × Pools) := do
  let (index, k) ← pageAllocate fuel size s.k
  return (toU64 (toInt32 (index * 0x1000)), { s with k := k })

/-! ## The law -/

/-- A call reports that there is no memory: it returns a null pointer, with memory, the
free lists, the frame table and the pool unchanged. -/
def Reports (call : ℕ → Pools → Outcome (ℕ × Pools)) (s : Pools) : Prop :=
  Returns (fun fuel => call fuel s) (0, s)

/-! ## Addresses that are returned -/

/-- The addresses that `open_page` returns lie behind a header. -/
theorem openPage_ne_zero {fuel addr : ℕ} {s' : Pools}
    (returns : openPage fuel size s = .ok (addr, s')) : addr ≠ 0 := by
  obtain ⟨⟨index, k⟩, -, returns⟩ := outcome_bind_eq_ok.mp returns
  simp only [outcome_pure, Except.ok.injEq, Prod.mk.injEq, aling8_sizeofPoolHeader] at returns
  obtain ⟨rfl, -⟩ := returns
  omega

/-- So do the slots that the search finds. -/
theorem searchPools_ne_zero {fuel addr : ℕ} {cur : Option ℕ} {mem mem' : Memory}
    (returns : searchPools size fuel cur mem = .ok (some addr, mem')) : addr ≠ 0 := by
  induction fuel generalizing cur mem with
  | zero => cases returns
  | succ fuel ih =>
    cases cur with
    | none => simp [searchPools_none] at returns
    | some page =>
      rw [searchPools_some] at returns
      split_ifs at returns with passed
      · exact ih returns
      · dsimp only at returns
        split at returns
        · simp only [Except.ok.injEq, Prod.mk.injEq, Option.some.injEq] at returns
          rw [← returns.1, slotAddr, aling8_sizeofPoolHeader]
          omega
        · exact ih returns

theorem malloc_ne_zero {fuel addr : ℕ} {s' : Pools}
    (returns : malloc fuel size s = .ok (addr, s')) : addr ≠ 0 := by
  obtain ⟨cls, -, returns⟩ := outcome_bind_eq_ok.mp returns
  obtain ⟨⟨found, mem⟩, search, returns⟩ := outcome_bind_eq_ok.mp returns
  cases found with
  | none => exact openPage_ne_zero returns
  | some slot =>
    obtain rfl : slot = addr := congrArg Prod.fst (Except.ok.inj returns)
    exact searchPools_ne_zero search

/-- What `page_allocate_addr` returns instead of a null pointer. -/
theorem pageAllocateAddr_refused
    (refused : Returns (fun fuel => pageAllocate fuel size s.k) (-1, k)) :
    Returns (fun fuel => pageAllocateAddr fuel size s) (0xfffffffffffff000, { s with k := k }) := by
  obtain ⟨fuel, refused⟩ := refused
  refine ⟨fuel, ?_⟩
  dsimp only at refused ⊢
  rw [pageAllocateAddr, refused, outcome_bind_ok]
  rfl

theorem pageAllocateAddr_mono (size : ℕ) (s : Pools) :
    FuelMonotone fun fuel => pageAllocateAddr fuel size s :=
  (pageAllocate_mono size s.k).bind fun _ => fuelMonotone_const _

/-- **Out of memory is never reported.** In every state and for every size for which
`page_allocate` returns `-1`, none of its callers returns a null pointer. -/
theorem exhausted_not_reported
    (refused : Returns (fun fuel => pageAllocate fuel size s.k) (-1, k)) :
    ¬ Reports (fun fuel => pageAllocateAddr fuel size) s ∧
      ¬ Reports (fun fuel => openPage fuel size) s ∧
        ¬ Reports (fun fuel => malloc fuel size) s := by
  refine ⟨fun reports => ?_, fun ⟨_, returns⟩ => openPage_ne_zero returns rfl,
    fun ⟨_, returns⟩ => malloc_ne_zero returns rfl⟩
  have same := (pageAllocateAddr_mono size s).returns_unique reports
    (pageAllocateAddr_refused refused)
  have value : 0 = 0xfffffffffffff000 := congrArg Prod.fst same
  exact absurd value (by decide)

/-- The frames of `upperFrames` with the three blocks of level 16 in use. -/
def lowUsedFrames (i : ℕ) : FrameInfo :=
  if i = 0x10000 ∨ i = 0x20000 then ⟨1, 16⟩ else upperFrames i

/-- The allocator with these frames and an empty pool. -/
def lowUsed : Pools :=
  ⟨addPageItems [0x38000, 0x30000] ⟨lowUsedFrames, fun _ => none, fun _ => ⟨0, 0⟩⟩, none⟩

/-- No block of 256 MiB is left. -/
theorem lowUsed_refused :
    Returns (fun fuel => pageAllocate fuel 0x10000000 lowUsed.k) (-1, lowUsed.k) := ⟨0, rfl⟩

theorem lowUsed_not_reported : ¬ Reports (fun fuel => pageAllocateAddr fuel 0x10000000) lowUsed :=
  (exhausted_not_reported lowUsed_refused).1

/-- There `page_allocate_addr` returns the address of the last page, and `open_page` and
`malloc_` return no null pointer. -/
theorem lowUsed_wraps :
    Returns (fun fuel => pageAllocateAddr fuel 0x10000000 lowUsed) (0xfffffffffffff000, lowUsed) ∧
      (∃ s', openPage 0 0x10000000 lowUsed = .ok (0xfffffffffffff020, s') ∧
        s'.pool = some 0xfffffffffffff) ∧
      ¬ Reports (fun fuel => openPage fuel 0x10000000) lowUsed ∧
      ¬ Reports (fun fuel => malloc fuel 0x10000000) lowUsed := by
  refine ⟨pageAllocateAddr_refused lowUsed_refused, ⟨_, rfl, rfl⟩, ?_, ?_⟩
  · exact fun ⟨_, returns⟩ => openPage_ne_zero returns rfl
  · exact fun ⟨_, returns⟩ => malloc_ne_zero returns rfl

end BareMetal.Pool
