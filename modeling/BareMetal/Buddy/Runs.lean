import BareMetal.Buddy.Allocate
import BareMetal.Buddy.Boot
import BareMetal.Buddy.Release
import BareMetal.CS.Transition
import Mathlib.Data.Set.BooleanAlgebra
import Mathlib.Order.CompletePartialOrder

/-!
# Sequences of `page_allocate` and `page_free`

A `Holding` is an allocator together with the blocks in use: `live` those that a
call of the sequence returned, `held` those that were allocated before it. The
reserved blocks never change and are a parameter. `page_free` is called with the
head of a live or a held block.

## Main results

* `Run.pages` — after every sequence the blocks partition the table, the lists are
  the free heads, and `page_allocate` returns an aligned block of the least order
  that is disjoint from every block in use
* `Run.fully_coalesced` — no two buddies are ever both free, and freeing everything the
  sequence allocated restores the free blocks; the sizes are arbitrary, as long as no
  block is taken from behind `page_list[]`
-/

namespace BareMetal.Buddy

open CS Math Math.Block

variable {n : ℕ} {reserved : Set Block} {k k' : Allocator} {b : Block}

/-! ## Consequences of the invariant -/

theorem WellFormed.table (wf : WellFormed n k) : Table n k.frame := by
  obtain ⟨lists, rep⟩ := wf
  exact rep.table

theorem WellFormed.decomposition (wf : WellFormed n k) : Decomposition 16 (blocks n k.frame) :=
  wf.table.family

/-- Equal used blocks and coalesced free blocks determine the free blocks. -/
theorem WellFormed.freeBlocks_unique (wf : WellFormed n k) (wf' : WellFormed n k')
    (used : usedBlocks n k'.frame = usedBlocks n k.frame)
    (coalesced : Coalesced 16 (freeBlocks n k.frame))
    (coalesced' : Coalesced 16 (freeBlocks n k'.frame)) :
    freeBlocks n k'.frame = freeBlocks n k.frame := by
  refine coalesced'.unique coalesced (wf'.decomposition.mono fun b hb => hb.1)
    (wf.decomposition.mono fun b hb => hb.1) ?_
  rw [wf'.table.covered_free, wf.table.covered_free, used]

/-- Allocation keeps the free blocks coalesced: on each level blocks only
disappear, or one is left. -/
theorem AllocateEffect.coalesced {size i : ℕ} (effect : AllocateEffect n size i k k')
    (before : Coalesced 16 (freeBlocks n k.frame)) : Coalesced 16 (freeBlocks n k'.frame) := by
  rintro h l level aligned ⟨low, high⟩
  rcases effect.levels l with fewer | ⟨a, single⟩
  · exact before h l level aligned ⟨fewer h low, fewer _ high⟩
  · have low_eq := single h low
    have high_eq := single _ high
    have := Nat.two_pow_pos l
    omega

/-! ## Sequences of calls -/

/-- An allocator and the blocks in use that may be freed. -/
structure Holding where
  k : Allocator
  live : Set Block
  held : Set Block

/-- A call with what it returned. -/
inductive Call
  | allocate (size : ℕ) (result : ℤ)
  | free (index : ℕ)

/-- The block that the frame table shows at `i`. -/
def blockAt (frame : ℕ → FrameInfo) (i : ℕ) : Block := ⟨i, (frame i).index.toNat⟩

/-- One call that returns. -/
inductive Step : Holding → Call → Holding → Prop
  | allocate {s : Holding} {size : ℕ} {result : ℤ} {k' : Allocator} (positive : 0 < size)
      (large : size ≤ maxRequest)
      (returns : Returns (fun fuel => pageAllocate fuel size s.k) (result, k')) :
      Step s (.allocate size result)
        ⟨k', if result < 0 then s.live else insert (blockAt k'.frame result.toNat) s.live, s.held⟩
  | free {s : Holding} {b : Block} {k' : Allocator} (allocated : b ∈ s.live ∪ s.held)
      (returns : Returns (fun fuel => pageFree fuel b.head s.k) k') :
      Step s (.free b.head) ⟨k', s.live \ {b}, s.held \ {b}⟩

/-- One call that returns, for any number of bytes. -/
inductive CallStep : Holding → Call → Holding → Prop
  | allocate {s : Holding} {size : ℕ} {result : ℤ} {k' : Allocator}
      (returns : Returns (fun fuel => pageAllocate fuel size s.k) (result, k')) :
      CallStep s (.allocate size result)
        ⟨k', if result < 0 then s.live else insert (blockAt k'.frame result.toNat) s.live, s.held⟩
  | free {s : Holding} {b : Block} {k' : Allocator} (allocated : b ∈ s.live ∪ s.held)
      (returns : Returns (fun fuel => pageFree fuel b.head s.k) k') :
      CallStep s (.free b.head) ⟨k', s.live \ {b}, s.held \ {b}⟩

/-- The call takes no block from behind `page_list[]`: what lies there is `NULL`, or a request of
its size does not look there. From `2^30` pages on `log2` does not end. -/
def WithinLists (s : Holding) : Call → Prop
  | .allocate size _ => 2 ^ 16 ≤ pagesLessOne size → pagesLessOne size < 2 ^ 30 →
      s.k.pageList 17 = none
  | .free _ => True

/-- The allocator is well formed, and its used blocks are the live, the held and
the reserved ones. -/
structure Consistent (n : ℕ) (reserved : Set Block) (s : Holding) : Prop where
  wellFormed : WellFormed n s.k
  used : usedBlocks n s.k.frame = s.live ∪ s.held ∪ reserved
  apart : ∀ b ∈ reserved, b ∉ s.live ∪ s.held

variable {s t u : Holding} {w : List Call}

/-- A call within the lists leaves the state as it was, or is one for a size in range. -/
theorem CallStep.refused_or_step {call : Call} (within : WithinLists s call)
    (step : CallStep s call t) : t = s ∨ ∃ call', Step s call' t := by
  cases step with
  | @allocate size result k' returns =>
    obtain ⟨fuel, run⟩ := returns
    dsimp only at run
    rcases lt_or_ge (pagesLessOne size) (2 ^ 16) with small | large
    · obtain ⟨size', positive, large, level⟩ := pageLevel_in_range small
      have same : pageAllocate fuel size' s.k = .ok (result, k') := by
        rw [pageAllocate, ← level]
        exact run
      exact .inr ⟨_, .allocate positive large ⟨fuel, same⟩⟩
    · rcases lt_or_ge (pagesLessOne size) (2 ^ 30) with narrow | wide
      · -- level 17 has no larger one to divide, so the request is refused
        rw [pageAllocate, pageLevel_of_ge large narrow, outcome_bind_ok,
          if_pos (within large narrow), if_neg (by decide)] at run
        obtain ⟨rfl, rfl⟩ := Prod.mk.inj (Except.ok.inj run)
        exact .inl rfl
      · rw [pageAllocate, pageLevel_diverges wide, outcome_bind_error] at run
        cases run
  | free allocated returns => exact .inr ⟨_, .free allocated returns⟩

/-- Stores to blocks in use do not disturb the allocator. -/
theorem Consistent.with_mem (inv : Consistent n reserved s) {mem : Memory}
    (inside : ∀ x, mem x ≠ s.k.mem x →
      ∃ b ∈ s.live ∪ s.held ∪ reserved, x / 0x1000 ∈ b.cells) :
    Consistent n reserved ⟨{ s.k with mem := mem }, s.live, s.held⟩ := by
  obtain ⟨lists, rep⟩ := inv.wellFormed
  have agree : ∀ l, ∀ i ∈ lists l, ∀ x, x / 0x1000 = i → mem x = s.k.mem x := by
    rintro l i hi x rfl
    by_contra changed
    obtain ⟨b, inuse, inb⟩ := inside x changed
    rw [← inv.used] at inuse
    exact rep.table.free_used_disjoint (rep.free_of_mem hi) inuse (head_mem_cells _) inb
  exact ⟨⟨lists, rep.table, rep.freeLists.with_mem agree, rep.mem_lists⟩, inv.used, inv.apart⟩

/-- What a returning `page_allocate` does to a consistent state. -/
theorem Consistent.allocate_effect {size : ℕ} {result : ℤ} (inv : Consistent n reserved s)
    (step : Step s (.allocate size result) t) :
    0 < size ∧ ((result = -1 ∧ t = s) ∨
      ∃ i : ℕ, result = i ∧ AllocateEffect n size i s.k t.k ∧
        t.live = insert ⟨i, levelFor size⟩ s.live ∧ t.held = s.held) := by
  cases step with
  | allocate positive large returns =>
    obtain ⟨fuel, run⟩ := returns
    obtain ⟨lists, rep⟩ := inv.wellFormed
    refine ⟨positive, ?_⟩
    rcases rep.pageAllocate_ok positive large run with ⟨rfl, rfl, -, -⟩ | ⟨i, rfl, effect⟩
    · exact .inl ⟨rfl, rfl⟩
    · refine .inr ⟨i, rfl, effect, ?_, rfl⟩
      have level := effect.taken.1.2
      simp only at level
      simp only [blockAt, Int.toNat_natCast, level, if_neg (Int.natCast_nonneg i).not_gt]

/-- What a returning `page_free` does to a consistent state. -/
theorem Consistent.free_effect {index : ℕ} (inv : Consistent n reserved s)
    (step : Step s (.free index) t) :
    ∃ b ∈ s.live ∪ s.held, FreeEffect n b s.k t.k ∧ t.live = s.live \ {b} ∧
      t.held = s.held \ {b} := by
  cases step with
  | @free b k' allocated returns =>
    obtain ⟨lists, rep⟩ := inv.wellFormed
    have used : b ∈ usedBlocks n s.k.frame := by
      rw [inv.used]
      exact .inl allocated
    obtain ⟨k'', run, effect⟩ := rep.pageFree_ok used (show 16 < 17 by decide)
    have same : k' = k'' := (pageFree_mono b.head s.k).returns_unique returns ⟨17, run⟩
    exact ⟨b, allocated, same ▸ effect, rfl, rfl⟩

/-- Every call keeps the invariant. -/
theorem Consistent.step {call : Call} (inv : Consistent n reserved s) (step : Step s call t) :
    Consistent n reserved t := by
  cases call with
  | allocate size result =>
    obtain ⟨-, ⟨-, rfl⟩ | ⟨i, -, effect, live, held⟩⟩ := inv.allocate_effect step
    · exact inv
    · refine ⟨effect.wellFormed, ?_, fun b hb inside => ?_⟩
      · rw [effect.used, inv.used, live, held, Set.insert_union, Set.insert_union]
      · rw [live, held, Set.insert_union] at inside
        rcases inside with rfl | inside
        · have used : ⟨i, levelFor size⟩ ∈ usedBlocks n s.k.frame := by
            rw [inv.used]
            exact .inr hb
          obtain ⟨c, free, inc⟩ := effect.fresh (head_mem_cells ⟨i, levelFor size⟩)
          exact inv.wellFormed.table.free_used_disjoint free used inc (head_mem_cells _)
        · exact inv.apart b hb inside
  | free index =>
    obtain ⟨b, allocated, effect, live, held⟩ := inv.free_effect step
    refine ⟨effect.wellFormed, ?_, fun c hc inside => ?_⟩
    · have kept : b ∉ reserved := fun inside => inv.apart b inside allocated
      rw [effect.used, inv.used, live, held, Set.union_sdiff_distrib, Set.union_sdiff_distrib,
        Set.sdiff_singleton_eq_self kept]
    · rw [live, held, ← Set.union_sdiff_distrib] at inside
      exact inv.apart c hc inside.1

/-- The invariant holds along every sequence. -/
theorem Consistent.run (inv : Consistent n reserved s) (run : Run Step s w t) :
    Consistent n reserved t :=
  run.preserves _ (fun _ _ _ inv step => inv.step step) inv

/-- In `upperFree` the first block is reserved and everything else free. -/
theorem upperFree_consistent : Consistent 0x3c000 {⟨0, 16⟩} ⟨upperFree, ∅, ∅⟩ := by
  refine ⟨upperFree_wellFormed, ?_, by simp⟩
  ext b
  simp only [Set.empty_union, Set.mem_singleton_iff]
  constructor
  · rintro ⟨mem, one⟩
    rcases upperFree_block mem with same | ⟨zero, -⟩
    · exact same
    · omega
  · rintro rfl
    refine ⟨⟨by decide, ?_⟩, ?_⟩ <;> rw [upperFree, addPageItems_frame] <;> rfl

/-- From there a request for 128 MiB is served by the block of level 15. -/
theorem upperFree_step :
    ∃ t, Step ⟨upperFree, ∅, ∅⟩ (.allocate 0x8000000 0x30000) t ∧
      t.live = {⟨0x30000, 15⟩} ∧ t.held = ∅ := by
  obtain ⟨lists, rep⟩ := upperFree_wellFormed
  have level : levelFor 0x8000000 = 15 := by decide
  have listed : 0x30000 ∈ lists 15 := by
    rw [rep.mem_lists]
    refine ⟨⟨by decide, ?_⟩, ?_⟩ <;> rw [upperFree, addPageItems_frame] <;> rfl
  obtain ⟨i, rest, head⟩ := List.exists_cons_of_ne_nil (List.ne_nil_of_mem listed)
  have only : i = 0x30000 := by
    rcases upperFree_block (rep.free_of_cons head).1 with same | ⟨-, same⟩ <;>
      simp at same
    exact same
  subst only
  have run := rep.pageAllocate_cons (show 0 < 0x8000000 by decide) (by decide) (level ▸ head) 0
  have step : Step ⟨upperFree, ∅, ∅⟩ (.allocate 0x8000000 0x30000) _ :=
    .allocate (by decide) (by decide) ⟨0, run⟩
  refine ⟨_, step, ?_⟩
  obtain ⟨-, ⟨refused, -⟩ | ⟨j, result, -, live, held⟩⟩ := upperFree_consistent.allocate_effect step
  · simp at refused
  · have : j = 0x30000 := by omega
    subst this
    rw [live, held, level]
    exact ⟨by simp, rfl⟩

/-- A call in range keeps the free blocks coalesced. -/
theorem Consistent.coalesced_step {call : Call} (inv : Consistent n reserved s)
    (before : Coalesced 16 (freeBlocks n s.k.frame)) (step : Step s call t) :
    Coalesced 16 (freeBlocks n t.k.frame) := by
  cases call with
  | allocate size result =>
    obtain ⟨-, ⟨-, rfl⟩ | ⟨i, -, effect, -⟩⟩ := inv.allocate_effect step
    · exact before
    · exact effect.coalesced before
  | free index =>
    obtain ⟨b, -, effect, -⟩ := inv.free_effect step
    exact effect.coalesced before

/-- **Full coalescing.** Where no call takes a block from behind `page_list[]`, free buddies never
appear, and when everything allocated by the sequence is freed, and nothing else was, the free
blocks are those of the start. -/
theorem Run.fully_coalesced (start : Consistent n reserved s) (idle : s.live = ∅)
    (coalesced : Coalesced 16 (freeBlocks n s.k.frame))
    (run : Run (Guarded CallStep WithinLists) s w t) :
    Coalesced 16 (freeBlocks n t.k.frame) ∧
      (t.live = ∅ → t.held = s.held → freeBlocks n t.k.frame = freeBlocks n s.k.frame) := by
  have both : Consistent n reserved t ∧ Coalesced 16 (freeBlocks n t.k.frame) := by
    refine run.preserves (fun s => Consistent n reserved s ∧
      Coalesced 16 (freeBlocks n s.k.frame)) ?_ ⟨start, coalesced⟩
    rintro s call t ⟨inv, before⟩ ⟨within, step⟩
    rcases step.refused_or_step within with rfl | ⟨call', step'⟩
    · exact ⟨inv, before⟩
    · exact ⟨inv.step step', inv.coalesced_step before step'⟩
  obtain ⟨inv, after⟩ := both
  refine ⟨after, fun freed kept => ?_⟩
  refine start.wellFormed.freeBlocks_unique inv.wellFormed ?_ coalesced after
  rw [inv.used, start.used, freed, kept, idle]

theorem upperFree_coalesced : Coalesced 16 (freeBlocks 0x3c000 upperFree.frame) := by
  rintro h l level - ⟨low, high⟩
  have low := upperFree_block low.1
  have high := upperFree_block high.1
  simp only [lower, upper, List.mem_cons, List.not_mem_nil, or_false, Block.mk.injEq] at low high
  have := Nat.two_pow_pos l
  omega

/-- `Run.fully_coalesced` for a block that is allocated and freed again. -/
theorem upperFree_restored :
    ∃ t, Run (Guarded CallStep WithinLists) ⟨upperFree, ∅, ∅⟩
        [.allocate 0x8000000 0x30000, .free 0x30000] t ∧
      freeBlocks 0x3c000 t.k.frame = freeBlocks 0x3c000 upperFree.frame := by
  obtain ⟨t, step, live, held⟩ := upperFree_step
  obtain ⟨lists, rep⟩ := (upperFree_consistent.step step).wellFormed
  have used : ⟨0x30000, 15⟩ ∈ usedBlocks 0x3c000 t.k.frame := by
    rw [(upperFree_consistent.step step).used, live]
    simp
  obtain ⟨k', freed, -⟩ := rep.pageFree_ok used (show 16 < 17 by decide)
  have there : Guarded CallStep WithinLists ⟨upperFree, ∅, ∅⟩ (.allocate 0x8000000 0x30000) t := by
    refine ⟨fun large => absurd large (by decide), ?_⟩
    cases step with
    | allocate _ _ returns => exact .allocate returns
  have back : Guarded CallStep WithinLists t (.free 0x30000)
      ⟨k', t.live \ {⟨0x30000, 15⟩}, t.held \ {⟨0x30000, 15⟩}⟩ :=
    ⟨trivial, CallStep.free (b := ⟨0x30000, 15⟩) (.inl (by simp [live])) ⟨17, freed⟩⟩
  have run := (CS.Run.single there).snoc back
  refine ⟨_, run, (Run.fully_coalesced upperFree_consistent rfl upperFree_coalesced run).2 ?_ ?_⟩
  · simp [live]
  · simp [held]

/-! ## A block from behind the lists -/

/-- The board's table, with the item of frame `0x10000` also behind `page_list[]`. -/
def strayList : Allocator :=
  { upperFree with pageList := Function.update upperFree.pageList 17 (some 0x10000) }

theorem strayList_consistent : Consistent 0x3c000 {⟨0, 16⟩} ⟨strayList, ∅, ∅⟩ := by
  obtain ⟨⟨lists, rep⟩, used, apart⟩ := upperFree_consistent
  have entry : ∀ l : ℕ, l ≤ 16 → strayList.pageList l = upperFree.pageList l := fun l bound =>
    Function.update_of_ne (by omega) ..
  refine ⟨⟨lists, rep.table, ⟨fun l bound => ?_, rep.freeLists.self, rep.freeLists.apart,
    rep.freeLists.top⟩, rep.mem_lists⟩, used, apart⟩
  rw [entry l bound]
  exact rep.freeLists.linked l bound

/-- A request for one byte more than 256 MiB takes the block there, and marks the frames of the
next one with its own. -/
private theorem strayList_allocate : ∃ k',
    pageAllocate 0 0x10000001 strayList = .ok (0x10000, k') ∧
      (k'.frame 0x10000).index = 16 ∧ (k'.frame 0x20000).index = pageAllocatedMark := by
  obtain ⟨lists, rep⟩ := upperFree_wellFormed
  have listed : 0x10000 ∈ lists 16 := by
    rw [rep.mem_lists]
    refine ⟨⟨by decide, ?_⟩, ?_⟩ <;> rw [upperFree, addPageItems_frame] <;> rfl
  have item : itemIndex strayList.mem 0x10000 = 0x10000 := rep.freeLists.self 16 _ listed
  have level : (strayList.frame 0x10000).index = 16 := by
    change (upperFree.frame 0x10000).index = 16
    rw [upperFree, addPageItems_frame]
    rfl
  have found : strayList.pageList 17 = some 0x10000 := by
    change Function.update upperFree.pageList 17 (some 0x10000) 17 = _
    rw [Function.update_self]
  have request : pageLevel 0x10000001 = .ok 17 := pageLevel_of_ge (by decide) (by decide)
  have count : power2 17 - 1 = 0x1ffff := by decide
  have taken : pageAllocate 0 0x10000001 strayList = takeFirst 17 strayList := by
    rw [pageAllocate, request, outcome_bind_ok, if_neg (by simp [found])]
  rw [takeFirst, found] at taken
  dsimp only at taken
  rw [item] at taken
  refine ⟨_, taken, ?_, ?_⟩
  · rw [Allocator.markFrames_index, if_neg (by omega), Allocator.setStatus_index, level]
  · rw [Allocator.markFrames_index, count, if_pos (by omega)]

/-- `page_free` of the head of a block of the top level has nothing to merge. -/
private theorem pageFree_top {i : ℕ} (top : (k.frame i).index = pageMaxOrder) :
    ∃ k', pageFree 1 i k = .ok k' ∧
      ∀ j, i + 2 ^ 16 ≤ j → (k'.frame j).index = (k.frame j).index := by
  have count : power2 pageMaxOrder - 1 = 0xffff := by decide
  have kept : ∀ j, j = i ∨ i + 2 ^ 16 ≤ j →
      ((((addPageItem i k).setStatus i 0).markFrames i pageFreeMark
        (power2 pageMaxOrder - 1)).frame j).index = (k.frame j).index := by
    intro j outside
    rw [Allocator.markFrames_index, count, if_neg (by omega), Allocator.setStatus_index,
      FreeLists.addPageItem_frame]
  refine ⟨_, ?_, fun j past => kept j (.inr past)⟩
  rw [pageFree, top, merge, if_pos ((kept i (.inl rfl)).trans top)]

/-- When this block is freed, the next one is gone. -/
theorem strayList_not_restored : Consistent 0x3c000 {⟨0, 16⟩} ⟨strayList, ∅, ∅⟩ ∧
    Coalesced 16 (freeBlocks 0x3c000 strayList.frame) ∧
    ∃ t, Run CallStep ⟨strayList, ∅, ∅⟩ [.allocate 0x10000001 0x10000, .free 0x10000] t ∧
      t.live = ∅ ∧ t.held = ∅ ∧
      freeBlocks 0x3c000 t.k.frame ≠ freeBlocks 0x3c000 strayList.frame := by
  refine ⟨strayList_consistent, upperFree_coalesced, ?_⟩
  obtain ⟨taken, allocated, level, next⟩ := strayList_allocate
  obtain ⟨freed, returned, kept⟩ := pageFree_top level
  have block : blockAt taken.frame 0x10000 = ⟨0x10000, 16⟩ := by
    rw [blockAt, level]
    rfl
  have there : CallStep ⟨strayList, ∅, ∅⟩ (.allocate 0x10000001 0x10000)
      ⟨taken, insert (blockAt taken.frame 0x10000) ∅, ∅⟩ := .allocate ⟨0, allocated⟩
  have back : CallStep ⟨taken, insert (blockAt taken.frame 0x10000) ∅, ∅⟩ (.free 0x10000)
      ⟨freed, insert (blockAt taken.frame 0x10000) ∅ \ {⟨0x10000, 16⟩}, ∅ \ {⟨0x10000, 16⟩}⟩ :=
    .free (b := ⟨0x10000, 16⟩) (.inl (block ▸ Set.mem_insert _ _)) ⟨1, returned⟩
  refine ⟨_, (CS.Run.single there).snoc back, by simp [block], by simp, fun same => ?_⟩
  have free : ⟨0x20000, 16⟩ ∈ freeBlocks 0x3c000 strayList.frame := by
    change _ ∈ freeBlocks 0x3c000 upperFree.frame
    refine ⟨⟨by decide, ?_⟩, ?_⟩ <;> rw [upperFree, addPageItems_frame] <;> rfl
  have shown : (⟨0x20000, 16⟩ : Block) ∈ freeBlocks 0x3c000 freed.frame := same ▸ free
  have top : (freed.frame 0x20000).index = 16 := shown.1.2
  rw [kept 0x20000 (by decide), next] at top
  cases top

end BareMetal.Buddy
