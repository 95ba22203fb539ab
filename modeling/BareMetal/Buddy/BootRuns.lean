import BareMetal.Buddy.PageInit
import BareMetal.Buddy.Runs

/-!
# The allocator after its boot

`page_init` reserves address ranges: the kernel, the stacks, the initial ram disk. From then on
blocks are allocated and freed, and their owners store to them. Nothing of this reaches a
reserved frame.

A call that reads past the end of the table is a fault, so nothing is said of what lies there.

## Main results

* `pageInit_ok` — what `page_init` leaves, with the memory of the reserved frames as it was
* `UseStep.booted` — every call and every store keeps the promise of the reservations
* `Run.reserved_intact` — after every run the reserved frames and the blocks in use are apart
-/

namespace BareMetal.Buddy

open CS Math Math.Block

variable {n : ℕ} {k k' : Allocator} {b : Block} {ranges : List AddrRange}

/-! ## The memory during the boot -/

theorem halve_mem (head : ℕ) (k : Allocator) : (halve head k).mem = k.mem := by
  simp only [halve, Allocator.setStatus_mem, Allocator.setIndex_mem]

theorem reserveBlock_mem (head : ℕ) (k : Allocator) : (reserveBlock head k).mem = k.mem := by
  simp only [reserveBlock, Allocator.markFrames_mem, Allocator.setStatus_mem]

theorem splitLeft_mem {fuel startIndex head : ℕ} {r : ℕ × Allocator}
    (run : splitLeft startIndex fuel head k = .ok r) : r.2.mem = k.mem := by
  induction fuel generalizing head k with
  | zero => simp [splitLeft] at run
  | succ fuel ih =>
    rw [splitLeft] at run
    dsimp only at run
    split_ifs at run
    · rw [ih run, halve_mem]
    · rw [ih run, halve_mem]
    · rw [← Except.ok.inj run]

theorem takeMiddle_mem {fuel endIndex head : ℕ} {r : ℕ × Allocator}
    (run : takeMiddle endIndex fuel head k = .ok r) : r.2.mem = k.mem := by
  induction fuel generalizing head k with
  | zero => simp [takeMiddle] at run
  | succ fuel ih =>
    rw [takeMiddle] at run
    split_ifs at run
    · rw [ih run, reserveBlock_mem]
    · rw [← Except.ok.inj run]

theorem splitRight_mem {fuel endIndex head : ℕ} {r : ℕ × Allocator}
    (run : splitRight endIndex fuel head k = .ok r) : r.2.mem = k.mem := by
  induction fuel generalizing head k with
  | zero => simp [splitRight] at run
  | succ fuel ih =>
    rw [splitRight] at run
    dsimp only at run
    split_ifs at run
    · rw [ih run, reserveBlock_mem, halve_mem]
    · rw [ih run, halve_mem]
    · rw [← Except.ok.inj run]

theorem memoryReserve_mem {fuel start stop : ℕ} (run : memoryReserve fuel start stop k = .ok k') :
    k'.mem = k.mem := by
  obtain ⟨_, -, run⟩ := outcome_bind_eq_ok.mp run
  obtain ⟨_, -, run⟩ := outcome_bind_eq_ok.mp run
  obtain ⟨_, -, run⟩ := outcome_bind_eq_ok.mp run
  obtain ⟨_, left, run⟩ := outcome_bind_eq_ok.mp run
  obtain ⟨_, middle, run⟩ := outcome_bind_eq_ok.mp run
  obtain ⟨_, right, run⟩ := outcome_bind_eq_ok.mp run
  rw [← Except.ok.inj run, reserveBlock_mem, splitRight_mem right, takeMiddle_mem middle,
    splitLeft_mem left]

theorem clearFrames_mem (k : Allocator) (first count : ℕ) :
    (clearFrames k first count).mem = k.mem := by
  induction count with
  | zero => rfl
  | succ count ih => rw [clearFrames, Allocator.setStatus_mem, Allocator.setIndex_mem, ih]

theorem initTable_mem {fuel head : ℕ} {nonInit : ℤ}
    (run : initTable n fuel head nonInit k = .ok k') : k'.mem = k.mem := by
  induction fuel generalizing head nonInit k with
  | zero => simp [initTable] at run
  | succ fuel ih =>
    rw [initTable] at run
    split_ifs at run
    · obtain ⟨order, -, run⟩ := outcome_bind_eq_ok.mp run
      obtain ⟨_, -, run⟩ := outcome_bind_eq_ok.mp run
      rw [ih run, clearFrames_mem, Allocator.setStatus_mem, Allocator.setIndex_mem]
    · rw [← Except.ok.inj run]

theorem reserveAll_mem {fuel : ℕ} (run : reserveAll fuel ranges k = .ok k') : k'.mem = k.mem := by
  induction ranges generalizing k with
  | nil => rw [← Except.ok.inj run]
  | cons r rest ih =>
    obtain ⟨k₁, call, run⟩ := outcome_bind_eq_ok.mp run
    rw [ih run, memoryReserve_mem call]

theorem reserveTable_mem {fuel : ℕ} (run : reserveTable n fuel ranges k = .ok k') :
    k'.mem = k.mem := by
  obtain ⟨k₁, table, run⟩ := outcome_bind_eq_ok.mp run
  rw [reserveAll_mem run, initTable_mem table]

variable {lists : ℕ → List ℕ} {head l : ℕ}

/-- A round of the last loop writes to free frames only. -/
theorem Filled.addFree_writes (filled : Filled n head k lists) (part : Partitioned n k)
    (mem : ⟨head, l⟩ ∈ blocks n k.frame) (run : addFree n head k = .ok k') :
    ItemWrites (freeFrames n k) k.mem k'.mem := by
  rw [addFree] at run
  split_ifs at run with zero
  · obtain ⟨-, -, run⟩ := outcome_bind_eq_ok.mp run
    obtain ⟨-, -, run⟩ := outcome_bind_eq_ok.mp run
    obtain ⟨-, -, run⟩ := outcome_bind_eq_ok.mp run
    rw [← Except.ok.inj run]
    have bound : l ≤ 16 := part.family.level_le _ mem
    refine ItemWrites.addPageItem ⟨⟨head, l⟩, ⟨mem, zero⟩, head_mem_cells _⟩ fun j first => ?_
    have level : (k.frame head).index = (l : ℤ) := mem.2
    rw [level] at first
    obtain ⟨tail, list, -⟩ := (first ▸ (filled.freeLists.linked l bound).linked :
      Linked _ (some j) _).exists_cons
    have listed : j ∈ lists l := by simp [list]
    exact ⟨⟨j, l⟩, ((filled.listed j l).mp listed).2, head_mem_cells _⟩
  · rw [← Except.ok.inj run]
    exact ItemWrites.refl _ _

/-- The last loop writes to free frames only. -/
theorem fillLists_writes {fuel : ℕ} {nonInit : ℤ} (part : Partitioned n k)
    (fits : ∀ b ∈ freeBlocks n k.frame, Addressable b.head) (start : AtHead n head k)
    (filled : Filled n head k lists) (run : fillLists n fuel head nonInit k = .ok k') :
    ItemWrites (freeFrames n k) k.mem k'.mem := by
  induction fuel generalizing head nonInit k lists with
  | zero => simp [fillLists] at run
  | succ fuel ih =>
    rw [fillLists] at run
    rcases start with rfl | ⟨l, mem⟩
    · rw [if_neg (lt_irrefl _)] at run
      rw [← Except.ok.inj run]
      exact ItemWrites.refl _ _
    rw [if_pos mem.1] at run
    obtain ⟨k₁, lists₁, added, frame₁, filled₁⟩ :=
      filled.round part mem fun zero => fits ⟨head, l⟩ ⟨mem, zero⟩
    rw [added, outcome_bind_ok] at run
    obtain ⟨order, -, run⟩ := outcome_bind_eq_ok.mp run
    have level : (k.frame head).index = (l : ℤ) := mem.2
    have start₁ : AtHead n (head + 2 ^ l) k₁ := by
      rw [AtHead, frame₁]
      exact part.atHead_next mem
    rw [frame₁, level, power2_eq, Int.toNat_natCast] at run
    have rest := ih (part.congr frame₁) (by rwa [frame₁]) start₁ filled₁ run
    rw [freeFrames, frame₁] at rest
    exact (filled.addFree_writes part mem added).trans rest

/-- **What `page_init` leaves**: lists of the free heads, the frames of the ranges in used
blocks, and their memory as it was. -/
theorem pageInit_ok (small : n < 2 ^ 30) (fitting : Fitting n ranges)
    (spared : Spared n ranges k)
    (fits : ∀ k', Returns (fun fuel => reserveTable n fuel ranges k) k' →
      ∀ b ∈ freeBlocks n k'.frame, Addressable b.head)
    (empty : ∀ l : ℕ, l ≤ 16 → k.pageList l = none) :
    ∃ k', Returns (fun fuel => pageInit n fuel ranges k) k' ∧ WellFormed n (clip n k') ∧
      covered (usedBlocks n k'.frame) = reservedFrames ranges ∧
      ∀ x, x / 0x1000 ∈ reservedFrames ranges → k'.mem x = k.mem x := by
  obtain ⟨k₁, front, reserved, pages⟩ := reserveTable_ok small fitting spared
  have none_yet : Filled n 0 k₁ fun _ => [] := by
    refine ⟨⟨fun l bound => ?_, by simp, by simp, fun _ _ => rfl⟩, by simp⟩
    rw [pages, empty l bound]
    exact ⟨rfl, List.isChain_nil⟩
  have fits₁ := fits k₁ front
  obtain ⟨k', lists, run, frame, filled⟩ := fillLists_ok reserved.part small fits₁
    reserved.part.atHead_zero none_yet (show -((0 : ℕ) : ℤ) ≤ (n : ℤ) by omega) (by omega)
    (show n - 0 < n + 1 by omega)
  have part : Partitioned n k' := reserved.part.congr frame
  have writes := fillLists_writes reserved.part fits₁ reserved.part.atHead_zero none_yet run
  obtain ⟨f, front⟩ := front
  refine ⟨k', ⟨max f (n + 1), ?_⟩, ⟨lists, part.table, ?_, fun i l => ?_⟩, ?_, fun x inside => ?_⟩
  · dsimp only
    rw [pageInit, (reserveTable_mono n ranges k).of_le (le_max_left f (n + 1)) front,
      outcome_bind_ok]
    exact (fillLists_mono n 0 n k₁).of_le (le_max_right f (n + 1)) run
  · exact ⟨filled.freeLists.linked, filled.freeLists.self, filled.freeLists.apart,
      filled.freeLists.top⟩
  · rw [filled.listed, freeBlocks_clip]
    exact ⟨fun listed => listed.2, fun free => ⟨free.1.1, free⟩⟩
  · rw [frame, reserved.used]
  · rw [writes.eq_of_outside (.inl ?_), reserveTable_mem front]
    rw [freeFrames, reserved.part.covered_free, reserved.used]
    exact fun free => free.2 inside

/-! ## Calls and stores -/

/-- A call of the allocator, or a store by the owner of a block. -/
inductive Use
  | call (c : Call)
  | store (mem : Memory)

/-- One call that returns from within its tables, or one store. -/
inductive UseStep (n : ℕ) : Holding → Use → Holding → Prop
  | allocate {s : Holding} {size : ℕ} {result : ℤ} {k' : Allocator}
      (returns : Returns (fun fuel => checkedPageAllocate n fuel size s.k) (result, k')) :
      UseStep n s (.call (.allocate size result))
        ⟨k', if result < 0 then s.live else insert (blockAt k'.frame result.toNat) s.live, s.held⟩
  | free {s : Holding} {b : Block} {k' : Allocator} (allocated : b ∈ s.live ∪ s.held)
      (returns : Returns (fun fuel => checkedPageFree n fuel b.head s.k) k') :
      UseStep n s (.call (.free b.head)) ⟨k', s.live \ {b}, s.held \ {b}⟩
  | store {s : Holding} {mem : Memory}
      (own : ∀ x, mem x ≠ s.k.mem x → ∃ b ∈ s.live ∪ s.held, x / 0x1000 ∈ b.cells) :
      UseStep n s (.store mem) ⟨{ s.k with mem := mem }, s.live, s.held⟩

/-- The state with other frames past the end of the table. -/
def clipped (n : ℕ) (s : Holding) : Holding := ⟨clip n s.k, s.live, s.held⟩

/-- The blocks of the table are the live, the held and the reserved ones and the free ones, and
the memory of the reserved blocks is `mem`. -/
structure Booted (n : ℕ) (reserved : Set Block) (mem : Memory) (s : Holding) : Prop where
  consistent : Consistent n reserved (clipped n s)
  intact : ∀ x, x / 0x1000 ∈ covered reserved → s.k.mem x = mem x

variable {reserved : Set Block} {mem : Memory} {s t : Holding}

/-- A request that returns from within its tables is for `2 ^ 16` pages at most. -/
theorem small_of_checked {fuel size : ℕ} {result : ℤ × Allocator}
    (returns : checkedPageAllocate n fuel size k = .ok result) : pagesLessOne size < 2 ^ 16 := by
  by_contra large
  rcases lt_or_ge (pagesLessOne size) (2 ^ 30) with narrow | wide
  · rw [checkedPageAllocate, pageLevel_of_ge (not_lt.mp large) narrow, outcome_bind_ok] at returns
    cases returns
  · rw [checkedPageAllocate, pageLevel_diverges wide, outcome_bind_error] at returns
    cases returns

/-- A call that returns from within its tables is a call in range on the clipped state. -/
theorem UseStep.clipped {call : Call} (inv : Consistent n reserved (clipped n s))
    (step : UseStep n s (.call call) t) :
    ∃ call', Step (Buddy.clipped n s) call' (Buddy.clipped n t) := by
  cases step with
  | @allocate size result k' returns =>
    obtain ⟨fuel, run⟩ := returns
    dsimp only at run
    have checked : checkedPageAllocate n fuel size (clip n s.k) = .ok (result, clip n k') := by
      rw [checkedPageAllocate_clip, run]
      rfl
    have same := (checkedPageAllocate_checks n fuel size (clip n s.k)).eq (by rw [checked]; simp)
    obtain ⟨size', positive, large, level⟩ := pageLevel_in_range (small_of_checked checked)
    have exactly : pageAllocate fuel size' (clip n s.k) = .ok (result, clip n k') := by
      rw [pageAllocate, ← level]
      exact same.symm.trans checked
    have step : Step (Buddy.clipped n s) (.allocate size' result) _ :=
      .allocate positive large ⟨fuel, exactly⟩
    refine ⟨.allocate size' result, ?_⟩
    obtain ⟨-, ⟨refused, -⟩ | ⟨i, rfl, effect, -, -⟩⟩ := inv.allocate_effect step
    · subst refused
      exact step
    · -- the block that was taken lies in the table
      have inside : i < n := effect.taken.1.1
      have shown : blockAt (clip n k').frame i = blockAt k'.frame i := by
        rw [blockAt, blockAt, clip_frame inside]
      rw [Int.toNat_natCast, shown] at step
      exact step
  | @free b k' allocated returns =>
    obtain ⟨fuel, run⟩ := returns
    dsimp only at run
    have checked : checkedPageFree n fuel b.head (clip n s.k) = .ok (clip n k') := by
      rw [checkedPageFree_clip, run]
      rfl
    have same := (checkedPageFree_checks n fuel b.head (clip n s.k)).eq (by rw [checked]; simp)
    exact ⟨_, .free allocated ⟨fuel, same.symm.trans checked⟩⟩

/-- Frames of reserved blocks are in no other block in use. -/
theorem Consistent.not_reserved (inv : Consistent n reserved s) (inuse : b ∈ s.live ∪ s.held)
    {x : ℕ} (inb : x ∈ b.cells) : x ∉ covered reserved := by
  rintro ⟨c, kept, inc⟩
  have used : b ∈ usedBlocks n s.k.frame := by
    rw [inv.used]
    exact .inl inuse
  have used' : c ∈ usedBlocks n s.k.frame := by
    rw [inv.used]
    exact .inr kept
  obtain rfl := inv.wellFormed.decomposition.disjoint b used.1 c used'.1 x inb inc
  exact inv.apart b kept inuse

/-- Frames of reserved blocks are not free. -/
theorem Consistent.not_free (inv : Consistent n reserved s) {x : ℕ} (kept : x ∈ covered reserved) :
    x ∉ freeFrames n s.k := by
  rintro ⟨c, free, inc⟩
  obtain ⟨b, mem, inb⟩ := kept
  have used : b ∈ usedBlocks n s.k.frame := by
    rw [inv.used]
    exact .inr mem
  exact inv.wellFormed.table.free_used_disjoint free used inc inb

/-- **Every call and every store** keeps the promise of the reservations. -/
theorem UseStep.booted {use : Use} (inv : Booted n reserved mem s) (step : UseStep n s use t) :
    Booted n reserved mem t := by
  have before := inv.consistent
  cases use with
  | call c =>
    obtain ⟨call, step'⟩ := step.clipped before
    refine ⟨before.step step', fun x kept => ?_⟩
    have same : t.k.mem x = s.k.mem x := by
      cases call with
      | allocate size result =>
        obtain ⟨-, ⟨-, unchanged⟩ | ⟨i, -, effect, -⟩⟩ := before.allocate_effect step'
        · exact congrFun (congrArg (fun s => s.k.mem) unchanged) x
        · exact effect.writes.eq_of_outside (.inl (before.not_free kept))
      | free index =>
        obtain ⟨b, allocated, effect, -⟩ := before.free_effect step'
        refine effect.writes.eq_of_outside (.inl ?_)
        rintro (free | inb)
        · exact before.not_free kept free
        · exact before.not_reserved allocated inb kept
    exact same.trans (inv.intact x kept)
  | store mem' =>
    cases step with
    | store own =>
      refine ⟨before.with_mem fun x changed => ?_, fun x kept => ?_⟩
      · obtain ⟨b, inuse, inb⟩ := own x changed
        exact ⟨b, .inl inuse, inb⟩
      · by_contra changed
        have moved : mem' x ≠ s.k.mem x := fun same => changed (same.trans (inv.intact x kept))
        obtain ⟨b, inuse, inb⟩ := own x moved
        exact before.not_reserved inuse inb kept

/-! ## Runs -/

/-- What reserving `ranges` promises of a state: their memory is as it was, blocks in use are
aligned and lie apart from them and from each other, and all else is free. -/
structure Guards (n : ℕ) (ranges : List AddrRange) (mem : Memory) (s : Holding) : Prop where
  intact : ∀ x, x / 0x1000 ∈ reservedFrames ranges → s.k.mem x = mem x
  aligned : ∀ b ∈ s.live, b.Aligned
  apart : ∀ b ∈ s.live, Disjoint b.cells (reservedFrames ranges)
  disjoint : ∀ b ∈ s.live, ∀ c ∈ s.live, b ≠ c → Disjoint b.cells c.cells
  rest : covered (freeBlocks n s.k.frame) = Set.Iio n \ (reservedFrames ranges ∪ covered s.live)

theorem Booted.promise (inv : Booted n reserved mem s) (none : s.held = ∅)
    (frames : covered reserved = reservedFrames ranges) : Guards n ranges mem s := by
  have before := inv.consistent
  have blocks_used : usedBlocks n (clip n s.k).frame = s.live ∪ s.held ∪ reserved := before.used
  have used : ∀ b ∈ s.live, b ∈ usedBlocks n (clip n s.k).frame := fun b live =>
    blocks_used ▸ .inl (.inl live)
  refine ⟨fun x kept => inv.intact x (frames ▸ kept), fun b live => ?_, fun b live => ?_,
    fun b live c live' other => ?_, ?_⟩
  · exact before.wellFormed.decomposition.aligned b (used b live).1
  · rw [← frames]
    exact Set.disjoint_left.mpr fun x inb kept => before.not_reserved (.inl live) inb kept
  · refine Set.disjoint_left.mpr fun x inb inc => other ?_
    exact before.wellFormed.decomposition.disjoint b (used b live).1 c (used c live').1 x inb inc
  · have free : covered (freeBlocks n (clip n s.k).frame) =
        Set.Iio n \ covered (usedBlocks n (clip n s.k).frame) :=
      before.wellFormed.table.covered_free
    rw [← freeBlocks_clip, free, blocks_used, none, Set.union_empty, covered_union, frames,
      Set.union_comm]

/-- Nothing is held from before the boot. -/
theorem UseStep.held_empty {use : Use} (step : UseStep n s use t) (none : s.held = ∅) :
    t.held = ∅ := by
  cases step with
  | allocate => exact none
  | free => exact Set.subset_eq_empty Set.sdiff_subset none
  | store => exact none

/-- **The reservations hold.** After `page_init` has returned, no sequence of calls and stores
reaches a reserved frame. -/
theorem Run.reserved_intact (small : n < 2 ^ 30) (fitting : Fitting n ranges)
    (spared : Spared n ranges k)
    (fits : ∀ k', Returns (fun fuel => reserveTable n fuel ranges k) k' →
      ∀ b ∈ freeBlocks n k'.frame, Addressable b.head)
    (empty : ∀ l : ℕ, l ≤ 16 → k.pageList l = none) :
    ∃ k', Returns (fun fuel => pageInit n fuel ranges k) k' ∧
      ∀ w t, Run (UseStep n) ⟨k', ∅, ∅⟩ w t → Guards n ranges k.mem t := by
  obtain ⟨k', returns, wf, frames, intact⟩ := pageInit_ok small fitting spared fits empty
  have start : Booted n (usedBlocks n k'.frame) k.mem ⟨k', ∅, ∅⟩ := by
    refine ⟨⟨wf, ?_, by simp [clipped]⟩, fun x kept => intact x (frames ▸ kept)⟩
    change usedBlocks n (clip n k').frame = ∅ ∪ ∅ ∪ usedBlocks n k'.frame
    rw [usedBlocks_clip, Set.empty_union, Set.empty_union]
  refine ⟨k', returns, fun w t run => ?_⟩
  obtain ⟨inv, none⟩ := run.preserves
    (fun s => Booted n (usedBlocks n k'.frame) k.mem s ∧ s.held = ∅)
    (fun _ _ _ before step => ⟨step.booted before.1, step.held_empty before.2⟩) ⟨start, rfl⟩
  exact inv.promise none frames

/-- Frame 1. -/
def frameOne : AddrRange := ⟨0x1000, 0x1fff, by decide⟩

/-- `Run.reserved_intact` for a table of four frames with frame 1 reserved. -/
theorem fourFrames_intact :
    ∃ k', Returns (fun fuel => pageInit 4 fuel [frameOne] blank) k' ∧
      ∀ w t, Run (UseStep 4) ⟨k', ∅, ∅⟩ w t →
        Guards 4 [frameOne] blank.mem t := by
  refine Run.reserved_intact (by decide) ⟨?_, List.pairwise_singleton _ _⟩ ?_ ?_ fun _ _ => rfl
  · intro r member
    obtain rfl := List.mem_singleton.mp member
    decide
  · -- a range of one frame is always spared
    have single : Spared 4 ([] ++ [frameOne]) blank :=
      spared_snoc.mpr ⟨fun done r front => by simp at front, fun _ _ => .inl rfl⟩
    exact single
  · intro k' _ b free
    have inside : b.head < 4 := free.1.1
    unfold Addressable
    omega

end BareMetal.Buddy
