import BareMetal.CS.Heap
import BareMetal.Pool.Enough
import BareMetal.Pool.Free

/-!
# Sequences of `malloc_` and `free`

A `Chunks` is the pool together with the chunks in use, each with its class. In between the
calls their owners store to their chunks, and others to the blocks `others` of the page
allocator that never belong to the pool.

## Main results

* `ChunkStep.shows` — every step keeps the pool in order
* `Run.chunks_apart` — chunks in use never overlap, and a page goes back with its last chunk
-/

namespace BareMetal.Pool

open CS Buddy Math Math.Block

variable {others : Set Block} {s s' : Pools} {pages pages' : List Page} {page : Page} {mem : Memory}
  {p q x cls size fuel : ℕ}

/-- The bytes of a chunk of class `size` at `p`. -/
def chunkAt (p size : ℕ) : Set ℕ := Set.Ico p (p + chunkSize size)

/-! ## States and steps -/

/-- The pool and the class of each chunk in use. -/
structure Chunks where
  pools : Pools
  live : Heap ℕ

/-- What happens in a step. -/
inductive ChunkEvent
  | malloc (size p : ℕ)
  | free (p : ℕ)
  | store
deriving DecidableEq, Repr

/-- The byte belongs to a chunk in use, or to a block that is never in the pool. -/
def Chunks.Owned (others : Set Block) (s : Chunks) (x : ℕ) : Prop :=
  (∃ p size, s.live p = some size ∧ x ∈ chunkAt p size) ∨ ∃ b ∈ others, x / 0x1000 ∈ b.cells

/-- A call of `malloc_` or of `free` that returns, or stores of the owners. -/
inductive ChunkStep (others : Set Block) : Chunks → ChunkEvent → Chunks → Prop
  | malloc {s : Chunks} {size p cls : ℕ} {pools : Pools} (hasClass : classOf size = .ok cls)
      (returns : Returns (fun fuel => malloc fuel size s.pools) (p, pools)) :
      ChunkStep others s (.malloc size p) ⟨pools, s.live.alloc p cls⟩
  | free {s : Chunks} {p : ℕ} {pools : Pools} (live : (s.live p).isSome)
      (returns : Returns (fun fuel => free fuel p s.pools) pools) :
      ChunkStep others s (.free p) ⟨pools, s.live.free p⟩
  | store {s : Chunks} {mem : Memory}
      (own : ∀ x, mem x ≠ s.pools.k.mem x → s.Owned others x) :
      ChunkStep others s .store ⟨s.pools.setMem mem, s.live⟩

/-- The pool is empty, and of the blocks in use one starts at frame 0. -/
structure Booted (others : Set Block) (s : Chunks) : Prop where
  empty : s.pools.pool = none
  none_live : ∀ p, s.live p = none
  buddy : Consistent pageMaxEntry others ⟨s.pools.k, ∅, ∅⟩
  zero : ∃ b ∈ others, 0 ∈ b.cells

/-- The pool is in order and has exactly the chunks in use. -/
structure Shows (others : Set Block) (s : Chunks) (pages : List Page) : Prop where
  ok : PoolOk others s.pools pages
  live : ∀ p size, s.live p = some size ↔ Live pages p size

/-! ## `malloc_` -/

/-- What `malloc_` does to the pool. -/
structure TakeEffect (others : Set Block) (s s' : Pools) (pages pages' : List Page) (p cls : ℕ) :
    Prop where
  ok : PoolOk others s' pages'
  fresh : ∀ size, ¬ Live pages p size
  live : ∀ q size, Live pages' q size ↔ q = p ∧ size = cls ∨ Live pages q size
  kept : ∀ q size, Live pages q size → ∀ x ∈ chunkAt q size, s'.k.mem x = s.k.mem x
  used : usedBlocks pageMaxEntry s.k.frame ⊆ usedBlocks pageMaxEntry s'.k.frame

namespace PoolOk

/-- A free slot is marked as taken. -/
theorem take {before after : List Page} {i : ℕ} (inv : PoolOk others s (before ++ page :: after))
    (slot : i < totalFor page.size) (free : i ∉ page.slots) :
    PoolOk others (s.setMem (mark s.k.mem page.frame (page.slots.card + 1) i 1))
      (before ++ page.take i slot :: after) := by
  have ok := inv.ok page (mem_middle.mpr (.inl rfl))
  have card : page.slots.card + 1 = (page.take i slot).slots.card :=
    (Finset.card_insert_of_notMem free).symm
  refine inv.replace (fun x => Page.mark_writes slot) (Page.headerNext_mark slot) ?_ rfl rfl
  refine ok.mark slot rfl rfl card fun j hj => ?_
  rw [Page.mem_take]
  by_cases same : j = i <;> simp [same]

/-- A slot of a page in the pool gets used. -/
theorem take_effect {before after : List Page} {i : ℕ}
    (inv : PoolOk others s (before ++ page :: after)) (slot : i < totalFor page.size)
    (free : i ∉ page.slots) :
    TakeEffect others s (s.setMem (mark s.k.mem page.frame (page.slots.card + 1) i 1))
      (before ++ page :: after) (before ++ page.take i slot :: after) (page.addr i) page.size := by
  have after_take := inv.take slot free
  have listed : page ∈ before ++ page :: after := mem_middle.mpr (.inl rfl)
  have listed' : page.take i slot ∈ before ++ page.take i slot :: after := mem_middle.mpr (.inl rfl)
  refine ⟨after_take, ?_, fun q size => ?_, ?_, subset_rfl⟩
  · -- a chunk at this address is this slot of this page, which was free
    rintro size ⟨other, here, -, j, taken, equal⟩
    by_cases own : other = page
    · subst own
      have both : j ∈ (other.take i slot).slots := Page.mem_take.mpr (.inr taken)
      have first : i ∈ (other.take i slot).slots := Page.mem_take.mpr (.inl rfl)
      obtain ⟨-, rfl⟩ := after_take.addr_unique listed' listed' first both equal.symm
      exact free taken
    · have there : other ∈ before ++ page.take i slot :: after := mem_replace here own
      have first : i ∈ (page.take i slot).slots := Page.mem_take.mpr (.inl rfl)
      obtain ⟨same, -⟩ := after_take.addr_unique listed' there first taken equal.symm
      have frame : other.frame = (page.take i slot).frame := congrArg Page.frame same
      exact own (inv.page_unique_frame listed here frame)
  · constructor
    · rintro ⟨other, here, rfl, j, taken, rfl⟩
      by_cases own : other = page.take i slot
      · subst own
        rcases Page.mem_take.mp taken with rfl | taken
        · exact .inl ⟨rfl, rfl⟩
        · exact .inr ⟨page, listed, rfl, j, taken, rfl⟩
      · exact .inr ⟨other, mem_replace here own, rfl, j, taken, rfl⟩
    · -- the new chunk, and those from before
      rintro (⟨rfl, rfl⟩ | ⟨other, here, rfl, j, taken, rfl⟩)
      · exact ⟨_, listed', rfl, i, Page.mem_take.mpr (.inl rfl), rfl⟩
      · by_cases own : other = page
        · subst own
          exact ⟨_, listed', rfl, j, Page.mem_take.mpr (.inr taken), rfl⟩
        · exact ⟨other, mem_replace here own, rfl, j, taken, rfl⟩
  · -- the marks are in the header of the page
    rintro q size ⟨other, here, rfl, j, taken, rfl⟩ x inside
    exact inv.chunk_kept listed (fun x => Page.mark_writes slot) here taken inside

/-- The first slot of a new page gets used. -/
theorem open_effect (inv : PoolOk others s pages) (isClass : PoolClass cls)
    (run : Pool.openPage fuel cls s = .ok (p, s')) :
    ∃ pages', TakeEffect others s s' pages pages' p cls := by
  obtain ⟨frame, opened, rfl, kept, used⟩ := inv.openPage isClass run
  refine ⟨_, opened, ?_, fun q size => ?_, ?_, used⟩
  · rintro size ⟨other, here, -, j, taken, equal⟩
    obtain ⟨rfl, -⟩ := opened.addr_unique List.mem_cons_self (List.mem_cons_of_mem _ here)
      (Finset.mem_singleton_self 0) taken equal.symm
    have distinct := opened.linked.nodup
    exact (List.nodup_cons.mp distinct).1 (List.mem_map_of_mem here)
  · constructor
    · rintro ⟨other, here, rfl, j, taken, rfl⟩
      rcases List.mem_cons.mp here with rfl | here
      · obtain rfl := Finset.mem_singleton.mp taken
        exact .inl ⟨rfl, rfl⟩
      · exact .inr ⟨other, here, rfl, j, taken, rfl⟩
    · rintro (⟨rfl, rfl⟩ | ⟨other, here, rfl, j, taken, rfl⟩)
      · exact ⟨_, List.mem_cons_self, rfl, 0, Finset.mem_singleton_self 0, rfl⟩
      · exact ⟨other, List.mem_cons_of_mem _ here, rfl, j, taken, rfl⟩
  · rintro q size ⟨other, here, rfl, j, taken, rfl⟩ x inside
    exact kept other here x (other.chunk_bounds inside (other.bounded j taken)).2

/-- Every return of `malloc_` hands out a chunk that was not in use. -/
theorem malloc (inv : PoolOk others s pages) (run : Pool.malloc fuel size s = .ok (p, s')) :
    ∃ cls pages', classOf size = .ok cls ∧ TakeEffect others s s' pages pages' p cls := by
  obtain ⟨cls, cls_run, run⟩ := outcome_bind_eq_ok.mp run
  obtain ⟨⟨found, mem⟩, search, run⟩ := outcome_bind_eq_ok.mp run
  have isClass := classOf_poolClass cls_run
  have result := searchPools_returns isClass inv.linked inv.ok search
  cases result with
  | none full =>
    obtain ⟨pages', effect⟩ := inv.open_effect isClass run
    exact ⟨cls, pages', cls_run, effect⟩
  | @found before after page i split same slot free =>
    subst split same
    obtain ⟨rfl, rfl⟩ := Prod.mk.inj (Except.ok.inj run)
    exact ⟨_, _, cls_run, inv.take_effect slot free⟩

/-! ## Stores of the owners -/

/-- Bytes with an owner are no headers or marks. -/
theorem not_info_of_chunk (inv : PoolOk others s pages) (live : Live pages p size)
    (inside : x ∈ chunkAt p size) (listed : page ∈ pages) : x ∉ page.info := by
  obtain ⟨other, here, rfl, j, taken, rfl⟩ := live
  obtain ⟨outside, block⟩ := other.chunk_bounds inside (other.bounded j taken)
  intro info
  obtain rfl := inv.page_unique listed here (Page.info_block info) block
  exact outside info

theorem not_info_of_others (inv : PoolOk others s pages) {b : Block} (reserved : b ∈ others)
    (inside : x / 0x1000 ∈ b.cells) (listed : page ∈ pages) : x ∉ page.info := by
  intro info
  have used : b ∈ usedBlocks pageMaxEntry s.k.frame := by
    rw [inv.buddy.used]
    exact .inr reserved
  have same : page.block = b := inv.buddy.wellFormed.decomposition.disjoint _ (inv.used listed).1 _
    used.1 _ (Page.info_block info) inside
  exact inv.buddy.apart b reserved (.inl (List.mem_map.mpr ⟨page, listed, same⟩))

end PoolOk

/-- The stores of the owners keep the pool in order. -/
theorem Shows.store {t : Chunks} (shows : Shows others t pages)
    (own : ∀ x, mem x ≠ t.pools.k.mem x → t.Owned others x) :
    Shows others ⟨t.pools.setMem mem, t.live⟩ pages := by
  have inv := shows.ok
  have agree : ∀ page ∈ pages, ∀ x ∈ page.info, mem x = t.pools.k.mem x := by
    intro page listed x info
    by_contra changed
    rcases own x changed with ⟨p, size, live, inside⟩ | ⟨b, reserved, inside⟩
    · exact inv.not_info_of_chunk ((shows.live p size).mp live) inside listed info
    · exact inv.not_info_of_others reserved inside listed info
  refine ⟨⟨?_, fun page listed => (inv.ok page listed).congr (agree page listed), ?_, inv.zero⟩,
    shows.live⟩
  · refine inv.linked.congr fun f in_frames => ?_
    obtain ⟨page, listed, rfl⟩ := List.mem_map.mp in_frames
    exact Page.headerNext_congr (agree page listed)
  · refine inv.buddy.with_mem fun x changed => ?_
    rcases own x changed with ⟨p, size, live, inside⟩ | ⟨b, reserved, inside⟩
    · obtain ⟨page, listed, rfl, j, taken, rfl⟩ := (shows.live p size).mp live
      refine ⟨page.block, .inl (.inl (List.mem_map_of_mem listed)), ?_⟩
      exact (page.chunk_bounds inside (page.bounded j taken)).2
    · exact ⟨b, .inr reserved, inside⟩

/-! ## Steps and runs -/

variable {s₀ t u : Chunks} {e : ChunkEvent} {w : List ChunkEvent}

theorem Booted.shows (boot : Booted others t) : Shows others t [] := by
  have none_listed : {b : Block | b ∈ ([] : List Page).map Page.block} = ∅ := by simp
  refine ⟨⟨boot.empty, by simp, ?_, boot.zero⟩, fun p size => ?_⟩
  · rw [none_listed]
    exact boot.buddy
  · simp [boot.none_live, Live]

theorem Shows.malloc {pools : Pools} (shows : Shows others t pages)
    (hasClass : classOf size = .ok cls) (run : malloc fuel size t.pools = .ok (p, pools)) :
    ∃ pages', TakeEffect others t.pools pools pages pages' p cls ∧
      Shows others ⟨pools, t.live.alloc p cls⟩ pages' := by
  obtain ⟨cls', pages', cls_run, effect⟩ := shows.ok.malloc run
  obtain rfl : cls = cls' := Except.ok.inj (hasClass.symm.trans cls_run)
  refine ⟨pages', effect, effect.ok, fun q size => ?_⟩
  rw [effect.live]
  change t.live.alloc p cls q = some size ↔ _
  by_cases same : q = p
  · subst same
    have fresh := effect.fresh size
    rw [Heap.alloc_self, Option.some.injEq]
    simp [fresh, eq_comm]
  · rw [Heap.alloc_of_ne same, shows.live]
    simp [same]

theorem Shows.free {pools : Pools} (shows : Shows others t pages) (live : (t.live p).isSome)
    (run : free fuel p t.pools = .ok pools) :
    ∃ page ∈ pages, ∃ i ∈ page.slots, p = page.addr i ∧ ∃ pages',
      GiveEffect others t.pools pools pages pages' page i ∧
        Shows others ⟨pools, t.live.free p⟩ pages' := by
  obtain ⟨size, here⟩ := Option.isSome_iff_exists.mp live
  obtain ⟨page, listed, rfl, i, slot, rfl⟩ := (shows.live p size).mp here
  obtain ⟨before, after, rfl⟩ := List.append_of_mem listed
  obtain ⟨pages', effect⟩ := shows.ok.free slot run
  refine ⟨page, listed, i, slot, rfl, pages', effect, effect.ok, fun q size => ?_⟩
  rw [effect.live]
  change t.live.free (page.addr i) q = some size ↔ _
  by_cases same : q = page.addr i
  · subst same
    simp [Heap.free_self]
  · rw [Heap.free_of_ne same, shows.live]
    simp [same]

/-- Every step keeps the pool in order. -/
theorem ChunkStep.shows (step : ChunkStep others t e u) (shows : Shows others t pages) :
    ∃ pages', Shows others u pages' := by
  cases step with
  | malloc hasClass returns =>
    obtain ⟨fuel, run⟩ := returns
    obtain ⟨pages', -, shows'⟩ := shows.malloc hasClass run
    exact ⟨pages', shows'⟩
  | free live returns =>
    obtain ⟨fuel, run⟩ := returns
    obtain ⟨-, -, -, -, -, pages', -, shows'⟩ := shows.free live run
    exact ⟨pages', shows'⟩
  | store own => exact ⟨pages, shows.store own⟩

theorem Run.shows (run : Run (ChunkStep others) s₀ w t) (boot : Booted others s₀) :
    ∃ pages, Shows others t pages :=
  run.preserves (fun t => ∃ pages, Shows others t pages)
    (fun _ _ _ ⟨_, shows⟩ step => step.shows shows) ⟨[], boot.shows⟩

/-! ## Free pages -/

/-- At least `m` free blocks are single pages. -/
def Supplied (m : ℕ) (k : Allocator) : Prop :=
  ∃ heads : Finset ℕ, m ≤ heads.card ∧ ∀ i ∈ heads, ⟨i, 0⟩ ∈ freeBlocks pageMaxEntry k.frame

/-- A request that takes a page at most is served, and all free pages but one are left. -/
theorem Shows.malloc_supplied {m : ℕ} (shows : Shows others t pages)
    (hasClass : classOf size = .ok cls) (single : levelFor cls = 0)
    (supply : Supplied (m + 1) t.pools.k) :
    ∃ p pools, Returns (fun fuel => Pool.malloc fuel size t.pools) (p, pools) ∧
      Supplied m pools.k := by
  have inv := shows.ok
  have isClass := classOf_poolClass hasClass
  obtain ⟨heads, many, free⟩ := supply
  obtain ⟨lists, rep⟩ := inv.buddy.wellFormed
  have positive : 0 < cls ∧ cls ≤ maxRequest :=
    ⟨isClass.bounds.1, isClass.bounds.2.trans (by decide)⟩
  obtain ⟨r, search⟩ := searchPools_total isClass inv.linked inv.ok (Nat.lt_succ_self pages.length)
  have result := searchPools_returns isClass inv.linked inv.ok search
  cases result with
  | none full =>
    -- a new page: the head of the list of single pages
    obtain ⟨i, inside⟩ := Finset.card_pos.mp (Nat.lt_of_lt_of_le (Nat.succ_pos m) many)
    have listed : i ∈ lists 0 := (rep.mem_lists i 0).mpr (free i inside)
    obtain ⟨a, rest, head⟩ := List.exists_cons_of_ne_nil (List.ne_nil_of_mem listed)
    have allocated := rep.pageAllocate_cons positive.1 positive.2 (single ▸ head)
      (pages.length + 1)
    rw [single] at allocated
    obtain ⟨-, taken, -⟩ := rep.takeHead head
    have run : ∃ p pools, Pool.malloc (pages.length + 1) size t.pools = .ok (p, pools) ∧
        pools.k.frame = (takeHead 0 a t.pools.k).frame :=
      ⟨_, _, outcome_bind_eq_ok.mpr ⟨cls, hasClass, outcome_bind_eq_ok.mpr ⟨_, search,
        outcome_bind_eq_ok.mpr ⟨_, allocated, rfl⟩⟩⟩, rfl⟩
    obtain ⟨p, pools, run, frame⟩ := run
    refine ⟨p, pools, ⟨_, run⟩, heads.erase a, ?_, fun j hj => ?_⟩
    · have left := Finset.pred_card_le_card_erase (s := heads) (a := a)
      omega
    · obtain ⟨differs, inside⟩ := Finset.mem_erase.mp hj
      rw [frame, taken]
      exact ⟨free j inside, by simpa using differs⟩
  | @found before after page i split same slot unused =>
    refine ⟨_, _, ⟨_, outcome_bind_eq_ok.mpr ⟨cls, hasClass, outcome_bind_eq_ok.mpr
      ⟨_, search, rfl⟩⟩⟩, heads, by omega, free⟩

/-- A page allocator with four free pages, where one block is reserved. -/
theorem fourPages_booted : ∃ s : Chunks, Booted {⟨0, 16⟩} s ∧ Supplied 4 s.pools.k := by
  obtain ⟨k, lists, rep, free, used⟩ := upperFree_divided (l := 2) (by decide)
  obtain ⟨i, rest, head⟩ := List.exists_cons_of_ne_nil free
  obtain ⟨k₁, -, rep₁, used₁, -⟩ := rep.pageDivide_cons head
  -- a block of four pages is split three times
  have head₁ : splitLists lists i 1 rest 1 = (i + 2) :: i :: lists 1 := by simp [splitLists]
  obtain ⟨k₂, -, rep₂, used₂, -⟩ := rep₁.pageDivide_cons (l := 0) head₁
  generalize splitLists lists i 1 rest = lists₁ at rep₁ head₁ rep₂
  have head₂ : splitLists lists₁ (i + 2) 0 (i :: lists 1) 1 = i :: lists 1 := by simp [splitLists]
  have two : ∃ rest, splitLists lists₁ (i + 2) 0 (i :: lists 1) 0 = (i + 3) :: (i + 2) :: rest := by
    simp [splitLists]
  obtain ⟨k₃, -, rep₃, used₃, -⟩ := rep₂.pageDivide_cons (l := 0) head₂
  generalize splitLists lists₁ (i + 2) 0 (i :: lists 1) = lists₂ at rep₂ head₂ two rep₃
  obtain ⟨rest₂, two⟩ := two
  have four : splitLists lists₂ i 0 (lists 1) 0 = (i + 1) :: i :: (i + 3) :: (i + 2) :: rest₂ := by
    simp [splitLists, two]
  have all_used : usedBlocks 0x3c000 k₃.frame = {⟨0, 16⟩} := by
    rw [used₃, used₂, used₁, used, upperFree_consistent.used]
    simp
  refine ⟨⟨⟨k₃, none⟩, fun _ => none⟩, ⟨rfl, fun _ => rfl, ⟨⟨_, rep₃⟩, ?_, by simp⟩, ?_⟩,
    (splitLists lists₂ i 0 (lists 1) 0).toFinset, ?_, fun j hj => ?_⟩
  · rw [Set.empty_union, Set.empty_union]
    exact all_used
  · exact ⟨_, rfl, head_mem_cells _⟩
  · rw [List.toFinset_card_of_nodup (rep₃.freeLists.nodup 0), four]
    simp
  · exact (rep₃.mem_lists j 0).mp (List.mem_toFinset.mp hj)

/-! ## Where the chunks lie -/

/-- The bytes of the block that a page starts. -/
def blockAt (frame size : ℕ) : Set ℕ := Set.Ico (frame * 0x1000) (frame * 0x1000 + blockSize size)

/-- The bytes of the `pool_header` of a page. -/
def headerAddrs (frame : ℕ) : Set ℕ := Set.Ico (frame * 0x1000) (frame * 0x1000 + sizeofPoolHeader)

/-- The list of the pool has the pages with a chunk in use, once each. Chunks lie in their pages
and overlap neither each other nor a header, and `used` counts the marks. -/
structure Apart (t : Chunks) (frames : List ℕ) : Prop where
  linked : Linked (headerNext t.pools.k.mem) t.pools.pool frames
  once : frames.Nodup
  in_use : ∀ f, f ∈ frames ↔ ∃ p, (t.live p).isSome ∧ p / 0x1000 = f
  disjoint : ∀ p q size size', t.live p = some size → t.live q = some size' → p ≠ q →
    Disjoint (chunkAt p size) (chunkAt q size')
  inside : ∀ p size, t.live p = some size →
    headerSize t.pools.k.mem (p / 0x1000) = size ∧ chunkAt p size ⊆ blockAt (p / 0x1000) size ∧
      ⟨p / 0x1000, levelFor size⟩ ∈ usedBlocks pageMaxEntry t.pools.k.frame
  off_headers : ∀ p size, t.live p = some size → ∀ f ∈ frames,
    Disjoint (chunkAt p size) (headerAddrs f)
  counted : ∀ f ∈ frames, 0 < headerTotal t.pools.k.mem f →
    headerUsed t.pools.k.mem f =
      ((Finset.range (headerTotal t.pools.k.mem f)).filter
        fun i => pageInfo t.pools.k.mem f i ≠ 0).card

/-- The chunk is the last of its page. -/
def Last (t : Chunks) (p : ℕ) : Prop :=
  ∀ q, (t.live q).isSome → q / 0x1000 = p / 0x1000 → q = p

/-- `used` is the number of marks. -/
theorem Page.Ok.counted (ok : page.Ok mem) (several : 0 < totalFor page.size) :
    headerUsed mem page.frame =
      ((Finset.range (headerTotal mem page.frame)).filter
        fun i => pageInfo mem page.frame i ≠ 0).card := by
  rw [ok.used, ok.total]
  congr 1
  ext i
  rw [Finset.mem_filter, Finset.mem_range]
  constructor
  · intro taken
    have bound := page.bounded i taken
    have inside : i < totalFor page.size := by omega
    exact ⟨inside, (ok.marks i inside).mpr taken⟩
  · rintro ⟨inside, marked⟩
    exact (ok.marks i inside).mp marked

namespace Shows

theorem isSome_live (shows : Shows others t pages) :
    (t.live p).isSome ↔ ∃ page ∈ pages, ∃ i ∈ page.slots, p = page.addr i := by
  rw [Option.isSome_iff_exists]
  constructor
  · rintro ⟨size, here⟩
    obtain ⟨page, listed, -, i, slot, rfl⟩ := (shows.live p size).mp here
    exact ⟨page, listed, i, slot, rfl⟩
  · rintro ⟨page, listed, i, slot, rfl⟩
    exact ⟨page.size, (shows.live _ _).mpr ⟨page, listed, rfl, i, slot, rfl⟩⟩

theorem apart (shows : Shows others t pages) : Apart t (pages.map Page.frame) := by
  have inv := shows.ok
  refine ⟨inv.linked, inv.linked.nodup, fun f => ?_, ?_, ?_, ?_, ?_⟩
  · constructor
    · intro in_frames
      obtain ⟨page, listed, rfl⟩ := List.mem_map.mp in_frames
      obtain ⟨i, slot⟩ := page.occupied
      refine ⟨page.addr i, shows.isSome_live.mpr ⟨page, listed, i, slot, rfl⟩, ?_⟩
      exact (page.frame_of_addr (page.bounded i slot)).1
    · rintro ⟨p, live, rfl⟩
      obtain ⟨page, listed, i, slot, rfl⟩ := shows.isSome_live.mp live
      rw [(page.frame_of_addr (page.bounded i slot)).1]
      exact List.mem_map_of_mem listed
  · intro p q size size' live live' differs
    obtain ⟨page, listed, rfl, i, slot, rfl⟩ := (shows.live p size).mp live
    obtain ⟨page', listed', rfl, j, slot', rfl⟩ := (shows.live q size').mp live'
    -- slots of a page are apart, and pages are
    by_cases same : page' = page
    · subst same
      have ne : i ≠ j := fun equal => differs (congrArg _ equal)
      exact Page.chunk_disjoint ne (page'.bounded i slot) (page'.bounded j slot')
    · refine Set.disjoint_left.mpr fun x inside inside' => same ?_
      exact inv.page_unique listed listed' (page.chunk_bounds inside (page.bounded i slot)).2
        (page'.chunk_bounds inside' (page'.bounded j slot')).2
  · intro p size live
    obtain ⟨page, listed, rfl, i, slot, rfl⟩ := (shows.live p size).mp live
    rw [(page.frame_of_addr (page.bounded i slot)).1]
    obtain ⟨-, fits, -⟩ := page.cls.slot_bounds (page.bounded i slot)
    refine ⟨(inv.ok page listed).size, ?_, inv.used listed⟩
    rintro x ⟨low, high⟩
    rw [Page.addr, Nat.add_assoc] at high
    exact ⟨(Nat.le_add_right _ _).trans low, high.trans_le (Nat.add_le_add_left fits _)⟩
  · intro p size live f in_frames
    obtain ⟨page, listed, rfl⟩ := List.mem_map.mp in_frames
    rw [Set.disjoint_left]
    rintro x inside ⟨low, high⟩
    refine inv.not_info_of_chunk ((shows.live p size).mp live) inside listed ⟨low, ?_⟩
    exact high.trans_le (Nat.le_add_right _ _)
  · intro f in_frames several
    obtain ⟨page, listed, rfl⟩ := List.mem_map.mp in_frames
    have ok := inv.ok page listed
    rw [ok.total] at several
    exact ok.counted several

/-- The last chunk of a page is the only slot in use. -/
theorem last_iff {i : ℕ} (shows : Shows others t pages) (listed : page ∈ pages)
    (slot : i ∈ page.slots) : Last t (page.addr i) ↔ page.slots = {i} := by
  have inv := shows.ok
  have here := page.frame_of_addr (page.bounded i slot)
  constructor
  · intro last
    refine Finset.eq_singleton_iff_unique_mem.mpr ⟨slot, fun j taken => ?_⟩
    have there := page.frame_of_addr (page.bounded j taken)
    have same := last (page.addr j) (shows.isSome_live.mpr ⟨page, listed, j, taken, rfl⟩)
      (there.1.trans here.1.symm)
    exact (inv.addr_unique listed listed slot taken same).2
  · rintro single q live same
    obtain ⟨other, listed', j, taken, rfl⟩ := shows.isSome_live.mp live
    have there := other.frame_of_addr (other.bounded j taken)
    have frame : other.frame = page.frame := there.1.symm.trans (same.trans here.1)
    obtain rfl := inv.page_unique_frame listed listed' frame
    rw [single] at taken
    rw [Finset.mem_singleton.mp taken]

/-- `free` changes no byte of the other chunks. -/
theorem kept_of_give {i : ℕ} (shows : Shows others t pages) (listed : page ∈ pages)
    (slot : i ∈ page.slots) (effect : GiveEffect others t.pools s' pages pages' page i)
    (differs : q ≠ page.addr i) (live : t.live q = some size) (inside : x ∈ chunkAt q size) :
    s'.k.mem x = t.pools.k.mem x := by
  have inv := shows.ok
  have here := (shows.live q size).mp live
  by_contra changed
  rcases effect.writes x changed with ⟨other, listed', info⟩ | ⟨single, place, -⟩
  · exact inv.not_info_of_chunk here inside listed' info
  · obtain ⟨other, listed', rfl, j, taken, rfl⟩ := here
    obtain ⟨-, block⟩ := other.chunk_bounds inside (other.bounded j taken)
    -- the chunk is in a page in use, and the page given back had no other
    rcases place with free | own
    · exact inv.not_free listed' block free
    · obtain rfl := inv.page_unique listed listed' own block
      rw [single] at taken
      exact differs (congrArg _ (Finset.mem_singleton.mp taken))

end Shows

/-- **The chunks of the pool.** In every sequence of calls and stores the chunks in use lie in
the pages of the list and overlap neither each other nor a header. No call stores to the chunks
that stay in use. `free` returns, and gives a page back exactly with its last chunk; `malloc_`
returns when `page_allocate` does. -/
theorem Run.chunks_apart (boot : Booted others s₀) (run : Run (ChunkStep others) s₀ w t) :
    (∃ frames, Apart t frames) ∧
      (∀ size p u, ChunkStep others t (.malloc size p) u → t.live p = none ∧
        usedBlocks pageMaxEntry t.pools.k.frame ⊆ usedBlocks pageMaxEntry u.pools.k.frame ∧
        ∀ q size, t.live q = some size →
          ∀ x ∈ chunkAt q size, u.pools.k.mem x = t.pools.k.mem x) ∧
      (∀ p size u, t.live p = some size → ChunkStep others t (.free p) u →
        (∀ q size, q ≠ p → t.live q = some size →
          ∀ x ∈ chunkAt q size, u.pools.k.mem x = t.pools.k.mem x) ∧
        (Last t p → usedBlocks pageMaxEntry u.pools.k.frame =
          usedBlocks pageMaxEntry t.pools.k.frame \ {⟨p / 0x1000, levelFor size⟩}) ∧
        (¬ Last t p → usedBlocks pageMaxEntry u.pools.k.frame =
          usedBlocks pageMaxEntry t.pools.k.frame)) ∧
      (∀ p, (t.live p).isSome → ∃ u, ChunkStep others t (.free p) u) ∧
      ∀ size cls, classOf size = .ok cls →
        (∃ (index : ℕ) (k : Allocator),
          Returns (fun fuel => pageAllocate fuel cls t.pools.k) (index, k)) →
        ∃ p u, ChunkStep others t (.malloc size p) u := by
  obtain ⟨pages, shows⟩ := Run.shows run boot
  have inv := shows.ok
  refine ⟨⟨_, shows.apart⟩, ?_, ?_, ?_, ?_⟩
  · -- `malloc_` returns a chunk that was not in use
    intro size p u step
    cases step with
    | malloc hasClass returns =>
      obtain ⟨fuel, run⟩ := returns
      obtain ⟨pages', effect, -⟩ := shows.malloc hasClass run
      refine ⟨?_, effect.used, fun q size live => effect.kept q size ((shows.live q size).mp live)⟩
      by_contra there
      obtain ⟨size, there⟩ := Option.ne_none_iff_exists'.mp there
      exact effect.fresh size ((shows.live p size).mp there)
  · -- `free` gives its own chunk back, and the page with the last one
    intro p size u here step
    cases step with
    | free live returns =>
      obtain ⟨fuel, run⟩ := returns
      obtain ⟨page, listed, i, slot, rfl, pages', effect, -⟩ := shows.free live run
      have size_eq : page.size = size := by
        have own := (shows.live _ _).mpr ⟨page, listed, rfl, i, slot, rfl⟩
        exact Option.some.inj (own.symm.trans here)
      subst size_eq
      have at_page := page.frame_of_addr (page.bounded i slot)
      refine ⟨fun q size differs live x => shows.kept_of_give listed slot effect differs live,
        fun last => ?_, fun several => ?_⟩
      · rw [at_page.1]
        exact effect.used.trans (if_pos ((shows.last_iff listed slot).mp last))
      · exact effect.used.trans (if_neg fun single =>
          several ((shows.last_iff listed slot).mpr single))
  · -- `free` of a chunk in use returns
    intro p live
    obtain ⟨page, listed, i, slot, rfl⟩ := shows.isSome_live.mp live
    obtain ⟨before, after, rfl⟩ := List.append_of_mem listed
    obtain ⟨pools, returns⟩ := inv.free_returns slot
    exact ⟨_, .free live returns⟩
  · -- `malloc_` returns when there is a page
    intro size cls hasClass block
    obtain ⟨p, pools, returns⟩ := inv.inOrder.malloc_ends hasClass block
    exact ⟨p, _, .malloc hasClass returns⟩

/-- Two chunks of 8 bytes, and the first is given back: the other one keeps its bytes. -/
theorem fourPages_chunks_apart : ∃ s t u p q, p ≠ q ∧
    Run (ChunkStep {⟨0, 16⟩}) s [.malloc 8 p, .malloc 8 q] t ∧
    ChunkStep {⟨0, 16⟩} t (.free p) u ∧ (∃ frames, Apart t frames) ∧
    ∀ x ∈ chunkAt q 8, u.pools.k.mem x = t.pools.k.mem x := by
  obtain ⟨s, boot, supply⟩ := fourPages_booted
  have hasClass : classOf 8 = .ok 8 := rfl
  -- the first chunk is in a new page
  obtain ⟨p, pools, returns, supply⟩ := boot.shows.malloc_supplied hasClass (by decide) supply
  have run : CS.Run (ChunkStep {⟨0, 16⟩}) s [.malloc 8 p] ⟨pools, s.live.alloc p 8⟩ :=
    .single (.malloc hasClass returns)
  obtain ⟨pages, shows⟩ := Run.shows run boot
  obtain ⟨q, pools', returns', -⟩ := shows.malloc_supplied hasClass (by decide) supply
  have step : ChunkStep {⟨0, 16⟩} ⟨pools, s.live.alloc p 8⟩ (.malloc 8 q)
      ⟨pools', (s.live.alloc p 8).alloc q 8⟩ := .malloc hasClass returns'
  have run' := run.snoc step
  -- the second is not the first, which is in use
  obtain ⟨-, unused, -⟩ := Run.chunks_apart boot run
  have differs : p ≠ q := by
    rintro rfl
    have free : s.live.alloc p 8 p = none := (unused _ _ _ step).1
    rw [Heap.alloc_self] at free
    contradiction
  obtain ⟨apart, -, given, frees, -⟩ := Run.chunks_apart boot run'
  have live : ((s.live.alloc p 8).alloc q 8) p = some 8 := by
    rw [Heap.alloc_of_ne differs, Heap.alloc_self]
  obtain ⟨u, freed⟩ := frees p (Option.isSome_iff_exists.mpr ⟨8, live⟩)
  exact ⟨s, _, u, p, q, differs, run', freed, apart,
    (given p 8 u live freed).1 q 8 differs.symm Heap.alloc_self⟩

end BareMetal.Pool
