import BareMetal.Pool.OpenPage
import BareMetal.Pool.Slots

/-!
# `free` and `remove_page`

`free` finds the page and the slot from the address. While the page has another slot in use the
slot is marked as free; the last slot takes the page out of the list of the pool, and
`page_free` gets its block back.

The bytes that change are those of headers and of `page_info`, and the items that `page_free`
leaves at the ends of free pages.
-/

namespace BareMetal.Pool

open CS Buddy Math Math.Block

variable {others : Set Block} {s s' : Pools} {pages before after : List Page} {page : Page}
  {mem : Memory} {next pre cur : Option ℕ} {i x fuel frame addr : ℕ}

/-! ## Fuel -/

theorem pageBefore_succ (mem : Memory) (page fuel : ℕ) (pre cur : Option ℕ) :
    pageBefore mem page (fuel + 1) pre cur =
      if cur = some page then .ok pre
      else
        match cur with
        | none => .error .nullPointer
        | some c => pageBefore mem page fuel (some c) (headerNext mem c) := rfl

theorem pageBefore_mono (mem : Memory) (page : ℕ) (pre cur : Option ℕ) :
    FuelMonotone fun fuel => pageBefore mem page fuel pre cur := by
  intro fuel r returns
  change pageBefore mem page (fuel + 1) pre cur = .ok r
  replace returns : pageBefore mem page fuel pre cur = .ok r := returns
  induction fuel generalizing pre cur with
  | zero => cases returns
  | succ fuel ih =>
    rw [pageBefore_succ] at returns ⊢
    by_cases here : cur = some page
    · rwa [if_pos here] at returns ⊢
    · rw [if_neg here] at returns ⊢
      cases cur with
      | none => cases returns
      | some c => exact ih _ _ returns

theorem removePage_mono (page : ℕ) (s : Pools) :
    FuelMonotone fun fuel => removePage fuel page s := by
  refine (pageBefore_mono s.k.mem page none s.pool).bind fun pre => ?_
  exact (pageFree_mono page _).bind fun k => fuelMonotone_const _

theorem free_mono (addr : ℕ) (s : Pools) : FuelMonotone fun fuel => free fuel addr s := by
  intro fuel r returns
  replace returns : free fuel addr s = .ok r := returns
  change free (fuel + 1) addr s = .ok r
  rw [free] at returns ⊢
  dsimp only at returns ⊢
  split_ifs at returns ⊢ with several
  · exact returns
  · exact removePage_mono _ s returns

/-! ## The list of the pool -/

/-- A page of the list is the one in the middle or one of the others. -/
theorem mem_middle {other : Page} :
    other ∈ before ++ page :: after ↔ other = page ∨ other ∈ before ++ after :=
  List.perm_middle.mem_iff.trans List.mem_cons

/-- Another page may stand in the middle. -/
theorem mem_replace {page' other : Page} (here : other ∈ before ++ page :: after)
    (ne : other ≠ page) : other ∈ before ++ page' :: after :=
  mem_middle.mpr (.inr ((mem_middle.mp here).resolve_left ne))

/-- The search of `remove_page` ends at the page, with the one in front of it. -/
theorem pageBefore_ok {before after : List ℕ} (pre : Option ℕ)
    (linked : Linked (headerNext mem) cur (before ++ frame :: after))
    (enough : before.length < fuel) :
    pageBefore mem frame fuel pre cur = .ok (before.getLast?.or pre) := by
  induction before generalizing pre cur fuel with
  | nil =>
    obtain ⟨rfl, -⟩ := linked
    obtain ⟨fuel, rfl⟩ := Nat.exists_eq_succ_of_ne_zero (by omega : fuel ≠ 0)
    rw [pageBefore_succ, if_pos rfl]
    rfl
  | cons c before ih =>
    have distinct := linked.nodup
    obtain ⟨rfl, rest⟩ := linked
    rw [List.length_cons] at enough
    obtain ⟨fuel, rfl⟩ := Nat.exists_eq_succ_of_ne_zero (by omega : fuel ≠ 0)
    have other : some c ≠ some frame := by
      rintro same
      obtain rfl := Option.some.inj same
      exact (List.nodup_cons.mp distinct).1 (by simp)
    rw [pageBefore_succ, if_neg other]
    change pageBefore mem frame fuel (some c) (headerNext mem c) = _
    rw [ih (some c) rest (by omega), List.getLast?_cons]
    cases before.getLast? <;> rfl

/-- What `remove_page` stores to take a page out of the list, which `pre` is in front of. -/
def unlink (s : Pools) (pre next : Option ℕ) : Pools :=
  match pre with
  | none => { s with pool := next }
  | some pre => s.setMem (setHeaderNext s.k.mem pre next)

theorem removePage_eq (fuel page : ℕ) (s : Pools) :
    removePage fuel page s = (do
      let pre ← pageBefore s.k.mem page fuel none s.pool
      let s := unlink s pre (headerNext s.k.mem page)
      let k ← pageFree fuel page s.k
      return { s with k := k }) := rfl

/-- The store to `next`. -/
theorem headerNext_setHeaderNext (nonzero : next ≠ some 0) :
    headerNext (setHeaderNext mem frame next) =
      Function.update (headerNext mem) frame next := by
  funext f
  by_cases same : f = frame
  · subst same
    rw [Function.update_self, headerNext, setHeaderNext, field_setField (by omega),
      headerAt_headerPtr nonzero]
  · rw [Function.update_of_ne same, headerNext, setHeaderNext,
      field_setField_of_apart (by omega) (by omega) (by omega) (.inl (Ne.symm same)), headerNext]

theorem setHeaderNext_writes (changed : setHeaderNext mem frame next x ≠ mem x) :
    frame * 0x1000 + 24 ≤ x ∧ x < frame * 0x1000 + 32 := by
  by_contra outside
  apply changed
  rw [setHeaderNext, setField, Memory.store_apply_of_outside (by omega)]

/-- The link is not among what a page shows. -/
theorem Page.Ok.setHeaderNext (ok : page.Ok mem) :
    page.Ok (setHeaderNext mem frame next) := by
  have small := totalFor_le_info page.size
  have kept : ∀ off width, 0 < width → off + width ≤ 24 ∨ 32 ≤ off → off + width ≤ 0x1000 →
      field (Pool.setHeaderNext mem frame next) page.frame off width =
        field mem page.frame off width := by
    intro off width positive apart inside
    exact field_setField_of_apart positive (by omega) inside (by omega)
  refine ⟨?_, ?_, ?_, fun j hj => ?_⟩
  · exact (kept 0 8 (by omega) (by omega) (by omega)).trans ok.size
  · exact (kept 8 8 (by omega) (by omega) (by omega)).trans ok.total
  · exact (kept 16 8 (by omega) (by omega) (by omega)).trans ok.used
  · rw [pageInfo, aling8_sizeofPoolHeader, kept _ _ (by omega) (by omega) (by omega)]
    exact ok.marks j hj

namespace PoolOk

/-- The link of a page is null or leads to a page. -/
theorem headerNext_ne_zero (inv : PoolOk others s (before ++ page :: after)) :
    headerNext s.k.mem page.frame ≠ some 0 := by
  have linked := inv.linked
  rw [List.map_append, List.map_cons] at linked
  obtain ⟨r, -, -, rest⟩ := segment_append.mp linked
  intro zero
  rw [zero] at rest
  -- a link to frame 0 would be a page there
  obtain ⟨frames, same, -⟩ := Linked.exists_cons rest
  obtain ⟨other, listed, here⟩ := List.mem_map.mp (same ▸ List.mem_cons_self : 0 ∈ _)
  exact inv.frame_ne_zero (by simp [listed]) here

/-- The page is out of the list, and only a link was stored to. -/
theorem unlink (inv : PoolOk others s (before ++ page :: after)) :
    let s₁ := unlink s (before.map Page.frame).getLast? (headerNext s.k.mem page.frame)
    Linked (headerNext s₁.k.mem) s₁.pool ((before ++ after).map Page.frame) ∧
      (∀ x, s₁.k.mem x ≠ s.k.mem x → ∃ other ∈ before, x ∈ other.info) ∧
      (∀ other ∈ before ++ after, other.Ok s₁.k.mem) ∧
      s₁.k = { s.k with mem := s₁.k.mem } := by
  have linked := inv.linked
  have nonzero := inv.headerNext_ne_zero
  have ok : ∀ other ∈ before ++ after, other.Ok s.k.mem :=
    fun other listed => inv.ok other (mem_middle.mpr (.inr listed))
  rw [List.map_append, List.map_cons] at linked
  rcases List.eq_nil_or_concat before with rfl | ⟨front, pre, rfl⟩
  · -- the head of the list changes, and no byte
    obtain ⟨-, rest⟩ := linked
    exact ⟨rest, fun x changed => absurd rfl changed, ok, rfl⟩
  · rw [List.concat_eq_append] at linked ok ⊢
    have last : ((front ++ [pre]).map Page.frame).getLast? = some pre.frame := by simp
    rw [last]
    refine ⟨?_, fun x changed => ?_, fun other listed => (ok other listed).setHeaderNext, rfl⟩
    · change Linked (headerNext (setHeaderNext s.k.mem pre.frame _)) s.pool _
      rw [headerNext_setHeaderNext nonzero]
      have chain : Linked (headerNext s.k.mem) s.pool
          (front.map Page.frame ++ pre.frame :: page.frame :: after.map Page.frame) := by
        simpa using linked
      simpa using chain.unlink
    · have stored : pre.frame * 0x1000 + 24 ≤ x ∧ x < pre.frame * 0x1000 + 32 :=
        setHeaderNext_writes changed
      exact ⟨pre, by simp, Page.mem_info.mpr ⟨by omega, by omega⟩⟩

/-- The blocks of the pool without a page. -/
theorem blocks_remove (inv : PoolOk others s (before ++ page :: after)) :
    {b | b ∈ (before ++ page :: after).map Page.block} \ {page.block} =
      {b | b ∈ (before ++ after).map Page.block} := by
  ext b
  constructor
  · rintro ⟨inside, ne⟩
    obtain ⟨other, listed, rfl⟩ := List.mem_map.mp inside
    have differs : other ≠ page := fun same => ne (congrArg Page.block same)
    exact List.mem_map_of_mem ((mem_middle.mp listed).resolve_left differs)
  · intro inside
    obtain ⟨other, listed, rfl⟩ := List.mem_map.mp inside
    refine ⟨List.mem_map_of_mem (mem_middle.mpr (.inr listed)), fun same => ?_⟩
    exact inv.not_mem_others listed (congrArg Block.head same)

/-- The store to the list is in a block in use. -/
theorem unlink_consistent (inv : PoolOk others s (before ++ page :: after)) :
    Consistent pageMaxEntry others
      ⟨(Pool.unlink s (before.map Page.frame).getLast? (headerNext s.k.mem page.frame)).k,
        {b | b ∈ (before ++ page :: after).map Page.block}, ∅⟩ := by
  obtain ⟨-, writes, -, same⟩ := inv.unlink
  rw [same]
  refine inv.buddy.with_mem fun x changed => ?_
  obtain ⟨other, front, inside⟩ := writes x changed
  refine ⟨other.block, .inl (.inl (List.mem_map_of_mem ?_)), Page.info_block inside⟩
  simp [front]

/-- `page_free` of the block returns. -/
theorem pageFree_unlink (inv : PoolOk others s (before ++ page :: after)) (enough : 16 < fuel) :
    let s₁ := Pool.unlink s (before.map Page.frame).getLast? (headerNext s.k.mem page.frame)
    ∃ k, pageFree fuel page.frame s₁.k = .ok k ∧ FreeEffect pageMaxEntry page.block s₁.k k := by
  intro s₁
  obtain ⟨-, -, -, same⟩ := inv.unlink
  obtain ⟨lists, rep⟩ := inv.unlink_consistent.wellFormed
  refine rep.pageFree_ok ?_ enough
  rw [same]
  exact inv.used (by simp)

/-- `remove_page` takes the page out of the list and gives its block back. -/
theorem removePage (inv : PoolOk others s (before ++ page :: after))
    (run : removePage fuel page.frame s = .ok s') :
    PoolOk others s' (before ++ after) ∧
      (∀ x, s'.k.mem x ≠ s.k.mem x → (∃ other ∈ before, x ∈ other.info) ∨
        x / 0x1000 ∈ freeFrames pageMaxEntry s.k ∪ page.block.cells ∧ 0x1000 - 24 ≤ x % 0x1000) ∧
      usedBlocks pageMaxEntry s'.k.frame =
        usedBlocks pageMaxEntry s.k.frame \ {page.block} := by
  have listed : page ∈ before ++ page :: after := by simp
  have linked := inv.linked
  rw [List.map_append, List.map_cons] at linked
  rw [removePage_eq] at run
  obtain ⟨pre, search, run⟩ := outcome_bind_eq_ok.mp run
  obtain ⟨k, freed, run⟩ := outcome_bind_eq_ok.mp run
  obtain rfl := Except.ok.inj run
  -- the loop stops at the page, with the one in front of it
  have last : pre = (before.map Page.frame).getLast? := by
    have found := pageBefore_ok none linked (Nat.lt_succ_self _)
    rw [Option.or_none] at found
    exact (pageBefore_mono s.k.mem page.frame none s.pool).returns_unique ⟨fuel, search⟩ ⟨_, found⟩
  subst last
  obtain ⟨linked₁, writes₁, ok₁, same₁⟩ := inv.unlink
  have start := inv.unlink_consistent
  obtain ⟨k', freed', effect⟩ := inv.pageFree_unlink (show 16 < 17 by decide)
  generalize Pool.unlink s (before.map Page.frame).getLast? (headerNext s.k.mem page.frame) = s₁
    at freed linked₁ writes₁ ok₁ same₁ start freed' effect ⊢
  have frames : s₁.k.frame = s.k.frame := by rw [same₁]
  have free_frames : freeFrames pageMaxEntry s₁.k = freeFrames pageMaxEntry s.k := by rw [same₁]
  -- the call of `page_free` is a step of the page allocator
  have step : Step ⟨s₁.k, {b | b ∈ (before ++ page :: after).map Page.block}, ∅⟩
      (.free page.block.head) ⟨k, _, ∅ \ {page.block}⟩ :=
    .free (.inl (List.mem_map_of_mem listed)) ⟨fuel, freed⟩
  have finish := start.step step
  rw [inv.blocks_remove, Set.empty_sdiff] at finish
  obtain rfl : k = k' := (pageFree_mono page.frame s₁.k).returns_unique ⟨fuel, freed⟩ ⟨17, freed'⟩
  -- headers and marks of the other pages are no items
  have kept : ∀ other ∈ before ++ after, ∀ x ∈ other.info, k.mem x = s₁.k.mem x := by
    intro other here x inside
    have listed' : other ∈ before ++ page :: after := mem_middle.mpr (.inr here)
    refine effect.writes.eq_of_outside (.inl ?_)
    rintro (free | own)
    · exact inv.not_free listed' (Page.info_block inside) (free_frames ▸ free)
    · have same := inv.page_unique listed listed' own (Page.info_block inside)
      exact inv.not_mem_others here (congrArg Page.frame same)
  refine ⟨⟨?_, ?_, finish, inv.zero⟩, fun x changed => ?_, ?_⟩
  · refine linked₁.congr fun f in_frames => ?_
    obtain ⟨other, here, rfl⟩ := List.mem_map.mp in_frames
    exact Page.headerNext_congr (kept other here)
  · exact fun other here => (ok₁ other here).congr (kept other here)
  · by_cases same : s₁.k.mem x = s.k.mem x
    · have items := effect.writes x (same ▸ changed)
      rw [free_frames] at items
      exact .inr items
    · exact .inl (writes₁ x same)
  · rw [effect.used, frames]

theorem removePage_returns (inv : PoolOk others s (before ++ page :: after)) :
    ∃ s', Returns (fun fuel => Pool.removePage fuel page.frame s) s' := by
  have linked := inv.linked
  rw [List.map_append, List.map_cons] at linked
  -- the search takes a call for each page in front, `merge` one for each level
  let enough := max ((before.map Page.frame).length + 1) 17
  have long : (before.map Page.frame).length < enough := Nat.lt_of_succ_le (Nat.le_max_left _ _)
  have deep : 16 < enough := Nat.lt_of_succ_le (Nat.le_max_right _ _)
  have search := pageBefore_ok none linked long
  rw [Option.or_none] at search
  obtain ⟨k, freed, -⟩ := inv.pageFree_unlink deep
  obtain ⟨s', returns⟩ : ∃ s', Pool.removePage enough page.frame s = .ok s' := by
    rw [removePage_eq]
    exact ⟨_, outcome_bind_eq_ok.mpr ⟨_, search, outcome_bind_eq_ok.mpr ⟨k, freed, rfl⟩⟩⟩
  exact ⟨s', enough, returns⟩

end PoolOk

/-! ## `free` -/

/-- `free` of a chunk finds its page and its slot. -/
theorem free_addr (fuel : ℕ) (ok : page.Ok s.k.mem) (slot : i < max (totalFor page.size) 1) :
    free fuel (page.addr i) s =
      if page.slots.card ≠ 1 then
        .ok (s.setMem (mark s.k.mem page.frame (subU64 page.slots.card 1) i 0))
      else removePage fuel page.frame s := by
  obtain ⟨at_page, offset⟩ := page.frame_of_addr slot
  rw [free]
  dsimp only
  rw [at_page, offset, ok.used, ok.total, ok.size, aling8_sizeofPoolHeader,
    page.cls.slot_index slot]
  rfl

/-- What `free` of a chunk does to the pool. -/
structure GiveEffect (others : Set Block) (s s' : Pools) (pages pages' : List Page) (page : Page)
    (i : ℕ) : Prop where
  ok : PoolOk others s' pages'
  live : ∀ p size, Live pages' p size ↔ p ≠ page.addr i ∧ Live pages p size
  infos : ∀ page' ∈ pages', ∃ other ∈ pages, page'.info = other.info
  writes : ∀ x, s'.k.mem x ≠ s.k.mem x → (∃ other ∈ pages, x ∈ other.info) ∨
    page.slots = {i} ∧
      x / 0x1000 ∈ freeFrames pageMaxEntry s.k ∪ page.block.cells ∧ 0x1000 - 24 ≤ x % 0x1000
  used : usedBlocks pageMaxEntry s'.k.frame =
    if page.slots = {i} then usedBlocks pageMaxEntry s.k.frame \ {page.block}
    else usedBlocks pageMaxEntry s.k.frame

/-- A slot of several is marked as free. -/
theorem PoolOk.give (inv : PoolOk others s (before ++ page :: after)) (slot : i ∈ page.slots)
    (left : (page.slots.erase i).Nonempty) :
    PoolOk others
      (s.setMem (mark s.k.mem page.frame (subU64 page.slots.card 1) i 0))
      (before ++ page.give i left :: after) := by
  have ok := inv.ok page (by simp)
  have several : 1 < page.slots.card := by
    obtain ⟨j, other⟩ := left
    obtain ⟨differs, inside⟩ := Finset.mem_erase.mp other
    exact Finset.one_lt_card.mpr ⟨j, inside, i, slot, differs⟩
  have many := page.card_le
  have bound := page.bounded i slot
  have within : i < totalFor page.size := by omega
  have small := totalFor_le_info page.size
  have card : subU64 page.slots.card 1 = (page.give i left).slots.card := by
    rw [subU64_of_le (by omega) (by omega)]
    exact (Finset.card_erase_of_mem slot).symm
  refine inv.replace (fun x => Page.mark_writes within) (Page.headerNext_mark within) ?_ rfl rfl
  refine ok.mark within rfl rfl card fun j hj => ?_
  rw [page.mem_give]
  simp

/-- `free` of a chunk of a pool in order. -/
theorem PoolOk.free (inv : PoolOk others s (before ++ page :: after)) (slot : i ∈ page.slots)
    (run : free fuel (page.addr i) s = .ok s') :
    ∃ pages', GiveEffect others s s' (before ++ page :: after) pages' page i := by
  have listed : page ∈ before ++ page :: after := by simp
  have bound := page.bounded i slot
  rw [free_addr fuel (inv.ok page listed) bound] at run
  by_cases last : page.slots = {i}
  · -- the last slot: the page goes with it
    have single : page.slots.card = 1 := by rw [last, Finset.card_singleton]
    rw [if_neg (not_not.mpr single)] at run
    obtain ⟨ok, writes, used⟩ := inv.removePage run
    -- the chunks of the other pages are still in use, as no two pages share an address
    refine ⟨before ++ after, ok, fun p size => ?_, fun other here => ?_, fun x changed => ?_, ?_⟩
    · constructor
      · rintro ⟨other, here, same, j, taken, rfl⟩
        have listed' : other ∈ before ++ page :: after := mem_middle.mpr (.inr here)
        refine ⟨fun equal => ?_, other, listed', same, j, taken, rfl⟩
        obtain ⟨rfl, -⟩ := inv.addr_unique listed listed' slot taken equal
        exact inv.not_mem_others here rfl
      · rintro ⟨differs, other, here, same, j, taken, rfl⟩
        have apart : other ≠ page := by
          rintro rfl
          obtain rfl := Finset.mem_singleton.mp (last ▸ taken)
          exact differs rfl
        exact ⟨other, (mem_middle.mp here).resolve_left apart, same, j, taken, rfl⟩
    · exact ⟨other, mem_middle.mpr (.inr here), rfl⟩
    · rcases writes x changed with ⟨other, front, inside⟩ | items
      · exact .inl ⟨other, by simp [front], inside⟩
      · exact .inr ⟨last, items⟩
    · rw [if_pos last, used]
  · -- the page stays, and only the slot is marked
    have left : (page.slots.erase i).Nonempty := by
      by_contra empty
      rw [Finset.not_nonempty_iff_eq_empty, Finset.erase_eq_empty_iff] at empty
      rcases empty with none | single
      · exact absurd slot (by simp [none])
      · exact last single
    -- another slot is taken, so that the counter is not 1
    have several : page.slots.card ≠ 1 := by
      intro one
      obtain ⟨j, single⟩ := Finset.card_eq_one.mp one
      obtain rfl := Finset.mem_singleton.mp (single ▸ slot)
      exact last single
    rw [if_pos several] at run
    obtain rfl := Except.ok.inj run
    have many := page.card_le
    have positive := Finset.card_pos.mpr page.occupied
    have within : i < totalFor page.size := by omega
    refine ⟨_, inv.give slot left, fun p size => ?_, fun other here => ?_, fun x changed => ?_, ?_⟩
    · constructor
      · rintro ⟨other, here, same, j, taken, rfl⟩
        by_cases own : other = page.give i left
        · subst own
          obtain ⟨differs, taken⟩ := Finset.mem_erase.mp taken
          refine ⟨fun equal => differs ?_, page, listed, same, j, taken, rfl⟩
          exact (inv.addr_unique listed listed slot taken equal).2
        · have here' := (mem_middle.mp here).resolve_left own
          have listed' : other ∈ before ++ page :: after := mem_middle.mpr (.inr here')
          refine ⟨fun equal => ?_, other, listed', same, j, taken, rfl⟩
          obtain ⟨rfl, -⟩ := inv.addr_unique listed listed' slot taken equal
          exact inv.not_mem_others here' rfl
      · rintro ⟨differs, other, here, same, j, taken, rfl⟩
        by_cases own : other = page
        · subst own
          refine ⟨other.give i left, by simp, same, j, Finset.mem_erase.mpr ⟨?_, taken⟩, rfl⟩
          rintro rfl
          exact differs rfl
        · exact ⟨other, mem_replace here own, same, j, taken, rfl⟩
    · by_cases own : other = page.give i left
      · exact ⟨page, listed, own ▸ rfl⟩
      · exact ⟨other, mem_replace here own, rfl⟩
    · exact .inl ⟨page, listed, Page.mark_writes within changed⟩
    · rw [if_neg last]
      rfl

/-- `free` of a chunk returns. -/
theorem PoolOk.free_returns (inv : PoolOk others s (before ++ page :: after))
    (slot : i ∈ page.slots) : ∃ s', Returns (fun fuel => Pool.free fuel (page.addr i) s) s' := by
  have ok := inv.ok page (by simp)
  have bound := page.bounded i slot
  by_cases last : page.slots.card = 1
  · obtain ⟨s', fuel, removed⟩ := inv.removePage_returns
    refine ⟨s', fuel, ?_⟩
    change Pool.free fuel (page.addr i) s = _
    rw [free_addr fuel ok bound, if_neg (not_not.mpr last)]
    exact removed
  · have marked := free_addr 0 ok bound
    rw [if_pos last] at marked
    exact ⟨_, 0, marked⟩

end BareMetal.Pool
