import BareMetal.Buddy.Reserve
import Mathlib.Data.List.Infix
import Mathlib.Data.Set.BooleanAlgebra
import Mathlib.Order.CompletePartialOrder

/-!
# The boot of the page allocator

`page_init` builds a table of free blocks, the largest first, reserves address ranges in
it, and then adds the heads of the blocks that are still free to the lists.

The last loop computes the address of an item as an `int`, which overflows for the frames
from `0x7ffff` on; the overflow counts as a fault.

## Main results

* `initTable_ok` — the first loop partitions the table into free blocks
* `reserveTable_ok` — the calls of `memory_reserve` reserve their frames while each is spared
* `boots_iff` — the whole of `page_init` does its work if and only if each call is spared and
  every item that is added has an address
-/

namespace BareMetal.Buddy

open CS Math Math.Block

variable {n h l : ℕ} {k k' : Allocator} {b : Block}

/-! ## The loops -/

/-- `for(i=first; ..; i++)`: `count` frames become inner frames of a free block. -/
def clearFrames (k : Allocator) (first : ℕ) : ℕ → Allocator
  | 0 => k
  | count + 1 =>
    ((clearFrames k first count).setIndex (first + count) pageFreeMark).setStatus (first + count) 0

/-- The first loop of `page_init`, in a table of `n` frames. -/
def initTable (n : ℕ) : ℕ → ℕ → ℤ → Allocator → Outcome Allocator
  | 0, _, _, _ => .error .outOfFuel
  | fuel + 1, head, nonInit, k =>
    if head < n then do
      let order ← log2 nonInit
      let k := (k.setIndex head order).setStatus head 0
      let head := head + power2 (k.frame head).index
      let first := toU32 (n - nonInit + 1)
      let k := clearFrames k first (head - first)
      let order ← log2 nonInit
      initTable n fuel head (toInt32 (nonInit - power2 order)) k
    else .ok k

/-- The product and the sum of `index*0x1000 + 0x1000` do not leave the type `int`. -/
def Addressable (index : ℕ) : Prop := index * 0x1000 + 0x1000 < 2 ^ 31

instance (index : ℕ) : Decidable (Addressable index) :=
  inferInstanceAs (Decidable (index * 0x1000 + 0x1000 < 2 ^ 31))

/-- The address of the item in `add_page_item`. -/
def checkItem (index : ℕ) : Outcome Unit :=
  if Addressable index then .ok () else .error .outOfBounds

/-- `if((frame+head)->status == 0) add_page_item(head);` -/
def addFree (n head : ℕ) (k : Allocator) : Outcome Allocator :=
  if (k.frame head).status = 0 then do
    checkItem head
    checkedAddPageItem n head k
  else .ok k

/-- The last loop of `page_init`. It goes on counting `non_init` down. -/
def fillLists (n : ℕ) : ℕ → ℕ → ℤ → Allocator → Outcome Allocator
  | 0, _, _, _ => .error .outOfFuel
  | fuel + 1, head, nonInit, k =>
    if head < n then do
      let k ← addFree n head k
      let order ← log2 nonInit
      fillLists n fuel (head + power2 (k.frame head).index) (toInt32 (nonInit - power2 order)) k
    else .ok k

/-- The arguments of a call of `memory_reserve`. -/
structure AddrRange where
  start : ℕ
  stop : ℕ
  order : start ≤ stop

namespace AddrRange

def first (r : AddrRange) : ℕ := r.start / 0x1000

def last (r : AddrRange) : ℕ := r.stop / 0x1000

/-- The frames of the range, the last one included. -/
def frames (r : AddrRange) : Set ℕ := Set.Icc r.first r.last

theorem first_le_last (r : AddrRange) : r.first ≤ r.last := Nat.div_le_div_right r.order

end AddrRange

variable {ranges done : List AddrRange} {r : AddrRange}

/-- The calls of `memory_reserve`, one after the other. -/
def reserveAll (fuel : ℕ) : List AddrRange → Allocator → Outcome Allocator
  | [], k => .ok k
  | r :: rest, k => memoryReserve fuel r.start r.stop k >>= reserveAll fuel rest

/-- `page_init` up to its last loop. -/
def reserveTable (n fuel : ℕ) (ranges : List AddrRange) (k : Allocator) : Outcome Allocator :=
  initTable n fuel 0 n k >>= reserveAll fuel ranges

/-- `page_init`, which reserves the given ranges. -/
def pageInit (n fuel : ℕ) (ranges : List AddrRange) (k : Allocator) : Outcome Allocator :=
  reserveTable n fuel ranges k >>= fillLists n fuel 0 n

/-! ## Larger bounds -/

theorem initTable_mono (n head : ℕ) (nonInit : ℤ) (k : Allocator) :
    FuelMonotone fun fuel => initTable n fuel head nonInit k := by
  intro fuel r returns
  induction fuel generalizing head nonInit k with
  | zero => simp [initTable] at returns
  | succ fuel ih =>
    dsimp only at returns ih ⊢
    rw [initTable] at returns ⊢
    by_cases more : head < n
    · rw [if_pos more] at returns ⊢
      obtain ⟨order, level, returns⟩ := outcome_bind_eq_ok.mp returns
      rw [level, outcome_bind_ok] at returns ⊢
      exact ih _ _ _ returns
    · rw [if_neg more] at returns ⊢
      exact returns

theorem fillLists_mono (n head : ℕ) (nonInit : ℤ) (k : Allocator) :
    FuelMonotone fun fuel => fillLists n fuel head nonInit k := by
  intro fuel r returns
  induction fuel generalizing head nonInit k with
  | zero => simp [fillLists] at returns
  | succ fuel ih =>
    dsimp only at returns ih ⊢
    rw [fillLists] at returns ⊢
    by_cases more : head < n
    · rw [if_pos more] at returns ⊢
      obtain ⟨k₁, added, returns⟩ := outcome_bind_eq_ok.mp returns
      obtain ⟨order, level, returns⟩ := outcome_bind_eq_ok.mp returns
      rw [added, outcome_bind_ok, level, outcome_bind_ok]
      exact ih _ _ _ returns
    · rw [if_neg more] at returns ⊢
      exact returns

theorem reserveAll_mono (ranges : List AddrRange) (k : Allocator) :
    FuelMonotone fun fuel => reserveAll fuel ranges k := by
  induction ranges generalizing k with
  | nil => exact fuelMonotone_const _
  | cons r rest ih => exact (memoryReserve_mono r.start r.stop k).bind ih

theorem reserveTable_mono (n : ℕ) (ranges : List AddrRange) (k : Allocator) :
    FuelMonotone fun fuel => reserveTable n fuel ranges k :=
  (initTable_mono n 0 n k).bind (reserveAll_mono ranges)

/-! ## The first loop -/

theorem clearFrames_frame (k : Allocator) (first count i : ℕ) :
    (clearFrames k first count).frame i =
      if first ≤ i ∧ i < first + count then ⟨0, pageFreeMark⟩ else k.frame i := by
  induction count with
  | zero => rw [if_neg (by omega)]; rfl
  | succ count ih =>
    by_cases same : i = first + count
    · subst same
      rw [if_pos (by omega)]
      simp [clearFrames, Allocator.setStatus, Allocator.setIndex]
    · rw [clearFrames, Allocator.setStatus, Allocator.setIndex]
      simp only [Function.update_of_ne same, ih]
      exact if_congr (by omega) rfl rfl

@[simp] theorem clearFrames_pageList (k : Allocator) (first count : ℕ) :
    (clearFrames k first count).pageList = k.pageList := by
  induction count with
  | zero => rfl
  | succ count ih => simp [clearFrames, ih]

/-- `log2` is the level of the largest block that fits. -/
theorem log2_greedy {value : ℕ} (positive : 0 < value) (small : value < 2 ^ 30) :
    ∃ l : ℕ, log2 value = .ok l ∧ l ≤ 16 ∧ 2 ^ l ≤ value ∧ ∀ m ≤ 16, 2 ^ m ≤ value → m ≤ l := by
  have digits : 0 < value.size := Nat.size_pos.mpr positive
  refine ⟨min 16 (value.size - 1), ?_, min_le_left _ _, ?_, fun m bound fits => ?_⟩
  · rw [log2_eq small, pageMaxOrder]
    congr 1
    omega
  · have below : min 16 (value.size - 1) < value.size := by omega
    exact Nat.lt_size.mp below
  · have below : m < value.size := Nat.lt_size.mpr fits
    omega

/-- **The first loop.** From `head` on it cuts the table into free blocks. -/
theorem initTable_ok {fuel head : ℕ} (small : n < 2 ^ 30) (inside : head ≤ n)
    (aligned : ∀ m ≤ 16, 2 ^ m ≤ n - head → 2 ^ m ∣ head) (enough : n - head < fuel) :
    ∃ k', initTable n fuel head (n - head : ℕ) k = .ok k' ∧ k'.pageList = k.pageList ∧
      Walk n k'.frame head ∧ (∀ i < head, k'.frame i = k.frame i) ∧
      ∀ i, head ≤ i → i < n → (k'.frame i).status = 0 ∧
        ((k'.frame i).index < 0 → (k'.frame i).index = pageFreeMark) := by
  induction fuel generalizing head k with
  | zero => omega
  | succ fuel ih =>
    rw [initTable]
    rcases eq_or_lt_of_le inside with rfl | more
    · exact ⟨k, if_neg (lt_irrefl _), rfl, .done, fun i _ => rfl, fun i low high => by omega⟩
    -- the next block is the largest that fits, and no later one is larger
    obtain ⟨l, level, bound, fits, greedy⟩ :=
      log2_greedy (show 0 < n - head by omega) (show n - head < 2 ^ 30 by omega)
    have positive := Nat.two_pow_pos l
    have dvd : 2 ^ l ∣ head := aligned l bound fits
    let k₁ := (k.setIndex head (l : ℤ)).setStatus head 0
    have index : (k₁.frame head).index = (l : ℤ) := by
      simp [k₁, Allocator.setIndex_index]
    -- the inner loop starts behind the head, in 32 bits
    have start : toU32 ((n : ℤ) - ((n - head : ℕ) : ℤ) + 1) = head + 1 := by
      rw [toU32]
      omega
    let k₂ := clearFrames k₁ (head + 1) (head + 2 ^ l - (head + 1))
    have left : toInt32 (((n - head : ℕ) : ℤ) - ((2 ^ l : ℕ) : ℤ)) =
        ((n - (head + 2 ^ l) : ℕ) : ℤ) := by
      rw [toInt32_of_range (by omega) (by omega)]
      omega
    have aligned' : ∀ m ≤ 16, 2 ^ m ≤ n - (head + 2 ^ l) → 2 ^ m ∣ head + 2 ^ l := by
      intro m low room
      have room' : 2 ^ m ≤ n - head := by omega
      exact Nat.dvd_add (aligned m low room') (pow_dvd_pow 2 (greedy m low room'))
    -- what the rest of the loop leaves of this block
    obtain ⟨k', run, lists, walk, before, marks⟩ :=
      @ih k₂ (head + 2 ^ l) (by omega) aligned' (by omega)
    have head_frame : k'.frame head = ⟨0, (l : ℤ)⟩ := by
      rw [before head (by omega), clearFrames_frame, if_neg (by omega)]
      simp [k₁, Allocator.setStatus, Allocator.setIndex]
    have inner_frame : ∀ i, head < i → i < head + 2 ^ l → k'.frame i = ⟨0, pageFreeMark⟩ := by
      intro i low high
      rw [before i high, clearFrames_frame, if_pos (by omega)]
    refine ⟨k', ?_, ?_, ?_, fun i low => ?_, fun i low high => ?_⟩
    · rw [if_pos more, level, outcome_bind_ok]
      dsimp only
      rw [outcome_bind_ok]
      change initTable n fuel (head + power2 (k₁.frame head).index)
        (toInt32 (((n - head : ℕ) : ℤ) - ((power2 (l : ℤ) : ℕ) : ℤ)))
        (clearFrames k₁ (toU32 ((n : ℤ) - ((n - head : ℕ) : ℤ) + 1))
          (head + power2 (k₁.frame head).index -
            toU32 ((n : ℤ) - ((n - head : ℕ) : ℤ) + 1))) = .ok k'
      rw [index, power2_eq, Int.toNat_natCast, start, left]
      exact run
    · rw [lists, clearFrames_pageList]
      rfl
    · refine .next l (by rw [head_frame]) bound dvd (.inl (by rw [head_frame])) ?_ walk
      intro i low high
      rw [inner_frame i low high]
      exact ⟨by decide, rfl⟩
    · rw [before i (by omega), clearFrames_frame, if_neg (by omega)]
      simp [k₁, Allocator.setStatus, Allocator.setIndex, low.ne]
    · rcases eq_or_lt_of_le low with rfl | past
      · rw [head_frame]
        exact ⟨rfl, fun neg => absurd neg (by simp)⟩
      · by_cases behind : i < head + 2 ^ l
        · rw [inner_frame i past behind]
          exact ⟨rfl, fun _ => rfl⟩
        · exact marks i (not_lt.mp behind) high

/-- The table of the first loop has free blocks only. -/
theorem initTable_partitioned (small : n < 2 ^ 30) (k : Allocator) :
    ∃ k', initTable n (n + 1) 0 n k = .ok k' ∧ Partitioned n k' ∧ usedBlocks n k'.frame = ∅ ∧
      k'.pageList = k.pageList := by
  obtain ⟨k', run, lists, walk, -, marks⟩ := @initTable_ok n k (n + 1) 0 small n.zero_le
    (fun m _ _ => dvd_zero _) (by omega)
  have table : Table n (clip n k').frame := by
    have walk' : Walk n (clip n k').frame 0 := walk.congr fun i inside => clip_frame inside k'
    refine walk'.table fun i past => ?_
    rw [clip_frame_past past]
    decide
  refine ⟨k', run, ⟨table, fun b mem i inb inner => ?_⟩, ?_, lists⟩
  · have mem' : b ∈ blocks n (clip n k').frame := by
      rw [blocks_clip]
      exact mem.1
    have inside := table.lt_of_mem mem' inb
    have neg := table.inner_neg mem' inb inner
    rw [clip_frame inside] at neg
    exact (marks i i.zero_le inside).2 neg
  · ext b
    refine iff_of_false (fun used => ?_) (Set.notMem_empty b)
    have zero := (marks b.head b.head.zero_le used.1.1).1
    rw [used.2] at zero
    exact absurd zero (by decide)

/-! ## The reservations -/

/-- The frames of all ranges. -/
def reservedFrames (ranges : List AddrRange) : Set ℕ := {x | ∃ r ∈ ranges, x ∈ r.frames}

theorem reservedFrames_snoc (ranges : List AddrRange) (r : AddrRange) :
    reservedFrames (ranges ++ [r]) = reservedFrames ranges ∪ r.frames := by
  ext x
  simp only [reservedFrames, Set.mem_ofPred_eq, List.mem_append, List.mem_singleton, Set.mem_union]
  constructor
  · rintro ⟨r', old | rfl, inside⟩
    · exact .inl ⟨r', old, inside⟩
    · exact .inr inside
  · rintro (⟨r', old, inside⟩ | inside)
    · exact ⟨r', .inl old, inside⟩
    · exact ⟨r, .inr rfl, inside⟩

theorem reserveTable_nil (n fuel : ℕ) (k : Allocator) :
    reserveTable n fuel [] k = initTable n fuel 0 n k :=
  bind_pure _

theorem reserveAll_snoc (fuel : ℕ) (ranges : List AddrRange) (r : AddrRange) (k : Allocator) :
    reserveAll fuel (ranges ++ [r]) k =
      reserveAll fuel ranges k >>= memoryReserve fuel r.start r.stop := by
  induction ranges generalizing k with
  | nil =>
    rw [List.nil_append, reserveAll, reserveAll, outcome_bind_ok]
    exact bind_pure _
  | cons r' rest ih =>
    rw [List.cons_append, reserveAll, reserveAll, bind_assoc]
    exact bind_congr ih

theorem reserveTable_snoc (n fuel : ℕ) (ranges : List AddrRange) (r : AddrRange) (k : Allocator) :
    reserveTable n fuel (ranges ++ [r]) k =
      reserveTable n fuel ranges k >>= memoryReserve fuel r.start r.stop := by
  rw [reserveTable, reserveTable, bind_assoc]
  exact bind_congr (reserveAll_snoc fuel ranges r)

/-- A call more. -/
theorem reserveTable_next {k₀ : Allocator}
    (front : Returns (fun fuel => reserveTable n fuel ranges k₀) k)
    (call : Returns (fun fuel => memoryReserve fuel r.start r.stop k) k') :
    Returns (fun fuel => reserveTable n fuel (ranges ++ [r]) k₀) k' := by
  obtain ⟨f, front⟩ := front
  obtain ⟨g, call⟩ := call
  refine ⟨max f g, ?_⟩
  dsimp only
  rw [reserveTable_snoc]
  exact outcome_bind_eq_ok.mpr ⟨k, (reserveTable_mono n ranges k₀).of_le (le_max_left f g) front,
    (memoryReserve_mono r.start r.stop k).of_le (le_max_right f g) call⟩

/-- Each of the calls is made for a range that is spared in the table before it. -/
def Spared (n : ℕ) (ranges : List AddrRange) (k : Allocator) : Prop :=
  ∀ done r, done ++ [r] <+: ranges → ∀ k',
    Returns (fun fuel => reserveTable n fuel done k) k' → Spares k'.frame r.first r.last

theorem spared_snoc : Spared n (ranges ++ [r]) k ↔ Spared n ranges k ∧
    ∀ k', Returns (fun fuel => reserveTable n fuel ranges k) k' →
      Spares k'.frame r.first r.last := by
  constructor
  · intro spared
    exact ⟨fun done r' front => spared done r' (front.trans (List.prefix_append _ _)),
      spared ranges r (List.prefix_refl _)⟩
  · rintro ⟨spared, last⟩ done r' front
    rcases List.prefix_concat_iff.mp front with same | front
    · obtain ⟨rfl, rfl⟩ := List.append_singleton_inj.mp same
      exact last
    · exact spared done r' front

/-- The ranges lie in the table and do not meet. -/
structure Fitting (n : ℕ) (ranges : List AddrRange) : Prop where
  inside : ∀ r ∈ ranges, r.last < n
  apart : ranges.Pairwise fun r r' => Disjoint r.frames r'.frames

theorem Fitting.snoc (fitting : Fitting n (ranges ++ [r])) :
    Fitting n ranges ∧ r.last < n ∧ Disjoint (reservedFrames ranges) r.frames := by
  obtain ⟨front, -, across⟩ := List.pairwise_append.mp fitting.apart
  refine ⟨⟨fun r' old => fitting.inside r' (List.mem_append_left _ old), front⟩,
    fitting.inside r (by simp), Set.disjoint_left.mpr ?_⟩
  rintro x ⟨r', old, inside⟩
  exact Set.disjoint_left.mp (across r' old r (by simp)) inside

/-- The table after the calls for the ranges. -/
structure Reserved (n : ℕ) (ranges : List AddrRange) (k : Allocator) : Prop where
  part : Partitioned n k
  used : covered (usedBlocks n k.frame) = reservedFrames ranges

/-- A call for a range that does not meet the ones before it. -/
theorem Reserved.next (reserved : Reserved n ranges k) (small : n < 2 ^ 30) (inside : r.last < n)
    (apart : Disjoint (reservedFrames ranges) r.frames) :
    ∃ k', Returns (fun fuel => memoryReserve fuel r.start r.stop k) k' ∧
      (Spares k.frame r.first r.last → Reserved n (ranges ++ [r]) k') ∧
      (¬ Spares k.frame r.first r.last → r.last ∉ covered (blocks n k'.frame)) := by
  have free : ∀ x, r.first ≤ x → x ≤ r.last → x ∈ covered (freeBlocks n k.frame) := by
    intro x low high
    rw [reserved.part.covered_free, reserved.used]
    exact ⟨high.trans_lt inside, fun old => Set.disjoint_left.mp apart old ⟨low, high⟩⟩
  obtain ⟨k', call, spared, spoiled⟩ := reserved.part.memoryReserve_returns
    (small.trans (by decide)) r.first_le_last inside free
  refine ⟨k', call, fun spares => ?_, spoiled⟩
  obtain ⟨part, used⟩ := spared spares
  exact ⟨part, by rw [used, reserved.used, reservedFrames_snoc]; rfl⟩

/-- **The reservations.** While each call is spared, the table stays partitioned and the
frames of the ranges are the used ones. -/
theorem reserveTable_ok (small : n < 2 ^ 30) (fitting : Fitting n ranges)
    (spared : Spared n ranges k) :
    ∃ k', Returns (fun fuel => reserveTable n fuel ranges k) k' ∧ Reserved n ranges k' ∧
      k'.pageList = k.pageList := by
  induction ranges using List.reverseRecOn with
  | nil =>
    obtain ⟨k', run, part, used, lists⟩ := initTable_partitioned small k
    refine ⟨k', ⟨n + 1, (reserveTable_nil _ _ _).trans run⟩, ⟨part, ?_⟩, lists⟩
    rw [used]
    simp [covered, reservedFrames]
  | append_singleton ranges r ih =>
    obtain ⟨fitting, inside, apart⟩ := fitting.snoc
    obtain ⟨spared, last⟩ := spared_snoc.mp spared
    obtain ⟨k₁, front, reserved, lists⟩ := ih fitting spared
    obtain ⟨k', call, keeps, -⟩ := reserved.next small inside apart
    obtain ⟨fuel, run⟩ := id call
    exact ⟨k', reserveTable_next front call, keeps (last k₁ front),
      (memoryReserve_pageList run).trans lists⟩

/-- A table that is partitioned after every call has spared them all. -/
theorem spared_of_tables (small : n < 2 ^ 30) (fitting : Fitting n ranges)
    (tables : ∀ done, done <+: ranges → ∃ k', Returns (fun fuel => reserveTable n fuel done k) k' ∧
      covered (blocks n k'.frame) = Set.Iio n) : Spared n ranges k := by
  induction ranges using List.reverseRecOn with
  | nil =>
    intro done r front
    simp at front
  | append_singleton ranges r ih =>
    obtain ⟨fitting, inside, apart⟩ := fitting.snoc
    have spared := ih fitting fun done front => tables done (front.trans (List.prefix_append _ _))
    refine spared_snoc.mpr ⟨spared, fun k₁ front => ?_⟩
    obtain ⟨k₂, front', reserved, -⟩ := reserveTable_ok small fitting spared
    obtain rfl := (reserveTable_mono n ranges k).returns_unique front' front
    obtain ⟨k', call, -, spoiled⟩ := reserved.next small inside apart
    obtain ⟨k₃, whole, covers⟩ := tables (ranges ++ [r]) (List.prefix_refl _)
    obtain rfl := (reserveTable_mono n (ranges ++ [r]) k).returns_unique whole
      (reserveTable_next front call)
    -- the last frame of a range that was not spared lies in no block
    by_contra spoils
    refine spoiled spoils ?_
    rw [covers]
    exact inside

/-! ## The last loop -/

/-- What the loops take off `non_init`: at least one, and no more than there is. -/
theorem log2_step {value : ℤ} (low : -2 ^ 30 ≤ value) (small : value < 2 ^ 30) :
    ∃ order, log2 value = .ok order ∧ toInt32 (value - power2 order) < 2 ^ 30 ∧
      min (value - 1) 0 ≤ toInt32 (value - power2 order) := by
  by_cases nonpos : value ≤ 0
  · refine ⟨-1, log2_of_nonpos nonpos, ?_⟩
    have one : ((power2 (-1) : ℕ) : ℤ) = 1 := by simp
    rw [one, toInt32_of_range (by omega) (by omega)]
    omega
  · obtain ⟨v, rfl⟩ := Int.eq_ofNat_of_zero_le (not_le.mp nonpos).le
    obtain ⟨l, level, -, fits, -⟩ := log2_greedy (show 0 < v by omega) (by omega)
    refine ⟨l, level, ?_⟩
    have positive := Nat.two_pow_pos l
    rw [power2_eq, Int.toNat_natCast, toInt32_of_range (by omega) (by omega)]
    omega

namespace Partitioned

/-- A partition is a matter of the frames. -/
theorem congr (part : Partitioned n k) (same : k'.frame = k.frame) : Partitioned n k' := by
  refine ⟨?_, ?_⟩
  · rw [clip, same]
    exact part.table
  · rw [same]
    exact part.marked

/-- A head inside a block is its own. -/
theorem eq_of_between (part : Partitioned n k) (mem : ⟨h, l⟩ ∈ blocks n k.frame)
    (mem' : b ∈ blocks n k.frame) (low : h ≤ b.head) (high : b.head < h + 2 ^ l) : b = ⟨h, l⟩ :=
  part.family.disjoint b mem' _ mem b.head (head_mem_cells b) ⟨low, high⟩

end Partitioned

/-- The heads from `0` up to `head` are in the lists of their levels. -/
structure Filled (n head : ℕ) (k : Allocator) (lists : ℕ → List ℕ) : Prop where
  freeLists : FreeLists k lists
  listed : ∀ i l, i ∈ lists l ↔ i < head ∧ ⟨i, l⟩ ∈ freeBlocks n k.frame

variable {lists : ℕ → List ℕ} {head : ℕ}

/-- One round of the last loop adds the block at `head` when it is free. -/
theorem Filled.round (filled : Filled n head k lists) (part : Partitioned n k)
    (mem : ⟨head, l⟩ ∈ blocks n k.frame)
    (fits : (k.frame head).status = 0 → Addressable head) :
    ∃ k' lists', addFree n head k = .ok k' ∧ k'.frame = k.frame ∧
      Filled n (head + 2 ^ l) k' lists' := by
  have level : (k.frame head).index = (l : ℤ) := mem.2
  have positive := Nat.two_pow_pos l
  -- the only head among the frames of the block is `head`
  have only : ∀ i m, ⟨i, m⟩ ∈ freeBlocks n k.frame → i < head + 2 ^ l →
      i < head ∨ i = head ∧ m = l := by
    intro i m free high
    by_cases low : head ≤ i
    · have same := part.eq_of_between mem free.1 low high
      simp only [Block.mk.injEq] at same
      exact .inr same
    · exact .inl (not_le.mp low)
  by_cases zero : (k.frame head).status = 0
  · have bound : l ≤ 16 := part.family.level_le _ mem
    have fresh : ∀ m, head ∉ lists m := fun m old =>
      lt_irrefl head ((filled.listed head m).mp old).1
    obtain ⟨pushed, -⟩ := filled.freeLists.push bound level fresh
    refine ⟨addPageItem head k, _, ?_, FreeLists.addPageItem_frame head k, pushed, fun i m => ?_⟩
    · rw [addFree, if_pos zero, checkItem, if_pos (fits zero), outcome_bind_ok,
        checkedAddPageItem, checkFrame_ok mem.1, outcome_bind_ok, level, checkList_ok bound]
      rfl
    rw [FreeLists.addPageItem_frame]
    by_cases same : m = l
    · subst same
      rw [Function.update_self, List.mem_cons, filled.listed]
      constructor
      · rintro (rfl | ⟨low, free⟩)
        · exact ⟨by omega, mem, zero⟩
        · exact ⟨by omega, free⟩
      · rintro ⟨high, free⟩
        rcases only i m free high with low | ⟨rfl, -⟩
        · exact .inr ⟨low, free⟩
        · exact .inl rfl
    · rw [Function.update_of_ne same, filled.listed]
      refine ⟨fun old => ⟨by omega, old.2⟩, fun new => ?_⟩
      obtain ⟨high, free⟩ := new
      rcases only i m free high with low | ⟨-, equal⟩
      · exact ⟨low, free⟩
      · exact absurd equal same
  · refine ⟨k, lists, if_neg zero, rfl, filled.freeLists, fun i m => ?_⟩
    rw [filled.listed]
    refine ⟨fun old => ⟨by omega, old.2⟩, fun new => ?_⟩
    obtain ⟨high, free⟩ := new
    rcases only i m free high with low | ⟨rfl, -⟩
    · exact ⟨low, free⟩
    · exact absurd free.2 zero

/-- The loop stands at a head or has passed the last frame. -/
def AtHead (n head : ℕ) (k : Allocator) : Prop := head = n ∨ ∃ l, ⟨head, l⟩ ∈ blocks n k.frame

theorem Partitioned.atHead_next (part : Partitioned n k) (mem : ⟨head, l⟩ ∈ blocks n k.frame) :
    AtHead n (head + 2 ^ l) k := by
  rcases eq_or_lt_of_le (part.fits mem) with last | more
  · exact .inl last
  · exact .inr (part.next_head mem more)

theorem Partitioned.atHead_zero (part : Partitioned n k) : AtHead n 0 k := by
  rcases Nat.eq_zero_or_pos n with rfl | positive
  · exact .inl rfl
  · have inside : 0 ∈ covered (blocks n k.frame) := by
      rw [part.covers]
      exact positive
    obtain ⟨⟨i, l⟩, mem, low, -⟩ := inside
    obtain rfl := Nat.le_zero.mp low
    exact .inr ⟨l, mem⟩

/-- **The last loop** fills the lists when the free blocks have addressable items. -/
theorem fillLists_ok {fuel : ℕ} {nonInit : ℤ} (part : Partitioned n k) (small : n < 2 ^ 30)
    (fits : ∀ b ∈ freeBlocks n k.frame, Addressable b.head) (start : AtHead n head k)
    (filled : Filled n head k lists) (low : -(head : ℤ) ≤ nonInit) (high : nonInit < 2 ^ 30)
    (enough : n - head < fuel) :
    ∃ k' lists', fillLists n fuel head nonInit k = .ok k' ∧ k'.frame = k.frame ∧
      Filled n n k' lists' := by
  induction fuel generalizing head nonInit k lists with
  | zero => omega
  | succ fuel ih =>
    rw [fillLists]
    rcases start with rfl | ⟨l, mem⟩
    · exact ⟨k, lists, if_neg (lt_irrefl _), rfl, filled⟩
    have inside : head < n := mem.1
    have level : (k.frame head).index = (l : ℤ) := mem.2
    have positive := Nat.two_pow_pos l
    obtain ⟨k₁, lists₁, added, frame₁, filled₁⟩ :=
      filled.round part mem fun zero => fits ⟨head, l⟩ ⟨mem, zero⟩
    obtain ⟨order, count, high₁, low₁⟩ := log2_step (show -2 ^ 30 ≤ nonInit by omega) high
    have start₁ : AtHead n (head + 2 ^ l) k₁ := by
      rw [AtHead, frame₁]
      exact part.atHead_next mem
    obtain ⟨k', lists', run, frame', filled'⟩ := ih (part.congr frame₁) (by rwa [frame₁]) start₁
      filled₁ (show -((head + 2 ^ l : ℕ) : ℤ) ≤ toInt32 (nonInit - power2 order) by omega) high₁
      (by omega)
    refine ⟨k', lists', ?_, frame'.trans frame₁, filled'⟩
    rw [if_pos inside, added, outcome_bind_ok, count, outcome_bind_ok, frame₁, level, power2_eq,
      Int.toNat_natCast]
    exact run

/-- When the last loop returns, it has added addressable items only. -/
theorem fillLists_addressable {fuel : ℕ} {nonInit : ℤ} (part : Partitioned n k)
    (start : AtHead n head k) (run : fillLists n fuel head nonInit k = .ok k') :
    ∀ b ∈ freeBlocks n k.frame, head ≤ b.head → Addressable b.head := by
  induction fuel generalizing head nonInit k with
  | zero => simp [fillLists] at run
  | succ fuel ih =>
    intro b free low
    have within : b.head < n := free.1.1
    rcases start with rfl | ⟨l, mem⟩
    · omega
    have level : (k.frame head).index = (l : ℤ) := mem.2
    rw [fillLists, if_pos mem.1] at run
    obtain ⟨k₁, added, run⟩ := outcome_bind_eq_ok.mp run
    obtain ⟨order, -, run⟩ := outcome_bind_eq_ok.mp run
    have frame₁ : k₁.frame = k.frame := by
      rw [addFree] at added
      split_ifs at added
      · obtain ⟨-, -, added⟩ := outcome_bind_eq_ok.mp added
        obtain ⟨-, -, added⟩ := outcome_bind_eq_ok.mp added
        obtain ⟨-, -, added⟩ := outcome_bind_eq_ok.mp added
        rw [← Except.ok.inj added, FreeLists.addPageItem_frame]
      · rw [← Except.ok.inj added]
    by_cases here : b.head < head + 2 ^ l
    · obtain rfl := part.eq_of_between mem free.1 low here
      have zero : (k.frame head).status = 0 := free.2
      rw [addFree, if_pos zero, checkItem] at added
      by_contra outside
      rw [if_neg outside, outcome_bind_error] at added
      cases added
    · have start₁ : AtHead n (head + 2 ^ l) k₁ := by
        rw [AtHead, frame₁]
        exact part.atHead_next mem
      rw [frame₁, level, power2_eq, Int.toNat_natCast] at run
      exact ih (part.congr frame₁) start₁ run b (by rwa [frame₁]) (not_lt.mp here)

/-! ## The whole of `page_init` -/

/-- `page_init` does its work on `ranges`: each call of `memory_reserve` returns and leaves
the table partitioned, with the frames of the ranges so far in the used blocks. The last
loop returns, with every other frame in one free block and the free blocks in the lists of
their levels. -/
structure Boots (n : ℕ) (ranges : List AddrRange) (k : Allocator) : Prop where
  reserves : ∀ done, done <+: ranges → ∃ k',
    Returns (fun fuel => reserveTable n fuel done k) k' ∧
      Decomposition 16 (blocks n k'.frame) ∧ covered (blocks n k'.frame) = Set.Iio n ∧
      covered (usedBlocks n k'.frame) = reservedFrames done
  fills : ∃ k' lists, Returns (fun fuel => pageInit n fuel ranges k) k' ∧
    Represents n (clip n k') lists ∧
      covered (usedBlocks n k'.frame) = reservedFrames ranges ∧
      ∀ x < n, x ∉ reservedFrames ranges → ∃! b, b ∈ freeBlocks n k'.frame ∧ x ∈ b.cells

/-- **The boot of the allocator.** `page_init` does its work if and only if each call of
`memory_reserve` is spared and the blocks it leaves free have addressable items. -/
theorem boots_iff (small : n < 2 ^ 30) (fitting : Fitting n ranges)
    (empty : ∀ l : ℕ, l ≤ 16 → k.pageList l = none) :
    Boots n ranges k ↔ Spared n ranges k ∧ ∀ k',
      Returns (fun fuel => reserveTable n fuel ranges k) k' →
        ∀ b ∈ freeBlocks n k'.frame, Addressable b.head := by
  constructor
  · -- the work is done: the calls return what they should, so that they were spared
    rintro ⟨reserves, k', lists, ⟨fuel, run⟩, -⟩
    have spared : Spared n ranges k := spared_of_tables small fitting fun done front => by
      obtain ⟨k₁, returns, -, covers, -⟩ := reserves done front
      exact ⟨k₁, returns, covers⟩
    refine ⟨spared, fun k₁ front b free => ?_⟩
    obtain ⟨k₂, front', reserved, -⟩ := reserveTable_ok small fitting spared
    obtain rfl := (reserveTable_mono n ranges k).returns_unique front' front
    obtain ⟨k₃, front₃, run⟩ := outcome_bind_eq_ok.mp run
    obtain rfl := (reserveTable_mono n ranges k).returns_unique front' ⟨fuel, front₃⟩
    exact fillLists_addressable reserved.part reserved.part.atHead_zero run b free b.head.zero_le
  · rintro ⟨spared, fits⟩
    -- each call returns, as those before it were spared too
    refine ⟨fun done front => ?_, ?_⟩
    · obtain ⟨rest, whole⟩ := front
      have fitting' : Fitting n done := by
        subst whole
        exact ⟨fun r mem => fitting.inside r (List.mem_append_left _ mem),
          (List.pairwise_append.mp fitting.apart).1⟩
      have spared' : Spared n done k := fun done' r front' =>
        spared done' r (front'.trans ⟨rest, whole⟩)
      obtain ⟨k', returns, reserved, -⟩ := reserveTable_ok small fitting' spared'
      exact ⟨k', returns, reserved.part.family, reserved.part.covers, reserved.used⟩
    · obtain ⟨k₁, front, reserved, pages⟩ := reserveTable_ok small fitting spared
      -- the last loop fills the lists, which were empty
      have none_yet : Filled n 0 k₁ fun _ => [] := by
        refine ⟨⟨fun l bound => ?_, by simp, by simp, fun _ _ => rfl⟩, by simp⟩
        rw [pages, empty l bound]
        exact ⟨rfl, List.isChain_nil⟩
      obtain ⟨k', lists, run, frame, filled⟩ := fillLists_ok reserved.part small
        (fits k₁ front) reserved.part.atHead_zero none_yet
        (show -((0 : ℕ) : ℤ) ≤ (n : ℤ) by omega) (by omega) (show n - 0 < n + 1 by omega)
      have part : Partitioned n k' := reserved.part.congr frame
      have used : covered (usedBlocks n k'.frame) = reservedFrames ranges := by
        rw [frame, reserved.used]
      refine ⟨k', lists, ?_, ⟨part.table, ?_, fun i l => ?_⟩, used, fun x inside outside => ?_⟩
      · obtain ⟨f, front⟩ := front
        refine ⟨max f (n + 1), ?_⟩
        dsimp only
        rw [pageInit, (reserveTable_mono n ranges k).of_le (le_max_left f (n + 1)) front,
          outcome_bind_ok]
        exact (fillLists_mono n 0 n k₁).of_le (le_max_right f (n + 1)) run
      · exact ⟨filled.freeLists.linked, filled.freeLists.self, filled.freeLists.apart,
          filled.freeLists.top⟩
      · rw [filled.listed, freeBlocks_clip]
        exact ⟨fun listed => listed.2, fun free => ⟨free.1.1, free⟩⟩
      · have free : x ∈ covered (freeBlocks n k'.frame) := by
          rw [part.covered_free, used]
          exact ⟨inside, outside⟩
        obtain ⟨b, mem, inb⟩ := free
        exact ⟨b, ⟨mem, inb⟩, fun c hc => part.family.disjoint c hc.1.1 b mem.1 x hc.2 inb⟩

/-! ## Six frames -/

/-- The memory of the allocator before the boot. -/
def blank : Allocator := ⟨fun _ => ⟨0, 0⟩, fun _ => none, fun _ => ⟨0, 0⟩⟩

/-- Frames 0 and 1. -/
def lowRange : AddrRange := ⟨0x0000, 0x1000, Nat.zero_le _⟩

/-- Frames 4 and 5. -/
def highRange : AddrRange := ⟨0x4000, 0x5000, by decide⟩

/-- Frames 0 to 4: the first block of a table of six frames and one frame more. -/
def acrossRange : AddrRange := ⟨0x0000, 0x4000, Nat.zero_le _⟩

/-- A mark of the table, read off one run. -/
theorem reserveTable_index {i : ℕ} {mark : ℤ} (fuel : ℕ)
    (returns : Returns (fun fuel => reserveTable n fuel ranges k) k')
    (run : (reserveTable n fuel ranges k).map (fun k => (k.frame i).index) = .ok mark) :
    (k'.frame i).index = mark := by
  cases result : reserveTable n fuel ranges k with
  | error e =>
    rw [result] at run
    cases run
  | ok k₁ =>
    obtain rfl := (reserveTable_mono n ranges k).returns_unique returns ⟨fuel, result⟩
    rw [result] at run
    exact Except.ok.inj run

/-- `boots_iff` for frames 0 and 1 and then 4 and 5. -/
theorem boots_sixFrames : Boots 6 [lowRange, highRange] blank := by
  have fitting : Fitting 6 [lowRange, highRange] := by
    refine ⟨by simp [lowRange, highRange, AddrRange.last], ?_⟩
    simp only [List.pairwise_cons, List.mem_singleton, forall_eq, List.not_mem_nil,
      false_implies, implies_true, List.Pairwise.nil, and_true]
    refine Set.disjoint_left.mpr fun x low high => ?_
    have below : x ≤ 1 := low.2
    have above : 4 ≤ x := high.1
    omega
  have spared : Spared 6 ([lowRange] ++ [highRange]) blank := by
    refine spared_snoc.mpr ⟨?_, fun k' returns => .inr ⟨?_, ?_⟩⟩
    · change Spared 6 ([] ++ [lowRange]) blank
      refine spared_snoc.mpr ⟨fun done r front => by simp at front, fun k' returns => .inr ⟨?_, ?_⟩⟩
      · have mark : (k'.frame 1).index = -1 := reserveTable_index 20 returns (by decide)
        exact mark.trans_lt (by decide)
      · exact endsWithin_of_odd (by decide) (by decide)
    · have mark : (k'.frame 5).index = -1 := reserveTable_index 20 returns (by decide)
      exact mark.trans_lt (by decide)
    · exact endsWithin_of_odd (by decide) (by decide)
  refine (boots_iff (by decide) fitting fun _ _ => rfl).mpr ⟨spared, fun k' _ b free => ?_⟩
  have inside : b.head < 6 := free.1.1
  unfold Addressable
  omega

/-- Frames 0 to 4 are too much for `memory_reserve`: the block of the first four ends right
before frame 4. Afterwards frame 4 is in no block, and the last loop looks for the list of
level `-1`. -/
theorem acrossRange_lost : Fitting 6 [acrossRange] ∧ (∀ l : ℕ, l ≤ 16 → blank.pageList l = none) ∧
    ¬ Boots 6 [acrossRange] blank ∧ pageInit 6 20 [acrossRange] blank = .error .outOfBounds := by
  have fitting : Fitting 6 [acrossRange] :=
    ⟨by simp [acrossRange, AddrRange.last], List.pairwise_singleton _ _⟩
  refine ⟨fitting, fun _ _ => rfl, fun boots => ?_, by rfl⟩
  have spared : Spared 6 [acrossRange] blank := by
    refine spared_of_tables (by decide) fitting fun done front => ?_
    obtain ⟨k', returns, -, covers, -⟩ := boots.reserves done front
    exact ⟨k', returns, covers⟩
  obtain ⟨k', run, -⟩ := initTable_partitioned (show 6 < 2 ^ 30 by decide) blank
  have returns : Returns (fun fuel => reserveTable 6 fuel [] blank) k' :=
    ⟨7, (reserveTable_nil _ _ _).trans run⟩
  have mark : (k'.frame 4).index = 1 := reserveTable_index 20 returns (by decide)
  rcases spared [] acrossRange (List.prefix_refl _) k' returns with same | ⟨neg, -⟩
  · exact absurd same (by decide)
  · exact absurd (mark.symm.trans_lt neg) (by decide)

end BareMetal.Buddy
