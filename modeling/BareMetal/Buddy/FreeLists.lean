import BareMetal.Buddy.Model
import BareMetal.CS.LinkedList

/-!
# The free lists

`FreeLists k lists` says that `page_list[l]` heads the doubly linked list of the
items of the frames `lists l`, each of which names its own frame. Popping a head,
`add_page_item` and `delete_page_item` act on these lists as `List` operations.

Popping leaves the new head's `previous` behind, pointing to the popped item, so
nothing is claimed of a head's `previous` in general. `Front k l` is the stronger
fact that it is null. `add_page_item` establishes it for its list and
`delete_page_item`, which needs it, keeps it; that is why no stale pointer is ever
followed.
-/

namespace BareMetal.Buddy

open CS

variable {k : Allocator} {lists : ℕ → List ℕ} {l i : ℕ} {rest pre post : List ℕ}

/-- `page_list[l]` heads the doubly linked list of the frames `lists l`. -/
structure FreeLists (k : Allocator) (lists : ℕ → List ℕ) : Prop where
  linked : ∀ l : ℕ, l ≤ 16 → Doubly (itemNext k.mem) (itemPrevious k.mem) (k.pageList l)
    (lists l)
  self : ∀ l, ∀ i ∈ lists l, itemIndex k.mem i = i
  apart : ∀ l m i, i ∈ lists l → i ∈ lists m → l = m
  top : ∀ l, 16 < l → lists l = []

/-- The head of the list of level `l` has a null `previous`. -/
def Front (k : Allocator) (l : ℕ) : Prop :=
  ∀ i, k.pageList l = some i → itemPrevious k.mem i = none

namespace FreeLists

theorem level_le (fl : FreeLists k lists) (mem : i ∈ lists l) : l ≤ 16 := by
  by_contra above
  rw [fl.top l (by omega)] at mem
  exact List.not_mem_nil mem

theorem nodup (fl : FreeLists k lists) (l : ℕ) : (lists l).Nodup := by
  by_cases level : l ≤ 16
  · exact (fl.linked l level).linked.nodup
  · rw [fl.top l (by omega)]
    exact List.nodup_nil

theorem pageList_of_cons (fl : FreeLists k lists) (head : lists l = i :: rest) :
    k.pageList l = some i := by
  have level := fl.level_le (l := l) (i := i) (by simp [head])
  have linked := (fl.linked l level).linked
  rw [head] at linked
  exact linked.head

theorem pageList_of_nil (fl : FreeLists k lists) (level : l ≤ 16) (empty : lists l = []) :
    k.pageList l = none := by
  have linked := (fl.linked l level).linked
  rwa [empty] at linked

theorem pageList_eq_none_iff (fl : FreeLists k lists) (level : l ≤ 16) :
    k.pageList l = none ↔ lists l = [] := by
  refine ⟨fun null => ?_, fl.pageList_of_nil level⟩
  cases head : lists l with
  | nil => rfl
  | cons i rest => simp [fl.pageList_of_cons head] at null

/-- The free lists do not read the frame table. -/
theorem congr (fl : FreeLists k lists) (k' : Allocator) (pageList : k'.pageList = k.pageList)
    (mem : k'.mem = k.mem) : FreeLists k' lists where
  linked := by rw [pageList, mem]; exact fl.linked
  self := by rw [mem]; exact fl.self
  apart := fl.apart
  top := fl.top

/-- The free lists read only the pages of their frames. -/
theorem with_mem (fl : FreeLists k lists) {mem : Memory}
    (agree : ∀ l, ∀ i ∈ lists l, ∀ x, x / 0x1000 = i → mem x = k.mem x) :
    FreeLists { k with mem := mem } lists := by
  have loads : ∀ l, ∀ i ∈ lists l, ∀ o width, 0 < width → o + width ≤ 24 →
      mem.load (itemAddr i + o) width = k.mem.load (itemAddr i + o) width := by
    intro l i hi o width positive inside
    refine Memory.load_congr positive fun d hd => agree l i hi _ ?_
    unfold itemAddr
    omega
  constructor
  · intro l bound
    exact (fl.linked l bound).congr
      (fun i hi => congrArg itemAt (loads l i hi 16 8 (by omega) (by omega)))
      (fun i hi => congrArg itemAt (loads l i hi 8 8 (by omega) (by omega)))
  · exact fun l i hi => (loads l i hi 0 4 (by omega) (by omega)).trans (fl.self l i hi)
  · exact fl.apart
  · exact fl.top

/-- Assembles the free lists after a change to the list of one level from what it
does to that list and to the cells of the others. -/
private theorem replace {k' : Allocator} {xs : List ℕ} (fl : FreeLists k lists) (level : l ≤ 16)
    (heads : ∀ m : ℤ, m ≠ l → k'.pageList m = k.pageList m)
    (here : Doubly (itemNext k'.mem) (itemPrevious k'.mem) (k'.pageList l) xs)
    (self : ∀ i ∈ xs, itemIndex k'.mem i = i)
    (others : ∀ m i, m ≠ l → i ∈ lists m → i ∉ xs ∧ itemNext k'.mem i = itemNext k.mem i ∧
      itemPrevious k'.mem i = itemPrevious k.mem i ∧ itemIndex k'.mem i = itemIndex k.mem i) :
    FreeLists k' (Function.update lists l xs) where
  linked m hm := by
    by_cases same : m = l
    · subst same
      rwa [Function.update_self]
    · rw [Function.update_of_ne same, heads m (by exact_mod_cast same)]
      exact (fl.linked m hm).congr (fun i hi => (others m i same hi).2.1)
        (fun i hi => (others m i same hi).2.2.1)
  self m i hi := by
    by_cases same : m = l
    · subst same
      rw [Function.update_self] at hi
      exact self i hi
    · rw [Function.update_of_ne same] at hi
      exact (others m i same hi).2.2.2.trans (fl.self m i hi)
  apart m m' i hi hi' := by
    by_cases same : m = l <;> by_cases same' : m' = l
    · rw [same, same']
    · subst same
      rw [Function.update_self] at hi
      rw [Function.update_of_ne same'] at hi'
      exact absurd hi (others m' i same' hi').1
    · subst same'
      rw [Function.update_self] at hi'
      rw [Function.update_of_ne same] at hi
      exact absurd hi' (others m i same hi).1
    · rw [Function.update_of_ne same] at hi
      rw [Function.update_of_ne same'] at hi'
      exact fl.apart m m' i hi hi'
  top m hm := by
    rw [Function.update_of_ne (by omega), fl.top m hm]

/-- Popping the head of a list, its successor's `previous` left as it is. -/
theorem pop (fl : FreeLists k lists) (head : lists l = i :: rest) :
    FreeLists { k with pageList := Function.update k.pageList l (itemNext k.mem i) }
      (Function.update lists l rest) := by
  have level := fl.level_le (l := l) (i := i) (by simp [head])
  have linked := fl.linked l level
  rw [head] at linked
  refine fl.replace level (fun m hm => Function.update_of_ne hm _ _) ?_ ?_ ?_
  · simp only [Function.update_self]
    exact linked.pop (fun _ _ => rfl) fun _ _ => rfl
  · exact fun j hj => fl.self l j (by simp [head, hj])
  · refine fun m j ne hj => ⟨fun inside => ne ?_, rfl, rfl, rfl⟩
    exact fl.apart m l j hj (by simp [head, inside])

/-! ## `add_page_item` -/

@[simp] theorem addPageItem_frame (index : ℕ) (k : Allocator) :
    (addPageItem index k).frame = k.frame := by
  unfold addPageItem
  dsimp only
  split <;> rfl

theorem addPageItem_pageList {index : ℕ} (level : (k.frame index).index = (l : ℤ)) :
    (addPageItem index k).pageList = Function.update k.pageList l (some index) := by
  unfold addPageItem
  dsimp only
  rw [level]
  split <;> rfl

theorem itemIndex_addPageItem (index : ℕ) (k : Allocator) :
    itemIndex (addPageItem index k).mem = Function.update (itemIndex k.mem) index index := by
  unfold addPageItem
  dsimp only
  split <;> simp

theorem itemNext_addPageItem {index : ℕ} (level : (k.frame index).index = (l : ℤ)) :
    itemNext (addPageItem index k).mem =
      Function.update (itemNext k.mem) index (k.pageList l) := by
  unfold addPageItem
  dsimp only
  rw [level]
  cases head : k.pageList l <;> simp

theorem itemPrevious_addPageItem {index : ℕ} (level : (k.frame index).index = (l : ℤ)) :
    itemPrevious (addPageItem index k).mem =
      match k.pageList l with
      | none => Function.update (itemPrevious k.mem) index none
      | some current => Function.update (Function.update (itemPrevious k.mem) index none)
          current (some index) := by
  unfold addPageItem
  dsimp only
  rw [level]
  cases head : k.pageList l <;> simp

/-- `add_page_item` writes `previous` of the new item and of the old head only. -/
private theorem itemPrevious_addPageItem_of_ne {index j : ℕ}
    (level : (k.frame index).index = (l : ℤ)) (ne : j ≠ index) (ne' : k.pageList l ≠ some j) :
    itemPrevious (addPageItem index k).mem j = itemPrevious k.mem j := by
  rw [itemPrevious_addPageItem level]
  cases head : k.pageList l with
  | none => exact Function.update_of_ne ne _ _
  | some current =>
    have other : j ≠ current := fun same => ne' (by rw [head, same])
    simp [Function.update_of_ne other, Function.update_of_ne ne]

/-- `add_page_item` puts a frame in front of its level's list. -/
theorem push (fl : FreeLists k lists) {index : ℕ} (bound : l ≤ 16)
    (level : (k.frame index).index = (l : ℤ)) (fresh : ∀ m, index ∉ lists m) :
    FreeLists (addPageItem index k) (Function.update lists l (index :: lists l)) ∧
      Front (addPageItem index k) l := by
  have linked := fl.linked l bound
  have head_mem : ∀ j, k.pageList l = some j → j ∈ lists l := fun j hj => by
    obtain ⟨tail, same, -⟩ := (hj ▸ linked.linked : Linked _ (some j) _).exists_cons
    simp [same]
  -- the first item of this list is in no other one
  have not_head : ∀ m j, j ∈ lists m → k.pageList l = some j → m = l :=
    fun m j hj same => fl.apart m l j hj (head_mem j same)
  have previous_index : itemPrevious (addPageItem index k).mem index = none := by
    rw [itemPrevious_addPageItem level]
    cases head : k.pageList l with
    | none => simp
    | some current =>
      have ne : index ≠ current := fun same => fresh l (same ▸ head_mem current head)
      simp [Function.update_of_ne ne]
  have list_head : (addPageItem index k).pageList l = some index := by
    rw [addPageItem_pageList level, Function.update_self]
  refine ⟨fl.replace bound (fun m hm => ?_) ?_ ?_ ?_, fun j hj => ?_⟩
  · rw [addPageItem_pageList level, Function.update_of_ne hm]
  · rw [list_head]
    refine linked.push ?_ (fun y hy => ?_) (fun y hy => ?_) (fun y hy => ?_)
    · rw [itemNext_addPageItem level, Function.update_self]
    · rw [itemPrevious_addPageItem level, hy]
      simp
    · rw [itemNext_addPageItem level,
        Function.update_of_ne (ne_of_mem_of_not_mem hy (fresh l))]
    · have in_list := List.mem_of_mem_tail hy
      refine itemPrevious_addPageItem_of_ne level (ne_of_mem_of_not_mem in_list (fresh l)) ?_
      intro same
      obtain ⟨tail, list, -⟩ := (same ▸ linked.linked : Linked _ (some y) _).exists_cons
      have distinct := fl.nodup l
      rw [list] at distinct hy
      exact (List.nodup_cons.mp distinct).1 hy
  · intro j hj
    rw [itemIndex_addPageItem]
    rcases List.mem_cons.mp hj with rfl | old
    · rw [Function.update_self]
    · rw [Function.update_of_ne (ne_of_mem_of_not_mem old (fresh l)), fl.self l j old]
  · intro m j ne hj
    have other : j ≠ index := ne_of_mem_of_not_mem hj (fresh m)
    refine ⟨fun inside => ?_, ?_, ?_, ?_⟩
    · rcases List.mem_cons.mp inside with same | old
      · exact other same
      · exact ne (fl.apart m l j hj old)
    · rw [itemNext_addPageItem level, Function.update_of_ne other]
    · exact itemPrevious_addPageItem_of_ne level other fun same => ne (not_head m j hj same)
    · rw [itemIndex_addPageItem, Function.update_of_ne other]
  · rw [list_head] at hj
    rwa [← Option.some.inj hj]

/-! ## `delete_page_item` -/

@[simp] theorem deletePageItem_frame (index : ℕ) (k : Allocator) :
    (deletePageItem index k).frame = k.frame := by
  unfold deletePageItem
  dsimp only
  split <;> rfl

@[simp] theorem itemIndex_deletePageItem (index : ℕ) (k : Allocator) :
    itemIndex (deletePageItem index k).mem = itemIndex k.mem := by
  unfold deletePageItem
  dsimp only
  split <;> simp

/-- Deleting the first item of a list. -/
private theorem delete_head (fl : FreeLists k lists) {index : ℕ}
    (level : (k.frame index).index = (l : ℤ)) (list : lists l = index :: post)
    (front : Front k l) :
    FreeLists (deletePageItem index k) (Function.update lists l post) ∧
      Front (deletePageItem index k) l := by
  have bound := fl.level_le (l := l) (i := index) (by simp [list])
  have linked := fl.linked l bound
  rw [list] at linked
  have previous := front index (fl.pageList_of_cons list)
  have distinct := linked.linked.nodup
  cases post with
  | nil =>
    -- the only item of the list
    have next : itemNext k.mem index = none := linked.linked.2
    have result : deletePageItem index k =
        { k with pageList := Function.update k.pageList l none } := by
      simp [deletePageItem, previous, next, level]
    rw [result]
    refine ⟨fl.replace bound (fun m hm => Function.update_of_ne hm _ _) ?_ (by simp)
      (fun m j _ _ => ⟨List.not_mem_nil, rfl, rfl, rfl⟩), fun j hj => ?_⟩
    · simp only [Function.update_self]
      exact ⟨rfl, List.isChain_nil⟩
    · simp at hj
  | cons q post =>
    -- the second item becomes the first one
    have next : itemNext k.mem index = some q := linked.linked.2.1
    have result : deletePageItem index k =
        { k with
          mem := setItemPrevious k.mem q none
          pageList := Function.update k.pageList l (some q) } := by
      simp [deletePageItem, previous, next, level]
    rw [result]
    refine ⟨fl.replace bound (fun m hm => Function.update_of_ne hm _ _) ?_ (fun j hj => ?_)
      (fun m j ne hj => ?_), fun j hj => ?_⟩
    · simp only [Function.update_self, itemNext_setItemPrevious, itemPrevious_setItemPrevious,
        ← next]
      refine linked.pop (fun _ _ => rfl) fun y hy => Function.update_of_ne ?_ _ _
      have tail_distinct := (List.nodup_cons.mp distinct).2
      exact ne_of_mem_of_not_mem hy (List.nodup_cons.mp tail_distinct).1
    · simp only [itemIndex_setItemPrevious]
      exact fl.self l j (by simp [list] at hj ⊢; exact .inr hj)
    · have outside : j ∉ lists l := fun inside => ne (fl.apart m l j hj inside)
      rw [list] at outside
      have other : j ≠ q := fun same => outside (by simp [same])
      exact ⟨fun inside => outside (List.mem_cons_of_mem _ inside), by simp,
        by simp [Function.update_of_ne other], by simp⟩
    · simp only [Function.update_self, Option.some.injEq] at hj
      simp [hj]

/-- Deleting an item behind another. -/
private theorem delete_inner (fl : FreeLists k lists) {index p : ℕ}
    (list : lists l = pre ++ p :: index :: post) (front : Front k l) :
    FreeLists (deletePageItem index k) (Function.update lists l (pre ++ p :: post)) ∧
      Front (deletePageItem index k) l := by
  have bound := fl.level_le (l := l) (i := index) (by simp [list])
  have linked := fl.linked l bound
  rw [list] at linked
  have distinct := linked.linked.nodup
  obtain ⟨r, -, here⟩ := segment_append.mp linked.linked
  have after : Linked (itemNext k.mem) (itemNext k.mem index) post := here.2.2
  have previous : itemPrevious k.mem index = some p :=
    (List.isChain_cons_cons.mp (List.isChain_split.mp linked.back).2).1
  have pageList : (deletePageItem index k).pageList = k.pageList := by
    unfold deletePageItem
    dsimp only
    rw [previous]
    split <;> simp_all
  have next_eq : itemNext (deletePageItem index k).mem =
      Function.update (itemNext k.mem) p (itemNext k.mem index) := by
    unfold deletePageItem
    dsimp only
    rw [previous]
    cases next : itemNext k.mem index <;> simp
  have previous_eq : ∀ j, itemNext k.mem index ≠ some j →
      itemPrevious (deletePageItem index k).mem j = itemPrevious k.mem j := by
    intro j ne
    unfold deletePageItem
    dsimp only
    rw [previous]
    cases next : itemNext k.mem index with
    | none => simp
    | some q =>
      have other : j ≠ q := fun same => ne (by rw [next, same])
      simp [Function.update_of_ne other]
  have next_mem : ∀ j, itemNext k.mem index = some j → j ∈ post := fun j hj => by
    obtain ⟨tail, same, -⟩ := (hj ▸ after : Linked _ (some j) _).exists_cons
    simp [same]
  -- membership facts about the three parts of the list
  have parts := List.nodup_append.mp distinct
  have p_out : p ∉ pre := fun inside => parts.2.2 p inside p List.mem_cons_self rfl
  have p_post : p ∉ post := fun inside =>
    (List.nodup_cons.mp parts.2.1).1 (List.mem_cons_of_mem index inside)
  have pre_post : ∀ j ∈ pre ++ [p], j ∉ post := by
    intro j hj inside
    rcases List.mem_append.mp hj with before | here
    · exact parts.2.2 j before j (by simp [inside]) rfl
    · rw [List.mem_singleton.mp here] at inside
      exact p_post inside
  refine ⟨fl.replace bound (fun m hm => by rw [pageList]) ?_ (fun j hj => ?_)
    (fun m j ne hj => ?_), fun j hj => ?_⟩
  · rw [pageList]
    refine linked.unlink ?_ (fun z hz => ?_) (fun z hz => ?_) (fun z hz => ?_)
    · rw [next_eq, Function.update_self]
    · unfold deletePageItem
      dsimp only
      rw [previous, hz]
      simp
    · rw [next_eq, Function.update_of_ne]
      rintro rfl
      exact (List.mem_append.mp hz).elim p_out p_post
    · refine previous_eq z fun same => ?_
      obtain ⟨tail, list', -⟩ := (same ▸ after : Linked _ (some z) _).exists_cons
      rcases List.mem_append.mp hz with before | behind
      · exact pre_post z (List.mem_of_mem_tail before) (by simp [list'])
      · have post_distinct := after.nodup
        rw [list'] at behind post_distinct
        exact (List.nodup_cons.mp post_distinct).1 behind
  · rw [itemIndex_deletePageItem]
    refine fl.self l j ?_
    rw [list]
    simp only [List.mem_append, List.mem_cons] at hj ⊢
    tauto
  · have outside : j ∉ lists l := fun inside => ne (fl.apart m l j hj inside)
    rw [list] at outside
    simp only [List.mem_append, List.mem_cons, not_or] at outside
    refine ⟨by simp [outside], ?_, ?_, by rw [itemIndex_deletePageItem]⟩
    · rw [next_eq, Function.update_of_ne outside.2.1]
    · exact previous_eq j fun same => outside.2.2.2 (next_mem j same)
  · rw [pageList] at hj
    rw [previous_eq j ?_]
    · exact front j hj
    · intro same
      have head : lists l ≠ [] := by simp [list]
      have first := linked.linked
      rw [hj] at first
      obtain ⟨tail, list', -⟩ := first.exists_cons
      have in_front : j ∈ pre ++ [p] := by
        cases pre with
        | nil => simp_all
        | cons a as => simp_all
      exact pre_post j in_front (next_mem j same)

/-- `delete_page_item` takes a frame out of its level's list. -/
theorem delete (fl : FreeLists k lists) {index : ℕ} (level : (k.frame index).index = (l : ℤ))
    (mem : index ∈ lists l) (front : Front k l) :
    FreeLists (deletePageItem index k) (Function.update lists l ((lists l).erase index)) ∧
      Front (deletePageItem index k) l := by
  obtain ⟨pre, post, list⟩ := List.append_of_mem mem
  have distinct := fl.nodup l
  rw [list] at distinct
  have absent : index ∉ pre := fun inside =>
    (List.nodup_append.mp distinct).2.2 index inside index List.mem_cons_self rfl
  have erased : (lists l).erase index = pre ++ post := by
    rw [list, List.erase_append_right _ absent, List.erase_cons_head]
  rw [erased]
  rcases List.eq_nil_or_concat pre with rfl | ⟨before, p, rfl⟩
  · exact fl.delete_head level list front
  · have list' : lists l = before ++ p :: index :: post := by simpa using list
    simpa using fl.delete_inner list' front

/-- The neighbours of a listed item are listed too. -/
private theorem neighbours (fl : FreeLists k lists) (mem : i ∈ lists l) (front : Front k l)
    {j : ℕ} (near : itemNext k.mem i = some j ∨ itemPrevious k.mem i = some j) :
    j ∈ lists l := by
  have linked := fl.linked l (fl.level_le mem)
  obtain ⟨pre, post, list⟩ := List.append_of_mem mem
  rw [list] at linked ⊢
  rcases near with next | previous
  · obtain ⟨r, -, -, after⟩ := segment_append.mp linked.linked
    obtain ⟨tail, same, -⟩ := (next ▸ after : Linked _ (some j) post).exists_cons
    simp [same]
  · rcases List.eq_nil_or_concat pre with rfl | ⟨before, p, rfl⟩
    · have := front i (fl.pageList_of_cons list)
      simp [this] at previous
    · have back := linked.back
      simp only [List.concat_eq_append, List.append_assoc, List.singleton_append] at back
      have := (List.isChain_cons_cons.mp (List.isChain_split.mp back).2).1
      rw [previous, Option.some.injEq] at this
      simp [this]

end FreeLists

/-! ## Where the stores go -/

/-- Memory changed in the items of the frames `S` only. -/
def ItemWrites (S : Set ℕ) (m m' : Memory) : Prop :=
  ∀ x, m' x ≠ m x → x / 0x1000 ∈ S ∧ 0x1000 - 24 ≤ x % 0x1000

namespace ItemWrites

variable {S T : Set ℕ} {m m' m'' : Memory}

theorem refl (S : Set ℕ) (m : Memory) : ItemWrites S m m := fun _ changed => absurd rfl changed

theorem trans (first : ItemWrites S m m') (second : ItemWrites S m' m'') :
    ItemWrites S m m'' := by
  intro x changed
  by_cases same : m' x = m x
  · exact second x (same ▸ changed)
  · exact first x same

theorem mono (writes : ItemWrites S m m') (sub : S ⊆ T) : ItemWrites T m m' :=
  fun x changed => ⟨sub (writes x changed).1, (writes x changed).2⟩

/-- Bytes of other pages, and bytes in front of an item, are as before. -/
theorem eq_of_outside (writes : ItemWrites S m m') {x : ℕ}
    (outside : x / 0x1000 ∉ S ∨ x % 0x1000 < 0x1000 - 24) : m' x = m x := by
  by_contra changed
  have := writes x changed
  rcases outside with page | place
  · exact page this.1
  · omega

private theorem store {o width value : ℕ} (mem : i ∈ S) (inside : o + width ≤ 24) :
    ItemWrites S m (m.store (itemAddr i + o) width value) := by
  intro x changed
  by_cases within : itemAddr i + o ≤ x ∧ x < itemAddr i + o + width
  · unfold itemAddr at within
    have page : x / 0x1000 = i := by omega
    exact ⟨page ▸ mem, by omega⟩
  · exact absurd (Memory.store_apply_of_outside (by omega)) changed

theorem setItemIndex (mem : i ∈ S) (value : ℕ) : ItemWrites S m (setItemIndex m i value) :=
  store (o := 0) mem (by omega)

theorem setItemPrevious (mem : i ∈ S) (p : Option ℕ) :
    ItemWrites S m (setItemPrevious m i p) :=
  store mem (by omega)

theorem setItemNext (mem : i ∈ S) (p : Option ℕ) : ItemWrites S m (setItemNext m i p) :=
  store mem (by omega)

/-- `add_page_item` writes to its own item and to the old head's. -/
theorem addPageItem {index : ℕ} (mem : index ∈ S)
    (heads : ∀ j, k.pageList (k.frame index).index = some j → j ∈ S) :
    ItemWrites S k.mem (addPageItem index k).mem := by
  unfold Buddy.addPageItem
  dsimp only
  have cleared := ((setItemIndex (m := k.mem) mem index).trans
    (setItemPrevious mem none)).trans (setItemNext mem none)
  split
  · exact cleared
  · next current head =>
    exact (cleared.trans (setItemNext mem _)).trans (setItemPrevious (heads current head) _)

end ItemWrites

/-- `delete_page_item` writes to the neighbours of its item. -/
theorem FreeLists.itemWrites_delete {S : Set ℕ} (fl : FreeLists k lists) (mem : i ∈ lists l)
    (front : Front k l) (listed : ∀ j ∈ lists l, j ∈ S) :
    ItemWrites S k.mem (deletePageItem i k).mem := by
  have next : ∀ j, itemNext k.mem i = some j → j ∈ S :=
    fun j hj => listed j (fl.neighbours mem front (.inl hj))
  have previous : ∀ j, itemPrevious k.mem i = some j → j ∈ S :=
    fun j hj => listed j (fl.neighbours mem front (.inr hj))
  unfold deletePageItem
  dsimp only
  split
  · next q p hq hp =>
    exact (ItemWrites.setItemNext (previous p hp) _).trans
      (ItemWrites.setItemPrevious (next q hq) _)
  · next q hq _ => exact ItemWrites.setItemPrevious (next q hq) _
  · next p _ hp => exact ItemWrites.setItemNext (previous p hp) _
  · exact ItemWrites.refl _ _

end BareMetal.Buddy
