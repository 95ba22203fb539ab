import Mathlib.Data.List.Chain
import Mathlib.Data.List.Nodup
import Mathlib.Logic.Function.Basic

/-!
# Linked lists through a successor map

A heap of cells is read through a successor map `next : ι → Option ι`, `none`
standing for the null pointer. `Segment next p xs q` says that following `next`
from the pointer `p` visits exactly the cells `xs`, in this order, and arrives at
`q`; `Linked next p xs` is the null-terminated case.

The lemmas say what one pointer store does to a list: pushing a cell in front,
popping the first one, unlinking or inserting behind a given cell, and appending
behind the last. Everything is stated with `Function.update`, so a caller only
has to show that its store is such an update on the cells concerned.

## Main results

* `Linked.unique`, `Linked.nodup` — a pointer determines its list, and a
  null-terminated list repeats no cell
* `Segment.update` — stores outside the visited cells are not seen
* `Linked.push`, `Linked.pop`, `Linked.unlink`, `Linked.insert`, `Linked.snoc`
-/

namespace BareMetal.CS

variable {ι : Type*} {next next' prev prev' : ι → Option ι} {p q r : Option ι}
  {x y z : ι} {xs ys : List ι}

/-- Following `next` from the pointer `p` visits the cells `xs` and arrives at `q`. -/
def Segment (next : ι → Option ι) : Option ι → List ι → Option ι → Prop
  | p, [], q => p = q
  | p, x :: xs, q => p = some x ∧ Segment next (next x) xs q

/-- `p` heads the null-terminated list of the cells `xs`. -/
abbrev Linked (next : ι → Option ι) (p : Option ι) (xs : List ι) : Prop :=
  Segment next p xs none

@[simp] theorem segment_nil : Segment next p [] q ↔ p = q := Iff.rfl

@[simp] theorem segment_cons :
    Segment next p (x :: xs) q ↔ p = some x ∧ Segment next (next x) xs q := Iff.rfl

/-- A segment over a concatenation splits at the pointer between the two parts. -/
theorem segment_append :
    Segment next p (xs ++ ys) q ↔ ∃ r, Segment next p xs r ∧ Segment next r ys q := by
  induction xs generalizing p with
  | nil => simp
  | cons x xs ih => simp [ih, and_assoc]

/-- Segments only read the successors of the cells they visit. -/
theorem Segment.congr (agree : ∀ x ∈ xs, next' x = next x) (h : Segment next p xs q) :
    Segment next' p xs q := by
  induction xs generalizing p with
  | nil => exact h
  | cons x xs ih =>
    refine ⟨h.1, ?_⟩
    rw [agree x List.mem_cons_self]
    exact ih (fun y hy => agree y (List.mem_cons_of_mem x hy)) h.2

/-- A store to a cell outside a segment is not seen by it. -/
theorem Segment.update [DecidableEq ι] {value : Option ι} (outside : x ∉ xs)
    (h : Segment next p xs q) : Segment (Function.update next x value) p xs q :=
  h.congr fun _ hy => Function.update_of_ne (ne_of_mem_of_not_mem hy outside) _ _

theorem linked_none : Linked next none xs ↔ xs = [] := by
  cases xs <;> simp

/-- A list headed by a cell starts with that cell. -/
theorem Linked.exists_cons (h : Linked next (some x) xs) :
    ∃ rest, xs = x :: rest ∧ Linked next (next x) rest := by
  cases xs with
  | nil => simp at h
  | cons y rest =>
    obtain ⟨same, rest_linked⟩ := h
    obtain rfl := Option.some.inj same
    exact ⟨rest, rfl, rest_linked⟩

/-- A non-empty list is headed by its first cell. -/
theorem Linked.head (h : Linked next p (x :: xs)) : p = some x := h.1

/-- The head pointer determines the list. -/
theorem Linked.unique (h : Linked next p xs) (h' : Linked next p ys) : xs = ys := by
  induction xs generalizing p ys with
  | nil =>
    obtain rfl : p = none := h
    exact (linked_none.mp h').symm
  | cons x xs ih =>
    obtain ⟨rfl, rest⟩ := h
    obtain ⟨rest', rfl, hrest'⟩ := h'.exists_cons
    rw [ih rest hrest']

/-- A null-terminated list visits no cell twice: from a repeated cell the walk
would go on as it did the first time, and never end. -/
theorem Linked.nodup (h : Linked next p xs) : xs.Nodup := by
  induction xs generalizing p with
  | nil => exact List.nodup_nil
  | cons x xs ih =>
    refine List.nodup_cons.mpr ⟨fun repeated => ?_, ih h.2⟩
    obtain ⟨before, after, rfl⟩ := List.append_of_mem repeated
    obtain ⟨r, -, second⟩ := segment_append.mp h.2
    obtain ⟨rfl, first⟩ : r = some x ∧ _ := second
    have same := Linked.unique h.2 first
    have lengths := congrArg List.length same
    simp at lengths
    omega

/-- Following the head once drops it. -/
theorem Linked.pop (h : Linked next p (x :: xs)) : Linked next (next x) xs := h.2

/-! ## Single stores -/

section Stores

variable [DecidableEq ι]

/-- A new cell pointing to the old head becomes the head. -/
theorem Linked.push (h : Linked next p xs) (fresh : x ∉ xs) :
    Linked (Function.update next x p) (some x) (x :: xs) := by
  refine ⟨rfl, ?_⟩
  rw [Function.update_self]
  exact h.update fresh

/-- Pointing a cell behind its successor takes the successor out. -/
theorem Linked.unlink (h : Linked next p (xs ++ y :: z :: ys)) :
    Linked (Function.update next y (next z)) p (xs ++ y :: ys) := by
  have distinct := h.nodup
  obtain ⟨r, before, rfl, middle, after⟩ := segment_append.mp h
  refine segment_append.mpr ⟨_, before.update (fun inside => ?_), rfl, ?_⟩
  · exact (List.nodup_append.mp distinct).2.2 y inside y List.mem_cons_self rfl
  · rw [Function.update_self]
    refine after.update fun inside => ?_
    have tail_nodup := (List.nodup_append.mp distinct).2.1
    exact (List.nodup_cons.mp tail_nodup).1 (List.mem_cons_of_mem z inside)

/-- Pointing a cell to a new one, and that one to the old successor, inserts it. -/
theorem Linked.insert (h : Linked next p (xs ++ y :: ys)) (fresh : z ∉ xs ++ y :: ys) :
    Linked (Function.update (Function.update next y (some z)) z (next y)) p
      (xs ++ y :: z :: ys) := by
  have distinct := h.nodup
  obtain ⟨r, before, rfl, after⟩ := segment_append.mp h
  have fresh_before : z ∉ xs := fun inside => fresh (List.mem_append_left _ inside)
  have ne : y ≠ z := fun same => fresh (by simp [same])
  have fresh_after : z ∉ ys := fun inside =>
    fresh (List.mem_append_right _ (List.mem_cons_of_mem y inside))
  have outside_before : y ∉ xs := fun inside =>
    (List.nodup_append.mp distinct).2.2 y inside y List.mem_cons_self rfl
  have outside_after : y ∉ ys :=
    (List.nodup_cons.mp (List.nodup_append.mp distinct).2.1).1
  refine segment_append.mpr ⟨_, (before.update outside_before).update fresh_before, rfl, ?_⟩
  rw [Function.update_of_ne ne, Function.update_self]
  refine ⟨rfl, ?_⟩
  rw [Function.update_self]
  exact (after.update outside_after).update fresh_after

/-- A terminated cell hung behind the last one becomes the last. -/
theorem Linked.snoc (h : Linked next p (xs ++ [y])) (fresh : z ∉ xs ++ [y]) :
    Linked (Function.update (Function.update next z none) y (some z)) p (xs ++ [y, z]) := by
  have ne : y ≠ z := fun same => fresh (by simp [same])
  have inserted := h.insert fresh
  obtain ⟨r, -, rfl, last⟩ := segment_append.mp h
  have last : next y = none := last
  rwa [last, Function.update_comm ne] at inserted

end Stores

/-! ## Back links -/

/-- Each cell but the first points back to the cell in front of it. -/
abbrev BackLinked (prev : ι → Option ι) (xs : List ι) : Prop :=
  xs.IsChain fun x y => prev y = some x

/-- Back links only read the cells behind the first. -/
theorem BackLinked.congr (agree : ∀ y ∈ xs.tail, prev' y = prev y) (h : BackLinked prev xs) :
    BackLinked prev' xs :=
  h.imp_of_mem_tail_imp fun _ y _ hy hxy => (agree y hy).trans hxy

/-- A null-terminated list with back links. Nothing is said of the back pointer
of its first cell. -/
structure Doubly (next prev : ι → Option ι) (p : Option ι) (xs : List ι) : Prop where
  linked : Linked next p xs
  back : BackLinked prev xs

/-- Doubly linked lists only read their own cells. -/
theorem Doubly.congr (h : Doubly next prev p xs) (agree : ∀ y ∈ xs, next' y = next y)
    (agree' : ∀ y ∈ xs, prev' y = prev y) : Doubly next' prev' p xs :=
  ⟨h.linked.congr agree, h.back.congr fun y hy => agree' y (List.mem_of_mem_tail hy)⟩

/-- A cell that points to the old head, which points back, becomes the head. -/
theorem Doubly.push (h : Doubly next prev p xs) (forward : next' x = p)
    (backward : ∀ y, p = some y → prev' y = some x) (agree : ∀ y ∈ xs, next' y = next y)
    (agree' : ∀ y ∈ xs.tail, prev' y = prev y) : Doubly next' prev' (some x) (x :: xs) := by
  refine ⟨⟨rfl, forward ▸ h.linked.congr agree⟩, ?_⟩
  have kept := h.back.congr agree'
  cases xs with
  | nil => exact List.isChain_singleton x
  | cons y ys => exact List.isChain_cons_cons.mpr ⟨backward y h.linked.head, kept⟩

/-- The first cell is dropped; the back pointer of the new first cell is free. -/
theorem Doubly.pop (h : Doubly next prev p (x :: xs)) (agree : ∀ y ∈ xs, next' y = next y)
    (agree' : ∀ y ∈ xs.tail, prev' y = prev y) : Doubly next' prev' (next x) xs := by
  refine ⟨h.linked.pop.congr agree, BackLinked.congr agree' ?_⟩
  exact List.IsChain.tail h.back

/-- The cell behind `y` is taken out: `y` takes over its successor, which points
back to `y`. -/
theorem Doubly.unlink (h : Doubly next prev p (xs ++ y :: x :: ys)) (forward : next' y = next x)
    (backward : ∀ z, next x = some z → prev' z = some y)
    (agree : ∀ z ∈ xs ++ ys, next' z = next z)
    (agree' : ∀ z ∈ (xs ++ [y]).tail ++ ys.tail, prev' z = prev z) :
    Doubly next' prev' p (xs ++ y :: ys) := by
  classical
  constructor
  · refine h.linked.unlink.congr fun z hz => ?_
    rcases List.mem_append.mp hz with before | here
    · have ne : z ≠ y := by
        rintro rfl
        exact (List.nodup_append.mp h.linked.nodup).2.2 z before z List.mem_cons_self rfl
      rw [Function.update_of_ne ne, agree z (List.mem_append_left _ before)]
    · rcases List.mem_cons.mp here with rfl | after
      · rw [Function.update_self, forward]
      · have ne : z ≠ y := by
          rintro rfl
          have distinct := (List.nodup_append.mp h.linked.nodup).2.1
          exact (List.nodup_cons.mp distinct).1 (List.mem_cons_of_mem x after)
        rw [Function.update_of_ne ne, agree z (List.mem_append_right _ after)]
  · obtain ⟨before, after⟩ := List.isChain_split.mp h.back
    have rest : BackLinked prev ys := List.IsChain.tail (List.IsChain.tail after)
    refine List.isChain_split.mpr ⟨?_, ?_⟩
    · exact BackLinked.congr (fun z hz => agree' z (List.mem_append_left _ hz)) before
    · cases ys with
      | nil => exact List.isChain_singleton y
      | cons z zs =>
        obtain ⟨r, -, -, -, here⟩ := segment_append.mp h.linked
        exact List.isChain_cons_cons.mpr ⟨backward z here.1,
          rest.congr fun w hw => agree' w (List.mem_append_right _ hw)⟩

end BareMetal.CS
