import Mathlib.Data.List.Pairwise
import Mathlib.Order.Basic
import Mathlib.Order.Lattice

/-!
# Ordered lists and one insertion

A list is ordered by a key when the keys do not decrease. The lemmas say when a
list stays ordered after a new entry is put in front of it or behind one of its
entries.

The second case is that of a search which stops too late: it passes the entries
below the new key and stops at the first that is not below it, or at the last, and
the new entry goes behind this one. The result is ordered exactly when the new key
`Fits`: it is in the list already, or on one side of it.
-/

namespace BareMetal.Math

variable {α κ : Type*} [LinearOrder κ] {key : α → κ} {k : κ} {x y : α} {xs before after : List α}

/-- The keys do not decrease along the list. -/
def Ordered (key : α → κ) (xs : List α) : Prop := xs.Pairwise fun x y => key x ≤ key y

/-- The key occurs, or lies below or above all that do. -/
def Fits (key : α → κ) (k : κ) (xs : List α) : Prop :=
  (∃ x ∈ xs, key x = k) ∨ (∀ x ∈ xs, k < key x) ∨ ∀ x ∈ xs, key x < k

theorem Ordered.congr {key' : α → κ} (ordered : Ordered key xs)
    (agree : ∀ x ∈ xs, key' x = key x) : Ordered key' xs :=
  ordered.imp_of_mem fun hx hy le => by rwa [agree _ hx, agree _ hy]

theorem fits_congr {key' : α → κ} (agree : ∀ x ∈ xs, key' x = key x) :
    Fits key' k xs ↔ Fits key k xs := by
  unfold Fits
  refine or_congr ?_ (or_congr ?_ ?_)
  · exact exists_congr fun x => and_congr_right fun hx => by rw [agree x hx]
  · exact forall₂_congr fun x hx => by rw [agree x hx]
  · exact forall₂_congr fun x hx => by rw [agree x hx]

/-- The head of an ordered list has the least key. -/
theorem Ordered.head_le (ordered : Ordered key (x :: xs)) : ∀ y ∈ x :: xs, key x ≤ key y := by
  intro y hy
  rcases List.mem_cons.mp hy with rfl | tail
  · exact le_rfl
  · exact List.rel_of_pairwise_cons ordered tail

theorem Ordered.tail (ordered : Ordered key (x :: xs)) : Ordered key xs :=
  List.Pairwise.of_cons ordered

/-- An entry below the head goes in front. -/
theorem Ordered.push (ordered : Ordered key (y :: xs)) (below : key x < key y) :
    Ordered key (x :: y :: xs) := by
  apply List.Pairwise.cons _ ordered
  exact fun z hz => below.le.trans (ordered.head_le z hz)

/-- A key below the head fits. -/
theorem fits_of_lt_head (ordered : Ordered key (y :: xs)) (below : k < key y) :
    Fits key k (y :: xs) :=
  .inr (.inl fun z hz => lt_of_lt_of_le below (ordered.head_le z hz))

/-- The entry goes behind the first one that is not below it, or the last. The
list stays ordered when that one is not above it. -/
theorem ordered_insert_iff (ordered : Ordered key (before ++ y :: after))
    (below : ∀ z ∈ before, key z < key x) (stop : after = [] ∨ key x ≤ key y) :
    Ordered key (before ++ y :: x :: after) ↔ key y ≤ key x := by
  obtain ⟨front, back, across⟩ := List.pairwise_append.mp ordered
  have behind : ∀ z ∈ after, key x ≤ key z := by
    intro z hz
    rcases stop with rfl | le
    · exact absurd hz List.not_mem_nil
    · exact le.trans (List.rel_of_pairwise_cons back hz)
  constructor
  · intro new
    have back' := (List.pairwise_append.mp new).2.1
    exact List.rel_of_pairwise_cons back' List.mem_cons_self
  · intro le
    apply List.pairwise_append.mpr
    refine ⟨front, ?_, fun z hz w hw => ?_⟩
    · apply List.Pairwise.cons
      · intro w hw
        rcases List.mem_cons.mp hw with rfl | inside
        · exact le
        · exact List.rel_of_pairwise_cons back inside
      · exact List.Pairwise.cons behind (List.Pairwise.of_cons back)
    · rcases List.mem_cons.mp hw with rfl | rest
      · exact across z hz w List.mem_cons_self
      · rcases List.mem_cons.mp rest with rfl | inside
        · exact (below z hz).le
        · exact across z hz w (List.mem_cons_of_mem y inside)

/-- In the same situation, with a head that is not above the key, the key fits
exactly when the entry in front of the new one is not above it. -/
theorem fits_iff (ordered : Ordered key (before ++ y :: after))
    (below : ∀ z ∈ before, key z < k) (stop : after = [] ∨ k ≤ key y)
    (head : ∀ z, (before ++ y :: after).head? = some z → key z ≤ k) :
    Fits key k (before ++ y :: after) ↔ key y ≤ k := by
  have back := (List.pairwise_append.mp ordered).2.1
  constructor
  · intro fits
    by_contra above
    replace above := not_le.mp above
    -- the head is below the key, so it is not the entry `y`
    have low : ∃ z ∈ before, key z < k := by
      cases before with
      | nil => exact absurd (head y rfl) (not_le.mpr above)
      | cons z zs => exact ⟨z, List.mem_cons_self, below z List.mem_cons_self⟩
    obtain ⟨z, hz, low⟩ := low
    rcases fits with ⟨w, hw, same⟩ | all_above | all_below
    · rcases List.mem_append.mp hw with front | rest
      · exact (below w front).ne same
      · rw [← same] at above
        exact absurd (Ordered.head_le back w rest) (not_le.mpr above)
    · exact lt_asymm low (all_above z (List.mem_append_left _ hz))
    · exact lt_asymm above (all_below y (by simp))
  · intro le
    rcases eq_or_lt_of_le le with same | lt
    · exact .inl ⟨y, by simp, same⟩
    · rcases stop with rfl | ge
      · refine .inr (.inr fun z hz => ?_)
        rcases List.mem_append.mp hz with front | last
        · exact below z front
        · rwa [List.mem_singleton.mp last]
      · exact absurd lt (not_lt.mpr ge)

end BareMetal.Math
