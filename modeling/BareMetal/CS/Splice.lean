import Mathlib.Data.List.Basic

/-!
# Splicing lists

`splice content pos bytes` replaces the elements of `content` from position `pos` on
by `bytes`, and extends `content` where `bytes` runs past its end.
-/

namespace BareMetal.CS

variable {α : Type*} {content bytes : List α} {pos : ℕ}

/-- `content` with `bytes` from position `pos` on. -/
def splice (content : List α) (pos : ℕ) (bytes : List α) : List α :=
  content.take pos ++ bytes ++ content.drop (pos + bytes.length)

theorem splice_nil : splice content pos [] = content := by
  simp [splice]

theorem length_splice (inside : pos ≤ content.length) :
    (splice content pos bytes).length = max content.length (pos + bytes.length) := by
  simp only [splice, List.length_append, List.length_take, List.length_drop]
  omega

/-- A splice changes one element, and then those behind it. -/
theorem splice_cons {a : α} (inside : pos < content.length) :
    splice content pos (a :: bytes) = splice (content.set pos a) (pos + 1) bytes := by
  have front : (content.set pos a).take (pos + 1) = content.take pos ++ [a] := by
    rw [List.take_succ_eq_append_getElem (by simpa using inside), List.getElem_set_self,
      List.take_set_of_le (Nat.le_refl pos)]
  have back : (content.set pos a).drop (pos + 1 + bytes.length) =
      content.drop (pos + (a :: bytes).length) := by
    rw [List.drop_set_of_lt (by omega), List.length_cons]
    congr 1
    omega
  rw [splice, splice, front, back, List.append_assoc (content.take pos) [a] bytes,
    List.singleton_append]

/-- What stood behind the place of the splice is lost when the splice covers it. -/
theorem splice_of_le (cover : content.length ≤ pos + bytes.length) :
    splice content pos bytes = content.take pos ++ bytes := by
  rw [splice, List.drop_of_length_le cover, List.append_nil]

/-- A splice at the start, of at most the length. -/
theorem splice_zero : splice content 0 bytes = bytes ++ content.drop bytes.length := by
  rw [splice, List.take_zero, List.nil_append, Nat.zero_add]

end BareMetal.CS
