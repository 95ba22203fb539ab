import Mathlib.Algebra.BigOperators.Group.List.Basic
import Mathlib.Algebra.GroupWithZero.Nat
import Mathlib.Data.List.Range
import Mathlib.Tactic.Common

/-!
# Byte-addressed memory

Memory maps every byte address to a cell. A cell does not hold a bare byte but
the number last stored over it together with the place of the byte inside that
number, so a value read back at the address and width it was stored with is the
value itself, of whatever size, while a load that meets the traces of two
different stores sees their little-endian bytes.

Two laws carry every use: `load_store_self` reads a store back, and
`load_store_of_disjoint` says that a store elsewhere is not seen. `load_congr`
is the frame rule behind the second: a load depends on its own bytes only.
-/

namespace BareMetal.CS

/-- One byte of memory: the byte at place `offset`, lowest first, of `value`. -/
structure Cell where
  value : ℕ
  offset : ℕ
deriving DecidableEq, Repr

/-- The byte a cell holds. -/
def Cell.byte (c : Cell) : ℕ := c.value / 256 ^ c.offset % 256

/-- Memory: one cell for each byte address. -/
abbrev Memory := ℕ → Cell

namespace Memory

variable {m m' : Memory} {addr width value other : ℕ}

/-- Store the `width` bytes of `value` from `addr` on. -/
def store (m : Memory) (addr width value : ℕ) : Memory := fun x =>
  if addr ≤ x ∧ x < addr + width then ⟨value, x - addr⟩ else m x

/-- The bytes from `addr` on are those of one stored value. -/
def Intact (m : Memory) (addr width : ℕ) : Prop :=
  ∀ k < width, m (addr + k) = ⟨(m addr).value, k⟩

instance : Decidable (Intact m addr width) :=
  inferInstanceAs (Decidable (∀ k < width, m (addr + k) = ⟨(m addr).value, k⟩))

/-- Load the `width` bytes from `addr` on. -/
def load (m : Memory) (addr width : ℕ) : ℕ :=
  if m.Intact addr width then (m addr).value
  else ((List.range width).map fun k => (m (addr + k)).byte * 256 ^ k).sum

theorem store_apply_of_mem {x : ℕ} (low : addr ≤ x) (high : x < addr + width) :
    m.store addr width value x = ⟨value, x - addr⟩ :=
  if_pos ⟨low, high⟩

theorem store_apply_of_outside {x : ℕ} (outside : x < addr ∨ addr + width ≤ x) :
    m.store addr width value x = m x :=
  if_neg (by omega)

/-- A load depends on its own bytes only. -/
theorem load_congr (positive : 0 < width)
    (agree : ∀ k < width, m' (addr + k) = m (addr + k)) :
    m'.load addr width = m.load addr width := by
  have first : m' addr = m addr := agree 0 positive
  have intact : m'.Intact addr width ↔ m.Intact addr width :=
    forall₂_congr fun k hk => by rw [agree k hk, first]
  have bytes : ((List.range width).map fun k => (m' (addr + k)).byte * 256 ^ k) =
      (List.range width).map fun k => (m (addr + k)).byte * 256 ^ k :=
    List.map_congr_left fun k hk => by rw [agree k (List.mem_range.mp hk)]
  simp only [load, intact, first, bytes]

/-- A value is read back at the place and width it was stored with. -/
theorem load_store_self (positive : 0 < width) :
    (m.store addr width value).load addr width = value := by
  have first : (m.store addr width value addr).value = value := by
    rw [store_apply_of_mem (by omega) (by omega)]
  have intact : (m.store addr width value).Intact addr width := fun k hk => by
    rw [first, store_apply_of_mem (by omega) (by omega)]
    congr 1
    omega
  rw [load, if_pos intact, first]

/-- A store elsewhere is not seen. -/
theorem load_store_of_disjoint {width' : ℕ} (positive : 0 < width')
    (disjoint : other + width' ≤ addr ∨ addr + width ≤ other) :
    (m.store addr width value).load other width' = m.load other width' :=
  load_congr positive fun _ _ => store_apply_of_outside (by omega)

end Memory

end BareMetal.CS
