import Mathlib.Data.Nat.ModEq
import Mathlib.Tactic.Common

/-!
# Memory of bytes

Memory maps addresses to bytes, and numbers are stored with their lowest byte first. A load
of the bytes of a store is the number that was stored, cut to its width; a load elsewhere is
not changed by it. Bytes may be copied one by one: a load only depends on the bytes it reads.

`Kept a n m m'` says that the `n` bytes from `a` on are those they were, and `Writes a n m m'`
that no others have changed.
-/

namespace BareMetal.CS

/-- One byte for each address. -/
abbrev ByteMemory := ℕ → UInt8

namespace ByteMemory

variable {m m' m'' : ByteMemory} {addr addr' a b n k width value : ℕ} {v w : BitVec 64}

/-! ## Loads and stores -/

/-- The number in the bytes from an address on. -/
def load (m : ByteMemory) : ℕ → ℕ → ℕ
  | 0, _ => 0
  | width + 1, addr => (m addr).toNat + 256 * load m width (addr + 1)

/-- A number is stored from an address on. -/
def store (m : ByteMemory) (width addr value : ℕ) : ByteMemory := fun x =>
  if addr ≤ x ∧ x < addr + width then UInt8.ofNat (value / 256 ^ (x - addr)) else m x

/-- A load of eight bytes. -/
def load64 (m : ByteMemory) (addr : ℕ) : BitVec 64 := BitVec.ofNat 64 (m.load 8 addr)

/-- A store of eight bytes. -/
def store64 (m : ByteMemory) (addr : ℕ) (v : BitVec 64) : ByteMemory := m.store 8 addr v.toNat

/-- A load of four bytes. -/
def load32 (m : ByteMemory) (addr : ℕ) : BitVec 32 := BitVec.ofNat 32 (m.load 4 addr)

/-- A store of four bytes. -/
def store32 (m : ByteMemory) (addr : ℕ) (v : BitVec 32) : ByteMemory := m.store 4 addr v.toNat

theorem store_inside {x : ℕ} (low : addr ≤ x) (high : x < addr + width) :
    m.store width addr value x = UInt8.ofNat (value / 256 ^ (x - addr)) :=
  if_pos ⟨low, high⟩

theorem store_outside {x : ℕ} (outside : x < addr ∨ addr + width ≤ x) :
    m.store width addr value x = m x :=
  if_neg (by omega)

/-- A load only depends on its bytes. -/
theorem load_congr (same : ∀ k < width, m' (addr' + k) = m (addr + k)) :
    m'.load width addr' = m.load width addr := by
  induction width generalizing addr addr' with
  | zero => rfl
  | succ width ih =>
    have first := same 0 (Nat.succ_pos width)
    have rest : m'.load width (addr' + 1) = m.load width (addr + 1) := by
      apply ih
      intro k small
      have next := same (k + 1) (Nat.succ_lt_succ small)
      rwa [Nat.add_right_comm, Nat.add_assoc, Nat.add_right_comm, Nat.add_assoc]
    rw [load, load, rest]
    congr 2

/-- A load finds the number whose bytes are there. -/
theorem load_of_bytes (bytes : ∀ k < width, m (addr + k) = UInt8.ofNat (value / 256 ^ k)) :
    m.load width addr = value % 256 ^ width := by
  induction width generalizing addr value with
  | zero => simp [load, Nat.mod_one]
  | succ width ih =>
    have first := bytes 0 (Nat.succ_pos width)
    have rest : m.load width (addr + 1) = value / 256 % 256 ^ width := by
      apply ih
      intro k small
      have next := bytes (k + 1) (Nat.succ_lt_succ small)
      rw [Nat.div_div_eq_div_mul, ← Nat.pow_succ', Nat.add_right_comm, Nat.add_assoc]
      exact next
    rw [load, rest, Nat.pow_succ', Nat.mod_mul, Nat.add_zero] at *
    rw [first]
    simp

theorem load_store_self : (m.store width addr value).load width addr = value % 256 ^ width := by
  apply load_of_bytes
  intro k small
  rw [store_inside (by omega) (by omega), Nat.add_sub_cancel_left]

theorem load64_congr (same : ∀ k < 8, m' (addr' + k) = m (addr + k)) :
    m'.load64 addr' = m.load64 addr := by
  rw [load64, load_congr same, load64]

theorem load32_congr (same : ∀ k < 4, m' (addr' + k) = m (addr + k)) :
    m'.load32 addr' = m.load32 addr := by
  rw [load32, load_congr same, load32]

/-- A number is read back. -/
@[simp] theorem load64_store64_self : (m.store64 addr v).load64 addr = v := by
  rw [load64, store64, load_store_self]
  apply BitVec.eq_of_toNat_eq
  have small := v.isLt
  rw [BitVec.toNat_ofNat]
  omega

@[simp] theorem load32_store32_self {v : BitVec 32} : (m.store32 addr v).load32 addr = v := by
  rw [load32, store32, load_store_self]
  apply BitVec.eq_of_toNat_eq
  have small := v.isLt
  rw [BitVec.toNat_ofNat]
  omega

/-- A store elsewhere is not seen. -/
theorem load64_store64_of_apart (apart : a + 8 ≤ addr ∨ addr + 8 ≤ a) :
    (m.store64 addr v).load64 a = m.load64 a :=
  load64_congr fun _ _ => store_outside (by omega)

/-! ## What changes -/

/-- The bytes from `a` on are as before. -/
def Kept (a n : ℕ) (m m' : ByteMemory) : Prop := ∀ x, a ≤ x → x < a + n → m' x = m x

/-- Only the bytes from `a` on may have changed. -/
def Writes (a n : ℕ) (m m' : ByteMemory) : Prop := ∀ x, x < a ∨ a + n ≤ x → m' x = m x

theorem Writes.refl (a n : ℕ) (m : ByteMemory) : Writes a n m m := fun _ _ => rfl

theorem Writes.trans (first : Writes a n m m') (second : Writes a n m' m'') : Writes a n m m'' :=
  fun x outside => (second x outside).trans (first x outside)

theorem Writes.mono (writes : Writes b k m m') (low : a ≤ b) (high : b + k ≤ a + n) :
    Writes a n m m' :=
  fun x outside => writes x (by omega)

theorem Writes.kept (writes : Writes b k m m') (apart : a + n ≤ b ∨ b + k ≤ a) : Kept a n m m' :=
  fun x low high => writes x (by omega)

theorem writes_store : Writes addr width m (m.store width addr value) :=
  fun _ outside => store_outside outside

theorem writes_store64 : Writes addr 8 m (m.store64 addr v) := writes_store

theorem writes_store32 {v : BitVec 32} : Writes addr 4 m (m.store32 addr v) := writes_store

theorem writes_update {byte : UInt8} : Writes addr 1 m (Function.update m addr byte) :=
  fun _ outside => Function.update_of_ne (by omega) _ _

/-- One more store inside. -/
theorem Writes.store64 (writes : Writes a n m m') (low : a ≤ addr) (high : addr + 8 ≤ a + n) :
    Writes a n m (m'.store64 addr v) :=
  writes.trans (writes_store64.mono low high)

theorem Writes.store32 {v : BitVec 32} (writes : Writes a n m m') (low : a ≤ addr)
    (high : addr + 4 ≤ a + n) : Writes a n m (m'.store32 addr v) :=
  writes.trans (writes_store32.mono low high)

theorem Writes.update {byte : UInt8} (writes : Writes a n m m') (low : a ≤ addr)
    (high : addr + 1 ≤ a + n) : Writes a n m (Function.update m' addr byte) :=
  writes.trans (writes_update.mono low high)

/-- A load elsewhere. -/
theorem Writes.load64 (writes : Writes a n m m') (apart : addr + 8 ≤ a ∨ a + n ≤ addr) :
    m'.load64 addr = m.load64 addr :=
  load64_congr fun _ _ => writes _ (by omega)

theorem Writes.load32 (writes : Writes a n m m') (apart : addr + 4 ≤ a ∨ a + n ≤ addr) :
    m'.load32 addr = m.load32 addr :=
  load32_congr fun _ _ => writes _ (by omega)

/-- Two rows of bytes, each with its address and length, do not overlap. -/
def Apart (r s : ℕ × ℕ) : Prop := r.1 + r.2 ≤ s.1 ∨ s.1 + s.2 ≤ r.1

instance (r s : ℕ × ℕ) : Decidable (Apart r s) := inferInstanceAs (Decidable (_ ∨ _))

theorem apart_iff : Apart (a, n) (b, k) ↔ a + n ≤ b ∨ b + k ≤ a := Iff.rfl

theorem Apart.symm {r s : ℕ × ℕ} (apart : Apart r s) : Apart s r := Or.symm apart

/-- A part of a row is apart from what the row is apart from. -/
theorem Apart.inside {r : ℕ × ℕ} (apart : Apart r (a, n)) (low : a ≤ b) (high : b + k ≤ a + n) :
    Apart r (b, k) := by
  have away : r.1 + r.2 ≤ a ∨ a + n ≤ r.1 := apart
  show r.1 + r.2 ≤ b ∨ b + k ≤ r.1
  omega

theorem Writes.kept_of_apart (writes : Writes b k m m') (apart : Apart (a, n) (b, k)) :
    Kept a n m m' :=
  writes.kept apart

theorem Kept.refl (a n : ℕ) (m : ByteMemory) : Kept a n m m := fun _ _ _ => rfl

theorem Kept.mono (kept : Kept a n m m') (low : a ≤ b) (high : b + k ≤ a + n) : Kept b k m m' :=
  fun x inside below => kept x (by omega) (by omega)

theorem Kept.trans (first : Kept a n m m') (second : Kept a n m' m'') : Kept a n m m'' :=
  fun x low high => (second x low high).trans (first x low high)

theorem Kept.load64 (kept : Kept a n m m') (low : a ≤ addr) (high : addr + 8 ≤ a + n) :
    m'.load64 addr = m.load64 addr :=
  load64_congr fun _ _ => kept _ (by omega) (by omega)

theorem Kept.load32 (kept : Kept a n m m') (low : a ≤ addr) (high : addr + 4 ≤ a + n) :
    m'.load32 addr = m.load32 addr :=
  load32_congr fun _ _ => kept _ (by omega) (by omega)

end ByteMemory

end BareMetal.CS
