import BareMetal.Context.Model

/-!
# Trap frames

`save_all` lays out the registers in a trap frame, and `load_all` reads a trap frame.

## Main results

* `saveAll_frame` — `save_all` makes a frame of the registers
* `IsFrame.loadAll_x`, `IsFrame.loadAll_special` — `load_all` reads the registers of a frame
-/

namespace BareMetal.Context

open CS ByteMemory

variable {m : ByteMemory} {x : ℕ → BitVec 64} {first base n i : ℕ} {c c' : Cpu}

/-! ## Rows of `stp` and `ldp` -/

theorem writes_storePairs : Writes base (16 * n) m (storePairs x first base n m) := by
  induction n with
  | zero => exact .refl _ _ _
  | succ n ih =>
    have before : Writes base (16 * (n + 1)) m (storePairs x first base n m) :=
      ih.mono (Nat.le_refl _) (by omega)
    exact (before.store64 (by omega) (by omega)).store64 (by omega) (by omega)

/-- Each register of the row is in its place. -/
theorem load64_storePairs (inside : i < 2 * n) :
    (storePairs x first base n m).load64 (base + 8 * i) = x (first + i) := by
  induction n with
  | zero => omega
  | succ n ih =>
    rw [storePairs]
    rcases Nat.lt_trichotomy i (2 * n) with before | rfl | behind
    · rw [load64_store64_of_apart (by omega), load64_store64_of_apart (by omega), ih before]
    · have place : base + 8 * (2 * n) = base + 16 * n := by omega
      rw [load64_store64_of_apart (by omega), place, load64_store64_self]
    · obtain rfl : i = 2 * n + 1 := by omega
      have place : base + 8 * (2 * n + 1) = base + 16 * n + 8 := by omega
      rw [place, load64_store64_self, ← Nat.add_assoc]

/-- A row of `ldp` changes the registers of the row only. -/
theorem loadPairs_of_inside (m : ByteMemory) (x : ℕ → BitVec 64) (first base : ℕ)
    (inside : i < 2 * n) :
    loadPairs m first base n x (first + i) = m.load64 (base + 8 * i) := by
  induction n with
  | zero => omega
  | succ n ih =>
    rw [loadPairs]
    rcases Nat.lt_trichotomy i (2 * n) with before | rfl | behind
    · rw [Function.update_of_ne (by omega), Function.update_of_ne (by omega), ih before]
    · rw [Function.update_of_ne (by omega), Function.update_self]
      congr 1
      omega
    · obtain rfl : i = 2 * n + 1 := by omega
      rw [← Nat.add_assoc, Function.update_self]
      congr 1
      omega

theorem loadPairs_of_outside (outside : i < first ∨ first + 2 * n ≤ i) :
    loadPairs m first base n x i = x i := by
  induction n with
  | zero => rfl
  | succ n ih =>
    rw [loadPairs, Function.update_of_ne (by omega), Function.update_of_ne (by omega),
      ih (by omega)]

/-! ## `save_all` -/

/-- The bytes from `base` on are the frame of these registers. -/
structure IsFrame (m : ByteMemory) (base : ℕ) (c : Cpu) : Prop where
  x : ∀ i ≤ 30, m.load64 (base + Slot.x i) = c.x i
  spEl0 : m.load64 (base + Slot.spEl0) = c.spEl0
  elrEl1 : m.load64 (base + Slot.elrEl1) = c.elrEl1
  spsrEl1 : m.load64 (base + Slot.spsrEl1) = c.spsrEl1

/-- The stores of `save_all` to a frame. -/
def frameStores (c : Cpu) (base : ℕ) (m : ByteMemory) : ByteMemory :=
  ((((storePairs c.x 0 base 15 m).store64 (base + 16 * 15) (c.x 30)).store64
    (base + 16 * 16) c.spEl0).store64 (base + 16 * 16 + 8) c.elrEl1).store64
    (base + 16 * 17) c.spsrEl1

theorem saveAll_eq (c : Cpu) (m : ByteMemory) :
    (saveAll c m).2 = frameStores c (saveAll c m).1.sp.toNat m := rfl

theorem saveAll_tpidrEl1 (c : Cpu) (m : ByteMemory) : (saveAll c m).1.tpidrEl1 = c.tpidrEl1 := by
  simp only [saveAll]

theorem isFrame_stores (c : Cpu) (m : ByteMemory) (base : ℕ) :
    IsFrame (frameStores c base m) base c where
  x i small := by
    rw [frameStores, Slot.x, load64_store64_of_apart (by omega),
      load64_store64_of_apart (by omega), load64_store64_of_apart (by omega)]
    rcases Nat.lt_or_eq_of_le small with before | rfl
    · rw [load64_store64_of_apart (by omega), load64_storePairs (by omega), Nat.zero_add]
    · exact load64_store64_self
  spEl0 := by
    have place : base + Slot.spEl0 = base + 16 * 16 := rfl
    rw [frameStores, place, load64_store64_of_apart (by omega),
      load64_store64_of_apart (by omega), load64_store64_self]
  elrEl1 := by
    have place : base + Slot.elrEl1 = base + 16 * 16 + 8 := rfl
    rw [frameStores, place, load64_store64_of_apart (by omega), load64_store64_self]
  spsrEl1 := load64_store64_self

theorem writes_stores (c : Cpu) (m : ByteMemory) (base : ℕ) :
    Writes base frameSize m (frameStores c base m) := by
  have size : frameSize = 288 := rfl
  have row : Writes base frameSize m (storePairs c.x 0 base 15 m) :=
    writes_storePairs.mono (Nat.le_refl _) (by omega)
  rw [frameStores]
  exact (((row.store64 (by omega) (by omega)).store64 (by omega) (by omega)).store64 (by omega)
    (by omega)).store64 (by omega) (by omega)

/-- **`save_all`** makes a frame of the registers and changes nothing else in memory. -/
theorem saveAll_frame (room : frameSize ≤ c.sp.toNat) :
    (saveAll c m).1.sp.toNat + frameSize = c.sp.toNat ∧
    Writes (saveAll c m).1.sp.toNat frameSize m (saveAll c m).2 ∧
    IsFrame (saveAll c m).2 (saveAll c m).1.sp.toNat c := by
  have size : frameSize = 288 := rfl
  have sp : (c.sp - BitVec.ofNat 64 frameSize).toNat + frameSize = c.sp.toNat := by
    have small := c.sp.isLt
    rw [BitVec.toNat_sub, BitVec.toNat_ofNat]
    omega
  rw [saveAll_eq]
  exact ⟨sp, writes_stores c m _, isFrame_stores c m _⟩

/-! ## `load_all` -/

/-- The rows of `load_all`. -/
theorem exists_loadAll_x (c : Cpu) (m : ByteMemory) : ∃ x, (loadAll c m).x =
    Function.update (loadPairs m 0 c.sp.toNat 15 x) 30 (m.load64 (c.sp.toNat + 16 * 15)) :=
  ⟨_, rfl⟩

/-- **`load_all`** reads the general registers of a frame. -/
theorem loadAll_x (small : i ≤ 30) :
    (loadAll c m).x i = m.load64 (c.sp.toNat + Slot.x i) := by
  obtain ⟨x, rows⟩ := exists_loadAll_x c m
  rw [rows, Slot.x]
  rcases Nat.lt_or_eq_of_le small with before | rfl
  · have read := loadPairs_of_inside m x 0 c.sp.toNat (show i < 2 * 15 by omega)
    rw [Nat.zero_add] at read
    rw [Function.update_of_ne (by omega), read]
  · rw [Function.update_self]

/-- `load_all` reads the other registers of a frame. -/
theorem loadAll_special : (loadAll c m).spEl0 = m.load64 (c.sp.toNat + Slot.spEl0) ∧
    (loadAll c m).elrEl1 = m.load64 (c.sp.toNat + Slot.elrEl1) ∧
    (loadAll c m).spsrEl1 = m.load64 (c.sp.toNat + Slot.spsrEl1) := by
  refine ⟨rfl, rfl, rfl⟩

theorem childReturnFromFork_eq (c : Cpu) (m : ByteMemory) :
    (childReturnFromFork c m).x = (loadAll c m).x ∧
    (childReturnFromFork c m).spEl0 = (loadAll c m).spEl0 ∧
    (childReturnFromFork c m).elrEl1 = (loadAll c m).elrEl1 ∧
    (childReturnFromFork c m).spsrEl1 = (loadAll c m).spsrEl1 ∧
    (childReturnFromFork c m).pc = (loadAll c m).elrEl1 := ⟨rfl, rfl, rfl, rfl, rfl⟩

/-- A child returns with the registers of the frame at its stack pointer. -/
theorem IsFrame.returns (framed : IsFrame m c.sp.toNat c') :
    (∀ i ≤ 30, (childReturnFromFork c m).x i = c'.x i) ∧
    (childReturnFromFork c m).spEl0 = c'.spEl0 ∧
    (childReturnFromFork c m).elrEl1 = c'.elrEl1 ∧
    (childReturnFromFork c m).spsrEl1 = c'.spsrEl1 ∧
    (childReturnFromFork c m).pc = c'.elrEl1 := by
  obtain ⟨x, spEl0, elrEl1, spsrEl1, pc⟩ := childReturnFromFork_eq c m
  obtain ⟨spEl0', elrEl1', spsrEl1'⟩ := loadAll_special (c := c) (m := m)
  rw [x, spEl0, elrEl1, spsrEl1, pc, spEl0', elrEl1', spsrEl1']
  exact ⟨fun i small => (loadAll_x small).trans (framed.x i small), framed.spEl0, framed.elrEl1,
    framed.spsrEl1, framed.elrEl1⟩

/-! ## `switch_to` -/

/-- `switch_to` writes the registers at the start of the old task only. -/
theorem writes_switchTo : Writes (c.x 0).toNat 104 m (switchTo c m).2 := by
  have row : Writes (c.x 0).toNat 104 m (storePairs c.x 19 (c.x 0).toNat 6 m) :=
    writes_storePairs.mono (Nat.le_refl _) (by omega)
  exact row.store64 (by omega) (by omega)

/-- The registers behind the rows of `switch_to`. -/
theorem switchTo_x (c : Cpu) (m : ByteMemory) : (switchTo c m).1.x =
    Function.update (loadPairs (switchTo c m).2 19 (c.x 1).toNat 6 (Function.update c.x 9 c.sp)) 9
      ((switchTo c m).2.load64 ((c.x 1).toNat + 16 * 6)) := rfl

theorem switchTo_special (c : Cpu) (m : ByteMemory) :
    (switchTo c m).1.sp = (switchTo c m).1.x 9 ∧ (switchTo c m).1.tpidrEl1 = (switchTo c m).1.x 1 ∧
      (switchTo c m).1.pc = (switchTo c m).1.x 30 := ⟨rfl, rfl, rfl⟩

/-- **`switch_to`** goes on where the new task says. -/
theorem switchTo_next (c : Cpu) (m : ByteMemory) : (switchTo c m).1.tpidrEl1 = c.x 1 ∧
    (switchTo c m).1.sp = (switchTo c m).2.load64 ((c.x 1).toNat + Field.sp) ∧
    (switchTo c m).1.pc = (switchTo c m).2.load64 ((c.x 1).toNat + Field.lr) := by
  obtain ⟨sp, current, pc⟩ := switchTo_special c m
  rw [sp, current, pc, switchTo_x]
  refine ⟨?_, Function.update_self .., ?_⟩
  · rw [Function.update_of_ne (by decide), loadPairs_of_outside (by decide),
      Function.update_of_ne (by decide)]
  · have read := loadPairs_of_inside (switchTo c m).2 (Function.update c.x 9 c.sp) 19 (c.x 1).toNat
      (show 11 < 2 * 6 by decide)
    exact (Function.update_of_ne (by decide) _ _).trans read

end BareMetal.Context
