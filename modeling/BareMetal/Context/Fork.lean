import BareMetal.CS.LinkedList
import BareMetal.Context.Frames

/-!
# `sysc_fork`

Each part of `sysc_fork` is described by the bytes it may write and by what it leaves in the
fields and slots that the later parts read. The child then has a copy of the frame, in which only
`x0` and `sp_el0` differ.

## Main results

* `exists_taskCreate`, `copyStacks_copies`, `relocateChild_frame` — the parts of `sysc_fork`
-/

namespace BareMetal.Context

open CS ByteMemory

variable {m m' : ByteMemory} {sym : Symbols} {chunks : Chunks} {g g' : Globals} {func : BitVec 64}
  {pid : BitVec 32} {a n addr fuel : ℕ}

/-! ## `task_create` -/

theorem writes_zeroBytes : Writes addr n m (zeroBytes addr n m) := by
  induction n with
  | zero => exact .refl _ _ _
  | succ n ih =>
    have before : Writes addr (n + 1) m (zeroBytes addr n m) :=
      ih.mono (Nat.le_refl _) (by omega)
    exact before.update (by omega) (by omega)

/-- `task_create` sets the fields of the new task only. -/
theorem writes_initTask (sym : Symbols) (chunks : Chunks) (func : BitVec 64) (pid : BitVec 32)
    (m : ByteMemory) :
    Writes chunks.task.toNat Field.size m (initTask sym chunks func pid m) := by
  have offsets := Field.offsets
  have start := Writes.refl chunks.task.toNat Field.size m
  refine Writes.store64 (Writes.store64 (Writes.store64 (Writes.trans (Writes.update (Writes.update
    (Writes.store64 (Writes.store64 (Writes.store64 (Writes.store64 (Writes.store64 (Writes.store64
    (Writes.store32 (Writes.store64 (Writes.store32 (Writes.store64 (Writes.store32 start ?_ ?_)
    ?_ ?_) ?_ ?_) ?_ ?_) ?_ ?_) ?_ ?_) ?_ ?_) ?_ ?_) ?_ ?_) ?_ ?_) ?_ ?_) ?_ ?_) ?_ ?_)
    (writes_zeroBytes.mono ?_ ?_)) ?_ ?_) ?_ ?_) ?_ ?_
  all_goals omega

/-- The fields of a new task that are not changed any more. -/
theorem initTask_fields (sym : Symbols) (chunks : Chunks) (func : BitVec 64) (pid : BitVec 32)
    (m : ByteMemory) :
    (initTask sym chunks func pid m).load64 (chunks.task.toNat + Field.userSp) = chunks.userStack ∧
    (initTask sym chunks func pid m).load64 (chunks.task.toNat + Field.spAddr) =
      chunks.kernelStack ∧
    (initTask sym chunks func pid m).load32 (chunks.task.toNat + Field.pid) = pid := by
  have offsets := Field.offsets
  rw [initTask]
  refine ⟨?_, ?_, ?_⟩
  · rw [load64_store64_of_apart (by omega), load64_store64_of_apart (by omega),
      load64_store64_of_apart (by omega), writes_zeroBytes.load64 (by omega),
      writes_update.load64 (by omega), writes_update.load64 (by omega),
      load64_store64_of_apart (by omega), load64_store64_of_apart (by omega),
      load64_store64_of_apart (by omega), load64_store64_of_apart (by omega),
      load64_store64_of_apart (by omega), load64_store64_self]
  · rw [load64_store64_of_apart (by omega), load64_store64_of_apart (by omega),
      load64_store64_of_apart (by omega), writes_zeroBytes.load64 (by omega),
      writes_update.load64 (by omega), writes_update.load64 (by omega),
      load64_store64_of_apart (by omega), load64_store64_of_apart (by omega), load64_store64_self]
  · rw [writes_store64.load32 (by omega), writes_store64.load32 (by omega),
      writes_store64.load32 (by omega), writes_zeroBytes.load32 (by omega),
      writes_update.load32 (by omega), writes_update.load32 (by omega),
      writes_store64.load32 (by omega), writes_store64.load32 (by omega),
      writes_store64.load32 (by omega), writes_store64.load32 (by omega),
      writes_store64.load32 (by omega), writes_store64.load32 (by omega),
      writes_store32.load32 (by omega), writes_store64.load32 (by omega), load32_store32_self]

/-! ## `enqueue` -/

/-- A pointer to a task. -/
def pointer (p : BitVec 64) : Option (BitVec 64) := if p = 0 then none else some p

/-- `task->next`. -/
def nextOf (m : ByteMemory) (task : BitVec 64) : Option (BitVec 64) :=
  pointer (m.load64 (task.toNat + Field.next))

theorem pointer_eq_none {p : BitVec 64} : pointer p = none ↔ p = 0 := by
  simp [pointer]

theorem pointer_eq_some {p q : BitVec 64} : pointer p = some q ↔ p = q ∧ q ≠ 0 := by
  rw [pointer]
  split_ifs with zero
  · simp only [false_iff, not_and, not_not]
    exact fun same => same ▸ zero
  · simp only [Option.some.injEq, iff_self_and]
    exact fun same => same ▸ zero

/-- The loop of `enqueue` ends at one of the tasks of the queue. -/
theorem lastTask_mem {tasks : List (BitVec 64)} {cur : BitVec 64} (prev : BitVec 64)
    (linked : Linked (nextOf m) (pointer cur) tasks) :
    ∃ last, lastTask m (tasks.length + 1) prev cur = .ok last ∧ (last = prev ∨ last ∈ tasks) := by
  induction tasks generalizing prev cur with
  | nil =>
    have zero := pointer_eq_none.mp linked
    exact ⟨prev, if_pos zero, .inl rfl⟩
  | cons task tasks ih =>
    obtain ⟨head, rest⟩ := linked
    obtain ⟨rfl, nonzero⟩ := pointer_eq_some.mp head
    obtain ⟨last, found, among⟩ := ih cur rest
    refine ⟨last, ?_, .inr ?_⟩
    · rw [List.length_cons, lastTask, if_neg nonzero, found]
    · rcases among with rfl | inside
      · exact List.mem_cons_self
      · exact List.mem_cons_of_mem cur inside

/-- The bytes of a task. -/
def taskRow (t : BitVec 64) : ℕ × ℕ := (t.toNat, Field.size)

/-- `enqueue` writes the `next` of the new task and of a task of the queue. -/
theorem exists_enqueue {tasks : List (BitVec 64)} {queue newTask : BitVec 64}
    (linked : Linked (nextOf m) (pointer queue) tasks)
    (apart : ∀ t ∈ tasks, Apart (taskRow t) (taskRow newTask)) :
    ∃ fuel queue' m', enqueue fuel queue newTask m = .ok (queue', m') ∧
      ∀ r, Apart r (newTask.toNat + Field.next, 8) → (∀ t ∈ tasks, Apart r (taskRow t)) →
        Kept r.1 r.2 m m' := by
  have offsets := Field.offsets
  -- the queue is still there when the new task is terminated
  have linked' : Linked (nextOf (m.store64 (newTask.toNat + Field.next) 0))
    (pointer queue) tasks := by
    refine linked.congr fun t inside => ?_
    have other : t.toNat + Field.size ≤ newTask.toNat ∨ newTask.toNat + Field.size ≤ t.toNat :=
      apart t inside
    rw [nextOf, load64_store64_of_apart (by omega), nextOf]
  obtain ⟨last, found, among⟩ := lastTask_mem queue linked'
  refine ⟨tasks.length + 1, ?_⟩
  by_cases empty : queue = 0
  · refine ⟨newTask, _, by rw [enqueue, if_pos empty]; rfl, fun r away _ => ?_⟩
    exact writes_store64.kept away
  · refine ⟨queue, _, by rw [enqueue, if_neg empty, found]; rfl, fun r away others => ?_⟩
    have inside : last ∈ tasks := by
      rcases among with rfl | inside
      · have head : pointer last = some last := if_neg empty
        rw [head] at linked
        obtain ⟨rest, rfl, -⟩ := linked.exists_cons
        exact List.mem_cons_self
      · exact inside
    have other : r.1 + r.2 ≤ last.toNat ∨ last.toNat + Field.size ≤ r.1 := others last inside
    exact (writes_store64.kept away).trans (writes_store64.kept (by omega))

/-- **`task_create`** sets the fields of the new task and changes no bytes outside of it and of
the tasks in the queue. -/
theorem exists_taskCreate (sym : Symbols) (func : BitVec 64) {tasks : List (BitVec 64)}
    (linked : Linked (nextOf m) (pointer g.runQueue) tasks)
    (apart : ∀ t ∈ tasks, Apart (taskRow t) (taskRow chunks.task)) :
    ∃ fuel g' m', taskCreate sym chunks fuel func g m = .ok (g', m') ∧
      m'.load64 (chunks.task.toNat + Field.userSp) = chunks.userStack ∧
      m'.load64 (chunks.task.toNat + Field.spAddr) = chunks.kernelStack ∧
      m'.load32 (chunks.task.toNat + Field.pid) = g.pid ∧
      ∀ r, Apart r (taskRow chunks.task) → (∀ t ∈ tasks, Apart r (taskRow t)) →
        Kept r.1 r.2 m m' := by
  have offsets := Field.offsets
  obtain ⟨userSp, spAddr, pid⟩ :=
    initTask_fields sym chunks func g.pid m
  have init := writes_initTask sym chunks func g.pid m
  have linked' : Linked (nextOf (initTask sym chunks func g.pid m)) (pointer g.runQueue) tasks := by
    refine linked.congr fun t inside => ?_
    have other : t.toNat + Field.size ≤ chunks.task.toNat ∨
      chunks.task.toNat + Field.size ≤ t.toNat := apart t inside
    rw [nextOf, init.load64 (by omega), nextOf]
  obtain ⟨fuel, queue, m', queued, same⟩ := exists_enqueue linked' apart
  have fields : Kept chunks.task.toNat Field.next (initTask sym chunks func g.pid m) m' := by
    refine same (chunks.task.toNat, Field.next) (.inl (Nat.le_refl _)) fun t inside => ?_
    have other : t.toNat + Field.size ≤ chunks.task.toNat ∨
      chunks.task.toNat + Field.size ≤ t.toNat := apart t inside
    rw [Apart, taskRow]
    omega
  refine ⟨fuel, ⟨g.pid + 1, queue⟩, m', by rw [taskCreate, queued]; rfl, ?_, ?_, ?_, ?_⟩
  · rw [fields.load64 (by omega) (by omega), userSp]
  · rw [fields.load64 (by omega) (by omega), spAddr]
  · rw [fields.load32 (by omega) (by omega), pid]
  · intro r child others
    have away : r.1 + r.2 ≤ chunks.task.toNat ∨ chunks.task.toNat + Field.size ≤ r.1 := child
    have queued : Apart r (chunks.task.toNat + Field.next, 8) := by
      rw [Apart]
      omega
    exact (init.kept away).trans (same r queued others)

/-! ## The fields of the child -/

theorem writes_copySaved (child frame n : ℕ) (m : ByteMemory) :
    Writes child (8 * n) m (copySaved child frame n m) := by
  induction n with
  | zero => exact .refl _ _ _
  | succ n ih =>
    have before : Writes child (8 * (n + 1)) m (copySaved child frame n m) :=
      ih.mono (Nat.le_refl _) (by omega)
    exact before.store64 (by omega) (by omega)

/-- `child->fp` comes from the frame. -/
theorem load64_copySaved {child frame : ℕ} (apart : Apart (child, Field.size) (frame, frameSize)) :
    (copySaved child frame 11 m).load64 (child + Field.fp) = m.load64 (frame + Slot.x 29) := by
  have away : child + Field.size ≤ frame ∨ frame + frameSize ≤ child := apart
  have offsets := Field.offsets
  have size : frameSize = 288 := rfl
  have saved := writes_copySaved child frame 10 m
  have place : child + Field.fp = child + 8 * 10 := rfl
  rw [place, copySaved, load64_store64_self, saved.load64 (by rw [Slot.x]; omega)]

/-- What `sysc_fork` sets in the child, and what it keeps there. -/
theorem copyContext_fields (sym : Symbols) (parent : ℕ) {child : ℕ} {frame : BitVec 64}
    (apart : Apart (child, Field.size) (frame.toNat, frameSize)) :
    Writes child Field.size m (copyContext sym parent child frame m) ∧
    (copyContext sym parent child frame m).load64 (child + Field.fp) =
      m.load64 (frame.toNat + Slot.x 29) ∧
    (copyContext sym parent child frame m).load64 (child + Field.lr) = sym.childReturnFromFork ∧
    (copyContext sym parent child frame m).load64 (child + Field.sp) = frame ∧
    Kept (child + Field.userSp) 20 m (copyContext sym parent child frame m) := by
  have offsets := Field.offsets
  have fp := load64_copySaved (m := m) apart
  have saved : Writes child 88 m (copySaved child frame.toNat 11 m) :=
    writes_copySaved child frame.toNat 11 m
  rw [copyContext]
  refine ⟨?_, ?_, ?_, ?_, ?_⟩
  · have start : Writes child Field.size m (copySaved child frame.toNat 11 m) :=
      saved.mono (Nat.le_refl _) (by omega)
    exact (((start.store64 (by omega) (by omega)).store64 (by omega) (by omega)).store64 (by omega)
      (by omega)).store64 (by omega) (by omega)
  · rw [load64_store64_of_apart (by omega), load64_store64_of_apart (by omega),
      load64_store64_of_apart (by omega), load64_store64_of_apart (by omega), fp]
  · rw [load64_store64_of_apart (by omega), load64_store64_of_apart (by omega),
      load64_store64_of_apart (by omega), load64_store64_self]
  · rw [load64_store64_of_apart (by omega), load64_store64_of_apart (by omega), load64_store64_self]
  · have start : Kept (child + Field.userSp) 20 m (copySaved child frame.toNat 11 m) :=
      saved.kept (by omega)
    exact (((start.trans (writes_store64.kept (by omega))).trans
      (writes_store64.kept (by omega))).trans (writes_store64.kept (by omega))).trans
      (writes_store64.kept (by omega))

/-! ## The stacks -/

/-- The loop changes the new stacks only. -/
theorem kept_copyStacks {dst₁ src₁ dst₂ src₂ b k size : ℕ} (first : Apart (b, k) (dst₁, size))
    (second : Apart (b, k) (dst₂, size)) (small : n ≤ size) :
    Kept b k m (copyStacks dst₁ src₁ dst₂ src₂ n m) := by
  rw [apart_iff] at first second
  induction n with
  | zero => exact .refl _ _ _
  | succ n ih =>
    have before := ih (by omega)
    exact (before.trans (writes_update.kept (by omega))).trans (writes_update.kept (by omega))

/-- The loop copies both stacks. -/
theorem copyStacks_copies {dst₁ src₁ dst₂ src₂ size : ℕ} (new : Apart (dst₁, size) (dst₂, size))
    (first₁ : Apart (src₁, size) (dst₁, size)) (first₂ : Apart (src₁, size) (dst₂, size))
    (second₁ : Apart (src₂, size) (dst₁, size)) (second₂ : Apart (src₂, size) (dst₂, size))
    (small : n ≤ size) (k : ℕ) (inside : k < n) :
    copyStacks dst₁ src₁ dst₂ src₂ n m (dst₁ + k) = m (src₁ + k) ∧
      copyStacks dst₁ src₁ dst₂ src₂ n m (dst₂ + k) = m (src₂ + k) := by
  induction n with
  | zero => omega
  | succ n ih =>
    -- the old stacks are still there when byte `n` is copied
    have old₁ : copyStacks dst₁ src₁ dst₂ src₂ n m (src₁ + n) = m (src₁ + n) :=
      kept_copyStacks first₁ first₂ (by omega) _ (by omega) (by omega)
    have old₂ : copyStacks dst₁ src₁ dst₂ src₂ n m (src₂ + n) = m (src₂ + n) :=
      kept_copyStacks second₁ second₂ (by omega) _ (by omega) (by omega)
    rw [apart_iff] at new second₁
    rw [copyStacks]
    rcases Nat.lt_succ_iff_lt_or_eq.mp inside with before | rfl
    · obtain ⟨copied₁, copied₂⟩ := ih (by omega) before
      rw [Function.update_of_ne (by omega), Function.update_of_ne (by omega),
        Function.update_of_ne (by omega), Function.update_of_ne (by omega)]
      exact ⟨copied₁, copied₂⟩
    · rw [Function.update_of_ne (by omega), Function.update_self, Function.update_self,
        Function.update_of_ne (by omega)]
      exact ⟨old₁, old₂⟩

/-! ## Relocation -/

/-- Both cases of a relocation add the distance of the stacks. -/
theorem relocate_eq (pointer new old : BitVec 64) :
    relocate pointer new old = pointer + (new - old) := by
  rw [relocate]
  split_ifs with up down
  · rfl
  · rw [BitVec.sub_eq_add_neg, BitVec.neg_sub, BitVec.add_comm (-old), ← BitVec.sub_eq_add_neg]
  · obtain rfl : new = old := by
      apply BitVec.eq_of_toNat_eq
      rw [BitVec.lt_def] at up down
      omega
    simp

/-- A pointer into a stack stays at its place. -/
theorem toNat_relocate {pointer new old : BitVec 64} {size : ℕ} (low : old.toNat ≤ pointer.toNat)
    (high : pointer.toNat < old.toNat + size) (room : new.toNat + size ≤ 2 ^ 64) :
    (relocate pointer new old).toNat = new.toNat + (pointer.toNat - old.toNat) := by
  rw [relocate_eq, BitVec.toNat_add, BitVec.toNat_sub]
  omega

/-- What a child resumes with: a copy of the parent, but for `x0` and `sp_el0`. -/
def childCpu (c : Cpu) (distance : BitVec 64) : Cpu :=
  { c with x := Function.update c.x 0 0, spEl0 := c.spEl0 + distance }

@[simp] theorem childCpu_x (c : Cpu) (distance : BitVec 64) :
    (childCpu c distance).x = Function.update c.x 0 0 := rfl

section Relocation

variable {parent child base : ℕ} {c : Cpu}

/-- The stack pointer that the child gets. -/
def childSp (parent child : ℕ) (m : ByteMemory) : BitVec 64 :=
  relocate (m.load64 (child + Field.sp)) (m.load64 (child + Field.spAddr))
    (m.load64 (parent + Field.spAddr))

/-- The last part of `sysc_fork` is four stores of values that were there before. -/
theorem relocateChild_eq (sp : (childSp parent child m).toNat = base)
    (tasks : Apart (parent, Field.size) (child, Field.size))
    (outside : Apart (parent, Field.size) (base, frameSize))
    (outside' : Apart (child, Field.size) (base, frameSize)) :
    relocateChild parent child m = (((m.store64 (child + Field.sp) (childSp parent child m)).store64
      (base + Slot.x 0) 0).store64 (base + Slot.x 29) (m.load64 (child + Field.fp))).store64
      (base + Slot.spEl0) (m.load64 (base + Slot.spEl0) +
        (m.load64 (child + Field.userSp) - m.load64 (parent + Field.userSp))) := by
  have offsets := Field.offsets
  have size : frameSize = 288 := rfl
  have slots : Slot.spEl0 = 256 ∧ Slot.x 0 = 0 ∧ Slot.x 29 = 232 := ⟨rfl, rfl, rfl⟩
  rw [apart_iff] at tasks outside outside'
  rw [relocateChild, ← childSp, load64_store64_self, sp, relocate_eq]
  have fp : ((m.store64 (child + Field.sp) (childSp parent child m)).store64
    (base + Slot.x 0) 0).load64 (child + Field.fp) = m.load64 (child + Field.fp) := by
    rw [load64_store64_of_apart (by omega), load64_store64_of_apart (by omega)]
  -- the three stores change neither the stacks of the tasks nor the slot of `sp_el0`
  have others : ∀ a, (a + 8 ≤ child + Field.sp ∨ child + Field.sp + 8 ≤ a) →
      (a + 8 ≤ base ∨ base + Slot.spEl0 ≤ a) →
      (((m.store64 (child + Field.sp) (childSp parent child m)).store64 (base + Slot.x 0) 0).store64
        (base + Slot.x 29) (m.load64 (child + Field.fp))).load64 a = m.load64 a := by
    intro a apart apart'
    rw [load64_store64_of_apart (by omega), load64_store64_of_apart (by omega),
      load64_store64_of_apart (by omega)]
  rw [fp, others _ (by omega) (by omega), others _ (by omega) (by omega),
    others _ (by omega) (by omega)]

/-- **The last part of `sysc_fork`** moves the stack pointer of the child into its own stack, and
makes the copied frame one of the child. -/
theorem relocateChild_frame (sp : (childSp parent child m).toNat = base) (frame : IsFrame m base c)
    (fp : m.load64 (child + Field.fp) = c.x 29)
    (tasks : Apart (parent, Field.size) (child, Field.size))
    (outside : Apart (parent, Field.size) (base, frameSize))
    (outside' : Apart (child, Field.size) (base, frameSize)) :
    (relocateChild parent child m).load64 (child + Field.sp) = childSp parent child m ∧
    IsFrame (relocateChild parent child m) base
      (childCpu c (m.load64 (child + Field.userSp) - m.load64 (parent + Field.userSp))) ∧
    ∀ b k, Apart (b, k) (child + Field.sp, 8) → Apart (b, k) (base, frameSize) →
      Kept b k m (relocateChild parent child m) := by
  -- four stores, to one field of the child and three words of its frame
  rw [relocateChild_eq sp tasks outside outside', fp, frame.spEl0]
  have offsets := Field.offsets
  have size : frameSize = 288 := rfl
  have slots : Slot.spEl0 = 256 ∧ Slot.x 0 = 0 ∧ Slot.x 29 = 232 := ⟨rfl, rfl, rfl⟩
  rw [apart_iff] at outside'
  refine ⟨?_, ?_, ?_⟩
  · rw [load64_store64_of_apart (by omega), load64_store64_of_apart (by omega),
      load64_store64_of_apart (by omega), load64_store64_self]
  · constructor
    case x =>
      intro i small
      have slot : Slot.x i = 8 * i := rfl
      rw [load64_store64_of_apart (by omega), childCpu_x]
      rcases eq_or_ne i 29 with rfl | other
      · rw [load64_store64_self, Function.update_of_ne (by omega)]
      rw [load64_store64_of_apart (by omega)]
      rcases eq_or_ne i 0 with rfl | other'
      · rw [load64_store64_self, Function.update_self]
      · rw [load64_store64_of_apart (by omega), load64_store64_of_apart (by omega), frame.x i small,
          Function.update_of_ne other']
    case spEl0 => rw [load64_store64_self, childCpu]
    case elrEl1 =>
      have slot : Slot.elrEl1 = 264 := rfl
      rw [load64_store64_of_apart (by omega), load64_store64_of_apart (by omega),
        load64_store64_of_apart (by omega), load64_store64_of_apart (by omega), frame.elrEl1,
          childCpu]
    case spsrEl1 =>
      have slot : Slot.spsrEl1 = 272 := rfl
      rw [load64_store64_of_apart (by omega), load64_store64_of_apart (by omega),
        load64_store64_of_apart (by omega), load64_store64_of_apart (by omega), frame.spsrEl1,
          childCpu]
  · intro b k task stack
    rw [apart_iff] at task stack
    exact (((writes_store64.kept task).trans (writes_store64.kept (by omega))).trans
      (writes_store64.kept (by omega))).trans (writes_store64.kept (by omega))

end Relocation

end BareMetal.Context
