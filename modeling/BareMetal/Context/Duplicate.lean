import BareMetal.Context.Fork

/-!
# The child of `fork`

At a `svc` the parent saves a frame in its kernel stack and calls `sysc_fork`. The child gets
copies of both stacks, and its first run ends `load_all` with the registers of the parent, but
for `x0` and the place of its user stack.

## Main results

* `ChildReady` — what `sysc_fork` leaves in memory
* `fork_duplicates` — what the parent and the child resume with
-/

namespace BareMetal.Context

open CS ByteMemory

variable {m m' m'' : ByteMemory} {sym : Symbols} {chunks : Chunks} {g g' : Globals}
  {parent frame : BitVec 64} {c c' : Cpu}

/-! ## The bytes of both tasks -/

/-- The bytes of a stack. -/
def stackRow (stack : BitVec 64) : ℕ × ℕ := (stack.toNat, threadSpSize)

/-- The user stack of a task. -/
def userStack (m : ByteMemory) (task : BitVec 64) : BitVec 64 :=
  m.load64 (task.toNat + Field.userSp)

/-- The kernel stack of a task. -/
def kernelStack (m : ByteMemory) (task : BitVec 64) : BitVec 64 :=
  m.load64 (task.toNat + Field.spAddr)

/-- The bytes of a parent. -/
def parentRows (m : ByteMemory) (parent : BitVec 64) : List (ℕ × ℕ) :=
  [taskRow parent, stackRow (userStack m parent), stackRow (kernelStack m parent)]

/-- The bytes of its child. -/
def childRows (chunks : Chunks) : List (ℕ × ℕ) :=
  [taskRow chunks.task, stackRow chunks.userStack, stackRow chunks.kernelStack]

/-- A place for a child: nothing overlaps, and the tasks in the run queue are others. -/
structure Placed (m : ByteMemory) (parent : BitVec 64) (chunks : Chunks) (g : Globals) : Prop where
  apart : (parentRows m parent ++ childRows chunks).Pairwise Apart
  room : chunks.kernelStack.toNat + threadSpSize ≤ 2 ^ 64
  queue : ∃ tasks, Linked (nextOf m) (pointer g.runQueue) tasks ∧
    ∀ task ∈ tasks, ∀ row ∈ parentRows m parent ++ childRows chunks, Apart row (taskRow task)

namespace Placed

variable (placed : Placed m parent chunks g)
include placed

theorem others {row row' : ℕ × ℕ} (old : row ∈ parentRows m parent)
    (new : row' ∈ childRows chunks) :
    Apart row row' :=
  (List.pairwise_append.mp placed.apart).2.2 row old row' new

/-- The task and the user stack of the parent are outside of its kernel stack. -/
theorem parent_apart : Apart (taskRow parent) (stackRow (kernelStack m parent)) ∧
    Apart (stackRow (userStack m parent)) (stackRow (kernelStack m parent)) := by
  have apart := (List.pairwise_append.mp placed.apart).1
  simp only [parentRows, List.pairwise_cons, List.mem_cons, forall_eq_or_imp] at apart
  obtain ⟨⟨-, task, -⟩, ⟨user, -⟩, -⟩ := apart
  exact ⟨task, user⟩

theorem child_apart : Apart (taskRow chunks.task) (stackRow chunks.userStack) ∧
    Apart (taskRow chunks.task) (stackRow chunks.kernelStack) ∧
    Apart (stackRow chunks.userStack) (stackRow chunks.kernelStack) := by
  have apart := (List.pairwise_append.mp placed.apart).2.1
  simp only [childRows, List.pairwise_cons, List.mem_cons, forall_eq_or_imp] at apart
  obtain ⟨⟨user, kernel, -⟩, ⟨both, -⟩, -⟩ := apart
  exact ⟨user, kernel, both⟩

end Placed

theorem task_mem_parentRows : taskRow parent ∈ parentRows m parent := List.mem_cons_self

theorem user_mem_parentRows : stackRow (userStack m parent) ∈ parentRows m parent := by
  simp [parentRows]

theorem kernel_mem_parentRows : stackRow (kernelStack m parent) ∈ parentRows m parent := by
  simp [parentRows]

theorem task_mem_childRows : taskRow chunks.task ∈ childRows chunks := List.mem_cons_self

theorem user_mem_childRows : stackRow chunks.userStack ∈ childRows chunks := by
  simp [childRows]

theorem kernel_mem_childRows : stackRow chunks.kernelStack ∈ childRows chunks := by
  simp [childRows]

/-! ## What `sysc_fork` keeps -/

/-- The parent is as before. -/
structure ParentKept (m m' : ByteMemory) (parent : BitVec 64) : Prop where
  task : Kept parent.toNat Field.size m m'
  user : Kept (userStack m parent).toNat threadSpSize m m'
  kernel : Kept (kernelStack m parent).toNat threadSpSize m m'

theorem userStack_eq (kept : Kept parent.toNat Field.size m m') :
    userStack m' parent = userStack m parent := by
  have offsets := Field.offsets
  exact kept.load64 (by omega) (by omega)

theorem kernelStack_eq (kept : Kept parent.toNat Field.size m m') :
    kernelStack m' parent = kernelStack m parent := by
  have offsets := Field.offsets
  exact kept.load64 (by omega) (by omega)

/-- Stores elsewhere keep the parent. -/
theorem ParentKept.of_rows (kept : ∀ row ∈ parentRows m parent, Kept row.1 row.2 m m') :
    ParentKept m m' parent where
  task := kept (taskRow parent) task_mem_parentRows
  user := kept (stackRow (userStack m parent)) user_mem_parentRows
  kernel := kept (stackRow (kernelStack m parent)) kernel_mem_parentRows

theorem ParentKept.rows_eq (kept : ParentKept m m' parent) :
    parentRows m' parent = parentRows m parent := by
  rw [parentRows, parentRows, userStack_eq kept.task, kernelStack_eq kept.task]

theorem ParentKept.trans (kept : ParentKept m m' parent) (kept' : ParentKept m' m'' parent) :
    ParentKept m m'' parent where
  task := kept.task.trans kept'.task
  user := kept.user.trans (userStack_eq kept.task ▸ kept'.user)
  kernel := kept.kernel.trans (kernelStack_eq kept.task ▸ kept'.kernel)

/-- A frame is copied with its stack. -/
theorem IsFrame.copy {base base' : ℕ} (framed : IsFrame m base c)
    (same : ∀ k < frameSize, m' (base' + k) = m (base + k)) : IsFrame m' base' c := by
  have size : frameSize = 288 := rfl
  have read : ∀ slot, slot + 8 ≤ frameSize → m'.load64 (base' + slot) = m.load64 (base + slot) := by
    intro slot inside
    apply load64_congr
    intro k small
    rw [Nat.add_assoc, Nat.add_assoc, same _ (by omega)]
  constructor
  case x => exact fun i small => (read _ (by rw [Slot.x]; omega)).trans (framed.x i small)
  case spEl0 => exact (read _ (by decide)).trans framed.spEl0
  case elrEl1 => exact (read _ (by decide)).trans framed.elrEl1
  case spsrEl1 => exact (read _ (by decide)).trans framed.spsrEl1

/-! ## `sysc_fork` -/

/-- The fields of a child. -/
structure ChildFields (sym : Symbols) (chunks : Chunks) (pid : BitVec 32) (m : ByteMemory) :
    Prop where
  userSp : userStack m chunks.task = chunks.userStack
  spAddr : kernelStack m chunks.task = chunks.kernelStack
  pid : m.load32 (chunks.task.toNat + Field.pid) = pid
  lr : m.load64 (chunks.task.toNat + Field.lr) = sym.childReturnFromFork

/-- The first half of `sysc_fork` makes a child that is still on the stack of its parent. -/
theorem exists_context (sym : Symbols) (placed : Placed m parent chunks g)
    (framed : IsFrame m frame.toNat c)
    (low : (kernelStack m parent).toNat ≤ frame.toNat)
    (high : frame.toNat + frameSize ≤ (kernelStack m parent).toNat + threadSpSize) :
    ∃ fuel g' m₁, taskCreate sym chunks fuel 0 g m = .ok (g', m₁) ∧
      ParentKept m (copyContext sym parent.toNat chunks.task.toNat frame m₁) parent ∧
      ChildFields sym chunks g.pid (copyContext sym parent.toNat chunks.task.toNat frame m₁) ∧
      (copyContext sym parent.toNat chunks.task.toNat frame m₁).load64
        (chunks.task.toNat + Field.fp) = c.x 29 ∧
      (copyContext sym parent.toNat chunks.task.toNat frame m₁).load64
        (chunks.task.toNat + Field.sp) = frame := by
  have offsets := Field.offsets
  have size : frameSize = 288 := rfl
  obtain ⟨tasks, linked, others⟩ := placed.queue
  obtain ⟨fuel, g', m₁, created, userSp, spAddr, pid, kept⟩ := exists_taskCreate sym 0
    linked fun t inside => (others t inside _
      (List.mem_append_right _ task_mem_childRows)).symm
  have before : ParentKept m m₁ parent := .of_rows fun row inside =>
    kept row (placed.others inside task_mem_childRows) fun t queued =>
      others t queued row (List.mem_append_left _ inside)
  have away : Apart (taskRow chunks.task) (frame.toNat, frameSize) :=
    (placed.others kernel_mem_parentRows task_mem_childRows).symm.inside low high
  obtain ⟨writes, fp, lr, sp, keeps⟩ := copyContext_fields (m := m₁) sym parent.toNat away
  have after : ParentKept m₁ (copyContext sym parent.toNat chunks.task.toNat frame m₁) parent :=
    .of_rows fun row inside =>
      writes.kept (placed.others (before.rows_eq ▸ inside) task_mem_childRows)
  refine ⟨fuel, g', m₁, created, before.trans after, ⟨?_, ?_, ?_, lr⟩, ?_, sp⟩
  · rw [userStack, keeps.load64 (by omega) (by omega), userSp]
  · rw [kernelStack, keeps.load64 (by omega) (by omega), spAddr]
  · rw [keeps.load32 (by omega) (by omega), pid]
  · have slot : m₁.load64 (frame.toNat + Slot.x 29) = m.load64 (frame.toNat + Slot.x 29) :=
      before.kernel.load64 (by omega) (by rw [Slot.x]; omega)
    rw [fp, slot, framed.x 29 (by decide)]

/-- A child with copies of the stacks of its parent. -/
structure StacksCopied (chunks : Chunks) (parent : BitVec 64) (m m' : ByteMemory) : Prop where
  user : ∀ k < threadSpSize, m' (chunks.userStack.toNat + k) = m ((userStack m parent).toNat + k)
  kernel : ∀ k < threadSpSize,
    m' (chunks.kernelStack.toNat + k) = m ((kernelStack m parent).toNat + k)

/-- The loop of `sysc_fork` copies the stacks of the parent and changes neither task. -/
theorem copyStacks_effect (placed : Placed m parent chunks g) (kept : ParentKept m m' parent)
    (loop : m'' = copyStacks chunks.userStack.toNat (userStack m parent).toNat
      chunks.kernelStack.toNat (kernelStack m parent).toNat threadSpSize m') :
    ParentKept m m'' parent ∧ Kept chunks.task.toNat Field.size m' m'' ∧
      StacksCopied chunks parent m m'' := by
  have others : ∀ row, Apart row (stackRow chunks.userStack) →
      Apart row (stackRow chunks.kernelStack) → Kept row.1 row.2 m' m'' := by
    intro row first second
    rw [loop]
    exact kept_copyStacks first second (Nat.le_refl _)
  have old : ParentKept m' m'' parent := .of_rows fun row inside => by
    rw [kept.rows_eq] at inside
    exact others row (placed.others inside user_mem_childRows)
      (placed.others inside kernel_mem_childRows)
  obtain ⟨task_user, task_kernel, user_kernel⟩ := placed.child_apart
  have both := copyStacks_copies (m := m') user_kernel
    (placed.others user_mem_parentRows user_mem_childRows)
    (placed.others user_mem_parentRows kernel_mem_childRows)
    (placed.others kernel_mem_parentRows user_mem_childRows)
    (placed.others kernel_mem_parentRows kernel_mem_childRows) (Nat.le_refl threadSpSize)
  rw [← loop] at both
  refine ⟨kept.trans old, others (taskRow chunks.task) task_user task_kernel, ⟨?_, ?_⟩⟩
  · intro k inside
    rw [(both k inside).1, kept.user _ (Nat.le_add_right _ _) (Nat.add_lt_add_left inside _)]
  · intro k inside
    rw [(both k inside).2, kept.kernel _ (Nat.le_add_right _ _) (Nat.add_lt_add_left inside _)]

/-- A child that may run: its stacks are copies, and its stack pointer is at a copy of the frame of
the registers `c`. -/
structure ChildReady (sym : Symbols) (chunks : Chunks) (g : Globals) (parent frame : BitVec 64)
    (c : Cpu) (m m' : ByteMemory) : Prop where
  fields : ChildFields sym chunks g.pid m'
  copied : ∀ k < threadSpSize,
    m' (chunks.userStack.toNat + k) = m ((userStack m parent).toNat + k)
  sp : (m'.load64 (chunks.task.toNat + Field.sp)).toNat =
    chunks.kernelStack.toNat + (frame.toNat - (kernelStack m parent).toNat)
  frame : IsFrame m' (chunks.kernelStack.toNat + (frame.toNat - (kernelStack m parent).toNat))
    (childCpu c (chunks.userStack - userStack m parent))

/-- The frame that was copied becomes the one of the child. -/
theorem relocateChild_effect (placed : Placed m parent chunks g) (framed : IsFrame m frame.toNat c)
    (low : (kernelStack m parent).toNat ≤ frame.toNat)
    (high : frame.toNat + frameSize ≤ (kernelStack m parent).toNat + threadSpSize)
    (kept : ParentKept m m' parent) (fields : ChildFields sym chunks g.pid m')
    (copied : StacksCopied chunks parent m m')
    (fp : m'.load64 (chunks.task.toNat + Field.fp) = c.x 29)
    (sp : m'.load64 (chunks.task.toNat + Field.sp) = frame) :
    ParentKept m (relocateChild parent.toNat chunks.task.toNat m') parent ∧
      ChildReady sym chunks g parent frame c m
        (relocateChild parent.toNat chunks.task.toNat m') := by
  have offsets := Field.offsets
  have size : frameSize = 288 := rfl
  obtain ⟨base, place⟩ : ∃ base, base =
    chunks.kernelStack.toNat + (frame.toNat - (kernelStack m parent).toNat) := ⟨_, rfl⟩
  have moved : (childSp parent.toNat chunks.task.toNat m').toNat = base := by
    have spAddr : m'.load64 (chunks.task.toNat + Field.spAddr) = chunks.kernelStack := fields.spAddr
    have spAddr' : m'.load64 (parent.toNat + Field.spAddr) = kernelStack m parent :=
      kernelStack_eq kept.task
    rw [childSp, sp, spAddr, spAddr', place]
    exact toNat_relocate low (by omega) placed.room
  have framed' : IsFrame m' base c := by
    apply framed.copy
    intro k small
    have byte := copied.kernel (frame.toNat - (kernelStack m parent).toNat + k) (by omega)
    rw [← Nat.add_assoc, ← Nat.add_assoc, ← place, Nat.add_sub_cancel' low] at byte
    exact byte
  have stack : chunks.kernelStack.toNat ≤ base ∧
    base + frameSize ≤ chunks.kernelStack.toNat + threadSpSize := by omega
  have inside : ∀ row, Apart row (stackRow chunks.kernelStack) → Apart row (base, frameSize) :=
    fun row apart => apart.inside stack.1 stack.2
  obtain ⟨task_user, task_kernel, user_kernel⟩ := placed.child_apart
  have tasks := placed.others task_mem_parentRows task_mem_childRows
  obtain ⟨sp', frame', same⟩ := relocateChild_frame moved framed' fp tasks
    (inside _ (placed.others task_mem_parentRows kernel_mem_childRows)) (inside _ task_kernel)
  have field : ∀ row, Apart row (taskRow chunks.task) →
      Apart row (chunks.task.toNat + Field.sp, 8) :=
    fun row apart => apart.inside (Nat.le_add_right _ _) (by omega)
  have away := apart_iff.mp (inside _ task_kernel)
  -- the fields of the child on both sides of `sp`
  have before : Kept chunks.task.toNat Field.sp m'
    (relocateChild parent.toNat chunks.task.toNat m') :=
    same _ _ (.inl (Nat.le_refl _)) (apart_iff.mpr (by omega))
  have behind : Kept (chunks.task.toNat + Field.targetFunc) (Field.size - Field.targetFunc) m'
      (relocateChild parent.toNat chunks.task.toNat m') :=
    same _ _ (apart_iff.mpr (by omega)) (apart_iff.mpr (by omega))
  have old : ParentKept m' (relocateChild parent.toNat chunks.task.toNat m') parent :=
    .of_rows fun row old => by
      rw [kept.rows_eq] at old
      exact same row.1 row.2 (field row (placed.others old task_mem_childRows))
        (inside row (placed.others old kernel_mem_childRows))
  refine ⟨kept.trans old, ?_⟩
  constructor
  case fields =>
    exact ⟨(behind.load64 (by omega) (by omega)).trans fields.userSp,
      (behind.load64 (by omega) (by omega)).trans fields.spAddr,
      (behind.load32 (by omega) (by omega)).trans fields.pid,
      (before.load64 (by omega) (by omega)).trans fields.lr⟩
  case copied =>
    intro k small
    have user : Kept chunks.userStack.toNat threadSpSize m'
        (relocateChild parent.toNat chunks.task.toNat m') :=
      same _ _ (field _ task_user.symm) (inside _ user_kernel)
    rw [user _ (Nat.le_add_right _ _) (Nat.add_lt_add_left small _), copied.user k small]
  case sp => rw [sp', moved, place]
  case frame =>
    have user : m'.load64 (chunks.task.toNat + Field.userSp) = chunks.userStack := fields.userSp
    have user' : m'.load64 (parent.toNat + Field.userSp) = userStack m parent :=
      userStack_eq kept.task
    rw [user, user'] at frame'
    rwa [← place]

/-- **`sysc_fork`** returns the pid of the child and leaves the parent as it was. -/
theorem exists_syscFork (sym : Symbols) (placed : Placed m parent chunks g)
    (framed : IsFrame m frame.toNat c)
    (low : (kernelStack m parent).toNat ≤ frame.toNat)
    (high : frame.toNat + frameSize ≤ (kernelStack m parent).toNat + threadSpSize) :
    ∃ fuel g' m', syscFork sym chunks fuel parent frame g m = .ok (g.pid, g', m') ∧
      ParentKept m m' parent ∧ ChildReady sym chunks g parent frame c m m' := by
  have offsets := Field.offsets
  obtain ⟨fuel, g', m₁, created, parent₂, fields₂, fp₂, sp₂⟩ :=
    exists_context sym placed framed low high
  generalize context : copyContext sym parent.toNat chunks.task.toNat frame m₁ = m₂ at *
  generalize loop : copyStacks chunks.userStack.toNat (userStack m parent).toNat
    chunks.kernelStack.toNat (kernelStack m parent).toNat threadSpSize m₂ = m₃ at *
  obtain ⟨parent₃, task₃, copied₃⟩ := copyStacks_effect placed parent₂ loop.symm
  have fields₃ : ChildFields sym chunks g.pid m₃ :=
    ⟨(userStack_eq task₃).trans fields₂.userSp, (kernelStack_eq task₃).trans fields₂.spAddr,
      (task₃.load32 (by omega) (by omega)).trans fields₂.pid,
      (task₃.load64 (by omega) (by omega)).trans fields₂.lr⟩
  obtain ⟨kept, ready⟩ := relocateChild_effect placed framed low high parent₃ fields₃ copied₃
    ((task₃.load64 (by omega) (by omega)).trans fp₂)
    ((task₃.load64 (by omega) (by omega)).trans sp₂)
  refine ⟨fuel, g', _, ?_, kept, ready⟩
  have user : m₂.load64 (parent.toNat + Field.userSp) = userStack m parent :=
    userStack_eq parent₂.task
  have kernel : m₂.load64 (parent.toNat + Field.spAddr) = kernelStack m parent :=
    kernelStack_eq parent₂.task
  have user' : m₂.load64 (chunks.task.toNat + Field.userSp) = chunks.userStack := fields₂.userSp
  have kernel' : m₂.load64 (chunks.task.toNat + Field.spAddr) = chunks.kernelStack := fields₂.spAddr
  simp only [syscFork, created, outcome_bind_ok, outcome_pure, context, user, kernel, user',
    kernel', loop, ready.fields.pid]

/-- A later store keeps a child ready, if it is outside of the child. -/
theorem ChildReady.of_kept (ready : ChildReady sym chunks g parent frame c m m')
    (low : (kernelStack m parent).toNat ≤ frame.toNat)
    (high : frame.toNat + frameSize ≤ (kernelStack m parent).toNat + threadSpSize)
    (same : ∀ row ∈ childRows chunks, Kept row.1 row.2 m' m'') :
    ChildReady sym chunks g parent frame c m m'' := by
  have offsets := Field.offsets
  have size : frameSize = 288 := rfl
  have task : Kept chunks.task.toNat Field.size m' m'' :=
    same (taskRow chunks.task) task_mem_childRows
  have user : Kept chunks.userStack.toNat threadSpSize m' m'' :=
    same (stackRow chunks.userStack) user_mem_childRows
  have kernel : Kept chunks.kernelStack.toNat threadSpSize m' m'' :=
    same (stackRow chunks.kernelStack) kernel_mem_childRows
  constructor
  case fields =>
    exact ⟨(userStack_eq task).trans ready.fields.userSp,
      (kernelStack_eq task).trans ready.fields.spAddr,
      (task.load32 (by omega) (by omega)).trans ready.fields.pid,
      (task.load64 (by omega) (by omega)).trans ready.fields.lr⟩
  case copied =>
    intro k small
    rw [user _ (Nat.le_add_right _ _) (Nat.add_lt_add_left small _), ready.copied k small]
  case sp => rw [task.load64 (by omega) (by omega), ready.sp]
  case frame =>
    apply ready.frame.copy
    intro k small
    exact kernel _ (by omega) (by omega)

/-! ## The system call -/

/-- The registers with which a child resumes from the `svc` of its parent. -/
structure Resumed (c : Cpu) (user user' : BitVec 64) (child : Cpu) : Prop where
  x0 : child.x 0 = 0
  x : ∀ i, 1 ≤ i → i ≤ 30 → child.x i = c.x i
  elrEl1 : child.elrEl1 = c.elrEl1
  spsrEl1 : child.spsrEl1 = c.spsrEl1
  pc : child.pc = c.elrEl1
  spEl0 : child.spEl0 - user' = c.spEl0 - user

/-- A pointer that moves with its stack stays at its offset. -/
theorem sub_of_add_distance (a b b' : BitVec 64) : a + (b' - b) - b' = a - b := by
  grind

/-- The child runs for the first time, when its fields and its kernel stack are as `fork` left
them: `switch_to` from another task, then `child_return_from_fork`. -/
theorem ChildReady.resumes (ready : ChildReady sym chunks g parent frame c m m')
    (low : (kernelStack m parent).toNat ≤ frame.toNat)
    (high : frame.toNat + frameSize ≤ (kernelStack m parent).toNat + threadSpSize)
    (next : c'.x 1 = chunks.task) (fields : Kept chunks.task.toNat Field.targetFunc m' m'')
    (stack : Kept chunks.kernelStack.toNat threadSpSize m' m'')
    (prev : Apart (taskRow chunks.task) (taskRow (c'.x 0)))
    (prev' : Apart (stackRow chunks.kernelStack) (taskRow (c'.x 0))) :
    (switchTo c' m'').1.tpidrEl1 = chunks.task ∧
      (switchTo c' m'').1.pc = sym.childReturnFromFork ∧
      Resumed c (userStack m parent) chunks.userStack
        (childReturnFromFork (switchTo c' m'').1 (switchTo c' m'').2) := by
  have offsets := Field.offsets
  have size : frameSize = 288 := rfl
  have writes := writes_switchTo (c := c') (m := m'')
  obtain ⟨current, sp, pc⟩ := switchTo_next c' m''
  rw [next] at current sp pc
  -- `switch_to` stores to the task it leaves only
  have fields' : Kept chunks.task.toNat Field.targetFunc m' (switchTo c' m'').2 := by
    refine fields.trans (writes.kept ?_)
    have apart := apart_iff.mp prev
    omega
  have stack' : Kept chunks.kernelStack.toNat threadSpSize m' (switchTo c' m'').2 := by
    refine stack.trans (writes.kept ?_)
    have apart := apart_iff.mp prev'
    omega
  rw [fields'.load64 (by omega) (by omega)] at sp pc
  refine ⟨current, pc.trans ready.fields.lr, ?_⟩
  -- the frame that is loaded is the one that `fork` has made
  have framed : IsFrame (switchTo c' m'').2 (switchTo c' m'').1.sp.toNat
      (childCpu c (chunks.userStack - userStack m parent)) := by
    rw [sp, ready.sp]
    apply ready.frame.copy
    intro k small
    exact stack' _ (by omega) (by omega)
  obtain ⟨x, spEl0, elrEl1, spsrEl1, pc⟩ := framed.returns
  rw [childCpu_x] at x
  constructor
  case x0 => rw [x 0 (by decide), Function.update_self]
  case x =>
    intro i positive small
    rw [x i small, Function.update_of_ne (by omega)]
  case elrEl1 => exact elrEl1
  case spsrEl1 => exact spsrEl1
  case pc => exact pc
  case spEl0 =>
    rw [spEl0, childCpu]
    exact sub_of_add_distance _ _ _

/-- A place for a child is still one when `save_all` has made a frame. -/
theorem Placed.of_writes {base n : ℕ} (placed : Placed m parent chunks g)
    (writes : Writes base n m m')
    (low : (kernelStack m parent).toNat ≤ base)
    (high : base + n ≤ (kernelStack m parent).toNat + threadSpSize) :
    Placed m' parent chunks g ∧ Kept parent.toNat Field.size m m' ∧
      Kept (userStack m parent).toNat threadSpSize m m' := by
  have offsets := Field.offsets
  obtain ⟨task_kernel, user_kernel⟩ := placed.parent_apart
  have task : Kept parent.toNat Field.size m m' :=
    writes.kept_of_apart (task_kernel.inside low high)
  have rows : parentRows m' parent = parentRows m parent := by
    rw [parentRows, parentRows, userStack_eq task, kernelStack_eq task]
  obtain ⟨tasks, linked, others⟩ := placed.queue
  have linked' : Linked (nextOf m') (pointer g.runQueue) tasks := by
    refine linked.congr fun t queued => ?_
    have apart := others t queued _ (List.mem_append_left _ kernel_mem_parentRows)
    have away := apart_iff.mp (apart.symm.inside low high)
    rw [nextOf, writes.load64 (by omega), nextOf]
  have user : Kept (userStack m parent).toNat threadSpSize m m' :=
    writes.kept_of_apart (user_kernel.inside low high)
  rw [← rows] at others
  refine ⟨⟨?_, placed.room, tasks, linked', others⟩, task, user⟩
  rw [rows]
  exact placed.apart

/-- **`fork`** at a `svc`. The parent keeps its task, its user stack and its frame, but for the pid
in `x0`. The user stack of the child is a copy, and its first run resumes with the registers of
the parent, but for `x0` and the place of the user stack. -/
theorem fork_duplicates (placed : Placed m c.tpidrEl1 chunks g)
    (low : (kernelStack m c.tpidrEl1).toNat + frameSize ≤ c.sp.toNat)
    (high : c.sp.toNat ≤ (kernelStack m c.tpidrEl1).toNat + threadSpSize)
    (small : g.pid.toNat < 2 ^ 31) :
    ∃ g' m', Returns (fun fuel =>
        syncRouterFork sym chunks fuel (saveAll c m).1 g (saveAll c m).2) (g', m') ∧
      Kept c.tpidrEl1.toNat Field.size m m' ∧
      Kept (userStack m c.tpidrEl1).toNat threadSpSize m m' ∧
      Kept ((saveAll c m).1.sp.toNat + Slot.x 1) (frameSize - Slot.x 1) (saveAll c m).2 m' ∧
      ((loadAll (saveAll c m).1 m').x 0).toNat = g.pid.toNat ∧
      m'.load32 (chunks.task.toNat + Field.pid) = g.pid ∧
      (∀ k < threadSpSize, m' (chunks.userStack.toNat + k) =
        m' ((userStack m c.tpidrEl1).toNat + k)) ∧
      ∀ ⦃c' m''⦄, c'.x 1 = chunks.task → Kept chunks.task.toNat Field.targetFunc m' m'' →
        Kept chunks.kernelStack.toNat threadSpSize m' m'' →
        Apart (taskRow chunks.task) (taskRow (c'.x 0)) →
        Apart (stackRow chunks.kernelStack) (taskRow (c'.x 0)) →
        (switchTo c' m'').1.tpidrEl1 = chunks.task ∧
          (switchTo c' m'').1.pc = sym.childReturnFromFork ∧
          Resumed c (userStack m c.tpidrEl1) chunks.userStack
            (childReturnFromFork (switchTo c' m'').1 (switchTo c' m'').2) := by
  have size : frameSize = 288 := rfl
  have slots : Slot.x 0 = 0 ∧ Slot.x 1 = 8 := ⟨rfl, rfl⟩
  obtain ⟨sp, writes, framed⟩ := saveAll_frame (m := m) (show frameSize ≤ c.sp.toNat by omega)
  have current := saveAll_tpidrEl1 c m
  generalize (saveAll c m).1 = c₀ at *
  generalize (saveAll c m).2 = m₀ at *
  -- the frame is in the kernel stack of the parent
  obtain ⟨placed₀, task₀, user₀⟩ := placed.of_writes writes (by omega) (by omega)
  have user_eq := userStack_eq task₀
  have kernel_eq := kernelStack_eq task₀
  have low₀ : (kernelStack m₀ c.tpidrEl1).toNat ≤ c₀.sp.toNat := by
    rw [kernel_eq]
    omega
  have high₀ : c₀.sp.toNat + frameSize ≤ (kernelStack m₀ c.tpidrEl1).toNat + threadSpSize := by
    rw [kernel_eq]
    omega
  obtain ⟨fuel, g', m₁, forked, kept₁, ready₁⟩ :=
    exists_syscFork sym placed₀ framed low₀ high₀
  -- the result goes to `x0` of the frame
  obtain ⟨m₂, stored⟩ : ∃ m₂, m₂ = m₁.store64 (c₀.sp.toNat + Slot.x 0) (g.pid.signExtend 64) :=
    ⟨_, rfl⟩
  have writes₂ : Writes (c₀.sp.toNat + Slot.x 0) 8 m₁ m₂ := stored ▸ writes_store64
  have others : ∀ row, Apart row (stackRow (kernelStack m₀ c.tpidrEl1)) →
    Kept row.1 row.2 m₁ m₂ := by
    intro row apart
    have inside : Apart row (c₀.sp.toNat + Slot.x 0, 8) := apart.inside (by omega) (by omega)
    exact writes₂.kept_of_apart inside
  have ready₂ : ChildReady sym chunks g c.tpidrEl1 c₀.sp c m₀ m₂ :=
    ready₁.of_kept low₀ high₀ fun row new =>
      others row (placed₀.others kernel_mem_parentRows new).symm
  obtain ⟨task_kernel, user_kernel⟩ := placed₀.parent_apart
  have user₂ : Kept (userStack m₀ c.tpidrEl1).toNat threadSpSize m₁ m₂ :=
    others (stackRow (userStack m₀ c.tpidrEl1)) user_kernel
  rw [← user_eq]
  refine ⟨g', m₂, ⟨fuel, ?_⟩, ?_, ?_, ?_, ?_, ready₂.fields.pid, ?_, ?_⟩
  · simp only [syncRouterFork, current, forked, outcome_bind_ok, outcome_pure, stored]
  · exact (task₀.trans kept₁.task).trans (others (taskRow c.tpidrEl1) task_kernel)
  · rw [user_eq] at user₂ ⊢
    exact (user₀.trans (user_eq ▸ kept₁.user)).trans user₂
  · exact (kept₁.kernel.mono (by omega) (by omega)).trans (writes₂.kept (by omega))
  · have positive : g.pid.msb = false := by
      rw [BitVec.msb_eq_false_iff_two_mul_lt]
      omega
    rw [loadAll_x (by decide), stored, load64_store64_self,
      BitVec.signExtend_eq_setWidth_of_msb_false positive, BitVec.toNat_setWidth]
    omega
  · intro k inside
    rw [ready₂.copied k inside, user₂ _ (Nat.le_add_right _ _) (Nat.add_lt_add_left inside _),
      kept₁.user _ (Nat.le_add_right _ _) (Nat.add_lt_add_left inside _)]
  · intro c' m'' next fields stack prev prev'
    exact ready₂.resumes low₀ high₀ next fields stack prev prev'

/-- A task with its stacks. -/
def forkMemory : ByteMemory :=
  store64 (store64 (fun _ => 0) (65536 + Field.userSp) 131072) (65536 + Field.spAddr) 196608

/-- Its registers, with some stack in use. -/
def forkCpu : Cpu where
  x i := BitVec.ofNat 64 i
  sp := 198000
  pc := 0
  spEl0 := 132000
  elrEl1 := 4096
  spsrEl1 := 0
  tpidrEl1 := 65536

/-- Chunks for a child, with one stack below and one stack above its parent's. -/
def forkChunks : Chunks where
  task := 262144
  userStack := 327680
  kernelStack := 32768
  stdin := 0
  stdout := 0
  stderr := 0

theorem fork_place : userStack forkMemory forkCpu.tpidrEl1 = 131072 ∧
    kernelStack forkMemory forkCpu.tpidrEl1 = 196608 ∧
    Placed forkMemory forkCpu.tpidrEl1 forkChunks ⟨7, 0⟩ := by
  have user : userStack forkMemory forkCpu.tpidrEl1 = 131072 :=
    (load64_store64_of_apart (by decide)).trans load64_store64_self
  have kernel : kernelStack forkMemory forkCpu.tpidrEl1 = 196608 := load64_store64_self
  have empty : Linked (nextOf forkMemory) (pointer 0) [] := pointer_eq_none.mpr rfl
  refine ⟨user, kernel, ?_, by decide, [], empty, ?_⟩
  · rw [parentRows, user, kernel]
    decide
  · exact fun _ queued => absurd queued List.not_mem_nil

/-- A parent of pid 6 that forks child 7. -/
theorem fork_duplicates_seven :
    ∃ g' m', Returns (fun fuel => syncRouterFork ⟨0, 4660⟩ forkChunks fuel
      (saveAll forkCpu forkMemory).1 ⟨7, 0⟩ (saveAll forkCpu forkMemory).2) (g', m') ∧
    ((loadAll (saveAll forkCpu forkMemory).1 m').x 0).toNat = 7 := by
  obtain ⟨user, kernel, placed⟩ := fork_place
  obtain ⟨g', m', returned, -, -, -, x0, -⟩ := fork_duplicates placed (by rw [kernel]; decide)
    (by rw [kernel]; decide) (by decide)
  exact ⟨g', m', returned, x0⟩

end BareMetal.Context
