import BareMetal.Context.Model
import BareMetal.Pool.Runs
import BareMetal.Sched.Model

/-!
# `kill_zombies` and the memory of tasks

`kill_zombies` frees the chunk of a task first and reads `sp_addr`, `mode` and `user_sp` from it
afterwards. Here `struct task` lies in the memory of the pool, so what `free` stores there, and
what `page_free` and its merging leave at the ends of pages, could be in the way.

## Main results

* `HeapStep.ok` — every step keeps the fields of the tasks that are not freed yet
* `Run.reaps_as_stored` — `kill_zombies` reads what `task_create` stored, and frees each chunk of
  the task once
-/

namespace BareMetal.Tasks.Reap

open CS Buddy Pool
open Math (Block)
open Sched (Mode stackTop)

/-! ## `struct task` in memory -/

/-- A field of `struct task`. -/
def taskField (mem : Memory) (task off width : ℕ) : ℕ := mem.load (task + off) width

/-- A store to a field. -/
def setTaskField (mem : Memory) (task off width value : ℕ) : Memory :=
  mem.store (task + off) width value

/-- `enum mode`. -/
def modeCode : Mode → ℕ
  | .kernel => 0
  | .user => 1

/-- The chunks that `task_create` got, with a user stack for a `USER` task only. -/
structure Created where
  task : ℕ
  kernelStack : ℕ
  userStack : Option ℕ
deriving DecidableEq, Repr

/-- The stores of `task_create` to a new task. -/
def initTask (mem : Memory) (task pid : ℕ) (mode : Mode) : Memory :=
  let mem := setTaskField mem task Context.Field.mode 4 (modeCode mode)
  let mem := setTaskField mem task Context.Field.next 8 0
  let mem := setTaskField mem task Context.Field.pid 4 pid
  let mem := setTaskField mem task Context.Field.handler 8 0
  -- `RUNNING`
  setTaskField mem task Context.Field.state 4 1

/-- Its stores for a `USER` task. -/
def initUser (mem : Memory) (task userStack switchToUserSpace func : ℕ) : Memory :=
  let mem := setTaskField mem task Context.Field.userSp 8 userStack
  let mem := setTaskField mem task Context.Field.lr 8 switchToUserSpace
  setTaskField mem task Context.Field.targetFunc 8 func

/-- Its stores once it has the kernel stack: `sp_addr`, `fp` and `sp`, `cwd` and `fd_table`. -/
def initStack (mem : Memory) (task kernelStack : ℕ) : Memory :=
  let mem := setTaskField mem task Context.Field.spAddr 8 kernelStack
  let mem := setTaskField mem task Context.Field.fp 8 (stackTop kernelStack)
  let mem := setTaskField mem task Context.Field.sp 8 (stackTop kernelStack)
  let mem := setTaskField mem task Context.Field.cwd 1 47
  let mem := setTaskField mem task (Context.Field.cwd + 1) 1 0
  setTaskField mem task Context.Field.fdTable 128 0

/-- `task_create` up to where it opens `/dev/uart`; what it does then are calls and stores like
those of other functions. -/
def taskCreate (fuel switchToUserSpace func pid : ℕ) (mode : Mode) (s : Pools) :
    Outcome (Created × Pools) := do
  let (task, s) ← malloc fuel Context.Field.size s
  let s := s.setMem (initTask s.k.mem task pid mode)
  match mode with
  | .user => do
    let (userStack, s) ← malloc fuel Sched.threadSpSize s
    let s := s.setMem (initUser s.k.mem task userStack switchToUserSpace func)
    let (kernelStack, s) ← malloc fuel Sched.threadSpSize s
    return (⟨task, kernelStack, some userStack⟩, s.setMem (initStack s.k.mem task kernelStack))
  | .kernel => do
    let s := s.setMem (setTaskField s.k.mem task Context.Field.lr 8 func)
    let (kernelStack, s) ← malloc fuel Sched.threadSpSize s
    return (⟨task, kernelStack, none⟩, s.setMem (initStack s.k.mem task kernelStack))

/-- `kill_zombies`: the chunks that it frees, the new value of `zombies_queue`, and the pool. -/
def killZombies (fuel zombiesQueue : ℕ) (s : Pools) : Outcome (List ℕ × ℕ × Pools) :=
  if zombiesQueue = 0 then .ok ([], zombiesQueue, s)
  else do
    let cur := zombiesQueue
    let zombiesQueue := taskField s.k.mem cur Context.Field.next 8
    let s ← free fuel cur s
    let spAddr := taskField s.k.mem cur Context.Field.spAddr 8
    let s ← free fuel spAddr s
    if taskField s.k.mem cur Context.Field.mode 4 = modeCode .user then do
      let userSp := taskField s.k.mem cur Context.Field.userSp 8
      let s ← free fuel userSp s
      return ([cur, spAddr, userSp], zombiesQueue, s)
    else return ([cur, spAddr], zombiesQueue, s)

/-! ## States and steps -/

namespace Created

/-- The chunks of a task. -/
def chunks (c : Created) : List ℕ := c.task :: c.kernelStack :: c.userStack.toList

/-- The mode that the task was created with. -/
def mode (c : Created) : Mode := if c.userStack.isSome then .user else .kernel

/-- The bytes of `user_sp`, `sp_addr`, `pid` and `mode`. -/
def fields (c : Created) : Set ℕ :=
  Set.Ico (c.task + Context.Field.userSp) (c.task + Context.Field.handler)

/-- The class of `sizeof(task)` bytes. -/
def taskClass : ℕ := 0x400

/-- The class of `THREAD_SP_SIZE` bytes. -/
def stackClass : ℕ := 0x800

/-- The chunks in use with those of the task. -/
def handOut (c : Created) (live : Heap ℕ) : Heap ℕ :=
  let live := live.alloc c.task taskClass
  let live := c.userStack.elim live fun p => live.alloc p stackClass
  live.alloc c.kernelStack stackClass

end Created

/-- The chunks in use, the queue of zombies, and the tasks that are not freed yet. -/
structure TaskHeap where
  chunks : Chunks
  zombiesQueue : ℕ
  tasks : List Created

/-- What happens in a step. -/
inductive HeapEvent
  | create (c : Created)
  | chunk (e : ChunkEvent)
  | exit (zombiesQueue : ℕ)
  | reap (freed : List ℕ)
deriving DecidableEq, Repr

/-- The call or the stores leave the tasks to `kill_zombies`: their chunks are not freed, and
`user_sp`, `sp_addr` and `mode` are not stored to. -/
def Respects (s : TaskHeap) (e : ChunkEvent) (t : Chunks) : Prop :=
  match e with
  | .malloc _ _ => True
  | .free p => ∀ c ∈ s.tasks, p ∉ c.chunks
  | .store => ∀ c ∈ s.tasks, ∀ x ∈ c.fields, t.pools.k.mem x = s.chunks.pools.k.mem x

/-- One step. Any task may come to the head of the zombies, and `kill_zombies` frees the head. -/
inductive HeapStep (others : Set Block) : TaskHeap → HeapEvent → TaskHeap → Prop
  | create {s : TaskHeap} {switchToUserSpace func pid : ℕ} {mode : Mode} {c : Created}
      {pools : Pools}
      (returns : Returns
        (fun fuel => taskCreate fuel switchToUserSpace func pid mode s.chunks.pools) (c, pools)) :
      HeapStep others s (.create c)
        { s with chunks := ⟨pools, c.handOut s.chunks.live⟩, tasks := c :: s.tasks }
  | chunk {s : TaskHeap} {e : ChunkEvent} {t : Chunks} (step : ChunkStep others s.chunks e t)
      (respects : Respects s e t) : HeapStep others s (.chunk e) { s with chunks := t }
  | exit {s : TaskHeap} {zombiesQueue : ℕ}
      (zombie : zombiesQueue ≠ 0 → ∃ c ∈ s.tasks, c.task = zombiesQueue) :
      HeapStep others s (.exit zombiesQueue) { s with zombiesQueue := zombiesQueue }
  | reap {s : TaskHeap} {freed : List ℕ} {zombiesQueue : ℕ} {pools : Pools}
      (zombie : s.zombiesQueue ≠ 0 → ∃ c ∈ s.tasks, c.task = s.zombiesQueue)
      (returns : Returns (fun fuel => killZombies fuel s.zombiesQueue s.chunks.pools)
        (freed, zombiesQueue, pools)) :
      HeapStep others s (.reap freed)
        { chunks := ⟨pools, freed.foldl Heap.free s.chunks.live⟩
          zombiesQueue := zombiesQueue
          tasks := s.tasks.filter fun c => c.task ∉ freed }

/-! ## Fields and stores -/

variable {others : Set Block} {t : Chunks} {pages pages' : List Page} {s s' s₀ : TaskHeap}
  {mem mem' : Memory} {c c' : Created} {e : HeapEvent} {w : List HeapEvent} {mode : Mode}
  {pools : Pools} {F : Set ℕ} {fuel p task kernelStack userStack pid switchToUserSpace func x : ℕ}

section Fields

variable {off off' width width' value : ℕ}

theorem taskField_setTaskField (positive : 0 < width) :
    taskField (setTaskField mem task off width value) task off width = value :=
  Memory.load_store_self positive

theorem taskField_setTaskField_of_apart (positive : 0 < width')
    (apart : off' + width' ≤ off ∨ off + width ≤ off') :
    taskField (setTaskField mem task off width value) task off' width' =
      taskField mem task off' width' := by
  refine Memory.load_store_of_disjoint positive ?_
  omega

theorem setTaskField_writes (inside : off + width ≤ 544)
    (changed : setTaskField mem task off width value x ≠ mem x) : task ≤ x ∧ x < task + 544 := by
  by_contra outside
  apply changed
  rw [setTaskField, Memory.store_apply_of_outside (by omega)]

end Fields

/-- Only bytes of the task have changed. -/
def Within (task : ℕ) (mem mem' : Memory) : Prop :=
  ∀ x, mem' x ≠ mem x → task ≤ x ∧ x < task + 544

theorem Within.setTaskField {off width value : ℕ} (within : Within task mem mem')
    (inside : off + width ≤ 544) : Within task mem (setTaskField mem' task off width value) := by
  intro x changed
  by_cases same : Reap.setTaskField mem' task off width value x = mem' x
  · exact within x (same ▸ changed)
  · exact setTaskField_writes inside same

theorem Within.refl (task : ℕ) (mem : Memory) : Within task mem mem :=
  fun _ changed => absurd rfl changed

theorem initTask_within : Within task mem (initTask mem task pid mode) := by
  rw [initTask]
  refine Within.setTaskField (Within.setTaskField (Within.setTaskField (Within.setTaskField
    (Within.setTaskField (Within.refl task mem) ?_) ?_) ?_) ?_) ?_ <;> decide

theorem initUser_within :
    Within task mem (initUser mem task userStack switchToUserSpace func) := by
  rw [initUser]
  refine Within.setTaskField (Within.setTaskField (Within.setTaskField (Within.refl task mem)
    ?_) ?_) ?_ <;> decide

theorem initStack_within : Within task mem (initStack mem task kernelStack) := by
  rw [initStack]
  refine Within.setTaskField (Within.setTaskField (Within.setTaskField (Within.setTaskField
    (Within.setTaskField (Within.setTaskField (Within.refl task mem) ?_) ?_) ?_) ?_) ?_) ?_ <;>
    decide

theorem initTask_mode : taskField (initTask mem task pid mode) task Context.Field.mode 4 =
    modeCode mode := by
  rw [initTask, taskField_setTaskField_of_apart (by decide) (by decide),
    taskField_setTaskField_of_apart (by decide) (by decide),
    taskField_setTaskField_of_apart (by decide) (by decide),
    taskField_setTaskField_of_apart (by decide) (by decide), taskField_setTaskField (by decide)]

theorem initUser_userSp :
    taskField (initUser mem task userStack switchToUserSpace func) task Context.Field.userSp 8 =
      userStack := by
  rw [initUser, taskField_setTaskField_of_apart (by decide) (by decide),
    taskField_setTaskField_of_apart (by decide) (by decide), taskField_setTaskField (by decide)]

theorem initUser_mode :
    taskField (initUser mem task userStack switchToUserSpace func) task Context.Field.mode 4 =
      taskField mem task Context.Field.mode 4 := by
  rw [initUser, taskField_setTaskField_of_apart (by decide) (by decide),
    taskField_setTaskField_of_apart (by decide) (by decide),
    taskField_setTaskField_of_apart (by decide) (by decide)]

/-- The last stores set `sp_addr` and leave `user_sp` and `mode`. -/
theorem initStack_spAddr :
    taskField (initStack mem task kernelStack) task Context.Field.spAddr 8 = kernelStack := by
  rw [initStack, taskField_setTaskField_of_apart (by decide) (by decide),
    taskField_setTaskField_of_apart (by decide) (by decide),
    taskField_setTaskField_of_apart (by decide) (by decide),
    taskField_setTaskField_of_apart (by decide) (by decide),
    taskField_setTaskField_of_apart (by decide) (by decide), taskField_setTaskField (by decide)]

theorem initStack_other {off width : ℕ} (positive : 0 < width)
    (apart : off + width ≤ Context.Field.spAddr ∧ Context.Field.targetFunc ≤ off ∨
      off + width ≤ Context.Field.fdTable ∧ Context.Field.pid ≤ off) :
    taskField (initStack mem task kernelStack) task off width = taskField mem task off width := by
  simp only [Context.Field.offsets] at apart
  rw [initStack, taskField_setTaskField_of_apart positive, taskField_setTaskField_of_apart positive,
    taskField_setTaskField_of_apart positive, taskField_setTaskField_of_apart positive,
    taskField_setTaskField_of_apart positive, taskField_setTaskField_of_apart positive] <;>
  · simp only [Context.Field.offsets]
    omega

/-! ## `task_create` -/

/-- The chunk of a task has room for it. -/
theorem task_chunk (low : task ≤ x) (high : x < task + 544) :
    x ∈ chunkAt task Created.taskClass := by
  have room : chunkSize Created.taskClass = 0x400 := rfl
  rw [chunkAt, room]
  exact ⟨low, by omega⟩

theorem classOf_task : classOf Context.Field.size = .ok Created.taskClass := rfl

theorem classOf_stack : classOf Sched.threadSpSize = .ok Created.stackClass := rfl

/-- Chunks have been handed out, and what was in use is as before. -/
structure HandsOut (others : Set Block) (t t' : Chunks) (got : List ℕ) : Prop where
  shows : ∃ pages, Shows others t' pages
  fresh : ∀ p ∈ got, t.live p = none
  once : got.Nodup
  live : ∀ p ∈ got, (t'.live p).isSome
  kept : ∀ q size, t.live q = some size → t'.live q = some size ∧
    ∀ x ∈ chunkAt q size, t'.pools.k.mem x = t.pools.k.mem x

namespace HandsOut

variable {t' : Chunks} {got : List ℕ} {size cls : ℕ}

theorem refl (shows : Shows others t pages) : HandsOut others t t [] :=
  ⟨⟨pages, shows⟩, by simp, List.nodup_nil, by simp, fun _ _ live => ⟨live, fun _ _ => rfl⟩⟩

/-- One more call of `malloc_`. -/
theorem malloc (hands : HandsOut others t t' got) (hasClass : classOf size = .ok cls)
    (run : malloc fuel size t'.pools = .ok (p, pools)) :
    HandsOut others t ⟨pools, t'.live.alloc p cls⟩ (p :: got) ∧
      ∀ q size, t'.live q = some size → q ≠ p ∧
        ∀ x ∈ chunkAt q size, pools.k.mem x = t'.pools.k.mem x := by
  obtain ⟨pages, shows⟩ := hands.shows
  obtain ⟨pages', effect, shows'⟩ := shows.malloc hasClass run
  have keeps : ∀ q size, t'.live q = some size → q ≠ p ∧
      ∀ x ∈ chunkAt q size, pools.k.mem x = t'.pools.k.mem x := by
    intro q size live
    have here := (shows.live q size).mp live
    refine ⟨?_, effect.kept q size here⟩
    rintro rfl
    exact effect.fresh size here
  -- the new chunk was not in use
  have unused : t'.live p = none := by
    by_contra there
    obtain ⟨size, there⟩ := Option.ne_none_iff_exists'.mp there
    exact (keeps p size there).1 rfl
  refine ⟨⟨⟨pages', shows'⟩, fun q hq => ?_, List.nodup_cons.mpr ⟨fun again => ?_, hands.once⟩,
    fun q hq => ?_, fun q size live => ?_⟩, keeps⟩
  · rcases List.mem_cons.mp hq with rfl | hq
    · by_contra there
      obtain ⟨size, there⟩ := Option.ne_none_iff_exists'.mp there
      rw [(hands.kept q size there).1] at unused
      cases unused
    · exact hands.fresh q hq
  · have live := hands.live p again
    rw [unused] at live
    cases live
  · change (t'.live.alloc p cls q).isSome
    by_cases same : q = p
    · rw [same, Heap.alloc_self]
      rfl
    · rw [Heap.alloc_of_ne same]
      exact hands.live q ((List.mem_cons.mp hq).resolve_left same)
  · obtain ⟨live', bytes⟩ := hands.kept q size live
    obtain ⟨differs, bytes'⟩ := keeps q size live'
    refine ⟨?_, fun x inside => (bytes' x inside).trans (bytes x inside)⟩
    change t'.live.alloc p cls q = some size
    rw [Heap.alloc_of_ne differs, live']

/-- Stores to the new task. -/
theorem store (hands : HandsOut others t t' got) (listed : task ∈ got)
    (live : t'.live task = some Created.taskClass) (within : Within task t'.pools.k.mem mem) :
    HandsOut others t ⟨t'.pools.setMem mem, t'.live⟩ got := by
  obtain ⟨pages, shows⟩ := hands.shows
  refine ⟨⟨pages, shows.store fun x changed => ?_⟩, hands.fresh, hands.once, hands.live,
    fun q size live' => ⟨(hands.kept q size live').1, fun x inside => ?_⟩⟩
  · obtain ⟨low, high⟩ := within x changed
    exact .inl ⟨task, _, live, task_chunk low high⟩
  · have before := hands.kept q size live'
    rw [← before.2 x inside]
    by_contra changed
    obtain ⟨low, high⟩ := within x changed
    have differs : q ≠ task := by
      rintro rfl
      rw [hands.fresh q listed] at live'
      cases live'
    exact Set.disjoint_left.mp (shows.apart.disjoint _ _ _ _ before.1 live differs) inside
      (task_chunk low high)

/-- The order does not matter. -/
theorem perm {got' : List ℕ} (hands : HandsOut others t t' got) (same : got.Perm got') :
    HandsOut others t t' got' where
  shows := hands.shows
  fresh p hp := hands.fresh p (same.mem_iff.mpr hp)
  once := same.nodup_iff.mp hands.once
  live p hp := hands.live p (same.mem_iff.mpr hp)
  kept := hands.kept

end HandsOut

/-- The task is in use, and its fields are those that `task_create` stored. -/
structure Stored (t : Chunks) (c : Created) : Prop where
  task : t.live c.task = some Created.taskClass
  live : ∀ p ∈ c.chunks, (t.live p).isSome
  spAddr : taskField t.pools.k.mem c.task Context.Field.spAddr 8 = c.kernelStack
  mode : taskField t.pools.k.mem c.task Context.Field.mode 4 = modeCode c.mode
  userSp : ∀ p ∈ c.userStack, taskField t.pools.k.mem c.task Context.Field.userSp 8 = p

/-- Fields in bytes that have not changed. -/
theorem taskField_congr {off width : ℕ} (positive : 0 < width) (inside : off + width ≤ 544)
    (same : ∀ x ∈ chunkAt task Created.taskClass, mem' x = mem x) :
    taskField mem' task off width = taskField mem task off width := by
  refine Memory.load_congr positive fun k small => same _ (task_chunk ?_ ?_) <;> omega

/-- The kernel stack of a task, and the last stores. -/
theorem HandsOut.finish {t' : Chunks} {got : List ℕ} (hands : HandsOut others t t' got)
    (listed : task ∈ got) (live : t'.live task = some Created.taskClass)
    (run : Pool.malloc fuel Sched.threadSpSize t'.pools = .ok (kernelStack, pools)) :
    let t'' : Chunks := ⟨pools.setMem (initStack pools.k.mem task kernelStack),
      t'.live.alloc kernelStack Created.stackClass⟩
    HandsOut others t t'' (kernelStack :: got) ∧ t''.live task = some Created.taskClass ∧
      taskField t''.pools.k.mem task Context.Field.spAddr 8 = kernelStack ∧
      taskField t''.pools.k.mem task Context.Field.mode 4 =
        taskField t'.pools.k.mem task Context.Field.mode 4 ∧
      taskField t''.pools.k.mem task Context.Field.userSp 8 =
        taskField t'.pools.k.mem task Context.Field.userSp 8 := by
  obtain ⟨hands', keeps⟩ := hands.malloc classOf_stack run
  obtain ⟨differs, bytes⟩ := keeps task _ live
  have live' : t'.live.alloc kernelStack Created.stackClass task = some Created.taskClass := by
    rw [Heap.alloc_of_ne differs, live]
  refine ⟨hands'.store (List.mem_cons_of_mem _ listed) live' initStack_within, live',
    initStack_spAddr, ?_, ?_⟩
  · exact (initStack_other (by decide) (by decide)).trans
      (taskField_congr (by decide) (by decide) bytes)
  · exact (initStack_other (by decide) (by decide)).trans
      (taskField_congr (by decide) (by decide) bytes)

/-- `task_create` hands out the chunks of the task, and stores its fields. -/
theorem taskCreate_stored (shows : Shows others t pages)
    (run : taskCreate fuel switchToUserSpace func pid mode t.pools = .ok (c, pools)) :
    HandsOut others t ⟨pools, c.handOut t.live⟩ c.chunks ∧
      Stored ⟨pools, c.handOut t.live⟩ c := by
  obtain ⟨⟨task, s₁⟩, got₁, run⟩ := outcome_bind_eq_ok.mp run
  obtain ⟨hands₁, -⟩ := (HandsOut.refl shows).malloc classOf_task got₁
  have live₁ : t.live.alloc task Created.taskClass task = some Created.taskClass := Heap.alloc_self
  have within₁ : Within task s₁.k.mem (initTask s₁.k.mem task pid mode) := initTask_within
  have mode₁ : taskField (initTask s₁.k.mem task pid mode) task Context.Field.mode 4 =
      modeCode mode := initTask_mode
  replace hands₁ := hands₁.store List.mem_cons_self live₁ within₁
  cases mode with
  | user =>
    -- the user stack does not touch the fields stored so far
    obtain ⟨⟨userStack, s₂⟩, got₂, run⟩ := outcome_bind_eq_ok.mp run
    obtain ⟨hands₂, keeps₂⟩ := hands₁.malloc classOf_stack got₂
    obtain ⟨differs, bytes⟩ := keeps₂ task _ live₁
    have live₂ : (t.live.alloc task Created.taskClass).alloc userStack Created.stackClass task =
        some Created.taskClass := (Heap.alloc_of_ne differs).trans live₁
    have within₂ : Within task s₂.k.mem
        (initUser s₂.k.mem task userStack switchToUserSpace func) := initUser_within
    have mode₂ : taskField (initUser s₂.k.mem task userStack switchToUserSpace func) task
        Context.Field.mode 4 = modeCode .user :=
      initUser_mode.trans ((taskField_congr (by decide) (by decide) bytes).trans mode₁)
    have listed : task ∈ [userStack, task] := by simp
    replace hands₂ := hands₂.store listed live₂ within₂
    obtain ⟨⟨kernelStack, s₃⟩, got₃, run⟩ := outcome_bind_eq_ok.mp run
    obtain ⟨rfl, rfl⟩ := Prod.mk.inj (Except.ok.inj run)
    obtain ⟨hands₃, live₃, spAddr, mode₃, userSp⟩ := hands₂.finish listed live₂ got₃
    -- the chunks are named in the order in which `kill_zombies` frees them
    have order : ([kernelStack, userStack] ++ [task]).Perm ([task] ++ [kernelStack, userStack]) :=
      List.perm_append_comm
    have hands := hands₃.perm order
    refine ⟨hands, live₃, hands.live, spAddr, mode₃.trans mode₂, fun p same => ?_⟩
    obtain rfl := Option.some.inj same
    exact userSp.trans initUser_userSp
  | kernel =>
    have within₂ : Within task (initTask s₁.k.mem task pid .kernel)
        (setTaskField (initTask s₁.k.mem task pid .kernel) task Context.Field.lr 8 func) :=
      (Within.refl task _).setTaskField (by decide)
    have mode₂ : taskField (setTaskField (initTask s₁.k.mem task pid .kernel) task
        Context.Field.lr 8 func) task Context.Field.mode 4 = modeCode .kernel :=
      (taskField_setTaskField_of_apart (by decide) (by decide)).trans mode₁
    have hands₂ := hands₁.store List.mem_cons_self live₁ within₂
    obtain ⟨⟨kernelStack, s₃⟩, got₃, run⟩ := outcome_bind_eq_ok.mp run
    obtain ⟨rfl, rfl⟩ := Prod.mk.inj (Except.ok.inj run)
    obtain ⟨hands₃, live₃, spAddr, mode₃, -⟩ := hands₂.finish List.mem_cons_self live₁ got₃
    have hands := hands₃.perm (List.Perm.swap task kernelStack [])
    exact ⟨hands, live₃, hands.live, spAddr, mode₃.trans mode₂, by simp⟩

/-! ## `kill_zombies` -/

/-- No header, mark or item can be stored at these bytes. -/
def Quiet (pages : List Page) (F : Set ℕ) : Prop :=
  ∀ x ∈ F, x % 0x1000 < 0x1000 - 24 ∧ ∀ page ∈ pages, x ∉ page.info

/-- The fields of a task are in the middle of a page, behind its header and marks. -/
theorem fields_quiet (shows : Shows others t pages)
    (live : t.live c.task = some Created.taskClass) : Quiet pages c.fields := by
  rintro x ⟨low, high⟩
  have here := (shows.live _ _).mp live
  have chunk : x ∈ chunkAt c.task Created.taskClass := by
    refine task_chunk ((Nat.le_add_right _ _).trans low) (high.trans ?_)
    exact Nat.add_lt_add_left (by decide) _
  refine ⟨?_, fun page listed => shows.ok.not_info_of_chunk here chunk listed⟩
  -- a page has three slots for tasks, and none ends in the last bytes of the page
  obtain ⟨page, -, size, i, slot, addr⟩ := here
  have bound := page.bounded i slot
  have at_page := page.frame_of_addr bound
  rw [← addr, slotOffset, size] at at_page
  rw [size] at bound
  have three : totalFor Created.taskClass = 3 := rfl
  have aligned : aling8 3 = 8 := rfl
  rw [three] at bound
  rw [three, aligned, Created.taskClass] at at_page
  simp only [Context.Field.offsets] at low high
  omega

/-- `free` of a chunk in use returns, and leaves such bytes alone. -/
theorem free_quiet (shows : Shows others t pages) (live : (t.live p).isSome)
    (quiet : Quiet pages F) :
    ∃ pools pages', Returns (fun fuel => free fuel p t.pools) pools ∧
      Shows others ⟨pools, t.live.free p⟩ pages' ∧ Quiet pages' F ∧
      ∀ x ∈ F, pools.k.mem x = t.pools.k.mem x := by
  obtain ⟨pools, returns⟩ : ∃ pools, Returns (fun fuel => free fuel p t.pools) pools := by
    obtain ⟨page, listed, i, slot, rfl⟩ := shows.isSome_live.mp live
    obtain ⟨before, after, rfl⟩ := List.append_of_mem listed
    exact shows.ok.free_returns slot
  obtain ⟨fuel, run⟩ := returns
  obtain ⟨page, -, i, -, -, pages', effect, shows'⟩ := shows.free live run
  refine ⟨pools, pages', ⟨fuel, run⟩, shows', fun x inside => ?_, fun x inside => ?_⟩
  · refine ⟨(quiet x inside).1, fun page' listed => ?_⟩
    obtain ⟨other, before, same⟩ := effect.infos page' listed
    rw [same]
    exact (quiet x inside).2 other before
  · -- `free` stores headers, marks and the items of the page allocator
    by_contra changed
    rcases effect.writes x changed with ⟨other, listed, info⟩ | ⟨-, -, item⟩
    · exact (quiet x inside).2 other listed info
    · exact absurd (quiet x inside).1 (by omega)

/-- Fields of `fields` in bytes that have not changed. -/
theorem taskField_of_fields {off width : ℕ} (positive : 0 < width)
    (inside : Context.Field.userSp ≤ off ∧ off + width ≤ Context.Field.handler)
    (same : ∀ x ∈ c.fields, mem' x = mem x) :
    taskField mem' c.task off width = taskField mem c.task off width := by
  refine Memory.load_congr positive fun k small => same _ ?_
  constructor <;> omega

theorem killZombies_mono (queue : ℕ) (s : Pools) :
    FuelMonotone fun fuel => killZombies fuel queue s := by
  by_cases empty : queue = 0
  · intro fuel r returns
    simpa only [killZombies, if_pos empty] using returns
  · simp only [killZombies, if_neg empty]
    refine (free_mono queue s).bind fun s₁ => (free_mono _ s₁).bind fun s₂ => ?_
    by_cases user : taskField s₂.k.mem queue Context.Field.mode 4 = modeCode .user
    · simp only [if_pos user]
      exact (free_mono _ s₂).bind fun s₃ => fuelMonotone_const _
    · simp only [if_neg user]
      exact fuelMonotone_const _

/-- `kill_zombies` after its first two calls of `free`. -/
theorem killZombies_of_free {cur : ℕ} {s s₁ s₂ : Pools} (nonzero : cur ≠ 0)
    (first : free fuel cur s = .ok s₁)
    (second : free fuel (taskField s₁.k.mem cur Context.Field.spAddr 8) s₁ = .ok s₂) :
    killZombies fuel cur s =
      if taskField s₂.k.mem cur Context.Field.mode 4 = modeCode .user then do
        let s₃ ← free fuel (taskField s₂.k.mem cur Context.Field.userSp 8) s₂
        return ([cur, taskField s₁.k.mem cur Context.Field.spAddr 8,
          taskField s₂.k.mem cur Context.Field.userSp 8],
          taskField s.k.mem cur Context.Field.next 8, s₃)
      else return ([cur, taskField s₁.k.mem cur Context.Field.spAddr 8],
        taskField s.k.mem cur Context.Field.next 8, s₂) := by
  rw [killZombies, if_neg nonzero]
  dsimp only
  rw [first, outcome_bind_ok, second, outcome_bind_ok]

section Returns

variable {cur : ℕ} {s s₁ s₂ s₃ : Pools}

theorem killZombies_kernel (nonzero : cur ≠ 0) (first : Returns (fun fuel => free fuel cur s) s₁)
    (second : Returns
      (fun fuel => free fuel (taskField s₁.k.mem cur Context.Field.spAddr 8) s₁) s₂)
    (kernel : ¬ taskField s₂.k.mem cur Context.Field.mode 4 = modeCode .user) :
    Returns (fun fuel => killZombies fuel cur s)
      ([cur, taskField s₁.k.mem cur Context.Field.spAddr 8],
        taskField s.k.mem cur Context.Field.next 8, s₂) := by
  obtain ⟨f₁, run₁⟩ := first
  obtain ⟨f₂, run₂⟩ := second
  have first := (free_mono _ s).of_le (Nat.le_max_left f₁ f₂) run₁
  have second := (free_mono _ s₁).of_le (Nat.le_max_right f₁ f₂) run₂
  have run := killZombies_of_free nonzero first second
  rw [if_neg kernel] at run
  exact ⟨_, run⟩

theorem killZombies_user (nonzero : cur ≠ 0) (first : Returns (fun fuel => free fuel cur s) s₁)
    (second : Returns
      (fun fuel => free fuel (taskField s₁.k.mem cur Context.Field.spAddr 8) s₁) s₂)
    (user : taskField s₂.k.mem cur Context.Field.mode 4 = modeCode .user)
    (third : Returns
      (fun fuel => free fuel (taskField s₂.k.mem cur Context.Field.userSp 8) s₂) s₃) :
    Returns (fun fuel => killZombies fuel cur s)
      ([cur, taskField s₁.k.mem cur Context.Field.spAddr 8,
        taskField s₂.k.mem cur Context.Field.userSp 8],
        taskField s.k.mem cur Context.Field.next 8, s₃) := by
  obtain ⟨f₁, run₁⟩ := first
  obtain ⟨f₂, run₂⟩ := second
  obtain ⟨f₃, run₃⟩ := third
  let enough := max (max f₁ f₂) f₃
  have first : free enough cur s = .ok s₁ := (free_mono _ s).of_le (by omega) run₁
  have second : free enough _ s₁ = .ok s₂ := (free_mono _ s₁).of_le (by omega) run₂
  have third : free enough _ s₂ = .ok s₃ := (free_mono _ s₂).of_le (by omega) run₃
  have run := killZombies_of_free nonzero first second
  rw [if_pos user, third, outcome_bind_ok] at run
  exact ⟨enough, run⟩

end Returns

/-- What `kill_zombies` does with a task: the fields that it reads after each `free` are those
from before, and it frees the chunks of the task. -/
structure Reaped (others : Set Block) (t : Chunks) (c : Created) (s₁ s₂ s₃ : Pools) : Prop where
  first : Returns (fun fuel => free fuel c.task t.pools) s₁
  spAddr : taskField s₁.k.mem c.task Context.Field.spAddr 8 =
    taskField t.pools.k.mem c.task Context.Field.spAddr 8
  second : Returns (fun fuel => free fuel c.kernelStack s₁) s₂
  mode : taskField s₂.k.mem c.task Context.Field.mode 4 =
    taskField t.pools.k.mem c.task Context.Field.mode 4
  userSp : taskField s₂.k.mem c.task Context.Field.userSp 8 =
    taskField t.pools.k.mem c.task Context.Field.userSp 8
  returns : Returns (fun fuel => killZombies fuel c.task t.pools)
    (c.chunks, taskField t.pools.k.mem c.task Context.Field.next 8, s₃)
  shows : ∃ pages, Shows others ⟨s₃, c.chunks.foldl Heap.free t.live⟩ pages

theorem Stored.ne_zero (stored : Stored t c) (shows : Shows others t pages) : c.task ≠ 0 := by
  obtain ⟨page, listed, -, i, -, addr⟩ := (shows.live _ _).mp stored.task
  have positive := Nat.pos_of_ne_zero (shows.ok.frame_ne_zero listed)
  rw [addr, Page.addr]
  omega

/-- A stored mode is read as `USER` exactly for a task with a user stack. -/
theorem modeCode_mode (c : Created) : modeCode c.mode = modeCode .user ↔ c.userStack.isSome := by
  rw [Created.mode]
  split_ifs with user
  · simp [user]
  · simp [user, modeCode]

/-- `kill_zombies` on a task in order. Bytes that `free` cannot store to are as before. -/
theorem Stored.reaped (stored : Stored t c) (shows : Shows others t pages)
    (once : c.chunks.Nodup) (quiet : Quiet pages F) (own : c.fields ⊆ F) :
    ∃ s₁ s₂ s₃, Reaped others t c s₁ s₂ s₃ ∧ ∀ x ∈ F, s₃.k.mem x = t.pools.k.mem x := by
  have nonzero := stored.ne_zero shows
  have live_task : (t.live c.task).isSome := stored.live _ List.mem_cons_self
  obtain ⟨apart_task, once⟩ := List.nodup_cons.mp once
  obtain ⟨apart_stack, -⟩ := List.nodup_cons.mp once
  obtain ⟨s₁, pages₁, first, shows₁, quiet₁, kept₁⟩ := free_quiet shows live_task quiet
  have live_stack : (t.live.free c.task c.kernelStack).isSome := by
    have differs : c.kernelStack ≠ c.task :=
      fun same => apart_task (List.mem_cons.mpr (.inl same.symm))
    rw [Heap.free_of_ne differs]
    exact stored.live _ (List.mem_cons_of_mem _ List.mem_cons_self)
  obtain ⟨s₂, pages₂, second, shows₂, quiet₂, kept₂⟩ := free_quiet shows₁ live_stack quiet₁
  have kept : ∀ x ∈ F, s₂.k.mem x = t.pools.k.mem x :=
    fun x inside => (kept₂ x inside).trans (kept₁ x inside)
  -- so what is read from the freed task is what was stored in it
  have spAddr : taskField s₁.k.mem c.task Context.Field.spAddr 8 =
      taskField t.pools.k.mem c.task Context.Field.spAddr 8 :=
    taskField_of_fields (by decide) (by decide) fun x inside => kept₁ x (own inside)
  have mode : taskField s₂.k.mem c.task Context.Field.mode 4 =
      taskField t.pools.k.mem c.task Context.Field.mode 4 :=
    taskField_of_fields (by decide) (by decide) fun x inside => kept x (own inside)
  have userSp : taskField s₂.k.mem c.task Context.Field.userSp 8 =
      taskField t.pools.k.mem c.task Context.Field.userSp 8 :=
    taskField_of_fields (by decide) (by decide) fun x inside => kept x (own inside)
  have stack : Returns
      (fun fuel => free fuel (taskField s₁.k.mem c.task Context.Field.spAddr 8) s₁) s₂ := by
    rw [spAddr, stored.spAddr]
    exact second
  cases user : c.userStack with
  | none =>
    have kernel : ¬ modeCode c.mode = modeCode .user := by
      rw [modeCode_mode, user]
      simp
    have returns := killZombies_kernel nonzero first stack (by rwa [mode, stored.mode])
    rw [spAddr, stored.spAddr] at returns
    have chunks : c.chunks = [c.task, c.kernelStack] := by
      rw [Created.chunks, user]
      rfl
    exact ⟨s₁, s₂, s₂, ⟨first, spAddr, second, mode, userSp, chunks ▸ returns, pages₂,
      chunks ▸ shows₂⟩, kept⟩
  | some userStack =>
    have chunks : c.chunks = [c.task, c.kernelStack, userStack] := by
      rw [Created.chunks, user]
      rfl
    have live_user : ((t.live.free c.task).free c.kernelStack userStack).isSome := by
      have apart_user : userStack ≠ c.kernelStack := by
        rintro rfl
        exact apart_stack (by simp [user])
      have apart_user' : userStack ≠ c.task := by
        rintro rfl
        exact apart_task (by simp [user])
      rw [Heap.free_of_ne apart_user, Heap.free_of_ne apart_user']
      exact stored.live _ (by simp [chunks])
    obtain ⟨s₃, pages₃, third, shows₃, -, kept₃⟩ := free_quiet shows₂ live_user quiet₂
    have is_user : modeCode c.mode = modeCode .user := by
      rw [modeCode_mode, user]
      rfl
    have third' : Returns
        (fun fuel => free fuel (taskField s₂.k.mem c.task Context.Field.userSp 8) s₂) s₃ := by
      rw [userSp, stored.userSp userStack user]
      exact third
    have returns := killZombies_user nonzero first stack (by rwa [mode, stored.mode]) third'
    rw [spAddr, stored.spAddr, userSp, stored.userSp userStack user] at returns
    refine ⟨s₁, s₂, s₃, ⟨first, spAddr, second, mode, userSp, chunks ▸ returns, pages₃,
      chunks ▸ shows₃⟩, fun x inside => ?_⟩
    exact (kept₃ x inside).trans (kept x inside)

/-! ## Runs -/

/-- The pool is in order, and the tasks are stored in chunks of their own. -/
structure HeapOk (others : Set Block) (s : TaskHeap) : Prop where
  shows : ∃ pages, Shows others s.chunks pages
  stored : ∀ c ∈ s.tasks, Stored s.chunks c
  once : ∀ c ∈ s.tasks, c.chunks.Nodup
  apart : s.tasks.Pairwise fun c c' => c.chunks.Disjoint c'.chunks

/-- A task is stored as before. -/
theorem Stored.congr {u : Chunks} (stored : Stored t c) (live : ∀ p ∈ c.chunks, u.live p = t.live p)
    (same : ∀ x ∈ c.fields, u.pools.k.mem x = t.pools.k.mem x) : Stored u c where
  task := (live _ List.mem_cons_self).trans stored.task
  live p hp := by
    rw [live p hp]
    exact stored.live p hp
  spAddr := (taskField_of_fields (by decide) (by decide) same).trans stored.spAddr
  mode := (taskField_of_fields (by decide) (by decide) same).trans stored.mode
  userSp p hp := (taskField_of_fields (by decide) (by decide) same).trans (stored.userSp p hp)

/-- The fields lie in the chunk of the task. -/
theorem fields_subset (c : Created) : c.fields ⊆ chunkAt c.task Created.taskClass := by
  rintro x ⟨low, high⟩
  refine task_chunk ((Nat.le_add_right _ _).trans low) (high.trans ?_)
  exact Nat.add_lt_add_left (by decide) _

theorem free_foldl {chunks : List ℕ} (live : Heap ℕ) (outside : p ∉ chunks) :
    chunks.foldl Heap.free live p = live p := by
  induction chunks generalizing live with
  | nil => rfl
  | cons q chunks ih =>
    obtain ⟨differs, outside⟩ := not_or.mp (List.mem_cons.not.mp outside)
    rw [List.foldl_cons, ih _ outside, Heap.free_of_ne differs]

namespace HeapOk

/-- A new task. -/
theorem create (ok : HeapOk others s)
    (run : taskCreate fuel switchToUserSpace func pid mode s.chunks.pools = .ok (c, pools)) :
    HeapOk others { s with chunks := ⟨pools, c.handOut s.chunks.live⟩, tasks := c :: s.tasks } := by
  obtain ⟨pages, shows⟩ := ok.shows
  obtain ⟨hands, stored⟩ := taskCreate_stored shows run
  refine ⟨hands.shows, fun c' listed => ?_, fun c' listed => ?_, ?_⟩
  · rcases List.mem_cons.mp listed with rfl | listed
    · exact stored
    · have before := ok.stored c' listed
      refine before.congr (fun p hp => ?_) fun x inside => ?_
      · obtain ⟨size, live⟩ := Option.isSome_iff_exists.mp (before.live p hp)
        rw [live]
        exact (hands.kept p size live).1
      · exact (hands.kept c'.task _ before.task).2 x (fields_subset c' inside)
  · rcases List.mem_cons.mp listed with rfl | listed
    · exact hands.once
    · exact ok.once c' listed
  · refine List.pairwise_cons.mpr ⟨fun c' listed p new old => ?_, ok.apart⟩
    have live := (ok.stored c' listed).live p old
    rw [hands.fresh p new] at live
    cases live

/-- Calls and stores of others. -/
theorem chunk {e : ChunkEvent} (ok : HeapOk others s) (step : ChunkStep others s.chunks e t)
    (respects : Respects s e t) : HeapOk others { s with chunks := t } := by
  obtain ⟨pages, shows⟩ := ok.shows
  refine ⟨step.shows shows, fun c listed => ?_, ok.once, ok.apart⟩
  have before := ok.stored c listed
  cases step with
  | @malloc size p cls pools hasClass returns =>
    obtain ⟨fuel, run⟩ := returns
    obtain ⟨pages', effect, -⟩ := shows.malloc hasClass run
    refine before.congr (fun q hq => Heap.alloc_of_ne ?_) fun x inside => ?_
    · rintro rfl
      obtain ⟨size, live⟩ := Option.isSome_iff_exists.mp (before.live q hq)
      exact effect.fresh size ((shows.live q size).mp live)
    · exact effect.kept _ _ ((shows.live _ _).mp before.task) x (fields_subset c inside)
  | @free p pools live returns =>
    obtain ⟨fuel, run⟩ := returns
    obtain ⟨page, here, i, slot, rfl, pages', effect, -⟩ := shows.free live run
    have differs : ∀ q ∈ c.chunks, q ≠ page.addr i :=
      fun q hq same => respects c listed (same ▸ hq)
    refine before.congr (fun q hq => Heap.free_of_ne (differs q hq)) fun x inside => ?_
    exact shows.kept_of_give here slot effect (differs _ List.mem_cons_self) before.task
      (fields_subset c inside)
  | store own => exact before.congr (fun _ _ => rfl) (respects c listed)

/-- A task is reaped as stored, and the fields of all tasks are as before. -/
theorem reaped (ok : HeapOk others s) (created : c ∈ s.tasks) :
    ∃ s₁ s₂ s₃, Reaped others s.chunks c s₁ s₂ s₃ ∧
      ∀ c' ∈ s.tasks, ∀ x ∈ c'.fields, s₃.k.mem x = s.chunks.pools.k.mem x := by
  obtain ⟨pages, shows⟩ := ok.shows
  have quiet : Quiet pages {x | ∃ c' ∈ s.tasks, x ∈ c'.fields} := by
    rintro x ⟨c', listed, inside⟩
    exact fields_quiet shows (ok.stored c' listed).task x inside
  obtain ⟨s₁, s₂, s₃, reaped, kept⟩ := (ok.stored c created).reaped shows (ok.once c created) quiet
    fun x inside => ⟨c, created, inside⟩
  exact ⟨s₁, s₂, s₃, reaped, fun c' listed x inside => kept x ⟨c', listed, inside⟩⟩

end HeapOk

instance : Std.Symm fun c c' : Created => c.chunks.Disjoint c'.chunks :=
  ⟨fun _ _ => List.Disjoint.symm⟩

/-- Every step keeps the tasks in order. -/
theorem HeapStep.ok (step : HeapStep others s e s') (ok : HeapOk others s) :
    HeapOk others s' := by
  cases step with
  | create returns =>
    obtain ⟨fuel, run⟩ := returns
    exact ok.create run
  | chunk step respects => exact ok.chunk step respects
  | exit zombie => exact ⟨ok.shows, ok.stored, ok.once, ok.apart⟩
  | @reap freed zombiesQueue pools zombie returns =>
    by_cases empty : s.zombiesQueue = 0
    · -- nothing is done on an empty queue
      obtain ⟨fuel, run⟩ := returns
      simp only [killZombies, if_pos empty, Except.ok.injEq, Prod.mk.injEq] at run
      obtain ⟨rfl, -, rfl⟩ := run
      refine ⟨ok.shows, fun c listed => ok.stored c (List.mem_of_mem_filter listed),
        fun c listed => ok.once c (List.mem_of_mem_filter listed), ok.apart.filter _⟩
    · obtain ⟨c, created, head⟩ := zombie empty
      obtain ⟨s₁, s₂, s₃, reaped, kept⟩ := ok.reaped created
      rw [← head] at returns
      have same := (killZombies_mono c.task _).returns_unique returns reaped.returns
      simp only [Prod.mk.injEq] at same
      obtain ⟨rfl, -, rfl⟩ := same
      refine ⟨reaped.shows, fun c' listed => ?_,
        fun c' listed => ok.once c' (List.mem_of_mem_filter listed), ok.apart.filter _⟩
      -- the tasks left have none of the chunks that were freed
      obtain ⟨listed', outside⟩ := List.mem_filter.mp listed
      have differs : c ≠ c' := by
        rintro rfl
        simp [Created.chunks] at outside
      have disjoint : c.chunks.Disjoint c'.chunks := ok.apart.forall created listed' differs
      refine (ok.stored c' listed').congr (fun p hp => ?_) (kept c' listed')
      exact free_foldl _ fun inside => disjoint inside hp

theorem Run.heapOk (run : Run (HeapStep others) s₀ w s) (boot : Booted others s₀.chunks)
    (none_created : s₀.tasks = []) : HeapOk others s := by
  refine run.preserves (HeapOk others) (fun _ _ _ ok step => step.ok ok) ?_
  exact ⟨⟨[], boot.shows⟩, by simp [none_created], by simp [none_created],
    by simp [none_created]⟩

/-- **`kill_zombies` reads freed memory as it was.** In every state that is reached, for every
task at the head of the zombies, `sp_addr`, `mode` and `user_sp` read after the calls of `free`
are those from before, and `kill_zombies` returns and frees the task, its kernel stack and the
user stack of a `USER` task, each once. -/
theorem Run.reaps_as_stored (boot : Booted others s₀.chunks) (none_created : s₀.tasks = [])
    (run : Run (HeapStep others) s₀ w s) (created : c ∈ s.tasks)
    (zombie : s.zombiesQueue = c.task) :
    Stored s.chunks c ∧ c.chunks.Nodup ∧ ∃ s₁ s₂ s₃, Reaped others s.chunks c s₁ s₂ s₃ ∧
      ∀ r, Returns (fun fuel => killZombies fuel s.zombiesQueue s.chunks.pools) r →
        r = (c.chunks, taskField s.chunks.pools.k.mem c.task Context.Field.next 8, s₃) := by
  have ok := Run.heapOk run boot none_created
  obtain ⟨s₁, s₂, s₃, reaped, -⟩ := ok.reaped created
  refine ⟨ok.stored c created, ok.once c created, s₁, s₂, s₃, reaped, fun r returns => ?_⟩
  rw [zombie] at returns
  exact (killZombies_mono c.task _).returns_unique returns reaped.returns

/-- `task_create` returns where there are free pages for a task and its stacks. -/
theorem taskCreate_returns (switchToUserSpace func pid : ℕ) (shows : Shows others t pages)
    (supply : Supplied 3 t.pools.k) :
    ∃ c pools, Returns (fun fuel => taskCreate fuel switchToUserSpace func pid .user t.pools)
      (c, pools) ∧ c.userStack.isSome := by
  obtain ⟨task, s₁, ⟨f₁, run₁⟩, supply₁⟩ := shows.malloc_supplied classOf_task (by decide) supply
  have live₁ : t.live.alloc task Created.taskClass task = some Created.taskClass := Heap.alloc_self
  have within₁ : Within task s₁.k.mem (initTask s₁.k.mem task pid .user) := initTask_within
  have hands₁ := ((HandsOut.refl shows).malloc classOf_task run₁).1.store List.mem_cons_self live₁
    within₁
  obtain ⟨pages₁, shows₁⟩ := hands₁.shows
  obtain ⟨userStack, s₂, ⟨f₂, run₂⟩, supply₂⟩ :=
    shows₁.malloc_supplied classOf_stack (by decide) supply₁
  obtain ⟨hands₂, keeps₂⟩ := hands₁.malloc classOf_stack run₂
  have live₂ := Heap.alloc_of_ne (keeps₂ task _ live₁).1 (v := Created.stackClass) |>.trans live₁
  have within₂ : Within task s₂.k.mem
      (initUser s₂.k.mem task userStack switchToUserSpace func) := initUser_within
  obtain ⟨pages₂, shows₂⟩ := (hands₂.store (by simp) live₂ within₂).shows
  obtain ⟨kernelStack, s₃, ⟨f₃, run₃⟩, -⟩ :=
    shows₂.malloc_supplied classOf_stack (by decide) supply₂
  -- one fuel for the three calls
  let enough := max (max f₁ f₂) f₃
  have first : malloc enough _ t.pools = .ok (task, s₁) :=
    (malloc_mono _ _).of_le (by omega) run₁
  have second : malloc enough _ (s₁.setMem _) = .ok (userStack, s₂) :=
    (malloc_mono _ _).of_le (by omega) run₂
  have third : malloc enough _ (s₂.setMem _) = .ok (kernelStack, s₃) :=
    (malloc_mono _ _).of_le (by omega) run₃
  let c : Created := ⟨task, kernelStack, some userStack⟩
  have run : taskCreate enough switchToUserSpace func pid .user t.pools =
      .ok (c, s₃.setMem (initStack s₃.k.mem task kernelStack)) :=
    outcome_bind_eq_ok.mpr ⟨_, first, outcome_bind_eq_ok.mpr ⟨_, second,
      outcome_bind_eq_ok.mpr ⟨_, third, rfl⟩⟩⟩
  exact ⟨c, _, ⟨enough, run⟩, rfl⟩

/-- `Run.reaps_as_stored` for a `USER` task that is created and exits. -/
theorem fourPages_reaped : ∃ s₀ s c s₁ s₂ s₃,
    Run (HeapStep {⟨0, 16⟩}) s₀ [.create c, .exit c.task] s ∧ c.userStack.isSome ∧
      Reaped {⟨0, 16⟩} s.chunks c s₁ s₂ s₃ := by
  obtain ⟨t, boot, heads, many, free⟩ := fourPages_booted
  have supply : Supplied 3 t.pools.k := ⟨heads, by omega, free⟩
  obtain ⟨c, pools, returns, user⟩ := taskCreate_returns 0 0 0 boot.shows supply
  let s₀ : TaskHeap := ⟨t, 0, []⟩
  have create : HeapStep {⟨0, 16⟩} s₀ (.create c) ⟨⟨pools, c.handOut t.live⟩, 0, [c]⟩ :=
    .create returns
  have exit : HeapStep {⟨0, 16⟩} ⟨⟨pools, c.handOut t.live⟩, 0, [c]⟩ (.exit c.task)
      ⟨⟨pools, c.handOut t.live⟩, c.task, [c]⟩ :=
    .exit fun _ => ⟨c, List.mem_cons_self, rfl⟩
  have run := (CS.Run.single create).snoc exit
  obtain ⟨-, -, s₁, s₂, s₃, reaped, -⟩ :=
    Run.reaps_as_stored (show Booted _ s₀.chunks from boot) rfl run List.mem_cons_self rfl
  exact ⟨s₀, _, c, s₁, s₂, s₃, run, user, reaped⟩

end BareMetal.Tasks.Reap
