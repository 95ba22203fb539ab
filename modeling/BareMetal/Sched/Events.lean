import BareMetal.Sched.Places

/-!
# Steps of the scheduler

The calls of tasks and of the shell as labelled steps. The tasks of the heap are
those created and not reaped.
-/

namespace BareMetal.Sched

open CS

variable {k k' : Kernel} {fuel : ℕ} {tasks : List ℕ}

/-- What happens in a step. -/
inductive Event
  | create (task : ℕ)
  | schedule
  | exit
  | kill (pid : ℤ)
  | reap (freed : List ℕ)
  | leaveShell
deriving DecidableEq, Repr

/-- One step. A task schedules or exits only while it runs. -/
inductive Step : Kernel → Event → Kernel → Prop
  | create {k k' : Kernel} {chunks : Chunks} {func : Code} {mode : Mode} {fuel x : ℕ}
      (fresh : k.heap chunks.task = none)
      (returns : taskCreate fuel chunks func mode k = .ok (x, k')) : Step k (.create x) k'
  | schedule {k k' : Kernel} {fuel : ℕ} (runs : k.inShell = false)
      (returns : schedule fuel k = .ok k') : Step k .schedule k'
  | exit {k k' : Kernel} {fuel : ℕ} (runs : k.inShell = false)
      (returns : syscExit fuel k = .ok k') : Step k .exit k'
  | kill {k k' : Kernel} {pid : ℤ} {fuel : ℕ} (returns : syscKill fuel pid k = .ok k') :
      Step k (.kill pid) k'
  | reap {k k' : Kernel} {freed : List ℕ} (returns : killZombies k = .ok (freed, k')) :
      Step k (.reap freed) k'
  | leaveShell {k k' : Kernel} {fuel timer tick wrote freq : ℕ} (inShell : k.inShell = true)
      (returns : idleThread fuel timer tick wrote freq k = .ok k') : Step k .leaveShell k'

/-- The tasks created and not reaped, after one more event. The first chunk freed is
the task. -/
def Event.alive : Event → List ℕ → List ℕ
  | .create task, tasks => task :: tasks
  | .reap freed, tasks => tasks.filter fun x => freed.head? ≠ some x
  | _, tasks => tasks

/-- The list holds the tasks of the heap. -/
def Alive (k : Kernel) (tasks : List ℕ) : Prop := ∀ x, (k.heap x).isSome ↔ x ∈ tasks

/-- The tasks created and not reaped in a run. -/
def alive (w : List Event) : List ℕ := w.foldl (fun tasks e => e.alive tasks) []

/-- Steps that neither allocate nor free keep the tasks. -/
theorem Alive.of_view {γ : Type*} {view : Task → γ} (alive : Alive k tasks)
    (same : ∀ x, (k'.heap x).map view = (k.heap x).map view) : Alive k' tasks := by
  intro x
  have isSome := congrArg Option.isSome (same x)
  rw [Option.isSome_map, Option.isSome_map] at isSome
  rw [isSome, alive x]

/-! ## What steps leave alone -/

section Views

variable {γ : Type*} {view : Task → γ}

theorem schedule_view (steady : Steady view) (returns : schedule fuel k = .ok k') (x : ℕ) :
    (k'.heap x).map view = (k.heap x).map view := by
  obtain ⟨⟨next, q⟩, -, returns⟩ := outcome_bind_eq_ok.mp returns
  obtain ⟨h, cleared, returns⟩ := outcome_bind_eq_ok.mp returns
  obtain ⟨cur, -, returns⟩ := outcome_bind_eq_ok.mp returns
  have clear := Heap.write_map cleared (steady.next _) x
  dsimp only at returns
  split_ifs at returns with idle exits
  · obtain ⟨⟨q', h'⟩, enqueued, last⟩ := outcome_bind_eq_ok.mp returns
    simp only [outcome_pure, Except.ok.injEq] at last
    subst last
    exact (enqueue_view steady enqueued x).trans clear
  all_goals
    obtain ⟨⟨q', h'⟩, enqueued, last⟩ := outcome_bind_eq_ok.mp returns
    obtain ⟨n, -, rfl⟩ := switchTo_returns last
    exact (enqueue_view steady enqueued x).trans clear

theorem killThread_view {pid : ℤ} (steady : Steady view)
    (returns : killThread fuel pid k = .ok k') (x : ℕ) :
    (k'.heap x).map view = (k.heap x).map view := by
  obtain ⟨result, -, returns⟩ := outcome_bind_eq_ok.mp returns
  rcases result with - | ⟨- | pre, cur, task⟩
  · simp only [outcome_pure, Except.ok.injEq] at returns
    rw [returns]
  · obtain ⟨⟨z, h⟩, enqueued, last⟩ := outcome_bind_eq_ok.mp returns
    simp only [outcome_pure, Except.ok.injEq] at last
    subst last
    exact enqueue_view steady enqueued x
  · obtain ⟨h, written, returns⟩ := outcome_bind_eq_ok.mp returns
    obtain ⟨⟨z, h'⟩, enqueued, last⟩ := outcome_bind_eq_ok.mp returns
    simp only [outcome_pure, Except.ok.injEq] at last
    subst last
    exact (enqueue_view steady enqueued x).trans (Heap.write_map written (steady.next _) x)

/-- What `sysc_exit` does: a pending signal kills its target first, and then the
task in `tpidr_el1` is marked. -/
theorem syscExit_view (steady : Steady view) (returns : syscExit fuel k = .ok k') (x : ℕ) :
    (k'.heap x).map view = (k.heap x).map view := by
  obtain ⟨k₁, ended, c, -, rfl⟩ := syscExit_returns returns
  have marked : (k₁.heap.modify c (Task.setState .exit) x).map view = (k₁.heap x).map view :=
    Heap.map_modify (steady.state _) x
  obtain ⟨-, rfl⟩ | ⟨-, killed⟩ := ended
  · exact marked
  · exact marked.trans (killThread_view steady killed x)

theorem removeTask_view {pid : ℕ} (steady : Steady view)
    (returns : removeTask fuel pid k = .ok k') (x : ℕ) :
    (k'.heap x).map view = (k.heap x).map view := by
  obtain ⟨result, -, returns⟩ := outcome_bind_eq_ok.mp returns
  rcases result with - | ⟨pre, cur, task⟩
  · simp only [outcome_pure, Except.ok.injEq] at returns
    rw [returns]
  · obtain ⟨h, unlinked, returns⟩ := outcome_bind_eq_ok.mp returns
    obtain ⟨h', cleared, last⟩ := outcome_bind_eq_ok.mp returns
    simp only [outcome_pure, Except.ok.injEq] at last
    subst last
    exact (Heap.write_map cleared (steady.next _) x).trans
      (Heap.write_map unlinked (steady.next _) x)

theorem addToQueue_view (steady : Steady view) (returns : addToQueue fuel k = .ok k') (x : ℕ) :
    (k'.heap x).map view = (k.heap x).map view := by
  cases waiting : k.tempQueue with
  | none =>
    simp only [addToQueue, waiting, Except.ok.injEq] at returns
    rw [returns]
  | some y =>
    simp only [addToQueue, waiting] at returns
    obtain ⟨cur, -, returns⟩ := outcome_bind_eq_ok.mp returns
    obtain ⟨h, linked, last⟩ := outcome_bind_eq_ok.mp returns
    simp only [outcome_pure, Except.ok.injEq] at last
    subst last
    exact Heap.write_map linked (steady.next _) x

theorem syscRegister_view {handler : Code} (steady : Steady view)
    (returns : syscRegister handler k = .ok k') (x : ℕ) :
    (k'.heap x).map view = (k.heap x).map view := by
  obtain ⟨h, written, last⟩ := outcome_bind_eq_ok.mp returns
  simp only [outcome_pure, Except.ok.injEq] at last
  subst last
  exact Heap.write_map written (steady.handler _) x

/-- `task_create` adds a task and leaves the others alone. -/
theorem taskCreate_view {chunks : Chunks} {func : Code} {mode : Mode} {x : ℕ} (steady : Steady view)
    (returns : taskCreate fuel chunks func mode k = .ok (x, k')) (y : ℕ) :
    (k'.heap y).map view =
      (k.heap.alloc chunks.task (newTask chunks func mode k.pid) y).map view := by
  obtain ⟨⟨q, h⟩, enqueued, last⟩ := outcome_bind_eq_ok.mp returns
  simp only [outcome_pure, Except.ok.injEq, Prod.mk.injEq] at last
  obtain ⟨-, rfl⟩ := last
  exact enqueue_view steady enqueued y

theorem idleThread_heap {timer tick wrote freq : ℕ}
    (returns : idleThread fuel timer tick wrote freq k = .ok k') : k'.heap = k.heap := by
  obtain ⟨⟨popTask, q⟩, -, returns⟩ := outcome_bind_eq_ok.mp returns
  obtain ⟨timers, -, last⟩ := outcome_bind_eq_ok.mp returns
  simp only [outcome_pure, Except.ok.injEq] at last
  rw [← last]

end Views

theorem taskCreate_task {chunks : Chunks} {func : Code} {mode : Mode} {x : ℕ}
    (returns : taskCreate fuel chunks func mode k = .ok (x, k')) : x = chunks.task := by
  obtain ⟨⟨q, h⟩, -, last⟩ := outcome_bind_eq_ok.mp returns
  simp only [outcome_pure, Except.ok.injEq, Prod.mk.injEq] at last
  exact last.1.symm

theorem taskCreate_alive {chunks : Chunks} {func : Code} {mode : Mode} {x : ℕ}
    (returns : taskCreate fuel chunks func mode k = .ok (x, k')) (alive : Alive k tasks) :
    Alive k' (x :: tasks) := by
  intro y
  have isSome := congrArg Option.isSome (taskCreate_view steady_pid returns y)
  rw [Option.isSome_map, Option.isSome_map] at isSome
  rw [isSome, Heap.isSome_alloc, alive y, List.mem_cons, taskCreate_task returns]

theorem killZombies_alive {freed : List ℕ} (returns : killZombies k = .ok (freed, k'))
    (alive : Alive k tasks) : Alive k' (Event.alive (.reap freed) tasks) := by
  obtain ⟨⟨cur, z⟩, -, returns⟩ := outcome_bind_eq_ok.mp returns
  cases cur with
  | none =>
    simp only [outcome_pure, Except.ok.injEq, Prod.mk.injEq] at returns
    obtain ⟨rfl, rfl⟩ := returns
    have all : Event.alive (.reap []) tasks = tasks := by simp [Event.alive]
    rw [all]
    exact alive
  | some c =>
    obtain ⟨task, -, last⟩ := outcome_bind_eq_ok.mp returns
    simp only [outcome_pure, Except.ok.injEq, Prod.mk.injEq] at last
    obtain ⟨rfl, rfl⟩ := last
    have first : (if task.mode = .user then [c, task.spAddr, task.userSp]
        else [c, task.spAddr]).head? = some c := by split_ifs <;> rfl
    intro x
    change (k.heap.free c x).isSome ↔ _
    rw [Event.alive, first]
    by_cases same : x = c
    · simp [same]
    · simp [Heap.free_of_ne same, alive x, Ne.symm same]

/-- Every step keeps the list of tasks up to date. -/
theorem Step.alive {e : Event} (step : Step k e k') (alive : Alive k tasks) :
    Alive k' (e.alive tasks) := by
  cases step with
  | create fresh returns => exact taskCreate_alive returns alive
  | schedule runs returns => exact alive.of_view (schedule_view steady_pid returns)
  | exit runs returns => exact alive.of_view (syscExit_view steady_pid returns)
  | kill returns => exact alive.of_view (killThread_view steady_pid returns)
  | reap returns => exact killZombies_alive returns alive
  | leaveShell inShell returns =>
    intro x
    rw [idleThread_heap returns, alive x]
    rfl

/-! ## Boot -/

/-- At boot no task exists and the shell runs. -/
structure Boot (k : Kernel) : Prop where
  heap : k.heap = fun _ => none
  runQueue : k.runQueue = none
  zombiesQueue : k.zombiesQueue = none
  tempQueue : k.tempQueue = none
  pid : k.pid = 1
  inShell : k.inShell = true
  signalExit : k.signalExit = 0

theorem Boot.placed (boot : Boot k) : Placed k [] [] [] where
  runQueue := by
    rw [boot.runQueue]
    exact .nil
  zombiesQueue := by
    rw [boot.zombiesQueue]
    exact .nil
  tempQueue := by
    rw [boot.tempQueue]
    exact .nil
  once := by simp [places, running, boot.inShell]
  everywhere x := by simp [places, running, boot.inShell, boot.heap]

/-- The state at boot. -/
def bootKernel : Kernel where
  heap := fun _ => none
  runQueue := none
  zombiesQueue := none
  tempQueue := none
  pid := 1
  current := none
  inShell := true
  handler := .null
  signalExit := 0
  signalPid := 0
  timers := ⟨fun _ => none, none, false, 0⟩

/-- The chunks of one `task_create`. -/
def chunksAt (task : ℕ) : Chunks where
  task := task
  old := ⟨0, .null, 0, .null, 0, 0, 0, .kernel, .null, .exit, none⟩
  userStack := task + 0x1000
  kernelStack := task + 0x2000

theorem bootKernel_boot : Boot bootKernel := ⟨rfl, rfl, rfl, rfl, rfl, rfl, rfl⟩

end BareMetal.Sched
