import BareMetal.CS.Transition
import BareMetal.Sched.Events

/-!
# Tasks under signals

`sysc_signal_kill` takes the target out of `run_queue` into `temp_queue`, which has
room for one task, and creates a task for the handler; `add_to_queue`, at the end of
the handler, puts the target back.

The call returns exactly for the pids of tasks behind the head of `run_queue`: for
others it dereferences a null pointer. When it returns, no task is lost exactly
if `temp_queue` was null.

## Main results

* `Run.no_task_lost` — the runs that lose no task are those whose signals find
  `temp_queue` null
-/

namespace BareMetal.Sched

open CS

variable {k k' : Kernel} {run zombies temp : List ℕ} {fuel pid : ℕ}

/-- Every task is in one place: running, in `run_queue`, `zombies_queue` or `temp_queue`. -/
def NoneLost (k : Kernel) : Prop := ∃ run zombies temp, Placed k run zombies temp

/-- A task behind the head of `run_queue` has the pid, and the head has not. -/
def Behind (k : Kernel) (pid : ℕ) : Prop :=
  ∃ n rest, Queue k.heap k.runQueue (n :: rest) ∧ pidAt k.heap n ≠ some pid ∧
    ∃ x ∈ rest, pidAt k.heap x = some pid

/-! ## `sysc_signal_kill` -/

/-- What `sysc_signal_kill` does when it returns: the target leaves `run_queue`, where
it was not the head, and is all that `temp_queue` holds; the task of the handler is
the last of `run_queue`. -/
structure SignalEffect (pid : ℕ) (k k' : Kernel) (run zombies : List ℕ)
    (before after : List ℕ) (x new : ℕ) : Prop where
  behind : before ≠ []
  split : run = before ++ x :: after
  has : pidAt k.heap x = some pid
  first : ∀ y ∈ before, pidAt k.heap y ≠ some pid
  running : running k' = running k
  runQueue : Queue k'.heap k'.runQueue (before ++ after ++ [new])
  zombiesQueue : Queue k'.heap k'.zombiesQueue zombies
  tempQueue : Queue k'.heap k'.tempQueue [x]
  allocated : ∀ y, (k'.heap y).isSome ↔ y = new ∨ (k.heap y).isSome

theorem findTask_returns {r : Option ℕ} (queue : Queue k.heap k.runQueue run)
    (returns : findTask fuel pid k = .ok r) :
    r = none ∧ (∀ x ∈ run, pidAt k.heap x ≠ some pid) ∨
      ∃ x ∈ run, r = some x ∧ pidAt k.heap x = some pid := by
  obtain ⟨result, found, returns⟩ := outcome_bind_eq_ok.mp returns
  cases search_returns queue found with
  | absent none_has =>
    simp only [outcome_pure, Except.ok.injEq] at returns
    exact .inl ⟨returns.symm, none_has⟩
  | @found before after x task split here pid_eq first =>
    simp only [outcome_pure, Except.ok.injEq] at returns
    exact .inr ⟨x, by simp [split], returns.symm, by rw [pidAt_eq here, pid_eq]⟩

theorem syscSignalKill_returns {chunks : Chunks} {pid : ℤ} (held : Held k run zombies temp)
    (fresh : k.heap chunks.task = none)
    (returns : syscSignalKill fuel chunks pid k = .ok k') :
    ∃ before after x, SignalEffect (toU64 pid) k k' run zombies before after x chunks.task := by
  obtain ⟨target, found, returns⟩ := outcome_bind_eq_ok.mp returns
  obtain ⟨task, read, returns⟩ := outcome_bind_eq_ok.mp returns
  obtain ⟨k₁, removed, returns⟩ := outcome_bind_eq_ok.mp returns
  obtain ⟨⟨new, k₂⟩, created, returns⟩ := outcome_bind_eq_ok.mp returns
  obtain ⟨h, written, last⟩ := outcome_bind_eq_ok.mp returns
  simp only [outcome_pure, Except.ok.injEq] at last
  subst last
  obtain ⟨y, rfl, -⟩ := Heap.get_eq_ok.mp read
  -- a null pointer would have been read if no task had the pid
  have listed : ∃ x ∈ run, pidAt k.heap x = some (toU64 pid) := by
    obtain ⟨none_found, -⟩ | ⟨x, inside, -, has⟩ := findTask_returns held.runQueue found
    · simp at none_found
    · exact ⟨x, inside, has⟩
  have held' : Held { k with
      handler := task.handler, signalPid := toU64 pid, signalExit := 1 } run zombies temp :=
    ⟨held.runQueue, held.zombiesQueue, held.tempQueue, held.once, held.present⟩
  cases held'.removeTask_returns removed with
  | none absent same =>
    obtain ⟨x, inside, has⟩ := listed
    exact absurd has (absent x inside)
  | @moved before after x h₁ behind split has first state links runQueue zombiesQueue tempQueue =>
    -- the task is suspended now; the handler task is a new one
    have allocated : ∀ y, (k₁.heap y).isSome = (k.heap y).isSome := by
      rw [state]
      exact links.isSome
    have fresh₁ : k₁.heap chunks.task = none := by
      rw [← Option.not_isSome_iff_eq_none, allocated, fresh]
      simp
    have here : (k.heap x).isSome := held.runQueue.allocated x (by simp [split])
    have not_rest := held.not_rest split
    have runs : Queue k₁.heap k₁.runQueue (before ++ after) := by
      rw [state]
      exact runQueue
    obtain ⟨rfl, effect⟩ := taskCreate_returns runs fresh₁ created
    obtain ⟨_, same, -, rfl⟩ := Heap.write_eq_ok.mp written
    obtain rfl := Option.some.inj same
    refine ⟨before, after, x, behind, split, has, first, ?_, ?_, ?_, ?_, fun y => ?_⟩
    · exact effect.running.trans (by rw [state]; rfl)
    · exact effect.runQueue.modify fun _ => rfl
    · have zombies₁ : Queue k₁.heap k₁.zombiesQueue zombies := by
        rw [state]
        exact zombiesQueue
      have moved := effect.others zombies₁ fun y hy inside =>
        (held.zombies_apart hy).1 (by rw [split]; simp at inside ⊢; tauto)
      rw [← effect.zombiesQueue] at moved
      exact moved.modify fun _ => rfl
    · have temp₁ : Queue k₁.heap k₁.tempQueue [x] := by
        rw [state]
        exact tempQueue
      have moved := effect.others temp₁ fun y hy => by
        rwa [List.mem_singleton.mp hy]
      rw [← effect.tempQueue] at moved
      exact moved.modify fun _ => rfl
    · rw [Heap.isSome_modify, effect.allocated, allocated]

namespace SignalEffect

variable {before after : List ℕ} {x new : ℕ}

/-- No task is in two places after. -/
theorem held (effect : SignalEffect pid k k' run zombies before after x new)
    (before_call : Held k run zombies temp) (fresh : k.heap new = none) :
    Held k' (before ++ after ++ [new]) zombies [x] := by
  have moved : (places k' (before ++ after ++ [new]) zombies [x]).Perm
      (new :: places k run zombies []) := by
    refine List.perm_iff_count.mpr fun a => ?_
    simp only [places, effect.running, effect.split, List.count_append, List.count_cons,
      List.count_nil]
    omega
  have fewer : (places k run zombies []).Sublist (places k run zombies temp) := by
    rw [places, places, List.append_nil]
    refine (List.Sublist.refl _).append ((List.Sublist.refl _).append ?_)
    exact List.sublist_append_left zombies temp
  refine ⟨effect.runQueue, effect.zombiesQueue, effect.tempQueue, ?_, fun y runs => ?_⟩
  · refine moved.nodup_iff.mpr (List.nodup_cons.mpr
      ⟨fun inside => ?_, before_call.once.sublist fewer⟩)
    have here := before_call.allocated (fewer.subset inside)
    simp [fresh] at here
  · rw [effect.allocated]
    rw [effect.running] at runs
    exact .inr (before_call.present y runs)

/-- With `temp_queue` empty before, every task has its place after. -/
theorem placed (effect : SignalEffect pid k k' run zombies before after x new)
    (before_call : Placed k run zombies []) (fresh : k.heap new = none) :
    Placed k' (before ++ after ++ [new]) zombies [x] := by
  refine (effect.held before_call.held fresh).placed fun y => ?_
  rw [effect.allocated, before_call.everywhere]
  simp only [places, effect.running, effect.split, List.mem_append, List.mem_cons]
  tauto

/-- A task that was in `temp_queue` before is in no place after. -/
theorem lost {y : ℕ} (effect : SignalEffect pid k k' run zombies before after x new)
    (placed : Placed k run zombies temp) (fresh : k.heap new = none) (held : y ∈ temp) :
    ¬ NoneLost k' := by
  rintro ⟨run', zombies', temp', placed'⟩
  have here : (k.heap y).isSome := placed.tempQueue.allocated y held
  obtain rfl := placed'.runQueue.linked.unique effect.runQueue.linked
  obtain rfl := placed'.zombiesQueue.linked.unique effect.zombiesQueue.linked
  obtain rfl := placed'.tempQueue.linked.unique effect.tempQueue.linked
  have not_run : y ∉ run := fun inside => (placed.run_apart inside).2 held
  have not_zombie : y ∉ zombies' := fun inside => (placed.zombies_apart inside).2 held
  have not_running : Sched.running k ≠ some y := fun runs => (placed.running_apart runs).2.2 held
  have not_new : y ≠ new := by
    rintro rfl
    simp [fresh] at here
  -- the task is still allocated, but all places hold other tasks
  have inside := (placed'.everywhere y).mp ((effect.allocated y).mpr (.inr here))
  simp only [effect.split, List.mem_append, List.mem_cons, not_or] at not_run
  simp only [places, effect.running, List.mem_append, Option.mem_toList, List.mem_singleton]
    at inside
  tauto

/-- The call loses no task exactly if `temp_queue` was null. -/
theorem none_lost_iff (effect : SignalEffect pid k k' run zombies before after x new)
    (placed : Placed k run zombies temp) (fresh : k.heap new = none) :
    NoneLost k' ↔ k.tempQueue = none := by
  constructor
  · intro conserved
    cases temp with
    | nil => exact placed.tempQueue.linked
    | cons y ys => exact absurd conserved (effect.lost placed fresh List.mem_cons_self)
  · intro empty
    have tempQueue := placed.tempQueue
    rw [empty] at tempQueue
    obtain rfl := tempQueue.eq_nil
    exact ⟨_, _, _, effect.placed placed fresh⟩

/-- The target was behind the head of `run_queue`. -/
theorem target_behind (effect : SignalEffect pid k k' run zombies before after x new)
    (placed : Placed k run zombies temp) : Behind k pid := by
  obtain ⟨n, ys, rfl⟩ := List.exists_cons_of_ne_nil effect.behind
  have queue := placed.runQueue
  rw [effect.split] at queue
  exact ⟨n, ys ++ x :: after, queue, effect.first n List.mem_cons_self, x, by simp, effect.has⟩

end SignalEffect

/-! ## When `sysc_signal_kill` returns -/

/-- The search for the pid of a task behind the head finds such a task. -/
theorem Behind.search (behind : Behind k pid) (queue : Queue k.heap k.runQueue run)
    (enough : run.length < fuel) :
    ∃ pre x task, search k.heap pid fuel none k.runQueue = .ok (some (some pre, x, task)) ∧
      pre ∈ run ∧ x ∈ run := by
  obtain ⟨n, rest, queue', other, y, inside, has⟩ := behind
  obtain rfl := queue'.linked.unique queue.linked
  obtain ⟨result, found⟩ := search_total queue enough
  cases search_returns queue found with
  | absent none_has => exact absurd has (none_has y (List.mem_cons_of_mem n inside))
  | @found before after x task split here pid_eq first =>
    cases front : before.getLast? with
    | none =>
      -- the head has another pid
      obtain rfl : before = [] := List.getLast?_eq_none_iff.mp front
      obtain ⟨rfl, -⟩ := List.cons.inj split
      exact absurd (by rw [pidAt_eq here, pid_eq]) other
    | some pre =>
      rw [front] at found
      refine ⟨pre, x, task, found, ?_, by simp [split]⟩
      rw [split]
      exact List.mem_append_left _ (List.mem_of_getLast? front)

theorem removeTask_total (queue : Queue k.heap k.runQueue run) (behind : Behind k pid)
    (enough : run.length < fuel) : ∃ k', removeTask fuel pid k = .ok k' := by
  obtain ⟨pre, x, task, found, pre_inside, inside⟩ := behind.search queue enough
  rw [removeTask, found, outcome_bind_ok]
  dsimp only
  have there : (k.heap.modify pre (Task.setNext task.next) x).isSome := by
    rw [Heap.isSome_modify]
    exact queue.allocated x inside
  rw [Heap.write_some (queue.allocated pre pre_inside), outcome_bind_ok, Heap.write_some there]
  exact ⟨_, rfl⟩

theorem taskCreate_total {chunks : Chunks} (func : Code) (mode : Mode)
    (queue : Queue k.heap k.runQueue run) (fresh : k.heap chunks.task = none)
    (enough : run.length < fuel) :
    ∃ k', taskCreate fuel chunks func mode k = .ok (chunks.task, k') := by
  obtain ⟨outside, queue'⟩ := queue.alloc fresh (newTask chunks func mode k.pid)
  have here : (k.heap.alloc chunks.task (newTask chunks func mode k.pid) chunks.task).isSome := by
    rw [Heap.alloc_self]
    rfl
  obtain ⟨q, h, enqueued⟩ := enqueue_total queue' outside here enough
  rw [taskCreate, enqueued]
  exact ⟨_, rfl⟩

/-- `sysc_signal_kill` returns for the pid of a task behind the head of `run_queue`. -/
theorem syscSignalKill_total {chunks : Chunks} {pid : ℤ} (held : Held k run zombies temp)
    (fresh : k.heap chunks.task = none) (behind : Behind k (toU64 pid)) :
    ∃ fuel k', syscSignalKill fuel chunks pid k = .ok k' := by
  have enough : run.length < run.length + 1 := Nat.lt_succ_self _
  obtain ⟨pre, x, task, found, -, inside⟩ := behind.search held.runQueue enough
  obtain ⟨target, here⟩ := Option.isSome_iff_exists.mp (held.runQueue.allocated x inside)
  let signalled : Kernel :=
    { k with handler := target.handler, signalPid := toU64 pid, signalExit := 1 }
  have held' : Held signalled run zombies temp :=
    ⟨held.runQueue, held.zombiesQueue, held.tempQueue, held.once, held.present⟩
  obtain ⟨k₁, removed⟩ := removeTask_total (k := signalled) held'.runQueue behind enough
  have finds : findTask (run.length + 1) (toU64 pid) k = .ok (some x) := by
    rw [findTask, found]
    rfl
  -- `remove_task` leaves a queue that is no longer, so that the same bound is enough
  obtain ⟨xs, shorter, runs, fresh₁⟩ : ∃ xs : List ℕ, xs.length < run.length + 1 ∧
      Queue k₁.heap k₁.runQueue xs ∧ k₁.heap chunks.task = none := by
    cases held'.removeTask_returns removed with
    | none absent same =>
      subst same
      exact ⟨run, enough, held'.runQueue, fresh⟩
    | @moved before after y h _ split _ _ state links runQueue =>
      subst state
      refine ⟨before ++ after, ?_, runQueue, ?_⟩
      · rw [split]
        simp only [List.length_append, List.length_cons]
        omega
      · rw [← Option.not_isSome_iff_eq_none, links.isSome]
        simp [signalled, fresh]
  obtain ⟨k₂, created⟩ : ∃ k₂, taskCreate (run.length + 1) chunks .null .user k₁ =
      .ok (chunks.task, k₂) := taskCreate_total _ _ runs fresh₁ shorter
  have new : (k₂.heap chunks.task).isSome := by
    obtain ⟨-, effect⟩ := taskCreate_returns runs fresh₁ created
    exact (effect.allocated _).mpr (.inl rfl)
  refine ⟨run.length + 1, ?_⟩
  rw [syscSignalKill, finds, outcome_bind_ok, Heap.get_some here, outcome_bind_ok]
  change ∃ k', (removeTask _ _ signalled >>= _) = .ok k'
  rw [removed, outcome_bind_ok, created, outcome_bind_ok]
  dsimp only
  rw [Heap.write_some new]
  exact ⟨_, rfl⟩

/-- `sysc_signal_kill` returns exactly for the pids of tasks behind the head. -/
theorem syscSignalKill_returns_iff {chunks : Chunks} {pid : ℤ}
    (placed : Placed k run zombies temp) (fresh : k.heap chunks.task = none) :
    (∃ fuel k', syscSignalKill fuel chunks pid k = .ok k') ↔ Behind k (toU64 pid) := by
  constructor
  · rintro ⟨fuel, k', returns⟩
    obtain ⟨before, after, x, effect⟩ := syscSignalKill_returns placed.held fresh returns
    exact effect.target_behind placed
  · exact syscSignalKill_total placed.held fresh

/-! ## Runs with signals -/

/-- What happens in a step of a system with signals. -/
inductive SysEvent
  | task (e : Event)
  | signalKill (pid : ℤ) (handlerTask : ℕ)
  | addToQueue
  | clearSignalExit
  | register (handler : Code)
deriving DecidableEq, Repr

/-- One step. `signal_handler_wrapper` takes its steps one by one: `add_to_queue` or
`sysc_kill`, then `signal_exit = 0`, then `sysc_exit`. A signal to the head of `run_queue` stores
through a null pointer in `remove_task`, and a run ends there. -/
inductive SysStep : Kernel → SysEvent → Kernel → Prop
  | task {k k' : Kernel} {e : Event} (step : Step k e k') : SysStep k (.task e) k'
  | signalKill {k k' : Kernel} {chunks : Chunks} {pid : ℤ} {fuel : ℕ}
      (fresh : k.heap chunks.task = none)
      (returns : syscSignalKill fuel chunks pid k = .ok k') :
      SysStep k (.signalKill pid chunks.task) k'
  | addToQueue {k k' : Kernel} {fuel : ℕ} (returns : addToQueue fuel k = .ok k') :
      SysStep k .addToQueue k'
  | clearSignalExit {k : Kernel} : SysStep k .clearSignalExit (clearSignalExit k)
  | register {k k' : Kernel} {handler : Code} (returns : syscRegister handler k = .ok k') :
      SysStep k (.register handler) k'

/-- A signal finds `temp_queue` null and its target behind the head of `run_queue`. -/
def Safe (k : Kernel) : SysEvent → Prop
  | .signalKill pid _ => k.tempQueue = none ∧ Behind k (toU64 pid)
  | _ => True

/-- Without `sysc_signal_kill`, tasks only move from one place to another. -/
theorem Step.none_lost {e : Event} (step : Step k e k') (inv : NoneLost k) : NoneLost k' := by
  obtain ⟨run, zombies, temp, placed⟩ := inv
  cases step with
  | create fresh returns =>
    obtain ⟨rfl, effect⟩ := taskCreate_returns placed.runQueue fresh returns
    exact ⟨_, _, _, effect.placed fresh placed⟩
  | schedule runs returns =>
    cases (placed.schedule_returns runs returns).1 with
    | shell _ _ _ placed' => exact ⟨_, _, _, placed'⟩
    | switch _ _ _ _ _ placed' =>
      rcases placed' with placed' | placed'
      · exact ⟨_, _, _, placed'⟩
      · exact ⟨_, _, _, placed'⟩
  | exit runs returns =>
    obtain ⟨k₁, ended, c, -, rfl⟩ := syscExit_returns returns
    obtain ⟨-, rfl⟩ | ⟨-, killed⟩ := ended
    · exact ⟨_, _, _, placed.modify fun _ => rfl⟩
    · -- the pending signal kills its target first
      have placed' : Placed { k with signalExit := 0 } run zombies temp :=
        ⟨placed.runQueue, placed.zombiesQueue, placed.tempQueue, placed.once, placed.everywhere⟩
      cases placed'.killThread_returns killed with
      | none _ same =>
        subst same
        exact ⟨_, _, _, placed'.modify fun _ => rfl⟩
      | moved _ _ _ _ placed₁ => exact ⟨_, _, _, placed₁.modify fun _ => rfl⟩
  | kill returns =>
    cases placed.killThread_returns returns with
    | none _ same =>
      subst same
      exact ⟨_, _, _, placed⟩
    | moved _ _ _ _ placed' => exact ⟨_, _, _, placed'⟩
  | reap returns =>
    cases placed.killZombies_returns returns with
    | idle _ _ placed' => exact ⟨_, _, _, placed'⟩
    | reaped _ _ placed' => exact ⟨_, _, _, placed'⟩
  | leaveShell inShell returns => exact ⟨_, _, _, (placed.idleThread_returns inShell returns).1⟩

/-- A step from a state in which no task is lost loses none exactly if it is safe. -/
theorem SysStep.none_lost_iff {e : SysEvent} (inv : NoneLost k) (step : SysStep k e k') :
    NoneLost k' ↔ Safe k e := by
  cases step with
  | task step => exact iff_of_true (step.none_lost inv) trivial
  | signalKill fresh returns =>
    obtain ⟨run, zombies, temp, placed⟩ := inv
    obtain ⟨before, after, x, effect⟩ := syscSignalKill_returns placed.held fresh returns
    rw [effect.none_lost_iff placed fresh, Safe]
    exact (and_iff_left (effect.target_behind placed)).symm
  | addToQueue returns =>
    obtain ⟨run, zombies, temp, placed⟩ := inv
    exact iff_of_true ⟨_, _, _, (placed.addToQueue_returns returns).1⟩ trivial
  | clearSignalExit =>
    obtain ⟨run, zombies, temp, placed⟩ := inv
    exact iff_of_true ⟨run, zombies, temp, placed.runQueue, placed.zombiesQueue,
      placed.tempQueue, placed.once, placed.everywhere⟩ trivial
  | register returns =>
    obtain ⟨run, zombies, temp, placed⟩ := inv
    obtain ⟨h, written, last⟩ := outcome_bind_eq_ok.mp returns
    simp only [outcome_pure, Except.ok.injEq] at last
    obtain ⟨c, -, -, rfl⟩ := Heap.write_eq_ok.mp written
    subst last
    exact iff_of_true ⟨_, _, _, placed.modify fun _ => rfl⟩ trivial

/-- Safe runs lose no task. -/
theorem Run.none_lost {w : List SysEvent} (steps : Run (Guarded SysStep Safe) k w k')
    (start : NoneLost k) : NoneLost k' := by
  refine steps.preserves NoneLost (fun s e t inv step => ?_) start
  exact (step.2.none_lost_iff inv).mpr step.1

/-- With `temp_queue` null every step is safe. -/
theorem Run.snoc_safe {k₀ : Kernel} {w : List SysEvent} {e : SysEvent} (start : NoneLost k₀)
    (steps : Run (Guarded SysStep Safe) k₀ w k) (step : SysStep k e k')
    (empty : k.tempQueue = none) : Run (Guarded SysStep Safe) k₀ (w ++ [e]) k' := by
  refine steps.snoc ⟨?_, step⟩
  obtain ⟨run, zombies, temp, placed⟩ := Run.none_lost steps start
  cases step with
  | signalKill fresh returns =>
    obtain ⟨before, after, x, effect⟩ := syscSignalKill_returns placed.held fresh returns
    exact ⟨empty, effect.target_behind placed⟩
  | _ => trivial

/-! ## No task is lost -/

/-- The tasks created and not reaped, after one more event. -/
def SysEvent.alive : SysEvent → List ℕ → List ℕ
  | .task e, tasks => e.alive tasks
  | .signalKill _ handlerTask, tasks => handlerTask :: tasks
  | _, tasks => tasks

theorem SysStep.alive {e : SysEvent} {tasks : List ℕ} (step : SysStep k e k')
    (alive : Alive k tasks) : Alive k' (e.alive tasks) := by
  cases step with
  | task step => exact step.alive alive
  | signalKill fresh returns =>
    obtain ⟨target, -, returns⟩ := outcome_bind_eq_ok.mp returns
    obtain ⟨task, -, returns⟩ := outcome_bind_eq_ok.mp returns
    obtain ⟨k₁, removed, returns⟩ := outcome_bind_eq_ok.mp returns
    obtain ⟨⟨new, k₂⟩, created, returns⟩ := outcome_bind_eq_ok.mp returns
    obtain ⟨h, written, last⟩ := outcome_bind_eq_ok.mp returns
    simp only [outcome_pure, Except.ok.injEq] at last
    have removed' : Alive k₁ tasks := by
      apply Alive.of_view _ (removeTask_view steady_pid removed)
      exact alive
    have created' := taskCreate_alive created removed'
    obtain rfl : new = _ := taskCreate_task created
    subst last
    have same : ∀ x, (h x).map Task.pid = (k₂.heap x).map Task.pid :=
      Heap.write_map written fun _ => rfl
    exact created'.of_view same
  | addToQueue returns => exact alive.of_view (addToQueue_view steady_pid returns)
  | clearSignalExit => exact alive
  | register returns =>
    exact alive.of_view (syscRegister_view steady_pid returns)

/-- The tasks created and not reaped in a run with signals. -/
def sysAlive (w : List SysEvent) : List ℕ := w.foldl (fun tasks e => e.alive tasks) []

theorem Run.alive {w : List SysEvent} (boot : Boot k) (steps : Run SysStep k w k') :
    Alive k' (sysAlive w) := by
  induction steps with
  | refl => exact fun x => by simp [sysAlive, boot.heap]
  | snoc steps last ih =>
    rw [sysAlive, List.foldl_append]
    exact last.alive ih

theorem Boot.none_lost (boot : Boot k) : NoneLost k := ⟨[], [], [], boot.placed⟩

/-- **No task is lost** in the runs whose signals find `temp_queue` null and their target
behind the head of `run_queue`, and in these only; every task created and not reaped is
then in exactly one place. Other signals lose a task or do not return: in a state that
has lost none, `sysc_signal_kill` returns exactly for pids behind the head. -/
theorem Run.no_task_lost {w : List SysEvent} (boot : Boot k) :
    (Run (Guarded SysStep Safe) k w k' ↔
      Run (fun s e t => SysStep s e t ∧ NoneLost t) k w k') ∧
    (Run (Guarded SysStep Safe) k w k' →
      (∃ run zombies temp, Placed k' run zombies temp ∧
        ∀ x, x ∈ sysAlive w ↔ x ∈ places k' run zombies temp) ∧
      ∀ chunks : Chunks, k'.heap chunks.task = none → ∀ pid : ℤ,
        (∃ fuel t, syscSignalKill fuel chunks pid k' = .ok t) ↔ Behind k' (toU64 pid)) := by
  refine ⟨Run.guarded_iff boot.none_lost fun s e t inv step => step.none_lost_iff inv,
    fun steps => ?_⟩
  have conserved := Run.none_lost steps boot.none_lost
  have alive : Alive k' (sysAlive w) := Run.alive boot (steps.mono fun _ _ _ step => step.2)
  obtain ⟨run, zombies, temp, placed⟩ := conserved
  refine ⟨⟨run, zombies, temp, placed, fun x => ?_⟩, fun chunks fresh pid => ?_⟩
  · rw [← alive x, placed.everywhere]
  · exact syscSignalKill_returns_iff placed fresh

/-! ## Two overlapping signals -/

/-- Task 2 runs and signals task 4 while tasks 3, 5 and 1 wait. -/
def firstSignal : List SysEvent :=
  [.task (.create 0x10000), .task .leaveShell, .task (.create 0x20000), .task (.create 0x30000),
    .task (.create 0x40000), .task (.create 0x50000), .task .schedule, .signalKill 4 0x60000]

theorem firstSignal_run : ∃ k, Run (Guarded SysStep Safe) bootKernel firstSignal k ∧
    (k.heap 0x70000 = none ∧ k.tempQueue = some 0x40000 ∧
      ∃ k', syscSignalKill 9 (chunksAt 0x70000) 5 k = .ok k') ∧
    running k = some 0x20000 ∧ Queue k.heap k.runQueue [0x30000, 0x50000, 0x10000, 0x60000] ∧
    [0x30000, 0x50000, 0x10000, 0x60000].map (pidAt k.heap) = [some 3, some 5, some 1, some 6] ∧
    [0x40000, 0x50000].map (fun x => (k.heap x).map Task.state) = [some .running, some .running] ∧
    (∃ k', syscKill 9 4 k = .ok k') ∧ ∃ k', syscKill 9 5 k = .ok k' := by
  have start := bootKernel_boot.none_lost
  have r₀ : Run (Guarded SysStep Safe) bootKernel [] bootKernel := .refl _
  have r₁ := Run.snoc_safe start r₀ (.task (.create (by rfl) (show taskCreate 9 (chunksAt 0x10000)
    .idleThread .kernel _ = .ok (0x10000, _) from rfl))) rfl
  have r₂ := Run.snoc_safe start r₁
    (.task (.leaveShell rfl (show idleThread 9 0x900 0 0 64 _ = .ok _ from rfl))) rfl
  have r₃ := Run.snoc_safe start r₂ (.task (.create (by rfl) (show taskCreate 9 (chunksAt 0x20000)
    (.function 0x80000) .user _ = .ok (0x20000, _) from rfl))) rfl
  have r₄ := Run.snoc_safe start r₃ (.task (.create (by rfl) (show taskCreate 9 (chunksAt 0x30000)
    (.function 0x80000) .user _ = .ok (0x30000, _) from rfl))) rfl
  have r₅ := Run.snoc_safe start r₄ (.task (.create (by rfl) (show taskCreate 9 (chunksAt 0x40000)
    (.function 0x80000) .user _ = .ok (0x40000, _) from rfl))) rfl
  have r₆ := Run.snoc_safe start r₅ (.task (.create (by rfl) (show taskCreate 9 (chunksAt 0x50000)
    (.function 0x80000) .user _ = .ok (0x50000, _) from rfl))) rfl
  have r₇ := Run.snoc_safe start r₆
    (.task (.schedule rfl (show schedule 9 _ = .ok _ from rfl))) rfl
  have r₈ := Run.snoc_safe start r₇ (.signalKill (by rfl)
    (show syscSignalKill 9 (chunksAt 0x60000) 4 _ = .ok _ from rfl)) rfl
  refine ⟨_, r₈, ⟨rfl, rfl, _, rfl⟩, rfl, ⟨⟨rfl, rfl, rfl, rfl, rfl⟩, ?_⟩, rfl, rfl, ⟨_, rfl⟩,
    _, rfl⟩
  simp only [List.mem_cons, List.not_mem_nil, or_false]
  rintro x (rfl | rfl | rfl | rfl) <;> rfl

theorem firstSignal_none_lost : ∃ k run zombies temp, Placed k run zombies temp ∧
    ∀ x, x ∈ sysAlive firstSignal ↔ x ∈ places k run zombies temp := by
  obtain ⟨k, steps, -⟩ := firstSignal_run
  obtain ⟨placed, -⟩ := (Run.no_task_lost bootKernel_boot).2 steps
  exact ⟨k, placed⟩

/-- A second signal, to task 5, loses task 4; and a signal to a pid that no task has
does not return. -/
theorem secondSignal_loses :
    (∃ k, Run SysStep bootKernel (firstSignal ++ [.signalKill 5 0x70000]) k ∧ ¬ NoneLost k) ∧
      ∀ fuel k', syscSignalKill fuel (chunksAt 0x10000) 7 bootKernel ≠ .ok k' := by
  constructor
  · obtain ⟨k, steps, ⟨fresh, pending, k', returns⟩, -⟩ := firstSignal_run
    have step : SysStep k (.signalKill 5 0x70000) k' := .signalKill fresh returns
    refine ⟨k', (steps.mono fun _ _ _ step => step.2).snoc step, fun conserved => ?_⟩
    have safe := (step.none_lost_iff (Run.none_lost steps bootKernel_boot.none_lost)).mp conserved
    rw [Safe, pending] at safe
    exact Option.some_ne_none _ safe.1
  · intro fuel k' returns
    have behind := (syscSignalKill_returns_iff bootKernel_boot.placed rfl).mp ⟨fuel, k', returns⟩
    obtain ⟨n, rest, queue, -⟩ := behind
    exact List.cons_ne_nil n rest queue.eq_nil

end BareMetal.Sched
