import BareMetal.Sched.Handler

/-!
# Does a signal settle its target?

While the handler runs, the target of `sysc_signal_kill` is in `temp_queue`. The wrapper puts it
back behind a handler; without one it calls `sys_kill`, which searches `run_queue` only and so
misses the target.

## Main results

* `Run.delivered_iff` — a signal that is handled to the end, with nothing else in between, has
  settled its target exactly if the target had registered a handler
-/

namespace BareMetal.Sched

open CS

variable {k k' : Kernel} {run zombies temp : List ℕ} {fuel x h : ℕ} {pid : ℤ}

/-! ## Exited tasks do not wait -/

/-- No exited task waits, but for one that is first in the shell, and none is suspended. -/
structure Awake (k : Kernel) (run temp : List ℕ) : Prop where
  waits : ∀ y ∈ run, stateAt k.heap y = some .exit → k.inShell = true ∧ run.head? = some y
  suspended : ∀ y ∈ temp, stateAt k.heap y ≠ some .exit

/-- Outside the shell no exited task waits. -/
theorem Awake.outside (awake : Awake k run temp) (outside : k.inShell = false) {y : ℕ}
    (inside : y ∈ run) : stateAt k.heap y ≠ some .exit := by
  intro exits
  have inShell := (awake.waits y inside exits).1
  rw [outside] at inShell
  contradiction

/-- The queues of the scheduler are in order, and exited tasks do not wait. -/
def Ready (k : Kernel) : Prop := ∃ run zombies temp, Held k run zombies temp ∧ Awake k run temp

/-- `kill_thread` leaves `temp_queue` and the signals alone. -/
theorem Held.kill_awake (held : Held k run zombies temp) (awake : Awake k run temp)
    (returns : killThread fuel pid k = .ok k') :
    ∃ run' zombies', Held k' run' zombies' temp ∧ Awake k' run' temp ∧ run' ⊆ run ∧
      running k' = running k ∧ k'.handler = k.handler ∧ k'.inShell = k.inShell ∧
      k'.current = k.current := by
  cases held.killThread_returns returns with
  | none _ same =>
    subst same
    exact ⟨run, zombies, held, awake, List.Subset.refl _, rfl, rfl, rfl, rfl⟩
  | @moved before after y _ _ _ split _ _ state links moved =>
    subst state
    have fewer : before ++ after ⊆ run := by
      rw [split]
      exact List.append_subset.mpr ⟨List.subset_append_left _ _,
        fun z inside => List.mem_append_right _ (List.mem_cons_of_mem y inside)⟩
    refine ⟨_, _, moved.held, ⟨fun z inside exits => ?_, fun z inside => ?_⟩, fewer, rfl, rfl, rfl,
      rfl⟩
    · rw [stateAt_of_links links] at exits
      obtain ⟨inShell, first⟩ := awake.waits z (fewer inside) exits
      refine ⟨inShell, ?_⟩
      cases before with
      | nil =>
        -- the exited head would be the task that was killed
        rw [split] at first
        obtain rfl : y = z := Option.some.inj first
        exact absurd inside (held.not_rest split)
      | cons w before =>
        rw [split] at first
        exact first
    · rw [stateAt_of_links links]
      exact awake.suspended z inside

/-! ## Steps without a kill, an exit or a signal -/

/-- The event is no kill, no exit and no signal. -/
def SysEvent.Calm : SysEvent → Prop
  | .signalKill _ _ => False
  | .task .exit => False
  | .task (.kill _) => False
  | _ => True

/-- What a step does that is no kill, no exit and no signal. -/
structure CalmEffect (e : SysEvent) (k k' : Kernel) (run temp run' zombies' temp' : List ℕ) :
    Prop where
  held : Held k' run' zombies' temp'
  awake : Awake k run temp → Awake k' run' temp'
  stays : ∀ y ∈ runnable k run temp, stateAt k.heap y ≠ some .exit →
    y ∈ runnable k' run' temp' ∧ stateAt k'.heap y ≠ some .exit
  from_before : ∀ y ∈ runnable k' run' temp', y ∈ runnable k run temp ∨ e.creates y
  temp : temp' = if e = .addToQueue then [] else temp
  handler : k'.handler = k.handler
  signalExit : k'.signalExit = if e = .clearSignalExit then 0 else k.signalExit

theorem mem_runnable {y : ℕ} : y ∈ runnable k run temp ↔
    running k = some y ∨ y ∈ run ∨ y ∈ temp := by
  rw [runnable, List.mem_append, List.mem_append, Option.mem_toList]

/-- Where the states have not changed, tasks stay able to run if they have not moved away. -/
theorem stays_of_state {run' temp' : List ℕ} (state : stateAt k'.heap = stateAt k.heap)
    (kept : ∀ y ∈ runnable k run temp, stateAt k.heap y ≠ some .exit →
      y ∈ runnable k' run' temp') (y : ℕ) (inside : y ∈ runnable k run temp)
    (alive : stateAt k.heap y ≠ some .exit) :
    y ∈ runnable k' run' temp' ∧ stateAt k'.heap y ≠ some .exit := by
  rw [state]
  exact ⟨kept y inside alive, alive⟩

namespace Held

variable {y : ℕ}

theorem create_calm {chunks : Chunks} {func : Code} {mode : Mode}
    (held : Held k run zombies temp) (fresh : k.heap chunks.task = none)
    (returns : taskCreate fuel chunks func mode k = .ok (x, k')) :
    ∃ run' zombies' temp', CalmEffect (.task (.create x)) k k' run temp run' zombies' temp' := by
  have new := taskCreate_state_new held.runQueue fresh returns
  have old : ∀ y, (k.heap y).isSome → stateAt k'.heap y = stateAt k.heap y := by
    intro y here
    apply taskCreate_state held.runQueue fresh returns
    rintro rfl
    simp [fresh] at here
  obtain ⟨inShell, handler⟩ := taskCreate_same returns
  obtain ⟨rfl, effect⟩ := taskCreate_returns held.runQueue fresh returns
  refine ⟨run ++ [chunks.task], zombies, temp, effect.held fresh held, fun awake => ⟨?_, ?_⟩,
    fun y inside alive => ?_, fun y inside => ?_, rfl, handler, effect.signalExit⟩
  · intro y inside exits
    rcases List.mem_append.mp inside with waits | created
    · rw [old y (held.runQueue.allocated y waits)] at exits
      obtain ⟨shell, first⟩ := awake.waits y waits exits
      exact ⟨inShell.trans shell, by rw [List.head?_append, first]; rfl⟩
    · rw [List.mem_singleton.mp created, new] at exits
      simp at exits
  · intro y inside
    rw [old y (held.tempQueue.allocated y inside)]
    exact awake.suspended y inside
  · have here : (k.heap y).isSome := held.allocated (mem_places_iff.mpr (.inl inside))
    rw [old y here, mem_runnable, effect.running]
    refine ⟨?_, alive⟩
    rcases mem_runnable.mp inside with runs | waits | suspended
    · exact .inl runs
    · exact .inr (.inl (List.mem_append_left _ waits))
    · exact .inr (.inr suspended)
  · rw [mem_runnable, effect.running, List.mem_append, List.mem_singleton] at inside
    rw [mem_runnable, SysEvent.creates, SysEvent.task.injEq, Event.create.injEq]
    tauto

theorem schedule_calm (held : Held k run zombies temp) (outside : k.inShell = false)
    (returns : schedule fuel k = .ok k') :
    ∃ run' zombies' temp', CalmEffect (.task .schedule) k k' run temp run' zombies' temp' := by
  obtain ⟨move, links, -, signalExit⟩ := held.schedule_returns outside returns
  have state := stateAt_of_links links
  have handler : k'.handler = k.handler := schedule_handler returns
  -- the task that calls `schedule`
  have calls : ∀ {c}, k.current = some c → running k = some c := fun current =>
    running_eq_some.mpr ⟨outside, current⟩
  cases move with
  | @shell c current _ alone moved inShell =>
    -- the queue was empty: the task waits, and the shell runs
    subst alone
    refine ⟨[c], zombies, temp, moved.held, fun awake => ⟨?_, ?_⟩, stays_of_state state ?_,
      (moved.confined (List.Subset.refl _)).from_before, rfl, handler, signalExit⟩
    · intro y inside _
      exact ⟨inShell, by rw [List.mem_singleton.mp inside]; rfl⟩
    · rw [state]
      exact awake.suspended
    · intro y inside _
      rw [mem_runnable, calls current] at inside
      rw [mem_runnable, List.mem_singleton]
      rcases inside with runs | waits | suspended
      · exact .inr (.inl (Option.some.inj runs).symm)
      · exact absurd waits List.not_mem_nil
      · exact .inr (.inr suspended)
  | @requeue c n rest current head next inShell _ alive moved =>
    -- the task goes to the end of the queue
    subst head
    refine ⟨rest ++ [c], zombies, temp, moved.held, fun awake => ⟨?_, ?_⟩, stays_of_state state ?_,
      (moved.confined (List.Subset.refl _)).from_before, rfl, handler, signalExit⟩
    · intro y inside exits
      rw [state] at exits
      rcases List.mem_append.mp inside with waits | last
      · exact absurd exits (awake.outside outside (List.mem_cons_of_mem n waits))
      · rw [List.mem_singleton.mp last] at exits
        exact absurd exits alive
    · rw [state]
      exact awake.suspended
    · intro y inside _
      rw [mem_runnable, calls current] at inside
      rw [mem_runnable, running_eq_some.mpr ⟨inShell, next⟩, List.mem_append, List.mem_singleton]
      simp only [Option.some.injEq, List.mem_cons] at inside ⊢
      tauto
  | @retire c n rest current head next inShell _ exits moved =>
    -- the task has exited and becomes a zombie
    subst head
    refine ⟨rest, zombies ++ [c], temp, moved.held, fun awake => ⟨?_, ?_⟩,
      stays_of_state state ?_, (moved.confined (List.subset_append_left _ _)).from_before, rfl,
      handler, signalExit⟩
    · intro y inside exited
      rw [state] at exited
      exact absurd exited (awake.outside outside (List.mem_cons_of_mem n inside))
    · rw [state]
      exact awake.suspended
    · intro y inside alive
      rw [mem_runnable, calls current] at inside
      rw [mem_runnable, running_eq_some.mpr ⟨inShell, next⟩]
      have other : y ≠ c := by
        rintro rfl
        exact alive exits
      simp only [Option.some.injEq, List.mem_cons] at inside ⊢
      tauto

theorem reap_calm {freed : List ℕ} (held : Held k run zombies temp)
    (returns : killZombies k = .ok (freed, k')) :
    ∃ run' zombies' temp', CalmEffect (.task (.reap freed)) k k' run temp run' zombies' temp' := by
  cases held.killZombies_returns returns with
  | idle _ same held' =>
    subst same
    exact ⟨run, [], temp, held', fun awake => ⟨awake.waits, awake.suspended⟩,
      fun y inside alive => ⟨inside, alive⟩, fun y inside => .inl inside, rfl, rfl, rfl⟩
  | @reaped c rest z head same held' =>
    subst same head
    have other : ∀ y ∈ runnable k run temp,
        stateAt (k.heap.free c) y = stateAt k.heap y := by
      intro y inside
      refine congrArg (Option.map Task.state) (Heap.free_of_ne ?_)
      rintro rfl
      exact held.zombie_not_runnable List.mem_cons_self inside
    refine ⟨run, rest, temp, held', fun awake => ⟨fun y inside exits => ?_, fun y inside => ?_⟩,
      fun y inside alive => ?_, fun y inside => .inl inside, rfl, rfl, rfl⟩
    · rw [other y (mem_runnable.mpr (.inr (.inl inside)))] at exits
      exact awake.waits y inside exits
    · rw [other y (mem_runnable.mpr (.inr (.inr inside)))]
      exact awake.suspended y inside
    · refine ⟨inside, ?_⟩
      rwa [other y inside]

theorem leaveShell_calm {timer tick wrote freq : ℕ} (held : Held k run zombies temp)
    (inShell : k.inShell = true) (returns : idleThread fuel timer tick wrote freq k = .ok k') :
    ∃ run' zombies' temp',
      CalmEffect (.task .leaveShell) k k' run temp run' zombies' temp' := by
  obtain ⟨moved, next, outside, heap, -, signalExit⟩ := held.idleThread_returns inShell returns
  have handler : k'.handler = k.handler := by
    obtain ⟨⟨popTask, q⟩, -, returns⟩ := outcome_bind_eq_ok.mp returns
    obtain ⟨timers, -, last⟩ := outcome_bind_eq_ok.mp returns
    simp only [outcome_pure, Except.ok.injEq] at last
    rw [← last]
  have state : stateAt k'.heap = stateAt k.heap := by rw [heap]
  refine ⟨run.tail, zombies, temp, moved.held, fun awake => ⟨?_, ?_⟩, stays_of_state state ?_,
    (moved.confined (List.Subset.refl _)).from_before, rfl, handler, signalExit⟩
  · intro y inside exits
    rw [state] at exits
    -- the one exited task that waits is the head, which runs now
    have first := (awake.waits y (List.mem_of_mem_tail inside) exits).2
    obtain ⟨rest, rfl⟩ := List.head?_eq_some_iff.mp first
    exact absurd inside (List.nodup_cons.mp held.runQueue.linked.nodup).1
  · rw [state]
    exact awake.suspended
  · intro y inside _
    rw [mem_runnable] at inside ⊢
    rcases inside with runs | waits | suspended
    · simp [running, inShell] at runs
    · cases run with
      | nil => exact absurd waits List.not_mem_nil
      | cons n rest =>
        rw [running_eq_some, outside, next, List.head?_cons, Option.some.injEq]
        rcases List.mem_cons.mp waits with rfl | later
        · exact .inl ⟨rfl, rfl⟩
        · exact .inr (.inl later)
    · exact .inr (.inr suspended)

theorem addToQueue_calm (held : Held k run zombies temp)
    (returns : addToQueue fuel k = .ok k') :
    ∃ run' zombies' temp', CalmEffect .addToQueue k k' run temp run' zombies' temp' := by
  obtain ⟨moved, links, runs, inShell, -⟩ := held.addToQueue_returns returns
  have state := stateAt_of_links links
  have same : k'.handler = k.handler ∧ k'.signalExit = k.signalExit := by
    rw [addToQueue] at returns
    split at returns
    · rw [← Except.ok.inj returns]
      exact ⟨rfl, rfl⟩
    · obtain ⟨cur, -, returns⟩ := outcome_bind_eq_ok.mp returns
      obtain ⟨h, -, last⟩ := outcome_bind_eq_ok.mp returns
      simp only [outcome_pure, Except.ok.injEq] at last
      rw [← last]
      exact ⟨rfl, rfl⟩
  refine ⟨run ++ temp, zombies, [], moved.held, fun awake => ⟨?_, by simp⟩,
    stays_of_state state ?_, (moved.confined (List.Subset.refl _)).from_before, rfl, same.1, same.2⟩
  · intro y inside exits
    rw [state] at exits
    rcases List.mem_append.mp inside with waits | suspended
    · obtain ⟨shell, first⟩ := awake.waits y waits exits
      exact ⟨inShell.trans shell, by rw [List.head?_append, first]; rfl⟩
    · exact absurd exits (awake.suspended y suspended)
  · intro y inside _
    rw [mem_runnable] at inside ⊢
    rw [runs, List.mem_append]
    tauto

end Held

/-- Every step that is no kill, no exit and no signal keeps the tasks that can run. -/
theorem SysStep.calm {e : SysEvent} (held : Held k run zombies temp) (step : SysStep k e k')
    (calm : e.Calm) :
    ∃ run' zombies' temp', CalmEffect e k k' run temp run' zombies' temp' := by
  cases step with
  | task step =>
    cases step with
    | create fresh returns => exact held.create_calm fresh returns
    | schedule outside returns => exact held.schedule_calm outside returns
    | exit => exact calm.elim
    | kill => exact calm.elim
    | reap returns => exact held.reap_calm returns
    | leaveShell inShell returns => exact held.leaveShell_calm inShell returns
  | signalKill => exact calm.elim
  | addToQueue returns => exact held.addToQueue_calm returns
  | clearSignalExit =>
    exact ⟨run, zombies, temp,
      ⟨held.runQueue, held.zombiesQueue, held.tempQueue, held.once, held.present⟩,
      fun awake => ⟨awake.waits, awake.suspended⟩, fun y inside alive => ⟨inside, alive⟩,
      fun y inside => .inl inside, rfl, rfl, rfl⟩
  | @register _ handler returns =>
    obtain ⟨heap, written, last⟩ := outcome_bind_eq_ok.mp returns
    simp only [outcome_pure, Except.ok.injEq] at last
    obtain ⟨c, -, -, rfl⟩ := Heap.write_eq_ok.mp written
    subst last
    have moved := held.modify (x := c) (f := fun t => { t with handler := handler }) fun _ => rfl
    have state : stateAt (k.heap.modify c fun t => { t with handler := handler }) =
        stateAt k.heap := by
      funext y
      apply Heap.map_modify
      exact fun _ => rfl
    refine ⟨run, zombies, temp, moved.held, fun awake => ⟨?_, ?_⟩,
      stays_of_state state fun y inside _ => inside, fun y inside => .inl inside, rfl, rfl, rfl⟩
    · rw [state]
      exact awake.waits
    · rw [state]
      exact awake.suspended

/-! ## `sysc_exit` and `sysc_signal_kill` -/

theorem Held.exit_ready (held : Held k run zombies temp) (awake : Awake k run temp)
    (outside : k.inShell = false) (returns : syscExit fuel k = .ok k') : Ready k' := by
  obtain ⟨k₁, ended, c, current, rfl⟩ := syscExit_returns returns
  obtain ⟨run', zombies', held₁, awake₁, outside₁⟩ : ∃ run' zombies', Held k₁ run' zombies' temp ∧
      Awake k₁ run' temp ∧ k₁.inShell = false := by
    obtain ⟨-, rfl⟩ | ⟨-, killed⟩ := ended
    · exact ⟨run, zombies, held, awake, outside⟩
    · have held' : Held { k with signalExit := 0 } run zombies temp :=
        ⟨held.runQueue, held.zombiesQueue, held.tempQueue, held.once, held.present⟩
      obtain ⟨run', zombies', held₁, awake₁, -, -, -, inShell, -⟩ :=
        held'.kill_awake ⟨awake.waits, awake.suspended⟩ killed
      exact ⟨run', zombies', held₁, awake₁, inShell.trans outside⟩
  obtain ⟨not_run, -, not_temp⟩ := held₁.running_apart (running_eq_some.mpr ⟨outside₁, current⟩)
  have other : ∀ y, y ≠ c →
      stateAt (k₁.heap.modify c (Task.setState .exit)) y = stateAt k₁.heap y :=
    fun y ne => congrArg (Option.map Task.state) (Heap.modify_of_ne ne)
  have moved := held₁.modify (x := c) (f := Task.setState .exit) fun _ => rfl
  refine ⟨run', zombies', temp, moved.held, fun y inside exits => ?_, fun y inside => ?_⟩
  · rw [other y (ne_of_mem_of_not_mem inside not_run)] at exits
    exact awake₁.waits y inside exits
  · rw [other y (ne_of_mem_of_not_mem inside not_temp)]
    exact awake₁.suspended y inside

/-- The task that `find_task` and `remove_task` find: the first in `run_queue` with the pid, and
not the head. -/
def Target (k : Kernel) (pid : ℤ) (x : ℕ) : Prop :=
  ∃ before after, before ≠ [] ∧ Queue k.heap k.runQueue (before ++ x :: after) ∧
    pidAt k.heap x = some (toU64 pid) ∧ ∀ y ∈ before, pidAt k.heap y ≠ some (toU64 pid)

/-- The handler that a task has registered. -/
def handlerAt (heap : Heap Task) (x : ℕ) : Option Code := (heap x).map Task.handler

/-- The target is behind the head. -/
theorem Target.behind (target : Target k pid x) : Behind k (toU64 pid) := by
  obtain ⟨before, after, behind, queue, has, first⟩ := target
  obtain ⟨n, front, rfl⟩ := List.exists_cons_of_ne_nil behind
  exact ⟨n, front ++ x :: after, queue, first n List.mem_cons_self, x, by simp, has⟩

/-- `find_task` finds the target. -/
theorem Target.findTask {r : Option ℕ} (target : Target k pid x)
    (found : findTask fuel (toU64 pid) k = .ok r) : r = some x := by
  obtain ⟨before, after, -, queue, has, first⟩ := target
  obtain ⟨result, found, last⟩ := outcome_bind_eq_ok.mp found
  cases search_returns queue found with
  | absent none_has => exact absurd has (none_has x (by simp))
  | @found before' after' x' task split here pid_eq first' =>
    have has' : pidAt k.heap x' = some (toU64 pid) := by rw [pidAt_eq here, pid_eq]
    obtain ⟨-, rfl, -⟩ := @first_unique x (fun y => pidAt k.heap y = some (toU64 pid)) before
      before' after after' x' split has has' first first'
    simp only [outcome_pure, Except.ok.injEq] at last
    exact last.symm

/-- What `sysc_signal_kill` does to its target, and what it leaves alone. -/
structure Signalled (pid : ℤ) (x h : ℕ) (k k' : Kernel) (run zombies : List ℕ) : Prop where
  lists : ∃ before after, SignalEffect (toU64 pid) k k' run zombies before after x h
  handler : handlerAt k.heap x = some k'.handler
  state : ∀ y, y ≠ h → stateAt k'.heap y = stateAt k.heap y
  new : stateAt k'.heap h = some .running
  inShell : k'.inShell = k.inShell

theorem Target.signalled {chunks : Chunks} (target : Target k pid x)
    (held : Held k run zombies temp) (fresh : k.heap chunks.task = none)
    (returns : syscSignalKill fuel chunks pid k = .ok k') :
    Signalled pid x chunks.task k k' run zombies := by
  obtain ⟨before, after, x', effect⟩ := syscSignalKill_returns held fresh returns
  obtain rfl : x = x' := by
    obtain ⟨before', after', -, queue, has, first⟩ := target
    have split : before' ++ x :: after' = before ++ x' :: after := by
      rw [← effect.split]
      exact queue.linked.unique held.runQueue.linked
    exact (@first_unique x (fun y => pidAt k.heap y = some (toU64 pid)) before' before after'
      after x' split has effect.has first effect.first).2.1
  obtain ⟨task, found, returns⟩ := outcome_bind_eq_ok.mp returns
  obtain rfl := target.findTask found
  obtain ⟨task, read, returns⟩ := outcome_bind_eq_ok.mp returns
  obtain ⟨k₁, removed, returns⟩ := outcome_bind_eq_ok.mp returns
  obtain ⟨⟨new, k₂⟩, created, returns⟩ := outcome_bind_eq_ok.mp returns
  obtain ⟨heap, written, last⟩ := outcome_bind_eq_ok.mp returns
  simp only [outcome_pure, Except.ok.injEq] at last
  obtain ⟨c, same, -, rfl⟩ := Heap.write_eq_ok.mp written
  subst last
  obtain ⟨c', at_target, here⟩ := Heap.get_eq_ok.mp read
  obtain rfl := Option.some.inj at_target
  obtain rfl := Option.some.inj same
  -- the globals of the signal are no part of a queue
  have held' : Held { k with
      handler := task.handler, signalPid := toU64 pid, signalExit := 1 } run zombies temp :=
    ⟨held.runQueue, held.zombiesQueue, held.tempQueue, held.once, held.present⟩
  obtain ⟨xs, runQueue, state₁, allocated, inShell, handler⟩ : ∃ xs, Queue k₁.heap k₁.runQueue xs ∧
      stateAt k₁.heap = stateAt k.heap ∧ (∀ y, (k₁.heap y).isSome = (k.heap y).isSome) ∧
      k₁.inShell = k.inShell ∧ k₁.handler = task.handler := by
    cases held'.removeTask_returns removed with
    | none _ same =>
      subst same
      exact ⟨run, held.runQueue, rfl, fun _ => rfl, rfl, rfl⟩
    | moved _ _ _ _ state links runQueue =>
      subst state
      exact ⟨_, runQueue, stateAt_of_links links, links.isSome, rfl, rfl⟩
  have fresh₁ : k₁.heap chunks.task = none := by
    rw [← Option.not_isSome_iff_eq_none, allocated, fresh]
    simp
  have new_state := taskCreate_state_new runQueue fresh₁ created
  have old_state : ∀ y, y ≠ chunks.task → stateAt k₂.heap y = stateAt k.heap y := fun y ne => by
    rw [taskCreate_state runQueue fresh₁ created ne, state₁]
  obtain ⟨inShell₂, handler₂⟩ := taskCreate_same created
  -- nor is the function of the new task
  have marked : stateAt (k₂.heap.modify new fun t =>
    { t with targetFunc := .signalHandlerWrapper }) =
      stateAt k₂.heap := by
    funext y
    apply Heap.map_modify
    exact fun _ => rfl
  refine ⟨⟨before, after, effect⟩, ?_, fun y ne => ?_, ?_, inShell₂.trans inShell⟩
  · rw [handlerAt, here, Option.map_some, handler₂, handler]
  · rw [marked, old_state y ne]
  · rw [marked, new_state]

/-- A task behind the head has not exited. -/
theorem Awake.target (awake : Awake k run temp) (held : Held k run zombies temp)
    (target : Target k pid x) : stateAt k.heap x ≠ some .exit := by
  obtain ⟨before, after, behind, queue, -⟩ := target
  obtain rfl := held.runQueue.linked.unique queue.linked
  intro exits
  -- an exited task that waits is the head
  obtain ⟨n, front, rfl⟩ := List.exists_cons_of_ne_nil behind
  have first := (awake.waits x (by simp) exits).2
  obtain rfl : n = x := Option.some.inj first
  have distinct := held.runQueue.linked.nodup
  rw [List.cons_append] at distinct
  exact (List.nodup_cons.mp distinct).1 (by simp)

/-- The call suspends its target, and the task of the handler waits. -/
theorem Signalled.awake (signalled : Signalled pid x h k k' run zombies)
    (held : Held k run zombies temp) (awake : Awake k run temp) (fresh : k.heap h = none)
    (alive : stateAt k.heap x ≠ some .exit) :
    ∃ run', Held k' run' zombies [x] ∧ Awake k' run' [x] ∧ h ∈ run' ∧
      ∀ y ∈ runnable k' run' [x], y = h ∨ running k = some y ∨ y ∈ run := by
  obtain ⟨before, after, effect⟩ := signalled.lists
  have other : ∀ y, (k.heap y).isSome → stateAt k'.heap y = stateAt k.heap y := by
    intro y here
    apply signalled.state
    rintro rfl
    simp [fresh] at here
  refine ⟨before ++ after ++ [h], effect.held held fresh, ⟨fun y inside exits => ?_, ?_⟩, by simp,
    fun y inside => ?_⟩
  · rcases List.mem_append.mp inside with waits | new
    · have listed : y ∈ run := by
        rw [effect.split]
        simp only [List.mem_append, List.mem_cons] at waits ⊢
        tauto
      rw [other y (held.runQueue.allocated y listed)] at exits
      obtain ⟨inShell, first⟩ := awake.waits y listed exits
      refine ⟨signalled.inShell.trans inShell, ?_⟩
      obtain ⟨n, front, rfl⟩ := List.exists_cons_of_ne_nil effect.behind
      rw [effect.split] at first
      exact first
    · rw [List.mem_singleton.mp new, signalled.new] at exits
      simp at exits
  · intro y inside
    obtain rfl := List.mem_singleton.mp inside
    have listed : y ∈ run := by simp [effect.split]
    rwa [other y (held.runQueue.allocated y listed)]
  · rw [mem_runnable, effect.running] at inside
    rw [effect.split]
    simp only [List.mem_append, List.mem_cons, List.not_mem_nil, or_false] at inside ⊢
    tauto

/-- **Exited tasks do not wait** in any reachable state. -/
theorem SysStep.ready {e : SysEvent} (step : SysStep k e k') (ready : Ready k) : Ready k' := by
  obtain ⟨run, zombies, temp, held, awake⟩ := ready
  by_cases calm : e.Calm
  · obtain ⟨run', zombies', temp', effect⟩ := step.calm held calm
    exact ⟨run', zombies', temp', effect.held, effect.awake awake⟩
  · cases step with
    | task step =>
      cases step with
      | exit outside returns => exact held.exit_ready awake outside returns
      | kill returns =>
        obtain ⟨run', zombies', held', awake', -⟩ := held.kill_awake awake returns
        exact ⟨run', zombies', temp, held', awake'⟩
      | _ => exact absurd trivial calm
    | @signalKill _ chunks pid fuel fresh returns =>
      obtain ⟨before, after, x, effect⟩ := syscSignalKill_returns held fresh returns
      have target : Target k pid x :=
        ⟨before, after, effect.behind, effect.split ▸ held.runQueue, effect.has, effect.first⟩
      obtain ⟨run', held', awake', -⟩ := (target.signalled held fresh returns).awake held awake
        fresh (awake.target held target)
      exact ⟨run', zombies, [x], held', awake'⟩
    | _ => exact absurd trivial calm

/-! ## While the handler runs -/

variable {s t u : SignalMachine} {a : SignalAction} {e : SysEvent}

/-- No signal is pending: no task is suspended, `signal_exit` is 0, and no task that runs or waits
is in a handler or about to call `add_to_queue`. -/
structure NoSignal (s : SignalMachine) : Prop where
  tempQueue : s.kernel.tempQueue = none
  signalExit : s.kernel.signalExit = 0
  points : ∀ y, running s.kernel = some y ∨ Waits s.kernel y →
    s.point y ≠ some .handling ∧ s.point y ≠ some .putBack

/-- No signal, kill or exit happens, but for the `sys_kill` of the wrapper that the
task `h` runs. -/
def Undisturbed (h : ℕ) (s : SignalMachine) (a : SignalAction) : Prop :=
  ∀ e, a = some e → e.Calm ∨ (∃ pid, e = .task (.kill pid)) ∧ s.At h .giveUp

/-- What a signal to `x` is to have done: a target with a handler is in `run_queue` once, one
without is a zombie, and nothing is left of the signal. -/
structure Delivered (x : ℕ) (handler : Option Code) (k : Kernel) : Prop where
  waits : handler ≠ some .null → ∃ run, Queue k.heap k.runQueue run ∧ run.count x = 1
  killed : handler = some .null → Zombie k x
  tempQueue : k.tempQueue = none
  signalExit : k.signalExit = 0

/-- A new task has a fresh address. -/
theorem SysStep.fresh_of_creates {y : ℕ} (step : SysStep k e k') (creates : e.creates y) :
    k.heap y = none := by
  rcases creates with rfl | ⟨pid, rfl⟩
  · cases step with
    | task step =>
      cases step with
      | create fresh returns =>
        rw [taskCreate_task returns]
        exact fresh
  · cases step with
    | signalKill fresh => exact fresh

/-- Only a new task gets another point by a call. -/
theorem SignalMachine.point_after {y : ℕ} (s : SignalMachine) (k : Kernel)
    (old : ¬ e.creates y) : (s.after e k).point y = s.point y := by
  cases e with
  | task e =>
    cases e with
    | create task =>
      refine Function.update_of_ne ?_ _ _
      rintro rfl
      exact old (.inl rfl)
    | _ => rfl
  | signalKill pid task =>
    refine Function.update_of_ne ?_ _ _
    rintro rfl
    exact old (.inr ⟨pid, rfl⟩)
  | _ => rfl

/-- A task that goes on to another point leaves the others where they are. -/
theorem SignalMachine.points_goTo {c y : ℕ} {p : Point} (s : SignalMachine) (k : Kernel)
    (not_handling : p ≠ .handling) (not_putBack : p ≠ .putBack)
    (before : s.point y ≠ some .handling ∧ s.point y ≠ some .putBack) :
    (s.goTo c p k).point y ≠ some .handling ∧ (s.goTo c p k).point y ≠ some .putBack := by
  by_cases own : y = c
  · subst own
    have now : (s.goTo y p k).point y = some p := Function.update_self ..
    rw [now]
    exact ⟨fun same => not_handling (Option.some.inj same),
      fun same => not_putBack (Option.some.inj same)⟩
  · have same : (s.goTo c p k).point y = s.point y := Function.update_of_ne own _ _
    rwa [same]

/-- The statements of the wrapper that call the kernel. -/
theorem Point.statement_some {p p' : Point} (does : p.statement k = (some e, p')) :
    p = .putBack ∧ e = .addToQueue ∧ p' = .clear ∨
    p = .giveUp ∧ e = .task (.kill (toInt32 k.signalPid)) ∧ p' = .clear ∨
    p = .clear ∧ e = .clearSignalExit ∧ p' = .leave ∨
    p = .leave ∧ e = .task .exit ∧ p' = .leave := by
  cases p <;> simp_all [Point.statement]

/-- The others: the test for a handler, and the handler. -/
theorem Point.statement_none {p p' : Point} (does : p.statement k = (none, p')) :
    p = .test ∧ p' = (if k.handler = .null then .giveUp else .handling) ∨
    p = .handling ∧ p' = .putBack := by
  cases p <;> simp_all [Point.statement]

/-- The handler is registered: target and handler go on, and once the wrapper is past
`add_to_queue` no task is suspended. -/
structure Handled (x h : ℕ) (s : SignalMachine) (run zombies temp : List ℕ) : Prop where
  held : Held s.kernel run zombies temp
  handler : s.kernel.handler ≠ .null
  target : x ∈ runnable s.kernel run temp ∧ stateAt s.kernel.heap x ≠ some .exit
  task : h ∈ runnable s.kernel run temp ∧ stateAt s.kernel.heap h ≠ some .exit
  not_givesUp : s.point h ≠ some .giveUp
  clear : s.point h = some .clear → temp = []
  leave : s.point h = some .leave → temp = [] ∧ s.kernel.signalExit = 0

namespace Handled

variable {run' zombies' temp' : List ℕ}

theorem allocated (inv : Handled x h s run zombies temp) : (s.kernel.heap h).isSome :=
  inv.held.allocated (mem_places_iff.mpr (.inl inv.task.1))

/-- A calm step that leaves the point of the handler alone. -/
theorem keep (inv : Handled x h s run zombies temp)
    (effect : CalmEffect e s.kernel t.kernel run temp run' zombies' temp')
    (same : t.point h = s.point h) : Handled x h t run' zombies' temp' := by
  have empty : temp = [] → temp' = [] := by
    rintro rfl
    rw [effect.temp, ite_self]
  have quiet : s.kernel.signalExit = 0 → t.kernel.signalExit = 0 := by
    intro quiet
    rw [effect.signalExit, quiet, ite_self]
  refine ⟨effect.held, ?_, effect.stays x inv.target.1 inv.target.2,
    effect.stays h inv.task.1 inv.task.2, ?_, ?_, ?_⟩
  · rw [effect.handler]
    exact inv.handler
  · rw [same]
    exact inv.not_givesUp
  · rw [same]
    exact fun past => empty (inv.clear past)
  · rw [same]
    exact fun past => ⟨empty (inv.leave past).1, quiet (inv.leave past).2⟩

theorem step (inv : Handled x h s run zombies temp) (step : SignalStep s a t)
    (undisturbed : Undisturbed h s a) :
    ∃ run' zombies' temp', Handled x h t run' zombies' temp' := by
  have calm : ∀ e, a = some e → e.Calm := by
    intro e same
    rcases undisturbed e same with calm | ⟨-, gives_up⟩
    · exact calm
    · exact absurd gives_up.2.1 inv.not_givesUp
  cases step with
  | @call e k' code goes_on ordinary step =>
    obtain ⟨run', zombies', temp', effect⟩ := step.calm inv.held (calm e rfl)
    have old : ¬ e.creates h := by
      intro new
      have here := inv.allocated
      simp [step.fresh_of_creates new] at here
    rw [← s.kernel_after e k'] at effect
    exact ⟨run', zombies', temp', inv.keep effect (s.point_after k' old)⟩
  | preempt step =>
    obtain ⟨run', zombies', temp', effect⟩ := step.calm inv.held (calm _ rfl)
    exact ⟨run', zombies', temp', inv.keep effect rfl⟩
  | @statement c p p' e k' here does step =>
    obtain ⟨run', zombies', temp', effect⟩ := step.calm inv.held (calm e rfl)
    by_cases own : c = h
    · -- the handler itself: `base` is what holds at every point but that of `sys_kill`
      subst own
      have base : ∀ (past : p' ≠ .giveUp) (empty : temp' = [])
          (quiet : p' = .leave → k'.signalExit = 0),
          Handled x c (s.goTo c p' k') run' zombies' temp' := by
        intro past empty quiet
        have now : (s.goTo c p' k').point c = some p' := Function.update_self ..
        refine ⟨effect.held, ?_, effect.stays x inv.target.1 inv.target.2,
          effect.stays c inv.task.1 inv.task.2, ?_, fun _ => empty, ?_⟩
        · exact effect.handler ▸ inv.handler
        · rw [now]
          exact fun same => past (Option.some.inj same)
        · rw [now]
          exact fun same => ⟨empty, quiet (Option.some.inj same)⟩
      refine ⟨run', zombies', temp', ?_⟩
      rcases Point.statement_some does with ⟨rfl, rfl, rfl⟩ | ⟨rfl, -, -⟩ | ⟨rfl, rfl, rfl⟩ |
        ⟨rfl, rfl, -⟩
      · exact base (by simp) (effect.temp.trans (if_pos rfl)) (by simp)
      · exact absurd here.2.1 inv.not_givesUp
      · have empty : temp' = temp := effect.temp.trans (if_neg (by simp))
        exact base (by simp) (empty.trans (inv.clear here.2.1))
          fun _ => effect.signalExit.trans (if_pos rfl)
      · exact (calm _ rfl).elim
    · have same : (s.goTo c p' k').point h = s.point h := Function.update_of_ne (Ne.symm own) _ _
      exact ⟨run', zombies', temp', inv.keep effect same⟩
  | @silent c p p' here does =>
    refine ⟨run, zombies, temp, ?_⟩
    by_cases own : c = h
    · subst own
      have now : (s.goTo c p' s.kernel).point c = some p' := Function.update_self ..
      -- the point behind is that of the handler or of `add_to_queue`
      obtain ⟨not_givesUp, not_clear, not_leave⟩ : p' ≠ .giveUp ∧ p' ≠ .clear ∧ p' ≠ .leave := by
        rcases Point.statement_none does with ⟨-, rfl⟩ | ⟨-, rfl⟩
        · rw [if_neg inv.handler]
          simp
        · simp
      refine ⟨inv.held, inv.handler, inv.target, inv.task, ?_, ?_, ?_⟩
      all_goals rw [now]
      · exact fun same => not_givesUp (Option.some.inj same)
      · exact fun same => absurd (Option.some.inj same) not_clear
      · exact fun same => absurd (Option.some.inj same) not_leave
    · have same : (s.goTo c p' s.kernel).point h = s.point h :=
        Function.update_of_ne (Ne.symm own) _ _
      refine ⟨inv.held, inv.handler, inv.target, inv.task, ?_, ?_, ?_⟩
      all_goals rw [same]
      · exact inv.not_givesUp
      · exact inv.clear
      · exact inv.leave

/-- At the end the target waits, once, and nothing is left of the signal. -/
theorem delivered {handler : Option Code} (inv : Handled x h u run zombies temp) (other : x ≠ h)
    (registered : handler ≠ some .null) (last : u.At h .leave)
    (exits : SysStep u.kernel (.task .exit) k') : Delivered x handler k' := by
  obtain ⟨runs, here, -⟩ := last
  obtain ⟨rfl, quiet⟩ := inv.leave here
  obtain ⟨fuel, -, returns⟩ := exits.exit_returns
  have only := (inv.held.exit_only_ends_iff runs returns).mpr quiet
  -- the handler runs and nobody is suspended, so the target waits
  have waits : x ∈ run := by
    have inside := inv.target.1
    rw [mem_runnable, runs, Option.some.injEq] at inside
    rcases inside with same | waits | nowhere
    · exact absurd same.symm other
    · exact waits
    · exact absurd nowhere List.not_mem_nil
  refine ⟨fun _ => ⟨run, only.runQueue run inv.held.runQueue, ?_⟩,
    fun none => absurd none registered, ?_, ?_⟩
  · exact List.count_eq_one_of_mem inv.held.runQueue.linked.nodup waits
  · rw [only.temp_eq]
    exact inv.held.tempQueue.linked
  · rw [only.signalExit, quiet]

end Handled

/-- No handler is registered: the target stays suspended, as no task is about to call
`add_to_queue`. -/
structure Missed (x : ℕ) (s : SignalMachine) (run zombies : List ℕ) : Prop where
  held : Held s.kernel run zombies [x]
  handler : s.kernel.handler = .null
  points : ∀ y ∈ runnable s.kernel run [x],
    s.point y ≠ some .handling ∧ s.point y ≠ some .putBack

namespace Missed

theorem step (inv : Missed x s run zombies) (step : SignalStep s a t)
    (undisturbed : Undisturbed h s a) : ∃ run' zombies', Missed x t run' zombies' := by
  -- what the scheduler does, unless it puts the target back
  have scheduler : ∀ e k', a = some e → e ≠ .addToQueue → SysStep s.kernel e k' →
      ∃ run' zombies', Held k' run' zombies' [x] ∧ k'.handler = .null ∧
        ∀ y ∈ runnable k' run' [x], y ∈ runnable s.kernel run [x] ∨ e.creates y := by
    intro e k' same other step
    rcases undisturbed e same with calm | ⟨⟨pid, rfl⟩, -⟩
    · obtain ⟨run', zombies', temp', effect⟩ := step.calm inv.held calm
      obtain rfl : temp' = [x] := effect.temp.trans (if_neg other)
      exact ⟨run', zombies', effect.held, effect.handler.trans inv.handler, effect.from_before⟩
    · cases step with
      | task step =>
        cases step with
        | kill returns =>
          cases inv.held.killThread_returns returns with
          | none _ same =>
            subst same
            exact ⟨run, zombies, inv.held, inv.handler, fun y inside => .inl inside⟩
          | moved _ _ _ state _ moved =>
            have confined := moved.confined (e := .task (.kill pid)) (List.subset_append_left _ _)
            refine ⟨_, _, moved.held, ?_, confined.from_before⟩
            rw [state]
            exact inv.handler
  cases step with
  | @call e k' code goes_on ordinary step =>
    have other : e ≠ .addToQueue := by
      rintro rfl
      exact ordinary
    obtain ⟨run', zombies', held, handler, from_before⟩ := scheduler e k' rfl other step
    refine ⟨run', zombies', ?_, ?_, fun y inside => ?_⟩
    · rw [s.kernel_after]
      exact held
    · rw [s.kernel_after]
      exact handler
    · rw [s.kernel_after] at inside
      by_cases new : e.creates y
      · -- a new task is where its parent is: outside the wrapper
        have parent : s.runningPoint = none := by
          rcases code with outside | inside_handler
          · exact outside
          · obtain ⟨c, runs, here⟩ := Option.bind_eq_some_iff.mp inside_handler
            exact absurd here (inv.points c (mem_runnable.mpr (.inl runs))).1
        rcases new with rfl | ⟨pid, rfl⟩
        · have now : (s.after (.task (.create y)) k').point y = s.runningPoint :=
            Function.update_self ..
          rw [now, parent]
          simp
        · rcases undisturbed _ rfl with calm | ⟨⟨pid, same⟩, -⟩
          · exact calm.elim
          · simp at same
      · rw [s.point_after k' new]
        exact inv.points y ((from_before y inside).resolve_right new)
  | preempt step =>
    obtain ⟨run', zombies', held, handler, from_before⟩ := scheduler _ _ rfl (by simp) step
    refine ⟨run', zombies', held, handler, fun y inside => inv.points y ?_⟩
    exact (from_before y inside).resolve_right (by simp [SysEvent.creates])
  | @statement c p p' e k' here does step =>
    -- the statement is not `add_to_queue`, and the point behind it is not in front of it
    have runs : c ∈ runnable s.kernel run [x] := mem_runnable.mpr (.inl here.1)
    have past : e ≠ .addToQueue ∧ (∀ y, ¬ e.creates y) ∧ p' ≠ .handling ∧ p' ≠ .putBack := by
      rcases Point.statement_some does with ⟨rfl, -, -⟩ | ⟨-, rfl, rfl⟩ | ⟨-, rfl, rfl⟩ |
        ⟨-, rfl, rfl⟩
      · exact absurd here.2.1 (inv.points c runs).2
      all_goals simp [SysEvent.creates]
    obtain ⟨other, creates, not_handling, not_putBack⟩ := past
    obtain ⟨run', zombies', held, handler, from_before⟩ := scheduler e k' rfl other step
    refine ⟨run', zombies', held, handler, fun y inside => ?_⟩
    exact s.points_goTo k' not_handling not_putBack
      (inv.points y ((from_before y inside).resolve_right (creates y)))
  | @silent c p p' here does =>
    have runs : c ∈ runnable s.kernel run [x] := mem_runnable.mpr (.inl here.1)
    refine ⟨run, zombies, inv.held, inv.handler, fun y inside => ?_⟩
    rcases Point.statement_none does with ⟨-, rfl⟩ | ⟨rfl, -⟩
    · rw [if_pos inv.handler]
      exact s.points_goTo s.kernel (by simp) (by simp) (inv.points y inside)
    · exact absurd here.2.1 (inv.points c runs).1

/-- At the end the target is still suspended. -/
theorem not_delivered {handler : Option Code} (inv : Missed x u run zombies)
    (exits : SysStep u.kernel (.task .exit) k') : ¬ Delivered x handler k' := by
  intro delivered
  obtain ⟨fuel, -, returns⟩ := exits.exit_returns
  have suspended := inv.held.tempQueue.linked.head
  -- `sys_exit` and the kill of an exited task leave `temp_queue` alone
  have same : k'.tempQueue = u.kernel.tempQueue := by
    obtain ⟨k₁, ended, c, -, rfl⟩ := syscExit_returns returns
    obtain ⟨-, rfl⟩ | ⟨-, killed⟩ := ended
    · rfl
    · have held' : Held { u.kernel with signalExit := 0 } run zombies [x] :=
        ⟨inv.held.runQueue, inv.held.zombiesQueue, inv.held.tempQueue, inv.held.once,
          inv.held.present⟩
      cases held'.killThread_returns killed with
      | none _ same => rw [same]
      | moved _ _ _ state => rw [state]
  rw [← same, delivered.tempQueue] at suspended
  simp at suspended

end Missed

/-! ## Complete runs of the handler -/

theorem SignalStep.ready (step : SignalStep s a t) (ready : Ready s.kernel) : Ready t.kernel := by
  obtain ⟨-, same⟩ | ⟨e, -, step⟩ := step.kernel
  · rw [same]
    exact ready
  · exact step.ready ready

theorem Boot.ready (boot : Boot k) : Ready k :=
  ⟨[], [], [], boot.placed.held, by simp, by simp⟩

theorem SignalStep.taken (step : SignalStep s (some e) t) : SysStep s.kernel e t.kernel := by
  obtain ⟨nothing, -⟩ | ⟨e', same, step⟩ := step.kernel
  · simp at nothing
  · rwa [Option.some.inj same]

/-- The state behind the call of `sysc_signal_kill`. -/
theorem SignalStep.signal (step : SignalStep s (some (.signalKill pid h)) t) :
    ∃ chunks fuel, chunks.task = h ∧ s.kernel.heap h = none ∧
      syscSignalKill fuel chunks pid s.kernel = .ok t.kernel ∧
      t.point = Function.update s.point h (some .test) := by
  cases step with
  | call code goes_on ordinary step =>
    cases step with
    | @signalKill _ chunks _ fuel fresh returns => exact ⟨chunks, fuel, rfl, fresh, returns, rfl⟩
  | @statement c p p' e k' here does step => cases p <;> simp [Point.statement] at does

/-- A call of `sysc_signal_kill` and the complete run of the task it creates lead from `s` to `t`,
with no other signal, kill or exit in between. -/
def Completes (pid : ℤ) (s t : SignalMachine) : Prop :=
  ∃ h s₁ w u, SignalStep s (some (.signalKill pid h)) s₁ ∧
    Run (Guarded SignalStep (Undisturbed h)) s₁ w u ∧ u.At h .leave ∧
    SignalStep u (some (.task .exit)) t

/-- **A signal settles its target** exactly if the target had registered a handler: in every
reachable state without a pending signal `sysc_signal_kill` returns for a target behind the head of
`run_queue`, and its complete run leaves a target with a handler in `run_queue`, and one without
in `temp_queue`. -/
theorem Run.delivered_iff {s₀ : SignalMachine} {v : List SignalAction} (boot : s₀.Boots)
    (before : Run SignalStep s₀ v s) (quiet : NoSignal s) (target : Target s.kernel pid x) :
    (∀ chunks : Chunks, s.kernel.heap chunks.task = none →
      ∃ fuel k', syscSignalKill fuel chunks pid s.kernel = .ok k') ∧
    ∀ t, Completes pid s t → (Delivered x (handlerAt s.kernel.heap x) t.kernel ↔
      handlerAt s.kernel.heap x ≠ some .null) := by
  have ready : Ready s.kernel :=
    before.preserves (fun s => Ready s.kernel) (fun _ _ _ inv step => step.ready inv)
      boot.kernel.ready
  obtain ⟨run, zombies, temp, held, awake⟩ := ready
  refine ⟨fun chunks fresh => syscSignalKill_total held fresh target.behind, ?_⟩
  rintro t ⟨h, s₁, w, u, signal, between, last, exits⟩
  obtain ⟨chunks, fuel, rfl, fresh, returns, point⟩ := signal.signal
  have signalled := target.signalled held fresh returns
  have alive := awake.target held target
  obtain ⟨run₁, held₁, -, waits, from_before⟩ := signalled.awake held awake fresh alive
  have other : x ≠ chunks.task := by
    rintro rfl
    obtain ⟨before', after', -, queue, -⟩ := target
    have here := queue.allocated chunks.task (by simp)
    simp [fresh] at here
  have at_test : s₁.point chunks.task = some .test := by
    rw [point]
    exact Function.update_self ..
  constructor
  · intro delivered unregistered
    -- without a handler the target is missed in the run, and at its end
    have missed : Missed x s₁ run₁ zombies := by
      refine ⟨held₁, ?_, fun y inside => ?_⟩
      · rw [signalled.handler] at unregistered
        exact Option.some.inj unregistered
      · by_cases new : y = chunks.task
        · rw [new, at_test]
          simp
        · rw [point, Function.update_of_ne new]
          apply quiet.points
          exact ((from_before y inside).resolve_left new).imp_right
            fun listed => ⟨run, held.runQueue, listed⟩
    have missed_then : ∃ run zombies, Missed x u run zombies :=
      between.preserves (fun s => ∃ run zombies, Missed x s run zombies)
        (fun s a t ⟨_, _, inv⟩ step => inv.step step.2 step.1) ⟨run₁, zombies, missed⟩
    obtain ⟨run', zombies', missed'⟩ := missed_then
    exact missed'.not_delivered exits.taken delivered
  · intro registered
    -- with one it is handled
    have handled : Handled x chunks.task s₁ run₁ zombies [x] := by
      have alive₁ : stateAt s₁.kernel.heap x ≠ some .exit := by rwa [signalled.state x other]
      have new : stateAt s₁.kernel.heap chunks.task ≠ some .exit := by
        rw [signalled.new]
        simp
      refine ⟨held₁, fun null => ?_, ⟨mem_runnable.mpr (by simp), alive₁⟩,
        ⟨mem_runnable.mpr (.inr (.inl waits)), new⟩, ?_, ?_, ?_⟩
      · rw [signalled.handler, null] at registered
        exact registered rfl
      all_goals
        rw [at_test]
        simp
    have handled_then : ∃ run zombies temp, Handled x chunks.task u run zombies temp :=
      between.preserves (fun s => ∃ run zombies temp, Handled x chunks.task s run zombies temp)
        (fun s a t ⟨_, _, _, inv⟩ step => inv.step step.2 step.1) ⟨run₁, zombies, [x], handled⟩
    obtain ⟨run', zombies', temp', handled'⟩ := handled_then
    exact handled'.delivered other registered last exits.taken

/-! ## A target with a handler, and one without -/

/-- No task is in the wrapper until the first signal. -/
theorem Run.point_none {v : List SignalAction} (steps : Run SignalStep s v t)
    (start : ∀ y, s.point y = none) (silent : ∀ pid h, some (.signalKill pid h) ∉ v) (y : ℕ) :
    t.point y = none := by
  induction steps generalizing y with
  | refl => exact start y
  | @snoc t u v a _ last ih =>
    -- a point is inherited from the parent, or set by `sysc_signal_kill`
    replace ih := ih fun pid h inside => silent pid h (List.mem_append_left _ inside)
    have nowhere : t.runningPoint = none := by
      rw [SignalMachine.runningPoint]
      cases running t.kernel with
      | none => rfl
      | some c => exact ih c
    cases last with
    | @call e k' =>
      by_cases new : e.creates y
      · rcases new with rfl | ⟨pid, rfl⟩
        · exact (Function.update_self ..).trans nowhere
        · exact absurd (by simp) (silent pid y)
      · rw [t.point_after k' new, ih y]
    | preempt => exact ih y
    | statement here => exact absurd here.2.1 (by simp [ih])
    | silent here => exact absurd here.2.1 (by simp [ih])

section Steps

variable {s₁ : SignalMachine} {w : List SignalAction}
  (steps : Run (Guarded SignalStep (Undisturbed h)) s₁ w s)

include steps

/-- The handler's run goes on with a calm step. -/
theorem Run.snoc_calm (step : SignalStep s (some e) t) (calm : e.Calm) :
    Run (Guarded SignalStep (Undisturbed h)) s₁ (w ++ [some e]) t := by
  refine steps.snoc ⟨fun e' same => .inl ?_, step⟩
  rwa [← Option.some.inj same]

/-- The handler's run goes on with the `sys_kill` of the wrapper. -/
theorem Run.snoc_kill (step : SignalStep s (some (.task (.kill pid))) t)
    (gives_up : s.At h .giveUp) :
    Run (Guarded SignalStep (Undisturbed h)) s₁ (w ++ [some (.task (.kill pid))]) t := by
  refine steps.snoc ⟨fun e' same => .inr ⟨⟨pid, ?_⟩, gives_up⟩, step⟩
  exact (Option.some.inj same).symm

/-- The handler's run goes on inside the wrapper. -/
theorem Run.snoc_inside (step : SignalStep s none t) :
    Run (Guarded SignalStep (Undisturbed h)) s₁ (w ++ [none]) t :=
  steps.snoc ⟨fun _ nothing => by simp at nothing, step⟩

end Steps

/-- The idle task creates tasks 2 and 3, and task 2 runs. Task 3 signals it, after it has registered
a handler or before. -/
theorem signal_runs :
    (∃ v s t, Run SignalStep bootSignals v s ∧ NoSignal s ∧ Target s.kernel 2 0x20000 ∧
      Completes 2 s t ∧ handlerAt s.kernel.heap 0x20000 = some (.function 0x90000)) ∧
    ∃ v s t, Run SignalStep bootSignals v s ∧ NoSignal s ∧ Target s.kernel 2 0x20000 ∧
      Completes 2 s t ∧ handlerAt s.kernel.heap 0x20000 = some .null ∧
        t.kernel.tempQueue = some 0x20000 := by
  -- a step from where a run has led to
  have next : ∀ {v s a t}, Run SignalStep bootSignals v s → SignalStep s a t → SignalStep s a t :=
    fun _ step => step
  have start : ∀ {s a t}, SignalStep s a t →
      Run (Guarded SignalStep (Undisturbed 0x40000)) t [] t := fun _ => .refl _
  have last : ∀ {s w t a u}, Run (Guarded SignalStep (Undisturbed 0x40000)) s w t →
      SignalStep t a u → SignalStep t a u := fun _ step => step
  have r₁ := Run.single (SignalStep.call (s := bootSignals) (e := .task (.create 0x10000))
    (.inl rfl) (by decide) trivial (.task (.create (by rfl) (show taskCreate 9 (chunksAt 0x10000)
    .idleThread .kernel _ = .ok (0x10000, _) from rfl))))
  have r₂ := r₁.snoc (.call (e := .task .leaveShell) (.inl rfl) (by decide) trivial
    (.task (.leaveShell rfl (show idleThread 9 0x900 0 0 64 _ = .ok _ from rfl))))
  have r₃ := r₂.snoc (.call (e := .task (.create 0x20000)) (.inl rfl) (by decide) trivial
    (.task (.create (by rfl) (show taskCreate 9 (chunksAt 0x20000) (.function 0x80000) .user _ =
      .ok (0x20000, _) from rfl))))
  have r₄ := r₃.snoc (.call (e := .task (.create 0x30000)) (.inl rfl) (by decide) trivial
    (.task (.create (by rfl) (show taskCreate 9 (chunksAt 0x30000) (.function 0x80000) .user _ =
      .ok (0x30000, _) from rfl))))
  have r₅ := r₄.snoc (.preempt (.task (.schedule rfl (show schedule 9 _ = .ok _ from rfl))))
  constructor
  · have r₆ := r₅.snoc (.call (e := .register (.function 0x90000)) (.inl rfl) (by decide) trivial
      (.register (show syscRegister (.function 0x90000) _ = .ok _ from rfl)))
    have r₇ := r₆.snoc (.preempt (.task (.schedule rfl (show schedule 9 _ = .ok _ from rfl))))
    have signal := next r₇ (.call (e := .signalKill 2 0x40000) (.inl rfl) (by decide) trivial
      (.signalKill (by rfl) (show syscSignalKill 9 (chunksAt 0x40000) 2 _ = .ok _ from rfl)))
    have q₁ := Run.snoc_calm (start signal)
      (.preempt (.task (.schedule rfl (show schedule 9 _ = .ok _ from rfl)))) trivial
    have q₂ := Run.snoc_calm q₁
      (.preempt (.task (.schedule rfl (show schedule 9 _ = .ok _ from rfl)))) trivial
    have q₃ := Run.snoc_inside q₂
      (.silent (c := 0x40000) (p := .test) ⟨rfl, rfl, by decide⟩ rfl)
    have q₄ := Run.snoc_inside q₃
      (.silent (c := 0x40000) (p := .handling) ⟨rfl, rfl, by decide⟩ rfl)
    have q₅ := Run.snoc_calm q₄ (.statement (c := 0x40000) (p := .putBack) (e := .addToQueue)
      ⟨rfl, rfl, by decide⟩ rfl (.addToQueue (show addToQueue 9 _ = .ok _ from rfl))) trivial
    have q₆ := Run.snoc_calm q₅ (.statement (c := 0x40000) (p := .clear) (e := .clearSignalExit)
      ⟨rfl, rfl, by decide⟩ rfl .clearSignalExit) trivial
    have exits := last q₆ (.statement (c := 0x40000) (p := .leave) (e := .task .exit)
      ⟨rfl, rfl, by decide⟩ rfl (.task (.exit rfl (show syscExit 9 _ = .ok _ from rfl))))
    refine ⟨_, _, _, r₇, ⟨rfl, rfl, fun y _ => ?_⟩, ⟨[0x10000], [], by simp, ⟨⟨rfl, rfl, rfl⟩, ?_⟩,
      rfl, by decide⟩, ⟨_, _, _, _, signal, q₆, ⟨rfl, rfl, by decide⟩, exits⟩, rfl⟩
    · rw [Run.point_none r₇ (fun _ => rfl) (by simp)]
      simp
    · simp only [List.cons_append, List.nil_append, List.mem_cons, List.not_mem_nil, or_false]
      rintro x (rfl | rfl) <;> rfl
  · have r₆ := r₅.snoc (.preempt (.task (.schedule rfl (show schedule 9 _ = .ok _ from rfl))))
    have signal := next r₆ (.call (e := .signalKill 2 0x40000) (.inl rfl) (by decide) trivial
      (.signalKill (by rfl) (show syscSignalKill 9 (chunksAt 0x40000) 2 _ = .ok _ from rfl)))
    have q₁ := Run.snoc_calm (start signal)
      (.preempt (.task (.schedule rfl (show schedule 9 _ = .ok _ from rfl)))) trivial
    have q₂ := Run.snoc_calm q₁
      (.preempt (.task (.schedule rfl (show schedule 9 _ = .ok _ from rfl)))) trivial
    have q₃ := Run.snoc_inside q₂
      (.silent (c := 0x40000) (p := .test) ⟨rfl, rfl, by decide⟩ rfl)
    have q₄ := Run.snoc_kill q₃ (.statement (c := 0x40000) (p := .giveUp)
      (e := .task (.kill (toInt32 (toU64 2)))) ⟨rfl, rfl, by decide⟩ rfl
      (.task (.kill (show syscKill 9 2 _ = .ok _ from rfl)))) ⟨rfl, rfl, by decide⟩
    have q₅ := Run.snoc_calm q₄ (.statement (c := 0x40000) (p := .clear) (e := .clearSignalExit)
      ⟨rfl, rfl, by decide⟩ rfl .clearSignalExit) trivial
    have exits := last q₅ (.statement (c := 0x40000) (p := .leave) (e := .task .exit)
      ⟨rfl, rfl, by decide⟩ rfl (.task (.exit rfl (show syscExit 9 _ = .ok _ from rfl))))
    refine ⟨_, _, _, r₆, ⟨rfl, rfl, fun y _ => ?_⟩, ⟨[0x10000], [], by simp, ⟨⟨rfl, rfl, rfl⟩, ?_⟩,
      rfl, by decide⟩, ⟨_, _, _, _, signal, q₅, ⟨rfl, rfl, by decide⟩, exits⟩, rfl, rfl⟩
    · rw [Run.point_none r₆ (fun _ => rfl) (by simp)]
      simp
    · simp only [List.cons_append, List.nil_append, List.mem_cons, List.not_mem_nil, or_false]
      rintro x (rfl | rfl) <;> rfl

/-- Task 2 has registered a handler: it waits again at the end. -/
theorem registered_delivered : ∃ s t, NoSignal s ∧ Completes 2 s t ∧
    Delivered 0x20000 (handlerAt s.kernel.heap 0x20000) t.kernel := by
  obtain ⟨⟨v, s, t, before, quiet, target, complete, handler⟩, -⟩ := signal_runs
  refine ⟨s, t, quiet, complete, ?_⟩
  refine ((Run.delivered_iff bootSignals_boots before quiet target).2 t complete).mpr ?_
  rw [handler]
  decide

/-- Task 2 has registered none: at the end it is in `temp_queue`, and no zombie. -/
theorem unregistered_not_delivered : ∃ v s t, Run SignalStep bootSignals v s ∧ NoSignal s ∧
    Target s.kernel 2 0x20000 ∧ Completes 2 s t ∧ t.kernel.tempQueue = some 0x20000 ∧
    ¬ Delivered 0x20000 (handlerAt s.kernel.heap 0x20000) t.kernel := by
  obtain ⟨-, v, s, t, before, quiet, target, complete, -, suspended⟩ := signal_runs
  refine ⟨v, s, t, before, quiet, target, complete, suspended, fun delivered => ?_⟩
  rw [delivered.tempQueue] at suspended
  simp at suspended

end BareMetal.Sched
