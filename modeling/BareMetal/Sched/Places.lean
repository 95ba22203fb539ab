import BareMetal.Sched.Held

/-!
# Where the tasks are

`Placed k run zombies temp` says that the three queues hold the tasks of these
lists, and that every allocated task is in exactly one place: running, in
`run_queue`, in `zombies_queue` or in `temp_queue`. In the shell no task runs.

No function but `sysc_signal_kill` takes a task out of all places.
-/

namespace BareMetal.Sched

open CS

variable {k k' : Kernel} {run zombies temp run' zombies' temp' : List ℕ} {fuel x : ℕ}

/-- The queues hold these tasks, and every task is in exactly one place. -/
structure Placed (k : Kernel) (run zombies temp : List ℕ) : Prop where
  runQueue : Queue k.heap k.runQueue run
  zombiesQueue : Queue k.heap k.zombiesQueue zombies
  tempQueue : Queue k.heap k.tempQueue temp
  once : (places k run zombies temp).Nodup
  everywhere : ∀ x, (k.heap x).isSome ↔ x ∈ places k run zombies temp

/-- Every task has a place. -/
theorem Held.placed (held : Held k run zombies temp)
    (everywhere : ∀ x, (k.heap x).isSome ↔ x ∈ places k run zombies temp) :
    Placed k run zombies temp :=
  ⟨held.runQueue, held.zombiesQueue, held.tempQueue, held.once, everywhere⟩

namespace Placed

theorem held (placed : Placed k run zombies temp) : Held k run zombies temp where
  runQueue := placed.runQueue
  zombiesQueue := placed.zombiesQueue
  tempQueue := placed.tempQueue
  once := placed.once
  present x runs := by
    rw [placed.everywhere, places, runs]
    exact List.mem_cons_self

/-- Tasks that only move keep the places exhaustive. -/
theorem moved (placed : Placed k run zombies temp)
    (moved : Moved k k' run zombies temp run' zombies' temp') : Placed k' run' zombies' temp' :=
  moved.held.placed fun x => by rw [moved.same, placed.everywhere, moved.perm.mem_iff]

theorem unique {run₂ zombies₂ temp₂ : List ℕ} (placed : Placed k run zombies temp)
    (placed₂ : Placed k run₂ zombies₂ temp₂) :
    run₂ = run ∧ zombies₂ = zombies ∧ temp₂ = temp :=
  ⟨placed₂.runQueue.linked.unique placed.runQueue.linked,
    placed₂.zombiesQueue.linked.unique placed.zombiesQueue.linked,
    placed₂.tempQueue.linked.unique placed.tempQueue.linked⟩

theorem run_apart (placed : Placed k run zombies temp) (inside : x ∈ run) :
    x ∉ zombies ∧ x ∉ temp :=
  placed.held.run_apart inside

theorem zombies_apart (placed : Placed k run zombies temp) (inside : x ∈ zombies) :
    x ∉ run ∧ x ∉ temp :=
  placed.held.zombies_apart inside

theorem running_apart (placed : Placed k run zombies temp) (runs : running k = some x) :
    x ∉ run ∧ x ∉ zombies ∧ x ∉ temp :=
  placed.held.running_apart runs

/-- A change that leaves `next` alone moves no task. -/
theorem modify (placed : Placed k run zombies temp) {f : Task → Task}
    (keeps : ∀ task, (f task).next = task.next) :
    Placed { k with heap := k.heap.modify x f } run zombies temp :=
  placed.moved (placed.held.modify keeps)

end Placed

theorem CreateEffect.placed (effect : CreateEffect x k k' run) (fresh : k.heap x = none)
    (before : Placed k run zombies temp) : Placed k' (run ++ [x]) zombies temp := by
  refine (effect.held fresh before.held).placed fun y => ?_
  rw [effect.perm.mem_iff, List.mem_cons, ← before.everywhere]
  exact effect.allocated y

/-- What `schedule` does: the idle task alone enters the shell, every other call
switches to the head of `run_queue` and appends the task that ran to `run_queue`
or, when it has exited, to `zombies_queue`. -/
inductive ScheduleEffect (k k' : Kernel) (run zombies temp : List ℕ) : Prop
  | shell {c : ℕ} (current : k.current = some c) (idle : pidAt k.heap c = some 1)
      (alone : run = []) (placed : Placed k' [c] zombies temp) (inShell : k'.inShell = true)
      (pid : k'.pid = 2)
  | switch {c n : ℕ} {rest : List ℕ} (current : k.current = some c) (head : run = n :: rest)
      (next : k'.current = some n) (inShell : k'.inShell = false) (pid : k'.pid = k.pid)
      (placed : Placed k' (rest ++ [c]) zombies temp ∨ Placed k' rest (zombies ++ [c]) temp)

theorem Placed.schedule_returns (placed : Placed k run zombies temp) (outside : k.inShell = false)
    (returns : schedule fuel k = .ok k') :
    ScheduleEffect k k' run zombies temp ∧ pidAt k'.heap = pidAt k.heap ∧
      k'.tempQueue = k.tempQueue ∧ k'.signalExit = k.signalExit := by
  obtain ⟨move, links, temp_kept, quiet⟩ := placed.held.schedule_returns outside returns
  refine ⟨?_, pidAt_of_links links, temp_kept, quiet⟩
  cases move with
  | shell current idle alone moved inShell pid =>
    exact .shell current idle alone (placed.moved moved) inShell pid
  | requeue current head next inShell pid alive moved =>
    exact .switch current head next inShell pid (.inl (placed.moved moved))
  | retire current head next inShell pid exits moved =>
    exact .switch current head next inShell pid (.inr (placed.moved moved))

/-- `schedule` returns when a task waits. -/
theorem Placed.schedule_total (placed : Placed k run zombies temp) (outside : k.inShell = false)
    {c : ℕ} (current : k.current = some c) (waits : run ≠ []) :
    ∃ fuel k', schedule fuel k = .ok k' :=
  placed.held.schedule_total outside current waits

/-- What a search for a pid in `run_queue` leads to: nothing, or the removal of the
first task that has it. -/
inductive KillEffect (pid : ℕ) (k k' : Kernel) (run zombies temp : List ℕ) : Prop
  | none (absent : ∀ x ∈ run, pidAt k.heap x ≠ some pid) (same : k' = k)
  | moved {before after : List ℕ} {x : ℕ} {h : Heap Task} {r z : Option ℕ}
      (split : run = before ++ x :: after) (has : pidAt k.heap x = some pid)
      (state : k' = { k with heap := h, runQueue := r, zombiesQueue := z })
      (pids : pidAt h = pidAt k.heap)
      (placed : Placed k' (before ++ after) (zombies ++ [x]) temp)

theorem Placed.killThread_returns {pid : ℤ} (placed : Placed k run zombies temp)
    (returns : killThread fuel pid k = .ok k') :
    KillEffect (toU32 pid) k k' run zombies temp := by
  cases placed.held.killThread_returns returns with
  | none absent same => exact .none absent same
  | moved split has first state links moved =>
    exact .moved split has state (pidAt_of_links links) (placed.moved moved)

/-- What `kill_zombies` does: it frees the head of `zombies_queue`. -/
inductive ReapEffect (k k' : Kernel) (run zombies temp : List ℕ) : Prop
  | idle (empty : zombies = []) (same : k' = { k with zombiesQueue := none })
      (placed : Placed k' run [] temp)
  | reaped {x : ℕ} {rest : List ℕ} {z : Option ℕ} (head : zombies = x :: rest)
      (state : k' = { k with heap := k.heap.free x, zombiesQueue := z })
      (placed : Placed k' run rest temp)

theorem Placed.killZombies_returns {freed : List ℕ} (placed : Placed k run zombies temp)
    (returns : killZombies k = .ok (freed, k')) : ReapEffect k k' run zombies temp := by
  cases placed.held.killZombies_returns returns with
  | idle empty same held =>
    subst empty same
    exact .idle rfl rfl (held.placed placed.everywhere)
  | @reaped y rest z head state held =>
    subst head state
    refine .reaped rfl rfl (held.placed fun w => ?_)
    have perm : (places k run (y :: rest) temp).Perm (y :: places k run rest temp) := by
      refine List.perm_iff_count.mpr fun a => ?_
      simp only [places, List.count_append, List.count_cons]
      omega
    have once := List.nodup_cons.mp (perm.nodup_iff.mp placed.once)
    change (k.heap.free y w).isSome ↔ w ∈ places k run rest temp
    by_cases same : w = y
    · subst same
      exact ⟨fun here => by simp at here, fun inside => absurd inside once.1⟩
    · rw [Heap.free_of_ne same, placed.everywhere, perm.mem_iff, List.mem_cons]
      exact or_iff_right same

theorem Placed.removeTask_returns {pid : ℕ} (placed : Placed k run zombies temp)
    (returns : removeTask fuel pid k = .ok k') : RemoveEffect pid k k' run zombies :=
  placed.held.removeTask_returns returns

/-- What `add_to_queue` does: the task of `temp_queue` goes behind `run_queue`. -/
theorem Placed.addToQueue_returns (placed : Placed k run zombies temp)
    (returns : addToQueue fuel k = .ok k') :
    Placed k' (run ++ temp) zombies [] ∧ running k' = running k ∧ k'.inShell = k.inShell ∧
      k'.tempQueue = none := by
  obtain ⟨moved, -, rest⟩ := placed.held.addToQueue_returns returns
  exact ⟨placed.moved moved, rest⟩

/-- What `idle_thread` does: the head of `run_queue` becomes the running task. -/
theorem Placed.idleThread_returns {timer tick wrote freq : ℕ} (placed : Placed k run zombies temp)
    (inShell : k.inShell = true) (returns : idleThread fuel timer tick wrote freq k = .ok k') :
    Placed k' run.tail zombies temp ∧ k'.current = run.head? ∧ k'.inShell = false ∧
      k'.heap = k.heap ∧ k'.pid = k.pid ∧ k'.signalExit = k.signalExit := by
  obtain ⟨moved, rest⟩ := placed.held.idleThread_returns inShell returns
  exact ⟨placed.moved moved, rest⟩

end BareMetal.Sched
