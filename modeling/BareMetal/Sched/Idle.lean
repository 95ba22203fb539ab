import BareMetal.Sched.Conservation

/-!
# The idle task

`thread_init` creates the idle task, of pid 1. `schedule` guards against an empty
`run_queue` only when the idle task calls it; for every other caller it relies on the
idle task waiting there.

`kill_thread` takes any pid, and pid 1 takes the idle task away. The runs in which the
idle task stays available are those that never kill it.

## Main results

* `Run.idle_ready` — in these runs the idle task runs or waits, and `schedule` called by
  another task has a task to switch to
-/

namespace BareMetal.Sched

open CS

variable {k k' : Kernel} {run zombies : List ℕ} {fuel idle x : ℕ}

/-- `thread_init` has been called at boot, and `idle` is the task it created. -/
def Started (idle : ℕ) (k : Kernel) : Prop :=
  ∃ k₀ chunks fuel, Boot k₀ ∧ chunks.task = idle ∧ threadInit fuel chunks k₀ = .ok k

/-- `kill_thread` finds the task: it is the first in `run_queue` with the pid. -/
def Hits (k : Kernel) (pid : ℤ) (x : ℕ) : Prop :=
  ∃ before after, Queue k.heap k.runQueue (before ++ x :: after) ∧
    pidAt k.heap x = some (toU32 pid) ∧ ∀ y ∈ before, pidAt k.heap y ≠ some (toU32 pid)

/-- The task is in `zombies_queue`. -/
def Zombie (k : Kernel) (x : ℕ) : Prop :=
  ∃ zombies, Queue k.heap k.zombiesQueue zombies ∧ x ∈ zombies

/-- No kill finds the idle task, and the idle task does not exit. -/
def SparesIdle (idle : ℕ) (k : Kernel) : Event → Prop
  | .kill pid => ¬ Hits k pid idle
  | .exit => k.current ≠ some idle
  | _ => True

/-- The idle task runs or waits, and goes on to do so. -/
structure IdleReady (idle : ℕ) (k : Kernel) (run zombies : List ℕ) : Prop where
  held : Held k run zombies []
  quiet : k.signalExit = 0
  ready : running k = some idle ∨ idle ∈ run
  pid : pidAt k.heap idle = some 1
  alive : stateAt k.heap idle ≠ some .exit

/-- The idle task is available. -/
def IdleAvailable (idle : ℕ) (k : Kernel) : Prop := ∃ run zombies, IdleReady idle k run zombies

theorem Started.available (started : Started idle k) : IdleAvailable idle k := by
  obtain ⟨k₀, chunks, fuel, boot, rfl, returns⟩ := started
  obtain ⟨⟨x, k₁⟩, created, last⟩ := outcome_bind_eq_ok.mp returns
  simp only [outcome_pure, Except.ok.injEq] at last
  subst last
  have fresh : k₀.heap chunks.task = none := by rw [boot.heap]
  obtain ⟨rfl, effect⟩ := taskCreate_returns boot.placed.runQueue fresh created
  refine ⟨_, [], effect.held fresh boot.placed.held, effect.signalExit.trans boot.signalExit,
    .inr (by simp), ?_, ?_⟩
  · rw [effect.pid_new, boot.pid]
    rfl
  · -- a new task is in the state `RUNNING`
    rw [taskCreate_state_new boot.placed.runQueue fresh created]
    simp

namespace IdleReady

/-- The idle task is allocated. -/
theorem allocated (inv : IdleReady idle k run zombies) : (k.heap idle).isSome := by
  have here := congrArg Option.isSome inv.pid
  rwa [pidAt, Option.isSome_map] at here

theorem not_zombie (inv : IdleReady idle k run zombies) : idle ∉ zombies := by
  rcases inv.ready with runs | waits
  · exact (inv.held.running_apart runs).2.1
  · exact (inv.held.run_apart waits).1

theorem create {chunks : Chunks} {func : Code} {mode : Mode} (inv : IdleReady idle k run zombies)
    (fresh : k.heap chunks.task = none)
    (returns : taskCreate fuel chunks func mode k = .ok (x, k')) : IdleAvailable idle k' := by
  have ne : idle ≠ chunks.task := by
    rintro rfl
    have here := inv.allocated
    simp [fresh] at here
  have state := taskCreate_state inv.held.runQueue fresh returns ne
  obtain ⟨rfl, effect⟩ := taskCreate_returns inv.held.runQueue fresh returns
  refine ⟨_, _, effect.held fresh inv.held, effect.signalExit.trans inv.quiet, ?_, ?_, ?_⟩
  · rw [effect.running]
    exact inv.ready.imp_right (List.mem_append_left _)
  · rw [effect.pid_old idle ne, inv.pid]
  · rw [state]
    exact inv.alive

theorem schedule (inv : IdleReady idle k run zombies) (runs : k.inShell = false)
    (returns : schedule fuel k = .ok k') : IdleAvailable idle k' := by
  obtain ⟨move, links, -, quiet⟩ := inv.held.schedule_returns runs returns
  have pid : pidAt k'.heap idle = some 1 := by rw [pidAt_of_links links, inv.pid]
  have alive : stateAt k'.heap idle ≠ some .exit := by
    rw [stateAt_of_links links]
    exact inv.alive
  replace quiet := quiet.trans inv.quiet
  -- the task that calls `schedule`
  have calls : ∀ {c}, k.current = some c → running k = some c := by
    intro c current
    rw [running, runs, current]
    rfl
  cases move with
  | @shell c current is_idle alone moved inShell =>
    subst alone
    have same : c = idle := by
      rcases inv.ready with ready | waits
      · exact Option.some.inj ((calls current).symm.trans ready)
      · exact absurd waits List.not_mem_nil
    exact ⟨[c], zombies, moved.held, quiet, .inr (by simp [same]), pid, alive⟩
  | @requeue c n rest current head next inShell _ _ moved =>
    subst head
    have now : running k' = some n := by rw [running, inShell, next]; rfl
    refine ⟨_, _, moved.held, quiet, ?_, pid, alive⟩
    rcases inv.ready with ready | waits
    · obtain rfl : c = idle := Option.some.inj ((calls current).symm.trans ready)
      exact .inr (by simp)
    · rcases List.mem_cons.mp waits with rfl | later
      · exact .inl now
      · exact .inr (List.mem_append_left _ later)
  | @retire c n rest current head next inShell _ exits moved =>
    subst head
    have now : running k' = some n := by rw [running, inShell, next]; rfl
    refine ⟨_, _, moved.held, quiet, ?_, pid, alive⟩
    rcases inv.ready with ready | waits
    · -- the idle task has not exited
      obtain rfl : c = idle := Option.some.inj ((calls current).symm.trans ready)
      exact absurd exits inv.alive
    · rcases List.mem_cons.mp waits with rfl | later
      · exact .inl now
      · exact .inr later

/-- A task that exits stays where it is; the idle task stays available exactly if the
caller is another one. -/
theorem exit_iff (inv : IdleReady idle k run zombies) (runs : k.inShell = false)
    (returns : syscExit fuel k = .ok k') :
    IdleAvailable idle k' ↔ k.current ≠ some idle := by
  obtain ⟨k₁, ended, c, current, rfl⟩ := syscExit_returns returns
  obtain ⟨-, rfl⟩ | ⟨pending, -⟩ := ended
  · constructor
    · rintro ⟨run', zombies', inv'⟩ same
      obtain rfl : idle = c := Option.some.inj (same.symm.trans current)
      apply inv'.alive
      obtain ⟨task, here⟩ := Option.isSome_iff_exists.mp inv.allocated
      change (k₁.heap.modify idle (Task.setState .exit) idle).map Task.state = some .exit
      rw [Heap.modify_self, here]
      rfl
    · intro other
      have ne : idle ≠ c := fun same => other (by rw [current, same])
      have moved := inv.held.modify (x := c) (f := Task.setState .exit) fun _ => rfl
      refine ⟨run, zombies, moved.held, inv.quiet, inv.ready, ?_, ?_⟩
      · change (k₁.heap.modify c (Task.setState .exit) idle).map Task.pid = some 1
        rw [Heap.modify_of_ne ne]
        exact inv.pid
      · change (k₁.heap.modify c (Task.setState .exit) idle).map Task.state ≠ some .exit
        rw [Heap.modify_of_ne ne]
        exact inv.alive
  · exact absurd inv.quiet pending

/-- The idle task stays available exactly if the kill does not find it. -/
theorem kill_iff {pid : ℤ} (inv : IdleReady idle k run zombies)
    (returns : syscKill fuel pid k = .ok k') : IdleAvailable idle k' ↔ ¬ Hits k pid idle := by
  constructor
  · rintro ⟨run', zombies', inv'⟩ ⟨before, after, queue, has, first⟩
    have split := inv.held.runQueue.linked.unique queue.linked
    obtain ⟨moved, -⟩ := inv.held.killThread_found returns split has first
    have zombie := inv'.not_zombie
    rw [inv'.held.zombiesQueue.linked.unique moved.held.zombiesQueue.linked] at zombie
    simp at zombie
  · intro misses
    cases inv.held.killThread_returns returns with
    | none absent same =>
      subst same
      exact ⟨run, zombies, inv⟩
    | @moved before after y h r z split has first state links moved =>
      subst state
      have other : idle ≠ y := by
        rintro rfl
        exact misses ⟨before, after, split ▸ inv.held.runQueue, has, first⟩
      refine ⟨_, _, moved.held, inv.quiet, ?_, ?_, ?_⟩
      · have ready := inv.ready
        rw [split] at ready
        simp only [List.mem_append, List.mem_cons] at ready ⊢
        exact ready.imp_right (by tauto)
      · exact (congrFun (pidAt_of_links links) idle).trans inv.pid
      · exact (congrFun (stateAt_of_links links) idle).trans_ne inv.alive

theorem reap {freed : List ℕ} (inv : IdleReady idle k run zombies)
    (returns : killZombies k = .ok (freed, k')) : IdleAvailable idle k' := by
  cases inv.held.killZombies_returns returns with
  | idle empty same held =>
    subst same empty
    exact ⟨_, _, held, inv.quiet, inv.ready, inv.pid, inv.alive⟩
  | @reaped y rest z head state held =>
    subst state head
    have ne : idle ≠ y := fun same => inv.not_zombie (by simp [same])
    refine ⟨_, _, held, inv.quiet, inv.ready, ?_, ?_⟩
    · change (k.heap.free y idle).map Task.pid = some 1
      rw [Heap.free_of_ne ne]
      exact inv.pid
    · change (k.heap.free y idle).map Task.state ≠ some .exit
      rw [Heap.free_of_ne ne]
      exact inv.alive

theorem leaveShell {timer tick wrote freq : ℕ} (inv : IdleReady idle k run zombies)
    (inShell : k.inShell = true) (returns : idleThread fuel timer tick wrote freq k = .ok k') :
    IdleAvailable idle k' := by
  obtain ⟨moved, current, outside, heap, -, quiet⟩ := inv.held.idleThread_returns inShell returns
  refine ⟨_, _, moved.held, quiet.trans inv.quiet, ?_, heap ▸ inv.pid, heap ▸ inv.alive⟩
  have waits : idle ∈ run := by
    rcases inv.ready with runs | waits
    · exact absurd (running_eq_some.mp runs).1 (by simp [inShell])
    · exact waits
  obtain ⟨n, rest, rfl⟩ := List.exists_cons_of_ne_nil (List.ne_nil_of_mem waits)
  rcases List.mem_cons.mp waits with rfl | later
  · exact .inl (running_eq_some.mpr ⟨outside, current⟩)
  · exact .inr later

end IdleReady

/-- A step keeps the idle task available exactly if it spares it. -/
theorem Step.idle_iff {e : Event} (inv : IdleAvailable idle k) (step : Step k e k') :
    IdleAvailable idle k' ↔ SparesIdle idle k e := by
  obtain ⟨run, zombies, inv⟩ := inv
  cases step with
  | create fresh returns => exact iff_of_true (inv.create fresh returns) trivial
  | schedule runs returns => exact iff_of_true (inv.schedule runs returns) trivial
  | exit runs returns => exact inv.exit_iff runs returns
  | kill returns => exact inv.kill_iff returns
  | reap returns => exact iff_of_true (inv.reap returns) trivial
  | leaveShell inShell returns => exact iff_of_true (inv.leaveShell inShell returns) trivial

/-- **There is always a next task** in the runs that spare the idle task: it runs or
waits, it is no zombie, and `schedule` called by another task finds a task to switch to.
These are the runs through states in which the idle task is available. -/
theorem Run.idle_ready {k₀ : Kernel} {w : List Event} (started : Started idle k₀) :
    (Run (Guarded Step (SparesIdle idle)) k₀ w k →
      (pidAt k.heap idle = some 1 ∧ (running k = some idle ∨ Waits k idle) ∧ ¬ Zombie k idle) ∧
        ∀ c, running k = some c → c ≠ idle →
          k.runQueue ≠ none ∧ ∃ fuel k', Sched.schedule fuel k = .ok k') ∧
    (Run (Guarded Step (SparesIdle idle)) k₀ w k ↔
      Run (fun s e t => Step s e t ∧ IdleAvailable idle t) k₀ w k) := by
  have exact_step : ∀ s e t, IdleAvailable idle s → Step s e t →
      (IdleAvailable idle t ↔ SparesIdle idle s e) := fun s e t inv step => step.idle_iff inv
  refine ⟨fun steps => ?_, Run.guarded_iff started.available exact_step⟩
  have available : IdleAvailable idle k := by
    refine steps.preserves (IdleAvailable idle) (fun s e t inv step => ?_) started.available
    exact (exact_step s e t inv step.2).mpr step.1
  obtain ⟨run, zombies, inv⟩ := available
  refine ⟨⟨inv.pid, inv.ready.imp_right fun waits => ⟨run, inv.held.runQueue, waits⟩, ?_⟩,
    fun c runs other => ?_⟩
  · rintro ⟨zombies', queue, inside⟩
    rw [queue.linked.unique inv.held.zombiesQueue.linked] at inside
    exact inv.not_zombie inside
  · have waits : idle ∈ run := by
      rcases inv.ready with ready | waits
      · exact absurd (Option.some.inj (runs.symm.trans ready)) other
      · exact waits
    have some_waits : run ≠ [] := List.ne_nil_of_mem waits
    obtain ⟨outside, current⟩ := running_eq_some.mp runs
    refine ⟨fun empty => ?_, inv.held.schedule_total outside current some_waits⟩
    have queue := inv.held.runQueue
    rw [empty] at queue
    exact some_waits queue.eq_nil

/-- The state after `thread_init`. -/
def idleKernel : Kernel :=
  { bootKernel with
    heap := bootKernel.heap.alloc 0x10000 (newTask (chunksAt 0x10000) .idleThread .kernel 1)
      |>.modify 0x10000 (Task.setNext none)
    runQueue := some 0x10000
    pid := 2 }

theorem idleKernel_started : Started 0x10000 idleKernel :=
  ⟨bootKernel, chunksAt 0x10000, 1, bootKernel_boot, rfl, rfl⟩

/-- After `thread_init` the idle task starts, creates a task and lets it run. -/
def secondRuns : List Event := [.leaveShell, .create 0x20000, .schedule]

theorem secondRuns_run : ∃ k, Run (Guarded Step (SparesIdle 0x10000)) idleKernel secondRuns k ∧
    k.inShell = false ∧ k.current = some 0x20000 ∧ k.runQueue = some 0x10000 ∧
    ∃ k', syscKill 9 1 k = .ok k' ∧ running k' = some 0x20000 ∧ k'.runQueue = none ∧
      Queue k'.heap k'.zombiesQueue [0x10000] ∧
      ∀ fuel, Sched.schedule fuel k' = .error .nullPointer := by
  have r₀ : Run (Guarded Step (SparesIdle 0x10000)) idleKernel [.leaveShell] _ :=
    Run.single ⟨trivial,
      Step.leaveShell rfl (show idleThread 9 0x900 0 0 64 idleKernel = .ok _ from rfl)⟩
  have r₁ := r₀.snoc ⟨show SparesIdle 0x10000 _ (.create 0x20000) from trivial,
    Step.create (by rfl) (show taskCreate 9 (chunksAt 0x20000) (.function 0x80000) .user _ =
      .ok (0x20000, _) from rfl)⟩
  have r₂ := r₁.snoc ⟨show SparesIdle 0x10000 _ .schedule from trivial,
    Step.schedule rfl (show schedule 9 _ = .ok _ from rfl)⟩
  refine ⟨_, r₂, rfl, rfl, rfl, _, rfl, rfl, rfl, ⟨⟨rfl, rfl⟩, fun x inside => ?_⟩, fun _ => rfl⟩
  obtain rfl := List.mem_singleton.mp inside
  rfl

/-- `Run.idle_ready` for this run. -/
theorem secondRuns_ready : ∃ k, k.current = some 0x20000 ∧ Waits k 0x10000 ∧
    ∃ fuel k', Sched.schedule fuel k = .ok k' := by
  obtain ⟨k, steps, outside, current, -⟩ := secondRuns_run
  obtain ⟨⟨-, ready, -⟩, next⟩ := (Run.idle_ready idleKernel_started).1 steps
  have runs : running k = some 0x20000 := running_eq_some.mpr ⟨outside, current⟩
  refine ⟨k, current, ?_, (next 0x20000 runs (by decide)).2⟩
  rcases ready with ready | waits
  · rw [runs] at ready
    exact absurd (Option.some.inj ready) (by decide)
  · exact waits

/-- Task 2 kills pid 1: the idle task is a zombie, and the next `schedule` passes a null
pointer to `switch_to`. -/
theorem killIdle_strands : ∃ k, Run Step idleKernel (secondRuns ++ [.kill 1]) k ∧
    (¬ (running k = some 0x10000 ∨ Waits k 0x10000) ∧ Zombie k 0x10000) ∧
    running k = some 0x20000 ∧ ∀ fuel, Sched.schedule fuel k = .error .nullPointer := by
  obtain ⟨k, steps, -, -, -, k', killed, runs, empty, zombie, strands⟩ := secondRuns_run
  have run := (steps.mono fun _ _ _ step => step.2).snoc (Step.kill killed)
  refine ⟨k', run, ⟨?_, [0x10000], zombie, by simp⟩, runs, strands⟩
  rintro (ready | ⟨waiting, queue, inside⟩)
  · rw [runs] at ready
    exact absurd (Option.some.inj ready) (by decide)
  · rw [empty] at queue
    rw [queue.eq_nil] at inside
    exact absurd inside List.not_mem_nil

end BareMetal.Sched
