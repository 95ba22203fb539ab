import BareMetal.CS.Transition
import BareMetal.Sched.Events

/-!
# Conservation of tasks without signals

Runs of `task_create`, `schedule`, `sysc_exit`, `sysc_kill`, `kill_zombies` and the
change from the shell to the idle task, from the state at boot. Signals are not
used, so `signal_exit` stays 0 and `temp_queue` null.

The pids of the running task and of those in `run_queue` lie below the counter.
`schedule` resets the counter to 2 only when the idle task, of pid 1, finds
`run_queue` empty, and no other pid is then in use.

A `History` adds to the state when each task entered `run_queue`, counted in steps.

## Main results

* `Run.tasks_conserved` — every task is in exactly one place, pids are distinct, and
  `schedule` picks the task that has waited longest
-/

namespace BareMetal.Sched

open CS

variable {k k' : Kernel} {run zombies run' zombies' : List ℕ} {fuel x : ℕ}

/-! ## The invariant -/

/-- The running task and those that wait. -/
def active (k : Kernel) (run : List ℕ) : List ℕ := (running k).toList ++ run

/-- Every task has its place, no signal is pending, and the pids in use are distinct
and below the counter. -/
structure Consistent (k : Kernel) (run zombies : List ℕ) : Prop where
  placed : Placed k run zombies []
  quiet : k.signalExit = 0
  counter : 0 < k.pid ∧ k.pid < 2 ^ 31
  below : ∀ x ∈ active k run, ∃ p : ℕ, pidAt k.heap x = some p ∧ (p : ℤ) < k.pid
  distinct : ∀ x ∈ active k run, ∀ y ∈ active k run, pidAt k.heap x = pidAt k.heap y → x = y

namespace Consistent

/-- Steps that start no task keep the pids in order. -/
theorem of_subset (inv : Consistent k run zombies) (placed : Placed k' run' zombies' [])
    (quiet : k'.signalExit = k.signalExit) (pid : k'.pid = k.pid)
    (sub : ∀ x ∈ active k' run', x ∈ active k run ∧ pidAt k'.heap x = pidAt k.heap x) :
    Consistent k' run' zombies' where
  placed := placed
  quiet := quiet.trans inv.quiet
  counter := by
    rw [pid]
    exact inv.counter
  below x hx := by
    obtain ⟨inside, same⟩ := sub x hx
    rw [same, pid]
    exact inv.below x inside
  distinct x hx y hy same := by
    obtain ⟨inside_x, same_x⟩ := sub x hx
    obtain ⟨inside_y, same_y⟩ := sub y hy
    rw [same_x, same_y] at same
    exact inv.distinct x inside_x y inside_y same

end Consistent

/-- A new task does not overflow the counter of pids. -/
def NoWrap (k : Kernel) (e : Event) : Prop := ∀ task, e = .create task → k.pid + 1 < 2 ^ 31

/-- What a step does to the lists: at most one task enters `run_queue`, as its last,
and `schedule` switches to the head. -/
structure StepEffect (k k' : Kernel) (e : Event) (run run' zombies' : List ℕ) : Prop where
  consistent : Consistent k' run' zombies'
  order : ∃ old new, run' = old ++ new ∧ old.Sublist run ∧ new.length ≤ 1 ∧ ∀ x ∈ new, x ∉ run
  next : e = .schedule → k'.inShell = false → run ≠ [] ∧ k'.current = run.head?

/-- Steps in which no task enters `run_queue`. -/
theorem StepEffect.of_sublist {e : Event} (consistent : Consistent k' run' zombies')
    (sub : run'.Sublist run)
    (next : e = .schedule → k'.inShell = false → run ≠ [] ∧ k'.current = run.head?) :
    StepEffect k k' e run run' zombies' where
  consistent := consistent
  order := ⟨run', [], (List.append_nil _).symm, sub, Nat.zero_le _, by simp⟩
  next := next

namespace Consistent

theorem create {chunks : Chunks} {func : Code} {mode : Mode}
    (inv : Consistent k run zombies) (fresh : k.heap chunks.task = none)
    (no_wrap : k.pid + 1 < 2 ^ 31) (returns : taskCreate fuel chunks func mode k = .ok (x, k')) :
    StepEffect k k' (.create x) run (run ++ [x]) zombies := by
  obtain ⟨rfl, effect⟩ := taskCreate_returns inv.placed.runQueue fresh returns
  obtain ⟨positive, bound⟩ := inv.counter
  have unplaced : ∀ y ∈ places k run zombies [], y ≠ chunks.task := by
    rintro y inside rfl
    have here := (inv.placed.everywhere _).mpr inside
    simp [fresh] at here
  have outside : ∀ y ∈ active k run, y ≠ chunks.task := by
    intro y hy
    apply unplaced
    simp only [active, places, List.mem_append] at hy ⊢
    tauto
  have members : ∀ y, y ∈ active k' (run ++ [chunks.task]) ↔
      y ∈ active k run ∨ y = chunks.task := by
    intro y
    simp only [active, effect.running, List.mem_append, List.mem_singleton, or_assoc]
  have counter : k'.pid = k.pid + 1 := by
    rw [effect.pid, toInt32, Int.bmod_def]
    omega
  have new_pid : pidAt k'.heap chunks.task = some k.pid.toNat := by
    rw [effect.pid_new, toU32]
    congr 2
    omega
  -- pids in use were below the counter, so the new one is different from them
  have old_pid : ∀ y ∈ active k run, ∃ p : ℕ, pidAt k'.heap y = some p ∧ (p : ℤ) < k.pid := by
    intro y hy
    rw [effect.pid_old y (outside y hy)]
    exact inv.below y hy
  refine ⟨⟨effect.placed fresh inv.placed, effect.signalExit.trans inv.quiet, by omega,
    fun y hy => ?_,
    fun y hy z hz same => ?_⟩,
    ⟨run, [chunks.task], rfl, List.Sublist.refl _, le_rfl, ?_⟩, by simp⟩
  · rcases (members y).mp hy with old | rfl
    · obtain ⟨p, has, below⟩ := old_pid y old
      exact ⟨p, has, by omega⟩
    · exact ⟨_, new_pid, by omega⟩
  · rcases (members y).mp hy with old | rfl <;> rcases (members z).mp hz with old' | rfl
    · rw [effect.pid_old y (outside y old), effect.pid_old z (outside z old')] at same
      exact inv.distinct y old z old' same
    · obtain ⟨p, has, below⟩ := old_pid y old
      rw [has, new_pid, Option.some.injEq] at same
      omega
    · obtain ⟨p, has, below⟩ := old_pid z old'
      rw [has, new_pid, Option.some.injEq] at same
      omega
    · rfl
  · intro y hy inside
    rw [List.mem_singleton.mp hy] at inside
    exact outside _ (List.mem_append_right _ inside) rfl

theorem schedule (inv : Consistent k run zombies) (runs : k.inShell = false)
    (returns : schedule fuel k = .ok k') :
    ∃ run' zombies', StepEffect k k' .schedule run run' zombies' := by
  obtain ⟨effect, pids, -, quiet⟩ := inv.placed.schedule_returns runs returns
  cases effect with
  | @shell c current idle alone placed inShell pid =>
    -- only the idle task is left, and its pid is 1
    subst alone
    have only : ∀ y ∈ active k' [c], y = c := by
      intro y hy
      simpa [active, running, inShell] using hy
    have has : pidAt k'.heap c = some 1 := by rw [pids, idle]
    refine ⟨[c], zombies, ⟨placed, quiet.trans inv.quiet, by omega, fun y hy => ?_,
      fun y hy z hz _ => (only y hy).trans (only z hz).symm⟩,
      ⟨[], [c], rfl, List.Sublist.refl _, le_rfl, fun y _ => List.not_mem_nil⟩, fun _ out => ?_⟩
    · rw [only y hy]
      exact ⟨1, has, by omega⟩
    · simp [inShell] at out
  | @switch c n rest current head next inShell pid placed =>
    subst head
    have was : running k = some c := by rw [running, runs, current]; rfl
    have now : running k' = some n := by rw [running, inShell, next]; rfl
    have apart := inv.placed.running_apart was
    have tail : rest.Sublist (n :: rest) := List.sublist_cons_self n rest
    have switched : ∀ e : Event, e = .schedule → k'.inShell = false →
        n :: rest ≠ [] ∧ k'.current = (n :: rest).head? := fun _ _ _ => ⟨by simp, next⟩
    rcases placed with placed | placed
    · refine ⟨_, _, inv.of_subset placed quiet pid fun y hy => ?_,
        ⟨rest, [c], rfl, tail, le_rfl, fun y hy => ?_⟩, switched _⟩
      · refine ⟨?_, by rw [pids]⟩
        simp only [active, was, now, Option.toList_some, List.mem_append, List.mem_cons] at hy ⊢
        tauto
      · rw [List.mem_singleton.mp hy]
        exact apart.1
    · refine ⟨_, _, .of_sublist (inv.of_subset placed quiet pid fun y hy => ?_) tail
        (switched _)⟩
      refine ⟨?_, by rw [pids]⟩
      simp only [active, was, now, Option.toList_some, List.mem_append, List.mem_cons] at hy ⊢
      tauto

theorem exit (inv : Consistent k run zombies) (returns : syscExit fuel k = .ok k') :
    StepEffect k k' .exit run run zombies := by
  obtain ⟨k₁, ended, c, current, rfl⟩ := syscExit_returns returns
  obtain ⟨-, rfl⟩ | ⟨pending, -⟩ := ended
  · have placed := inv.placed.modify (x := c) (f := Task.setState .exit) fun _ => rfl
    apply StepEffect.of_sublist
    · exact inv.of_subset placed rfl rfl fun y hy =>
        ⟨hy, pidAt_modify (f := Task.setState .exit) (fun _ => rfl) y⟩
    · exact List.Sublist.refl _
    · simp
  · exact absurd inv.quiet pending

theorem kill {pid : ℤ} (inv : Consistent k run zombies) (returns : syscKill fuel pid k = .ok k') :
    ∃ run' zombies', StepEffect k k' (.kill pid) run run' zombies' := by
  cases inv.placed.killThread_returns returns with
  | none absent same =>
    subst same
    exact ⟨run, zombies, .of_sublist inv (List.Sublist.refl _) (by simp)⟩
  | @moved before after y h r z split has state pids placed =>
    subst state
    refine ⟨_, _, .of_sublist (inv.of_subset placed rfl rfl fun w hw => ⟨?_, by rw [pids]⟩)
      ?_ (by simp)⟩
    · change w ∈ (running k).toList ++ _ at hw
      simp only [active, split, List.mem_append, List.mem_cons] at hw ⊢
      tauto
    · rw [split]
      exact (List.Sublist.refl before).append (List.sublist_cons_self y after)

theorem reap {freed : List ℕ} (inv : Consistent k run zombies)
    (returns : killZombies k = .ok (freed, k')) :
    ∃ zombies', StepEffect k k' (.reap freed) run run zombies' := by
  cases inv.placed.killZombies_returns returns with
  | idle empty same placed =>
    subst same empty
    exact ⟨_, .of_sublist (inv.of_subset placed rfl rfl fun y hy => ⟨hy, rfl⟩)
      (List.Sublist.refl _) (by simp)⟩
  | @reaped y rest z zombie state placed =>
    subst state zombie
    -- the task freed is a zombie, so no active one
    have apart : ∀ w ∈ active k run, w ≠ y := by
      rintro w hw rfl
      have once := inv.placed.once
      rw [places, ← List.append_assoc] at once
      exact (List.nodup_append.mp once).2.2 w hw w (by simp) rfl
    refine ⟨rest, .of_sublist (inv.of_subset placed rfl rfl fun w hw => ⟨hw, ?_⟩)
      (List.Sublist.refl _) (by simp)⟩
    change (k.heap.free y w).map Task.pid = (k.heap w).map Task.pid
    rw [Heap.free_of_ne (apart w hw)]

theorem leaveShell {timer tick wrote freq : ℕ} (inv : Consistent k run zombies)
    (inShell : k.inShell = true) (returns : idleThread fuel timer tick wrote freq k = .ok k') :
    StepEffect k k' .leaveShell run run.tail zombies := by
  obtain ⟨placed, current, outside, heap, pid, quiet⟩ :=
    inv.placed.idleThread_returns inShell returns
  have now : (running k').toList ++ run.tail = run := by
    rw [running, outside, current]
    cases run <;> rfl
  apply StepEffect.of_sublist
  · refine inv.of_subset placed quiet pid fun y hy => ⟨?_, by rw [heap]⟩
    rw [active, now] at hy
    exact List.mem_append_right _ hy
  · exact List.tail_sublist run
  · simp

/-- Every step has such an effect. -/
theorem step {e : Event} (inv : Consistent k run zombies) (step : Guarded Step NoWrap k e k') :
    ∃ run' zombies', StepEffect k k' e run run' zombies' := by
  obtain ⟨no_wrap, step⟩ := step
  cases step with
  | create fresh returns => exact ⟨_, _, inv.create fresh (no_wrap _ rfl) returns⟩
  | schedule runs returns => exact inv.schedule runs returns
  | exit runs returns => exact ⟨_, _, inv.exit returns⟩
  | kill returns => exact inv.kill returns
  | reap returns => exact ⟨_, inv.reap returns⟩
  | leaveShell inShell returns => exact ⟨_, _, inv.leaveShell inShell returns⟩

end Consistent

/-! ## Waiting times -/

/-- The task is in `run_queue`. -/
def Waits (k : Kernel) (x : ℕ) : Prop := ∃ run, Queue k.heap k.runQueue run ∧ x ∈ run

/-- The kernel, the step in which each waiting task entered `run_queue`, and the
number of steps so far. -/
structure History where
  kernel : Kernel
  since : ℕ → ℕ
  clock : ℕ

/-- A step of the kernel. Tasks that waited before keep their entry. -/
structure History.Step (s : History) (e : Event) (t : History) : Prop where
  kernel : Guarded Sched.Step NoWrap s.kernel e t.kernel
  clock : t.clock = s.clock + 1
  kept : ∀ x, Waits s.kernel x → t.since x = s.since x
  entered : ∀ x, ¬ Waits s.kernel x → t.since x = s.clock

/-- Every run has a history. -/
theorem exists_history {w : List Event} (steps : Run (Guarded Step NoWrap) k w k') :
    ∃ s, s.kernel = k' ∧ Run History.Step ⟨k, fun _ => 0, 0⟩ w s := by
  classical
  have forward : ∀ m e n s, History.kernel s = m → Guarded Step NoWrap m e n →
      ∃ t, History.Step s e t ∧ History.kernel t = n := by
    rintro _ e n s rfl step
    exact ⟨⟨n, fun x => if Waits s.kernel x then s.since x else s.clock, s.clock + 1⟩,
      ⟨step, rfl, fun x waits => if_pos waits, fun x idle => if_neg idle⟩, rfl⟩
  obtain ⟨s, steps', same⟩ := steps.simulate (r := fun m s => History.kernel s = m)
    (b := ⟨k, fun _ => 0, 0⟩) (fun m e n s => forward m e n s) rfl
  exact ⟨s, same, steps'⟩

/-- The kernel is consistent and the tasks of `run_queue` stand in the order in
which they entered it. -/
structure Fair (s : History) (tasks run zombies : List ℕ) : Prop where
  consistent : Consistent s.kernel run zombies
  alive : Alive s.kernel tasks
  order : run.Pairwise fun x y => s.since x < s.since y
  past : ∀ x ∈ run, s.since x < s.clock

theorem Consistent.waits (inv : Consistent k run zombies) : Waits k x ↔ x ∈ run := by
  constructor
  · rintro ⟨run', queue, inside⟩
    rwa [← queue.linked.unique inv.placed.runQueue.linked]
  · exact fun inside => ⟨run, inv.placed.runQueue, inside⟩

theorem Fair.step {s t : History} {e : Event} {tasks : List ℕ} (fair : Fair s tasks run zombies)
    (step : History.Step s e t) : ∃ run' zombies', Fair t (e.alive tasks) run' zombies' := by
  obtain ⟨run', zombies', effect⟩ := fair.consistent.step step.kernel
  obtain ⟨old, new, rfl, sub, short, outside⟩ := effect.order
  have kept : ∀ x ∈ old, t.since x = s.since x := fun x hx =>
    step.kept x (fair.consistent.waits.mpr (sub.subset hx))
  have entered : ∀ x ∈ new, t.since x = s.clock := fun x hx =>
    step.entered x (mt fair.consistent.waits.mp (outside x hx))
  have past : ∀ x ∈ old, s.since x < s.clock := fun x hx => fair.past x (sub.subset hx)
  refine ⟨_, _, effect.consistent, step.kernel.2.alive fair.alive, ?_, fun x hx => ?_⟩
  · refine List.pairwise_append.mpr ⟨?_, ?_, fun x hx y hy => ?_⟩
    · refine (fair.order.sublist sub).imp_of_mem fun hx hy before => ?_
      rwa [kept _ hx, kept _ hy]
    · match new, short with
      | [], _ => exact List.Pairwise.nil
      | [y], _ => exact List.pairwise_singleton _ y
    · rw [kept x hx, entered y hy]
      exact past x hx
  · rw [step.clock]
    rcases List.mem_append.mp hx with inside | inside
    · rw [kept x inside]
      exact Nat.lt_succ_of_lt (past x inside)
    · rw [entered x inside]
      exact Nat.lt_succ_self _

theorem Boot.fair (boot : Boot k) : Fair ⟨k, fun _ => 0, 0⟩ [] [] [] where
  consistent := by
    refine ⟨boot.placed, boot.signalExit, by rw [boot.pid]; omega, ?_, ?_⟩ <;>
      simp [active, running, boot.inShell]
  alive x := by simp [boot.heap]
  order := List.Pairwise.nil
  past := by simp

theorem Run.fair {s : History} {w : List Event} (boot : Boot k)
    (steps : Run History.Step ⟨k, fun _ => 0, 0⟩ w s) :
    ∃ run zombies, Fair s (alive w) run zombies := by
  induction steps with
  | refl => exact ⟨[], [], boot.fair⟩
  | snoc steps last ih =>
    obtain ⟨run, zombies, fair⟩ := ih
    obtain ⟨run', zombies', fair'⟩ := fair.step last
    refine ⟨run', zombies', ?_⟩
    rwa [alive, List.foldl_append]

/-- The tasks of a state are conserved: each is in one place, and their pids differ. -/
structure Conserved (k : Kernel) (tasks run zombies : List ℕ) : Prop where
  runQueue : Queue k.heap k.runQueue run
  zombiesQueue : Queue k.heap k.zombiesQueue zombies
  run_nodup : run.Nodup
  zombies_nodup : zombies.Nodup
  disjoint : run.Disjoint zombies
  apart : ∀ x, running k = some x → x ∉ run ∧ x ∉ zombies
  everywhere : ∀ x, x ∈ tasks ↔ running k = some x ∨ x ∈ run ∨ x ∈ zombies
  pids : ∀ x ∈ active k run, ∀ y ∈ active k run, pidAt k.heap x = pidAt k.heap y → x = y

theorem Fair.conserved {s : History} {tasks : List ℕ} (fair : Fair s tasks run zombies) :
    Conserved s.kernel tasks run zombies where
  runQueue := fair.consistent.placed.runQueue
  zombiesQueue := fair.consistent.placed.zombiesQueue
  run_nodup := fair.consistent.placed.runQueue.linked.nodup
  zombies_nodup := fair.consistent.placed.zombiesQueue.linked.nodup
  disjoint _ inside := (fair.consistent.placed.run_apart inside).1
  apart _ runs := by
    obtain ⟨not_run, not_zombie, -⟩ := fair.consistent.placed.running_apart runs
    exact ⟨not_run, not_zombie⟩
  everywhere x := by
    rw [← fair.alive, fair.consistent.placed.everywhere]
    simp [places, Option.mem_toList]
  pids := fair.consistent.distinct

/-- **Conservation.** After every run from boot each task created and not reaped is
running, in `run_queue` or in `zombies_queue`, and in one of them only; the pids in
use are distinct; `schedule` returns while a task waits, and a task it switches to
has waited longest. -/
theorem Run.tasks_conserved {s : History} {w : List Event} (boot : Boot k)
    (steps : Run History.Step ⟨k, fun _ => 0, 0⟩ w s) :
    (∃ run zombies, Conserved s.kernel (alive w) run zombies) ∧
      ((running s.kernel).isSome → (∃ x, Waits s.kernel x) →
        ∃ k', Guarded Step NoWrap s.kernel .schedule k') ∧
      ∀ t, History.Step s .schedule t → t.kernel.inShell = false →
        ∃ n, t.kernel.current = some n ∧ Waits s.kernel n ∧
          ∀ x, Waits s.kernel x → x ≠ n → s.since n < s.since x := by
  obtain ⟨run, zombies, fair⟩ := Run.fair boot steps
  refine ⟨⟨run, zombies, fair.conserved⟩, fun runs some_waits => ?_, fun t step outside => ?_⟩
  · obtain ⟨c, current⟩ := Option.isSome_iff_exists.mp runs
    obtain ⟨outside, current⟩ := running_eq_some.mp current
    obtain ⟨x, waits⟩ := some_waits
    have more : run ≠ [] := List.ne_nil_of_mem (fair.consistent.waits.mp waits)
    obtain ⟨fuel, k', returns⟩ := fair.consistent.placed.schedule_total outside current more
    exact ⟨k', by simp [NoWrap], .schedule outside returns⟩
  · obtain ⟨run', zombies', effect⟩ := fair.consistent.step step.kernel
    obtain ⟨more, next⟩ := effect.next rfl outside
    obtain ⟨n, rest, rfl⟩ := List.exists_cons_of_ne_nil more
    refine ⟨n, next, fair.consistent.waits.mpr List.mem_cons_self, fun x waits ne => ?_⟩
    have inside := fair.consistent.waits.mp waits
    exact (List.pairwise_cons.mp fair.order).1 x ((List.mem_cons.mp inside).resolve_left ne)

/-- The idle task is created and started, and then a second task is created. -/
theorem twoTasks_run :
    ∃ k, Run (Guarded Step NoWrap) bootKernel
      [.create 0x10000, .leaveShell, .create 0x20000] k := by
  have idle : taskCreate 1 (chunksAt 0x10000) .idleThread .kernel bootKernel = .ok (0x10000, _) :=
    rfl
  have first : Run (Guarded Step NoWrap) bootKernel _ _ :=
    Run.single ⟨fun _ _ => by decide, Step.create (by rfl) idle⟩
  have second := first.snoc ⟨by simp [NoWrap],
    Step.leaveShell rfl (show idleThread 1 0x900 0 0 64 _ = .ok _ from rfl)⟩
  exact ⟨_, second.snoc ⟨fun _ _ => by decide, Step.create (by rfl)
    (show taskCreate 1 (chunksAt 0x20000) (.function 0x80000) .user _ = .ok (0x20000, _) from rfl)⟩⟩

theorem twoTasks_conserved :
    ∃ s, Run History.Step ⟨bootKernel, fun _ => 0, 0⟩
        [.create 0x10000, .leaveShell, .create 0x20000] s ∧
      ∃ run zombies, Conserved s.kernel [0x20000, 0x10000] run zombies := by
  obtain ⟨k, steps⟩ := twoTasks_run
  obtain ⟨s, -, history⟩ := exists_history steps
  exact ⟨s, history, (Run.tasks_conserved bootKernel_boot history).1⟩

end BareMetal.Sched
