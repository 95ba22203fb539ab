import BareMetal.Sched.Idle
import BareMetal.Sched.Signals
import BareMetal.Timer.CoreTimer
import BareMetal.Timer.Order

/-!
# Preemption

The scheduler and the timers together. `irq_router` disables the core timer interrupt and
calls `pop_timer`, whose callback `normal_timer` adds the next timer and switches to
another task; the rest of `pop_timer` runs when the interrupted task comes back.
`schedule` disables the interrupt when the idle task enters the shell, and timers may
then still be pending.

A call of `add_timer` leaves the interrupt armed exactly under a condition on the state
before it: it does not enable the interrupt when an earlier timer is pending, and when it
sets the core timer, the delay counts from then on and not from the counter it has read.

## Main results

* `Run.armed_iff` — in a run, every return from `add_timer` leaves the interrupt armed
  exactly when every call meets this condition, and then `normal_timer` and `idle_thread`
  hand the CPU over with the interrupt armed
-/

namespace BareMetal.Sched

open CS Timer

variable {k k' : Kernel} {fuel timer tick wrote freq x : ℕ} {xs : List ℕ}

/-! ## The timers in the steps of the scheduler -/

theorem taskCreate_timers {chunks : Chunks} {func : Code} {mode : Mode}
    (returns : taskCreate fuel chunks func mode k = .ok (x, k')) : k'.timers = k.timers := by
  obtain ⟨⟨q, h⟩, -, last⟩ := outcome_bind_eq_ok.mp returns
  simp only [outcome_pure, Except.ok.injEq, Prod.mk.injEq] at last
  rw [← last.2]

/-- `schedule` disables the interrupt when the idle task enters the shell, and leaves the
timers alone otherwise. -/
theorem schedule_timers (outside : k.inShell = false) (returns : schedule fuel k = .ok k') :
    k'.inShell = false ∧ k'.timers = k.timers ∨
      k'.inShell = true ∧ k'.timers = coreTimerInterruptDisable k.timers := by
  obtain ⟨⟨next, q⟩, -, returns⟩ := outcome_bind_eq_ok.mp returns
  obtain ⟨h, -, returns⟩ := outcome_bind_eq_ok.mp returns
  obtain ⟨cur, -, returns⟩ := outcome_bind_eq_ok.mp returns
  dsimp only at returns
  split_ifs at returns with idle exits
  · obtain ⟨⟨q', h'⟩, -, last⟩ := outcome_bind_eq_ok.mp returns
    simp only [outcome_pure, Except.ok.injEq] at last
    subst last
    exact .inr ⟨rfl, rfl⟩
  all_goals
    obtain ⟨⟨q', h'⟩, -, last⟩ := outcome_bind_eq_ok.mp returns
    obtain ⟨n, -, rfl⟩ := switchTo_returns last
    exact .inl ⟨outside, rfl⟩

theorem killThread_timers {pid : ℤ} (returns : killThread fuel pid k = .ok k') :
    k'.timers = k.timers := by
  obtain ⟨result, -, returns⟩ := outcome_bind_eq_ok.mp returns
  rcases result with - | ⟨- | pre, cur, task⟩
  · simp only [outcome_pure, Except.ok.injEq] at returns
    rw [returns]
  · obtain ⟨⟨z, h⟩, -, last⟩ := outcome_bind_eq_ok.mp returns
    simp only [outcome_pure, Except.ok.injEq] at last
    rw [← last]
  · obtain ⟨h, -, returns⟩ := outcome_bind_eq_ok.mp returns
    obtain ⟨⟨z, h'⟩, -, last⟩ := outcome_bind_eq_ok.mp returns
    simp only [outcome_pure, Except.ok.injEq] at last
    rw [← last]

theorem syscExit_timers (returns : syscExit fuel k = .ok k') : k'.timers = k.timers := by
  obtain ⟨k₁, ended, c, -, rfl⟩ := syscExit_returns returns
  obtain ⟨-, rfl⟩ | ⟨-, killed⟩ := ended
  · rfl
  · have kept := killThread_timers killed
    exact kept

theorem killZombies_timers {freed : List ℕ} (returns : killZombies k = .ok (freed, k')) :
    k'.timers = k.timers := by
  obtain ⟨⟨cur, z⟩, -, returns⟩ := outcome_bind_eq_ok.mp returns
  cases cur with
  | none =>
    simp only [outcome_pure, Except.ok.injEq, Prod.mk.injEq] at returns
    rw [← returns.2]
  | some c =>
    obtain ⟨task, -, last⟩ := outcome_bind_eq_ok.mp returns
    simp only [outcome_pure, Except.ok.injEq, Prod.mk.injEq] at last
    rw [← last.2]

theorem removeTask_timers {pid : ℕ} (returns : removeTask fuel pid k = .ok k') :
    k'.timers = k.timers := by
  obtain ⟨result, -, returns⟩ := outcome_bind_eq_ok.mp returns
  rcases result with - | ⟨pre, cur, task⟩
  · simp only [outcome_pure, Except.ok.injEq] at returns
    rw [returns]
  · obtain ⟨h, -, returns⟩ := outcome_bind_eq_ok.mp returns
    obtain ⟨h', -, last⟩ := outcome_bind_eq_ok.mp returns
    simp only [outcome_pure, Except.ok.injEq] at last
    rw [← last]

theorem addToQueue_timers (returns : addToQueue fuel k = .ok k') : k'.timers = k.timers := by
  cases waiting : k.tempQueue with
  | none =>
    simp only [addToQueue, waiting, Except.ok.injEq] at returns
    rw [returns]
  | some y =>
    simp only [addToQueue, waiting] at returns
    obtain ⟨cur, -, returns⟩ := outcome_bind_eq_ok.mp returns
    obtain ⟨h, -, last⟩ := outcome_bind_eq_ok.mp returns
    simp only [outcome_pure, Except.ok.injEq] at last
    rw [← last]

theorem syscSignalKill_timers {chunks : Chunks} {pid : ℤ}
    (returns : syscSignalKill fuel chunks pid k = .ok k') : k'.timers = k.timers := by
  obtain ⟨target, -, returns⟩ := outcome_bind_eq_ok.mp returns
  obtain ⟨task, -, returns⟩ := outcome_bind_eq_ok.mp returns
  obtain ⟨k₁, removed, returns⟩ := outcome_bind_eq_ok.mp returns
  obtain ⟨⟨new, k₂⟩, created, returns⟩ := outcome_bind_eq_ok.mp returns
  obtain ⟨h, -, last⟩ := outcome_bind_eq_ok.mp returns
  simp only [outcome_pure, Except.ok.injEq] at last
  rw [← last]
  have kept := removeTask_timers removed
  exact (taskCreate_timers created).trans kept

/-- Except for the interrupt that it may disable, a step of the scheduler leaves the
timers alone. -/
theorem SysStep.timers {e : SysEvent} (other : e ≠ .task .leaveShell) (step : SysStep k e k') :
    k'.timers = k.timers ∨ k'.timers = coreTimerInterruptDisable k.timers := by
  cases step with
  | task step =>
    cases step with
    | create fresh returns => exact .inl (taskCreate_timers returns)
    | schedule runs returns =>
      exact (schedule_timers runs returns).imp (fun kept => kept.2) (fun shell => shell.2)
    | exit runs returns => exact .inl (syscExit_timers returns)
    | kill returns => exact .inl (killThread_timers returns)
    | reap returns => exact .inl (killZombies_timers returns)
    | leaveShell => exact absurd rfl other
  | signalKill fresh returns => exact .inl (syscSignalKill_timers returns)
  | addToQueue returns => exact .inl (addToQueue_timers returns)
  | clearSignalExit => exact .inl rfl
  | register returns =>
    obtain ⟨h, -, last⟩ := outcome_bind_eq_ok.mp returns
    simp only [outcome_pure, Except.ok.injEq] at last
    exact .inl (by rw [← last])

/-! ## Steps -/

/-- The kernel, and the timers whose callbacks have not come back. -/
structure Machine where
  kernel : Kernel
  popped : List ℕ

/-- The machine with other timers. -/
def Machine.setTimers (m : Machine) (timers : Timers Callback) : Machine :=
  { m with kernel := { m.kernel with timers := timers } }

/-- What happens in a step. -/
inductive MachineEvent
  | sys (e : SysEvent)
  | idleThread (timer tick wrote freq : ℕ)
  | addTimer (timer : ℕ) (callback : Callback) (msg : List UInt8) (time : ℤ) (tick wrote : ℕ)
  | irq (timer : ℕ)
  | finish (timer tick : ℕ)

/-- One step. The delay of `add_timer` is an `int`, and the frequency comes from a register of
32 bits. The counter is at `tick` when it is read, and at `wrote` when the core timer is set. -/
inductive MachineStep : Machine → MachineEvent → Machine → Prop
  | sys {m : Machine} {e : SysEvent} {k' : Kernel} (other : e ≠ .task .leaveShell)
      (step : SysStep m.kernel e k') : MachineStep m (.sys e) { m with kernel := k' }
  | idleThread {m : Machine} {k' : Kernel} {fuel timer tick wrote freq : ℕ}
      (fresh : m.kernel.timers.heap timer = none) (register : freq < 2 ^ 32)
      (inShell : m.kernel.inShell = true)
      (returns : idleThread fuel timer tick wrote freq m.kernel = .ok k') :
      MachineStep m (.idleThread timer tick wrote freq) { m with kernel := k' }
  | addTimer {m : Machine} {timers : Timers Callback} {fuel timer tick wrote : ℕ}
      {callback : Callback} {msg : List UInt8} {time : ℤ}
      (fresh : m.kernel.timers.heap timer = none) (low : -2 ^ 31 ≤ time) (high : time < 2 ^ 31)
      (returns : addTimer fuel timer callback msg time tick wrote m.kernel.timers = .ok timers) :
      MachineStep m (.addTimer timer callback msg time tick wrote) (m.setTimers timers)
  | irq {m : Machine} {k' : Kernel} {timer : ℕ} {r : TimerList Callback}
      (returns : irqTimer m.kernel = .ok (timer, r, k')) :
      MachineStep m (.irq timer) ⟨k', timer :: m.popped⟩
  | finish {m : Machine} {timers : Timers Callback} {timer tick wrote : ℕ}
      (running : timer ∈ m.popped)
      (returns : finishTimer timer tick wrote m.kernel.timers = .ok timers) :
      MachineStep m (.finish timer tick) ⟨(m.setTimers timers).kernel, m.popped.erase timer⟩

/-- What the event gives `add_timer`, if it calls it: the delay, and the counter at the reading
and when the core timer would be set. -/
def MachineEvent.added : MachineEvent → Option (ℤ × ℕ × ℕ)
  | .idleThread _ tick wrote freq => some ((freq / 2 ^ 5 : ℕ), tick, wrote)
  | .addTimer _ _ _ time tick wrote => some (time, tick, wrote)
  | _ => none

/-- `add_timer`, if the event calls it, finds the core timer so that it leaves it armed. -/
def ArmsCore (m : Machine) (e : MachineEvent) : Prop :=
  ∀ time tick wrote, e.added = some (time, tick, wrote) →
    Arms m.kernel.timers (toU64 (time + tick)) (toU64 (time + wrote))

/-- If the event has called `add_timer`, the interrupt is armed. -/
def LeavesArmed (e : MachineEvent) (m : Machine) : Prop :=
  e.added.isSome → Armed m.kernel.timers

/-- At boot no timer is pending. -/
structure MachineBoot (m : Machine) : Prop where
  kernel : Boot m.kernel
  timerQueue : m.kernel.timers.timerQueue = none
  popped : m.popped = []

/-- `timer_queue` is a list of timers, apart from those whose callbacks have not come back. -/
def TimersOk (m : Machine) : Prop := ∃ xs, Timer.Consistent ⟨m.kernel.timers, m.popped, 0⟩ xs

variable {m m' : Machine} {e : MachineEvent}

theorem MachineBoot.timersOk (boot : MachineBoot m) : TimersOk m := by
  refine ⟨[], ?_, by simp [boot.popped], by simp [boot.popped]⟩
  have empty : m.kernel.timers.timerQueue = none := boot.timerQueue
  rw [Timer.Queue, empty]
  exact .nil

/-- Disabling the interrupt leaves the queue alone. -/
theorem consistent_disable {s : Timers Callback} {popped : List ℕ} {clock : ℕ}
    (inv : Timer.Consistent ⟨s, popped, clock⟩ xs) :
    Timer.Consistent ⟨coreTimerInterruptDisable s, popped, clock⟩ xs :=
  ⟨inv.queue, inv.running, inv.distinct⟩

/-- The timer that `idle_thread` adds. -/
theorem idleThread_timers (returns : idleThread fuel timer tick wrote freq k = .ok k') :
    addTimer fuel timer .normalTimer normalTimerMsg (freq / 2 ^ 5 : ℕ) tick wrote k.timers =
      .ok k'.timers := by
  obtain ⟨⟨popTask, q⟩, -, returns⟩ := outcome_bind_eq_ok.mp returns
  obtain ⟨timers, added, last⟩ := outcome_bind_eq_ok.mp returns
  simp only [outcome_pure, Except.ok.injEq] at last
  rw [← last]
  exact added

/-- Every step keeps the timers in order. -/
theorem MachineStep.timersOk (step : MachineStep m e m') (inv : TimersOk m) : TimersOk m' := by
  obtain ⟨xs, inv⟩ := inv
  cases step with
  | @sys e k' other step =>
    refine ⟨xs, ?_⟩
    change Timer.Consistent ⟨k'.timers, m.popped, 0⟩ xs
    rcases step.timers other with kept | disabled
    · rw [kept]
      exact inv
    · rw [disabled]
      exact consistent_disable inv
  | idleThread fresh register inShell returns =>
    obtain ⟨ys, effect⟩ := inv.queue.addTimer_returns fresh ⟨_, idleThread_timers returns⟩
    exact ⟨ys, inv.of_add fresh effect⟩
  | addTimer fresh low high returns =>
    obtain ⟨ys, effect⟩ := inv.queue.addTimer_returns fresh ⟨_, returns⟩
    exact ⟨ys, inv.of_add fresh effect⟩
  | irq returns =>
    obtain ⟨⟨timer, first, timers⟩, unlinked, last⟩ := outcome_bind_eq_ok.mp returns
    simp only [outcome_pure, Except.ok.injEq, Prod.mk.injEq] at last
    obtain ⟨rfl, rfl, rfl⟩ := last
    obtain ⟨rest, -, inv', -⟩ := (consistent_disable inv).of_unlink 0 unlinked
    exact ⟨rest, inv'⟩
  | finish running returns => exact ⟨xs, (inv.of_finish running returns).1⟩

/-- The delay of `normal_timer` is a small `int`. -/
theorem normal_delay (register : freq < 2 ^ 32) :
    -2 ^ 31 ≤ ((freq / 2 ^ 5 : ℕ) : ℤ) ∧ ((freq / 2 ^ 5 : ℕ) : ℤ) < 2 ^ 31 := by
  omega

/-- A step leaves the interrupt armed exactly under the condition. -/
theorem MachineStep.leaves_armed_iff (inv : TimersOk m) (step : MachineStep m e m') :
    LeavesArmed e m' ↔ ArmsCore m e := by
  obtain ⟨xs, inv⟩ := inv
  cases step with
  | sys other step => simp [LeavesArmed, ArmsCore, MachineEvent.added]
  | idleThread fresh register inShell returns =>
    obtain ⟨low, high⟩ := normal_delay register
    have iff := inv.queue.addTimer_armed_iff fresh low high (idleThread_timers returns)
    simpa [LeavesArmed, ArmsCore, MachineEvent.added] using iff
  | addTimer fresh low high returns =>
    have iff := inv.queue.addTimer_armed_iff fresh low high returns
    simpa [LeavesArmed, ArmsCore, MachineEvent.added, Machine.setTimers] using iff
  | irq returns => simp [LeavesArmed, ArmsCore, MachineEvent.added]
  | finish running returns => simp [LeavesArmed, ArmsCore, MachineEvent.added]

/-- `normal_timer` is a call of `add_timer` and one of `schedule`. -/
theorem normalTimer_steps {k' : Kernel} (fresh : m.kernel.timers.heap timer = none)
    (register : freq < 2 ^ 32) (runs : m.kernel.inShell = false)
    (returns : normalTimer fuel timer tick wrote freq m.kernel = .ok k') :
    ∃ n, MachineStep m
        (.addTimer timer .normalTimer normalTimerMsg (freq / 2 ^ 5 : ℕ) tick wrote) n ∧
      MachineStep n (.sys (.task .schedule)) { n with kernel := k' } ∧
      (k'.inShell = false → k'.timers = n.kernel.timers) := by
  obtain ⟨timers, added, switched⟩ := outcome_bind_eq_ok.mp returns
  obtain ⟨low, high⟩ := normal_delay register
  have runs' : (m.setTimers timers).kernel.inShell = false := runs
  refine ⟨m.setTimers timers, .addTimer fresh low high added,
    .sys (by simp) (.task (.schedule runs' switched)), fun outside => ?_⟩
  rcases schedule_timers runs' switched with ⟨-, kept⟩ | ⟨inShell, -⟩
  · exact kept
  · simp [inShell] at outside

/-- **The timer interrupt is not lost** in the runs in which every call of `add_timer` finds
the core timer so that it leaves it armed, and in these only. In every reachable state
a call leaves it armed exactly under this condition, and then `normal_timer` and
`idle_thread` hand the CPU over with the interrupt armed. -/
theorem Run.armed_iff {m₀ : Machine} {w : List MachineEvent} (boot : MachineBoot m₀) :
    (Run (Guarded MachineStep ArmsCore) m₀ w m ↔
      Run (fun s e t => MachineStep s e t ∧ LeavesArmed e t) m₀ w m) ∧
    (Run MachineStep m₀ w m →
      (∀ e m', MachineStep m e m' → (LeavesArmed e m' ↔ ArmsCore m e)) ∧
      ∀ fuel timer tick wrote freq k', m.kernel.timers.heap timer = none → freq < 2 ^ 32 →
        m.kernel.inShell = false → normalTimer fuel timer tick wrote freq m.kernel = .ok k' →
        k'.inShell = false →
        (Armed k'.timers ↔ Arms m.kernel.timers (toU64 ((freq / 2 ^ 5 : ℕ) + tick))
          (toU64 ((freq / 2 ^ 5 : ℕ) + wrote)))) := by
  refine ⟨Run.guarded_iff_ends boot.timersOk (fun s e t inv step => step.timersOk inv)
    fun s e t inv step => step.leaves_armed_iff inv, fun steps => ?_⟩
  have inv : TimersOk m :=
    steps.preserves TimersOk (fun s e t inv step => step.timersOk inv) boot.timersOk
  refine ⟨fun e m' step => step.leaves_armed_iff inv, ?_⟩
  intro fuel timer tick wrote freq k' fresh register runs returns outside
  obtain ⟨n, added, -, kept⟩ := normalTimer_steps fresh register runs returns
  have iff := added.leaves_armed_iff inv
  rw [kept outside]
  simpa [LeavesArmed, ArmsCore, MachineEvent.added] using iff

/-! ## The shell -/

/-- The state at boot. -/
def bootMachine : Machine := ⟨bootKernel, []⟩

theorem bootMachine_boot : MachineBoot bootMachine := ⟨bootKernel_boot, rfl, rfl⟩

/-- The idle task is created. -/
theorem idleKernel_step :
    MachineStep bootMachine (.sys (.task (.create 0x10000))) ⟨idleKernel, []⟩ :=
  .sys (by simp) (.task (.create (by rfl) (show taskCreate 1 (chunksAt 0x10000)
    .idleThread .kernel bootKernel = .ok (0x10000, idleKernel) from rfl)))

/-- `Run.armed_iff` where the idle task starts: no timer is pending. -/
theorem idleStart_armed : ∃ m, MachineStep ⟨idleKernel, []⟩ (.idleThread 0x900 0 0 64) m ∧
    Armed m.kernel.timers := by
  have started : MachineStep ⟨idleKernel, []⟩ (.idleThread 0x900 0 0 64) _ :=
    .idleThread rfl (by decide) rfl (show idleThread 9 0x900 0 0 64 idleKernel = .ok _ from rfl)
  obtain ⟨exact_step, -⟩ := (Run.armed_iff bootMachine_boot).2 (Run.single idleKernel_step)
  refine ⟨_, started, (exact_step _ _ started).mpr (fun time tick wrote added => ?_) rfl⟩
  obtain ⟨rfl, rfl, rfl⟩ : ((64 / 2 ^ 5 : ℕ) : ℤ) = time ∧ 0 = tick ∧ 0 = wrote := by
    simpa [MachineEvent.added] using added
  exact ⟨[], .nil, .inl ⟨by simp, le_rfl, by simp⟩⟩

/-- The shell runs a task, which exits; the idle task enters the shell, which runs another. -/
def twoPrograms : List MachineEvent :=
  [.sys (.task (.create 0x10000)), .sys (.task (.create 0x20000)), .idleThread 0x900 0 0 64,
    .sys (.task .schedule), .sys (.task .exit), .sys (.task .schedule),
    .sys (.task (.reap [0x20000, 0x22000, 0x21000])), .sys (.task .schedule),
    .sys (.task (.create 0x20000)), .idleThread 0x980 10 10 64]

/-- The second call of `idle_thread` leaves the interrupt disabled, as the shell has found
it, since the timer of the first is still pending. -/
theorem twoPrograms_not_armed : ∃ m, Run MachineStep bootMachine twoPrograms m ∧
    running m.kernel = some 0x10000 ∧ m.kernel.timers.timerQueue = some 0x900 ∧
    ¬ Armed m.kernel.timers := by
  have r₁ := Run.single idleKernel_step
  have r₂ := r₁.snoc (.sys (by simp) (.task (.create (by rfl) (show taskCreate 9
    (chunksAt 0x20000) (.function 0x80000) .user idleKernel = .ok (0x20000, _) from rfl))))
  have r₃ := r₂.snoc (.idleThread rfl (by decide) rfl
    (show idleThread 9 0x900 0 0 64 _ = .ok _ from rfl))
  have r₄ := r₃.snoc (.sys (by simp) (.task (.schedule rfl (show schedule 9 _ = .ok _ from rfl))))
  have r₅ := r₄.snoc (.sys (by simp) (.task (.exit rfl (show syscExit 9 _ = .ok _ from rfl))))
  have r₆ := r₅.snoc (.sys (by simp) (.task (.schedule rfl (show schedule 9 _ = .ok _ from rfl))))
  have r₇ := r₆.snoc (.sys (by simp) (.task (.reap (show killZombies _ =
    .ok ([0x20000, 0x22000, 0x21000], _) from rfl))))
  have r₈ := r₇.snoc (.sys (by simp) (.task (.schedule rfl (show schedule 9 _ = .ok _ from rfl))))
  have r₉ := r₈.snoc (.sys (by simp) (.task (.create (by rfl) (show taskCreate 9
    (chunksAt 0x20000) (.function 0x80000) .user _ = .ok (0x20000, _) from rfl))))
  have r₁₀ := r₉.snoc (.idleThread rfl (by decide) rfl
    (show idleThread 9 0x980 10 10 64 _ = .ok _ from rfl))
  refine ⟨_, r₁₀, rfl, rfl, fun armed => ?_⟩
  exact Bool.false_ne_true armed.1

end BareMetal.Sched
