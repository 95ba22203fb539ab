import BareMetal.Sched.Killed

/-!
# The statements of `signal_handler_wrapper`

The wrapper runs in the task that `sysc_signal_kill` has created for the handler, and the timer
may preempt it between any two statements. `SignalMachine` has the scheduler and, for each task, the
point of the wrapper at which it is. A task that `sysc_fork` makes is where its parent is.

`sysc_exit` looks at `signal_exit` whoever calls it. From `sysc_signal_kill` on until the wrapper
clears it, the exit of any task ends the signal and kills its target.

## Main results

* `Held.exit_only_ends_iff` — an exit ends nothing but the task exactly if no signal is pending
* `Run.exits_only_end` — the runs in which each exit but that of the handler only ends its task
  are those in which no other task exits while a signal is pending
-/

namespace BareMetal.Sched

open CS

variable {k k' : Kernel} {run zombies temp : List ℕ} {fuel c : ℕ}

/-! ## Points and steps -/

/-- A statement of `signal_handler_wrapper` that comes next. -/
inductive Point
  /-- `if (_handler)` -/
  | test
  /-- `_handler()`, up to its return -/
  | handling
  /-- `add_to_queue()` -/
  | putBack
  /-- `sys_kill(signal_pid)` -/
  | giveUp
  /-- `signal_exit = 0` -/
  | clear
  /-- `sys_exit()` -/
  | leave
deriving DecidableEq, Repr

/-- What the next statement does to the scheduler, and the point behind it. -/
def Point.statement (k : Kernel) : Point → Option SysEvent × Point
  | .test => (none, if k.handler = .null then .giveUp else .handling)
  | .handling => (none, .putBack)
  | .putBack => (some .addToQueue, .clear)
  | .giveUp => (some (.task (.kill (toInt32 k.signalPid))), .clear)
  | .clear => (some .clearSignalExit, .leave)
  | .leave => (some (.task .exit), .leave)

/-- The scheduler, the points of the tasks that run the wrapper, and the task of the handler of
the last signal. -/
structure SignalMachine where
  kernel : Kernel
  point : ℕ → Option Point
  handlerTask : Option ℕ

namespace SignalMachine

variable (s : SignalMachine)

/-- The point of the task that runs. -/
def runningPoint : Option Point := (running s.kernel).bind s.point

/-- Code of the user runs, be it a handler, or the shell or the idle task. -/
def InUserCode : Prop := s.runningPoint = none ∨ s.runningPoint = some .handling

/-- The task that runs has not exited; one that has does nothing but call `schedule`. -/
def GoesOn : Prop := (running s.kernel).bind (stateAt s.kernel.heap) ≠ some .exit

instance : Decidable s.GoesOn := inferInstanceAs (Decidable (_ ≠ _))

/-- A task runs and is at a point. -/
def At (c : ℕ) (p : Point) : Prop := running s.kernel = some c ∧ s.point c = some p ∧ s.GoesOn

/-- A task goes on to a point. -/
def goTo (c : ℕ) (p : Point) (k : Kernel) : SignalMachine :=
  { s with kernel := k, point := Function.update s.point c (some p) }

/-- The points after a call that has led to `k`. -/
def after (e : SysEvent) (k : Kernel) : SignalMachine :=
  match e with
  | .task (.create task) =>
    { kernel := k
      point := Function.update s.point task s.runningPoint
      handlerTask := if s.handlerTask = some task then none else s.handlerTask }
  | .signalKill _ handlerTask =>
    { kernel := k
      point := Function.update s.point handlerTask (some .test)
      handlerTask := some handlerTask }
  | _ => { s with kernel := k }

/-- The task is that of the handler of the pending signal. -/
def IsHandler (c : ℕ) : Prop := s.kernel.signalExit ≠ 0 ∧ s.handlerTask = some c

end SignalMachine

/-- What happens in a step, if the scheduler takes part in it. -/
abbrev SignalAction := Option SysEvent

/-- Code outside the wrapper does not call these functions. -/
def SysEvent.Ordinary : SysEvent → Prop
  | .addToQueue => False
  | .clearSignalExit => False
  | _ => True

/-- One step: code of the user calls the kernel, the timer preempts the task that runs, or this
task executes its next statement of the wrapper. -/
inductive SignalStep : SignalMachine → SignalAction → SignalMachine → Prop
  | call {s : SignalMachine} {e : SysEvent} {k' : Kernel} (code : s.InUserCode) (goes_on : s.GoesOn)
      (ordinary : e.Ordinary) (step : SysStep s.kernel e k') : SignalStep s (some e) (s.after e k')
  | preempt {s : SignalMachine} {k' : Kernel} (step : SysStep s.kernel (.task .schedule) k') :
      SignalStep s (some (.task .schedule)) { s with kernel := k' }
  | statement {s : SignalMachine} {c : ℕ} {p p' : Point} {e : SysEvent} {k' : Kernel}
      (here : s.At c p) (does : p.statement s.kernel = (some e, p'))
      (step : SysStep s.kernel e k') : SignalStep s (some e) (s.goTo c p' k')
  | silent {s : SignalMachine} {c : ℕ} {p p' : Point} (here : s.At c p)
      (does : p.statement s.kernel = (none, p')) : SignalStep s none (s.goTo c p' s.kernel)

variable {s t : SignalMachine} {a : SignalAction}

@[simp] theorem SignalMachine.kernel_after (s : SignalMachine) (e : SysEvent) (k : Kernel) :
    (s.after e k).kernel = k := by
  cases e with
  | task e => cases e <;> rfl
  | _ => rfl

/-- The scheduler takes one of its steps or none. -/
theorem SignalStep.kernel (step : SignalStep s a t) :
    (a = none ∧ t.kernel = s.kernel) ∨ ∃ e, a = some e ∧ SysStep s.kernel e t.kernel := by
  cases step with
  | call _ _ _ step => exact .inr ⟨_, rfl, by rwa [SignalMachine.kernel_after]⟩
  | preempt step => exact .inr ⟨_, rfl, step⟩
  | statement _ _ step => exact .inr ⟨_, rfl, step⟩
  | silent => exact .inl ⟨rfl, rfl⟩

/-! ## Exits -/

/-- Nothing has changed but the state of one task: the queues, the states of the other tasks and
what is known of the pending signal are as before. -/
structure OnlyEnds (c : ℕ) (k k' : Kernel) : Prop where
  runQueue : ∀ xs, Queue k.heap k.runQueue xs → Queue k'.heap k'.runQueue xs
  zombiesQueue : ∀ xs, Queue k.heap k.zombiesQueue xs → Queue k'.heap k'.zombiesQueue xs
  tempQueue : ∀ xs, Queue k.heap k.tempQueue xs → Queue k'.heap k'.tempQueue xs
  state : ∀ x, x ≠ c → stateAt k'.heap x = stateAt k.heap x
  temp_eq : k'.tempQueue = k.tempQueue
  signalExit : k'.signalExit = k.signalExit
  signalPid : k'.signalPid = k.signalPid

/-- `kill_thread` leaves `signal_exit` and `tpidr_el1` alone. -/
theorem Held.killThread_same {pid : ℤ} (held : Held k run zombies temp)
    (returns : killThread fuel pid k = .ok k') :
    k'.signalExit = k.signalExit ∧ k'.current = k.current := by
  cases held.killThread_returns returns with
  | none _ same => rw [same]; exact ⟨rfl, rfl⟩
  | moved _ _ _ state => rw [state]; exact ⟨rfl, rfl⟩

/-- What `sysc_exit` does to `signal_exit`, and who calls it. -/
theorem Held.syscExit_same (held : Held k run zombies temp) (returns : syscExit fuel k = .ok k') :
    k'.signalExit = 0 ∧ ∃ c, k.current = some c := by
  obtain ⟨k₁, ended, c, current, rfl⟩ := syscExit_returns returns
  obtain ⟨quiet, rfl⟩ | ⟨-, killed⟩ := ended
  · exact ⟨quiet, c, current⟩
  · have held' : Held { k with signalExit := 0 } run zombies temp :=
      ⟨held.runQueue, held.zombiesQueue, held.tempQueue, held.once, held.present⟩
    obtain ⟨cleared, same⟩ := held'.killThread_same killed
    exact ⟨cleared, c, same.symm.trans current⟩

/-- **An exit only ends the task** exactly if no signal is pending: else it ends the signal too. -/
theorem Held.exit_only_ends_iff (held : Held k run zombies temp) (runs : running k = some c)
    (returns : syscExit fuel k = .ok k') : OnlyEnds c k k' ↔ k.signalExit = 0 := by
  constructor
  · intro only
    exact only.signalExit.symm.trans (held.syscExit_same returns).1
  · intro quiet
    obtain ⟨k₁, ⟨-, rfl⟩ | ⟨pending, -⟩, c', current, rfl⟩ := syscExit_returns returns
    · obtain rfl : c' = c := Option.some.inj (current.symm.trans (running_eq_some.mp runs).2)
      exact {
        runQueue := fun xs queue => queue.modify fun _ => rfl
        zombiesQueue := fun xs queue => queue.modify fun _ => rfl
        tempQueue := fun xs queue => queue.modify fun _ => rfl
        state := fun x other => congrArg (Option.map Task.state) (Heap.modify_of_ne other)
        temp_eq := rfl
        signalExit := rfl
        signalPid := rfl }
    · exact absurd quiet pending

/-- An exit, but for that of the handler of the pending signal, only ends the task. -/
def Spares (s : SignalMachine) (a : SignalAction) (t : SignalMachine) : Prop :=
  a = some (.task .exit) → ∀ c, running s.kernel = some c → ¬ s.IsHandler c →
    OnlyEnds c s.kernel t.kernel

/-- No task but that of the handler exits while a signal is pending. -/
def OwnExit (s : SignalMachine) (a : SignalAction) : Prop :=
  a = some (.task .exit) → s.kernel.signalExit = 0 ∨ running s.kernel = s.handlerTask

/-- The queues of the scheduler are in order. -/
def InOrder (s : SignalMachine) : Prop := ∃ run zombies temp, Held s.kernel run zombies temp

theorem SignalStep.in_order (step : SignalStep s a t) (inv : InOrder s) : InOrder t := by
  obtain ⟨run, zombies, temp, held⟩ := inv
  obtain ⟨-, same⟩ | ⟨e, -, step⟩ := step.kernel
  · rw [InOrder, same]
    exact ⟨run, zombies, temp, held⟩
  · obtain ⟨run', zombies', temp', confined⟩ := step.confined held
    exact ⟨run', zombies', temp', confined.held⟩

theorem SysStep.exit_returns (step : SysStep k (.task .exit) k') :
    ∃ fuel, k.inShell = false ∧ syscExit fuel k = .ok k' := by
  cases step with
  | task step =>
    cases step with
    | exit outside returns => exact ⟨_, outside, returns⟩

/-- A step spares all other tasks exactly if it is no exit during a signal. -/
theorem SignalStep.spares_iff (inv : InOrder s) (step : SignalStep s a t) :
    Spares s a t ↔ OwnExit s a := by
  obtain ⟨run, zombies, temp, held⟩ := inv
  obtain ⟨rfl, -⟩ | ⟨e, rfl, taken⟩ := step.kernel
  · exact iff_of_true (fun exits => absurd exits (by simp)) fun exits => absurd exits (by simp)
  · by_cases exits : e = .task .exit
    · subst exits
      obtain ⟨fuel, outside, returns⟩ := taken.exit_returns
      obtain ⟨c, current⟩ := (held.syscExit_same returns).2
      have runs := running_eq_some.mpr ⟨outside, current⟩
      have exact_exit := held.exit_only_ends_iff runs returns
      constructor
      · intro spares _
        by_cases handler : s.IsHandler c
        · exact .inr (runs.trans handler.2.symm)
        · exact .inl (exact_exit.mp (spares rfl c runs handler))
      · rintro own - c' runs' other
        obtain rfl : c' = c := Option.some.inj (runs'.symm.trans runs)
        apply exact_exit.mpr
        by_contra pending
        rcases own rfl with quiet | same
        · exact pending quiet
        · exact other ⟨pending, same.symm.trans runs⟩
    · exact iff_of_true (fun same => absurd (Option.some.inj same) exits)
        fun same => absurd (Option.some.inj same) exits

/-- The machine at boot. -/
structure SignalMachine.Boots (s : SignalMachine) : Prop where
  kernel : Boot s.kernel
  point : ∀ x, s.point x = none
  handlerTask : s.handlerTask = none

/-- **Exits only end the task that exits**, but for that of the handler of a pending signal, in
exactly the runs in which no other task exits while a signal is pending. -/
theorem Run.exits_only_end {w : List SignalAction} (boot : s.Boots) :
    Run (Guarded SignalStep OwnExit) s w t ↔
      Run (fun s a t => SignalStep s a t ∧ Spares s a t) s w t :=
  Run.guarded_iff_ends ⟨_, _, _, boot.kernel.placed.held⟩
    (fun _ _ _ inv step => step.in_order inv) fun _ _ _ inv step => step.spares_iff inv

/-! ## An exit while the wrapper is preempted -/

/-- The machine before `thread_init`. -/
def bootSignals : SignalMachine := ⟨bootKernel, fun _ => none, none⟩

theorem bootSignals_boots : bootSignals.Boots := ⟨bootKernel_boot, fun _ => rfl, rfl⟩

section Steps

variable {s₀ : SignalMachine} {w : List SignalAction} {e : SysEvent}
  (steps : Run (Guarded SignalStep OwnExit) s₀ w s)

include steps

/-- A run goes on with a call that is no exit. -/
theorem Run.snoc_call (step : SysStep s.kernel e k') (point : s.runningPoint = none)
    (goes_on : s.GoesOn) (ordinary : e.Ordinary) (no_exit : e ≠ .task .exit) :
    Run (Guarded SignalStep OwnExit) s₀ (w ++ [some e]) (s.after e k') :=
  steps.snoc ⟨fun exits => absurd (Option.some.inj exits) no_exit,
    .call (.inl point) goes_on ordinary step⟩

/-- A run goes on with a switch to another task. -/
theorem Run.snoc_preempt {fuel : ℕ} (outside : s.kernel.inShell = false)
    (returns : schedule fuel s.kernel = .ok k') :
    Run (Guarded SignalStep OwnExit) s₀ (w ++ [some (.task .schedule)]) { s with kernel := k' } :=
  steps.snoc ⟨fun exits => by simp at exits, .preempt (.task (.schedule outside returns))⟩

/-- A run goes on with a statement of the wrapper that is no exit. -/
theorem Run.snoc_statement (c : ℕ) (p p' : Point) (step : SysStep s.kernel e k') (here : s.At c p)
    (does : p.statement s.kernel = (some e, p')) (no_exit : e ≠ .task .exit) :
    Run (Guarded SignalStep OwnExit) s₀ (w ++ [some e]) (s.goTo c p' k') :=
  steps.snoc ⟨fun exits => absurd (Option.some.inj exits) no_exit, .statement here does step⟩

theorem Run.snoc_silent (c : ℕ) (p p' : Point) (here : s.At c p)
    (does : p.statement s.kernel = (none, p')) :
    Run (Guarded SignalStep OwnExit) s₀ (w ++ [none]) (s.goTo c p' s.kernel) :=
  steps.snoc ⟨fun exits => by simp at exits, .silent here does⟩

end Steps

/-- The idle task creates tasks 2 and 3. Task 2 registers a handler, task 3 signals task 2, and
the handler runs and puts task 2 back. -/
def putBackSignal : List SignalAction :=
  [some (.task (.create 0x10000)), some (.task .leaveShell), some (.task (.create 0x20000)),
    some (.task (.create 0x30000)), some (.task .schedule), some (.register (.function 0x90000)),
    some (.task .schedule), some (.signalKill 2 0x40000), some (.task .schedule),
    some (.task .schedule), none, none, some .addToQueue]

/-- The wrapper has put task 2 back. Task 3 may exit then, or after the next statement. -/
theorem putBackSignal_run : ∃ s, Run (Guarded SignalStep OwnExit) bootSignals putBackSignal s ∧
    (∃ t u, SignalStep s (some (.task .schedule)) t ∧ SignalStep t (some (.task .exit)) u ∧
      (running t.kernel = some 0x30000 ∧ t.handlerTask = some 0x40000) ∧
      Waits t.kernel 0x20000 ∧ Zombie u.kernel 0x20000 ∧ ¬ Spares t (some (.task .exit)) u) ∧
    ∃ t, Run (Guarded SignalStep OwnExit) s
      [some .clearSignalExit, some (.task .schedule), some (.task .exit)] t := by
  have r₀ : Run (Guarded SignalStep OwnExit) bootSignals [] bootSignals := .refl _
  have r₁ := Run.snoc_call r₀ (.task (.create (by rfl) (show taskCreate 9 (chunksAt 0x10000)
    .idleThread .kernel _ = .ok (0x10000, _) from rfl))) rfl (by decide) trivial (by decide)
  have r₂ := Run.snoc_call r₁ (.task (.leaveShell rfl
    (show idleThread 9 0x900 0 0 64 _ = .ok _ from rfl))) rfl (by decide) trivial (by decide)
  have r₃ := Run.snoc_call r₂ (.task (.create (by rfl) (show taskCreate 9 (chunksAt 0x20000)
    (.function 0x80000) .user _ = .ok (0x20000, _) from rfl))) rfl (by decide) trivial (by decide)
  have r₄ := Run.snoc_call r₃ (.task (.create (by rfl) (show taskCreate 9 (chunksAt 0x30000)
    (.function 0x80000) .user _ = .ok (0x30000, _) from rfl))) rfl (by decide) trivial (by decide)
  have r₅ := Run.snoc_preempt r₄ rfl (show schedule 9 _ = .ok _ from rfl)
  have r₆ := Run.snoc_call r₅ (.register (show syscRegister (.function 0x90000) _ = .ok _ from rfl))
    rfl (by decide) trivial (by decide)
  have r₇ := Run.snoc_preempt r₆ rfl (show schedule 9 _ = .ok _ from rfl)
  have r₈ := Run.snoc_call r₇ (.signalKill (by rfl)
    (show syscSignalKill 9 (chunksAt 0x40000) 2 _ = .ok _ from rfl)) rfl (by decide) trivial
    (by decide)
  have r₉ := Run.snoc_preempt r₈ rfl (show schedule 9 _ = .ok _ from rfl)
  have r₁₀ := Run.snoc_preempt r₉ rfl (show schedule 9 _ = .ok _ from rfl)
  have r₁₁ := Run.snoc_silent r₁₀ 0x40000 .test .handling ⟨rfl, rfl, by decide⟩ rfl
  have r₁₂ := Run.snoc_silent r₁₁ 0x40000 .handling .putBack ⟨rfl, rfl, by decide⟩ rfl
  have r₁₃ := Run.snoc_statement r₁₂ 0x40000 .putBack .clear
    (.addToQueue (show addToQueue 9 _ = .ok _ from rfl)) ⟨rfl, rfl, by decide⟩ rfl (by decide)
  have here : ∀ {w s}, Run (Guarded SignalStep OwnExit) bootSignals w s →
      Run (Guarded SignalStep OwnExit) s [] s := fun _ => .refl _
  refine ⟨_, r₁₃, ⟨_, _, .preempt (.task (.schedule rfl (show schedule 9 _ = .ok _ from rfl))),
    .call (.inl rfl) (by decide) trivial
      (.task (.exit rfl (show syscExit 9 _ = .ok _ from rfl))), ⟨rfl, rfl⟩, ?_, ?_, ?_⟩, ?_⟩
  · refine ⟨[0x10000, 0x20000, 0x40000], ⟨⟨rfl, rfl, rfl, rfl⟩, ?_⟩, by decide⟩
    simp only [List.mem_cons, List.not_mem_nil, or_false]
    rintro x (rfl | rfl | rfl) <;> rfl
  · refine ⟨[0x20000], ⟨⟨rfl, rfl⟩, ?_⟩, by decide⟩
    simp only [List.mem_singleton]
    rintro x rfl
    rfl
  · intro spares
    have only := spares rfl 0x30000 rfl fun handler => absurd handler.2 (by decide)
    exact absurd only.signalExit (by decide)
  · have q₁ := Run.snoc_statement (here r₁₃) 0x40000 .clear .leave .clearSignalExit
      ⟨rfl, rfl, by decide⟩ rfl (by decide)
    have q₂ := Run.snoc_preempt q₁ rfl (show schedule 9 _ = .ok _ from rfl)
    exact ⟨_, q₂.snoc ⟨fun _ => .inl rfl, .call (.inl rfl) (by decide) trivial
      (.task (.exit rfl (show syscExit 9 _ = .ok _ from rfl)))⟩⟩

/-- When task 3 exits behind `signal_exit = 0`, it only ends itself. -/
theorem exitAfterSignal_spares : ∃ t,
    Run (fun s a t => SignalStep s a t ∧ Spares s a t) bootSignals (putBackSignal ++
      [some .clearSignalExit, some (.task .schedule), some (.task .exit)]) t := by
  obtain ⟨s, steps, -, t, rest⟩ := putBackSignal_run
  exact ⟨t, (Run.exits_only_end bootSignals_boots).mp (steps.trans rest)⟩

/-- When task 3 exits in front of `signal_exit = 0`, it kills task 2, which waits. -/
theorem exitDuringSignal_kills : ∃ s t,
    Run SignalStep bootSignals (putBackSignal ++ [some (.task .schedule)]) s ∧
    SignalStep s (some (.task .exit)) t ∧ running s.kernel = some 0x30000 ∧
    ¬ s.IsHandler 0x30000 ∧ Waits s.kernel 0x20000 ∧ Zombie t.kernel 0x20000 ∧
    ¬ Spares s (some (.task .exit)) t := by
  obtain ⟨r, steps, ⟨s, t, switch, exits, ⟨runs, handler⟩, waits, zombie, hits⟩, -⟩ :=
    putBackSignal_run
  have weaker : Run SignalStep bootSignals putBackSignal r :=
    steps.mono fun _ _ _ step => step.2
  refine ⟨s, t, weaker.snoc switch, exits, runs, fun own => ?_, waits, zombie, hits⟩
  exact absurd (handler.symm.trans own.2) (by decide)

end BareMetal.Sched
