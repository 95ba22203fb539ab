import BareMetal.Sched.Killed

/-!
# How long a task waits

`schedule` takes the head of `run_queue`, and whoever enters the queue goes to its end. So a
task with `n` others in front of it is the running task after `n + 1` calls of `schedule`,
whatever else happens in between, unless a kill or a signal takes it out of the queue.

## Main results

* `Ahead.step` — no step puts a task in front of one that waits
* `Run.dispatched` — the task runs by the `n + 1`st call
-/

namespace BareMetal.Sched

open CS

variable {k k' t : Kernel} {zombies temp : List ℕ} {fuel x n : ℕ} {e : SysEvent}

/-! ## Places in the queue -/

/-- The task waits with at most `n` tasks in front of it. -/
def Ahead (x n : ℕ) (k : Kernel) : Prop :=
  ∃ before after zombies temp, Held k (before ++ x :: after) zombies temp ∧ before.length ≤ n

/-- The step takes the task out of no queue: no kill, pending signal or signal has its pid. -/
def Passes (x : ℕ) (k : Kernel) : SysEvent → Prop
  | .task (.kill pid) => pidAt k.heap x ≠ some (toU32 pid)
  | .task .exit => k.signalExit ≠ 0 → pidAt k.heap x ≠ some (toU32 (toInt32 k.signalPid))
  | .signalKill pid _ => pidAt k.heap x ≠ some (toU64 pid)
  | _ => True

/-- The calls of `schedule` in a step. -/
def SysEvent.turns (e : SysEvent) : ℕ := if e = .task .schedule then 1 else 0

/-- The calls of `schedule` in a run. -/
def turns (w : List SysEvent) : ℕ := (w.map SysEvent.turns).sum

theorem turns_snoc (w : List SysEvent) (e : SysEvent) : turns (w ++ [e]) = turns w + e.turns := by
  simp [turns]

/-- What a step does to a task that waits: it runs, or it has come forward by the calls of
`schedule` in the step. -/
def Advances (x n : ℕ) (e : SysEvent) (k' : Kernel) : Prop :=
  running k' = some x ∨ ∃ m, Ahead x m k' ∧ m + e.turns ≤ n

/-- Taking another task out of a queue. -/
theorem exists_without {before after before' after' : List ℕ} {y : ℕ} (other : y ≠ x)
    (split : before ++ x :: after = before' ++ y :: after') :
    ∃ front back, before' ++ after' = front ++ x :: back ∧ front.length ≤ before.length := by
  rcases List.append_eq_append_iff.mp split with ⟨middle, low, high⟩ | ⟨middle, low, high⟩
  · cases middle with
    | nil => exact absurd (List.cons.inj high).1.symm other
    | cons z middle =>
      obtain ⟨rfl, rfl⟩ := List.cons.inj high
      exact ⟨before, middle ++ after', by simp [low], le_rfl⟩
  · cases middle with
    | nil => exact absurd (List.cons.inj high).1 other
    | cons z middle =>
      obtain ⟨rfl, rfl⟩ := List.cons.inj high
      exact ⟨before' ++ middle, after, by simp, by simp [low]⟩

/-! ## Steps -/

variable {before after : List ℕ}

/-- Steps other than `schedule` that leave the place of the task. -/
theorem Held.advances (held : Held k' (before ++ x :: after) zombies temp) (others : e.turns = 0)
    (near : before.length ≤ n) : Advances x n e k' :=
  .inr ⟨n, ⟨before, after, zombies, temp, held, near⟩, by omega⟩

theorem Held.kill_advances {pid : ℤ} (held : Held k (before ++ x :: after) zombies temp)
    (spared : pidAt k.heap x ≠ some (toU32 pid)) (returns : killThread fuel pid k = .ok k')
    (others : e.turns = 0) (near : before.length ≤ n) : Advances x n e k' := by
  cases held.killThread_returns returns with
  | none absent same =>
    subst same
    exact held.advances others near
  | moved split has first state links moved =>
    obtain ⟨front, back, same, short⟩ := exists_without
      (fun same => spared (by rw [← same]; exact has)) split
    have held' := moved.held
    rw [same] at held'
    exact held'.advances others (short.trans near)

theorem Held.schedule_advances (held : Held k (before ++ x :: after) zombies temp)
    (outside : k.inShell = false) (returns : schedule fuel k = .ok k')
    (near : before.length ≤ n) : Advances x n (.task .schedule) k' := by
  have turn : SysEvent.turns (.task .schedule) = 1 := rfl
  -- a task in front has become the running one, or the task itself has
  have switched : ∀ {c : ℕ} {rest zombies' temp' : List ℕ} (tail : List ℕ),
      before ++ x :: after = c :: rest → k'.current = some c → k'.inShell = false →
      Held k' (rest ++ tail) zombies' temp' → Advances x n (.task .schedule) k' := by
    intro c rest zombies' temp' tail head next inShell held'
    cases before with
    | nil =>
      obtain ⟨rfl, -⟩ := List.cons.inj head
      exact .inl (running_eq_some.mpr ⟨inShell, next⟩)
    | cons b before =>
      rw [List.cons_append] at head
      obtain ⟨rfl, rfl⟩ := List.cons.inj head
      rw [List.append_assoc, List.cons_append] at held'
      rw [List.length_cons] at near
      exact .inr ⟨n - 1, ⟨before, after ++ tail, zombies', temp', held', by omega⟩, by omega⟩
  cases (held.schedule_returns outside returns).1 with
  | shell current idle alone moved inShell pid => simp at alone
  | @requeue c _ _ current head next inShell pid alive moved =>
    exact switched [c] head next inShell moved.held
  | @retire c _ _ current head next inShell pid exits moved =>
    refine @switched _ _ (zombies ++ [c]) temp [] head next inShell ?_
    rw [List.append_nil]
    exact moved.held

theorem Step.advances {e : Event} (held : Held k (before ++ x :: after) zombies temp)
    (passes : Passes x k (.task e)) (step : Step k e k') (near : before.length ≤ n) :
    Advances x n (.task e) k' := by
  cases step with
  | create fresh returns =>
    obtain ⟨rfl, effect⟩ := taskCreate_returns held.runQueue fresh returns
    have held' := effect.held fresh held
    rw [List.append_assoc, List.cons_append] at held'
    exact held'.advances rfl near
  | schedule runs returns => exact held.schedule_advances runs returns near
  | exit runs returns =>
    obtain ⟨k₁, ended, c, -, rfl⟩ := syscExit_returns returns
    -- the mark of the task that exits moves nothing in the queues
    have marks : ∀ {m : ℕ}, Ahead x m k₁ →
        Ahead x m { k₁ with heap := k₁.heap.modify c (Task.setState .exit) } := by
      rintro m ⟨front, back, zombies', temp', held', short⟩
      exact ⟨front, back, zombies', temp',
        (held'.modify (x := c) (f := Task.setState .exit) fun _ => rfl).held, short⟩
    obtain ⟨-, rfl⟩ | ⟨pending, killed⟩ := ended
    · exact .inr ⟨n, marks ⟨before, after, zombies, temp, held, near⟩, by simp [SysEvent.turns]⟩
    · -- the pending signal kills its target first
      have held' : Held { k with signalExit := 0 } (before ++ x :: after) zombies temp :=
        ⟨held.runQueue, held.zombiesQueue, held.tempQueue, held.once, held.present⟩
      rcases held'.kill_advances (e := .clearSignalExit) (passes pending) killed rfl near with
        runs' | ⟨m, waits, short⟩
      · exact .inl runs'
      · exact .inr ⟨m, marks waits, by simpa [SysEvent.turns] using short⟩
  | kill returns => exact held.kill_advances passes returns rfl near
  | reap returns =>
    cases held.killZombies_returns returns with
    | idle empty same held' =>
      subst same
      exact held'.advances rfl near
    | reaped head state held' =>
      subst state
      exact held'.advances rfl near
  | leaveShell inShell returns =>
    obtain ⟨moved, next, outside, -⟩ := held.idleThread_returns inShell returns
    cases before with
    | nil => exact .inl (running_eq_some.mpr ⟨outside, next⟩)
    | cons b before =>
      have held' : Held k' (before ++ x :: after) zombies temp := moved.held
      exact held'.advances rfl ((Nat.le_succ _).trans near)

/-- **No step** puts a task in front of one that waits. -/
theorem Ahead.step (waits : Ahead x n k) (step : Guarded SysStep (Passes x) k e k') :
    Advances x n e k' := by
  obtain ⟨before, after, zombies, temp, held, near⟩ := waits
  obtain ⟨passes, step⟩ := step
  cases step with
  | task step => exact step.advances held passes near
  | @signalKill _ chunks pid fuel fresh returns =>
    obtain ⟨before', after', y, effect⟩ := syscSignalKill_returns held fresh returns
    have other : y ≠ x := fun same => passes (same ▸ effect.has)
    obtain ⟨front, back, same, short⟩ := exists_without other effect.split
    have held' := effect.held held fresh
    rw [same, List.append_assoc, List.cons_append] at held'
    exact held'.advances rfl (short.trans near)
  | addToQueue returns =>
    have held' := (held.addToQueue_returns returns).1.held
    rw [List.append_assoc, List.cons_append] at held'
    exact held'.advances rfl near
  | clearSignalExit =>
    have held' : Held (clearSignalExit k) (before ++ x :: after) zombies temp :=
      ⟨held.runQueue, held.zombiesQueue, held.tempQueue, held.once, held.present⟩
    exact held'.advances rfl near
  | @register _ handler returns =>
    obtain ⟨h, written, last⟩ := outcome_bind_eq_ok.mp returns
    simp only [outcome_pure, Except.ok.injEq] at last
    obtain ⟨c, -, -, rfl⟩ := Heap.write_eq_ok.mp written
    subst last
    have moved := held.modify (x := c) (f := fun t => { t with handler := handler }) fun _ => rfl
    exact moved.held.advances rfl near

/-! ## Runs -/

/-- Along a run the task comes forward until it runs. -/
theorem Ahead.run {w : List SysEvent} (waits : Ahead x n k)
    (steps : Run (Guarded SysStep (Passes x)) k w t) :
    (∃ u k₁, u <+: w ∧ Run SysStep k u k₁ ∧ running k₁ = some x ∧ turns u ≤ n + 1) ∨
      ∃ m, Ahead x m t ∧ m + turns w ≤ n := by
  induction steps with
  | refl => exact .inr ⟨n, waits, le_rfl⟩
  | @snoc m t w e steps last ih =>
    rcases ih with ⟨u, k₁, front, early, runs, few⟩ | ⟨m', still, few⟩
    · exact .inl ⟨u, k₁, front.trans (List.prefix_append w [e]), early, runs, few⟩
    · rcases still.step last with runs | ⟨m'', closer, few'⟩
      · have one : e.turns ≤ 1 := by
          rw [SysEvent.turns]
          split_ifs <;> omega
        exact .inl ⟨w ++ [e], t, List.prefix_refl _,
          (steps.mono fun _ _ _ step => step.2).snoc last.2, runs, by rw [turns_snoc]; omega⟩
      · exact .inr ⟨m'', closer, by rw [turns_snoc]; omega⟩

/-- **Round robin.** In every reachable state a task with some tasks in front of it in
`run_queue` is the running task by the time all of them have had their turn and `schedule` is
called once more, if no kill and no signal has its pid until then. -/
theorem Run.dispatched {k₀ : Kernel} {v w : List SysEvent} {before after : List ℕ} (boot : Boot k₀)
    (start : Run SysStep k₀ v k) (queue : Queue k.heap k.runQueue (before ++ x :: after))
    (steps : Run (Guarded SysStep (Passes x)) k w t) (enough : before.length < turns w) :
    ∃ u k₁, u <+: w ∧ Run SysStep k u k₁ ∧ running k₁ = some x ∧
      turns u ≤ before.length + 1 := by
  obtain ⟨run, zombies, temp, held⟩ := Run.held boot start
  obtain rfl : run = before ++ x :: after := held.runQueue.linked.unique queue.linked
  have waits : Ahead x before.length k := ⟨before, after, zombies, temp, held, le_rfl⟩
  rcases waits.run steps with early | ⟨m, -, few⟩
  · exact early
  · omega

/-- `Run.dispatched` for the task at the head when a signal is pending. -/
theorem firstSignal_dispatched : ∃ k t, Run SysStep bootKernel firstSignal k ∧
    Run SysStep k [.task .schedule] t ∧ ∃ u k₁, u <+: [.task .schedule] ∧ Run SysStep k u k₁ ∧
      running k₁ = some 0x30000 ∧ turns u ≤ 1 := by
  obtain ⟨k, steps, -, runs, queue, -⟩ := firstSignal_run
  have start := steps.mono fun _ _ _ step => step.2
  obtain ⟨run, zombies, temp, held⟩ := Run.held bootKernel_boot start
  obtain rfl := held.runQueue.linked.unique queue.linked
  obtain ⟨outside, current⟩ := running_eq_some.mp runs
  obtain ⟨fuel, t, returns⟩ := held.schedule_total outside current (by simp)
  have turn : Run (Guarded SysStep (Passes 0x30000)) k [.task .schedule] t :=
    CS.Run.single ⟨trivial, .task (.schedule outside returns)⟩
  have queue' : Queue k.heap k.runQueue ([] ++ 0x30000 :: [0x50000, 0x10000, 0x60000]) := queue
  exact ⟨k, t, start, turn.mono fun _ _ _ step => step.2,
    Run.dispatched bootKernel_boot start queue' turn (by decide)⟩

end BareMetal.Sched
