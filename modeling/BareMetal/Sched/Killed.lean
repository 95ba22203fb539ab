import BareMetal.Sched.Idle
import BareMetal.Sched.Signals
import Mathlib.Data.Fintype.EquivFin

/-!
# Killed tasks

`sysc_kill` returns 0 whatever it has done: it looks for the pid in `run_queue` only, and
so misses the caller and a task that a signal holds in `temp_queue`.

A task that it finds goes to `zombies_queue` and never comes back; a task that it misses
can run again.

## Main results

* `Run.killed_iff` — a live task never runs again after `sysc_kill` exactly if the
  call finds it
-/

namespace BareMetal.Sched

open CS

variable {k k' t : Kernel} {run zombies temp run' zombies' temp' : List ℕ} {fuel x : ℕ}

/-! ## Tasks that can run -/

/-- The tasks that run, wait or are suspended. -/
def runnable (k : Kernel) (run temp : List ℕ) : List ℕ := (running k).toList ++ (run ++ temp)

/-- The event makes a task of the chunk at `x`. -/
def SysEvent.creates (e : SysEvent) (x : ℕ) : Prop :=
  e = .task (.create x) ∨ ∃ pid, e = .signalKill pid x

/-- The queues after a step, in which only a new task has become able to run. -/
structure Confined (e : SysEvent) (k k' : Kernel) (run temp run' zombies' temp' : List ℕ) :
    Prop where
  held : Held k' run' zombies' temp'
  from_before : ∀ x ∈ runnable k' run' temp', x ∈ runnable k run temp ∨ e.creates x

theorem mem_places_iff : x ∈ places k run zombies temp ↔ x ∈ runnable k run temp ∨ x ∈ zombies := by
  simp only [places, runnable, List.mem_append]
  tauto

/-- Zombies cannot run. -/
theorem Held.zombie_not_runnable (held : Held k run zombies temp) (inside : x ∈ zombies) :
    x ∉ runnable k run temp := by
  simp only [runnable, List.mem_append, Option.mem_toList, not_or]
  obtain ⟨not_run, not_temp⟩ := held.zombies_apart inside
  exact ⟨fun runs => (held.running_apart runs).2.1 inside, not_run, not_temp⟩

/-- Tasks that move while the zombies stay zombies. -/
theorem Moved.confined {e : SysEvent} (moved : Moved k k' run zombies temp run' zombies' temp')
    (zombies_kept : zombies ⊆ zombies') : Confined e k k' run temp run' zombies' temp' := by
  refine ⟨moved.held, fun x inside => ?_⟩
  have placed : x ∈ places k run zombies temp := by
    rw [← moved.perm.mem_iff, mem_places_iff]
    exact .inl inside
  rcases mem_places_iff.mp placed with before | zombie
  · exact .inl before
  · exact absurd inside (moved.held.zombie_not_runnable (zombies_kept zombie))

theorem Held.kill_confined {pid : ℤ} (e : SysEvent) (held : Held k run zombies temp)
    (returns : killThread fuel pid k = .ok k') :
    ∃ run' zombies' temp', Confined e k k' run temp run' zombies' temp' := by
  cases held.killThread_returns returns with
  | none absent same =>
    subst same
    exact ⟨_, _, _, held, fun _ inside => .inl inside⟩
  | moved split has first state links moved =>
    exact ⟨_, _, _, moved.confined (List.subset_append_left _ _)⟩

theorem Step.confined {e : Event} (held : Held k run zombies temp) (step : Step k e k') :
    ∃ run' zombies' temp', Confined (.task e) k k' run temp run' zombies' temp' := by
  cases step with
  | @create _ chunks func mode fuel x fresh returns =>
    obtain ⟨rfl, effect⟩ := taskCreate_returns held.runQueue fresh returns
    refine ⟨_, _, _, effect.held fresh held, fun y inside => ?_⟩
    simp only [runnable, effect.running, List.mem_append, List.mem_singleton] at inside ⊢
    rw [SysEvent.creates, SysEvent.task.injEq, Event.create.injEq]
    tauto
  | schedule runs returns =>
    cases (held.schedule_returns runs returns).1 with
    | shell _ _ _ moved => exact ⟨_, _, _, moved.confined (List.Subset.refl _)⟩
    | requeue _ _ _ _ _ _ moved => exact ⟨_, _, _, moved.confined (List.Subset.refl _)⟩
    | retire _ _ _ _ _ _ moved => exact ⟨_, _, _, moved.confined (List.subset_append_left _ _)⟩
  | exit runs returns =>
    obtain ⟨k₁, ended, c, -, rfl⟩ := syscExit_returns returns
    obtain ⟨-, rfl⟩ | ⟨-, killed⟩ := ended
    · have moved := held.modify (x := c) (f := Task.setState .exit) fun _ => rfl
      exact ⟨_, _, _, moved.confined (List.Subset.refl _)⟩
    · -- the pending signal kills its target first
      have held' : Held { k with signalExit := 0 } run zombies temp :=
        ⟨held.runQueue, held.zombiesQueue, held.tempQueue, held.once, held.present⟩
      obtain ⟨run', zombies', temp', confined⟩ := held'.kill_confined (.task .exit) killed
      have moved := confined.held.modify (x := c) (f := Task.setState .exit) fun _ => rfl
      exact ⟨_, _, _, moved.held, confined.from_before⟩
  | kill returns => exact held.kill_confined _ returns
  | reap returns =>
    cases held.killZombies_returns returns with
    | idle empty same held =>
      subst same
      exact ⟨_, _, _, held, fun _ inside => .inl inside⟩
    | reaped head state held =>
      subst state
      exact ⟨_, _, _, held, fun _ inside => .inl inside⟩
  | leaveShell inShell returns =>
    have moved := (held.idleThread_returns inShell returns).1
    exact ⟨_, _, _, moved.confined (List.Subset.refl _)⟩

/-- Every step keeps the queues in order and lets only new tasks become able to run. -/
theorem SysStep.confined {e : SysEvent} (held : Held k run zombies temp) (step : SysStep k e k') :
    ∃ run' zombies' temp', Confined e k k' run temp run' zombies' temp' := by
  cases step with
  | task step => exact step.confined held
  | @signalKill _ chunks pid fuel fresh returns =>
    obtain ⟨before, after, y, effect⟩ := syscSignalKill_returns held fresh returns
    refine ⟨_, _, _, effect.held held fresh, fun z inside => ?_⟩
    rw [SysEvent.creates]
    simp only [runnable, effect.running, effect.split, List.mem_append, List.mem_cons,
      List.not_mem_nil, or_false] at inside ⊢
    rcases inside with runs | ((waits | waits) | rfl) | rfl
    · exact .inl (.inl runs)
    · exact .inl (.inr (.inl (.inl waits)))
    · exact .inl (.inr (.inl (.inr (.inr waits))))
    · exact .inr (.inr ⟨pid, rfl⟩)
    · exact .inl (.inr (.inl (.inr (.inl rfl))))
  | addToQueue returns =>
    have moved := (held.addToQueue_returns returns).1
    exact ⟨_, _, _, moved.confined (List.Subset.refl _)⟩
  | clearSignalExit =>
    exact ⟨run, zombies, temp,
      ⟨held.runQueue, held.zombiesQueue, held.tempQueue, held.once, held.present⟩,
      fun _ inside => .inl inside⟩
  | @register _ handler returns =>
    obtain ⟨h, written, last⟩ := outcome_bind_eq_ok.mp returns
    simp only [outcome_pure, Except.ok.injEq] at last
    obtain ⟨c, -, -, rfl⟩ := Heap.write_eq_ok.mp written
    subst last
    have moved := held.modify (x := c) (f := fun t => { t with handler := handler }) fun _ => rfl
    exact ⟨_, _, _, moved.confined (List.Subset.refl _)⟩

/-- The task cannot run. -/
def Gone (x : ℕ) (k : Kernel) : Prop :=
  ∃ run zombies temp, Held k run zombies temp ∧ x ∉ runnable k run temp

theorem Gone.not_running (gone : Gone x k) : running k ≠ some x := by
  obtain ⟨run, zombies, temp, -, outside⟩ := gone
  intro runs
  simp [runnable, runs] at outside

/-- What cannot run never runs, unless its chunk becomes a new task. -/
theorem Run.gone {v : List SysEvent} (steps : Run SysStep k v t) (gone : Gone x k)
    (kept : ∀ e ∈ v, ¬ e.creates x) : Gone x t := by
  induction steps with
  | refl => exact gone
  | @snoc _ _ v e _ last ih =>
    obtain ⟨run, zombies, temp, held, outside⟩ := ih fun e he => kept e (List.mem_append_left _ he)
    obtain ⟨run', zombies', temp', confined⟩ := last.confined held
    refine ⟨run', zombies', temp', confined.held, fun inside => ?_⟩
    rcases confined.from_before x inside with before | new
    · exact outside before
    · exact kept e (by simp) new

theorem Run.held {w : List SysEvent} (boot : Boot k) (steps : Run SysStep k w k') :
    ∃ run zombies temp, Held k' run zombies temp := by
  refine steps.preserves (fun k => ∃ run zombies temp, Held k run zombies temp) ?_
    ⟨_, _, _, boot.placed.held⟩
  rintro s e t ⟨run, zombies, temp, held⟩ step
  obtain ⟨run', zombies', temp', confined⟩ := step.confined held
  exact ⟨run', zombies', temp', confined.held⟩

/-! ## Tasks that come back -/

/-- The task is in `temp_queue`. -/
def Suspended (k : Kernel) (x : ℕ) : Prop := ∃ temp, Queue k.heap k.tempQueue temp ∧ x ∈ temp

/-- The task runs, waits or is suspended, and has not exited. -/
def Live (k : Kernel) (x : ℕ) : Prop :=
  (running k = some x ∨ Waits k x ∨ Suspended k x) ∧ stateAt k.heap x ≠ some .exit

theorem Held.live_iff (held : Held k run zombies temp) :
    Live k x ↔ x ∈ runnable k run temp ∧ stateAt k.heap x ≠ some .exit := by
  have waits : Waits k x ↔ x ∈ run :=
    ⟨fun ⟨_, queue, inside⟩ => queue.linked.unique held.runQueue.linked ▸ inside,
      fun inside => ⟨run, held.runQueue, inside⟩⟩
  have suspended : Suspended k x ↔ x ∈ temp :=
    ⟨fun ⟨_, queue, inside⟩ => queue.linked.unique held.tempQueue.linked ▸ inside,
      fun inside => ⟨temp, held.tempQueue, inside⟩⟩
  simp only [Live, waits, suspended, runnable, List.mem_append, Option.mem_toList]

/-- Task switches bring up every task of `run_queue`. -/
theorem Held.rotates {before after : List ℕ} {c : ℕ} (held : Held k run zombies temp)
    (runs : running k = some c) (split : run = before ++ x :: after) :
    ∃ v t, Run SysStep k (v ++ [.task .schedule]) t ∧ running t = some x ∧
      ∀ e ∈ v, e = .task .schedule := by
  induction before generalizing k run zombies after c with
  | nil =>
    obtain ⟨outside, current⟩ := running_eq_some.mp runs
    obtain ⟨fuel, t, returns⟩ := held.schedule_total outside current (by simp [split])
    have step : SysStep k (.task .schedule) t := .task (.schedule outside returns)
    refine ⟨[], t, Run.single step, running_eq_some.mpr ?_, by simp⟩
    cases (held.schedule_returns outside returns).1 with
    | shell _ _ alone => simp [split] at alone
    | requeue _ head next inShell =>
      obtain ⟨rfl, -⟩ := List.cons.inj (split.symm.trans head)
      exact ⟨inShell, next⟩
    | retire _ head next inShell =>
      obtain ⟨rfl, -⟩ := List.cons.inj (split.symm.trans head)
      exact ⟨inShell, next⟩
  | cons n before ih =>
    obtain ⟨outside, current⟩ := running_eq_some.mp runs
    obtain ⟨fuel, k₁, returns⟩ := held.schedule_total outside current (by simp [split])
    have step : SysStep k (.task .schedule) k₁ := .task (.schedule outside returns)
    -- one switch brings the task one place nearer to the head
    obtain ⟨run₁, zombies₁, after₁, held₁, runs₁, split₁⟩ : ∃ run₁ zombies₁ after₁,
        Held k₁ run₁ zombies₁ temp ∧ running k₁ = some n ∧ run₁ = before ++ x :: after₁ := by
      cases (held.schedule_returns outside returns).1 with
      | shell _ _ alone => simp [split] at alone
      | @requeue c m rest _ head next inShell _ _ moved =>
        obtain ⟨rfl, same⟩ := List.cons.inj (split.symm.trans head)
        refine ⟨_, _, after ++ [c], moved.held, running_eq_some.mpr ⟨inShell, next⟩, ?_⟩
        rw [← same]
        exact List.append_assoc before (x :: after) [c]
      | @retire c m rest _ head next inShell _ _ moved =>
        obtain ⟨rfl, same⟩ := List.cons.inj (split.symm.trans head)
        exact ⟨_, _, after, moved.held, running_eq_some.mpr ⟨inShell, next⟩, same.symm⟩
    obtain ⟨v, t, steps, ready, switches⟩ := ih held₁ runs₁ split₁
    refine ⟨.task .schedule :: v, t, (Run.single step).trans steps, ready, fun e he => ?_⟩
    rcases List.mem_cons.mp he with rfl | later
    · rfl
    · exact switches e later

theorem lastQueued_total {heap : Heap Task} {p : Option ℕ} {xs : List ℕ} (queue : Queue heap p xs)
    (some_waits : xs ≠ []) (enough : xs.length ≤ fuel) : ∃ r, lastQueued heap fuel p = .ok r := by
  induction fuel generalizing p xs with
  | zero => exact absurd (List.length_eq_zero_iff.mp (by omega)) some_waits
  | succ fuel ih =>
    obtain ⟨y, ys, rfl⟩ := List.exists_cons_of_ne_nil some_waits
    obtain ⟨task, here, rfl, rest⟩ := queue.exists_head
    rw [lastQueued, Heap.get_some here, outcome_bind_ok]
    cases behind : task.next with
    | none => exact ⟨_, rfl⟩
    | some next =>
      rw [behind] at rest
      obtain ⟨zs, rfl⟩ := rest.exists_cons
      exact ih rest (List.cons_ne_nil _ _) (by simpa using enough)

/-- `add_to_queue` returns when a task waits. -/
theorem Held.addToQueue_total (held : Held k run zombies temp) (some_waits : run ≠ []) :
    ∃ fuel k', addToQueue fuel k = .ok k' := by
  obtain ⟨r, found⟩ := lastQueued_total held.runQueue some_waits le_rfl
  obtain ⟨y, last, rfl⟩ := lastQueued_returns held.runQueue found
  have here := held.runQueue.allocated y (List.mem_of_getLast? last)
  refine ⟨run.length, ?_⟩
  cases waiting : k.tempQueue with
  | none => exact ⟨k, by rw [addToQueue, waiting]⟩
  | some z =>
    rw [addToQueue, waiting]
    dsimp only
    rw [found, outcome_bind_ok, Heap.write_some here]
    exact ⟨_, rfl⟩

/-- While a task runs, a live task can come back: once another task waits too, it is
switched away from, or put back by `add_to_queue`, and then waits for its turn. -/
theorem Held.comes_back {c a : ℕ} (held : Held k run zombies temp) (runs : running k = some c)
    (fresh : k.heap a = none) (inside : x ∈ runnable k run temp)
    (alive : stateAt k.heap x ≠ some .exit) :
    ∃ v t, Run SysStep k (v ++ [.task .schedule]) t ∧ running t = some x ∧
      ∀ e ∈ v, ¬ e.creates x := by
  have ne : x ≠ a := by
    rintro rfl
    have here := held.allocated (mem_places_iff.mpr (.inl inside))
    simp [fresh] at here
  have switch_creates : ∀ e : SysEvent, e = .task .schedule → ¬ e.creates x := by
    rintro _ rfl
    simp [SysEvent.creates]
  have fresh' : k.heap (chunksAt a).task = none := fresh
  -- a new task is created first, so that one waits
  obtain ⟨k₁, created⟩ := taskCreate_total .null .kernel held.runQueue fresh'
    (Nat.lt_succ_self _)
  have state₁ := taskCreate_state held.runQueue fresh' created ne
  obtain ⟨-, effect⟩ := taskCreate_returns held.runQueue fresh' created
  have held₁ := effect.held fresh' held
  have runs₁ : running k₁ = some c := effect.running.trans runs
  have step₁ : SysStep k (.task (.create a)) k₁ := .task (.create fresh' created)
  have some_waits : run ++ [a] ≠ [] := by simp
  have create_other : ¬ (SysEvent.task (.create a)).creates x := by
    simp [SysEvent.creates, Ne.symm ne]
  simp only [runnable, List.mem_append, Option.mem_toList] at inside
  rcases inside with current | waits | suspended
  · -- the caller itself: it waits after the next switch
    obtain rfl : c = x := Option.some.inj (runs.symm.trans current)
    obtain ⟨outside, current₁⟩ := running_eq_some.mp runs₁
    obtain ⟨fuel, k₂, returns⟩ := held₁.schedule_total outside current₁ some_waits
    have step₂ : SysStep k₁ (.task .schedule) k₂ := .task (.schedule outside returns)
    cases (held₁.schedule_returns outside returns).1 with
    | shell _ _ alone => exact absurd alone some_waits
    | @requeue d n rest current₂ head next inShell _ _ moved =>
      obtain rfl : d = c := Option.some.inj (current₂.symm.trans current₁)
      obtain ⟨v, t, steps, ready, switches⟩ :=
        moved.held.rotates (running_eq_some.mpr ⟨inShell, next⟩) rfl
      refine ⟨[.task (.create a), .task .schedule] ++ v, t, ?_, ready, fun e he => ?_⟩
      · rw [List.append_assoc]
        exact ((Run.single step₁).snoc step₂).trans steps
      · simp only [List.mem_append, List.mem_cons, List.not_mem_nil, or_false] at he
        rcases he with (rfl | switch) | later
        · exact create_other
        · exact switch_creates e switch
        · exact switch_creates e (switches e later)
    | @retire d n rest current₂ head next inShell _ exits moved =>
      obtain rfl : d = c := Option.some.inj (current₂.symm.trans current₁)
      exact absurd (state₁ ▸ exits) alive
  · -- it waits already
    obtain ⟨before, after, split⟩ := List.append_of_mem (List.mem_append_left [a] waits)
    obtain ⟨v, t, steps, ready, switches⟩ := held₁.rotates runs₁ split
    refine ⟨.task (.create a) :: v, t, (Run.single step₁).trans steps, ready, fun e he => ?_⟩
    rcases List.mem_cons.mp he with rfl | later
    · exact create_other
    · exact switch_creates e (switches e later)
  · -- it is suspended, and `add_to_queue` puts it behind all others
    obtain ⟨fuel, k₂, returns⟩ := held₁.addToQueue_total some_waits
    obtain ⟨moved, -, runs₂, -⟩ := held₁.addToQueue_returns returns
    have step₂ : SysStep k₁ .addToQueue k₂ := .addToQueue returns
    obtain ⟨before, after, split⟩ :=
      List.append_of_mem (List.mem_append_right (run ++ [a]) suspended)
    obtain ⟨v, t, steps, ready, switches⟩ := moved.held.rotates (runs₂.trans runs₁) split
    refine ⟨[.task (.create a), .addToQueue] ++ v, t, ?_, ready, fun e he => ?_⟩
    · rw [List.append_assoc]
      exact ((Run.single step₁).snoc step₂).trans steps
    · simp only [List.mem_append, List.mem_cons, List.not_mem_nil, or_false] at he
      rcases he with (rfl | rfl) | later
      · exact create_other
      · simp [SysEvent.creates]
      · exact switch_creates e (switches e later)

/-! ## `sysc_kill` -/

/-- A kill that finds the task makes a zombie of it. -/
theorem Held.kill_gone {pid : ℤ} (held : Held k run zombies temp)
    (killed : syscKill fuel pid k = .ok k') (hits : Hits k pid x) : Gone x k' := by
  obtain ⟨before, after, queue, has, first⟩ := hits
  have split := held.runQueue.linked.unique queue.linked
  obtain ⟨moved, -⟩ := held.killThread_found killed split has first
  exact ⟨_, _, _, moved.held, moved.held.zombie_not_runnable (by simp)⟩

/-- A kill that misses a task leaves it where it is. -/
theorem Held.kill_missed {pid : ℤ} (held : Held k run zombies temp)
    (killed : syscKill fuel pid k = .ok k') (misses : ¬ Hits k pid x)
    (inside : x ∈ runnable k run temp) :
    ∃ run' zombies', Held k' run' zombies' temp ∧ running k' = running k ∧
      Links Set.univ k.heap k'.heap ∧ x ∈ runnable k' run' temp := by
  cases held.killThread_returns killed with
  | none absent same =>
    subst same
    exact ⟨run, zombies, held, rfl, Relinked.refl _ _ _, inside⟩
  | @moved before after y h r z split has first state links moved =>
    subst state
    have other : x ≠ y := by
      rintro rfl
      exact misses ⟨before, after, split ▸ held.runQueue, has, first⟩
    refine ⟨_, _, moved.held, rfl, links, ?_⟩
    change x ∈ (running k).toList ++ _
    simp only [runnable, split, List.mem_append, List.mem_cons] at inside ⊢
    tauto

/-- **A killed task never runs again** exactly if `sysc_kill` finds it: in every reachable
state in which a task runs, and for every live task, no `schedule` of any continuation that
does not make a new task of its chunk switches to it. -/
theorem Run.killed_iff {k₀ : Kernel} {w : List SysEvent} {pid : ℤ} (boot : Boot k₀)
    (steps : Run SysStep k₀ w k) (caller : (running k).isSome) (live : Live k x)
    (killed : syscKill fuel pid k = .ok k') :
    (∀ v t, Run SysStep k' (v ++ [.task .schedule]) t → (∀ e ∈ v, ¬ e.creates x) →
      running t ≠ some x) ↔ Hits k pid x := by
  obtain ⟨run, zombies, temp, held⟩ := Run.held boot steps
  constructor
  · intro never
    by_contra misses
    obtain ⟨c, runs⟩ := Option.isSome_iff_exists.mp caller
    obtain ⟨inside, alive⟩ := held.live_iff.mp live
    obtain ⟨run', zombies', held', runs', links, inside'⟩ := held.kill_missed killed misses inside
    -- only finitely many addresses hold tasks
    obtain ⟨a, unused⟩ := Infinite.exists_notMem_finset (sysAlive w).toFinset
    have fresh : k'.heap a = none := by
      rw [← Option.not_isSome_iff_eq_none, links.isSome, Run.alive boot steps]
      simpa using unused
    have alive' : stateAt k'.heap x ≠ some .exit := by rwa [stateAt_of_links links]
    obtain ⟨v, t, back, ready, kept⟩ := held'.comes_back (runs'.trans runs) fresh inside' alive'
    exact never v t back kept ready
  · intro hits v t back kept
    have gone := held.kill_gone killed hits
    refine (Run.gone back gone fun e he => ?_).not_running
    rcases List.mem_append.mp he with inside | inside
    · exact kept e inside
    · rw [List.mem_singleton.mp inside]
      simp [SysEvent.creates]

/-- Task 2 runs, task 4 is suspended by a signal and task 5 waits, which a kill finds. -/
theorem killWaiting_gone : ∃ k k', Run SysStep bootKernel firstSignal k ∧
    syscKill 9 5 k = .ok k' ∧ ∀ v t, Run SysStep k' (v ++ [.task .schedule]) t →
      (∀ e ∈ v, ¬ e.creates 0x50000) → running t ≠ some 0x50000 := by
  obtain ⟨k, guarded, -, runs, queue, pids, states, -, k', killed⟩ := firstSignal_run
  have steps := guarded.mono fun _ _ _ step => step.2
  simp only [List.map_cons, List.map_nil, List.cons.injEq, and_true] at pids states
  have live : Live k 0x50000 := by
    refine ⟨.inr (.inl ⟨_, queue, by simp⟩), ?_⟩
    rw [stateAt, states.2]
    simp
  have hits : Hits k 5 0x50000 := by
    refine ⟨[0x30000], [0x10000, 0x60000], queue, pids.2.1, fun y inside => ?_⟩
    rw [List.mem_singleton.mp inside, pids.1]
    decide
  exact ⟨k, k', steps, killed,
    (Run.killed_iff bootKernel_boot steps (by simp [runs]) live killed).mpr hits⟩

/-- A kill of the suspended task 4 misses it, and it runs again. -/
theorem killSuspended_comes_back : ∃ k k', Run SysStep bootKernel firstSignal k ∧
    (Live k 0x40000 ∧ k.tempQueue = some 0x40000) ∧ syscKill 9 4 k = .ok k' ∧
    ∃ v t, Run SysStep k' (v ++ [.task .schedule]) t ∧ (∀ e ∈ v, ¬ e.creates 0x40000) ∧
      running t = some 0x40000 := by
  obtain ⟨k, guarded, ⟨unused, suspended, -⟩, runs, queue, pids, states, ⟨k', killed⟩, -⟩ :=
    firstSignal_run
  have steps := guarded.mono fun _ _ _ step => step.2
  obtain ⟨run, zombies, temp, held⟩ := Run.held bootKernel_boot steps
  obtain rfl := held.runQueue.linked.unique queue.linked
  simp only [List.map_cons, List.map_nil, List.cons.injEq, and_true] at pids states
  have inside : 0x40000 ∈ temp := by
    have tempQueue := held.tempQueue
    rw [suspended] at tempQueue
    obtain ⟨rest, rfl⟩ := tempQueue.exists_cons
    exact List.mem_cons_self
  have able : 0x40000 ∈ runnable k [0x30000, 0x50000, 0x10000, 0x60000] temp := by
    simp [runnable, inside]
  have alive : stateAt k.heap 0x40000 ≠ some .exit := by
    rw [stateAt, states.1]
    simp
  have misses : ¬ Hits k 4 0x40000 := by
    rintro ⟨before, after, queue', -, -⟩
    have member : 0x40000 ∈ before ++ 0x40000 :: after := by simp
    rw [← queue.linked.unique queue'.linked] at member
    simp at member
  obtain ⟨run', zombies', held', runs', links, able'⟩ := held.kill_missed killed misses able
  have alive' : stateAt k'.heap 0x40000 ≠ some .exit := by rwa [stateAt_of_links links]
  have fresh : k'.heap 0x70000 = none := by
    rw [← Option.not_isSome_iff_eq_none, links.isSome, unused]
    simp
  obtain ⟨v, t, back, ready, kept⟩ := held'.comes_back (runs'.trans runs) fresh able' alive'
  exact ⟨k, k', steps, ⟨held.live_iff.mpr ⟨able, alive⟩, suspended⟩, killed, v, t, back,
    kept, ready⟩

end BareMetal.Sched
