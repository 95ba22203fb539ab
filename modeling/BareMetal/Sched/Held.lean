import BareMetal.Sched.Queues
import Mathlib.Data.List.Count

/-!
# What the functions do to the queues

`Held k run zombies temp` says that the three queues hold the tasks of these lists and
that no task is in two places. A task may be in no place: one that `temp_queue` held
when the next signal overwrote it.

Each function is described by what it does to the three lists.
-/

namespace BareMetal.Sched

open CS

variable {k k' : Kernel} {run zombies temp run' zombies' temp' : List ℕ} {fuel x : ℕ}

/-- The task that runs. In the shell `tpidr_el1` is stale. -/
def running (k : Kernel) : Option ℕ := if k.inShell then none else k.current

theorem running_eq_some : running k = some x ↔ k.inShell = false ∧ k.current = some x := by
  cases inShell : k.inShell <;> simp [running, inShell]

/-- All places, one after the other. -/
def places (k : Kernel) (run zombies temp : List ℕ) : List ℕ :=
  (running k).toList ++ (run ++ (zombies ++ temp))

/-- The state of a task. -/
def stateAt (heap : Heap Task) (x : ℕ) : Option TaskState := (heap x).map Task.state

theorem stateAt_of_links {S : Set ℕ} {heap heap' : Heap Task} (change : Links S heap heap') :
    stateAt heap' = stateAt heap :=
  funext (field_of_links Task.state (fun _ => rfl) change)

/-- The queues hold these tasks, and no task is in two places. -/
structure Held (k : Kernel) (run zombies temp : List ℕ) : Prop where
  runQueue : Queue k.heap k.runQueue run
  zombiesQueue : Queue k.heap k.zombiesQueue zombies
  tempQueue : Queue k.heap k.tempQueue temp
  once : (places k run zombies temp).Nodup
  present : ∀ x, running k = some x → (k.heap x).isSome

/-- Tasks have moved from one place to another. -/
structure Moved (k k' : Kernel) (run zombies temp run' zombies' temp' : List ℕ) : Prop where
  held : Held k' run' zombies' temp'
  same : ∀ x, (k'.heap x).isSome = (k.heap x).isSome
  perm : (places k' run' zombies' temp').Perm (places k run zombies temp)

namespace Held

/-- Tasks in a place are allocated. -/
theorem allocated (held : Held k run zombies temp) (inside : x ∈ places k run zombies temp) :
    (k.heap x).isSome := by
  simp only [places, List.mem_append, Option.mem_toList] at inside
  rcases inside with runs | inside | inside | inside
  · exact held.present x runs
  · exact held.runQueue.allocated x inside
  · exact held.zombiesQueue.allocated x inside
  · exact held.tempQueue.allocated x inside

/-- Tasks that only move stay in one place. -/
theorem of_perm (held : Held k run zombies temp) (runQueue : Queue k'.heap k'.runQueue run')
    (zombiesQueue : Queue k'.heap k'.zombiesQueue zombies')
    (tempQueue : Queue k'.heap k'.tempQueue temp')
    (same : ∀ x, (k'.heap x).isSome = (k.heap x).isSome)
    (perm : (places k' run' zombies' temp').Perm (places k run zombies temp)) :
    Moved k k' run zombies temp run' zombies' temp' where
  held := by
    refine ⟨runQueue, zombiesQueue, tempQueue, perm.nodup_iff.mpr held.once, fun x runs => ?_⟩
    rw [same]
    apply held.allocated
    rw [← perm.mem_iff, places, runs]
    exact List.mem_cons_self
  same := same
  perm := perm

section Apart

variable (held : Held k run zombies temp)

include held

theorem run_apart (inside : x ∈ run) : x ∉ zombies ∧ x ∉ temp := by
  have once := held.once
  simp only [places, List.nodup_append, List.mem_append] at once
  exact ⟨fun other => once.2.1.2.2 x inside x (.inl other) rfl,
    fun other => once.2.1.2.2 x inside x (.inr other) rfl⟩

theorem zombies_apart (inside : x ∈ zombies) : x ∉ run ∧ x ∉ temp := by
  have once := held.once
  simp only [places, List.nodup_append, List.mem_append] at once
  exact ⟨fun other => once.2.1.2.2 x other x (.inl inside) rfl,
    fun other => once.2.1.2.1.2.2 x inside x other rfl⟩

theorem running_apart (runs : running k = some x) : x ∉ run ∧ x ∉ zombies ∧ x ∉ temp := by
  have once := held.once
  simp only [places, runs, Option.toList_some, List.nodup_append, List.mem_append,
    List.mem_singleton] at once
  have apart := once.2.2 x rfl x
  exact ⟨fun other => apart (.inl other) rfl, fun other => apart (.inr (.inl other)) rfl,
    fun other => apart (.inr (.inr other)) rfl⟩

/-- What is left of `run_queue` without a task does not hold it. -/
theorem not_rest {before after : List ℕ} (split : run = before ++ x :: after) :
    x ∉ before ++ after := by
  have distinct := held.runQueue.linked.nodup
  rw [split] at distinct
  exact (List.nodup_cons.mp (List.nodup_middle.mp distinct)).1

end Apart

/-- A change that leaves `next` alone moves no task. -/
theorem modify (held : Held k run zombies temp) {f : Task → Task}
    (keeps : ∀ task, (f task).next = task.next) :
    Moved k { k with heap := k.heap.modify x f } run zombies temp run zombies temp :=
  held.of_perm (held.runQueue.modify keeps) (held.zombiesQueue.modify keeps)
    (held.tempQueue.modify keeps) (fun _ => Heap.isSome_modify) (List.Perm.refl _)

end Held

/-! ## `task_create` -/

@[simp] theorem newTask_pid (chunks : Chunks) (func : Code) (mode : Mode) (pid : ℤ) :
    (newTask chunks func mode pid).pid = toU32 pid := by
  cases mode <;> rfl

@[simp] theorem newTask_state (chunks : Chunks) (func : Code) (mode : Mode) (pid : ℤ) :
    (newTask chunks func mode pid).state = .running := by
  cases mode <;> rfl

/-- What `task_create` does: the new task is the last of `run_queue`, and other queues
are left alone. -/
structure CreateEffect (x : ℕ) (k k' : Kernel) (run : List ℕ) : Prop where
  runQueue : Queue k'.heap k'.runQueue (run ++ [x])
  others : ∀ {p ys}, Queue k.heap p ys → (∀ y ∈ ys, y ∉ run) → Queue k'.heap p ys
  allocated : ∀ y, (k'.heap y).isSome ↔ y = x ∨ (k.heap y).isSome
  running : running k' = running k
  pid : k'.pid = toInt32 (k.pid + 1)
  zombiesQueue : k'.zombiesQueue = k.zombiesQueue
  tempQueue : k'.tempQueue = k.tempQueue
  signalExit : k'.signalExit = k.signalExit
  pid_new : pidAt k'.heap x = some (toU32 k.pid)
  pid_old : ∀ y, y ≠ x → pidAt k'.heap y = pidAt k.heap y

theorem taskCreate_returns {chunks : Chunks} {func : Code} {mode : Mode}
    (queue : Queue k.heap k.runQueue run) (fresh : k.heap chunks.task = none)
    (returns : taskCreate fuel chunks func mode k = .ok (x, k')) :
    x = chunks.task ∧ CreateEffect x k k' run := by
  obtain ⟨⟨q, heap'⟩, enqueued, last⟩ := outcome_bind_eq_ok.mp returns
  simp only [outcome_pure, Except.ok.injEq, Prod.mk.injEq] at last
  obtain ⟨rfl, rfl⟩ := last
  let task := newTask chunks func mode k.pid
  obtain ⟨outside, queue'⟩ := queue.alloc fresh task
  obtain ⟨runQueue, links⟩ := enqueue_returns queue' outside enqueued
  have pids := pidAt_of_links links
  refine ⟨rfl, ⟨runQueue, fun other apart => ?_, fun y => ?_, rfl, rfl, rfl, rfl, rfl, ?_,
    fun y ne => ?_⟩⟩
  · obtain ⟨outside_other, other'⟩ := other.alloc fresh task
    exact enqueue_other links other' apart outside_other
  · rw [links.isSome, Heap.isSome_alloc]
  · change pidAt heap' chunks.task = _
    rw [pids, pidAt_eq Heap.alloc_self, newTask_pid]
  · change pidAt heap' y = _
    rw [pids, pidAt, pidAt, Heap.alloc_of_ne ne]

/-- `task_create` leaves the other tasks in their states. -/
theorem taskCreate_state {chunks : Chunks} {func : Code} {mode : Mode}
    (queue : Queue k.heap k.runQueue run) (fresh : k.heap chunks.task = none)
    (returns : taskCreate fuel chunks func mode k = .ok (x, k')) {y : ℕ} (ne : y ≠ chunks.task) :
    stateAt k'.heap y = stateAt k.heap y := by
  obtain ⟨⟨q, heap'⟩, enqueued, last⟩ := outcome_bind_eq_ok.mp returns
  simp only [outcome_pure, Except.ok.injEq, Prod.mk.injEq] at last
  obtain ⟨rfl, rfl⟩ := last
  obtain ⟨outside, queue'⟩ := queue.alloc fresh (newTask chunks func mode k.pid)
  obtain ⟨-, links⟩ := enqueue_returns queue' outside enqueued
  change stateAt heap' y = _
  rw [stateAt_of_links links, stateAt, stateAt, Heap.alloc_of_ne ne]

/-- A new task is in the state `RUNNING`. -/
theorem taskCreate_state_new {chunks : Chunks} {func : Code} {mode : Mode}
    (queue : Queue k.heap k.runQueue run) (fresh : k.heap chunks.task = none)
    (returns : taskCreate fuel chunks func mode k = .ok (x, k')) :
    stateAt k'.heap chunks.task = some .running := by
  obtain ⟨⟨q, heap'⟩, enqueued, last⟩ := outcome_bind_eq_ok.mp returns
  simp only [outcome_pure, Except.ok.injEq, Prod.mk.injEq] at last
  obtain ⟨rfl, rfl⟩ := last
  obtain ⟨outside, queue'⟩ := queue.alloc fresh (newTask chunks func mode k.pid)
  obtain ⟨-, links⟩ := enqueue_returns queue' outside enqueued
  change stateAt heap' chunks.task = _
  rw [stateAt_of_links links, stateAt, Heap.alloc_self, Option.map_some, newTask_state]

/-- `task_create` leaves the shell and the signals alone. -/
theorem taskCreate_same {chunks : Chunks} {func : Code} {mode : Mode}
    (returns : taskCreate fuel chunks func mode k = .ok (x, k')) :
    k'.inShell = k.inShell ∧ k'.handler = k.handler := by
  obtain ⟨⟨q, heap'⟩, -, last⟩ := outcome_bind_eq_ok.mp returns
  simp only [outcome_pure, Except.ok.injEq, Prod.mk.injEq] at last
  rw [← last.2]
  exact ⟨rfl, rfl⟩

/-- The new task is in `run_queue`, and no other task has moved. -/
theorem CreateEffect.perm (effect : CreateEffect x k k' run) :
    (places k' (run ++ [x]) zombies temp).Perm (x :: places k run zombies temp) := by
  refine List.perm_iff_count.mpr fun a => ?_
  simp only [places, effect.running, List.count_append, List.count_cons, List.count_nil]
  omega

theorem CreateEffect.held (effect : CreateEffect x k k' run) (fresh : k.heap x = none)
    (before : Held k run zombies temp) : Held k' (run ++ [x]) zombies temp := by
  refine ⟨effect.runQueue, ?_, ?_, ?_, fun y runs => ?_⟩
  · rw [effect.zombiesQueue]
    exact effect.others before.zombiesQueue fun y hy => (before.zombies_apart hy).1
  · rw [effect.tempQueue]
    exact effect.others before.tempQueue fun y hy inside => (before.run_apart inside).2 hy
  · refine effect.perm.nodup_iff.mpr (List.nodup_cons.mpr ⟨fun inside => ?_, before.once⟩)
    have here := before.allocated inside
    simp [fresh] at here
  · rw [effect.allocated]
    rw [effect.running] at runs
    exact .inr (before.present y runs)

/-! ## `schedule` -/

/-- `switch_to` needs a task to switch to. -/
theorem switchTo_returns {next : Option ℕ} (returns : switchTo next k = .ok k') :
    ∃ n, next = some n ∧ k' = { k with current := some n } := by
  obtain ⟨task, read, last⟩ := outcome_bind_eq_ok.mp returns
  simp only [outcome_pure, Except.ok.injEq] at last
  obtain ⟨n, rfl, -⟩ := Heap.get_eq_ok.mp read
  exact ⟨n, rfl, last.symm⟩

namespace Held

/-- The link of the running task belongs to no queue. -/
theorem clear (held : Held k run zombies temp) {c : ℕ} (runs : running k = some c)
    (next : Option ℕ) :
    Held { k with heap := k.heap.modify c (Task.setNext next) } run zombies temp := by
  obtain ⟨not_run, not_zombie, not_temp⟩ := held.running_apart runs
  have links : Links {y | y = c} k.heap (k.heap.modify c (Task.setNext next)) :=
    links_setNext (Set.mem_ofPred_eq ▸ rfl) next
  have moved : Moved k { k with heap := k.heap.modify c (Task.setNext next) } run zombies temp
      run zombies temp := by
    refine held.of_perm ?_ ?_ ?_ links.isSome (List.Perm.refl _)
    · exact held.runQueue.relinked links fun x hx same => not_run (same ▸ hx)
    · exact held.zombiesQueue.relinked links fun x hx same => not_zombie (same ▸ hx)
    · exact held.tempQueue.relinked links fun x hx same => not_temp (same ▸ hx)
  exact moved.held

/-- A task in no queue is appended to what is left of `run_queue`. -/
theorem requeue (held : Held k run zombies temp) {c : ℕ} {q q' : Option ℕ}
    {heap' : Heap Task} (apart : c ∉ run ∧ c ∉ zombies ∧ c ∉ temp)
    (tail : Queue k.heap q run.tail)
    (enqueued : enqueue fuel q (some c) k.heap = .ok (q', heap')) :
    Queue heap' q' (run.tail ++ [c]) ∧ Queue heap' k.zombiesQueue zombies ∧
      Queue heap' k.tempQueue temp ∧ Links {y | y ∈ run.tail ++ [c]} k.heap heap' := by
  obtain ⟨not_run, not_zombie, not_temp⟩ := apart
  obtain ⟨queue, links⟩ :=
    enqueue_returns tail (fun inside => not_run (List.mem_of_mem_tail inside)) enqueued
  refine ⟨queue, ?_, ?_, links⟩
  · exact enqueue_other links held.zombiesQueue
      (fun y hy inside => (held.zombies_apart hy).1 (List.mem_of_mem_tail inside)) not_zombie
  · exact enqueue_other links held.tempQueue
      (fun y hy inside => (held.run_apart (List.mem_of_mem_tail inside)).2 hy) not_temp

/-- A task in no queue is appended to `zombies_queue`. -/
theorem retire (held : Held k run zombies temp) {c : ℕ} {q q' : Option ℕ}
    {heap heap' : Heap Task} {rest : List ℕ} (sub : ∀ x ∈ rest, x ∈ run)
    (apart : c ∉ rest ∧ c ∉ zombies ∧ c ∉ temp) (others : Queue heap q rest)
    (zombiesQueue : Queue heap k.zombiesQueue zombies) (tempQueue : Queue heap k.tempQueue temp)
    (enqueued : enqueue fuel k.zombiesQueue (some c) heap = .ok (q', heap')) :
    Queue heap' q rest ∧ Queue heap' q' (zombies ++ [c]) ∧ Queue heap' k.tempQueue temp ∧
      Links {y | y ∈ zombies ++ [c]} heap heap' := by
  obtain ⟨not_rest, not_zombie, not_temp⟩ := apart
  obtain ⟨queue, links⟩ := enqueue_returns zombiesQueue not_zombie enqueued
  refine ⟨?_, queue, ?_, links⟩
  · exact enqueue_other links others (fun y hy => (held.run_apart (sub y hy)).1) not_rest
  · exact enqueue_other links tempQueue
      (fun y hy inside => (held.zombies_apart inside).2 hy) not_temp

end Held

/-- What `schedule` does: the idle task alone enters the shell, every other call
switches to the head of `run_queue` and appends the task that ran to `run_queue`
or, when it has exited, to `zombies_queue`. -/
inductive ScheduleMove (k k' : Kernel) (run zombies temp : List ℕ) : Prop
  | shell {c : ℕ} (current : k.current = some c) (idle : pidAt k.heap c = some 1)
      (alone : run = []) (moved : Moved k k' run zombies temp [c] zombies temp)
      (inShell : k'.inShell = true) (pid : k'.pid = 2)
  | requeue {c n : ℕ} {rest : List ℕ} (current : k.current = some c) (head : run = n :: rest)
      (next : k'.current = some n) (inShell : k'.inShell = false) (pid : k'.pid = k.pid)
      (alive : stateAt k.heap c ≠ some .exit)
      (moved : Moved k k' run zombies temp (rest ++ [c]) zombies temp)
  | retire {c n : ℕ} {rest : List ℕ} (current : k.current = some c) (head : run = n :: rest)
      (next : k'.current = some n) (inShell : k'.inShell = false) (pid : k'.pid = k.pid)
      (exits : stateAt k.heap c = some .exit)
      (moved : Moved k k' run zombies temp rest (zombies ++ [c]) temp)

theorem Held.schedule_returns (held : Held k run zombies temp) (outside : k.inShell = false)
    (returns : schedule fuel k = .ok k') :
    ScheduleMove k k' run zombies temp ∧ Links Set.univ k.heap k'.heap ∧
      k'.tempQueue = k.tempQueue ∧ k'.signalExit = k.signalExit := by
  obtain ⟨⟨next, q⟩, popped, returns⟩ := outcome_bind_eq_ok.mp returns
  obtain ⟨heap₁, cleared, returns⟩ := outcome_bind_eq_ok.mp returns
  obtain ⟨cur, read, returns⟩ := outcome_bind_eq_ok.mp returns
  obtain ⟨c, current, here, rfl⟩ := Heap.write_eq_ok.mp cleared
  obtain ⟨rfl, tail⟩ := dequeue_returns held.runQueue popped
  have runs : running k = some c := by rw [running, outside, current]; rfl
  have apart := held.running_apart runs
  have held₁ := held.clear runs none
  -- clearing the link of the task that ran changes nothing else
  have clear : Links Set.univ k.heap (k.heap.modify c (Task.setNext none)) :=
    links_setNext (Set.mem_univ c) none
  have tail₁ : Queue (k.heap.modify c (Task.setNext none)) q run.tail := by
    refine tail.congr fun x hx => Heap.modify_of_ne ?_
    exact ne_of_mem_of_not_mem (List.mem_of_mem_tail hx) apart.1
  rw [current] at read returns
  -- what is read of it is what it was
  obtain ⟨pid_cur, state_cur⟩ :
      pidAt k.heap c = some cur.pid ∧ stateAt k.heap c = some cur.state := by
    obtain ⟨_, same, there⟩ := Heap.get_eq_ok.mp read
    obtain rfl := Option.some.inj same
    rw [← pidAt_of_links clear, ← stateAt_of_links clear, stateAt, there]
    exact ⟨pidAt_eq there, rfl⟩
  dsimp only at returns
  split_ifs at returns with idle alive
  · -- the idle task has nothing to switch to
    obtain ⟨⟨q', heap'⟩, enqueued, last⟩ := outcome_bind_eq_ok.mp returns
    simp only [outcome_pure, Except.ok.injEq] at last
    subst last
    have alone : run = [] := List.head?_eq_none_iff.mp idle.2
    subst alone
    obtain ⟨runQueue, zombiesQueue, tempQueue, links⟩ := held₁.requeue apart tail₁ enqueued
    replace links := clear.trans (links.mono (Set.subset_univ _))
    refine ⟨.shell current (by rw [pid_cur, idle.1]) rfl ?_ rfl rfl, links, rfl, rfl⟩
    refine held.of_perm runQueue zombiesQueue tempQueue links.isSome ?_
    simp [places, running, outside, current]
  · -- the task that ran waits again
    obtain ⟨⟨q', heap'⟩, enqueued, last⟩ := outcome_bind_eq_ok.mp returns
    obtain ⟨n, head, rfl⟩ := switchTo_returns last
    obtain ⟨rest, rfl⟩ := List.head?_eq_some_iff.mp head
    obtain ⟨runQueue, zombiesQueue, tempQueue, links⟩ := held₁.requeue apart tail₁ enqueued
    replace links := clear.trans (links.mono (Set.subset_univ _))
    have waits : stateAt k.heap c ≠ some .exit := by rw [state_cur]; simpa using alive
    refine ⟨.requeue current rfl rfl outside rfl waits ?_, links, rfl, rfl⟩
    refine held.of_perm runQueue zombiesQueue tempQueue links.isSome ?_
    refine List.perm_iff_count.mpr fun a => ?_
    simp only [places, running, outside, current, Bool.false_eq_true, if_false,
      Option.toList_some, List.count_append, List.count_cons, List.count_nil]
    omega
  · -- the task that ran has exited
    obtain ⟨⟨q', heap'⟩, enqueued, last⟩ := outcome_bind_eq_ok.mp returns
    obtain ⟨n, head, rfl⟩ := switchTo_returns last
    obtain ⟨rest, rfl⟩ := List.head?_eq_some_iff.mp head
    have not_rest : c ∉ rest := fun inside => apart.1 (List.mem_cons_of_mem n inside)
    obtain ⟨runQueue, zombiesQueue, tempQueue, links⟩ := held.retire
      (fun x hx => List.mem_cons_of_mem n hx) ⟨not_rest, apart.2⟩ tail₁ held₁.zombiesQueue
      held₁.tempQueue enqueued
    replace links := clear.trans (links.mono (Set.subset_univ _))
    have exits : stateAt k.heap c = some .exit := by rw [state_cur, not_not.mp alive]
    refine ⟨.retire current rfl rfl outside rfl exits ?_, links, rfl, rfl⟩
    refine held.of_perm runQueue zombiesQueue tempQueue links.isSome ?_
    refine List.perm_iff_count.mpr fun a => ?_
    simp only [places, running, outside, current, Bool.false_eq_true, if_false,
      Option.toList_some, List.count_append, List.count_cons, List.count_nil]
    omega

/-- `schedule` leaves the handler of the last signal alone. -/
theorem schedule_handler (returns : schedule fuel k = .ok k') : k'.handler = k.handler := by
  obtain ⟨⟨next, q⟩, -, returns⟩ := outcome_bind_eq_ok.mp returns
  obtain ⟨h, -, returns⟩ := outcome_bind_eq_ok.mp returns
  obtain ⟨cur, -, returns⟩ := outcome_bind_eq_ok.mp returns
  dsimp only at returns
  split_ifs at returns
  · obtain ⟨⟨q', h'⟩, -, last⟩ := outcome_bind_eq_ok.mp returns
    simp only [outcome_pure, Except.ok.injEq] at last
    rw [← last]
  all_goals
    obtain ⟨⟨q', h'⟩, -, last⟩ := outcome_bind_eq_ok.mp returns
    obtain ⟨n, -, rfl⟩ := switchTo_returns last
    rfl

/-- `schedule` returns when a task waits. -/
theorem Held.schedule_total (held : Held k run zombies temp) (outside : k.inShell = false)
    {c : ℕ} (current : k.current = some c) (waits : run ≠ []) :
    ∃ fuel k', schedule fuel k = .ok k' := by
  obtain ⟨n, rest, rfl⟩ := List.exists_cons_of_ne_nil waits
  have runs : running k = some c := by rw [running, outside, current]; rfl
  have apart := held.running_apart runs
  have held₁ := held.clear runs none
  have not_rest : c ∉ rest := fun inside => apart.1 (List.mem_cons_of_mem n inside)
  obtain ⟨first, here, head, tail⟩ := held.runQueue.exists_head
  obtain ⟨cur, read⟩ := Option.isSome_iff_exists.mp (held.present c runs)
  have elsewhere : ∀ y, y ≠ c → k.heap.modify c (Task.setNext none) y = k.heap y :=
    fun y ne => Heap.modify_of_ne ne
  have cleared : k.heap.modify c (Task.setNext none) c = some (cur.setNext none) := by
    rw [Heap.modify_self, read, Option.map_some]
  have present₁ : (k.heap.modify c (Task.setNext none) c).isSome := by rw [cleared]; rfl
  have tail₁ : Queue (k.heap.modify c (Task.setNext none)) first.next rest :=
    tail.congr fun y hy => elsewhere y (ne_of_mem_of_not_mem hy not_rest)
  -- the head of the queue is still there after an append to either queue
  have switches : ∀ {xs h q p} (k₁ : Kernel), k₁.heap = h →
      Queue (k.heap.modify c (Task.setNext none)) p xs → c ∉ xs →
      enqueue (rest.length + zombies.length + 1) p (some c)
        (k.heap.modify c (Task.setNext none)) = .ok (q, h) →
      ∃ k', switchTo (some n) k₁ = .ok k' := by
    rintro xs h q p k₁ rfl queue other enqueued
    have links := (enqueue_returns queue other enqueued).2
    have there : (k₁.heap n).isSome := by
      rw [links.isSome, Heap.isSome_modify, here]
      rfl
    obtain ⟨task, found⟩ := Option.isSome_iff_exists.mp there
    exact ⟨_, by rw [switchTo, Heap.get_some found]; rfl⟩
  have popped : dequeue k.runQueue k.heap = .ok (some n, first.next) := by
    rw [head, dequeue, Heap.get_some here]
    rfl
  refine ⟨rest.length + zombies.length + 1, ?_⟩
  rw [schedule, popped, outcome_bind_ok, current, Heap.write_some (held.present c runs)]
  simp only [outcome_bind_ok, Heap.get_some cleared, reduceCtorEq, and_false, if_false]
  split_ifs with exits
  · have enough : rest.length < rest.length + zombies.length + 1 := by omega
    obtain ⟨q, h, enqueued⟩ := enqueue_total tail₁ not_rest present₁ enough
    rw [enqueued]
    exact switches _ rfl tail₁ not_rest enqueued
  · have enough : zombies.length < rest.length + zombies.length + 1 := by omega
    obtain ⟨q, h, enqueued⟩ :=
      enqueue_total held₁.zombiesQueue apart.2.1 present₁ enough
    rw [enqueued]
    exact switches _ rfl held₁.zombiesQueue apart.2.1 enqueued

/-! ## `kill_thread` -/

/-- The list left when the search has found `x` behind `before`, and the unlinked
queue that `kill_thread` and `remove_task` make of it. -/
theorem Held.unlinked {before after : List ℕ} {pre : ℕ} {task : Task}
    (held : Held k run zombies temp) (split : run = before ++ x :: after)
    (here : k.heap x = some task) (front : before.getLast? = some pre) :
    Queue (k.heap.modify pre (Task.setNext task.next)) k.runQueue (before ++ after) ∧
      Queue (k.heap.modify pre (Task.setNext task.next)) k.zombiesQueue zombies ∧
      Queue (k.heap.modify pre (Task.setNext task.next)) k.tempQueue temp := by
  obtain ⟨ys, rfl⟩ := List.getLast?_eq_some_iff.mp front
  have queue := held.runQueue
  have apart := held.run_apart (x := pre) (by simp [split])
  rw [split, List.append_assoc, List.singleton_append] at queue
  refine ⟨?_, ?_, ?_⟩
  · have link : Heap.links Task.next k.heap x = task.next := Heap.links_eq _ here
    rw [List.append_assoc, List.singleton_append]
    exact queue.unlink fun _ => link.symm
  · exact held.zombiesQueue.congr fun y hy =>
      Heap.modify_of_ne (ne_of_mem_of_not_mem hy apart.1)
  · exact held.tempQueue.congr fun y hy =>
      Heap.modify_of_ne (ne_of_mem_of_not_mem hy apart.2)

/-- What a search for a pid in `run_queue` leads to: nothing, or the removal of the
first task that has it. -/
inductive KillMove (pid : ℕ) (k k' : Kernel) (run zombies temp : List ℕ) : Prop
  | none (absent : ∀ x ∈ run, pidAt k.heap x ≠ some pid) (same : k' = k)
  | moved {before after : List ℕ} {x : ℕ} {h : Heap Task} {r z : Option ℕ}
      (split : run = before ++ x :: after) (has : pidAt k.heap x = some pid)
      (first : ∀ y ∈ before, pidAt k.heap y ≠ some pid)
      (state : k' = { k with heap := h, runQueue := r, zombiesQueue := z })
      (links : Links Set.univ k.heap h)
      (moved : Moved k k' run zombies temp (before ++ after) (zombies ++ [x]) temp)

theorem Held.killThread_returns {pid : ℤ} (held : Held k run zombies temp)
    (returns : killThread fuel pid k = .ok k') :
    KillMove (toU32 pid) k k' run zombies temp := by
  obtain ⟨result, found, returns⟩ := outcome_bind_eq_ok.mp returns
  cases search_returns held.runQueue found with
  | absent none_has =>
    simp only [outcome_pure, Except.ok.injEq] at returns
    exact .none none_has returns.symm
  | @found before after x task split here pid_eq first =>
    have apart := held.run_apart (x := x) (by simp [split])
    have not_rest := held.not_rest split
    have has : pidAt k.heap x = some (toU32 pid) := by rw [pidAt_eq here, pid_eq]
    have sub : ∀ y ∈ before ++ after, y ∈ run := by
      intro y hy
      rw [split]
      simp only [List.mem_append, List.mem_cons] at hy ⊢
      tauto
    have perm : ∀ k' : Kernel, running k' = running k →
        (places k' (before ++ after) (zombies ++ [x]) temp).Perm (places k run zombies temp) := by
      intro k' same
      refine List.perm_iff_count.mpr fun a => ?_
      simp only [places, same, split, List.count_append, List.count_cons, List.count_nil]
      omega
    rw [Option.or_none] at returns
    cases front : before.getLast? with
    | none =>
      -- the head of the queue
      obtain rfl : before = [] := List.getLast?_eq_none_iff.mp front
      simp only [front] at returns
      obtain ⟨⟨z, h⟩, enqueued, last⟩ := outcome_bind_eq_ok.mp returns
      simp only [outcome_pure, Except.ok.injEq] at last
      subst last
      have queue := held.runQueue
      rw [split] at queue
      obtain ⟨task', here', -, rest⟩ := queue.exists_head
      obtain rfl : task = task' := Option.some.inj (here.symm.trans here')
      obtain ⟨runQueue, zombiesQueue, tempQueue, links⟩ := held.retire sub
        ⟨not_rest, apart⟩ rest held.zombiesQueue held.tempQueue enqueued
      refine .moved split has first rfl (links.mono (Set.subset_univ _)) ?_
      exact held.of_perm runQueue zombiesQueue tempQueue links.isSome (perm _ rfl)
    | some pre =>
      simp only [front] at returns
      obtain ⟨h₁, written, returns⟩ := outcome_bind_eq_ok.mp returns
      obtain ⟨⟨z, h⟩, enqueued, last⟩ := outcome_bind_eq_ok.mp returns
      simp only [outcome_pure, Except.ok.injEq] at last
      subst last
      obtain ⟨_, same, -, rfl⟩ := Heap.write_eq_ok.mp written
      obtain rfl := Option.some.inj same
      obtain ⟨run₁, zombies₁, temp₁⟩ := held.unlinked split here front
      obtain ⟨runQueue, zombiesQueue, tempQueue, links⟩ := held.retire sub
        ⟨not_rest, apart⟩ run₁ zombies₁ temp₁ enqueued
      have change : Links Set.univ k.heap h :=
        (links_setNext (Set.mem_univ pre) task.next).trans (links.mono (Set.subset_univ _))
      refine .moved split has first rfl change ?_
      exact held.of_perm runQueue zombiesQueue tempQueue change.isSome (perm _ rfl)

/-- `kill_thread` moves the first task of `run_queue` that has the pid. -/
theorem Held.killThread_found {pid : ℤ} {before after : List ℕ} (held : Held k run zombies temp)
    (returns : killThread fuel pid k = .ok k') (split : run = before ++ x :: after)
    (has : pidAt k.heap x = some (toU32 pid))
    (first : ∀ y ∈ before, pidAt k.heap y ≠ some (toU32 pid)) :
    Moved k k' run zombies temp (before ++ after) (zombies ++ [x]) temp ∧
      running k' = running k := by
  cases held.killThread_returns returns with
  | none absent => exact absurd has (absent x (by simp [split]))
  | @moved before' after' y h r z split' has' first' state links moved =>
    obtain ⟨rfl, rfl, rfl⟩ :=
      @first_unique y (fun y => pidAt k.heap y = some (toU32 pid)) before' before after' after x
        (split'.symm.trans split) has' has first' first
    refine ⟨moved, ?_⟩
    rw [state]
    rfl

/-! ## `sysc_exit` -/

/-- What `sysc_exit` does: a pending signal kills its target first, and then the
task in `tpidr_el1` is marked. -/
theorem syscExit_returns (returns : syscExit fuel k = .ok k') :
    ∃ k₁, (k.signalExit = 0 ∧ k₁ = k ∨ k.signalExit ≠ 0 ∧
        killThread fuel (toInt32 k.signalPid) { k with signalExit := 0 } = .ok k₁) ∧
      ∃ c, k₁.current = some c ∧
        k' = { k₁ with heap := k₁.heap.modify c (Task.setState .exit) } := by
  obtain ⟨k₁, ended, returns⟩ := outcome_bind_eq_ok.mp returns
  obtain ⟨h, marked, last⟩ := outcome_bind_eq_ok.mp returns
  simp only [outcome_pure, Except.ok.injEq] at last
  obtain ⟨c, current, here, rfl⟩ := Heap.write_eq_ok.mp marked
  refine ⟨k₁, ?_, c, current, last.symm⟩
  rw [endSignal] at ended
  split_ifs at ended with pending
  · exact .inr ⟨pending, ended⟩
  · exact .inl ⟨not_not.mp pending, (Except.ok.inj ended).symm⟩

/-! ## `kill_zombies` -/

/-- What `kill_zombies` does: it frees the head of `zombies_queue`. -/
inductive ReapMove (k k' : Kernel) (run zombies temp : List ℕ) : Prop
  | idle (empty : zombies = []) (same : k' = { k with zombiesQueue := none })
      (held : Held k' run [] temp)
  | reaped {x : ℕ} {rest : List ℕ} {z : Option ℕ} (head : zombies = x :: rest)
      (state : k' = { k with heap := k.heap.free x, zombiesQueue := z })
      (held : Held k' run rest temp)

theorem Held.killZombies_returns {freed : List ℕ} (held : Held k run zombies temp)
    (returns : killZombies k = .ok (freed, k')) : ReapMove k k' run zombies temp := by
  obtain ⟨⟨cur, z⟩, popped, returns⟩ := outcome_bind_eq_ok.mp returns
  obtain ⟨rfl, tail⟩ := dequeue_returns held.zombiesQueue popped
  cases zombies with
  | nil =>
    simp only [List.head?_nil, outcome_pure, Except.ok.injEq, Prod.mk.injEq] at returns
    obtain rfl : z = none := tail.linked
    obtain ⟨rfl, rfl⟩ := returns
    exact .idle rfl rfl ⟨held.runQueue, tail, held.tempQueue, held.once, held.present⟩
  | cons x rest =>
    simp only [List.head?_cons] at returns
    obtain ⟨task, -, last⟩ := outcome_bind_eq_ok.mp returns
    simp only [outcome_pure, Except.ok.injEq, Prod.mk.injEq] at last
    obtain ⟨rfl, rfl⟩ := last
    have apart := held.zombies_apart (x := x) List.mem_cons_self
    have not_rest := (List.nodup_cons.mp held.zombiesQueue.linked.nodup).1
    have elsewhere : ∀ y, y ≠ x → k.heap.free x y = k.heap y := fun y ne => Heap.free_of_ne ne
    refine .reaped rfl rfl ⟨?_, ?_, ?_, ?_, fun y runs => ?_⟩
    · exact held.runQueue.congr fun y hy => elsewhere y (ne_of_mem_of_not_mem hy apart.1)
    · exact tail.congr fun y hy => elsewhere y (ne_of_mem_of_not_mem hy not_rest)
    · exact held.tempQueue.congr fun y hy => elsewhere y (ne_of_mem_of_not_mem hy apart.2)
    · -- the freed task was in this queue only
      have fewer : ((running k).toList ++ (run ++ (rest ++ temp))).Sublist
          (places k run (x :: rest) temp) := by
        rw [places, List.cons_append]
        refine (List.Sublist.refl _).append ((List.Sublist.refl _).append ?_)
        exact List.sublist_cons_self x (rest ++ temp)
      exact held.once.sublist fewer
    · have ne : y ≠ x := by
        rintro rfl
        exact (held.running_apart runs).2.1 List.mem_cons_self
      change (k.heap.free x y).isSome
      rw [elsewhere y ne]
      exact held.present y runs

/-! ## `remove_task` and `add_to_queue` -/

/-- What `remove_task` does when it returns: the task leaves `run_queue`, where it
was not the head, and is all that `temp_queue` holds. -/
inductive RemoveEffect (pid : ℕ) (k k' : Kernel) (run zombies : List ℕ) : Prop
  | none (absent : ∀ x ∈ run, pidAt k.heap x ≠ some pid) (same : k' = k)
  | moved {before after : List ℕ} {x : ℕ} {h : Heap Task} (behind : before ≠ [])
      (split : run = before ++ x :: after) (has : pidAt k.heap x = some pid)
      (first : ∀ y ∈ before, pidAt k.heap y ≠ some pid)
      (state : k' = { k with heap := h, tempQueue := some x }) (links : Links Set.univ k.heap h)
      (runQueue : Queue h k.runQueue (before ++ after))
      (zombiesQueue : Queue h k.zombiesQueue zombies) (tempQueue : Queue h (some x) [x])

theorem Held.removeTask_returns {pid : ℕ} (held : Held k run zombies temp)
    (returns : removeTask fuel pid k = .ok k') : RemoveEffect pid k k' run zombies := by
  obtain ⟨result, found, returns⟩ := outcome_bind_eq_ok.mp returns
  cases search_returns held.runQueue found with
  | absent none_has =>
    simp only [outcome_pure, Except.ok.injEq] at returns
    exact .none none_has returns.symm
  | @found before after x task split here pid_eq first =>
    obtain ⟨h₁, written, returns⟩ := outcome_bind_eq_ok.mp returns
    obtain ⟨h, cleared, last⟩ := outcome_bind_eq_ok.mp returns
    simp only [outcome_pure, Except.ok.injEq] at last
    obtain ⟨pre, front, -, rfl⟩ := Heap.write_eq_ok.mp written
    obtain ⟨_, same, there, rfl⟩ := Heap.write_eq_ok.mp cleared
    obtain rfl := Option.some.inj same
    rw [Option.or_none] at front
    obtain ⟨runQueue, zombiesQueue, -⟩ := held.unlinked split here front
    have apart := held.run_apart (x := x) (by simp [split])
    have not_rest := held.not_rest split
    refine .moved ?_ split (by rw [pidAt_eq here, pid_eq]) first last.symm ?_ ?_ ?_ ?_
    · rintro rfl
      simp at front
    · exact (links_setNext (Set.mem_univ pre) task.next).trans (links_setNext (Set.mem_univ x) none)
    · exact runQueue.congr fun y hy => Heap.modify_of_ne (ne_of_mem_of_not_mem hy not_rest)
    · exact zombiesQueue.congr fun y hy => Heap.modify_of_ne (ne_of_mem_of_not_mem hy apart.1)
    · exact Chain.nil.push List.not_mem_nil there fun _ => rfl

/-- The loop of `add_to_queue` ends at the last task. -/
theorem lastQueued_returns {heap : Heap Task} {p r : Option ℕ} {xs : List ℕ}
    (queue : Queue heap p xs) (returns : lastQueued heap fuel p = .ok r) :
    ∃ y, xs.getLast? = some y ∧ r = some y := by
  induction fuel generalizing p xs with
  | zero => simp [lastQueued] at returns
  | succ fuel ih =>
    rw [lastQueued] at returns
    obtain ⟨task, read, returns⟩ := outcome_bind_eq_ok.mp returns
    obtain ⟨x, rfl, here⟩ := Heap.get_eq_ok.mp read
    obtain ⟨rest, rfl⟩ := queue.exists_cons
    obtain ⟨task', here', -, tail⟩ := queue.exists_head
    obtain rfl : task = task' := Option.some.inj (here.symm.trans here')
    cases after : task.next with
    | none =>
      rw [after] at tail returns
      obtain rfl := tail.eq_nil
      simp only [outcome_pure, Except.ok.injEq] at returns
      exact ⟨x, rfl, returns.symm⟩
    | some next =>
      rw [after] at tail returns
      obtain ⟨y, last, result⟩ := ih tail returns
      refine ⟨y, ?_, result⟩
      rw [List.getLast?_cons, last]
      rfl

/-- What `add_to_queue` does: the task of `temp_queue` goes behind `run_queue`. -/
theorem Held.addToQueue_returns (held : Held k run zombies temp)
    (returns : addToQueue fuel k = .ok k') :
    Moved k k' run zombies temp (run ++ temp) zombies [] ∧ Links Set.univ k.heap k'.heap ∧
      running k' = running k ∧ k'.inShell = k.inShell ∧ k'.tempQueue = none := by
  cases waiting : k.tempQueue with
  | none =>
    have tempQueue := held.tempQueue
    rw [waiting] at tempQueue
    obtain rfl := tempQueue.eq_nil
    simp only [addToQueue, waiting, Except.ok.injEq] at returns
    subst returns
    rw [List.append_nil]
    exact ⟨⟨held, fun _ => rfl, List.Perm.refl _⟩, Relinked.refl _ _ _, rfl, rfl, waiting⟩
  | some y =>
    simp only [addToQueue, waiting] at returns
    obtain ⟨cur, found, returns⟩ := outcome_bind_eq_ok.mp returns
    obtain ⟨h, linked, last⟩ := outcome_bind_eq_ok.mp returns
    simp only [outcome_pure, Except.ok.injEq] at last
    obtain ⟨z, front, rfl⟩ := lastQueued_returns held.runQueue found
    obtain ⟨_, same, -, rfl⟩ := Heap.write_eq_ok.mp linked
    obtain rfl := Option.some.inj same
    -- the link of the last task of `run_queue` is set to the suspended task
    obtain ⟨ys, rfl⟩ := List.getLast?_eq_some_iff.mp front
    have apart := held.run_apart (x := z) (by simp)
    have tempQueue := held.tempQueue
    rw [waiting] at tempQueue
    subst last
    refine ⟨held.of_perm ?_ ?_ .nil (fun _ => Heap.isSome_modify) ?_,
      links_setNext (Set.mem_univ z) (some y), rfl, rfl, rfl⟩
    · exact held.runQueue.append tempQueue apart.2 fun _ => rfl
    · exact held.zombiesQueue.congr fun w hw =>
        Heap.modify_of_ne (ne_of_mem_of_not_mem hw apart.1)
    · refine List.perm_iff_count.mpr fun a => ?_
      simp only [places, running, List.count_append, List.count_nil]
      omega

/-! ## `idle_thread` -/

/-- What `idle_thread` does: the head of `run_queue` becomes the running task. -/
theorem Held.idleThread_returns {timer tick wrote freq : ℕ} (held : Held k run zombies temp)
    (inShell : k.inShell = true) (returns : idleThread fuel timer tick wrote freq k = .ok k') :
    Moved k k' run zombies temp run.tail zombies temp ∧ k'.current = run.head? ∧
      k'.inShell = false ∧ k'.heap = k.heap ∧ k'.pid = k.pid ∧ k'.signalExit = k.signalExit := by
  obtain ⟨⟨popTask, q⟩, popped, returns⟩ := outcome_bind_eq_ok.mp returns
  obtain ⟨timers, -, last⟩ := outcome_bind_eq_ok.mp returns
  simp only [outcome_pure, Except.ok.injEq] at last
  subst last
  obtain ⟨rfl, tail⟩ := dequeue_returns held.runQueue popped
  refine ⟨held.of_perm tail held.zombiesQueue held.tempQueue (fun _ => rfl) ?_, rfl, rfl,
    rfl, rfl, rfl⟩
  have before : running k = none := by rw [running, inShell]; rfl
  cases run with
  | nil => simp [places, running, inShell]
  | cons n rest => simp [places, running, inShell]

end BareMetal.Sched
