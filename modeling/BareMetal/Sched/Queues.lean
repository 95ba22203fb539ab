import BareMetal.Sched.Model

/-!
# The queue operations on lists

What each loop over a queue returns, in terms of the list of tasks in the queue:
`enqueue` appends, `dequeue` pops, and the searches stop at the first task with
the pid. They change no field of a task but `next`.
-/

namespace BareMetal.Sched

open CS

variable {heap heap' : Heap Task} {p q prev r : Option ℕ} {x fuel pid : ℕ} {xs : List ℕ}
  {task : Task}

/-- A queue holds the tasks `xs`, in this order. -/
abbrev Queue (heap : Heap Task) (p : Option ℕ) (xs : List ℕ) : Prop := Chain Task.next heap p xs

/-- A task without its link. -/
def Task.body (task : Task) : Task := { task with next := none }

/-- Only links of tasks in `S` have changed. -/
abbrev Links (S : Set ℕ) (heap heap' : Heap Task) : Prop := Relinked Task.body S heap heap'

theorem links_setNext {S : Set ℕ} (inside : x ∈ S) (next : Option ℕ) :
    Links S heap (heap.modify x (Task.setNext next)) :=
  Relinked.modify inside fun _ => rfl

/-- The pid of a task. -/
def pidAt (heap : Heap Task) (x : ℕ) : Option ℕ := (heap x).map Task.pid

theorem pidAt_eq (here : heap x = some task) : pidAt heap x = some task.pid := by
  rw [pidAt, here, Option.map_some]

/-- Fields other than `next` survive a change of links. -/
theorem field_of_links {S : Set ℕ} {γ : Type*} (field : Task → γ)
    (body : ∀ task, field task.body = field task) (change : Links S heap heap') (x : ℕ) :
    (heap' x).map field = (heap x).map field := by
  have same := congrArg (Option.map field) (change.view x)
  simp only [Option.map_map] at same
  rwa [show field ∘ Task.body = field from funext body] at same

theorem pidAt_of_links {S : Set ℕ} (change : Links S heap heap') : pidAt heap' = pidAt heap :=
  funext (field_of_links Task.pid (fun _ => rfl) change)

theorem pidAt_modify {f : Task → Task} (keeps : ∀ task, (f task).pid = task.pid) (y : ℕ) :
    pidAt (heap.modify x f) y = pidAt heap y :=
  Heap.map_modify keeps y

/-- A view of tasks that does not see links, states and handlers. -/
structure Steady {γ : Type*} (view : Task → γ) : Prop where
  next : ∀ p task, view (Task.setNext p task) = view task
  state : ∀ state task, view (Task.setState state task) = view task
  handler : ∀ (handler : Code) (task : Task), view { task with handler := handler } = view task

theorem steady_pid : Steady Task.pid := ⟨fun _ _ => rfl, fun _ _ => rfl, fun _ _ => rfl⟩

/-! ## `enqueue` and `dequeue` -/

/-- The loop of `enqueue` ends at the last task. -/
theorem lastTask_returns (queue : Queue heap p xs) (run : lastTask heap fuel prev p = .ok r) :
    r = xs.getLast?.or prev := by
  induction fuel generalizing p prev xs with
  | zero => simp [lastTask] at run
  | succ fuel ih =>
    cases xs with
    | nil =>
      obtain rfl : p = none := queue.linked
      simp only [lastTask, Except.ok.injEq] at run
      simp [run]
    | cons y ys =>
      obtain ⟨task, here, rfl, rest⟩ := queue.exists_head
      simp only [lastTask, Heap.get_some here, outcome_bind_ok] at run
      rw [ih rest run, List.getLast?_cons]
      cases ys.getLast? <;> rfl

/-- Enough fuel reaches the last task. -/
theorem lastTask_total (prev : Option ℕ) (queue : Queue heap p xs) (enough : xs.length < fuel) :
    ∃ r, lastTask heap fuel prev p = .ok r := by
  induction fuel generalizing p prev xs with
  | zero => omega
  | succ fuel ih =>
    cases xs with
    | nil =>
      obtain rfl : p = none := queue.linked
      exact ⟨prev, rfl⟩
    | cons y ys =>
      obtain ⟨task, here, rfl, rest⟩ := queue.exists_head
      simp only [lastTask, Heap.get_some here, outcome_bind_ok]
      exact ih _ rest (by simpa using enough)

/-- **`enqueue` appends** a task that is not in the queue. -/
theorem enqueue_returns (queue : Queue heap p xs) (outside : x ∉ xs)
    (run : enqueue fuel p (some x) heap = .ok (q, heap')) :
    Queue heap' q (xs ++ [x]) ∧ Links {y | y ∈ xs ++ [x]} heap heap' := by
  obtain ⟨heap₁, cleared, run⟩ := outcome_bind_eq_ok.mp run
  obtain ⟨_, same, here, rfl⟩ := Heap.write_eq_ok.mp cleared
  obtain rfl := Option.some.inj same
  have clear : Links {y | y ∈ xs ++ [x]} heap (heap.modify x (Task.setNext none)) :=
    links_setNext (by simp) none
  rcases List.eq_nil_or_concat xs with rfl | ⟨front, last, rfl⟩
  · -- the queue was empty
    obtain rfl : p = none := queue.linked
    simp only [outcome_pure, Except.ok.injEq, Prod.mk.injEq] at run
    obtain ⟨rfl, rfl⟩ := run
    exact ⟨Chain.nil.push List.not_mem_nil here fun _ => rfl, clear⟩
  · rw [List.concat_eq_append] at queue outside clear ⊢
    have cleared' : Queue (heap.modify x (Task.setNext none)) p (front ++ [last]) :=
      queue.congr fun y hy => Heap.modify_of_ne (ne_of_mem_of_not_mem hy outside)
    obtain ⟨y, rfl⟩ : ∃ y, p = some y := by
      cases p with
      | none => simpa using queue.eq_nil
      | some y => exact ⟨y, rfl⟩
    obtain ⟨r, found, run⟩ := outcome_bind_eq_ok.mp run
    obtain ⟨heap₂, linked, run⟩ := outcome_bind_eq_ok.mp run
    have at_last := lastTask_returns cleared' found
    rw [List.getLast?_append, List.getLast?_singleton, Option.some_or, Option.some_or] at at_last
    subst at_last
    obtain ⟨_, same, -, rfl⟩ := Heap.write_eq_ok.mp linked
    obtain rfl := Option.some.inj same
    simp only [outcome_pure, Except.ok.injEq, Prod.mk.injEq] at run
    obtain ⟨rfl, rfl⟩ := run
    constructor
    · rw [List.append_assoc]
      exact queue.snoc outside here (fun _ => rfl) fun _ => rfl
    · have inside : last ∈ {y | y ∈ front ++ [last] ++ [x]} := by simp
      exact clear.trans (links_setNext inside (some x))

/-- `enqueue` changes links only. -/
theorem enqueue_view {γ : Type*} {view : Task → γ} {p x : Option ℕ} (steady : Steady view)
    (run : enqueue fuel p x heap = .ok (q, heap')) (y : ℕ) :
    (heap' y).map view = (heap y).map view := by
  obtain ⟨heap₁, cleared, run⟩ := outcome_bind_eq_ok.mp run
  have clear := Heap.write_map cleared (steady.next _) y
  cases p with
  | none =>
    simp only [outcome_pure, Except.ok.injEq, Prod.mk.injEq] at run
    rw [← run.2, clear]
  | some p =>
    obtain ⟨r, -, run⟩ := outcome_bind_eq_ok.mp run
    obtain ⟨heap₂, linked, run⟩ := outcome_bind_eq_ok.mp run
    simp only [outcome_pure, Except.ok.injEq, Prod.mk.injEq] at run
    rw [← run.2, Heap.write_map linked (steady.next _), clear]

/-- `enqueue` leaves the other queues alone. -/
theorem enqueue_other {ys : List ℕ} (links : Links {y | y ∈ xs ++ [x]} heap heap')
    (other : Queue heap r ys) (apart : ∀ y ∈ ys, y ∉ xs) (outside : x ∉ ys) :
    Queue heap' r ys := by
  refine other.relinked links fun y hy => ?_
  simp only [Set.mem_ofPred_eq, List.mem_append, List.mem_singleton, not_or]
  exact ⟨apart y hy, ne_of_mem_of_not_mem hy outside⟩

/-- `enqueue` returns on a task that is allocated. -/
theorem enqueue_total (queue : Queue heap p xs) (outside : x ∉ xs) (here : (heap x).isSome)
    (enough : xs.length < fuel) : ∃ q heap', enqueue fuel p (some x) heap = .ok (q, heap') := by
  have cleared : Queue (heap.modify x (Task.setNext none)) p xs :=
    queue.congr fun y hy => Heap.modify_of_ne (ne_of_mem_of_not_mem hy outside)
  rw [enqueue, Heap.write_some here, outcome_bind_ok]
  cases p with
  | none => exact ⟨_, _, rfl⟩
  | some y =>
    obtain ⟨r, found⟩ := lastTask_total (some y) cleared enough
    have at_last := lastTask_returns cleared found
    -- the queue is not empty, so the loop ends at a task of it
    obtain ⟨z, last⟩ : ∃ z ∈ xs, r = some z := by
      obtain ⟨rest, rfl⟩ := queue.exists_cons
      obtain ⟨z, hz⟩ : ∃ z, (y :: rest).getLast? = some z :=
        ⟨_, List.getLast?_eq_getLast_of_ne_nil (by simp)⟩
      exact ⟨z, List.mem_of_getLast? hz, by rw [at_last, hz]; rfl⟩
    obtain ⟨inside, rfl⟩ := last
    dsimp only
    rw [found, outcome_bind_ok, Heap.write_some (cleared.allocated z inside)]
    exact ⟨_, _, rfl⟩

/-- `dequeue` pops the head. -/
theorem dequeue_returns (queue : Queue heap p xs) (run : dequeue p heap = .ok (r, q)) :
    r = xs.head? ∧ Queue heap q xs.tail := by
  cases xs with
  | nil =>
    obtain rfl : p = none := queue.linked
    simp only [dequeue, Except.ok.injEq, Prod.mk.injEq] at run
    obtain ⟨rfl, rfl⟩ := run
    exact ⟨rfl, .nil⟩
  | cons y ys =>
    obtain ⟨task, here, rfl, rest⟩ := queue.exists_head
    simp only [dequeue, Heap.get_some here, outcome_bind_ok, outcome_pure, Except.ok.injEq,
      Prod.mk.injEq] at run
    obtain ⟨rfl, rfl⟩ := run
    exact ⟨rfl, rest⟩

/-! ## Searches -/

/-- A list is split at its first element with a property in one way only. -/
theorem first_unique {P : ℕ → Prop} {before before' after after' : List ℕ} {x' : ℕ}
    (same : before ++ x :: after = before' ++ x' :: after') (has : P x) (has' : P x')
    (first : ∀ y ∈ before, ¬ P y) (first' : ∀ y ∈ before', ¬ P y) :
    before = before' ∧ x = x' ∧ after = after' := by
  rcases List.append_eq_append_iff.mp same with ⟨middle, front, back⟩ | ⟨middle, front, back⟩
  · cases middle with
    | nil =>
      obtain ⟨rfl, rfl⟩ := List.cons.inj back
      exact ⟨by simp [front], rfl, rfl⟩
    | cons w middle =>
      obtain ⟨rfl, -⟩ := List.cons.inj back
      exact absurd has (first' x (by simp [front]))
  · cases middle with
    | nil =>
      obtain ⟨rfl, rfl⟩ := List.cons.inj back
      exact ⟨by simp [front], rfl, rfl⟩
    | cons w middle =>
      obtain ⟨rfl, -⟩ := List.cons.inj back
      exact absurd has' (first x' (by simp [front]))

/-- What a search finds: the first task with the pid, and the one in front of it. -/
inductive Found (heap : Heap Task) (pid : ℕ) (pre : Option ℕ) (xs : List ℕ) :
    Option (Option ℕ × ℕ × Task) → Prop
  | absent (none_has : ∀ x ∈ xs, pidAt heap x ≠ some pid) : Found heap pid pre xs none
  | found {before after : List ℕ} {x : ℕ} {task : Task} (split : xs = before ++ x :: after)
      (here : heap x = some task) (pid_eq : task.pid = pid)
      (first : ∀ y ∈ before, pidAt heap y ≠ some pid) :
      Found heap pid pre xs (some (before.getLast?.or pre, x, task))

theorem search_returns {pre : Option ℕ} {result : Option (Option ℕ × ℕ × Task)}
    (queue : Queue heap p xs) (run : search heap pid fuel pre p = .ok result) :
    Found heap pid pre xs result := by
  induction fuel generalizing p pre xs with
  | zero => simp [search] at run
  | succ fuel ih =>
    cases xs with
    | nil =>
      obtain rfl : p = none := queue.linked
      simp only [search, Except.ok.injEq] at run
      subst run
      exact .absent (by simp)
    | cons y ys =>
      obtain ⟨task, here, rfl, rest⟩ := queue.exists_head
      rw [search, Heap.get_some here, outcome_bind_ok] at run
      split_ifs at run with same
      · simp only [outcome_pure, Except.ok.injEq] at run
        subst run
        exact .found (show y :: ys = [] ++ y :: ys from rfl) here same (by simp)
      · have other : pidAt heap y ≠ some pid := by
          rw [pidAt_eq here]
          simpa using same
        cases ih rest run with
        | absent none_has => exact .absent (by simpa using ⟨other, none_has⟩)
        | @found before after x task' split there pid_eq first =>
          have shifted : before.getLast?.or (some y) = (y :: before).getLast?.or pre := by
            rw [List.getLast?_cons]
            cases before.getLast? <;> rfl
          rw [shifted]
          exact .found (by rw [split]; rfl) there pid_eq (by simpa using ⟨other, first⟩)

/-- Enough fuel ends a search. -/
theorem search_total {pre : Option ℕ} (queue : Queue heap p xs) (enough : xs.length < fuel) :
    ∃ result, search heap pid fuel pre p = .ok result := by
  induction fuel generalizing p pre xs with
  | zero => omega
  | succ fuel ih =>
    cases xs with
    | nil =>
      obtain rfl : p = none := queue.linked
      exact ⟨none, rfl⟩
    | cons y ys =>
      obtain ⟨task, here, rfl, rest⟩ := queue.exists_head
      rw [search, Heap.get_some here, outcome_bind_ok]
      split_ifs
      · exact ⟨_, rfl⟩
      · exact ih rest (by simpa using enough)

end BareMetal.Sched
