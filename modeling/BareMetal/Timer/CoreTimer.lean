import BareMetal.Timer.Queue

/-!
# The core timer

`add_timer` sets the core timer and enables its interrupt only when the new timer
becomes the head of `timer_queue`; otherwise it leaves the core timer as it finds it. The
core timer counts the delay from the moment it is set, which is later than the reading of
the counter that `expired_time` comes from.

The interrupt is `Armed` when it is enabled and set no later than every pending
timer. Whether a call of `add_timer` arms it is decided by the state before the call.
-/

namespace BareMetal.Timer

open CS

variable {β : Type} {s s' : Timers β} {timer fuel tick wrote expired deadline : ℕ} {xs : List ℕ}
  {callback : β} {msg : List UInt8} {time : ℤ}

/-- The core timer interrupt is enabled, and set no later than every pending timer. -/
def Armed (s : Timers β) : Prop :=
  s.enabled = true ∧ ∃ xs, Queue s xs ∧ ∀ x ∈ xs, s.deadline ≤ expiry s.heap x

/-- A timer for `expired` is due before the head of the queue, and `deadline`, to which the core
timer is set then, is no later than this timer and any other; or it is not due before the head
and the interrupt is armed already. -/
def Arms (s : Timers β) (expired deadline : ℕ) : Prop :=
  ∃ xs, Queue s xs ∧
    (((∀ y ∈ xs.head?, expired < expiry s.heap y) ∧ deadline ≤ expired ∧
        ∀ x ∈ xs, deadline ≤ expiry s.heap x) ∨
      (∃ y ∈ xs.head?, expiry s.heap y ≤ expired) ∧ s.enabled = true ∧
        ∀ x ∈ xs, s.deadline ≤ expiry s.heap x)

/-- What `add_timer` does to the core timer. -/
inductive CoreEffect (expired deadline : ℕ) (s s' : Timers β) (xs : List ℕ) : Prop
  | set (first : ∀ y ∈ xs.head?, expired < expiry s.heap y) (enabled : s'.enabled = true)
      (sets : s'.deadline = deadline)
  | kept (behind : ∃ y ∈ xs.head?, expiry s.heap y ≤ expired) (enabled : s'.enabled = s.enabled)
      (keeps : s'.deadline = s.deadline)

/-- A delay of type `int` is counted from the write on. -/
theorem setCoreTimerInterrupt_deadline (low : -2 ^ 31 ≤ time) (high : time < 2 ^ 31) :
    (setCoreTimerInterrupt wrote (toU64 time) s).deadline = toU64 (time + wrote) := by
  rw [setCoreTimerInterrupt, toInt32_toU64 low high, Int.add_comm]

theorem Queue.addTimer_core (queue : Queue s xs) (fresh : s.heap timer = none)
    (low : -2 ^ 31 ≤ time) (high : time < 2 ^ 31)
    (returns : addTimer fuel timer callback msg time tick wrote s = .ok s') :
    CoreEffect (toU64 (time + tick)) (toU64 (time + wrote)) s s' xs := by
  have short : msg.length < 100 := by
    by_contra long
    simp [addTimer, not_lt.mp long] at returns
  cases xs with
  | nil =>
    rw [addTimer_null short queue.linked, Except.ok.injEq] at returns
    subst returns
    refine .set (by simp) (coreTimerInterruptEnable_enabled _) ?_
    rw [coreTimerInterruptEnable_deadline]
    exact setCoreTimerInterrupt_deadline low high
  | cons y ys =>
    obtain ⟨outside, chain⟩ := queue.alloc fresh (newTimer callback msg time tick)
    obtain ⟨u, here, -, -⟩ := chain.exists_head
    have ne : y ≠ timer := fun same => outside (by simp [same])
    have key : expiry s.heap y = u.expiredTime := by
      rw [Heap.alloc_of_ne ne] at here
      exact expiry_eq here
    rw [addTimer_cons short queue.linked.head here] at returns
    dsimp only at returns
    split_ifs at returns with earlier
    · -- the new timer is the first one to expire
      simp only [Except.ok.injEq] at returns
      subst returns
      refine .set ?_ (coreTimerInterruptEnable_enabled _) ?_
      · simp only [List.head?_cons, Option.mem_some_iff, forall_eq', key]
        exact earlier
      · rw [coreTimerInterruptEnable_deadline]
        exact setCoreTimerInterrupt_deadline low high
    · -- the first one stays
      obtain ⟨place, -, last⟩ := outcome_bind_eq_ok.mp returns
      simp only [Except.ok.injEq] at last
      subst last
      exact .kept ⟨y, rfl, key ▸ not_lt.mp earlier⟩ rfl rfl

/-- **`add_timer` arms the interrupt** exactly if it becomes the head and sets the core timer to
no later than every timer, or the interrupt is armed already. -/
theorem Queue.addTimer_armed_iff (queue : Queue s xs) (fresh : s.heap timer = none)
    (low : -2 ^ 31 ≤ time) (high : time < 2 ^ 31)
    (returns : addTimer fuel timer callback msg time tick wrote s = .ok s') :
    Armed s' ↔ Arms s (toU64 (time + tick)) (toU64 (time + wrote)) := by
  obtain ⟨ys, effect⟩ := queue.addTimer_returns fresh ⟨fuel, returns⟩
  have outside : timer ∉ xs := (queue.alloc fresh (newTimer callback msg time tick)).1
  have old : ∀ x ∈ xs, expiry s'.heap x = expiry s.heap x := fun x hx =>
    effect.expiry_old x (ne_of_mem_of_not_mem hx outside)
  -- the deadline has to be no later than the new timer and the old ones
  have armed_iff : Armed s' ↔ s'.enabled = true ∧ s'.deadline ≤ toU64 (time + tick) ∧
      ∀ x ∈ xs, s'.deadline ≤ expiry s.heap x := by
    have all : (∀ x ∈ ys, s'.deadline ≤ expiry s'.heap x) ↔
        s'.deadline ≤ toU64 (time + tick) ∧ ∀ x ∈ xs, s'.deadline ≤ expiry s.heap x := by
      constructor
      · intro due
        refine ⟨effect.expiry_new ▸ due timer (effect.placed.mem_iff.mpr (.inl rfl)),
          fun x hx => ?_⟩
        rw [← old x hx]
        exact due x (effect.placed.mem_iff.mpr (.inr hx))
      · rintro ⟨new, due⟩ x hx
        rcases effect.placed.mem_iff.mp hx with rfl | inside
        · rwa [effect.expiry_new]
        · rw [old x inside]
          exact due x inside
    rw [← all]
    constructor
    · rintro ⟨enabled, zs, queue', due⟩
      rw [queue'.linked.unique effect.queue.linked] at due
      exact ⟨enabled, due⟩
    · rintro ⟨enabled, due⟩
      exact ⟨enabled, ys, effect.queue, due⟩
  have unique : ∀ {zs}, Queue s zs → zs = xs := fun queue' => queue'.linked.unique queue.linked
  rw [armed_iff]
  cases queue.addTimer_core fresh low high returns with
  | set first enabled sets =>
    rw [enabled, sets]
    constructor
    · rintro ⟨-, own, due⟩
      exact ⟨xs, queue, .inl ⟨first, own, due⟩⟩
    · rintro ⟨zs, queue', ⟨-, own, due⟩ | ⟨⟨y, head, late⟩, -⟩⟩
      · rw [unique queue'] at due
        exact ⟨rfl, own, due⟩
      · rw [unique queue'] at head
        exact absurd (first y head) (not_lt.mpr late)
  | kept behind enabled keeps =>
    obtain ⟨y, head, late⟩ := behind
    rw [enabled, keeps]
    constructor
    · rintro ⟨armed, -, due⟩
      exact ⟨xs, queue, .inr ⟨⟨y, head, late⟩, armed, due⟩⟩
    · rintro ⟨zs, queue', ⟨first, -⟩ | ⟨-, armed, due⟩⟩
      · rw [unique queue'] at first
        exact absurd (first y head) (not_lt.mpr late)
      · rw [unique queue'] at due
        exact ⟨armed, (due y (List.mem_of_mem_head? head)).trans late, due⟩

end BareMetal.Timer
