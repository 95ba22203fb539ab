import BareMetal.Math.Ordered
import BareMetal.Timer.Model

/-!
# The timer queue as a list

`Queue s xs` says that `timer_queue` leads through the timers at `xs`. `add_timer`
puts its timer in front of the list or behind one of its entries; `Placed` says
which. The loop compares the deadline of `pre`, not of `next`, so it stops behind
the first timer that is not earlier than the new one.
-/

namespace BareMetal.Timer

open CS Math

variable {β : Type} {s s' : Timers β} {heap heap' : Heap (TimerList β)} {x y timer fuel : ℕ}
  {xs ys : List ℕ}

/-- `timer_queue` leads through the timers `xs`. -/
abbrev Queue (s : Timers β) (xs : List ℕ) : Prop := Chain TimerList.next s.heap s.timerQueue xs

/-- The deadline of a timer. -/
def expiry (heap : Heap (TimerList β)) (x : ℕ) : ℕ :=
  match heap x with
  | none => 0
  | some t => t.expiredTime

theorem expiry_eq {t : TimerList β} (here : heap x = some t) : expiry heap x = t.expiredTime := by
  simp [expiry, here]

theorem expiry_congr (agree : heap' x = heap x) : expiry heap' x = expiry heap x := by
  rw [expiry, expiry, agree]

/-- Setting `next` leaves all deadlines alone. -/
@[simp] theorem expiry_modify (x : ℕ) (next : Option ℕ) : expiry
    (heap.modify x fun t => { t with next := next }) = expiry heap := by
  funext y
  by_cases same : y = x
  · subst same
    cases here : heap y <;> simp [expiry, here]
  · exact expiry_congr (Heap.modify_of_ne same)

/-- Setting `next` allocates and frees nothing. -/
theorem setNext_links (here : (s.heap x).isSome) (next : Option ℕ) :
    Heap.links TimerList.next (setNext x next s).heap =
      Function.update (Heap.links TimerList.next s.heap) x next :=
  Heap.links_modify_of_set (fun _ => rfl) here

/-! ## The insertion point -/

/-- The loop of `add_timer` passes the earlier timers and stops behind the first
that is not earlier, or behind the last. -/
theorem insertPoint_eq (chain : Chain TimerList.next heap (some y) (y :: ys)) (expired : ℕ)
    (enough : ys.length < fuel) :
    ∃ before pre after, y :: ys = before ++ pre :: after ∧
      insertPoint heap expired fuel y (Heap.links TimerList.next heap y) =
        .ok (pre, Heap.links TimerList.next heap pre) ∧
      (∀ z ∈ before, expiry heap z < expired) ∧ (after = [] ∨ expired ≤ expiry heap pre) := by
  induction ys generalizing y fuel with
  | nil =>
    obtain ⟨fuel, rfl⟩ := Nat.exists_eq_add_of_lt enough
    have last : Heap.links TimerList.next heap y = none := chain.linked.2
    refine ⟨[], y, [], rfl, ?_, by simp, .inl rfl⟩
    simp [insertPoint, last]
  | cons z zs ih =>
    obtain ⟨fuel, rfl⟩ : ∃ fuel', fuel = fuel' + 1 := ⟨fuel - 1, by simp at enough; omega⟩
    obtain ⟨t, here, -, rest⟩ := chain.exists_head
    obtain ⟨u, there, link, -⟩ := rest.exists_head
    rw [link] at rest
    have step : Heap.links TimerList.next heap y = some z := by
      rw [Heap.links_eq _ here, link]
    -- the loop passes this timer, or stops at it
    by_cases earlier : t.expiredTime < expired
    · obtain ⟨before, pre, after, split, run, below, stop⟩ :=
        ih rest (show zs.length < fuel by simpa using enough)
      refine ⟨y :: before, pre, after, by rw [split]; rfl, ?_, fun w hw => ?_, stop⟩
      · rw [step, insertPoint, Heap.get_some here, outcome_bind_ok, if_pos earlier,
          Heap.get_some there, outcome_bind_ok, ← Heap.links_eq TimerList.next there]
        exact run
      · rcases List.mem_cons.mp hw with rfl | front
        · rwa [expiry_eq here]
        · exact below w front
    · refine ⟨[], y, z :: zs, rfl, ?_, by simp, .inr ?_⟩
      · rw [step, insertPoint, Heap.get_some here, outcome_bind_ok, if_neg earlier]
        rfl
      · rw [expiry_eq here]
        exact not_lt.mp earlier

theorem insertPoint_mono (heap : Heap (TimerList β)) (expired pre : ℕ) (next : Option ℕ) :
    FuelMonotone fun fuel => insertPoint heap expired fuel pre next := by
  intro fuel r h
  change insertPoint heap expired (fuel + 1) pre next = .ok r
  replace h : insertPoint heap expired fuel pre next = .ok r := h
  induction fuel generalizing pre next with
  | zero => simp [insertPoint] at h
  | succ fuel ih =>
    cases next with
    | none => exact h
    | some next =>
      rw [insertPoint] at h ⊢
      obtain ⟨first, here, h⟩ := outcome_bind_eq_ok.mp h
      refine outcome_bind_eq_ok.mpr ⟨first, here, ?_⟩
      split_ifs at h ⊢ with earlier
      · obtain ⟨second, there, h⟩ := outcome_bind_eq_ok.mp h
        exact outcome_bind_eq_ok.mpr ⟨second, there, ih _ _ h⟩
      · exact h

/-! ## `add_timer` -/

/-- Where `add_timer` puts a new timer: in front of the list when it is earlier
than the head, behind the first timer that is not earlier otherwise. -/
inductive Placed (key : ℕ → ℕ) (timer : ℕ) : List ℕ → List ℕ → Prop
  | only : Placed key timer [] [timer]
  | front {y : ℕ} {ys : List ℕ} (earlier : key timer < key y) :
      Placed key timer (y :: ys) (timer :: y :: ys)
  | behind {before after : List ℕ} {pre : ℕ}
      (head : ∀ z, (before ++ pre :: after).head? = some z → key z ≤ key timer)
      (below : ∀ z ∈ before, key z < key timer) (stop : after = [] ∨ key timer ≤ key pre) :
      Placed key timer (before ++ pre :: after) (before ++ pre :: timer :: after)

theorem Placed.mem_iff {key : ℕ → ℕ} (placed : Placed key timer xs ys) :
    x ∈ ys ↔ x = timer ∨ x ∈ xs := by
  cases placed with
  | only => simp
  | front => simp
  | behind =>
    simp only [List.mem_append, List.mem_cons]
    tauto

/-- The list stays ordered exactly when the new key fits. -/
theorem Placed.ordered_iff {key : ℕ → ℕ} (placed : Placed key timer xs ys)
    (ordered : Ordered key xs) : Ordered key ys ↔ Fits key (key timer) xs := by
  cases placed with
  | only => exact ⟨fun _ => .inr (.inl (by simp)), fun _ => List.pairwise_singleton _ _⟩
  | front earlier => exact ⟨fun _ => fits_of_lt_head ordered earlier, fun _ => ordered.push earlier⟩
  | behind head below stop =>
    rw [ordered_insert_iff ordered below stop, fits_iff ordered below stop head]

/-- What `add_timer` does to the queue. -/
structure AddEffect (timer expired : ℕ) (s s' : Timers β) (xs ys : List ℕ) : Prop where
  queue : Queue s' ys
  placed : Placed (expiry s'.heap) timer xs ys
  expiry_new : expiry s'.heap timer = expired
  expiry_old : ∀ x, x ≠ timer → expiry s'.heap x = expiry s.heap x
  kept : ∀ x, (s'.heap x).isSome ↔ x = timer ∨ (s.heap x).isSome

/-- Once the list is in place, only links have changed since the record was
allocated. -/
theorem AddEffect.of_alloc {t : TimerList β} (queue : Queue s' ys)
    (placed : Placed (expiry s'.heap) timer xs ys)
    (times : expiry s'.heap = expiry (s.heap.alloc timer t))
    (kept : ∀ x, (s'.heap x).isSome = (s.heap.alloc timer t x).isSome) :
    AddEffect timer t.expiredTime s s' xs ys where
  queue := queue
  placed := placed
  expiry_new := by
    rw [times]
    exact expiry_eq Heap.alloc_self
  expiry_old x ne := by
    rw [times]
    exact expiry_congr (Heap.alloc_of_ne ne)
  kept x := by
    rw [kept]
    exact Heap.isSome_alloc

section AddTimer

variable {callback : β} {msg : List UInt8} {time : ℤ} {tick wrote : ℕ} {u : TimerList β}

/-- The fields `add_timer` writes first. -/
def newTimer (callback : β) (msg : List UInt8) (time : ℤ) (tick : ℕ) : TimerList β :=
  ⟨toU64 (time + tick), callback, msg, none⟩

theorem addTimer_null (short : msg.length < 100) (null : s.timerQueue = none) :
    addTimer fuel timer callback msg time tick wrote s =
      .ok (coreTimerInterruptEnable (setCoreTimerInterrupt wrote (toU64 time)
        { s with
          heap := s.heap.alloc timer (newTimer callback msg time tick)
          timerQueue := some timer })) := by
  rw [addTimer, if_neg (not_le.mpr short)]
  dsimp only
  rw [null]
  rfl

theorem addTimer_cons (short : msg.length < 100) (head : s.timerQueue = some y)
    (here : s.heap.alloc timer (newTimer callback msg time tick) y = some u) :
    addTimer fuel timer callback msg time tick wrote s =
      let s := { s with heap := s.heap.alloc timer (newTimer callback msg time tick) }
      if u.expiredTime > toU64 (time + tick) then
        .ok (coreTimerInterruptEnable (setCoreTimerInterrupt wrote (toU64 time)
          { setNext timer (some y) s with timerQueue := some timer }))
      else
        insertPoint s.heap (toU64 (time + tick)) fuel y u.next >>= fun place =>
          .ok (setNext timer place.2 (setNext place.1 (some timer) s)) := by
  rw [addTimer, if_neg (not_le.mpr short)]
  dsimp only
  rw [head]
  dsimp only
  rw [show s.heap.alloc timer ⟨toU64 (time + tick), callback, msg, none⟩ =
    s.heap.alloc timer (newTimer callback msg time tick) from rfl, Heap.get_some here]
  rfl

/-- **`add_timer` returns** when its message fits, and has put the timer into the
queue. -/
theorem Queue.addTimer_ok (queue : Queue s xs) (fresh : s.heap timer = none)
    (short : msg.length < 100) (enough : xs.length ≤ fuel) :
    ∃ s' ys, addTimer fuel timer callback msg time tick wrote s = .ok s' ∧
      AddEffect timer (toU64 (time + tick)) s s' xs ys := by
  let t := newTimer callback msg time tick
  obtain ⟨outside, chain⟩ := queue.alloc fresh t
  have own : expiry (s.heap.alloc timer t) timer = toU64 (time + tick) := expiry_eq Heap.alloc_self
  cases xs with
  | nil =>
    have null : s.timerQueue = none := queue.linked
    refine ⟨_, [timer], addTimer_null short null, .of_alloc (t := t) ?_ .only rfl fun _ => rfl⟩
    refine ⟨⟨rfl, Heap.links_eq _ Heap.alloc_self⟩, fun x hx => ?_⟩
    rw [List.mem_singleton.mp hx]
    exact Heap.isSome_alloc.mpr (.inl rfl)
  | cons y ys =>
    have head := queue.linked.head
    obtain ⟨u, here, -, rest⟩ := chain.exists_head
    rw [head] at chain
    have key := expiry_eq here
    rw [addTimer_cons short head here]
    dsimp only
    split_ifs with earlier
    · -- in front of the head
      refine ⟨_, timer :: y :: ys, rfl, .of_alloc (t := t) ?_ (.front ?_) ?_ ?_⟩
      · exact chain.push outside (by simp) fun _ => rfl
      · change expiry ((s.heap.alloc timer t).modify timer _) timer <
          expiry ((s.heap.alloc timer t).modify timer _) y
        rw [expiry_modify, own, key]
        exact earlier
      · exact expiry_modify _ _
      · exact fun x => Heap.isSome_modify
    · -- behind `pre`
      have length : ys.length < fuel := enough
      obtain ⟨before, pre, after, split, run, below, stop⟩ :=
        insertPoint_eq chain (toU64 (time + tick)) length
      rw [Heap.links_eq _ here] at run
      rw [run, outcome_bind_ok]
      rw [split] at chain outside ⊢
      -- two stores link the timer in, and neither changes a deadline
      let s₁ : Timers β := { s with heap := s.heap.alloc timer t }
      have pre_here : (s₁.heap pre).isSome := chain.allocated pre (by simp)
      have timer_here : ((setNext pre (some timer) s₁).heap timer).isSome := by
        rw [setNext, Heap.isSome_modify]
        simp [s₁]
      have times : expiry (setNext timer (Heap.links TimerList.next s₁.heap pre)
          (setNext pre (some timer) s₁)).heap = expiry s₁.heap := by
        rw [setNext, expiry_modify, setNext, expiry_modify]
      refine ⟨_, before ++ pre :: timer :: after, rfl, .of_alloc (t := t) ?_ ?_ times ?_⟩
      · refine ⟨?_, fun x hx => ?_⟩
        · rw [setNext_links timer_here, setNext_links pre_here]
          have queue_head : s.timerQueue = some y := head
          exact queue_head ▸ chain.linked.insert outside
        · change ((((s.heap.alloc timer t).modify pre _).modify timer _) x).isSome
          rw [Heap.isSome_modify, Heap.isSome_modify, Heap.isSome_alloc]
          simp only [List.mem_append, List.mem_cons] at hx
          by_cases new : x = timer
          · exact .inl new
          · have old := chain.allocated x (by simp; tauto)
            exact Heap.isSome_alloc.mp old
      · change Placed (expiry (setNext timer _ (setNext pre (some timer) s₁)).heap) timer _ _
        rw [times]
        apply Placed.behind
        · intro z hz
          rw [← split, List.head?_cons, Option.some.injEq] at hz
          rw [← hz, own, key]
          exact not_lt.mp earlier
        · rwa [own]
        · rwa [own]
      · intro x
        change ((((s.heap.alloc timer t).modify pre _).modify timer _) x).isSome = _
        rw [Heap.isSome_modify, Heap.isSome_modify]

theorem addTimer_mono (timer : ℕ) (callback : β) (msg : List UInt8) (time : ℤ) (tick wrote : ℕ)
    (s : Timers β) :
    FuelMonotone fun fuel => addTimer fuel timer callback msg time tick wrote s := by
  intro fuel r h
  simp only [addTimer] at h ⊢
  split_ifs at h ⊢
  cases head : s.timerQueue with
  | none => simpa [head] using h
  | some y =>
    simp only [head] at h ⊢
    obtain ⟨first, here, h⟩ := outcome_bind_eq_ok.mp h
    refine outcome_bind_eq_ok.mpr ⟨first, here, ?_⟩
    split_ifs at h ⊢
    · exact h
    · obtain ⟨place, found, h⟩ := outcome_bind_eq_ok.mp h
      exact outcome_bind_eq_ok.mpr ⟨place, insertPoint_mono _ _ _ _ found, h⟩

/-- Every return of `add_timer` has put the timer into the queue. -/
theorem Queue.addTimer_returns (queue : Queue s xs) (fresh : s.heap timer = none)
    (returns : Returns (fun fuel => addTimer fuel timer callback msg time tick wrote s) s') :
    ∃ ys, AddEffect timer (toU64 (time + tick)) s s' xs ys := by
  have short : msg.length < 100 := by
    by_contra long
    obtain ⟨fuel, run⟩ := returns
    simp [addTimer, not_lt.mp long] at run
  obtain ⟨s'', ys, run, effect⟩ := queue.addTimer_ok fresh short le_rfl
  obtain rfl := (addTimer_mono timer callback msg time tick wrote s).returns_unique returns ⟨_, run⟩
  exact ⟨ys, effect⟩

end AddTimer

/-! ## `pop_timer` -/

/-- The timer unlinked is the head of the queue. -/
theorem Queue.unlinkTimer_returns {t : TimerList β} (queue : Queue s xs)
    (run : unlinkTimer s = .ok (timer, t, s')) :
    ∃ rest, xs = timer :: rest ∧ s.heap timer = some t ∧ Queue s' rest ∧ s'.heap = s.heap := by
  cases xs with
  | nil =>
    have null : s.timerQueue = none := queue.linked
    simp [unlinkTimer, null] at run
  | cons y rest =>
    obtain ⟨u, here, head, tail⟩ := queue.exists_head
    simp only [unlinkTimer, head, Heap.get_some here, outcome_bind_ok, outcome_pure,
      Except.ok.injEq, Prod.mk.injEq] at run
    obtain ⟨rfl, rfl, rfl⟩ := run
    exact ⟨rest, rfl, here, tail, rfl⟩

/-- Setting the core timer leaves the queue alone. -/
theorem resetCoreTimer_returns {tick wrote : ℕ} (run : resetCoreTimer tick wrote s = .ok s') :
    s'.timerQueue = s.timerQueue ∧ s'.heap = s.heap := by
  unfold resetCoreTimer at run
  cases head : s.timerQueue with
  | none =>
    simp only [head, Except.ok.injEq] at run
    subst run
    exact ⟨head, rfl⟩
  | some y =>
    simp only [head] at run
    obtain ⟨u, -, run⟩ := outcome_bind_eq_ok.mp run
    simp only [outcome_pure, Except.ok.injEq] at run
    rw [← run, coreTimerInterruptEnable_timerQueue, setCoreTimerInterrupt_timerQueue,
      coreTimerInterruptEnable_heap, setCoreTimerInterrupt_heap]
    exact ⟨head, rfl⟩

/-- Freeing a timer that is not queued leaves the queue alone. -/
theorem Queue.finishTimer_returns {tick wrote : ℕ} (queue : Queue s xs) (outside : timer ∉ xs)
    (run : finishTimer timer tick wrote s = .ok s') :
    Queue s' xs ∧ s'.heap = s.heap.free timer := by
  obtain ⟨s₁, reset, run⟩ := outcome_bind_eq_ok.mp run
  obtain ⟨head, heap⟩ := resetCoreTimer_returns reset
  simp only [outcome_pure, Except.ok.injEq] at run
  subst run
  refine ⟨?_, by rw [heap]⟩
  rw [Queue, head, heap]
  exact queue.congr fun x hx => Heap.free_of_ne (ne_of_mem_of_not_mem hx outside)

end BareMetal.Timer
