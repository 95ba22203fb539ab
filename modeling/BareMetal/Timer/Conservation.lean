import BareMetal.Timer.Order
import Mathlib.Data.Multiset.MapFold

/-!
# Are timers lost or duplicated?

`add_timer` may be called with any delay, at any value of the counter, and by the
callbacks too; `pop_timer` is called on a queue that is not empty. A run interleaves
these calls in any order, as a callback may add timers and may leave for another task
before it returns.

Addresses are used again after `free`, so a timer is its address together with its
callback and its message. The law is an equation between multisets: what was added is
what was called, together with what the queue holds.

## Main results

* `CallStep.conserved` — one call keeps the balance
* `Run.timers_conserved` — after every run from boot the queue is a list without
  repetition that holds exactly what was added and not called, and the next call of each
  kind returns
-/

namespace BareMetal.Timer

open CS

variable {β : Type}

/-- What the events of a run are: `add_timer` is called, `pop_timer` calls a callback
with the message of its timer, and the callback returns. -/
inductive Call (β : Type)
  | add (timer : ℕ) (callback : β) (msg : List UInt8) (time : ℤ) (tick : ℕ)
  | pop (timer : ℕ) (callback : β) (msg : List UInt8)
  | finish (timer tick : ℕ)

/-- One step: `malloc_` hands `add_timer` an address that is not in use. -/
inductive CallStep : System β → Call β → System β → Prop
  | add {s : System β} {timer : ℕ} {callback : β} {msg : List UInt8} {time : ℤ} {tick wrote : ℕ}
      {t : Timers β} (fresh : s.timers.heap timer = none) (short : msg.length < 100)
      (returns : Returns (fun fuel => addTimer fuel timer callback msg time tick wrote s.timers)
        t) : CallStep s (.add timer callback msg time tick) { s with timers := t, clock := wrote }
  | pop {s : System β} {timer : ℕ} {r : TimerList β} {t : Timers β}
      (returns : unlinkTimer s.timers = .ok (timer, r, t)) :
      CallStep s (.pop timer r.callBack r.msg)
        { s with timers := t, popped := timer :: s.popped }
  | finish {s : System β} {timer tick wrote : ℕ} {t : Timers β} (running : timer ∈ s.popped)
      (returns : finishTimer timer tick wrote s.timers = .ok t) :
      CallStep s (.finish timer tick)
        { s with timers := t, popped := s.popped.erase timer, clock := wrote }

/-- A timer: its address, its callback and its message. -/
abbrev Entry (β : Type) := ℕ × Option (β × List UInt8)

/-- What a record says about the call to make. -/
def content (r : TimerList β) : β × List UInt8 := (r.callBack, r.msg)

/-- The timer at an address. -/
def entry (heap : Heap (TimerList β)) (x : ℕ) : Entry β := (x, (heap x).map content)

/-- The timers that a run added. -/
def added (w : List (Call β)) : Multiset (Entry β) :=
  w.filterMap fun
    | .add timer callback msg _ _ => some (timer, some (callback, msg))
    | .pop _ _ _ => none
    | .finish _ _ => none

/-- The timers whose callback a run called, with the message it was given. -/
def called (w : List (Call β)) : Multiset (Entry β) :=
  w.filterMap fun
    | .add _ _ _ _ _ => none
    | .pop timer callback msg => some (timer, some (callback, msg))
    | .finish _ _ => none

/-- The timers at the addresses `xs`. -/
def pending (s : System β) (xs : List ℕ) : Multiset (Entry β) := xs.map (entry s.timers.heap)

section Events

variable (w : List (Call β)) (timer tick : ℕ) (callback : β) (msg : List UInt8) (time : ℤ)

@[simp] theorem added_add : added (w ++ [.add timer callback msg time tick]) =
    (timer, some (callback, msg)) ::ₘ added w := by
  rw [added, List.filterMap_append, ← Multiset.coe_add, Multiset.add_comm]
  rfl

@[simp] theorem added_pop : added (w ++ [.pop timer callback msg]) = added w := by
  simp [added]

@[simp] theorem added_finish : added (w ++ [.finish timer tick]) = added w := by
  simp [added]

@[simp] theorem called_add : called (w ++ [.add timer callback msg time tick]) = called w := by
  simp [called]

@[simp] theorem called_pop : called (w ++ [.pop timer callback msg]) =
    (timer, some (callback, msg)) ::ₘ called w := by
  rw [called, List.filterMap_append, ← Multiset.coe_add, Multiset.add_comm]
  rfl

@[simp] theorem called_finish : called (w ++ [.finish timer tick]) = called w := by
  simp [called]

end Events

/-! ## One call -/

variable {s t : System β} {e : Call β} {w : List (Call β)} {xs : List ℕ}

section AddTimer

variable {timers timers' : Timers β} {timer tick wrote fuel : ℕ} {callback : β}
  {msg : List UInt8} {time : ℤ}

/-- `add_timer` writes the callback and the message of its own record only. -/
theorem addTimer_content
    (run : addTimer fuel timer callback msg time tick wrote timers = .ok timers')
    (x : ℕ) : (timers'.heap x).map content =
      (timers.heap.alloc timer (newTimer callback msg time tick) x).map content := by
  have relink (heap : Heap (TimerList β)) (y : ℕ) (next : Option ℕ) :
      (heap.modify y (fun r => { r with next := next }) x).map content =
        (heap x).map content := by
    apply Heap.map_modify
    exact fun _ => rfl
  simp only [addTimer] at run
  split_ifs at run
  -- behind the new record, each branch changes links and the compare register
  cases head : timers.timerQueue with
  | none =>
    simp only [head, outcome_pure, Except.ok.injEq] at run
    rw [← run, coreTimerInterruptEnable_heap, setCoreTimerInterrupt_heap]
    rfl
  | some y =>
    simp only [head] at run
    obtain ⟨first, -, run⟩ := outcome_bind_eq_ok.mp run
    split_ifs at run
    · simp only [outcome_pure, Except.ok.injEq] at run
      rw [← run, coreTimerInterruptEnable_heap, setCoreTimerInterrupt_heap]
      apply relink
    · obtain ⟨place, -, run⟩ := outcome_bind_eq_ok.mp run
      simp only [outcome_pure, Except.ok.injEq] at run
      rw [← run]
      exact (relink _ _ _).trans (relink _ _ _)

/-- A timer is put somewhere into the list. -/
theorem Placed.perm {key : ℕ → ℕ} {ys : List ℕ} (placed : Placed key timer xs ys) :
    ys.Perm (timer :: xs) := by
  cases placed with
  | only => exact .refl _
  | front => exact .refl _
  | @behind before after pre =>
    have later : (pre :: timer :: after).Perm (timer :: pre :: after) := .swap timer pre after
    exact (later.append_left before).trans List.perm_middle

/-- Records that agree at `xs` hold the same timers there. -/
theorem pending_congr (same : ∀ x ∈ xs, t.timers.heap x = s.timers.heap x) :
    pending t xs = pending s xs := by
  have entries : xs.map (entry t.timers.heap) = xs.map (entry s.timers.heap) :=
    List.map_congr_left fun x hx => by rw [entry, entry, same x hx]
  exact congrArg _ entries

/-- A call of `add_timer` puts its own timer into the queue and leaves the others as
they are. -/
theorem Consistent.add_pending (inv : Consistent s xs) (fresh : s.timers.heap timer = none)
    (returns : Returns (fun fuel => addTimer fuel timer callback msg time tick wrote s.timers)
      timers) : ∃ ys, Consistent ⟨timers, s.popped, wrote⟩ ys ∧
      pending ⟨timers, s.popped, wrote⟩ ys = (timer, some (callback, msg)) ::ₘ pending s xs := by
  obtain ⟨ys, effect⟩ := inv.queue.addTimer_returns fresh returns
  obtain ⟨fuel, run⟩ := returns
  have outside := (inv.queue.alloc fresh (newTimer callback msg time tick)).1
  have new : entry timers.heap timer = (timer, some (callback, msg)) := by
    rw [entry, addTimer_content run, Heap.alloc_self]
    rfl
  have old : ∀ x ∈ xs, entry timers.heap x = entry s.timers.heap x := by
    intro x hx
    rw [entry, addTimer_content run, Heap.alloc_of_ne (ne_of_mem_of_not_mem hx outside), entry]
  refine ⟨ys, inv.of_add fresh effect, ?_⟩
  have perm := effect.placed.perm.map (entry timers.heap)
  rw [List.map_cons, new, List.map_congr_left old] at perm
  exact Multiset.coe_eq_coe.mpr perm

end AddTimer

/-- The queue is a list, and with what was called it makes up what was added. -/
def Balanced (w : List (Call β)) (s : System β) (xs : List ℕ) : Prop :=
  Consistent s xs ∧ added w = called w + pending s xs

/-- **One call keeps the balance.** -/
theorem CallStep.conserved (balanced : Balanced w s xs) (step : CallStep s e t) :
    ∃ ys, Balanced (w ++ [e]) t ys := by
  obtain ⟨inv, balance⟩ := balanced
  cases step with
  | add fresh short returns =>
    obtain ⟨ys, inv', grown⟩ := inv.add_pending fresh returns
    refine ⟨ys, inv', ?_⟩
    rw [added_add, called_add, grown, balance, Multiset.add_cons]
  | @pop timer r _ returns =>
    obtain ⟨rest, rfl, inv', heap⟩ := inv.of_unlink s.clock returns
    obtain ⟨-, -, here, -⟩ := inv.queue.unlinkTimer_returns returns
    refine ⟨rest, inv', ?_⟩
    -- what is called is what was the first of the queue
    have taken : pending s (timer :: rest) =
        (timer, some (r.callBack, r.msg)) ::ₘ pending s rest := by
      rw [pending, List.map_cons, entry, here]
      rfl
    have kept : pending ⟨_, timer :: s.popped, s.clock⟩ rest = pending s rest :=
      pending_congr fun x _ => congrFun heap x
    rw [added_pop, called_pop, balance, taken, kept, Multiset.add_cons, Multiset.cons_add]
  | @finish timer tick wrote timers running returns =>
    obtain ⟨inv', agree⟩ := inv.of_finish running returns
    refine ⟨xs, inv', ?_⟩
    have kept : pending ⟨timers, s.popped.erase timer, wrote⟩ xs = pending s xs :=
      pending_congr agree
    rw [added_finish, called_finish, balance, kept]

/-! ## The calls return -/

section Progress

variable {timer tick : ℕ} {callback : β} {msg : List UInt8} {time : ℤ}

theorem Consistent.add_returns (inv : Consistent s xs) (fresh : s.timers.heap timer = none)
    (short : msg.length < 100) : ∃ t, CallStep s (.add timer callback msg time tick) t := by
  have runs : ∃ timers ys,
      addTimer xs.length timer callback msg time tick tick s.timers = .ok timers ∧
        AddEffect timer (toU64 (time + tick)) s.timers timers xs ys :=
    inv.queue.addTimer_ok fresh short le_rfl
  obtain ⟨timers, -, run, -⟩ := runs
  exact ⟨_, .add fresh short ⟨xs.length, run⟩⟩

theorem Consistent.pop_returns (inv : Consistent s xs) (waiting : s.timers.timerQueue ≠ none) :
    ∃ timer callback msg t, CallStep s (.pop timer callback msg) t := by
  cases xs with
  | nil => exact absurd inv.queue.linked waiting
  | cons timer rest =>
    obtain ⟨r, here, head, -⟩ := inv.queue.exists_head
    refine ⟨timer, r.callBack, r.msg, _, .pop (t := { s.timers with timerQueue := r.next }) ?_⟩
    simp only [unlinkTimer, head, Heap.get_some here, outcome_bind_ok, outcome_pure]

theorem Consistent.finish_returns (inv : Consistent s xs) (running : timer ∈ s.popped) :
    ∃ t, CallStep s (.finish timer tick) t := by
  have reset : ∃ timers, resetCoreTimer tick tick s.timers = .ok timers := by
    cases xs with
    | nil =>
      have null : s.timers.timerQueue = none := inv.queue.linked
      exact ⟨coreTimerInterruptDisable s.timers, by rw [resetCoreTimer, null]⟩
    | cons y rest =>
      obtain ⟨r, here, head, -⟩ := inv.queue.exists_head
      refine ⟨coreTimerInterruptEnable
        (setCoreTimerInterrupt tick (subU64 r.expiredTime tick) s.timers), ?_⟩
      simp only [resetCoreTimer, head, Heap.get_some here, outcome_bind_ok, outcome_pure]
  obtain ⟨timers, reset⟩ := reset
  have finished : finishTimer timer tick tick s.timers =
      .ok { timers with heap := timers.heap.free timer } := by
    simp only [finishTimer, reset, outcome_bind_ok, outcome_pure]
  exact ⟨_, .finish running finished⟩

end Progress

/-! ## Runs -/

theorem Balanced.boot : Balanced [] (boot : System β) [] :=
  ⟨⟨.nil, by simp [Timer.boot], List.nodup_nil⟩, rfl⟩

/-- **Timers are neither lost nor duplicated.** After every run from boot `timer_queue` is
a finite list without repetition, and the timers added are those whose callback was called
and those in the queue, each counted once. There `add_timer` returns for every fresh address,
`pop_timer` calls a callback when the queue is not empty, and it returns after the
callback. -/
theorem Run.timers_conserved (run : Run CallStep boot w s) :
    (∃ xs, Queue s.timers xs ∧ xs.Nodup ∧ added w = called w + pending s xs) ∧
    (∀ timer callback msg time tick, s.timers.heap timer = none → msg.length < 100 →
      ∃ t, CallStep s (.add timer callback msg time tick) t) ∧
    (s.timers.timerQueue ≠ none → ∃ timer callback msg t, CallStep s (.pop timer callback msg) t) ∧
    (∀ timer ∈ s.popped, ∀ tick, ∃ t, CallStep s (.finish timer tick) t) := by
  have balanced : ∃ xs, Balanced w s xs := by
    induction run with
    | refl => exact ⟨[], .boot⟩
    | snoc _ last ih =>
      obtain ⟨xs, before⟩ := ih
      exact last.conserved before
  obtain ⟨xs, inv, balance⟩ := balanced
  refine ⟨⟨xs, inv.queue, inv.queue.linked.nodup, balance⟩, ?_, inv.pop_returns, ?_⟩
  · exact fun _ _ _ _ _ fresh short => inv.add_returns fresh short
  · exact fun _ running _ => inv.finish_returns running

/-- Two timers with a message each; the callback of the first adds a third, and then the second
is called. -/
def addingCallback : List (Call Unit) :=
  [.add 1 () [0x61] 10 0, .add 2 () [0x62] 30 0, .pop 1 () [0x61], .add 3 () [0x63] 20 10,
    .finish 1 12, .pop 2 () [0x62]]

/-- `Run.timers_conserved` for these calls. -/
theorem addingCallback_conserved : ∃ s, Run CallStep boot addingCallback s ∧
    ∃ xs, Queue s.timers xs ∧ xs.Nodup ∧
      added addingCallback = called addingCallback + pending s xs := by
  have r₁ := Run.single (CallStep.add rfl (by decide) ⟨0, show addTimer 0 1 () [0x61] 10 0 0
    (boot : System Unit).timers = .ok _ from rfl⟩)
  have r₂ := r₁.snoc (.add rfl (by decide) ⟨1, show addTimer 1 2 () [0x62] 30 0 0 _ = .ok _
    from rfl⟩)
  have r₃ := r₂.snoc (.pop (r := ⟨10, (), [0x61], some 2⟩) rfl)
  have r₄ := r₃.snoc (.add rfl (by decide) ⟨1, show addTimer 1 3 () [0x63] 20 10 10 _ = .ok _
    from rfl⟩)
  have r₅ := r₄.snoc (.finish List.mem_cons_self (show finishTimer 1 12 12 _ = .ok _ from rfl))
  have r₆ := r₅.snoc (.pop (r := ⟨30, (), [0x62], some 3⟩) rfl)
  exact ⟨_, r₆, (Run.timers_conserved r₆).1⟩

end BareMetal.Timer
