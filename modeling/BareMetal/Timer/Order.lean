import BareMetal.CS.Transition
import BareMetal.Timer.Queue

/-!
# Is the timer queue in order?

A run interleaves calls of `add_timer` with the two parts of `pop_timer`, in any
order: a callback may add timers, and it may leave for a task that pops another
timer before it returns. The clock never goes back.

The loop of `add_timer` stops one timer too late, behind the first that is *not*
earlier than the new one. From an ordered queue the result is ordered exactly when
the new deadline is pending already, or earlier than all that are pending, or later
than all (`Suits`).

## Main results

* `Step.ordered_iff` — one step from an ordered queue
* `Run.timer_order` — the queue is ordered throughout a run exactly when every call
  of `add_timer` in it suits the queue it meets, and then `pop_timer` takes a timer
  with the least deadline
-/

namespace BareMetal.Timer

open CS Math

variable {β : Type}

/-- The timers, those whose callback is running, and the clock. -/
structure System (β : Type) where
  timers : Timers β
  popped : List ℕ
  clock : ℕ

/-- What happens in a step. -/
inductive Event (β : Type)
  | add (timer : ℕ) (callback : β) (msg : List UInt8) (time tick : ℕ)
  | pop (timer : ℕ) (callback : β) (msg : List UInt8)
  | finish (timer tick : ℕ)

/-- One step: `malloc_` hands `add_timer` an address that is not in use. -/
inductive Step : System β → Event β → System β → Prop
  | add {s : System β} {timer : ℕ} {callback : β} {msg : List UInt8} {time tick wrote : ℕ}
      {t : Timers β} (fresh : s.timers.heap timer = none) (int : time < 2 ^ 31)
      (later : s.clock ≤ tick) (sets : tick ≤ wrote)
      (returns : Returns (fun fuel => addTimer fuel timer callback msg time tick wrote s.timers)
        t) : Step s (.add timer callback msg time tick) { s with timers := t, clock := wrote }
  | pop {s : System β} {timer : ℕ} {r : TimerList β} {t : Timers β}
      (returns : unlinkTimer s.timers = .ok (timer, r, t)) :
      Step s (.pop timer r.callBack r.msg) { s with timers := t, popped := timer :: s.popped }
  | finish {s : System β} {timer tick wrote : ℕ} {t : Timers β} (running : timer ∈ s.popped)
      (later : s.clock ≤ tick) (sets : tick ≤ wrote)
      (returns : finishTimer timer tick wrote s.timers = .ok t) :
      Step s (.finish timer tick)
        { s with timers := t, popped := s.popped.erase timer, clock := wrote }

/-- `timer_queue` is a list of timers, apart from those whose callback is running. -/
structure Consistent (s : System β) (xs : List ℕ) : Prop where
  queue : Queue s.timers xs
  running : ∀ x ∈ s.popped, x ∉ xs ∧ (s.timers.heap x).isSome
  distinct : s.popped.Nodup

/-- The queue is sorted by deadline. -/
def QueueOrdered (s : System β) : Prop :=
  ∃ xs, Consistent s xs ∧ Ordered (expiry s.timers.heap) xs

/-- A call of `add_timer` for a deadline that is pending, or earlier or later than
all that are. Every other event suits. -/
def Suits (s : System β) : Event β → Prop
  | .add _ _ _ time tick =>
    ∃ xs, Queue s.timers xs ∧ Fits (expiry s.timers.heap) (toU64 ((time : ℤ) + tick)) xs
  | .pop _ _ _ => True
  | .finish _ _ => True

variable {s t u : System β} {e : Event β} {w : List (Event β)} {xs : List ℕ}

theorem Consistent.unique {ys : List ℕ} (inv : Consistent s xs) (queue : Queue s.timers ys) :
    ys = xs :=
  queue.linked.unique inv.queue.linked

/-! ## One step -/

section Calls

variable {timer tick expired : ℕ} {callback : β} {msg : List UInt8} {time : ℕ} {r : TimerList β}
  {timers : Timers β} {ys : List ℕ}

/-- A timer that `add_timer` has put into the queue. -/
theorem Consistent.of_add (inv : Consistent s xs) (fresh : s.timers.heap timer = none)
    (effect : AddEffect timer expired s.timers timers xs ys) :
    Consistent ⟨timers, s.popped, tick⟩ ys := by
  refine ⟨effect.queue, fun x hx => ?_, inv.distinct⟩
  obtain ⟨apart, here⟩ := inv.running x hx
  refine ⟨fun inside => ?_, (effect.kept x).mpr (.inr here)⟩
  rcases effect.placed.mem_iff.mp inside with rfl | old
  · simp [fresh] at here
  · exact apart old

/-- The timer that `pop_timer` takes is the head of the queue. -/
theorem Consistent.of_unlink (tick : ℕ) (inv : Consistent s xs)
    (returns : unlinkTimer s.timers = .ok (timer, r, timers)) :
    ∃ rest, xs = timer :: rest ∧ Consistent ⟨timers, timer :: s.popped, tick⟩ rest ∧
      timers.heap = s.timers.heap := by
  obtain ⟨rest, rfl, here, queue, heap⟩ := inv.queue.unlinkTimer_returns returns
  have distinct := List.nodup_cons.mp inv.queue.linked.nodup
  refine ⟨rest, rfl, ⟨queue, fun x hx => ?_, ?_⟩, heap⟩
  · change x ∉ rest ∧ (timers.heap x).isSome
    rw [heap]
    rcases List.mem_cons.mp hx with rfl | old
    · exact ⟨distinct.1, by simp [here]⟩
    · obtain ⟨apart, allocated⟩ := inv.running x old
      exact ⟨fun inside => apart (List.mem_cons_of_mem timer inside), allocated⟩
  · apply List.nodup_cons.mpr
    refine ⟨fun inside => ?_, inv.distinct⟩
    exact (inv.running timer inside).1 List.mem_cons_self

/-- The timer that `pop_timer` frees is not in the queue. -/
theorem Consistent.of_finish (inv : Consistent s xs) (running : timer ∈ s.popped)
    {time wrote : ℕ} (returns : finishTimer timer time wrote s.timers = .ok timers) :
    Consistent ⟨timers, s.popped.erase timer, tick⟩ xs ∧
      ∀ x ∈ xs, timers.heap x = s.timers.heap x := by
  have outside := (inv.running timer running).1
  obtain ⟨queue, heap⟩ := inv.queue.finishTimer_returns outside returns
  refine ⟨⟨queue, fun x hx => ?_, inv.distinct.erase timer⟩, fun x hx => ?_⟩
  · have ne : x ≠ timer := by
      rintro rfl
      exact inv.distinct.not_mem_erase hx
    obtain ⟨apart, allocated⟩ := inv.running x (List.mem_of_mem_erase hx)
    refine ⟨apart, ?_⟩
    change (timers.heap x).isSome
    rw [heap, Heap.free_of_ne ne]
    exact allocated
  · rw [heap]
    exact Heap.free_of_ne (ne_of_mem_of_not_mem hx outside)

theorem Consistent.add (inv : Consistent s xs)
    (step : Step s (.add timer callback msg time tick) t) :
    ∃ ys, Consistent t ys ∧
      AddEffect timer (toU64 ((time : ℤ) + tick)) s.timers t.timers xs ys ∧
      timer ∉ xs := by
  cases step with
  | @add _ _ _ _ _ _ t fresh int later sets returns =>
    obtain ⟨ys, effect⟩ := inv.queue.addTimer_returns fresh returns
    have outside := (inv.queue.alloc fresh (newTimer callback msg time tick)).1
    exact ⟨ys, inv.of_add fresh effect, effect, outside⟩

/-- The timer popped is the head of the queue. -/
theorem Consistent.pop (inv : Consistent s xs) (step : Step s (.pop timer callback msg) t) :
    ∃ rest, xs = timer :: rest ∧ Consistent t rest ∧ t.timers.heap = s.timers.heap := by
  cases step with
  | pop returns => exact inv.of_unlink _ returns

theorem Consistent.finish (inv : Consistent s xs) (step : Step s (.finish timer tick) t) :
    Consistent t xs ∧ ∀ x ∈ xs, t.timers.heap x = s.timers.heap x := by
  cases step with
  | finish running later sets returns => exact inv.of_finish running returns

end Calls

/-- **One step from an ordered queue** leaves it ordered exactly when it suits. -/
theorem Step.ordered_iff (ordered : QueueOrdered s) (step : Step s e t) :
    QueueOrdered t ↔ Suits s e := by
  obtain ⟨xs, inv, sorted⟩ := ordered
  cases e with
  | add timer callback msg time tick =>
    obtain ⟨ys, inv', effect, outside⟩ := inv.add step
    have agree : ∀ x ∈ xs, expiry t.timers.heap x = expiry s.timers.heap x := fun x hx =>
      effect.expiry_old x (ne_of_mem_of_not_mem hx outside)
    have sorted' : Ordered (expiry t.timers.heap) xs := sorted.congr agree
    have placed := effect.placed.ordered_iff sorted'
    rw [effect.expiry_new] at placed
    have fits : Fits (expiry t.timers.heap) (toU64 ((time : ℤ) + tick)) xs ↔
        Fits (expiry s.timers.heap) (toU64 ((time : ℤ) + tick)) xs := fits_congr agree
    constructor
    · rintro ⟨zs, inv'', sorted''⟩
      obtain rfl := inv'.unique inv''.queue
      exact ⟨xs, inv.queue, fits.mp (placed.mp sorted'')⟩
    · rintro ⟨zs, queue, suits⟩
      obtain rfl := inv.unique queue
      exact ⟨ys, inv', placed.mpr (fits.mpr suits)⟩
  | pop timer callback msg =>
    obtain ⟨rest, rfl, inv', heap⟩ := inv.pop step
    exact ⟨fun _ => trivial, fun _ => ⟨rest, inv', by rw [heap]; exact sorted.tail⟩⟩
  | finish timer tick =>
    obtain ⟨inv', agree⟩ := inv.finish step
    exact ⟨fun _ => trivial,
      fun _ => ⟨xs, inv', sorted.congr fun x hx => expiry_congr (agree x hx)⟩⟩

/-- From an ordered queue `pop_timer` takes a timer with the least deadline. -/
theorem Step.pop_least {timer : ℕ} {callback : β} {msg : List UInt8} (ordered : QueueOrdered s)
    (step : Step s (.pop timer callback msg) t) :
    ∃ xs, Queue s.timers xs ∧ timer ∈ xs ∧
      ∀ x ∈ xs, expiry s.timers.heap timer ≤ expiry s.timers.heap x := by
  obtain ⟨xs, inv, sorted⟩ := ordered
  obtain ⟨rest, rfl, -⟩ := inv.pop step
  exact ⟨timer :: rest, inv.queue, List.mem_cons_self, sorted.head_le⟩

/-! ## Runs -/

/-- **Timer order.** Along a run from an ordered queue the queue stays ordered
exactly when every `add_timer` suits the queue it meets, and then every timer
popped has the least deadline of those pending. -/
theorem Run.timer_order (start : QueueOrdered s) :
    (Run (Guarded Step Suits) s w t ↔ Run (fun s e t => Step s e t ∧ QueueOrdered t) s w t) ∧
    (Run (Guarded Step Suits) s w t → QueueOrdered t ∧
      ∀ timer callback msg u, Step t (.pop timer callback msg) u →
        ∃ xs, Queue t.timers xs ∧ timer ∈ xs ∧
          ∀ x ∈ xs, expiry t.timers.heap timer ≤ expiry t.timers.heap x) := by
  have exact_step : ∀ (s : System β) e t, QueueOrdered s → Step s e t →
      (QueueOrdered t ↔ Suits s e) :=
    fun s e t ordered step => step.ordered_iff ordered
  refine ⟨Run.guarded_iff start exact_step, fun run => ?_⟩
  have ordered : QueueOrdered t :=
    run.preserves _ (fun s e t inv step => (exact_step s e t inv step.2).mpr step.1) start
  exact ⟨ordered, fun timer callback msg u step => step.pop_least ordered⟩

/-! ## Three timers -/

/-- The state at boot: `timer_queue` is null. -/
def boot : System β := ⟨⟨fun _ => none, none, false, 0⟩, [], 0⟩

/-- A timer for tick 10 at address 1. -/
def oneTimer : Timers Unit :=
  coreTimerInterruptEnable (setCoreTimerInterrupt 0 10
    ⟨Heap.alloc (fun _ => none) 1 ⟨10, (), [], none⟩, some 1, false, 0⟩)

/-- And one for tick 30 at address 2. -/
def twoTimers : Timers Unit :=
  setNext 2 none (setNext 1 (some 2)
    { oneTimer with heap := oneTimer.heap.alloc 2 ⟨30, (), [], none⟩ })

/-- And one for tick 20 at address 3, which `add_timer` puts last. -/
def threeTimers : Timers Unit :=
  setNext 3 none (setNext 2 (some 3)
    { twoTimers with heap := twoTimers.heap.alloc 3 ⟨20, (), [], none⟩ })

theorem boot_ordered : QueueOrdered (boot : System β) :=
  ⟨[], ⟨.nil, by simp [boot], List.nodup_nil⟩, List.Pairwise.nil⟩

private theorem oneTimer_step :
    Step boot (.add 1 () [] 10 0) ⟨oneTimer, [], 0⟩ :=
  .add rfl (by decide) le_rfl le_rfl ⟨0, rfl⟩

private theorem twoTimers_step : Step ⟨oneTimer, [], 0⟩ (.add 2 () [] 30 0) ⟨twoTimers, [], 0⟩ :=
  .add rfl (by decide) le_rfl le_rfl ⟨1, rfl⟩

private theorem threeTimers_step :
    Step ⟨twoTimers, [], 0⟩ (.add 3 () [] 20 0) ⟨threeTimers, [], 0⟩ :=
  .add rfl (by decide) le_rfl le_rfl ⟨2, rfl⟩

private theorem oneTimer_queue : Queue oneTimer [1] :=
  ⟨⟨rfl, rfl⟩, by decide⟩

private theorem threeTimers_queue : Queue threeTimers [1, 2, 3] :=
  ⟨⟨rfl, rfl, rfl, rfl⟩, by decide⟩

/-- `Run.timer_order` for a run of two timers. -/
theorem twoTimers_ordered : QueueOrdered ⟨twoTimers, [], 0⟩ := by
  have first : Suits boot (.add 1 () [] 10 0) := ⟨[], .nil, .inr (.inl (by simp))⟩
  have second : Suits ⟨oneTimer, [], 0⟩ (.add 2 () [] 30 0) :=
    ⟨[1], oneTimer_queue, .inr (.inr (by decide))⟩
  have run : Run (Guarded Step Suits) boot [.add 1 () [] 10 0, .add 2 () [] 30 0]
      ⟨twoTimers, [], 0⟩ :=
    (Run.single ⟨first, oneTimer_step⟩).snoc ⟨second, twoTimers_step⟩
  exact ((Run.timer_order boot_ordered).2 run).1

/-- **The third timer is misplaced**: three calls from the boot state leave the
deadlines 10, 30, 20 in this order, and the queue is not ordered: `pop_timer` takes
the timer for tick 30 while the one for tick 20 is pending. -/
theorem threeTimers_not_ordered :
    Run Step boot [.add 1 () [] 10 0, .add 2 () [] 30 0, .add 3 () [] 20 0]
      ⟨threeTimers, [], 0⟩ ∧
    Queue threeTimers [1, 2, 3] ∧ [1, 2, 3].map (expiry threeTimers.heap) = [10, 30, 20] ∧
    ¬ QueueOrdered ⟨threeTimers, [], 0⟩ ∧
    ∃ t u, Step ⟨threeTimers, [], 0⟩ (.pop 1 () []) t ∧ Step t (.pop 2 () []) u ∧
      Queue t.timers [2, 3] ∧ expiry t.timers.heap 3 < expiry t.timers.heap 2 := by
  refine ⟨((Run.single oneTimer_step).snoc twoTimers_step).snoc threeTimers_step,
    threeTimers_queue, by decide, ?_, ⟨{ threeTimers with timerQueue := some 2 }, [1], 0⟩,
    ⟨{ threeTimers with timerQueue := some 3 }, [2, 1], 0⟩,
    Step.pop (r := ⟨10, (), [], some 2⟩) rfl, Step.pop (r := ⟨30, (), [], some 3⟩) rfl,
    ⟨⟨rfl, rfl, rfl⟩, by decide⟩, by decide⟩
  rintro ⟨xs, inv, sorted⟩
  obtain rfl := inv.unique threeTimers_queue
  have late : expiry threeTimers.heap 2 ≤ expiry threeTimers.heap 3 :=
    List.rel_of_pairwise_cons (List.Pairwise.of_cons sorted) List.mem_cons_self
  exact absurd late (by decide)

end BareMetal.Timer
