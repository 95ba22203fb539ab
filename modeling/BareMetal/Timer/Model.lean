import BareMetal.CS.Heap
import BareMetal.CS.MachineInt

/-!
# The timer queue of `lib/timer.c`

`timer_queue` is a singly linked list of heap records. `add_timer` takes its
record from `malloc_`, so the model takes the address of that record; a message
that does not fit `msg[100]` overruns it.

A callback may do anything, and it may leave for another task before it returns.
`pop_timer` is therefore modelled in two parts: `unlinkTimer` up to the call of the
callback, and `finishTimer` from its return on.
-/

namespace BareMetal.Timer

open CS

variable {β : Type}

/-- `struct timer_list`, with callbacks of a type `β`. -/
structure TimerList (β : Type) where
  expiredTime : ℕ
  callBack : β
  msg : List UInt8
  next : Option ℕ

/-- The timer records and `timer_queue`, with the state of the core timer: whether
its interrupt is enabled and at which tick it fires. -/
structure Timers (β : Type) where
  heap : Heap (TimerList β)
  timerQueue : Option ℕ
  enabled : Bool
  deadline : ℕ

/-- `core_timer_interrupt_enable`. -/
def coreTimerInterruptEnable (s : Timers β) : Timers β := { s with enabled := true }

/-- `core_timer_interrupt_disable`. -/
def coreTimerInterruptDisable (s : Timers β) : Timers β := { s with enabled := false }

/-- `set_core_timer_interrupt`, with the counter at `tick`: `cntp_tval_el0` takes the low 32
bits, as a signed number of ticks from now. -/
def setCoreTimerInterrupt (tick time : ℕ) (s : Timers β) : Timers β :=
  { s with deadline := toU64 ((tick : ℤ) + toInt32 time) }

section CoreTimer

variable (tick time : ℕ) (s : Timers β)

@[simp] theorem coreTimerInterruptEnable_heap : (coreTimerInterruptEnable s).heap = s.heap := rfl

@[simp] theorem coreTimerInterruptEnable_timerQueue :
    (coreTimerInterruptEnable s).timerQueue = s.timerQueue := rfl

@[simp] theorem coreTimerInterruptEnable_enabled :
    (coreTimerInterruptEnable s).enabled = true := rfl

@[simp] theorem coreTimerInterruptEnable_deadline :
    (coreTimerInterruptEnable s).deadline = s.deadline := rfl

@[simp] theorem setCoreTimerInterrupt_heap :
    (setCoreTimerInterrupt tick time s).heap = s.heap := by
  rw [setCoreTimerInterrupt]

@[simp] theorem setCoreTimerInterrupt_timerQueue :
    (setCoreTimerInterrupt tick time s).timerQueue = s.timerQueue := by
  rw [setCoreTimerInterrupt]

end CoreTimer

/-- `timer->next = next`. -/
def setNext (timer : ℕ) (next : Option ℕ) (s : Timers β) : Timers β :=
  { s with heap := s.heap.modify timer fun t => { t with next := next } }

/-- The `while` loop of `add_timer`, which returns `pre` and `next`. -/
def insertPoint (heap : Heap (TimerList β)) (expired : ℕ) :
    ℕ → ℕ → Option ℕ → Outcome (ℕ × Option ℕ)
  | 0, _, _ => .error .outOfFuel
  | _ + 1, pre, none => .ok (pre, none)
  | fuel + 1, pre, some next => do
    let first ← heap.get (some pre)
    if first.expiredTime < expired then do
      let second ← heap.get (some next)
      insertPoint heap expired fuel next second.next
    else return (pre, some next)

/-- `add_timer`, for the record at `timer`: the counter is read at `tick`, and has come to `wrote`
when the core timer is set. -/
def addTimer (fuel timer : ℕ) (callback : β) (msg : List UInt8) (time : ℤ) (tick wrote : ℕ)
    (s : Timers β) : Outcome (Timers β) := do
  let expired := toU64 (time + tick)
  if 100 ≤ msg.length then .error .outOfBounds
  else
    let s := { s with heap := s.heap.alloc timer ⟨expired, callback, msg, none⟩ }
    match s.timerQueue with
    | none => -- be the head
      let s := { s with timerQueue := some timer }
      return coreTimerInterruptEnable (setCoreTimerInterrupt wrote (toU64 time) s)
    | some head => do
      let first ← s.heap.get (some head)
      if first.expiredTime > expired then -- add to head
        let s := { setNext timer (some head) s with timerQueue := some timer }
        return coreTimerInterruptEnable (setCoreTimerInterrupt wrote (toU64 time) s)
      else do -- insert
        let (pre, next) ← insertPoint s.heap expired fuel head first.next
        return setNext timer next (setNext pre (some timer) s)

/-- `pop_timer` up to the call of the callback: the timer at the head of the queue
is unlinked. -/
def unlinkTimer (s : Timers β) : Outcome (ℕ × TimerList β × Timers β) :=
  match s.timerQueue with
  | none => .error .nullPointer
  | some timer => do
    let first ← s.heap.get (some timer)
    return (timer, first, { s with timerQueue := first.next })

/-- The `if` of `pop_timer`: the core timer is set for the next timer, or disabled
when there is none. The counter is read at `tick` and has come to `wrote` at the write. -/
def resetCoreTimer (tick wrote : ℕ) (s : Timers β) : Outcome (Timers β) :=
  match s.timerQueue with
  | none => .ok (coreTimerInterruptDisable s)
  | some head => do
    let first ← s.heap.get (some head)
    return coreTimerInterruptEnable (setCoreTimerInterrupt wrote (subU64 first.expiredTime tick) s)

/-- `pop_timer` from the return of the callback on. -/
def finishTimer (timer tick wrote : ℕ) (s : Timers β) : Outcome (Timers β) := do
  let s ← resetCoreTimer tick wrote s
  return { s with heap := s.heap.free timer }

end BareMetal.Timer
