import BareMetal.Timer.Model

/-!
# The scheduler of `lib/scheduler.c` and the signals of `lib/exception.c`

Tasks are heap records linked through their `next` field into `run_queue`,
`zombies_queue` and `temp_queue`. The chunks that `task_create` gets from `malloc_`
are arguments of the model.

`tpidr_el1` holds the current task. When the idle task finds nothing to run it
enters the shell and does not come back from it; `inShell` records this phase, in
which `tpidr_el1` is stale and no task runs. `idle_thread`, called by the shell,
ends it.

Of `struct task` the model leaves out the saved registers `x19` to `x28`, `fd_table`
and `cwd`, which no function here reads.
-/

namespace BareMetal.Sched

open CS Timer

/-! ## Tasks -/

/-- Code addresses. -/
inductive Code
  | null
  | idleThread
  | switchToUserSpace
  | signalHandlerWrapper
  | function (addr : ℕ)
deriving DecidableEq, Repr

inductive TaskState
  | waitting
  | running
  | exit
deriving DecidableEq, Repr

inductive Mode
  | kernel
  | user
deriving DecidableEq, Repr

/-- `struct task`. -/
structure Task where
  fp : ℕ
  lr : Code
  sp : ℕ
  targetFunc : Code
  userSp : ℕ
  spAddr : ℕ
  pid : ℕ
  mode : Mode
  handler : Code
  state : TaskState
  next : Option ℕ
deriving DecidableEq, Repr

/-- `task->next = next`. -/
def Task.setNext (next : Option ℕ) (task : Task) : Task := { task with next := next }

/-- `task->state = state`. -/
def Task.setState (state : TaskState) (task : Task) : Task := { task with state := state }

/-- The callbacks of timers. -/
inductive Callback
  | normalTimer
  | function (addr : ℕ)
deriving DecidableEq, Repr

/-- The static state of the scheduler and of the signals, with the tasks, the
timers and `tpidr_el1`. -/
structure Kernel where
  heap : Heap Task
  runQueue : Option ℕ
  zombiesQueue : Option ℕ
  tempQueue : Option ℕ
  pid : ℤ
  current : Option ℕ
  inShell : Bool
  handler : Code
  signalExit : ℕ
  signalPid : ℕ
  timers : Timers Callback

/-- What `malloc_` returns to one call of `task_create`: the addresses of the task,
with what its chunk holds, and of its stacks. -/
structure Chunks where
  task : ℕ
  old : Task
  userStack : ℕ
  kernelStack : ℕ

/-- `THREAD_SP_SIZE`. -/
def threadSpSize : ℕ := 2048

/-- The top of a stack: its last byte, rounded down to 16. -/
def stackTop (addr : ℕ) : ℕ := addr + threadSpSize - 1 - (addr + threadSpSize - 1) % 0x10

/-! ## Queues -/

/-- The `while` loop of `enqueue`: the last task from `cur` on, or `prev`. -/
def lastTask (heap : Heap Task) : ℕ → Option ℕ → Option ℕ → Outcome (Option ℕ)
  | 0, _, _ => .error .outOfFuel
  | _ + 1, prev, none => .ok prev
  | fuel + 1, _, some cur => do
    let task ← heap.get (some cur)
    lastTask heap fuel (some cur) task.next

/-- `enqueue`, which returns the new value of `*queue`. -/
def enqueue (fuel : ℕ) (queue : Option ℕ) (newTask : Option ℕ) (heap : Heap Task) :
    Outcome (Option ℕ × Heap Task) := do
  let heap ← heap.write newTask (Task.setNext none)
  match queue with
  | none => return (newTask, heap)
  | some _ => do
    let prev ← lastTask heap fuel queue queue
    let heap ← heap.write prev (Task.setNext newTask)
    return (queue, heap)

/-- `dequeue`: the task popped and the new value of `*queue`. -/
def dequeue (queue : Option ℕ) (heap : Heap Task) : Outcome (Option ℕ × Option ℕ) :=
  match queue with
  | none => .ok (none, none)
  | some popTask => do
    let task ← heap.get (some popTask)
    return (some popTask, task.next)

/-- The search of `kill_thread`, `remove_task` and `find_task` from `cur` on: the
first task with this pid and the one in front of it. -/
def search (heap : Heap Task) (pid : ℕ) :
    ℕ → Option ℕ → Option ℕ → Outcome (Option (Option ℕ × ℕ × Task))
  | 0, _, _ => .error .outOfFuel
  | _ + 1, _, none => .ok none
  | fuel + 1, pre, some cur => do
    let task ← heap.get (some cur)
    if task.pid = pid then return some (pre, cur, task)
    else search heap pid fuel (some cur) task.next

/-! ## Functions of the scheduler -/

/-- The fields `task_create` sets. -/
def newTask (chunks : Chunks) (func : Code) (mode : Mode) (pid : ℤ) : Task :=
  let task :=
    { chunks.old with
      mode := mode
      next := none
      pid := toU32 pid
      handler := .null
      state := .running }
  let task :=
    match mode with
    | .user =>
      { task with userSp := chunks.userStack, lr := .switchToUserSpace, targetFunc := func }
    | .kernel => { task with lr := func }
  { task with
    spAddr := chunks.kernelStack
    fp := stackTop chunks.kernelStack
    sp := stackTop chunks.kernelStack }

/-- `task_create`, which returns the task. -/
def taskCreate (fuel : ℕ) (chunks : Chunks) (func : Code) (mode : Mode) (k : Kernel) :
    Outcome (ℕ × Kernel) := do
  let heap := k.heap.alloc chunks.task (newTask chunks func mode k.pid)
  let (runQueue, heap) ← enqueue fuel k.runQueue (some chunks.task) heap
  return (chunks.task, { k with heap := heap, runQueue := runQueue, pid := toInt32 (k.pid + 1) })

/-- `switch_to`, as far as `tpidr_el1` is concerned. -/
def switchTo (next : Option ℕ) (k : Kernel) : Outcome Kernel := do
  let _ ← k.heap.get next
  return { k with current := next }

/-- `schedule`. The call of `shell` does not return. -/
def schedule (fuel : ℕ) (k : Kernel) : Outcome Kernel := do
  let (next, runQueue) ← dequeue k.runQueue k.heap
  let heap ← k.heap.write k.current (Task.setNext none)
  let cur ← heap.get k.current
  if cur.pid = 1 ∧ next = none then do
    let (runQueue, heap) ← enqueue fuel runQueue k.current heap
    return { k with
      heap := heap
      runQueue := runQueue
      pid := 2
      inShell := true
      timers := coreTimerInterruptDisable k.timers }
  else if cur.state ≠ .exit then do
    let (runQueue, heap) ← enqueue fuel runQueue k.current heap
    switchTo next { k with heap := heap, runQueue := runQueue }
  else do
    let (zombiesQueue, heap) ← enqueue fuel k.zombiesQueue k.current heap
    switchTo next { k with heap := heap, runQueue := runQueue, zombiesQueue := zombiesQueue }

/-- `kill_zombies`, which returns the chunks it frees. The fields are read after
`free(cur)`, which leaves the record as it is. -/
def killZombies (k : Kernel) : Outcome (List ℕ × Kernel) := do
  let (cur, zombiesQueue) ← dequeue k.zombiesQueue k.heap
  match cur with
  | none => return ([], { k with zombiesQueue := zombiesQueue })
  | some cur => do
    let task ← k.heap.get (some cur)
    let freed := if task.mode = .user then [cur, task.spAddr, task.userSp] else [cur, task.spAddr]
    return (freed, { k with heap := k.heap.free cur, zombiesQueue := zombiesQueue })

/-- `kill_thread`. -/
def killThread (fuel : ℕ) (pid : ℤ) (k : Kernel) : Outcome Kernel := do
  match ← search k.heap (toU32 pid) fuel none k.runQueue with
  | none => return k
  | some (none, cur, task) => do
    let (zombiesQueue, heap) ← enqueue fuel k.zombiesQueue (some cur) k.heap
    return { k with heap := heap, runQueue := task.next, zombiesQueue := zombiesQueue }
  | some (some pre, cur, task) => do
    let heap ← k.heap.write (some pre) (Task.setNext task.next)
    let (zombiesQueue, heap) ← enqueue fuel k.zombiesQueue (some cur) heap
    return { k with heap := heap, zombiesQueue := zombiesQueue }

/-- `remove_task`, which writes through `pre` whether or not it is null. -/
def removeTask (fuel pid : ℕ) (k : Kernel) : Outcome Kernel := do
  match ← search k.heap pid fuel none k.runQueue with
  | none => return k
  | some (pre, cur, task) => do
    let heap ← k.heap.write pre (Task.setNext task.next)
    let heap ← heap.write (some cur) (Task.setNext none)
    return { k with heap := heap, tempQueue := some cur }

/-- The `while` loop of `add_to_queue`: the last task of a queue that is not empty. -/
def lastQueued (heap : Heap Task) : ℕ → Option ℕ → Outcome (Option ℕ)
  | 0, _ => .error .outOfFuel
  | fuel + 1, cur => do
    let task ← heap.get cur
    match task.next with
    | none => return cur
    | some next => lastQueued heap fuel (some next)

/-- `add_to_queue`. -/
def addToQueue (fuel : ℕ) (k : Kernel) : Outcome Kernel :=
  match k.tempQueue with
  | none => .ok k
  | some temp => do
    let cur ← lastQueued k.heap fuel k.runQueue
    let heap ← k.heap.write cur (Task.setNext (some temp))
    return { k with heap := heap, tempQueue := none }

/-- `find_task`. -/
def findTask (fuel pid : ℕ) (k : Kernel) : Outcome (Option ℕ) := do
  match ← search k.heap pid fuel none k.runQueue with
  | none => return none
  | some (_, cur, _) => return some cur

/-- `thread_init`. -/
def threadInit (fuel : ℕ) (chunks : Chunks) (k : Kernel) : Outcome Kernel := do
  let (_, k) ← taskCreate fuel chunks .idleThread .kernel k
  return k

/-- The text `normal_timer`. -/
def normalTimerMsg : List UInt8 := [110, 111, 114, 109, 97, 108, 95, 116, 105, 109, 101, 114]

/-- `idle_thread` up to its loop, with a timer record, the counter and its frequency. -/
def idleThread (fuel timer tick wrote freq : ℕ) (k : Kernel) : Outcome Kernel := do
  let (popTask, runQueue) ← dequeue k.runQueue k.heap
  let timers ← addTimer fuel timer .normalTimer normalTimerMsg (freq / 2 ^ 5 : ℕ) tick wrote
    k.timers
  return { k with runQueue := runQueue, current := popTask, inShell := false, timers := timers }

/-- `normal_timer`, with a timer record, the counter and its frequency. -/
def normalTimer (fuel timer tick wrote freq : ℕ) (k : Kernel) : Outcome Kernel := do
  let timers ← addTimer fuel timer .normalTimer normalTimerMsg (freq / 2 ^ 5 : ℕ) tick wrote
    k.timers
  schedule fuel { k with timers := timers }

/-- The branch of `irq_router` for the core timer, up to the call of the callback. -/
def irqTimer (k : Kernel) : Outcome (ℕ × TimerList Callback × Kernel) := do
  let (timer, first, timers) ← unlinkTimer (coreTimerInterruptDisable k.timers)
  return (timer, first, { k with timers := timers })

/-! ## System calls -/

/-- `sysc_kill`. -/
def syscKill (fuel : ℕ) (pid : ℤ) (k : Kernel) : Outcome Kernel := killThread fuel pid k

/-- The `if` of `sysc_exit`: whoever exits while a signal is pending kills its target. -/
def endSignal (fuel : ℕ) (k : Kernel) : Outcome Kernel :=
  if k.signalExit ≠ 0 then syscKill fuel (toInt32 k.signalPid) { k with signalExit := 0 }
  else .ok k

/-- `sysc_exit`. -/
def syscExit (fuel : ℕ) (k : Kernel) : Outcome Kernel := do
  let k ← endSignal fuel k
  let heap ← k.heap.write k.current (Task.setState .exit)
  return { k with heap := heap }

/-- `sysc_signal_kill`. -/
def syscSignalKill (fuel : ℕ) (chunks : Chunks) (pid : ℤ) (k : Kernel) : Outcome Kernel := do
  let target ← findTask fuel (toU64 pid) k
  let task ← k.heap.get target
  let k := { k with handler := task.handler, signalPid := toU64 pid, signalExit := 1 }
  let k ← removeTask fuel (toU64 pid) k
  let (handlerTask, k) ← taskCreate fuel chunks .null .user k
  let heap ← k.heap.write (some handlerTask) fun t => { t with targetFunc := .signalHandlerWrapper }
  return { k with heap := heap }

/-- `sysc_register`. -/
def syscRegister (handler : Code) (k : Kernel) : Outcome Kernel := do
  let heap ← k.heap.write k.current fun task => { task with handler := handler }
  return { k with heap := heap }

/-- `signal_exit = 0` in `signal_handler_wrapper`. -/
def clearSignalExit (k : Kernel) : Kernel := { k with signalExit := 0 }

end BareMetal.Sched
