import BareMetal.CS.ByteMemory
import BareMetal.CS.Outcome

/-!
# Contexts: `start.S`, `struct task` and `sysc_fork`

Here memory is bytes, and a field of a struct is the bytes at its offset, since the
assembly code reads and writes `struct task` and the trap frame as rows of registers.

The calls of `malloc_` and `vfs_open` in `task_create` are arguments of the model: the addresses
and handles that they return. What they store is outside of the tasks and their stacks.
-/

namespace BareMetal.Context

open CS ByteMemory

/-! ## Registers -/

/-- The registers: `x i` is `xi` for `i ≤ 30`. -/
structure Cpu where
  x : ℕ → BitVec 64
  sp : BitVec 64
  pc : BitVec 64
  spEl0 : BitVec 64
  elrEl1 : BitVec 64
  spsrEl1 : BitVec 64
  tpidrEl1 : BitVec 64

/-- Rows of `stp` with ascending registers from `first` on, 16 bytes apart. -/
def storePairs (x : ℕ → BitVec 64) (first base : ℕ) : ℕ → ByteMemory → ByteMemory
  | 0, m => m
  | n + 1, m =>
    ((storePairs x first base n m).store64 (base + 16 * n) (x (first + 2 * n))).store64
      (base + 16 * n + 8) (x (first + 2 * n + 1))

/-- Rows of `ldp` with ascending registers from `first` on, 16 bytes apart. -/
def loadPairs (m : ByteMemory) (first base : ℕ) : ℕ → (ℕ → BitVec 64) → ℕ → BitVec 64
  | 0, x => x
  | n + 1, x =>
    Function.update
      (Function.update (loadPairs m first base n x) (first + 2 * n) (m.load64 (base + 16 * n)))
      (first + 2 * n + 1) (m.load64 (base + 16 * n + 8))

/-! ## `save_all` and `load_all` -/

/-- The size of the frame of `save_all`, `32 * 9`. -/
def frameSize : ℕ := 288

/-- `save_all`. -/
def saveAll (c : Cpu) (m : ByteMemory) : Cpu × ByteMemory :=
  let sp := c.sp - BitVec.ofNat 64 frameSize
  let m := storePairs c.x 0 sp.toNat 15 m
  let m := m.store64 (sp.toNat + 16 * 15) (c.x 30)
  -- `mrs x19, sp_el0`, `mrs x20, elr_el1`, `mrs x21, spsr_el1`
  let x := Function.update c.x 19 c.spEl0
  let x := Function.update x 20 c.elrEl1
  let x := Function.update x 21 c.spsrEl1
  let m := m.store64 (sp.toNat + 16 * 16) (x 19)
  let m := m.store64 (sp.toNat + 16 * 16 + 8) (x 20)
  let m := m.store64 (sp.toNat + 16 * 17) (x 21)
  ({ c with sp := sp, x := x }, m)

/-- `load_all`. -/
def loadAll (c : Cpu) (m : ByteMemory) : Cpu :=
  let sp := c.sp.toNat
  -- `ldp x21, x20`, then `ldp x19, x20`
  let x := Function.update c.x 21 (m.load64 (sp + 16 * 17))
  let x := Function.update x 20 (m.load64 (sp + 16 * 17 + 8))
  let x := Function.update x 19 (m.load64 (sp + 16 * 16))
  let x := Function.update x 20 (m.load64 (sp + 16 * 16 + 8))
  let c := { c with spsrEl1 := x 21, elrEl1 := x 20, spEl0 := x 19 }
  let x := loadPairs m 0 sp 15 x
  let x := Function.update x 30 (m.load64 (sp + 16 * 15))
  { c with x := x, sp := c.sp + BitVec.ofNat 64 frameSize }

/-- `eret`. -/
def eret (c : Cpu) : Cpu := { c with pc := c.elrEl1 }

/-! ## `switch_to` -/

/-- `switch_to`, with `prev` in `x0` and `next` in `x1`. -/
def switchTo (c : Cpu) (m : ByteMemory) : Cpu × ByteMemory :=
  let prev := (c.x 0).toNat
  let next := (c.x 1).toNat
  let m := storePairs c.x 19 prev 6 m
  let x := Function.update c.x 9 c.sp
  let m := m.store64 (prev + 16 * 6) (x 9)
  let x := loadPairs m 19 next 6 x
  let x := Function.update x 9 (m.load64 (next + 16 * 6))
  ({ c with x := x, sp := x 9, tpidrEl1 := x 1, pc := x 30 }, m)

/-- `child_return_from_fork`. -/
def childReturnFromFork (c : Cpu) (m : ByteMemory) : Cpu := eret (loadAll c m)

/-! ## `struct task` and `trap_frame` -/

namespace Field

/-- The offset of `fp`, behind `x19` to `x28`. -/
def fp : ℕ := 80

/-- The offset of `lr`. -/
def lr : ℕ := 88

/-- The offset of `sp`. -/
def sp : ℕ := 96

/-- The offset of `target_func`. -/
def targetFunc : ℕ := 104

/-- The offset of `user_sp`. -/
def userSp : ℕ := 112

/-- The offset of `sp_addr`. -/
def spAddr : ℕ := 120

/-- The offset of `pid`. -/
def pid : ℕ := 128

/-- The offset of `mode`. -/
def mode : ℕ := 132

/-- The offset of `handler`. -/
def handler : ℕ := 136

/-- The offset of `state`. -/
def state : ℕ := 144

/-- The offset of `fd_table`. -/
def fdTable : ℕ := 152

/-- The offset of `cwd`. -/
def cwd : ℕ := 280

/-- The offset of `next`. -/
def next : ℕ := 536

/-- `sizeof(task)`. -/
def size : ℕ := 544

/-- All offsets. -/
theorem offsets : fp = 80 ∧ lr = 88 ∧ sp = 96 ∧ targetFunc = 104 ∧ userSp = 112 ∧ spAddr = 120 ∧
    pid = 128 ∧ mode = 132 ∧ handler = 136 ∧ state = 144 ∧ fdTable = 152 ∧ cwd = 280 ∧ next = 536 ∧
    size = 544 := by
  decide

end Field

namespace Slot

/-- The offset of `xi` in a trap frame. -/
def x (i : ℕ) : ℕ := 8 * i

/-- The offset of `sp_el0`, behind `x0` to `x30` and padding. -/
def spEl0 : ℕ := 256

/-- The offset of `elr_el1`. -/
def elrEl1 : ℕ := 264

/-- The offset of `spsr_el1`. -/
def spsrEl1 : ℕ := 272

end Slot

/-! ## `task_create` -/

/-- `THREAD_SP_SIZE`. -/
def threadSpSize : ℕ := 2048

/-- Where functions are. -/
structure Symbols where
  switchToUserSpace : BitVec 64
  childReturnFromFork : BitVec 64

/-- The global variables `pid` and `run_queue`. -/
structure Globals where
  pid : BitVec 32
  runQueue : BitVec 64

/-- What `malloc_` and `vfs_open` return to one call of `task_create`. -/
structure Chunks where
  task : BitVec 64
  userStack : BitVec 64
  kernelStack : BitVec 64
  stdin : BitVec 64
  stdout : BitVec 64
  stderr : BitVec 64

/-- The loop of `enqueue`: the last task from `cur` on, or `prev`. -/
def lastTask (m : ByteMemory) : ℕ → BitVec 64 → BitVec 64 → Outcome (BitVec 64)
  | 0, _, _ => .error .outOfFuel
  | fuel + 1, prev, cur =>
    if cur = 0 then .ok prev else lastTask m fuel cur (m.load64 (cur.toNat + Field.next))

/-- `enqueue`: `*queue` and the memory behind it. -/
def enqueue (fuel : ℕ) (queue newTask : BitVec 64) (m : ByteMemory) :
    Outcome (BitVec 64 × ByteMemory) := do
  let m := m.store64 (newTask.toNat + Field.next) 0
  if queue = 0 then return (newTask, m)
  else do
    let prev ← lastTask m fuel queue queue
    return (queue, m.store64 (prev.toNat + Field.next) newTask)

/-- The loop of `memset_` with zero. -/
def zeroBytes (addr : ℕ) : ℕ → ByteMemory → ByteMemory
  | 0, m => m
  | n + 1, m => Function.update (zeroBytes addr n m) (addr + n) 0

/-- The top of a stack: its last byte, rounded down to 16. -/
def stackTop (addr : BitVec 64) : BitVec 64 :=
  let addr := addr + BitVec.ofNat 64 (threadSpSize - 1)
  addr - addr % 16

/-- The stores of `task_create(func, USER)` to the new task. -/
def initTask (sym : Symbols) (chunks : Chunks) (func : BitVec 64) (pid : BitVec 32)
    (m : ByteMemory) : ByteMemory :=
  let task := chunks.task.toNat
  -- `USER` and `RUNNING` are 1
  let m := m.store32 (task + Field.mode) 1
  let m := m.store64 (task + Field.next) 0
  let m := m.store32 (task + Field.pid) pid
  let m := m.store64 (task + Field.handler) 0
  let m := m.store32 (task + Field.state) 1
  let m := m.store64 (task + Field.userSp) chunks.userStack
  let m := m.store64 (task + Field.lr) sym.switchToUserSpace
  let m := m.store64 (task + Field.targetFunc) func
  let m := m.store64 (task + Field.spAddr) chunks.kernelStack
  let m := m.store64 (task + Field.fp) (stackTop chunks.kernelStack)
  let m := m.store64 (task + Field.sp) (stackTop chunks.kernelStack)
  let m := Function.update (Function.update m (task + Field.cwd) 47) (task + Field.cwd + 1) 0
  let m := zeroBytes (task + Field.fdTable) 128 m
  let m := m.store64 (task + Field.fdTable) chunks.stdin
  let m := m.store64 (task + Field.fdTable + 8) chunks.stdout
  m.store64 (task + Field.fdTable + 16) chunks.stderr

/-- `task_create(func, USER)`. -/
def taskCreate (sym : Symbols) (chunks : Chunks) (fuel : ℕ) (func : BitVec 64) (g : Globals)
    (m : ByteMemory) : Outcome (Globals × ByteMemory) := do
  let m := initTask sym chunks func g.pid m
  let (runQueue, m) ← enqueue fuel g.runQueue chunks.task m
  return (⟨g.pid + 1, runQueue⟩, m)

/-! ## `sysc_fork` -/

/-- `child->x19 = frame->x19` and so on, up to `child->fp = frame->x29`. -/
def copySaved (child frame : ℕ) : ℕ → ByteMemory → ByteMemory
  | 0, m => m
  | n + 1, m =>
    let m := copySaved child frame n m
    m.store64 (child + 8 * n) (m.load64 (frame + Slot.x (19 + n)))

/-- The loop that copies both stacks, byte by byte. -/
def copyStacks (dst₁ src₁ dst₂ src₂ : ℕ) : ℕ → ByteMemory → ByteMemory
  | 0, m => m
  | n + 1, m =>
    let m := copyStacks dst₁ src₁ dst₂ src₂ n m
    let m := Function.update m (dst₁ + n) (m (src₁ + n))
    Function.update m (dst₂ + n) (m (src₂ + n))

/-- A pointer into the stack at `old` becomes one into the stack at `new`. -/
def relocate (pointer new old : BitVec 64) : BitVec 64 :=
  if old < new then pointer + (new - old)
  else if new < old then pointer - (old - new)
  else pointer

/-- The first part of `sysc_fork` behind `task_create`: the fields of the child. -/
def copyContext (sym : Symbols) (parent child : ℕ) (frame : BitVec 64) (m : ByteMemory) :
    ByteMemory :=
  let m := copySaved child frame.toNat 11 m
  let m := m.store64 (child + Field.lr) sym.childReturnFromFork
  let m := m.store64 (child + Field.sp) frame
  let m := m.store64 (child + Field.targetFunc) (m.load64 (parent + Field.targetFunc))
  m.store64 (child + Field.handler) (m.load64 (parent + Field.handler))

/-- The last part of `sysc_fork`: the stack pointers of the child. -/
def relocateChild (parent child : ℕ) (m : ByteMemory) : ByteMemory :=
  let sp := relocate (m.load64 (child + Field.sp)) (m.load64 (child + Field.spAddr))
    (m.load64 (parent + Field.spAddr))
  let m := m.store64 (child + Field.sp) sp
  let childFrame := (m.load64 (child + Field.sp)).toNat
  let m := m.store64 (childFrame + Slot.x 0) 0
  let m := m.store64 (childFrame + Slot.x 29) (m.load64 (child + Field.fp))
  let spEl0 := relocate (m.load64 (childFrame + Slot.spEl0)) (m.load64 (child + Field.userSp))
    (m.load64 (parent + Field.userSp))
  m.store64 (childFrame + Slot.spEl0) spEl0

/-- `sysc_fork`. -/
def syscFork (sym : Symbols) (chunks : Chunks) (fuel : ℕ) (current frame : BitVec 64) (g : Globals)
    (m : ByteMemory) : Outcome (BitVec 32 × Globals × ByteMemory) := do
  let parent := current.toNat
  let (g, m) ← taskCreate sym chunks fuel 0 g m
  let child := chunks.task.toNat
  let m := copyContext sym parent child frame m
  let src₁ := m.load64 (parent + Field.userSp)
  let dst₁ := m.load64 (child + Field.userSp)
  let src₂ := m.load64 (parent + Field.spAddr)
  let dst₂ := m.load64 (child + Field.spAddr)
  let m := copyStacks dst₁.toNat src₁.toNat dst₂.toNat src₂.toNat threadSpSize m
  let m := relocateChild parent child m
  return (m.load32 (child + Field.pid), g, m)

/-- The case `SYSCALL_NUM_FORK` of `sync_router`. -/
def syncRouterFork (sym : Symbols) (chunks : Chunks) (fuel : ℕ) (c : Cpu) (g : Globals)
    (m : ByteMemory) : Outcome (Globals × ByteMemory) := do
  let frame := c.sp
  let (pid, g, m) ← syscFork sym chunks fuel c.tpidrEl1 frame g m
  return (g, m.store64 (frame.toNat + Slot.x 0) (pid.signExtend 64))

end BareMetal.Context
