import BareMetal.CS.Ledger
import BareMetal.Sched.Signals
import BareMetal.Vfs.Handles

/-!
# Tasks, their files and their chunks

`System` puts together what the life of a task touches: the scheduler, `cwd` and `fd_table` of
each task, the files, and the chunks of `malloc_` that are live. `task_create` gets chunks for the
task, its stacks and the handles of `/dev/uart`; `sysc_open` and `sysc_close` get and free handles;
`kill_zombies` frees the task and its stacks.

Other functions get and free chunks of their own, for timers, vnodes and data; `rest` are those that
they hold.
-/

namespace BareMetal.Tasks

open CS Sched Vfs

/-- The scheduler, the files of each task, the file systems, and the live chunks. -/
structure System where
  kernel : Kernel
  process : ℕ → Process
  vfs : State
  live : Finset ℕ
  rest : Multiset ℕ

/-- The chunks of a task that `kill_zombies` frees. -/
def taskChunks (x : ℕ) (task : Task) : List ℕ :=
  if task.mode = .user then [x, task.spAddr, task.userSp] else [x, task.spAddr]

/-- The chunks that `task_create` gets for the task and its stacks. -/
def createChunks (chunks : Chunks) : Mode → List ℕ
  | .user => [chunks.task, chunks.kernelStack, chunks.userStack]
  | .kernel => [chunks.task, chunks.kernelStack]

/-- `malloc_` can return these chunks, in some order of calls. -/
structure System.Fresh (s : System) (chunks : List ℕ) : Prop where
  once : chunks.Nodup
  not_live : ∀ a ∈ chunks, a ∉ s.live
  no_file : ∀ a ∈ chunks, s.vfs.fs.files a = none

/-- What happens in a step, with the chunks that `malloc_` hands out or `free` gets. -/
inductive TaskEvent
  | create (task : ℕ) (got : List ℕ)
  | opened (task : ℕ) (got : List ℕ)
  | closed (task handle : ℕ)
  | reap (freed : List ℕ)
  | malloc (chunk : ℕ)
  | free (chunk : ℕ)
  | other (e : SysEvent)
deriving DecidableEq, Repr

/-- Events that neither create nor reap a task. -/
def Quiet : SysEvent → Prop
  | .task (.create _) => False
  | .task (.reap _) => False
  | .signalKill _ _ => False
  | _ => True

/-- A new task, with its files. -/
def System.addTask (s : System) (k : Kernel) (task : ℕ) (process : Process) (vfs : State)
    (got : List ℕ) : System where
  kernel := k
  process := Function.update s.process task process
  vfs := vfs
  live := s.live ∪ got.toFinset
  rest := s.rest

/-- The files of a task change. -/
def System.setFiles (s : System) (task : ℕ) (process : Process) (vfs : State) (live : Finset ℕ) :
    System :=
  { s with process := Function.update s.process task process, vfs := vfs, live := live }

/-- One step. The task that runs opens and closes files; `sysc_signal_kill` creates a task for the
handler. -/
inductive TaskStep : System → TaskEvent → System → Prop
  | create {s : System} {chunks : Chunks} {func : Code} {mode : Mode} {fuel x h₀ h₁ h₂ : ℕ} {i₀ : ℤ}
      {k : Kernel} {process : Process} {vfs : State} {got : List ℕ}
      (fresh : s.Fresh (createChunks chunks mode ++ [h₀, h₁, h₂]))
      (creates : taskCreate fuel chunks func mode s.kernel = .ok (x, k))
      (opens : Returns (fun fuel => openUart i₀ fuel h₀ h₁ h₂ s.vfs) (process, vfs))
      (gets : got = createChunks chunks mode ++ vfs.handed [h₀, h₁, h₂]) :
      TaskStep s (.create x got) (s.addTask k x process vfs got)
  | signalKill {s : System} {chunks : Chunks} {pid : ℤ} {fuel h₀ h₁ h₂ : ℕ} {i₀ : ℤ}
      {k : Kernel} {process : Process} {vfs : State} {got : List ℕ}
      (fresh : s.Fresh (createChunks chunks .user ++ [h₀, h₁, h₂]))
      (creates : syscSignalKill fuel chunks pid s.kernel = .ok k)
      (opens : Returns (fun fuel => openUart i₀ fuel h₀ h₁ h₂ s.vfs) (process, vfs))
      (gets : got = createChunks chunks .user ++ vfs.handed [h₀, h₁, h₂]) :
      TaskStep s (.create chunks.task got) (s.addTask k chunks.task process vfs got)
  | opened {s : System} {c handle flags : ℕ} {i₀ result : ℤ} {pathname : List UInt8}
      {process : Process} {vfs : State} {got : List ℕ} (runs : running s.kernel = some c)
      (here : (s.kernel.heap c).isSome) (fresh : s.Fresh [handle])
      (returns : Returns (fun fuel => syscOpen i₀ fuel handle pathname flags (s.process c) s.vfs)
        (result, process, vfs))
      (gets : got = vfs.handed [handle]) :
      TaskStep s (.opened c got) (s.setFiles c process vfs (s.live ∪ got.toFinset))
  | closed {s : System} {c f : ℕ} {fd result : ℤ} {process : Process} {vfs : State}
      (runs : running s.kernel = some c) (here : (s.kernel.heap c).isSome)
      (bound : (s.process c).getFd fd = .ok (some f))
      (returns : syscClose fd (s.process c) s.vfs = .ok (result, process, vfs)) :
      TaskStep s (.closed c f) (s.setFiles c process vfs (s.live.erase f))
  | reap {s : System} {freed : List ℕ} {k : Kernel}
      (returns : killZombies s.kernel = .ok (freed, k)) :
      TaskStep s (.reap freed) { s with kernel := k, live := s.live \ freed.toFinset }
  | malloc {s : System} {a : ℕ} (fresh : s.Fresh [a]) :
      TaskStep s (.malloc a) { s with live := insert a s.live, rest := a ::ₘ s.rest }
  | free {s : System} {a : ℕ} (held : a ∈ s.rest) :
      TaskStep s (.free a) { s with live := s.live.erase a, rest := s.rest.erase a }
  | other {s : System} {e : SysEvent} {k : Kernel} (quiet : Quiet e)
      (step : SysStep s.kernel e k) : TaskStep s (.other e) { s with kernel := k }

end BareMetal.Tasks
