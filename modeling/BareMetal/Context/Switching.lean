import BareMetal.CS.Transition
import BareMetal.Context.Frames
import Mathlib.Data.Set.Pairwise.Basic

/-!
# Sequences of context switches

`switch_to` saves the registers that a call preserves at the start of the old task and takes
those of the new task from its start. Between two calls the running task may put anything into
the registers, and store anything outside of the contexts that wait in the tasks.

## Main results

* `Run.resumes_saved` — along every sequence of switches a task goes on with the registers of its
  own last call, it is the current task, and of all tasks only the context of the old one is stored
-/

namespace BareMetal.Context

open CS ByteMemory

variable {c c' c'' : Cpu} {m m' : ByteMemory} {base i : ℕ}

/-! ## Contexts -/

/-- The registers `x19` to `x28`, `fp` and `lr`, and the stack pointer. -/
@[ext]
structure Saved where
  x : Fin 12 → BitVec 64
  sp : BitVec 64

/-- The context in the registers. -/
def Cpu.saved (c : Cpu) : Saved := ⟨fun i => c.x (19 + i), c.sp⟩

/-- The context at the start of a task. -/
def savedAt (m : ByteMemory) (task : BitVec 64) : Saved :=
  ⟨fun i => m.load64 (task.toNat + 8 * i), m.load64 (task.toNat + Field.sp)⟩

/-- The length of a context. -/
def savedSize : ℕ := 104

/-- `get_current`. -/
def getCurrent (c : Cpu) : BitVec 64 := c.tpidrEl1

/-- A context depends on its bytes only. -/
theorem savedAt_of_kept {task : BitVec 64} (kept : Kept task.toNat savedSize m m') :
    savedAt m' task = savedAt m task := by
  have size : savedSize = 104 := rfl
  have offset : Field.sp = 96 := rfl
  refine Saved.ext (funext fun i => ?_) (kept.load64 (by omega) (by omega))
  have small := i.isLt
  exact kept.load64 (by omega) (by omega)

/-! ## One switch -/

/-- `switch_to` saves the registers in the old task. -/
theorem savedAt_switchTo (c : Cpu) (m : ByteMemory) :
    savedAt (switchTo c m).2 (c.x 0) = c.saved := by
  have stores : (switchTo c m).2 =
      (storePairs c.x 19 (c.x 0).toNat 6 m).store64 ((c.x 0).toNat + 16 * 6) c.sp := rfl
  rw [stores]
  refine Saved.ext (funext fun i => ?_) load64_store64_self
  have small := i.isLt
  change ByteMemory.load64 _ ((c.x 0).toNat + 8 * i) = c.x (19 + i)
  rw [load64_store64_of_apart (by omega), load64_storePairs (by omega)]

/-- `switch_to` loads the registers from the new task. -/
theorem saved_switchTo (c : Cpu) (m : ByteMemory) :
    (switchTo c m).1.saved = savedAt (switchTo c m).2 (c.x 1) := by
  refine Saved.ext (funext fun i => ?_) (switchTo_next c m).2.1
  have small := i.isLt
  change (switchTo c m).1.x (19 + i) = (switchTo c m).2.load64 ((c.x 1).toNat + 8 * i)
  rw [switchTo_x, Function.update_of_ne (by omega), loadPairs_of_inside _ _ _ _ (by omega)]

/-! ## Runs -/

/-- The registers, memory and, for each task that has called `switch_to`, the registers of its
last call. -/
structure Core where
  cpu : Cpu
  mem : ByteMemory
  last : BitVec 64 → Option Saved

/-- A call of `switch_to`, with the registers that it saves, or what happens between two
calls. -/
inductive SwitchEvent
  | switch (prev next : BitVec 64) (saved : Saved)
  | work

/-- One step. Tasks work with all registers but `tpidr_el1`, which only `switch_to` writes,
and leave the contexts alone that wait in the tasks. A task that has not called `switch_to` yet may
be given any context. -/
inductive SwitchStep (tasks : Set (BitVec 64)) : Core → SwitchEvent → Core → Prop
  | switch {c : Core} (running : c.cpu.x 0 = getCurrent c.cpu) (prev : c.cpu.x 0 ∈ tasks)
      (next : c.cpu.x 1 ∈ tasks) :
      SwitchStep tasks c (.switch (c.cpu.x 0) (c.cpu.x 1) c.cpu.saved)
        ⟨(switchTo c.cpu c.mem).1, (switchTo c.cpu c.mem).2,
          Function.update c.last (c.cpu.x 0) (some c.cpu.saved)⟩
  | work {c c' : Core} (current : getCurrent c'.cpu = getCurrent c.cpu)
      (waiting : ∀ task ∈ tasks, (c.last task).isSome → Kept task.toNat savedSize c.mem c'.mem)
      (nobody : c'.last = c.last) :
      SwitchStep tasks c .work c'

/-- What a step adds to the contexts saved last. -/
def SwitchEvent.record (last : BitVec 64 → Option Saved) : SwitchEvent → BitVec 64 → Option Saved
  | .switch prev _ saved => Function.update last prev (some saved)
  | .work => last

/-- The registers of each task at its own last call. -/
def lastSaved (w : List SwitchEvent) : BitVec 64 → Option Saved :=
  w.foldl SwitchEvent.record fun _ => none

@[simp] theorem lastSaved_snoc (w : List SwitchEvent) (e : SwitchEvent) :
    lastSaved (w ++ [e]) = e.record (lastSaved w) :=
  List.foldl_append ..

/-- No two tasks overlap. -/
def TasksApart (tasks : Set (BitVec 64)) : Prop :=
  tasks.Pairwise fun a b => Apart (a.toNat, Field.size) (b.toNat, Field.size)

/-- Every task holds the context it saved last. -/
def Remembers (tasks : Set (BitVec 64)) (c : Core) : Prop :=
  ∀ task ∈ tasks, ∀ saved, c.last task = some saved → savedAt c.mem task = saved

variable {tasks : Set (BitVec 64)} {k k' k'' : Core} {w : List SwitchEvent} {e : SwitchEvent}

/-- A switch leaves the contexts of the other tasks alone. -/
theorem kept_switchTo (apart : TasksApart tasks) {task : BitVec 64} (mem : task ∈ tasks)
    (prev : c.x 0 ∈ tasks) (other : task ≠ c.x 0) :
    Kept task.toNat savedSize m (switchTo c m).2 := by
  have size : Field.size = 544 := rfl
  have small : savedSize = 104 := rfl
  refine writes_switchTo.kept ?_
  rcases apart_iff.mp (apart mem prev other) with before | behind
  · exact .inl (by omega)
  · exact .inr (by omega)

/-- A step records the registers of the call. -/
theorem SwitchStep.record (step : SwitchStep tasks k e k') : k'.last = e.record k.last := by
  cases step with
  | switch => rfl
  | work _ _ nobody => exact nobody

/-- The registers of the last calls are those of the sequence. -/
theorem Run.record (start : k.last = fun _ => none) (run : Run (SwitchStep tasks) k w k') :
    k'.last = lastSaved w := by
  induction run with
  | refl => exact start
  | snoc _ step ih => rw [step.record, ih, lastSaved_snoc]

/-- What a step saves is remembered, and nothing is forgotten. -/
theorem SwitchStep.remembers (step : SwitchStep tasks k e k') (apart : TasksApart tasks)
    (remembers : Remembers tasks k) : Remembers tasks k' := by
  intro task mem saved last
  cases step with
  | switch running prev next =>
    by_cases old : task = k.cpu.x 0
    · subst old
      dsimp only at last
      rw [Function.update_self, Option.some.injEq] at last
      rw [← last]
      exact savedAt_switchTo k.cpu k.mem
    · dsimp only at last
      rw [Function.update_of_ne old] at last
      rw [savedAt_of_kept (kept_switchTo apart mem prev old)]
      exact remembers task mem saved last
  | work current waiting nobody =>
    rw [nobody] at last
    rw [savedAt_of_kept (waiting task mem (Option.isSome_iff_exists.mpr ⟨saved, last⟩))]
    exact remembers task mem saved last

/-- **Context switches.** After any sequence of switches, a call of `switch_to` makes the new
task current. If it has ever called `switch_to` itself, it goes on behind its own last call,
with the registers of that call. Of all tasks only the context of the old one is stored. -/
theorem Run.resumes_saved (apart : TasksApart tasks) (start : k.last = fun _ => none)
    (run : Run (SwitchStep tasks) k w k')
    {prev next : BitVec 64} {saved : Saved}
    (step : SwitchStep tasks k' (.switch prev next saved) k'') :
    getCurrent k''.cpu = next ∧
      (∀ last, lastSaved (w ++ [.switch prev next saved]) next = some last →
        k''.cpu.saved = last ∧ k''.cpu.pc = last.x 11) ∧
      Writes prev.toNat savedSize k'.mem k''.mem := by
  have nothing : Remembers tasks k := by
    intro task mem saved last
    simp [start] at last
  have remembers := (run.snoc step).preserves (Remembers tasks)
    (fun _ _ _ remembers step => step.remembers apart remembers) nothing
  have recorded := Run.record start (run.snoc step)
  cases step with
  | switch running prev next =>
    obtain ⟨current, -, pc⟩ := switchTo_next k'.cpu k'.mem
    refine ⟨current, fun last saved => ?_, writes_switchTo⟩
    rw [← recorded] at saved
    have loaded := (saved_switchTo k'.cpu k'.mem).trans (remembers _ next last saved)
    refine ⟨loaded, ?_⟩
    have link : (switchTo k'.cpu k'.mem).1.saved.x 11 = last.x 11 := by rw [loaded]
    rw [saved_switchTo] at link
    exact pc.trans link

/-- Two tasks. -/
def twoTasks : Set (BitVec 64) := {0x1000, 0x2000}

theorem twoTasks_apart : TasksApart twoTasks := by
  rintro a (rfl | rfl) b (rfl | rfl) other
  · exact absurd rfl other
  · exact .inl (by decide)
  · exact .inr (by decide)
  · exact absurd rfl other

/-- The first task calls `switch_to` with 7 in all registers. -/
def firstRuns : Core where
  cpu :=
    { x := fun i => if i = 0 then 0x1000 else if i = 1 then 0x2000 else 7
      sp := 7, pc := 0, spEl0 := 0, elrEl1 := 0, spsrEl1 := 0, tpidrEl1 := 0x1000 }
  mem := fun _ => 0
  last := fun _ => none

/-- The second task has put 9 into all registers and calls `switch_to`. -/
def secondCpu : Cpu where
  x := fun i => if i = 0 then 0x2000 else if i = 1 then 0x1000 else 9
  sp := 9
  pc := 0
  spEl0 := 0
  elrEl1 := 0
  spsrEl1 := 0
  tpidrEl1 := 0x2000

/-- The first task goes on with 7 in its registers. -/
theorem firstRuns_resumes : ∃ w k, Run (SwitchStep twoTasks) firstRuns w k ∧
    getCurrent k.cpu = 0x1000 ∧ k.cpu.saved = firstRuns.cpu.saved := by
  obtain ⟨last, first⟩ : ∃ last,
      SwitchStep twoTasks firstRuns (.switch 0x1000 0x2000 firstRuns.cpu.saved)
        ⟨(switchTo firstRuns.cpu firstRuns.mem).1, (switchTo firstRuns.cpu firstRuns.mem).2,
          last⟩ :=
    ⟨_, .switch (by rfl) (.inl rfl) (.inr rfl)⟩
  have current := (switchTo_next firstRuns.cpu firstRuns.mem).1
  have second : SwitchStep twoTasks ⟨(switchTo firstRuns.cpu firstRuns.mem).1,
      (switchTo firstRuns.cpu firstRuns.mem).2, last⟩ .work
      ⟨secondCpu, (switchTo firstRuns.cpu firstRuns.mem).2, last⟩ :=
    .work current.symm (fun task _ _ => .refl _ _ _) rfl
  have third : SwitchStep twoTasks ⟨secondCpu, (switchTo firstRuns.cpu firstRuns.mem).2, last⟩
      (.switch 0x2000 0x1000 secondCpu.saved) _ :=
    .switch (by rfl) (.inr rfl) (.inl rfl)
  have run := (Run.single first).snoc second
  obtain ⟨here, registers, -⟩ := Run.resumes_saved twoTasks_apart rfl run third
  have recorded : lastSaved (([.switch 0x1000 0x2000 firstRuns.cpu.saved] ++ [.work]) ++
      [.switch 0x2000 0x1000 secondCpu.saved]) 0x1000 = some firstRuns.cpu.saved := by
    rw [lastSaved_snoc, SwitchEvent.record, Function.update_of_ne (by decide)]
    simp [lastSaved, SwitchEvent.record]
  exact ⟨_, _, run.snoc third, here, (registers _ recorded).1⟩

end BareMetal.Context
