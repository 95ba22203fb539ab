import BareMetal.Tasks.Model

/-!
# What a task leaves behind

A run of the system is a run of the ledger of its chunks: a task holds its own chunks, those of its
stacks, and the handles in `fd_table`. `kill_zombies` gives back the first of these only.

## Main results

* `TaskStep.ledger` — every step of the system is one of the ledger
* `Run.leaves_nothing_iff` — all that a task got has been freed once when it is reaped exactly if
  its descriptors are all closed
-/

namespace BareMetal.Tasks

open CS Sched Vfs

variable {s s' s₀ s₁ s₂ s₃ : System} {e : TaskEvent} {w w₀ : List TaskEvent} {k k' : Kernel}
  {fuel x : ℕ} {got freed : List ℕ}

/-! ## The chunks of tasks -/

/-- Links, states and handlers do not concern the chunks of a task. -/
theorem steady_taskChunks (x : ℕ) : Steady (taskChunks x) :=
  ⟨fun _ _ => rfl, fun _ _ => rfl, fun _ _ => rfl⟩

/-- The chunks of a task record, if it is there. -/
def chunksOf (k : Kernel) (x : ℕ) : Option (List ℕ) := (k.heap x).map (taskChunks x)

/-- `task_create` fills in the chunks that it got. -/
theorem taskChunks_newTask (chunks : Chunks) (func : Code) (mode : Mode) (pid : ℤ) :
    taskChunks chunks.task (newTask chunks func mode pid) = createChunks chunks mode := by
  cases mode <;> rfl

theorem taskCreate_chunks {chunks : Chunks} {func : Code} {mode : Mode}
    (returns : taskCreate fuel chunks func mode k = .ok (x, k')) :
    chunksOf k' = Function.update (chunksOf k) chunks.task (some (createChunks chunks mode)) := by
  funext y
  rw [chunksOf, taskCreate_view (steady_taskChunks y) returns]
  by_cases same : y = chunks.task
  · subst same
    rw [Heap.alloc_self, Function.update_self, Option.map_some, taskChunks_newTask]
  · rw [Heap.alloc_of_ne same, Function.update_of_ne same, chunksOf]

theorem syscSignalKill_chunks {chunks : Chunks} {pid : ℤ}
    (returns : syscSignalKill fuel chunks pid k = .ok k') :
    chunksOf k' = Function.update (chunksOf k) chunks.task (some (createChunks chunks .user)) := by
  obtain ⟨target, -, returns⟩ := outcome_bind_eq_ok.mp returns
  obtain ⟨task, -, returns⟩ := outcome_bind_eq_ok.mp returns
  obtain ⟨k₁, removed, returns⟩ := outcome_bind_eq_ok.mp returns
  obtain ⟨⟨new, k₂⟩, created, returns⟩ := outcome_bind_eq_ok.mp returns
  obtain ⟨h, written, last⟩ := outcome_bind_eq_ok.mp returns
  simp only [outcome_pure, Except.ok.injEq] at last
  subst last
  have before : chunksOf k₁ = chunksOf k :=
    funext fun y => removeTask_view (steady_taskChunks y) removed y
  rw [← before, ← taskCreate_chunks created]
  funext y
  exact Heap.write_map written (fun _ => rfl) y

/-- Quiet events leave the chunks alone. -/
theorem SysStep.chunks {e : SysEvent} (step : SysStep k e k') (quiet : Quiet e) :
    chunksOf k' = chunksOf k := by
  funext y
  have steady := steady_taskChunks y
  cases step with
  | task step =>
    cases step with
    | create => exact quiet.elim
    | schedule runs returns => exact schedule_view steady returns y
    | exit runs returns => exact syscExit_view steady returns y
    | kill returns => exact killThread_view steady returns y
    | reap => exact quiet.elim
    | leaveShell inShell returns => rw [chunksOf, idleThread_heap returns, chunksOf]
  | signalKill => exact quiet.elim
  | addToQueue returns => exact addToQueue_view steady returns y
  | clearSignalExit => rfl
  | register returns => exact syscRegister_view steady returns y

/-- `kill_zombies` frees the chunks of the task that it pops, if any. -/
theorem killZombies_chunks (returns : killZombies k = .ok (freed, k')) :
    freed = [] ∧ k'.heap = k.heap ∨
      ∃ x, freed.head? = some x ∧ chunksOf k x = some freed ∧
        chunksOf k' = Function.update (chunksOf k) x none := by
  obtain ⟨⟨cur, z⟩, -, returns⟩ := outcome_bind_eq_ok.mp returns
  cases cur with
  | none =>
    obtain ⟨rfl, rfl⟩ := by simpa using returns
    exact .inl ⟨rfl, rfl⟩
  | some x =>
    obtain ⟨task, read, returns⟩ := outcome_bind_eq_ok.mp returns
    obtain ⟨_, same, here⟩ := Heap.get_eq_ok.mp read
    obtain rfl := Option.some.inj same
    obtain ⟨rfl, rfl⟩ := by simpa using returns
    refine .inr ⟨x, ?_, ?_, ?_⟩
    · split_ifs <;> rfl
    · rw [chunksOf, here, Option.map_some, taskChunks]
    · funext y
      change (k.heap.free x y).map (taskChunks y) = _
      by_cases same : y = x
      · subst same
        rw [Function.update_self, Heap.free_self, Option.map_none]
      · rw [Function.update_of_ne same, Heap.free_of_ne same, chunksOf]

/-! ## The ledger -/

/-- The chunks that a task, or the rest of the kernel, can still free. -/
def System.holds (s : System) : Option ℕ → Multiset ℕ
  | none => s.rest
  | some x =>
    match chunksOf s.kernel x with
    | none => 0
    | some chunks => (chunks : Multiset ℕ) + (s.process x).handles

/-- The ledger of the system. -/
def System.ledger (s : System) : Ledger (Option ℕ) ℕ := ⟨s.live, s.holds⟩

/-- What an event enters in the book. -/
def TaskEvent.entries : TaskEvent → List (Entry (Option ℕ) ℕ)
  | .create task got => [.receive (some task) got]
  | .opened task got => [.receive (some task) got]
  | .closed task handle => [.giveBack (some task) {handle}]
  | .reap freed => freed.head?.toList.map fun task => .leave (some task) freed
  | .malloc chunk => [.receive none {chunk}]
  | .free chunk => [.giveBack none {chunk}]
  | .other _ => []

/-- The book of a run. -/
def book (w : List TaskEvent) : List (Entry (Option ℕ) ℕ) := w.flatMap TaskEvent.entries

theorem holds_task {chunks : List ℕ} (there : chunksOf s.kernel x = some chunks) :
    s.holds (some x) = (chunks : Multiset ℕ) + (s.process x).handles := by
  rw [System.holds, there]

theorem chunksOf_of_isSome (here : (k.heap x).isSome) : ∃ chunks, chunksOf k x = some chunks := by
  obtain ⟨task, there⟩ := Option.isSome_iff_exists.mp here
  exact ⟨taskChunks x task, by rw [chunksOf, there, Option.map_some]⟩

/-- What a task holds when its files have changed. -/
theorem holds_setFiles {chunks : List ℕ} {process : Process} {vfs : State} {live : Finset ℕ}
    (there : chunksOf s.kernel x = some chunks) :
    (s.setFiles x process vfs live).holds (some x) = (chunks : Multiset ℕ) + process.handles := by
  rw [holds_task (s := s.setFiles x process vfs live) there]
  exact congrArg _ (congrArg Process.handles (Function.update_self ..))

/-- Steps of the kernel that leave chunks alone. -/
theorem ledger_other {live : Finset ℕ} (chunks : chunksOf k = chunksOf s.kernel)
    (same : live = s.live) : ({ s with kernel := k, live := live } : System).ledger = s.ledger := by
  rw [System.ledger, System.ledger, same]
  congr 1
  funext owner
  cases owner with
  | none => rfl
  | some y => rw [System.holds, System.holds, chunks]

/-- Chunks of the rest of the kernel. -/
theorem holds_rest {live : Finset ℕ} {rest m : Multiset ℕ} (same : rest = m) :
    ({ s with live := live, rest := rest } : System).holds = Function.update s.holds none m := by
  subst same
  funext owner
  cases owner with
  | none => rw [Function.update_self, System.holds]
  | some y => rw [Function.update_of_ne (Option.some_ne_none y), System.holds, System.holds]

/-- A step that concerns one task. -/
theorem holds_update {m : Multiset ℕ} (rest : s'.rest = s.rest) (self : s'.holds (some x) = m)
    (chunks : ∀ y, y ≠ x → chunksOf s'.kernel y = chunksOf s.kernel y)
    (process : ∀ y, y ≠ x → s'.process y = s.process y) :
    s'.holds = Function.update s.holds (some x) m := by
  funext owner
  cases owner with
  | none =>
    rw [Function.update_of_ne (Option.some_ne_none x).symm]
    exact rest
  | some y =>
    by_cases same : y = x
    · subst same
      rw [Function.update_self, self]
    · rw [Function.update_of_ne (fun eq => same (Option.some.inj eq)), System.holds, System.holds,
        chunks y same, process y same]

/-- A chunk that is not live is no task. -/
theorem holds_of_not_live (owned : Owned s.ledger) (dead : x ∉ s.live) :
    chunksOf s.kernel x = none ∧ s.holds (some x) = 0 := by
  cases there : s.kernel.heap x with
  | none =>
    have nothing : chunksOf s.kernel x = none := by rw [chunksOf, there, Option.map_none]
    exact ⟨nothing, by rw [System.holds, nothing]⟩
  | some task =>
    have chunks : chunksOf s.kernel x = some (taskChunks x task) := by
      rw [chunksOf, there, Option.map_some]
    have inside : x ∈ s.holds (some x) := by
      rw [holds_task chunks, Multiset.mem_add]
      refine .inl ?_
      rw [Multiset.mem_coe, taskChunks]
      split_ifs <;> exact List.mem_cons_self
    exact absurd (owned.live (some x) x inside) dead

/-- Chunks that `malloc_` hands out to an owner. -/
theorem ledger_receive (owner : Option ℕ) {chunks : List ℕ} (fresh : s.Fresh chunks)
    (some_of : got.Sublist chunks) (live : s'.live = s.live ∪ got.toFinset)
    (holds : s'.holds = Function.update s.holds owner (s.holds owner + (got : Multiset ℕ))) :
    s.ledger.Step (.receive owner got) s'.ledger where
  got_once := Multiset.coe_nodup.mpr (fresh.once.sublist some_of)
  fresh a inside := fresh.not_live a (some_of.subset (Multiset.mem_coe.mp inside))
  gave_held := Multiset.zero_le _
  live := by
    change s'.live = s.live \ Multiset.toFinset 0 ∪ Multiset.toFinset got
    rw [live, Multiset.toFinset_zero, Finset.sdiff_empty]
    rfl
  holds := holds

/-- Chunks that an owner gives back. -/
theorem ledger_give {e : Entry (Option ℕ) ℕ} (got : e.got = 0) (held : e.gave ≤ s.holds e.owner)
    (live : s'.live = s.live \ e.gave.toFinset)
    (holds : s'.holds = Function.update s.holds e.owner (e.keeps (s.holds e.owner))) :
    s.ledger.Step e s'.ledger where
  got_once := by
    rw [got]
    exact Multiset.nodup_zero
  fresh a inside := by
    rw [got] at inside
    exact absurd inside (Multiset.notMem_zero a)
  gave_held := held
  live := by
    change s'.live = e.after s.live
    ext a
    rw [Entry.mem_after, got, live, Finset.mem_sdiff, Multiset.mem_toFinset]
    exact ⟨Or.inl, fun after => after.resolve_right (Multiset.notMem_zero a)⟩
  holds := holds

/-- A new task holds the chunks that it got. -/
theorem ledger_addTask {chunks : Chunks} {mode : Mode} {h₀ h₁ h₂ : ℕ} {i₀ : ℤ} {process : Process}
    {vfs : State} (owned : Owned s.ledger)
    (fresh : s.Fresh (createChunks chunks mode ++ [h₀, h₁, h₂]))
    (created : chunksOf k =
      Function.update (chunksOf s.kernel) chunks.task (some (createChunks chunks mode)))
    (opens : Returns (fun fuel => openUart i₀ fuel h₀ h₁ h₂ s.vfs) (process, vfs))
    (gets : got = createChunks chunks mode ++ vfs.handed [h₀, h₁, h₂]) :
    s.ledger.Step (.receive (some chunks.task) got)
      (s.addTask k chunks.task process vfs got).ledger := by
  have inside : chunks.task ∈ createChunks chunks mode ++ [h₀, h₁, h₂] := by
    cases mode <;> exact List.mem_cons_self
  obtain ⟨-, nothing⟩ := holds_of_not_live owned (fresh.not_live _ inside)
  have handles := openUart_handles
    (fun h inside => fresh.no_file h (List.mem_append_right _ inside)) opens
  have some_of : (vfs.handed [h₀, h₁, h₂]).Sublist [h₀, h₁, h₂] := List.filter_sublist
  have sublist : got.Sublist (createChunks chunks mode ++ [h₀, h₁, h₂]) := by
    rw [gets]
    exact (List.Sublist.refl _).append some_of
  refine ledger_receive _ fresh sublist rfl ?_
  rw [nothing, zero_add]
  refine holds_update rfl ?_ (fun y other => ?_) fun y other => Function.update_of_ne other _ _
  · have there : chunksOf k chunks.task = some (createChunks chunks mode) := by
      rw [created, Function.update_self]
    have same : (s.addTask k chunks.task process vfs got).process chunks.task = process :=
      Function.update_self ..
    rw [holds_task (s := s.addTask k chunks.task process vfs got) there, same, handles, gets,
      Multiset.coe_add]
  · change chunksOf k y = _
    rw [created, Function.update_of_ne other]

/-- **Every step of the system is one of the ledger**, or none. -/
theorem TaskStep.ledger (owned : Owned s.ledger) (step : TaskStep s e s') :
    Run Ledger.Step s.ledger e.entries s'.ledger := by
  cases step with
  | create fresh creates opens gets =>
    obtain rfl := taskCreate_task creates
    exact Run.single (ledger_addTask owned fresh (taskCreate_chunks creates) opens gets)
  | signalKill fresh creates opens gets =>
    exact Run.single (ledger_addTask owned fresh (syscSignalKill_chunks creates) opens gets)
  | @opened c handle flags i₀ result pathname process vfs got runs here fresh returns gets =>
    subst gets
    obtain ⟨chunks, there⟩ := chunksOf_of_isSome here
    have gets := syscOpen_handles (fresh.no_file handle List.mem_cons_self) returns
    have after : (s.setFiles c process vfs (s.live ∪ (vfs.handed [handle]).toFinset)).holds
        (some c) = s.holds (some c) + (vfs.handed [handle] : Multiset ℕ) := by
      rw [holds_setFiles there, holds_task there, gets, add_assoc]
    apply Run.single
    apply ledger_receive (some c) fresh List.filter_sublist rfl
    exact holds_update rfl after (fun _ _ => rfl) fun y other => Function.update_of_ne other _ _
  | @closed c f fd result process vfs runs here bound returns =>
    obtain ⟨chunks, there⟩ := chunksOf_of_isSome here
    obtain ⟨inside, left⟩ := syscClose_handles bound returns
    have held : {f} ≤ (s.process c).handles := Multiset.singleton_le.mpr inside
    have owned : {f} ≤ s.holds (some c) := by
      rw [holds_task there]
      exact held.trans (Multiset.le_add_left _ _)
    have after : (s.setFiles c process vfs (s.live.erase f)).holds (some c) =
        s.holds (some c) - {f} := by
      rw [holds_setFiles there, holds_task there, left, add_tsub_assoc_of_le held]
    have live : s.live.erase f = s.live \ ({f} : Multiset ℕ).toFinset := by
      rw [Multiset.toFinset_singleton, Finset.sdiff_singleton_eq_erase]
    apply Run.single
    apply ledger_give (s := s) (e := .giveBack (some c) {f}) rfl owned live
    exact holds_update rfl after (fun _ _ => rfl) fun y other => Function.update_of_ne other _ _
  | @reap freed k returns =>
    rcases killZombies_chunks returns with ⟨rfl, heap⟩ | ⟨x, first, there, gone⟩
    · -- no task is popped
      have chunks : chunksOf k = chunksOf s.kernel := by
        funext y
        rw [chunksOf, heap, chunksOf]
      rw [ledger_other chunks (by simp)]
      exact .refl _
    · rw [TaskEvent.entries, first]
      have held : (freed : Multiset ℕ) ≤ s.holds (some x) := by
        rw [holds_task there]
        exact Multiset.le_add_right _ _
      apply Run.single
      apply ledger_give (s := s) (e := .leave (some x) freed) rfl held rfl
      refine holds_update rfl ?_ (fun y other => ?_) fun _ _ => rfl
      · rw [System.holds, gone, Function.update_self]
        rfl
      · exact (congrFun gone y).trans (Function.update_of_ne other _ _)
  | @malloc a fresh =>
    apply Run.single
    apply ledger_receive none fresh (List.Sublist.refl _)
    · ext b
      rw [Finset.mem_insert, Finset.mem_union, List.mem_toFinset, List.mem_singleton]
      exact Or.comm
    · apply holds_rest
      exact (Multiset.singleton_add a s.rest).symm.trans (add_comm _ _)
  | @free a held =>
    apply Run.single
    apply ledger_give (s := s) (e := .giveBack none {a}) rfl (Multiset.singleton_le.mpr held)
    · exact (Finset.sdiff_singleton_eq_erase a s.live).symm.trans
        (congrArg _ (Multiset.toFinset_singleton a).symm)
    · apply holds_rest
      exact (Multiset.sub_singleton a s.rest).symm
  | @other e k quiet step =>
    rw [ledger_other (SysStep.chunks step quiet) rfl]
    exact .refl _

/-! ## Runs -/

theorem book_snoc (w : List TaskEvent) (e : TaskEvent) : book (w ++ [e]) = book w ++ e.entries := by
  simp [book]

/-- At boot there are no tasks, and what the rest of the kernel holds is live. -/
structure Booted (s : System) : Prop where
  kernel : Sched.Boot s.kernel
  once : s.rest.Nodup
  live : ∀ a ∈ s.rest, a ∈ s.live

theorem Booted.owned (boot : Booted s) : Owned s.ledger := by
  have nothing : ∀ x, s.holds (some x) = 0 := by
    intro x
    rw [System.holds, chunksOf, boot.kernel.heap]
    rfl
  have no_task : ∀ x a, a ∉ s.holds (some x) := by
    intro x a inside
    rw [nothing] at inside
    exact Multiset.notMem_zero a inside
  refine ⟨fun owner => ?_, fun owner a inside => ?_, fun owner owner' other a inside inside' => ?_⟩
  · cases owner with
    | none => exact boot.once
    | some x =>
      change (s.holds (some x)).Nodup
      rw [nothing]
      exact Multiset.nodup_zero
  · cases owner with
    | none => exact boot.live a inside
    | some x => exact absurd inside (no_task x a)
  · cases owner with
    | none =>
      cases owner' with
      | none => exact other rfl
      | some x => exact no_task x a inside'
    | some x => exact no_task x a inside

/-- A run of the system is a run of the ledger. -/
theorem Run.ledger (run : Run TaskStep s w s') (owned : Owned s.ledger) :
    Run Ledger.Step s.ledger (book w) s'.ledger ∧ Owned s'.ledger := by
  induction run with
  | refl => exact ⟨.refl _, owned⟩
  | snoc _ last ih =>
    obtain ⟨before, kept⟩ := ih
    have step := last.ledger kept
    rw [book_snoc]
    exact ⟨before.trans step, step.preserves Owned (fun _ _ _ here step => step.owned here) kept⟩

/-- A task that is created was not there. -/
theorem TaskStep.new (owned : Owned s.ledger) (step : TaskStep s (.create x got) s') :
    s.holds (some x) = 0 := by
  cases step with
  | @create chunks func mode fuel x h₀ h₁ h₂ i₀ k process vfs got fresh creates opens gets =>
    obtain rfl := taskCreate_task creates
    apply (holds_of_not_live owned (fresh.not_live _ _)).2
    cases mode <;> exact List.mem_cons_self
  | signalKill fresh creates opens gets =>
    exact (holds_of_not_live owned (fresh.not_live _ List.mem_cons_self)).2

/-- What is given back is a task with its stacks. -/
theorem TaskStep.reaped (first : freed.head? = some x) (step : TaskStep s (.reap freed) s') :
    s.holds (some x) = (freed : Multiset ℕ) + (s.process x).handles := by
  cases step with
  | reap returns =>
    rcases killZombies_chunks returns with ⟨rfl, -⟩ | ⟨y, head, there, -⟩
    · contradiction
    · obtain rfl : x = y := Option.some.inj (first.symm.trans head)
      exact holds_task there

/-- **A task leaves nothing behind** exactly if all its descriptors are closed when it is reaped:
then all that `malloc_` handed out for it, its record, its stacks and the handles of its files,
has been freed once, and the live chunks are those of the same run without the task. -/
theorem Run.leaves_nothing_iff (boot : Booted s) (before : Run TaskStep s w₀ s₀)
    (created : TaskStep s₀ (.create x got) s₁) (life : Run TaskStep s₁ w s₂)
    (unreaped : ∀ freed, .reap freed ∈ w → freed.head? ≠ some x)
    (reaped : TaskStep s₂ (.reap freed) s₃) (first : freed.head? = some x) :
    FreedOnce (some x) (book (.create x got :: w ++ [.reap freed])) ∧
        s₃.live = replay s₀.live (others (some x) (book (.create x got :: w ++ [.reap freed]))) ↔
      ∀ (fd : ℕ) (_ : fd < vfsProcessMaxOpenFile), (s₂.process x).fdTable[fd] = none := by
  obtain ⟨-, owned⟩ := Run.ledger before boot.owned
  obtain ⟨run, owned₂⟩ := Run.ledger (Run.cons created life) owned
  -- before it is reaped, the task does not leave
  have stays : ∀ gave, .leave (some x) gave ∉ book (.create x got :: w) := by
    intro gave inside
    obtain ⟨e, listed, entry⟩ := List.mem_flatMap.mp inside
    cases e with
    | reap freed =>
      obtain ⟨y, head, same⟩ := List.mem_map.mp entry
      obtain ⟨rfl, -⟩ := by simpa using same
      rcases List.mem_cons.mp listed with other | later
      · contradiction
      · exact unreaped freed later (Option.mem_toList.mp head)
    | _ => simp [TaskEvent.entries] at entry
  have entry : (TaskEvent.reap freed).entries = [.leave (some x) freed] := by
    rw [TaskEvent.entries, first]
    rfl
  have last : s₂.ledger.Step (.leave (some x) freed) s₃.ledger := by
    have single := reaped.ledger owned₂
    rw [entry] at single
    obtain ⟨t, nothing, last⟩ := Run.of_snoc (w := []) single
    rwa [nothing.eq_of_nil] at last
  rw [book_snoc, entry]
  refine (Ledger.settled_iff (x := some x) owned (created.new owned) run stays last).trans ?_
  change (freed : Multiset ℕ) = s₂.holds (some x) ↔ _
  rw [reaped.reaped first, left_eq_add, Process.handles_eq_zero]

/-! ## Two lives -/

/-- A root with `/dev`, where a devfs is mounted. -/
def withUart : State :=
  { freshRoot with fs := { freshRoot.fs with nodes :=
      [⟨none, .tmpfs, .tmpfs, ⟨[], .dir, 1, .entries [1]⟩⟩,
        ⟨some 2, .tmpfs, .tmpfs, ⟨[100, 101, 118], .dir, 0, .null⟩⟩,
        ⟨none, .devfs, .devfs, ⟨[], .dir, 1, .entries [3]⟩⟩,
        ⟨none, .devfs, .devfs, ⟨devfsUartName, .file, 0, .null⟩⟩] } }

/-- The system at boot. -/
def bootSystem : System where
  kernel := bootKernel
  process := fun _ => ⟨Vector.replicate _ none, []⟩
  vfs := withUart
  live := ∅
  rest := 0

/-- The idle task starts. -/
def idleStarts : List TaskEvent :=
  [.create 0x10000 [0x10000, 0x12000, 0x100, 0x140, 0x180], .other (.task .leaveShell)]

/-- Task 2 closes its files, and one that it has opened, and exits. -/
def tidyLife : List TaskEvent :=
  [.other (.task .schedule), .opened 0x20000 [0x2c0], .closed 0x20000 0x2c0, .closed 0x20000 0x200,
    .closed 0x20000 0x240, .closed 0x20000 0x280, .other (.task .exit), .other (.task .schedule)]

/-- Task 2 exits. -/
def untidyLife : List TaskEvent :=
  [.other (.task .schedule), .other (.task .exit), .other (.task .schedule)]

/-- What task 2 gets. -/
def gotChunks : List ℕ := [0x20000, 0x22000, 0x21000, 0x200, 0x240, 0x280]

/-- What is freed when it is reaped. -/
def freedChunks : List ℕ := [0x20000, 0x22000, 0x21000]

theorem bootSystem_booted : Booted bootSystem :=
  ⟨bootKernel_boot, Multiset.nodup_zero, fun a inside => absurd inside (Multiset.notMem_zero a)⟩

/-- Task 2 can live in both ways. -/
theorem idleStarts_lives : ∃ s₀ s₁, Run TaskStep bootSystem idleStarts s₀ ∧
    TaskStep s₀ (.create 0x20000 gotChunks) s₁ ∧
    (∃ s₂ s₃, Run TaskStep s₁ tidyLife s₂ ∧ TaskStep s₂ (.reap freedChunks) s₃ ∧
      (s₂.process 0x20000).fdTable = Vector.replicate _ none) ∧
    ∃ s₂ s₃, Run TaskStep s₁ untidyLife s₂ ∧ TaskStep s₂ (.reap freedChunks) s₃ ∧
      0x200 ∈ s₃.live ∧ 0x200 ∉ s₀.live := by
  have r₁ : Run TaskStep bootSystem [.create 0x10000 [0x10000, 0x12000, 0x100, 0x140, 0x180]] _ :=
    .single (TaskStep.create (s := bootSystem) ⟨by decide, by decide, fun _ _ => rfl⟩
      (show taskCreate 9 (chunksAt 0x10000) .idleThread .kernel _ = .ok (0x10000, _) from rfl)
      ⟨4, show openUart 0 4 0x100 0x140 0x180 _ = .ok (_, _) from rfl⟩ rfl)
  have r₂ : Run TaskStep bootSystem idleStarts _ := r₁.snoc
    (.other trivial (.task (.leaveShell rfl (show idleThread 9 0x900 0 0 64 _ = .ok _ from rfl))))
  refine ⟨_, _, r₂, .create ⟨by decide, by decide, by decide⟩
    (show taskCreate 9 (chunksAt 0x20000) (.function 0x80000) .user _ = .ok (0x20000, _) from rfl)
    ⟨4, show openUart 0 4 0x200 0x240 0x280 _ = .ok (_, _) from rfl⟩ rfl, ?_, ?_⟩
  · exact ⟨_, _, (((((((Run.single
      (.other trivial (.task (.schedule rfl (show schedule 9 _ = .ok _ from rfl))))).snoc
      (.opened rfl rfl ⟨by decide, by decide, by decide⟩
        ⟨4, show syscOpen 0 4 0x2c0 devUart 0 _ _ = .ok (3, _, _) from rfl⟩ rfl)).snoc
      (.closed rfl rfl rfl (show syscClose 3 _ _ = .ok (0, _, _) from rfl))).snoc
      (.closed rfl rfl rfl (show syscClose 0 _ _ = .ok (0, _, _) from rfl))).snoc
      (.closed rfl rfl rfl (show syscClose 1 _ _ = .ok (0, _, _) from rfl))).snoc
      (.closed rfl rfl rfl (show syscClose 2 _ _ = .ok (0, _, _) from rfl))).snoc
      (.other trivial (.task (.exit rfl (show syscExit 9 _ = .ok _ from rfl))))).snoc
      (.other trivial (.task (.schedule rfl (show schedule 9 _ = .ok _ from rfl)))),
      .reap (show killZombies _ = .ok (freedChunks, _) from rfl), rfl⟩
  · exact ⟨_, _, ((Run.single
      (.other trivial (.task (.schedule rfl (show schedule 9 _ = .ok _ from rfl))))).snoc
      (.other trivial (.task (.exit rfl (show syscExit 9 _ = .ok _ from rfl))))).snoc
      (.other trivial (.task (.schedule rfl (show schedule 9 _ = .ok _ from rfl)))),
      .reap (show killZombies _ = .ok (freedChunks, _) from rfl), by decide, by decide⟩

/-- A task that has closed all its files leaves nothing behind. -/
theorem tidyTask_leaves_nothing : ∃ s₀ s₁ s₂ s₃, Run TaskStep bootSystem idleStarts s₀ ∧
    TaskStep s₀ (.create 0x20000 gotChunks) s₁ ∧ Run TaskStep s₁ tidyLife s₂ ∧
    TaskStep s₂ (.reap freedChunks) s₃ ∧
    FreedOnce (some 0x20000) (book (.create 0x20000 gotChunks :: tidyLife ++ [.reap freedChunks])) ∧
    s₃.live = replay s₀.live (others (some 0x20000)
      (book (.create 0x20000 gotChunks :: tidyLife ++ [.reap freedChunks]))) := by
  obtain ⟨s₀, s₁, before, created, ⟨s₂, s₃, life, reaped, closed⟩, -⟩ := idleStarts_lives
  have unreaped : ∀ freed, .reap freed ∈ tidyLife → freed.head? ≠ some 0x20000 := by
    intro freed inside
    simp [tidyLife] at inside
  have settled := (Run.leaves_nothing_iff bootSystem_booted before created life unreaped reaped
    rfl).mpr fun fd inside => by simp [closed]
  exact ⟨s₀, s₁, s₂, s₃, before, created, life, reaped, settled⟩

/-- A task that exits with open files leaves their handles behind. -/
theorem untidyTask_leaks : ∃ s₀ s₁ s₂ s₃, Run TaskStep bootSystem idleStarts s₀ ∧
    TaskStep s₀ (.create 0x20000 gotChunks) s₁ ∧ Run TaskStep s₁ untidyLife s₂ ∧
    TaskStep s₂ (.reap freedChunks) s₃ ∧
    ¬ FreedOnce (some 0x20000)
      (book (.create 0x20000 gotChunks :: untidyLife ++ [.reap freedChunks])) ∧
    s₃.live ≠ replay s₀.live (others (some 0x20000)
      (book (.create 0x20000 gotChunks :: untidyLife ++ [.reap freedChunks]))) := by
  obtain ⟨s₀, s₁, before, created, -, s₂, s₃, life, reaped, leaked, new⟩ := idleStarts_lives
  refine ⟨s₀, s₁, s₂, s₃, before, created, life, reaped, by decide, fun same => new ?_⟩
  rwa [same] at leaked

end BareMetal.Tasks
