import BareMetal.Vfs.SessionRuns
import BareMetal.Vfs.Views

/-!
# The files of all tasks

The calls on files are made with interrupts disabled, so that they come one after the other, but the
tasks take turns in any order, and `task_create` adds new ones. Each task has handles of its own,
and a call moves those of the task only.

## Main results

* `System.Orderly.refines_views` — every interleaving is a run of the abstract machine
* `System.Orderly.shared_round_trip` — what a task writes to a new file in pieces is read by any
  other, whatever calls come in between
-/

namespace BareMetal.Vfs

open CS ByteFile Strings

variable {c c' : Session} {s : State} {cur : Process} {root u v i j fd fd' : ℕ} {e : FileEvent}
  {p buf bytes : List UInt8} {node : Vnode}

/-! ## Other tasks -/

theorem Session.Frame.trans {c'' : Session} (first : c.Frame c' root) (second : c'.Frame c'' root) :
    c.Frame c'' root := by
  have kept {g : ℕ} (away : ∀ i : ℕ, c.process.fdTable.toList[i]? ≠ some (some g))
      (opened : (c.state.fs.files g).isSome) :
      (∀ i : ℕ, c'.process.fdTable.toList[i]? ≠ some (some g)) ∧
        c'.state.fs.files g = c.state.fs.files g := by
    refine ⟨fun i bound => ?_, first.others away opened⟩
    rcases first.own bound with ⟨j, old⟩ | fresh
    · exact away j old
    · rw [fresh] at opened
      contradiction
  refine ⟨fun away opened => ?_, fun v node here regular => ?_,
    fun reaches => second.reaches (first.reaches reaches), fun {i g} bound => ?_⟩
  · obtain ⟨away', same⟩ := kept away opened
    exact (second.others away' (same ▸ opened)).trans same
  · obtain ⟨node', there, type, kind, le⟩ := first.longer here regular
    obtain ⟨node'', there', type', kind', le'⟩ := second.longer there (type.trans regular)
    exact ⟨node'', there', type'.trans type, kind'.trans kind, le.trans le'⟩
  · rcases second.own bound with ⟨j, old⟩ | fresh
    · exact first.own old
    · -- the handle was not there before the first call either, or it is one of the task
      by_contra! other
      have opened := Option.isSome_iff_ne_none.mpr other.2
      obtain ⟨-, same⟩ := kept other.1 opened
      rw [← same, fresh] at opened
      contradiction

/-- No handle belongs to both tasks. -/
def Process.Apart (cur cur' : Process) : Prop :=
  ∀ ⦃i j f : ℕ⦄, cur.fdTable.toList[i]? = some (some f) → cur'.fdTable.toList[j]? ≠ some (some f)

theorem Process.Apart.symm {cur' : Process} (apart : cur.Apart cur') : cur'.Apart cur :=
  fun _ _ _ bound' bound => apart bound bound'

/-- The handles that a task gets are not those of another. -/
theorem Session.Frame.apart (frame : c.Frame c' root)
    (orderly : Session.Orderly ⟨cur, c.state⟩ root) (apart : cur.Apart c.process) :
    cur.Apart c'.process := by
  intro i j f bound bound'
  rcases frame.own bound' with ⟨k, old⟩ | fresh
  · exact apart bound old
  · obtain ⟨handle, v, node, stands⟩ := orderly.stands bound
    have opened : c.state.fs.files f = some handle := stands.opened
    rw [fresh] at opened
    contradiction

/-- A call of another task keeps a session orderly and its descriptors where they are. -/
theorem Session.Orderly.other (orderly : Session.Orderly ⟨cur, c.state⟩ root)
    (after : c'.Orderly root) (frame : c.Frame c' root) (apart : cur.Apart c.process) :
    Session.Orderly ⟨cur, c'.state⟩ root ∧ cur.stands c'.state.fs = cur.stands c.state.fs := by
  have kept {i f : ℕ} (bound : cur.fdTable.toList[i]? = some (some f)) :
      c'.state.fs.files f = c.state.fs.files f := by
    obtain ⟨handle, v, node, stands⟩ := orderly.stands bound
    refine frame.others (fun j => apart bound) ?_
    have opened : c.state.fs.files f = some handle := stands.opened
    rw [opened]
    rfl
  refine ⟨⟨⟨after.good.rooted, orderly.good.cwd.is_cwd, ?_⟩, after.stored, after.suits,
    fun bound => ?_, orderly.different⟩, ?_⟩
  · exact frame.reaches orderly.good.cwd.leads
  · obtain ⟨handle, v, node, stands⟩ := orderly.stands bound
    obtain ⟨node', there, type, kind, le⟩ := frame.longer stands.here stands.regular
    exact ⟨handle, v, node', (kept bound).trans stands.opened, stands.points, there,
      type.trans stands.regular, stands.fOps.trans kind.symm, stands.inside.trans le⟩
  · refine List.map_congr_left fun entry inside => ?_
    cases entry with
    | none => rfl
    | some f =>
      obtain ⟨i, bound⟩ := List.mem_iff_getElem?.mp inside
      rw [Option.bind_some, Option.bind_some, Fs.stand, kept bound, Fs.stand]

/-! ## New tasks -/

theorem openUart_mono (i₀ : ℤ) (h₀ h₁ h₂ : ℕ) (s : State) :
    FuelMonotone fun fuel => openUart i₀ fuel h₀ h₁ h₂ s :=
  (vfsOpen_mono ..).bind fun _ => (vfsOpen_mono ..).bind fun _ =>
    (vfsOpen_mono ..).bind fun _ => fuelMonotone_const _

/-- A task without open files. -/
def newTask (s : State) : Session := ⟨⟨Vector.replicate vfsProcessMaxOpenFile none, [slash]⟩, s⟩

theorem newTask_unbound (s : State) (i f : ℕ) :
    (newTask s).process.fdTable.toList[i]? ≠ some (some f) := by
  intro bound
  have idle := List.mem_of_getElem? bound
  simp [newTask] at idle

/-- The tree, the files and the functions of a state make a new task orderly. -/
theorem newTask_orderly (rooted : Rooted s root) (stored : s.fs.Stored)
    (suits : ∀ {v : ℕ} {node : Vnode}, s.fs.nodes[v]? = some node → Suits s.mounted node) :
    (newTask s).Orderly root where
  good := ⟨rooted, rootCwd, _, Namespace.reaches_nil.mpr
    (rooted.tree.exists_settles root).choose_spec⟩
  stored := stored
  suits := suits
  stands bound := absurd bound (newTask_unbound s _ _)
  different bound := absurd bound (newTask_unbound s _ _)

/-- `vfs_open` of a path that leads to a regular file. -/
theorem vfsOpen_found (finds : s.Finds p v) (here : s.fs.nodes[v]? = some node)
    (regular : node.component.type = .file) (flags handle : ℕ) (file : Option ℕ) :
    Returns (fun fuel => vfsOpen 0 fuel p flags handle file s)
      (0, some handle, { s with fs := s.fs.openFile handle v flags node.fOps }) := by
  obtain ⟨fuel, lookup⟩ := finds
  refine ⟨fuel, ?_⟩
  dsimp only at lookup ⊢
  simp [vfsOpen, openNode, lookup, tmpfsOpen_file here regular]

/-- A descriptor gets a handle of a regular file. -/
theorem Session.Orderly.openFile {handle : ℕ} (orderly : c.Orderly root)
    (here : c.state.fs.nodes[v]? = some node) (regular : node.component.type = .file)
    (fresh : c.state.fs.files handle = none) (inside : fd < vfsProcessMaxOpenFile)
    (idle : c.process.fdTable.toList[fd]? = some none) (flags : ℕ) :
    let after : Session :=
      ⟨{ c.process with fdTable := c.process.fdTable.set fd (some handle) },
        { c.state with fs := c.state.fs.openFile handle v flags node.fOps }⟩
    after.Orderly root ∧ after.view = c.view.place fd (some (v, 0)) ∧ c.Frame after root :=
  orderly.bind (s := c.state) rfl (Fs.NotShorter.refl _) orderly.good.rooted orderly.good.cwd id
    orderly.stored orderly.suits here regular fresh inside idle flags

/-- **`task_create`** opens the terminal three times. -/
theorem openUart_returns {handles : Fin 3 → ℕ} (orderly : (newTask s).Orderly root)
    (leads : s.leads devUart = some u) (file : (s.fs.file u).isSome)
    (different : Function.Injective handles) (fresh : ∀ i, s.fs.files (handles i) = none) :
    ∃ c, Returns (fun fuel => openUart 0 fuel (handles 0) (handles 1) (handles 2) s)
        (c.process, c.state) ∧ c.Orderly root ∧
      c.view = { (newTask s).view with fds := (Own.new u).fds } ∧ (newTask s).Frame c root := by
  obtain ⟨node, here, regular⟩ : ∃ node, s.fs.nodes[u]? = some node ∧
      node.component.type = .file := by
    have here := List.getElem?_eq_getElem (Fs.valid_of_file file)
    refine ⟨_, here, ?_⟩
    by_contra other
    rw [Fs.file_of_not_file here other] at file
    contradiction
  -- the path leads to the terminal as long as no name changes
  have finds {s' : State} (rooted : Rooted s' root) (names : s'.fs.names = s.fs.names) :
      s'.Finds devUart u := by
    have same : s'.leads = s.leads := orderly.good.rooted.leads_congr rooted names
    rw [← same] at leads
    exact (State.leads_eq_some.mp leads).2
  have other {i j : Fin 3} (ne : i ≠ j) : handles i ≠ handles j := different.ne ne
  -- one descriptor after the other
  obtain ⟨orderly₁, view₁, frame₁⟩ :=
    orderly.openFile here regular (fresh 0) (show 0 < 16 by decide) rfl 0
  obtain ⟨orderly₂, view₂, frame₂⟩ := orderly₁.openFile here regular
    ((Heap.alloc_of_ne (other (by decide))).trans (fresh 1)) (show 1 < 16 by decide) rfl 0
  obtain ⟨orderly₃, view₃, frame₃⟩ := orderly₂.openFile here regular
    ((Heap.alloc_of_ne (other (by decide))).trans
      ((Heap.alloc_of_ne (other (by decide))).trans (fresh 2))) (show 2 < 16 by decide) rfl 0
  refine ⟨_, ?_, orderly₃, ?_, (frame₁.trans frame₂).trans frame₃⟩
  · refine Returns.bind (vfsOpen_mono ..) ?_
      (vfsOpen_found (finds orderly.good.rooted rfl) here regular 0 (handles 0) none) ?_
    · exact (vfsOpen_mono ..).bind fun _ => (vfsOpen_mono ..).bind fun _ => fuelMonotone_const _
    refine Returns.bind (vfsOpen_mono ..) ?_
      (vfsOpen_found (finds orderly₁.good.rooted rfl) here regular 0 (handles 1) _) ?_
    · exact (vfsOpen_mono ..).bind fun _ => fuelMonotone_const _
    exact Returns.bind (vfsOpen_mono ..) (fuelMonotone_const _)
      (vfsOpen_found (finds orderly₂.good.rooted rfl) here regular 0 (handles 2) _) ⟨0, rfl⟩
  · rw [view₃, view₂, view₁]
    rfl

/-! ## The system -/

/-- The tasks, and the state of the files that they share. -/
structure System where
  tasks : List Process
  state : State

namespace System

variable {S S' : System} {a : TaskEvent} {as : List TaskEvent}

/-- A call of one task, or a new task. -/
inductive Step : System → TaskEvent → System → Prop
  | call {S : System} {i : ℕ} {cur : Process} {e : FileEvent} {c' : Session}
      (here : S.tasks[i]? = some cur) (step : FileStep ⟨cur, S.state⟩ e c') :
      Step S (.call i e) ⟨S.tasks.set i c'.process, c'.state⟩
  | created {S : System} {handles : Fin 3 → ℕ} {cur' : Process} {s' : State}
      (different : Function.Injective handles) (fresh : ∀ k, S.state.fs.files (handles k) = none)
      (returns : Returns
        (fun fuel => openUart 0 fuel (handles 0) (handles 1) (handles 2) S.state) (cur', s')) :
      Step S .created ⟨S.tasks ++ [cur'], s'⟩

/-- What the tasks see. -/
noncomputable def views (S : System) : Views where
  tasks := S.tasks.map fun cur => (Session.view ⟨cur, S.state⟩).own
  leads := S.state.leads
  files := S.state.fs.file
  uartIn := S.state.fs.uartIn
  uartOut := S.state.fs.uartOut

/-- The path of the terminal leads to it. -/
def HasTerminal (S : System) : Prop :=
  ∃ u bytes, S.views.leads devUart = some u ∧ S.views.files u = some (.terminal, bytes)

/-- The calls of all tasks are among those that the kernel gets right, and a new task finds the
terminal. -/
def Guard (root : ℕ) (S : System) : TaskEvent → Prop
  | .call i e => ∀ cur, S.tasks[i]? = some cur → FileGuard root ⟨cur, S.state⟩ e
  | .created => S.HasTerminal

/-- The event goes through, whatever its results. -/
def Proceeds (S : System) : TaskEvent → Prop
  | .call i e => i < S.tasks.length →
      ∃ e' S', FileEvent.call e' = FileEvent.call e ∧ Step S (.call i e') S'
  | .created => ∃ S', Step S .created S'

/-- The sessions of all tasks are orderly, and would be for a new one; no handle is shared. -/
structure Orderly (S : System) (root : ℕ) : Prop where
  newcomer : (newTask S.state).Orderly root
  task : ∀ {i : ℕ} {cur : Process}, S.tasks[i]? = some cur → Session.Orderly ⟨cur, S.state⟩ root
  apart : ∀ {i j : ℕ} {cur cur' : Process}, S.tasks[i]? = some cur → S.tasks[j]? = some cur' →
    i ≠ j → cur.Apart cur'

theorem views_task {i : ℕ} (here : S.tasks[i]? = some cur) :
    S.views.tasks[i]? = some (Session.view ⟨cur, S.state⟩).own := by
  change (S.tasks.map _)[i]? = _
  rw [List.getElem?_map, here, Option.map_some]

/-! ## One event -/

section After

variable (orderly : S.Orderly root)
include orderly

/-- What a call of the `i`-th task makes of the tasks. -/
theorem Orderly.called (here : S.tasks[i]? = some cur) (after : c'.Orderly root)
    (frame : Session.Frame ⟨cur, S.state⟩ c' root) :
    Orderly ⟨S.tasks.set i c'.process, c'.state⟩ root ∧
      views ⟨S.tasks.set i c'.process, c'.state⟩ = S.views.after i c'.view := by
  have inside := (List.getElem?_eq_some_iff.mp here).1
  -- the call leaves alone what belongs to the other tasks
  have others {j : ℕ} {cur' : Process} (other : i ≠ j) (there : S.tasks[j]? = some cur') :=
    (orderly.task there).other after frame (orderly.apart there here (Ne.symm other))
  have apart {j : ℕ} {cur' : Process} (other : i ≠ j) (there : S.tasks[j]? = some cur') :
      cur'.Apart c'.process :=
    frame.apart (orderly.task there) (orderly.apart there here (Ne.symm other))
  refine ⟨⟨newTask_orderly after.good.rooted after.stored after.suits,
    fun {j cur'} there => ?_, fun {j k cur₁ cur₂} there there' different => ?_⟩, ?_⟩
  · change (S.tasks.set i c'.process)[j]? = _ at there
    by_cases same : i = j
    · subst same
      rw [List.getElem?_set_self inside, Option.some.injEq] at there
      exact there ▸ after
    · rw [List.getElem?_set_ne same] at there
      exact (others same there).1
  · change (S.tasks.set i c'.process)[j]? = _ at there
    change (S.tasks.set i c'.process)[k]? = _ at there'
    by_cases same : i = j
    · subst same
      rw [List.getElem?_set_self inside, Option.some.injEq] at there
      rw [List.getElem?_set_ne different] at there'
      exact there ▸ (apart different there').symm
    · rw [List.getElem?_set_ne same] at there
      by_cases same' : i = k
      · subst same'
        rw [List.getElem?_set_self inside, Option.some.injEq] at there'
        exact there' ▸ apart same there
      · rw [List.getElem?_set_ne same'] at there'
        exact orderly.apart there there' different
  · -- only the view of the task that made the call changes
    refine Views.ext (List.ext_getElem? fun j => ?_) rfl rfl rfl rfl
    change ((S.tasks.set i c'.process).map _)[j]? = ((S.tasks.map _).set i _)[j]?
    rw [List.getElem?_map]
    by_cases same : i = j
    · subst same
      rw [List.getElem?_set_self inside, List.getElem?_set_self (by simpa using inside)]
      rfl
    · rw [List.getElem?_set_ne same, List.getElem?_set_ne same, List.getElem?_map]
      cases there : S.tasks[j]? with
      | none => rfl
      | some cur' => exact congrArg (fun fds => some (Own.mk cur'.cwd fds)) (others same there).2

/-- What a new task makes of the others. -/
theorem Orderly.joined (after : c'.Orderly root)
    (view : c'.view = { (newTask S.state).view with fds := (Own.new u).fds })
    (frame : (newTask S.state).Frame c' root) :
    Orderly ⟨S.tasks ++ [c'.process], c'.state⟩ root ∧
      views ⟨S.tasks ++ [c'.process], c'.state⟩ =
        { S.views with tasks := S.views.tasks ++ [Own.new u] } := by
  have unbound (cur : Process) : cur.Apart (newTask S.state).process :=
    fun _ j f _ bound => newTask_unbound S.state j f bound
  have others {j : ℕ} {cur' : Process} (there : S.tasks[j]? = some cur') :=
    (orderly.task there).other (c := newTask S.state) after frame (unbound cur')
  have apart {j : ℕ} {cur' : Process} (there : S.tasks[j]? = some cur') :
      cur'.Apart c'.process :=
    frame.apart (orderly.task there) (unbound cur')
  -- a task is an old one or the new one
  have tasks {j : ℕ} {cur' : Process} (there : (S.tasks ++ [c'.process])[j]? = some cur') :
      S.tasks[j]? = some cur' ∨ j = S.tasks.length ∧ cur' = c'.process := by
    rcases Nat.lt_or_ge j S.tasks.length with inside | beyond
    · rw [List.getElem?_append_left inside] at there
      exact .inl there
    · rw [List.getElem?_append_right beyond, List.getElem?_singleton] at there
      split_ifs at there with first
      exact .inr ⟨by omega, (Option.some.inj there).symm⟩
  refine ⟨⟨newTask_orderly after.good.rooted after.stored after.suits, fun there => ?_,
    fun there there' different => ?_⟩, ?_⟩
  · rcases tasks there with old | ⟨-, rfl⟩
    · exact (others old).1
    · exact after
  · rcases tasks there with old | ⟨rfl, rfl⟩ <;> rcases tasks there' with old' | ⟨rfl, rfl⟩
    · exact orderly.apart old old' different
    · exact apart old
    · exact (apart old').symm
    · exact absurd rfl different
  · have own : c'.view.own = Own.new u := by
      rw [view]
      rfl
    refine Views.ext ?_ (congrArg View.leads view) (congrArg View.files view)
      (congrArg View.uartIn view) (congrArg View.uartOut view)
    change (S.tasks ++ [c'.process]).map _ = S.tasks.map _ ++ _
    rw [List.map_append, List.map_singleton, ← own]
    refine congrArg (· ++ _) (List.map_congr_left fun cur' inside => ?_)
    obtain ⟨j, there⟩ := List.mem_iff_getElem?.mp inside
    exact congrArg (Own.mk cur'.cwd) (others there).2

/-- **One event**: under the condition it keeps the tasks orderly, and is a step of what they
see. -/
theorem Orderly.step (guard : S.Guard root a) (step : Step S a S') :
    S'.Orderly root ∧ Views.Step S.views a S'.views := by
  cases step with
  | call here step =>
    obtain ⟨after, step', frame⟩ := (orderly.task here).step_frame (guard _ here) step
    obtain ⟨orderly', view⟩ := orderly.called here after frame
    exact ⟨orderly', view ▸ .call (views_task here) step'⟩
  | @created handles _ _ different fresh returns =>
    obtain ⟨u, bytes, leads, file⟩ := guard
    have isSome : (S.state.fs.file u).isSome := Option.isSome_iff_exists.mpr ⟨_, file⟩
    obtain ⟨c', returns', after, view, frame⟩ :=
      openUart_returns orderly.newcomer leads isSome different fresh
    have same := (openUart_mono 0 _ _ _ S.state).returns_unique returns returns'
    rw [Prod.mk.injEq] at same
    obtain ⟨rfl, rfl⟩ := same
    obtain ⟨orderly', view'⟩ := orderly.joined after view frame
    exact ⟨orderly', view' ▸ .created leads file⟩

/-- No task gets stuck, as long as there is memory for the handles and the data. -/
theorem Orderly.progress {handles : Fin 3 → ℕ} {chunk : Chunk}
    (different : Function.Injective handles) (fresh : ∀ k, S.state.fs.files (handles k) = none)
    (fresh' : S.state.fs.buffers chunk.addr = none) (guard : S.Guard root a) : S.Proceeds a := by
  cases a with
  | call i e =>
    intro inside
    have here := List.getElem?_eq_getElem inside
    obtain ⟨e', c', same, step⟩ :=
      (orderly.task here).progress (fresh 0) fresh' (guard _ here)
    exact ⟨e', _, same, .call here step⟩
  | created =>
    obtain ⟨u, bytes, leads, file⟩ := guard
    have isSome : (S.state.fs.file u).isSome := Option.isSome_iff_exists.mpr ⟨_, file⟩
    obtain ⟨c', returns, -⟩ :=
      openUart_returns orderly.newcomer leads isSome different fresh
    exact ⟨_, .created different fresh returns⟩

end After

/-! ## Every interleaving -/

/-- What every run of events under the condition does. -/
theorem Orderly.run_views {guard : System → TaskEvent → Prop} (orderly : S.Orderly root)
    (spares : Views → TaskEvent → Prop)
    (under : ∀ S a, guard S a → S.Guard root a ∧ spares S.views a)
    (run : Run (Guarded Step guard) S as S') :
    S'.Orderly root ∧ Run (Guarded Views.Step spares) S.views as S'.views := by
  induction run with
  | refl => exact ⟨orderly, .refl _⟩
  | snoc _ last ih =>
    obtain ⟨orderly', run'⟩ := ih
    obtain ⟨right, spared⟩ := under _ _ last.1
    obtain ⟨orderly'', step⟩ := orderly'.step right last.2
    exact ⟨orderly'', run'.snoc ⟨spared, step⟩⟩

/-- **All tasks refine their views.** After any run of calls of any tasks under the condition, in
any order and with new tasks in between, all sessions are orderly; what the tasks see has made the
same steps with the same results; and no further call gets stuck. -/
theorem Orderly.refines_views (orderly : S.Orderly root)
    (run : Run (Guarded Step (Guard root)) S as S') :
    S'.Orderly root ∧ Run Views.Step S.views as S'.views ∧
      ∀ a handles chunk, Function.Injective handles →
        (∀ k : Fin 3, S'.state.fs.files (handles k) = none) →
        S'.state.fs.buffers (Chunk.addr chunk) = none → S'.Guard root a → S'.Proceeds a := by
  obtain ⟨orderly', run'⟩ :=
    orderly.run_views (fun _ _ => True) (fun _ _ guard => ⟨guard, trivial⟩) run
  exact ⟨orderly', run'.mono fun _ _ _ step => step.2,
    fun a handles chunk different fresh fresh' guard =>
      orderly'.progress different fresh fresh' guard⟩

/-- Two tasks without open files in an empty root. -/
def twoTasks : System := ⟨[firstTask.process, firstTask.process], firstTask.state⟩

theorem twoTasks_process {i : ℕ} (here : twoTasks.tasks[i]? = some cur) :
    cur = firstTask.process := by
  have inside := List.mem_of_getElem? here
  simpa [twoTasks] using inside

theorem twoTasks_orderly : twoTasks.Orderly 0 where
  newcomer := firstTask_orderly
  task here := twoTasks_process here ▸ firstTask_orderly
  apart here _ _ _ _ f bound := by
    rw [twoTasks_process here] at bound
    exact absurd bound (newTask_unbound firstTask.state _ f)

/-- The second one may create `/a`, and does. -/
theorem twoTasks_refines : ∃ S', Step twoTasks (.call 1 (.opened [47, 97] oCreat 0)) S' ∧
    S'.Orderly 0 ∧
    Run Views.Step twoTasks.views [.call 1 (.opened [47, 97] oCreat 0)] S'.views := by
  obtain ⟨S', step⟩ : ∃ S', Step twoTasks (.call 1 (.opened [47, 97] oCreat 0)) S' :=
    ⟨_, .call rfl (.opened (show firstTask.state.fs.files 0x100 = none from rfl) ⟨3, rfl⟩)⟩
  have guard : twoTasks.Guard 0 (.call 1 (.opened [47, 97] oCreat 0)) :=
    fun cur here => twoTasks_process here ▸ firstTask_guard
  obtain ⟨orderly', run, -⟩ := twoTasks_orderly.refines_views (Run.single ⟨guard, step⟩)
  exact ⟨S', step, orderly', run⟩

/-- **What a task writes to a new file is read by any other.** A task makes a file and writes it in
pieces, while others make any calls that do not write to it; later another task, or the same, opens
it by any name that it has in its own working directory of that time, and reads all pieces. -/
theorem Orderly.shared_round_trip {S₁ S₂ S₃ S₄ S₅ S₆ : System} {bs cs : List TaskEvent}
    {cur' : Process} {pathname pathname' buf' : List UInt8} {flags flags' : ℕ} {n : ℤ}
    (orderly : S.Orderly root) (here : S.tasks[i]? = some cur)
    (path : absolute cur.cwd pathname = p) (nowhere : S.state.leads p = none)
    (creates : Guarded Step (Guard root) S (.call i (.opened pathname flags fd)) S₁)
    (writes : Run (Guarded Step fun S a => S.Guard root a ∧ S.views.Through p i fd a) S₁ as S₂)
    (short : (as.flatMap (Views.piece i fd)).length ≤ tmpfsMaxFileSize)
    (between : Run (Guarded Step fun S a => S.Guard root a ∧ S.views.SparesPath p a) S₂ bs S₃)
    (here' : S₃.tasks[j]? = some cur') (path' : absolute cur'.cwd pathname' = p)
    (opens : Guarded Step (Guard root) S₃ (.call j (.opened pathname' flags' fd')) S₄)
    (waits : Run (Guarded Step fun S a => S.Guard root a ∧ S.views.SparesPath p a ∧
      ∀ e, a = .call j e → ¬ e.Uses fd') S₄ cs S₅)
    (reads : Guarded Step (Guard root) S₅ (.call j (.read fd' buf n buf')) S₆)
    (room : (as.flatMap (Views.piece i fd)).length ≤ buf.length) :
    (∀ buf n, .call i (.written fd buf n) ∈ as → n = buf.length) ∧
      n = (as.flatMap (Views.piece i fd)).length ∧
      buf' = as.flatMap (Views.piece i fd) ++ buf.drop (as.flatMap (Views.piece i fd)).length := by
  obtain ⟨orderly₁, created⟩ := orderly.step creates.1 creates.2
  obtain ⟨orderly₂, written⟩ := orderly₁.run_views _ (fun _ _ => id) writes
  obtain ⟨orderly₃, kept⟩ := orderly₂.run_views _ (fun _ _ => id) between
  obtain ⟨orderly₄, opened⟩ := orderly₃.step opens.1 opens.2
  obtain ⟨orderly₅, waited⟩ := orderly₄.run_views
    (fun W a => W.SparesPath p a ∧ ∀ e, a = .call j e → ¬ e.Uses fd') (fun _ _ => id) waits
  obtain ⟨-, read⟩ := orderly₅.step reads.1 reads.2
  obtain ⟨results, result, delivered⟩ := Views.round_trip (views_task here) path nowhere created
    written short kept (views_task here') path' opened waited read room
  have limit : tmpfsMaxFileSize = 4096 := rfl
  rw [toInt32_of_lt (by omega)] at result
  exact ⟨results, result, delivered⟩

/-- The first task creates `/a` and writes the bytes 104 and 105, and the second one reads them. -/
theorem twoTasks_round_trip : ∃ S₁ S₂ S₃ S₄ n buf',
    Step twoTasks (.call 0 (.opened [47, 97] oCreat 0)) S₁ ∧
      Step S₁ (.call 0 (.written 0 [104, 105] 2)) S₂ ∧ Step S₂ (.call 1 (.opened [97] 0 0)) S₃ ∧
      Step S₃ (.call 1 (.read 0 [0, 0, 0] n buf')) S₄ ∧ n = 2 ∧ buf' = [104, 105, 0] := by
  -- the calls, and what the tasks see
  obtain ⟨cur₁, s₁, s₂, cur₃, s₃, s₄, creates, writes, opens, reads, stands₁, stands₃, file₃⟩ :
      ∃ cur₁ s₁ s₂ cur₃ s₃ s₄, FileStep firstTask (.opened [47, 97] oCreat 0) ⟨cur₁, s₁⟩ ∧
        FileStep ⟨cur₁, s₁⟩ (.written 0 [104, 105] 2) ⟨cur₁, s₂⟩ ∧
        FileStep ⟨firstTask.process, s₂⟩ (.opened [97] 0 0) ⟨cur₃, s₃⟩ ∧
        FileStep ⟨cur₃, s₃⟩ (.read 0 [0, 0, 0] 2 [104, 105, 0]) ⟨cur₃, s₄⟩ ∧
        (Session.view ⟨cur₁, s₁⟩).StandsAt 0 1 0 ∧ (Session.view ⟨cur₃, s₃⟩).StandsAt 0 1 0 ∧
        s₃.fs.file 1 = some (.memory, [104, 105]) :=
    ⟨_, _, _, _, _, _, .opened (show firstTask.state.fs.files 0x100 = none from rfl) ⟨3, rfl⟩,
      @FileStep.written _ _ _ _ _ ⟨0x200, fun _ => 0⟩ rfl rfl,
      @FileStep.opened _ _ _ _ _ 0x101 _ rfl ⟨3, rfl⟩, .read rfl, rfl, rfl, rfl⟩
  have step₁ : Step twoTasks (.call 0 (.opened [47, 97] oCreat 0))
      ⟨[cur₁, firstTask.process], s₁⟩ := @Step.call twoTasks 0 _ _ ⟨cur₁, s₁⟩ rfl creates
  have step₂ : Step ⟨[cur₁, firstTask.process], s₁⟩ (.call 0 (.written 0 [104, 105] 2))
      ⟨[cur₁, firstTask.process], s₂⟩ :=
    @Step.call ⟨[cur₁, firstTask.process], s₁⟩ 0 _ _ ⟨cur₁, s₂⟩ rfl writes
  have step₃ : Step ⟨[cur₁, firstTask.process], s₂⟩ (.call 1 (.opened [97] 0 0))
      ⟨[cur₁, cur₃], s₃⟩ :=
    @Step.call ⟨[cur₁, firstTask.process], s₂⟩ 1 _ _ ⟨cur₃, s₃⟩ rfl opens
  have step₄ : Step ⟨[cur₁, cur₃], s₃⟩ (.call 1 (.read 0 [0, 0, 0] 2 [104, 105, 0]))
      ⟨[cur₁, cur₃], s₄⟩ :=
    @Step.call ⟨[cur₁, cur₃], s₃⟩ 1 _ _ ⟨cur₃, s₄⟩ rfl reads
  -- the conditions
  have guard₁ : twoTasks.Guard 0 (.call 0 (.opened [47, 97] oCreat 0)) :=
    fun cur here => twoTasks_process here ▸ firstTask_guard
  have writable : FileGuard 0 ⟨cur₁, s₁⟩ (.written 0 [104, 105] 2) := ⟨1, 0, stands₁, by decide⟩
  have guard₂ : Guard 0 ⟨[cur₁, firstTask.process], s₁⟩ (.call 0 (.written 0 [104, 105] 2)) :=
    fun cur here => Option.some.inj here ▸ writable
  obtain ⟨orderly₁, created⟩ := firstTask_orderly.step firstTask_guard creates
  obtain ⟨-, written⟩ := orderly₁.step writable writes
  obtain ⟨orderly₂, -⟩ := (twoTasks_orderly.step guard₁ step₁).1.step guard₂ step₂
  obtain ⟨v, at_fd, file₁, leads₁⟩ :=
    created.created_at (firstTask_orderly.path_nowhere firstTask_nowhere)
  obtain ⟨-, -, file₂⟩ := written.appends at_fd file₁ (by decide)
  have leads₂ : s₂.leads [47, 97] = some v :=
    (written.leads_eq (Option.isSome_iff_exists.mpr ⟨_, file₁⟩)).mpr leads₁
  have guard₃ : Guard 0 ⟨[cur₁, firstTask.process], s₂⟩ (.call 1 (.opened [97] 0 0)) := by
    intro cur here
    obtain rfl := Option.some.inj here
    exact .inr ⟨pathOk_a rfl, (orderly₂.task (i := 1) rfl).canOpen leads₂
      (Option.isSome_iff_exists.mpr ⟨_, file₂⟩)⟩
  have guard₄ : Guard 0 ⟨[cur₁, cur₃], s₃⟩ (.call 1 (.read 0 [0, 0, 0] 2 [104, 105, 0])) := by
    intro cur here
    obtain rfl := Option.some.inj here
    refine ⟨1, 0, stands₃, by decide, fun bytes terminal => ?_⟩
    rw [show (Session.view ⟨cur₃, s₃⟩).files 1 = _ from file₃] at terminal
    simp at terminal
  have nowhere : firstTask.view.leads (firstTask.view.path [47, 97]) = none :=
    firstTask_orderly.path_nowhere firstTask_nowhere
  obtain ⟨-, result, delivered⟩ := twoTasks_orderly.shared_round_trip rfl
    (show absolute firstTask.process.cwd [47, 97] = [47, 97] from rfl) nowhere ⟨guard₁, step₁⟩
    (Run.single ⟨⟨guard₂, .inl ⟨[104, 105], 2, rfl⟩⟩, step₂⟩) (by decide) (.refl _)
    (show [cur₁, firstTask.process][1]? = some firstTask.process from rfl) (path_a rfl)
    ⟨guard₃, step₃⟩ (.refl _) ⟨guard₄, step₄⟩ (by decide)
  exact ⟨_, _, _, _, _, _, step₁, step₂, step₃, step₄, result, delivered⟩

end System

end BareMetal.Vfs
