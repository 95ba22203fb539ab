import BareMetal.Vfs.Handles
import BareMetal.Vfs.View

/-!
# What all tasks see of the files

The tasks share the paths, the files and the terminal. Each has a working directory and descriptors
of its own, and their calls come in any order. A new task starts in the root directory, with the
terminal on its first three descriptors.

## Main results

* `Views.Run.persists` — a file that no task writes keeps its name and its content
* `Views.Run.collects` — what one task writes through one descriptor adds up, whatever calls of any
  tasks come in between
* `Views.round_trip` — what one task writes to a new file is read by any other
-/

namespace BareMetal.Vfs

open CS ByteFile

/-- What belongs to one task. -/
@[ext]
structure Own where
  cwd : List UInt8
  fds : List (Option (ℕ × ℕ))

/-- A new task has the terminal on its first three descriptors. -/
def Own.new (u : ℕ) : Own := ⟨[slash], List.replicate 3 (some (u, 0)) ++ List.replicate 13 none⟩

/-- The tasks, and what they share. -/
@[ext]
structure Views where
  tasks : List Own
  leads : List UInt8 → Option ℕ
  files : ℕ → Option (Medium × List UInt8)
  uartIn : List UInt8
  uartOut : List UInt8

/-- A call of a task on files, or a new task. -/
inductive TaskEvent
  | call (i : ℕ) (e : FileEvent)
  | created
deriving DecidableEq, Repr

/-- What belongs to the task of a view. -/
def View.own (w : View) : Own := ⟨w.cwd, w.fds⟩

/-- The call reads, writes or closes the descriptor. -/
def FileEvent.Uses (fd : ℕ) : FileEvent → Prop
  | .closed fd' _ => fd' = fd
  | .read fd' _ _ _ => fd' = fd
  | .written fd' _ _ => fd' = fd
  | _ => False

/-- A descriptor that a call does not use stays where it is. -/
theorem View.Step.standsAt {w w' : View} {e : FileEvent} {fd v pos : ℕ} (step : View.Step w e w')
    (stands : w.StandsAt fd v pos) (unused : ¬ e.Uses fd) : w'.StandsAt fd v pos := by
  have away {fd' : ℕ} {entry : Option (ℕ × ℕ)} (other : fd' ≠ fd) :
      (w.place fd' entry).StandsAt fd v pos :=
    (List.getElem?_set_ne other).trans stands
  have busy {fd' : ℕ} (idle : w.FirstIdle fd') : fd' ≠ fd := by
    rintro rfl
    have same := idle.1.symm.trans stands
    simp at same
  cases step with
  | opened _ idle => exact away (busy idle)
  | created idle => exact away (busy idle)
  | closed => exact away unused
  | read => exact away unused
  | write => exact away unused
  | _ => exact stands

namespace Views

variable {W W' : Views} {own : Own} {i j fd v pos u : ℕ} {e : FileEvent} {a : TaskEvent}
  {as : List TaskEvent} {p bytes : List UInt8} {m : Medium} {w' : View}

/-- What a task sees. -/
def view (W : Views) (own : Own) : View :=
  ⟨own.cwd, W.leads, W.files, own.fds, W.uartIn, W.uartOut⟩

/-- What there is when the `i`-th task sees `w`. -/
def after (W : Views) (i : ℕ) (w : View) : Views :=
  ⟨W.tasks.set i w.own, w.leads, w.files, w.uartIn, w.uartOut⟩

/-- One call of one task, or a new task. -/
inductive Step : Views → TaskEvent → Views → Prop
  | call {W : Views} {i : ℕ} {own : Own} {e : FileEvent} {w' : View}
      (here : W.tasks[i]? = some own) (step : View.Step (W.view own) e w') :
      Step W (.call i e) (W.after i w')
  | created {W : Views} {u : ℕ} {bytes : List UInt8} (leads : W.leads devUart = some u)
      (file : W.files u = some (.terminal, bytes)) :
      Step W .created { W with tasks := W.tasks ++ [.new u] }

/-- The descriptor of the task stands at a position in a file. -/
def StandsAt (W : Views) (i fd v pos : ℕ) : Prop :=
  ∃ own, W.tasks[i]? = some own ∧ (W.view own).StandsAt fd v pos

/-! ## Files that are not written -/

/-- The event writes nothing to the file. -/
def Spares (v : ℕ) (W : Views) : TaskEvent → Prop
  | .call i e => ∀ own, W.tasks[i]? = some own → (W.view own).Spares v e
  | .created => True

theorem Step.files_eq (step : Step W a W') (spares : W.Spares v a)
    (file : W.files v = some (m, bytes)) : W'.files v = some (m, bytes) := by
  cases step with
  | call here step => exact step.files_eq (spares _ here) file
  | created => exact file

theorem Step.leads_eq (step : Step W a W') (file : (W.files v).isSome) :
    W'.leads p = some v ↔ W.leads p = some v := by
  cases step with
  | call here step => exact step.leads_eq file
  | created => exact Iff.rfl

/-- The event writes nothing to the file that the path leads to. -/
def SparesPath (p : List UInt8) (W : Views) (a : TaskEvent) : Prop :=
  ∀ v, W.leads p = some v → W.Spares v a

/-- **Files persist**, whatever tasks do that do not write to them. -/
theorem Run.persists (run : Run (Guarded Step (SparesPath p)) W as W') (leads : W.leads p = some v)
    (file : W.files v = some (m, bytes)) :
    W'.leads p = some v ∧ W'.files v = some (m, bytes) := by
  induction run with
  | refl => exact ⟨leads, file⟩
  | snoc _ last ih =>
    obtain ⟨spares, step⟩ := last
    obtain ⟨leads, file⟩ := ih
    refine ⟨(step.leads_eq ?_).mpr leads, step.files_eq (spares v leads) file⟩
    rw [file]
    rfl

/-- The terminal stays where it is, whatever tasks write to it. -/
theorem Step.terminal_eq (step : Step W a W') (file : W.files v = some (.terminal, bytes)) :
    W'.files v = some (.terminal, bytes) := by
  cases step with
  | created => exact file
  | call here step =>
    cases step with
    | created _ _ _ new =>
      refine (Function.update_of_ne ?_ _ _).trans file
      rintro rfl
      rw [show W.files v = none from new] at file
      contradiction
    | write _ _ memory =>
      refine (Function.update_of_ne ?_ _ _).trans file
      rintro rfl
      rw [show W.files v = _ from memory] at file
      simp at file
    | _ => exact file

theorem Run.terminal_eq (run : Run Step W as W') (leads : W.leads devUart = some u)
    (file : W.files u = some (.terminal, bytes)) :
    ∃ u bytes, W'.leads devUart = some u ∧ W'.files u = some (.terminal, bytes) := by
  induction run with
  | refl => exact ⟨u, bytes, leads, file⟩
  | snoc _ last ih =>
    obtain ⟨u, bytes, leads, file⟩ := ih
    refine ⟨u, bytes, (last.leads_eq ?_).mpr leads, last.terminal_eq file⟩
    rw [file]
    rfl

/-! ## Writing while others work -/

/-- What the event writes through the descriptor of the task. -/
def piece (i fd : ℕ) : TaskEvent → List UInt8
  | .call j (.written fd' buf _) => if j = i ∧ fd' = fd then buf else []
  | _ => []

/-- The event writes through the descriptor of the task, or does not use it and writes nothing to
the file that the path leads to. -/
def Through (p : List UInt8) (i fd : ℕ) (W : Views) (a : TaskEvent) : Prop :=
  (∃ buf n, a = .call i (.written fd buf n)) ∨
    (∀ e, a = .call i e → ¬ e.Uses fd) ∧ W.SparesPath p a

theorem piece_of_unused (unused : ∀ e, a = .call i e → ¬ e.Uses fd) : piece i fd a = [] := by
  cases a with
  | created => rfl
  | call j e =>
    cases e with
    | written fd' buf n =>
      refine if_neg ?_
      rintro ⟨rfl, same⟩
      exact unused _ rfl same
    | _ => rfl

/-- The descriptor of a task stays where it is when the task does not use it. -/
theorem Step.standsAt (step : Step W a W') (stands : W.StandsAt i fd v pos)
    (unused : ∀ e, a = .call i e → ¬ e.Uses fd) : W'.StandsAt i fd v pos := by
  obtain ⟨own, here, stands⟩ := stands
  have inside := (List.getElem?_eq_some_iff.mp here).1
  cases step with
  | @call j own' e w' here' step =>
    by_cases same : j = i
    · subst same
      obtain rfl := Option.some.inj (here.symm.trans here')
      exact ⟨w'.own, List.getElem?_set_self inside, step.standsAt stands (unused e rfl)⟩
    · exact ⟨own, (List.getElem?_set_ne same).trans here, stands⟩
  | created => exact ⟨own, (List.getElem?_append_left inside).trans here, stands⟩

/-- A write at the end of a file. -/
theorem Step.appends {buf : List UInt8} {n : ℤ} (step : Step W (.call i (.written fd buf n)) W')
    (stands : W.StandsAt i fd v bytes.length) (file : W.files v = some (.memory, bytes))
    (room : bytes.length + buf.length ≤ tmpfsMaxFileSize) :
    n = buf.length ∧ W'.StandsAt i fd v (bytes ++ buf).length ∧
      W'.files v = some (.memory, bytes ++ buf) := by
  obtain ⟨own, here, stands⟩ := stands
  cases step with
  | call here' step =>
    obtain rfl := Option.some.inj (here.symm.trans here')
    obtain ⟨result, stands', file'⟩ := step.appends stands file room
    have inside := (List.getElem?_eq_some_iff.mp here).1
    exact ⟨result, ⟨_, List.getElem?_set_self inside, stands'⟩, file'⟩

/-- **Pieces add up.** From a descriptor at the end of a file on, the file gets what its task writes
through it, in order and nothing else, as long as all other events spare the file and the
descriptor and there is room. -/
theorem Run.collects (run : Run (Guarded Step (Through p i fd)) W as W')
    (leads : W.leads p = some v) (stands : W.StandsAt i fd v bytes.length)
    (file : W.files v = some (.memory, bytes))
    (room : bytes.length + (as.flatMap (piece i fd)).length ≤ tmpfsMaxFileSize) :
    (∀ buf n, .call i (.written fd buf n) ∈ as → n = buf.length) ∧
      W'.leads p = some v ∧ W'.files v = some (.memory, bytes ++ as.flatMap (piece i fd)) ∧
      W'.StandsAt i fd v (bytes ++ as.flatMap (piece i fd)).length := by
  induction run with
  | refl => simpa using ⟨leads, file, stands⟩
  | @snoc W₁ W' as a front last ih =>
    obtain ⟨through, step⟩ := last
    rw [List.flatMap_append, List.length_append, ← Nat.add_assoc] at room
    obtain ⟨results, leads₁, file₁, stands₁⟩ := ih ((Nat.le_add_right _ _).trans room)
    have named := (step.leads_eq (Option.isSome_iff_exists.mpr ⟨_, file₁⟩)).mpr leads₁
    rw [List.flatMap_append, ← List.append_assoc]
    rcases through with ⟨buf, n, rfl⟩ | ⟨unused, spares⟩
    · -- the task writes
      have written : [TaskEvent.call i (.written fd buf n)].flatMap (piece i fd) = buf := by
        simp [piece]
      rw [written] at room ⊢
      rw [← List.length_append] at room
      obtain ⟨result, stands', file'⟩ := step.appends stands₁ file₁ room
      refine ⟨fun buf' n' inside => ?_, named, file', stands'⟩
      rcases List.mem_append.mp inside with old | new
      · exact results buf' n' old
      · obtain ⟨rfl, rfl⟩ := by simpa using new
        exact result
    · -- another event
      have nothing : [a].flatMap (piece i fd) = [] := by
        rw [List.flatMap_singleton, piece_of_unused unused]
      rw [nothing, List.append_nil]
      refine ⟨fun buf' n' inside => ?_, named, step.files_eq (spares v leads₁) file₁,
        step.standsAt stands₁ unused⟩
      rcases List.mem_append.mp inside with old | new
      · exact results buf' n' old
      · exact absurd rfl (unused _ (List.mem_singleton.mp new).symm)

/-! ## Reading what others wrote -/

/-- A descriptor that its task does not use waits at its place in a file that nothing writes. -/
theorem Run.waits (run : Run (Guarded Step fun W a => W.SparesPath p a ∧
      ∀ e, a = .call j e → ¬ e.Uses fd) W as W') (leads : W.leads p = some v)
    (file : W.files v = some (m, bytes)) (stands : W.StandsAt j fd v pos) :
    W'.files v = some (m, bytes) ∧ W'.StandsAt j fd v pos := by
  obtain ⟨-, file'⟩ := Run.persists (run.mono fun _ _ _ step => ⟨step.1.1, step.2⟩) leads file
  refine ⟨file', ?_⟩
  exact run.preserves (StandsAt · j fd v pos)
    (fun W a W' stands step => step.2.standsAt stands step.1.2) stands

/-- A file that one task makes and writes in pieces is read by any other. -/
theorem round_trip {W₁ W₂ W₃ W₄ W₅ W₆ : Views} {bs cs : List TaskEvent} {own' : Own}
    {pathname pathname' buf buf' : List UInt8} {flags flags' fd' : ℕ} {n : ℤ}
    (here : W.tasks[i]? = some own) (path : (W.view own).path pathname = p)
    (nowhere : W.leads p = none) (creates : Step W (.call i (.opened pathname flags fd)) W₁)
    (writes : Run (Guarded Step (Through p i fd)) W₁ as W₂)
    (short : (as.flatMap (piece i fd)).length ≤ tmpfsMaxFileSize)
    (between : Run (Guarded Step (SparesPath p)) W₂ bs W₃)
    (here' : W₃.tasks[j]? = some own') (path' : (W₃.view own').path pathname' = p)
    (opens : Step W₃ (.call j (.opened pathname' flags' fd')) W₄)
    (waits : Run (Guarded Step fun W a => W.SparesPath p a ∧
      ∀ e, a = .call j e → ¬ e.Uses fd') W₄ cs W₅)
    (reads : Step W₅ (.call j (.read fd' buf n buf')) W₆)
    (room : (as.flatMap (piece i fd)).length ≤ buf.length) :
    (∀ buf n, .call i (.written fd buf n) ∈ as → n = buf.length) ∧
      n = toInt32 (as.flatMap (piece i fd)).length ∧
      buf' = as.flatMap (piece i fd) ++ buf.drop (as.flatMap (piece i fd)).length := by
  subst path
  -- the file is made
  obtain ⟨v, leads₁, file₁, stands₁⟩ : ∃ v, W₁.leads ((W.view own).path pathname) = some v ∧
      W₁.files v = some (.memory, []) ∧ W₁.StandsAt i fd v ([] : List UInt8).length := by
    cases creates with
    | call there step =>
      obtain rfl := Option.some.inj (here.symm.trans there)
      obtain ⟨v, stands, file, leads⟩ := step.created_at nowhere
      exact ⟨v, leads, file, _,
        List.getElem?_set_self (List.getElem?_eq_some_iff.mp here).1, stands⟩
  -- it gets the pieces, and keeps them
  obtain ⟨results, leads₂, file₂, -⟩ :=
    Run.collects writes leads₁ stands₁ file₁ ((Nat.zero_add _).trans_le short)
  rw [List.nil_append] at file₂
  obtain ⟨leads₃, file₃⟩ := Run.persists between leads₂ file₂
  -- another task opens it
  obtain ⟨leads₄, file₄, stands₄⟩ : W₄.leads ((W.view own).path pathname) = some v ∧
      W₄.files v = some (.memory, as.flatMap (piece i fd)) ∧ W₄.StandsAt j fd' v 0 := by
    have named := (opens.leads_eq (Option.isSome_iff_exists.mpr ⟨_, file₃⟩)).mpr leads₃
    cases opens with
    | call there step =>
      obtain rfl := Option.some.inj (here'.symm.trans there)
      obtain ⟨stands, same⟩ := step.opened_at (path'.symm ▸ leads₃)
      exact ⟨named, (congrFun same v).trans file₃, _,
        List.getElem?_set_self (List.getElem?_eq_some_iff.mp here').1, stands⟩
  obtain ⟨file₅, own₅, here₅, stands₅⟩ := Run.waits waits leads₄ file₄ stands₄
  cases reads with
  | call there step =>
    obtain rfl := Option.some.inj (here₅.symm.trans there)
    obtain ⟨result, delivered⟩ := step.reads_back stands₅ file₅ (.inl rfl) room
    exact ⟨results, result, delivered⟩

end Views

end BareMetal.Vfs
