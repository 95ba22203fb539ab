import BareMetal.Vfs.SessionMounts

/-!
# Runs of a session

A task makes one call on its files after the other. While its calls are among those that the
kernel gets right, the files and descriptors are those of the machine `View`, whatever the task
opens, writes, reads, closes and makes in between.

## Main results

* `Session.Orderly.refines_view` — every run is a run of the view
* `Session.Orderly.progress` — no call gets stuck
* `Session.Orderly.file_round_trip` — what is written to a new file is read back later
-/

namespace BareMetal.Vfs

open CS ByteFile Strings

variable {c c' c₁ c₂ c₃ c₄ c₅ : Session} {root v pos fd fd' : ℕ} {e : FileEvent}
  {es : List FileEvent} {pathname buf : List UInt8}

/-! ## Calls -/

/-- One call that returns, with its results. Open files and chunks of data get new addresses, and
the variable that `lookup_path` does not initialise holds 0. -/
inductive FileStep : Session → FileEvent → Session → Prop
  | opened {c : Session} {cur' : Process} {s' : State} {pathname : List UInt8}
      {flags handle : ℕ} {r : ℤ} (fresh : c.state.fs.files handle = none)
      (returns : Returns (fun fuel => syscOpen 0 fuel handle pathname flags c.process c.state)
        (r, cur', s')) : FileStep c (.opened pathname flags r) ⟨cur', s'⟩
  | closed {c : Session} {cur' : Process} {s' : State} {fd : ℕ} {r : ℤ}
      (returns : syscClose fd c.process c.state = .ok (r, cur', s')) :
      FileStep c (.closed fd r) ⟨cur', s'⟩
  | read {c : Session} {s' : State} {fd : ℕ} {r : ℤ} {buf buf' : List UInt8}
      (returns : syscRead fd buf buf.length c.process c.state = .ok (r, buf', s')) :
      FileStep c (.read fd buf r buf') ⟨c.process, s'⟩
  | written {c : Session} {s' : State} {fd : ℕ} {r : ℤ} {buf : List UInt8} {chunk : Chunk}
      (fresh : c.state.fs.buffers chunk.addr = none)
      (returns : syscWrite chunk fd buf buf.length c.process c.state = .ok (r, s')) :
      FileStep c (.written fd buf r) ⟨c.process, s'⟩
  | madeDir {c : Session} {s' : State} {pathname : List UInt8} {r : ℤ}
      (returns : Returns (fun fuel => syscMkdir 0 fuel pathname c.process c.state) (r, s')) :
      FileStep c (.madeDir pathname r) ⟨c.process, s'⟩
  | mounted {c : Session} {s' : State} {initrd : Initrd} {target fileName : List UInt8} {r : ℤ}
      (returns : Returns (fun fuel => syscMount initrd 0 fuel target fileName c.process c.state)
        (r, s')) : FileStep c (.mounted target fileName r) ⟨c.process, s'⟩
  | changedDir {c : Session} {cur' : Process} {s' : State} {pathname : List UInt8} {r : ℤ}
      (returns : Returns (fun fuel => syscChdir fuel pathname c.process c.state) (r, cur', s')) :
      FileStep c (.changedDir pathname r) ⟨cur', s'⟩

/-- A new file can be made of the path, all its names are there or can be made. -/
structure State.CanMake (s : State) (root u : ℕ) (p : List UInt8) : Prop where
  settles : s.fs.names.Settles root u
  dir : s.fs.names.isDir u
  fits : s.PathFits u p
  makes : s.Makes u p

/-- The path leads to a regular file, or nowhere, and a new file is asked for. -/
inductive Session.CanOpen (c : Session) (root : ℕ) (p : List UInt8) (flags : ℕ) : Prop
  | found {v : ℕ} {node : Vnode} (leads : c.state.LeadsTo root p v)
      (here : c.state.fs.nodes[v]? = some node) (regular : node.component.type = .file)
  | new {u : ℕ} (creat : flags &&& oCreat ≠ 0) (nowhere : ∀ v, ¬ c.state.LeadsTo root p v)
      (can_make : c.state.CanMake root u p)

/-- The call is among those that the kernel gets right: descriptors are open, paths fit, reads of
the terminal find enough input, and `sysc_open` is not called for a directory. -/
def FileGuard (root : ℕ) (c : Session) : FileEvent → Prop
  | .opened pathname flags _ => getTaskIdleFd c.process < 0 ∨
      c.PathOk root pathname ∧ c.CanOpen root (c.view.path pathname) flags
  | .closed fd _ => ∃ v pos, c.view.StandsAt fd v pos
  | .read fd buf _ _ => ∃ v pos, c.view.StandsAt fd v pos ∧ pos + buf.length < 2 ^ 64 ∧
      ∀ bytes, c.view.files v = some (.terminal, bytes) → buf.length ≤ c.state.fs.uartIn.length
  | .written fd buf _ => ∃ v pos, c.view.StandsAt fd v pos ∧ pos + buf.length < 2 ^ 64
  | .madeDir pathname _ => c.PathOk root pathname ∧ ∃ u, c.state.fs.names.Settles root u ∧
      c.state.fs.names.isDir u ∧ c.state.PathFits u (c.view.path pathname) ∧
      ((∃ v, c.state.LeadsTo root (c.view.path pathname) v) ∨
        c.state.Makes u (c.view.path pathname))
  | .mounted target fileName _ => c.PathOk root target ∧ PlainTarget (c.view.path target) ∧
      ((∀ v, ¬ c.state.LeadsTo root (c.view.path target) v) ∨
        fileName = tmpfsName ∧ ∃ v, c.state.LeadsTo root (c.view.path target) v ∧
          c.state.fs.EmptyDir v)
  | .changedDir pathname _ => 0 ∉ pathname ∧ ChdirGuard root c pathname

/-- The handle behind an open descriptor. -/
theorem Session.Orderly.of_standsAt (orderly : c.Orderly root)
    (at_fd : c.view.StandsAt fd v pos) : ∃ f handle node,
      c.process.getFd (fd : ℤ) = .ok (some f) ∧ c.state.fs.Stands f handle v node ∧
        handle.fPos = pos := by
  change (c.process.fdTable.toList.map _)[fd]? = _ at at_fd
  rw [List.getElem?_map, Option.map_eq_some_iff] at at_fd
  obtain ⟨entry, here, at_entry⟩ := at_fd
  cases entry with
  | none => contradiction
  | some f =>
    obtain ⟨handle, v', node, stands⟩ := orderly.stands here
    rw [Option.bind_some, stands.stand_eq, Option.some.injEq, Prod.mk.injEq] at at_entry
    obtain ⟨rfl, rfl⟩ := at_entry
    exact ⟨f, handle, node, Process.getFd_eq_ok.mpr here, stands, rfl⟩

/-- What the view shows can be opened. -/
theorem Session.Orderly.canOpen (orderly : c.Orderly root) {p : List UInt8} {flags : ℕ}
    (leads : c.view.leads p = some v) (file : (c.view.files v).isSome) :
    c.CanOpen root p flags := by
  have here := List.getElem?_eq_getElem (Fs.valid_of_file file)
  refine .found (orderly.good.rooted.leads_eq_some.mp leads).2 here ?_
  by_contra other
  have nothing : c.view.files v = none := Fs.file_of_not_file here other
  rw [nothing] at file
  contradiction

/-! ## One call -/

section Calls

variable (orderly : c.Orderly root)
include orderly

/-- Any read under the condition. -/
theorem Session.Orderly.read {r : ℤ} {buf' : List UInt8}
    (guard : FileGuard root c (.read fd buf r buf')) :
    ∃ r buf' s', syscRead fd buf buf.length c.process c.state = .ok (r, buf', s') ∧
      Session.Orderly ⟨c.process, s'⟩ root ∧
      View.Step c.view (.read fd buf r buf') (Session.view ⟨c.process, s'⟩) ∧
      c.Frame ⟨c.process, s'⟩ root := by
  obtain ⟨v, pos, at_fd, no_wrap, enough⟩ := guard
  obtain ⟨f, handle, node, bound, stands, rfl⟩ := orderly.of_standsAt at_fd
  by_cases device : node.fOps = .devfs
  · refine orderly.read_device bound stands device fun uart => ?_
    exact enough _ (stands.terminal device uart)
  · exact orderly.read_stored bound stands no_wrap device

/-- Any write under the condition. -/
theorem Session.Orderly.write {r : ℤ} {chunk : Chunk}
    (fresh : c.state.fs.buffers chunk.addr = none) (guard : FileGuard root c (.written fd buf r)) :
    ∃ r s', syscWrite chunk fd buf buf.length c.process c.state = .ok (r, s') ∧
      Session.Orderly ⟨c.process, s'⟩ root ∧
      View.Step c.view (.written fd buf r) (Session.view ⟨c.process, s'⟩) ∧
      c.Frame ⟨c.process, s'⟩ root := by
  obtain ⟨v, pos, at_fd, no_wrap⟩ := guard
  obtain ⟨f, handle, node, bound, stands, rfl⟩ := orderly.of_standsAt at_fd
  by_cases memory : node.fOps = .tmpfs
  · exact orderly.write_memory bound stands fresh no_wrap memory
  · exact orderly.write_other bound stands chunk memory

/-- Any opening under the condition. -/
theorem Session.Orderly.opening {flags handle : ℕ} {r : ℤ}
    (fresh : c.state.fs.files handle = none) (guard : FileGuard root c (.opened pathname flags r)) :
    ∃ r cur' s', Returns (fun fuel => syscOpen 0 fuel handle pathname flags c.process c.state)
        (r, cur', s') ∧ Session.Orderly ⟨cur', s'⟩ root ∧
      View.Step c.view (.opened pathname flags r) (Session.view ⟨cur', s'⟩) ∧
      c.Frame ⟨cur', s'⟩ root := by
  by_cases full : getTaskIdleFd c.process < 0
  · obtain ⟨returns, step⟩ := orderly.open_full full pathname flags handle
    exact ⟨-1, c.process, c.state, returns, orderly, step, .refl c root⟩
  · have idle : 0 ≤ getTaskIdleFd c.process := not_lt.mp full
    obtain ⟨ok, opens⟩ := guard.resolve_left full
    cases opens with
    | found leads here regular => exact orderly.open_found fresh ok leads here regular idle flags
    | new creat nowhere can_make =>
      exact orderly.open_new fresh ok can_make.settles can_make.dir nowhere can_make.fits
        can_make.makes idle creat

/-- Any mount under the condition. -/
theorem Session.Orderly.mount (initrd : Initrd) {target fileName : List UInt8} {r : ℤ}
    (guard : FileGuard root c (.mounted target fileName r)) :
    ∃ r s', Returns (fun fuel => syscMount initrd 0 fuel target fileName c.process c.state)
        (r, s') ∧ Session.Orderly ⟨c.process, s'⟩ root ∧
      View.Step c.view (.mounted target fileName r) (Session.view ⟨c.process, s'⟩) ∧
      c.Frame ⟨c.process, s'⟩ root := by
  obtain ⟨ok, plain, nowhere | ⟨rfl, v, leads, bare⟩⟩ := guard
  · exact ⟨-1, orderly.mount_nowhere ok plain nowhere initrd fileName⟩
  · exact ⟨0, orderly.mount_tmpfs ok plain leads bare initrd⟩

/-- **One call**: under the condition it keeps the session orderly, is a step of the view, and
leaves alone what belongs to other tasks. -/
theorem Session.Orderly.step_frame (guard : FileGuard root c e) (step : FileStep c e c') :
    c'.Orderly root ∧ View.Step c.view e c'.view ∧ c.Frame c' root := by
  cases step with
  | @opened _ _ pathname flags handle _ fresh returns =>
    obtain ⟨r, cur', s', returns', orderly', step⟩ := orderly.opening fresh guard
    have mono := (syscOpen_stable 0 handle pathname flags c.process c.state).mono
    have same := mono.returns_unique returns returns'
    simp only [Prod.mk.injEq] at same
    obtain ⟨rfl, rfl, rfl⟩ := same
    exact ⟨orderly', step⟩
  | closed returns =>
    obtain ⟨v, pos, at_fd⟩ := guard
    obtain ⟨f, handle, node, bound, stands, -⟩ := orderly.of_standsAt at_fd
    obtain ⟨cur', s', returns', orderly', step⟩ := orderly.close bound stands
    have same := Except.ok.inj (returns.symm.trans returns')
    simp only [Prod.mk.injEq] at same
    obtain ⟨rfl, rfl, rfl⟩ := same
    exact ⟨orderly', step⟩
  | read returns =>
    obtain ⟨r, buf', s', returns', orderly', step⟩ := orderly.read guard
    have same := Except.ok.inj (returns.symm.trans returns')
    simp only [Prod.mk.injEq] at same
    obtain ⟨rfl, rfl, rfl⟩ := same
    exact ⟨orderly', step⟩
  | written fresh returns =>
    obtain ⟨r, s', returns', orderly', step⟩ := orderly.write fresh guard
    have same := Except.ok.inj (returns.symm.trans returns')
    simp only [Prod.mk.injEq] at same
    obtain ⟨rfl, rfl⟩ := same
    exact ⟨orderly', step⟩
  | @madeDir _ pathname _ returns =>
    obtain ⟨ok, u, settles, dir, fits, makes⟩ := guard
    obtain ⟨s', returns', orderly', step⟩ := orderly.mkdir ok settles dir fits makes
    have mono := (syscMkdir_stable 0 pathname c.process c.state).mono
    have same := mono.returns_unique returns returns'
    simp only [Prod.mk.injEq] at same
    obtain ⟨rfl, rfl⟩ := same
    exact ⟨orderly', step⟩
  | @mounted _ initrd target fileName _ returns =>
    obtain ⟨r, s', returns', orderly', step⟩ := orderly.mount initrd guard
    have same := (syscMount_mono initrd 0 target fileName c.process c.state).returns_unique
      returns returns'
    simp only [Prod.mk.injEq] at same
    obtain ⟨rfl, rfl⟩ := same
    exact ⟨orderly', step⟩
  | @changedDir _ _ pathname _ returns =>
    obtain ⟨r, cur', s', returns', orderly', step⟩ := orderly.changeDir guard.1 guard.2
    have same := (syscChdir_stable pathname c.process c.state).mono.returns_unique returns returns'
    simp only [Prod.mk.injEq] at same
    obtain ⟨rfl, rfl, rfl⟩ := same
    exact ⟨orderly', step⟩

theorem Session.Orderly.step (guard : FileGuard root c e) (step : FileStep c e c') :
    c'.Orderly root ∧ View.Step c.view e c'.view := by
  obtain ⟨orderly', step', -⟩ := orderly.step_frame guard step
  exact ⟨orderly', step'⟩

end Calls

/-! ## Runs -/

/-- The call without its results. -/
def FileEvent.call : FileEvent → FileEvent
  | .opened pathname flags _ => .opened pathname flags 0
  | .closed fd _ => .closed fd 0
  | .read fd buf _ _ => .read fd buf 0 []
  | .written fd buf _ => .written fd buf 0
  | .madeDir pathname _ => .madeDir pathname 0
  | .mounted target fileName _ => .mounted target fileName 0
  | .changedDir pathname _ => .changedDir pathname 0

/-- No call gets stuck, as long as there is memory for its handle and its data. -/
theorem Session.Orderly.progress (orderly : c.Orderly root) {handle : ℕ} {chunk : Chunk}
    (fresh : c.state.fs.files handle = none) (fresh' : c.state.fs.buffers chunk.addr = none)
    (guard : FileGuard root c e) : ∃ e' c', e'.call = e.call ∧ FileStep c e' c' := by
  cases e with
  | opened pathname flags r =>
    obtain ⟨r, cur', s', returns, -⟩ := orderly.opening fresh guard
    exact ⟨.opened pathname flags r, _, rfl, .opened fresh returns⟩
  | closed fd r =>
    obtain ⟨v, pos, at_fd⟩ := guard
    obtain ⟨f, handle, node, bound, stands, -⟩ := orderly.of_standsAt at_fd
    obtain ⟨cur', s', returns, -⟩ := orderly.close bound stands
    exact ⟨.closed fd 0, _, rfl, .closed returns⟩
  | read fd buf r buf' =>
    obtain ⟨r, buf', s', returns, -⟩ := orderly.read guard
    exact ⟨.read fd buf r buf', _, rfl, .read returns⟩
  | written fd buf r =>
    obtain ⟨r, s', returns, -⟩ := orderly.write fresh' guard
    exact ⟨.written fd buf r, _, rfl, .written fresh' returns⟩
  | madeDir pathname r =>
    obtain ⟨ok, u, settles, dir, fits, makes⟩ := guard
    obtain ⟨s', returns, -⟩ := orderly.mkdir ok settles dir fits makes
    exact ⟨.madeDir pathname 0, _, rfl, .madeDir returns⟩
  | mounted target fileName r =>
    obtain ⟨r, s', returns, -⟩ := orderly.mount noInitrd guard
    exact ⟨.mounted target fileName r, _, rfl, .mounted returns⟩
  | changedDir pathname r =>
    obtain ⟨r, cur', s', returns, -⟩ := orderly.changeDir guard.1 guard.2
    exact ⟨.changedDir pathname r, _, rfl, .changedDir returns⟩

/-- What every run of calls under the condition does. -/
theorem Session.Orderly.run_view {guard : Session → FileEvent → Prop}
    (orderly : c.Orderly root) (spares : View → FileEvent → Prop)
    (under : ∀ c e, guard c e → FileGuard root c e ∧ spares c.view e)
    (run : Run (Guarded FileStep guard) c es c') :
    c'.Orderly root ∧ Run (Guarded View.Step spares) c.view es c'.view := by
  induction run with
  | refl => exact ⟨orderly, .refl _⟩
  | snoc _ last ih =>
    obtain ⟨orderly', run'⟩ := ih
    obtain ⟨right, spared⟩ := under _ _ last.1
    obtain ⟨orderly'', step⟩ := orderly'.step right last.2
    exact ⟨orderly'', run'.snoc ⟨spared, step⟩⟩

/-- **The calls refine the view.** After any run of calls under the condition the session is
orderly; the view has made the same calls with the same results; and no further call under the
condition gets stuck. -/
theorem Session.Orderly.refines_view (orderly : c.Orderly root)
    (run : Run (Guarded FileStep (FileGuard root)) c es c') :
    c'.Orderly root ∧ Run View.Step c.view es c'.view ∧
      ∀ e handle chunk, c'.state.fs.files handle = none →
        c'.state.fs.buffers (Chunk.addr chunk) = none → FileGuard root c' e →
          ∃ e' c'', e'.call = e.call ∧ FileStep c' e' c'' := by
  obtain ⟨orderly', run'⟩ :=
    orderly.run_view (fun _ _ => True) (fun _ _ guard => ⟨guard, trivial⟩) run
  exact ⟨orderly', run'.mono fun _ _ _ step => step.2, fun e handle chunk fresh fresh' guard =>
    orderly'.progress fresh fresh' guard⟩

/-- A task without open files in an empty root. -/
theorem firstTask_orderly : firstTask.Orderly 0 where
  good := firstTask_good
  stored := by
    refine ⟨fun here regular => ?_, fun here regular => ?_, fun here regular => ?_,
      fun here data => ?_, fun here _ _ data => ?_⟩
    all_goals
      obtain ⟨-, rfl⟩ := freshRoot_nodes here
      contradiction
  suits here := by
    obtain ⟨-, rfl⟩ := freshRoot_nodes here
    exact ⟨rfl, fun other => by contradiction⟩
  stands bound := by
    have idle := List.mem_of_getElem? bound
    simp [firstTask] at idle
  different bound := by
    have idle := List.mem_of_getElem? bound
    simp [firstTask] at idle

theorem firstTask_nowhere (v : ℕ) : ¬ firstTask.state.LeadsTo 0 [47, 97] v := by
  rintro (⟨same, -⟩ | ⟨-, init, k, d, -, -, found⟩)
  · exact absurd same (by decide)
  · change freshRoot.fs.names.child d k = some v at found
    rw [freshRoot_child] at found
    contradiction

/-- The task may create `/a`. -/
theorem firstTask_guard : FileGuard 0 firstTask (.opened [47, 97] oCreat 0) := by
  have fits : firstTask.state.LookupFits 0 [47, 97] := by
    refine .inr (Fs.shortAlong_of_all ?_)
    rw [components_a]
    decide
  have makes : firstTask.state.Makes 0 [47, 97] := by
    refine ⟨?_, ?_⟩
    · rw [components_a]
      decide
    · rw [components_a]
      exact ⟨⟨tmpfsRoot, rfl, .inl rfl⟩, tmpfsRoot, rfl, by decide⟩
  have settles := (Namespace.settles_iff_of_free (freshRoot_cover 0)).mpr rfl
  exact .inr ⟨⟨by decide, by decide, by decide, fits⟩, .new (by decide) firstTask_nowhere
    ⟨settles, rfl, ⟨by decide, by decide, State.namesFit_of_short (by decide)⟩, makes⟩⟩

/-- It does, and may go on. -/
theorem firstTask_refines : ∃ c', FileStep firstTask (.opened [47, 97] oCreat 0) c' ∧
    c'.Orderly 0 ∧ Run View.Step firstTask.view [.opened [47, 97] oCreat 0] c'.view := by
  obtain ⟨c', step⟩ : ∃ c', FileStep firstTask (.opened [47, 97] oCreat 0) c' :=
    ⟨_, .opened (show firstTask.state.fs.files 0x100 = none from rfl) ⟨3, rfl⟩⟩
  obtain ⟨orderly', run, -⟩ :=
    firstTask_orderly.refines_view (Run.single ⟨firstTask_guard, step⟩)
  exact ⟨c', step, orderly', run⟩

/-- **What is written to a new file is read back later.** A file is made and written in pieces;
then come any calls that do not write to it; and when it is opened again, by any name that it has in
the working directory of that time, a read with enough room delivers all pieces. -/
theorem Session.Orderly.file_round_trip {pieces : List (List UInt8 × ℤ)} {p pathname' : List UInt8}
    {flags flags' : ℕ} {buf' : List UInt8} {n : ℤ} (orderly : c.Orderly root)
    (path : c.view.path pathname = p) (nowhere : ∀ v, ¬ c.state.LeadsTo root p v)
    (creates : Guarded FileStep (FileGuard root) c (.opened pathname flags fd) c₁)
    (writes : Run (Guarded FileStep (FileGuard root)) c₁
      (pieces.map fun piece => .written fd piece.1 piece.2) c₂)
    (short : (pieces.map Prod.fst).flatten.length ≤ tmpfsMaxFileSize)
    (between :
      Run (Guarded FileStep fun c e => FileGuard root c e ∧ c.view.SparesPath p e) c₂ es c₃)
    (path' : c₃.view.path pathname' = p)
    (opens : Guarded FileStep (FileGuard root) c₃ (.opened pathname' flags' fd') c₄)
    (reads : Guarded FileStep (FileGuard root) c₄ (.read fd' buf n buf') c₅)
    (room : (pieces.map Prod.fst).flatten.length ≤ buf.length) :
    (∀ piece ∈ pieces, piece.2 = piece.1.length) ∧ n = (pieces.map Prod.fst).flatten.length ∧
      buf' = (pieces.map Prod.fst).flatten ++ buf.drop (pieces.map Prod.fst).flatten.length := by
  subst path
  obtain ⟨orderly₁, created⟩ := orderly.step creates.1 creates.2
  obtain ⟨orderly₂, written⟩ := orderly₁.run_view (fun _ _ => True)
    (fun _ _ guard => ⟨guard, trivial⟩) writes
  obtain ⟨orderly₃, kept⟩ := orderly₂.run_view _ (fun _ _ => id) between
  obtain ⟨orderly₄, opened⟩ := orderly₃.step opens.1 opens.2
  obtain ⟨-, read⟩ := orderly₄.step reads.1 reads.2
  -- the file, from call to call
  obtain ⟨v, stands₁, file₁, leads₁⟩ := created.created_at (orderly.path_nowhere nowhere)
  obtain ⟨results, file₂, names⟩ := View.Run.appends (written.mono fun _ _ _ step => step.2)
    stands₁ file₁ (by simpa using short)
  obtain ⟨leads₃, file₃⟩ := View.Run.persists kept (names _ leads₁) file₂
  obtain ⟨stands₄, same⟩ := opened.opened_at (path'.symm ▸ leads₃)
  rw [← same, List.nil_append] at file₃
  obtain ⟨result, delivered⟩ := read.reads_back stands₄ file₃ (.inl rfl) room
  have limit : tmpfsMaxFileSize = 4096 := rfl
  rw [toInt32_of_lt (by omega)] at result
  exact ⟨results, result, delivered⟩

theorem pathOk_a (root_dir : c.process.cwd = [47]) : c.PathOk 0 [97] := by
  refine ⟨by decide, ?_, by decide, ?_⟩
  · rw [root_dir]
    decide
  · rw [path_a root_dir]
    refine .inr (Fs.shortAlong_of_all ?_)
    rw [components_a]
    decide

/-- `/a` is created, gets the bytes 104 and 105, and is opened again as `a`. -/
theorem firstTask_round_trip : ∃ c₁ c₂ c₃ c₄ n buf',
    FileStep firstTask (.opened [47, 97] oCreat 0) c₁ ∧ FileStep c₁ (.written 0 [104, 105] 2) c₂ ∧
      FileStep c₂ (.opened [97] 0 1) c₃ ∧ FileStep c₃ (.read 1 [0, 0, 0] n buf') c₄ ∧
      n = 2 ∧ buf' = [104, 105, 0] := by
  -- the calls, and what the view shows
  obtain ⟨c₁, c₂, c₃, c₄, creates, writes, opens, reads, stands₁, cwd, stands₃, file₃⟩ :
      ∃ c₁ c₂ c₃ c₄,
      FileStep firstTask (.opened [47, 97] oCreat 0) c₁ ∧
        FileStep c₁ (.written 0 [104, 105] 2) c₂ ∧ FileStep c₂ (.opened [97] 0 1) c₃ ∧
        FileStep c₃ (.read 1 [0, 0, 0] 2 [104, 105, 0]) c₄ ∧ c₁.view.StandsAt 0 1 0 ∧
        c₂.process.cwd = [47] ∧ c₃.view.StandsAt 1 1 0 ∧
        c₃.view.files 1 = some (.memory, [104, 105]) :=
    ⟨_, _, _, _, .opened (show firstTask.state.fs.files 0x100 = none from rfl) ⟨3, rfl⟩,
      @FileStep.written _ _ _ _ _ ⟨0x200, fun _ => 0⟩ rfl rfl,
      @FileStep.opened _ _ _ _ _ 0x101 _ rfl ⟨3, rfl⟩, .read rfl, rfl, rfl, rfl, rfl⟩
  have guard₁ : FileGuard 0 c₁ (.written 0 [104, 105] 2) := ⟨1, 0, stands₁, by decide⟩
  obtain ⟨orderly₁, created⟩ := firstTask_orderly.step firstTask_guard creates
  obtain ⟨orderly₂, written⟩ := orderly₁.step guard₁ writes
  obtain ⟨v, at_fd, file₁, leads₁⟩ :=
    created.created_at (firstTask_orderly.path_nowhere firstTask_nowhere)
  obtain ⟨-, -, file₂⟩ := written.appends at_fd file₁ (by decide)
  have leads₂ : c₂.view.leads [47, 97] = some v :=
    (written.leads_eq (Option.isSome_iff_exists.mpr ⟨_, file₁⟩)).mpr leads₁
  have path : c₂.view.path [97] = [47, 97] := path_a cwd
  have guard₂ : FileGuard 0 c₂ (.opened [97] 0 1) := by
    refine .inr ⟨pathOk_a cwd, orderly₂.canOpen (path ▸ leads₂) ?_⟩
    exact Option.isSome_iff_exists.mpr ⟨_, file₂⟩
  have guard₃ : FileGuard 0 c₃ (.read 1 [0, 0, 0] 2 [104, 105, 0]) := by
    refine ⟨1, 0, stands₃, by decide, fun bytes terminal => ?_⟩
    rw [file₃] at terminal
    simp at terminal
  have pieces : Run (Guarded FileStep (FileGuard 0)) c₁
      ([([104, 105], 2)].map fun piece => .written 0 piece.1 piece.2) c₂ :=
    Run.single ⟨guard₁, writes⟩
  obtain ⟨-, result, delivered⟩ := firstTask_orderly.file_round_trip
    (show firstTask.view.path [47, 97] = [47, 97] from rfl) firstTask_nowhere
    ⟨firstTask_guard, creates⟩ pieces (by decide) (.refl c₂) path ⟨guard₂, opens⟩ ⟨guard₃, reads⟩
    (by decide)
  exact ⟨c₁, c₂, c₃, c₄, _, _, creates, writes, opens, reads, result, delivered⟩

end BareMetal.Vfs
