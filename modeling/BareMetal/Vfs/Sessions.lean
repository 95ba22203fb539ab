import BareMetal.Vfs.Stored
import Mathlib.Data.Vector.Basic

/-!
# Sessions of a task

`Session.view` is what a task sees of the files: where its paths lead, what is in the files, and
where its descriptors stand. In an orderly session `sysc_read`, `sysc_write` and `sysc_close` of
`lib/exception.c` are steps of the view.

## Main results

* `Session.Orderly.read`, `Session.Orderly.write`, `Session.Orderly.close` — the calls on
  descriptors return, and what they do
-/

namespace BareMetal.Vfs

open CS ByteFile Strings

variable {c : Session} {s s' : State} {fs fs' : Fs} {cur : Process} {root u v f fd i n : ℕ}
  {handle : File} {node : Vnode} {content p buf : List UInt8} {entry : Option ℕ}

/-! ## The view -/

open Classical in
/-- The vnode that `vfs_lookup` finds. -/
noncomputable def State.leads (s : State) (p : List UInt8) : Option ℕ :=
  if found : 0 ∉ p ∧ ∃ v, s.Finds p v then some found.2.choose else none

theorem State.leads_eq_some : s.leads p = some v ↔ 0 ∉ p ∧ s.Finds p v := by
  rw [leads]
  split_ifs with found
  · rw [Option.some.injEq]
    constructor
    · rintro rfl
      exact ⟨found.1, found.2.choose_spec⟩
    · exact fun finds => found.2.choose_spec.unique finds.2
  · refine iff_of_false (by simp) fun finds => found ⟨finds.1, v, finds.2⟩

theorem Rooted.leads_eq_some (rooted : Rooted s root) :
    s.leads p = some v ↔ 0 ∉ p ∧ s.LeadsTo root p v := by
  rw [State.leads_eq_some]
  exact and_congr_right fun no_nul => rooted.finds_iff_leadsTo no_nul

/-- Only the names matter. -/
theorem Rooted.leads_congr (rooted : Rooted s root) (rooted' : Rooted s' root)
    (same : s'.fs.names = s.fs.names) : s'.leads = s.leads := by
  ext p v
  rw [rooted'.leads_eq_some, rooted.leads_eq_some]
  simp only [State.LeadsTo, same]

/-- Where an open file stands. -/
def Fs.stand (fs : Fs) (f : ℕ) : Option (ℕ × ℕ) :=
  (fs.files f).bind fun handle => handle.vnode.map fun v => (v, handle.fPos)

/-- Where the descriptors of a task stand. -/
def Process.stands (cur : Process) (fs : Fs) : List (Option (ℕ × ℕ)) :=
  cur.fdTable.toList.map fun entry => entry.bind fs.stand

/-- What the task sees. -/
noncomputable def Session.view (c : Session) : View where
  cwd := c.process.cwd
  leads := c.state.leads
  files := c.state.fs.file
  fds := c.process.stands c.state.fs
  uartIn := c.state.fs.uartIn
  uartOut := c.state.fs.uartOut

/-! ## Orderly sessions -/

/-- The functions of a vnode are those of one filesystem, and vnodes of the initramfs are there
only when it is mounted. -/
def Suits (mounted : Bool) (node : Vnode) : Prop :=
  node.vOps = node.fOps ∧ (node.vOps = .initramfs → mounted = true)

/-- The handle stands in a regular file, at the vnode `v`. -/
structure Fs.Stands (fs : Fs) (f : ℕ) (handle : File) (v : ℕ) (node : Vnode) : Prop where
  opened : fs.files f = some handle
  points : handle.vnode = some v
  here : fs.nodes[v]? = some node
  regular : node.component.type = .file
  fOps : handle.fOps = node.fOps
  inside : handle.fPos ≤ node.component.len

/-- The descriptors of the task are bound to different handles, which stand in files. -/
structure Session.Orderly (c : Session) (root : ℕ) : Prop where
  good : c.Good root
  stored : c.state.fs.Stored
  suits : ∀ {v : ℕ} {node : Vnode}, c.state.fs.nodes[v]? = some node → Suits c.state.mounted node
  stands : ∀ {i f : ℕ}, c.process.fdTable.toList[i]? = some (some f) →
    ∃ handle v node, c.state.fs.Stands f handle v node
  different : ∀ {i j f : ℕ}, c.process.fdTable.toList[i]? = some (some f) →
    c.process.fdTable.toList[j]? = some (some f) → i = j

theorem Fs.Stands.stand_eq (stands : fs.Stands f handle v node) :
    fs.stand f = some (v, handle.fPos) := by
  rw [Fs.stand, stands.opened, Option.bind_some, stands.points, Option.map_some]

/-- The view of the descriptors after one entry has changed, and what the others stand at has
not. -/
theorem Process.stands_set (inside : fd < vfsProcessMaxOpenFile)
    (same : ∀ {i f}, i ≠ fd → cur.fdTable.toList[i]? = some (some f) → fs'.stand f = fs.stand f) :
    Process.stands { cur with fdTable := cur.fdTable.set fd entry } fs' =
      (cur.stands fs).set fd (entry.bind fs'.stand) := by
  refine List.ext_getElem? fun i => ?_
  simp only [Process.stands, Vector.toList_set, List.getElem?_map, List.getElem?_set,
    List.length_map, Vector.length_toList]
  by_cases here : fd = i
  · subst here
    simp [inside]
  · rw [if_neg here, if_neg here]
    cases old : cur.fdTable.toList[i]? with
    | none => rfl
    | some entry =>
      cases entry with
      | none => rfl
      | some f => simp [same (Ne.symm here) old]

/-! ## Descriptors -/

theorem Process.getFd_eq_ok :
    cur.getFd (fd : ℤ) = .ok entry ↔ cur.fdTable.toList[fd]? = some entry := by
  rw [getFd]
  split_ifs with inside
  · have valid : fd < vfsProcessMaxOpenFile := by simpa using inside.2
    change Except.ok cur.fdTable[fd] = _ ↔ _
    rw [Except.ok.injEq, List.getElem?_eq_getElem (by simpa using valid), Option.some.injEq,
      Vector.getElem_toList]
  · refine iff_of_false (by simp) fun bound => inside ⟨Int.natCast_nonneg fd, ?_⟩
    simpa using (List.getElem?_eq_some_iff.mp bound).1

theorem Process.set_self (bound : cur.fdTable.toList[fd]? = some entry)
    (inside : fd < vfsProcessMaxOpenFile) :
    { cur with fdTable := cur.fdTable.set fd entry } = cur := by
  obtain ⟨valid, rfl⟩ := List.getElem?_eq_some_iff.mp bound
  rw [Vector.getElem_toList, Vector.set_getElem_self]

section Bound

variable (orderly : c.Orderly root) (bound : c.process.getFd (fd : ℤ) = .ok (some f))
include bound

theorem Session.bound_inside : fd < vfsProcessMaxOpenFile := by
  simpa using (List.getElem?_eq_some_iff.mp (Process.getFd_eq_ok.mp bound)).1

theorem Session.standsAt (stands : c.state.fs.Stands f handle v node) :
    c.view.StandsAt fd v handle.fPos := by
  change (c.process.fdTable.toList.map _)[fd]? = _
  rw [List.getElem?_map, Process.getFd_eq_ok.mp bound, Option.map_some, Option.bind_some,
    stands.stand_eq]

include orderly in
/-- The descriptor is bound to a handle of its own. -/
theorem Session.Orderly.bound_ne {g : ℕ} (other : i ≠ fd)
    (bound' : c.process.fdTable.toList[i]? = some (some g)) : g ≠ f := by
  rintro rfl
  exact other (orderly.different bound' (Process.getFd_eq_ok.mp bound))

end Bound

/-! ## Moving a handle -/

section Moved

variable (stands : fs.Stands f handle v node) (files : fs'.files = (fs.move f n).files)
  (no_wrap : handle.fPos + n < 2 ^ 64)
include files

theorem Fs.stand_of_ne {g : ℕ} (other : g ≠ f) : fs'.stand g = fs.stand g := by
  rw [Fs.stand, files, Fs.move_of_ne other, Fs.stand]

include stands no_wrap

theorem Fs.Stands.stand_moved : fs'.stand f = some (v, handle.fPos + n) := by
  rw [Fs.stand, files, Fs.move_self stands.opened no_wrap, Option.bind_some, stands.points,
    Option.map_some]

/-- The regular files are no shorter afterwards. -/
def Fs.NotShorter (fs fs' : Fs) : Prop :=
  ∀ ⦃u : ℕ⦄ ⦃m : Vnode⦄, fs.nodes[u]? = some m → m.component.type = .file →
    ∃ m', fs'.nodes[u]? = some m' ∧ m'.component.type = m.component.type ∧ m'.fOps = m.fOps ∧
      m.component.len ≤ m'.component.len

/-- All handles still stand in their files. -/
theorem Fs.Stands.moved (keeps : fs.NotShorter fs')
    (inside : ∀ {node'}, fs'.nodes[v]? = some node' → handle.fPos + n ≤ node'.component.len)
    {g u : ℕ} {h : File} {m : Vnode} (stands' : fs.Stands g h u m) :
    ∃ h' m', fs'.Stands g h' u m' := by
  obtain ⟨m', there, type, fOps, le⟩ := keeps stands'.here stands'.regular
  by_cases same : g = f
  · subst same
    obtain rfl := Option.some.inj (stands.opened.symm.trans stands'.opened)
    obtain rfl := Option.some.inj (stands.points.symm.trans stands'.points)
    refine ⟨{ handle with fPos := handle.fPos + n }, m', ?_, stands'.points, there,
      type.trans stands'.regular, ?_, inside there⟩
    · rw [files, Fs.move_self stands.opened no_wrap]
    · exact stands'.fOps.trans fOps.symm
  · refine ⟨h, m', ?_, stands'.points, there, type.trans stands'.regular,
      stands'.fOps.trans fOps.symm, stands'.inside.trans le⟩
    rw [files, Fs.move_of_ne same]
    exact stands'.opened

end Moved

theorem Fs.NotShorter.refl (fs : Fs) : fs.NotShorter fs :=
  fun _ m here _ => ⟨m, here, rfl, rfl, le_rfl⟩

/-! ## What a call leaves alone -/

/-- A call of one task leaves the handles of other tasks and the files in place, and takes no path
to a directory away; the handles that the task gets are new. -/
structure Session.Frame (c c' : Session) (root : ℕ) : Prop where
  others : ∀ {g : ℕ}, (∀ i : ℕ, c.process.fdTable.toList[i]? ≠ some (some g)) →
    (c.state.fs.files g).isSome → c'.state.fs.files g = c.state.fs.files g
  longer : c.state.fs.NotShorter c'.state.fs
  reaches : ∀ {q : List (List UInt8)}, (∃ d, c.state.fs.names.Reaches root q d) →
    ∃ d, c'.state.fs.names.Reaches root q d
  own : ∀ {i g : ℕ}, c'.process.fdTable.toList[i]? = some (some g) →
    (∃ j : ℕ, c.process.fdTable.toList[j]? = some (some g)) ∨ c.state.fs.files g = none

theorem Session.Frame.refl (c : Session) (root : ℕ) : c.Frame c root :=
  ⟨fun _ _ => rfl, Fs.NotShorter.refl _, id, fun bound => .inl ⟨_, bound⟩⟩

/-- A session after a call that moved a handle and left the names as they were. -/
theorem Session.Orderly.moved (orderly : c.Orderly root)
    (bound : c.process.getFd (fd : ℤ) = .ok (some f)) (stands : c.state.fs.Stands f handle v node)
    (files : fs'.files = (c.state.fs.move f n).files) (no_wrap : handle.fPos + n < 2 ^ 64)
    (keeps : c.state.fs.NotShorter fs')
    (inside : ∀ {node'}, fs'.nodes[v]? = some node' → handle.fPos + n ≤ node'.component.len)
    (tree : Tree fs' root) (names : fs'.names = c.state.fs.names) (stored : fs'.Stored)
    (suits : ∀ {u : ℕ} {m : Vnode}, fs'.nodes[u]? = some m → Suits c.state.mounted m) :
    Session.Orderly ⟨c.process, { c.state with fs := fs' }⟩ root ∧
      Session.view ⟨c.process, { c.state with fs := fs' }⟩ =
        { c.view.place fd (some (v, handle.fPos + n)) with
          files := fs'.file, uartIn := fs'.uartIn, uartOut := fs'.uartOut } ∧
      c.Frame ⟨c.process, { c.state with fs := fs' }⟩ root := by
  have rooted : Rooted { c.state with fs := fs' } root :=
    ⟨orderly.good.rooted.rootfs, tree, orderly.good.rooted.idle⟩
  refine ⟨⟨⟨rooted, orderly.good.cwd.is_cwd, ?_⟩, stored, suits, fun entry => ?_,
    orderly.different⟩, View.ext rfl (orderly.good.rooted.leads_congr rooted names) rfl ?_ rfl rfl,
    ⟨fun {g} away _ => ?_, keeps, fun reaches => ?_, fun bound => .inl ⟨_, bound⟩⟩⟩
  · rw [names]
    exact orderly.good.cwd.leads
  · obtain ⟨h, u, m, stands'⟩ := orderly.stands entry
    obtain ⟨h', m', moved⟩ := stands.moved files no_wrap keeps inside stands'
    exact ⟨h', u, m', moved⟩
  · -- only this descriptor stands elsewhere, as no other is bound to the handle
    have set : Process.stands { c.process with
        fdTable := c.process.fdTable.set fd (some f) (Session.bound_inside bound) } fs' =
          (c.process.stands c.state.fs).set fd ((some f).bind fs'.stand) :=
      Process.stands_set (Session.bound_inside bound)
        fun other entry => Fs.stand_of_ne files (orderly.bound_ne bound other entry)
    rw [Process.set_self (Process.getFd_eq_ok.mp bound) (Session.bound_inside bound),
      Option.bind_some, stands.stand_moved files no_wrap] at set
    exact set
  · have other : g ≠ f := by
      rintro rfl
      exact away fd (Process.getFd_eq_ok.mp bound)
    exact (congrFun files g).trans (Fs.move_of_ne other)
  · change ∃ d, fs'.names.Reaches root _ d
    rwa [names]

/-- A session after a call that changed nothing but the bytes of the UART. -/
theorem Session.Orderly.with_uart (orderly : c.Orderly root) (uartIn uartOut : List UInt8) :
    Session.Orderly ⟨c.process, { c.state with
        fs := { c.state.fs with uartIn := uartIn, uartOut := uartOut } }⟩ root ∧
      Session.view ⟨c.process, { c.state with
        fs := { c.state.fs with uartIn := uartIn, uartOut := uartOut } }⟩ =
        { c.view with uartIn := uartIn, uartOut := uartOut } ∧
      c.Frame ⟨c.process, { c.state with
        fs := { c.state.fs with uartIn := uartIn, uartOut := uartOut } }⟩ root := by
  have rooted : Rooted { c.state with
      fs := { c.state.fs with uartIn := uartIn, uartOut := uartOut } } root :=
    ⟨orderly.good.rooted.rootfs, orderly.good.rooted.tree.of_nodes rfl, orderly.good.rooted.idle⟩
  refine ⟨⟨⟨rooted, orderly.good.cwd.is_cwd, orderly.good.cwd.leads⟩, ?_, orderly.suits,
    fun entry => ?_, orderly.different⟩,
    View.ext rfl (orderly.good.rooted.leads_congr rooted rfl) rfl rfl rfl rfl,
    ⟨fun _ _ => rfl, Fs.NotShorter.refl c.state.fs, id, fun bound => .inl ⟨_, bound⟩⟩⟩
  · exact orderly.stored.of_data rfl rfl
  · obtain ⟨handle, v, node, opened, points, here, regular, fOps, inside⟩ := orderly.stands entry
    exact ⟨handle, v, node, opened, points, here, regular, fOps, inside⟩

/-! ## The calls -/

theorem Fs.Stands.terminal (stands : fs.Stands f handle v node) (device : node.fOps = .devfs)
    (uart : node.component.name = devfsUartName) :
    fs.file v = some (.terminal, fs.contentOf node.component) := by
  rw [Fs.file_eq stands.here stands.regular, Vnode.medium, device]
  exact congrArg (fun medium => some (medium, fs.contentOf node.component)) (if_pos uart)

theorem Fs.Stands.null (stands : fs.Stands f handle v node) (device : node.fOps = .devfs)
    (other : node.component.name ≠ devfsUartName) :
    fs.file v = some (.null, fs.contentOf node.component) := by
  rw [Fs.file_eq stands.here stands.regular, Vnode.medium, device]
  exact congrArg (fun medium => some (medium, fs.contentOf node.component)) (if_neg other)

section Calls

variable (orderly : c.Orderly root) (bound : c.process.getFd (fd : ℤ) = .ok (some f))
  (stands : c.state.fs.Stands f handle v node)
include orderly bound stands

/-- **`sysc_read`** on a regular file of tmpfs or the initramfs. -/
theorem Session.Orderly.read_stored (no_wrap : handle.fPos + buf.length < 2 ^ 64)
    (stored : node.fOps ≠ .devfs) :
    ∃ r buf' s', syscRead fd buf buf.length c.process c.state = .ok (r, buf', s') ∧
      Session.Orderly ⟨c.process, s'⟩ root ∧
      View.Step c.view (.read fd buf r buf') (Session.view ⟨c.process, s'⟩) ∧
      c.Frame ⟨c.process, s'⟩ root := by
  set content := c.state.fs.contentOf node.component with contentOf
  have len : content.length = node.component.len :=
    orderly.stored.length_contentOf stands.here stands.regular
  have inside := stands.inside
  have returns := orderly.stored.tmpfsRead_eq stands.opened stands.points stands.here
    stands.regular inside no_wrap rfl
  -- the read of the initramfs is the one of tmpfs
  have reads : vfsRead (some f) buf buf.length c.state.fs =
      tmpfsRead (some f) buf buf.length c.state.fs := by
    rw [vfsRead, Heap.get_some stands.opened, outcome_bind_ok, stands.fOps]
    cases kind : node.fOps with
    | devfs => exact absurd kind stored
    | _ => rfl
  have most : handle.fPos + readable content handle.fPos buf.length ≤ node.component.len := by
    rw [readable, len]
    omega
  have ends : handle.fPos + readable content handle.fPos buf.length < 2 ^ 64 :=
    (Nat.add_le_add_left (Nat.min_le_left _ _) _).trans_lt no_wrap
  obtain ⟨orderly', view, frame⟩ := orderly.moved bound stands rfl ends
    (Fs.NotShorter.refl c.state.fs)
    (fun there => Option.some.inj (stands.here.symm.trans there) ▸ most)
    (orderly.good.rooted.tree.of_nodes rfl) rfl (orderly.stored.of_data rfl rfl) orderly.suits
  refine ⟨toInt32 (readable content handle.fPos buf.length),
    content.take (readable content handle.fPos buf.length) ++
      buf.drop (readable content handle.fPos buf.length), _, ?_, orderly', ?_, frame⟩
  · rw [syscRead, bound, outcome_bind_ok, reads, returns]
    rfl
  · rw [view]
    refine View.Step.read buf (Session.standsAt bound stands)
      (Fs.file_eq stands.here stands.regular) ?_
    rw [Vnode.medium]
    cases kind : node.fOps with
    | tmpfs => exact .inl rfl
    | initramfs => exact .inr rfl
    | devfs => exact absurd kind stored

/-- **`sysc_read`** on a device. -/
theorem Session.Orderly.read_device (device : node.fOps = .devfs)
    (enough : node.component.name = devfsUartName → buf.length ≤ c.state.fs.uartIn.length) :
    ∃ r buf' s', syscRead fd buf buf.length c.process c.state = .ok (r, buf', s') ∧
      Session.Orderly ⟨c.process, s'⟩ root ∧
      View.Step c.view (.read fd buf r buf') (Session.view ⟨c.process, s'⟩) ∧
      c.Frame ⟨c.process, s'⟩ root := by
  have found : c.state.fs.nodeOf (some f) = .ok node := by
    rw [Fs.nodeOf, Heap.get_some stands.opened, outcome_bind_ok, stands.points]
    exact Fs.node_eq_ok.mpr stands.here
  have reads : vfsRead (some f) buf buf.length c.state.fs =
      devfsRead (some f) buf buf.length c.state.fs := by
    rw [vfsRead, Heap.get_some stands.opened, outcome_bind_ok, stands.fOps, device]
  have at_fd := Session.standsAt bound stands
  by_cases uart : node.component.name = devfsUartName
  · replace enough := enough uart
    have file := stands.terminal device uart
    obtain ⟨orderly', view, frame⟩ :=
      orderly.with_uart (c.state.fs.uartIn.drop buf.length) c.state.fs.uartOut
    refine ⟨toInt32 buf.length, c.state.fs.uartIn.take buf.length, _, ?_, orderly', ?_, frame⟩
    · have copied : memcpy buf 0 c.state.fs.uartIn buf.length =
          .ok (c.state.fs.uartIn.take buf.length) := by
        rw [memcpy_eq enough (by omega), splice_zero, List.length_take_of_le enough,
          List.drop_length, List.append_nil]
      rw [syscRead, bound, outcome_bind_ok, reads, devfsRead, found, outcome_bind_ok, if_pos uart,
        if_neg (by omega), copied]
      rfl
    · rw [view]
      exact .readTerminal buf at_fd file enough
  · have file := stands.null device uart
    refine ⟨0, buf, c.state, ?_, orderly, .readNull buf at_fd file, .refl c root⟩
    rw [syscRead, bound, outcome_bind_ok, reads, devfsRead, found, outcome_bind_ok, if_neg uart]
    rfl

/-- **`sysc_write`** on a regular file of tmpfs. -/
theorem Session.Orderly.write_memory {chunk : Chunk} (fresh : c.state.fs.buffers chunk.addr = none)
    (no_wrap : handle.fPos + buf.length < 2 ^ 64) (memory : node.fOps = .tmpfs) :
    ∃ r s', syscWrite chunk fd buf buf.length c.process c.state = .ok (r, s') ∧
      Session.Orderly ⟨c.process, s'⟩ root ∧
      View.Step c.view (.written fd buf r) (Session.view ⟨c.process, s'⟩) ∧
      c.Frame ⟨c.process, s'⟩ root := by
  obtain ⟨content, contains⟩ := orderly.stored.whole stands.here stands.regular memory
  have bounded := (orderly.stored.bounded stands.here stands.regular).2 memory
  have inside := stands.inside
  have limit : tmpfsMaxFileSize = 4096 := rfl
  rw [contains.len] at bounded inside
  have fewer : writable tmpfsMaxFileSize handle.fPos buf.length ≤ buf.length := Nat.min_le_left _ _
  have room : writable tmpfsMaxFileSize handle.fPos buf.length ≤
    tmpfsMaxFileSize - handle.fPos := Nat.min_le_right _ _
  -- what the file holds afterwards, and which vnode has changed
  obtain ⟨fs', returns, holds, files⟩ := tmpfsWrite_eq chunk stands.opened stands.points
    ⟨node, stands.here, contains⟩ inside bounded no_wrap rfl fewer
  obtain ⟨len', payload, rewrites⟩ := orderly.stored.tmpfsWrite_rewrites stands.opened
    stands.points stands.here stands.regular returns
  set n := writable tmpfsMaxFileSize handle.fPos buf.length with hn
  have longer : (splice content handle.fPos (buf.take n)).length =
      max content.length (handle.fPos + n) := by
    rw [length_splice inside, List.length_take_of_le fewer]
  have stored' :=
    rewrites.stays_stored stands.here orderly.stored fresh memory holds (by omega)
  have file := rewrites.file_eq stands.here orderly.stored fresh memory holds
  have new_len : len' = max content.length (handle.fPos + n) := by
    obtain ⟨node', there, contains'⟩ := holds
    obtain rfl := Option.some.inj ((rewrites.self stands.here).symm.trans there)
    exact contains'.len.trans longer
  -- a write makes no file shorter
  have keeps : c.state.fs.NotShorter fs' := by
    intro u m here regular
    by_cases same : u = v
    · subst same
      obtain rfl := Option.some.inj (stands.here.symm.trans here)
      refine ⟨_, rewrites.self here, rfl, rfl, ?_⟩
      rw [contains.len]
      exact (le_max_left _ _).trans new_len.ge
    · exact ⟨m, (rewrites.of_ne same).trans here, rfl, rfl, le_rfl⟩
  obtain ⟨orderly', view, frame⟩ := orderly.moved bound stands files (by omega) keeps
    (fun there => by
      obtain rfl := Option.some.inj ((rewrites.self stands.here).symm.trans there)
      exact (le_max_right _ _).trans new_len.ge)
    (rewrites.tree stands.here orderly.good.rooted.tree stands.regular)
    (rewrites.names stands.here stands.regular) stored' (fun there => by
      have suits := orderly.suits stands.here
      rcases rewrites.cases stands.here there with ⟨rfl, rfl⟩ | ⟨-, old⟩
      · exact suits
      · exact orderly.suits old)
  refine ⟨n, _, ?_, orderly', ?_, frame⟩
  · have writes : vfsWrite chunk (some f) buf buf.length c.state.fs =
        tmpfsWrite chunk (some f) buf buf.length c.state.fs := by
      rw [vfsWrite, Heap.get_some stands.opened, outcome_bind_ok, stands.fOps, memory]
    rw [syscWrite, bound, outcome_bind_ok, writes, returns]
    rfl
  · have medium : node.medium = .memory := by rw [Vnode.medium, memory]
    rw [medium] at file
    rw [view, file, rewrites.uartIn, rewrites.uartOut]
    exact View.Step.write buf (Session.standsAt bound stands)
      ((contains.file_eq stands.here).trans (by rw [medium]))

/-- **`sysc_write`** on the other files. -/
theorem Session.Orderly.write_other (chunk : Chunk) (other : node.fOps ≠ .tmpfs) :
    ∃ r s', syscWrite chunk fd buf buf.length c.process c.state = .ok (r, s') ∧
      Session.Orderly ⟨c.process, s'⟩ root ∧
      View.Step c.view (.written fd buf r) (Session.view ⟨c.process, s'⟩) ∧
      c.Frame ⟨c.process, s'⟩ root := by
  have at_fd := Session.standsAt bound stands
  have handle_fOps := stands.fOps
  cases kind : node.fOps with
  | tmpfs => exact absurd kind other
  | initramfs =>
    have medium : node.medium = .archive := by rw [Vnode.medium, kind]
    refine ⟨0, c.state, ?_, orderly, .writeNothing buf at_fd
      (Fs.file_eq stands.here stands.regular) (.inl medium), .refl c root⟩
    rw [syscWrite, bound, outcome_bind_ok, vfsWrite, Heap.get_some stands.opened, outcome_bind_ok,
      handle_fOps, kind]
    rfl
  | devfs =>
    have found : c.state.fs.nodeOf (some f) = .ok node := by
      rw [Fs.nodeOf, Heap.get_some stands.opened, outcome_bind_ok, stands.points]
      exact Fs.node_eq_ok.mpr stands.here
    have writes : vfsWrite chunk (some f) buf buf.length c.state.fs =
        devfsWrite (some f) buf buf.length c.state.fs := by
      rw [vfsWrite, Heap.get_some stands.opened, outcome_bind_ok, handle_fOps, kind]
    by_cases uart : node.component.name = devfsUartName
    · have file := stands.terminal kind uart
      obtain ⟨orderly', view, frame⟩ :=
        orderly.with_uart c.state.fs.uartIn (c.state.fs.uartOut ++ buf)
      refine ⟨toInt32 buf.length, _, ?_, orderly', ?_, frame⟩
      · rw [syscWrite, bound, outcome_bind_ok, writes, devfsWrite, found, outcome_bind_ok,
          if_pos uart, if_neg (Nat.lt_irrefl _), List.take_length]
        rfl
      · rw [view]
        exact .writeTerminal buf at_fd file
    · have file := stands.null kind uart
      refine ⟨0, c.state, ?_, orderly, .writeNothing buf at_fd file (.inr rfl), .refl c root⟩
      rw [syscWrite, bound, outcome_bind_ok, writes, devfsWrite, found, outcome_bind_ok,
        if_neg uart]
      rfl

end Calls

/-- **`sysc_close`** frees the handle and its descriptor. -/
theorem Session.Orderly.close (orderly : c.Orderly root)
    (bound : c.process.getFd (fd : ℤ) = .ok (some f))
    (stands : c.state.fs.Stands f handle v node) :
    ∃ cur' s', syscClose fd c.process c.state = .ok (0, cur', s') ∧
      Session.Orderly ⟨cur', s'⟩ root ∧
      View.Step c.view (.closed fd 0) (Session.view ⟨cur', s'⟩) ∧ c.Frame ⟨cur', s'⟩ root := by
  have inside := Session.bound_inside bound
  let fs' : Fs := { c.state.fs with files := c.state.fs.files.free f }
  let cur' : Process := { c.process with fdTable := c.process.fdTable.set fd none }
  have rooted : Rooted { c.state with fs := fs' } root :=
    ⟨orderly.good.rooted.rootfs, orderly.good.rooted.tree.of_nodes rfl, orderly.good.rooted.idle⟩
  -- a descriptor that is still bound was bound before
  have old {i g : ℕ} (entry : cur'.fdTable.toList[i]? = some (some g)) :
      i ≠ fd ∧ c.process.fdTable.toList[i]? = some (some g) := by
    change (c.process.fdTable.set fd none).toList[i]? = _ at entry
    rw [Vector.toList_set, List.getElem?_set] at entry
    split_ifs at entry with same
    · simp at entry
    · exact ⟨Ne.symm same, entry⟩
  refine ⟨cur', { c.state with fs := fs' }, ?_, ⟨⟨rooted, orderly.good.cwd.is_cwd,
    orderly.good.cwd.leads⟩, orderly.stored.of_data rfl rfl, orderly.suits, fun entry => ?_,
    fun entry entry' => orderly.different (old entry).2 (old entry').2⟩, ?_, ?_⟩
  · rw [syscClose, bound, outcome_bind_ok, vfsClose, stands.opened]
    change (c.process.setFd fd none >>= _) = _
    rw [Process.setFd_eq _ inside]
    rfl
  · obtain ⟨other, entry⟩ := old entry
    obtain ⟨h, u, m, stands'⟩ := orderly.stands entry
    refine ⟨h, u, m, ?_, stands'.points, stands'.here, stands'.regular, stands'.fOps,
      stands'.inside⟩
    exact (Heap.free_of_ne (orderly.bound_ne bound other entry)).trans stands'.opened
  · have view : Session.view ⟨cur', { c.state with fs := fs' }⟩ = c.view.place fd none := by
      refine View.ext rfl (orderly.good.rooted.leads_congr rooted rfl) rfl ?_ rfl rfl
      refine Process.stands_set inside fun other entry => ?_
      rw [Fs.stand, Fs.stand]
      exact congrArg (Option.bind · _) (Heap.free_of_ne (orderly.bound_ne bound other entry))
    rw [view]
    exact .closed (Session.standsAt bound stands)
  · refine ⟨fun {g} away _ => Heap.free_of_ne ?_, Fs.NotShorter.refl c.state.fs, id,
      fun entry => .inl ⟨_, (old entry).2⟩⟩
    rintro rfl
    exact away fd (Process.getFd_eq_ok.mp bound)

end BareMetal.Vfs
