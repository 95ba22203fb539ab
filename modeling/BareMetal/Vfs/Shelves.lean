import BareMetal.Vfs.Initramfs
import BareMetal.Vfs.Stored

/-!
# Files of the archive

The files that `initramfs_setup_mount` makes have no data of their own: they point into the archive.
Its loop makes no other file and leaves the vnodes from before alone.

## Main results

* `insertFiles_shelved` — what the loop keeps
* `Shelved.stored` — the files that it makes are stored
-/

namespace BareMetal.Vfs

open CS Strings Cpio

variable {s s' s₁ : State} {root r d v x : ℕ} {files places : List Placed} {e : Placed}
  {target : Option ℕ} {node : Vnode} {initrd : Initrd} {heap : Heap CpioFile} {file : Option ℕ}
  {cells : List ℕ} {old : List Vnode} {component : Component}

/-- The bytes of the file are in the archive. -/
def Initrd.Keeps (initrd : Initrd) (component : Component) : Prop :=
  ∃ offset, component.payload = .data (initrd.place + offset) ∧ offset < initrd.mem.length ∧
    offset + component.len ≤ initrd.mem.length ∧ component.len < 2 ^ 64

/-- The vnodes while the loop makes those from `r` on: each has the functions of one filesystem,
and the regular files point into the archive. -/
structure Shelved (initrd : Initrd) (root r : ℕ) (old : List Vnode) (fs : Fs) : Prop where
  tree : Tree fs root
  low : fs.nodes.take r = old
  kinds : ∀ (v : ℕ) (node : Vnode), fs.nodes[v]? = some node → node.vOps = node.fOps
  files : ∀ {v : ℕ} {node : Vnode}, fs.nodes[v]? = some node → node.component.type = .file →
    node.fOps = .initramfs ∧ initrd.Keeps node.component

/-! ## Steps -/

/-- New directories from `r` on change none of the vnodes before. -/
theorem Adds.take_eq {fs fs' : Fs} (adds : Adds r fs fs') (small : r ≤ fs.nodes.length) :
    fs'.nodes.take r = fs.nodes.take r := by
  induction adds with
  | refl => rfl
  | tail before step ih =>
    have longer := small.trans (Adds.length_le before)
    rw [← ih]
    obtain ⟨inside, here, -, -, -, -⟩ := step
    refine List.ext_getElem? fun x => ?_
    rw [List.getElem?_take, List.getElem?_take]
    split_ifs with low
    · exact Fs.addNode_of_ne (low.trans_le longer) (low.trans_le inside).ne
    · rfl

theorem Shelved.adds {fs fs' : Fs} (shelved : Shelved initrd root r old fs) (adds : Adds r fs fs')
    (small : r ≤ fs.nodes.length) : Shelved initrd root r old fs' where
  tree := Adds.tree adds shelved.tree
  low := (Adds.take_eq adds small).trans shelved.low
  kinds _ _ there := Adds.kinds adds shelved.kinds there
  files there regular := by
    obtain ⟨node, here, component, kind⟩ := Adds.regular_cases adds there regular
    rw [component] at regular ⊢
    rw [kind]
    exact shelved.files here regular

/-- A vnode from `r` on becomes a file of the archive. -/
theorem Shelved.setFile {fs : Fs} {addr len : ℕ} (shelved : Shelved initrd root r old fs)
    (beyond : r ≤ v) (here : fs.nodes[v]? = some node) (kind : node.vOps = .initramfs)
    (keeps :
      initrd.Keeps { node.component with type := .file, payload := .data addr, len := len }) :
    Shelved initrd root r old (fs.setFile v addr len) where
  tree := (makesFile_setFile addr len).tree shelved.tree
  low := by
    rw [← shelved.low]
    refine List.ext_getElem? fun x => ?_
    rw [List.getElem?_take, List.getElem?_take]
    split_ifs with low
    · exact Fs.modifyComponent_of_ne _ (low.trans_le beyond).ne
    · rfl
  kinds x node' there := by
    rcases Fs.modifyComponent_cases _ there with ⟨before, -, was, rfl⟩ | ⟨-, was⟩
    · have kept := shelved.kinds x before was
      exact kept
    · exact shelved.kinds x node' was
  files there regular := by
    rcases Fs.modifyComponent_cases _ there with ⟨before, rfl, was, rfl⟩ | ⟨-, was⟩
    · obtain rfl := Option.some.inj (here.symm.trans was)
      exact ⟨(shelved.kinds _ node was).symm.trans kind, keeps⟩
    · exact shelved.files was regular

/-- At the address of the data are the data and their padding. -/
theorem holds_padded {mem : List UInt8} (holds : e.Holds mem) :
    e.record.data ++ e.record.dataPad <+: mem.drop e.dataPtr := by
  obtain ⟨rest, splits⟩ := holds
  have large : e.record.dataOffset ≤ e.record.encode.length := by
    rw [e.record.length_encode, Record.size]
    omega
  rw [Placed.dataPtr, ← List.drop_drop, ← splits, List.drop_append_of_le_length large,
    e.record.drop_data]
  exact List.prefix_append ..

/-- The data of an entry are in the archive. -/
theorem Initrd.keeps_entry (holds : e.Holds initrd.mem) (data : e.record.data ≠ [])
    (name : List UInt8) : initrd.Keeps
      ⟨name, .file, e.record.dataSize, .data (initrd.place + e.dataPtr)⟩ := by
  have fewer := (holds_padded holds).length_le
  have small := e.record.data_small
  have some_bytes := List.length_pos_of_ne_nil data
  have size : e.record.dataSize = e.record.data.length + e.record.dataPad.length := rfl
  rw [List.length_append, List.length_drop] at fewer
  refine ⟨e.dataPtr, rfl, by omega, ?_, ?_⟩
  · dsimp only
    omega
  · dsimp only
    omega

/-! ## The loop -/

/-- The directories that a round of the loop makes. -/
theorem Stocked.insert_adds (stocked : Stocked initrd.place s r files) (target : Option ℕ)
    (fits : FitsVfs ((files ++ [e]).map fun e => e.record.name)) :
    ∃ v s₁ node, Returns (fun fuel => lookupPath 0 fuel e.record.name r target true s)
        (0, some v, s₁) ∧ Adds r s.fs s₁.fs ∧ s₁ = { s with strtok := .idle, fs := s₁.fs } ∧
      r ≤ v ∧ s₁.fs.nodes[v]? = some node ∧ node.vOps = .initramfs ∧
      Stocked initrd.place
        { s₁ with fs := s₁.fs.setFile v (initrd.place + e.dataPtr) e.record.dataSize } r
        (files ++ [e]) := by
  have new : e.record.name ∈ (files ++ [e]).map fun e => e.record.name := by simp
  have tree := stocked.tree
  have names := fits.splitNames_eq new
  have reaches : s.fs.names.Reaches r [] r := Namespace.reaches_nil.mpr stocked.settles_root
  obtain ⟨depth, call⟩ := tree.lookupPath_create target tree.root_valid stocked.idle
    (fits.fits new) stocked.settles_root stocked.root_dir
  rw [names] at call
  obtain ⟨v, s₁, target', loop, result, created⟩ := Tree.createLoop_creates
    (s := { s with strtok := .idle }) target tree reaches stocked.root_dir
    (fits.proper _ new) ((stocked.creatable fits rfl reaches stocked.root_dir).with_strtok _)
  obtain ⟨-, adds, others⟩ := Tree.createLoop_adds (s := { s with strtok := .idle }) tree
    (components_clean e.record.no_nul) stocked.closed (Nat.le_refl r) tree.root_valid.le loop
  obtain rfl : target' = some v := by
    rcases result with same | ⟨none, -⟩
    · exact same
    · exact absurd none components_ne_nil
  have bare := Adds.bare adds stocked.bare
  have here := List.getElem?_eq_getElem (created.tree.reaches_valid created.reaches)
  have beyond := bare.le_of_reaches (Adds.closed adds stocked.closed) created.tree created.reaches
  exact ⟨v, s₁, _, ⟨0 + 1 + depth, (call 0).trans loop⟩, adds, others, beyond, here,
    (bare beyond here).2, stocked.setFile fits created adds⟩

/-- **The loop makes files of the archive only**, by induction on the list of files. -/
theorem insertFiles_shelved {fuel rounds : ℕ} (stocked : Stocked initrd.place s r files)
    (shelved : Shelved initrd root r old s.fs) (chain : Chain CpioFile.next heap file cells)
    (nodes : Nodes heap cells places) (nonempty : places ≠ [])
    (holds : ∀ e ∈ places, e.Holds initrd.mem)
    (fits : FitsVfs ((files ++ places.filter hasData).map fun e => e.record.name))
    (returns : insertFiles initrd 0 fuel heap r rounds file target s = .ok s') :
    Shelved initrd root r old s'.fs ∧ s'.rootfs = s.rootfs ∧ s'.fs.files = s.fs.files := by
  induction nodes generalizing s files file target rounds with
  | nil => exact absurd rfl nonempty
  | @cons cell e cells places here nodes ih =>
    obtain ⟨next, here⟩ := here
    obtain ⟨node, here', rfl, rest⟩ := chain.exists_head
    obtain rfl := Option.some.inj (here.symm.trans here')
    cases rounds with
    | zero => contradiction
    | succ rounds =>
    rw [insertFiles, Heap.get_some here, outcome_bind_ok] at returns
    cases nodes with
    | nil =>
      -- the last node of the list
      obtain rfl : next = none := rest.linked
      obtain rfl := Except.ok.inj returns
      exact ⟨shelved, rfl, rfl⟩
    | @cons cell' e' cells' places' here_next nodes' =>
      obtain rfl : next = some cell' := rest.linked.head
      have more : e' :: places' ≠ [] := List.cons_ne_nil _ _
      have holds' := fun f inside => holds f (List.mem_cons_of_mem e inside)
      change (if _ then _ else _) = _ at returns
      by_cases data : hasData e = true
      · have sub : (files ++ [e]).Sublist (files ++ (e :: e' :: places').filter hasData) := by
          rw [List.filter_cons_of_pos data]
          exact List.Sublist.append (List.Sublist.refl _)
            (List.Sublist.cons_cons _ (List.nil_sublist _))
        obtain ⟨v, s₁, node, lookup, adds, others, beyond, there, kind, stocked'⟩ :=
          stocked.insert_adds target (fits.of_sublist (sub.map _))
        have fits' : FitsVfs ((files ++ [e] ++ (e' :: places').filter hasData).map
            fun e => e.record.name) := by
          rw [List.filter_cons_of_pos data] at fits
          simpa using fits
        have name := readName_eq (holds e List.mem_cons_self) (some cell')
        have size : (e.file (some cell')).fileSize > 0 := hasData_iff.mp data
        rw [if_pos size, ← bind_assoc, name, outcome_bind_ok] at returns
        obtain ⟨⟨result, target', s₂⟩, looks, returns⟩ := outcome_bind_eq_ok.mp returns
        have same := (lookupPath_mono ..).returns_unique ⟨fuel, looks⟩ lookup
        simp only [Prod.mk.injEq] at same
        obtain ⟨rfl, rfl, rfl⟩ := same
        change (s₂.fs.node v >>= _) = _ at returns
        rw [Fs.node_eq_ok.mpr there, outcome_bind_ok] at returns
        have small : r ≤ s.fs.nodes.length := stocked.tree.root_valid.le
        have keeps := Initrd.keeps_entry (holds e List.mem_cons_self) (of_decide_eq_true data)
          node.component.name
        have shelved' := (shelved.adds adds small).setFile beyond there kind keeps
        obtain ⟨shelved'', rootfs, opened⟩ := ih stocked' shelved' rest more holds' fits' returns
        refine ⟨shelved'', rootfs.trans ?_, opened.trans ?_⟩
        · rw [others]
        · exact (congrArg Fs.files (Adds.others adds) : _)
      · have skip : (e :: e' :: places').filter hasData = (e' :: places').filter hasData :=
          List.filter_cons_of_neg data
        rw [skip] at fits
        have size : ¬ (e.file (some cell')).fileSize > 0 := data ∘ hasData_iff.mpr
        rw [if_neg size] at returns
        exact ih stocked shelved rest more holds' fits returns

/-! ## Filesystems in order -/

/-- A tree of vnodes whose regular files are stored. -/
structure Fs.Tidy (fs : Fs) (root : ℕ) : Prop where
  tree : Tree fs root
  stored : fs.Stored
  kinds : ∀ (v : ℕ) (node : Vnode), fs.nodes[v]? = some node → node.vOps = node.fOps

/-- The files of the archive are stored. -/
theorem Shelved.tidy {fs : Fs} (shelved : Shelved initrd root r old fs)
    (present : ∀ offset < initrd.mem.length,
      fs.buffers (initrd.place + offset) = some (initrd.mem.drop offset)) : fs.Tidy root := by
  have no_memory {v : ℕ} {node : Vnode} (there : fs.nodes[v]? = some node)
      (regular : node.component.type = .file) : node.fOps ≠ .tmpfs := by
    rw [(shelved.files there regular).1]
    decide
  refine ⟨shelved.tree, ⟨fun there regular => ?_, fun there regular memory => ?_,
    fun there regular => ?_, fun there data => ?_, fun there _ memory data => ?_⟩, shelved.kinds⟩
  · obtain ⟨-, offset, payload, inside, fits, -⟩ := shelved.files there regular
    rw [payload, Fs.bytes, present offset inside, Option.getD_some, List.length_drop]
    omega
  · exact absurd memory (no_memory there regular)
  · obtain ⟨-, offset, -, -, -, small⟩ := shelved.files there regular
    exact ⟨small, fun memory => absurd memory (no_memory there regular)⟩
  · have regular := shelved.tree.regular_of_data there data
    obtain ⟨-, offset, payload, inside, -⟩ := shelved.files there regular
    obtain rfl := Payload.data.inj (payload.symm.trans data)
    rw [present offset inside]
    rfl
  · exact absurd memory (no_memory there (shelved.tree.regular_of_data there data))

namespace Fs.Tidy

variable {fs fs' : Fs} (tidy : fs.Tidy root)
include tidy

theorem adds (adds : Adds d fs fs') : fs'.Tidy root where
  tree := Adds.tree adds tidy.tree
  stored := Adds.stays_stored adds tidy.stored tidy.tree
  kinds _ _ there := Adds.kinds adds tidy.kinds there

theorem addRoot (kind : FsKind) : (fs.addRoot kind).Tidy root where
  tree := tidy.tree.addRoot
  stored := tidy.stored.of_cases rfl fun there => by
    rcases Fs.addRoot_cases there with ⟨-, rfl⟩ | was
    · exact .inr ⟨by simp [rootNode], fun _ => rfl⟩
    · exact .inl ⟨_, was, rfl, rfl⟩
  kinds v node there := by
    rcases Fs.addRoot_cases there with ⟨-, rfl⟩ | was
    · rfl
    · exact tidy.kinds v node was

theorem newFile (here : fs.nodes[v]? = some node) (zero : node.component.len = 0) :
    (fs.newFile v).Tidy root where
  tree := makesFile_open.tree tidy.tree
  stored := tidy.stored.newFile here zero
  kinds x node' there := by
    rcases Fs.modifyComponent_cases _ there with ⟨before, -, was, rfl⟩ | ⟨-, was⟩
    · have kept := tidy.kinds x before was
      exact kept
    · exact tidy.kinds x node' was

/-- A mount changes nothing of a vnode but what is mounted on it. -/
theorem setMount (tree : Tree (fs.setMount v r) root) : (fs.setMount v r).Tidy root := by
  refine ⟨tree, tidy.stored.of_cases rfl fun there => ?_, fun x node' there => ?_⟩
  · obtain ⟨node, here, component, -, kind⟩ := Fs.setMount_before there
    exact .inl ⟨node, here, component, kind⟩
  · obtain ⟨node, here, -, vOps, fOps⟩ := Fs.setMount_before there
    rw [vOps, fOps]
    exact tidy.kinds x node here

end Fs.Tidy

end BareMetal.Vfs
