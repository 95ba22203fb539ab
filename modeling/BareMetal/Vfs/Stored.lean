import BareMetal.Vfs.BadFds
import BareMetal.Vfs.Creation
import BareMetal.Vfs.View

/-!
# Files share no data

Every regular file has its data, and no chunk of data belongs to two vnodes. So `tmpfs_write`, which
moves the data of a file to a larger chunk and frees the old one, leaves all other files as they
were, and creation leaves all files so.

## Main results

* `Rewrites.file_eq`, `Rewrites.stays_stored` — `tmpfs_write` changes one file
* `Adds.file_eq`, `Fs.file_newFile` — creation adds one
-/

namespace BareMetal.Vfs

open CS ByteFile

variable {fs fs' fs₁ : Fs} {u v addr n pos final len : ℕ} {node node' : Vnode} {chunk : Chunk}
  {component : Component} {content buf : List UInt8}

/-! ## Regular files -/

/-- The medium of a regular file. -/
def Vnode.medium (node : Vnode) : Medium :=
  match node.fOps with
  | .tmpfs => .memory
  | .initramfs => .archive
  | .devfs => if node.component.name = devfsUartName then .terminal else .null

/-- The bytes of a regular file. -/
def Fs.contentOf (fs : Fs) (component : Component) : List UInt8 :=
  (fs.bytes component.payload).take component.len

/-- The regular file at a vnode. -/
def Fs.file (fs : Fs) (v : ℕ) : Option (Medium × List UInt8) :=
  match fs.nodes[v]? with
  | some node =>
    if node.component.type = .file then some (node.medium, fs.contentOf node.component) else none
  | none => none

theorem Fs.valid_of_file (file : (fs.file v).isSome) : v < fs.nodes.length := by
  by_contra beyond
  rw [Fs.file, List.getElem?_eq_none (Nat.not_lt.mp beyond)] at file
  contradiction

theorem Fs.file_of_not_file (here : fs.nodes[v]? = some node)
    (other : node.component.type ≠ .file) :
    fs.file v = none := by
  rw [file, here]
  exact if_neg other

theorem Fs.file_eq (here : fs.nodes[v]? = some node) (regular : node.component.type = .file) :
    fs.file v = some (node.medium, fs.contentOf node.component) := by
  rw [file, here]
  exact if_pos regular

theorem Contains.contentOf_eq (contains : Contains fs component content) :
    fs.contentOf component = content := by
  rw [Fs.contentOf, contains.len, (contains.take (le_refl _)).2, List.take_length]

theorem Contains.file_eq (contains : Contains fs node.component content)
    (here : fs.nodes[v]? = some node) : fs.file v = some (node.medium, content) := by
  rw [Fs.file_eq here contains.type, contains.contentOf_eq]

theorem Fs.bytes_congr (same : fs'.buffers = fs.buffers) : fs'.bytes = fs.bytes := by
  ext payload : 1
  cases payload <;> simp only [Fs.bytes, same]

/-- The regular files have their data, and those of tmpfs share none. -/
structure Fs.Stored (fs : Fs) : Prop where
  present : ∀ {v : ℕ} {node : Vnode}, fs.nodes[v]? = some node → node.component.type = .file →
    node.component.len ≤ (fs.bytes node.component.payload).length
  whole : ∀ {v : ℕ} {node : Vnode}, fs.nodes[v]? = some node → node.component.type = .file →
    node.fOps = .tmpfs → ∃ content, Contains fs node.component content
  bounded : ∀ {v : ℕ} {node : Vnode}, fs.nodes[v]? = some node → node.component.type = .file →
    node.component.len < 2 ^ 64 ∧ (node.fOps = .tmpfs → node.component.len ≤ tmpfsMaxFileSize)
  owned : ∀ {v addr : ℕ} {node : Vnode}, fs.nodes[v]? = some node →
    node.component.payload = .data addr → (fs.buffers addr).isSome
  apart : ∀ {v u addr : ℕ} {node node' : Vnode}, fs.nodes[v]? = some node →
    fs.nodes[u]? = some node' → node.fOps = .tmpfs → node.component.payload = .data addr →
    node'.component.payload = .data addr → v = u

/-- The vnode is an old one, or has no bytes. -/
def Fs.OldOrEmpty (fs : Fs) (v : ℕ) (node' : Vnode) : Prop :=
  (∃ node, fs.nodes[v]? = some node ∧ node'.component = node.component ∧ node'.fOps = node.fOps) ∨
    (∀ addr, node'.component.payload ≠ .data addr) ∧
      (node'.component.type = .file → node'.component.len = 0)

/-- Where all regular files are old or empty, they stay stored. -/
theorem Fs.Stored.of_cases (stored : fs.Stored) (buffers : fs'.buffers = fs.buffers)
    (cases : ∀ {v : ℕ} {node' : Vnode}, fs'.nodes[v]? = some node' → fs.OldOrEmpty v node') :
    fs'.Stored where
  present there regular := by
    rcases cases there with ⟨node, here, component, -⟩ | ⟨-, empty⟩
    · rw [component] at regular ⊢
      rw [Fs.bytes_congr buffers]
      exact stored.present here regular
    · exact (empty regular).trans_le (Nat.zero_le _)
  whole there regular memory := by
    rcases cases there with ⟨node, here, component, kind⟩ | ⟨-, empty⟩
    · rw [component] at regular ⊢
      obtain ⟨content, type, len, data⟩ := stored.whole here regular (kind.symm.trans memory)
      exact ⟨content, type, len, buffers ▸ data⟩
    · exact ⟨[], regular, empty regular, .inl rfl⟩
  bounded there regular := by
    rcases cases there with ⟨node, here, component, kind⟩ | ⟨-, empty⟩
    · rw [component] at regular ⊢
      rw [kind]
      exact stored.bounded here regular
    · rw [empty regular]
      exact ⟨by decide, fun _ => Nat.zero_le _⟩
  owned there data := by
    rcases cases there with ⟨node, here, component, -⟩ | ⟨nothing, -⟩
    · rw [component] at data
      exact buffers ▸ stored.owned here data
    · exact absurd data (nothing _)
  apart there there' memory data data' := by
    rcases cases there with ⟨node, here, component, kind⟩ | ⟨nothing, -⟩
    · rcases cases there' with ⟨node', here', component', -⟩ | ⟨nothing, -⟩
      · rw [component] at data
        rw [component'] at data'
        exact stored.apart here here' (kind.symm.trans memory) data data'
      · exact absurd data' (nothing _)
    · exact absurd data (nothing _)

/-- Only the vnodes and the data matter. -/
theorem Fs.Stored.of_data (stored : fs.Stored) (nodes : fs'.nodes = fs.nodes)
    (buffers : fs'.buffers = fs.buffers) : fs'.Stored :=
  stored.of_cases buffers fun there => .inl ⟨_, nodes ▸ there, rfl, rfl⟩

theorem Fs.Stored.length_contentOf (stored : fs.Stored) (here : fs.nodes[v]? = some node)
    (regular : node.component.type = .file) :
    (fs.contentOf node.component).length = node.component.len :=
  List.length_take_of_le (stored.present here regular)

/-- `tmpfs_read` of a regular file, whatever stands behind its bytes. -/
theorem Fs.Stored.tmpfsRead_eq {f : ℕ} {handle : File} (stored : fs.Stored)
    (opened : fs.files f = some handle) (points : handle.vnode = some v)
    (here : fs.nodes[v]? = some node) (regular : node.component.type = .file)
    (inside : handle.fPos ≤ node.component.len) (no_wrap : handle.fPos + buf.length < 2 ^ 64)
    (left : n = readable (fs.contentOf node.component) handle.fPos buf.length) :
    tmpfsRead (some f) buf buf.length fs = .ok (toInt32 n,
      (fs.contentOf node.component).take n ++ buf.drop n, fs.move f n) := by
  have final : (handle.fPos + buf.length) % 2 ^ 64 = handle.fPos + buf.length :=
    Nat.mod_eq_of_lt no_wrap
  rw [readable, stored.length_contentOf here regular] at left
  have read_able : (if handle.fPos + buf.length ≥ node.component.len
      then subU64 node.component.len handle.fPos else buf.length) = n := by
    rw [subU64_of_le inside (stored.bounded here regular).1, left]
    split_ifs <;> omega
  have fewer : n ≤ node.component.len := by omega
  have room : 0 + n ≤ buf.length := by omega
  have bytes : (fs.contentOf node.component).take n = (fs.bytes node.component.payload).take n := by
    rw [Fs.contentOf, List.take_take, Nat.min_eq_left fewer]
  have enough : n ≤ (fs.bytes node.component.payload).length :=
    fewer.trans (stored.present here regular)
  rw [tmpfsRead, Heap.get_some opened, outcome_bind_ok, points]
  dsimp only
  rw [Fs.node_eq_ok.mpr here, outcome_bind_ok, if_neg (not_not.mpr regular), final, read_able,
    memcpy_eq enough room, outcome_bind_ok, Heap.write_some (by rw [opened]; rfl), outcome_bind_ok,
    splice_zero, bytes, List.length_take_of_le enough]
  rfl

/-! ## `tmpfs_write` -/

/-- The first part of `tmpfs_write` leaves the files alone, or moves the data to the new chunk. -/
theorem grow_cases (returns : grow chunk v component final fs = .ok fs₁) :
    fs₁ = fs ∨ ∃ space, fs₁ = Fs.modifyComponent
      { fs.freeOld component with
        buffers := (fs.freeOld component).buffers.alloc chunk.addr space } v
      fun component => { component with len := newLen final, payload := .data chunk.addr } := by
  rw [grow] at returns
  split_ifs at returns
  · obtain ⟨space, -, returns⟩ := outcome_bind_eq_ok.mp returns
    cases returns
    exact .inr ⟨space, rfl⟩
  · cases returns
    exact .inl rfl

/-- The second part changes bytes of the data only. -/
theorem storeData_cases (returns : storeData component pos buf len fs = .ok fs₁) :
    ∃ buffers, fs₁ = { fs with buffers := buffers } ∧
      (∀ addr, component.payload ≠ .data addr → buffers addr = fs.buffers addr) ∧
      ∀ addr, (buffers addr).isSome = (fs.buffers addr).isSome := by
  obtain ⟨bytes, -, returns⟩ := outcome_bind_eq_ok.mp returns
  cases payload : component.payload with
  | data place =>
    simp only [payload] at returns
    cases returns
    refine ⟨_, rfl, fun addr other => Heap.modify_of_ne ?_, fun addr => Heap.isSome_modify⟩
    rintro rfl
    exact other rfl
  | _ =>
    simp only [payload] at returns
    cases returns
    exact ⟨_, rfl, fun _ _ => rfl, fun _ => rfl⟩

theorem Fs.freeOld_buffers (other : component.payload ≠ .data addr) :
    (fs.freeOld component).buffers addr = fs.buffers addr := by
  rw [freeOld]
  split_ifs
  · cases payload : component.payload with
    | data place =>
      refine Heap.free_of_ne ?_
      rintro rfl
      exact other payload
    | _ => rfl
  · rfl

theorem Fs.freeOld_terminal (fs : Fs) (component : Component) :
    (fs.freeOld component).uartIn = fs.uartIn ∧ (fs.freeOld component).uartOut = fs.uartOut := by
  rw [freeOld]
  split_ifs
  · cases component.payload <;> exact ⟨rfl, rfl⟩
  · exact ⟨rfl, rfl⟩

/-- What a write changes: the length and the data of the vnode `v`. -/
structure Rewrites (chunk v len : ℕ) (payload : Payload) (node : Vnode) (fs fs' : Fs) : Prop where
  nodes : fs'.nodes = (fs.modifyComponent v fun component =>
    { component with len := len, payload := payload }).nodes
  moved : ∀ {addr}, payload = .data addr → addr = chunk ∨ node.component.payload = .data addr
  owned : ∀ {addr}, payload = .data addr → (fs'.buffers addr).isSome
  buffers : ∀ {addr}, addr ≠ chunk → node.component.payload ≠ .data addr →
    fs'.buffers addr = fs.buffers addr
  uartIn : fs'.uartIn = fs.uartIn
  uartOut : fs'.uartOut = fs.uartOut

theorem Fs.modifyComponent_same {f : Component → Component} (here : fs.nodes[v]? = some node)
    (same : f node.component = node.component) : (fs.modifyComponent v f).nodes = fs.nodes := by
  refine List.ext_getElem? fun x => ?_
  by_cases at_v : x = v
  · subst at_v
    rw [Fs.modifyComponent_self f here, same, here]
  · rw [Fs.modifyComponent_of_ne f at_v]

/-- **What `tmpfs_write` changes.** -/
theorem Fs.Stored.tmpfsWrite_rewrites {f : ℕ} {handle : File} {r : ℤ} (stored : fs.Stored)
    (opened : fs.files f = some handle) (points : handle.vnode = some v)
    (here : fs.nodes[v]? = some node) (regular : node.component.type = .file)
    (returns : tmpfsWrite chunk (some f) buf len fs = .ok (r, fs')) :
    ∃ len' payload, Rewrites chunk.addr v len' payload node fs fs' := by
  rw [tmpfsWrite, Heap.get_some opened, outcome_bind_ok, points] at returns
  dsimp only at returns
  rw [Fs.node_eq_ok.mpr here, outcome_bind_ok, if_neg (not_not.mpr regular)] at returns
  obtain ⟨fs₁, grown, returns⟩ := outcome_bind_eq_ok.mp returns
  obtain ⟨node₁, here₁, returns⟩ := outcome_bind_eq_ok.mp returns
  obtain ⟨fs₂, copied, returns⟩ := outcome_bind_eq_ok.mp returns
  obtain ⟨files, -, returns⟩ := outcome_bind_eq_ok.mp returns
  obtain ⟨-, rfl⟩ := Prod.mk.inj (Except.ok.inj returns)
  rw [Fs.node_eq_ok] at here₁
  obtain ⟨buffers, rfl, outside, present⟩ := storeData_cases copied
  rcases grow_cases grown with rfl | ⟨space, rfl⟩
  · obtain rfl := Option.some.inj (here.symm.trans here₁)
    -- the data stay where they are
    refine ⟨node.component.len, node.component.payload, (Fs.modifyComponent_same here rfl).symm,
      .inr, fun payload => ?_, fun _ other => outside _ other, rfl, rfl⟩
    change (buffers _).isSome
    rw [present]
    exact stored.owned here payload
  · -- the data move to the new chunk, and the old one is freed
    have before : (fs.freeOld node.component).nodes[v]? = some node := by
      rw [Fs.freeOld_nodes, here]
    let freed : Fs := { fs.freeOld node.component with
      buffers := (fs.freeOld node.component).buffers.alloc chunk.addr space }
    have after := @Fs.modifyComponent_self freed v node (fun component : Component =>
      { component with
        len := newLen ((handle.fPos + len) % 2 ^ 64), payload := .data chunk.addr }) before
    obtain rfl := Option.some.inj (after.symm.trans here₁)
    refine ⟨newLen ((handle.fPos + len) % 2 ^ 64), .data chunk.addr, ?_,
      fun payload => .inl (Payload.data.inj payload).symm, fun payload => ?_,
      fun unused other => ?_, (fs.freeOld_terminal _).1, (fs.freeOld_terminal _).2⟩
    · change List.modify (fs.freeOld node.component).nodes v _ = _
      rw [Fs.freeOld_nodes]
      rfl
    · obtain rfl := Payload.data.inj payload
      change (buffers _).isSome
      rw [present]
      exact Option.isSome_iff_exists.mpr ⟨space, Heap.alloc_self⟩
    · change buffers _ = _
      rw [outside _ fun payload => unused (Payload.data.inj payload).symm]
      exact (Heap.alloc_of_ne unused).trans (Fs.freeOld_buffers other)

namespace Rewrites

variable {len' c : ℕ} {payload : Payload} (rewrites : Rewrites c v len' payload node fs fs')
  (here : fs.nodes[v]? = some node)
include rewrites here

theorem self : fs'.nodes[v]? =
    some { node with component := { node.component with len := len', payload := payload } } := by
  rw [rewrites.nodes, Fs.modifyComponent_self _ here]

omit here in
theorem of_ne (other : u ≠ v) : fs'.nodes[u]? = fs.nodes[u]? := by
  rw [rewrites.nodes, Fs.modifyComponent_of_ne _ other]

/-- The vnodes afterwards. -/
theorem cases (there : fs'.nodes[u]? = some node') :
    u = v ∧ node' = { node with component :=
        { node.component with len := len', payload := payload } } ∨
      u ≠ v ∧ fs.nodes[u]? = some node' := by
  by_cases same : u = v
  · subst same
    rw [rewrites.self here] at there
    exact .inl ⟨rfl, (Option.some.inj there).symm⟩
  · rw [rewrites.of_ne same] at there
    exact .inr ⟨same, there⟩

theorem nameOf (u : ℕ) : fs'.nameOf u = fs.nameOf u := by
  by_cases same : u = v
  · subst same
    rw [Fs.nameOf_eq (rewrites.self here), Fs.nameOf_eq here]
  · rw [Fs.nameOf, rewrites.of_ne same, Fs.nameOf]

theorem listing (regular : node.component.type = .file) (u : ℕ) :
    fs'.listing u = fs.listing u := by
  by_cases same : u = v
  · subst same
    have other : node.component.type ≠ .dir := by simp [regular]
    rw [Fs.listing_eq (rewrites.self here), Fs.listing_eq here, Component.listed_of_ne other]
    exact Component.listed_of_ne other
  · rw [Fs.listing, rewrites.of_ne same, Fs.listing]

/-- **Writes change no names.** -/
theorem names (regular : node.component.type = .file) : fs'.names = fs.names := by
  have cover : fs'.names.cover = fs.names.cover := by
    ext u : 1
    by_cases same : u = v
    · subst same
      rw [Fs.cover_eq (rewrites.self here), Fs.cover_eq here]
    · simp only [Fs.names, rewrites.of_ne same]
  have isDir : fs'.names.isDir = fs.names.isDir := by
    ext u
    by_cases same : u = v
    · subst same
      rw [Fs.isDir_iff (rewrites.self here), Fs.isDir_iff here]
    · simp only [Fs.names, rewrites.of_ne same]
  have entry : fs'.names.entry = fs.names.entry := by
    ext d k : 2
    simp only [Fs.names, rewrites.listing here regular, rewrites.nameOf here]
  change Namespace.mk fs'.names.entry fs'.names.cover fs'.names.isDir = _
  rw [entry, cover, isDir]

/-- Writes keep the tree. -/
theorem tree {root : ℕ} (tree : Tree fs root) (regular : node.component.type = .file) :
    Tree fs' root where
  root_valid := by
    rw [rewrites.nodes, Fs.length_modifyComponent]
    exact tree.root_valid
  sound there := by
    rcases rewrites.cases here there with ⟨-, rfl⟩ | ⟨-, old⟩
    · exact fun dir => absurd (regular.symm.trans dir) (by decide)
    · exact tree.sound old
  listed_valid listed := by
    rw [rewrites.listing here regular] at listed
    rw [rewrites.nodes, Fs.length_modifyComponent]
    exact tree.listed_valid listed
  listed_name listed name := by
    rw [rewrites.listing here regular] at listed
    rw [rewrites.nameOf here] at name
    exact tree.listed_name listed name
  listed_once listed listed' := by
    rw [rewrites.listing here regular] at listed listed'
    exact tree.listed_once listed listed'
  root_listed := by
    intro d
    rw [rewrites.listing here regular]
    exact tree.root_listed
  mount_valid covered := by
    rw [rewrites.names here regular] at covered
    rw [rewrites.nodes, Fs.length_modifyComponent]
    exact tree.mount_valid covered
  mount_once covered covered' := by
    rw [rewrites.names here regular] at covered covered'
    exact tree.mount_once covered covered'
  mount_listed covered := by
    rw [rewrites.names here regular] at covered
    rw [rewrites.listing here regular]
    exact tree.mount_listed covered
  root_mount := by
    intro x
    rw [rewrites.names here regular]
    exact tree.root_mount

section Data

variable (stored : fs.Stored) (fresh : fs.buffers c = none) (memory : node.fOps = .tmpfs)
include stored fresh memory

/-- The data of the other vnodes stays where it is. -/
theorem unused (other : u ≠ v) (old : fs.nodes[u]? = some node')
    (data : node'.component.payload = .data addr) :
    addr ≠ c ∧ node.component.payload ≠ .data addr := by
  refine ⟨?_, fun same => other (stored.apart here old memory same data).symm⟩
  rintro rfl
  have present := stored.owned old data
  rw [fresh] at present
  contradiction

theorem bytes_of_ne (other : u ≠ v) (old : fs.nodes[u]? = some node') :
    fs'.bytes node'.component.payload = fs.bytes node'.component.payload := by
  cases data : node'.component.payload with
  | data addr =>
    obtain ⟨not_new, not_old⟩ := rewrites.unused here stored fresh memory other old data
    rw [Fs.bytes, Fs.bytes, rewrites.buffers not_new not_old]
  | _ => rfl

theorem contains_of_ne (other : u ≠ v) (old : fs.nodes[u]? = some node')
    (contains : Contains fs node'.component content) : Contains fs' node'.component content where
  type := contains.type
  len := contains.len
  data := contains.data.imp_right fun ⟨addr, payload', there⟩ => by
    obtain ⟨not_new, not_old⟩ := rewrites.unused here stored fresh memory other old payload'
    exact ⟨addr, payload', (rewrites.buffers not_new not_old).trans there⟩

variable (holds : Holds fs' v content)
include holds

/-- **A write keeps the files stored.** -/
theorem stays_stored (bounded : content.length ≤ tmpfsMaxFileSize) : fs'.Stored := by
  have limit : tmpfsMaxFileSize = 4096 := rfl
  obtain ⟨after, there, contains⟩ := holds
  obtain rfl := Option.some.inj ((rewrites.self here).symm.trans there)
  refine ⟨?_, ?_, ?_, ?_, ?_⟩
  · intro u node' there' regular
    rcases rewrites.cases here there' with ⟨-, rfl⟩ | ⟨other, old⟩
    · rw [contains.len]
      exact (contains.take (le_refl _)).1
    · rw [rewrites.bytes_of_ne here stored fresh memory other old]
      exact stored.present old regular
  · intro u node' there' regular memory'
    rcases rewrites.cases here there' with ⟨-, rfl⟩ | ⟨other, old⟩
    · exact ⟨content, contains⟩
    · obtain ⟨content', contains'⟩ := stored.whole old regular memory'
      exact ⟨content', rewrites.contains_of_ne here stored fresh memory other old contains'⟩
  · intro u node' there' regular
    rcases rewrites.cases here there' with ⟨-, rfl⟩ | ⟨-, old⟩
    · rw [contains.len]
      exact ⟨by omega, fun _ => bounded⟩
    · exact stored.bounded old regular
  · intro u addr node' there' data
    rcases rewrites.cases here there' with ⟨-, rfl⟩ | ⟨other, old⟩
    · exact rewrites.owned data
    · obtain ⟨not_new, not_old⟩ := rewrites.unused here stored fresh memory other old data
      rw [rewrites.buffers not_new not_old]
      exact stored.owned old data
  · -- the data of other files are neither in the new chunk nor in the old one
    intro u u' addr node₁ node₂ there₁ there₂ memory₁ data₁ data₂
    rcases rewrites.cases here there₁ with ⟨rfl, rfl⟩ | ⟨other₁, old₁⟩ <;>
      rcases rewrites.cases here there₂ with ⟨rfl, rfl⟩ | ⟨other₂, old₂⟩
    · rfl
    · have apart := rewrites.unused here stored fresh memory other₂ old₂ data₂
      exact absurd (rewrites.moved data₁) (not_or.mpr apart)
    · have apart := rewrites.unused here stored fresh memory other₁ old₁ data₁
      exact absurd (rewrites.moved data₂) (not_or.mpr apart)
    · exact stored.apart old₁ old₂ memory₁ data₁ data₂

/-- **A write changes one file.** -/
theorem file_eq : fs'.file = Function.update fs.file v (some (node.medium, content)) := by
  obtain ⟨after, there, contains⟩ := holds
  obtain rfl := Option.some.inj ((rewrites.self here).symm.trans there)
  ext u : 1
  by_cases same : u = v
  · subst same
    rw [Function.update_self]
    exact contains.file_eq there
  · rw [Function.update_of_ne same]
    cases old : fs.nodes[u]? with
    | none => rw [Fs.file, Fs.file, rewrites.of_ne same, old]
    | some node' =>
      have there' := (rewrites.of_ne same).trans old
      by_cases regular : node'.component.type = .file
      · rw [Fs.file_eq old regular, Fs.file_eq there' regular, Fs.contentOf, Fs.contentOf,
          rewrites.bytes_of_ne here stored fresh memory same old]
      · rw [Fs.file_of_not_file old regular, Fs.file_of_not_file there' regular]

end Data

end Rewrites

/-! ## Creation -/

/-- The vnodes after creation: the old ones, and new directories. -/
theorem Adds.cases {r : ℕ} (adds : Adds r fs fs') (there : fs'.nodes[v]? = some node') :
    (∃ node, fs.nodes[v]? = some node ∧ Grows node node') ∨
      fs.nodes.length ≤ v ∧ node'.component.type = .dir := by
  induction adds generalizing node' with
  | refl => exact .inl ⟨node', there, .refl node'⟩
  | tail before step ih =>
    have longer := Adds.length_le before
    obtain ⟨-, here, dir, -, -, -⟩ := step
    rcases Fs.addDir_cases here there with ⟨rfl, rfl⟩ | ⟨rfl, rfl⟩ | ⟨-, old⟩
    · rcases ih here with ⟨node, old, grows⟩ | ⟨new, -⟩
      · refine .inl ⟨node, old, grows.trans ⟨rfl, rfl, rfl, rfl, rfl, fun file => ?_, ?_⟩⟩
        · rw [dir] at file
          contradiction
        · exact ⟨_, Component.listed_withEntry dir⟩
      · exact .inr ⟨new, dir⟩
    · exact .inr ⟨longer, rfl⟩
    · exact ih old

/-- What is true of the functions of all vnodes stays so. -/
theorem Adds.kinds {r : ℕ} {q : FsKind → FsKind → Prop} (adds : Adds r fs fs')
    (all : ∀ (v : ℕ) (node : Vnode), fs.nodes[v]? = some node → q node.vOps node.fOps)
    (there : fs'.nodes[v]? = some node') : q node'.vOps node'.fOps := by
  induction adds generalizing v node' with
  | refl => exact all v node' there
  | tail before step ih =>
    obtain ⟨-, here, -, -, -, -⟩ := step
    have kinds := ih here
    rcases Fs.addDir_cases here there with ⟨rfl, rfl⟩ | ⟨rfl, rfl⟩ | ⟨-, old⟩
    · exact kinds
    · exact kinds
    · exact ih old

/-- Only regular files have data. -/
theorem Tree.regular_of_data {root : ℕ} (tree : Tree fs root) (here : fs.nodes[v]? = some node)
    (data : node.component.payload = .data addr) : node.component.type = .file := by
  cases type : node.component.type with
  | file => rfl
  | dir =>
    rcases tree.sound here type with ⟨null, -⟩ | ⟨nodes, array, -⟩
    · rw [null] at data
      contradiction
    · rw [array] at data
      contradiction

section Adds

variable {r root : ℕ} (adds : Adds r fs fs')
include adds

/-- The regular files are those from before. -/
theorem Adds.regular_cases (there : fs'.nodes[v]? = some node')
    (regular : node'.component.type = .file) : ∃ node, fs.nodes[v]? = some node ∧
      node'.component = node.component ∧ node'.fOps = node.fOps := by
  rcases Adds.cases adds there with ⟨node, old, grows⟩ | ⟨-, dir⟩
  · exact ⟨node, old, grows.file (grows.type.symm.trans regular), grows.fOps⟩
  · rw [regular] at dir
    contradiction

theorem Adds.contains (contains : Contains fs component content) :
    Contains fs' component content := by
  rw [Adds.others adds]
  exact ⟨contains.type, contains.len, contains.data⟩

/-- **Creation of directories keeps the files stored.** -/
theorem Adds.stays_stored (stored : fs.Stored) (tree : Tree fs root) : fs'.Stored := by
  have tree' := Adds.tree adds tree
  refine stored.of_cases (by rw [Adds.others adds]) @fun v node' there => ?_
  by_cases regular : node'.component.type = .file
  · obtain ⟨node, old, component, kind⟩ := Adds.regular_cases adds there regular
    exact .inl ⟨node, old, component, kind⟩
  · exact .inr ⟨fun _ data => regular (tree'.regular_of_data there data),
      fun file => absurd file regular⟩

/-- It changes no file. -/
theorem Adds.file_eq : fs'.file = fs.file := by
  have same_bytes : fs'.bytes = fs.bytes := Fs.bytes_congr (by rw [Adds.others adds])
  ext u : 1
  cases there : fs'.nodes[u]? with
  | none =>
    have nothing : fs.nodes[u]? = none := by
      rw [List.getElem?_eq_none_iff] at there ⊢
      exact (Adds.length_le adds).trans there
    rw [Fs.file, Fs.file, there, nothing]
  | some node' =>
    by_cases regular : node'.component.type = .file
    · obtain ⟨node, old, component, kind⟩ := Adds.regular_cases adds there regular
      rw [Fs.file, Fs.file, there, old]
      simp only [Vnode.medium, Fs.contentOf, component, kind, same_bytes]
    · rw [Fs.file_of_not_file there regular]
      rcases Adds.cases adds there with ⟨node, old, grows⟩ | ⟨new, -⟩
      · rw [Fs.file_of_not_file old (grows.type ▸ regular)]
      · rw [Fs.file, List.getElem?_eq_none new]

end Adds

/-- An empty directory has an array without entries, or none. -/
theorem Tree.len_eq_zero {root : ℕ} (tree : Tree fs root) (here : fs.nodes[v]? = some node)
    (dir : node.component.type = .dir) (empty : fs.listing v = []) : node.component.len = 0 := by
  obtain ⟨len, -⟩ := (tree.sound here).entry dir
  rw [len, ← Fs.listing_eq here, empty, List.length_nil]

section NewFile

variable {root : ℕ} (stored : fs.Stored) (here : fs.nodes[v]? = some node)
  (zero : node.component.len = 0)
include zero

theorem Fs.contains_newFile : Contains (fs.newFile v)
    { node.component with type := .file, payload := .null } [] :=
  ⟨rfl, zero, .inl rfl⟩

include stored here

/-- **A file in place of an empty directory keeps the files stored.** -/
theorem Fs.Stored.newFile : (fs.newFile v).Stored := by
  refine stored.of_cases rfl fun there => ?_
  rcases Fs.modifyComponent_cases _ there with ⟨before, rfl, old, rfl⟩ | ⟨-, old⟩
  · obtain rfl := Option.some.inj (here.symm.trans old)
    exact .inr ⟨by simp, fun _ => zero⟩
  · exact .inl ⟨_, old, rfl, rfl⟩

omit stored in
/-- It adds one file, which is empty. -/
theorem Fs.file_newFile : (fs.newFile v).file =
    Function.update fs.file v (some (node.medium, [])) := by
  ext u : 1
  by_cases same : u = v
  · subst same
    rw [Function.update_self]
    exact (Contains.file_eq (Fs.contains_newFile zero) (Fs.newFile_self here)).trans rfl
  · rw [Function.update_of_ne same, Fs.file, Fs.newFile, Fs.modifyComponent_of_ne _ same]
    rfl

end NewFile

end BareMetal.Vfs
