import BareMetal.Pool.Enough
import BareMetal.Pool.Exhausted
import BareMetal.Vfs.Open
import BareMetal.Vfs.Reads

/-!
# `sysc_exec`

The new program is read to a block of 64 pages, at which the task goes on. `sysc_exec`
changes the stack pointer of the trap frame first, allocates the block before it looks for
the file, and returns 0 whatever happened.

## Main results

* `exec_law_iff` — when `sysc_exec` does what a failed or a successful exec is to do
-/

namespace BareMetal.Tasks

open CS Buddy Pool Vfs Vfs.ByteFile

/-! ## The model -/

/-- `struct trap_frame`, with `xi` as `x i`. -/
structure TrapFrame where
  x : ℕ → ℕ
  spEl0 : ℕ
  elrEl1 : ℕ
  spsrEl1 : ℕ

/-- What `sysc_exec` works on: the page allocator, the file systems, the trap frame of the
task, and the bytes of the pages that are handed out. -/
structure Machine where
  pools : Pools
  vfs : State
  frame : TrapFrame
  bytes : ℕ → UInt8

/-- `THREAD_SP_SIZE`. -/
def threadSpSize : ℕ := 2048

/-- The length that `sysc_exec` reads, `0x1000*64`. -/
def imageSize : ℕ := 0x40000

/-- The bytes from `addr` on as a buffer. -/
def bufferAt (bytes : ℕ → UInt8) (addr len : ℕ) : List UInt8 :=
  (List.range len).map fun i => bytes (addr + i)

/-- The bytes with a buffer at `addr`. -/
def storeBuffer (bytes : ℕ → UInt8) (addr : ℕ) (buf : List UInt8) (x : ℕ) : UInt8 :=
  if addr ≤ x then buf.getD (x - addr) (bytes x) else bytes x

/-- What `sysc_exec` does with the file: it reads it to the load address and closes it. -/
def loadImage (result : ℤ) (file : Option ℕ) (loadAddr : ℕ) (s : State) (bytes : ℕ → UInt8) :
    Outcome (State × (ℕ → UInt8)) :=
  if result = 0 then do
    let (_, buf, fs) ← vfsRead file (bufferAt bytes loadAddr imageSize) imageSize s.fs
    let (_, s) ← vfsClose file { s with fs := fs }
    return (s, storeBuffer bytes loadAddr buf)
  else return (s, bytes)

/-- `sysc_exec`, with the user stack of the current task and the handle that `vfs_open` gets. -/
def syscExec (i₀ : ℤ) (fuel handle userSp : ℕ) (name : List UInt8) (s : Machine) :
    Outcome (ℤ × Machine) := do
  let frame := { s.frame with spEl0 := subU64 ((userSp + threadSpSize) % 2 ^ 64) (userSp % 16) }
  let (loadAddr, pools) ← pageAllocateAddr fuel imageSize s.pools
  let (result, file, vfs) ← vfsOpen i₀ fuel name 0 handle none s.vfs
  let (vfs, bytes) ← loadImage result file loadAddr vfs s.bytes
  return (0, ⟨pools, vfs, { frame with elrEl1 := loadAddr }, bytes⟩)

section Law

variable (i₀ : ℤ) (handle userSp : ℕ) (name : List UInt8) (s : Machine)

/-! ## The law -/

/-- `vfs_open(name, 0)` succeeds. -/
def Opens : Prop :=
  ∃ file vfs, Returns (fun fuel => vfsOpen i₀ fuel name 0 handle none s.vfs) (0, file, vfs)

/-- `page_allocate` finds a block. -/
def FindsBlock : Prop :=
  ∃ (index : ℕ) (k : Allocator),
    Returns (fun fuel => pageAllocate fuel imageSize s.pools.k) (index, k)

/-- The call is refused: it returns a negative value, with the trap frame as before, and no
page is left allocated. -/
def Refuses : Prop :=
  ∃ r s', r < 0 ∧ Returns (fun fuel => syscExec i₀ fuel handle userSp name s) (r, s') ∧
    s'.frame = s.frame ∧
    usedBlocks pageMaxEntry s'.pools.k.frame = usedBlocks pageMaxEntry s.pools.k.frame

/-- What is in a file; in the UART, what it will deliver. -/
def FileContent (fs : Fs) (node : Vnode) (content : List UInt8) : Prop :=
  match node.fOps with
  | .devfs => content = if node.component.name = devfsUartName then fs.uartIn else []
  | _ => Contains fs node.component content

/-- The task goes on at the load address, and the bytes there are the content of the file. -/
def Loads : Prop :=
  ∃ r s' addr pools, Returns (fun fuel => syscExec i₀ fuel handle userSp name s) (r, s') ∧
    Returns (fun fuel => pageAllocateAddr fuel imageSize s.pools) (addr, pools) ∧
    s'.frame.elrEl1 = addr ∧
    ∀ v node content, s.vfs.Finds name v → s.vfs.fs.nodes[v]? = some node →
      FileContent s.vfs.fs node content → ∀ i byte, i < imageSize → content[i]? = some byte →
        s'.bytes (addr + i) = byte

/-- A failed exec leaves the caller running, and a successful one starts the program. -/
def ExecLaw : Prop :=
  (¬ (Opens i₀ handle name s ∧ FindsBlock s) → Refuses i₀ handle userSp name s) ∧
    (Opens i₀ handle name s ∧ FindsBlock s → Loads i₀ handle userSp name s)

/-- If the file is the UART, it delivers as much as `sysc_exec` reads. -/
def Delivers : Prop :=
  ∀ v node, s.vfs.Finds name v → s.vfs.fs.nodes[v]? = some node → node.fOps = .devfs →
    node.component.name = devfsUartName → imageSize ≤ s.vfs.fs.uartIn.length

end Law

/-- Regular files have the bytes that their length says. -/
def FilesSound (fs : Fs) : Prop :=
  ∀ (v : ℕ) (node : Vnode), fs.nodes[v]? = some node → node.component.type = .file →
    ∃ content, content.length < 2 ^ 64 ∧ Contains fs node.component content

variable {i₀ r : ℤ} {fuel handle userSp addr v : ℕ} {name content buf : List UInt8} {s s' : Machine}
  {fs fs' : Fs} {node : Vnode} {vfs vfs' : State} {file : Option ℕ}

/-! ## Failed calls -/

/-- Every return of `sysc_exec` is 0. -/
theorem syscExec_zero (returns : syscExec i₀ fuel handle userSp name s = .ok (r, s')) : r = 0 := by
  obtain ⟨⟨addr, pools⟩, -, returns⟩ := outcome_bind_eq_ok.mp returns
  obtain ⟨⟨result, file, vfs⟩, -, returns⟩ := outcome_bind_eq_ok.mp returns
  obtain ⟨⟨vfs, bytes⟩, -, returns⟩ := outcome_bind_eq_ok.mp returns
  exact (congrArg Prod.fst (Except.ok.inj returns)).symm

theorem not_refuses : ¬ Refuses i₀ handle userSp name s := by
  rintro ⟨r, s', negative, ⟨fuel, returns⟩, -⟩
  have zero := syscExec_zero returns
  omega

/-- What `sysc_exec` does when there is no such file: the block stays allocated, and the task
goes on at the start of it, with an empty stack. -/
theorem syscExec_not_found {pools : Pools} (nonzero : r ≠ 0)
    (allocated : Returns (fun fuel => pageAllocateAddr fuel imageSize s.pools) (addr, pools))
    (failed : Returns (fun fuel => vfsOpen i₀ fuel name 0 handle none s.vfs) (r, file, vfs)) :
    Returns (fun fuel => syscExec i₀ fuel handle userSp name s) (0, ⟨pools, vfs,
      { s.frame with
        spEl0 := subU64 ((userSp + threadSpSize) % 2 ^ 64) (userSp % 16), elrEl1 := addr },
      s.bytes⟩) := by
  obtain ⟨fuel, allocated⟩ := allocated
  obtain ⟨fuel', failed⟩ := failed
  have allocated' := (pageAllocateAddr_mono imageSize s.pools).of_le (Nat.le_max_left fuel fuel')
    allocated
  have failed' := (vfsOpen_mono i₀ name 0 handle none s.vfs).of_le (Nat.le_max_right fuel fuel')
    failed
  refine ⟨max fuel fuel', ?_⟩
  dsimp only
  rw [syscExec, allocated', outcome_bind_ok]
  dsimp only
  rw [failed', outcome_bind_ok]
  dsimp only
  rw [loadImage, if_neg nonzero, outcome_pure, outcome_bind_ok, outcome_pure]

/-! ## Successful calls -/

theorem length_bufferAt (bytes : ℕ → UInt8) (addr len : ℕ) :
    (bufferAt bytes addr len).length = len := by
  simp [bufferAt]

theorem storeBuffer_of_lt {bytes : ℕ → UInt8} {i : ℕ} {byte : UInt8}
    (inside : buf[i]? = some byte) : storeBuffer bytes addr buf (addr + i) = byte := by
  rw [storeBuffer, if_pos (Nat.le_add_right addr i), Nat.add_sub_cancel_left,
    List.getD_eq_getElem?_getD,
    inside, Option.getD_some]

/-- The files with a new handle at the start of a vnode. -/
def withHandle (fs : Fs) (handle v : ℕ) (node : Vnode) : Fs :=
  { fs with files := fs.files.alloc handle ⟨some v, 0, node.fOps, 0⟩ }

theorem withHandle_files (fs : Fs) (handle v : ℕ) (node : Vnode) :
    (withHandle fs handle v node).files handle = some ⟨some v, 0, node.fOps, 0⟩ :=
  Heap.alloc_self

theorem Contains.withHandle {component : Component} {c : List UInt8}
    (contains : Contains fs component c) (handle v : ℕ) (node : Vnode) :
    Contains (Tasks.withHandle fs handle v node) component c :=
  ⟨contains.type, contains.len, contains.data⟩

theorem FileContent.withHandle (file : FileContent fs node content) (handle v : ℕ) :
    FileContent (Tasks.withHandle fs handle v node) node content := by
  unfold FileContent at file ⊢
  split at file
  · exact file
  · exact Contains.withHandle file handle v node

/-- A file opened without flags is one that the path leads to. -/
theorem vfsOpen_existing
    (returns : vfsOpen i₀ fuel name 0 handle none vfs = .ok (0, file, vfs')) :
    ∃ v node, vfs.Finds name v ∧ vfs.fs.nodes[v]? = some node ∧ node.component.type = .file ∧
      file = some handle ∧ vfs' = { vfs with fs := withHandle vfs.fs handle v node } := by
  obtain ⟨⟨found, vfs₁⟩, opened, rest⟩ := outcome_bind_eq_ok.mp returns
  clear returns
  rcases openNode_cases opened with ⟨v, rfl, rfl, finds⟩ | ⟨-, ⟨creat, -⟩ | ⟨-, rfl⟩⟩
  · obtain ⟨⟨result, fs⟩, opens, rest⟩ := outcome_bind_eq_ok.mp rest
    obtain ⟨node, here, ⟨rfl, type, rfl⟩ | ⟨rfl, -, rfl⟩⟩ := tmpfsOpen_cases opens
    · simp only [if_true, outcome_pure, Except.ok.injEq, Prod.mk.injEq, true_and] at rest
      obtain ⟨rfl, rfl⟩ := rest
      exact ⟨v, node, finds, here, type, rfl, rfl⟩
    · simp at rest
  · exact absurd (Nat.zero_and oCreat) creat
  · simp at rest

/-- A buffer that begins with a piece of a content. -/
theorem getElem?_front {n i : ℕ} {byte : UInt8} (below : i < n)
    (inside : content[i]? = some byte) : (content.take n ++ buf)[i]? = some byte := by
  have length := (List.getElem?_eq_some_iff.mp inside).1
  rw [List.getElem?_append_left (by rw [List.length_take]; omega), List.getElem?_take_of_lt below,
    inside]

/-- What the read of `sysc_exec` stores begins with the content of the file. -/
theorem vfsRead_new (opened : fs.files handle = some ⟨some v, 0, node.fOps, 0⟩)
    (here : fs.nodes[v]? = some node)
    (holds : ∃ content, content.length < 2 ^ 64 ∧ Contains fs node.component content)
    (length : buf.length = imageSize)
    (delivers : node.fOps = .devfs → node.component.name = devfsUartName →
      imageSize ≤ fs.uartIn.length) :
    ∃ result buf' fs', vfsRead (some handle) buf imageSize fs = .ok (result, buf', fs') ∧
      (fs'.files handle).isSome ∧
      ∀ content, FileContent fs node content → ∀ i byte, i < imageSize →
        content[i]? = some byte → buf'[i]? = some byte := by
  by_cases device : node.fOps = .devfs
  · -- the UART stores what it delivers, another device nothing
    have nodeOf : fs.nodeOf (some handle) = .ok node := by
      rw [Fs.nodeOf, Heap.get_some opened, outcome_bind_ok]
      exact Fs.node_eq_ok.mpr here
    have reads : vfsRead (some handle) buf imageSize fs =
        devfsRead (some handle) buf imageSize fs := by
      rw [vfsRead, Heap.get_some opened, outcome_bind_ok, device]
    rw [reads, devfsRead, nodeOf, outcome_bind_ok]
    by_cases uart : node.component.name = devfsUartName
    · have enough := delivers device uart
      rw [if_pos uart, if_neg (not_lt.mpr enough), memcpy_eq enough (by omega), outcome_bind_ok]
      refine ⟨_, _, _, rfl, by rw [opened]; rfl, fun content file i byte below inside => ?_⟩
      simp only [FileContent, device, uart, if_true] at file
      subst file
      rw [splice_zero]
      exact getElem?_front below inside
    · rw [if_neg uart]
      refine ⟨_, _, _, rfl, by rw [opened]; rfl, fun content file i byte below inside => ?_⟩
      simp only [FileContent, device, uart, if_false] at file
      subst file
      cases inside
  · -- a file: as much of its content as there is room for
    obtain ⟨c, small, contains⟩ := holds
    have reads : vfsRead (some handle) buf imageSize fs =
        tmpfsRead (some handle) buf imageSize fs :=
      vfsRead_readsFiles device opened rfl
    have image : imageSize = 0x40000 := rfl
    have wide : (⟨some v, 0, node.fOps, 0⟩ : File).fPos + imageSize < 2 ^ 64 := by
      simp only
      omega
    have room : readable c 0 imageSize ≤ buf.length := by
      rw [readable]
      omega
    have returns := tmpfsRead_eq opened rfl ⟨node, here, contains⟩ (Nat.zero_le _) small wide rfl
      room
    rw [reads, returns]
    refine ⟨_, _, _, rfl, ?_, fun content file i byte below inside => ?_⟩
    · rw [Fs.move_self opened (by rw [readable]; simp only; omega)]
      rfl
    · have same : content = c := by
        have contains' : Contains fs node.component content := by
          cases ops : node.fOps with
          | devfs => exact absurd ops device
          | tmpfs => simpa only [FileContent, ops] using file
          | initramfs => simpa only [FileContent, ops] using file
        exact Holds.unique ⟨node, here, contains⟩ ⟨node, here, contains'⟩
      subst same
      have inner := (List.getElem?_eq_some_iff.mp inside).1
      exact getElem?_front (by rw [readable]; simp only; omega) inside

/-- The read returns only if the UART delivers enough. -/
theorem delivers_of_vfsRead {result : ℤ × List UInt8 × Fs}
    (opened : fs.files handle = some ⟨some v, 0, node.fOps, 0⟩) (here : fs.nodes[v]? = some node)
    (device : node.fOps = .devfs) (uart : node.component.name = devfsUartName)
    (returns : vfsRead (some handle) buf imageSize fs = .ok result) :
    imageSize ≤ fs.uartIn.length := by
  have nodeOf : fs.nodeOf (some handle) = .ok node := by
    rw [Fs.nodeOf, Heap.get_some opened, outcome_bind_ok]
    exact Fs.node_eq_ok.mpr here
  have reads : vfsRead (some handle) buf imageSize fs =
      devfsRead (some handle) buf imageSize fs := by
    rw [vfsRead, Heap.get_some opened, outcome_bind_ok, device]
  rw [reads, devfsRead, nodeOf, outcome_bind_ok, if_pos uart] at returns
  by_contra short
  rw [if_pos (not_le.mp short)] at returns
  cases returns

/-- A call that returns has opened and read the file. -/
theorem delivers_of_syscExec (opens : Opens i₀ handle name s)
    (returns : syscExec i₀ fuel handle userSp name s = .ok (r, s')) : Delivers name s := by
  obtain ⟨file₀, vfs₀, opens⟩ := opens
  obtain ⟨⟨addr, pools⟩, -, returns⟩ := outcome_bind_eq_ok.mp returns
  obtain ⟨⟨result, file, vfs⟩, opened, returns⟩ := outcome_bind_eq_ok.mp returns
  obtain ⟨loaded, load, -⟩ := outcome_bind_eq_ok.mp returns
  have same := (vfsOpen_mono i₀ name 0 handle none s.vfs).returns_unique ⟨fuel, opened⟩ opens
  obtain rfl : result = 0 := congrArg Prod.fst same
  obtain ⟨v, node, finds, here, -, rfl, rfl⟩ := vfsOpen_existing opened
  obtain ⟨read, reads, -⟩ := outcome_bind_eq_ok.mp load
  intro v' node' finds' here' device uart
  obtain rfl := finds.unique finds'
  obtain rfl := Option.some.inj (here.symm.trans here')
  have here_too : (withHandle s.vfs.fs handle v node).nodes[v]? = some node := here
  have enough : imageSize ≤ (withHandle s.vfs.fs handle v node).uartIn.length :=
    delivers_of_vfsRead (withHandle_files _ _ _ node) here_too device uart reads
  exact enough

/-- Where everything that it calls returns, `sysc_exec` loads the program. -/
theorem loads_of_opens (sound : FilesSound s.vfs.fs) (opens : Opens i₀ handle name s)
    (block : FindsBlock s) (delivers : Delivers name s) : Loads i₀ handle userSp name s := by
  obtain ⟨file, vfs, fuel, opened⟩ := opens
  obtain ⟨index, k, fuel', allocated⟩ := block
  dsimp only at opened allocated
  obtain ⟨v, node, finds, here, type, rfl, rfl⟩ := vfsOpen_existing opened
  -- one fuel for both searches
  let enough := max fuel fuel'
  have opened' := (vfsOpen_mono i₀ name 0 handle none s.vfs).of_le (Nat.le_max_left fuel fuel')
    opened
  obtain ⟨addr, allocated'⟩ : ∃ addr,
      pageAllocateAddr enough imageSize s.pools = .ok (addr, { s.pools with k := k }) := by
    have larger := (pageAllocate_mono imageSize s.pools.k).of_le (Nat.le_max_right fuel fuel')
      allocated
    rw [pageAllocateAddr, larger]
    exact ⟨_, rfl⟩
  obtain ⟨c, small, contains⟩ := sound v node here type
  obtain ⟨result, buf, fs, reads, closes, content⟩ := vfsRead_new
    (withHandle_files s.vfs.fs handle v node) here
    ⟨c, small, Contains.withHandle contains handle v node⟩
    (length_bufferAt s.bytes addr imageSize) (delivers v node finds here)
  obtain ⟨open_file, still⟩ := Option.isSome_iff_exists.mp closes
  have load : ∃ vfs', loadImage 0 (some handle) addr
      { s.vfs with fs := withHandle s.vfs.fs handle v node } s.bytes =
        .ok (vfs', storeBuffer s.bytes addr buf) := by
    refine ⟨{ s.vfs with fs := { fs with files := fs.files.free handle } }, ?_⟩
    rw [loadImage, if_pos rfl, reads, outcome_bind_ok]
    dsimp only
    rw [vfsClose]
    dsimp only
    rw [still]
    rfl
  obtain ⟨vfs', load⟩ := load
  have returns : syscExec i₀ enough handle userSp name s = .ok (0, ⟨{ s.pools with k := k }, vfs',
      { s.frame with
        spEl0 := subU64 ((userSp + threadSpSize) % 2 ^ 64) (userSp % 16), elrEl1 := addr },
      storeBuffer s.bytes addr buf⟩) := by
    rw [syscExec, allocated', outcome_bind_ok]
    dsimp only
    rw [opened', outcome_bind_ok]
    dsimp only
    rw [load, outcome_bind_ok, outcome_pure]
  refine ⟨0, _, addr, _, ⟨enough, returns⟩, ⟨enough, allocated'⟩, rfl, ?_⟩
  -- what is at the address is the buffer that was read
  intro v' node' c' finds' here' file i byte below inside
  obtain rfl := finds.unique finds'
  obtain rfl := Option.some.inj (here.symm.trans here')
  exact storeBuffer_of_lt (content c' (file.withHandle handle v) i byte below inside)

/-- **`sysc_exec`** does what it is to do exactly when `vfs_open` succeeds, `page_allocate` finds
a block, and the UART, if it is the file, delivers enough. -/
theorem exec_law_iff (sound : FilesSound s.vfs.fs) :
    ExecLaw i₀ handle userSp name s ↔
      Opens i₀ handle name s ∧ FindsBlock s ∧ Delivers name s := by
  constructor
  · rintro ⟨refuses, loads⟩
    by_cases both : Opens i₀ handle name s ∧ FindsBlock s
    · obtain ⟨r, s', addr, pools, ⟨fuel, returns⟩, -⟩ := loads both
      exact ⟨both.1, both.2, delivers_of_syscExec both.1 returns⟩
    · exact absurd (refuses both) not_refuses
  · rintro ⟨opens, block, delivers⟩
    exact ⟨fun fails => absurd ⟨opens, block⟩ fails,
      fun _ => loads_of_opens sound opens block delivers⟩

/-! ## One program -/

/-- A root with the program `/a`, of two bytes. -/
def oneProgram : State :=
  { freshRoot with fs := { freshRoot.fs with
      nodes := [⟨none, .tmpfs, .tmpfs, ⟨[], .dir, 1, .entries [1]⟩⟩,
        ⟨none, .tmpfs, .tmpfs, ⟨[97], .file, 2, .data 0x10⟩⟩]
      buffers := fun a => if a = 0x10 then some [1, 2] else none } }

theorem oneProgram_sound : FilesSound oneProgram.fs := by
  intro v node here type
  match v with
  | 0 =>
    obtain rfl := Option.some.inj here
    cases type
  | 1 =>
    obtain rfl := Option.some.inj here
    exact ⟨[1, 2], by decide, rfl, rfl, .inr ⟨0x10, rfl, rfl⟩⟩
  | v + 2 => cases here

/-- A task with these files and a block of 64 pages. -/
theorem oneProgram_machine : ∃ s : Machine, s.vfs = oneProgram ∧ FindsBlock s := by
  obtain ⟨k, lists, rep, free, -⟩ := upperFree_divided (l := 6) (by decide)
  obtain ⟨index, rest, head⟩ := List.exists_cons_of_ne_nil free
  have level : levelFor imageSize = 6 := by decide
  have positive : 0 < imageSize := by decide
  have returns := rep.pageAllocate_cons positive (by decide) (level.symm ▸ head) 0
  exact ⟨⟨⟨k, none⟩, oneProgram, ⟨fun _ => 0, 0, 0, 0⟩, fun _ => 0⟩, rfl, index, _, 0, returns⟩

/-- There `/a` is executed. -/
theorem oneProgram_exec : ∃ s : Machine, ExecLaw 0 0x100 0x5000 [47, 97] s := by
  obtain ⟨s, vfs, block⟩ := oneProgram_machine
  refine ⟨s, (exec_law_iff (vfs.symm ▸ oneProgram_sound)).mpr ⟨?_, block, ?_⟩⟩
  · rw [Opens, vfs]
    exact ⟨_, _, 3, rfl⟩
  · intro v node _ here device
    rw [vfs] at here
    match v with
    | 0 =>
      obtain rfl := Option.some.inj here
      cases device
    | 1 =>
      obtain rfl := Option.some.inj here
      cases device
    | v + 2 => cases here

/-- There is no `/b`, and `sysc_exec` returns 0 with the stack pointer changed. -/
theorem oneProgram_no_exec : ∃ s : Machine, FilesSound s.vfs.fs ∧ FindsBlock s ∧
    ¬ Opens 0 0x100 [47, 98] s ∧ ¬ ExecLaw 0 0x100 0x5000 [47, 98] s ∧
      ∃ s', Returns (fun fuel => syscExec 0 fuel 0x100 0x5000 [47, 98] s) (0, s') ∧
        s'.frame.spEl0 = 0x5800 := by
  obtain ⟨s, vfs, block⟩ := oneProgram_machine
  have fails : vfsOpen 0 3 [47, 98] 0 0x100 none s.vfs = .ok (-1, none, oneProgram) := by
    rw [vfs]
    rfl
  have closed : ¬ Opens 0 0x100 [47, 98] s := by
    rintro ⟨file, vfs', opens⟩
    have same := (vfsOpen_mono 0 [47, 98] 0 0x100 none s.vfs).returns_unique opens ⟨3, fails⟩
    simp at same
  refine ⟨s, vfs.symm ▸ oneProgram_sound, block, closed, ?_, ?_⟩
  · rintro ⟨refuses, -⟩
    exact not_refuses (refuses fun both => closed both.1)
  · obtain ⟨index, k, fuel, allocated⟩ := block
    have addr : Returns (fun fuel => pageAllocateAddr fuel imageSize s.pools)
        (toU64 (toInt32 (index * 0x1000)), { s.pools with k := k }) :=
      ⟨fuel, outcome_bind_eq_ok.mpr ⟨_, allocated, rfl⟩⟩
    exact ⟨_, syscExec_not_found (by decide) addr ⟨3, fails⟩, rfl⟩

end BareMetal.Tasks
