import BareMetal.CS.Heap
import BareMetal.CS.MachineInt

/-!
# Files of `lib/tmpfs.c`, `lib/cpio.c` and `lib/devfs.c`

Vnodes are never freed, so they are numbered in the order of their creation; each
owns its component. `entries` and `data` of a component are one union. Chunks of data
live on a heap of their own, and the chunk that `malloc_` returns to `tmpfs_write` is
an argument.

A byte that is read or stored outside a chunk or a buffer is the fault `outOfBounds`,
also when the pointer is null.
-/

namespace BareMetal.Vfs

open CS

/-! ## Data -/

/-- `enum comp_type`. -/
inductive CompType
  | file
  | dir
deriving DecidableEq, Repr

/-- The tables of functions that `v_ops` and `f_ops` point to. -/
inductive FsKind
  | tmpfs
  | initramfs
  | devfs
deriving DecidableEq, Repr

/-- The union of `entries` and `data`. Of an array of entries the model has those
written so far. -/
inductive Payload
  | null
  | entries (nodes : List ℕ)
  | data (addr : ℕ)
deriving DecidableEq, Repr

/-- `struct vnode_component`. -/
structure Component where
  name : List UInt8
  type : CompType
  len : ℕ
  payload : Payload
deriving DecidableEq, Repr

/-- `struct vnode`, with the root of the mount instead of `struct mount`. -/
structure Vnode where
  mount : Option ℕ
  vOps : FsKind
  fOps : FsKind
  component : Component
deriving DecidableEq, Repr

/-- `struct file`. -/
structure File where
  vnode : Option ℕ
  fPos : ℕ
  fOps : FsKind
  flags : ℕ
deriving DecidableEq, Repr

/-- The vnodes, the chunks of data, the open files and the UART, with the bytes it
will deliver and those sent to it. -/
structure Fs where
  nodes : List Vnode
  buffers : Heap (List UInt8)
  files : Heap File
  uartIn : List UInt8
  uartOut : List UInt8

/-- A chunk that `malloc_` returns, with what its bytes hold. -/
structure Chunk where
  addr : ℕ
  old : ℕ → UInt8

/-- `TMPFS_MAX_FILE_SIZE`. -/
def tmpfsMaxFileSize : ℕ := 4096

/-- `DEVFS_UART_NAME`. -/
def devfsUartName : List UInt8 := [117, 97, 114, 116]

/-- The vnode behind a pointer. -/
def Fs.node (fs : Fs) (v : ℕ) : Outcome Vnode :=
  match fs.nodes[v]? with
  | none => .error .danglingPointer
  | some node => .ok node

/-- A change to `node->component`. -/
def Fs.modifyComponent (fs : Fs) (v : ℕ) (f : Component → Component) : Fs :=
  { fs with nodes := fs.nodes.modify v fun node => { node with component := f node.component } }

theorem Fs.modifyComponent_self {fs : Fs} {v : ℕ} {node : Vnode} (f : Component → Component)
    (here : fs.nodes[v]? = some node) :
    (fs.modifyComponent v f).nodes[v]? = some { node with component := f node.component } := by
  rw [modifyComponent, List.getElem?_modify_eq, here, Option.map_eq_map, Option.map_some]

/-- The bytes behind `component->data`. -/
def Fs.bytes (fs : Fs) : Payload → List UInt8
  | .data addr => (fs.buffers addr).getD []
  | _ => []

/-! ## `memcpy_` -/

/-- The loop of `memcpy_` at the `i`-th byte, to a place at offset `start` of `dest`. -/
def memcpyLoop (src : List UInt8) (start : ℕ) : ℕ → ℕ → List UInt8 → Outcome (List UInt8)
  | 0, _, dest => .ok dest
  | left + 1, i, dest =>
    match src[i]? with
    | none => .error .outOfBounds
    | some byte =>
      if start + i < dest.length then memcpyLoop src start left (i + 1) (dest.set (start + i) byte)
      else .error .outOfBounds

/-- `memcpy_`. -/
def memcpy (dest : List UInt8) (start : ℕ) (src : List UInt8) (len : ℕ) : Outcome (List UInt8) :=
  memcpyLoop src start len 0 dest

/-! ## tmpfs -/

/-- The length of the chunk that `tmpfs_write` asks for. -/
def newLen (idealFinalPos : ℕ) : ℕ :=
  let newLen :=
    if idealFinalPos ≥ tmpfsMaxFileSize then tmpfsMaxFileSize else idealFinalPos
  if newLen > tmpfsMaxFileSize then tmpfsMaxFileSize else newLen

/-- `free(component->data)`. -/
def Fs.freeData (fs : Fs) : Payload → Fs
  | .data addr => { fs with buffers := fs.buffers.free addr }
  | _ => fs

/-- The chunk of `size` bytes that `tmpfs_write` gets, with the data copied to it. -/
def newSpace (chunk : Chunk) (component : Component) (size : ℕ) (fs : Fs) :
    Outcome (List UInt8) :=
  let space := (List.range size).map chunk.old
  if component.len > 0 then memcpy space 0 (fs.bytes component.payload) component.len
  else .ok space

/-- What `free(component->data)` in `tmpfs_write` leaves, when the file had data. -/
def Fs.freeOld (fs : Fs) (component : Component) : Fs :=
  if component.len > 0 then fs.freeData component.payload else fs

@[simp] theorem Fs.freeOld_nodes (fs : Fs) (component : Component) :
    (fs.freeOld component).nodes = fs.nodes := by
  rw [freeOld]
  split_ifs
  · cases component.payload <;> rfl
  · rfl

@[simp] theorem Fs.freeOld_files (fs : Fs) (component : Component) :
    (fs.freeOld component).files = fs.files := by
  rw [freeOld]
  split_ifs
  · cases component.payload <;> rfl
  · rfl

/-- The first part of `tmpfs_write`: a larger chunk, when the file has to grow. -/
def grow (chunk : Chunk) (v : ℕ) (component : Component) (idealFinalPos : ℕ) (fs : Fs) :
    Outcome Fs :=
  if idealFinalPos > component.len ∧ component.len < tmpfsMaxFileSize then do
    let space ← newSpace chunk component (newLen idealFinalPos) fs
    let fs := fs.freeOld component
    let fs := { fs with buffers := fs.buffers.alloc chunk.addr space }
    return fs.modifyComponent v fun component =>
      { component with len := newLen idealFinalPos, payload := .data chunk.addr }
  else return fs

/-- A store of `len` bytes at `component->data + f_pos`. -/
def storeData (component : Component) (fPos : ℕ) (buf : List UInt8) (len : ℕ) (fs : Fs) :
    Outcome Fs := do
  let bytes ← memcpy (fs.bytes component.payload) fPos buf len
  match component.payload with
  | .data addr => return { fs with buffers := fs.buffers.modify addr fun _ => bytes }
  | _ => return fs

/-- `tmpfs_write`. -/
def tmpfsWrite (chunk : Chunk) (file : Option ℕ) (buf : List UInt8) (len : ℕ) (fs : Fs) :
    Outcome (ℤ × Fs) :=
  match file with
  | none => .ok (-1, fs)
  | some f => do
    let handle ← fs.files.get (some f)
    match handle.vnode with
    | none => return (-1, fs)
    | some v => do
      let node ← fs.node v
      if node.component.type ≠ .file then return (-1, fs)
      else do
        let idealFinalPos := (handle.fPos + len) % 2 ^ 64
        let fs ← grow chunk v node.component idealFinalPos fs
        let writeAble :=
          if idealFinalPos ≥ tmpfsMaxFileSize then subU64 tmpfsMaxFileSize handle.fPos else len
        let node ← fs.node v
        let fs ← storeData node.component handle.fPos buf writeAble fs
        let files ← fs.files.write (some f) fun handle =>
          { handle with fPos := (handle.fPos + writeAble) % 2 ^ 64 }
        return (toInt32 writeAble, { fs with files := files })

/-- `tmpfs_read`, which returns the buffer with what it has stored in it. -/
def tmpfsRead (file : Option ℕ) (buf : List UInt8) (len : ℕ) (fs : Fs) :
    Outcome (ℤ × List UInt8 × Fs) :=
  match file with
  | none => .ok (-1, buf, fs)
  | some f => do
    let handle ← fs.files.get (some f)
    match handle.vnode with
    | none => return (-1, buf, fs)
    | some v => do
      let node ← fs.node v
      if node.component.type ≠ .file then return (-1, buf, fs)
      else do
        let idealFinalPos := (handle.fPos + len) % 2 ^ 64
        let readAble :=
          if idealFinalPos ≥ node.component.len then subU64 node.component.len handle.fPos else len
        let buf ← memcpy buf 0 (fs.bytes node.component.payload) readAble
        let files ← fs.files.write (some f) fun handle =>
          { handle with fPos := (handle.fPos + readAble) % 2 ^ 64 }
        return (toInt32 readAble, buf, { fs with files := files })

/-- `tmpfs_open`, with the address of the handle, which is `*target`. -/
def tmpfsOpen (target v : ℕ) (flags : ℕ) (fs : Fs) : Outcome (ℤ × Fs) := do
  let node ← fs.node v
  if node.component.type ≠ .file then return (-1, fs)
  else
    let file : File := { vnode := some v, fPos := 0, fOps := node.fOps, flags := flags }
    return (0, { fs with files := fs.files.alloc target file })

/-! ## initramfs and devfs -/

/-- `initramfs_write`. -/
def initramfsWrite (fs : Fs) : Outcome (ℤ × Fs) := .ok (0, fs)

/-- `initramfs_read`. -/
def initramfsRead (file : Option ℕ) (buf : List UInt8) (len : ℕ) (fs : Fs) :
    Outcome (ℤ × List UInt8 × Fs) :=
  tmpfsRead file buf len fs

/-- The vnode of an open file. -/
def Fs.nodeOf (fs : Fs) (file : Option ℕ) : Outcome Vnode := do
  let handle ← fs.files.get file
  match handle.vnode with
  | none => .error .nullPointer
  | some v => fs.node v

/-- `devfs_read`. It waits for ever when the UART delivers too little. -/
def devfsRead (file : Option ℕ) (buf : List UInt8) (len : ℕ) (fs : Fs) :
    Outcome (ℤ × List UInt8 × Fs) := do
  let node ← fs.nodeOf file
  if node.component.name = devfsUartName then
    if fs.uartIn.length < len then .error .outOfFuel
    else do
      let buf ← memcpy buf 0 fs.uartIn len
      return (toInt32 len, buf, { fs with uartIn := fs.uartIn.drop len })
  else return (0, buf, fs)

/-! ## `vfs_read` -/

/-- `vfs_read`. -/
def vfsRead (file : Option ℕ) (buf : List UInt8) (len : ℕ) (fs : Fs) :
    Outcome (ℤ × List UInt8 × Fs) := do
  let handle ← fs.files.get file
  match handle.fOps with
  | .tmpfs => tmpfsRead file buf len fs
  | .initramfs => initramfsRead file buf len fs
  | .devfs => devfsRead file buf len fs

end BareMetal.Vfs
