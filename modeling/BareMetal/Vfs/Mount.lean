import BareMetal.Cpio.Model
import BareMetal.Vfs.Paths

/-!
# Mounts

`vfs_mount` of `lib/vfs.c` and the functions `setup_mount` of the filesystems. A `setup_mount`
returns the vnode that it stores in `mount->root`, and `vfs_mount` hangs it on the directory.
-/

namespace BareMetal.Vfs

open CS Strings Cpio

/-! ## Data -/

/-- The archive at `CPIO_DEFAULT_PLACE`: its address, its bytes, what the array of
`read_header` holds at each call, and the chunks for the list of its files. -/
structure Initrd where
  place : ℕ
  mem : List UInt8
  a : ℕ → List UInt8
  length_a : ∀ call, (a call).length = 9
  supply : Supply

/-- The string `"tmpfs"`. -/
def tmpfsName : List UInt8 := [116, 109, 112, 102, 115]

/-- The string `"/initramfs"`. -/
def initramfsPath : List UInt8 := [47, 105, 110, 105, 116, 114, 97, 109, 102, 115]

/-- The string `"/dev"`. -/
def devPath : List UInt8 := [47, 100, 101, 118]

/-- The root of a filesystem with these functions. -/
def rootNode (kind : FsKind) : Vnode := ⟨none, kind, kind, ⟨[], .dir, 0, .null⟩⟩

/-- `mount->root` becomes a new vnode. -/
def Fs.addRoot (fs : Fs) (kind : FsKind) : Fs := { fs with nodes := fs.nodes ++ [rootNode kind] }

/-- `vnode_mount->mount` becomes a mount with this root. -/
def Fs.setMount (fs : Fs) (v root : ℕ) : Fs :=
  { fs with nodes := fs.nodes.modify v fun node => { node with mount := some root } }

/-! ## `setup_mount` -/

/-- `tmpfs_setup_mount`. -/
def tmpfsSetupMount (s : State) : Outcome (ℤ × ℕ × State) :=
  .ok (0, s.fs.nodes.length, { s with fs := s.fs.addRoot .tmpfs })

/-- `devfs_setup_mount`. -/
def devfsSetupMount (s : State) : Outcome (ℤ × ℕ × State) := do
  let root := s.fs.nodes.length
  let (ret, nodeNew, fs) ← tmpfsCreate .file root none devfsUartName (s.fs.addRoot .devfs)
  if ret = 0 then
    match nodeNew with
    | none => .error .nullPointer
    | some node =>
      let fs := fs.modifyComponent node fun component => { component with type := .file }
      return (0, root, { s with fs := fs })
  else return (0, root, { s with fs := fs })

/-- The vnode becomes a file with these data. -/
def Fs.setFile (fs : Fs) (v addr len : ℕ) : Fs :=
  fs.modifyComponent v fun component =>
    { component with type := .file, payload := .data addr, len := len }

/-- The loop of `initramfs_setup_mount` over the list of files. -/
def insertFiles (initrd : Initrd) (i₀ : ℤ) (fuel : ℕ) (files : Heap CpioFile) (dirNode : ℕ) :
    ℕ → Option ℕ → Option ℕ → State → Outcome State
  | 0, _, _, _ => .error .outOfFuel
  | rounds + 1, file, nodeNew, s => do
    let node ← files.get file
    match node.next with
    | none => return s
    | some next =>
      if node.fileSize > 0 then do
        let pathname ← bytesAt initrd.mem node.pathname
        let pathname ← readStr pathname
        let (_, nodeNew, s) ← lookupPath i₀ fuel pathname dirNode nodeNew true s
        match nodeNew with
        | none => .error .nullPointer
        | some v => do
          let _ ← s.fs.node v
          let fs := s.fs.setFile v (initrd.place + node.dataPtr).toNat node.fileSize
          insertFiles initrd i₀ fuel files dirNode rounds (some next) (some v) { s with fs := fs }
      else insertFiles initrd i₀ fuel files dirNode rounds (some next) nodeNew s

/-- `initramfs_setup_mount`. -/
def initramfsSetupMount (initrd : Initrd) (i₀ : ℤ) (fuel : ℕ) (s : State) :
    Outcome (ℤ × ℕ × State) :=
  let root := s.fs.nodes.length
  let s := { s with fs := s.fs.addRoot .initramfs }
  if s.mounted then .ok (0, root, s)
  else do
    let (files, file) ← cpioParse initrd.a initrd.mem initrd.supply (fun _ => none) none fuel
    let s ← insertFiles initrd i₀ fuel files root fuel file none s
    return (0, root, { s with mounted := true })

/-! ## `vfs_mount` -/

/-- `strcpy` of the name of a filesystem to a chunk of `NAME_LEN` bytes. -/
def copyFsName (fileName : List UInt8) : Outcome Unit :=
  if fileName.length < nameLen then .ok () else .error .outOfBounds

/-- `register_filesystem` and the call of `setup_mount` behind it. When the filesystem is not
supported, nothing was stored in `setup_mount`. -/
def setupRegistered (fileName : List UInt8) (s : State) : Outcome (ℤ × ℕ × State) := do
  let order ← strcmp (cstr fileName) (cstr tmpfsName)
  if order = 0 then tmpfsSetupMount s else .error .danglingPointer

/-- The directory of a mount, and what `setup_mount` makes of it. -/
def mountOn (fuel : ℕ) (target fileName : List UInt8)
    (setup : State → Outcome (ℤ × ℕ × State)) (s : State) : Outcome (ℤ × State) := do
  let (result, node, s) ← vfsLookup fuel target none s
  if result = 0 then
    match node with
    | none => .error .nullPointer
    | some v => do
      let _ ← s.fs.node v
      let _ ← copyFsName fileName
      let (result, root, s) ← setup s
      return (result, { s with fs := s.fs.setMount v root })
  else return (-1, s)

/-- `vfs_mount`. -/
def vfsMount (initrd : Initrd) (i₀ : ℤ) (fuel : ℕ) (target fileName : List UInt8) (s : State) :
    Outcome (ℤ × State) := do
  let root ← strcmp (cstr target) (cstr [slash])
  let initramfs ← strcmp (cstr target) (cstr initramfsPath)
  let dev ← strcmp (cstr target) (cstr devPath)
  if root = 0 then do
    let _ ← copyFsName fileName
    let (result, root, s) ← setupRegistered fileName s
    return (result, { s with rootfs := some root })
  else if initramfs = 0 then do
    let (_, s) ← vfsMkdir i₀ fuel target s
    mountOn fuel target fileName (initramfsSetupMount initrd i₀ fuel) s
  else if dev = 0 then do
    let (_, s) ← vfsMkdir i₀ fuel target s
    mountOn fuel target fileName devfsSetupMount s
  else mountOn fuel target fileName (setupRegistered fileName) s

end BareMetal.Vfs
