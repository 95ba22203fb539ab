import BareMetal.Strings.Model
import BareMetal.Vfs.Model

/-!
# Paths of `lib/vfs.c` and directories of `lib/tmpfs.c`

A path is a string: the list of its bytes. `*target` is an argument and part of the
result of the functions that write it. `lookup_path` follows mounts and components
by calling itself, so it takes a bound on its depth. The variable `i` of its create
loop has no initial value in the source; here it is the argument `i₀`.
-/

namespace BareMetal.Vfs

open CS Strings

/-! ## Data -/

/-- `TMPFS_MAX_COMPONENT_NAME`. -/
def tmpfsMaxComponentName : ℕ := 32

/-- `NAME_LEN`. -/
def nameLen : ℕ := 16

/-- `TMPFS_MAX_ENTRY`. -/
def tmpfsMaxEntry : ℕ := 16

/-- `VFS_MAX_DEPTH`. -/
def vfsMaxDepth : ℕ := 64

/-- `O_CREAT`. -/
def oCreat : ℕ := 64

/-- `TMPFS_MAX_PATH_LEN`. -/
def tmpfsMaxPathLen : ℕ := 255

/-- The byte `'/'`. -/
def slash : UInt8 := 47

/-- What is kept between calls: the files, `rootfs->root`, the variable `mounted` of
`lib/cpio.c` and those of `strtok`. -/
structure State where
  fs : Fs
  rootfs : Option ℕ
  mounted : Bool
  strtok : Strtok

/-! ## Components of a path -/

/-- The path behind a leading `'/'`. -/
def skipSlash : List UInt8 → List UInt8
  | [] => []
  | c :: rest => if c = slash then rest else c :: rest

/-- `first_component`, which copies to an array of `TMPFS_MAX_COMPONENT_NAME` bytes. -/
def firstComponent (pathname : List UInt8) : Outcome (List UInt8) :=
  let name := (skipSlash pathname).takeWhile (· ≠ slash)
  if name.length < tmpfsMaxComponentName then .ok name else .error .outOfBounds

/-- `pop_first_component`. -/
def popFirstComponent (pathname : List UInt8) : List UInt8 :=
  skipSlash ((skipSlash pathname).dropWhile (· ≠ slash))

/-! ## Directories -/

/-- `component->entries[i]`. -/
def Component.entry (component : Component) (i : ℕ) : Outcome ℕ :=
  match component.payload with
  | .null => .error .nullPointer
  | .data _ => .error .danglingPointer
  | .entries nodes =>
    match nodes[i]? with
    | none => .error .outOfBounds
    | some entry => .ok entry

/-- The loop of `tmpfs_lookup` from the `i`-th entry on. -/
def tmpfsLookupLoop (fs : Fs) (component : Component) (name : List UInt8) :
    ℕ → ℕ → Outcome (Option ℕ)
  | 0, _ => .ok none
  | left + 1, i => do
    let entry ← component.entry i
    let node ← fs.node entry
    let order ← strcmp (cstr name) (cstr node.component.name)
    if order = 0 then return some (node.mount.getD entry)
    else tmpfsLookupLoop fs component name left (i + 1)

/-- `tmpfs_lookup`. -/
def tmpfsLookup (fs : Fs) (dirNode : ℕ) (target : Option ℕ) (componentName : List UInt8) :
    Outcome (ℤ × Option ℕ) := do
  let dir ← fs.node dirNode
  if dir.component.type ≠ .dir then return (-1, target)
  else do
    match ← tmpfsLookupLoop fs dir.component componentName dir.component.len 0 with
    | some found => return (0, some found)
    | none => return (-1, target)

/-- `component->entries[component->len++] = node`, with a new array when there is none. -/
def Component.addEntry (component : Component) (node : ℕ) : Outcome Component :=
  let nodes :=
    match component.payload with
    | .entries nodes => nodes
    | _ => []
  if component.len ≤ nodes.length then
    .ok { component with
      len := component.len + 1, payload := .entries (nodes.take component.len ++ [node]) }
  else .error .outOfBounds

/-- The vnode that `tmpfs_create` makes in a directory. Its type is what the chunk
held. -/
def newNode (dir : Vnode) (name : List UInt8) (stale : CompType) : Vnode where
  mount := none
  vOps := dir.vOps
  fOps := dir.fOps
  component := ⟨name, stale, 0, .null⟩

/-- `tmpfs_create`. -/
def tmpfsCreate (stale : CompType) (dirNode : ℕ) (target : Option ℕ) (componentName : List UInt8)
    (fs : Fs) : Outcome (ℤ × Option ℕ × Fs) := do
  let dir ← fs.node dirNode
  if dir.component.type ≠ .dir then return (-1, target, fs)
  else do
    let (result, target) ← tmpfsLookup fs dirNode target componentName
    if result = 0 then return (1, target, fs)
    else if dir.component.len ≥ tmpfsMaxEntry then return (-1, target, fs)
    -- `strcpy` to a chunk of `NAME_LEN` bytes
    else if componentName.length ≥ nameLen then .error .outOfBounds
    else do
      let node := fs.nodes.length
      let component ← dir.component.addEntry node
      let fs := { fs with nodes := fs.nodes ++ [newNode dir componentName stale] }
      return (0, some node, fs.modifyComponent dirNode fun _ => component)

/-- `tmpfs_mkdir`. -/
def tmpfsMkdir (dirNode : ℕ) (target : Option ℕ) (componentName : List UInt8) (fs : Fs) :
    Outcome (ℤ × Option ℕ × Fs) := do
  let dir ← fs.node dirNode
  if dir.component.type ≠ .dir then return (-1, target, fs)
  else do
    let (result, target, fs) ← tmpfsCreate .file dirNode target componentName fs
    if result = 0 then
      match target with
      | none => .error .nullPointer
      | some node =>
        return (0, some node, fs.modifyComponent node fun component =>
          { component with type := .dir, payload := .null })
    else if result = 1 then return (0, target, fs)
    else return (-1, target, fs)

/-- `initramfs_mkdir`. -/
def initramfsMkdir (mounted : Bool) (dirNode : ℕ) (target : Option ℕ)
    (componentName : List UInt8) (fs : Fs) : Outcome (ℤ × Option ℕ × Fs) :=
  if mounted then .ok (1, target, fs) else tmpfsMkdir dirNode target componentName fs

/-- `devfs_mkdir`. -/
def devfsMkdir (target : Option ℕ) (fs : Fs) : Outcome (ℤ × Option ℕ × Fs) := .ok (1, target, fs)

/-- `initramfs_lookup`. -/
def initramfsLookup (fs : Fs) (dirNode : ℕ) (target : Option ℕ) (componentName : List UInt8) :
    Outcome (ℤ × Option ℕ) :=
  tmpfsLookup fs dirNode target componentName

/-- `devfs_lookup`. -/
def devfsLookup (fs : Fs) (dirNode : ℕ) (target : Option ℕ) (componentName : List UInt8) :
    Outcome (ℤ × Option ℕ) :=
  tmpfsLookup fs dirNode target componentName

/-- `v_ops->lookup`. -/
def FsKind.lookup : FsKind → Fs → ℕ → Option ℕ → List UInt8 → Outcome (ℤ × Option ℕ)
  | .tmpfs => tmpfsLookup
  | .initramfs => initramfsLookup
  | .devfs => devfsLookup

/-- `v_ops->mkdir`. -/
def FsKind.mkdir (mounted : Bool) (dirNode : ℕ) (target : Option ℕ) (componentName : List UInt8)
    (fs : Fs) : FsKind → Outcome (ℤ × Option ℕ × Fs)
  | .tmpfs => tmpfsMkdir dirNode target componentName fs
  | .initramfs => initramfsMkdir mounted dirNode target componentName fs
  | .devfs => devfsMkdir target fs

/-! ## `lookup_path` -/

/-- The loop of the create branch over the components that are left. -/
def createLoop : List (List UInt8) → ℕ → Option ℕ → State → Outcome (ℤ × Option ℕ × State)
  | [], _, target, s => .ok (0, target, s)
  | name :: rest, dirNode, target, s =>
    if name = [] then createLoop rest dirNode target s
    else do
      let dir ← s.fs.node dirNode
      let (result, target, fs) ← dir.vOps.mkdir s.mounted dirNode target name s.fs
      if result = 0 then
        match target with
        | none => .error .nullPointer
        | some node => createLoop rest node target { s with fs := fs }
      else createLoop rest dirNode target { s with fs := fs }

/-- The create branch of `lookup_path`. -/
def createPath (i₀ : ℤ) (pathname : List UInt8) (dirNode : ℕ) (target : Option ℕ) (s : State) :
    Outcome (ℤ × Option ℕ × State) :=
  if pathname.length ≥ tmpfsMaxPathLen then .error .outOfBounds
  else do
    let (restComps, strtok) ← spiltStrings (vfsMaxDepth - 1) pathname [slash] s.strtok
    if i₀ < 0 then .error .outOfBounds
    else createLoop (restComps.drop i₀.toNat) dirNode target { s with strtok := strtok }

/-- `lookup_path`. -/
def lookupPath (i₀ : ℤ) : ℕ → List UInt8 → ℕ → Option ℕ → Bool → State →
    Outcome (ℤ × Option ℕ × State)
  | 0, _, _, _, _, _ => .error .outOfFuel
  | fuel + 1, pathname, dirNode, target, create, s => do
    let componentName ← firstComponent pathname
    let restPath := popFirstComponent pathname
    let dir ← s.fs.node dirNode
    match dir.mount with
    | some root => lookupPath i₀ fuel pathname root target create s
    | none =>
      if dir.component.type ≠ .dir then return (-1, target, s)
      else if create then createPath i₀ pathname dirNode target s
      else do
        let (result, target) ← dir.vOps.lookup s.fs dirNode target componentName
        if result = 0 then
          match target with
          | none => .error .nullPointer
          | some found => do
            let node ← s.fs.node found
            if restPath = [] then return (0, target, s)
            else
              match node.component.type with
              | .dir => lookupPath i₀ fuel restPath found target create s
              | .file => return (-1, target, s)
        else return (-1, target, s)

/-! ## `vfs_lookup`, `vfs_open`, `vfs_mkdir` -/

/-- `vfs_lookup`. -/
def vfsLookup (fuel : ℕ) (pathname : List UInt8) (target : Option ℕ) (s : State) :
    Outcome (ℤ × Option ℕ × State) :=
  match s.rootfs with
  | none => .error .nullPointer
  | some root => do
    let order ← strcmp (cstr pathname) (cstr [slash])
    if order = 0 then return (0, some root, s)
    else lookupPath 0 fuel pathname root target false s

/-- The first part of `vfs_open`: the vnode, also a new one for `O_CREAT`; none stands for
the early returns. -/
def openNode (i₀ : ℤ) (fuel : ℕ) (pathname : List UInt8) (flags : ℕ) (s : State) :
    Outcome (Option ℕ × State) := do
  let (result, node, s) ← vfsLookup fuel pathname none s
  if result ≠ 0 ∧ flags &&& oCreat ≠ 0 then
    match s.rootfs with
    | none => .error .nullPointer
    | some root => do
      let (result, node, s) ← lookupPath i₀ fuel pathname root node true s
      if result = 0 then
        match node with
        | none => .error .nullPointer
        | some created => do
          let _ ← s.fs.node created
          let fs := s.fs.modifyComponent created fun component =>
            { component with type := .file, payload := .null }
          return (node, { s with fs := fs })
      else return (none, s)
  else if result ≠ 0 then return (none, s)
  else
    match node with
    | none => .error .nullPointer
    | some _ => return (node, s)

/-- `vfs_open`. The new `struct file` is at `handle`, and `file` is `*target`. -/
def vfsOpen (i₀ : ℤ) (fuel : ℕ) (pathname : List UInt8) (flags : ℕ) (handle : ℕ) (file : Option ℕ)
    (s : State) : Outcome (ℤ × Option ℕ × State) := do
  let (node, s) ← openNode i₀ fuel pathname flags s
  match node with
  | none => return (-1, file, s)
  | some node => do
    let (result, fs) ← tmpfsOpen handle node flags s.fs
    if result = 0 then return (0, some handle, { s with fs := fs })
    else return (result, file, { s with fs := fs })

/-- `vfs_close`. Every `f_ops->close` is `tmpfs_close`. -/
def vfsClose (file : Option ℕ) (s : State) : Outcome (ℤ × State) :=
  match file with
  | none => .error .nullPointer
  | some f =>
    match s.fs.files f with
    | none => .error .danglingPointer
    | some _ => .ok (0, { s with fs := { s.fs with files := s.fs.files.free f } })

/-- `vfs_mkdir`. -/
def vfsMkdir (i₀ : ℤ) (fuel : ℕ) (pathname : List UInt8) (s : State) : Outcome (ℤ × State) := do
  let (result, node, s) ← vfsLookup fuel pathname none s
  if result = 1 then return (0, s)
  else
    match s.rootfs with
    | none => .error .nullPointer
    | some root => do
      let (result, _, s) ← lookupPath i₀ fuel pathname root node true s
      if result = 0 then return (0, s) else return (-1, s)

/-! ## `to_abs_path` -/

/-- `CURRENT_DIR`. -/
def currentDir : List UInt8 := [46]

/-- `PARENT_DIR`. -/
def parentDir : List UInt8 := [46, 46]

/-- The array `comps`: the strings, then NULL, and nothing stored behind it. -/
abbrev Comps : Type := List (Option (List UInt8))

/-- The string `comps[i]`. -/
def Comps.get (comps : Comps) (i : ℕ) : Outcome (List UInt8) :=
  match comps[i]? with
  | none => .error .danglingPointer
  | some none => .error .nullPointer
  | some (some name) => .ok name

/-- The inner loop of `to_abs_path` over the places from the `r`-th on, which skips blank names
and `.`. -/
def skipBlank : Comps → ℕ → Outcome ℕ
  | [], _ => .error .danglingPointer
  | none :: _, _ => .error .nullPointer
  | some name :: rest, r => do
    let order ← strcmp (cstr name) (cstr currentDir)
    if name = [] ∨ order = 0 then skipBlank rest (r + 1) else return r

/-- `w == 0 || strcmp(comps[w-1], PARENT_DIR) == 0`. -/
def topIsParent (comps : Comps) (w : ℕ) : Outcome Bool :=
  if w = 0 then .ok true
  else do
    let top ← comps.get (w - 1)
    let order ← strcmp (cstr top) (cstr parentDir)
    return decide (order = 0)

/-- One component at `comps[r]`: the array and `w` after it. -/
def translate (comps : Comps) (w r : ℕ) : Outcome (Comps × ℕ) := do
  let name ← comps.get r
  let order ← strcmp (cstr name) (cstr parentDir)
  if order = 0 then do
    let push ← topIsParent comps w
    if push then return (comps.set w (some name), w + 1)
    else return (comps.set w none, w - 1)
  else return (comps.set w (some name), w + 1)

/-- The outer loop of `to_abs_path`; `r` grows in every round. -/
def translateLoop (count : ℕ) : ℕ → Comps → ℕ → ℕ → Outcome (Comps × ℕ)
  | 0, comps, w, r => if w < count ∧ r < count then .error .outOfFuel else .ok (comps, w)
  | rounds + 1, comps, w, r =>
    if w < count ∧ r < count then do
      let r ← skipBlank (comps.drop r) r
      let (comps, w) ← translate comps w r
      translateLoop count rounds comps w (r + 1)
    else .ok (comps, w)

/-- `strcat_` to an array of `TMPFS_MAX_PATH_LEN` bytes. -/
def strcat (dest src : List UInt8) : Outcome (List UInt8) :=
  if (dest ++ src).length < tmpfsMaxPathLen then .ok (dest ++ src) else .error .outOfBounds

/-- The last loop of `to_abs_path`, from the `i`-th component on. -/
def joinLoop (comps : Comps) : ℕ → ℕ → List UInt8 → Outcome (List UInt8)
  | 0, _, absPath => .ok absPath
  | left + 1, i, absPath => do
    let absPath ← strcat absPath [slash]
    let name ← comps.get i
    let absPath ← strcat absPath name
    joinLoop comps left (i + 1) absPath

/-- `to_abs_path`, with what `abs_path` holds afterwards. It held the empty string before. -/
def toAbsPath (cwd path : List UInt8) (st : Strtok) : Outcome (ℤ × List UInt8 × Strtok) :=
  if path.head? = some slash then do
    let absPath ← strcat [] path
    return (0, absPath, st)
  else if cwd.head? ≠ some slash ∨ cwd.getLast? ≠ some slash then .ok (1, [], st)
  else do
    let untranslate ← strcat [] cwd
    let untranslate ← strcat untranslate path
    let (names, st) ← spiltStrings (vfsMaxDepth - 1) untranslate [slash] st
    let (comps, count) ← translateLoop names.length names.length (names.map some ++ [none]) 0 0
    let absPath ← joinLoop comps count 0 []
    return (0, absPath, st)

end BareMetal.Vfs
