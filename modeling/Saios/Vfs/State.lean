/-
  THE VFS LAYER (`seed/saios/src/vfs.rs`): the tmpfs, the descriptor table and the mount records, in
  front of the storage driver.

  1. **State** — `World`: the VFS state, the storage state behind it, and what the calls read from
     other parts of the kernel (`Env`: the virtual `/sys` files and the names of registered devices).
     The event log that some calls append to is not modelled; nothing here reads it.

  2. **Calls** — one function per public function, under the source's names.  A call first normalizes
     its path, which climbs from the working directory to the root; `none` is a call that does not
     return because that climb does not end.  Otherwise a call returns its `Result` and the world it
     leaves.

  3. **Runs** — `Call` / `exec`, and `step` for sequences of calls.
-/
import Saios.Storage.State
import Saios.Vfs.TmpFs

namespace Saios.Vfs

open Path

/-! ## State -/

inductive SeekFrom
  | start (pos : Nat)
  | current (delta : Int)
  | stop (delta : Int)
  deriving DecidableEq, Repr

structure OpenOptions where
  read : Bool
  write : Bool
  create : Bool
  truncate : Bool
  append : Bool
  deriving DecidableEq, Repr

def OpenOptions.readOnly : OpenOptions :=
  { read := true, write := false, create := false, truncate := false, append := false }

def OpenOptions.writeOnlyCreate : OpenOptions :=
  { read := false, write := true, create := true, truncate := true, append := false }

structure OpenFile where
  inode : Nat
  offset : Nat
  readable : Bool
  writable : Bool
  append : Bool
  deriving DecidableEq, Repr

structure MountRecord where
  path : Str
  fsName : Str
  readOnly : Bool
  deriving DecidableEq, Repr

structure VfsState where
  fs : TmpFs
  openFiles : List (Option OpenFile)
  mounts : List MountRecord
  deriving DecidableEq, Repr

/-- What the VFS reads from other parts of the kernel. -/
structure Env where
  sysReaddir : Str → Option (List Str)
  sysRead : Str → Option (List Str)
  devices : List Str

structure World where
  vfs : VfsState
  storage : Storage.StorageState
  env : Env

def World.setFs (w : World) (fs : TmpFs) : World := { w with vfs := { w.vfs with fs := fs } }

def World.setOpenFiles (w : World) (files : List (Option OpenFile)) : World :=
  { w with vfs := { w.vfs with openFiles := files } }

/-! ## The seeded tree -/

def seedRoots : List Str :=
  ["/system", "/dev", "/proc", "/sys", "/home", "/tmp", "/var", "/boot", "/bin", "/usr", "/etc",
    "/mnt"].map String.toList

def seedSysNodes : List Str :=
  ["/sys/devices", "/sys/drivers", "/sys/memory", "/sys/scheduler", "/sys/storage", "/sys/network",
    "/sys/services"].map String.toList

def seedUserPrograms : List Str :=
  ["hello", "true", "false", "argc", "env", "fail", "ls", "cat", "cp", "mv", "rm", "mkdir", "ps",
    "kill", "top", "uname", "calc", "stress", "cc"].map String.toList

/-- The result of each operation is ignored. -/
def mkdirAll (fs : TmpFs) (paths : List Str) : TmpFs := paths.foldl (fun fs path => (fs.mkdir path).2) fs

def createAll (fs : TmpFs) (paths : List Str) : TmpFs :=
  paths.foldl (fun fs path => (fs.create path).2) fs

def seedStandardTree (fs : TmpFs) : TmpFs :=
  let fs := mkdirAll fs seedRoots
  let fs := mkdirAll fs seedSysNodes
  createAll fs (seedUserPrograms.map fun name => "/bin/".toList ++ name)

def VfsState.new : VfsState :=
  { fs := seedStandardTree TmpFs.new
    openFiles := []
    mounts := [{ path := ['/'], fsName := "tmpfs".toList, readOnly := false }] }

/-- Nodes `first`, `first + 1`, … with these names in one directory. -/
def seededIn (kind : FileType) (parent first : Nat) (children : Nat → List Nat) (names : List Str) :
    List (Option Node) :=
  (names.zipIdx first).map fun x => some ⟨x.2, x.1, kind, some parent, children x.2, []⟩

/-- The seeded tree, node by node. -/
def seededNodes : List (Option Node) :=
  some { TmpFs.rootNode with children := List.range' 2 12 } ::
    (seededIn .directory 1 2
      (fun i => if i = 5 then List.range' 14 7 else if i = 10 then List.range' 21 19 else [])
      [['s', 'y', 's', 't', 'e', 'm'], ['d', 'e', 'v'], ['p', 'r', 'o', 'c'], ['s', 'y', 's'],
      ['h', 'o', 'm', 'e'], ['t', 'm', 'p'], ['v', 'a', 'r'], ['b', 'o', 'o', 't'], ['b', 'i', 'n'],
      ['u', 's', 'r'], ['e', 't', 'c'], ['m', 'n', 't']] ++
    seededIn .directory 5 14 (fun _ => [])
      [['d', 'e', 'v', 'i', 'c', 'e', 's'], ['d', 'r', 'i', 'v', 'e', 'r', 's'],
      ['m', 'e', 'm', 'o', 'r', 'y'], ['s', 'c', 'h', 'e', 'd', 'u', 'l', 'e', 'r'],
      ['s', 't', 'o', 'r', 'a', 'g', 'e'], ['n', 'e', 't', 'w', 'o', 'r', 'k'],
      ['s', 'e', 'r', 'v', 'i', 'c', 'e', 's']] ++
    seededIn .file 10 21 (fun _ => [])
      [['h', 'e', 'l', 'l', 'o'], ['t', 'r', 'u', 'e'], ['f', 'a', 'l', 's', 'e'], ['a', 'r', 'g', 'c'],
      ['e', 'n', 'v'], ['f', 'a', 'i', 'l'], ['l', 's'], ['c', 'a', 't'], ['c', 'p'], ['m', 'v'],
      ['r', 'm'], ['m', 'k', 'd', 'i', 'r'], ['p', 's'], ['k', 'i', 'l', 'l'], ['t', 'o', 'p'],
      ['u', 'n', 'a', 'm', 'e'], ['c', 'a', 'l', 'c'], ['s', 't', 'r', 'e', 's', 's'], ['c', 'c']])

/-- Seeding makes exactly these nodes. -/
theorem VfsState.new_eq : VfsState.new = ⟨⟨seededNodes, 1, 1⟩, [], [⟨['/'], "tmpfs".toList, false⟩]⟩ := by
  decide +kernel

/-! ## Descriptors -/

def firstFree (files : List (Option OpenFile)) : Option Nat := files.findIdx? Option.isNone

/-- The descriptor is the index as a `u32`. -/
def allocFd (files : List (Option OpenFile)) (file : OpenFile) : Nat × List (Option OpenFile) :=
  match firstFree files with
  | some idx => (idx % 2 ^ 32, files.set idx (some file))
  | none => (files.length % 2 ^ 32, files ++ [some file])

def getOpenFile (files : List (Option OpenFile)) (fd : Nat) : Except String OpenFile :=
  match files[fd]? with
  | some (some file) => .ok file
  | _ => .error "bad file descriptor"

def closeFd (files : List (Option OpenFile)) (fd : Nat) :
    Except String Unit × List (Option OpenFile) :=
  match files[fd]? with
  | some (some _) => (.ok (), files.set fd none)
  | _ => (.error "bad file descriptor", files)

def setOffset (files : List (Option OpenFile)) (fd offset : Nat) : List (Option OpenFile) :=
  files.modify fd (Option.map fun file => { file with offset := offset })

def invalidateInodeDescriptors (files : List (Option OpenFile)) (inode : Nat) :
    List (Option OpenFile) :=
  files.map fun slot =>
    match slot with
    | some file => if file.inode = inode then none else some file
    | none => none

/-! ## Which backend a path belongs to -/

def isSysPath (path : Str) : Bool :=
  path == "/sys".toList || "/sys/".toList.isPrefixOf path

def isStorageBacked (w : World) (path : Str) : Bool :=
  match Storage.mountedVolumeForPath w.storage path with
  | none => false
  | some vol => vol.name != "tmpfs".toList

def storageNodeName (path : Str) : Str := (components path).getLast?.getD ['/']

/-- FNV-1a over the UTF-8 bytes. -/
def storageInode (path : Str) : Nat :=
  (Bytes.utf8 path).foldl (fun h b => (Nat.xor h b.toNat * 1099511628211) % 2 ^ 64) 1469598103934665603

/-- The result of a storage call, in the world. -/
def World.viaStorage {α : Type} (w : World) (r : Except String α × Storage.StorageState) :
    Except String α × World :=
  (r.1, { w with storage := r.2 })

/-- The result of a tmpfs operation, in the world. -/
def World.viaFs {α : Type} (w : World) (r : Except String α × TmpFs) : Except String α × World :=
  (r.1, w.setFs r.2)

/-! ## Calls -/

/-- `mkdir` and `touch`: the storage call and the tmpfs operation to use. -/
def createCall (storageCall : Storage.StorageState → Str → Except String Unit × Storage.StorageState)
    (fsCall : TmpFs → Str → Except String Unit × TmpFs) (w : World) (path : Str) :
    Option (Except String Unit × World) := do
  let abs ← w.vfs.fs.normalizedPath path
  if isSysPath abs then some (.error "read-only virtual path", w)
  else if isStorageBacked w abs then some (w.viaStorage (storageCall w.storage abs))
  else some (w.viaFs (fsCall w.vfs.fs path))

def mkdir : World → Str → Option (Except String Unit × World) :=
  createCall Storage.fsMkdir TmpFs.mkdir

def touch : World → Str → Option (Except String Unit × World) :=
  createCall Storage.fsCreate TmpFs.create

def mount (w : World) (path fsName : Str) (readOnly : Bool) :
    Option (Except String Unit × World) := do
  let abs ← w.vfs.fs.normalizedPath path
  match w.vfs.fs.resolve abs with
  | .error e => some (.error e, w)
  | .ok inode =>
      match w.vfs.fs.node inode with
      | .error e => some (.error e, w)
      | .ok node =>
          if node.kind ≠ .directory then some (.error "mount target is not a directory", w)
          else if w.vfs.mounts.any (fun m => m.path == abs) then some (.error "already mounted", w)
          else
            let mounts := w.vfs.mounts ++ [{ path := abs, fsName := fsName, readOnly := readOnly }]
            some (.ok (), { w with vfs := { w.vfs with mounts := mounts } })

def umount (w : World) (path : Str) : Option (Except String Unit × World) := do
  let abs ← w.vfs.fs.normalizedPath path
  if abs = ['/'] then some (.error "cannot unmount root filesystem", w)
  else
    let mounts := w.vfs.mounts.filter fun m => m.path != abs
    let w' := { w with vfs := { w.vfs with mounts := mounts } }
    if mounts.length = w.vfs.mounts.length then some (.error "not mounted", w')
    else some (.ok (), w')

/-- The truncation that `open` does. -/
def truncateFor (w : World) (inode : Nat) (options : OpenOptions) : Except String Unit × World :=
  if options.truncate then
    if options.write = false then (.error "truncate requires write access", w)
    else w.viaFs (w.vfs.fs.truncateInode inode)
  else (.ok (), w)

/-- The end of `open`: truncate, place the offset, take a descriptor. -/
def openInode (w : World) (inode : Nat) (options : OpenOptions) : Except String Nat × World :=
  match w.vfs.fs.node inode with
  | .error e => (.error e, w)
  | .ok node =>
      if node.kind ≠ .file then (.error "not a file", w)
      else
        match truncateFor w inode options with
        | (.error e, w) => (.error e, w)
        | (.ok (), w) =>
            match (if options.append then w.vfs.fs.inodeLen inode else .ok 0) with
            | .error e => (.error e, w)
            | .ok offset =>
                let file : OpenFile :=
                  { inode := inode, offset := offset, readable := options.read,
                    writable := options.write, append := options.append }
                let r := allocFd w.vfs.openFiles file
                (.ok r.1, w.setOpenFiles r.2)

/-- `resolve(path).is_err()`. -/
def isMissing (fs : TmpFs) (path : Str) : Bool :=
  match fs.resolve path with
  | .error _ => true
  | .ok _ => false

/-- The creation that `open` does. -/
def createFor (w : World) (path abs : Str) (options : OpenOptions) : Except String Unit × World :=
  if options.create ∧ isSysPath abs = false ∧ isMissing w.vfs.fs path then
    w.viaFs (w.vfs.fs.create path)
  else (.ok (), w)

def openFile (w : World) (path : Str) (options : OpenOptions) :
    Option (Except String Nat × World) := do
  let abs ← w.vfs.fs.normalizedPath path
  if options.read = false ∧ options.write = false then
    some (.error "open requires read or write access", w)
  else if isSysPath abs ∧ (options.write || options.create || options.truncate || options.append) then
    some (.error "read-only virtual path", w)
  else
    match createFor w path abs options with
    | (.error e, w) => some (.error e, w)
    | (.ok (), w) =>
        match w.vfs.fs.resolve path with
        | .error e => some (.error e, w)
        | .ok inode => some (openInode w inode options)

def close (w : World) (fd : Nat) : Except String Unit × World :=
  let r := closeFd w.vfs.openFiles fd
  (r.1, w.setOpenFiles r.2)

def read (w : World) (fd maxLen : Nat) : Except String (List UInt8) × World :=
  match getOpenFile w.vfs.openFiles fd with
  | .error e => (.error e, w)
  | .ok file =>
      if file.readable = false then (.error "file descriptor is not readable", w)
      else
        match w.vfs.fs.readInodeRange file.inode file.offset maxLen with
        | .error e => (.error e, w)
        | .ok data =>
            (.ok data,
              w.setOpenFiles (setOffset w.vfs.openFiles fd (Word.sadd file.offset data.length)))

def write (w : World) (fd : Nat) (data : List UInt8) : Except String Nat × World :=
  match getOpenFile w.vfs.openFiles fd with
  | .error e => (.error e, w)
  | .ok file =>
      if file.writable = false then (.error "file descriptor is not writable", w)
      else
        match (if file.append then w.vfs.fs.inodeLen file.inode else .ok file.offset) with
        | .error e => (.error e, w)
        | .ok offset =>
            match w.viaFs (w.vfs.fs.writeInodeAt file.inode offset data) with
            | (.error e, w) => (.error e, w)
            | (.ok written, w) =>
                (.ok written, w.setOpenFiles (setOffset w.vfs.openFiles fd (Word.sadd offset written)))

/-- A `usize` as an `isize`. -/
def toIsize (n : Nat) : Int := if n % 2 ^ 64 < 2 ^ 63 then (n % 2 ^ 64 : Nat) else (n % 2 ^ 64 : Nat) - 2 ^ 64

/-- `isize::saturating_add`. -/
def isizeSadd (a b : Int) : Int := max (-2 ^ 63) (min (2 ^ 63 - 1) (a + b))

def seekTarget (current : Nat) (len : Int) : SeekFrom → Int
  | .start pos => toIsize pos
  | .current delta => isizeSadd (toIsize current) delta
  | .stop delta => isizeSadd len delta

def seek (w : World) (fd : Nat) (origin : SeekFrom) : Except String Nat × World :=
  match getOpenFile w.vfs.openFiles fd with
  | .error e => (.error e, w)
  | .ok file =>
      match w.vfs.fs.inodeLen file.inode with
      | .error e => (.error e, w)
      | .ok size =>
          let len := toIsize size
          let target := seekTarget file.offset len origin
          let clamped := if target < 0 then 0 else if len < target then len.toNat else target.toNat
          (.ok clamped, w.setOpenFiles (setOffset w.vfs.openFiles fd clamped))

/-- The device names shown in `/dev`. -/
def deviceEntries (devices : List Str) : List Str :=
  devices.filterMap fun name =>
    if "/dev/".toList.isPrefixOf name then some (name.drop 5) else none

def ls (w : World) (path : Option Str) : Option (Except String (List Str) × World) := do
  let req := path.getD ['.']
  let abs ← w.vfs.fs.normalizedPath req
  if isSysPath abs then
    match w.env.sysReaddir abs with
    | some names => some (.ok names, w)
    | none => some (.error "not a directory", w)
  else if isStorageBacked w abs then some (w.viaStorage (Storage.fsReaddir w.storage abs))
  else if abs = "/dev".toList then
    match w.vfs.fs.readdir req with
    | .error e => some (.error e, w)
    | .ok names =>
        some (.ok ((sortNames (names ++ deviceEntries w.env.devices)).destutter (· ≠ ·)), w)
  else some (w.vfs.fs.readdir req, w)

def readPath (w : World) (path : Str) : Option (Except String (List UInt8) × World) := do
  let abs ← w.vfs.fs.normalizedPath path
  if isSysPath abs then
    match w.env.sysRead abs with
    | some lines => some (.ok (Bytes.utf8 (['\n'].intercalate lines)), w)
    | none => some (.error "not a file", w)
  else if isStorageBacked w abs then some (w.viaStorage (Storage.fsRead w.storage abs))
  else
    match ← openFile w path .readOnly with
    | (.error e, w) => some (.error e, w)
    | (.ok fd, w) =>
        let r := read w fd (2 ^ 64 - 1)
        let c := close r.2 fd
        match r.1, c.1 with
        | .error e, _ => some (.error e, c.2)
        | .ok _, .error e => some (.error e, c.2)
        | .ok bytes, .ok () => some (.ok bytes, c.2)

def unlink (w : World) (path : Str) : Option (Except String Unit × World) := do
  let abs ← w.vfs.fs.normalizedPath path
  if isSysPath abs then some (.error "read-only virtual path", w)
  else if isStorageBacked w abs then some (w.viaStorage (Storage.fsDelete w.storage abs))
  else
    match w.vfs.fs.resolve path with
    | .error e => some (.error e, w)
    | .ok inode =>
        let w := w.setOpenFiles (invalidateInodeDescriptors w.vfs.openFiles inode)
        some (w.viaFs (w.vfs.fs.remove path))

def rename (w : World) (source target : Str) : Option (Except String Unit × World) := do
  let absFrom ← w.vfs.fs.normalizedPath source
  let absTo ← w.vfs.fs.normalizedPath target
  if isSysPath absFrom || isSysPath absTo then some (.error "read-only virtual path", w)
  else if isStorageBacked w absFrom || isStorageBacked w absTo then
    some (w.viaStorage (Storage.fsRename w.storage absFrom absTo))
  else some (w.viaFs (w.vfs.fs.renamePath source target))

def cd (w : World) (path : Str) : Except String Unit × World :=
  match w.vfs.fs.resolve path with
  | .error e => (.error e, w)
  | .ok inode =>
      match w.vfs.fs.node inode with
      | .error e => (.error e, w)
      | .ok node =>
          if node.kind ≠ .directory then (.error "not a directory", w)
          else (.ok (), w.setFs { w.vfs.fs with cwd := inode })

def pwd (w : World) : Option Str := w.vfs.fs.cwdPath

def writePath (w : World) (path : Str) (data : List UInt8) :
    Option (Except String Unit × World) := do
  let abs ← w.vfs.fs.normalizedPath path
  if isStorageBacked w abs then some (w.viaStorage (Storage.fsWrite w.storage abs data))
  else
    match ← openFile w path .writeOnlyCreate with
    | (.error e, w) => some (.error e, w)
    | (.ok fd, w) =>
        let r := write w fd data
        let c := close r.2 fd
        match r.1 with
        | .error e => some (.error e, c.2)
        | .ok _ => some c

def openNode (w : World) (path : Str) : Option (Except String VNode × World) := do
  let abs ← w.vfs.fs.normalizedPath path
  if isStorageBacked w abs then
    match Storage.fsStat w.storage abs with
    | (.error e, st) => some (.error e, { w with storage := st })
    | (.ok stat, st) =>
        let kind := match stat.kind with
          | .file => FileType.file
          | .directory => FileType.directory
        some (.ok { inode := storageInode abs, name := storageNodeName abs, kind := kind },
          { w with storage := st })
  else some (w.vfs.fs.openNode path, w)

/-! ## Runs -/

inductive Call
  | mkdir (path : Str)
  | touch (path : Str)
  | mount (path fsName : Str) (readOnly : Bool)
  | umount (path : Str)
  | openFile (path : Str) (options : OpenOptions)
  | close (fd : Nat)
  | read (fd maxLen : Nat)
  | write (fd : Nat) (data : List UInt8)
  | seek (fd : Nat) (origin : SeekFrom)
  | ls (path : Option Str)
  | readPath (path : Str)
  | unlink (path : Str)
  | rename (source target : Str)
  | cd (path : Str)
  | pwd
  | writePath (path : Str) (data : List UInt8)
  | openNode (path : Str)
  deriving DecidableEq

/-- What a call returns. -/
inductive Reply
  | done
  | number (n : Nat)
  | bytes (data : List UInt8)
  | names (names : List Str)
  | path (path : Str)
  | node (node : VNode)
  | failed (message : String)
  deriving DecidableEq

def Reply.ofExcept {α : Type} (ok : α → Reply) : Except String α → Reply
  | .ok a => ok a
  | .error e => .failed e

def reply {α : Type} (ok : α → Reply) (r : Except String α × World) : Reply × World :=
  (Reply.ofExcept ok r.1, r.2)

/-- One call; `none` when it does not return. -/
def exec (w : World) : Call → Option (Reply × World)
  | .mkdir path => (mkdir w path).map (reply fun _ => .done)
  | .touch path => (touch w path).map (reply fun _ => .done)
  | .mount path fsName readOnly => (mount w path fsName readOnly).map (reply fun _ => .done)
  | .umount path => (umount w path).map (reply fun _ => .done)
  | .openFile path options => (openFile w path options).map (reply .number)
  | .close fd => some (reply (fun _ => .done) (close w fd))
  | .read fd maxLen => some (reply .bytes (read w fd maxLen))
  | .write fd data => some (reply .number (write w fd data))
  | .seek fd origin => some (reply .number (seek w fd origin))
  | .ls path => (ls w path).map (reply .names)
  | .readPath path => (readPath w path).map (reply .bytes)
  | .unlink path => (unlink w path).map (reply fun _ => .done)
  | .rename source target => (rename w source target).map (reply fun _ => .done)
  | .cd path => some (reply (fun _ => .done) (cd w path))
  | .pwd => (pwd w).map fun path => (.path path, w)
  | .writePath path data => (writePath w path data).map (reply fun _ => .done)
  | .openNode path => (openNode w path).map (reply .node)

/-- The world after a call, when the calls before it returned. -/
def step (w : Option World) (call : Call) : Option World := w.bind fun w => (exec w call).map Prod.snd

end Saios.Vfs
