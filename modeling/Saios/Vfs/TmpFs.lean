/-
  THE TMPFS of the VFS layer (`TmpFs` in `seed/saios/src/vfs.rs`): a table of nodes with parent and
  child links, and the working directory.

  1. **Program** — the node table and the functions of `impl TmpFs` and `impl FileSystem for TmpFs`,
     under the source's names.  An operation returns its `Result` together with the file system it
     leaves, because a `?` after a change does not undo it.

  2. **Loops** — every loop is a fold or a search over a list, except `path_for_inode`, which climbs
     parent links until it meets the root and does NOT terminate on a cycle.  `pathLoop` bounds it by
     the number of table slots plus one; `none` means that the bound was reached, and then it is
     reached with every bound (`pathLoop_none`): more steps than slots is a cycle.
-/
import Saios.Lib.Bytes
import Saios.Lib.Path
import Saios.Lib.Word

namespace Saios.Vfs

open Path

inductive FileType
  | directory
  | file
  deriving DecidableEq, Repr

structure Node where
  inode : Nat
  name : Str
  kind : FileType
  parent : Option Nat
  children : List Nat
  data : List UInt8
  deriving DecidableEq, Repr

/-- What `open_node` reports. -/
structure VNode where
  inode : Nat
  name : Str
  kind : FileType
  deriving DecidableEq, Repr

structure TmpFs where
  nodes : List (Option Node)
  root : Nat
  cwd : Nat
  deriving DecidableEq, Repr

namespace TmpFs

def rootNode : Node :=
  { inode := 1, name := ['/'], kind := .directory, parent := none, children := [], data := [] }

def new : TmpFs := { nodes := [some rootNode], root := 1, cwd := 1 }

/-! ## The node table -/

def inodeToIndex (inode : Nat) : Option Nat := if inode = 0 then none else some (inode - 1)

def node (fs : TmpFs) (inode : Nat) : Except String Node :=
  match inodeToIndex inode with
  | none => .error "invalid inode"
  | some idx =>
      match fs.nodes[idx]? with
      | some (some n) => .ok n
      | _ => .error "node missing"

/-- `node_mut`, with the change made through the reference. -/
def modifyNode (fs : TmpFs) (inode : Nat) (f : Node → Node) : Except String TmpFs :=
  match fs.node inode with
  | .error e => .error e
  | .ok n => .ok { fs with nodes := fs.nodes.set (inode - 1) (some (f n)) }

def nextInode (fs : TmpFs) : Nat := fs.nodes.length + 1

/-! ## Resolving paths -/

def pathParts (path : Str) : List Str := components path

def lookupChildByName (fs : TmpFs) (dirInode : Nat) (name : Str) : Option Nat :=
  match fs.node dirInode with
  | .error _ => none
  | .ok dir =>
      if dir.kind ≠ .directory then none
      else
        dir.children.find? fun child =>
          match fs.node child with
          | .ok n => n.name == name
          | .error _ => false

/-- One component of a path. -/
def resolveStep (fs : TmpFs) (current : Nat) (part : Str) : Except String Nat :=
  if part = ['.'] then .ok current
  else if part = ['.', '.'] then
    match fs.node current with
    | .error e => .error e
    | .ok n => .ok (n.parent.getD current)
  else
    match fs.lookupChildByName current part with
    | none => .error "path not found"
    | some child => .ok child

def resolveFrom (fs : TmpFs) (start : Nat) (path : Str) : Except String Nat :=
  if path = ['/'] then .ok fs.root
  else
    let current := if path.head? = some '/' then fs.root else start
    (pathParts path).foldlM fs.resolveStep current

def resolve (fs : TmpFs) (path : Str) : Except String Nat := fs.resolveFrom fs.cwd path

/-- The path string of the components before the last one. -/
def parentPath (path : Str) (parts : List Str) : Str :=
  if path.head? = some '/' then if parts = [] then ['/'] else '/' :: join parts else join parts

def resolveParentAndName (fs : TmpFs) (path : Str) : Except String (Nat × Str) :=
  let parts := pathParts path
  match parts.getLast? with
  | none => .error "missing name"
  | some name =>
      if name = ['.'] ∨ name = ['.', '.'] then .error "invalid name"
      else
        let parent := parentPath path parts.dropLast
        if parent = [] then .ok (fs.cwd, name)
        else
          match fs.resolve parent with
          | .error e => .error e
          | .ok parent => .ok (parent, name)

/-! ## Changing the tree -/

def insertNode (fs : TmpFs) (parentInode : Nat) (name : Str) (kind : FileType) :
    Except String Nat × TmpFs :=
  match fs.node parentInode with
  | .error e => (.error e, fs)
  | .ok parent =>
      if parent.kind ≠ .directory then (.error "parent is not a directory", fs)
      else if (fs.lookupChildByName parentInode name).isSome then (.error "already exists", fs)
      else
        let inode := fs.nextInode
        let child : Node :=
          { inode := inode, name := name, kind := kind, parent := some parentInode, children := [],
            data := [] }
        let fs := { fs with nodes := fs.nodes ++ [some child] }
        match fs.modifyNode parentInode (fun n => { n with children := n.children ++ [inode] }) with
        | .error e => (.error e, fs)
        | .ok fs => (.ok inode, fs)

/-- The end of `remove_inode`: empty the slot, and leave a removed working directory for the root. -/
def clearSlot (fs : TmpFs) (inode : Nat) : TmpFs :=
  { fs with
    nodes := fs.nodes.set (inode - 1) none
    cwd := if fs.cwd = inode then fs.root else fs.cwd }

def removeInode (fs : TmpFs) (inode : Nat) : Except String Unit × TmpFs :=
  if inode = fs.root then (.error "cannot remove root", fs)
  else
    match fs.node inode with
    | .error e => (.error e, fs)
    | .ok node =>
        if node.kind = .directory ∧ node.children ≠ [] then (.error "directory not empty", fs)
        else
          match node.parent with
          | none => (.ok (), fs.clearSlot inode)
          | some parentInode =>
              match fs.modifyNode parentInode
                  (fun n => { n with children := n.children.filter (· ≠ inode) }) with
              | .error e => (.error e, fs)
              | .ok fs => (.ok (), fs.clearSlot inode)

def renamePath (fs : TmpFs) (source target : Str) : Except String Unit × TmpFs :=
  match fs.resolve source with
  | .error e => (.error e, fs)
  | .ok inode =>
      if inode = fs.root then (.error "cannot rename root", fs)
      else
        match fs.resolveParentAndName target with
        | .error e => (.error e, fs)
        | .ok (newParent, newName) =>
            if (fs.lookupChildByName newParent newName).isSome then (.error "destination exists", fs)
            else
              match fs.node inode with
              | .error e => (.error e, fs)
              | .ok node =>
                  match node.parent with
                  | none => (.error "missing parent", fs)
                  | some oldParent =>
                      match fs.modifyNode oldParent
                          (fun n => { n with children := n.children.filter (· ≠ inode) }) with
                      | .error e => (.error e, fs)
                      | .ok fs =>
                          match fs.modifyNode newParent
                              (fun n => { n with children := n.children ++ [inode] }) with
                          | .error e => (.error e, fs)
                          | .ok fs =>
                              match fs.modifyNode inode
                                  (fun n => { n with name := newName, parent := some newParent }) with
                              | .error e => (.error e, fs)
                              | .ok fs => (.ok (), fs)

/-! ## Paths of nodes -/

/-- The loop of `path_for_inode`: the names met on the way up. -/
def pathLoop (fs : TmpFs) : Nat → Nat → List Str → Option (List Str)
  | 0, _, _ => none
  | fuel + 1, current, parts =>
      match fs.node current with
      | .error _ => some parts
      | .ok node =>
          if current = fs.root then some parts
          else
            let parts := parts ++ [node.name]
            let current := node.parent.getD fs.root
            if current = fs.root then some parts else pathLoop fs fuel current parts

/-- `none`: the loop does not end. -/
def pathForInode (fs : TmpFs) (inode : Nat) : Option Str :=
  if inode = fs.root then some ['/']
  else (fs.pathLoop (fs.nodes.length + 1) inode []).map fun parts => '/' :: join parts.reverse

def cwdPath (fs : TmpFs) : Option Str := fs.pathForInode fs.cwd

def normalizedPath (fs : TmpFs) (path : Str) : Option Str := do
  let start ← if path.head? = some '/' then some [] else fs.cwdPath.map components
  let parts := resolveDots start (pathParts path)
  some (if parts = [] then ['/'] else '/' :: join parts)

/-! ## File contents -/

def readInodeRange (fs : TmpFs) (inode offset maxLen : Nat) : Except String (List UInt8) :=
  match fs.node inode with
  | .error e => .error e
  | .ok node =>
      if node.kind ≠ .file then .error "not a file"
      else if node.data.length ≤ offset then .ok []
      else
        let stop := min node.data.length (Word.sadd offset maxLen)
        .ok ((node.data.drop offset).take (stop - offset))

/-- The data grown with zeros to where the write ends, with the write over it. -/
def writeData (offset : Nat) (new data : List UInt8) : List UInt8 :=
  let needLen := Word.sadd offset new.length
  Bytes.patch offset new (data ++ List.replicate (needLen - data.length) 0)

def writeInodeAt (fs : TmpFs) (inode offset : Nat) (data : List UInt8) : Except String Nat × TmpFs :=
  match fs.node inode with
  | .error e => (.error e, fs)
  | .ok node =>
      if node.kind ≠ .file then (.error "not a file", fs)
      else
        match fs.modifyNode inode (fun n => { n with data := writeData offset data n.data }) with
        | .error e => (.error e, fs)
        | .ok fs => (.ok data.length, fs)

def truncateInode (fs : TmpFs) (inode : Nat) : Except String Unit × TmpFs :=
  match fs.node inode with
  | .error e => (.error e, fs)
  | .ok node =>
      if node.kind ≠ .file then (.error "not a file", fs)
      else
        match fs.modifyNode inode (fun n => { n with data := [] }) with
        | .error e => (.error e, fs)
        | .ok fs => (.ok (), fs)

def inodeLen (fs : TmpFs) (inode : Nat) : Except String Nat :=
  match fs.node inode with
  | .error e => .error e
  | .ok node => if node.kind ≠ .file then .error "not a file" else .ok node.data.length

/-! ## `impl FileSystem for TmpFs` -/

/-- `create` and `mkdir`. -/
def createAs (fs : TmpFs) (path : Str) (kind : FileType) : Except String Unit × TmpFs :=
  match fs.resolveParentAndName path with
  | .error e => (.error e, fs)
  | .ok (parent, name) =>
      match fs.insertNode parent name kind with
      | (.error e, fs) => (.error e, fs)
      | (.ok _, fs) => (.ok (), fs)

def create (fs : TmpFs) (path : Str) : Except String Unit × TmpFs := fs.createAs path .file

def mkdir (fs : TmpFs) (path : Str) : Except String Unit × TmpFs := fs.createAs path .directory

def openNode (fs : TmpFs) (path : Str) : Except String VNode :=
  match fs.resolve path with
  | .error e => .error e
  | .ok inode =>
      match fs.node inode with
      | .error e => .error e
      | .ok node => .ok { inode := node.inode, name := node.name, kind := node.kind }

def remove (fs : TmpFs) (path : Str) : Except String Unit × TmpFs :=
  match fs.resolve path with
  | .error e => (.error e, fs)
  | .ok inode => fs.removeInode inode

/-- The names of a directory's children, in the order of the list; a missing child is an error. -/
def childNames (fs : TmpFs) : List Nat → Except String (List Str)
  | [] => .ok []
  | child :: rest =>
      match fs.node child with
      | .error e => .error e
      | .ok node =>
          match fs.childNames rest with
          | .error e => .error e
          | .ok names => .ok (node.name :: names)

def readdir (fs : TmpFs) (path : Str) : Except String (List Str) :=
  match (if path = [] then .ok fs.cwd else fs.resolve path) with
  | .error e => .error e
  | .ok inode =>
      match fs.node inode with
      | .error e => .error e
      | .ok node =>
          if node.kind ≠ .directory then .error "not a directory"
          else
            match fs.childNames node.children with
            | .error e => .error e
            | .ok names => .ok (sortNames names)

end TmpFs

end Saios.Vfs
