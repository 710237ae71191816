/-
  SAIFS (`seed/saios/src/saifs.rs`): the VFS as a provider, the namespace manager, and handles.

  1. **Providers** — the VFS provider works on the VFS's own state.  Any other provider is given by what it does
     to a state `τ` that the other providers share; looking a path up is a query.

  2. **The namespace manager** — every function resolves the path first and then asks the provider of the mount,
     at the path below the mount.

  3. **Handles** — a handle keeps both paths; `read` and `write` use the ABSOLUTE one, with the VFS.

  A call of the VFS that does not return is `none`, as in the model of the VFS.  What `init` does to the object
  manager and to the VFS was done at boot.
-/
import Saios.Saifs.State
import Saios.Vfs.State

namespace Saios

def Vfs.OpenOptions.readWriteCreate : Vfs.OpenOptions :=
  { read := true, write := true, create := true, truncate := false, append := false }

namespace Saifs

open Path Vfs

inductive SaifsNodeKind
  | file
  | directory
  | object
  | virtual
  deriving DecidableEq, Repr

inductive CreateKind
  | file
  | directory
  deriving DecidableEq, Repr

structure LookupResult where
  objectId : Option Nat
  kind : SaifsNodeKind
  deriving DecidableEq, Repr

structure DirEntry where
  name : Str
  kind : SaifsNodeKind
  deriving DecidableEq, Repr

/-- A provider other than the VFS. -/
structure NamespaceProvider (τ : Type) where
  name : Str
  lookup : Str → τ → Except SaifsError LookupResult
  enumerate : Str → τ → Except SaifsError (List DirEntry)
  create : Str → CreateKind → τ → Except SaifsError Nat × τ
  remove : Str → τ → Except SaifsError Unit × τ

inductive Provider (τ : Type)
  | vfs
  | other (provider : NamespaceProvider τ)

def Provider.name {τ : Type} : Provider τ → Str
  | .vfs => "vfs".toList
  | .other provider => provider.name

structure SaifsHandle where
  id : Nat
  path : Str
  providerPath : Str
  objectId : Option Nat
  providerId : Nat
  kind : SaifsNodeKind
  offset : Nat
  deriving DecidableEq, Repr

/-- SAIFS and everything below it; `handles` are the handles that have been opened. -/
structure Machine (τ : Type) where
  saifs : SaifsState (Provider τ)
  world : World
  others : τ
  /-- The ids in the object manager, by path. -/
  metadata : Str → Option Nat
  handles : List SaifsHandle

def mapStrErr : String → SaifsError
  | "path not found" | "node missing" => .notFound
  | "already exists" => .alreadyExists
  | "invalid name" | "missing name" => .invalidPath
  | "not a file" | "not a directory" | "parent is not a directory" => .unsupportedOperation
  | "cannot remove root" | "directory not empty" => .busy
  | "invalid inode" => .corrupt
  | "read-only virtual path" => .accessDenied
  | _ => .internal

/-! ## The VFS provider -/

def vfsLookup (metadata : Str → Option Nat) (w : World) (path : Str) :
    Option (Except SaifsError LookupResult × World) :=
  let path := normalizePath path
  if isSysPath path ∧ (metadata path).isSome then some (.ok ⟨metadata path, .object⟩, w)
  else if isSysPath path ∧ ((w.env.sysReaddir path).isSome ∨ (w.env.sysRead path).isSome) then
    some (.ok ⟨none, .virtual⟩, w)
  else
    (openNode w path).map fun r =>
      ((r.1.mapError mapStrErr).map fun node =>
        match node.kind with
        | .file => ⟨metadata path, .file⟩
        | .directory => ⟨metadata path, .directory⟩, r.2)

def vfsEnumerate (w : World) (path : Str) : Option (Except SaifsError (List DirEntry) × World) :=
  (Vfs.ls w (some (normalizePath path))).map fun r =>
    ((r.1.mapError mapStrErr).map fun names => names.map fun name => ⟨name, .virtual⟩, r.2)

def vfsCreate (metadata : Str → Option Nat) (w : World) (path : Str) (kind : CreateKind) :
    Option (Except SaifsError Nat × World) :=
  let path := normalizePath path
  let made := match kind with
    | .file => Vfs.touch w path
    | .directory => Vfs.mkdir w path
  made.map fun r => ((r.1.mapError mapStrErr).map fun _ => (metadata path).getD 0, r.2)

def vfsRemove (w : World) (path : Str) : Option (Except SaifsError Unit × World) :=
  (Vfs.unlink w (normalizePath path)).map fun r => (r.1.mapError mapStrErr, r.2)

section

variable {τ : Type}

/-- The answer of the VFS, in the machine. -/
def Machine.viaVfs {α : Type} (m : Machine τ) (r : Option (Except SaifsError α × World)) :
    Option (Except SaifsError α × Machine τ) :=
  r.map fun r => (r.1, { m with world := r.2 })

/-- The answer of another provider, in the machine. -/
def Machine.viaOther {α : Type} (m : Machine τ) (r : Except SaifsError α × τ) :
    Option (Except SaifsError α × Machine τ) :=
  some (r.1, { m with others := r.2 })

def Provider.lookup (m : Machine τ) (path : Str) : Provider τ → Option (Except SaifsError LookupResult × Machine τ)
  | .vfs => m.viaVfs (vfsLookup m.metadata m.world path)
  | .other provider => some (provider.lookup path m.others, m)

def Provider.enumerate (m : Machine τ) (path : Str) :
    Provider τ → Option (Except SaifsError (List DirEntry) × Machine τ)
  | .vfs => m.viaVfs (vfsEnumerate m.world path)
  | .other provider => some (provider.enumerate path m.others, m)

def Provider.create (m : Machine τ) (path : Str) (kind : CreateKind) :
    Provider τ → Option (Except SaifsError Nat × Machine τ)
  | .vfs => m.viaVfs (vfsCreate m.metadata m.world path kind)
  | .other provider => m.viaOther (provider.create path kind m.others)

def Provider.remove (m : Machine τ) (path : Str) : Provider τ → Option (Except SaifsError Unit × Machine τ)
  | .vfs => m.viaVfs (vfsRemove m.world path)
  | .other provider => m.viaOther (provider.remove path m.others)

/-! ## The namespace manager -/

/-- The machine after `init`. -/
def Machine.init (m : Machine τ) : Machine τ := { m with saifs := Saifs.init Provider.name .vfs m.saifs }

def Machine.resolve (m : Machine τ) (path : Str) : Except SaifsError ResolvedPath :=
  (Saifs.resolve Provider.name .vfs m.saifs path).1

/-- Resolve, then ask the provider. -/
def Machine.ask {α : Type} (m : Machine τ) (path : Str) (refused : ResolvedPath → Bool)
    (request : Machine τ → Str → Provider τ → Option (Except SaifsError α × Machine τ)) :
    Option (Except SaifsError α × Machine τ) :=
  match m.resolve path with
  | .error e => some (.error e, m.init)
  | .ok resolved =>
      if refused resolved then some (.error .accessDenied, m.init)
      else
        match providerByIdInternal m.init.saifs resolved.provider with
        | none => some (.error .providerUnavailable, m.init)
        | some provider => request m.init resolved.providerPath provider

def Machine.lookup (m : Machine τ) (path : Str) : Option (Except SaifsError LookupResult × Machine τ) :=
  m.ask path (fun _ => false) Provider.lookup

def Machine.enumerate (m : Machine τ) (path : Str) : Option (Except SaifsError (List DirEntry) × Machine τ) :=
  m.ask path (fun _ => false) Provider.enumerate

def Machine.create (m : Machine τ) (path : Str) (kind : CreateKind) : Option (Except SaifsError Nat × Machine τ) :=
  m.ask path (·.readOnly) fun m path => Provider.create m path kind

def Machine.remove (m : Machine τ) (path : Str) : Option (Except SaifsError Unit × Machine τ) :=
  m.ask path (·.readOnly) Provider.remove

def Machine.mkdir (m : Machine τ) (path : Str) : Option (Except SaifsError Unit × Machine τ) :=
  (m.create path .directory).map fun r => (r.1.map fun _ => (), r.2)

def Machine.touch (m : Machine τ) (path : Str) : Option (Except SaifsError Unit × Machine τ) :=
  (m.create path .file).map fun r => (r.1.map fun _ => (), r.2)

def Machine.list (m : Machine τ) (path : Str) : Option (Except SaifsError (List Str) × Machine τ) :=
  (m.enumerate path).map fun r => (r.1.map fun entries => sortNames (entries.map (·.name)), r.2)

/-- `cd` does not go through the mounts. -/
def Machine.cd (m : Machine τ) (path : Str) : Except SaifsError Unit × Machine τ :=
  let r := Vfs.cd m.world (normalizePath path)
  (r.1.mapError mapStrErr, { m.init with world := r.2 })

/-! ## Handles -/

def Machine.openHandle (m : Machine τ) (path : Str) : Option (Except SaifsError SaifsHandle × Machine τ) :=
  match m.resolve path with
  | .error e => some (.error e, m.init)
  | .ok resolved =>
      (m.init.lookup resolved.absolutePath).map fun r =>
        match r with
        | (.error e, m) => (.error e, m)
        | (.ok found, m) =>
            (.ok { id := m.saifs.nextHandleId, path := resolved.absolutePath, providerPath := resolved.providerPath
                   objectId := found.objectId, providerId := resolved.provider, kind := found.kind, offset := 0 },
              { m with saifs := { m.saifs with nextHandleId := (m.saifs.nextHandleId + 1) % 2 ^ 64 } })

def SaifsHandle.read (h : SaifsHandle) (w : World) : Option (Except SaifsError (List UInt8) × World) :=
  (readPath w h.path).map fun r => (r.1.mapError mapStrErr, r.2)

/-- Seek to the handle's offset, and write. -/
def SaifsHandle.put (h : SaifsHandle) (w : World) (fd : Nat) (data : List UInt8) : Except String Nat × World :=
  match Vfs.seek w fd (.start h.offset) with
  | (.error e, w) => (.error e, w)
  | (.ok _, w) => Vfs.write w fd data

/-- The descriptor is closed whatever came before; an error of the write is reported first. -/
def SaifsHandle.putAndClose (h : SaifsHandle) (w : World) (fd : Nat) (data : List UInt8) :
    Except SaifsError Nat × World :=
  let written := h.put w fd data
  let closed := Vfs.close written.2 fd
  match written.1, closed.1 with
  | .error e, _ => (.error (mapStrErr e), closed.2)
  | .ok _, .error e => (.error (mapStrErr e), closed.2)
  | .ok n, .ok () => (.ok n, closed.2)

/-- The result, the handle and the world after the write. -/
def SaifsHandle.write (h : SaifsHandle) (w : World) (data : List UInt8) :
    Option (Except SaifsError Nat × SaifsHandle × World) :=
  (Vfs.openFile w h.path .readWriteCreate).map fun r =>
    match r with
    | (.error e, w) => (.error (mapStrErr e), h, w)
    | (.ok fd, w) =>
        match h.putAndClose w fd data with
        | (.error e, w) => (.error e, h, w)
        | (.ok n, w) => (.ok n, { h with offset := Word.sadd h.offset n }, w)

/-! ## Runs -/

inductive Action
  | create (path : Str) (kind : CreateKind)
  | remove (path : Str)
  | mkdir (path : Str)
  | touch (path : Str)
  | openHandle (path : Str)
  | write (handle : Nat) (data : List UInt8)

/-- One action; `none` when it does not return. -/
def Machine.act (m : Machine τ) : Action → Option (Machine τ)
  | .create path kind => (m.create path kind).map Prod.snd
  | .remove path => (m.remove path).map Prod.snd
  | .mkdir path => (m.mkdir path).map Prod.snd
  | .touch path => (m.touch path).map Prod.snd
  | .openHandle path =>
      (m.openHandle path).map fun r =>
        match r with
        | (.error _, m) => m
        | (.ok h, m) => { m with handles := m.handles ++ [h] }
  | .write k data =>
      match m.handles[k]? with
      | none => some m
      | some h => (h.write m.world data).map fun r => { m with handles := m.handles.set k r.2.1, world := r.2.2 }

def actStep (m : Option (Machine τ)) (action : Action) : Option (Machine τ) := m.bind fun m => m.act action

end

end Saifs

end Saios
