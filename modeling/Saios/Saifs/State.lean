/-
  SAIFS (`seed/saios/src/saifs.rs`): the table of providers, the table of mounts, and the path resolver.

  A provider is anything with a name; what providers do is modelled where it is used.  Every public function first
  calls `init`, which registers the VFS as the first provider and mounts it at the root; the state a caller can
  see is therefore a state after `init`.  Ids are 64 bits wide and wrap.  The event log and the subscriptions are
  not modelled; nothing here reads them.
-/
import Saios.Lib.Best
import Saios.Lib.Bytes

namespace Saios.Saifs

open Path

inductive SaifsError
  | notFound
  | alreadyExists
  | invalidPath
  | invalidHandle
  | unsupportedOperation
  | accessDenied
  | providerUnavailable
  | busy
  | corrupt
  | internal
  deriving DecidableEq, Repr

/-! ## Paths -/

def nul : Char := Char.ofNat 0

def canonicalizePath (path : Str) : Except SaifsError Str :=
  if nul ∈ path then .error .invalidPath
  else if path = [] ∨ path = ['/'] then .ok ['/']
  else
    let source := if path.head? = some '/' then path else '/' :: path
    let parts := resolveDots [] (components source)
    if parts = [] then .ok ['/'] else .ok ('/' :: join parts)

def normalizePath (path : Str) : Str :=
  match canonicalizePath path with
  | .ok p => p
  | .error _ => ['/']

def pathInMount (mountPath path : Str) : Bool :=
  mountPath == ['/'] || path == mountPath ||
    (mountPath.isPrefixOf path && path[mountPath.length]? == some '/')

def providerPathFromMount (mountPath absolutePath : Str) : Str :=
  if mountPath = ['/'] then absolutePath
  else if absolutePath = mountPath then ['/']
  else
    let tail := absolutePath.drop mountPath.length
    if tail.head? = some '/' then tail else '/' :: tail

/-! ## State -/

structure MountPoint where
  path : Str
  provider : Nat
  readOnly : Bool
  deriving DecidableEq, Repr

structure RegisteredProvider (π : Type) where
  id : Nat
  provider : π

structure SaifsState (π : Type) where
  initialized : Bool
  nextProviderId : Nat
  nextHandleId : Nat
  providers : List (RegisteredProvider π)
  mounts : List MountPoint

structure ResolvedPath where
  inputPath : Str
  absolutePath : Str
  providerPath : Str
  mountPath : Str
  provider : Nat
  readOnly : Bool
  deriving DecidableEq, Repr

section

variable {π : Type} (name : π → Str)

def SaifsState.new : SaifsState π :=
  { initialized := false, nextProviderId := 1, nextHandleId := 1, providers := [], mounts := [] }

def registerProviderInternal (s : SaifsState π) (provider : π) : Nat × SaifsState π :=
  match s.providers.find? fun entry => name entry.provider = name provider with
  | some existing => (existing.id, s)
  | none =>
      (s.nextProviderId,
        { s with
          nextProviderId := (s.nextProviderId + 1) % 2 ^ 64
          providers := s.providers ++ [{ id := s.nextProviderId, provider := provider }] })

def providerByIdInternal (s : SaifsState π) (id : Nat) : Option π :=
  (s.providers.find? fun entry => entry.id = id).map (·.provider)

/-- The path that a mount is compared by. -/
def MountPoint.comparedPath (m : MountPoint) : Str := if m.path = [] then ['/'] else m.path

/-- The mount with the longest path, in bytes, among those the path is in. -/
def resolveMountInternal (s : SaifsState π) (path : Str) : Option MountPoint :=
  Best.pick (fun m => pathInMount m.comparedPath path) (fun m => (Bytes.utf8 m.comparedPath).length) s.mounts

def resolvePathInternal (s : SaifsState π) (path : Str) : Except SaifsError ResolvedPath :=
  match canonicalizePath path with
  | .error e => .error e
  | .ok absolutePath =>
      match resolveMountInternal s absolutePath with
      | none => .error .providerUnavailable
      | some mount =>
          .ok { inputPath := path, absolutePath := absolutePath
                providerPath := providerPathFromMount mount.path absolutePath
                mountPath := mount.path, provider := mount.provider, readOnly := mount.readOnly }

/-! ## Calls -/

/-- `vfs` is the provider that `init` registers. -/
def init (vfs : π) (s : SaifsState π) : SaifsState π :=
  if s.initialized then s
  else
    let (provider, s) := registerProviderInternal name s vfs
    { s with
      mounts := s.mounts ++ [{ path := ['/'], provider := provider, readOnly := false }], initialized := true }

variable (vfs : π)

def registerProvider (s : SaifsState π) (provider : π) : Nat × SaifsState π :=
  registerProviderInternal name (init name vfs s) provider

def mount (s : SaifsState π) (path : Str) (provider : Nat) (readOnly : Bool) :
    Except SaifsError Unit × SaifsState π :=
  let s := init name vfs s
  match canonicalizePath path with
  | .error e => (.error e, s)
  | .ok path =>
      if (providerByIdInternal s provider).isNone then (.error .providerUnavailable, s)
      else if s.mounts.any fun m => m.path = path then (.error .alreadyExists, s)
      else
        (.ok (), { s with mounts := s.mounts ++ [{ path := path, provider := provider, readOnly := readOnly }] })

def unmount (s : SaifsState π) (path : Str) : Except SaifsError Unit × SaifsState π :=
  let s := init name vfs s
  match canonicalizePath path with
  | .error e => (.error e, s)
  | .ok path =>
      if path = ['/'] then (.error .busy, s)
      else
        let mounts := s.mounts.filter fun m => m.path ≠ path
        let s' := { s with mounts := mounts }
        if mounts.length = s.mounts.length then (.error .notFound, s') else (.ok (), s')

def resolve (s : SaifsState π) (path : Str) : Except SaifsError ResolvedPath × SaifsState π :=
  (resolvePathInternal (init name vfs s) path, init name vfs s)

inductive Op (π : Type)
  | register (provider : π)
  | mount (path : Str) (provider : Nat) (readOnly : Bool)
  | unmount (path : Str)

def step (s : SaifsState π) : Op π → SaifsState π
  | .register provider => (registerProvider name vfs s provider).2
  | .mount path provider readOnly => (mount name vfs s path provider readOnly).2
  | .unmount path => (unmount name vfs s path).2

end

end Saios.Saifs
