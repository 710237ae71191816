/-
  NODE LISTS: the in-memory form of a mounted volume (`seed/saios/src/driver/storage.rs`).

  A mounted volume is a flat list of nodes, each with its whole path; the tree is only implied by the
  path strings.

  1. **Program** — the path helpers (`normalizePath`, `isChildOf`, `splitParent`), the default trees,
     the lookups, and for each `fs_*` operation its body: what it does between finding the node list
     and saving it.  `position` + index and `find_node_mut` of the source are "the first node with
     this path", as `List.find?` / `List.modifyFirst` / `List.eraseP`.

  2. **Paths** — `normalizePath` is reading into components, resolving dots, and writing back
     (`normalizePath_eq`), so a normalized path is `Path.absolute` of names and every string test on
     normalized paths becomes a statement about component lists (`isChildOf_absolute`,
     `splitParent_absolute`).
-/
import Mathlib.Data.List.Destutter
import Saios.Lib.First
import Saios.Storage.Device

namespace Saios.Storage

open Bytes Path List

inductive FsNodeKind
  | file
  | directory
  deriving DecidableEq, Repr

structure FsNode where
  path : Str
  kind : FsNodeKind
  data : List UInt8
  deriving DecidableEq, Repr

structure FsStat where
  kind : FsNodeKind
  size : Nat
  deriving DecidableEq, Repr

/-! ## Paths -/

def normalizePath (path : Str) : Str :=
  if path = [] ∨ path = ['/'] then ['/']
  else
    let out := resolveDots [] (components path)
    if out = [] then ['/'] else '/' :: join out

def isChildOf (parent path : Str) : Bool :=
  if parent = ['/'] then path.head? == some '/'
  else parent.isPrefixOf path &&
    (path.length == parent.length || path[parent.length]? == some '/')

def splitParent (path : Str) : Option (Str × Str) :=
  let p := normalizePath path
  if p = ['/'] then none
  else
    let parts := components p
    match parts.getLast? with
    | none => none
    | some name =>
        let parts := parts.dropLast
        some (if parts = [] then ['/'] else '/' :: join parts, name)

/-! ## Default trees -/

def directoryNode (path : String) : FsNode := { path := path.toList, kind := .directory, data := [] }

def defaultFatTree : List FsNode :=
  ["/", "/boot", "/dev", "/home", "/etc", "/tmp", "/proc", "/sys"].map directoryNode

def readOnlyNotice (fs : FilesystemKind) : Str :=
  "SAIOS mounted ".toList ++ fs.asStr ++
    " as a read-only preview backend.\nRead/write support for this filesystem is not implemented yet.\n".toList

def defaultRoTree (fs : FilesystemKind) : List FsNode :=
  ["/", "/boot", "/etc", "/home", "/mnt"].map directoryNode ++
    [{ path := "/README.TXT".toList, kind := .file, data := utf8 (readOnlyNotice fs) }] ++
    (if fs = .ext4 then [directoryNode "/lost+found"] else [])

def fsSupportsRwTree (fs : FilesystemKind) : Bool := fs == .fat32

def fsSupportsMountTree (fs : FilesystemKind) : Bool := fs == .fat32 || fs == .ext4 || fs == .ntfs

/-! ## Lookups -/

def findNode (nodes : List FsNode) (path : Str) : Option FsNode :=
  nodes.find? (fun n => n.path == normalizePath path)

def ensureParentDir (nodes : List FsNode) (path : Str) : Except String Unit :=
  match splitParent path with
  | none => .error "storage: invalid path"
  | some (parent, _) =>
      match findNode nodes parent with
      | none => .error "storage: parent path not found"
      | some node =>
          if node.kind ≠ .directory then .error "storage: parent is not a directory" else .ok ()

/-! ## The bodies of the operations -/

/-- `fs_create` and `fs_mkdir`. -/
def createIn (kind : FsNodeKind) (rel : Str) (nodes : List FsNode) :
    Except String Unit × List FsNode :=
  if (findNode nodes rel).isSome then (.error "already exists", nodes)
  else
    match ensureParentDir nodes rel with
    | .error e => (.error e, nodes)
    | .ok () => (.ok (), nodes ++ [{ path := rel, kind := kind, data := [] }])

def deleteIn (rel : Str) (nodes : List FsNode) : Except String Unit × List FsNode :=
  match nodes.find? (fun n => n.path == rel) with
  | none => (.error "path not found", nodes)
  | some node =>
      if node.kind = .directory ∧ nodes.any (fun n => n.path != rel && isChildOf rel n.path) then
        (.error "directory not empty", nodes)
      else (.ok (), nodes.eraseP (fun n => n.path == rel))

/-- A descendant of a renamed directory. -/
def reroot (old toRel : Str) (n : FsNode) : FsNode :=
  if n.path ≠ old ∧ isChildOf old n.path then { n with path := toRel ++ n.path.drop old.length } else n

def renameIn (fromRel toRel : Str) (nodes : List FsNode) : Except String Unit × List FsNode :=
  match ensureParentDir nodes toRel with
  | .error e => (.error e, nodes)
  | .ok () =>
      if (findNode nodes toRel).isSome then (.error "destination exists", nodes)
      else
        match nodes.find? (fun n => n.path == fromRel) with
        | none => (.error "path not found", nodes)
        | some node =>
            let old := node.path
            let nodes :=
              nodes.modifyFirst (fun n => n.path == fromRel) (fun n => { n with path := toRel })
            -- the loop runs over all nodes, the one just moved included
            if node.kind = .directory then (.ok (), nodes.map (reroot old toRel)) else (.ok (), nodes)

def readIn (rel : Str) (nodes : List FsNode) : Except String (List UInt8) :=
  match findNode nodes rel with
  | none => .error "path not found"
  | some node => if node.kind ≠ .file then .error "not a file" else .ok node.data

def writeIn (rel : Str) (data : List UInt8) (nodes : List FsNode) :
    Except String Unit × List FsNode :=
  let added : Except String Unit × List FsNode :=
    if (findNode nodes rel).isNone then
      match ensureParentDir nodes rel with
      | .error e => (.error e, nodes)
      | .ok () => (.ok (), nodes ++ [{ path := rel, kind := .file, data := [] }])
    else (.ok (), nodes)
  match added with
  | (.error e, nodes) => (.error e, nodes)
  | (.ok (), nodes) =>
      match findNode nodes rel with
      | none => (.error "path not found", nodes)
      | some node =>
          if node.kind ≠ .file then (.error "not a file", nodes)
          else
            (.ok (), nodes.modifyFirst (fun n => n.path == normalizePath rel)
              (fun n => { n with data := data }))

def statIn (rel : Str) (nodes : List FsNode) : Except String FsStat :=
  match findNode nodes rel with
  | none => .error "path not found"
  | some node => .ok { kind := node.kind, size := node.data.length }

/-- The name a node shows in the listing of `rel`, if it does. -/
def childName (rel : Str) (node : FsNode) : Option Str :=
  if node.path = rel then none
  else
    match splitParent node.path with
    | none => none
    | some (parent, name) => if parent = rel then some name else none

def readdirIn (rel : Str) (nodes : List FsNode) : Except String (List Str) :=
  match findNode nodes rel with
  | none => .error "path not found"
  | some dir =>
      if dir.kind ≠ .directory then .error "not a directory"
      else .ok ((sortNames (nodes.filterMap (childName rel))).destutter (· ≠ ·))

/-! ## Normalized paths are component lists -/

/-- The components a path string stands for. -/
def comps (path : Str) : List Str := resolveDots [] (components path)

theorem comps_isName (path : Str) : ∀ c ∈ comps path, IsName c :=
  resolveDots_isName nofun fun _ h => isComp_of_mem h

theorem comps_isComp (path : Str) : ∀ c ∈ comps path, IsComp c := fun c h => (comps_isName path c h).1

/-- **Normalizing is reading and writing back.** -/
theorem normalizePath_eq (path : Str) : normalizePath path = absolute (comps path) := by
  unfold normalizePath
  split
  · rename_i h
    rcases h with rfl | rfl <;> rfl
  · simp only
    split
    · rename_i h
      rw [comps, h]; rfl
    · rfl

variable {cs : List Str}

theorem comps_absolute (h : ∀ c ∈ cs, IsName c) : comps (absolute cs) = cs := by
  rw [comps, components_absolute fun c hc => (h c hc).1, resolveDots_names h, nil_append]

theorem normalizePath_absolute (h : ∀ c ∈ cs, IsName c) : normalizePath (absolute cs) = absolute cs := by
  rw [normalizePath_eq, comps_absolute h]

theorem absolute_eq_root (h : ∀ c ∈ cs, IsName c) : absolute cs = ['/'] ↔ cs = [] := by
  constructor
  · intro heq
    exact absolute_inj (fun c hc => (h c hc).1) nofun heq
  · rintro rfl; rfl

/-- **`is_child_of` is the prefix order.** -/
theorem isChildOf_absolute {ds : List Str} (hc : ∀ c ∈ cs, IsName c) (hd : ∀ c ∈ ds, IsName c) :
    isChildOf (absolute cs) (absolute ds) = true ↔ cs <+: ds := by
  unfold isChildOf
  by_cases hroot : cs = []
  · subst hroot
    rw [if_pos (show absolute [] = ['/'] from rfl)]
    simp [absolute]
  · rw [if_neg (fun h => hroot ((absolute_eq_root hc).mp h)),
      ← extends_absolute hroot (fun c h => (hc c h).1) (fun c h => (hd c h).1)]
    simp only [Bool.and_eq_true, Bool.or_eq_true, beq_iff_eq, isPrefixOf_iff_prefix]
    constructor
    · rintro ⟨⟨rest, hrest⟩, hend⟩
      refine ⟨rest, hrest.symm, ?_⟩
      rw [← hrest] at hend
      rcases hend with hlen | hslash
      · left
        rw [length_append] at hlen
        exact length_eq_zero_iff.mp (by omega)
      · right
        rw [getElem?_append_right (Nat.le_refl _), Nat.sub_self] at hslash
        cases rest with
        | nil => cases hslash
        | cons a t =>
          obtain rfl : a = '/' := Option.some.inj hslash
          exact ⟨t, rfl⟩
    · rintro ⟨rest, hrest, hend⟩
      refine ⟨⟨rest, hrest.symm⟩, ?_⟩
      rw [hrest]
      rcases hend with rfl | ⟨t, rfl⟩
      · left; rw [append_nil]
      · right
        rw [getElem?_append_right (Nat.le_refl _), Nat.sub_self]; rfl

/-- `split_parent` takes the last component off. -/
theorem splitParent_absolute {c : Str} (h : ∀ d ∈ cs ++ [c], IsName d) :
    splitParent (absolute (cs ++ [c])) = some (absolute cs, c) := by
  have hne : ¬absolute (cs ++ [c]) = ['/'] := fun heq => by
    have := (absolute_eq_root h).mp heq
    simp at this
  unfold splitParent
  simp only [normalizePath_absolute h]
  rw [if_neg hne, components_absolute fun d hd => (h d hd).1]
  simp only [getLast?_append, getLast?_singleton, Option.some_or, dropLast_concat]
  split
  · rename_i hnil; rw [hnil]; rfl
  · rfl

end Saios.Storage
