/-
  AN ABSTRACT FILE SYSTEM: a map from paths to entries.

  A path is the list of names from the root; an entry is a directory or a file with its contents.  An
  operation is a PARTIAL function on maps, defined exactly when it makes sense, and each is stated on
  the whole map: what it gives at every path.  `rename` moves all that lies at or below the source to
  the same place below the target, and leaves everything else alone.

  `Shell` adds a working directory, kept as a path: it follows when it or a directory above it is
  renamed, and becomes the root when it is removed.
-/
import Mathlib.Data.List.Infix
import Mathlib.Logic.Function.Basic
import Mathlib.Order.Lattice

/-- What a path can name. -/
inductive Entry (β : Type*)
  | dir
  | file (data : β)
  deriving DecidableEq

abbrev PathMap (κ β : Type*) := List κ → Option (Entry β)

namespace PathMap

open List Option
open Function (update update_of_ne update_self)

variable {κ β : Type*} [DecidableEq κ] (m : PathMap κ β)

/-- A new entry under an existing directory. -/
def make [DecidableEq β] (p : List κ) (entry : Entry β) : Option (PathMap κ β) :=
  if m p = none ∧ m p.dropLast = some .dir then some (update m p (some entry)) else none

/-- The file at `p` gets the contents `data`; it is made when it does not exist. -/
def write [DecidableEq β] (p : List κ) (data : β) : Option (PathMap κ β) :=
  match m p with
  | some (.file _) => some (update m p (some (.file data)))
  | some .dir => none
  | none => m.make p (.file data)

def read (p : List κ) : Option β :=
  match m p with
  | some (.file data) => some data
  | _ => none

/-- Nothing lies directly below `p`. -/
def Leaf (p : List κ) : Prop := ∀ k, m (p ++ [k]) = none

open Classical in
/-- The entry at `p` is taken away; neither the root nor a directory with something in it can be. -/
noncomputable def remove (p : List κ) : Option (PathMap κ β) :=
  if p ≠ [] ∧ m p ≠ none ∧ m.Leaf p then some (update m p none) else none

variable {p : List κ}

theorem remove_none (h : ¬(p ≠ [] ∧ m p ≠ none ∧ m.Leaf p)) : m.remove p = none := if_neg h

theorem remove_some (hp : p ≠ []) (hm : m p ≠ none) (hleaf : m.Leaf p) :
    m.remove p = some (update m p none) := if_pos ⟨hp, hm, hleaf⟩

/-- All that is at or below `p`, moved to `q`. -/
def moved (p q : List κ) : PathMap κ β := fun r =>
  if q <+: r then m (p ++ r.drop q.length) else if p <+: r then none else m r

/-- The source exists and is not the root; the target is free, in a directory, and not below the
    source. -/
def rename [DecidableEq β] (p q : List κ) : Option (PathMap κ β) :=
  if p ≠ [] ∧ m p ≠ none ∧ m q = none ∧ m q.dropLast = some .dir ∧ ¬p <+: q then some (m.moved p q)
  else none

/-- The names directly below `p`, ascending. -/
def IsListing [LT κ] (p : List κ) (names : List κ) : Prop :=
  names.Pairwise (· < ·) ∧ ∀ k, k ∈ names ↔ m (p ++ [k]) ≠ none

open Classical in
/-- The listing of `p`, when finitely many names lie below it. -/
noncomputable def listing [LT κ] (p : List κ) : List κ :=
  if h : ∃ names, m.IsListing p names then h.choose else []

/-- The listing of a directory. -/
noncomputable def list [LT κ] [DecidableEq β] (p : List κ) : Option (List κ) :=
  if m p = some .dir then some (m.listing p) else none

omit [DecidableEq κ] in
/-- There is only one listing. -/
theorem listing_eq [LinearOrder κ] {names : List κ} (h : m.IsListing p names) : m.listing p = names := by
  have hex : ∃ names, m.IsListing p names := ⟨names, h⟩
  obtain ⟨hasc, hmem⟩ := hex.choose_spec
  have hperm : hex.choose.Perm names :=
    (perm_ext_iff_of_nodup (hasc.imp ne_of_lt) (h.1.imp ne_of_lt)).mpr
      fun k => (hmem k).trans (h.2 k).symm
  rw [listing, dif_pos hex]
  exact hperm.eq_of_pairwise (fun a b _ _ hab hba => le_antisymm hab hba) (hasc.imp le_of_lt)
    (h.1.imp le_of_lt)

theorem moved_below (p q r : List κ) : m.moved p q (q ++ r) = m (p ++ r) := by
  rw [moved, if_pos (prefix_append q r), drop_left]

variable {r : List κ}

theorem moved_source {q : List κ} (hq : ¬q <+: r) (hp : p <+: r) : m.moved p q r = none := by
  rw [moved, if_neg hq, if_pos hp]

theorem moved_other {q : List κ} (hq : ¬q <+: r) (hp : ¬p <+: r) : m.moved p q r = m r := by
  rw [moved, if_neg hq, if_neg hp]

/-! ## Trees -/

/-- The root is a directory, and so is whatever has something in it. -/
structure Closed (m : PathMap κ β) : Prop where
  root : m [] = some .dir
  parent : ∀ p k, m (p ++ [k]) ≠ none → m p = some .dir

variable {m' : PathMap κ β}

section closed

variable {m} {p q : List κ} (h : m.Closed)

include h

omit [DecidableEq κ] in
/-- What has something below it is a directory. -/
theorem Closed.above (hr : r ≠ []) (hm : m (p ++ r) ≠ none) : m p = some .dir := by
  induction r using reverseRecOn with
  | nil => exact absurd rfl hr
  | append_singleton r k ih =>
    rw [← append_assoc] at hm
    have hdir := h.parent _ _ hm
    cases r with
    | nil => rwa [append_nil] at hdir
    | cons k' r => exact ih (cons_ne_nil _ _) (by rw [hdir]; exact some_ne_none _)

omit [DecidableEq κ] in
/-- Below a free path everything is free. -/
theorem Closed.free_below (hp : m p = none) (r : List κ) : m (p ++ r) = none := by
  by_contra hne
  cases r with
  | nil => rw [append_nil] at hne; exact hne hp
  | cons k r => rw [h.above (cons_ne_nil k r) hne] at hp; cases hp

omit [DecidableEq κ] in
/-- A path with nothing directly below it has nothing below it at all. -/
theorem Closed.eq_of_leaf {q : List κ} (hleaf : m.Leaf p) (hpre : p <+: q) (hq : m q ≠ none) : q = p := by
  obtain ⟨r, rfl⟩ := hpre
  cases r with
  | nil => exact append_nil p
  | cons k r =>
    rw [show p ++ k :: r = p ++ [k] ++ r by simp] at hq
    exact absurd (h.free_below (hleaf k) r) hq

omit [DecidableEq κ] in
/-- A file has nothing below it. -/
theorem Closed.leaf_file {data : β} (hp : m p = some (.file data)) : m.Leaf p := by
  intro k
  by_contra hne
  rw [h.parent p k hne] at hp; cases hp

omit [DecidableEq κ] in
theorem Closed.ne_root (hp : m p = none) : p ≠ [] := by
  rintro rfl
  rw [h.root] at hp; cases hp

theorem Closed.make [DecidableEq β] {entry : Entry β} (hm : m.make p entry = some m') : m'.Closed := by
  unfold PathMap.make at hm
  split at hm
  · rename_i hdef
    obtain rfl := some.inj hm
    refine ⟨?_, fun r k hr => ?_⟩
    · rw [update_of_ne (h.ne_root hdef.1).symm, h.root]
    · have hrp : r ≠ p → m r = some .dir → update m p (some entry) r = some .dir :=
        fun hne hdir => by rw [update_of_ne hne, hdir]
      by_cases hk : r ++ [k] = p
      · refine hrp ?_ ?_
        · rintro rfl
          have hlen := congrArg List.length hk
          rw [length_append, length_singleton] at hlen
          omega
        · rw [← hdef.2, ← hk, dropLast_concat]
      · rw [update_of_ne hk] at hr
        have hdir := h.parent r k hr
        refine hrp ?_ hdir
        rintro rfl
        rw [hdef.1] at hdir; cases hdir
  · cases hm

theorem Closed.write [DecidableEq β] {data : β} (hm : m.write p data = some m') : m'.Closed := by
  unfold PathMap.write at hm
  split at hm
  · rename_i old hold
    obtain rfl := some.inj hm
    refine ⟨?_, fun r k hr => ?_⟩
    · rw [update_of_ne, h.root]
      rintro rfl
      rw [h.root] at hold; cases hold
    · have hdir : m r = some .dir := by
        by_cases hk : r ++ [k] = p
        · exact h.parent r k (by rw [hk, hold]; exact some_ne_none _)
        · rw [update_of_ne hk] at hr; exact h.parent r k hr
      rw [update_of_ne, hdir]
      rintro rfl
      rw [hdir] at hold; cases hold
  · cases hm
  · exact h.make hm

theorem Closed.remove (hm : m.remove p = some m') : m'.Closed := by
  unfold PathMap.remove at hm
  split at hm
  · rename_i hdef
    obtain rfl := some.inj hm
    refine ⟨?_, fun r k hr => ?_⟩
    · rw [update_of_ne hdef.1.symm, h.root]
    · have hk : r ++ [k] ≠ p := by
        rintro rfl
        rw [update_self] at hr; exact hr rfl
      rw [update_of_ne hk] at hr
      rw [update_of_ne, h.parent r k hr]
      rintro rfl
      exact hr (hdef.2.2 k)
  · cases hm

theorem Closed.rename [DecidableEq β] (hm : m.rename p q = some m') : m'.Closed := by
  unfold PathMap.rename at hm
  split at hm
  · rename_i hdef
    obtain ⟨hp, -, hfree, hdir, hout⟩ := hdef
    obtain rfl := some.inj hm
    refine ⟨?_, fun r k hr => ?_⟩
    · rw [moved_other _ (fun hpre => h.ne_root hfree (prefix_nil.mp hpre))
        (fun hpre => hp (prefix_nil.mp hpre)), h.root]
    · by_cases hq : q <+: r ++ [k]
      · rcases prefix_concat_iff.mp hq with heq | ⟨s, rfl⟩
        · -- the new place itself: its directory stays where it is
          rw [heq, dropLast_concat] at hdir
          rw [moved_other _ ?_ ?_, hdir]
          · intro hpre
            have hle := (heq ▸ hpre).length_le
            rw [length_append, length_singleton] at hle
            omega
          · intro hpre
            exact hout (heq ▸ hpre.trans (prefix_append r [k]))
        · rw [append_assoc, moved_below, ← append_assoc] at hr
          rw [moved_below]
          exact h.parent _ _ hr
      · by_cases hpre : p <+: r ++ [k]
        · rw [moved_source _ hq hpre] at hr; exact absurd rfl hr
        · rw [moved_other _ hq hpre] at hr
          rw [moved_other _ (fun hx => hq (hx.trans (prefix_append r [k])))
            (fun hx => hpre (hx.trans (prefix_append r [k])))]
          exact h.parent r k hr
  · cases hm

end closed

end PathMap

/-! ## With a working directory -/

structure Shell (κ β : Type*) where
  map : PathMap κ β
  cwd : List κ

namespace Shell

open List

variable {κ β : Type*} [DecidableEq κ] [DecidableEq β] (s : Shell κ β)

def make (p : List κ) (entry : Entry β) : Option (Shell κ β) :=
  (s.map.make p entry).map fun m => { s with map := m }

def write (p : List κ) (data : β) : Option (Shell κ β) :=
  (s.map.write p data).map fun m => { s with map := m }

omit [DecidableEq β] in
/-- A removed working directory becomes the root. -/
noncomputable def remove (p : List κ) : Option (Shell κ β) :=
  (s.map.remove p).map fun m => { map := m, cwd := if s.cwd = p then [] else s.cwd }

/-- Where the path `r` is once `p` is renamed to `q`. -/
def relocate (p q r : List κ) : List κ := if p <+: r then q ++ r.drop p.length else r

theorem relocate_below (p q r : List κ) : relocate p q (p ++ r) = q ++ r := by
  rw [relocate, if_pos (prefix_append p r), drop_left]

theorem relocate_other (q : List κ) (h : ¬p <+: r) : relocate p q r = r := if_neg h

/-- The working directory follows. -/
def rename (p q : List κ) : Option (Shell κ β) :=
  (s.map.rename p q).map fun m => { map := m, cwd := relocate p q s.cwd }

def cd (p : List κ) : Option (Shell κ β) :=
  if s.map p = some .dir then some { s with cwd := p } else none

end Shell
