/-
  WHAT A CHANGE OF THE TMPFS CAN CHANGE AT WHICH PATH, in every reachable table.

  1. **Moves** — every operation moves at most one node: it leaves the place it is at, if any, and lands at
     a free place, if any.  What such a move can disturb is what lay at or below the old place, and what
     then lies at or below the new one (`Disturbs`, `absMap_moved_off`).

  2. **Operations** — one lemma each: `absMap_attach_off`, `absMap_detach_off`, `absMap_unlinked_off`,
     `absMap_relink_off`, `absMap_setData_off`.
-/
import Saios.Vfs.Abstract
import Saios.Vfs.SysFrame

namespace Saios.Vfs

open Path TmpFs EdgeTree Option

/-! ## Moves -/

variable {ds : List Str}

section edges

variable {fs fs' : TmpFs} (h : Linked fs)

include h

/-- The paths that are disturbed when `i` leaves its place and lands at the places `S`. -/
def Disturbs (fs : TmpFs) (i : Nat) (S : Nat → Str → Prop) (ds : List Str) : Prop :=
  (∃ cs, fs.nodeAt cs = some i ∧ cs <+: ds ∧ fs.nodeAt ds ≠ none) ∨
  ∃ qs r l ns, fs.nodeAt qs = some r ∧ S r l ∧ ds = qs ++ [l] ++ ns ∧
    walk fs.lookupChildByName i ns ≠ none

section moved

variable (h' : Linked fs') {i : Nat} {S : Nat → Str → Prop} (hroot : fs'.root = fs.root)
  (hi : i ≠ fs.root) (hone : ∀ r m r' m', S r m → S r' m' → r = r')
  (hfree : ∀ r m, S r m → fs.lookupChildByName r m = none)
  (hview : ∀ r c j, Edge fs' r c j ↔ (Edge fs r c j ∧ j ≠ i) ∨ (S r c ∧ j = i)) {ds : List Str}
  (hno : ¬Disturbs fs i S ds)

include h' hroot hi hone hfree hview hno

/-- **A moved node disturbs nothing else.** -/
theorem nodeAt_moved_off : fs'.nodeAt ds = fs.nodeAt ds := by
  unfold nodeAt
  rw [hroot]
  refine h.tree.walk_undisturbed hi hone hfree ?_ ?_ ?_ ?_ ?_
  · intro r m j hS hj
    rcases (hview r m j).mp (h'.lookup_iff.mp hj) with ⟨hedge, -⟩ | ⟨-, hj⟩
    · cases (hfree r m hS).symm.trans (h.lookup_iff.mpr hedge)
    · exact hj
  · intro r m hri
    cases hj : fs'.lookupChildByName r m with
    | none => rfl
    | some j =>
      rcases (hview r m j).mp (h'.lookup_iff.mp hj) with ⟨hedge, hne⟩ | ⟨hS, -⟩
      · cases hri.symm.trans (h.lookup_iff.mpr hedge)
        exact absurd rfl hne
      · cases hri.symm.trans (hfree r m hS)
  · intro r m hri hS
    refine Option.ext fun j => ?_
    rw [h'.lookup_iff, h.lookup_iff, hview]
    constructor
    · rintro (⟨hedge, -⟩ | ⟨hS', -⟩)
      · exact hedge
      · exact absurd hS' hS
    · intro hedge
      refine .inl ⟨hedge, ?_⟩
      rintro rfl
      exact hri (h.lookup_iff.mpr hedge)
  · intro cs hcs hpre
    by_contra hsome
    exact hno (Or.inl ⟨cs, hcs, hpre, hsome⟩)
  · intro qs r l ns hqs hS hds
    by_contra hsome
    exact hno (Or.inr ⟨qs, r, l, ns, hqs, hS, hds, hsome⟩)

theorem absMap_moved_off
    (hget : ∀ j n, j ≠ i → fs.get? j = some n → ∃ n', fs'.get? j = some n' ∧ n'.entry = n.entry) :
    fs'.absMap ds = fs.absMap ds := by
  unfold absMap
  rw [nodeAt_moved_off h h' hroot hi hone hfree hview hno]
  cases hj : fs.nodeAt ds with
  | none => rfl
  | some j =>
    obtain ⟨n, hn⟩ := h.nodeAt_live hj
    have hne : j ≠ i := by
      rintro rfl
      exact hno (Or.inl ⟨ds, hj, List.prefix_refl ds, by rw [hj]; exact some_ne_none j⟩)
    obtain ⟨n', hn', hentry⟩ := hget j n hne hn
    rw [bind_some, bind_some, hn, hn', map_some, map_some, hentry]

end moved

/-! ## Operations -/

section attached

variable {p : Nat} {d : Node} {name : Str} (hd : fs.get? p = some d) (hk : d.kind = .directory)
  (hl : fs.lookupChildByName p name = none) (hname : IsName name) (kind : FileType)

include hd hk

variable {ds : List Str} (hno : ∀ cs, fs.nodeAt cs = some p → ds ≠ cs ++ [name])

omit hd hk in
include hno in
/-- The new node is below nothing and has nothing below it. -/
theorem not_disturbs_attach : ¬Disturbs fs fs.nextInode (fun r c => r = p ∧ c = name) ds := by
  rintro (⟨cs, hcs, -⟩ | ⟨qs, r, l, ns, hqs, ⟨rfl, rfl⟩, hds, hwalk⟩)
  · obtain ⟨n, hn⟩ := h.nodeAt_live hcs
    exact ne_nextInode hn rfl
  · cases ns with
    | nil => exact hno qs hqs (hds.trans (List.append_nil _))
    | cons c ns =>
      refine hwalk ?_
      rw [walk_cons, lookup_eq, get?_nextInode]
      rfl

include hl hname hno

/-- **A new child** changes where one path leads ... -/
theorem nodeAt_attach_off : (fs.attach p d name kind).nodeAt ds = fs.nodeAt ds := by
  obtain ⟨root, hroot, -⟩ := h.root
  refine nodeAt_moved_off h (h.attach hd hk kind hl hname) rfl (ne_nextInode hroot).symm ?_ ?_
    (edge_attach h hd hk name kind) (not_disturbs_attach h hno)
  · rintro r m r' m' ⟨rfl, -⟩ ⟨rfl, -⟩; rfl
  · rintro r m ⟨rfl, rfl⟩; exact hl

/-- ... and what is seen at that path. -/
theorem absMap_attach_off : (fs.attach p d name kind).absMap ds = fs.absMap ds := by
  unfold absMap
  rw [nodeAt_attach_off h hd hk hl hname kind hno]
  cases hj : fs.nodeAt ds with
  | none => rfl
  | some j =>
    obtain ⟨n, hn⟩ := h.nodeAt_live hj
    rw [bind_some, bind_some, get?_attach hd, if_neg (ne_nextInode hn)]
    split
    · rename_i hjp
      rw [hjp, hd]; rfl
    · rfl

end attached

theorem absMap_shift_off (h' : Linked fs') {i : Nat} {L : Nat → Prop} {name : Str}
    (hs : Shift fs fs' i L name) (hroot : fs'.root = fs.root) (hi : i ≠ fs.root)
    (hone : ∀ r r', L r → L r' → r = r') (hfree : ∀ r, L r → fs.lookupChildByName r name = none)
    (hno : ¬Disturbs fs i (Landing fs L name) ds) : fs'.absMap ds = fs.absMap ds := by
  refine absMap_moved_off h h' hroot hi ?_ ?_ ?_ hno ?_
  · rintro r m r' m' ⟨⟨hr, -⟩, -⟩ ⟨⟨hr', -⟩, -⟩
    exact hone r r' hr hr'
  · rintro r m ⟨⟨hr, -⟩, rfl⟩
    exact hfree r hr
  · exact hs.edge
  · intro j n hj hn
    obtain ⟨m, hm⟩ := hs.stays hj hn
    exact ⟨m, hm, (hs.forth hm hn).1⟩

section leaving

variable {i p : Nat} {n d : Node} (hi : i ≠ fs.root) (hn : fs.get? i = some n) (hpar : n.parent = some p)
  (hd : fs.get? p = some d)

include hn hpar

include hi hd

/-- **A node that leaves its directory and stays in the table.** -/
theorem absMap_unlinked_off (hno : ¬Disturbs fs i (fun _ _ => False) ds) :
    (fs.unlinked i p d).absMap ds = fs.absMap ds := by
  have hs := shift_unlinked h hn hpar hd
  refine absMap_shift_off h (h.unlinked hd) hs rfl hi (fun _ _ hr => hr.elim) (fun _ hr => hr.elim) ?_
  rintro (hlost | ⟨qs, r, l, ns, -, ⟨⟨hr, -⟩, -⟩, -⟩)
  · exact hno (Or.inl hlost)
  · exact hr

/-- **A leaf that is removed** is missing at one path. -/
theorem absMap_detach_off (hleaf : ¬(n.kind = .directory ∧ n.children ≠ [])) (hno : fs.nodeAt ds ≠ some i) :
    (fs.detach i p d).absMap ds = fs.absMap ds := by
  have hs := shift_detach h hn hpar hd (lookup_leaf hn hleaf)
  refine absMap_shift_off h (h.detach hi hn hd) hs rfl hi (fun _ _ hr => hr.elim) (fun _ hr => hr.elim) ?_
  rintro (⟨cs, hcs, ⟨tail, rfl⟩, hsome⟩ | ⟨qs, r, l, ns, -, ⟨⟨hr, -⟩, -⟩, -⟩)
  · cases tail with
    | nil => exact hno (by rw [List.append_nil]; exact hcs)
    | cons c tail =>
      refine hsome ?_
      rw [nodeAt, walk_append, show walk fs.lookupChildByName fs.root cs = some i from hcs, bind_some,
        walk_cons, lookup_leaf hn hleaf]
      rfl
  · exact hr

omit hd in
/-- **A node that moves** to another directory. -/
theorem absMap_relink_off {q : Nat} {m k : Node} {name : Str} (hslots : fs.Slots i p q d m k)
    (hl : fs.lookupChildByName q name = none) (hname : IsName name)
    (hno : ¬Disturbs fs i (Landing fs (· = q) name) ds) :
    (fs.relink i p q d m k name).absMap ds = fs.absMap ds := by
  have hs := shift_relink h hn hpar name hslots
  refine absMap_shift_off h (h.relink hn hpar hslots hi hl hname) hs rfl hi ?_ ?_ hno
  · rintro r r' rfl rfl; rfl
  · rintro r rfl; exact hl

end leaving

omit h in
/-- **New contents** are seen at one path. -/
theorem absMap_setData_off {i : Nat} {n : Node} (hn : fs.get? i = some n) (data : List UInt8)
    (hno : fs.nodeAt ds ≠ some i) : (fs.setData i n data).absMap ds = fs.absMap ds := by
  unfold absMap
  rw [nodeAt_setData hn]
  cases hj : fs.nodeAt ds with
  | none => rfl
  | some j =>
    have hji : j ≠ i := by
      rintro rfl
      exact hno hj
    rw [bind_some, bind_some, TmpFs.setData, get?_put hn, if_neg hji]

end edges

end Saios.Vfs
