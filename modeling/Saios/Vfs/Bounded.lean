/-
  NO LINK POINTS PAST THE NODE TABLE, in any run of calls, and what follows for paths.

  A rename can break the tree (`Vfs.Safety`), so what is said about descriptors in EVERY reachable state
  cannot rest on `Rooted`.  It needs much less.

  1. **`Bounded`** — the root, the working directory and every parent link are at most the length of the
     table: they name a slot, filled or emptied, that has been given out.

  2. **Paths stay** — `path_for_inode` only meets slots that have been given out, so neither a new node
     nor new file contents change the normalized path of anything (`Grown.normalizedPath`).
-/
import Saios.Vfs.Abstract
import Saios.Vfs.Safety

namespace Saios.Vfs

open Path TmpFs Option

/-! ## Links that stay inside the table -/

/-- Every link names a slot that has been given out. -/
structure Bounded (fs : TmpFs) : Prop where
  root : fs.root ≤ fs.nodes.length
  cwd : fs.cwd ≤ fs.nodes.length
  parent : ∀ {i : Nat} {n : Node} {p : Nat}, fs.get? i = some n → n.parent = some p → p ≤ fs.nodes.length

variable {i : Nat} {n : Node}

section bounded

variable {fs : TmpFs} (h : Bounded fs)

include h

theorem Bounded.put (hn : fs.get? i = some n) {slot : Option Node}
    (hslot : ∀ m p, slot = some m → m.parent = some p → p ≤ fs.nodes.length) : Bounded (fs.put i slot) := by
  refine ⟨(length_put fs i slot).symm ▸ h.root, (length_put fs i slot).symm ▸ h.cwd, ?_⟩
  intro j m p hm hp
  rw [length_put]
  rw [get?_put hn] at hm
  split at hm
  · exact hslot m p hm hp
  · exact h.parent hm hp

theorem Bounded.setData (hn : fs.get? i = some n) (data : List UInt8) : Bounded (fs.setData i n data) := by
  refine h.put hn fun m p hm hp => ?_
  obtain rfl := some.inj hm
  exact h.parent hn hp

theorem Bounded.attach {p : Nat} {d : Node} (hd : fs.get? p = some d) (name : Str) (kind : FileType) :
    Bounded (fs.attach p d name kind) := by
  refine ⟨?_, ?_, ?_⟩
  · rw [length_attach]; exact Nat.le_succ_of_le h.root
  · rw [length_attach]; exact Nat.le_succ_of_le h.cwd
  · intro j m' q hm' hq
    rw [length_attach]
    rcases attach_cases hd hm' with ⟨rfl, rfl⟩ | ⟨m, hm, hpar, -⟩
    · obtain rfl : p = q := some.inj hq
      exact Nat.le_succ_of_le (index_of_get? hd).2
    · exact Nat.le_succ_of_le (h.parent hm (hpar.symm.trans hq))

/-- A change through `node_mut` that puts no wrong parent. -/
theorem Bounded.modifyNode {f : Node → Node} {fs' : TmpFs} (hm : fs.modifyNode i f = .ok fs')
    (hf : ∀ n p, fs.get? i = some n → (f n).parent = some p → p ≤ fs.nodes.length) :
    Bounded fs' ∧ fs'.nodes.length = fs.nodes.length := by
  cases hn : fs.get? i with
  | none =>
    obtain ⟨e, he⟩ := node_error hn
    rw [TmpFs.modifyNode, he] at hm
    cases hm
  | some n =>
    rw [modifyNode_ok hn] at hm
    obtain rfl := Except.ok.inj hm
    refine ⟨h.put hn fun m p hm hp => ?_, length_put _ _ _⟩
    obtain rfl := some.inj hm
    exact hf n p hn hp

theorem Bounded.resolveParentAndName {path name : Str} {q : Nat}
    (hr : fs.resolveParentAndName path = .ok (q, name)) : q ≤ fs.nodes.length := by
  refine (resolveParentAndName_inv h.root h.cwd (fun _ => h.parent) ?_ hr).1
  intro i c name _ hl
  obtain ⟨-, m, -, -, -, hm, -⟩ := lookup_some hl
  exact (index_of_get? hm).2

/-! ### The operations -/

theorem Bounded.createAs (path : Str) (kind : FileType) : Bounded (fs.createAs path kind).2 := by
  rcases createAs_cases fs path kind with ⟨e, he⟩ | ⟨p, name, d, -, hd, -, -, hc⟩
  · rw [he]; exact h
  · rw [hc]; exact h.attach hd name kind

theorem Bounded.clearSlot (hn : fs.get? i = some n) : Bounded (fs.clearSlot i) := by
  have hput : Bounded (fs.put i none) := h.put hn (by rintro m p ⟨⟩)
  refine ⟨hput.root, ?_, hput.parent⟩
  show (if fs.cwd = i then fs.root else fs.cwd) ≤ (fs.put i none).nodes.length
  split
  · exact hput.root
  · exact hput.cwd

theorem Bounded.remove (path : Str) : Bounded (fs.remove path).2 := by
  unfold TmpFs.remove
  split
  · exact h
  rename_i i _
  rcases removeInode_cases fs i with ⟨e, he⟩ | ⟨n, -, hn, -, ⟨-, hr⟩ | ⟨p, d, -, hd, hr⟩⟩
  · rw [he]; exact h
  · rw [hr]; exact h.clearSlot hn
  · rw [hr]
    have hput : Bounded (fs.unlinked i p d) := by
      refine h.put hd fun m q hm hq => ?_
      obtain rfl := some.inj hm
      exact h.parent hd hq
    -- the slot of the removed node is still filled when it is cleared
    obtain ⟨m, hm⟩ : ∃ m, (fs.unlinked i p d).get? i = some m := by
      rw [get?_unlinked hd, hn]; exact ⟨_, rfl⟩
    exact hput.clearSlot hm

/-- A rename that fails on the way leaves the changes made so far, and those are bounded as well. -/
theorem Bounded.renamePath (source target : Str) : Bounded (fs.renamePath source target).2 := by
  unfold TmpFs.renamePath
  split
  · exact h
  split
  · exact h
  split
  · exact h
  rename_i q name htarget
  have hq := h.resolveParentAndName htarget
  split
  · exact h
  split
  · exact h
  split
  · exact h
  split
  · exact h
  rename_i fs1 h1
  obtain ⟨hb1, hlen1⟩ := h.modifyNode h1 fun n p hn hp => h.parent hn hp
  split
  · exact hb1
  rename_i fs2 h2
  obtain ⟨hb2, hlen2⟩ := hb1.modifyNode h2 fun n p hn hp => hb1.parent hn hp
  split
  · exact hb2
  rename_i fs3 h3
  refine (hb2.modifyNode h3 fun n p _ hp => ?_).1
  obtain rfl : q = p := some.inj hp
  rw [hlen2, hlen1]; exact hq

end bounded

theorem guarded_bounded : Guarded Bounded where
  createAs kind h _ _ := h.createAs _ kind
  setData data h hn _ := h.setData hn data
  remove h _ _ := h.remove _
  renamePath h _ _ _ _ := h.renamePath _ _
  cd h hn := ⟨h.root, (index_of_get? hn).2, h.parent⟩

variable {fs : TmpFs}

/-- A rooted tree is bounded. -/
theorem Rooted.bounded (h : Rooted fs) : Bounded fs := by
  obtain ⟨r, hr, -⟩ := h.root
  obtain ⟨d, hd, -⟩ := h.cwd
  refine ⟨(index_of_get? hr).2, (index_of_get? hd).2, fun hn hp => ?_⟩
  obtain ⟨m, hm, -⟩ := h.parent_dir hn hp
  exact (index_of_get? hm).2

/-! ## Paths stay -/

/-- What a climb reads of a node. -/
def Node.up (n : Node) : Str × Option Nat := (n.name, n.parent)

/-- The slots given out so far look the same to a climb. -/
structure Grown (fs fs' : TmpFs) : Prop where
  root : fs'.root = fs.root
  cwd : fs'.cwd = fs.cwd
  grows : fs.nodes.length ≤ fs'.nodes.length
  up : ∀ i ≤ fs.nodes.length, (fs'.get? i).map Node.up = (fs.get? i).map Node.up

theorem grown_refl (fs : TmpFs) : Grown fs fs := ⟨rfl, rfl, Nat.le_refl _, fun _ _ => rfl⟩

theorem grown_attach {p : Nat} {d : Node} (hd : fs.get? p = some d) (name : Str) (kind : FileType) :
    Grown fs (fs.attach p d name kind) := by
  refine ⟨rfl, rfl, ?_, fun i hi => ?_⟩
  · rw [length_attach]
    exact Nat.le_succ _
  · rw [get?_attach hd]
    split
    · rename_i hip
      rw [hip, hd]; rfl
    split
    · rename_i hnew
      unfold nextInode at hnew
      omega
    · rfl

theorem grown_setData (hn : fs.get? i = some n) (data : List UInt8) : Grown fs (fs.setData i n data) := by
  refine ⟨rfl, rfl, Nat.le_of_eq (length_put _ _ _).symm, fun j _ => ?_⟩
  rw [get?_setData hn]
  cases fs.get? j <;> rfl

section paths

variable {fs fs' : TmpFs} (h : Bounded fs) (he : Grown fs fs')

include h he

/-- A climb meets the same names in the larger table. -/
theorem Grown.pathLoop (fuel : Nat) : ∀ (i : Nat) (parts : List Str), i ≤ fs.nodes.length →
    fs'.pathLoop fuel i parts = fs.pathLoop fuel i parts := by
  induction fuel with
  | zero => intro i parts _; rfl
  | succ fuel ih =>
    intro i parts hi
    have hup := he.up i hi
    unfold TmpFs.pathLoop
    cases hn : fs.get? i with
    | none =>
      rw [hn, map_none, map_eq_none_iff] at hup
      obtain ⟨e, hnode⟩ := node_error hn
      obtain ⟨e', hnode'⟩ := node_error hup
      rw [hnode, hnode']
    | some n =>
      rw [hn, map_some, map_eq_some_iff] at hup
      obtain ⟨n', hn', hlinks⟩ := hup
      obtain ⟨hname, hparent⟩ := Prod.mk.inj hlinks
      have hnext : n.parent.getD fs.root ≤ fs.nodes.length := by
        cases hp : n.parent with
        | none => exact h.root
        | some p => exact h.parent hn hp
      rw [node_ok.mpr hn, node_ok.mpr hn']
      simp only [he.root, hname, hparent, ih _ _ hnext]

theorem Grown.pathForInode (hi : i ≤ fs.nodes.length) : fs'.pathForInode i = fs.pathForInode i := by
  unfold TmpFs.pathForInode
  rw [he.root, he.pathLoop h _ i [] hi]
  cases hp : fs.pathLoop (fs.nodes.length + 1) i [] with
  | none => rw [pathLoop_none hp]
  | some out => rw [pathLoop_mono (Nat.succ_le_succ he.grows) hp]

/-- **The normalized path of anything stays.** -/
theorem Grown.normalizedPath (path : Str) : fs'.normalizedPath path = fs.normalizedPath path := by
  unfold TmpFs.normalizedPath cwdPath
  rw [he.cwd, he.pathForInode h h.cwd]

end paths

/-- New contents do not change what a path leads to. -/
theorem resolve_setData (hn : fs.get? i = some n) (data : List UInt8) (path : Str) :
    (fs.setData i n data).resolve path = fs.resolve path := by
  have hnode : ∀ j, j ≠ i → (fs.setData i n data).node j = fs.node j := by
    intro j hj
    have hi := index_of_get? hn
    unfold node inodeToIndex TmpFs.setData TmpFs.put
    by_cases h0 : j = 0
    · simp only [if_pos h0]
    · simp only [if_neg h0]
      rw [List.getElem?_set_ne (by omega)]
  have hstep : (fs.setData i n data).resolveStep = fs.resolveStep := by
    funext j part
    unfold resolveStep
    rw [lookup_setData hn data]
    by_cases hj : j = i
    · rw [hj, node_ok.mpr (get?_setData_self hn data), node_ok.mpr hn]
    · rw [hnode j hj]
  unfold resolve resolveFrom
  rw [hstep]
  rfl

end Saios.Vfs
