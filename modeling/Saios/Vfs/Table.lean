/-
  THE NODE TABLE of the tmpfs, seen as a function from inodes to nodes.

  1. **View** — `get?` is the node in a slot; `put` and `push` are the only two ways an operation
     changes the table, and `get?_put` / `get?_push` say what they do to the view.

  2. **Operations** — for each function of `TmpFs` that changes the table, ONE lemma with everything it
     can do: it fails and leaves the file system as it was, or it makes one named change
     (`insertNode_cases`, `removeInode_cases`, `renamePath_cases`, `writeInodeAt_cases`,
     `truncateInode_cases`).  What the changes do to the tree is the next module's business.

  3. **Climbing** — `Ends i l`: the loop of `path_for_inode` from `i` visits exactly the slots `l`.  A
     climb that ends visits no slot twice, so `path_for_inode` ends exactly when it ends within the
     number of slots (`pathLoop_none`).

  4. **Resolving** — a path is followed component by component (`resolve_eq`), so what parents and
     children keep holds of what a path leads to (`resolve_inv`, `resolveParentAndName_inv`).
-/
import Mathlib.Data.List.Perm.Subperm
import Saios.Vfs.TmpFs

namespace Saios.Vfs

open Path List Option

theorem toOption_eq_some {α : Type} {x : Except String α} {a : α} : x.toOption = some a ↔ x = .ok a := by
  cases x with
  | error e => exact ⟨nofun, nofun⟩
  | ok b => exact ⟨fun h => congrArg Except.ok (some.inj h), fun h => congrArg some (Except.ok.inj h)⟩

variable {p q : Nat} {name : Str} {d : Node} {l : List Nat} {parts : List Str}

namespace TmpFs

/-! ## View -/

/-- The node in slot `i`. -/
def get? (fs : TmpFs) (i : Nat) : Option Node := if i = 0 then none else fs.nodes[i - 1]?.join

/-- The table with slot `i` replaced. -/
def put (fs : TmpFs) (i : Nat) (slot : Option Node) : TmpFs :=
  { fs with nodes := fs.nodes.set (i - 1) slot }

/-- The table with a new last slot. -/
def push (fs : TmpFs) (n : Node) : TmpFs := { fs with nodes := fs.nodes ++ [some n] }

variable {fs : TmpFs} {i j : Nat} {n : Node}

theorem node_ok : fs.node i = .ok n ↔ fs.get? i = some n := by
  unfold node inodeToIndex get?
  split
  · rename_i hi
    split at hi
    · rename_i h0; simp [h0]
    · cases hi
  · rename_i idx hi
    split at hi
    · cases hi
    · rename_i h0
      obtain rfl : i - 1 = idx := some.inj hi
      rw [if_neg h0]
      split
      · rename_i m hm; rw [hm]; simp
      · rename_i hm
        constructor
        · intro h; cases h
        · intro h
          rcases hs : fs.nodes[i - 1]? with _ | _ | m
          · rw [hs] at h; cases h
          · rw [hs] at h; cases h
          · exact absurd hs (hm m)

theorem node_error (h : fs.get? i = none) : ∃ e, fs.node i = .error e := by
  cases hn : fs.node i with
  | error e => exact ⟨e, rfl⟩
  | ok n => rw [node_ok.mp hn] at h; cases h

/-- A slot that holds a node is one of the table's. -/
theorem index_of_get? (h : fs.get? i = some n) : 1 ≤ i ∧ i ≤ fs.nodes.length := by
  unfold get? at h
  split at h
  · cases h
  · have hlt : i - 1 < fs.nodes.length := by
      by_contra hge
      rw [getElem?_eq_none (by omega)] at h
      cases h
    omega

theorem get?_nextInode : fs.get? fs.nextInode = none := by
  cases h : fs.get? fs.nextInode with
  | none => rfl
  | some n =>
    have := index_of_get? h
    simp only [nextInode] at this
    omega

/-- No live node has the number that is given out next. -/
theorem ne_nextInode {j : Nat} {n : Node} (hn : fs.get? j = some n) : j ≠ fs.nextInode := by
  rintro rfl
  rw [get?_nextInode] at hn; cases hn

theorem get?_put (h : fs.get? i = some n) (slot : Option Node) (j : Nat) :
    (fs.put i slot).get? j = if j = i then slot else fs.get? j := by
  have hi := index_of_get? h
  unfold get? put
  by_cases hj : j = i
  · subst hj
    rw [if_neg (by omega), if_pos rfl, getElem?_set_self (by omega)]; rfl
  · split
    · rfl
    · rw [getElem?_set_ne (by omega)]

/-- Putting back what is there changes nothing. -/
theorem put_self (h : fs.get? i = some n) : fs.put i (some n) = fs := by
  have hi := index_of_get? h
  have hslot : fs.nodes[i - 1]? = some (some n) := by
    unfold get? at h
    rw [if_neg (by omega)] at h
    rcases hs : fs.nodes[i - 1]? with _ | _ | m
    · rw [hs] at h; cases h
    · rw [hs] at h; cases h
    · rw [hs] at h; exact congrArg (fun o => some o) h
  have hset : fs.nodes.set (i - 1) (some n) = fs.nodes := by
    refine ext_getElem? fun j => ?_
    rw [getElem?_set]
    split
    · rename_i hj
      rw [← hj, hslot, if_pos (by omega)]
    · rfl
  rw [put, hset]

theorem get?_push (n : Node) (j : Nat) :
    (fs.push n).get? j = if j = fs.nextInode then some n else fs.get? j := by
  unfold get? push nextInode
  by_cases hj : j = fs.nodes.length + 1
  · subst hj
    rw [if_pos rfl, Nat.add_sub_cancel, getElem?_append_right (Nat.le_refl _),
      Nat.sub_self]
    rfl
  · split
    · rfl
    · by_cases hlt : j - 1 < fs.nodes.length
      · rw [getElem?_append_left hlt]
      · rw [getElem?_eq_none (by rw [length_append, length_singleton]; omega),
          getElem?_eq_none (by omega)]

theorem modifyNode_ok (h : fs.get? i = some n) (f : Node → Node) :
    fs.modifyNode i f = .ok (fs.put i (some (f n))) := by
  rw [modifyNode, node_ok.mpr h]; rfl

/-! ## Lookups -/

/-- The child test of `lookup_child_by_name`. -/
def isNamed (fs : TmpFs) (name : Str) (child : Nat) : Bool :=
  (fs.get? child).any fun n => n.name == name

theorem lookup_eq (fs : TmpFs) (p : Nat) (name : Str) :
    fs.lookupChildByName p name =
      (fs.get? p).bind fun d =>
        if d.kind = .directory then d.children.find? (fs.isNamed name) else none := by
  unfold lookupChildByName
  cases hp : fs.get? p with
  | none =>
    obtain ⟨e, he⟩ := node_error hp
    rw [he]; rfl
  | some d =>
    rw [node_ok.mpr hp]
    simp only [bind_some]
    by_cases hk : d.kind = .directory
    · rw [if_neg (not_not_intro hk), if_pos hk]
      -- the two child tests agree
      refine congrArg (fun t => d.children.find? t) (funext fun child => ?_)
      unfold isNamed
      cases hc : fs.get? child with
      | none =>
        obtain ⟨e, he⟩ := node_error hc
        rw [he]; rfl
      | some n => rw [node_ok.mpr hc]; rfl
    · rw [if_pos hk, if_neg hk]

/-- What a successful lookup says. -/
theorem lookup_some {c : Nat} (h : fs.lookupChildByName p name = some c) :
    ∃ d n, fs.get? p = some d ∧ d.kind = .directory ∧ c ∈ d.children ∧ fs.get? c = some n ∧
      n.name = name := by
  rw [lookup_eq] at h
  obtain ⟨d, hd, h⟩ := bind_eq_some_iff.mp h
  split at h
  · rename_i hk
    have hnamed := find?_some h
    unfold isNamed at hnamed
    cases hn : fs.get? c with
    | none => rw [hn] at hnamed; cases hnamed
    | some n =>
      rw [hn, any_some, beq_iff_eq] at hnamed
      exact ⟨d, n, hd, hk, mem_of_find?_eq_some h, rfl, hnamed⟩
  · cases h

/-- A failed lookup in a directory: no live child has the name. -/
theorem lookup_none (h : fs.lookupChildByName p name = none) (hd : fs.get? p = some d)
    (hk : d.kind = .directory) : ∀ c ∈ d.children, ∀ n, fs.get? c = some n → n.name ≠ name := by
  rw [lookup_eq, hd, bind_some, if_pos hk, find?_eq_none] at h
  intro c hc n hn heq
  apply h c hc
  unfold isNamed
  rw [hn, any_some, heq, beq_self_eq_true]

/-! ## The operations -/

/-- The node that `insert_node` makes. -/
def newNode (inode p : Nat) (name : Str) (kind : FileType) : Node :=
  { inode := inode, name := name, kind := kind, parent := some p, children := [], data := [] }

/-- A new child `name` of `p`, whose node is `d`. -/
def attach (fs : TmpFs) (p : Nat) (d : Node) (name : Str) (kind : FileType) : TmpFs :=
  (fs.push (newNode fs.nextInode p name kind)).put p
    (some { d with children := d.children ++ [fs.nextInode] })

/-- When the checks pass, the child is attached. -/
theorem insertNode_ok (hp : fs.get? p = some d) (hk : d.kind = .directory)
    (hl : fs.lookupChildByName p name = none) (kind : FileType) :
    fs.insertNode p name kind = (.ok fs.nextInode, fs.attach p d name kind) := by
  -- the parent is still there after the push
  have hne : p ≠ fs.nextInode := ne_nextInode hp
  have hpush : (fs.push (newNode fs.nextInode p name kind)).get? p = some d := by
    rw [get?_push, if_neg hne, hp]
  have hmod := modifyNode_ok hpush (fun n => { n with children := n.children ++ [fs.nextInode] })
  unfold insertNode
  rw [node_ok.mpr hp, hl]
  simp only [isSome_none]
  rw [if_neg (not_not_intro hk), ← newNode, ← push, hmod]
  rfl

theorem insertNode_cases (fs : TmpFs) (p : Nat) (name : Str) (kind : FileType) :
    (∃ e, fs.insertNode p name kind = (.error e, fs)) ∨
    ∃ d, fs.get? p = some d ∧ d.kind = .directory ∧ fs.lookupChildByName p name = none ∧
      fs.insertNode p name kind = (.ok fs.nextInode, fs.attach p d name kind) := by
  cases hp : fs.get? p with
  | none =>
    obtain ⟨e, he⟩ := node_error hp
    exact .inl ⟨e, by rw [insertNode, he]⟩
  | some d =>
    by_cases hk : d.kind = .directory
    · cases hl : fs.lookupChildByName p name with
      | some c =>
        refine .inl ⟨"already exists", ?_⟩
        rw [insertNode, node_ok.mpr hp, hl]
        simp only
        rw [if_neg (not_not_intro hk)]
        exact if_pos rfl
      | none => exact .inr ⟨d, rfl, hk, rfl, insertNode_ok hp hk hl kind⟩
    · refine .inl ⟨"parent is not a directory", ?_⟩
      rw [insertNode, node_ok.mpr hp]
      exact if_pos hk

/-- The node `i` taken out of the children of `p`, whose node is `d`, and out of the table. -/
def detach (fs : TmpFs) (i p : Nat) (d : Node) : TmpFs :=
  (fs.put p (some { d with children := d.children.filter (· ≠ i) })).clearSlot i

theorem removeInode_ok (hi : i ≠ fs.root) (hn : fs.get? i = some n)
    (hempty : ¬(n.kind = .directory ∧ n.children ≠ [])) (hpar : n.parent = some p) (hp : fs.get? p = some d) :
    fs.removeInode i = (.ok (), fs.detach i p d) := by
  unfold removeInode
  rw [if_neg hi, node_ok.mpr hn]
  simp only
  rw [if_neg hempty, hpar]
  simp only
  rw [modifyNode_ok hp]
  rfl

theorem removeInode_cases (fs : TmpFs) (i : Nat) :
    (∃ e, fs.removeInode i = (.error e, fs)) ∨
    ∃ n, i ≠ fs.root ∧ fs.get? i = some n ∧ ¬(n.kind = .directory ∧ n.children ≠ []) ∧
      ((n.parent = none ∧ fs.removeInode i = (.ok (), fs.clearSlot i)) ∨
        ∃ p d, n.parent = some p ∧ fs.get? p = some d ∧
          fs.removeInode i = (.ok (), fs.detach i p d)) := by
  unfold removeInode
  by_cases hroot : i = fs.root
  · rw [if_pos hroot]; exact .inl ⟨_, rfl⟩
  rw [if_neg hroot]
  cases hi : fs.get? i with
  | none =>
    obtain ⟨e, he⟩ := node_error hi
    rw [he]; exact .inl ⟨e, rfl⟩
  | some n =>
    rw [node_ok.mpr hi]
    simp only
    by_cases hfull : n.kind = .directory ∧ n.children ≠ []
    · rw [if_pos hfull]; exact .inl ⟨_, rfl⟩
    rw [if_neg hfull]
    cases hpar : n.parent with
    | none => exact .inr ⟨n, hroot, rfl, hfull, Or.inl ⟨hpar, rfl⟩⟩
    | some p =>
      simp only
      cases hp : fs.get? p with
      | none =>
        obtain ⟨e, he⟩ := node_error hp
        rw [modifyNode, he]; exact .inl ⟨e, rfl⟩
      | some d =>
        rw [modifyNode_ok hp]
        exact .inr ⟨n, hroot, rfl, hfull, Or.inr ⟨p, d, hpar, hp, rfl⟩⟩

/-- The children lists of a rename: `i` leaves those of `p`, whose node is `d` ... -/
def unlinked (fs : TmpFs) (i p : Nat) (d : Node) : TmpFs :=
  fs.put p (some { d with children := d.children.filter (· ≠ i) })

/-- ... joins those of `q`, whose node is then `m`, and gets its new name and parent. -/
def relink (fs : TmpFs) (i p q : Nat) (d m k : Node) (name : Str) : TmpFs :=
  ((fs.unlinked i p d).put q (some { m with children := m.children ++ [i] })).put i
    (some { k with name := name, parent := some q })

/-- The nodes that a rename reads. -/
structure Slots (fs : TmpFs) (i p q : Nat) (d m k : Node) : Prop where
  left : fs.get? p = some d
  joined : (fs.unlinked i p d).get? q = some m
  moved : ((fs.unlinked i p d).put q (some { m with children := m.children ++ [i] })).get? i = some k

theorem get?_unlinked (hp : fs.get? p = some d) (i j : Nat) :
    (fs.unlinked i p d).get? j = (fs.get? j).map fun n =>
      { n with children := if j = p then n.children.filter (· ≠ i) else n.children } := by
  rw [unlinked, get?_put hp]
  split
  · rename_i hj
    rw [hj, hp]; rfl
  · cases fs.get? j <;> rfl

/-- What moving `i` from `p` to `q` does to the node in slot `j`. -/
def moveNode (i p q : Nat) (name : Str) (j : Nat) (n : Node) : Node :=
  { n with
    name := if j = i then name else n.name
    parent := if j = i then some q else n.parent
    children := (if j = p then n.children.filter (· ≠ i) else n.children) ++ if j = q then [i] else [] }

theorem children_moveNode (i p q : Nat) (name : Str) (j : Nat) (n : Node) :
    (moveNode i p q name j n).children =
      (if j = p then n.children.filter (· ≠ i) else n.children) ++ if j = q then [i] else [] := rfl

/-- The table after a move, slot by slot, also when some of `i`, `p` and `q` are the same. -/
theorem get?_relink {m k : Node} (hslots : fs.Slots i p q d m k) (name : Str) (j : Nat) :
    (fs.relink i p q d m k name).get? j = (fs.get? j).map (moveNode i p q name j) := by
  obtain ⟨hp, hm, hk⟩ := hslots
  -- the table between the two last changes
  have hjoined : ∀ j, ((fs.unlinked i p d).put q (some { m with children := m.children ++ [i] })).get? j =
      (fs.get? j).map fun n => { n with
        children := (if j = p then n.children.filter (· ≠ i) else n.children) ++ if j = q then [i] else [] } := by
    intro j
    rw [get?_put hm]
    split
    · rename_i hj
      subst hj
      rw [get?_unlinked hp] at hm
      obtain ⟨n, hn, rfl⟩ := map_eq_some_iff.mp hm
      rw [hn]; rfl
    · rw [get?_unlinked hp]
      cases fs.get? j with
      | none => rfl
      | some n => simp only [append_nil]
  rw [relink, get?_put hk]
  split
  · rename_i hj
    subst hj
    rw [hjoined] at hk
    obtain ⟨n, hn, rfl⟩ := map_eq_some_iff.mp hk
    rw [hn, map_some, moveNode, if_pos rfl, if_pos rfl]
  · rename_i hj
    rw [hjoined]
    cases fs.get? j with
    | none => rfl
    | some n => rw [map_some, map_some, moveNode, if_neg hj, if_neg hj]

/-- The slots of the new parent and of the moved node stay filled. -/
theorem relink_slots {m0 : Node} (hi : fs.get? i = some n) (hp : fs.get? p = some d)
    (hq : fs.get? q = some m0) : ∃ m k, fs.Slots i p q d m k := by
  have hm : ∃ m, (fs.unlinked i p d).get? q = some m := by
    rw [unlinked, get?_put hp]
    split
    · exact ⟨_, rfl⟩
    · exact ⟨m0, hq⟩
  obtain ⟨m, hm⟩ := hm
  have hk : ∃ k, ((fs.unlinked i p d).put q (some { m with children := m.children ++ [i] })).get? i =
      some k := by
    rw [get?_put hm, unlinked, get?_put hp]
    split
    · exact ⟨_, rfl⟩
    · split
      · exact ⟨_, rfl⟩
      · exact ⟨n, hi⟩
  obtain ⟨k, hk⟩ := hk
  exact ⟨m, k, hp, hm, hk⟩

section checked

variable {source target : Str} (hs : fs.resolve source = .ok i) (hroot : i ≠ fs.root)
  (ht : fs.resolveParentAndName target = .ok (q, name)) (hl : fs.lookupChildByName q name = none)
  (hi : fs.get? i = some n) (hpar : n.parent = some p)

include hs hroot ht hl hi hpar

/-- When the checks pass, the node is moved. -/
theorem renamePath_ok {m k : Node} (hslots : fs.Slots i p q d m k) :
    fs.renamePath source target = (.ok (), fs.relink i p q d m k name) := by
  unfold renamePath
  rw [hs]
  simp only
  rw [if_neg hroot, ht]
  simp only [hl]
  rw [node_ok.mpr hi]
  simp only [hpar]
  rw [modifyNode_ok hslots.left]
  simp only
  rw [← unlinked, modifyNode_ok hslots.joined]
  simp only
  rw [modifyNode_ok hslots.moved]
  rfl

/-- When the slot of the new parent is empty, the node has ALREADY left its old parent's list. -/
theorem renamePath_missing (hp : fs.get? p = some d) (hq : fs.get? q = none) :
    ∃ e, fs.renamePath source target = (.error e, fs.unlinked i p d) := by
  have hq' : (fs.unlinked i p d).get? q = none := by
    rw [unlinked, get?_put hp]
    split
    · rename_i hqp
      rw [hqp, hp] at hq; cases hq
    · exact hq
  obtain ⟨e, he⟩ := node_error hq'
  refine ⟨e, ?_⟩
  unfold renamePath
  rw [hs]
  simp only
  rw [if_neg hroot, ht]
  simp only [hl, isSome_none, Bool.false_eq_true, if_false]
  rw [node_ok.mpr hi]
  simp only [hpar]
  rw [modifyNode_ok hp]
  simp only
  rw [← unlinked, modifyNode, he]

end checked

/-- Everything `rename_path` can do, in any table. -/
theorem renamePath_outcome (fs : TmpFs) (source target : Str) :
    (∃ e, fs.renamePath source target = (.error e, fs)) ∨
    ∃ i q name n p d, fs.resolve source = .ok i ∧ i ≠ fs.root ∧
      fs.resolveParentAndName target = .ok (q, name) ∧ fs.lookupChildByName q name = none ∧
      fs.get? i = some n ∧ n.parent = some p ∧ fs.get? p = some d ∧
      ((fs.get? q = none ∧ ∃ e, fs.renamePath source target = (.error e, fs.unlinked i p d)) ∨
        ∃ m k, fs.Slots i p q d m k ∧ fs.renamePath source target = (.ok (), fs.relink i p q d m k name)) := by
  cases hs : fs.resolve source with
  | error e => exact .inl ⟨e, by rw [renamePath, hs]⟩
  | ok i =>
  by_cases hroot : i = fs.root
  · exact .inl ⟨"cannot rename root", by simp only [renamePath, hs, if_pos hroot]⟩
  cases ht : fs.resolveParentAndName target with
  | error e => exact .inl ⟨e, by simp only [renamePath, hs, if_neg hroot, ht]⟩
  | ok r =>
  obtain ⟨q, name⟩ := r
  cases hl : fs.lookupChildByName q name with
  | some c =>
    exact .inl ⟨"destination exists", by
      simp only [renamePath, hs, if_neg hroot, ht, hl, isSome_some, if_true]⟩
  | none =>
  cases hi : fs.get? i with
  | none =>
    obtain ⟨e, he⟩ := node_error hi
    exact .inl ⟨e, by
      simp only [renamePath, hs, if_neg hroot, ht, hl, isSome_none, Bool.false_eq_true, if_false, he]⟩
  | some n =>
  have hnode := node_ok.mpr hi
  cases hpar : n.parent with
  | none =>
    exact .inl ⟨"missing parent", by
      simp only [renamePath, hs, if_neg hroot, ht, hl, isSome_none, Bool.false_eq_true, if_false,
        hnode, hpar]⟩
  | some p =>
  cases hp : fs.get? p with
  | none =>
    obtain ⟨e, he⟩ := node_error hp
    exact .inl ⟨e, by
      simp only [renamePath, hs, if_neg hroot, ht, hl, isSome_none, Bool.false_eq_true, if_false,
        hnode, hpar, modifyNode, he]⟩
  | some d =>
  refine .inr ⟨i, q, name, n, p, d, rfl, hroot, rfl, hl, hi, hpar, hp, ?_⟩
  cases hq : fs.get? q with
  | none => exact .inl ⟨rfl, renamePath_missing hs hroot ht hl hi hpar hp hq⟩
  | some m0 =>
    obtain ⟨m, k, hslots⟩ := relink_slots hi hp hq
    exact .inr ⟨m, k, hslots, renamePath_ok hs hroot ht hl hi hpar hslots⟩

/-- What `rename_path` can do, when the directory it moves to exists. -/
theorem renamePath_cases (fs : TmpFs) (source target : Str)
    (hlive : ∀ q name, fs.resolveParentAndName target = .ok (q, name) → ∃ m, fs.get? q = some m) :
    (∃ e, fs.renamePath source target = (.error e, fs)) ∨
    ∃ i q name n p d m k, fs.resolve source = .ok i ∧ i ≠ fs.root ∧
      fs.resolveParentAndName target = .ok (q, name) ∧ fs.lookupChildByName q name = none ∧
      fs.get? i = some n ∧ n.parent = some p ∧ fs.Slots i p q d m k ∧
      fs.renamePath source target = (.ok (), fs.relink i p q d m k name) := by
  rcases renamePath_outcome fs source target with
    he | ⟨i, q, name, n, p, d, hs, hroot, ht, hl, hi, hpar, -, ⟨hq, -⟩ | ⟨m, k, hslots, hr⟩⟩
  · exact .inl he
  · obtain ⟨m, hm⟩ := hlive q name ht
    rw [hq] at hm; cases hm
  · exact .inr ⟨i, q, name, n, p, d, m, k, hs, hroot, ht, hl, hi, hpar, hslots, hr⟩

/-- Only the data of a file changes. -/
def setData (fs : TmpFs) (i : Nat) (n : Node) (data : List UInt8) : TmpFs :=
  fs.put i (some { n with data := data })

/-- New contents, slot by slot. -/
theorem get?_setData (hn : fs.get? i = some n) (data : List UInt8) (j : Nat) :
    (fs.setData i n data).get? j =
      (fs.get? j).map fun m => { m with data := if j = i then data else m.data } := by
  rw [setData, get?_put hn]
  split
  · rename_i hj
    rw [hj, hn]; rfl
  · cases fs.get? j <;> rfl

theorem get?_setData_self (hn : fs.get? i = some n) (data : List UInt8) :
    (fs.setData i n data).get? i = some { n with data := data } := by
  rw [setData, get?_put hn, if_pos rfl]

section file

variable (hn : fs.get? i = some n) (hk : n.kind = .file)

include hn hk

theorem inodeLen_file : fs.inodeLen i = .ok n.data.length := by
  rw [inodeLen, node_ok.mpr hn]
  exact if_neg (not_not_intro hk)

theorem readInodeRange_file (offset maxLen : Nat) : fs.readInodeRange i offset maxLen =
    .ok ((n.data.drop offset).take (Word.sadd offset maxLen - offset)) := by
  rw [readInodeRange, node_ok.mpr hn]
  simp only
  rw [if_neg (not_not_intro hk)]
  split
  · rename_i hend
    rw [drop_eq_nil_of_le hend, take_nil]
  · refine congrArg _ (take_eq_take_iff.mpr ?_)
    rw [length_drop]
    omega

theorem writeInodeAt_file (offset : Nat) (data : List UInt8) : fs.writeInodeAt i offset data =
    (.ok data.length, fs.setData i n (writeData offset data n.data)) := by
  rw [writeInodeAt, node_ok.mpr hn]
  simp only
  rw [if_neg (not_not_intro hk), modifyNode_ok hn]
  rfl

theorem truncateInode_file : fs.truncateInode i = (.ok (), fs.setData i n []) := by
  rw [truncateInode, node_ok.mpr hn]
  simp only
  rw [if_neg (not_not_intro hk), modifyNode_ok hn]
  rfl

end file

theorem writeInodeAt_cases (fs : TmpFs) (i offset : Nat) (data : List UInt8) :
    (∃ e, fs.writeInodeAt i offset data = (.error e, fs)) ∨
    ∃ n, fs.get? i = some n ∧ n.kind = .file ∧ fs.writeInodeAt i offset data =
      (.ok data.length, fs.setData i n (writeData offset data n.data)) := by
  cases hi : fs.get? i with
  | none =>
    obtain ⟨e, he⟩ := node_error hi
    rw [writeInodeAt, he]; exact .inl ⟨e, rfl⟩
  | some n =>
    by_cases hk : n.kind = .file
    · exact .inr ⟨n, rfl, hk, writeInodeAt_file hi hk _ _⟩
    · rw [writeInodeAt, node_ok.mpr hi]
      exact .inl ⟨_, if_pos hk⟩

theorem truncateInode_cases (fs : TmpFs) (i : Nat) :
    (∃ e, fs.truncateInode i = (.error e, fs)) ∨
    ∃ n, fs.get? i = some n ∧ n.kind = .file ∧
      fs.truncateInode i = (.ok (), fs.setData i n []) := by
  cases hi : fs.get? i with
  | none =>
    obtain ⟨e, he⟩ := node_error hi
    rw [truncateInode, he]; exact .inl ⟨e, rfl⟩
  | some n =>
    by_cases hk : n.kind = .file
    · exact .inr ⟨n, rfl, hk, truncateInode_file hi hk⟩
    · rw [truncateInode, node_ok.mpr hi]
      exact .inl ⟨_, if_pos hk⟩

/-! ## Climbing -/

/-- The loop of `path_for_inode` from `i` visits the slots `l` and ends. -/
inductive Ends (fs : TmpFs) : Nat → List Nat → Prop
  | stop {i : Nat} (h : fs.get? i = none ∨ i = fs.root) : Ends fs i []
  | last {i : Nat} {n : Node} (hn : fs.get? i = some n) (hi : i ≠ fs.root)
      (hp : n.parent.getD fs.root = fs.root) : Ends fs i [i]
  | next {i : Nat} {n : Node} {l : List Nat} (hn : fs.get? i = some n) (hi : i ≠ fs.root)
      (hp : n.parent.getD fs.root ≠ fs.root) (h : Ends fs (n.parent.getD fs.root) l) :
      Ends fs i (i :: l)

section

variable (h : fs.Ends i l)

include h

/-- The climb is determined by its start. -/
theorem Ends.det {l' : List Nat} (h' : fs.Ends i l') : l = l' := by
  induction h generalizing l' with
  | stop h =>
    cases h' with
    | stop => rfl
    | last hn hi => rcases h with h | h <;> simp_all
    | next hn hi => rcases h with h | h <;> simp_all
  | last hn hi hp =>
    cases h' with
    | stop h => rcases h with h | h <;> simp_all
    | last => rfl
    | next hn' _ hp' =>
      obtain rfl := mem_unique hn hn'
      exact absurd hp hp'
  | next hn hi hp _ ih =>
    cases h' with
    | stop h => rcases h with h | h <;> simp_all
    | last hn' _ hp' =>
      obtain rfl := mem_unique hn hn'
      exact absurd hp' hp
    | next hn' _ _ h'' =>
      obtain rfl := mem_unique hn hn'
      rw [ih h'']

/-- From a slot on the way the climb is the rest of it. -/
theorem Ends.suffix (hj : j ∈ l) : ∃ l', fs.Ends j l' ∧ l' <:+ l := by
  induction h with
  | stop h => cases hj
  | last hn hi hp =>
    rw [mem_singleton.mp hj]
    exact ⟨_, .last hn hi hp, suffix_rfl⟩
  | next hn hi hp h ih =>
    rcases mem_cons.mp hj with rfl | hj
    · exact ⟨_, .next hn hi hp h, suffix_rfl⟩
    · obtain ⟨l', hl', hsuf⟩ := ih hj
      exact ⟨l', hl', hsuf.trans (suffix_cons _ _)⟩

/-- **A climb that ends visits no slot twice.** -/
theorem Ends.nodup : l.Nodup := by
  induction h with
  | stop => exact nodup_nil
  | last => exact nodup_singleton _
  | @next i n l hn hi hp h ih =>
    refine nodup_cons.mpr ⟨fun hmem => ?_, ih⟩
    -- the climb from `i` would be a part of itself
    obtain ⟨l', hl', hsuf⟩ := h.suffix hmem
    have heq := hl'.det (.next hn hi hp h)
    have hlen := hsuf.length_le
    rw [heq, length_cons] at hlen
    omega

theorem Ends.live (hj : j ∈ l) : ∃ n, fs.get? j = some n := by
  induction h with
  | stop => cases hj
  | last hn => rw [mem_singleton.mp hj]; exact ⟨_, hn⟩
  | next hn _ _ _ ih =>
    rcases mem_cons.mp hj with rfl | hj
    · exact ⟨_, hn⟩
    · exact ih hj

theorem Ends.length_le : l.length ≤ fs.nodes.length := by
  have hsub : l ⊆ range' 1 fs.nodes.length := by
    intro j hj
    obtain ⟨n, hn⟩ := h.live hj
    have := index_of_get? hn
    exact mem_range'_1.mpr (by omega)
  have := (subperm_of_subset h.nodup hsub).length_le
  rwa [length_range'] at this

/-- A climb that ends fits any bound above its length. -/
theorem Ends.pathLoop {fuel : Nat} (hf : l.length < fuel) (parts : List Str) :
    ∃ out, fs.pathLoop fuel i parts = some out := by
  induction h generalizing fuel parts with
  | @stop i h =>
    obtain ⟨fuel, rfl⟩ : ∃ f, fuel = f + 1 := ⟨fuel - 1, by omega⟩
    unfold TmpFs.pathLoop
    cases hn : fs.node i with
    | error e => exact ⟨_, rfl⟩
    | ok n =>
      rcases h with h | h
      · rw [node_ok.mp hn] at h; cases h
      · simp only; rw [if_pos h]; exact ⟨_, rfl⟩
  | last hn hi hp =>
    obtain ⟨fuel, rfl⟩ : ∃ f, fuel = f + 1 := ⟨fuel - 1, by omega⟩
    unfold TmpFs.pathLoop
    rw [node_ok.mpr hn]
    simp only
    rw [if_neg hi, if_pos hp]; exact ⟨_, rfl⟩
  | next hn hi hp _ ih =>
    obtain ⟨fuel, rfl⟩ : ∃ f, fuel = f + 1 := ⟨fuel - 1, by omega⟩
    unfold TmpFs.pathLoop
    rw [node_ok.mpr hn]
    simp only
    rw [if_neg hi, if_neg hp]
    exact ih (by rw [length_cons] at hf; omega) _

end

theorem ends_of_pathLoop {fuel : Nat} {out : List Str} (h : fs.pathLoop fuel i parts = some out) :
    ∃ l, fs.Ends i l := by
  induction fuel generalizing i parts with
  | zero => cases h
  | succ fuel ih =>
    unfold TmpFs.pathLoop at h
    cases hn : fs.get? i with
    | none => exact ⟨_, .stop (Or.inl hn)⟩
    | some n =>
      rw [node_ok.mpr hn] at h
      simp only at h
      by_cases hi : i = fs.root
      · exact ⟨_, .stop (Or.inr hi)⟩
      rw [if_neg hi] at h
      by_cases hp : n.parent.getD fs.root = fs.root
      · exact ⟨_, .last hn hi hp⟩
      · rw [if_neg hp] at h
        obtain ⟨l, hl⟩ := ih h
        exact ⟨_, .next hn hi hp hl⟩

/-- More room does not change where a climb that ends gets to. -/
theorem pathLoop_mono {fuel fuel' : Nat} (hle : fuel ≤ fuel') {out : List Str}
    (h : fs.pathLoop fuel i parts = some out) : fs.pathLoop fuel' i parts = some out := by
  induction fuel generalizing fuel' i parts with
  | zero => cases h
  | succ fuel ih =>
    obtain ⟨fuel', rfl⟩ : ∃ k, fuel' = k + 1 := ⟨fuel' - 1, by omega⟩
    unfold TmpFs.pathLoop at h ⊢
    cases hn : fs.node i with
    | error e => rw [hn] at h; exact h
    | ok n =>
      rw [hn] at h
      simp only at h ⊢
      by_cases hroot : i = fs.root
      · rw [if_pos hroot] at h ⊢; exact h
      rw [if_neg hroot] at h ⊢
      by_cases hlast : n.parent.getD fs.root = fs.root
      · rw [if_pos hlast] at h ⊢; exact h
      · rw [if_neg hlast] at h ⊢
        exact ih (by omega) h

/-- **The bound is exact**: when `path_for_inode` does not end within the number of slots, it does not
    end at all. -/
theorem pathLoop_none (h : fs.pathLoop (fs.nodes.length + 1) i parts = none) (fuel : Nat) :
    fs.pathLoop fuel i parts = none := by
  cases hf : fs.pathLoop fuel i parts with
  | none => rfl
  | some out =>
    obtain ⟨l, hl⟩ := ends_of_pathLoop hf
    obtain ⟨out', ho⟩ := hl.pathLoop (Nat.lt_succ_of_le hl.length_le) parts
    rw [h] at ho; cases ho

end TmpFs

open TmpFs

/-! ## Resolving -/

/-- The node that a path starts from. -/
def TmpFs.startOf (fs : TmpFs) (path : Str) : Nat := if path.head? = some '/' then fs.root else fs.cwd

/-- `resolve` goes through the components, `.` and `..` included. -/
theorem resolve_eq (fs : TmpFs) (path : Str) :
    fs.resolve path = (components path).foldlM fs.resolveStep (fs.startOf path) := by
  unfold resolve resolveFrom startOf
  by_cases hroot : path = ['/']
  · subst hroot; rfl
  · rw [if_neg hroot]; rfl

section
variable {path : Str} {cs : List Str} (hcs : ∀ c ∈ cs, IsComp c)
include hcs

theorem components_parentPath : components (parentPath path cs) = cs := by
  unfold parentPath
  split
  · split
    · rename_i hnil; rw [hnil]; rfl
    · exact components_absolute hcs
  · exact components_join hcs

theorem parentPath_eq_nil (hempty : parentPath path cs = []) : path.head? ≠ some '/' ∧ cs = [] := by
  refine ⟨fun habs => ?_, ?_⟩
  · rw [parentPath, if_pos habs] at hempty
    split at hempty <;> cases hempty
  · have hback : components (parentPath path cs) = cs := components_parentPath hcs
    rw [hempty] at hback
    exact hback.symm

/-- A parent path is absolute when the path is. -/
theorem head?_parentPath (hne : parentPath path cs ≠ []) :
    (parentPath path cs).head? = some '/' ↔ path.head? = some '/' := by
  unfold parentPath at hne ⊢
  by_cases habs : path.head? = some '/'
  · rw [if_pos habs]
    split <;> exact ⟨fun _ => habs, fun _ => rfl⟩
  · rw [if_neg habs] at hne ⊢
    refine ⟨fun hslash => ?_, fun hslash => absurd hslash habs⟩
    cases cs with
    | nil => exact absurd rfl hne
    | cons b bs =>
      -- the first component has no slash
      obtain ⟨hb, hnot⟩ := hcs b mem_cons_self
      rw [join_cons] at hslash
      cases b with
      | nil => exact absurd rfl hb
      | cons x xs =>
        exact absurd (some.inj hslash ▸ mem_cons_self) hnot

end

/-- `resolve_parent_and_name` goes through all components but the last, which is a name. -/
theorem resolveParentAndName_fold {fs : TmpFs} {path : Str} (h : fs.resolveParentAndName path = .ok (p, name)) :
    ∃ cs, components path = cs ++ [name] ∧ IsName name ∧
      cs.foldlM fs.resolveStep (fs.startOf path) = .ok p := by
  unfold resolveParentAndName at h
  generalize hparts : pathParts path = parts at h
  obtain rfl : components path = parts := hparts
  simp only at h
  cases hlast : (components path).getLast? with
  | none => rw [hlast] at h; cases h
  | some c =>
    rw [hlast] at h
    simp only at h
    have hsplit := dropLast_append_getLast? c hlast
    have hcomp : ∀ b ∈ (components path).dropLast, IsComp b :=
      fun b hb => isComp_of_mem (dropLast_subset _ hb)
    split at h
    · cases h
    rename_i hdots
    push Not at hdots
    have hname : IsName c := ⟨isComp_of_mem (mem_of_getLast? hlast), hdots.1, hdots.2⟩
    by_cases hempty : parentPath path (components path).dropLast = []
    · rw [if_pos hempty] at h
      obtain ⟨rfl, rfl⟩ := Prod.mk.inj (Except.ok.inj h)
      obtain ⟨habs, hnil⟩ := parentPath_eq_nil hcomp hempty
      refine ⟨_, hsplit.symm, hname, ?_⟩
      rw [hnil, startOf, if_neg habs]; rfl
    · rw [if_neg hempty, resolve_eq, components_parentPath hcomp] at h
      simp only [startOf, head?_parentPath hcomp hempty] at h
      split at h
      · cases h
      · rename_i q hq
        obtain ⟨rfl, rfl⟩ := Prod.mk.inj (Except.ok.inj h)
        exact ⟨_, hsplit.symm, hname, hq⟩

theorem foldlM_cons_ok {fs : TmpFs} {i j : Nat} {part : Str} :
    (part :: parts).foldlM fs.resolveStep i = .ok j ↔
      ∃ k, fs.resolveStep i part = .ok k ∧ parts.foldlM fs.resolveStep k = .ok j := by
  rw [foldlM_cons]
  cases fs.resolveStep i part with
  | error e =>
    refine iff_of_false (fun h => ?_) ?_
    · cases h
    · rintro ⟨k, ⟨⟩, -⟩
  | ok k =>
    refine ⟨fun h => ⟨k, rfl, h⟩, ?_⟩
    rintro ⟨_, ⟨⟩, h⟩
    exact h

section following

variable {fs : TmpFs} {Q : Nat → Prop} (hroot : Q fs.root) (hcwd : Q fs.cwd)
  (hup : ∀ {i p : Nat} {n : Node}, Q i → fs.get? i = some n → n.parent = some p → Q p)
  (hdown : ∀ {i c : Nat} {name : Str}, Q i → fs.lookupChildByName i name = some c → Q c)

include hup hdown

/-- What parents and children keep, a path keeps. -/
theorem foldlM_inv {i c : Nat} (hi : Q i) (hr : parts.foldlM fs.resolveStep i = .ok c) : Q c := by
  induction parts generalizing i with
  | nil => cases hr; exact hi
  | cons part parts ih =>
    obtain ⟨j, hs, hr⟩ := foldlM_cons_ok.mp hr
    refine ih ?_ hr
    unfold resolveStep at hs
    split at hs
    · cases hs; exact hi
    split at hs
    · split at hs
      · cases hs
      · rename_i n hn
        cases hs
        cases hp : n.parent with
        | none => exact hi
        | some p => exact hup hi (node_ok.mp hn) hp
    · split at hs
      · cases hs
      · rename_i hl
        cases hs; exact hdown hi hl

include hroot hcwd

theorem resolve_inv {path : Str} {c : Nat} (hr : fs.resolve path = .ok c) : Q c := by
  rw [resolve_eq, startOf] at hr
  split at hr
  · exact foldlM_inv hup hdown hroot hr
  · exact foldlM_inv hup hdown hcwd hr

theorem resolveParentAndName_inv {path : Str} (hr : fs.resolveParentAndName path = .ok (q, name)) :
    Q q ∧ IsName name := by
  obtain ⟨cs, -, hname, hfold⟩ := resolveParentAndName_fold hr
  refine ⟨?_, hname⟩
  rw [startOf] at hfold
  split at hfold
  · exact foldlM_inv hup hdown hroot hfold
  · exact foldlM_inv hup hdown hcwd hfold

end following

end Saios.Vfs
