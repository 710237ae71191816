/-
  THE LINKS OF THE NODE TABLE, in EVERY reachable table, also in one that renames have broken.

  1. **`Linked`** — what every run keeps of the links: a listed node that is alive has the node that lists
     it as its parent, and names below the root are proper names.

  2. **Edges** — a lookup finds exactly the live child with the name (`Linked.lookup_iff`), so the lookups are
     the edges of a tree (`Linked.tree`).

  3. **Changes** — a new child is one new edge (`edge_attach`).  Every other operation on the links moves one
     node: it leaves the lists it is in and joins others, or none (`Shift`, `Shift.edge`).  That the changes
     keep `Linked`, and what they do to the paths, is read off the edges.
-/
import Saios.Lib.EdgeTree
import Saios.Lib.PathMap
import Saios.Vfs.Table

namespace Saios.Vfs

open Path TmpFs EdgeTree List Option

def Node.entry (n : Node) : Entry (List UInt8) :=
  if n.kind = .directory then .dir else .file n.data

variable {n : Node}

theorem Node.entry_dir : n.entry = .dir ↔ n.kind = .directory := by
  unfold Node.entry
  split
  · exact ⟨fun _ => ‹_›, fun _ => rfl⟩
  · exact ⟨nofun, fun h => absurd h ‹_›⟩

theorem Node.entry_file (h : n.kind = .file) : n.entry = .file n.data := by
  rw [Node.entry, if_neg (by rw [h]; decide)]

/-- What child lists and parent links have in common in every reachable table. -/
structure Linked (fs : TmpFs) : Prop where
  root : ∃ r, fs.get? fs.root = some r ∧ r.parent = none
  parent : ∀ {i : Nat} {n : Node}, fs.get? i = some n → i ≠ fs.root → ∃ p, n.parent = some p
  named : ∀ {i : Nat} {n : Node}, fs.get? i = some n → i ≠ fs.root → IsName n.name
  /-- What a node lists has it as its parent, if it is alive ... -/
  links : ∀ {p c : Nat} {d n : Node}, fs.get? p = some d → c ∈ d.children → fs.get? c = some n →
    n.parent = some p
  /-- ... and in any case it is no slot that is still to be given out. -/
  bound : ∀ {p c : Nat} {d : Node}, fs.get? p = some d → c ∈ d.children → c ≤ fs.nodes.length
  /-- The live children of a directory have different names. -/
  siblings : ∀ {p c c' : Nat} {d n n' : Node}, fs.get? p = some d → d.kind = .directory →
    c ∈ d.children → fs.get? c = some n → c' ∈ d.children → fs.get? c' = some n' → n.name = n'.name → c = c'

/-! ## Edges -/

/-- `j` is a live child of the directory `r` with the name `c`. -/
def Edge (fs : TmpFs) (r : Nat) (c : Str) (j : Nat) : Prop :=
  ∃ d n, fs.get? r = some d ∧ d.kind = .directory ∧ j ∈ d.children ∧ fs.get? j = some n ∧ n.name = c

variable {r j : Nat}

theorem not_edge {fs : TmpFs} {c : Str} (hl : fs.lookupChildByName r c = none) : ¬Edge fs r c j := by
  rintro ⟨d, n, hd, hk, hj, hn, hname⟩
  exact lookup_none hl hd hk j hj n hn hname

/-- What is below a node that is no directory, or an empty one. -/
theorem lookup_leaf {fs : TmpFs} {i : Nat} (hn : fs.get? i = some n)
    (hleaf : ¬(n.kind = .directory ∧ n.children ≠ [])) (c : Str) : fs.lookupChildByName i c = none := by
  cases hl : fs.lookupChildByName i c with
  | none => rfl
  | some j =>
    obtain ⟨d, -, hd, hk, hj, -⟩ := lookup_some hl
    obtain rfl := mem_unique hn hd
    exact absurd ⟨hk, ne_nil_of_mem hj⟩ hleaf

/-- The node that the names lead to from the root. -/
def TmpFs.nodeAt (fs : TmpFs) (cs : List Str) : Option Nat := walk fs.lookupChildByName fs.root cs

section edges

variable {fs : TmpFs} (h : Linked fs) {cs : List Str} {c : Str} {i : Nat}

include h

theorem Linked.ne_root {i p : Nat} (hn : fs.get? i = some n) (hp : n.parent = some p) : i ≠ fs.root := by
  rintro rfl
  obtain ⟨r, hr, hnone⟩ := h.root
  obtain rfl := mem_unique hn hr
  rw [hnone] at hp; cases hp

theorem Linked.edge_unique {j' : Nat} (hj : Edge fs r c j) (hj' : Edge fs r c j') : j = j' := by
  obtain ⟨d, n, hd, hk, hmem, hn, rfl⟩ := hj
  obtain ⟨d', n', hd', -, hmem', hn', hname⟩ := hj'
  obtain rfl := mem_unique hd hd'
  exact h.siblings hd hk hmem hn hmem' hn' hname.symm

/-- Siblings still have different names when all that is new are edges to one node, at free places. -/
theorem Linked.siblings_of_edges {fs' : TmpFs} {P : Nat → Str → Prop}
    (hedge : ∀ r c j, Edge fs' r c j ↔ (Edge fs r c j ∧ j ≠ i) ∨ (P r c ∧ j = i))
    (hfree : ∀ r c, P r c → fs.lookupChildByName r c = none) {j' : Nat} (hj : Edge fs' r c j)
    (hj' : Edge fs' r c j') : j = j' := by
  rcases (hedge r c j).mp hj with ⟨hold, -⟩ | ⟨hnew, rfl⟩
  · rcases (hedge r c j').mp hj' with ⟨hold', -⟩ | ⟨hnew, -⟩
    · exact h.edge_unique hold hold'
    · exact absurd hold (not_edge (hfree r c hnew))
  · rcases (hedge r c j').mp hj' with ⟨hold', -⟩ | ⟨-, rfl⟩
    · exact absurd hold' (not_edge (hfree r c hnew))
    · rfl

/-- **Lookup finds exactly the child with the name.** -/
theorem Linked.lookup_iff {c : Str} : fs.lookupChildByName r c = some j ↔ Edge fs r c j := by
  refine ⟨lookup_some, fun hedge => ?_⟩
  cases hl : fs.lookupChildByName r c with
  | none => exact absurd hedge (not_edge hl)
  | some j' => rw [h.edge_unique (lookup_some hl) hedge]

/-- **Lookups make a tree.** -/
theorem Linked.tree : Tree fs.lookupChildByName fs.root := by
  constructor
  · intro p q k l i hk hl
    obtain ⟨d, n, hd, -, hmem, hn, rfl⟩ := lookup_some hk
    obtain ⟨d', n', hd', -, hmem', hn', rfl⟩ := lookup_some hl
    obtain rfl := mem_unique hn hn'
    exact ⟨mem_unique (h.links hd hmem hn) (h.links hd' hmem' hn), rfl⟩
  · intro p k hl
    obtain ⟨d, n, hd, -, hmem, hn, -⟩ := lookup_some hl
    exact h.ne_root hn (h.links hd hmem hn) rfl

/-- The last step of a path: from the parent, by the name. -/
theorem Linked.nodeAt_concat (hi : fs.nodeAt (cs ++ [c]) = some i) :
    ∃ p n, fs.nodeAt cs = some p ∧ fs.lookupChildByName p c = some i ∧ fs.get? i = some n ∧
      n.parent = some p ∧ n.name = c ∧ i ≠ fs.root := by
  rw [nodeAt, walk_concat] at hi
  obtain ⟨p, hp, hl⟩ := bind_eq_some_iff.mp hi
  obtain ⟨d, n, hd, -, hmem, hn, hname⟩ := lookup_some hl
  have hpar := h.links hd hmem hn
  exact ⟨p, n, hp, hl, hn, hpar, hname, h.ne_root hn hpar⟩

theorem Linked.nodeAt_live (hi : fs.nodeAt cs = some i) : ∃ n, fs.get? i = some n := by
  cases cs using reverseRecOn with
  | nil =>
    obtain ⟨r, hr, -⟩ := h.root
    obtain rfl : fs.root = i := some.inj hi
    exact ⟨r, hr⟩
  | append_singleton cs c =>
    obtain ⟨p, n, -, -, hn, -⟩ := h.nodeAt_concat hi
    exact ⟨n, hn⟩

end edges

/-! ## A new child -/

theorem length_put (fs : TmpFs) (i : Nat) (slot : Option Node) :
    (fs.put i slot).nodes.length = fs.nodes.length := length_set

section attach

variable {fs : TmpFs} {p j : Nat} {d : Node} (hd : fs.get? p = some d)

theorem length_attach (name : Str) (kind : FileType) :
    (fs.attach p d name kind).nodes.length = fs.nodes.length + 1 := by
  rw [TmpFs.attach, length_put, TmpFs.push, length_append, length_singleton]

include hd

theorem get?_attach (name : Str) (kind : FileType) (j : Nat) : (fs.attach p d name kind).get? j =
      if j = p then some { d with children := d.children ++ [fs.nextInode] }
      else if j = fs.nextInode then some (newNode fs.nextInode p name kind)
      else fs.get? j := by
  have hne : p ≠ fs.nextInode := ne_nextInode hd
  have hpush : (fs.push (newNode fs.nextInode p name kind)).get? p = some d := by
    rw [get?_push, if_neg hne, hd]
  rw [TmpFs.attach, get?_put hpush, get?_push]

theorem get?_attached (name : Str) (kind : FileType) :
    (fs.attach p d name kind).get? fs.nextInode = some (newNode fs.nextInode p name kind) := by
  rw [get?_attach hd, if_neg (ne_nextInode hd).symm, if_pos rfl]

omit hd in
theorem mem_attached {l : List Nat} {c k : Nat} : c ∈ (if j = p then l ++ [k] else l) ↔ c ∈ l ∨ j = p ∧ c = k := by
  split <;> simp [*]

/-- A node of the old table is in the new one, with the new child in its list if it is the parent. -/
theorem attach_old {m : Node} (name : Str) (kind : FileType) (hm : fs.get? j = some m) :
    ∃ m', (fs.attach p d name kind).get? j = some m' ∧ m'.parent = m.parent ∧ m'.name = m.name ∧
      m'.kind = m.kind ∧ m'.children = if j = p then m.children ++ [fs.nextInode] else m.children := by
  rw [get?_attach hd]
  by_cases hj : j = p
  · subst hj
    obtain rfl := mem_unique hd hm
    rw [if_pos rfl, if_pos rfl]
    exact ⟨_, rfl, rfl, rfl, rfl, rfl⟩
  · rw [if_neg hj, if_neg (ne_nextInode hm), if_neg hj]
    exact ⟨m, hm, rfl, rfl, rfl, rfl⟩

/-- A node of the new table is the new child or an old node. -/
theorem attach_cases {m' : Node} {name : Str} {kind : FileType} (hm' : (fs.attach p d name kind).get? j = some m') :
    (j = fs.nextInode ∧ m' = newNode fs.nextInode p name kind) ∨
      ∃ m, fs.get? j = some m ∧ m'.parent = m.parent ∧ m'.name = m.name ∧ m'.kind = m.kind ∧
        m'.children = if j = p then m.children ++ [fs.nextInode] else m.children := by
  cases hm : fs.get? j with
  | none =>
    rw [get?_attach hd, if_neg (by rintro rfl; rw [hd] at hm; cases hm), hm] at hm'
    split at hm'
    · exact .inl ⟨‹_›, (some.inj hm').symm⟩
    · cases hm'
  | some m =>
    obtain ⟨m'', hm'', hsame⟩ := attach_old hd name kind hm
    obtain rfl := mem_unique hm' hm''
    exact .inr ⟨m, rfl, hsame⟩

end attach

section attached

variable {fs : TmpFs} (h : Linked fs) {p : Nat} {d : Node} (hd : fs.get? p = some d) (hk : d.kind = .directory)
  {name : Str} (kind : FileType)

include h

/-- A slot that is still to be given out is in no list. -/
theorem Linked.unlisted {q : Nat} {e : Node} (he : fs.get? q = some e) : fs.nextInode ∉ e.children := by
  intro hc
  have hle := h.bound he hc
  unfold nextInode at hle
  omega

include hd hk

variable (name) in
/-- **A new child is one new edge.** -/
theorem edge_attach (r : Nat) (c : Str) (j : Nat) : Edge (fs.attach p d name kind) r c j ↔
    (Edge fs r c j ∧ j ≠ fs.nextInode) ∨ ((r = p ∧ c = name) ∧ j = fs.nextInode) := by
  constructor
  · rintro ⟨e', n', he', hek, hj, hn', rfl⟩
    rcases attach_cases hd he' with ⟨-, rfl⟩ | ⟨e, he, -, -, hkind, hch⟩
    · cases hj
    rw [hch, mem_attached] at hj
    rcases attach_cases hd hn' with ⟨rfl, rfl⟩ | ⟨n, hn, -, hname, -⟩
    · exact .inr ⟨⟨(hj.resolve_left (h.unlisted he)).1, rfl⟩, rfl⟩
    · have hold := hj.resolve_right fun hnew => ne_nextInode hn hnew.2
      exact .inl ⟨⟨e, n, he, hkind.symm.trans hek, hold, hn, hname.symm⟩, ne_nextInode hn⟩
  · rintro (⟨⟨e, n, he, hek, hj, hn, rfl⟩, -⟩ | ⟨⟨rfl, rfl⟩, rfl⟩)
    · obtain ⟨e', he', -, -, hkind, hch⟩ := attach_old hd name kind he
      obtain ⟨n', hn', -, hname', -⟩ := attach_old hd name kind hn
      exact ⟨e', n', he', hkind.trans hek, hch ▸ mem_attached.mpr (.inl hj), hn', hname'⟩
    · obtain ⟨e', he', -, -, hkind, hch⟩ := attach_old hd c kind hd
      exact ⟨e', _, he', hkind.trans hk, hch ▸ mem_attached.mpr (.inr ⟨rfl, rfl⟩), get?_attached hd c kind, rfl⟩

theorem Linked.attach (hl : fs.lookupChildByName p name = none) (hname : IsName name) :
    Linked (fs.attach p d name kind) := by
  refine ⟨?_, ?_, ?_, ?_, ?_, ?_⟩
  · obtain ⟨r, hr, hnone⟩ := h.root
    obtain ⟨r', hr', hpar, -⟩ := attach_old hd name kind hr
    exact ⟨r', hr', hpar.trans hnone⟩
  · intro i n' hn' hi
    rcases attach_cases hd hn' with ⟨-, rfl⟩ | ⟨n, hn, hpar, -⟩
    · exact ⟨p, rfl⟩
    · rw [hpar]; exact h.parent hn hi
  · intro i n' hn' hi
    rcases attach_cases hd hn' with ⟨-, rfl⟩ | ⟨n, hn, -, heq, -⟩
    · exact hname
    · rw [heq]; exact h.named hn hi
  · intro q c e' n' he' hc hn'
    rcases attach_cases hd he' with ⟨-, rfl⟩ | ⟨e, he, -, -, -, hch⟩
    · cases hc
    rw [hch, mem_attached] at hc
    rcases attach_cases hd hn' with ⟨rfl, rfl⟩ | ⟨n, hn, hpar, -⟩
    · exact congrArg some (hc.resolve_left (h.unlisted he)).1.symm
    · rw [hpar]
      exact h.links he (hc.resolve_right fun hnew => ne_nextInode hn hnew.2) hn
  · intro q c e' he' hc
    rw [length_attach]
    rcases attach_cases hd he' with ⟨-, rfl⟩ | ⟨e, he, -, -, -, hch⟩
    · cases hc
    rw [hch, mem_attached] at hc
    rcases hc with hc | ⟨-, rfl⟩
    · exact Nat.le_succ_of_le (h.bound he hc)
    · exact Nat.le_refl _
  · -- the new child's name was free
    intro q c c' e' m m' he' hek hc hm hc' hm' heq
    refine h.siblings_of_edges (edge_attach h hd hk name kind) (fun r c hnew => ?_)
      ⟨e', m, he', hek, hc, hm, rfl⟩ ⟨e', m', he', hek, hc', hm', heq.symm⟩
    rw [hnew.1, hnew.2]
    exact hl

end attached

/-! ## A node that moves -/

/-- The landing places of a node that is put into the lists of the nodes `L` under a name. -/
def Landing (fs : TmpFs) (L : Nat → Prop) (name : Str) (r : Nat) (c : Str) : Prop :=
  (L r ∧ ∃ e, fs.get? r = some e ∧ e.kind = .directory) ∧ c = name

/-- The node `i` has left all child lists, and may have joined those of the nodes `L`. -/
structure Shift (fs fs' : TmpFs) (i : Nat) (L : Nat → Prop) (name : Str) : Prop where
  back : ∀ {j : Nat} {m : Node}, fs'.get? j = some m → ∃ m₀, fs.get? j = some m₀ ∧
    m.entry = m₀.entry ∧ (j ≠ i → m.name = m₀.name) ∧ (j = i → ∀ r, L r → m.name = name) ∧
    ∀ c, c ∈ m.children ↔ (c ∈ m₀.children ∧ c ≠ i) ∨ (L j ∧ c = i)
  stays : ∀ {j : Nat} {m₀ : Node}, j ≠ i → fs.get? j = some m₀ → ∃ m, fs'.get? j = some m
  /-- The node is still there, or there was nothing below it. -/
  leaf : (∃ m, fs'.get? i = some m) ∨ (∀ r, ¬L r) ∧ ∀ c, fs.lookupChildByName i c = none

section shift

variable {fs fs' : TmpFs} {i : Nat} {L : Nat → Prop} {name : Str} (hs : Shift fs fs' i L name)

include hs

/-- The old node in a slot that is still filled. -/
theorem Shift.forth {m m0 : Node} (hm : fs'.get? j = some m) (hm0 : fs.get? j = some m0) :
    m.entry = m0.entry ∧ (j ≠ i → m.name = m0.name) ∧ (j = i → ∀ r, L r → m.name = name) ∧
    ∀ c, c ∈ m.children ↔ (c ∈ m0.children ∧ c ≠ i) ∨ (L j ∧ c = i) := by
  obtain ⟨m1, hm1, hrest⟩ := hs.back hm
  obtain rfl := mem_unique hm0 hm1
  exact hrest

/-- **The edges after the move**: the old ones but for those to `i`, and those at the landing places. -/
theorem Shift.edge (r : Nat) (c : Str) (j : Nat) :
    Edge fs' r c j ↔ (Edge fs r c j ∧ j ≠ i) ∨ (Landing fs L name r c ∧ j = i) := by
  constructor
  · rintro ⟨e, n, he, hk, hj, hn, rfl⟩
    obtain ⟨e0, he0, hentry, -, -, hmem⟩ := hs.back he
    obtain ⟨n0, hn0, -, hkeep, hnew, -⟩ := hs.back hn
    have hk0 : e0.kind = .directory := Node.entry_dir.mp (hentry.symm.trans (Node.entry_dir.mpr hk))
    rcases (hmem j).mp hj with ⟨hj, hji⟩ | ⟨hr, hji⟩
    · exact .inl ⟨⟨e0, n0, he0, hk0, hj, hn0, (hkeep hji).symm⟩, hji⟩
    · exact .inr ⟨⟨⟨hr, e0, he0, hk0⟩, hnew hji r hr⟩, hji⟩
  · rintro (⟨⟨e0, n0, he0, hk0, hj, hn0, rfl⟩, hji⟩ | ⟨⟨⟨hr, e0, he0, hk0⟩, rfl⟩, rfl⟩)
    · -- the directory is still there, since it has something below it
      obtain ⟨e, he⟩ : ∃ e, fs'.get? r = some e := by
        by_cases hri : r = i
        · subst hri
          exact hs.leaf.resolve_right fun hleaf =>
            not_edge (hleaf.2 n0.name) ⟨e0, n0, he0, hk0, hj, hn0, rfl⟩
        · exact hs.stays hri he0
      obtain ⟨n, hn⟩ := hs.stays hji hn0
      obtain ⟨hentry, -, -, hmem⟩ := hs.forth he he0
      obtain ⟨-, hkeep, -⟩ := hs.forth hn hn0
      exact ⟨e, n, he, Node.entry_dir.mp (hentry.trans (Node.entry_dir.mpr hk0)), (hmem j).mpr (Or.inl ⟨hj, hji⟩),
        hn, hkeep hji⟩
    · obtain ⟨n, hn⟩ := hs.leaf.resolve_right fun hleaf => hleaf.1 r hr
      obtain ⟨e, he⟩ : ∃ e, fs'.get? r = some e := by
        by_cases hri : r = j
        · exact ⟨n, hri ▸ hn⟩
        · exact hs.stays hri he0
      obtain ⟨hentry, -, -, hmem⟩ := hs.forth he he0
      obtain ⟨-, -, -, -, hnew, -⟩ := hs.back hn
      exact ⟨e, n, he, Node.entry_dir.mp (hentry.trans (Node.entry_dir.mpr hk0)), (hmem j).mpr (Or.inr ⟨hr, rfl⟩),
        hn, hnew rfl r hr⟩

end shift

section leaving

variable {fs : TmpFs} (h : Linked fs) {i p : Nat} {n d : Node}

include h

/-- A table with nothing new in it: every node was there, with the same links up and no new children. -/
theorem Linked.shrink {fs' : TmpFs} (hroot : fs'.root = fs.root)
    (hlen : fs'.nodes.length = fs.nodes.length) (hlive : ∃ r, fs'.get? fs.root = some r)
    (hback : ∀ {j : Nat} {n' : Node}, fs'.get? j = some n' → ∃ n, fs.get? j = some n ∧
      n'.name = n.name ∧ n'.kind = n.kind ∧ n'.parent = n.parent ∧ n'.children ⊆ n.children) :
    Linked fs' := by
  refine ⟨?_, ?_, ?_, ?_, ?_, ?_⟩
  · obtain ⟨r', hr'⟩ := hlive
    obtain ⟨r, hr, -, -, hpar, -⟩ := hback hr'
    obtain ⟨r0, hr0, hnone⟩ := h.root
    obtain rfl := mem_unique hr hr0
    exact ⟨r', by rw [hroot]; exact hr', hpar.trans hnone⟩
  · intro i n' hn' hi
    obtain ⟨n, hn, -, -, hpar, -⟩ := hback hn'
    rw [hpar]
    exact h.parent hn (hroot ▸ hi)
  · intro i n' hn' hi
    obtain ⟨n, hn, hname, -⟩ := hback hn'
    rw [hname]
    exact h.named hn (hroot ▸ hi)
  · intro p c d' n' hd' hc hn'
    obtain ⟨d, hd, -, -, -, hsub⟩ := hback hd'
    obtain ⟨n, hn, -, -, hpar, -⟩ := hback hn'
    rw [hpar]
    exact h.links hd (hsub hc) hn
  · intro p c d' hd' hc
    obtain ⟨d, hd, -, -, -, hsub⟩ := hback hd'
    rw [hlen]
    exact h.bound hd (hsub hc)
  · intro p c c' d' m m' hd' hk hc hm hc' hm' heq
    obtain ⟨d, hd, -, hkind, -, hsub⟩ := hback hd'
    obtain ⟨n, hn, hname, -⟩ := hback hm
    obtain ⟨n', hn', hname', -⟩ := hback hm'
    exact h.siblings hd (hkind.symm.trans hk) (hsub hc) hn (hsub hc') hn'
      (hname.symm.trans (heq.trans hname'))

theorem Linked.setData (hn : fs.get? i = some n) (data : List UInt8) : Linked (fs.setData i n data) := by
  refine h.shrink rfl (length_put _ _ _) ?_ ?_
  · obtain ⟨r, hr, -⟩ := h.root
    rw [get?_setData hn, hr]
    exact ⟨_, rfl⟩
  · intro j m' hm'
    rw [get?_setData hn] at hm'
    obtain ⟨m, hm, rfl⟩ := map_eq_some_iff.mp hm'
    exact ⟨m, hm, rfl, rfl, rfl, Subset.refl _⟩

theorem Linked.unlinked (hd : fs.get? p = some d) : Linked (fs.unlinked i p d) := by
  refine h.shrink rfl (length_put _ _ _) ?_ ?_
  · obtain ⟨r, hr, -⟩ := h.root
    rw [get?_unlinked hd, hr]
    exact ⟨_, rfl⟩
  · intro j n' hn'
    rw [get?_unlinked hd] at hn'
    obtain ⟨n, hn, rfl⟩ := map_eq_some_iff.mp hn'
    refine ⟨n, hn, rfl, rfl, rfl, ?_⟩
    split
    · exact filter_subset_self _
    · exact Subset.refl _

theorem Linked.clearSlot (hi : i ≠ fs.root) (hn : fs.get? i = some n) : Linked (fs.clearSlot i) := by
  have hview : ∀ j, (fs.clearSlot i).get? j = if j = i then none else fs.get? j := get?_put hn none
  refine h.shrink rfl (length_put _ _ _) ?_ ?_
  · obtain ⟨r, hr, -⟩ := h.root
    rw [hview, if_neg (Ne.symm hi)]
    exact ⟨r, hr⟩
  · intro j n' hn'
    rw [hview] at hn'
    split at hn'
    · cases hn'
    · exact ⟨n', hn', rfl, rfl, rfl, Subset.refl _⟩

omit h in
theorem get?_detach (hn : fs.get? i = some n) (hd : fs.get? p = some d) (j : Nat) :
    (fs.detach i p d).get? j = if j = i then none else (fs.unlinked i p d).get? j := by
  obtain ⟨m, hm⟩ : ∃ m, (fs.unlinked i p d).get? i = some m := by
    rw [get?_unlinked hd, hn]; exact ⟨_, rfl⟩
  exact get?_put hm none j

theorem Linked.detach (hi : i ≠ fs.root) (hn : fs.get? i = some n) (hd : fs.get? p = some d) :
    Linked (fs.detach i p d) := by
  obtain ⟨m, hm⟩ : ∃ m, (fs.unlinked i p d).get? i = some m := by
    rw [get?_unlinked hd, hn]; exact ⟨_, rfl⟩
  exact (h.unlinked hd).clearSlot hi hm

variable (hn : fs.get? i = some n) (hpar : n.parent = some p) (hd : fs.get? p = some d)

include hn hpar

/-- Only its parent lists a live node. -/
theorem Linked.mem_children_iff {c : Nat} {m : Node} (hm : fs.get? j = some m) :
    c ∈ (if j = p then m.children.filter (· ≠ i) else m.children) ↔ c ∈ m.children ∧ c ≠ i := by
  split
  · rw [mem_filter, decide_eq_true_eq]
  · rename_i hjp
    refine ⟨fun hc => ⟨hc, ?_⟩, fun hc => hc.1⟩
    rintro rfl
    exact hjp (mem_unique (h.links hm hc hn) hpar)

include hd

theorem shift_unlinked : Shift fs (fs.unlinked i p d) i (fun _ => False) [] := by
  refine ⟨fun {j m} hm => ?_, fun {j m0} _ hm0 => ?_, Or.inl ?_⟩
  · rw [get?_unlinked hd] at hm
    obtain ⟨m0, hm0, rfl⟩ := map_eq_some_iff.mp hm
    refine ⟨m0, hm0, rfl, fun _ => rfl, fun _ _ hr => hr.elim, fun c => ?_⟩
    rw [false_and, or_false]
    exact h.mem_children_iff hn hpar hm0
  · exact ⟨_, by rw [get?_unlinked hd, hm0]; rfl⟩
  · exact ⟨_, by rw [get?_unlinked hd, hn]; rfl⟩

theorem shift_detach (hleaf : ∀ c, fs.lookupChildByName i c = none) :
    Shift fs (fs.detach i p d) i (fun _ => False) [] := by
  have hs := shift_unlinked h hn hpar hd
  refine ⟨fun {j m} hm => ?_, fun {j m0} hj hm0 => ?_, Or.inr ⟨fun _ hr => hr, hleaf⟩⟩
  · rw [get?_detach hn hd] at hm
    split at hm
    · cases hm
    · exact hs.back hm
  · rw [get?_detach hn hd, if_neg hj]
    exact hs.stays hj hm0

omit hd

variable {q : Nat} {m k : Node} {name : Str} (hslots : fs.Slots i p q d m k)

include hslots

omit h hn hpar in
/-- A node of the new table is an old one, moved. -/
theorem relink_cases {n' : Node} (hn' : (fs.relink i p q d m k name).get? j = some n') :
    ∃ n, fs.get? j = some n ∧ n' = moveNode i p q name j n := by
  rw [get?_relink hslots] at hn'
  obtain ⟨n, hn, rfl⟩ := map_eq_some_iff.mp hn'
  exact ⟨n, hn, rfl⟩

variable (name) in
theorem shift_relink : Shift fs (fs.relink i p q d m k name) i (· = q) name := by
  have hview := get?_relink hslots name
  refine ⟨fun {j m'} hm' => ?_, fun {j m0} _ hm0 => ?_, Or.inl ?_⟩
  · obtain ⟨m0, hm0, rfl⟩ := relink_cases hslots hm'
    refine ⟨m0, hm0, rfl, fun hji => if_neg hji, fun hji _ _ => if_pos hji, fun c => ?_⟩
    rw [children_moveNode, mem_append, h.mem_children_iff hn hpar hm0]
    refine or_congr_right ?_
    split
    · rename_i hjq
      rw [mem_singleton]
      exact (and_iff_right hjq).symm
    · rename_i hjq
      exact iff_of_false not_mem_nil fun hboth => hjq hboth.1
  · exact ⟨_, by rw [hview, hm0]; rfl⟩
  · exact ⟨_, by rw [hview, hn]; rfl⟩

theorem Linked.relink (hi : i ≠ fs.root) (hl : fs.lookupChildByName q name = none) (hname : IsName name) :
    Linked (fs.relink i p q d m k name) := by
  have hview := get?_relink hslots name
  have hs := shift_relink h hn hpar name hslots
  refine ⟨?_, ?_, ?_, ?_, ?_, ?_⟩
  · obtain ⟨r, hr, hnone⟩ := h.root
    refine ⟨moveNode i p q name fs.root r, ?_, ?_⟩
    · show (fs.relink i p q d m k name).get? fs.root = _
      rw [hview, hr]; rfl
    · show (if fs.root = i then some q else r.parent) = none
      rw [if_neg (Ne.symm hi), hnone]
  · intro j n' hn' hj
    obtain ⟨n, hn, rfl⟩ := relink_cases hslots hn'
    show ∃ p, (if j = i then some q else n.parent) = some p
    split
    · exact ⟨q, rfl⟩
    · exact h.parent hn hj
  · intro j n' hn' hj
    obtain ⟨n, hn, rfl⟩ := relink_cases hslots hn'
    show IsName (if j = i then name else n.name)
    split
    · exact hname
    · exact h.named hn hj
  · intro j c d' n' hd' hc hn'
    obtain ⟨e, he, -, -, -, hmem⟩ := hs.back hd'
    obtain ⟨b, hb, rfl⟩ := relink_cases hslots hn'
    show (if c = i then some q else b.parent) = some j
    rcases (hmem c).mp hc with ⟨hc, hci⟩ | ⟨rfl, rfl⟩
    · rw [if_neg hci]; exact h.links he hc hb
    · rw [if_pos rfl]
  · intro j c d' hd' hc
    obtain ⟨e, he, -, -, -, hmem⟩ := hs.back hd'
    rw [TmpFs.relink, length_put, length_put, TmpFs.unlinked, length_put]
    rcases (hmem c).mp hc with ⟨hc, -⟩ | ⟨-, rfl⟩
    · exact h.bound he hc
    · exact (index_of_get? hn).2
  · intro j c c' d' n1 n2 hd' hdir hc hn1 hc' hn2 heq
    exact h.siblings_of_edges hs.edge (by rintro r c ⟨⟨rfl, -⟩, rfl⟩; exact hl) ⟨d', n1, hd', hdir, hc, hn1, rfl⟩
      ⟨d', n2, hd', hdir, hc', hn2, heq.symm⟩

end leaving

end Saios.Vfs
