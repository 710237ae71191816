/-
  THE TMPFS AS A MAP from paths to entries.

  `absMap` forgets the inodes: a path names the node that the lookups lead to, and that node is a
  directory or a file with its bytes.  Each change of the node table is one operation on the map:

  1. `absMap_attach` — a new child is one new path;
  2. `absMap_detach` — a removed leaf is one path less;
  3. `absMap_relink` — a moved node takes everything below it along, although only three nodes of the
     table change;
  4. `absMap_setData` — new contents at one path.
-/
import Saios.Vfs.Paths

namespace Saios.Vfs

open Path TmpFs EdgeTree Option

def TmpFs.absMap (fs : TmpFs) : PathMap Str (List UInt8) := fun cs =>
  (fs.nodeAt cs).bind fun i => (fs.get? i).map Node.entry

section view

variable {fs : TmpFs} {cs : List Str} {i : Nat} {n : Node}

theorem absMap_some (hi : fs.nodeAt cs = some i) (hn : fs.get? i = some n) :
    fs.absMap cs = some n.entry := by
  rw [absMap, hi, bind_some, hn, map_some]

theorem absMap_none (h : Rooted fs) : fs.absMap cs = none ↔ fs.nodeAt cs = none := by
  constructor
  · intro hnone
    cases hi : fs.nodeAt cs with
    | none => rfl
    | some i =>
      obtain ⟨n, hn⟩ := h.nodeAt_live hi
      rw [absMap_some hi hn] at hnone; cases hnone
  · intro hnone
    rw [absMap, hnone]; rfl

end view

/-! ## A new child -/

section attach

variable {fs : TmpFs} (h : Rooted fs) {p : Nat} {d : Node} (hd : fs.get? p = some d)
  (hk : d.kind = .directory) {name : Str} (hl : fs.lookupChildByName p name = none)
  (hname : IsName name) (kind : FileType) {ps : List Str} (hp : fs.nodeAt ps = some p)

include h hd hk hl hname hp

theorem nodeAt_attach (cs : List Str) :
    (fs.attach p d name kind).nodeAt cs = if cs = ps ++ [name] then some fs.nextInode else fs.nodeAt cs := by
  have h' := h.linked.attach hd hk kind hl hname
  have hedge := edge_attach h.linked hd hk name kind
  refine h.tree.apart.walk_link (fun _ _ _ _ => trivial) trivial hp ?_ hl ?_ ?_ trivial
  · intro ks q l _ _ hne
    refine Option.ext fun c => ?_
    rw [h'.lookup_iff, h.lookup_iff, hedge]
    constructor
    · rintro (⟨hold, -⟩ | ⟨hnew, -⟩)
      · exact hold
      · exact absurd hnew hne
    · intro hold
      obtain ⟨-, n, -, -, -, hn, -⟩ := id hold
      exact .inl ⟨hold, ne_nextInode hn⟩
  · exact h'.lookup_iff.mpr ((hedge p name _).mpr (Or.inr ⟨⟨rfl, rfl⟩, rfl⟩))
  · exact lookup_leaf (get?_attached hd name kind) fun hfull => hfull.2 rfl

/-- **A new child is one new path.** -/
theorem absMap_attach :
    (fs.attach p d name kind).absMap =
      Function.update fs.absMap (ps ++ [name]) (some (newNode fs.nextInode p name kind).entry) := by
  have hview := get?_attach hd name kind
  have hpnew : fs.nextInode ≠ p := Ne.symm (ne_nextInode hd)
  funext cs
  rw [absMap, nodeAt_attach h hd hk hl hname kind hp]
  by_cases hcs : cs = ps ++ [name]
  · rw [if_pos hcs, hcs, Function.update_self, bind_some, hview, if_neg hpnew, if_pos rfl,
      map_some]
  · rw [if_neg hcs, Function.update_of_ne hcs, absMap]
    cases hi : fs.nodeAt cs with
    | none => rfl
    | some i =>
      obtain ⟨n, hn⟩ := h.nodeAt_live hi
      have hinew : i ≠ fs.nextInode := ne_nextInode hn
      rw [bind_some, bind_some, hview]
      by_cases hip : i = p
      · rw [if_pos hip, hip, hd]; rfl
      · rw [if_neg hip, if_neg hinew]

end attach

/-! ## A leaf removed -/

section detach

variable {fs : TmpFs} (h : Rooted fs) {i p : Nat} {n d : Node} (hi : i ≠ fs.root)
  (hn : fs.get? i = some n) (hleaf : n.children = []) (hpar : n.parent = some p)
  (hd : fs.get? p = some d) {cs : List Str} (hcs : fs.nodeAt cs = some i)

include h hi hn hleaf hpar hd hcs

theorem nodeAt_detach (ls : List Str) :
    (fs.detach i p d).nodeAt ls = if ls = cs then none else fs.nodeAt ls := by
  have hbelow := lookup_leaf hn fun hfull => hfull.2 hleaf
  have h' := h.linked.detach hi hn hd
  have hs := shift_detach h.linked hn hpar hd hbelow
  -- the path of `i` ends in its name, below `p`
  cases cs using List.reverseRecOn with
  | nil => exact absurd (some.inj hcs).symm hi
  | append_singleton ps name =>
  obtain ⟨p', n', hp, hlook, hn', hpar', -⟩ := h.linked.nodeAt_concat hcs
  obtain rfl := mem_unique hn hn'
  obtain rfl := mem_unique hpar hpar'
  refine h.tree.apart.walk_cut (fun _ _ _ _ => trivial) trivial hp ?_ hlook hbelow ?_ trivial
  · intro ks q l _ _ hne
    refine Option.ext fun c => ?_
    rw [h'.lookup_iff, h.lookup_iff, hs.edge]
    constructor
    · rintro (⟨hold, -⟩ | ⟨⟨⟨hno, -⟩, -⟩, -⟩)
      · exact hold
      · exact hno.elim
    · intro hold
      refine .inl ⟨hold, ?_⟩
      rintro rfl
      exact hne (h.tree.inj (h.lookup_iff.mpr hold) hlook)
  · cases hl : (fs.detach i p d).lookupChildByName p name with
    | none => rfl
    | some c =>
      rcases (hs.edge p name c).mp (lookup_some hl) with ⟨hold, hci⟩ | ⟨⟨⟨hno, -⟩, -⟩, -⟩
      · exact absurd (h.linked.edge_unique hold (lookup_some hlook)) hci
      · exact hno.elim

/-- **A removed leaf is one path less.** -/
theorem absMap_detach : (fs.detach i p d).absMap = Function.update fs.absMap cs none := by
  have hview := get?_detach hn hd
  funext ls
  rw [absMap, nodeAt_detach h hi hn hleaf hpar hd hcs]
  by_cases hls : ls = cs
  · rw [if_pos hls, hls, Function.update_self]; rfl
  · rw [if_neg hls, Function.update_of_ne hls, absMap]
    cases hj : fs.nodeAt ls with
    | none => rfl
    | some j =>
      have hji : j ≠ i := by
        rintro rfl
        exact hls (h.tree.walk_inj hj hcs)
      rw [bind_some, hview, if_neg hji, get?_unlinked hd, Option.map_map]
      rfl

end detach

/-! ## A node moved -/

section relink

variable {fs : TmpFs} (h : Rooted fs) {i p q : Nat} {n d m k : Node} {name : Str}
  (hn : fs.get? i = some n) (hpar : n.parent = some p) (hmov : Movable fs i q)
  (hl : fs.lookupChildByName q name = none) (hname : IsName name) (hslots : fs.Slots i p q d m k)

include h hn hpar hmov hl hname hslots

/-- Where the lookups change: the edge to `i` is at `q` under the new name. -/
theorem lookup_relink :
    (fs.relink i p q d m k name).lookupChildByName q name = some i ∧
    (¬(p = q ∧ n.name = name) → (fs.relink i p q d m k name).lookupChildByName p n.name = none) ∧
    ∀ r l, ¬(r = p ∧ l = n.name) → ¬(r = q ∧ l = name) →
      (fs.relink i p q d m k name).lookupChildByName r l = fs.lookupChildByName r l := by
  have h' := h.linked.relink hn hpar hslots (h.ne_root_of_parent hn hpar) hl hname
  have hs := shift_relink h.linked hn hpar name hslots
  obtain ⟨d0, hd0, hdk, hmem⟩ := h.parent_dir hn hpar
  have hedge : Edge fs p n.name i := ⟨d0, n, hd0, hdk, hmem, hn, rfl⟩
  refine ⟨?_, ?_, ?_⟩
  · exact h'.lookup_iff.mpr ((hs.edge q name i).mpr (Or.inr ⟨⟨⟨rfl, hmov.dir⟩, rfl⟩, rfl⟩))
  · intro hne
    cases hlook : (fs.relink i p q d m k name).lookupChildByName p n.name with
    | none => rfl
    | some c =>
      rcases (hs.edge p n.name c).mp (lookup_some hlook) with ⟨hold, hci⟩ | ⟨⟨⟨hpq, -⟩, hnew⟩, -⟩
      · exact absurd (h.linked.edge_unique hold hedge) hci
      · exact absurd ⟨hpq, hnew⟩ hne
  · intro r l hrp hrq
    refine Option.ext fun c => ?_
    rw [h'.lookup_iff, h.lookup_iff, hs.edge]
    constructor
    · rintro (⟨hold, -⟩ | ⟨⟨⟨rfl, -⟩, hnew⟩, -⟩)
      · exact hold
      · exact absurd ⟨rfl, hnew⟩ hrq
    · intro hold
      refine .inl ⟨hold, ?_⟩
      rintro rfl
      exact hrp (h.linked.tree.inj (h.lookup_iff.mpr hold) (h.lookup_iff.mpr hedge))

omit h hn hpar hmov hl hname in
/-- Every node keeps its kind and its data. -/
theorem entry_relink (j : Nat) :
    ((fs.relink i p q d m k name).get? j).map Node.entry = (fs.get? j).map Node.entry := by
  rw [get?_relink hslots, Option.map_map]
  rfl

variable {cs qs : List Str} (hcs : fs.nodeAt cs = some i) (hqs : fs.nodeAt qs = some q)

include hcs hqs

/-- The three kinds of paths after a move: below the new place, below the old one, elsewhere. -/
theorem nodeAt_relink :
    (∀ ms, (fs.relink i p q d m k name).nodeAt (qs ++ [name] ++ ms) = fs.nodeAt (cs ++ ms)) ∧
    (∀ ms, cs <+: ms → ¬(qs ++ [name]) <+: ms → (fs.relink i p q d m k name).nodeAt ms = none) ∧
    (∀ ms, ¬cs <+: ms → ¬(qs ++ [name]) <+: ms →
      (fs.relink i p q d m k name).nodeAt ms = fs.nodeAt ms) := by
  have hout : ¬cs <+: qs := fun hpre => hmov.outside ((h.below_iff hcs hqs).mpr hpre)
  obtain ⟨hnew, hgone, hsame⟩ := lookup_relink h hn hpar hmov hl hname hslots
  cases cs using List.reverseRecOn with
  | nil => exact absurd List.nil_prefix hout
  | append_singleton ps old =>
    obtain ⟨p', n', hp, hlook, hn', hpar', rfl, -⟩ := h.linked.nodeAt_concat hcs
    obtain rfl := mem_unique hn hn'
    obtain rfl := mem_unique hpar hpar'
    exact walk_move h.tree hp hlook hqs hout hl hnew hgone hsame

/-- **A moved node takes everything below it along.** -/
theorem absMap_relink :
    (fs.relink i p q d m k name).absMap = fs.absMap.moved cs (qs ++ [name]) := by
  have hentry : ∀ j, ((fs.relink i p q d m k name).get? j).map Node.entry = (fs.get? j).map Node.entry :=
    entry_relink hslots
  obtain ⟨hbelow, hgone, helse⟩ := nodeAt_relink h hn hpar hmov hl hname hslots hcs hqs
  funext ls
  by_cases hq : (qs ++ [name]) <+: ls
  · obtain ⟨ms, rfl⟩ := hq
    rw [PathMap.moved_below, absMap, hbelow, absMap]
    simp only [hentry]
  · by_cases hc : cs <+: ls
    · rw [PathMap.moved_source _ hq hc, absMap, hgone ls hc hq]; rfl
    · rw [PathMap.moved_other _ hq hc, absMap, helse ls hc hq, absMap]
      simp only [hentry]

end relink

/-! ## New contents -/

section setData

variable {fs : TmpFs} {i : Nat} {n : Node} (hn : fs.get? i = some n) (data : List UInt8)

include hn

theorem lookup_setData (p : Nat) (name : Str) :
    (fs.setData i n data).lookupChildByName p name = fs.lookupChildByName p name := by
  have hnamed : (fs.setData i n data).isNamed name = fs.isNamed name := by
    funext child
    unfold isNamed
    rw [get?_setData hn]
    cases fs.get? child <;> rfl
  rw [lookup_eq, lookup_eq, hnamed, get?_setData hn]
  cases fs.get? p <;> rfl

theorem nodeAt_setData (cs : List Str) : (fs.setData i n data).nodeAt cs = fs.nodeAt cs := by
  have heq : (fs.setData i n data).lookupChildByName = fs.lookupChildByName :=
    funext fun p => funext (lookup_setData hn data p)
  rw [nodeAt, heq]
  rfl

/-- **New contents at one path.** -/
theorem absMap_setData (h : Rooted fs) (hk : n.kind = .file) {cs : List Str}
    (hcs : fs.nodeAt cs = some i) :
    (fs.setData i n data).absMap = Function.update fs.absMap cs (some (.file data)) := by
  funext ls
  rw [absMap, nodeAt_setData hn]
  by_cases hls : ls = cs
  · rw [hls, Function.update_self, hcs, bind_some, get?_setData_self hn]
    exact congrArg some (Node.entry_file hk)
  · rw [Function.update_of_ne hls, absMap]
    cases hj : fs.nodeAt ls with
    | none => rfl
    | some j =>
      have hji : j ≠ i := by
        rintro rfl
        exact hls (h.tree.walk_inj hj hcs)
      rw [bind_some, bind_some, setData, get?_put hn, if_neg hji]

end setData

end Saios.Vfs
