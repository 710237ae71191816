/-
  NODE LISTS AS MAPS from paths to entries.

  1. **View** — `nodeMap` reads a node list as a map from component lists.  On a FLAT list (all paths
     normalized, no two equal) a lookup by string is a lookup in the map, in whatever order the nodes
     stand.

  2. **Trees** (`IsTree`) — a flat list whose map is closed: the root is there and is a directory, and
     the parent of every other node is there and is a directory (`isTree_iff`).

  3. **Operations** — each body of an `fs_*` operation performs the map operation (`Performs`).  The
     string tests of the source fall on component boundaries: `is_child_of` is the prefix order, so
     "directory not empty" looks at everything below although only what is DIRECTLY below matters in a
     tree, and the prefix-rewriting loop of `fs_rename` is a relocation of whole paths.  That loop is
     right only when the source is not the root and the destination is not inside the source.
-/
import Saios.Lib.PathMap
import Saios.Storage.Nodes

namespace Saios.Storage

open Path List Option
open Function (update update_of_ne update_self)

def FsNode.entry (n : FsNode) : Entry (List UInt8) :=
  if n.kind = .directory then .dir else .file n.data

variable {n : FsNode}

theorem FsNode.entry_dir : n.entry = .dir ↔ n.kind = .directory := by
  unfold FsNode.entry
  split
  · exact ⟨fun _ => ‹_›, fun _ => rfl⟩
  · exact ⟨nofun, fun h => absurd h ‹_›⟩

theorem FsNode.entry_file (h : n.kind = .file) : n.entry = .file n.data := by
  rw [FsNode.entry, if_neg (by rw [h]; decide)]

def nodeMap (nodes : List FsNode) : PathMap Str (List UInt8) := fun cs =>
  (nodes.find? fun n => comps n.path == cs).map FsNode.entry

/-- All paths are normalized, and no two are equal. -/
structure Flat (nodes : List FsNode) : Prop where
  normal : ∀ n ∈ nodes, normalizePath n.path = n.path
  distinct : (nodes.map FsNode.path).Nodup

/-- The node list is a tree. -/
structure IsTree (nodes : List FsNode) : Prop extends Flat nodes where
  root : ∃ n ∈ nodes, n.path = ['/'] ∧ n.kind = .directory
  parent : ∀ n ∈ nodes, n.path ≠ ['/'] → ∃ dir name, splitParent n.path = some (dir, name) ∧
    ∃ d ∈ nodes, d.path = dir ∧ d.kind = .directory

section flat

variable {nodes : List FsNode} (h : Flat nodes) {n : FsNode} {cs : List Str}

include h

theorem Flat.path_eq (hn : n ∈ nodes) : n.path = absolute (comps n.path) := by
  rw [← normalizePath_eq, h.normal n hn]

/-- Two nodes of the list with the same components are the same node. -/
theorem Flat.eq_of_comps {n' : FsNode} (hn : n ∈ nodes) (hn' : n' ∈ nodes)
    (heq : comps n.path = comps n'.path) : n = n' := by
  refine inj_on_of_nodup_map h.distinct hn hn' ?_
  rw [h.path_eq hn, h.path_eq hn', heq]

/-- The map has exactly the nodes of the list. -/
theorem Flat.nodeMap_mem (hn : n ∈ nodes) : nodeMap nodes (comps n.path) = some n.entry := by
  unfold nodeMap
  cases hf : nodes.find? fun m => comps m.path == comps n.path with
  | none =>
    have := find?_eq_none.mp hf n hn
    simp at this
  | some m =>
    have hm : comps m.path = comps n.path := by simpa using find?_some hf
    rw [h.eq_of_comps (mem_of_find?_eq_some hf) hn hm, map_some]

omit h in
theorem mem_of_nodeMap {e : Entry (List UInt8)} (hm : nodeMap nodes cs = some e) :
    ∃ n ∈ nodes, comps n.path = cs ∧ n.entry = e := by
  obtain ⟨n, hf, he⟩ := map_eq_some_iff.mp hm
  exact ⟨n, mem_of_find?_eq_some hf, by simpa using find?_some hf, he⟩

theorem Flat.nodeMap_iff {e : Entry (List UInt8)} :
    nodeMap nodes cs = some e ↔ ∃ n ∈ nodes, comps n.path = cs ∧ n.entry = e := by
  constructor
  · exact mem_of_nodeMap
  · rintro ⟨n, hn, rfl, rfl⟩
    exact h.nodeMap_mem hn

omit h in
theorem nodeMap_none : nodeMap nodes cs = none ↔ ∀ n ∈ nodes, comps n.path ≠ cs := by
  unfold nodeMap
  simp

theorem Flat.path_iff (hcs : ∀ c ∈ cs, IsName c) (hn : n ∈ nodes) : n.path = absolute cs ↔ comps n.path = cs := by
  constructor
  · intro heq
    rw [heq, comps_absolute hcs]
  · rintro rfl
    exact h.path_eq hn

/-- **A lookup by string is a lookup in the map.** -/
theorem Flat.find_eq (hcs : ∀ c ∈ cs, IsName c) :
    (nodes.find? fun n => n.path == absolute cs) = nodes.find? fun n => comps n.path == cs := by
  refine find?_congr fun n hn => ?_
  rw [Bool.eq_iff_iff, beq_iff_eq, beq_iff_eq, h.path_iff hcs hn]

theorem Flat.findNode_eq (hcs : ∀ c ∈ cs, IsName c) :
    findNode nodes (absolute cs) = nodes.find? fun n => comps n.path == cs := by
  rw [findNode, normalizePath_absolute hcs, h.find_eq hcs]

theorem Flat.findNode_map (hcs : ∀ c ∈ cs, IsName c) :
    (findNode nodes (absolute cs)).map FsNode.entry = nodeMap nodes cs := by
  rw [h.findNode_eq hcs, nodeMap]

end flat

/-- **A tree is a flat list with a closed map.** -/
theorem isTree_iff {nodes : List FsNode} : IsTree nodes ↔ Flat nodes ∧ PathMap.Closed (nodeMap nodes) := by
  constructor
  · intro h
    refine ⟨h.toFlat, ?_, fun cs c hne => ?_⟩
    · obtain ⟨n, hn, hpath, hk⟩ := h.root
      exact h.nodeMap_iff.mpr ⟨n, hn, by rw [hpath]; rfl, FsNode.entry_dir.mpr hk⟩
    · obtain ⟨e, he⟩ := ne_none_iff_exists'.mp hne
      obtain ⟨n, hn, hcs, -⟩ := mem_of_nodeMap he
      have hnames : ∀ d ∈ cs ++ [c], IsName d := by rw [← hcs]; exact comps_isName n.path
      have hpath : n.path = absolute (cs ++ [c]) := by rw [h.path_eq hn, hcs]
      have hroot : n.path ≠ ['/'] := by
        rw [hpath]
        intro heq
        have hnil := (absolute_eq_root hnames).mp heq
        exact append_ne_nil_of_right_ne_nil cs (cons_ne_nil c []) hnil
      obtain ⟨dir, name, hsplit, d, hd, hdir, hk⟩ := h.parent n hn hroot
      rw [hpath, splitParent_absolute hnames] at hsplit
      obtain ⟨rfl, rfl⟩ := Prod.mk.inj (some.inj hsplit)
      refine h.nodeMap_iff.mpr ⟨d, hd, ?_, FsNode.entry_dir.mpr hk⟩
      rw [hdir, comps_absolute fun b hb => hnames b (mem_append_left _ hb)]
  · rintro ⟨h, hclosed⟩
    refine ⟨h, ?_, fun n hn hroot => ?_⟩
    · obtain ⟨n, hn, hcs, he⟩ := mem_of_nodeMap hclosed.root
      exact ⟨n, hn, by rw [h.path_eq hn, hcs]; rfl, FsNode.entry_dir.mp he⟩
    · have hnames := comps_isName n.path
      have hpath := h.path_eq hn
      have hmem := h.nodeMap_mem hn
      generalize comps n.path = ds at hnames hpath hmem
      cases ds using reverseRecOn with
      | nil => exact absurd hpath hroot
      | append_singleton cs c =>
        have hdir := hclosed.parent cs c (by rw [hmem]; exact some_ne_none _)
        obtain ⟨d, hd, hcs, he⟩ := mem_of_nodeMap hdir
        refine ⟨_, _, by rw [hpath]; exact splitParent_absolute hnames, d, hd, ?_, FsNode.entry_dir.mp he⟩
        rw [h.path_eq hd, hcs]

/-! ## Changes of a flat list -/

section changes

variable {nodes : List FsNode} (h : Flat nodes) {ds : List Str} (hds : ∀ c ∈ ds, IsName c)

include h hds

/-- A new node at a free path. -/
theorem Flat.append (hfree : nodeMap nodes ds = none) (kind : FsNodeKind) (data : List UInt8) :
    Flat (nodes ++ [{ path := absolute ds, kind := kind, data := data }]) ∧
      nodeMap (nodes ++ [{ path := absolute ds, kind := kind, data := data }]) =
        update (nodeMap nodes) ds
          (some (FsNode.entry { path := absolute ds, kind := kind, data := data })) := by
  have hnew := comps_absolute hds
  constructor
  · constructor
    · intro n hn
      rcases mem_append.mp hn with hn | hn
      · exact h.normal n hn
      · rw [mem_singleton.mp hn]
        exact normalizePath_absolute hds
    · rw [map_append, nodup_append]
      refine ⟨h.distinct, nodup_singleton _, fun a ha b hb heq => ?_⟩
      obtain ⟨n, hn, rfl⟩ := List.mem_map.mp ha
      rw [map_singleton, mem_singleton] at hb
      refine nodeMap_none.mp hfree n hn ?_
      rw [heq, hb, hnew]
  · funext cs
    unfold nodeMap
    rw [find?_append]
    by_cases hcs : cs = ds
    · subst hcs
      have hnone : (nodes.find? fun n => comps n.path == cs) = none := map_eq_none_iff.mp hfree
      rw [update_self, hnone,
        find?_cons_of_pos (by simp only [hnew, beq_self_eq_true])]
      rfl
    · rw [update_of_ne hcs, find?_cons_of_neg, find?_nil, or_none]
      rw [hnew, beq_iff_eq]
      exact fun heq => hcs heq.symm

/-- The node at a path taken out. -/
theorem Flat.erase : Flat (nodes.eraseP fun n => n.path == absolute ds) ∧
    nodeMap (nodes.eraseP fun n => n.path == absolute ds) = update (nodeMap nodes) ds none := by
  have hsub : (nodes.eraseP fun n => n.path == absolute ds).Sublist nodes := eraseP_sublist
  refine ⟨⟨fun n hn => h.normal n (hsub.subset hn), (hsub.map _).nodup h.distinct⟩, funext fun cs => ?_⟩
  by_cases hcs : cs = ds
  · subst hcs
    rw [update_self, nodeMap_none]
    intro n hn heq
    -- no second node has the path
    have hpaths : (nodes.eraseP fun n => n.path == absolute cs).map FsNode.path =
        (nodes.map FsNode.path).erase (absolute cs) := by
      rw [erase_eq_eraseP', eraseP_map]
      rfl
    have hmem := List.mem_map_of_mem (f := FsNode.path) hn
    rw [(h.path_iff hds (hsub.subset hn)).mpr heq, hpaths] at hmem
    exact h.distinct.not_mem_erase hmem
  · rw [update_of_ne hcs, nodeMap, nodeMap, find?_eraseP_of_disjoint]
    intro n hn
    rw [beq_iff_eq.mp hn, comps_absolute hds, beq_eq_false_iff_ne]
    exact fun heq => hcs heq.symm

omit hds in
/-- A node-by-node change that keeps the list flat, through its effect on the paths: `f` moves the node
    at `cs` to `g cs` and keeps its entry. -/
theorem Flat.map (f : FsNode → FsNode) (g : List Str → List Str)
    (hpath : ∀ n ∈ nodes, (f n).path = absolute (g (comps n.path)))
    (hname : ∀ n ∈ nodes, ∀ c ∈ g (comps n.path), IsName c)
    (hinj : ∀ n ∈ nodes, ∀ n' ∈ nodes, g (comps n.path) = g (comps n'.path) → comps n.path = comps n'.path)
    (hentry : ∀ n ∈ nodes, (f n).entry = n.entry) :
    Flat (nodes.map f) ∧ ∀ cs e, nodeMap (nodes.map f) cs = some e ↔
      ∃ ds, g ds = cs ∧ nodeMap nodes ds = some e := by
  have hcomps : ∀ n ∈ nodes, comps (f n).path = g (comps n.path) := fun n hn => by
    rw [hpath n hn, comps_absolute (hname n hn)]
  have hflat : Flat (nodes.map f) := by
    constructor
    · intro m hm
      obtain ⟨n, hn, rfl⟩ := List.mem_map.mp hm
      rw [hpath n hn, normalizePath_absolute (hname n hn)]
    · rw [List.map_map]
      refine Nodup.map_on (fun n hn n' hn' heq => ?_) (Nodup.of_map _ h.distinct)
      refine h.eq_of_comps hn hn' (hinj n hn n' hn' ?_)
      rw [← hcomps n hn, ← hcomps n' hn']
      exact congrArg comps heq
  refine ⟨hflat, fun cs e => ?_⟩
  rw [hflat.nodeMap_iff]
  constructor
  · rintro ⟨m, hm, rfl, rfl⟩
    obtain ⟨n, hn, rfl⟩ := List.mem_map.mp hm
    exact ⟨comps n.path, (hcomps n hn).symm, by rw [h.nodeMap_mem hn, hentry n hn]⟩
  · rintro ⟨ds, rfl, hds⟩
    obtain ⟨n, hn, rfl, rfl⟩ := mem_of_nodeMap hds
    exact ⟨f n, List.mem_map_of_mem hn, hcomps n hn, hentry n hn⟩

/-- New contents for the node at a path. -/
theorem Flat.setData (hn : nodes.find? (fun n => comps n.path == ds) = some n) (hk : n.kind = .file)
    (data : List UInt8) :
    Flat (nodes.modifyFirst (fun n => n.path == absolute ds) fun n => { n with data := data }) ∧
      nodeMap (nodes.modifyFirst (fun n => n.path == absolute ds) fun n => { n with data := data }) =
        update (nodeMap nodes) ds (some (.file data)) := by
  have hpaths : (nodes.modifyFirst (fun n => n.path == absolute ds) fun n => { n with data := data }).map
      FsNode.path = nodes.map FsNode.path := map_modifyFirst fun _ _ => rfl
  have hflat : Flat (nodes.modifyFirst (fun n => n.path == absolute ds) fun n => { n with data := data }) := by
    constructor
    · intro m hm
      rcases mem_modifyFirst hm with hm | ⟨a, ha, -, rfl⟩
      · exact h.normal m hm
      · exact h.normal a ha
    · rw [hpaths]; exact h.distinct
  refine ⟨hflat, ?_⟩
  funext cs
  by_cases hcs : cs = ds
  · subst hcs
    rw [update_self, nodeMap, ← hflat.find_eq hds, find?_modifyFirst_self,
      h.find_eq hds, hn]
    · exact congrArg some (FsNode.entry_file hk)
    · exact fun _ ha => ha
  · rw [update_of_ne hcs, nodeMap, nodeMap, find?_modifyFirst_of_disjoint]
    intro a ha
    have hpath : a.path = absolute ds := by simpa using ha
    have hne : (comps a.path == cs) = false := by
      rw [hpath, comps_absolute hds, beq_eq_false_iff_ne]
      exact fun heq => hcs heq.symm
    exact ⟨hne, hne⟩

end changes

/-! ## The operations -/

/-- The body succeeds exactly when the map operation is defined, and changes nothing when not. -/
inductive Performs (nodes : List FsNode) :
    Except String Unit × List FsNode → Option (PathMap Str (List UInt8)) → Prop
  | ok {nodes' : List FsNode} {m : PathMap Str (List UInt8)} (flat : Flat nodes')
      (map : nodeMap nodes' = m) : Performs nodes (.ok (), nodes') (some m)
  | error (e : String) : Performs nodes (.error e, nodes) none

section operations

variable {nodes : List FsNode} (h : Flat nodes) {ds : List Str} (hds : ∀ c ∈ ds, IsName c)

include h hds

def kindEntry : FsNodeKind → Entry (List UInt8)
  | .directory => .dir
  | .file => .file []

omit h hds in
theorem entry_new (path : Str) (kind : FsNodeKind) :
    FsNode.entry { path := path, kind := kind, data := [] } = kindEntry kind := by
  cases kind <;> rfl

theorem Flat.taken_iff : (findNode nodes (absolute ds)).isSome = true ↔ nodeMap nodes ds ≠ none := by
  rw [← h.findNode_map hds, ne_eq, map_eq_none_iff, ← ne_eq, isSome_iff_ne_none]

section

variable (hclosed : PathMap.Closed (nodeMap nodes))

include hclosed

/-- `ensure_parent_dir` passes exactly when the parent is a directory of the map. -/
theorem Flat.ensureParentDir_cases :
    (ensureParentDir nodes (absolute ds) = .ok () ∧ ds ≠ [] ∧ nodeMap nodes ds.dropLast = some .dir) ∨
    ((∃ e, ensureParentDir nodes (absolute ds) = .error e) ∧
      (nodeMap nodes ds = none → nodeMap nodes ds.dropLast ≠ some .dir)) := by
  unfold ensureParentDir
  cases ds using reverseRecOn with
  | nil =>
    exact .inr ⟨⟨_, rfl⟩, fun hfree => absurd rfl (hclosed.ne_root hfree)⟩
  | append_singleton cs c =>
    have hcs : ∀ b ∈ cs, IsName b := fun b hb => hds b (mem_append_left _ hb)
    have hmap := h.findNode_map hcs
    rw [splitParent_absolute hds, dropLast_concat]
    simp only
    cases hf : findNode nodes (absolute cs) with
    | none =>
      rw [hf] at hmap
      exact .inr ⟨⟨_, rfl⟩, fun _ => by rw [← hmap]; exact nofun⟩
    | some d =>
      rw [hf, map_some] at hmap
      simp only
      by_cases hk : d.kind = .directory
      · rw [if_neg (not_not_intro hk)]
        refine .inl ⟨rfl, append_ne_nil_of_right_ne_nil cs (cons_ne_nil c []), ?_⟩
        rw [← hmap, FsNode.entry_dir.mpr hk]
      · rw [if_pos hk]
        refine .inr ⟨⟨_, rfl⟩, fun _ => ?_⟩
        rw [← hmap]
        exact fun hx => hk (FsNode.entry_dir.mp (some.inj hx))

theorem createIn_performs (kind : FsNodeKind) :
    Performs nodes (createIn kind (absolute ds) nodes)
      (PathMap.make (nodeMap nodes) ds (kindEntry kind)) := by
  unfold createIn PathMap.make
  by_cases hfree : nodeMap nodes ds = none
  · rw [if_neg fun hx => (h.taken_iff hds).mp hx hfree]
    rcases h.ensureParentDir_cases hds hclosed with ⟨hok, -, hdir⟩ | ⟨⟨e, he⟩, hno⟩
    · rw [hok, if_pos ⟨hfree, hdir⟩]
      obtain ⟨hflat, hmap⟩ := h.append hds hfree kind []
      exact .ok hflat (by rw [hmap, entry_new])
    · rw [he, if_neg fun hdef => hno hfree hdef.2]
      exact .error e
  · rw [if_pos ((h.taken_iff hds).mpr hfree), if_neg fun hdef => hfree hdef.1]
    exact .error _

/-- Below a path, as the string test has it, is below it in the map. -/
theorem Flat.below_iff :
    nodes.any (fun n => n.path != absolute ds && isChildOf (absolute ds) n.path) = true ↔
      ¬PathMap.Leaf (nodeMap nodes) ds := by
  rw [List.any_eq_true]
  constructor
  · rintro ⟨n, hn, hbelow⟩ hleaf
    rw [Bool.and_eq_true, bne_iff_ne, h.path_eq hn, isChildOf_absolute hds (comps_isName n.path)] at hbelow
    exact hbelow.1 (by rw [hclosed.eq_of_leaf hleaf hbelow.2 (by rw [h.nodeMap_mem hn]; exact some_ne_none _)])
  · intro hleaf
    obtain ⟨c, hc⟩ := not_forall.mp hleaf
    obtain ⟨e, he⟩ := ne_none_iff_exists'.mp hc
    obtain ⟨n, hn, hcomps, -⟩ := mem_of_nodeMap he
    refine ⟨n, hn, ?_⟩
    rw [Bool.and_eq_true, bne_iff_ne, h.path_eq hn, isChildOf_absolute hds (comps_isName n.path), hcomps]
    refine ⟨fun heq => ?_, prefix_append ds [c]⟩
    have hinj := absolute_inj (fun b hb => (comps_isName n.path b (by rw [hcomps]; exact hb)).1)
      (fun b hb => (hds b hb).1) heq
    have hlen := congrArg List.length hinj
    rw [length_append, length_singleton] at hlen
    omega

theorem deleteIn_performs (hne : ds ≠ []) :
    Performs nodes (deleteIn (absolute ds) nodes) (PathMap.remove (nodeMap nodes) ds) := by
  unfold deleteIn
  rw [h.find_eq hds]
  cases hf : nodes.find? fun n => comps n.path == ds with
  | none =>
    have hnone : nodeMap nodes ds = none := by rw [nodeMap, hf]; rfl
    rw [PathMap.remove_none _ (fun hdef => hdef.2.1 hnone)]
    exact .error _
  | some n =>
    have hentry : nodeMap nodes ds = some n.entry := by rw [nodeMap, hf]; rfl
    simp only
    by_cases hfull : n.kind = .directory ∧
        nodes.any (fun m => m.path != absolute ds && isChildOf (absolute ds) m.path) = true
    · rw [if_pos hfull, PathMap.remove_none _
        (fun hdef => (h.below_iff hds hclosed).mp hfull.2 hdef.2.2)]
      exact .error _
    · have hleaf : PathMap.Leaf (nodeMap nodes) ds := by
        cases hk : n.kind with
        | file =>
          rw [FsNode.entry_file hk] at hentry
          exact hclosed.leaf_file hentry
        | directory =>
          by_contra hx
          exact hfull ⟨hk, (h.below_iff hds hclosed).mpr hx⟩
      rw [if_neg hfull, PathMap.remove_some _ hne (by rw [hentry]; exact some_ne_none _) hleaf]
      obtain ⟨hflat, hmap⟩ := h.erase hds
      exact .ok hflat hmap

end

theorem writeIn_performs (hclosed : PathMap.Closed (nodeMap nodes)) (data : List UInt8) :
    Performs nodes (writeIn (absolute ds) data nodes) (PathMap.write (nodeMap nodes) ds data) := by
  unfold writeIn PathMap.write
  rw [normalizePath_absolute hds]
  cases hf : nodes.find? fun n => comps n.path == ds with
  | none =>
    have hfree : nodeMap nodes ds = none := by rw [nodeMap, hf]; rfl
    have hnone : findNode nodes (absolute ds) = none := (h.findNode_eq hds).trans hf
    rw [hfree]
    unfold PathMap.make
    simp only [hnone, isNone_none, if_true]
    rcases h.ensureParentDir_cases hds hclosed with ⟨hok, -, hdir⟩ | ⟨⟨e, he⟩, hno⟩
    · -- the empty file is appended and then found
      obtain ⟨hflat, hmap⟩ := h.append hds hfree .file []
      have hnew : (nodes ++ [({ path := absolute ds, kind := .file, data := [] } : FsNode)]).find?
          (fun n => comps n.path == ds) = some { path := absolute ds, kind := .file, data := [] } := by
        rw [find?_append, hf, none_or,
          find?_cons_of_pos (by simp only [comps_absolute hds, beq_self_eq_true])]
      obtain ⟨hflat', hmap'⟩ := hflat.setData hds hnew rfl data
      rw [hok, if_pos ⟨hfree, hdir⟩]
      simp only [(hflat.findNode_eq hds).trans hnew]
      refine .ok hflat' ?_
      rw [hmap', hmap, Function.update_idem]
    · rw [he, if_neg fun hdef => hno hfree hdef.2]
      exact .error e
  | some n =>
    have hentry : nodeMap nodes ds = some n.entry := by rw [nodeMap, hf]; rfl
    have hsome : findNode nodes (absolute ds) = some n := (h.findNode_eq hds).trans hf
    rw [hentry]
    simp only [hsome, isNone_some, Bool.false_eq_true, if_false]
    cases hk : n.kind with
    | directory =>
      rw [FsNode.entry_dir.mpr hk]
      exact .error _
    | file =>
      rw [FsNode.entry_file hk]
      obtain ⟨hflat, hmap⟩ := h.setData hds hf hk data
      exact .ok hflat hmap

/-! ## Reading -/

theorem readIn_eq : (readIn (absolute ds) nodes).toOption = PathMap.read (nodeMap nodes) ds := by
  unfold readIn PathMap.read
  rw [← h.findNode_map hds]
  cases findNode nodes (absolute ds) with
  | none => rfl
  | some n =>
    rw [map_some]
    simp only
    cases hk : n.kind with
    | directory => rw [FsNode.entry_dir.mpr hk]; rfl
    | file => rw [FsNode.entry_file hk]; rfl

/-- What a stat says about an entry: a directory has no size. -/
def statOf : Entry (List UInt8) → FsStat
  | .dir => { kind := .directory, size := 0 }
  | .file data => { kind := .file, size := data.length }

theorem statIn_eq (hdirs : ∀ n ∈ nodes, n.kind = .directory → n.data = []) :
    (statIn (absolute ds) nodes).toOption = (nodeMap nodes ds).map statOf := by
  unfold statIn
  rw [← h.findNode_map hds]
  cases hf : findNode nodes (absolute ds) with
  | none => rfl
  | some n =>
    have hn : n ∈ nodes := mem_of_find?_eq_some hf
    rw [map_some]
    cases hk : n.kind with
    | directory =>
      rw [FsNode.entry_dir.mpr hk]
      simp only [hk, hdirs n hn hk]
      rfl
    | file =>
      rw [FsNode.entry_file hk]
      simp only [hk]
      rfl

/-- The nodes that a listing shows are those directly below. -/
theorem Flat.childName_iff (hn : n ∈ nodes) (c : Str) :
    childName (absolute ds) n = some c ↔ comps n.path = ds ++ [c] := by
  have hnames := comps_isName n.path
  have hpath := h.path_eq hn
  unfold childName
  generalize comps n.path = es at hnames hpath
  rw [hpath]
  cases es using reverseRecOn with
  | nil =>
    constructor
    · intro hx
      split at hx <;> cases hx
    · intro hx
      exact absurd hx.symm (append_ne_nil_of_right_ne_nil ds (cons_ne_nil c []))
  | append_singleton cs b =>
    have hcs : ∀ d ∈ cs, IsComp d := fun d hd => (hnames d (mem_append_left _ hd)).1
    rw [splitParent_absolute hnames]
    simp only
    constructor
    · intro hx
      split at hx
      · cases hx
      split at hx
      · rename_i heq
        rw [absolute_inj hcs (fun d hd => (hds d hd).1) heq, some.inj hx]
      · cases hx
    · intro hx
      obtain ⟨rfl, hb⟩ := append_inj' hx rfl
      obtain rfl : b = c := by simpa using hb
      rw [if_neg, if_pos rfl]
      intro heq
      have hinj := absolute_inj (fun d hd => (hnames d hd).1) hcs heq
      have hlen := congrArg List.length hinj
      rw [length_append, length_singleton] at hlen
      omega

/-- The names that `fs_readdir` collects. -/
theorem Flat.childNames_listing :
    PathMap.IsListing (nodeMap nodes) ds (sortNames (nodes.filterMap (childName (absolute ds)))) := by
  have hnodup : (nodes.filterMap (childName (absolute ds))).Nodup := by
    refine pairwise_filterMap.mpr
      ((pairwise_map.mp h.distinct).imp_of_mem fun {n n'} hn hn' hne b hb b' hb' heq => ?_)
    have hcomps := (h.childName_iff hds hn b).mp hb
    have hcomps' := (h.childName_iff hds hn' b').mp hb'
    rw [heq, ← hcomps'] at hcomps
    exact hne (by rw [h.eq_of_comps hn hn' hcomps])
  constructor
  · exact (sortNames_pairwise _).imp₂ (fun _ _ hle hne => lt_of_le_of_ne hle hne)
      ((sortNames_perm _).nodup_iff.mpr hnodup)
  · intro c
    rw [(sortNames_perm _).mem_iff, mem_filterMap, ne_none_iff_exists']
    constructor
    · rintro ⟨n, hn, hc⟩
      rw [h.childName_iff hds hn] at hc
      exact ⟨n.entry, h.nodeMap_iff.mpr ⟨n, hn, hc, rfl⟩⟩
    · rintro ⟨e, he⟩
      obtain ⟨n, hn, hcomps, -⟩ := mem_of_nodeMap he
      exact ⟨n, hn, (h.childName_iff hds hn c).mpr hcomps⟩

theorem readdirIn_eq : (readdirIn (absolute ds) nodes).toOption = PathMap.list (nodeMap nodes) ds := by
  have hlist := h.childNames_listing hds
  have hdedup : (sortNames (nodes.filterMap (childName (absolute ds)))).destutter (· ≠ ·) =
      sortNames (nodes.filterMap (childName (absolute ds))) :=
    destutter_of_isChain _ _ (hlist.1.imp fun hlt => ne_of_lt hlt).isChain
  unfold readdirIn PathMap.list
  rw [← h.findNode_map hds, hdedup, PathMap.listing_eq _ hlist]
  cases findNode nodes (absolute ds) with
  | none => rfl
  | some n =>
    rw [map_some]
    simp only
    cases hk : n.kind with
    | directory => rw [FsNode.entry_dir.mpr hk]; rfl
    | file =>
      rw [FsNode.entry_file hk]
      rfl

/-! ## Renaming -/

variable {es : List Str} (hes : ∀ c ∈ es, IsName c)

include hes

/-- Where a rename takes a node. -/
def relocated (ds es : List Str) (n : FsNode) : FsNode :=
  { n with path := absolute (Shell.relocate ds es (comps n.path)) }

omit h hds hes in
theorem relocated_other (hpath : n.path = absolute (comps n.path)) (hout : ¬ds <+: comps n.path) :
    relocated ds es n = n := by
  rw [relocated, Shell.relocate_other es hout, ← hpath]

omit hes in
/-- The node at the source, moved. -/
theorem moved_eq (hn : n ∈ nodes) (hleaf : ds <+: comps n.path → comps n.path = ds) :
    (if (n.path == absolute ds) = true then { n with path := absolute es } else n) =
      relocated ds es n := by
  have hpath := h.path_eq hn
  by_cases hcs : comps n.path = ds
  · have hrel := Shell.relocate_below ds es []
    rw [append_nil, append_nil] at hrel
    rw [if_pos (by rw [hpath, hcs, beq_self_eq_true]), relocated, hcs, hrel]
  · rw [if_neg, relocated_other hpath fun hpre => hcs (hleaf hpre)]
    rw [beq_iff_eq, h.path_iff hds hn]
    exact hcs

/-- The prefix rewriting of the loop, for the other nodes. -/
theorem rerooted_eq (hsource : ds ≠ []) (htarget : es ≠ []) (hout : ¬ds <+: es) (hn : n ∈ nodes) :
    reroot (absolute ds) (absolute es)
      (if (n.path == absolute ds) = true then { n with path := absolute es } else n) =
      relocated ds es n := by
  have hpath := h.path_eq hn
  have hnames := comps_isName n.path
  by_cases hcs : comps n.path = ds
  · rw [moved_eq h hds hn fun _ => hcs]
    -- the moved node itself is not below the source
    have hrel := Shell.relocate_below ds es []
    rw [append_nil, append_nil] at hrel
    rw [relocated, hcs, hrel, reroot, if_neg]
    exact fun hx => hout ((isChildOf_absolute hds hes).mp hx.2)
  · have hne : n.path ≠ absolute ds := fun heq => hcs ((h.path_iff hds hn).mp heq)
    rw [if_neg (by rw [beq_iff_eq]; exact hne), reroot]
    have hchild : isChildOf (absolute ds) n.path = true ↔ ds <+: comps n.path := by
      conv_lhs => rw [hpath]
      exact isChildOf_absolute hds hnames
    by_cases hpre : ds <+: comps n.path
    · rw [if_pos ⟨hne, hchild.mpr hpre⟩, relocated]
      obtain ⟨r, hr⟩ := hpre
      have hstring : absolute es ++ n.path.drop (absolute ds).length = absolute (es ++ r) := by
        rw [hpath, ← hr, absolute_append hsource, drop_left, absolute_append htarget]
      rw [hstring, ← hr, Shell.relocate_below]
    · rw [if_neg (fun hx => hpre (hchild.mp hx.2)), relocated_other hpath hpre]

omit hds in
/-- Relocating every node performs the rename. -/
theorem relocated_performs (hclosed : PathMap.Closed (nodeMap nodes)) (hfree : nodeMap nodes es = none) :
    Flat (nodes.map (relocated ds es)) ∧
      nodeMap (nodes.map (relocated ds es)) = PathMap.moved (nodeMap nodes) ds es := by
  -- nothing of the list is at or below the destination
  have hnone : ∀ n ∈ nodes, ¬es <+: comps n.path := by
    rintro n hn ⟨r, hr⟩
    have hbelow := hclosed.free_below hfree r
    rw [hr, h.nodeMap_mem hn] at hbelow
    cases hbelow
  have hcases : ∀ n ∈ nodes, (∃ r, comps n.path = ds ++ r ∧ Shell.relocate ds es (comps n.path) = es ++ r) ∨
      (¬ds <+: comps n.path ∧ Shell.relocate ds es (comps n.path) = comps n.path) := by
    intro n hn
    by_cases hpre : ds <+: comps n.path
    · obtain ⟨r, hr⟩ := hpre
      exact .inl ⟨r, hr.symm, by rw [← hr, Shell.relocate_below]⟩
    · exact .inr ⟨hpre, Shell.relocate_other es hpre⟩
  obtain ⟨hflat, hmap⟩ := h.map (relocated ds es) _ (fun n _ => rfl)
    (fun n hn c hc => by
      rcases hcases n hn with ⟨r, hr, heq⟩ | ⟨-, heq⟩
      · rw [heq] at hc
        rcases mem_append.mp hc with hc | hc
        · exact hes c hc
        · exact comps_isName n.path c (by rw [hr]; exact mem_append_right _ hc)
      · rw [heq] at hc
        exact comps_isName n.path c hc)
    (fun n hn n' hn' heq => by
      rcases hcases n hn with ⟨r, hr, hrel⟩ | ⟨-, hrel⟩ <;>
        rcases hcases n' hn' with ⟨r', hr', hrel'⟩ | ⟨-, hrel'⟩
      · rw [hrel, hrel'] at heq
        rw [hr, hr', append_cancel_left heq]
      · rw [hrel, hrel'] at heq
        exact absurd ⟨r, heq⟩ (hnone n' hn')
      · rw [hrel, hrel'] at heq
        exact absurd ⟨r', heq.symm⟩ (hnone n hn)
      · rw [hrel, hrel'] at heq
        exact heq)
    (fun n _ => rfl)
  refine ⟨hflat, funext fun cs => Option.ext fun e => ?_⟩
  rw [hmap cs e]
  constructor
  · rintro ⟨bs, rfl, hbs⟩
    obtain ⟨n, hn, rfl, -⟩ := mem_of_nodeMap hbs
    rcases hcases n hn with ⟨r, hr, hrel⟩ | ⟨hpre, hrel⟩
    · rw [hrel, PathMap.moved_below, ← hr]; exact hbs
    · rw [hrel, PathMap.moved_other _ (hnone n hn) hpre]; exact hbs
  · intro hcs
    by_cases hq : es <+: cs
    · obtain ⟨r, rfl⟩ := hq
      rw [PathMap.moved_below] at hcs
      exact ⟨ds ++ r, Shell.relocate_below ds es r, hcs⟩
    · by_cases hp : ds <+: cs
      · rw [PathMap.moved_source _ hq hp] at hcs; cases hcs
      · rw [PathMap.moved_other _ hq hp] at hcs
        exact ⟨cs, Shell.relocate_other es hp, hcs⟩

/-- **`fs_rename` performs the rename**, when the source is not the root and the destination is not
    inside the source. -/
theorem renameIn_performs (hclosed : PathMap.Closed (nodeMap nodes)) (hsource : ds ≠ [])
    (hout : ¬ds <+: es) :
    Performs nodes (renameIn (absolute ds) (absolute es) nodes) (PathMap.rename (nodeMap nodes) ds es) := by
  unfold renameIn PathMap.rename
  rcases h.ensureParentDir_cases hes hclosed with ⟨hok, htarget, hdir⟩ | ⟨⟨e, he⟩, hno⟩
  swap
  · rw [he]
    simp only
    rw [if_neg fun hdef => hno hdef.2.2.1 hdef.2.2.2.1]
    exact .error e
  rw [hok]
  by_cases hfree : nodeMap nodes es = none
  swap
  · rw [if_pos ((h.taken_iff hes).mpr hfree), if_neg (fun hdef => hfree hdef.2.2.1)]
    exact .error _
  rw [if_neg fun hx => (h.taken_iff hes).mp hx hfree, h.find_eq hds]
  cases hf : nodes.find? fun n => comps n.path == ds with
  | none =>
    have hnone : nodeMap nodes ds = none := by rw [nodeMap, hf]; rfl
    rw [if_neg (fun hdef => hdef.2.1 hnone)]
    exact .error _
  | some n =>
    have hentry : nodeMap nodes ds = some n.entry := by rw [nodeMap, hf]; rfl
    have hn : n ∈ nodes := mem_of_find?_eq_some hf
    have hold : n.path = absolute ds := (h.path_iff hds hn).mpr (by simpa using find?_some hf)
    have hfirst : nodes.modifyFirst (fun n => n.path == absolute ds)
        (fun n => { n with path := absolute es }) =
        nodes.map fun n => if (n.path == absolute ds) = true then { n with path := absolute es } else n := by
      refine modifyFirst_eq_map ((pairwise_map.mp h.distinct).imp fun hne ha => ?_)
      rw [beq_iff_eq] at ha
      rw [beq_eq_false_iff_ne, ← ha]
      exact hne.symm
    obtain ⟨hflat, hmap⟩ := relocated_performs h hes hclosed hfree
    rw [if_pos ⟨hsource, by rw [hentry]; exact some_ne_none _, hfree, hdir, hout⟩]
    simp only [hold, hfirst]
    cases hk : n.kind with
    | directory =>
      rw [List.map_map]
      have hall : nodes.map (reroot (absolute ds) (absolute es) ∘ fun n =>
          if (n.path == absolute ds) = true then { n with path := absolute es } else n) =
          nodes.map _ :=
        map_congr_left fun m hm => rerooted_eq h hds hes hsource htarget hout hm
      rw [hall]
      exact .ok hflat hmap
    | file =>
      -- nothing is below a file
      have hall : (nodes.map fun n =>
          if (n.path == absolute ds) = true then { n with path := absolute es } else n) =
          nodes.map (relocated ds es) := by
        refine map_congr_left fun m hm => moved_eq h hds hm fun hpre => ?_
        rw [FsNode.entry_file hk] at hentry
        exact hclosed.eq_of_leaf (hclosed.leaf_file hentry) hpre (by rw [h.nodeMap_mem hm]; exact some_ne_none _)
      rw [hall]
      exact .ok hflat hmap

end operations

end Saios.Storage
