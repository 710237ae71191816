/-
  THE TMPFS SIMULATES A MAP from paths to entries with a working directory (`Shell`).

  Each operation succeeds exactly when the map operation is defined, and then leaves the tmpfs at the
  resulting map; otherwise it leaves the tmpfs as it was (`Simulates`).  For `rename_path` this needs a
  condition: it must not move a node under a file or into its own subtree, which it does not check and
  which the map has no operation for.
-/
import Saios.Vfs.Abstract

namespace Saios.Vfs

open Path TmpFs EdgeTree List Option

/-! ## Operations -/

/-- The tmpfs is a tree, and the shell is what it looks like from outside. -/
structure Matches (fs : TmpFs) (s : Shell Str (List UInt8)) : Prop where
  rooted : Rooted fs
  map : s.map = fs.absMap
  cwd : fs.nodeAt s.cwd = some fs.cwd

/-- The operation succeeds exactly when the map operation is defined, and changes nothing when not. -/
inductive Simulates (fs : TmpFs) :
    Except String Unit × TmpFs → Option (Shell Str (List UInt8)) → Prop
  | ok {fs' : TmpFs} {s' : Shell Str (List UInt8)} (h : Matches fs' s') :
      Simulates fs (.ok (), fs') (some s')
  | error (e : String) : Simulates fs (.error e, fs) none

/-- The entry of a new node. -/
def kindEntry : FileType → Entry (List UInt8)
  | .directory => .dir
  | .file => .file []

theorem entry_newNode (inode p : Nat) (name : Str) (kind : FileType) :
    (newNode inode p name kind).entry = kindEntry kind := by
  cases kind <;> rfl

variable {cs : List Str} {i : Nat}

theorem toOption_none {α : Type} {r : Except String α} (h : r.toOption = none) : ∃ e, r = .error e := by
  cases r with
  | error e => exact ⟨e, rfl⟩
  | ok b => cases h

/-- The name in slot `i`. -/
def TmpFs.nameOf (fs : TmpFs) (i : Nat) : Str := ((fs.get? i).map Node.name).getD []

section operations

variable {fs : TmpFs} {s : Shell Str (List UInt8)} (h : Matches fs s) {path : Str}

include h

/-- The directory that a path starts from exists. -/
theorem Matches.base (path : Str) :
    ∃ i, fs.nodeAt (if path.head? = some '/' then [] else s.cwd) = some i := by
  split
  · exact ⟨_, rfl⟩
  · exact ⟨_, h.cwd⟩

/-- Where the new entry of a path goes: nowhere, or by its last name under the parent's path. -/
theorem Matches.parent_cases (hplain : Plain path) :
    ((∃ e, fs.resolveParentAndName path = .error e) ∧
      (s.map (absComps s.cwd path) = none → s.map (absComps s.cwd path).dropLast ≠ some .dir)) ∨
    ∃ ps name p d, absComps s.cwd path = ps ++ [name] ∧ IsName name ∧ fs.nodeAt ps = some p ∧
      fs.get? p = some d ∧ fs.resolveParentAndName path = .ok (p, name) := by
  rcases eq_nil_or_concat (components path) with hnil | ⟨cs, c, hcs⟩
  · -- the path is the directory it starts from
    refine .inl ⟨toOption_none (resolveParentAndName_nil hnil), fun hnone => ?_⟩
    obtain ⟨i, hi⟩ := h.base path
    rw [absComps, hnil, append_nil, h.map] at hnone
    rw [(absMap_none h.rooted).mp hnone] at hi; cases hi
  · rw [concat_eq_append] at hcs
    have hres := resolveParentAndName_plain h.cwd hplain hcs
    have habs : absComps s.cwd path = (if path.head? = some '/' then [] else s.cwd) ++ cs ++ [c] := by
      rw [absComps, hcs, append_assoc]
    cases hp : fs.nodeAt ((if path.head? = some '/' then [] else s.cwd) ++ cs) with
    | none =>
      rw [hp] at hres
      refine .inl ⟨toOption_none hres, fun _ => ?_⟩
      rw [habs, dropLast_concat, h.map, (absMap_none h.rooted).mpr hp]
      exact (some_ne_none _).symm
    | some p =>
      rw [hp] at hres
      obtain ⟨d, hd⟩ := h.rooted.nodeAt_live hp
      refine .inr ⟨_, c, p, d, habs, ?_, hp, hd, toOption_eq_some.mp hres⟩
      exact hplain.isName c (by rw [hcs]; exact mem_append_right _ (mem_singleton_self c))

/-- A name is free in a directory exactly when the map has nothing at its path. -/
theorem Matches.free_iff {ps : List Str} {name : Str} {p : Nat} (hp : fs.nodeAt ps = some p) :
    fs.lookupChildByName p name = none ↔ s.map (ps ++ [name]) = none := by
  rw [h.map, absMap_none h.rooted, nodeAt, walk_concat]
  rw [nodeAt] at hp
  rw [hp, bind_some]

/-- **`create` and `mkdir` simulate the making of an entry.** -/
theorem createAs_simulates (hplain : Plain path) (kind : FileType) :
    Simulates fs (fs.createAs path kind) (s.make (absComps s.cwd path) (kindEntry kind)) := by
  unfold createAs Shell.make PathMap.make
  rcases h.parent_cases hplain with ⟨⟨e, he⟩, hno⟩ | ⟨ps, name, p, d, habs, hname, hp, hd, hr⟩
  · rw [he, if_neg fun hdef => hno hdef.1 hdef.2]
    exact .error e
  rw [hr, habs, dropLast_concat]
  have hentry : s.map ps = some d.entry := by rw [h.map]; exact absMap_some hp hd
  rcases insertNode_cases fs p name kind with ⟨e, he⟩ | ⟨d', hd', hk, hl, hins⟩
  · -- the checks of `insert_node` fail only when the map operation is undefined
    simp only [he]
    rw [if_neg]
    · exact .error e
    · rintro ⟨hfree, hdir⟩
      have hk : d.kind = .directory := Node.entry_dir.mp (mem_unique hentry hdir)
      rw [insertNode_ok hd hk ((h.free_iff hp).mpr hfree) kind] at he
      cases congrArg Prod.fst he
  · obtain rfl := mem_unique hd hd'
    simp only [hins]
    rw [if_pos ⟨(h.free_iff hp).mp hl, by rw [hentry, Node.entry_dir.mpr hk]⟩]
    refine .ok ⟨rooted_attach h.rooted hd hk hl hname kind, ?_, ?_⟩
    · rw [absMap_attach h.rooted hd hk hl hname kind hp, entry_newNode, h.map]
    · rw [nodeAt_attach h.rooted hd hk hl hname kind hp, if_neg]
      · exact h.cwd
      · intro heq
        have hfree := (h.free_iff hp).mp hl
        rw [← heq, h.map, absMap_none h.rooted, h.cwd] at hfree
        cases hfree

/-- A path resolves exactly when the map has an entry for it. -/
theorem Matches.resolve_cases (hplain : Plain path) :
    ((∃ e, fs.resolve path = .error e) ∧ s.map (absComps s.cwd path) = none) ∨
    ∃ i n, fs.resolve path = .ok i ∧ fs.nodeAt (absComps s.cwd path) = some i ∧
      fs.get? i = some n ∧ s.map (absComps s.cwd path) = some n.entry := by
  have hres := resolve_plain h.cwd hplain
  cases hi : fs.nodeAt (absComps s.cwd path) with
  | none =>
    rw [hi] at hres
    exact .inl ⟨toOption_none hres, by rw [h.map]; exact (absMap_none h.rooted).mpr hi⟩
  | some i =>
    rw [hi] at hres
    obtain ⟨n, hn⟩ := h.rooted.nodeAt_live hi
    exact .inr ⟨i, n, toOption_eq_some.mp hres, rfl, hn, by rw [h.map]; exact absMap_some hi hn⟩

/-- Only the root has the empty path. -/
theorem Matches.root_iff (hi : fs.nodeAt cs = some i) : i = fs.root ↔ cs = [] := by
  constructor
  · rintro rfl; exact h.rooted.tree.walk_inj hi rfl
  · rintro rfl; exact (some.inj hi).symm

/-- A node lists a child exactly when the map has an entry for its name below. -/
theorem Matches.child_iff {n : Node} (hi : fs.nodeAt cs = some i) (hn : fs.get? i = some n) (c : Str) :
    s.map (cs ++ [c]) ≠ none ↔ ∃ j m, j ∈ n.children ∧ fs.get? j = some m ∧ m.name = c := by
  rw [ne_eq, ← h.free_iff hi, ← ne_eq, ne_none_iff_exists']
  constructor
  · rintro ⟨j, hj⟩
    obtain ⟨d, m, hd, -, hmem, hm, hname⟩ := lookup_some hj
    obtain rfl := mem_unique hn hd
    exact ⟨j, m, hmem, hm, hname⟩
  · rintro ⟨j, m, hmem, hm, hname⟩
    exact ⟨j, h.rooted.lookup_iff.mpr ⟨n, m, hn, h.rooted.dir_of_child hn hmem, hmem, hm, hname⟩⟩

theorem Matches.leaf_iff {n : Node} (hi : fs.nodeAt cs = some i) (hn : fs.get? i = some n) :
    s.map.Leaf cs ↔ n.children = [] := by
  constructor
  · intro hleaf
    by_contra hne
    obtain ⟨j, hj⟩ := exists_mem_of_ne_nil _ hne
    obtain ⟨m, hm, -⟩ := h.rooted.lists i n j hn hj
    exact (h.child_iff hi hn m.name).mpr ⟨j, m, hj, hm, rfl⟩ (hleaf m.name)
  · intro hnil c
    by_contra hne
    obtain ⟨j, m, hj, -⟩ := (h.child_iff hi hn c).mp hne
    rw [hnil] at hj; cases hj

/-- **`remove` simulates the removal of an entry.** -/
theorem remove_simulates (hplain : Plain path) :
    Simulates fs (fs.remove path) (s.remove (absComps s.cwd path)) := by
  unfold remove Shell.remove
  rcases h.resolve_cases hplain with ⟨⟨e, he⟩, hnone⟩ | ⟨i, n, hr, hi, hn, hentry⟩
  · rw [he, PathMap.remove_none _ (fun hdef => hdef.2.1 hnone)]
    exact .error e
  rw [hr]
  simp only
  by_cases hroot : i = fs.root
  · rw [PathMap.remove_none _ (fun hdef => hdef.1 ((h.root_iff hi).mp hroot)), removeInode, if_pos hroot]
    exact .error _
  by_cases hempty : n.children = []
  · obtain ⟨p, d, hpar, hd, -⟩ := h.rooted.listed i n hn hroot
    have hnot : ¬(n.kind = .directory ∧ n.children ≠ []) := fun hfull => hfull.2 hempty
    rw [PathMap.remove_some _ (fun hnil => hroot ((h.root_iff hi).mpr hnil))
      (by rw [hentry]; exact some_ne_none _) ((h.leaf_iff hi hn).mpr hempty),
      removeInode_ok hroot hn hnot hpar hd]
    refine .ok ⟨rooted_detach h.rooted hroot hn hempty hpar hd, ?_, ?_⟩
    · rw [absMap_detach h.rooted hroot hn hempty hpar hd hi, h.map]
    · -- the working directory is the root when it was removed
      rw [nodeAt_detach h.rooted hroot hn hempty hpar hd hi]
      have hcwd : (fs.detach i p d).cwd = if fs.cwd = i then fs.root else fs.cwd := rfl
      rw [hcwd]
      by_cases hc : s.cwd = absComps s.cwd path
      · have hci : fs.cwd = i := mem_unique h.cwd (by rw [hc]; exact hi)
        simp only [if_pos hc, if_pos hci]
        rw [if_neg (fun hnil => hroot ((h.root_iff hi).mpr hnil.symm))]
        rfl
      · have hci : fs.cwd ≠ i := fun heq =>
          hc (h.rooted.tree.walk_inj h.cwd (by rw [heq]; exact hi))
        simp only [if_neg hc, if_neg hci]
        exact h.cwd
  · have hdir : n.kind = .directory := by
      obtain ⟨j, hj⟩ := exists_mem_of_ne_nil _ hempty
      exact h.rooted.dir_of_child hn hj
    rw [PathMap.remove_none _ (fun hdef => hempty ((h.leaf_iff hi hn).mp hdef.2.2)), removeInode,
      if_neg hroot, node_ok.mpr hn]
    simp only
    rw [if_pos ⟨hdir, hempty⟩]
    exact .error _

/-- **`rename_path` simulates the rename**, when it moves nothing under a file or into itself. -/
theorem renamePath_simulates {source target : Str} (hsource : Plain source) (htarget : Plain target)
    (hmov : ∀ i q name, fs.resolve source = .ok i → i ≠ fs.root →
      fs.resolveParentAndName target = .ok (q, name) → fs.lookupChildByName q name = none →
      Movable fs i q) :
    Simulates fs (fs.renamePath source target)
      (s.rename (absComps s.cwd source) (absComps s.cwd target)) := by
  unfold Shell.rename PathMap.rename
  rcases h.resolve_cases hsource with ⟨⟨e, he⟩, hnone⟩ | ⟨i, n, hr, hi, hn, hentry⟩
  · rw [renamePath, he, if_neg (fun hdef => hdef.2.1 hnone)]
    exact .error e
  by_cases hroot : i = fs.root
  · rw [renamePath, hr, if_neg (fun hdef => hdef.1 ((h.root_iff hi).mp hroot))]
    simp only
    rw [if_pos hroot]
    exact .error _
  rcases h.parent_cases htarget with ⟨⟨e, he⟩, hno⟩ | ⟨qs, name, q, m0, habs, hname, hq, hm0, ht⟩
  · rw [renamePath, hr]
    simp only
    rw [if_neg hroot, he, if_neg fun hdef => hno hdef.2.2.1 hdef.2.2.2.1]
    exact .error e
  rw [habs, dropLast_concat]
  cases hl : fs.lookupChildByName q name with
  | some c =>
    rw [renamePath, hr]
    simp only
    rw [if_neg hroot, ht]
    simp only [hl, isSome_some, if_true]
    rw [if_neg]
    · exact .error _
    · rintro ⟨-, -, hfree, -⟩
      rw [(h.free_iff hq).mpr hfree] at hl; cases hl
  | none =>
    have hm := hmov i q name hr hroot ht hl
    obtain ⟨p, d, hpar, hd, -⟩ := h.rooted.listed i n hn hroot
    obtain ⟨m, k, hslots⟩ := relink_slots hn hd hm0
    have hout : ¬absComps s.cwd source <+: qs := fun hpre =>
      hm.outside ((h.rooted.below_iff hi hq).mpr hpre)
    have hfree : s.map (qs ++ [name]) = none := (h.free_iff hq).mp hl
    have hnot : ¬absComps s.cwd source <+: qs ++ [name] := by
      intro hpre
      rcases prefix_concat_iff.mp hpre with heq | hpre
      · rw [heq, hfree] at hentry; cases hentry
      · exact hout hpre
    have hdir : s.map qs = some .dir := by
      obtain ⟨e, he, hek⟩ := hm.dir
      obtain rfl := mem_unique hm0 he
      rw [h.map, absMap_some hq hm0, Node.entry_dir.mpr hek]
    rw [renamePath_ok hr hroot ht hl hn hpar hslots, if_pos
      ⟨fun hnil => hroot ((h.root_iff hi).mpr hnil), by rw [hentry]; exact some_ne_none _, hfree,
        hdir, hnot⟩]
    obtain ⟨hbelow, -, helse⟩ :=
      nodeAt_relink h.rooted hn hpar hm hl hname hslots hi hq
    refine .ok ⟨rooted_relink h.rooted hn hpar hm hl hname hslots, ?_, ?_⟩
    · rw [absMap_relink h.rooted hn hpar hm hl hname hslots hi hq, h.map]
    · -- the working directory follows the moved subtree
      by_cases hpre : absComps s.cwd source <+: s.cwd
      · obtain ⟨ms, hms⟩ := hpre
        have hnew := Shell.relocate_below (absComps s.cwd source) (qs ++ [name]) ms
        rw [hms] at hnew
        rw [hnew, hbelow, hms]
        exact h.cwd
      · rw [Shell.relocate_other _ hpre, helse s.cwd hpre]
        · exact h.cwd
        · rintro ⟨ms, hms⟩
          have hc := h.cwd
          rw [← hms] at hc
          obtain ⟨j, hj, -⟩ := bind_eq_some_iff.mp ((walk_append ..).symm.trans hc)
          rw [h.map, absMap_none h.rooted, nodeAt, hj] at hfree; cases hfree

omit h in
theorem childNames_eq {l : List Nat} (hlive : ∀ c ∈ l, ∃ m, fs.get? c = some m) :
    fs.childNames l = .ok (l.map fs.nameOf) := by
  induction l with
  | nil => rfl
  | cons c l ih =>
    obtain ⟨m, hm⟩ := hlive c mem_cons_self
    rw [childNames, node_ok.mpr hm, ih fun b hb => hlive b (mem_cons_of_mem _ hb), map_cons,
      nameOf, hm]
    rfl

/-- The sorted names of a node's children are the listing of its path. -/
theorem Matches.listing_eq {n : Node} (hi : fs.nodeAt cs = some i) (hn : fs.get? i = some n) :
    s.map.listing cs = sortNames (n.children.map fs.nameOf) := by
  have hlive : ∀ c ∈ n.children, ∃ m, fs.get? c = some m ∧ fs.nameOf c = m.name := by
    intro c hc
    obtain ⟨m, hm, -⟩ := h.rooted.lists i n c hn hc
    exact ⟨m, hm, by rw [nameOf, hm]; rfl⟩
  have hnodup : (n.children.map fs.nameOf).Nodup := by
    refine Nodup.map_on (fun c hc c' hc' heq => ?_) (h.rooted.nodup i n hn)
    obtain ⟨m, hm, hname⟩ := hlive c hc
    obtain ⟨m', hm', hname'⟩ := hlive c' hc'
    exact h.rooted.siblings i n c m c' m' hn hc hm hc' hm' (hname.symm.trans (heq.trans hname'))
  refine PathMap.listing_eq _ ⟨?_, fun x => ?_⟩
  · have hperm := sortNames_perm (n.children.map fs.nameOf)
    exact (sortNames_pairwise _).imp₂ (fun _ _ hle hne => lt_of_le_of_ne hle hne)
      (hperm.nodup_iff.mpr hnodup)
  · rw [(sortNames_perm _).mem_iff, List.mem_map, h.child_iff hi hn x]
    constructor
    · rintro ⟨c, hc, rfl⟩
      obtain ⟨m, hm, hname⟩ := hlive c hc
      exact ⟨c, m, hc, hm, hname.symm⟩
    · rintro ⟨c, m, hc, hm, rfl⟩
      obtain ⟨m', hm', hname⟩ := hlive c hc
      obtain rfl := mem_unique hm hm'
      exact ⟨c, hc, hname⟩

/-- What `readdir` returns once its path is resolved. -/
theorem Matches.list_eq {r : Except String Nat} (hr : r.toOption = fs.nodeAt cs)
    (hpath : (if path = [] then .ok fs.cwd else fs.resolve path) = r) :
    (fs.readdir path).toOption = s.map.list cs := by
  unfold readdir PathMap.list
  rw [hpath]
  cases r with
  | error e =>
    rw [if_neg]
    · rfl
    · rw [h.map, (absMap_none h.rooted).mpr hr.symm]
      exact nofun
  | ok j =>
    obtain ⟨n, hn⟩ := h.rooted.nodeAt_live hr.symm
    have hentry : s.map cs = some n.entry := by rw [h.map]; exact absMap_some hr.symm hn
    simp only [node_ok.mpr hn]
    by_cases hk : n.kind = .directory
    · have hlive : ∀ c ∈ n.children, ∃ m, fs.get? c = some m := fun c hc =>
        (h.rooted.lists j n c hn hc).imp fun _ hm => hm.1
      rw [if_neg (not_not_intro hk), childNames_eq hlive, if_pos (by rw [hentry, Node.entry_dir.mpr hk]),
        h.listing_eq hr.symm hn]
      rfl
    · rw [if_pos hk, if_neg]
      · rfl
      · rw [hentry]
        exact fun hdir => hk (Node.entry_dir.mp (some.inj hdir))

end operations

end Saios.Vfs
