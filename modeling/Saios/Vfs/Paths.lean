/-
  PATHS IN THE TMPFS, when it is a rooted tree.

  The lookups are the edges of a tree, so a live node has exactly one path of names from the root
  (`nodeAt`).  In these terms, for path strings without `.` and `..`:

  1. `resolve` is the walk along the components, from the root or from the working directory
     (`resolve_plain`);
  2. `resolve_parent_and_name` is the walk along all but the last one (`resolveParentAndName_plain`);
  3. `path_for_inode` is the way back: it gives the path of the node (`pathForInode_eq`), so
     `normalized_path` is the absolute path of the string (`normalizedPath_plain`).

  The way back follows parent links only (`Up`), so what is said about it also holds in a table whose
  child lists are broken.
-/
import Saios.Lib.EdgeTree
import Saios.Vfs.Safety

namespace Saios.Vfs

open Path TmpFs EdgeTree List Option

/-- No component is `.` or `..`. -/
def Plain (path : Str) : Prop := ['.'] ∉ components path ∧ ['.', '.'] ∉ components path

instance (path : Str) : Decidable (Plain path) := by unfold Plain; infer_instance

theorem Plain.isName {path : Str} (h : Plain path) : ∀ c ∈ components path, IsName c := by
  intro c hc
  refine ⟨isComp_of_mem hc, ?_, ?_⟩
  · rintro rfl; exact h.1 hc
  · rintro rfl; exact h.2 hc

/-- The components of the absolute path that a string means in the working directory `cwd`. -/
def absComps (cwd : List Str) (path : Str) : List Str :=
  (if path.head? = some '/' then [] else cwd) ++ components path

section

variable {fs : TmpFs} (h : Rooted fs) {i j p : Nat} {n : Node} {cs : List Str} {c : Str}

include h

theorem Rooted.tree : Tree fs.lookupChildByName fs.root := h.linked.tree

theorem Rooted.nodeAt_live (hi : fs.nodeAt cs = some i) : ∃ n, fs.get? i = some n := h.linked.nodeAt_live hi

theorem Rooted.nodeAt_isName (hi : fs.nodeAt cs = some i) : ∀ c ∈ cs, IsName c := by
  induction cs using reverseRecOn generalizing i with
  | nil => intro c hc; cases hc
  | append_singleton cs c ih =>
    obtain ⟨p, n, hp, -, hn, -, hname, hi⟩ := h.linked.nodeAt_concat hi
    intro b hb
    rcases mem_append.mp hb with hb | hb
    · exact ih hp b hb
    · rw [mem_singleton.mp hb, ← hname]
      exact h.named i n hn hi

/-- A live node has a path. -/
theorem Rooted.exists_path (hn : fs.get? i = some n) : ∃ cs, fs.nodeAt cs = some i := by
  have hb := h.reach i n hn
  clear hn
  induction hb with
  | refl => exact ⟨[], rfl⟩
  | @step i p n hn hp _ ih =>
    obtain ⟨cs, hcs⟩ := ih
    obtain ⟨d, hd, hk, hmem⟩ := h.parent_dir hn hp
    refine ⟨cs ++ [n.name], ?_⟩
    rw [nodeAt] at hcs ⊢
    rw [walk_concat, hcs]
    exact h.lookup_iff.mpr ⟨d, n, hd, hk, hmem, hn, rfl⟩

/-- Below a node are the paths that extend its path. -/
theorem Rooted.below_iff {ds : List Str} (hi : fs.nodeAt cs = some i) (hj : fs.nodeAt ds = some j) :
    Below fs i j ↔ cs <+: ds := by
  constructor
  · intro hb
    induction hb generalizing ds with
    | refl => rw [h.tree.walk_inj hi hj]
    | @step j p n hn hp _ ih =>
      cases ds using reverseRecOn with
      | nil =>
        obtain rfl : fs.root = j := some.inj hj
        exact absurd rfl (h.ne_root_of_parent hn hp)
      | append_singleton ds d =>
        obtain ⟨q, n', hq, -, hn', hpar, -⟩ := h.linked.nodeAt_concat hj
        obtain rfl := mem_unique hn hn'
        obtain rfl := mem_unique hp hpar
        exact (ih hq).trans (prefix_append _ _)
  · rintro ⟨es, rfl⟩
    induction es using reverseRecOn generalizing j with
    | nil =>
      rw [append_nil] at hj
      rw [mem_unique hi hj]
      exact .refl
    | append_singleton es e ih =>
      rw [← append_assoc] at hj
      obtain ⟨q, n, hq, -, hn, hpar, -⟩ := h.linked.nodeAt_concat hj
      exact .step hn hpar (ih hq)

end

/-! ## The way back -/

/-- The names met on the way up along the parent links, from the root down. -/
inductive Up (fs : TmpFs) : Nat → List Str → Prop
  | root : Up fs fs.root []
  | step {i p : Nat} {n : Node} {cs : List Str} (hn : fs.get? i = some n) (hp : n.parent = some p)
      (hi : i ≠ fs.root) (h : Up fs p cs) : Up fs i (cs ++ [n.name])

section

variable {fs : TmpFs} {i : Nat} {cs : List Str}

theorem Up.of_root (h : Up fs fs.root cs) : cs = [] := by
  generalize hr : fs.root = r at h
  cases h with
  | root => rfl
  | step _ _ hi => exact absurd hr.symm hi

/-- The climb visits one slot for each name. -/
theorem Up.ends (h : Up fs i cs) : ∃ l, fs.Ends i l ∧ l.length = cs.length := by
  induction h with
  | root => exact ⟨[], .stop (Or.inr rfl), rfl⟩
  | @step i p n cs hn hp hi h ih =>
    obtain ⟨l, hl, hlen⟩ := ih
    have hget : n.parent.getD fs.root = p := by rw [hp]; rfl
    by_cases hroot : p = fs.root
    · subst hroot
      obtain rfl := h.of_root
      exact ⟨_, .last hn hi hget, rfl⟩
    · refine ⟨i :: l, .next hn hi (by rw [hget]; exact hroot) (by rw [hget]; exact hl), ?_⟩
      rw [length_cons, length_append, length_singleton, hlen]

/-- The loop of `path_for_inode` collects the names, last one first. -/
theorem Up.pathLoop_eq (h : Up fs i cs) (hi : i ≠ fs.root) {fuel : Nat} {parts : List Str}
    (hf : cs.length < fuel) : fs.pathLoop fuel i parts = some (parts ++ cs.reverse) := by
  induction h generalizing fuel parts with
  | root => exact absurd rfl hi
  | @step i p n cs hn hp hi h ih =>
    obtain ⟨fuel, rfl⟩ : ∃ f, fuel = f + 1 := ⟨fuel - 1, by omega⟩
    rw [length_append, length_singleton] at hf
    have hget : n.parent.getD fs.root = p := by rw [hp]; rfl
    rw [pathLoop, node_ok.mpr hn]
    simp only [hget]
    rw [if_neg hi, reverse_append, reverse_singleton, ← append_assoc]
    by_cases hroot : p = fs.root
    · subst hroot
      rw [if_pos rfl, h.of_root, reverse_nil, append_nil]
    · rw [if_neg hroot]
      exact ih hroot (by omega)

/-- **`path_for_inode` gives the names on the way up**, whatever the child lists say. -/
theorem Up.pathForInode_eq (h : Up fs i cs) : fs.pathForInode i = some (absolute cs) := by
  unfold pathForInode
  split
  · rename_i hroot
    subst hroot
    rw [h.of_root]; rfl
  · rename_i hi
    obtain ⟨l, hl, hlen⟩ := h.ends
    have hbound := hl.length_le
    rw [h.pathLoop_eq hi (by omega), nil_append, map_some, reverse_reverse]
    rfl

/-- The way up from a node is the way down to it. -/
theorem Linked.up (h : Linked fs) (hi : fs.nodeAt cs = some i) : Up fs i cs := by
  induction cs using reverseRecOn generalizing i with
  | nil =>
    obtain rfl : fs.root = i := some.inj hi
    exact .root
  | append_singleton cs c ih =>
    obtain ⟨p, n, hp, -, hn, hpar, rfl, hne⟩ := h.nodeAt_concat hi
    exact .step hn hpar hne (ih hp)

theorem Rooted.pathForInode_eq (h : Rooted fs) (hi : fs.nodeAt cs = some i) :
    fs.pathForInode i = some (absolute cs) := (h.linked.up hi).pathForInode_eq

end

/-! ## Resolving -/

/-- The components of a path, followed one by one. -/
theorem foldlM_resolveStep (fs : TmpFs) {cs : List Str} (hcs : ∀ c ∈ cs, IsName c) (i : Nat) :
    (cs.foldlM fs.resolveStep i).toOption = walk fs.lookupChildByName i cs := by
  induction cs generalizing i with
  | nil => rfl
  | cons c cs ih =>
    obtain ⟨-, hdot, hdots⟩ := hcs c mem_cons_self
    have hstep : (fs.resolveStep i c).toOption = fs.lookupChildByName i c := by
      rw [resolveStep, if_neg hdot, if_neg hdots]
      cases fs.lookupChildByName i c <;> rfl
    rw [foldlM_cons, walk_cons, ← hstep]
    cases fs.resolveStep i c with
    | error e => rfl
    | ok j => exact ih (fun b hb => hcs b (mem_cons_of_mem _ hb)) j

section

variable {fs : TmpFs} {cwd : List Str} (hcwd : fs.nodeAt cwd = some fs.cwd) {path : Str}

include hcwd

/-- **`resolve` follows the absolute path.** -/
theorem resolve_plain (hplain : Plain path) :
    (fs.resolve path).toOption = fs.nodeAt (absComps cwd path) := by
  unfold resolve resolveFrom absComps
  by_cases hroot : path = ['/']
  · subst hroot; rfl
  rw [if_neg hroot]
  simp only [pathParts]
  rw [foldlM_resolveStep fs hplain.isName]
  by_cases habs : path.head? = some '/'
  · rw [if_pos habs, if_pos habs]; rfl
  · rw [if_neg habs, if_neg habs, nodeAt, walk_append]
    rw [nodeAt] at hcwd
    rw [hcwd, bind_some]

/-- **`resolve_parent_and_name` follows all but the last component.** -/
theorem resolveParentAndName_plain (hplain : Plain path) {cs : List Str} {c : Str}
    (hcs : components path = cs ++ [c]) :
    (fs.resolveParentAndName path).toOption =
      (fs.nodeAt ((if path.head? = some '/' then [] else cwd) ++ cs)).map fun p => (p, c) := by
  have hnames := hplain.isName
  rw [hcs] at hnames
  have hc : IsName c := hnames c (mem_append_right _ (mem_singleton_self c))
  have hparts : ∀ b ∈ cs, IsName b := fun b hb => hnames b (mem_append_left _ hb)
  have hcomp : ∀ b ∈ cs, IsComp b := fun b hb => (hparts b hb).1
  -- a string with the components before the last one, absolute like the path, resolves to the parent
  have hparent : ∀ parent, components parent = cs →
      (parent.head? = some '/' ↔ path.head? = some '/') →
      (fs.resolve parent).toOption =
        fs.nodeAt ((if path.head? = some '/' then [] else cwd) ++ cs) := by
    intro parent hpar hhead
    have hpl : Plain parent := by
      unfold Plain
      rw [hpar]
      exact ⟨fun hm => (hparts _ hm).2.1 rfl, fun hm => (hparts _ hm).2.2 rfl⟩
    rw [resolve_plain hcwd hpl, absComps, hpar]
    simp only [hhead]
  unfold resolveParentAndName
  simp only [pathParts, hcs, getLast?_concat, dropLast_concat]
  rw [if_neg (not_or.mpr ⟨hc.2.1, hc.2.2⟩)]
  by_cases hempty : parentPath path cs = []
  · obtain ⟨habs, rfl⟩ := parentPath_eq_nil hcomp hempty
    rw [if_pos hempty, if_neg habs, append_nil, hcwd]
    rfl
  · rw [if_neg hempty, ← hparent _ (components_parentPath hcomp) (head?_parentPath hcomp hempty)]
    cases fs.resolve (parentPath path cs) <;> rfl

omit hcwd in
/-- Without a last component there is no parent. -/
theorem resolveParentAndName_nil (hnil : components path = []) :
    (fs.resolveParentAndName path).toOption = none := by
  unfold resolveParentAndName
  simp only [pathParts, hnil]
  rfl

/-! ## Normalizing -/

/-- The components that `normalized_path` starts from. -/
theorem cwdPath_components (h : Rooted fs) : fs.cwdPath.map components = some cwd := by
  rw [cwdPath, h.pathForInode_eq hcwd, map_some,
    components_absolute fun c hc => (h.nodeAt_isName hcwd c hc).1]

omit hcwd in
/-- The string that `normalized_path` ends with. -/
theorem normalized_string (parts : List Str) :
    (if parts = [] then ['/'] else '/' :: join parts) = absolute parts := by
  split
  · rename_i hnil; rw [hnil]; rfl
  · rfl

/-- **`normalized_path` is the absolute path.** -/
theorem normalizedPath_plain (h : Rooted fs) (hplain : Plain path) :
    fs.normalizedPath path = some (absolute (absComps cwd path)) := by
  unfold normalizedPath absComps
  simp only [pathParts, bind_eq_bind, resolveDots_names hplain.isName, normalized_string]
  by_cases hslash : path.head? = some '/'
  · rw [if_pos hslash, if_pos hslash, bind_some]
  · rw [if_neg hslash, if_neg hslash, cwdPath_components hcwd h, bind_some]

/-- `.` is the working directory. -/
theorem normalizedPath_dot (h : Rooted fs) : fs.normalizedPath ['.'] = some (absolute cwd) := by
  unfold normalizedPath
  simp only [normalized_string]
  rw [cwdPath_components hcwd h]
  rfl

end

end Saios.Vfs
