/-
  THE PATH OF A RESOLVED NODE IS THE NORMALIZED PATH.

  `normalized_path` works on strings: it starts from the path of the working directory and pops a component
  for every `..`.  `resolve` works on the table: it looks names up in child lists and follows parent links.
  `path_for_inode` climbs the parent links and does not return from a cycle.

  1. **`Grounded`** — a node whose way up to the root consists of directories that list the node below.
     Whatever a path leads to from a grounded working directory is grounded (`Standing.resolve_grounded`).

  2. **`Climbs`** — the climb from a slot ends: at the root, or at a slot that has been emptied.

  3. **Moves** — a rename keeps both if the moved node does not end up below itself.  For a directory that
     is what `DirsMovable` asks.  For a FILE the only way to go wrong is to become its own parent: nothing
     below a file can be named, so no other target lies below it (`Grounded.not_below_leaf`).  The code
     does not exclude that one (`file_below_itself`).

  **`path_of_resolved`**: in every run with sane moves `path_for_inode` returns for every live node, and for
  what a string resolves to it returns the normalized string.
-/
import Saios.Vfs.OpenFiles

namespace Saios.Vfs

open Path TmpFs List Option

/-! ## Nodes with a way down and a way up -/

/-- The parents of the node are directories that list it, all the way to the root. -/
inductive Grounded (fs : TmpFs) : Nat → Prop
  | root : Grounded fs fs.root
  | step {i p : Nat} {n d : Node} (hn : fs.get? i = some n) (hpar : n.parent = some p) (hi : i ≠ fs.root)
      (hd : fs.get? p = some d) (hdir : d.kind = .directory) (hc : i ∈ d.children) (h : Grounded fs p) :
      Grounded fs i

/-- The climb from the slot ends. -/
inductive Climbs (fs : TmpFs) : Nat → Prop
  | root : Climbs fs fs.root
  | empty {i : Nat} (h : fs.get? i = none) : Climbs fs i
  | step {i p : Nat} {n : Node} (hn : fs.get? i = some n) (hi : i ≠ fs.root) (hpar : n.parent = some p)
      (h : Climbs fs p) : Climbs fs i

variable {fs : TmpFs} {i : Nat}

theorem Grounded.up (h : Grounded fs i) : ∃ cs, Up fs i cs := by
  induction h with
  | root => exact ⟨[], .root⟩
  | step hn hpar hi _ _ _ _ ih =>
    obtain ⟨cs, hcs⟩ := ih
    exact ⟨_, .step hn hpar hi hcs⟩

theorem Grounded.live (hroot : ∃ r, fs.get? fs.root = some r) (h : Grounded fs i) :
    ∃ n, fs.get? i = some n := by
  cases h with
  | root => exact hroot
  | step hn => exact ⟨_, hn⟩

theorem Climbs.ends (h : Climbs fs i) : ∃ l, fs.Ends i l := by
  induction h with
  | root => exact ⟨[], .stop (Or.inr rfl)⟩
  | empty h => exact ⟨[], .stop (Or.inl h)⟩
  | @step i p n hn hi hpar h ih =>
    obtain ⟨l, hl⟩ := ih
    have hget : n.parent.getD fs.root = p := by rw [hpar]; rfl
    by_cases hroot : p = fs.root
    · exact ⟨[i], .last hn hi (hget.trans hroot)⟩
    · exact ⟨i :: l, .next hn hi (by rw [hget]; exact hroot) (by rw [hget]; exact hl)⟩

/-- **`path_for_inode` returns.** -/
theorem Climbs.pathForInode (h : Climbs fs i) : ∃ path, fs.pathForInode i = some path := by
  obtain ⟨l, hl⟩ := h.ends
  unfold TmpFs.pathForInode
  split
  · exact ⟨_, rfl⟩
  · obtain ⟨out, hout⟩ := hl.pathLoop (Nat.lt_succ_of_le hl.length_le) []
    exact ⟨_, by rw [hout]; rfl⟩

/-! ## What is kept in a run -/

structure Standing (fs : TmpFs) : Prop where
  linked : Linked fs
  bounded : Bounded fs
  cwd : Grounded fs fs.cwd
  rootDir : ∃ n, fs.get? fs.root = some n ∧ n.kind = .directory
  cwdDir : ∃ n, fs.get? fs.cwd = some n ∧ n.kind = .directory
  climbs : ∀ i, Climbs fs i

variable {n : Node}

section resolving

variable {fs : TmpFs} (h : Linked fs)

include h

theorem Linked.grounded_up {p : Nat} (hi : Grounded fs i) (hn : fs.get? i = some n) (hp : n.parent = some p) :
    Grounded fs p := by
  cases hi with
  | root => exact absurd rfl (h.ne_root hn hp)
  | step hn' hpar _ _ _ _ hq =>
    obtain rfl := mem_unique hn hn'
    obtain rfl := mem_unique hp hpar
    exact hq

theorem Linked.grounded_down {c : Nat} {name : Str} (hi : Grounded fs i)
    (hl : fs.lookupChildByName i name = some c) : Grounded fs c := by
  obtain ⟨d, n, hd, hdir, hc, hn, -⟩ := lookup_some hl
  have hpar := h.links hd hc hn
  exact .step hn hpar (h.ne_root hn hpar) hd hdir hc hi

end resolving

variable {path : Str}

section standing

variable {fs : TmpFs} (h : Standing fs)

include h

/-- What a path leads to is grounded. -/
theorem Standing.resolve_grounded (hr : fs.resolve path = .ok i) : Grounded fs i :=
  resolve_inv .root h.cwd h.linked.grounded_up h.linked.grounded_down hr

theorem Standing.parent_grounded {name : Str} {q : Nat} (hr : fs.resolveParentAndName path = .ok (q, name)) :
    Grounded fs q ∧ IsName name :=
  resolveParentAndName_inv .root h.cwd h.linked.grounded_up h.linked.grounded_down hr

/-- **The path of what a string resolves to is its normalized form.** -/
theorem Standing.path_eq (hr : fs.resolve path = .ok i) :
    ∃ abs, fs.pathForInode i = some abs ∧ fs.normalizedPath path = some abs := by
  obtain ⟨cs, hcs⟩ := (h.resolve_grounded hr).up
  obtain ⟨abs, habs⟩ : ∃ abs, fs.normalizedPath path = some abs := by
    obtain ⟨cwd, hcwd⟩ := (h.climbs fs.cwd).pathForInode
    unfold normalizedPath cwdPath
    rw [hcwd]
    split
    · exact ⟨_, rfl⟩
    · exact ⟨_, rfl⟩
  rw [resolve_eq] at hr
  have hpos : abs = absolute (resolveDots cs []) :=
    h.linked.position habs (append_nil _).symm hr hcs
  exact ⟨abs, by rw [hcs.pathForInode_eq, hpos]; rfl, habs⟩

end standing

/-! ## Nodes that are not below another -/

variable {j : Nat}

/-- Nothing grounded lies below a leaf: a file, or an empty directory. -/
theorem Grounded.not_below_leaf (hlinked : Linked fs) (hn : fs.get? i = some n)
    (hleaf : ¬(n.kind = .directory ∧ n.children ≠ [])) (h : Grounded fs j) (hne : j ≠ i) : ¬Below fs i j := by
  induction h with
  | root =>
    intro hb
    generalize hr : fs.root = r at hb hne
    cases hb with
    | refl => exact hne rfl
    | step hm hp _ => exact hlinked.ne_root hm hp hr.symm
  | @step j p m d hm hpar _ hd hdir hc _ ih =>
    intro hb
    cases hb with
    | refl => exact hne rfl
    | step hm' hpar' hb =>
      obtain rfl := mem_unique hm hm'
      obtain rfl := mem_unique hpar hpar'
      refine ih ?_ hb
      rintro rfl
      obtain rfl := mem_unique hn hd
      exact hleaf ⟨hdir, ne_nil_of_mem hc⟩

/-- Nor below a slot that is not given out. -/
theorem Grounded.not_below_empty (hlinked : Linked fs) (hi : fs.get? i = none) (h : Grounded fs j) :
    ¬Below fs i j := by
  have hdead : ∀ {k n}, fs.get? k = some n → k ≠ i := by
    rintro k n hn rfl
    rw [hi] at hn; cases hn
  obtain ⟨r, hr, -⟩ := hlinked.root
  induction h with
  | root =>
    intro hb
    generalize hroot : fs.root = t at hb
    cases hb with
    | refl => exact hdead hr hroot
    | step hm hp _ => exact hlinked.ne_root hm hp hroot.symm
  | step hm hpar _ _ _ _ _ ih =>
    intro hb
    cases hb with
    | refl => exact hdead hm rfl
    | step hm' hpar' hb =>
      obtain rfl := mem_unique hm hm'
      obtain rfl := mem_unique hpar hpar'
      exact ih hb

/-! ## Changes -/

/-- Every node but `i` keeps its parent, its kind and its other children. -/
structure Spares (fs fs' : TmpFs) (i : Nat) : Prop where
  root : fs'.root = fs.root
  node : ∀ {j : Nat} {n : Node}, fs.get? j = some n → j ≠ i → ∃ n', fs'.get? j = some n' ∧
    n'.parent = n.parent ∧ n'.kind = n.kind ∧ ∀ c ∈ n.children, c ≠ i → c ∈ n'.children

variable {fs' : TmpFs}

theorem Grounded.spared (hs : Spares fs fs' i) (h : Grounded fs j) (hno : ¬Below fs i j) :
    Grounded fs' j := by
  induction h with
  | root => exact hs.root ▸ .root
  | @step j p n d hn hpar hj hd hdir hc _ ih =>
    have hji : j ≠ i := fun heq => hno (heq ▸ .refl)
    have hup : ¬Below fs i p := fun hb => hno (.step hn hpar hb)
    have hpi : p ≠ i := fun heq => hup (heq ▸ .refl)
    obtain ⟨n', hn', hpar', -⟩ := hs.node hn hji
    obtain ⟨d', hd', -, hkind, hsub⟩ := hs.node hd hpi
    exact .step hn' (hpar'.trans hpar) (hs.root ▸ hj) hd' (hkind.trans hdir) (hsub j hc hji) (ih hup)

/-- A slot that is emptied ends the climbs that met it. -/
theorem Climbs.spared (hs : Spares fs fs' i) (hempty : ∀ k, fs.get? k = none → fs'.get? k = none)
    (h : Climbs fs j) (hi : ¬Below fs i j ∨ fs'.get? i = none) : Climbs fs' j := by
  induction h with
  | root => exact hs.root ▸ .root
  | empty hj => exact .empty (hempty _ hj)
  | @step j p n hn hj hpar _ ih =>
    by_cases hji : j = i
    · exact .empty (hji ▸ hi.resolve_left fun hno => hno (hji ▸ .refl))
    · obtain ⟨n', hn', hpar', -⟩ := hs.node hn hji
      exact .step hn' (hs.root ▸ hj) (hpar'.trans hpar) (ih (hi.imp_left fun hno hb => hno (.step hn hpar hb)))

/-- Below slots that have been given out a grown table has the same parents. -/
theorem Climbs.grown (hb : Bounded fs) (hg : Grown fs fs') (h : Climbs fs j) (hj : j ≤ fs.nodes.length) :
    Climbs fs' j := by
  induction h with
  | root => exact hg.root ▸ .root
  | empty hnone =>
    have hup := hg.up _ hj
    rw [hnone, map_none, map_eq_none_iff] at hup
    exact .empty hup
  | @step j p n hn hne hpar _ ih =>
    have hup := hg.up _ hj
    rw [hn] at hup
    obtain ⟨n', hn', hsame⟩ := map_eq_some_iff.mp hup
    have hpar' : n'.parent = n.parent := congrArg Prod.snd hsame
    exact .step hn' (hg.root ▸ hne) (hpar'.trans hpar) (ih (hb.parent hn hpar))

/-! ## A node moved -/

/-- `i` becomes a child of `q`. -/
structure Relinks (fs fs' : TmpFs) (i q : Nat) : Prop where
  root : fs'.root = fs.root
  node : ∀ {j : Nat} {n : Node}, fs.get? j = some n → ∃ n', fs'.get? j = some n' ∧
    n'.parent = (if j = i then some q else n.parent) ∧ n'.kind = n.kind ∧
    (∀ c ∈ n.children, c ≠ i → c ∈ n'.children) ∧ (j = q → i ∈ n'.children)
  empty : ∀ k, fs.get? k = none → fs'.get? k = none

theorem relinks_relink {p q : Nat} {d m k : Node} (hslots : fs.Slots i p q d m k) (name : Str) :
    Relinks fs (fs.relink i p q d m k name) i q where
  root := rfl
  node := by
    intro j n hn
    refine ⟨moveNode i p q name j n, by rw [get?_relink hslots, hn]; rfl, rfl, rfl, ?_, ?_⟩
    · intro c hc hci
      refine mem_append_left _ ?_
      split
      · exact mem_filter.mpr ⟨hc, decide_eq_true hci⟩
      · exact hc
    · intro hjq
      rw [children_moveNode, if_pos hjq]
      exact mem_append_right _ (mem_singleton_self i)
  empty := by
    intro j hj
    rw [get?_relink hslots, hj]; rfl

section relinked

variable {fs fs' : TmpFs} {i q : Nat} (hr : Relinks fs fs' i q)

include hr

theorem Relinks.spares : Spares fs fs' i where
  root := hr.root
  node hn hj := by
    obtain ⟨n', hn', hpar, hkind, hsub, -⟩ := hr.node hn
    exact ⟨n', hn', by rw [hpar, if_neg hj], hkind, hsub⟩

/-- A node moved to a grounded directory, with everything below it. -/
theorem Relinks.grounded {e : Node} (hq : fs.get? q = some e) (hdir : e.kind = .directory)
    (hground : Grounded fs' q) (h : Grounded fs j) : Grounded fs' j := by
  induction h with
  | root => exact hr.root ▸ .root
  | @step j p m d hm hpar hj hd hd' hc _ ih =>
    obtain ⟨m', hm', hparent, -⟩ := hr.node hm
    by_cases hji : j = i
    · obtain ⟨e', he', -, hkind, -, hmem⟩ := hr.node hq
      rw [if_pos hji] at hparent
      exact .step hm' hparent (hr.root ▸ hj) he' (hkind.trans hdir) (hji ▸ hmem rfl) hground
    · obtain ⟨d', hd'', -, hkind, hsub, -⟩ := hr.node hd
      rw [if_neg hji] at hparent
      exact .step hm' (hparent.trans hpar) (hr.root ▸ hj) hd'' (hkind.trans hd') (hsub j hc hji) ih

theorem Relinks.climbs (hq : Climbs fs' q) (h : Climbs fs j) : Climbs fs' j := by
  induction h with
  | root => exact hr.root ▸ .root
  | empty hj => exact .empty (hr.empty _ hj)
  | @step j p n hn hj hpar _ ih =>
    obtain ⟨n', hn', hparent, -⟩ := hr.node hn
    by_cases hji : j = i
    · rw [if_pos hji] at hparent
      exact .step hn' (hr.root ▸ hj) hparent hq
    · rw [if_neg hji] at hparent
      exact .step hn' (hr.root ▸ hj) (hparent.trans hpar) ih

end relinked

/-! ## The operations keep it -/

theorem Standing.cwd_outside (h : Standing fs) (hn : fs.get? i = some n) (hfile : n.kind ≠ .directory) :
    ¬Below fs i fs.cwd := by
  refine h.cwd.not_below_leaf h.linked hn (fun hd => hfile hd.1) ?_
  rintro rfl
  obtain ⟨d, hd, hdir⟩ := h.cwdDir
  obtain rfl := mem_unique hn hd
  exact hfile hdir

/-- A directory that is spared is one afterwards. -/
theorem Spares.dir (hs : Spares fs fs' i) (hj : j ≠ i) (h : ∃ n, fs.get? j = some n ∧ n.kind = .directory) :
    ∃ n, fs'.get? j = some n ∧ n.kind = .directory := by
  obtain ⟨n, hn, hdir⟩ := h
  obtain ⟨n', hn', -, hkind, -⟩ := hs.node hn hj
  exact ⟨n', hn', hkind.trans hdir⟩

section operations

variable {fs : TmpFs} (h : Standing fs)

include h

/-- A table that grows keeps its working directory. -/
theorem Standing.grow (hg : Grown fs fs') (hs : Spares fs fs' fs.nextInode) (hlinked : Linked fs')
    (hbounded : Bounded fs') (hnew : ∀ i, fs.nodes.length < i → Climbs fs' i) : Standing fs' where
  linked := hlinked
  bounded := hbounded
  cwd := hg.cwd ▸ h.cwd.spared hs (h.cwd.not_below_empty h.linked get?_nextInode)
  rootDir := by
    obtain ⟨r, hr, -⟩ := h.rootDir
    exact hg.root ▸ hs.dir (ne_nextInode hr) h.rootDir
  cwdDir := by
    obtain ⟨d, hd, -⟩ := h.cwdDir
    exact hg.cwd ▸ hs.dir (ne_nextInode hd) h.cwdDir
  climbs i := by
    by_cases hi : i ≤ fs.nodes.length
    · exact (h.climbs i).grown h.bounded hg hi
    · exact hnew i (Nat.lt_of_not_le hi)

theorem Standing.createAs (path : Str) (kind : FileType) : Standing (fs.createAs path kind).2 := by
  rcases createAs_cases fs path kind with ⟨e, he⟩ | ⟨p, name, d, hr, hd, hk, hl, hc⟩
  · rw [he]; exact h
  rw [hc]
  have hview := get?_attach hd name kind
  have hg : Grown fs (fs.attach p d name kind) := grown_attach hd name kind
  refine h.grow hg ⟨rfl, ?_⟩ (h.linked.attach hd hk kind hl (h.parent_grounded hr).2)
    (h.bounded.attach hd name kind) ?_
  · intro j n hn _
    obtain ⟨n', hn', hpar, -, hkind, hchildren⟩ := attach_old hd name kind hn
    exact ⟨n', hn', hpar, hkind, fun c hc _ => hchildren ▸ mem_attached.mpr (.inl hc)⟩
  · -- the new node climbs to its parent, and nothing is behind it
    intro i hi
    have hp : p ≤ fs.nodes.length := (index_of_get? hd).2
    by_cases hnew : i = fs.nextInode
    · refine .step (n := newNode fs.nextInode p name kind) ?_ ?_ rfl ((h.climbs p).grown h.bounded hg hp)
      · rw [hview, if_neg (Nat.ne_of_gt (Nat.lt_of_le_of_lt hp hi)), if_pos hnew]
      · exact Nat.ne_of_gt (Nat.lt_of_le_of_lt h.bounded.root hi)
    · refine .empty ?_
      rw [hview, if_neg (Nat.ne_of_gt (Nat.lt_of_le_of_lt hp hi)), if_neg hnew]
      cases hn : fs.get? i with
      | none => rfl
      | some n => exact absurd (index_of_get? hn).2 (Nat.not_le_of_gt hi)

theorem Standing.setData (hn : fs.get? i = some n) (data : List UInt8) : Standing (fs.setData i n data) := by
  refine h.grow (grown_setData hn data) ⟨rfl, ?_⟩ (h.linked.setData hn data) (h.bounded.setData hn data) ?_
  · intro j m hm _
    rw [get?_setData hn, hm]
    exact ⟨_, rfl, rfl, rfl, fun c hc _ => hc⟩
  · intro j hj
    refine .empty ?_
    rw [get?_setData hn]
    cases hm : fs.get? j with
    | none => rfl
    | some m => exact absurd (index_of_get? hm).2 (Nat.not_le_of_gt hj)

theorem Standing.remove (path : Str) : Standing (fs.remove path).2 := by
  have hbounded := h.bounded.remove path
  unfold TmpFs.remove at hbounded ⊢
  split
  · exact h
  rename_i i hres
  rw [hres] at hbounded
  simp only at hbounded
  rcases removeInode_cases fs i with ⟨e, he⟩ | ⟨n, hi, hn, hleaf, ⟨hpar, -⟩ | ⟨p, d, -, hd, hr⟩⟩
  · rw [he]; exact h
  · obtain ⟨p, hp⟩ := h.linked.parent hn hi
    rw [hpar] at hp; cases hp
  rw [hr] at hbounded ⊢
  have hs : Spares fs (fs.detach i p d) i := by
    refine ⟨rfl, fun {j m} hm hj => ?_⟩
    rw [get?_detach hn hd, if_neg hj, get?_unlinked hd, hm]
    refine ⟨_, rfl, rfl, rfl, fun c hc hci => ?_⟩
    split
    · exact mem_filter.mpr ⟨hc, decide_eq_true hci⟩
    · exact hc
  have hcwd : (fs.detach i p d).cwd = if fs.cwd = i then fs.root else fs.cwd := rfl
  have hroot := hs.dir (Ne.symm hi) h.rootDir
  refine ⟨h.linked.detach hi hn hd, hbounded, ?_, hroot, ?_, fun j => ?_⟩
  · rw [hcwd]
    split
    · exact .root
    · rename_i hne
      exact h.cwd.spared hs (h.cwd.not_below_leaf h.linked hn hleaf hne)
  · rw [hcwd]
    split
    · exact hroot
    · rename_i hne
      exact hs.dir hne h.cwdDir
  · refine (h.climbs j).spared hs (fun k hk => ?_) (.inr (by rw [get?_detach hn hd, if_pos rfl]))
    rw [get?_detach hn hd, get?_unlinked hd, hk]
    split <;> rfl

/-- **A move keeps it** if the node does not end up below itself, and a directory not below a file. -/
theorem Standing.relink {p q : Nat} {d m k : Node} {name : Str} (hi : i ≠ fs.root) (hn : fs.get? i = some n)
    (hpar : n.parent = some p) (hslots : fs.Slots i p q d m k)
    (hl : fs.lookupChildByName q name = none) (hname : IsName name) (hq : Grounded fs q)
    (hdirs : n.kind = .directory → Movable fs i q) (hfiles : n.kind ≠ .directory → q ≠ i)
    (hbounded : Bounded (fs.relink i p q d m k name)) : Standing (fs.relink i p q d m k name) := by
  have hr := relinks_relink hslots name
  have hdir : ∀ {j}, (∃ n, fs.get? j = some n ∧ n.kind = .directory) →
      ∃ n, (fs.relink i p q d m k name).get? j = some n ∧ n.kind = .directory := by
    rintro j ⟨e, he, hek⟩
    obtain ⟨e', he', -, hkind, -⟩ := hr.node he
    exact ⟨e', he', hkind.trans hek⟩
  have hout : ¬Below fs i q := by
    by_cases hkind : n.kind = .directory
    · exact (hdirs hkind).outside
    · exact hq.not_below_leaf h.linked hn (fun hd => hkind hd.1) (hfiles hkind)
  refine ⟨h.linked.relink hn hpar hslots hi hl hname, hbounded, ?_, hdir h.rootDir, hdir h.cwdDir,
    fun j => hr.climbs ((h.climbs q).spared hr.spares hr.empty (.inl hout)) (h.climbs j)⟩
  by_cases hkind : n.kind = .directory
  · obtain ⟨e, he, hek⟩ := (hdirs hkind).dir
    exact hr.grounded he hek (hq.spared hr.spares hout) h.cwd
  · exact h.cwd.spared hr.spares (h.cwd_outside hn hkind)

end operations

/-! ## Calls and runs -/

/-- The call gets as far as moving the node `n` in slot `i` under `q`. -/
structure Moves (w : World) (source target : Str) (i q : Nat) (n : Node) : Prop where
  onSource : OnTmpfs w source
  onTarget : OnTmpfs w target
  resolved : w.vfs.fs.resolve source = .ok i
  notRoot : i ≠ w.vfs.fs.root
  free : ∃ name, w.vfs.fs.resolveParentAndName target = .ok (q, name) ∧ w.vfs.fs.lookupChildByName q name = none
  node : w.vfs.fs.get? i = some n

/-- No directory goes into its own subtree or below a file. -/
def DirsMovable (w : Option World) : Call → Prop
  | .rename source target =>
      ∀ v i q n, w = some v → Moves v source target i q n → n.kind = .directory → Movable v.vfs.fs i q
  | _ => True

/-- No file becomes its own parent. -/
def FilesMovable (w : Option World) : Call → Prop
  | .rename source target =>
      ∀ v i q n, w = some v → Moves v source target i q n → n.kind ≠ .directory → q ≠ i
  | _ => True

theorem edited_standing : Edited Standing where
  createAs kind h _ _ := h.createAs _ kind
  setData data h hn _ := h.setData hn data
  remove h _ _ := h.remove _

section calls

variable {w : World} (h : Standing w.vfs.fs)

include h

theorem Standing.renamePath {source target : Str} (hdirs : DirsMovable (some w) (.rename source target))
    (hfiles : FilesMovable (some w) (.rename source target)) (hsource : OnTmpfs w source)
    (htarget : OnTmpfs w target) : Standing (w.vfs.fs.renamePath source target).2 := by
  have hbounded := h.bounded.renamePath source target
  rcases renamePath_outcome w.vfs.fs source target with ⟨e, he⟩ |
    ⟨i, q, name, n, p, d, hi, hroot, hparent, hfree, hn, hpar, hd, ⟨hdead, -⟩ | ⟨m, k, hslots, he⟩⟩
  · rw [he]; exact h
  · -- what a path leads to is alive
    obtain ⟨r, hr, -⟩ := h.rootDir
    obtain ⟨e, he⟩ := (h.parent_grounded hparent).1.live ⟨r, hr⟩
    rw [hdead] at he; cases he
  · rw [he] at hbounded ⊢
    have hmoves : Moves w source target i q n := ⟨hsource, htarget, hi, hroot, ⟨name, hparent, hfree⟩, hn⟩
    obtain ⟨hq, hname⟩ := h.parent_grounded hparent
    exact h.relink hroot hn hpar hslots hfree hname hq (hdirs w i q n rfl hmoves)
      (hfiles w i q n rfl hmoves) hbounded

theorem Standing.changeDir (hi : w.vfs.fs.resolve path = .ok i) (hn : w.vfs.fs.get? i = some n)
    (hk : n.kind = .directory) : Standing { w.vfs.fs with cwd := i } := by
  have hground := h.resolve_grounded hi
  -- none of the links reads the working directory
  have hup : ∀ {j}, Grounded w.vfs.fs j → Grounded { w.vfs.fs with cwd := i } j := by
    intro j hj
    induction hj with
    | root => exact .root
    | step hn hpar hi hd hdir hc _ ih => exact .step hn hpar hi hd hdir hc ih
  have hclimb : ∀ {j}, Climbs w.vfs.fs j → Climbs { w.vfs.fs with cwd := i } j := by
    intro j hj
    induction hj with
    | root => exact .root
    | empty hj => exact .empty hj
    | step hn hi hpar _ ih => exact .step hn hi hpar ih
  exact
    { linked := ⟨h.linked.root, h.linked.parent, h.linked.named, h.linked.links, h.linked.bound, h.linked.siblings⟩
      bounded := ⟨h.bounded.root, (index_of_get? hn).2, h.bounded.parent⟩
      cwd := hup hground
      rootDir := h.rootDir
      cwdDir := ⟨n, hn, hk⟩
      climbs := fun j => hclimb (h.climbs j) }

theorem Standing.exec {call : Call} (hdirs : DirsMovable (some w) call) (hfiles : FilesMovable (some w) call)
    {r : Reply × World} (hr : exec w call = some r) : Standing r.2.vfs.fs := by
  refine edited_standing.kept.exec h ?_ ?_ hr
  · rintro source target rfl hsource htarget
    exact h.renamePath hdirs hfiles hsource htarget
  · rintro path i n rfl hi hn hk
    exact h.changeDir hi hn hk

end calls

theorem Rooted.standing (h : Rooted fs) : Standing fs := by
  obtain ⟨r, hr, hrdir, -⟩ := h.root
  have hup : ∀ {j}, Below fs fs.root j → Grounded fs j ∧ Climbs fs j := by
    intro j hj
    induction hj with
    | refl => exact ⟨.root, .root⟩
    | step hn hp _ ih =>
      have hne := h.ne_root_of_parent hn hp
      obtain ⟨p', d, hp', hd, hdir, hc⟩ := h.listed _ _ hn hne
      obtain rfl := mem_unique hp hp'
      exact ⟨.step hn hp hne hd hdir hc ih.1, .step hn hne hp ih.2⟩
  obtain ⟨d, hd, hdir⟩ := h.cwd
  refine ⟨h.linked, h.bounded, (hup (h.reach _ _ hd)).1, ⟨r, hr, hrdir⟩, ⟨d, hd, hdir⟩, fun i => ?_⟩
  cases hn : fs.get? i with
  | none => exact .empty hn
  | some n => exact (hup (h.reach i n hn)).2

/-- **Every live node has a path, and what a string resolves to has its normalized form as path**, after
    every run in which no directory is moved into its own subtree or below a file and no file becomes its
    own parent. -/
theorem path_of_resolved (storage : Storage.StorageState) (env : Env) (calls : List Call) (w : World)
    (hdirs : Run.Along step DirsMovable (some (boot storage env)) calls)
    (hfiles : Run.Along step FilesMovable (some (boot storage env)) calls)
    (hw : calls.foldl step (some (boot storage env)) = some w) :
    (∀ i n, w.vfs.fs.get? i = some n → ∃ path, w.vfs.fs.pathForInode i = some path) ∧
      ∀ p i, w.vfs.fs.resolve p = .ok i →
        ∃ abs, w.vfs.fs.pathForInode i = some abs ∧ w.vfs.fs.normalizedPath p = some abs := by
  have h : Standing w.vfs.fs := run_kept (P := fun w => Standing w.vfs.fs) (w := boot storage env)
    (fun _ _ _ h hc hr => h.exec hc.1 hc.2 hr) rooted_seed.standing (hdirs.and hfiles) hw
  exact ⟨fun i _ _ => (h.climbs i).pathForInode, fun p i hr => h.path_eq hr⟩

/-- A new directory to work in, and a file that is moved there by a relative path. -/
def fetchHello : List Call := [.mkdir "/tmp/a".toList, .cd "/tmp/a".toList, .rename "/bin/hello".toList "h".toList]

/-- The file is node 21, the directory node 40; the file is then found through `..` as well. -/
theorem path_of_fetched : ∃ w, fetchHello.foldl step (some quiet) = some w ∧
    w.vfs.fs.pathForInode 21 = some "/tmp/a/h".toList ∧
    ∃ abs, w.vfs.fs.pathForInode 21 = some abs ∧ w.vfs.fs.normalizedPath "../a//./h".toList = some abs := by
  have hbefore : ([Call.mkdir "/tmp/a".toList, .cd "/tmp/a".toList].foldl step (some quiet)).map (fun w =>
      decide ((w.vfs.fs.resolve "/bin/hello".toList).toOption = some 21 ∧
        (w.vfs.fs.resolveParentAndName "h".toList).toOption.map Prod.fst = some 40 ∧
        (w.vfs.fs.get? 21).map (fun n => n.kind) = some .file)) = some true := by
    rw [quiet_eq]; decide
  obtain ⟨w₁, hw₁, hbefore⟩ := Option.map_eq_some_iff.mp hbefore
  obtain ⟨hsource, htarget, hkind⟩ := of_decide_eq_true hbefore
  have hafter : (fetchHello.foldl step (some quiet)).map (fun w =>
      decide ((w.vfs.fs.resolve "../a//./h".toList).toOption = some 21 ∧
        w.vfs.fs.pathForInode 21 = some "/tmp/a/h".toList)) = some true := by
    rw [quiet_eq]; decide
  obtain ⟨w, hw, hafter⟩ := Option.map_eq_some_iff.mp hafter
  obtain ⟨hres, hpath⟩ := of_decide_eq_true hafter
  have hmoved : ∀ {v i q n}, step (step (some quiet) (.mkdir "/tmp/a".toList)) (.cd "/tmp/a".toList) = some v →
      Moves v "/bin/hello".toList "h".toList i q n → n.kind = .file ∧ q ≠ i := by
    intro v i q n hv hmoves
    obtain rfl : w₁ = v := Option.mem_unique hw₁ hv
    obtain ⟨name, hparent, -⟩ := hmoves.free
    rw [hmoves.resolved] at hsource
    rw [hparent] at htarget
    obtain rfl : i = 21 := Option.some.inj hsource
    obtain rfl : q = 40 := Option.some.inj htarget
    rw [hmoves.node] at hkind
    exact ⟨Option.some.inj hkind, by decide⟩
  have hdirs : Run.Along step DirsMovable (some quiet) fetchHello := by
    refine ⟨trivial, trivial, fun v i q n hv hmoves hdir => ?_, trivial⟩
    rw [(hmoved hv hmoves).1] at hdir
    cases hdir
  have hfiles : Run.Along step FilesMovable (some quiet) fetchHello :=
    ⟨trivial, trivial, fun v i q n hv hmoves _ => (hmoved hv hmoves).2, trivial⟩
  obtain ⟨-, hall⟩ := path_of_resolved _ _ fetchHello w hdirs hfiles hw
  refine ⟨w, hw, hpath, ?_⟩
  cases hr : w.vfs.fs.resolve "../a//./h".toList with
  | error e => rw [hr] at hres; cases hres
  | ok i =>
    rw [hr] at hres
    obtain rfl : i = 21 := Option.some.inj hres
    exact hall _ _ hr

/-- **A file moved below itself**: `/bin/hello` (node 21) becomes its own parent, and its path is never
    found, however long one climbs. -/
theorem file_below_itself :
    Run.Along step DirsMovable (some quiet) [.rename "/bin/hello".toList "/bin/hello/x".toList] ∧
    ∃ w n, [.rename "/bin/hello".toList "/bin/hello/x".toList].foldl step (some quiet) = some w ∧
      w.vfs.fs.get? 21 = some n ∧ w.vfs.fs.pathForInode 21 = none ∧
      ∀ fuel, w.vfs.fs.pathLoop fuel 21 [] = none := by
  have hfacts : (step (some quiet) (.rename "/bin/hello".toList "/bin/hello/x".toList)).map (fun w =>
      decide ((w.vfs.fs.get? 21).isSome = true ∧ w.vfs.fs.pathForInode 21 = none ∧
        w.vfs.fs.pathLoop (w.vfs.fs.nodes.length + 1) 21 [] = none)) = some true := by
    rw [quiet_eq]; decide
  obtain ⟨w, hw, hfacts⟩ := Option.map_eq_some_iff.mp hfacts
  obtain ⟨hlive, hpath, hloop⟩ := of_decide_eq_true hfacts
  obtain ⟨n, hn⟩ := Option.isSome_iff_exists.mp hlive
  refine ⟨⟨?_, trivial⟩, w, n, hw, hn, hpath, fun fuel => pathLoop_none hloop fuel⟩
  -- what is moved is a file
  rintro v i q n hv hmoves hdir
  obtain rfl := Option.some.inj hv
  have hfile : (quiet.vfs.fs.resolve "/bin/hello".toList).toOption.bind (fun i =>
      (quiet.vfs.fs.get? i).map (fun n => n.kind)) = some .file := by
    rw [quiet_eq]; decide
  rw [hmoves.resolved] at hfile
  replace hfile : (quiet.vfs.fs.get? i).map (fun n => n.kind) = some .file := hfile
  rw [hmoves.node, Option.map_some, hdir] at hfile
  cases hfile

end Saios.Vfs
