/-
  THE TMPFS IS A ROOTED TREE, after every run of VFS calls that renames nothing under a file or into
  its own subtree.

  1. **Invariant** (`Rooted`) — parent links and child lists agree: a live node other than the root is
     listed exactly once, by its parent, which is a live directory; siblings have different names;
     parents lead to the root; the working directory is a live directory.

  2. **Steps** — one lemma per change of the node table (`rooted_attach`, `rooted_detach`,
     `rooted_relink`, `rooted_setData`, `rooted_cd`).  Only `relink` needs a condition: the new parent
     must be a directory that is not the moved node and not below it.  `insert_node` checks for the
     first half of that; `rename_path` checks for NEITHER.

  3. **Calls** — the tree makes every climb end: `resolve` finds live nodes, `cwd_path` returns.
-/
import Saios.Lib.Run
import Saios.Vfs.Links
import Saios.Vfs.State

namespace Saios.Vfs

open Path TmpFs List Option

/-- `i` is `top` or lies below it. -/
inductive Below (fs : TmpFs) (top : Nat) : Nat → Prop
  | refl : Below fs top top
  | step {i p : Nat} {n : Node} (hn : fs.get? i = some n) (hp : n.parent = some p)
      (h : Below fs top p) : Below fs top i

/-- The node table is a tree with the root on top. -/
structure Rooted (fs : TmpFs) : Prop where
  root : ∃ r, fs.get? fs.root = some r ∧ r.kind = .directory ∧ r.parent = none
  /-- The parent of a live node is a live directory that lists it ... -/
  listed : ∀ i n, fs.get? i = some n → i ≠ fs.root →
    ∃ p d, n.parent = some p ∧ fs.get? p = some d ∧ d.kind = .directory ∧ i ∈ d.children
  /-- ... once ... -/
  nodup : ∀ p d, fs.get? p = some d → d.children.Nodup
  /-- ... and nothing else lists it: what a node lists is live and has it as its parent. -/
  lists : ∀ p d c, fs.get? p = some d → c ∈ d.children → ∃ n, fs.get? c = some n ∧ n.parent = some p
  /-- Siblings have different names. -/
  siblings : ∀ p d c n c' n', fs.get? p = some d → c ∈ d.children → fs.get? c = some n →
    c' ∈ d.children → fs.get? c' = some n' → n.name = n'.name → c = c'
  reach : ∀ i n, fs.get? i = some n → Below fs fs.root i
  cwd : ∃ d, fs.get? fs.cwd = some d ∧ d.kind = .directory
  /-- Below the root, names are proper path components. -/
  named : ∀ i n, fs.get? i = some n → i ≠ fs.root → IsName n.name

variable {fs : TmpFs}

theorem Rooted.linked (h : Rooted fs) : Linked fs := by
  obtain ⟨r, hr, -, hnone⟩ := h.root
  refine ⟨⟨r, hr, hnone⟩, ?_, fun hn hi => h.named _ _ hn hi, ?_, ?_,
    fun hd _ hc hn hc' hn' => h.siblings _ _ _ _ _ _ hd hc hn hc' hn'⟩
  · intro i n hn hi
    obtain ⟨p, d, hp, -⟩ := h.listed i n hn hi
    exact ⟨p, hp⟩
  · intro p c d n hd hc hn
    obtain ⟨n', hn', hp⟩ := h.lists p d c hd hc
    obtain rfl := mem_unique hn hn'
    exact hp
  · intro p c d hd hc
    obtain ⟨n, hn, -⟩ := h.lists p d c hd hc
    exact (index_of_get? hn).2

/-- **What a tree has more than links that agree**: parents are live directories that list their children, once,
    listed nodes are alive, and everything is below the root. -/
theorem Linked.rooted (h : Linked fs) (hdir : ∀ r, fs.get? fs.root = some r → r.kind = .directory)
    (hlisted : ∀ {i n p}, fs.get? i = some n → n.parent = some p →
      ∃ d, fs.get? p = some d ∧ d.kind = .directory ∧ i ∈ d.children)
    (hnodup : ∀ p d, fs.get? p = some d → d.children.Nodup)
    (hlive : ∀ {p d c}, fs.get? p = some d → c ∈ d.children → ∃ n, fs.get? c = some n)
    (hreach : ∀ i n, fs.get? i = some n → Below fs fs.root i)
    (hcwd : ∃ d, fs.get? fs.cwd = some d ∧ d.kind = .directory) : Rooted fs := by
  refine ⟨?_, fun i n hn hi => ?_, hnodup, fun p d c hd hc => ?_, fun p d c n c' n' hd hc hn hc' hn' heq => ?_, hreach,
    hcwd, fun i n hn hi => h.named hn hi⟩
  · obtain ⟨r, hr, hnone⟩ := h.root
    exact ⟨r, hr, hdir r hr, hnone⟩
  · obtain ⟨p, hp⟩ := h.parent hn hi
    obtain ⟨d, hd, hk, hmem⟩ := hlisted hn hp
    exact ⟨p, d, hp, hd, hk, hmem⟩
  · obtain ⟨n, hn⟩ := hlive hd hc
    exact ⟨n, hn, h.links hd hc hn⟩
  · obtain ⟨d', hd', hk, -⟩ := hlisted hn (h.links hd hc hn)
    obtain rfl := mem_unique hd hd'
    exact h.siblings hd hk hc hn hc' hn' heq

variable {name : Str}

namespace Rooted

variable {fs : TmpFs} {i p q c : Nat} {n d m : Node}

/-! ## Consequences -/

section

variable (h : Rooted fs)

include h

/-- The root is nobody's child. -/
theorem ne_root_of_parent (hn : fs.get? i = some n) (hp : n.parent = some p) :
    i ≠ fs.root := h.linked.ne_root hn hp

theorem parent_dir (hn : fs.get? i = some n) (hp : n.parent = some p) :
    ∃ d, fs.get? p = some d ∧ d.kind = .directory ∧ i ∈ d.children := by
  obtain ⟨p', d, hp', hd, hk, hmem⟩ := h.listed i n hn (h.ne_root_of_parent hn hp)
  obtain rfl := mem_unique hp hp'
  exact ⟨d, hd, hk, hmem⟩

/-- Only directories have children. -/
theorem dir_of_child (hd : fs.get? p = some d) (hc : c ∈ d.children) :
    d.kind = .directory := by
  obtain ⟨n, hn, hp⟩ := h.lists p d c hd hc
  obtain ⟨d', hd', hk, -⟩ := h.parent_dir hn hp
  obtain rfl := mem_unique hd hd'
  exact hk

theorem lookup_iff : fs.lookupChildByName p name = some c ↔ Edge fs p name c :=
  h.linked.lookup_iff

theorem root_live : ∃ m, fs.get? fs.root = some m := h.root.imp fun _ hr => hr.1

theorem cwd_live : ∃ m, fs.get? fs.cwd = some m := h.cwd.imp fun _ hd => hd.1

theorem parent_live {i p : Nat} {n : Node} (_ : ∃ m, fs.get? i = some m) (hn : fs.get? i = some n)
    (hp : n.parent = some p) : ∃ m, fs.get? p = some m :=
  (h.parent_dir hn hp).imp fun _ hd => hd.1

end

theorem child_live {i c : Nat} (_ : ∃ m, fs.get? i = some m) (hl : fs.lookupChildByName i name = some c) :
    ∃ m, fs.get? c = some m := by
  obtain ⟨-, m, -, -, -, hm, -⟩ := lookup_some hl
  exact ⟨m, hm⟩

/-- A path resolves to a live node. -/
theorem resolve_live (h : Rooted fs) {path : Str} (hr : fs.resolve path = .ok c) :
    ∃ m, fs.get? c = some m :=
  resolve_inv h.root_live h.cwd_live h.parent_live child_live hr

theorem resolveParentAndName_live (h : Rooted fs) {path : Str}
    (hr : fs.resolveParentAndName path = .ok (q, name)) : (∃ m, fs.get? q = some m) ∧ IsName name :=
  resolveParentAndName_inv h.root_live h.cwd_live h.parent_live
    child_live hr

/-! ## Climbing ends -/

theorem ends (h : Rooted fs) (hb : Below fs fs.root i) : ∃ l, fs.Ends i l := by
  induction hb with
  | refl => exact ⟨[], .stop (Or.inr rfl)⟩
  | @step i p n hn hp hb ih =>
    obtain ⟨l, hl⟩ := ih
    have hi := h.ne_root_of_parent hn hp
    have hget : n.parent.getD fs.root = p := by rw [hp]; rfl
    by_cases hroot : p = fs.root
    · exact ⟨_, .last hn hi (hget.trans hroot)⟩
    · exact ⟨_, .next hn hi (by rw [hget]; exact hroot) (by rw [hget]; exact hl)⟩

/-- **`path_for_inode` returns for every live node.** -/
theorem pathForInode_some (h : Rooted fs) (hn : fs.get? i = some n) :
    ∃ path, fs.pathForInode i = some path := by
  unfold pathForInode
  split
  · exact ⟨_, rfl⟩
  · obtain ⟨l, hl⟩ := h.ends (h.reach i n hn)
    obtain ⟨out, hout⟩ := hl.pathLoop (Nat.lt_succ_of_le hl.length_le) []
    rw [hout]; exact ⟨_, rfl⟩

theorem cwdPath_ne_none (h : Rooted fs) : fs.cwdPath ≠ none := by
  obtain ⟨d, hd, -⟩ := h.cwd
  obtain ⟨path, hpath⟩ := h.pathForInode_some hd
  rw [cwdPath, hpath]
  exact some_ne_none path

end Rooted

/-! ## What keeps a chain of parents -/

variable {i : Nat}

/-- Every node keeps its parent. -/
theorem Below.mono {fs' : TmpFs} {top : Nat}
    (hkeep : ∀ j n, fs.get? j = some n → ∃ n', fs'.get? j = some n' ∧ n'.parent = n.parent)
    (h : Below fs top i) : Below fs' top i := by
  induction h with
  | refl => exact .refl
  | step hn hp _ ih =>
    obtain ⟨n', hn', hpar⟩ := hkeep _ _ hn
    exact .step hn' (hpar.trans hp) ih

/-! ## A new child -/

variable {p : Nat}

theorem rooted_attach (h : Rooted fs) {d : Node} (hd : fs.get? p = some d) (hk : d.kind = .directory)
    (hl : fs.lookupChildByName p name = none) (hname : IsName name) (kind : FileType) :
    Rooted (fs.attach p d name kind) := by
  refine (h.linked.attach hd hk kind hl hname).rooted ?_ ?_ ?_ ?_ ?_ ?_
  · obtain ⟨r, hr, hrk, -⟩ := h.root
    obtain ⟨r', hr', -, -, hkind, -⟩ := attach_old hd name kind hr
    intro r'' hr''
    obtain rfl := mem_unique hr' hr''
    exact hkind.trans hrk
  · intro j m' q hm' hq
    rcases attach_cases hd hm' with ⟨rfl, rfl⟩ | ⟨m, hm, hpar, -⟩
    · obtain ⟨d', hd', -, -, hkind, hch⟩ := attach_old hd name kind hd
      obtain rfl : p = q := some.inj hq
      exact ⟨d', hd', hkind.trans hk, hch ▸ mem_attached.mpr (.inr ⟨rfl, rfl⟩)⟩
    · obtain ⟨e, he, hek, hmem⟩ := h.parent_dir hm (hpar.symm.trans hq)
      obtain ⟨e', he', -, -, hkind, hch⟩ := attach_old hd name kind he
      exact ⟨e', he', hkind.trans hek, hch ▸ mem_attached.mpr (.inl hmem)⟩
  · intro q m' hm'
    rcases attach_cases hd hm' with ⟨rfl, rfl⟩ | ⟨m, hm, -, -, -, hch⟩
    · exact nodup_nil
    · rw [hch]
      split
      · refine nodup_append.mpr ⟨h.nodup q m hm, nodup_singleton _, fun a ha b hb hab => ?_⟩
        rw [mem_singleton.mp hb] at hab
        exact h.linked.unlisted hm (hab ▸ ha)
      · exact h.nodup q m hm
  · intro q m' c hm' hc
    rcases attach_cases hd hm' with ⟨rfl, rfl⟩ | ⟨m, hm, -, -, -, hch⟩
    · cases hc
    rw [hch, mem_attached] at hc
    rcases hc.symm with ⟨-, rfl⟩ | hold
    · exact ⟨_, get?_attached hd name kind⟩
    · obtain ⟨n, hn, -⟩ := h.lists q m c hm hold
      obtain ⟨n', hn', -⟩ := attach_old hd name kind hn
      exact ⟨n', hn'⟩
  · intro j m' hm'
    have hmono : ∀ {a}, Below fs fs.root a → Below (fs.attach p d name kind) fs.root a :=
      fun hb => hb.mono fun a b hab => by
        obtain ⟨b', hb', hpar, -⟩ := attach_old hd name kind hab
        exact ⟨b', hb', hpar⟩
    rcases attach_cases hd hm' with ⟨rfl, rfl⟩ | ⟨m, hm, -⟩
    · exact .step hm' rfl (hmono (h.reach p d hd))
    · exact hmono (h.reach j m hm)
  · obtain ⟨e, he, hek⟩ := h.cwd
    obtain ⟨e', he', -, -, hkind, -⟩ := attach_old hd name kind he
    exact ⟨e', he', hkind.trans hek⟩

/-! ## Changes that leave the links alone -/

/-- The same name, kind, parent and children. -/
def SameLinks (m' m : Node) : Prop :=
  m'.name = m.name ∧ m'.kind = m.kind ∧ m'.parent = m.parent ∧ m'.children = m.children

/-- A table with the same slots filled and the same links is a tree when the old one is. -/
theorem rooted_congr {fs' : TmpFs} (h : Rooted fs) (hroot : fs'.root = fs.root)
    (hlen : fs'.nodes.length = fs.nodes.length)
    (hback : ∀ {j m'}, fs'.get? j = some m' → ∃ m, fs.get? j = some m ∧ SameLinks m' m)
    (hforth : ∀ {j m}, fs.get? j = some m → ∃ m', fs'.get? j = some m' ∧ SameLinks m' m)
    (hcwd : ∃ e, fs.get? fs'.cwd = some e ∧ e.kind = .directory) : Rooted fs' := by
  obtain ⟨r, hr, hrk, -⟩ := h.root
  obtain ⟨r', hr', hsame⟩ := hforth hr
  have hlinked : Linked fs' := by
    refine h.linked.shrink hroot hlen ⟨r', hr'⟩ fun hm' => ?_
    obtain ⟨m, hm, hname, hkind, hpar, hch⟩ := hback hm'
    exact ⟨m, hm, hname, hkind, hpar, hch ▸ Subset.refl _⟩
  refine hlinked.rooted ?_ ?_ ?_ ?_ ?_ ?_
  · intro r'' hr''
    obtain rfl := mem_unique hr' (hroot ▸ hr'')
    exact hsame.2.1.trans hrk
  · intro j m' p hm' hp
    obtain ⟨m, hm, -, -, hpar, -⟩ := hback hm'
    obtain ⟨d, hd, hk, hmem⟩ := h.parent_dir hm (hpar.symm.trans hp)
    obtain ⟨d', hd', -, hkind, -, hch⟩ := hforth hd
    exact ⟨d', hd', hkind.trans hk, by rw [hch]; exact hmem⟩
  · intro p d' hd'
    obtain ⟨d, hd, -, -, -, hch⟩ := hback hd'
    rw [hch]; exact h.nodup p d hd
  · intro p d' c hd' hc
    obtain ⟨d, hd, -, -, -, hch⟩ := hback hd'
    obtain ⟨n, hn, -⟩ := h.lists p d c hd (hch ▸ hc)
    obtain ⟨n', hn', -⟩ := hforth hn
    exact ⟨n', hn'⟩
  · intro j m' hm'
    obtain ⟨m, hm, -⟩ := hback hm'
    rw [hroot]
    refine (h.reach j m hm).mono fun a b hab => ?_
    obtain ⟨b', hb', -, -, hpar, -⟩ := hforth hab
    exact ⟨b', hb', hpar⟩
  · obtain ⟨e, he, hek⟩ := hcwd
    obtain ⟨e', he', -, hkind, -⟩ := hforth he
    exact ⟨e', he', hkind.trans hek⟩

variable {n : Node}

theorem rooted_setData (h : Rooted fs) (hn : fs.get? i = some n) (data : List UInt8) :
    Rooted (fs.setData i n data) := by
  refine rooted_congr h rfl (length_put _ _ _) ?_ ?_ h.cwd
  · intro j m' hm'
    rw [get?_setData hn] at hm'
    obtain ⟨m, hm, rfl⟩ := map_eq_some_iff.mp hm'
    exact ⟨m, hm, rfl, rfl, rfl, rfl⟩
  · intro j m hm
    rw [get?_setData hn, hm]
    exact ⟨_, rfl, rfl, rfl, rfl, rfl⟩

theorem rooted_cd (h : Rooted fs) (hn : fs.get? i = some n) (hk : n.kind = .directory) :
    Rooted { fs with cwd := i } :=
  rooted_congr h rfl rfl (fun hm => ⟨_, hm, rfl, rfl, rfl, rfl⟩) (fun hm => ⟨_, hm, rfl, rfl, rfl, rfl⟩)
    ⟨n, hn, hk⟩

/-! ## A leaf removed -/

theorem rooted_detach (h : Rooted fs) {d : Node} (hi : i ≠ fs.root) (hn : fs.get? i = some n)
    (hleaf : n.children = []) (hp : n.parent = some p) (hd : fs.get? p = some d) :
    Rooted (fs.detach i p d) := by
  have hview := get?_detach hn hd
  -- a node of the new table is an old one, without `i` among its children
  have hback : ∀ {j m'}, (fs.detach i p d).get? j = some m' → j ≠ i ∧ ∃ m, fs.get? j = some m ∧
      m' = { m with children := if j = p then m.children.filter (· ≠ i) else m.children } := by
    intro j m' hm'
    rw [hview, get?_unlinked hd] at hm'
    split at hm'
    · cases hm'
    · obtain ⟨m, hm, rfl⟩ := map_eq_some_iff.mp hm'
      exact ⟨‹_›, m, hm, rfl⟩
  have hforth : ∀ {j m}, fs.get? j = some m → j ≠ i → (fs.detach i p d).get? j =
      some { m with children := if j = p then m.children.filter (· ≠ i) else m.children } := by
    intro j m hm hj
    rw [hview, if_neg hj, get?_unlinked hd, hm]; rfl
  -- nobody's parent is the leaf
  have hparent : ∀ {j m q}, fs.get? j = some m → m.parent = some q → q ≠ i := by
    rintro j m q hm hq rfl
    obtain ⟨e, he, -, hmem⟩ := h.parent_dir hm hq
    obtain rfl := mem_unique hn he
    rw [hleaf] at hmem; cases hmem
  obtain ⟨r, hr, hrk, -⟩ := h.root
  have hr' := hforth hr (Ne.symm hi)
  refine (h.linked.detach hi hn hd).rooted ?_ ?_ ?_ ?_ ?_ ?_
  · intro r'' hr''
    obtain rfl := mem_unique hr' hr''
    exact hrk
  · intro j m' q hm' hq
    obtain ⟨hji, m, hm, rfl⟩ := hback hm'
    obtain ⟨e, he, hek, hlist⟩ := h.parent_dir hm hq
    exact ⟨_, hforth he (hparent hm hq), hek, (h.linked.mem_children_iff hn hp he).mpr ⟨hlist, hji⟩⟩
  · intro q m' hm'
    obtain ⟨-, m, hm, rfl⟩ := hback hm'
    split
    · exact (h.nodup q m hm).filter _
    · exact h.nodup q m hm
  · intro q m' c hm' hc
    obtain ⟨-, m, hm, rfl⟩ := hback hm'
    obtain ⟨hc, hci⟩ := (h.linked.mem_children_iff hn hp hm).mp hc
    obtain ⟨k, hk, -⟩ := h.lists q m c hm hc
    exact ⟨_, hforth hk hci⟩
  · have hbelow : ∀ {j}, Below fs fs.root j → j ≠ i → Below (fs.detach i p d) fs.root j := by
      intro j hb
      induction hb with
      | refl => exact fun _ => .refl
      | step hm hq _ ih => exact fun hj => .step (hforth hm hj) hq (ih (hparent hm hq))
    intro j m' hm'
    obtain ⟨hji, m, hm, -⟩ := hback hm'
    exact hbelow (h.reach j m hm) hji
  · show ∃ e, (fs.detach i p d).get? (if fs.cwd = i then fs.root else fs.cwd) = some e ∧ _
    split
    · exact ⟨_, hr', hrk⟩
    · obtain ⟨e, he, hek⟩ := h.cwd
      exact ⟨_, hforth he ‹_›, hek⟩

/-! ## A node moved -/

/-- Moving `i` under the live directory `q` is safe when `q` is neither `i` nor below it. -/
structure Movable (fs : TmpFs) (i q : Nat) : Prop where
  dir : ∃ e, fs.get? q = some e ∧ e.kind = .directory
  outside : ¬Below fs i q

/-- **A move keeps the tree.** -/
theorem rooted_relink (h : Rooted fs) {q : Nat} {d m k : Node} (hn : fs.get? i = some n)
    (hp : n.parent = some p) (hmov : Movable fs i q) (hl : fs.lookupChildByName q name = none)
    (hname : IsName name) (hslots : fs.Slots i p q d m k) : Rooted (fs.relink i p q d m k name) := by
  obtain ⟨⟨e, he, hek⟩, hout⟩ := hmov
  have hi := h.ne_root_of_parent hn hp
  have hs := shift_relink h.linked hn hp name hslots
  have hforth : ∀ {j m0}, fs.get? j = some m0 →
      (fs.relink i p q d m k name).get? j = some (moveNode i p q name j m0) := by
    intro j m0 hm0
    rw [get?_relink hslots, hm0]; rfl
  have hmem : ∀ {j m0} (c : Nat), fs.get? j = some m0 →
      (c ∈ (moveNode i p q name j m0).children ↔ (c ∈ m0.children ∧ c ≠ i) ∨ (j = q ∧ c = i)) :=
    fun c hm0 => (hs.forth (hforth hm0) hm0).2.2.2 c
  refine (h.linked.relink hn hp hslots hi hl hname).rooted ?_ ?_ ?_ ?_ ?_ ?_
  · intro r' hr'
    obtain ⟨r, hr, hrk, -⟩ := h.root
    obtain rfl := mem_unique (hforth hr) hr'
    exact hrk
  · intro j m' r hm' hr
    obtain ⟨m0, hm0, rfl⟩ := relink_cases hslots hm'
    change (if j = i then some q else m0.parent) = some r at hr
    split at hr
    · obtain rfl := some.inj hr
      exact ⟨_, hforth he, hek, (hmem j he).mpr (Or.inr ⟨rfl, ‹_›⟩)⟩
    · obtain ⟨d, hd, hk, hlist⟩ := h.parent_dir hm0 hr
      exact ⟨_, hforth hd, hk, (hmem j hd).mpr (Or.inl ⟨hlist, ‹_›⟩)⟩
  · intro j m' hm'
    obtain ⟨m0, hm0, rfl⟩ := relink_cases hslots hm'
    have hnod : (if j = p then m0.children.filter (· ≠ i) else m0.children).Nodup := by
      split
      · exact (h.nodup j m0 hm0).filter _
      · exact h.nodup j m0 hm0
    rw [children_moveNode]
    by_cases hjq : j = q
    · rw [if_pos hjq]
      refine nodup_append.mpr ⟨hnod, nodup_singleton _, fun a ha b hb hab => ?_⟩
      rw [mem_singleton.mp hb] at hab
      exact ((h.linked.mem_children_iff hn hp hm0).mp ha).2 hab
    · rw [if_neg hjq, append_nil]; exact hnod
  · intro j m' c hm' hc
    obtain ⟨m0, hm0, rfl⟩ := relink_cases hslots hm'
    rcases (hmem c hm0).mp hc with ⟨hc, -⟩ | ⟨-, rfl⟩
    · obtain ⟨a, ha, -⟩ := h.lists j m0 c hm0 hc
      exact ⟨_, hforth ha⟩
    · exact ⟨_, hforth hn⟩
  · -- chains of parents: first those that avoid `i`, then all
    have hstep : ∀ {j r m0}, fs.get? j = some m0 → m0.parent = some r → j ≠ i →
        Below (fs.relink i p q d m k name) fs.root r → Below (fs.relink i p q d m k name) fs.root j :=
      fun hm0 hr hj hb => .step (hforth hm0) ((if_neg hj).trans hr) hb
    have havoid : ∀ {j}, Below fs fs.root j → ¬Below fs i j → Below (fs.relink i p q d m k name) fs.root j := by
      intro j hb
      induction hb with
      | refl => exact fun _ => .refl
      | step hm0 hr _ ih =>
        exact fun hnot => hstep hm0 hr (by rintro rfl; exact hnot .refl) (ih fun hb => hnot (.step hm0 hr hb))
    have hbelow : ∀ {j}, Below fs fs.root j → Below (fs.relink i p q d m k name) fs.root j := by
      intro j hb
      induction hb with
      | refl => exact .refl
      | @step j _ _ hm0 hr _ ih =>
        by_cases hj : j = i
        · exact .step (hforth hm0) (if_pos hj) (havoid (h.reach q e he) hout)
        · exact hstep hm0 hr hj ih
    intro j m' hm'
    obtain ⟨m0, hm0, -⟩ := relink_cases hslots hm'
    exact hbelow (h.reach j m0 hm0)
  · obtain ⟨x, hx, hxk⟩ := h.cwd
    exact ⟨_, hforth hx, hxk⟩

end Saios.Vfs
