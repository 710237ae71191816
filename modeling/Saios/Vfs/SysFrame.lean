/-
  `/sys` IS NEVER TOUCHED, in any run of calls that return.

  The calls test the NORMALIZED path, which is computed from the string and from the path of the working
  directory; the tmpfs then resolves the string itself, along child lists and parent links.  The test
  protects the nodes below `/sys` only if the two agree.  A rename can leave a table whose links are not a
  tree (`Vfs.Safety`), so the agreement cannot rest on `Rooted`.

  1. **`Linked`** (`Vfs.Links`) is what every run keeps of the links: a listed node that is alive has the
     node that lists it as its parent, and names below the root are proper names.

  2. **Positions** (`Linked.position`) — a node with a way up to the root is only reached from a node with
     one, and the dots of the string do to the way up what they do to the normalized path.  So the
     normalized path of a string that resolves to such a node is its way up.

  3. **`SysIntact`** — the seeded nodes of `/sys` are in their slots, and the root lists no other `sys`.
     They have a way up that starts with `sys`, so no call that passes the test reaches one of them.
-/
import Mathlib.Data.List.Find
import Saios.Vfs.Bounded
import Saios.Vfs.Paths

namespace Saios.Vfs

open Path TmpFs EdgeTree List Option

variable {i j : Nat} {js : List Str} {path abs : Str}

section linked

variable {fs : TmpFs} (h : Linked fs)

include h

/-! ## Positions -/

/-- A step to a node with a way up starts at one with a way up, and does to it what `push` does. -/
theorem Linked.up_step {part : Str} (hr : fs.resolveStep i part = .ok j) (hj : Up fs j js) :
    ∃ is, Up fs i is ∧ js = Path.push is part := by
  unfold resolveStep at hr
  split at hr
  · rename_i hdot
    obtain rfl := Except.ok.inj hr
    exact ⟨js, hj, by rw [Path.push, if_pos hdot]⟩
  rename_i hdot
  split at hr
  · rename_i hdots
    split at hr
    · cases hr
    rename_i n hnode
    have hn := node_ok.mp hnode
    have hpush : ∀ stack, Path.push stack part = stack.dropLast := fun stack => by
      rw [Path.push, if_neg hdot, if_pos hdots]
    cases hpar : n.parent with
    | none =>
      -- only the root has no parent, and it stays there
      rw [hpar] at hr
      obtain rfl : i = j := Except.ok.inj hr
      obtain rfl : i = fs.root := by
        by_contra hi
        obtain ⟨p, hp⟩ := h.parent hn hi
        rw [hpar] at hp; cases hp
      obtain rfl := hj.of_root
      exact ⟨[], .root, by rw [hpush]; rfl⟩
    | some p =>
      rw [hpar] at hr
      obtain rfl : p = j := Except.ok.inj hr
      exact ⟨_, .step hn hpar (h.ne_root hn hpar) hj, by rw [hpush, dropLast_concat]⟩
  · rename_i hdots
    split at hr
    · cases hr
    rename_i hl
    obtain rfl := Except.ok.inj hr
    obtain ⟨d, n, hd, -, hc, hn, rfl⟩ := lookup_some hl
    have hpar := h.links hd hc hn
    cases hj with
    | root => exact absurd rfl (h.ne_root hn hpar)
    | step hn' hp' _ hup =>
      obtain rfl := mem_unique hn hn'
      obtain rfl := mem_unique hpar hp'
      exact ⟨_, hup, by rw [Path.push, if_neg hdot, if_neg hdots]⟩

theorem Linked.up_fold {parts : List Str} (hr : parts.foldlM fs.resolveStep i = .ok j) (hj : Up fs j js) :
    ∃ is, Up fs i is ∧ js = resolveDots is parts := by
  induction parts generalizing i with
  | nil =>
    obtain rfl : i = j := Except.ok.inj hr
    exact ⟨js, hj, rfl⟩
  | cons part parts ih =>
    obtain ⟨b, hs, hr⟩ := foldlM_cons_ok.mp hr
    obtain ⟨bs, hb, hjs⟩ := ih hr
    obtain ⟨is, hi, rfl⟩ := h.up_step hs hb
    exact ⟨is, hi, hjs⟩

theorem Linked.up_names {is : List Str} (hi : Up fs i is) : ∀ c ∈ is, IsName c := by
  induction hi with
  | root => intro c hc; cases hc
  | step hn _ hne _ ih =>
    intro c hc
    rcases mem_append.mp hc with hc | hc
    · exact ih c hc
    · rw [mem_singleton.mp hc]; exact h.named hn hne

/-- **The normalized path is the way up**, continued by the components that were not resolved. -/
theorem Linked.position {cs ds : List Str} (habs : fs.normalizedPath path = some abs)
    (hparts : components path = cs ++ ds) (hr : cs.foldlM fs.resolveStep (fs.startOf path) = .ok j)
    (hj : Up fs j js) : abs = absolute (resolveDots js ds) := by
  obtain ⟨is, hi, rfl⟩ := h.up_fold hr hj
  unfold normalizedPath at habs
  simp only [pathParts, hparts, normalized_string] at habs
  have hdots : resolveDots is (cs ++ ds) = resolveDots (resolveDots is cs) ds := foldl_append
  unfold startOf at hi
  by_cases hslash : path.head? = some '/'
  · rw [if_pos hslash] at hi
    obtain rfl := hi.of_root
    rw [if_pos hslash] at habs
    rw [← hdots]
    exact (some.inj habs).symm
  · rw [if_neg hslash] at hi
    rw [if_neg hslash, cwdPath, hi.pathForInode_eq, map_some,
      components_absolute fun c hc => (h.up_names hi c hc).1] at habs
    rw [← hdots]
    exact (some.inj habs).symm

end linked

/-- In a tree, a path and its normalized form lead to the same node. -/
theorem Rooted.resolve_normalized {fs : TmpFs} (h : Rooted fs) (habs : fs.normalizedPath path = some abs)
    (hr : fs.resolve path = .ok i) : fs.resolve abs = .ok i := by
  obtain ⟨n, hn⟩ := h.resolve_live hr
  obtain ⟨cs, hcs⟩ := h.exists_path hn
  rw [resolve_eq] at hr
  have hpos : abs = absolute (resolveDots cs []) :=
    h.linked.position habs (append_nil _).symm hr (h.linked.up hcs)
  have hnames := h.nodeAt_isName hcs
  have hwalk := foldlM_resolveStep fs hnames fs.root
  rw [hpos, resolve_eq, show resolveDots cs [] = cs from rfl, components_absolute fun c hc => (hnames c hc).1]
  show cs.foldlM fs.resolveStep fs.root = .ok i
  rw [show walk fs.lookupChildByName fs.root cs = some i from hcs] at hwalk
  cases hfold : cs.foldlM fs.resolveStep fs.root with
  | error e => rw [hfold] at hwalk; cases hwalk
  | ok j => rw [hfold] at hwalk; rw [some.inj hwalk]

/-! ## The nodes of `/sys` -/

/-- `/sys` and the directories seeded in it. -/
def sysInodes : List Nat := 5 :: List.range' 14 7

/-- They are in their slots, where the root leads to them, and the root leads nowhere else by `sys`. -/
structure SysIntact (fs : TmpFs) : Prop where
  linked : Linked fs
  root : fs.root = 1
  listed : ∃ r, fs.get? 1 = some r ∧ r.kind = .directory ∧ 5 ∈ r.children
  only : ∀ {r n : Node} {c : Nat}, fs.get? 1 = some r → c ∈ r.children → fs.get? c = some n →
    n.name = "sys".toList → c = 5
  same : ∀ i ∈ sysInodes, fs.get? i = VfsState.new.fs.get? i

/-- What is seeded below `/sys`: directories whose parent is `/sys`, and `/sys` itself in the root. -/
theorem seeded_sys : ∀ i ∈ sysInodes, ∃ n, VfsState.new.fs.get? i = some n ∧ n.kind = .directory ∧
    (∀ c ∈ n.children, c ∈ sysInodes) ∧
    (n.parent = some 1 ∧ n.name = "sys".toList ∨ n.parent = some 5) := by
  have hall : ∀ i ∈ sysInodes, ((VfsState.new.fs.get? i).any fun n => n.kind = .directory ∧
      (∀ c ∈ n.children, c ∈ sysInodes) ∧
      (n.parent = some 1 ∧ n.name = "sys".toList ∨ n.parent = some 5)) = true := by
    rw [VfsState.new_eq]; decide
  intro i hi
  have hany := hall i hi
  cases hn : VfsState.new.fs.get? i with
  | none => rw [hn] at hany; cases hany
  | some n =>
    rw [hn, any_some, decide_eq_true_eq] at hany
    exact ⟨n, rfl, hany⟩

theorem isSysPath_sys (cs : List Str) : isSysPath (absolute ("sys".toList :: cs)) = true := by
  unfold isSysPath
  rw [absolute, join_cons, Bool.or_eq_true]
  cases cs with
  | nil => exact .inl rfl
  | cons c cs =>
    refine .inr ( isPrefixOf_iff_prefix.mpr ⟨c ++ slashed cs, ?_⟩)
    rfl

variable {p : Nat} {n : Node}

section intact

variable {fs : TmpFs} (h : SysIntact fs)

include h

theorem SysIntact.live (hi : i ∈ sysInodes) : ∃ n, fs.get? i = some n ∧ n.kind = .directory ∧
    (∀ c ∈ n.children, c ∈ sysInodes) ∧
    (n.parent = some 1 ∧ n.name = "sys".toList ∨ n.parent = some 5) := by
  obtain ⟨n, hn, hrest⟩ := seeded_sys i hi
  exact ⟨n, (h.same i hi).trans hn, hrest⟩

/-- They have a way up, and it starts at `sys`. -/
theorem SysIntact.up (hi : i ∈ sysInodes) : ∃ es, Up fs i ("sys".toList :: es) := by
  have hbelow : ∀ {i n}, fs.get? i = some n → n.parent = some 1 → n.name = "sys".toList →
      Up fs i ["sys".toList] := by
    intro i n hn hpar hname
    have htop : Up fs 1 [] := h.root ▸ .root
    have hstep := Up.step hn hpar (h.linked.ne_root hn hpar) htop
    rw [hname] at hstep
    exact hstep
  obtain ⟨n, hn, -, -, ⟨hpar, hname⟩ | hpar⟩ := h.live hi
  · exact ⟨[], hbelow hn hpar hname⟩
  · obtain ⟨n5, hn5, -, -, ⟨hpar5, hname5⟩ | hpar5⟩ := h.live mem_cons_self
    · exact ⟨[n.name], .step hn hpar (h.linked.ne_root hn hpar) (hbelow hn5 hpar5 hname5)⟩
    · have hseed : (VfsState.new.fs.get? 5).all fun n => n.parent ≠ some 5 := by
        rw [VfsState.new_eq]; decide
      rw [← h.same 5 mem_cons_self, hn5, all_some, decide_eq_true_eq] at hseed
      exact absurd hpar5 hseed

/-- **The test of the calls keeps them out**: with a normalized path outside `/sys`, resolving any part
    of the string leads to none of them, and to no child of theirs. -/
theorem SysIntact.outside {cs ds : List Str} (habs : fs.normalizedPath path = some abs)
    (hsys : isSysPath abs = false) (hparts : components path = cs ++ ds) (hds : ∀ d ∈ ds, IsName d)
    (hr : cs.foldlM fs.resolveStep (fs.startOf path) = .ok j) (es : List Str) :
    ¬Up fs j ("sys".toList :: es) := by
  intro hup
  have hpos := h.linked.position habs hparts hr hup
  rw [resolveDots_names hds, cons_append] at hpos
  rw [hpos, isSysPath_sys] at hsys
  cases hsys

theorem SysIntact.notMem (hout : ∀ es, ¬Up fs j ("sys".toList :: es)) : j ∉ sysInodes := by
  intro hj
  obtain ⟨es, hes⟩ := h.up hj
  exact hout es hes

theorem SysIntact.parent_notMem (hout : ∀ es, ¬Up fs j ("sys".toList :: es)) (hn : fs.get? j = some n)
    (hpar : n.parent = some p) : p ∉ sysInodes := by
  intro hp
  obtain ⟨es, hes⟩ := h.up hp
  exact hout _ (.step hn hpar (h.linked.ne_root hn hpar) hes)

/-! ## The operations -/

/-- By its name the root leads to `/sys`, and to nothing else. -/
theorem SysIntact.edge_iff : Edge fs 1 "sys".toList j ↔ j = 5 := by
  constructor
  · rintro ⟨r, n, hr, -, hj, hn, hname⟩
    exact h.only hr hj hn hname
  · rintro rfl
    obtain ⟨r, hr, hk, h5⟩ := h.listed
    obtain ⟨n, hn, -, -, ⟨-, hname⟩ | hpar⟩ := h.live mem_cons_self
    · exact ⟨r, n, hr, hk, h5, hn, hname⟩
    · rw [h.linked.links hr h5 hn] at hpar
      cases hpar

theorem SysIntact.name_ne {name : Str} (hl : fs.lookupChildByName 1 name = none) :
    name ≠ "sys".toList := by
  rintro rfl
  exact not_edge hl (h.edge_iff.mpr rfl)

/-- A change elsewhere: the nodes are in their slots, and by `sys` the root leads where it led. -/
theorem SysIntact.elsewhere {fs' : TmpFs} (hlinked : Linked fs') (hroot : fs'.root = fs.root)
    (hsame : ∀ i ∈ sysInodes, fs'.get? i = fs.get? i) (htop : ∀ j, Edge fs' 1 "sys".toList j ↔ j = 5) :
    SysIntact fs' := by
  obtain ⟨r, -, hr, hk, h5, -⟩ := (htop 5).mpr rfl
  refine ⟨hlinked, hroot.trans h.root, ⟨r, hr, hk, h5⟩, ?_, fun i hi => (hsame i hi).trans (h.same i hi)⟩
  intro r' n c hr' hc hn hname
  obtain rfl := mem_unique hr hr'
  exact (htop c).mp ⟨r, n, hr, hk, hc, hn, hname⟩

/-- So it does when all that is new are edges to a node that is not `/sys`, at free places. -/
theorem SysIntact.edge_moved {fs' : TmpFs} {P : Nat → Str → Prop}
    (hedge : ∀ r c j, Edge fs' r c j ↔ (Edge fs r c j ∧ j ≠ i) ∨ (P r c ∧ j = i)) (h5 : 5 ≠ i)
    (hfree : ∀ r c, P r c → fs.lookupChildByName r c = none) (j : Nat) : Edge fs' 1 "sys".toList j ↔ j = 5 := by
  rw [hedge, h.edge_iff]
  constructor
  · rintro (⟨hj, -⟩ | ⟨hnew, -⟩)
    · exact hj
    · exact absurd rfl (h.name_ne (hfree _ _ hnew))
  · rintro rfl
    exact .inl ⟨rfl, h5⟩

theorem SysIntact.setData (hn : fs.get? i = some n) (hk : n.kind = .file) (data : List UInt8) :
    SysIntact (fs.setData i n data) := by
  have hi : i ∉ sysInodes := by
    intro hi
    obtain ⟨m, hm, hdir, -⟩ := h.live hi
    obtain rfl := mem_unique hn hm
    rw [hk] at hdir; cases hdir
  have hlinked := h.linked.setData hn data
  refine h.elsewhere hlinked rfl (fun j hj => ?_) fun j => ?_
  · have hji : j ≠ i := fun heq => hi (heq ▸ hj)
    rw [TmpFs.setData, get?_put hn, if_neg hji]
  · rw [← hlinked.lookup_iff, lookup_setData hn, h.linked.lookup_iff, h.edge_iff]

theorem SysIntact.attach {d : Node} {name : Str} (hp : p ∉ sysInodes) (hd : fs.get? p = some d)
    (hkind : d.kind = .directory) (hl : fs.lookupChildByName p name = none) (hname : IsName name)
    (kind : FileType) : SysIntact (fs.attach p d name kind) := by
  obtain ⟨n5, hn5, -⟩ := h.live mem_cons_self
  refine h.elsewhere (h.linked.attach hd hkind kind hl hname) rfl (fun i hi => ?_)
    (h.edge_moved (edge_attach h.linked hd hkind name kind) (ne_nextInode hn5) ?_)
  · obtain ⟨n, hn, -⟩ := h.live hi
    have hip : i ≠ p := fun heq => hp (heq ▸ hi)
    rw [get?_attach hd, if_neg hip, if_neg (ne_nextInode hn)]
  · rintro _ _ ⟨rfl, rfl⟩
    exact hl

section moved

variable {d : Node} (hi : i ∉ sysInodes) (hp : p ∉ sysInodes) (hn : fs.get? i = some n) (hpar : n.parent = some p)

include hi hp hn hpar

theorem SysIntact.unlinked (hd : fs.get? p = some d) : SysIntact (fs.unlinked i p d) := by
  refine h.elsewhere (h.linked.unlinked hd) rfl (fun j hj => ?_)
    (h.edge_moved (shift_unlinked h.linked hn hpar hd).edge (fun heq => hi (heq ▸ mem_cons_self)) ?_)
  · have hjp : j ≠ p := fun heq => hp (heq ▸ hj)
    rw [get?_unlinked hd]
    simp only [if_neg hjp]
    cases fs.get? j <;> rfl
  · rintro _ _ ⟨⟨⟨⟩, -⟩, -⟩

theorem SysIntact.detach (hroot : i ≠ fs.root) (hleaf : ∀ c, fs.lookupChildByName i c = none)
    (hd : fs.get? p = some d) : SysIntact (fs.detach i p d) := by
  have hout := h.unlinked hi hp hn hpar hd
  refine h.elsewhere (h.linked.detach hroot hn hd) rfl (fun j hj => ?_)
    (h.edge_moved (shift_detach h.linked hn hpar hd hleaf).edge (fun heq => hi (heq ▸ mem_cons_self)) ?_)
  · have hji : j ≠ i := fun heq => hi (heq ▸ hj)
    rw [get?_detach hn hd, if_neg hji, hout.same j hj, h.same j hj]
  · rintro _ _ ⟨⟨⟨⟩, -⟩, -⟩

theorem SysIntact.relink {q : Nat} {m k : Node} {name : Str} (hroot : i ≠ fs.root) (hq : q ∉ sysInodes)
    (hslots : fs.Slots i p q d m k) (hl : fs.lookupChildByName q name = none) (hname : IsName name) :
    SysIntact (fs.relink i p q d m k name) := by
  refine h.elsewhere (h.linked.relink hn hpar hslots hroot hl hname) rfl (fun j hj => ?_)
    (h.edge_moved (shift_relink h.linked hn hpar name hslots).edge (fun heq => hi (heq ▸ mem_cons_self)) ?_)
  · have hji : j ≠ i := fun heq => hi (heq ▸ hj)
    have hjp : j ≠ p := fun heq => hp (heq ▸ hj)
    have hjq : j ≠ q := fun heq => hq (heq ▸ hj)
    have hid : moveNode i p q name j = id := by
      funext b
      rw [moveNode, if_neg hji, if_neg hji, if_neg hjp, if_neg hjq, append_nil]
      rfl
    rw [get?_relink hslots, hid, Option.map_id, id]
  · rintro _ _ ⟨⟨rfl, -⟩, rfl⟩
    exact hl

end moved

theorem SysIntact.createAs (kind : FileType) (habs : fs.normalizedPath path = some abs)
    (hsys : isSysPath abs = false) : SysIntact (fs.createAs path kind).2 := by
  rcases createAs_cases fs path kind with ⟨e, he⟩ | ⟨p, name, d, hr, hd, hkind, hl, hc⟩
  · rw [he]; exact h
  · obtain ⟨cs, hparts, hname, hfold⟩ := resolveParentAndName_fold hr
    have hout := h.outside habs hsys hparts (by simpa using hname) hfold
    rw [hc]
    exact h.attach (h.notMem hout) hd hkind hl hname kind

/-- What a path outside `/sys` resolves to has no way up through `sys`. -/
theorem SysIntact.resolve_outside (habs : fs.normalizedPath path = some abs) (hsys : isSysPath abs = false)
    (hr : fs.resolve path = .ok i) (es : List Str) : ¬Up fs i ("sys".toList :: es) := by
  rw [resolve_eq] at hr
  exact h.outside habs hsys (append_nil _).symm (by simp) hr es

theorem SysIntact.remove (habs : fs.normalizedPath path = some abs) (hsys : isSysPath abs = false) :
    SysIntact (fs.remove path).2 := by
  unfold TmpFs.remove
  split
  · exact h
  rename_i i hr
  have hout := h.resolve_outside habs hsys hr
  have hi := h.notMem hout
  rcases removeInode_cases fs i with ⟨e, he⟩ | ⟨n, hroot, hn, hleaf, ⟨hnone, -⟩ | ⟨p, d, hpar, hd, hrem⟩⟩
  · rw [he]; exact h
  · obtain ⟨p, hpar⟩ := h.linked.parent hn hroot
    rw [hnone] at hpar; cases hpar
  · rw [hrem]
    exact h.detach hi (h.parent_notMem hout hn hpar) hn hpar hroot (lookup_leaf hn hleaf) hd

theorem SysIntact.renamePath {source target absFrom absTo : Str}
    (hfrom : fs.normalizedPath source = some absFrom) (hto : fs.normalizedPath target = some absTo)
    (hsysFrom : isSysPath absFrom = false) (hsysTo : isSysPath absTo = false) :
    SysIntact (fs.renamePath source target).2 := by
  rcases renamePath_outcome fs source target with
    ⟨e, he⟩ | ⟨i, q, name, n, p, d, hs, hroot, ht, hl, hn, hpar, hd, hcase⟩
  · rw [he]; exact h
  have hout := h.resolve_outside hfrom hsysFrom hs
  have hi := h.notMem hout
  have hp := h.parent_notMem hout hn hpar
  rcases hcase with ⟨-, e, he⟩ | ⟨m, k, hslots, hr⟩
  · rw [he]; exact h.unlinked hi hp hn hpar hd
  · obtain ⟨cs, hparts, hname, hfold⟩ := resolveParentAndName_fold ht
    have hq := h.notMem (h.outside hto hsysTo hparts (by simpa using hname) hfold)
    rw [hr]
    exact h.relink hi hp hn hpar hroot hq hslots hl hname

end intact

theorem guarded_sysIntact : Guarded SysIntact where
  createAs kind h habs hsys := h.createAs kind habs hsys
  setData data h hn hk := h.setData hn hk data
  remove h habs hsys := h.remove habs hsys
  renamePath h hfrom hto hsysFrom hsysTo := h.renamePath hfrom hto hsysFrom hsysTo
  cd h _ :=
    ⟨⟨h.linked.root, h.linked.parent, h.linked.named, h.linked.links, h.linked.bound, h.linked.siblings⟩,
      h.root, h.listed, h.only, h.same⟩

/-! ## Runs -/

theorem sysIntact_seed : SysIntact VfsState.new.fs := by
  refine ⟨rooted_seed.linked, by rw [VfsState.new_eq], ?_, ?_, fun _ _ => rfl⟩
  · rw [VfsState.new_eq]
    exact ⟨_, rfl, rfl, by decide⟩
  · intro r n c hr hc hn hname
    have hall : (VfsState.new.fs.get? 1).all fun r => ∀ c ∈ r.children,
        (VfsState.new.fs.get? c).all fun n => n.name = "sys".toList → c = 5 := by
      rw [VfsState.new_eq]; decide
    rw [hr, all_some, decide_eq_true_eq] at hall
    have hchild := hall c hc
    rw [hn, all_some, decide_eq_true_eq] at hchild
    exact hchild hname

/-- The node that a path below `/sys` leads to, with its slot. -/
def TmpFs.sysSubtree (fs : TmpFs) (cs : List Str) : Option (Nat × Node) :=
  (fs.nodeAt ("sys".toList :: cs)).bind fun i => (fs.get? i).map fun n => (i, n)

section

variable {fs fs' : TmpFs} (h : SysIntact fs) (h' : SysIntact fs')

include h

theorem SysIntact.lookup_sys : fs.lookupChildByName fs.root "sys".toList = some 5 := by
  rw [h.root, h.linked.lookup_iff, h.edge_iff]

include h'

theorem SysIntact.get?_eq (hi : i ∈ sysInodes) : fs.get? i = fs'.get? i :=
  (h.same i hi).trans (h'.same i hi).symm

/-- Below `/sys` the lookups of any two tables agree, and stay below it. -/
theorem SysIntact.lookup_below (hi : i ∈ sysInodes) (name : Str) :
    fs.lookupChildByName i name = fs'.lookupChildByName i name ∧
      ∀ c, fs.lookupChildByName i name = some c → c ∈ sysInodes := by
  obtain ⟨n, hn, -, hsub, -⟩ := h.live hi
  refine ⟨?_, fun c hc => ?_⟩
  · rw [lookup_eq, lookup_eq, ← h.get?_eq h' hi, hn, bind_some, bind_some]
    -- the children have the same names
    have hnamed : ∀ c ∈ n.children, fs.isNamed name c = fs'.isNamed name c := fun c hc => by
      unfold isNamed
      rw [h.get?_eq h' (hsub c hc)]
    rw [find?_congr hnamed]
  · obtain ⟨n', _, hn', -, hmem, -⟩ := lookup_some hc
    obtain rfl := mem_unique hn hn'
    exact hsub c hmem

theorem SysIntact.walk_below (hi : i ∈ sysInodes) (cs : List Str) :
    walk fs.lookupChildByName i cs = walk fs'.lookupChildByName i cs ∧
      ∀ j, walk fs.lookupChildByName i cs = some j → j ∈ sysInodes := by
  induction cs generalizing i with
  | nil => exact ⟨rfl, fun j hj => some.inj hj ▸ hi⟩
  | cons c cs ih =>
    obtain ⟨hsame, hstay⟩ := h.lookup_below h' hi c
    rw [walk_cons, walk_cons, ← hsame]
    cases hl : fs.lookupChildByName i c with
    | none => exact ⟨rfl, by rintro j ⟨⟩⟩
    | some k => exact ih (hstay k hl)

theorem SysIntact.sysSubtree_eq : fs.sysSubtree = fs'.sysSubtree := by
  funext cs
  obtain ⟨hsame, hstay⟩ := h.walk_below h' mem_cons_self cs
  unfold TmpFs.sysSubtree nodeAt
  rw [walk_cons, walk_cons, h.lookup_sys, h'.lookup_sys, bind_some, bind_some, ← hsame]
  cases hw : walk fs.lookupChildByName 5 cs with
  | none => rfl
  | some j => rw [bind_some, bind_some, h.get?_eq h' (hstay j hw)]

end

/-- **Everything below `/sys` stays as it was seeded**: slots, names, kinds, links and data, in every run
    of calls that all return.  Whether storage volumes are mounted does not matter, since a call that goes
    to the storage driver changes nothing in the tmpfs. -/
theorem sys_untouched (storage : Storage.StorageState) (env : Env) (calls : List Call) (w : World)
    (hrun : calls.foldl step (some (boot storage env)) = some w) :
    w.vfs.fs.sysSubtree = VfsState.new.fs.sysSubtree := by
  have h : SysIntact w.vfs.fs := run_kept (P := fun w => SysIntact w.vfs.fs) (w := boot storage env)
    (fun _ _ _ h _ hr => guarded_sysIntact.exec h hr) sysIntact_seed (Run.along_of_forall (fun _ _ => trivial) _ _) hrun
  exact h.sysSubtree_eq sysIntact_seed

/-- A directory moved into itself, which breaks the tree, and two ways into `/sys` that are refused. -/
def breakAndTry : List Call :=
  [.mkdir "/tmp/a".toList, .cd "/tmp/a".toList, .mkdir "b".toList, .rename "/tmp/a".toList "/usr/../sys/a".toList,
    .rename "b".toList "b/c".toList, .unlink "../../sys/devices".toList]

theorem sys_untouched_broken : ∃ w, breakAndTry.foldl step (some quiet) = some w ∧
    w.vfs.fs.sysSubtree = VfsState.new.fs.sysSubtree := by
  have hreturns : (breakAndTry.foldl step (some quiet)).isSome := by
    rw [quiet_eq]; decide
  obtain ⟨w, hw⟩ := Option.isSome_iff_exists.mp hreturns
  exact ⟨w, hw, sys_untouched _ _ breakAndTry w hw⟩

end Saios.Vfs
