/-
  WHAT `open` DOES, exactly, and what an open descriptor is good for.

  1. **The number** — `alloc_fd` fills the slot `slot` and returns its index as a `u32`.  Every slot below
     it is filled, so when the index does not fit, the number returned is that of ANOTHER open file
     (`getElem?_wrapped`).

  2. **`open`** — `Openable` says when the path leads to a file, one that is there or one that the call
     makes; then `open` ends in `openInode` on that file (`openFile_openable`), and otherwise it fails and
     changes nothing (`openFile_refused`).  `openInode` succeeds (`openInode_eq`) unless it is asked to
     truncate without write access (`openInode_truncate`).

  3. **`read` and `write`** — through a descriptor on a live file they fail only for want of access.

  4. **`held`** — the table as a function from numbers to open files, for the runs of `Vfs.OpenFiles`.
-/
import Mathlib.Logic.Function.Basic
import Saios.Vfs.Descriptors
import Saios.Vfs.SysFrame

namespace Saios.Vfs

open Path TmpFs List Option

/-! ## Numbers -/

variable {fd : Nat}

section
variable {files : List (Option OpenFile)}

/-- The slots below the next one are all filled. -/
theorem filled_below_slot {k : Nat} (hk : k < slot files) : ∃ file, files[k]? = some (some file) := by
  have hfilled : k < files.length ∧ ∀ hlt : k < files.length, files[k].isNone = false := by
    unfold slot firstFree at hk
    cases hf : files.findIdx? isNone with
    | some idx =>
      rw [hf, getD_some] at hk
      obtain ⟨hlt, -, hbefore⟩ := findIdx?_eq_some_iff_getElem.mp hf
      exact ⟨by omega, fun _ => Bool.eq_false_of_not_eq_true (hbefore k hk)⟩
    | none =>
      rw [hf] at hk
      exact ⟨hk, fun hlt => findIdx?_eq_none_iff.mp hf _ (getElem_mem hlt)⟩
  obtain ⟨hlt, hall⟩ := hfilled
  have hsome := hall hlt
  cases hs : files[k] with
  | none => rw [hs] at hsome; cases hsome
  | some file => exact ⟨file, by rw [getElem?_eq_getElem hlt, hs]⟩

theorem getElem?_place_ne {k : Nat} (hk : k ≠ slot files) (file : OpenFile) :
    (place files file)[k]? = files[k]? := by
  unfold slot at hk
  unfold place
  cases hf : firstFree files with
  | some idx =>
    rw [hf] at hk
    exact getElem?_set_ne (Ne.symm hk)
  | none =>
    rw [hf, getD_none] at hk
    rcases Nat.lt_or_gt_of_ne hk with hlt | hgt
    · exact getElem?_append_left hlt
    · rw [getElem?_eq_none (by rw [length_append, length_singleton]; omega),
        getElem?_eq_none (by omega)]

/-- The slot was free. -/
theorem getElem?_slot : files[slot files]? = none ∨ files[slot files]? = some none := by
  unfold slot
  cases hf : firstFree files with
  | some idx => exact .inr (firstFree_some hf).2
  | none => exact .inl (getElem?_eq_none (Nat.le_refl _))

/-- **A number that does not fit is somebody else's.** -/
theorem getElem?_wrapped (h : 2 ^ 32 ≤ slot files) (file : OpenFile) :
    ∃ other, files[slot files % 2 ^ 32]? = some (some other) ∧
      (place files file)[slot files % 2 ^ 32]? = some (some other) := by
  have hlt : slot files % 2 ^ 32 < slot files := Nat.lt_of_lt_of_le (Nat.mod_lt _ (by decide)) h
  obtain ⟨other, hother⟩ := filled_below_slot hlt
  exact ⟨other, hother, (getElem?_place_ne (Nat.ne_of_lt hlt) file).trans hother⟩

/-- What the number returned denotes: the new entry if it fits, and somebody else's if not. -/
def Denotes (files : List (Option OpenFile)) (file g : OpenFile) : Prop :=
  slot files < 2 ^ 32 ∧ g = file ∨ 2 ^ 32 ≤ slot files ∧ files[slot files % 2 ^ 32]? = some (some g)

theorem getElem?_place_fd (files : List (Option OpenFile)) (file : OpenFile) :
    ∃ g, (place files file)[slot files % 2 ^ 32]? = some (some g) ∧ Denotes files file g := by
  by_cases hfits : slot files < 2 ^ 32
  · refine ⟨file, ?_, Or.inl ⟨hfits, rfl⟩⟩
    rw [Nat.mod_eq_of_lt hfits, getElem?_place]
  · obtain ⟨g, hg, hplace⟩ := getElem?_wrapped (Nat.le_of_not_lt hfits) file
    exact ⟨g, hplace, Or.inr ⟨Nat.le_of_not_lt hfits, hg⟩⟩

end

/-! ## Opening an inode -/

section
variable {w : World} {i : Nat} {n : Node} {options : OpenOptions}

/-- Truncating needs write access, and that is only checked here. -/
theorem openInode_truncate (hn : w.vfs.fs.get? i = some n) (hk : n.kind = .file)
    (ht : options.truncate = true) (hw : options.write = false) :
    openInode w i options = (.error "truncate requires write access", w) := by
  unfold openInode truncateFor
  rw [node_ok.mpr hn]
  simp only
  rw [if_neg (not_not_intro hk), if_pos ht, if_pos hw]

theorem openInode_refused (h : ∀ n, w.vfs.fs.get? i = some n → n.kind ≠ .file) :
    ∃ e, openInode w i options = (.error e, w) := by
  unfold openInode
  cases hn : w.vfs.fs.get? i with
  | none =>
    obtain ⟨e, he⟩ := node_error hn
    rw [he]; exact ⟨e, rfl⟩
  | some n =>
    rw [node_ok.mpr hn]
    exact ⟨_, if_pos (h n hn)⟩

end

/-! ## Opening a path -/

/-- `create` would make a file here: the path leads nowhere, the one above it to a directory. -/
def Creatable (fs : TmpFs) (path : Str) (p : Nat) (d : Node) (name : Str) : Prop :=
  isMissing fs path = true ∧ fs.resolveParentAndName path = .ok (p, name) ∧ fs.get? p = some d ∧
    d.kind = .directory

variable {fs : TmpFs}

theorem isMissing_iff {path : Str} : isMissing fs path = true ↔ ∃ e, fs.resolve path = .error e := by
  unfold isMissing
  cases fs.resolve path with
  | error e => exact ⟨fun _ => ⟨e, rfl⟩, fun _ => rfl⟩
  | ok i =>
    refine ⟨fun h => ?_, fun ⟨e, he⟩ => ?_⟩
    · cases h
    · cases he

section attach

variable {fs : TmpFs} (h : Linked fs) {p : Nat} {d : Node} (hd : fs.get? p = some d) (name : Str)
  (kind : FileType)

include h hd

/-- A lookup that found something finds the same with one more node in the tree. -/
theorem lookup_attach_old {q c : Nat} {part : Str} (hl : fs.lookupChildByName q part = some c) :
    (fs.attach p d name kind).lookupChildByName q part = some c := by
  have hview := get?_attach hd name kind
  rw [lookup_eq] at hl ⊢
  obtain ⟨e, he, hl⟩ := bind_eq_some_iff.mp hl
  have hnamed : ∀ b ∈ e.children, (fs.attach p d name kind).isNamed part b = fs.isNamed part b := by
    intro b hb
    have hle := h.bound he hb
    have hb' : b ≠ fs.nextInode := by unfold nextInode; omega
    unfold isNamed
    rw [hview]
    split
    · rename_i hbp
      rw [hbp, hd]; rfl
    · rfl
  have hq : q ≠ fs.nextInode := ne_nextInode he
  rw [hview, if_neg hq]
  by_cases hqp : q = p
  · subst hqp
    obtain rfl := mem_unique hd he
    rw [if_pos rfl, bind_some]
    split at hl
    · rename_i hk
      rw [if_pos hk, find?_append, find?_congr hnamed, hl]
      rfl
    · cases hl
  · rw [if_neg hqp, he, bind_some, find?_congr hnamed]
    exact hl

theorem resolveStep_attach {q c : Nat} {part : Str} (hr : fs.resolveStep q part = .ok c) :
    (fs.attach p d name kind).resolveStep q part = .ok c := by
  unfold resolveStep at hr ⊢
  split
  · rename_i hdot
    rw [if_pos hdot] at hr
    exact hr
  rename_i hdot
  rw [if_neg hdot] at hr
  split
  · rename_i hdots
    rw [if_pos hdots] at hr
    cases hn : fs.get? q with
    | none =>
      obtain ⟨e, he⟩ := node_error hn
      rw [he] at hr; cases hr
    | some n =>
      have hq : q ≠ fs.nextInode := ne_nextInode hn
      -- the node has kept its parent
      obtain ⟨n', hn', hpar⟩ : ∃ n', (fs.attach p d name kind).get? q = some n' ∧ n'.parent = n.parent := by
        rw [get?_attach hd]
        split
        · rename_i hqp
          rw [hqp, hd] at hn
          obtain rfl := some.inj hn
          exact ⟨_, rfl, rfl⟩
        · exact ⟨n, hn, rfl⟩
      rw [node_ok.mpr hn] at hr
      rw [node_ok.mpr hn']
      simp only [hpar]
      exact hr
  · rename_i hdots
    rw [if_neg hdots] at hr
    split at hr
    · cases hr
    · rename_i hl
      rw [lookup_attach_old h hd name kind hl]
      exact hr

theorem foldlM_attach {parts : List Str} {q c : Nat} (hr : parts.foldlM fs.resolveStep q = .ok c) :
    parts.foldlM (fs.attach p d name kind).resolveStep q = .ok c := by
  induction parts generalizing q with
  | nil => exact hr
  | cons part parts ih =>
    obtain ⟨b, hs, hr⟩ := foldlM_cons_ok.mp hr
    exact foldlM_cons_ok.mpr ⟨b, resolveStep_attach h hd name kind hs, ih hr⟩

end attach

section creatable

variable {fs : TmpFs} {path name : Str} {p : Nat} {d : Node} (hc : Creatable fs path p d name)

include hc

theorem Creatable.lookup : fs.lookupChildByName p name = none := by
  obtain ⟨hmiss, hr, -⟩ := hc
  obtain ⟨e, he⟩ := isMissing_iff.mp hmiss
  obtain ⟨cs, hparts, hname, hfold⟩ := resolveParentAndName_fold hr
  rw [resolve_eq, hparts, foldlM_append, hfold] at he
  change [name].foldlM fs.resolveStep p = .error e at he
  rw [foldlM_cons, resolveStep, if_neg hname.2.1, if_neg hname.2.2] at he
  cases hl : fs.lookupChildByName p name with
  | none => rfl
  | some c => rw [hl] at he; cases he

omit hc in
/-- Where `create` finds no child with the name, the path leads nowhere. -/
theorem isMissing_of_lookup (hr : fs.resolveParentAndName path = .ok (p, name))
    (hl : fs.lookupChildByName p name = none) : isMissing fs path = true := by
  obtain ⟨cs, hparts, hname, hfold⟩ := resolveParentAndName_fold hr
  refine isMissing_iff.mpr ?_
  rw [Vfs.resolve_eq, hparts, foldlM_append, hfold]
  change ∃ e, [name].foldlM fs.resolveStep p = .error e
  rw [foldlM_cons, resolveStep, if_neg hname.2.1, if_neg hname.2.2, hl]
  exact ⟨_, rfl⟩

theorem Creatable.createAs_eq (kind : FileType) :
    fs.createAs path kind = (.ok (), fs.attach p d name kind) := by
  have hl := hc.lookup
  obtain ⟨-, hr, hd, hk⟩ := hc
  rw [createAs, hr]
  simp only
  rw [insertNode_ok hd hk hl]

/-- **What `create` or `mkdir` made is what the path then leads to.** -/
theorem Creatable.resolve_eq (h : Linked fs) (kind : FileType) :
    (fs.attach p d name kind).resolve path = .ok fs.nextInode ∧
      (fs.attach p d name kind).get? fs.nextInode = some (newNode fs.nextInode p name kind) := by
  have hl := hc.lookup
  obtain ⟨-, hr, hd, hk⟩ := hc
  have hview := get?_attach hd name kind
  have hp : p ≠ fs.nextInode := ne_nextInode hd
  have hnew : (fs.attach p d name kind).get? fs.nextInode = some (newNode fs.nextInode p name kind) := by
    rw [hview, if_neg (Ne.symm hp), if_pos rfl]
  refine ⟨?_, hnew⟩
  obtain ⟨cs, hparts, hname, hfold⟩ := resolveParentAndName_fold hr
  have hstart : (fs.attach p d name kind).startOf path = fs.startOf path := rfl
  rw [Vfs.resolve_eq, hparts, hstart, foldlM_append, foldlM_attach h hd name kind hfold]
  show [name].foldlM (fs.attach p d name kind).resolveStep p = .ok fs.nextInode
  -- the new node is the only live child with the name
  have hfound : (fs.attach p d name kind).lookupChildByName p name = some fs.nextInode := by
    cases hfind : (fs.attach p d name kind).lookupChildByName p name with
    | none =>
      have hpar : (fs.attach p d name kind).get? p =
          some { d with children := d.children ++ [fs.nextInode] } := by rw [hview, if_pos rfl]
      exact absurd rfl (lookup_none hfind hpar hk fs.nextInode
        (mem_append_right _ (mem_singleton_self _)) _ hnew)
    | some c =>
      obtain ⟨e, m, he, -, hmem, hm, hmname⟩ := lookup_some hfind
      rw [hview, if_pos rfl] at he
      obtain rfl := some.inj he
      rcases mem_append.mp hmem with hmem | hmem
      · -- an old child has no such name
        have hle := h.bound hd hmem
        have hcn : c ≠ fs.nextInode := by unfold nextInode; omega
        rw [hview] at hm
        split at hm
        · rename_i hcp
          obtain rfl := some.inj hm
          exact absurd hmname (lookup_none hl hd hk c hmem d (hcp ▸ hd))
        · exact absurd hmname (lookup_none hl hd hk c hmem m hm)
      · rw [mem_singleton.mp hmem]
  rw [foldlM_cons, resolveStep, if_neg hname.2.1, if_neg hname.2.2, hfound]
  rfl

end creatable

/-- The checks that `open` makes first. -/
def Accepts (w : World) (path : Str) (options : OpenOptions) : Prop :=
  ∃ abs, w.vfs.fs.normalizedPath path = some abs ∧ ¬(isSysPath abs = true ∧ options.changes = true) ∧
    ¬(options.read = false ∧ options.write = false)

/-- The path leads to `i` in `fs`, which is the tmpfs as it is, or with the file that `open` makes. -/
def Leads (w : World) (path : Str) (options : OpenOptions) (fs : TmpFs) (i : Nat) : Prop :=
  (w.vfs.fs.resolve path = .ok i ∧ fs = w.vfs.fs) ∨
  (options.create = true ∧ OutsideSys w path ∧ ∃ p d name, Creatable w.vfs.fs path p d name ∧
    fs = w.vfs.fs.attach p d name .file ∧ i = w.vfs.fs.nextInode)

variable {i : Nat}

section
variable {w : World} {path : Str} {options : OpenOptions}

theorem openFile_leads (h : Linked w.vfs.fs) (ha : Accepts w path options) (hl : Leads w path options fs i) :
    openFile w path options = some (openInode (w.setFs fs) i options) := by
  obtain ⟨abs, habs, hsys, hacc⟩ := ha
  rcases hl with ⟨hr, rfl⟩ | ⟨hcreate, ⟨abs', habs', hout⟩, p, d, name, hc, rfl, rfl⟩
  · have hthere : isMissing w.vfs.fs path = false := by rw [isMissing, hr]
    have hstay : createFor w path abs options = (.ok (), w) := by
      refine if_neg fun hcond => ?_
      rw [hthere] at hcond
      exact Bool.noConfusion hcond.2.2
    exact (openFile_created habs hsys hacc hstay).2 i hr
  · obtain rfl := mem_unique habs habs'
    have hmade : createFor w path abs options = (.ok (), w.setFs (w.vfs.fs.attach p d name .file)) := by
      rw [createFor, if_pos ⟨hcreate, hout, hc.1⟩, World.viaFs, TmpFs.create, hc.createAs_eq]
    exact (openFile_created habs hsys hacc hmade).2 _ (hc.resolve_eq h .file).1

/-- **Otherwise `open` fails and changes nothing.** -/
theorem openFile_refused {abs : Str} (habs : w.vfs.fs.normalizedPath path = some abs)
    (hno : Accepts w path options → ∀ fs i, ¬Leads w path options fs i) :
    ∃ e, openFile w path options = some (.error e, w) := by
  by_cases hacc : options.read = false ∧ options.write = false
  · refine ⟨"open requires read or write access", ?_⟩
    unfold openFile
    simp only [habs, bind_eq_bind, bind_some]
    rw [if_pos hacc]
  by_cases hsys : isSysPath abs = true ∧ options.changes = true
  · refine ⟨"read-only virtual path", ?_⟩
    unfold openFile
    simp only [habs, bind_eq_bind, bind_some]
    rw [if_neg hacc, ← OpenOptions.changes, if_pos hsys]
  have hno' := hno ⟨abs, habs, hsys, hacc⟩
  by_cases hcond : options.create = true ∧ isSysPath abs = false ∧ isMissing w.vfs.fs path = true
  · have hmade : createFor w path abs options = w.viaFs (w.vfs.fs.create path) := if_pos hcond
    rcases createAs_cases w.vfs.fs path .file with ⟨e, he⟩ | ⟨p, name, d, hr, hd, hk, -, -⟩
    · rw [TmpFs.create, he] at hmade
      exact ⟨e, openFile_uncreated habs hsys hacc hmade⟩
    · exact absurd (Or.inr ⟨hcond.1, ⟨abs, habs, hcond.2.1⟩, p, d, name, ⟨hcond.2.2, hr, hd, hk⟩, rfl, rfl⟩)
        (hno' _ _)
  · have hstay : createFor w path abs options = (.ok (), w) := if_neg hcond
    cases hr : w.vfs.fs.resolve path with
    | error e => exact ⟨e, (openFile_created habs hsys hacc hstay).1 e hr⟩
    | ok i => exact absurd (Or.inl ⟨hr, rfl⟩) (hno' _ i)

/-- `open` finds or makes a file `n` at slot `i` of the tmpfs `fs`. -/
structure Openable (w : World) (path : Str) (options : OpenOptions) (fs : TmpFs) (i : Nat) (n : Node) :
    Prop where
  accepts : Accepts w path options
  leads : Leads w path options fs i
  live : fs.get? i = some n
  file : n.kind = .file

theorem openFile_openable (h : Linked w.vfs.fs) {n : Node} (ho : Openable w path options fs i n) :
    openFile w path options = some (openInode (w.setFs fs) i options) :=
  openFile_leads h ho.accepts ho.leads

/-- A path opened without `create` leads to what is there. -/
theorem Leads.uncreated (hl : Leads w path options fs i) (hc : options.create = false) :
    w.vfs.fs.resolve path = .ok i ∧ fs = w.vfs.fs := by
  rcases hl with hl | ⟨hcreate, -⟩
  · exact hl
  · rw [hc] at hcreate; cases hcreate

/-- What can be opened is what the path leads to, ... -/
theorem Openable.resolves (h : Linked w.vfs.fs) {n : Node} (ho : Openable w path options fs i n) :
    fs.resolve path = .ok i := by
  rcases ho.leads with ⟨hr, rfl⟩ | ⟨-, -, p, d, name, hc, rfl, rfl⟩
  · exact hr
  · exact (hc.resolve_eq h .file).1

/-- ... in a tmpfs that has grown at most. -/
theorem Openable.grown (hb : Bounded w.vfs.fs) {n : Node} (ho : Openable w path options fs i n) :
    Grown w.vfs.fs fs ∧ Bounded fs := by
  rcases ho.leads with ⟨-, rfl⟩ | ⟨-, -, p, d, name, hc, rfl, -⟩
  · exact ⟨grown_refl _, hb⟩
  · exact ⟨grown_attach hc.2.2.1 name .file, hb.attach hc.2.2.1 name .file⟩

theorem openFile_ok (h : Linked w.vfs.fs) {n : Node} (ho : Openable w path options fs i n)
    (ht : options.truncate = true → options.write = true) :
    openFile w path options = some (.ok (slot w.vfs.openFiles % 2 ^ 32),
      (w.setFs (options.emptied fs i n)).setOpenFiles (place w.vfs.openFiles (options.entry i n))) := by
  have hlive : (w.setFs fs).vfs.fs.get? i = some n := ho.live
  rw [openFile_openable h ho, openInode_eq hlive ho.file ht]
  rfl

/-- Everything `open` can do. -/
theorem openFile_outcome (h : Linked w.vfs.fs) {r : Except String Nat × World}
    (hr : openFile w path options = some r) :
    (∃ e, r = (.error e, w)) ∨ ∃ fs i n, Openable w path options fs i n ∧
      ((options.truncate = true ∧ options.write = false ∧
          r = (.error "truncate requires write access", w.setFs fs)) ∨
        ((options.truncate = true → options.write = true) ∧
          r = (.ok (slot w.vfs.openFiles % 2 ^ 32),
            (w.setFs (options.emptied fs i n)).setOpenFiles (place w.vfs.openFiles (options.entry i n))))) := by
  obtain ⟨abs, habs, -⟩ := bind_eq_some_iff.mp hr
  by_cases hyes : Accepts w path options ∧ ∃ fs i, Leads w path options fs i
  · obtain ⟨ha, fs, i, hl⟩ := hyes
    have hopen := openFile_leads h ha hl
    rw [hr] at hopen
    by_cases hfile : ∃ n, fs.get? i = some n ∧ n.kind = .file
    · obtain ⟨n, hn, hk⟩ := hfile
      refine .inr ⟨fs, i, n, ⟨ha, hl, hn, hk⟩, ?_⟩
      have hn' : (w.setFs fs).vfs.fs.get? i = some n := hn
      by_cases ht : options.truncate = true ∧ options.write = false
      · rw [openInode_truncate hn' hk ht.1 ht.2] at hopen
        exact .inl ⟨ht.1, ht.2, some.inj hopen⟩
      · have ht' : options.truncate = true → options.write = true := by
          intro htr
          cases hwr : options.write with
          | true => rfl
          | false => exact absurd ⟨htr, hwr⟩ ht
        rw [openInode_eq hn' hk ht'] at hopen
        exact .inr ⟨ht', some.inj hopen⟩
    · -- what is not a file was there before
      have hsame : fs = w.vfs.fs := by
        rcases hl with ⟨-, rfl⟩ | ⟨-, -, p, d, name, hc, rfl, rfl⟩
        · rfl
        · exact absurd ⟨_, (hc.resolve_eq h .file).2, rfl⟩ hfile
      subst hsame
      obtain ⟨e, he⟩ : ∃ e, openInode w i options = (.error e, w) :=
        openInode_refused fun n hn hk => hfile ⟨n, hn, hk⟩
      rw [show w.setFs w.vfs.fs = w from rfl, he] at hopen
      exact .inl ⟨e, some.inj hopen⟩
  · obtain ⟨e, he⟩ := openFile_refused habs fun ha fs i hl => hyes ⟨ha, fs, i, hl⟩
    rw [hr] at he
    exact .inl ⟨e, some.inj he⟩

theorem openable_or_refused (h : Linked w.vfs.fs) {abs : Str}
    (habs : w.vfs.fs.normalizedPath path = some abs) (options : OpenOptions) :
    (∃ fs i n, Openable w path options fs i n) ∨ ∃ e, openFile w path options = some (.error e, w) := by
  obtain ⟨r, hr⟩ := openFile_returns habs options
  rcases openFile_outcome h hr with ⟨e, rfl⟩ | ⟨fs, i, n, ho, -⟩
  · exact .inr ⟨e, hr⟩
  · exact .inl ⟨fs, i, n, ho⟩

end

/-! ## Calls on a descriptor -/

section
variable {w : World} {fd : Nat} {file : OpenFile}

theorem getElem?_cases (files : List (Option OpenFile)) (fd : Nat) :
    (∃ file, files[fd]? = some (some file)) ∨ ∀ file, files[fd]? ≠ some (some file) := by
  by_cases h : ∃ file, files[fd]? = some (some file)
  · exact .inl h
  · exact .inr fun file hf => h ⟨file, hf⟩

theorem close_open (h : w.vfs.openFiles[fd]? = some (some file)) :
    close w fd = (.ok (), w.setOpenFiles (w.vfs.openFiles.set fd none)) := by
  rw [close, closeFd, h]

theorem close_bad (h : ∀ file, w.vfs.openFiles[fd]? ≠ some (some file)) :
    close w fd = (.error "bad file descriptor", w) := by
  have hclose : closeFd w.vfs.openFiles fd = (.error "bad file descriptor", w.vfs.openFiles) := by
    unfold closeFd
    split
    · rename_i f hf; exact absurd hf (h f)
    · rfl
  rw [close, hclose]
  rfl

variable {n : Node} (h : w.vfs.openFiles[fd]? = some (some file))

include h

/-- A `read` through a live descriptor fails only for want of access ... -/
theorem read_readable (hn : w.vfs.fs.get? file.inode = some n) (hk : n.kind = .file)
    (hread : file.readable = true) (maxLen : Nat) : ∃ data, (read w fd maxLen).1 = .ok data := by
  rw [read, getOpenFile_ok.mpr h]
  simp only
  rw [if_neg (by rw [hread]; exact Bool.noConfusion), readInodeRange_file hn hk]
  exact ⟨_, rfl⟩

theorem read_unreadable (hread : file.readable = false) (maxLen : Nat) :
    read w fd maxLen = (.error "file descriptor is not readable", w) := by
  rw [read, getOpenFile_ok.mpr h]
  exact if_pos hread

/-- ... and so does a `write`. -/
theorem write_writable (hn : w.vfs.fs.get? file.inode = some n) (hk : n.kind = .file)
    (hwrite : file.writable = true) (data : List UInt8) : (write w fd data).1 = .ok data.length := by
  have hoffset : ∃ offset, (if file.append then w.vfs.fs.inodeLen file.inode else .ok file.offset) =
      (.ok offset : Except String Nat) := by
    split
    · exact ⟨_, inodeLen_file hn hk⟩
    · exact ⟨_, rfl⟩
  obtain ⟨offset, hoffset⟩ := hoffset
  rw [write, getOpenFile_ok.mpr h]
  simp only
  rw [if_neg (by rw [hwrite]; exact Bool.noConfusion), hoffset]
  simp only
  rw [World.viaFs, writeInodeAt_file hn hk]

theorem write_unwritable (hwrite : file.writable = false) (data : List UInt8) :
    write w fd data = (.error "file descriptor is not writable", w) := by
  rw [write, getOpenFile_ok.mpr h]
  exact if_pos hwrite

end

/-! ## What the table holds -/

/-- What an open descriptor gives access to. -/
structure Access where
  inode : Nat
  readable : Bool
  writable : Bool
  append : Bool
  deriving DecidableEq

def OpenFile.access (file : OpenFile) : Access := ⟨file.inode, file.readable, file.writable, file.append⟩

def OpenOptions.access (options : OpenOptions) (i : Nat) : Access :=
  ⟨i, options.read, options.write, options.append⟩

/-- The access behind a descriptor number. -/
def held (files : List (Option OpenFile)) (fd : Nat) : Option Access := files[fd]?.join.map OpenFile.access

section
variable {files : List (Option OpenFile)}

theorem held_eq_some {a : Access} :
    held files fd = some a ↔ ∃ file, files[fd]? = some (some file) ∧ file.access = a := by
  unfold held
  rcases files[fd]? with _ | _ | file
  · simp
  · simp
  · simp

theorem held_eq_none : held files fd = none ↔ ∀ file, files[fd]? ≠ some (some file) := by
  unfold held
  rcases files[fd]? with _ | _ | file
  · simp
  · simp
  · simp

theorem held_slot : held files (slot files) = none := by
  rw [held_eq_none]
  intro file hfile
  have hfree : files[slot files]? = none ∨ files[slot files]? = some none := getElem?_slot
  rcases hfree with h | h
  · rw [h] at hfile; cases hfile
  · rw [h] at hfile; cases hfile

theorem held_setOffset (files : List (Option OpenFile)) (fd offset : Nat) :
    held (setOffset files fd offset) = held files := by
  funext j
  unfold held setOffset
  rw [getElem?_modify]
  split
  · rcases files[j]? with _ | _ | file <;> rfl
  · rcases files[j]? with _ | _ | file <;> rfl

theorem held_place (file : OpenFile) :
    held (place files file) = Function.update (held files) (slot files) (some file.access) := by
  funext j
  by_cases hj : j = slot files
  · subst hj
    rw [Function.update_self, held, getElem?_place]; rfl
  · rw [Function.update_of_ne hj, held, getElem?_place_ne hj, held]

theorem held_set (fd : Nat) : held (files.set fd none) = Function.update (held files) fd none := by
  funext j
  by_cases hj : j = fd
  · subst hj
    rw [Function.update_self, held_eq_none]
    intro file hfile
    rw [getElem?_set] at hfile
    simp only [if_true] at hfile
    split at hfile
    · cases hfile
    · cases hfile
  · rw [Function.update_of_ne hj, held, getElem?_set_ne (Ne.symm hj), held]

theorem close_held {w : World} {a : Access} (h : held files fd = some a) :
    close (w.setOpenFiles files) fd = (.ok (), w.setOpenFiles (files.set fd none)) := by
  obtain ⟨file, hfile, -⟩ := held_eq_some.mp h
  exact close_open hfile

theorem held_invalidate (files : List (Option OpenFile)) (i fd : Nat) :
    held (invalidateInodeDescriptors files i) fd = (held files fd).filter fun a => a.inode ≠ i := by
  unfold held invalidateInodeDescriptors
  rw [getElem?_map]
  rcases files[fd]? with _ | _ | file
  · rfl
  · rfl
  · simp only [map_some]
    by_cases hi : file.inode = i
    · rw [if_pos hi]
      exact (if_neg (by simp [OpenFile.access, hi])).symm
    · rw [if_neg hi]
      exact (if_pos (by simp [OpenFile.access, hi])).symm

/-- Closing the descriptors of a file that nobody has open changes nothing. -/
theorem invalidate_eq_self (h : ∀ fd a, held files fd = some a → a.inode ≠ i) :
    invalidateInodeDescriptors files i = files := by
  refine ext_getElem? fun fd => ?_
  rw [invalidateInodeDescriptors, getElem?_map]
  rcases hs : files[fd]? with _ | _ | file
  · rfl
  · rfl
  · have hne : file.inode ≠ i := h fd _ (held_eq_some.mpr ⟨file, hs, rfl⟩)
    rw [map_some]
    simp only
    rw [if_neg hne]

end

end Saios.Vfs
