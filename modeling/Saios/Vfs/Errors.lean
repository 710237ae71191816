/-
  WHEN A FAILED CALL LEAVES THE VFS AS IT WAS, in every reachable state with no storage volume mounted.

  Most calls check everything before they change anything.  Four do not (`LeavesTraces`).

  1. `open` creates the file BEFORE it finds out that truncating needs write access.
  2. `rename` takes the node out of its old directory BEFORE it finds out that there is no new one; an
     unlinked file can leave such a place behind, because a rename may move nodes below a file.
  3. `unlink` closes the descriptors of the file BEFORE it finds out that the directory it would take the
     file out of is gone, which happens the same way.
  4. `read_path` and `write_path` go on with the NUMBER that their open returned; once the first `2^32`
     descriptors are taken it is another open file, which is closed whether or not it can be used.

  In all other cases a call that returns an error has changed nothing (`errors_change_nothing_iff`).
-/
import Saios.Vfs.ReadBack

namespace Saios.Vfs

open Path TmpFs Option

/-- The path leads to a file. -/
def FileAt (fs : TmpFs) (path : Str) : Prop :=
  ∃ i n, fs.resolve path = .ok i ∧ fs.get? i = some n ∧ n.kind = .file

/-- The next descriptor number is that of an open file with this property. -/
def Wraps (w : World) (bad : OpenFile → Prop) : Prop :=
  2 ^ 32 ≤ slot w.vfs.openFiles ∧
    ∃ g, w.vfs.openFiles[slot w.vfs.openFiles % 2 ^ 32]? = some (some g) ∧ bad g

/-- The calls that fail after they have changed something. -/
def LeavesTraces (w : World) : Call → Prop
  | .openFile path options =>
      options.read = true ∧ options.write = false ∧ options.create = true ∧ options.truncate = true ∧
        OutsideSys w path ∧ ∃ p d name, Creatable w.vfs.fs path p d name
  | .rename source target =>
      OutsideSys w source ∧ OutsideSys w target ∧ ∃ i n p d q name, w.vfs.fs.resolve source = .ok i ∧
        w.vfs.fs.get? i = some n ∧ n.parent = some p ∧ w.vfs.fs.get? p = some d ∧ i ∈ d.children ∧
        w.vfs.fs.resolveParentAndName target = .ok (q, name) ∧ w.vfs.fs.get? q = none
  | .unlink path =>
      OutsideSys w path ∧ ∃ i n p, w.vfs.fs.resolve path = .ok i ∧ w.vfs.fs.get? i = some n ∧
        n.parent = some p ∧ w.vfs.fs.get? p = none ∧
        ∃ fd a, held w.vfs.openFiles fd = some a ∧ a.inode = i
  | .readPath path => OutsideSys w path ∧ FileAt w.vfs.fs path ∧ Wraps w fun g => g.readable = false
  | .writePath path _ =>
      OutsideSys w path ∧ (FileAt w.vfs.fs path ∨ ∃ p d name, Creatable w.vfs.fs path p d name) ∧
        Wraps w fun g => g.writable = false
  | _ => False

/-- An error leaves the VFS as it was. -/
def CleanErrors {α : Type} (w : World) (o : Option (Except String α × World)) : Prop :=
  ∀ e w', o = some (.error e, w') → w'.vfs = w.vfs

theorem cleanErrors_map {α : Type} {w : World} {o : Option (Except String α × World)} {ok : α → Reply}
    (hok : ∀ a e, ok a ≠ .failed e) :
    (∀ e w', o.map (reply ok) = some (.failed e, w') → w'.vfs = w.vfs) ↔ CleanErrors w o := by
  constructor
  · intro h e w' ho
    exact h e w' (by rw [ho]; rfl)
  · intro h e w' ho
    obtain ⟨⟨q, v⟩, hq, heq⟩ := map_eq_some_iff.mp ho
    obtain ⟨hreply, rfl⟩ := Prod.mk.inj heq
    cases q with
    | ok a => exact absurd hreply (hok a e)
    | error e' => exact h e' v hq

section clean

variable {w : World}

theorem clean_createCall
    {storageCall : Storage.StorageState → Str → Except String Unit × Storage.StorageState}
    {kind : FileType} {fsCall : TmpFs → Str → Except String Unit × TmpFs}
    (hfs : ∀ fs path, fsCall fs path = createAs fs path kind) (path : Str) :
    CleanErrors w (createCall storageCall fsCall w path) := by
  intro e w' hr
  rcases createCall_cases hr with hf | ⟨-, he⟩
  · exact hf.vfs
  rw [hfs] at he
  rcases createAs_cases w.vfs.fs path kind with ⟨e', hc⟩ | ⟨p, name, d, -, -, -, -, hc⟩
  · rw [hc] at he; cases he; rfl
  · rw [hc] at he; cases he

theorem clean_mount (path fsName : Str) (readOnly : Bool) : CleanErrors w (mount w path fsName readOnly) := by
  intro e w' hr
  obtain ⟨abs, -, hr⟩ := bind_eq_some_iff.mp hr
  split at hr
  · cases hr; rfl
  split at hr
  · cases hr; rfl
  split at hr
  · cases hr; rfl
  split at hr
  · cases hr; rfl
  · cases hr

theorem clean_umount (path : Str) : CleanErrors w (umount w path) := by
  intro e w' hr
  obtain ⟨abs, -, hr⟩ := bind_eq_some_iff.mp hr
  split at hr
  · cases hr; rfl
  simp only at hr
  split at hr
  · rename_i hlen
    cases hr
    -- a filter that drops nothing
    have hsame := (List.filter_sublist).eq_of_length hlen
    rw [hsame]
  · cases hr

/-- A call that can only fail untouched. -/
theorem clean_of_cases {α : Type} {r : Except String α × World}
    (h : (∃ e, r = (.error e, w)) ∨ ∃ a w', r = (.ok a, w')) : CleanErrors w (some r) := by
  intro e w' hr
  rcases h with ⟨e', rfl⟩ | ⟨a, v, rfl⟩
  · cases hr; rfl
  · cases hr

theorem clean_close (fd : Nat) : CleanErrors w (some (close w fd)) := by
  refine clean_of_cases ?_
  rcases getElem?_cases w.vfs.openFiles fd with ⟨file, hfile⟩ | hbad
  · exact .inr ⟨_, _, close_open hfile⟩
  · exact .inl ⟨_, close_bad hbad⟩

theorem clean_read (fd maxLen : Nat) : CleanErrors w (some (read w fd maxLen)) := by
  refine clean_of_cases ?_
  rcases read_cases w fd maxLen with he | ⟨file, data, -, -, -, hr⟩
  · exact .inl he
  · exact .inr ⟨_, _, hr⟩

theorem clean_write (fd : Nat) (data : List UInt8) : CleanErrors w (some (write w fd data)) := by
  refine clean_of_cases ?_
  rcases write_cases w fd data with he | ⟨file, n, offset, -, -, -, -, -, hr⟩
  · exact .inl he
  · exact .inr ⟨_, _, hr⟩

theorem clean_seek (fd : Nat) (origin : SeekFrom) : CleanErrors w (some (seek w fd origin)) := by
  refine clean_of_cases ?_
  rcases seek_cases w fd origin with he | ⟨file, size, offset, -, -, hr⟩
  · exact .inl he
  · exact .inr ⟨_, _, hr⟩

theorem clean_cd (path : Str) : CleanErrors w (some (cd w path)) := by
  refine clean_of_cases ?_
  rcases cd_cases w path with he | ⟨i, n, -, -, -, hr⟩
  · exact .inl he
  · exact .inr ⟨_, _, hr⟩

end clean

/-! ## The four that do not -/

section traces

variable {w : World} (h : Steady w)

include h

theorem clean_openFile_iff (path : Str) (options : OpenOptions) :
    CleanErrors w (openFile w path options) ↔ ¬LeavesTraces w (.openFile path options) := by
  constructor
  · rintro hclean ⟨hread, hwrite, hcreate, htrunc, ⟨abs, habs, hsys⟩, p, d, name, hc⟩
    obtain ⟨-, hnew⟩ := hc.resolve_eq h.sys.linked .file
    have ho : Openable w path options (w.vfs.fs.attach p d name .file) w.vfs.fs.nextInode
        (newNode w.vfs.fs.nextInode p name .file) := by
      refine ⟨⟨abs, habs, writable_of_not_sys hsys options, fun hno => ?_⟩,
        Or.inr ⟨hcreate, ⟨abs, habs, hsys⟩, p, d, name, hc, rfl, rfl⟩, hnew, rfl⟩
      rw [hread] at hno; exact Bool.noConfusion hno.1
    have hfail := openFile_openable h.sys.linked ho
    rw [openInode_truncate hnew rfl htrunc hwrite] at hfail
    -- the file that was made is still there
    have hsame : w.vfs.fs.attach p d name .file = w.vfs.fs := congrArg VfsState.fs (hclean _ _ hfail)
    rw [hsame, get?_nextInode] at hnew
    cases hnew
  · intro hno e w' hr
    rcases openFile_outcome h.sys.linked hr with ⟨e', he⟩ | ⟨fs, i, n, ho, ⟨htrunc, hwrite, he⟩ | ⟨-, he⟩⟩
    · obtain ⟨-, rfl⟩ := Prod.mk.inj he; rfl
    · obtain ⟨-, rfl⟩ := Prod.mk.inj he
      rcases ho.leads with ⟨-, rfl⟩ | ⟨hcreate, hout, p, d, name, hc, -, -⟩
      · rfl
      · refine absurd ⟨?_, hwrite, hcreate, htrunc, hout, p, d, name, hc⟩ hno
        obtain ⟨-, -, -, hacc⟩ := ho.accepts
        cases hread : options.read with
        | true => rfl
        | false => exact absurd ⟨hread, hwrite⟩ hacc
    · cases he

theorem clean_rename_iff (hno : NoVolumeMounted w.storage) (source target : Str) :
    CleanErrors w (rename w source target) ↔ ¬LeavesTraces w (.rename source target) := by
  constructor
  · rintro hclean ⟨⟨absFrom, hfrom, hsysFrom⟩, ⟨absTo, hto, hsysTo⟩, i, n, p, d, q, name, hs, hn, hpar, hd,
      hmem, ht, hq⟩
    have hroot := h.sys.linked.ne_root hn hpar
    have hl : w.vfs.fs.lookupChildByName q name = none := by rw [lookup_eq, hq]; rfl
    obtain ⟨e, he⟩ := renamePath_missing hs hroot ht hl hn hpar hd hq
    have hfail : rename w source target = some (.error e, w.setFs (w.vfs.fs.unlinked i p d)) := by
      unfold rename
      simp only [hfrom, hto, bind_eq_bind, bind_some, hsysFrom, hsysTo,
        not_storageBacked hno, Bool.or_false, Bool.false_eq_true, if_false, World.viaFs, he]
    -- the node is no longer listed
    have hsame : w.vfs.fs.unlinked i p d = w.vfs.fs := congrArg VfsState.fs (hclean _ _ hfail)
    have hview := get?_unlinked hd i p
    rw [hsame, hd, map_some, if_pos rfl, some.injEq] at hview
    have hchildren := congrArg Node.children hview
    rw [hchildren] at hmem
    exact of_decide_eq_true (List.mem_filter.mp hmem).2 rfl
  · intro htraces e w' hr
    rcases rename_cases hr with hf | ⟨hfrom, hto, he⟩
    · exact hf.vfs
    rcases renamePath_outcome w.vfs.fs source target with
      ⟨e', hren⟩ | ⟨i, q, name, n, p, d, hs, -, ht, -, hn, hpar, hd, ⟨hq, e', hren⟩ | ⟨m, k, -, hren⟩⟩
    · rw [hren] at he
      obtain ⟨-, rfl⟩ := Prod.mk.inj he; rfl
    · rw [hren] at he
      obtain ⟨-, rfl⟩ := Prod.mk.inj he
      have hmem : i ∉ d.children := fun hmem =>
        htraces ⟨hfrom.outsideSys, hto.outsideSys, i, n, p, d, q, name, hs, hn, hpar, hd, hmem, ht, hq⟩
      have hfilter : d.children.filter (· ≠ i) = d.children :=
        List.filter_eq_self.mpr fun c hc => decide_eq_true fun hci => hmem (hci ▸ hc)
      show ({ w.vfs with fs := w.vfs.fs.unlinked i p d } : VfsState) = w.vfs
      rw [unlinked, hfilter, put_self hd]
    · rw [hren] at he
      cases he

theorem clean_unlink_iff (hno : NoVolumeMounted w.storage) (path : Str) :
    CleanErrors w (unlink w path) ↔ ¬LeavesTraces w (.unlink path) := by
  constructor
  · rintro hclean ⟨⟨abs, habs, hsys⟩, i, n, p, hr, hn, hpar, hp, fd, a, ha, rfl⟩
    obtain ⟨m, hm, hk⟩ := h.live fd a ha
    obtain rfl := mem_unique hn hm
    obtain ⟨e, he⟩ := node_error hp
    have hrem : w.vfs.fs.remove path = (.error e, w.vfs.fs) := by
      rw [TmpFs.remove, hr]
      simp only [removeInode, if_neg (h.sys.linked.ne_root hn hpar), node_ok.mpr hn, hpar, modifyNode, he]
      refine if_neg fun hdir => ?_
      rw [hk] at hdir
      cases hdir.1
    have hfail : unlink w path = some (.error e,
        w.setOpenFiles (invalidateInodeDescriptors w.vfs.openFiles a.inode)) := by
      unfold unlink
      simp only [habs, bind_eq_bind, bind_some, hsys, not_storageBacked hno, hr]
      have hfs : (w.setOpenFiles (invalidateInodeDescriptors w.vfs.openFiles a.inode)).vfs.fs = w.vfs.fs := rfl
      rw [hfs, hrem]
      rfl
    -- the descriptor is closed
    have hsame : invalidateInodeDescriptors w.vfs.openFiles a.inode = w.vfs.openFiles :=
      congrArg VfsState.openFiles (hclean _ _ hfail)
    have hclosed := held_invalidate w.vfs.openFiles a.inode fd
    rw [hsame, ha, filter_some, if_neg (by simp)] at hclosed
    cases hclosed
  · intro htraces e w' hr
    rcases unlink_cases hr with hf | ⟨i, hon, hres, he⟩
    · exact hf.vfs
    rw [TmpFs.remove, hres] at he
    simp only at he
    rcases removeInode_cases w.vfs.fs i with ⟨e', hrem⟩ | ⟨m, -, -, -, ⟨-, hrem⟩ | ⟨p, d, -, -, hrem⟩⟩
    · rw [hrem] at he
      obtain ⟨-, rfl⟩ := Prod.mk.inj he
      -- nobody has the file open: if somebody had, only a missing parent could have stopped the removal
      have hnobody : ∀ fd a, held w.vfs.openFiles fd = some a → a.inode ≠ i := by
        rintro fd a ha rfl
        obtain ⟨n, hn, hk⟩ := h.live fd a ha
        have hroot : a.inode ≠ w.vfs.fs.root := by
          intro heq
          obtain ⟨r, hr, hdir, -⟩ := h.sys.listed
          rw [heq, h.sys.root, hr] at hn
          obtain rfl := some.inj hn
          rw [hk] at hdir; cases hdir
        obtain ⟨p, hpar⟩ := h.sys.linked.parent hn hroot
        cases hp : w.vfs.fs.get? p with
        | none => exact htraces ⟨hon.outsideSys, _, n, p, hres, hn, hpar, hp, fd, a, ha, rfl⟩
        | some d =>
          have hempty : ¬(n.kind = .directory ∧ n.children ≠ []) := by
            intro hdir
            rw [hk] at hdir
            cases hdir.1
          rw [removeInode_ok hroot hn hempty hpar hp] at hrem
          cases hrem
      show ({ w.vfs with openFiles := invalidateInodeDescriptors w.vfs.openFiles i } : VfsState) = w.vfs
      rw [invalidate_eq_self hnobody]
    · rw [hrem] at he; cases he
    · rw [hrem] at he; cases he

omit h in
/-- A wrapped open and close leave the new descriptor behind. -/
theorem held_wrapped {files files' : List (Option OpenFile)} {file : OpenFile} (hwrap : 2 ^ 32 ≤ slot files)
    (hheld : held files' = held (place files file)) :
    held (files'.set (slot files % 2 ^ 32) none) ≠ held files := by
  intro hsame
  have hne : slot files ≠ slot files % 2 ^ 32 := by
    omega
  have hslot := congrFun (held_passed hheld (slot files % 2 ^ 32)) (slot files)
  rw [hsame, held_slot, Function.update_of_ne hne, Function.update_self] at hslot
  cases hslot

omit h in
/-- The table after a wrapped open is not the table before it. -/
theorem held_wrapped_ne {files files' : List (Option OpenFile)} {file : OpenFile} (hwrap : 2 ^ 32 ≤ slot files)
    (hheld : held files' = held (place files file)) :
    files'.set (slot files % 2 ^ 32) none ≠ files :=
  fun hsame => held_wrapped hwrap hheld (congrArg held hsame)

omit h in
/-- Where a path can be opened there is a file, or room for one. -/
theorem Openable.fileAt_or_creatable {path : Str} {options : OpenOptions} {fs : TmpFs} {i : Nat} {n : Node}
    (ho : Openable w path options fs i n) :
    FileAt w.vfs.fs path ∨ ∃ p d name, Creatable w.vfs.fs path p d name := by
  have hlive := ho.live
  rcases ho.leads with ⟨hres, rfl⟩ | ⟨-, -, p, d, name, hc, -, -⟩
  · exact .inl ⟨i, n, hres, hlive, ho.file⟩
  · exact .inr ⟨p, d, name, hc⟩

theorem clean_readPath_iff (hno : NoVolumeMounted w.storage) (path : Str) :
    CleanErrors w (readPath w path) ↔ ¬LeavesTraces w (.readPath path) := by
  constructor
  · rintro hclean ⟨⟨abs, habs, hsys⟩, ⟨i, n, hr, hn, hk⟩, hwrap, bad, hbad, hread⟩
    have ho : Openable w path .readOnly w.vfs.fs i n :=
      ⟨⟨abs, habs, writable_of_not_sys hsys _, by decide⟩, Or.inl ⟨hr, rfl⟩, hn, hk⟩
    obtain ⟨g, files, r, hden, hok, hheld, hr⟩ :=
      readPath_openable habs (not_storageBacked hno abs) h.sys.linked h.live hsys ho
    rcases hden with ⟨hfits, -⟩ | ⟨-, hg⟩
    · omega
    obtain rfl := some.inj (mem_unique hbad hg)
    cases r with
    | ok => cases hok.trans hread
    | error e => exact held_wrapped_ne hwrap hheld (congrArg VfsState.openFiles (hclean _ _ hr))
  · intro htraces e w' hr
    rcases readPath_outcome h.sys.linked h.live hr with
      hsame | ⟨i, n, g, files, ⟨abs, habs, hsys, -⟩, ho, hden, hread, -, -⟩
    · exact hsame
    obtain ⟨hres, -⟩ := ho.leads.uncreated rfl
    rcases hden with ⟨-, rfl⟩ | ⟨hwrap, hg⟩
    · cases hread
    · exact absurd ⟨⟨abs, habs, hsys⟩, ⟨i, n, hres, ho.live, ho.file⟩, hwrap, g, hg, hread.symm⟩ htraces

theorem clean_writePath_iff (hno : NoVolumeMounted w.storage) (path : Str) (data : List UInt8) :
    CleanErrors w (writePath w path data) ↔ ¬LeavesTraces w (.writePath path data) := by
  constructor
  · rintro hclean ⟨⟨abs, habs, hsys⟩, htarget, hwrap, bad, hbad, hwrite⟩
    have ha : Accepts w path .writeOnlyCreate := ⟨abs, habs, writable_of_not_sys hsys _, by decide⟩
    obtain ⟨fs, i, n, ho⟩ : ∃ fs i n, Openable w path .writeOnlyCreate fs i n := by
      rcases htarget with ⟨i, n, hr, hn, hk⟩ | ⟨p, d, name, hc⟩
      · exact ⟨_, i, n, ha, Or.inl ⟨hr, rfl⟩, hn, hk⟩
      · exact ⟨_, _, _, ha, Or.inr ⟨rfl, ⟨abs, habs, hsys⟩, p, d, name, hc, rfl, rfl⟩,
          (hc.resolve_eq h.sys.linked .file).2, rfl⟩
    obtain ⟨g, m, new, files, r, hden, hok, -, hheld, hr⟩ :=
      writePath_openable habs (not_storageBacked hno abs) h.sys.linked h.live ho data
    rcases hden with ⟨hfits, -⟩ | ⟨-, hg⟩
    · omega
    obtain rfl := some.inj (mem_unique hbad hg)
    cases r with
    | ok => cases hok.trans hwrite
    | error e => exact held_wrapped_ne hwrap hheld (congrArg VfsState.openFiles (hclean _ _ hr))
  · intro htraces e w' hr
    rcases writePath_outcome h.sys.linked h.live hr with
      hsame | ⟨fs, i, n, g, m, new, files, ⟨abs, habs, hsys, -⟩, ho, hden, hwrite, -⟩
    · exact hsame
    rcases hden with ⟨-, rfl⟩ | ⟨hwrap, hg⟩
    · cases hwrite
    · exact absurd ⟨⟨abs, habs, hsys⟩, ho.fileAt_or_creatable, hwrap, g, hg, hwrite.symm⟩ htraces

end traces

/-! ## Reachable states -/

/-- **When errors change nothing.**  In every reachable state with no storage volume mounted, and for every
    call with any arguments: if the call returns an error, the node tree with the file contents and the
    working directory, the descriptor table and the mount table are as they were, EXACTLY unless the call
    is one of the four kinds that fail half-way. -/
theorem errors_change_nothing_iff (w : World) (hw : Reachable w) (hno : NoVolumeMounted w.storage)
    (call : Call) :
    (∀ e w', exec w call = some (.failed e, w') → w'.vfs = w.vfs) ↔ ¬LeavesTraces w call := by
  have h := hw.steady
  have hdone : ∀ (a : Unit) (e : String), (fun _ : Unit => Reply.done) a ≠ .failed e := by rintro _ _ ⟨⟩
  -- the calls that are always clean
  have hclean : ∀ {P : Prop}, P → (P ↔ ¬False) := fun hp => ⟨fun _ hf => hf, fun _ => hp⟩
  have hsome : ∀ {α : Type} {r : Except String α × World} {ok : α → Reply}, (∀ a e, ok a ≠ .failed e) →
      CleanErrors w (some r) → ∀ e w', some (reply ok r) = some (.failed e, w') → w'.vfs = w.vfs :=
    fun hok hc => (cleanErrors_map hok).mpr hc
  cases call with
  | mkdir path => exact hclean ((cleanErrors_map hdone).mpr (clean_createCall (fun _ _ => rfl) path))
  | touch path => exact hclean ((cleanErrors_map hdone).mpr (clean_createCall (fun _ _ => rfl) path))
  | mount path fsName readOnly => exact hclean ((cleanErrors_map hdone).mpr (clean_mount path fsName readOnly))
  | umount path => exact hclean ((cleanErrors_map hdone).mpr (clean_umount path))
  | openFile path options => exact (cleanErrors_map (by rintro _ _ ⟨⟩)).trans (clean_openFile_iff h path options)
  | close fd => exact hclean (hsome hdone (clean_close fd))
  | read fd maxLen => exact hclean (hsome (by rintro _ _ ⟨⟩) (clean_read fd maxLen))
  | write fd data => exact hclean (hsome (by rintro _ _ ⟨⟩) (clean_write fd data))
  | seek fd origin => exact hclean (hsome (by rintro _ _ ⟨⟩) (clean_seek fd origin))
  | ls path =>
    exact hclean ((cleanErrors_map (by rintro _ _ ⟨⟩)).mpr fun e w' hr => (ls_forwarded hr).vfs)
  | readPath path =>
    exact (cleanErrors_map (by rintro _ _ ⟨⟩)).trans (clean_readPath_iff h hno path)
  | unlink path => exact (cleanErrors_map hdone).trans (clean_unlink_iff h hno path)
  | rename source target => exact (cleanErrors_map hdone).trans (clean_rename_iff h hno source target)
  | cd path => exact hclean (hsome hdone (clean_cd path))
  | pwd =>
    refine hclean fun e w' hr => ?_
    obtain ⟨path, -, heq⟩ := Option.map_eq_some_iff.mp hr
    cases (Prod.mk.inj heq).1
  | writePath path data => exact (cleanErrors_map hdone).trans (clean_writePath_iff h hno path data)
  | openNode path =>
    exact hclean ((cleanErrors_map (by rintro _ _ ⟨⟩)).mpr fun e w' hr => (openNode_forwarded hr).vfs)

/-- To read, to create and to truncate, but not to write. -/
def readTruncate : OpenOptions :=
  { read := true, write := false, create := true, truncate := true, append := false }

/-- Right after boot, such an `open` of a new file fails and leaves the file behind. -/
theorem open_error_creates : ∃ w', exec quiet (.openFile "/tmp/x".toList readTruncate) =
    some (.failed "truncate requires write access", w') ∧ w'.vfs ≠ quiet.vfs := by
  obtain ⟨w', hw', hfs⟩ : ∃ w', exec quiet (.openFile "/tmp/x".toList readTruncate) =
      some (.failed "truncate requires write access", w') ∧ w'.vfs.fs.nodes.length = 40 := by
    rw [quiet_eq]
    exact ⟨_, rfl, by decide⟩
  refine ⟨w', hw', fun hsame => ?_⟩
  rw [hsame] at hfs
  have hbefore : quiet.vfs.fs.nodes.length = 39 := by rw [quiet_eq]; decide
  omega

theorem quiet_reachable : Reachable quiet := ⟨[], _, [], rfl⟩

/-- The same options on a file that is there fail and change nothing. -/
theorem open_error_existing : Reachable quiet ∧ NoVolumeMounted quiet.storage ∧
    ∀ e w', exec quiet (.openFile "/bin/ls".toList readTruncate) = some (.failed e, w') →
      w'.vfs = quiet.vfs := by
  refine ⟨quiet_reachable, quiet_noVolume, ?_⟩
  refine (errors_change_nothing_iff quiet quiet_reachable quiet_noVolume _).mpr ?_
  rintro ⟨-, -, -, -, -, p, d, name, hmissing, -⟩
  have hthere : isMissing quiet.vfs.fs "/bin/ls".toList = false := by rw [quiet_eq]; decide
  rw [hthere] at hmissing
  cases hmissing

end Saios.Vfs
