/-
  WHAT THE CALLS OF THE VFS CAN DO, said once for all of them.

  1. **Outcomes** — one lemma per call: it hands the path on to the storage behind a mounted volume
     (`Forwarded`), or it changes the mount records, the open files or the tmpfs, and how.

  2. **One rule for all calls** (`Kept.exec`) — the calls are put together from six kinds of changes of
     the world, and those that take a path are made only when its normalized form is outside `/sys`; so a
     property that these changes keep is kept by every call.  `rename` and `cd` move things and are left
     to whoever uses the rule.

  3. **Properties of the tmpfs** (`Edited.exec`, `Guarded.exec`) — the same rule for a property that looks
     at nothing else.

  4. **Returning** (`exec_returns`) — what may not end is the climb to the root, and nothing else.
-/
import Saios.Vfs.State
import Saios.Vfs.Table

namespace Saios.Vfs

open Path TmpFs Option

/-! ## Outcomes -/

/-- What `create` and `mkdir` can do. -/
theorem createAs_cases (fs : TmpFs) (path : Str) (kind : FileType) :
    (∃ e, fs.createAs path kind = (.error e, fs)) ∨
    ∃ p name d, fs.resolveParentAndName path = .ok (p, name) ∧ fs.get? p = some d ∧
      d.kind = .directory ∧ fs.lookupChildByName p name = none ∧
      fs.createAs path kind = (.ok (), fs.attach p d name kind) := by
  unfold createAs
  cases hr : fs.resolveParentAndName path with
  | error e => exact .inl ⟨e, rfl⟩
  | ok r =>
    obtain ⟨p, name⟩ := r
    simp only
    rcases insertNode_cases fs p name kind with ⟨e, he⟩ | ⟨d, hd, hk, hl, hins⟩
    · rw [he]; exact .inl ⟨e, rfl⟩
    · rw [hins]; exact .inr ⟨p, name, d, rfl, hd, hk, hl, rfl⟩

/-- The path is an ordinary one: it normalizes to something outside `/sys`. -/
def OutsideSys (w : World) (path : Str) : Prop :=
  ∃ abs, w.vfs.fs.normalizedPath path = some abs ∧ isSysPath abs = false

/-- The path is the business of the tmpfs: not in `/sys` and on no mounted volume. -/
def OnTmpfs (w : World) (path : Str) : Prop :=
  ∃ abs, w.vfs.fs.normalizedPath path = some abs ∧ isSysPath abs = false ∧ isStorageBacked w abs = false

theorem OnTmpfs.outsideSys {w : World} {path : Str} (h : OnTmpfs w path) : OutsideSys w path := by
  obtain ⟨abs, habs, hsys, -⟩ := h
  exact ⟨abs, habs, hsys⟩

/-- Nothing changed but the storage, if anything, and that only with a volume mounted. -/
def Forwarded (w w' : World) : Prop :=
  w' = w ∨ ∃ abs st, isStorageBacked w abs = true ∧ w' = { w with storage := st }

theorem Forwarded.vfs {w w' : World} (h : Forwarded w w') : w'.vfs = w.vfs := by
  rcases h with rfl | ⟨-, -, -, rfl⟩
  · rfl
  · rfl

variable {r : Except String Unit × World}

/-- What a call returns holds of its reply. -/
@[elab_as_elim]
theorem of_map_reply {α : Type} {o : Option (Except String α × World)} {ok : α → Reply}
    {motive : World → Prop} {r : Reply × World} (ho : o.map (reply ok) = some r)
    (h : ∀ q, o = some q → motive q.2) : motive r.2 := by
  obtain ⟨q, hq, rfl⟩ := map_eq_some_iff.mp ho
  exact h q hq

section outcomes

variable {w : World} {path : Str}

theorem createCall_cases
    {storageCall : Storage.StorageState → Str → Except String Unit × Storage.StorageState}
    {fsCall : TmpFs → Str → Except String Unit × TmpFs} (hr : createCall storageCall fsCall w path = some r) :
    Forwarded w r.2 ∨ OnTmpfs w path ∧ r = w.viaFs (fsCall w.vfs.fs path) := by
  obtain ⟨abs, habs, hr⟩ := bind_eq_some_iff.mp hr
  split at hr
  · cases hr; exact .inl (.inl rfl)
  rename_i hsys
  split at hr
  · rename_i hback
    cases hr; exact .inl (.inr ⟨abs, _, hback, rfl⟩)
  rename_i hback
  cases hr
  exact .inr ⟨⟨abs, habs, Bool.eq_false_of_not_eq_true hsys, Bool.eq_false_of_not_eq_true hback⟩, rfl⟩

theorem mount_mounts {fsName : Str} {readOnly : Bool} (hr : mount w path fsName readOnly = some r) :
    ∃ mounts, r.2 = { w with vfs := { w.vfs with mounts := mounts } } := by
  obtain ⟨abs, -, hr⟩ := bind_eq_some_iff.mp hr
  split at hr
  · cases hr; exact ⟨_, rfl⟩
  split at hr
  · cases hr; exact ⟨_, rfl⟩
  split at hr
  · cases hr; exact ⟨_, rfl⟩
  split at hr
  · cases hr; exact ⟨_, rfl⟩
  · cases hr; exact ⟨_, rfl⟩

theorem umount_mounts (hr : umount w path = some r) :
    ∃ mounts, r.2 = { w with vfs := { w.vfs with mounts := mounts } } := by
  obtain ⟨abs, -, hr⟩ := bind_eq_some_iff.mp hr
  split at hr
  · cases hr; exact ⟨_, rfl⟩
  simp only at hr
  split at hr
  · cases hr; exact ⟨_, rfl⟩
  · cases hr; exact ⟨_, rfl⟩

theorem ls_forwarded {path : Option Str} {r : Except String (List Str) × World} (hr : ls w path = some r) :
    Forwarded w r.2 := by
  obtain ⟨abs, -, hr⟩ := bind_eq_some_iff.mp hr
  split at hr
  · split at hr
    · cases hr; exact .inl rfl
    · cases hr; exact .inl rfl
  split at hr
  · rename_i hback
    cases hr; exact .inr ⟨abs, _, hback, rfl⟩
  split at hr
  · split at hr
    · cases hr; exact .inl rfl
    · cases hr; exact .inl rfl
  · cases hr; exact .inl rfl

theorem openNode_forwarded {r : Except String VNode × World} (hr : openNode w path = some r) :
    Forwarded w r.2 := by
  obtain ⟨abs, -, hr⟩ := bind_eq_some_iff.mp hr
  split at hr
  · rename_i hback
    split at hr
    · cases hr; exact .inr ⟨abs, _, hback, rfl⟩
    · cases hr; exact .inr ⟨abs, _, hback, rfl⟩
  · cases hr; exact .inl rfl

theorem readPath_cases {r : Except String (List UInt8) × World} (hr : readPath w path = some r) :
    Forwarded w r.2 ∨ OnTmpfs w path ∧ ∃ o v, openFile w path .readOnly = some (o, v) ∧
      (r.2 = v ∨ ∃ fd, r.2 = (close (read v fd (2 ^ 64 - 1)).2 fd).2) := by
  obtain ⟨abs, habs, hr⟩ := bind_eq_some_iff.mp hr
  split at hr
  · split at hr
    · cases hr; exact .inl (.inl rfl)
    · cases hr; exact .inl (.inl rfl)
  rename_i hsys
  split at hr
  · rename_i hback
    cases hr; exact .inl (.inr ⟨abs, _, hback, rfl⟩)
  rename_i hback
  obtain ⟨⟨o, v⟩, hopen, hr⟩ := bind_eq_some_iff.mp hr
  refine .inr ⟨⟨abs, habs, Bool.eq_false_of_not_eq_true hsys, Bool.eq_false_of_not_eq_true hback⟩, o, v,
    hopen, ?_⟩
  cases o with
  | error e => cases hr; exact .inl rfl
  | ok fd =>
    simp only at hr
    split at hr
    · cases hr; exact .inr ⟨fd, rfl⟩
    · cases hr; exact .inr ⟨fd, rfl⟩
    · cases hr; exact .inr ⟨fd, rfl⟩

/-- `write_path` does not look at `/sys` itself. -/
theorem writePath_cases {data : List UInt8} (hr : writePath w path data = some r) :
    Forwarded w r.2 ∨ ∃ abs o v, w.vfs.fs.normalizedPath path = some abs ∧ isStorageBacked w abs = false ∧
      openFile w path .writeOnlyCreate = some (o, v) ∧
      (r.2 = v ∨ ∃ fd, r.2 = (close (write v fd data).2 fd).2) := by
  obtain ⟨abs, habs, hr⟩ := bind_eq_some_iff.mp hr
  split at hr
  · rename_i hback
    cases hr; exact .inl (.inr ⟨abs, _, hback, rfl⟩)
  rename_i hback
  obtain ⟨⟨o, v⟩, hopen, hr⟩ := bind_eq_some_iff.mp hr
  refine .inr ⟨abs, o, v, habs, Bool.eq_false_of_not_eq_true hback, hopen, ?_⟩
  cases o with
  | error e => cases hr; exact .inl rfl
  | ok fd =>
    simp only at hr
    split at hr
    · cases hr; exact .inr ⟨fd, rfl⟩
    · cases hr; exact .inr ⟨fd, rfl⟩

theorem unlink_cases (hr : unlink w path = some r) :
    Forwarded w r.2 ∨ ∃ i, OnTmpfs w path ∧ w.vfs.fs.resolve path = .ok i ∧
      r = (w.setOpenFiles (invalidateInodeDescriptors w.vfs.openFiles i)).viaFs (w.vfs.fs.remove path) := by
  obtain ⟨abs, habs, hr⟩ := bind_eq_some_iff.mp hr
  split at hr
  · cases hr; exact .inl (.inl rfl)
  rename_i hsys
  split at hr
  · rename_i hback
    cases hr; exact .inl (.inr ⟨abs, _, hback, rfl⟩)
  rename_i hback
  split at hr
  · cases hr; exact .inl (.inl rfl)
  · rename_i i hres
    cases hr
    exact .inr ⟨i, ⟨abs, habs, Bool.eq_false_of_not_eq_true hsys, Bool.eq_false_of_not_eq_true hback⟩,
      hres, rfl⟩

/-- What `rename` can do: nothing to the VFS, or the tmpfs operation. -/
theorem rename_cases {source target : Str} (hr : rename w source target = some r) :
    Forwarded w r.2 ∨ OnTmpfs w source ∧ OnTmpfs w target ∧
      r = w.viaFs (w.vfs.fs.renamePath source target) := by
  obtain ⟨absFrom, hfrom, hr⟩ := bind_eq_some_iff.mp hr
  obtain ⟨absTo, hto, hr⟩ := bind_eq_some_iff.mp hr
  split at hr
  · cases hr; exact .inl (.inl rfl)
  rename_i hsys
  simp only [Bool.or_eq_true, not_or, Bool.not_eq_true] at hsys
  split at hr
  · rename_i hback
    cases hr
    rcases Bool.or_eq_true_iff.mp hback with hback | hback
    · exact .inl (.inr ⟨_, _, hback, rfl⟩)
    · exact .inl (.inr ⟨_, _, hback, rfl⟩)
  rename_i hback
  simp only [Bool.or_eq_true, not_or, Bool.not_eq_true] at hback
  cases hr
  exact .inr ⟨⟨absFrom, hfrom, hsys.1, hback.1⟩, ⟨absTo, hto, hsys.2, hback.2⟩, rfl⟩

theorem cd_cases (w : World) (path : Str) :
    (∃ e, cd w path = (.error e, w)) ∨ ∃ i n, w.vfs.fs.resolve path = .ok i ∧ w.vfs.fs.get? i = some n ∧
      n.kind = .directory ∧ cd w path = (.ok (), w.setFs { w.vfs.fs with cwd := i }) := by
  unfold cd
  split
  · exact .inl ⟨_, rfl⟩
  rename_i i hi
  split
  · exact .inl ⟨_, rfl⟩
  rename_i n hn
  split
  · exact .inl ⟨_, rfl⟩
  · rename_i hk
    exact .inr ⟨i, n, hi, node_ok.mp hn, not_not.mp hk, rfl⟩

theorem getOpenFile_ok {files : List (Option OpenFile)} {fd : Nat} {file : OpenFile} :
    getOpenFile files fd = .ok file ↔ files[fd]? = some (some file) := by
  unfold getOpenFile
  split
  · rename_i f hf
    rw [hf, Except.ok.injEq, some.injEq, some.injEq]
  · rename_i hne
    refine ⟨fun h => ?_, fun h => absurd h (hne file)⟩
    cases h

theorem read_cases (w : World) (fd maxLen : Nat) :
    (∃ e, read w fd maxLen = (.error e, w)) ∨
    ∃ file data, w.vfs.openFiles[fd]? = some (some file) ∧ file.readable = true ∧
      w.vfs.fs.readInodeRange file.inode file.offset maxLen = .ok data ∧
      read w fd maxLen = (.ok data,
        w.setOpenFiles (setOffset w.vfs.openFiles fd (Word.sadd file.offset data.length))) := by
  unfold read
  split
  · exact .inl ⟨_, rfl⟩
  rename_i file hfile
  split
  · exact .inl ⟨_, rfl⟩
  rename_i hread
  split
  · exact .inl ⟨_, rfl⟩
  · rename_i data hdata
    exact .inr ⟨file, data, getOpenFile_ok.mp hfile, Bool.eq_true_of_not_eq_false hread, hdata, rfl⟩

theorem write_cases (w : World) (fd : Nat) (data : List UInt8) :
    (∃ e, write w fd data = (.error e, w)) ∨
    ∃ file n offset, w.vfs.openFiles[fd]? = some (some file) ∧ file.writable = true ∧
      w.vfs.fs.get? file.inode = some n ∧ n.kind = .file ∧
      offset = (if file.append then n.data.length else file.offset) ∧
      write w fd data = (.ok data.length,
        (w.setFs (w.vfs.fs.setData file.inode n (writeData offset data n.data))).setOpenFiles
          (setOffset w.vfs.openFiles fd (Word.sadd offset data.length))) := by
  unfold write
  split
  · exact .inl ⟨_, rfl⟩
  rename_i file hfile
  split
  · exact .inl ⟨_, rfl⟩
  rename_i hwrite
  split
  · exact .inl ⟨_, rfl⟩
  rename_i offset hoffset
  rcases writeInodeAt_cases w.vfs.fs file.inode offset data with ⟨e, he⟩ | ⟨n, hn, hk, hw⟩
  · rw [he]; exact .inl ⟨e, rfl⟩
  · rw [hw]
    refine .inr ⟨file, n, offset, getOpenFile_ok.mp hfile, Bool.eq_true_of_not_eq_false hwrite, hn, hk,
      ?_, rfl⟩
    split at hoffset
    · rename_i happ
      rw [inodeLen_file hn hk] at hoffset
      rw [if_pos happ, Except.ok.inj hoffset]
    · rename_i happ
      rw [if_neg happ, Except.ok.inj hoffset]

theorem seek_cases (w : World) (fd : Nat) (origin : SeekFrom) :
    (∃ e, seek w fd origin = (.error e, w)) ∨
    ∃ file size offset, w.vfs.openFiles[fd]? = some (some file) ∧
      w.vfs.fs.inodeLen file.inode = .ok size ∧
      seek w fd origin = (.ok offset, w.setOpenFiles (setOffset w.vfs.openFiles fd offset)) := by
  unfold seek
  split
  · exact .inl ⟨_, rfl⟩
  rename_i file hfile
  split
  · exact .inl ⟨_, rfl⟩
  · rename_i size hsize
    exact .inr ⟨file, size, _, getOpenFile_ok.mp hfile, hsize, rfl⟩

theorem read_fs (w : World) (fd maxLen : Nat) : (read w fd maxLen).2.vfs.fs = w.vfs.fs := by
  rcases read_cases w fd maxLen with ⟨e, he⟩ | ⟨file, data, -, -, -, he⟩
  · rw [he]
  · rw [he]; rfl

theorem seek_fs (w : World) (fd : Nat) (origin : SeekFrom) : (seek w fd origin).2.vfs.fs = w.vfs.fs := by
  rcases seek_cases w fd origin with ⟨e, he⟩ | ⟨file, size, offset, -, -, he⟩
  · rw [he]
  · rw [he]; rfl

end outcomes

/-! ## One rule for all calls -/

/-- A property of the world that the changes made by the calls keep, apart from `rename` and `cd`. -/
structure Kept (P : World → Prop) : Prop where
  files : ∀ {w : World} (files : List (Option OpenFile)), P w → P (w.setOpenFiles files)
  mounts : ∀ {w : World} (mounts : List MountRecord), P w →
    P { w with vfs := { w.vfs with mounts := mounts } }
  storage : ∀ {w : World} {abs : Str} (st : Storage.StorageState), P w → isStorageBacked w abs = true →
    P { w with storage := st }
  createAs : ∀ {w : World} {path : Str} (kind : FileType), P w → OutsideSys w path →
    P (w.setFs (w.vfs.fs.createAs path kind).2)
  setData : ∀ {w : World} {i : Nat} {n : Node} (data : List UInt8), P w → w.vfs.fs.get? i = some n →
    n.kind = .file → P (w.setFs (w.vfs.fs.setData i n data))
  remove : ∀ {w : World} {path : Str}, P w → OutsideSys w path → P (w.setFs (w.vfs.fs.remove path).2)

section kept

variable {P : World → Prop} (h : Kept P) {w : World} (hw : P w)

include h hw

theorem Kept.forwarded {w' : World} (hf : Forwarded w w') : P w' := by
  rcases hf with rfl | ⟨abs, st, hback, rfl⟩
  · exact hw
  · exact h.storage st hw hback

theorem Kept.openInode (inode : Nat) (options : OpenOptions) : P (openInode w inode options).2 := by
  have htrunc : P (truncateFor w inode options).2 := by
    unfold truncateFor
    split
    · split
      · exact hw
      · rcases truncateInode_cases w.vfs.fs inode with ⟨e, he⟩ | ⟨n, hn, hk, ht⟩
        · rw [he]; exact hw
        · rw [ht]; exact h.setData [] hw hn hk
    · exact hw
  unfold Vfs.openInode
  split
  · exact hw
  split
  · exact hw
  split
  · rename_i heq
    rw [heq] at htrunc; exact htrunc
  · rename_i heq
    rw [heq] at htrunc
    split
    · exact htrunc
    · exact h.files _ htrunc

theorem Kept.openFile {path : Str} {options : OpenOptions} {r : Except String Nat × World}
    (hr : openFile w path options = some r) : P r.2 := by
  obtain ⟨abs, habs, hr⟩ := bind_eq_some_iff.mp hr
  have hcreate : P (createFor w path abs options).2 := by
    unfold createFor
    split
    · rename_i hc
      exact h.createAs .file hw ⟨abs, habs, hc.2.1⟩
    · exact hw
  split at hr
  · cases hr; exact hw
  split at hr
  · cases hr; exact hw
  split at hr
  · rename_i heq
    rw [heq] at hcreate
    cases hr; exact hcreate
  · rename_i heq
    rw [heq] at hcreate
    split at hr
    · cases hr; exact hcreate
    · cases hr; exact h.openInode hcreate _ options

theorem Kept.read (fd maxLen : Nat) : P (read w fd maxLen).2 := by
  rcases read_cases w fd maxLen with ⟨e, he⟩ | ⟨file, data, -, -, -, he⟩
  · rw [he]; exact hw
  · rw [he]; exact h.files _ hw

theorem Kept.write (fd : Nat) (data : List UInt8) : P (write w fd data).2 := by
  rcases write_cases w fd data with ⟨e, he⟩ | ⟨file, n, offset, -, -, hn, hk, -, he⟩
  · rw [he]; exact hw
  · rw [he]; exact h.files _ (h.setData _ hw hn hk)

/-- **A call keeps what its changes keep**; for `rename` and `cd` that is to be shown. -/
theorem Kept.exec {call : Call}
    (hrename : ∀ source target, call = .rename source target → OnTmpfs w source → OnTmpfs w target →
      P (w.setFs (w.vfs.fs.renamePath source target).2))
    (hcd : ∀ path i n, call = .cd path → w.vfs.fs.resolve path = .ok i → w.vfs.fs.get? i = some n →
      n.kind = .directory → P (w.setFs { w.vfs.fs with cwd := i }))
    {r : Reply × World} (hr : exec w call = some r) : P r.2 := by
  have hcreate : ∀ {path : Str} {kind : FileType} {q : Except String Unit × World},
      (Forwarded w q.2 ∨ OnTmpfs w path ∧ q = w.viaFs (w.vfs.fs.createAs path kind)) → P q.2 := by
    rintro path kind q (hf | ⟨hon, rfl⟩)
    · exact h.forwarded hw hf
    · exact h.createAs kind hw hon.outsideSys
  cases call with
  | mkdir path => exact of_map_reply hr fun q hq => hcreate (createCall_cases hq)
  | touch path => exact of_map_reply hr fun q hq => hcreate (createCall_cases hq)
  | mount path fsName readOnly =>
    refine of_map_reply hr fun q hq => ?_
    obtain ⟨mounts, he⟩ := mount_mounts hq
    rw [he]; exact h.mounts mounts hw
  | umount path =>
    refine of_map_reply hr fun q hq => ?_
    obtain ⟨mounts, he⟩ := umount_mounts hq
    rw [he]; exact h.mounts mounts hw
  | openFile path options => exact of_map_reply hr fun q hq => h.openFile hw hq
  | close fd => cases hr; exact h.files _ hw
  | read fd maxLen => cases hr; exact h.read hw fd maxLen
  | write fd data => cases hr; exact h.write hw fd data
  | seek fd origin =>
    cases hr
    rcases seek_cases w fd origin with ⟨e, he⟩ | ⟨file, size, offset, -, -, he⟩
    · rw [he]; exact hw
    · rw [he]; exact h.files _ hw
  | ls path => exact of_map_reply hr fun q hq => h.forwarded hw (ls_forwarded hq)
  | readPath path =>
    refine of_map_reply hr fun q hq => ?_
    rcases readPath_cases hq with hf | ⟨-, o, v, hopen, he | ⟨fd, he⟩⟩
    · exact h.forwarded hw hf
    · rw [he]; exact h.openFile hw hopen
    · rw [he]; exact h.files _ (h.read (h.openFile hw hopen) fd _)
  | unlink path =>
    refine of_map_reply hr fun q hq => ?_
    rcases unlink_cases hq with hf | ⟨i, hon, -, rfl⟩
    · exact h.forwarded hw hf
    · exact h.remove (h.files (invalidateInodeDescriptors w.vfs.openFiles i) hw) hon.outsideSys
  | rename source target =>
    refine of_map_reply hr fun q hq => ?_
    rcases rename_cases hq with hf | ⟨hfrom, hto, rfl⟩
    · exact h.forwarded hw hf
    · exact hrename source target rfl hfrom hto
  | cd path =>
    cases hr
    rcases cd_cases w path with ⟨e, he⟩ | ⟨i, n, hi, hn, hk, he⟩
    · rw [he]; exact hw
    · rw [he]; exact hcd path i n rfl hi hn hk
  | pwd =>
    obtain ⟨path, -, rfl⟩ := map_eq_some_iff.mp hr
    exact hw
  | writePath path data =>
    refine of_map_reply hr fun q hq => ?_
    rcases writePath_cases hq with hf | ⟨abs, o, v, -, -, hopen, he | ⟨fd, he⟩⟩
    · exact h.forwarded hw hf
    · rw [he]; exact h.openFile hw hopen
    · rw [he]; exact h.files _ (h.write (h.openFile hw hopen) fd data)
  | openNode path => exact of_map_reply hr fun q hq => h.forwarded hw (openNode_forwarded hq)

end kept

/-! ### Properties of the tmpfs -/

/-- A property of the tmpfs that its operations keep, on paths outside `/sys`. -/
structure Edited (P : TmpFs → Prop) : Prop where
  createAs : ∀ {fs : TmpFs} {path abs : Str} (kind : FileType), P fs →
    fs.normalizedPath path = some abs → isSysPath abs = false → P (fs.createAs path kind).2
  setData : ∀ {fs : TmpFs} {i : Nat} {n : Node} (data : List UInt8), P fs → fs.get? i = some n →
    n.kind = .file → P (fs.setData i n data)
  remove : ∀ {fs : TmpFs} {path abs : Str}, P fs → fs.normalizedPath path = some abs →
    isSysPath abs = false → P (fs.remove path).2

/-- The same with the operations that move. -/
structure Guarded (P : TmpFs → Prop) : Prop extends Edited P where
  renamePath : ∀ {fs : TmpFs} {source target absFrom absTo : Str}, P fs →
    fs.normalizedPath source = some absFrom → fs.normalizedPath target = some absTo →
    isSysPath absFrom = false → isSysPath absTo = false → P (fs.renamePath source target).2
  cd : ∀ {fs : TmpFs} {i : Nat} {n : Node}, P fs → fs.get? i = some n → P { fs with cwd := i }

theorem Edited.kept {P : TmpFs → Prop} (h : Edited P) : Kept fun w => P w.vfs.fs where
  files _ hw := hw
  mounts _ hw := hw
  storage _ hw _ := hw
  createAs kind hw hout := by
    obtain ⟨abs, habs, hsys⟩ := hout
    exact h.createAs kind hw habs hsys
  setData data hw hn hk := h.setData data hw hn hk
  remove hw hout := by
    obtain ⟨abs, habs, hsys⟩ := hout
    exact h.remove hw habs hsys

/-- **A call keeps what the operations keep** on paths outside `/sys`. -/
theorem Guarded.exec {P : TmpFs → Prop} (h : Guarded P) {w : World} (hw : P w.vfs.fs) {call : Call}
    {r : Reply × World} (hr : exec w call = some r) : P r.2.vfs.fs := by
  refine h.kept.exec hw ?_ (fun _ _ _ _ _ hn _ => h.cd hw hn) hr
  rintro source target - ⟨absFrom, hfrom, hsysFrom, -⟩ ⟨absTo, hto, hsysTo, -⟩
  exact h.renamePath hw hfrom hto hsysFrom hsysTo

/-! ## Returning -/

theorem normalizedPath_returns {fs : TmpFs} (h : fs.cwdPath ≠ none) (path : Str) :
    ∃ abs, fs.normalizedPath path = some abs := by
  obtain ⟨cwd, hcwd⟩ := ne_none_iff_exists'.mp h
  unfold normalizedPath
  rw [hcwd]
  split
  · exact ⟨_, rfl⟩
  · exact ⟨_, rfl⟩

section returns

variable {w : World}

theorem openFile_returns {path abs : Str} (habs : w.vfs.fs.normalizedPath path = some abs)
    (options : OpenOptions) : ∃ r, openFile w path options = some r := by
  unfold openFile
  rw [habs, bind_eq_bind, bind_some]
  repeat' split
  all_goals exact ⟨_, rfl⟩

variable (h : w.vfs.fs.cwdPath ≠ none)

include h

theorem bind_returns {α : Type} {rest : Str → Option α} (path : Str) (hrest : ∀ abs, ∃ r, rest abs = some r) :
    ∃ r, (w.vfs.fs.normalizedPath path).bind rest = some r := by
  obtain ⟨abs, habs⟩ := normalizedPath_returns h path
  rw [habs]; exact hrest abs

theorem createCall_returns {storageCall : Storage.StorageState → Str → Except String Unit × Storage.StorageState}
    {fsCall : TmpFs → Str → Except String Unit × TmpFs} (path : Str) :
    ∃ r, createCall storageCall fsCall w path = some r := by
  refine bind_returns h path fun abs => ?_
  repeat' split
  all_goals exact ⟨_, rfl⟩

/-- **Every call returns** if the path of the working directory can be found. -/
theorem exec_returns (call : Call) : ∃ r, exec w call = some r := by
  have hmap : ∀ {α : Type} {o : Option (Except String α × World)} {ok : α → Reply},
      (∃ r, o = some r) → ∃ r, o.map (reply ok) = some r := by
    rintro α o ok ⟨r, rfl⟩
    exact ⟨_, rfl⟩
  -- once the path is normalized, every branch ends in a result
  cases call with
  | mkdir path => exact hmap (createCall_returns h path)
  | touch path => exact hmap (createCall_returns h path)
  | mount path fsName readOnly =>
    refine hmap (bind_returns h path fun abs => ?_)
    repeat' split
    all_goals exact ⟨_, rfl⟩
  | umount path =>
    refine hmap (bind_returns h path fun abs => ?_)
    simp only
    repeat' split
    all_goals exact ⟨_, rfl⟩
  | openFile path options =>
    obtain ⟨abs, habs⟩ := normalizedPath_returns h path
    exact hmap (openFile_returns habs options)
  | close fd => exact ⟨_, rfl⟩
  | read fd maxLen => exact ⟨_, rfl⟩
  | write fd data => exact ⟨_, rfl⟩
  | seek fd origin => exact ⟨_, rfl⟩
  | ls path =>
    refine hmap (bind_returns h _ fun abs => ?_)
    repeat' split
    all_goals exact ⟨_, rfl⟩
  | readPath path =>
    obtain ⟨abs, habs⟩ := normalizedPath_returns h path
    obtain ⟨⟨o, v⟩, hopen⟩ := openFile_returns habs .readOnly
    refine hmap (bind_returns h path fun abs => ?_)
    simp only [hopen, bind_eq_bind, bind_some]
    repeat' split
    all_goals exact ⟨_, rfl⟩
  | unlink path =>
    refine hmap (bind_returns h path fun abs => ?_)
    repeat' split
    all_goals exact ⟨_, rfl⟩
  | rename source target =>
    refine hmap (bind_returns h source fun absFrom => bind_returns h target fun absTo => ?_)
    repeat' split
    all_goals exact ⟨_, rfl⟩
  | cd path => exact ⟨_, rfl⟩
  | pwd =>
    obtain ⟨cwd, hcwd⟩ := ne_none_iff_exists'.mp h
    exact ⟨(.path cwd, w), by rw [exec, pwd, hcwd]; rfl⟩
  | writePath path data =>
    obtain ⟨abs, habs⟩ := normalizedPath_returns h path
    obtain ⟨⟨o, v⟩, hopen⟩ := openFile_returns habs .writeOnlyCreate
    refine hmap (bind_returns h path fun abs => ?_)
    simp only [hopen, bind_eq_bind, bind_some]
    repeat' split
    all_goals exact ⟨_, rfl⟩
  | openNode path =>
    refine hmap (bind_returns h path fun abs => ?_)
    repeat' split
    all_goals exact ⟨_, rfl⟩

end returns

end Saios.Vfs
