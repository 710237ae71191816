/-
  WHAT A CALL OF THE VFS CAN CHANGE AT WHICH PATH, in the tmpfs and on the mounted volumes.

  1. **The tmpfs** (`Touches`) — for every call, from the state before it, the paths at which it makes,
     removes, moves or rewrites something.  At every other path the tmpfs is as before (`exec_fs_off`).

  2. **The volumes** (`storageOp`) — the writing storage call that a call makes, if any; the storage is then
     as after that call (`exec_storage`), and `Storage.Footprint` says what that can change.
-/
import Saios.Storage.Footprint
import Saios.Vfs.Errors
import Saios.Vfs.Footprint

namespace Saios.Mounts

open Path Vfs TmpFs Option

/-! ## The tmpfs -/

/-- What `create` or `mkdir` would make for the path is seen at `ds`. -/
def MadeAt (fs : TmpFs) (path : Str) (ds : List Str) : Prop :=
  ∃ p d name cs, Creatable fs path p d name ∧ fs.nodeAt cs = some p ∧ ds = cs ++ [name]

/-- The path leads to a file that is seen at `ds`. -/
def FileSeen (fs : TmpFs) (path : Str) (ds : List Str) : Prop :=
  ∃ i n, fs.resolve path = .ok i ∧ fs.get? i = some n ∧ n.kind = .file ∧ fs.nodeAt ds = some i

/-- The paths of the tmpfs at which a call makes, removes, moves or rewrites something. -/
def Touches (w : World) (ds : List Str) : Call → Prop
  | .mkdir path => OnTmpfs w path ∧ MadeAt w.vfs.fs path ds
  | .touch path => OnTmpfs w path ∧ MadeAt w.vfs.fs path ds
  | .openFile path options => Accepts w path options ∧
      (options.create = true ∧ OutsideSys w path ∧ MadeAt w.vfs.fs path ds ∨
        options.truncate = true ∧ options.write = true ∧ FileSeen w.vfs.fs path ds)
  | .write fd _ => ∃ file n, w.vfs.openFiles[fd]? = some (some file) ∧ file.writable = true ∧
      w.vfs.fs.get? file.inode = some n ∧ n.kind = .file ∧ w.vfs.fs.nodeAt ds = some file.inode
  | .unlink path => OnTmpfs w path ∧ ∃ i n, w.vfs.fs.resolve path = .ok i ∧ i ≠ w.vfs.fs.root ∧
      w.vfs.fs.get? i = some n ∧ ¬(n.kind = .directory ∧ n.children ≠ []) ∧ w.vfs.fs.nodeAt ds = some i
  | .rename source target => OnTmpfs w source ∧ OnTmpfs w target ∧ ∃ i q name n p d,
      w.vfs.fs.resolve source = .ok i ∧ i ≠ w.vfs.fs.root ∧
      w.vfs.fs.resolveParentAndName target = .ok (q, name) ∧ w.vfs.fs.lookupChildByName q name = none ∧
      w.vfs.fs.get? i = some n ∧ n.parent = some p ∧ w.vfs.fs.get? p = some d ∧
      Disturbs w.vfs.fs i (Landing w.vfs.fs (· = q) name) ds
  | .writePath path _ => OnTmpfs w path ∧ (MadeAt w.vfs.fs path ds ∨ FileSeen w.vfs.fs path ds ∨
      -- the number it writes to can be somebody else's
      (FileAt w.vfs.fs path ∨ ∃ p d name, Creatable w.vfs.fs path p d name) ∧
        Wraps w fun g => g.writable = true ∧ w.vfs.fs.nodeAt ds = some g.inode)
  | _ => False

variable {path : Str} {r : Except String Unit × World} {options : OpenOptions} {data : List UInt8}

section fs

variable {w : World} (h : Steady w) {ds : List Str}

include h

/-- A new file or directory is seen at the one path it was made for. -/
theorem made_off {name : Str} {p : Nat} {d : Node} (hc : Creatable w.vfs.fs path p d name)
    (hno : ¬MadeAt w.vfs.fs path ds) (kind : FileType) :
    (w.vfs.fs.attach p d name kind).nodeAt ds = w.vfs.fs.nodeAt ds ∧
      (w.vfs.fs.attach p d name kind).absMap ds = w.vfs.fs.absMap ds := by
  have hl := hc.lookup
  obtain ⟨-, hname, -⟩ := (resolveParentAndName_fold hc.2.1).choose_spec
  have hoff : ∀ cs, w.vfs.fs.nodeAt cs = some p → ds ≠ cs ++ [name] :=
    fun cs hcs hds => hno ⟨p, d, name, cs, hc, hcs, hds⟩
  exact ⟨nodeAt_attach_off h.sys.linked hc.2.2.1 hc.2.2.2 hl hname kind hoff,
    absMap_attach_off h.sys.linked hc.2.2.1 hc.2.2.2 hl hname kind hoff⟩

theorem createAs_off (hno : ¬MadeAt w.vfs.fs path ds) (kind : FileType) :
    (w.vfs.fs.createAs path kind).2.absMap ds = w.vfs.fs.absMap ds := by
  rcases createAs_cases w.vfs.fs path kind with ⟨e, he⟩ | ⟨p, name, d, hr, hd, hk, hl, he⟩
  · rw [he]
  · rw [he]
    exact (made_off h ⟨isMissing_of_lookup hr hl, hr, hd, hk⟩ hno kind).2

omit h in
theorem createCall_off {storageCall : Storage.StorageState → Str → Except String Unit × Storage.StorageState}
    {kind : FileType} (hr : createCall storageCall (fun fs path => createAs fs path kind) w path = some r)
    (hcreate : OnTmpfs w path → (w.vfs.fs.createAs path kind).2.absMap ds = w.vfs.fs.absMap ds) :
    r.2.vfs.fs.absMap ds = w.vfs.fs.absMap ds := by
  rcases createCall_cases hr with hf | ⟨hon, rfl⟩
  · rw [hf.vfs]
  · exact hcreate hon

/-- The tmpfs that an `open` works in, and the file it works on, are not seen at `ds`. -/
theorem leads_off {fs : TmpFs} {i : Nat} {n : Node} (ho : Openable w path options fs i n) (ds : List Str)
    (hmade : options.create = true → OutsideSys w path → ¬MadeAt w.vfs.fs path ds) :
    fs.nodeAt ds = w.vfs.fs.nodeAt ds ∧ fs.absMap ds = w.vfs.fs.absMap ds ∧
      (fs.nodeAt ds = some i → FileSeen w.vfs.fs path ds) := by
  obtain ⟨-, hleads, hn, hk⟩ := ho
  rcases hleads with ⟨hr, rfl⟩ | ⟨hcreate, hout, p, d, name, hc, rfl, rfl⟩
  · exact ⟨rfl, rfl, fun hds => ⟨i, n, hr, hn, hk, hds⟩⟩
  · obtain ⟨hnode, hmap⟩ := made_off h hc (hmade hcreate hout) .file
    refine ⟨hnode, hmap, fun hds => ?_⟩
    -- a new number is at no old path
    rw [hnode] at hds
    obtain ⟨m, hm⟩ := h.sys.linked.nodeAt_live hds
    exact absurd rfl (ne_nextInode hm)

theorem openFile_off {r : Except String Nat × World} (hr : openFile w path options = some r)
    (hno : ¬Touches w ds (.openFile path options)) : r.2.vfs.fs.absMap ds = w.vfs.fs.absMap ds := by
  rcases openFile_outcome h.sys.linked hr with ⟨e, rfl⟩ | ⟨fs, i, n, ho, hcase⟩
  · rfl
  obtain ⟨-, hmap, hseen⟩ := leads_off h ho ds fun hcreate hout hmade =>
    hno ⟨ho.accepts, Or.inl ⟨hcreate, hout, hmade⟩⟩
  rcases hcase with ⟨-, -, rfl⟩ | ⟨hwrite, rfl⟩
  · exact hmap
  · show (options.emptied fs i n).absMap ds = _
    unfold OpenOptions.emptied
    split
    · rename_i htrunc
      rw [absMap_setData_off ho.live [] fun hds =>
        hno ⟨ho.accepts, Or.inr ⟨htrunc, hwrite htrunc, hseen hds⟩⟩]
      exact hmap
    · exact hmap

omit h in
theorem write_off {fd : Nat} (hno : ¬Touches w ds (.write fd data)) :
    (Vfs.write w fd data).2.vfs.fs.absMap ds = w.vfs.fs.absMap ds := by
  rcases write_cases w fd data with ⟨e, he⟩ | ⟨file, n, offset, hfile, hwrite, hn, hk, -, hw⟩
  · rw [he]
  · rw [hw]
    exact absMap_setData_off hn _ fun hds => hno ⟨file, n, hfile, hwrite, hn, hk, hds⟩

theorem unlink_off (hr : Vfs.unlink w path = some r) (hno : ¬Touches w ds (.unlink path)) :
    r.2.vfs.fs.absMap ds = w.vfs.fs.absMap ds := by
  rcases unlink_cases hr with hf | ⟨i, hon, hres, rfl⟩
  · rw [hf.vfs]
  show (w.vfs.fs.remove path).2.absMap ds = _
  rw [TmpFs.remove, hres]
  simp only
  rcases removeInode_cases w.vfs.fs i with
    ⟨e, hrem⟩ | ⟨n, hroot, hn, hleaf, ⟨hnone, -⟩ | ⟨p, d, hpar, hd, hrem⟩⟩
  · rw [hrem]
  · -- every node but the root has a parent
    obtain ⟨p, hpar⟩ := h.sys.linked.parent hn hroot
    cases hnone.symm.trans hpar
  · rw [hrem]
    exact absMap_detach_off h.sys.linked hroot hn hpar hd hleaf fun hds =>
      hno ⟨hon, i, n, hres, hroot, hn, hleaf, hds⟩

theorem rename_off {source target : Str} (hr : Vfs.rename w source target = some r)
    (hno : ¬Touches w ds (.rename source target)) : r.2.vfs.fs.absMap ds = w.vfs.fs.absMap ds := by
  rcases rename_cases hr with hf | ⟨hfrom, hto, rfl⟩
  · rw [hf.vfs]
  show (w.vfs.fs.renamePath source target).2.absMap ds = _
  rcases renamePath_outcome w.vfs.fs source target with
    ⟨e, hren⟩ | ⟨i, q, name, n, p, d, hs, hroot, ht, hl, hn, hpar, hd, hcase⟩
  · rw [hren]
  have hoff : ¬Disturbs w.vfs.fs i (Landing w.vfs.fs (· = q) name) ds := fun hdist =>
    hno ⟨hfrom, hto, i, q, name, n, p, d, hs, hroot, ht, hl, hn, hpar, hd, hdist⟩
  obtain ⟨-, hname, -⟩ := (resolveParentAndName_fold ht).choose_spec
  rcases hcase with ⟨-, e, hren⟩ | ⟨m, k, hslots, hren⟩
  · -- a rename that failed half-way has landed nowhere
    rw [hren]
    refine absMap_unlinked_off h.sys.linked hroot hn hpar hd ?_
    rintro (hlost | ⟨-, -, -, -, -, hfalse, -⟩)
    · exact hoff (Or.inl hlost)
    · exact hfalse
  · rw [hren]
    exact absMap_relink_off h.sys.linked hroot hn hpar hslots hl hname hoff

theorem writePath_off (hr : writePath w path data = some r) (hno : ¬Touches w ds (.writePath path data)) :
    r.2.vfs.fs.absMap ds = w.vfs.fs.absMap ds := by
  rcases writePath_outcome h.sys.linked h.live hr with
    hsame | ⟨fs, i, n, g, m, new, files, hon, ho, hden, -, hm, -, hdone⟩
  · rw [hsame]
  obtain ⟨hnode, hmap, hseen⟩ := leads_off h ho ds fun _ _ hmade => hno ⟨hon, Or.inl hmade⟩
  have hi : fs.nodeAt ds ≠ some i := fun hds => hno ⟨hon, Or.inr (.inl (hseen hds))⟩
  have hempty : (fs.setData i n []).absMap ds = w.vfs.fs.absMap ds :=
    (absMap_setData_off ho.live [] hi).trans hmap
  rw [hdone]
  show (g.written _ m new).absMap ds = _
  unfold OpenFile.written
  cases hwrite : g.writable with
  | false => exact hempty
  | true =>
    rw [if_pos rfl, absMap_setData_off hm new ?_, hempty]
    rw [nodeAt_setData ho.live]
    rcases hden with ⟨-, rfl⟩ | ⟨hwrap, hg⟩
    · exact hi
    · intro hds
      exact hno ⟨hon, Or.inr (.inr ⟨ho.fileAt_or_creatable, hwrap, g, hg, hwrite, hnode ▸ hds⟩)⟩

theorem readPath_off {r : Except String (List UInt8) × World} (hr : readPath w path = some r) :
    r.2.vfs.fs.absMap ds = w.vfs.fs.absMap ds := by
  have hopened : ∀ {o v}, openFile w path .readOnly = some (o, v) → v.vfs.fs.absMap ds = w.vfs.fs.absMap ds := by
    -- opened neither to create nor to truncate
    intro o v hq
    refine openFile_off h hq ?_
    rintro ⟨-, ⟨hcreate, -⟩ | ⟨htrunc, -⟩⟩
    · cases hcreate
    · cases htrunc
  rcases readPath_cases hr with hf | ⟨-, o, v, hq, he | ⟨fd, he⟩⟩
  · rw [hf.vfs]
  · rw [he]; exact hopened hq
  · have hclosed : (close (read v fd (2 ^ 64 - 1)).2 fd).2.vfs.fs = v.vfs.fs := read_fs v fd _
    rw [he, hclosed]; exact hopened hq

/-- **Elsewhere in the tmpfs** a call changes nothing. -/
theorem exec_fs_off {call : Call} {r : Reply × World} (hr : Vfs.exec w call = some r)
    (hno : ¬Touches w ds call) : r.2.vfs.fs.absMap ds = w.vfs.fs.absMap ds := by
  cases call with
  | mkdir path =>
    exact of_map_reply hr fun q hq => createCall_off hq fun hon =>
      createAs_off h (fun hmade => hno ⟨hon, hmade⟩) .directory
  | touch path =>
    exact of_map_reply hr fun q hq => createCall_off hq fun hon =>
      createAs_off h (fun hmade => hno ⟨hon, hmade⟩) .file
  | mount path fsName readOnly =>
    refine of_map_reply hr fun q hq => ?_
    obtain ⟨mounts, he⟩ := mount_mounts hq
    rw [he]
  | umount path =>
    refine of_map_reply hr fun q hq => ?_
    obtain ⟨mounts, he⟩ := umount_mounts hq
    rw [he]
  | openFile path options => exact of_map_reply hr fun q hq => openFile_off h hq hno
  | close fd => cases hr; rfl
  | read fd maxLen => cases hr; exact congrArg (fun fs => absMap fs ds) (read_fs w fd maxLen)
  | write fd data => cases hr; exact write_off hno
  | seek fd origin => cases hr; exact congrArg (fun fs => absMap fs ds) (seek_fs w fd origin)
  | ls path => exact of_map_reply hr fun q hq => by rw [(ls_forwarded hq).vfs]
  | readPath path => exact of_map_reply hr fun q hq => readPath_off h hq
  | unlink path => exact of_map_reply hr fun q hq => unlink_off h hq hno
  | rename source target => exact of_map_reply hr fun q hq => rename_off h hq hno
  | cd path =>
    cases hr
    show (Vfs.cd w path).2.vfs.fs.absMap ds = _
    rcases cd_cases w path with ⟨e, he⟩ | ⟨i, n, -, -, -, he⟩
    · rw [he]
    · rw [he]; rfl
  | pwd =>
    obtain ⟨path, -, rfl⟩ := map_eq_some_iff.mp hr
    rfl
  | writePath path data => exact of_map_reply hr fun q hq => writePath_off h hq hno
  | openNode path => exact of_map_reply hr fun q hq => by rw [(openNode_forwarded hq).vfs]

end fs

/-! ## The volumes -/

/-- The storage call made for a path outside `/sys` that is on a mounted volume. -/
def onVolume (w : World) (path : Str) (op : Str → Storage.Op) : Option Storage.Op := do
  let abs ← w.vfs.fs.normalizedPath path
  if isSysPath abs then none else if isStorageBacked w abs then some (op abs) else none

/-- The writing storage call that a call of the VFS makes. -/
def storageOp (w : World) : Call → Option Storage.Op
  | .mkdir path => onVolume w path .fsMkdir
  | .touch path => onVolume w path .fsCreate
  | .unlink path => onVolume w path .fsDelete
  | .rename source target => do
      let absFrom ← w.vfs.fs.normalizedPath source
      let absTo ← w.vfs.fs.normalizedPath target
      if isSysPath absFrom || isSysPath absTo then none
      else if isStorageBacked w absFrom || isStorageBacked w absTo then some (.fsRename absFrom absTo)
      else none
  | .writePath path data => do
      -- `/sys` is looked at by `open` only
      let abs ← w.vfs.fs.normalizedPath path
      if isStorageBacked w abs then some (.fsWrite abs data) else none
  | _ => none

/-- The storage after a call that made the storage call `op`, or none. -/
def storageAfter (w : World) (op : Option Storage.Op) : Storage.StorageState :=
  (op.map (Storage.step w.storage)).getD w.storage

theorem storageOp_writes {w : World} {call : Call} {op : Storage.Op} (h : storageOp w call = some op) :
    ¬op.Manages := by
  have hon : ∀ {path : Str} {f : Str → Storage.Op}, (∀ abs, ¬(f abs).Manages) → onVolume w path f = some op →
      ¬op.Manages := by
    intro path f hf hop
    obtain ⟨abs, -, hop⟩ := bind_eq_some_iff.mp hop
    split at hop
    · cases hop
    split at hop
    · cases hop; exact hf abs
    · cases hop
  cases call with
  | mkdir path => exact hon (f := .fsMkdir) (fun _ hm => hm) h
  | touch path => exact hon (f := .fsCreate) (fun _ hm => hm) h
  | unlink path => exact hon (f := .fsDelete) (fun _ hm => hm) h
  | rename source target =>
    obtain ⟨absFrom, -, h⟩ := bind_eq_some_iff.mp h
    obtain ⟨absTo, -, h⟩ := bind_eq_some_iff.mp h
    split at h
    · cases h
    split at h
    · cases h; exact fun hm => hm
    · cases h
  | writePath path data =>
    obtain ⟨abs, -, h⟩ := bind_eq_some_iff.mp h
    split at h
    · cases h; exact fun hm => hm
    · cases h
  | _ => cases h

section storage

variable {w : World} (h : Steady w)

/-- A call that looks for `/sys` and for a volume first. -/
theorem guarded_storage {sys back : Bool} {e : String} {op : Storage.Op} {rest : Option (Except String Unit × World)}
    {res : Except String Unit × Storage.StorageState}
    (hr : (if sys then some (.error e, w) else if back then some (w.viaStorage res) else rest) = some r)
    (hop : Storage.step w.storage op = res.2) (hrest : rest = some r → r.2.storage = w.storage) :
    r.2.storage = storageAfter w (if sys then none else if back then some op else none) := by
  split at hr
  · rename_i hsys
    cases hr
    rw [if_pos hsys]; rfl
  rename_i hsys
  rw [if_neg hsys]
  split at hr
  · rename_i hback
    cases hr
    rw [if_pos hback]
    exact hop.symm
  · rename_i hback
    rw [if_neg hback]
    exact hrest hr

theorem createCall_storage
    {storageCall : Storage.StorageState → Str → Except String Unit × Storage.StorageState}
    {fsCall : TmpFs → Str → Except String Unit × TmpFs} {op : Str → Storage.Op}
    (hop : ∀ abs, Storage.step w.storage (op abs) = (storageCall w.storage abs).2)
    (hr : createCall storageCall fsCall w path = some r) :
    r.2.storage = storageAfter w (onVolume w path op) := by
  obtain ⟨abs, habs, hr⟩ := bind_eq_some_iff.mp hr
  rw [onVolume, habs]
  refine guarded_storage hr (hop abs) fun hr => ?_
  cases hr; rfl

theorem unlink_storage (hr : Vfs.unlink w path = some r) :
    r.2.storage = storageAfter w (storageOp w (.unlink path)) := by
  obtain ⟨abs, habs, hr⟩ := bind_eq_some_iff.mp hr
  rw [storageOp, onVolume, habs]
  refine guarded_storage hr rfl fun hr => ?_
  split at hr
  · cases hr; rfl
  · cases hr; rfl

theorem rename_storage {source target : Str} (hr : Vfs.rename w source target = some r) :
    r.2.storage = storageAfter w (storageOp w (.rename source target)) := by
  obtain ⟨absFrom, hfrom, hr⟩ := bind_eq_some_iff.mp hr
  obtain ⟨absTo, hto, hr⟩ := bind_eq_some_iff.mp hr
  rw [storageOp, hfrom, hto]
  refine guarded_storage hr rfl fun hr => ?_
  cases hr; rfl

theorem read_storage (fd maxLen : Nat) : (Vfs.read w fd maxLen).2.storage = w.storage := by
  rcases read_cases w fd maxLen with ⟨e, he⟩ | ⟨file, data, -, -, -, he⟩
  · rw [he]
  · rw [he]; rfl

theorem write_storage (fd : Nat) (data : List UInt8) : (Vfs.write w fd data).2.storage = w.storage := by
  rcases write_cases w fd data with ⟨e, he⟩ | ⟨file, n, offset, -, -, -, -, -, he⟩
  · rw [he]
  · rw [he]; rfl

include h in
theorem openFile_storage {r : Except String Nat × World} (hr : openFile w path options = some r) :
    r.2.storage = w.storage := by
  rcases openFile_outcome h.sys.linked hr with ⟨e, rfl⟩ | ⟨fs, i, n, -, ⟨-, -, rfl⟩ | ⟨-, rfl⟩⟩ <;> rfl

include h in
theorem writePath_storage (hr : writePath w path data = some r) :
    r.2.storage = storageAfter w (storageOp w (.writePath path data)) := by
  obtain ⟨abs, habs, hr⟩ := bind_eq_some_iff.mp hr
  unfold storageAfter storageOp
  simp only [habs, bind_eq_bind, bind_some]
  split at hr
  · rename_i hback
    cases hr
    rw [if_pos hback]; rfl
  rename_i hback
  rw [if_neg hback]
  obtain ⟨⟨q, v⟩, hq, hr⟩ := bind_eq_some_iff.mp hr
  have hopened := openFile_storage h hq
  cases q with
  | error e => cases hr; exact hopened
  | ok fd =>
    have hclosed : (close (Vfs.write v fd data).2 fd).2.storage = v.storage := write_storage fd data
    simp only at hr
    split at hr
    · cases hr; exact hclosed.trans hopened
    · obtain rfl := some.inj hr
      exact hclosed.trans hopened

include h in
theorem readPath_storage (hw : Storage.Wired w.storage) {r : Except String (List UInt8) × World}
    (hr : readPath w path = some r) : r.2.storage = w.storage := by
  obtain ⟨abs, -, hr⟩ := bind_eq_some_iff.mp hr
  split at hr
  · split at hr <;> (cases hr; rfl)
  split at hr
  · cases hr; exact hw.step_reads.1
  obtain ⟨⟨q, v⟩, hq, hr⟩ := bind_eq_some_iff.mp hr
  have hopened := openFile_storage h hq
  cases q with
  | error e => cases hr; exact hopened
  | ok fd =>
    have hclosed : (close (Vfs.read v fd (2 ^ 64 - 1)).2 fd).2.storage = v.storage :=
      read_storage fd _
    simp only at hr
    split at hr <;> (cases hr; exact hclosed.trans hopened)

include h in
/-- **On the volumes** a call does what its storage call does. -/
theorem exec_storage (hw : Storage.Wired w.storage) {call : Call} {r : Reply × World}
    (hr : Vfs.exec w call = some r) : r.2.storage = storageAfter w (storageOp w call) := by
  cases call with
  | mkdir path => exact of_map_reply hr fun q hq => createCall_storage (fun _ => rfl) hq
  | touch path => exact of_map_reply hr fun q hq => createCall_storage (fun _ => rfl) hq
  | mount path fsName readOnly =>
    refine of_map_reply hr fun q hq => ?_
    obtain ⟨mounts, he⟩ := mount_mounts hq
    rw [he]; rfl
  | umount path =>
    refine of_map_reply hr fun q hq => ?_
    obtain ⟨mounts, he⟩ := umount_mounts hq
    rw [he]; rfl
  | openFile path options => exact of_map_reply hr fun q hq => openFile_storage h hq
  | close fd => cases hr; rfl
  | read fd maxLen => cases hr; exact read_storage fd maxLen
  | write fd data => cases hr; exact write_storage fd data
  | seek fd origin =>
    cases hr
    show (Vfs.seek w fd origin).2.storage = w.storage
    rcases seek_cases w fd origin with ⟨e, he⟩ | ⟨file, size, offset, -, -, he⟩
    · rw [he]
    · rw [he]; rfl
  | ls path =>
    refine of_map_reply hr fun q hq => ?_
    obtain ⟨abs, -, hq⟩ := bind_eq_some_iff.mp hq
    split at hq
    · split at hq <;> (cases hq; rfl)
    split at hq
    · cases hq; exact hw.step_reads.2.2.1
    split at hq
    · split at hq <;> (cases hq; rfl)
    · cases hq; rfl
  | readPath path => exact of_map_reply hr fun q hq => readPath_storage h hw hq
  | unlink path => exact of_map_reply hr fun q hq => unlink_storage hq
  | rename source target => exact of_map_reply hr fun q hq => rename_storage hq
  | cd path =>
    cases hr
    show (Vfs.cd w path).2.storage = w.storage
    rcases cd_cases w path with ⟨e, he⟩ | ⟨i, n, -, -, -, he⟩
    · rw [he]
    · rw [he]; rfl
  | pwd =>
    obtain ⟨path, -, rfl⟩ := map_eq_some_iff.mp hr
    rfl
  | writePath path data => exact of_map_reply hr fun q hq => writePath_storage h hq
  | openNode path =>
    refine of_map_reply hr fun q hq => ?_
    obtain ⟨abs, -, hq⟩ := bind_eq_some_iff.mp hq
    split at hq
    · have hstat : (Storage.fsStat w.storage abs).2 = w.storage := hw.step_reads.2.1
      split at hq
      · rename_i e st hfail
        cases hq
        rw [hfail] at hstat
        exact hstat
      · rename_i stat st hok
        cases hq
        rw [hok] at hstat
        exact hstat
    · cases hq; rfl

end storage

end Saios.Mounts
