/-
  A FILE THAT WAS WRITTEN STAYS: through other calls, failed ones included, and through unmounting and
  mounting again.

  1. **One node** (`FileAt`) — the first node with a path is a file with the data.  A call that is not
     addressed to the path or to an ancestor of it leaves that so (`fileAt_after`), with one exception:
     a rename TO an ancestor that is missing from the list can move another node onto the path.

  2. **One volume** (`Lasting`) — the node is in the list of the mounted volume, or in what its partition
     would load.  Every effect of a call keeps that (`Lasting.effect`), unless the partition is thrown
     away (`rescan`) or a list is unmounted that does not fit the fields or the partition: the save
     fails, `umount_volume` ignores it, and what is left on the disk no longer parses.

  3. **Whole runs** (`written_file_reads_back`), and the file that a `rescan` loses
     (`rescan_loses_file`).
-/
import Saios.Storage.Footprint
import Saios.Storage.TreeSafety

namespace Saios.Storage

open Path Bytes List Option

/-! ## One node -/

/-- Reading the path in the list gives the data. -/
def FileAt (nodes : List FsNode) (rel : Str) (data : List UInt8) : Prop :=
  ∃ n, nodes.find? (fun n => n.path == rel) = some n ∧ n.kind = .file ∧ n.data = data

variable {nodes : List FsNode} {data : List UInt8}

/-- The call is addressed to the path or to an ancestor of it. -/
def TreeCall.Touches (rel : Str) : TreeCall → Prop
  | .create _ _ => False
  | .delete r => isChildOf r rel = true
  | .rename fromRel _ => isChildOf fromRel rel = true
  | .write r _ => isChildOf r rel = true

/-- The call renames something to the path or to an ancestor of it. -/
def TreeCall.Lands (rel : Str) : TreeCall → Prop
  | .rename _ toRel => isChildOf toRel rel = true
  | _ => False

theorem isChildOf_self (path : Str) : isChildOf path path = true := by
  unfold isChildOf
  split
  · rename_i hroot
    rw [hroot]; rfl
  · simp only [Bool.and_eq_true, Bool.or_eq_true, beq_self_eq_true, true_or, and_true,
      isPrefixOf_iff_prefix]
    exact prefix_refl path

variable {path : Str}

/-- What follows an ancestor in a path starts with a slash. -/
theorem isChildOf_of_append {toRel rest : Str} (h : path = toRel ++ '/' :: rest) :
    isChildOf toRel path = true := by
  unfold isChildOf
  split
  · rename_i hroot
    rw [h, hroot]; rfl
  · simp only [Bool.and_eq_true, Bool.or_eq_true, isPrefixOf_iff_prefix]
    refine ⟨⟨_, h.symm⟩, Or.inr ?_⟩
    rw [h, getElem?_append_right (Nat.le_refl _), Nat.sub_self]; rfl

/-- The other way round, for a proper descendant of anything but the root. -/
theorem append_of_isChildOf {fromRel : Str} (h : isChildOf fromRel path = true) (hroot : fromRel ≠ ['/'])
    (hne : path ≠ fromRel) : ∃ rest, path = fromRel ++ '/' :: rest := by
  rw [isChildOf, if_neg hroot] at h
  simp only [Bool.and_eq_true, Bool.or_eq_true, beq_iff_eq, isPrefixOf_iff_prefix] at h
  obtain ⟨⟨rest, rfl⟩, hend⟩ := h
  cases rest with
  | nil => rw [append_nil] at hne; exact absurd rfl hne
  | cons c rest =>
    rw [getElem?_append_right (Nat.le_refl _), Nat.sub_self, length_append] at hend
    rcases hend with hlen | hslash
    · rw [length_cons] at hlen
      omega
    · obtain rfl : c = '/' := some.inj hslash
      exact ⟨rest, rfl⟩

section

variable {rel : Str} (hrel : Normal rel)

include hrel

/-- **Rerooting moves nothing off the path and nothing onto it.** -/
theorem reroot_path {fromRel toRel : Str} (hfrom : isChildOf fromRel rel = false)
    (hto : isChildOf toRel rel = false) (n : FsNode) :
    ((reroot fromRel toRel n).path == rel) = (n.path == rel) ∧
      (n.path = rel → reroot fromRel toRel n = n) := by
  unfold reroot
  split
  · rename_i hcond
    have hroot : fromRel ≠ ['/'] := by
      rintro rfl
      obtain ⟨ds, -, rfl⟩ := hrel
      cases hfrom
    have hold : n.path ≠ rel := by
      intro heq
      rw [heq, hfrom] at hcond
      cases hcond.2
    obtain ⟨rest, hrest⟩ := append_of_isChildOf hcond.2 hroot hcond.1
    have hnew : toRel ++ n.path.drop fromRel.length ≠ rel := by
      intro heq
      rw [hrest, drop_left] at heq
      rw [isChildOf_of_append heq.symm] at hto
      cases hto
    rw [beq_eq_false_iff_ne.mpr hold]
    exact ⟨beq_eq_false_iff_ne.mpr hnew, fun heq => absurd heq hold⟩
  · exact ⟨rfl, fun _ => rfl⟩

/-- **A call that is addressed elsewhere leaves the file.** -/
theorem fileAt_after (h : FileAt nodes rel data) {call : TreeCall} (htouch : ¬call.Touches rel)
    (hland : ¬call.Lands rel) : FileAt (call.after nodes) rel data := by
  obtain ⟨n, hn, hk, hd⟩ := h
  have hself : ∀ {r : Str}, ¬isChildOf r rel = true → rel ≠ r := by
    rintro r hr rfl
    exact hr (isChildOf_self _)
  refine ⟨n, ?_, hk, hd⟩
  cases call with
  | create kind r =>
    rw [TreeCall.after, find?_append, hn]; rfl
  | delete r => exact (find_after (show ¬TreeCall.Reaches nodes (.delete r) rel from hself htouch)).trans hn
  | write r new => exact (find_after (show ¬TreeCall.Reaches nodes (.write r new) rel from hself htouch)).trans hn
  | rename fromRel toRel =>
    refine (find_after ?_).trans hn
    rintro (heq | heq | ⟨-, m, -, hmoved, heq⟩)
    · exact hself htouch heq
    · exact hself hland heq
    · obtain ⟨hsame, hkeep⟩ := reroot_path hrel (Bool.eq_false_iff.mpr htouch) (Bool.eq_false_iff.mpr hland) m
      refine hmoved (hkeep ?_)
      rcases heq with heq | heq
      · exact heq.symm
      · exact beq_iff_eq.mp (hsame ▸ beq_iff_eq.mpr heq.symm)

/-- After a write the file is there. -/
theorem fileAt_write (hchecks : TreeCall.Checks nodes (.write rel data)) :
    FileAt (TreeCall.after nodes (.write rel data)) rel data := by
  simp only [TreeCall.after]
  rw [findNode_normal hrel]
  rcases hchecks with ⟨hnone, -⟩ | ⟨n, hn, hk⟩
  · rw [findNode_normal hrel] at hnone
    rw [hnone]
    refine ⟨{ path := rel, kind := .file, data := data }, ?_, rfl, rfl⟩
    simp only [isNone_none, if_true]
    rw [find?_append, hnone, none_or]
    exact find?_cons_of_pos (beq_self_eq_true rel)
  · rw [findNode_normal hrel] at hn
    rw [hn]
    refine ⟨{ n with data := data }, ?_, hk, rfl⟩
    simp only [isNone_some, Bool.false_eq_true, if_false]
    have hset := find?_modifyFirst_self (l := nodes) (p := fun n => n.path == rel)
      (f := fun n => { n with data := data }) fun m hm => hm
    rw [hset, hn]; rfl

end

/-! ## One volume -/

/-- The file is on the volume: in its node list while it is mounted, in what mounting it would load
    otherwise. -/
def Lasting (key rel : Str) (data : List UInt8) (st : StorageState) : Prop :=
  ∃ v, volumeAt st key = some v ∧ v.filesystem = .fat32 ∧
    ((v.mountedAt.isSome = true ∧ ∃ nodes, treeAt st key = some nodes ∧ FileAt nodes rel data) ∨
      v.mountedAt = none ∧ ∃ d, diskAt st key = some d ∧ FileAt d.tree rel data)

/-- The call leaves the path alone. -/
structure Untouched (key rel : Str) (st : StorageState) (op : Op) : Prop where
  /-- It does not write, rename or delete the path or an ancestor of it; a call that its checks refuse
      does not. -/
  calls : ∀ V call nodes, op.treeCall st = some (V, .fat32, call) → foldCase V = key →
    treeAt st key = some nodes → call.Checks nodes → ¬call.Touches rel
  /-- It does not format the volume; a mounted volume is not formatted. -/
  format : ∀ name fs, op = .formatVolume name fs → foldCase name = key →
    ∀ v, volumeAt st key = some v → v.mountedAt ≠ none
  /-- It does not write raw sectors of the partition. -/
  sectors : ∀ deviceName lba data, op = .writeSector deviceName lba data → ∀ d sector,
    st.disks.find? (fun disk => (targetOn deviceName disk).isSome) = some d →
    targetLba ((targetOn deviceName d).getD none) lba = .ok sector → d.partKey = key →
    ¬(2048 ≤ sector ∧ sector < 4096)

/-- What a call must avoid besides. -/
structure Lossless (key rel : Str) (st : StorageState) (op : Op) : Prop where
  /-- A rescan throws the disks away. -/
  rescan : ∀ devs, op ≠ .rescan devs
  /-- The volume is only unmounted when its list fits the fields and the partition. -/
  umount : ∀ path, op = .umountVolume path → ∀ v ∈ st.volumes, v.mountedAt = some path → v.key = key →
    ∀ nodes, treeAt st key = some nodes → Widths nodes ∧ (serializeTree nodes).length ≤ partCapacity
  /-- Nothing is renamed to an ancestor of the path that is missing from the list. -/
  renames : ∀ V call nodes, op.treeCall st = some (V, .fat32, call) → foldCase V = key →
    treeAt st key = some nodes → call.Checks nodes → ¬call.Lands rel

/-- A sector in front of the partition is not part of it. -/
theorem tree_patchSector {d : DiskDevice} (h : d.Standard) {sector : Nat} (hsector : sector < 2048)
    (hdata : data.length = 512) : DiskDevice.tree { d with block := d.patchSector sector data } = d.tree := by
  have hlen : d.block.bytes.length = 4096 * 512 := by
    rw [h.sized.length, h.sectors, h.sectorSize]
  have hslice : (newPartition d.name).slice (d.patchSector sector data) =
      (newPartition d.name).slice d.block := by
    show (((patch (sector * 512) data d.block.bytes).drop (2048 * d.block.sectorSize)).take
      (2048 * d.block.sectorSize)) = _
    rw [h.sectorSize, slice_patch_of_disjoint (by omega)
      (Or.inr (by omega)), Partition.slice, h.sectorSize]
    rfl
  show ((deserializeTree ((newPartition d.name).slice (d.patchSector sector data))).getD _) = _
  rw [hslice]
  rfl

section lasting

variable {key rel : Str} {data : List UInt8} {st st' : StorageState}

/-- A change of another volume, its tree and its disk. -/
theorem Lasting.congr (h : Lasting key rel data st) (hvol : volumeAt st' key = volumeAt st key)
    (htree : treeAt st' key = treeAt st key) (hdisk : diskAt st' key = diskAt st key) :
    Lasting key rel data st' := by
  unfold Lasting
  rw [hvol, htree, hdisk]
  exact h

/-- Other bytes on a disk, of which the partition's list is the same. -/
theorem Lasting.onDisk (h : Lasting key rel data st) {k : Str} {d : DiskDevice} (hd : diskAt st k = some d)
    {block : RamBlockDevice} (htree : key = k → DiskDevice.tree { d with block := block } = d.tree) :
    Lasting key rel data (setDisk st k block) := by
  by_cases hkey : key = k
  · obtain ⟨v, hv, hfat, hmounted | ⟨hfree, d', hd', hfile⟩⟩ := h
    · exact ⟨v, hv, hfat, Or.inl hmounted⟩
    · refine ⟨v, hv, hfat, Or.inr ⟨hfree, { d with block := block }, ?_, ?_⟩⟩
      · rw [diskAt_setDisk, if_pos hkey, hkey, hd]; rfl
      · rw [hkey, hd] at hd'
        rw [htree hkey]
        exact some.inj hd' ▸ hfile
  · exact h.congr rfl rfl (by rw [diskAt_setDisk, if_neg hkey])

/-- **One call.** -/
theorem Lasting.effect (h : Lasting key rel data st) (hw : Wired st) (hrel : Normal rel) {op : Op}
    (huntouched : Untouched key rel st op) (hlossless : Lossless key rel st op) (he : Effect st op st') :
    Lasting key rel data st' := by
  obtain ⟨v, hv, hfat, hcases⟩ := h
  have h : Lasting key rel data st := ⟨v, hv, hfat, hcases⟩
  -- the volume a call is about is ours when it has our key
  have hsame : ∀ {u : DetectedVolume}, u ∈ st.volumes → key = u.key → u = v := by
    intro u hu hkey
    rw [hkey, hw.volume_iff.mpr ⟨hu, rfl⟩] at hv
    exact some.inj hv
  have hformat : ∀ {u : DetectedVolume} {name : Str} {fs : FilesystemKind}, op = .formatVolume name fs →
      u ∈ st.volumes → u.key = foldCase name → u.mountedAt = none → key ≠ u.key := by
    intro u name fs hop hu hname hfree hkey
    refine huntouched.format name _ hop (hname.symm.trans hkey.symm) v hv ?_
    rw [← hsame hu hkey]; exact hfree
  cases he with
  | same => exact h
  | @mount name path readOnly u hu hname hfree hfs =>
    have hne : key ≠ u.key := by
      intro hkey
      rw [hsame hu hkey, hfat] at hfs
      cases hfs
    exact h.congr (by rw [volumeAt_mountAt, if_neg hne]) rfl rfl
  | @mountTree name path readOnly u nodes hu hname hfree hnodes =>
    have hno := hw.no_tree hu hfree
    by_cases hkey : key = u.key
    · obtain rfl := hsame hu hkey
      rcases hcases with ⟨hm, -⟩ | ⟨-, d, hd, hfile⟩
      · rw [hfree] at hm; cases hm
      · refine ⟨DetectedVolume.mountAt (some path) u, ?_, hfat, Or.inl ⟨rfl, d.tree, ?_, hfile⟩⟩
        · rw [volumeAt_mountAt, if_pos hkey]
          show (volumeAt st key).map _ = _
          rw [hv]; rfl
        · rw [treeAt_setVolume, treeAt_addTree hno, if_pos hkey]
          cases hnodes with
          | fat _ hd' =>
            rw [← hkey, hd] at hd'
            rw [some.inj hd']
          | preview hne _ => exact absurd hfat hne
    · refine h.congr ?_ ?_ rfl
      · rw [volumeAt_mountAt, if_neg hkey]; rfl
      · rw [treeAt_setVolume, treeAt_addTree hno, if_neg hkey]
  | @umount path u hu hat hfs =>
    have hne : key ≠ u.key := by
      intro hkey
      rw [hsame hu hkey] at hfs
      exact hfs hfat
    refine h.congr ?_ ?_ rfl
    · rw [volumeAt_mountAt, if_neg hne]; rfl
    · rw [treeAt_setVolume, treeAt_dropTree, if_neg hne]
  | @umountSaved path u nodes d hu hat hfs ht hd =>
    by_cases hkey : key = u.key
    · obtain rfl := hsame hu hkey
      rcases hcases with ⟨-, nodes', ht', hfile⟩ | ⟨hfree, -⟩
      · -- the saved list is the one that holds the file, and it reads back
        rw [hkey, ht] at ht'
        obtain rfl := some.inj ht'
        obtain ⟨hwidths, hfit⟩ := hlossless.umount path rfl u hu hat hkey.symm nodes (hkey ▸ ht)
        refine ⟨DetectedVolume.mountAt none u, ?_, hfat,
          Or.inr ⟨rfl, { d with block := d.store (serializeTree nodes) }, ?_, ?_⟩⟩
        · rw [volumeAt_mountAt, if_pos hkey]
          show (volumeAt st key).map _ = _
          rw [hv]; rfl
        · show diskAt (setDisk st u.key (d.store (serializeTree nodes))) key = _
          rw [diskAt_setDisk, if_pos hkey, hkey, hd]; rfl
        · rw [DiskDevice.tree, (hw.standardAt hd).image_store, deserialize_fit hwidths hfit]
          exact hfile
      · rw [hfree] at hat; cases hat
    · refine h.congr ?_ ?_ ?_
      · rw [volumeAt_mountAt, if_neg hkey]; rfl
      · rw [treeAt_setVolume, treeAt_dropTree, if_neg hkey, treeAt_setDisk]
      · show diskAt (setDisk st u.key (d.store (serializeTree nodes))) key = _
        rw [diskAt_setDisk, if_neg hkey]
  | @format name fs u hu hname hfree hfs =>
    exact h.congr (by rw [volumeAt_formatAs, if_neg (hformat rfl hu hname hfree)]) rfl rfl
  | @formatSaved name u d hu hname hfree hd =>
    have hne := hformat rfl hu hname hfree
    refine h.congr ?_ rfl ?_
    · rw [volumeAt_setDisk, volumeAt_formatAs, if_neg hne]
    · rw [diskAt_setDisk, if_neg hne, diskAt_setVolume]
  | @update op u call nodes d hcall hres hu hm hfs ht hd hchecks =>
    by_cases hkey : key = u.key
    · obtain rfl := hsame hu hkey
      rcases hcases with ⟨-, nodes', ht', hfile⟩ | ⟨hfree, -⟩
      · rw [hkey, ht] at ht'
        obtain rfl := some.inj ht'
        have htouch := huntouched.calls u.name call nodes hcall hkey.symm (hkey ▸ ht) hchecks
        have hland := hlossless.renames u.name call nodes hcall hkey.symm (hkey ▸ ht) hchecks
        refine ⟨u, hv, hfat, Or.inl ⟨hm, call.after nodes, ?_, ?_⟩⟩
        · rw [treeAt_setDisk, treeAt_setTree, if_pos hkey, hkey, ht]; rfl
        · exact fileAt_after hrel hfile htouch hland
      · rw [hfree] at hm; cases hm
    · refine h.congr rfl ?_ ?_
      · rw [treeAt_setDisk, treeAt_setTree, if_neg hkey]
      · rw [diskAt_setDisk, if_neg hkey, diskAt_setTree]
  | @sector deviceName lba sector new d hfind htarget hsector hdata =>
    have hd := hw.disk_iff.mpr ⟨mem_of_find?_eq_some hfind, rfl⟩
    refine h.onDisk hd fun hkey => tree_patchSector (hw.standardAt hd) ?_ hdata
    have := huntouched.sectors deviceName lba new rfl d sector hfind htarget hkey.symm
    omega
  | @flush deviceName d hd => exact h.onDisk (hw.disk_iff.mpr ⟨hd, rfl⟩) fun _ => rfl
  | rescan devs => exact absurd rfl (hlossless.rescan devs)

/-- A file that lasts is read wherever its volume is mounted. -/
theorem Lasting.fsRead (h : Lasting key rel data st) (hw : Wired st) (hrel : Normal rel) {V : Str}
    {fs : FilesystemKind} (hinfo : mountedVolumeInfoInternal st path = some (V, fs, rel))
    (hkey : foldCase V = key) : (fsRead st path).1 = .ok data := by
  obtain ⟨⟨u, hu, rfl, rfl, hm⟩, -⟩ := resolved hinfo
  obtain ⟨v, hv, hfat, hcases⟩ := h
  rw [← hkey, show foldCase u.name = u.key from rfl, hw.volume_iff.mpr ⟨hu, rfl⟩] at hv
  obtain rfl := some.inj hv
  rcases hcases with ⟨-, nodes, ht, hfile⟩ | ⟨hfree, -⟩
  · rw [← hkey] at ht
    rw [Storage.fsRead, hinfo]
    simp only
    obtain ⟨n, hn, hk, rfl⟩ := hfile
    rw [readTree_eq ht (by rw [hfat]; rfl), readIn, findNode_normal hrel, hn]
    simp only
    rw [if_neg (not_not_intro hk)]
  · rw [hfree] at hm; cases hm

/-- A write that succeeds makes the file last. -/
theorem lasting_fsWrite (hw : Wired st) {V : Str} {fs : FilesystemKind}
    (hinfo : mountedVolumeInfoInternal st path = some (V, fs, rel)) (hok : (fsWrite st path data).1 = .ok ()) :
    Lasting (foldCase V) rel data (step st (.fsWrite path data)) := by
  obtain ⟨-, hrel⟩ := resolved hinfo
  have hwrites : (Op.fsWrite path data).Writes := trivial
  rcases hw.exec_writes hwrites with
    ⟨e, he⟩ | ⟨v, call, nodes, d, hcall, hres, hv, hm, hfs, ht, hd, hchecks, he⟩
  · rw [exec, reply, hok] at he
    cases congrArg Prod.fst he
  · have hcall' : some (V, fs, TreeCall.write rel data) = some (v.name, .fat32, call) := by
      rw [← hcall, Op.treeCall, hinfo]; rfl
    cases hcall'
    refine ⟨v, ?_, hfs, Or.inl ⟨hm, _, ?_, fileAt_write hrel hchecks⟩⟩
    · rw [step, he]
      exact hw.volume_iff.mpr ⟨hv, rfl⟩
    · rw [step, he]
      show treeAt (setDisk _ _ _) v.key = _
      rw [treeAt_setDisk, treeAt_setTree, if_pos rfl, ht]; rfl

/-- The file stays through any calls that meet the two conditions. -/
theorem Lasting.run (h : Lasting key rel data st) (hw : Wired st) (hrel : Normal rel) {ops : List Op}
    (hrun : Run.Along step (fun st op => Untouched key rel st op ∧ Lossless key rel st op) st ops) :
    Lasting key rel data (ops.foldl step st) :=
  (Run.foldl_inv_along (I := fun st => Wired st ∧ Lasting key rel data st)
    (fun _ op hst hop => ⟨hst.1.effect (hst.1.step_effect op),
      hst.2.effect hst.1 hrel hop.1 hop.2 (hst.1.step_effect op)⟩) ⟨hw, h⟩ hrun).2

end lasting

/-! ## Whole runs -/

/-- The path that names `rel` on a volume mounted at `mount`. -/
def under (mount rel : Str) : Str :=
  if normalizePath mount = ['/'] then rel
  else if rel = ['/'] then normalizePath mount
  else normalizePath mount ++ rel

variable {st : StorageState}

/-- The driver finds `rel` there, when the path is on that volume at all. -/
theorem info_under {v : DetectedVolume} {mount rel : Str} (hrel : Normal rel) (hat : v.mountedAt = some mount)
    (hon : mountedVolumeForPath st (under mount rel) = some v) :
    mountedVolumeInfoInternal st (under mount rel) = some (v.name, v.filesystem, rel) := by
  obtain ⟨rs, hrs, rfl⟩ := hrel
  have hms := comps_isName mount
  have hmount := normalizePath_eq mount
  generalize comps mount = ms at hms hmount
  have hnames : ∀ c ∈ ms ++ rs, IsName c := by
    intro c hc
    rcases mem_append.mp hc with hc | hc
    · exact hms c hc
    · exact hrs c hc
  have hroot := absolute_eq_root hms
  have hunder : under mount (absolute rs) = absolute (ms ++ rs) := by
    unfold under
    rw [hmount]
    by_cases hm : ms = []
    · rw [if_pos (hroot.mpr hm), hm, nil_append]
    rw [if_neg (fun h => hm (hroot.mp h))]
    by_cases hr : rs = []
    · rw [if_pos ((absolute_eq_root hrs).mpr hr), hr, append_nil]
    · rw [if_neg (fun h => hr ((absolute_eq_root hrs).mp h)), absolute_append hm, absolute_eq_slashed hr]
  rw [hunder] at hon ⊢
  obtain ⟨⟨u, r⟩, hfull, heq⟩ := map_eq_some_iff.mp hon
  obtain rfl : u = v := heq
  suffices hr : r = absolute rs by rw [mountedVolumeInfoInternal, hfull, hr]; rfl
  unfold mountedVolumeForPathInternal at hfull
  simp only [normalizePath_absolute hnames] at hfull
  split at hfull
  · cases hfull
  split at hfull
  · cases hfull
  rename_i mount' hmount'
  obtain ⟨rfl, rfl⟩ := Prod.mk.inj (some.inj hfull)
  obtain rfl := mem_unique hat hmount'
  rw [hmount]
  by_cases hm : ms = []
  · rw [if_pos (hroot.mpr hm), hm, nil_append, normalizePath_absolute hrs]
  rw [if_neg (fun h => hm (hroot.mp h))]
  by_cases hr : rs = []
  · rw [hr, append_nil, if_pos rfl]; rfl
  · have hne : absolute (ms ++ rs) ≠ absolute ms := by
      intro h
      have := absolute_inj (fun c hc => (hnames c hc).1) (fun c hc => (hms c hc).1) h
      exact hr (by simpa using this)
    rw [if_neg hne, absolute_append hm, drop_left, ← absolute_eq_slashed hr,
      normalizePath_absolute hrs]

/-- **A file that was written reads back.**  In every run of storage calls: when `fs_write` of `rel` on a
    mounted volume has returned `Ok` and the later calls leave it alone and are lossless, then at every
    later point where the volume is mounted, `fs_read` of `rel` under its mount point returns the data. -/
theorem written_file_reads_back (devs : List PciDevice) (ops later : List Op) (path V rel : Str)
    (fs : FilesystemKind) (data : List UInt8)
    (hinfo : mountedVolumeInfoInternal (ops.foldl step (init devs)) path = some (V, fs, rel))
    (hok : (fsWrite (ops.foldl step (init devs)) path data).1 = .ok ())
    (huntouched : Run.Along step (Untouched (foldCase V) rel)
      (step (ops.foldl step (init devs)) (.fsWrite path data)) later)
    (hlossless : Run.Along step (Lossless (foldCase V) rel)
      (step (ops.foldl step (init devs)) (.fsWrite path data)) later) :
    let st := later.foldl step (step (ops.foldl step (init devs)) (.fsWrite path data))
    ∀ v ∈ st.volumes, v.key = foldCase V → ∀ mount, v.mountedAt = some mount →
      mountedVolumeForPath st (under mount rel) = some v →
      (Storage.fsRead st (under mount rel)).1 = .ok data := by
  intro st v hv hkey mount hat hon
  have hw := wired_run (wired_init devs) ops
  have hw' := hw.effect (hw.step_effect (.fsWrite path data))
  obtain ⟨-, hrel⟩ := resolved hinfo
  have hlasting := (lasting_fsWrite hw hinfo hok).run hw' hrel (huntouched.and hlossless)
  exact hlasting.fsRead (wired_run hw' later) hrel (info_under hrel hat hon) hkey

/-! ## One disk -/

/-- A call that is no change of a node list, no format and no raw write. -/
theorem untouched_of_none {key rel : Str} {op : Op} (hcall : op.treeCall st = none)
    (hformat : ∀ name fs, op ≠ .formatVolume name fs)
    (hsectors : ∀ deviceName lba data, op ≠ .writeSector deviceName lba data) : Untouched key rel st op where
  calls V call nodes h := by rw [hcall] at h; cases h
  format name fs h := absurd h (hformat name fs)
  sectors deviceName lba data h := absurd h (hsectors deviceName lba data)

/-- Unmounting the partition. -/
theorem step_umountAhci (h : Wired st) (hvol : st.volumes = ahciVolumes (some "/mnt".toList)) :
    (step st (.umountVolume "/mnt".toList)).volumes = ahciVolumes none ∧
      ∃ d, diskAt (step st (.umountVolume "/mnt".toList)) "disk0p1".toList = some d := by
  have honly : ∀ v ∈ ahciVolumes (some "/mnt".toList), v.mountedAt = some "/mnt".toList →
      v = ahciPartition (some "/mnt".toList) := by decide
  have hfind : st.volumes.find? (fun v => v.mountedAt == some "/mnt".toList) =
      some (ahciPartition (some "/mnt".toList)) := by
    rw [hvol]; decide
  have hkey : (ahciPartition (some "/mnt".toList)).key = "disk0p1".toList := by decide
  rw [step, exec]
  rcases h.umountVolume_cases "/mnt".toList with ⟨⟨e, he⟩, -⟩ | ⟨v, hv, hat, hcases⟩
  · unfold umountVolume at he
    rw [hfind] at he
    cases congrArg Prod.fst he
  · rw [hvol] at hv
    obtain rfl := honly v hv hat
    rcases hcases with ⟨hfs, -⟩ | ⟨nodes, d, -, -, hd, he⟩
    · exact absurd rfl hfs
    · rw [he]
      constructor
      · show Keyed.change _ _ _ st.volumes = _
        rw [hvol]; decide
      · refine ⟨{ d with block := d.store (serializeTree nodes) }, ?_⟩
        show diskAt (setDisk st _ _) _ = _
        rw [diskAt_setDisk, ← hkey, hd]; rfl

/-- `/f` on the mounted partition, written there. -/
def writeF : Op := .fsWrite "/mnt/f".toList [1]

theorem fsWrite_f : (fsWrite (step (init [ahci]) mountAhci) "/mnt/f".toList [1]).1 = .ok () :=
  ok_of_done (exec_mounted wired_mounted volumes_mounted tree_mounted writeF (.write "/f".toList [1])
    (by decide) (by decide) (by decide))

theorem on_mounted : mountedVolumeForPath ahciMounted "/mnt/f".toList =
    some (ahciPartition (some "/mnt".toList)) := by decide

/-- The partition is unmounted and mounted again. -/
def remount : List Op := [.umountVolume "/mnt".toList, mountAhci]

/-- The file is there after the partition was unmounted and mounted again. -/
theorem written_file_reads_back_remount :
    (fsRead (remount.foldl step (step (step (init [ahci]) mountAhci) writeF)) "/mnt/f".toList).1 =
      .ok [1] := by
  obtain ⟨-, hvol, htree⟩ := update_mounted wired_mounted volumes_mounted tree_mounted
    writeF (.write "/f".toList [1]) (by decide) (by decide)
  have hw := wired_mounted.effect (wired_mounted.step_effect writeF)
  obtain ⟨hvol₂, d, hd⟩ := step_umountAhci hw (hvol.trans volumes_mounted)
  have hw₂ := hw.effect (hw.step_effect (.umountVolume "/mnt".toList))
  obtain ⟨hvol₃, -⟩ := step_mountAhci hw₂ hvol₂ hd
  have hkey : foldCase "disk0p1".toList = "disk0p1".toList := by decide
  have hall := written_file_reads_back [ahci] [mountAhci] remount "/mnt/f".toList "disk0p1".toList
    "/f".toList .fat32 [1]
  rw [List.foldl_cons, List.foldl_nil] at hall
  have hread := hall ((info_congr volumes_mounted _).trans (show mountedVolumeInfoInternal ahciMounted _ = _ by decide))
    fsWrite_f ?_ ?_ (ahciPartition (some "/mnt".toList)) ?_ (by decide)
    "/mnt".toList rfl ?_
  · exact hread
  · exact ⟨untouched_of_none rfl (by rintro _ _ ⟨⟩) (by rintro _ _ _ ⟨⟩),
      untouched_of_none rfl (by rintro _ _ ⟨⟩) (by rintro _ _ _ ⟨⟩), trivial⟩
  · refine ⟨⟨by rintro _ ⟨⟩, ?_, by rintro _ _ _ ⟨⟩⟩, ⟨by rintro _ ⟨⟩, by rintro _ ⟨⟩, by rintro _ _ _ ⟨⟩⟩, trivial⟩
    -- the unmounted list is the default tree and the file
    intro path hpath v hv hat hv' nodes ht
    obtain rfl := Option.mem_unique htree ht
    decide
  · rw [remount, List.foldl_cons, List.foldl_cons, List.foldl_nil]
    have hmem : ahciPartition (some "/mnt".toList) ∈ ahciVolumes (some "/mnt".toList) := by decide
    rw [← hvol₃] at hmem
    exact hmem
  · rw [remount, List.foldl_cons, List.foldl_cons, List.foldl_nil]
    exact (volumeForPath_congr hvol₃ _).trans on_mounted

/-- The disks are discovered anew, and the partition is mounted again. -/
def rediscover : List Op := [.rescan [ahci], mountAhci]

/-- **A rescan loses the file.**  Nothing was written, renamed, deleted, formatted or written raw; the
    volume is mounted, the path is on it, and the file is gone. -/
theorem rescan_loses_file :
    (fsWrite (step (init [ahci]) mountAhci) "/mnt/f".toList [1]).1 = .ok () ∧
    Run.Along step (Untouched "disk0p1".toList "/f".toList) (step (step (init [ahci]) mountAhci) writeF)
      rediscover ∧
    mountedVolumeForPath (rediscover.foldl step (step (step (init [ahci]) mountAhci) writeF))
      "/mnt/f".toList = some (ahciPartition (some "/mnt".toList)) ∧
    (fsRead (rediscover.foldl step (step (step (init [ahci]) mountAhci) writeF)) "/mnt/f".toList).1 ≠
      .ok [1] := by
  have hrescan : ∀ st, step st (.rescan [ahci]) = init [ahci] := by
    intro st
    rfl
  refine ⟨fsWrite_f, ?_, ?_, ?_⟩
  · exact ⟨untouched_of_none rfl (by rintro _ _ ⟨⟩) (by rintro _ _ _ ⟨⟩),
      untouched_of_none rfl (by rintro _ _ ⟨⟩) (by rintro _ _ _ ⟨⟩), trivial⟩
  · rw [rediscover, List.foldl_cons, List.foldl_cons, List.foldl_nil]
    exact (volumeForPath_congr volumes_mounted _).trans on_mounted
  · have hinfo : mountedVolumeInfoInternal ahciMounted "/mnt/f".toList =
        some ("disk0p1".toList, .fat32, "/f".toList) := by decide
    rw [rediscover, List.foldl_cons, List.foldl_cons, List.foldl_nil, hrescan,
      fsRead_mounted volumes_mounted tree_mounted hinfo]
    have hnone : (readIn "/f".toList defaultFatTree).toOption = none := by decide
    intro heq
    rw [heq] at hnone
    cases hnone

end Saios.Storage
