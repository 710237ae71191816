/-
  WHAT A STORAGE CALL DOES, said once.

  1. **`Effect st op st'`** — every call on a wired state leaves one of these states: the same one, a
     volume mounted or unmounted, a volume formatted, a node list changed and saved, a sector written,
     everything rediscovered.  Calls that fail are `same`, with two exceptions that are constructors of
     their own: `format` of a volume without a partition, and `update` when the node list no longer fits.

  2. **`step_effect`** — the one case analysis over the driver's code.

  3. **`wired_reachable`** — the tables stay wired in every run; from here on an invariant of all runs is
     a case analysis over `Effect`.
-/
import Saios.Storage.Calls
import Saios.Storage.Wiring

namespace Saios.Storage

open Bytes Path List Option

/-! ## Node lists of mounted volumes -/

variable {nodes : List FsNode} {call : TreeCall} {d : DiskDevice}

section mounted

variable {st : StorageState} (h : Wired st) {v : DetectedVolume} (hv : v ∈ st.volumes)
  (hm : v.mountedAt.isSome = true)

include h hv hm

/-- A mounted volume with a tree filesystem has its node list. -/
theorem Wired.treeAt_some (hfs : fsSupportsMountTree v.filesystem = true) :
    ∃ nodes, treeAt st v.key = some nodes := by
  rw [← isSome_iff_exists, ← mountedAt_isSome]
  exact (h.tree v hv).mpr ⟨hm, hfs⟩

/-- A mounted FAT32 volume has a node list and a disk. -/
theorem Wired.fat32 (hfs : v.filesystem = .fat32) :
    ∃ nodes d, treeAt st v.key = some nodes ∧ diskAt st v.key = some d := by
  obtain ⟨nodes, hnodes⟩ := h.treeAt_some hv hm (by rw [hfs]; rfl)
  obtain ⟨d, hd⟩ := isSome_iff_exists.mp (h.backed v hv hm hfs)
  exact ⟨nodes, d, hnodes, hd⟩

omit h hv hm in
theorem ensureVolumeMounted_of_tree (ht : treeAt st v.key = some nodes) (fs : FilesystemKind) :
    ensureVolumeMounted st v.name fs = (.ok (), st) := by
  obtain ⟨m, hfind, -⟩ := map_eq_some_iff.mp ht
  have hany : st.mounted.any (isMounted v.name) = true :=
    List.any_eq_true.mpr ⟨m, mem_of_find?_eq_some hfind, find?_some hfind⟩
  rw [ensureVolumeMounted, if_pos hany]

omit h hv hm in
/-- **Reading is a function of the node list and changes nothing.** -/
theorem readTree_eq {α : Type} (ht : treeAt st v.key = some nodes)
    (hfs : fsSupportsMountTree v.filesystem = true) (body : List FsNode → Except String α) :
    readTree st v.name v.filesystem body = (body nodes, st) := by
  obtain ⟨m, hfind, rfl⟩ := map_eq_some_iff.mp ht
  have hfind' : st.mounted.find? (isMounted v.name) = some m := hfind
  rw [readTree, if_neg (by rw [hfs]; decide), ensureVolumeMounted_of_tree ht]
  simp only [hfind']

/-- A read never changes the state. -/
theorem Wired.readTree_state {α : Type} (body : List FsNode → Except String α) :
    (readTree st v.name v.filesystem body).2 = st := by
  cases hfs : fsSupportsMountTree v.filesystem with
  | false => rw [readTree, if_pos hfs]
  | true =>
    obtain ⟨nodes, ht⟩ := h.treeAt_some hv hm hfs
    rw [readTree_eq ht hfs]

omit hv hm in
/-- **A writing call whose checks fail changes nothing.** -/
theorem Wired.updateTree_error (hc : call.Resolved) (ht : treeAt st v.key = some nodes)
    (hno : ¬call.Checks nodes) : ∃ e, updateTree st v.name v.filesystem call.run = (.error e, st) := by
  obtain ⟨m, hfind, rfl⟩ := map_eq_some_iff.mp ht
  obtain ⟨hmem, hkey⟩ := Keyed.mem_of_get hfind
  have hfind' : st.mounted.find? (isMounted v.name) = some m := hfind
  rcases run_cases hc m.nodes with ⟨hyes, -⟩ | ⟨-, e, he⟩
  · exact absurd hyes hno
  · cases hmt : fsSupportsMountTree v.filesystem with
    | false => exact ⟨_, by rw [updateTree, if_pos hmt]⟩
    | true =>
      cases hrw : fsSupportsRwTree v.filesystem with
      | false => exact ⟨_, by rw [updateTree, if_neg (by rw [hmt]; decide), if_pos hrw]⟩
      | true =>
        refine ⟨e, ?_⟩
        rw [updateTree, if_neg (by rw [hmt]; decide), if_neg (by rw [hrw]; decide),
          ensureVolumeMounted_of_tree ht]
        simp only [hfind', he]
        rw [h.trees.modifyFirst_eq_change hfind', h.trees.change_self hmem rfl]

omit hv hm in
/-- **A writing call whose checks pass changes the node list, THEN saves it**: the call fails when the
    new list does not fit, but the list stays changed. -/
theorem Wired.updateTree_ok (hc : call.Resolved) (hfs : v.filesystem = .fat32)
    (ht : treeAt st v.key = some nodes) (hd : diskAt st v.key = some d) (hyes : call.Checks nodes) :
    updateTree st v.name v.filesystem call.run =
      (if (serializeTree (call.after nodes)).length ≤ partCapacity then .ok ()
        else .error "storage: out of space",
        setDisk (setTree st v.key (call.after nodes)) v.key (d.store (serializeTree (call.after nodes)))) := by
  obtain ⟨m, hfind, rfl⟩ := map_eq_some_iff.mp ht
  obtain ⟨hmem, hkey⟩ := Keyed.mem_of_get hfind
  have hfind' : st.mounted.find? (isMounted v.name) = some m := hfind
  rcases run_cases hc m.nodes with ⟨-, hok⟩ | ⟨hno, -⟩
  swap
  · exact absurd hyes hno
  have htree : treeAt (setTree st v.key (call.after m.nodes)) v.key = some (call.after m.nodes) := by
    rw [treeAt_setTree, if_pos rfl, ht]; rfl
  have hset : ({ st with mounted := st.mounted.modifyFirst (isMounted v.name) fun m' =>
      { m' with nodes := call.after m.nodes } } : StorageState) = setTree st v.key (call.after m.nodes) := by
    rw [h.trees.modifyFirst_eq_change hfind', hkey]; rfl
  rw [hfs, updateTree, ensureVolumeMounted_of_tree ht]
  simp only [hfind', hok, hset]
  exact (h.keep_setTree v.key _).save_eq hd htree

end mounted

/-! ## Mounting and formatting -/

def addTree (st : StorageState) (volume : Str) (nodes : List FsNode) : StorageState :=
  { st with mounted := st.mounted ++ [{ volume := volume, nodes := nodes }] }

def dropTree (st : StorageState) (key : Str) : StorageState :=
  { st with mounted := st.mounted.filter fun m => !(m.key == key) }

def DetectedVolume.mountAt (path : Option Str) (v : DetectedVolume) : DetectedVolume :=
  { v with mountedAt := path }

def DetectedVolume.formatAs (fs : FilesystemKind) (v : DetectedVolume) : DetectedVolume :=
  { v with filesystem := fs }

open DetectedVolume (mountAt formatAs)

theorem volumeAt_mountAt (st : StorageState) (key key' : Str) (path : Option Str) :
    volumeAt (setVolume st key (mountAt path)) key' =
      if key' = key then (volumeAt st key').map (mountAt path) else volumeAt st key' :=
  volumeAt_setVolume st key key' fun _ => rfl

theorem volumeAt_formatAs (st : StorageState) (key key' : Str) (fs : FilesystemKind) :
    volumeAt (setVolume st key (formatAs fs)) key' =
      if key' = key then (volumeAt st key').map (formatAs fs) else volumeAt st key' :=
  volumeAt_setVolume st key key' fun _ => rfl

/-- The node lists a mount can bring up. -/
inductive Mountable (st : StorageState) (v : DetectedVolume) : List FsNode → Prop
  | fat {d : DiskDevice} (hfs : v.filesystem = .fat32) (hd : diskAt st v.key = some d) :
      Mountable st v d.tree
  | preview (hfs : v.filesystem ≠ .fat32) (htree : fsSupportsMountTree v.filesystem = true) :
      Mountable st v (defaultRoTree v.filesystem)

variable {st : StorageState} {v : DetectedVolume}

theorem Mountable.supported (h : Mountable st v nodes) : fsSupportsMountTree v.filesystem = true := by
  cases h with
  | fat hfs _ => rw [hfs]; rfl
  | preview _ htree => exact htree

theorem length_defaultFatTree : (serializeTree defaultFatTree).length ≤ partCapacity := by decide

section volumes

variable {st : StorageState} (h : Wired st)

include h

section

variable (hv : v ∈ st.volumes) (hfree : v.mountedAt = none)

include hv hfree

theorem Wired.no_tree : mountedAt st v.key = none := by
  cases hm : mountedAt st v.key with
  | none => rfl
  | some m =>
    have hmounted := ((h.tree v hv).mp (by rw [hm]; rfl)).1
    rw [hfree] at hmounted
    cases hmounted

theorem Wired.not_mounted :
    ¬st.mounted.any (isMounted v.name) = true := by
  rw [List.any_eq_true]
  rintro ⟨m, hm, hkey⟩
  exact Keyed.get_none.mp (h.no_tree hv hfree) m hm (beq_iff_eq.mp hkey)

theorem Wired.ensureVolumeMounted_new (hnodes : Mountable st v nodes) :
    ensureVolumeMounted st v.name v.filesystem = (.ok (), addTree st v.name nodes) := by
  have hfs := hnodes.supported
  unfold ensureVolumeMounted
  rw [if_neg (h.not_mounted hv hfree), if_neg (by rw [hfs]; decide)]
  cases hnodes with
  | fat hfat hd => simp only [if_pos hfat, h.load_eq hd]; rfl
  | preview hne _ => simp only [if_neg hne]; rfl

end

/-- A mount that passes its checks. -/
theorem Wired.mountVolume_tree {name path : Str} (hfind : st.volumes.find? (isVolume name) = some v)
    (hfree : v.mountedAt = none) (hdup : ¬st.volumes.any (fun w => w.mountedAt == some path) = true)
    (hnodes : Mountable st v nodes) (readOnly : Bool) :
    mountVolume st name path readOnly =
      (.ok (), setVolume (addTree st v.name nodes) v.key (mountAt (some path))) := by
  have hset := h.volumes.modifyFirst_eq_change hfind (mountAt (some path))
  unfold mountVolume
  rw [hfind]
  simp only [hfree]
  rw [if_neg hdup]
  simp only [hnodes.supported,
    h.ensureVolumeMounted_new (mem_of_find?_eq_some hfind) hfree hnodes]
  exact congrArg (fun vols => (Except.ok (), { addTree st v.name nodes with volumes := vols })) hset

/-- A mount fails for one of four reasons: no volume, a mounted one, a mount path in use, a FAT32 volume
    that is no partition. -/
theorem Wired.mountVolume_cases (name path : Str) (readOnly : Bool) :
    ((∃ e, mountVolume st name path readOnly = (.error e, st)) ∧ ∀ v, findVolume st name = some v →
      v.mountedAt ≠ none ∨ (∃ u ∈ st.volumes, u.mountedAt = some path) ∨
        (v.filesystem = .fat32 ∧ diskAt st v.key = none)) ∨
    ∃ v ∈ st.volumes, v.key = foldCase name ∧ v.mountedAt = none ∧
      ((fsSupportsMountTree v.filesystem = false ∧ mountVolume st name path readOnly =
          (.ok (), setVolume st v.key (mountAt (some path)))) ∨
        ∃ nodes, Mountable st v nodes ∧ mountVolume st name path readOnly =
          (.ok (), setVolume (addTree st v.name nodes) v.key (mountAt (some path)))) := by
  cases hfind : st.volumes.find? (isVolume name) with
  | none =>
    refine .inl ⟨⟨_, by rw [mountVolume, hfind]⟩, fun v hv => ?_⟩
    rw [findVolume, hfind] at hv
    cases hv
  | some v =>
    obtain ⟨hv, hkey⟩ : v ∈ st.volumes ∧ v.key = foldCase name := Keyed.mem_of_get hfind
    have hfound : ∀ u, findVolume st name = some u → u = v := by
      intro u hu
      rw [findVolume, hfind] at hu
      exact (some.inj hu).symm
    cases hfree : v.mountedAt with
    | some at_ =>
      refine .inl ⟨⟨"storage: volume already mounted", ?_⟩, fun u hu => .inl ?_⟩
      · simp only [mountVolume, hfind, hfree, isSome_some, if_true]
      · rw [hfound u hu, hfree]; exact some_ne_none at_
    | none =>
      by_cases hdup : st.volumes.any (fun w => w.mountedAt == some path) = true
      · refine .inl ⟨⟨"storage: duplicate mount path", ?_⟩, fun u hu => .inr (.inl ?_)⟩
        · simp only [mountVolume, hfind, hfree, isSome_none, Bool.false_eq_true, if_false, if_pos hdup]
        · obtain ⟨u, hu, hat⟩ := List.any_eq_true.mp hdup
          exact ⟨u, hu, beq_iff_eq.mp hat⟩
      · have htree : ∀ nodes, Mountable st v nodes → (∃ nodes, Mountable st v nodes ∧
            mountVolume st name path readOnly = (.ok (), setVolume (addTree st v.name nodes) v.key
              (mountAt (some path)))) :=
          fun nodes hnodes => ⟨nodes, hnodes, h.mountVolume_tree hfind hfree hdup hnodes readOnly⟩
        cases hfs : fsSupportsMountTree v.filesystem with
        | false =>
          refine .inr ⟨v, hv, hkey, hfree, Or.inl ⟨hfs, ?_⟩⟩
          have hset := h.volumes.modifyFirst_eq_change hfind (mountAt (some path))
          simp only [mountVolume, hfind, hfree,
            if_neg hdup, hfs]
          exact congrArg (fun vols => (Except.ok (), { st with volumes := vols })) hset
        | true =>
          by_cases hfat : v.filesystem = .fat32
          · cases hd : diskAt st v.key with
            | some d => exact .inr ⟨v, hv, hkey, hfree, Or.inr (htree _ (.fat hfat hd))⟩
            | none =>
              -- a volume that is no partition cannot be loaded
              have hnot := h.not_mounted hv hfree
              refine .inl ⟨⟨"storage: volume backend unavailable", ?_⟩, fun u hu => .inr (.inr ?_)⟩
              · simp only [mountVolume, hfind, hfree,
                  if_neg hdup, hfs, ensureVolumeMounted, if_neg hnot, if_pos hfat, loadVolumeTree, h.owner_eq, show foldCase v.name = v.key from rfl, hd]
                rfl
              · rw [hfound u hu]; exact ⟨hfat, hd⟩
          · exact .inr ⟨v, hv, hkey, hfree, Or.inr (htree _ (.preview hfat hfs))⟩

theorem Wired.umountVolume_cases (path : Str) :
    ((∃ e, umountVolume st path = (.error e, st)) ∧ ∀ v ∈ st.volumes, v.mountedAt ≠ some path) ∨
    ∃ v ∈ st.volumes, v.mountedAt = some path ∧
      ((v.filesystem ≠ .fat32 ∧ umountVolume st path =
          (.ok (), setVolume (dropTree st v.key) v.key (mountAt none))) ∨
        ∃ nodes d, v.filesystem = .fat32 ∧ treeAt st v.key = some nodes ∧ diskAt st v.key = some d ∧
          umountVolume st path = (.ok (),
            setVolume (dropTree (setDisk st v.key (d.store (serializeTree nodes))) v.key) v.key
              (mountAt none))) := by
  unfold umountVolume
  cases hfind : st.volumes.find? fun v => v.mountedAt == some path with
  | none =>
    refine .inl ⟨⟨_, rfl⟩, fun v hv hat => ?_⟩
    exact find?_eq_none.mp hfind v hv (beq_iff_eq.mpr hat)
  | some v =>
    have hv := mem_of_find?_eq_some hfind
    have hat : v.mountedAt = some path := by simpa using find?_some hfind
    have hset := h.volumes.modifyFirst_eq_change hfind (mountAt none)
    refine .inr ⟨v, hv, hat, ?_⟩
    by_cases hfs : v.filesystem = .fat32
    · obtain ⟨nodes, d, ht, hd⟩ := h.fat32 hv (by rw [hat]; rfl) hfs
      refine .inr ⟨nodes, d, hfs, ht, hd, ?_⟩
      simp only [if_pos hfs, h.save_eq hd ht]
      exact congrArg (fun vols => (Except.ok (),
        { dropTree (setDisk st v.key _) v.key with volumes := vols })) hset
    · refine .inl ⟨hfs, ?_⟩
      simp only [if_neg hfs]
      exact congrArg (fun vols => (Except.ok (), { dropTree st v.key with volumes := vols })) hset

theorem Wired.keep_format (hv : v ∈ st.volumes) (hfree : v.mountedAt = none) (fs : FilesystemKind) :
    Wired (setVolume st v.key (formatAs fs)) := by
  have hno : (formatAs fs v).mountedAt.isSome = false := by
    rw [formatAs, hfree]; rfl
  refine h.changeVolume hv (f := formatAs fs) (fun _ => rfl) rfl rfl h.trees
    (fun _ _ => rfl) ?_ fun hm => ?_
  · rw [mountedAt_setVolume, h.no_tree hv hfree, hno]
    exact ⟨nofun, fun hf => (nomatch hf.1)⟩
  · rw [hno] at hm
    cases hm

omit h in
/-- A volume that is missing or mounted is not formatted. -/
theorem formatVolume_refused {name : Str} (hno : ∀ v, findVolume st name = some v → v.mountedAt ≠ none)
    (fs : FilesystemKind) : ∃ e, formatVolume st name fs = (.error e, st) := by
  unfold formatVolume
  cases hfind : st.volumes.find? (isVolume name) with
  | none => exact ⟨_, rfl⟩
  | some v =>
    have hm : v.mountedAt.isSome = true := isSome_iff_ne_none.mpr (hno v hfind)
    exact ⟨_, by simp only [if_pos hm]; rfl⟩

/-- **Formatting changes the filesystem first**; the call then fails when the volume is to be FAT32 and
    is no partition. -/
theorem Wired.formatVolume_free {name : Str} (hfind : findVolume st name = some v)
    (hfree : v.mountedAt = none) (fs : FilesystemKind) :
    (fs ≠ .fat32 ∧ formatVolume st name fs =
      (.ok (), setVolume st v.key (formatAs fs))) ∨
    (fs = .fat32 ∧ diskAt st v.key = none ∧ formatVolume st name fs =
      (.error "storage: volume backend unavailable", setVolume st v.key (formatAs fs))) ∨
    ∃ d, fs = .fat32 ∧ diskAt st v.key = some d ∧ formatVolume st name fs =
      (.ok (), setDisk (setVolume st v.key (formatAs fs)) v.key
        (d.store (serializeTree defaultFatTree)).flush) := by
  obtain ⟨hv, hkey⟩ : v ∈ st.volumes ∧ v.key = foldCase name := Keyed.mem_of_get hfind
  have hfind' : st.volumes.find? (isVolume name) = some v := hfind
  have hset : ({ st with volumes := st.volumes.modifyFirst (isVolume name) fun v =>
      { v with filesystem := fs } } : StorageState) =
      setVolume st v.key (formatAs fs) := by
    rw [h.volumes.modifyFirst_eq_change hfind]; rfl
  have hw := h.keep_format hv hfree fs
  unfold formatVolume
  simp only [hfind', hfree, hset]
  by_cases hfs : fs = .fat32
  · right
    simp only [if_pos hfs]
    cases hd : diskAt st v.key with
    | none =>
      rw [hw.owner_eq, ← hkey, show diskAt (setVolume st v.key _) v.key = none from hd]
      exact .inl ⟨hfs, rfl, rfl⟩
    | some d =>
      have hd' : diskAt (setVolume st v.key (formatAs fs)) (foldCase name) = some d := by
        rw [← hkey]; exact hd
      obtain ⟨hmem, hpart⟩ := hw.disk_iff.mp hd'
      have hstd := hw.standard d hmem
      rw [hw.owner_eq, hd']
      simp only [hw.findOwner_eq hmem]
      rw [writePartitionBytes_eq hstd.sized hstd.inside, hstd.capacity, if_pos length_defaultFatTree]
      simp only
      rw [hw.setBlock_eq hmem, hpart, ← hkey]
      exact .inr ⟨d, hfs, rfl, rfl⟩
  · rw [if_neg hfs]
    exact .inl ⟨hfs, rfl⟩

/-! ## Sectors -/

omit h in
/-- The disk's device after a write of one sector. -/
def DiskDevice.patchSector (d : DiskDevice) (sector : Nat) (data : List UInt8) : RamBlockDevice :=
  { d.block with bytes := patch (sector * 512) data d.block.bytes, dirty := true }

omit h in
theorem DiskDevice.Standard.patchSector (hstd : d.Standard) {sector : Nat} {data : List UInt8}
    (hsector : sector < 4096) (hdata : data.length = 512) :
    DiskDevice.Standard { d with block := d.patchSector sector data } := by
  have hlen : d.block.bytes.length = 4096 * 512 := by
    rw [hstd.sized.length, hstd.sectors, hstd.sectorSize]
  exact ⟨hstd.sized.patch (by omega) true, hstd.sectors, hstd.sectorSize, hstd.partitions⟩

theorem Wired.changeDisk {p : DiskDevice → Bool} (hfind : st.disks.find? p = some d)
    {f : DiskDevice → DiskDevice} {block : RamBlockDevice} (hf : f d = { d with block := block }) :
    ({ st with disks := st.disks.modifyFirst p f } : StorageState) = setDisk st d.partKey block := by
  rw [h.disks.modifyFirst_eq_change hfind, h.disks.change_congr (mem_of_find?_eq_some hfind)
    (g := fun d' => { d' with block := block }) hf]
  rfl

theorem Wired.writeSector_cases (deviceName : Str) (lba : Nat) (data : List UInt8) :
    (∃ e, writeSector st deviceName lba data = (.error e, st)) ∨
    ∃ d sector, st.disks.find? (fun disk => (targetOn deviceName disk).isSome) = some d ∧
      targetLba ((targetOn deviceName d).getD none) lba = .ok sector ∧ sector < 4096 ∧
      data.length = 512 ∧
      writeSector st deviceName lba data = (.ok (), setDisk st d.partKey (d.patchSector sector data)) := by
  unfold writeSector
  cases hfind : st.disks.find? fun disk => (targetOn deviceName disk).isSome with
  | none => exact .inl ⟨_, rfl⟩
  | some d =>
    have hd := mem_of_find?_eq_some hfind
    have hstd := h.standard d hd
    cases ht : targetLba ((targetOn deviceName d).getD none) lba with
    | error e => exact .inl ⟨e, by simp only [ht]⟩
    | ok sector =>
      simp only [ht]
      by_cases hok : sector < 4096 ∧ data.length = 512
      · rw [writeSector_eq hstd.sized (by rw [hstd.sectors]; exact hok.1)
          (by rw [hstd.sectorSize]; exact hok.2)]
        refine .inr ⟨d, sector, rfl, ht, hok.1, hok.2, ?_⟩
        rw [h.changeDisk hfind rfl, DiskDevice.patchSector, ← hstd.sectorSize]
      · -- a refused write hands the device back as it was
        have hrefused : ∃ e, d.block.writeSector sector data = (.error e, d.block) := by
          unfold RamBlockDevice.writeSector
          rw [hstd.sectors, hstd.sectorSize]
          by_cases hle : 4096 ≤ sector
          · exact ⟨_, if_pos hle⟩
          · exact ⟨_, by rw [if_neg hle, if_pos (fun hlen => hok ⟨by omega, hlen⟩)]⟩
        obtain ⟨e, he⟩ := hrefused
        rw [he]
        refine .inl ⟨e, ?_⟩
        rw [h.changeDisk hfind rfl, setDisk, h.disks.change_self hd rfl]

theorem Wired.flush_cases (deviceName : Str) :
    (∃ e, flush st deviceName = (.error e, st)) ∨
    ∃ d ∈ st.disks, flush st deviceName = (.ok (), setDisk st d.partKey d.block.flush) := by
  unfold flush
  cases hfind : st.disks.find? fun disk => (targetOn deviceName disk).isSome with
  | none => exact .inl ⟨_, rfl⟩
  | some d =>
    refine .inr ⟨d, mem_of_find?_eq_some hfind, ?_⟩
    simp only [h.changeDisk hfind (f := fun disk => { disk with block := disk.block.flush }) rfl]

end volumes

/-! ## The effect of a call -/

inductive Effect (st : StorageState) : Op → StorageState → Prop
  | same (op : Op) : Effect st op st
  | mount {name path : Str} {readOnly : Bool} {v : DetectedVolume} (hv : v ∈ st.volumes)
      (hkey : v.key = foldCase name) (hfree : v.mountedAt = none)
      (hfs : fsSupportsMountTree v.filesystem = false) :
      Effect st (.mountVolume name path readOnly)
        (setVolume st v.key (mountAt (some path)))
  | mountTree {name path : Str} {readOnly : Bool} {v : DetectedVolume} {nodes : List FsNode}
      (hv : v ∈ st.volumes) (hkey : v.key = foldCase name) (hfree : v.mountedAt = none)
      (hnodes : Mountable st v nodes) :
      Effect st (.mountVolume name path readOnly)
        (setVolume (addTree st v.name nodes) v.key (mountAt (some path)))
  | umount {path : Str} {v : DetectedVolume} (hv : v ∈ st.volumes) (hat : v.mountedAt = some path)
      (hfs : v.filesystem ≠ .fat32) :
      Effect st (.umountVolume path) (setVolume (dropTree st v.key) v.key (mountAt none))
  | umountSaved {path : Str} {v : DetectedVolume} {nodes : List FsNode} {d : DiskDevice}
      (hv : v ∈ st.volumes) (hat : v.mountedAt = some path) (hfs : v.filesystem = .fat32)
      (ht : treeAt st v.key = some nodes) (hd : diskAt st v.key = some d) :
      Effect st (.umountVolume path)
        (setVolume (dropTree (setDisk st v.key (d.store (serializeTree nodes))) v.key) v.key
          (mountAt none))
  | format {name : Str} {fs : FilesystemKind} {v : DetectedVolume} (hv : v ∈ st.volumes)
      (hkey : v.key = foldCase name) (hfree : v.mountedAt = none)
      (hfs : fs = .fat32 → diskAt st v.key = none) :
      Effect st (.formatVolume name fs) (setVolume st v.key (formatAs fs))
  | formatSaved {name : Str} {v : DetectedVolume} {d : DiskDevice} (hv : v ∈ st.volumes)
      (hkey : v.key = foldCase name) (hfree : v.mountedAt = none) (hd : diskAt st v.key = some d) :
      Effect st (.formatVolume name .fat32)
        (setDisk (setVolume st v.key (formatAs .fat32)) v.key
          (d.store (serializeTree defaultFatTree)).flush)
  | update {op : Op} {v : DetectedVolume} {call : TreeCall} {nodes : List FsNode} {d : DiskDevice}
      (hcall : op.treeCall st = some (v.name, .fat32, call)) (hres : call.Resolved)
      (hv : v ∈ st.volumes) (hm : v.mountedAt.isSome = true) (hfs : v.filesystem = .fat32)
      (ht : treeAt st v.key = some nodes) (hd : diskAt st v.key = some d) (hchecks : call.Checks nodes) :
      Effect st op (setDisk (setTree st v.key (call.after nodes)) v.key
        (d.store (serializeTree (call.after nodes))))
  | sector {deviceName : Str} {lba sector : Nat} {data : List UInt8} {d : DiskDevice}
      (hfind : st.disks.find? (fun disk => (targetOn deviceName disk).isSome) = some d)
      (htarget : targetLba ((targetOn deviceName d).getD none) lba = .ok sector)
      (hsector : sector < 4096) (hdata : data.length = 512) :
      Effect st (.writeSector deviceName lba data) (setDisk st d.partKey (d.patchSector sector data))
  | flush {deviceName : Str} {d : DiskDevice} (hd : d ∈ st.disks) :
      Effect st (.flush deviceName) (setDisk st d.partKey d.block.flush)
  | rescan (devs : List PciDevice) : Effect st (.rescan devs) (init devs)

variable {op : Op} {V : Str}

section effects

variable {st : StorageState} (h : Wired st)

include h

section

variable (hcall : op.treeCall st = some (V, .fat32, call)) (ht : treeAt st (foldCase V) = some nodes)
  (hchecks : call.Checks nodes)

include hcall ht hchecks

/-- **A writing call that passes its checks** changes the node list and succeeds exactly when the new
    list fits. -/
theorem Wired.exec_update :
    ∃ d, diskAt st (foldCase V) = some d ∧ exec st op = reply (fun _ => .done)
      (if (serializeTree (call.after nodes)).length ≤ partCapacity then .ok ()
        else .error "storage: out of space",
        setDisk (setTree st (foldCase V) (call.after nodes)) (foldCase V)
          (d.store (serializeTree (call.after nodes)))) := by
  obtain ⟨hexec, hres, v, hv, rfl, hfs, hm⟩ := exec_treeCall hcall
  obtain ⟨d, hd⟩ := isSome_iff_exists.mp (h.backed v hv hm hfs)
  refine ⟨d, hd, ?_⟩
  rw [hexec, ← hfs, h.updateTree_ok hres hfs ht hd hchecks]; rfl

theorem Wired.step_update :
    (step st op).volumes = st.volumes ∧ treeAt (step st op) (foldCase V) = some (call.after nodes) := by
  obtain ⟨d, -, hexec⟩ := h.exec_update hcall ht hchecks
  rw [step, hexec]
  refine ⟨rfl, ?_⟩
  show treeAt (setDisk _ _ _) _ = _
  rw [treeAt_setDisk, treeAt_setTree, if_pos rfl, ht]; rfl

end

/-- A writing call whose checks fail. -/
theorem Wired.exec_refused {fs : FilesystemKind} (hcall : op.treeCall st = some (V, fs, call))
    (ht : treeAt st (foldCase V) = some nodes) (hno : ¬call.Checks nodes) :
    ∃ e, exec st op = (.failed e, st) := by
  obtain ⟨hexec, hres, v, hv, rfl, rfl, hm⟩ := exec_treeCall hcall
  obtain ⟨e, he⟩ := h.updateTree_error hres ht hno
  exact ⟨e, by rw [hexec, he]; rfl⟩

/-- **What a writing call does**: it fails without a trace, or it passes its checks and changes the node
    list. -/
theorem Wired.exec_writes (hw : op.Writes) :
    (∃ e, exec st op = (.failed e, st)) ∨
    ∃ v call nodes d, op.treeCall st = some (v.name, .fat32, call) ∧ call.Resolved ∧ v ∈ st.volumes ∧
      v.mountedAt.isSome = true ∧ v.filesystem = .fat32 ∧ treeAt st v.key = some nodes ∧
      diskAt st v.key = some d ∧ call.Checks nodes ∧
      exec st op = reply (fun _ => .done)
        (if (serializeTree (call.after nodes)).length ≤ partCapacity then .ok ()
          else .error "storage: out of space",
          setDisk (setTree st v.key (call.after nodes)) v.key
            (d.store (serializeTree (call.after nodes)))) := by
  cases hcall : op.treeCall st with
  | none => exact .inl (exec_no_treeCall hw hcall)
  | some r =>
    obtain ⟨V, fs, call⟩ := r
    obtain ⟨hexec, hres, v, hv, rfl, rfl, hm⟩ := exec_treeCall hcall
    rw [hexec]
    by_cases hfs : v.filesystem = .fat32
    · obtain ⟨nodes, d, ht, hd⟩ := h.fat32 hv hm hfs
      by_cases hchecks : call.Checks nodes
      · refine .inr ⟨v, call, nodes, d, by rw [hfs], hres, hv, hm, hfs, ht, hd, hchecks, ?_⟩
        rw [h.updateTree_ok hres hfs ht hd hchecks]
      · rw [← hexec]
        exact .inl (h.exec_refused hcall ht hchecks)
    · -- the other filesystems cannot be written
      have hrw : fsSupportsRwTree v.filesystem = false := beq_eq_false_iff_ne.mpr hfs
      cases hmt : fsSupportsMountTree v.filesystem with
      | false => exact .inl ⟨_, by rw [updateTree, if_pos hmt]; rfl⟩
      | true => exact .inl ⟨_, by rw [updateTree, if_neg (by rw [hmt]; decide), if_pos hrw]; rfl⟩

/-- **Reads change nothing.** -/
theorem Wired.step_reads {path : Str} :
    step st (.fsRead path) = st ∧ step st (.fsStat path) = st ∧ step st (.fsReaddir path) = st ∧
      step st (.usedBytes path) = st := by
  simp only [step, exec, fsRead, fsStat, fsReaddir, usedBytes]
  cases hr : mountedVolumeInfoInternal st path with
  | none => exact ⟨rfl, rfl, rfl, rfl⟩
  | some r =>
    obtain ⟨V, fs, rel⟩ := r
    obtain ⟨⟨v, hv, rfl, rfl, hm⟩, -⟩ := resolved hr
    refine ⟨h.readTree_state hv hm _, h.readTree_state hv hm _, h.readTree_state hv hm _, ?_⟩
    simp only
    split
    · rfl
    · have hstate := h.readTree_state hv hm fun nodes => .ok (usedIn nodes)
      split
      · rename_i hread
        rw [hread] at hstate
        exact hstate
      · rename_i hread
        rw [hread] at hstate
        exact hstate

/-- **Every call does one of the listed things.** -/
theorem Wired.step_effect (op : Op) : Effect st op (step st op) := by
  have hwrites : op.Writes → Effect st op (step st op) := by
    intro hw
    rcases h.exec_writes hw with ⟨e, he⟩ | ⟨v, call, nodes, d, hcall, hres, hv, hm, hfs, ht, hd, hchecks, he⟩
    · rw [step, he]; exact .same op
    · rw [step, he]; exact .update hcall hres hv hm hfs ht hd hchecks
  cases op with
  | mountVolume name path readOnly =>
    rw [step, exec]
    rcases h.mountVolume_cases name path readOnly with
      ⟨⟨e, he⟩, -⟩ | ⟨v, hv, hkey, hfree, ⟨hfs, he⟩ | ⟨nodes, hnodes, he⟩⟩
    · rw [he]; exact .same _
    · rw [he]; exact .mount hv hkey hfree hfs
    · rw [he]; exact .mountTree hv hkey hfree hnodes
  | umountVolume path =>
    rw [step, exec]
    rcases h.umountVolume_cases path with
      ⟨⟨e, he⟩, -⟩ | ⟨v, hv, hat, ⟨hfs, he⟩ | ⟨nodes, d, hfs, ht, hd, he⟩⟩
    · rw [he]; exact .same _
    · rw [he]; exact .umount hv hat hfs
    · rw [he]; exact .umountSaved hv hat hfs ht hd
  | formatVolume name fs =>
    rw [step, exec]
    by_cases hno : ∀ v, findVolume st name = some v → v.mountedAt ≠ none
    · obtain ⟨e, he⟩ := formatVolume_refused hno fs
      rw [he]; exact .same _
    · push Not at hno
      obtain ⟨v, hfind, hfree⟩ := hno
      obtain ⟨hv, hkey⟩ : v ∈ st.volumes ∧ v.key = foldCase name := Keyed.mem_of_get hfind
      rcases h.formatVolume_free hfind hfree fs with ⟨hfs, he⟩ | ⟨hfs, hd, he⟩ | ⟨d, rfl, hd, he⟩
      · rw [he]; exact .format hv hkey hfree fun hfat => absurd hfat hfs
      · rw [he]; exact .format hv hkey hfree fun _ => hd
      · rw [he]; exact .formatSaved hv hkey hfree hd
  | rescan devs => exact .rescan devs
  | fsCreate path | fsMkdir path | fsDelete path | fsRename source target | fsWrite path data =>
    exact hwrites trivial
  | fsRead path => rw [h.step_reads.1]; exact .same _
  | fsStat path => rw [h.step_reads.2.1]; exact .same _
  | fsReaddir path => rw [h.step_reads.2.2.1]; exact .same _
  | usedBytes path => rw [h.step_reads.2.2.2]; exact .same _
  | readSector deviceName lba outLen => exact .same _
  | writeSector deviceName lba data =>
    rw [step, exec]
    rcases h.writeSector_cases deviceName lba data with
      ⟨e, he⟩ | ⟨d, sector, hfind, htarget, hsector, hdata, he⟩
    · rw [he]; exact .same _
    · rw [he]; exact .sector hfind htarget hsector hdata
  | flush deviceName =>
    rw [step, exec]
    rcases h.flush_cases deviceName with ⟨e, he⟩ | ⟨d, hd, he⟩
    · rw [he]; exact .same _
    · rw [he]; exact .flush hd

end effects

/-! ## The tables stay wired -/

section mountedAt

variable {st : StorageState}

theorem mountedAt_addTree (hno : mountedAt st v.key = none) (nodes : List FsNode) (key : Str) :
    mountedAt (addTree st v.name nodes) key =
      if key = v.key then some { volume := v.name, nodes := nodes } else mountedAt st key :=
  Keyed.get_append (k := MountedFs.key) (a := { volume := v.name, nodes := nodes }) hno key

theorem mountedAt_dropTree (key key' : Str) : mountedAt (dropTree st key) key' =
    if key' = key then none else mountedAt st key' := Keyed.get_drop key key'

theorem treeAt_addTree (hno : mountedAt st v.key = none) (nodes : List FsNode) (key : Str) :
    treeAt (addTree st v.name nodes) key = if key = v.key then some nodes else treeAt st key := by
  rw [treeAt, mountedAt_addTree hno]
  split <;> rfl

theorem treeAt_dropTree (key key' : Str) : treeAt (dropTree st key) key' =
    if key' = key then none else treeAt st key' := by
  rw [treeAt, mountedAt_dropTree]
  split <;> rfl

end mountedAt

theorem Wired.keep_umount (h : Wired st) (hv : v ∈ st.volumes) :
    Wired (setVolume (dropTree st v.key) v.key (mountAt none)) := by
  refine h.changeVolume hv (f := mountAt none) (fun _ => rfl) rfl rfl
    (h.trees.filter _) (fun key hne => ?_) ?_ nofun
  · rw [mountedAt_setVolume, mountedAt_dropTree, if_neg hne]
  · rw [mountedAt_setVolume, mountedAt_dropTree, if_pos rfl]
    exact ⟨nofun, fun hf => (nomatch hf.1)⟩

theorem Wired.effect {st' : StorageState} (h : Wired st) (he : Effect st op st') : Wired st' := by
  cases he with
  | same => exact h
  | @mount name path readOnly v hv hkey hfree hfs =>
    refine h.changeVolume hv (f := mountAt _) (fun _ => rfl) rfl rfl h.trees
      (fun _ _ => rfl) ?_ fun _ hfat => ?_
    · rw [mountedAt_setVolume, h.no_tree hv hfree]
      exact ⟨nofun, fun hf => absurd (hfs.symm.trans hf.2) (by decide)⟩
    · rw [show v.filesystem = .fat32 from hfat] at hfs
      cases hfs
  | @mountTree name path readOnly v nodes hv hkey hfree hnodes =>
    have hno := h.no_tree hv hfree
    refine h.changeVolume hv (f := mountAt _) (fun _ => rfl) rfl rfl
      (h.trees.append hno) (fun key hne => ?_) ?_ fun _ hfat => ?_
    · rw [mountedAt_setVolume, mountedAt_addTree hno, if_neg hne]
    · rw [mountedAt_setVolume, mountedAt_addTree hno, if_pos rfl]
      exact ⟨fun _ => ⟨rfl, hnodes.supported⟩, fun _ => rfl⟩
    · cases hnodes with
      | fat _ hd => rw [hd]; rfl
      | preview hne _ => exact absurd hfat hne
  | umount hv hat hfs => exact h.keep_umount hv
  | umountSaved hv hat hfs ht hd =>
    exact (h.keep_setDisk hd ((h.standardAt hd).stored _)).keep_umount hv
  | format hv hkey hfree hfs => exact h.keep_format hv hfree _
  | formatSaved hv hkey hfree hd =>
    have hstored := (h.standardAt hd).stored (serializeTree defaultFatTree)
    exact (h.keep_format hv hfree _).keep_setDisk hd
      ⟨⟨hstored.sized.length, hstored.sized.small, hstored.sized.pos⟩, hstored.sectors, hstored.sectorSize,
        hstored.partitions⟩
  | update hcall hres hv hm hfs ht hd hchecks =>
    exact (h.keep_setTree _ _).keep_setDisk hd ((h.standardAt hd).stored _)
  | sector hfind htarget hsector hdata =>
    have hd := mem_of_find?_eq_some hfind
    exact h.keep_setDisk (h.disk_iff.mpr ⟨hd, rfl⟩) ((h.standard _ hd).patchSector hsector hdata)
  | @flush deviceName d hd =>
    have hstd := h.standard d hd
    exact h.keep_setDisk (h.disk_iff.mpr ⟨hd, rfl⟩)
      ⟨⟨hstd.sized.length, hstd.sized.small, hstd.sized.pos⟩, hstd.sectors, hstd.sectorSize, hstd.partitions⟩
  | rescan devs => exact wired_init devs

/-- A state of the driver: what some calls leave of a freshly discovered one. -/
def Reachable (st : StorageState) : Prop := ∃ devs ops, st = List.foldl step (init devs) ops

theorem wired_run (h : Wired st) (ops : List Op) : Wired (ops.foldl step st) :=
  Run.foldl_inv (fun _ op hw => hw.effect (hw.step_effect op)) ops h

/-- **The tables are wired in every state of the driver.** -/
theorem wired_reachable (h : Reachable st) : Wired st := by
  obtain ⟨devs, ops, rfl⟩ := h
  exact wired_run (wired_init devs) ops

end Saios.Storage
