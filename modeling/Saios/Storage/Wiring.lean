/-
  THE TABLES OF THE STORAGE STATE AND HOW THEY HANG TOGETHER.

  The state is three lists — volumes, mounted node lists, disks — that refer to each other BY NAME, and
  names are compared without regard to case.

  1. **Views** — each list is a table keyed by the case-folded name (`Keyed`): `volumeAt`, `treeAt`, and
     `diskAt`, the disk whose partition a volume is.  `setTree` / `setBlock` change one entry.

  2. **Wired** — the invariant of EVERY run (`wired_reachable`), raw sector writes and failed calls
     included: keys are distinct, every disk is one 2 MiB device with one FAT32 partition, a volume has
     a node list exactly when it is mounted with a tree filesystem, and a mounted FAT32 volume has a
     disk behind it.  Nothing is said about what the node lists or the sectors hold.

  3. **Disks behind volumes** — under `Wired` the searches by name succeed, so loading a volume reads its
     disk (`load_eq`) and saving one writes it (`save_eq`).
-/
import Saios.Lib.Keyed
import Saios.Lib.Run
import Saios.Storage.State

namespace Saios.Storage

open Bytes Path List Option

/-! ## The tables -/

/-- What a name is compared by. -/
def foldCase (s : Str) : Str := s.map Char.toLower

def DetectedVolume.key (v : DetectedVolume) : Str := foldCase v.name

def MountedFs.key (m : MountedFs) : Str := foldCase m.volume

/-- A disk is looked up by its PARTITION's name. -/
def DiskDevice.partKey (d : DiskDevice) : Str := foldCase (d.name ++ "p1".toList)

def volumeAt (st : StorageState) (key : Str) : Option DetectedVolume :=
  Keyed.get DetectedVolume.key st.volumes key

def mountedAt (st : StorageState) (key : Str) : Option MountedFs :=
  Keyed.get MountedFs.key st.mounted key

def treeAt (st : StorageState) (key : Str) : Option (List FsNode) := (mountedAt st key).map MountedFs.nodes

def diskAt (st : StorageState) (key : Str) : Option DiskDevice :=
  Keyed.get DiskDevice.partKey st.disks key

/-- The bytes of the disk's partition. -/
def DiskDevice.image (d : DiskDevice) : List UInt8 := (newPartition d.name).slice d.block

def setVolume (st : StorageState) (key : Str) (f : DetectedVolume → DetectedVolume) : StorageState :=
  { st with volumes := Keyed.change DetectedVolume.key key f st.volumes }

def setTree (st : StorageState) (key : Str) (nodes : List FsNode) : StorageState :=
  { st with mounted := Keyed.change MountedFs.key key (fun m => { m with nodes := nodes }) st.mounted }

def setDisk (st : StorageState) (key : Str) (block : RamBlockDevice) : StorageState :=
  { st with disks := Keyed.change DiskDevice.partKey key (fun d => { d with block := block }) st.disks }

/-- How many bytes a partition of the driver's disks holds: 1 MiB. -/
def partCapacity : Nat := 2048 * 512

/-- The disk with `bytes` in its partition. -/
def DiskDevice.store (d : DiskDevice) (bytes : List UInt8) : RamBlockDevice :=
  (newPartition d.name).overwrite d.block bytes

/-- The device is one of the driver's disks: 4096 sectors of 512 bytes with one partition. -/
structure DiskDevice.Standard (d : DiskDevice) : Prop where
  sized : d.block.Sized
  sectors : d.block.sectors = 4096
  sectorSize : d.block.sectorSize = 512
  partitions : d.partitions = [newPartition d.name]

structure Wired (st : StorageState) : Prop where
  volumes : Keyed.Distinct DetectedVolume.key st.volumes
  trees : Keyed.Distinct MountedFs.key st.mounted
  disks : Keyed.Distinct DiskDevice.partKey st.disks
  standard : ∀ d ∈ st.disks, d.Standard
  /-- A volume has a node list exactly when it is mounted with a tree filesystem. -/
  tree : ∀ v ∈ st.volumes, (mountedAt st v.key).isSome = true ↔
    v.mountedAt.isSome = true ∧ fsSupportsMountTree v.filesystem = true
  /-- A mounted FAT32 volume is a partition. -/
  backed : ∀ v ∈ st.volumes, v.mountedAt.isSome = true → v.filesystem = .fat32 →
    (diskAt st v.key).isSome = true

/-! ## One entry changed -/

section views

variable (st : StorageState) (key key' : Str)

theorem mountedAt_setTree (nodes : List FsNode) : mountedAt (setTree st key nodes) key' =
    if key' = key then (mountedAt st key').map fun m => { m with nodes := nodes } else mountedAt st key' :=
  Keyed.get_change (k := MountedFs.key) (f := fun m => { m with nodes := nodes }) (fun _ => rfl) key'

theorem treeAt_setTree (nodes : List FsNode) : treeAt (setTree st key nodes) key' =
    if key' = key then (treeAt st key').map fun _ => nodes else treeAt st key' := by
  unfold treeAt
  rw [mountedAt_setTree]
  split
  · rw [Option.map_map, Option.map_map]; rfl
  · rfl

theorem diskAt_setDisk (block : RamBlockDevice) : diskAt (setDisk st key block) key' =
    if key' = key then (diskAt st key').map fun d => { d with block := block } else diskAt st key' :=
  Keyed.get_change (k := DiskDevice.partKey) (f := fun d => { d with block := block }) (fun _ => rfl) key'

theorem volumeAt_setVolume {f : DetectedVolume → DetectedVolume} (hf : ∀ v, (f v).name = v.name) :
    volumeAt (setVolume st key f) key' =
      if key' = key then (volumeAt st key').map f else volumeAt st key' :=
  Keyed.get_change (k := DetectedVolume.key) (fun v => congrArg foldCase (hf v)) key'

@[simp] theorem volumes_setDisk (b : RamBlockDevice) : (setDisk st key b).volumes = st.volumes := rfl
@[simp] theorem treeAt_setDisk (b : RamBlockDevice) :
    treeAt (setDisk st key b) key' = treeAt st key' := rfl
@[simp] theorem volumeAt_setDisk (b : RamBlockDevice) :
    volumeAt (setDisk st key b) key' = volumeAt st key' := rfl
@[simp] theorem diskAt_setTree (nodes : List FsNode) :
    diskAt (setTree st key nodes) key' = diskAt st key' := rfl
section

variable (f : DetectedVolume → DetectedVolume)

include f

@[simp] theorem diskAt_setVolume :
    diskAt (setVolume st key f) key' = diskAt st key' := rfl
@[simp] theorem treeAt_setVolume :
    treeAt (setVolume st key f) key' = treeAt st key' := rfl
@[simp] theorem mountedAt_setVolume :
    mountedAt (setVolume st key f) key' = mountedAt st key' := rfl

end

end views

theorem mountedAt_isSome (st : StorageState) (key : Str) :
    (mountedAt st key).isSome = (treeAt st key).isSome := (isSome_map ..).symm

variable {key : Str}

theorem mem_of_treeAt {st : StorageState} {nodes : List FsNode} (h : treeAt st key = some nodes) :
    ∃ m ∈ st.mounted, m.key = key ∧ m.nodes = nodes := by
  obtain ⟨m, hm, hnodes⟩ := map_eq_some_iff.mp h
  obtain ⟨hmem, hkey⟩ := Keyed.mem_of_get hm
  exact ⟨m, hmem, hkey, hnodes⟩

/-! ## The searches by name -/

variable {d : DiskDevice}

theorem partKey_inj {d' : DiskDevice} : d.partKey = d'.partKey ↔ foldCase d.name = foldCase d'.name := by
  unfold DiskDevice.partKey foldCase
  rw [map_append, map_append, append_cancel_right_eq]

section wired

variable {st : StorageState} (h : Wired st)

include h

theorem Wired.volume_iff {v : DetectedVolume} :
    volumeAt st key = some v ↔ v ∈ st.volumes ∧ v.key = key := h.volumes.get_iff

theorem Wired.disk_iff : diskAt st key = some d ↔ d ∈ st.disks ∧ d.partKey = key := h.disks.get_iff

theorem Wired.standardAt (hd : diskAt st key = some d) : d.Standard :=
  h.standard d (h.disk_iff.mp hd).1

theorem Wired.findDisk (hd : d ∈ st.disks) : st.disks.find? (isDisk d.name) = some d := by
  rw [← (h.disk_iff.mpr ⟨hd, rfl⟩ : diskAt st d.partKey = some d)]
  refine find?_congr fun d' _ => ?_
  rw [Bool.eq_iff_iff, beq_iff_eq, partKey_inj]
  exact beq_iff_eq

theorem Wired.owners : (st.disks.flatMap fun disk => disk.partitions.map fun part => (disk.name, part.name))
    = st.disks.map fun d => (d.name, d.name ++ "p1".toList) := by
  rw [← flatMap_singleton' (st.disks.map _), flatMap_map]
  refine flatMap_congr fun d hd => ?_
  rw [(h.standard d hd).partitions]; rfl

/-- The owner of a volume is the disk whose partition it names. -/
theorem Wired.owner_eq (volume : Str) : resolveVolumeOwner st volume = match diskAt st (foldCase volume) with
    | some d => .ok (d.name, d.name ++ "p1".toList)
    | none => .error "storage: volume backend unavailable" := by
  unfold resolveVolumeOwner
  simp only [h.owners]
  rw [find?_map]
  have hfind : st.disks.find? ((fun o : Str × Str => eqIgnoreAsciiCase o.2 volume) ∘
      fun d : DiskDevice => (d.name, d.name ++ "p1".toList)) = diskAt st (foldCase volume) := rfl
  rw [hfind]
  cases diskAt st (foldCase volume) <;> rfl

theorem Wired.findOwner_eq (hd : d ∈ st.disks) :
    findOwner st d.name (d.name ++ "p1".toList) = .ok (d, newPartition d.name) := by
  unfold findOwner
  rw [h.findDisk hd]
  simp only [(h.standard d hd).partitions]
  rw [find?_cons_of_pos (by simp [isPartition, eqIgnoreAsciiCase, newPartition])]

theorem Wired.setBlock_eq (hd : d ∈ st.disks) (block : RamBlockDevice) :
    setBlock st d.name block = setDisk st d.partKey block := by
  rw [setBlock, h.disks.modifyFirst_eq_change (h.findDisk hd)]; rfl

end wired

/-! ## Loading and saving -/

theorem DiskDevice.Standard.inside (h : d.Standard) : (newPartition d.name).Inside d.block := by
  rw [Partition.Inside, h.sectors]; exact (by decide : 2048 + 2048 ≤ 4096)

theorem DiskDevice.Standard.capacity (h : d.Standard) :
    (newPartition d.name).capacity d.block = partCapacity := by
  rw [Partition.capacity, h.sectorSize]; rfl

theorem DiskDevice.Standard.image_store (h : d.Standard) (bytes : List UInt8) :
    DiskDevice.image { d with block := d.store bytes } = fit partCapacity bytes := by
  rw [← h.capacity]
  exact Partition.slice_overwrite h.sized h.inside bytes

theorem DiskDevice.Standard.stored (h : d.Standard) (bytes : List UInt8) :
    DiskDevice.Standard { d with block := d.store bytes } :=
  { h with sized := Partition.sized_overwrite h.sized h.inside bytes }

/-- The node list that mounting the disk's partition gives. -/
def DiskDevice.tree (d : DiskDevice) : List FsNode := (deserializeTree d.image).getD defaultFatTree

section loadSave

variable {st : StorageState} (h : Wired st) {volume : Str}

include h

theorem Wired.load_eq (hd : diskAt st (foldCase volume) = some d) :
    loadVolumeTree st volume = .ok d.tree := by
  obtain ⟨hmem, -⟩ := h.disk_iff.mp hd
  have hstd := h.standard d hmem
  unfold loadVolumeTree
  rw [h.owner_eq, hd]
  simp only [h.findOwner_eq hmem]
  rw [readPartitionBytes_eq hstd.sized hstd.inside]; rfl

/-- **A save writes the node list to the volume's partition**, cut off when it does not fit. -/
theorem Wired.save_eq {nodes : List FsNode} (hd : diskAt st (foldCase volume) = some d)
    (ht : treeAt st (foldCase volume) = some nodes) :
    saveMountedVolume st volume =
      (if (serializeTree nodes).length ≤ partCapacity then .ok () else .error "storage: out of space",
        setDisk st (foldCase volume) (d.store (serializeTree nodes))) := by
  obtain ⟨hmem, hkey⟩ := h.disk_iff.mp hd
  have hstd := h.standard d hmem
  obtain ⟨m, hm, rfl⟩ := map_eq_some_iff.mp ht
  have hfind : st.mounted.find? (isMounted volume) = some m := hm
  unfold saveMountedVolume
  rw [hfind]
  simp only [h.owner_eq, hd, h.findOwner_eq hmem]
  rw [writePartitionBytes_eq hstd.sized hstd.inside, h.setBlock_eq hmem, hstd.capacity, hkey]
  rfl

end loadSave

/-! ## Changes that keep the tables wired -/

section keep

variable {st : StorageState} (h : Wired st)

include h

theorem Wired.keep_setTree (key : Str) (nodes : List FsNode) : Wired (setTree st key nodes) where
  __ := h
  trees := h.trees.change fun _ => rfl
  tree := by
    intro v hv
    rw [← h.tree v hv, mountedAt_setTree]
    split
    · rw [isSome_map]
    · rfl

theorem Wired.keep_setDisk (hd : diskAt st key = some d) {block : RamBlockDevice}
    (hstd : DiskDevice.Standard { d with block := block }) : Wired (setDisk st key block) where
  __ := h
  disks := h.disks.change fun _ => rfl
  standard := by
    intro d' hd'
    rcases Keyed.mem_change hd' with ⟨hmem, -⟩ | ⟨d0, hmem, hkey, rfl⟩
    · exact h.standard d' hmem
    · have hsame : d0 = d := mem_unique (h.disk_iff.mpr ⟨hmem, hkey⟩) hd
      exact hsame ▸ hstd
  backed := by
    intro v hv hm hfs
    rw [diskAt_setDisk]
    split
    · rw [isSome_map]; exact h.backed v hv hm hfs
    · exact h.backed v hv hm hfs

/-- One volume changed, together with its own node list. -/
theorem Wired.changeVolume {st' : StorageState} {v : DetectedVolume} (hv : v ∈ st.volumes)
    {f : DetectedVolume → DetectedVolume} (hf : ∀ w, (f w).name = w.name)
    (hvolumes : st'.volumes = (setVolume st v.key f).volumes) (hdisks : st'.disks = st.disks)
    (htrees : Keyed.Distinct MountedFs.key st'.mounted)
    (hother : ∀ key, key ≠ v.key → mountedAt st' key = mountedAt st key)
    (htree : (mountedAt st' v.key).isSome = true ↔
      (f v).mountedAt.isSome = true ∧ fsSupportsMountTree (f v).filesystem = true)
    (hbacked : (f v).mountedAt.isSome = true → (f v).filesystem = .fat32 →
      (diskAt st v.key).isSome = true) : Wired st' := by
  have hkeys : ∀ w, (f w).key = w.key := fun w => congrArg foldCase (hf w)
  -- a volume of the new table is an old one with another key, or the changed one
  have hmem : ∀ w ∈ st'.volumes, (w ∈ st.volumes ∧ w.key ≠ v.key) ∨ w = f v := by
    intro w hw
    rw [hvolumes] at hw
    rcases Keyed.mem_change hw with hold | ⟨v0, hv0, hkey, rfl⟩
    · exact .inl hold
    · exact .inr (by rw [h.volumes.eq hv0 hv hkey])
  have hdisk : ∀ key, diskAt st' key = diskAt st key := fun key => by rw [diskAt, hdisks]; rfl
  refine ⟨?_, htrees, ?_, ?_, fun w hw => ?_, fun w hw hm hfs => ?_⟩
  · rw [hvolumes]; exact h.volumes.change hkeys
  · rw [hdisks]; exact h.disks
  · rw [hdisks]; exact h.standard
  · rcases hmem w hw with ⟨hold, hne⟩ | rfl
    · rw [hother w.key hne]; exact h.tree w hold
    · rw [hkeys v]; exact htree
  · rw [hdisk]
    rcases hmem w hw with ⟨hold, -⟩ | rfl
    · exact h.backed w hold hm hfs
    · rw [hkeys v]; exact hbacked hm hfs

end keep

/-! ## Freshly discovered disks -/

theorem foldCase_decimal (n : Nat) : foldCase (decimal n) = decimal n := by
  refine (map_congr_left fun c hc => ?_).trans (List.map_id _)
  have hdigit := Nat.isDigit_of_mem_toDigits (by decide) (by decide) hc
  rw [Char.isDigit, Bool.and_eq_true, decide_eq_true_eq, decide_eq_true_eq] at hdigit
  unfold Char.toLower
  rw [dif_neg fun hup => absurd (UInt32.le_trans hup.1 hdigit.2) (by decide)]
  rfl

theorem decimal_inj {m n : Nat} (h : decimal m = decimal n) : m = n := by
  have hback : ∀ k, Nat.ofDigitChars 10 (decimal k) 0 = k := fun k =>
    Nat.ofDigitChars_toDigits (by decide) (by decide)
  rw [← hback m, h, hback]

theorem foldCase_diskName (n : Nat) : foldCase (diskName n) = "disk".toList ++ decimal n := by
  rw [diskName, foldCase, map_append]
  exact congrArg _ (foldCase_decimal n)

theorem foldCase_append (s t : Str) : foldCase (s ++ t) = foldCase s ++ foldCase t := map_append

theorem foldCase_partName (n : Nat) :
    foldCase (diskName n ++ "p1".toList) = "disk".toList ++ decimal n ++ "p1".toList := by
  rw [foldCase_append, foldCase_diskName]
  rfl

/-- A disk is not called like a partition. -/
theorem diskName_ne_partName (m n : Nat) (s : Str) : foldCase (diskName m) ≠ foldCase (diskName n ++ 'p' :: s) := by
  rw [foldCase_append, foldCase_diskName]
  intro heq
  have hmem : 'p' ∈ decimal m := by
    rw [append_cancel_left heq]
    exact mem_append_right _ mem_cons_self
  exact absurd (Nat.isDigit_of_mem_toDigits (by decide) (by decide) hmem) (by decide)

theorem block_newDisk (i : Nat) (dev : PciDevice) :
    (newDisk i dev).block = RamBlockDevice.new syntheticDiskSectors 512 := by rw [newDisk]

theorem standard_new (hblock : d.block = RamBlockDevice.new syntheticDiskSectors 512)
    (hparts : d.partitions = [newPartition d.name]) : d.Standard := by
  refine ⟨?_, ?_, ?_, hparts⟩
  · rw [hblock]; exact sized_new
  · rw [hblock, new_eq]
  · rw [hblock, new_eq]

theorem discover_new {devs : List PciDevice} (h : d ∈ discoverDisksFromPci devs) :
    d.block = RamBlockDevice.new syntheticDiskSectors 512 ∧ d.partitions = [newPartition d.name] := by
  obtain ⟨i, hi, rfl⟩ := mem_mapIdx.mp h
  have hblock := block_newDisk i (devs.filter fun dev => dev.classCode == 0x01)[i]
  rw [detect_new _ hblock]
  exact ⟨hblock, rfl⟩

/-- The disks are named by number. -/
theorem discover_names (devs : List PciDevice) : ∃ n,
    (discoverDisksFromPci devs).map DiskDevice.name = (List.range n).map diskName := by
  refine ⟨(devs.filter fun dev => dev.classCode == 0x01).length, ?_⟩
  rw [discoverDisksFromPci, mapIdx_eq_zipIdx_map, List.map_map,
    range_eq_range', ← zipIdx_map_snd 0, List.map_map]
  rfl

theorem wired_init (devs : List PciDevice) : Wired (init devs) := by
  obtain ⟨n, hnames⟩ := discover_names devs
  have hpart : (discoverDisksFromPci devs).map DiskDevice.partKey =
      (range n).map fun i => foldCase (diskName i ++ "p1".toList) := by
    have := congrArg (List.map fun name : Str => foldCase (name ++ "p1".toList)) hnames
    rwa [List.map_map, List.map_map] at this
  have hkeys : (rebuildVolumeRegistry (discoverDisksFromPci devs)).map DetectedVolume.key =
      foldCase "tmpfs".toList :: (range n).flatMap fun i =>
        [foldCase (diskName i), foldCase (diskName i ++ "p1".toList)] := by
    rw [rebuildVolumeRegistry, map_cons, map_flatMap, ← flatMap_map diskName fun name =>
      [foldCase name, foldCase (name ++ "p1".toList)], ← hnames, flatMap_map]
    refine congrArg _ (flatMap_congr fun d hd => ?_)
    rw [(discover_new hd).2]; rfl
  have hinj : ∀ {i j : Nat}, foldCase (diskName i ++ "p1".toList) = foldCase (diskName j ++ "p1".toList) →
      i = j := by
    intro i j heq
    rw [foldCase_partName, foldCase_partName, append_cancel_right_eq] at heq
    exact decimal_inj (append_cancel_left heq)
  have hdisk : ∀ {i j : Nat}, foldCase (diskName i) = foldCase (diskName j) → i = j := by
    intro i j heq
    rw [foldCase_diskName, foldCase_diskName] at heq
    exact decimal_inj (append_cancel_left heq)
  have hnone : ∀ v ∈ (init devs).volumes, v.mountedAt.isSome = true → v.filesystem = .tmpFs := by
    intro v hv hm
    rcases mem_cons.mp hv with rfl | hv
    · rfl
    · obtain ⟨d, hd, hv⟩ := mem_flatMap.mp hv
      rcases mem_cons.mp hv with rfl | hv
      · cases hm
      · obtain ⟨part, -, rfl⟩ := List.mem_map.mp hv
        cases hm
  refine ⟨?_, nodup_nil, ?_, fun d hd => ?_, fun v hv => ?_, fun v hv hm hfs => ?_⟩
  · show (List.map DetectedVolume.key (rebuildVolumeRegistry (discoverDisksFromPci devs))).Nodup
    rw [hkeys, nodup_cons, nodup_flatMap]
    refine ⟨?_, fun i _ => ?_, ?_⟩
    · -- no disk or partition is called tmpfs
      rw [mem_flatMap]
      rintro ⟨i, -, hmem⟩
      rw [mem_pair] at hmem
      rcases hmem with heq | heq
      · exact absurd (congrArg head? heq) (by decide : some 't' ≠ some 'd')
      · exact absurd (congrArg head? heq) (by decide : some 't' ≠ some 'd')
    · rw [nodup_cons, mem_singleton]
      exact ⟨diskName_ne_partName i i _, nodup_singleton _⟩
    · refine pairwise_lt_range.imp fun {i j} hlt => ?_
      intro key hi hj
      rw [mem_pair] at hi hj
      rcases hi with rfl | rfl <;> rcases hj with hj | hj
      · exact absurd (hdisk hj) (Nat.ne_of_lt hlt)
      · exact diskName_ne_partName _ _ _ hj
      · exact diskName_ne_partName _ _ _ hj.symm
      · exact absurd (hinj hj) (Nat.ne_of_lt hlt)
  · show (List.map DiskDevice.partKey (discoverDisksFromPci devs)).Nodup
    rw [hpart]
    exact nodup_range.map fun i j heq => hinj heq
  · obtain ⟨hblock, hparts⟩ := discover_new hd
    exact standard_new hblock hparts
  · refine ⟨fun hsome => absurd hsome Bool.false_ne_true, fun hboth => ?_⟩
    have hfs := hboth.2
    rw [hnone v hv hboth.1] at hfs
    cases hfs
  · rw [hnone v hv hm] at hfs
    cases hfs

end Saios.Storage
