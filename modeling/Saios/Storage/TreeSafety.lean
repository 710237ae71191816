/-
  NODE LISTS STAY TREES: an invariant of whole runs.

  1. **One call** (`run_performs`) — on a tree, a writing call does what the map operation
     `TreeCall.abs` does; so a tree stays a tree.  The two renames this does not hold for — the volume
     root, and a directory into its own subtree — are what `TreeCall.Keeps` leaves out: the driver does
     not refuse them.

  2. **Whole runs** (`Sane`) — mounted lists are trees, and so is whatever an idle partition would load.
     A list gets onto an idle partition by `umount`, which writes it with 16-bit path lengths; a longer
     path is cut without notice and the partition then reads back as something else, which is what
     `Sound` asks of an `umount`.

  3. **Mounted lists stay trees** (`mounted_lists_stay_trees`) — in every run of sound calls, and not
     without (`rename_into_itself_breaks_tree`).
-/
import Saios.Storage.Effect
import Saios.Storage.Tree

namespace Saios.Storage

open Bytes Path List Option

/-! ## Checking a tree -/

/-- The parent of the path is a directory of the list. -/
def hasParent (nodes : List FsNode) (path : Str) : Bool :=
  (splitParent path).any fun r => nodes.any fun d => d.path == r.1 && d.kind == .directory

variable {nodes : List FsNode}

theorem hasParent_iff {path : Str} : hasParent nodes path = true ↔
    ∃ dir name, splitParent path = some (dir, name) ∧ ∃ d ∈ nodes, d.path = dir ∧ d.kind = .directory := by
  unfold hasParent
  cases splitParent path with
  | none => exact ⟨nofun, fun ⟨_, _, h, _⟩ => (nomatch h)⟩
  | some r =>
    obtain ⟨dir, name⟩ := r
    rw [any_some, List.any_eq_true]
    constructor
    · rintro ⟨d, hd, hdir⟩
      rw [Bool.and_eq_true, beq_iff_eq, beq_iff_eq] at hdir
      exact ⟨dir, name, rfl, d, hd, hdir.1, hdir.2⟩
    · rintro ⟨dir', name', heq, d, hd, rfl, hk⟩
      obtain ⟨rfl, rfl⟩ := Prod.mk.inj (some.inj heq)
      exact ⟨d, hd, by rw [hk]; simp⟩

instance (nodes : List FsNode) : Decidable (IsTree nodes) :=
  decidable_of_iff
    ((∀ n ∈ nodes, normalizePath n.path = n.path) ∧ (nodes.map FsNode.path).Nodup ∧
      (∃ n ∈ nodes, n.path = ['/'] ∧ n.kind = .directory) ∧
      ∀ n ∈ nodes, n.path ≠ ['/'] → hasParent nodes n.path = true)
    ⟨fun h => ⟨⟨h.1, h.2.1⟩, h.2.2.1, fun n hn hne => hasParent_iff.mp (h.2.2.2 n hn hne)⟩,
      fun h => ⟨h.normal, h.distinct, h.root, fun n hn hne => hasParent_iff.mpr (h.parent n hn hne)⟩⟩

theorem isTree_defaultFatTree : IsTree defaultFatTree := by decide

/-! ## One call -/

/-- What a writing call means on the map of the node list. -/
noncomputable def TreeCall.abs (m : PathMap Str (List UInt8)) : TreeCall → Option (PathMap Str (List UInt8))
  | .create kind rel => m.make (comps rel) (kindEntry kind)
  | .delete rel => m.remove (comps rel)
  | .rename fromRel toRel => m.rename (comps fromRel) (comps toRel)
  | .write rel data => m.write (comps rel) data

/-- The renames that keep a tree a tree: not of the root, not into the renamed directory itself. -/
def TreeCall.Keeps : TreeCall → Prop
  | .rename fromRel toRel => fromRel ≠ ['/'] ∧ isChildOf fromRel toRel = false
  | _ => True

variable {call : TreeCall}

/-- **On a tree, a writing call is the map operation.** -/
theorem run_performs (h : IsTree nodes) (hres : call.Resolved) (hkeeps : call.Keeps) :
    Performs nodes (call.run nodes) (call.abs (nodeMap nodes)) := by
  obtain ⟨hflat, hclosed⟩ := isTree_iff.mp h
  cases call with
  | create kind rel =>
    obtain ⟨ds, hds, rfl⟩ := hres
    simp only [TreeCall.abs, comps_absolute hds]
    exact createIn_performs hflat hds hclosed kind
  | delete rel =>
    obtain ⟨⟨ds, hds, rfl⟩, hne⟩ := hres
    simp only [TreeCall.abs, comps_absolute hds]
    exact deleteIn_performs hflat hds hclosed fun hnil => hne (by rw [hnil]; rfl)
  | rename fromRel toRel =>
    obtain ⟨⟨ds, hds, rfl⟩, es, hes, rfl⟩ := hres
    obtain ⟨hroot, hout⟩ := hkeeps
    simp only [TreeCall.abs, comps_absolute hds, comps_absolute hes]
    refine renameIn_performs hflat hds hes hclosed (fun hnil => hroot (by rw [hnil]; rfl)) fun hpre => ?_
    rw [(isChildOf_absolute hds hes).mpr hpre] at hout
    cases hout
  | write rel data =>
    obtain ⟨ds, hds, rfl⟩ := hres
    simp only [TreeCall.abs, comps_absolute hds]
    exact writeIn_performs hflat hds hclosed data

theorem abs_closed {m m' : PathMap Str (List UInt8)} (h : m.Closed) (habs : call.abs m = some m') :
    m'.Closed := by
  cases call with
  | create kind rel => exact h.make habs
  | delete rel => exact h.remove habs
  | rename fromRel toRel => exact h.rename habs
  | write rel data => exact h.write habs

/-- **A writing call keeps a tree a tree.** -/
theorem after_isTree (h : IsTree nodes) (hres : call.Resolved) (hkeeps : call.Keeps)
    (hchecks : call.Checks nodes) : IsTree (call.after nodes) := by
  have hperf := run_performs h hres hkeeps
  rcases run_cases hres nodes with ⟨-, hrun⟩ | ⟨hno, -⟩
  · rw [hrun] at hperf
    generalize hm : call.abs (nodeMap nodes) = o at hperf
    cases hperf with
    | ok hflat hmap =>
      exact isTree_iff.mpr ⟨hflat, hmap ▸ abs_closed (isTree_iff.mp h).2 hm⟩
  · exact absurd hchecks hno

/-! ## Whole runs -/

/-- Mounting the partition would bring up a tree. -/
def DiskDevice.Loadable (d : DiskDevice) : Prop := ∀ nodes, deserializeTree d.image = some nodes → IsTree nodes

/-- No volume with this name is mounted as FAT32. -/
def Idle (st : StorageState) (key : Str) : Prop :=
  ∀ v, volumeAt st key = some v → v.mountedAt.isSome = true → v.filesystem ≠ .fat32

/-- What is mounted is a tree, and what an idle partition would load is one. -/
structure Sane (st : StorageState) : Prop where
  wired : Wired st
  trees : ∀ key nodes, treeAt st key = some nodes → IsTree nodes
  parts : ∀ key d, diskAt st key = some d → Idle st key → d.Loadable

variable {d : DiskDevice}

theorem DiskDevice.Loadable.isTree (h : d.Loadable) : IsTree d.tree := by
  unfold DiskDevice.tree
  cases hd : deserializeTree d.image with
  | none => exact isTree_defaultFatTree
  | some nodes => exact h nodes hd

/-- What a save leaves is loadable: the list reads back, or, cut off, not at all. -/
theorem DiskDevice.Standard.loadable_store (h : d.Standard) (htree : IsTree nodes) (hwidths : Widths nodes) :
    DiskDevice.Loadable { d with block := d.store (serializeTree nodes) } := by
  intro nodes' hnodes'
  rw [h.image_store] at hnodes'
  by_cases hfit : (serializeTree nodes).length ≤ partCapacity
  · rw [deserialize_fit hwidths hfit] at hnodes'
    exact some.inj hnodes' ▸ htree
  · rw [deserialize_cut hwidths (Nat.lt_of_not_le hfit)] at hnodes'
    cases hnodes'

theorem deserialize_bad_magic {bytes : List UInt8} (h : bytes.take 8 ≠ fatStoreMagic) :
    deserializeTree bytes = none := by
  unfold deserializeTree parseTree
  split
  · rfl
  · rw [takeBytes, if_pos (by omega)]
    simp only [bind_eq_bind, bind_some]
    rw [if_pos h]; rfl

/-- A new disk has a boot sector where the driver's magic number would be. -/
theorem deserialize_new (h : d.block = RamBlockDevice.new syntheticDiskSectors 512) :
    deserializeTree d.image = none := by
  refine deserialize_bad_magic ?_
  have himage : d.image = seedBpb 2048 ++ replicate 1048064 0 := by
    have hslice := synthetic_partition (n := 1048064) (by decide)
    rw [show 512 + 1048064 = 2048 * 512 by decide] at hslice
    rw [DiskDevice.image, h, new_eq]
    exact hslice
  rw [himage]
  decide

theorem sane_init (devs : List PciDevice) : Sane (init devs) where
  wired := wired_init devs
  trees := nofun
  parts := fun _ d hd _ nodes hnodes => by
    have hmem := ((wired_init devs).disk_iff.mp hd).1
    rw [deserialize_new (discover_new hmem).1] at hnodes
    cases hnodes

/-- What a call must respect for the lists to stay trees: a rename that passes its checks is none of the
    two, a FAT32 volume is only unmounted when the lengths in its list fit their fields, and no sector
    is written directly. -/
def Sound (st : StorageState) : Op → Prop
  | .fsRename source target => ∀ V fromRel toRel nodes,
      (Op.fsRename source target).treeCall st = some (V, .fat32, .rename fromRel toRel) →
      treeAt st (foldCase V) = some nodes → TreeCall.Checks nodes (.rename fromRel toRel) →
      fromRel ≠ ['/'] ∧ isChildOf fromRel toRel = false
  | .umountVolume path => ∀ v ∈ st.volumes, v.mountedAt = some path → v.filesystem = .fat32 →
      ∀ nodes, treeAt st v.key = some nodes → Widths nodes
  | .writeSector _ _ _ => False
  | _ => True

variable {st : StorageState}

theorem keeps_of_sound {op : Op} (hs : Sound st op) {V : Str}
    (hcall : op.treeCall st = some (V, .fat32, call)) (ht : treeAt st (foldCase V) = some nodes)
    (hchecks : call.Checks nodes) : call.Keeps := by
  cases call with
  | rename fromRel toRel =>
    cases op with
    | fsRename source target => exact hs V fromRel toRel nodes hcall ht hchecks
    | fsCreate path | fsMkdir path | fsWrite path data =>
      obtain ⟨⟨V', fs, rel⟩, -, heq⟩ := map_eq_some_iff.mp hcall
      cases heq
    | fsDelete path =>
      obtain ⟨⟨V', fs, rel⟩, -, heq⟩ := bind_eq_some_iff.mp hcall
      split at heq <;> cases heq
    | _ => cases hcall
  | _ => trivial

variable {f : DetectedVolume → DetectedVolume}

/-- A partition that is idle after its volume was changed was idle before. -/
theorem Idle.of_setVolume {v : DetectedVolume} (hv : volumeAt st v.key = some v) (hf : ∀ w, (f w).name = w.name)
    (hold : v.filesystem = .fat32 → v.mountedAt = none) {key : Str} (hidle : Idle (setVolume st v.key f) key) :
    Idle st key := by
  intro w hw
  by_cases hkey : key = v.key
  · rw [hkey, hv] at hw
    obtain rfl := some.inj hw
    intro hm hfat
    rw [hold hfat] at hm
    cases hm
  · refine hidle w ?_
    rw [volumeAt_setVolume st v.key key hf, if_neg hkey, hw]

/-- The parts of `Sane` after a change of one volume that leaves the disks alone. -/
theorem Sane.parts_setVolume {st' : StorageState} (h : Sane st) {v : DetectedVolume} (hv : v ∈ st.volumes)
    (hf : ∀ w, (f w).name = w.name) (hold : v.filesystem = .fat32 → v.mountedAt = none)
    (hvolumes : st'.volumes = (setVolume st v.key f).volumes) (hdisks : st'.disks = st.disks) (key : Str)
    (d : DiskDevice) (hd : diskAt st' key = some d) (hidle : Idle st' key) : d.Loadable := by
  rw [diskAt, hdisks] at hd
  refine h.parts key d hd (Idle.of_setVolume (h.wired.volume_iff.mpr ⟨hv, rfl⟩) hf hold ?_)
  unfold Idle volumeAt at hidle ⊢
  rwa [hvolumes] at hidle

/-- **One sound call.** -/
theorem Sane.effect {st' : StorageState} {op : Op} (h : Sane st) (hs : Sound st op) (he : Effect st op st') :
    Sane st' := by
  have hw := h.wired.effect he
  cases he with
  | same => exact h
  | @mount name path readOnly v hv hkey hfree hfs =>
    exact ⟨hw, h.trees, h.parts_setVolume hv (f := DetectedVolume.mountAt _) (fun _ => rfl)
      (fun _ => hfree) rfl rfl⟩
  | @mountTree name path readOnly v nodes hv hkey hfree hnodes =>
    refine ⟨hw, fun key nodes' ht => ?_, h.parts_setVolume hv (f := DetectedVolume.mountAt _)
      (fun _ => rfl) (fun _ => hfree) rfl rfl⟩
    rw [treeAt_setVolume, treeAt_addTree (h.wired.no_tree hv hfree)] at ht
    split at ht
    · obtain rfl := some.inj ht
      cases hnodes with
      | fat hfat hd =>
        refine (h.parts v.key _ hd fun w hw hm => ?_).isTree
        rw [h.wired.volume_iff.mpr ⟨hv, rfl⟩] at hw
        rw [← some.inj hw, hfree] at hm
        cases hm
      | preview hne hfs =>
        cases v.filesystem <;> decide
    · exact h.trees key nodes' ht
  | @umount path v hv hat hfs =>
    refine ⟨hw, fun key nodes' ht => ?_, h.parts_setVolume hv (f := DetectedVolume.mountAt none)
      (fun _ => rfl) (fun hfat => absurd hfat hfs) rfl rfl⟩
    rw [treeAt_setVolume, treeAt_dropTree] at ht
    split at ht
    · cases ht
    · exact h.trees key nodes' ht
  | @umountSaved path v nodes d hv hat hfs ht hd =>
    refine ⟨hw, fun key nodes' ht' => ?_, fun key d' hd' hidle => ?_⟩
    · rw [treeAt_setVolume, treeAt_dropTree] at ht'
      split at ht'
      · cases ht'
      · exact h.trees key nodes' ht'
    · have hd'' : diskAt (setDisk st v.key (d.store (serializeTree nodes))) key = some d' := hd'
      rw [diskAt_setDisk] at hd''
      split at hd''
      · rename_i hkey
        rw [hkey, hd] at hd''
        obtain rfl := some.inj hd''
        exact (h.wired.standardAt hd).loadable_store (h.trees _ _ ht) (hs v hv hat hfs nodes ht)
      · rename_i hkey
        refine h.parts key d' hd'' fun w hw' => hidle w ?_
        show volumeAt (setVolume st v.key (DetectedVolume.mountAt none)) key = some w
        rw [volumeAt_mountAt, if_neg hkey, hw']
  | @format name fs v hv hkey hfree hfs =>
    exact ⟨hw, h.trees, h.parts_setVolume hv (f := DetectedVolume.formatAs fs) (fun _ => rfl)
      (fun _ => hfree) rfl rfl⟩
  | @formatSaved name v d hv hkey hfree hd =>
    refine ⟨hw, h.trees, fun key d' hd' hidle => ?_⟩
    rw [diskAt_setDisk, diskAt_setVolume] at hd'
    split at hd'
    · rename_i hkey'
      rw [hkey', hd] at hd'
      obtain rfl := some.inj hd'
      exact (h.wired.standardAt hd).loadable_store isTree_defaultFatTree (by decide)
    · rename_i hkey'
      refine h.parts key d' hd' fun w hw' => hidle w ?_
      show volumeAt (setVolume st v.key (DetectedVolume.formatAs .fat32)) key = some w
      rw [volumeAt_formatAs, if_neg hkey', hw']
  | @update op v call nodes d hcall hres hv hm hfs ht hd hchecks =>
    refine ⟨hw, fun key nodes' ht' => ?_, fun key d' hd' hidle => ?_⟩
    · rw [treeAt_setDisk, treeAt_setTree] at ht'
      split at ht'
      · rename_i hkey
        rw [hkey, ht] at ht'
        obtain rfl := some.inj ht'
        exact after_isTree (h.trees _ _ ht) hres (keeps_of_sound hs hcall ht hchecks) hchecks
      · exact h.trees key nodes' ht'
    · rw [diskAt_setDisk] at hd'
      split at hd'
      · -- the volume is mounted: its partition is not idle
        rename_i hkey
        exact absurd hfs (hidle v (by rw [hkey]; exact h.wired.volume_iff.mpr ⟨hv, rfl⟩) hm)
      · exact h.parts key d' hd' hidle
  | sector => exact hs.elim
  | @flush deviceName d hd =>
    refine ⟨hw, h.trees, fun key d' hd' hidle => ?_⟩
    rw [diskAt_setDisk] at hd'
    split at hd'
    · rename_i hkey
      rw [hkey, h.wired.disk_iff.mpr ⟨hd, rfl⟩] at hd'
      obtain rfl := some.inj hd'
      exact h.parts key d (h.wired.disk_iff.mpr ⟨hd, hkey.symm⟩) hidle
    · exact h.parts key d' hd' hidle
  | rescan devs => exact sane_init devs

/-- **Mounted lists stay trees**, in every state of every run of sound calls from freshly discovered
    disks. -/
theorem mounted_lists_stay_trees (devs : List PciDevice) (ops : List Op)
    (hops : Run.Along step Sound (init devs) ops) :
    ∀ m ∈ (ops.foldl step (init devs)).mounted, IsTree m.nodes := by
  have hsane : Sane (ops.foldl step (init devs)) :=
    Run.foldl_inv_along (fun _ op h hs => h.effect hs (h.wired.step_effect op))
      (sane_init devs) hops
  intro m hm
  refine hsane.trees m.key m.nodes ?_
  rw [treeAt, (show mountedAt _ m.key = some m from hsane.wired.trees.get_iff.mpr ⟨hm, rfl⟩)]; rfl

/-! ## One disk, mounted -/

/-- A SATA controller. -/
def ahci : PciDevice :=
  { vendorId := 0x8086, deviceId := 0x2922, classCode := 0x01, subclass := 0x06, bus := 0, device := 31,
    function := 2 }

/-- The one disk of a machine with this controller. -/
def ahciDisk : DiskDevice := { newDisk 0 ahci with partitions := [newPartition (diskName 0)] }

/-- The disk's partition as a volume, mounted or not. -/
def ahciPartition (path : Option Str) : DetectedVolume :=
  { name := "disk0p1".toList, filesystem := .fat32, backing := "disk0:disk0p1".toList,
    totalBytes := 1048576, sectorSize := 512, mountedAt := path, writable := true }

def ahciVolumes (path : Option Str) : List DetectedVolume :=
  [tmpfsVolume,
    { name := "disk0".toList, filesystem := .tmpFs, backing := "sata-ahci pci 00:1f.2".toList,
      totalBytes := 2097152, sectorSize := 512, mountedAt := none, writable := true },
    ahciPartition path]

theorem disks_ahci : (init [ahci]).disks = [ahciDisk] := by
  have hlist : discoverDisksFromPci [ahci] = [detectPartitionsForDisk (newDisk 0 ahci)] := by
    rfl
  show discoverDisksFromPci [ahci] = _
  rw [hlist, detect_new _ (block_newDisk 0 _)]
  rfl

theorem standard_ahciDisk : ahciDisk.Standard := standard_new (block_newDisk 0 ahci) rfl

theorem volumes_ahci : (init [ahci]).volumes = ahciVolumes none := by
  have hstd := standard_ahciDisk
  show rebuildVolumeRegistry (init [ahci]).disks = _
  rw [disks_ahci, rebuildVolumeRegistry, flatMap_singleton, hstd.partitions, map_singleton,
    diskVolume, partitionVolume, hstd.sectors, hstd.sectorSize]
  decide +kernel

theorem diskAt_ahci : diskAt (init [ahci]) "disk0p1".toList = some ahciDisk := by
  rw [diskAt, disks_ahci]
  exact find?_cons_of_pos (by decide)

theorem tree_ahciDisk : ahciDisk.tree = defaultFatTree := by
  have hblock : ahciDisk.block = RamBlockDevice.new syntheticDiskSectors 512 := block_newDisk 0 ahci
  rw [DiskDevice.tree, deserialize_new hblock]; rfl

def mountAhci : Op := .mountVolume "disk0p1".toList "/mnt".toList false

/-- Mounting the partition brings up what is on it. -/
theorem step_mountAhci (h : Wired st) (hvol : st.volumes = ahciVolumes none)
    (hd : diskAt st "disk0p1".toList = some d) :
    (step st mountAhci).volumes = ahciVolumes (some "/mnt".toList) ∧
      treeAt (step st mountAhci) "disk0p1".toList = some d.tree := by
  have hfind : st.volumes.find? (isVolume "disk0p1".toList) = some (ahciPartition none) := by
    rw [hvol]; decide
  have hdup : ¬st.volumes.any (fun w => w.mountedAt == some "/mnt".toList) = true := by
    rw [hvol]; decide
  have hnodes : Mountable st (ahciPartition none) d.tree := .fat rfl hd
  have hno := h.no_tree (mem_of_find?_eq_some hfind) rfl
  have hstep : step st mountAhci = setVolume (addTree st (ahciPartition none).name d.tree)
      (ahciPartition none).key (DetectedVolume.mountAt (some "/mnt".toList)) := by
    rw [step, mountAhci, exec, h.mountVolume_tree hfind rfl hdup hnodes]; rfl
  rw [hstep]
  constructor
  · show Keyed.change _ _ _ st.volumes = _
    rw [hvol]
    decide
  · rw [treeAt_setVolume, treeAt_addTree hno]
    exact if_pos (by decide)

theorem volumes_mounted :
    (step (init [ahci]) mountAhci).volumes = ahciVolumes (some "/mnt".toList) :=
  (step_mountAhci (wired_init _) volumes_ahci diskAt_ahci).1

theorem tree_mounted : treeAt (step (init [ahci]) mountAhci) "disk0p1".toList = some defaultFatTree := by
  rw [(step_mountAhci (wired_init _) volumes_ahci diskAt_ahci).2, tree_ahciDisk]

/-- A state with the partition mounted and nothing else. -/
def ahciMounted : StorageState :=
  { initialized := true, volumes := ahciVolumes (some "/mnt".toList), disks := [], mounted := [] }

theorem wired_mounted : Wired (step (init [ahci]) mountAhci) :=
  (wired_init [ahci]).effect ((wired_init [ahci]).step_effect mountAhci)

theorem reachable_mounted : Reachable (step (init [ahci]) mountAhci) :=
  ⟨[ahci], [mountAhci], by rw [foldl_cons, foldl_nil]⟩

theorem ok_of_done {r : Except String Unit × StorageState}
    (h : (reply (fun _ => Reply.done) r).1 = .done) : r.1 = .ok () := by
  obtain ⟨r, st⟩ := r
  cases r with
  | ok u => rfl
  | error e => cases h

section mounted

variable (h : Wired st) (hvol : st.volumes = ahciVolumes (some "/mnt".toList))
  (ht : treeAt st "disk0p1".toList = some nodes) (op : Op) (call : TreeCall)
  (hcall : op.treeCall ahciMounted = some ("disk0p1".toList, .fat32, call)) (hchecks : call.Checks nodes)

include h hvol ht hcall hchecks

/-- A call on the mounted partition that passes its checks. -/
theorem update_mounted :
    op.treeCall st = some ("disk0p1".toList, .fat32, call) ∧ (step st op).volumes = st.volumes ∧
      treeAt (step st op) "disk0p1".toList = some (call.after nodes) := by
  have hcall' := (treeCall_congr hvol op).trans hcall
  have hkey : foldCase "disk0p1".toList = "disk0p1".toList := by decide
  exact ⟨hcall', h.step_update hcall' ht hchecks⟩

/-- It succeeds when the new list fits. -/
theorem exec_mounted (hfit : (serializeTree (call.after nodes)).length ≤ partCapacity) :
    (exec st op).1 = .done := by
  obtain ⟨d, -, hexec⟩ := h.exec_update ((treeCall_congr hvol op).trans hcall) ht hchecks
  rw [hexec, if_pos hfit]
  rfl

end mounted

/-- A read of the mounted partition. -/
theorem fsRead_mounted (hvol : st.volumes = ahciVolumes (some "/mnt".toList))
    (ht : treeAt st "disk0p1".toList = some nodes) {path rel : Str}
    (hinfo : mountedVolumeInfoInternal ahciMounted path = some ("disk0p1".toList, .fat32, rel)) :
    (fsRead st path).1 = readIn rel nodes := by
  have hinfo' : mountedVolumeInfoInternal st path = some ("disk0p1".toList, .fat32, rel) :=
    (info_congr hvol path).trans hinfo
  obtain ⟨⟨v, -, hname, hfs, -⟩, -⟩ := resolved hinfo'
  have htree : treeAt st v.key = some nodes := by
    rw [DetectedVolume.key, hname]; exact ht
  have hread := readTree_eq htree (by rw [hfs]; rfl) (readIn rel)
  rw [hname, hfs] at hread
  rw [fsRead, hinfo']
  simp only
  rw [hread]

/-- The partition mounted, `/home` moved below `/boot`, and the partition unmounted and mounted again. -/
def moveHome : List Op :=
  [mountAhci, .fsRename "/mnt/home".toList "/mnt/boot/home".toList, .umountVolume "/mnt".toList, mountAhci]

theorem mounted_lists_stay_trees_moveHome : Run.Along step Sound (init [ahci]) moveHome ∧
    ∀ m ∈ (moveHome.foldl step (init [ahci])).mounted, IsTree m.nodes := by
  obtain ⟨hcall, hvol, htree⟩ := update_mounted wired_mounted volumes_mounted tree_mounted
    (.fsRename "/mnt/home".toList "/mnt/boot/home".toList) (.rename "/home".toList "/boot/home".toList)
    (by decide) (by decide)
  have hrun : Run.Along step Sound (init [ahci]) moveHome := by
    refine ⟨trivial, ?_, ?_, trivial, trivial⟩
    · intro V fromRel toRel nodes hcall' _ _
      rw [hcall] at hcall'
      cases hcall'
      decide
    · intro v hv hat hfs nodes ht
      rw [hvol, volumes_mounted] at hv
      have hkey : ∀ v ∈ ahciVolumes (some "/mnt".toList), v.mountedAt = some "/mnt".toList →
          v.key = "disk0p1".toList := by decide
      rw [hkey v hv hat, htree] at ht
      obtain rfl := Option.some.inj ht
      decide
  exact ⟨hrun, mounted_lists_stay_trees [ahci] moveHome hrun⟩

/-- `/boot` renamed into itself: the list has no `/boot` any more, but nodes below it. -/
theorem rename_into_itself_breaks_tree :
    ∃ m ∈ ([mountAhci, .fsRename "/mnt/boot".toList "/mnt/boot/x".toList].foldl step (init [ahci])).mounted,
      ¬IsTree m.nodes := by
  obtain ⟨-, -, htree⟩ := update_mounted wired_mounted volumes_mounted tree_mounted
    (.fsRename "/mnt/boot".toList "/mnt/boot/x".toList) (.rename "/boot".toList "/boot/x".toList)
    (by decide) (by decide)
  obtain ⟨m, hm, -, hnodes⟩ := mem_of_treeAt htree
  rw [List.foldl_cons, List.foldl_cons, List.foldl_nil]
  refine ⟨m, hm, ?_⟩
  rw [hnodes]
  decide

end Saios.Storage
