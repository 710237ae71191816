/-
  THE STORAGE DRIVER (`seed/saios/src/driver/storage.rs`): disks, the volume registry and the mounted
  volumes.

  1. **State** — `StorageState`: the volumes known to the system, the disks with their bytes, and for
     each mounted volume its node list.  Every operation of the source runs under one lock and starts
     with `init()`, which does nothing once the state is initialized; here operations are functions of
     the initialized state.

  2. **Operations** — under the source's names, each returning its `Result` AND the state it leaves,
     also when it fails (`?` returns early, but what was changed before stays changed).  What the
     writing operations share between resolving a path and saving the tree is `updateTree`; the
     reading ones share `readTree`.

  3. **Runs** — `Op` / `exec`: one constructor per public call.  The list of PCI devices that a
     discovery sees is part of the call.
-/
import Saios.Lib.First
import Saios.Storage.Codec

namespace Saios.Storage

structure DetectedVolume where
  name : Str
  filesystem : FilesystemKind
  backing : Str
  totalBytes : Nat
  sectorSize : Nat
  mountedAt : Option Str
  writable : Bool
  deriving DecidableEq

structure MountedFs where
  volume : Str
  nodes : List FsNode
  deriving DecidableEq

structure StorageState where
  initialized : Bool
  volumes : List DetectedVolume
  disks : List DiskDevice
  mounted : List MountedFs

/-- What `pci::devices` reports about a device. -/
structure PciDevice where
  vendorId : Nat
  deviceId : Nat
  classCode : Nat
  subclass : Nat
  bus : Nat
  device : Nat
  function : Nat
  deriving DecidableEq, Repr

/-! ## Discovery -/

/-- A number in decimal, as `{}` formats it. -/
def decimal (n : Nat) : Str := Nat.toDigits 10 n

/-- A number in hexadecimal with at least two digits, as `{:02x}` formats it. -/
def hex2 (n : Nat) : Str :=
  let digits := Nat.toDigits 16 n
  List.replicate (2 - digits.length) '0' ++ digits

def controllerName (dev : PciDevice) : Str :=
  if dev.vendorId = 0x1AF4 then "virtio-blk".toList
  else if dev.subclass = 0x06 then "sata-ahci".toList
  else if dev.subclass = 0x01 then "ata".toList
  else "storage-generic".toList

def diskName (idx : Nat) : Str := "disk".toList ++ decimal idx

/-- The synthetic disk behind storage controller number `idx`. -/
def newDisk (idx : Nat) (dev : PciDevice) : DiskDevice :=
  { name := diskName idx
    backing := controllerName dev ++ " pci ".toList ++ hex2 dev.bus ++ ":".toList ++
      hex2 dev.device ++ ".".toList ++ decimal dev.function
    block := RamBlockDevice.new syntheticDiskSectors 512
    partitions := [] }

def discoverDisksFromPci (devs : List PciDevice) : List DiskDevice :=
  (devs.filter fun dev => dev.classCode == 0x01).mapIdx fun idx dev =>
    detectPartitionsForDisk (newDisk idx dev)

def tmpfsVolume : DetectedVolume :=
  { name := "tmpfs".toList, filesystem := .tmpFs, backing := "memory".toList, totalBytes := 0,
    sectorSize := 4096, mountedAt := some ['/'], writable := true }

def diskVolume (disk : DiskDevice) : DetectedVolume :=
  { name := disk.name, filesystem := .tmpFs, backing := disk.backing,
    totalBytes := Word.smul disk.block.sectors disk.block.sectorSize,
    sectorSize := disk.block.sectorSize, mountedAt := none, writable := true }

def partitionVolume (disk : DiskDevice) (part : Partition) : DetectedVolume :=
  { name := part.name, filesystem := part.fsHint, backing := disk.name ++ ':' :: part.name,
    totalBytes := Word.smul part.sectorCount disk.block.sectorSize,
    sectorSize := disk.block.sectorSize, mountedAt := none, writable := true }

def rebuildVolumeRegistry (disks : List DiskDevice) : List DetectedVolume :=
  tmpfsVolume :: disks.flatMap fun disk => diskVolume disk :: disk.partitions.map (partitionVolume disk)

/-- `init` on a fresh state. -/
def init (devs : List PciDevice) : StorageState :=
  let disks := discoverDisksFromPci devs
  { initialized := true, volumes := rebuildVolumeRegistry disks, disks := disks, mounted := [] }

/-- `rescan` throws the disks away and discovers new ones. -/
def rescan (_ : StorageState) (devs : List PciDevice) : StorageState :=
  let disks := discoverDisksFromPci devs
  { initialized := true, volumes := rebuildVolumeRegistry disks, disks := disks, mounted := [] }

/-! ## Volumes and their backing -/

def resolveVolumeOwner (st : StorageState) (volume : Str) : Except String (Str × Str) :=
  let owners := st.disks.flatMap fun disk => disk.partitions.map fun part => (disk.name, part.name)
  match owners.find? (fun o => eqIgnoreAsciiCase o.2 volume) with
  | some owner => .ok owner
  | none => .error "storage: volume backend unavailable"

def isDisk (diskName : Str) (disk : DiskDevice) : Bool := eqIgnoreAsciiCase disk.name diskName

def isPartition (partName : Str) (part : Partition) : Bool := eqIgnoreAsciiCase part.name partName

/-- The disk and the partition of an owner pair. -/
def findOwner (st : StorageState) (diskName partName : Str) :
    Except String (DiskDevice × Partition) :=
  match st.disks.find? (isDisk diskName) with
  | none => .error "storage: disk missing"
  | some disk =>
      match disk.partitions.find? (isPartition partName) with
      | none => .error "storage: partition missing"
      | some part => .ok (disk, part)

/-- The disks with the block device of `diskName` replaced. -/
def setBlock (st : StorageState) (diskName : Str) (block : RamBlockDevice) : StorageState :=
  { st with disks := st.disks.modifyFirst (isDisk diskName) fun disk => { disk with block := block } }

def isMounted (volume : Str) (m : MountedFs) : Bool := eqIgnoreAsciiCase m.volume volume

def saveMountedVolume (st : StorageState) (volume : Str) : Except String Unit × StorageState :=
  match st.mounted.find? (isMounted volume) with
  | none => (.error "storage: mounted volume not found", st)
  | some mounted =>
      match resolveVolumeOwner st volume with
      | .error e => (.error e, st)
      | .ok (diskName, partName) =>
          match findOwner st diskName partName with
          | .error e => (.error e, st)
          | .ok (disk, part) =>
              let r := writePartitionBytes disk.block part (serializeTree mounted.nodes)
              (r.1, setBlock st diskName r.2)

def loadVolumeTree (st : StorageState) (volume : Str) : Except String (List FsNode) :=
  match resolveVolumeOwner st volume with
  | .error e => .error e
  | .ok (diskName, partName) =>
      match findOwner st diskName partName with
      | .error e => .error e
      | .ok (disk, part) =>
          match readPartitionBytes disk.block part with
          | .error e => .error e
          | .ok bytes => .ok ((deserializeTree bytes).getD defaultFatTree)

def ensureVolumeMounted (st : StorageState) (volume : Str) (fs : FilesystemKind) :
    Except String Unit × StorageState :=
  if st.mounted.any (isMounted volume) then (.ok (), st)
  else if fsSupportsMountTree fs = false then
    (.error "storage: filesystem backend not implemented", st)
  else
    let nodes := if fs = .fat32 then loadVolumeTree st volume else .ok (defaultRoTree fs)
    match nodes with
    | .error e => (.error e, st)
    | .ok nodes => (.ok (), { st with mounted := st.mounted ++ [{ volume := volume, nodes := nodes }] })

/-! ## Which volume a path is on -/

/-- One volume in the search for the longest mount point; a later one wins a tie. -/
def betterMount (path : Str) (best : Option DetectedVolume × Nat) (vol : DetectedVolume) :
    Option DetectedVolume × Nat :=
  match vol.mountedAt with
  | none => best
  | some mount =>
      let m := normalizePath mount
      if isChildOf m path = false then best
      else if best.2 ≤ m.length then (some vol, m.length)
      else best

def mountedVolumeForPathInternal (st : StorageState) (absPath : Str) : Option (DetectedVolume × Str) :=
  let path := normalizePath absPath
  match (st.volumes.foldl (betterMount path) (none, 0)).1 with
  | none => none
  | some vol =>
      match vol.mountedAt with
      | none => none
      | some mount =>
          let mount := normalizePath mount
          let rel :=
            if mount = ['/'] then path else if path = mount then ['/'] else path.drop mount.length
          some (vol, normalizePath rel)

def mountedVolumeInfoInternal (st : StorageState) (absPath : Str) :
    Option (Str × FilesystemKind × Str) :=
  (mountedVolumeForPathInternal st absPath).map fun r => (r.1.name, r.1.filesystem, r.2)

def mountedVolumeForPath (st : StorageState) (path : Str) : Option DetectedVolume :=
  (mountedVolumeForPathInternal st path).map Prod.fst

/-! ## Mounting and formatting -/

def isVolume (name : Str) (vol : DetectedVolume) : Bool := eqIgnoreAsciiCase vol.name name

def findVolume (st : StorageState) (name : Str) : Option DetectedVolume :=
  st.volumes.find? (isVolume name)

def mountVolume (st : StorageState) (name path : Str) (_readOnly : Bool) :
    Except String Unit × StorageState :=
  match st.volumes.find? (isVolume name) with
  | none => (.error "storage: volume not found", st)
  | some vol =>
      if vol.mountedAt.isSome then (.error "storage: volume already mounted", st)
      else if st.volumes.any (fun v => v.mountedAt == some path) then
        (.error "storage: duplicate mount path", st)
      else
        let mounted :=
          if fsSupportsMountTree vol.filesystem then ensureVolumeMounted st vol.name vol.filesystem
          else (.ok (), st)
        match mounted with
        | (.error e, st) => (.error e, st)
        | (.ok (), st) =>
            (.ok (), { st with
              volumes := st.volumes.modifyFirst (isVolume name) fun v =>
                { v with mountedAt := some path } })

def umountVolume (st : StorageState) (path : Str) : Except String Unit × StorageState :=
  match st.volumes.find? (fun v => v.mountedAt == some path) with
  | none => (.error "storage: no volume mounted at that path", st)
  | some vol =>
      -- the result of the save is ignored
      let st := if vol.filesystem = .fat32 then (saveMountedVolume st vol.name).2 else st
      (.ok (), { st with
        mounted := st.mounted.filter fun m => !isMounted vol.name m
        volumes := st.volumes.modifyFirst (fun v => v.mountedAt == some path) fun v =>
          { v with mountedAt := none } })

def formatVolume (st : StorageState) (name : Str) (fs : FilesystemKind) :
    Except String Unit × StorageState :=
  match st.volumes.find? (isVolume name) with
  | none => (.error "storage: volume not found", st)
  | some vol =>
      if vol.mountedAt.isSome then
        (.error "storage: volume is currently mounted; unmount before formatting", st)
      else
        let st := { st with
          volumes := st.volumes.modifyFirst (isVolume name) fun v => { v with filesystem := fs } }
        if fs = .fat32 then
          match resolveVolumeOwner st name with
          | .error e => (.error e, st)
          | .ok (diskName, partName) =>
              match findOwner st diskName partName with
              | .error e => (.error e, st)
              | .ok (disk, part) =>
                  match writePartitionBytes disk.block part (serializeTree defaultFatTree) with
                  | (.error e, block) => (.error e, setBlock st diskName block)
                  | (.ok (), block) => (.ok (), setBlock st diskName block.flush)
        else (.ok (), st)

/-! ## File operations -/

/-- From a resolved volume to its node list, for reading. -/
def readTree {α : Type} (st : StorageState) (volName : Str) (volFs : FilesystemKind)
    (body : List FsNode → Except String α) : Except String α × StorageState :=
  if fsSupportsMountTree volFs = false then
    (.error "storage: filesystem backend not implemented", st)
  else
    match ensureVolumeMounted st volName volFs with
    | (.error e, st) => (.error e, st)
    | (.ok (), st) =>
        match st.mounted.find? (isMounted volName) with
        | none => (.error "storage: mounted fs not found", st)
        | some mounted => (body mounted.nodes, st)

/-- From a resolved volume to its node list, its change and the save. -/
def updateTree (st : StorageState) (volName : Str) (volFs : FilesystemKind)
    (body : List FsNode → Except String Unit × List FsNode) : Except String Unit × StorageState :=
  if fsSupportsMountTree volFs = false then
    (.error "storage: filesystem backend not implemented", st)
  else if fsSupportsRwTree volFs = false then
    (.error "storage: filesystem is read-only in this build", st)
  else
    match ensureVolumeMounted st volName volFs with
    | (.error e, st) => (.error e, st)
    | (.ok (), st) =>
        match st.mounted.find? (isMounted volName) with
        | none => (.error "storage: mounted fs not found", st)
        | some mounted =>
            let r := body mounted.nodes
            let st := { st with
              mounted := st.mounted.modifyFirst (isMounted volName) fun m => { m with nodes := r.2 } }
            match r.1 with
            | .error e => (.error e, st)
            | .ok () =>
                if fsSupportsRwTree volFs then saveMountedVolume st volName else (.ok (), st)

def fsStat (st : StorageState) (path : Str) : Except String FsStat × StorageState :=
  match mountedVolumeInfoInternal st path with
  | none => (.error "storage: path is not on a mounted volume", st)
  | some (volName, volFs, rel) => readTree st volName volFs (statIn rel)

def fsCreate (st : StorageState) (path : Str) : Except String Unit × StorageState :=
  match mountedVolumeInfoInternal st path with
  | none => (.error "storage: path is not on a mounted volume", st)
  | some (volName, volFs, rel) => updateTree st volName volFs (createIn .file rel)

def fsMkdir (st : StorageState) (path : Str) : Except String Unit × StorageState :=
  match mountedVolumeInfoInternal st path with
  | none => (.error "storage: path is not on a mounted volume", st)
  | some (volName, volFs, rel) => updateTree st volName volFs (createIn .directory rel)

def fsDelete (st : StorageState) (path : Str) : Except String Unit × StorageState :=
  match mountedVolumeInfoInternal st path with
  | none => (.error "storage: path is not on a mounted volume", st)
  | some (volName, volFs, rel) =>
      if rel = ['/'] then (.error "cannot remove root", st)
      else updateTree st volName volFs (deleteIn rel)

def fsRename (st : StorageState) (source target : Str) : Except String Unit × StorageState :=
  match mountedVolumeInfoInternal st source with
  | none => (.error "storage: source is not on a mounted volume", st)
  | some (fromName, fromFs, fromRel) =>
      match mountedVolumeInfoInternal st target with
      | none => (.error "storage: destination is not on a mounted volume", st)
      | some (toName, _, toRel) =>
          if eqIgnoreAsciiCase fromName toName = false then
            (.error "storage: cross-volume rename is not supported", st)
          else updateTree st fromName fromFs (renameIn fromRel toRel)

def fsRead (st : StorageState) (path : Str) : Except String (List UInt8) × StorageState :=
  match mountedVolumeInfoInternal st path with
  | none => (.error "storage: path is not on a mounted volume", st)
  | some (volName, volFs, rel) => readTree st volName volFs (readIn rel)

def fsWrite (st : StorageState) (path : Str) (data : List UInt8) :
    Except String Unit × StorageState :=
  match mountedVolumeInfoInternal st path with
  | none => (.error "storage: path is not on a mounted volume", st)
  | some (volName, volFs, rel) => updateTree st volName volFs (writeIn rel data)

def fsReaddir (st : StorageState) (path : Str) : Except String (List Str) × StorageState :=
  match mountedVolumeInfoInternal st path with
  | none => (.error "storage: path is not on a mounted volume", st)
  | some (volName, volFs, rel) => readTree st volName volFs (readdirIn rel)

/-- The bytes of all files of the volume, added up without overflow. -/
def usedIn (nodes : List FsNode) : Nat :=
  (nodes.filter fun n => n.kind == .file).foldl (fun acc n => Word.sadd acc n.data.length) 0

def usedBytes (st : StorageState) (path : Str) : Option Nat × StorageState :=
  match mountedVolumeInfoInternal st path with
  | none => (none, st)
  | some (volName, volFs, _) =>
      if fsSupportsMountTree volFs = false then (some 0, st)
      else
        match readTree st volName volFs (fun nodes => .ok (usedIn nodes)) with
        | (.ok used, st) => (some used, st)
        | (.error _, st) => (none, st)

/-! ## Raw sectors -/

def namesDevice (name deviceName : Str) : Bool :=
  eqIgnoreAsciiCase name deviceName || eqIgnoreAsciiCase ("/dev/".toList ++ name) deviceName

/-- What `deviceName` means on this disk: the whole disk, one of its partitions, or nothing. -/
def targetOn (deviceName : Str) (disk : DiskDevice) : Option (Option Partition) :=
  if namesDevice disk.name deviceName then some none
  else (disk.partitions.find? fun part => namesDevice part.name deviceName).map some

/-- The sector of the disk that sector `lba` of the target is. -/
def targetLba (target : Option Partition) (lba : Nat) : Except String Nat :=
  match target with
  | none => .ok lba
  | some part =>
      if part.sectorCount ≤ lba then .error "storage: lba out of partition range"
      else .ok (Word.sadd part.startLba lba)

def readSector (st : StorageState) (deviceName : Str) (lba outLen : Nat) :
    Except String (List UInt8) :=
  match st.disks.find? (fun disk => (targetOn deviceName disk).isSome) with
  | none => .error "storage: device not found"
  | some disk =>
      match targetLba ((targetOn deviceName disk).getD none) lba with
      | .error e => .error e
      | .ok sector => disk.block.readSector sector outLen

def writeSector (st : StorageState) (deviceName : Str) (lba : Nat) (data : List UInt8) :
    Except String Unit × StorageState :=
  match st.disks.find? (fun disk => (targetOn deviceName disk).isSome) with
  | none => (.error "storage: device not found", st)
  | some disk =>
      match targetLba ((targetOn deviceName disk).getD none) lba with
      | .error e => (.error e, st)
      | .ok sector =>
          let r := disk.block.writeSector sector data
          (r.1, { st with
            disks := st.disks.modifyFirst (fun disk => (targetOn deviceName disk).isSome) fun disk =>
              { disk with block := r.2 } })

def flush (st : StorageState) (deviceName : Str) : Except String Unit × StorageState :=
  match st.disks.find? (fun disk => (targetOn deviceName disk).isSome) with
  | none => (.error "storage: device not found", st)
  | some _ =>
      (.ok (), { st with
        disks := st.disks.modifyFirst (fun disk => (targetOn deviceName disk).isSome) fun disk =>
          { disk with block := disk.block.flush } })

/-! ## Runs -/

/-- The calls that reach the storage state. -/
inductive Op
  | mountVolume (name path : Str) (readOnly : Bool)
  | umountVolume (path : Str)
  | formatVolume (name : Str) (fs : FilesystemKind)
  | rescan (devs : List PciDevice)
  | fsCreate (path : Str)
  | fsMkdir (path : Str)
  | fsDelete (path : Str)
  | fsRename (source target : Str)
  | fsRead (path : Str)
  | fsWrite (path : Str) (data : List UInt8)
  | fsStat (path : Str)
  | fsReaddir (path : Str)
  | usedBytes (path : Str)
  | readSector (deviceName : Str) (lba outLen : Nat)
  | writeSector (deviceName : Str) (lba : Nat) (data : List UInt8)
  | flush (deviceName : Str)

/-- What a call returns. -/
inductive Reply
  | done
  | bytes (data : List UInt8)
  | stat (stat : FsStat)
  | names (names : List Str)
  | size (size : Option Nat)
  | failed (message : String)
  deriving DecidableEq

def Reply.ofExcept {α : Type} (ok : α → Reply) : Except String α → Reply
  | .ok a => ok a
  | .error e => .failed e

def reply {α : Type} (ok : α → Reply) (r : Except String α × StorageState) : Reply × StorageState :=
  (Reply.ofExcept ok r.1, r.2)

def exec (st : StorageState) : Op → Reply × StorageState
  | .mountVolume name path readOnly => reply (fun _ => .done) (mountVolume st name path readOnly)
  | .umountVolume path => reply (fun _ => .done) (umountVolume st path)
  | .formatVolume name fs => reply (fun _ => .done) (formatVolume st name fs)
  | .rescan devs => (.done, rescan st devs)
  | .fsCreate path => reply (fun _ => .done) (fsCreate st path)
  | .fsMkdir path => reply (fun _ => .done) (fsMkdir st path)
  | .fsDelete path => reply (fun _ => .done) (fsDelete st path)
  | .fsRename source target => reply (fun _ => .done) (fsRename st source target)
  | .fsRead path => reply .bytes (fsRead st path)
  | .fsWrite path data => reply (fun _ => .done) (fsWrite st path data)
  | .fsStat path => reply .stat (fsStat st path)
  | .fsReaddir path => reply .names (fsReaddir st path)
  | .usedBytes path => ((.size (usedBytes st path).1), (usedBytes st path).2)
  | .readSector deviceName lba outLen => (Reply.ofExcept .bytes (readSector st deviceName lba outLen), st)
  | .writeSector deviceName lba data => reply (fun _ => .done) (writeSector st deviceName lba data)
  | .flush deviceName => reply (fun _ => .done) (flush st deviceName)

def step (st : StorageState) (op : Op) : StorageState := (exec st op).2

end Saios.Storage
