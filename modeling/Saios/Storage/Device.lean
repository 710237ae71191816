/-
  BLOCK DEVICES of the storage driver (`seed/saios/src/driver/storage.rs`): RAM-backed disks, their
  partition tables and the filesystem probes.

  1. **Device** — `RamBlockDevice` with `readSector` / `writeSector`, the partition-wide loops
     `readPartitionBytes` / `writePartitionBytes`, and the seeded MBR and boot sector.

  2. **Discovery** — `parseGptPartitions`, `parseMbrPartitions`, `probePartitionFilesystem` and
     `detectPartitionsForDisk`, for any disk contents.

  3. **What the loops do** — a partition inside its disk is ONE slice of the disk's bytes
     (`part.slice`): reading gives that slice (`readPartitionBytes_eq`), writing replaces it by the
     bytes padded with zeros, or cut off when they do not fit (`writePartitionBytes_eq`), and touches
     nothing else.

  4. **What discovery finds on a new disk** — one FAT32 partition of sectors 2048..4095, whatever the
     disk is called (`detect_new`).
-/
import Saios.Lib.Bytes
import Saios.Lib.Word

namespace Saios.Storage

open Bytes List

inductive FilesystemKind
  | tmpFs
  | ext4
  | ntfs
  | fat16
  | fat32
  | fat64
  | fat128
  deriving DecidableEq, Repr

def FilesystemKind.asStr : FilesystemKind → Str
  | .tmpFs => "tmpfs".toList
  | .ext4 => "ext4".toList
  | .ntfs => "ntfs".toList
  | .fat16 => "fat16".toList
  | .fat32 => "fat32".toList
  | .fat64 => "fat64".toList
  | .fat128 => "fat128".toList

/-- `str::eq_ignore_ascii_case`. -/
def eqIgnoreAsciiCase (a b : Str) : Bool := a.map Char.toLower == b.map Char.toLower

/-! ## The RAM block device -/

def mbrSector : Nat := 512
def syntheticDiskSectors : Nat := 4096
def partitionProbeWindowBytes : Nat := 4096

structure RamBlockDevice where
  sectorSize : Nat
  sectors : Nat
  bytes : List UInt8
  dirty : Bool

/-- `outLen` is the length of the caller's buffer. -/
def RamBlockDevice.readSector (dev : RamBlockDevice) (lba outLen : Nat) :
    Except String (List UInt8) :=
  if dev.sectors ≤ lba then .error "storage: lba out of range"
  else if outLen ≠ dev.sectorSize then .error "storage: invalid read buffer size"
  else
    let start := Word.smul lba dev.sectorSize
    let stop := Word.sadd start dev.sectorSize
    if dev.bytes.length < stop then .error "storage: read past device end"
    else .ok ((dev.bytes.drop start).take (stop - start))

def RamBlockDevice.writeSector (dev : RamBlockDevice) (lba : Nat) (data : List UInt8) :
    Except String Unit × RamBlockDevice :=
  if dev.sectors ≤ lba then (.error "storage: lba out of range", dev)
  else if data.length ≠ dev.sectorSize then (.error "storage: invalid write buffer size", dev)
  else
    let start := Word.smul lba dev.sectorSize
    let stop := Word.sadd start dev.sectorSize
    if dev.bytes.length < stop then (.error "storage: write past device end", dev)
    else (.ok (), { dev with bytes := patch start data dev.bytes, dirty := true })

def RamBlockDevice.flush (dev : RamBlockDevice) : RamBlockDevice := { dev with dirty := false }

/-- The partition table of a new disk: one FAT32 entry from sector 2048 to the end. -/
def seedMbr (sectors : Nat) : List UInt8 :=
  let mbr := List.replicate mbrSector 0
  let mbr := patch (446 + 4) [0x0C] mbr
  let mbr := patch (446 + 8) (leBytes 4 2048) mbr
  let mbr := patch (446 + 12) (leBytes 4 sectors) mbr
  patch 510 [0x55, 0xAA] mbr

/-- The boot sector of a new disk's partition. -/
def seedBpb (sectors : Nat) : List UInt8 :=
  let bpb := List.replicate mbrSector 0
  let bpb := patch 0 [0xEB, 0x58, 0x90] bpb
  let bpb := patch 3 (utf8 "MSWIN4.1".toList) bpb
  let bpb := patch 11 (leBytes 2 512) bpb
  let bpb := patch 13 [8] bpb
  let bpb := patch 14 (leBytes 2 32) bpb
  let bpb := patch 16 [2] bpb
  let bpb := patch 32 (leBytes 4 sectors) bpb
  let bpb := patch 36 (leBytes 4 128) bpb
  let bpb := patch 44 (leBytes 4 2) bpb
  let bpb := patch 71 (utf8 "NO NAME    ".toList) bpb
  let bpb := patch 82 (utf8 "FAT32   ".toList) bpb
  patch 510 [0x55, 0xAA] bpb

def seedDefaultMbrFat32 (dev : RamBlockDevice) : RamBlockDevice :=
  if dev.sectorSize ≠ mbrSector then dev
  else
    let sectors := min (dev.sectors - 2048) (2 ^ 32 - 1)
    let dev := (dev.writeSector 0 (seedMbr sectors)).2
    let dev := (dev.writeSector 2048 (seedBpb sectors)).2
    dev.flush

/-- `RamBlockDevice::new`. -/
def RamBlockDevice.new (sectors sectorSize : Nat) : RamBlockDevice :=
  seedDefaultMbrFat32
    { sectorSize := sectorSize, sectors := sectors,
      bytes := List.replicate (Word.smul sectors sectorSize) 0, dirty := false }

/-! ## Probing -/

def hasMbrSignature (image : List UInt8) : Bool :=
  image[510]? == some 0x55 && image[511]? == some 0xAA

def parseAscii (bytes : List UInt8) (start len : Nat) : Option Str :=
  if start + len ≤ bytes.length then fromUtf8 ((bytes.drop start).take len) else none

/-- The characters `str::trim` removes (Unicode `White_Space`). -/
def isWhite (c : Char) : Bool :=
  let v := c.toNat
  decide (9 ≤ v ∧ v ≤ 13) || v == 0x20 || v == 0x85 || v == 0xA0 || v == 0x1680 ||
    decide (0x2000 ≤ v ∧ v ≤ 0x200A) || v == 0x2028 || v == 0x2029 || v == 0x202F || v == 0x205F ||
    v == 0x3000

def trim (s : Str) : Str := ((s.dropWhile isWhite).reverse.dropWhile isWhite).reverse

def probeExt4 (image : List UInt8) : Option FilesystemKind := do
  if image.length < 2048 then none
  else
    let magic ← leAt 2 image (1024 + 56)
    if magic ≠ 0xEF53 then none
    else
      let _ ← leAt 4 image (1024 + 24)
      let _ ← leAt 4 image (1024 + 4)
      some .ext4

def probeNtfs (image : List UInt8) : Option FilesystemKind := do
  if image.length < 512 ∨ hasMbrSignature image = false then none
  else
    let oem ← parseAscii image 3 8
    if oem ≠ "NTFS    ".toList then none
    else
      let _ ← leAt 2 image 11
      let _ ← leAt 8 image 40
      some .ntfs

def probeFat (image : List UInt8) : Option FilesystemKind := do
  if image.length < 512 ∨ hasMbrSignature image = false then none
  else
    let sectorSize ← leAt 2 image 11
    if sectorSize = 0 then none
    else
      let sectors16 ← leAt 2 image 19
      let sectors32 ← leAt 4 image 32
      let totalSectors := if sectors16 ≠ 0 then sectors16 else sectors32
      if totalSectors = 0 then none
      else
        let blank := "        ".toList
        let fs16 := trim ((parseAscii image 54 8).getD blank)
        let fs32 := trim ((parseAscii image 82 8).getD blank)
        if eqIgnoreAsciiCase fs16 "FAT16".toList then some .fat16
        else if eqIgnoreAsciiCase fs32 "FAT32".toList then some .fat32
        else if eqIgnoreAsciiCase fs32 "FAT64".toList || eqIgnoreAsciiCase fs16 "FAT64".toList then
          some .fat64
        else if eqIgnoreAsciiCase fs32 "FAT128".toList || eqIgnoreAsciiCase fs16 "FAT128".toList then
          some .fat128
        else if sectors16 ≠ 0 then some .fat16
        else some .fat32

def probeFilesystem (image : List UInt8) : Option FilesystemKind :=
  (probeExt4 image).or ((probeNtfs image).or (probeFat image))

/-! ## Partitions -/

structure Partition where
  name : Str
  startLba : Nat
  sectorCount : Nat
  fsHint : FilesystemKind
  deriving DecidableEq, Repr

structure DiskDevice where
  name : Str
  backing : Str
  block : RamBlockDevice
  partitions : List Partition

/-- The loop of `read_partition_bytes` and of the probe: `n` sectors from `lba` on. -/
def readSectors (dev : RamBlockDevice) : Nat → Nat → Except String (List UInt8)
  | 0, _ => .ok []
  | n + 1, lba =>
      match dev.readSector lba dev.sectorSize with
      | .error e => .error e
      | .ok sector =>
          match readSectors dev n (Word.sadd lba 1) with
          | .error e => .error e
          | .ok rest => .ok (sector ++ rest)

/-- The loop of `write_partition_bytes`: `n` sectors from `lba` on take the bytes not yet written,
    then zeros.  The result is what was left over. -/
def writeSectors : Nat → RamBlockDevice → Nat → List UInt8 →
    Except String (List UInt8) × RamBlockDevice
  | 0, dev, _, left => (.ok left, dev)
  | n + 1, dev, lba, left =>
      let chunk := left.take dev.sectorSize
      let scratch := chunk ++ List.replicate (dev.sectorSize - chunk.length) 0
      match dev.writeSector lba scratch with
      | (.error e, dev) => (.error e, dev)
      | (.ok (), dev) => writeSectors n dev (Word.sadd lba 1) (left.drop dev.sectorSize)

def writePartitionBytes (dev : RamBlockDevice) (part : Partition) (bytes : List UInt8) :
    Except String Unit × RamBlockDevice :=
  let maxLba := Word.sadd part.startLba part.sectorCount
  match writeSectors (maxLba - part.startLba) dev part.startLba bytes with
  | (.error e, dev) => (.error e, dev)
  | (.ok left, dev) => if left ≠ [] then (.error "storage: out of space", dev) else (.ok (), dev)

def readPartitionBytes (dev : RamBlockDevice) (part : Partition) : Except String (List UInt8) :=
  let maxLba := Word.sadd part.startLba part.sectorCount
  readSectors dev (maxLba - part.startLba) part.startLba

def probePartitionFilesystem (dev : RamBlockDevice) (part : Partition) : Option FilesystemKind :=
  if part.sectorCount = 0 then none
  else if dev.sectorSize = 0 then none
  else
    let sectorsToRead :=
      min ((partitionProbeWindowBytes + dev.sectorSize - 1) / dev.sectorSize) part.sectorCount
    match readSectors dev sectorsToRead part.startLba with
    | .error _ => none
    | .ok image => probeFilesystem image

/-- One of the four entries of the MBR; `none` for an unused one. -/
def mbrEntry (mbr : List UInt8) (i : Nat) : Option Partition :=
  let off := 446 + i * 16
  let ptype := mbr.getD (off + 4) 0
  let start := (leAt 4 mbr (off + 8)).getD 0
  let count := (leAt 4 mbr (off + 12)).getD 0
  if ptype = 0 ∨ start = 0 ∨ count = 0 then none
  else
    let fsHint :=
      if ptype = 0x0B ∨ ptype = 0x0C ∨ ptype = 0x0E then FilesystemKind.fat32
      else if ptype = 0x07 then .ntfs
      else if ptype = 0x83 then .ext4
      else .tmpFs
    some { name := [], startLba := start, sectorCount := count, fsHint := fsHint }

def parseMbrPartitions (dev : RamBlockDevice) : List Partition :=
  match dev.readSector 0 dev.sectorSize with
  | .error _ => []
  | .ok mbr => if hasMbrSignature mbr then (List.range 4).filterMap (mbrEntry mbr) else []

/-- The loop over the GPT entries; an entry past the end of the table ends it. -/
def gptEntries (table : List UInt8) (entrySize : Nat) : List Nat → List Partition
  | [] => []
  | i :: rest =>
      let off := Word.smul i entrySize
      if table.length < Word.sadd off 56 then []
      else if ((table.drop off).take 16).all (· == 0) then gptEntries table entrySize rest
      else
        let firstLba := (leAt 8 table (off + 32)).getD 0
        let lastLba := (leAt 8 table (off + 40)).getD 0
        if firstLba = 0 ∨ lastLba < firstLba then gptEntries table entrySize rest
        else
          { name := [], startLba := firstLba, sectorCount := Word.sadd (lastLba - firstLba) 1,
            fsHint := .fat32 } :: gptEntries table entrySize rest

def parseGptPartitions (dev : RamBlockDevice) : List Partition :=
  match dev.readSector 1 dev.sectorSize with
  | .error _ => []
  | .ok sector =>
      if sector.take 8 ≠ utf8 "EFI PART".toList then []
      else
        let entriesLba := (leAt 8 sector 72).getD 0
        let entriesCount := (leAt 4 sector 80).getD 0
        let entrySize := (leAt 4 sector 84).getD 0
        if entriesLba = 0 ∨ entriesCount = 0 ∨ entrySize < 128 then []
        else
          let tableBytes := Word.smul entriesCount entrySize
          let tableSecs := (tableBytes + dev.sectorSize - 1) / dev.sectorSize
          match readSectors dev tableSecs entriesLba with
          | .error _ => []
          | .ok table => gptEntries table entrySize (List.range entriesCount)

/-- A partition's number in its disk's name space, and the probe's verdict over the table's hint. -/
def labelPartition (disk : DiskDevice) (i : Nat) (part : Partition) : Partition :=
  { part with
    name := disk.name ++ 'p' :: Nat.toDigits 10 (i + 1)
    fsHint := (probePartitionFilesystem disk.block part).getD part.fsHint }

def detectPartitionsForDisk (disk : DiskDevice) : DiskDevice :=
  let parts := parseGptPartitions disk.block
  let parts := if parts = [] then parseMbrPartitions disk.block else parts
  let parts :=
    if parts = [] then
      [{ name := [], startLba := 2048, sectorCount := disk.block.sectors - 2048, fsHint := .fat32 }]
    else parts
  { disk with partitions := parts.mapIdx (labelPartition disk) }

/-! ## What the sector loops do -/

/-- The device's byte string has the size its geometry says. -/
structure RamBlockDevice.Sized (dev : RamBlockDevice) : Prop where
  length : dev.bytes.length = dev.sectors * dev.sectorSize
  small : dev.bytes.length < Word.size
  pos : 0 < dev.sectorSize

variable {dev : RamBlockDevice}

theorem RamBlockDevice.Sized.sector (h : dev.Sized) {lba n : Nat} (hlba : lba + n ≤ dev.sectors) (hn : 1 ≤ n) :
    Word.smul lba dev.sectorSize = lba * dev.sectorSize ∧
      Word.sadd (lba * dev.sectorSize) dev.sectorSize = lba * dev.sectorSize + dev.sectorSize ∧
      lba * dev.sectorSize + n * dev.sectorSize ≤ dev.bytes.length ∧
      Word.sadd lba 1 = lba + 1 := by
  have hmul : (lba + n) * dev.sectorSize ≤ dev.sectors * dev.sectorSize :=
    Nat.mul_le_mul_right _ hlba
  have hone : 1 * dev.sectorSize ≤ n * dev.sectorSize := Nat.mul_le_mul_right _ hn
  have hlt : (lba + n) * 1 ≤ (lba + n) * dev.sectorSize := Nat.mul_le_mul_left _ h.pos
  have hlen := h.length
  have hsmall := h.small
  rw [Nat.mul_one, Nat.add_mul] at hlt
  rw [Nat.add_mul] at hmul
  simp only [Word.smul, Word.sadd, Word.max] at hsmall ⊢
  omega

theorem readSector_eq (h : dev.Sized) {lba : Nat} (hlba : lba < dev.sectors) :
    dev.readSector lba dev.sectorSize =
      .ok ((dev.bytes.drop (lba * dev.sectorSize)).take dev.sectorSize) := by
  obtain ⟨hmul, hadd, hle, -⟩ := h.sector hlba (Nat.le_refl 1)
  unfold RamBlockDevice.readSector
  rw [if_neg (by omega), if_neg (by simp)]
  simp only [hmul, hadd]
  rw [if_neg (by omega), Nat.add_sub_cancel_left]

theorem writeSector_eq (h : dev.Sized) {lba : Nat} (hlba : lba < dev.sectors) {data : List UInt8}
    (hdata : data.length = dev.sectorSize) :
    dev.writeSector lba data =
      (.ok (), { dev with bytes := patch (lba * dev.sectorSize) data dev.bytes, dirty := true }) := by
  obtain ⟨hmul, hadd, hle, -⟩ := h.sector hlba (Nat.le_refl 1)
  unfold RamBlockDevice.writeSector
  rw [if_neg (by omega), if_neg (by simp [hdata])]
  simp only [hmul]
  rw [if_neg (by omega)]

/-- A patch inside keeps the geometry. -/
theorem RamBlockDevice.Sized.patch (h : dev.Sized) {start : Nat} {new : List UInt8}
    (hin : start + new.length ≤ dev.bytes.length) (dirty : Bool) :
    RamBlockDevice.Sized { dev with bytes := patch start new dev.bytes, dirty := dirty } := by
  have hlen := length_patch hin
  exact ⟨hlen.trans h.length, by rw [hlen]; exact h.small, h.pos⟩

/-- **Reading `n` sectors reads one slice.** -/
theorem readSectors_eq (h : dev.Sized) :
    ∀ {n lba : Nat}, lba + n ≤ dev.sectors →
      readSectors dev n lba =
        .ok ((dev.bytes.drop (lba * dev.sectorSize)).take (n * dev.sectorSize))
  | 0, lba, _ => by rw [readSectors, Nat.zero_mul, take_zero]
  | n + 1, lba, hle => by
      obtain ⟨-, -, -, hnext⟩ := h.sector hle (by omega)
      rw [readSectors, readSector_eq h (by omega)]
      simp only [hnext]
      rw [readSectors_eq h (by omega)]
      simp only [Nat.add_mul, Nat.one_mul]
      rw [Nat.add_comm (n * dev.sectorSize), take_add, drop_drop]

/-- **Writing `n` sectors replaces one slice**: by the bytes, cut off or filled with zeros. -/
theorem writeSectors_eq : ∀ {n : Nat} {dev : RamBlockDevice} (_ : dev.Sized) {lba : Nat}
    {left : List UInt8}, lba + n ≤ dev.sectors →
      writeSectors n dev lba left = (.ok (left.drop (n * dev.sectorSize)),
        { dev with
          bytes := patch (lba * dev.sectorSize) (fit (n * dev.sectorSize) left) dev.bytes
          dirty := dev.dirty || decide (0 < n) })
  | 0, dev, _, lba, left, _ => by
      rw [writeSectors, Nat.zero_mul, drop_zero]
      have hfit : fit 0 left = [] := length_eq_zero_iff.mp (length_fit 0 left)
      rw [hfit, patch, append_nil, length_nil, Nat.add_zero, take_append_drop,
        decide_eq_false (Nat.lt_irrefl 0), Bool.or_false]
  | n + 1, dev, h, lba, left, hle => by
      obtain ⟨-, -, hin, hnext⟩ := h.sector hle (by omega)
      have hscratch : left.take dev.sectorSize ++
          replicate (dev.sectorSize - (left.take dev.sectorSize).length) 0 =
          fit dev.sectorSize left := by
        rw [fit, length_take]
        congr 2
        omega
      have hfit := length_fit dev.sectorSize left
      rw [Nat.add_mul, Nat.one_mul] at hin
      have h' : RamBlockDevice.Sized { dev with
          bytes := patch (lba * dev.sectorSize) (fit dev.sectorSize left) dev.bytes, dirty := true } :=
        h.patch (by omega) true
      rw [writeSectors]
      simp only [hscratch]
      rw [writeSector_eq h (by omega) hfit]
      simp only [hnext]
      rw [writeSectors_eq h' (by exact (by omega : lba + 1 + n ≤ dev.sectors))]
      simp only [Nat.add_mul, Nat.one_mul]
      rw [Nat.add_comm (n * dev.sectorSize), drop_drop, fit_add]
      have hroom : lba * dev.sectorSize + (fit dev.sectorSize left).length +
          (fit (n * dev.sectorSize) (left.drop dev.sectorSize)).length ≤ dev.bytes.length := by
        rw [length_fit, length_fit]; omega
      have hpatch := patch_patch hroom
      rw [hfit] at hpatch
      rw [hpatch]
      simp

/-- The partition lies inside its device. -/
def Partition.Inside (part : Partition) (dev : RamBlockDevice) : Prop :=
  part.startLba + part.sectorCount ≤ dev.sectors

/-- The bytes of a partition. -/
def Partition.slice (part : Partition) (dev : RamBlockDevice) : List UInt8 :=
  (dev.bytes.drop (part.startLba * dev.sectorSize)).take (part.sectorCount * dev.sectorSize)

/-- How many bytes a partition holds. -/
def Partition.capacity (part : Partition) (dev : RamBlockDevice) : Nat :=
  part.sectorCount * dev.sectorSize

/-- The device after a write of `bytes` to the partition. -/
def Partition.overwrite (part : Partition) (dev : RamBlockDevice) (bytes : List UInt8) :
    RamBlockDevice :=
  { dev with
    bytes := patch (part.startLba * dev.sectorSize) (fit (part.capacity dev) bytes) dev.bytes
    dirty := dev.dirty || decide (0 < part.sectorCount) }

section partition

variable {dev : RamBlockDevice} {part : Partition} (h : dev.Sized) (hp : part.Inside dev)

include h hp

theorem Partition.maxLba_eq :
    Word.sadd part.startLba part.sectorCount - part.startLba = part.sectorCount := by
  have hle : dev.sectors * 1 ≤ dev.sectors * dev.sectorSize := Nat.mul_le_mul_left _ h.pos
  have hlen := h.length
  have hsmall := h.small
  unfold Partition.Inside at hp
  simp only [Word.sadd, Word.max] at hsmall ⊢
  omega

theorem readPartitionBytes_eq : readPartitionBytes dev part = .ok (part.slice dev) := by
  unfold readPartitionBytes
  simp only [Partition.maxLba_eq h hp]
  rw [readSectors_eq h hp]; rfl

/-- Writing overwrites the partition's slice; only bytes that do not fit make it fail. -/
theorem writePartitionBytes_eq (bytes : List UInt8) :
    writePartitionBytes dev part bytes =
      (if bytes.length ≤ part.capacity dev then .ok () else .error "storage: out of space",
        part.overwrite dev bytes) := by
  unfold writePartitionBytes
  simp only [Partition.maxLba_eq h hp]
  rw [writeSectors_eq h hp]
  simp only [ne_eq, drop_eq_nil_iff]
  by_cases hle : bytes.length ≤ part.sectorCount * dev.sectorSize
  · rw [if_neg (not_not_intro hle), Partition.capacity, if_pos hle]; rfl
  · rw [if_pos hle, Partition.capacity, if_neg hle]; rfl

theorem Partition.fit_inside (bytes : List UInt8) :
    part.startLba * dev.sectorSize + (fit (part.capacity dev) bytes).length ≤ dev.bytes.length := by
  have hmul : (part.startLba + part.sectorCount) * dev.sectorSize ≤ dev.sectors * dev.sectorSize :=
    Nat.mul_le_mul_right _ hp
  rw [length_fit, Partition.capacity, h.length, ← Nat.add_mul]
  exact hmul

theorem Partition.sized_overwrite (bytes : List UInt8) : (part.overwrite dev bytes).Sized :=
  h.patch (Partition.fit_inside h hp bytes) _

theorem Partition.slice_overwrite (bytes : List UInt8) :
    part.slice (part.overwrite dev bytes) = fit (part.capacity dev) bytes := by
  have hslice := slice_patch (Partition.fit_inside h hp bytes)
  rw [length_fit] at hslice
  exact hslice

end partition

/-! ## A new disk -/

theorem sized_blank : RamBlockDevice.Sized
    { sectorSize := 512, sectors := 4096, bytes := List.replicate 2097152 0, dirty := false } := by
  have hlen : (replicate 2097152 (0 : UInt8)).length = 2097152 := length_replicate
  refine ⟨?_, ?_, by decide⟩
  · simp only [hlen]
  · simp only [hlen]; decide

theorem length_seedMbr : (seedMbr 2048).length = 512 := by decide +kernel

theorem length_seedBpb : (seedBpb 2048).length = 512 := by decide +kernel

/-- The bytes of a new disk: zeros, with the two seeded sectors. -/
def syntheticBytes : List UInt8 :=
  patch (2048 * 512) (seedBpb 2048) (patch 0 (seedMbr 2048) (List.replicate 2097152 0))

theorem mbr_inside : 0 + (seedMbr 2048).length ≤ (List.replicate 2097152 (0 : UInt8)).length := by
  rw [length_seedMbr, length_replicate]; decide

theorem bpb_inside : 2048 * 512 + (seedBpb 2048).length ≤
    (patch 0 (seedMbr 2048) (List.replicate 2097152 (0 : UInt8))).length := by
  rw [length_seedBpb, length_patch mbr_inside, length_replicate]; decide

theorem new_eq : RamBlockDevice.new syntheticDiskSectors 512 =
    { sectorSize := 512, sectors := 4096, bytes := syntheticBytes, dirty := false } := by
  have hblank := sized_blank
  have hmbr := hblank.patch mbr_inside true
  have hsize : Word.smul syntheticDiskSectors 512 = 2097152 := by decide
  unfold RamBlockDevice.new seedDefaultMbrFat32
  rw [hsize]
  simp only [ne_eq, mbrSector, not_true_eq_false, if_false]
  have hsectors : min (syntheticDiskSectors - 2048) (2 ^ 32 - 1) = 2048 := by decide
  rw [hsectors, syntheticDiskSectors,
    writeSector_eq hblank (by decide) length_seedMbr]
  simp only
  rw [writeSector_eq hmbr (by decide) length_seedBpb]
  simp only [RamBlockDevice.flush, syntheticBytes]

theorem sized_new : (RamBlockDevice.new syntheticDiskSectors 512).Sized := by
  rw [new_eq]
  exact (sized_blank.patch mbr_inside true).patch bpb_inside false

/-- A slice of a block of zeros. -/
theorem slice_zeros {n start len : Nat} (h : start + len ≤ n) :
    ((List.replicate n (0 : UInt8)).drop start).take len = List.replicate len 0 := by
  rw [drop_replicate, take_replicate]
  congr 1
  omega

theorem synthetic_sector0 : (syntheticBytes.drop 0).take 512 = seedMbr 2048 := by
  rw [syntheticBytes, slice_patch_of_disjoint bpb_inside (Or.inl (by decide))]
  have h := slice_patch mbr_inside
  rwa [length_seedMbr] at h

theorem synthetic_sector1 : (syntheticBytes.drop 512).take 512 = List.replicate 512 0 := by
  rw [syntheticBytes, slice_patch_of_disjoint bpb_inside (Or.inl (by decide)),
    slice_patch_of_disjoint mbr_inside (Or.inr (by rw [length_seedMbr])), slice_zeros (by decide)]

/-- The partition starts with the boot sector; the rest is zeros. -/
theorem synthetic_partition {n : Nat} (hn : 2048 * 512 + 512 + n ≤ 2097152) :
    (syntheticBytes.drop (2048 * 512)).take (512 + n) = seedBpb 2048 ++ List.replicate n 0 := by
  rw [take_add, drop_drop, syntheticBytes]
  have h := slice_patch bpb_inside
  rw [length_seedBpb] at h
  rw [h, slice_patch_of_disjoint bpb_inside (Or.inr (by rw [length_seedBpb])),
    slice_patch_of_disjoint mbr_inside (Or.inr (by rw [length_seedMbr]; decide)), slice_zeros hn]

/-- Text read from a slice that is the text's UTF-8. -/
theorem parseAscii_eq {bytes : List UInt8} {start len : Nat} {s : Str}
    (hin : start + len ≤ bytes.length) (h : (bytes.drop start).take len = utf8 s) :
    parseAscii bytes start len = some s := by
  rw [parseAscii, if_pos hin, h, fromUtf8_utf8]

/-- The first sectors of a new partition probe as FAT32. -/
theorem probe_new : probeFilesystem (seedBpb 2048 ++ List.replicate 3584 0) = some .fat32 := by
  have hlen : (seedBpb 2048 ++ replicate 3584 0).length = 4096 := by
    rw [length_append, length_seedBpb, length_replicate]
  have hoem : parseAscii (seedBpb 2048 ++ replicate 3584 0) 3 8 = some "MSWIN4.1".toList :=
    parseAscii_eq (by rw [hlen]; decide) (by decide)
  have hsig : hasMbrSignature (seedBpb 2048 ++ replicate 3584 0) = true := by decide +kernel
  have hext4 : probeExt4 (seedBpb 2048 ++ replicate 3584 0) = none := by decide +kernel
  have hntfs : probeNtfs (seedBpb 2048 ++ replicate 3584 0) = none := by
    unfold probeNtfs
    rw [if_neg (by rw [hlen, hsig]; decide), hoem]
    rfl
  have hfat : probeFat (seedBpb 2048 ++ replicate 3584 0) = some .fat32 := by
    decide +kernel
  rw [probeFilesystem, hext4, hntfs, hfat]; rfl

/-- The partition of every new disk. -/
def newPartition (diskName : Str) : Partition :=
  { name := diskName ++ "p1".toList, startLba := 2048, sectorCount := 2048, fsHint := .fat32 }

/-- **What discovery finds on a new disk**, whatever its name. -/
theorem detect_new (disk : DiskDevice) (h : disk.block = RamBlockDevice.new syntheticDiskSectors 512) :
    detectPartitionsForDisk disk = { disk with partitions := [newPartition disk.name] } := by
  have hs := sized_new
  have h0 : disk.block.readSector 0 disk.block.sectorSize = .ok (seedMbr 2048) := by
    rw [h, readSector_eq hs (by rw [new_eq]; decide), new_eq]
    exact congrArg Except.ok synthetic_sector0
  have h1 : disk.block.readSector 1 disk.block.sectorSize = .ok (replicate 512 0) := by
    rw [h, readSector_eq hs (by rw [new_eq]; decide), new_eq]
    exact congrArg Except.ok synthetic_sector1
  have hgpt : parseGptPartitions disk.block = [] := by
    unfold parseGptPartitions
    rw [h1]
    exact if_pos (by decide)
  have hmbr : parseMbrPartitions disk.block =
      [{ name := [], startLba := 2048, sectorCount := 2048, fsHint := .fat32 }] := by
    unfold parseMbrPartitions
    rw [h0]
    decide +kernel
  have hprobe : probePartitionFilesystem disk.block
      { name := [], startLba := 2048, sectorCount := 2048, fsHint := .fat32 } = some .fat32 := by
    unfold probePartitionFilesystem
    have hsize : disk.block.sectorSize = 512 := by rw [h, new_eq]
    have hcount : min ((partitionProbeWindowBytes + 512 - 1) / 512) 2048 = 8 := by decide
    simp only [hsize, hcount]
    rw [h, readSectors_eq hs (by rw [new_eq]; decide), new_eq]
    simp only
    rw [synthetic_partition (n := 3584) (by decide)]
    exact probe_new
  unfold detectPartitionsForDisk
  simp only [hgpt, hmbr, if_true]
  simp only [cons_ne_nil, if_false, mapIdx_cons, labelPartition, hprobe]
  rfl

end Saios.Storage
