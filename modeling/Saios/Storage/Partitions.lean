/-
  VOLUMES ON ANY DISKS: whatever the partition tables are, and not only those that discovery finds on a new disk.

  1. **Owners** — `resolve_volume_owner` and the two searches behind it come down to one thing: the first partition
     with the volume's name, on the first disk that has one (`ownPartition`, `Owner`).  Names need not be distinct.

  2. **Frame** (`confined`) — a sector write changes its sector, the loop of `write_partition_bytes` the sectors of
     its partition, also when it stops with an error; so a call on a volume changes bytes of its partition only.

  3. **Round trip** (`remount_same_nodes`) — what `umount_volume` writes, `mount_volume` reads.

  4. **Any contents** (`mount_tree_iff`) — the decoder checks nothing but lengths: a partition mounts as a tree
     exactly when no list but a tree is serialized at its front.
-/
import Saios.Storage.TreeSafety

namespace Saios.Storage

open Bytes Path List Option

/-! ## Owners -/

/-- The first partition with the volume's name, and the number of its disk. -/
def ownPartition : List DiskDevice → Str → Option (Nat × Partition)
  | [], _ => none
  | disk :: disks, volume =>
      match disk.partitions.find? (isPartition volume) with
      | some part => some (0, part)
      | none => (ownPartition disks volume).map fun r => (r.1 + 1, r.2)

/-- The disk and the partition of a volume, between the disks around it. -/
structure Owner (disks : List DiskDevice) (volume : Str) (before : List DiskDevice) (disk : DiskDevice)
    (part : Partition) (after : List DiskDevice) : Prop where
  split : disks = before ++ disk :: after
  part : disk.partitions.find? (isPartition volume) = some part
  first : ∀ d ∈ before, d.partitions.find? (isPartition volume) = none
  named : ∀ d ∈ before, isDisk disk.name d = false

variable {before after : List DiskDevice} {disk : DiskDevice} {volume : Str} {part : Partition}

theorem ownPartition_split (hpart : disk.partitions.find? (isPartition volume) = some part)
    (hfirst : ∀ d ∈ before, d.partitions.find? (isPartition volume) = none) :
    ownPartition (before ++ disk :: after) volume = some (before.length, part) := by
  induction before with
  | nil => rw [nil_append, ownPartition, hpart]; rfl
  | cons d before ih =>
    obtain ⟨hd, hbefore⟩ := forall_mem_cons.mp hfirst
    rw [cons_append, ownPartition, hd, ih hbefore]
    rfl

variable {s t : Str}

theorem eqIgnoreAsciiCase_iff : eqIgnoreAsciiCase s t = true ↔ foldCase s = foldCase t := beq_iff_eq

theorem isPartition_congr (h : foldCase s = foldCase t) : isPartition s = isPartition t := by
  funext part
  unfold isPartition
  rw [Bool.eq_iff_iff, eqIgnoreAsciiCase_iff, eqIgnoreAsciiCase_iff, h]

/-- The owner that the driver looks up. -/
def backing (st : StorageState) (volume : Str) : Except String (Str × DiskDevice × Partition) :=
  match resolveVolumeOwner st volume with
  | .error e => .error e
  | .ok (diskName, partName) => (findOwner st diskName partName).map fun r => (diskName, r)

variable {disks : List DiskDevice} {dn : Str}

/-- The search for the owner finds the first partition with the name, on the first disk that has one. -/
theorem find_owners {o : Str × Str} :
    ((disks.flatMap fun disk => disk.partitions.map fun part => (disk.name, part.name)).find?
      fun o => eqIgnoreAsciiCase o.2 volume) = some o ↔
    ∃ before disk after, disks = before ++ disk :: after ∧
      (∃ part, disk.partitions.find? (isPartition volume) = some part ∧ (disk.name, part.name) = o) ∧
      ∀ d ∈ before, d.partitions.find? (isPartition volume) = none := by
  have hpart : ∀ d : DiskDevice, (d.partitions.map fun part => (d.name, part.name)).find?
      (fun o => eqIgnoreAsciiCase o.2 volume) =
      (d.partitions.find? (isPartition volume)).map fun part => (d.name, part.name) := fun d => find?_map ..
  simp only [find?_flatMap, findSome?_eq_some_iff, hpart, map_eq_some_iff, map_eq_none_iff]

theorem isDisk_self (disk : DiskDevice) : isDisk disk.name disk = true := eqIgnoreAsciiCase_iff.mpr rfl

theorem isPartition_found (h : disk.partitions.find? (isPartition volume) = some part) :
    isPartition part.name = isPartition volume := by
  have hname : isPartition volume part = true := find?_some h
  exact isPartition_congr (eqIgnoreAsciiCase_iff.mp hname)

variable {st : StorageState}

/-- **The driver's two searches find the first partition with the volume's name.** -/
theorem owner_of_backing (h : backing st volume = .ok (dn, disk, part)) :
    dn = disk.name ∧ ∃ before after, Owner st.disks volume before disk part after := by
  unfold backing resolveVolumeOwner at h
  dsimp only at h
  split at h
  · cases h
  next dn' pn hresolve =>
  split at hresolve
  next owner howner =>
    cases hresolve
    obtain ⟨before, d, after, hsplit, ⟨p, hp, heq⟩, hfirst⟩ := find_owners.mp howner
    cases heq
    unfold findOwner at h
    rw [isPartition_found hp] at h
    cases hdisk : st.disks.find? (isDisk d.name) with
    | none => rw [hdisk] at h; cases h
    | some d' =>
      rw [hdisk] at h
      dsimp only at h
      cases hpart : d'.partitions.find? (isPartition volume) with
      | none => rw [hpart] at h; cases h
      | some p' =>
        rw [hpart] at h
        cases h
        -- the disk that is found first has a partition with the name, so it does not stand in front
        rw [hsplit, find?_append] at hdisk
        cases hbefore : before.find? (isDisk d.name) with
        | some e =>
          rw [hbefore] at hdisk
          cases hdisk
          rw [hfirst _ (mem_of_find?_eq_some hbefore)] at hpart
          cases hpart
        | none =>
          rw [hbefore, find?_cons_of_pos (isDisk_self d)] at hdisk
          cases hdisk
          cases hp.symm.trans hpart
          refine ⟨rfl, before, after, hsplit, hp, hfirst, fun e he => ?_⟩
          exact Bool.eq_false_of_not_eq_true (find?_eq_none.mp hbefore e he)
  next => cases hresolve

section owner

variable {st : StorageState} {volume : Str} {before after : List DiskDevice} {disk : DiskDevice} {part : Partition}
  (h : Owner st.disks volume before disk part after)

include h

theorem Owner.backing : backing st volume = .ok (disk.name, disk, part) := by
  have hresolve : resolveVolumeOwner st volume = .ok (disk.name, part.name) := by
    rw [resolveVolumeOwner, find_owners.mpr ⟨before, disk, after, h.split, ⟨part, h.part, rfl⟩, h.first⟩]
  have hdisk : st.disks.find? (isDisk disk.name) = some disk := by
    rw [h.split, find?_append, find?_eq_none.mpr fun d hd => by rw [h.named d hd]; decide, none_or,
      find?_cons_of_pos (isDisk_self disk)]
  rw [Storage.backing, hresolve]
  show (findOwner st disk.name part.name).map _ = _
  rw [findOwner, hdisk, isPartition_found h.part]
  dsimp only
  rw [h.part]
  rfl

/-- A new block device for the disk. -/
theorem Owner.setBlock (block : RamBlockDevice) :
    setBlock st disk.name block = { st with disks := before ++ { disk with block := block } :: after } := by
  rw [Storage.setBlock, h.split, modifyFirst_append_cons h.named (isDisk_self disk)]

omit h in
theorem Owner.change (h : Owner disks volume before disk part after) (block : RamBlockDevice) :
    Owner (before ++ { disk with block := block } :: after) volume before { disk with block := block } part after :=
  ⟨rfl, h.part, h.first, h.named⟩

end owner

/-- The node list of a mounted volume, onto its partition. -/
theorem save_eq {m : MountedFs} (hm : st.mounted.find? (isMounted volume) = some m) :
    saveMountedVolume st volume = match backing st volume with
      | .error e => (.error e, st)
      | .ok (dn, disk, part) => ((writePartitionBytes disk.block part (serializeTree m.nodes)).1,
          setBlock st dn (writePartitionBytes disk.block part (serializeTree m.nodes)).2) := by
  rw [saveMountedVolume, hm, backing]
  cases resolveVolumeOwner st volume with
  | error e => rfl
  | ok owner =>
    obtain ⟨dn, pn⟩ := owner
    dsimp only
    cases findOwner st dn pn <;> rfl

theorem load_backed (hback : backing st volume = .ok (dn, disk, part)) : loadVolumeTree st volume =
      (readPartitionBytes disk.block part).map fun bytes => (deserializeTree bytes).getD defaultFatTree := by
  unfold backing at hback
  rw [loadVolumeTree]
  cases hresolve : resolveVolumeOwner st volume with
  | error e => rw [hresolve] at hback; cases hback
  | ok owner =>
    rw [hresolve] at hback
    obtain ⟨dn', pn⟩ := owner
    dsimp only at hback ⊢
    cases hfind : findOwner st dn' pn with
    | error e => rw [hfind] at hback; cases hback
    | ok r =>
      rw [hfind] at hback
      cases hback
      dsimp only
      cases readPartitionBytes disk.block part <;> rfl

/-! ## Frame -/

/-- The same device but for the bytes in a range. -/
structure RamBlockDevice.SameOutside (dev dev' : RamBlockDevice) (lo hi : Nat) : Prop where
  sectorSize : dev'.sectorSize = dev.sectorSize
  sectors : dev'.sectors = dev.sectors
  length : dev'.bytes.length = dev.bytes.length
  bytes : ∀ k, k < lo ∨ hi ≤ k → dev'.bytes[k]? = dev.bytes[k]?

section device

variable {dev dev' : RamBlockDevice} {lo hi : Nat}

theorem RamBlockDevice.SameOutside.refl (dev : RamBlockDevice) (lo hi : Nat) : dev.SameOutside dev lo hi :=
  ⟨rfl, rfl, rfl, fun _ _ => rfl⟩

theorem RamBlockDevice.SameOutside.trans {dev'' : RamBlockDevice} {mid : Nat} (h : dev.SameOutside dev' lo mid)
    (h' : dev'.SameOutside dev'' mid hi) (hlo : lo ≤ mid) (hhi : mid ≤ hi) : dev.SameOutside dev'' lo hi where
  sectorSize := h'.sectorSize.trans h.sectorSize
  sectors := h'.sectors.trans h.sectors
  length := h'.length.trans h.length
  bytes k hk := (h'.bytes k (by omega)).trans (h.bytes k (by omega))

theorem RamBlockDevice.SameOutside.wider {lo' hi' : Nat} (h : dev.SameOutside dev' lo hi) (hlo : lo' ≤ lo)
    (hhi : hi ≤ hi') : dev.SameOutside dev' lo' hi' :=
  { h with bytes := fun k hk => h.bytes k (by omega) }

theorem RamBlockDevice.SameOutside.sized (h : dev.SameOutside dev' lo hi) (hs : dev.Sized) : dev'.Sized where
  length := by rw [h.length, h.sectors, h.sectorSize, hs.length]
  small := by rw [h.length]; exact hs.small
  pos := by rw [h.sectorSize]; exact hs.pos

/-- A sector write changes its sector. -/
theorem writeSector_outside (h : dev.Sized) (lba : Nat) (data : List UInt8) : dev.SameOutside
    (dev.writeSector lba data).2 (lba * dev.sectorSize) ((lba + 1) * dev.sectorSize) := by
  by_cases hlba : lba < dev.sectors
  · by_cases hdata : data.length = dev.sectorSize
    · rw [writeSector_eq h hlba hdata]
      obtain ⟨-, -, hin, -⟩ := h.sector hlba (Nat.le_refl 1)
      rw [Nat.one_mul, ← hdata] at hin
      refine ⟨rfl, rfl, length_patch (by rw [← hdata]; exact hin), fun k hk => ?_⟩
      refine getElem?_patch_of_disjoint (by rw [← hdata]; exact hin) ?_
      rw [hdata, ← Nat.succ_mul]
      exact hk
    · rw [RamBlockDevice.writeSector, if_neg (Nat.not_le.mpr hlba), if_pos hdata]
      exact .refl dev _ _
  · rw [RamBlockDevice.writeSector, if_pos (Nat.le_of_not_lt hlba)]
    exact .refl dev _ _

/-- A sector of a partition. -/
theorem writeSector_part (h : dev.Sized) {lba : Nat} (hlba : lba < part.sectorCount) (data : List UInt8) :
    dev.SameOutside (dev.writeSector (Word.sadd part.startLba lba) data).2
      (part.startLba * dev.sectorSize) ((part.startLba + part.sectorCount) * dev.sectorSize) := by
  by_cases hfits : part.startLba + lba ≤ Word.max
  · have hone := writeSector_outside h (Word.sadd part.startLba lba) data
    rw [Word.sadd] at hone ⊢
    exact hone.wider (Nat.mul_le_mul_right _ (by omega)) (Nat.mul_le_mul_right _ (by omega))
  · -- the number saturates, and no device has that sector
    have hsectors : dev.sectors ≤ dev.sectors * dev.sectorSize := Nat.le_mul_of_pos_right _ h.pos
    have hlen := h.length
    have hsmall := h.small
    have hpast : dev.sectors ≤ Word.sadd part.startLba lba := by
      rw [Word.sadd, Nat.min_eq_right (by omega)]
      rw [Word.max]
      omega
    rw [RamBlockDevice.writeSector, if_pos hpast]
    exact .refl dev _ _

/-- The loop changes the sectors it runs over, also when it stops early. -/
theorem writeSectors_outside : ∀ {n : Nat} {dev : RamBlockDevice} (_ : dev.Sized) (lba : Nat) (left : List UInt8),
    dev.SameOutside (writeSectors n dev lba left).2 (lba * dev.sectorSize) ((lba + n) * dev.sectorSize)
  | 0, dev, _, lba, left => .refl dev _ _
  | n + 1, dev, h, lba, left => by
    have hwide : (lba + 1) * dev.sectorSize ≤ (lba + (n + 1)) * dev.sectorSize := Nat.mul_le_mul_right _ (by omega)
    rw [writeSectors]
    generalize left.take dev.sectorSize ++ replicate (dev.sectorSize - (left.take dev.sectorSize).length) 0 =
      scratch
    have hone := writeSector_outside h lba scratch
    cases hwrite : dev.writeSector lba scratch with
    | mk result dev1 =>
      rw [hwrite] at hone
      dsimp only at hone ⊢
      cases result with
      | error e => exact hone.wider (Nat.le_refl _) hwide
      | ok _ =>
        have hlba : lba < dev.sectors := by
          by_contra hlba
          rw [RamBlockDevice.writeSector, if_pos (Nat.le_of_not_lt hlba)] at hwrite
          cases hwrite
        obtain ⟨-, -, -, hnext⟩ := h.sector (n := 1) hlba (Nat.le_refl 1)
        have hrest := writeSectors_outside (n := n) (hone.sized h) (lba + 1) (left.drop dev1.sectorSize)
        rw [hone.sectorSize, show lba + 1 + n = lba + (n + 1) by omega] at hrest
        dsimp only
        rw [hnext, hone.sectorSize]
        exact hone.trans hrest (Nat.mul_le_mul_right _ (Nat.le_succ _)) hwide

/-- **Writing a partition changes the bytes of the partition**, with or without an error. -/
theorem writePartitionBytes_outside (h : dev.Sized) (part : Partition) (bytes : List UInt8) :
    dev.SameOutside (writePartitionBytes dev part bytes).2 (part.startLba * dev.sectorSize)
      ((part.startLba + part.sectorCount) * dev.sectorSize) := by
  have hcount : Word.sadd part.startLba part.sectorCount - part.startLba ≤ part.sectorCount := by
    rw [Word.sadd]
    omega
  have hloop := writeSectors_outside (n := Word.sadd part.startLba part.sectorCount - part.startLba) h part.startLba bytes
  have hstate : (writePartitionBytes dev part bytes).2 =
      (writeSectors (Word.sadd part.startLba part.sectorCount - part.startLba) dev part.startLba bytes).2 := by
    unfold writePartitionBytes
    dsimp only
    split
    · next hrun => rw [hrun]
    · next hrun =>
      rw [hrun]
      split <;> rfl
  rw [hstate]
  exact hloop.wider (Nat.le_refl _) (Nat.mul_le_mul_right _ (by omega))

end device

/-- Byte `k` of the disk is in the partition. -/
def Partition.Covers (part : Partition) (disk : DiskDevice) (k : Nat) : Prop :=
  part.startLba * disk.block.sectorSize ≤ k ∧ k < (part.startLba + part.sectorCount) * disk.block.sectorSize

/-- The disks are the same but for bytes in the volume's partition. -/
def Confined (disks disks' : List DiskDevice) (volume : Str) : Prop :=
  disks'.length = disks.length ∧
    ∀ j disk disk', disks[j]? = some disk → disks'[j]? = some disk' →
      ∀ k, disk'.block.bytes[k]? ≠ disk.block.bytes[k]? →
        ∃ part, ownPartition disks volume = some (j, part) ∧ part.Covers disk k

theorem Confined.of_eq {disks' : List DiskDevice} (h : disks' = disks) (volume : Str) :
    Confined disks disks' volume := by
  subst h
  refine ⟨rfl, fun j disk disk' hd hd' k hk => ?_⟩
  cases hd.symm.trans hd'
  exact absurd rfl hk

theorem Confined.refl (disks : List DiskDevice) (volume : Str) : Confined disks disks volume := .of_eq rfl _

/-- Another block device on the disk of the volume. -/
theorem confined_split (hpart : disk.partitions.find? (isPartition volume) = some part)
    (hfirst : ∀ d ∈ before, d.partitions.find? (isPartition volume) = none) {block : RamBlockDevice}
    (hblock : disk.block.SameOutside block (part.startLba * disk.block.sectorSize)
      ((part.startLba + part.sectorCount) * disk.block.sectorSize)) :
    Confined (before ++ disk :: after) (before ++ { disk with block := block } :: after) volume := by
  refine ⟨by rw [length_append, length_append]; rfl, fun j d d' hd hd' k hk => ?_⟩
  rcases Nat.lt_trichotomy j before.length with hlt | rfl | hgt
  · rw [getElem?_append_left hlt] at hd hd'
    cases hd.symm.trans hd'
    exact absurd rfl hk
  · rw [getElem?_append_right (Nat.le_refl _), Nat.sub_self] at hd hd'
    cases hd
    cases hd'
    refine ⟨part, ownPartition_split hpart hfirst, ?_⟩
    by_contra hout
    rw [Partition.Covers, not_and_or, Nat.not_le, Nat.not_lt] at hout
    exact hk (hblock.bytes k hout)
  · rw [getElem?_append_right (Nat.le_of_lt hgt)] at hd hd'
    obtain ⟨i, hi⟩ : ∃ i, j - before.length = i + 1 := ⟨j - before.length - 1, by omega⟩
    rw [hi] at hd hd'
    cases hd.symm.trans hd'
    exact absurd rfl hk

theorem Owner.confined (h : Owner disks volume before disk part after) {block : RamBlockDevice}
    (hblock : disk.block.SameOutside block (part.startLba * disk.block.sectorSize)
      ((part.startLba + part.sectorCount) * disk.block.sectorSize)) :
    Confined disks (before ++ { disk with block := block } :: after) volume := by
  rw [h.split]
  exact confined_split h.part h.first hblock

theorem Owner.mem (h : Owner disks volume before disk part after) : disk ∈ disks := by
  rw [h.split]
  exact mem_append_right _ mem_cons_self

theorem save_confined (hsized : ∀ d ∈ st.disks, d.block.Sized) (volume : Str) :
    Confined st.disks (saveMountedVolume st volume).2.disks volume := by
  cases hm : st.mounted.find? (isMounted volume) with
  | none => exact .of_eq (by rw [saveMountedVolume, hm]) _
  | some m =>
    rw [save_eq hm]
    cases hback : backing st volume with
    | error e => exact .refl _ _
    | ok r =>
      obtain ⟨dn, disk, part⟩ := r
      obtain ⟨rfl, before, after, howner⟩ := owner_of_backing hback
      dsimp only
      rw [howner.setBlock]
      exact howner.confined (writePartitionBytes_outside (hsized disk howner.mem) part _)

theorem ensureVolumeMounted_disks (st : StorageState) (volume : Str) (fs : FilesystemKind) :
    (ensureVolumeMounted st volume fs).2.disks = st.disks := by
  unfold ensureVolumeMounted
  split
  · rfl
  split
  · rfl
  dsimp only
  split
  · rfl
  · rfl

theorem readTree_disks {α : Type} (st : StorageState) (volume : Str) (fs : FilesystemKind)
    (body : List FsNode → Except String α) : (readTree st volume fs body).2.disks = st.disks := by
  have hkeep := ensureVolumeMounted_disks st volume fs
  unfold readTree
  split
  · rfl
  split
  · next hensure =>
    rw [hensure] at hkeep
    exact hkeep
  · next hensure =>
    rw [hensure] at hkeep
    split
    · exact hkeep
    · exact hkeep

theorem updateTree_confined (hsized : ∀ d ∈ st.disks, d.block.Sized) (volume : Str) (fs : FilesystemKind)
    (body : List FsNode → Except String Unit × List FsNode) :
    Confined st.disks (updateTree st volume fs body).2.disks volume := by
  have hkeep := ensureVolumeMounted_disks st volume fs
  unfold updateTree
  split
  · exact .refl _ _
  split
  · exact .refl _ _
  split
  · next hensure =>
    rw [hensure] at hkeep
    exact .of_eq hkeep _
  · next st1 hensure =>
    rw [hensure] at hkeep
    have hdisks : st1.disks = st.disks := hkeep
    split
    · exact .of_eq hdisks _
    · dsimp only
      split
      · exact .of_eq hdisks _
      · split
        · rw [← hdisks] at hsized ⊢
          have hsaved : ∀ mounted,
              Confined st1.disks (saveMountedVolume { st1 with mounted := mounted } volume).2.disks volume :=
            fun mounted => @save_confined { st1 with mounted := mounted } hsized volume
          exact hsaved _
        · exact .of_eq hdisks _

theorem ownPartition_congr (h : foldCase s = foldCase t) (disks : List DiskDevice) :
    ownPartition disks s = ownPartition disks t := by
  induction disks with
  | nil => rfl
  | cons d disks ih => rw [ownPartition, ownPartition, isPartition_congr h, ih]

theorem Confined.congr (h : foldCase s = foldCase t) {disks' : List DiskDevice}
    (hconf : Confined disks disks' s) : Confined disks disks' t := by
  refine ⟨hconf.1, fun j d d' hd hd' k hk => ?_⟩
  rw [← ownPartition_congr h]
  exact hconf.2 j d d' hd hd' k hk

theorem format_confined (hsized : ∀ d ∈ st.disks, d.block.Sized) (name : Str) (fs : FilesystemKind) :
    Confined st.disks (formatVolume st name fs).2.disks name := by
  unfold formatVolume
  split
  · exact .refl _ _
  split
  · exact .refl _ _
  dsimp only
  split
  · generalize hst1 : ({ st with volumes := _ } : StorageState) = st1
    have hdisks : st.disks = st1.disks := by rw [← hst1]
    rw [hdisks] at hsized ⊢
    split
    · exact .refl _ _
    next dn pn hresolve =>
    split
    · exact .refl _ _
    next disk part hfind =>
    have hback : backing st1 name = .ok (dn, disk, part) := by
      rw [backing, hresolve]
      show (findOwner st1 dn pn).map _ = _
      rw [hfind]
      rfl
    obtain ⟨rfl, before, after, howner⟩ := owner_of_backing hback
    have hwrite := writePartitionBytes_outside (hsized disk howner.mem) part (serializeTree defaultFatTree)
    split
    · next hdone =>
      rw [hdone] at hwrite
      rw [howner.setBlock]
      exact howner.confined hwrite
    · next block hdone =>
      rw [hdone] at hwrite
      rw [howner.setBlock]
      exact howner.confined { hwrite with }
  · exact .refl _ _

variable {v : DetectedVolume}

/-! ### Sectors by name -/

/-- The names that discovery gives: a disk has a number, a partition its disk's name and a number. -/
def DiskDevice.Named (d : DiskDevice) : Prop :=
  ∃ n, d.name = diskName n ∧ ∀ p ∈ d.partitions, ∃ k, p.name = diskName n ++ 'p' :: decimal k

/-- A name that starts with `d` is not below `/dev/`. -/
theorem dev_ne_diskName (s t : Str) (n : Nat) : foldCase ("/dev/".toList ++ s) ≠ foldCase (diskName n ++ t) := by
  intro h
  cases congrArg head? h

variable {device : Str}

theorem namesDevice_iff {name : Str} : namesDevice name device = true ↔
    foldCase name = foldCase device ∨ foldCase ("/dev/".toList ++ name) = foldCase device := by
  rw [namesDevice, Bool.or_eq_true, eqIgnoreAsciiCase_iff, eqIgnoreAsciiCase_iff]

/-- A device name that means one of the names of discovery. -/
theorem namesDevice_same {u v : Str} {m n : Nat} (hs : s = diskName m ++ u) (ht : t = diskName n ++ v)
    (h : namesDevice s device = true) (h' : namesDevice t device = true) : foldCase s = foldCase t := by
  subst hs ht
  rcases namesDevice_iff.mp h with h | h
  · rcases namesDevice_iff.mp h' with h' | h'
    · exact h.trans h'.symm
    · exact absurd (h'.trans h.symm) (dev_ne_diskName _ _ _)
  · rcases namesDevice_iff.mp h' with h' | h'
    · exact absurd (h.trans h'.symm) (dev_ne_diskName _ _ _)
    · have heq := h.trans h'.symm
      rw [foldCase_append] at heq
      exact append_cancel_left heq

/-- A partition's name means, on every disk, the first partition with that name. -/
theorem targetOn_part (hnamed : disk.Named) {n k : Nat}
    (hdevice : namesDevice (diskName n ++ 'p' :: decimal k) device = true) : targetOn device disk =
      (disk.partitions.find? (isPartition (diskName n ++ 'p' :: decimal k))).map some := by
  obtain ⟨m, hname, hparts⟩ := hnamed
  have hnot : ¬namesDevice disk.name device = true := by
    intro hdisk
    exact diskName_ne_partName m n _ (hname ▸ namesDevice_same (hname.trans (append_nil _).symm) rfl hdisk hdevice)
  rw [targetOn, if_neg hnot]
  congr 1
  refine find?_congr fun p hp => ?_
  obtain ⟨i, hp⟩ := hparts p hp
  rw [Bool.eq_iff_iff, isPartition, eqIgnoreAsciiCase_iff]
  refine ⟨fun hp' => namesDevice_same hp rfl hp' hdevice, fun heq => ?_⟩
  rw [namesDevice_iff, foldCase_append, heq]
  exact namesDevice_iff.mp hdevice

theorem writeSector_confined (hsized : ∀ d ∈ st.disks, d.block.Sized) (hnamed : ∀ d ∈ st.disks, d.Named)
    (hdisk : disk ∈ st.disks) (hpart : part ∈ disk.partitions) (hdevice : namesDevice part.name device = true)
    (lba : Nat) (data : List UInt8) :
    Confined st.disks (writeSector st device lba data).2.disks part.name := by
  obtain ⟨n, -, hparts⟩ := hnamed disk hdisk
  obtain ⟨k, hname⟩ := hparts part hpart
  have htarget : ∀ d ∈ st.disks, targetOn device d = (d.partitions.find? (isPartition part.name)).map some := by
    intro d hd
    rw [hname] at hdevice ⊢
    exact targetOn_part (hnamed d hd) hdevice
  unfold writeSector
  split
  · exact .refl _ _
  next d hfind =>
  split
  · exact .refl _ _
  next sector hsector =>
  obtain ⟨hsome, before, after, hsplit, hbefore⟩ := find?_split hfind
  have hd : d ∈ st.disks := by
    rw [hsplit]
    exact mem_append_right _ mem_cons_self
  rw [htarget d hd] at hsome hsector
  obtain ⟨p, hp⟩ := isSome_iff_exists.mp ((isSome_map ..).symm.trans hsome)
  have hfirst : ∀ e ∈ before, e.partitions.find? (isPartition part.name) = none := by
    intro e he
    have hnone := hbefore e he
    rw [htarget e (hsplit ▸ mem_append_left _ he), isSome_map] at hnone
    exact not_isSome_iff_eq_none.mp (Bool.not_eq_true _ ▸ hnone)
  rw [hp] at hsector
  dsimp only [map_some, getD_some, targetLba] at hsector
  split at hsector
  · cases hsector
  next hlba =>
  cases hsector
  dsimp only
  rw [hsplit, modifyFirst_append_cons hbefore (by rw [htarget d hd, hp]; rfl)]
  exact confined_split hp hfirst (writeSector_part (hsized d hd) (Nat.lt_of_not_le hlba) data)

/-- The calls on a volume: on a path of it, on itself, and on the sectors of a partition with its name. -/
def Op.On (st : StorageState) (volume : Str) : Op → Prop
  | .fsCreate path | .fsMkdir path | .fsDelete path | .fsRead path | .fsWrite path _ | .fsStat path
  | .fsReaddir path | .usedBytes path => ∃ fs rel, mountedVolumeInfoInternal st path = some (volume, fs, rel)
  | .fsRename source target => (∃ fs rel, mountedVolumeInfoInternal st source = some (volume, fs, rel)) ∨
      ∃ fs rel, mountedVolumeInfoInternal st target = some (volume, fs, rel)
  | .formatVolume name _ => ∃ v, st.volumes.find? (isVolume name) = some v ∧ v.name = volume
  | .umountVolume path => ∃ v, st.volumes.find? (fun v => v.mountedAt == some path) = some v ∧ v.name = volume
  | .writeSector device _ _ => namesDevice volume device = true ∧
      ∃ disk ∈ st.disks, ∃ part ∈ disk.partitions, part.name = volume
  | _ => False

/-- A writing call on a volume writes the list of that volume. -/
theorem treeCall_on {op : Op} {V : Str} {fs : FilesystemKind} {call : TreeCall} (hon : op.On st volume)
    (hcall : op.treeCall st = some (V, fs, call)) : foldCase V = foldCase volume := by
  have hone : ∀ {path : Str} {f : Str × FilesystemKind × Str → TreeCall},
      (∃ fs rel, mountedVolumeInfoInternal st path = some (volume, fs, rel)) →
      ((mountedVolumeInfoInternal st path).map fun r => (r.1, r.2.1, f r)) = some (V, fs, call) → V = volume := by
    rintro path f ⟨fs', rel, hinfo⟩ hmap
    rw [hinfo] at hmap
    cases hmap
    rfl
  cases op with
  | fsCreate path => exact congrArg foldCase (hone hon hcall)
  | fsMkdir path => exact congrArg foldCase (hone hon hcall)
  | fsWrite path data => exact congrArg foldCase (hone hon hcall)
  | fsDelete path =>
    obtain ⟨fs', rel, hinfo⟩ := hon
    obtain ⟨r, hr, hcall⟩ := bind_eq_some_iff.mp hcall
    cases hinfo.symm.trans hr
    split at hcall
    · cases hcall
    · cases hcall
      rfl
  | fsRename source target =>
    obtain ⟨r, hr, hcall⟩ := bind_eq_some_iff.mp hcall
    obtain ⟨r', hr', hcall⟩ := bind_eq_some_iff.mp hcall
    split at hcall
    · cases hcall
    next hsame =>
    cases hcall
    rw [Bool.not_eq_false, eqIgnoreAsciiCase_iff] at hsame
    rcases hon with ⟨fs', rel, hinfo⟩ | ⟨fs', rel, hinfo⟩
    · cases hinfo.symm.trans hr
      rfl
    · cases hinfo.symm.trans hr'
      exact hsame
  | _ => cases hcall

theorem writes_confined (hsized : ∀ d ∈ st.disks, d.block.Sized) {op : Op} (hon : op.On st volume)
    (hw : op.Writes) : Confined st.disks (step st op).disks volume := by
  cases hcall : op.treeCall st with
  | none =>
    obtain ⟨e, he⟩ := exec_no_treeCall hw hcall
    rw [step, he]
    exact .refl _ _
  | some r =>
    obtain ⟨V, fs, call⟩ := r
    rw [step, (exec_treeCall hcall).1]
    exact (updateTree_confined hsized V fs call.run).congr (treeCall_on hon hcall)

/-- The reading calls. -/
theorem read_disks {α : Type} (st : StorageState) (path : Str) (e : String)
    (body : Str → List FsNode → Except String α) :
    (match mountedVolumeInfoInternal st path with
      | none => ((.error e, st) : Except String α × StorageState)
      | some (volume, fs, rel) => readTree st volume fs (body rel)).2.disks = st.disks := by
  split
  · rfl
  · exact readTree_disks _ _ _ _

theorem usedBytes_disks (st : StorageState) (path : Str) : (usedBytes st path).2.disks = st.disks := by
  unfold usedBytes
  split
  · rfl
  next volume fs rel hinfo =>
  have hkeep := readTree_disks st volume fs fun nodes => .ok (usedIn nodes)
  split
  · rfl
  split
  · next hread =>
    rw [hread] at hkeep
    exact hkeep
  · next hread =>
    rw [hread] at hkeep
    exact hkeep

/-- **A call on a volume changes bytes of its partition only**, whether it succeeds or fails. -/
theorem confined_to_partition (st : StorageState) (hsized : ∀ d ∈ st.disks, d.block.Sized)
    (hnamed : ∀ d ∈ st.disks, d.Named) (op : Op) (volume : Str) (hon : op.On st volume) :
    Confined st.disks (step st op).disks volume := by
  cases op with
  | mountVolume name path readOnly => exact hon.elim
  | rescan devs => exact hon.elim
  | readSector device lba outLen => exact hon.elim
  | flush device => exact hon.elim
  | fsCreate path => exact writes_confined hsized hon trivial
  | fsMkdir path => exact writes_confined hsized hon trivial
  | fsDelete path => exact writes_confined hsized hon trivial
  | fsRename source target => exact writes_confined hsized hon trivial
  | fsWrite path data => exact writes_confined hsized hon trivial
  | fsRead path => exact .of_eq (read_disks st path _ _) _
  | fsStat path => exact .of_eq (read_disks st path _ _) _
  | fsReaddir path => exact .of_eq (read_disks st path _ _) _
  | usedBytes path => exact .of_eq (usedBytes_disks st path) _
  | formatVolume name fs =>
    obtain ⟨v, hv, rfl⟩ := hon
    have hname : isVolume name v = true := List.find?_some hv
    exact (format_confined hsized name fs).congr (eqIgnoreAsciiCase_iff.mp hname).symm
  | umountVolume path =>
    obtain ⟨v, hv, rfl⟩ := hon
    show Confined st.disks (Storage.umountVolume st path).2.disks v.name
    rw [Storage.umountVolume, hv]
    dsimp only
    split
    · exact save_confined hsized v.name
    · exact .refl _ _
  | writeSector device lba data =>
    obtain ⟨hdevice, disk, hdisk, part, hpart, rfl⟩ := hon
    exact writeSector_confined hsized hnamed hdisk hpart hdevice lba data

theorem mount_disks (st : StorageState) (name path : Str) (readOnly : Bool) :
    (step st (.mountVolume name path readOnly)).disks = st.disks := by
  show (mountVolume st name path readOnly).2.disks = st.disks
  unfold mountVolume
  split
  · rfl
  next v hv =>
  split
  · rfl
  split
  · rfl
  dsimp only
  have hkeep := ensureVolumeMounted_disks st v.name v.filesystem
  split
  · next hmounted =>
    split at hmounted
    · rw [hmounted] at hkeep
      exact hkeep
    · cases hmounted
  · next hmounted =>
    split at hmounted
    · rw [hmounted] at hkeep
      exact hkeep
    · cases hmounted
      rfl

/-- A file written to the mounted partition. -/
theorem confined_to_partition_file : Confined (step (init [ahci]) mountAhci).disks
    (step (step (init [ahci]) mountAhci) (.fsWrite "/mnt/f".toList [1])).disks "disk0p1".toList := by
  have hdisk : ∀ d ∈ (step (init [ahci]) mountAhci).disks, d = ahciDisk := by
    rw [mountAhci, mount_disks, disks_ahci]
    exact fun d hd => List.mem_singleton.mp hd
  refine confined_to_partition _ (fun d hd => ?_) (fun d hd => ?_) _ _ ⟨.fat32, "/f".toList, ?_⟩
  · rw [hdisk d hd]
    exact standard_ahciDisk.sized
  · rw [hdisk d hd]
    refine ⟨0, rfl, fun p hp => ⟨1, ?_⟩⟩
    rw [mem_singleton.mp hp]
    rfl
  · have hvolumes : (step (init [ahci]) mountAhci).volumes = ahciMounted.volumes := volumes_mounted
    exact (info_congr hvolumes _).trans (by decide)

/-! ## Round trip -/

theorem find_unmounted (mounted : List MountedFs) (volume : Str) (nodes : List FsNode) :
    List.find? (isMounted volume) ((mounted.filter fun m => !isMounted volume m) ++ [⟨volume, nodes⟩]) =
      some ⟨volume, nodes⟩ := by
  have hnone : (mounted.filter fun m => !isMounted volume m).find? (isMounted volume) = none := by
    refine find?_eq_none.mpr fun m hm hmounted => ?_
    have hkept := (mem_filter.mp hm).2
    rw [hmounted] at hkept
    cases hkept
  rw [find?_append, hnone]
  exact find?_cons_of_pos (eqIgnoreAsciiCase_iff.mpr rfl)

/-- Mounting a FAT32 volume that has no node list reads its partition. -/
theorem mount_loads {st' : StorageState} {name path : Str} {readOnly : Bool}
    (hv : st.volumes.find? (isVolume name) = some v) (hfat : v.filesystem = .fat32)
    (hnone : st.mounted.any (isMounted v.name) = false)
    (hmount : mountVolume st name path readOnly = (.ok (), st')) :
    ∃ nodes, loadVolumeTree st v.name = .ok nodes ∧ st'.mounted = st.mounted ++ [⟨v.name, nodes⟩] := by
  unfold mountVolume at hmount
  rw [hv] at hmount
  dsimp only at hmount
  split at hmount
  · cases hmount
  split at hmount
  · cases hmount
  rw [hfat, ensureVolumeMounted, hnone] at hmount
  cases hload : loadVolumeTree st v.name with
  | error e =>
    rw [hload] at hmount
    cases hmount
  | ok nodes =>
    rw [hload] at hmount
    cases hmount
    exact ⟨nodes, rfl, rfl⟩

/-- Unmounting a FAT32 volume leaves its list on its partition. -/
theorem umount_stores {path : Str} (hv : st.volumes.find? (fun v => v.mountedAt == some path) = some v)
    (hfat : v.filesystem = .fat32) {m : MountedFs} (hm : st.mounted.find? (isMounted v.name) = some m)
    (howner : Owner st.disks v.name before disk part after) (hsized : disk.block.Sized)
    (hin : part.Inside disk.block) :
    (umountVolume st path).2 =
      { st with
        disks := before ++ { disk with block := part.overwrite disk.block (serializeTree m.nodes) } :: after
        mounted := st.mounted.filter fun m => !isMounted v.name m
        volumes := st.volumes.modifyFirst (fun v => v.mountedAt == some path) fun v => { v with mountedAt := none } } := by
  unfold umountVolume
  rw [hv]
  dsimp only
  rw [if_pos hfat, save_eq hm, howner.backing]
  dsimp only
  rw [writePartitionBytes_eq hsized hin, howner.setBlock]

/-- **Unmounted and mounted again, a FAT32 volume has the node list it had**, when the list fits the fields and the
    partition. -/
theorem remount_same_nodes (st : StorageState) (v : DetectedVolume) (path : Str)
    (hv : st.volumes.find? (fun v => v.mountedAt == some path) = some v) (hfat : v.filesystem = .fat32)
    (m : MountedFs) (hm : st.mounted.find? (isMounted v.name) = some m)
    (dn : Str) (disk : DiskDevice) (part : Partition) (hback : backing st v.name = .ok (dn, disk, part))
    (hsized : disk.block.Sized) (hin : part.Inside disk.block) (hcount : m.nodes.length < 2 ^ 32)
    (hpaths : ∀ n ∈ m.nodes, (utf8 n.path).length < 65536) (hfiles : ∀ n ∈ m.nodes, n.data.length < 2 ^ 32)
    (hfits : (serializeTree m.nodes).length ≤ part.sectorCount * disk.block.sectorSize)
    (name : Str) (hname : st.volumes.find? (isVolume name) = some v) (path' : Str) (readOnly : Bool)
    (st' : StorageState) (hmount : mountVolume (umountVolume st path).2 name path' readOnly = (.ok (), st')) :
    (st'.mounted.find? (isMounted v.name)).map MountedFs.nodes = some m.nodes := by
  obtain ⟨-, before, after, howner⟩ := owner_of_backing hback
  have humount := umount_stores hv hfat hm howner hsized hin
  -- the state in between
  generalize (umountVolume st path).2 = st₁ at humount hmount
  have hagain : st₁.volumes.find? (isVolume name) = some { v with mountedAt := none } := by
    have hself : isVolume name v = true := List.find?_some hname
    rw [humount]
    exact List.find?_modifyFirst_same hv hname hself
  have hnone : st₁.mounted.any (isMounted v.name) = false := by
    rw [humount]
    simp
  obtain ⟨nodes, hload, hmounted⟩ := mount_loads hagain hfat hnone hmount
  have howner₁ : Owner st₁.disks v.name before
      { disk with block := part.overwrite disk.block (serializeTree m.nodes) } part after := by
    rw [humount]
    exact howner.change _
  have hread : readPartitionBytes (part.overwrite disk.block (serializeTree m.nodes)) part =
      .ok (fit (part.capacity disk.block) (serializeTree m.nodes)) := by
    rw [readPartitionBytes_eq (part.sized_overwrite hsized hin _) hin, part.slice_overwrite hsized hin]
  have hwidths : Widths m.nodes := ⟨hcount, fun n hn => ⟨hpaths n hn, hfiles n hn⟩⟩
  have hroom : (serializeTree m.nodes).length ≤ part.capacity disk.block := hfits
  rw [load_backed howner₁.backing, hread] at hload
  cases hload
  rw [hmounted, humount]
  dsimp only
  rw [deserialize_fit hwidths hroom, find_unmounted]
  rfl

/-- A disk of four small sectors, three of them a FAT32 partition. -/
def smallDisk (bytes : List UInt8) : DiskDevice :=
  { name := "disk0".toList, backing := "ram".toList
    block := { sectorSize := 32, sectors := 4, bytes := bytes, dirty := false }
    partitions := [{ name := "disk0p1".toList, startLba := 1, sectorCount := 3, fsHint := .fat32 }] }

/-- Its partition, mounted at `/mnt` with the root directory alone. -/
def smallMounted : StorageState :=
  { initialized := true
    volumes := [{ name := "disk0p1".toList, filesystem := .fat32, backing := "disk0:disk0p1".toList, totalBytes := 96,
                  sectorSize := 32, mountedAt := some "/mnt".toList, writable := true }]
    disks := [smallDisk (List.replicate 128 0)]
    mounted := [⟨"disk0p1".toList, [directoryNode "/"]⟩] }

set_option maxRecDepth 4000 in
theorem remount_same_nodes_small : ∃ st',
    mountVolume (umountVolume smallMounted "/mnt".toList).2 "DISK0P1".toList "/data".toList false = (.ok (), st') ∧
      (st'.mounted.find? (isMounted "disk0p1".toList)).map MountedFs.nodes = some [directoryNode "/"] := by
  refine ⟨_, rfl, remount_same_nodes smallMounted _ "/mnt".toList rfl rfl _ rfl _ _ _ rfl ?_ ?_ ?_ ?_ ?_ ?_
    "DISK0P1".toList rfl "/data".toList false _ rfl⟩
  · exact ⟨by decide, by decide, by decide⟩
  · show 1 + 3 ≤ 4
    decide
  · decide
  · decide
  · decide
  · decide

/-! ## Any contents -/

/-- **What a mount brings up is a tree exactly when** no list but a tree is serialized at the front of the partition. -/
theorem mount_tree_iff (st st' : StorageState) (v : DetectedVolume) (name path : Str) (readOnly : Bool)
    (hv : st.volumes.find? (isVolume name) = some v) (hfat : v.filesystem = .fat32)
    (hnone : st.mounted.any (isMounted v.name) = false) (dn : Str) (disk : DiskDevice) (part : Partition)
    (hback : backing st v.name = .ok (dn, disk, part)) (bytes : List UInt8)
    (hbytes : readPartitionBytes disk.block part = .ok bytes)
    (hmount : mountVolume st name path readOnly = (.ok (), st')) :
    (∃ m, st'.mounted.find? (isMounted v.name) = some m ∧ IsTree m.nodes) ↔
      ∀ nodes, Widths nodes → serializeTree nodes <+: bytes → IsTree nodes := by
  obtain ⟨nodes, hload, hmounted⟩ := mount_loads hv hfat hnone hmount
  rw [load_backed hback, hbytes] at hload
  have hnodes : (deserializeTree bytes).getD defaultFatTree = nodes := Except.ok.inj hload
  have hfind : st'.mounted.find? (isMounted v.name) = some ⟨v.name, nodes⟩ := by
    have hfree : st.mounted.find? (isMounted v.name) = none := by
      refine List.find?_eq_none.mpr fun m hm => ?_
      exact List.any_eq_false.mp hnone m hm
    rw [hmounted, List.find?_append, hfree]
    exact List.find?_cons_of_pos (eqIgnoreAsciiCase_iff.mpr rfl)
  have htree : IsTree nodes ↔ ∀ nodes, Widths nodes → serializeTree nodes <+: bytes → IsTree nodes := by
    rw [← hnodes]
    constructor
    · intro htree other hwidths hfront
      rw [deserializeTree_eq_some.mpr ⟨hwidths, hfront⟩] at htree
      exact htree
    · intro hall
      cases hread : deserializeTree bytes with
      | none => exact isTree_defaultFatTree
      | some other =>
        obtain ⟨hwidths, hfront⟩ := deserializeTree_eq_some.mp hread
        exact hall other hwidths hfront
  rw [hfind, ← htree]
  constructor
  · rintro ⟨m, hm, hm'⟩
    cases hm
    exact hm'
  · exact fun h => ⟨_, rfl, h⟩

/-- The small disk with its partition not mounted and these bytes on it. -/
def smallUnmounted (contents : List UInt8) : StorageState :=
  { initialized := true
    volumes := [{ name := "disk0p1".toList, filesystem := .fat32, backing := "disk0:disk0p1".toList, totalBytes := 96,
                  sectorSize := 32, mountedAt := none, writable := true }]
    disks := [smallDisk (List.replicate 32 0 ++ fit 96 contents)]
    mounted := [] }

theorem read_smallDisk (contents : List UInt8) :
    readPartitionBytes (smallDisk (List.replicate 32 0 ++ fit 96 contents)).block
      { name := "disk0p1".toList, startLba := 1, sectorCount := 3, fsHint := .fat32 } = .ok (fit 96 contents) := by
  have hlen : (replicate 32 (0 : UInt8) ++ fit 96 contents).length = 4 * 32 := by
    rw [length_append, length_replicate, length_fit]
  have hsized : (smallDisk (replicate 32 0 ++ fit 96 contents)).block.Sized :=
    ⟨hlen, by rw [smallDisk, hlen]; decide, Nat.zero_lt_succ _⟩
  have hin : Partition.Inside { name := "disk0p1".toList, startLba := 1, sectorCount := 3, fsHint := .fat32 }
      (smallDisk (replicate 32 0 ++ fit 96 contents)).block := Nat.le_refl 4
  rw [readPartitionBytes_eq hsized hin]
  show Except.ok (((replicate 32 (0 : UInt8) ++ fit 96 contents).drop 32).take 96) = _
  rw [drop_left' length_replicate, take_of_length_le (Nat.le_of_eq (length_fit _ _))]

set_option maxRecDepth 4000 in
theorem mount_tree_small : ∃ st' m,
    mountVolume (smallUnmounted (serializeTree [directoryNode "/"])) "disk0p1".toList "/mnt".toList false = (.ok (), st') ∧
      st'.mounted.find? (isMounted "disk0p1".toList) = some m ∧ IsTree m.nodes := by
  obtain ⟨st', hmount⟩ : ∃ st', mountVolume (smallUnmounted (serializeTree [directoryNode "/"])) "disk0p1".toList
      "/mnt".toList false = (.ok (), st') := ⟨_, rfl⟩
  have hfits : serializeTree [directoryNode "/"] <+: fit 96 (serializeTree [directoryNode "/"]) := by decide
  obtain ⟨m, hm, htree⟩ := (mount_tree_iff _ st' _ "disk0p1".toList "/mnt".toList false rfl rfl rfl _ _ _ rfl _
    (read_smallDisk _) hmount).mpr fun nodes hwidths hfront => by
      have hread := deserializeTree_eq_some.mpr ⟨hwidths, hfront⟩
      cases hread
      decide
  exact ⟨st', m, hmount, hm, htree⟩

/-! ### A store without nodes -/

/-- A sector with the serialized form of the empty list. -/
def emptyStore : List UInt8 := fit 512 (serializeTree [])

variable {d : DiskDevice}

/-- The first sector of the standard partition, written. -/
theorem step_writeFirst (h : Wired st)
    (hfind : st.disks.find? (fun disk => (targetOn "disk0p1".toList disk).isSome) = some d)
    (htarget : targetLba ((targetOn "disk0p1".toList d).getD none) 0 = .ok 2048) {data : List UInt8}
    (hdata : data.length = 512) : step st (.writeSector "disk0p1".toList 0 data) =
      setDisk st d.partKey (d.patchSector 2048 data) := by
  have hstd := h.standard d (mem_of_find?_eq_some hfind)
  show (writeSector st "disk0p1".toList 0 data).2 = _
  rcases h.writeSector_cases "disk0p1".toList 0 data with ⟨e, he⟩ | ⟨d', sector, hfind', htarget', -, -, he⟩
  · rw [writeSector, hfind] at he
    dsimp only at he
    rw [htarget] at he
    dsimp only at he
    rw [writeSector_eq hstd.sized (by rw [hstd.sectors]; decide) (by rw [hstd.sectorSize]; exact hdata)] at he
    cases he
  · cases hfind.symm.trans hfind'
    cases htarget.symm.trans htarget'
    rw [he]

theorem tree_patchFirst (h : d.Standard) :
    DiskDevice.tree { d with block := d.patchSector 2048 emptyStore } = [] := by
  have hlen : d.block.bytes.length = 4096 * 512 := by rw [h.sized.length, h.sectors, h.sectorSize]
  have hstore : emptyStore.length = 512 := length_fit _ _
  have himage : DiskDevice.image { d with block := d.patchSector 2048 emptyStore } =
      ((patch (2048 * 512) emptyStore d.block.bytes).drop (2048 * 512)).take (2048 * 512) := by
    show ((patch (2048 * 512) emptyStore d.block.bytes).drop (2048 * d.block.sectorSize)).take
      (2048 * d.block.sectorSize) = _
    rw [h.sectorSize]
  have hfront : emptyStore <+: DiskDevice.image { d with block := d.patchSector 2048 emptyStore } := by
    have hslice : ((patch (2048 * 512) emptyStore d.block.bytes).drop (2048 * 512)).take emptyStore.length = emptyStore :=
      slice_patch (by rw [hlen, hstore]; decide)
    rw [hstore] at hslice
    rw [himage]
    calc emptyStore = ((patch (2048 * 512) emptyStore d.block.bytes).drop (2048 * 512)).take 512 := hslice.symm
      _ <+: ((patch (2048 * 512) emptyStore d.block.bytes).drop (2048 * 512)).take (2048 * 512) :=
        take_prefix_take_left (by decide)
  have hempty : serializeTree [] <+: emptyStore := by decide
  rw [DiskDevice.tree, deserializeTree_eq_some.mpr ⟨by decide, hempty.trans hfront⟩]
  rfl

/-- A mount after the store without nodes was written over the front of the partition. -/
theorem mounted_writeFirst (h : Wired st) (hvol : st.volumes = ahciVolumes none)
    (hfind : st.disks.find? (fun disk => (targetOn "disk0p1".toList disk).isSome) = some d)
    (htarget : targetLba ((targetOn "disk0p1".toList d).getD none) 0 = .ok 2048)
    (hkey : d.partKey = "disk0p1".toList) (hd : diskAt st "disk0p1".toList = some d) :
    ∃ m ∈ ([.writeSector "disk0p1".toList 0 emptyStore, mountAhci].foldl step st).mounted, m.nodes = [] := by
  have hstore : emptyStore.length = 512 := length_fit _ _
  have hstep := step_writeFirst h hfind htarget hstore
  have hwired : Wired (step st (.writeSector "disk0p1".toList 0 emptyStore)) := h.effect (h.step_effect _)
  have hdisk : diskAt (step st (.writeSector "disk0p1".toList 0 emptyStore)) "disk0p1".toList =
      some { d with block := d.patchSector 2048 emptyStore } := by
    rw [hstep, diskAt_setDisk, if_pos hkey.symm, hd, map_some]
  have htree := (step_mountAhci hwired (by rw [hstep, volumes_setDisk, hvol]) hdisk).2
  rw [tree_patchFirst (h.standard d (mem_of_find?_eq_some hfind))] at htree
  obtain ⟨m, hm, -, hnodes⟩ := mem_of_treeAt htree
  exact ⟨m, hm, hnodes⟩

/-- **A sector written while the partition is not mounted**, and the mounted volume has no root. -/
theorem written_store_not_tree : ∃ m ∈ ([.writeSector "disk0p1".toList 0 emptyStore, mountAhci].foldl step
    (init [ahci])).mounted, ¬IsTree m.nodes := by
  have hfind : (init [ahci]).disks.find? (fun disk => (targetOn "disk0p1".toList disk).isSome) = some ahciDisk := by
    rw [disks_ahci]
    exact List.find?_cons_of_pos (by decide)
  obtain ⟨m, hm, hnodes⟩ := mounted_writeFirst (wired_init [ahci]) volumes_ahci hfind (by decide) (by decide) diskAt_ahci
  refine ⟨m, hm, ?_⟩
  rw [hnodes]
  decide

end Saios.Storage
