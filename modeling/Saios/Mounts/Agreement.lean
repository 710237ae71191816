/-
  THE MOUNT RECORDS OF THE VFS AND THE MOUNTED VOLUMES, between any two mount commands.

  A command changes the two tables one after the other, and three commands can stop half way (`Splits`).

  1. **Mounting a volume that is mounted already.**  The VFS knows nothing of volumes and takes the new
     mount point; the storage driver then refuses the volume.
  2. **Unmounting by another spelling of the path.**  The VFS compares normalized paths, the storage
     driver compares strings, and what it says is ignored.
  3. **Scanning while something is mounted.**  The driver forgets every mounted volume; the VFS keeps its
     records.

  Every other command keeps the tables in agreement (`agree_after`), so they agree in all states of a run
  exactly when no command of it is one of the three (`tables_agree_iff`).
-/
import Saios.Mounts.Commands
import Saios.Storage.Effect
import Saios.Vfs.OpenFiles

namespace Saios.Mounts

open Path Vfs TmpFs List Option
open Storage (normalizePath findVolume PciDevice Wired)

/-! ## The two tables -/

def recordPaths (w : World) : List Str := w.vfs.mounts.map MountRecord.path

/-- The normalized mount paths of the mounted volumes, one for each. -/
def mountedPaths (st : Storage.StorageState) : List Str :=
  st.volumes.filterMap fun v => v.mountedAt.map normalizePath

structure Agree (w : World) : Prop where
  same : ∀ p, p ≠ ['/'] → (p ∈ recordPaths w ↔ p ∈ mountedPaths w.storage)
  distinct : (mountedPaths w.storage).Nodup

/-! ## The condition -/

def DirAt (fs : TmpFs) (path : Str) : Prop :=
  ∃ i n, fs.resolve path = .ok i ∧ fs.get? i = some n ∧ n.kind = .directory

/-- The VFS takes the path as a mount point: no record has it, and it is a directory or can become one. -/
def MountPoint (w : World) (path : Str) : Prop :=
  normalizePath path ∉ recordPaths w ∧
    (DirAt w.vfs.fs (normalizePath path) ∨
      OnTmpfs w path ∧ ∃ p d name, Creatable w.vfs.fs path p d name)

/-- The requests that change one table only. -/
def Splits (w : World) : Option Request → Prop
  | some (.mount device mountpoint _) =>
      MountPoint w mountpoint ∧
        ∃ vol, findVolume w.storage device = some vol ∧ vol.mountedAt ≠ none
  | some (.umount mountpoint) =>
      normalizePath mountpoint ≠ ['/'] ∧ normalizePath mountpoint ∈ recordPaths w ∧
        ∀ v ∈ w.storage.volumes, v.mountedAt ≠ some mountpoint
  | some (.scan _) => ∃ p ∈ recordPaths w, p ≠ ['/']
  | none => False

/-! ## What every command leaves -/

/-- Every FAT32 volume is a partition. -/
def Backed (st : Storage.StorageState) : Prop :=
  ∀ v ∈ st.volumes, v.filesystem = .fat32 → (Storage.diskAt st v.key).isSome = true

structure Ready (w : World) : Prop where
  rooted : Rooted w.vfs.fs
  cwd : w.vfs.fs.cwd = w.vfs.fs.root
  root : ['/'] ∈ recordPaths w
  wired : Wired w.storage
  backed : Backed w.storage

theorem backed_init (devs : List PciDevice) : Backed (Storage.init devs) := by
  intro v hv hfs
  rcases mem_cons.mp hv with rfl | hv
  · cases hfs
  obtain ⟨d, hd, hv⟩ := mem_flatMap.mp hv
  rcases mem_cons.mp hv with rfl | hv
  · cases hfs
  · -- the one partition of a disk is found under its own name
    rw [(Storage.discover_new hd).2, map_singleton, mem_singleton] at hv
    subst hv
    have hat := (Storage.wired_init devs).disk_iff.mpr ⟨hd, rfl⟩
    exact isSome_of_eq_some hat

theorem mountedPaths_init (devs : List PciDevice) :
    mountedPaths (Storage.init devs) = [['/']] := by
  have hnone : ∀ v ∈ (Storage.discoverDisksFromPci devs).flatMap fun disk =>
      Storage.diskVolume disk :: disk.partitions.map (Storage.partitionVolume disk),
      v.mountedAt.map normalizePath = none := by
    intro v hv
    obtain ⟨d, -, hv⟩ := mem_flatMap.mp hv
    rcases mem_cons.mp hv with rfl | hv
    · rfl
    · obtain ⟨part, -, rfl⟩ := List.mem_map.mp hv
      rfl
  show filterMap _ (Storage.tmpfsVolume :: _) = _
  rw [filterMap_cons, filterMap_eq_nil_iff.mpr hnone]
  rfl

theorem ready_boot (devs : List PciDevice) (env : Env) : Ready (boot (Storage.init devs) env) where
  rooted := rooted_seed
  cwd := by rw [boot, VfsState.new_eq]
  root := mem_singleton_self _
  wired := Storage.wired_init devs
  backed := backed_init devs

theorem agree_boot (devs : List PciDevice) (env : Env) : Agree (boot (Storage.init devs) env) := by
  have hrecords : recordPaths (boot (Storage.init devs) env) = [['/']] := by
    rfl
  have hmounted : mountedPaths (boot (Storage.init devs) env).storage = [['/']] := mountedPaths_init devs
  refine ⟨fun p _ => ?_, ?_⟩
  · rw [hrecords, hmounted]
  · rw [hmounted]; exact nodup_singleton _

/-! ## Volumes mounted and unmounted -/

section volumes

variable {st st' : Storage.StorageState} {v : Storage.DetectedVolume} {path : Str}

theorem mountedPaths_congr (h : st'.volumes = st.volumes) : mountedPaths st' = mountedPaths st := by
  rw [mountedPaths, mountedPaths, h]

section

variable (hw : Wired st) (hv : v ∈ st.volumes)

include hw hv

/-- One volume is changed in its place. -/
theorem setVolume_split {f : Storage.DetectedVolume → Storage.DetectedVolume}
    (hvols : st'.volumes = (Storage.setVolume st v.key f).volumes) :
    ∃ l1 l2, st.volumes = l1 ++ v :: l2 ∧ st'.volumes = l1 ++ f v :: l2 := by
  obtain ⟨l1, l2, hl⟩ := append_of_mem hv
  have hdist := hw.volumes
  rw [Storage.setVolume, hl] at hvols
  rw [hl] at hdist
  exact ⟨l1, l2, hl, hvols.trans (hdist.change_append_cons ..)⟩

theorem mountedPaths_mount (hfree : v.mountedAt = none)
    (hvols : st'.volumes = (Storage.setVolume st v.key (.mountAt (some path))).volumes) :
    (mountedPaths st').Perm (normalizePath path :: mountedPaths st) := by
  obtain ⟨l1, l2, hl, hl'⟩ := setVolume_split hw hv hvols
  rw [mountedPaths, mountedPaths, hl', hl, filterMap_append, filterMap_append, filterMap_cons, filterMap_cons, hfree]
  exact perm_middle

theorem mountedPaths_umount (hat : v.mountedAt = some path)
    (hvols : st'.volumes = (Storage.setVolume st v.key (.mountAt none)).volumes) :
    (mountedPaths st).Perm (normalizePath path :: mountedPaths st') := by
  obtain ⟨l1, l2, hl, hl'⟩ := setVolume_split hw hv hvols
  rw [mountedPaths, mountedPaths, hl', hl, filterMap_append, filterMap_append, filterMap_cons, hat]
  exact perm_middle

end

theorem isSome_diskAt_setDisk (key key' : Str) (block : Storage.RamBlockDevice) :
    (Storage.diskAt (Storage.setDisk st key block) key').isSome = (Storage.diskAt st key').isSome := by
  rw [Storage.diskAt_setDisk]
  split
  · rw [isSome_map]
  · rfl

/-- Which volumes there are, their filesystems and the names of the disks decide `Backed`. -/
theorem Backed.congr (h : Backed st)
    (hvols : ∀ u ∈ st'.volumes, ∃ v ∈ st.volumes, v.key = u.key ∧ v.filesystem = u.filesystem)
    (hdisks : ∀ key, (Storage.diskAt st' key).isSome = (Storage.diskAt st key).isSome) : Backed st' := by
  intro u hu hfs
  obtain ⟨v, hv, hkey, hsame⟩ := hvols u hu
  rw [hdisks, ← hkey]
  exact h v hv (hsame.trans hfs)

/-- Mounting and unmounting change neither the names of the volumes nor their filesystems. -/
theorem mountAt_origin (key : Str) (mount : Option Str) :
    ∀ u ∈ (Storage.setVolume st key (.mountAt mount)).volumes,
      ∃ v ∈ st.volumes, v.key = u.key ∧ v.filesystem = u.filesystem := by
  intro u hu
  rcases Keyed.mem_change hu with ⟨hu, -⟩ | ⟨v, hv, -, rfl⟩
  · exact ⟨u, hu, rfl, rfl⟩
  · exact ⟨v, hv, rfl, rfl⟩

/-- Only formatting can leave a FAT32 volume without a partition. -/
theorem Backed.effect {op : Storage.Op} (h : Backed st) (he : Storage.Effect st op st')
    (hop : ∀ name fs, op ≠ .formatVolume name fs) : Backed st' := by
  cases he with
  | same => exact h
  | mount => exact h.congr (mountAt_origin _ _) fun _ => rfl
  | mountTree => exact h.congr (mountAt_origin _ _) fun _ => rfl
  | umount => exact h.congr (mountAt_origin _ _) fun _ => rfl
  | umountSaved => exact h.congr (mountAt_origin _ _) fun key => isSome_diskAt_setDisk _ key _
  | format => exact absurd rfl (hop _ _)
  | formatSaved => exact absurd rfl (hop _ _)
  | update => exact h.congr (fun u hu => ⟨u, hu, rfl, rfl⟩) fun key => isSome_diskAt_setDisk _ key _
  | sector => exact h.congr (fun u hu => ⟨u, hu, rfl, rfl⟩) fun key => isSome_diskAt_setDisk _ key _
  | flush => exact h.congr (fun u hu => ⟨u, hu, rfl, rfl⟩) fun key => isSome_diskAt_setDisk _ key _
  | rescan devs => exact backed_init devs

/-- A call on files changes no volume. -/
theorem volumes_fsMkdir (hw : Wired st) (path : Str) :
    (Storage.fsMkdir st path).2.volumes = st.volumes := by
  have he : Storage.Effect st (.fsMkdir path) (Storage.fsMkdir st path).2 := hw.step_effect _
  generalize (Storage.fsMkdir st path).2 = st' at he
  cases he with
  | same => rfl
  | update => rfl

end volumes

/-! ## The VFS side of a command -/

section vfs

variable {w : World} (h : Ready w)

include h

/-- The working directory is the root, so both sides read a path the same way. -/
theorem Ready.normalizedPath (path : Str) :
    w.vfs.fs.normalizedPath path = some (normalizePath path) := by
  have hcwd : w.vfs.fs.nodeAt [] = some w.vfs.fs.cwd := by rw [h.cwd]; rfl
  unfold TmpFs.normalizedPath
  simp only [Storage.normalizePath_eq]
  split
  · exact congrArg some (normalized_string _)
  · rw [cwdPath_components hcwd h.rooted]
    exact congrArg some (normalized_string _)

theorem Ready.onTmpfs_iff (path : Str) : OnTmpfs w path ↔
    isSysPath (normalizePath path) = false ∧ isStorageBacked w (normalizePath path) = false := by
  unfold OnTmpfs
  rw [h.normalizedPath path]
  simp only [some.injEq, exists_eq_left']

/-- What `mkdir` does to the tables, and which directory there is afterwards. -/
theorem Ready.mkdir (path : Str) : ∃ r, Vfs.mkdir w path = some r ∧ Ready r.2 ∧
    r.2.vfs.mounts = w.vfs.mounts ∧ r.2.storage.volumes = w.storage.volumes ∧
    (DirAt r.2.vfs.fs (normalizePath path) ↔ DirAt w.vfs.fs (normalizePath path) ∨
      OnTmpfs w path ∧ ∃ p d name, Creatable w.vfs.fs path p d name) := by
  have habs := h.normalizedPath path
  have hon := h.onTmpfs_iff path
  rw [Vfs.mkdir, createCall, habs]
  simp only [bind_eq_bind, bind_some]
  by_cases hsys : isSysPath (normalizePath path) = true
  · rw [if_pos hsys]
    refine ⟨_, rfl, h, rfl, rfl, Iff.symm (or_iff_left fun hright => ?_)⟩
    rw [hon, hsys] at hright
    cases hright.1.1
  rw [if_neg hsys]
  by_cases hback : isStorageBacked w (normalizePath path) = true
  · rw [if_pos hback]
    have he : Storage.Effect w.storage (.fsMkdir (normalizePath path)) _ := h.wired.step_effect _
    refine ⟨_, rfl, { h with wired := h.wired.effect he, backed := ?_ }, rfl, volumes_fsMkdir h.wired _,
      Iff.symm (or_iff_left fun hright => ?_)⟩
    · exact h.backed.effect he nofun
    · rw [hon, hback] at hright
      cases hright.1.2
  rw [if_neg hback]
  have htmp : OnTmpfs w path := hon.mpr ⟨Bool.eq_false_iff.mpr hsys, Bool.eq_false_iff.mpr hback⟩
  have hready : Ready (w.setFs (w.vfs.fs.createAs path .directory).2) := by
    refine ⟨rooted_createAs h.rooted path .directory, ?_, h.root, h.wired, h.backed⟩
    rcases createAs_cases w.vfs.fs path .directory with ⟨e, he⟩ | ⟨p, name, d, -, -, -, -, he⟩
    · rw [he]; exact h.cwd
    · rw [he]; exact h.cwd
  refine ⟨_, rfl, hready, rfl, rfl, ?_⟩
  show DirAt (w.vfs.fs.createAs path .directory).2 _ ↔ _
  rcases createAs_cases w.vfs.fs path .directory with ⟨e, he⟩ | ⟨p, name, d, hr, hd, hk, hl, he⟩
  · rw [he]
    refine Iff.symm (or_iff_left fun hright => ?_)
    obtain ⟨-, p, d, name, hc⟩ := hright
    rw [hc.createAs_eq] at he
    cases he
  · have hc : Creatable w.vfs.fs path p d name := ⟨isMissing_of_lookup hr hl, hr, hd, hk⟩
    rw [he] at hready ⊢
    obtain ⟨hnew, hnode⟩ := hc.resolve_eq h.rooted.linked .directory
    have hthere := hready.rooted.resolve_normalized (hready.normalizedPath path) hnew
    exact iff_of_true ⟨_, _, hthere, hnode, rfl⟩ (Or.inr ⟨htmp, p, d, name, hc⟩)

/-- What the VFS does with a mount point: it takes a directory that no record has. -/
theorem Ready.mount (path fsName : Str) (readOnly : Bool) :
    (DirAt w.vfs.fs (normalizePath path) ∧ normalizePath path ∉ recordPaths w ∧
      ∃ w', Vfs.mount w path fsName readOnly = some (.ok (), w') ∧ Ready w' ∧ w'.storage = w.storage ∧
        recordPaths w' = recordPaths w ++ [normalizePath path]) ∨
    (¬(DirAt w.vfs.fs (normalizePath path) ∧ normalizePath path ∉ recordPaths w) ∧
      ∃ e, Vfs.mount w path fsName readOnly = some (.error e, w)) := by
  have hmem : w.vfs.mounts.any (fun m => m.path == normalizePath path) = true ↔
      normalizePath path ∈ recordPaths w := by
    rw [List.any_eq_true, recordPaths, List.mem_map]
    exact exists_congr fun m => and_congr_right fun _ => beq_iff_eq
  rw [Vfs.mount, h.normalizedPath path]
  simp only [bind_eq_bind, bind_some]
  cases hr : w.vfs.fs.resolve (normalizePath path) with
  | error e =>
    refine .inr ⟨fun hdir => ?_, e, rfl⟩
    obtain ⟨⟨i, n, hi, -⟩, -⟩ := hdir
    rw [hr] at hi
    cases hi
  | ok i =>
    obtain ⟨n, hn⟩ := h.rooted.resolve_live hr
    simp only [node_ok.mpr hn]
    have hdir : DirAt w.vfs.fs (normalizePath path) ↔ n.kind = .directory := by
      constructor
      · rintro ⟨j, m, hj, hm, hk⟩
        obtain rfl : i = j := by rw [hr] at hj; exact Except.ok.inj hj
        rw [mem_unique hn hm]; exact hk
      · exact fun hk => ⟨i, n, hr, hn, hk⟩
    by_cases hk : n.kind = .directory
    · rw [if_neg (not_not.mpr hk)]
      by_cases hin : normalizePath path ∈ recordPaths w
      · rw [if_pos (hmem.mpr hin)]
        exact .inr ⟨fun hboth => hboth.2 hin, _, rfl⟩
      · rw [if_neg (mt hmem.mp hin)]
        refine .inl ⟨hdir.mpr hk, hin, _, rfl, { h with root := ?_ }, rfl, ?_⟩
        · exact List.mem_map.mpr ((List.mem_map.mp h.root).imp fun m hm =>
            ⟨mem_append_left _ hm.1, hm.2⟩)
        · exact map_append
    · rw [if_pos hk]
      exact .inr ⟨fun hboth => hk (hdir.mp hboth.1), _, rfl⟩

/-- What the VFS does to unmount: it drops the records with the path. -/
theorem Ready.umount (path : Str) :
    (normalizePath path ≠ ['/'] ∧ normalizePath path ∈ recordPaths w ∧
      ∃ w', Vfs.umount w path = some (.ok (), w') ∧ Ready w' ∧ w'.storage = w.storage ∧
        recordPaths w' = (recordPaths w).filter fun p => p != normalizePath path) ∨
    (¬(normalizePath path ≠ ['/'] ∧ normalizePath path ∈ recordPaths w) ∧
      ∃ e w', Vfs.umount w path = some (.error e, w') ∧ w' = w) := by
  rw [Vfs.umount, h.normalizedPath path]
  simp only [bind_eq_bind, bind_some]
  by_cases hroot : normalizePath path = ['/']
  · rw [if_pos hroot]
    exact .inr ⟨fun hboth => hboth.1 hroot, _, _, rfl, rfl⟩
  rw [if_neg hroot]
  split
  · -- nothing was dropped
    rename_i hlen
    have hkept := filter_eq_self.mp (filter_sublist.eq_of_length hlen)
    refine .inr ⟨fun hboth => ?_, _, _, rfl, ?_⟩
    · obtain ⟨m, hm, hpath⟩ := List.mem_map.mp hboth.2
      exact bne_iff_ne.mp (hkept m hm) hpath
    · rw [filter_eq_self.mpr hkept]
  · rename_i hlen
    have hin : normalizePath path ∈ recordPaths w := by
      by_contra hout
      refine hlen (congrArg List.length (filter_eq_self.mpr fun m hm => bne_iff_ne.mpr ?_))
      exact fun heq => hout (heq ▸ List.mem_map_of_mem hm)
    refine .inl ⟨hroot, hin, _, rfl, { h with root := ?_ }, rfl, ?_⟩
    · obtain ⟨m, hm, hpath⟩ := List.mem_map.mp h.root
      refine List.mem_map.mpr ⟨m, mem_filter.mpr ⟨hm, bne_iff_ne.mpr ?_⟩, hpath⟩
      rw [hpath]; exact Ne.symm hroot
    · show (w.vfs.mounts.filter ((fun p => p != normalizePath path) ∘ MountRecord.path)).map
        MountRecord.path = _
      exact List.filter_map.symm

theorem Ready.storage (op : Storage.Op) (hop : ∀ name fs, op ≠ .formatVolume name fs) :
    Ready { w with storage := Storage.step w.storage op } :=
  have he := h.wired.step_effect op
  { h with wired := h.wired.effect he, backed := h.backed.effect he hop }

end vfs

theorem Agree.congr {w w' : World} (ha : Agree w) (hrec : recordPaths w' = recordPaths w)
    (hvols : w'.storage.volumes = w.storage.volumes) : Agree w' := by
  have hpaths := mountedPaths_congr hvols
  exact ⟨fun p hp => by rw [hrec, hpaths]; exact ha.same p hp, by rw [hpaths]; exact ha.distinct⟩

/-! ## One command -/

section commands

variable {w : World} (h : Ready w) (ha : Agree w)

include h ha

theorem agree_mountFound {device : Str} {vol : Storage.DetectedVolume} (mountpoint : Str) (readOnly : Bool)
    (hfind : findVolume w.storage device = some vol) :
    ∃ r, mountFound w device mountpoint vol readOnly = some r ∧ Ready r.2 ∧
      (Agree r.2 ↔ ¬(MountPoint w mountpoint ∧ vol.mountedAt ≠ none)) := by
  obtain ⟨made, hmade, hrm, hmounts, hvols, hdir⟩ := h.mkdir mountpoint
  have hrec : recordPaths made.2 = recordPaths w := congrArg (List.map MountRecord.path) hmounts
  rw [mountFound, hmade]
  simp only [bind_eq_bind, bind_some]
  rcases hrm.mount mountpoint vol.filesystem.asStr readOnly with
    ⟨hd, hnot, w', hmount, hr', hst, hrec'⟩ | ⟨hno, e, hmount⟩
  · -- the record is there; now the volume
    rw [hmount]
    have hpoint : MountPoint w mountpoint := ⟨hrec ▸ hnot, hdir.mp hd⟩
    have hroot : normalizePath mountpoint ≠ ['/'] := fun hroot => hpoint.1 (hroot ▸ h.root)
    have hfresh : normalizePath mountpoint ∉ mountedPaths w.storage := fun hin => hpoint.1 ((ha.same _ hroot).mpr hin)
    have hvols' : w'.storage.volumes = w.storage.volumes := by rw [hst, hvols]
    have hnew : normalizePath mountpoint ∈ recordPaths w' := by
      rw [hrec']; exact mem_append_right _ (mem_singleton_self _)
    have hready : Ready (w'.viaStorage (Storage.mountVolume w'.storage device mountpoint readOnly)).2 :=
      hr'.storage (.mountVolume device mountpoint readOnly) nofun
    refine ⟨_, rfl, hready, ?_⟩
    have hfind' : findVolume w'.storage device = some vol := by
      rw [findVolume, hvols']; exact hfind
    have hvol : vol ∈ w'.storage.volumes := mem_of_find?_eq_some hfind'
    rcases hr'.wired.mountVolume_cases device mountpoint readOnly with ⟨⟨e, he⟩, hwhy⟩ | ⟨v, hv, hkey, hfree, hok⟩
    · -- the driver refuses the volume, and only because it is mounted
      have hmounted : vol.mountedAt ≠ none := by
        rcases hwhy vol hfind' with hmounted | ⟨u, hu, hat⟩ | ⟨hfs, hdisk⟩
        · exact hmounted
        · exact absurd (mem_filterMap.mpr ⟨u, hvols' ▸ hu, by rw [hat]; rfl⟩) hfresh
        · have hsome := hr'.backed vol hvol hfs
          rw [hdisk] at hsome
          cases hsome
      rw [he]
      refine iff_of_false (fun hagree => hfresh ?_) (not_not.mpr ⟨hpoint, hmounted⟩)
      have hin : normalizePath mountpoint ∈ mountedPaths w'.storage := (hagree.same _ hroot).mp hnew
      rwa [mountedPaths_congr hvols'] at hin
    · obtain rfl : v = vol :=
        hr'.wired.volumes.eq hv hvol (hkey.trans (Keyed.mem_of_get hfind').2.symm)
      have hperm : (mountedPaths (Storage.mountVolume w'.storage device mountpoint readOnly).2).Perm
          (normalizePath mountpoint :: mountedPaths w'.storage) := by
        rcases hok with ⟨-, he⟩ | ⟨nodes, -, he⟩
        · rw [he]; exact mountedPaths_mount hr'.wired hv hfree rfl
        · rw [he]; exact mountedPaths_mount hr'.wired hv hfree rfl
      rw [mountedPaths_congr hvols'] at hperm
      refine iff_of_true ⟨fun p hp => ?_, ?_⟩ fun hboth => hboth.2 hfree
      · show p ∈ recordPaths w' ↔ p ∈ mountedPaths (Storage.mountVolume w'.storage device mountpoint readOnly).2
        rw [hrec', hrec, hperm.mem_iff, mem_append, mem_singleton, mem_cons, ha.same p hp]
        exact Or.comm
      · exact hperm.nodup_iff.mpr (nodup_cons.mpr ⟨hfresh, ha.distinct⟩)
  · rw [hmount]
    refine ⟨_, rfl, hrm, iff_of_true (ha.congr hrec hvols) fun hboth => hno ?_⟩
    exact ⟨hdir.mpr hboth.1.2, hrec ▸ hboth.1.1⟩

theorem agree_umountAt (mountpoint : Str) : ∃ r, umountAt w mountpoint = some r ∧ Ready r.2 ∧
    (Agree r.2 ↔ ¬Splits w (some (.umount mountpoint))) := by
  rw [umountAt]
  rcases h.umount mountpoint with ⟨hroot, hin, w', he, hr', hst, hrec⟩ | ⟨hno, e, w', he, rfl⟩
  · rw [he]
    have hready : Ready { w' with storage := (Storage.umountVolume w'.storage mountpoint).2 } :=
      hr'.storage (.umountVolume mountpoint) nofun
    refine ⟨_, rfl, hready, ?_⟩
    rcases hr'.wired.umountVolume_cases mountpoint with ⟨⟨e, he⟩, hnone⟩ | ⟨v, hv, hat, hok⟩
    · -- the record is gone and the volume stays
      rw [he]
      refine iff_of_false (fun hagree => ?_) (not_not.mpr ⟨hroot, hin, hst ▸ hnone⟩)
      have hstill : normalizePath mountpoint ∈ mountedPaths w'.storage :=
        hst ▸ (ha.same _ hroot).mp hin
      have hrecord : normalizePath mountpoint ∈ recordPaths w' := (hagree.same _ hroot).mpr hstill
      rw [hrec, mem_filter] at hrecord
      exact bne_iff_ne.mp hrecord.2 rfl
    · have hperm : (mountedPaths w'.storage).Perm (normalizePath mountpoint ::
          mountedPaths (Storage.umountVolume w'.storage mountpoint).2) := by
        rcases hok with ⟨-, he⟩ | ⟨nodes, d, -, -, -, he⟩
        · rw [he]; exact mountedPaths_umount hr'.wired hv hat rfl
        · rw [he]; exact mountedPaths_umount hr'.wired hv hat rfl
      rw [hst] at hperm hv
      obtain ⟨hgone, hdist⟩ := nodup_cons.mp (hperm.nodup_iff.mp ha.distinct)
      refine iff_of_true ⟨fun p hp => ?_, ?_⟩ fun hsplit => hsplit.2.2 v hv hat
      · show p ∈ recordPaths w' ↔ p ∈ mountedPaths (Storage.umountVolume w'.storage mountpoint).2
        rw [hrec, mem_filter, bne_iff_ne, ha.same p hp, hperm.mem_iff, mem_cons, hst]
        constructor
        · rintro ⟨rfl | hmem, hne⟩
          · exact absurd rfl hne
          · exact hmem
        · exact fun hmem => ⟨Or.inr hmem, fun heq => hgone (heq ▸ hmem)⟩
      · rw [hst]; exact hdist
  · rw [he]
    refine ⟨_, rfl, h, iff_of_true ha fun hsplit => hno ⟨hsplit.1, hsplit.2.1⟩⟩

omit ha in
theorem agree_rescanned (devs : List PciDevice) : Ready (rescanned w devs) ∧
    (Agree (rescanned w devs) ↔ ¬Splits w (some (.scan devs))) := by
  refine ⟨h.storage (.rescan devs) nofun, ?_⟩
  have hmounted : mountedPaths (rescanned w devs).storage = [['/']] := mountedPaths_init devs
  constructor
  · rintro hagree ⟨p, hp, hne⟩
    have hin := (hagree.same p hne).mp hp
    rw [hmounted, mem_singleton] at hin
    exact hne hin
  · intro hno
    refine ⟨fun p hp => ?_, ?_⟩
    · rw [hmounted, mem_singleton]
      exact iff_of_false (fun hin => hno ⟨p, hin, hp⟩) hp
    · rw [hmounted]; exact nodup_singleton _

/-- **A command keeps the tables in agreement unless it splits them.** -/
theorem agree_after (req : Option Request) :
    ∃ w', after w req = some w' ∧ Ready w' ∧ (Agree w' ↔ ¬Splits w req) := by
  rcases req with _ | ⟨device, mountpoint, readOnly⟩ | mountpoint | devs
  · exact ⟨w, rfl, h, iff_of_true ha not_false⟩
  · rw [after]
    cases hfind : findVolume w.storage device with
    | none =>
      refine ⟨w, rfl, h, iff_of_true ha ?_⟩
      rintro ⟨-, vol, hvol, -⟩
      rw [hfind] at hvol
      cases hvol
    | some vol =>
      obtain ⟨r, hr, hready, hiff⟩ := agree_mountFound h ha mountpoint readOnly hfind
      simp only [hr]
      refine ⟨_, rfl, hready, hiff.trans (not_congr (and_congr_right fun _ => ?_))⟩
      simp only [hfind, some.injEq, exists_eq_left']
  · obtain ⟨r, hr, hready, hiff⟩ := agree_umountAt h ha mountpoint
    exact ⟨r.2, by rw [after, hr, map_some], hready, hiff⟩
  · obtain ⟨hready, hiff⟩ := agree_rescanned h devs
    exact ⟨_, rfl, hready, hiff⟩

end commands

/-! ## Runs -/

/-- The command does not split the tables in the state it is given in. -/
def Whole (w : Option World) (cmd : Command) : Prop := ∀ v, w = some v → ¬Splits v cmd.request

/-- What one command finds when every command before it left the tables in agreement. -/
def Standing (s : Option World) : Prop := ∃ w, s = some w ∧ Ready w ∧ Agree w

theorem agree_run {w : World} (h : Ready w) (ha : Agree w) (cmds : List Command) :
    (∀ done, done <+: cmds → ∃ v, done.foldl step (some w) = some v ∧ Agree v) ↔
      Run.Along step Whole (some w) cmds := by
  refine Run.reached_iff_along (I := Standing) (P := fun s => ∃ v, s = some v ∧ Agree v) ?_ ?_ ?_ ⟨w, rfl, h, ha⟩ cmds
  · rintro _ ⟨w, rfl, -, ha⟩
    exact ⟨w, rfl, ha⟩
  · rintro _ cmd ⟨w, rfl, h, ha⟩
    obtain ⟨w', hw', -, hiff⟩ := agree_after h ha cmd.request
    have hstep : step (some w) cmd = some w' := (step_eq w cmd).trans hw'
    rw [hstep]
    constructor
    · rintro ⟨v, hv, hagree⟩ u hu
      obtain rfl := some.inj hv
      exact some.inj hu ▸ hiff.mp hagree
    · exact fun hwhole => ⟨w', rfl, hiff.mpr (hwhole w rfl)⟩
  · rintro _ cmd ⟨w, rfl, h, ha⟩ hwhole
    obtain ⟨w', hw', hready, hiff⟩ := agree_after h ha cmd.request
    exact ⟨w', (step_eq w cmd).trans hw', hready, hiff.mpr (hwhole w rfl)⟩

/-- **The mount records and the mounted volumes agree between all commands of a run exactly when no
    command of it splits them.** -/
theorem tables_agree_iff (devs : List Storage.PciDevice) (env : Env) (cmds : List Command) :
    (∀ done, done <+: cmds →
      ∃ w, done.foldl step (some (boot (Storage.init devs) env)) = some w ∧ Agree w) ↔
    Run.Along step Whole (some (boot (Storage.init devs) env)) cmds :=
  agree_run (ready_boot devs env) (agree_boot devs env) cmds

/-- The built-in volume is mounted at the root; mounting it once more leaves a record without a volume. -/
theorem mount_twice_splits : ∃ w,
    step (some quiet) (.shellMount ["tmpfs".toList, "/x".toList] []) = some w ∧
      ¬Agree w := by
  rw [quiet_eq]
  refine ⟨_, rfl, fun hagree => ?_⟩
  have hin := (hagree.same "/x".toList (by decide)).mp (by decide)
  exact absurd hin (by decide)

end Saios.Mounts
