/-
  READ-ONLY MOUNT POINTS: what a file operation can change below them.

  The `read_only` flag of a mount record is stored and never read: neither the VFS nor the storage driver
  looks at it before it changes something.  What is below a read-only mount point is therefore safe from
  the operations that have no business there, and from no others.

  1. **Read-only** (`ReadOnlyAt`) — the record that governs a path is the one with the longest mount path
     above it.

  2. **Runs** — mount commands, calls of the VFS and calls of the storage driver in any order (`Act`).  A
     mount command first makes the directory it mounts on (`Act.fileCall`); what else it does is to change
     the two mount tables.  Every state of such a run is a state of the kernel (`reachable_acts`).

  3. **Main result** (`read_only_kept`) — an operation that touches no read-only path leaves everything
     seen there as it was.
-/
import Saios.Mounts.Commands
import Saios.Mounts.Footprint

namespace Saios.Mounts

open Path Vfs TmpFs List Option

/-! ## Read-only paths -/

/-- The record with the longest mount path above `ds`. -/
def Governs (w : World) (m : MountRecord) (ds : List Str) : Prop :=
  m ∈ w.vfs.mounts ∧ components m.path <+: ds ∧
    ∀ m' ∈ w.vfs.mounts, components m'.path <+: ds →
      (components m'.path).length ≤ (components m.path).length

def ReadOnlyAt (w : World) (ds : List Str) : Prop :=
  (∀ c ∈ ds, IsName c) ∧ ∃ m, Governs w m ds ∧ m.readOnly = true

/-! ## Runs -/

inductive Act
  | command (cmd : Command)
  | event (event : Event)

def actStep (w : Option World) : Act → Option World
  | .command cmd => step w cmd
  | .event event => worldStep w event

/-- The operation on files that is part of an act.  Mounting, unmounting and scanning are none, but a mount
    command makes its mount point first. -/
def Act.fileCall (w : World) : Act → Option Event
  | .command cmd =>
      match cmd.request with
      | some (.mount device mountpoint _) =>
          (Storage.findVolume w.storage device).map fun _ => .call (.mkdir mountpoint)
      | _ => none
  | .event (.storage (.mountVolume _ _ _)) => none
  | .event (.storage (.umountVolume _)) => none
  | .event (.storage (.rescan _)) => none
  | .event e => some e

/-- The paths at which an operation on files changes something. -/
def TouchesAt (w : World) (ds : List Str) : Event → Prop
  | .call call => Touches w ds call ∨
      ∃ op, storageOp w call = some op ∧ op.Touches w.storage (absolute ds)
  | .storage op => op.Touches w.storage (absolute ds)
  | .kernel _ => False

/-- The operation of the act touches a read-only path. -/
def Offends (w : World) (act : Act) : Prop :=
  ∃ event ds, act.fileCall w = some event ∧ ReadOnlyAt w ds ∧ TouchesAt w ds event

/-- At read-only paths everything is as before: in the tmpfs after the act, and on the volumes after its
    operation on files. -/
def Spared (w : World) (act : Act) : Prop :=
  ∀ ds, ReadOnlyAt w ds →
    (∀ w', actStep (some w) act = some w' → w'.vfs.fs.absMap ds = w.vfs.fs.absMap ds) ∧
    ∀ event w', act.fileCall w = some event → worldStep (some w) event = some w' →
      Storage.storedAt w'.storage (absolute ds) = Storage.storedAt w.storage (absolute ds)

/-! ### Every state of a run is a state of the kernel -/

variable {w' : World}

/-- **A mount command is a run of calls.** -/
theorem command_events {w : World} {cmd : Command} (h : step (some w) cmd = some w') :
    ∃ events : List Event, events.foldl worldStep (some w) = some w' := by
  rw [step_eq] at h
  cases hreq : cmd.request with
  | none =>
    rw [hreq] at h
    exact ⟨[], h⟩
  | some request =>
    rw [hreq] at h
    cases request with
    | mount device mountpoint readOnly =>
      cases hvol : Storage.findVolume w.storage device with
      | none =>
        rw [after_missing hvol] at h
        exact ⟨[], h⟩
      | some vol =>
      rw [after_found hvol] at h
      obtain ⟨r, hr, rfl⟩ := map_eq_some_iff.mp h
      obtain ⟨made, hmade, hr⟩ := bind_eq_some_iff.mp hr
      obtain ⟨⟨q, v⟩, hq, hr⟩ := bind_eq_some_iff.mp hr
      have hfirst : worldStep (some w) (.call (.mkdir mountpoint)) = some made.2 := by
        show ((Vfs.mkdir w mountpoint).map _).map Prod.snd = _
        rw [hmade]; rfl
      have hsecond : worldStep (some made.2)
          (.call (.mount mountpoint vol.filesystem.asStr readOnly)) = some v := by
        show ((Vfs.mount made.2 mountpoint _ readOnly).map _).map Prod.snd = _
        rw [hq]; rfl
      cases q with
      | error e =>
        cases hr
        exact ⟨[_, _], by rw [foldl_cons, foldl_cons, foldl_nil, hfirst, hsecond]⟩
      | ok u =>
        cases hr
        refine ⟨[.call (.mkdir mountpoint), .call (.mount mountpoint vol.filesystem.asStr readOnly),
          .storage (.mountVolume device mountpoint readOnly)], ?_⟩
        rw [foldl_cons, foldl_cons, hfirst, hsecond]
        rfl
    | umount mountpoint =>
      obtain ⟨r, hr, rfl⟩ := map_eq_some_iff.mp h
      obtain ⟨⟨q, v⟩, hq, hr⟩ := bind_eq_some_iff.mp hr
      have hfirst : worldStep (some w) (.call (.umount mountpoint)) = some v := by
        show ((Vfs.umount w mountpoint).map _).map Prod.snd = _
        rw [hq]; rfl
      cases q with
      | error e =>
        cases hr
        exact ⟨[_], by rw [foldl_cons, foldl_nil, hfirst]⟩
      | ok u =>
        cases hr
        refine ⟨[.call (.umount mountpoint), .storage (.umountVolume mountpoint)], ?_⟩
        rw [foldl_cons, hfirst]
        rfl
    | scan devs =>
      refine ⟨[.storage (.rescan devs)], ?_⟩
      rw [← h]
      rfl

theorem reachable_acts (devices : List Storage.PciDevice) (env : Env) (acts : List Act) (w : World)
    (hrun : acts.foldl actStep (some (boot (Storage.init devices) env)) = some w) : Vfs.Reachable w := by
  have hstep : ∀ (s : Option World) (act : Act), (∀ v, s = some v → Vfs.Reachable v) →
      ∀ v, actStep s act = some v → Vfs.Reachable v := by
    intro s act hs v hv
    obtain ⟨u, rfl⟩ : ∃ u, s = some u := by
      cases s with
      | some u => exact ⟨u, rfl⟩
      | none =>
        -- nothing follows a call that does not return
        rcases act with cmd | call | op | env <;> cases hv
    obtain ⟨devices, env, before, hbefore⟩ := hs u rfl
    obtain ⟨events, hevents⟩ : ∃ events : List Event, events.foldl worldStep (some u) = some v := by
      cases act with
      | command cmd => exact command_events hv
      | event event => exact ⟨[event], hv⟩
    exact ⟨devices, env, before ++ events, by rw [foldl_append, hbefore, hevents]⟩
  refine Run.foldl_inv hstep acts ?_ w hrun
  intro v hv
  obtain rfl := some.inj hv
  exact ⟨devices, env, [], rfl⟩

/-- The links of the storage driver hold in every state. -/
theorem wired_reachable {w : World} (h : Vfs.Reachable w) : Steady w ∧ Storage.Wired w.storage := by
  have hwired : ∀ {st : Storage.StorageState} (op : Storage.Op), Storage.Wired st →
      Storage.Wired (Storage.step st op) := fun op hst => hst.effect (hst.step_effect op)
  refine h.rule (P := fun w => Steady w ∧ Storage.Wired w.storage) (fun devices env => ?_)
    (fun w call r hw hr => ?_) (fun w op hw => ?_) fun w env hw => ?_
  · exact ⟨steady_boot _ env, Storage.wired_init devices⟩
  · obtain ⟨hsteady, hst⟩ := hw
    refine ⟨hsteady.exec hr, ?_⟩
    rw [exec_storage hsteady hst hr]
    cases storageOp w call with
    | none => exact hst
    | some op => exact hwired op hst
  · exact ⟨⟨hw.1.sys, hw.1.live⟩, hwired op hw.2⟩
  · exact ⟨⟨hw.1.sys, hw.1.live⟩, hw.2⟩

/-! ### What an act leaves -/

variable {event : Event}

section spared

variable {w : World} (h : Steady w) {ds : List Str}

include h

/-- After its `mkdir` a mount command does not touch the tmpfs any more. -/
theorem command_fs {cmd : Command} (hstep : step (some w) cmd = some w')
    (hno : ∀ event, (Act.command cmd).fileCall w = some event → ¬TouchesAt w ds event) :
    w'.vfs.fs.absMap ds = w.vfs.fs.absMap ds := by
  rw [step_eq] at hstep
  unfold Act.fileCall at hno
  cases hreq : cmd.request with
  | none =>
    rw [hreq] at hstep
    obtain rfl := some.inj hstep
    rfl
  | some request =>
    rw [hreq] at hstep
    cases request with
    | mount device mountpoint readOnly =>
      cases hvol : Storage.findVolume w.storage device with
      | none =>
        rw [after_missing hvol] at hstep
        obtain rfl := some.inj hstep
        rfl
      | some vol =>
      rw [after_found hvol] at hstep
      have hoff : ¬TouchesAt w ds (.call (.mkdir mountpoint)) := by
        refine hno _ ?_
        simp only [hreq, hvol, map_some]
      obtain ⟨r, hr, rfl⟩ := map_eq_some_iff.mp hstep
      obtain ⟨made, hmade, hr⟩ := bind_eq_some_iff.mp hr
      obtain ⟨⟨q, v⟩, hq, hr⟩ := bind_eq_some_iff.mp hr
      have hexec : Vfs.exec w (.mkdir mountpoint) = some (reply (fun _ => .done) made) := by
        rw [Vfs.exec, hmade]; rfl
      have hmkdir : made.2.vfs.fs.absMap ds = w.vfs.fs.absMap ds :=
        exec_fs_off h hexec fun htouch => hoff (Or.inl htouch)
      have hmount : v.vfs.fs = made.2.vfs.fs := by
        obtain ⟨mounts, rfl⟩ := mount_mounts hq
        rfl
      cases q with
      | error e => cases hr; exact hmount ▸ hmkdir
      | ok u => cases hr; exact hmount ▸ hmkdir
    | umount mountpoint =>
      obtain ⟨r, hr, rfl⟩ := map_eq_some_iff.mp hstep
      obtain ⟨⟨q, v⟩, hq, hr⟩ := bind_eq_some_iff.mp hr
      have humount : v.vfs.fs = w.vfs.fs := by
        obtain ⟨mounts, rfl⟩ := umount_mounts hq
        rfl
      cases q with
      | error e => cases hr; exact congrArg (fun fs => absMap fs ds) humount
      | ok u => cases hr; exact congrArg (fun fs => absMap fs ds) humount
    | scan devs =>
      obtain rfl := some.inj hstep
      rfl

theorem event_fs (hstep : worldStep (some w) event = some w') (hno : ¬TouchesAt w ds event) :
    w'.vfs.fs.absMap ds = w.vfs.fs.absMap ds := by
  cases event with
  | call call =>
    obtain ⟨r, hr, rfl⟩ := map_eq_some_iff.mp hstep
    exact exec_fs_off h hr fun htouch => hno (Or.inl htouch)
  | storage op => cases hstep; rfl
  | kernel env => cases hstep; rfl

theorem event_storage (hw : Storage.Wired w.storage) (hop : ∀ op, event = .storage op → ¬op.Manages)
    (hstep : worldStep (some w) event = some w') (hno : ¬TouchesAt w ds event) :
    Storage.storedAt w'.storage (absolute ds) = Storage.storedAt w.storage (absolute ds) := by
  cases event with
  | call call =>
    obtain ⟨r, hr, rfl⟩ := map_eq_some_iff.mp hstep
    rw [exec_storage h hw hr]
    cases hcall : storageOp w call with
    | none => rfl
    | some op =>
      exact hw.storedAt_step (storageOp_writes hcall) fun htouch => hno (Or.inr ⟨op, hcall, htouch⟩)
  | storage op =>
    cases hstep
    exact hw.storedAt_step (hop op rfl) hno
  | kernel env => cases hstep; rfl

end spared

/-- What mounts, unmounts or scans is no operation on files. -/
theorem fileCall_writes {w : World} {act : Act} (h : act.fileCall w = some event) :
    ∀ op, event = .storage op → ¬op.Manages := by
  rintro op rfl
  unfold Act.fileCall at h
  split at h
  · split at h
    · obtain ⟨vol, -, hevent⟩ := map_eq_some_iff.mp h
      cases hevent
    · cases h
  · cases h
  · cases h
  · cases h
  · rename_i e hmount humount hscan
    obtain rfl := some.inj h
    cases op with
    | mountVolume name path readOnly => exact absurd rfl (hmount name path readOnly)
    | umountVolume path => exact absurd rfl (humount path)
    | rescan devs => exact absurd rfl (hscan devs)
    | _ => exact fun hm => hm

/-- **Read-only paths.**  In every run of mount commands, calls of the VFS and calls of the storage driver:
    an act whose operation on files touches no path below a read-only mount point leaves everything there
    as it was. -/
theorem read_only_kept (devices : List Storage.PciDevice) (env : Env) (acts : List Act) (w : World)
    (hrun : acts.foldl actStep (some (boot (Storage.init devices) env)) = some w) (act : Act)
    (hok : ¬Offends w act) : Spared w act := by
  obtain ⟨hsteady, hwired⟩ := wired_reachable (reachable_acts devices env acts w hrun)
  intro ds hro
  have hoff : ∀ event, act.fileCall w = some event → ¬TouchesAt w ds event :=
    fun event hevent htouch => hok ⟨event, ds, hevent, hro, htouch⟩
  refine ⟨fun w' hstep => ?_, fun event w' hevent hstep => ?_⟩
  · cases act with
    | command cmd => exact command_fs hsteady hstep hoff
    | event event =>
      -- the calls that are no operations on files leave the tmpfs alone
      by_cases hcall : (Act.event event).fileCall w = some event
      · exact event_fs hsteady hstep (hoff event hcall)
      · cases event with
        | call call => exact absurd rfl hcall
        | storage op => cases hstep; rfl
        | kernel env => exact absurd rfl hcall
  · exact event_storage hsteady hwired (fileCall_writes hevent) hstep (hoff event hevent)

/-! ## One disk, mounted read-only -/

open Storage (ahci mountAhci ahciMounted ahciVolumes ahciPartition defaultFatTree)

/-- The kernel with one disk, right after boot. -/
def diskKernel : World := boot (Storage.init [ahci]) ⟨fun _ => none, fun _ => none, []⟩

/-- `mount disk0p1 /mnt ro`. -/
def mountReadOnly : Command := .shellMount ["disk0p1".toList, "/mnt".toList, "ro".toList] []

def seededVfs : VfsState := ⟨⟨seededNodes, 1, 1⟩, [], [⟨['/'], "tmpfs".toList, false⟩]⟩

/-- The VFS after the command. -/
def readOnlyVfs : VfsState :=
  ⟨⟨seededNodes, 1, 1⟩, [], [⟨['/'], "tmpfs".toList, false⟩, ⟨"/mnt".toList, "fat32".toList, true⟩]⟩

section disk

variable {st : Storage.StorageState} {env : Env}

/-- What the command does to the VFS, whatever the storage is. -/
theorem mount_seeded (hback : isStorageBacked ⟨seededVfs, st, env⟩ "/mnt".toList = false) :
    mountFound ⟨seededVfs, st, env⟩ "disk0p1".toList "/mnt".toList (ahciPartition none) true =
      some (World.viaStorage ⟨readOnlyVfs, st, env⟩
        (Storage.mountVolume st "disk0p1".toList "/mnt".toList true)) := by
  -- the directory is there already
  have hmkdir : Vfs.mkdir ⟨seededVfs, st, env⟩ "/mnt".toList =
      some (.error "already exists", ⟨seededVfs, st, env⟩) := by
    have habs : seededVfs.fs.normalizedPath "/mnt".toList = some "/mnt".toList := by decide
    unfold Vfs.mkdir createCall
    simp only [habs, bind_eq_bind, bind_some, hback]
    rfl
  unfold mountFound
  rw [hmkdir]
  rfl

theorem step_mountReadOnly (hvols : st.volumes = ahciVolumes none) :
    step (some ⟨seededVfs, st, env⟩) mountReadOnly =
      some ⟨readOnlyVfs, Storage.step st mountAhci, env⟩ := by
  have hrequest : mountReadOnly.request = some (.mount "disk0p1".toList "/mnt".toList true) := rfl
  have hfind : Storage.findVolume st "disk0p1".toList = some (ahciPartition none) := by
    rw [Storage.findVolume, hvols]
    decide
  have hback : isStorageBacked ⟨seededVfs, st, env⟩ "/mnt".toList = false := by
    have hsame : st.volumes = { ahciMounted with volumes := ahciVolumes none }.volumes := hvols
    rw [isStorageBacked, Storage.volumeForPath_congr hsame]
    decide
  rw [step_eq, hrequest, after_found hfind, mount_seeded hback]
  rfl

theorem readOnly_mnt : ReadOnlyAt ⟨readOnlyVfs, st, env⟩ ["mnt".toList, "f".toList] := by
  refine ⟨by decide, ⟨"/mnt".toList, "fat32".toList, true⟩, ⟨?_, by decide, ?_⟩, rfl⟩
  · exact mem_cons_of_mem _ (mem_singleton_self _)
  · have hlongest : ∀ m ∈ readOnlyVfs.mounts, (components m.path).length ≤ (components "/mnt".toList).length := by
      decide
    exact fun m hm _ => hlongest m hm

/-- What the driver finds for a path on the partition. -/
theorem storedAt_mnt {nodes : List Storage.FsNode} (hvols : st.volumes = ahciVolumes (some "/mnt".toList))
    (htree : Storage.treeAt st "disk0p1".toList = some nodes) :
    Storage.storedAt st "/mnt/f".toList = nodes.find? fun n => n.path == "/f".toList := by
  have hon : Storage.mountedVolumeForPathInternal st "/mnt/f".toList =
      some (ahciPartition (some "/mnt".toList), "/f".toList) := by
    rw [Storage.mountedVolumeForPathInternal, hvols]
    decide
  rw [Storage.storedAt, hon, bind_some,
    show (ahciPartition (some "/mnt".toList)).key = "disk0p1".toList by decide, htree]
  rfl

theorem not_spared (hwired : Storage.Wired st) (hvols : st.volumes = ahciVolumes (some "/mnt".toList))
    (htree : Storage.treeAt st "disk0p1".toList = some defaultFatTree) :
    ¬Spared ⟨readOnlyVfs, st, env⟩ (.event (.call (.writePath "/mnt/f".toList [1]))) := by
  intro hspared
  have habs : readOnlyVfs.fs.normalizedPath "/mnt/f".toList = some "/mnt/f".toList := by decide
  have hback : isStorageBacked ⟨readOnlyVfs, st, env⟩ "/mnt/f".toList = true := by
    have hsame : st.volumes = ahciMounted.volumes := hvols
    rw [isStorageBacked, Storage.volumeForPath_congr hsame]
    decide
  obtain ⟨-, hvols', htree'⟩ := Storage.update_mounted hwired hvols htree
    (.fsWrite "/mnt/f".toList [1]) (.write "/f".toList [1]) (by decide) (by decide)
  have hstep : worldStep (some ⟨readOnlyVfs, st, env⟩) (.call (.writePath "/mnt/f".toList [1])) =
      some ⟨readOnlyVfs, Storage.step st (.fsWrite "/mnt/f".toList [1]), env⟩ := by
    show ((writePath ⟨readOnlyVfs, st, env⟩ "/mnt/f".toList [1]).map _).map Prod.snd = _
    rw [writePath_backed habs hback]
    rfl
  have hsame := (hspared _ readOnly_mnt).2 _ _ rfl hstep
  have hbefore := storedAt_mnt hvols htree
  have hafter := storedAt_mnt (hvols'.trans hvols) htree'
  have hfound := hafter.symm.trans (hsame.trans hbefore)
  revert hfound
  decide

/-- A path below the mount point is what the read-only record governs. -/
theorem mnt_of_readOnly {ds : List Str} (h : ReadOnlyAt ⟨readOnlyVfs, st, env⟩ ds) : ["mnt".toList] <+: ds := by
  obtain ⟨-, m, ⟨hm, habove, -⟩, hro⟩ := h
  have hcases : ∀ m ∈ readOnlyVfs.mounts, m.readOnly = true → components m.path = ["mnt".toList] := by decide
  rw [hcases m hm hro] at habove
  exact habove

theorem not_offends_tmp (hvols : st.volumes = ahciVolumes (some "/mnt".toList)) :
    ¬Offends ⟨readOnlyVfs, st, env⟩ (.event (.call (.touch "/tmp/f".toList))) := by
  rintro ⟨event, ds, hevent, hro, htouch⟩
  obtain rfl := some.inj hevent
  have hmnt := mnt_of_readOnly hro
  have habs : readOnlyVfs.fs.normalizedPath "/tmp/f".toList = some "/tmp/f".toList := by decide
  have hback : isStorageBacked ⟨readOnlyVfs, st, env⟩ "/tmp/f".toList = false := by
    have hsame : st.volumes = ahciMounted.volumes := hvols
    rw [isStorageBacked, Storage.volumeForPath_congr hsame]
    decide
  rcases htouch with ⟨-, p, d, name, cs, hc, hcs, rfl⟩ | ⟨op, hop, -⟩
  · -- the file is made at one path only
    have hparent : readOnlyVfs.fs.resolveParentAndName "/tmp/f".toList = .ok (7, "f".toList) := rfl
    obtain ⟨rfl, rfl⟩ := Prod.mk.inj (Except.ok.inj (hparent.symm.trans hc.2.1))
    have htmp : readOnlyVfs.fs.nodeAt ["tmp".toList] = some 7 := by decide
    have hlinked : Linked readOnlyVfs.fs := by
      have hseed := sysIntact_seed.linked
      rw [VfsState.new_eq] at hseed
      exact hseed
    obtain rfl := hlinked.tree.walk_inj htmp hcs
    revert hmnt
    decide
  · have hnone : storageOp ⟨readOnlyVfs, st, env⟩ (.touch "/tmp/f".toList) = none := by
      unfold storageOp onVolume
      simp only [habs, bind_eq_bind, bind_some, hback, Bool.false_eq_true, if_false, ite_self]
    rw [hnone] at hop
    cases hop

end disk

theorem run_mountReadOnly : [Act.command mountReadOnly].foldl actStep (some diskKernel) =
    some ⟨readOnlyVfs, Storage.step (Storage.init [ahci]) mountAhci, ⟨fun _ => none, fun _ => none, []⟩⟩ := by
  rw [diskKernel, boot, VfsState.new_eq, foldl_cons, foldl_nil]
  exact step_mountReadOnly Storage.volumes_ahci

/-- **Written below a read-only mount point.**  The write succeeds, and the file is on the partition. -/
theorem write_below_read_only : ∃ w,
    [Act.command mountReadOnly].foldl actStep (some diskKernel) = some w ∧
      ¬Spared w (.event (.call (.writePath "/mnt/f".toList [1]))) := by
  exact ⟨_, run_mountReadOnly, not_spared Storage.wired_mounted Storage.volumes_mounted Storage.tree_mounted⟩

/-- A new file elsewhere is no harm. -/
theorem touch_elsewhere : ∃ w, [Act.command mountReadOnly].foldl actStep (some diskKernel) = some w ∧
    ¬Offends w (.event (.call (.touch "/tmp/f".toList))) ∧ Spared w (.event (.call (.touch "/tmp/f".toList))) :=
  ⟨_, run_mountReadOnly, not_offends_tmp Storage.volumes_mounted,
    read_only_kept [ahci] _ [.command mountReadOnly] _ run_mountReadOnly _
      (not_offends_tmp Storage.volumes_mounted)⟩

end Saios.Mounts
