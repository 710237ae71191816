/-
  WHAT IS WRITTEN BY PATH, READ BY DESCRIPTOR, and the other way round.

  `write_path` and `read_path` send a path on a mounted storage volume to the storage driver; `open`,
  `read` and `write` know nothing of storage and work on the tmpfs node of the same name.  So the two
  ways to a file agree exactly on the paths that are not storage-backed, and on a storage-backed one
  only when what is in the other backend happens to be the data already.

  1. **Combined runs** (`worldStep`) — VFS calls, storage calls and changes of the other kernel parts, in
     any order.  Links stay bounded along them.

  2. **Through a descriptor** — `writeThrough` and `readThrough`; what they do to the tmpfs
     (`writeThrough_holds`, `readsBack_iff`).

  3. **The result** (`read_back_iff`), its failure on a mounted partition (`mount_splits_file`).
-/
import Saios.Storage.TreeSafety
import Saios.Vfs.OpenFiles

namespace Saios.Vfs

open Path TmpFs Option

/-! ## Combined runs -/

inductive Event
  | call (call : Call)
  | storage (op : Storage.Op)
  /-- Another part of the kernel changes what the VFS reads from it. -/
  | kernel (env : Env)

def worldStep (w : Option World) : Event → Option World
  | .call call => step w call
  | .storage op => w.map fun w => { w with storage := Storage.step w.storage op }
  | .kernel env => w.map fun w => { w with env := env }

/-- The combined states: any controllers found at boot, any events since. -/
def Reachable (w : World) : Prop :=
  ∃ (devices : List Storage.PciDevice) (env : Env) (events : List Event),
    events.foldl worldStep (some (boot (Storage.init devices) env)) = some w

/-- **What every event keeps** holds in every reachable state. -/
theorem Reachable.rule {P : World → Prop} (hboot : ∀ devices env, P (boot (Storage.init devices) env))
    (hcall : ∀ ⦃w call r⦄, P w → exec w call = some r → P r.2)
    (hstorage : ∀ w op, P w → P { w with storage := Storage.step w.storage op })
    (hkernel : ∀ w env, P w → P { w with env := env }) {w : World} (h : Reachable w) : P w := by
  obtain ⟨devices, env, events, hrun⟩ := h
  refine Run.foldl_inv (I := fun s => ∀ v, s = some v → P v) (fun s event hs v hv => ?_) events ?_ w hrun
  · cases event with
    | call call =>
      obtain ⟨u, rfl, hu⟩ := bind_eq_some_iff.mp hv
      obtain ⟨r, hr, rfl⟩ := map_eq_some_iff.mp hu
      exact hcall (hs u rfl) hr
    | storage op =>
      obtain ⟨u, rfl, rfl⟩ := map_eq_some_iff.mp hv
      exact hstorage u op (hs u rfl)
    | kernel env =>
      obtain ⟨u, rfl, rfl⟩ := map_eq_some_iff.mp hv
      exact hkernel u env (hs u rfl)
  · intro v hv
    obtain rfl := some.inj hv
    exact hboot devices env

variable {w : World}

theorem Reachable.bounded (h : Reachable w) : Bounded w.vfs.fs :=
  h.rule (P := fun w => Bounded w.vfs.fs) (fun _ _ => rooted_seed.bounded)
    (fun _ _ _ hw hr => guarded_bounded.exec hw hr) (fun _ _ hw => hw) (fun _ _ hw => hw)

theorem Reachable.steady (h : Reachable w) : Steady w :=
  h.rule (fun _ env => steady_boot _ env) (fun _ _ _ hw hr => hw.exec hr) (fun _ _ hw => ⟨hw.sys, hw.live⟩)
    (fun _ _ hw => ⟨hw.sys, hw.live⟩)

/-! ## Through a descriptor -/

/-- `open` with `write_only_create`, `write` and `close`, up to the first error. -/
def writeThrough (w : World) (path : Str) (data : List UInt8) : Option (Except String Unit × World) :=
  match openFile w path .writeOnlyCreate with
  | none => none
  | some (.error e, w) => some (.error e, w)
  | some (.ok fd, w) =>
      match write w fd data with
      | (.error e, w) => some (.error e, w)
      | (.ok _, w) => some (close w fd)

/-- `open` with `read_only`, and reads with a buffer of `chunk` bytes to the end. -/
def readThrough (fuel : Nat) (w : World) (path : Str) (chunk : Nat) :
    Option (Except String (List UInt8)) :=
  match openFile w path .readOnly with
  | none => none
  | some (.error e, _) => some (.error e)
  | some (.ok fd, w) => (readToEnd fuel w fd chunk).map Prod.fst

/-- Whatever the buffer, the descriptor gives the data and then the end. -/
def ReadsBack (w : World) (path : Str) (data : List UInt8) : Prop :=
  ∀ chunk fuel, 0 < chunk → data.length < fuel → readThrough fuel w path chunk = some (.ok data)

/-- The path is on a mounted storage volume. -/
def Backed (w : World) (path : Str) : Prop :=
  ∃ abs, w.vfs.fs.normalizedPath path = some abs ∧ isStorageBacked w abs = true

/-- The tmpfs has a file with this data at the path. -/
def TmpfsHolds (w : World) (path : Str) (data : List UInt8) : Prop :=
  ∃ i n, w.vfs.fs.resolve path = .ok i ∧ w.vfs.fs.get? i = some n ∧ n.kind = .file ∧ n.data = data

/-- The storage driver returns this data for the path. -/
def VolumeHolds (w : World) (path : Str) (data : List UInt8) : Prop :=
  ∃ abs, w.vfs.fs.normalizedPath path = some abs ∧ (Storage.fsRead w.storage abs).1 = .ok data

variable {abs : Str}

theorem backed_iff {path : Str} (habs : w.vfs.fs.normalizedPath path = some abs) :
    Backed w path ↔ isStorageBacked w abs = true := by
  constructor
  · rintro ⟨abs', habs', hb⟩
    obtain rfl := mem_unique habs habs'
    exact hb
  · exact fun hb => ⟨abs, habs, hb⟩

variable {w' : World}

theorem isStorageBacked_congr (h : w'.storage = w.storage) (abs : Str) :
    isStorageBacked w' abs = isStorageBacked w abs := by
  rw [isStorageBacked, isStorageBacked, h]

/-- Only a file can be opened. -/
theorem openInode_file {i fd : Nat} {options : OpenOptions} (h : openInode w i options = (.ok fd, w')) :
    ∃ n, w.vfs.fs.get? i = some n ∧ n.kind = .file := by
  unfold openInode at h
  split at h
  · cases h
  rename_i n hn
  split at h
  · cases h
  rename_i hk
  exact ⟨n, node_ok.mp hn, not_not.mp hk⟩

section descriptors

variable {w : World} {path : Str} {data : List UInt8}

/-- **Writing through a descriptor** leaves the data in the tmpfs, and nothing else changes. -/
theorem writeThrough_holds (hl : Linked w.vfs.fs) (hb : Bounded w.vfs.fs) (hfd : slot w.vfs.openFiles < 2 ^ 32)
    (hdata : data.length < 2 ^ 63) (hr : writeThrough w path data = some (.ok (), w')) :
    ∃ abs, w.vfs.fs.normalizedPath path = some abs ∧ isSysPath abs = false ∧
      w'.vfs.fs.normalizedPath path = some abs ∧ w'.storage = w.storage ∧
      slot w'.vfs.openFiles < 2 ^ 32 ∧ TmpfsHolds w' path data := by
  unfold writeThrough at hr
  split at hr
  · cases hr
  · cases hr
  rename_i fd w1 hopen
  obtain ⟨fs, i, n, ho⟩ : ∃ fs i n, Openable w path .writeOnlyCreate fs i n := by
    rcases openFile_outcome hl hopen with ⟨e, he⟩ | ⟨fs, i, n, ho, -⟩
    · cases he
    · exact ⟨fs, i, n, ho⟩
  obtain ⟨hgrown, hb'⟩ := ho.grown hb
  obtain ⟨abs, habs, -⟩ := ho.accepts
  have hn := ho.live
  obtain ⟨v1, v2, hv1, hv2, hv3⟩ := overwrite_file (w := w.setFs fs) hfd hn ho.file hdata
  rw [openFile_openable hl ho, hv1] at hopen
  obtain ⟨hok, rfl⟩ := Prod.mk.inj (some.inj hopen)
  obtain rfl := Except.ok.inj hok
  rw [hv2] at hr
  simp only at hr
  rw [hv3] at hr
  obtain ⟨-, rfl⟩ := Prod.mk.inj (some.inj hr)
  refine ⟨abs, habs, ho.accepts.outsideSys rfl habs, ?_, rfl, ?_, i, { n with data := data },
    (resolve_setData hn data path).trans (ho.resolves hl), ?_, ho.file, rfl⟩
  · exact ((grown_setData hn data).normalizedPath hb' path).trans ((hgrown.normalizedPath hb path).trans habs)
  · show slot (vacate w.vfs.openFiles) < 2 ^ 32
    rw [slot_vacate]; exact hfd
  · exact get?_setData_self hn data

/-- `open` for reading: the path must lead to a node, and that must be a file. -/
theorem openFile_reader (habs : w.vfs.fs.normalizedPath path = some abs) :
    (∀ e, w.vfs.fs.resolve path = .error e → openFile w path .readOnly = some (.error e, w)) ∧
      ∀ i, w.vfs.fs.resolve path = .ok i → openFile w path .readOnly = some (openInode w i .readOnly) :=
  openFile_created habs (fun hsys => Bool.noConfusion hsys.2) (by decide)
    (if_neg fun hcond => Bool.noConfusion hcond.1)

section

variable (hfd : slot w.vfs.openFiles < 2 ^ 32) (hdata : data.length < 2 ^ 63)
  (habs : w.vfs.fs.normalizedPath path = some abs)

include hfd hdata habs

/-- **Reading through a descriptor** gives what the tmpfs holds. -/
theorem readsBack_iff : ReadsBack w path data ↔ TmpfsHolds w path data := by
  obtain ⟨hmissing, hfound⟩ := openFile_reader habs
  constructor
  · intro h
    have hone := h 1 _ Nat.one_pos (Nat.lt_succ_self _)
    unfold readThrough at hone
    cases hres : w.vfs.fs.resolve path with
    | error e => rw [hmissing e hres] at hone; cases hone
    | ok i =>
      rw [hfound i hres] at hone
      cases hopen : openInode w i .readOnly with
      | mk r w' =>
        rw [hopen] at hone
        cases r with
        | error e => cases hone
        | ok fd =>
          obtain ⟨n, hn, hk⟩ := openInode_file hopen
          rw [open_reader hfd hn hk] at hopen
          cases hopen
          obtain ⟨⟨got, w'⟩, hgot, heq⟩ := map_eq_some_iff.mp hone
          obtain rfl : got = .ok data := heq
          have hall := readToEnd_sound hn hk Nat.one_pos _ 0 data w' hgot (by omega)
          exact ⟨i, n, hres, hn, hk, by rw [hall, List.drop_zero]⟩
  · rintro ⟨i, n, hres, hn, hk, rfl⟩ chunk fuel hchunk hfuel
    obtain ⟨w', hw'⟩ := readToEnd_place w.vfs.openFiles hn hk hdata hchunk fuel 0
      (Nat.zero_le _) (by omega)
    rw [readThrough, hfound i hres, open_reader hfd hn hk]
    simp only [hw']
    rfl

/-- What is on the volumes does not matter for that. -/
theorem readsBack_storage (st : Storage.StorageState) :
    ReadsBack { w with storage := st } path data ↔ TmpfsHolds w path data :=
  readsBack_iff hfd hdata habs

/-- On a path that is not storage-backed, `read_path` reads through a descriptor. -/
theorem readPath_holds (hsys : isSysPath abs = false) (hback : isStorageBacked w abs = false)
    (hholds : TmpfsHolds w path data) :
    ∃ w', readPath w path = some (.ok data, w') := by
  obtain ⟨i, n, hres, hn, hk, rfl⟩ := hholds
  obtain ⟨-, hfound⟩ := openFile_reader habs
  obtain ⟨w1, w2, hopened, hread, hclose⟩ := read_file hfd hn hk hdata
  unfold readPath
  simp only [habs, bind_eq_bind, bind_some, hsys, hback,
    hfound i hres, hopened, hread, hclose]
  exact ⟨_, rfl⟩

end

section

variable (habs : w.vfs.fs.normalizedPath path = some abs)

include habs

/-- On a storage-backed path it asks the driver. -/
theorem readPath_backed (hsys : isSysPath abs = false) (hback : isStorageBacked w abs = true) :
    readPath w path = some (w.viaStorage (Storage.fsRead w.storage abs)) := by
  unfold readPath
  simp only [habs, bind_eq_bind, bind_some, hsys, hback, Bool.false_eq_true, if_false,
    if_true]

/-- So does `write_path` ... -/
theorem writePath_backed (hback : isStorageBacked w abs = true) :
    writePath w path data = some (w.viaStorage (Storage.fsWrite w.storage abs data)) := by
  unfold writePath
  simp only [habs, bind_eq_bind, bind_some, hback, if_true]

/-- ... and on other paths it writes through a descriptor. -/
theorem writePath_through (hback : isStorageBacked w abs = false) (hr : writePath w path data = some (.ok (), w')) :
    writeThrough w path data = some (.ok (), w') := by
  unfold writePath at hr
  simp only [habs, bind_eq_bind, bind_some, hback] at hr
  obtain ⟨⟨r, w1⟩, hopen, hr⟩ := bind_eq_some_iff.mp hr
  unfold writeThrough
  rw [hopen]
  cases r with
  | error e => cases hr
  | ok fd =>
    simp only at hr ⊢
    split at hr
    · cases hr
    · rename_i n hn
      cases hw : write w1 fd data with
      | mk r2 w2 =>
        rw [hw] at hr hn
        obtain rfl : r2 = .ok n := hn
        exact hr

end

end descriptors

/-! ## The two ways to a file -/

/-- **When the two ways agree.**  In every reachable state: what `write_path` has stored is read back
    through a descriptor, and what has been written through a descriptor is returned by `read_path`,
    exactly when the path is not storage-backed or the other backend held the data already. -/
theorem read_back_iff (w : World) (hw : Reachable w) (path : Str) (data : List UInt8)
    (hdata : data.length < 2 ^ 63) (hfd : slot w.vfs.openFiles < 2 ^ 32) :
    (∀ w', writePath w path data = some (.ok (), w') →
      (ReadsBack w' path data ↔ ¬Backed w path ∨ TmpfsHolds w path data)) ∧
    ∀ w', writeThrough w path data = some (.ok (), w') →
      ((∃ w'', readPath w' path = some (.ok data, w'')) ↔ ¬Backed w path ∨ VolumeHolds w path data) := by
  have hl := hw.steady.sys.linked
  have hb := hw.bounded
  constructor
  · intro w' hr
    obtain ⟨abs, habs, -⟩ := Option.bind_eq_some_iff.mp hr
    cases hback : isStorageBacked w abs with
    | false =>
      have hnot : ¬Backed w path := by
        rw [backed_iff habs, hback]
        exact Bool.false_ne_true
      obtain ⟨abs', -, -, habs', -, hfd', hholds⟩ :=
        writeThrough_holds hl hb hfd hdata (writePath_through habs hback hr)
      exact ⟨fun _ => .inl hnot, fun _ => (readsBack_iff hfd' hdata habs').mpr hholds⟩
    | true =>
      -- the storage call leaves the tmpfs and the descriptors alone
      have hyes : Backed w path := (backed_iff habs).mpr hback
      rw [writePath_backed habs hback] at hr
      obtain ⟨-, rfl⟩ := Prod.mk.inj (Option.some.inj hr)
      exact (readsBack_storage hfd hdata habs _).trans
        ⟨Or.inr, fun h => h.resolve_left (not_not_intro hyes)⟩
  · intro w' hr
    obtain ⟨abs, habs, hsys, habs', hstorage, hfd', hholds⟩ := writeThrough_holds hl hb hfd hdata hr
    have hback' := isStorageBacked_congr hstorage abs
    cases hback : isStorageBacked w abs with
    | false =>
      have hnot : ¬Backed w path := by
        rw [backed_iff habs, hback]
        exact Bool.false_ne_true
      rw [hback] at hback'
      exact ⟨fun _ => .inl hnot, fun _ => readPath_holds hfd' hdata habs' hsys hback' hholds⟩
    | true =>
      have hyes : Backed w path := (backed_iff habs).mpr hback
      rw [readPath_backed habs' hsys (hback'.trans hback), hstorage]
      constructor
      · rintro ⟨w'', hw''⟩
        exact .inr ⟨abs, habs, congrArg Prod.fst (Option.some.inj hw'')⟩
      · intro h
        obtain ⟨abs₂, habs₂, hval⟩ := h.resolve_left (not_not_intro hyes)
        obtain rfl := Option.mem_unique habs habs₂
        refine ⟨{ w' with storage := (Storage.fsRead w.storage abs).2 }, ?_⟩
        rw [World.viaStorage, hval]

/-- A new file in `/tmp`, in both directions. -/
theorem read_back_iff_tmp :
    (∃ w, writePath quiet "/tmp/f".toList [1, 2] = some (.ok (), w) ∧ ReadsBack w "/tmp/f".toList [1, 2]) ∧
    ∃ w w', writeThrough quiet "/tmp/f".toList [1, 2] = some (.ok (), w) ∧
      readPath w "/tmp/f".toList = some (.ok [1, 2], w') := by
  have hnot : ¬Backed quiet "/tmp/f".toList := by
    rintro ⟨abs, -, hback⟩
    rw [not_storageBacked quiet_noVolume] at hback
    cases hback
  obtain ⟨hpath, hthrough⟩ :=
    read_back_iff quiet ⟨[], _, [], rfl⟩ "/tmp/f".toList [1, 2] (by decide) (by decide)
  have hok : ∀ {o : Option (Except String Unit × World)},
      (o.map fun r => r.1.toOption.isSome) = some true → ∃ w, o = some (.ok (), w) := by
    intro o ho
    obtain ⟨⟨r, w⟩, rfl, hr⟩ := Option.map_eq_some_iff.mp ho
    cases r with
    | error e => cases hr
    | ok u => exact ⟨w, rfl⟩
  obtain ⟨w, hw⟩ := hok (o := writePath quiet "/tmp/f".toList [1, 2]) (by rw [quiet_eq]; decide)
  obtain ⟨v, hv⟩ := hok (o := writeThrough quiet "/tmp/f".toList [1, 2]) (by rw [quiet_eq]; decide)
  obtain ⟨v', hv'⟩ := (hthrough v hv).mpr (Or.inl hnot)
  exact ⟨⟨w, hw, (hpath w hw).mpr (Or.inl hnot)⟩, v, v', hv, hv'⟩

/-! ## A mounted partition -/

open Storage (ahci mountAhci ahciMounted defaultFatTree)

/-- The kernel with one disk, its partition mounted at `/mnt`. -/
def mountedKernel : World :=
  { boot (Storage.init [ahci]) ⟨fun _ => none, fun _ => none, []⟩ with
    storage := Storage.step (Storage.init [ahci]) mountAhci }

theorem reachable_mountedKernel : Reachable mountedKernel := by
  refine ⟨[ahci], ⟨fun _ => none, fun _ => none, []⟩, [.storage mountAhci], ?_⟩
  rfl

theorem vfs_mountedKernel : mountedKernel.vfs =
    ⟨⟨seededNodes, 1, 1⟩, [], [⟨['/'], "tmpfs".toList, false⟩]⟩ := VfsState.new_eq

theorem normalizedPath_mounted :
    mountedKernel.vfs.fs.normalizedPath "/mnt/f".toList = some "/mnt/f".toList := by
  decide

theorem storage_mountedKernel : mountedKernel.storage = Storage.step (Storage.init [ahci]) mountAhci := by
  rw [mountedKernel]

theorem volumes_mountedKernel : mountedKernel.storage.volumes = ahciMounted.volumes := by
  rw [storage_mountedKernel, Storage.volumes_mounted, ahciMounted]

theorem backed_mounted : Backed mountedKernel "/mnt/f".toList := by
  refine (backed_iff normalizedPath_mounted).mpr ?_
  rw [isStorageBacked, Storage.volumeForPath_congr volumes_mountedKernel]
  decide

/-- The partition takes a new file ... -/
theorem fsWrite_mountedKernel :
    (Storage.fsWrite mountedKernel.storage "/mnt/f".toList [1]).1 = .ok () := by
  rw [storage_mountedKernel]
  have hreply := Storage.exec_mounted Storage.wired_mounted Storage.volumes_mounted Storage.tree_mounted
    (.fsWrite "/mnt/f".toList [1]) (.write "/f".toList [1]) (by decide) (by decide)
    (by decide)
  exact Storage.ok_of_done hreply

/-- ... and has none so far. -/
theorem fsRead_mountedKernel : (Storage.fsRead mountedKernel.storage "/mnt/f".toList).1 =
    Storage.readIn "/f".toList defaultFatTree := by
  rw [storage_mountedKernel]
  exact Storage.fsRead_mounted Storage.volumes_mounted Storage.tree_mounted (by decide)

/-- `/mnt/f` written by path is on the partition, and cannot be opened. -/
theorem written_by_path : ∃ w, writePath mountedKernel "/mnt/f".toList [1] = some (.ok (), w) ∧
    ¬ReadsBack w "/mnt/f".toList [1] := by
  have hslot : slot mountedKernel.vfs.openFiles < 2 ^ 32 := by
    decide
  have hmissing : (mountedKernel.vfs.fs.resolve "/mnt/f".toList).toOption = none := by
    rw [vfs_mountedKernel]; decide
  refine ⟨{ mountedKernel with
    storage := (Storage.fsWrite mountedKernel.storage "/mnt/f".toList [1]).2 }, ?_, ?_⟩
  · rw [writePath_backed normalizedPath_mounted ((backed_iff normalizedPath_mounted).mp backed_mounted),
      World.viaStorage, fsWrite_mountedKernel]
  · rw [readsBack_storage hslot (by decide) normalizedPath_mounted]
    rintro ⟨i, n, hres, -⟩
    rw [hres] at hmissing
    cases hmissing

/-- `/mnt/f` written through a descriptor is in the tmpfs, and cannot be read by path. -/
theorem written_by_descriptor : ∃ w, writeThrough mountedKernel "/mnt/f".toList [1] = some (.ok (), w) ∧
    ¬∃ w', readPath w "/mnt/f".toList = some (.ok [1], w') := by
  have hslot : slot mountedKernel.vfs.openFiles < 2 ^ 32 := by
    decide
  have hwrite : (writeThrough mountedKernel "/mnt/f".toList [1]).map (fun r => r.1.toOption.isSome) =
      some true := by decide +kernel
  have hnone : (Storage.readIn "/f".toList defaultFatTree).toOption = none := by decide
  obtain ⟨⟨r, w⟩, hw, hr⟩ := map_eq_some_iff.mp hwrite
  cases r with
  | error e => cases hr
  | ok u =>
    refine ⟨w, hw, ?_⟩
    obtain ⟨abs, habs, hsys, habs', hstorage, -, -⟩ :=
      writeThrough_holds reachable_mountedKernel.steady.sys.linked reachable_mountedKernel.bounded hslot (by decide) hw
    obtain rfl := mem_unique normalizedPath_mounted habs
    have hback : isStorageBacked w "/mnt/f".toList = true := by
      rw [isStorageBacked_congr hstorage]
      exact (backed_iff normalizedPath_mounted).mp backed_mounted
    rw [readPath_backed habs' hsys hback, hstorage]
    rintro ⟨w', hw'⟩
    have hval := congrArg Prod.fst (some.inj hw')
    simp only [World.viaStorage, fsRead_mountedKernel] at hval
    rw [hval] at hnone
    cases hnone

/-- **On a mounted partition the two ways part.** -/
theorem mount_splits_file : Reachable mountedKernel ∧
    (∃ w, writePath mountedKernel "/mnt/f".toList [1] = some (.ok (), w) ∧
      ¬ReadsBack w "/mnt/f".toList [1]) ∧
    ∃ w, writeThrough mountedKernel "/mnt/f".toList [1] = some (.ok (), w) ∧
      ¬∃ w', readPath w "/mnt/f".toList = some (.ok [1], w') :=
  ⟨reachable_mountedKernel, written_by_path, written_by_descriptor⟩

end Saios.Vfs
