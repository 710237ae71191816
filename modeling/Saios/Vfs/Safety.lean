/-
  EVERY RUN of VFS calls keeps the tmpfs a rooted tree, as long as no rename moves a node under a file
  or into its own subtree.

  `Vfs.Tree` says what one change of the node table does to the tree; here the changes are put together
  into calls and the calls into runs.  `rename_path` makes its change without the two checks it needs,
  so the condition on a run (`Allowed`) is about renames only: when a rename gets as far as moving a
  node, the directory it moves to must be a directory, and neither the node nor below it.  Without the
  condition the tree breaks: `mv /bin/hello /bin/true/x` succeeds and makes a file the parent of a file
  (`rename_breaks_tree`).
-/
import Saios.Storage.Calls
import Saios.Vfs.Calls
import Saios.Vfs.Tree

namespace Saios.Vfs

open Path TmpFs Option

/-! ## Operations of the tmpfs -/

section operations

variable {fs : TmpFs} (h : Rooted fs)

include h

theorem rooted_createAs (path : Str) (kind : FileType) : Rooted (fs.createAs path kind).2 := by
  rcases createAs_cases fs path kind with ⟨e, he⟩ | ⟨p, name, d, hr, hd, hk, hl, hc⟩
  · rw [he]; exact h
  · rw [hc]
    exact rooted_attach h hd hk hl (h.resolveParentAndName_live hr).2 kind

/-- What `remove_inode` can do in a tree. -/
theorem removeInode_tree (i : Nat) :
    (∃ e, fs.removeInode i = (.error e, fs)) ∨
    ∃ n p d, i ≠ fs.root ∧ fs.get? i = some n ∧ n.children = [] ∧ n.parent = some p ∧
      fs.get? p = some d ∧ fs.removeInode i = (.ok (), fs.detach i p d) := by
  rcases removeInode_cases fs i with he | ⟨n, hi, hn, hempty, ⟨hnone, -⟩ | ⟨p, d, hp, hd, hr⟩⟩
  · exact .inl he
  · obtain ⟨p, d, hp, -⟩ := h.listed i n hn hi
    rw [hnone] at hp; cases hp
  · refine .inr ⟨n, p, d, hi, hn, by_contra fun hne => ?_, hp, hd, hr⟩
    obtain ⟨c, hc⟩ := List.exists_mem_of_ne_nil _ hne
    exact hempty ⟨h.dir_of_child hn hc, hne⟩

theorem rooted_removeInode (i : Nat) : Rooted (fs.removeInode i).2 := by
  rcases removeInode_tree h i with ⟨e, he⟩ | ⟨n, p, d, hi, hn, hleaf, hp, hd, hr⟩
  · rw [he]; exact h
  · rw [hr]; exact rooted_detach h hi hn hleaf hp hd

theorem rooted_remove (path : Str) : Rooted (fs.remove path).2 := by
  unfold remove
  split
  · exact h
  · exact rooted_removeInode h _

theorem rooted_renamePath {source target : Str}
    (hmov : ∀ i q name, fs.resolve source = .ok i → i ≠ fs.root →
      fs.resolveParentAndName target = .ok (q, name) → fs.lookupChildByName q name = none →
      Movable fs i q) : Rooted (fs.renamePath source target).2 := by
  rcases renamePath_cases fs source target
      (fun q name hr => (h.resolveParentAndName_live hr).1) with
    ⟨e, he⟩ | ⟨i, q, name, n, p, d, m, k, hs, hi, ht, hl, hn, hp, hslots, hr⟩
  · rw [he]; exact h
  · rw [hr]
    exact rooted_relink h hn hp (hmov i q name hs hi ht hl) hl (h.resolveParentAndName_live ht).2 hslots

end operations

/-! ## The seeded tree -/

theorem rooted_new : Rooted TmpFs.new := by
  have hview : ∀ i n, TmpFs.new.get? i = some n → i = 1 ∧ n = rootNode := by
    intro i n h
    have hi := index_of_get? h
    obtain rfl : i = 1 := by simp only [TmpFs.new, List.length_singleton] at hi; omega
    exact ⟨rfl, (some.inj h).symm⟩
  refine ⟨⟨_, rfl, rfl, rfl⟩, ?_, ?_, ?_, ?_, ?_, ⟨_, rfl, rfl⟩, ?_⟩
  · intro i n h hi; exact absurd (hview i n h).1 hi
  · intro p d h; rw [(hview p d h).2]; exact List.nodup_nil
  · intro p d c h hc; rw [(hview p d h).2] at hc; cases hc
  · intro p d c n c' n' h hc; rw [(hview p d h).2] at hc; cases hc
  · intro i n h; rw [(hview i n h).1]; exact .refl
  · intro i n h hi; exact absurd (hview i n h).1 hi

theorem rooted_seed : Rooted VfsState.new.fs := by
  have hall : ∀ {fs : TmpFs} (kind : FileType) (paths : List Str), Rooted fs →
      Rooted (paths.foldl (fun fs path => (fs.createAs path kind).2) fs) := fun kind paths h =>
    Run.foldl_inv (I := Rooted) (fun _ path hs => rooted_createAs hs path kind) paths h
  simp only [VfsState.new]
  exact hall .file _ (hall .directory _ (hall .directory _ rooted_new))

/-! ## Calls -/

/-- No storage volume is mounted: what is mounted is the tmpfs. -/
def NoVolumeMounted (st : Storage.StorageState) : Prop :=
  ∀ v ∈ st.volumes, v.mountedAt ≠ none → v.name = "tmpfs".toList

/-- The state of the VFS between calls. -/
structure Sound (w : World) : Prop where
  rooted : Rooted w.vfs.fs
  noVolume : NoVolumeMounted w.storage

theorem not_storageBacked {w : World} (h : NoVolumeMounted w.storage) (path : Str) :
    isStorageBacked w path = false := by
  unfold isStorageBacked
  split
  · rfl
  · rename_i vol hvol
    obtain ⟨⟨v, rel⟩, hv, rfl⟩ := map_eq_some_iff.mp hvol
    obtain ⟨hmem, hmount, -⟩ := Storage.mounted_mem hv
    simp only [bne_eq_false_iff_eq]
    exact h v hmem (isSome_iff_ne_none.mp hmount)

/-- A rename that gets as far as moving a node moves it under a directory outside its subtree. -/
def RenameAllowed (w : World) (source target : Str) : Prop :=
  ∀ absFrom absTo i q name, w.vfs.fs.normalizedPath source = some absFrom →
    w.vfs.fs.normalizedPath target = some absTo → isSysPath absFrom = false →
    isSysPath absTo = false → w.vfs.fs.resolve source = .ok i → i ≠ w.vfs.fs.root →
    w.vfs.fs.resolveParentAndName target = .ok (q, name) →
    w.vfs.fs.lookupChildByName q name = none → Movable w.vfs.fs i q

/-- The condition on the calls of a run. -/
def Allowed (w : Option World) : Call → Prop
  | .rename source target => ∀ v, w = some v → RenameAllowed v source target
  | _ => True

theorem kept_sound : Kept Sound where
  files _ h := ⟨h.rooted, h.noVolume⟩
  mounts _ h := ⟨h.rooted, h.noVolume⟩
  storage _ h hback := by rw [not_storageBacked h.noVolume] at hback; cases hback
  createAs kind h _ := ⟨rooted_createAs h.rooted _ kind, h.noVolume⟩
  setData data h hn _ := ⟨rooted_setData h.rooted hn data, h.noVolume⟩
  remove h _ := ⟨rooted_remove h.rooted _, h.noVolume⟩

/-- **One call** returns and leaves the world sound. -/
theorem sound_exec {w : World} (h : Sound w) {call : Call} (ha : Allowed (some w) call) :
    ∃ r, exec w call = some r ∧ Sound r.2 := by
  obtain ⟨r, hr⟩ := exec_returns h.rooted.cwdPath_ne_none call
  refine ⟨r, hr, kept_sound.exec h ?_ ?_ hr⟩
  · rintro source target rfl ⟨absFrom, hfrom, hsysFrom, -⟩ ⟨absTo, hto, hsysTo, -⟩
    refine ⟨rooted_renamePath h.rooted fun i q name hs hi ht hl => ?_, h.noVolume⟩
    exact ha w rfl absFrom absTo i q name hfrom hto hsysFrom hsysTo hs hi ht hl
  · rintro path i n rfl - hn hk
    exact ⟨rooted_cd h.rooted hn hk, h.noVolume⟩

/-! ## Runs -/

/-- The VFS right after initialization. -/
def boot (storage : Storage.StorageState) (env : Env) : World :=
  { vfs := VfsState.new, storage := storage, env := env }

/-- **What every call keeps** holds where a run ends. -/
theorem run_kept {P : World → Prop} {C : Option World → Call → Prop} {w v : World} {calls : List Call}
    (hexec : ∀ ⦃w call r⦄, P w → C (some w) call → exec w call = some r → P r.2) (hw : P w)
    (hrun : Run.Along step C (some w) calls) (hv : calls.foldl step (some w) = some v) : P v := by
  refine Run.foldl_inv_along (I := fun s => ∀ v, s = some v → P v) (fun s call hs hc v hv => ?_) ?_ hrun v hv
  · obtain ⟨u, rfl, hu⟩ := bind_eq_some_iff.mp hv
    obtain ⟨r, hr, rfl⟩ := map_eq_some_iff.mp hu
    exact hexec (hs u rfl) hc hr
  · rintro _ ⟨⟩
    exact hw

theorem sound_step {w : Option World} {call : Call} (h : ∃ v, w = some v ∧ Sound v)
    (ha : Allowed w call) : ∃ v, step w call = some v ∧ Sound v := by
  obtain ⟨v, rfl, hv⟩ := h
  obtain ⟨r, hr, hs⟩ := sound_exec hv ha
  exact ⟨r.2, by rw [step, bind_some, hr]; rfl, hs⟩

/-- **The tmpfs stays a rooted tree.**  With no storage volume mounted, in every run of VFS calls whose
    renames meet the condition, every call returns and the node table it leaves is a rooted tree. -/
theorem tree_in_every_run (storage : Storage.StorageState) (env : Env)
    (hno : NoVolumeMounted storage) (calls : List Call)
    (hrun : Run.Along step Allowed (some (boot storage env)) calls) :
    ∃ w, calls.foldl step (some (boot storage env)) = some w ∧ Rooted w.vfs.fs := by
  obtain ⟨w, hw, hs⟩ := Run.foldl_inv_along (I := fun w => ∃ v, w = some v ∧ Sound v)
    (fun _ _ h ha => sound_step h ha) ⟨_, rfl, by exact ⟨rooted_seed, hno⟩⟩ hrun
  exact ⟨w, hw, hs.rooted⟩

/-- A kernel with no storage controller, no devices and an empty `/sys`. -/
def quiet : World := boot (Storage.init []) ⟨fun _ => none, fun _ => none, []⟩

theorem quiet_eq : quiet = ⟨⟨⟨seededNodes, 1, 1⟩, [], [⟨['/'], "tmpfs".toList, false⟩]⟩, Storage.init [],
    ⟨fun _ => none, fun _ => none, []⟩⟩ := by
  rw [quiet, boot, VfsState.new_eq]

theorem quiet_noVolume : NoVolumeMounted (Storage.init []) := by
  intro v hv _
  rw [List.mem_singleton.mp hv]
  rfl

/-- A new directory, and its move from `/tmp` to `/var`. -/
def moveToVar : List Call :=
  [.mkdir "/tmp/a".toList, .rename "/tmp/a".toList "/var/b".toList]

/-- `/tmp/a` is node 40, `/var` is node 8, and the parent of that is the root. -/
def beforeMove (w : World) : Bool :=
  decide ((w.vfs.fs.resolve "/tmp/a".toList).toOption = some 40 ∧
    (w.vfs.fs.resolveParentAndName "/var/b".toList).toOption = some (8, "b".toList) ∧
    (w.vfs.fs.get? 8).map (fun n => (n.kind, n.parent)) = some (.directory, some 1) ∧
    (w.vfs.fs.get? 1).map (fun n => n.parent) = some none)

theorem renameAllowed_beforeMove {w : World} (h : beforeMove w = true) :
    RenameAllowed w "/tmp/a".toList "/var/b".toList := by
  obtain ⟨hsource, htarget, hvar, hroot⟩ := of_decide_eq_true h
  rintro absFrom absTo i q name - - - - hs - ht -
  rw [hs] at hsource
  rw [ht] at htarget
  obtain rfl : i = 40 := some.inj hsource
  obtain ⟨rfl, rfl⟩ := Prod.mk.inj (some.inj htarget)
  obtain ⟨n, hn, hnk⟩ := map_eq_some_iff.mp hvar
  obtain ⟨hkind, hparent⟩ := Prod.mk.inj hnk
  refine ⟨⟨n, hn, hkind⟩, ?_⟩
  -- two steps up from node 8 are the root and nothing
  rintro (_ | ⟨hn', hp', hb⟩)
  obtain rfl := mem_unique hn hn'
  obtain rfl := mem_unique hparent hp'
  rcases hb with _ | ⟨hr, hrp, -⟩
  rw [hr] at hroot
  cases hrp.symm.trans (some.inj hroot)

theorem tree_in_every_run_move :
    ∃ w, moveToVar.foldl step (some quiet) = some w ∧ Rooted w.vfs.fs ∧
      w.vfs.fs.pathForInode 40 = some "/var/b".toList := by
  have hfacts : (step (some quiet) (.mkdir "/tmp/a".toList)).map beforeMove = some true := by
    rw [quiet_eq]; decide
  obtain ⟨w₁, hw₁, hfacts⟩ := Option.map_eq_some_iff.mp hfacts
  have hrun : Run.Along step Allowed (some quiet) moveToVar := by
    refine ⟨trivial, fun v hv => ?_, trivial⟩
    obtain rfl := Option.mem_unique hw₁ hv
    exact renameAllowed_beforeMove hfacts
  obtain ⟨w, hw, hrooted⟩ := tree_in_every_run _ _ quiet_noVolume moveToVar hrun
  refine ⟨w, hw, hrooted, ?_⟩
  have hpath : (moveToVar.foldl step (some quiet)).map (fun w => w.vfs.fs.pathForInode 40) =
      some (some "/var/b".toList) := by
    rw [quiet_eq]; decide
  rw [show moveToVar.foldl step (some quiet) = some w from hw] at hpath
  exact Option.some.inj hpath

/-- **A rename under a file succeeds and breaks the tree**: `/bin/hello` (node 21) becomes a child of
    the file `/bin/true` (node 22). -/
theorem rename_breaks_tree :
    ∃ w, exec quiet (.rename "/bin/hello".toList "/bin/true/x".toList) = some (.done, w) ∧
      ¬Rooted w.vfs.fs := by
  have hfacts : (exec quiet (.rename "/bin/hello".toList "/bin/true/x".toList)).map (fun r =>
      decide (r.1 = .done ∧ (r.2.vfs.fs.get? 21).map (fun n => n.parent) = some (some 22) ∧
        (r.2.vfs.fs.get? 22).map (fun n => n.kind) = some .file ∧ r.2.vfs.fs.root = 1)) =
      some true := by
    rw [quiet_eq]; decide
  obtain ⟨⟨r, w⟩, hw, hfacts⟩ := Option.map_eq_some_iff.mp hfacts
  obtain ⟨rfl, hparent, hkind, hroot⟩ := of_decide_eq_true hfacts
  refine ⟨w, hw, fun h => ?_⟩
  obtain ⟨n, hn, hnp⟩ := Option.map_eq_some_iff.mp hparent
  obtain ⟨p, d, hp, hd, hk, -⟩ := h.listed 21 n hn (by rw [hroot]; decide)
  obtain rfl := Option.mem_unique hnp hp
  rw [hd, Option.map_some, hk] at hkind
  cases hkind

end Saios.Vfs
