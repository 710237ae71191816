/-
  A MOUNTED FAT32 VOLUME IS A PATH MAP.

  1. **Abstract** — `absExec`: the eight `fs_*` calls as operations of `PathMap` on component lists;
     a call that is not defined leaves the map alone.

  2. **Refinement** (`Refines`) — the volume's node list is a tree whose map is the abstract one, and
     directories carry no data (so `fs_stat` reports size 0 for them).  A call's reply, with the error
     text forgotten, and the map it leaves are those of the abstract call (`exec_refines`), as long as
     the changed list fits the partition.

  3. **Whole runs** (`fat32_refines_map`) — from the default tree, any calls whose paths are on the
     volume.
-/
import Saios.Storage.TreeSafety

namespace Saios.Storage

open Bytes Path List

/-! ## Calls and their meaning -/

inductive FsCall
  | create (path : Str)
  | mkdir (path : Str)
  | write (path : Str) (data : List UInt8)
  | delete (path : Str)
  | rename (source target : Str)
  | read (path : Str)
  | stat (path : Str)
  | readdir (path : Str)

def FsCall.op : FsCall → Op
  | .create path => .fsCreate path
  | .mkdir path => .fsMkdir path
  | .write path data => .fsWrite path data
  | .delete path => .fsDelete path
  | .rename source target => .fsRename source target
  | .read path => .fsRead path
  | .stat path => .fsStat path
  | .readdir path => .fsReaddir path

/-- The reply with the error text forgotten. -/
def Reply.outcome : Reply → Option Reply
  | .failed _ => none
  | r => some r

/-- An operation that is not defined changes nothing and fails. -/
def commit (m : PathMap Str (List UInt8)) (o : Option (PathMap Str (List UInt8))) :
    Option Reply × PathMap Str (List UInt8) :=
  (o.map fun _ => .done, o.getD m)

/-- What the calls mean on the map; `rel` says where on the volume a path is. -/
noncomputable def absExec (rel : Str → List Str) (m : PathMap Str (List UInt8)) :
    FsCall → Option Reply × PathMap Str (List UInt8)
  | .create path => commit m (m.make (rel path) (.file []))
  | .mkdir path => commit m (m.make (rel path) .dir)
  | .write path data => commit m (m.write (rel path) data)
  | .delete path => commit m (m.remove (rel path))
  | .rename source target => commit m (m.rename (rel source) (rel target))
  | .read path => ((m.read (rel path)).map .bytes, m)
  | .stat path => ((m (rel path)).map fun e => .stat (statOf e), m)
  | .readdir path => ((m.list (rel path)).map .names, m)

/-- The normalized relative path of a path, by components. -/
def relComps (st : StorageState) (path : Str) : List Str :=
  ((mountedVolumeInfoInternal st path).map fun r => comps r.2.2).getD []

/-- The path is on the FAT32 volume `V`. -/
def OnVolume (st : StorageState) (V path : Str) : Prop :=
  ∃ rel, mountedVolumeInfoInternal st path = some (V, .fat32, rel)

/-- All paths are on the volume, and a rename is neither of its root nor into its own source. -/
def FsCall.On (st : StorageState) (V : Str) : FsCall → Prop
  | .create path | .mkdir path | .write path _ | .delete path | .read path | .stat path | .readdir path =>
      OnVolume st V path
  | .rename source target => OnVolume st V source ∧ OnVolume st V target ∧ relComps st source ≠ [] ∧
      (relComps st source <+: relComps st target → relComps st target = relComps st source)

/-- After the call, the volume's node list fits the partition. -/
def FitsAfter (key : Str) (st : StorageState) (call : FsCall) : Prop :=
  ∀ nodes, treeAt (step st call.op) key = some nodes → (serializeTree nodes).length ≤ partCapacity

/-! ## Directories carry no data -/

def BareDirs (nodes : List FsNode) : Prop := ∀ n ∈ nodes, n.kind = .directory → n.data = []

instance (nodes : List FsNode) : Decidable (BareDirs nodes) :=
  inferInstanceAs (Decidable (∀ n ∈ nodes, n.kind = .directory → n.data = []))

variable {nodes : List FsNode}

theorem bareDirs_append (h : BareDirs nodes) {n : FsNode} (hn : n.kind = .directory → n.data = []) :
    BareDirs (nodes ++ [n]) := by
  intro m hm hk
  rcases mem_append.mp hm with hm | hm
  · exact h m hm hk
  · obtain rfl := mem_singleton.mp hm
    exact hn hk

theorem after_bareDirs (hflat : Flat nodes) (h : BareDirs nodes) {call : TreeCall} (hres : call.Resolved)
    (hchecks : call.Checks nodes) : BareDirs (call.after nodes) := by
  cases call with
  | create kind rel => exact bareDirs_append h fun _ => rfl
  | delete rel => exact fun n hn => h n (mem_of_mem_eraseP hn)
  | rename fromRel toRel =>
    have hmoved : BareDirs (nodes.modifyFirst (fun n => n.path == fromRel) fun n => { n with path := toRel }) := by
      intro n hn hk
      rcases mem_modifyFirst hn with hn | ⟨m, hm, -, rfl⟩
      · exact h n hn hk
      · exact h m hm hk
    simp only [TreeCall.after]
    split
    · intro n hn hk
      obtain ⟨m, hm, rfl⟩ := List.mem_map.mp hn
      unfold reroot at hk ⊢
      split at hk
      · rename_i hcond
        rw [if_pos hcond]
        exact hmoved m hm hk
      · rename_i hcond
        rw [if_neg hcond]
        exact hmoved m hm hk
    · exact hmoved
  | write rel data =>
    simp only [TreeCall.after]
    split
    · exact bareDirs_append h fun hk => absurd hk (by decide : FsNodeKind.file ≠ .directory)
    · rename_i hsome
      intro n hn hk
      rcases mem_modifyFirst hn with hn | ⟨m, hm, hp, rfl⟩
      · exact h n hn hk
      · -- the node with this path is the file the checks found
        rcases hchecks with ⟨hnone, -⟩ | ⟨f, hf, hkind⟩
        · rw [hnone] at hsome
          exact absurd rfl hsome
        · rw [findNode_normal hres] at hf
          have hpath : f.path = rel := by simpa using find?_some hf
          have hsame : m = f := inj_on_of_nodup_map hflat.distinct hm (mem_of_find?_eq_some hf)
            (by rw [hpath]; simpa using hp)
          rw [hsame] at hk
          exact absurd (hkind.symm.trans hk) (by decide)

/-! ## One call -/

/-- The node list of the volume is the map `m`; the volumes are those of the state `st₀`. -/
structure Refines (st₀ : StorageState) (V : Str) (st : StorageState)
    (m : PathMap Str (List UInt8)) : Prop where
  wired : Wired st
  volumes : st.volumes = st₀.volumes
  tree : ∃ nodes, treeAt st (foldCase V) = some nodes ∧ IsTree nodes ∧ BareDirs nodes ∧ nodeMap nodes = m

/-- A call's reply and the state it leaves are those of the abstract call. -/
def Agrees (st₀ : StorageState) (V : Str) (r : Reply × StorageState)
    (a : Option Reply × PathMap Str (List UInt8)) : Prop :=
  r.1.outcome = a.1 ∧ Refines st₀ V r.2 a.2

/-- Renaming something to itself is refused, and not defined. -/
theorem rename_same {rel : Str} (hrel : Normal rel) (m : PathMap Str (List UInt8)) :
    Performs nodes (renameIn rel rel nodes) (m.rename (comps rel) (comps rel)) := by
  have hundef : m.rename (comps rel) (comps rel) = none :=
    if_neg fun hdef => hdef.2.2.2.2 (prefix_refl _)
  rw [hundef]
  rcases renameIn_cases rel rel nodes with ⟨hchecks, -⟩ | ⟨-, e, he⟩
  · obtain ⟨-, hnone, hsome⟩ := hchecks
    rw [findNode_normal hrel] at hnone
    rw [hnone] at hsome
    cases hsome
  · rw [show renameIn rel rel nodes = _ from he]
    exact .error e

section calls

variable {st₀ st : StorageState} {V : Str} {m : PathMap Str (List UInt8)}
  (h : Refines st₀ V st m)

include h

/-- A change of the node list that performs a map operation, as a call. -/
theorem Refines.update {op : Op} {call : TreeCall} (hcall : op.treeCall st = some (V, .fat32, call))
    (hperf : ∀ nodes, IsTree nodes → nodeMap nodes = m → Performs nodes (call.run nodes) (call.abs m))
    (hfit : ∀ nodes, treeAt (step st op) (foldCase V) = some nodes → (serializeTree nodes).length ≤ partCapacity) :
    Agrees st₀ V (exec st op) (commit m (call.abs m)) := by
  obtain ⟨nodes, ht, htree, hbare, hmap⟩ := h.tree
  obtain ⟨-, hres, -⟩ := exec_treeCall hcall
  have hp := hperf nodes htree hmap
  rcases run_cases hres nodes with ⟨hchecks, hrun⟩ | ⟨hno, e, hrun⟩
  · obtain ⟨d, hd, hexec⟩ := h.wired.exec_update hcall ht hchecks
    obtain ⟨hvol, htree'⟩ := h.wired.step_update hcall ht hchecks
    rw [if_pos (hfit _ htree')] at hexec
    rw [hrun] at hp
    generalize habs : call.abs m = o at hp
    cases hp with
    | ok hflat hmap' =>
      refine ⟨by rw [hexec]; rfl, h.wired.effect (h.wired.step_effect op), hvol.trans h.volumes, ?_⟩
      · refine ⟨_, htree', isTree_iff.mpr ⟨hflat, ?_⟩, after_bareDirs htree.toFlat hbare hres hchecks, hmap'⟩
        rw [hmap']
        exact abs_closed (hmap ▸ (isTree_iff.mp htree).2) habs
  · obtain ⟨e', he'⟩ := h.wired.exec_refused hcall ht hno
    rw [hrun] at hp
    generalize call.abs m = o at hp
    cases hp with
    | error => exact ⟨by rw [he']; rfl, by rw [he']; exact h⟩

/-- A reading call on the volume answers what the map gives. -/
theorem Refines.reads {α : Type} (ok : α → Reply) (hok : ∀ a, (ok a).outcome = some (ok a)) {path rel : Str}
    (hr : mountedVolumeInfoInternal st path = some (V, .fat32, rel)) {body : List FsNode → Except String α}
    {o : Option α} (hbody : ∀ nodes, IsTree nodes → BareDirs nodes → nodeMap nodes = m → (body nodes).toOption = o) :
    Agrees st₀ V (reply ok (readTree st V .fat32 body)) (o.map ok, m) := by
  obtain ⟨nodes, ht, htree, hbare, hmap⟩ := h.tree
  obtain ⟨⟨w, hw, hname, hfs, hm⟩, -⟩ := resolved hr
  have hread : readTree st V .fat32 body = (body nodes, st) := by
    rw [← hname, ← hfs]
    exact readTree_eq (by rw [DetectedVolume.key, hname]; exact ht) (by rw [hfs]; rfl) body
  rw [hread, ← hbody nodes htree hbare hmap]
  cases body nodes with
  | error e => exact ⟨rfl, h⟩
  | ok a => exact ⟨hok a, h⟩

/-- **Every call is the abstract call.** -/
theorem exec_refines {call : FsCall} (hon : call.On st₀ V) (hfit : FitsAfter (foldCase V) st call) :
    Agrees st₀ V (exec st call.op) (absExec (relComps st₀) m call) := by
  -- a path on the volume: where it is now, and that it was there from the start
  have hrel : ∀ {path}, OnVolume st₀ V path → ∃ ds : List Str, (∀ c ∈ ds, IsName c) ∧
      mountedVolumeInfoInternal st path = some (V, .fat32, absolute ds) ∧
      relComps st₀ path = ds := by
    rintro path ⟨rel, hr⟩
    obtain ⟨-, ds, hds, rfl⟩ := resolved hr
    refine ⟨ds, hds, (info_congr h.volumes path).trans hr, ?_⟩
    rw [relComps, hr, Option.map_some, Option.getD_some, comps_absolute hds]
  have hperf : ∀ {tc : TreeCall}, tc.Resolved → tc.Keeps → ∀ nodes, IsTree nodes → nodeMap nodes = m →
      Performs nodes (tc.run nodes) (tc.abs m) :=
    fun hres hkeeps nodes htree hmap => hmap ▸ run_performs htree hres hkeeps
  cases call with
  | create path =>
    obtain ⟨ds, hds, hr, heq⟩ := hrel hon
    have hcall : (Op.fsCreate path).treeCall st = some (V, .fat32, .create .file (absolute ds)) := by
      rw [Op.treeCall, hr]; rfl
    have hag := h.update hcall (hperf ⟨ds, hds, rfl⟩ trivial) hfit
    rwa [TreeCall.abs, comps_absolute hds, ← heq] at hag
  | mkdir path =>
    obtain ⟨ds, hds, hr, heq⟩ := hrel hon
    have hcall : (Op.fsMkdir path).treeCall st = some (V, .fat32, .create .directory (absolute ds)) := by
      rw [Op.treeCall, hr]; rfl
    have hag := h.update hcall (hperf ⟨ds, hds, rfl⟩ trivial) hfit
    rwa [TreeCall.abs, comps_absolute hds, ← heq] at hag
  | write path data =>
    obtain ⟨ds, hds, hr, heq⟩ := hrel hon
    have hcall : (Op.fsWrite path data).treeCall st = some (V, .fat32, .write (absolute ds) data) := by
      rw [Op.treeCall, hr]; rfl
    have hag := h.update hcall (hperf ⟨ds, hds, rfl⟩ trivial) hfit
    rwa [TreeCall.abs, comps_absolute hds, ← heq] at hag
  | delete path =>
    obtain ⟨ds, hds, hr, heq⟩ := hrel hon
    by_cases hroot : absolute ds = ['/']
    · -- the root is refused before anything is looked at
      have hcall : (Op.fsDelete path).treeCall st = none := by
        rw [Op.treeCall, hr]; exact if_pos hroot
      have hw : (Op.fsDelete path).Writes := trivial
      obtain ⟨e, he⟩ := exec_no_treeCall hw hcall
      have hundef : m.remove (relComps st₀ path) = none := by
        rw [heq, (absolute_eq_root hds).mp hroot]
        exact PathMap.remove_none m fun hdef => hdef.1 rfl
      rw [absExec, hundef, FsCall.op, he]
      exact ⟨rfl, h⟩
    · have hcall : (Op.fsDelete path).treeCall st = some (V, .fat32, .delete (absolute ds)) := by
        rw [Op.treeCall, hr]; exact if_neg hroot
      have hag := h.update hcall (hperf ⟨⟨ds, hds, rfl⟩, hroot⟩ trivial) hfit
      rwa [TreeCall.abs, comps_absolute hds, ← heq] at hag
  | rename source target =>
    obtain ⟨hsource, htarget, hroot, hinto⟩ := hon
    obtain ⟨ds, hds, hr, heq⟩ := hrel hsource
    obtain ⟨es, hes, hr', heq'⟩ := hrel htarget
    rw [heq] at hroot hinto
    rw [heq'] at hinto
    have hcall : (Op.fsRename source target).treeCall st =
        some (V, .fat32, .rename (absolute ds) (absolute es)) := by
      rw [Op.treeCall, hr, hr']
      exact if_neg (by simp [eqIgnoreAsciiCase])
    have hagree : ∀ nodes, IsTree nodes → nodeMap nodes = m →
        Performs nodes ((TreeCall.rename (absolute ds) (absolute es)).run nodes)
          ((TreeCall.rename (absolute ds) (absolute es)).abs m) := by
      by_cases hsame : es = ds
      · intro nodes _ _
        rw [hsame]
        exact rename_same ⟨ds, hds, rfl⟩ m
      · refine hperf ⟨⟨ds, hds, rfl⟩, es, hes, rfl⟩ ⟨fun h => hroot ((absolute_eq_root hds).mp h), ?_⟩
        rw [← Bool.not_eq_true, isChildOf_absolute hds hes]
        exact fun hpre => hsame (hinto hpre)
    have hag := h.update hcall hagree hfit
    rwa [TreeCall.abs, comps_absolute hds, comps_absolute hes, ← heq, ← heq'] at hag
  | read path =>
    obtain ⟨ds, hds, hr, heq⟩ := hrel hon
    have hexec : exec st (.fsRead path) = reply .bytes (readTree st V .fat32 (readIn (absolute ds))) := by
      simp only [exec, fsRead, hr]
    rw [FsCall.op, hexec, absExec, heq]
    exact h.reads .bytes (fun _ => rfl) hr fun nodes htree _ hmap => hmap ▸ readIn_eq htree.toFlat hds
  | stat path =>
    obtain ⟨ds, hds, hr, heq⟩ := hrel hon
    have hexec : exec st (.fsStat path) = reply .stat (readTree st V .fat32 (statIn (absolute ds))) := by
      simp only [exec, fsStat, hr]
    have hag := h.reads .stat (fun _ => rfl) hr fun nodes htree hbare hmap =>
      hmap ▸ statIn_eq htree.toFlat hds hbare
    rw [Option.map_map] at hag
    rw [FsCall.op, hexec, absExec, heq]
    exact hag
  | readdir path =>
    obtain ⟨ds, hds, hr, heq⟩ := hrel hon
    have hexec : exec st (.fsReaddir path) = reply .names (readTree st V .fat32 (readdirIn (absolute ds))) := by
      simp only [exec, fsReaddir, hr]
    rw [FsCall.op, hexec, absExec, heq]
    exact h.reads .names (fun _ => rfl) hr fun nodes htree _ hmap => hmap ▸ readdirIn_eq htree.toFlat hds

end calls

/-! ## Whole runs -/

/-- The replies of a run. -/
def replies : StorageState → List FsCall → List (Option Reply)
  | _, [] => []
  | st, call :: calls => (exec st call.op).1.outcome :: replies (step st call.op) calls

noncomputable def absReplies (rel : Str → List Str) : PathMap Str (List UInt8) → List FsCall →
    List (Option Reply)
  | _, [] => []
  | m, call :: calls => (absExec rel m call).1 :: absReplies rel (absExec rel m call).2 calls

/-- The map a run leaves. -/
noncomputable def absRun (rel : Str → List Str) (m : PathMap Str (List UInt8)) (calls : List FsCall) :
    PathMap Str (List UInt8) := calls.foldl (fun m call => (absExec rel m call).2) m

theorem Refines.run {st₀ st : StorageState} {V : Str} {m : PathMap Str (List UInt8)}
    (h : Refines st₀ V st m) (calls : List FsCall) (hon : ∀ call ∈ calls, call.On st₀ V)
    (hfit : Run.Along (fun st call => step st call.op) (FitsAfter (foldCase V)) st calls) :
    replies st calls = absReplies (relComps st₀) m calls ∧
      Refines st₀ V (calls.foldl (fun st call => step st call.op) st) (absRun (relComps st₀) m calls) := by
  induction calls generalizing st m with
  | nil => exact ⟨rfl, h⟩
  | cons call calls ih =>
    obtain ⟨hreply, hnext⟩ := exec_refines h (hon call mem_cons_self) hfit.1
    obtain ⟨hrest, hend⟩ := ih hnext (fun c hc => hon c (mem_cons_of_mem _ hc)) hfit.2
    refine ⟨?_, hend⟩
    rw [replies, hreply]
    exact congrArg _ hrest

/-- **A FAT32 volume mounted with the default tree is a path map**: for any calls on the volume, every
    reply is that of the map, and the node list left is the map left. -/
theorem fat32_refines_map (st : StorageState) (hst : Reachable st) (V : Str)
    (htree : treeAt st (foldCase V) = some defaultFatTree) (calls : List FsCall)
    (hon : ∀ call ∈ calls, call.On st V)
    (hfit : Run.Along (fun st call => step st call.op) (FitsAfter (foldCase V)) st calls) :
    replies st calls = absReplies (relComps st) (nodeMap defaultFatTree) calls ∧
      (treeAt (calls.foldl (fun st call => step st call.op) st) (foldCase V)).map nodeMap =
        some (absRun (relComps st) (nodeMap defaultFatTree) calls) := by
  have hstart : Refines st V st (nodeMap defaultFatTree) :=
    ⟨wired_reachable hst, rfl, defaultFatTree, htree, isTree_defaultFatTree, by decide, rfl⟩
  obtain ⟨hreplies, hend⟩ := hstart.run calls hon hfit
  obtain ⟨nodes, hnodes, -, -, hmap⟩ := hend.tree
  exact ⟨hreplies, by rw [hnodes, ← hmap]; rfl⟩

/-- A file written into a directory, the directory moved, and the file read where it is now. -/
def moveAndRead : List FsCall :=
  [.write "/mnt/boot/a".toList [1, 2], .rename "/mnt/boot".toList "/mnt/etc/b".toList,
    .read "/mnt/etc/b/a".toList]

theorem fat32_refines_map_moveAndRead :
    replies (step (init [ahci]) mountAhci) moveAndRead =
        absReplies (relComps (step (init [ahci]) mountAhci)) (nodeMap defaultFatTree) moveAndRead ∧
      (treeAt (moveAndRead.foldl (fun st call => step st call.op) (step (init [ahci]) mountAhci))
          (foldCase "disk0p1".toList)).map nodeMap =
        some (absRun (relComps (step (init [ahci]) mountAhci)) (nodeMap defaultFatTree) moveAndRead) := by
  have hkey : foldCase "disk0p1".toList = "disk0p1".toList := by decide
  have hinfo : ∀ path, mountedVolumeInfoInternal (step (init [ahci]) mountAhci) path =
      mountedVolumeInfoInternal ahciMounted path := info_congr volumes_mounted
  -- the node lists the calls leave
  obtain ⟨-, hvol₁, htree₁⟩ := update_mounted wired_mounted volumes_mounted tree_mounted
    (.fsWrite "/mnt/boot/a".toList [1, 2]) (.write "/boot/a".toList [1, 2]) (by decide) (by decide)
  have hw₁ := wired_mounted.effect (wired_mounted.step_effect (.fsWrite "/mnt/boot/a".toList [1, 2]))
  obtain ⟨-, -, htree₂⟩ := update_mounted hw₁ (hvol₁.trans volumes_mounted) htree₁
    (.fsRename "/mnt/boot".toList "/mnt/etc/b".toList) (.rename "/boot".toList "/etc/b".toList)
    (by decide) (by decide)
  have hw₂ := hw₁.effect (hw₁.step_effect (.fsRename "/mnt/boot".toList "/mnt/etc/b".toList))
  refine fat32_refines_map _ reachable_mounted "disk0p1".toList tree_mounted
    moveAndRead ?_ ⟨?_, ?_, ?_, trivial⟩
  · intro call hcall
    simp only [moveAndRead, List.mem_cons, List.not_mem_nil, or_false] at hcall
    rcases hcall with rfl | rfl | rfl
    · exact ⟨"/boot/a".toList, (hinfo _).trans (by decide)⟩
    · refine ⟨⟨"/boot".toList, (hinfo _).trans (by decide)⟩,
        ⟨"/etc/b".toList, (hinfo _).trans (by decide)⟩, ?_⟩
      simp only [relComps, hinfo]
      decide
    · exact ⟨"/etc/b/a".toList, (hinfo _).trans (by decide)⟩
  · intro nodes hnodes
    simp only [FsCall.op, hkey] at hnodes
    rw [htree₁] at hnodes
    obtain rfl := Option.some.inj hnodes
    decide
  · intro nodes hnodes
    simp only [FsCall.op, hkey] at hnodes
    rw [htree₂] at hnodes
    obtain rfl := Option.some.inj hnodes
    decide +kernel
  · intro nodes hnodes
    simp only [FsCall.op, hkey] at hnodes
    rw [hw₂.step_reads.1, htree₂] at hnodes
    obtain rfl := Option.some.inj hnodes
    decide +kernel

end Saios.Storage
