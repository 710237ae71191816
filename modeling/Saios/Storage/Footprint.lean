/-
  WHAT A CALL OF THE STORAGE DRIVER CAN CHANGE AT WHICH PATH, on any node list.

  1. **View** — `storedAt st path`: the node that the driver finds for a path, on the volume that the
     path is on.

  2. **Node lists** — a writing call that passes its checks touches the node it names; a rename of a
     directory also touches every node that `reroot` gives another path, where it was and where it is
     then (`TreeCall.Reaches`).  Nothing else is found differently afterwards (`find_after`).

  3. **Calls** — `storedAt_step`: the same for the driver's calls on files.  Mounting, unmounting and
     scanning (`Op.Manages`) change which volume a path is on, and are left out; formatting is not, because
     it keeps away from mounted volumes.
-/
import Saios.Storage.Effect

namespace Saios.Storage

open Path List Option

/-- The node that the driver finds for a path. -/
def storedAt (st : StorageState) (path : Str) : Option FsNode :=
  (mountedVolumeForPathInternal st path).bind fun r =>
    (treeAt st r.1.key).bind fun nodes => nodes.find? fun n => n.path == r.2

/-! ## Node lists -/

/-- The paths that a call which passed its checks changes. -/
def TreeCall.Reaches (nodes : List FsNode) : TreeCall → Str → Prop
  | .create _ rel, path => path = rel
  | .delete rel, path => path = rel
  | .write rel _, path => path = rel
  | .rename fromRel toRel, path => path = fromRel ∨ path = toRel ∨
      ((nodes.find? fun n => n.path == fromRel).any (·.kind == .directory) = true ∧
        ∃ n, (n ∈ nodes ∨ ∃ m ∈ nodes, m.path = fromRel ∧ n = { m with path := toRel }) ∧
          reroot fromRel toRel n ≠ n ∧ (path = n.path ∨ path = (reroot fromRel toRel n).path))

/-- **A change of a node list is found at the paths it touches only.** -/
theorem find_after {nodes : List FsNode} {call : TreeCall} {path : Str} (hno : ¬call.Reaches nodes path) :
    ((call.after nodes).find? fun n => n.path == path) = nodes.find? fun n => n.path == path := by
  -- a new node at the end of the list
  have happend : ∀ {n : FsNode}, n.path ≠ path →
      ((nodes ++ [n]).find? fun n => n.path == path) = nodes.find? fun n => n.path == path := by
    intro n hne
    rw [find?_append, find?_cons_of_neg (by rw [beq_iff_eq]; exact hne), find?_nil,
      or_none]
  have hbeq : ∀ {s t : Str}, s ≠ t → (s == t) = false := fun hne => beq_eq_false_iff_ne.mpr hne
  cases call with
  | create kind rel => exact happend fun heq => hno heq.symm
  | delete rel =>
    refine find?_eraseP_of_disjoint fun n hn => hbeq fun heq => hno ?_
    exact heq.symm.trans (beq_iff_eq.mp hn)
  | write rel data =>
    show ((if (findNode nodes rel).isNone then nodes ++ [_] else nodes.modifyFirst _ _).find? _) = _
    split
    · exact happend fun heq => hno heq.symm
    · refine find?_modifyFirst_of_disjoint fun n hn => ?_
      have hne : n.path ≠ path := fun heq => hno (heq.symm.trans (beq_iff_eq.mp hn))
      exact ⟨hbeq hne, hbeq hne⟩
  | rename fromRel toRel =>
    have hmoved : ((nodes.modifyFirst (fun n => n.path == fromRel) fun n => { n with path := toRel }).find?
        fun n => n.path == path) = nodes.find? fun n => n.path == path := by
      refine find?_modifyFirst_of_disjoint fun n hn => ⟨hbeq fun heq => hno (Or.inl ?_), hbeq fun heq => ?_⟩
      · exact heq.symm.trans (beq_iff_eq.mp hn)
      · exact hno (Or.inr (.inl heq.symm))
    show ((if _ then List.map (reroot fromRel toRel) (nodes.modifyFirst _ _) else nodes.modifyFirst _ _).find? _)
      = _
    split
    · rename_i hdir
      rw [← hmoved, find?_map]
      -- a node that `reroot` changes is not found here, neither before nor after
      have hsame : ∀ n ∈ nodes.modifyFirst (fun n => n.path == fromRel) fun n => { n with path := toRel },
          reroot fromRel toRel n = n ∨ (n.path ≠ path ∧ (reroot fromRel toRel n).path ≠ path) := by
        intro n hn
        by_cases heq : reroot fromRel toRel n = n
        · exact .inl heq
        · have hfrom : n ∈ nodes ∨ ∃ m ∈ nodes, m.path = fromRel ∧ n = { m with path := toRel } := by
            rcases mem_modifyFirst hn with hn | ⟨m, hm, hpath, rfl⟩
            · exact .inl hn
            · exact .inr ⟨m, hm, beq_iff_eq.mp hpath, rfl⟩
          exact .inr ⟨fun hp => hno (Or.inr (.inr ⟨hdir, n, hfrom, heq, Or.inl hp.symm⟩)),
            fun hp => hno (Or.inr (.inr ⟨hdir, n, hfrom, heq, Or.inr hp.symm⟩))⟩
      rw [find?_congr]
      · cases hf : find? (fun n => n.path == path)
            (nodes.modifyFirst (fun n => n.path == fromRel) fun n => { n with path := toRel }) with
        | none => rfl
        | some n =>
          rcases hsame n (mem_of_find?_eq_some hf) with heq | ⟨hne, -⟩
          · rw [map_some, heq]
          · have hat := find?_some hf
            exact absurd (beq_iff_eq.mp hat) hne
      · intro n hn
        rcases hsame n hn with heq | ⟨hne, hne'⟩
        · rw [Function.comp_apply, heq]
        · rw [Function.comp_apply, hbeq hne, hbeq hne']
    · exact hmoved

/-! ## Calls -/

/-- The calls that change which volume a path is on. -/
def Op.Manages : Op → Prop
  | .mountVolume _ _ _ | .umountVolume _ | .rescan _ => True
  | _ => False

/-- The paths that a call on files changes: it passes all its checks, and the path is on the volume and
    among those the change of the node list touches. -/
def Op.Touches (st : StorageState) (op : Op) (path : Str) : Prop :=
  ∃ V call nodes v rel, op.treeCall st = some (V, .fat32, call) ∧ treeAt st (foldCase V) = some nodes ∧
    call.Checks nodes ∧ mountedVolumeForPathInternal st path = some (v, rel) ∧ v.key = foldCase V ∧
    call.Reaches nodes rel

variable {st : StorageState}

/-- A volume that is not mounted is on no path, whatever its filesystem. -/
theorem Wired.volumeForPath_format (h : Wired st) {v : DetectedVolume} (hv : v ∈ st.volumes)
    (hfree : v.mountedAt = none) (fs : FilesystemKind) (path : Str) :
    mountedVolumeForPathInternal (setVolume st v.key (.formatAs fs)) path =
      mountedVolumeForPathInternal st path := by
  have hfold : (setVolume st v.key (.formatAs fs)).volumes.foldl (betterMount (normalizePath path)) (none, 0) =
      st.volumes.foldl (betterMount (normalizePath path)) (none, 0) := by
    rw [setVolume, Keyed.change, foldl_map]
    refine foldl_ext _ _ _ fun best u hu => ?_
    split
    · rename_i hkey
      obtain rfl := h.volumes.eq hu hv hkey
      -- passed over before and after
      rw [betterMount, betterMount, DetectedVolume.formatAs, hfree]
    · rfl
  rw [mountedVolumeForPathInternal, mountedVolumeForPathInternal, hfold]

/-- **A call on files is seen at the paths it touches only.** -/
theorem Wired.storedAt_step (h : Wired st) {op : Op} (hop : ¬op.Manages) {path : Str}
    (hno : ¬op.Touches st path) : storedAt (step st op) path = storedAt st path := by
  have he := h.step_effect op
  generalize step st op = st' at he
  cases he with
  | same => rfl
  | mount => exact absurd trivial hop
  | mountTree => exact absurd trivial hop
  | umount => exact absurd trivial hop
  | umountSaved => exact absurd trivial hop
  | format hv _ hfree =>
    rw [storedAt, h.volumeForPath_format hv hfree]
    rfl
  | formatSaved hv _ hfree =>
    show storedAt (setVolume st _ _) path = _
    rw [storedAt, h.volumeForPath_format hv hfree]
    rfl
  | @update _ v call nodes d hcall hres hv hm hfs ht hd hchecks =>
    unfold storedAt
    have hpath : mountedVolumeForPathInternal (setDisk (setTree st v.key (call.after nodes)) v.key
      (d.store (serializeTree (call.after nodes)))) path = mountedVolumeForPathInternal st path := rfl
    rw [hpath]
    cases hr : mountedVolumeForPathInternal st path with
    | none => rfl
    | some r =>
      obtain ⟨u, rel⟩ := r
      simp only [bind_some, treeAt_setDisk, treeAt_setTree]
      split
      · rename_i hkey
        rw [hkey, ht]
        exact find_after fun htouch => hno ⟨v.name, call, nodes, u, rel, hcall, ht, hchecks, hr, hkey, htouch⟩
      · rfl
  | sector => rfl
  | flush => rfl
  | rescan => exact absurd trivial hop

theorem readIn_ok_iff {rel : Str} (hrel : Normal rel) {nodes : List FsNode} {data : List UInt8} :
    readIn rel nodes = .ok data ↔
      ∃ n, (nodes.find? fun n => n.path == rel) = some n ∧ n.kind = .file ∧ n.data = data := by
  rw [readIn, findNode_normal hrel]
  cases nodes.find? fun n => n.path == rel with
  | none => simp
  | some n => by_cases hk : n.kind = .file <;> simp [hk]

/-- **A read gives what is stored at the path.** -/
theorem Wired.fsRead_ok_iff (h : Wired st) {path : Str} {data : List UInt8} :
    (fsRead st path).1 = .ok data ↔ ∃ n, storedAt st path = some n ∧ n.kind = .file ∧ n.data = data := by
  unfold storedAt fsRead mountedVolumeInfoInternal
  cases hr : mountedVolumeForPathInternal st path with
  | none => simp
  | some r =>
    obtain ⟨v, rel⟩ := r
    have hinfo : mountedVolumeInfoInternal st path = some (v.name, v.filesystem, rel) := by
      rw [mountedVolumeInfoInternal, hr]
      rfl
    obtain ⟨⟨u, hu, hname, hfs, hm⟩, hrel⟩ := resolved hinfo
    rw [bind_some, map_some, show v.key = u.key from congrArg foldCase hname.symm]
    dsimp only
    rw [← hname, ← hfs]
    cases hsupports : fsSupportsMountTree u.filesystem with
    | false =>
      have hnone : treeAt st u.key = none := by
        rw [← not_isSome_iff_eq_none, ← mountedAt_isSome, h.tree u hu, hsupports]
        simp
      rw [readTree, if_pos hsupports, hnone]
      simp
    | true =>
      obtain ⟨nodes, ht⟩ := h.treeAt_some hu hm hsupports
      rw [readTree_eq ht hsupports, ht]
      exact readIn_ok_iff hrel

end Saios.Storage
