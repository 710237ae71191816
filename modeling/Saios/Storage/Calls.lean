/-
  THE WRITING CALLS of the storage driver as changes of one node list.

  1. **`TreeCall`** — what `fs_create`, `fs_mkdir`, `fs_delete`, `fs_rename` and `fs_write` do once their
     paths are resolved: four bodies (`TreeCall.run`), run on the node list of a volume.

  2. **Resolution** — a path resolves to a MOUNTED volume and a normalized path on it (`resolved`), so a
     call either gets to a node list (`exec_treeCall`) or fails without a trace (`exec_no_treeCall`).

  3. **Checks, then the change** (`run_cases`) — on ANY node list, tree or not: a body first makes all its
     checks (`TreeCall.Checks`); if one fails, nothing changes, otherwise the list becomes
     `TreeCall.after`.
-/
import Saios.Storage.State

namespace Saios.Storage

open Bytes Path List Option

/-! ## The node-list change of a call -/

/-- What a writing call does to a node list. -/
inductive TreeCall
  | create (kind : FsNodeKind) (rel : Str)
  | delete (rel : Str)
  | rename (fromRel toRel : Str)
  | write (rel : Str) (data : List UInt8)
  deriving DecidableEq

def TreeCall.run : TreeCall → List FsNode → Except String Unit × List FsNode
  | .create kind rel => createIn kind rel
  | .delete rel => deleteIn rel
  | .rename fromRel toRel => renameIn fromRel toRel
  | .write rel data => writeIn rel data

/-- The volume a writing call goes to and what it does there, when it gets that far. -/
def Op.treeCall (st : StorageState) : Op → Option (Str × FilesystemKind × TreeCall)
  | .fsCreate path => (mountedVolumeInfoInternal st path).map fun r => (r.1, r.2.1, .create .file r.2.2)
  | .fsMkdir path =>
      (mountedVolumeInfoInternal st path).map fun r => (r.1, r.2.1, .create .directory r.2.2)
  | .fsDelete path => (mountedVolumeInfoInternal st path).bind fun r =>
      if r.2.2 = ['/'] then none else some (r.1, r.2.1, .delete r.2.2)
  | .fsRename source target => (mountedVolumeInfoInternal st source).bind fun r =>
      (mountedVolumeInfoInternal st target).bind fun r' =>
        if eqIgnoreAsciiCase r.1 r'.1 = false then none else some (r.1, r.2.1, .rename r.2.2 r'.2.2)
  | .fsWrite path data => (mountedVolumeInfoInternal st path).map fun r => (r.1, r.2.1, .write r.2.2 data)
  | _ => none

/-- The calls that change a node list. -/
def Op.Writes : Op → Prop
  | .fsCreate _ | .fsMkdir _ | .fsDelete _ | .fsRename _ _ | .fsWrite _ _ => True
  | _ => False

/-! ## Which volume a path is on -/

theorem betterMount_mem {path : Str} {vols : List DetectedVolume} {best : Option DetectedVolume × Nat}
    {v : DetectedVolume} (h : (vols.foldl (betterMount path) best).1 = some v) :
    best.1 = some v ∨ v ∈ vols := by
  induction vols generalizing best with
  | nil => exact .inl h
  | cons w vols ih =>
    rcases ih h with hb | hmem
    · unfold betterMount at hb
      split at hb
      · exact .inl hb
      · simp only at hb
        split at hb
        · exact .inl hb
        · split at hb
          · exact .inr (some.inj hb ▸ mem_cons_self)
          · exact .inl hb
    · exact .inr (mem_cons_of_mem _ hmem)

variable {st : StorageState} {rel : Str}

theorem mounted_mem {path : Str} {v : DetectedVolume}
    (h : mountedVolumeForPathInternal st path = some (v, rel)) :
    v ∈ st.volumes ∧ v.mountedAt.isSome = true ∧ ∃ mount, rel = normalizePath mount := by
  unfold mountedVolumeForPathInternal at h
  simp only at h
  split at h
  · cases h
  · rename_i w hw
    split at h
    · cases h
    · rename_i mount hmount
      cases h
      rcases betterMount_mem hw with hb | hmem
      · cases hb
      · exact ⟨hmem, by rw [hmount]; rfl, _, rfl⟩

/-- A path is resolved to a mounted volume and a normalized path on it. -/
theorem resolved {path V : Str} {fs : FilesystemKind}
    (h : mountedVolumeInfoInternal st path = some (V, fs, rel)) :
    (∃ v ∈ st.volumes, v.name = V ∧ v.filesystem = fs ∧ v.mountedAt.isSome = true) ∧
      ∃ ds : List Str, (∀ c ∈ ds, IsName c) ∧ rel = absolute ds := by
  obtain ⟨⟨v, rel'⟩, hv, heq⟩ := map_eq_some_iff.mp h
  cases heq
  obtain ⟨hmem, hmount, rel, rfl⟩ := mounted_mem hv
  exact ⟨⟨v, hmem, rfl, rfl, hmount⟩, _, comps_isName _, normalizePath_eq _⟩

variable {st' : StorageState}

/-- Which volume a path is on depends on the volumes alone. -/
theorem info_congr (h : st.volumes = st'.volumes) (path : Str) :
    mountedVolumeInfoInternal st path = mountedVolumeInfoInternal st' path := by
  rw [mountedVolumeInfoInternal, mountedVolumeForPathInternal, h]; rfl

theorem volumeForPath_congr (h : st.volumes = st'.volumes) (path : Str) :
    mountedVolumeForPath st path = mountedVolumeForPath st' path := by
  rw [mountedVolumeForPath, mountedVolumeForPathInternal, h]; rfl

theorem treeCall_congr (h : st.volumes = st'.volumes) (op : Op) : op.treeCall st = op.treeCall st' := by
  cases op with
  | fsCreate path | fsMkdir path | fsDelete path | fsWrite path data => simp only [Op.treeCall, info_congr h]
  | fsRename source target => simp only [Op.treeCall, info_congr h]
  | _ => rfl

/-- The path is a normalized one. -/
def Normal (rel : Str) : Prop := ∃ ds : List Str, (∀ c ∈ ds, IsName c) ∧ rel = absolute ds

/-- The paths are normalized, and the root is not deleted. -/
def TreeCall.Resolved : TreeCall → Prop
  | .create _ rel => Normal rel
  | .delete rel => Normal rel ∧ rel ≠ ['/']
  | .rename fromRel toRel => Normal fromRel ∧ Normal toRel
  | .write rel _ => Normal rel

/-- **A writing call that gets to a node list**: on which volume, with which paths. -/
theorem exec_treeCall {op : Op} {V : Str} {fs : FilesystemKind} {call : TreeCall}
    (h : op.treeCall st = some (V, fs, call)) :
    exec st op = reply (fun _ => .done) (updateTree st V fs call.run) ∧ call.Resolved ∧
      ∃ v ∈ st.volumes, v.name = V ∧ v.filesystem = fs ∧ v.mountedAt.isSome = true := by
  cases op with
  | fsCreate path | fsMkdir path | fsWrite path data =>
    obtain ⟨⟨V, fs, rel⟩, hr, heq⟩ := map_eq_some_iff.mp h
    cases heq
    refine ⟨?_, (resolved hr).2, (resolved hr).1⟩
    simp only [exec, fsCreate, fsMkdir, fsWrite, hr]; rfl
  | fsDelete path =>
    obtain ⟨⟨V, fs, rel⟩, hr, heq⟩ := bind_eq_some_iff.mp h
    split at heq
    · cases heq
    · rename_i hroot
      cases heq
      refine ⟨?_, ⟨(resolved hr).2, hroot⟩, (resolved hr).1⟩
      simp only [exec, fsDelete, hr, if_neg hroot]; rfl
  | fsRename source target =>
    obtain ⟨⟨V, fs, rel⟩, hr, heq⟩ := bind_eq_some_iff.mp h
    obtain ⟨⟨V', fs', rel'⟩, hr', heq⟩ := bind_eq_some_iff.mp heq
    split at heq
    · cases heq
    · rename_i hsame
      cases heq
      refine ⟨?_, ⟨(resolved hr).2, (resolved hr').2⟩, (resolved hr).1⟩
      simp only [exec, fsRename, hr, hr', if_neg hsame]; rfl
  | _ => cases h

/-- A writing call that does not get to a node list fails and changes nothing. -/
theorem exec_no_treeCall {op : Op} (hw : op.Writes) (h : op.treeCall st = none) :
    ∃ e, exec st op = (.failed e, st) := by
  cases op with
  | fsCreate path | fsMkdir path | fsWrite path data =>
    have hr := map_eq_none_iff.mp h
    exact ⟨_, by simp only [exec, fsCreate, fsMkdir, fsWrite, hr]; rfl⟩
  | fsDelete path =>
    cases hr : mountedVolumeInfoInternal st path with
    | none => exact ⟨_, by simp only [exec, fsDelete, hr]; rfl⟩
    | some r =>
      obtain ⟨V, fs, rel⟩ := r
      by_cases hroot : rel = ['/']
      · exact ⟨_, by simp only [exec, fsDelete, hr, if_pos hroot]; rfl⟩
      · simp [Op.treeCall, hr, hroot] at h
  | fsRename source target =>
    cases hr : mountedVolumeInfoInternal st source with
    | none => exact ⟨_, by simp only [exec, fsRename, hr]; rfl⟩
    | some r =>
      obtain ⟨V, fs, rel⟩ := r
      cases hr' : mountedVolumeInfoInternal st target with
      | none => exact ⟨_, by simp only [exec, fsRename, hr, hr']; rfl⟩
      | some r' =>
        obtain ⟨V', fs', rel'⟩ := r'
        by_cases hsame : eqIgnoreAsciiCase V V' = false
        · exact ⟨_, by simp only [exec, fsRename, hr, hr', if_pos hsame]; rfl⟩
        · simp [Op.treeCall, hr, hr', hsame] at h
  | _ => cases hw

/-! ## The change, check by check -/

/-- The checks a writing call makes on the node list before it changes anything. -/
def TreeCall.Checks (nodes : List FsNode) : TreeCall → Prop
  | .create _ rel => findNode nodes rel = none ∧ ensureParentDir nodes rel = .ok ()
  | .delete rel => ∃ n, nodes.find? (fun n => n.path == rel) = some n ∧
      ¬(n.kind = .directory ∧ nodes.any (fun m => m.path != rel && isChildOf rel m.path) = true)
  | .rename fromRel toRel => ensureParentDir nodes toRel = .ok () ∧ findNode nodes toRel = none ∧
      (nodes.find? fun n => n.path == fromRel).isSome = true
  | .write rel _ => (findNode nodes rel = none ∧ ensureParentDir nodes rel = .ok ()) ∨
      ∃ n, findNode nodes rel = some n ∧ n.kind = .file

instance decidableExistsSome {α : Type} (o : Option α) (P : α → Prop) [DecidablePred P] : Decidable (∃ a, o = some a ∧ P a) :=
  match o with
  | none => .isFalse fun ⟨_, h, _⟩ => (nomatch h)
  | some a => decidable_of_iff (P a) ⟨fun h => ⟨a, rfl, h⟩, fun ⟨_, heq, h⟩ => Option.some.inj heq ▸ h⟩

instance (nodes : List FsNode) : (call : TreeCall) → Decidable (call.Checks nodes)
  | .create _ _ => inferInstanceAs (Decidable (_ ∧ _))
  | .delete _ => inferInstanceAs (Decidable (∃ n, _ = some n ∧ ¬_))
  | .rename _ _ => inferInstanceAs (Decidable (_ ∧ _ ∧ _))
  | .write _ _ => inferInstanceAs (Decidable (_ ∨ _))

/-- The node list after a call that passed its checks. -/
def TreeCall.after (nodes : List FsNode) : TreeCall → List FsNode
  | .create kind rel => nodes ++ [{ path := rel, kind := kind, data := [] }]
  | .delete rel => nodes.eraseP fun n => n.path == rel
  | .rename fromRel toRel =>
      let moved := nodes.modifyFirst (fun n => n.path == fromRel) fun n => { n with path := toRel }
      if (nodes.find? fun n => n.path == fromRel).any (·.kind == .directory) then
        moved.map (reroot fromRel toRel)
      else moved
  | .write rel data =>
      if (findNode nodes rel).isNone then nodes ++ [{ path := rel, kind := .file, data := data }]
      else nodes.modifyFirst (fun n => n.path == rel) fun n => { n with data := data }

theorem normal_fixed (h : Normal rel) : normalizePath rel = rel := by
  obtain ⟨ds, hds, rfl⟩ := h
  exact normalizePath_absolute hds

theorem findNode_normal (h : Normal rel) (nodes : List FsNode) :
    findNode nodes rel = nodes.find? fun n => n.path == rel := by
  rw [findNode, normal_fixed h]

/-- The call changes the list when its checks pass, and otherwise fails without a trace. -/
def TreeCall.ChecksFirst (nodes : List FsNode) (call : TreeCall) : Prop :=
  (call.Checks nodes ∧ call.run nodes = (.ok (), call.after nodes)) ∨
    (¬call.Checks nodes ∧ ∃ e, call.run nodes = (.error e, nodes))

theorem createIn_cases (kind : FsNodeKind) (rel : Str) (nodes : List FsNode) :
    TreeCall.ChecksFirst nodes (.create kind rel) := by
  simp only [TreeCall.ChecksFirst, TreeCall.run, createIn, TreeCall.Checks]
  cases hf : findNode nodes rel with
  | some n => exact .inr ⟨fun h => (nomatch h.1), _, rfl⟩
  | none =>
    simp only [isSome_none]
    cases hp : ensureParentDir nodes rel with
    | error e => exact .inr ⟨fun h => (nomatch h.2), e, rfl⟩
    | ok u => exact .inl ⟨⟨trivial, rfl⟩, rfl⟩

theorem deleteIn_cases (rel : Str) (nodes : List FsNode) : TreeCall.ChecksFirst nodes (.delete rel) := by
  simp only [TreeCall.ChecksFirst, TreeCall.run, deleteIn, TreeCall.Checks]
  cases hf : nodes.find? fun n => n.path == rel with
  | none => exact .inr ⟨fun ⟨_, h, _⟩ => (nomatch h), _, rfl⟩
  | some n =>
    simp only [some.injEq, exists_eq_left']
    by_cases hd : n.kind = .directory ∧ nodes.any (fun m => m.path != rel && isChildOf rel m.path) = true
    · exact .inr ⟨fun h => h hd, _, by rw [if_pos hd]⟩
    · exact .inl ⟨hd, by rw [if_neg hd]; rfl⟩

theorem renameIn_cases (fromRel toRel : Str) (nodes : List FsNode) :
    TreeCall.ChecksFirst nodes (.rename fromRel toRel) := by
  simp only [TreeCall.ChecksFirst, TreeCall.run, renameIn, TreeCall.Checks, TreeCall.after]
  cases hp : ensureParentDir nodes toRel with
  | error e => exact .inr ⟨fun h => (nomatch h.1), e, rfl⟩
  | ok u =>
    cases ht : findNode nodes toRel with
    | some n => exact .inr ⟨fun h => (nomatch h.2.1), _, rfl⟩
    | none =>
      simp only [isSome_none, Bool.false_eq_true, if_false]
      cases hf : nodes.find? fun n => n.path == fromRel with
      | none => exact .inr ⟨fun ⟨_, _, h⟩ => (nomatch h), _, rfl⟩
      | some n =>
        -- the old path the source keeps of the node is the one it was found by
        have hpath : n.path = fromRel := by simpa using find?_some hf
        refine .inl ⟨⟨trivial, trivial, rfl⟩, ?_⟩
        simp only [hpath, any_some, beq_iff_eq]
        split <;> rfl

theorem writeIn_cases (hrel : Normal rel) (data : List UInt8) (nodes : List FsNode) :
    TreeCall.ChecksFirst nodes (.write rel data) := by
  simp only [TreeCall.ChecksFirst, TreeCall.run, writeIn, TreeCall.Checks, TreeCall.after]
  cases hf : findNode nodes rel with
  | none =>
    simp only [isNone_none, if_true]
    cases hp : ensureParentDir nodes rel with
    | error e =>
      refine .inr ⟨?_, e, rfl⟩
      rintro (⟨-, h⟩ | ⟨n, h, -⟩)
      · cases h
      · cases h
    | ok u =>
      -- the node just added is the one found, and the only one with this path
      have hnone : ∀ n ∈ nodes, (n.path == rel) = false := by
        rw [findNode_normal hrel] at hf
        exact fun n hn => by simpa using find?_eq_none.mp hf n hn
      have hself : (rel == rel) = true := beq_self_eq_true rel
      have hfound : findNode (nodes ++ [{ path := rel, kind := .file, data := [] }]) rel =
          some { path := rel, kind := .file, data := [] } := by
        rw [findNode_normal hrel, find?_append, ← findNode_normal hrel, hf, none_or,
          find?_cons_of_pos (by exact hself)]
      simp only [hfound, normal_fixed hrel]
      rw [modifyFirst_append_cons hnone hself]
      exact .inl ⟨Or.inl ⟨trivial, trivial⟩, rfl⟩
  | some n =>
    simp only [isNone_some, Bool.false_eq_true, if_false, hf, normal_fixed hrel]
    by_cases hk : n.kind = .file
    · rw [if_neg (not_not_intro hk)]
      exact .inl ⟨Or.inr ⟨n, rfl, hk⟩, rfl⟩
    · rw [if_pos hk]
      refine .inr ⟨?_, _, rfl⟩
      rintro (⟨h, -⟩ | ⟨m, h, hm⟩)
      · cases h
      · exact hk (some.inj h ▸ hm)

/-- **A change happens when its checks pass, and otherwise nothing does.** -/
theorem run_cases {call : TreeCall} (hc : call.Resolved) (nodes : List FsNode) :
    (call.Checks nodes ∧ call.run nodes = (.ok (), call.after nodes)) ∨
    (¬call.Checks nodes ∧ ∃ e, call.run nodes = (.error e, nodes)) := by
  cases call with
  | create kind rel => exact createIn_cases kind rel nodes
  | delete rel => exact deleteIn_cases rel nodes
  | rename fromRel toRel => exact renameIn_cases fromRel toRel nodes
  | write rel data => exact writeIn_cases hc data nodes

end Saios.Storage
