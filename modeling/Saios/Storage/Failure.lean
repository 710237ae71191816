/-
  FAILED CALLS AND WHAT THEY LEAVE.

  1. **Sizes** — the on-disk size of a node list is a sum over its nodes (`length_serializeTree`), so
     whether the list a call would leave fits the partition can be read off the list it finds
     (`fits_iff`).

  2. **What a failed call leaves** — the driver changes the node list, or the volume's filesystem, BEFORE
     the last step that can fail, and does not undo it.  `Clean` says, on the state before a call, that
     this does not happen; it is exactly when a failed call leaves node lists, volumes and disk bytes
     alone (`failed_call_keeps_data_iff`).
-/
import Saios.Storage.TreeSafety

namespace Saios.Storage

open Bytes Path List Option

/-! ## Sizes -/

/-- The bytes a node takes on disk. -/
def nodeSize (n : FsNode) : Nat := 7 + (utf8 n.path).length + n.data.length

def treeSize (nodes : List FsNode) : Nat := 16 + (nodes.map nodeSize).sum

theorem length_serializeNode (n : FsNode) : (serializeNode n).length = nodeSize n := by
  simp only [serializeNode, nodeSize, length_append, length_singleton, length_leBytes]

theorem length_serializeTree (nodes : List FsNode) : (serializeTree nodes).length = treeSize nodes := by
  simp only [serializeTree, treeSize, length_append, length_fatStoreMagic, length_leBytes,
    length_flatMap, length_serializeNode]

/-- How many paths a rename lengthens or shortens: the node itself and, for a directory, what is below
    it — twice the node itself when it is moved below itself. -/
def renamed (fromRel toRel : Str) (nodes : List FsNode) : Nat :=
  if (nodes.find? fun n => n.path == fromRel).any (·.kind == .directory) then
    1 + nodes.countP (fun n => n.path != fromRel && isChildOf fromRel n.path) +
      (if isChildOf fromRel toRel then 1 else 0)
  else 1

/-- The list the call would leave fits the partition, by the sizes of the list it finds. -/
def TreeCall.Fits (nodes : List FsNode) : TreeCall → Prop
  | .create _ rel => treeSize nodes + (7 + (utf8 rel).length) ≤ partCapacity
  | .delete rel => treeSize nodes ≤ partCapacity + ((nodes.find? fun n => n.path == rel).map nodeSize).getD 0
  | .rename fromRel toRel => treeSize nodes + renamed fromRel toRel nodes * (utf8 toRel).length ≤
      partCapacity + renamed fromRel toRel nodes * (utf8 fromRel).length
  | .write rel data => treeSize nodes + data.length +
      (if (findNode nodes rel).isNone then 7 + (utf8 rel).length else 0) ≤
      partCapacity + ((findNode nodes rel).map fun n => n.data.length).getD 0

theorem treeSize_append (nodes : List FsNode) (n : FsNode) :
    treeSize (nodes ++ [n]) = treeSize nodes + nodeSize n := by
  simp only [treeSize, map_append, map_cons, map_nil, sum_append, sum_cons,
    sum_nil]
  omega

section first

variable {nodes : List FsNode} {p : FsNode → Bool} {n : FsNode} (h : nodes.find? p = some n)

include h

theorem treeSize_modifyFirst (f : FsNode → FsNode) :
    treeSize (nodes.modifyFirst p f) + nodeSize n = treeSize nodes + nodeSize (f n) := by
  obtain ⟨hp, l1, l2, rfl, hbefore⟩ := find?_split h
  rw [modifyFirst_append_cons hbefore hp]
  simp only [treeSize, map_append, map_cons, sum_append, sum_cons]
  omega

theorem treeSize_eraseP : treeSize (nodes.eraseP p) + nodeSize n = treeSize nodes := by
  obtain ⟨hp, l1, l2, rfl, hbefore⟩ := find?_split h
  rw [eraseP_append_right _ fun b hb => by rw [hbefore b hb]; decide, eraseP_cons_of_pos hp]
  simp only [treeSize, map_append, map_cons, sum_append, sum_cons]
  omega

theorem countP_modifyFirst (q : FsNode → Bool) (f : FsNode → FsNode) :
    (nodes.modifyFirst p f).countP q + (if q n then 1 else 0) =
      nodes.countP q + (if q (f n) then 1 else 0) := by
  obtain ⟨hp, l1, l2, rfl, hbefore⟩ := find?_split h
  rw [modifyFirst_append_cons hbefore hp]
  simp only [countP_append, countP_cons]
  omega

end first

theorem isPrefix_of_isChildOf {parent path : Str} (h : isChildOf parent path = true) : parent <+: path := by
  unfold isChildOf at h
  split at h
  · rename_i hroot
    rw [hroot]
    cases path with
    | nil => cases h
    | cons c path =>
      obtain rfl : c = '/' := by simpa using h
      exact ⟨path, rfl⟩
  · rw [Bool.and_eq_true] at h
    exact isPrefixOf_iff_prefix.mp h.1

/-- The loop over the descendants lengthens each path it changes by the same amount. -/
theorem treeSize_reroot (fromRel toRel : Str) (nodes : List FsNode) :
    treeSize (nodes.map (reroot fromRel toRel)) +
        nodes.countP (fun n => n.path != fromRel && isChildOf fromRel n.path) * (utf8 fromRel).length =
      treeSize nodes +
        nodes.countP (fun n => n.path != fromRel && isChildOf fromRel n.path) * (utf8 toRel).length := by
  induction nodes with
  | nil => simp only [countP_nil, Nat.zero_mul, map_nil]
  | cons n nodes ih =>
    have hhead : nodeSize (reroot fromRel toRel n) +
        (if (n.path != fromRel && isChildOf fromRel n.path) = true then 1 else 0) * (utf8 fromRel).length =
        nodeSize n +
        (if (n.path != fromRel && isChildOf fromRel n.path) = true then 1 else 0) * (utf8 toRel).length := by
      by_cases hc : n.path ≠ fromRel ∧ isChildOf fromRel n.path = true
      · obtain ⟨rest, hrest⟩ := isPrefix_of_isChildOf hc.2
        rw [reroot, if_pos hc, if_pos (by rw [Bool.and_eq_true, bne_iff_ne]; exact hc)]
        simp only [nodeSize]
        rw [← hrest, drop_left]
        simp only [utf8, flatMap_append, length_append]
        omega
      · rw [reroot, if_neg hc, if_neg (by rw [Bool.and_eq_true, bne_iff_ne]; exact hc)]
        omega
    simp only [treeSize, map_cons, sum_cons, countP_cons, Nat.add_mul] at ih hhead ⊢
    omega

variable {nodes : List FsNode}

/-- **Whether the new list fits shows on the old one.** -/
theorem fits_iff {call : TreeCall} (hres : call.Resolved) (hchecks : call.Checks nodes) :
    (serializeTree (call.after nodes)).length ≤ partCapacity ↔ call.Fits nodes := by
  rw [length_serializeTree]
  cases call with
  | create kind rel =>
    simp only [TreeCall.after]
    rw [treeSize_append]
    exact Iff.rfl
  | delete rel =>
    obtain ⟨n, hn, -⟩ := hchecks
    have hsize := treeSize_eraseP hn
    simp only [TreeCall.after, TreeCall.Fits, hn, map_some, getD_some]
    omega
  | write rel data =>
    simp only [TreeCall.after, TreeCall.Fits]
    rw [findNode_normal hres]
    cases hf : nodes.find? fun n => n.path == rel with
    | none =>
      simp only [isNone_none, if_true, map_none, getD_none]
      rw [treeSize_append]
      simp only [nodeSize]
      omega
    | some n =>
      have hsize := treeSize_modifyFirst hf fun n => { n with data := data }
      simp only [nodeSize] at hsize
      simp only [isNone_some, Bool.false_eq_true, if_false, map_some, getD_some]
      omega
  | rename fromRel toRel =>
    obtain ⟨-, hfree, hsome⟩ := hchecks
    obtain ⟨n, hn⟩ := isSome_iff_exists.mp hsome
    have hpath : n.path = fromRel := by simpa using find?_some hn
    have hne : toRel ≠ fromRel := by
      rintro rfl
      rw [findNode_normal hres.2, hn] at hfree
      cases hfree
    have hsize := treeSize_modifyFirst hn fun n => { n with path := toRel }
    simp only [nodeSize, hpath] at hsize
    simp only [TreeCall.after, TreeCall.Fits, renamed]
    split
    · -- each path at or below the source is changed once, the new one once more if it is below
      have hcount := countP_modifyFirst hn (fun m => m.path != fromRel && isChildOf fromRel m.path)
        fun n => { n with path := toRel }
      have hreroot := treeSize_reroot fromRel toRel
        (nodes.modifyFirst (fun n => n.path == fromRel) fun n => { n with path := toRel })
      simp only [hpath, bne_self_eq_false, Bool.false_and, Bool.false_eq_true, if_false, Nat.add_zero,
        bne_iff_ne.mpr hne, Bool.true_and] at hcount
      rw [hcount] at hreroot
      rw [Nat.add_assoc, Nat.add_mul 1, Nat.add_mul 1]
      omega
    · omega

/-! ## What is kept -/

/-- The node lists, the volume table and the bytes of all disks are the same. -/
def Kept (st st' : StorageState) : Prop :=
  st'.mounted = st.mounted ∧ st'.volumes = st.volumes ∧
    st'.disks.map (fun d => (d.name, d.block.bytes)) = st.disks.map fun d => (d.name, d.block.bytes)

theorem Kept.refl (st : StorageState) : Kept st st := ⟨rfl, rfl, rfl⟩

/-- A write of the data that is already in the file. -/
def TreeCall.Repeats (nodes : List FsNode) : TreeCall → Prop
  | .write rel data => ∃ n, findNode nodes rel = some n ∧ n.data = data
  | _ => False

theorem modifyFirst_eq_self_iff {p : FsNode → Bool} {n : FsNode} (h : nodes.find? p = some n)
    (f : FsNode → FsNode) : nodes.modifyFirst p f = nodes ↔ f n = n := by
  obtain ⟨hp, l1, l2, rfl, hbefore⟩ := find?_split h
  rw [modifyFirst_append_cons hbefore hp]
  simp

/-- The renamed node is not where it was, also when the loop over the descendants moves it once more. -/
theorem reroot_moved_path {fromRel toRel : Str} (hne : toRel ≠ fromRel) (n : FsNode) :
    (reroot fromRel toRel { n with path := toRel }).path ≠ fromRel := by
  unfold reroot
  split
  · rename_i hchild
    obtain ⟨rest, hrest⟩ := isPrefix_of_isChildOf hchild.2
    intro heq
    have hlen := congrArg List.length heq
    have hto := congrArg List.length hrest
    simp only [length_append] at hlen hto
    have hnil : rest = [] := length_eq_zero_iff.mp (by omega)
    rw [hnil, append_nil] at hrest
    exact hne hrest.symm
  · exact hne

/-- A call that passes its checks changes the list, unless it writes what is there. -/
theorem after_eq_iff {call : TreeCall} (hres : call.Resolved) (hchecks : call.Checks nodes) :
    call.after nodes = nodes ↔ call.Repeats nodes := by
  cases call with
  | create kind rel =>
    refine ⟨fun heq => ?_, fun hf => hf.elim⟩
    have hlen := congrArg List.length heq
    simp [TreeCall.after] at hlen
  | delete rel =>
    obtain ⟨n, hn, -⟩ := hchecks
    refine ⟨fun heq => ?_, fun hf => hf.elim⟩
    have hlen := congrArg treeSize heq
    have hsize := treeSize_eraseP hn
    simp only [TreeCall.after] at hlen
    simp only [nodeSize] at hsize
    omega
  | rename fromRel toRel =>
    obtain ⟨-, hfree, hsome⟩ := hchecks
    obtain ⟨n, hn⟩ := isSome_iff_exists.mp hsome
    have hne : toRel ≠ fromRel := by
      rintro rfl
      rw [findNode_normal hres.2, hn] at hfree
      cases hfree
    have hpath : n.path = fromRel := by simpa using find?_some hn
    refine ⟨fun heq => ?_, fun hf => hf.elim⟩
    simp only [TreeCall.after] at heq
    split at heq
    · -- look at the place of the renamed node
      obtain ⟨hp, l1, l2, rfl, hbefore⟩ := find?_split hn
      rw [modifyFirst_append_cons hbefore hp, map_append] at heq
      obtain ⟨-, hrest⟩ := append_inj heq (length_map _)
      have hnode := (cons.inj hrest).1
      exact reroot_moved_path hne n (by rw [hnode, hpath])
    · have hnode := (modifyFirst_eq_self_iff hn _).mp heq
      rw [← hnode] at hpath
      exact hne hpath
  | write rel data =>
    rw [TreeCall.Repeats]
    simp only [TreeCall.after]
    rw [findNode_normal hres]
    cases hf : nodes.find? fun n => n.path == rel with
    | none =>
      constructor
      · intro heq
        have hlen := congrArg List.length heq
        simp at hlen
      · rintro ⟨n, hn, -⟩
        cases hn
    | some n =>
      simp only [isNone_some, Bool.false_eq_true, if_false]
      rw [modifyFirst_eq_self_iff hf]
      constructor
      · exact fun hnode => ⟨n, rfl, by rw [← hnode]⟩
      · rintro ⟨m, hm, rfl⟩
        rw [some.inj hm]

theorem DiskDevice.Standard.store_eq_iff {d : DiskDevice} (h : d.Standard) (bytes : List UInt8) :
    (d.store bytes).bytes = d.block.bytes ↔ d.image = fit partCapacity bytes := by
  have hinside := Partition.fit_inside h.sized h.inside bytes
  constructor
  · intro heq
    rw [← h.image_store, DiskDevice.image, DiskDevice.image, Partition.slice, Partition.slice, heq]
    rfl
  · intro heq
    rw [← h.capacity] at heq
    show patch _ (fit _ bytes) _ = _
    rw [← heq]
    exact patch_slice (by rw [length_fit] at hinside; exact hinside)

/-- What an update and its save keep. -/
theorem Wired.kept_update_iff {st : StorageState} (h : Wired st) {key : Str} {d : DiskDevice}
    (ht : treeAt st key = some nodes) (hd : diskAt st key = some d) (nodes' : List FsNode)
    (bytes : List UInt8) :
    Kept st (setDisk (setTree st key nodes') key (d.store bytes)) ↔
      nodes' = nodes ∧ d.image = fit partCapacity bytes := by
  obtain ⟨m, hm, hkey, rfl⟩ := mem_of_treeAt ht
  obtain ⟨hmem, hpart⟩ := h.disk_iff.mp hd
  have hdisks : (setDisk (setTree st key nodes') key (d.store bytes)).disks.map
      (fun d => (d.name, d.block.bytes)) = st.disks.map (fun d => (d.name, d.block.bytes)) ↔
      d.image = fit partCapacity bytes := by
    rw [← (h.standard d hmem).store_eq_iff]
    show (Keyed.change _ _ _ st.disks).map _ = _ ↔ _
    rw [Keyed.change, List.map_map, map_inj_left]
    constructor
    · intro hall
      have hone := hall d hmem
      rw [Function.comp_apply, if_pos hpart] at hone
      exact (Prod.mk.inj hone).2
    · intro heq d' hd'
      rw [Function.comp_apply]
      split
      · rename_i hk
        rw [h.disks.eq hd' hmem (hk.trans hpart.symm), heq]
      · rfl
  constructor
  · rintro ⟨hmounted, -, hbytes⟩
    refine ⟨?_, hdisks.mp hbytes⟩
    have htree := treeAt_setTree st key key nodes'
    rw [if_pos rfl] at htree
    have hsame : treeAt (setTree st key nodes') key = treeAt st key := by
      exact congrArg (fun l => (Keyed.get MountedFs.key l key).map MountedFs.nodes) hmounted
    rw [htree, ht] at hsame
    exact some.inj hsame
  · rintro ⟨rfl, himage⟩
    refine ⟨?_, rfl, hdisks.mpr himage⟩
    rw [← hkey]
    exact h.trees.change_self hm rfl

/-! ## The condition -/

/-- The calls this is about. -/
def Op.Changes : Op → Prop
  | .formatVolume _ _ => True
  | op => op.Writes

/-- The new list fits, or it is the old one and the partition already holds as much of it as it can. -/
def UpdateClean (st : StorageState) (op : Op) : Prop :=
  ∀ V call nodes, op.treeCall st = some (V, .fat32, call) → treeAt st (foldCase V) = some nodes →
    call.Checks nodes → call.Fits nodes ∨
      (call.Repeats nodes ∧ ∀ d, diskAt st (foldCase V) = some d →
        d.image = fit partCapacity (serializeTree nodes))

/-- On the state before: if the call gets past its checks, nothing is left that makes it fail after it
    changed something. -/
def Clean (st : StorageState) : Op → Prop
  | .formatVolume name fs => fs = .fat32 → ∀ v, findVolume st name = some v → v.mountedAt = none →
      v.filesystem = .fat32 ∨ ∃ owner, resolveVolumeOwner st name = .ok owner
  | op => UpdateClean st op

def Fails (st : StorageState) (op : Op) : Prop := ∃ e, (exec st op).1 = .failed e

section failed

variable {st : StorageState} (h : Wired st)

include h

/-- The writing calls. -/
theorem Wired.writes_keep_iff {op : Op} (hw : op.Writes) :
    (Fails st op → Kept st (step st op)) ↔ UpdateClean st op := by
  by_cases hgo : ∃ V call nodes, op.treeCall st = some (V, .fat32, call) ∧
      treeAt st (foldCase V) = some nodes ∧ call.Checks nodes
  swap
  · -- the call changes nothing
    refine ⟨fun _ V call nodes hcall ht hchecks => absurd ⟨V, call, nodes, hcall, ht, hchecks⟩ hgo,
      fun _ _ => ?_⟩
    rcases h.exec_writes hw with ⟨e, he⟩ | ⟨v, call, nodes, d, hcall, -, -, -, -, ht, -, hchecks, -⟩
    · rw [step, he]
      exact Kept.refl st
    · exact absurd ⟨v.name, call, nodes, hcall, ht, hchecks⟩ hgo
  obtain ⟨V, call, nodes, hcall, ht, hchecks⟩ := hgo
  obtain ⟨-, hres, -⟩ := exec_treeCall hcall
  obtain ⟨d, hd, hexec⟩ := h.exec_update hcall ht hchecks
  have hclean : UpdateClean st op ↔ (call.Fits nodes ∨
      (call.Repeats nodes ∧ d.image = fit partCapacity (serializeTree nodes))) := by
    constructor
    · intro hall
      rcases hall V call nodes hcall ht hchecks with hfit | ⟨hrep, himage⟩
      · exact .inl hfit
      · exact .inr ⟨hrep, himage d hd⟩
    · intro hone V' call' nodes' hcall' ht' _
      rw [hcall] at hcall'
      cases hcall'
      rw [ht] at ht'
      cases ht'
      refine hone.imp_right fun hboth => ⟨hboth.1, fun d' hd' => ?_⟩
      rw [hd] at hd'
      cases hd'
      exact hboth.2
  rw [hclean]
  by_cases hfit : call.Fits nodes
  · rw [if_pos ((fits_iff hres hchecks).mpr hfit)] at hexec
    refine ⟨fun _ => .inl hfit, fun _ hfail => ?_⟩
    obtain ⟨e, he⟩ := hfail
    rw [hexec] at he
    cases he
  · rw [if_neg (fun hle => hfit ((fits_iff hres hchecks).mp hle))] at hexec
    have hfails : Fails st op := ⟨_, by rw [hexec]; rfl⟩
    have hkept := h.kept_update_iff ht hd (call.after nodes) (serializeTree (call.after nodes))
    have hstep : step st op = setDisk (setTree st (foldCase V) (call.after nodes)) (foldCase V)
        (d.store (serializeTree (call.after nodes))) := by rw [step, hexec]; rfl
    rw [hstep, hkept, after_eq_iff hres hchecks]
    constructor
    · intro hall
      obtain ⟨hrep, himage⟩ := hall hfails
      rw [(after_eq_iff hres hchecks).mpr hrep] at himage
      exact .inr ⟨hrep, himage⟩
    · rintro (hyes | ⟨hrep, himage⟩) _
      · exact absurd hyes hfit
      · rw [(after_eq_iff hres hchecks).mpr hrep]
        exact ⟨hrep, himage⟩

/-- Formatting. -/
theorem Wired.format_keeps_iff (name : Str) (fs : FilesystemKind) :
    (Fails st (.formatVolume name fs) → Kept st (step st (.formatVolume name fs))) ↔
      Clean st (.formatVolume name fs) := by
  by_cases hno : ∀ v, findVolume st name = some v → v.mountedAt ≠ none
  · obtain ⟨e, he⟩ := formatVolume_refused hno fs
    refine ⟨fun _ _ v hfind hfree => absurd hfree (hno v hfind), fun _ _ => ?_⟩
    rw [step, exec, he]
    exact Kept.refl st
  push Not at hno
  obtain ⟨v, hfind, hfree⟩ := hno
  obtain ⟨hv, hkey⟩ : v ∈ st.volumes ∧ v.key = foldCase name := Keyed.mem_of_get hfind
  have hsucceeds : ∀ st', formatVolume st name fs = (.ok (), st') → ¬Fails st (.formatVolume name fs) := by
    rintro st' hok ⟨e, he⟩
    rw [exec, hok] at he
    cases he
  rcases h.formatVolume_free hfind hfree fs with ⟨hfs, he⟩ | ⟨hfs, hd, he⟩ | ⟨d, hfs, hd, he⟩
  · exact ⟨fun _ hfat => absurd hfat hfs, fun _ hfail => absurd hfail (hsucceeds _ he)⟩
  · -- the filesystem is changed, and then there is no partition to write to
    have hnone : ¬∃ owner, resolveVolumeOwner st name = .ok owner := by
      rintro ⟨owner, howner⟩
      rw [h.owner_eq, ← hkey, hd] at howner
      cases howner
    have hstep : step st (.formatVolume name fs) = setVolume st v.key (DetectedVolume.formatAs fs) := by
      rw [step, exec, he]; rfl
    rw [hstep]
    constructor
    · intro hkept _ v' hfind' _
      rw [hfind] at hfind'
      cases hfind'
      have hvolumes : (setVolume st v.key (DetectedVolume.formatAs fs)).volumes = st.volumes :=
        (hkept ⟨_, by rw [exec, he]; rfl⟩).2.1
      have hat := volumeAt_formatAs st v.key v.key fs
      rw [if_pos rfl, volumeAt, hvolumes, (h.volume_iff.mpr ⟨hv, rfl⟩ : volumeAt st v.key = some v)] at hat
      have hsame : Keyed.get DetectedVolume.key st.volumes v.key = some v := h.volume_iff.mpr ⟨hv, rfl⟩
      rw [hsame] at hat
      left
      rw [some.inj hat, DetectedVolume.formatAs, hfs]
    · intro hclean _
      rcases hclean hfs v hfind hfree with hfat | howner
      · refine ⟨rfl, ?_, rfl⟩
        exact h.volumes.change_self hv (by rw [DetectedVolume.formatAs, hfs, ← hfat])
      · exact absurd howner hnone
  · refine ⟨fun _ _ _ _ _ => .inr ⟨_, by rw [h.owner_eq, ← hkey, hd]⟩,
      fun _ hfail => absurd hfail (hsucceeds _ he)⟩

end failed

/-- **A failed call leaves node lists, volumes and disk bytes alone exactly when it is clean.** -/
theorem failed_call_keeps_data_iff (st : StorageState) (hst : Reachable st) (op : Op) (hop : op.Changes) :
    (Fails st op → Kept st (step st op)) ↔ Clean st op := by
  have hw := wired_reachable hst
  cases op with
  | formatVolume name fs => exact hw.format_keeps_iff name fs
  | fsCreate path | fsMkdir path | fsDelete path | fsRename source target | fsWrite path data =>
    exact hw.writes_keep_iff trivial
  | _ => exact hop.elim

/-- A directory made where one exists: the call is clean, so its failure leaves no trace. -/
theorem failed_call_keeps_data_iff_exists :
    Reachable (step (init [ahci]) mountAhci) ∧ (Op.fsMkdir "/mnt/boot".toList).Changes ∧
      ((Fails (step (init [ahci]) mountAhci) (.fsMkdir "/mnt/boot".toList) →
        Kept (step (init [ahci]) mountAhci)
          (step (step (init [ahci]) mountAhci) (.fsMkdir "/mnt/boot".toList))) ↔
      Clean (step (init [ahci]) mountAhci) (.fsMkdir "/mnt/boot".toList)) := by
  have hop : (Op.fsMkdir "/mnt/boot".toList).Changes := trivial
  exact ⟨reachable_mounted, hop, failed_call_keeps_data_iff _ reachable_mounted _ hop⟩

/-- Formatting the whole disk as FAT32 fails, but the volume table says FAT32 afterwards. -/
theorem format_fails_after_change : Reachable (init [ahci]) ∧
    Fails (init [ahci]) (.formatVolume "disk0".toList .fat32) ∧
    (step (init [ahci]) (.formatVolume "disk0".toList .fat32)).volumes ≠ (init [ahci]).volumes := by
  have hfind : findVolume (init [ahci]) "disk0".toList = some (ahciVolumes none)[1] := by
    rw [findVolume, volumes_ahci]; decide
  refine ⟨⟨[ahci], [], List.foldl_nil.symm⟩, ?_⟩
  rcases (wired_init [ahci]).formatVolume_free hfind rfl .fat32 with ⟨hfs, -⟩ | ⟨-, -, he⟩ | ⟨d, -, hd, -⟩
  · exact absurd rfl hfs
  · refine ⟨⟨_, by rw [exec, he]; rfl⟩, ?_⟩
    rw [step, exec, he]
    decide
  · cases hd

end Saios.Storage
