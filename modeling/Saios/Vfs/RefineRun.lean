/-
  THE VFS REFINES A MAP, over whole runs.

  1. **Meaning** — `absExec` is what a call means on the map, with `none` for a call that is undefined
     there.  A path string means a list of names: its components, behind those of the working directory
     unless it starts with a slash.

  2. **Calls** (`exec_refines`) — the VFS succeeds exactly when the call is defined and replies what the
     map gives.  `read_path` and `write_path` go through a descriptor that they close again, so between
     calls the descriptor table has at most one slot, and it is free.

  3. **Runs** (`vfs_refines_map`) — from the seeded tree, all replies of a run are those of the map,
     when no rename moves a node under a file or into its own subtree.  Without that the VFS says `Ok`
     where the map is undefined (`rename_below_file_succeeds`).
-/
import Saios.Vfs.Refine
import Saios.Vfs.Descriptors

namespace Saios.Vfs

open Path TmpFs List Option

/-! ## Meaning -/

/-- The contents of a slice: no more than `isize::MAX` bytes. -/
abbrev Slice := { data : List UInt8 // data.length < 2 ^ 63 }

/-- The calls that work on paths alone. -/
inductive PathCall
  | mkdir (path : Str)
  | touch (path : Str)
  | writePath (path : Str) (data : Slice)
  | readPath (path : Str)
  | unlink (path : Str)
  | rename (source target : Str)
  | cd (path : Str)
  | pwd
  | ls (path : Option Str)

def PathCall.toCall : PathCall → Call
  | .mkdir path => .mkdir path
  | .touch path => .touch path
  | .writePath path data => .writePath path data.1
  | .readPath path => .readPath path
  | .unlink path => .unlink path
  | .rename source target => .rename source target
  | .cd path => .cd path
  | .pwd => .pwd
  | .ls path => .ls path

/-- The reply with the error text forgotten. -/
def Reply.outcome : Reply → Option Reply
  | .failed _ => none
  | r => some r

/-- The result of a map operation: an undefined one changes nothing. -/
def commit (s : Shell Str (List UInt8)) :
    Option (Shell Str (List UInt8)) → Option Reply × Shell Str (List UInt8)
  | some s' => (some .done, s')
  | none => (none, s)

/-- What a call means on the map. -/
noncomputable def absExec (s : Shell Str (List UInt8)) :
    PathCall → Option Reply × Shell Str (List UInt8)
  | .mkdir path => commit s (s.make (absComps s.cwd path) .dir)
  | .touch path => commit s (s.make (absComps s.cwd path) (.file []))
  | .writePath path data => commit s (s.write (absComps s.cwd path) data.1)
  | .readPath path => ((s.map.read (absComps s.cwd path)).map .bytes, s)
  | .unlink path => commit s (s.remove (absComps s.cwd path))
  | .rename source target => commit s (s.rename (absComps s.cwd source) (absComps s.cwd target))
  | .cd path => commit s (s.cd (absComps s.cwd path))
  | .pwd => (some (.path (absolute s.cwd)), s)
  | .ls none => ((s.map.list s.cwd).map .names, s)
  | .ls (some path) => ((s.map.list (absComps s.cwd path)).map .names, s)

/-! ## The condition on a call -/

/-- The path lies outside `/sys` and `/dev`. -/
def Outside (w : World) (path : Str) : Prop :=
  ∀ abs, w.vfs.fs.normalizedPath path = some abs →
    (components abs).head? ≠ some "sys".toList ∧ (components abs).head? ≠ some "dev".toList

/-- A path without `.` and `..` that lies outside `/sys` and `/dev`. -/
def Ordinary (w : World) (path : Str) : Prop := Plain path ∧ Outside w path

def Covered (w : World) : PathCall → Prop
  | .mkdir path | .touch path | .writePath path _ | .readPath path | .unlink path | .cd path
  | .ls (some path) => Ordinary w path
  | .rename source target => Ordinary w source ∧ Ordinary w target ∧ RenameAllowed w source target
  | .ls none => Outside w ['.']
  | .pwd => True

/-! ## Calls -/

/-- No descriptor is open. -/
def Idle (files : List (Option OpenFile)) : Prop := files = [] ∨ files = [none]

/-- Every file has the length of a slice. -/
def Small (m : PathMap Str (List UInt8)) : Prop := ∀ p d, m p = some (.file d) → d.length < 2 ^ 63

/-- The world between calls, seen as a map. -/
structure Refines (w : World) (s : Shell Str (List UInt8)) : Prop where
  fs : Matches w.vfs.fs s
  noVolume : NoVolumeMounted w.storage
  idle : Idle w.vfs.openFiles
  small : Small s.map

variable {m : PathMap Str (List UInt8)}

theorem small_update (h : Small m) {p : List Str} {entry : Option (Entry (List UInt8))}
    (he : ∀ d, entry = some (.file d) → d.length < 2 ^ 63) :
    Small (Function.update m p entry) := by
  intro q d hq
  by_cases hqp : q = p
  · rw [hqp, Function.update_self] at hq; exact he d hq
  · rw [Function.update_of_ne hqp] at hq; exact h q d hq

theorem small_moved (h : Small m) (p q : List Str) :
    Small (m.moved p q) := by
  intro r d hr
  unfold PathMap.moved at hr
  split at hr
  · exact h _ d hr
  split at hr
  · cases hr
  · exact h r d hr

/-- A path outside `/sys` and `/dev` is neither under the one nor the other itself. -/
theorem outside_special {cs : List Str} (hcs : ∀ c ∈ cs, IsComp c)
    (hout : (components (absolute cs)).head? ≠ some "sys".toList ∧
      (components (absolute cs)).head? ≠ some "dev".toList) :
    isSysPath (absolute cs) = false ∧ absolute cs ≠ "/dev".toList := by
  rw [components_absolute hcs] at hout
  refine ⟨?_, fun heq => ?_⟩
  · by_contra hsys
    rw [Bool.not_eq_false, isSysPath, Bool.or_eq_true, beq_iff_eq] at hsys
    have hext : Extends (absolute ["sys".toList]) (absolute cs) := by
      rcases hsys with heq | hpre
      · exact ⟨[], by rw [heq]; rfl, Or.inl rfl⟩
      · obtain ⟨t, ht⟩ := isPrefixOf_iff_prefix.mp hpre
        exact ⟨'/' :: t, by rw [← ht]; rfl, Or.inr ⟨t, rfl⟩⟩
    have hpre := (extends_absolute (by decide) (by decide) hcs).mp hext
    obtain ⟨t, rfl⟩ := hpre
    exact hout.1 rfl
  · have hinj : cs = ["dev".toList] := absolute_inj hcs (by decide) heq
    rw [hinj] at hout
    exact hout.2 rfl

/-- The call returns, its reply is what the map gives, and the worlds correspond again. -/
def Agrees (o : Option (Reply × World)) (a : Option Reply × Shell Str (List UInt8)) : Prop :=
  ∃ r w', o = some (r, w') ∧ r.outcome = a.1 ∧ Refines w' a.2

section calls

variable {w : World} {s : Shell Str (List UInt8)} (h : Refines w s) {path : Str}

include h

/-- An operation of the tmpfs that simulates a map operation, as a call. -/
theorem Refines.commit {r : Except String Unit × TmpFs} {o : Option (Shell Str (List UInt8))}
    (hsim : Simulates w.vfs.fs r o) (hsmall : ∀ s', o = some s' → Small s'.map) :
    Agrees (some (reply (fun _ => .done) (w.viaFs r))) (commit s o) := by
  cases hsim with
  | ok hm => exact ⟨_, _, rfl, rfl, hm, h.noVolume, h.idle, hsmall _ rfl⟩
  | error e => exact ⟨_, _, rfl, rfl, h⟩

theorem Refines.isComp (hplain : Plain path) : ∀ c ∈ absComps s.cwd path, IsComp c := by
  intro c hc
  rcases mem_append.mp hc with hc | hc
  · split at hc
    · cases hc
    · exact (h.fs.rooted.nodeAt_isName h.fs.cwd c hc).1
  · exact (hplain.isName c hc).1

/-- The normalized form of an ordinary path is neither under `/sys` nor `/dev` itself. -/
theorem Refines.normalized (hord : Ordinary w path) :
    w.vfs.fs.normalizedPath path = some (absolute (absComps s.cwd path)) ∧
      isSysPath (absolute (absComps s.cwd path)) = false ∧
      absolute (absComps s.cwd path) ≠ "/dev".toList := by
  obtain ⟨hplain, hout⟩ := hord
  have hnorm := normalizedPath_plain h.fs.cwd h.fs.rooted hplain
  exact ⟨hnorm, outside_special (h.isComp hplain) (hout _ hnorm)⟩

theorem Refines.backed (p : Str) : isStorageBacked w p = false := not_storageBacked h.noVolume p

theorem createCall_refines (hord : Ordinary w path) (kind : FileType)
    (storageCall : Storage.StorageState → Str → Except String Unit × Storage.StorageState) :
    Agrees ((createCall storageCall (fun fs p => fs.createAs p kind) w path).map (reply fun _ => .done))
      (commit s (s.make (absComps s.cwd path) (kindEntry kind))) := by
  obtain ⟨hnorm, hsys, -⟩ := h.normalized hord
  have hcall : createCall storageCall (fun fs p => fs.createAs p kind) w path =
      some (w.viaFs (w.vfs.fs.createAs path kind)) := by
    unfold createCall
    simp only [hnorm, bind_eq_bind, bind_some, hsys, h.backed, Bool.false_eq_true, if_false]
  rw [hcall]
  refine h.commit (createAs_simulates h.fs hord.1 kind) fun s' hs' => ?_
  unfold Shell.make PathMap.make at hs'
  split at hs'
  · obtain rfl := some.inj hs'
    refine small_update h.small fun d hd => ?_
    cases kind with
    | directory => cases hd
    | file => cases hd; decide
  · cases hs'

theorem unlink_refines (hord : Ordinary w path) :
    Agrees ((unlink w path).map (reply fun _ => .done)) (commit s (s.remove (absComps s.cwd path))) := by
  obtain ⟨hnorm, hsys, -⟩ := h.normalized hord
  have hidle : ∀ i, Idle (invalidateInodeDescriptors w.vfs.openFiles i) := by
    intro i
    rcases h.idle with hi | hi
    · rw [hi]; exact .inl rfl
    · rw [hi]; exact .inr rfl
  have hsim := remove_simulates h.fs hord.1
  have hsmall : ∀ s', s.remove (absComps s.cwd path) = some s' → Small s'.map := by
    intro s' hs'
    unfold Shell.remove PathMap.remove at hs'
    obtain ⟨m, hm, rfl⟩ := map_eq_some_iff.mp hs'
    split at hm
    · obtain rfl := some.inj hm
      exact small_update h.small nofun
    · cases hm
  unfold unlink
  simp only [hnorm, bind_eq_bind, bind_some, hsys, h.backed]
  cases hr : w.vfs.fs.resolve path with
  | error e =>
    -- the map has nothing there either
    have hrem : w.vfs.fs.remove path = (.error e, w.vfs.fs) := by rw [remove, hr]
    rw [hrem] at hsim
    exact h.commit hsim hsmall
  | ok i =>
    have hopen : Refines (w.setOpenFiles (invalidateInodeDescriptors w.vfs.openFiles i)) s :=
      { h with idle := hidle i }
    exact hopen.commit hsim hsmall

theorem rename_refines {source target : Str} (hsource : Ordinary w source) (htarget : Ordinary w target)
    (hmov : RenameAllowed w source target) :
    Agrees ((rename w source target).map (reply fun _ => .done))
      (commit s (s.rename (absComps s.cwd source) (absComps s.cwd target))) := by
  obtain ⟨hnorm, hsys, -⟩ := h.normalized hsource
  obtain ⟨hnorm', hsys', -⟩ := h.normalized htarget
  have hcall : rename w source target = some (w.viaFs (w.vfs.fs.renamePath source target)) := by
    unfold rename
    simp only [hnorm, hnorm', bind_eq_bind, bind_some, hsys, hsys', h.backed, Bool.or_false,
      Bool.false_eq_true, if_false]
  rw [hcall]
  refine h.commit (renamePath_simulates h.fs hsource.1 htarget.1 fun i q name hs hi ht hl =>
    hmov _ _ i q name hnorm hnorm' hsys hsys' hs hi ht hl) fun s' hs' => ?_
  unfold Shell.rename PathMap.rename at hs'
  obtain ⟨m, hm, rfl⟩ := map_eq_some_iff.mp hs'
  split at hm
  · obtain rfl := some.inj hm
    exact small_moved h.small _ _
  · cases hm

theorem cd_refines (hplain : Plain path) :
    Agrees (some (reply (fun _ => .done) (cd w path))) (commit s (s.cd (absComps s.cwd path))) := by
  unfold cd Shell.cd
  rcases h.fs.resolve_cases hplain with ⟨⟨e, he⟩, hnone⟩ | ⟨i, n, hr, hi, hn, hentry⟩
  · rw [he, hnone]
    exact ⟨_, _, rfl, rfl, h⟩
  rw [hr, hentry]
  simp only [node_ok.mpr hn]
  by_cases hk : n.kind = .directory
  · rw [if_neg (not_not_intro hk), if_pos (congrArg some (Node.entry_dir.mpr hk))]
    exact ⟨_, _, rfl, rfl, ⟨rooted_cd h.fs.rooted hn hk, h.fs.map, hi⟩, h.noVolume, h.idle, h.small⟩
  · rw [if_pos hk, if_neg (fun hdir => hk (Node.entry_dir.mp (some.inj hdir)))]
    exact ⟨_, _, rfl, rfl, h⟩

theorem pwd_refines :
    Agrees ((pwd w).map fun path => (.path path, w)) (some (.path (absolute s.cwd)), s) := by
  rw [pwd, cwdPath, h.fs.rooted.pathForInode_eq h.fs.cwd]
  exact ⟨_, _, rfl, rfl, h⟩

/-- A listing as a reply. -/
theorem Refines.names {r : Except String (List Str)} {o : Option (List Str)} (hr : r.toOption = o) :
    Agrees (some (reply .names (r, w))) (o.map .names, s) := by
  subst hr
  cases r with
  | error e => exact ⟨_, _, rfl, rfl, h⟩
  | ok names => exact ⟨_, _, rfl, rfl, h⟩

theorem ls_refines (hord : Ordinary w path) :
    Agrees ((ls w (some path)).map (reply .names)) ((s.map.list (absComps s.cwd path)).map .names, s) := by
  obtain ⟨hnorm, hsys, hdev⟩ := h.normalized hord
  have hcall : ls w (some path) = some (w.vfs.fs.readdir path, w) := by
    unfold ls
    simp only [getD_some, hnorm, bind_eq_bind, bind_some, hsys, h.backed,
      Bool.false_eq_true, if_false]
    rw [if_neg hdev]
  rw [hcall]
  refine h.names (h.fs.list_eq (resolve_plain h.fs.cwd hord.1) ?_)
  split
  · -- the empty path is the working directory, as `resolve` has it
    rename_i hnil
    rw [hnil]; rfl
  · rfl

theorem ls_none_refines (hout : Outside w ['.']) :
    Agrees ((ls w none).map (reply .names)) ((s.map.list s.cwd).map .names, s) := by
  have hcomp : ∀ c ∈ s.cwd, IsComp c := fun c hc => (h.fs.rooted.nodeAt_isName h.fs.cwd c hc).1
  have hnorm := normalizedPath_dot h.fs.cwd h.fs.rooted
  obtain ⟨hsys, hdev⟩ := outside_special hcomp (hout _ hnorm)
  have hcall : ls w none = some (w.vfs.fs.readdir ['.'], w) := by
    unfold ls
    simp only [getD_none, hnorm, bind_eq_bind, bind_some, hsys, h.backed, Bool.false_eq_true, if_false]
    rw [if_neg hdev]
  rw [hcall]
  refine h.names (h.fs.list_eq ?_ rfl)
  exact h.fs.cwd.symm

end calls

/-! ## Whole files, through a descriptor -/

variable {files : List (Option OpenFile)}

/-- An idle table is idle again when its descriptor is closed. -/
theorem Idle.vacate (h : Idle files) : Idle (vacate files) := by
  rcases h with rfl | rfl <;> exact .inr rfl

theorem Idle.slot_lt (h : Idle files) : slot files < 2 ^ 32 := by
  rcases h with rfl | rfl <;> decide

variable {s : Shell Str (List UInt8)} {n : Node}

theorem Matches.setData {fs : TmpFs} (h : Matches fs s) {cs : List Str} {i : Nat} (hi : fs.nodeAt cs = some i)
    (hn : fs.get? i = some n) (hk : n.kind = .file) (data : List UInt8) :
    Matches (fs.setData i n data) { s with map := Function.update s.map cs (some (.file data)) } :=
  ⟨rooted_setData h.rooted hn data, by rw [absMap_setData hn data h.rooted hk hi, h.map],
    (nodeAt_setData hn data s.cwd).trans h.cwd⟩

/-- A node whose entry is not a directory is a file. -/
theorem Node.file_of_entry (h : n.entry ≠ .dir) : n.kind = .file := by
  cases hk : n.kind with
  | directory => exact absurd (Node.entry_dir.mpr hk) h
  | file => rfl

/-- A directory cannot be opened. -/
theorem openInode_dir {w : World} {i : Nat} (hn : w.vfs.fs.get? i = some n) (hk : n.kind = .directory)
    (options : OpenOptions) : openInode w i options = (.error "not a file", w) := by
  unfold openInode
  rw [node_ok.mpr hn]
  simp only
  rw [if_pos (by rw [hk]; decide)]

section files

variable {w : World} {s : Shell Str (List UInt8)} (h : Refines w s) {path : Str}
  (hord : Ordinary w path)

include h hord

theorem readPath_refines :
    Agrees ((readPath w path).map (reply .bytes)) ((s.map.read (absComps s.cwd path)).map .bytes, s) := by
  obtain ⟨hnorm, hsys, -⟩ := h.normalized hord
  have hcreate : createFor w path (absolute (absComps s.cwd path)) .readOnly = (.ok (), w) :=
    if_neg fun hcond => (nomatch hcond.1)
  obtain ⟨hmissing, hfound⟩ := openFile_created hnorm (writable_of_not_sys hsys _) (by decide) hcreate
  unfold readPath
  simp only [hnorm, bind_eq_bind, bind_some, hsys, h.backed]
  rcases h.fs.resolve_cases hord.1 with ⟨⟨e, he⟩, hnone⟩ | ⟨i, n, hr, hi, hn, hentry⟩
  · rw [hmissing e he, PathMap.read, hnone]
    exact ⟨_, _, rfl, rfl, h⟩
  rw [hfound i hr]
  cases hk : n.kind with
  | directory =>
    rw [openInode_dir hn hk, PathMap.read, hentry, Node.entry_dir.mpr hk]
    exact ⟨_, _, rfl, rfl, h⟩
  | file =>
    rw [Node.entry_file hk] at hentry
    obtain ⟨w1, w2, hopened, hread, hclose⟩ := read_file h.idle.slot_lt hn hk (h.small _ _ hentry)
    simp only [hopened, bind_some, hread, hclose]
    rw [PathMap.read, hentry]
    exact ⟨_, _, rfl, rfl, h.fs, h.noVolume, h.idle.vacate, h.small⟩

omit hord in
/-- The end of `write_path`, once the file exists. -/
theorem overwrite_refines {i : Nat} (hi : w.vfs.fs.nodeAt (absComps s.cwd path) = some i)
    (hn : w.vfs.fs.get? i = some n) (hk : n.kind = .file) (data : Slice) :
    ∃ fd w1 w2 w3, openInode w i .writeOnlyCreate = (.ok fd, w1) ∧
      write w1 fd data.1 = (.ok data.1.length, w2) ∧ close w2 fd = (.ok (), w3) ∧
      Refines w3 { s with map := Function.update s.map (absComps s.cwd path) (some (.file data.1)) } := by
  obtain ⟨w1, w2, hopened, hwrite, hclose⟩ := overwrite_file h.idle.slot_lt hn hk data.2
  refine ⟨_, w1, w2, _, hopened, hwrite, hclose, h.fs.setData hi hn hk data.1, h.noVolume,
    h.idle.vacate, ?_⟩
  refine small_update h.small fun d hd => ?_
  cases hd
  exact data.2

theorem writePath_refines (data : Slice) :
    Agrees ((writePath w path data.1).map (reply fun _ => .done))
      (commit s (s.write (absComps s.cwd path) data.1)) := by
  obtain ⟨hnorm, hsys, -⟩ := h.normalized hord
  unfold writePath Shell.write PathMap.write
  simp only [hnorm, bind_eq_bind, h.backed]
  rcases h.fs.resolve_cases hord.1 with ⟨⟨e, he⟩, hnone⟩ | ⟨i, n, hr, hi, hn, hentry⟩
  · -- the file is made first
    have hcreate : createFor w path (absolute (absComps s.cwd path)) .writeOnlyCreate =
        w.viaFs (w.vfs.fs.create path) :=
      if_pos ⟨rfl, hsys, by rw [isMissing, he]⟩
    have hsim := createAs_simulates h.fs hord.1 .file
    rw [← create] at hsim
    rw [hnone]
    unfold Shell.make PathMap.make at hsim
    unfold PathMap.make
    split at hsim
    · rename_i hdef
      rw [if_pos hdef]
      generalize hres : w.vfs.fs.create path = r at hsim hcreate
      cases hsim with
      | @ok fs' s' hm =>
        obtain ⟨-, hfound⟩ := openFile_created hnorm (writable_of_not_sys hsys _) (by decide) hcreate
        have hnew : Refines (w.setFs fs')
            { s with map := Function.update s.map (absComps s.cwd path) (some (.file [])) } := by
          refine ⟨hm, h.noVolume, h.idle, small_update h.small fun d hd => ?_⟩
          cases hd; decide
        rcases hm.resolve_cases hord.1 with ⟨-, hno⟩ | ⟨i, n, hr, hi, hn, hentry⟩
        · simp only [Function.update_self] at hno
          cases hno
        · simp only [Function.update_self] at hentry
          have hk : n.kind = .file := Node.file_of_entry fun hdir => by
            rw [hdir] at hentry; cases hentry
          obtain ⟨fd, w1, w2, w3, hopened, hwrite, hclose, href⟩ := overwrite_refines hnew hi hn hk data
          rw [hfound i hr]
          simp only [Function.update_idem] at href
          rw [hopened]
          simp only [bind_some, hwrite, hclose]
          exact ⟨_, _, rfl, rfl, href⟩
    · rename_i hdef
      rw [if_neg hdef]
      generalize hres : w.vfs.fs.create path = r at hsim hcreate
      cases hsim with
      | error e =>
        rw [openFile_uncreated hnorm (writable_of_not_sys hsys _) (by decide) hcreate]
        exact ⟨_, _, rfl, rfl, h⟩
  · have hcreate : createFor w path (absolute (absComps s.cwd path)) .writeOnlyCreate = (.ok (), w) :=
      if_neg fun hcond => by
        have hmiss := hcond.2.2
        rw [isMissing, hr] at hmiss
        cases hmiss
    obtain ⟨-, hfound⟩ := openFile_created hnorm (writable_of_not_sys hsys _) (by decide) hcreate
    rw [hfound i hr, hentry]
    cases hk : n.kind with
    | directory =>
      rw [openInode_dir hn hk, Node.entry_dir.mpr hk]
      exact ⟨_, _, rfl, rfl, h⟩
    | file =>
      obtain ⟨fd, w1, w2, w3, hopened, hwrite, hclose, href⟩ := overwrite_refines h hi hn hk data
      rw [hopened, Node.entry_file hk]
      simp only [bind_some, hwrite, hclose]
      exact ⟨_, _, rfl, rfl, href⟩

end files

/-- **One call**: the VFS does what the map does. -/
theorem exec_refines {w : World} (h : Refines w s) {call : PathCall} (hc : Covered w call) :
    Agrees (exec w call.toCall) (absExec s call) := by
  cases call with
  | mkdir path => exact createCall_refines h hc .directory Storage.fsMkdir
  | touch path => exact createCall_refines h hc .file Storage.fsCreate
  | writePath path data => exact writePath_refines h hc data
  | readPath path => exact readPath_refines h hc
  | unlink path => exact unlink_refines h hc
  | rename source target => exact rename_refines h hc.1 hc.2.1 hc.2.2
  | cd path => exact cd_refines h hc.1
  | pwd => exact pwd_refines h
  | ls path =>
    cases path with
    | none => exact ls_none_refines h hc
    | some path => exact ls_refines h hc

/-! ## The seeded tree -/

/-- An empty root. -/
def emptyShell : Shell Str (List UInt8) :=
  { map := fun cs => if cs = [] then some .dir else none, cwd := [] }

/-- Entries made one after the other; an undefined one is skipped. -/
def makeAll (s : Shell Str (List UInt8)) (entry : Entry (List UInt8)) (paths : List Str) :
    Shell Str (List UInt8) :=
  paths.foldl (fun s path => (s.make (components path) entry).getD s) s

/-- The standard tree, as a map. -/
def seedShell : Shell Str (List UInt8) :=
  makeAll (makeAll (makeAll emptyShell .dir seedRoots) .dir seedSysNodes) (.file [])
    (seedUserPrograms.map fun name => "/bin/".toList ++ name)

theorem matches_new : Matches TmpFs.new emptyShell := by
  refine ⟨rooted_new, ?_, rfl⟩
  funext cs
  cases cs with
  | nil => rfl
  | cons c cs => rfl

/-- A run of `create` or `mkdir` calls, as in the seeding. -/
theorem matches_makeAll {paths : List Str} (hpaths : ∀ p ∈ paths, Plain p ∧ p.head? = some '/')
    (kind : FileType) {fs : TmpFs} (h : Matches fs s) :
    Matches (paths.foldl (fun fs path => (fs.createAs path kind).2) fs)
      (makeAll s (kindEntry kind) paths) := by
  induction paths generalizing fs s with
  | nil => exact h
  | cons path paths ih =>
    obtain ⟨hplain, hhead⟩ := hpaths path mem_cons_self
    have hsim := createAs_simulates h hplain kind
    rw [absComps, if_pos hhead, nil_append] at hsim
    rw [foldl_cons, makeAll, foldl_cons]
    refine ih (fun p hp => hpaths p (mem_cons_of_mem _ hp)) ?_
    generalize fs.createAs path kind = r at hsim
    generalize s.make (components path) (kindEntry kind) = o at hsim
    cases hsim with
    | ok hm => exact hm
    | error e => exact h

theorem matches_seed : Matches VfsState.new.fs seedShell := by
  simp only [VfsState.new]
  have hroots : Matches (mkdirAll TmpFs.new seedRoots) (makeAll emptyShell .dir seedRoots) :=
    matches_makeAll (by decide) .directory matches_new
  have hsys : Matches (mkdirAll (mkdirAll TmpFs.new seedRoots) seedSysNodes)
      (makeAll (makeAll emptyShell .dir seedRoots) .dir seedSysNodes) :=
    matches_makeAll (by decide) .directory hroots
  exact matches_makeAll (by decide) .file hsys

theorem small_makeAll (h : Small s.map) {entry : Entry (List UInt8)}
    (he : ∀ d, entry = .file d → d.length < 2 ^ 63) (paths : List Str) :
    Small (makeAll s entry paths).map := by
  refine Run.foldl_inv (I := fun s : Shell Str _ => Small s.map) (fun s path hs => ?_) paths h
  unfold Shell.make PathMap.make
  split
  · exact small_update hs fun d hd => he d (some.inj hd)
  · exact hs

theorem refines_boot {storage : Storage.StorageState} (hno : NoVolumeMounted storage) (env : Env) :
    Refines (boot storage env) seedShell := by
  refine ⟨matches_seed, hno, Or.inl rfl, ?_⟩
  have hempty : Small emptyShell.map := by
    intro p d hp
    simp only [emptyShell] at hp
    split at hp <;> cases hp
  refine small_makeAll (small_makeAll (small_makeAll hempty ?_ _) ?_ _) ?_ _
  · intro d hd; cases hd
  · intro d hd; cases hd
  · intro d hd; cases hd; decide

/-! ## Runs -/

/-- The replies of the VFS in a run, with error texts forgotten; `none` when a call does not return. -/
def replies : World → List PathCall → Option (List (Option Reply))
  | _, [] => some []
  | w, call :: calls => (exec w call.toCall).bind fun r =>
      (replies r.2 calls).map fun rs => r.1.outcome :: rs

/-- What the map gives in the run. -/
noncomputable def absReplies : Shell Str (List UInt8) → List PathCall → List (Option Reply)
  | _, [] => []
  | s, call :: calls => (absExec s call).1 :: absReplies (absExec s call).2 calls

def pathStep (w : Option World) (call : PathCall) : Option World := step w call.toCall

/-- The condition on a call of a run. -/
def CoveredIn (w : Option World) (call : PathCall) : Prop := ∀ v, w = some v → Covered v call

theorem replies_refine {w : World} (h : Refines w s) {calls : List PathCall}
    (hrun : Run.Along pathStep CoveredIn (some w) calls) : replies w calls = some (absReplies s calls) := by
  induction calls generalizing w s with
  | nil => rfl
  | cons call calls ih =>
    obtain ⟨hc, hrun⟩ := hrun
    obtain ⟨r, w', hexec, hout, hnext⟩ := exec_refines h (hc w rfl)
    have hstep : pathStep (some w) call = some w' := by
      rw [pathStep, step, bind_some, hexec]; rfl
    rw [hstep] at hrun
    rw [replies, hexec, bind_some]
    rw [ih hnext hrun, map_some, absReplies, hout]

/-- **The VFS refines the map.**  With no storage volume mounted, in every run of path calls on ordinary
    paths whose renames move nothing under a file or into its own subtree, every call returns, succeeds
    exactly when it is defined on the map, and replies what the map gives. -/
theorem vfs_refines_map (storage : Storage.StorageState) (env : Env) (hno : NoVolumeMounted storage)
    (calls : List PathCall)
    (hrun : Run.Along pathStep CoveredIn (some (boot storage env)) calls) :
    replies (boot storage env) calls = some (absReplies seedShell calls) :=
  replies_refine (refines_boot hno env) hrun

/-- An absolute path means the same in every working directory. -/
theorem outside_absolute (w : World) {path : Str} (hplain : Plain path) (habs : path.head? = some '/')
    (hhead : (components path).head? ≠ some "sys".toList ∧ (components path).head? ≠ some "dev".toList) :
    Ordinary w path := by
  refine ⟨hplain, fun abs hnorm => ?_⟩
  unfold normalizedPath at hnorm
  simp only [if_pos habs, pathParts, bind_eq_bind, bind_some,
    resolveDots_names hplain.isName, nil_append, normalized_string] at hnorm
  rw [← some.inj hnorm, components_absolute fun c hc => (hplain.isName c hc).1]
  exact hhead

/-- Work in `/tmp/a`, moved to `/var/b` while it is the working directory. -/
def workMoved : List PathCall :=
  [.mkdir "/tmp/a".toList, .writePath "/tmp/a/f".toList ⟨[7, 8], by decide⟩, .cd "/tmp/a".toList,
    .rename "/tmp/a".toList "/var/b".toList, .readPath "f".toList, .pwd, .ls (some "/var".toList),
    .unlink "/var/b".toList]

theorem vfs_refines_map_moved :
    absReplies seedShell workMoved =
      [some .done, some .done, some .done, some .done, some (.bytes [7, 8]),
        some (.path "/var/b".toList), some (.names ["b".toList]), none] := by
  have hord : ∀ w, Ordinary w "/tmp/a".toList ∧ Ordinary w "/tmp/a/f".toList ∧
      Ordinary w "/var/b".toList ∧ Ordinary w "/var".toList := fun w =>
    ⟨outside_absolute w (by decide) rfl (by decide), outside_absolute w (by decide) rfl (by decide),
      outside_absolute w (by decide) rfl (by decide), outside_absolute w (by decide) rfl (by decide)⟩
  -- before the rename
  have hfacts : ((workMoved.take 3).foldl pathStep (some quiet)).map beforeMove = some true := by
    rw [quiet_eq]; decide
  obtain ⟨w₃, hw₃, hfacts⟩ := Option.map_eq_some_iff.mp hfacts
  -- after it
  have hrel : ((workMoved.take 4).foldl pathStep (some quiet)).map (fun w =>
      w.vfs.fs.normalizedPath "f".toList) = some (some "/var/b/f".toList) := by
    rw [quiet_eq]; decide
  obtain ⟨w₄, hw₄, hrel⟩ := Option.map_eq_some_iff.mp hrel
  have hf : Ordinary w₄ "f".toList := by
    refine ⟨by decide, fun abs hnorm => ?_⟩
    rw [hrel] at hnorm
    rw [← Option.some.inj hnorm]
    decide
  have hrun : Run.Along pathStep CoveredIn (some quiet) workMoved := by
    simp only [workMoved, List.take_succ_cons, List.take_zero, List.foldl_cons, List.foldl_nil] at hw₃ hw₄
    rw [hw₃] at hw₄
    simp only [workMoved, Run.along_cons]
    rw [hw₃, hw₄]
    refine ⟨fun w _ => (hord w).1, fun w _ => (hord w).2.1, fun w _ => (hord w).1, fun w hw => ?_,
      fun w hw => ?_, fun w _ => trivial, fun w _ => (hord w).2.2.2, fun w _ => (hord w).2.2.1, trivial⟩
    · obtain rfl := Option.some.inj hw
      exact ⟨(hord w₃).1, (hord w₃).2.2.1, renameAllowed_beforeMove hfacts⟩
    · obtain rfl := Option.some.inj hw
      exact hf
  have hreplies := vfs_refines_map _ _ quiet_noVolume workMoved hrun
  have hconcrete : replies quiet workMoved =
      some [some .done, some .done, some .done, some .done, some (.bytes [7, 8]),
        some (.path "/var/b".toList), some (.names ["b".toList]), none] := by
    decide +kernel
  exact Option.mem_unique hreplies hconcrete

/-- **A rename under a file succeeds where the map has no rename**: the source `/bin/hello` is a FILE, so
    no directory is moved. -/
theorem rename_below_file_succeeds :
    (∃ w, exec quiet (.rename "/bin/hello".toList "/bin/true/x".toList) = some (.done, w)) ∧
      Ordinary quiet "/bin/hello".toList ∧ Ordinary quiet "/bin/true/x".toList ∧
      seedShell.map ["bin".toList, "hello".toList] = some (.file []) ∧
      (absExec seedShell (.rename "/bin/hello".toList "/bin/true/x".toList)).1 = none := by
  refine ⟨?_, outside_absolute _ (by decide) rfl (by decide), outside_absolute _ (by decide) rfl (by decide),
    by decide +kernel, ?_⟩
  · have hreply : (exec quiet (.rename "/bin/hello".toList "/bin/true/x".toList)).map Prod.fst =
        some .done := by
      rw [quiet_eq]; decide
    obtain ⟨⟨r, w⟩, hw, rfl⟩ := Option.map_eq_some_iff.mp hreply
    exact ⟨w, hw⟩
  · -- the parent of the target is a file of the map
    have hundef : seedShell.rename ["bin".toList, "hello".toList]
        ["bin".toList, "true".toList, "x".toList] |>.isNone := by decide +kernel
    have hnone := Option.isNone_iff_eq_none.mp hundef
    have hsource : absComps seedShell.cwd "/bin/hello".toList = ["bin".toList, "hello".toList] := by
      decide
    have htarget : absComps seedShell.cwd "/bin/true/x".toList =
        ["bin".toList, "true".toList, "x".toList] := by decide
    rw [absExec, hsource, htarget, hnone]
    rfl

end Saios.Vfs
