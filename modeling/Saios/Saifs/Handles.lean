/-
  WHAT A HANDLE OF SAIFS ACTS ON, against what the lookup resolved when it was opened.

  1. **The calls behind a handle** — `write` opens, seeks, writes and closes by descriptor NUMBER; once the first
     `2^32` descriptors are taken the number is another client's (`write_openable`, and `readPath_openable` for
     `read`).

  2. **Objects** — named by where they are kept: below `/sys`, on a mounted volume, in the tmpfs, or by another
     provider.  `Machine.object` follows the lookup, at the path BELOW the mount; `SaifsHandle.target` is where the
     handle goes, with the ABSOLUTE path.

  3. **`handle_proper_iff`** — the two are the same, and nothing else is touched, exactly when the mount is the root
     (and, for a write, the path is on no mounted volume), or when the VFS has nothing there to act on.
-/
import Saios.Saifs.Relative

namespace Saios.Saifs

open Path Vfs List Option
open Storage (comps comps_isName comps_isComp comps_absolute storedAt)

/-! ## The calls behind a handle -/

variable {g : OpenFile}

section calls

variable {w : World} {h : SaifsHandle} {data : List UInt8}

/-- Seeking through a live descriptor moves its offset and nothing else. -/
theorem seek_live {fd : Nat} (hg : w.vfs.openFiles[fd]? = some (some g)) {m : Node}
    (hm : w.vfs.fs.get? g.inode = some m) (hk : m.kind = .file) (offset : Nat) :
    ∃ at', Vfs.seek w fd (.start offset) = (.ok at', w.setOpenFiles (setOffset w.vfs.openFiles fd at')) := by
  rcases seek_cases w fd (.start offset) with ⟨e, he⟩ | ⟨file, size, at', -, -, hseek⟩
  · rw [Vfs.seek, getOpenFile_ok.mpr hg] at he
    simp only [TmpFs.inodeLen_file hm hk] at he
    cases he
  · exact ⟨at', hseek⟩

variable (data) in
/-- Seek, write and close through a live descriptor. -/
theorem putAndClose_live {fd : Nat} (hg : w.vfs.openFiles[fd]? = some (some g)) {m : Node}
    (hm : w.vfs.fs.get? g.inode = some m) (hk : m.kind = .file) :
    ∃ files new, held files = held w.vfs.openFiles ∧
      (g.writable = true → (h.putAndClose w fd data).1 = .ok data.length) ∧
      (h.putAndClose w fd data).2 = (w.setFs (g.written w.vfs.fs m new)).setOpenFiles (files.set fd none) := by
  obtain ⟨at', hseek⟩ := seek_live hg hm hk h.offset
  have hheld := held_setOffset w.vfs.openFiles fd at'
  have hg' : (setOffset w.vfs.openFiles fd at')[fd]? = some (some { g with offset := at' }) := by
    rw [setOffset, getElem?_modify, hg]
    simp
  have hput : h.put w fd data = Vfs.write (w.setOpenFiles (setOffset w.vfs.openFiles fd at')) fd data := by
    rw [SaifsHandle.put, hseek]
  obtain ⟨r, v, new, files, hr, -, hsame, hclose⟩ := write_close
    (w := w.setOpenFiles (setOffset w.vfs.openFiles fd at')) hg' hm hk data
  refine ⟨files, new, hsame.trans hheld, fun hwrite => ?_, ?_⟩
  · have hok := write_writable (w := w.setOpenFiles (setOffset w.vfs.openFiles fd at')) hg' hm hk hwrite data
    rw [hr] at hok
    obtain rfl : r = _ := hok
    unfold SaifsHandle.putAndClose
    simp only [hput, hr, hclose]
  · rw [putAndClose_world, hput, hr, hclose]
    rfl

variable (data) in
/-- **A write that gets a file writes and closes what the number denotes.** -/
theorem write_openable (hw : Steady w) {fs : TmpFs} {i : Nat} {n : Node}
    (ho : Openable w h.path .readWriteCreate fs i n) :
    ∃ g m files new r, Denotes w.vfs.openFiles (OpenOptions.readWriteCreate.entry i n) g ∧
      fs.get? g.inode = some m ∧ h.write w data = some r ∧
      held files = held (place w.vfs.openFiles (OpenOptions.readWriteCreate.entry i n)) ∧
      (g.writable = true → r.1 = .ok data.length) ∧ r.2.2 =
        (w.setFs (g.written fs m new)).setOpenFiles (files.set (slot w.vfs.openFiles % 2 ^ 32) none) := by
  obtain ⟨g, hg, hden⟩ := getElem?_place_fd w.vfs.openFiles _
  obtain ⟨m, hm, hk⟩ := ho.denoted_live hw.live hden
  have hopen := openFile_ok hw.sys.linked ho nofun
  obtain ⟨files, new, hheld, hok, hput⟩ := putAndClose_live data
    (w := (w.setFs fs).setOpenFiles _) hg hm hk
  obtain ⟨r, hr⟩ : ∃ r, h.write w data = some r := by
    rw [SaifsHandle.write, hopen]
    exact ⟨_, rfl⟩
  refine ⟨g, m, files, new, r, hden, hm, hr, hheld, ?_⟩
  rcases Saifs.write_cases hr with ⟨e, w', hopen', -⟩ | ⟨fd, w', hopen', hresult, hworld⟩
  · rw [hopen] at hopen'
    cases hopen'
  · rw [hopen] at hopen'
    cases hopen'
    rw [← putAndClose_world] at hworld
    exact ⟨fun hwrite => hresult.trans (hok hwrite), hworld.trans hput⟩

/-- A descriptor number of its own is given back. -/
theorem held_returned {files files' : List (Option OpenFile)} {file : OpenFile} (hfits : slot files < 2 ^ 32)
    (hheld : held files' = held (place files file)) : held (files'.set (slot files % 2 ^ 32) none) = held files := by
  rw [held_passed hheld, Nat.mod_eq_of_lt hfits, Function.update_idem]
  exact Function.update_eq_self_iff.mpr held_slot.symm

end calls

/-! ## At a canonical path -/

variable {h : SaifsHandle}

section canonical

variable {w : World} {ds : List Str} (hds : ∀ c ∈ ds, IsName c)

include hds

theorem normalizedPath_canonical (fs : TmpFs) : fs.normalizedPath (absolute ds) = some (absolute ds) := by
  rw [normalizedPath_absolute rfl, comps_absolute hds]

theorem fileSeen_canonical (h : Linked w.vfs.fs) {es : List Str}
    (hseen : Mounts.FileSeen w.vfs.fs (absolute ds) es) : es = ds := by
  obtain ⟨i, n, hres, -, -, hes⟩ := hseen
  have hat : (w.vfs.fs.resolve (absolute ds)).toOption = w.vfs.fs.nodeAt ds := resolve_absolute hds
  rw [hres] at hat
  exact h.tree.walk_inj hes hat.symm

theorem madeAt_canonical (h : Linked w.vfs.fs) {es : List Str}
    (hmade : Mounts.MadeAt w.vfs.fs (absolute ds) es) : es = ds := by
  obtain ⟨p, d, name, cs, ⟨-, hparent, -, -⟩, hcs, rfl⟩ := hmade
  rcases eq_nil_or_concat ds with rfl | ⟨cs', c, rfl⟩
  · cases hparent
  · rw [concat_eq_append] at hds hparent ⊢
    have hat : (w.vfs.fs.resolveParentAndName (absolute (cs' ++ [c]))).toOption =
        (w.vfs.fs.nodeAt cs').map fun p => (p, c) := resolveParentAndName_absolute hds
    rw [hparent] at hat
    obtain ⟨q, hq, heq⟩ := map_eq_some_iff.mp hat.symm
    cases heq
    rw [h.tree.walk_inj hcs hq]

/-- **A write changes the file at its path and nothing else**, as long as it has a descriptor number of its own. -/
theorem write_canonical (hw : Steady w) (hpath : h.path = absolute ds) (hyes : Writable w h.path)
    (hfits : slot w.vfs.openFiles < 2 ^ 32) (data : List UInt8) :
    ∃ r, h.write w data = some r ∧ r.1 = .ok data.length ∧ r.2.2.env = w.env ∧ r.2.2.storage = w.storage ∧
      held r.2.2.vfs.openFiles = held w.vfs.openFiles ∧
      ∀ es, es ≠ ds → r.2.2.vfs.fs.absMap es = w.vfs.fs.absMap es := by
  obtain ⟨fs, i, n, ho⟩ := hyes
  obtain ⟨g, m, files, new, r, hden, hm, hr, hheld, hok, hworld⟩ := write_openable data hw ho
  rcases hden with ⟨-, rfl⟩ | ⟨hwrap, -⟩
  · refine ⟨r, hr, hok rfl, ?_, ?_, ?_, fun es hes => ?_⟩
    · rw [hworld]
      rfl
    · rw [hworld]
      rfl
    · rw [hworld]
      exact held_returned hfits hheld
    · rw [hpath] at ho
      obtain ⟨-, hsame, hseen⟩ := Mounts.leads_off hw ho es fun _ _ hmade =>
        hes (madeAt_canonical hds hw.sys.linked hmade)
      rw [hworld, ← hsame]
      exact absMap_setData_off hm new fun hat => hes (fileSeen_canonical hds hw.sys.linked (hseen hat))
  · exact absurd hfits (Nat.not_lt.mpr hwrap)

omit hds in
theorem write_wrapped (hw : Steady w) (hyes : Writable w h.path) (hwrap : 2 ^ 32 ≤ slot w.vfs.openFiles)
    (data : List UInt8) : ∃ r, h.write w data = some r ∧ held r.2.2.vfs.openFiles ≠ held w.vfs.openFiles := by
  obtain ⟨fs, i, n, ho⟩ := hyes
  obtain ⟨g, m, files, new, r, -, -, hr, hheld, -, hworld⟩ := write_openable data hw ho
  refine ⟨r, hr, ?_⟩
  rw [hworld]
  exact held_wrapped hwrap hheld

end canonical

/-- The VFS would read the path. -/
def Readable (w : World) (path : Str) : Prop :=
  if isSysPath path then (w.env.sysRead path).isSome = true
  else if isStorageBacked w path then ∃ n, storedAt w.storage path = some n ∧ n.kind = .file
  else FileAt w.vfs.fs path

section reading

variable {w : World} {path : Str} (hnorm : w.vfs.fs.normalizedPath path = some path)

include hnorm

theorem readPath_sys (hsys : isSysPath path = true) : readPath w path =
    some ((w.env.sysRead path).elim (.error "not a file")
      fun lines => .ok (Bytes.utf8 (['\n'].intercalate lines)), w) := by
  unfold readPath
  rw [hnorm, bind_eq_bind, bind_some, if_pos hsys]
  cases w.env.sysRead path with
  | none => rfl
  | some lines => rfl

theorem readPath_volume (hwired : Storage.Wired w.storage) (hsys : isSysPath path = false)
    (hback : isStorageBacked w path = true) :
    readPath w path = some ((Storage.fsRead w.storage path).1, w) := by
  have hstate : (Storage.fsRead w.storage path).2 = w.storage := hwired.step_reads.1
  rw [readPath_backed hnorm hsys hback, World.viaStorage, hstate]

theorem openable_of_file (h : FileAt w.vfs.fs path) (hsys : isSysPath path = false) :
    ∃ i n, Openable w path .readOnly w.vfs.fs i n := by
  obtain ⟨i, n, hres, hn, hk⟩ := h
  exact ⟨i, n, ⟨_, hnorm, writable_of_not_sys hsys _, by decide⟩, .inl ⟨hres, rfl⟩, hn, hk⟩

theorem readPath_not_readable (hw : Steady w) (hwired : Storage.Wired w.storage) (hno : ¬Readable w path) :
    ∃ e, readPath w path = some (.error e, w) := by
  unfold Readable at hno
  cases hsys : isSysPath path with
  | true =>
    rw [if_pos hsys, Bool.not_eq_true, isSome_eq_false_iff, isNone_iff_eq_none] at hno
    rw [readPath_sys hnorm hsys, hno]
    exact ⟨_, rfl⟩
  | false =>
    rw [hsys] at hno
    cases hback : isStorageBacked w path with
    | true =>
      rw [if_pos hback] at hno
      rw [readPath_volume hnorm hwired hsys hback]
      cases hread : (Storage.fsRead w.storage path).1 with
      | error e => exact ⟨e, rfl⟩
      | ok data =>
        obtain ⟨n, hn, hk, -⟩ := hwired.fsRead_ok_iff.mp hread
        exact absurd ⟨n, hn, hk⟩ hno
    | false =>
      rw [hback] at hno
      rcases openable_or_refused hw.sys.linked hnorm .readOnly with ⟨fs, i, n, ho⟩ | ⟨e, he⟩
      · obtain ⟨hres, rfl⟩ := ho.leads.uncreated rfl
        exact absurd ⟨i, n, hres, ho.live, ho.file⟩ hno
      · exact ⟨e, readPath_refused hnorm hback hsys he⟩

theorem readPath_readable (hw : Steady w) (hwired : Storage.Wired w.storage) (hyes : Readable w path)
    (hfits : InTmpfs w path → slot w.vfs.openFiles < 2 ^ 32) :
    ∃ data files, readPath w path = some (.ok data, w.setOpenFiles files) ∧
      held files = held w.vfs.openFiles := by
  unfold Readable at hyes
  cases hsys : isSysPath path with
  | true =>
    rw [if_pos hsys] at hyes
    obtain ⟨lines, hlines⟩ := isSome_iff_exists.mp hyes
    rw [readPath_sys hnorm hsys, hlines]
    exact ⟨_, w.vfs.openFiles, rfl, rfl⟩
  | false =>
    rw [hsys] at hyes
    cases hback : isStorageBacked w path with
    | true =>
      rw [if_pos hback] at hyes
      obtain ⟨n, hn, hk⟩ := hyes
      refine ⟨n.data, w.vfs.openFiles, ?_, rfl⟩
      rw [readPath_volume hnorm hwired hsys hback, hwired.fsRead_ok_iff.mpr ⟨n, hn, hk, rfl⟩]
      rfl
    | false =>
      rw [hback] at hyes
      obtain ⟨i, n, ho⟩ := openable_of_file hnorm hyes hsys
      obtain ⟨g, files, r, hden, hok, hheld, hr⟩ := readPath_openable hnorm hback hw.sys.linked hw.live hsys ho
      rcases hden with ⟨hlt, rfl⟩ | ⟨hwrap, -⟩
      · cases r with
        | error e => cases hok
        | ok data => exact ⟨data, _, hr, held_returned hlt hheld⟩
      · exact absurd (hfits ⟨hsys, hback⟩) (Nat.not_lt.mpr hwrap)

theorem readPath_wrapped (hw : Steady w) (hyes : Readable w path) (hin : InTmpfs w path)
    (hwrap : 2 ^ 32 ≤ slot w.vfs.openFiles) :
    ∃ r, readPath w path = some r ∧ held r.2.vfs.openFiles ≠ held w.vfs.openFiles := by
  obtain ⟨hsys, hback⟩ := hin
  unfold Readable at hyes
  rw [hsys, hback] at hyes
  obtain ⟨i, n, ho⟩ := openable_of_file hnorm hyes hsys
  obtain ⟨g, files, r, -, -, hheld, hr⟩ := readPath_openable hnorm hback hw.sys.linked hw.live hsys ho
  exact ⟨_, hr, held_wrapped hwrap hheld⟩

end reading

/-! ## Objects -/

/-- Where something is kept. -/
inductive Object
  | sys (path : Str)
  | volume (path : Str)
  | tmpfs (names : List Str)
  | other (provider : Nat) (path : Str)
  deriving DecidableEq

/-- The names on the way to an object of the VFS. -/
def Object.names : Object → Option (List Str)
  | .sys path => some (components path)
  | .volume path => some (components path)
  | .tmpfs names => some names
  | .other _ _ => none

/-- What the VFS looks up at a path: see `vfsLookup`. -/
def vfsObject (metadata : Str → Option Nat) (w : World) (path : Str) : Object :=
  let path := normalizePath path
  if isSysPath path ∧
      ((metadata path).isSome ∨ (w.env.sysReaddir path).isSome ∨ (w.env.sysRead path).isSome) then .sys path
  else if isStorageBacked w path then .volume path
  else .tmpfs (components path)

/-- What a handle is used for. -/
inductive Use
  | read
  | write (data : List UInt8)

/-- What a use of the handle acts on: the VFS's object at the absolute path; a write goes to the tmpfs always. -/
def SaifsHandle.target (h : SaifsHandle) (w : World) : Use → Object
  | .read =>
      if isSysPath h.path then .sys h.path
      else if isStorageBacked w h.path then .volume h.path
      else .tmpfs (components h.path)
  | .write _ => .tmpfs (components h.path)

section objects

variable {τ : Type}

/-- What a provider has at a path. -/
def Machine.object (m : Machine τ) (id : Nat) (path : Str) : Object :=
  match providerByIdInternal m.saifs id with
  | some .vfs => vfsObject m.metadata m.world path
  | _ => .other id path

/-- A use: whether it succeeded, and the machine after it. -/
def Machine.use (m : Machine τ) (h : SaifsHandle) : Use → Option (Bool × Machine τ)
  | .read => (h.read m.world).map fun r => (r.1.isOk, { m with world := r.2 })
  | .write data => (h.write m.world data).map fun r => (r.1.isOk, { m with world := r.2.2 })

def Object.Unchanged (m m' : Machine τ) : Object → Prop
  | .sys path => m'.world.env.sysRead path = m.world.env.sysRead path
  | .volume path => storedAt m'.world.storage path = storedAt m.world.storage path
  | .tmpfs names => m'.world.vfs.fs.absMap names = m.world.vfs.fs.absMap names
  | .other _ _ => m'.others = m.others

/-- The use acts on the object that the handle was opened on, and on nothing else. -/
structure Proper (m : Machine τ) (h : SaifsHandle) (use : Use) : Prop where
  target : ∀ m', m.use h use = some (true, m') → h.target m.world use = m.object h.providerId h.providerPath
  others : ∀ ok m', m.use h use = some (ok, m') → ∀ o, o ≠ m.object h.providerId h.providerPath → o.Unchanged m m'
  descriptors : ∀ ok m', m.use h use = some (ok, m') →
    held m'.world.vfs.openFiles = held m.world.vfs.openFiles

theorem Proper.of_use {m m' : Machine τ} {use : Use} {ok : Bool} (hdone : m.use h use = some (ok, m'))
    (htarget : ok = true → h.target m.world use = m.object h.providerId h.providerPath)
    (hothers : ∀ o, o ≠ m.object h.providerId h.providerPath → o.Unchanged m m')
    (hheld : held m'.world.vfs.openFiles = held m.world.vfs.openFiles) : Proper m h use where
  target m1 hm1 := by
    rw [hdone] at hm1
    cases hm1
    exact htarget rfl
  others ok1 m1 hm1 := by
    rw [hdone] at hm1
    cases hm1
    exact hothers
  descriptors ok1 m1 hm1 := by
    rw [hdone] at hm1
    cases hm1
    exact hheld

/-- The mount is the root, the VFS has nothing to act on, or what it acts on is what it looks up. -/
def Fits (w : World) (mountPath path : Str) : Use → Prop
  | .read => Readable w path → mountPath = ['/'] ∧ (InTmpfs w path → slot w.vfs.openFiles < 2 ^ 32)
  | .write _ => Writable w path →
      mountPath = ['/'] ∧ isStorageBacked w path = false ∧ slot w.vfs.openFiles < 2 ^ 32

/-- A handle at `es` below a mount at `ms`. -/
structure SaifsHandle.Below (m : Machine τ) (h : SaifsHandle) (ms es : List Str) : Prop where
  names : ∀ c ∈ ms ++ es, IsName c
  path : h.path = absolute (ms ++ es)
  providerPath : h.providerPath = absolute es
  canonical : canonicalizePath h.providerPath = .ok h.providerPath
  root : ms = [] → providerByIdInternal m.saifs h.providerId = some .vfs

section below

variable {m : Machine τ} {h : SaifsHandle} {ms es : List Str} (hb : h.Below m ms es)

include hb

theorem SaifsHandle.Below.components_path : components h.path = ms ++ es := by
  rw [hb.path, components_absolute fun c hc => (hb.names c hc).1]

theorem SaifsHandle.Below.normalizedPath (fs : TmpFs) : fs.normalizedPath h.path = some h.path := by
  rw [hb.path]
  exact normalizedPath_canonical hb.names fs

theorem SaifsHandle.Below.normalized : normalizePath h.providerPath = h.providerPath := by
  rw [normalizePath, hb.canonical]

theorem SaifsHandle.Below.target_names (w : World) (use : Use) : (h.target w use).names = some (ms ++ es) := by
  cases use with
  | read =>
    rw [← hb.components_path, SaifsHandle.target]
    split
    · rfl
    · split
      · rfl
      · rfl
  | write data => exact congrArg some hb.components_path

theorem SaifsHandle.Below.object_names : (m.object h.providerId h.providerPath).names = none ∨
    (m.object h.providerId h.providerPath).names = some es := by
  have hes : components h.providerPath = es := by
    rw [hb.providerPath, components_absolute fun c hc => (hb.names c (mem_append_right _ hc)).1]
  unfold Machine.object
  split
  · right
    unfold vfsObject
    dsimp only
    rw [hb.normalized]
    split
    · exact congrArg some hes
    · split
      · exact congrArg some hes
      · exact congrArg some hes
  · exact .inl rfl

/-- **Below any mount but the root the handle goes elsewhere.** -/
theorem SaifsHandle.Below.target_ne (hms : ms ≠ []) (w : World) (use : Use) :
    h.target w use ≠ m.object h.providerId h.providerPath := by
  intro heq
  have hnames := hb.target_names w use
  rw [heq] at hnames
  rcases hb.object_names with hnone | hsome
  · rw [hnone] at hnames
    cases hnames
  · rw [hsome] at hnames
    have hlen := congrArg List.length (some.inj hnames)
    rw [length_append] at hlen
    exact hms (length_eq_zero_iff.mp (by omega))

/-- At the root mount the lookup is the VFS's at the same path. -/
theorem SaifsHandle.Below.object_root (hms : ms = []) : m.object h.providerId h.providerPath =
    if isSysPath h.path ∧ ((m.metadata h.path).isSome ∨ (m.world.env.sysReaddir h.path).isSome ∨
      (m.world.env.sysRead h.path).isSome) then .sys h.path
    else if isStorageBacked m.world h.path then .volume h.path
    else .tmpfs (components h.path) := by
  have hpath : h.providerPath = h.path := by rw [hb.path, hb.providerPath, hms, nil_append]
  have hnorm := hb.normalized
  rw [hpath] at hnorm
  rw [Machine.object, hb.root hms, hpath]
  unfold vfsObject
  rw [hnorm]

theorem SaifsHandle.Below.mountPath_root : absolute ms = ['/'] ↔ ms = [] := by
  refine ⟨fun heq => ?_, fun heq => by rw [heq]; rfl⟩
  exact absolute_inj (fun c hc => (hb.names c (mem_append_left _ hc)).1)
    nofun heq

theorem SaifsHandle.Below.read_proper_iff (hw : Vfs.Reachable m.world) :
    Proper m h .read ↔ Fits m.world (absolute ms) h.path .read := by
  obtain ⟨hsteady, hwired⟩ := Mounts.wired_reachable hw
  have hnorm := hb.normalizedPath m.world.vfs.fs
  have huse : ∀ {r : Except String (List UInt8) × World}, readPath m.world h.path = some r →
      m.use h .read = some ((r.1.mapError mapStrErr).isOk, { m with world := r.2 }) := by
    intro r hr
    rw [Machine.use, SaifsHandle.read, hr]
    rfl
  rw [Fits, hb.mountPath_root]
  constructor
  · intro hproper hyes
    have hfits : InTmpfs m.world h.path → slot m.world.vfs.openFiles < 2 ^ 32 := by
      intro hin
      by_contra hwrap
      obtain ⟨r, hr, hne⟩ := readPath_wrapped hnorm hsteady hyes hin (Nat.le_of_not_lt hwrap)
      exact hne (hproper.descriptors _ _ (huse hr))
    refine ⟨?_, hfits⟩
    by_contra hms
    obtain ⟨data, files, hr, -⟩ := readPath_readable hnorm hsteady hwired hyes hfits
    exact hb.target_ne hms _ _ (hproper.target _ (huse hr))
  · intro hfits
    by_cases hyes : Readable m.world h.path
    · obtain ⟨hms, hslot⟩ := hfits hyes
      obtain ⟨data, files, hr, hheld⟩ := readPath_readable hnorm hsteady hwired hyes hslot
      refine .of_use (huse hr) (fun _ => ?_) (fun o _ => ?_) hheld
      · rw [hb.object_root hms, SaifsHandle.target]
        unfold Readable at hyes
        cases hsys : isSysPath h.path with
        | true =>
          rw [if_pos hsys] at hyes
          rw [if_pos rfl, if_pos ⟨rfl, .inr (.inr hyes)⟩]
        | false => rw [if_neg Bool.false_ne_true, if_neg (fun hno => Bool.false_ne_true (And.left hno))]
      · cases o <;> rfl
    · obtain ⟨e, he⟩ := readPath_not_readable hnorm hsteady hwired hyes
      refine .of_use (huse he) nofun (fun o _ => ?_) rfl
      cases o <;> rfl

theorem SaifsHandle.Below.write_proper_iff (hw : Vfs.Reachable m.world) (data : List UInt8) :
    Proper m h (.write data) ↔ Fits m.world (absolute ms) h.path (.write data) := by
  obtain ⟨hsteady, -⟩ := Mounts.wired_reachable hw
  have huse : ∀ {r : Except SaifsError Nat × SaifsHandle × World}, h.write m.world data = some r →
      m.use h (.write data) = some (r.1.isOk, { m with world := r.2.2 }) := by
    intro r hr
    rw [Machine.use, hr]
    rfl
  have hoff : Writable m.world h.path → isSysPath h.path = false := by
    rintro ⟨fs, i, n, ho⟩
    exact ho.accepts.outsideSys rfl (hb.normalizedPath _)
  rw [Fits, hb.mountPath_root]
  constructor
  · intro hproper hyes
    have hslot : slot m.world.vfs.openFiles < 2 ^ 32 := by
      by_contra hwrap
      obtain ⟨r, hr, hne⟩ := write_wrapped hsteady hyes (Nat.le_of_not_lt hwrap) data
      exact hne (hproper.descriptors _ _ (huse hr))
    obtain ⟨r, hr, hok, -⟩ := write_canonical hb.names hsteady hb.path hyes hslot data
    have hdone := huse hr
    rw [hok] at hdone
    have htarget := hproper.target _ hdone
    have hms : ms = [] := by
      by_contra hms
      exact hb.target_ne hms _ _ htarget
    refine ⟨hms, ?_, hslot⟩
    by_contra hback
    rw [Bool.not_eq_false] at hback
    rw [hb.object_root hms, hoff hyes, if_pos hback] at htarget
    cases htarget
  · intro hfits
    by_cases hyes : Writable m.world h.path
    · obtain ⟨hms, hback, hslot⟩ := hfits hyes
      obtain ⟨r, hr, -, henv, hstorage, hheld, hfs⟩ := write_canonical hb.names hsteady hb.path hyes hslot data
      have hobject : m.object h.providerId h.providerPath = .tmpfs (ms ++ es) := by
        rw [hb.object_root hms, hoff hyes, hback, if_neg fun hno => Bool.false_ne_true hno.1,
          if_neg Bool.false_ne_true, hb.components_path]
      refine .of_use (huse hr) (fun _ => ?_) (fun o ho => ?_) hheld
      · rw [hobject, SaifsHandle.target, hb.components_path]
      · rw [hobject] at ho
        cases o with
        | sys path => exact congrArg (fun env => Env.sysRead env path) henv
        | volume path => exact congrArg (fun st => storedAt st path) hstorage
        | tmpfs names => exact hfs names fun heq => ho (congrArg Object.tmpfs heq)
        | other id path => rfl
    · obtain ⟨q, hq⟩ := openFile_returns (hb.normalizedPath _) .readWriteCreate
      obtain ⟨r, hr⟩ : ∃ r, h.write m.world data = some r := by
        rw [SaifsHandle.write, hq]
        exact ⟨_, rfl⟩
      obtain ⟨e, rfl⟩ := write_refused hsteady.sys.linked hyes hr
      refine .of_use (huse hr) nofun (fun o _ => ?_) rfl
      cases o <;> rfl

end below

end objects

/-! ## The life of a handle -/

section life

variable {π : Type} {name : π → Str} {vfs : π} {s : SaifsState π}

/-- A provider keeps its id. -/
theorem providerById_step (h : s.initialized = true) {id : Nat} {provider : π}
    (hid : providerByIdInternal s id = some provider) (op : Op π) :
    (step name vfs s op).initialized = true ∧
      providerByIdInternal (step name vfs s op) id = some provider := by
  rcases step_cases name vfs h op with hsame | ⟨new, hreg⟩ | ⟨p, _, readOnly, -, -, -, hmount⟩ | ⟨p, -, hunmount⟩
  · rw [hsame]
    exact ⟨h, hid⟩
  · rw [hreg]
    refine ⟨h, ?_⟩
    rw [← hid]
    exact providerById_append (by rw [hid]; rfl) _ _
  · rw [hmount]
    exact ⟨h, hid⟩
  · rw [hunmount]
    exact ⟨h, hid⟩

theorem providerById_run (h : s.initialized = true) {id : Nat} {provider : π}
    (hid : providerByIdInternal s id = some provider) (ops : List (Op π)) :
    providerByIdInternal (ops.foldl (step name vfs) s) id = some provider :=
  (Run.foldl_inv (I := fun s => s.initialized = true ∧ providerByIdInternal s id = some provider)
    (fun _ op hs => providerById_step hs.1 hs.2 op) ops ⟨h, hid⟩).2

/-- The root is the VFS's. -/
def RootVfs (vfs : π) (s : SaifsState π) : Prop :=
  ∀ m ∈ s.mounts, m.path = ['/'] → providerByIdInternal s m.provider = some vfs

theorem RootVfs.step (hready : Ready s) (h : RootVfs vfs s) (op : Op π) :
    RootVfs vfs (step name vfs s op) := by
  intro m hm hpath
  have hkeep : m ∈ s.mounts → providerByIdInternal (Saifs.step name vfs s op) m.provider = some vfs :=
    fun hold => (providerById_step hready.initialized (h m hold hpath) op).2
  rcases step_cases name vfs hready.initialized op with
    hsame | ⟨new, hreg⟩ | ⟨p, provider, readOnly, -, -, hfree, hmount⟩ | ⟨p, -, hunmount⟩
  · rw [hsame] at hm
    exact hkeep hm
  · rw [hreg] at hm
    exact hkeep hm
  · rw [hmount] at hm
    rcases mem_append.mp hm with hold | hnew
    · exact hkeep hold
    · -- the root is mounted already
      obtain ⟨root, hroot, hrootpath⟩ := hready.root
      rw [mem_singleton.mp hnew] at hpath
      exact absurd (hrootpath.trans hpath.symm) (hfree root hroot)
  · rw [hunmount] at hm
    exact hkeep (mem_filter.mp hm).1

theorem rootVfs_run (ops : List (Op π)) : RootVfs vfs (init name vfs (ops.foldl (step name vfs) SaifsState.new)) := by
  refine (Run.foldl_inv (I := fun s => Ready (init name vfs s) ∧ RootVfs vfs _)
    (fun s op hs => ?_) ops ⟨ready_new, ?_⟩).2
  · have hstep : Ready (Saifs.step name vfs s op) ∧ RootVfs vfs (Saifs.step name vfs s op) := by
      rw [step_init]
      exact ⟨hs.1.step op, hs.2.step hs.1 op⟩
    rw [init_eq hstep.1.initialized]
    exact hstep
  · intro m hm _
    obtain rfl : m = ⟨['/'], 1, false⟩ := mem_singleton.mp hm
    rfl

end life

section main

variable {τ : Type}

/-- An opened handle, at any later time. -/
theorem below_of_open {m m1 m' : Machine τ} {ops later : List (Op (Provider τ))}
    (hm : m.saifs = ops.foldl (step Provider.name .vfs) SaifsState.new) (hw : Vfs.Reachable m.world)
    {path : Str} {resolved : ResolvedPath} (hresolve : m.resolve path = .ok resolved)
    (hopen : m.openHandle path = some (.ok h, m1))
    (hm' : m'.saifs = later.foldl (step Provider.name .vfs) m1.saifs) (offset : Nat) :
    ∃ ms es, resolved.mountPath = absolute ms ∧ SaifsHandle.Below m' { h with offset := offset } ms es := by
  have hready : Ready m.init.saifs := by
    show Ready (init _ _ m.saifs)
    rw [hm]
    exact ready_run ops
  have hroot : RootVfs .vfs m.init.saifs := by
    show RootVfs .vfs (init _ _ m.saifs)
    rw [hm]
    exact rootVfs_run ops
  rcases openHandle_cases (Mounts.wired_reachable hw).2 hopen with ⟨e, he⟩ | ⟨r, handle, n, hr, hon, heq⟩
  · cases he
  cases heq
  obtain rfl := Except.ok.inj (hresolve.symm.trans hr)
  obtain ⟨hpath, hprovider, hid⟩ := hon
  have hnul : nul ∉ path := by
    intro hnul
    rw [resolve_nul hnul] at hresolve
    cases hresolve
  obtain ⟨r', hspec, hall⟩ := hready.placed.resolves hnul
  have hres' : m.resolve path = .ok r' := hall _ (List.Perm.refl _)
  obtain rfl := Except.ok.inj (hresolve.symm.trans hres')
  have hmount : resolved.mountPath = absolute (comps resolved.mountPath) := hready.placed.path_eq hspec.mounted
  obtain ⟨hclean, hcanon⟩ := canonicalizePath_eq_ok.mp hspec.canonical
  have hjoined := hspec.joined
  rw [hmount, hcanon, joinPaths_eq (comps_isComp _) (comps_isComp _)] at hjoined
  refine ⟨comps resolved.mountPath, comps resolved.providerPath, hmount, ?_, hpath.trans hjoined.symm,
    hprovider.trans hcanon, ?_, fun hms => ?_⟩
  · intro c hc
    rcases mem_append.mp hc with hc | hc
    · exact comps_isName _ c hc
    · exact comps_isName _ c hc
  · rw [hprovider]
    exact hspec.canonical
  · have hslash : resolved.mountPath = ['/'] := by
      rw [hmount, hms]
      rfl
    rw [hm']
    refine providerById_run (s := { m.init.saifs with nextHandleId := n }) hready.initialized ?_ later
    rw [hid]
    exact hroot _ hspec.mounted hslash

/-- **A handle acts on what was looked up, and on nothing else, exactly when** its mount is the root and the VFS acts
    where it looks, or the VFS has nothing there to act on. -/
theorem handle_proper_iff (m : Machine τ) (ops : List (Op (Provider τ)))
    (hm : m.saifs = ops.foldl (step Provider.name .vfs) SaifsState.new) (hw : Vfs.Reachable m.world) (path : Str)
    (resolved : ResolvedPath) (hresolve : m.resolve path = .ok resolved) (h : SaifsHandle) (m₁ : Machine τ)
    (hopen : m.openHandle path = some (.ok h, m₁)) (m' : Machine τ) (later : List (Op (Provider τ)))
    (hm' : m'.saifs = later.foldl (step Provider.name .vfs) m₁.saifs) (hw' : Vfs.Reachable m'.world) (offset : Nat)
    (use : Use) :
    Proper m' { h with offset := offset } use ↔ Fits m'.world resolved.mountPath h.path use := by
  obtain ⟨ms, es, hmount, hbelow⟩ := below_of_open hm hw hresolve hopen hm' offset
  rw [hmount]
  cases use with
  | read => exact hbelow.read_proper_iff hw'
  | write data => exact hbelow.write_proper_iff hw' data

end main

/-- The VFS at the root, and no other mount. -/
def rootMachine : Machine Unit where
  saifs := SaifsState.new
  world := quiet
  others := ()
  metadata _ := none
  handles := []

theorem handle_proper_bin : ∃ h m₁, rootMachine.openHandle "/bin/ls".toList = some (.ok h, m₁) ∧
    Proper m₁ { h with offset := 3 } (.write [1]) := by
  obtain ⟨resolved, h, m₁, hresolve, hopen, hmount, hpath, hworld⟩ : ∃ resolved h m₁,
      rootMachine.resolve "/bin/ls".toList = .ok resolved ∧
      rootMachine.openHandle "/bin/ls".toList = some (.ok h, m₁) ∧ resolved.mountPath = ['/'] ∧
      h.path = "/bin/ls".toList ∧ m₁.world = quiet := by
    unfold rootMachine
    rw [quiet_eq]
    exact ⟨_, _, _, rfl, rfl, rfl, rfl, rfl⟩
  have hreach : Vfs.Reachable m₁.world := hworld ▸ quiet_reachable
  refine ⟨h, m₁, hopen, (handle_proper_iff rootMachine [] rfl quiet_reachable _ resolved hresolve h m₁ hopen m₁ [] rfl
    hreach 3 _).mpr fun _ => ⟨hmount, ?_, ?_⟩⟩
  · rw [hworld, hpath]
    decide
  · rw [hworld]
    decide

/-- The lookup of `/tmp/x` asked the other provider for `/x`; the write makes `/tmp/x` in the VFS. -/
theorem handle_writes_elsewhere : ∃ h m₁, readOnlyTmp.openHandle "/tmp/x".toList = some (.ok h, m₁) ∧
    h.providerId = 2 ∧ h.providerPath = "/x".toList ∧ ¬Proper m₁ h (.write [1]) := by
  obtain ⟨h, m₁, m₂, hopen, hid, hpath, hobject, hwrite⟩ : ∃ h m₁ m₂,
      readOnlyTmp.openHandle "/tmp/x".toList = some (.ok h, m₁) ∧ h.providerId = 2 ∧ h.providerPath = "/x".toList ∧
      m₁.object h.providerId h.providerPath = .other 2 "/x".toList ∧ m₁.use h (.write [1]) = some (true, m₂) := by
    unfold readOnlyTmp
    rw [quiet_eq]
    exact ⟨_, _, _, rfl, rfl, rfl, rfl, rfl⟩
  refine ⟨h, m₁, hopen, hid, hpath, fun hproper => ?_⟩
  have htarget := hproper.target m₂ hwrite
  rw [hobject] at htarget
  cases htarget

end Saios.Saifs
