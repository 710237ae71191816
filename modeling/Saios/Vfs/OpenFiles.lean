/-
  OPEN FILES STAY LIVE, in every run of calls, and what each call does to the descriptor table.

  1. **Files stay files** (`KeepsFiles`) — every change of the tmpfs but a removal keeps each file in its
     slot.  `unlink` first closes the descriptors of the file it removes, so an open descriptor is always
     on a live file (`FilesLive`).

  2. **`read_path` and `write_path`** — open, read or write, close.  They go through the NUMBER that the
     open returned; when it does not fit a `u32` that is another open file, which they then use and close
     (`readPath_openable`, `writePath_openable`).

  3. **The table** (`TableStep`, `exec_table`) — one constructor for each way a call can change what the
     descriptor numbers hold.
-/
import Saios.Vfs.Handles

namespace Saios.Vfs

open Path TmpFs Option
open Function (update update_of_ne update_self)

/-! ## Files stay files -/

/-- Every file is still a file. -/
def KeepsFiles (fs fs' : TmpFs) : Prop :=
  ∀ i n, fs.get? i = some n → n.kind = .file → ∃ n', fs'.get? i = some n' ∧ n'.kind = .file

theorem keepsFiles_refl (fs : TmpFs) : KeepsFiles fs fs := fun _ n hn hk => ⟨n, hn, hk⟩

theorem KeepsFiles.trans {fs1 fs2 fs3 : TmpFs} (h : KeepsFiles fs1 fs2) (h' : KeepsFiles fs2 fs3) :
    KeepsFiles fs1 fs3 := by
  intro i n hn hk
  obtain ⟨m, hm, hmk⟩ := h i n hn hk
  exact h' i m hm hmk

variable {path : Str}

section
variable {fs : TmpFs} {i p : Nat} {n d : Node}

theorem keepsFiles_setData (hn : fs.get? i = some n) (data : List UInt8) :
    KeepsFiles fs (fs.setData i n data) := by
  intro j m hm hk
  rw [get?_setData hn, hm]
  exact ⟨_, rfl, hk⟩

theorem keepsFiles_attach (hd : fs.get? p = some d) (name : Str) (kind : FileType) :
    KeepsFiles fs (fs.attach p d name kind) := by
  intro j m hm hk
  obtain ⟨m', hm', -, -, hkind, -⟩ := attach_old hd name kind hm
  exact ⟨m', hm', hkind.trans hk⟩

theorem keepsFiles_createAs (fs : TmpFs) (path : Str) (kind : FileType) :
    KeepsFiles fs (fs.createAs path kind).2 := by
  rcases createAs_cases fs path kind with ⟨e, he⟩ | ⟨p, name, d, -, hd, -, -, hc⟩
  · rw [he]; exact keepsFiles_refl fs
  · rw [hc]; exact keepsFiles_attach hd name kind

theorem keepsFiles_renamePath (fs : TmpFs) (source target : Str) :
    KeepsFiles fs (fs.renamePath source target).2 := by
  rcases renamePath_outcome fs source target with
    ⟨e, he⟩ | ⟨i, q, name, n, p, d, -, -, -, -, -, -, hd, ⟨-, e, he⟩ | ⟨m, k, hslots, hr⟩⟩
  · rw [he]; exact keepsFiles_refl fs
  · rw [he]
    intro j b hb hbk
    rw [get?_unlinked hd, hb]
    exact ⟨_, rfl, hbk⟩
  · rw [hr]
    intro j b hb hbk
    rw [get?_relink hslots, hb]
    exact ⟨_, rfl, hbk⟩

/-- A removal keeps every other file. -/
theorem get?_remove (hr : fs.resolve path = .ok i) {j : Nat} (hj : j ≠ i) (hn : fs.get? j = some n) :
    ∃ n', (fs.remove path).2.get? j = some n' ∧ n'.kind = n.kind := by
  rw [TmpFs.remove, hr]
  simp only
  rcases removeInode_cases fs i with ⟨e, he⟩ | ⟨m, -, hm, -, ⟨-, hrem⟩ | ⟨p, d, -, hd, hrem⟩⟩
  · rw [he]; exact ⟨n, hn, rfl⟩
  · have hview : (fs.clearSlot i).get? j = _ := get?_put hm none j
    rw [hrem, hview, if_neg hj]
    exact ⟨n, hn, rfl⟩
  · rw [hrem, get?_detach hm hd, if_neg hj, get?_unlinked hd, hn]
    exact ⟨_, rfl, rfl⟩

end

variable {options : OpenOptions}

theorem Leads.keepsFiles {w : World} {fs : TmpFs} {i : Nat} (h : Leads w path options fs i) :
    KeepsFiles w.vfs.fs fs := by
  rcases h with ⟨-, rfl⟩ | ⟨-, -, p, d, name, hc, rfl, -⟩
  · exact keepsFiles_refl _
  · exact keepsFiles_attach hc.2.2.1 name .file

theorem keepsFiles_emptied {fs : TmpFs} {i : Nat} {n : Node} (hn : fs.get? i = some n)
    (options : OpenOptions) : KeepsFiles fs (options.emptied fs i n) := by
  unfold OpenOptions.emptied
  split
  · exact keepsFiles_setData hn []
  · exact keepsFiles_refl fs

/-- Every open descriptor is on a live file. -/
def FilesLive (s : VfsState) : Prop :=
  ∀ fd a, held s.openFiles fd = some a → ∃ n, s.fs.get? a.inode = some n ∧ n.kind = .file

/-! ## Whole files by path -/

section bypath

variable {w : World} {path abs : Str} (habs : w.vfs.fs.normalizedPath path = some abs)
  (hback : isStorageBacked w abs = false)

include habs hback

theorem readPath_refused (hsys : isSysPath abs = false) {e : String}
    (ho : openFile w path .readOnly = some (.error e, w)) : readPath w path = some (.error e, w) := by
  unfold readPath
  simp only [habs, bind_eq_bind, bind_some, hsys, hback, Bool.false_eq_true, if_false, ho]

theorem writePath_refused {data : List UInt8} {e : String}
    (ho : openFile w path .writeOnlyCreate = some (.error e, w)) :
    writePath w path data = some (.error e, w) := by
  unfold writePath
  simp only [habs, bind_eq_bind, bind_some, hback, Bool.false_eq_true, if_false, ho]

end bypath

/-- The tmpfs after a write through a descriptor, where it may write. -/
def OpenFile.written (g : OpenFile) (fs : TmpFs) (m : Node) (new : List UInt8) : TmpFs :=
  if g.writable then fs.setData g.inode m new else fs

theorem keepsFiles_written {fs : TmpFs} {g : OpenFile} {m : Node} (hm : fs.get? g.inode = some m)
    (new : List UInt8) : KeepsFiles fs (g.written fs m new) := by
  unfold OpenFile.written
  split
  · exact keepsFiles_setData hm new
  · exact keepsFiles_refl fs

section through

variable {w : World} {fd : Nat} {g : OpenFile} (hg : w.vfs.openFiles[fd]? = some (some g)) {m : Node}
  (hm : w.vfs.fs.get? g.inode = some m) (hk : m.kind = .file)

include hg hm hk

/-- `read` and `close` through a live descriptor. -/
theorem read_close (maxLen : Nat) :
    ∃ files, (read w fd maxLen).1.isOk = g.readable ∧ held files = held w.vfs.openFiles ∧
      close (read w fd maxLen).2 fd = (.ok (), w.setOpenFiles (files.set fd none)) := by
  cases hread : g.readable with
  | false =>
    rw [read_unreadable hg hread]
    exact ⟨_, rfl, rfl, close_open hg⟩
  | true =>
    obtain ⟨data, hdata⟩ := read_readable hg hm hk hread maxLen
    rcases read_cases w fd maxLen with ⟨e, he⟩ | ⟨file, data', hfile, -, -, hr⟩
    · rw [he] at hdata; cases hdata
    · have hheld := held_setOffset w.vfs.openFiles fd (Word.sadd file.offset data'.length)
      rw [hr]
      exact ⟨_, rfl, hheld, close_held ((congrFun hheld fd).trans (held_eq_some.mpr ⟨file, hfile, rfl⟩))⟩

/-- `write` and `close` through a live descriptor. -/
theorem write_close (data : List UInt8) :
    ∃ r v new files, write w fd data = (r, v) ∧ r.isOk = g.writable ∧ held files = held w.vfs.openFiles ∧
      close v fd = (.ok (), (w.setFs (g.written w.vfs.fs m new)).setOpenFiles (files.set fd none)) := by
  unfold OpenFile.written
  cases hwrite : g.writable with
  | false =>
    rw [write_unwritable hg hwrite]
    exact ⟨_, _, [], _, rfl, rfl, rfl, close_open hg⟩
  | true =>
    have hok := write_writable hg hm hk hwrite data
    rcases write_cases w fd data with ⟨e, he⟩ | ⟨file, n, offset, hfile, -, hn, -, -, hw⟩
    · rw [he] at hok; cases hok
    · obtain rfl := some.inj (mem_unique hg hfile)
      obtain rfl := mem_unique hm hn
      have hheld := held_setOffset w.vfs.openFiles fd (Word.sadd offset data.length)
      rw [hw]
      exact ⟨_, _, writeData offset data m.data, _, rfl, rfl, hheld,
        close_held ((congrFun hheld fd).trans (held_eq_some.mpr ⟨g, hfile, rfl⟩))⟩

end through

section bypath

variable {w : World} {path abs : Str} (habs : w.vfs.fs.normalizedPath path = some abs)
  (hback : isStorageBacked w abs = false) (h : Linked w.vfs.fs) (hlive : FilesLive w.vfs) {fs : TmpFs}
  {i : Nat} {n : Node}

include hlive in
/-- What the number denotes is a live file after the open as well. -/
theorem Openable.denoted_live (ho : Openable w path options fs i n) {g : OpenFile}
    (hg : Denotes w.vfs.openFiles (options.entry i n) g) :
    ∃ m, (options.emptied fs i n).get? g.inode = some m ∧ m.kind = .file := by
  have hkeep := keepsFiles_emptied ho.live options
  rcases hg with ⟨-, rfl⟩ | ⟨-, hold⟩
  · exact hkeep i n ho.live ho.file
  · obtain ⟨m, hm, hk⟩ := hlive _ _ (held_eq_some.mpr ⟨g, hold, rfl⟩)
    exact ho.leads.keepsFiles.trans hkeep _ m hm hk

include habs hback h hlive

/-- **`read_path` reads and closes what the number denotes.** -/
theorem readPath_openable (hsys : isSysPath abs = false) (ho : Openable w path .readOnly w.vfs.fs i n) :
    ∃ g files r, Denotes w.vfs.openFiles (OpenOptions.readOnly.entry i n) g ∧ r.isOk = g.readable ∧
      held files = held (place w.vfs.openFiles (OpenOptions.readOnly.entry i n)) ∧
      readPath w path = some (r, w.setOpenFiles (files.set (slot w.vfs.openFiles % 2 ^ 32) none)) := by
  obtain ⟨g, hg, hden⟩ := getElem?_place_fd w.vfs.openFiles _
  obtain ⟨m, hm, hk⟩ := ho.denoted_live hlive hden
  have hopen := openFile_ok h ho (fun ht => Bool.noConfusion ht)
  obtain ⟨files, hok, hheld, hclose⟩ := read_close
    (w := w.setOpenFiles (place w.vfs.openFiles _)) hg hm hk (2 ^ 64 - 1)
  refine ⟨g, files, _, hden, hok, hheld, ?_⟩
  unfold readPath
  simp only [habs, bind_eq_bind, bind_some, hsys, hback, hopen]
  simp only [show w.setFs (OpenOptions.readOnly.emptied w.vfs.fs i n) = w from rfl, hclose]
  cases (read _ _ _).1 <;> rfl

/-- **`write_path` writes and closes what the number denotes.** -/
theorem writePath_openable (ho : Openable w path .writeOnlyCreate fs i n) (data : List UInt8) :
    ∃ g m new files r, Denotes w.vfs.openFiles (OpenOptions.writeOnlyCreate.entry i n) g ∧ r.isOk = g.writable ∧
      (fs.setData i n []).get? g.inode = some m ∧
      held files = held (place w.vfs.openFiles (OpenOptions.writeOnlyCreate.entry i n)) ∧
      writePath w path data = some (r, (w.setFs (g.written (fs.setData i n []) m new)).setOpenFiles
        (files.set (slot w.vfs.openFiles % 2 ^ 32) none)) := by
  obtain ⟨g, hg, hden⟩ := getElem?_place_fd w.vfs.openFiles _
  obtain ⟨m, hm, hk⟩ := ho.denoted_live hlive hden
  have hopen := openFile_ok h ho (fun _ => rfl)
  obtain ⟨r, v, new, files, hwrite, hok, hheld, hclose⟩ := write_close
    (w := (w.setFs (OpenOptions.writeOnlyCreate.emptied fs i n)).setOpenFiles (place w.vfs.openFiles _))
    hg hm hk data
  refine ⟨g, m, new, files, r.map fun _ => (), hden, by cases r <;> exact hok, hm, hheld, ?_⟩
  unfold writePath
  simp only [habs, bind_eq_bind, bind_some, hback, hopen, hwrite, hclose]
  cases r <;> rfl

end bypath

/-! ## The table, call by call -/

/-- The path that a call opens and closes again, and how. -/
def Call.byPath : Call → Option (Str × OpenOptions)
  | .readPath path => some (path, .readOnly)
  | .writePath path _ => some (path, .writeOnlyCreate)
  | _ => none

/-- What `open` accepts for changing is outside `/sys`. -/
theorem Accepts.outsideSys {w : World} (h : Accepts w path options) (hc : options.changes = true) {abs : Str}
    (habs : w.vfs.fs.normalizedPath path = some abs) : isSysPath abs = false := by
  obtain ⟨abs', habs', hsys, -⟩ := h
  obtain rfl := mem_unique habs habs'
  cases hcase : isSysPath abs with
  | false => rfl
  | true => exact absurd ⟨hcase, hc⟩ hsys

/-- What a call can do to the descriptor table, and what it keeps of the files meanwhile. -/
inductive TableStep (w w' : World) : Call → Reply → Prop
  | same {call : Call} {reply : Reply} (keeps : KeepsFiles w.vfs.fs w'.vfs.fs)
      (holds : held w'.vfs.openFiles = held w.vfs.openFiles)
      (noOpen : ∀ path options fd, call = .openFile path options → reply ≠ .number fd)
      (noClose : ∀ fd, call = .close fd → reply ≠ .done) : TableStep w w' call reply
  | opened {path : Str} {options : OpenOptions} {fs : TmpFs} {i : Nat} {n : Node}
      (ho : Openable w path options fs i n) (ht : options.truncate = true → options.write = true)
      (keeps : KeepsFiles w.vfs.fs w'.vfs.fs)
      (live : ∃ m, w'.vfs.fs.get? i = some m ∧ m.kind = .file) (resolved : w'.vfs.fs.resolve path = .ok i)
      (holds : held w'.vfs.openFiles =
        update (held w.vfs.openFiles) (slot w.vfs.openFiles) (some (options.access i))) :
      TableStep w w' (.openFile path options) (.number (slot w.vfs.openFiles % 2 ^ 32))
  | closed {fd : Nat} {a : Access} (keeps : KeepsFiles w.vfs.fs w'.vfs.fs)
      (was : held w.vfs.openFiles fd = some a)
      (holds : held w'.vfs.openFiles = update (held w.vfs.openFiles) fd none) :
      TableStep w w' (.close fd) .done
  | passed {call : Call} {reply : Reply} {path : Str} {options : OpenOptions} {fs : TmpFs} {i : Nat}
      {n : Node} (hcall : call.byPath = some (path, options)) (hon : OnTmpfs w path)
      (ho : Openable w path options fs i n)
      (keeps : KeepsFiles w.vfs.fs w'.vfs.fs) (live : ∃ m, w'.vfs.fs.get? i = some m ∧ m.kind = .file)
      (holds : held w'.vfs.openFiles = update
        (update (held w.vfs.openFiles) (slot w.vfs.openFiles) (some (options.access i)))
        (slot w.vfs.openFiles % 2 ^ 32) none) : TableStep w w' call reply
  | removed {path : Str} {reply : Reply} {i : Nat} (hon : OnTmpfs w path)
      (hres : w.vfs.fs.resolve path = .ok i)
      (keeps : ∀ j n, j ≠ i → w.vfs.fs.get? j = some n → n.kind = .file →
        ∃ n', w'.vfs.fs.get? j = some n' ∧ n'.kind = .file)
      (holds : ∀ fd, held w'.vfs.openFiles fd = (held w.vfs.openFiles fd).filter fun a => a.inode ≠ i) :
      TableStep w w' (.unlink path) reply

variable {w' : World} {call : Call} {reply : Reply}

section table

variable {w : World}

/-- The calls that neither open nor close. -/
def Call.Passive : Call → Prop
  | .openFile _ _ | .close _ => False
  | _ => True

theorem TableStep.idle (hcall : call.Passive) (keeps : KeepsFiles w.vfs.fs w'.vfs.fs)
    (holds : held w'.vfs.openFiles = held w.vfs.openFiles) : TableStep w w' call reply :=
  .same keeps holds (by rintro _ _ _ rfl; exact absurd hcall id) (by rintro _ rfl; exact absurd hcall id)

theorem TableStep.untouched (hcall : call.Passive) (hvfs : w'.vfs = w.vfs) : TableStep w w' call reply :=
  .idle hcall (by rw [hvfs]; exact keepsFiles_refl _) (by rw [hvfs])

theorem TableStep.created {kind : FileType} {q : Except String Unit} (hcall : call.Passive)
    (h : Forwarded w w' ∨ OnTmpfs w path ∧ (q, w') = w.viaFs (w.vfs.fs.createAs path kind)) :
    TableStep w w' call reply := by
  rcases h with hf | ⟨-, he⟩
  · exact .untouched hcall hf.vfs
  · obtain ⟨-, rfl⟩ := Prod.mk.inj he
    exact .idle hcall (keepsFiles_createAs _ path kind) rfl

/-- The table with the next slot taken and the number it gives closed again. -/
theorem held_passed {files files0 : List (Option OpenFile)} {file : OpenFile}
    (h : held files = held (place files0 file)) (fd : Nat) :
    held (files.set fd none) =
      update (update (held files0) (slot files0) (some file.access)) fd none := by
  rw [held_set, h, held_place]

variable (h : Linked w.vfs.fs) (hlive : FilesLive w.vfs)

include h hlive

/-- **What `read_path` can do**: nothing to the VFS, or a read and a close of what the number denotes. -/
theorem readPath_outcome {r : Except String (List UInt8) × World} (hr : readPath w path = some r) :
    r.2.vfs = w.vfs ∨
    ∃ i n g files, OnTmpfs w path ∧ Openable w path .readOnly w.vfs.fs i n ∧
      Denotes w.vfs.openFiles (OpenOptions.readOnly.entry i n) g ∧ r.1.isOk = g.readable ∧
      held files = held (place w.vfs.openFiles (OpenOptions.readOnly.entry i n)) ∧
      r.2 = w.setOpenFiles (files.set (slot w.vfs.openFiles % 2 ^ 32) none) := by
  rcases readPath_cases hr with hf | ⟨⟨abs, habs, hsys, hback⟩, -⟩
  · exact .inl hf.vfs
  rcases openable_or_refused h habs .readOnly with ⟨fs, i, n, ho⟩ | ⟨e, he⟩
  · obtain ⟨-, rfl⟩ := ho.leads.uncreated rfl
    obtain ⟨g, files, q, hden, hok, hheld, hdone⟩ := readPath_openable habs hback h hlive hsys ho
    obtain rfl := mem_unique hr hdone
    exact .inr ⟨i, n, g, files, ⟨abs, habs, hsys, hback⟩, ho, hden, hok, hheld, rfl⟩
  · obtain rfl := mem_unique hr (readPath_refused habs hback hsys he)
    exact .inl rfl

theorem writePath_outcome {data : List UInt8} {r : Except String Unit × World}
    (hr : writePath w path data = some r) : r.2.vfs = w.vfs ∨
    ∃ fs i n g m new files, OnTmpfs w path ∧ Openable w path .writeOnlyCreate fs i n ∧
      Denotes w.vfs.openFiles (OpenOptions.writeOnlyCreate.entry i n) g ∧ r.1.isOk = g.writable ∧
      (fs.setData i n []).get? g.inode = some m ∧
      held files = held (place w.vfs.openFiles (OpenOptions.writeOnlyCreate.entry i n)) ∧
      r.2 = (w.setFs (g.written (fs.setData i n []) m new)).setOpenFiles
        (files.set (slot w.vfs.openFiles % 2 ^ 32) none) := by
  rcases writePath_cases hr with hf | ⟨abs, -, -, habs, hback, -⟩
  · exact .inl hf.vfs
  rcases openable_or_refused h habs .writeOnlyCreate with ⟨fs, i, n, ho⟩ | ⟨e, he⟩
  · obtain ⟨g, m, new, files, q, hden, hok, hm, hheld, hdone⟩ := writePath_openable habs hback h hlive ho data
    obtain rfl := mem_unique hr hdone
    exact .inr ⟨fs, i, n, g, m, new, files, ⟨abs, habs, ho.accepts.outsideSys rfl habs, hback⟩, ho, hden, hok, hm,
      hheld, rfl⟩
  · obtain rfl := mem_unique hr (writePath_refused habs hback he)
    exact .inl rfl

omit hlive in
/-- The path leads to the opened file after the open as well. -/
theorem Openable.resolve_emptied {fs : TmpFs} {i : Nat} {n : Node} (ho : Openable w path options fs i n) :
    (options.emptied fs i n).resolve path = .ok i := by
  unfold OpenOptions.emptied
  split
  · rw [resolve_setData ho.live, ho.resolves h]
  · exact ho.resolves h

/-- **Everything a call can do to the table.** -/
theorem exec_table (hr : exec w call = some (reply, w')) : TableStep w w' call reply := by
  have hmap : ∀ {α : Type} {o : Option (Except String α × World)} {ok : α → Reply},
      o.map (Vfs.reply ok) = some (reply, w') → ∃ q, o = some (q, w') ∧ Reply.ofExcept ok q = reply := by
    intro α o ok ho
    obtain ⟨⟨q, v⟩, hq, heq⟩ := map_eq_some_iff.mp ho
    obtain ⟨hreply, rfl⟩ := Prod.mk.inj heq
    exact ⟨q, hq, hreply⟩
  cases call with
  | mkdir path =>
    obtain ⟨q, hq, -⟩ := hmap hr
    exact .created trivial (createCall_cases hq)
  | touch path =>
    obtain ⟨q, hq, -⟩ := hmap hr
    exact .created trivial (createCall_cases hq)
  | mount path fsName readOnly =>
    obtain ⟨q, hq, -⟩ := hmap hr
    obtain ⟨mounts, rfl⟩ := mount_mounts hq
    exact .idle trivial (keepsFiles_refl _) rfl
  | umount path =>
    obtain ⟨q, hq, -⟩ := hmap hr
    obtain ⟨mounts, rfl⟩ := umount_mounts hq
    exact .idle trivial (keepsFiles_refl _) rfl
  | openFile path options =>
    obtain ⟨q, hq, rfl⟩ := hmap hr
    rcases openFile_outcome h hq with ⟨e, he⟩ | ⟨fs, i, n, ho, ⟨-, -, he⟩ | ⟨ht, he⟩⟩
    · obtain ⟨rfl, rfl⟩ := Prod.mk.inj he
      exact .same (keepsFiles_refl _) rfl (by rintro _ _ _ - ⟨⟩) (by rintro _ ⟨⟩)
    · obtain ⟨rfl, rfl⟩ := Prod.mk.inj he
      exact .same ho.leads.keepsFiles rfl (by rintro _ _ _ - ⟨⟩) (by rintro _ ⟨⟩)
    · obtain ⟨rfl, rfl⟩ := Prod.mk.inj he
      have hkeep := keepsFiles_emptied ho.live options
      exact .opened ho ht (ho.leads.keepsFiles.trans hkeep) (hkeep i n ho.live ho.file) (ho.resolve_emptied h)
        (held_place _)
  | close fd =>
    cases hr
    rcases getElem?_cases w.vfs.openFiles fd with ⟨file, hfile⟩ | hbad
    · rw [close_open hfile]
      exact .closed (keepsFiles_refl _) (held_eq_some.mpr ⟨file, hfile, rfl⟩) (held_set fd)
    · rw [close_bad hbad]
      exact .same (keepsFiles_refl _) rfl (by rintro _ _ _ ⟨⟩) (by rintro _ - ⟨⟩)
  | read fd maxLen =>
    cases hr
    rcases read_cases w fd maxLen with ⟨e, he⟩ | ⟨file, data, -, -, -, he⟩
    · rw [he]; exact .untouched trivial rfl
    · rw [he]; exact .idle trivial (keepsFiles_refl _) (held_setOffset _ _ _)
  | write fd data =>
    cases hr
    rcases write_cases w fd data with ⟨e, he⟩ | ⟨file, n, offset, -, -, hn, -, -, he⟩
    · rw [he]; exact .untouched trivial rfl
    · rw [he]; exact .idle trivial (keepsFiles_setData hn _) (held_setOffset _ _ _)
  | seek fd origin =>
    cases hr
    rcases seek_cases w fd origin with ⟨e, he⟩ | ⟨file, size, offset, -, -, he⟩
    · rw [he]; exact .untouched trivial rfl
    · rw [he]; exact .idle trivial (keepsFiles_refl _) (held_setOffset _ _ _)
  | ls path =>
    obtain ⟨q, hq, -⟩ := hmap hr
    exact .untouched trivial (ls_forwarded hq).vfs
  | readPath path =>
    obtain ⟨q, hq, -⟩ := hmap hr
    rcases readPath_outcome h hlive hq with hsame | ⟨i, n, g, files, hon, ho, -, -, hheld, rfl⟩
    · exact .untouched trivial hsame
    · exact .passed rfl hon ho (keepsFiles_refl _) ⟨n, ho.live, ho.file⟩ (held_passed hheld _)
  | unlink path =>
    obtain ⟨q, hq, -⟩ := hmap hr
    rcases unlink_cases hq with hf | ⟨i, hon, hres, he⟩
    · exact .untouched trivial hf.vfs
    · obtain ⟨-, rfl⟩ := Prod.mk.inj he
      refine .removed hon hres (fun j n hj hn hk => ?_) (fun fd => held_invalidate _ i fd)
      obtain ⟨n', hn', hk'⟩ := get?_remove hres hj hn
      exact ⟨n', hn', hk'.trans hk⟩
  | rename source target =>
    obtain ⟨q, hq, -⟩ := hmap hr
    rcases rename_cases hq with hf | ⟨-, -, he⟩
    · exact .untouched trivial hf.vfs
    · obtain ⟨-, rfl⟩ := Prod.mk.inj he
      exact .idle trivial (keepsFiles_renamePath _ source target) rfl
  | cd path =>
    cases hr
    rcases cd_cases w path with ⟨e, he⟩ | ⟨i, n, -, -, -, he⟩
    · rw [he]; exact .untouched trivial rfl
    · rw [he]; exact .idle trivial (keepsFiles_refl w.vfs.fs) rfl
  | pwd =>
    obtain ⟨path, -, heq⟩ := map_eq_some_iff.mp hr
    obtain ⟨-, rfl⟩ := Prod.mk.inj heq
    exact .untouched trivial rfl
  | writePath path data =>
    obtain ⟨q, hq, -⟩ := hmap hr
    rcases writePath_outcome h hlive hq with
      hsame | ⟨fs, i, n, g, m, new, files, hon, ho, -, -, hm, hheld, rfl⟩
    · exact .untouched trivial hsame
    have hkeep := (keepsFiles_setData ho.live []).trans (keepsFiles_written hm new)
    exact .passed rfl hon ho (ho.leads.keepsFiles.trans hkeep) (hkeep i n ho.live ho.file) (held_passed hheld _)
  | openNode path =>
    obtain ⟨q, hq, -⟩ := hmap hr
    exact .untouched trivial (openNode_forwarded hq).vfs

/-- **One call keeps open files live.** -/
theorem filesLive_exec (hr : exec w call = some (reply, w')) : FilesLive w'.vfs := by
  have hold : ∀ {fd a}, KeepsFiles w.vfs.fs w'.vfs.fs → held w.vfs.openFiles fd = some a →
      ∃ n, w'.vfs.fs.get? a.inode = some n ∧ n.kind = .file := by
    intro fd a hkeep ha
    obtain ⟨n, hn, hk⟩ := hlive fd a ha
    exact hkeep _ n hn hk
  intro fd a ha
  cases exec_table h hlive hr with
  | same keeps holds =>
    rw [holds] at ha
    exact hold keeps ha
  | opened ho ht keeps live resolved holds =>
    rw [holds] at ha
    by_cases hfd : fd = slot w.vfs.openFiles
    · rw [hfd, update_self] at ha
      obtain rfl := some.inj ha
      exact live
    · rw [update_of_ne hfd] at ha
      exact hold keeps ha
  | @closed fd' a' keeps was holds =>
    rw [holds] at ha
    by_cases hfd : fd = fd'
    · rw [hfd, update_self] at ha; cases ha
    · rw [update_of_ne hfd] at ha
      exact hold keeps ha
  | passed hcall hon ho keeps live holds =>
    rw [holds] at ha
    by_cases hfd : fd = slot w.vfs.openFiles % 2 ^ 32
    · rw [hfd, update_self] at ha; cases ha
    rw [update_of_ne hfd] at ha
    by_cases hslot : fd = slot w.vfs.openFiles
    · -- the slot was taken and not closed, because its number did not fit
      rw [hslot, update_self] at ha
      obtain rfl := some.inj ha
      exact live
    · rw [update_of_ne hslot] at ha
      exact hold keeps ha
  | removed hon hres keeps holds =>
    rw [holds, filter_eq_some_iff, decide_eq_true_eq] at ha
    obtain ⟨n, hn, hk⟩ := hlive fd a ha.1
    exact keeps _ n ha.2 hn hk

end table

/-- What every reachable state has: `/sys` in place, and live files behind the descriptors. -/
structure Steady (w : World) : Prop where
  sys : SysIntact w.vfs.fs
  live : FilesLive w.vfs

theorem steady_boot (storage : Storage.StorageState) (env : Env) : Steady (boot storage env) := by
  refine ⟨sysIntact_seed, fun fd a ha => ?_⟩
  cases ha

theorem Steady.exec {w : World} (h : Steady w) {r : Reply × World} (hr : exec w call = some r) : Steady r.2 :=
  ⟨guarded_sysIntact.exec h.sys hr, filesLive_exec h.sys.linked h.live hr⟩

end Saios.Vfs
