/-
  THE DESCRIPTOR TABLE, and whole files read and written through a descriptor.

  1. **Slots** — `alloc_fd` takes the first free slot or a new one at the end (`slot`), and returns its
     index as a `u32`.  While that index is below `2^32` the descriptor denotes the slot it was made
     for: `place` is the table with the slot taken, `vacate` the table after it is closed, and closing
     gives the same slot out again.

  2. **Whole files** — `overwrite_file`: `open` with `write_only_create`, `write` and `close` replace the
     contents.  `read_file`: `open` with `read_only`, one large `read` and `close` return them.

  3. **Reading to the end** — `readToEnd` reads with a buffer of any size until nothing is left; it
     returns the rest of the file from the descriptor's offset, and nothing else.
-/
import Saios.Vfs.State
import Saios.Vfs.Table

namespace Saios.Vfs

open Path TmpFs List Option

/-! ## Slots -/

/-- The slot the next descriptor takes. -/
def slot (files : List (Option OpenFile)) : Nat := (firstFree files).getD files.length

/-- The table with that slot taken. -/
def place (files : List (Option OpenFile)) (file : OpenFile) : List (Option OpenFile) :=
  match firstFree files with
  | some idx => files.set idx (some file)
  | none => files ++ [some file]

/-- The table after the descriptor is closed. -/
def vacate (files : List (Option OpenFile)) : List (Option OpenFile) :=
  match firstFree files with
  | some _ => files
  | none => files ++ [none]

section
variable {files : List (Option OpenFile)}

theorem allocFd_mod (files : List (Option OpenFile)) (file : OpenFile) :
    allocFd files file = (slot files % 2 ^ 32, place files file) := by
  unfold allocFd slot place
  cases firstFree files <;> rfl

/-- A free slot lies in the table and is empty. -/
theorem firstFree_some {idx : Nat} (h : firstFree files = some idx) :
    idx < files.length ∧ files[idx]? = some none := by
  obtain ⟨hlt, hfree, -⟩ := findIdx?_eq_some_iff_getElem.mp h
  refine ⟨hlt, ?_⟩
  rw [getElem?_eq_getElem hlt, isNone_iff_eq_none.mp hfree]

theorem getElem?_place (file : OpenFile) : (place files file)[slot files]? = some (some file) := by
  unfold place slot
  cases hf : firstFree files with
  | some idx => exact getElem?_set_self (firstFree_some hf).1
  | none => exact getElem?_concat_length

theorem getOpenFile_place (file : OpenFile) :
    getOpenFile (place files file) (slot files) = .ok file := by
  rw [getOpenFile, getElem?_place]

theorem setOffset_place (file : OpenFile) (offset : Nat) :
    setOffset (place files file) (slot files) offset
      = place files { file with offset := offset } := by
  unfold setOffset place slot
  cases hf : firstFree files with
  | some idx =>
    show (files.set idx (some file)).modify idx _ = files.set idx _
    rw [modify_eq_set, getElem?_set_self (firstFree_some hf).1, set_set]
    rfl
  | none =>
    show (files ++ [some file]).modify files.length _ = files ++ [_]
    rw [modify_eq_set, getElem?_concat_length, set_append_right _ _ (Nat.le_refl _),
      Nat.sub_self]
    rfl

theorem closeFd_place (file : OpenFile) :
    closeFd (place files file) (slot files) = (.ok (), vacate files) := by
  have hset : (place files file).set (slot files) none = vacate files := by
    unfold place slot vacate
    cases hf : firstFree files with
    | some idx =>
      obtain ⟨hlt, hfree⟩ := firstFree_some hf
      show (files.set idx (some file)).set idx none = files
      rw [set_set]
      refine ext_getElem? fun j => ?_
      rw [getElem?_set]
      split
      · rename_i hj
        rw [← hj, hfree]
      · rfl
    | none =>
      show (files ++ [some file]).set files.length none = files ++ [none]
      rw [set_append_right _ _ (Nat.le_refl _), Nat.sub_self]
      rfl
  rw [closeFd, getElem?_place]
  exact congrArg _ hset

theorem close_place (w : World) (files : List (Option OpenFile)) (file : OpenFile) :
    close (w.setOpenFiles (place files file)) (slot files) = (.ok (), w.setOpenFiles (vacate files)) := by
  have hclose : closeFd (w.setOpenFiles (place files file)).vfs.openFiles (slot files)
      = (.ok (), vacate files) := closeFd_place file
  simp only [close, hclose]
  rfl

/-- A closed descriptor's slot is the next one to be taken. -/
theorem slot_vacate : slot (vacate files) = slot files := by
  unfold vacate
  cases hf : firstFree files with
  | some idx => rfl
  | none =>
    have hnew : firstFree (files ++ [none]) = some files.length := by
      unfold firstFree at hf ⊢
      rw [findIdx?_append, hf]
      simp
    rw [slot, slot, hnew, hf]
    rfl

end

/-! ## Opening -/

/-- The options ask for a change of what the path names. -/
def OpenOptions.changes (options : OpenOptions) : Bool :=
  options.write || options.create || options.truncate || options.append

theorem writable_of_not_sys {abs : Str} (h : isSysPath abs = false) (options : OpenOptions) :
    ¬(isSysPath abs = true ∧ options.changes = true) := by
  rw [h]
  rintro ⟨⟨⟩, -⟩

section created

variable {w w' : World} {path abs : Str} {options : OpenOptions} (hnorm : w.vfs.fs.normalizedPath path = some abs)
  (hsys : ¬(isSysPath abs = true ∧ options.changes = true)) (hacc : ¬(options.read = false ∧ options.write = false))

include hnorm hsys hacc

/-- How `open` goes on after its checks: the creation fails ... -/
theorem openFile_uncreated {e : String} (hc : createFor w path abs options = (.error e, w')) :
    openFile w path options = some (.error e, w') := by
  unfold openFile
  simp only [hnorm, bind_eq_bind, bind_some]
  rw [if_neg hacc, ← OpenOptions.changes, if_neg hsys, hc]

/-- ... or the path then resolves or not. -/
theorem openFile_created (hc : createFor w path abs options = (.ok (), w')) :
    (∀ e, w'.vfs.fs.resolve path = .error e → openFile w path options = some (.error e, w')) ∧
      ∀ i, w'.vfs.fs.resolve path = .ok i → openFile w path options = some (openInode w' i options) := by
  unfold openFile
  simp only [hnorm, bind_eq_bind, bind_some]
  rw [if_neg hacc, ← OpenOptions.changes, if_neg hsys, hc]
  constructor
  · intro e he; simp only [he]
  · intro i hi; simp only [hi]

end created

/-! ## Opening an inode -/

/-- The entry that `open` makes in the descriptor table. -/
def OpenOptions.entry (options : OpenOptions) (i : Nat) (n : Node) : OpenFile :=
  { inode := i, offset := if options.append then if options.truncate then 0 else n.data.length else 0,
    readable := options.read, writable := options.write, append := options.append }

/-- The tmpfs that `open` leaves. -/
def OpenOptions.emptied (options : OpenOptions) (fs : TmpFs) (i : Nat) (n : Node) : TmpFs :=
  if options.truncate then fs.setData i n [] else fs

section
variable {w : World} {i : Nat} {n : Node} {options : OpenOptions}

theorem openInode_eq (hn : w.vfs.fs.get? i = some n) (hk : n.kind = .file)
    (ht : options.truncate = true → options.write = true) :
    openInode w i options = (.ok (slot w.vfs.openFiles % 2 ^ 32),
      (w.setFs (options.emptied w.vfs.fs i n)).setOpenFiles
        (place w.vfs.openFiles (options.entry i n))) := by
  unfold openInode truncateFor OpenOptions.emptied OpenOptions.entry
  rw [node_ok.mpr hn]
  simp only
  rw [if_neg (not_not_intro hk)]
  cases htr : options.truncate with
  | false =>
    simp only [Bool.false_eq_true, if_false]
    cases happ : options.append with
    | false => simp only [allocFd_mod]; rfl
    | true => simp only [inodeLen_file hn hk, allocFd_mod]; rfl
  | true =>
    simp only [ht htr, Bool.true_eq_false, if_false, World.viaFs, truncateInode_file hn hk]
    cases happ : options.append with
    | false => simp only [allocFd_mod]; rfl
    | true =>
      have hlen' : (w.setFs (w.vfs.fs.setData i n [])).vfs.fs.inodeLen i = .ok 0 :=
        inodeLen_file (get?_setData_self hn _) hk
      simp only [if_true, hlen', allocFd_mod]; rfl

end

/-! ## Whole files -/

/-- Writing from the start of an empty file. -/
theorem writeData_empty {data : List UInt8} (h : data.length < 2 ^ 63) : writeData 0 data [] = data := by
  have hsadd : Word.sadd 0 data.length = data.length := by
    rw [Word.sadd_eq (by rw [Word.size]; omega), Nat.zero_add]
  unfold writeData Bytes.patch
  simp only [hsadd, length_nil, Nat.sub_zero, nil_append, take_zero, Nat.zero_add]
  rw [drop_eq_nil_of_le (by rw [length_replicate]), append_nil]

/-- The descriptor that `open` with `read_only` makes. -/
def readerOf (i offset : Nat) : OpenFile :=
  { inode := i, offset := offset, readable := true, writable := false, append := false }

/-- The descriptor that `open` with `write_only_create` makes. -/
def writerOf (i offset : Nat) : OpenFile :=
  { inode := i, offset := offset, readable := false, writable := true, append := false }

section descriptor

variable {w : World} (hfd : slot w.vfs.openFiles < 2 ^ 32) {i : Nat} {n : Node}
  (hn : w.vfs.fs.get? i = some n) (hk : n.kind = .file)

include hfd hn hk

/-- `open` for writing, `write` and `close` replace the contents. -/
theorem overwrite_file {data : List UInt8} (hdata : data.length < 2 ^ 63) :
    ∃ w1 w2, openInode w i .writeOnlyCreate = (.ok (slot w.vfs.openFiles), w1) ∧
      write w1 (slot w.vfs.openFiles) data = (.ok data.length, w2) ∧
      close w2 (slot w.vfs.openFiles) =
        (.ok (), (w.setFs (w.vfs.fs.setData i n data)).setOpenFiles (vacate w.vfs.openFiles)) := by
  have hwrite : (w.vfs.fs.setData i n []).writeInodeAt i 0 data =
      (.ok data.length, w.vfs.fs.setData i n data) := by
    rw [writeInodeAt_file (get?_setData_self hn []) hk, writeData_empty hdata]
    unfold setData put
    simp only [set_set]
  refine ⟨(w.setFs (w.vfs.fs.setData i n [])).setOpenFiles (place w.vfs.openFiles (writerOf i 0)),
    (w.setFs (w.vfs.fs.setData i n data)).setOpenFiles
      (place w.vfs.openFiles (writerOf i (Word.sadd 0 data.length))), ?_, ?_, ?_⟩
  · rw [openInode_eq hn hk fun _ => rfl, Nat.mod_eq_of_lt hfd]
    rfl
  · unfold write
    simp only [World.setOpenFiles, World.setFs, getOpenFile_place, writerOf, Bool.true_eq_false,
      if_false, Bool.false_eq_true, World.viaFs, hwrite, setOffset_place]
  · exact close_place _ _ _

omit hfd in
theorem readInodeRange_all (hsmall : n.data.length < 2 ^ 63) :
    w.vfs.fs.readInodeRange i 0 (2 ^ 64 - 1) = .ok n.data := by
  rw [readInodeRange_file hn hk, Word.sadd_eq (by decide), drop_zero, take_of_length_le (by omega)]

theorem open_reader : openInode w i .readOnly =
    (.ok (slot w.vfs.openFiles), w.setOpenFiles (place w.vfs.openFiles (readerOf i 0))) := by
  rw [openInode_eq hn hk Bool.noConfusion, Nat.mod_eq_of_lt hfd]
  rfl

/-- `open` for reading, `read` and `close` return the contents. -/
theorem read_file (hsmall : n.data.length < 2 ^ 63) :
    ∃ w1 w2, openInode w i .readOnly = (.ok (slot w.vfs.openFiles), w1) ∧
      read w1 (slot w.vfs.openFiles) (2 ^ 64 - 1) = (.ok n.data, w2) ∧
      close w2 (slot w.vfs.openFiles) = (.ok (), w.setOpenFiles (vacate w.vfs.openFiles)) := by
  refine ⟨_, w.setOpenFiles (place w.vfs.openFiles (readerOf i (Word.sadd 0 n.data.length))),
    open_reader hfd hn hk, ?_, ?_⟩
  · unfold read
    simp only [World.setOpenFiles, getOpenFile_place, readerOf, Bool.true_eq_false, if_false,
      readInodeRange_all hn hk hsmall, setOffset_place]
  · exact close_place _ _ _

end descriptor

/-! ## Reading to the end -/

/-- A client's loop: `read` with a buffer of `chunk` bytes until nothing comes; `none` when the fuel
    runs out. -/
def readToEnd : Nat → World → Nat → Nat → Option (Except String (List UInt8) × World)
  | 0, _, _, _ => none
  | fuel + 1, w, fd, chunk =>
      match read w fd chunk with
      | (.error e, w) => some (.error e, w)
      | (.ok data, w) =>
          if data = [] then some (.ok [], w)
          else
            match readToEnd fuel w fd chunk with
            | some (.ok rest, w) => some (.ok (data ++ rest), w)
            | other => other

section
variable {w : World} {files : List (Option OpenFile)} {i : Nat} {n : Node}

/-- One `read` at an offset inside the machine's range. -/
theorem read_place (files : List (Option OpenFile)) (hn : w.vfs.fs.get? i = some n)
    (hk : n.kind = .file) {offset chunk : Nat} (hoff : offset < 2 ^ 63) (hchunk : 0 < chunk) :
    ∃ data, read (w.setOpenFiles (place files (readerOf i offset))) (slot files) chunk =
        (.ok data, w.setOpenFiles (place files (readerOf i (Word.sadd offset data.length)))) ∧
      data <+: n.data.drop offset ∧ (data = [] ↔ n.data.length ≤ offset) := by
  have hrange : ∃ data, w.vfs.fs.readInodeRange i offset chunk = .ok data ∧
      data <+: n.data.drop offset ∧ (data = [] ↔ n.data.length ≤ offset) := by
    refine ⟨_, readInodeRange_file hn hk _ _, take_prefix _ _, ?_⟩
    -- a chunk is never empty
    have hsadd : offset < Word.sadd offset chunk := by
      unfold Word.sadd Word.max Word.size
      omega
    rw [take_eq_nil_iff, drop_eq_nil_iff]
    omega
  obtain ⟨data, hrange, hpre, hnil⟩ := hrange
  refine ⟨data, ?_, hpre, hnil⟩
  unfold read
  simp only [World.setOpenFiles, getOpenFile_place, readerOf, Bool.true_eq_false, if_false, hrange,
    setOffset_place]

/-- What `readToEnd` returns is what was left. -/
theorem readToEnd_place (files : List (Option OpenFile)) (hn : w.vfs.fs.get? i = some n) (hk : n.kind = .file)
    (hsmall : n.data.length < 2 ^ 63) {chunk : Nat} (hchunk : 0 < chunk) :
    ∀ (fuel offset : Nat), offset ≤ n.data.length → n.data.length - offset < fuel →
    ∃ w', readToEnd fuel (w.setOpenFiles (place files (readerOf i offset))) (slot files) chunk =
      some (.ok (n.data.drop offset), w') := by
  intro fuel
  induction fuel with
  | zero => omega
  | succ fuel ih =>
    intro offset hoff hfuel
    have hoff' : offset < 2 ^ 63 := by omega
    obtain ⟨data, hread, ⟨rest, hrest⟩, hnil⟩ := read_place files hn hk hoff' hchunk
    rw [readToEnd, hread]
    by_cases hd : data = []
    · simp only [if_pos hd]
      rw [drop_eq_nil_of_le (hnil.mp hd)]
      exact ⟨_, rfl⟩
    · simp only [if_neg hd]
      have hpos : 0 < data.length := length_pos_iff.mpr hd
      have hlen : data.length + rest.length = n.data.length - offset := by
        rw [← length_append, hrest, length_drop]
      rw [Word.sadd_eq (by rw [Word.size]; omega)]
      obtain ⟨w', hw'⟩ := ih (offset + data.length) (by omega) (by omega)
      rw [hw']
      refine ⟨w', ?_⟩
      rw [← drop_drop, ← hrest, drop_left]

/-- What the loop returns is never anything else, however long the file. -/
theorem readToEnd_sound (hn : w.vfs.fs.get? i = some n) (hk : n.kind = .file) {chunk : Nat}
    (hchunk : 0 < chunk) : ∀ (fuel offset : Nat) (got : List UInt8) (w' : World),
    readToEnd fuel (w.setOpenFiles (place files (readerOf i offset))) (slot files) chunk =
      some (.ok got, w') → offset + got.length < 2 ^ 63 → got = n.data.drop offset := by
  intro fuel
  induction fuel with
  | zero => intro offset got w' h; cases h
  | succ fuel ih =>
    intro offset got w' h hlen
    have hoff : offset < 2 ^ 63 := by omega
    obtain ⟨data, hread, ⟨rest, hrest⟩, hnil⟩ := read_place files hn hk hoff hchunk
    rw [readToEnd, hread] at h
    by_cases hd : data = []
    · simp only [if_pos hd] at h
      cases h
      rw [drop_eq_nil_of_le (hnil.mp hd)]
    · simp only [if_neg hd] at h
      split at h
      · rename_i tail w'' htail
        cases h
        rw [length_append] at hlen
        rw [Word.sadd_eq (by rw [Word.size]; omega)] at htail
        rw [ih _ tail _ htail (by omega), ← drop_drop, ← hrest, drop_left]
      · rename_i hother
        exact absurd h (hother got w')

end

end Saios.Vfs
