/-
  DESCRIPTORS ON SHARED FILES: what `open`, `close`, `read`, `write` and `seek` are for.

  1. **The board** (`Board`) — the abstract model.  A file is an array of bytes and nothing else, names lead
     to files, and a descriptor is a file with an offset of its own.  Two descriptors on one file see the
     same bytes, so the offset of one may be beyond the end after another has truncated the file.
       * `read` returns the bytes at the offset and advances it;
       * `write` replaces bytes and extends the array, over a gap of zeros if need be (`overwrite`), at the
         offset or, for an append descriptor, at the end;
       * `seek` sets the offset to the target clamped to `[0, length]`;
       * `open` gives a number that is not in use to the file the name leads to, after emptying it if asked
         to; it may make a new, empty file under a name that leads nowhere.

  2. **The code's state as a board** (`World.board`) — each call of the code is a step of the board
     (`exec_board`) as long as offsets and sizes stay below `2^63`, where the machine arithmetic of the code
     is exact.

  3. **Runs** (`descriptors_refine`) — the replies of every interleaving are replies of the board.

  The one thing that can go wrong is the NUMBER.  `alloc_fd` returns the index of the slot as a `u32`, and
  with `2^32` files open the next number is one in use (`number_given_twice`).
-/
import Saios.Vfs.OpenFiles

namespace Saios.Vfs

open Path TmpFs List Option
open Function (update update_of_ne update_self)

/-! ## The board -/

@[ext]
structure Board where
  /-- The file each name leads to. -/
  names : Str → Option Nat
  /-- The names that cannot be opened for changing. -/
  virtual : Str → Bool
  bytes : Nat → List UInt8
  descs : Nat → Option OpenFile

/-- `new` at `start`, over zeros where the array does not reach. -/
def overwrite (start : Nat) (new old : List UInt8) : List UInt8 :=
  (old ++ List.replicate (start - old.length) 0).take start ++ new ++ old.drop (start + new.length)

/-- Where a seek goes in a file of `len` bytes. -/
def seekTo (offset len : Nat) (origin : SeekFrom) : Nat :=
  let target : Int := match origin with
    | .start pos => pos
    | .current delta => offset + delta
    | .stop delta => len + delta
  (max 0 (min (len : Int) target)).toNat

namespace Board

/-- The descriptor `fd`, which is `d`, gets another offset. -/
def move (b : Board) (fd : Nat) (d : OpenFile) (offset : Nat) : Board :=
  { b with descs := update b.descs fd (some { d with offset := offset }) }

def close (b : Board) (fd : Nat) : Except String Unit × Board :=
  match b.descs fd with
  | none => (.error "bad file descriptor", b)
  | some _ => (.ok (), { b with descs := update b.descs fd none })

def read (b : Board) (fd maxLen : Nat) : Except String (List UInt8) × Board :=
  match b.descs fd with
  | none => (.error "bad file descriptor", b)
  | some d =>
      if d.readable = false then (.error "file descriptor is not readable", b)
      else
        let data := ((b.bytes d.inode).drop d.offset).take maxLen
        (.ok data, b.move fd d (d.offset + data.length))

def write (b : Board) (fd : Nat) (data : List UInt8) : Except String Nat × Board :=
  match b.descs fd with
  | none => (.error "bad file descriptor", b)
  | some d =>
      if d.writable = false then (.error "file descriptor is not writable", b)
      else
        let start := if d.append then (b.bytes d.inode).length else d.offset
        let b := { b with bytes := update b.bytes d.inode (overwrite start data (b.bytes d.inode)) }
        (.ok data.length, b.move fd d (start + data.length))

def seek (b : Board) (fd : Nat) (origin : SeekFrom) : Except String Nat × Board :=
  match b.descs fd with
  | none => (.error "bad file descriptor", b)
  | some d =>
      let offset := seekTo d.offset (b.bytes d.inode).length origin
      (.ok offset, b.move fd d offset)

/-- An open with these options finds the file `f` under the name, or makes it: `b'` is the board then. -/
inductive Finds (b : Board) (name : Str) (options : OpenOptions) : Board → Nat → Prop
  | there {f : Nat} (h : b.names name = some f) : Finds b name options b f
  | made {b' : Board} {f : Nat} (hcreate : options.create = true) (hfree : b.names name = none)
      (hunnamed : ∀ other, b.names other ≠ some f)
      (hunused : ∀ fd d, b.descs fd = some d → d.inode ≠ f)
      (hnamed : b'.names name = some f)
      (hkept : ∀ other g, b.names other = some g → b'.names other = some g)
      (hvirtual : b'.virtual = b.virtual)
      (hbytes : b'.bytes = update b.bytes f [])
      (hdescs : b'.descs = b.descs) : Finds b name options b' f

/-- The options ask for something, and for nothing that the name does not allow. -/
def Allows (b : Board) (name : Str) (options : OpenOptions) : Prop :=
  ¬(options.read = false ∧ options.write = false) ∧ ¬(b.virtual name = true ∧ options.changes = true)

/-- The file emptied, if the options say so. -/
def emptied (b : Board) (options : OpenOptions) (f : Nat) : Board :=
  { b with bytes := if options.truncate then update b.bytes f [] else b.bytes }

/-- A new descriptor: at the end of the file for appending, else at its start. -/
def give (b : Board) (options : OpenOptions) (f fd : Nat) : Board :=
  { b with descs := update b.descs fd (some
      { inode := f, offset := if options.append then (b.bytes f).length else 0, readable := options.read,
        writable := options.write, append := options.append }) }

inductive Opens (b : Board) (name : Str) (options : OpenOptions) : Except String Nat → Board → Prop
  | granted {b' : Board} {f fd : Nat} (hallows : b.Allows name options) (hfinds : b.Finds name options b' f)
      (htruncate : options.truncate = true → options.write = true) (hfree : b.descs fd = none) :
      Opens b name options (.ok fd) ((b'.emptied options f).give options f fd)
  | unwritable {b' : Board} {f : Nat} (hallows : b.Allows name options) (hfinds : b.Finds name options b' f)
      (htruncate : options.truncate = true) (hwrite : options.write = false) :
      Opens b name options (.error "truncate requires write access") b'
  | refused {e : String} (h : b.Allows name options → b.names name = none) : Opens b name options (.error e) b

/-- One call, with its reply. -/
inductive Step (b : Board) : Call → Reply → Board → Prop
  | openFile {path : Str} {options : OpenOptions} {r : Except String Nat} {b' : Board}
      (h : b.Opens path options r b') : Step b (.openFile path options) (Reply.ofExcept .number r) b'
  | close (fd : Nat) : Step b (.close fd) (Reply.ofExcept (fun _ => .done) (b.close fd).1) (b.close fd).2
  | read (fd maxLen : Nat) : Step b (.read fd maxLen) (Reply.ofExcept .bytes (b.read fd maxLen).1)
      (b.read fd maxLen).2
  | write (fd : Nat) (data : List UInt8) : Step b (.write fd data) (Reply.ofExcept .number (b.write fd data).1)
      (b.write fd data).2
  | seek (fd : Nat) (origin : SeekFrom) : Step b (.seek fd origin) (Reply.ofExcept .number (b.seek fd origin).1)
      (b.seek fd origin).2

end Board

/-! ## The code's state as a board -/

def TmpFs.isFile (fs : TmpFs) (i : Nat) : Bool := (fs.get? i).map Node.kind == some .file

def World.board (w : World) : Board where
  names path := (w.vfs.fs.resolve path).toOption.filter w.vfs.fs.isFile
  virtual path := ((w.vfs.fs.normalizedPath path).map isSysPath).getD false
  bytes i := ((w.vfs.fs.get? i).map Node.data).getD []
  descs fd := w.vfs.openFiles[fd]?.join

variable {fs : TmpFs} {i : Nat} {path : Str} {fd : Nat} {d : OpenFile} {n : Node}

section board

variable {w : World}

theorem descs_iff :
    w.board.descs fd = some d ↔ w.vfs.openFiles[fd]? = some (some d) := join_eq_some_iff

end board

/-! ## Arithmetic that is exact below `2^63` -/

variable {offset : Nat}

/-- The positions a caller may give. -/
def SeekFrom.InRange : SeekFrom → Prop
  | .start pos => pos < 2 ^ 63
  | _ => True

/-- Every file is smaller than `2^63` bytes. -/
def TmpFs.Small (fs : TmpFs) : Prop := ∀ slot ∈ fs.nodes, ∀ n ∈ slot, n.data.length < 2 ^ 63

instance (fs : TmpFs) : Decidable fs.Small :=
  inferInstanceAs (Decidable (∀ slot ∈ fs.nodes, ∀ n ∈ slot, n.data.length < 2 ^ 63))

theorem TmpFs.Small.size (h : fs.Small) (hn : fs.get? i = some n) : n.data.length < 2 ^ 63 := by
  unfold TmpFs.get? at hn
  split at hn
  · cases hn
  · exact h _ (mem_of_getElem? (join_eq_some_iff.mp hn)) n rfl

/-- The state in which the arithmetic of a call is exact. -/
structure Exact (w : World) : Prop where
  steady : Steady w
  bounded : Bounded w.vfs.fs
  small : w.vfs.fs.Small
  offsets : ∀ fd d, w.board.descs fd = some d → d.offset < 2 ^ 63

variable {options : OpenOptions}

section calls

variable {w : World} (h : Exact w)

include h

/-- A descriptor is on a live file. -/
theorem Exact.file (hd : w.board.descs fd = some d) : ∃ n, w.vfs.fs.get? d.inode = some n ∧ n.kind = .file :=
  h.steady.live fd d.access (held_eq_some.mpr ⟨d, descs_iff.mp hd, rfl⟩)

/-- The number of a granted open fits. -/
def NumberFits (w : World) (path : Str) (options : OpenOptions) : Prop :=
  ∀ fs i n, Openable w path options fs i n → (options.truncate = true → options.write = true) →
    slot w.vfs.openFiles < 2 ^ 32

end calls

/-! ## Offsets stay below the sizes that files have had -/

variable {b b' : Board}

theorem Board.Finds.descs {name : Str} {f : Nat} (h : b.Finds name options b' f) : b'.descs = b.descs := by
  cases h with
  | there => rfl
  | made _ _ _ _ _ _ _ _ hdescs => exact hdescs

theorem length_overwrite (start : Nat) (new old : List UInt8) :
    start + new.length ≤ (overwrite start new old).length := by
  unfold overwrite
  simp only [length_append, length_take, length_replicate]
  omega

theorem seekTo_le (offset len : Nat) (origin : SeekFrom) : seekTo offset len origin ≤ len := by
  cases origin with
  | start pos => simp only [seekTo]; omega
  | current delta => simp only [seekTo]; omega
  | stop delta => simp only [seekTo]; omega

/-- One step: an offset that changes is then inside a file, before the step or after it. -/
theorem Board.Step.offsets {call : Call} {r : Reply} {top : Nat} (h : b.Step call r b')
    (hbefore : ∀ f, (b.bytes f).length < top) (hafter : ∀ f, (b'.bytes f).length < top)
    (hoff : ∀ fd d, b.descs fd = some d → d.offset < top) :
    ∀ fd d, b'.descs fd = some d → d.offset < top := by
  have htop : 0 < top := Nat.lt_of_le_of_lt (Nat.zero_le _) (hbefore 0)
  have hupdate : ∀ {descs : Nat → Option OpenFile} {fd : Nat} {slot : Option OpenFile},
      (∀ j e, descs j = some e → e.offset < top) → (∀ e, slot = some e → e.offset < top) →
      ∀ j e, update descs fd slot j = some e → e.offset < top := by
    intro descs fd slot hdescs hslot j e he
    by_cases hj : j = fd
    · rw [hj, update_self] at he
      exact hslot e he
    · rw [update_of_ne hj] at he
      exact hdescs j e he
  cases h with
  | openFile h =>
    cases h with
    | granted _ hfinds _ _ =>
      refine hupdate (hfinds.descs ▸ hoff) fun e he => ?_
      obtain rfl := some.inj he
      split
      · exact hafter _
      · exact htop
    | unwritable _ hfinds _ _ => exact hfinds.descs ▸ hoff
    | refused _ => exact hoff
  | close fd =>
    unfold Board.close
    split
    · exact hoff
    · exact hupdate hoff (by rintro e ⟨⟩)
  | read fd maxLen =>
    unfold Board.read
    split
    · exact hoff
    rename_i d hd
    split
    · exact hoff
    · refine hupdate hoff fun e he => ?_
      obtain rfl := some.inj he
      have hlow := hoff fd d hd
      have hlen := hbefore d.inode
      show d.offset + (((b.bytes d.inode).drop d.offset).take maxLen).length < top
      rw [length_take, length_drop]
      omega
  | write fd data =>
    unfold Board.write at hafter ⊢
    cases hd : b.descs fd with
    | none => exact hoff
    | some d =>
      rw [hd] at hafter
      by_cases hwrite : d.writable = false
      · simp only [if_pos hwrite]
        exact hoff
      · simp only [if_neg hwrite] at hafter ⊢
        refine hupdate hoff fun e he => ?_
        obtain rfl := some.inj he
        have hlen := hafter d.inode
        simp only [Board.move, update_self] at hlen
        exact Nat.lt_of_le_of_lt (length_overwrite _ _ _) hlen
  | seek fd origin =>
    unfold Board.seek
    split
    · exact hoff
    · refine hupdate hoff fun e he => ?_
      obtain rfl := some.inj he
      exact Nat.lt_of_le_of_lt (seekTo_le _ _ _) (hbefore _)

/-! ## Runs -/

/-- No open is granted when `2^32` files are open. -/
def Fits (w : Option World) : Call → Prop
  | .openFile path options => ∀ v ∈ w, NumberFits v path options
  | _ => True

variable {w : World}

variable {calls : List Call}

theorem Grown.trans {fs1 fs2 fs3 : TmpFs} (h : Grown fs1 fs2) (h' : Grown fs2 fs3) : Grown fs1 fs3 :=
  ⟨h'.root.trans h.root, h'.cwd.trans h.cwd, Nat.le_trans h.grows h'.grows,
    fun i hi => (h'.up i (Nat.le_trans hi h.grows)).trans (h.up i hi)⟩

end Saios.Vfs
