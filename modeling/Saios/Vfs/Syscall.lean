/-
  SYSTEM CALLS ON A DESCRIPTOR (`seed/saios/src/kernel/syscall.rs`): `Read`, `Write` and `Close` of `dispatch`.

  1. **Numbers** — a caller passes 64 bits, a `VfsFd` has 32: `req.args[0] as vfs::VfsFd` keeps the LOW HALF.

  2. **`Heeds`** — a call is refused and does nothing, or it keeps to the open descriptor of its number.

  3. **`heeds_iff`** — so it is if the number has 32 bits, or if its low half is no open descriptor.  For any
     other number `Close` closes the descriptor of the low half.
-/
import Saios.Vfs.Handles
import Saios.Vfs.Safety

namespace Saios.Vfs

open TmpFs List Option

/-! ## The calls -/

inductive SyscallError
  | invalidNumber | invalidArgument | unimplemented
  deriving DecidableEq, Repr

/-- The calls whose first argument is a descriptor, with their second argument. -/
inductive FdCall
  | read (maxLen : UInt64)
  | write (selector : UInt64)
  | close

def selectorToData (selector : UInt64) : Option (List UInt8) :=
  Option.map (fun s : String => s.toUTF8.data.toList) <| match selector.toNat with
    | 0 => some ""
    | 1 => some "hello\n"
    | 2 => some "SAIOS syscall write test\n"
    | 3 => some "The quick brown fox jumps over the lazy dog\n"
    | _ => none

/-- The result, what is printed, and the world after the call. -/
abbrev Served := Except SyscallError Nat × Option String × World

/-- `map_err(|_| SyscallError::InvalidArgument)?`, and what a call does with the value. -/
def serve {α : Type} (r : Except String α × World) (value : α → Nat) (shown : α → Option String) : Served :=
  match r with
  | (.error _, w) => (.error .invalidArgument, none, w)
  | (.ok a, w) => (.ok (value a), shown a, w)

def dispatch (w : World) (arg : UInt64) : FdCall → Served
  | .read maxLen =>
      serve (read w arg.toUInt32.toNat (if maxLen = 0 then 4096 else maxLen.toNat)) length
        fun data => some ((String.fromUTF8? ⟨data.toArray⟩).getD "<binary>")
  | .write selector =>
      match selectorToData selector with
      | none => (.error .invalidArgument, none, w)
      | some data => serve (write w arg.toUInt32.toNat data) id fun _ => none
  | .close => serve (close w arg.toUInt32.toNat) (fun _ => 0) fun _ => none

/-! ## What a call changes -/

/-- Descriptor `fd` is open, and at most it and the contents of its file change. -/
def KeepsTo (fd : Nat) (w w' : World) : Prop :=
  ∃ file entry fs, w.vfs.openFiles[fd]? = some (some file) ∧
    (fs = w.vfs.fs ∨ ∃ n data, w.vfs.fs.get? file.inode = some n ∧ fs = w.vfs.fs.setData file.inode n data) ∧
    w' = (w.setFs fs).setOpenFiles (w.vfs.openFiles.set fd entry)

/-- What the caller of number `fd` may expect. -/
def Heeds (w : World) (fd : Nat) (r : Served) : Prop :=
  r = (.error .invalidArgument, none, w) ∨ KeepsTo fd w r.2.2

variable {w : World} {fd : Nat}

theorem heeds_serve {α : Type} {r : Except String α × World} {value : α → Nat} {shown : α → Option String}
    (h : (∃ e, r = (.error e, w)) ∨ KeepsTo fd w r.2) : Heeds w fd (serve r value shown) := by
  rcases h with ⟨e, rfl⟩ | h
  · exact .inl rfl
  · right
    obtain ⟨_ | a, w'⟩ := r
    · exact h
    · exact h

theorem setOffset_eq_set (files : List (Option OpenFile)) (fd offset : Nat) :
    ∃ entry, setOffset files fd offset = files.set fd entry := ⟨_, modify_eq_set ..⟩

/-- Every call keeps to the LOW HALF of its number. -/
theorem heeds_low (w : World) (arg : UInt64) (call : FdCall) :
    Heeds w (arg.toNat % 2 ^ 32) (dispatch w arg call) := by
  rw [← UInt64.toNat_toUInt32]
  cases call with
  | read maxLen =>
    apply heeds_serve
    rcases read_cases w arg.toUInt32.toNat (if maxLen = 0 then 4096 else maxLen.toNat) with
      he | ⟨file, data, hfile, -, -, he⟩
    · exact .inl he
    · rw [he]
      obtain ⟨entry, hentry⟩ := setOffset_eq_set w.vfs.openFiles arg.toUInt32.toNat _
      exact .inr ⟨file, entry, _, hfile, .inl rfl, congrArg w.setOpenFiles hentry⟩
  | write selector =>
    rw [dispatch]
    cases selectorToData selector with
    | none => exact .inl rfl
    | some data =>
      apply heeds_serve
      rcases write_cases w arg.toUInt32.toNat data with he | ⟨file, n, offset, hfile, -, hn, -, -, he⟩
      · exact .inl he
      · rw [he]
        obtain ⟨entry, hentry⟩ := setOffset_eq_set w.vfs.openFiles arg.toUInt32.toNat _
        exact .inr ⟨file, entry, _, hfile, .inr ⟨n, _, hn, rfl⟩,
          congrArg (World.setOpenFiles _) hentry⟩
  | close =>
    apply heeds_serve
    rcases getElem?_cases w.vfs.openFiles arg.toUInt32.toNat with ⟨file, hfile⟩ | hno
    · rw [close_open hfile]
      exact .inr ⟨file, none, _, hfile, .inl rfl, rfl⟩
    · exact .inl ⟨_, close_bad hno⟩

theorem close_low (arg : UInt64) {file : OpenFile} (hbig : 2 ^ 32 ≤ arg.toNat)
    (hfile : w.vfs.openFiles[arg.toNat % 2 ^ 32]? = some (some file)) :
    ¬Heeds w arg.toNat (dispatch w arg .close) := by
  rw [dispatch, UInt64.toNat_toUInt32, close_open hfile]
  rintro (h | ⟨-, entry, fs, -, -, h⟩)
  · cases h
  · -- the descriptor of the low half was open and is closed, though it is not descriptor `arg`
    have hset : w.vfs.openFiles.set (arg.toNat % 2 ^ 32) none = w.vfs.openFiles.set arg.toNat entry :=
      congrArg (·.vfs.openFiles) h
    have hat := congrArg (·[arg.toNat % 2 ^ 32]?) hset
    rw [getElem?_set_self (List.getElem?_eq_some_iff.mp hfile).1, getElem?_set_ne (by omega), hfile] at hat
    cases hat

/-- **The three calls keep to the descriptor they are given** exactly if its number has 32 bits, or its low
    half is no open descriptor. -/
theorem heeds_iff (w : World) (arg : UInt64) :
    (∀ call, Heeds w arg.toNat (dispatch w arg call)) ↔
      arg.toNat < 2 ^ 32 ∨ ∀ file, w.vfs.openFiles[arg.toNat % 2 ^ 32]? ≠ some (some file) := by
  constructor
  · intro h
    by_contra hno
    rw [not_or, not_forall] at hno
    obtain ⟨hbig, file, hfile⟩ := hno
    exact close_low arg (not_lt.mp hbig) (not_not.mp hfile) (h .close)
  · rintro (hsmall | hno) call
    · rw [← Nat.mod_eq_of_lt hsmall]
      exact heeds_low w arg call
    · rcases heeds_low w arg call with h | ⟨file, -, -, hfile, -⟩
      · exact .inl h
      · exact absurd hfile (hno file)

/-- Number `2 ^ 32` closes descriptor 0. -/
theorem close_wraps : ¬Heeds (quiet.setOpenFiles [some ⟨1, 0, true, false, false⟩]) 4294967296
    (dispatch (quiet.setOpenFiles [some ⟨1, 0, true, false, false⟩]) 4294967296 .close) :=
  close_low 4294967296 (by decide) rfl

end Saios.Vfs
