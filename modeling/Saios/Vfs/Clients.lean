/-
  DESCRIPTORS AMONG CLIENTS: does a number that `open` gave to a client stay that client's?

  There is one descriptor table for the whole kernel, a descriptor is an index into it, and no call looks
  at who is calling.

  1. **Clients** (`Shared`, `clientStep`) — any number of clients make calls in any order.  Beside the
     kernel's state a record is kept of what was promised: for each successful `open` that its client has
     not closed, the client, the number, WHICH open it was, and the inode and access it asked for.
     `read_path` and `write_path` take the kernel's lock anew for each of their three steps; a run in which
     others come in between is the run in which the client makes the three calls itself.

  2. **Promise kept** (`Honoured`) — every `read`, `write`, `seek` and `close` with the number fails, or goes
     through the table entry of that open, on its inode and with its access.

  3. **What breaks it** (`Orderly`) — removing a file that somebody has open frees the slot while its client
     still has the number; so does a `close` by somebody else; and an open that takes a slot past `2^32`
     returns the number of another open file.  Without these, every promise is kept
     (`promises_kept`); with one of them the next `open` hands the number out again
     (`unlink_reuses_number`).
-/
import Saios.Vfs.OpenFiles

namespace Saios.Vfs

open Path TmpFs List Option
open Function (update update_of_ne update_self)

/-! ## Clients -/

/-- A number that `open` returned to a client. -/
structure Grant where
  client : Nat
  fd : Nat
  /-- Which open it was, counted from the start. -/
  opening : Nat
  access : Access
  deriving DecidableEq

/-- The kernel with the record of promises. -/
structure Shared where
  world : World
  /-- Which open filled each slot last. -/
  filledBy : Nat → Nat
  grants : List Grant
  opens : Nat

/-- The inode that a path leads to. -/
def inodeAt (fs : TmpFs) (path : Str) : Nat :=
  match fs.resolve path with
  | .ok i => i
  | .error _ => 0

/-- The record after a call. -/
def Shared.after (s : Shared) (client : Nat) (w : World) : Call → Reply → Shared
  | .openFile path options, .number fd =>
      { world := w
        filledBy := update s.filledBy (slot s.world.vfs.openFiles) s.opens
        grants := ⟨client, fd, s.opens, options.access (inodeAt w.vfs.fs path)⟩ :: s.grants
        opens := s.opens + 1 }
  | .close fd, .done =>
      { s with world := w, grants := s.grants.filter fun g => ¬(g.client = client ∧ g.fd = fd) }
  | _, _ => { s with world := w }

/-- One call by one client. -/
def clientStep (s : Option Shared) (act : Nat × Call) : Option Shared :=
  s.bind fun s => (exec s.world act.2).map fun r => s.after act.1 r.2 act.2 r.1

/-- Nothing has been opened yet. -/
def start (storage : Storage.StorageState) (env : Env) : Shared :=
  { world := boot storage env, filledBy := fun _ => 0, grants := [], opens := 0 }

/-! ## Promises -/

/-- The number a call works on. -/
def Call.fd? : Call → Option Nat
  | .close fd => some fd
  | .read fd _ => some fd
  | .write fd _ => some fd
  | .seek fd _ => some fd
  | _ => none

/-- What a call that succeeds has done, when it went by this access. -/
def ActsOn (w w' : World) (a : Access) : Call → Reply → Prop
  | .read _ maxLen, .bytes data =>
      a.readable = true ∧ (∃ offset, w.vfs.fs.readInodeRange a.inode offset maxLen = .ok data) ∧
        w'.vfs.fs = w.vfs.fs
  | .write _ data, .number written =>
      a.writable = true ∧ written = data.length ∧ ∃ n offset, w.vfs.fs.get? a.inode = some n ∧
        w'.vfs.fs = w.vfs.fs.setData a.inode n (writeData offset data n.data)
  | .seek _ _, .number _ => (∃ size, w.vfs.fs.inodeLen a.inode = .ok size) ∧ w'.vfs.fs = w.vfs.fs
  | .close fd, .done =>
      w'.vfs.fs = w.vfs.fs ∧ held w'.vfs.openFiles = update (held w.vfs.openFiles) fd none
  | _, _ => False

/-- Every call with the number fails, or goes through what that open made. -/
def Honoured (s : Shared) (g : Grant) : Prop :=
  ∀ call reply w', call.fd? = some g.fd → exec s.world call = some (reply, w') →
    (∃ e, reply = .failed e) ∨ (s.filledBy g.fd = g.opening ∧ ActsOn s.world w' g.access call reply)

/-- `open` would succeed. -/
def Opens (w : World) (path : Str) (options : OpenOptions) : Prop :=
  (∃ fs i n, Openable w path options fs i n) ∧ (options.truncate = true → options.write = true)

/-- The calls that take no number away from its client. -/
def OrderlyIn (s : Shared) (client : Nat) : Call → Prop
  | .unlink path => ∀ i, OnTmpfs s.world path → s.world.vfs.fs.resolve path = .ok i →
      ∀ fd a, held s.world.vfs.openFiles fd = some a → a.inode ≠ i
  | .close fd => held s.world.vfs.openFiles fd ≠ none → ∃ g ∈ s.grants, g.client = client ∧ g.fd = fd
  | .openFile path options => Opens s.world path options → slot s.world.vfs.openFiles < 2 ^ 32
  | .readPath path =>
      OnTmpfs s.world path → Opens s.world path .readOnly → slot s.world.vfs.openFiles < 2 ^ 32
  | .writePath path _ =>
      OnTmpfs s.world path → Opens s.world path .writeOnlyCreate → slot s.world.vfs.openFiles < 2 ^ 32
  | _ => True

def Orderly (s : Option Shared) (act : Nat × Call) : Prop := ∀ v, s = some v → OrderlyIn v act.1 act.2

/-! ## The invariant -/

/-- Every promise has its own entry in the table. -/
structure Tended (s : Shared) : Prop where
  steady : Steady s.world
  own : ∀ g ∈ s.grants, held s.world.vfs.openFiles g.fd = some g.access ∧ s.filledBy g.fd = g.opening
  counted : ∀ g ∈ s.grants, g.opening < s.opens
  distinct : ∀ g ∈ s.grants, ∀ g' ∈ s.grants, g.opening = g'.opening → g = g'

theorem tended_start (storage : Storage.StorageState) (env : Env) : Tended (start storage env) := by
  refine ⟨steady_boot storage env, ?_, ?_, ?_⟩
  · intro g hg; cases hg
  · intro g hg; cases hg
  · intro g hg; cases hg

/-- A call that is neither a successful `open` nor a successful `close` leaves the record alone. -/
theorem after_other (s : Shared) (client : Nat) (w : World) {call : Call} {reply : Reply}
    (noOpen : ∀ path options fd, call = .openFile path options → reply ≠ .number fd)
    (noClose : ∀ fd, call = .close fd → reply ≠ .done) :
    s.after client w call reply = { s with world := w } := by
  unfold Shared.after
  split
  · exact absurd rfl (noOpen _ _ _ rfl)
  · exact absurd rfl (noClose _ rfl)
  · rfl

variable {client : Nat}

section step

variable {s : Shared} (h : Tended s) {w' : World} (hs : Steady w')

include h

theorem Tended.fd_ne_slot {g : Grant} (hg : g ∈ s.grants) : g.fd ≠ slot s.world.vfs.openFiles := by
  intro hfd
  have hheld := (h.own g hg).1
  rw [hfd, held_slot] at hheld
  cases hheld

include hs

/-- Promises that keep their entries, with nothing new. -/
theorem Tended.rest {grants : List Grant} (hsub : ∀ g ∈ grants, g ∈ s.grants)
    (hheld : ∀ g ∈ grants, held w'.vfs.openFiles g.fd = held s.world.vfs.openFiles g.fd) :
    Tended { s with world := w', grants := grants } := by
  refine ⟨hs, fun g hg => ?_, fun g hg => h.counted g (hsub g hg), ?_⟩
  · exact ⟨(hheld g hg).trans (h.own g (hsub g hg)).1, (h.own g (hsub g hg)).2⟩
  · intro g hg g' hg' heq
    exact h.distinct g (hsub g hg) g' (hsub g' hg') heq

theorem Tended.opened {path : Str} {options : OpenOptions} {i : Nat}
    (hfits : slot s.world.vfs.openFiles < 2 ^ 32) (hres : w'.vfs.fs.resolve path = .ok i)
    (hheld : held w'.vfs.openFiles = update (held s.world.vfs.openFiles)
      (slot s.world.vfs.openFiles) (some (options.access i))) :
    Tended (s.after client w' (.openFile path options) (.number (slot s.world.vfs.openFiles % 2 ^ 32))) := by
  have hinode : inodeAt w'.vfs.fs path = i := by rw [inodeAt, hres]
  refine ⟨hs, ?_, ?_, ?_⟩
  · intro g hg
    show held w'.vfs.openFiles g.fd = _ ∧ update s.filledBy _ _ g.fd = _
    rcases mem_cons.mp hg with rfl | hg
    · simp only [Nat.mod_eq_of_lt hfits, hheld, update_self, hinode, and_self]
    · have hne := h.fd_ne_slot hg
      rw [hheld, update_of_ne hne, update_of_ne hne]
      exact h.own g hg
  · intro g hg
    rcases mem_cons.mp hg with rfl | hg
    · exact Nat.lt_succ_self _
    · exact Nat.lt_succ_of_lt (h.counted g hg)
  · intro g hg g' hg' heq
    rcases mem_cons.mp hg with rfl | hg
    · rcases mem_cons.mp hg' with rfl | hg'
      · rfl
      · have hlt := h.counted g' hg'
        simp only at heq
        omega
    · rcases mem_cons.mp hg' with rfl | hg'
      · have hlt := h.counted g hg
        simp only at heq
        omega
      · exact h.distinct g hg g' hg' heq

theorem Tended.closed {fd : Nat} (hold : ∃ g ∈ s.grants, g.client = client ∧ g.fd = fd)
    (hheld : held w'.vfs.openFiles = update (held s.world.vfs.openFiles) fd none) :
    Tended (s.after client w' (.close fd) .done) := by
  obtain ⟨g0, hg0, hclient, hfd⟩ := hold
  have hmem : ∀ g ∈ s.grants.filter (fun g => ¬(g.client = client ∧ g.fd = fd)),
      g ∈ s.grants ∧ ¬(g.client = client ∧ g.fd = fd) := by
    intro g hg
    rw [mem_filter, decide_eq_true_eq] at hg
    exact hg
  refine h.rest hs (fun g hg => (hmem g hg).1) fun g hg => ?_
  obtain ⟨hg, hother⟩ := hmem g hg
  have hne : g.fd ≠ fd := by
    intro heq
    obtain rfl := h.distinct g hg g0 hg0 (by rw [← (h.own g hg).2, ← (h.own g0 hg0).2, heq, hfd])
    exact hother ⟨hclient, hfd⟩
  rw [hheld, update_of_ne hne]

end step

/-- **One orderly call keeps every promise's entry.** -/
theorem Tended.exec {s : Shared} (h : Tended s) {call : Call} (ho : OrderlyIn s client call) {reply : Reply}
    {w' : World} (hr : exec s.world call = some (reply, w')) : Tended (s.after client w' call reply) := by
  have hs : Steady w' := h.steady.exec hr
  cases exec_table h.steady.sys.linked h.steady.live hr with
  | same keeps holds noOpen noClose =>
    rw [after_other s client w' noOpen noClose]
    exact h.rest hs (fun _ hg => hg) fun g _ => congrFun holds g.fd
  | opened hopen ht keeps live resolved holds =>
    exact h.opened hs (ho ⟨⟨_, _, _, hopen⟩, ht⟩) resolved holds
  | closed keeps was holds =>
    exact h.closed hs (ho (by rw [was]; exact some_ne_none _)) holds
  | passed hcall hon hopen keeps live holds =>
    -- only the two calls by path open and close, and the number they close is the one they opened
    obtain ⟨hfits, hafter⟩ : slot s.world.vfs.openFiles < 2 ^ 32 ∧
        s.after client w' call reply = { s with world := w' } := by
      cases call with
      | readPath path =>
        obtain ⟨rfl, rfl⟩ := Prod.mk.inj (some.inj hcall)
        exact ⟨ho hon ⟨⟨_, _, _, hopen⟩, fun ht => Bool.noConfusion ht⟩, rfl⟩
      | writePath path data =>
        obtain ⟨rfl, rfl⟩ := Prod.mk.inj (some.inj hcall)
        exact ⟨ho hon ⟨⟨_, _, _, hopen⟩, fun _ => rfl⟩, rfl⟩
      | _ => cases hcall
    rw [hafter]
    refine h.rest hs (fun _ hg => hg) fun g hg => ?_
    have hne := h.fd_ne_slot hg
    rw [holds, Nat.mod_eq_of_lt hfits, update_of_ne hne, update_of_ne hne]
  | removed hon hres keeps holds =>
    refine h.rest hs (fun _ hg => hg) fun g hg => ?_
    rw [holds, (h.own g hg).1, filter_some, if_pos]
    exact decide_eq_true (ho _ hon hres g.fd g.access (h.own g hg).1)

/-- A number with its own entry is honoured. -/
theorem Tended.honoured {s : Shared} (h : Tended s) {g : Grant} (hg : g ∈ s.grants) : Honoured s g := by
  obtain ⟨hheld, hfilled⟩ := h.own g hg
  obtain ⟨file, hfile, haccess⟩ := held_eq_some.mp hheld
  -- the entry that a call finds is the one of the promise
  have hsame : ∀ {file'}, s.world.vfs.openFiles[g.fd]? = some (some file') → file'.access = g.access := by
    intro file' hfile'
    obtain rfl := some.inj (mem_unique hfile hfile')
    exact haccess
  intro call reply w' hfd hr
  cases call with
  | close fd =>
    obtain rfl : fd = g.fd := some.inj hfd
    cases hr
    rw [close_open hfile]
    exact .inr ⟨hfilled, rfl, held_set g.fd⟩
  | read fd maxLen =>
    obtain rfl : fd = g.fd := some.inj hfd
    cases hr
    rcases read_cases s.world g.fd maxLen with ⟨e, he⟩ | ⟨file', data, hfile', hread, hdata, he⟩
    · rw [he]; exact .inl ⟨e, rfl⟩
    · rw [he]
      rw [← hsame hfile']
      exact .inr ⟨hfilled, hread, ⟨_, hdata⟩, rfl⟩
  | write fd data =>
    obtain rfl : fd = g.fd := some.inj hfd
    cases hr
    rcases write_cases s.world g.fd data with ⟨e, he⟩ | ⟨file', n, offset, hfile', hwrite, hn, -, -, he⟩
    · rw [he]; exact .inl ⟨e, rfl⟩
    · rw [he]
      rw [← hsame hfile']
      exact .inr ⟨hfilled, hwrite, rfl, n, offset, hn, rfl⟩
  | seek fd origin =>
    obtain rfl : fd = g.fd := some.inj hfd
    cases hr
    rcases seek_cases s.world g.fd origin with ⟨e, he⟩ | ⟨file', size, offset, hfile', hsize, he⟩
    · rw [he]; exact .inl ⟨e, rfl⟩
    · rw [he]
      rw [← hsame hfile']
      exact .inr ⟨hfilled, ⟨size, hsize⟩, rfl⟩
  | _ => cases hfd

/-! ## Runs -/

theorem tended_step (s : Option Shared) (act : Nat × Call) (hs : ∀ v, s = some v → Tended v)
    (ho : Orderly s act) : ∀ v, clientStep s act = some v → Tended v := by
  intro v hv
  obtain ⟨u, rfl, hu⟩ := bind_eq_some_iff.mp hv
  obtain ⟨r, hr, rfl⟩ := map_eq_some_iff.mp hu
  exact (hs u rfl).exec (ho u rfl) hr

/-- **A number stays its client's.**  For any number of clients and any interleaving of their calls, in
    which nobody removes a file that is open, closes a number that is not their own, or opens a file when
    the first `2^32` slots are taken: in the state reached, every call with a number that `open` returned
    and its client has not closed fails, or acts on the inode that `open` resolved, with the access it
    granted, through the entry that this very open made. -/
theorem promises_kept (storage : Storage.StorageState) (env : Env) (acts : List (Nat × Call))
    (hrun : Run.Along clientStep Orderly (some (start storage env)) acts) (s : Shared)
    (hs : acts.foldl clientStep (some (start storage env)) = some s) : ∀ g ∈ s.grants, Honoured s g := by
  have hinv := Run.foldl_inv_along (I := fun s : Option Shared => ∀ v, s = some v → Tended v)
    tended_step (fun v hv => Option.some.inj hv ▸ tended_start storage env) hrun
  exact fun g hg => (hinv s hs).honoured hg

/-- A file to write, made if it is not there. -/
def writeCreate : OpenOptions :=
  { read := false, write := true, create := true, truncate := false, append := false }

/-- The kernel with no storage controller, before any client. -/
def quietStart : Shared := start (Storage.init []) ⟨fun _ => none, fun _ => none, []⟩

/-- Client 1 removes the file that client 0 has open, and opens one of their own. -/
def removeAndOpen : List (Nat × Call) :=
  [(0, .openFile "/tmp/x".toList writeCreate), (1, .unlink "/tmp/x".toList),
    (1, .openFile "/tmp/y".toList writeCreate)]

/-- **Reused.**  Client 0 still has number 0; writing with it succeeds, and goes to the file of client 1. -/
theorem unlink_reuses_number : ∃ s g, removeAndOpen.foldl clientStep (some quietStart) = some s ∧
    g ∈ s.grants ∧ g.client = 0 ∧ ¬Honoured s g := by
  have hrun : ∃ s, removeAndOpen.foldl clientStep (some quietStart) = some s ∧ s.filledBy 0 = 1 ∧
      s.grants = [⟨1, 0, 1, ⟨41, false, true, false⟩⟩, ⟨0, 0, 0, ⟨40, false, true, false⟩⟩] ∧
      (exec s.world (.write 0 [7])).map Prod.fst = some (.number 1) := by
    rw [show quietStart = ⟨quiet, fun _ => 0, [], 0⟩ from rfl, quiet_eq]
    exact ⟨_, rfl, by decide, by decide, by decide⟩
  obtain ⟨s, hs, hfilled, hgrants, hwrite⟩ := hrun
  refine ⟨s, ⟨0, 0, 0, ⟨40, false, true, false⟩⟩, hs, by rw [hgrants]; decide, rfl, fun hkept => ?_⟩
  obtain ⟨⟨reply, w'⟩, hexec, rfl⟩ := Option.map_eq_some_iff.mp hwrite
  rcases hkept (.write 0 [7]) _ w' rfl hexec with ⟨e, he⟩ | ⟨hown, -⟩
  · cases he
  · rw [hfilled] at hown
    cases hown

/-- Two clients with a file each, one of which is closed again. -/
def twoFiles : List (Nat × Call) :=
  [(0, .openFile "/tmp/x".toList writeCreate), (1, .openFile "/tmp/y".toList writeCreate), (0, .close 0)]

theorem promises_kept_two : ∃ s, twoFiles.foldl clientStep (some quietStart) = some s ∧
    s.grants = [⟨1, 1, 1, ⟨41, false, true, false⟩⟩] ∧ ∀ g ∈ s.grants, Honoured s g := by
  -- the states on the way
  have hstates : ∃ s₁ s₂ s, clientStep (some quietStart) (0, .openFile "/tmp/x".toList writeCreate) = some s₁ ∧
      clientStep (some s₁) (1, .openFile "/tmp/y".toList writeCreate) = some s₂ ∧
      clientStep (some s₂) (0, .close 0) = some s ∧ slot quietStart.world.vfs.openFiles = 0 ∧
      slot s₁.world.vfs.openFiles = 1 ∧ ⟨0, 0, 0, ⟨40, false, true, false⟩⟩ ∈ s₂.grants ∧
      s.grants = [⟨1, 1, 1, ⟨41, false, true, false⟩⟩] := by
    rw [show quietStart = ⟨quiet, fun _ => 0, [], 0⟩ from rfl, quiet_eq]
    exact ⟨_, _, _, rfl, rfl, rfl, by decide, by decide, by decide, by decide⟩
  obtain ⟨s₁, s₂, s, h₁, h₂, h₃, hslot, hslot₁, hmine, hgrants⟩ := hstates
  have hs : twoFiles.foldl clientStep (some quietStart) = some s := by
    simp only [twoFiles, List.foldl_cons, List.foldl_nil, h₁, h₂, h₃]
  refine ⟨s, hs, hgrants, promises_kept _ _ twoFiles ?_ s hs⟩
  refine ⟨fun v hv _ => ?_, ?_⟩
  · obtain rfl := Option.some.inj hv
    show slot quietStart.world.vfs.openFiles < 2 ^ 32
    rw [hslot]; decide
  show Run.Along clientStep Orderly (clientStep (some quietStart) (0, .openFile "/tmp/x".toList writeCreate)) _
  rw [h₁]
  refine ⟨fun v hv _ => ?_, ?_⟩
  · obtain rfl := Option.some.inj hv
    rw [hslot₁]; decide
  show Run.Along clientStep Orderly (clientStep (some s₁) (1, .openFile "/tmp/y".toList writeCreate)) _
  rw [h₂]
  refine ⟨fun v hv _ => ?_, trivial⟩
  obtain rfl := Option.some.inj hv
  exact ⟨_, hmine, rfl, rfl⟩

end Saios.Vfs
