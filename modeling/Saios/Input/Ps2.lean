/-
  THE PS/2 KEYBOARD: `shift_down` and `ctrl_down` against the keys that are held.

  1. **The driver** (`pollEvent`) — one scancode at a time; `E0` marks the next one as extended.

  2. **The keys** (`Act`, `Machine.step`) — every press and release sends its set-1 code; `held` is the truth the two
     flags are compared with.

  3. **`modifiers_exact_iff`** — both flags are right after every code exactly if no shift key is let go while the
     other is held, and the right control key, which the driver never sees, is held only together with the left one.
-/
import Saios.Lib.Run
import Mathlib.Logic.Function.Basic

namespace Saios.Input.Ps2

open List

/-! ## The driver -/

structure KeyboardDriver where
  initialized : Bool
  extended : Bool
  ctrlDown : Bool
  shiftDown : Bool
  capsLock : Bool

variable {ε : Type}

/-- `poll_event` on a scancode.  `decode` stands for the tables from codes to key events, which read the flags and
    change nothing. -/
def pollEvent (decode : KeyboardDriver → Bool → BitVec 8 → Option ε) (kb : KeyboardDriver) (scancode : BitVec 8) :
    Option ε × KeyboardDriver :=
  if kb.initialized = false then (none, kb)
  else if scancode = 0xE0#8 then (none, { kb with extended := true })
  else
    let extended := kb.extended
    let kb := { kb with extended := false }
    let released := scancode &&& 0x80#8 != 0#8
    let code := scancode &&& 0x7F#8
    if extended = false ∧ code = 0x1D#8 then (none, { kb with ctrlDown := !released })
    else if extended = false ∧ (code = 0x2A#8 ∨ code = 0x36#8) then (none, { kb with shiftDown := !released })
    else if extended = false ∧ code = 0x3A#8 then
      (none, if released then kb else { kb with capsLock := !kb.capsLock })
    else if released then (none, kb)
    else (decode kb extended code, kb)

/-! ## The keys -/

/-- A key of set 1.  `0x60` is no code: its break code would be `E0`. -/
structure Key where
  extended : Bool
  code : BitVec 8
  low : code &&& 0x80#8 = 0#8
  notPrefix : code ≠ 0x60#8
  deriving DecidableEq

def leftShift : Key := ⟨false, 0x2A#8, rfl, by decide⟩
def rightShift : Key := ⟨false, 0x36#8, rfl, by decide⟩
def leftCtrl : Key := ⟨false, 0x1D#8, rfl, by decide⟩
def rightCtrl : Key := ⟨true, 0x1D#8, rfl, by decide⟩

/-- The make or the break code. -/
def Key.signal (k : Key) (down : Bool) : List (BitVec 8) :=
  (if k.extended then [0xE0#8] else []) ++ [if down then k.code else k.code ||| 0x80#8]

inductive Act where
  | key (k : Key) (down : Bool)
  | pause

/-- The keyboard and the driver. -/
structure Machine where
  driver : KeyboardDriver
  held : Key → Bool

-- Pause has no break code, and is Break while a control key is held.
def Machine.codes (m : Machine) : Act → List (BitVec 8)
  | .key k down => k.signal down
  | .pause =>
      if m.held leftCtrl || m.held rightCtrl then [0xE0#8, 0x46#8, 0xE0#8, 0xC6#8]
      else [0xE1#8, 0x1D#8, 0x45#8, 0xE1#8, 0x9D#8, 0xC5#8]

def Machine.step (decode : KeyboardDriver → Bool → BitVec 8 → Option ε) (m : Machine) (a : Act) : Machine where
  driver := (m.codes a).foldl (fun kb scancode => (pollEvent decode kb scancode).2) m.driver
  held :=
    match a with
    | .key k down => Function.update m.held k down
    | .pause => m.held

/-- After `init`, with no key held. -/
def start : Machine := ⟨⟨true, false, false, false, false⟩, fun _ => false⟩

/-- Both flags say what is held. -/
def Exact (m : Machine) : Prop :=
  m.driver.shiftDown = (m.held leftShift || m.held rightShift) ∧
    m.driver.ctrlDown = (m.held leftCtrl || m.held rightCtrl)

/-- What the two flags can follow. -/
def Followed (m : Machine) : Act → Prop
  | .key k true => rightCtrl = k → m.held leftCtrl = true
  | .key k false =>
      (leftShift = k → m.held rightShift = false) ∧ (rightShift = k → m.held leftShift = false) ∧
        (leftCtrl = k → m.held rightCtrl = false)
  | .pause => True

/-! ## One code -/

variable (decode : KeyboardDriver → Bool → BitVec 8 → Option ε)

theorem break_code : ∀ c : BitVec 8, c &&& 0x80#8 = 0#8 → c ≠ 0x60#8 →
    c ≠ 0xE0#8 ∧ c &&& 0x7F#8 = c ∧ c ||| 0x80#8 ≠ 0xE0#8 ∧ (c ||| 0x80#8) &&& 0x80#8 ≠ 0#8 ∧
      (c ||| 0x80#8) &&& 0x7F#8 = c := by
  decide +kernel

/-- One scancode that is no prefix. -/
theorem poll_flags {kb : KeyboardDriver} {scancode : BitVec 8} (hi : kb.initialized = true)
    (hc : scancode ≠ 0xE0#8) :
    let kb' := (pollEvent decode kb scancode).2
    let code := scancode &&& 0x7F#8
    let down := scancode &&& 0x80#8 == 0#8
    kb'.initialized = true ∧ kb'.extended = false ∧
      kb'.shiftDown = (if kb.extended = false ∧ (0x2A#8 = code ∨ 0x36#8 = code) then down else kb.shiftDown) ∧
      kb'.ctrlDown = if kb.extended = false ∧ 0x1D#8 = code then down else kb.ctrlDown := by
  intro kb' code down
  simp only [eq_comm (a := 0x36#8), eq_comm (a := 0x1D#8), kb', pollEvent]
  split_ifs <;> simp_all [code, down, bne]

/-- A complete code of a key sets the flag of that key, and leaves no prefix pending. -/
theorem signal_driver {kb : KeyboardDriver} (hi : kb.initialized = true) (he : kb.extended = false) (k : Key)
    (down : Bool) :
    let kb' := (k.signal down).foldl (fun kb scancode => (pollEvent decode kb scancode).2) kb
    kb'.initialized = true ∧ kb'.extended = false ∧
      kb'.shiftDown = (if leftShift = k ∨ rightShift = k then down else kb.shiftDown) ∧
      kb'.ctrlDown = if leftCtrl = k then down else kb.ctrlDown := by
  obtain ⟨extended, code, hlow, hno⟩ := k
  obtain ⟨hmake, hkey, hbreak, hreleased, hkey'⟩ := break_code code hlow hno
  -- the byte behind the prefix, if there is one
  generalize hbyte : (if down then code else code ||| 0x80#8) = byte
  have hne : byte ≠ 0xE0#8 := by cases down <;> simp_all
  have hcode : byte &&& 0x7F#8 = code := by cases down <;> simp_all
  have hdown : (byte &&& 0x80#8 == 0#8) = down := by cases down <;> simp_all
  simp only [Key.signal, leftShift, rightShift, leftCtrl]
  cases extended with
  | false =>
    obtain ⟨hi', he', hshift, hctrl⟩ := poll_flags decode hi hne
    simp_all
  | true =>
    have hprefix : (pollEvent decode kb 0xE0#8).2 = { kb with extended := true } := by
      simp [pollEvent, hi]
    obtain ⟨hi', he', hshift, hctrl⟩ := poll_flags decode
      (show KeyboardDriver.initialized { kb with extended := true } = true from hi) hne
    simp_all

/-! ## Every sequence of presses and releases -/

/-- What a run keeps: the control flag is the LEFT control key. -/
structure Tracked (m : Machine) : Prop where
  initialized : m.driver.initialized = true
  idle : m.driver.extended = false
  shift : m.driver.shiftDown = (m.held leftShift || m.held rightShift)
  ctrl : m.driver.ctrlDown = m.held leftCtrl
  right : m.held rightCtrl = true → m.held leftCtrl = true

variable {m : Machine}

theorem Tracked.exact (h : Tracked m) : Exact m := by
  refine ⟨h.shift, h.ctrl.trans ?_⟩
  cases hr : m.held rightCtrl with
  | false => rw [Bool.or_false]
  | true => rw [h.right hr]; rfl

theorem pause_driver (h : Tracked m) : (m.step decode .pause).driver = m.driver := by
  have hctrl := h.exact.2
  have hi := h.initialized
  have he := h.idle
  obtain ⟨⟨initialized, extended, ctrl, shift, caps⟩, held⟩ := m
  simp only at hi he hctrl
  subst hi he
  cases hany : held leftCtrl || held rightCtrl with
  | false => simp [Machine.step, Machine.codes, hany, pollEvent, hctrl]
  | true => simp [Machine.step, Machine.codes, hany, pollEvent]

/-- The keys the flags are about are four. -/
theorem key_cases (k : Key) : leftShift = k ∨ rightShift = k ∨ leftCtrl = k ∨ rightCtrl = k ∨
    (leftShift ≠ k ∧ rightShift ≠ k ∧ leftCtrl ≠ k ∧ rightCtrl ≠ k) := by
  grind

theorem exact_step_iff (h : Tracked m) (a : Act) : Exact (m.step decode a) ↔ Followed m a := by
  cases a with
  | pause => exact iff_of_true (by rw [Exact, pause_driver decode h]; exact h.exact) trivial
  | key k down =>
    obtain ⟨-, -, hshift, hctrl⟩ := signal_driver decode h.initialized h.idle k down
    have hright := h.right
    simp only [Exact, Machine.step, Machine.codes, hshift, hctrl, h.shift, h.ctrl]
    cases down <;> rcases key_cases k with rfl | rfl | rfl | rfl | ⟨h1, h2, h3, h4⟩ <;>
      simp_all [Followed, leftShift, rightShift, leftCtrl, rightCtrl]

theorem tracked_step (h : Tracked m) {a : Act} (ha : Followed m a) : Tracked (m.step decode a) := by
  cases a with
  | pause =>
    have hd := pause_driver decode h
    exact ⟨by rw [hd]; exact h.initialized, by rw [hd]; exact h.idle, by rw [hd]; exact h.shift,
      by rw [hd]; exact h.ctrl, h.right⟩
  | key k down =>
    obtain ⟨hi, he, hshift, hctrl⟩ := signal_driver decode h.initialized h.idle k down
    refine ⟨hi, he, ((exact_step_iff decode h _).mpr ha).1, ?_, ?_⟩
    · show _ = Function.update m.held k down leftCtrl
      rw [Function.update_apply, ← h.ctrl]
      exact hctrl
    · have hright := h.right
      simp only [Machine.step]
      cases down <;> rcases key_cases k with rfl | rfl | rfl | rfl | ⟨h1, h2, h3, h4⟩ <;>
        simp_all [Followed, leftShift, rightShift, leftCtrl, rightCtrl]

/-- **The flags are right after every complete code exactly along the runs they can follow.** -/
theorem modifiers_exact_iff (acts : List Act) :
    (∀ done, done <+: acts → Exact (done.foldl (Machine.step decode) start)) ↔
      Run.Along (Machine.step decode) Followed start acts := by
  refine Run.reached_iff_along (fun m h => h.exact) (fun m a h => exact_step_iff decode h a)
    (fun m a h ha => tracked_step decode h ha) ?_ acts
  exact ⟨rfl, rfl, rfl, rfl, nofun⟩

/-- Two shift keys down, one let go: the driver takes the other for released too. -/
theorem shift_still_held : ¬Exact ([Act.key leftShift true, .key rightShift true, .key rightShift false].foldl
    (Machine.step fun _ _ _ => (none : Option Unit)) start) := by
  intro h
  exact absurd h.1 (by decide)

end Saios.Input.Ps2
