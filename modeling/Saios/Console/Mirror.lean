/-
  THE FRAMEBUFFER SHOWS THE CONSOLE'S GRID.

  The console keeps a grid and a cursor, the framebuffer behind it another grid and another cursor, and every call
  changes both.  A call goes through states in which the cursors differ; `Facing` is what holds there too, and
  `sync_cursor` brings the cursors together again (`Facing.sync`).

  One character separates the two.  For a backspace the console moves its cursor to the LEFT, blanks the cell there
  and has the framebuffer write a blank, but the cursor of the framebuffer has not moved yet: the cell that is
  blanked is the one the cursor stood on.  The grids stay the same only if both cells were blank
  (`shown_iff_along`).
-/
import Saios.Console.Screen
import Saios.Lib.Run

namespace Saios

open Grid

/-! ## The two grids -/

/-- The framebuffer shows the console's grid and its cursor. -/
structure Shown (c : Console DefaultBackend) : Prop where
  same : Same c.cursor.width c.cursor.height c.backend.right.screen c.buffer
  cursorX : c.backend.right.cursorX = c.cursor.x
  cursorY : c.backend.right.cursorY = c.cursor.y

/-- One grid size, the view at the live bottom, and the same characters; the cursors may differ. -/
structure Facing (c : Console DefaultBackend) : Prop where
  bounds : c.backend.right.textBounds = some (c.cursor.width, c.cursor.height)
  live : c.backend.right.viewOffsetLines = 0
  same : Same c.cursor.width c.cursor.height c.backend.right.screen c.buffer

structure Mirrored (c : Console DefaultBackend) : Prop extends Facing c, Shown c where
  insideX : c.cursor.x < c.cursor.width
  insideY : c.cursor.y < c.cursor.height

/-! ## The framebuffer's side -/

namespace FramebufferConsole

variable {f : FramebufferConsole} {w h : Nat}

section

variable (hb : f.textBounds = some (w, h))

include hb

theorem textBounds_pos : 0 < w ∧ 0 < h := by
  unfold textBounds at hb
  split at hb
  · next cols rows _ _ =>
    split at hb
    · cases hb
    · next hpos =>
      obtain ⟨rfl, rfl⟩ := Prod.mk.inj (Option.some.inj hb)
      unfold maxTextCols maxTextRows
      omega
  · cases hb

theorem textBounds_le : w ≤ maxTextCols ∧ h ≤ maxTextRows := by
  unfold textBounds at hb
  split at hb
  · split at hb
    · cases hb
    · obtain ⟨rfl, rfl⟩ := Prod.mk.inj (Option.some.inj hb)
      exact ⟨Nat.min_le_right _ _, Nat.min_le_right _ _⟩
  · cases hb

theorem putChar_newline (hlive : f.viewOffsetLines = 0) :
    f.putChar '\n' = { f with cursorX := 0, cursorY := min (f.cursorY + 1) (h - 1) } := by
  rw [putChar, if_neg (by decide), putCell, hb]
  dsimp only
  rw [if_pos rfl, if_neg (by rw [hlive]; decide)]

theorem putChar_plain (hlive : f.viewOffsetLines = 0) {ch : Char} (hn : ch ≠ '\n') (hr : ch ≠ '\r') (ht : ch ≠ '\t') :
    f.putChar ch
      = { f with
          screen := f.screen.set (min f.cursorX (w - 1)) (min f.cursorY (h - 1)) ch
          cursorX := min (f.cursorX + 1) (w - 1) } := by
  rw [putChar, if_neg ht, putCell, hb]
  dsimp only
  rw [if_neg hn, if_neg hr, if_neg (by rw [hlive]; decide)]

/-- One row scrolls away. -/
theorem scrollUp_one (hlive : f.viewOffsetLines = 0) :
    ∃ f', f.scrollUp 1 = (true, f') ∧ f'.textBounds = some (w, h) ∧ f'.viewOffsetLines = 0 ∧
      f'.screen = f.screen.scrollUp w h 1 ' ' := by
  have hone : min (max 1 1) h = 1 := by
    have := (textBounds_pos hb).2
    omega
  rw [scrollUp, hb]
  dsimp only
  rw [hone, List.range_one, List.foldl_cons, List.foldl_nil]
  unfold pushScrollbackLine
  refine ⟨_, rfl, hb, ?_, rfl⟩
  rw [hlive, Nat.zero_min]

end

end FramebufferConsole

/-! ## Steps that leave the grids facing each other -/

section Steps

open FramebufferConsole Console

variable {c : Console DefaultBackend}

theorem Facing.sync (hf : Facing c) (hx : c.cursor.x < c.cursor.width) (hy : c.cursor.y < c.cursor.height) :
    Mirrored c.syncCursor where
  __ := hf
  cursorX := rfl
  cursorY := rfl
  insideX := hx
  insideY := hy

theorem Facing.moveTo (hf : Facing c) (x y : Nat) : Facing (c.moveTo x y) := { hf with }

theorem Facing.emit_newline (hf : Facing c) : Facing (c.emit '\n') := by
  have hright : (c.emit '\n').backend.right = _ := putChar_newline hf.bounds hf.live
  refine ⟨?_, ?_, ?_⟩
  · rw [hright]
    exact hf.bounds
  · rw [hright]
    exact hf.live
  · rw [hright]
    exact hf.same

theorem Facing.scroll (hf : Facing c) : Facing c.scroll ∧ c.scroll.cursor = c.cursor := by
  obtain ⟨f', hright, hbounds, hlive, hscreen⟩ := scrollUp_one hf.bounds hf.live
  have hscrolled : ConsoleBackend.scrollUp c.backend 1
      = (true, { left := (ConsoleBackend.scrollUp c.backend.left 1).2, right := f' }) := by
    show (true && (c.backend.right.scrollUp 1).1, ({ left := _, right := (c.backend.right.scrollUp 1).2 } :
      DefaultBackend)) = _
    rw [hright]
    rfl
  unfold Console.scroll
  dsimp only [check]
  rw [hscrolled]
  refine ⟨⟨hbounds, hlive, ?_⟩, rfl⟩
  show Same c.cursor.width c.cursor.height f'.screen (c.buffer.scrollUp c.cursor.width c.cursor.height 1 ' ')
  rw [hscreen]
  exact hf.same.scrollUp 1 ' '

/-- **A newline brings everything together again.** -/
theorem Facing.newline (hf : Facing c) : Mirrored c.newline := by
  obtain ⟨hw, hh⟩ := textBounds_pos hf.bounds
  have hmoved := hf.emit_newline.moveTo 0 (c.cursor.y + 1)
  show Mirrored (Console.syncCursor (if c.cursor.y + 1 ≥ c.cursor.height then _ else _))
  split
  · obtain ⟨hscrolled, hcursor⟩ := hmoved.scroll
    refine (hscrolled.moveTo 0 _).sync ?_ ?_
    · show 0 < ((c.emit '\n').moveTo 0 (c.cursor.y + 1)).scroll.cursor.width
      rw [hcursor]
      exact hw
    · show c.cursor.height - 1 < ((c.emit '\n').moveTo 0 (c.cursor.y + 1)).scroll.cursor.height
      rw [hcursor]
      exact Nat.sub_one_lt (Nat.ne_of_gt hh)
  · next hend => exact hmoved.sync hw (Nat.lt_of_not_ge hend)

/-- A character without a meaning of its own. -/
theorem Mirrored.putPlain (hm : Mirrored c) {ch : Char} (hn : ch ≠ '\n') (hr : ch ≠ '\r') (ht : ch ≠ '\t') :
    Mirrored (c.putPlain ch true true) := by
  have hright := putChar_plain hm.bounds hm.live hn hr ht
  have hx : min c.backend.right.cursorX (c.cursor.width - 1) = c.cursor.x := by
    rw [hm.cursorX]
    exact Nat.min_eq_left (Nat.le_sub_one_of_lt hm.insideX)
  have hy : min c.backend.right.cursorY (c.cursor.height - 1) = c.cursor.y := by
    rw [hm.cursorY]
    exact Nat.min_eq_left (Nat.le_sub_one_of_lt hm.insideY)
  rw [hx, hy] at hright
  have hwritten : Facing (((c.store c.cursor.x c.cursor.y ch).emit ch).moveTo (c.cursor.x + 1) c.cursor.y) := by
    refine ⟨?_, ?_, ?_⟩
    · show (c.backend.right.putChar ch).textBounds = _
      rw [hright]
      exact hm.bounds
    · show (c.backend.right.putChar ch).viewOffsetLines = 0
      rw [hright]
      exact hm.live
    · show Same c.cursor.width c.cursor.height (c.backend.right.putChar ch).screen (c.buffer.set _ _ ch)
      rw [hright]
      exact hm.toFacing.same.set c.cursor.x c.cursor.y ch
  show Mirrored (if c.cursor.x + 1 ≥ c.cursor.width then
    (((c.store c.cursor.x c.cursor.y ch).emit ch).moveTo (c.cursor.x + 1) c.cursor.y).newline
    else (((c.store c.cursor.x c.cursor.y ch).emit ch).moveTo (c.cursor.x + 1) c.cursor.y).syncCursor)
  split
  · exact hwritten.newline
  · next hfits => exact hwritten.sync (Nat.lt_of_not_ge hfits) hm.insideY

theorem Mirrored.putSpaces (hm : Mirrored c) (n : Nat) :
    Mirrored ((List.replicate n ' ').foldl (fun c s => c.putPlain s true true) c) := by
  induction n generalizing c with
  | zero => exact hm
  | succ n ih => exact ih (hm.putPlain (by decide) (by decide) (by decide))

/-- **A backspace**: the console blanks the cell to the left, the framebuffer the cell under the cursor. -/
theorem Mirrored.backspace (hm : Mirrored c) (hx : 0 < c.cursor.x) :
    (Shown (c.putCharInner backspace true true) ↔
        c.buffer c.cursor.y c.cursor.x = ' ' ∧ c.buffer c.cursor.y (c.cursor.x - 1) = ' ') ∧
      (Shown (c.putCharInner backspace true true) → Mirrored (c.putCharInner backspace true true)) := by
  have hright := putChar_plain hm.bounds hm.live (show (' ' : Char) ≠ '\n' by decide) (by decide) (by decide)
  rw [hm.cursorX, hm.cursorY, Nat.min_eq_left (Nat.le_sub_one_of_lt hm.insideX),
    Nat.min_eq_left (Nat.le_sub_one_of_lt hm.insideY)] at hright
  have hstep : c.putCharInner Console.backspace true true
      = (((c.moveTo (c.cursor.x - 1) c.cursor.y).store (c.cursor.x - 1) c.cursor.y ' ').emit ' ').syncCursor := by
    rw [putCharInner, if_pos hx]
    rfl
  have hscreen : (c.putCharInner Console.backspace true true).backend.right.screen
      = c.backend.right.screen.set c.cursor.x c.cursor.y ' ' := by
    rw [hstep]
    show (c.backend.right.putChar ' ').screen = _
    rw [hright]
  rw [hstep] at hscreen ⊢
  constructor
  · refine (Iff.intro (fun h => ?_) fun h => ⟨?_, rfl, rfl⟩).trans
      (same_set_set hm.toFacing.same hm.insideY hm.insideX (Nat.lt_of_le_of_lt (Nat.sub_le _ 1) hm.insideX)
        (by omega) ' ')
    · have hsame := h.same
      rw [hscreen] at hsame
      exact hsame
    · rw [hscreen]
      exact h
  · intro h
    refine ⟨⟨?_, ?_, h.same⟩, h.cursorX, h.cursorY, Nat.lt_of_le_of_lt (Nat.sub_le _ 1) hm.insideX, hm.insideY⟩
    · show (c.backend.right.putChar ' ').textBounds = _
      rw [hright]
      exact hm.bounds
    · show (c.backend.right.putChar ' ').viewOffsetLines = 0
      rw [hright]
      exact hm.live

theorem Mirrored.putCharInner (hm : Mirrored c) {ch : Char} (hch : ch = Console.backspace → c.cursor.x = 0) :
    Mirrored (c.putCharInner ch true true) := by
  unfold Console.putCharInner
  split
  · exact hm.toFacing.newline
  · next hn =>
    split
    · exact (hm.toFacing.moveTo 0 c.cursor.y).sync (Nat.zero_lt_of_lt hm.insideX) hm.insideY
    · next hr =>
      split
      · exact hm.putSpaces _
      · next ht =>
        split
        · next hback =>
          rw [if_neg (by rw [hch hback]; decide)]
          exact hm
        · exact hm.putPlain hn hr ht

end Steps

/-! ## Calls -/

inductive ConsoleCall
  | putChar (ch : Char)
  | clear
  | setCursor (x y : Nat)

def Console.call (c : Console DefaultBackend) : ConsoleCall → Console DefaultBackend
  | .putChar ch => c.putChar ch
  | .clear => c.clear
  | .setCursor x y => c.setCursor x y

/-- A backspace that reaches the screen is given at the left edge, or between two blank cells. -/
def Kept (c : Console DefaultBackend) : ConsoleCall → Prop
  | .putChar ch =>
      ch = Console.backspace → c.shouldSuppressOutput = false → 0 < c.cursor.x →
        c.buffer c.cursor.y c.cursor.x = ' ' ∧ c.buffer c.cursor.y (c.cursor.x - 1) = ' '
  | _ => True

section Calls

variable {c : Console DefaultBackend}

theorem captureChar_frame (c : Console DefaultBackend) (ch : Char) :
    (c.captureChar ch).backend = c.backend ∧ (c.captureChar ch).cursor = c.cursor ∧
      (c.captureChar ch).buffer = c.buffer ∧ (c.captureChar ch).shouldSuppressOutput = c.shouldSuppressOutput := by
  unfold Console.captureChar
  split <;> exact ⟨rfl, rfl, rfl, rfl⟩

theorem Mirrored.captureChar (hm : Mirrored c) (ch : Char) : Mirrored (c.captureChar ch) := by
  obtain ⟨hbackend, hcursor, hbuffer, -⟩ := captureChar_frame c ch
  refine ⟨⟨?_, ?_, ?_⟩, ?_, ?_, ?_, ?_⟩
  · rw [hbackend, hcursor]; exact hm.bounds
  · rw [hbackend]; exact hm.live
  · rw [hbackend, hcursor, hbuffer]; exact hm.toFacing.same
  · rw [hbackend, hcursor]; exact hm.cursorX
  · rw [hbackend, hcursor]; exact hm.cursorY
  · rw [hcursor]; exact hm.insideX
  · rw [hcursor]; exact hm.insideY

theorem Mirrored.putChar (hm : Mirrored c) (ch : Char) :
    (Shown (c.putChar ch) ↔ Kept c (.putChar ch)) ∧ (Shown (c.putChar ch) → Mirrored (c.putChar ch)) := by
  obtain ⟨-, hcursor, hbuffer, hsuppress⟩ := captureChar_frame c ch
  have hm' := hm.captureChar ch
  unfold Console.putChar
  dsimp only
  rw [hsuppress]
  by_cases hs : c.shouldSuppressOutput = true
  · rw [if_pos hs]
    refine ⟨iff_of_true hm'.toShown fun _ hsup => ?_, fun _ => hm'⟩
    rw [hs] at hsup
    cases hsup
  · rw [if_neg hs]
    by_cases hback : ch = Console.backspace ∧ 0 < c.cursor.x
    · obtain ⟨rfl, hx⟩ := hback
      obtain ⟨hiff, hkeep⟩ := hm'.backspace (by rw [hcursor]; exact hx)
      rw [hcursor, hbuffer] at hiff
      refine ⟨hiff.trans ⟨fun h _ _ _ => h, fun h => h rfl (Bool.not_eq_true _ ▸ hs) hx⟩, hkeep⟩
    · have hmirrored := hm'.putCharInner fun heq => by
        rw [hcursor]
        by_contra hx
        exact hback ⟨heq, Nat.pos_of_ne_zero hx⟩
      refine ⟨iff_of_true hmirrored.toShown fun heq _ hx => ?_, fun _ => hmirrored⟩
      exact absurd ⟨heq, hx⟩ hback

theorem Facing.clear (hb : c.backend.right.textBounds = some (c.cursor.width, c.cursor.height)) :
    Mirrored c.clear := by
  obtain ⟨hw, hh⟩ := FramebufferConsole.textBounds_pos hb
  refine ⟨⟨hb, rfl, ?_⟩, rfl, rfl, hw, hh⟩
  show Same c.cursor.width c.cursor.height c.backend.right.clear.screen
    (c.buffer.fill c.cursor.width c.cursor.height ' ')
  rw [FramebufferConsole.clear, hb]
  dsimp only
  obtain ⟨hw, hh⟩ := FramebufferConsole.textBounds_le hb
  rw [Nat.min_eq_left hw, Nat.min_eq_left hh]
  exact Same.fill _ _ _ _ _

theorem Mirrored.setCursor (hm : Mirrored c) (x y : Nat) : Mirrored (c.setCursor x y) := by
  have hw := hm.insideX
  have hh := hm.insideY
  refine (hm.toFacing.moveTo _ _).sync ?_ ?_
  · show min x (c.cursor.width - 1) < c.cursor.width
    omega
  · show min y (c.cursor.height - 1) < c.cursor.height
    omega

theorem Mirrored.call (hm : Mirrored c) (a : ConsoleCall) :
    (Shown (c.call a) ↔ Kept c a) ∧ (Shown (c.call a) → Mirrored (c.call a)) := by
  cases a with
  | putChar ch => exact hm.putChar ch
  | clear =>
    have h : Mirrored c.clear := Facing.clear hm.bounds
    exact ⟨iff_of_true h.toShown trivial, fun _ => h⟩
  | setCursor x y => exact ⟨iff_of_true (hm.setCursor x y).toShown trivial, fun _ => hm.setCursor x y⟩

/-- **After every call of a run the framebuffer shows the console's grid and cursor EXACTLY when no backspace of the
    run is given next to a cell that is not blank.** -/
theorem shown_iff_along (hm : Mirrored c) (calls : List ConsoleCall) :
    (∀ done, done <+: calls → Shown (done.foldl Console.call c)) ↔ Run.Along Console.call Kept c calls :=
  Run.reached_iff_along (fun _ h => h.toShown) (fun _ a h => (h.call a).1)
    (fun _ a h hkept => (h.call a).2 ((h.call a).1.mpr hkept)) hm calls

/-- Attaching a display that has room for one character makes the console and the framebuffer one size. -/
theorem mirrored_attach (c : Console DefaultBackend) {d : FramebufferDisplay} (hwidth : 8 ≤ d.width)
    (hheight : 16 ≤ d.height) : Mirrored (attachFramebuffer c (some d)) := by
  refine Facing.clear ?_
  show (if d.width / 8 = 0 ∨ d.height / 16 = 0 then none else some (min (d.width / 8) 160, min (d.height / 16) 100))
    = some (max (min (d.width / 8) 160) 1, max (min (d.height / 16) 100) 1)
  rw [if_neg (by omega), Nat.max_eq_left (by omega), Nat.max_eq_left (by omega)]

end Calls

/-- The console as the kernel starts with it. -/
def freshConsole : Console DefaultBackend where
  backend :=
    { left := { outputEnabled := true, output := [] }
      right := { display := none, cursorX := 0, cursorY := 0, screen := fun _ _ => ' ', viewOffsetLines := 0
                 scrollback := [], cursorInverted := false } }
  cursor := { x := 0, y := 0, width := 80, height := 25 }
  buffer := fun _ _ => ' '
  capture := { active := false, suppressConsole := false, buffer := [] }
  inRange := true

/-- 80 columns and 30 rows. -/
def vga : FramebufferDisplay := { width := 640, height := 480 }

theorem shown_along_letters :
    Mirrored (attachFramebuffer freshConsole (some vga)) ∧
      Shown ([.putChar 'a', .putChar '\t', .setCursor 0 40, .putChar '\n'].foldl Console.call
        (attachFramebuffer freshConsole (some vga))) := by
  have hm : Mirrored (attachFramebuffer freshConsole (some vga)) :=
    mirrored_attach freshConsole (by decide) (by decide)
  refine ⟨hm, (shown_iff_along hm [.putChar 'a', .putChar '\t', .setCursor 0 40, .putChar '\n']).mpr ?_ _
    List.prefix_rfl⟩
  refine ⟨?_, ?_, trivial, ?_, trivial⟩
  · exact fun h => absurd h (by decide)
  · exact fun h => absurd h (by decide)
  · exact fun h => absurd h (by decide)

/-- `a` and a backspace: the letter is gone from the console's grid and still on the screen. -/
theorem backspace_leaves_letter :
    let c := [ConsoleCall.putChar 'a', .putChar Console.backspace].foldl Console.call
      (attachFramebuffer freshConsole (some vga))
    c.buffer 0 0 = ' ' ∧ c.backend.right.screen 0 0 = 'a' ∧ ¬Shown c := by
  intro c
  have hconsole : c.buffer 0 0 = ' ' := by decide
  have hscreen : c.backend.right.screen 0 0 = 'a' := by decide
  refine ⟨hconsole, hscreen, fun h => ?_⟩
  have hsame := h.same 0 (by decide) 0 (by decide)
  exact absurd hsame (by decide)

end Saios
