/-
  THE CURSOR STAYS INSIDE THE GRID, and no index leaves the buffer, for any backend.

  A backend is told what happens and never asked, but for whether it scrolled by itself; so the cursor and the ghost
  `inRange` depend on the calls alone.  `newline` is where both could go wrong: the cursor moves below the grid, and
  the rows move up for it.
-/
import Saios.Console.Screen
import Saios.Lib.Run

namespace Saios

/-- The trait, with `put_str`: a backend may write a string in its own way. -/
class TextBackend (β : Type) extends ConsoleBackend β where
  putStr : β → Str → β

namespace Console

def defaultWidth : Nat := 80
def defaultHeight : Nat := 25

def new {β : Type} (backend : β) (width height : Nat) (capture : OutputCapture) : Console β where
  backend := backend
  cursor := { x := 0, y := 0, width := width, height := height }
  buffer := fun _ _ => ' '
  capture := capture
  inRange := true

variable {β : Type} {c : Console β}

/-- A grid of at most 160 by 100 cells, and no index out of range so far. -/
def Sized (c : Console β) : Prop :=
  (0 < c.cursor.width ∧ c.cursor.width ≤ maxWidth) ∧ (0 < c.cursor.height ∧ c.cursor.height ≤ maxHeight) ∧
    c.inRange = true

def Inside (c : Console β) : Prop := c.Sized ∧ c.cursor.x < c.cursor.width ∧ c.cursor.y < c.cursor.height

theorem Sized.check (h : c.Sized) {ok : Prop} [Decidable ok] (hok : ok) : (c.check ok).Sized :=
  ⟨h.1, h.2.1, by rw [Console.check, h.2.2, decide_eq_true hok]; rfl⟩

theorem Inside.store (h : c.Inside) {x y : Nat} (hx : x < c.cursor.width) (hy : y < c.cursor.height) (ch : Char) :
    (c.store x y ch).Inside :=
  ⟨h.1.check ⟨Nat.lt_of_lt_of_le hy h.1.2.1.2, Nat.lt_of_lt_of_le hx h.1.1.2⟩, h.2⟩

variable [TextBackend β]

def captureStr (c : Console β) (s : Str) : Console β :=
  if c.capture.active then { c with capture := { c.capture with buffer := c.capture.buffer ++ s } } else c

def writeStr (c : Console β) (s : Str) : Console β :=
  let c := c.captureStr s
  if c.shouldSuppressOutput then c
  else
    let c := s.foldl (fun c ch => c.putCharInner ch false false) c
    ({ c with backend := TextBackend.putStr c.backend s }).syncCursor

def moveCursorLeft (c : Console β) : Console β :=
  if c.cursor.x > 0 then (c.moveTo (c.cursor.x - 1) c.cursor.y).syncCursor else c

def moveCursorRight (c : Console β) : Console β :=
  if c.cursor.x + 1 < c.cursor.width then (c.moveTo (c.cursor.x + 1) c.cursor.y).syncCursor else c

/-- The operations; a capture may begin or end between them. -/
inductive Op
  | putChar (ch : Char)
  | writeStr (s : Str)
  | clear
  | setCursor (x y : Nat)
  | moveCursorLeft
  | moveCursorRight
  | resize (width height : Nat)
  | capture (capture : OutputCapture)

def step (c : Console β) : Op → Console β
  | .putChar ch => c.putChar ch
  | .writeStr s => c.writeStr s
  | .clear => c.clear
  | .setCursor x y => c.setCursor x y
  | .moveCursorLeft => c.moveCursorLeft
  | .moveCursorRight => c.moveCursorRight
  | .resize width height => c.resize width height
  | .capture capture => { c with capture := capture }

/-! ## One operation -/

theorem Sized.redrawRow (h : c.Sized) {y : Nat} (hy : y < c.cursor.height) :
    (c.redrawRow y).Sized ∧ (c.redrawRow y).cursor = c.cursor := by
  refine List.foldlRecOn (motive := fun d : Console β => d.Sized ∧ d.cursor = c.cursor) _ _ ⟨h, rfl⟩
    fun d hd x hx => ⟨hd.1.check ?_, hd.2⟩
  exact ⟨Nat.lt_of_lt_of_le hy h.2.1.2, Nat.lt_of_lt_of_le (List.mem_range.mp hx) h.1.2⟩

theorem Sized.redraw (h : c.Sized) : c.redraw.Sized ∧ c.redraw.cursor = c.cursor := by
  refine List.foldlRecOn (motive := fun d : Console β => d.Sized ∧ d.cursor = c.cursor) _ _ ⟨h, rfl⟩
    fun d hd y hy => ?_
  obtain ⟨hs, hc⟩ := hd.1.redrawRow (y := y) (by rw [hd.2]; exact List.mem_range.mp hy)
  exact ⟨hs, hc.trans hd.2⟩

theorem Sized.scroll (h : c.Sized) : c.scroll.Sized ∧ c.scroll.cursor = c.cursor := by
  have hs : (c.check (1 ≤ c.cursor.height ∧ c.cursor.height ≤ maxHeight ∧ c.cursor.width ≤ maxWidth)).Sized :=
    h.check ⟨h.2.1.1, h.2.1.2, h.1.2⟩
  unfold Console.scroll
  dsimp only
  split
  · exact ⟨hs, rfl⟩
  · exact Sized.redraw (c := Console.mk _ _ _ _ _) hs

/-- Wherever the cursor was. -/
theorem Sized.newline (h : c.Sized) : c.newline.Inside := by
  unfold Console.newline
  dsimp only
  split
  · obtain ⟨hs, hc⟩ := Sized.scroll (c := (c.emit '\n').moveTo 0 (c.cursor.y + 1)) h
    exact ⟨hs, hs.1.1, Nat.lt_of_lt_of_eq (Nat.sub_lt h.2.1.1 Nat.one_pos) (congrArg Cursor.height hc).symm⟩
  · exact ⟨h, h.1.1, Nat.lt_of_not_le ‹_›⟩

theorem Inside.putPlain (h : c.Inside) (ch : Char) (sync emit : Bool) : (c.putPlain ch sync emit).Inside := by
  have hs : Inside (if emit then (c.store c.cursor.x c.cursor.y ch).emit ch else c.store c.cursor.x c.cursor.y ch) := by
    cases emit <;> exact h.store h.2.1 h.2.2 ch
  unfold Console.putPlain
  dsimp only
  generalize ite (emit = true) _ _ = d at hs
  split
  · exact Sized.newline (c := d.moveTo _ _) hs.1
  · cases sync <;> exact ⟨hs.1, Nat.lt_of_not_le ‹_›, hs.2.2⟩

theorem Inside.putCharInner (h : c.Inside) (ch : Char) (sync emit : Bool) : (c.putCharInner ch sync emit).Inside := by
  unfold Console.putCharInner
  split
  · exact h.1.newline
  split
  · cases sync <;> exact ⟨h.1, h.1.1.1, h.2.2⟩
  split
  · exact Run.foldl_inv (I := Inside) (fun d s hd => hd.putPlain s sync emit) _ h
  split
  · split
    · have hx : c.cursor.x - 1 < c.cursor.width := Nat.lt_of_le_of_lt (Nat.sub_le _ _) h.2.1
      have hs := Inside.store (c := c.moveTo (c.cursor.x - 1) c.cursor.y) ⟨h.1, hx, h.2.2⟩ hx h.2.2 ' '
      cases emit <;> cases sync <;> exact hs
    · exact h
  · exact h.putPlain ch sync emit

theorem Sized.clear (h : c.Sized) : c.clear.Inside :=
  ⟨h.check ⟨h.2.1.2, h.1.2⟩, h.1.1, h.2.1.1⟩

theorem Inside.step (h : c.Inside) (op : Op) : (c.step op).Inside := by
  cases op with
  | putChar ch =>
      have hc : (c.captureChar ch).Inside := by unfold captureChar; split <;> exact h
      show Inside (ite _ _ _)
      split
      · exact hc
      · exact hc.putCharInner ch true true
  | writeStr s =>
      have hc : (c.captureStr s).Inside := by unfold captureStr; split <;> exact h
      show Inside (ite _ _ _)
      split
      · exact hc
      · exact Run.foldl_inv (I := Inside) (fun d ch hd => hd.putCharInner ch false false) s hc
  | clear => exact h.1.clear
  | setCursor x y =>
      exact ⟨h.1, Nat.lt_of_le_of_lt (Nat.min_le_right _ _) (Nat.sub_lt h.1.1.1 Nat.one_pos),
        Nat.lt_of_le_of_lt (Nat.min_le_right _ _) (Nat.sub_lt h.1.2.1.1 Nat.one_pos)⟩
  | moveCursorLeft =>
      show Inside (ite _ _ _)
      split
      · exact ⟨h.1, Nat.lt_of_le_of_lt (Nat.sub_le _ _) h.2.1, h.2.2⟩
      · exact h
  | moveCursorRight =>
      show Inside (ite _ _ _)
      split
      · exact ⟨h.1, ‹_›, h.2.2⟩
      · exact h
  | resize width height =>
      exact Sized.clear (c := { c with cursor := _ })
        ⟨⟨Nat.le_max_right _ _, Nat.max_le.mpr ⟨Nat.min_le_right _ _, by decide⟩⟩,
          ⟨Nat.le_max_right _ _, Nat.max_le.mpr ⟨Nat.min_le_right _ _, by decide⟩⟩, h.1.2.2⟩
  | capture capture => exact h

/-- **The cursor stays inside the grid**, the grid within 160 by 100, and every index into it in range. -/
theorem stays_inside (backend : β) (capture : OutputCapture) (ops : List Op) :
    (ops.foldl step (new backend defaultWidth defaultHeight capture)).Inside := by
  have hw : 0 < defaultWidth ∧ defaultWidth ≤ maxWidth := by decide
  have hh : 0 < defaultHeight ∧ defaultHeight ≤ maxHeight := by decide
  exact Run.foldl_inv (I := Inside) (fun _ op h => h.step op) ops ⟨⟨hw, hh, rfl⟩, hw.1, hh.1⟩

end Console

end Saios
