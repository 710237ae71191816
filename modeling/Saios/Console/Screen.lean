/-
  THE CONSOLE and its backends.

  1. **Backends** — `ConsoleBackend` is the trait; the console of the kernel writes to the serial port and to the
     framebuffer through `MirrorConsole`.

  2. **The framebuffer console** — its grid of characters, its cursor, its scrollback and the view into it.  The
     pixels are left out: drawing reads these and changes none of them, `render_viewport` apart, which bounds the
     offset of the view.

  3. **The console** — its own grid and cursor.  `inRange` is a ghost: every index into the grid has been inside
     its 100 rows of 160 cells.  The phase of the blinking cursor is left out.
-/
import Saios.Lib.Grid
import Saios.Lib.Path

namespace Saios

/-! ## Backends -/

class ConsoleBackend (β : Type) where
  putChar : β → Char → β
  clear : β → β
  setCursor : β → Nat → Nat → β
  /-- Whether the backend scrolled by itself. -/
  scrollUp : β → Nat → Bool × β

structure SerialConsole where
  outputEnabled : Bool
  output : Str

namespace SerialConsole

def print (s : SerialConsole) (text : Str) : SerialConsole :=
  if s.outputEnabled then { s with output := s.output ++ text } else s

def crlf : Str := ['\r', '\n']

instance : ConsoleBackend SerialConsole where
  putChar s c := s.print (if c = '\n' then crlf else [c])
  clear s := s.print crlf
  setCursor s _ _ := s
  scrollUp s rows := (true, s.print (List.replicate (max 1 rows) crlf).flatten)

end SerialConsole

structure MirrorConsole (α β : Type) where
  left : α
  right : β

instance {α β : Type} [ConsoleBackend α] [ConsoleBackend β] : ConsoleBackend (MirrorConsole α β) where
  putChar m c := { left := ConsoleBackend.putChar m.left c, right := ConsoleBackend.putChar m.right c }
  clear m := { left := ConsoleBackend.clear m.left, right := ConsoleBackend.clear m.right }
  setCursor m x y := { left := ConsoleBackend.setCursor m.left x y, right := ConsoleBackend.setCursor m.right x y }
  scrollUp m rows :=
    let (leftOk, left) := ConsoleBackend.scrollUp m.left rows
    let (rightOk, right) := ConsoleBackend.scrollUp m.right rows
    (leftOk && rightOk, { left := left, right := right })

/-! ## The framebuffer console -/

/-- Width and height in pixels. -/
structure FramebufferDisplay where
  width : Nat
  height : Nat

structure FramebufferConsole where
  display : Option FramebufferDisplay
  cursorX : Nat
  cursorY : Nat
  screen : Grid Char
  viewOffsetLines : Nat
  scrollback : List Str
  cursorInverted : Bool

namespace FramebufferConsole

def fontWidth : Nat := 8
def fontHeight : Nat := 16
def tabWidth : Nat := 4
def maxTextCols : Nat := 160
def maxTextRows : Nat := 100
def maxScrollbackLines : Nat := 2048

def textColumns (f : FramebufferConsole) : Option Nat := f.display.map fun d => d.width / fontWidth

def textRows (f : FramebufferConsole) : Option Nat := f.display.map fun d => d.height / fontHeight

def textBounds (f : FramebufferConsole) : Option (Nat × Nat) :=
  match f.textColumns, f.textRows with
  | some cols, some rows => if cols = 0 ∨ rows = 0 then none else some (min cols maxTextCols, min rows maxTextRows)
  | _, _ => none

/-- The cells of a row without the blanks at its end. -/
def rowToScrollback (f : FramebufferConsole) (row cols : Nat) : Str :=
  ((((List.range (min cols maxTextCols)).map (f.screen row)).reverse).dropWhile (· = ' ')).reverse

def pushScrollbackLine (f : FramebufferConsole) (line : Str) : FramebufferConsole :=
  { f with scrollback := (f.scrollback ++ [line]).drop (f.scrollback.length + 1 - maxScrollbackLines) }

/-- The view starts at the oldest line of the scrollback at the furthest. -/
def renderViewport (f : FramebufferConsole) : FramebufferConsole :=
  match f.textBounds with
  | none => f
  | some _ => { f with viewOffsetLines := min f.viewOffsetLines f.scrollback.length }

/-- `put_char` of anything but a tab. -/
def putCell (f : FramebufferConsole) (c : Char) : FramebufferConsole :=
  match f.textBounds with
  | none => f
  | some (cols, rows) =>
      let f :=
        if c = '\n' then { f with cursorX := 0, cursorY := min (f.cursorY + 1) (rows - 1) }
        else if c = '\r' then { f with cursorX := 0 }
        else
          { f with
            screen := f.screen.set (min f.cursorX (cols - 1)) (min f.cursorY (rows - 1)) c
            cursorX := min (f.cursorX + 1) (cols - 1) }
      if f.viewOffsetLines > 0 then f.renderViewport else f

def putChar (f : FramebufferConsole) (c : Char) : FramebufferConsole :=
  if c = '\t' then (List.replicate (tabWidth - f.cursorX % tabWidth) ' ').foldl putCell f else f.putCell c

def clear (f : FramebufferConsole) : FramebufferConsole :=
  { f with
    screen := match f.textBounds with
      | some (cols, rows) => f.screen.fill (min cols maxTextCols) (min rows maxTextRows) ' '
      | none => f.screen
    cursorX := 0, cursorY := 0, cursorInverted := false, viewOffsetLines := 0 }

def setCursor (f : FramebufferConsole) (x y : Nat) : FramebufferConsole :=
  { f with cursorX := x, cursorY := y, cursorInverted := false }

def scrollUp (f : FramebufferConsole) (rows : Nat) : Bool × FramebufferConsole :=
  match f.textBounds with
  | none => (false, f)
  | some (cols, rowCount) =>
      let rows := min (max 1 rows) rowCount
      let f := (List.range rows).foldl (fun f' row => f'.pushScrollbackLine (f.rowToScrollback row cols)) f
      let f := { f with screen := f.screen.scrollUp cols rowCount rows ' ' }
      -- the pixels move when the view is at the bottom; otherwise, or when they cannot, the view is rendered
      (true, { f with viewOffsetLines := min f.viewOffsetLines f.scrollback.length })

instance : ConsoleBackend FramebufferConsole where
  putChar := putChar
  clear := clear
  setCursor := setCursor
  scrollUp := scrollUp

/-- Attach a display and clear. -/
def attach (f : FramebufferConsole) (display : Option FramebufferDisplay) : FramebufferConsole :=
  clear { f with display := display, cursorX := 0, cursorY := 0, cursorInverted := false }

end FramebufferConsole

/-! ## The console -/

structure Cursor where
  x : Nat
  y : Nat
  width : Nat
  height : Nat

structure OutputCapture where
  active : Bool
  suppressConsole : Bool
  buffer : Str

structure Console (β : Type) where
  backend : β
  cursor : Cursor
  buffer : Grid Char
  capture : OutputCapture
  inRange : Bool

namespace Console

def tabWidth : Nat := 4
def maxWidth : Nat := 160
def maxHeight : Nat := 100

variable {β : Type} [ConsoleBackend β]

def moveTo (c : Console β) (x y : Nat) : Console β := { c with cursor := { c.cursor with x := x, y := y } }

def check (c : Console β) (ok : Prop) [Decidable ok] : Console β := { c with inRange := c.inRange && decide ok }

/-- `buffer[y][x] = ch`. -/
def store (c : Console β) (x y : Nat) (ch : Char) : Console β :=
  { c.check (y < maxHeight ∧ x < maxWidth) with buffer := c.buffer.set x y ch }

def emit (c : Console β) (ch : Char) : Console β := { c with backend := ConsoleBackend.putChar c.backend ch }

def placeCursor (c : Console β) (x y : Nat) : Console β := { c with backend := ConsoleBackend.setCursor c.backend x y }

def syncCursor (c : Console β) : Console β := c.placeCursor c.cursor.x c.cursor.y

/-- One row of `redraw`. -/
def redrawRow (c : Console β) (y : Nat) : Console β :=
  (List.range c.cursor.width).foldl
    (fun c x => (c.check (y < maxHeight ∧ x < maxWidth)).emit (c.buffer y x)) (c.placeCursor 0 y)

def redraw (c : Console β) : Console β :=
  ((List.range c.cursor.height).foldl redrawRow { c with backend := ConsoleBackend.clear c.backend }).syncCursor

def scroll (c : Console β) : Console β :=
  let c := { c.check (1 ≤ c.cursor.height ∧ c.cursor.height ≤ maxHeight ∧ c.cursor.width ≤ maxWidth) with
    buffer := c.buffer.scrollUp c.cursor.width c.cursor.height 1 ' ' }
  let (scrolled, backend) := ConsoleBackend.scrollUp c.backend 1
  let c := { c with backend := backend }
  if scrolled then c.syncCursor else c.redraw

/-- The backend is given the newline whether or not characters are emitted to it. -/
def newline (c : Console β) : Console β :=
  let c := (c.emit '\n').moveTo 0 (c.cursor.y + 1)
  let c := if c.cursor.y ≥ c.cursor.height then c.scroll.moveTo 0 (c.cursor.height - 1) else c
  c.syncCursor

/-- `put_char_inner` of a character without a meaning of its own. -/
def putPlain (c : Console β) (ch : Char) (syncCursor emitBackend : Bool) : Console β :=
  let c := c.store c.cursor.x c.cursor.y ch
  let c := if emitBackend then c.emit ch else c
  let c := c.moveTo (c.cursor.x + 1) c.cursor.y
  if c.cursor.x ≥ c.cursor.width then c.newline else if syncCursor then c.syncCursor else c

def backspace : Char := '\x08'

def putCharInner (c : Console β) (ch : Char) (syncCursor emitBackend : Bool) : Console β :=
  if ch = '\n' then c.newline
  else if ch = '\r' then
    let c := c.moveTo 0 c.cursor.y
    if syncCursor then c.syncCursor else c
  else if ch = '\t' then
    (List.replicate (tabWidth - c.cursor.x % tabWidth) ' ').foldl (fun c s => c.putPlain s syncCursor emitBackend) c
  else if ch = backspace then
    if c.cursor.x > 0 then
      let c := c.moveTo (c.cursor.x - 1) c.cursor.y
      let c := c.store c.cursor.x c.cursor.y ' '
      let c := if emitBackend then c.emit ' ' else c
      if syncCursor then c.syncCursor else c
    else c
  else c.putPlain ch syncCursor emitBackend

def captureChar (c : Console β) (ch : Char) : Console β :=
  if c.capture.active then { c with capture := { c.capture with buffer := c.capture.buffer ++ [ch] } } else c

def shouldSuppressOutput (c : Console β) : Bool := c.capture.active && c.capture.suppressConsole

def putChar (c : Console β) (ch : Char) : Console β :=
  let c := c.captureChar ch
  if c.shouldSuppressOutput then c else c.putCharInner ch true true

def clear (c : Console β) : Console β :=
  let c := { c.check (c.cursor.height ≤ maxHeight ∧ c.cursor.width ≤ maxWidth) with
    buffer := c.buffer.fill c.cursor.width c.cursor.height ' ' }
  let c := c.moveTo 0 0
  ({ c with backend := ConsoleBackend.clear c.backend }).placeCursor 0 0

def setCursor (c : Console β) (x y : Nat) : Console β :=
  (c.moveTo (min x (c.cursor.width - 1)) (min y (c.cursor.height - 1))).syncCursor

def resize (c : Console β) (width height : Nat) : Console β :=
  clear { c with
    cursor := { c.cursor with width := max (min width maxWidth) 1, height := max (min height maxHeight) 1 } }

end Console

abbrev DefaultBackend := MirrorConsole SerialConsole FramebufferConsole

/-- Attach a display to the framebuffer and fit the console to it. -/
def attachFramebuffer (c : Console DefaultBackend) (display : Option FramebufferDisplay) : Console DefaultBackend :=
  let c := { c with backend := { c.backend with right := c.backend.right.attach display } }
  match c.backend.right.textColumns, c.backend.right.textRows with
  | some columns, some rows => c.resize columns rows
  | _, _ => c

end Saios
