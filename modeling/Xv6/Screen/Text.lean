import Xv6.Screen.Gop

/-!
# Console output

The output half of `driver/console.c`: a text buffer of 128 rows of 256 characters, of which the screen shows as many as
fit, the cursor, and the drawing of characters. Every access to the buffer is recorded. The buffer is a function of any
row and column: an access outside the 128 rows and 256 columns is one that the program must not make.
-/

namespace Xv6.Screen

open Xv6.Lib

@[simp] def bufCols : Int := 256
@[simp] def bufRows : Int := 128

@[simp] def fontCharW : Nat := 8
@[simp] def fontCharH : Nat := 16
@[simp] def fontFirst : Nat := 0x20
@[simp] def fontLast : Nat := 0x7e

@[simp] def gopWhi : Nat := 0x00FFFFFF
@[simp] def gopBlk : Nat := 0x00000000

def space : UInt8 := 32
def lineFeed : UInt8 := 10
def carriage : UInt8 := 13
def backspace : UInt8 := 8
def questionMark : UInt8 := 63

/-- `struct console` -/
structure Cons where
  buffer : Int → Int → UInt8
  curY : Int
  curX : Int
  maxCols : Int
  maxRows : Int
  fg : Nat
  bg : Nat
  fontW : Int
  fontH : Int
  /-- The rows and columns of the accesses to the buffer, in order. -/
  accesses : List (Int × Int)

structure Terminal where
  cons : Cons
  display : Display
  /-- The glyphs: the rows of a character, as bits. -/
  font8x16 : Nat → Nat → Nat

abbrev TermM : Type → Type := Prog Terminal

def onDisplay {α : Type} (x : DisplayM α) : TermM α := x.on Terminal.display fun d t => { t with display := d }

def modifyCons (f : Cons → Cons) : TermM Unit := modify fun t => { t with cons := f t.cons }

/-- An `int` as `uint64_t`. -/
def u64 (i : Int) : Nat := (i % 2 ^ 64).toNat

/-! ## Characters -/

def fontDrawChar (x y : Nat) (c : UInt8) (fg bg : Nat) : TermM Unit := do
  let t ← get
  let c := if c.toNat < fontFirst ∨ fontLast < c.toNat then questionMark else c
  let glyph := t.font8x16 (c.toNat - fontFirst)
  each (List.range fontCharH) fun row =>
    each (List.range fontCharW) fun col =>
      onDisplay (gopDrawPixel (x + col) (y + row) (if (glyph row).testBit (7 - col) then fg else bg))

/-- `cons.buffer[y][x]`, read. -/
def getCell (y x : Int) : TermM UInt8 := do
  let t ← get
  modifyCons fun c => { c with accesses := c.accesses ++ [(y, x)] }
  pure (t.cons.buffer y x)

/-- The buffer with one cell changed. -/
def setBuffer (b : Int → Int → UInt8) (y x : Int) (ch : UInt8) : Int → Int → UInt8 :=
  fun i j => if i = y ∧ j = x then ch else b i j

/-- `cons.buffer[y][x]`, stored. -/
def setCell (y x : Int) (ch : UInt8) : TermM Unit :=
  modifyCons fun c => { c with buffer := setBuffer c.buffer y x ch, accesses := c.accesses ++ [(y, x)] }

/-- A character in the cell of a row and a column. -/
def drawCell (y x : Int) (ch : UInt8) : TermM Unit := do
  let t ← get
  fontDrawChar (u64 (x * t.cons.fontW)) (u64 (y * t.cons.fontH)) ch t.cons.fg t.cons.bg

def redrawCell (y x : Int) : TermM Unit := do
  let c ← getCell y x
  if c ≠ space ∧ c ≠ 0 then drawCell y x c else pure ()

def consoleRedrawAll : TermM Unit := do
  let t ← get
  onDisplay (gopDrawRect 0 0 t.display.fb.width t.display.fb.height t.cons.bg)
  each (List.range t.cons.maxRows.toNat) fun y =>
    each (List.range t.cons.maxCols.toNat) fun x => redrawCell y x

def moveUp (y x : Int) : TermM Unit := do
  let c ← getCell (y + 1) x
  setCell y x c

def consoleScroll : TermM Unit := do
  let t ← get
  each (List.range (t.cons.maxRows - 1).toNat) fun y =>
    each (List.range t.cons.maxCols.toNat) fun x => moveUp y x
  each (List.range t.cons.maxCols.toNat) fun x => setCell (t.cons.maxRows - 1) x space
  consoleRedrawAll

/-! ## The cursor -/

/-- The end of `console_putc`, from the comment "next line" on. -/
def nextLine : TermM Unit := do
  modifyCons fun c => if c.maxCols ≤ c.curX then { c with curX := 0, curY := c.curY + 1 } else c
  let t ← get
  if t.cons.maxRows ≤ t.cons.curY then do
    consoleScroll
    modifyCons fun c => { c with curY := c.maxRows - 1 }
  else pure ()

def consolePutc (ch : UInt8) : TermM Unit := do
  let t ← get
  let c := t.cons
  if ch = lineFeed then do
    modifyCons fun c => { c with curX := 0, curY := c.curY + 1 }
    nextLine
  else if ch = carriage then do
    modifyCons fun c => { c with curX := 0 }
    nextLine
  else if ch = backspace then
    if c.curX = 0 then pure ()
    else do
      modifyCons fun c => { c with curX := c.curX - 1 }
      setCell c.curY (c.curX - 1) space
      drawCell c.curY (c.curX - 1) space
      nextLine
  else do
    setCell c.curY c.curX ch
    drawCell c.curY c.curX ch
    modifyCons fun c => { c with curX := c.curX + 1 }
    nextLine

def consoleInit : TermM Unit := do
  modify fun t => { t with cons := { t.cons with
    fontW := 8
    fontH := 16
    maxCols := t.display.fb.width / 8
    maxRows := t.display.fb.height / 16
    curY := 0
    curX := 0
    fg := gopWhi
    bg := gopBlk } }
  let t ← get
  -- `pixels_per_scanline`, which nobody reads, is `pitch / (bpp / 8)`; a division by zero traps again and again
  if t.display.fb.bpp / 8 = 0 then throw .diverge
  else pure ()

/-- Characters, one after the other. -/
def putAll (cs : List UInt8) : TermM Unit := each cs consolePutc

/-- The console before `console_init`. -/
def Cons.zero : Cons := ⟨fun _ _ => 0, 0, 0, 0, 0, 0, 0, 0, 0, []⟩

/-! ## What the console must keep to -/

/-- The cell is one of the buffer. -/
def InBuffer (a : Int × Int) : Prop := 0 ≤ a.1 ∧ a.1 < bufRows ∧ 0 ≤ a.2 ∧ a.2 < bufCols

/-- The cursor is on the screen. -/
structure Cons.CursorIn (c : Cons) : Prop where
  x : 0 ≤ c.curX ∧ c.curX < c.maxCols
  y : 0 ≤ c.curY ∧ c.curY < c.maxRows

/-- After `console_init` and any characters, all accesses were to the buffer, and the cursor is on the screen. -/
def StaysInside (fb : GopFb) : Prop :=
  ∀ bytes font cs, ∃ t, (do consoleInit; putAll cs) ⟨Cons.zero, ⟨fb, bytes, []⟩, font⟩ = .ok ((), t) ∧
    (∀ a ∈ t.cons.accesses, InBuffer a) ∧ (cs ≠ [] → t.cons.CursorIn)

end Xv6.Screen
