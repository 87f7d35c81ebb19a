import Xv6.Console.Input
import Xv6.Screen.Lemmas.Text

/-!
# Editing a line on the screen

`console_intr` with its echo: every character that it stores or erases in the input buffer is also put on the screen.
The cells of the screen are counted along the rows; `base` records the cell of the cursor at the last commit, and `old`
what the cells held then.
-/

namespace Xv6.Screen

open Xv6.Lib Xv6.Console

structure Editor where
  input : Input
  term : Terminal
  base : Int
  old : Int → UInt8

abbrev EditM : Type → Type := Prog Editor

/-! ## Cells along the rows -/

/-- The cells of a row; a screen without columns shows one character in a row. -/
def Cons.cols (c : Cons) : Int := max 1 c.maxCols

/-- The cell of the cursor. -/
def Cons.pos (c : Cons) : Int := c.curY * c.cols + c.curX

def Cons.cellAt (c : Cons) (k : Int) : UInt8 := c.buffer (k / c.cols) (k % c.cols)

/-! ## Keys -/

def putc (ch : UInt8) : EditM Unit := (consolePutc ch).on Editor.term fun t s => { s with term := t }

def modifyInput (f : Input → Input) : EditM Unit := modify fun s => { s with input := f s.input }

/-- `input.e--; console_putc('\b');` -/
def eraseLast : EditM Unit := do
  modifyInput fun i => { i with e := sub32 i.e 1 }
  putc backspace

/-- The loop for `C('U')`; the distance of `e` from `w` bounds the number of its rounds. -/
def eraseLine : Nat → EditM Unit
  | 0 => pure ()
  | n + 1 => do
    let s ← get
    if s.input.e ≠ s.input.w ∧ s.input.buf (sub32 s.input.e 1 % inputBuf) ≠ newline then do
      eraseLast
      eraseLine n
    else pure ()

/-- The default case of the switch. -/
def storeKey (c : UInt8) : EditM Unit := do
  modifyInput fun i => { i with
    buf := upd i.buf (i.e % inputBuf) c
    e := u32 (i.e + 1) }
  putc c
  let s ← get
  if c = newline ∨ c = ctrl 'D' ∨ s.input.e = u32 (s.input.r + inputBuf) then
    set { s with
      input := { s.input with w := s.input.e }
      base := s.term.cons.pos
      old := s.term.cons.cellAt }
  else pure ()

/-- Both keys for the end of a line store a newline. -/
def echo (c : UInt8) : UInt8 := if c = carriageReturn then newline else c

/-- One character of the loop of `console_intr`. -/
def intr (c : UInt8) : EditM Unit := do
  let s ← get
  if c = ctrl 'U' then eraseLine (sub32 s.input.e s.input.w)
  else if c = ctrl 'H' then
    if s.input.e ≠ s.input.w then eraseLast else pure ()
  else if c ≠ 0 ∧ sub32 s.input.e s.input.r < inputBuf then storeKey (echo c)
  else pure ()

/-! ## Runs -/

inductive Edit where
  | key (c : UInt8)
  /-- A reader takes a committed character. -/
  | take

def Editor.step (s : Editor) : Edit → Option Editor
  | .key c =>
    match intr c s with
    | .ok (_, s') => some s'
    | .error _ => none
  | .take => if s.input.r ≠ s.input.w then some { s with input := { s.input with r := u32 (s.input.r + 1) } } else none

/-- Everything is committed and read, and the cursor is on the screen. -/
structure Blank (s : Editor) : Prop where
  r : s.input.r < 2 ^ 32
  w : s.input.w = s.input.r
  e : s.input.e = s.input.r
  x : 0 ≤ s.term.cons.curX ∧ s.term.cons.curX < s.term.cons.cols
  y : 0 ≤ s.term.cons.curY ∧ s.term.cons.curY < s.term.cons.maxRows
  base : s.base = s.term.cons.pos
  old : s.old = s.term.cons.cellAt

def editing : Machine Editor Edit := ⟨Blank, Editor.step⟩

/-- The screen shows the line that is being edited. -/
structure Shows (s : Editor) : Prop where
  cursor : s.term.cons.pos = s.base + sub32 s.input.e s.input.w
  /-- the cells from the last commit to the cursor hold the characters that are not committed -/
  line : ∀ i < sub32 s.input.e s.input.w, s.term.cons.cellAt (s.base + i) = s.input.buf ((s.input.w + i) % inputBuf)
  /-- nothing that was erased is left from the cursor on -/
  erased : ∀ k, s.term.cons.pos ≤ k → s.term.cons.cellAt k = s.old k ∨ s.term.cons.cellAt k = space
  before : ∀ k, k < s.base → s.term.cons.cellAt k = s.old k

/-- Whether a key is stored. -/
def Stores (s : Editor) (c : UInt8) : Prop := c ≠ ctrl 'U' ∧ c ≠ ctrl 'H' ∧ c ≠ 0 ∧ sub32 s.input.e s.input.r < inputBuf

/-- The echo of a key neither scrolls nor leaves the text buffer. -/
def Still (s : Editor) : Edit → Prop
  | .key c => Stores s c → (echo c ≠ newline → InBuffer (s.term.cons.curY, s.term.cons.curX)) ∧
      (s.term.cons.put (echo c)).curY < s.term.cons.maxRows
  | .take => True

/-- All that a key erases is in the row of the cursor. -/
def InRow (s : Editor) : Edit → Prop
  | .key c => (c = ctrl 'U' → (sub32 s.input.e s.input.w : Int) ≤ s.term.cons.curX) ∧
      (c = ctrl 'H' → s.input.e ≠ s.input.w → s.term.cons.curX ≠ 0)
  | .take => True

end Xv6.Screen
