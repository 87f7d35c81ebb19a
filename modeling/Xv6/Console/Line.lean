import Xv6.Console.Input

/-!
# The line discipline

What the console is for, without a ring: the characters typed form a line that can be edited until it is
committed, and the committed characters form one stream.
-/

namespace Xv6.Console

structure Line where
  committed : List UInt8
  pending : List UInt8
  /-- The number of committed characters that readers have taken. -/
  used : Nat

namespace Line

/-- The number of characters in the buffer. -/
def size (L : Line) : Nat := L.committed.length - L.used + L.pending.length

/-- A character is added to the line, which may commit it. -/
def add (L : Line) (c : UInt8) : Line :=
  if c = newline ∨ c = ctrl 'D' ∨ L.size + 1 = inputBuf then ⟨L.committed ++ (L.pending ++ [c]), [], L.used⟩
  else ⟨L.committed, L.pending ++ [c], L.used⟩

def typed (L : Line) (c : UInt8) : Line :=
  if c = ctrl 'U' then ⟨L.committed, [], L.used⟩
  else if c = ctrl 'H' then ⟨L.committed, L.pending.dropLast, L.used⟩
  else if c ≠ 0 ∧ L.size < inputBuf then L.add (if c = carriageReturn then newline else c)
  else L

def event {ι : Type} (L : Line) : Event ι → Line
  | .typed c => L.typed c
  | .took _ _ => ⟨L.committed, L.pending, L.used + 1⟩

/-- The line after what happened at the console. -/
def after {ι : Type} (l : List (Event ι)) : Line := l.foldl event ⟨[], [], 0⟩

end Line

/-- The characters that readers have taken. -/
def taken {ι : Type} (l : List (Event ι)) : List UInt8 :=
  l.filterMap fun
    | .typed _ => none
    | .took _ c => some c

/-- The characters that the reader `p` has taken. -/
def takenBy {ι : Type} [DecidableEq ι] (p : ι) (l : List (Event ι)) : List UInt8 :=
  l.filterMap fun
    | .typed _ => none
    | .took q c => if q = p then some c else none

/-- A read that waits for more has stored all it took, and no end of line or `C('D')` so far. -/
structure Reader.Waits (d : Reader) : Prop where
  took : d.took = d.dst
  size : d.dst.length + d.n = d.target
  newline : newline ∉ d.dst
  ctrlD : ctrl 'D' ∉ d.dst

/-- A read has returned all it took, or has taken one `C('D')` and returned nothing. What it returned
ends at the first newline and has no `C('D')`. -/
structure Done.Proper (d : Done) : Prop where
  took : d.took = d.dst ∨ d.dst = [] ∧ d.took = [ctrl 'D']
  size : d.dst.length ≤ d.target
  newline : newline ∉ d.dst.dropLast
  ctrlD : ctrl 'D' ∉ d.dst

/-- Why a read returns: it has all it asked for, or the end of a line, or it took a `C('D')` with
nothing read, or a `C('D')` is next and it leaves it in the buffer. -/
def Ends (target : Nat) (t : ReadRun) : Prop :=
  t.dst.length = target ∨ t.dst.getLast? = some newline ∨ t.dst = [] ∧ t.took = [ctrl 'D'] ∨
    t.dst ≠ [] ∧ t.input.r ≠ t.input.w ∧ t.input.buf (t.input.r % inputBuf) = ctrl 'D'

end Xv6.Console
