import Mathlib.Algebra.Order.Ring.Nat
import Xv6.Lib.Machine
import Xv6.Lib.Upd

/-!
# Console input

The input half of `driver/console.c`: the keyboard interrupt, which edits and commits lines in a ring of
128 characters, and `console_read`. All of it runs under `cons.lk`, so that a step is one character of
`console_intr`, or what a reader does between two of its sleeps. The three indices run freely and wrap
at 32 bits.
-/

namespace Xv6.Console

open Xv6.Lib

@[simp] def inputBuf : Nat := 128

/-- `C(x)` -/
def ctrl (x : Char) : UInt8 := x.toUInt8 - 64

def newline : UInt8 := 10
def carriageReturn : UInt8 := 13

/-- Conversion to `uint32_t`. -/
def u32 (x : Nat) : Nat := x % 2 ^ 32

/-- The difference of two numbers of type `uint32_t`. -/
def sub32 (a b : Nat) : Nat := u32 (2 ^ 32 + a - b)

structure Input where
  buf : Nat → UInt8
  r : Nat
  w : Nat
  e : Nat

/-! ## Keyboard -/

/-- The loop for `C('U')`; the distance of `e` from `w` bounds the number of its rounds. -/
def killLine : Nat → Input → Input
  | 0, s => s
  | n + 1, s =>
    if s.e ≠ s.w ∧ s.buf (sub32 s.e 1 % inputBuf) ≠ newline then killLine n { s with e := sub32 s.e 1 }
    else s

/-- The default case of the switch. -/
def store (c : UInt8) (s : Input) : Input :=
  let s := { s with buf := upd s.buf (s.e % inputBuf) c, e := u32 (s.e + 1) }
  if c = newline ∨ c = ctrl 'D' ∨ s.e = u32 (s.r + inputBuf) then { s with w := s.e } else s

/-- One character of the loop of `console_intr`. -/
def consoleIntr (c : UInt8) (s : Input) : Input :=
  if c = ctrl 'U' then killLine (sub32 s.e s.w) s
  else if c = ctrl 'H' then
    if s.e ≠ s.w then { s with e := sub32 s.e 1 } else s
  else if c ≠ 0 ∧ sub32 s.e s.r < inputBuf then store (if c = carriageReturn then newline else c) s
  else s

/-! ## Readers -/

/-- How a run of `console_read` ends. -/
inductive Outcome where
  /-- It sleeps with `n` bytes still to read. -/
  | sleeps (n : Nat)
  | returns
  /-- It returns -1, which only a killed process does. -/
  | fails

structure ReadRun where
  input : Input
  /-- The bytes stored at `dst`, those of earlier runs included. -/
  dst : List UInt8
  /-- The characters taken from the buffer, a `C('D')` included. -/
  took : List UInt8
  outcome : Outcome

/-- The loop of `console_read` with `n` bytes still to read, up to a sleep or the return. -/
def readLoop (killed : Bool) (target : Nat) : Nat → List UInt8 → Input → ReadRun
  | 0, dst, s => ⟨s, dst, [], .returns⟩
  | n + 1, dst, s =>
    if s.r = s.w then ⟨s, dst, [], if killed then .fails else .sleeps (n + 1)⟩
    else
      let c := s.buf (s.r % inputBuf)
      let s' := { s with r := u32 (s.r + 1) }
      if c = ctrl 'D' then
        if n + 1 < target then ⟨{ s' with r := sub32 s'.r 1 }, dst, [], .returns⟩
        else ⟨s', dst, [c], .returns⟩
      else if c = newline then ⟨s', dst ++ [c], [c], .returns⟩
      else
        let t := readLoop killed target n (dst ++ [c]) s'
        { t with took := c :: t.took }

/-- A reader that sleeps on `&input.r`. -/
structure Reader where
  target : Nat
  n : Nat
  dst : List UInt8
  took : List UInt8

/-- A read that has returned: the size asked for, the bytes given, and the characters taken. -/
structure Done where
  target : Nat
  dst : List UInt8
  took : List UInt8

/-- What happened at the console. -/
inductive Event (ι : Type) where
  | typed (c : UInt8)
  | took (p : ι) (c : UInt8)

structure State (ι : Type) where
  input : Input
  asleep : ι → Option Reader
  done : ι → List Done
  events : List (Event ι)

inductive Action (ι : Type) where
  | key (c : UInt8)
  | read (p : ι) (n : Nat)
  | wake (p : ι)

variable {ι : Type} [DecidableEq ι]

/-- The process `p` runs the loop for the read `d`. -/
def State.reads (s : State ι) (p : ι) (d : Reader) : State ι :=
  let t := readLoop false d.target d.n d.dst s.input
  let took := d.took ++ t.took
  let events := s.events ++ t.took.map (Event.took p)
  match t.outcome with
  | .sleeps n => ⟨t.input, upd s.asleep p (some ⟨d.target, n, t.dst, took⟩), s.done, events⟩
  | _ => ⟨t.input, upd s.asleep p none, upd s.done p (s.done p ++ [⟨d.target, t.dst, took⟩]), events⟩

/-- One step: a key, a call of `console_read`, or a reader that was asleep. Readers are not killed. -/
def State.step (s : State ι) : Action ι → Option (State ι)
  | .key c => some { s with input := consoleIntr c s.input, events := s.events ++ [.typed c] }
  | .read p n =>
    match s.asleep p with
    | none => if n < 2 ^ 31 then some (s.reads p ⟨n, n, [], []⟩) else none
    | some _ => none
  | .wake p => (s.asleep p).map (s.reads p)

/-- The buffer is empty and nobody reads. -/
def Starts (s : State ι) : Prop :=
  s.input.r < 2 ^ 32 ∧ s.input.w = s.input.r ∧ s.input.e = s.input.r ∧ (∀ p, s.asleep p = none) ∧ (∀ p, s.done p = []) ∧
    s.events = []

def machine (ι : Type) [DecidableEq ι] : Machine (State ι) (Action ι) where
  start := Starts
  step := State.step

end Xv6.Console
