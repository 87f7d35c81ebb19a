import Xv6.Console.Input
import Xv6.Kernel.State

/-!
# Transfer counts

`console_read`, `pipe_read` and `pipe_write` with the widths that their variables have: the size asked for is a
`uint64_t`, and `target` and `i` are an `int`, which is extended with its sign where it meets the size. Any number of
processes call them, on the console and on one pipe. A step is one round of a loop. Between two rounds a process keeps
the lock, unless it sleeps; a process that sleeps may go on at any time, for it then tests again what it waits for.
-/

namespace Xv6.Count

open Xv6.Lib Xv6.Fs Xv6.Kernel Xv6.Console

/-- An `int` where it meets a `uint64_t`. -/
def extend (i : BitVec 32) : BitVec 64 := i.signExtend 64

/-- The local variables of `console_read`. -/
structure Reader where
  /-- the size that the caller asked for -/
  asked : BitVec 64
  target : BitVec 32
  n : BitVec 64
  dst : List UInt8

/-- The local variables of `pipe_write`; `addr` is the memory from the buffer of the caller on. -/
structure Writer where
  n : BitVec 64
  addr : BitVec 64 → UInt8
  i : BitVec 32
  /-- the number of bytes that were stored -/
  stored : Nat

/-- The local variables of the last loop of `pipe_read`. -/
structure Copier where
  n : BitVec 64
  i : BitVec 32
  addr : List UInt8

/-- The place of a process: before the next round of a loop. -/
inductive Pc where
  | idle
  | consoleRead (c : Reader)
  | pipeWrite (w : Writer)
  /-- in the loop of `pipe_read` that waits -/
  | pipeRead (n : BitVec 64)
  | copy (c : Copier)

inductive Call where
  | consoleRead
  | pipeRead
  | pipeWrite
deriving DecidableEq

/-- A call that has returned: the bytes that it stored at its destination or in the pipe, and whether its process was
killed. -/
structure Done where
  call : Call
  n : BitVec 64
  stored : Nat
  result : Int
  killed : Bool

inductive Next where
  | goto (pc : Pc)
  /-- gives the lock back until the next round -/
  | sleep (pc : Pc)
  | ret (call : Call) (n : BitVec 64) (stored : Nat) (r : Int)

/-! ## Rounds -/

/-- `return target - n;` -/
def Reader.ret (c : Reader) : Next := .ret .consoleRead c.asked c.dst.length (extend c.target - c.n).toInt

def consoleRead (killed : Bool) (c : Reader) (s : Input) : Input × Next :=
  if c.n = 0 then (s, c.ret)
  else if s.r = s.w then (s, if killed then .ret .consoleRead c.asked c.dst.length (-1) else .sleep (.consoleRead c))
  else
    let ch := s.buf (s.r % inputBuf)
    let s' := { s with r := u32 (s.r + 1) }
    if ch = ctrl 'D' then
      if c.n < extend c.target then ({ s' with r := sub32 s'.r 1 }, c.ret) else (s', c.ret)
    else
      let c' := { c with
        dst := c.dst ++ [ch]
        n := c.n - 1 }
      if ch = newline then (s', c'.ret) else (s', .goto (.consoleRead c'))

def pipeWrite (killed : Bool) (w : Writer) (q : Kernel.Pipe) : Kernel.Pipe × Next :=
  if extend w.i < w.n then
    if q.nwrite = Fs.u64 (q.nread + pipesize) then
      (q, if q.readOpen = false ∨ killed then .ret .pipeWrite w.n w.stored (-1) else .sleep (.pipeWrite w))
    else
      ({ q with
        data := upd q.data (q.nwrite % pipesize) (w.addr (extend w.i))
        nwrite := Fs.u64 (q.nwrite + 1) },
        .goto (.pipeWrite { w with
          i := w.i + 1
          stored := w.stored + 1 }))
  else (q, .ret .pipeWrite w.n w.stored w.n.toInt)

def pipeRead (killed : Bool) (n : BitVec 64) (q : Kernel.Pipe) : Next :=
  if q.nread = q.nwrite ∧ q.writeOpen then
    if killed then .ret .pipeRead n 0 (-1) else .sleep (.pipeRead n)
  else .goto (.copy ⟨n, 0, []⟩)

def copy (c : Copier) (q : Kernel.Pipe) : Kernel.Pipe × Next :=
  if extend c.i < c.n ∧ q.nread ≠ q.nwrite then
    ({ q with nread := Fs.u64 (q.nread + 1) },
      .goto (.copy ⟨c.n, c.i + 1, c.addr ++ [q.data (q.nread % pipesize)]⟩))
  else (q, .ret .pipeRead c.n c.addr.length c.i.toInt)

/-! ## Processes -/

structure State (ι : Type) where
  input : Input
  /-- the number of keys that were pressed -/
  typed : Nat
  pipe : Kernel.Pipe
  /-- `cons.lk` -/
  lk : Option ι
  /-- `p->lock` -/
  lock : Option ι
  killed : ι → Bool
  pc : ι → Pc
  done : List Done

inductive Op where
  | consoleRead (n : BitVec 64)
  | pipeRead (n : BitVec 64)
  | pipeWrite (n : BitVec 64) (addr : BitVec 64 → UInt8)

def Op.start : Op → Pc
  | .consoleRead n => .consoleRead ⟨n, n.setWidth 32, n, []⟩
  | .pipeRead n => .pipeRead n
  | .pipeWrite n addr => .pipeWrite ⟨n, addr, 0, 0⟩

inductive Action (ι : Type) where
  | call (p : ι) (op : Op)
  | run (p : ι)
  | key (c : UInt8)
  | close (writable : Bool)
  | kill (p : ι)

variable {ι : Type} [DecidableEq ι]

/-- The process `p` after a round. -/
def State.goes (s : State ι) (p : ι) : Next → State ι
  | .goto pc | .sleep pc => { s with pc := upd s.pc p pc }
  | .ret call n stored r => { s with
      pc := upd s.pc p .idle
      done := s.done ++ [⟨call, n, stored, r, s.killed p⟩] }

/-- Who has the lock after a round of `p`. -/
def Next.lock (p : ι) : Next → Option ι
  | .goto _ => some p
  | _ => none

/-- A round of a call on the console. -/
def State.runConsole (s : State ι) (p : ι) (x : Input × Next) : Option (State ι) :=
  if s.lk = some p then some { s.goes p x.2 with input := x.1, lk := x.2.lock p }
  else if s.lk = none then some { s with lk := some p }
  else none

/-- A round of a call on the pipe. -/
def State.runPipe (s : State ι) (p : ι) (x : Kernel.Pipe × Next) : Option (State ι) :=
  if s.lock = some p then some { s.goes p x.2 with pipe := x.1, lock := x.2.lock p }
  else if s.lock = none then some { s with lock := some p }
  else none

def State.step (s : State ι) : Action ι → Option (State ι)
  | .call p op =>
    match s.pc p with
    | .idle => some { s with pc := upd s.pc p op.start }
    | _ => none
  | .run p =>
    match s.pc p with
    | .idle => none
    | .consoleRead c => s.runConsole p (consoleRead (s.killed p) c s.input)
    | .pipeWrite w => s.runPipe p (pipeWrite (s.killed p) w s.pipe)
    | .pipeRead n => s.runPipe p (s.pipe, pipeRead (s.killed p) n s.pipe)
    | .copy c => s.runPipe p (copy c s.pipe)
  | .key c => if s.lk = none then some { s with input := consoleIntr c s.input, typed := s.typed + 1 } else none
  | .close writable =>
    if s.lock = none then
      some { s with pipe := if writable then { s.pipe with writeOpen := false } else { s.pipe with readOpen := false } }
    else none
  | .kill p => some { s with killed := upd s.killed p true }

/-- An empty console buffer and a new pipe, and no process in a call. -/
structure Starts (s : State ι) : Prop where
  input : s.input.r < 2 ^ 32 ∧ s.input.w = s.input.r ∧ s.input.e = s.input.r
  pipe : s.pipe.nread = 0 ∧ s.pipe.nwrite = 0 ∧ s.pipe.readOpen = true ∧ s.pipe.writeOpen = true
  lk : s.lk = none
  lock : s.lock = none
  pc : ∀ p, s.pc p = .idle
  done : s.done = []
  typed : s.typed = 0

def machine (ι : Type) [DecidableEq ι] : Machine (State ι) (Action ι) := ⟨Starts, State.step⟩

/-! ## What the results should be -/

/-- A result that is not negative is the number of bytes stored, and `console_read` fails only for a killed process. -/
def Done.Right (d : Done) : Prop :=
  (0 ≤ d.result → d.result = d.stored) ∧ (d.call = .consoleRead → d.result < 0 → d.killed = true)

/-- The sizes for which the counts do not wrap. -/
def Done.Fits (d : Done) : Prop :=
  match d.call with
  | .consoleRead => d.n.toNat < 2 ^ 31 ∨ 2 ^ 64 - 2 ^ 31 ≤ d.n.toNat
  | .pipeRead => True
  | .pipeWrite => d.n.toNat ≤ 2 ^ 31 ∨ 2 ^ 63 ≤ d.n.toNat

end Xv6.Count
