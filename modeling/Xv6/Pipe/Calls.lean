import Xv6.Kernel.State
import Xv6.Lib.Machine
import Xv6.Lib.RingBuf

/-!
# Calls on a pipe

`pipe_read`, `pipe_write` and `pipe_close` on one pipe, by any number of processes at once, together with
`sleep`, `wakeup` and `kill`. A process goes from one place of its code to the next by one instruction. An
instruction is a test or an access to the pipe, the taking or giving back of a lock, or a whole critical
section of `ptable.lock`. Any process that can go on may take the next step, so that the runs include
those that switch only where a process sleeps or has no lock.

The lists `stored`, `writes` and `reads` only record what happened. A pipe that is freed has no more calls:
the file table keeps a pipe as long as a process has one of its ends.
-/

namespace Xv6.Pipe

open Xv6.Lib Xv6.Fs Xv6.Kernel

/-- A channel to sleep on: the address of a counter of the pipe. -/
inductive Chan where
  | nread
  | nwrite
deriving DecidableEq

/-- Bytes to write; the index of the loop is an `int`. -/
abbrev Request : Type := { addr : List UInt8 // addr.length < 2 ^ 31 }

inductive Op where
  | read (n : Fin (2 ^ 31))
  | write (addr : Request)
  | close (writable : Bool)

/-- The local variables of a call that sleeps. -/
inductive Wait where
  | read (n : Fin (2 ^ 31))
  | write (addr : Request) (i : Nat)

def Wait.chan : Wait → Chan
  | .read _ => .nread
  | .write _ _ => .nwrite

/-- The place of a process in its code, with its local variables. -/
inductive Pc where
  | idle
  /-- at `acquire(&p->lock)` -/
  | enter (op : Op)
  /-- at the head of the loop of `pipe_write` -/
  | writeTest (addr : Request) (i : Nat)
  /-- at the `wakeup` before the `sleep` of `pipe_write` -/
  | writeWake (addr : Request) (i : Nat)
  /-- at the `wakeup` after the loop of `pipe_write` -/
  | writeEnd (addr : Request)
  | writeReturn (addr : Request) (i : Nat) (r : Int)
  /-- at the head of the `while` of `pipe_read` -/
  | readTest (n : Fin (2 ^ 31))
  /-- in the `for` of `pipe_read`, with the `i` bytes it has copied -/
  | readCopy (n : Fin (2 ^ 31)) (i : Nat) (got : List UInt8)
  | readEnd (n : Fin (2 ^ 31)) (got : List UInt8)
  | readReturn (n : Fin (2 ^ 31)) (r : Option (List UInt8))
  | closeMark (writable : Bool)
  | closeWake (writable : Bool)
  | closeReturn
  /-- at the call of `sleep` -/
  | sleep (w : Wait)
  /-- in `sleep`, with `ptable.lock` and without the lock of the pipe -/
  | fall (w : Wait)
  /-- in the `sched` of `sleep` -/
  | asleep (w : Wait)
  /-- at the last `acquire` of `sleep` -/
  | reacquire (w : Wait)

def Op.body : Op → Pc
  | .read n => .readTest n
  | .write addr => .writeTest addr 0
  | .close writable => .closeMark writable

def Wait.resume : Wait → Pc
  | .read n => .readTest n
  | .write addr i => .writeTest addr i

inductive Instr where
  | skip
  | acquire
  | store (c : UInt8)
  | load
  | close (writable : Bool)
  | wakeup (c : Chan)
  /-- `acquire(&ptable.lock); release(lk);` -/
  | sleep
  /-- `p->chan = chan; p->state = SLEEPING; sched();` -/
  | doze (c : Chan)
  | returnWrite (addr : Request) (i : Nat) (r : Int)
  | returnRead (n : Fin (2 ^ 31)) (r : Option (List UInt8))
  | returnClose

/-- The next instruction of a process, and the place after it. -/
def next (killed : Bool) (q : Kernel.Pipe) : Pc → Option (Instr × Pc)
  | .idle => none
  | .enter op => some (.acquire, op.body)
  | .writeTest addr i =>
    if i < addr.val.length then
      if q.nwrite = u64 (q.nread + pipesize) then
        if q.readOpen = false ∨ killed then some (.skip, .writeReturn addr i (-1))
        else some (.skip, .writeWake addr i)
      else some (.store (addr.val.getD i 0), .writeTest addr (i + 1))
    else some (.skip, .writeEnd addr)
  | .writeWake addr i => some (.wakeup .nread, .sleep (.write addr i))
  | .writeEnd addr => some (.wakeup .nread, .writeReturn addr addr.val.length addr.val.length)
  | .writeReturn addr i r => some (.returnWrite addr i r, .idle)
  | .readTest n =>
    if q.nread = q.nwrite ∧ q.writeOpen then
      if killed then some (.skip, .readReturn n none)
      else some (.skip, .sleep (.read n))
    else some (.skip, .readCopy n 0 [])
  | .readCopy n i got =>
    if i < n.val ∧ q.nread ≠ q.nwrite then
      some (.load, .readCopy n (i + 1) (got ++ [q.data (q.nread % pipesize)]))
    else some (.skip, .readEnd n got)
  | .readEnd n got => some (.wakeup .nwrite, .readReturn n (some got))
  | .readReturn n r => some (.returnRead n r, .idle)
  | .closeMark writable => some (.close writable, .closeWake writable)
  | .closeWake writable => some (.wakeup (if writable then .nread else .nwrite), .closeReturn)
  | .closeReturn => some (.returnClose, .idle)
  | .sleep w => some (.sleep, .fall w)
  | .fall w => some (.doze w.chan, .asleep w)
  -- the scheduler takes the process from here
  | .asleep _ => none
  | .reacquire w => some (.acquire, w.resume)

structure Proc where
  state : ProcState
  chan : Option Chan
  killed : Bool
  pc : Pc

/-- A `pipe_write` that has returned, after the first `i` bytes of `addr`. -/
structure Written (ι : Type) where
  caller : ι
  addr : List UInt8
  i : Nat
  result : Int

/-- A `pipe_read` that has returned the bytes of `result`, or `-1`. -/
structure WasRead (ι : Type) where
  caller : ι
  n : Nat
  result : Option (List UInt8)

structure State (ι : Type) where
  pipe : Kernel.Pipe
  freed : Bool
  lock : Option ι
  ptable : Option ι
  procs : ι → Proc
  stored : List (ι × UInt8)
  writes : List (Written ι)
  reads : List (WasRead ι)

variable {ι : Type} [DecidableEq ι]

def State.modifyProc (s : State ι) (t : ι) (g : Proc → Proc) : State ι :=
  { s with procs := upd s.procs t (g (s.procs t)) }

def State.goto (s : State ι) (t : ι) (pc : Pc) : State ι := s.modifyProc t fun x => { x with pc := pc }

/-- `wakeup_pure` -/
def Proc.wakeup (c : Chan) (x : Proc) : Proc :=
  if x.state = .sleeping ∧ x.chan = some c then { x with state := .runnable } else x

/-- A lock that is not free is waited for; `wakeup` and `sleep` take `ptable.lock`. -/
def enabled (s : State ι) : Instr → Bool
  | .acquire => s.lock.isNone
  | .wakeup _ | .sleep => s.ptable.isNone
  | _ => true

/-- The state after an instruction of `t`. -/
def exec (s : State ι) (t : ι) : Instr → State ι
  | .skip => s
  | .acquire => { s with lock := some t }
  | .store c => { s with
      pipe := { s.pipe with
        data := upd s.pipe.data (s.pipe.nwrite % pipesize) c, nwrite := u64 (s.pipe.nwrite + 1) }
      stored := s.stored ++ [(t, c)] }
  | .load => { s with pipe := { s.pipe with nread := u64 (s.pipe.nread + 1) } }
  | .close true => { s with pipe := { s.pipe with writeOpen := false } }
  | .close false => { s with pipe := { s.pipe with readOpen := false } }
  | .wakeup c => { s with procs := fun u => (s.procs u).wakeup c }
  | .sleep => { s with ptable := some t, lock := none }
  | .doze c => { s with ptable := none }.modifyProc t fun x => { x with state := .sleeping, chan := some c }
  | .returnWrite addr i r => { s with lock := none, writes := s.writes ++ [⟨t, addr.val, i, r⟩] }
  | .returnRead n r => { s with lock := none, reads := s.reads ++ [⟨t, n.val, r⟩] }
  | .returnClose => { s with lock := none, freed := !s.pipe.readOpen && !s.pipe.writeOpen }

/-- Whether a process has a spin lock, and is not interrupted. -/
def Pc.holds : Pc → Bool
  | .idle | .enter _ | .fall _ | .asleep _ | .reacquire _ => false
  | _ => true

inductive Action (ι : Type) where
  /-- an idle process calls a function of the pipe -/
  | call (t : ι) (op : Op)
  | run (t : ι)
  | kill (t : ι)
  | schedule (t : ι)
  | yield (t : ι)

/-- The scheduler runs a process; one that was asleep leaves `sched` and clears its channel. -/
def Proc.scheduled (x : Proc) : Proc :=
  match x.pc with
  | .asleep w => { x with state := .running, chan := none, pc := .reacquire w }
  | _ => { x with state := .running }

def step (s : State ι) : Action ι → Option (State ι)
  | .call t op =>
    match (s.procs t).pc with
    | .idle => if (s.procs t).state = .running ∧ s.freed = false then some (s.goto t (.enter op)) else none
    | _ => none
  | .run t =>
    if (s.procs t).state = .running ∧ s.freed = false then
      match next (s.procs t).killed s.pipe (s.procs t).pc with
      | none => none
      | some (i, pc) => if enabled s i then some ((exec s t i).goto t pc) else none
    else none
  | .kill t =>
    if s.ptable = none then
      some (s.modifyProc t fun x =>
        { x with killed := true, state := if x.state = .sleeping then .runnable else x.state })
    else none
  | .schedule t =>
    if s.ptable = none ∧ (s.procs t).state = .runnable then some (s.modifyProc t Proc.scheduled) else none
  | .yield t =>
    if s.ptable = none ∧ (s.procs t).state = .running ∧ (s.procs t).pc.holds = false then
      some (s.modifyProc t fun x => { x with state := .runnable })
    else none

/-- A new pipe; no process is in one of its calls. -/
structure Starts (s : State ι) : Prop where
  nread : s.pipe.nread = 0
  nwrite : s.pipe.nwrite = 0
  readOpen : s.pipe.readOpen = true
  writeOpen : s.pipe.writeOpen = true
  freed : s.freed = false
  lock : s.lock = none
  ptable : s.ptable = none
  idle : ∀ t, (s.procs t).pc = .idle ∧ (s.procs t).state ≠ .sleeping
  stored : s.stored = []
  writes : s.writes = []
  reads : s.reads = []

/-- The runs of the processes of one pipe. -/
def machine (ι : Type) [DecidableEq ι] : Machine (State ι) (Action ι) := ⟨Starts, step⟩

end Xv6.Pipe
