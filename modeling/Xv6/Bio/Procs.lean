import Xv6.Lib.Machine
import Xv6.Bio.Cache

/-!
# Processes that share the buffer cache

Any number of processes, each of which calls `bread`, writes to the buffers that it was given, and
releases them. A step is one critical section of `bcache.lock`, one completed `acquire_sleep` or
`release_sleep`, or the code between two of them. A step that would sleep or panic is not enabled.
-/

namespace Xv6.Bio

open Xv6.Lib Xv6.Fs

/-- Where a process is. -/
inductive Pc where
  /-- Outside the buffer cache. -/
  | idle
  /-- In `bget`, before `acquire_sleep`. -/
  | waiting (f : Found) (dev bno : Nat)
  /-- In `bget`, with the lock of a claimed buffer. -/
  | recycling (i : BufId) (dev bno : Nat)
  /-- In `bread`, after `bget`. -/
  | filling (i : BufId) (dev bno : Nat)
  /-- In `brelse`, after `release_sleep`. -/
  | releasing (i : BufId)

/-- A buffer that `bread` has returned, with the arguments of that call. -/
structure Handle where
  buf : BufId
  dev : Nat
  bno : Nat
deriving DecidableEq

structure Procs (ι : Type) where
  cache : Cache
  pc : ι → Pc
  /-- The buffers that each process was given and has not released. -/
  got : ι → List Handle

inductive Act where
  | bread (dev bno : Nat)
  | acquire
  | recycle
  | fill
  /-- New data for a buffer, followed by `bwrite`. -/
  | write (h : Handle) (data : Bytes)
  | brelse (h : Handle)
  | unref

namespace Procs

variable {ι : Type} [DecidableEq ι]

/-- The process `p` runs a piece of code and goes on at the place that its result gives. -/
def goes {α : Type} (s : Procs ι) (p : ι) (x : BioM α) (k : α → Pc) : Option (Procs ι) :=
  match x s.cache with
  | .ok (a, c) => some { s with cache := c, pc := upd s.pc p (k a) }
  | .error _ => none

/-- One step of the process `p`. -/
def step (s : Procs ι) (p : ι) (a : Act) : Option (Procs ι) :=
  match a, s.pc p with
  | .bread dev bno, .idle => s.goes p (lookup dev bno) fun f => .waiting f dev bno
  | .acquire, .waiting (.hit i) dev bno => s.goes p (acquireSleep i) fun _ => .filling i dev bno
  | .acquire, .waiting (.claimed i) dev bno => s.goes p (acquireSleep i) fun _ => .recycling i dev bno
  | .recycle, .recycling i dev bno => s.goes p (Bio.recycle dev bno i) fun _ => .filling i dev bno
  | .fill, .filling i dev bno =>
    (s.goes p (Bio.fill i) fun _ => .idle).map fun s' =>
      { s' with got := upd s.got p (⟨i, dev, bno⟩ :: s.got p) }
  | .write h data, .idle =>
    if h ∈ s.got p then
      s.goes p (do setBuf h.buf fun b => { b with data := data }
                   bwrite h.buf) fun _ => .idle
    else none
  | .brelse h, .idle =>
    if h ∈ s.got p then
      (s.goes p (unlock h.buf) fun _ => .releasing h.buf).map fun s' =>
        { s' with got := upd s.got p ((s.got p).erase h) }
    else none
  | .unref, .releasing i => s.goes p (Bio.unref i) fun _ => .idle
  | _, _ => none

/-- All processes are outside the buffer cache after `bcache_init`. -/
def Starts (s : Procs ι) : Prop :=
  ∃ ramdisk n, s = ⟨bcacheInit ramdisk n, fun _ => .idle, fun _ => []⟩

def machine (ι : Type) [DecidableEq ι] : Machine (Procs ι) (ι × Act) where
  start := Starts
  step s a := s.step a.1 a.2

end Procs

end Xv6.Bio
