import Xv6.Kernel.State
import Xv6.Lib.Machine

/-!
# The interrupt flag

`push_cli` and `pop_cli` with `acquire` and `release`, the loop of `scheduler`, `sched`, and the ways into
the kernel: `syscall`, an interrupt gate, and `fork_ret` for a process that runs for the first time. There are any
number of processors and processes. `ptable.lock` is one lock; what matters of the other locks, and of `myproc`
and `holding`, are their `push_cli` and `pop_cli`.
-/

namespace Xv6.Intr

open Xv6.Lib Xv6.Kernel

/-- `rflags & FL_IF` with `ncli` and `int_ena` of `struct cpu` -/
structure Regs where
  intr : Bool
  ncli : Nat
  intEna : Bool

/-- How a piece of kernel code was entered. -/
inductive Entry where
  /-- by `syscall`, up to `sysretq` -/
  | syscall
  /-- by the first switch to a process, from `fork_ret` up to `sysretq` -/
  | fork
  /-- by an interrupt gate, up to `iretq`, which restores the flag -/
  | gate (intr : Bool)
  | scheduler
deriving DecidableEq

inductive Pc where
  | code
  /-- at the `sti` of `scheduler` -/
  | sti
  /-- in `push_cli`, between the reading of the flags and `cli`; `acquire` says whether `ptable.lock` is taken next -/
  | push (rflags acquire : Bool)
  /-- at the `xchg` of `acquire(&ptable.lock)` -/
  | spin
  /-- in the `swtch` of `sched`, with the local `int_ena` -/
  | swtch (intEna : Bool)
  /-- behind it -/
  | resume (intEna : Bool)
deriving DecidableEq

/-- A piece of kernel code on its way. -/
structure Act where
  entry : Entry
  /-- The number of its calls of `push_cli` that are not undone. -/
  depth : Nat
  /-- It has `ptable.lock`. -/
  lock : Bool
  pc : Pc
deriving DecidableEq

/-- A process with what its kernel stack holds, the innermost first. In user mode there is nothing. -/
structure Proc where
  state : ProcState
  acts : List Act
  /-- What the first switch to the process found in `int_ena`. -/
  found : Bool

structure Cpu (ι : Type) where
  regs : Regs
  proc : Option ι
  /-- The stack of the scheduler. -/
  loop : List Act

structure State (ι κ : Type) where
  /-- `ptable.lock.cpu` -/
  lock : Option κ
  cpus : κ → Cpu ι
  procs : ι → Proc

/-- What the code that a processor runs does next. -/
inductive Op (ι : Type) where
  | push
  | acquire
  | cli
  | take
  | pop
  | release
  | sched (st : ProcState)
  | restore
  | ret
  | sti
  | swtch (p : ι)
  | mark (p : ι) (st : ProcState)
  | drop (p : ι)

inductive Action (ι κ : Type) where
  | syscall (c : κ)
  | interrupt (c : κ)
  | run (c : κ) (op : Op ι)

/-- `push_cli` from `cli` on -/
def Regs.cli (r : Regs) (rflags : Bool) : Regs := ⟨false, r.ncli + 1, if r.ncli = 0 then rflags else r.intEna⟩

/-- `none` where `pop_cli` panics -/
def Regs.popCli (r : Regs) : Option Regs :=
  if r.intr = true ∨ r.ncli = 0 then none
  else some ⟨decide (r.ncli = 1) && r.intEna, r.ncli - 1, r.intEna⟩

/-- The stack that `alloc_proc` makes: `fork_ret`, which releases the lock of the scheduler. -/
def newborn : List Act := [⟨.fork, 1, true, .code⟩]

/-- What the `swtch` of the scheduler returns into. -/
def resume : List Act → List Act
  | ⟨e, d, l, .swtch i⟩ :: rest => ⟨e, d, l, .resume i⟩ :: rest
  | acts => acts

/-- The changes of the state of another process under `ptable.lock`: `alloc_proc`, the end of `fork`, `wakeup` and
`kill`, `wait`. -/
def marks : ProcState → ProcState → Bool
  | .unused, .embryo => true
  | .embryo, .runnable => true
  | .sleeping, .runnable => true
  | .zombie, .unused => true
  | _, _ => false

variable {ι κ : Type} [DecidableEq ι] [DecidableEq κ]

/-- The stack of the code that runs. -/
def State.acts (s : State ι κ) (c : κ) : List Act :=
  match (s.cpus c).proc with
  | none => (s.cpus c).loop
  | some p => (s.procs p).acts

/-- New flags, and a new stack for the code that runs. -/
def State.put (s : State ι κ) (c : κ) (r : Regs) (l : List Act) : State ι κ :=
  match (s.cpus c).proc with
  | none => { s with cpus := upd s.cpus c { s.cpus c with regs := r, loop := l } }
  | some p => { s with
      cpus := upd s.cpus c { s.cpus c with regs := r }
      procs := upd s.procs p { s.procs p with acts := l } }

/-- One step of the innermost code `a` on the processor `c`. The code that `fork_ret` starts only releases the lock and
returns. -/
def State.exec (s : State ι κ) (c : κ) (a : Act) (rest : List Act) : Op ι → Option (State ι κ)
  | .push =>
    if a.pc = .code ∧ a.entry ≠ .scheduler ∧ a.entry ≠ .fork then
      some (s.put c (s.cpus c).regs ({ a with pc := .push (s.cpus c).regs.intr false } :: rest))
    else none
  | .acquire =>
    if a.pc = .code ∧ a.entry ≠ .fork ∧ a.lock = false then
      some (s.put c (s.cpus c).regs ({ a with pc := .push (s.cpus c).regs.intr true } :: rest))
    else none
  | .cli =>
    match a.pc with
    | .push f acq =>
      some (s.put c ((s.cpus c).regs.cli f)
        ({ a with depth := a.depth + 1, pc := if acq then .spin else .code } :: rest))
    | _ => none
  | .take =>
    if a.pc = .spin ∧ s.lock = none then
      some ({ s with lock := some c }.put c (s.cpus c).regs ({ a with lock := true, pc := .code } :: rest))
    else none
  | .pop =>
    -- The `push_cli` of `ptable.lock` is undone by `release` only.
    if a.pc = .code ∧ a.entry ≠ .scheduler ∧ a.entry ≠ .fork ∧ a.lock.toNat < a.depth then
      (s.cpus c).regs.popCli.map fun r => s.put c r ({ a with depth := a.depth - 1 } :: rest)
    else none
  | .release =>
    if a.pc = .code ∧ a.lock = true ∧ s.lock = some c then
      (s.cpus c).regs.popCli.map fun r => { s with lock := none }.put c r ({ a with
        depth := a.depth - 1
        lock := false
        pc := if a.entry = Entry.scheduler then Pc.sti else Pc.code } :: rest)
    else none
  | .sched st =>
    match (s.cpus c).proc with
    | none => none
    | some p =>
      if a.pc = .code ∧ a.entry ≠ .fork ∧ s.lock = some c ∧ (s.cpus c).regs.ncli = 1 ∧ (s.cpus c).regs.intr = false ∧
          (st = .runnable ∨ st = .sleeping ∨ st = .zombie) then
        some { s with
          cpus := upd s.cpus c { s.cpus c with proc := none }
          procs := upd s.procs p { s.procs p with
            state := st
            acts := { a with pc := .swtch (s.cpus c).regs.intEna } :: rest } }
      else none
  | .restore =>
    match a.pc with
    | .resume e => some (s.put c { (s.cpus c).regs with intEna := e } ({ a with pc := .code } :: rest))
    | _ => none
  | .ret =>
    if a.pc = .code ∧ a.depth = 0 then
      match a.entry with
      | .scheduler => none
      | .gate f => some (s.put c { (s.cpus c).regs with intr := f } rest)
      -- The flags of user mode come from `r11`.
      | _ => some (s.put c { (s.cpus c).regs with intr := true } rest)
    else none
  | .sti =>
    if a.pc = .sti then some (s.put c { (s.cpus c).regs with intr := true } ({ a with pc := .code } :: rest)) else none
  | .swtch p =>
    if a.entry = .scheduler ∧ a.pc = .code ∧ a.lock = true ∧ (s.procs p).state = .runnable then
      some { s with
        cpus := upd s.cpus c { s.cpus c with proc := some p }
        procs := upd s.procs p {
          state := .running
          acts := resume (s.procs p).acts
          found := if (s.procs p).acts = newborn then (s.cpus c).regs.intEna else (s.procs p).found } }
    else none
  | .mark p st =>
    if a.pc = .code ∧ a.entry ≠ .scheduler ∧ a.entry ≠ .fork ∧ a.lock = true ∧ marks (s.procs p).state st = true then
      some { s with
        procs := upd s.procs p { s.procs p with
          state := st
          acts := if (s.procs p).state = .embryo then newborn else (s.procs p).acts } }
    else none
  | .drop p =>
    -- a `fork` that fails
    if a.pc = .code ∧ (s.procs p).state = .embryo then
      some { s with procs := upd s.procs p { s.procs p with state := .unused } }
    else none

def State.step (s : State ι κ) : Action ι κ → Option (State ι κ)
  | .syscall c =>
    match s.acts c with
    | [] => some (s.put c { (s.cpus c).regs with intr := false } [⟨.syscall, 0, false, .code⟩])
    | _ => none
  | .interrupt c =>
    if (s.cpus c).regs.intr = true then
      some (s.put c { (s.cpus c).regs with intr := false } (⟨.gate true, 0, false, .code⟩ :: s.acts c))
    else none
  | .run c op =>
    match s.acts c with
    | [] => none
    | a :: rest => s.exec c a rest op

/-- Every processor enters `scheduler`, and the processes that are not `UNUSED` have not run. -/
structure Starts (s : State ι κ) : Prop where
  lock : s.lock = none
  cpu : ∀ c, (s.cpus c).regs.ncli = 0 ∧ (s.cpus c).proc = none ∧ (s.cpus c).loop = [⟨.scheduler, 0, false, .sti⟩]
  proc : ∀ p, (s.procs p).state = .unused ∨ (s.procs p).state = .runnable ∧ (s.procs p).acts = newborn

def machine (ι κ : Type) [DecidableEq ι] [DecidableEq κ] : Machine (State ι κ) (Action ι κ) := ⟨Starts, State.step⟩

end Xv6.Intr
