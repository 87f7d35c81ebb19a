import Xv6.Kernel.State
import Xv6.Lib.Machine

/-!
# The process table

`fork`, `exit`, `wait` and `kill` by any processes, with every interleaving. A step is a critical section of
`ptable.lock`, or the code of `fork` between two of them. Memory is left out: an action says whether an
allocation of `fork` succeeds. A process may also sleep on a channel of another part of the kernel.

The counter `forks` and the list `log` only record what happened.
-/

namespace Xv6.Ptable

open Xv6.Lib Xv6.Kernel

inductive Chan where
  | proc (p : ProcId)
  | other (a : Nat)
deriving DecidableEq

/-- The place of a process in `fork`, with the slot of its child, or in `wait`. -/
inductive Phase where
  | user
  /-- `alloc_proc` has marked a slot; the kernel stack is next -/
  | forkStack (child : ProcId)
  /-- at `copy_uvm` -/
  | forkCopy (child : ProcId)
  /-- at `new_p->parent = cur_p` -/
  | forkParent (child : ProcId)
  /-- at the last critical section of `fork` -/
  | forkRun (child : ProcId)
  /-- in the `sleep` of `wait` -/
  | waiting
deriving DecidableEq

structure Proc where
  state : ProcState
  pid : Nat
  parent : Option ProcId
  chan : Option Chan
  killed : Bool
  phase : Phase

inductive Event where
  | forked (parent child : Nat)
  | exited (pid : Nat)
  | waited (caller child : Nat)
  | killed (pid : Nat)
deriving DecidableEq

structure State where
  procs : ProcId → Proc
  nextPid : Nat
  initProc : ProcId
  forks : Nat
  log : List Event

namespace State

def modifyProc (s : State) (p : ProcId) (g : Proc → Proc) : State :=
  { s with procs := upd s.procs p (g (s.procs p)) }

def goto (s : State) (p : ProcId) (phase : Phase) : State := s.modifyProc p fun x => { x with phase := phase }

def record (s : State) (e : Event) : State := { s with log := s.log ++ [e] }

end State

/-! ## Sleeping -/

/-- `wakeup_pure` for one slot. -/
def Proc.wakeup (c : Chan) (x : Proc) : Proc :=
  if x.state = .sleeping ∧ x.chan = some c then { x with state := .runnable } else x

def wakeupPure (s : State) (c : Chan) : State := { s with procs := fun q => (s.procs q).wakeup c }

/-! ## The functions -/

/-- The critical section of `alloc_proc`, and the slot it takes. -/
def allocProc (s : State) : Option (ProcId × State) :=
  match (List.finRange nproc).find? fun q => (s.procs q).state = .unused with
  | none => none
  | some q => some (q, { s.modifyProc q fun x => { x with state := .embryo, pid := pidOf s.nextPid } with
      nextPid := (s.nextPid + 1) % 2 ^ 32 })

/-- `fork` up to its first `release`. -/
def forkAlloc (s : State) (p : ProcId) : State :=
  let s := { s with forks := s.forks + 1 }
  match allocProc s with
  | none => s
  | some (q, s) => s.goto p (.forkStack q)

/-- `fork` fails: the slot is given back without the lock, and keeps its pid. -/
def forkFail (s : State) (p q : ProcId) : State :=
  (s.modifyProc q fun x => { x with state := .unused }).goto p .user

/-- The last critical section of `fork`. -/
def forkRun (s : State) (p q : ProcId) : State :=
  ((s.modifyProc q fun x => { x with state := .runnable, phase := .user }).goto p .user).record
    (.forked (s.procs p).pid (s.procs q).pid)

/-- A child that has ended is taken from the table. -/
def reap (s : State) (p q : ProcId) : State :=
  ((s.modifyProc q fun x => { x with pid := 0, parent := none, killed := false, state := .unused }).goto p .user).record
    (.waited (s.procs p).pid (s.procs q).pid)

/-- One round of the loop of `wait`, up to its `return` or its `sleep`. -/
def waitScan (s : State) (p : ProcId) : State :=
  match (List.finRange nproc).find? fun q => (s.procs q).parent = some p ∧ (s.procs q).state = .zombie with
  | some q => reap s p q
  | none =>
    if (∀ q, (s.procs q).parent ≠ some p) ∨ (s.procs p).killed then s.goto p .user
    else s.modifyProc p fun x => { x with state := .sleeping, chan := some (.proc p), phase := .waiting }

/-- A child of `p` gets another parent. -/
def Proc.adopt (p first : ProcId) (x : Proc) : Proc :=
  if x.parent = some p then { x with parent := some first } else x

/-- The children of `p` get the first process as their parent, which is woken when one of them has ended. -/
def adopt (s : State) (p : ProcId) : State :=
  let s' := { s with procs := fun q => (s.procs q).adopt p s.initProc }
  if ∃ q, (s.procs q).parent = some p ∧ (s.procs q).state = .zombie then wakeupPure s' (.proc s.initProc) else s'

/-- The critical section of `exit`. -/
def exit (s : State) (p : ProcId) : State :=
  let s := match (s.procs p).parent with
    | none => s
    | some q => wakeupPure s (.proc q)
  ((adopt s p).modifyProc p fun x => { x with state := .zombie }).record (.exited (s.procs p).pid)

/-- `kill` and its result. -/
def kill (s : State) (pid : Nat) : Int × State :=
  match (List.finRange nproc).find? fun q => (s.procs q).pid = pid with
  | none => (-1, s)
  | some q => (0, s.modifyProc q fun x =>
      { x with killed := true, state := if x.state = .sleeping then .runnable else x.state })

/-- The scheduler runs a process; one that slept clears its channel, and `wait` goes on with its loop. -/
def schedule (s : State) (p : ProcId) : State :=
  let s := s.modifyProc p fun x => { x with state := .running, chan := none }
  if (s.procs p).phase = .waiting then waitScan s p else s

/-! ## Runs -/

inductive Action where
  | fork (p : ProcId)
  | forkStack (p : ProcId) (ok : Bool)
  | forkCopy (p : ProcId) (ok : Bool)
  | forkParent (p : ProcId)
  | forkRun (p : ProcId)
  | wait (p : ProcId)
  | exit (p : ProcId)
  | kill (p : ProcId) (pid : Nat)
  | schedule (p : ProcId)
  | yield (p : ProcId)
  | sleep (p : ProcId) (a : Nat)
  | wakeup (a : Nat)

/-- A process that runs and is not in `fork` or `wait`. -/
def State.Idle (s : State) (p : ProcId) : Prop := (s.procs p).state = .running ∧ (s.procs p).phase = .user

instance (s : State) (p : ProcId) : Decidable (s.Idle p) := inferInstanceAs (Decidable (_ ∧ _))

/-- The first process does not exit. -/
def step (s : State) : Action → Option State
  | .fork p => if s.Idle p then some (forkAlloc s p) else none
  | .forkStack p ok =>
    match (s.procs p).state, (s.procs p).phase with
    | .running, .forkStack q => some (if ok then s.goto p (.forkCopy q) else forkFail s p q)
    | _, _ => none
  | .forkCopy p ok =>
    match (s.procs p).state, (s.procs p).phase with
    | .running, .forkCopy q => some (if ok then s.goto p (.forkParent q) else forkFail s p q)
    | _, _ => none
  | .forkParent p =>
    match (s.procs p).state, (s.procs p).phase with
    | .running, .forkParent q => some ((s.modifyProc q fun x => { x with parent := some p }).goto p (.forkRun q))
    | _, _ => none
  | .forkRun p =>
    match (s.procs p).state, (s.procs p).phase with
    | .running, .forkRun q => some (forkRun s p q)
    | _, _ => none
  | .wait p => if s.Idle p then some (waitScan s p) else none
  | .exit p => if s.Idle p ∧ p ≠ s.initProc then some (exit s p) else none
  | .kill p pid =>
    if s.Idle p then
      match kill s pid with
      | (r, s') => some (if r = 0 then s'.record (.killed pid) else s')
    else none
  | .schedule p => if (s.procs p).state = .runnable then some (schedule s p) else none
  | .yield p =>
    if (s.procs p).state = .running then some (s.modifyProc p fun x => { x with state := .runnable }) else none
  | .sleep p a =>
    if s.Idle p then some (s.modifyProc p fun x => { x with state := .sleeping, chan := some (.other a) }) else none
  | .wakeup a => some (wakeupPure s (.other a))

/-- The table after `user_init`: the first process has the first slot. -/
def initial : State where
  procs := upd (fun _ => ⟨.unused, 0, none, none, false, .user⟩) ⟨0, nproc_pos⟩
    ⟨.runnable, pidOf 1, none, none, false, .user⟩
  nextPid := 2
  initProc := ⟨0, nproc_pos⟩
  forks := 0
  log := []

def machine : Machine State Action := ⟨fun s => s = initial, step⟩

end Xv6.Ptable
