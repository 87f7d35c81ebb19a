import Xv6.Kernel.State
import Xv6.Lib.Machine

/-!
# Sleep locks

`acquire_sleep` and `release_sleep` of `sleeplock.c` on any number of locks, by any number of processes at
once, together with `sleep`, `wakeup` and `kill`. A process goes from one place of its code to the next by
one step: a test or an assignment under the inner spin lock, the taking or giving back of a spin lock, or
a whole critical section of `ptable.lock`.
-/

namespace Xv6.Sleeplock

open Xv6.Lib Xv6.Kernel

/-- The place of a process in its code. -/
inductive Pc (κ : Type) where
  | idle
  /-- at the first `acquire(&lk->lk)` of `acquire_sleep` -/
  | enter (k : κ)
  /-- at the `while` of `acquire_sleep` -/
  | test (k : κ)
  /-- at the call of `sleep` -/
  | sleep (k : κ)
  /-- in `sleep`, with `ptable.lock` and without `lk->lk` -/
  | fall (k : κ)
  /-- in the `sched` of `sleep` -/
  | asleep (k : κ)
  /-- at the last `acquire` of `sleep` -/
  | reacquire (k : κ)
  /-- at the `release` of `acquire_sleep`, after `lk->locked = 1` -/
  | got (k : κ)
  /-- at the `acquire` of `release_sleep` -/
  | release (k : κ)
  /-- before `lk->locked = 0` -/
  | clear (k : κ)
  /-- at the `wakeup` of `release_sleep` -/
  | wake (k : κ)
  /-- at the `release` of `release_sleep` -/
  | leave (k : κ)
deriving DecidableEq

structure Proc (κ : Type) where
  state : ProcState
  chan : Option κ
  pc : Pc κ
  /-- The locks for which `acquire_sleep` has returned and `release_sleep` was not called yet. -/
  held : List κ

structure State (ι κ : Type) where
  /-- The owners of the inner spin locks. -/
  spin : κ → Option ι
  locked : κ → Bool
  ptable : Option ι
  procs : ι → Proc κ

inductive Action (ι κ : Type) where
  | acquireSleep (p : ι) (k : κ)
  | releaseSleep (p : ι) (k : κ)
  | run (p : ι)
  | kill (p : ι)
  | schedule (p : ι)
  | yield (p : ι)

variable {ι κ : Type} [DecidableEq ι] [DecidableEq κ]

/-- The lock whose inner spin lock a process has. -/
def Pc.inner : Pc κ → Option κ
  | .test k | .sleep k | .got k | .clear k | .wake k | .leave k => some k
  | _ => none

def State.goto (s : State ι κ) (p : ι) (pc : Pc κ) : State ι κ :=
  { s with procs := upd s.procs p { s.procs p with pc := pc } }

/-- `wakeup_pure` -/
def Proc.wakeup (k : κ) (x : Proc κ) : Proc κ :=
  if x.state = .sleeping ∧ x.chan = some k then { x with state := .runnable } else x

/-- `acquire(&lk->lk)`, where `p` goes on at `pc` -/
def State.spinAcquire (s : State ι κ) (p : ι) (k : κ) (pc : Pc κ) : Option (State ι κ) :=
  if s.spin k = none then some ({ s with spin := upd s.spin k (some p) }.goto p pc) else none

/-- The next step of a process that runs. -/
def State.run (s : State ι κ) (p : ι) : Option (State ι κ) :=
  match (s.procs p).pc with
  | .idle => none
  | .enter k => s.spinAcquire p k (.test k)
  | .test k =>
    if s.locked k then some (s.goto p (.sleep k))
    else some ({ s with locked := upd s.locked k true }.goto p (.got k))
  | .sleep k =>
    -- `acquire(&ptable.lock); release(lk);`
    if s.ptable = none then some ({ s with ptable := some p, spin := upd s.spin k none }.goto p (.fall k)) else none
  | .fall k =>
    -- `p->chan = chan; p->state = SLEEPING; sched();`
    some { s with
      ptable := none
      procs := upd s.procs p { s.procs p with state := .sleeping, chan := some k, pc := .asleep k } }
  | .asleep _ => none
  | .reacquire k => s.spinAcquire p k (.test k)
  | .got k =>
    some { s with
      spin := upd s.spin k none
      procs := upd s.procs p { s.procs p with pc := .idle, held := k :: (s.procs p).held } }
  | .release k => s.spinAcquire p k (.clear k)
  | .clear k => some ({ s with locked := upd s.locked k false }.goto p (.wake k))
  | .wake k =>
    if s.ptable = none then some ({ s with procs := fun q => (s.procs q).wakeup k }.goto p (.leave k)) else none
  | .leave k => some ({ s with spin := upd s.spin k none }.goto p .idle)

/-- The scheduler runs a process; one that was asleep leaves `sched` and clears its channel. -/
def Proc.scheduled (x : Proc κ) : Proc κ :=
  match x.pc with
  | .asleep k => { x with state := .running, chan := none, pc := .reacquire k }
  | _ => { x with state := .running }

/-- One step. A lock is released only by a process that holds it. -/
def State.step (s : State ι κ) : Action ι κ → Option (State ι κ)
  | .acquireSleep p k =>
    if (s.procs p).state = .running ∧ (s.procs p).pc = .idle then some (s.goto p (.enter k)) else none
  | .releaseSleep p k =>
    if (s.procs p).state = .running ∧ (s.procs p).pc = .idle ∧ k ∈ (s.procs p).held then
      some { s with procs := upd s.procs p { s.procs p with pc := .release k, held := (s.procs p).held.erase k } }
    else none
  | .run p => if (s.procs p).state = .running then s.run p else none
  | .kill p =>
    if s.ptable = none then
      let x := s.procs p
      some { s with procs := upd s.procs p { x with state := if x.state = .sleeping then .runnable else x.state } }
    else none
  | .schedule p =>
    if s.ptable = none ∧ (s.procs p).state = .runnable then
      some { s with procs := upd s.procs p (s.procs p).scheduled }
    else none
  | .yield p =>
    if s.ptable = none ∧ (s.procs p).state = .running ∧ (s.procs p).pc.inner = none then
      some { s with procs := upd s.procs p { s.procs p with state := .runnable } }
    else none

/-- No lock is held, and no process is in a call. -/
structure Starts (s : State ι κ) : Prop where
  spin : ∀ k, s.spin k = none
  locked : ∀ k, s.locked k = false
  ptable : s.ptable = none
  idle : ∀ p, (s.procs p).pc = .idle ∧ (s.procs p).state ≠ .sleeping ∧ (s.procs p).held = []

def machine (ι κ : Type) [DecidableEq ι] [DecidableEq κ] : Machine (State ι κ) (Action ι κ) := ⟨Starts, State.step⟩

end Xv6.Sleeplock
