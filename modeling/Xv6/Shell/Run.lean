import Xv6.Lib.Machine
import Xv6.Shell.Parse

/-!
# Running a command

`run_cmd` of `user/nsh.c` as code for a set of processes. A process that reaches `fork` adds another one, with a copy of
its descriptors and of its local variables, and all of them take their steps in any order. `fork`, `pipe` and `open`
succeed, and a new descriptor is the lowest one that is free. Nothing is known about the programs that are executed:
they close and copy descriptors and fork as they like.

`node`, `side`, `inside` and `base` only record where the processes come from.
-/

namespace Xv6.Shell

open Xv6.Lib

@[simp] def nofile : Nat := 16

abbrev Word : Type := List UInt8

/-- What a descriptor refers to. -/
inductive File where
  /-- a descriptor of the shell -/
  | given (fd : Nat)
  | opened (name : Word) (mode : Nat)
  | readEnd (pipe : Nat)
  | writeEnd (pipe : Nat)
deriving DecidableEq, Repr

/-- `ofile` -/
abbrev Fds : Type := Nat → Option File

def closeFd (fd : Nat) (F : Fds) : Fds := upd F fd none

/-- `fd_alloc` -/
def fdAlloc (F : Fds) : Option Nat := (List.range nofile).find? fun i => F i = none

/-- The descriptors after `f` got a descriptor. -/
def install (f : File) (F : Fds) : Fds :=
  match fdAlloc F with
  | some fd => upd F fd (some f)
  | none => F

/-- The descriptors behind a redirection node: `close(rcmd->fd); open(rcmd->fname, rcmd->mode);` -/
def redirect (r : Redir Word) (F : Fds) : Fds := install (.opened r.file r.mode) (closeFd r.fd F)

/-- `run_cmd` on up to `n` redirection nodes: the descriptors, and the command that is left to run. -/
def runRedirs : Nat → Cmd Word → Fds → Fds × Cmd Word
  | n + 1, .redir r cmd, F => runRedirs n cmd (redirect r F)
  | _, cmd, F => (F, cmd)

/-! ## Code -/

/-- A descriptor in the code: a number, or one of the local variable `p`. -/
inductive Fd where
  | num (n : Nat)
  | p0
  | p1
deriving DecidableEq

/-- The side of a pipe for which a process is forked. -/
inductive Side where
  | left
  | right
  | none
deriving DecidableEq

inductive Stmt where
  | close (e : Fd)
  | open (r : Redir Word)
  | pipe
  | dup (e : Fd)
  /-- `if(fork1() == 0) { child }` -/
  | fork (side : Side) (child : List Stmt)
  | wait
  | run (cmd : Cmd Word)
  | exec (argv : List Word)
  | exit

/-- The cases of `run_cmd`; a branch that ends in `run_cmd` does not come back. -/
def body : Cmd Word → List Stmt
  | .exec [] => [.exit]
  | .exec (a :: argv) => [.exec (a :: argv), .exit]
  | .redir r cmd => [.close (.num r.fd), .open r, .run cmd]
  | .list left right => [.fork .none [.run left], .wait, .run right]
  | .pipe left right => [.pipe,
      .fork .left [.close (.num 1), .dup .p1, .close .p0, .close .p1, .run left],
      .fork .right [.close (.num 0), .dup .p0, .close .p0, .close .p1, .run right],
      .close .p0, .close .p1, .wait, .wait, .exit]
  | .back cmd => [.fork .none [.run cmd], .exit]

/-! ## Processes -/

inductive Status where
  | shell
  /-- after a successful `exec` -/
  | program
  | exited
  | reaped
deriving DecidableEq

structure Proc where
  status : Status
  code : List Stmt
  fds : Fds
  p : Nat × Nat
  parent : Option Nat
  /-- the pipe of `p` -/
  node : Option Nat
  side : Side
  /-- the pipes whose left command the process belongs to -/
  inside : List Nat

structure State where
  procs : List Proc
  /-- the number of pipes -/
  pipes : Nat
  /-- the descriptors of the node before it made its pipe -/
  base : Nat → Fds

def Proc.fd (P : Proc) : Fd → Nat
  | .num n => n
  | .p0 => P.p.1
  | .p1 => P.p.2

def State.put (s : State) (i : Nat) (P : Proc) : State := { s with procs := s.procs.set i P }

/-- `dup` -/
def Proc.dup (P : Proc) (fd : Nat) : Proc :=
  match P.fds fd with
  | some f => { P with fds := install f P.fds }
  | none => P

/-- The copy of a process. -/
def Proc.child (P : Proc) (i : Nat) (side : Side) (code : List Stmt) : Proc :=
  { P with
    code := code
    parent := some i
    side := side
    inside := if side = .left then P.node.toList ++ P.inside else P.inside }

def Proc.exit (P : Proc) : Proc :=
  { P with
    status := .exited
    code := []
    fds := fun _ => none }

/-- `pipe(p)` -/
def State.pipe (s : State) (i : Nat) (P : Proc) : State :=
  let F := install (.readEnd s.pipes) P.fds
  match fdAlloc P.fds, fdAlloc F with
  | some fd0, some fd1 =>
    { s.put i { P with
        fds := install (.writeEnd s.pipes) F
        p := (fd0, fd1)
        node := some s.pipes } with
      pipes := s.pipes + 1
      base := upd s.base s.pipes P.fds }
  | _, _ => s.put i P.exit

/-- `wait()`: it takes an exited child, returns if there is none left, and waits otherwise. -/
def State.wait (s : State) (i : Nat) (P : Proc) : Option State :=
  match (List.range s.procs.length).find? fun j => s.procs[j]?.any fun Q => Q.parent = some i ∧ Q.status = .exited with
  | some j => some { s.put i P with procs := (s.procs.set i P).modify j fun Q => { Q with status := .reaped } }
  | none => if s.procs.any fun Q => Q.parent = some i ∧ Q.status ≠ .reaped then none else some (s.put i P)

/-- A statement of the process `i`, whose code is already that behind the statement. -/
def State.exec (s : State) (i : Nat) (P : Proc) : Stmt → Option State
  | .close e => some (s.put i { P with fds := closeFd (P.fd e) P.fds })
  | .open r => some (s.put i { P with fds := install (.opened r.file r.mode) P.fds })
  | .pipe => some (s.pipe i P)
  | .dup e => some (s.put i (P.dup (P.fd e)))
  | .fork side child => some { s.put i P with procs := s.procs.set i P ++ [P.child i side child] }
  | .wait => s.wait i P
  | .run cmd => some (s.put i { P with
      code := body cmd
      node := none
      side := .none })
  | .exec _ => some (s.put i { P with
      status := .program
      code := [] })
  | .exit => some (s.put i P.exit)

inductive Action where
  /-- the next statement of a process of the shell -/
  | run (i : Nat)
  /-- calls of a program -/
  | close (i fd : Nat)
  | dup (i fd : Nat)
  | fork (i : Nat)
  | exit (i : Nat)

/-- A program makes a call. -/
def State.program (s : State) (i : Nat) (f : Proc → State) : Option State :=
  match s.procs[i]? with
  | some P => if P.status = .program then some (f P) else none
  | none => none

def State.step (s : State) : Action → Option State
  | .run i =>
    match s.procs[i]? with
    | some P =>
      match P.status, P.code with
      | .shell, c :: code => s.exec i { P with code := code } c
      | _, _ => none
    | none => none
  | .close i fd => s.program i fun P => s.put i { P with fds := closeFd fd P.fds }
  | .dup i fd => s.program i fun P => s.put i (P.dup fd)
  | .fork i => s.program i fun P => { s with procs := s.procs ++ [P.child i .none []] }
  | .exit i => s.program i fun P => s.put i P.exit

/-! ## Runs -/

/-- The descriptors 0, 1 and 2 are open, and no others. -/
def Standard (F : Fds) : Prop := ∀ fd, F fd ≠ none ↔ fd < 3

/-- The redirections are of the descriptors 0, 1 and 2. -/
def Cmd.Standard : Cmd Word → Prop
  | .exec _ => True
  | .redir r cmd => r.fd < 3 ∧ cmd.Standard
  | .pipe left right => left.Standard ∧ right.Standard
  | .list left right => left.Standard ∧ right.Standard
  | .back cmd => cmd.Standard

/-- A process is about to run a command, with the descriptors that the shell gave it. -/
structure Starts (s : State) : Prop where
  proc : ∃ cmd : Cmd Word, ∃ F : Fds, cmd.Standard ∧ Standard F ∧ (∀ fd f, F fd = some f → ∃ n, f = .given n) ∧
    s.procs = [⟨.shell, [.run cmd], F, (0, 0), none, none, .none, []⟩]
  pipes : s.pipes = 0

def machine : Machine State Action := ⟨Starts, State.step⟩

end Xv6.Shell
