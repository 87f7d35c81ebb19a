import Xv6.Fs.Namespace
import Xv6.Vm.PageTable

/-!
# Kernel state

The file table, the pipes and the process table, together with the file system and the memory. A pipe lies in a page
frame of its own and is kept apart from the bytes of that frame, and so are the registers of a process, which are all
that is kept of its kernel stack. One process runs at a time and a system call runs to its end, so spin locks, the
states `SLEEPING` and `RUNNING` and the channels of sleeping processes do not show between calls.
-/

namespace Xv6.Kernel

open Xv6.Lib Xv6.Fs Xv6.Vm

@[simp] def nfile : Nat := 100
@[simp] def nofile : Nat := 16
@[simp] def nproc : Nat := 64
@[simp] def maxarg : Nat := 32
@[simp] def pipesize : Nat := 512

/-- A pointer to an entry of the file table. -/
abbrev FileId : Type := Fin nfile

theorem nproc_pos : 0 < nproc := by decide

/-- A pointer to an entry of the process table. -/
abbrev ProcId : Type := Fin nproc

inductive FdType where
  | none
  | pipe
  | inode
deriving DecidableEq

structure File where
  type : FdType
  ref : Nat
  readable : Bool
  writable : Bool
  pipe : Nat
  ip : Slot
  off : Nat

structure Pipe where
  data : Nat → UInt8
  nread : Nat
  nwrite : Nat
  readOpen : Bool
  writeOpen : Bool

inductive ProcState where
  | unused
  | embryo
  | sleeping
  | runnable
  | running
  | zombie
deriving DecidableEq

/-- `struct regi_pile`: the registers that a system call saves. -/
structure RegiPile where
  r15 : Nat
  r14 : Nat
  r13 : Nat
  r12 : Nat
  r11 : Nat
  r10 : Nat
  r9 : Nat
  r8 : Nat
  rbp : Nat
  rdi : Nat
  rsi : Nat
  rdx : Nat
  rcx : Nat
  rbx : Nat
  rax : Nat
  rsp : Nat
deriving DecidableEq

def RegiPile.zero : RegiPile := ⟨0, 0, 0, 0, 0, 0, 0, 0, 0, 0, 0, 0, 0, 0, 0, 0⟩

/-- `FL_IF` -/
@[simp] def flIf : Nat := 2 ^ 9

/-- `next_pid` is an `int` and a pid has 64 bits, so that it is sign-extended. -/
def pidOf (n : Nat) : Nat := if n < 2 ^ 31 then n else n + (2 ^ 64 - 2 ^ 32)

structure Proc where
  sz : Nat
  pml4 : Option Nat
  kstack : Option Nat
  state : ProcState
  pid : Nat
  parent : Option ProcId
  rp : RegiPile
  killed : Bool
  ofile : Fin nofile → Option FileId
  cwd : Option Slot
  name : List UInt8

structure System where
  fs : Fs.State
  mem : Mem
  files : FileId → File
  pipes : Nat → Pipe
  procs : ProcId → Proc
  nextPid : Nat
  initProc : Option ProcId

abbrev KernelM : Type → Type := Prog System

/-- A file system function in the kernel. -/
def onFs {α : Type} (x : FsM α) : KernelM α := x.on System.fs fun t k => { k with fs := t }

/-- A memory function in the kernel. -/
def onMem {α : Type} (x : MemM α) : KernelM α := x.on System.mem fun t k => { k with mem := t }

def modifyFile (f : FileId) (g : File → File) : KernelM Unit :=
  modify fun k => { k with files := upd k.files f (g (k.files f)) }

def modifyProc (p : ProcId) (g : Proc → Proc) : KernelM Unit :=
  modify fun k => { k with procs := upd k.procs p (g (k.procs p)) }

def modifyPipe (f : Nat) (g : Pipe → Pipe) : KernelM Unit :=
  modify fun k => { k with pipes := upd k.pipes f (g (k.pipes f)) }

end Xv6.Kernel
