import Xv6.Kernel.File

/-!
# Processes

`proc.c`: creating, ending and reaping processes, and growing their memory. The registers are those that the kernel
stores; that a system call saves those of the user first is left out, as its arguments are given to it.
-/

namespace Xv6.Kernel

open Xv6.Lib Xv6.Fs Xv6.Vm

/-- A null pointer is followed. -/
def pageFault {α : Type} : KernelM α := throw (.panic "page fault")

/-- The working directory of a process. -/
def cwdOf (p : ProcId) : KernelM Slot := do
  let k ← get
  match (k.procs p).cwd with
  | none => pageFault
  | some ip => pure ip

/-- A 64-bit number that may have wrapped. -/
def wrap (x : Int) : Nat := (x % 2 ^ 64).toNat

/-- A 64-bit number as `int64_t`. -/
def int64 (x : Nat) : Int := if x < 2 ^ 63 then x else x - 2 ^ 64

/-- `safe_strcpy` into an array of `n` bytes: the string that is there then. -/
def safeStrcpy (t : List UInt8) (n : Nat) : List UInt8 := (cstr t).take (n - 1)

/-- `sizeof(p->name)` -/
@[simp] def nameSize : Nat := 32

def allocProc : KernelM (Option ProcId) := do
  let k ← get
  match (List.finRange nproc).find? fun p => (k.procs p).state = .unused with
  | none => pure none
  | some p => do
    modifyProc p fun x => { x with state := .embryo, pid := pidOf k.nextPid }
    modify fun k => { k with nextPid := (k.nextPid + 1) % 2 ^ 32 }
    match ← onMem kalloc with
    | none => do
      modifyProc p fun x => { x with state := .unused }
      pure none
    | some f => do
      modifyProc p fun x => { x with kstack := some f }
      pure (some p)

def userInit (initcode : List UInt8) : KernelM Unit := do
  match ← allocProc with
  | none => pageFault
  | some p => do
    modify fun k => { k with initProc := some p }
    match ← onMem setupUvm with
    | none => throw (.panic "user_init: setup_uvm failed")
    | some pml4 => do
      modifyProc p fun x => { x with pml4 := some pml4 }
      onMem (initUvm pml4 initcode)
      modifyProc p fun x => { x with sz := pgsize4kb }
      modifyProc p fun x => { x with rp := { RegiPile.zero with r11 := flIf, rcx := 0, rsp := pgsize4kb } }
      -- "initcode"
      modifyProc p fun x => { x with name := safeStrcpy [105, 110, 105, 116, 99, 111, 100, 101] nameSize }
      -- an absolute path does not depend on the working directory, which is still null
      let cwd ← onFs (namei ⟨0, ninode_pos⟩ [slash])
      modifyProc p fun x => { x with cwd := cwd }
      modifyProc p fun x => { x with state := .runnable }

/-- The open files and the working directory of the parent are those of the child, too. -/
def forkFiles (cur new : ProcId) : KernelM Unit := do
  each (List.finRange nofile) fun i => do
    let k ← get
    match (k.procs cur).ofile i with
    | none => pure ()
    | some f => do
      fileDup f
      modifyProc new fun x => { x with ofile := upd x.ofile i (some f) }
  let ip ← onFs (idup (← cwdOf cur))
  modifyProc new fun x => { x with cwd := some ip }

/-- The copy of the address space of a process. -/
def forkMem (cur : ProcId) : KernelM (Option Nat) := do
  let k ← get
  match (k.procs cur).pml4 with
  | none => pageFault
  | some pml4 => onMem (copyUvm pml4 (k.procs cur).sz)

/-- `kfree` of a kernel stack. -/
def kfreeStack (f : Option Nat) : KernelM Unit :=
  match f with
  | none => throw (.panic "kfree frees wrong addr")
  | some f => onMem (kfree f)

def fork (cur : ProcId) : KernelM Int := do
  match ← allocProc with
  | none => pure (-1)
  | some new => do
    match ← forkMem cur with
    | none => do
      let k ← get
      kfreeStack (k.procs new).kstack
      modifyProc new fun x => { x with pml4 := none, kstack := none, state := .unused }
      pure (-1)
    | some pml4 => do
      let k ← get
      modifyProc new fun x =>
        { x with
          pml4 := some pml4
          sz := (k.procs cur).sz
          parent := some cur
          rp := { (k.procs cur).rp with rax := 0 } }
      forkFiles cur new
      modifyProc new fun x => { x with name := safeStrcpy (k.procs cur).name nameSize }
      modifyProc new fun x => { x with state := .runnable }
      let k ← get
      pure (int64 (k.procs new).pid)

/-- A child that has ended is taken from the process table. -/
def reapProc (p : ProcId) : KernelM Int := do
  let k ← get
  let pid := (k.procs p).pid
  kfreeStack (k.procs p).kstack
  modifyProc p fun x => { x with kstack := none }
  onMem (freeVm (k.procs p).pml4 (k.procs p).sz)
  modifyProc p fun x => { x with pid := 0, parent := none, name := [], killed := false, state := .unused }
  pure (int64 pid)

def wait (cur : ProcId) : KernelM Int := do
  let k ← get
  match (List.finRange nproc).find? fun p => (k.procs p).parent = some cur ∧ (k.procs p).state = .zombie with
  | some p => reapProc p
  | none =>
    if (∀ p, (k.procs p).parent ≠ some cur) ∨ (k.procs cur).killed then pure (-1)
    else throw .sleep

def exit (cur : ProcId) : KernelM Unit := do
  let k ← get
  panicIf (k.initProc = some cur) "exit: init??"
  each (List.finRange nofile) fun fd => do
    let k ← get
    match (k.procs cur).ofile fd with
    | none => pure ()
    | some f => do
      fileClose f
      modifyProc cur fun x => { x with ofile := upd x.ofile fd none }
  let k ← get
  match (k.procs cur).cwd with
  | none => pure ()
  | some ip => do
    onFs (iput ip)
    modifyProc cur fun x => { x with cwd := none }
  modify fun k => { k with procs := fun p =>
    if (k.procs p).parent = some cur then { k.procs p with parent := k.initProc } else k.procs p }
  modifyProc cur fun x => { x with state := .zombie }

def switchUvm (p : ProcId) : KernelM Unit := do
  let k ← get
  panicIf ((k.procs p).kstack = none) "switch+uvm: no kstack"
  panicIf ((k.procs p).pml4 = none) "switch_uvm: no pml4"

/-- The new size of a process, or 0. -/
def resize (pml4 sz : Nat) (n : Int) : MemM Nat :=
  if 0 < n then allocUvm pml4 sz (wrap (sz + n))
  else if n < 0 then deallocUvm pml4 sz (wrap (sz + n))
  else pure sz

def growProc (cur : ProcId) (n : Int) : KernelM Int := do
  let k ← get
  match (k.procs cur).pml4 with
  | none => pageFault
  | some pml4 => do
    let sz ← onMem (resize pml4 (k.procs cur).sz n)
    if sz = 0 ∧ n ≠ 0 then pure (-1)
    else do
      modifyProc cur fun x => { x with sz := sz }
      switchUvm cur
      pure 0

def kill (pid : Nat) : KernelM Int := do
  let k ← get
  match (List.finRange nproc).find? fun p => (k.procs p).pid = pid with
  | none => pure (-1)
  | some p => do
    modifyProc p fun x =>
      { x with killed := true, state := if x.state = .sleeping then .runnable else x.state }
    pure 0

end Xv6.Kernel
