import Mathlib.Logic.Relation
import Xv6.Kernel.Exec
import Xv6.Fs.Mkfs

/-!
# System calls

`sysfile.c` and `sysproc.c`, and the runs of the system: every process that is not waiting may make the
next call, and may store into its memory between calls. A call that is given the address of a buffer stores into the
buffer. A run ends where the kernel stores through an address above the user's half: the kernel's own memory is not
made of bytes here.
-/

namespace Xv6.Kernel

open Xv6.Lib Xv6.Fs Xv6.Vm

/-! ## Descriptors -/

/-- `CHECKFD`: the file of a descriptor of the caller. -/
def checkFd (k : System) (p : ProcId) (fd : Int) : Option (Fin nofile × FileId) :=
  if h : 0 ≤ fd ∧ fd.toNat < nofile then
    match (k.procs p).ofile ⟨fd.toNat, h.2⟩ with
    | none => none
    | some f => some (⟨fd.toNat, h.2⟩, f)
  else none

def fdAlloc (p : ProcId) (f : FileId) : KernelM (Option (Fin nofile)) := do
  let k ← get
  match (List.finRange nofile).find? fun fd => (k.procs p).ofile fd = none with
  | none => pure none
  | some fd => do
    modifyProc p fun x => { x with ofile := upd x.ofile fd (some f) }
    pure (some fd)

def sysDup (p : ProcId) (oldFd : Int) : KernelM Int := do
  let k ← get
  match checkFd k p oldFd with
  | none => pure (-1)
  | some (_, f) => do
    match ← fdAlloc p f with
    | none => pure (-1)
    | some fd => do
      fileDup f
      pure fd.val

/-- The kernel stores bytes at an address that the caller gave. Nothing checks the address. -/
def storeUser (p : ProcId) (dst : Nat) (data : List UInt8) : KernelM Unit := do
  let k ← get
  match (k.procs p).pml4 with
  | none => pageFault
  | some pml4 => onMem (storeBytes pml4 dst data)

/-- The same for an address of the direct mapping. The bytes are in one frame. -/
def storeDirect (dst : Nat) (data : List UInt8) : KernelM Unit := onMem do
  let m ← get
  let f := (dst - pageOffset) / pgsize4kb
  setPage f ((m.pages f).put ((dst - pageOffset) % pgsize4kb) data)

def sysRead (p : ProcId) (fd : Int) (dst n : Nat) : KernelM Int := do
  let k ← get
  match checkFd k p fd with
  | none => pure (-1)
  | some (_, f) => do
    let (data, r) ← fileRead f (k.procs p).killed n
    storeUser p dst data
    pure r

def sysWrite (p : ProcId) (fd : Int) (data : List UInt8) : KernelM Int := do
  let k ← get
  match checkFd k p fd with
  | none => pure (-1)
  | some (_, f) => fileWrite f (k.procs p).killed data

def sysClose (p : ProcId) (fd : Int) : KernelM Int := do
  let k ← get
  match checkFd k p fd with
  | none => pure (-1)
  | some (fd, f) => do
    modifyProc p fun x => { x with ofile := upd x.ofile fd none }
    fileClose f
    pure 0

def sysFstat (p : ProcId) (fd : Int) (st : Nat) : KernelM Int := do
  let k ← get
  match checkFd k p fd with
  | none => pure (-1)
  | some (_, f) =>
    if st = 0 then pure (-1)
    else do
      match ← fileStat f with
      | none => pure (-1)
      | some s => do
        each s.fields fun (off, data) => storeUser p (st + off) data
        pure 0

/-! ## Names -/

@[simp] def oWronly : Nat := 0x001
@[simp] def oRdwr : Nat := 0x002
@[simp] def oCreate : Nat := 0x200

/-- The locked inode that `sys_open` opens. -/
def openInode (cwd : Slot) (path : List UInt8) (omode : Nat) : FsM (Option Slot) := do
  if omode &&& oCreate ≠ 0 then create cwd path tFile 0 0
  else do
    match ← namei cwd path with
    | none => pure none
    | some ip => do
      ilock ip
      let s ← get
      if (s.inodes ip).type = tDir ∧ omode ≠ 0 then do
        iunlock ip
        iput ip
        pure none
      else pure (some ip)

/-- `iunlock(ip); iput(ip); return -1;` -/
def openBad (ip : Slot) : KernelM Int := do
  onFs (iunlock ip)
  onFs (iput ip)
  pure (-1)

def sysOpen (p : ProcId) (path : List UInt8) (omode : Nat) : KernelM Int := do
  match ← onFs (openInode (← cwdOf p) path omode) with
  | none => pure (-1)
  | some ip => do
    match ← fileAlloc with
    | none => openBad ip
    | some f => do
      match ← fdAlloc p f with
      | none => do
        fileClose f
        openBad ip
      | some fd => do
        onFs (iunlock ip)
        modifyFile f fun x => { x with
          type := .inode, ip := ip, off := 0, readable := omode &&& oWronly = 0,
          writable := omode &&& oWronly ≠ 0 ∨ omode &&& oRdwr ≠ 0 }
        pure fd.val

def sysMkdir (p : ProcId) (path : List UInt8) : KernelM Int := do
  onFs (mknod (← cwdOf p) path tDir 0 0)

/-- The device numbers are cut to `short`. -/
def sysMknod (p : ProcId) (path : List UInt8) (major minor : Nat) : KernelM Int := do
  onFs (mknod (← cwdOf p) path tDev (toShort major) (toShort minor))

def sysChdir (p : ProcId) (path : List UInt8) : KernelM Int := do
  match ← onFs (chdir (← cwdOf p) path) with
  | none => pure (-1)
  | some ip => do
    modifyProc p fun x => { x with cwd := some ip }
    pure 0

def sysUnlink (p : ProcId) (path : List UInt8) : KernelM Int := do
  onFs (unlink (← cwdOf p) path)

/-- `fd` is the address of the two descriptors, which go there by `store`. -/
def sysPipeBy (store : Nat → List UInt8 → KernelM Unit) (p : ProcId) (fd : Nat) : KernelM Int := do
  match ← pipeAlloc with
  | none => pure (-1)
  | some (rf, wf) => do
    match ← fdAlloc p rf with
    | none => do
      fileClose rf
      fileClose wf
      pure (-1)
    | some fd0 => do
      match ← fdAlloc p wf with
      | none => do
        modifyProc p fun x => { x with ofile := upd x.ofile fd0 none }
        fileClose rf
        fileClose wf
        pure (-1)
      | some fd1 => do
        store fd (leBytes 4 fd0.val)
        store (fd + 4) (leBytes 4 fd1.val)
        pure 0

def sysPipe (p : ProcId) (fd : Nat) : KernelM Int := sysPipeBy (storeUser p) p fd

def sysSbrk (p : ProcId) (n : Int) : KernelM Int := do
  let k ← get
  if (← growProc p n) < 0 then pure (-1)
  else pure (k.procs p).sz

/-! ## Runs -/

/-- The system calls with their arguments. -/
inductive Call where
  | open (path : List UInt8) (omode : Nat)
  | read (fd : Int) (dst n : UInt64)
  | write (fd : Int) (data : { l : List UInt8 // l.length < 2 ^ 64 })
  | close (fd : Int)
  | dup (fd : Int)
  | fstat (fd : Int) (st : UInt64)
  | mkdir (path : List UInt8)
  | mknod (path : List UInt8) (major minor : UInt64)
  | chdir (path : List UInt8)
  | unlink (path : List UInt8)
  | pipe (fd : UInt64)
  | fork
  | exec (path : List UInt8) (argv : List (List UInt8))
  | exit
  | wait
  | sbrk (n : Int)
  | kill (pid : Nat)
  | getpid

def syscall (p : ProcId) : Call → KernelM Int
  | .open path omode => sysOpen p path omode
  | .read fd dst n => sysRead p fd dst.toNat n.toNat
  | .write fd data => sysWrite p fd data.val
  | .close fd => sysClose p fd
  | .dup fd => sysDup p fd
  | .fstat fd st => sysFstat p fd st.toNat
  | .mkdir path => sysMkdir p path
  | .mknod path major minor => sysMknod p path major.toNat minor.toNat
  | .chdir path => sysChdir p path
  | .unlink path => sysUnlink p path
  | .pipe fd => sysPipe p fd.toNat
  | .fork => fork p
  | .exec path argv => exec p path argv
  | .exit => do
    exit p
    pure 0
  | .wait => wait p
  | .sbrk n => sysSbrk p n
  | .kill pid => kill pid
  | .getpid => do
    let k ← get
    pure (int64 (k.procs p).pid)

/-- A store of a process into its memory. -/
def userStore (p : ProcId) (va : Nat) (data : List UInt8) : KernelM Int := do
  let k ← get
  match (k.procs p).pml4 with
  | none => pageFault
  | some pml4 => onMem (copyOut pml4 va data)

/-- One system call of some process, run to its end, or one store. -/
inductive Step (k k' : System) : Prop where
  | call (p : ProcId) (c : Call) (r : Int) (hp : (k.procs p).state = .runnable)
      (h : syscall p c k = .ok (r, k'))
  | store (p : ProcId) (va : Nat) (data : List UInt8) (r : Int) (hp : (k.procs p).state = .runnable)
      (h : userStore p va data k = .ok (r, k'))

/-- The state before `user_init`: the disk is the image, and nothing is in use. -/
def System.initial (disk : Nat → Bytes) (m : Mem) (console : Nat → Option (List UInt8)) : System where
  fs := .mount disk console
  mem := m
  files := fun _ => ⟨.none, 0, false, false, 0, ⟨0, ninode_pos⟩, 0⟩
  pipes := fun _ => ⟨fun _ => 0, 0, 0, false, false⟩
  procs := fun _ => ⟨0, none, none, .unused, 0, none, .zero, false, fun _ => none, none, []⟩
  nextPid := 1
  initProc := none

/-- `k` is the state after `user_init` for an image of `mkfs` and the memory `m`. -/
def Boots (m : Mem) (k : System) : Prop :=
  ∃ host disk console initcode, Mkfs.image host = some disk ∧
    userInit initcode (System.initial disk m console) = .ok ((), k)

/-- The states between system calls. -/
def Reachable (k : System) : Prop := ∃ m k₀, Boots m k₀ ∧ Relation.ReflTransGen Step k₀ k

/-- What holds at the start and is kept by every step holds in every state. -/
theorem Reachable.invariant {P : System → Prop} (hboot : ∀ m k, Boots m k → P k)
    (hstep : ∀ k k', P k → Step k k' → P k') {k : System} (h : Reachable k) : P k := by
  obtain ⟨m, k₀, hb, hr⟩ := h
  induction hr with
  | refl => exact hboot m k₀ hb
  | tail _ hs ih => exact hstep _ _ ih hs

/-- A step whose call meets the condition `C` in the state before it. -/
inductive StepIf (C : System → ProcId → Call → Prop) (k k' : System) : Prop where
  | call (p : ProcId) (c : Call) (r : Int) (hp : (k.procs p).state = .runnable) (hc : C k p c)
      (h : syscall p c k = .ok (r, k'))
  | store (p : ProcId) (va : Nat) (data : List UInt8) (r : Int) (hp : (k.procs p).state = .runnable)
      (h : userStore p va data k = .ok (r, k'))

/-- The states of the runs whose calls all meet the condition `C`. -/
def ReachableIf (C : System → ProcId → Call → Prop) (k : System) : Prop :=
  ∃ m k₀, Boots m k₀ ∧ Relation.ReflTransGen (StepIf C) k₀ k

theorem ReachableIf.invariant {C : System → ProcId → Call → Prop} {P : System → Prop} (hboot : ∀ m k, Boots m k → P k)
    (hstep : ∀ k k', P k → StepIf C k k' → P k') {k : System} (h : ReachableIf C k) : P k := by
  obtain ⟨m, k₀, hb, hr⟩ := h
  induction hr with
  | refl => exact hboot m k₀ hb
  | tail _ hs ih => exact hstep _ _ ih hs

theorem StepIf.step {C : System → ProcId → Call → Prop} {k k' : System} (h : StepIf C k k') : Step k k' := by
  cases h with
  | call p c r hp _ h => exact .call p c r hp h
  | store p va data r hp h => exact .store p va data r hp h

/-- The state after the calls of a list, when they all pass a test and return. -/
def runCallsIf (test : System → ProcId → Call → Bool) : List (ProcId × Call) → System → Option System
  | [], k => some k
  | (p, c) :: l, k =>
    if (k.procs p).state = .runnable ∧ test k p c = true then
      match syscall p c k with
      | .ok (_, k') => runCallsIf test l k'
      | .error _ => none
    else none

def runCalls : List (ProcId × Call) → System → Option System := runCallsIf fun _ _ _ => true

theorem steps_of_runCallsIf {test : System → ProcId → Call → Bool} {C : System → ProcId → Call → Prop}
    (htest : ∀ k p c, test k p c = true → C k p c) : ∀ {l : List (ProcId × Call)} {k k' : System},
    runCallsIf test l k = some k' → Relation.ReflTransGen (StepIf C) k k'
  | [], _, _, hr => by
    obtain rfl := Option.some.inj hr
    exact .refl
  | (p, c) :: l, k, k', hr => by
    unfold runCallsIf at hr
    split at hr
    · rename_i hp
      split at hr
      · rename_i r k₁ hk
        exact .head (.call p c r hp.1 (htest k p c hp.2) hk) (steps_of_runCallsIf htest hr)
      · cases hr
    · cases hr

theorem steps_of_runCalls {l : List (ProcId × Call)} {k k' : System} (hr : runCalls l k = some k') :
    Relation.ReflTransGen Step k k' :=
  Relation.ReflTransGen.mono (fun _ _ h => StepIf.step h) _ _
    (steps_of_runCallsIf (C := fun _ _ _ => True) (fun _ _ _ _ => trivial) hr)

theorem exists_of_any {α : Type} {o : Option α} {test : α → Bool} (h : o.any test = true) :
    ∃ x, o = some x ∧ test x = true := by
  cases o with
  | none => cases h
  | some x => exact ⟨x, rfl, h⟩

/-- A run that ends in a state with a property reaches such a state. -/
theorem Reachable.of_any {P : System → Bool} {l : List (ProcId × Call)} {k : System} (h : Reachable k)
    (hr : (runCalls l k).any P = true) : ∃ k', Reachable k' ∧ P k' = true := by
  obtain ⟨k', hk, hP⟩ := exists_of_any hr
  obtain ⟨m, k₀, hb, hs⟩ := h
  exact ⟨k', ⟨m, k₀, hb, hs.trans (steps_of_runCalls hk)⟩, hP⟩

/-- The program halts in the way `e`. -/
def haltsWith {α : Type} (x : Except Halt α) (e : Halt) : Bool :=
  match x with
  | .ok _ => false
  | .error e' => e' = e

theorem haltsWith_iff {α : Type} {x : Except Halt α} {e : Halt} : haltsWith x e = true ↔ x = .error e := by
  cases x <;> simp [haltsWith]

/-- The program returns `r` and ends in a state that passes the test. -/
def returnsWith (x : Except Halt (Int × System)) (r : Int) (test : System → Bool) : Bool :=
  match x with
  | .ok (r', k) => r' = r && test k
  | .error _ => false

theorem of_returnsWith {x : Except Halt (Int × System)} {r : Int} {test : System → Bool}
    (h : returnsWith x r test = true) :
    ∃ k, x = .ok (r, k) ∧ test k = true := by
  unfold returnsWith at h
  split at h
  · rename_i r' k
    obtain ⟨hr, hk⟩ := Bool.and_eq_true_iff.mp h
    exact ⟨k, by rw [of_decide_eq_true hr], hk⟩
  · cases h

end Xv6.Kernel
