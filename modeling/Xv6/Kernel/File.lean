import Xv6.Kernel.State

/-!
# Files and pipes

`file.c` and `pipe.c`. A function that would sleep does not return: its caller is one of the
processes that wait, and the calls of the others go on from the state before.
-/

namespace Xv6.Kernel

open Xv6.Lib Xv6.Fs Xv6.Vm

/-! ## Pipes -/

def pipeClose (p : Nat) (writable : Bool) : KernelM Unit := do
  if writable then modifyPipe p fun q => { q with writeOpen := false }
  else modifyPipe p fun q => { q with readOpen := false }
  let k ← get
  if (k.pipes p).readOpen = false ∧ (k.pipes p).writeOpen = false then onMem (kfree p)
  else pure ()

/-- `killed` is that of the caller. -/
def pipeWrite (p : Nat) (killed : Bool) (addr : List UInt8) : KernelM Int :=
  loop (fun (l : List UInt8) => do
    match l with
    | [] => pure (.inr (addr.length : Int))
    | c :: l => do
      let k ← get
      let q := k.pipes p
      if q.nwrite = u64 (q.nread + pipesize) then
        if q.readOpen = false ∨ killed then pure (.inr (-1))
        else throw .sleep
      else do
        modifyPipe p fun q => { q with data := upd q.data (q.nwrite % pipesize) c, nwrite := u64 (q.nwrite + 1) }
        pure (.inl l)) (addr.length + 1) addr

/-- The bytes read, or `none` where the source returns `-1`. -/
def pipeRead (p : Nat) (killed : Bool) (n : Nat) : KernelM (Option (List UInt8)) := do
  let k ← get
  let q := k.pipes p
  if q.nread = q.nwrite ∧ q.writeOpen then
    if killed then pure none else throw .sleep
  else do
    let m := min n (u64 (2 ^ 64 + q.nwrite - q.nread))
    modifyPipe p fun q => { q with nread := u64 (q.nread + m) }
    pure (some ((List.range m).map fun i => q.data ((q.nread + i) % pipesize)))

/-! ## The file table -/

def fileAlloc : KernelM (Option FileId) := do
  let k ← get
  match (List.finRange nfile).find? fun f => (k.files f).ref = 0 with
  | none => pure none
  | some f => do
    modifyFile f fun x => { x with ref := 1 }
    pure (some f)

def fileDup (f : FileId) : KernelM Unit := do
  let k ← get
  panicIf ((k.files f).ref < 1) "file_dup : dup what?"
  modifyFile f fun x => { x with ref := x.ref + 1 }

def fileClose (f : FileId) : KernelM Unit := do
  let k ← get
  let ff := k.files f
  panicIf (ff.ref < 1) "file_close: close what?"
  if 0 < ff.ref - 1 then modifyFile f fun x => { x with ref := x.ref - 1 }
  else do
    modifyFile f fun x => { x with ref := 0, type := .none }
    match ff.type with
    | .pipe => pipeClose ff.pipe ff.writable
    | .inode => onFs (iput ff.ip)
    | .none => pure ()

/-- `struct stat`. -/
structure Stat where
  type : Int
  dev : Nat
  ino : Nat
  nlink : Int
  size : Nat

/-- The bytes that `stati` stores, with their offsets. -/
def Stat.fields (st : Stat) : List (Nat × List UInt8) :=
  [(8, leBytes 8 st.dev), (16, leBytes 8 st.ino), (0, leBytes 2 (shortBits st.type)),
    (24, leBytes 2 (shortBits st.nlink)), (32, leBytes 8 st.size)]

def fileStat (f : FileId) : KernelM (Option Stat) := do
  let k ← get
  let ff := k.files f
  match ff.type with
  | .inode => do
    onFs (ilock ff.ip)
    let k ← get
    let i := k.fs.inodes ff.ip
    onFs (iunlock ff.ip)
    pure (some ⟨i.type, i.dev, i.inum, i.nlink, i.size⟩)
  | _ => pure none

/-- The number that a read of `n` bytes returns for the bytes that it stores. -/
def readResult (type : Int) (n : Nat) : Option (List UInt8) → Int
  | none => -1
  | some l => if type = tDev then consoleResult n l.length else l.length

/-- The bytes read, and the result. -/
def fileRead (f : FileId) (killed : Bool) (n : Nat) : KernelM (List UInt8 × Int) := do
  let k ← get
  let ff := k.files f
  if ff.readable = false then pure ([], -1)
  else
    match ff.type with
    | .pipe => do
      let r ← pipeRead ff.pipe killed n
      pure (r.getD [], readResult tFile n r)
    | .inode => do
      onFs (ilock ff.ip)
      -- The offset is that after the lock is taken.
      let k ← get
      let r ← onFs (readi ff.ip (k.files f).off n)
      let res := readResult (k.fs.inodes ff.ip).type n r
      modifyFile f fun x => { x with off := u64 (x.off + res.toNat) }
      onFs (iunlock ff.ip)
      pure (r.getD [], res)
    | .none => throw (.panic "file_read failed")

def fileWrite (f : FileId) (killed : Bool) (addr : List UInt8) : KernelM Int := do
  let k ← get
  let ff := k.files f
  if ff.writable = false then pure (-1)
  else
    match ff.type with
    | .pipe => pipeWrite ff.pipe killed addr
    | .inode => do
      onFs (ilock ff.ip)
      let k ← get
      let r ← onFs (writei ff.ip (fun i => addr.getD i 0) (k.files f).off addr.length)
      modifyFile f fun x => { x with off := u64 (x.off + r.toNat) }
      onFs (iunlock ff.ip)
      pure r
    | .none => throw (.panic "file_write failed")

/-- `pipe_alloc`: the read end and the write end. -/
def pipeAlloc : KernelM (Option (FileId × FileId)) := do
  match ← fileAlloc with
  | none => pure none
  | some f0 => do
    match ← fileAlloc with
    | none => do
      fileClose f0
      pure none
    | some f1 => do
      match ← onMem kalloc with
      | none => do
        fileClose f0
        fileClose f1
        pure none
      | some p => do
        modifyPipe p fun q => { q with readOpen := true, writeOpen := true, nwrite := 0, nread := 0 }
        modifyFile f0 fun x => { x with type := .pipe, readable := true, writable := false, pipe := p }
        modifyFile f1 fun x => { x with type := .pipe, readable := false, writable := true, pipe := p }
        pure (some (f0, f1))

end Xv6.Kernel
