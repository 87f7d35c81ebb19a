import Xv6.Kernel.Syscall
import Xv6.Lib.Machine
import Xv6.Offset.Cursor

/-!
# Calls through shared files

`file_read` and `file_write` by any processes at once, through the open files on one inode. A process may
be interrupted in front of `ilock`, where it waits while another one has the lock, and also between `ilock`,
the transfer of the bytes, the update of the offset and `iunlock`.
-/

namespace Xv6.Offset

open Xv6.Lib Xv6.Fs Xv6.Kernel

/-- The place of a process in its call. -/
inductive Pos where
  | user
  /-- in `ilock` -/
  | lock (f : FileId) (op : Op)
  /-- before `readi` or `writei` -/
  | transfer (f : FileId) (op : Op)
  /-- before `f->off += r` -/
  | advance (f : FileId) (op : Op) (r : Result)
  /-- before `iunlock` -/
  | unlock

structure State where
  sys : System
  pos : ProcId → Pos
  /-- The calls in the order in which they moved their offset or returned without a lock. -/
  log : List Done

inductive Action where
  | call (p : ProcId) (fd : Int) (op : Op)
  | run (p : ProcId)

/-- `f->readable` or `f->writable` -/
def Op.allowed (x : File) : Op → Bool
  | .read _ => x.readable
  | .write _ => x.writable

/-- `readi` or `writei` at an offset -/
def Op.transfer (ip : Slot) (off : Nat) : Op → FsM Result
  | .read n => do
    let s ← get
    let r ← readi ip off n.toNat
    pure ⟨readResult (s.inodes ip).type n.toNat r, r.getD []⟩
  | .write l => do
    let r ← writei ip (fun i => l.val.getD i 0) off l.val.length
    pure ⟨r, []⟩

def State.goto (s : State) (p : ProcId) (pos : Pos) : State := { s with pos := upd s.pos p pos }

def State.withFs (s : State) (fs : Fs.State) : State := { s with sys := { s.sys with fs := fs } }

/-- A call whose file lies on the inode; it returns at once when the file is not open for it. -/
def State.call (ip : Slot) (s : State) (p : ProcId) (f : FileId) (op : Op) : Option State :=
  if (s.sys.files f).type = .inode ∧ (s.sys.files f).ip = ip then
    if op.allowed (s.sys.files f) then some (s.goto p (.lock f op))
    else some { s with log := s.log ++ [⟨p, f, op, ⟨-1, []⟩⟩] }
  else none

/-- The next step of a process. One that cannot go on waits, or the system has halted. -/
def State.run (ip : Slot) (s : State) (p : ProcId) : Option State :=
  match s.pos p with
  | .user => none
  | .lock f op =>
    match ilock ip s.sys.fs with
    | .ok (_, fs) => some ((s.withFs fs).goto p (.transfer f op))
    | .error _ => none
  | .transfer f op =>
    match op.transfer ip (s.sys.files f).off s.sys.fs with
    | .ok (r, fs) => some ((s.withFs fs).goto p (.advance f op r))
    | .error _ => none
  | .advance f op r =>
    some { s with
      sys := { s.sys with
        files := upd s.sys.files f { s.sys.files f with off := u64 ((s.sys.files f).off + r.ret.toNat) } }
      pos := upd s.pos p .unlock
      log := s.log ++ [⟨p, f, op, r⟩] }
  | .unlock =>
    match iunlock ip s.sys.fs with
    | .ok (_, fs) => some ((s.withFs fs).goto p .user)
    | .error _ => none

def State.step (ip : Slot) (s : State) : Action → Option State
  | .call p fd op =>
    match s.pos p with
    | .user =>
      match checkFd s.sys p fd with
      | none => none
      | some (_, f) => s.call ip p f op
    | _ => none
  | .run p => s.run ip p

/-- The runs from the state `k₀` between system calls on, with calls through the files on the inode `ip`. -/
def machine (k₀ : System) (ip : Slot) : Machine State Action :=
  ⟨fun s => s = ⟨k₀, fun _ => .user, []⟩, State.step ip⟩

/-- The bytes of the inode and the offsets of the files. -/
def cursor (ip : Slot) (k : System) : Cursor :=
  ⟨(k.fs.node (k.fs.inodes ip).inum).data, fun f => (k.files f).off⟩

/-- The calls that the files on the inode allow. -/
def mode (k : System) (f : FileId) (op : Op) : Bool := op.allowed (k.files f)

end Xv6.Offset
