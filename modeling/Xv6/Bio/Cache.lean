import Xv6.Lib.Links
import Xv6.Lib.Wp
import Xv6.Fs.Layout

/-!
# The buffer cache

`bio.c` and the RAM disk below it. `bget` is cut where another process can run: the critical section
of `bcache.lock` that looks a block up, the acquisition of the buffer's sleep lock, and the code that
gives a claimed buffer to its new block. The functions of `bio.c` run these pieces in order. A sleep
lock records only whether it is held, so a thread that finds it held by itself sleeps for ever.
-/

namespace Xv6.Bio

open Xv6.Lib Xv6.Fs

@[simp] def maxopblocks : Nat := 10
@[simp] def nbuf : Nat := maxopblocks * 3

instance : NeZero nbuf := ⟨by decide⟩

/-- A pointer into `bcache.bufs`. -/
abbrev BufId : Type := Fin nbuf

/-- `struct buf`, with `flags` as the two bits `B_VALID` and `B_DIRTY`; the links of the list are in
`Cache.links`. -/
structure Buf where
  dev : Nat
  blockNo : Nat
  refCount : Nat
  valid : Bool
  dirty : Bool
  data : Bytes
  locked : Bool

structure Cache where
  bufs : BufId → Buf
  /-- The least recently used list; `none` is `bcache.head`. -/
  links : Links BufId
  ramdisk : Nat → Bytes
  /-- `disk_size / BSIZE` -/
  diskBlocks : Nat

abbrev BioM : Type → Type := Prog Cache

/-- A buffer in zeroed memory. -/
def Buf.zero : Buf := ⟨0, 0, 0, false, false, fun _ => 0, false⟩

/-- The state after `rd_init` and `bcache_init`. -/
def bcacheInit (ramdisk : Nat → Bytes) (diskBlocks : Nat) : Cache :=
  ⟨fun _ => Buf.zero, (List.finRange nbuf).foldl Links.pushFront Links.empty, ramdisk, diskBlocks⟩

/-- The block that the buffer stands for. -/
def Buf.block (b : Buf) : Nat × Nat := (b.dev, b.blockNo)

def Cache.setBuf (s : Cache) (i : BufId) (b : Buf) : Cache := { s with bufs := upd s.bufs i b }

/-- An assignment to fields of a buffer. -/
def setBuf (i : BufId) (f : Buf → Buf) : BioM Unit := modify fun s => s.setBuf i (f (s.bufs i))

/-! ## RAM disk -/

def rdRw (i : BufId) : BioM Unit := do
  let s ← get
  let b := s.bufs i
  panicIf (b.valid ∧ ¬ b.dirty) "rd_rw: nothing to do"
  panicIf (b.dev ≠ devRamdisk) "rd_rw: request not for rd"
  panicIf (s.diskBlocks ≤ b.blockNo) "rd_rw: block out of range"
  if b.dirty then
    set { s.setBuf i { b with dirty := false, valid := true } with ramdisk := upd s.ramdisk b.blockNo b.data }
  else
    set (s.setBuf i { b with data := s.ramdisk b.blockNo, valid := true })

/-! ## Sleep locks -/

def acquireSleep (i : BufId) : BioM Unit := do
  let s ← get
  if (s.bufs i).locked then throw .sleep
  else setBuf i fun b => { b with locked := true }

def releaseSleep (i : BufId) : BioM Unit := setBuf i fun b => { b with locked := false }

/-! ## Buffers -/

/-- The loop of `bget` from `bcache.head.next` on. -/
def scanNext (p : Buf → Bool) : BioM (Option BufId) := do
  let s ← get
  match Links.walk s.links.next (fun i => p (s.bufs i)) (nbuf + 1) (s.links.next none) with
  | some r => pure r
  | none => throw .diverge

/-- The loop of `bget` from `bcache.head.prev` on. -/
def scanPrev (p : Buf → Bool) : BioM (Option BufId) := do
  let s ← get
  match Links.walk s.links.prev (fun i => p (s.bufs i)) (nbuf + 1) (s.links.prev none) with
  | some r => pure r
  | none => throw .diverge

/-- What the critical section of `bget` has found. -/
inductive Found where
  | hit (i : BufId)
  | claimed (i : BufId)
deriving DecidableEq

def Found.buf : Found → BufId
  | .hit i => i
  | .claimed i => i

/-- The critical section of `bget`. -/
def lookup (dev bno : Nat) : BioM Found := do
  match ← scanNext fun b => b.block = (dev, bno) with
  | some i => do
    setBuf i fun b => { b with refCount := b.refCount + 1 }
    pure (.hit i)
  | none =>
    match ← scanPrev fun b => b.refCount = 0 with
    | some i => do
      setBuf i fun b => { b with refCount := 1 }
      pure (.claimed i)
    | none => throw (.panic "bget: no buffers available")

/-- The code of `bget` after the lock of a claimed buffer is acquired. -/
def recycle (dev bno : Nat) (i : BufId) : BioM Unit := do
  let s ← get
  if (s.bufs i).dirty then rdRw i
  setBuf i fun b => { b with dev := dev, blockNo := bno, valid := false, dirty := false }

def bget (dev bno : Nat) : BioM BufId := do
  match ← lookup dev bno with
  | .hit i => do
    acquireSleep i
    pure i
  | .claimed i => do
    acquireSleep i
    recycle dev bno i
    pure i

/-- The code of `bread` after `bget`. -/
def fill (i : BufId) : BioM Unit := do
  let s ← get
  if ¬ (s.bufs i).valid then rdRw i

def bread (dev bno : Nat) : BioM BufId := do
  let i ← bget dev bno
  fill i
  pure i

def bwrite (i : BufId) : BioM Unit := do
  let s ← get
  panicIf (¬ (s.bufs i).locked) "bwrite : no sleeplk holded"
  setBuf i fun b => { b with dirty := true }

/-- The critical section of `brelse`. -/
def unref (i : BufId) : BioM Unit := do
  setBuf i fun b => { b with refCount := b.refCount - 1 }
  let s ← get
  if (s.bufs i).refCount = 0 then set { s with links := (s.links.unlink i).pushFront i }

/-- The code of `brelse` before its critical section. -/
def unlock (i : BufId) : BioM Unit := do
  let s ← get
  panicIf (¬ (s.bufs i).locked) "brelease: wtf"
  releaseSleep i

def brelse (i : BufId) : BioM Unit := do
  unlock i
  unref i

end Xv6.Bio
