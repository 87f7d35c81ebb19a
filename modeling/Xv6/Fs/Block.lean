import Xv6.Lib.Loop
import Xv6.Fs.Layout

/-!
# File system state and block allocation

The state of `fs.c`: the disk blocks as the buffer cache hands them out, the super block, the inode
cache and what the console will answer to reads. The buffer cache is the plain array of blocks that
it refines: `bread` gives the contents of a block and `bwrite` makes new contents current.
-/

namespace Xv6.Fs

open Xv6.Lib

/-- `struct inode`: an entry of the inode cache. -/
structure Inode extends Dinode where
  dev : Nat
  inum : Nat
  ref : Nat
  locked : Bool
  valid : Bool

theorem ninode_pos : 0 < ninode := by decide

/-- A pointer to an entry of the inode cache. -/
abbrev Slot : Type := Fin ninode

structure State where
  disk : Nat → Bytes
  sb : SuperBlock
  inodes : Slot → Inode
  /-- The answers of the coming console reads; `none` is the failure of a killed reader. -/
  console : Nat → Option (List UInt8)

/-- An entry of the inode cache that was never used. -/
def Inode.empty : Inode := { Dinode.zero with dev := 0, inum := 0, ref := 0, locked := false, valid := false }

/-- The state after `iinit`: the super block is read, and the inode cache is empty. -/
def State.mount (disk : Nat → Bytes) (console : Nat → Option (List UInt8)) : State :=
  ⟨disk, getSb (disk 1), fun _ => Inode.empty, console⟩

abbrev FsM : Type → Type := Prog State

/-! ## Buffers

The functions take the number of blocks of the disk, which the driver reads off the image that it is built with. -/

def breadOn (size dev bno : Nat) : FsM Bytes := do
  panicIf (dev ≠ devRamdisk) "rd_rw: request not for rd"
  panicIf (size ≤ bno) "rd_rw: block out of range"
  let s ← get
  pure (s.disk bno)

def bwrite (bno : Nat) (data : Bytes) : FsM Unit :=
  modify fun s => { s with disk := upd s.disk bno data }

def bzeroOn (size dev bno : Nat) : FsM Unit := do
  let _ ← breadOn size dev bno
  bwrite bno fun _ => 0

/-! ## Free map -/

/-- The inner loop of `balloc`: the bits of one bitmap block, from block number `b` on. -/
def ballocBlock (size dev b : Nat) (bp : Bytes) : FsM (Option Nat) :=
  loop (fun bi => do
    let s ← get
    if bi < bpb ∧ b + bi < s.sb.size then
      if bitSet bp bi then pure (.inl (bi + 1))
      else do
        bwrite (bblock b s.sb) (setBit bp bi)
        bzeroOn size dev (b + bi)
        pure (.inr (some (b + bi)))
    else pure (.inr none)) (bpb + 1) 0

/-- A round of the outer loop of `balloc`: the bitmap block of the block number `b`. -/
def ballocRound (size dev b : Nat) : FsM (Nat ⊕ Nat) := do
  let s ← get
  if b < s.sb.size then do
    let bp ← breadOn size dev (bblock b s.sb)
    match ← ballocBlock size dev b bp with
    | some r => pure (.inr r)
    | none => pure (.inl (u64 (b + bpb)))
  else throw (.panic "balloc: oob")

def ballocOn (size dev : Nat) : FsM Nat := do
  let s ← get
  loop (ballocRound size dev) (s.sb.size + 1) 0

def bfreeOn (size dev blk : Nat) : FsM Unit := do
  let s ← get
  let bp ← breadOn size dev (bblock blk s.sb)
  let bi := blk % bpb
  panicIf (bitSet bp bi = false) "freeing free block"
  bwrite (bblock blk s.sb) (clearBit bp bi)

/-! ## The disk of the image -/

def bread (dev bno : Nat) : FsM Bytes := breadOn nblocks dev bno

def bzero (dev bno : Nat) : FsM Unit := bzeroOn nblocks dev bno

def balloc (dev : Nat) : FsM Nat := ballocOn nblocks dev

def bfree (dev blk : Nat) : FsM Unit := bfreeOn nblocks dev blk

end Xv6.Fs
