import Xv6.Lib.Loop
import Xv6.Lib.Bytes
import Xv6.Lib.Upd

/-!
# Page frames

`kalloc.c`: the free page frames form a list that runs through the frames themselves. A pointer into
the direct mapping is the number of the frame it points to, and `P2V` and `V2P` are left out; the null
pointer is `none`. Frames are reached by such pointers only, so they are aligned.
-/

namespace Xv6.Vm

open Xv6.Lib

@[simp] def pgsize4kb : Nat := 4096
@[simp] def pgsize2mb : Nat := 2 * 1024 * 1024
@[simp] def phyStop : Nat := 2 ^ 37
@[simp] def pageOffset : Nat := 0xFFFF888000000000

structure Mem where
  pages : Nat → Bytes
  freeList : Option Nat
  /-- `p_bump_end()`: the physical address behind the kernel and the pages it took before `kinit`. -/
  bumpEnd : Nat
  kpml4 : Nat

abbrev MemM : Type → Type := Prog Mem

def setPage (f : Nat) (b : Bytes) : MemM Unit := modify fun m => { m with pages := upd m.pages f b }

/-- A pointer as a word in memory. -/
def word : Option Nat → Nat
  | none => 0
  | some f => pageOffset + pgsize4kb * f

def ofWord (w : Nat) : Option Nat := if w = 0 then none else some ((w - pageOffset) / pgsize4kb)

-- proofs must not read pointers out of pages by unification
attribute [irreducible] ofWord

def kfree (f : Nat) : MemM Unit := do
  let m ← get
  panicIf (pgsize4kb * f < m.bumpEnd ∨ phyStop ≤ pgsize4kb * f) "kfree frees wrong addr"
  setPage f (Bytes.putLe (fun _ => 1) 0 8 (word m.freeList))
  modify fun m => { m with freeList := some f }

def kalloc : MemM (Option Nat) := do
  let m ← get
  match m.freeList with
  | none => pure none
  | some f => do
    set { m with freeList := ofWord ((m.pages f).le 0 8) }
    setPage f fun _ => 2
    pure (some f)

/-- The whole frames between two physical addresses are freed. -/
def freeRange (vstart vend : Nat) : MemM Unit :=
  each ((List.range (vend / pgsize4kb)).filter fun f => vstart ≤ pgsize4kb * f) kfree

/-- `struct mb2_mmap_entry`. -/
structure MmapEntry where
  baseAddr : Nat
  length : Nat
  avail : Bool
deriving DecidableEq, Repr

def kinit (mmap : List MmapEntry) : MemM Unit := do
  modify fun m => { m with freeList := none }
  each mmap fun e =>
    if e.avail then do
      let m ← get
      freeRange (max e.baseAddr m.bumpEnd) (e.baseAddr + e.length)
    else pure ()

end Xv6.Vm
