import Xv6.Lib.Machine
import Xv6.Bio.Cache

/-!
# One thread of control

A thread reads blocks, gives new contents to the buffers that it holds, and releases them. `last` are
the contents that were last given to each block.
-/

namespace Xv6.Bio

open Xv6.Lib Xv6.Fs

structure Client where
  cache : Cache
  /-- The buffers that the thread holds, with the blocks it asked for. -/
  held : List (Nat × BufId)
  last : Nat → Bytes

inductive Op where
  | bread (b : Nat)
  /-- New data for the held buffer of a block, followed by `bwrite`. -/
  | write (b : Nat) (data : Bytes)
  | brelse (b : Nat)

namespace Client

/-- A program of the cache, run by the client. -/
def call {α : Type} (x : BioM α) : Prog Client α := x.on Client.cache fun s c => { c with cache := s }

/-- The buffer that the thread holds for a block. -/
def bufOf (c : Client) (b : Nat) : Option BufId := (c.held.find? fun h => h.1 = b).map Prod.snd

/-- One call of the thread. The result of a read is the data of the buffer. -/
def exec : Op → Prog Client (Option Bytes)
  | .bread b => do
    let i ← call (bread devRamdisk b)
    modify fun c => { c with held := (b, i) :: c.held }
    let c ← get
    pure (some (c.cache.bufs i).data)
  | .write b data => do
    let c ← get
    match c.bufOf b with
    | none => pure none
    | some i => do
      call (setBuf i fun buf => { buf with data := data })
      call (bwrite i)
      modify fun c => { c with last := upd c.last b data }
      pure none
  | .brelse b => do
    let c ← get
    match c.bufOf b with
    | none => pure none
    | some i => do
      call (brelse i)
      modify fun c => { c with held := c.held.erase (b, i) }
      pure none

/-- The thread reads blocks of the disk that it does not hold, with fewer than `nbuf` buffers held, and
writes and releases only what it holds. -/
def Allowed (c : Client) : Op → Prop
  | .bread b => b < c.cache.diskBlocks ∧ c.held.length < nbuf ∧ b ∉ c.held.map Prod.fst
  | .write b _ => b ∈ c.held.map Prod.fst
  | .brelse b => b ∈ c.held.map Prod.fst

instance (c : Client) : (op : Op) → Decidable (c.Allowed op)
  | .bread b => inferInstanceAs (Decidable (b < c.cache.diskBlocks ∧ c.held.length < nbuf ∧ b ∉ c.held.map Prod.fst))
  | .write b _ => inferInstanceAs (Decidable (b ∈ c.held.map Prod.fst))
  | .brelse b => inferInstanceAs (Decidable (b ∈ c.held.map Prod.fst))

/-- The thread after `bcache_init`. -/
def Starts (c : Client) : Prop :=
  ∃ ramdisk n, c = ⟨bcacheInit ramdisk n, [], ramdisk⟩

/-- The calls that a thread makes; a call that does not return is not a step. -/
def machine : Machine Client Op where
  start := Starts
  step c op :=
    if c.Allowed op then
      match exec op c with
      | .ok (_, c') => some c'
      | .error _ => none
    else none

end Client

end Xv6.Bio
