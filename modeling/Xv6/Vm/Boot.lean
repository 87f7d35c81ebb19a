import Xv6.Lib.Machine
import Xv6.Vm.PageTable

/-!
# The memory map of the boot loader

`kinit` as it runs at boot, with the addresses it computes: it walks the tags of the multiboot information, which lies
below the bump end, and frees the pages of the available regions under their addresses in the direct mapping. The
information is read through the kernel mapping, so an address of it is the physical one.
-/

namespace Xv6.Vm

open Xv6.Lib

/-- Physical memory as one buffer. -/
def Mem.phys (m : Mem) : Bytes := fun a => m.pages (a / pgsize4kb) (a % pgsize4kb)

namespace Boot

@[simp] def mb2TagMmap : Nat := 6
@[simp] def mb2MmapAvail : Nat := 1

def p2v (p : Nat) : Nat := (p + pageOffset) % 2 ^ 64
def v2p (v : Nat) : Nat := (v + (2 ^ 64 - pageOffset)) % 2 ^ 64

/-! ## Pages under their addresses -/

def kfree (v : Nat) : MemM Unit := do
  let m ← get
  panicIf (v % pgsize4kb ≠ 0 ∨ v < p2v m.bumpEnd ∨ phyStop ≤ v2p v) "kfree frees wrong addr"
  setPage (v2p v / pgsize4kb) (Bytes.putLe (fun _ => 1) 0 8 (word m.freeList))
  modify fun m => { m with freeList := some (v2p v / pgsize4kb) }

/-- A round of the loop of `free_range`. -/
def freeRound (vend p : Nat) : MemM (Nat ⊕ Unit) :=
  if (p + pgsize4kb) % 2 ^ 64 ≤ vend then do
    kfree p
    pure (.inl ((p + pgsize4kb) % 2 ^ 64))
  else pure (.inr ())

def freeRange (vstart vend : Nat) : MemM Unit :=
  loop (freeRound vend) (vend / pgsize4kb + 1) (roundDown ((vstart + pgsize4kb - 1) % 2 ^ 64) pgsize4kb)

/-! ## The tags -/

/-- `tag->type` and `tag->size`. -/
def tagType (b : Bytes) (tag : Nat) : Nat := b.le tag 4
def tagSize (b : Bytes) (tag : Nat) : Nat := b.le (tag + 4) 4

/-- `mm_tag->entry_size` -/
def entrySize (b : Bytes) (tag : Nat) : Nat := b.le (tag + 8) 4

/-- The number of entries; the size of the tag is converted to 64 bits first. -/
def entryLength (b : Bytes) (tag : Nat) : Nat := (tagSize b tag + (2 ^ 64 - 16)) % 2 ^ 64 / entrySize b tag

/-- The tag after a tag, at the next multiple of eight. -/
def nextTag (b : Bytes) (tag : Nat) : Nat := roundDown (tag + tagSize b tag + 7) 8

/-- The entry with index `i` of a memory map. -/
def entryAt (b : Bytes) (tag i : Nat) : MmapEntry :=
  let e := tag + 16 + i * entrySize b tag
  ⟨b.le e 8, b.le (e + 8) 8, b.le (e + 16) 4 = mb2MmapAvail⟩

/-- A round of the loop over the entries of a memory map. -/
def freeEntry (tag i : Nat) : MemM Unit := do
  let m ← get
  let e := entryAt m.phys tag i
  if e.avail then
    -- below the bump end nothing can be freed
    let mmapStart := if e.baseAddr < m.bumpEnd then m.bumpEnd else e.baseAddr
    let mmapEnd := (e.baseAddr + e.length) % 2 ^ 64
    freeRange (p2v mmapStart) (p2v mmapEnd)
  else pure ()

def freeEntries (tag : Nat) : MemM Unit := do
  let m ← get
  each (List.range (entryLength m.phys tag)) (freeEntry tag)

/-- The body of the loop over the tags. -/
def freeTag (tag : Nat) : MemM Unit := do
  let m ← get
  if tagType m.phys tag = mb2TagMmap then freeEntries tag else pure ()

/-- A round of `MB2_FOREACH_TAG`. -/
def kinitRound (tag : Nat) : MemM (Nat ⊕ Unit) := do
  let m ← get
  if tagType m.phys tag = 0 then pure (.inr ())
  else do
    freeTag tag
    let m ← get
    pure (.inl (nextTag m.phys tag))

/-- The information starts with its size. -/
def kinit (info : Nat) : MemM Unit := do
  modify fun m => { m with freeList := none }
  let m ← get
  loop kinitRound (m.phys.le info 4 + 1) (info + 8)

/-! ## Well-formed information -/

/-- The tags from an address on, up to the one that ends them; all lie before `stop`. -/
inductive Tags (b : Bytes) (stop : Nat) : Nat → List Nat → Prop where
  | done {a : Nat} (hlt : a + 8 ≤ stop) (htype : tagType b a = 0) : Tags b stop a []
  | cons {a : Nat} {l : List Nat} (htype : tagType b a ≠ 0) (hsize : 8 ≤ tagSize b a) (hstop : a + tagSize b a ≤ stop)
      (hmmap : tagType b a = mb2TagMmap → 16 ≤ tagSize b a ∧ 24 ≤ entrySize b a) (h : Tags b stop (nextTag b a) l) :
        Tags b stop a (a :: l)

/-- The entries of the memory maps among some tags. -/
def entries (b : Bytes) (tags : List Nat) : List MmapEntry :=
  tags.flatMap fun tag => if tagType b tag = mb2TagMmap then (List.range (entryLength b tag)).map
    (entryAt b tag) else []

/-- The address lies in the region. -/
def Inside (e : MmapEntry) (a : Nat) : Prop := e.baseAddr ≤ a ∧ a < e.baseAddr + e.length

/-- The available regions are disjoint, do not wrap and end at or below `PHY_STOP`. -/
structure Regular (map : List MmapEntry) : Prop where
  disjoint : map.Pairwise fun e e' => e.avail → e'.avail → ∀ a, ¬ (Inside e a ∧ Inside e' a)
  stop : ∀ e ∈ map, e.avail → e.baseAddr + e.length ≤ phyStop

/-- The frame lies in one available region and not below the bump end. -/
def Usable (map : List MmapEntry) (bumpEnd f : Nat) : Prop :=
  (∃ e ∈ map, e.avail ∧ e.baseAddr ≤ pgsize4kb * f ∧ pgsize4kb * f + pgsize4kb ≤ e.baseAddr + e.length) ∧
    bumpEnd ≤ pgsize4kb * f

/-! ## Afterwards -/

/-- A call of the allocator, or a write of the owner of a frame. -/
inductive Call where
  | kalloc
  | kfree (x : Nat)
  | write (x : Nat) (b : Bytes)

/-- The memory and the frames that are allocated. Only an allocated frame is freed or written. -/
def step (s : Mem × List Nat) : Call → Option (Mem × List Nat)
  | .kalloc =>
    match Vm.kalloc s.1 with
    | .ok (some x, m) => some (m, x :: s.2)
    | .ok (none, m) => some (m, s.2)
    | .error _ => none
  | .kfree x =>
    if x ∈ s.2 then
      match Vm.kfree x s.1 with
      | .ok (_, m) => some (m, s.2.erase x)
      | .error _ => none
    else none
  | .write x b => if x ∈ s.2 then some ({ s.1 with pages := upd s.1.pages x b }, s.2) else none

/-- The allocator from the memory `m` on, with nothing allocated. -/
def allocator (m : Mem) : Machine (Mem × List Nat) Call := ⟨fun s => s = (m, []), step⟩

end Boot

end Xv6.Vm
