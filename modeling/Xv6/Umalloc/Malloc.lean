import Xv6.Vm.PageTable

/-!
# The allocator of the user programs

`malloc` and `free` of the user library. The free blocks are in a circular list that begins at the static header `base`.
A block begins with a header: the address of the next free block, and the size of the block in units of the header.
-/

namespace Xv6.Umalloc

open Xv6.Lib Xv6.Vm

/-- `sizeof(struct header)`. -/
abbrev headerSize : Nat := 16

/-- What the allocator works on: the memory of the process, the variable `free_p`, and the end of the memory. `answers`
tells for the next calls of `sbrk` whether the kernel has the pages. -/
structure Heap where
  mem : Bytes
  freeP : Nat
  sz : Nat
  answers : List Bool

abbrev HeapM : Type → Type := Prog Heap

/-- The result `(void*)-1`. -/
abbrev failed : Nat := 2 ^ 64 - 1

/-- The pointer `p + n` for a pointer to a header. -/
def plus (p n : Nat) : Nat := (p + headerSize * n) % 2 ^ 64

/-- The pointer `p - 1` for a pointer to a header. -/
def headerOf (p : Nat) : Nat := (p + 2 ^ 64 - headerSize) % 2 ^ 64

/-- The fields `ptr` and `unit_size` of the header at `a`. -/
def nextOf (m : Bytes) (a : Nat) : Nat := m.le a 8

def unitsOf (m : Bytes) (a : Nat) : Nat := m.le (a + 8) 8

-- proofs use these by lemmas, and must not compute remainders or read byte by byte
attribute [irreducible] plus headerOf nextOf unitsOf

def ptr (p : Nat) : HeapM Nat := do
  return nextOf (← get).mem p

def unitSize (p : Nat) : HeapM Nat := do
  return unitsOf (← get).mem p

def setPtr (p v : Nat) : HeapM Unit :=
  modify fun s => { s with mem := s.mem.putLe p 8 v }

def setUnitSize (p v : Nat) : HeapM Unit :=
  modify fun s => { s with mem := s.mem.putLe (p + 8) 8 v }

/-- The system call, for a program whose memory ends at `sz`. -/
def sbrk (n : Int) : HeapM Nat := do
  let s ← get
  let sz' := (s.sz : Int) + n
  if s.answers.head? = some true ∧ 0 ≤ sz' ∧ sz' < userTop then
    set { s with sz := sz'.toNat, answers := s.answers.tail }
    return s.sz
  else
    set { s with answers := s.answers.tail }
    return failed

/-- More rounds than the loops can take: the places on the list are addresses. -/
abbrev rounds : Nat := 2 ^ 67

/-! ## free -/

/-- The loop of `free`: the place on the list where `bp` belongs. -/
def freeFind (bp : Nat) : HeapM Nat := do
  let start := (← get).freeP
  loop (fun p => do
    let next ← ptr p
    if p < bp ∧ bp < next then return .inr p
    else if next ≤ p ∧ (p < bp ∨ bp < next) then return .inr p
    else return .inl next) rounds start

/-- Links `bp` to the block behind it, or merges the two. -/
def linkNext (bp pNext : Nat) : HeapM Unit := do
  if plus bp (← unitSize bp) = pNext then
    setUnitSize bp ((← unitSize bp) + (← unitSize pNext))
    setPtr bp (← ptr pNext)
  else
    setPtr bp pNext

/-- Links the block before `bp` to it, or merges the two. -/
def linkPrev (p bp : Nat) : HeapM Unit := do
  if plus p (← unitSize p) = bp then
    setUnitSize p ((← unitSize p) + (← unitSize bp))
    setPtr p (← ptr bp)
  else
    setPtr p bp

def free (ap : Nat) : HeapM Unit := do
  let bp := headerOf ap
  let p ← freeFind bp
  linkNext bp (← ptr p)
  linkPrev p bp
  modify fun s => { s with freeP := p }

/-! ## malloc -/

/-- Asks the kernel for memory; the argument of `sbrk` is an `int`. -/
def moreCore (n : Nat) : HeapM Nat := do
  let nu := if n < 4096 then 4096 else n
  let p ← sbrk (Int.bmod (nu * headerSize) (2 ^ 32))
  if p = failed then return 0
  else
    setUnitSize p nu
    free (plus p 1)
    return (← get).freeP

/-- The number of units for `nbytes` bytes and the header. -/
def unitsFor (nbytes : Nat) : Nat := (nbytes + headerSize - 1) % 2 ^ 64 / headerSize + 1

/-- Takes `nunits` units of the block `p`, which are the last ones if it is larger. -/
def take (prevP p nunits : Nat) : HeapM Nat := do
  let u ← unitSize p
  if u = nunits then
    setPtr prevP (← ptr p)
    modify fun s => { s with freeP := prevP }
    return plus p 1
  else
    setUnitSize p (u - nunits)
    let q := plus p (← unitSize p)
    setUnitSize q nunits
    modify fun s => { s with freeP := prevP }
    return plus q 1

/-- One round of the loop of `malloc`. -/
def mallocBody (nunits : Nat) : Nat × Nat → HeapM (Nat × Nat ⊕ Nat) := fun (prevP, p) => do
  if nunits ≤ (← unitSize p) then
    return .inr (← take prevP p nunits)
  else if p = (← get).freeP then
    let p ← moreCore nunits
    if p = 0 then return .inr 0
    else return .inl (p, ← ptr p)
  else
    return .inl (p, ← ptr p)

/-- The first call makes a list with nothing but the static header. -/
def mallocInit (base : Nat) : HeapM Unit := do
  if (← get).freeP = 0 then
    modify fun s => { s with freeP := base }
    setPtr base base
    setUnitSize base 0
  else
    return ()

def malloc (base nbytes : Nat) : HeapM Nat := do
  mallocInit base
  let prevP := (← get).freeP
  loop (mallocBody (unitsFor nbytes)) rounds (prevP, ← ptr prevP)

end Xv6.Umalloc
