import Xv6.Vm.Kalloc

/-!
# Address spaces

`vm.c`: the page tables of processes. A table is a frame of 512 words; a pointer to a word of it is
the frame and the index. Sizes and addresses are numbers below `2 ^ 64`; the sums that can wrap do so
where they are formed.
-/

namespace Xv6.Vm

open Xv6.Lib

/-! ## Page table entries -/

@[simp] def pteP : Nat := 1
@[simp] def pteW : Nat := 2
@[simp] def pteU : Nat := 4
@[simp] def ptePCD : Nat := 16

@[simp] def userTop : Nat := 0x0000800000000000

/-- `pte & PTE_P`, `pte & PTE_PS` and `pte & PTE_U`. -/
def present (pte : Nat) : Bool := pte.testBit 0
def large (pte : Nat) : Bool := pte.testBit 7
def user (pte : Nat) : Bool := pte.testBit 2

/-- The frame of `PTE_ADDR(pte)`. -/
def pteAddr (pte : Nat) : Nat := pte / pgsize4kb

def pteFlags (pte : Nat) : Nat := pte % pgsize4kb

def roundUp (sz size : Nat) : Nat := (sz + size - 1) / size * size
def roundDown (sz size : Nat) : Nat := sz / size * size

/-- `table[i]` -/
def Mem.pte (m : Mem) (table i : Nat) : Nat := (m.pages table).le (8 * i) 8

def setPte (table i v : Nat) : MemM Unit := do
  let m ← get
  setPage table ((m.pages table).putLe (8 * i) 8 v)

/-! ## Walking -/

/-- `walk_pml4` from a table of the level on that has `n` levels below it. -/
def walkLevel (va : Nat) (alloc : Bool) : Nat → Nat → MemM (Option (Nat × Nat))
  | 0, table => do
    let i := va / 2 ^ 12 % 512
    let m ← get
    if alloc then pure (some (table, i))
    else if present (m.pte table i) then pure (some (table, i))
    else pure none
  | n + 1, table => do
    let i := va / 2 ^ (12 + 9 * (n + 1)) % 512
    let m ← get
    if present (m.pte table i) then
      if large (m.pte table i) then pure (some (table, i))
      else walkLevel va alloc n (pteAddr (m.pte table i))
    else if alloc then do
      match ← kalloc with
      | none => pure none
      | some t => do
        setPage t fun _ => 0
        setPte table i (pgsize4kb * t ||| pteP ||| pteW ||| pteU)
        walkLevel va alloc n t
    else pure none

def walkPml4 (pml4 va : Nat) (alloc : Bool) : MemM (Option (Nat × Nat)) := walkLevel va alloc 3 pml4

/-- `pa` is a physical address. -/
def mapPages (pml4 va size pa perm : Nat) : MemM Int :=
  let stop := roundDown (va + size - 1) pgsize4kb
  loop (fun (it, pa) => do
    match ← walkPml4 pml4 it true with
    | none => pure (.inr (-1))
    | some (t, i) => do
      let m ← get
      panicIf (present (m.pte t i)) "remap"
      setPte t i (pa ||| perm ||| pteP)
      if it = stop then pure (.inr 0)
      else pure (.inl (it + pgsize4kb, pa + pgsize4kb))) (size / pgsize4kb + 2) (roundDown va pgsize4kb, pa)

/-! ## Address spaces of processes -/

def setupUvm : MemM (Option Nat) := do
  match ← kalloc with
  | none => pure none
  | some pml4 => do
    setPage pml4 fun _ => 0
    let m ← get
    -- the upper 256 entries are those of the kernel
    setPage pml4 fun k => if 8 * 256 ≤ k ∧ k < 8 * 512 then m.pages m.kpml4 k else m.pages pml4 k
    pure (some pml4)

def initUvm (pml4 : Nat) (init : List UInt8) : MemM Unit := do
  panicIf (pgsize4kb ≤ init.length) "init is too big"
  match ← kalloc with
  | none => throw (.panic "page fault")
  | some mem => do
    setPage mem fun _ => 0
    let _ ← mapPages pml4 0 pgsize4kb (pgsize4kb * mem) (pteW ||| pteU)
    let m ← get
    setPage mem ((m.pages mem).put 0 init)

def deallocUvm (pml4 oldSz newSz : Nat) : MemM Nat :=
  if oldSz ≤ newSz then pure oldSz
  else
    loop (fun addr => do
      if addr < oldSz then do
        match ← walkPml4 pml4 addr false with
        | none =>
          -- it is not known which table is missing: on to the next 2 MB
          pure (.inl (roundDown (addr + pgsize2mb) pgsize2mb))
        | some (t, i) => do
          let m ← get
          if present (m.pte t i) then do
            panicIf (pteAddr (m.pte t i) = 0) "dealloc_uvm : can't free"
            kfree (pteAddr (m.pte t i))
            setPte t i 0
            pure (.inl (addr + pgsize4kb))
          else pure (.inl (addr + pgsize4kb))
      else pure (.inr newSz)) (oldSz + 1) (roundUp newSz pgsize4kb)

def allocUvm (pml4 oldSz newSz : Nat) : MemM Nat :=
  if newSz < oldSz then pure oldSz
  else if userTop ≤ newSz then pure 0
  else
    loop (fun addr => do
      if addr < newSz then do
        match ← kalloc with
        | none => do
          let _ ← deallocUvm pml4 newSz oldSz
          pure (.inr 0)
        | some mem => do
          setPage mem fun _ => 0
          if (← mapPages pml4 addr pgsize4kb (pgsize4kb * mem) (pteW ||| pteU)) < 0 then do
            let _ ← deallocUvm pml4 newSz oldSz
            kfree mem
            pure (.inr 0)
          else pure (.inl (addr + pgsize4kb))
      else pure (.inr newSz)) (newSz + 1) (roundUp oldSz pgsize4kb)

/-- `free_entry` for a table that has `n` levels below it; the leaf pages are freed before. -/
def freeEntry : Nat → Nat → Nat → MemM Unit
  | 0, _, table => kfree table
  | n + 1, max, table => do
    each (List.range max) fun i => do
      let m ← get
      if present (m.pte table i) then freeEntry n 512 (pteAddr (m.pte table i)) else pure ()
    kfree table

def freeVm (pml4 : Option Nat) (sz : Nat) : MemM Unit := do
  match pml4 with
  | none => throw (.panic "free_vm: no pml4")
  | some pml4 => do
    let _ ← deallocUvm pml4 sz 0
    freeEntry 3 256 pml4

/-- The loop of `copy_uvm`: the new space is complete, or `bad` at some address. -/
def copyPages (pml4 newPml4 sz : Nat) : MemM (Option Nat) :=
  loop (fun addr => do
    if addr < sz then do
      match ← walkPml4 pml4 addr false with
      | none => throw (.panic "copy_uvm: pte should exist")
      | some (t, i) => do
        let m ← get
        let pte := m.pte t i
        panicIf (present pte = false) "copy_uvm: page not present"
        match ← kalloc with
        | none => pure (.inr (some addr))
        | some mem => do
          let m ← get
          setPage mem (m.pages (pteAddr pte))
          if (← mapPages newPml4 addr pgsize4kb (pgsize4kb * mem) (pteFlags pte)) < 0 then do
            kfree mem
            pure (.inr (some addr))
          else pure (.inl (addr + pgsize4kb))
    else pure (.inr none)) (sz + 1) pgsize4kb

def copyUvm (pml4 sz : Nat) : MemM (Option Nat) := do
  match ← setupUvm with
  | none => pure none
  | some newPml4 => do
    match ← copyPages pml4 newPml4 sz with
    | none => pure (some newPml4)
    | some addr => do
      freeVm (some newPml4) addr
      pure none

def clearPteU (pml4 uva : Nat) : MemM Unit := do
  match ← walkPml4 pml4 uva false with
  | none => throw (.panic "clear_pte_u: clear what?")
  | some (t, i) => do
    let m ← get
    setPte t i (if user (m.pte t i) then m.pte t i - pteU else m.pte t i)

/-- The frame of a user address. -/
def uva2dma (pml4 uva : Nat) : MemM (Option Nat) := do
  match ← walkPml4 pml4 uva false with
  | none => pure none
  | some (t, i) => do
    let m ← get
    if present (m.pte t i) = false then pure none
    else if user (m.pte t i) = false then pure none
    else pure (some (pteAddr (m.pte t i)))

def copyOut (pml4 va : Nat) (buf : List UInt8) : MemM Int :=
  loop (fun (va, buf) => do
    if 0 < buf.length then do
      let va0 := roundDown va pgsize4kb
      match ← uva2dma pml4 va0 with
      | none => pure (.inr (-1))
      | some f => do
        let toWrite := min (pgsize4kb - (va - va0)) buf.length
        let m ← get
        setPage f ((m.pages f).put (va - va0) (buf.take toWrite))
        pure (.inl ((va0 + pgsize4kb) % 2 ^ 64, buf.drop toWrite))
    else pure (.inr 0)) (buf.length + 1) (va, buf)

/-! ## Stores of the kernel -/

/-- The kernel stores a byte through a pointer of the user. In the user's half the page has to be there; above it is
memory of the kernel, or none. -/
def storeByte (pml4 va : Nat) (c : UInt8) : MemM Unit := do
  if userTop ≤ va then throw .wild
  else
    match ← walkPml4 pml4 va false with
    | none => throw (.panic "kernel page fault")
    | some (t, i) => do
      let m ← get
      let f := pteAddr (m.pte t i)
      setPage f ((m.pages f).put (va % pgsize4kb) [c])

def storeBytes (pml4 : Nat) : Nat → List UInt8 → MemM Unit
  | _, [] => pure ()
  | dst, c :: l => do
    storeByte pml4 dst c
    storeBytes pml4 (dst + 1) l

/-! ## Device memory -/

@[simp] def ioremapBase : Nat := 0xFFFFC00000000000

/-- The memory and `io_bump`, the next address for a device. -/
structure IoMem where
  mem : Mem
  ioBump : Nat

def ioRemap (pa size : Nat) : Prog IoMem Nat := do
  let s ← get
  let res ← (mapPages s.mem.kpml4 s.ioBump size (roundDown pa pgsize4kb) (ptePCD ||| pteW)).on IoMem.mem fun m s =>
    { s with mem := m }
  panicIf (res ≠ 0) "io_remap failed by map_pages failure"
  let stop := roundDown ((s.ioBump + size - 1) % 2 ^ 64) pgsize4kb
  modify fun s => { s with ioBump := (stop + pgsize4kb) % 2 ^ 64 }
  pure ((s.ioBump + pa % pgsize4kb) % 2 ^ 64)

end Xv6.Vm
