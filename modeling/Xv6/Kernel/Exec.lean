import Xv6.Kernel.Proc

/-!
# Executing programs

`exec.c`: a new address space is built from an ELF file and takes the place of the old one.
-/

namespace Xv6.Kernel

open Xv6.Lib Xv6.Fs Xv6.Vm

/-- A number in the bytes of a header. -/
def field (l : List UInt8) (off w : Nat) : Nat := leNat ((l.drop off).take w)

@[simp] def elfMagic : Nat := 0x464C457F
@[simp] def elfProgLoad : Nat := 1
@[simp] def elfHeaderSize : Nat := 64
@[simp] def progHeaderSize : Nat := 56

/-- `struct elf_header`. -/
structure ElfHeader where
  magic : Nat
  entry : Nat
  phOff : Nat
  phNum : Nat

def ElfHeader.ofBytes (l : List UInt8) : ElfHeader := ⟨field l 0 4, field l 24 8, field l 32 8, field l 56 2⟩

/-- `struct prog_header`. -/
structure ProgHeader where
  type : Nat
  offset : Nat
  vaddr : Nat
  fileSz : Nat
  memSz : Nat

def ProgHeader.ofBytes (l : List UInt8) : ProgHeader :=
  ⟨field l 0 4, field l 8 8, field l 16 8, field l 32 8, field l 40 8⟩

def loadUvm (pml4 addr : Nat) (ip : Slot) (offset sz : Nat) : KernelM Int := do
  panicIf (addr % pgsize4kb ≠ 0) "load_uvm : addr must be 4kb aligned"
  loop (fun i => do
    if i < sz then do
      match ← onMem (walkPml4 pml4 (addr + i) false) with
      | none => throw (.panic "load_uvm : pte doesnt exist")
      | some (t, j) => do
        let k ← get
        let f := pteAddr (k.mem.pte t j)
        let n := min (sz - i) pgsize4kb
        let r := (← onFs (readi ip (wrap (offset + i)) n)).getD []
        let k ← get
        onMem (setPage f ((k.mem.pages f).put 0 r))
        if r.length ≠ n then pure (.inr (-1))
        else pure (.inl (i + pgsize4kb))
    else pure (.inr 0)) (sz + 1) 0

/-- One round of the loop over the program headers: whether to go on, and the size. -/
def execSegment (ip : Slot) (pml4 : Nat) (ph : ProgHeader) (sz : Nat) : KernelM (Bool × Nat) := do
  if ph.type ≠ elfProgLoad then pure (true, sz)
  else if ph.memSz < ph.fileSz then pure (false, sz)
  else if wrap (ph.vaddr + ph.memSz) < ph.vaddr then pure (false, sz)
  else do
    let sz ← onMem (allocUvm pml4 sz (wrap (ph.vaddr + ph.memSz)))
    if sz = 0 then pure (false, sz)
    else if ph.vaddr < pgsize4kb then pure (false, sz)
    else if ph.vaddr % pgsize4kb ≠ 0 then pure (false, sz)
    else if (← loadUvm pml4 ph.vaddr ip ph.offset ph.fileSz) < 0 then pure (false, sz)
    else pure (true, sz)

/-- One round of the loop over the program headers. Its counter is a `short`. -/
def execRound (ip : Slot) (pml4 : Nat) (elf : ElfHeader) :
    Int × Nat → KernelM ((Int × Nat) ⊕ (Bool × Nat)) := fun (i, sz) => do
  if i < (elf.phNum : Int) then do
    let ph := (← onFs (readi ip (wrap (elf.phOff + progHeaderSize * i)) progHeaderSize)).getD []
    if ph.length ≠ progHeaderSize then pure (.inr (false, sz))
    else do
      let (ok, sz) ← execSegment ip pml4 (ProgHeader.ofBytes ph) sz
      if ok then pure (.inl (toShort (i + 1), sz)) else pure (.inr (false, sz))
  else pure (.inr (true, sz))

/-- The loop over the program headers: whether the program is loaded, and the size. -/
def execLoad (ip : Slot) (pml4 : Nat) (elf : ElfHeader) : KernelM (Bool × Nat) :=
  loop (execRound ip pml4 elf) (2 ^ 17) ((0 : Int), pgsize4kb)

/-- The arguments go on the stack: the stack pointer and the pointers to them, unless one fails. -/
def execArgs (pml4 sp : Nat) (argv : List (List UInt8)) : MemM (Option (Nat × List Nat)) :=
  loop (fun ((sp, ptrs, rest) : Nat × List Nat × List (List UInt8)) => do
    match rest with
    | [] => pure (.inr (some (sp, ptrs)))
    | a :: rest =>
      if maxarg ≤ ptrs.length then pure (.inr none)
      else do
        let s := cstr a ++ [0]
        -- `strlen(argv[argc]) + 1` is an `int`. As a size, a negative one is more than the pages that there are, as is
        -- the string.
        let n := toInt s.length
        let sp := roundDown (wrap (sp - n)) 8
        if (← copyOut pml4 sp (if n < 0 then s else s.take n.toNat)) < 0 then pure (.inr none)
        else pure (.inl (sp, ptrs ++ [sp], rest))) (argv.length + 1) (sp, [], argv)

/-- The stack of the new program: the size, and the stack pointer and `argc` when it is complete. -/
def execStack (pml4 sz : Nat) (argv : List (List UInt8)) : MemM (Nat × Option (Nat × Nat)) := do
  let sz := roundUp sz pgsize4kb
  let sz ← allocUvm pml4 sz (sz + 2 * pgsize4kb)
  if sz = 0 then pure (sz, none)
  else do
    clearPteU pml4 (sz - 2 * pgsize4kb)
    match ← execArgs pml4 sz argv with
    | none => pure (sz, none)
    | some (sp, ptrs) => do
      let argc := ptrs.length
      let sp := wrap ((roundDown (wrap ((sp : Int) - (argc + 1) * 8 - 8)) 16 : Nat) - 8)
      if (← copyOut pml4 (wrap (sp + 8)) (leBytes 8 argc)) < 0 then pure (sz, none)
      else if (← copyOut pml4 (wrap (sp + 16)) ((ptrs ++ [0]).flatMap (leBytes 8))) < 0 then pure (sz, none)
      else pure (sz, some (sp, argc))

/-- The label `bad` of `exec`. -/
def execBad (pml4 : Option Nat) (sz : Nat) (ip : Option Slot) : KernelM Int := do
  match pml4 with
  | none => pure ()
  | some pml4 => onMem (freeVm (some pml4) sz)
  match ip with
  | none => pure ()
  | some ip => do
    onFs (iunlock ip)
    onFs (iput ip)
  pure (-1)

/-- The program name: the path behind its last slash. -/
def programName (path : List UInt8) : List UInt8 :=
  (cstr path).foldl (fun last c => if c = slash then [] else last ++ [c]) []

/-- The new address space takes the place of the old one, and the registers are those with which the program starts. -/
def execCommit (cur : ProcId) (path : List UInt8) (pml4 sz entry sp argc : Nat) : KernelM Int := do
  modifyProc cur fun x => { x with name := safeStrcpy (programName path) nameSize }
  let k ← get
  modifyProc cur fun x => { x with
    pml4 := some pml4, sz := sz,
    rp := { x.rp with rcx := entry, rsp := sp, r11 := flIf, rdi := argc, rsi := wrap (sp + 16) } }
  switchUvm cur
  onMem (freeVm (k.procs cur).pml4 (k.procs cur).sz)
  pure 0

/-- `exec` from the locked inode on. -/
def execInode (cur : ProcId) (path : List UInt8) (ip : Slot) (argv : List (List UInt8)) : KernelM Int := do
  let elf := (← onFs (readi ip 0 elfHeaderSize)).getD []
  if elf.length ≠ elfHeaderSize then execBad none 0 (some ip)
  else if (ElfHeader.ofBytes elf).magic ≠ elfMagic then execBad none 0 (some ip)
  else
    match ← onMem setupUvm with
    | none => execBad none 0 (some ip)
    | some pml4 => do
      let (ok, sz) ← execLoad ip pml4 (ElfHeader.ofBytes elf)
      if ok = false then execBad (some pml4) sz (some ip)
      else do
        onFs (iunlock ip)
        onFs (iput ip)
        let (sz, stack) ← onMem (execStack pml4 sz argv)
        match stack with
        | none => execBad (some pml4) sz none
        | some (sp, argc) => execCommit cur path pml4 sz (ElfHeader.ofBytes elf).entry sp argc

def exec (cur : ProcId) (path : List UInt8) (argv : List (List UInt8)) : KernelM Int := do
  match ← onFs (namei (← cwdOf cur) path) with
  | none => pure (-1)
  | some ip => do
    onFs (ilock ip)
    execInode cur path ip argv

end Xv6.Kernel
