import Xv6.Fs.Block

/-!
# Inodes

The inode layer of `fs.c`: the inode cache with its reference counts and sleep locks, the mapping of
logical to disk blocks, and reading and writing the contents of an inode.
-/

namespace Xv6.Fs

open Xv6.Lib

/-- Changes one entry of the inode cache. -/
def modifyInode (ip : Slot) (f : Inode → Inode) : FsM Unit :=
  modify fun s => { s with inodes := upd s.inodes ip (f (s.inodes ip)) }

/-! ## Sleep locks of inodes -/

/-- One thread of control: a lock that is held is never released while we sleep for it. -/
def acquireSleep (ip : Slot) : FsM Unit := do
  let s ← get
  if (s.inodes ip).locked then throw .sleep
  else modifyInode ip fun i => { i with locked := true }

def releaseSleep (ip : Slot) : FsM Unit :=
  modifyInode ip fun i => { i with locked := false }

/-! ## The inode cache -/

def iget (dev inum : Nat) : FsM Slot := do
  let s ← get
  match (List.finRange ninode).find? fun i =>
      0 < (s.inodes i).ref ∧ (s.inodes i).dev = dev ∧ (s.inodes i).inum = inum with
  | some ip => do
    modifyInode ip fun i => { i with ref := i.ref + 1 }
    pure ip
  | none =>
    match (List.finRange ninode).find? fun i => (s.inodes i).ref = 0 with
    | none => throw (.panic "iget: no empty slot")
    | some ip => do
      modifyInode ip fun i => { i with dev := dev, inum := inum, ref := 1, valid := false }
      pure ip

def idup (ip : Slot) : FsM Slot := do
  modifyInode ip fun i => { i with ref := i.ref + 1 }
  pure ip

def iupdate (ip : Slot) : FsM Unit := do
  let s ← get
  let i := s.inodes ip
  let bp ← bread i.dev (iblock i.inum s.sb)
  bwrite (iblock i.inum s.sb) (putDinode bp (i.inum % ipb) i.toDinode)

def ialloc (dev : Nat) (type : Int) : FsM Slot := do
  let s ← get
  loop (fun inum => do
    if inum < s.sb.nInodes then do
      let bp ← bread dev (iblock inum s.sb)
      if (getDinode bp (inum % ipb)).type = 0 then do
        bwrite (iblock inum s.sb) (putDinode bp (inum % ipb) { Dinode.zero with type := type })
        let ip ← iget dev inum
        pure (.inr ip)
      else pure (.inl (inum + 1))
    else throw (.panic "ialloc: no inodes")) (s.sb.nInodes + 1) 1

def ilock (ip : Slot) : FsM Unit := do
  let s ← get
  panicIf ((s.inodes ip).ref < 1) "ilock"
  acquireSleep ip
  if (s.inodes ip).valid then pure ()
  else do
    let i := s.inodes ip
    let bp ← bread i.dev (iblock i.inum s.sb)
    let dip := getDinode bp (i.inum % ipb)
    modifyInode ip fun i => { i with toDinode := dip, valid := true }
    panicIf (dip.type = 0) "ilock: no type"

def iunlock (ip : Slot) : FsM Unit := do
  let s ← get
  panicIf ((s.inodes ip).locked = false ∨ (s.inodes ip).ref < 1) "iunlock"
  releaseSleep ip

/-! ## Truncation and release -/

/-- `ip->addrs[n] = v` -/
def setAddr (ip : Slot) (n : Fin 14) (v : Nat) : FsM Unit :=
  modifyInode ip fun i => { i with addrs := upd i.addrs n v }

instance neZero_addrs : NeZero 14 := ⟨by decide⟩

/-- The slot of the indirect block, `addrs[NDIRECT]`. -/
def indirect : Fin 14 := 13

/-- The loop of `itrunc` over the direct slots. -/
def itruncDirect (ip : Slot) : FsM Unit :=
  loop (fun i => do
    let s ← get
    if i < ndirect then do
      let n := Fin.ofNat 14 i
      if (s.inodes ip).addrs n ≠ 0 then do
        bfree (s.inodes ip).dev ((s.inodes ip).addrs n)
        setAddr ip n 0
        pure (.inl (i + 1))
      else pure (.inl (i + 1))
    else pure (.inr ())) (ndirect + 1) 0

/-- The loop of `itrunc` over the entries of the indirect block, whose data is `bp`. -/
def itruncEntries (dev : Nat) (bp : Bytes) : FsM Unit :=
  loop (fun j => do
    if j < nindirect then do
      if getAddr bp j ≠ 0 then do
        bfree dev (getAddr bp j)
        pure (.inl (j + 1))
      else pure (.inl (j + 1))
    else pure (.inr ())) (nindirect + 1) 0

def itrunc (ip : Slot) : FsM Unit := do
  itruncDirect ip
  let s ← get
  let dev := (s.inodes ip).dev
  let ind := (s.inodes ip).addrs indirect
  if ind ≠ 0 then do
    let bp ← bread dev ind
    itruncEntries dev bp
    bfree dev ind
    setAddr ip indirect 0
  else pure ()
  modifyInode ip fun i => { i with size := 0 }
  iupdate ip

def iput (ip : Slot) : FsM Unit := do
  acquireSleep ip
  let s ← get
  if (s.inodes ip).valid ∧ (s.inodes ip).nlink = 0 then do
    if (s.inodes ip).ref = 1 then do
      itrunc ip
      modifyInode ip fun i => { i with type := 0 }
      iupdate ip
      modifyInode ip fun i => { i with valid := false }
    else pure ()
  else pure ()
  releaseSleep ip
  modifyInode ip fun i => { i with ref := i.ref - 1 }

/-! ## Contents -/

/-- The disk block of the logical block `bn`, allocated when there is none. -/
def bmap (ip : Slot) (bn : Nat) : FsM Nat := do
  let s ← get
  let dev := (s.inodes ip).dev
  if bn < ndirect then do
    let n := Fin.ofNat 14 bn
    if (s.inodes ip).addrs n = 0 then do
      let addr ← balloc dev
      setAddr ip n addr
      pure addr
    else pure ((s.inodes ip).addrs n)
  else if bn - ndirect < nindirect then do
    let ind ← if (s.inodes ip).addrs indirect = 0 then do
        let addr ← balloc dev
        setAddr ip indirect addr
        pure addr
      else pure ((s.inodes ip).addrs indirect)
    let a ← bread dev ind
    if getAddr a (bn - ndirect) = 0 then do
      let addr ← balloc dev
      -- the entry is stored in the buffer of the indirect block, held since before the allocation
      modify fun s =>
        { s with disk := upd s.disk ind (putAddr (s.disk ind) (bn - ndirect) addr) }
      pure addr
    else pure (getAddr a (bn - ndirect))
  else throw (.panic "bmap: out of range")

/-- `devs[major].read` is set for the console only. `console_read` drops the inode's lock while it
waits for input. These are the bytes that it stores; `consoleResult` is the number that it returns for them. -/
def devRead (ip : Slot) (n : Nat) : FsM (Option (List UInt8)) := do
  iunlock ip
  let s ← get
  set { s with console := fun k => s.console (k + 1) }
  ilock ip
  pure ((s.console 0).map (List.take n))

/-- `target - n` at the end of `console_read`, for `len` bytes of `n`. The number of bytes asked for was cut to an
`int`. -/
def consoleResult (n len : Nat) : Int := (toInt n - (n - len) + 2 ^ 63) % 2 ^ 64 - 2 ^ 63

def devWrite (ip : Slot) (n : Nat) : FsM Int := do
  iunlock ip
  ilock ip
  pure n

/-- The bytes read, or `none` where the source returns `-1`. -/
def readi (ip : Slot) (off n : Nat) : FsM (Option (List UInt8)) := do
  let s ← get
  let i := s.inodes ip
  if i.type = tDev then
    if i.major < 0 ∨ (ndev : Int) ≤ i.major ∨ i.major ≠ consoleDevnum then pure none
    else devRead ip n
  else if i.size < off ∨ u64 (off + n) < off then pure none
  else do
    let n := if i.size < u64 (off + n) then i.size - off else n
    loop (fun (tot, off, dst) => do
      if tot < n then do
        let bp ← bread i.dev (← bmap ip (off / bsize))
        let m := min (n - tot) (bsize - off % bsize)
        pure (.inl (tot + m, off + m, dst ++ bp.slice (off % bsize) m))
      else pure (.inr (some dst))) (n + 1) (0, off, [])

/-- `src` is the memory from the source pointer on. -/
def writei (ip : Slot) (src : Bytes) (off n : Nat) : FsM Int := do
  let s ← get
  let i := s.inodes ip
  if i.type = tDev then
    if i.major < 0 ∨ (ndev : Int) ≤ i.major ∨ i.major ≠ consoleDevnum then pure (-1)
    else devWrite ip n
  else if i.size < off ∨ u64 (off + n) < off then pure (-1)
  else if maxfileblk * bsize < u64 (off + n) then pure (-1)
  else do
    let (tot, off) ← loop (fun (tot, off) => do
      if tot < n then do
        let bno ← bmap ip (off / bsize)
        let bp ← bread i.dev bno
        let m := min (n - tot) (bsize - off % bsize)
        bwrite bno (bp.put (off % bsize) (src.slice tot m))
        pure (.inl (tot + m, off + m))
      else pure (.inr (tot, off))) (n + 1) (0, off)
    if 0 < n ∧ i.size < off then do
      modifyInode ip fun i => { i with size := off }
      iupdate ip
    else pure ()
    pure tot

end Xv6.Fs
