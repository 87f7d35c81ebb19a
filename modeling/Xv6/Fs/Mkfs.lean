import Xv6.Fs.Dir

/-!
# The image builder

`tools/mkfs.c`, which runs on the host: its own allocators, its own `bmap`, `readi` and `writei`,
and `main`. A run that ends with `exit(1)` writes no image.
-/

namespace Xv6.Mkfs

open Xv6.Lib Xv6.Fs

/-- The disk in memory and the two bump counters. -/
structure State where
  disk : Nat → Bytes
  bump : Nat
  ibump : Nat

abbrev MkM : Type → Type := Prog State

/-- `fprintf(stderr, ...); exit(1);` -/
def exit1 {α : Type} (msg : String) : MkM α := throw (.panic msg)

def store (bno : Nat) (data : Bytes) : MkM Unit :=
  modify fun s => { s with disk := upd s.disk bno data }

/-- The super block that `main` stores in block 1. -/
def sb : SuperBlock where
  size := nblocks
  nBlocks := nblocks - (1 + 1 + 1 + 3)
  nInodes := 3 * bsize / 128
  inodeStart := 3
  bmapStart := 2

def balloc : MkM Nat := do
  let s ← get
  let bno := bblock s.bump (getSb (s.disk 1))
  store bno (setBit (s.disk bno) s.bump)
  modify fun s => { s with bump := s.bump + 1 }
  pure s.bump

/-- `inodes[ino]`, where `inodes` points to block 3. -/
def State.inode (s : State) (ino : Nat) : Dinode := getDinode (s.disk (3 + ino / ipb)) (ino % ipb)

def setInode (ino : Nat) (d : Dinode) : MkM Unit := do
  let s ← get
  store (3 + ino / ipb) (putDinode (s.disk (3 + ino / ipb)) (ino % ipb) d)

def modifyInode (ino : Nat) (f : Dinode → Dinode) : MkM Unit := do
  let s ← get
  setInode ino (f (s.inode ino))

def dialloc (type : Int) : MkM Nat := do
  let s ← get
  modifyInode s.ibump fun d => { d with type := type }
  modify fun s => { s with ibump := s.ibump + 1 }
  pure s.ibump

/-- `ip->addrs[n] = v` -/
def setAddr (ip : Nat) (n : Fin 14) (v : Nat) : MkM Unit :=
  modifyInode ip fun d => { d with addrs := upd d.addrs n v }

def bmap (ip bn : Nat) : MkM Nat := do
  let s ← get
  if bn < ndirect then do
    let n := Fin.ofNat 14 bn
    if (s.inode ip).addrs n = 0 then do
      let addr ← balloc
      setAddr ip n addr
      pure addr
    else pure ((s.inode ip).addrs n)
  else if bn - ndirect < nindirect then do
    let ind ← if (s.inode ip).addrs indirect = 0 then do
        let addr ← balloc
        setAddr ip indirect addr
        pure addr
      else pure ((s.inode ip).addrs indirect)
    let s ← get
    if getAddr (s.disk ind) (bn - ndirect) = 0 then do
      let addr ← balloc
      let s ← get
      store ind (putAddr (s.disk ind) (bn - ndirect) addr)
      pure addr
    else pure (getAddr (s.disk ind) (bn - ndirect))
  else exit1 "bmap oor"

def readi (ip off n : Nat) : MkM (Option (List UInt8)) := do
  let s ← get
  let size := (s.inode ip).size
  if size < off ∨ u64 (off + n) < off then pure none
  else do
    let n := if size < u64 (off + n) then size - off else n
    loop (fun (tot, off, dst) => do
      if tot < n then do
        let bno ← bmap ip (off / bsize)
        let s ← get
        let m := min (n - tot) (bsize - off % bsize)
        pure (.inl (tot + m, off + m, dst ++ (s.disk bno).slice (off % bsize) m))
      else pure (.inr (some dst))) (n + 1) (0, off, [])

def writei (ip : Nat) (src : Bytes) (off n : Nat) : MkM Int := do
  let s ← get
  let size := (s.inode ip).size
  if size < off ∨ u64 (off + n) < off then pure (-1)
  else if (ndirect + nindirect) * bsize < u64 (off + n) then pure (-1)
  else do
    let (tot, off) ← loop (fun (tot, off) => do
      if tot < n then do
        let bno ← bmap ip (off / bsize)
        let s ← get
        let m := min (n - tot) (bsize - off % bsize)
        store bno ((s.disk bno).put (off % bsize) (src.slice tot m))
        pure (.inl (tot + m, off + m))
      else pure (.inr (tot, off))) (n + 1) (0, off)
    if 0 < n ∧ size < off then modifyInode ip fun d => { d with size := off }
    else pure ()
    pure tot

def dirLink (dp : Nat) (name : List UInt8) (inum : Nat) : MkM Unit := do
  let s ← get
  let off ← loop (fun off => do
    let s ← get
    if off < (s.inode dp).size then do
      let r := (← readi dp off dirEntSize).getD []
      if r.length ≠ dirEntSize then exit1 "dir_link cant read"
      else if (DirEnt.ofBytes r).inum = 0 then pure (.inr off)
      else pure (.inl (off + dirEntSize))
    else pure (.inr off)) ((s.inode dp).size + 1) 0
  let de : DirEnt := ⟨inum, strncpy name dirsiz⟩
  let r ← writei dp (fun k => de.toBytes.getD k 0) off dirEntSize
  if r ≠ dirEntSize then exit1 "dir_link cant write" else pure ()

/-- `file` is the contents of the host file, `none` when it cannot be opened. `fread` returns fewer
bytes than asked for only at the end of the file. -/
def file2i (ip : Nat) (file : Option (List UInt8)) : MkM Int := do
  let s ← get
  if (s.inode ip).type ≠ tFile then pure (-1)
  else match file with
  | none => pure (-1)
  | some f =>
    loop (fun (off, f) => do
      let buf := f.take bsize
      let n := buf.length
      if 0 < n then do
        let r ← writei ip (fun k => buf.getD k 0) off n
        if r ≠ n then pure (.inr (-1))
        else if n < bsize then pure (.inr 0)
        else pure (.inl (off + n, f.drop bsize))
      else pure (.inr 0)) (f.length + 1) (0, f)

/-- The host files by name, without their directory. -/
abbrev Host : Type := List UInt8 → Option (List UInt8)

def addFile (host : Host) (rooti : Nat) (name : List UInt8) : MkM Unit := do
  let ino ← dialloc tFile
  modifyInode ino fun d => { d with nlink := 1 }
  let r ← file2i ino (host name)
  if r < 0 then exit1 "file2i failed" else dirLink rooti name ino

/-! ## The packed names -/

/-- `console` -/
def consoleName : List UInt8 := [99, 111, 110, 115, 111, 108, 101]

/-- `init`, `cat`, `mkdir`, `ls`, `rm`, `nsh` and `echo`. -/
def fileNames : List (List UInt8) :=
  [[105, 110, 105, 116], [99, 97, 116], [109, 107, 100, 105, 114], [108, 115], [114, 109],
    [110, 115, 104], [101, 99, 104, 111]]

/-- `main` up to the call of `save_img`. -/
def main (host : Host) : MkM Unit := do
  let s ← get
  store 1 ((((((s.disk 1).putLe 0 8 sb.size).putLe 8 8 sb.nBlocks).putLe 16 8 sb.nInodes).putLe
    24 8 sb.inodeStart).putLe 32 8 sb.bmapStart)
  let s ← get
  let bm := (getSb (s.disk 1)).bmapStart
  store bm (upd (s.disk bm) 0 63)
  let rooti ← dialloc tDir
  modifyInode rooti fun d => { d with nlink := 1 }
  dirLink rooti dot rootino
  dirLink rooti dotDot rootino
  let consoleIno ← dialloc tDev
  modifyInode consoleIno fun d => { d with nlink := 1, major := 1, minor := 1 }
  dirLink rooti consoleName consoleIno
  each fileNames (addFile host rooti)

/-- The static storage of the program before `main`. -/
def init : State := ⟨fun _ _ => 0, 6, 1⟩

/-- The blocks of `fs.img`, when the run of `mkfs` writes it. -/
def image (host : Host) : Option (Nat → Bytes) :=
  match main host init with
  | .ok (_, s) => some s.disk
  | .error _ => none

end Xv6.Mkfs
