import Xv6.Lib.Bytes
import Xv6.Lib.Upd

/-!
# On-disk layout

The constants of `fs.h` and `file.h` and the C structures that live in disk blocks: the bitmap, the
inode blocks, the indirect blocks and the directory entries.
-/

namespace Xv6.Fs

open Xv6.Lib

/-! ## Constants -/

@[simp] def bsize : Nat := 4096
@[simp] def diskSize : Nat := 16 * 1024 * 1024
@[simp] def nblocks : Nat := diskSize / bsize
@[simp] def ndirect : Nat := 13
@[simp] def nindirect : Nat := bsize / 8
@[simp] def maxfileblk : Nat := ndirect + nindirect
@[simp] def ninode : Nat := 30
@[simp] def ndev : Nat := 10
@[simp] def consoleDevnum : Int := 1
@[simp] def rootino : Nat := 1
@[simp] def devRamdisk : Nat := 0
@[simp] def rootdev : Nat := devRamdisk
@[simp] def dirsiz : Nat := 24

@[simp] def tDir : Int := 1
@[simp] def tFile : Int := 2
@[simp] def tDev : Int := 3

/-- Bitmap bits per block. -/
@[simp] def bpb : Nat := bsize * 8

/-! ## C integers -/

/-- Conversion to `uint64_t`. -/
def u64 (x : Nat) : Nat := x % 2 ^ 64

/-- Conversion to `short`. -/
def toShort (x : Int) : Int := (x + 32768) % 65536 - 32768

/-- Conversion to `int`. -/
def toInt (x : Int) : Int := (x + 2 ^ 31) % 2 ^ 32 - 2 ^ 31

theorem toInt_of_lt {n : Nat} (h : n < 2 ^ 31) : toInt n = n := by
  unfold toInt
  omega

theorem le_toInt (x : Int) : -2147483648 ≤ toInt x := by
  unfold toInt
  omega

/-- The 16 bits of a `short`. -/
def shortBits (x : Int) : Nat := (x % 65536).toNat

/-- The `short` with the given 16 bits. -/
def shortOf (n : Nat) : Int := toShort n

/-! ## Super block -/

structure SuperBlock where
  size : Nat
  nBlocks : Nat
  nInodes : Nat
  inodeStart : Nat
  bmapStart : Nat
deriving DecidableEq, Repr

/-- The super block stored at the start of a block. -/
def getSb (b : Bytes) : SuperBlock where
  size := b.le 0 8
  nBlocks := b.le 8 8
  nInodes := b.le 16 8
  inodeStart := b.le 24 8
  bmapStart := b.le 32 8

/-! ## Bitmap -/

/-- `BBLOCK(b, sb)`: the bitmap block that holds the bit of block `b`. -/
def bblock (b : Nat) (sb : SuperBlock) : Nat := b / bpb + sb.bmapStart

/-- `1 << (bi % 8)` -/
def bitMask (bi : Nat) : Nat := 1 <<< (bi % 8)

/-- `(data[bi/8] & m) != 0` -/
def bitSet (data : Bytes) (bi : Nat) : Bool := (data (bi / 8)).toNat &&& bitMask bi != 0

/-- `data[bi/8] |= m` -/
def setBit (data : Bytes) (bi : Nat) : Bytes :=
  upd data (bi / 8) (data (bi / 8) ||| UInt8.ofNat (bitMask bi))

/-- `data[bi/8] &= ~m` -/
def clearBit (data : Bytes) (bi : Nat) : Bytes :=
  upd data (bi / 8) (data (bi / 8) &&& ~~~ UInt8.ofNat (bitMask bi))

/-! ## Inodes on disk -/

structure Dinode where
  type : Int
  major : Int
  minor : Int
  nlink : Int
  size : Nat
  addrs : Fin 14 → Nat

/-- All bytes of the structure are zero. -/
def Dinode.zero : Dinode := ⟨0, 0, 0, 0, 0, fun _ => 0⟩

/-- `IPB`: inodes per block. -/
@[simp] def ipb : Nat := bsize / 128

/-- `IBLOCK(i, sb)` -/
def iblock (i : Nat) (sb : SuperBlock) : Nat := i / ipb + sb.inodeStart

/-- The 128 bytes of a `struct dinode`. -/
def Dinode.bytes (d : Dinode) : List UInt8 :=
  leBytes 2 (shortBits d.type) ++ leBytes 2 (shortBits d.major) ++ leBytes 2 (shortBits d.minor) ++
    leBytes 2 (shortBits d.nlink) ++ leBytes 8 d.size ++
    (List.finRange 14).flatMap fun n => leBytes 8 (d.addrs n)

/-- `(struct dinode*)data + k`, read. -/
def getDinode (b : Bytes) (k : Nat) : Dinode where
  type := shortOf (b.le (128 * k) 2)
  major := shortOf (b.le (128 * k + 2) 2)
  minor := shortOf (b.le (128 * k + 4) 2)
  nlink := shortOf (b.le (128 * k + 6) 2)
  size := b.le (128 * k + 8) 8
  addrs n := b.le (128 * k + 16 + 8 * n) 8

/-- `(struct dinode*)data + k`, stored. -/
def putDinode (b : Bytes) (k : Nat) (d : Dinode) : Bytes := b.put (128 * k) d.bytes

/-! ## Indirect blocks -/

/-- `((uint64_t*)data)[n]`, read. -/
def getAddr (b : Bytes) (n : Nat) : Nat := b.le (8 * n) 8

/-- `((uint64_t*)data)[n]`, stored. -/
def putAddr (b : Bytes) (n v : Nat) : Bytes := b.putLe (8 * n) 8 v

/-! ## Directory entries -/

/-- `struct dir_ent`: the name is an array of `dirsiz` bytes. -/
structure DirEnt where
  inum : Nat
  name : List UInt8
deriving DecidableEq, Repr

/-- `sizeof(struct dir_ent)` -/
@[simp] def dirEntSize : Nat := 32

/-- The entry stored in a string of `dirEntSize` bytes. -/
def DirEnt.ofBytes (l : List UInt8) : DirEnt := ⟨leNat (l.take 8), l.drop 8⟩

def DirEnt.toBytes (de : DirEnt) : List UInt8 := leBytes 8 de.inum ++ de.name

end Xv6.Fs
