import Xv6.Fs.Lemmas.Itrunc

/-!
# The inode layer as a table of nodes

What the inode layer is for: a table of nodes, each with a type, a link count and a string of bytes, and
a cache whose cells refer to nodes. `State.view` reads this off a state of the file system, and
`State.WF` says that the state represents it properly.
-/

namespace Xv6.Fs

open Xv6.Lib

/-! ## Nodes -/

/-- What an inode number stands for. -/
@[ext] structure Node where
  type : Int
  major : Int
  minor : Int
  nlink : Int
  data : List UInt8
deriving DecidableEq

/-- A node that is not allocated and never was. -/
def Node.zero : Node := ⟨0, 0, 0, 0, []⟩

/-- The string `l` with the bytes of `w` written over it from the offset `off` on. -/
def overlay (l : List UInt8) (off : Nat) (w : List UInt8) : List UInt8 :=
  l.take off ++ w ++ l.drop (off + w.length)

/-- The inode `i` on disk; there is none behind the last. -/
def dinodeOf (sb : SuperBlock) (disk : Nat → Bytes) (i : Nat) : Dinode :=
  if i < sb.nInodes then getDinode (disk (iblock i sb)) (i % ipb) else Dinode.zero

/-- The node that an inode describes, its bytes read in order. -/
def nodeOf (disk : Nat → Bytes) (d : Dinode) : Node :=
  ⟨d.type, d.major, d.minor, d.nlink, (byteAt disk d).slice 0 d.size⟩

/-- The on-disk inode table. -/
def State.dinode (s : State) : Nat → Dinode := dinodeOf s.sb s.disk

/-- The nodes of a state. -/
def State.node (s : State) (i : Nat) : Node := nodeOf s.disk (s.dinode i)

/-! ## Cells -/

/-- What an entry of the inode cache says besides the copy of its inode. -/
@[ext] structure Cell where
  inum : Nat
  ref : Nat
  locked : Bool
  valid : Bool
deriving DecidableEq

def Inode.cell (i : Inode) : Cell := ⟨i.inum, i.ref, i.locked, i.valid⟩

def State.cell (s : State) (ip : Slot) : Cell := (s.inodes ip).cell

@[ext] structure View where
  node : Nat → Node
  cell : Slot → Cell
  console : Nat → Option (List UInt8)

def State.view (s : State) : View := ⟨s.node, s.cell, s.console⟩

namespace View

def setNode (v : View) (i : Nat) (n : Node) : View := { v with node := upd v.node i n }

def setCell (v : View) (ip : Slot) (c : Cell) : View := { v with cell := upd v.cell ip c }

/-- The node of a cell. -/
def nodeAt (v : View) (ip : Slot) : Node := v.node (v.cell ip).inum

/-- One more reference. -/
def hold (v : View) (ip : Slot) : View := v.setCell ip { v.cell ip with ref := (v.cell ip).ref + 1 }

def lock (v : View) (ip : Slot) : View := v.setCell ip { v.cell ip with locked := true, valid := true }

def unlock (v : View) (ip : Slot) : View := v.setCell ip { v.cell ip with locked := false }

/-- The last reference to a node without links frees it. -/
def Frees (v : View) (ip : Slot) : Prop :=
  (v.cell ip).valid = true ∧ (v.nodeAt ip).nlink = 0 ∧ (v.cell ip).ref = 1

instance (v : View) (ip : Slot) : Decidable (v.Frees ip) := inferInstanceAs (Decidable (_ ∧ _ ∧ _))

/-- One reference less. -/
def drop (v : View) (ip : Slot) : View :=
  if v.Frees ip then
    (v.setNode (v.cell ip).inum { v.nodeAt ip with type := 0, data := [] }).setCell ip
      { v.cell ip with ref := 0, locked := false, valid := false }
  else v.setCell ip { v.cell ip with ref := (v.cell ip).ref - 1, locked := false }

/-- `ip` is the cell for the node `inum`, with one more reference: its cell, or a free one. -/
def Gets (v : View) (inum : Nat) (ip : Slot) (v' : View) : Prop :=
  (0 < (v.cell ip).ref ∧ (v.cell ip).inum = inum ∧ v' = v.hold ip) ∨
    ((∀ jp, 0 < (v.cell jp).ref → (v.cell jp).inum ≠ inum) ∧ (v.cell ip).ref = 0 ∧
      v' = v.setCell ip ⟨inum, 1, false, false⟩)

end View

@[simp] theorem State.view_node (s : State) : s.view.node = s.node := rfl
@[simp] theorem State.view_cell (s : State) : s.view.cell = s.cell := rfl

namespace View

variable (v : View) (i : Nat) (n : Node) (ip : Slot) (c : Cell)

@[simp] theorem setNode_node : (v.setNode i n).node = upd v.node i n := rfl
@[simp] theorem setNode_cell : (v.setNode i n).cell = v.cell := rfl
@[simp] theorem setCell_node : (v.setCell ip c).node = v.node := rfl
@[simp] theorem setCell_cell : (v.setCell ip c).cell = upd v.cell ip c := rfl

end View

/-! ## Well-formed states -/

/-- The invariant of a disk: files without holes that own their blocks, and free inodes without any. -/
structure DiskWF (disk : Nat → Bytes) : Prop where
  files : Files disk (dinodeOf stdSb disk) (shape fun i => blocksOf (dinodeOf stdSb disk i).size)
  size_le : ∀ i, (dinodeOf stdSb disk i).size ≤ 525 * 4096
  free : ∀ i, (dinodeOf stdSb disk i).type = 0 → (dinodeOf stdSb disk i).size = 0

/-- The invariant of an entry of the inode cache that is in use. -/
structure EntryWF (x : Inode) (D : Nat → Dinode) : Prop where
  dev : x.dev = 0
  inum : 1 ≤ x.inum ∧ x.inum < 96
  copy : x.valid = true → x.toDinode = D x.inum
  typed : x.valid = true → (D x.inum).type ≠ 0

/-- The invariant of the inode cache. -/
structure CacheWF (inodes : Slot → Inode) (D : Nat → Dinode) : Prop where
  entry : ∀ ip, 0 < (inodes ip).ref → EntryWF (inodes ip) D
  unique : ∀ ip jp, 0 < (inodes ip).ref → 0 < (inodes jp).ref → (inodes ip).inum = (inodes jp).inum → ip = jp
  unlocked : ∀ ip, (inodes ip).ref = 0 → (inodes ip).locked = false

structure State.WF (s : State) : Prop where
  sb : s.sb = stdSb
  disk : DiskWF s.disk
  cache : CacheWF s.inodes s.dinode

end Xv6.Fs
