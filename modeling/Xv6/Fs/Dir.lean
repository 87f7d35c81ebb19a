import Xv6.Fs.Inode

/-!
# Directories and path names

`dir_lookup`, `dir_link` and `namex` with the string functions they use. A C string is the list of
its bytes; reading past the end of such a list reads the terminator.
-/

namespace Xv6.Fs

open Xv6.Lib

/-! ## Strings -/

/-- `strncmp`: zero exactly when the strings agree on `n` bytes or up to a common terminator. -/
def strncmp : List UInt8 → List UInt8 → Nat → Int
  | _, _, 0 => 0
  | s, t, n + 1 =>
    if s.headD 0 ≠ 0 ∧ s.headD 0 = t.headD 0 then strncmp s.tail t.tail n
    else (s.headD 0).toNat - (t.headD 0).toNat

/-- `strncpy` into an array of `n` bytes: copies up to the terminator and fills with zeros. -/
def strncpy (t : List UInt8) (n : Nat) : List UInt8 :=
  let c := (t.takeWhile (· ≠ 0)).take n
  c ++ List.replicate (n - c.length) 0

/-- The C string at the start of a piece of memory. -/
def cstr (p : List UInt8) : List UInt8 := p.takeWhile (· ≠ 0)

/-- The byte `/`. -/
@[simp] def slash : UInt8 := 47

/-- The name that `skip_elem` copies from an element. Its length is an `int`; a copy of a negative length does not end
before it has overwritten the kernel's stack. -/
def elemName (s : List UInt8) : Option (List UInt8) :=
  let len := toInt s.length
  if (dirsiz : Int) ≤ len then some (s.take dirsiz)
  else if 0 ≤ len then some (s.take len.toNat)
  else none

/-- The name of the next path element, and the path after it and its slashes. -/
def skipElem (path : List UInt8) : Option (Option (List UInt8) × List UInt8) :=
  let path := path.dropWhile (· = slash)
  if path = [] then none
  else
    let s := path.takeWhile (· ≠ slash)
    let path := path.dropWhile (· ≠ slash)
    some (elemName s, path.dropWhile (· = slash))

/-- The names `.` and `..`. -/
def dot : List UInt8 := [46]
def dotDot : List UInt8 := [46, 46]

/-! ## Directories -/

/-- The inode bound to `name` and the offset of its entry. -/
def dirLookup (dp : Slot) (name : List UInt8) : FsM (Option (Slot × Nat)) := do
  let s ← get
  panicIf ((s.inodes dp).type ≠ tDir) "dir_lookup not on dir"
  loop (fun off => do
    let s ← get
    if off < (s.inodes dp).size then do
      let r := (← readi dp off dirEntSize).getD []
      panicIf (r.length ≠ dirEntSize) "dir_lookup can't read"
      let de := DirEnt.ofBytes r
      if de.inum = 0 then pure (.inl (off + dirEntSize))
      else if strncmp name de.name dirsiz = 0 then do
        let ip ← iget (s.inodes dp).dev de.inum
        pure (.inr (some (ip, off)))
      else pure (.inl (off + dirEntSize))
    else pure (.inr none)) ((s.inodes dp).size + 1) 0

/-- Offset of the first free entry, or the size of the directory. -/
def dirSlot (dp : Slot) : FsM Nat := do
  let s ← get
  loop (fun off => do
    let s ← get
    if off < (s.inodes dp).size then do
      let r := (← readi dp off dirEntSize).getD []
      panicIf (r.length ≠ dirEntSize) "dir_link can't read"
      if (DirEnt.ofBytes r).inum = 0 then pure (.inr off)
      else pure (.inl (off + dirEntSize))
    else pure (.inr off)) ((s.inodes dp).size + 1) 0

def dirLink (dp : Slot) (name : List UInt8) (inum : Nat) : FsM Int := do
  match ← dirLookup dp name with
  | some (ip, _) => do
    iput ip
    pure (-1)
  | none => do
    let off ← dirSlot dp
    let de : DirEnt := ⟨inum, strncpy name dirsiz⟩
    let r ← writei dp (fun k => de.toBytes.getD k 0) off dirEntSize
    panicIf (r ≠ dirEntSize) "dir_link cant write"
    pure 0

/-! ## Path names -/

/-- Where the resolution of a path starts. -/
def namexStart (cwd : Slot) (path : List UInt8) : FsM Slot :=
  if path.headD 0 = slash then iget rootdev rootino else idup cwd

/-- The last element comes with the inode when the parent is asked for. -/
def namex (cwd : Slot) (path : List UInt8) (nameiParent : Bool) :
    FsM (Option (Slot × List UInt8)) := do
  let path := cstr path
  let ip ← namexStart cwd path
  loop (fun (ip, name, path) => do
    match skipElem path with
    | none =>
      if nameiParent then do
        iput ip
        pure (.inr none)
      else pure (.inr (some (ip, name)))
    | some (none, _) => throw .wild
    | some (some name, path) => do
      ilock ip
      let s ← get
      if (s.inodes ip).type ≠ tDir then do
        iunlock ip
        iput ip
        pure (.inr none)
      else if nameiParent ∧ path = [] then do
        iunlock ip
        pure (.inr (some (ip, name)))
      else
        match ← dirLookup ip name with
        | none => do
          iunlock ip
          iput ip
          pure (.inr none)
        | some (next, _) => do
          iunlock ip
          iput ip
          pure (.inl (next, name, path))) (path.length + 1) (ip, [], path)

def namei (cwd : Slot) (path : List UInt8) : FsM (Option Slot) := do
  pure ((← namex cwd path false).map Prod.fst)

def nameiParent (cwd : Slot) (path : List UInt8) : FsM (Option (Slot × List UInt8)) :=
  namex cwd path true

end Xv6.Fs
