import Xv6.Fs.Dir

/-!
# Creating and removing names

The file system part of `sysfile.c`: `create`, `sys_unlink` and what `sys_open`, `sys_mkdir`,
`sys_mknod` and `sys_chdir` do to inodes.
-/

namespace Xv6.Fs

open Xv6.Lib

/-- The branch of `create` for a name that the directory `dp` does not bind, from `ialloc` on. -/
def createNew (dp : Slot) (name : List UInt8) (type major minor : Int) : FsM (Option Slot) := do
  let s ← get
  let ip ← ialloc (s.inodes dp).dev type
  ilock ip
  modifyInode ip fun i => { i with major := major, minor := minor, nlink := 1 }
  iupdate ip
  let s ← get
  let inum := (s.inodes ip).inum
  if type = tDir then do
    modifyInode dp fun i => { i with nlink := toShort (i.nlink + 1) }
    iupdate dp
    let r ← dirLink ip dot inum
    panicIf (r < 0) "create: dots"
    let r ← dirLink ip dotDot (s.inodes dp).inum
    panicIf (r < 0) "create: dots"
  else pure ()
  let r ← dirLink dp name inum
  panicIf (r < 0) "create: cant belong to the dir"
  iunlock dp
  iput dp
  pure (some ip)

/-- The inode of `path`, locked. -/
def create (cwd : Slot) (path : List UInt8) (type major minor : Int) : FsM (Option Slot) := do
  match ← nameiParent cwd path with
  | none => pure none
  | some (dp, name) => do
    ilock dp
    match ← dirLookup dp name with
    | some (ip, _) => do
      iunlock dp
      iput dp
      ilock ip
      let s ← get
      if type = tFile ∧ (s.inodes ip).type = tFile then pure (some ip)
      else do
        iunlock ip
        iput ip
        pure none
    | none => createNew dp name type major minor

/-- `sys_mkdir` and `sys_mknod`: the created inode is released at once. -/
def mknod (cwd : Slot) (path : List UInt8) (type major minor : Int) : FsM Int := do
  match ← create cwd path type major minor with
  | none => pure (-1)
  | some ip => do
    iunlock ip
    iput ip
    pure 0

def isDirEmpty (dp : Slot) : FsM Bool := do
  let s ← get
  loop (fun off => do
    let s ← get
    if off < (s.inodes dp).size then do
      let r := (← readi dp off dirEntSize).getD []
      panicIf (r.length ≠ dirEntSize) "is_dir_empty: cannot read"
      if (DirEnt.ofBytes r).inum ≠ 0 then pure (.inr false)
      else pure (.inl (off + dirEntSize))
    else pure (.inr true)) ((s.inodes dp).size + 1) (2 * dirEntSize)

/-- Whether `sys_unlink` may remove the inode: a directory has to be empty. -/
def removable (ip : Slot) : FsM Bool := do
  let s ← get
  if (s.inodes ip).type = tDir then isDirEmpty ip else pure true

/-- The link of a removed directory to its parent goes with it. -/
def dropParentLink (dp ip : Slot) : FsM Unit := do
  let s ← get
  if (s.inodes ip).type = tDir then do
    modifyInode dp fun i => { i with nlink := toShort (i.nlink - 1) }
    iupdate dp
  else pure ()

/-- The branch of `sys_unlink` that removes the entry at `off`, from `writei` on. -/
def unlinkEntry (dp ip : Slot) (off : Nat) : FsM Int := do
  let r ← writei dp (fun _ => 0) off dirEntSize
  panicIf (r ≠ dirEntSize) "unlink: writei"
  dropParentLink dp ip
  iunlock dp
  iput dp
  modifyInode ip fun i => { i with nlink := toShort (i.nlink - 1) }
  iupdate ip
  iunlock ip
  iput ip
  pure 0

def unlink (cwd : Slot) (path : List UInt8) : FsM Int := do
  match ← nameiParent cwd path with
  | none => pure (-1)
  | some (dp, name) => do
    ilock dp
    if strncmp name dot dirsiz = 0 ∨ strncmp name dotDot dirsiz = 0 then do
      iunlock dp
      iput dp
      pure (-1)
    else
      match ← dirLookup dp name with
      | none => do
        iunlock dp
        iput dp
        pure (-1)
      | some (ip, off) => do
        ilock ip
        let s ← get
        panicIf ((s.inodes ip).nlink < 1) "unlink: nlink < 1"
        if (← removable ip) = false then do
          iunlock ip
          iput ip
          iunlock dp
          iput dp
          pure (-1)
        else unlinkEntry dp ip off

/-- `sys_chdir`: the new working directory, when `path` names a directory. -/
def chdir (cwd : Slot) (path : List UInt8) : FsM (Option Slot) := do
  match ← namei cwd path with
  | none => pure none
  | some ip => do
    ilock ip
    let s ← get
    if (s.inodes ip).type ≠ tDir then do
      iunlock ip
      iput ip
      pure none
    else do
      iunlock ip
      iput cwd
      pure (some ip)

end Xv6.Fs
