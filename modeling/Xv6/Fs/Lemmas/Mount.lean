import Xv6.Fs.Lemmas.Image

/-!
# The kernel mounts the image

With an empty inode cache over the image of `mkfs` the kernel starts in a quiet state, and finds the packed
files with their contents.
-/

namespace Xv6.Fs

open Xv6.Lib Xv6.Mkfs

section

variable {host : Host} {disk : Nat → Bytes} {N : Nat → Node} {console : Nat → Option (List UInt8)}

theorem node_mount (h : IsImage host disk N) (console : Nat → Option (List UInt8)) :
    (State.mount disk console).node = N := by
  funext i
  show nodeOf disk (dinodeOf (getSb (disk 1)) disk i) = N i
  rw [h.sb, h.node]

theorem not_crowded_mount : ¬ Crowded (State.mount disk console).cell := by
  rintro ⟨ip, h⟩
  have hne : ∀ ip : Slot, ∃ jp, jp ≠ ip := by decide
  obtain ⟨jp, hj⟩ := hne ip
  exact absurd (h jp hj) (lt_irrefl 0)

theorem quiet_mount (h : IsImage host disk N) : Quiet (State.mount disk console) where
  wf := {
    sb := h.sb
    disk := h.wf
    cache := ⟨fun ip h0 => absurd h0 (lt_irrefl 0), fun ip jp h0 => absurd h0 (lt_irrefl 0), fun _ _ => rfl⟩ }
  tree := by
    rw [node_mount h console]
    exact h.flat.tree
  noLost := by
    rw [node_mount h console]
    exact fun i hi hn => absurd hn (h.flat.nlink_ne hi)
  unlocked := rfl
  alive ip h0 := absurd h0 (lt_irrefl 0)

/-- `namei`, and `readi` of the whole file under the lock of the inode. -/
def readFile (cwd : Slot) (path : List UInt8) : FsM (Option (List UInt8)) := do
  match ← namei cwd path with
  | none => pure none
  | some ip => do
    ilock ip
    let s ← get
    readi ip 0 (s.inodes ip).size

/-- An absolute path of one element leads to what the root binds its name to. -/
theorem resolve_root {cwd x : Nat} {path name : List UInt8} (hroot : (N 1).type = tDir)
    (habs : (cstr path).headD 0 = slash) (hskip : skipElem (cstr path) = some (some name, []))
    (hb : binding N 1 name = some x) : resolve N cwd path false = some (x, name) := by
  obtain ⟨k, hk, rfl⟩ := Option.map_eq_some_iff.mp hb
  rw [resolve, if_pos habs, show rootino = 1 from rfl, walk_some hskip, if_neg (not_not.mpr hroot),
    if_neg (by simp), hk]
  exact walk_none rfl

/-- In a quiet state with room in the cache, a file is read by its absolute path name. -/
theorem readFile_spec {s : State} {cwd : Slot} {path name : List UInt8} {x : Nat} (hq : Quiet s)
    (hroom : ¬ Crowded s.cell) (hdang : ¬ Dangling s.node) (hrun : ¬ Runaway (cstr path))
    (habs : (cstr path).headD 0 = slash) (hres : resolve s.node (s.cell cwd).inum path false = some (x, name))
    (htype : (s.node x).type = tFile) :
    Wp (readFile cwd path) (fun r t => r = some (s.node x).data ∧ t.node = s.node) (fun _ => False) s := by
  unfold readFile namei
  have hnamex : Wp (namex cwd path false) _ _ s :=
    namex_spec hq.wf hq.tree hq.noLost hq.unlocked path false fun h => absurd habs h
  rw [hres] at hnamex
  simp only [bind_assoc, pure_bind]
  refine Wp.seq hnamex ?_ ?_
  · rintro _ (⟨_, h⟩ | ⟨_, h⟩ | ⟨_, h⟩)
    · exact hroom h
    · exact hdang h
    · exact hrun h
  · rintro r t ⟨ip, rfl, h, hi, _⟩
    refine h.lockNode (h.ref_pos (by simp)) rfl hi (fun h0 => absurd (h0.symm.trans htype) (by decide)) ?_
    intro t1 h1 hkeep hval _
    have href : 0 < (t1.cell ip).ref := h1.ref_pos (by simp)
    have hi1 : (t1.cell ip).inum = x := (hkeep ip).1.trans hi
    have hnode : t1.view.nodeAt ip = s.node x := h1.nodeAt_eq hi1
    have hsize : (t1.inodes ip).size = (s.node x).data.length := by
      rw [h1.wf.size_eq href hval, hnode]
    have hle : (s.node x).data.length ≤ 525 * 4096 := (nodeOf_size _ _).trans_le (hq.wf.size_le x)
    rw [wp_bind, wp_get, hsize]
    refine (readi_view h1.wf href hval (by rw [hnode, htype]; decide) (by decide) (by omega)).post ?_
    rintro r t2 ⟨rfl, rfl⟩
    refine ⟨?_, h1.node⟩
    rw [hnode, if_neg (by omega), List.drop_zero, List.take_length]

end

end Xv6.Fs
