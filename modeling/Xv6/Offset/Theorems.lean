import Xv6.Kernel.Lemmas.Lost
import Xv6.Offset.Lemmas.Calls

/-!
# Shared offsets: main results
-/

namespace Xv6.Offset

open Xv6.Lib Xv6.Fs Xv6.Kernel

theorem base_start {k₀ : System} {ip : Slot} (h : Kernel.Reachable k₀) (href : 0 < (k₀.fs.inodes ip).ref)
    (htype : (k₀.fs.node (k₀.fs.inodes ip).inum).type ≠ tDev) : Base k₀ ip k₀ :=
  ⟨h.inv.quiet.wf, href, htype, rfl, h.inv.table.off⟩

/-- Calls through the open files on an inode that is no device, from a state between system calls on and
interleaved in any way: whenever the lock of the inode is free, they took effect one by one. -/
theorem shared_offset {k₀ : System} {ip : Slot} {s : State} (h₀ : Kernel.Reachable k₀)
    (href : 0 < (k₀.fs.inodes ip).ref) (htype : (k₀.fs.node (k₀.fs.inodes ip).inum).type ≠ tDev)
    (h : (machine k₀ ip).Reachable s) (hfree : (s.sys.fs.inodes ip).locked = false) :
    OneByOne (mode k₀) (cursor ip k₀) s.log (cursor ip s.sys) :=
  ((Inv.reachable (base_start h₀ href htype) h).settled hfree).oneByOne

/-- `open("/f", O_CREATE | O_RDWR)` and `fork`: the two processes share the file of descriptor 0. -/
def sharedCalls : List (ProcId × Call) := [(initId, .open [47, 102] (oCreate ||| oRdwr)), (initId, .fork)]


theorem nfile_pos : 0 < nfile := by decide

def sharedFile : FileId := ⟨0, nfile_pos⟩

theorem length_two : [97, 98].length < 2 ^ 64 := by decide

def writeTwo : Op := .write ⟨[97, 98], length_two⟩

/-- The parent calls first and the child gets the lock first. -/
def sharedRun : List Action :=
  [.call initId 0 writeTwo, .call childId 0 writeTwo, .run childId, .run childId, .run childId,
    .run childId, .run initId, .run initId, .run initId, .run initId]

/-- Two processes write two bytes each, and the offset is then 4. -/
theorem shared_offset_fork : ∃ (k₀ : System) (ip : Slot) (s : State),
    OneByOne (mode k₀) (cursor ip k₀) s.log (cursor ip s.sys) ∧ s.log.length = 2 ∧
    (k₀.files sharedFile).off = 0 ∧ (s.sys.files sharedFile).off = 4 := by
  have hrun : (runCalls sharedCalls smallSystem).any (fun k =>
      decide (0 < (k.fs.inodes (k.files sharedFile).ip).ref ∧
        (k.fs.node (k.fs.inodes (k.files sharedFile).ip).inum).type ≠ tDev ∧ (k.files sharedFile).off = 0) &&
      ((machine k (k.files sharedFile).ip).run sharedRun ⟨k, fun _ => .user, []⟩).any fun s =>
        decide ((s.sys.fs.inodes (k.files sharedFile).ip).locked = false ∧ s.log.length = 2 ∧
          (s.sys.files sharedFile).off = 4)) = true := by
    decide +kernel
  obtain ⟨k, hk, h⟩ := reachable_small.of_any hrun
  obtain ⟨hk', hs⟩ := (Bool.and_eq_true _ _).mp h
  obtain ⟨href, htype, hoff⟩ := of_decide_eq_true hk'
  obtain ⟨s, hr, hs⟩ := Machine.Reachable.of_run (M := machine k (k.files sharedFile).ip) (.start rfl) hs
  obtain ⟨hfree, hlen, hoff'⟩ := of_decide_eq_true hs
  exact ⟨k, _, s, shared_offset hk href htype hr hfree, hlen, hoff, hoff'⟩

end Xv6.Offset
