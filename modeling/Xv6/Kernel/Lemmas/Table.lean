import Mathlib.Data.Fintype.Prod
import Xv6.Kernel.Syscall
import Xv6.Fs.Lemmas.Quiet

/-!
# Reference counts of files and inodes

The count of a file is the number of descriptors that point to it, and the count of a cell of the inode
cache is the number of files and working directories that point to it. Inside a call there are also the
pointers in its local variables: `x` and `y` count those. The tables of descriptors and of working
directories are parameters, since a call may give up a pointer before it clears it.
-/

namespace Xv6.Kernel

open Xv6.Lib Xv6.Fs Xv6.Vm

/-- Where the descriptors point. -/
def fdsOf (procs : ProcId → Proc) : ProcId × Fin nofile → Option FileId := fun a => (procs a.1).ofile a.2

/-- The working directories. -/
def cwdsOf (procs : ProcId → Proc) : ProcId → Option Slot := fun p => (procs p).cwd

/-- The cell that a file points to. -/
def File.inode (f : File) : Option Slot := if f.type = .inode then some f.ip else none

def inodeOf (files : FileId → File) : FileId → Option Slot := fun f => (files f).inode

structure Table (files : FileId → File) (s : Fs.State) (fd : ProcId × Fin nofile → Option FileId)
    (cwd : ProcId → Option Slot) (x : FileId → Nat) (y : Slot → Nat) : Prop where
  file : ∀ f, (files f).ref = refs fd f + x f
  closed : ∀ f, (files f).ref = 0 → (files f).type = .none
  inode : ∀ ip, (s.cell ip).ref = refs (inodeOf files) ip + refs cwd ip + y ip
  off : ∀ f, (files f).off < 2 ^ 64
  writable : ∀ f ip, inodeOf files f = some ip → (files f).writable = true → (s.node (s.cell ip).inum).type ≠ tDir

/-- What the states of the processes say about their pointers between calls. -/
structure Lives (procs : ProcId → Proc) : Prop where
  known : ∀ p, (procs p).state = .unused ∨ (procs p).state = .runnable ∨ (procs p).state = .zombie
  cwd : ∀ p, (procs p).state = .runnable → (procs p).cwd ≠ none
  idle : ∀ p, (procs p).state ≠ .runnable → (procs p).cwd = none ∧ ∀ i, (procs p).ofile i = none

/-- The invariant of the states between calls, as far as files are concerned. -/
structure Inv (k : System) : Prop where
  quiet : Quiet k.fs
  table : Table k.files k.fs (fdsOf k.procs) (cwdsOf k.procs) 0 0
  lives : Lives k.procs

section

variable {files : FileId → File} {s s' : Fs.State} {fd : ProcId × Fin nofile → Option FileId}
  {cwd : ProcId → Option Slot} {x : FileId → Nat} {y e : Slot → Nat} {f : FileId} {ip : Slot}
  {a : ProcId × Fin nofile} {p : ProcId}

/-! ## The file system changes -/

theorem Table.ref_pos (h : Table files s fd cwd x y) (hf : inodeOf files f = some ip) : 0 < (s.cell ip).ref := by
  rw [h.inode]
  have := refs_pos hf
  omega

theorem Table.cwd_pos (h : Table files s fd cwd x y) (hp : cwd p = some ip) : 0 < (s.cell ip).ref := by
  rw [h.inode]
  have := refs_pos hp
  omega

theorem Table.file_pos (h : Table files s fd cwd x y) (ha : fd a = some f) : 0 < (files f).ref := by
  rw [h.file]
  have := refs_pos ha
  omega

theorem Table.held (h : Table files s fd cwd x y) (hh : Held s.cell s'.cell e)
    (hty : ∀ jp, 0 < (s.cell jp).ref → (s'.node (s.cell jp).inum).type = (s.node (s.cell jp).inum).type) :
    Table files s' fd cwd x (y + e) where
  file := h.file
  closed := h.closed
  inode ip := by
    rw [hh.ref, h.inode, Pi.add_apply]
    omega
  off := h.off
  writable f ip hf hw := by
    have hpos := h.ref_pos hf
    rw [hh.inum ip hpos, hty ip hpos]
    exact h.writable f ip hf hw

theorem Table.dropped (h : Table files s fd cwd x (y + one ip)) (hd : Dropped s ip s') :
    Table files s' fd cwd x y := by
  have href : ∀ jp, (s'.cell jp).ref = refs (inodeOf files) jp + refs cwd jp + y jp := by
    intro jp
    have h1 := hd.ref jp
    rw [h.inode, Pi.add_apply] at h1
    omega
  refine ⟨h.file, h.closed, href, h.off, fun f jp hf hw => ?_⟩
  have hpos : 0 < (s'.cell jp).ref := by
    rw [href]
    have := refs_pos hf
    omega
  rw [hd.stays jp hpos]
  exact h.writable f jp hf hw

/-! ## The file table changes -/

theorem inodeOf_upd (files : FileId → File) (f : FileId) (g : File) :
    inodeOf (upd files f g) = upd (inodeOf files) f g.inode := by
  funext f'
  exact map_upd File.inode files f g f'

/-- One entry of the file table changes. -/
theorem Table.replace {y' : Slot → Nat} {x' : FileId → Nat} (h : Table files s fd cwd x y) {g : File}
    (hself : g.ref = refs fd f + x' f) (hother : ∀ f', f' ≠ f → x' f' = x f')
    (hclosed : g.ref = 0 → g.type = .none) (hoff : g.off < 2 ^ 64)
    (hinode : ∀ jp, refs (inodeOf files) jp + y jp = refs (upd (inodeOf files) f g.inode) jp + y' jp)
    (hwritable : ∀ jp, g.inode = some jp → g.writable = true → (s.node (s.cell jp).inum).type ≠ tDir) :
    Table (upd files f g) s fd cwd x' y' := by
  refine ⟨fun f' => ?_, fun f' hf' => ?_, fun jp => ?_, fun f' => ?_, fun f' jp hf' hw => ?_⟩
  · by_cases hf : f' = f
    · rw [hf, upd_self, hself]
    · rw [upd_of_ne hf, hother f' hf, h.file]
  · by_cases hf : f' = f
    · rw [hf, upd_self] at hf' ⊢
      exact hclosed hf'
    · rw [upd_of_ne hf] at hf' ⊢
      exact h.closed f' hf'
  · have := hinode jp
    rw [inodeOf_upd, h.inode]
    omega
  · rw [upd_apply]
    split
    · exact hoff
    · exact h.off f'
  · rw [inodeOf_upd] at hf'
    by_cases hf : f' = f
    · rw [hf, upd_self] at hf' hw
      exact hwritable jp hf' hw
    · rw [upd_of_ne hf] at hf' hw
      exact h.writable f' jp hf' hw

/-- One entry of the file table changes, and points to the inode that it pointed to. -/
theorem Table.change {x' : FileId → Nat} (h : Table files s fd cwd x y) {g : File}
    (hself : g.ref = refs fd f + x' f) (hother : ∀ f', f' ≠ f → x' f' = x f')
    (hclosed : g.ref = 0 → g.type = .none) (hoff : g.off < 2 ^ 64) (hinode : g.inode = (files f).inode)
    (hw : g.inode ≠ none → g.writable = true → (files f).writable = true) :
    Table (upd files f g) s fd cwd x' y := by
  have heta : upd (inodeOf files) f g.inode = inodeOf files := by rw [hinode]; exact upd_eta _ f
  refine h.replace hself hother hclosed hoff (fun jp => by rw [heta]) fun jp hj hgw => ?_
  refine h.writable f jp (hinode.symm.trans hj) (hw ?_ hgw)
  rw [hj]
  exact Option.some_ne_none jp

/-- A free entry of the file table is taken. -/
theorem Table.alloc (h : Table files s fd cwd x y) (h0 : (files f).ref = 0) :
    Table (upd files f { files f with ref := 1 }) s fd cwd (x + one f) y := by
  refine h.change ?_ (fun f' hf => ?_) (fun h1 => absurd h1 Nat.one_ne_zero) (h.off f) rfl fun _ hw => hw
  · have := h.file f
    rw [Pi.add_apply, one_self]
    dsimp only
    omega
  · rw [Pi.add_apply, one_of_ne hf, add_zero]

theorem Table.dup (h : Table files s fd cwd x y) :
    Table (upd files f { files f with ref := (files f).ref + 1 }) s fd cwd (x + one f) y := by
  refine h.change ?_ (fun f' hf => ?_) (fun h1 => absurd h1 (Nat.succ_ne_zero _)) (h.off f) rfl fun _ hw => hw
  · rw [Pi.add_apply, one_self, h.file, add_assoc]
  · rw [Pi.add_apply, one_of_ne hf, add_zero]

theorem Table.undup (h : Table files s fd cwd (x + one f) y) (hpos : 0 < (files f).ref - 1) :
    Table (upd files f { files f with ref := (files f).ref - 1 }) s fd cwd x y := by
  refine h.change ?_ (fun f' hf => ?_) (fun h1 => absurd h1 (Nat.ne_of_gt hpos)) (h.off f) rfl fun _ hw => hw
  · rw [h.file, Pi.add_apply, one_self, ← add_assoc, Nat.add_sub_cancel]
  · rw [Pi.add_apply, one_of_ne hf, add_zero]

/-- The last pointer to a file goes: the file gives up its inode to the call. -/
theorem Table.close (h : Table files s fd cwd (x + one f) y) (hone : (files f).ref = 1) :
    Table (upd files f { files f with ref := 0, type := .none }) s fd cwd x
      (y + (files f).inode.elim 0 one) := by
  refine h.replace ?_ (fun f' hf => ?_) (fun _ => rfl) (h.off f) (fun jp => ?_) (fun jp hj => by cases hj)
  · have := h.file f
    rw [Pi.add_apply, one_self] at this
    dsimp only
    omega
  · rw [Pi.add_apply, one_of_ne hf, add_zero]
  · change _ = refs (upd (inodeOf files) f none) jp + _
    cases hi : inodeOf files f with
    | none =>
        rw [← hi, upd_eta, show (files f).inode = none from hi]
        rfl
    | some ip =>
        rw [refs_clear hi jp, show (files f).inode = some ip from hi]
        change _ = _ + (y jp + one ip jp)
        omega

/-- A file that was just taken becomes the file of an inode that the call holds. -/
theorem Table.openFile (h : Table files s fd cwd x (y + one ip)) (htype : (files f).type = .none)
    (hpos : 0 < (files f).ref) {r w : Bool} (hw : w = true → (s.node (s.cell ip).inum).type ≠ tDir) :
    Table (upd files f { files f with type := .inode, ip := ip, off := 0, readable := r, writable := w }) s fd cwd x
      y := by
  have hnone : inodeOf files f = none := if_neg (by rw [htype]; decide)
  refine h.replace (h.file f) (fun _ _ => rfl) (fun h0 => absurd h0 (Nat.ne_of_gt hpos)) (Nat.two_pow_pos 64)
    (fun jp => ?_) fun jp hj hgw => ?_
  · change _ = refs (upd (inodeOf files) f (some ip)) jp + y jp
    rw [refs_set hnone, Pi.add_apply]
    omega
  · cases hj
    exact hw hgw

/-- A file becomes an end of a pipe. -/
theorem Table.openPipe (h : Table files s fd cwd x y) (htype : (files f).type = .none)
    (hpos : 0 < (files f).ref) {r w : Bool} {q : Nat} :
    Table (upd files f { files f with type := .pipe, readable := r, writable := w, pipe := q }) s fd cwd x y := by
  have hnone : (files f).inode = none := if_neg (by rw [htype]; decide)
  exact h.change (h.file f) (fun _ _ => rfl) (fun h0 => absurd h0 (Nat.ne_of_gt hpos)) (h.off f) hnone.symm
    fun h0 => absurd rfl h0

/-- The offset of a file moves. -/
theorem Table.seek (h : Table files s fd cwd x y) {off : Nat} (hoff : off < 2 ^ 64) :
    Table (upd files f { files f with off := off }) s fd cwd x y :=
  h.change (h.file f) (fun _ _ => rfl) (h.closed f) hoff rfl fun _ hw => hw

/-! ## Pointers move -/

/-- A descriptor takes over a pointer of the call. -/
theorem Table.setFd (h : Table files s fd cwd (x + one f) y) (ha : fd a = none) :
    Table files s (upd fd a (some f)) cwd x y :=
  ⟨fun g => by rw [refs_set ha, h.file, Pi.add_apply]; omega, h.closed, h.inode, h.off, h.writable⟩

/-- The pointer of a descriptor goes to the call. -/
theorem Table.clearFd (h : Table files s fd cwd x y) (ha : fd a = some f) :
    Table files s (upd fd a none) cwd (x + one f) y :=
  ⟨fun g => by rw [h.file, refs_clear ha g, Pi.add_apply]; omega, h.closed, h.inode, h.off, h.writable⟩

theorem Table.setCwd (h : Table files s fd cwd x (y + one ip)) (hp : cwd p = none) :
    Table files s fd (upd cwd p (some ip)) x y :=
  ⟨h.file, h.closed, fun jp => by rw [refs_set hp, h.inode, Pi.add_apply]; omega, h.off, h.writable⟩

theorem Table.clearCwd (h : Table files s fd cwd x y) (hp : cwd p = some ip) :
    Table files s fd (upd cwd p none) x (y + one ip) :=
  ⟨h.file, h.closed, fun jp => by rw [h.inode, refs_clear hp jp, Pi.add_apply]; omega, h.off, h.writable⟩

end

end Xv6.Kernel
