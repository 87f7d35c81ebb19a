import Xv6.Kernel.Lemmas.Memory

/-!
# The memory under the calls on files

Most calls leave the memory, the ends of the pipes and what the processes have of the memory as they are. Pipes are made
by `pipe_alloc`, and go when their last end is closed.
-/

namespace Xv6.Kernel

open Xv6.Lib Xv6.Fs Xv6.Vm

/-- What a process has of the memory, and whether it is there and has not ended. -/
def Proc.share (x : Proc) : Bool × Bool × Option Nat × Option Nat × Nat :=
  (x.state = .unused, x.state = .zombie, x.pml4, x.kstack, x.sz)

/-- Nothing changes as far as the memory is concerned. -/
structure Untouched (k k' : System) : Prop where
  mem : k'.mem = k.mem
  ends : endsOf k'.files = endsOf k.files
  isOpen : ∀ q w, (k'.pipes q).isOpen w = (k.pipes q).isOpen w
  share : ∀ p, (k'.procs p).share = (k.procs p).share

section

variable {O : Nat → Use Owner} {r t : ProcId → Option Nat} {ends : FileId → Option (Nat × Bool × Bool)}
    {pipes pipes' : Nat → Pipe}
  {m : Mem} {k k₁ k' : System} {α β ι : Type} {f : FileId} {p : ProcId} {q : Nat}

theorem Untouched.refl (k : System) : Untouched k k := ⟨rfl, rfl, fun _ _ => rfl, fun _ => rfl⟩

theorem Untouched.trans (h : Untouched k k₁) (h' : Untouched k₁ k') : Untouched k k' :=
  ⟨h'.mem.trans h.mem, h'.ends.trans h.ends, fun q w => (h'.isOpen q w).trans (h.isOpen q w),
    fun p => (h'.share p).trans (h.share p)⟩

/-! ## What the invariant depends on -/

theorem share_eq {x y : Proc} (h : x.share = y.share) :
    (x.state = .unused ↔ y.state = .unused) ∧ (x.state = .zombie ↔ y.state = .zombie) ∧ x.pml4 = y.pml4 ∧
    x.kstack = y.kstack ∧ x.sz = y.sz := by
  simpa only [Proc.share, Prod.mk.injEq, decide_eq_decide] using h

theorem share_root {x y : Proc} (h : x.share = y.share) : x.root = y.root := by
  obtain ⟨h1, -, h2, -, -⟩ := share_eq h
  simp only [Proc.root, h1, h2]

theorem share_stack {x y : Proc} (h : x.share = y.share) : x.stack = y.stack := by
  obtain ⟨h1, -, -, h2, -⟩ := share_eq h
  simp only [Proc.stack, h1, h2]

theorem share_whole {x y : Proc} (h : x.share = y.share) (hy : y.Whole) : x.Whole :=
  ⟨by rw [share_root h]; exact hy.root, by rw [share_stack h]; exact hy.stack,
    by rw [(share_eq h).2.2.2.2]; exact hy.size⟩

theorem Pipes.flags (h : Pipes O ends pipes) (hp : ∀ q w, (pipes' q).isOpen w = (pipes q).isOpen w) :
    Pipes O ends pipes' :=
  ⟨h.frame, h.mode, h.one, fun w h0 => by rw [hp, h.isOpen w h0]⟩

theorem Owned.untouched (h : Owned O r t (endsOf k.files) k.pipes k.mem) (hu : Untouched k k') :
    Owned O r t (endsOf k'.files) k'.pipes k'.mem := by
  rw [hu.mem, hu.ends]
  exact ⟨h.frames, h.kern, h.held, h.owns, h.pipes.flags hu.isOpen⟩

theorem MemInv.untouched (h : MemInv O k) (hu : Untouched k k') : MemInv O k' := by
  have hroot : rootOf k'.procs = rootOf k.procs := funext fun p => share_root (hu.share p)
  have hstack : stackOf k'.procs = stackOf k.procs := funext fun p => share_stack (hu.share p)
  refine ⟨?_, fun p hp => share_whole (hu.share p) (h.whole p fun h0 => hp ((share_eq (hu.share p)).1.mpr h0))⟩
  rw [hroot, hstack]
  exact h.owned.untouched hu

/-! ## Programs that do not concern the memory -/

/-- The program leaves everything as it is, as far as the memory is concerned. -/
def Apart (x : KernelM α) : Prop := ∀ k, Wp x (fun _ k' => Untouched k k') (fun _ => True) k

theorem Apart.pure (a : α) : Apart (pure a : KernelM α) := fun k => Untouched.refl k

theorem Apart.throw (e : Halt) : Apart (throw e : KernelM α) := fun _ => trivial

theorem Apart.bind {x : KernelM α} {g : α → KernelM β} (hx : Apart x) (hg : ∀ a, Apart (g a)) :
    Apart (x >>= g) := fun k =>
  Wp.bind (hx k) fun a k₁ h₁ => (hg a k₁).post fun _ _ h' => h₁.trans h'

theorem Apart.get {g : System → KernelM α} (hg : ∀ k, Apart (g k)) : Apart (get >>= g) :=
  Apart.bind (fun k => Untouched.refl k) hg

theorem Apart.ite {c : Prop} [Decidable c] {x y : KernelM α} (hx : c → Apart x) (hy : ¬ c → Apart y) :
    Apart (if c then x else y) := by
  split
  · exact hx ‹_›
  · exact hy ‹_›

theorem Apart.panicIf (c : Prop) [Decidable c] (msg : String) : Apart (panicIf c msg : KernelM Unit) := fun k => by
  rw [wp_panicIf]
  exact ⟨fun _ => trivial, fun _ => Untouched.refl k⟩

theorem Apart.loop {body : ι → KernelM (ι ⊕ α)} (hbody : ∀ i, Apart (body i)) (fuel : Nat) (i : ι) :
    Apart (loop body fuel i) := fun k => by
  refine wp_loop_or trivial (fun _ k' => Untouched k k') (fun i k₁ h₁ => ?_) fuel i k (Untouched.refl k)
  refine (hbody i k₁).post ?_
  rintro (i' | a) k' h'
  · exact h₁.trans h'
  · exact h₁.trans h'

theorem Apart.each {g : ι → KernelM Unit} (hg : ∀ i, Apart (g i)) (l : List ι) : Apart (each l g) := fun k =>
  wp_each (fun _ k' => Untouched k k') (fun i _ k₁ h₁ => (hg i k₁).post fun _ _ h' => h₁.trans h') l k
    (Untouched.refl k)

theorem Apart.onFs (x : FsM α) : Apart (onFs x) := fun k => by
  unfold Kernel.onFs
  rw [wp_on]
  exact Wp.of_forall_ok (fun _ s _ => ⟨rfl, rfl, fun _ _ => rfl, fun _ => rfl⟩) fun _ => trivial

theorem endsOf_upd (files : FileId → File) (f : FileId) (g : File) :
    endsOf (upd files f g) = upd (endsOf files) f g.pipeEnd :=
  funext fun f' => map_upd File.pipeEnd files f g f'

theorem untouched_file {x : File} (h : x.pipeEnd = (k.files f).pipeEnd) :
    Untouched k { k with files := upd k.files f x } := by
  refine ⟨rfl, ?_, fun _ _ => rfl, fun _ => rfl⟩
  rw [endsOf_upd, h]
  exact upd_eta (endsOf k.files) f

theorem untouched_proc {x : Proc} (h : x.share = (k.procs p).share) :
    Untouched k { k with procs := upd k.procs p x } := by
  refine ⟨rfl, rfl, fun _ _ => rfl, fun p' => ?_⟩
  dsimp only
  rw [upd_apply]
  split
  · rw [h, ‹p' = p›]
  · rfl

theorem Apart.modifyFile {g : File → File} (hg : ∀ x, (g x).pipeEnd = x.pipeEnd) (f : FileId) :
    Apart (modifyFile f g) := fun _ =>
  untouched_file (hg _)

theorem Apart.modifyProc {g : Proc → Proc} (hg : ∀ x, (g x).share = x.share) (p : ProcId) :
    Apart (modifyProc p g) := fun _ =>
  untouched_proc (hg _)

theorem Apart.modifyPipe {g : Pipe → Pipe} (hg : ∀ x w, (g x).isOpen w = x.isOpen w) (q : Nat) :
    Apart (modifyPipe q g) := fun k => by
  refine ⟨rfl, rfl, fun q' w => ?_, fun _ => rfl⟩
  show (upd k.pipes q _ q').isOpen w = _
  rw [upd_apply]
  split
  · rw [hg, ‹q' = q›]
  · rfl

/-! ## Files -/

theorem fileDup_apart (f : FileId) : Apart (fileDup f) :=
  .get fun _ => .bind (.panicIf _ _) fun _ => .modifyFile (by intro; rfl) _

theorem pipeWrite_apart (q : Nat) (killed : Bool) (addr : List UInt8) : Apart (pipeWrite q killed addr) := by
  refine .loop (fun l => ?_) _ _
  cases l with
  | nil => exact .pure _
  | cons c l =>
      refine .get fun k => .ite (fun _ => .ite (fun _ => .pure _) fun _ => .throw _) fun _ => ?_
      exact .bind (.modifyPipe (by intro _ _; rfl) _) fun _ => .pure _

theorem pipeRead_apart (q : Nat) (killed : Bool) (n : Nat) : Apart (pipeRead q killed n) :=
  .get fun _ => .ite (fun _ => .ite (fun _ => .pure _) fun _ => .throw _) fun _ =>
    .bind (.modifyPipe (by intro _ _; rfl) _) fun _ => .pure _

theorem fileStat_apart (f : FileId) : Apart (fileStat f) := by
  refine .get fun k => ?_
  dsimp only
  split
  · exact .bind (.onFs _) fun _ => .get fun _ => .bind (.onFs _) fun _ => .pure _
  · exact .pure _

theorem fileRead_apart (f : FileId) (killed : Bool) (n : Nat) : Apart (fileRead f killed n) := by
  refine .get fun k => .ite (fun _ => .pure _) fun _ => ?_
  split
  · exact .bind (pipeRead_apart _ _ _) fun _ => .pure _
  · exact .bind (.onFs _) fun _ => .get fun _ => .bind (.onFs _) fun _ => .bind (.modifyFile (by intro; rfl) _) fun _ =>
      .bind (.onFs _) fun _ => .pure _
  · exact .throw _

theorem fileWrite_apart (f : FileId) (killed : Bool) (addr : List UInt8) : Apart (fileWrite f killed addr) := by
  refine .get fun k => .ite (fun _ => .pure _) fun _ => ?_
  split
  · exact pipeWrite_apart _ _ _
  · exact .bind (.onFs _) fun _ => .get fun _ => .bind (.onFs _) fun _ => .bind (.modifyFile (by intro; rfl) _) fun _ =>
      .bind (.onFs _) fun _ => .pure _
  · exact .throw _

theorem fdAlloc_apart (p : ProcId) (f : FileId) : Apart (fdAlloc p f) := by
  refine .get fun k => ?_
  split
  · exact .pure _
  · exact .bind (.modifyProc (by intro; rfl) _) fun _ => .pure _

theorem cwdOf_apart (p : ProcId) : Apart (cwdOf p) := by
  refine .get fun k => ?_
  split
  · exact .throw _
  · exact .pure _

/-! ## Calls that do not concern the memory -/

theorem sysDup_apart (p : ProcId) (fd : Int) : Apart (sysDup p fd) := by
  refine .get fun k => ?_
  split
  · exact .pure _
  · refine .bind (fdAlloc_apart _ _) fun r => ?_
    cases r with
    | none => exact .pure _
    | some i => exact .bind (fileDup_apart _) fun _ => .pure _

theorem sysWrite_apart (p : ProcId) (fd : Int) (data : List UInt8) : Apart (sysWrite p fd data) := by
  refine .get fun k => ?_
  split
  · exact .pure _
  · exact fileWrite_apart _ _ _

theorem sysChdir_apart (p : ProcId) (path : List UInt8) : Apart (sysChdir p path) := by
  refine .bind (cwdOf_apart p) fun _ => .bind (.onFs _) fun r => ?_
  cases r with
  | none => exact .pure _
  | some ip => exact .bind (.modifyProc (by intro; rfl) _) fun _ => .pure _

/-- The calls that only work on the file system. -/
theorem fsCall_apart (p : ProcId) (x : Slot → FsM Int) : Apart (do onFs (x (← cwdOf p))) :=
  .bind (cwdOf_apart p) fun _ => .onFs _

theorem kill_apart (pid : Nat) : Apart (kill pid) := by
  refine .get fun k => ?_
  split
  · exact .pure _
  · refine .bind (.modifyProc (fun x => ?_) _) fun _ => .pure _
    simp only [Proc.share, Prod.mk.injEq, and_true, decide_eq_decide]
    split
    · rename_i hs
      rw [hs]
      simp
    · exact ⟨Iff.rfl, Iff.rfl⟩

/-! ## Closing files -/

theorem kfree_kept {o : Owner} (h : Frames lower O k.mem) (hq : O q = .kept o) :
    Wp (onMem (kfree q)) (fun _ k' => ∃ mem, k' = { k with mem := mem } ∧ Changed q .free O k.mem mem)
      (fun _ => False) k := by
  unfold onMem
  rw [wp_on]
  refine (kfree_spec h (by rw [hq]; exact Use.loose_kept o)).post ?_
  rintro _ mem ⟨hframes, hs⟩
  refine ⟨mem, rfl, hframes, hs, ?_, ?_, ?_, ?_⟩
  · rw [hq]
    rintro ⟨⟩
  · intro f e k
    rw [hq]
    rintro ⟨⟩
  · rintro f e k ⟨⟩
  · rintro ⟨⟩

/-- The pipes after a flag of one of them is cleared. -/
def closePipe (pipes : Nat → Pipe) (q : Nat) (w : Bool) : Nat → Pipe :=
  upd pipes q (if w then { pipes q with writeOpen := false } else { pipes q with readOpen := false })

theorem closes_closePipe (pipes : Nat → Pipe) (q : Nat) (w : Bool) : Closes q w pipes (closePipe pipes q w) := by
  refine ⟨?_, fun q' w' hne => ?_⟩
  · rw [closePipe, upd_self]
    cases w <;> rfl
  · rw [closePipe, upd_apply]
    split
    · rename_i hq
      rw [not_eq_of_ne (hne hq), hq]
      cases w <;> rfl
    · rfl

theorem isOpen_iff (x : Pipe) (w : Bool) : x.readOpen = false ∧ x.writeOpen = false ↔ x.isOpen w = false ∧
    x.isOpen (!w) = false := by
  cases w
  · rfl
  · exact and_comm

/-- An end of a pipe is closed. The pipe goes with its last end. -/
theorem pipeClose_mem {rd w : Bool} (h : Owned O r t ends k.pipes k.mem) (hf : ends f = some (q, rd, w)) :
    Wp (pipeClose q w) (fun _ k' => ∃ mem pipes O', k' = { k with mem := mem, pipes := pipes } ∧
      SameSpaces r k.mem mem ∧ Owned O' r t (upd ends f none) pipes mem) (fun _ => False) k := by
  have hq : O q = .kept .pipe := (h.pipes.frame q).mpr ⟨f, rd, w, hf⟩
  have hcloses := closes_closePipe k.pipes q w
  have hsteps : pipeClose q w = (do
      modify fun k : System => { k with pipes := closePipe k.pipes q w }
      let k ← get
      if (k.pipes q).readOpen = false ∧ (k.pipes q).writeOpen = false then onMem (kfree q) else pure ()) := by
    cases w <;> rfl
  rw [hsteps, wp_bind, wp_modify, wp_bind, wp_get, wp_ite, isOpen_iff _ w]
  have hopen : (closePipe k.pipes q w q).isOpen (!w) = (k.pipes q).isOpen (!w) := hcloses.other q _ fun _ => by simp
  refine ⟨fun hlast => ?_, fun hone => ⟨k.mem, _, O, rfl, SameSpaces.refl r _, h.frames, h.kern, h.held, h.owns, ?_⟩⟩
  · refine (kfree_kept (k := { k with pipes := closePipe k.pipes q w }) h.frames hq).post ?_
    rintro _ _ ⟨mem, rfl, hc⟩
    refine ⟨mem, _, _, rfl, h.same_changed hc, h.setPipe hc (fun p => ⟨by rw [hq]; rintro ⟨⟩, by rintro ⟨⟩⟩) ?_⟩
    exact h.pipes.closeLast hf hcloses (hopen.symm.trans hlast.2)
  · refine h.pipes.closeOne hf hcloses ?_
    rw [← hopen]
    exact Bool.eq_true_of_not_eq_false fun h0 => hone ⟨hcloses.self, h0⟩

/-- The processes have what they had, and the spaces of the table `r` stay as they are. The frames have owners again. -/
structure Leaves (r t : ProcId → Option Nat) (k k' : System) : Prop where
  share : ∀ p, (k'.procs p).share = (k.procs p).share
  same : SameSpaces r k.mem k'.mem
  owned : ∃ O', Owned O' r t (endsOf k'.files) k'.pipes k'.mem

theorem Leaves.trans (h : Leaves r t k k₁) (h' : Leaves r t k₁ k') : Leaves r t k k' :=
  ⟨fun p => (h'.share p).trans (h.share p), h.same.trans h'.same, h'.owned⟩

theorem Untouched.leaves (hu : Untouched k k') (h : ∃ O, Owned O r t (endsOf k.files) k.pipes k.mem) :
    Leaves r t k k' := by
  obtain ⟨O, h⟩ := h
  exact ⟨hu.share, by rw [hu.mem]; exact SameSpaces.refl r _, O, h.untouched hu⟩

theorem fileClose_mem (h : Owned O r t (endsOf k.files) k.pipes k.mem) (f : FileId) :
    Wp (fileClose f) (fun _ k' => Leaves r t k k') (fun _ => True) k := by
  unfold fileClose
  rw [wp_bind, wp_get]
  dsimp only
  rw [wp_bind, wp_panicIf]
  refine ⟨fun _ => trivial, fun _ => ?_⟩
  rw [wp_ite]
  refine ⟨fun _ => (untouched_file (x := { k.files f with ref := (k.files f).ref - 1 }) rfl).leaves ⟨O, h⟩, fun _ => ?_⟩
  rw [wp_bind, modifyFile, wp_modify]
  have hends : endsOf (upd k.files f { k.files f with ref := 0, type := .none }) = upd (endsOf k.files) f none :=
    endsOf_upd _ _ _
  -- a file that is no end of a pipe goes without a trace
  have hgone : (k.files f).pipeEnd = none →
    Untouched k { k with files := upd k.files f { k.files f with ref := 0, type := .none } } :=
    fun h0 => untouched_file h0.symm
  cases htype : (k.files f).type with
  | pipe =>
      have hf : endsOf k.files f = some ((k.files f).pipe, (k.files f).readable, (k.files f).writable) := if_pos htype
      refine (pipeClose_mem (k := { k with files := upd k.files f { k.files f with ref := 0, type := .none } }) h
        hf).mono ?_ fun _ _ => trivial
      rintro _ _ ⟨mem, pipes, O', rfl, hs, h'⟩
      refine ⟨fun _ => rfl, hs, O', ?_⟩
      dsimp only
      rw [hends]
      exact h'
  | inode =>
      have hu := hgone (if_neg (by rw [htype]; rintro ⟨⟩))
      rw [onFs, wp_on]
      refine Wp.of_forall_ok (fun _ s _ => ?_) fun _ => trivial
      exact Untouched.leaves (hu.trans ⟨rfl, rfl, fun _ _ => rfl, fun _ => rfl⟩) ⟨O, h⟩
  | none => exact (hgone (if_neg (by rw [htype]; rintro ⟨⟩))).leaves ⟨O, h⟩

/-! ## The calls on files -/

/-- A process that runs, or will. -/
def Proc.Alive (x : Proc) : Prop := x.state ≠ .unused ∧ x.state ≠ .zombie

/-- The living processes with the property `A` keep what they have of the memory, and their pages. -/
def Keeps (A : ProcId → Prop) (k k' : System) : Prop := ∀ q, A q → (k.procs q).Alive →
  (k'.procs q).share = (k.procs q).share ∧ ∀ f, (k.procs q).pml4 = some f →
    ∀ v < userPages, k'.mem.page f v = k.mem.page f v

/-- The frames have owners, and the processes with the property `A` keep their memory. -/
def Safe (A : ProcId → Prop) (k k' : System) : Prop := (∃ O', MemInv O' k') ∧ Keeps A k k'

/-- A call of the process `p` that changes nothing in the memory of those with the property `A`. -/
def KeepsMem (p : ProcId) (A : ProcId → Prop) (x : KernelM α) : Prop :=
  ∀ k O, Inv k → (k.procs p).state = .runnable → MemInv O k → Wp x (fun _ k' => Safe A k k') (fun _ => True) k

variable {A : ProcId → Prop}

theorem Keeps.of_share (hshare : ∀ q, A q → (k.procs q).Alive → (k'.procs q).share = (k.procs q).share)
    (hs : ∀ q f, A q → (k.procs q).Alive → (k.procs q).root = some f →
      ∀ v < userPages, k'.mem.page f v = k.mem.page f v) : Keeps A k k' :=
  fun q hq ha => ⟨hshare q hq ha, fun f hf => hs q f hq ha (by rw [Proc.root, if_neg ha.1, hf])⟩

/-- The processes have what they had. -/
theorem MemInv.of_owned (h : MemInv O k) {O' : Nat → Use Owner} (hshare : ∀ p, (k'.procs p).share = (k.procs p).share)
    (ho : Owned O' (rootOf k.procs) (stackOf k.procs) (endsOf k'.files) k'.pipes k'.mem) : MemInv O' k' := by
  have hroot : rootOf k'.procs = rootOf k.procs := funext fun p => share_root (hshare p)
  have hstack : stackOf k'.procs = stackOf k.procs := funext fun p => share_stack (hshare p)
  refine ⟨by rw [hroot, hstack]; exact ho, fun p hp => share_whole (hshare p) (h.whole p fun h0 => hp ?_)⟩
  exact (share_eq (hshare p)).1.mpr h0

theorem MemInv.safe (h : MemInv O k) (hshare : ∀ p, (k'.procs p).share = (k.procs p).share)
    (hs : SameSpaces (rootOf k.procs) k.mem k'.mem)
    (ho : ∃ O', Owned O' (rootOf k.procs) (stackOf k.procs) (endsOf k'.files) k'.pipes k'.mem) (A : ProcId → Prop) :
    Safe A k k' := by
  obtain ⟨O', ho⟩ := ho
  exact ⟨⟨O', h.of_owned hshare ho⟩, .of_share (fun q _ _ => hshare q) fun q f _ _ hf => hs q f hf⟩

theorem Untouched.safe (hu : Untouched k k') (h : MemInv O k) (A : ProcId → Prop) : Safe A k k' := by
  refine ⟨⟨O, h.untouched hu⟩, .of_share (fun q _ _ => hu.share q) fun q f _ _ _ v _ => ?_⟩
  rw [hu.mem]

theorem Keeps.trans (h : Keeps A k k₁) (h' : Keeps A k₁ k') : Keeps A k k' := fun q hq ha => by
  obtain ⟨hshare, hpage⟩ := h q hq ha
  obtain ⟨h1, h2, h3, -⟩ := share_eq hshare
  obtain ⟨hshare', hpage'⟩ := h' q hq ⟨mt h1.mp ha.1, mt h2.mp ha.2⟩
  exact ⟨hshare'.trans hshare, fun f hf v hv => (hpage' f (h3.trans hf) v hv).trans (hpage f hf v hv)⟩

theorem Leaves.safe (hl : Leaves (rootOf k.procs) (stackOf k.procs) k k') (h : MemInv O k)
    (A : ProcId → Prop) : Safe A k k' :=
  h.safe hl.share hl.same hl.owned A

theorem Apart.keepsMem {x : KernelM α} (h : Apart x) (p : ProcId) (A : ProcId → Prop) :
    KeepsMem p A x := fun k _ _ _ hm =>
  (h k).post fun _ _ hu => hu.safe hm A

theorem sysClose_mem (p : ProcId) (fd : Int) : KeepsMem p A (sysClose p fd) := by
  intro k O _ _ hm
  unfold sysClose
  rw [wp_bind, wp_get]
  split
  · exact (Untouched.refl k).safe hm A
  · rename_i i f _
    rw [wp_bind, modifyProc, wp_modify]
    have hu := untouched_proc (k := k) (p := p) (x := { k.procs p with ofile := upd (k.procs p).ofile i none }) rfl
    refine Wp.bind (fileClose_mem (hm.owned.untouched hu) _) ?_
    rintro _ k' hl
    exact ((hu.leaves ⟨O, hm.owned⟩).trans hl).safe hm A

theorem openBad_apart (ip : Slot) : Apart (openBad ip) := .bind (.onFs _) fun _ => .bind (.onFs _) fun _ => .pure _

theorem sysOpen_mem (p : ProcId) (path : List UInt8) (omode : Nat) : KeepsMem p A (sysOpen p path omode) := by
  intro k O hinv hp hm
  unfold sysOpen
  refine Wp.seq (cwdOf_spec hinv hp) (fun _ _ => trivial) ?_
  rintro cwd k ⟨rfl, -, -⟩
  rw [wp_bind, onFs, wp_on]
  refine Wp.of_forall_ok (fun r s _ => ?_) fun _ => trivial
  have hfs : Untouched k { k with fs := s } := ⟨rfl, rfl, fun _ _ => rfl, fun _ => rfl⟩
  cases r with
  | none => exact hfs.safe hm A
  | some ip =>
      refine Wp.seq fileAlloc_spec (fun _ _ => trivial) fun r k₁ h₁ => ?_
      cases r with
      | none =>
          subst h₁
          exact (openBad_apart ip _).post fun _ _ hu => (hfs.trans hu).safe hm A
      | some f =>
          obtain ⟨href, rfl⟩ := h₁
          have hnone : (k.files f).pipeEnd = none := if_neg (by rw [hinv.table.closed f href]; rintro ⟨⟩)
          have h₁ := hfs.trans (untouched_file (k := { k with fs := s }) (f := f)
            (x := { k.files f with ref := 1 }) rfl)
          refine Wp.seq (fdAlloc_spec p f) (fun _ _ => trivial) fun r k₂ h₂ => ?_
          cases r with
          | none =>
              subst h₂
              refine Wp.bind (fileClose_mem (hm.owned.untouched h₁) f) fun _ k₃ hl => ?_
              exact (openBad_apart ip _).post fun _ _ hu =>
                (((h₁.leaves ⟨O, hm.owned⟩).trans hl).trans (hu.leaves hl.owned)).safe hm A
          | some i =>
              obtain ⟨-, rfl⟩ := h₂
              dsimp only
              have h₂ := h₁.trans (untouched_proc (p := p)
                (x := { k.procs p with ofile := upd (k.procs p).ofile i (some f) }) rfl)
              rw [wp_bind, onFs, wp_on]
              refine Wp.of_forall_ok (fun _ s' _ => ?_) fun _ => trivial
              rw [wp_bind, modifyFile, wp_modify, wp_pure]
              refine Untouched.safe ?_ hm A
              refine ⟨rfl, ?_, fun _ _ => rfl, h₂.share⟩
              dsimp only
              rw [upd_upd, endsOf_upd]
              exact (congrArg _ hnone.symm).trans (upd_eta (endsOf k.files) f)

/-- `pipe_alloc` leaves the processes alone. -/
theorem pipeAlloc_mem (hclosed : ∀ f, (k.files f).ref = 0 → (k.files f).type = .none)
    (h : Owned O r t (endsOf k.files) k.pipes k.mem) :
    Wp pipeAlloc (fun _ k' => Leaves r t k k') (fun _ => True) k := by
  unfold pipeAlloc
  refine Wp.seq fileAlloc_spec (fun _ _ => trivial) fun r k₁ h₁ => ?_
  cases r with
  | none =>
      subst h₁
      exact (Untouched.refl _).leaves ⟨O, h⟩
  | some f0 =>
      obtain ⟨href0, rfl⟩ := h₁
      have hu₁ := untouched_file (k := k) (f := f0) (x := { k.files f0 with ref := 1 }) rfl
      refine Wp.seq fileAlloc_spec (fun _ _ => trivial) fun r k₂ h₂ => ?_
      cases r with
      | none =>
          subst h₂
          exact Wp.bind (fileClose_mem (h.untouched hu₁) f0) fun _ _ hl => (hu₁.leaves ⟨O, h⟩).trans hl
      | some f1 =>
          obtain ⟨href1, rfl⟩ := h₂
          dsimp only at href1 ⊢
          have hne : f1 ≠ f0 := fun h0 => by
            rw [h0, upd_self] at href1
            cases href1
          rw [upd_of_ne hne] at href1 ⊢
          have hu₂ := hu₁.trans (untouched_file (f := f1) (x := { k.files f1 with ref := 1 })
            (by dsimp only; rw [upd_of_ne hne]; rfl))
          have ho₂ := h.untouched hu₂
          rw [wp_bind, onMem, wp_on]
          refine (kalloc_spec ho₂.frames (Use.loose_kept .pipe)).mono ?_ fun _ _ => trivial
          rintro r mem (⟨rfl, rfl, -⟩ | ⟨x, rfl, hx, hframes, hs⟩)
          · refine Wp.bind (fileClose_mem ho₂ f0) fun _ k₃ hl₃ => ?_
            obtain ⟨O₃, ho₃⟩ := hl₃.owned
            exact Wp.bind (fileClose_mem ho₃ f1) fun _ k₄ hl₄ => ((hu₂.leaves ⟨O, h⟩).trans hl₃).trans hl₄
          · dsimp only
            rw [wp_bind, modifyPipe, wp_modify, wp_bind, modifyFile, wp_modify, wp_bind, modifyFile, wp_modify]
            have hnone : ∀ f, (k.files f).ref = 0 → endsOf k.files f = none :=
              fun f h0 => if_neg (by rw [hclosed f h0]; rintro ⟨⟩)
            have hc : Changed x (.kept .pipe) O k.mem mem :=
              ⟨hframes, hs, by rw [hx]; rintro ⟨⟩, fun f e k => by rw [hx]; rintro ⟨⟩,
              (fun f e k => by rintro ⟨⟩), by rintro ⟨⟩⟩
            refine ⟨fun _ => rfl, h.same_changed hc, _,
              h.setPipe hc (fun q => ⟨by rw [hx]; rintro ⟨⟩, by rintro ⟨⟩⟩) ?_⟩
            dsimp only
            rw [upd_comm hne, upd_upd, upd_upd, endsOf_upd, endsOf_upd]
            exact h.pipes.make hx (Ne.symm hne) (hnone f0 href0) (hnone f1 href1)
              (fun w => by rw [upd_self]; cases w <;> rfl) fun q hq => upd_of_ne hq _ _

end

end Xv6.Kernel
