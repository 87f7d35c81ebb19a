import Xv6.Fs.Lemmas.Lost
import Xv6.Kernel.Lemmas.Boot

/-!
# Removed directories under system calls

The conditions on calls that keep every `..` alive and every name reachable.
-/

namespace Xv6.Kernel

open Xv6.Lib Xv6.Fs Xv6.Vm Xv6.Mkfs

/-- The path that a call may create. -/
def Call.creates : Call → Option (List UInt8)
  | .open path omode => if omode &&& oCreate ≠ 0 then some path else none
  | .mkdir path => some path
  | .mknod path _ _ => some path
  | _ => none

/-- A call that removes a directory finds that no other directory has it as its parent; and that its own parent
has a name, or that nobody holds the directory. -/
def KeepsParents (k : System) (p : ProcId) : Call → Prop
  | .unlink path => ∀ d name n, lastElement k p path = some (d, name) → lookup (k.fs.node d).data name = some n →
      (k.fs.node (entryAt (k.fs.node d).data n).inum).type = tDir →
      (∀ x, x ≠ (entryAt (k.fs.node d).data n).inum → (k.fs.node x).type = tDir →
        parentOf k.fs.node x ≠ (entryAt (k.fs.node d).data n).inum) ∧
      (d = rootino ∨ Named k.fs.node d ∨ ¬ HeldBy k.fs.cell (entryAt (k.fs.node d).data n).inum)
  | _ => True

/-- A call that creates a name does so in a directory that the root leads to. -/
def CreatesReached (k : System) (p : ProcId) (c : Call) : Prop :=
  ∀ path d name, c.creates = some path → lastElement k p path = some (d, name) → lookup (k.fs.node d).data name = none →
    Reached k.fs.node d

section

variable {k k' : System} {p : ProcId} {c : Call} {r : Int} {P : (Nat → Node) → Prop}

/-- A property of the nodes is kept by a call if it is kept by what the call can do. -/
theorem Effect.keeps (he : Effect p k r k' c) (ht : Fs.Tree k.fs.node) (hP : P k.fs.node)
    (hfrees : ∀ {N N'}, Fs.Tree N → P N → Frees N N' → P N')
    (hwrite : ∀ {i} data, (k.fs.node i).type ≠ tDir → P (upd k.fs.node i { k.fs.node i with data := data }))
    (hcreate : ∀ {path type major minor d name x}, c.creates = some path → lastElement k p path = some (d, name) →
      (k.fs.node d).type = tDir → lookup (k.fs.node d).data name = none → 1 ≤ x ∧ x < 96 → (k.fs.node x).type = 0 →
      type ≠ 0 → P (created k.fs.node d name x type major minor))
    (hremove : ∀ {path d name n i}, c = .unlink path → lastElement k p path = some (d, name) →
      lookup (k.fs.node d).data name = some n → 2 ≤ n → Entry k.fs.node d n i →
      ((k.fs.node i).type = tDir → ∀ k', 2 ≤ k' → k' < entryCount (k.fs.node i).data →
        (entryAt (k.fs.node i).data k').inum = 0) →
      P (reap (reap (removed k.fs.node d n i) k.fs.cell d) k.fs.cell i)) : P k'.fs.node := by
  have hlast : ∀ {cwd path}, (k.procs p).cwd = some cwd →
      lastElement k p path = resolve k.fs.node (k.fs.cell cwd).inum path true := fun hcwd => by
    rw [lastElement, hcwd]
    rfl
  have hcreates : ∀ {cwd path type major minor N}, c.creates = some path → (k.procs p).cwd = some cwd → type ≠ 0 →
      Creates k.fs cwd path type major minor N → P N ∧ Fs.Tree N := by
    rintro cwd path type major minor N hc hcwd htype ⟨hres, hdir, hlook, hx, hfree⟩
    exact ⟨hcreate hc ((hlast hcwd).trans hres) hdir hlook hx hfree htype, ht.created hdir hlook hx hfree htype⟩
  have hiff : ∀ {cwd path type major minor}, c.creates = some path → (k.procs p).cwd = some cwd → type ≠ 0 →
      CreatesIff k.fs cwd path type major minor r k'.fs.node → P k'.fs.node := by
    rintro cwd path type major minor hc hcwd htype (⟨-, -, hnode⟩ | ⟨-, hcr⟩)
    · rw [hnode]
      exact hP
    · exact (hcreates hc hcwd htype hcr).1
  cases c with
  | «open» path omode =>
      obtain ⟨cwd, hcwd, N, hf, ⟨-, rfl⟩ | ⟨hc, hN⟩⟩ := he
      · exact hfrees ht hP hf
      · obtain ⟨h1, h2⟩ := hcreates (if_pos hc) hcwd (by decide) hN
        exact hfrees h2 h1 hf
  | mkdir path =>
      obtain ⟨cwd, hcwd, hcr⟩ := he
      exact hiff rfl hcwd (by decide) hcr
  | mknod path major minor =>
      obtain ⟨cwd, hcwd, hcr⟩ := he
      exact hiff rfl hcwd (by decide) hcr
  | unlink path =>
      obtain ⟨cwd, hcwd, ⟨-, -, hnode⟩ | ⟨-, hrm⟩⟩ := he
      · rw [hnode]
        exact hP
      · generalize k'.fs.node = N at hrm ⊢
        obtain ⟨hres, hlook, hn, hent, hempty⟩ := hrm
        exact hremove rfl ((hlast hcwd).trans hres) hlook hn hent hempty
  | write fd data =>
      rcases he with hnode | ⟨i, hd, -, data, hnode⟩
      · rw [hnode]
        exact hP
      · rw [hnode]
        exact hwrite data hd
  | read | close | dup | fstat | chdir | pipe | fork | exec | exit | wait | sbrk | kill | getpid =>
      exact hfrees ht hP he

/-- Invariants of the nodes hold along the runs whose calls keep them. -/
theorem ReachableIf.keeps {C : System → ProcId → Call → Prop} (hflat : ∀ {N}, Flat N → P N)
    (hstep : ∀ {k k' p c r}, Inv k → P k.fs.node → C k p c → Effect p k r k' c → P k'.fs.node) (h : ReachableIf C k) :
    Inv k ∧ P k.fs.node := by
  refine h.invariant (P := fun k => Inv k ∧ P k.fs.node) (fun m k hb => ?_) fun k k' hk hs => ?_
  · obtain ⟨host, N, hinv, hnode, hf, -⟩ := boots_spec hb
    exact ⟨hinv, by rw [hnode]; exact hflat hf⟩
  · obtain ⟨hinv, hP⟩ := hk
    cases hs with
    | call p c r hp hc hr =>
        obtain ⟨hinv', he⟩ := (syscall_spec hinv hp c).of_ok hr
        exact ⟨hinv', hstep hinv hP hc he⟩
    | store p va data r hp hr =>
        obtain ⟨hinv', hfs⟩ := (userStore_spec hinv va data).of_ok hr
        exact ⟨hinv', by rw [hfs]; exact hP⟩

theorem anchored_of_flat {N : Nat → Node} (h : Flat N) : Anchored N := by
  intro x _ hx
  obtain rfl := h.dirs x hx
  rw [h.tree.rootParent]
  exact ⟨h.tree.root, Or.inl rfl⟩

theorem ReachableIf.anchored (h : ReachableIf KeepsParents k) : Inv k ∧ Anchored k.fs.node := by
  refine h.keeps anchored_of_flat fun {k k' p c r} hinv ha hc he => ?_
  have ht := hinv.quiet.tree
  refine he.keeps ht ha (fun ht h hf => AnchoredBut.frees ht h hf) (fun data hd => ha.setData ht hd data) ?_ ?_
  · exact fun _ _ hdir hlook hx hfree htype => ha.created ht hdir hx hfree hlook htype
  · rintro path d name n i rfl hlast hlook hn hent hempty
    have hk := hc d name n hlast hlook
    rw [hent.inum] at hk
    exact ha.removed ht hn hent hempty (fun hd => (hk hd).1) fun hd => (hk hd).2

theorem rooted_of_flat {N : Nat → Node} (h : Flat N) : Rooted N := by
  have hdir : ∀ {d k i}, Entry N d k i → d = 1 := fun he => h.dirs _ he.dir
  refine ⟨?_, fun i hi h1 hn => ?_⟩
  · rintro i ⟨d, k, hk, he⟩
    obtain rfl := hdir he
    exact .entry .root hk he
  · obtain ⟨k, hk, he⟩ := h.named i hi h1
    exact absurd ⟨1, k, hk, he⟩ hn

theorem ReachableIf.rooted (h : ReachableIf CreatesReached k) : Inv k ∧ Rooted k.fs.node := by
  refine h.keeps rooted_of_flat fun {k k' p c r} hinv hr hc he => ?_
  have ht := hinv.quiet.tree
  refine he.keeps ht hr (fun ht h hf => h.frees ht hf) (fun data hd => hr.setData hd data) ?_ ?_
  · exact fun hcr hlast hdir hlook hx hfree _ =>
      hr.created ht hdir (ht.reached_iff.mp (hc _ _ _ hcr hlast hlook)) hx hfree
  · intro path d name n i _ _ _ hn hent hempty
    exact (hr.removed ht hn hent hempty).frees (ht.removed hn hent hempty) (removed_frees ht hn hent)

end

/-! ## A run of the machine -/

/-- `/a/f` with three bytes, and `/g`, which is removed while it is open. -/
def workCalls (data : { l : List UInt8 // l.length < 2 ^ 64 }) : List (ProcId × Call) :=
  [(initId, .mkdir [47, 97]), (initId, .open [47, 97, 47, 102] (oCreate ||| oRdwr)),
    (initId, .write 0 data), (initId, .open [47, 103] oCreate), (initId, .unlink [47, 103])]

/-- Only files are removed, and names are created in the root and in its directories. -/
def workTest (k : System) (p : ProcId) (c : Call) : Bool :=
  (match c with
    | .unlink path => (lastElement k p path).all fun x => (lookup (k.fs.node x.1).data x.2).all fun n =>
        (k.fs.node (entryAt (k.fs.node x.1).data n).inum).type ≠ tDir
    | _ => true) &&
  c.creates.all fun path => (lastElement k p path).all fun x => x.1 = rootino ∨
    ((k.fs.node rootino).type = tDir ∧ x.1 ≠ 0 ∧
      ∃ j < entryCount (k.fs.node rootino).data, (entryAt (k.fs.node rootino).data j).inum = x.1)

theorem keepsParents_of_test (k : System) (p : ProcId) (c : Call) (h : workTest k p c = true) : KeepsParents k p c := by
  cases c with
  | unlink path =>
      intro d name n hlast hlook hdir
      have hfile := (Bool.and_eq_true_iff.mp h).1
      simp only [hlast, hlook, Option.all_some] at hfile
      exact absurd hdir (of_decide_eq_true hfile)
  | «open» | read | write | close | dup | fstat | mkdir | mknod | chdir | pipe | fork | exec | exit | wait | sbrk | kill
  | getpid => trivial

theorem createsReached_of_test (k : System) (p : ProcId) (c : Call) (h : workTest k p c = true) :
    CreatesReached k p c := by
  intro path d name hc hlast _
  have hnear := (Bool.and_eq_true_iff.mp h).2
  simp only [hc, hlast, Option.all_some] at hnear
  rcases of_decide_eq_true hnear with rfl | ⟨hdir, hne, j, hj, hinum⟩
  · exact .root
  · exact .entry .root ⟨hdir, hj, hinum, hne⟩

/-- The state after the run. -/
structure WorkDone (k : System) : Prop where
  init : (k.procs initId).state = .runnable
  dir : Entry k.fs.node 1 10 10 ∧ (k.fs.node 10).type = tDir
  file : Entry k.fs.node 10 2 11 ∧ k.fs.node 11 = ⟨tFile, 0, 0, 1, [1, 2, 3]⟩
  removed : (k.fs.node 12).type ≠ 0
  cached : ∃ ip, (k.fs.inodes ip).inum = 11 ∧ 0 < (k.fs.inodes ip).ref ∧ (k.fs.inodes ip).valid = true

/-- The test for `WorkDone`. -/
def workDoneTest (k : System) : Bool :=
  (k.procs initId).state = .runnable ∧
  (k.fs.node 1).type = tDir ∧ 10 < entryCount (k.fs.node 1).data ∧ (entryAt (k.fs.node 1).data 10).inum = 10 ∧
  (k.fs.node 10).type = tDir ∧ 2 < entryCount (k.fs.node 10).data ∧ (entryAt (k.fs.node 10).data 2).inum = 11 ∧
  k.fs.node 11 = ⟨tFile, 0, 0, 1, [1, 2, 3]⟩ ∧ (k.fs.node 12).type ≠ 0 ∧
  ∃ ip, (k.fs.inodes ip).inum = 11 ∧ 0 < (k.fs.inodes ip).ref ∧ (k.fs.inodes ip).valid = true

theorem workDone_of_test {k : System} (h : workDoneTest k = true) : WorkDone k := by
  obtain ⟨hinit, hroot, hlt, ha, hdir, hlt', hf, hfile, hg, hcached⟩ := of_decide_eq_true h
  exact ⟨hinit, ⟨⟨hroot, hlt, ha, by decide⟩, hdir⟩, ⟨⟨hdir, hlt', hf, by decide⟩, hfile⟩, hg, hcached⟩

theorem work_small : ∃ k, Reachable k ∧ ReachableIf KeepsParents k ∧ ReachableIf CreatesReached k ∧ WorkDone k := by
  have hrun : (runCallsIf workTest (workCalls ⟨[1, 2, 3], by decide⟩) smallSystem).any workDoneTest = true := by
    decide +kernel
  obtain ⟨k, hk, hdone⟩ := exists_of_any hrun
  have hparents := steps_of_runCallsIf keepsParents_of_test hk
  have hcreates := steps_of_runCallsIf createsReached_of_test hk
  exact ⟨k, ⟨smallMem, smallSystem, boots_small, Relation.ReflTransGen.mono (fun _ _ h => StepIf.step h) _ _ hparents⟩,
    ⟨smallMem, smallSystem, boots_small, hparents⟩, ⟨smallMem, smallSystem, boots_small, hcreates⟩,
      workDone_of_test hdone⟩

end Xv6.Kernel
