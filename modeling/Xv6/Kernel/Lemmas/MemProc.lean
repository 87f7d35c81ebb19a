import Xv6.Vm.Theorems
import Xv6.Kernel.Lemmas.MemFile

/-!
# The memory under the calls on processes

`fork` builds a space for the child, `wait` gives up that of a child that has ended, and `sbrk` and the stores of a
process work on its own one. No living process has its pages changed by a call of another one.
-/

namespace Xv6.Kernel

open Xv6.Lib Xv6.Fs Xv6.Vm

section

variable {O O' : Nat → Use Owner} {r t : ProcId → Option Nat} {ends : FileId → Option (Nat × Bool × Bool)}
    {pipes : Nat → Pipe}
  {m : Mem} {k k' : System} {p q cur new : ProcId} {x f sz : Nat} {A : ProcId → Prop}

/-! ## The tables of the owners -/

theorem Proc.root_unused {x : Proc} (h : x.state = .unused) : x.root = none := if_pos h

theorem Proc.stack_unused {x : Proc} (h : x.state = .unused) : x.stack = none := if_pos h

theorem Proc.root_used {x : Proc} (h : x.state ≠ .unused) : x.root = x.pml4 := if_neg h

theorem Proc.stack_used {x : Proc} (h : x.state ≠ .unused) : x.stack = x.kstack := if_neg h

theorem Proc.used_of_runnable {x : Proc} (h : x.state = .runnable) : x.state ≠ .unused := by
  rw [h]
  rintro ⟨⟩

/-- One process changes what it has. -/
theorem MemInv.setProc (h : MemInv O k) (hshare : ∀ q, q ≠ p → (k'.procs q).share = (k.procs q).share)
    (hwhole : (k'.procs p).state ≠ .unused → (k'.procs p).Whole)
    (ho : Owned O' (upd (rootOf k.procs) p (k'.procs p).root) (upd (stackOf k.procs) p (k'.procs p).stack)
      (endsOf k'.files) k'.pipes k'.mem) :
    MemInv O' k' := by
  have hroot : rootOf k'.procs = upd (rootOf k.procs) p (k'.procs p).root := funext fun q => by
    by_cases hq : q = p
    · rw [hq, upd_self]
      rfl
    · rw [upd_of_ne hq]
      exact share_root (hshare q hq)
  have hstack : stackOf k'.procs = upd (stackOf k.procs) p (k'.procs p).stack := funext fun q => by
    by_cases hq : q = p
    · rw [hq, upd_self]
      rfl
    · rw [upd_of_ne hq]
      exact share_stack (hshare q hq)
  refine ⟨by rw [hroot, hstack]; exact ho, fun q hq' => ?_⟩
  by_cases hq : q = p
  · rw [hq] at hq' ⊢
    exact hwhole hq'
  · exact share_whole (hshare q hq) (h.whole q fun h0 => hq' ((share_eq (hshare q hq)).1.mpr h0))

/-- The process that changes is none of those that keep their memory. -/
theorem MemInv.safe_set {U : Nat → Use Owner} (h : MemInv O k)
    (hshare : ∀ q, q ≠ p → (k'.procs q).share = (k.procs q).share)
    (hwhole : (k'.procs p).state ≠ .unused → (k'.procs p).Whole)
    (ho : Owned U (upd (rootOf k.procs) p (k'.procs p).root) (upd (stackOf k.procs) p (k'.procs p).stack)
      (endsOf k'.files) k'.pipes k'.mem)
    (hs : SameSpaces (upd (rootOf k.procs) p none) k.mem k'.mem) (hA : ∀ q, A q → (k.procs q).Alive → q ≠ p) :
    Safe A k k' := by
  refine ⟨⟨U, h.setProc hshare hwhole ho⟩,
    .of_share (fun q hq ha => hshare q (hA q hq ha)) fun q f hq ha hf => hs q f ?_⟩
  rw [upd_of_ne (hA q hq ha)]
  exact hf

/-- The space and the size of a process. -/
theorem MemInv.space (h : MemInv O k) (hp : (k.procs p).state ≠ .unused) :
    ∃ f, (k.procs p).pml4 = some f ∧ rootOf k.procs p = some f ∧ O f = .node f 0 0 ∧ (k.procs p).sz < userTop := by
  have hw := h.whole p hp
  obtain ⟨f, hf⟩ := Option.ne_none_iff_exists'.mp hw.root
  exact ⟨f, by rw [← Proc.root_used hp, hf], hf, (h.owned.owns.root f).mpr ⟨p, hf⟩, hw.size⟩

theorem MemInv.kstack (h : MemInv O k) (hp : (k.procs p).state ≠ .unused) :
    ∃ x, (k.procs p).kstack = some x ∧ O x = .kept (.stack p) := by
  obtain ⟨x, hx⟩ := Option.ne_none_iff_exists'.mp (h.whole p hp).stack
  exact ⟨x, by rw [← Proc.stack_used hp, hx], (h.owned.owns.stack p x).mpr hx⟩

/-! ## New processes -/

/-- The state in which `alloc_proc` took the entry `new` and the kernel stack `x`. -/
def System.withEmbryo (k : System) (new : ProcId) (x : Nat) (m : Mem) : System := { k with
  mem := m
  procs := upd k.procs new { k.procs new with state := .embryo, pid := pidOf k.nextPid, kstack := some x }
  nextPid := (k.nextPid + 1) % 2 ^ 32 }

/-- An entry of the process table and a kernel stack are taken. -/
theorem allocProc_mem (h : MemInv O k) : Wp allocProc (fun r k' => (r = none ∧ Untouched k k') ∨
    ∃ new x m', r = some new ∧ (k.procs new).state = .unused ∧ k' = k.withEmbryo new x m' ∧
      SameSpaces (rootOf k.procs) k.mem m' ∧
        Owned (upd O x (.kept (.stack new))) (rootOf k.procs) (upd (stackOf k.procs) new (some x))
        (endsOf k.files) k.pipes m')
    (fun _ => True) k := by
  unfold allocProc
  rw [wp_bind, wp_get]
  cases hf : (List.finRange nproc).find? fun p => (k.procs p).state = .unused with
  | none => exact Or.inl ⟨rfl, Untouched.refl k⟩
  | some new =>
      have hnew : (k.procs new).state = .unused := by simpa using List.find?_some hf
      dsimp only
      rw [wp_bind, modifyProc, wp_modify, wp_bind, wp_modify, wp_bind, onMem, wp_on]
      dsimp only
      refine (kalloc_spec h.owned.frames (Use.loose_kept (Owner.stack new))).mono ?_ fun _ _ => trivial
      rintro r m' (⟨rfl, rfl, -⟩ | ⟨x, rfl, hx, hframes, hs⟩)
      · rw [wp_bind, modifyProc, wp_modify]
        refine Or.inl ⟨rfl, rfl, rfl, fun _ _ => rfl, fun p => ?_⟩
        dsimp only
        rw [upd_upd, upd_self, upd_apply]
        split
        · rw [‹p = new›]
          simp [Proc.share, hnew]
        · rfl
      · rw [wp_bind, modifyProc, wp_modify]
        refine Or.inr ⟨new, x, m', rfl, hnew, ?_, fun p f hf v hv => ?_,
          h.owned.takeStack hx (Proc.stack_unused hnew) hframes hs⟩
        · unfold System.withEmbryo
          dsimp only
          rw [upd_upd, upd_self]
        · exact h.owned.frames.page_same ((h.owned.owns.root f).mpr ⟨p, hf⟩) (fun e k => by rw [hx]; rintro ⟨⟩) hs hv

theorem forkFiles_apart (cur new : ProcId) : Apart (forkFiles cur new) := by
  refine .bind (.each (fun i => .get fun k => ?_) _) fun _ => .bind (cwdOf_apart cur) fun _ => .bind (.onFs _) fun _ =>
    .modifyProc (by intro; rfl) _
  split
  · exact .pure _
  · exact .bind (fileDup_apart _) fun _ => .modifyProc (by intro; rfl) _

/-- A kernel stack is given back. -/
theorem kfreeStack_mem (ho : Owned O r t ends pipes k.mem) (hx : O x = .kept (.stack p)) :
    Wp (kfreeStack (some x)) (fun _ k' => ∃ m', k' = { k with mem := m' } ∧ SameSpaces r k.mem m' ∧
      Owned (upd O x .free) r (upd t p none) ends pipes m') (fun _ => True) k := by
  refine (kfree_kept ho.frames hx).mono ?_ fun _ _ => trivial
  rintro _ _ ⟨m', rfl, hc⟩
  exact ⟨m', rfl, ho.same_changed hc, ho.freeStack hx hc.frames hc.same⟩

theorem use_kept_built {o : Owner} {s : Option Nat} {O₁ : Nat → Use Owner} {m₁ : Mem} (hb : Built s O m O₁ m₁)
    (hx : O x = .kept o) :
    O₁ x = .kept o := by
  rw [hb.spared.use x (by rw [hx]; rintro ⟨⟩) (by rw [hx]; rintro ⟨⟩), hx]

theorem upd_unused (h : (k.procs new).state = .unused) : upd (rootOf k.procs) new none = rootOf k.procs := by
  rw [← Proc.root_unused h]
  exact upd_eta (rootOf k.procs) new

theorem withEmbryo_of_ne (h : p ≠ new) : (k.withEmbryo new x m).procs p = k.procs p := upd_of_ne h _ _

/-- The files of the parent are those of the child, and so is the working directory. -/
theorem forkFiles_procs {y : Proc} (hne : cur ≠ new) (hy : k.procs new = y) (hnone : ∀ i, y.ofile i = none) :
    Wp (forkFiles cur new) (fun _ k' => k'.procs =
      upd k.procs new { y with ofile := (k.procs cur).ofile, cwd := (k.procs cur).cwd })
      (fun _ => True) k := by
  subst hy
  have hcur : ∀ x, upd k.procs new x cur = k.procs cur := fun x => upd_of_ne hne _ _
  unfold forkFiles
  -- the descriptors that are left are not set yet
  refine Wp.bind (wp_each (fun l k' => l.Nodup ∧ ∃ o : Fin nofile → Option FileId,
    k'.procs = upd k.procs new { k.procs new with ofile := o } ∧
      ∀ i, o i = if i ∈ l then none else (k.procs cur).ofile i) ?_ _ k
      ⟨List.nodup_finRange _, (k.procs new).ofile, (upd_eta k.procs new).symm, ?_⟩) ?_
  · rintro i l k₁ ⟨hnodup, o, hprocs, ho⟩
    obtain ⟨hi, hl⟩ := List.nodup_cons.mp hnodup
    rw [wp_bind, wp_get, hprocs, hcur]
    cases hf : (k.procs cur).ofile i with
    | none =>
        refine ⟨hl, o, hprocs, fun j => ?_⟩
        rw [ho j]
        by_cases hji : j = i
        · rw [hji, if_pos List.mem_cons_self, if_neg hi, hf]
        · simp only [List.mem_cons, hji, false_or]
    | some f =>
        dsimp only
        unfold fileDup
        rw [wp_bind, wp_bind, wp_get, wp_bind, wp_panicIf]
        refine ⟨fun _ => trivial, fun _ => ?_⟩
        rw [modifyFile, wp_modify, modifyProc, wp_modify]
        refine ⟨hl, upd o i (some f), ?_, fun j => ?_⟩
        · dsimp only
          rw [hprocs, upd_self, upd_upd]
        · by_cases hji : j = i
          · rw [hji, upd_self, if_neg hi, hf]
          · rw [upd_of_ne hji, ho j]
            simp only [List.mem_cons, hji, false_or]
  · intro i
    rw [if_pos (List.mem_finRange i), hnone]
  · rintro _ k₁ ⟨-, o, hprocs, ho⟩
    obtain rfl : o = (k.procs cur).ofile := funext fun i => by rw [ho i, if_neg List.not_mem_nil]
    unfold cwdOf
    rw [wp_bind, wp_bind, wp_get, hprocs, hcur]
    cases hc : (k.procs cur).cwd with
    | none => trivial
    | some ip =>
        rw [wp_pure, wp_bind, onFs, wp_on]
        refine Wp.of_forall_ok (fun ip' s hs => ?_) fun _ => trivial
        obtain rfl : ip = ip' := by
          cases hs
          rfl
        rw [modifyProc, wp_modify]
        dsimp only
        rw [hprocs, upd_self, upd_upd]

/-- The child of a process, in the entry `old` of the process table. -/
def Proc.child (x : Proc) (cur : ProcId) (old : Proc) (pid g stack : Nat) : Proc := { old with
  state := .runnable
  pid := pid
  kstack := some stack
  pml4 := some g
  sz := x.sz
  parent := some cur
  rp := { x.rp with rax := 0 }
  ofile := x.ofile
  cwd := x.cwd
  name := safeStrcpy x.name nameSize }

/-- The pages of the space `g` are copies of those of the space `f` from page 1 on. -/
structure Copies (f g sz : Nat) (m m' : Mem) : Prop where
  inside : ∀ v, 1 ≤ v → v < pageUp sz → ∀ a b, m.page f v = some (a, b) →
    ∃ y, m'.page g v = some (pgsize4kb * y + pteFlags a, b)
  outside : ∀ v < userPages, ¬ (1 ≤ v ∧ v < pageUp sz) → m'.page g v = none

/-- The process `cur` has a child now, which is the entry `new` of the process table. -/
structure Forked (cur new : ProcId) (k k' : System) : Prop where
  fresh : (k.procs new).state = .unused
  same : SameSpaces (rootOf k.procs) k.mem k'.mem
  child : ∃ f g x, (k.procs cur).pml4 = some f ∧
    k'.procs = upd k.procs new ((k.procs cur).child cur (k.procs new) (pidOf k.nextPid) g x) ∧
    Copies f g (k.procs cur).sz k.mem k'.mem ∧
    ∃ O', Owned O' (upd (rootOf k.procs) new (some g)) (upd (stackOf k.procs) new (some x)) (endsOf k'.files)
      k'.pipes k'.mem

theorem fork_cases (hinv : Inv k) (hcur : (k.procs cur).state = .runnable) (hm : MemInv O k) :
    Wp (fork cur) (fun r k' => (r = -1 ∧ ∀ A, Safe A k k') ∨ (r = int64 (pidOf k.nextPid) ∧ ∃ new, Forked cur new k k'))
      (fun _ => True) k := by
  unfold fork
  refine Wp.bind (allocProc_mem hm) ?_
  rintro r k₁ (⟨rfl, hu⟩ | ⟨new, x, m₁, rfl, hnew, rfl, hs₁, ho₁⟩)
  · exact Or.inl ⟨rfl, hu.safe hm⟩
  have hne : cur ≠ new := fun h0 => by
    rw [h0, hnew] at hcur
    cases hcur
  have hkeep : (k.withEmbryo new x m₁).procs cur = k.procs cur := withEmbryo_of_ne hne
  have hx₁ : upd O x (.kept (.stack new)) x = .kept (.stack new) := upd_self _ _ _
  generalize upd O x (.kept (.stack new)) = O₁ at ho₁ hx₁
  obtain ⟨f, hpml4, hroot, -, hsz⟩ := hm.space (Proc.used_of_runnable hcur)
  dsimp only
  unfold forkMem
  rw [wp_bind, wp_bind, wp_get, hkeep, hpml4]
  dsimp only
  rw [onMem, wp_on]
  refine (copyUvm_spec ho₁.frames ho₁.kern.root ((ho₁.owns.root f).mpr ⟨cur, hroot⟩) (Nat.le_of_lt hsz)).mono ?_
    fun _ _ => trivial
  rintro r m₂ ⟨O₂, hb, hcopy⟩
  have hs₂ := hs₁.trans (ho₁.same_built hb)
  have hself : (k.withEmbryo new x m₁).procs new =
    { k.procs new with state := .embryo, pid := pidOf k.nextPid, kstack := some x } := upd_self _ _ _
  cases r with
  | none =>
      rw [wp_bind, wp_get]
      dsimp only
      rw [hself]
      refine Wp.bind (kfreeStack_mem (k := { k.withEmbryo new x m₁ with mem := m₂ }) (ho₁.built hb)
        (use_kept_built hb hx₁)) ?_
      rintro _ _ ⟨m₃, rfl, hs₃, ho₃⟩
      rw [wp_bind, modifyProc, wp_modify, wp_pure]
      refine Or.inl ⟨rfl, fun A => hm.safe_set (U := upd O₂ x .free) (p := new) (fun q hq => ?_)
        (fun h0 => absurd ?_ h0) ?_ ((hs₂.trans hs₃).others new) fun q _ ha h0 => ha.1 (h0 ▸ hnew)⟩
      · exact congrArg Proc.share ((upd_of_ne hq _ _).trans (withEmbryo_of_ne hq))
      · dsimp only
        rw [upd_self]
      · dsimp only
        rw [upd_self, Proc.root_unused rfl, Proc.stack_unused rfl, upd_unused hnew]
        rwa [upd_upd] at ho₃
  | some g =>
      rw [wp_bind, wp_get, wp_bind, modifyProc, wp_modify]
      dsimp only
      rw [hself, hkeep]
      dsimp only
      refine Wp.bind (Wp.of_forall_ok (fun _ k₄ hok => And.intro ((forkFiles_apart cur new _).of_ok hok)
        ((forkFiles_procs hne (upd_self _ _ _) fun i => ?_).of_ok hok)) fun _ => trivial) ?_
      · refine (hinv.lives.idle new ?_).2 i
        rw [hnew]
        rintro ⟨⟩
      rintro _ k₄ ⟨hu₄, hprocs₄⟩
      dsimp only at hprocs₄
      rw [upd_upd, upd_of_ne hne, hkeep] at hprocs₄
      rw [wp_bind, modifyProc, wp_modify, wp_bind, modifyProc, wp_modify, wp_bind, wp_get, wp_pure]
      simp only [hprocs₄, upd_upd, upd_self]
      refine Or.inr ⟨trivial, new, hnew, ?_, f, g, x, hpml4, ?_, ⟨?_, ?_⟩, O₂, ?_⟩
      · dsimp only
        rw [hu₄.mem]
        exact hs₂
      · exact upd_upd k.procs new _ _
      · intro v h1 hv a b hp
        obtain ⟨-, -, hin, -⟩ := hcopy g rfl
        have hv' : v < userPages := by
          simp only [pageUp, pgsize4kb, userPages, userTop] at hv hsz ⊢
          omega
        obtain ⟨y, -, hy⟩ := hin v h1 hv a b ((hs₁ cur f hroot v hv').trans hp)
        refine ⟨y, ?_⟩
        dsimp only
        rw [hu₄.mem]
        exact hy
      · intro v hv hout
        obtain ⟨-, -, -, hempty⟩ := hcopy g rfl
        dsimp only
        rw [hu₄.mem]
        exact hempty v hv hout
      · have ho₄ : Owned O₂ (upd (rootOf k.procs) new (some g)) (upd (stackOf k.procs) new (some x)) (endsOf k₄.files)
          k₄.pipes k₄.mem := by
          refine Owned.untouched ?_ hu₄
          exact ho₁.add hb (Proc.root_unused hnew)
        exact ho₄

theorem Forked.safe (h : Forked cur new k k') (hm : MemInv O k) (hcur : (k.procs cur).state = .runnable)
    (A : ProcId → Prop) :
    Safe A k k' := by
  obtain ⟨f, g, x, -, hprocs, -, O', ho⟩ := h.child
  have hself : k'.procs new = (k.procs cur).child cur (k.procs new) (pidOf k.nextPid) g x := by rw [hprocs, upd_self]
  refine hm.safe_set (U := O') (p := new) (fun q hq => ?_) (fun _ => ?_) ?_ (h.same.others new) fun q _ ha h0 =>
    ha.1 (h0 ▸ h.fresh)
  · rw [hprocs, upd_of_ne hq]
  · rw [hself]
    exact ⟨by rintro ⟨⟩, by rintro ⟨⟩, (hm.whole cur (Proc.used_of_runnable hcur)).size⟩
  · rw [hself]
    exact ho

theorem fork_mem (cur : ProcId) : KeepsMem cur A (fork cur) := by
  intro k O hinv hcur hm
  refine (fork_cases hinv hcur hm).post ?_
  rintro r k' (⟨-, h⟩ | ⟨-, new, h⟩)
  · exact h A
  · exact h.safe hm hcur A

/-! ## Processes that end -/

theorem reapProc_mem (hm : MemInv O k) (hp : (k.procs p).state = .zombie) :
    Wp (reapProc p) (fun _ k' => Safe A k k') (fun _ => True) k := by
  have hused : (k.procs p).state ≠ .unused := by
    rw [hp]
    rintro ⟨⟩
  obtain ⟨f, hpml4, hroot, -, hsz⟩ := hm.space hused
  obtain ⟨x, hstack, hx⟩ := hm.kstack hused
  unfold reapProc
  rw [wp_bind, wp_get]
  dsimp only
  rw [hstack, hpml4]
  refine Wp.bind (kfreeStack_mem hm.owned hx) ?_
  rintro _ _ ⟨m₁, rfl, hs₁, ho₁⟩
  rw [wp_bind, modifyProc, wp_modify, wp_bind, onMem, wp_on]
  dsimp only
  refine (freeVm_spec ho₁.frames ((ho₁.owns.root f).mpr ⟨p, hroot⟩) (Nat.le_of_lt hsz)).mono ?_ fun _ _ => trivial
  rintro _ m₂ ⟨O₂, hgone⟩
  rw [wp_bind, modifyProc, wp_modify, wp_pure]
  refine hm.safe_set (U := O₂) (p := p) (fun q hq => ?_) (fun h0 => absurd ?_ h0) ?_
    ((hs₁.others p).trans (ho₁.same_moved hroot hgone.moved)) fun q _ ha h0 => ha.2 (h0 ▸ hp)
  · dsimp only
    rw [upd_of_ne hq, upd_of_ne hq]
  · dsimp only
    rw [upd_self]
  · dsimp only
    rw [upd_self, Proc.root_unused rfl, Proc.stack_unused rfl]
    exact ho₁.gone hroot hgone

theorem wait_mem (cur : ProcId) : KeepsMem cur A (wait cur) := by
  intro k O _ _ hm
  unfold wait
  rw [wp_bind, wp_get]
  cases hf : (List.finRange nproc).find? fun p => (k.procs p).parent = some cur ∧ (k.procs p).state = .zombie with
  | none =>
      dsimp only
      rw [wp_ite]
      exact ⟨fun _ => (Untouched.refl k).safe hm A, fun _ => trivial⟩
  | some p =>
      have hp : (k.procs p).parent = some cur ∧ (k.procs p).state = .zombie := by simpa using List.find?_some hf
      exact reapProc_mem hm hp.2

theorem exit_mem (cur : ProcId) (hA : ∀ q, A q → q ≠ cur) : KeepsMem cur A (exit cur) := by
  intro k O _ hcur hm
  unfold exit
  rw [wp_bind, wp_get, wp_bind, wp_panicIf]
  refine ⟨fun _ => trivial, fun _ => ?_⟩
  refine Wp.bind (wp_each (fun _ k₁ => Leaves (rootOf k.procs) (stackOf k.procs) k k₁) (fun fd _ k₁ hl₁ => ?_) _ k
    ((Untouched.refl k).leaves ⟨O, hm.owned⟩)) ?_
  · rw [wp_bind, wp_get]
    split
    · exact hl₁
    · obtain ⟨O₁, ho₁⟩ := hl₁.owned
      refine Wp.bind (fileClose_mem ho₁ _) fun _ k₂ hl₂ => ?_
      exact (Apart.modifyProc (by intro; rfl) cur k₂).post fun _ k₃ hu₃ => (hl₁.trans hl₂).trans (hu₃.leaves hl₂.owned)
  · rintro _ k₁ hl₁
    -- the working directory does not matter
    have hrest : ∀ k₂, Leaves (rootOf k.procs) (stackOf k.procs) k k₂ → Wp (do
        modify fun k : System => { k with
          procs := fun p =>
            if (k.procs p).parent = some cur then { k.procs p with parent := k.initProc } else k.procs p }
        modifyProc cur fun x => { x with state := .zombie }) (fun _ k' => Safe A k k') (fun _ => True) k₂ := by
      intro k₂ hl₂
      rw [wp_bind, wp_modify, modifyProc, wp_modify]
      have hu₃ : Untouched k₂ { k₂ with
          procs := fun p => if (k₂.procs
            p).parent = some cur then { k₂.procs p with parent := k₂.initProc } else k₂.procs p } := by
        refine ⟨rfl, rfl, fun _ _ => rfl, fun p => ?_⟩
        dsimp only
        split <;> rfl
      have hl₃ := hl₂.trans (hu₃.leaves hl₂.owned)
      obtain ⟨O₃, ho₃⟩ := hl₃.owned
      -- the process keeps what it has, but it has ended
      obtain ⟨-, -, hp, hst, hsize⟩ := share_eq (hl₃.share cur)
      have hused := Proc.used_of_runnable hcur
      refine hm.safe_set (U := O₃) (p := cur) (fun q hq => ?_) (fun _ => ?_) ?_ (hl₃.same.others cur) fun q hq _ =>
        hA q hq
      · dsimp only
        rw [upd_of_ne hq]
        exact hl₃.share q
      · dsimp only
        rw [upd_self]
        obtain ⟨h1, h2, h3⟩ := hm.whole cur hused
        rw [Proc.root_used hused, ← hp] at h1
        rw [Proc.stack_used hused, ← hst] at h2
        rw [← hsize] at h3
        exact ⟨h1, h2, h3⟩
      · dsimp only
        rw [upd_self, Proc.root_used (by rintro ⟨⟩), Proc.stack_used (by rintro ⟨⟩)]
        dsimp only at hp hst ⊢
        rw [hp, hst, ← Proc.root_used hused, ← Proc.stack_used hused]
        rw [show (k.procs cur).root = rootOf k.procs cur from rfl,
          show (k.procs cur).stack = stackOf k.procs cur from rfl, upd_eta, upd_eta]
        exact ho₃
    rw [wp_bind, wp_get]
    dsimp only
    split
    · exact hrest k₁ hl₁
    · refine Wp.bind (Apart.onFs _ k₁) fun _ k₂ hu₂ => ?_
      have hl₂ := hl₁.trans (hu₂.leaves hl₁.owned)
      refine Wp.bind (Apart.modifyProc (by intro; rfl) cur k₂) fun _ k₃ hu₃ => ?_
      exact hrest k₃ (hl₂.trans (hu₃.leaves hl₂.owned))

/-! ## Work on the own space -/

theorem resize_worked {n : Int} (h : Frames lower O m) (hf : O f = .node f 0 0) (hsz : sz < userTop) :
    Wp (resize f sz n) (fun r m' => r < userTop ∧ ∃ O', Worked f O m O' m') (fun _ => True) m := by
  have hrefl := Worked.refl h hf
  unfold resize
  rw [wp_ite, wp_ite]
  refine ⟨fun _ => ?_, fun _ => ⟨fun _ => ?_, fun _ => ⟨hsz, O, hrefl⟩⟩⟩
  · by_cases hlt : wrap (sz + n) < sz
    · unfold allocUvm
      rw [if_pos hlt]
      exact ⟨hsz, O, hrefl⟩
    by_cases htop : userTop ≤ wrap (sz + n)
    · unfold allocUvm
      rw [if_neg hlt, if_pos htop]
      exact ⟨by decide, O, hrefl⟩
    have htop := Nat.not_le.mp htop
    refine (allocUvm_any h hf (Nat.not_lt.mp hlt) htop).mono ?_ fun _ _ => trivial
    rintro r m' ⟨O', ⟨rfl, hz⟩ | ⟨rfl, -, hw, -⟩⟩
    · exact ⟨htop, O', hz.worked⟩
    · exact ⟨by decide, O', hw⟩
  · by_cases hle : sz ≤ wrap (sz + n)
    · unfold deallocUvm
      rw [if_pos hle]
      exact ⟨hsz, O, hrefl⟩
    have hlt := Nat.not_le.mp hle
    refine (deallocUvm_spec h hf hlt (Nat.le_of_lt hsz)).mono ?_ fun _ _ => trivial
    rintro r m' ⟨rfl, O', hun⟩
    exact ⟨Nat.lt_trans hlt hsz, O', hun.worked⟩

/-- A process works on its own space, and may get another size. -/
theorem MemInv.worked (h : MemInv O k) (hp : (k.procs p).state ≠ .unused) (hroot : rootOf k.procs p = some f)
    (hw : Worked f O k.mem O' m) (hsz : sz < userTop) (hA : ∀ q, A q → q ≠ p) :
    Safe A k { k with mem := m, procs := upd k.procs p { k.procs p with sz := sz } } := by
  have hwhole := h.whole p hp
  refine h.safe_set (U := O') (p := p) (fun q hq => ?_) (fun _ => ?_) ?_ (h.owned.same_moved hroot hw.moved)
    fun q hq _ => hA q hq
  · dsimp only
    rw [upd_of_ne hq]
  · dsimp only
    rw [upd_self]
    exact ⟨hwhole.root, hwhole.stack, hsz⟩
  · dsimp only
    rw [upd_self, show Proc.root { k.procs p with sz := sz } = rootOf k.procs p from rfl,
      show Proc.stack { k.procs p with sz := sz } = stackOf k.procs p from rfl, upd_eta, upd_eta]
    exact h.owned.worked ((h.owned.owns.root f).mpr ⟨p, hroot⟩) hw

/-- The same without a new size. -/
theorem MemInv.worked_same (h : MemInv O k) (hp : (k.procs p).state ≠ .unused) (hroot : rootOf k.procs p = some f)
    (hw : Worked f O k.mem O' m) (hA : ∀ q, A q → q ≠ p) : Safe A k { k with mem := m } := by
  have hsafe := h.worked hp hroot hw (h.whole p hp).size hA
  rwa [show ({ k.procs p with sz := (k.procs p).sz } : Proc) = k.procs p from rfl, upd_eta] at hsafe

theorem growProc_mem (cur : ProcId) (n : Int) (hA : ∀ q, A q → q ≠ cur) : KeepsMem cur A (growProc cur n) := by
  intro k O _ hcur hm
  have hused := Proc.used_of_runnable hcur
  obtain ⟨f, hpml4, hroot, hf, hsz⟩ := hm.space hused
  unfold growProc
  rw [wp_bind, wp_get, hpml4]
  dsimp only
  rw [wp_bind, onMem, wp_on]
  refine (resize_worked hm.owned.frames hf hsz).mono ?_ fun _ _ => trivial
  rintro sz m' ⟨hlt, O', hw⟩
  rw [wp_ite]
  refine ⟨fun _ => hm.worked_same hused hroot hw hA, fun _ => ?_⟩
  rw [wp_bind, modifyProc, wp_modify, wp_bind]
  unfold switchUvm
  rw [wp_bind, wp_get, wp_bind, wp_panicIf]
  refine ⟨fun _ => trivial, fun _ => ?_⟩
  rw [wp_panicIf]
  exact ⟨fun _ => trivial, fun _ => hm.worked hused hroot hw hlt hA⟩

theorem sysSbrk_mem (cur : ProcId) (n : Int) (hA : ∀ q, A q → q ≠ cur) : KeepsMem cur A (sysSbrk cur n) := by
  intro k O hinv hcur hm
  unfold sysSbrk
  rw [wp_bind, wp_get]
  refine Wp.bind (growProc_mem cur n hA k O hinv hcur hm) fun r k' hs => ?_
  rw [wp_ite]
  exact ⟨fun _ => hs, fun _ => hs⟩

theorem userStore_mem (cur : ProcId) (va : Nat) (data : List UInt8) (hA : ∀ q, A q → q ≠ cur) :
    KeepsMem cur A (userStore cur va data) := by
  intro k O _ hcur hm
  have hused := Proc.used_of_runnable hcur
  obtain ⟨f, hpml4, hroot, hf, -⟩ := hm.space hused
  unfold userStore
  rw [wp_bind, wp_get, hpml4]
  dsimp only
  rw [onMem, wp_on]
  refine (copyOut_spec hm.owned.frames hf hm.owned.kern va data).mono ?_ fun _ _ => trivial
  rintro _ m' ⟨_, hc, -⟩
  exact hm.worked_same hused hroot hc.worked hA

/-! ## Buffers of the caller -/

/-- The kernel stores into a buffer of the caller, at some point of a call. -/
theorem storeUser_mem {k₁ : System} (hs : Safe A k k₁) (hused : (k₁.procs cur).state ≠ .unused)
    (hA : ∀ q, A q → q ≠ cur) (dst : Nat) (data : List UInt8) :
    Wp (storeUser cur dst data) (fun _ k' => Safe A k k' ∧ (k'.procs cur).state ≠ .unused) (fun _ => True) k₁ := by
  obtain ⟨⟨O, hm⟩, hk⟩ := hs
  obtain ⟨f, hpml4, hroot, hf, -⟩ := hm.space hused
  unfold storeUser
  rw [wp_bind, wp_get, hpml4]
  dsimp only
  rw [onMem, wp_on]
  refine (storeBytes_spec hf data hm.owned.frames dst).post ?_
  rintro _ m' ⟨-, hw⟩
  obtain ⟨hinv, hk'⟩ := hm.worked_same hused hroot hw.worked hA
  exact ⟨⟨hinv, hk.trans hk'⟩, hused⟩

theorem Untouched.used {k₁ : System} (hu : Untouched k k₁) (hp : (k.procs cur).state = .runnable) :
    (k₁.procs cur).state ≠ .unused :=
  mt (share_eq (hu.share cur)).1.mp (Proc.used_of_runnable hp)

theorem Leaves.used {r t : ProcId → Option Nat} {k₁ : System} (hl : Leaves r t k k₁)
    (hp : (k.procs cur).state = .runnable) :
    (k₁.procs cur).state ≠ .unused := mt (share_eq (hl.share cur)).1.mp (Proc.used_of_runnable hp)

theorem sysRead_mem (cur : ProcId) (fd : Int) (dst n : Nat) (hA : ∀ q, A q → q ≠ cur) :
    KeepsMem cur A (sysRead cur fd dst n) := by
  intro k O _ hp hm
  unfold sysRead
  rw [wp_bind, wp_get]
  split
  · exact (Untouched.refl k).safe hm A
  · refine Wp.bind (fileRead_apart _ _ _ k) fun r k₁ hu => ?_
    exact Wp.bind (storeUser_mem (hu.safe hm A) (hu.used hp) hA dst _) fun _ _ h => h.1

theorem sysFstat_mem (cur : ProcId) (fd : Int) (st : Nat) (hA : ∀ q, A q → q ≠ cur) :
    KeepsMem cur A (sysFstat cur fd st) := by
  intro k O _ hp hm
  unfold sysFstat
  rw [wp_bind, wp_get]
  split
  · exact (Untouched.refl k).safe hm A
  · rw [wp_ite]
    refine ⟨fun _ => (Untouched.refl k).safe hm A, fun _ => ?_⟩
    refine Wp.bind (fileStat_apart _ k) fun r k₁ hu => ?_
    cases r with
    | none => exact hu.safe hm A
    | some s =>
        refine Wp.bind (wp_each (fun _ k' => Safe A k k' ∧ (k'.procs cur).state ≠ .unused) (fun i _ k₂ h₂ => ?_) _ _
          ⟨hu.safe hm A, hu.used hp⟩) fun _ _ h => h.1
        exact storeUser_mem h₂.1 h₂.2 hA _ _

theorem sysPipe_mem (p : ProcId) (fd : Nat) (hA : ∀ q, A q → q ≠ p) : KeepsMem p A (sysPipe p fd) := by
  intro k O hinv hp hm
  unfold sysPipe sysPipeBy
  refine Wp.bind (pipeAlloc_mem hinv.table.closed hm.owned) fun r k₁ hl₁ => ?_
  -- both ends are closed again
  have hclose : ∀ {k₂ : System} (rf wf : FileId), Leaves (rootOf k.procs) (stackOf k.procs) k k₂ →
      Wp (do fileClose rf; fileClose wf; pure (-1 : Int)) (fun _ k' => Safe A k k') (fun _ => True) k₂ := by
    intro k₂ rf wf hl₂
    obtain ⟨O₂, ho₂⟩ := hl₂.owned
    refine Wp.bind (fileClose_mem ho₂ rf) fun _ k₃ hl₃ => ?_
    obtain ⟨O₃, ho₃⟩ := hl₃.owned
    exact Wp.bind (fileClose_mem ho₃ wf) fun _ k₄ hl₄ => ((hl₂.trans hl₃).trans hl₄).safe hm A
  cases r with
  | none => exact hl₁.safe hm A
  | some ab =>
      obtain ⟨rf, wf⟩ := ab
      refine Wp.bind (fdAlloc_apart p rf k₁) fun r k₂ hu₂ => ?_
      have hl₂ := hl₁.trans (hu₂.leaves hl₁.owned)
      cases r with
      | none => exact hclose rf wf hl₂
      | some i =>
          refine Wp.bind (fdAlloc_apart p wf k₂) fun r k₃ hu₃ => ?_
          have hl₃ := hl₂.trans (hu₃.leaves hl₂.owned)
          cases r with
          | none =>
              refine Wp.bind (Apart.modifyProc (by intro; rfl) p k₃) fun _ k₄ hu₄ => ?_
              exact hclose rf wf (hl₃.trans (hu₄.leaves hl₃.owned))
          | some j =>
              have hs₃ : Safe A k k₃ := hl₃.safe hm A
              refine Wp.bind (storeUser_mem hs₃ (hl₃.used hp) hA fd _) fun _ k₄ h₄ => ?_
              exact Wp.bind (storeUser_mem h₄.1 h₄.2 hA (fd + 4) _) fun _ _ h₅ => h₅.1

end

end Xv6.Kernel
