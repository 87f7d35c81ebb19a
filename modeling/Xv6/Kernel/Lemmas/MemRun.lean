import Xv6.Kernel.Lemmas.Boot
import Xv6.Kernel.Lemmas.MemExec

/-!
# The memory over whole runs

From a memory whose frames are free or the kernel's, the frames have one owner each in every state between steps.
-/

namespace Xv6.Kernel

open Xv6.Lib Xv6.Fs Xv6.Vm

/-- The uses before the first process is made. -/
def startUse (l : List Nat) : Nat → Use Owner := fun x => if x ∈ l then .free else .kernel

/-- The memory that `kinit` leaves: the frames of the free list are apart from those of the kernel, and no entry of the
upper half of the kernel's table is for the user. -/
def Ready (m : Mem) : Prop := ∃ l, FreeList m l ∧ Kern (startUse l) m

/-- The states of the runs that start from the memory `m`. -/
def RunFrom (m : Mem) (k : System) : Prop := ∃ k₀, Boots m k₀ ∧ Relation.ReflTransGen Step k₀ k

section

variable {O O' : Nat → Use Owner} {k k' : System} {m : Mem} {disk : Nat → Bytes}
    {console : Nat → Option (List UInt8)} {p q : ProcId}

theorem RunFrom.reachable (h : RunFrom m k) : Reachable k := by
  obtain ⟨k₀, hb, hr⟩ := h
  exact ⟨m, k₀, hb, hr⟩

theorem RunFrom.step (h : RunFrom m k) (hs : Step k k') : RunFrom m k' := by
  obtain ⟨k₀, hb, hr⟩ := h
  exact ⟨k₀, hb, hr.tail hs⟩

theorem startUse_cases (l : List Nat) (x : Nat) : startUse l x = .free ∨ startUse l x = .kernel := by
  unfold startUse
  split
  · exact Or.inl rfl
  · exact Or.inr rfl

theorem startUse_ne {l : List Nat} {x : Nat} {u : Use Owner} (hfree : u ≠ .free) (hkernel : u ≠ .kernel) :
    startUse l x ≠ u := by
  rcases startUse_cases l x with h | h <;> rw [h]
  · exact hfree.symm
  · exact hkernel.symm

/-- Nobody owns anything before the first process. -/
theorem memInv_initial (h : Ready m) : ∃ O, MemInv O (System.initial disk m console) := by
  obtain ⟨l, hl, hk⟩ := h
  refine ⟨startUse l, ⟨hl.frames lower, hk, fun x => startUse_ne (by rintro ⟨⟩) (by rintro ⟨⟩),
    ⟨fun f => ?_, ?_, fun p x => ?_⟩, ?_⟩, fun p h0 => absurd rfl h0⟩
  · refine iff_of_false (startUse_ne (by rintro ⟨⟩) (by rintro ⟨⟩)) ?_
    rintro ⟨p, hp⟩
    cases hp
  · intro p q f hp
    cases hp
  · refine iff_of_false (startUse_ne (by rintro ⟨⟩) (by rintro ⟨⟩)) ?_
    rintro ⟨⟩
  · have hne : ∀ q, startUse l q ≠ .kept .pipe := fun q => startUse_ne (by rintro ⟨⟩) (by rintro ⟨⟩)
    refine ⟨fun q => iff_of_false (hne q) ?_, (fun h0 => by cases h0), (fun h0 => by cases h0),
      fun {q} w h0 => absurd h0 (hne q)⟩
    rintro ⟨f, r, w, hf⟩
    cases hf

/-- The first process while `user_init` fills its entry: it has its space `g` and its kernel stack. -/
structure Nascent (O : Nat → Use Owner) (k : System) (new : ProcId) (g x : Nat) (k' : System) : Prop where
  other : ∀ q, q ≠ new → (k'.procs q).share = (k.procs q).share
  pml4 : (k'.procs new).pml4 = some g
  kstack : (k'.procs new).kstack = some x
  size : (k'.procs new).sz < userTop
  owned : Owned O (upd (rootOf k.procs) new (some g)) (upd (stackOf k.procs) new (some x)) (endsOf k'.files)
    k'.pipes k'.mem

variable {new : ProcId} {g x : Nat} {f : Proc → Proc}

theorem Nascent.modify (h : Nascent O k new g x k')
    (hf : ∀ y, (f y).pml4 = y.pml4 ∧ (f y).kstack = y.kstack ∧ (f y).sz = y.sz) :
    Wp (modifyProc new f) (fun _ k'' => Nascent O k new g x k'') (fun _ => True) k' := by
  obtain ⟨h1, h2, h3⟩ := hf (k'.procs new)
  have hself : upd k'.procs new (f (k'.procs new)) new = f (k'.procs new) := upd_self _ _ _
  rw [modifyProc, wp_modify]
  refine ⟨fun q hq => ?_, ?_, ?_, ?_, h.owned⟩ <;> dsimp only
  · rw [upd_of_ne hq]
    exact h.other q hq
  · rw [hself, h1, h.pml4]
  · rw [hself, h2, h.kstack]
  · rw [hself, h3]
    exact h.size

theorem Nascent.memInv (h : Nascent O' k new g x k') (hm : MemInv O k) (hs : (k'.procs new).state = .runnable) :
    MemInv O' k' := by
  have hused := Proc.used_of_runnable hs
  refine hm.setProc (p := new) h.other (fun _ => ⟨?_, ?_, h.size⟩) ?_
  · rw [Proc.root_used hused, h.pml4]
    rintro ⟨⟩
  · rw [Proc.stack_used hused, h.kstack]
    rintro ⟨⟩
  · rw [Proc.root_used hused, Proc.stack_used hused, h.pml4, h.kstack]
    exact h.owned

theorem userInit_mem (hm : MemInv O k) (initcode : List UInt8) :
    Wp (userInit initcode) (fun _ k' => ∃ O', MemInv O' k') (fun _ => True) k := by
  unfold userInit
  refine Wp.bind (allocProc_mem hm) ?_
  rintro r k₁ (⟨rfl, -⟩ | ⟨new, x, m₁, rfl, hnew, rfl, -, ho₁⟩)
  · trivial
  generalize upd O x (.kept (.stack new)) = O₁ at ho₁
  dsimp only
  rw [wp_bind, wp_modify, wp_bind, onMem, wp_on]
  refine (setupUvm_spec ho₁.frames ho₁.kern.root).mono ?_ fun _ _ => trivial
  rintro r m₂ (⟨rfl, -, -⟩ | ⟨g, rfl, hg, hframes, hsame, -, hupper⟩)
  · trivial
  dsimp only
  rw [wp_bind, modifyProc, wp_modify, wp_bind, onMem, wp_on]
  refine (initUvm_built ho₁.frames hg hsame hupper hframes initcode).mono ?_ fun _ _ => trivial
  rintro _ m₃ ⟨O₃, hb⟩
  refine Wp.bind (show Wp (modifyProc new fun y => { y with sz := pgsize4kb }) (fun _ k₃ => Nascent O₃ k new g x k₃)
    (fun _ => True) _ from ?_) fun _ k₃ h₃ => ?_
  swap
  · refine Wp.bind (h₃.modify fun _ => ⟨rfl, rfl, rfl⟩) fun _ k₄ h₄ => ?_
    refine Wp.bind (h₄.modify fun _ => ⟨rfl, rfl, rfl⟩) fun _ k₅ h₅ => ?_
    rw [wp_bind, onFs, wp_on]
    refine Wp.of_forall_ok (fun cwd s _ => ?_) fun _ => trivial
    have h₆ : Nascent O₃ k new g x { k₅ with fs := s } := ⟨h₅.other, h₅.pml4, h₅.kstack, h₅.size, h₅.owned⟩
    refine Wp.bind (h₆.modify fun _ => ⟨rfl, rfl, rfl⟩) fun _ k₇ h₇ => ?_
    have h₈ := h₇.modify (f := fun y => { y with state := .runnable }) fun _ => ⟨rfl, rfl, rfl⟩
    rw [modifyProc, wp_modify] at h₈ ⊢
    exact ⟨O₃, h₈.memInv hm (by dsimp only; rw [upd_self])⟩
  · rw [modifyProc, wp_modify]
    unfold System.withEmbryo
    dsimp only
    refine ⟨fun q hq => ?_, ?_, ?_, ?_, ho₁.add hb (Proc.root_unused hnew)⟩ <;> dsimp only
    · rw [upd_of_ne hq, upd_of_ne hq, upd_of_ne hq]
    · rw [upd_self, upd_self]
    · rw [upd_self, upd_self, upd_self]
    · rw [upd_self]
      exact (by decide : pgsize4kb < userTop)

theorem boots_mem (h : Ready m) (hb : Boots m k) : ∃ O, MemInv O k := by
  obtain ⟨host, disk, console, initcode, -, hok⟩ := hb
  obtain ⟨O, hm⟩ : ∃ O, MemInv O (System.initial disk m console) := memInv_initial h
  exact (userInit_mem hm initcode).of_ok hok

/-! ## Steps -/

/-- A call changes nothing in the memory of the other processes. -/
theorem syscall_mem (p : ProcId) (c : Call) : KeepsMem p (· ≠ p) (syscall p c) := by
  have hA : ∀ q, q ≠ p → q ≠ p := fun _ h => h
  cases c with
  | «open» path omode => exact sysOpen_mem p path omode
  | read fd dst n => exact sysRead_mem p fd _ _ hA
  | write fd data => exact (sysWrite_apart p fd _).keepsMem p _
  | close fd => exact sysClose_mem p fd
  | dup fd => exact (sysDup_apart p fd).keepsMem p _
  | fstat fd st => exact sysFstat_mem p fd _ hA
  | mkdir path => exact (fsCall_apart p _).keepsMem p _
  | mknod path major minor => exact (fsCall_apart p _).keepsMem p _
  | chdir path => exact (sysChdir_apart p path).keepsMem p _
  | unlink path => exact (fsCall_apart p _).keepsMem p _
  | pipe fd => exact sysPipe_mem p _ hA
  | fork => exact fork_mem p
  | exec path argv => exact exec_mem p path argv hA
  | exit =>
      intro k O hinv hp hm
      exact Wp.bind (exit_mem p hA k O hinv hp hm) fun _ _ hs => hs
  | wait => exact wait_mem p
  | sbrk n => exact sysSbrk_mem p n hA
  | kill pid => exact (kill_apart pid).keepsMem p _
  | getpid => exact (Apart.get fun _ => .pure _).keepsMem p _

/-- The process `p` makes a step. -/
def StepBy (p : ProcId) (k k' : System) : Prop := (k.procs p).state = .runnable ∧
  ((∃ c r, syscall p c k = .ok (r, k')) ∨ ∃ va data r, userStore p va data k = .ok (r, k'))

theorem step_iff : Step k k' ↔ ∃ p, StepBy p k k' := by
  constructor
  · rintro (⟨p, c, r, hp, h⟩ | ⟨p, va, data, r, hp, h⟩)
    · exact ⟨p, hp, Or.inl ⟨c, r, h⟩⟩
    · exact ⟨p, hp, Or.inr ⟨va, data, r, h⟩⟩
  · rintro ⟨p, hp, ⟨c, r, h⟩ | ⟨va, data, r, h⟩⟩
    · exact .call p c r hp h
    · exact .store p va data r hp h

theorem StepBy.safe (hs : StepBy p k k') (hinv : Inv k) (hm : MemInv O k) : Safe (· ≠ p) k k' := by
  obtain ⟨hp, ⟨c, r, h⟩ | ⟨va, data, r, h⟩⟩ := hs
  · exact (syscall_mem p c k O hinv hp hm).of_ok h
  · exact (userStore_mem p va data (fun _ h0 => h0) k O hinv hp hm).of_ok h

theorem RunFrom.memInv (hm : Ready m) (h : RunFrom m k) : ∃ O, MemInv O k := by
  obtain ⟨k₀, hb, hr⟩ := h
  -- the steps need the invariant of the files, too
  have hboth : Inv k ∧ ∃ O, MemInv O k := by
    induction hr with
    | refl => exact ⟨(boots_spec hb).choose_spec.choose_spec.1, boots_mem hm hb⟩
    | tail _ hs ih =>
        obtain ⟨hinv, O, hmem⟩ := ih
        obtain ⟨p, hp⟩ := step_iff.mp hs
        exact ⟨hinv.step hs, (hp.safe hinv hmem).1⟩
  exact hboth.2

end

/-! ## A machine that is ready -/

/-- After `kinit` a memory with an empty kernel table is ready. -/
theorem ready_kinit {mmap : List MmapEntry} {m₀ : Mem} (hb : 0 < m₀.bumpEnd)
    (hnodup : (mmap.flatMap fun e => e.frames m₀.bumpEnd).Nodup) (hout : ∀ e ∈ mmap, m₀.kpml4 ∉ e.frames m₀.bumpEnd)
    (hfree : ∀ e ∈ mmap, ∀ x ∈ e.frames m₀.bumpEnd, Freeable m₀ x) (hzero : m₀.pages m₀.kpml4 = fun _ => 0) :
    ∃ m, kinit mmap m₀ = .ok ((), m) ∧ Ready m := by
  obtain ⟨_, m, hok, hl, -, hroot, hp⟩ := (kinit_spec hb hnodup).returns_of
    fun _ ⟨e, he, x, hx, hbad⟩ => hbad (hfree e he x hx)
  have hpte : ∀ i, m.pte m.kpml4 i = 0 := pte_zeros (by rw [hroot, hp _ hout, hzero])
  refine ⟨m, hok, _, hl, ?_, fun i _ _ => ?_, fun f hf => absurd hf (startUse_ne (by rintro ⟨⟩) (by rintro ⟨⟩))⟩
  · rw [hroot]
    refine if_neg fun h0 => ?_
    obtain ⟨e, he, hx⟩ := List.mem_flatMap.mp (List.mem_reverse.mp h0)
    exact hout e he hx
  · rw [hpte]
    intro h0
    cases h0

theorem ready_small : Ready smallMem := by
  obtain ⟨m, hok, hm⟩ := @ready_kinit [⟨0x10000, 40 * pgsize4kb, true⟩] ⟨fun _ _ => 0, none, 0x10000, 1⟩
    (by decide) (by decide) (by decide) (by unfold Freeable; decide) rfl
  rw [smallMem, hok]
  exact hm

/-- The process has a page there. -/
def HasPage (k : System) (p : ProcId) (v : Nat) : Prop :=
  ∃ f a b, (k.procs p).pml4 = some f ∧ k.mem.page f v = some (a, b)

def hasPage (k : System) (p : ProcId) (v : Nat) : Bool :=
  (k.procs p).pml4.any fun f => (k.mem.page f v).any fun _ => true

theorem hasPage_of_test {k : System} {p : ProcId} {v : Nat} (h : hasPage k p v = true) : HasPage k p v := by
  obtain ⟨f, hf, h⟩ := exists_of_any h
  obtain ⟨⟨a, b⟩, hpage, -⟩ := exists_of_any h
  exact ⟨f, a, b, hf, hpage⟩

/-- The first process gets a page and opens a file. -/
def pageCalls : List (ProcId × Call) := [(initId, .sbrk 4096), (initId, .open [47, 108, 115] 0)]

/-- The first process and its child share a file and have a page each. The child can make a pipe and have the numbers of
its ends stored in the page. -/
structure Twins (k : System) : Prop where
  init : (k.procs initId).state = .runnable
  child : (k.procs childId).state = .runnable
  initPage : HasPage k initId 1
  childPage : HasPage k childId 1
  shared : ∃ f, (k.files f).ref = 2
  pipe : ∃ k' g a b, syscall childId (.pipe 4096) k = .ok (0, k') ∧ (k'.procs childId).pml4 = some g ∧
    k'.mem.page g 1 = some (a, b) ∧ b 0 = 1

/-- The test for `Twins`. -/
def twinsTest (k : System) : Bool :=
  (k.procs initId).state = .runnable ∧ (k.procs childId).state = .runnable ∧ hasPage k initId 1 ∧ hasPage k childId 1 ∧
  (∃ f, (k.files f).ref = 2) ∧ returnsWith (syscall childId (.pipe 4096) k) 0 fun k' =>
    (k'.procs childId).pml4.any fun g => (k'.mem.page g 1).any fun x => x.2 0 = 1

theorem twins_of_test {k : System} (h : twinsTest k = true) : Twins k := by
  obtain ⟨hinit, hchild, hpage, hpage', hshared, hpipe⟩ := of_decide_eq_true h
  obtain ⟨k', hk', hbyte⟩ := of_returnsWith hpipe
  obtain ⟨g, hg, hbyte⟩ := exists_of_any hbyte
  obtain ⟨⟨a, b⟩, hab, hb⟩ := exists_of_any hbyte
  exact ⟨hinit, hchild, hasPage_of_test hpage, hasPage_of_test hpage', hshared, k', g, a, b, hk', hg, hab,
    of_decide_eq_true hb⟩

theorem twins_small : ∃ k k', RunFrom smallMem k ∧ (k.procs initId).state = .runnable ∧ HasPage k initId 1 ∧
    (k.procs initId).sz = 2 * pgsize4kb ∧ fork initId k = .ok (2, k') ∧ RunFrom smallMem k' ∧ Twins k' := by
  have hrun : (runCalls pageCalls smallSystem).any (fun k => (k.procs initId).state = .runnable ∧ hasPage k initId 1 ∧
      (k.procs initId).sz = 2 * pgsize4kb ∧ returnsWith (fork initId k) 2 twinsTest) = true := by decide +kernel
  obtain ⟨k, hk, h⟩ := exists_of_any hrun
  obtain ⟨hinit, hpage, hsz, hfork⟩ := of_decide_eq_true h
  obtain ⟨k', hk', htwins⟩ := of_returnsWith hfork
  have hfrom : RunFrom smallMem k := ⟨smallSystem, boots_small, steps_of_runCalls hk⟩
  exact ⟨k, k', hfrom, hinit, hasPage_of_test hpage, hsz, hk', hfrom.step (.call initId .fork 2 hinit hk'),
    twins_of_test htwins⟩

end Xv6.Kernel
