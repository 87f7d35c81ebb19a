import Xv6.Kernel.Lemmas.MemRun

/-!
# The memory of the processes: main results
-/

namespace Xv6.Kernel

open Xv6.Lib Xv6.Fs Xv6.Vm

section

variable {O : Nat → Use Owner} {k k' : System} {m : Mem} {p q : ProcId} {x : Nat} {path : List UInt8}
    {argv : List (List UInt8)}

/-! ## One role for every frame -/

/-- What a frame is used for. -/
inductive Role where
  | free
  | stack (p : ProcId)
  | pipe
  /-- A table of an address space at some depth, or a page at depth 4. -/
  | part (p : ProcId) (depth key : Nat)

/-- The frame `x` has a role, as the free list, the process table, the file table and the page tables tell. -/
def HasRole (k : System) : Role → Nat → Prop
  | .free, x => ∃ l, Chain k.mem.pages k.mem.freeList l ∧ x ∈ l
  | .stack p, x => (k.procs p).stack = some x
  | .pipe, x => ∃ f, (k.files f).type = .pipe ∧ (k.files f).pipe = x
  | .part p e i, x => ∃ f, (k.procs p).root = some f ∧ lower.In e i ∧ k.mem.node f e i = some x

theorem chain_unique {pages : Nat → Bytes} : ∀ {l l' : List Nat} {o : Option Nat}, Chain pages o l →
    Chain pages o l' → l = l'
  | [], [], _, _, _ => rfl
  | [], _ :: _, _, h, h' => by
    rw [show _ = none from h] at h'
    cases h'.1
  | _ :: _, [], _, h, h' => by
    rw [show _ = none from h'] at h
    cases h.1
  | x :: l, x' :: l', _, h, h' => by
    obtain rfl := Option.some.inj (h.1.symm.trans h'.1)
    rw [chain_unique h.2 h'.2]

/-- The use that stands for a role. -/
def Role.IsUse (r : ProcId → Option Nat) : Role → Use Owner → Prop
  | .free, u => u = .free
  | .stack p, u => u = .kept (.stack p)
  | .pipe, u => u = .kept .pipe
  | .part p e i, u => ∃ f, r p = some f ∧ u = .node f e i

theorem MemInv.isUse {ρ : Role} (h : MemInv O k) (hx : HasRole k ρ x) : ρ.IsUse (rootOf k.procs) (O x) := by
  cases ρ with
  | free =>
      obtain ⟨l, hl, hx⟩ := hx
      obtain ⟨l', hl', -, hfree⟩ := h.owned.frames.chain
      rw [chain_unique hl hl'] at hx
      exact (hfree x).mp hx
  | stack p => exact (h.owned.owns.stack p x).mpr hx
  | pipe =>
      obtain ⟨f, htype, rfl⟩ := hx
      exact (h.owned.pipes.frame _).mpr ⟨f, _, _, if_pos htype⟩
  | part p e i =>
      obtain ⟨f, hf, hin, hx⟩ := hx
      exact ⟨f, hf, (h.owned.frames.tree ((h.owned.owns.root f).mpr ⟨p, hf⟩) hin hin.1).mp hx⟩

theorem Owns.role_unique {r t : ProcId → Option Nat} {ρ ρ' : Role} {u : Use Owner} (h : Owns O r t) (hu : ρ.IsUse r u)
    (hu' : ρ'.IsUse r u) : ρ = ρ' := by
  cases ρ <;> cases ρ' <;> simp only [Role.IsUse] at hu hu'
  case part.part p e i p' e' i' =>
    obtain ⟨f, hf, rfl⟩ := hu
    obtain ⟨f', hf', h0⟩ := hu'
    obtain ⟨rfl, rfl, rfl⟩ := Use.node.inj h0
    rw [h.apart hf hf']
  case stack.stack p p' =>
    subst hu
    cases hu'
    rfl
  case free.free | pipe.pipe => rfl
  case free.part | stack.part | pipe.part =>
    subst hu
    obtain ⟨f, -, h0⟩ := hu'
    cases h0
  case part.free | part.stack | part.pipe =>
    subst hu'
    obtain ⟨f, -, h0⟩ := hu
    cases h0
  all_goals
    subst hu
    cases hu'

/-- In every state of a run no frame has two roles, and none is on the free list twice. The frames with a role are
outside the kernel, and what the processes share is the kernel's half of their tables. -/
theorem frames_exclusive (hm : Ready m) (h : RunFrom m k) :
    (∃ l, Chain k.mem.pages k.mem.freeList l ∧ l.Nodup) ∧ (∀ x ρ ρ', HasRole k ρ x → HasRole k ρ' x → ρ = ρ') ∧
    (∀ x ρ, HasRole k ρ x → k.mem.bumpEnd ≤ pgsize4kb * x ∧ pgsize4kb * x < phyStop) ∧
    ∀ p f, (k.procs p).root = some f → ∀ i, 256 ≤ i → i < 512 → k.mem.pte f i = k.mem.pte k.mem.kpml4 i := by
  obtain ⟨O, hk⟩ := h.memInv hm
  obtain ⟨l, hl, hnodup, -⟩ := hk.owned.frames.chain
  refine ⟨⟨l, hl, hnodup⟩, fun x ρ ρ' hx hx' => hk.owned.owns.role_unique (hk.isUse hx) (hk.isUse hx'),
    fun x ρ hx => ?_, fun p f hf => ?_⟩
  · have hne : O x ≠ .kernel := fun h0 => by
      have hu := hk.isUse hx
      rw [h0] at hu
      cases ρ with
      | part p e i =>
          obtain ⟨f, -, h1⟩ := hu
          cases h1
      | free | stack p | pipe => cases hu
    obtain ⟨h1, h2, -⟩ := hk.owned.frames.range hne fun h0 => absurd h0 (by decide)
    exact ⟨h1, h2⟩
  · exact hk.owned.kern.half f ((hk.owned.owns.root f).mpr ⟨p, hf⟩)

/-- The frame of a page has this role and no other. -/
theorem MemInv.hasRole_page {f v a : Nat} {b : Bytes} (h : MemInv O k) (hroot : (k.procs q).root = some f)
    (hv : v < userPages) (hpage : k.mem.page f v = some (a, b)) (ρ : Role) :
    HasRole k ρ (pteAddr a) ↔ ρ = .part q 4 v := by
  obtain ⟨hpres, rfl, -⟩ := page_eq_some hpage
  have hf := (h.owned.owns.root f).mpr ⟨q, hroot⟩
  have hin := lower_in.mpr hv
  have hself : HasRole k (.part q 4 v) (pteAddr (k.mem.entry f 4 v)) :=
    ⟨f, hroot, hin, (h.owned.frames.tree hf hin hin.1).mpr (h.owned.frames.page_frame hf hv hpres)⟩
  constructor
  · intro hρ
    exact h.owned.owns.role_unique (h.isUse hρ) (h.isUse hself)
  · rintro rfl
    exact hself

theorem MemInv.part_of_hasPage {v : Nat} (h : MemInv O k) (hq : (k.procs q).state = .runnable) (hv : v < userPages)
    (hpage : HasPage k q v) : ∃ x, HasRole k (.part q 4 v) x := by
  obtain ⟨f, a, b, hf, hab⟩ := hpage
  have hroot := (Proc.root_used (Proc.used_of_runnable hq)).trans hf
  exact ⟨pteAddr a, (h.hasRole_page hroot hv hab _).mpr rfl⟩

/-- After `sbrk` and `fork` both processes have a page at 4096, in different frames. -/
theorem frames_exclusive_twins : ∃ k x y, RunFrom smallMem k ∧ HasRole k (.part initId 4 1) x ∧
    HasRole k (.part childId 4 1) y ∧ x ≠ y := by
  obtain ⟨-, k, -, -, -, -, -, hrun, htwins⟩ := twins_small
  obtain ⟨O, hk⟩ := hrun.memInv ready_small
  obtain ⟨x, hx⟩ := hk.part_of_hasPage htwins.init (by decide) htwins.initPage
  obtain ⟨y, hy⟩ := hk.part_of_hasPage htwins.child (by decide) htwins.childPage
  obtain ⟨-, hroles, -⟩ := frames_exclusive ready_small hrun
  refine ⟨k, x, y, hrun, hx, hy, ?_⟩
  rintro rfl
  have hsame := (Role.part.inj (hroles x _ _ hx hy)).1
  exact absurd hsame (by decide)

/-- The frame of a table or a page. -/
def partOf (k : System) (p : ProcId) (e i : Nat) : Option Nat := (k.procs p).root.bind fun f => k.mem.node f e i

theorem hasRole_part {e i : Nat} (he : e ≤ 4) (hi : i < lower.lim e) (h : partOf k p e i = some x) :
    HasRole k (.part p e i) x := by
  obtain ⟨f, hf, hx⟩ := Option.bind_eq_some_iff.mp h
  exact ⟨f, hf, ⟨he, hi⟩, hx⟩

/-- The address of the upper half of the entry 9 in a table, and of the lower half of the entry 10 behind it. -/
def entryAddr (t : Nat) : Nat := pageOffset + pgsize4kb * t + 76

/-- With the descriptors 6 and 7, and addresses in their page tables, two processes get one frame for their page 10. -/
theorem pipe_shares : ∃ k k₁ k₂ t u, RunFrom smallMem k ∧ (k.procs initId).state = .runnable ∧
    (k.procs childId).state = .runnable ∧ HasRole k (.part initId 3 0) t ∧ HasRole k (.part childId 3 0) u ∧
    sysPipeBy storeDirect initId (entryAddr t) k = .ok (0, k₁) ∧
    sysPipeBy storeDirect childId (entryAddr u) k₁ = .ok (0, k₂) ∧
    HasRole k₂ (.part initId 4 10) 0 ∧ HasRole k₂ (.part childId 4 10) 0 := by
  have hrun : (runCalls [(initId, .sbrk 4096), (initId, .pipe 0), (initId, .pipe 0), (initId, .pipe 0),
      (initId, .fork)] smallSystem).any (fun k => (k.procs initId).state = .runnable ∧ (k.procs childId).state = .runnable ∧
        (partOf k initId 3 0).any fun t => (partOf k childId 3 0).any fun u =>
          returnsWith (sysPipeBy storeDirect initId (entryAddr t) k) 0 fun k₁ =>
            returnsWith (sysPipeBy storeDirect childId (entryAddr u) k₁) 0 fun k₂ =>
              partOf k₂ initId 4 10 = some 0 ∧ partOf k₂ childId 4 10 = some 0) = true := by decide +kernel
  obtain ⟨k, hk, h⟩ := exists_of_any hrun
  obtain ⟨hinit, hchild, h⟩ := of_decide_eq_true h
  obtain ⟨t, ht, h⟩ := exists_of_any h
  obtain ⟨u, hu, h⟩ := exists_of_any h
  obtain ⟨k₁, hk₁, h⟩ := of_returnsWith h
  obtain ⟨k₂, hk₂, h⟩ := of_returnsWith h
  obtain ⟨hx, hy⟩ := of_decide_eq_true h
  exact ⟨k, k₁, k₂, t, u, ⟨smallSystem, boots_small, steps_of_runCalls hk⟩, hinit, hchild,
    hasRole_part (by decide) (by decide) ht, hasRole_part (by decide) (by decide) hu, hk₁, hk₂,
    hasRole_part (by decide) (by decide) hx, hasRole_part (by decide) (by decide) hy⟩

/-! ## Isolation -/

/-- The memory that a process sees. -/
structure SameMemory (q : ProcId) (k k' : System) : Prop where
  alive : (k'.procs q).Alive
  pml4 : (k'.procs q).pml4 = (k.procs q).pml4
  sz : (k'.procs q).sz = (k.procs q).sz
  page : ∀ f, (k.procs q).pml4 = some f → ∀ v < userPages, k'.mem.page f v = k.mem.page f v

theorem SameMemory.trans {k₁ : System} (h : SameMemory q k k₁) (h' : SameMemory q k₁ k') : SameMemory q k k' :=
  ⟨h'.alive, h'.pml4.trans h.pml4, h'.sz.trans h.sz,
    fun f hf v hv => (h'.page f (h.pml4.trans hf) v hv).trans (h.page f hf v hv)⟩

theorem Keeps.sameMemory {A : ProcId → Prop} (h : Keeps A k k') (hq : A q) (ha : (k.procs q).Alive) :
    SameMemory q k k' := by
  obtain ⟨hshare, hpage⟩ := h q hq ha
  obtain ⟨h1, h2, h3, -, h4⟩ := share_eq hshare
  exact ⟨⟨mt h1.mp ha.1, mt h2.mp ha.2⟩, h3, h4, hpage⟩

/-- The steps of the other processes change nothing that a process sees of its memory, whatever they do. -/
theorem isolation (hm : Ready m) (h : RunFrom m k) (hq : (k.procs q).Alive)
    (hr : Relation.ReflTransGen (fun k k' => ∃ p, p ≠ q ∧ StepBy p k k') k k') : SameMemory q k k' := by
  -- the invariants are needed in every state on the way
  have hall : RunFrom m k' ∧ SameMemory q k k' := by
    induction hr with
    | refl => exact ⟨h, hq, rfl, rfl, fun _ _ _ _ => rfl⟩
    | tail _ hs ih =>
        obtain ⟨hrun, hsame⟩ := ih
        obtain ⟨p, hpq, hs⟩ := hs
        obtain ⟨O, hmem⟩ := hrun.memInv hm
        have hkeeps := (hs.safe hrun.reachable.inv hmem).2
        obtain ⟨k₀, hb, hr⟩ := hrun
        exact ⟨⟨k₀, hb, hr.tail (step_iff.mpr ⟨p, hs⟩)⟩, hsame.trans (hkeeps.sameMemory hpq.symm hsame.alive)⟩
  exact hall.2

/-- The child makes a pipe: its page changes, and its parent keeps what it has. -/
theorem isolation_twins : ∃ k k' g a b, RunFrom smallMem k ∧ StepBy childId k k' ∧ (k'.procs childId).pml4 = some g ∧
    k'.mem.page g 1 = some (a, b) ∧ b 0 = 1 ∧ SameMemory initId k k' := by
  obtain ⟨-, k, -, -, -, -, -, hrun, htwins⟩ := twins_small
  obtain ⟨k', g, a, b, hk, hg, hab, hb⟩ := htwins.pipe
  have hstep : StepBy childId k k' := ⟨htwins.child, Or.inl ⟨.pipe 4096, _, hk⟩⟩
  refine ⟨k, k', g, a, b, hrun, hstep, hg, hab, hb, isolation ready_small hrun ?_ (.single ⟨childId, by decide, hstep⟩)⟩
  rw [Proc.Alive, htwins.init]
  exact ⟨by rintro ⟨⟩, by rintro ⟨⟩⟩

/-! ## Reference counts -/

/-- In every state of a run the counts are the numbers of the pointers, and the flags of a pipe tell which of its ends
are open files. -/
theorem references_exact (hm : Ready m) (h : RunFrom m k) :
    (∀ f, (k.files f).ref = refs (fdsOf k.procs) f ∧ ((k.files f).ref = 0 → (k.files f).type = .none)) ∧
    (∀ ip, (k.fs.cell ip).ref = refs (inodeOf k.files) ip + refs (cwdsOf k.procs) ip ∧ (k.fs.cell ip).locked = false) ∧
    (∀ ip jp, 0 < (k.fs.cell ip).ref → 0 < (k.fs.cell jp).ref → (k.fs.cell ip).inum = (k.fs.cell jp).inum → ip = jp) ∧
    ∀ q, (∃ f, (k.files f).type = .pipe ∧ (k.files f).pipe = q) → ∀ w, ((k.pipes q).isOpen w = true ↔
      ∃ f, 0 < (k.files f).ref ∧ (k.files f).type = .pipe ∧ (k.files f).pipe = q ∧ (k.files f).writable = w ∧
        (k.files f).readable = !w) := by
  obtain ⟨O, hk⟩ := h.memInv hm
  have hinv := h.reachable.inv
  refine ⟨fun f => ⟨by simpa only [Pi.zero_apply, Nat.add_zero] using hinv.table.file f, hinv.table.closed f⟩,
    fun ip => ⟨by simpa only [Pi.zero_apply, Nat.add_zero] using hinv.table.inode ip, congrFun hinv.quiet.unlocked ip⟩,
      fun ip jp hi hj he => ?_, fun q hq w => ?_⟩
  · exact hinv.quiet.wf.cache.unique ip jp hi hj he
  · obtain ⟨f, htype, hpipe⟩ := hq
    have hq : O q = .kept .pipe := (hk.owned.pipes.frame q).mpr ⟨f, _, _, (if_pos htype).trans (by rw [hpipe])⟩
    rw [hk.owned.pipes.isOpen w hq]
    refine exists_congr fun f => ?_
    rw [endsOf, File.pipeEnd]
    split
    · rename_i hf
      have href : 0 < (k.files f).ref := Nat.pos_of_ne_zero fun h0 => by
        rw [hinv.table.closed f h0] at hf
        cases hf
      simp only [Option.some.injEq, Prod.mk.injEq, hf, href, true_and]
      exact ⟨fun h0 => ⟨h0.1, h0.2.2, h0.2.1⟩, fun h0 => ⟨h0.1, h0.2.2, h0.2.1⟩⟩
    · rename_i hf
      exact iff_of_false (by rintro ⟨⟩) fun h0 => hf h0.2.1

/-- After `fork` the file that the first process has open is open twice. -/
theorem references_exact_twins : ∃ k f, RunFrom smallMem k ∧ (k.files f).ref = 2 ∧ refs (fdsOf k.procs) f = 2 := by
  obtain ⟨-, k, -, -, -, -, -, hrun, htwins⟩ := twins_small
  obtain ⟨f, hf⟩ := htwins.shared
  obtain ⟨h, -⟩ := references_exact ready_small hrun
  exact ⟨k, f, hrun, hf, (h f).1.symm.trans hf⟩

/-! ## Copies -/

/-- The child of `fork` is a copy of its parent: it has the same pages from page 1 on, in frames with no other role and
with the same flags, the same registers but for the result, and the same files and working directory. Page 0 is not
copied. No other process changes. -/
theorem fork_copies {r : Int} (hm : Ready m) (h : RunFrom m k) (hp : (k.procs p).state = .runnable)
    (hok : fork p k = .ok (r, k')) (hr : r ≠ -1) :
    r = int64 (pidOf k.nextPid) ∧ ∃ new f g x, (k.procs new).state = .unused ∧ (k.procs p).pml4 = some f ∧
      k'.procs = upd k.procs new ((k.procs p).child p (k.procs new) (pidOf k.nextPid) g x) ∧
      (∀ v a b, 1 ≤ v → v < pageUp (k.procs p).sz → k.mem.page f v = some (a, b) →
        ∃ a', k'.mem.page g v = some (a', b) ∧ pteFlags a' = pteFlags a ∧
          ∀ ρ, HasRole k' ρ (pteAddr a') ↔ ρ = .part new 4 v) ∧
      (∀ v < userPages, ¬ (1 ≤ v ∧ v < pageUp (k.procs p).sz) → k'.mem.page g v = none) ∧
      ∀ q f, (k.procs q).root = some f → ∀ v < userPages, k'.mem.page f v = k.mem.page f v := by
  obtain ⟨O, hk⟩ := h.memInv hm
  obtain ⟨O', hk'⟩ := (h.step (.call p .fork r hp hok)).memInv hm
  obtain ⟨-, -, -, -, hsz⟩ := hk.space (Proc.used_of_runnable hp)
  obtain ⟨rfl, -⟩ | ⟨rfl, new, hf⟩ := (fork_cases h.reachable.inv hp hk).of_ok hok
  · exact absurd rfl hr
  obtain ⟨f, g, x, hpml4, hprocs, hcopies, -⟩ := hf.child
  refine ⟨rfl, new, f, g, x, hf.fresh, hpml4, hprocs, fun v a b h1 hv hpage => ?_, hcopies.outside, hf.same⟩
  obtain ⟨y, hpage'⟩ := hcopies.inside v h1 hv a b hpage
  have hroot : (k'.procs new).root = some g := by
    rw [hprocs, upd_self]
    rfl
  have hlt : v < userPages := by
    rw [lt_pageUp] at hv
    simp only [pgsize4kb, userTop, userPages] at hv hsz ⊢
    omega
  exact ⟨_, hpage', pteFlags_add y (pteFlags_lt a), hk'.hasRole_page hroot hlt hpage'⟩

/-- The page at 4096 is copied into another frame. -/
theorem fork_copies_twins : ∃ k k' new f g a a' b, RunFrom smallMem k ∧ fork initId k = .ok (2, k') ∧
    (k.procs initId).pml4 = some f ∧ (k'.procs new).pml4 = some g ∧ k.mem.page f 1 = some (a, b) ∧
    k'.mem.page g 1 = some (a', b) ∧ pteAddr a' ≠ pteAddr a := by
  obtain ⟨k, k', hrun, hinit, ⟨f, a, b, hf, hab⟩, hsz, hfork, hrun', htwins⟩ := twins_small
  obtain ⟨-, new, f', g, x, hnew, hf', hprocs, hcopy, -, hsame⟩ := fork_copies ready_small hrun hinit hfork (by decide)
  obtain rfl := Option.some.inj (hf'.symm.trans hf)
  obtain ⟨a', hab', -, hrole⟩ := hcopy 1 a b (Nat.le_refl 1) (by rw [hsz]; decide) hab
  refine ⟨k, k', new, f', g, a, a', b, hrun, hfork, hf, by rw [hprocs, upd_self]; rfl, hab, hab', fun h0 => ?_⟩
  -- the frame would be a page of the parent as well
  obtain ⟨O, hk⟩ := hrun'.memInv ready_small
  have hne : initId ≠ new := fun h1 => by
    rw [← h1, hinit] at hnew
    cases hnew
  have hroot : (k'.procs initId).root = some f' := by
    rw [hprocs, upd_of_ne hne]
    exact (Proc.root_used (Proc.used_of_runnable hinit)).trans hf
  have hpage : k'.mem.page f' 1 = some (a, b) := by
    rw [hsame initId f' ((Proc.root_used (Proc.used_of_runnable hinit)).trans hf) 1 (by decide)]
    exact hab
  have hpart := (hrole _).mp (h0 ▸ (hk.hasRole_page hroot (by decide) hpage _).mpr rfl)
  exact hne (Role.part.inj hpart).1

/-! ## Programs -/

theorem node_length_le {s : Fs.State} (h : s.WF) (i : Nat) : (s.node i).data.length ≤ 525 * 4096 := by
  rw [show (s.node i).data.length = (s.dinode i).size from nodeOf_size _ _]
  exact h.size_le i

/-- The segments of a file that are to be loaded. -/
def segmentsOf (data : List UInt8) : List Segment :=
  ((headersOf (.ofBytes (data.take elfHeaderSize)) data).filter fun ph => ph.type = elfProgLoad).map fun ph =>
    ⟨ph, (data.drop ph.offset).take ph.fileSz⟩

/-- The process `x` starts the program in a file with the contents `data`: its memory `m` holds the segments of the
file, the later ones over the earlier ones and zeros around them, with two pages behind them of which the first is not
accessible. -/
def StartsProgram (data : List UInt8) (x : Proc) (m : Mem) : Prop :=
  ∃ (elf : ElfHeader) (g n : Nat), elf = .ofBytes (data.take elfHeaderSize) ∧ elf.magic = elfMagic ∧
    (∀ s ∈ segmentsOf data, s.header.Loadable ∧ s.data.length = s.header.fileSz) ∧
    n = pageUp (sizeOf (segmentsOf data)) ∧ x.pml4 = some g ∧ x.sz = pgsize4kb * (n + 2) ∧ x.rp.rcx = elf.entry ∧
    (∀ a, pgsize4kb ≤ a → a < pgsize4kb * (n + 1) → m.byte g a = some (imageOf (segmentsOf data) a)) ∧
    ∀ v < userPages, (m.page g v ≠ none ↔ 1 ≤ v ∧ v < n + 2) ∧ (Accessible m g v ↔ 1 ≤ v ∧ v < n + 2 ∧ v ≠ n)

/-- The process `x` has its arguments on the stack in the last page of its memory `m`. Below that page the memory is
`b`. -/
def HasArguments (b : Bytes) (argv : List (List UInt8)) (x : Proc) (m : Mem) : Prop :=
  ∃ (n g sp : Nat) (b' : Bytes) (ptrs : List Nat), x.pml4 = some g ∧ x.sz = pgsize4kb * (n + 2) ∧ x.rp.rsp = sp ∧
    x.rp.rdi = argv.length ∧ x.rp.rsi = sp + 16 ∧ sp % 16 = 8 ∧ StackLayout g n b (argv.map terminated) sp ptrs b' m

/-- The bytes of a file that a segment stands for. -/
theorem Segment.Proper.eq {data : List UInt8} {s : Segment} (h : s.Proper (FromFile data)) :
    s = ⟨s.header, (data.drop s.header.offset).take s.header.fileSz⟩ := by
  have hdata := h.source.eq
  rw [h.length] at hdata
  rw [← hdata]

/-- The segments that were loaded are those of the file, since the loop went through. -/
theorem Progress.segments {data : List UInt8} {elf : ElfHeader} {f sz : Nat} {phs : List ProgHeader}
    {segs : List Segment} {i : Int} (h : Progress (FromFile data) elf f phs segs i sz m)
    (hdata : data.length ≤ 525 * 4096) (hi : elf.phNum ≤ i) (hoff : elf.phOff < 2 ^ 64)
    (helf : elf = .ofBytes (data.take elfHeaderSize)) : segs = segmentsOf data := by
  rw [segmentsOf, ← helf, ← h.complete hdata hi hoff, ← h.chosen, List.map_map]
  exact (List.map_id' segs).symm.trans (List.map_congr_left fun s hs => (h.loads.proper s hs).eq)

theorem FromFile.header {data raw : List UInt8} (h : FromFile data 0 raw) (hraw : raw.length = elfHeaderSize) :
    raw = data.take elfHeaderSize := by
  rw [← hraw]
  exact h.eq

theorem Started.startsProgram {data : List UInt8} (h : Started (FromFile data) p path argv k k')
    (hdata : data.length ≤ 525 * 4096) : StartsProgram data (k'.procs p) k'.mem := by
  obtain ⟨raw, g, sz, sp, hraw, hS, hmagic, hsz, hprocs, -, phs, segs, j, sz₀, m₀, ptrs, b, hprog, hj, rfl, hlayout⟩ :=
    h.program
  have hself := congrFun hprocs p
  rw [upd_self] at hself
  have heq := hS.header hraw
  have hsegs := hprog.segments hdata hj (field_lt raw 32 (Nat.le_refl 8)) (by rw [← heq])
  refine ⟨.ofBytes raw, g, pageUp sz₀, by rw [← heq], hmagic, fun s hs => ?_, by rw [← hsegs, hprog.loads.size],
    by rw [hself]; rfl, by rw [hself]; rfl, by rw [hself]; rfl, fun a ha ha' => ?_,
    fun v hv => ⟨hlayout.fence.present v hv, hlayout.fence.accessible v hv⟩⟩
  · have hproper := hprog.loads.proper s (hsegs ▸ hs)
    exact ⟨hproper.loadable, hproper.length⟩
  · rw [hlayout.fence.byte a ha (Nat.lt_of_lt_of_le ha' (Nat.mul_le_mul_left _ (Nat.le_succ _))),
      hlayout.same a ha', hsegs]

/-- The length of an argument is an `int`. -/
theorem map_copied (hshort : ∀ a ∈ argv, (cstr a).length + 1 < 2 ^ 31) : argv.map copied = argv.map terminated :=
  List.map_congr_left fun a ha => copied_short (by rw [terminated, List.length_append]; exact hshort a ha)

/-- Arguments on the stack fit into its page. -/
theorem HasArguments.short {b : Bytes} {x : Proc} (h : HasArguments b argv x m) :
    ∀ a ∈ argv, (cstr a).length + 1 < 2 ^ 31 := by
  obtain ⟨n, g, sp, b', ptrs, -, -, -, -, -, -, hlayout⟩ := h
  obtain ⟨top, htop, hplaced⟩ := hlayout.strings
  intro a ha
  obtain ⟨i, hi, rfl⟩ := List.getElem_of_mem ha
  have hs : (argv.map terminated)[i]? = some (terminated argv[i]) := by
    rw [List.getElem?_map, List.getElem?_eq_getElem hi, Option.map_some]
  obtain ⟨q, hq⟩ : ∃ q, ptrs[i]? = some q :=
    ⟨_, List.getElem?_eq_getElem (by rw [hplaced.length, List.length_map]; exact hi)⟩
  have hinside := hplaced.inside i _ q hs hq
  have hlow := hlayout.low
  rw [terminated, List.length_append, List.length_singleton] at hinside
  simp only [pgsize4kb] at hinside hlow
  omega

/-- The stack stands behind the segments that were loaded, and the arguments are on it unless one is too long for an
`int`. -/
theorem Started.hasArguments {S : Nat → List UInt8 → Prop} (h : Started S p path argv k k') :
    argv.length ≤ maxarg ∧
    ∃ raw f phs segs i sz m₀, raw.length = elfHeaderSize ∧ S 0 raw ∧ Progress S (.ofBytes raw) f phs segs i sz m₀ ∧
      (ElfHeader.ofBytes raw).phNum ≤ i ∧
      (HasArguments (imageOf segs) argv (k'.procs p) k'.mem ↔ ∀ a ∈ argv, (cstr a).length + 1 < 2 ^ 31) := by
  obtain ⟨raw, g, sz, sp, hraw, hS, -, hsz, hprocs, -, phs, segs, j, sz₀, m₀, ptrs, b, hprog, hj, rfl, hlayout⟩ :=
    h.program
  have hself := congrFun hprocs p
  rw [upd_self] at hself
  refine ⟨by simpa only [List.length_map] using hlayout.few, raw, g, phs, segs, j, sz₀, m₀, hraw, hS, hprog, hj,
    HasArguments.short, fun hshort => ?_⟩
  rw [map_copied hshort] at hlayout
  have hbottom := hlayout.bottom
  refine ⟨pageUp sz₀, g, sp, b, ptrs, by rw [hself]; rfl, by rw [hself]; rfl, by rw [hself]; rfl, by rw [hself]; rfl,
    ?_, ?_, hlayout⟩
  · rw [hself]
    have hlt : sp + 16 < 2 ^ 64 := by
      simp only [userTop] at hsz
      omega
    exact wrap_of_lt hlt
  · simp only [argBytes, roundUp, pgsize4kb] at hbottom
    omega

/-- The word at the stack pointer is in the last page of the process. -/
def StackInside (x : Proc) : Prop := x.sz - pgsize4kb ≤ x.rp.rsp ∧ x.rp.rsp + 8 ≤ x.sz

/-- The word at the stack pointer is below what `exec` puts on the stack. -/
theorem Started.stackInside {S : Nat → List UInt8 → Prop} (h : Started S p path argv k k') :
    argBytes (argv.map copied) ≤ pgsize4kb ∧
      (StackInside (k'.procs p) ↔ argBytes (argv.map copied) < pgsize4kb) := by
  obtain ⟨raw, g, sz, sp, -, -, -, -, hprocs, -, phs, segs, j, sz₀, m₀, ptrs, b, -, -, rfl, hlayout⟩ := h.program
  have hself := congrFun hprocs p
  rw [upd_self] at hself
  have hbottom := hlayout.bottom
  have hlow := hlayout.low
  have hmod : argBytes (argv.map copied) % 16 = 0 := by
    simp only [argBytes, roundUp]
    omega
  rw [StackInside, hself]
  simp only [Proc.started]
  generalize argBytes (argv.map copied) = n at hbottom hmod ⊢
  simp only [pgsize4kb] at hbottom hlow ⊢
  omega

/-- An argument that fills the page of the stack, with the pointers. -/
def fullArg : List UInt8 := List.replicate 4063 97

/-- An argument that has the length -1 as an `int`. -/
def wrappedArg : List UInt8 := List.replicate (2 ^ 32 - 1) 97

theorem cstr_replicate (n : Nat) : cstr (List.replicate n 97) = List.replicate n 97 :=
  List.takeWhile_eq_self_iff.mpr fun x hx => by rw [List.eq_of_mem_replicate hx]; decide

theorem length_wrappedArg : (terminated wrappedArg).length = 2 ^ 32 := by
  rw [terminated, wrappedArg, cstr_replicate, List.length_append, List.length_replicate]
  rfl

/-- `/init` -/
def initPath : List UInt8 := [slash, 105, 110, 105, 116]

/-- The child of the first process executes `init` with different arguments, and fails to execute `cat`, which ends
after its header. -/
structure Executes (k : System) : Prop where
  child : (k.procs childId).state = .runnable
  file : ∃ cwd i name, (k.procs childId).cwd = some cwd ∧
    resolve k.fs.node (k.fs.cell cwd).inum initPath false = some (i, name) ∧
    (k.fs.node i).type ≠ tDev ∧ (k.fs.node i).data = program
  short : ∃ k', exec childId initPath [[97]] k = .ok (0, k')
  full : ∃ k', exec childId initPath [fullArg] k = .ok (0, k')
  wrapped : ∃ k', exec childId initPath [wrappedArg] k = .ok (0, k')
  refused : ∃ k', exec childId [slash, 99, 97, 116] [] k = .ok (-1, k')

/-- The test for `Executes`. -/
def executesTest (k : System) : Bool :=
  (k.procs childId).state = .runnable ∧
  ((k.procs childId).cwd.any fun cwd =>
    (resolve k.fs.node (k.fs.cell cwd).inum initPath false).any fun x =>
      (k.fs.node x.1).type ≠ tDev ∧ (k.fs.node x.1).data = program) ∧
  returnsWith (exec childId initPath [[97]] k) 0 (fun _ => true) ∧
  returnsWith (exec childId initPath [fullArg] k) 0 (fun _ => true) ∧
  returnsWith (exec childId initPath [wrappedArg] k) 0 (fun _ => true) ∧
  returnsWith (exec childId [slash, 99, 97, 116] [] k) (-1) fun _ => true

theorem executes_of_test (h : executesTest k = true) : Executes k := by
  obtain ⟨hchild, hfile, hshort, hfull, hwrapped, hbad⟩ := of_decide_eq_true h
  obtain ⟨cwd, hcwd, hfile⟩ := exists_of_any hfile
  obtain ⟨⟨i, name⟩, hres, hfile⟩ := exists_of_any hfile
  obtain ⟨htype, hdata⟩ := of_decide_eq_true hfile
  obtain ⟨k₁, hshort, -⟩ := of_returnsWith hshort
  obtain ⟨k₂, hfull, -⟩ := of_returnsWith hfull
  obtain ⟨k₃, hwrapped, -⟩ := of_returnsWith hwrapped
  obtain ⟨k₄, hbad, -⟩ := of_returnsWith hbad
  exact ⟨hchild, ⟨cwd, i, name, hcwd, hres, htype, hdata⟩, ⟨k₁, hshort⟩, ⟨k₂, hfull⟩, ⟨k₃, hwrapped⟩, ⟨k₄, hbad⟩⟩

theorem copyOut_nil (f va : Nat) : copyOut f va [] = pure 0 := by
  simp only [copyOut, loop, List.length_nil, Nat.lt_irrefl, if_false]
  rfl

/-- Nothing is copied of an argument whose length with its end is 0 as an `int`. -/
theorem execArgs_wrapped {arg : List UInt8} (h : toInt (terminated arg).length = 0) (f sp : Nat) :
    execArgs f sp [arg] = pure (some (roundDown (wrap sp) 8, [roundDown (wrap sp) 8])) := by
  have h0 : toInt (cstr arg ++ [0]).length = 0 := h
  unfold execArgs
  simp only [loop, List.length_singleton]
  rw [if_neg (by decide)]
  simp only [h0, Int.sub_zero, Int.lt_irrefl, if_false, Int.toNat_zero, List.take_zero, copyOut_nil]
  rfl

theorem executes_small : ∃ k, RunFrom smallMem k ∧ Executes k := by
  have hzero : toInt (terminated wrappedArg).length = 0 := by
    rw [length_wrappedArg]
    decide
  have hrun : (runCalls [(initId, .fork)] smallSystem).any executesTest = true := by
    -- the long argument itself cannot be evaluated
    unfold executesTest
    simp only [exec, execInode, execStack, execArgs_wrapped hzero]
    decide +kernel
  obtain ⟨k, hk, h⟩ := exists_of_any hrun
  exact ⟨k, ⟨smallSystem, boots_small, steps_of_runCalls hk⟩, executes_of_test h⟩

/-- When `exec` succeeds the process starts the program in the file that the path leads to, unless that is a device. -/
theorem exec_image {cwd : Slot} (hm : Ready m) (h : RunFrom m k) (hp : (k.procs p).state = .runnable)
    (hcwd : (k.procs p).cwd = some cwd) :
    Wp (exec p path argv) (fun r k' => r = 0 →
      ∃ i name, resolve k.fs.node (k.fs.cell cwd).inum path false = some (i, name) ∧
        ((k.fs.node i).type ≠ tDev → StartsProgram (k.fs.node i).data (k'.procs p) k'.mem)) (fun _ => True) k := by
  obtain ⟨O, hk⟩ := h.memInv hm
  refine (exec_file h.reachable.inv hk hp hcwd path argv).post fun r k' hs hr => ?_
  obtain ⟨i, name, hres, hs⟩ := hs hr
  exact ⟨i, name, hres, fun htype => (hs htype).startsProgram (node_length_le h.reachable.inv.quiet.wf i)⟩

/-- The three bytes of the program are in its memory. -/
theorem exec_image_program : ∃ k k', RunFrom smallMem k ∧
    exec childId initPath [[97]] k = .ok (0, k') ∧ StartsProgram program (k'.procs childId) k'.mem ∧
      imageOf (segmentsOf program) 0x1001 = 2 := by
  obtain ⟨k, hrun, hk⟩ := executes_small
  obtain ⟨cwd, i, name, hcwd, hres, htype, hdata⟩ := hk.file
  obtain ⟨k', hok⟩ := hk.short
  obtain ⟨i', name', hres', hstarts⟩ := (exec_image ready_small hrun hk.child hcwd).of_ok hok rfl
  obtain ⟨rfl, -⟩ := Prod.mk.inj (Option.some.inj (hres'.symm.trans hres))
  refine ⟨k, k', hrun, hok, ?_, by decide +kernel⟩
  rw [← hdata]
  exact hstarts htype

/-- When `exec` succeeds the arguments are on the stack of the program, and below the stack is what the file gives,
unless it is a device. An argument whose length is no `int` is not there. -/
theorem exec_arguments {cwd : Slot} (hm : Ready m) (h : RunFrom m k) (hp : (k.procs p).state = .runnable)
    (hcwd : (k.procs p).cwd = some cwd) :
    Wp (exec p path argv) (fun r k' => r = 0 → argv.length ≤ maxarg ∧
      ∃ i name b, resolve k.fs.node (k.fs.cell cwd).inum path false = some (i, name) ∧
        ((k.fs.node i).type ≠ tDev → b = imageOf (segmentsOf (k.fs.node i).data)) ∧
        (HasArguments b argv (k'.procs p) k'.mem ↔ ∀ a ∈ argv, (cstr a).length + 1 < 2 ^ 31)) (fun _ => True) k := by
  obtain ⟨O, hk⟩ := h.memInv hm
  refine .of_forall_ok (fun r k' hok hr => ?_) fun _ => trivial
  obtain ⟨i, name, hres, hfile⟩ := (exec_file h.reachable.inv hk hp hcwd path argv).of_ok hok hr
  by_cases hdev : (k.fs.node i).type = tDev
  · obtain ⟨rfl, -⟩ | ⟨-, hs⟩ := (exec_cases hk hp path argv).of_ok hok
    · cases hr
    obtain ⟨hfew, raw, f, phs, segs, j, sz, m₀, -, -, -, -, hargs⟩ := hs.hasArguments
    exact ⟨hfew, i, name, imageOf segs, hres, fun h0 => absurd hdev h0, hargs⟩
  · obtain ⟨hfew, raw, f, phs, segs, j, sz, m₀, hraw, hS, hprog, hi, hargs⟩ := (hfile hdev).hasArguments
    have hsegs := hprog.segments (node_length_le h.reachable.inv.quiet.wf i) hi (field_lt raw 32 (Nat.le_refl 8))
      (by rw [← hS.header hraw])
    exact ⟨hfew, i, name, imageOf segs, hres, fun _ => by rw [hsegs], hargs⟩

/-- The program has its argument above the three bytes. -/
theorem exec_arguments_program : ∃ k k', RunFrom smallMem k ∧
    exec childId initPath [[97]] k = .ok (0, k') ∧
    HasArguments (imageOf (segmentsOf program)) [[97]] (k'.procs childId) k'.mem := by
  obtain ⟨k, hrun, hk⟩ := executes_small
  obtain ⟨cwd, i, name, hcwd, hres, htype, hdata⟩ := hk.file
  obtain ⟨k', hok⟩ := hk.short
  obtain ⟨-, i', name', b, hres', hb, hargs⟩ := (exec_arguments ready_small hrun hk.child hcwd).of_ok hok rfl
  obtain ⟨rfl, -⟩ := Prod.mk.inj (Option.some.inj (hres'.symm.trans hres))
  refine ⟨k, k', hrun, hok, ?_⟩
  rw [← hdata, ← hb htype]
  exact hargs.mpr (by decide)

/-- A program is started with an argument of which nothing was copied. -/
theorem exec_wraps : ∃ k k', RunFrom smallMem k ∧ (k.procs childId).state = .runnable ∧
    exec childId initPath [wrappedArg] k = .ok (0, k') ∧
    ∀ b, ¬ HasArguments b [wrappedArg] (k'.procs childId) k'.mem := by
  obtain ⟨k, hrun, hk⟩ := executes_small
  obtain ⟨k', hok⟩ := hk.wrapped
  refine ⟨k, k', hrun, hk.child, hok, fun b h => ?_⟩
  have hlen := h.short wrappedArg (List.mem_singleton_self _)
  have h32 := length_wrappedArg
  rw [terminated, List.length_append, List.length_singleton] at h32
  omega

/-- A program that is started has its stack pointer in its stack if and only if the arguments do not fill the page. -/
theorem exec_stackInside (hm : Ready m) (h : RunFrom m k) (hp : (k.procs p).state = .runnable) :
    Wp (exec p path argv) (fun r k' => r = 0 → argBytes (argv.map copied) ≤ pgsize4kb ∧
      (StackInside (k'.procs p) ↔ argBytes (argv.map copied) < pgsize4kb)) (fun _ => True) k := by
  obtain ⟨O, hk⟩ := h.memInv hm
  refine (exec_cases hk hp path argv).post ?_
  rintro r k' (⟨rfl, -⟩ | ⟨-, hs⟩) hr
  · cases hr
  · exact hs.stackInside

theorem exec_stackInside_program : ∃ k k', RunFrom smallMem k ∧
    exec childId initPath [[97]] k = .ok (0, k') ∧ StackInside (k'.procs childId) := by
  obtain ⟨k, hrun, hk⟩ := executes_small
  obtain ⟨k', hok⟩ := hk.short
  obtain ⟨-, hin⟩ := (exec_stackInside ready_small hrun hk.child).of_ok hok rfl
  exact ⟨k, k', hrun, hok, hin.mpr (by decide)⟩

/-- With an argument that fills the page, the word at the stack pointer is in the page that is not accessible. -/
theorem exec_stackBelow : ∃ k k', RunFrom smallMem k ∧ (k.procs childId).state = .runnable ∧
    exec childId initPath [fullArg] k = .ok (0, k') ∧ ¬ StackInside (k'.procs childId) := by
  obtain ⟨k, hrun, hk⟩ := executes_small
  obtain ⟨k', hok⟩ := hk.full
  refine ⟨k, k', hrun, hk.child, hok, fun hin => ?_⟩
  obtain ⟨O, hmem⟩ := hrun.memInv ready_small
  obtain ⟨h0, -⟩ | ⟨-, hs⟩ := (exec_cases hmem hk.child _ _).of_ok hok
  · cases h0
  · have hlt := hs.stackInside.2.mp hin
    have hfull : argBytes ([fullArg].map copied) = pgsize4kb := by decide +kernel
    exact Nat.ne_of_lt hlt hfull

/-- A failed `exec` leaves the processes, the open files and the pipes as they are, the memory of every process and the
reference counts. -/
theorem exec_refused (hm : Ready m) (h : RunFrom m k) (hp : (k.procs p).state = .runnable) :
    Wp (exec p path argv) (fun r k' => r ≠ 0 → r = -1 ∧ k'.procs = k.procs ∧ k'.files = k.files ∧ k'.pipes = k.pipes ∧
      (∀ q f, (k.procs q).root = some f → ∀ v < userPages, k'.mem.page f v = k.mem.page f v) ∧
      ∀ ip, (k'.fs.cell ip).ref = (k.fs.cell ip).ref ∧ (k'.fs.cell ip).locked = false) (fun _ => True) k := by
  obtain ⟨O, hk⟩ := h.memInv hm
  have hinv := h.reachable.inv
  refine .of_forall_ok (fun r k' hok hr => ?_) fun _ => trivial
  have hinv' := hinv.step (.call p (.exec path argv) r hp hok)
  obtain ⟨rfl, hs⟩ | ⟨rfl, -⟩ := (exec_cases hk hp path argv).of_ok hok
  · refine ⟨rfl, hs.procs, hs.files, hs.pipes, hs.leaves.same, fun ip => ⟨?_, congrFun hinv'.quiet.unlocked ip⟩⟩
    rw [hinv'.table.inode, hinv.table.inode, hs.procs, hs.files]
  · exact absurd rfl hr

/-- The space that was made for the program is given up when its header turns out to be all there is of it. -/
theorem exec_refused_header : ∃ k k', RunFrom smallMem k ∧ exec childId [slash, 99, 97, 116] [] k = .ok (-1, k') ∧
    k'.procs = k.procs ∧ ∀ ip, (k'.fs.cell ip).ref = (k.fs.cell ip).ref := by
  obtain ⟨k, hrun, hk⟩ := executes_small
  obtain ⟨k', hbad⟩ := hk.refused
  obtain ⟨-, hprocs, -, -, -, href⟩ := (exec_refused ready_small hrun hk.child).of_ok hbad (by decide)
  exact ⟨k, k', hrun, hbad, hprocs, fun ip => (href ip).1⟩

end

end Xv6.Kernel
