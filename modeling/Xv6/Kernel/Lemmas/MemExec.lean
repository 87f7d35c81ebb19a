import Xv6.Kernel.Lemmas.MemProc
import Xv6.Kernel.Lemmas.Stack

/-!
# The memory under `exec`

The new space is built from free frames while the old one stays, whatever the file holds. When it is complete it takes
the place of the old one, which is given up, and otherwise it is given up itself.
-/

namespace Xv6.Kernel

open Xv6.Lib Xv6.Fs Xv6.Vm

section

variable {O O₁ O' : Nat → Use Owner} {k k₁ k' : System} {p cur : ProcId} {g f n sz sp : Nat} {m m₁ m' : Mem} {ip : Slot}
  {F : Fs.State → Prop} {S : Nat → List UInt8 → Prop} {A : ProcId → Prop} {path : List UInt8} {argv : List (List UInt8)}

/-! ## Pages that stay -/

theorem byte_congr {a : Nat} (hpage : ∀ v < userPages, m'.page f v = m.page f v) (ha : a < userTop) :
    m'.byte f a = m.byte f a := by
  rw [Mem.byte, Mem.byte, hpage _ (page_lt_of_lt ha)]

theorem Fenced.congr {b : Bytes} (h : Fenced f n b m) (htop : pgsize4kb * (n + 2) ≤ userTop)
    (hpage : ∀ v < userPages, m'.page f v = m.page f v) : Fenced f n b m' where
  accessible := fun v hv => by
    unfold Accessible
    rw [hpage v hv]
    exact h.accessible v hv
  present := fun v hv => by
    rw [hpage v hv]
    exact h.present v hv
  byte := fun a ha ha' => by
    rw [byte_congr hpage (Nat.lt_of_lt_of_le ha' htop)]
    exact h.byte a ha ha'

theorem StackLayout.congr {b b' : Bytes} {ss : List (List UInt8)} {ptrs : List Nat}
    (h : StackLayout f n b ss sp ptrs b' m) (htop : pgsize4kb * (n + 2) ≤ userTop)
    (hpage : ∀ v < userPages, m'.page f v = m.page f v) :
    StackLayout f n b ss sp ptrs b' m' :=
  { h with fence := h.fence.congr htop hpage }

/-! ## The new space -/

/-- Nothing is known about what is read. -/
theorem source_any (ip : Slot) : Source ip (fun _ => True) (fun _ => True) fun _ _ => True where
  read := fun _ _ _ => Wp.of_forall_ok (fun _ _ _ => ⟨trivial, fun _ _ _ => trivial⟩) fun _ => trivial
  nil := fun _ => trivial
  append := fun _ _ _ => trivial

/-- The space `g` was made from free frames, while the frames had the uses `O`. -/
structure NewSpace (O : Nat → Use Owner) (m : Mem) (g : Nat) (O' : Nat → Use Owner) (m' : Mem) : Prop where
  free : O g = .free
  worked : ∃ m₀, Same (fun x => x = g) m m₀ ∧ (∀ i, 256 ≤ i → i < 512 → m₀.pte g i = m.pte m.kpml4 i) ∧
    Worked g (upd O g (.node g 0 0)) m₀ O' m'

theorem NewSpace.next (h : NewSpace O m g O₁ m₁) (hw : Worked g O₁ m₁ O' m') : NewSpace O m g O' m' := by
  obtain ⟨m₀, hs, hupper, hw₀⟩ := h.worked
  exact ⟨h.free, m₀, hs, hupper, hw₀.trans hw⟩

theorem NewSpace.built (h : NewSpace O m g O' m') (hm : Frames lower O m) : Built (some g) O m O' m' := by
  obtain ⟨m₀, hs, hupper, hw⟩ := h.worked
  exact .worked hm h.free hs hupper hw

theorem NewSpace.root (h : NewSpace O m g O' m') : O' g = .node g 0 0 := by
  obtain ⟨m₀, -, -, hw⟩ := h.worked
  exact hw.root

variable {r t : ProcId → Option Nat} {ends : FileId → Option (Nat × Bool × Bool)} {pipes : Nat → Pipe}

/-- The space is given up again. -/
theorem NewSpace.freeVm (h : NewSpace O m g O₁ m₁) (ho : Owned O r t ends pipes m) (hsz : sz ≤ userTop) :
    Wp (freeVm (some g) sz) (fun _ m' => SameSpaces r m m' ∧ ∃ O', Owned O' r t ends pipes m') (fun _ => False) m₁ := by
  have hb := h.built ho.frames
  refine (freeVm_spec hb.spared.frames h.root hsz).post ?_
  rintro _ m' ⟨O', hgone⟩
  have hb' := hb.gone ho.frames hgone
  exact ⟨ho.same_built hb', O', ho.built hb'⟩

/-- The memory of the program that `exec` starts: the segments of the file and the stack. -/
def Program (S : Nat → List UInt8 → Prop) (elf : ElfHeader) (argv : List (List UInt8)) (g sz sp : Nat)
    (m : Mem) : Prop :=
  ∃ phs segs i sz₀ m₀ ptrs b, Progress S elf g phs segs i sz₀ m₀ ∧ elf.phNum ≤ i ∧ sz = pgsize4kb * (pageUp sz₀ + 2) ∧
    StackLayout g (pageUp sz₀) (imageOf segs) (argv.map copied) sp ptrs b m

/-- The process that `exec` leaves. -/
def Proc.started (x : Proc) (path : List UInt8) (elf : ElfHeader) (argc g sz sp : Nat) : Proc := { x with
  name := safeStrcpy (programName path) nameSize
  pml4 := some g
  sz := sz
  rp := { x.rp with rcx := elf.entry, rsp := sp, r11 := flIf, rdi := argc, rsi := wrap (sp + 16) } }

/-- The call failed: the processes, the files and the pipes are as they were. -/
structure Refused (k k' : System) : Prop where
  procs : k'.procs = k.procs
  files : k'.files = k.files
  pipes : k'.pipes = k.pipes
  leaves : Leaves (rootOf k.procs) (stackOf k.procs) k k'

/-- The call succeeded: the process has a new space. -/
structure Started (S : Nat → List UInt8 → Prop) (cur : ProcId) (path : List UInt8) (argv : List (List UInt8))
    (k k' : System) : Prop where
  files : k'.files = k.files
  pipes : k'.pipes = k.pipes
  same : SameSpaces (upd (rootOf k.procs) cur none) k.mem k'.mem
  program : ∃ raw g sz sp, raw.length = elfHeaderSize ∧ S 0 raw ∧ (ElfHeader.ofBytes raw).magic =
    elfMagic ∧ sz < userTop ∧ k'.procs =
      upd k.procs cur ((k.procs cur).started path (.ofBytes raw) argv.length g sz sp) ∧
    (∃ O', Owned O' (upd (rootOf k.procs) cur (some g)) (stackOf k.procs) (endsOf k.files) k.pipes k'.mem) ∧
    Program S (.ofBytes raw) argv g sz sp k'.mem

theorem Refused.fs {s : Fs.State} (h : Refused k k') : Refused k { k' with fs := s } :=
  ⟨h.procs, h.files, h.pipes, h.leaves.share, h.leaves.same, h.leaves.owned⟩

/-- The inode is put back, and nothing else happens. -/
theorem Refused.iput (h : Refused k k₁) (ip : Slot) :
    Wp (do onFs (iunlock ip); onFs (Fs.iput ip); pure (-1 : Int)) (fun r k' => r = -1 ∧ Refused k k')
      (fun _ => True) k₁ := by
  rw [wp_bind, onFs, wp_on]
  refine Wp.of_forall_ok (fun _ s₁ _ => ?_) fun _ => trivial
  rw [wp_bind, onFs, wp_on]
  exact Wp.of_forall_ok (fun _ s₂ _ => ⟨rfl, h.fs⟩) fun _ => trivial

theorem MemInv.refused (hm : MemInv O k) (s : Fs.State) : Refused k { k with fs := s } :=
  ⟨rfl, rfl, rfl, Untouched.leaves ⟨rfl, rfl, fun _ _ => rfl, fun _ => rfl⟩ ⟨O, hm.owned⟩⟩

/-- The label `bad` gives the new space up. -/
theorem execBad_some (hm : MemInv O k) (hmk : NewSpace O k.mem g O₁ m₁) (hsz : sz ≤ userTop) (s : Fs.State)
    (ip : Option Slot) :
    Wp (execBad (some g) sz ip) (fun r k' => r = -1 ∧ Refused k k') (fun _ => True) { k with fs := s, mem := m₁ } := by
  unfold execBad
  dsimp only
  rw [wp_bind, onMem, wp_on]
  refine (hmk.freeVm hm.owned hsz).mono ?_ fun _ _ => trivial
  rintro _ m' ⟨hs, ho⟩
  have hl : Refused k { k with fs := s, mem := m' } := ⟨rfl, rfl, rfl, fun _ => rfl, hs, ho⟩
  cases ip with
  | none => exact ⟨rfl, hl⟩
  | some ip => exact hl.iput ip

/-! ## The call -/

/-- The new space takes the place of the old one. -/
theorem execCommit_started {raw : List UInt8} (hm : MemInv O k) (hcur : (k.procs cur).state = .runnable)
    (hmk : NewSpace O k.mem g O₁ m₁) (hraw : raw.length = elfHeaderSize) (hS : S 0 raw)
    (hmagic : (ElfHeader.ofBytes raw).magic = elfMagic) (hsz : sz < userTop)
    (hprog : Program S (.ofBytes raw) argv g sz sp m₁) (s : Fs.State) :
    Wp (execCommit cur path g sz (ElfHeader.ofBytes raw).entry sp argv.length)
      (fun r k' => r = 0 ∧ Started S cur path argv k k') (fun _ => True) { k with fs := s, mem := m₁ } := by
  obtain ⟨f, hpml4, hroot, hf, hold⟩ := hm.space (Proc.used_of_runnable hcur)
  have hb := hmk.built hm.owned.frames
  unfold execCommit
  rw [wp_bind, modifyProc, wp_modify, wp_bind, wp_get, wp_bind, modifyProc, wp_modify]
  dsimp only
  rw [upd_self, upd_upd]
  dsimp only
  unfold switchUvm
  rw [wp_bind, wp_bind, wp_get, wp_bind, wp_panicIf]
  refine ⟨fun _ => trivial, fun _ => ?_⟩
  rw [wp_panicIf]
  refine ⟨fun _ => trivial, fun _ => ?_⟩
  rw [wp_bind, onMem, wp_on, hpml4]
  dsimp only
  have hf₁ : O₁ f = .node f 0 0 := (hb.root_iff hm.owned.held f).mpr (Or.inl hf)
  refine (freeVm_spec hb.spared.frames hf₁ (Nat.le_of_lt hold)).mono ?_ fun _ _ => trivial
  rintro _ m₂ ⟨O₂, hgone⟩
  rw [wp_pure]
  have hgf : g ≠ f := fun h0 => hb.fresh rfl (h0 ▸ hf)
  refine ⟨rfl, rfl, rfl, ?_, raw, g, sz, sp, hraw, hS, hmagic, hsz, rfl, ⟨O₂, hm.owned.replace hb hroot hgone⟩, ?_⟩
  · -- the pages of the others are still there after both steps
    refine ((hm.owned.same_built hb).others cur).trans fun q h hq v hv => ?_
    by_cases hqc : q = cur
    · rw [hqc, upd_self] at hq
      cases hq
    · rw [upd_of_ne hqc] at hq
      have hh := (hm.owned.owns.root h).mpr ⟨q, hq⟩
      refine hgone.moved.page_other hb.spared.frames ((hb.root_iff hm.owned.held h).mpr (Or.inl hh))
        (fun h0 => hqc ?_) hv
      exact hm.owned.owns.apart hq (h0 ▸ hroot)
  · obtain ⟨phs, segs, i, sz₀, m₀, ptrs, b, hp, hi, rfl, hlayout⟩ := hprog
    refine ⟨phs, segs, i, sz₀, m₀, ptrs, b, hp, hi, rfl, hlayout.congr (Nat.le_of_lt hsz) fun v hv => ?_⟩
    exact hgone.moved.page_other hb.spared.frames hmk.root hgf hv

theorem execInode_cases (hS : Source ip (fun _ => True) F S) (hm : MemInv O k)
    (hcur : (k.procs cur).state = .runnable) (s : Fs.State) (hF : F s) :
    Wp (execInode cur path ip argv) (fun r k' => (r = -1 ∧ Refused k k') ∨ (r = 0 ∧ Started S cur path argv k k'))
      (fun _ => True) { k with fs := s } := by
  have hbad : ∀ s', Wp (execBad none 0 (some ip))
    (fun r k' => (r = -1 ∧ Refused k k') ∨ (r = 0 ∧ Started S cur path argv k k'))
      (fun _ => True) { k with fs := s' } := fun s' => ((hm.refused s').iput ip).post fun _ _ h0 => Or.inl h0
  unfold execInode
  rw [wp_bind, onFs, wp_on]
  refine (hS.read hF (by decide) (by decide)).mono ?_ fun _ _ => trivial
  rintro r s₁ ⟨hF₁, hr⟩
  rw [wp_ite]
  refine ⟨fun _ => hbad s₁, fun hlen => ?_⟩
  have hlen := Decidable.not_not.mp hlen
  obtain ⟨raw, rfl⟩ : ∃ raw, r = some raw := by
    cases r with
    | none => cases hlen
    | some raw => exact ⟨raw, rfl⟩
  have hS₀ := hr raw rfl hlen
  rw [Option.getD_some] at hlen ⊢
  rw [wp_ite]
  refine ⟨fun _ => hbad s₁, fun hmagic => ?_⟩
  have hmagic := Decidable.not_not.mp hmagic
  rw [wp_bind, onMem, wp_on]
  dsimp only
  refine (setupUvm_spec hm.owned.frames hm.owned.kern.root).mono ?_ fun _ _ => trivial
  rintro r m₀ (⟨rfl, rfl, -⟩ | ⟨g, rfl, hg, hframes, hsame, hempty, hupper⟩)
  · exact hbad s₁
  have hmk : NewSpace O k.mem g (upd O g (.node g 0 0)) m₀ :=
    ⟨hg, m₀, hsame, hupper, Worked.refl hframes (upd_self _ _ _)⟩
  refine Wp.bind (execLoad_progress (k := { k with fs := s₁, mem := m₀ }) trivial hS hF₁ hframes
    (upd_self _ _ _) hempty) ?_
  rintro ⟨ok, sz₁⟩ _ ⟨O₁, s₂, m₁, rfl, -, hw, hlt, hok⟩
  have hmk₁ := hmk.next hw
  dsimp only at hlt hok ⊢
  rw [wp_ite]
  refine ⟨fun _ => (execBad_some hm hmk₁ (Nat.le_of_lt hlt) s₂ (some ip)).post fun _ _ h0 => Or.inl h0, fun htrue => ?_⟩
  obtain ⟨phs, segs, i, hp, hi⟩ := hok (Bool.eq_true_of_not_eq_false htrue)
  rw [wp_bind, onFs, wp_on]
  refine Wp.of_forall_ok (fun _ s₃ _ => ?_) fun _ => trivial
  rw [wp_bind, onFs, wp_on]
  refine Wp.of_forall_ok (fun _ s₄ _ => ?_) fun _ => trivial
  rw [wp_bind, onMem, wp_on]
  have hb₁ := hmk₁.built hm.owned.frames
  have hge : pgsize4kb ≤ sz₁ := hp.loads.size ▸ le_sizeOf segs
  refine (execStack_layout hb₁.spared.frames hmk₁.root (hm.owned.kern.built hb₁ hm.owned.held) hp.loads.image
    hge argv).mono ?_ fun _ _ => trivial
  rintro ⟨sz₂, stack⟩ m₂ ⟨O₂, hw₂, hlt₂, hstack⟩
  have hmk₂ := hmk₁.next hw₂
  cases stack with
  | none => exact (execBad_some hm hmk₂ (Nat.le_of_lt hlt₂) s₄ none).post fun _ _ h0 => Or.inl h0
  | some st =>
      obtain ⟨sp, argc⟩ := st
      obtain ⟨hsz, rfl, ptrs, b, hlayout⟩ := hstack sp argc rfl
      refine (execCommit_started hm hcur hmk₂ hlen hS₀ hmagic hlt₂ ?_ s₄).post fun _ _ h0 => Or.inr h0
      exact ⟨phs, segs, i, sz₁, m₁, ptrs, b, hp, hi, hsz, hlayout⟩

/-- The inode that a path leads to is read as any file. -/
theorem exec_cases (hm : MemInv O k) (hcur : (k.procs cur).state = .runnable) (path : List UInt8)
    (argv : List (List UInt8)) :
    Wp (exec cur path argv) (fun r k' => (r = -1 ∧ Refused k k') ∨
      (r = 0 ∧ Started (fun _ _ => True) cur path argv k k')) (fun _ => True) k := by
  unfold exec cwdOf
  rw [wp_bind, wp_bind, wp_get]
  split
  · trivial
  · rw [wp_pure, wp_bind, onFs, wp_on]
    refine Wp.of_forall_ok (fun r s _ => ?_) fun _ => trivial
    cases r with
    | none => exact Or.inl ⟨rfl, hm.refused s⟩
    | some ip =>
        dsimp only
        rw [wp_bind, onFs, wp_on]
        exact Wp.of_forall_ok (fun _ s₁ _ => execInode_cases (source_any ip) hm hcur s₁ trivial) fun _ => trivial

theorem Source.weaken {E : Halt → Prop} (h : Source ip E F S) : Source ip (fun _ => True) F S :=
  ⟨fun hF hoff hn => (h.read hF hoff hn).mono (fun _ _ h0 => h0) fun _ _ => trivial, h.nil, h.append⟩

/-- A program is started from the contents of the file that the path leads to. -/
theorem exec_file {cwd : Slot} (hinv : Inv k) (hm : MemInv O k) (hcur : (k.procs cur).state = .runnable)
    (hcwd : (k.procs cur).cwd = some cwd) (path : List UInt8) (argv : List (List UInt8)) :
    Wp (exec cur path argv) (fun r k' => r = 0 → ∃ i name, resolve k.fs.node (k.fs.cell cwd).inum path false =
      some (i, name) ∧ ((k.fs.node i).type ≠ tDev → Started (FromFile (k.fs.node i).data) cur path argv k k'))
        (fun _ => True) k := by
  unfold exec
  refine Wp.seq (cwdOf_spec hinv hcur) (fun _ _ => trivial) ?_
  rintro cwd' k ⟨rfl, hcwd', href⟩
  obtain rfl : cwd' = cwd := Option.some.inj (hcwd'.symm.trans hcwd)
  rw [wp_bind, onFs, wp_on]
  refine (namei_spec hinv.quiet href path).mono (fun r t hr => ?_) fun _ _ => trivial
  cases r with
  | none =>
      intro h0
      cases h0
  | some ip =>
      obtain ⟨hd, -, name, hres⟩ := hr
      have hpos : 0 < (t.cell ip).ref := hd.ref_pos (by simp)
      rw [wp_bind, onFs, wp_on]
      refine (ilock_spec hd.wf hpos).mono ?_ fun _ _ => trivial
      rintro _ t' ⟨hwf, hview, -⟩
      have hcell : t'.cell ip = { t.cell ip with locked := true, valid := true } :=
        (congrFun (congrArg View.cell hview) ip).trans (upd_self _ _ _)
      have hnode : t'.view.nodeAt ip = k.fs.node (t.cell ip).inum := by
        show t'.node (t'.cell ip).inum = _
        rw [hcell, show t'.node = t.node from congrArg View.node hview, hd.node]
      by_cases hdev : (k.fs.node (t.cell ip).inum).type = tDev
      · exact (Wp.of_forall_ok (fun r k' _ _ => ⟨_, name, hres, fun h0 => absurd hdev h0⟩) fun _ => trivial)
      · have hsrc := source_file hwf (by rw [hcell]; exact hpos) (by rw [hcell]) (by rw [hnode]; exact hdev)
        refine (execInode_cases hsrc.weaken hm hcur t' rfl).post ?_
        rintro r k' (⟨rfl, -⟩ | ⟨-, hs⟩) h0
        · cases h0
        · rw [hnode] at hs
          exact ⟨_, name, hres, fun _ => hs⟩

theorem Started.safe (h : Started S cur path argv k k') (hm : MemInv O k) (hcur : (k.procs cur).state = .runnable)
    (hA : ∀ q, A q → q ≠ cur) : Safe A k k' := by
  obtain ⟨raw, g, sz, sp, -, -, -, hsz, hprocs, ⟨O', ho⟩, -⟩ := h.program
  have hused := Proc.used_of_runnable hcur
  have hself : k'.procs cur = (k.procs cur).started path (.ofBytes raw) argv.length g sz sp := by rw [hprocs, upd_self]
  have hused' : (k'.procs cur).state ≠ .unused := by rw [hself]; exact hused
  have hstack : (k'.procs cur).stack = stackOf k.procs cur := by
    rw [Proc.stack_used hused', hself]
    exact (Proc.stack_used hused).symm
  have hroot : (k'.procs cur).root = some g := by
    rw [Proc.root_used hused', hself]
    rfl
  refine hm.safe_set (U := O') (p := cur) (fun q hq => ?_) (fun _ => ⟨?_, ?_, ?_⟩) ?_ h.same fun q hq _ => hA q hq
  · rw [hprocs, upd_of_ne hq]
  · rw [hroot]
    rintro ⟨⟩
  · rw [hstack]
    exact (hm.whole cur hused).stack
  · rw [hself]
    exact hsz
  · rw [hroot, hstack, upd_eta, h.files, h.pipes]
    exact ho

theorem exec_mem (cur : ProcId) (path : List UInt8) (argv : List (List UInt8)) (hA : ∀ q, A q → q ≠ cur) :
    KeepsMem cur A (exec cur path argv) := by
  intro k O _ hcur hm
  refine (exec_cases hm hcur path argv).post ?_
  rintro r k' (⟨-, h⟩ | ⟨-, h⟩)
  · exact h.leaves.safe hm A
  · exact h.safe hm hcur hA

end

end Xv6.Kernel
