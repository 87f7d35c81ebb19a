import Xv6.Vm.Lemmas.Translate
import Xv6.Kernel.Lemmas.File

/-!
# The system calls on files

Each call takes a state with exact reference counts to another one, and says what happened to the nodes
of the file system.
-/

namespace Xv6.Kernel

open Xv6.Lib Xv6.Fs Xv6.Vm

/-- How a system call on files can halt. -/
def Harmless (N : Nat → Node) (e : Halt) : Prop :=
  Halts N e ∨ e ∈ [.sleep, .panic "kfree frees wrong addr", .panic "file_read failed", .panic "file_write failed",
    .panic "exit: init??", .panic "page fault", .panic "kernel page fault"]

section

variable {N : Nat → Node} {procs : ProcId → Proc} {fd : ProcId × Fin nofile → Option FileId}
  {cwd : ProcId → Option Slot} {x : FileId → Nat} {y : Slot → Nat} {k : System} {f : FileId} {ip : Slot}
  {p : ProcId} {q : Proc} {i : Fin nofile} {v : Option FileId}

/-! ## Changing a process -/

theorem fdsOf_same (h : q.ofile = (procs p).ofile) : fdsOf (upd procs p q) = fdsOf procs := by
  funext a
  unfold fdsOf
  rw [upd_apply]
  split
  · rw [‹a.1 = p›, h]
  · rfl

theorem fdsOf_set (h : q.ofile = upd (procs p).ofile i v) : fdsOf (upd procs p q) = upd (fdsOf procs) (p, i) v := by
  funext a
  obtain ⟨p', i'⟩ := a
  unfold fdsOf
  rw [upd_apply, upd_apply]
  by_cases hp : p' = p
  · rw [if_pos hp, h, upd_apply]
    simp only [Prod.mk.injEq, hp, true_and]
  · rw [if_neg hp, if_neg fun h0 => hp (Prod.ext_iff.mp h0).1]

theorem cwdsOf_set {v : Option Slot} (h : q.cwd = v) : cwdsOf (upd procs p q) = upd (cwdsOf procs) p v := by
  subst h
  exact funext fun p' => map_upd Proc.cwd procs p q p'

theorem cwdsOf_same (h : q.cwd = (procs p).cwd) : cwdsOf (upd procs p q) = cwdsOf procs := by
  rw [cwdsOf_set h]
  exact upd_eta (cwdsOf procs) p

/-- A process that runs keeps its state and has a working directory. -/
theorem Lives.running (h : Lives procs) (hp : (procs p).state = .runnable) (hs : q.state = (procs p).state)
    (hc : q.cwd ≠ none) : Lives (upd procs p q) := by
  have hq : q.state = .runnable := hs.trans hp
  refine ⟨fun p' => ?_, fun p' h' => ?_, fun p' h' => ?_⟩
  · rw [upd_apply]
    split
    · exact Or.inr (Or.inl hq)
    · exact h.known p'
  · rw [upd_apply] at h' ⊢
    split
    · exact hc
    · exact h.cwd p' (by rwa [if_neg ‹_›] at h')
  · rw [upd_apply] at h' ⊢
    split
    · rw [if_pos ‹_›] at h'
      exact absurd hq h'
    · exact h.idle p' (by rwa [if_neg ‹_›] at h')

/-- A process that is not running holds nothing. -/
theorem Lives.stopped (h : Lives procs) (hs : q.state = .unused ∨ q.state = .zombie) (hc : q.cwd = none)
    (ho : ∀ i, q.ofile i = none) : Lives (upd procs p q) := by
  have hq : q.state ≠ .runnable := by rcases hs with h0 | h0 <;> rw [h0] <;> decide
  refine ⟨fun p' => ?_, fun p' h' => ?_, fun p' h' => ?_⟩
  · rw [upd_apply]
    split
    · rcases hs with h0 | h0
      · exact Or.inl h0
      · exact Or.inr (Or.inr h0)
    · exact h.known p'
  · rw [upd_apply] at h' ⊢
    split
    · rw [if_pos ‹_›] at h'
      exact absurd h' hq
    · exact h.cwd p' (by rwa [if_neg ‹_›] at h')
  · rw [upd_apply] at h' ⊢
    split
    · exact ⟨hc, ho⟩
    · exact h.idle p' (by rwa [if_neg ‹_›] at h')

theorem Point.setProc (h : Point N procs fd cwd x y k) (p : ProcId) (g : Proc → Proc) :
    Point N (upd procs p (g (procs p))) fd cwd x y { k with procs := upd k.procs p (g (k.procs p)) } := by
  obtain ⟨h1, h2, h3, rfl⟩ := h
  exact ⟨h1, h2, h3, rfl⟩

theorem Point.of_eq {procs' : ProcId → Proc} {fd' : ProcId × Fin nofile → Option FileId} {cwd' : ProcId → Option Slot}
    (h : Point N procs fd cwd x y k) (hp : procs = procs') (hf : fd = fd') (hc : cwd = cwd') :
    Point N procs' fd' cwd' x y k := by
  subst hp hf hc
  exact h

/-! ## Descriptors -/

theorem checkFd_some {n : Int} (h : checkFd k p n = some (i, f)) : (k.procs p).ofile i = some f := by
  unfold checkFd at h
  split at h
  · split at h
    · cases h
    · cases h
      assumption
  · cases h

theorem fdAlloc_spec (p : ProcId) (f : FileId) : Wp (fdAlloc p f) (fun r k' =>
    match r with
    | none => k' = k
    | some i => (k.procs p).ofile i = none ∧
      k' = { k with procs := upd k.procs p { k.procs p with ofile := upd (k.procs p).ofile i (some f) } })
    (fun _ => False) k := by
  unfold fdAlloc
  rw [wp_bind, wp_get]
  dsimp only
  cases hf : (List.finRange nofile).find? fun fd => (k.procs p).ofile fd = none with
  | none => exact rfl
  | some i => exact ⟨by simpa using List.find?_some hf, rfl⟩

section

variable (h : Inv k) (hp : (k.procs p).state = .runnable)

include h hp

theorem cwdOf_spec :
    Wp (cwdOf p) (fun ip k' => k' = k ∧ (k.procs p).cwd = some ip ∧ 0 < (k.fs.cell ip).ref) (fun _ => False) k := by
  unfold cwdOf
  rw [wp_bind, wp_get]
  cases hc : (k.procs p).cwd with
  | none => exact h.lives.cwd p hp hc
  | some ip => exact ⟨rfl, rfl, h.table.cwd_pos (p := p) hc⟩

theorem sysDup_spec (n : Int) :
    Wp (sysDup p n) (fun _ k' => Inv k' ∧ k'.fs = k.fs) (fun _ => False) k := by
  unfold sysDup
  rw [wp_bind, wp_get]
  split
  · exact ⟨h, rfl⟩
  · rename_i i f hfd
    refine Wp.bind (fdAlloc_spec p f) fun r k1 hr => ?_
    cases r with
    | none =>
        subst hr
        exact ⟨h, rfl⟩
    | some j =>
        obtain ⟨hj, rfl⟩ := hr
        have hpos : 0 < (k.files f).ref := h.table.file_pos (a := (p, i)) (checkFd_some hfd)
        refine Wp.bind (fileDup_spec hpos) ?_
        rintro _ _ rfl
        refine ⟨⟨h.quiet, ?_, h.lives.running hp rfl (h.lives.cwd p hp)⟩, rfl⟩
        have ht := (h.table.dup (f := f)).setFd (a := (p, j)) hj
        dsimp only
        rw [fdsOf_set rfl, cwdsOf_same (by rfl)]
        exact ht

theorem sysClose_spec (n : Int) :
    Wp (sysClose p n) (fun _ k' => Inv k' ∧ Frees k.fs.node k'.fs.node) (Harmless k.fs.node) k := by
  unfold sysClose
  rw [wp_bind, wp_get]
  split
  · exact ⟨h, .refl⟩
  · rename_i i f hfd
    rw [wp_bind, modifyProc, wp_modify]
    have hp1 := h.point.setProc p fun x => { x with ofile := upd x.ofile i none }
    have ht := hp1.table.clearFd (a := (p, i)) (checkFd_some hfd)
    refine Wp.seq (fileClose_spec (f := f) ⟨hp1.quiet, ht, hp1.frees, hp1.procs⟩) ?_ ?_
    · rintro _ rfl
      exact Or.inr (by simp)
    · rintro _ k' hk'
      refine ⟨(hk'.of_eq rfl ?_ ?_).inv (h.lives.running hp rfl (h.lives.cwd p hp)), hk'.frees⟩
      · exact (fdsOf_set rfl).symm
      · exact (cwdsOf_same (by rfl)).symm

end

/-! ## Reading and writing -/

theorem Inv.did {s : Fs.State} (h : Inv k) (hd : Did k.fs N 0 s)
    (hty : ∀ jp, 0 < (k.fs.cell jp).ref → (N (k.fs.cell jp).inum).type = (k.fs.node (k.fs.cell jp).inum).type) :
    Inv { k with fs := s } := by
  refine ⟨hd.quiet, ?_, h.lives⟩
  have := h.table.held hd.held (by rw [hd.node]; exact hty)
  rwa [add_zero] at this

theorem Inv.seek (h : Inv k) (f : FileId) (n : Nat) :
    Inv { k with files := upd k.files f { k.files f with off := u64 n } } :=
  ⟨h.quiet, h.table.seek (Nat.mod_lt _ (Nat.two_pow_pos 64)), h.lives⟩

theorem fileStat_spec (h : Inv k) (f : FileId) :
    Wp (fileStat f) (fun _ k' => Inv k' ∧ k'.fs.node = k.fs.node) (fun _ => False) k := by
  unfold fileStat
  rw [wp_bind, wp_get]
  dsimp only
  split
  · rename_i hty
    have href : 0 < (k.fs.cell (k.files f).ip).ref := h.table.ref_pos (f := f) (if_pos hty)
    rw [wp_bind, onFs, wp_on]
    refine (ilock_opened h.quiet href).post fun _ t ho => ?_
    rw [wp_bind, wp_get, wp_bind, onFs, wp_on]
    refine (iunlock_opened h.quiet href ho h.quiet.tree (fun _ => rfl) fun _ => rfl).post fun _ t' hd => ?_
    exact ⟨h.did hd fun _ _ => rfl, hd.node⟩
  · exact ⟨h, rfl⟩

theorem pipeRead_spec (q : Nat) (killed : Bool) (n : Nat) :
    Wp (pipeRead q killed n) (fun _ k' => ∃ pipes, k' = { k with pipes := pipes }) (fun e => e = .sleep) k := by
  unfold pipeRead
  rw [wp_bind, wp_get]
  dsimp only
  rw [wp_ite]
  refine ⟨fun _ => ?_, fun _ => ⟨_, rfl⟩⟩
  rw [wp_ite]
  exact ⟨fun _ => ⟨k.pipes, rfl⟩, fun _ => rfl⟩

theorem pipeWrite_spec (q : Nat) (killed : Bool) (l : List UInt8) :
    Wp (pipeWrite q killed l) (fun _ k' => ∃ pipes, k' = { k with pipes := pipes }) (fun e => e = .sleep) k := by
  unfold pipeWrite
  refine wp_loop (fun _ k' => ∃ pipes, k' = { k with pipes := pipes }) List.length ?_ _ _ _ ⟨k.pipes, rfl⟩
    (Nat.lt_succ_self _)
  rintro l' _ ⟨pipes, rfl⟩
  cases l' with
  | nil => exact ⟨pipes, rfl⟩
  | cons c l' =>
      rw [wp_bind, wp_get]
      dsimp only
      rw [wp_ite]
      refine ⟨fun _ => ?_, fun _ => ⟨⟨_, rfl⟩, Nat.lt_succ_self _⟩⟩
      rw [wp_ite]
      exact ⟨fun _ => ⟨pipes, rfl⟩, fun _ => rfl⟩

/-- The kernel stores into a buffer of the caller. -/
theorem storeUser_spec (dst : Nat) (data : List UInt8) :
    Wp (storeUser p dst data) (fun _ k' => ∃ mem, k' = { k with mem := mem }) (Harmless N) k := by
  unfold storeUser
  rw [wp_bind, wp_get]
  split
  · exact Or.inr (by simp)
  · rw [onMem, wp_on]
    refine (storeBytes_halts _ data dst k.mem).mono (fun _ mem _ => ⟨mem, rfl⟩) fun e he => ?_
    rcases List.mem_cons.mp he with rfl | he
    · exact Or.inl (Or.inr (Or.inr rfl))
    · rw [List.mem_singleton.mp he]
      exact Or.inr (by simp)

theorem fileRead_spec (h : Inv k) (f : FileId) (killed : Bool) {n : Nat} (hn : n < 2 ^ 64) :
    Wp (fileRead f killed n) (fun _ k' => Inv k' ∧ k'.fs.node = k.fs.node) (Harmless k.fs.node) k := by
  unfold fileRead
  rw [wp_bind, wp_get]
  dsimp only
  rw [wp_ite]
  refine ⟨fun _ => ⟨h, rfl⟩, fun _ => ?_⟩
  split
  · refine Wp.seq (pipeRead_spec _ _ _) ?_ ?_
    · rintro _ rfl
      exact Or.inr (by simp)
    · rintro _ _ ⟨pipes, rfl⟩
      exact ⟨⟨h.quiet, h.table, h.lives⟩, rfl⟩
  · rename_i hty
    have href : 0 < (k.fs.cell (k.files f).ip).ref := h.table.ref_pos (f := f) (if_pos hty)
    have hE : ∀ e : Halt, False → Harmless k.fs.node e := fun _ h0 => h0.elim
    rw [wp_bind, onFs, wp_on]
    refine (ilock_opened h.quiet href).mono (fun _ t ho => ?_) hE
    rw [wp_bind, wp_get, wp_bind, onFs, wp_on]
    refine (readi_opened href ho (h.table.off f) hn).mono (fun r t' ho' => ?_) hE
    rw [wp_bind, modifyFile, wp_modify, wp_bind, onFs, wp_on]
    refine (iunlock_opened h.quiet href ho' h.quiet.tree (fun _ => rfl) fun _ => rfl).mono (fun _ t'' hd => ?_) hE
    exact ⟨(h.did hd fun _ _ => rfl).seek f _, hd.node⟩
  · exact Or.inr (by simp)

theorem fileWrite_spec (h : Inv k) (f : FileId) (killed : Bool) {l : List UInt8} (hl : l.length < 2 ^ 64) :
    Wp (fileWrite f killed l)
      (fun _ k' => Inv k' ∧ (k'.fs.node = k.fs.node ∨ ∃ i, Writes k.fs.node i k'.fs.node))
      (Harmless k.fs.node) k := by
  unfold fileWrite
  rw [wp_bind, wp_get]
  dsimp only
  rw [wp_ite]
  refine ⟨fun _ => ⟨h, Or.inl rfl⟩, fun hw => ?_⟩
  split
  · refine (pipeWrite_spec _ _ _).mono ?_ ?_
    · rintro _ _ ⟨pipes, rfl⟩
      exact ⟨⟨h.quiet, h.table, h.lives⟩, Or.inl rfl⟩
    · rintro _ rfl
      exact Or.inr (by simp)
  · rename_i hty
    have hino : inodeOf k.files f = some (k.files f).ip := if_pos hty
    have href : 0 < (k.fs.cell (k.files f).ip).ref := h.table.ref_pos hino
    have hE : ∀ e : Halt, False → Harmless k.fs.node e := fun _ h0 => h0.elim
    rw [wp_bind, onFs, wp_on]
    refine (ilock_opened h.quiet href).mono (fun _ t ho => ?_) hE
    rw [wp_bind, wp_get, wp_bind, onFs, wp_on]
    refine (writei_opened href ho ⟨h.table.writable f _ hino (by simpa using hw), h.quiet.alive _ href⟩ (h.table.off f)
      hl).mono ?_ ?_
    · rintro r t' ⟨N', hwr, ho'⟩
      rw [wp_bind, modifyFile, wp_modify, wp_bind, onFs, wp_on]
      refine (iunlock_opened h.quiet href ho' (hwr.tree h.quiet.tree) hwr.type hwr.nlink).mono (fun _ t'' hd => ?_) hE
      refine ⟨(h.did hd fun jp _ => hwr.type _).seek f _, Or.inr ⟨(k.fs.cell (k.files f).ip).inum, ?_⟩⟩
      change Writes k.fs.node _ t''.node
      rw [hd.node]
      exact hwr
    · rintro _ rfl
      exact Or.inl (Or.inl (by simp [exhausted]))
  · exact Or.inr (by simp)

/-! ## Names -/

section

variable (h : Inv k) (hp : (k.procs p).state = .runnable)

include h hp

theorem mknod_inv {type major minor : Int} (path : List UInt8)
    (htype : IsShort type ∧ type ≠ 0) (hfile : type ≠ tFile) (hmm : IsShort major ∧ IsShort minor) :
    Wp (do onFs (mknod (← cwdOf p) path type major minor)) (fun r k' => Inv k' ∧ ∃ cwd, (k.procs p).cwd = some cwd ∧
      CreatesIff k.fs cwd path type major minor r k'.fs.node) (Harmless k.fs.node) k := by
  refine Wp.seq (cwdOf_spec h hp) (fun _ h0 => h0.elim) ?_
  rintro cwd k ⟨rfl, hcwd, href⟩
  unfold onFs
  rw [wp_on]
  refine (mknod_spec h.quiet href path htype hfile hmm).mono ?_ fun _ h0 => Or.inl h0
  rintro r s ⟨hc, hd⟩
  refine ⟨h.did hd fun jp hj => ?_, cwd, hcwd, hc⟩
  rcases hc with ⟨_, _, h0⟩ | ⟨_, hc⟩
  · rw [h0]
  · exact hc.type h.quiet hj

theorem sysUnlink_spec (path : List UInt8) :
    Wp (sysUnlink p path) (fun r k' => Inv k' ∧ ∃ cwd, (k.procs p).cwd = some cwd ∧
      RemovesIff k.fs cwd path r k'.fs.node) (Harmless k.fs.node) k := by
  unfold sysUnlink
  refine Wp.seq (cwdOf_spec h hp) (fun _ h0 => h0.elim) ?_
  rintro cwd k ⟨rfl, hcwd, href⟩
  unfold onFs
  rw [wp_on]
  refine (unlink_did h.quiet href path).mono ?_ fun _ h0 => Or.inl h0
  rintro r s ⟨hc, hd⟩
  refine ⟨h.did hd fun jp hj => ?_, cwd, hcwd, hc⟩
  rcases hc with ⟨_, _, h0⟩ | ⟨_, hc⟩
  · rw [h0]
  · exact hc.type hj

theorem sysChdir_spec (path : List UInt8) :
    Wp (sysChdir p path) (fun _ k' => Inv k' ∧ Frees k.fs.node k'.fs.node) (Harmless k.fs.node) k := by
  unfold sysChdir
  refine Wp.seq (cwdOf_spec h hp) (fun _ h0 => h0.elim) ?_
  rintro cwd k ⟨rfl, hcwd, href⟩
  rw [wp_bind, onFs, wp_on]
  refine (chdir_spec h.quiet href path).mono (fun r s hr => ?_) fun _ h0 => Or.inl h0
  cases r with
  | none =>
      refine ⟨h.did hr fun _ _ => rfl, ?_⟩
      change Frees _ s.node
      rw [hr.node]
  | some ip =>
      obtain ⟨t, hd, hdrop⟩ := hr
      rw [wp_bind, modifyProc, wp_modify]
      -- the new directory is the call's, the old one is given up, and then the process takes the new one
      have h1 := h.point.did hd
      have h2 : Point k.fs.node k.procs (fdsOf k.procs) (upd (cwdsOf k.procs) p none) 0 (0 + one ip + one cwd)
          { k with fs := t } := ⟨h1.quiet, h1.table.clearCwd hcwd, h1.frees, h1.procs⟩
      have h3 := (h2.dropped hdrop).setProc p fun x => { x with cwd := some ip }
      have h4 : Table k.files s (fdsOf k.procs) (upd (upd (cwdsOf k.procs) p none) p (some ip)) 0 0 :=
        h3.table.setCwd (upd_self _ _ _)
      rw [upd_upd] at h4
      refine ⟨⟨h3.quiet, ?_, h.lives.running hp rfl (Option.some_ne_none ip)⟩, h3.frees⟩
      dsimp only
      rw [fdsOf_same (by rfl), cwdsOf_set (by rfl)]
      exact h4

end

/-! ## `sys_open` -/

/-- The nodes after `sys_open` found or created its file. -/
def Opens (s : Fs.State) (cwd : Slot) (path : List UInt8) (omode : Nat) (N : Nat → Node) : Prop :=
  (omode &&& oCreate ≠ 0 → Taken s cwd path) ∧ N = s.node ∨ omode &&& oCreate ≠ 0 ∧ Creates s cwd path tFile 0 0 N

theorem openInode_spec {s : Fs.State} {cwd : Slot} (hq : Quiet s) (hcwd : 0 < (s.cell cwd).ref) (path : List UInt8)
    (omode : Nat) :
    Wp (openInode cwd path omode) (fun r t =>
        match r with
        | none => Opens s cwd path omode s.node ∧ Did s s.node 0 t
        | some ip => ∃ N, Opens s cwd path omode N ∧ Acquired s ip N t ∧
          ((N (t.cell ip).inum).type = tDir → omode = 0))
      (Halts s.node) s := by
  unfold openInode
  rw [wp_ite]
  refine ⟨fun hc => ?_, fun hc => ?_⟩
  · refine (create_acquired hq hcwd path ⟨isShort_small (by decide), by decide⟩
      ⟨isShort_small (by decide), isShort_small (by decide)⟩).post fun r t hr => ?_
    cases r with
    | none => exact ⟨Or.inl ⟨fun _ => hr.1, rfl⟩, hr.2⟩
    | some ip =>
        obtain ⟨N, hN, ha, hty⟩ := hr
        refine ⟨N, hN.imp (fun h => ⟨fun _ => h.1, h.2⟩) fun h => ⟨hc, h⟩, ha, fun h0 => ?_⟩
        rw [hty] at h0
        exact absurd h0 (by decide)
  · have hsame : Opens s cwd path omode s.node := Or.inl ⟨fun h => absurd h hc, rfl⟩
    refine Wp.bind (namei_spec hq hcwd path) fun r t hr => ?_
    cases r with
    | none => exact ⟨hsame, hq.did hr fun jp h0 => absurd h0 (lt_irrefl 0)⟩
    | some ip =>
        refine Wp.bind (ilock_acquired hq hr.1 hr.2.1) fun _ t1 ha => ?_
        obtain ⟨κ, h1⟩ := ha.during
        rw [wp_bind, wp_get, h1.wf.type_eq ha.ref_pos ha.valid, h1.nodeAt_eq rfl, wp_ite]
        refine ⟨fun _ => ?_, fun h0 => ⟨_, hsame, ha, fun hty => ?_⟩⟩
        · rw [← zero_add (one ip)] at h1
          refine h1.putBack hq.noLost (upd_self _ _ _) fun t2 h2 _ => ?_
          rw [upd_upd, upd_const] at h2
          exact ⟨hsame, hq.did h2 fun jp h0 => absurd h0 (lt_irrefl 0)⟩
        · by_contra hmode
          exact h0 ⟨hty, hmode⟩

/-- The lock is given up, and the call keeps its reference. -/
theorem iunlock_point {s : Fs.State} (hq : Quiet s) (ha : Acquired s ip N k.fs) (ht : Table k.files s fd cwd x y) :
    Wp (onFs (iunlock ip)) (fun _ k' => Point N k.procs fd cwd x (y + one ip) k' ∧ ∃ t,
      k' = { k with fs := t } ∧ t.node = N ∧ (t.cell ip).inum = (k.fs.cell ip).inum) (fun _ => False) k := by
  unfold onFs
  rw [wp_on]
  refine (ha.iunlock hq).post ?_
  rintro _ t ⟨hd, hi⟩
  refine ⟨⟨hd.quiet, ht.held hd.held fun jp hj => ?_, ?_, rfl⟩, t, rfl, hd.node, hi⟩
  · rw [hd.node]
    exact ha.old jp hj
  · change Frees N t.node
    rw [hd.node]

theorem openBad_spec {s : Fs.State} (hq : Quiet s) (ha : Acquired s ip N k.fs) (ht : Table k.files s fd cwd x y) :
    Wp (openBad ip) (fun _ k' => Point N k.procs fd cwd x y k') (fun _ => False) k := by
  unfold openBad
  refine Wp.bind (iunlock_point hq ha ht) ?_
  rintro _ k1 ⟨h1, _⟩
  exact Wp.bind (iput_point h1) fun _ _ h2 => h2

theorem sysOpen_spec (h : Inv k) (hp : (k.procs p).state = .runnable) (path : List UInt8) (omode : Nat) :
    Wp (sysOpen p path omode) (fun _ k' => Inv k' ∧ ∃ cwd, (k.procs p).cwd = some cwd ∧ ∃ N, Frees N k'.fs.node ∧
      Opens k.fs cwd path omode N) (Harmless k.fs.node) k := by
  unfold sysOpen
  have hE : ∀ e : Halt, False → Harmless k.fs.node e := fun _ h0 => h0.elim
  refine Wp.seq (cwdOf_spec h hp) (fun _ h0 => h0.elim) ?_
  rintro cwd k ⟨rfl, hcwd, href⟩
  rw [wp_bind, onFs, wp_on]
  refine (openInode_spec h.quiet href path omode).mono (fun r t hr => ?_) fun _ h0 => Or.inl h0
  cases r with
  | none =>
      refine ⟨h.did hr.2 fun _ _ => rfl, cwd, hcwd, k.fs.node, ?_, hr.1⟩
      change Frees _ t.node
      rw [hr.2.node]
  | some ip =>
      obtain ⟨N, hN, ha, hdir⟩ := hr
      refine Wp.seq fileAlloc_spec hE fun r k1 hr => ?_
      cases r with
      | none =>
          subst hr
          exact (openBad_spec (k := { k with fs := t }) h.quiet ha h.table).mono
            (fun _ k' hk' => ⟨hk'.inv h.lives, cwd, hcwd, N, hk'.frees, hN⟩) hE
      | some f =>
          obtain ⟨h0, rfl⟩ := hr
          have htype := h.table.closed f h0
          have ht := h.table.alloc h0
          refine Wp.seq (fdAlloc_spec p f) hE fun r k2 hr => ?_
          cases r with
          | none =>
              subst hr
              refine Wp.seq (fileClose_fresh ?_ ?_) hE ?_
              · exact congrArg File.ref (upd_self _ _ _)
              · exact (congrArg File.type (upd_self _ _ _)).trans htype
              · rintro _ _ rfl
                have ht' := ht.close (f := f) (congrArg File.ref (upd_self _ _ _))
                rw [show (upd k.files f { k.files f with ref := 1 } f).inode = none by
                  rw [upd_self]
                  exact if_neg (by rw [htype]; decide)] at ht'
                exact (openBad_spec h.quiet (k := { k with fs := t, files := _ }) ha ht').mono
                  (fun _ k' hk' => ⟨hk'.inv h.lives, cwd, hcwd, N, hk'.frees, hN⟩) hE
          | some i =>
              obtain ⟨hi, rfl⟩ := hr
              refine Wp.seq (iunlock_point h.quiet ha ht) hE ?_
              rintro _ _ ⟨h1, t', rfl, hnode, hinum⟩
              rw [wp_bind, modifyFile, wp_modify]
              have ht1 : Table (upd k.files f { k.files f with ref := 1 }) t' (fdsOf k.procs) (cwdsOf k.procs)
                (0 + one f) (0 + one ip) := h1.table
              have ht2 := (ht1.setFd (a := (p, i)) hi).openFile (f := f)
                (r := decide (omode &&& oWronly = 0))
                (w := decide (omode &&& oWronly ≠ 0 ∨ omode &&& oRdwr ≠ 0))
                ((congrArg File.type (upd_self _ _ _)).trans htype) (by rw [upd_self]; exact Nat.one_pos) ?_
              · refine ⟨⟨h1.quiet, ?_, h.lives.running hp rfl (h.lives.cwd p hp)⟩, cwd, hcwd, N, h1.frees, hN⟩
                dsimp only
                rw [fdsOf_set (by rfl), cwdsOf_same (by rfl)]
                exact ht2
              · intro hw hd
                have hmode : omode = 0 := hdir (by rw [← hnode, ← hinum]; exact hd)
                rw [hmode] at hw
                exact absurd hw (by decide)

/-! ## Pipes -/

theorem fileClose_harmless (h : Point N procs fd cwd (x + one f) y k) {M : Nat → Node} :
    Wp (fileClose f) (fun _ k' => Point N procs fd cwd x y k') (Harmless M) k := by
  refine (fileClose_spec h).mono (fun _ _ h => h) ?_
  rintro _ rfl
  exact Or.inr (by simp)

theorem Point.alloc (h : Point N procs fd cwd x y k) (h0 : (k.files f).ref = 0) :
    Point N procs fd cwd (x + one f) y { k with files := upd k.files f { k.files f with ref := 1 } } :=
  ⟨h.quiet, h.table.alloc h0, h.frees, h.procs⟩

theorem Point.openPipe (h : Point N procs fd cwd x y k) (htype : (k.files f).type = .none)
    (hpos : 0 < (k.files f).ref) (r w : Bool) (q : Nat) :
    Point N procs fd cwd x y { k with
      files := upd k.files f { k.files f with type := .pipe, readable := r, writable := w, pipe := q } } :=
  ⟨h.quiet, h.table.openPipe htype hpos, h.frees, h.procs⟩

theorem pipeAlloc_spec (h : Point N procs fd cwd 0 0 k) {M : Nat → Node} :
    Wp pipeAlloc (fun r k' =>
        match r with
        | none => Point N procs fd cwd 0 0 k'
        | some (f0, f1) => Point N procs fd cwd (one f1 + one f0) 0 k')
      (Harmless M) k := by
  unfold pipeAlloc
  refine Wp.seq fileAlloc_spec (fun _ h0 => h0.elim) fun r k1 hr => ?_
  cases r with
  | none =>
      subst hr
      exact h
  | some f0 =>
      obtain ⟨hr0, rfl⟩ := hr
      have ht0 := h.table.closed f0 hr0
      have h1 := h.alloc hr0
      refine Wp.seq fileAlloc_spec (fun _ h0 => h0.elim) fun r k2 hr => ?_
      cases r with
      | none =>
          subst hr
          exact Wp.bind (fileClose_harmless h1) fun _ _ h2 => h2
      | some f1 =>
          obtain ⟨hr1, rfl⟩ := hr
          have hne : f0 ≠ f1 := by
            rintro rfl
            exact absurd ((congrArg File.ref (upd_self _ _ _)).symm.trans hr1) Nat.one_ne_zero
          have ht1 := h1.table.closed f1 hr1
          have h2 := h1.alloc hr1
          rw [zero_add, add_comm] at h2
          refine Wp.seq kalloc_any (fun _ h0 => h0.elim) ?_
          rintro r _ ⟨mem, rfl⟩
          cases r with
          | none =>
              refine Wp.bind (fileClose_harmless (h2.withMem mem)) fun _ k3 h3 => ?_
              rw [← zero_add (one f1)] at h3
              exact Wp.bind (fileClose_harmless h3) fun _ _ h4 => h4
          | some q =>
              rw [wp_bind, modifyPipe, wp_modify, wp_bind, modifyFile, wp_modify, wp_bind, modifyFile, wp_modify]
              refine (((h2.withMem mem).withPipes _).openPipe (f := f0) ?_ ?_ _ _ _).openPipe ?_ ?_ _ _ _
              · dsimp only
                rw [upd_of_ne hne, upd_self]
                exact ht0
              · dsimp only
                rw [upd_of_ne hne, upd_self]
                exact Nat.one_pos
              · dsimp only
                rw [upd_of_ne hne.symm, upd_self]
                exact ht1
              · dsimp only
                rw [upd_of_ne hne.symm, upd_self]
                exact Nat.one_pos

/-- A descriptor of a process takes over a pointer of the call. -/
theorem Point.setFd (h : Point N procs (fdsOf procs) (cwdsOf procs) (x + one f) y k)
    (hi : (k.procs p).ofile i = none) :
    Point N (upd procs p { procs p with ofile := upd (procs p).ofile i (some f) })
      (fdsOf (upd procs p { procs p with ofile := upd (procs p).ofile i (some f) }))
      (cwdsOf (upd procs p { procs p with ofile := upd (procs p).ofile i (some f) })) x y
      { k with procs := upd k.procs p { k.procs p with ofile := upd (k.procs p).ofile i (some f) } } := by
  have h' := h.setProc p fun x => { x with ofile := upd x.ofile i (some f) }
  rw [h.procs] at hi
  refine Point.of_eq ⟨h'.quiet, h'.table.setFd (a := (p, i)) hi, h'.frees, h'.procs⟩ rfl ?_ ?_
  · exact (fdsOf_set rfl).symm
  · exact (cwdsOf_same (by rfl)).symm

theorem Point.clearFd (h : Point N procs (fdsOf procs) (cwdsOf procs) x y k) (hi : (k.procs p).ofile i = some f) :
    Point N (upd procs p { procs p with ofile := upd (procs p).ofile i none })
      (fdsOf (upd procs p { procs p with ofile := upd (procs p).ofile i none }))
      (cwdsOf (upd procs p { procs p with ofile := upd (procs p).ofile i none })) (x + one f) y
      { k with procs := upd k.procs p { k.procs p with ofile := upd (k.procs p).ofile i none } } := by
  have h' := h.setProc p fun x => { x with ofile := upd x.ofile i none }
  rw [h.procs] at hi
  refine Point.of_eq ⟨h'.quiet, h'.table.clearFd (a := (p, i)) hi, h'.frees, h'.procs⟩ rfl ?_ ?_
  · exact (fdsOf_set rfl).symm
  · exact (cwdsOf_same (by rfl)).symm

theorem sysPipe_spec (h : Inv k) (hp : (k.procs p).state = .runnable) (n : Nat) :
    Wp (sysPipe p n) (fun _ k' => Inv k' ∧ Frees k.fs.node k'.fs.node) (Harmless k.fs.node) k := by
  unfold sysPipe sysPipeBy
  refine Wp.bind (pipeAlloc_spec h.point) fun r k1 h1 => ?_
  cases r with
  | none => exact ⟨h1.inv h.lives, h1.frees⟩
  | some w =>
      obtain ⟨f0, f1⟩ := w
      refine Wp.seq (fdAlloc_spec p f0) (fun _ h0 => h0.elim) fun r k2 hr => ?_
      cases r with
      | none =>
          subst hr
          refine Wp.bind (fileClose_harmless h1) fun _ k3 h3 => ?_
          rw [← zero_add (one f1)] at h3
          exact Wp.bind (fileClose_harmless h3) fun _ _ h4 => ⟨h4.inv h.lives, h4.frees⟩
      | some i =>
          obtain ⟨hi, rfl⟩ := hr
          have h2 := h1.setFd hi
          have hl2 : Lives (upd k.procs p { k.procs p with ofile := upd (k.procs p).ofile i (some f0) }) :=
            h.lives.running hp rfl (h.lives.cwd p hp)
          refine Wp.seq (fdAlloc_spec p f1) (fun _ h0 => h0.elim) fun r k3 hr => ?_
          cases r with
          | none =>
              subst hr
              have h3 := h2.clearFd (p := p) (i := i) (f := f0) (by
                dsimp only
                rw [upd_self]
                exact upd_self _ _ _)
              rw [wp_bind, modifyProc, wp_modify]
              refine Wp.bind (fileClose_harmless h3) fun _ k4 h4 => ?_
              rw [← zero_add (one f1)] at h4
              refine Wp.bind (fileClose_harmless h4) fun _ _ h5 => ⟨h5.inv ?_, h5.frees⟩
              exact hl2.running (by rw [upd_self]; exact hp) rfl (by rw [upd_self]; exact h.lives.cwd p hp)
          | some j =>
              obtain ⟨hj, rfl⟩ := hr
              rw [← zero_add (one f1)] at h2
              have h3 := h2.setFd hj
              refine Wp.bind (storeUser_spec n _) ?_
              rintro _ _ ⟨mem, rfl⟩
              refine Wp.bind (storeUser_spec (n + 4) _) ?_
              rintro _ _ ⟨mem', rfl⟩
              refine ⟨(h3.withMem mem').inv ?_, h3.frees⟩
              exact hl2.running (by rw [upd_self]; exact hp) rfl (by rw [upd_self]; exact h.lives.cwd p hp)

end

end Xv6.Kernel
