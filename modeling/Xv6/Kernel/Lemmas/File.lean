import Xv6.Kernel.Lemmas.Table

/-!
# Files keep the reference counts

The functions of `file.c` at any point of a call. What they do to the memory and to pipes does not
matter here.
-/

namespace Xv6.Kernel

open Xv6.Lib Xv6.Fs Xv6.Vm

/-- A point of a call that started with the nodes `N`, between calls of file system functions. -/
structure Point (N : Nat → Node) (procs : ProcId → Proc) (fd : ProcId × Fin nofile → Option FileId)
    (cwd : ProcId → Option Slot) (x : FileId → Nat) (y : Slot → Nat) (k : System) : Prop where
  quiet : Quiet k.fs
  table : Table k.files k.fs fd cwd x y
  frees : Frees N k.fs.node
  procs : k.procs = procs

section

variable {N : Nat → Node} {procs : ProcId → Proc} {fd : ProcId × Fin nofile → Option FileId}
  {cwd : ProcId → Option Slot} {x : FileId → Nat} {y e : Slot → Nat} {k k' : System} {f : FileId} {ip : Slot}
  {s : Fs.State} {p : ProcId}

theorem Inv.point (h : Inv k) : Point k.fs.node k.procs (fdsOf k.procs) (cwdsOf k.procs) 0 0 k :=
  ⟨h.quiet, h.table, .refl, rfl⟩

theorem Point.inv (h : Point N procs (fdsOf procs) (cwdsOf procs) 0 0 k) (hl : Lives procs) : Inv k := by
  obtain ⟨hq, ht, _, rfl⟩ := h
  exact ⟨hq, ht, hl⟩

theorem Point.withMem (h : Point N procs fd cwd x y k) (mem : Mem) : Point N procs fd cwd x y { k with mem := mem } :=
  ⟨h.quiet, h.table, h.frees, h.procs⟩

theorem Point.withPipes (h : Point N procs fd cwd x y k) (pipes : Nat → Pipe) :
    Point N procs fd cwd x y { k with pipes := pipes } :=
  ⟨h.quiet, h.table, h.frees, h.procs⟩

theorem Point.dropped (h : Point N procs fd cwd x (y + one ip) k) (hd : Dropped k.fs ip s) :
    Point N procs fd cwd x y { k with fs := s } :=
  ⟨hd.quiet, h.table.dropped hd, h.frees.trans hd.frees, h.procs⟩

theorem Point.did (h : Point N procs fd cwd x y k) (hd : Did k.fs k.fs.node e s) :
    Point N procs fd cwd x (y + e) { k with fs := s } := by
  refine ⟨hd.quiet, h.table.held hd.held fun jp _ => ?_, ?_, h.procs⟩
  · rw [hd.node]
  · change Frees N s.node
    rw [hd.node]
    exact h.frees

theorem Point.ref_pos (h : Point N procs fd cwd x (y + one ip) k) : 0 < (k.fs.cell ip).ref := by
  have := h.table.inode ip
  rw [Pi.add_apply, one_self] at this
  omega

/-! ## Lifted programs -/

/-- A memory function changes the memory. -/
theorem wp_onMem_any {α : Type} (m : MemM α) :
    Wp (onMem m) (fun _ k' => ∃ mem, k' = { k with mem := mem }) (fun _ => True) k := by
  unfold onMem
  rw [wp_on]
  unfold Wp
  split
  · exact ⟨_, rfl⟩
  · trivial

theorem kfree_any (q : Nat) :
    Wp (onMem (kfree q)) (fun _ k' => ∃ mem, k' = { k with mem := mem })
      (fun e => e = .panic "kfree frees wrong addr") k := by
  unfold onMem kfree
  rw [wp_on, wp_bind, wp_get, wp_bind, wp_panicIf]
  exact ⟨fun _ => rfl, fun _ => ⟨_, rfl⟩⟩

theorem kalloc_any : Wp (onMem kalloc) (fun _ k' => ∃ mem, k' = { k with mem := mem }) (fun _ => False) k := by
  unfold onMem kalloc
  rw [wp_on, wp_bind, wp_get]
  split <;> exact ⟨_, rfl⟩

theorem iput_point (h : Point N procs fd cwd x (y + one ip) k) :
    Wp (onFs (iput ip)) (fun _ k' => Point N procs fd cwd x y k') (fun _ => False) k := by
  unfold onFs
  rw [wp_on]
  exact (iput_dropped h.quiet h.ref_pos).post fun _ s hd => h.dropped hd

/-! ## Files -/

theorem fileAlloc_spec : Wp fileAlloc (fun r k' =>
    match r with
    | none => k' = k
    | some f => (k.files f).ref = 0 ∧ k' = { k with files := upd k.files f { k.files f with ref := 1 } })
    (fun _ => False) k := by
  unfold fileAlloc
  rw [wp_bind, wp_get]
  dsimp only
  cases hf : (List.finRange nfile).find? fun f => (k.files f).ref = 0 with
  | none => exact rfl
  | some f => exact ⟨by simpa using List.find?_some hf, rfl⟩

theorem fileDup_spec (h : 0 < (k.files f).ref) :
    Wp (fileDup f) (fun _ k' => k' = { k with files := upd k.files f { k.files f with ref := (k.files f).ref + 1 } })
      (fun _ => False) k := by
  unfold fileDup
  rw [wp_bind, wp_get, wp_bind, wp_panicIf]
  exact ⟨fun h0 => by omega, fun _ => rfl⟩

theorem pipeClose_any (q : Nat) (w : Bool) :
    Wp (pipeClose q w) (fun _ k' => ∃ mem pipes, k' = { k with mem := mem, pipes := pipes })
      (fun e => e = .panic "kfree frees wrong addr") k := by
  unfold pipeClose
  have hrest : ∀ pipes, Wp (do
      let k ← get
      if (k.pipes q).readOpen = false ∧ (k.pipes q).writeOpen = false then onMem (kfree q) else pure ())
      (fun _ k' => ∃ mem pipes, k' = { k with mem := mem, pipes := pipes })
      (fun e => e = .panic "kfree frees wrong addr") { k with pipes := pipes } := by
    intro pipes
    rw [wp_bind, wp_get, wp_ite]
    refine ⟨fun _ => (kfree_any q).post ?_, fun _ => ⟨k.mem, pipes, rfl⟩⟩
    rintro _ _ ⟨mem, rfl⟩
    exact ⟨mem, pipes, rfl⟩
  split
  · exact hrest _
  · exact hrest _

theorem fileClose_spec (h : Point N procs fd cwd (x + one f) y k) :
    Wp (fileClose f) (fun _ k' => Point N procs fd cwd x y k')
      (fun e => e = .panic "kfree frees wrong addr") k := by
  have hpos : 0 < (k.files f).ref := by
    have := h.table.file f
    rw [Pi.add_apply, one_self] at this
    omega
  unfold fileClose
  rw [wp_bind, wp_get]
  dsimp only
  rw [wp_bind, wp_panicIf]
  refine ⟨fun h0 => by omega, fun _ => ?_⟩
  rw [wp_ite]
  refine ⟨fun h1 => ⟨h.quiet, h.table.undup h1, h.frees, h.procs⟩, fun h1 => ?_⟩
  have ht := h.table.close (f := f) (by omega)
  have hpoint : Point N procs fd cwd x (y + (k.files f).inode.elim 0 one)
      { k with files := upd k.files f { k.files f with ref := 0, type := .none } } :=
    ⟨h.quiet, ht, h.frees, h.procs⟩
  rw [wp_bind, modifyFile, wp_modify]
  cases hty : (k.files f).type with
  | pipe =>
      rw [File.inode, hty] at hpoint
      refine (pipeClose_any _ _).post ?_
      rintro _ _ ⟨mem, pipes, rfl⟩
      exact (hpoint.withMem mem).withPipes pipes
  | inode =>
      rw [File.inode, hty] at hpoint
      exact (iput_point hpoint).mono (fun _ _ h => h) fun _ h0 => h0.elim
  | none =>
      rw [File.inode, hty] at hpoint
      exact hpoint

/-- A file that was just taken is given back. -/
theorem fileClose_fresh (hone : (k.files f).ref = 1) (htype : (k.files f).type = .none) :
    Wp (fileClose f) (fun _ k' => k' = { k with files := upd k.files f { k.files f with ref := 0, type := .none } })
      (fun _ => False) k := by
  unfold fileClose
  rw [wp_bind, wp_get]
  dsimp only
  rw [wp_bind, wp_panicIf, hone, htype]
  exact ⟨fun h0 => by omega, fun _ => rfl⟩

end

end Xv6.Kernel
