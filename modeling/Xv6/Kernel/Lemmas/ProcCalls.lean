import Xv6.Kernel.Lemmas.FileCalls

/-!
# The system calls on processes

What they do to the files and the working directories; the memory plays no part here. A call that is
not a call on files may halt for any reason, since its memory functions may.
-/

namespace Xv6.Kernel

open Xv6.Lib Xv6.Fs Xv6.Vm

section

variable {N : Nat → Node} {procs procs' : ProcId → Proc} {fd : ProcId × Fin nofile → Option FileId}
  {cwd : ProcId → Option Slot} {x : FileId → Nat} {y : Slot → Nat} {k : System} {f : FileId} {ip : Slot}
  {p cur new : ProcId}

/-- A change of a process that keeps its files and its working directory. -/
theorem Point.keepProc (h : Point N procs (fdsOf procs) (cwdsOf procs) x y k) (p : ProcId) {g : Proc → Proc}
    (ho : ∀ q, (g q).ofile = q.ofile) (hc : ∀ q, (g q).cwd = q.cwd) :
    Point N (upd procs p (g (procs p))) (fdsOf (upd procs p (g (procs p)))) (cwdsOf (upd procs p (g (procs p)))) x y
      { k with procs := upd k.procs p (g (k.procs p)) } :=
  (h.setProc p g).of_eq rfl (fdsOf_same (ho _)).symm (cwdsOf_same (hc _)).symm

/-- A reference of the call becomes the working directory of a process that had none. -/
theorem Point.setCwd {ip : Slot} (h : Point N procs (fdsOf procs) (cwdsOf procs) x (y + one ip) k) {p : ProcId}
    (hp : (procs p).cwd = none) :
    Point N (upd procs p { procs p with cwd := some ip }) (fdsOf (upd procs p { procs p with cwd := some ip }))
      (cwdsOf (upd procs p { procs p with cwd := some ip })) x y
      { k with procs := upd k.procs p { k.procs p with cwd := some ip } } := by
  have h2 := h.setProc p fun x => { x with cwd := some ip }
  exact Point.of_eq ⟨h2.quiet, h2.table.setCwd (p := p) hp, h2.frees, h2.procs⟩ rfl (fdsOf_same (by rfl)).symm
    (cwdsOf_set (by rfl)).symm

theorem Point.keepProcs (h : Point N procs (fdsOf procs) (cwdsOf procs) x y k) (procs' : ProcId → Proc)
    (ho : ∀ p, (procs' p).ofile = (procs p).ofile) (hc : ∀ p, (procs' p).cwd = (procs p).cwd) :
    Point N procs' (fdsOf procs') (cwdsOf procs') x y { k with procs := procs' } := by
  have hf : fdsOf procs' = fdsOf procs := funext fun a => congrFun (ho a.1) a.2
  have hc' : cwdsOf procs' = cwdsOf procs := funext hc
  refine ⟨h.quiet, ?_, h.frees, rfl⟩
  rw [hf, hc']
  exact h.table

/-! ## `fork` -/

/-- The process table while a new process is made. -/
structure Making (procs : ProcId → Proc) (new : ProcId) (procs' : ProcId → Proc) : Prop where
  free : (procs new).state = .unused
  others : ∀ p, p ≠ new → procs' p = procs p
  idle : (procs' new).cwd = none

theorem Making.keep {q : Proc} (h : Making procs new procs') (hq : q.cwd = (procs' new).cwd) :
    Making procs new (upd procs' new q) := by
  refine ⟨h.free, fun p hp => ?_, ?_⟩
  · rw [upd_of_ne hp]
    exact h.others p hp
  · rw [upd_self, hq]
    exact h.idle

/-- A step that sets fields of the new process which are neither its files nor its working directory. -/
theorem Point.setNew {α : Type} {rest : KernelM α} {Q : α → System → Prop} {E : Halt → Prop}
    (h : Point N procs' (fdsOf procs') (cwdsOf procs') x y k) (hm : Making procs new procs') {g : Proc → Proc}
    (ho : ∀ q, (g q).ofile = q.ofile) (hc : ∀ q, (g q).cwd = q.cwd)
    (hrest : ∀ procs'' k', Point N procs'' (fdsOf procs'') (cwdsOf procs'') x y k' → Making procs new procs'' →
      Wp rest Q E k') :
    Wp (modifyProc new g >>= fun _ => rest) Q E k := by
  rw [wp_bind, modifyProc, wp_modify]
  exact hrest _ _ (h.keepProc new ho hc) (hm.keep (hc _))

theorem allocProc_spec (h : Inv k) : Wp allocProc (fun r k' => ∃ procs',
    Point k.fs.node procs' (fdsOf procs') (cwdsOf procs') 0 0 k' ∧
    match r with
    | none => Lives procs'
    | some new => Making k.procs new procs' ∧ ∀ i, (procs' new).ofile i = none) (fun _ => True) k := by
  unfold allocProc
  rw [wp_bind, wp_get]
  cases hf : (List.finRange nproc).find? fun p => (k.procs p).state = .unused with
  | none => exact ⟨k.procs, h.point, h.lives⟩
  | some new =>
      have hfree : (k.procs new).state = .unused := by simpa using List.find?_some hf
      obtain ⟨hc, ho⟩ := h.lives.idle new (by rw [hfree]; decide)
      have h1 := h.point.keepProc new (g := fun x => { x with state := .embryo, pid := pidOf k.nextPid }) (fun _ => rfl)
        fun _ => rfl
      rw [wp_bind, modifyProc, wp_modify, wp_bind, wp_modify]
      refine Wp.seq (wp_onMem_any _) (fun _ h0 => h0) ?_
      rintro r _ ⟨mem, rfl⟩
      have h2 : Point k.fs.node _ _ _ 0 0 { k with
          procs := upd k.procs new { k.procs new with state := .embryo, pid := pidOf k.nextPid }
          nextPid := (k.nextPid + 1) % 2 ^ 32, mem := mem } := ⟨h1.quiet, h1.table, h1.frees, h1.procs⟩
      cases r with
      | none =>
          have h3 := h2.keepProc new (g := fun x => { x with state := .unused }) (fun _ => rfl) fun _ => rfl
          rw [wp_bind, modifyProc, wp_modify]
          refine ⟨_, h3, ?_⟩
          rw [upd_upd, upd_self]
          exact h.lives.stopped (Or.inl rfl) hc ho
      | some f =>
          have h3 := h2.keepProc new (g := fun x => { x with kstack := some f }) (fun _ => rfl) fun _ => rfl
          rw [wp_bind, modifyProc, wp_modify]
          refine ⟨_, h3, ⟨hfree, fun p hp => ?_, ?_⟩, fun i => ?_⟩
          · rw [upd_of_ne hp, upd_of_ne hp]
          · rw [upd_self, upd_self]
            exact hc
          · rw [upd_self, upd_self]
            exact ho i

/-- The new process gets the files of its parent. -/
theorem forkFiles_spec (hl : Lives procs) (hcur : (procs cur).state = .runnable) (hm : Making procs new procs')
    (ho : ∀ i, (procs' new).ofile i = none) (h : Point N procs' (fdsOf procs') (cwdsOf procs') 0 0 k) :
    Wp (forkFiles cur new) (fun _ k' => ∃ procs'', Point N procs'' (fdsOf procs'') (cwdsOf procs'') 0 0 k' ∧
      (∀ p, p ≠ new → procs'' p = procs p) ∧ (procs'' new).cwd ≠ none) (fun _ => True) k := by
  have hne : cur ≠ new := by
    rintro rfl
    rw [hm.free] at hcur
    cases hcur
  unfold forkFiles
  refine Wp.bind (wp_each (fun l k' => ∃ procs'', Point N procs'' (fdsOf procs'') (cwdsOf procs'') 0 0 k' ∧
    Making procs new procs'' ∧ l.Nodup ∧ ∀ i ∈ l, (procs'' new).ofile i = none) ?_ _ _
    ⟨procs', h, hm, List.nodup_finRange _, fun i _ => ho i⟩) ?_
  · rintro i l k' ⟨procs'', h', hm', hnd, ho'⟩
    obtain ⟨hnot, hnd'⟩ := List.nodup_cons.mp hnd
    rw [wp_bind, wp_get]
    cases hf : (k'.procs cur).ofile i with
    | none => exact ⟨procs'', h', hm', hnd', fun j hj => ho' j (List.mem_cons_of_mem i hj)⟩
    | some f =>
        have hf' : fdsOf procs'' (cur, i) = some f := by
          rw [← h'.procs]
          exact hf
        refine Wp.seq (fileDup_spec (h'.table.file_pos hf')) (fun _ h0 => h0.elim) ?_
        rintro _ _ rfl
        rw [modifyProc, wp_modify]
        have h1 : Point N procs'' (fdsOf procs'') (cwdsOf procs'') (0 + one f) 0
            { k' with files := upd k'.files f { k'.files f with ref := (k'.files f).ref + 1 } } :=
          ⟨h'.quiet, h'.table.dup, h'.frees, h'.procs⟩
        have hnone : (k'.procs new).ofile i = none := by
          rw [h'.procs]
          exact ho' i List.mem_cons_self
        refine ⟨_, h1.setFd (p := new) hnone, hm'.keep (by rfl), hnd', fun j hj => ?_⟩
        · rw [upd_self]
          dsimp only
          rw [upd_of_ne]
          · exact ho' j (List.mem_cons_of_mem i hj)
          · rintro rfl
            exact hnot hj
  · rintro _ k1 ⟨procs'', h1, hm1, _, _⟩
    have hcwd : (k1.procs cur).cwd = (procs cur).cwd := by rw [h1.procs, hm1.others cur hne]
    unfold cwdOf
    rw [wp_bind, wp_bind, wp_get]
    cases hc : (k1.procs cur).cwd with
    | none =>
        rw [hc] at hcwd
        exact absurd hcwd.symm (hl.cwd cur hcur)
    | some ip =>
        have hpos : 0 < (k1.fs.cell ip).ref := h1.table.cwd_pos (p := cur) (by rw [← h1.procs]; exact hc)
        rw [wp_pure, wp_bind, onFs, wp_on]
        refine (idup_did h1.quiet hpos).mono ?_ fun _ h0 => h0.elim
        rintro ip s ⟨rfl, hd⟩
        rw [modifyProc, wp_modify]
        refine ⟨_, (h1.did hd).setCwd hm1.idle, fun p hp => ?_, ?_⟩
        · rw [upd_of_ne hp]
          exact hm1.others p hp
        · rw [upd_self]
          exact Option.some_ne_none ip

theorem forkMem_any : Wp (forkMem cur) (fun _ k' => ∃ mem, k' = { k with mem := mem }) (fun _ => True) k := by
  unfold forkMem
  rw [wp_bind, wp_get]
  split
  · trivial
  · exact wp_onMem_any _

theorem kfreeStack_any (f : Option Nat) :
    Wp (kfreeStack f) (fun _ k' => ∃ mem, k' = { k with mem := mem }) (fun _ => True) k := by
  unfold kfreeStack
  split
  · trivial
  · exact wp_onMem_any _

theorem Lives.add (new : ProcId) (h : Lives procs) (hothers : ∀ p, p ≠ new → procs' p = procs p)
    (hstate : (procs' new).state = .runnable) (hcwd : (procs' new).cwd ≠ none) : Lives procs' := by
  have hcase : ∀ p, p = new ∨ procs' p = procs p := fun p => or_iff_not_imp_left.mpr (hothers p)
  refine ⟨fun p => ?_, fun p hp => ?_, fun p hp => ?_⟩
  · rcases hcase p with rfl | h0
    · exact Or.inr (Or.inl hstate)
    · rw [h0]
      exact h.known p
  · rcases hcase p with rfl | h0
    · exact hcwd
    · rw [h0] at hp ⊢
      exact h.cwd p hp
  · rcases hcase p with rfl | h0
    · exact absurd hstate hp
    · rw [h0] at hp ⊢
      exact h.idle p hp

theorem fork_spec (h : Inv k) (hcur : (k.procs cur).state = .runnable) :
    Wp (fork cur) (fun _ k' => Inv k' ∧ Frees k.fs.node k'.fs.node) (fun _ => True) k := by
  unfold fork
  refine Wp.bind (allocProc_spec h) ?_
  rintro r k1 ⟨procs1, h1, hr⟩
  cases r with
  | none => exact ⟨h1.inv hr, h1.frees⟩
  | some new =>
      obtain ⟨hm, ho⟩ := hr
      refine Wp.bind forkMem_any ?_
      rintro r _ ⟨mem, rfl⟩
      have h2 := h1.withMem mem
      cases r with
      | none =>
          rw [wp_bind, wp_get]
          refine Wp.bind (kfreeStack_any _) ?_
          rintro _ _ ⟨mem', rfl⟩
          rw [wp_bind, modifyProc, wp_modify]
          have h3 := (h2.withMem mem').keepProc new
            (g := fun x => { x with pml4 := none, kstack := none, state := .unused })
            (fun _ => rfl) fun _ => rfl
          refine ⟨h3.inv ?_, h3.frees⟩
          have hall : upd procs1 new { procs1 new with pml4 := none, kstack := none, state := .unused } =
              upd k.procs new { procs1 new with pml4 := none, kstack := none, state := .unused } := by
            funext p
            rw [upd_apply, upd_apply]
            split
            · rfl
            · exact hm.others p ‹_›
          rw [hall]
          exact h.lives.stopped (Or.inl rfl) hm.idle ho
      | some pml4 =>
          rw [wp_bind, wp_get, wp_bind, modifyProc, wp_modify]
          have h3 := h2.keepProc new (g := fun x => { x with
            pml4 := some pml4, sz := (k1.procs cur).sz, parent := some cur, rp := { (k1.procs cur).rp with rax := 0 } })
            (fun _ => rfl) fun _ => rfl
          refine Wp.bind (forkFiles_spec h.lives hcur (hm.keep (by rfl)) (fun i => ?_) h3) ?_
          · rw [upd_self]
            exact ho i
          rintro _ k4 ⟨procs4, h4, hothers, hcwd⟩
          rw [wp_bind, modifyProc, wp_modify, wp_bind, modifyProc, wp_modify]
          have h5 := (h4.keepProc new (g := fun x => { x with name := safeStrcpy (k1.procs cur).name nameSize })
            (fun _ => rfl) fun _ => rfl).keepProc new (g := fun x => { x with state := .runnable })
              (fun _ => rfl) fun _ => rfl
          refine ⟨h5.inv (Lives.add new h.lives (fun p hp => ?_) ?_ ?_), h5.frees⟩
          · rw [upd_of_ne hp, upd_of_ne hp]
            exact hothers p hp
          · rw [upd_self]
          · rw [upd_self, upd_self]
            exact hcwd

/-! ## `exit` and `wait` -/

/-- Other processes get a new parent, and one of them stops. -/
theorem Lives.reparented (h : Lives procs) (hothers : ∀ p, p ≠ cur → procs' p = procs p) {q : Proc} {i : Option ProcId}
    (hq : q.state = .zombie) (hc : q.cwd = none) (ho : ∀ i, q.ofile i = none) :
    Lives (upd (fun p => if (procs' p).parent = some cur then { procs' p with parent := i } else procs' p) cur q) := by
  have hcase : ∀ p, p ≠ cur → ∃ parent, upd (fun p => if (procs' p).parent = some cur then
      { procs' p with parent := i } else procs' p) cur q p = { procs p with parent := parent } := by
    intro p hp
    rw [upd_of_ne hp, hothers p hp]
    split
    · exact ⟨i, rfl⟩
    · exact ⟨(procs p).parent, rfl⟩
  refine ⟨fun p => ?_, fun p hs => ?_, fun p hs => ?_⟩ <;> by_cases hp : p = cur
  · rw [hp, upd_self]
    exact Or.inr (Or.inr hq)
  · obtain ⟨parent, h0⟩ := hcase p hp
    rw [h0]
    exact h.known p
  · rw [hp, upd_self, hq] at hs
    cases hs
  · obtain ⟨parent, h0⟩ := hcase p hp
    rw [h0] at hs ⊢
    exact h.cwd p hs
  · rw [hp, upd_self]
    exact ⟨hc, ho⟩
  · obtain ⟨parent, h0⟩ := hcase p hp
    rw [h0] at hs ⊢
    exact h.idle p hs

theorem exit_spec (h : Inv k) :
    Wp (exit cur) (fun _ k' => Inv k' ∧ Frees k.fs.node k'.fs.node) (Harmless k.fs.node) k := by
  unfold exit
  rw [wp_bind, wp_get, wp_bind, wp_panicIf]
  refine ⟨fun _ => Or.inr (by simp), fun _ => ?_⟩
  refine Wp.bind (wp_each (fun l k' => ∃ procs', Point k.fs.node procs' (fdsOf procs') (cwdsOf procs') 0 0 k' ∧
    (∀ p, p ≠ cur → procs' p = k.procs p) ∧ ∀ i, i ∉ l → (procs' cur).ofile i = none) ?_ _ _
    ⟨k.procs, h.point, fun _ _ => rfl, fun i hi => absurd (List.mem_finRange i) hi⟩) ?_
  · rintro i l k' ⟨procs', h', hothers, hdone⟩
    rw [wp_bind, wp_get]
    cases hf : (k'.procs cur).ofile i with
    | none =>
        refine ⟨procs', h', hothers, fun j hj => ?_⟩
        by_cases hji : j = i
        · rw [hji, ← h'.procs]
          exact hf
        · exact hdone j fun h0 => hj ((List.mem_cons.mp h0).resolve_left hji)
    | some f =>
        -- the pointer of the descriptor is the call's until it is cleared
        have hf' : fdsOf procs' (cur, i) = some f := by
          rw [← h'.procs]
          exact hf
        refine Wp.bind (fileClose_harmless (f := f) ⟨h'.quiet, h'.table.clearFd hf', h'.frees, h'.procs⟩) ?_
        intro _ k1 h1
        rw [modifyProc, wp_modify]
        have h2 := h1.setProc cur fun x => { x with ofile := upd x.ofile i none }
        refine ⟨_, h2.of_eq rfl (fdsOf_set (by rfl)).symm (cwdsOf_same (by rfl)).symm, fun p hp => ?_, fun j hj => ?_⟩
        · rw [upd_of_ne hp]
          exact hothers p hp
        · rw [upd_self]
          dsimp only
          rw [upd_apply]
          split
          · rfl
          · exact hdone j fun h0 => hj ((List.mem_cons.mp h0).resolve_left ‹_›)
  · rintro _ k1 ⟨procs1, h1, hothers, hdone⟩
    -- what is left when the working directory is gone
    have hend : ∀ k2 procs2, Point k.fs.node procs2 (fdsOf procs2) (cwdsOf procs2) 0 0 k2 →
        (∀ p, p ≠ cur → procs2 p = k.procs p) → (∀ i, (procs2 cur).ofile i = none) → (procs2 cur).cwd = none →
        Wp (do
          modify fun k => { k with procs := fun p =>
            if (k.procs p).parent = some cur then { k.procs p with parent := k.initProc } else k.procs p }
          modifyProc cur fun x => { x with state := .zombie })
          (fun _ k' => Inv k' ∧ Frees k.fs.node k'.fs.node) (Harmless k.fs.node) k2 := by
      intro k2 procs2 h2 hothers2 ho hc
      rw [wp_bind, wp_modify, modifyProc, wp_modify]
      obtain rfl := h2.procs
      have h3 := (h2.keepProcs (fun p =>
        if (k2.procs p).parent = some cur then { k2.procs p with parent := k2.initProc } else k2.procs p)
        (fun p => by dsimp only; split <;> rfl) fun p => by dsimp only; split <;> rfl).keepProc cur
        (g := fun x => { x with state := .zombie }) (fun _ => rfl) fun _ => rfl
      refine ⟨h3.inv (h.lives.reparented hothers2 rfl ?_ ?_), h3.frees⟩
      · dsimp only
        split
        · exact hc
        · exact hc
      · dsimp only
        split
        · exact ho
        · exact ho
    rw [wp_bind, wp_get]
    cases hc : (k1.procs cur).cwd with
    | none =>
        refine hend k1 procs1 h1 hothers (fun i => hdone i List.not_mem_nil) ?_
        rw [← h1.procs]
        exact hc
    | some ip =>
        have hc' : cwdsOf procs1 cur = some ip := by
          rw [← h1.procs]
          exact hc
        have h2 : Point k.fs.node procs1 (fdsOf procs1) (upd (cwdsOf procs1) cur none) 0 (0 + one ip) k1 :=
          ⟨h1.quiet, h1.table.clearCwd hc', h1.frees, h1.procs⟩
        refine Wp.seq (iput_point h2) (fun _ h0 => h0.elim) fun _ k3 h3 => ?_
        rw [wp_bind, modifyProc, wp_modify]
        have h4 := h3.setProc cur fun x => { x with cwd := none }
        refine hend _ _ (h4.of_eq rfl (fdsOf_same (by rfl)).symm (cwdsOf_set (by rfl)).symm) (fun p hp => ?_)
          (fun i => ?_) ?_
        · rw [upd_of_ne hp]
          exact hothers p hp
        · rw [upd_self]
          exact hdone i List.not_mem_nil
        · rw [upd_self]

theorem reapProc_spec (h : Inv k) (hz : (k.procs p).state = .zombie) :
    Wp (reapProc p) (fun _ k' => Inv k' ∧ Frees k.fs.node k'.fs.node) (fun _ => True) k := by
  obtain ⟨hc, ho⟩ := h.lives.idle p (by rw [hz]; decide)
  unfold reapProc
  rw [wp_bind, wp_get]
  dsimp only
  refine Wp.bind (kfreeStack_any _) ?_
  rintro _ _ ⟨mem, rfl⟩
  rw [wp_bind, modifyProc, wp_modify]
  have h1 := (h.point.withMem mem).keepProc p (g := fun x => { x with kstack := none }) (fun _ => rfl) fun _ => rfl
  refine Wp.bind (wp_onMem_any _) ?_
  rintro _ _ ⟨mem', rfl⟩
  rw [wp_bind, modifyProc, wp_modify]
  have h2 := (h1.withMem mem').keepProc p
    (g := fun x => { x with pid := 0, parent := none, name := [], killed := false, state := .unused })
      (fun _ => rfl) fun _ => rfl
  refine ⟨h2.inv ?_, h2.frees⟩
  rw [upd_upd, upd_self]
  exact h.lives.stopped (Or.inl rfl) hc ho

theorem wait_spec (h : Inv k) :
    Wp (wait cur) (fun _ k' => Inv k' ∧ Frees k.fs.node k'.fs.node) (fun _ => True) k := by
  unfold wait
  rw [wp_bind, wp_get]
  split
  · rename_i p hf
    have hz := List.find?_some hf
    rw [decide_eq_true_eq] at hz
    exact reapProc_spec h hz.2
  · rw [wp_ite]
    exact ⟨fun _ => ⟨h, .refl⟩, fun _ => trivial⟩

/-! ## The other calls -/

theorem kill_spec (h : Inv k) (pid : Nat) : Wp (kill pid) (fun _ k' => Inv k' ∧ k'.fs = k.fs) (fun _ => False) k := by
  unfold kill
  rw [wp_bind, wp_get]
  split
  · exact ⟨h, rfl⟩
  · rename_i p _
    rw [wp_bind, modifyProc, wp_modify]
    have hs : (if (k.procs p).state = .sleeping then .runnable else (k.procs p).state) = (k.procs p).state := by
      refine if_neg fun h0 => ?_
      have := h.lives.known p
      rw [h0] at this
      simp at this
    have h1 := h.point.keepProc p
      (g := fun x => { x with killed := true, state := if x.state = .sleeping then .runnable else x.state })
      (fun _ => rfl) fun _ => rfl
    refine ⟨h1.inv ?_, rfl⟩
    rcases h.lives.known p with h0 | h0 | h0
    · obtain ⟨hc, ho⟩ := h.lives.idle p (by rw [h0]; decide)
      exact h.lives.stopped (Or.inl (hs.trans h0)) hc ho
    · exact h.lives.running h0 hs (h.lives.cwd p h0)
    · obtain ⟨hc, ho⟩ := h.lives.idle p (by rw [h0]; decide)
      exact h.lives.stopped (Or.inr (hs.trans h0)) hc ho

theorem switchUvm_spec : Wp (switchUvm p) (fun _ k' => k' = k) (fun _ => True) k := by
  unfold switchUvm
  rw [wp_bind, wp_get, wp_bind, wp_panicIf]
  refine ⟨fun _ => trivial, fun _ => ?_⟩
  rw [wp_panicIf]
  exact ⟨fun _ => trivial, fun _ => rfl⟩

/-- A process that runs gets a new address space. -/
theorem Inv.setMem {q : Proc} (h : Inv k) (hp : (k.procs p).state = .runnable) (ho : q.ofile = (k.procs p).ofile)
    (hc : q.cwd = (k.procs p).cwd) (hs : q.state = (k.procs p).state) (mem : Mem) :
    Inv { k with mem := mem, procs := upd k.procs p q } := by
  refine ⟨h.quiet, ?_, h.lives.running hp hs (by rw [hc]; exact h.lives.cwd p hp)⟩
  dsimp only
  rw [fdsOf_same ho, cwdsOf_same hc]
  exact h.table

theorem Inv.withMem (h : Inv k) (mem : Mem) : Inv { k with mem := mem } := ⟨h.quiet, h.table, h.lives⟩

theorem growProc_spec (h : Inv k) (hp : (k.procs p).state = .runnable) (n : Int) :
    Wp (growProc p n) (fun _ k' => Inv k' ∧ k'.fs = k.fs) (fun _ => True) k := by
  unfold growProc
  rw [wp_bind, wp_get]
  split
  · trivial
  · refine Wp.bind (wp_onMem_any _) ?_
    rintro sz _ ⟨mem, rfl⟩
    rw [wp_ite]
    refine ⟨fun _ => ⟨h.withMem mem, rfl⟩, fun _ => ?_⟩
    rw [wp_bind, modifyProc, wp_modify]
    refine Wp.bind switchUvm_spec ?_
    rintro _ _ rfl
    exact ⟨h.setMem hp (by rfl) (by rfl) (by rfl) mem, rfl⟩

theorem sysSbrk_spec (h : Inv k) (hp : (k.procs p).state = .runnable) (n : Int) :
    Wp (sysSbrk p n) (fun _ k' => Inv k' ∧ k'.fs = k.fs) (fun _ => True) k := by
  unfold sysSbrk
  rw [wp_bind, wp_get]
  refine Wp.bind (growProc_spec h hp n) fun r k1 h1 => ?_
  rw [wp_ite]
  exact ⟨fun _ => h1, fun _ => h1⟩

theorem userStore_spec (h : Inv k) (va : Nat) (data : List UInt8) :
    Wp (userStore p va data) (fun _ k' => Inv k' ∧ k'.fs = k.fs) (fun _ => True) k := by
  unfold userStore
  rw [wp_bind, wp_get]
  split
  · trivial
  · refine (wp_onMem_any _).post ?_
    rintro _ _ ⟨mem, rfl⟩
    exact ⟨h.withMem mem, rfl⟩

/-! ## `exec` -/

/-- A point of `exec` that holds the inode of the program. -/
def Loading (k : System) (ip : Slot) (k' : System) : Prop :=
  ∃ t mem, k' = { k with fs := t, mem := mem } ∧ Acquired k.fs ip k.fs.node t

/-- Reading from the inode and changing the memory keep `P`. -/
structure Steady (ip : Slot) (P : System → Prop) : Prop where
  readi : ∀ {k off n}, P k → off < 2 ^ 64 → n < 2 ^ 64 → Wp (onFs (readi ip off n)) (fun _ k' => P k') (fun _ => True) k
  mem : ∀ {k} m, P k → P { k with mem := m }

section

variable {P : System → Prop}

theorem Steady.onMem {α : Type} (hP : Steady ip P) (h : P k) (m : MemM α) :
    Wp (onMem m) (fun _ k' => P k') (fun _ => True) k := by
  refine (wp_onMem_any m).post ?_
  rintro _ _ ⟨mem, rfl⟩
  exact hP.mem mem h

theorem wrap_lt (n : Int) : wrap n < 2 ^ 64 := by
  unfold wrap
  omega

theorem loadUvm_spec (hP : Steady ip P) (h : P k) (pml4 addr offset sz : Nat) :
    Wp (loadUvm pml4 addr ip offset sz) (fun _ k' => P k') (fun _ => True) k := by
  unfold loadUvm
  rw [wp_bind, wp_panicIf]
  refine ⟨fun _ => trivial, fun _ => ?_⟩
  refine wp_loop_or trivial (fun _ k' => P k') ?_ _ _ _ h
  intro i k1 h1
  rw [wp_ite]
  refine ⟨fun _ => ?_, fun _ => h1⟩
  refine Wp.bind (hP.onMem h1 _) fun r k2 h2 => ?_
  cases r with
  | none => trivial
  | some w =>
      rw [wp_bind, wp_get]
      refine Wp.bind (hP.readi h2 (wrap_lt _) (lt_of_le_of_lt (Nat.min_le_right _ _) (by decide))) fun r k3 h3 => ?_
      rw [wp_bind, wp_get]
      refine Wp.bind (hP.onMem h3 _) fun _ k4 h4 => ?_
      rw [wp_ite]
      exact ⟨fun _ => h4, fun _ => h4⟩

theorem execSegment_spec (hP : Steady ip P) (h : P k) (pml4 : Nat) (ph : ProgHeader) (sz : Nat) :
    Wp (execSegment ip pml4 ph sz) (fun _ k' => P k') (fun _ => True) k := by
  unfold execSegment
  rw [wp_ite]
  refine ⟨fun _ => h, fun _ => ?_⟩
  rw [wp_ite]
  refine ⟨fun _ => h, fun _ => ?_⟩
  rw [wp_ite]
  refine ⟨fun _ => h, fun _ => ?_⟩
  refine Wp.bind (hP.onMem h _) fun sz k1 h1 => ?_
  rw [wp_ite]
  refine ⟨fun _ => h1, fun _ => ?_⟩
  rw [wp_ite]
  refine ⟨fun _ => h1, fun _ => ?_⟩
  rw [wp_ite]
  refine ⟨fun _ => h1, fun _ => ?_⟩
  refine Wp.bind (loadUvm_spec hP h1 _ _ _ _) fun r k2 h2 => ?_
  rw [wp_ite]
  exact ⟨fun _ => h2, fun _ => h2⟩

theorem execLoad_spec (hP : Steady ip P) (h : P k) (pml4 : Nat) (elf : ElfHeader) :
    Wp (execLoad ip pml4 elf) (fun _ k' => P k') (fun _ => True) k := by
  unfold execLoad
  refine wp_loop_or trivial (fun _ k' => P k') ?_ _ _ _ h
  rintro ⟨i, sz⟩ k1 h1
  unfold execRound
  rw [wp_ite]
  refine ⟨fun _ => ?_, fun _ => h1⟩
  refine Wp.bind (hP.readi h1 (wrap_lt _) (by decide)) fun r k2 h2 => ?_
  dsimp only
  rw [wp_ite]
  refine ⟨fun _ => h2, fun _ => ?_⟩
  refine Wp.bind (execSegment_spec hP h2 _ _ _) fun r k3 h3 => ?_
  rw [wp_ite]
  exact ⟨fun _ => h3, fun _ => h3⟩

end

theorem Loading.steady (k : System) (ip : Slot) : Steady ip (Loading k ip) where
  readi := by
    rintro _ off n ⟨t, mem, rfl, ha⟩ hoff hn
    unfold onFs
    rw [wp_on]
    exact (ha.readi hoff hn).mono (fun _ t' ha' => ⟨t', mem, rfl, ha'⟩) fun _ h0 => h0.elim
  mem := by
    rintro _ mem' ⟨t, mem, rfl, ha⟩
    exact ⟨t, mem', rfl, ha⟩

/-- `iunlock(ip); iput(ip);` -/
theorem Loading.done {α : Type} {k' : System} {rest : KernelM α} {Q : α → System → Prop} (h : Inv k)
    (hl : Loading k ip k') (hrest : ∀ s mem, Frees k.fs.node s.node → Inv { k with fs := s, mem := mem } →
      Wp rest Q (fun _ => True) { k with fs := s, mem := mem }) :
    Wp (do onFs (iunlock ip); onFs (iput ip); rest) Q (fun _ => True) k' := by
  obtain ⟨t, mem, rfl, ha⟩ := hl
  refine Wp.seq (iunlock_point h.quiet ha h.table) (fun _ h0 => h0.elim) ?_
  rintro _ _ ⟨h1, t', rfl, _⟩
  rw [wp_bind, onFs, wp_on]
  refine (iput_dropped h1.quiet h1.ref_pos).mono (fun _ s hd => ?_) fun _ h0 => h0.elim
  have h2 := h1.dropped hd
  exact hrest s mem h2.frees (h2.inv h.lives)

theorem execBad_spec {k' : System} (h : Inv k) (hl : Loading k ip k') (pml4 : Option Nat) (sz : Nat) :
    Wp (execBad pml4 sz (some ip)) (fun _ k' => Inv k' ∧ Frees k.fs.node k'.fs.node) (fun _ => True) k' := by
  unfold execBad
  cases pml4 with
  | none => exact hl.done h fun s mem hf hi => ⟨hi, hf⟩
  | some pml4 =>
      refine Wp.bind ((Loading.steady k ip).onMem hl _) fun _ k1 h1 => ?_
      exact h1.done h fun s mem hf hi => ⟨hi, hf⟩

theorem execCommit_spec (h : Inv k) (hp : (k.procs p).state = .runnable) (path : List UInt8)
    (pml4 sz entry sp argc : Nat) :
    Wp (execCommit p path pml4 sz entry sp argc) (fun _ k' => Inv k' ∧ k'.fs = k.fs) (fun _ => True) k := by
  unfold execCommit
  rw [wp_bind, modifyProc, wp_modify, wp_bind, wp_get, wp_bind, modifyProc, wp_modify]
  simp only [upd_upd, upd_self]
  refine Wp.bind switchUvm_spec ?_
  rintro _ _ rfl
  refine Wp.bind (wp_onMem_any _) ?_
  rintro _ _ ⟨mem, rfl⟩
  exact ⟨h.setMem hp (by rfl) (by rfl) (by rfl) mem, rfl⟩

theorem execInode_spec {k' : System} (h : Inv k) (hp : (k.procs p).state = .runnable) (hl : Loading k ip k')
    (path : List UInt8) (argv : List (List UInt8)) :
    Wp (execInode p path ip argv) (fun _ k' => Inv k' ∧ Frees k.fs.node k'.fs.node) (fun _ => True) k' := by
  unfold execInode
  have hs := Loading.steady k ip
  refine Wp.bind (hs.readi hl (by decide) (by decide)) fun r k1 h1 => ?_
  dsimp only
  rw [wp_ite]
  refine ⟨fun _ => execBad_spec h h1 _ _, fun _ => ?_⟩
  rw [wp_ite]
  refine ⟨fun _ => execBad_spec h h1 _ _, fun _ => ?_⟩
  refine Wp.bind (hs.onMem h1 _) fun r k2 h2 => ?_
  cases r with
  | none => exact execBad_spec h h2 _ _
  | some pml4 =>
      refine Wp.bind (execLoad_spec hs h2 _ _) fun r k3 h3 => ?_
      obtain ⟨ok, sz⟩ := r
      rw [wp_ite]
      refine ⟨fun _ => execBad_spec h h3 _ _, fun _ => ?_⟩
      refine h3.done h fun s mem hf hi => ?_
      refine Wp.bind (wp_onMem_any _) ?_
      rintro ⟨sz, stack⟩ _ ⟨mem', rfl⟩
      have hi' := hi.withMem mem'
      cases stack with
      | none =>
        unfold execBad
        refine Wp.bind (wp_onMem_any _) ?_
        rintro _ _ ⟨mem'', rfl⟩
        exact ⟨hi'.withMem mem'', hf⟩
      | some stack =>
        refine (execCommit_spec hi' hp path pml4 sz _ _ _).post ?_
        rintro _ k4 ⟨h4, h4'⟩
        refine ⟨h4, ?_⟩
        rw [h4']
        exact hf

theorem exec_spec (h : Inv k) (hp : (k.procs p).state = .runnable) (path : List UInt8) (argv : List (List UInt8)) :
    Wp (exec p path argv) (fun _ k' => Inv k' ∧ Frees k.fs.node k'.fs.node) (fun _ => True) k := by
  unfold exec
  refine Wp.seq (cwdOf_spec h hp) (fun _ h0 => h0.elim) ?_
  rintro cwd k ⟨rfl, _, href⟩
  rw [wp_bind, onFs, wp_on]
  refine (namei_spec h.quiet href path).mono (fun r t hr => ?_) fun _ _ => trivial
  cases r with
  | none =>
      have hd := h.quiet.did hr fun jp h0 => absurd h0 (lt_irrefl 0)
      refine ⟨h.did hd fun _ _ => rfl, ?_⟩
      change Frees _ t.node
      rw [hd.node]
  | some ip =>
      rw [wp_bind, onFs, wp_on]
      refine (ilock_acquired h.quiet hr.1 hr.2.1).mono (fun _ t' ha => ?_) fun _ _ => trivial
      exact execInode_spec h hp ⟨t', k.mem, rfl, ha⟩ path argv

/-! ## All calls -/

/-- The calls on files. -/
def Call.onFiles : Call → Bool
  | .fork | .exec _ _ | .wait | .sbrk _ => false
  | _ => true

/-- The directory and the last element of a path name of the process. -/
def lastElement (k : System) (p : ProcId) (path : List UInt8) : Option (Nat × List UInt8) :=
  (k.procs p).cwd.bind fun cwd => resolve k.fs.node (k.fs.inodes cwd).inum path true

/-- What a call of `p` with the result `r` does to the nodes of the file system. -/
def Effect (p : ProcId) (k : System) (r : Int) (k' : System) : Call → Prop
  | .open path omode => ∃ cwd, (k.procs p).cwd = some cwd ∧ ∃ N, Frees N k'.fs.node ∧ Opens k.fs cwd path omode N
  | .mkdir path => ∃ cwd, (k.procs p).cwd = some cwd ∧ CreatesIff k.fs cwd path tDir 0 0 r k'.fs.node
  | .mknod path major minor => ∃ cwd, (k.procs p).cwd = some cwd ∧
      CreatesIff k.fs cwd path tDev (toShort major.toNat) (toShort minor.toNat) r k'.fs.node
  | .unlink path => ∃ cwd, (k.procs p).cwd = some cwd ∧ RemovesIff k.fs cwd path r k'.fs.node
  | .write _ _ => k'.fs.node = k.fs.node ∨ ∃ i, Writes k.fs.node i k'.fs.node
  | _ => Frees k.fs.node k'.fs.node

theorem syscall_spec (h : Inv k) (hp : (k.procs p).state = .runnable) (c : Call) :
    Wp (syscall p c) (fun r k' => Inv k' ∧ Effect p k r k' c) (fun e => c.onFiles = true → Harmless k.fs.node e) k := by
  have hfree : ∀ {k' : System}, k'.fs = k.fs → Frees k.fs.node k'.fs.node := fun h0 => by rw [h0]
  cases c with
  | «open» path omode => exact (sysOpen_spec h hp path omode).mono (fun _ _ h => h) fun _ he _ => he
  | read fd dst n =>
      unfold syscall sysRead
      rw [wp_bind, wp_get]
      split
      · exact ⟨h, .refl⟩
      · refine Wp.seq (fileRead_spec h _ _ n.toNat_lt) (fun _ he _ => he) fun r k' hk' => ?_
        refine Wp.seq (storeUser_spec _ _) (fun _ he _ => he) ?_
        rintro _ _ ⟨mem, rfl⟩
        exact ⟨hk'.1.withMem mem, show Frees k.fs.node k'.fs.node by rw [hk'.2]⟩
  | write fd data =>
      unfold syscall sysWrite
      rw [wp_bind, wp_get]
      split
      · exact ⟨h, Or.inl rfl⟩
      · exact (fileWrite_spec h _ _ data.2).mono (fun _ _ h => h) fun _ he _ => he
  | close fd => exact (sysClose_spec h hp fd).mono (fun _ _ h => h) fun _ he _ => he
  | dup fd => exact (sysDup_spec h hp fd).mono (fun _ _ h => ⟨h.1, hfree h.2⟩) fun _ he => he.elim
  | fstat fd st =>
      unfold syscall sysFstat
      rw [wp_bind, wp_get]
      split
      · exact ⟨h, .refl⟩
      · rw [wp_ite]
        refine ⟨fun _ => ⟨h, .refl⟩, fun _ => ?_⟩
        refine Wp.seq (fileStat_spec h _) (fun _ he => he.elim) fun r k' hk' => ?_
        have hdone : Inv k' ∧ Frees k.fs.node k'.fs.node := ⟨hk'.1, by rw [hk'.2]⟩
        split
        · exact hdone
        · refine Wp.seq (wp_each (fun _ k' => Inv k' ∧ Frees k.fs.node k'.fs.node) (fun i _ k₁ h₁ => ?_) _ _ hdone)
            (fun _ he _ => he) fun _ _ h₁ => h₁
          refine (storeUser_spec _ _).post ?_
          rintro _ _ ⟨mem, rfl⟩
          exact ⟨h₁.1.withMem mem, h₁.2⟩
  | mkdir path =>
      exact (mknod_inv h hp path ⟨isShort_small (by decide), by decide⟩ (by decide)
        ⟨isShort_small (by decide), isShort_small (by decide)⟩).mono (fun _ _ h => h) fun _ he _ => he
  | mknod path major minor =>
      exact (mknod_inv h hp path ⟨isShort_small (by decide), by decide⟩ (by decide)
        ⟨toShort_isShort _, toShort_isShort _⟩).mono (fun _ _ h => h) fun _ he _ => he
  | chdir path => exact (sysChdir_spec h hp path).mono (fun _ _ h => h) fun _ he _ => he
  | unlink path => exact (sysUnlink_spec h hp path).mono (fun _ _ h => h) fun _ he _ => he
  | pipe fd => exact (sysPipe_spec h hp _).mono (fun _ _ h => h) fun _ he _ => he
  | fork => exact (fork_spec h hp).mono (fun _ _ h => h) fun _ _ h0 => absurd h0 Bool.false_ne_true
  | exec path argv => exact (exec_spec h hp path argv).mono (fun _ _ h => h) fun _ _ h0 => absurd h0 Bool.false_ne_true
  | exit => exact Wp.seq (exit_spec h) (fun _ he _ => he) fun _ _ h => h
  | wait => exact (wait_spec h).mono (fun _ _ h => h) fun _ _ h0 => absurd h0 Bool.false_ne_true
  | sbrk n =>
      exact (sysSbrk_spec h hp n).mono (fun _ _ h => ⟨h.1, hfree h.2⟩) fun _ _ h0 => absurd h0 Bool.false_ne_true
  | kill pid => exact (kill_spec h pid).mono (fun _ _ h => ⟨h.1, hfree h.2⟩) fun _ he => he.elim
  | getpid => exact ⟨h, .refl⟩

/-- Every step keeps the invariant. -/
theorem Inv.step {k' : System} (h : Inv k) (hs : Step k k') : Inv k' := by
  cases hs with
  | call p c r hp hr => exact ((syscall_spec h hp c).of_ok hr).1
  | store p va data r hp hr => exact ((userStore_spec h va data).of_ok hr).1

end

end Xv6.Kernel
