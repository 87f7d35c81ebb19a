import Xv6.Shell.Lemmas.Redirect

/-!
# Descriptors of the processes

`Safe code v` says what has to hold of the descriptors of a process so that it can run its code: it is computed from the
code like a weakest precondition, with an obligation for every process that is forked. The body of every command is safe
for a process with the standard descriptors, and every process of a run stays safe.
-/

namespace Xv6.Shell

open Xv6.Lib

variable {s s' : State} {P : Proc} {F : Fds} {f : File} {i k : Nat}

/-! ## WriteEnds of pipes -/

/-- All write ends are of pipes with the property `S`. -/
def WriteEnds (S : Nat → Prop) (F : Fds) : Prop := ∀ i k, F i = some (.writeEnd k) → S k

variable {S T : Nat → Prop}

theorem WriteEnds.mono (h : WriteEnds S F) (hST : ∀ k, S k → T k) : WriteEnds T F := fun i k hi => hST k (h i k hi)

theorem WriteEnds.close (h : WriteEnds S F) (fd : Nat) : WriteEnds S (closeFd fd F) :=
  forall_upd (P := fun _ x => ∀ k, x = some (File.writeEnd k) → S k) (fun _ hk => nomatch hk) fun x _ => h x

theorem WriteEnds.upd (h : WriteEnds S F) (fd : Nat) (hf : ∀ k, f = .writeEnd k → S k) :
    WriteEnds S (upd F fd (some f)) :=
  forall_upd (P := fun _ x => ∀ k, x = some (File.writeEnd k) → S k) (fun k hk => hf k (Option.some.inj hk)) fun x _ =>
    h x

theorem WriteEnds.install (h : WriteEnds S F) (hf : ∀ k, f = .writeEnd k → S k) : WriteEnds S (install f F) := by
  unfold Shell.install
  split
  · exact h.upd _ hf
  · exact h

/-! ## What the code of a process relies on -/

/-- A process without its code. The node is given with the descriptors before the pipe was made. -/
structure View where
  fds : Fds
  p : Nat × Nat
  node : Option (Nat × Fds)
  side : Side
  inside : List Nat

def Proc.view (base : Nat → Fds) (P : Proc) : View := ⟨P.fds, P.p, P.node.map fun k => (k, base k), P.side, P.inside⟩

def View.fd (v : View) : Fd → Nat
  | .num n => n
  | .p0 => v.p.1
  | .p1 => v.p.2

def View.dup (v : View) (fd : Nat) : View :=
  match v.fds fd with
  | some f => { v with fds := install f v.fds }
  | none => v

def View.child (v : View) (side : Side) : View :=
  { v with
    side := side
    inside := if side = .left then (v.node.map Prod.fst).toList ++ v.inside else v.inside }

/-- A write end belongs to a pipe that the process is inside of, or is still to be closed. -/
def View.Owned (v : View) (code : List Stmt) : Prop :=
  WriteEnds (fun k => k ∈ v.inside ∨ v.node.map Prod.fst = some k ∧ Stmt.close .p1 ∈ code) v.fds

/-- The descriptors of the commands of a pipe. -/
def View.Wired (v : View) : Prop :=
  ∀ k F, v.node = some (k, F) → (v.side = .left → v.fds = upd F 1 (some (.writeEnd k))) ∧
    (v.side = .right → v.fds = upd F 0 (some (.readEnd k)))

mutual

/-- What a statement relies on, for the code behind it that relies on `next`. -/
def Stmt.Safe : Stmt → (View → Prop) → View → Prop
  | .close e, next, v => next { v with fds := closeFd (v.fd e) v.fds }
  | .open r, next, v => next { v with fds := install (.opened r.file r.mode) v.fds }
  | .pipe, next, v =>
    ∀ k, ∃ fd0 fd1, fdAlloc v.fds = some fd0 ∧ fdAlloc (install (.readEnd k) v.fds) = some fd1 ∧ next { v with
      fds := install (.writeEnd k) (install (.readEnd k) v.fds)
      p := (fd0, fd1)
      node := some (k, v.fds) }
  | .dup e, next, v => next (v.dup (v.fd e))
  | .fork side child, next, v => Safe child (v.child side) ∧ next v
  | .wait, next, v => next v
  | .run cmd, _, v => v.Owned [] ∧ Standard v.fds ∧ cmd.Standard ∧ v.Wired
  | .exec _, _, v => v.Owned [] ∧ Standard v.fds
  | .exit, _, _ => True

def Safe : List Stmt → View → Prop
  | [], v => v.Owned []
  | c :: code, v => v.Owned (c :: code) ∧ c.Safe (Safe code) v

end

theorem View.Owned.inside {v : View} (h : v.Owned []) : WriteEnds (· ∈ v.inside) v.fds :=
  WriteEnds.mono h fun _ hk => hk.elim id fun hk => absurd hk.2 List.not_mem_nil

theorem Safe.owned {v : View} : ∀ {code : List Stmt}, Safe code v → v.Owned code
  | [], h => h
  | _ :: _, h => h.1

/-! ## Standard descriptors -/

theorem Standard.free (h : Standard F) {fd : Nat} (hfd : 3 ≤ fd) : F fd = none :=
  not_not.mp fun hne => absurd ((h fd).mp hne) (Nat.not_lt.mpr hfd)

theorem Standard.low (h : Standard F) {fd : Nat} (hfd : fd < 3) : F fd ≠ none := (h fd).mpr hfd

theorem standard_upd (h : Standard F) {fd : Nat} (hfd : fd < 3) (f : File) : Standard (upd F fd (some f)) := by
  intro i
  by_cases hi : i = fd
  · subst hi
    rw [upd_self]
    exact iff_of_true (Option.some_ne_none _) hfd
  · rw [upd_of_ne hi]
    exact h i

theorem install_eq (hn : i < nofile) (hfree : F i = none) (hlow : ∀ j < i, F j ≠ none) :
    install f F = upd F i (some f) := by
  unfold install
  rw [fdAlloc_eq hn hfree hlow]

/-- The lowest descriptor is the one that was closed before. -/
theorem install_close {fd : Nat} (hfd : fd < 3) (hlow : ∀ j < 3, F j ≠ none) :
    install f (closeFd fd F) = upd F fd (some f) := by
  have hn : fd < nofile := by
    simp only [nofile]
    omega
  have hlow' : ∀ j < fd, closeFd fd F j ≠ none := fun j hj => by
    rw [closeFd, upd_of_ne (Nat.ne_of_lt hj)]
    exact hlow j (by omega)
  rw [install_eq hn (show closeFd fd F fd = none from upd_self _ _ _) hlow', closeFd, upd_upd]

/-- The descriptors with both ends of a new pipe. -/
def withPipe (F : Fds) (k : Nat) : Fds := upd (upd F 3 (some (.readEnd k))) 4 (some (.writeEnd k))

theorem withPipe_low (F : Fds) (k : Nat) {fd : Nat} (hfd : fd < 3) : withPipe F k fd = F fd := by
  rw [withPipe, upd_of_ne (by omega), upd_of_ne (by omega)]

theorem standard_pipe (h : Standard F) (k : Nat) : fdAlloc F = some 3 ∧ fdAlloc (install (.readEnd k) F) = some 4 ∧
    install (.writeEnd k) (install (.readEnd k) F) = withPipe F k := by
  have hread : install (.readEnd k) F = upd F 3 (some (.readEnd k)) :=
    install_eq (by decide) (h.free (Nat.le_refl _)) fun j hj => h.low hj
  have hfree : (upd F 3 (some (.readEnd k))) 4 = none := by
    rw [upd_of_ne (by decide)]
    exact h.free (by decide)
  have hlow : ∀ j < 4, (upd F 3 (some (.readEnd k))) j ≠ none := fun j hj => by
    by_cases h3 : j = 3
    · rw [h3, upd_self]
      exact Option.some_ne_none _
    · rw [upd_of_ne h3]
      exact h.low (by omega)
  rw [hread]
  exact ⟨fdAlloc_eq (by decide) (h.free (Nat.le_refl _)) fun j hj => h.low hj, fdAlloc_eq (by decide) hfree hlow,
    install_eq (by decide) hfree hlow⟩

/-- What the three processes of a pipe have after they closed both ends. -/
theorem standard_close (h : Standard F) {fd : Nat} (hfd : fd < 3) (k : Nat) (x : Option File) :
    closeFd 4 (closeFd 3 (upd (withPipe F k) fd x)) = upd F fd x := by
  funext i
  unfold closeFd withPipe
  by_cases h4 : i = 4
  · rw [h4, upd_self, upd_of_ne (by omega), h.free (by decide)]
  by_cases h3 : i = 3
  · rw [h3, upd_of_ne (by decide), upd_self, upd_of_ne (by omega), h.free (by decide)]
  rw [upd_of_ne h4, upd_of_ne h3]
  simp only [upd_apply, if_neg h4, if_neg h3]

/-! ## Bodies of commands -/

theorem owned_inside {v : View} (h : WriteEnds (· ∈ v.inside) v.fds) (code : List Stmt) : v.Owned code :=
  h.mono fun _ => Or.inl

/-- The node's own process and its right child still have to close the write end. -/
theorem owned_node {v : View} {code : List Stmt} (h : WriteEnds (fun j => j ∈ v.inside ∨ j = k) v.fds)
    (hnode : v.node = some (k, F)) (hmem : Stmt.close .p1 ∈ code) : v.Owned code :=
  h.mono fun j hj => hj.imp_right fun hj => ⟨by rw [hnode, hj]; rfl, hmem⟩

theorem withPipe_ends {inside : List Nat} (h : WriteEnds (· ∈ inside) F) (hS : ∀ j, j ∈ inside ∨ j = k → S j) :
    WriteEnds S (withPipe F k) := by
  refine WriteEnds.upd (WriteEnds.upd (f := .readEnd k) (h.mono fun j hj => hS j (Or.inl hj)) 3 fun j hj => nomatch hj)
    4 fun j hj => ?_
  exact hS j (Or.inr (File.writeEnd.inj hj).symm)

/-- The left command of a pipe. -/
theorem safe_left {inside : List Nat} {cmd : Cmd Word} (hF : Standard F) (hends : WriteEnds (· ∈ inside) F)
    (hcmd : cmd.Standard) :
    Safe [.close (.num 1), .dup .p1, .close .p0, .close .p1, .run cmd]
      ⟨withPipe F k, (3, 4), some (k, F), .left, k :: inside⟩ := by
  have hsub : ∀ j, j ∈ inside ∨ j = k → j ∈ k :: inside := fun j hj => List.mem_cons.mpr hj.symm
  have hk : ∀ j, File.writeEnd k = .writeEnd j → j ∈ k :: inside :=
    fun j hj => File.writeEnd.inj hj ▸ List.mem_cons_self
  have h₁ : WriteEnds (· ∈ k :: inside) (withPipe F k) := withPipe_ends hends hsub
  have h₂ := h₁.upd 1 hk
  have hdup : View.dup ⟨closeFd 1 (withPipe F k), (3, 4), some (k, F), .left, k :: inside⟩ 4 =
      ⟨upd (withPipe F k) 1 (some (.writeEnd k)), (3, 4), some (k, F), .left, k :: inside⟩ := by
    have hdone : install (.writeEnd k) (closeFd 1 (withPipe F k)) = upd (withPipe F k) 1 (some (.writeEnd k)) :=
      install_close (by decide) fun j hj => withPipe_low F k hj ▸ hF.low hj
    rw [← hdone]
    rfl
  refine ⟨owned_inside h₁ _, owned_inside (h₁.close 1) _, ?_⟩
  show Safe _ (View.dup ⟨closeFd 1 (withPipe F k), (3, 4), some (k, F), .left, k :: inside⟩ 4)
  rw [hdup]
  refine ⟨owned_inside h₂ _, owned_inside (h₂.close 3) _, ?_⟩
  show Safe [.run cmd] ⟨closeFd 4 (closeFd 3 _), _, _, _, _⟩
  rw [standard_close hF (by decide)]
  have h₃ := (hends.mono fun j hj => hsub j (Or.inl hj)).upd 1 hk
  refine ⟨owned_inside h₃ _, owned_inside h₃ _, standard_upd hF (by decide) _, hcmd, ?_⟩
  intro j B hB
  obtain ⟨rfl, rfl⟩ := Prod.mk.inj (Option.some.inj hB)
  exact ⟨fun _ => rfl, fun h => nomatch h⟩

/-- The right command of a pipe. -/
theorem safe_right {inside : List Nat} {cmd : Cmd Word} (hF : Standard F) (hends : WriteEnds (· ∈ inside) F)
    (hcmd : cmd.Standard) :
    Safe [.close (.num 0), .dup .p0, .close .p0, .close .p1, .run cmd]
      ⟨withPipe F k, (3, 4), some (k, F), .right, inside⟩ := by
  have h₁ : WriteEnds (fun j => j ∈ inside ∨ j = k) (withPipe F k) := withPipe_ends hends fun _ hj => hj
  have h₂ := h₁.upd (f := .readEnd k) 0 fun _ hj => nomatch hj
  have hdup : View.dup ⟨closeFd 0 (withPipe F k), (3, 4), some (k, F), .right, inside⟩ 3 =
      ⟨upd (withPipe F k) 0 (some (.readEnd k)), (3, 4), some (k, F), .right, inside⟩ := by
    have hdone : install (.readEnd k) (closeFd 0 (withPipe F k)) = upd (withPipe F k) 0 (some (.readEnd k)) :=
      install_close (by decide) fun j hj => withPipe_low F k hj ▸ hF.low hj
    rw [← hdone]
    rfl
  refine ⟨owned_node h₁ rfl (by simp), owned_node (h₁.close 0) rfl (by simp), ?_⟩
  show Safe _ (View.dup ⟨closeFd 0 (withPipe F k), (3, 4), some (k, F), .right, inside⟩ 3)
  rw [hdup]
  refine ⟨owned_node h₂ rfl (by simp), owned_node (h₂.close 3) rfl (by simp), ?_⟩
  show Safe [.run cmd] ⟨closeFd 4 (closeFd 3 _), _, _, _, _⟩
  rw [standard_close hF (by decide)]
  have h₃ := hends.upd (f := .readEnd k) 0 fun _ hj => nomatch hj
  refine ⟨owned_inside h₃ _, owned_inside h₃ _, standard_upd hF (by decide) _, hcmd, ?_⟩
  intro j B hB
  obtain ⟨rfl, rfl⟩ := Prod.mk.inj (Option.some.inj hB)
  exact ⟨fun h => (nomatch h), fun _ => rfl⟩

/-- The process of the node itself. -/
theorem safe_node {inside : List Nat} {side : Side} (hF : Standard F) (hends : WriteEnds (· ∈ inside) F) :
    Safe [.close .p0, .close .p1, .wait, .wait, .exit] ⟨withPipe F k, (3, 4), some (k, F), side, inside⟩ := by
  have h₁ : WriteEnds (fun j => j ∈ inside ∨ j = k) (withPipe F k) := withPipe_ends hends fun _ hj => hj
  have hclosed : closeFd 4 (closeFd 3 (withPipe F k)) = F := by
    have h := standard_close hF (show 0 < 3 by decide) k (F 0)
    rw [upd_eta, ← withPipe_low F k (by decide), upd_eta] at h
    exact h
  refine ⟨owned_node h₁ rfl (by simp), owned_node (h₁.close 3) rfl (by simp), ?_⟩
  show Safe [.wait, .wait, .exit] ⟨closeFd 4 (closeFd 3 _), _, _, _, _⟩
  rw [hclosed]
  exact ⟨owned_inside hends _, owned_inside hends _, owned_inside hends _, trivial⟩

/-- Every command runs safely in a process with the standard descriptors. -/
theorem safe_body {p : Nat × Nat} {side : Side} {inside : List Nat} {cmd : Cmd Word} (hF : Standard F)
    (hends : WriteEnds (· ∈ inside) F) (hcmd : cmd.Standard) : Safe (body cmd) ⟨F, p, none, side, inside⟩ := by
  have hown : ∀ side code, View.Owned ⟨F, p, none, side, inside⟩ code := fun _ code => owned_inside hends code
  have hrun : ∀ side (cmd : Cmd Word), cmd.Standard → Safe [.run cmd] ⟨F, p, none, side, inside⟩ := fun side cmd hcmd =>
    ⟨hown side _, hown side _, hF, hcmd, fun _ _ h => nomatch h⟩
  cases cmd with
  | exec argv =>
      cases argv with
      | nil => exact ⟨hown side _, trivial⟩
      | cons a argv => exact ⟨hown side _, hown side _, hF⟩
  | redir r cmd =>
      refine ⟨hown side _, owned_inside (hends.close r.fd) _, ?_⟩
      show Safe [.run cmd] ⟨install _ (closeFd r.fd F), _, _, _, _⟩
      rw [install_close hcmd.1 fun j => hF.low]
      have hends' := hends.upd (f := .opened r.file r.mode) r.fd fun _ h => nomatch h
      exact ⟨owned_inside hends' _, owned_inside hends' _, standard_upd hF hcmd.1 _, hcmd.2, fun _ _ h => nomatch h⟩
  | list left right => exact ⟨hown side _, hrun .none left hcmd.1, hown side _, hrun side right hcmd.2⟩
  | back cmd => exact ⟨hown side _, hrun .none cmd hcmd, hown side _, trivial⟩
  | pipe left right =>
      refine ⟨hown side _, fun k => ⟨3, 4, (standard_pipe hF k).1, (standard_pipe hF k).2.1, ?_⟩⟩
      dsimp only
      rw [(standard_pipe hF k).2.2]
      have h₁ : WriteEnds (fun j => j ∈ inside ∨ j = k) (withPipe F k) := withPipe_ends hends fun _ hj => hj
      refine ⟨owned_node h₁ rfl (by simp), safe_left hF hends hcmd.1, owned_node h₁ rfl (by simp),
        safe_right hF hends hcmd.2, ?_⟩
      exact safe_node hF hends

/-! ## Runs -/

/-- What is known about every process: `base` and `pipes` are those of the state. -/
structure Proc.Ok (base : Nat → Fds) (pipes : Nat) (P : Proc) : Prop where
  node : ∀ k, P.node = some k → k < pipes
  shell : P.status = .shell → Safe P.code (P.view base)
  program : P.status = .program → P.code = [] ∧ WriteEnds (· ∈ P.inside) P.fds
  gone : P.status = .exited ∨ P.status = .reaped → ∀ fd, P.fds fd = none

def Inv (s : State) : Prop := ∀ P ∈ s.procs, P.Ok s.base s.pipes

theorem Inv.put (h : Inv s) (hP : P.Ok s.base s.pipes) : Inv (s.put i P) := by
  intro Q hQ
  rcases List.mem_or_eq_of_mem_set hQ with hQ | rfl
  · exact h Q hQ
  · exact hP

theorem Inv.append (h : Inv s) (hP : P.Ok s.base s.pipes) : Inv { s with procs := s.procs ++ [P] } := by
  intro Q hQ
  rcases List.mem_append.mp hQ with hQ | hQ
  · exact h Q hQ
  · obtain rfl := List.mem_singleton.mp hQ
    exact hP

/-- A new pipe changes nothing for the processes of the other ones. -/
theorem Proc.Ok.newPipe {base : Nat → Fds} {pipes : Nat} (h : P.Ok base pipes) (F : Fds) :
    P.Ok (upd base pipes F) (pipes + 1) := by
  have hview : P.view (upd base pipes F) = P.view base := by
    unfold Proc.view
    cases hn : P.node with
    | none => rfl
    | some k =>
        have hk := h.node k hn
        rw [Option.map_some, Option.map_some, upd_of_ne (Nat.ne_of_lt hk)]
  exact ⟨fun k hk => Nat.lt_succ_of_lt (h.node k hk), fun hs => hview ▸ h.shell hs, h.program, h.gone⟩

theorem ok_shell {base : Nat → Fds} {pipes : Nat} (hs : P.status = .shell) (hnode : ∀ k, P.node = some k → k < pipes)
    (h : Safe P.code (P.view base)) : P.Ok base pipes :=
  ⟨hnode, fun _ => h, by simp [hs], by simp [hs]⟩

theorem ok_exit {base : Nat → Fds} {pipes : Nat} (hnode : ∀ k, P.node = some k → k < pipes) : P.exit.Ok base pipes :=
  ⟨hnode, by simp [Proc.exit], by simp [Proc.exit], fun _ _ => rfl⟩

theorem ok_program {base : Nat → Fds} {pipes : Nat} (hs : P.status = .program)
    (hnode : ∀ k, P.node = some k → k < pipes) (hcode : P.code = []) (hends : WriteEnds (· ∈ P.inside) P.fds) :
    P.Ok base pipes :=
  ⟨hnode, by simp [hs], fun _ => ⟨hcode, hends⟩, by simp [hs]⟩

theorem dup_eq (P : Proc) (fd : Nat) : ∃ F, P.dup fd = { P with fds := F } := by
  unfold Proc.dup
  cases P.fds fd with
  | none => exact ⟨P.fds, rfl⟩
  | some f => exact ⟨_, rfl⟩

theorem view_dup (base : Nat → Fds) (P : Proc) (fd : Nat) : (P.dup fd).view base = (P.view base).dup fd := by
  unfold Proc.dup View.dup Proc.view
  dsimp only
  cases P.fds fd <;> rfl

theorem view_child (base : Nat → Fds) (P : Proc) (i : Nat) (side : Side) (code : List Stmt) :
    (P.child i side code).view base = (P.view base).child side := by
  unfold Proc.child View.child Proc.view
  dsimp only
  cases P.node <;> rfl

theorem dup_ends (h : WriteEnds S P.fds) (fd : Nat) : WriteEnds S (P.dup fd).fds := by
  unfold Proc.dup
  cases hf : P.fds fd with
  | none => exact h
  | some f => exact h.install fun k hk => h fd k (hk ▸ hf)

/-- A process that exited is taken by its parent. -/
theorem Inv.reap (h : Inv s) (hP : P.Ok s.base s.pipes) {j : Nat} {Q : Proc} (hQ : s.procs[j]? = some Q) (hij : i ≠ j)
    (hexit : Q.status = .exited) :
    Inv { s.put i P with procs := (s.procs.set i P).modify j fun Q => { Q with status := .reaped } } := by
  intro R hR
  obtain ⟨n, hn⟩ := List.getElem?_of_mem hR
  rw [List.getElem?_modify] at hn
  split at hn
  · rename_i hj
    subst hj
    rw [List.getElem?_set_ne hij, hQ] at hn
    obtain rfl := Option.some.inj hn
    have hok := h Q (List.mem_of_getElem? hQ)
    exact ⟨hok.node, fun h => (nomatch h), fun h => (nomatch h), fun _ => hok.gone (Or.inl hexit)⟩
  · rw [id_map'] at hn
    exact h.put hP R (List.mem_of_getElem? hn)

theorem Inv.wait (h : Inv s) (hi : s.procs[i]? = some P) (hP : P.status = .shell) {code : List Stmt}
    (hok : { P with code := code }.Ok s.base s.pipes) (hs : s.wait i { P with code := code } = some s') : Inv s' := by
  unfold State.wait at hs
  split at hs
  · rename_i j hj
    obtain rfl := Option.some.inj hs
    have hfound := List.find?_some hj
    obtain ⟨Q, hQ, hcond⟩ := (Option.any_eq_true _ _).mp hfound
    have hexit := (of_decide_eq_true hcond).2
    refine h.reap hok hQ ?_ hexit
    rintro rfl
    rw [hi] at hQ
    obtain rfl := Option.some.inj hQ
    rw [hP] at hexit
    cases hexit
  · split at hs
    · cases hs
    · obtain rfl := Option.some.inj hs
      exact h.put hok

theorem Inv.pipe (h : Inv s) (hP : P.status = .shell) {fd0 fd1 : Nat} (h0 : fdAlloc P.fds = some fd0)
    (h1 : fdAlloc (install (.readEnd s.pipes) P.fds) = some fd1)
    (hsafe : Safe P.code { P.view s.base with
      fds := install (.writeEnd s.pipes) (install (.readEnd s.pipes) P.fds)
      p := (fd0, fd1)
      node := some (s.pipes, P.fds) }) : Inv (s.pipe i P) := by
  unfold State.pipe
  dsimp only
  rw [h0, h1]
  intro Q hQ
  rcases List.mem_or_eq_of_mem_set hQ with hQ | rfl
  · exact (h Q hQ).newPipe P.fds
  · refine ok_shell hP (fun k hk => Option.some.inj hk ▸ Nat.lt_succ_self _) ?_
    unfold Proc.view
    dsimp only
    rw [Option.map_some, upd_self]
    exact hsafe

/-- Every statement keeps the invariant. -/
theorem Inv.exec (h : Inv s) (hi : s.procs[i]? = some P) (hP : P.status = .shell) {c : Stmt} {code : List Stmt}
    (hcode : P.code = c :: code) (hs : s.exec i { P with code := code } c = some s') : Inv s' := by
  have hok := h P (List.mem_of_getElem? hi)
  have hsafe := hok.shell hP
  rw [hcode] at hsafe
  obtain ⟨hown, hsafe⟩ := hsafe
  cases c with
  | close e =>
      obtain rfl := Option.some.inj hs
      refine h.put (ok_shell hP hok.node ?_)
      cases e <;> exact hsafe
  | «open» r =>
      obtain rfl := Option.some.inj hs
      exact h.put (ok_shell hP hok.node hsafe)
  | pipe =>
      obtain rfl := Option.some.inj hs
      obtain ⟨fd0, fd1, h0, h1, hsafe⟩ := hsafe s.pipes
      exact h.pipe hP h0 h1 hsafe
  | dup e =>
      obtain rfl := Option.some.inj hs
      obtain ⟨F, hF⟩ := dup_eq { P with code := code } (P.fd e)
      have hdup : (Proc.dup { P with code := code } (P.fd e)).Ok s.base s.pipes := by
        refine ok_shell (hF ▸ hP) (hF ▸ hok.node) ?_
        rw [view_dup, hF]
        cases e <;> exact hsafe
      cases e <;> exact h.put hdup
  | fork side child =>
      obtain rfl := Option.some.inj hs
      have hP' : Proc.Ok s.base s.pipes { P with code := code } := ok_shell hP hok.node hsafe.2
      refine (h.put hP').append (ok_shell hP hok.node ?_)
      show Safe child (Proc.view s.base (Proc.child { P with code := code } i side child))
      rw [view_child]
      exact hsafe.1
  | wait =>
      have hP' : Proc.Ok s.base s.pipes { P with code := code } := ok_shell hP hok.node hsafe
      exact h.wait hi hP hP' hs
  | run cmd =>
      obtain rfl := Option.some.inj hs
      obtain ⟨hown, hF, hcmd, -⟩ := hsafe
      refine h.put (ok_shell hP (fun k hk => nomatch hk) ?_)
      exact safe_body hF hown.inside hcmd
  | exec argv =>
      obtain rfl := Option.some.inj hs
      exact h.put (ok_program rfl hok.node rfl hsafe.1.inside)
  | exit =>
      obtain rfl := Option.some.inj hs
      exact h.put (ok_exit hok.node)

theorem Inv.program {g : Proc → State} (h : Inv s)
    (hg : ∀ P, s.procs[i]? = some P → P.status = .program → P.Ok s.base s.pipes → Inv (g P))
    (hs : s.program i g = some s') : Inv s' := by
  unfold State.program at hs
  split at hs
  · rename_i P hi
    split at hs
    · rename_i hP
      obtain rfl := Option.some.inj hs
      exact hg P hi hP (h P (List.mem_of_getElem? hi))
    · cases hs
  · cases hs

theorem Inv.step {a : Action} (h : Inv s) (hs : s.step a = some s') : Inv s' := by
  cases a with
  | run i =>
      unfold State.step at hs
      dsimp only at hs
      split at hs
      · rename_i P hi
        split at hs
        · rename_i c code hP hcode
          exact h.exec hi hP hcode hs
        · cases hs
      · cases hs
  | close i fd =>
      refine h.program (fun P _ hP hok => h.put ?_) hs
      exact ok_program hP hok.node (hok.program hP).1 ((hok.program hP).2.close fd)
  | dup i fd =>
      refine h.program (fun P _ hP hok => h.put ?_) hs
      obtain ⟨F, hF⟩ := dup_eq P fd
      have hends := dup_ends (hok.program hP).2 fd
      rw [hF] at hends ⊢
      exact ok_program hP hok.node (hok.program hP).1 hends
  | fork i =>
      refine h.program (fun P _ hP hok => ?_) hs
      have hchild : (P.child i .none []).Ok s.base s.pipes := ok_program hP hok.node rfl (hok.program hP).2
      exact h.append hchild
  | exit i => exact h.program (fun P _ hP hok => h.put (ok_exit hok.node)) hs

theorem Starts.inv (h : Starts s) : Inv s := by
  obtain ⟨cmd, F, hcmd, hF, hgiven, hprocs⟩ := h.proc
  intro P hP
  rw [hprocs] at hP
  obtain rfl := List.mem_singleton.mp hP
  have hends : WriteEnds (· ∈ ([] : List Nat)) F := fun i k hk => by
    obtain ⟨n, hn⟩ := hgiven i _ hk
    cases hn
  exact ok_shell rfl (fun k hk => nomatch hk) ⟨owned_inside hends _, owned_inside hends _, hF, hcmd,
    fun _ _ h => nomatch h⟩

theorem inv (h : machine.Reachable s) : Inv s :=
  Machine.Reachable.invariant (P := Inv) (fun _ hs => Starts.inv hs) (fun _ _ _ hi hs => Inv.step hi hs) h

end Xv6.Shell
