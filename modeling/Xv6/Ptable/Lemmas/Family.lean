import Xv6.Ptable.Lemmas.Step

/-!
# Parents and children

Who is whose parent, who is being made by a `fork`, and what the record of the run says about a process.
-/

namespace Xv6.Ptable

open Xv6.Lib Xv6.Kernel

/-- A process: it lives or has ended. -/
def Kind.Born (k : Kind) : Prop := k = .alive ∨ k = .zombie

/-- Every `wait` returned a child that had exited, to its parent or, after that exited, to the first process. -/
def WaitsRight (first : Nat) (log : List Event) : Prop :=
  ∀ l₁ c d l₂, log = l₁ ++ .waited c d :: l₂ → .exited d ∈ l₁ ∧
    (.forked c d ∈ l₁ ∨ c = first ∧ ∃ par, .forked par d ∈ l₁ ∧ .exited par ∈ l₁)

theorem append_cons_eq {α : Type} {l l₁ l₂ : List α} {e x : α} (h : l ++ [e] = l₁ ++ x :: l₂) :
    (l = l₁ ∧ e = x) ∨ ∃ l₂', l = l₁ ++ x :: l₂' := by
  rcases List.eq_nil_or_concat l₂ with rfl | ⟨l₂', y, rfl⟩
  · left
    obtain ⟨h₁, h₂⟩ := List.append_inj' h rfl
    exact ⟨h₁, (List.cons.inj h₂).1⟩
  · right
    refine ⟨l₂', ?_⟩
    rw [List.concat_eq_append, ← List.cons_append, ← List.append_assoc] at h
    exact (List.append_inj' h rfl).1

theorem WaitsRight.append {first : Nat} {log : List Event} {e : Event} (h : WaitsRight first log)
    (he : ∀ c d, e = .waited c d → .exited d ∈ log ∧
      (.forked c d ∈ log ∨ c = first ∧ ∃ par, .forked par d ∈ log ∧ .exited par ∈ log)) :
    WaitsRight first (log ++ [e]) := by
  intro l₁ c d l₂ hl
  rcases append_cons_eq hl with ⟨rfl, rfl⟩ | ⟨l₂', rfl⟩
  · exact he c d rfl
  · exact h l₁ c d l₂' rfl

/-- The slots that are being filled by a `fork`. -/
structure Forks (s : State) : Prop where
  child : ∀ {p q b}, s.stageOf p = some (q, b) → s.kindOf q = .embryo ∧ s.kindOf p = .alive
  unique : ∀ {p p' q b b'}, s.stageOf p = some (q, b) → s.stageOf p' = some (q, b') → p = p'
  adopted : ∀ {p q}, s.stageOf p = some (q, true) → (s.procs q).parent = some p

/-- The processes, their parents, and what the record says about them. -/
structure Family (s : State) : Prop where
  initAlive : s.kindOf s.initProc = .alive
  initParent : (s.procs s.initProc).parent = none
  irrefl : ∀ {q}, (s.kindOf q).Born → (s.procs q).parent ≠ some q
  parent : ∀ {q}, q ≠ s.initProc → (s.kindOf q).Born → ∃ p, (s.procs q).parent = some p ∧ s.kindOf p = .alive
  born : ∀ {q}, q ≠ s.initProc → (s.kindOf q).Born → ∃ par, .forked par (s.procs q).pid ∈ s.log ∧
    ((∃ p, (s.procs q).parent = some p ∧ (s.procs p).pid = par) ∨
      (s.procs q).parent = some s.initProc ∧ .exited par ∈ s.log)
  ended : ∀ {q}, s.kindOf q = .zombie → .exited (s.procs q).pid ∈ s.log
  waits : WaitsRight (s.procs s.initProc).pid s.log

variable {s s' : State} {p q : ProcId}

/-! ## Changes of other slots -/

/-- The processes that go on stay the same. -/
theorem Family.keep (h : Family s)
    (hkeep : ∀ {x}, s.kindOf x = .alive ∨ (s'.kindOf x).Born → s'.kindOf x = s.kindOf x ∧
      (s'.procs x).pid = (s.procs x).pid ∧ (s'.procs x).parent = (s.procs x).parent)
    (hborn : ∀ {x}, (s'.kindOf x).Born → (s.kindOf x).Born) (hinit : s'.initProc = s.initProc)
    (hlog : s.log ⊆ s'.log) (hwaits : WaitsRight (s.procs s.initProc).pid s'.log) : Family s' where
  initAlive := by
    rw [hinit, (hkeep (.inl h.initAlive)).1]
    exact h.initAlive
  initParent := by
    rw [hinit, (hkeep (.inl h.initAlive)).2.2]
    exact h.initParent
  irrefl hb := by
    rw [(hkeep (.inr hb)).2.2]
    exact h.irrefl (hborn hb)
  parent hq hb := by
    rw [hinit] at hq
    obtain ⟨p, hp, hk⟩ := h.parent hq (hborn hb)
    exact ⟨p, (hkeep (.inr hb)).2.2.trans hp, (hkeep (.inl hk)).1.trans hk⟩
  born hq hb := by
    rw [hinit] at hq
    obtain ⟨par, hf, hp⟩ := h.born hq (hborn hb)
    obtain ⟨p, hpp, hk⟩ := h.parent hq (hborn hb)
    obtain ⟨_, hpid, hparent⟩ := hkeep (.inr hb)
    rw [hpid, hparent, hinit]
    refine ⟨par, hlog hf, hp.imp ?_ fun ⟨hi, he⟩ => ⟨hi, hlog he⟩⟩
    rintro ⟨p', hp', hd⟩
    have heq : p' = p := Option.some.inj (hp'.symm.trans hpp)
    exact ⟨p', hp', by rw [heq, (hkeep (.inl hk)).2.1, ← heq, hd]⟩
  ended hz := by
    obtain ⟨hk, hpid, _⟩ := hkeep (.inr (.inr hz))
    rw [hpid]
    exact hlog (h.ended (hk.symm.trans hz))
  waits := by
    rw [hinit, (hkeep (.inl h.initAlive)).2.1]
    exact hwaits

theorem Family.quiet (h : Family s) (hq : Quiet s s') : Family s' := by
  refine h.keep (fun _ => ⟨hq.kind _, hq.pid _, hq.parent _⟩) (fun hb => ?_) hq.initProc ?_ ?_
  · rw [hq.kind] at hb
    exact hb
  · rw [hq.log]
    exact List.Subset.refl _
  · rw [hq.log]
    exact h.waits

theorem Forks.quiet (h : Forks s) (hq : Quiet s s') : Forks s' where
  child hst := by
    rw [hq.stage] at hst
    rw [hq.kind, hq.kind]
    exact h.child hst
  unique hst hst' := by
    rw [hq.stage] at hst hst'
    exact h.unique hst hst'
  adopted hst := by
    rw [hq.stage] at hst
    rw [hq.parent]
    exact h.adopted hst

/-! ## A process and the slot of its child -/

/-- The process `p` moves on, and changes the slot `q`. -/
structure Touches (s s' : State) (p q : ProcId) (g : Proc → Proc) (ph : Phase) : Prop where
  ne : p ≠ q
  child : s'.procs q = g (s.procs q)
  self : s'.procs p = { s.procs p with phase := ph }
  other : ∀ x, x ≠ p → x ≠ q → s'.procs x = s.procs x
  initProc : s'.initProc = s.initProc

variable {g : Proc → Proc} {ph : Phase}

theorem touches (hne : p ≠ q) (hprocs : s'.procs = ((s.modifyProc q g).goto p ph).procs)
    (hinit : s'.initProc = s.initProc) : Touches s s' p q g ph where
  ne := hne
  child := by simp [hprocs, Ne.symm hne]
  self := by simp [hprocs, hne]
  other x hp hq := by simp [hprocs, hp, hq]
  initProc := hinit

theorem Touches.kind (h : Touches s s' p q g ph) {x : ProcId} (hx : x ≠ q) : s'.kindOf x = s.kindOf x := by
  by_cases hp : x = p
  · rw [hp, State.kindOf, h.self]
  · rw [State.kindOf, h.other x hp hx]

theorem Touches.pid (h : Touches s s' p q g ph) {x : ProcId} (hx : x ≠ q) : (s'.procs x).pid = (s.procs x).pid := by
  by_cases hp : x = p
  · rw [hp, h.self]
  · rw [h.other x hp hx]

theorem Touches.parent (h : Touches s s' p q g ph) {x : ProcId} (hx : x ≠ q) :
    (s'.procs x).parent = (s.procs x).parent := by
  by_cases hp : x = p
  · rw [hp, h.self]
  · rw [h.other x hp hx]

/-- The slot is no process, before and after. -/
theorem Family.touch (h : Family s) (ht : Touches s s' p q g ph) (hq : ¬ (s.kindOf q).Born)
    (hq' : ¬ (s'.kindOf q).Born) (hlog : s'.log = s.log) : Family s' := by
  refine h.keep (fun {x} hx => ?_) (fun {x} hx => ?_) ht.initProc ?_ ?_
  · have hne : x ≠ q := by
      rintro rfl
      exact hx.elim (fun hx => hq (.inl hx)) hq'
    exact ⟨ht.kind hne, ht.pid hne, ht.parent hne⟩
  · have hne : x ≠ q := fun hc => hq' (hc ▸ hx)
    rw [ht.kind hne] at hx
    exact hx
  · rw [hlog]
    exact List.Subset.refl _
  · rw [hlog]
    exact h.waits

/-- The other processes fill other slots, as before. -/
theorem Touches.others (ht : Touches s s' p q g ph) (hst : s'.stageOf q = none)
    (hothers : ∀ x b, x ≠ p → s.stageOf x ≠ some (q, b)) {x y : ProcId} {b : Bool} (hx : x ≠ p)
    (hs : s'.stageOf x = some (y, b)) : x ≠ q ∧ y ≠ q ∧ s.stageOf x = some (y, b) := by
  have hxq : x ≠ q := by
    rintro rfl
    rw [hst] at hs
    cases hs
  rw [State.stageOf, ht.other x hx hxq] at hs
  exact ⟨hxq, fun hc => hothers x b hx (hc ▸ hs), hs⟩

/-- The process begins to fill the slot, or goes on with it. -/
theorem Forks.take {b : Bool} (h : Forks s) (ht : Touches s s' p q g ph) (hp : s.kindOf p = .alive)
    (hph : ph.stage = some (q, b)) (hk : s'.kindOf q = .embryo) (hst : s'.stageOf q = none)
    (hothers : ∀ x b, x ≠ p → s.stageOf x ≠ some (q, b)) (hb : b = true → (s'.procs q).parent = some p) : Forks s' := by
  have hself : s'.stageOf p = some (q, b) := by rw [State.stageOf, ht.self, hph]
  have hold := fun {x y b'} => ht.others (x := x) (y := y) (b := b') hst hothers
  refine ⟨fun {x y b'} hs => ?_, fun {x x' y b₁ b₂} hs hs' => ?_, fun {x y} hs => ?_⟩
  · by_cases hx : x = p
    · subst hx
      rw [hself] at hs
      cases hs
      exact ⟨hk, (ht.kind ht.ne).trans hp⟩
    · obtain ⟨hxq, hy, hs⟩ := hold hx hs
      obtain ⟨hky, hkx⟩ := h.child hs
      exact ⟨(ht.kind hy).trans hky, (ht.kind hxq).trans hkx⟩
  · by_cases hx : x = p
    · subst hx
      rw [hself] at hs
      cases hs
      by_contra hne
      exact (hold (Ne.symm hne) hs').2.1 rfl
    · obtain ⟨_, hy, hs⟩ := hold hx hs
      by_cases hx' : x' = p
      · subst hx'
        rw [hself] at hs'
        cases hs'
        exact absurd rfl hy
      · exact h.unique hs (hold hx' hs').2.2
  · by_cases hx : x = p
    · subst hx
      rw [hself] at hs
      cases hs
      exact hb rfl
    · obtain ⟨_, hy, hs⟩ := hold hx hs
      rw [ht.parent hy]
      exact h.adopted hs

/-- The process is done with the slot. -/
theorem Forks.drop (h : Forks s) (ht : Touches s s' p q g ph) (hph : ph.stage = none) (hst : s'.stageOf q = none)
    (hothers : ∀ x b, x ≠ p → s.stageOf x ≠ some (q, b)) : Forks s' := by
  have hself : s'.stageOf p = none := by rw [State.stageOf, ht.self, hph]
  have hold : ∀ {x y b}, s'.stageOf x = some (y, b) → x ≠ q ∧ y ≠ q ∧ s.stageOf x = some (y, b) := by
    intro x y b hs
    refine ht.others hst hothers ?_ hs
    rintro rfl
    rw [hself] at hs
    cases hs
  refine ⟨fun hs => ?_, fun hs hs' => h.unique (hold hs).2.2 (hold hs').2.2, fun hs => ?_⟩
  · obtain ⟨hxq, hy, hs⟩ := hold hs
    obtain ⟨hky, hkx⟩ := h.child hs
    exact ⟨(ht.kind hy).trans hky, (ht.kind hxq).trans hkx⟩
  · obtain ⟨_, hy, hs⟩ := hold hs
    rw [ht.parent hy]
    exact h.adopted hs

/-- Only its own process fills a slot. -/
theorem Forks.others {b : Bool} (h : Forks s) (hst : s.stageOf p = some (q, b)) :
    ∀ x b, x ≠ p → s.stageOf x ≠ some (q, b) := fun _ _ hx hs => hx (h.unique hs hst)

/-- A slot that is no process fills no other slot. -/
theorem Forks.stage_none (h : Forks s) (hq : s.kindOf q ≠ .alive) : s.stageOf q = none := by
  cases hst : s.stageOf q with
  | none => rfl
  | some y => exact absurd (h.child (q := y.1) (b := y.2) hst).2 hq

theorem Forks.ne {b : Bool} (h : Forks s) (hst : s.stageOf p = some (q, b)) : p ≠ q := by
  rintro rfl
  have hc := h.child hst
  rw [hc.2] at hc
  cases hc.1

/-! ## The changes of a life -/

theorem ne_of_kind (hp : s.kindOf p = .alive) (hq : s.kindOf q ≠ .alive) : p ≠ q := fun hc => hq (hc ▸ hp)

theorem not_born_unused : ¬ Kind.unused.Born := by simp [Kind.Born]

theorem not_born_embryo : ¬ Kind.embryo.Born := by simp [Kind.Born]

section Alloc

variable (hp : s.kindOf p = .alive) (hq : s.kindOf q = .unused)
include hp hq

theorem touches_forked : Touches s (forked s p q) p q
    (fun x => { x with state := .embryo, pid := pidOf s.nextPid }) (.forkStack q) :=
  touches (ne_of_kind hp (by rw [hq]; simp)) rfl rfl

theorem kind_forked : (forked s p q).kindOf q = .embryo := by
  rw [State.kindOf, (touches_forked hp hq).child]
  rfl

theorem Forks.forked (h : Forks s) : Forks (forked s p q) := by
  refine h.take (touches_forked hp hq) hp rfl (kind_forked hp hq) ?_ ?_ (fun hc => by cases hc)
  · rw [State.stageOf, (touches_forked hp hq).child]
    exact h.stage_none (by rw [hq]; simp)
  · intro x b _ hs
    have := (h.child hs).1
    rw [hq] at this
    cases this

theorem Family.forked (h : Family s) : Family (forked s p q) :=
  h.touch (touches_forked hp hq) (by rw [hq]; exact not_born_unused)
    (by rw [kind_forked hp hq]; exact not_born_embryo) rfl

end Alloc

section Fail

variable (hf : Forks s) (hst : s.stageOf p = some (q, false))
include hf hst

theorem touches_forkFail : Touches s (forkFail s p q) p q (fun x => { x with state := .unused }) .user :=
  touches (hf.ne hst) rfl rfl

theorem kind_forkFail : (forkFail s p q).kindOf q = .unused := by
  rw [State.kindOf, (touches_forkFail hf hst).child]
  rfl

theorem Forks.forkFail : Forks (forkFail s p q) := by
  refine hf.drop (touches_forkFail hf hst) rfl ?_ (hf.others hst)
  rw [State.stageOf, (touches_forkFail hf hst).child]
  exact hf.stage_none (by rw [(hf.child hst).1]; simp)

theorem Family.forkFail (h : Family s) : Family (forkFail s p q) :=
  h.touch (touches_forkFail hf hst) (by rw [(hf.child hst).1]; exact not_born_embryo)
    (by rw [kind_forkFail hf hst]; exact not_born_unused) rfl

end Fail

section Parent

/-- The child gets its parent. -/
abbrev parented (s : State) (p q : ProcId) : State :=
  (s.modifyProc q fun x => { x with parent := some p }).goto p (.forkRun q)

variable (hf : Forks s) (hst : s.stageOf p = some (q, false))
include hf hst

theorem touches_parented : Touches s (parented s p q) p q (fun x => { x with parent := some p }) (.forkRun q) :=
  touches (hf.ne hst) rfl rfl

theorem kind_parented : (parented s p q).kindOf q = .embryo := by
  rw [State.kindOf, (touches_parented hf hst).child]
  exact (hf.child hst).1

theorem Forks.parented : Forks (parented s p q) := by
  refine hf.take (touches_parented hf hst) (hf.child hst).2 rfl (kind_parented hf hst) ?_ (hf.others hst) ?_
  · rw [State.stageOf, (touches_parented hf hst).child]
    exact hf.stage_none (by rw [(hf.child hst).1]; simp)
  · intro _
    rw [(touches_parented hf hst).child]

theorem Family.parented (h : Family s) : Family (parented s p q) :=
  h.touch (touches_parented hf hst) (by rw [(hf.child hst).1]; exact not_born_embryo)
    (by rw [kind_parented hf hst]; exact not_born_embryo) rfl

end Parent

theorem subset_record (s : State) (e : Event) : s.log ⊆ s.log ++ [e] := List.subset_append_left _ _

section Start

variable (hf : Forks s) (hst : s.stageOf p = some (q, true))
include hf hst

theorem touches_forkRun :
    Touches s (forkRun s p q) p q (fun x => { x with state := .runnable, phase := .user }) .user :=
  touches (hf.ne hst) rfl rfl

theorem kind_forkRun : (forkRun s p q).kindOf q = .alive := by
  rw [State.kindOf, (touches_forkRun hf hst).child]
  rfl

theorem parent_forkRun (x : ProcId) : ((forkRun s p q).procs x).parent = (s.procs x).parent := by
  by_cases hx : x = q
  · rw [hx, (touches_forkRun hf hst).child]
  · exact (touches_forkRun hf hst).parent hx

theorem pid_forkRun (x : ProcId) : ((forkRun s p q).procs x).pid = (s.procs x).pid := by
  by_cases hx : x = q
  · rw [hx, (touches_forkRun hf hst).child]
  · exact (touches_forkRun hf hst).pid hx

theorem Forks.forkRun : Forks (forkRun s p q) := by
  refine hf.drop (touches_forkRun hf hst) rfl ?_ (hf.others hst)
  rw [State.stageOf, (touches_forkRun hf hst).child]
  rfl

/-- Who lives goes on to live. -/
theorem alive_forkRun {x : ProcId} (hx : s.kindOf x = .alive) : (forkRun s p q).kindOf x = .alive := by
  by_cases hq : x = q
  · rw [hq, kind_forkRun hf hst]
  · exact ((touches_forkRun hf hst).kind hq).trans hx

theorem Family.forkRun (h : Family s) : Family (forkRun s p q) := by
  have hk : ∀ {x}, x ≠ q → (Ptable.forkRun s p q).kindOf x = s.kindOf x := (touches_forkRun hf hst).kind
  have hparent := parent_forkRun hf hst
  have hpid := pid_forkRun hf hst
  have hpq : (s.procs q).parent = some p := hf.adopted hst
  refine ⟨alive_forkRun hf hst h.initAlive, ?_, fun {x} hb => ?_, fun {x} hx hb => ?_, fun {x} hx hb => ?_,
    fun {x} hz => ?_, ?_⟩
  · rw [hparent]
    exact h.initParent
  · rw [hparent]
    by_cases hq : x = q
    · subst hq
      rw [hpq]
      exact fun hc => hf.ne hst (Option.some.inj hc)
    · rw [hk hq] at hb
      exact h.irrefl hb
  · rw [hparent]
    by_cases hq : x = q
    · subst hq
      exact ⟨p, hpq, alive_forkRun hf hst (hf.child hst).2⟩
    · rw [hk hq] at hb
      obtain ⟨p', hp', ha⟩ := h.parent hx hb
      exact ⟨p', hp', alive_forkRun hf hst ha⟩
  · rw [hparent, hpid]
    simp only [hpid]
    by_cases hq : x = q
    · subst hq
      exact ⟨_, List.mem_append_right _ (List.mem_singleton.mpr rfl), .inl ⟨p, hpq, rfl⟩⟩
    · rw [hk hq] at hb
      obtain ⟨par, hfk, hp⟩ := h.born hx hb
      exact ⟨par, subset_record s _ hfk, hp.imp id fun ⟨hi, he⟩ => ⟨hi, subset_record s _ he⟩⟩
  · rw [hpid]
    have hq : x ≠ q := by
      rintro rfl
      rw [kind_forkRun hf hst] at hz
      cases hz
    rw [hk hq] at hz
    exact subset_record s _ (h.ended hz)
  · rw [hpid]
    exact h.waits.append fun _ _ he => by cases he

end Start

section Reap

variable (hp : s.kindOf p = .alive) (hz : s.kindOf q = .zombie)
include hp hz

theorem touches_reap : Touches s (reap s p q) p q
    (fun x => { x with pid := 0, parent := none, killed := false, state := .unused }) .user :=
  touches (ne_of_kind hp (by rw [hz]; simp)) rfl rfl

theorem kind_reap : (reap s p q).kindOf q = .unused := by
  rw [State.kindOf, (touches_reap hp hz).child]
  rfl

theorem Forks.reap (hf : Forks s) : Forks (reap s p q) := by
  refine hf.drop (touches_reap hp hz) rfl ?_ ?_
  · rw [State.stageOf, (touches_reap hp hz).child]
    exact hf.stage_none (by rw [hz]; simp)
  · intro x b _ hs
    have := (hf.child hs).1
    rw [hz] at this
    cases this

/-- The `wait` of `p` that returns `q`. -/
theorem Family.waited (h : Family s) (hparent : (s.procs q).parent = some p) :
    .forked (s.procs p).pid (s.procs q).pid ∈ s.log ∨ (s.procs p).pid = (s.procs s.initProc).pid ∧
      ∃ par, .forked par (s.procs q).pid ∈ s.log ∧ .exited par ∈ s.log := by
  have hq : q ≠ s.initProc := by
    rintro rfl
    rw [h.initAlive] at hz
    cases hz
  obtain ⟨par, hf, ⟨p', hp', rfl⟩ | ⟨hi, he⟩⟩ := h.born hq (.inr hz)
  · rw [hparent] at hp'
    cases hp'
    exact .inl hf
  · rw [hparent] at hi
    cases hi
    exact .inr ⟨rfl, par, hf, he⟩

theorem Family.reap (h : Family s) (hparent : (s.procs q).parent = some p) : Family (reap s p q) := by
  have ht := touches_reap hp hz
  have hne : ∀ {x}, s.kindOf x = .alive ∨ ((Ptable.reap s p q).kindOf x).Born → x ≠ q := by
    rintro x hx rfl
    rcases hx with hx | hx
    · rw [hz] at hx
      cases hx
    · rw [kind_reap hp hz] at hx
      exact not_born_unused hx
  refine h.keep (fun hx => ⟨ht.kind (hne hx), ht.pid (hne hx), ht.parent (hne hx)⟩) (fun hx => ?_) rfl
    (subset_record s _) ?_
  · rw [ht.kind (hne (.inr hx))] at hx
    exact hx
  · refine h.waits.append fun c d he => ?_
    cases he
    exact ⟨h.ended hz, h.waited hp hz hparent⟩

end Reap

/-! ### The end of a process -/

/-- The state in `exit` after the parent is woken. -/
def wakeParent (s : State) (p : ProcId) : State :=
  match (s.procs p).parent with
  | none => s
  | some q => wakeupPure s (.proc q)

theorem Quiet.wakeParent (s : State) (p : ProcId) : Quiet s (wakeParent s p) := by
  unfold Ptable.wakeParent
  split
  · exact .refl s
  · exact .wakeupPure _

/-- Each slot after the children are adopted, up to a `wakeup_pure`. -/
theorem adopt_procs (s : State) (p x : ProcId) : (adopt s p).procs x = (s.procs x).adopt p s.initProc ∨
    (∃ c, (s.procs c).parent = some p ∧ (s.procs c).state = .zombie) ∧
      (adopt s p).procs x = ((s.procs x).adopt p s.initProc).wakeup (.proc s.initProc) := by
  unfold adopt
  dsimp only
  split
  · rename_i hz
    exact .inr ⟨hz, rfl⟩
  · exact .inl rfl

theorem adopt_slot (s : State) (p x : ProcId) : (adopt s p).kindOf x = s.kindOf x ∧
    ((adopt s p).procs x).pid = (s.procs x).pid ∧ (adopt s p).stageOf x = s.stageOf x ∧
    ((adopt s p).procs x).killed = (s.procs x).killed ∧
    ((adopt s p).procs x).parent = if (s.procs x).parent = some p then some s.initProc else (s.procs x).parent := by
  rw [State.kindOf, State.stageOf]
  rcases adopt_procs s p x with h | ⟨_, h⟩
  · rw [h]
    simp [adopt_parent]
  · rw [h, wakeup_kind]
    simp [adopt_parent]

/-- Each slot after `exit`. -/
structure Exits (s s' : State) (p : ProcId) : Prop where
  kind : ∀ x, s'.kindOf x = if x = p then .zombie else s.kindOf x
  pid : ∀ x, (s'.procs x).pid = (s.procs x).pid
  stage : ∀ x, s'.stageOf x = s.stageOf x
  killed : ∀ x, (s'.procs x).killed = (s.procs x).killed
  parent : ∀ x, (s'.procs x).parent = if (s.procs x).parent = some p then some s.initProc else (s.procs x).parent
  initProc : s'.initProc = s.initProc
  nextPid : s'.nextPid = s.nextPid
  forks : s'.forks = s.forks
  log : s'.log = s.log ++ [.exited (s.procs p).pid]

theorem adopt_frame (s : State) (p : ProcId) : (adopt s p).initProc = s.initProc ∧ (adopt s p).nextPid = s.nextPid ∧
    (adopt s p).forks = s.forks ∧ (adopt s p).log = s.log := by
  unfold adopt
  dsimp only
  split <;> exact ⟨rfl, rfl, rfl, rfl⟩

theorem wakeParent_forks (s : State) (p : ProcId) : (wakeParent s p).forks = s.forks := by
  unfold wakeParent
  split <;> rfl

theorem exit_eq (s : State) (p : ProcId) : exit s p = ((adopt (wakeParent s p) p).modifyProc p fun x =>
    { x with state := .zombie }).record (.exited ((wakeParent s p).procs p).pid) := by
  unfold exit wakeParent
  rfl

theorem exits (s : State) (p : ProcId) : Exits s (exit s p) p := by
  have hw := Quiet.wakeParent s p
  have heq := exit_eq s p
  have ha := adopt_slot (wakeParent s p) p
  have hslot : ∀ x, x ≠ p → (exit s p).procs x = (adopt (wakeParent s p) p).procs x := by
    intro x hx
    rw [heq, record_procs, modifyProc_of_ne hx]
  have hself : (exit s p).procs p = { (adopt (wakeParent s p) p).procs p with state := .zombie } := by
    rw [heq, record_procs, modifyProc_self]
  obtain ⟨hinit, hnext, hforks, hlog⟩ := adopt_frame (wakeParent s p) p
  refine ⟨fun x => ?_, fun x => ?_, fun x => ?_, fun x => ?_, fun x => ?_, ?_, ?_, ?_, ?_⟩
  · split
    · rename_i hx
      rw [hx, State.kindOf, hself]
      rfl
    · rename_i hx
      rw [State.kindOf, hslot x hx]
      exact (ha x).1.trans (hw.kind x)
  · have : ((exit s p).procs x).pid = ((adopt (wakeParent s p) p).procs x).pid := by
      by_cases hx : x = p
      · rw [hx, hself]
      · rw [hslot x hx]
    exact this.trans ((ha x).2.1.trans (hw.pid x))
  · have : (exit s p).stageOf x = (adopt (wakeParent s p) p).stageOf x := by
      by_cases hx : x = p
      · rw [hx, State.stageOf, hself]
      · rw [State.stageOf, hslot x hx]
    exact this.trans ((ha x).2.2.1.trans (hw.stage x))
  · have : ((exit s p).procs x).killed = ((adopt (wakeParent s p) p).procs x).killed := by
      by_cases hx : x = p
      · rw [hx, hself]
      · rw [hslot x hx]
    exact this.trans ((ha x).2.2.2.1.trans (hw.killed x))
  · have : ((exit s p).procs x).parent = ((adopt (wakeParent s p) p).procs x).parent := by
      by_cases hx : x = p
      · rw [hx, hself]
      · rw [hslot x hx]
    rw [this, (ha x).2.2.2.2, hw.parent, hw.initProc]
  · rw [heq]
    exact hinit.trans hw.initProc
  · rw [heq]
    exact hnext.trans hw.nextPid
  · rw [heq]
    exact hforks.trans (wakeParent_forks s p)
  · rw [heq]
    change (adopt (wakeParent s p) p).log ++ _ = _
    rw [hlog, hw.log, hw.pid]

section Exit

variable (hp : s.kindOf p = .alive) (he : Exits s s' p)
include hp he

theorem Forks.exits (h : Forks s) (hst : s.stageOf p = none) : Forks s' := by
  have hne : ∀ {x y b}, s.stageOf x = some (y, b) → x ≠ p ∧ y ≠ p := by
    intro x y b hs
    refine ⟨?_, ?_⟩
    · rintro rfl
      rw [hst] at hs
      cases hs
    · rintro rfl
      have := (h.child hs).1
      rw [hp] at this
      cases this
  refine ⟨fun hs => ?_, fun hs hs' => ?_, fun hs => ?_⟩
  · rw [he.stage] at hs
    rw [he.kind, he.kind, if_neg (hne hs).1, if_neg (hne hs).2]
    exact h.child hs
  · rw [he.stage] at hs hs'
    exact h.unique hs hs'
  · rw [he.stage] at hs
    rw [he.parent, if_neg]
    · exact h.adopted hs
    · rw [h.adopted hs]
      exact fun hc => (hne hs).1 (Option.some.inj hc)

/-- A process after `exit` was one before. -/
theorem Exits.born {x : ProcId} (hb : (s'.kindOf x).Born) : (s.kindOf x).Born := by
  rw [he.kind] at hb
  split at hb
  · rename_i hx
    exact .inl (hx ▸ hp)
  · exact hb

theorem Family.exits (h : Family s) (hinit : p ≠ s.initProc) : Family s' := by
  have hsub : s.log ⊆ s'.log := by
    rw [he.log]
    exact subset_record s _
  have halive : ∀ {x}, x ≠ p → s.kindOf x = .alive → s'.kindOf x = .alive := by
    intro x hx hk
    rw [he.kind, if_neg hx]
    exact hk
  refine ⟨?_, ?_, fun {x} hb => ?_, fun {x} hx hb => ?_, fun {x} hx hb => ?_, fun {x} hz => ?_, ?_⟩
  · rw [he.initProc]
    exact halive (Ne.symm hinit) h.initAlive
  · rw [he.initProc, he.parent, h.initParent]
    simp
  · rw [he.parent]
    split
    · rename_i hpa
      intro hc
      rw [← Option.some.inj hc, h.initParent] at hpa
      cases hpa
    · exact h.irrefl (he.born hp hb)
  · rw [he.initProc] at hx
    rw [he.parent]
    obtain ⟨p', hp', hk⟩ := h.parent hx (he.born hp hb)
    split
    · exact ⟨_, rfl, halive (Ne.symm hinit) h.initAlive⟩
    · rename_i hpa
      refine ⟨p', hp', halive ?_ hk⟩
      rintro rfl
      exact hpa hp'
  · rw [he.initProc] at hx
    rw [he.parent, he.pid, he.initProc]
    simp only [he.pid]
    obtain ⟨par, hfk, hp'⟩ := h.born hx (he.born hp hb)
    refine ⟨par, hsub hfk, ?_⟩
    split
    · -- a child of the process that ends
      rename_i hpa
      right
      refine ⟨rfl, ?_⟩
      rcases hp' with ⟨p', hp', rfl⟩ | ⟨_, hex⟩
      · rw [hpa] at hp'
        cases hp'
        rw [he.log]
        exact List.mem_append_right _ (List.mem_singleton.mpr rfl)
      · exact hsub hex
    · exact hp'.imp id fun ⟨hi, hex⟩ => ⟨hi, hsub hex⟩
  · rw [he.pid]
    rw [he.kind] at hz
    split at hz
    · rename_i hx
      rw [hx, he.log]
      exact List.mem_append_right _ (List.mem_singleton.mpr rfl)
    · exact hsub (h.ended hz)
  · rw [he.initProc, he.pid, he.log]
    exact h.waits.append fun _ _ hc => by cases hc

end Exit

/-! ## Runs -/

/-- The state after `kill` found the slot `q`. -/
abbrev killed (s : State) (q : ProcId) (pid : Nat) : State :=
  (s.modifyProc q fun x =>
    { x with killed := true, state := if x.state = .sleeping then .runnable else x.state }).record (.killed pid)

theorem killed_slot (s : State) (q : ProcId) (pid : Nat) (x : ProcId) :
    (killed s q pid).kindOf x = s.kindOf x ∧ ((killed s q pid).procs x).pid = (s.procs x).pid ∧
    ((killed s q pid).procs x).parent = (s.procs x).parent ∧ (killed s q pid).stageOf x = s.stageOf x := by
  by_cases hx : x = q
  · subst hx
    have hself : (killed s x pid).procs x = { s.procs x with
      killed := true, state := if (s.procs x).state = .sleeping then .runnable else (s.procs x).state } := by
      rw [Ptable.killed, record_procs, modifyProc_self]
    rw [State.kindOf, State.stageOf, hself]
    refine ⟨?_, rfl, rfl, rfl⟩
    dsimp only
    split
    · rename_i hs
      rw [State.kindOf, hs]
      rfl
    · rfl
  · have hother : (killed s q pid).procs x = s.procs x := by
      rw [Ptable.killed, record_procs, modifyProc_of_ne hx]
    rw [State.kindOf, State.stageOf, hother]
    exact ⟨rfl, rfl, rfl, rfl⟩

theorem Forks.killed (h : Forks s) (q : ProcId) (pid : Nat) : Forks (killed s q pid) := by
  have hk := killed_slot s q pid
  refine ⟨fun hs => ?_, fun hs hs' => ?_, fun hs => ?_⟩
  · rw [(hk _).2.2.2] at hs
    rw [(hk _).1, (hk _).1]
    exact h.child hs
  · rw [(hk _).2.2.2] at hs hs'
    exact h.unique hs hs'
  · rw [(hk _).2.2.2] at hs
    rw [(hk _).2.2.1]
    exact h.adopted hs

theorem Family.killed (h : Family s) (q : ProcId) (pid : Nat) : Family (killed s q pid) := by
  have hk := killed_slot s q pid
  refine h.keep (fun {x} _ => ⟨(hk x).1, (hk x).2.1, (hk x).2.2.1⟩) (fun {x} hb => ?_) rfl (subset_record s _)
    (h.waits.append fun _ _ hc => by cases hc)
  rw [(hk x).1] at hb
  exact hb

theorem Effect.family {a : Action} (hf : Forks s) (h : Family s) (he : Effect s a s') : Forks s' ∧ Family s' := by
  cases he with
  | quiet => exact ⟨hf, h⟩
  | alloc hp _ hq => exact ⟨hf.forked hp hq, h.forked hp hq⟩
  | fail hst => exact ⟨hf.forkFail hst, h.forkFail hf hst⟩
  | parent hst => exact ⟨hf.parented hst, h.parented hf hst⟩
  | start hst => exact ⟨hf.forkRun hst, h.forkRun hf hst⟩
  | reap hp _ hparent hz => exact ⟨hf.reap hp hz, h.reap hp hz hparent⟩
  | exit hp hst hinit => exact ⟨hf.exits hp (exits s _) hst, h.exits hp (exits s _) hinit⟩
  | kill => exact ⟨hf.killed _ _, h.killed _ _⟩

theorem initial_slot (x : ProcId) (hx : x ≠ initial.initProc) :
    initial.procs x = ⟨.unused, 0, none, none, false, .user⟩ := by
  simp only [initial] at hx ⊢
  exact upd_of_ne hx _ _

theorem forks_initial : Forks initial := by
  have hst : ∀ x, initial.stageOf x = none := by
    intro x
    by_cases hx : x = initial.initProc
    · rw [hx]
      rfl
    · rw [State.stageOf, initial_slot x hx]
      rfl
  refine ⟨fun hs => ?_, fun hs => ?_, fun hs => ?_⟩ <;>
  · rw [hst] at hs
    cases hs

theorem family_initial : Family initial := by
  have hb : ∀ {x}, x ≠ initial.initProc → ¬ (initial.kindOf x).Born := by
    intro x hx
    rw [State.kindOf, initial_slot x hx]
    exact not_born_unused
  refine ⟨rfl, rfl, fun {x} _ => ?_, fun hx hbx => absurd hbx (hb hx), fun hx hbx => absurd hbx (hb hx),
    fun {x} hz => ?_, fun l₁ _ _ _ hl => ?_⟩
  · by_cases hx : x = initial.initProc
    · rw [hx]
      have : (initial.procs initial.initProc).parent = none := rfl
      rw [this]
      simp
    · rw [initial_slot x hx]
      simp
  · by_cases hx : x = initial.initProc
    · rw [hx] at hz
      cases hz
    · exact absurd (.inr hz) (hb hx)
  · cases l₁ <;> cases hl

theorem families (h : machine.Reachable s) : Forks s ∧ Family s := by
  refine h.invariant (P := fun s => Forks s ∧ Family s) ?_ ?_
  · rintro _ rfl
    exact ⟨forks_initial, family_initial⟩
  · intro s a s' ⟨hf, h⟩ hs
    obtain ⟨s₁, hq, he⟩ := step_effect hs
    exact he.family (hf.quiet hq) (h.quiet hq)

end Xv6.Ptable
