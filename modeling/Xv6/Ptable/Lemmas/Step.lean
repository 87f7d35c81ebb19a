import Xv6.Ptable.Calls

/-!
# Steps of the process table

What each action does to the slots. Most actions only move processes among the states `SLEEPING`, `RUNNABLE`
and `RUNNING`; `Quiet` says what such an action keeps.
-/

namespace Xv6.Ptable

open Xv6.Lib Xv6.Kernel

/-- The states of a slot, without the difference between a process that sleeps, is ready or runs. -/
inductive Kind where
  | unused
  | embryo
  | alive
  | zombie
deriving DecidableEq

def kind : ProcState → Kind
  | .unused => .unused
  | .embryo => .embryo
  | .zombie => .zombie
  | _ => .alive

/-- The slot that a process fills in `fork`, and whether it is already the parent. -/
def Phase.stage : Phase → Option (ProcId × Bool)
  | .forkStack q | .forkCopy q | .forkParent q => some (q, false)
  | .forkRun q => some (q, true)
  | _ => none

variable {s s' : State} {p q : ProcId}

abbrev State.kindOf (s : State) (p : ProcId) : Kind := kind (s.procs p).state

abbrev State.stageOf (s : State) (p : ProcId) : Option (ProcId × Bool) := (s.procs p).phase.stage

theorem kind_eq_unused {x : ProcState} : kind x = .unused ↔ x = .unused := by cases x <;> simp [kind]

theorem kind_eq_zombie {x : ProcState} : kind x = .zombie ↔ x = .zombie := by cases x <;> simp [kind]

/-! ## Fields after an update -/

@[simp] theorem modifyProc_self {g : Proc → Proc} : (s.modifyProc p g).procs p = g (s.procs p) := upd_self _ _ _

@[simp] theorem modifyProc_of_ne {g : Proc → Proc} (h : q ≠ p) : (s.modifyProc p g).procs q = s.procs q :=
  upd_of_ne h _ _

@[simp] theorem goto_self {ph : Phase} : (s.goto p ph).procs p = { s.procs p with phase := ph } := upd_self _ _ _

@[simp] theorem goto_of_ne {ph : Phase} (h : q ≠ p) : (s.goto p ph).procs q = s.procs q := upd_of_ne h _ _

@[simp] theorem record_procs (e : Event) : (s.record e).procs = s.procs := rfl

theorem wakeup_kind (x : Proc) (c : Chan) : kind (x.wakeup c).state = kind x.state := by
  unfold Proc.wakeup
  split
  · rename_i h
    rw [h.1]
    rfl
  · rfl

@[simp] theorem wakeup_pid (x : Proc) (c : Chan) : (x.wakeup c).pid = x.pid := by
  unfold Proc.wakeup
  split <;> rfl

@[simp] theorem wakeup_parent (x : Proc) (c : Chan) : (x.wakeup c).parent = x.parent := by
  unfold Proc.wakeup
  split <;> rfl

@[simp] theorem wakeup_phase (x : Proc) (c : Chan) : (x.wakeup c).phase = x.phase := by
  unfold Proc.wakeup
  split <;> rfl

@[simp] theorem wakeup_killed (x : Proc) (c : Chan) : (x.wakeup c).killed = x.killed := by
  unfold Proc.wakeup
  split <;> rfl

@[simp] theorem wakeup_chan (x : Proc) (c : Chan) : (x.wakeup c).chan = x.chan := by
  unfold Proc.wakeup
  split <;> rfl

theorem sleeping_of_wakeup {x : Proc} {c : Chan} (h : (x.wakeup c).state = .sleeping) :
    x.state = .sleeping ∧ x.chan ≠ some c := by
  unfold Proc.wakeup at h
  split at h
  · cases h
  · rename_i hn
    exact ⟨h, fun hc => hn ⟨h, hc⟩⟩

@[simp] theorem adopt_state (x : Proc) (p first : ProcId) : (x.adopt p first).state = x.state := by
  unfold Proc.adopt
  split <;> rfl

@[simp] theorem adopt_pid (x : Proc) (p first : ProcId) : (x.adopt p first).pid = x.pid := by
  unfold Proc.adopt
  split <;> rfl

@[simp] theorem adopt_chan (x : Proc) (p first : ProcId) : (x.adopt p first).chan = x.chan := by
  unfold Proc.adopt
  split <;> rfl

@[simp] theorem adopt_killed (x : Proc) (p first : ProcId) : (x.adopt p first).killed = x.killed := by
  unfold Proc.adopt
  split <;> rfl

@[simp] theorem adopt_phase (x : Proc) (p first : ProcId) : (x.adopt p first).phase = x.phase := by
  unfold Proc.adopt
  split <;> rfl

theorem adopt_parent (x : Proc) (p first : ProcId) :
    (x.adopt p first).parent = if x.parent = some p then some first else x.parent := by
  unfold Proc.adopt
  split <;> rfl

/-! ## Quiet changes -/

/-- No process comes or goes, nobody gets another parent or is killed, and who begins to wait for its children
has no child that has ended. -/
structure Quiet (s s' : State) : Prop where
  kind : ∀ q, s'.kindOf q = s.kindOf q
  pid : ∀ q, (s'.procs q).pid = (s.procs q).pid
  parent : ∀ q, (s'.procs q).parent = (s.procs q).parent
  stage : ∀ q, s'.stageOf q = s.stageOf q
  killed : ∀ q, (s'.procs q).killed = (s.procs q).killed
  waits : ∀ q, (s'.procs q).state = .sleeping → (s'.procs q).chan = some (.proc q) →
    (s.procs q).state = .sleeping ∧ (s.procs q).chan = some (.proc q) ∨
      ∀ c, (s.procs c).parent = some q → (s.procs c).state ≠ .zombie
  initProc : s'.initProc = s.initProc
  nextPid : s'.nextPid = s.nextPid
  forks : s.forks ≤ s'.forks
  log : s'.log = s.log

theorem Quiet.refl (s : State) : Quiet s s :=
  ⟨fun _ => rfl, fun _ => rfl, fun _ => rfl, fun _ => rfl, fun _ => rfl, fun _ h h' => .inl ⟨h, h'⟩, rfl, rfl,
    Nat.le_refl _, rfl⟩

theorem Quiet.zombie {s s' : State} (h : Quiet s s') (q : ProcId) :
    (s'.procs q).state = .zombie ↔ (s.procs q).state = .zombie := by
  rw [← kind_eq_zombie, ← kind_eq_zombie]
  exact Iff.of_eq (congrArg (· = Kind.zombie) (h.kind q))

theorem Quiet.trans {s s' s'' : State} (h : Quiet s s') (h' : Quiet s' s'') : Quiet s s'' where
  kind q := (h'.kind q).trans (h.kind q)
  pid q := (h'.pid q).trans (h.pid q)
  parent q := (h'.parent q).trans (h.parent q)
  stage q := (h'.stage q).trans (h.stage q)
  killed q := (h'.killed q).trans (h.killed q)
  waits q hs hc := by
    rcases h'.waits q hs hc with ⟨hs', hc'⟩ | hz
    · exact h.waits q hs' hc'
    · right
      intro c hp hst
      exact hz c ((h.parent c).trans hp) ((h.zombie c).mpr hst)
  initProc := h'.initProc.trans h.initProc
  nextPid := h'.nextPid.trans h.nextPid
  forks := Nat.le_trans h.forks h'.forks
  log := h'.log.trans h.log

/-- One slot changes. -/
theorem Quiet.modifyProc {g : Proc → Proc} (hkind : Ptable.kind (g (s.procs p)).state = s.kindOf p)
    (hpid : (g (s.procs p)).pid = (s.procs p).pid) (hparent : (g (s.procs p)).parent = (s.procs p).parent)
    (hstage : (g (s.procs p)).phase.stage = s.stageOf p) (hkilled : (g (s.procs p)).killed = (s.procs p).killed)
    (hwaits : (g (s.procs p)).state = .sleeping → (g (s.procs p)).chan = some (.proc p) →
      (s.procs p).state = .sleeping ∧ (s.procs p).chan = some (.proc p) ∨
        ∀ c, (s.procs c).parent = some p → (s.procs c).state ≠ .zombie) : Quiet s (s.modifyProc p g) := by
  refine ⟨fun q => ?_, fun q => ?_, fun q => ?_, fun q => ?_, fun q => ?_, fun q => ?_, rfl, rfl,
    Nat.le_refl _, rfl⟩ <;>
    by_cases hq : q = p
  · subst hq
    rw [State.kindOf, modifyProc_self, hkind]
  · rw [State.kindOf, modifyProc_of_ne hq]
  · subst hq
    rw [modifyProc_self, hpid]
  · rw [modifyProc_of_ne hq]
  · subst hq
    rw [modifyProc_self, hparent]
  · rw [modifyProc_of_ne hq]
  · subst hq
    rw [State.stageOf, modifyProc_self, hstage]
  · rw [State.stageOf, modifyProc_of_ne hq]
  · subst hq
    rw [modifyProc_self, hkilled]
  · rw [modifyProc_of_ne hq]
  · subst hq
    rw [modifyProc_self]
    exact hwaits
  · rw [modifyProc_of_ne hq]
    exact fun h h' => .inl ⟨h, h'⟩

theorem Quiet.wakeupPure (c : Chan) : Quiet s (wakeupPure s c) where
  kind q := wakeup_kind (s.procs q) c
  pid q := wakeup_pid (s.procs q) c
  parent q := wakeup_parent (s.procs q) c
  stage q := congrArg Phase.stage (wakeup_phase (s.procs q) c)
  killed q := wakeup_killed (s.procs q) c
  waits q hs hc := .inl ⟨(sleeping_of_wakeup hs).1, (wakeup_chan (s.procs q) c).symm.trans hc⟩
  initProc := rfl
  nextPid := rfl
  forks := Nat.le_refl _
  log := rfl

/-! ## All changes -/

/-- The state after the first critical section of a `fork` of `p` that takes the slot `q`. -/
def forked (s : State) (p q : ProcId) : State :=
  ({ s.modifyProc q fun x => { x with state := .embryo, pid := pidOf s.nextPid } with
    nextPid := (s.nextPid + 1) % 2 ^ 32, forks := s.forks + 1 }).goto p (.forkStack q)

/-- What an action does, after a quiet change. -/
inductive Effect (s : State) : Action → State → Prop where
  | quiet {a : Action} : Effect s a s
  | alloc {a : Action} {p q : ProcId} (hp : s.kindOf p = .alive) (hst : s.stageOf p = none)
      (hq : s.kindOf q = .unused) : Effect s a (forked s p q)
  | fail {a : Action} {p q : ProcId} (hst : s.stageOf p = some (q, false)) : Effect s a (forkFail s p q)
  | parent {a : Action} {p q : ProcId} (hst : s.stageOf p = some (q, false)) :
      Effect s a ((s.modifyProc q fun x => { x with parent := some p }).goto p (.forkRun q))
  | start {a : Action} {p q : ProcId} (hst : s.stageOf p = some (q, true)) : Effect s a (forkRun s p q)
  | reap {a : Action} {p q : ProcId} (hp : s.kindOf p = .alive) (hst : s.stageOf p = none)
      (hparent : (s.procs q).parent = some p) (hz : s.kindOf q = .zombie) : Effect s a (reap s p q)
  | exit {a : Action} {p : ProcId} (hp : s.kindOf p = .alive) (hst : s.stageOf p = none) (hinit : p ≠ s.initProc) :
      Effect s a (exit s p)
  | kill {p q : ProcId} {pid : Nat} (hq : (s.procs q).pid = pid) : Effect s (.kill p pid)
      ((s.modifyProc q fun x =>
        { x with killed := true, state := if x.state = .sleeping then .runnable else x.state }).record (.killed pid))

theorem Idle.kind (h : s.Idle p) : s.kindOf p = .alive := by
  rw [State.kindOf, h.1]
  rfl

theorem Idle.stage (h : s.Idle p) : s.stageOf p = none := by
  rw [State.stageOf, h.2]
  rfl

theorem forkAlloc_effect {a : Action} (h : s.Idle p) : ∃ s₁, Quiet s s₁ ∧ Effect s₁ a (forkAlloc s p) := by
  cases hfind : (List.finRange nproc).find? fun q => (s.procs q).state = .unused with
  | none =>
      have heq : forkAlloc s p = { s with forks := s.forks + 1 } := by simp only [forkAlloc, allocProc, hfind]
      rw [heq]
      refine ⟨_, ?_, .quiet⟩
      exact ⟨fun _ => rfl, fun _ => rfl, fun _ => rfl, fun _ => rfl, fun _ => rfl, fun _ h h' => .inl ⟨h, h'⟩,
        rfl, rfl, Nat.le_succ _, rfl⟩
  | some q =>
      have heq : forkAlloc s p = forked s p q := by
        simp only [forkAlloc, allocProc, hfind]
        rfl
      have hq := List.find?_some hfind
      simp only [decide_eq_true_eq] at hq
      rw [heq]
      exact ⟨s, .refl s, .alloc (Idle.kind h) (Idle.stage h) (kind_eq_unused.mpr hq)⟩

theorem waitScan_effect {a : Action} (hp : (s.procs p).state = .running) (hst : s.stageOf p = none) :
    ∃ s₁, Quiet s s₁ ∧ Effect s₁ a (waitScan s p) := by
  have hkind : s.kindOf p = .alive := by
    rw [State.kindOf, hp]
    rfl
  unfold waitScan
  split
  · rename_i q hfind
    have hq := List.find?_some hfind
    simp only [decide_eq_true_eq] at hq
    exact ⟨s, .refl s, .reap hkind hst hq.1 (kind_eq_zombie.mpr hq.2)⟩
  · rename_i hnone
    have hz : ∀ c, (s.procs c).parent = some p → (s.procs c).state ≠ .zombie := by
      intro c hc hz
      have := List.find?_eq_none.mp hnone c (List.mem_finRange c)
      simp [hc, hz] at this
    split
    · refine ⟨_, .modifyProc rfl rfl rfl ?_ rfl ?_, .quiet⟩
      · exact hst.symm
      · intro hs
        rw [hp] at hs
        cases hs
    · refine ⟨_, .modifyProc ?_ rfl rfl ?_ rfl fun _ _ => .inr hz, .quiet⟩
      · exact hkind.symm
      · exact hst.symm

theorem schedule_effect {a : Action} (hp : (s.procs p).state = .runnable) :
    ∃ s₁, Quiet s s₁ ∧ Effect s₁ a (schedule s p) := by
  have hq : Quiet s (s.modifyProc p fun x => { x with state := .running, chan := none }) := by
    refine .modifyProc ?_ rfl rfl rfl rfl fun hs => by cases hs
    rw [State.kindOf, hp]
    rfl
  unfold schedule
  dsimp only
  split
  · rename_i hph
    rw [modifyProc_self] at hph
    have hst : (s.modifyProc p fun x => { x with state := .running, chan := none }).stageOf p = none := by
      rw [State.stageOf, modifyProc_self, hph]
      rfl
    obtain ⟨s₁, hq₁, he⟩ := waitScan_effect (a := a) (by rw [modifyProc_self]) hst
    exact ⟨s₁, hq.trans hq₁, he⟩
  · exact ⟨_, hq, .quiet⟩

theorem kill_effect (pid : Nat) : (∃ q, (s.procs q).pid = pid ∧ kill s pid = (0, s.modifyProc q fun x =>
      { x with killed := true, state := if x.state = .sleeping then .runnable else x.state })) ∨
    (∀ q, (s.procs q).pid ≠ pid) ∧ kill s pid = (-1, s) := by
  unfold kill
  split
  · rename_i hnone
    right
    refine ⟨fun q hq => ?_, rfl⟩
    have := List.find?_eq_none.mp hnone q (List.mem_finRange q)
    simp [hq] at this
  · rename_i q hfind
    left
    have hq := List.find?_some hfind
    simp only [decide_eq_true_eq] at hq
    exact ⟨q, hq, rfl⟩

/-- An allocation of `fork`, which succeeds or fails. -/
theorem forkTry_effect {a : Action} {ph : Phase} {ok : Bool} (hst : s.stageOf p = some (q, false))
    (hph : ph.stage = some (q, false)) :
    ∃ s₁, Quiet s s₁ ∧ Effect s₁ a (if ok then s.goto p ph else forkFail s p q) := by
  cases ok with
  | true =>
      have hq : Quiet s (s.goto p ph) :=
        .modifyProc rfl rfl rfl (hph.trans hst.symm) rfl fun hs hc => .inl ⟨hs, hc⟩
      exact ⟨_, hq, .quiet⟩
  | false => exact ⟨s, .refl s, .fail hst⟩

/-- An action is a quiet change, followed by at most one change of the life of a process. -/
theorem step_effect {a : Action} (h : step s a = some s') : ∃ s₁, Quiet s s₁ ∧ Effect s₁ a s' := by
  cases a with
  | fork p =>
      obtain ⟨hp, h⟩ := Option.ite_none_right_eq_some.mp h
      cases h
      exact forkAlloc_effect hp
  | forkStack p ok =>
      simp only [step] at h
      split at h
      · rename_i q hrun hph
        cases h
        exact forkTry_effect (by rw [State.stageOf, hph]; rfl) rfl
      · cases h
  | forkCopy p ok =>
      simp only [step] at h
      split at h
      · rename_i q hrun hph
        cases h
        exact forkTry_effect (by rw [State.stageOf, hph]; rfl) rfl
      · cases h
  | forkParent p =>
      simp only [step] at h
      split at h
      · rename_i q hrun hph
        cases h
        refine ⟨s, .refl s, .parent ?_⟩
        rw [State.stageOf, hph]
        rfl
      · cases h
  | forkRun p =>
      simp only [step] at h
      split at h
      · rename_i q hrun hph
        cases h
        refine ⟨s, .refl s, .start ?_⟩
        rw [State.stageOf, hph]
        rfl
      · cases h
  | wait p =>
      obtain ⟨hp, h⟩ := Option.ite_none_right_eq_some.mp h
      cases h
      exact waitScan_effect hp.1 (Idle.stage hp)
  | exit p =>
      obtain ⟨hp, h⟩ := Option.ite_none_right_eq_some.mp h
      cases h
      exact ⟨s, .refl s, .exit (Idle.kind hp.1) (Idle.stage hp.1) hp.2⟩
  | kill p pid =>
      simp only [step] at h
      obtain ⟨hp, h⟩ := Option.ite_none_right_eq_some.mp h
      rcases kill_effect (s := s) pid with ⟨q, hq, hk⟩ | ⟨_, hk⟩
      · rw [hk] at h
        cases h
        exact ⟨s, .refl s, .kill hq⟩
      · rw [hk] at h
        cases h
        exact ⟨s, .refl s, .quiet⟩
  | schedule p =>
      obtain ⟨hp, h⟩ := Option.ite_none_right_eq_some.mp h
      cases h
      exact schedule_effect hp
  | yield p =>
      obtain ⟨hp, h⟩ := Option.ite_none_right_eq_some.mp h
      cases h
      refine ⟨_, .modifyProc ?_ rfl rfl rfl rfl (fun hs => by cases hs), .quiet⟩
      rw [State.kindOf, hp]
      rfl
  | sleep p c =>
      obtain ⟨hp, h⟩ := Option.ite_none_right_eq_some.mp h
      cases h
      refine ⟨_, .modifyProc ?_ rfl rfl rfl rfl (fun _ hc => by cases hc), .quiet⟩
      rw [State.kindOf, hp.1]
      rfl
  | wakeup c =>
      cases h
      exact ⟨_, .wakeupPure _, .quiet⟩

end Xv6.Ptable
