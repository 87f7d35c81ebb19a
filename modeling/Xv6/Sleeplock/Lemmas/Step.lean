import Xv6.Sleeplock.Calls

/-!
# Steps of the sleep locks

What one step does to the state, and that a spin lock is always with the process whose place in the code
says so.
-/

namespace Xv6.Sleeplock

open Xv6.Lib Xv6.Kernel

variable {ι κ : Type} [DecidableEq ι] [DecidableEq κ] {s s' : State ι κ} {p q : ι} {k : κ}

/-- The places where a process takes the inner spin lock of `k`, and where it goes on. -/
inductive Gains (k : κ) : Pc κ → Pc κ → Prop where
  | enter : Gains k (.enter k) (.test k)
  | reacquire : Gains k (.reacquire k) (.test k)
  | release : Gains k (.release k) (.clear k)

/-- What a step does where it is enabled. -/
inductive Steps (s : State ι κ) : State ι κ → Prop where
  | call {p : ι} {k : κ} (hpc : (s.procs p).pc = .idle) : Steps s (s.goto p (.enter k))
  | giveBack {p : ι} {k : κ} (hpc : (s.procs p).pc = .idle) (hk : k ∈ (s.procs p).held) :
      Steps s { s with procs := upd s.procs p { s.procs p with pc := .release k, held := (s.procs p).held.erase k } }
  | gain {p : ι} {k : κ} {pc : Pc κ} (hpc : Gains k (s.procs p).pc pc) (hfree : s.spin k = none) :
      Steps s ({ s with spin := upd s.spin k (some p) }.goto p pc)
  | busy {p : ι} {k : κ} (hpc : (s.procs p).pc = .test k) (hl : s.locked k = true) : Steps s (s.goto p (.sleep k))
  | take {p : ι} {k : κ} (hpc : (s.procs p).pc = .test k) (hl : s.locked k = false) :
      Steps s ({ s with locked := upd s.locked k true }.goto p (.got k))
  | sleep {p : ι} {k : κ} (hpc : (s.procs p).pc = .sleep k) (hpt : s.ptable = none) :
      Steps s ({ s with ptable := some p, spin := upd s.spin k none }.goto p (.fall k))
  | doze {p : ι} {k : κ} (hpc : (s.procs p).pc = .fall k) :
      Steps s { s with
        ptable := none
        procs := upd s.procs p { s.procs p with state := .sleeping, chan := some k, pc := .asleep k } }
  | got {p : ι} {k : κ} (hpc : (s.procs p).pc = .got k) :
      Steps s { s with
        spin := upd s.spin k none
        procs := upd s.procs p { s.procs p with pc := .idle, held := k :: (s.procs p).held } }
  | clear {p : ι} {k : κ} (hpc : (s.procs p).pc = .clear k) :
      Steps s ({ s with locked := upd s.locked k false }.goto p (.wake k))
  | wake {p : ι} {k : κ} (hpc : (s.procs p).pc = .wake k) (hpt : s.ptable = none) :
      Steps s ({ s with procs := fun q => (s.procs q).wakeup k }.goto p (.leave k))
  | leave {p : ι} {k : κ} (hpc : (s.procs p).pc = .leave k) :
      Steps s ({ s with spin := upd s.spin k none }.goto p .idle)
  /-- `kill` and `yield` change only the state of a process, and never to SLEEPING. -/
  | restate {p : ι} {st : ProcState} (hst : st = .sleeping → (s.procs p).state = .sleeping) :
      Steps s { s with procs := upd s.procs p { s.procs p with state := st } }
  | rise {p : ι} {k : κ} (hpc : (s.procs p).pc = .asleep k) :
      Steps s { s with
        procs := upd s.procs p { s.procs p with state := .running, chan := none, pc := .reacquire k } }

theorem spinAcquire_steps {pc : Pc κ} (hpc : Gains k (s.procs p).pc pc) (h : s.spinAcquire p k pc = some s') :
    Steps s s' := by
  obtain ⟨hfree, he⟩ := Option.ite_none_right_eq_some.mp h
  cases he
  exact .gain hpc hfree

theorem run_steps (h : s.run p = some s') : Steps s s' := by
  unfold State.run at h
  cases hpc : (s.procs p).pc with
  | idle =>
      rw [hpc] at h
      cases h
  | asleep k =>
      rw [hpc] at h
      cases h
  | enter k =>
      rw [hpc] at h
      exact spinAcquire_steps (hpc ▸ .enter) h
  | reacquire k =>
      rw [hpc] at h
      exact spinAcquire_steps (hpc ▸ .reacquire) h
  | release k =>
      rw [hpc] at h
      exact spinAcquire_steps (hpc ▸ .release) h
  | test k =>
      rw [hpc] at h
      dsimp only at h
      split at h
      · rename_i hl
        cases h
        exact .busy hpc hl
      · rename_i hl
        cases h
        exact .take hpc (Bool.not_eq_true _ ▸ hl)
  | sleep k =>
      rw [hpc] at h
      obtain ⟨hpt, he⟩ := Option.ite_none_right_eq_some.mp h
      cases he
      exact .sleep hpc hpt
  | fall k =>
      rw [hpc] at h
      cases h
      exact .doze hpc
  | got k =>
      rw [hpc] at h
      cases h
      exact .got hpc
  | clear k =>
      rw [hpc] at h
      cases h
      exact .clear hpc
  | wake k =>
      rw [hpc] at h
      obtain ⟨hpt, he⟩ := Option.ite_none_right_eq_some.mp h
      cases he
      exact .wake hpc hpt
  | leave k =>
      rw [hpc] at h
      cases h
      exact .leave hpc

theorem step_steps {a : Action ι κ} (h : s.step a = some s') : Steps s s' := by
  cases a with
  | acquireSleep p k =>
      obtain ⟨hc, he⟩ := Option.ite_none_right_eq_some.mp h
      cases he
      exact .call hc.2
  | releaseSleep p k =>
      obtain ⟨hc, he⟩ := Option.ite_none_right_eq_some.mp h
      cases he
      exact .giveBack hc.2.1 hc.2.2
  | run p => exact run_steps (Option.ite_none_right_eq_some.mp h).2
  | kill p =>
      obtain ⟨-, he⟩ := Option.ite_none_right_eq_some.mp h
      cases he
      refine .restate fun hst => ?_
      split at hst
      · cases hst
      · exact hst
  | schedule p =>
      obtain ⟨-, he⟩ := Option.ite_none_right_eq_some.mp h
      cases he
      unfold Proc.scheduled
      split
      · rename_i k hpc
        exact .rise hpc
      · exact .restate fun hst => by cases hst
  | yield p =>
      obtain ⟨-, he⟩ := Option.ite_none_right_eq_some.mp h
      cases he
      exact .restate fun hst => by cases hst

/-! ## Spin locks -/

/-- The owner of an inner spin lock is the process whose place says that it has it. -/
def Spins (s : State ι κ) : Prop := ∀ k p, s.spin k = some p ↔ (s.procs p).pc.inner = some k

omit [DecidableEq κ] in
theorem inner_upd (f : ι → Proc κ) (p : ι) (x : Proc κ) (q : ι) :
    (upd f p x q).pc.inner = if q = p then x.pc.inner else (f q).pc.inner := by
  unfold upd
  split <;> rfl

@[simp] theorem wakeup_pc (k : κ) (x : Proc κ) : (x.wakeup k).pc = x.pc := by
  unfold Proc.wakeup
  split <;> rfl

@[simp] theorem wakeup_held (k : κ) (x : Proc κ) : (x.wakeup k).held = x.held := by
  unfold Proc.wakeup
  split <;> rfl

omit [DecidableEq κ] in
theorem Gains.inner {pc pc' : Pc κ} (h : Gains k pc pc') : pc.inner = none ∧ pc'.inner = some k := by
  cases h <;> exact ⟨rfl, rfl⟩

namespace Spins

omit [DecidableEq ι] [DecidableEq κ] in
theorem start (h : Starts s) : Spins s := by
  intro k p
  rw [h.spin, (h.idle p).1]
  constructor <;> intro he <;> cases he

omit [DecidableEq ι] [DecidableEq κ] in
/-- Two processes do not have one spin lock. -/
theorem unique (h : Spins s) (hp : (s.procs p).pc.inner = some k) (hq : (s.procs q).pc.inner = some k) : p = q := by
  have he := (h k p).mpr hp
  rw [(h k q).mpr hq] at he
  exact (Option.some.inj he).symm

omit [DecidableEq ι] [DecidableEq κ] in
/-- No spin lock changes hands. -/
theorem keep (h : Spins s) (hspin : s'.spin = s.spin) (hinner : ∀ q, (s'.procs q).pc.inner = (s.procs q).pc.inner) :
    Spins s' := by
  intro k q
  rw [hspin, hinner]
  exact h k q

omit [DecidableEq κ] in
/-- The process `p` goes on, with or without a spin lock as before. -/
theorem move (h : Spins s) (hspin : s'.spin = s.spin) {x : Proc κ} (hprocs : s'.procs = upd s.procs p x)
    (hx : x.pc.inner = (s.procs p).pc.inner) : Spins s' := by
  refine h.keep hspin fun q => ?_
  rw [hprocs, inner_upd]
  split
  · rename_i hq
    rw [hq, hx]
  · rfl

/-- The process `p` takes a free spin lock. -/
theorem gain (h : Spins s) (hspin : s'.spin = upd s.spin k (some p)) {x : Proc κ} (hprocs : s'.procs = upd s.procs p x)
    (hfree : s.spin k = none) (hp : (s.procs p).pc.inner = none) (hx : x.pc.inner = some k) : Spins s' := by
  intro j q
  rw [hspin, hprocs, inner_upd]
  by_cases hj : j = k
  · subst hj
    rw [upd_self]
    by_cases hq : q = p
    · simp [hq, hx]
    · have hno := h j q
      rw [hfree] at hno
      simp only [if_neg hq, ← hno, Option.some.injEq]
      exact ⟨fun he => absurd he.symm hq, (fun he => by cases he)⟩
  · rw [upd_of_ne hj, h j q]
    by_cases hq : q = p
    · simp only [hq, hp, hx, ↓reduceIte, Option.some.injEq]
      exact ⟨(fun he => by cases he), fun he => absurd he.symm hj⟩
    · rw [if_neg hq]

/-- The process `p` gives its spin lock back. -/
theorem drop (h : Spins s) (hspin : s'.spin = upd s.spin k none) {x : Proc κ} (hprocs : s'.procs = upd s.procs p x)
    (hp : (s.procs p).pc.inner = some k) (hx : x.pc.inner = none) : Spins s' := by
  intro j q
  rw [hspin, hprocs, inner_upd]
  by_cases hq : q = p
  · rw [if_pos hq, hx]
    refine ⟨fun he => ?_, (fun he => by cases he)⟩
    by_cases hj : j = k
    · rw [hj, upd_self] at he
      cases he
    · rw [upd_of_ne hj, h j q, hq, hp] at he
      exact absurd (Option.some.inj he).symm hj
  · rw [if_neg hq]
    by_cases hj : j = k
    · rw [hj, upd_self]
      refine ⟨(fun he => by cases he), fun he => ?_⟩
      exact absurd (h.unique he hp) hq
    · rw [upd_of_ne hj, h j q]

theorem step (h : Spins s) (hs : Steps s s') : Spins s' := by
  cases hs with
  | call hpc => exact h.move rfl rfl (by rw [hpc]; rfl)
  | giveBack hpc hk => exact h.move rfl rfl (by rw [hpc]; rfl)
  | gain hpc hfree => exact h.gain rfl rfl hfree hpc.inner.1 hpc.inner.2
  | busy hpc hl => exact h.move rfl rfl (by rw [hpc]; rfl)
  | take hpc hl => exact h.move rfl rfl (by rw [hpc]; rfl)
  | sleep hpc hpt => exact h.drop rfl rfl (by rw [hpc]; rfl) rfl
  | doze hpc => exact h.move rfl rfl (by rw [hpc]; rfl)
  | got hpc => exact h.drop rfl rfl (by rw [hpc]; rfl) rfl
  | clear hpc => exact h.move rfl rfl (by rw [hpc]; rfl)
  | @wake p k hpc hpt =>
      refine h.keep rfl fun q => ?_
      simp only [State.goto, inner_upd, wakeup_pc]
      split
      · rename_i hq
        rw [hq, hpc]
        rfl
      · rfl
  | leave hpc => exact h.drop rfl rfl (by rw [hpc]; rfl) rfl
  | restate hst => exact h.move rfl rfl rfl
  | rise hpc => exact h.move rfl rfl (by rw [hpc]; rfl)

end Spins

end Xv6.Sleeplock
