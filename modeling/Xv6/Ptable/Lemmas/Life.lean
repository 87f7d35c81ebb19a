import Xv6.Ptable.Lemmas.Family

/-!
# Waiting, pids and being killed

Invariants of the process table beside its family tree: nobody waits for a child that has ended, a pid is
used once, and a process is killed only by its own pid.
-/

namespace Xv6.Ptable

open Xv6.Lib Xv6.Kernel

variable {s s' : State} {p q : ProcId} {g : Proc → Proc} {ph : Phase}

/-! ## Waiting -/

/-- Nobody sleeps in `wait` that has a child which has ended. -/
def Rested (s : State) : Prop :=
  ∀ p c, (s.procs p).state = .sleeping → (s.procs p).chan = some (.proc p) → (s.procs c).parent = some p →
    (s.procs c).state ≠ .zombie

theorem Rested.quiet (h : Rested s) (hq : Quiet s s') : Rested s' := by
  intro p c hs hc hp hz
  rw [hq.parent] at hp
  rw [hq.zombie] at hz
  rcases hq.waits p hs hc with ⟨hs, hc⟩ | hn
  · exact h p c hs hc hp hz
  · exact hn c hp hz

theorem Touches.state (ht : Touches s s' p q g ph) {x : ProcId} (hx : x ≠ q) :
    (s'.procs x).state = (s.procs x).state ∧ (s'.procs x).chan = (s.procs x).chan ∧
      (s'.procs x).killed = (s.procs x).killed := by
  by_cases hp : x = p
  · rw [hp, ht.self]
    exact ⟨rfl, rfl, rfl⟩
  · rw [ht.other x hp hx]
    exact ⟨rfl, rfl, rfl⟩

/-- The slot is neither asleep nor a process that has ended. -/
theorem Rested.touch (h : Rested s) (ht : Touches s s' p q g ph) (hs : (s'.procs q).state ≠ .sleeping)
    (hz : (s'.procs q).state ≠ .zombie) : Rested s' := by
  intro x c hsx hcx hpc hzc
  have hx : x ≠ q := fun hc => hs (hc ▸ hsx)
  have hc : c ≠ q := fun hc => hz (hc ▸ hzc)
  rw [(ht.state hx).1] at hsx
  rw [(ht.state hx).2.1] at hcx
  rw [ht.parent hc] at hpc
  rw [(ht.state hc).1] at hzc
  exact h x c hsx hcx hpc hzc

/-- A process that sleeps after `wakeup_pure` slept before, on another channel. -/
theorem sleeping_wakeupPure {c : Chan} {x : ProcId} (h : ((wakeupPure s c).procs x).state = .sleeping) :
    (s.procs x).state = .sleeping ∧ (s.procs x).chan ≠ some c := sleeping_of_wakeup h

theorem sleeping_wakeParent {x : ProcId} (h : ((wakeParent s p).procs x).state = .sleeping) :
    (s.procs x).state = .sleeping ∧ ((s.procs p).parent = some x → (s.procs x).chan ≠ some (.proc x)) := by
  unfold wakeParent at h
  split at h
  · rename_i hn
    refine ⟨h, fun hc => ?_⟩
    rw [hn] at hc
    cases hc
  · rename_i y hy
    obtain ⟨hs, hc⟩ := sleeping_wakeupPure h
    refine ⟨hs, fun hx => ?_⟩
    rw [hy] at hx
    cases hx
    exact hc

theorem chan_wakeParent (x : ProcId) : ((wakeParent s p).procs x).chan = (s.procs x).chan := by
  unfold wakeParent
  split
  · rfl
  · exact wakeup_chan _ _

theorem chan_adopt (x : ProcId) : ((adopt s p).procs x).chan = (s.procs x).chan := by
  rcases adopt_procs s p x with h | ⟨_, h⟩
  · rw [h, adopt_chan]
  · rw [h, wakeup_chan, adopt_chan]

theorem sleeping_adopt {x : ProcId} (h : ((adopt s p).procs x).state = .sleeping) :
    (s.procs x).state = .sleeping ∧ (x = s.initProc →
      (∃ c, (s.procs c).parent = some p ∧ (s.procs c).state = .zombie) → (s.procs x).chan ≠ some (.proc x)) := by
  unfold adopt at h
  dsimp only at h
  split at h
  · obtain ⟨hs, hc⟩ := sleeping_wakeupPure h
    rw [adopt_state] at hs
    rw [adopt_chan] at hc
    refine ⟨hs, ?_⟩
    rintro rfl _
    exact hc
  · rename_i hn
    rw [adopt_state] at h
    exact ⟨h, fun _ hz => absurd hz hn⟩

theorem Rested.exits (h : Rested s) (hirr : (s.procs p).parent ≠ some p) : Rested (exit s p) := by
  intro x c hsx hcx hpc hzc
  have he := Ptable.exits s p
  have hw := Quiet.wakeParent s p
  have hslot : ∀ y, y ≠ p → (exit s p).procs y = (adopt (wakeParent s p) p).procs y := by
    intro y hy
    rw [exit_eq, record_procs, modifyProc_of_ne hy]
  have hxp : x ≠ p := by
    rintro rfl
    rw [exit_eq, record_procs, modifyProc_self] at hsx
    cases hsx
  -- who sleeps now slept before, and was not woken
  rw [hslot x hxp] at hsx hcx
  obtain ⟨hs₁, hinit⟩ := sleeping_adopt hsx
  obtain ⟨hs, hpar⟩ := sleeping_wakeParent hs₁
  rw [chan_adopt, chan_wakeParent] at hcx
  rw [he.parent] at hpc
  by_cases hc : c = p
  · subst hc
    rw [if_neg hirr] at hpc
    exact hpar hpc hcx
  · have hz : (s.procs c).state = .zombie := by
      have := he.kind c
      rw [if_neg hc, State.kindOf, State.kindOf, hzc] at this
      exact kind_eq_zombie.mp this.symm
    split at hpc
    · -- a child of the process that ends
      rename_i hcp
      have hx : x = (wakeParent s p).initProc := by
        rw [hw.initProc]
        exact (Option.some.inj hpc).symm
      refine hinit hx ⟨c, ?_, ?_⟩ ?_
      · rw [hw.parent]
        exact hcp
      · rw [hw.zombie]
        exact hz
      · rw [chan_wakeParent]
        exact hcx
    · exact h x c hs hcx hpc hz

theorem Rested.killed (h : Rested s) (q : ProcId) (pid : Nat) : Rested (killed s q pid) := by
  intro x c hsx hcx hpc hzc
  have hk := killed_slot s q pid
  have hz : (s.procs c).state = .zombie := kind_eq_zombie.mp ((hk c).1.symm.trans (kind_eq_zombie.mpr hzc))
  rw [(hk c).2.2.1] at hpc
  by_cases hx : x = q
  · subst hx
    rw [Ptable.killed, record_procs, modifyProc_self] at hsx
    dsimp only at hsx
    split at hsx
    · cases hsx
    · contradiction
  · rw [Ptable.killed, record_procs, modifyProc_of_ne hx] at hsx hcx
    exact h x c hsx hcx hpc hz

theorem Effect.rested {a : Action} (hf : Forks s) (hfam : Family s) (h : Rested s) (he : Effect s a s') :
    Rested s' := by
  cases he with
  | quiet => exact h
  | alloc hp _ hq =>
      have ht := touches_forked hp hq
      exact h.touch ht (by rw [ht.child]; simp) (by rw [ht.child]; simp)
  | fail hst =>
      have ht := touches_forkFail hf hst
      exact h.touch ht (by rw [ht.child]; simp) (by rw [ht.child]; simp)
  | @parent _ p q hst =>
      have ht := touches_parented hf hst
      have hk := kind_parented hf hst
      refine h.touch ht (fun hc => ?_) (fun hc => ?_) <;>
      · rw [State.kindOf, hc] at hk
        cases hk
  | start hst =>
      have ht := touches_forkRun hf hst
      exact h.touch ht (by rw [ht.child]; simp) (by rw [ht.child]; simp)
  | reap hp _ _ hz =>
      have ht := touches_reap hp hz
      exact h.touch ht (by rw [ht.child]; simp) (by rw [ht.child]; simp)
  | exit hp _ _ => exact h.exits (hfam.irrefl (.inl hp))
  | kill => exact h.killed _ _

theorem rested (h : machine.Reachable s) : Rested s := by
  refine (h.invariant (P := fun s => (Forks s ∧ Family s) ∧ Rested s) ?_ ?_).2
  · rintro _ rfl
    refine ⟨⟨forks_initial, family_initial⟩, fun p c hs => ?_⟩
    by_cases hp : p = initial.initProc
    · rw [hp] at hs
      cases hs
    · rw [initial_slot p hp] at hs
      cases hs
  · intro s a s' ⟨⟨hf, hfam⟩, h⟩ hs
    obtain ⟨s₁, hq, he⟩ := step_effect hs
    exact ⟨he.family (hf.quiet hq) (hfam.quiet hq), he.rested (hf.quiet hq) (hfam.quiet hq) (h.quiet hq)⟩

/-! ## Pids -/

theorem pidOf_inj {m n : Nat} (hm : m < 2 ^ 32) (hn : n < 2 ^ 32) (h : pidOf m = pidOf n) : m = n := by
  unfold pidOf at h
  split at h <;> split at h <;> omega

/-- The child that a `wait` returned. -/
def Event.child : Event → Option Nat
  | .waited _ d => some d
  | _ => none

/-- As long as `next_pid` has not come round, a pid is used for one process and returned by one `wait`. -/
structure Pids (s : State) : Prop where
  next : s.nextPid ≤ s.forks + 2
  range : ∀ {q}, s.kindOf q ≠ .unused → ∃ k, k < s.nextPid ∧ (s.procs q).pid = pidOf k
  distinct : ∀ {p q}, s.kindOf p ≠ .unused → s.kindOf q ≠ .unused → (s.procs p).pid = (s.procs q).pid → p = q
  waited : ∀ {d}, d ∈ s.log.filterMap Event.child →
    (∃ k, k < s.nextPid ∧ d = pidOf k) ∧ ∀ q, s.kindOf q ≠ .unused → (s.procs q).pid ≠ d
  once : (s.log.filterMap Event.child).Nodup

/-- No slot comes into use, and no `wait` returns a child. -/
theorem Pids.keep (h : Pids s)
    (hkeep : ∀ {x}, s'.kindOf x ≠ .unused → s.kindOf x ≠ .unused ∧ (s'.procs x).pid = (s.procs x).pid)
    (hnext : s'.nextPid = s.nextPid) (hforks : s.forks ≤ s'.forks)
    (hlog : s'.log.filterMap Event.child = s.log.filterMap Event.child) : Pids s' where
  next := by
    rw [hnext]
    exact Nat.le_trans h.next (Nat.add_le_add_right hforks 2)
  range hq := by
    rw [(hkeep hq).2, hnext]
    exact h.range (hkeep hq).1
  distinct hp hq heq := by
    rw [(hkeep hp).2, (hkeep hq).2] at heq
    exact h.distinct (hkeep hp).1 (hkeep hq).1 heq
  waited hd := by
    rw [hlog] at hd
    rw [hnext]
    refine ⟨(h.waited hd).1, fun q hq => ?_⟩
    rw [(hkeep hq).2]
    exact (h.waited hd).2 q (hkeep hq).1
  once := by
    rw [hlog]
    exact h.once

theorem Pids.quiet (h : Pids s) (hq : Quiet s s') : Pids s' := by
  refine h.keep (fun {x} hx => ⟨?_, hq.pid x⟩) hq.nextPid hq.forks (by rw [hq.log])
  rw [hq.kind] at hx
  exact hx

theorem Pids.forked (h : Pids s) (hp : s.kindOf p = .alive) (hq : s.kindOf q = .unused) (hforks : s.forks < 2 ^ 31) :
    Pids (forked s p q) := by
  have ht := touches_forked hp hq
  have hpid : ((Ptable.forked s p q).procs q).pid = pidOf s.nextPid := by rw [ht.child]
  have hnext : (Ptable.forked s p q).nextPid = s.nextPid + 1 := by
    have := h.next
    exact Nat.mod_eq_of_lt (by omega)
  have hold : ∀ {x}, x ≠ q → (Ptable.forked s p q).kindOf x ≠ .unused →
      s.kindOf x ≠ .unused ∧ ((Ptable.forked s p q).procs x).pid = (s.procs x).pid := by
    intro x hx hk
    rw [ht.kind hx] at hk
    exact ⟨hk, ht.pid hx⟩
  -- the new pid is above all pids so far
  have hnew : ∀ {k}, k < s.nextPid → pidOf s.nextPid ≠ pidOf k := by
    intro k hk hc
    have := h.next
    have := pidOf_inj (by omega) (by omega) hc
    omega
  have hfresh : ∀ {x}, x ≠ q → (Ptable.forked s p q).kindOf x ≠ .unused →
      ((Ptable.forked s p q).procs x).pid ≠ pidOf s.nextPid := by
    intro x hx hk hc
    obtain ⟨k, hk', hkx⟩ := h.range (hold hx hk).1
    rw [(hold hx hk).2, hkx] at hc
    exact hnew hk' hc.symm
  refine ⟨?_, fun {x} hx => ?_, fun {x y} hx hy heq => ?_, fun {d} hd => ?_, h.once⟩
  · rw [hnext]
    exact Nat.succ_le_succ h.next
  · rw [hnext]
    by_cases hxq : x = q
    · exact ⟨s.nextPid, Nat.lt_succ_self _, by rw [hxq, hpid]⟩
    · obtain ⟨k, hk, hkx⟩ := h.range (hold hxq hx).1
      exact ⟨k, Nat.lt_succ_of_lt hk, (hold hxq hx).2.trans hkx⟩
  · by_cases hxq : x = q
    · subst hxq
      by_contra hne
      exact hfresh (Ne.symm hne) hy (heq.symm.trans hpid)
    · by_cases hyq : y = q
      · subst hyq
        exact absurd (heq.trans hpid) (hfresh hxq hx)
      · rw [(hold hxq hx).2, (hold hyq hy).2] at heq
        exact h.distinct (hold hxq hx).1 (hold hyq hy).1 heq
  · obtain ⟨⟨k, hk, hkd⟩, hd'⟩ := h.waited hd
    rw [hnext]
    refine ⟨⟨k, Nat.lt_succ_of_lt hk, hkd⟩, fun x hx => ?_⟩
    by_cases hxq : x = q
    · rw [hxq, hpid, hkd]
      exact hnew hk
    · rw [(hold hxq hx).2]
      exact hd' x (hold hxq hx).1

theorem Pids.reap (h : Pids s) (hp : s.kindOf p = .alive) (hz : s.kindOf q = .zombie) : Pids (reap s p q) := by
  have ht := touches_reap hp hz
  have hq : s.kindOf q ≠ .unused := by
    rw [hz]
    simp
  have hold : ∀ {x}, (Ptable.reap s p q).kindOf x ≠ .unused →
      x ≠ q ∧ s.kindOf x ≠ .unused ∧ ((Ptable.reap s p q).procs x).pid = (s.procs x).pid := by
    intro x hx
    have hne : x ≠ q := by
      rintro rfl
      exact hx (kind_reap hp hz)
    rw [ht.kind hne] at hx
    exact ⟨hne, hx, ht.pid hne⟩
  have hlog : (Ptable.reap s p q).log.filterMap Event.child =
      s.log.filterMap Event.child ++ [(s.procs q).pid] := by
    change (s.log ++ [Event.waited _ _]).filterMap Event.child = _
    rw [List.filterMap_append]
    rfl
  refine ⟨h.next, fun hx => ?_, fun hx hy heq => ?_, fun {d} hd => ?_, ?_⟩
  · rw [(hold hx).2.2]
    exact h.range (hold hx).2.1
  · rw [(hold hx).2.2, (hold hy).2.2] at heq
    exact h.distinct (hold hx).2.1 (hold hy).2.1 heq
  · rw [hlog, List.mem_append, List.mem_singleton] at hd
    rcases hd with hd | rfl
    · refine ⟨(h.waited hd).1, fun x hx => ?_⟩
      rw [(hold hx).2.2]
      exact (h.waited hd).2 x (hold hx).2.1
    · refine ⟨h.range hq, fun x hx heq => ?_⟩
      rw [(hold hx).2.2] at heq
      exact (hold hx).1 (h.distinct (hold hx).2.1 hq heq)
  · rw [hlog, List.nodup_append]
    refine ⟨h.once, List.nodup_singleton _, fun a ha b hb hab => ?_⟩
    rw [List.mem_singleton] at hb
    subst hb
    subst hab
    exact (h.waited ha).2 q hq rfl

/-- An event that is not a `wait`. -/
theorem filterMap_record {log : List Event} {e : Event} (he : e.child = none) :
    (log ++ [e]).filterMap Event.child = log.filterMap Event.child := by
  rw [List.filterMap_append, List.filterMap_cons_none he, List.filterMap_nil, List.append_nil]

theorem Touches.pids (ht : Touches s s' p q g ph) (hq : s.kindOf q ≠ .unused)
    (hpid : (s'.procs q).pid = (s.procs q).pid) {x : ProcId} (hx : s'.kindOf x ≠ .unused) :
    s.kindOf x ≠ .unused ∧ (s'.procs x).pid = (s.procs x).pid := by
  by_cases hxq : x = q
  · rw [hxq]
    exact ⟨hq, hpid⟩
  · rw [ht.kind hxq] at hx
    exact ⟨hx, ht.pid hxq⟩

theorem Effect.pids {a : Action} (hf : Forks s) (h : Pids s) (hforks : s.forks < 2 ^ 31) (he : Effect s a s') :
    Pids s' := by
  cases he with
  | quiet => exact h
  | alloc hp _ hq => exact h.forked hp hq hforks
  | fail hst =>
      have ht := touches_forkFail hf hst
      exact h.keep (ht.pids (by rw [(hf.child hst).1]; simp) (by rw [ht.child])) rfl (Nat.le_refl _) rfl
  | parent hst =>
      have ht := touches_parented hf hst
      exact h.keep (ht.pids (by rw [(hf.child hst).1]; simp) (by rw [ht.child])) rfl (Nat.le_refl _) rfl
  | start hst =>
      have ht := touches_forkRun hf hst
      exact h.keep (ht.pids (by rw [(hf.child hst).1]; simp) (by rw [ht.child])) rfl (Nat.le_refl _)
        (filterMap_record rfl)
  | reap hp _ _ hz => exact h.reap hp hz
  | @exit _ p hp _ _ =>
      have he := exits s p
      refine h.keep (fun {x} hx => ⟨?_, he.pid x⟩) he.nextPid (Nat.le_of_eq he.forks.symm) ?_
      · rw [he.kind] at hx
        split at hx
        · rename_i hxp
          rw [hxp, hp]
          simp
        · exact hx
      · rw [he.log]
        exact filterMap_record rfl
  | @kill p q pid _ =>
      have hk := killed_slot s q pid
      refine h.keep (fun {x} hx => ⟨?_, (hk x).2.1⟩) rfl (Nat.le_refl _) (filterMap_record rfl)
      rw [(hk x).1] at hx
      exact hx

theorem Effect.forks_le {a : Action} (he : Effect s a s') : s.forks ≤ s'.forks := by
  cases he with
  | alloc => exact Nat.le_succ _
  | exit => exact Nat.le_of_eq (exits s _).forks.symm
  | _ => exact Nat.le_refl _

theorem pids_initial : Pids initial := by
  have hk : ∀ {x}, initial.kindOf x ≠ .unused → x = initial.initProc := by
    intro x hx
    by_contra hne
    rw [State.kindOf, initial_slot x hne] at hx
    exact hx rfl
  refine ⟨Nat.le_refl _, fun hx => ?_, fun hx hy _ => (hk hx).trans (hk hy).symm, (fun hd => by cases hd),
    List.nodup_nil⟩
  rw [hk hx]
  exact ⟨1, by decide, rfl⟩

theorem pids (h : machine.Reachable s) (hforks : s.forks < 2 ^ 31) : Pids s := by
  refine (h.invariant (P := fun s => (Forks s ∧ Family s) ∧ (s.forks < 2 ^ 31 → Pids s)) ?_ ?_).2 hforks
  · rintro _ rfl
    exact ⟨⟨forks_initial, family_initial⟩, fun _ => pids_initial⟩
  · intro s a s' ⟨⟨hf, hfam⟩, h⟩ hs
    obtain ⟨s₁, hq, he⟩ := step_effect hs
    refine ⟨he.family (hf.quiet hq) (hfam.quiet hq), fun hlt => ?_⟩
    have hlt₁ : s₁.forks < 2 ^ 31 := Nat.lt_of_le_of_lt he.forks_le hlt
    exact he.pids (hf.quiet hq) ((h (Nat.lt_of_le_of_lt hq.forks hlt₁)).quiet hq) hlt₁

/-! ## Being killed -/

/-- A `kill` names a process, and not a slot that is free or being filled. -/
def NamesProc (s : State) (pid : Nat) : Prop :=
  ∀ q, (s.procs q).pid = pid → (s.procs q).state ≠ .unused ∧ (s.procs q).state ≠ .embryo

instance (s : State) (pid : Nat) : Decidable (NamesProc s pid) := by
  unfold NamesProc
  infer_instance

/-- Every `kill` names a process. -/
def KillsProc (s : State) : Action → Prop
  | .kill _ pid => NamesProc s pid
  | _ => True

/-- The record has a `kill` of the process, after it was made. -/
def Blamed (s : State) (q : ProcId) : Prop :=
  ∃ l₁ l₂, s.log = l₁ ++ .killed (s.procs q).pid :: l₂ ∧
    (q = s.initProc ∨ ∃ par, .forked par (s.procs q).pid ∈ l₁)

structure Unharmed (s : State) : Prop where
  fresh : ∀ {q}, ¬ (s.kindOf q).Born → (s.procs q).killed = false
  blamed : ∀ {q}, (s.kindOf q).Born → (s.procs q).killed = true → Blamed s q

theorem Blamed.keep (h : Blamed s q) (hpid : (s'.procs q).pid = (s.procs q).pid) (hinit : s'.initProc = s.initProc)
    {l : List Event} (hlog : s'.log = s.log ++ l) : Blamed s' q := by
  obtain ⟨l₁, l₂, hl, hq⟩ := h
  rw [Blamed, hpid, hinit]
  exact ⟨l₁, l₂ ++ l, by rw [hlog, hl, List.append_assoc, List.cons_append], hq⟩

/-- Nobody else is killed, and a process that comes or goes is not. -/
theorem Unharmed.keep (h : Unharmed s)
    (hkeep : ∀ x, (s'.procs x).killed = false ∨ (s'.procs x).killed = (s.procs x).killed ∧
      (s'.procs x).pid = (s.procs x).pid ∧ ((s'.kindOf x).Born ↔ (s.kindOf x).Born))
    (hinit : s'.initProc = s.initProc) {l : List Event} (hlog : s'.log = s.log ++ l) : Unharmed s' where
  fresh {q} hq := by
    rcases hkeep q with hk | ⟨hk, _, hb⟩
    · exact hk
    · rw [hb] at hq
      rw [hk]
      exact h.fresh hq
  blamed {q} hq hkl := by
    rcases hkeep q with hk | ⟨hk, hpid, hb⟩
    · rw [hk] at hkl
      cases hkl
    · rw [hb] at hq
      rw [hk] at hkl
      exact (h.blamed hq hkl).keep hpid hinit hlog

theorem Unharmed.quiet (h : Unharmed s) (hq : Quiet s s') : Unharmed s' := by
  refine h.keep (fun x => .inr ⟨hq.killed x, hq.pid x, ?_⟩) hq.initProc (l := []) (by rw [hq.log, List.append_nil])
  rw [hq.kind]

/-- The slot is not killed afterwards. -/
theorem Unharmed.touch (h : Unharmed s) (ht : Touches s s' p q g ph) (hq : (s'.procs q).killed = false)
    {l : List Event} (hlog : s'.log = s.log ++ l) : Unharmed s' := by
  refine h.keep (fun x => ?_) ht.initProc hlog
  by_cases hx : x = q
  · rw [hx]
    exact .inl hq
  · rw [ht.kind hx]
    exact .inr ⟨(ht.state hx).2.2, ht.pid hx, Iff.rfl⟩

theorem Unharmed.killed {pid : Nat} (h : Unharmed s) (hfam : Family s) (hq : (s.procs q).pid = pid)
    (hb : (s.kindOf q).Born) : Unharmed (killed s q pid) := by
  have hk := killed_slot s q pid
  have hother : ∀ {x}, x ≠ q → ((Ptable.killed s q pid).procs x).killed = (s.procs x).killed := by
    intro x hx
    rw [Ptable.killed, record_procs, modifyProc_of_ne hx]
  refine ⟨fun {x} hx => ?_, fun {x} hx hkl => ?_⟩
  · rw [(hk x).1] at hx
    have hne : x ≠ q := by
      rintro rfl
      exact hx hb
    rw [hother hne]
    exact h.fresh hx
  · rw [(hk x).1] at hx
    by_cases hxq : x = q
    · subst hxq
      refine ⟨s.log, [], ?_, ?_⟩
      · rw [(hk x).2.1, hq]
        rfl
      · rw [(hk x).2.1]
        by_cases hi : x = s.initProc
        · exact .inl hi
        · obtain ⟨par, hf, _⟩ := hfam.born hi hx
          exact .inr ⟨par, hf⟩
    · rw [hother hxq] at hkl
      exact (h.blamed hx hkl).keep (hk x).2.1 rfl (l := [.killed pid]) rfl

theorem born_of_state (h : (s.procs q).state ≠ .unused ∧ (s.procs q).state ≠ .embryo) : (s.kindOf q).Born := by
  unfold State.kindOf Kind.Born
  cases hs : (s.procs q).state <;> simp_all [kind]

theorem Effect.unharmed {a : Action} (hf : Forks s) (hfam : Family s) (h : Unharmed s)
    (hcond : ∀ p pid, a = .kill p pid → ∀ q, (s.procs q).pid = pid → (s.kindOf q).Born) (he : Effect s a s') :
    Unharmed s' := by
  cases he with
  | quiet => exact h
  | alloc hp _ hq =>
      have ht := touches_forked hp hq
      refine h.touch ht ?_ (l := []) (List.append_nil _).symm
      rw [ht.child]
      exact h.fresh (by rw [hq]; exact not_born_unused)
  | fail hst =>
      have ht := touches_forkFail hf hst
      refine h.touch ht ?_ (l := []) (List.append_nil _).symm
      rw [ht.child]
      exact h.fresh (by rw [(hf.child hst).1]; exact not_born_embryo)
  | parent hst =>
      have ht := touches_parented hf hst
      refine h.touch ht ?_ (l := []) (List.append_nil _).symm
      rw [ht.child]
      exact h.fresh (by rw [(hf.child hst).1]; exact not_born_embryo)
  | start hst =>
      have ht := touches_forkRun hf hst
      refine h.touch ht ?_ rfl
      rw [ht.child]
      exact h.fresh (by rw [(hf.child hst).1]; exact not_born_embryo)
  | reap hp _ _ hz =>
      have ht := touches_reap hp hz
      refine h.touch ht ?_ rfl
      rw [ht.child]
  | @exit _ p hp _ _ =>
      have he := exits s p
      refine h.keep (fun x => .inr ⟨he.killed x, he.pid x, ?_⟩) he.initProc he.log
      refine ⟨he.born hp, fun hb => ?_⟩
      rw [he.kind]
      split
      · exact .inr rfl
      · exact hb
  | @kill p q pid hq => exact h.killed hfam hq (hcond p pid rfl q hq)

theorem unharmed (h : machine.ReachableIf KillsProc s) : Unharmed s := by
  refine h.invariant (P := Unharmed) ?_ ?_
  · rintro _ rfl
    have hk : ∀ x, (initial.procs x).killed = false := by
      intro x
      by_cases hx : x = initial.initProc
      · rw [hx]
        rfl
      · rw [initial_slot x hx]
    refine ⟨fun {q} _ => hk q, fun {q} _ hkl => ?_⟩
    rw [hk q] at hkl
    cases hkl
  · intro s a s' hr h hc hs
    obtain ⟨hf, hfam⟩ := families hr.reachable
    obtain ⟨s₁, hq, he⟩ := step_effect hs
    refine he.unharmed (hf.quiet hq) (hfam.quiet hq) (h.quiet hq) ?_
    rintro p pid rfl q hpid
    rw [hq.pid] at hpid
    rw [hq.kind]
    exact born_of_state (hc q hpid)

end Xv6.Ptable
