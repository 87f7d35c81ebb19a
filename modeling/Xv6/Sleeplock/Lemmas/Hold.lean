import Xv6.Sleeplock.Lemmas.Step

/-!
# Holders and sleepers

A lock has at most one holder. A process that sleeps on a lock, or is about to, finds the lock held, or
another process is about to wake it.
-/

namespace Xv6.Sleeplock

open Xv6.Lib Xv6.Kernel

variable {ι κ : Type} [DecidableEq ι] [DecidableEq κ] {s s' : State ι κ} {p q : ι} {k : κ} {x : Proc κ}

/-! ## Holders -/

/-- The lock that a process has, although it is in a call. -/
def Pc.owns : Pc κ → List κ
  | .got k | .release k | .clear k => [k]
  | _ => []

/-- The locks that a process has set and not cleared. -/
def Proc.owned (x : Proc κ) : List κ := x.pc.owns ++ x.held

omit [DecidableEq κ] in
theorem Gains.owns {pc pc' : Pc κ} (h : Gains k pc pc') : pc'.owns = pc.owns := by
  cases h <;> rfl

structure Owners (s : State ι κ) : Prop where
  locked : ∀ p, ∀ k ∈ (s.procs p).owned, s.locked k = true
  unique : ∀ p q k, k ∈ (s.procs p).owned → k ∈ (s.procs q).owned → p = q
  nodup : ∀ p, (s.procs p).owned.Nodup

namespace Owners

omit [DecidableEq ι] [DecidableEq κ] in
theorem start (h : Starts s) : Owners s := by
  have hnil : ∀ p, (s.procs p).owned = [] := by
    intro p
    rw [Proc.owned, (h.idle p).1, (h.idle p).2.2]
    rfl
  refine ⟨fun p k hk => ?_, fun p q k hk => ?_, fun p => ?_⟩
  · rw [hnil] at hk
    cases hk
  · rw [hnil] at hk
    cases hk
  · rw [hnil]
    exact List.nodup_nil

omit [DecidableEq ι] [DecidableEq κ] in
theorem keep (h : Owners s) (hlocked : s'.locked = s.locked) (howned : ∀ q, (s'.procs q).owned.Perm (s.procs q).owned) :
    Owners s' := by
  refine ⟨fun p k hk => ?_, fun p q k hp hq => ?_, fun p => ?_⟩
  · rw [hlocked]
    exact h.locked p k ((howned p).mem_iff.mp hk)
  · exact h.unique p q k ((howned p).mem_iff.mp hp) ((howned q).mem_iff.mp hq)
  · exact (howned p).nodup_iff.mpr (h.nodup p)

omit [DecidableEq κ] in
theorem move (h : Owners s) (hlocked : s'.locked = s.locked) (hprocs : s'.procs = upd s.procs p x)
    (hx : x.owned.Perm (s.procs p).owned) : Owners s' := by
  refine h.keep hlocked fun q => ?_
  rw [hprocs]
  exact forall_upd (P := fun q (y : Proc κ) => y.owned.Perm (s.procs q).owned) hx (fun _ _ => .refl _) q

/-- The process `p` sets a lock that is not held. -/
theorem take (h : Owners s) (hlocked : s'.locked = upd s.locked k true) (hprocs : s'.procs = upd s.procs p x)
    (hfree : s.locked k = false) (hx : x.owned = k :: (s.procs p).owned) : Owners s' := by
  have hnone : ∀ q, k ∉ (s.procs q).owned := by
    intro q hk
    rw [h.locked q k hk] at hfree
    cases hfree
  have hmem : ∀ q j, j ∈ (s'.procs q).owned → j = k ∧ q = p ∨ j ≠ k ∧ j ∈ (s.procs q).owned := by
    intro q j hj
    rw [hprocs] at hj
    by_cases hq : q = p
    · rw [hq, upd_self, hx] at hj
      cases List.mem_cons.mp hj with
      | inl he => exact .inl ⟨he, hq⟩
      | inr ho => exact .inr ⟨fun he => hnone p (he ▸ ho), hq ▸ ho⟩
    · rw [upd_of_ne hq] at hj
      exact .inr ⟨fun he => hnone q (he ▸ hj), hj⟩
  refine ⟨fun q j hj => ?_, fun a b j ha hb => ?_, ?_⟩
  · rw [hlocked]
    cases hmem q j hj with
    | inl he => rw [he.1, upd_self]
    | inr ho =>
        rw [upd_of_ne ho.1]
        exact h.locked q j ho.2
  · rcases hmem a j ha with ⟨hj, rfl⟩ | ⟨hj, ha⟩ <;> rcases hmem b j hb with ⟨hj', rfl⟩ | ⟨hj', hb⟩
    · rfl
    · exact absurd hj hj'
    · exact absurd hj' hj
    · exact h.unique a b j ha hb
  · rw [hprocs]
    refine forall_upd (P := fun _ (y : Proc κ) => y.owned.Nodup) ?_ fun q _ => h.nodup q
    rw [hx]
    exact List.nodup_cons.mpr ⟨hnone p, h.nodup p⟩

/-- The process `p` clears a lock that it has. -/
theorem clear (h : Owners s) (hlocked : s'.locked = upd s.locked k false) (hprocs : s'.procs = upd s.procs p x)
    (hx : (s.procs p).owned = k :: x.owned) : Owners s' := by
  have hk : k ∈ (s.procs p).owned := by simp [hx]
  have hnodup := h.nodup p
  rw [hx] at hnodup
  have hmem : ∀ q j, j ∈ (s'.procs q).owned → j ≠ k ∧ j ∈ (s.procs q).owned := by
    intro q j hj
    rw [hprocs] at hj
    by_cases hq : q = p
    · rw [hq, upd_self] at hj
      refine ⟨fun he => (List.nodup_cons.mp hnodup).1 (he ▸ hj), ?_⟩
      rw [hq, hx]
      exact List.mem_cons_of_mem k hj
    · rw [upd_of_ne hq] at hj
      exact ⟨fun he => hq (h.unique q p k (he ▸ hj) hk), hj⟩
  refine ⟨fun q j hj => ?_, fun a b j ha hb => h.unique a b j (hmem a j ha).2 (hmem b j hb).2, ?_⟩
  · rw [hlocked, upd_of_ne (hmem q j hj).1]
    exact h.locked q j (hmem q j hj).2
  · rw [hprocs]
    exact forall_upd (P := fun _ (y : Proc κ) => y.owned.Nodup) (List.nodup_cons.mp hnodup).2 fun q _ => h.nodup q

theorem step (h : Owners s) (hs : Steps s s') : Owners s' := by
  cases hs with
  | call hpc => exact h.move rfl rfl (by simp [Proc.owned, Pc.owns, hpc])
  | @giveBack p k hpc hk =>
      refine h.move rfl rfl ?_
      simp only [Proc.owned, Pc.owns, hpc]
      exact (List.perm_cons_erase hk).symm
  | gain hpc hfree =>
      refine h.move rfl rfl ?_
      simp [Proc.owned, hpc.owns]
  | busy hpc hl => exact h.move rfl rfl (by simp [Proc.owned, Pc.owns, hpc])
  | take hpc hl => exact h.take rfl rfl hl (by simp [Proc.owned, Pc.owns, hpc])
  | sleep hpc hpt => exact h.move rfl rfl (by simp [Proc.owned, Pc.owns, hpc])
  | doze hpc => exact h.move rfl rfl (by simp [Proc.owned, Pc.owns, hpc])
  | got hpc => exact h.move rfl rfl (by simp [Proc.owned, Pc.owns, hpc])
  | clear hpc => exact h.clear rfl rfl (by simp [Proc.owned, Pc.owns, hpc])
  | @wake p k hpc hpt =>
      refine h.keep rfl ?_
      refine forall_upd (P := fun q (y : Proc κ) => y.owned.Perm (s.procs q).owned) ?_ fun q _ => ?_
      · simp [Proc.owned, Pc.owns, hpc]
      · simp [Proc.owned]
  | leave hpc => exact h.move rfl rfl (by simp [Proc.owned, Pc.owns, hpc])
  | restate hst => exact h.move rfl rfl (.refl _)
  | rise hpc => exact h.move rfl rfl (by simp [Proc.owned, Pc.owns, hpc])

end Owners

/-! ## Sleepers -/

structure Sleepers (s : State ι κ) : Prop where
  ptable : ∀ p k, (s.procs p).pc = .fall k → s.ptable = some p
  chan : ∀ p, (s.procs p).state = .sleeping → ∃ k, (s.procs p).pc = .asleep k ∧ (s.procs p).chan = some k
  waits : ∀ p k, (s.procs p).pc = .sleep k → s.locked k = true
  warned : ∀ p k, (s.procs p).pc = .fall k ∨ (s.procs p).pc = .asleep k ∧ (s.procs p).state = .sleeping →
    s.locked k = true ∨ ∃ q, (s.procs q).pc = .wake k

/-- Places at which a process does not wait for a lock. -/
def Pc.plain : Pc κ → Bool
  | .sleep _ | .fall _ | .asleep _ | .wake _ => false
  | _ => true

omit [DecidableEq κ] in
theorem Gains.plain {pc pc' : Pc κ} (h : Gains k pc pc') : pc.plain = true ∧ pc'.plain = true := by
  cases h <;> exact ⟨rfl, rfl⟩

namespace Sleepers

omit [DecidableEq ι] [DecidableEq κ] in
theorem start (h : Starts s) : Sleepers s := by
  refine ⟨fun p k hk => ?_, fun p hp => absurd hp (h.idle p).2.1, fun p k hk => ?_, fun p k hk => ?_⟩
  · rw [(h.idle p).1] at hk
    cases hk
  · rw [(h.idle p).1] at hk
    cases hk
  · rw [(h.idle p).1] at hk
    rcases hk with hk | ⟨hk, -⟩ <;> cases hk

omit [DecidableEq ι] [DecidableEq κ] in
/-- Only a process in the `sched` of `sleep` is SLEEPING. -/
theorem awake (h : Sleepers s) (hp : (s.procs p).pc.plain = true) : (s.procs p).state ≠ .sleeping := by
  intro hst
  obtain ⟨k, hk, -⟩ := h.chan p hst
  rw [hk] at hp
  cases hp

omit [DecidableEq κ] in
/-- The process `p` changes, and is not one that was about to wake others. -/
theorem change (h : Sleepers s) (hprocs : s'.procs = upd s.procs p x) (hp : ∀ k, (s.procs p).pc ≠ .wake k)
    (hlocked : ∀ k, s.locked k = true → s'.locked k = true ∨ x.pc = .wake k)
    (hptable : ∀ q k, q ≠ p → (s.procs q).pc = .fall k → s'.ptable = some q)
    (hwaits : ∀ q k, q ≠ p → (s.procs q).pc = .sleep k → s'.locked k = true)
    (hfall : ∀ k, x.pc = .fall k → s'.ptable = some p)
    (hchan : x.state = .sleeping → ∃ k, x.pc = .asleep k ∧ x.chan = some k)
    (hsleep : ∀ k, x.pc = .sleep k → s'.locked k = true)
    (hwarn : ∀ k, x.pc = .fall k ∨ x.pc = .asleep k ∧ x.state = .sleeping →
      s.locked k = true ∨ ∃ q, (s.procs q).pc = .wake k) : Sleepers s' := by
  have hself : s'.procs p = x := by rw [hprocs, upd_self]
  have hother : ∀ q, q ≠ p → s'.procs q = s.procs q := fun q hq => by rw [hprocs, upd_of_ne hq]
  -- A warning stays one: the lock is held, or it was cleared by `p`, or the other process still goes to wake.
  have hkeep : ∀ k, (s.locked k = true ∨ ∃ q, (s.procs q).pc = .wake k) →
      s'.locked k = true ∨ ∃ q, (s'.procs q).pc = .wake k := by
    intro k hk
    cases hk with
    | inl hl => exact (hlocked k hl).imp_right fun hx => ⟨p, by rwa [hself]⟩
    | inr hw =>
        obtain ⟨q, hq⟩ := hw
        exact .inr ⟨q, by rwa [hother q fun he => hp k (he ▸ hq)]⟩
  refine ⟨fun q k hk => ?_, fun q hq => ?_, fun q k hk => ?_, fun q k hk => ?_⟩ <;> by_cases hqp : q = p
  · rw [hqp, hself] at hk
    rw [hqp]
    exact hfall k hk
  · rw [hother q hqp] at hk
    exact hptable q k hqp hk
  · rw [hqp, hself] at hq ⊢
    exact hchan hq
  · rw [hother q hqp] at hq ⊢
    exact h.chan q hq
  · rw [hqp, hself] at hk
    exact hsleep k hk
  · rw [hother q hqp] at hk
    exact hwaits q k hqp hk
  · rw [hqp, hself] at hk
    exact hkeep k (hwarn k hk)
  · rw [hother q hqp] at hk
    exact hkeep k (h.warned q k hk)

omit [DecidableEq κ] in
/-- The process `p` goes on to a plain place, and locks may be set. -/
theorem move (h : Sleepers s) (hprocs : s'.procs = upd s.procs p x) (hp : ∀ k, (s.procs p).pc ≠ .wake k)
    (hlocked : ∀ k, s.locked k = true → s'.locked k = true) (hpt : s'.ptable = s.ptable) (hx : x.pc.plain = true)
    (hst : x.state ≠ .sleeping) : Sleepers s' := by
  refine h.change hprocs hp (fun k hk => .inl (hlocked k hk)) (fun q k _ hk => hpt ▸ h.ptable q k hk)
    (fun q k _ hk => hlocked k (h.waits q k hk)) (fun k hk => ?_) (fun hs => absurd hs hst) (fun k hk => ?_)
    (fun k hk => ?_)
  · rw [hk] at hx
    cases hx
  · rw [hk] at hx
    cases hx
  · rcases hk with hk | ⟨hk, -⟩
    · rw [hk] at hx
      cases hx
    · rw [hk] at hx
      cases hx

omit [DecidableEq ι] [DecidableEq κ] in
/-- Places and channels stay, and no process falls asleep. -/
theorem stir (h : Sleepers s) (hlocked : s'.locked = s.locked) (hpt : s'.ptable = s.ptable)
    (hpc : ∀ q, (s'.procs q).pc = (s.procs q).pc) (hchan : ∀ q, (s'.procs q).chan = (s.procs q).chan)
    (hst : ∀ q, (s'.procs q).state = .sleeping → (s.procs q).state = .sleeping) : Sleepers s' := by
  refine ⟨fun q k hk => ?_, fun q hq => ?_, fun q k hk => ?_, fun q k hk => ?_⟩
  · rw [hpc] at hk
    rw [hpt]
    exact h.ptable q k hk
  · rw [hpc, hchan]
    exact h.chan q (hst q hq)
  · rw [hpc] at hk
    rw [hlocked]
    exact h.waits q k hk
  · simp only [hpc, hlocked] at hk ⊢
    exact h.warned q k (hk.imp_right fun ha => ⟨ha.1, hst q ha.2⟩)

/-- All sleepers of the lock are woken, and the process goes on. -/
theorem wake (h : Sleepers s) (hpc : (s.procs p).pc = .wake k) (hpt : s.ptable = none) :
    Sleepers ({ s with procs := fun q => (s.procs q).wakeup k }.goto p (.leave k)) := by
  have hawake : (s.procs p).state ≠ .sleeping := by
    intro hs
    obtain ⟨j, hj, -⟩ := h.chan p hs
    rw [hpc] at hj
    cases hj
  have hnofall : ∀ q j, (s.procs q).pc ≠ .fall j := by
    intro q j hj
    rw [h.ptable q j hj] at hpt
    cases hpt
  have hother : ∀ q, q ≠ p →
      ({ s with procs := fun q => (s.procs q).wakeup k }.goto p (.leave k)).procs q = (s.procs q).wakeup k :=
    fun q hq => upd_of_ne hq _ _
  have hself : (({ s with procs := fun q => (s.procs q).wakeup k }.goto p (.leave k)).procs p).pc = .leave k :=
    congrArg Proc.pc (upd_self _ _ _)
  have hselfst : (({ s with procs := fun q => (s.procs q).wakeup k }.goto p (.leave k)).procs p).state =
      ((s.procs p).wakeup k).state := by
    rw [State.goto]
    simp only [upd_self]
  have hsleeps : ∀ q, ((s.procs q).wakeup k).state = .sleeping →
      (s.procs q).state = .sleeping ∧ (s.procs q).chan ≠ some k ∧ (s.procs q).wakeup k = s.procs q := by
    intro q hq
    unfold Proc.wakeup at hq ⊢
    split at hq
    · cases hq
    · rename_i hn
      rw [if_neg hn]
      exact ⟨hq, fun hc => hn ⟨hq, hc⟩, rfl⟩
  refine ⟨fun q j hj => ?_, fun q hq => ?_, fun q j hj => ?_, fun q j hj => ?_⟩ <;> by_cases hqp : q = p
  · rw [hqp, hself] at hj
    cases hj
  · rw [hother q hqp, wakeup_pc] at hj
    exact absurd hj (hnofall q j)
  · rw [hqp, hselfst] at hq
    exact absurd (hsleeps p hq).1 hawake
  · rw [hother q hqp] at hq ⊢
    obtain ⟨hs, -, he⟩ := hsleeps q hq
    rw [he]
    exact h.chan q hs
  · rw [hqp, hself] at hj
    cases hj
  · rw [hother q hqp, wakeup_pc] at hj
    exact h.waits q j hj
  · rw [hqp, hself] at hj
    rcases hj with hj | ⟨hj, -⟩ <;> cases hj
  · rw [hother q hqp, wakeup_pc] at hj
    rcases hj with hj | ⟨hj, hst⟩
    · exact absurd hj (hnofall q j)
    · -- The process still sleeps, so that it does so on another lock.
      obtain ⟨hs, hc, -⟩ := hsleeps q hst
      obtain ⟨i, hi, hchan⟩ := h.chan q hs
      rw [hj] at hi
      cases hi
      refine (h.warned q j (.inr ⟨hj, hs⟩)).imp_right fun hw => ?_
      obtain ⟨r, hr⟩ := hw
      have hrp : r ≠ p := by
        rintro rfl
        rw [hpc] at hr
        cases hr
        exact hc hchan
      exact ⟨r, by rwa [hother r hrp, wakeup_pc]⟩

theorem step (h : Sleepers s) (hspins : Spins s) (hs : Steps s s') : Sleepers s' := by
  -- A process at one place of the code is not at another one.
  have hne : ∀ {p : ι} {pc pc' : Pc κ}, (s.procs p).pc = pc → pc ≠ pc' → (s.procs p).pc ≠ pc' := by
    rintro p pc pc' rfl hne
    exact hne
  cases hs with
  | call hpc =>
      exact h.move rfl (fun k => hne hpc (by simp)) (fun _ hk => hk) rfl rfl (h.awake (by rw [hpc]; rfl))
  | giveBack hpc hk =>
      exact h.move rfl (fun k => hne hpc (by simp)) (fun _ hk => hk) rfl rfl (h.awake (by rw [hpc]; rfl))
  | gain hpc hfree =>
      refine h.move rfl (fun k hk => ?_) (fun _ hk => hk) rfl hpc.plain.2 (h.awake hpc.plain.1)
      have := hpc.plain.1
      rw [hk] at this
      cases this
  | @busy p k hpc hl =>
      refine h.change rfl (fun k => hne hpc (by simp)) (fun _ hk => .inl hk) (fun q k _ => h.ptable q k)
        (fun q k _ => h.waits q k) (fun _ hk => by cases hk) (fun hst => ?_) (fun j hj => ?_) (fun j hj => ?_)
      · exact absurd hst (h.awake (by rw [hpc]; rfl))
      · cases hj
        exact hl
      · rcases hj with hj | ⟨hj, -⟩ <;> cases hj
  | @take p k hpc hl =>
      refine h.move rfl (fun k => hne hpc (by simp)) (fun j hj => ?_) rfl rfl (h.awake (by rw [hpc]; rfl))
      exact forall_upd (P := fun j (b : Bool) => s.locked j = true → b = true) (fun _ => rfl) (fun _ _ hk => hk) j hj
  | @sleep p k hpc hpt =>
      refine h.change rfl (fun k => hne hpc (by simp)) (fun _ hk => .inl hk) (fun q j _ hj => ?_)
        (fun q k _ => h.waits q k) (fun _ _ => rfl) (fun hst => ?_) (fun _ hj => by cases hj) (fun j hj => ?_)
      · rw [h.ptable q j hj] at hpt
        cases hpt
      · obtain ⟨j, hj, -⟩ := h.chan p hst
        rw [hpc] at hj
        cases hj
      · rcases hj with hj | ⟨hj, -⟩ <;> cases hj
        exact .inl (h.waits p k hpc)
  | @doze p k hpc =>
      refine h.change rfl (fun k => hne hpc (by simp)) (fun _ hk => .inl hk) (fun q j hq hj => ?_)
        (fun q k _ => h.waits q k) (fun _ hj => by cases hj) (fun _ => ⟨k, rfl, rfl⟩) (fun _ hj => by cases hj)
        (fun j hj => ?_)
      · have hp := h.ptable p k hpc
        rw [h.ptable q j hj] at hp
        exact absurd (Option.some.inj hp) hq
      · rcases hj with hj | ⟨hj, -⟩ <;> cases hj
        exact h.warned p k (.inl hpc)
  | got hpc =>
      exact h.move rfl (fun k => hne hpc (by simp)) (fun _ hk => hk) rfl rfl (h.awake (by rw [hpc]; rfl))
  | @clear p k hpc =>
      have hupd : ∀ j, j ≠ k → s.locked j = true → upd s.locked k false j = true := by
        intro j hj hl
        rwa [upd_of_ne hj]
      refine h.change rfl (fun k => hne hpc (by simp)) (fun j hj => ?_) (fun q k _ => h.ptable q k)
        (fun q j hq hj => ?_) (fun _ hj => by cases hj) (fun hst => ?_) (fun _ hj => by cases hj) (fun j hj => ?_)
      · by_cases hjk : j = k
        · exact .inr (by rw [hjk])
        · exact .inl (hupd j hjk hj)
      · -- Another process at its `sleep` has the inner spin lock, which is with `p`.
        refine hupd j (fun hjk => hq ?_) (h.waits q j hj)
        exact hspins.unique (k := k) (by rw [hj, hjk]; rfl) (by rw [hpc]; rfl)
      · exact absurd hst (h.awake (by rw [hpc]; rfl))
      · rcases hj with hj | ⟨hj, -⟩ <;> cases hj
  | wake hpc hpt => exact h.wake hpc hpt
  | leave hpc =>
      exact h.move rfl (fun k => hne hpc (by simp)) (fun _ hk => hk) rfl rfl (h.awake (by rw [hpc]; rfl))
  | @restate p st hst =>
      refine h.stir rfl rfl ?_ ?_ ?_
      · exact forall_upd (P := fun q (y : Proc κ) => y.pc = (s.procs q).pc) rfl fun _ _ => rfl
      · exact forall_upd (P := fun q (y : Proc κ) => y.chan = (s.procs q).chan) rfl fun _ _ => rfl
      · exact forall_upd (P := fun q (y : Proc κ) => y.state = .sleeping → (s.procs q).state = .sleeping) hst
          fun _ _ he => he
  | rise hpc =>
      exact h.move rfl (fun k => hne hpc (by simp)) (fun _ hk => hk) rfl rfl (by simp)

end Sleepers

/-! ## Runs -/

structure Inv (s : State ι κ) : Prop where
  spins : Spins s
  owners : Owners s
  sleepers : Sleepers s

theorem Inv.reachable (h : (machine ι κ).Reachable s) : Inv s := by
  refine h.invariant (P := Inv) ?_ ?_
  · intro s hs
    exact ⟨.start hs, .start hs, .start hs⟩
  · intro s a s' hinv hs
    have hsteps := step_steps hs
    exact ⟨hinv.spins.step hsteps, hinv.owners.step hsteps, hinv.sleepers.step hinv.spins hsteps⟩

end Xv6.Sleeplock
