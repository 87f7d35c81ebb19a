import Xv6.Sleeplock.Lemmas.Hold

/-!
# Sleep locks exclude and lose no wake-up
-/

namespace Xv6.Sleeplock

open Xv6.Lib Xv6.Kernel

variable {ι κ : Type} [DecidableEq ι] [DecidableEq κ]

/-- A lock has one holder at most, and while its spin lock is free a process sleeps on it only if it is
held. -/
structure Excludes (s : State ι κ) : Prop where
  holder : ∀ p q k, k ∈ (s.procs p).held → k ∈ (s.procs q).held → p = q
  locked : ∀ p k, k ∈ (s.procs p).held → s.locked k = true
  sleeper : ∀ k, s.spin k = none → ∀ p, (s.procs p).state = .sleeping → (s.procs p).chan = some k → s.locked k = true

/-- At most one process holds a lock, and nobody sleeps for a lock that is free. -/
theorem excludes {s : State ι κ} (h : (machine ι κ).Reachable s) : Excludes s := by
  obtain ⟨hspins, howners, hsleepers⟩ := Inv.reachable h
  constructor
  · intro p q k hp hq
    exact howners.unique p q k (List.mem_append_right _ hp) (List.mem_append_right _ hq)
  · intro p k hp
    exact howners.locked p k (List.mem_append_right _ hp)
  · intro k hfree p hst hchan
    obtain ⟨j, hpc, hj⟩ := hsleepers.chan p hst
    rw [hchan] at hj
    cases hj
    cases hsleepers.warned p k (.inr ⟨hpc, hst⟩) with
    | inl hl => exact hl
    | inr hw =>
        -- The process at its `wakeup` has the spin lock.
        obtain ⟨q, hq⟩ := hw
        rw [(hspins k q).mpr (by rw [hq]; rfl)] at hfree
        cases hfree

/-- Two running processes and a lock that is free. -/
def fresh : State Bool Unit := ⟨fun _ => none, fun _ => false, none, fun _ => ⟨.running, none, .idle, []⟩⟩

/-- One process holds the lock, and the other sleeps on it. -/
theorem excludes_contended : ∃ s : State Bool Unit, Excludes s ∧ () ∈ (s.procs false).held ∧
    (s.procs true).state = .sleeping ∧ (s.procs true).chan = some () := by
  have hstart : (machine Bool Unit).Reachable fresh :=
    .start ⟨fun _ => rfl, fun _ => rfl, rfl, fun _ => ⟨rfl, ProcState.noConfusion, rfl⟩⟩
  obtain ⟨s, hs, hp⟩ := hstart.of_run
    (P := fun s : State Bool Unit => decide (() ∈ (s.procs false).held ∧ (s.procs true).state = .sleeping ∧
      (s.procs true).chan = some ()))
    (l := [.acquireSleep false (), .run false, .run false, .run false, .acquireSleep true (), .run true, .run true,
      .run true, .run true]) (by decide +kernel)
  exact ⟨s, excludes hs, of_decide_eq_true hp⟩

end Xv6.Sleeplock
