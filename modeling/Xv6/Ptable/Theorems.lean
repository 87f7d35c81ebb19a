import Xv6.Ptable.Lemmas.Life

/-!
# The process table: theorems

The life cycle of processes under every interleaving of `fork`, `exit`, `wait` and `kill`, and what `kill`
reaches.
-/

namespace Xv6.Ptable

open Xv6.Lib Xv6.Kernel

variable {s : State}

/-! ## Life cycle -/

structure LifeCycle (s : State) : Prop where
  /-- slots in use have different pids -/
  pids : ∀ p q, (s.procs p).state ≠ .unused → (s.procs q).state ≠ .unused → (s.procs p).pid = (s.procs q).pid → p = q
  /-- a process, other than the first one, has a parent that lives -/
  parents : ∀ q, q ≠ s.initProc → (s.procs q).state ≠ .unused → (s.procs q).state ≠ .embryo →
    ∃ p, (s.procs q).parent = some p ∧ (s.procs p).state ≠ .unused ∧ (s.procs p).state ≠ .zombie
  /-- nobody sleeps in `wait` that has a child which has ended -/
  waits : ∀ p c, (s.procs p).state = .sleeping → (s.procs p).chan = some (.proc p) → (s.procs c).parent = some p →
    (s.procs c).state ≠ .zombie
  /-- a child is returned by at most one `wait` -/
  once : (s.log.filterMap Event.child).Nodup
  /-- and by one of its parent, or of the first process after the parent exited, and after its own exit -/
  returned : WaitsRight (s.procs s.initProc).pid s.log

/-- The life cycle of the processes in every interleaving, as long as there are fewer than 2^31 forks. -/
theorem life_cycle (h : machine.Reachable s) (hforks : s.forks < 2 ^ 31) : LifeCycle s where
  pids p q hp hq heq :=
    (pids h hforks).distinct (fun hc => hp (kind_eq_unused.mp hc)) (fun hc => hq (kind_eq_unused.mp hc)) heq
  parents q hi hu he := by
    obtain ⟨p, hp, hk⟩ := (families h).2.parent hi (born_of_state ⟨hu, he⟩)
    refine ⟨p, hp, fun hc => ?_, fun hc => ?_⟩
    · rw [State.kindOf, hc] at hk
      cases hk
    · rw [State.kindOf, hc] at hk
      cases hk
  waits := rested h
  once := (pids h hforks).once
  returned := (families h).2.waits

/-- The first two slots. -/
abbrev slot0 : ProcId := ⟨0, nproc_pos⟩
abbrev slot1 : ProcId := ⟨1, by decide⟩

/-- The first process makes a child, which exits, and waits for it. -/
def forkExitWait : List Action :=
  [.schedule slot0, .fork slot0, .forkStack slot0 true, .forkCopy slot0 true, .forkParent slot0, .forkRun slot0,
    .wait slot0, .schedule slot1, .exit slot1, .schedule slot0]

theorem life_cycle_child : ∃ s, machine.Reachable s ∧ s.log = [.forked 1 2, .exited 2, .waited 1 2] ∧ LifeCycle s := by
  have hstart : machine.Reachable initial := .start rfl
  obtain ⟨s, hs, hp⟩ := hstart.of_run
    (P := fun s => s.log = [.forked 1 2, .exited 2, .waited 1 2] ∧ s.forks < 2 ^ 31)
    (l := forkExitWait) (by decide +kernel)
  obtain ⟨hlog, hforks⟩ := of_decide_eq_true hp
  exact ⟨s, hs, hlog, life_cycle hs hforks⟩

/-! ## Kill -/

/-- `kill` succeeds for the pid of a slot in use, and otherwise changes nothing. -/
def KillsExactly (s : State) (pid : Nat) : Prop :=
  ((kill s pid).1 = 0 ↔ ∃ q, (s.procs q).state ≠ .unused ∧ (s.procs q).pid = pid) ∧
    ((kill s pid).1 ≠ 0 → kill s pid = (-1, s))

/-- `kill` reaches only the process that it names, as far as the pids `N` are concerned. -/
structure KillReaches (s : State) (N : Nat → Prop) : Prop where
  exactly : ∀ pid, N pid → KillsExactly s pid
  /-- a process starts unharmed -/
  fresh : ∀ p q, (s.procs p).phase = .forkRun q → (s.procs q).killed = false
  /-- and is killed only by its own pid, after it was made -/
  blamed : ∀ q, (s.procs q).state ≠ .unused → (s.procs q).state ≠ .embryo → (s.procs q).killed = true → Blamed s q

theorem killsExactly {pid : Nat} (h : NamesProc s pid) : KillsExactly s pid := by
  rcases kill_effect (s := s) pid with ⟨q, hq, hk⟩ | ⟨hn, hk⟩
  · rw [KillsExactly, hk]
    exact ⟨⟨fun _ => ⟨q, (h q hq).1, hq⟩, fun _ => rfl⟩, fun hc => absurd rfl hc⟩
  · rw [KillsExactly, hk]
    exact ⟨⟨(fun hc => by cases hc), fun ⟨q, _, hq⟩ => absurd hq (hn q)⟩, fun _ => rfl⟩

/-- In the runs whose `kill`s all name a process. -/
theorem kill_reaches (h : machine.ReachableIf KillsProc s) : KillReaches s (NamesProc s) where
  exactly _ hpid := killsExactly hpid
  fresh p q hph := by
    have hst : s.stageOf p = some (q, true) := by
      rw [State.stageOf, hph]
      rfl
    refine (unharmed h).fresh ?_
    rw [((families h.reachable).1.child hst).1]
    exact not_born_embryo
  blamed q hu he := (unharmed h).blamed (born_of_state ⟨hu, he⟩)

/-- The first process makes a child and kills it. -/
def forkKill : List Action :=
  [.schedule slot0, .fork slot0, .forkStack slot0 true, .forkCopy slot0 true, .forkParent slot0,
    .forkRun slot0, .kill slot0 2]

/-- The test for the condition on `kill`. -/
def namesProc (s : State) : Action → Bool
  | .kill _ pid => NamesProc s pid
  | _ => true

theorem killsProc_of_test (s : State) (a : Action) (h : namesProc s a = true) : KillsProc s a := by
  cases a with
  | kill p pid => exact of_decide_eq_true (p := NamesProc s pid) h
  | _ => trivial

theorem kill_reaches_child : ∃ s, machine.ReachableIf KillsProc s ∧ (s.procs slot1).killed = true ∧ Blamed s slot1 := by
  have hstart : machine.ReachableIf KillsProc initial := .start rfl
  obtain ⟨s, hs, hp⟩ := hstart.of_run killsProc_of_test
    (P := fun s => (s.procs slot1).killed = true ∧ (s.procs slot1).state = .runnable) (l := forkKill)
      (by decide +kernel)
  obtain ⟨hkilled, hstate⟩ := of_decide_eq_true hp
  exact ⟨s, hs, hkilled, (kill_reaches hs).blamed slot1 (by rw [hstate]; decide) (by rw [hstate]; decide) hkilled⟩

/-- A `kill` of pid 0 marks a free slot, which the next `fork` takes. -/
def killZero : List Action :=
  [.schedule slot0, .kill slot0 0, .fork slot0, .forkStack slot0 true, .forkCopy slot0 true, .forkParent slot0]

theorem kill_reaches_free_slot : ∃ s, machine.Reachable s ∧ ¬ KillsExactly s 0 ∧ ¬ KillReaches s (fun _ => True) := by
  have hstart : machine.Reachable initial := .start rfl
  obtain ⟨s, hs, hp⟩ := hstart.of_run
    (P := fun s => (kill s 0).1 = 0 ∧ (∀ q, (s.procs q).state ≠ .unused → (s.procs q).pid ≠ 0) ∧
      (s.procs slot0).phase = .forkRun slot1 ∧ (s.procs slot1).killed = true)
    (l := killZero) (by decide +kernel)
  obtain ⟨hzero, hnone, hph, hkilled⟩ := of_decide_eq_true hp
  refine ⟨s, hs, fun h => ?_, fun h => ?_⟩
  · obtain ⟨q, hq, hpid⟩ := h.1.mp hzero
    exact hnone q hq hpid
  · rw [h.fresh slot0 slot1 hph] at hkilled
    cases hkilled

end Xv6.Ptable
