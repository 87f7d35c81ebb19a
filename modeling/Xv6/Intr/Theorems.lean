import Xv6.Intr.Lemmas.Off

/-!
# The interrupt flag: main results
-/

namespace Xv6.Intr

open Xv6.Lib Xv6.Kernel

variable {ι κ : Type} [DecidableEq ι] [DecidableEq κ]

/-- The processor `c` runs the code between `syscall_entry` or `fork_ret` and `sysretq` for the process `p`. -/
def OnPath (s : State ι κ) (c : κ) (p : ι) : Prop :=
  (s.cpus c).proc = some p ∧ ∃ a rest, (s.procs p).acts = a :: rest ∧ (a.entry = .syscall ∨ a.entry = .fork)

/-- On the way back to user mode the flag is set for exactly those processes that are behind `fork_ret` and whose first
switch found `int_ena` set. -/
theorem flag_on_path {s : State ι κ} (h : (machine ι κ).Reachable s) {c : κ} {p : ι} (hpath : OnPath s c p) :
    (s.cpus c).regs.intr = false ↔ ¬ ((s.procs p).acts = [leaving] ∧ (s.procs p).found = true) := by
  obtain ⟨hp, a, rest, hl, hentry⟩ := hpath
  have hf := (Inv.reachable h).fits c p hp
  rw [hl] at hf ⊢
  cases hf with
  | kernel hk =>
      refine iff_of_true hk.intr fun h0 => hk.entry.2 ?_
      cases h0.1
      rfl
  | born hn hi he => exact iff_of_true hi fun h0 => (by cases h0.1)
  | leaves hn hi =>
      rw [hi]
      cases (s.procs p).found <;> simp
  | gate hg he =>
      rw [he] at hentry
      rcases hentry with h0 | h0 <;> cases h0

/-- One processor that enters `scheduler`, and processes that have not run. -/
def booted : State Bool Unit :=
  ⟨none, fun _ => ⟨⟨false, 0, false⟩, none, [⟨.scheduler, 0, false, .sti⟩]⟩, fun _ => ⟨.runnable, newborn, false⟩⟩

theorem booted_starts : Starts booted := ⟨rfl, fun _ => ⟨rfl, rfl, rfl⟩, fun _ => .inr ⟨rfl, rfl⟩⟩

/-- The `sti` of the scheduler, and the `acquire` that puts the flag into `int_ena`. -/
def scans : List (Action Bool Unit) := [.run () .sti, .run () .acquire, .run () .cli, .run () .take]

/-- The first process starts under the `int_ena` that the scheduler has set: its `release` in `fork_ret` turns the flag
on. -/
theorem flag_set : ∃ s : State Bool Unit, (machine Bool Unit).Reachable s ∧ OnPath s () false ∧
    (s.cpus ()).regs.intr = true := by
  obtain ⟨s, hs, hp⟩ := Machine.Reachable.of_run (M := machine Bool Unit)
    (P := fun s : State Bool Unit => decide ((s.cpus ()).proc = some false ∧ (s.procs false).acts = [leaving] ∧
      (s.cpus ()).regs.intr = true))
    (l := scans ++ [.run () (.swtch false), .run () .release]) (.start booted_starts) (by decide +kernel)
  obtain ⟨hproc, hacts, hi⟩ := of_decide_eq_true hp
  exact ⟨s, hs, ⟨hproc, leaving, [], hacts, .inr rfl⟩, hi⟩

/-- The second process may find `int_ena` clear: the first makes a system call and gives up the processor in it. -/
theorem flag_on_path_second : ∃ s : State Bool Unit, OnPath s () true ∧ (s.procs true).acts = [leaving] ∧
    ((s.cpus ()).regs.intr = false ↔ ¬ ((s.procs true).acts = [leaving] ∧ (s.procs true).found = true)) ∧
    (s.cpus ()).regs.intr = false := by
  obtain ⟨s, hs, hp⟩ := Machine.Reachable.of_run (M := machine Bool Unit)
    (P := fun s : State Bool Unit => decide ((s.cpus ()).proc = some true ∧ (s.procs true).acts = [leaving] ∧
      (s.cpus ()).regs.intr = false))
    (l := scans ++ [.run () (.swtch false), .run () .release, .run () .ret, .syscall (), .run () .acquire, .run () .cli,
      .run () .take, .run () (.sched .runnable), .run () (.swtch true), .run () .release])
    (.start booted_starts) (by decide +kernel)
  obtain ⟨hproc, hacts, hi⟩ := of_decide_eq_true hp
  have hpath : OnPath s () true := ⟨hproc, leaving, [], hacts, .inr rfl⟩
  exact ⟨s, hpath, hacts, flag_on_path hs hpath, hi⟩

end Xv6.Intr
