import Mathlib.Logic.Relation

/-!
# Machines

A machine has states to start in and actions; an action that is not enabled in a state has no result.
One function then serves for running a list of actions and for proofs about all states that are
reached, with any interleaving of the actions of several processes.
-/

namespace Xv6.Lib

structure Machine (σ α : Type) where
  start : σ → Prop
  step : σ → α → Option σ

namespace Machine

variable {σ α : Type} {M : Machine σ α} {C : σ → α → Prop}

/-- The states of the runs whose actions all meet the condition `C` in the state before them. -/
inductive ReachableIf (M : Machine σ α) (C : σ → α → Prop) : σ → Prop where
  | start {s : σ} (h : M.start s) : ReachableIf M C s
  | step {s s' : σ} {a : α} (h : ReachableIf M C s) (hc : C s a) (hs : M.step s a = some s') : ReachableIf M C s'

/-- The states of all runs. -/
def Reachable (M : Machine σ α) : σ → Prop := M.ReachableIf fun _ _ => True

/-- What holds at the start and is kept by every action that meets the condition holds in every state. -/
theorem ReachableIf.invariant {P : σ → Prop} (hstart : ∀ s, M.start s → P s)
    (hstep : ∀ s a s', M.ReachableIf C s → P s → C s a → M.step s a = some s' → P s') {s : σ}
    (h : M.ReachableIf C s) : P s := by
  induction h with
  | start h => exact hstart _ h
  | step hr hc hs ih => exact hstep _ _ _ hr ih hc hs

theorem Reachable.invariant {P : σ → Prop} (hstart : ∀ s, M.start s → P s)
    (hstep : ∀ s a s', P s → M.step s a = some s' → P s') {s : σ} (h : M.Reachable s) : P s :=
  ReachableIf.invariant hstart (fun s a s' _ hp _ hs => hstep s a s' hp hs) h

theorem Reachable.next {s s' : σ} {a : α} (h : M.Reachable s) (hs : M.step s a = some s') : M.Reachable s' :=
  .step h trivial hs

/-- A run that meets a condition is a run. -/
theorem ReachableIf.reachable {s : σ} (h : M.ReachableIf C s) : M.Reachable s := by
  induction h with
  | start h => exact .start h
  | step _ _ hs ih => exact ih.next hs

/-- The state after a list of actions, when all of them are enabled. -/
def run (M : Machine σ α) : List α → σ → Option σ
  | [], s => some s
  | a :: l, s =>
    match M.step s a with
    | none => none
    | some s' => M.run l s'

/-- A run that ends in a state with a property reaches such a state. -/
theorem Reachable.of_run {P : σ → Bool} : ∀ {l : List α} {s : σ}, M.Reachable s → (M.run l s).any P = true →
    ∃ s', M.Reachable s' ∧ P s' = true
  | [], s, h, hr => ⟨s, h, hr⟩
  | a :: l, s, h, hr => by
    unfold run at hr
    cases hs : M.step s a with
    | none =>
        rw [hs] at hr
        cases hr
    | some s' =>
        rw [hs] at hr
        exact Reachable.of_run (h.next hs) hr

/-- The state after a list of actions that meet the condition `c` and are enabled. -/
def runIf (M : Machine σ α) (c : σ → α → Bool) : List α → σ → Option σ
  | [], s => some s
  | a :: l, s =>
    if c s a then
      match M.step s a with
      | none => none
      | some s' => M.runIf c l s'
    else none

theorem ReachableIf.of_run {c : σ → α → Bool} (hc : ∀ s a, c s a = true → C s a) {P : σ → Bool} :
    ∀ {l : List α} {s : σ}, M.ReachableIf C s → (M.runIf c l s).any P = true → ∃ s', M.ReachableIf C s' ∧ P s' = true
  | [], s, h, hr => ⟨s, h, hr⟩
  | a :: l, s, h, hr => by
    unfold runIf at hr
    split at hr
    · rename_i hca
      cases hs : M.step s a with
      | none =>
          rw [hs] at hr
          cases hr
      | some s' =>
          rw [hs] at hr
          exact ReachableIf.of_run hc (.step h (hc s a hca) hs) hr
    · cases hr

end Machine

end Xv6.Lib
