import Xv6.Count.Lemmas.Calls

/-!
# Transfer counts: main result
-/

namespace Xv6.Count

open Xv6.Lib Xv6.Console

/-- As long as fewer than `2 ^ 63` keys were pressed, a size that fits gives the right count, and a call with a size
that does not fit gives a wrong one whenever it does not fail. -/
theorem counts_right {ι : Type} [DecidableEq ι] {s : State ι} (h : (machine ι).Reachable s) (htyped : s.typed < 2 ^ 63)
    {d : Done} (hd : d ∈ s.done) :
    (d.Fits → d.Right) ∧ (0 ≤ d.result ∨ d.call = .consoleRead ∧ d.killed = false → (d.Right ↔ d.Fits)) := by
  have hright := ((inv h).done d hd).right fun hc => Nat.lt_of_le_of_lt (stored_le_typed h hd hc) htyped
  exact ⟨hright.1, fun hreturns => ⟨hright.2 hreturns, hright.1⟩⟩

/-- Nothing was typed and nothing was written. -/
def State.fresh : State Unit :=
  ⟨⟨fun _ => 0, 0, 0, 0⟩, 0, ⟨fun _ => 0, 0, 0, true, true⟩, none, none, fun _ => false, fun _ => .idle, []⟩

theorem starts_fresh : Starts State.fresh :=
  ⟨⟨by decide, rfl, rfl⟩, ⟨rfl, rfl, rfl, rfl⟩, rfl, rfl, fun _ => rfl, rfl, rfl⟩

/-- A line of three characters is typed, and `n` bytes are read. -/
def readLine (n : BitVec 64) : List (Action Unit) :=
  [.key 104, .key 105, .key newline, .call () (.consoleRead n), .run (), .run (), .run (), .run ()]

/-- What the only call of a run has returned. -/
def Returned (r : Int) (s : State Unit) : Bool :=
  s.typed = 3 && s.done.any fun d => d.call = .consoleRead ∧ d.stored = 3 ∧ d.result = r ∧ d.killed = false

theorem counts_right_line : ∃ (s : State Unit) (d : Done), d ∈ s.done ∧ d.result = 3 ∧ (d.Right ↔ d.Fits) := by
  obtain ⟨s, hs, hr⟩ := Machine.Reachable.of_run (M := machine Unit) (P := Returned 3) (l := readLine 100)
    (.start starts_fresh) (by decide +kernel)
  obtain ⟨htyped, hr⟩ := Bool.and_eq_true_iff.mp hr
  obtain ⟨d, hd, hres⟩ := List.any_eq_true.mp hr
  simp only [decide_eq_true_eq] at htyped hres
  exact ⟨s, d, hd, hres.2.2.1, (counts_right hs (by rw [htyped]; decide) hd).2 (Or.inl (by rw [hres.2.2.1]; decide))⟩

/-- A read of `2 ^ 31` bytes stores the line, and returns a negative number although nobody is killed. -/
theorem count_negative : ∃ (s : State Unit) (d : Done), (machine Unit).Reachable s ∧ d ∈ s.done ∧
    d.call = .consoleRead ∧ d.stored = 3 ∧ d.result = 3 - 2 ^ 32 ∧ d.killed = false ∧ ¬ d.Right := by
  obtain ⟨s, hs, hr⟩ := Machine.Reachable.of_run (M := machine Unit) (P := Returned (3 - 2 ^ 32))
    (l := readLine (2 ^ 31)) (.start starts_fresh) (by decide +kernel)
  obtain ⟨d, hd, hres⟩ := List.any_eq_true.mp (Bool.and_eq_true_iff.mp hr).2
  simp only [decide_eq_true_eq] at hres
  obtain ⟨hcall, hstored, hneg, hkilled⟩ := hres
  refine ⟨s, d, hs, hd, hcall, hstored, hneg, hkilled, fun hright => ?_⟩
  have hk := hright.2 hcall (by rw [hneg]; decide)
  rw [hkilled] at hk
  cases hk

end Xv6.Count
