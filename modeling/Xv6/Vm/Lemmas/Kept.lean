import Xv6.Vm.Lemmas.Kern

/-!
# Roots and kept frames

What the functions that work on one space, make one or give one up do to the roots of the spaces and to the frames that
somebody keeps.
-/

namespace Xv6.Vm

open Xv6.Lib

section

variable {τ : Type} {O O₁ O' : Nat → Use τ} {m m₁ m' : Mem} {f g x sz : Nat} {new : Option Nat} {u : Use τ}

/-! ## Work on a space -/

/-- The uses of roots and of kept frames stay. -/
structure Kept (O O' : Nat → Use τ) : Prop where
  root : ∀ f, O' f = .node f 0 0 ↔ O f = .node f 0 0
  kept : ∀ x o, O' x = .kept o ↔ O x = .kept o

theorem Mine.ne_kept {o : τ} (h : Mine O f x) : O x ≠ .kept o := by
  rcases h with h0 | h0 | ⟨e, k, h0⟩ <;> rw [h0] <;> rintro ⟨⟩

theorem Mine.root_eq (h : Mine O f g) (hg : O g = .node g 0 0) : g = f := by
  rcases h with h0 | h0 | ⟨e, k, h0⟩ <;> rw [hg] at h0
  · cases h0
  · cases h0
  · exact (Use.node.inj h0).1

/-- Work on a space keeps the use of its root. -/
theorem Worked.kept (hw : Worked f O m O' m') (hf : O f = .node f 0 0) : Kept O O' := by
  refine ⟨fun g => ?_, fun x o => ?_⟩
  · by_cases hgf : g = f
    · rw [hgf]
      exact iff_of_true hw.root hf
    by_cases hm : Mine O f g
    · refine iff_of_false (fun h0 => ?_) fun h0 => hgf (hm.root_eq h0)
      rcases hw.moved.mine g hm with h1 | h1
      · exact hgf (h1.root_eq h0)
      · rw [h1] at h0
        cases h0
    · rw [hw.moved.other g hm]
  · by_cases hm : Mine O f x
    · refine iff_of_false (fun h0 => ?_) hm.ne_kept
      rcases hw.moved.mine x hm with h1 | h1
      · exact h1.ne_kept h0
      · rw [h1] at h0
        cases h0
    · rw [hw.moved.other x hm]

/-! ## A new space -/

/-- The roots and the kept frames after a space was built. -/
theorem Built.root_iff (hb : Built new O m O' m') (hheld : ∀ x, O x ≠ .held) (f : Nat) :
    O' f = .node f 0 0 ↔ O f = .node f 0 0 ∨ new = some f := by
  by_cases hf : O f = .free
  · constructor
    · intro h0
      rcases hb.part f hf with h1 | h1 | ⟨g, e, k, hg, h1⟩ <;> rw [h0] at h1 <;> cases h1
      exact Or.inr hg
    · rintro (h0 | h0)
      · rw [hf] at h0
        cases h0
      · exact (hb.root f h0).2
  · rw [hb.spared.use f hf (hheld f)]
    exact ⟨Or.inl, fun h0 => h0.resolve_right fun h1 => hf (hb.root f h1).1⟩

theorem Built.kept_iff {o : τ} (hb : Built new O m O' m') (hheld : ∀ x, O x ≠ .held) (x : Nat) :
    O' x = .kept o ↔ O x = .kept o := by
  by_cases hx : O x = .free
  · refine iff_of_false (fun h0 => ?_) (by rw [hx]; rintro ⟨⟩)
    rcases hb.part x hx with h1 | h1 | ⟨g, e, k, -, h1⟩ <;> rw [h0] at h1 <;> cases h1
  · rw [hb.spared.use x hx (hheld x)]

theorem Built.not_held (hb : Built new O m O' m') (hheld : ∀ x, O x ≠ .held) (x : Nat) : O' x ≠ .held := fun h0 =>
  hheld x (hb.spared.held x h0)

theorem Built.fresh (hb : Built new O m O' m') (hg : new = some g) : O g ≠ .node g 0 0 := fun h0 => by
  rw [(hb.root g hg).1] at h0
  cases h0

/-! ## A space that is given up -/

theorem Gone.root_iff (hg : Gone f sz O m O' m') (h : Frames lower O m) (g : Nat) :
    O' g = .node g 0 0 ↔ O g = .node g 0 0 ∧ f ≠ g := by
  by_cases hn : ∃ e k, O g = .node f e k
  · obtain ⟨e, k, hn⟩ := hn
    refine iff_of_false (fun h0 => ?_) fun h0 => ?_
    · rcases hg.node h hn with h1 | h1 <;> rw [h0] at h1 <;> cases h1
    · rw [h0.1] at hn
      exact h0.2 (Use.node.inj hn).1.symm
  · rw [hg.use g fun e k h0 => hn ⟨e, k, h0⟩]
    exact iff_self_and.mpr fun h0 h1 => hn ⟨0, 0, by rw [h0, h1]⟩

theorem Gone.kept_iff {o : τ} (hg : Gone f sz O m O' m') (h : Frames lower O m) (x : Nat) :
    O' x = .kept o ↔ O x = .kept o := by
  by_cases hn : ∃ e k, O x = .node f e k
  · obtain ⟨e, k, hn⟩ := hn
    refine iff_of_false (fun h0 => ?_) (by rw [hn]; rintro ⟨⟩)
    rcases hg.node h hn with h1 | h1 <;> rw [h0] at h1 <;> cases h1
  · rw [hg.use x fun e k h0 => hn ⟨e, k, h0⟩]

theorem Gone.not_held (hg : Gone f sz O m O' m') (h : Frames lower O m) (hheld : ∀ x, O x ≠ .held) (x : Nat) :
    O' x ≠ .held := by
  by_cases hn : ∃ e k, O x = .node f e k
  · obtain ⟨e, k, hn⟩ := hn
    intro h0
    rcases hg.node h hn with h1 | h1 <;> rw [h0] at h1 <;> cases h1
  · rw [hg.use x fun e k h0 => hn ⟨e, k, h0⟩]
    exact hheld x

end

end Xv6.Vm
