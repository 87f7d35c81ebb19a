import Mathlib.Data.List.Basic

/-!
# Circular lists in the order of their places

`Seg next a l c` says that the links go from `a` through the places `l` to `c`. In a ring the last place is linked to
the first one, and the places are in increasing order, so a walk along the links passes all of them.
-/

namespace Xv6.Lib

section Seg

variable {α : Type} {next next' : α → α} {a c x : α} {l m : List α}

/-- From `a` the links go through the places `l` to `c`. -/
def Seg (next : α → α) : α → List α → α → Prop
  | a, [], c => a = c
  | a, x :: l, c => a = x ∧ Seg next (next x) l c

theorem seg_append : ∀ {l : List α} {a : α}, Seg next a (l ++ m) c ↔ ∃ b, Seg next a l b ∧ Seg next b m c
  | [], a => by simp [Seg]
  | x :: l, a => by simp [Seg, seg_append, and_assoc]

theorem seg_split : Seg next a (l ++ x :: m) c ↔ Seg next a l x ∧ Seg next (next x) m c := by
  simp [seg_append, Seg]

theorem Seg.congr (h : Seg next a l c) (hn : ∀ x ∈ l, next' x = next x) : Seg next' a l c := by
  induction l generalizing a with
  | nil => exact h
  | cons x l ih =>
      refine ⟨h.1, ?_⟩
      rw [hn x List.mem_cons_self]
      exact ih h.2 fun y hy => hn y (List.mem_cons_of_mem x hy)

end Seg

/-- The links lead around through `b` and the places `l` above it, from each to the next higher one. -/
structure Ring (next : Nat → Nat) (b : Nat) (l : List Nat) : Prop where
  links : Seg next b (b :: l) b
  order : (b :: l).Pairwise (· < ·)

variable {next : Nat → Nat} {b p q x y N : Nat} {l : List Nat}

/-- `q` is the place after `p`, or the first place if there is none above `p`. -/
def After (b : Nat) (l : List Nat) (p q : Nat) : Prop :=
  (p < q ∧ q ∈ l ∧ ∀ x ∈ b :: l, x ≤ p ∨ q ≤ x) ∨ (q = b ∧ ∀ x ∈ b :: l, x ≤ p)

theorem Ring.le (h : Ring next b l) (hx : x ∈ b :: l) : b ≤ x := by
  obtain rfl | hx := List.mem_cons.mp hx
  · exact Nat.le_refl _
  · exact Nat.le_of_lt (List.rel_of_pairwise_cons h.order hx)

theorem Ring.after (h : Ring next b l) (hp : p ∈ b :: l) : After b l p (next p) := by
  obtain ⟨l₁, l₂, hl⟩ := List.append_of_mem hp
  have hlinks := h.links
  have horder := h.order
  rw [hl] at hlinks horder
  obtain ⟨-, hlinks⟩ := seg_split.mp hlinks
  obtain ⟨-, horder, hlow⟩ := List.pairwise_append.mp horder
  rw [List.pairwise_cons] at horder
  have hbelow : ∀ x ∈ l₁, x ≤ p := fun x hx => Nat.le_of_lt (hlow x hx p List.mem_cons_self)
  cases l₂ with
  | nil =>
      refine Or.inr ⟨hlinks, fun x hx => ?_⟩
      rw [hl] at hx
      obtain hx | hx := List.mem_append.mp hx
      · exact hbelow x hx
      · exact Nat.le_of_eq (List.mem_singleton.mp hx)
  | cons y l₂ =>
      obtain ⟨hy, -⟩ := hlinks
      have hpy : p < y := horder.1 y List.mem_cons_self
      rw [hy]
      refine Or.inl ⟨hpy, ?_, fun x hx => ?_⟩
      · have hmem : y ∈ b :: l := by
          rw [hl]
          simp
        obtain rfl | hmem := List.mem_cons.mp hmem
        · exact absurd (h.le hp) (Nat.not_le_of_lt hpy)
        · exact hmem
      · rw [hl] at hx
        obtain hx | hx := List.mem_append.mp hx
        · exact Or.inl (hbelow x hx)
        obtain rfl | hx := List.mem_cons.mp hx
        · exact Or.inl (Nat.le_refl _)
        obtain rfl | hx := List.mem_cons.mp hx
        · exact Or.inr (Nat.le_refl _)
        · exact Or.inr (Nat.le_of_lt ((List.pairwise_cons.mp horder.2).1 x hx))

theorem After.mem (h : After b l p q) : q ∈ b :: l := by
  obtain ⟨-, h, -⟩ | ⟨rfl, -⟩ := h
  · exact List.mem_cons_of_mem b h
  · exact List.mem_cons_self

/-! ## Walks -/

/-- How far the place `x` is ahead of `p` on a circle of length `N`. -/
def ahead (N p x : Nat) : Nat := if p ≤ x then x - p else x + N - p

theorem ahead_lt (hx : x < N) : ahead N p x < N := by
  unfold ahead
  split <;> omega

theorem ahead_self : ahead N p p = 0 := by simp [ahead]

theorem eq_of_ahead (hp : p < N) (h : ahead N p x = 0) : p = x := by
  unfold ahead at h
  split at h <;> omega

/-- A step along the links shortens the way to every other place by the same length. -/
theorem Ring.ahead_next (h : Ring next b l) (hN : ∀ x ∈ b :: l, x < N) (hp : p ∈ b :: l) :
    ∃ d, 0 < d ∧ ∀ x ∈ b :: l, p ≠ x → ahead N p x = d + ahead N (next p) x := by
  have hb := h.le hp
  have hpN := hN p hp
  obtain ⟨hlt, hq, hgap⟩ | ⟨hq, hmax⟩ := h.after hp
  · have hqN := hN _ (List.mem_cons_of_mem b hq)
    refine ⟨next p - p, by omega, fun x hx hne => ?_⟩
    have hxN := hN x hx
    have hcase := hgap x hx
    unfold ahead
    split <;> split <;> omega
  · refine ⟨b + N - p, by omega, fun x hx hne => ?_⟩
    have hxp := hmax x hx
    have hbx := h.le hx
    rw [hq, ahead, ahead, if_pos hbx]
    split <;> omega

/-- A walk that starts behind the place `p` passes every other place before it is at `p` again. -/
theorem Ring.ahead_last (h : Ring next b l) (hN : ∀ x ∈ b :: l, x < N) (hp : p ∈ b :: l) (hx : x ∈ b :: l) :
    ahead N (next p) x ≤ ahead N (next p) p := by
  have hxN := hN x hx
  obtain ⟨hlt, hq, hgap⟩ | ⟨hq, hmax⟩ := h.after hp
  · have hcase := hgap x hx
    unfold ahead
    split <;> split <;> omega
  · have hxp := hmax x hx
    have hbx := h.le hx
    rw [hq, ahead, ahead, if_pos hbx]
    split <;> omega

end Xv6.Lib
