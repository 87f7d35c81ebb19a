import Mathlib.Algebra.Order.Ring.Nat
import Mathlib.Data.Option.Basic

/-!
# Radix trees in a memory of tables

A table has slots, and a slot may lead to the next table. The node of a tree at depth `e` with key `k` is found from the
root by the digits of `k` in base `b`. Tables are found by their names in a memory, so a change of one slot could show
at many places; where every table has one place only, it shows at one place.
-/

namespace Xv6.Lib.Radix

variable {ν α : Type}

/-- The node at depth `e` with the key `k`, where `next e` says what a slot above depth `e` leads to. -/
def node (b : Nat) (next : Nat → α → Option ν) (S : ν → Nat → α) (f : ν) : Nat → Nat → Option ν
  | 0, _ => some f
  | e + 1, k => (node b next S f e (k / b)).bind fun t => next (e + 1) (S t (k % b))

/-- The slot above the place at depth `e` with the key `k`; `z` where there is no table for it. -/
def slot (b : Nat) (next : Nat → α → Option ν) (z : α) (S : ν → Nat → α) (f : ν) : Nat → Nat → α
  | 0, _ => z
  | e + 1, k => (node b next S f e (k / b)).elim z fun t => S t (k % b)

/-- The places of a tree of depth `D` with the keys below `lim e` at depth `e`. -/
structure Places (b : Nat) where
  D : Nat
  lim : Nat → Nat
  up : ∀ e k, k < lim (e + 1) → k / b < lim e

def Places.In {b : Nat} (P : Places b) (e k : Nat) : Prop := e ≤ P.D ∧ k < P.lim e

variable {b : Nat} {next : Nat → α → Option ν} {z a : α} {S S' : ν → Nat → α} {f t u : ν}
    {e e' k k' i j : Nat} {P : Places b}

theorem Places.In.up (h : P.In (e + 1) k) : P.In e (k / b) := ⟨Nat.le_of_succ_le h.1, P.up e k h.2⟩

theorem node_zero : node b next S f 0 k = some f := rfl

theorem node_succ : node b next S f (e + 1) k = (node b next S f e (k / b)).bind fun t => next (e + 1) (S t (k % b)) :=
  rfl

theorem slot_succ : slot b next z S f (e + 1) k = (node b next S f e (k / b)).elim z fun t => S t (k % b) := rfl

/-- A node is what its slot leads to. -/
theorem node_eq (hz : next (e + 1) z = none) :
    node b next S f (e + 1) k = next (e + 1) (slot b next z S f (e + 1) k) := by
  rw [node_succ, slot_succ]
  cases node b next S f e (k / b) with
  | none => exact hz.symm
  | some t => rfl

theorem slot_of_node (h : node b next S f e (k / b) = some t) : slot b next z S f (e + 1) k = S t (k % b) := by
  rw [slot_succ, h]
  rfl

theorem child_div (hi : i < b) : (b * k + i) / b = k := by
  rw [Nat.mul_add_div (Nat.zero_lt_of_lt hi), Nat.div_eq_of_lt hi, Nat.add_zero]

theorem child_mod (hi : i < b) : (b * k + i) % b = i := by rw [Nat.mul_add_mod, Nat.mod_eq_of_lt hi]

/-- The slots depend on the tables above them only. -/
theorem node_congr (h : ∀ e' k' t, e' < e → P.In e' k' → node b next S f e' k' = some t → ∀ j, S' t j = S t j)
    (hin : P.In e k) : node b next S' f e k = node b next S f e k := by
  induction e generalizing k with
  | zero => rfl
  | succ e ih =>
      have hup := ih (fun e' k' t he' => h e' k' t (Nat.lt_succ_of_lt he')) hin.up
      rw [node_succ, node_succ, hup]
      cases ht : node b next S f e (k / b) with
      | none => rfl
      | some t =>
          dsimp only [Option.bind_some]
          rw [h e (k / b) t (Nat.lt_succ_self e) hin.up ht]

theorem slot_congr (h : ∀ e' k' t, e' < e → P.In e' k' → node b next S f e' k' = some t → ∀ j, S' t j = S t j)
    (hin : P.In e k) : slot b next z S' f e k = slot b next z S f e k := by
  cases e with
  | zero => rfl
  | succ e =>
      rw [slot_succ, slot_succ, node_congr (fun e' k' t he' => h e' k' t (Nat.lt_succ_of_lt he')) hin.up]
      cases ht : node b next S f e (k / b) with
      | none => rfl
      | some t => exact h e (k / b) t (Nat.lt_succ_self e) hin.up ht _

/-- The ancestors of a node are nodes. -/
theorem node_up (h : node b next S f e k = some u) (he : e' ≤ e) :
    ∃ t, node b next S f e' (k / b ^ (e - e')) = some t := by
  induction e generalizing k u with
  | zero =>
      rw [Nat.le_zero.mp he]
      exact ⟨f, rfl⟩
  | succ e ih =>
      by_cases hl : e' = e + 1
      · subst hl
        rw [Nat.sub_self, Nat.pow_zero, Nat.div_one]
        exact ⟨u, h⟩
      · obtain ⟨t, ht, -⟩ := Option.bind_eq_some_iff.mp h
        have hp : k / b / b ^ (e - e') = k / b ^ (e + 1 - e') := by
          rw [Nat.div_div_eq_div_mul, ← Nat.pow_succ', Nat.succ_sub (by omega)]
        rw [← hp]
        exact ih ht (by omega)

/-! ## Changing a slot -/

section

variable [DecidableEq ν]

/-- The tables with the slot `i` of `t` replaced. -/
def setSlot (S : ν → Nat → α) (t : ν) (i : Nat) (a : α) : ν → Nat → α := fun u j => if u = t ∧ j = i then a else S u j

theorem setSlot_self (S : ν → Nat → α) (t : ν) (i : Nat) (a : α) : setSlot S t i a t i = a := if_pos ⟨rfl, rfl⟩

theorem setSlot_table (h : u ≠ t) (S : ν → Nat → α) (i j : Nat) (a : α) : setSlot S t i a u j = S u j :=
  if_neg fun h0 => h h0.1

theorem setSlot_slot (h : j ≠ i) (S : ν → Nat → α) (t u : ν) (a : α) : setSlot S t i a u j = S u j :=
  if_neg fun h0 => h h0.2

/-- A table that has one place gets a slot that leads to nothing or to an empty table, in the place of one that leads to
nothing, unless the slot is at the end of the tree: only that slot changes. -/
theorem slot_setSlot (hz : ∀ e, next e z = none) (hi : i < b) (ht : node b next S f e k = some t)
    (hone : ∀ e' k', e' < P.D → P.In e' k' → node b next S f e' k' = some t → e' = e ∧ k' = k)
    (hbelow : e + 1 < P.D → next (e + 1) (S t i) = none ∧ ∀ y, next (e + 1) a = some y → y ≠ t ∧ ∀ j < b, S y j = z)
    (hin : P.In e' k') : slot b next z (setSlot S t i a) f e' k' =
      if e' = e + 1 ∧ k' = b * k + i then a else slot b next z S f e' k' := by
  induction e' generalizing k' with
  | zero => exact (if_neg fun h0 => Nat.succ_ne_zero e h0.1.symm).symm
  | succ e' ih =>
      have hb : 0 < b := Nat.zero_lt_of_lt hi
      -- the parent is what it was, or the new table
      have hpar : node b next (setSlot S t i a) f e' (k' / b) =
          if e' = e + 1 ∧ k' / b = b * k + i then next (e + 1) a else node b next S f e' (k' / b) := by
        cases e' with
        | zero => exact (if_neg fun h0 => Nat.succ_ne_zero e h0.1.symm).symm
        | succ e' =>
            rw [node_eq (hz _), ih hin.up, node_eq (z := z) (hz _)]
            split
            · rename_i hc
              rw [hc.1]
            · rfl
      rw [slot_succ, slot_succ, hpar]
      by_cases hc : e' = e + 1 ∧ k' / b = b * k + i
      · obtain ⟨rfl, hk⟩ := hc
        obtain ⟨hnone, hnew⟩ := hbelow hin.1
        have hold : node b next S f (e + 1) (k' / b) = none := by
          rw [hk, node_succ, child_div hi, ht, child_mod hi]
          exact hnone
        rw [if_pos ⟨rfl, hk⟩, if_neg fun h0 => Nat.succ_ne_self _ h0.1, hold]
        cases hy : next (e + 1) a with
        | none => rfl
        | some y =>
            obtain ⟨hyt, hempty⟩ := hnew y hy
            exact (setSlot_table hyt S i _ a).trans (hempty _ (Nat.mod_lt _ hb))
      · rw [if_neg hc]
        cases hu : node b next S f e' (k' / b) with
        | none =>
            rw [if_neg]
            · rfl
            · rintro ⟨he, rfl⟩
              cases Nat.succ.inj he
              rw [child_div hi, ht] at hu
              cases hu
        | some u =>
            dsimp only [Option.elim_some]
            by_cases hut : u = t
            · subst hut
              obtain ⟨rfl, hk⟩ := hone e' (k' / b) hin.1 hin.up hu
              by_cases hd : k' % b = i
              · rw [hd, setSlot_self, if_pos]
                refine ⟨rfl, ?_⟩
                rw [← hk, ← hd, Nat.div_add_mod]
              · rw [setSlot_slot hd, if_neg]
                rintro ⟨-, rfl⟩
                exact hd (child_mod hi)
            · rw [setSlot_table hut, if_neg]
              rintro ⟨he, rfl⟩
              cases Nat.succ.inj he
              rw [child_div hi, ht] at hu
              exact hut (Option.some.inj hu).symm

end

end Xv6.Lib.Radix
