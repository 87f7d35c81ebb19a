import Xv6.Lib.Wp

/-!
# Loops

`loop` runs a body until it leaves with a result; the fuel bounds the number of rounds, and a loop
that uses it up diverges. The rule `wp_loop` asks for an invariant and for a measure that decreases
in every round, so a loop proved with it never runs out of fuel.
-/

namespace Xv6.Lib

variable {σ ι α : Type}

/-- `for (;;)` over the loop variables `ι`: the body goes on with `.inl` or leaves with `.inr`. -/
def loop (body : ι → Prog σ (ι ⊕ α)) : Nat → ι → Prog σ α
  | 0, _ => throw .diverge
  | fuel + 1, i => do
    match ← body i with
    | .inl i' => loop body fuel i'
    | .inr a => pure a

theorem wp_loop {body : ι → Prog σ (ι ⊕ α)} {Q : α → σ → Prop} {E : Halt → Prop}
    (Inv : ι → σ → Prop) (μ : ι → Nat)
    (hbody : ∀ i s, Inv i s → Wp (body i) (fun r s' =>
      match r with
      | .inl i' => Inv i' s' ∧ μ i' < μ i
      | .inr a => Q a s') E s) :
    ∀ (fuel : Nat) (i : ι) (s : σ), Inv i s → μ i < fuel → Wp (loop body fuel i) Q E s
  | 0, _, _, _, h => absurd h (Nat.not_lt_zero _)
  | fuel + 1, i, s, hi, h => by
    unfold loop
    refine Wp.bind (hbody i s hi) ?_
    rintro (i' | a) s' hr
    · exact wp_loop Inv μ hbody fuel i' s' hr.1 (by have := hr.2; omega)
    · exact hr

/-- The rule for a loop whose measure depends on the state, too: `Inv n` holds when `n` bounds the rounds that are left.
-/
theorem wp_loop_within {body : ι → Prog σ (ι ⊕ α)} {Q : α → σ → Prop} {E : Halt → Prop}
    (Inv : Nat → ι → σ → Prop)
    (hbody : ∀ n i s, Inv n i s → Wp (body i) (fun r s' =>
      match r with
      | .inl i' => ∃ n' < n, Inv n' i' s'
      | .inr a => Q a s') E s) :
    ∀ (fuel n : Nat) (i : ι) (s : σ), Inv n i s → n < fuel → Wp (loop body fuel i) Q E s
  | 0, _, _, _, _, h => absurd h (Nat.not_lt_zero _)
  | fuel + 1, n, i, s, hi, h => by
    unfold loop
    refine Wp.bind (hbody n i s hi) ?_
    rintro (i' | a) s' hr
    · obtain ⟨n', hn', hi'⟩ := hr
      exact wp_loop_within Inv hbody fuel n' i' s' hi' (by omega)
    · exact hr

/-- The rule for a loop that may use up its fuel. -/
theorem wp_loop_or {body : ι → Prog σ (ι ⊕ α)} {Q : α → σ → Prop} {E : Halt → Prop} (hE : E .diverge)
    (Inv : ι → σ → Prop)
    (hbody : ∀ i s, Inv i s → Wp (body i) (fun r s' =>
      match r with
      | .inl i' => Inv i' s'
      | .inr a => Q a s') E s) :
    ∀ (fuel : Nat) (i : ι) (s : σ), Inv i s → Wp (loop body fuel i) Q E s
  | 0, _, _, _ => hE
  | fuel + 1, i, s, hi => by
    unfold loop
    refine Wp.bind (hbody i s hi) ?_
    rintro (i' | a) s' hr
    · exact wp_loop_or hE Inv hbody fuel i' s' hr
    · exact hr

/-- A loop whose first round goes on. -/
theorem loop_inl {body : ι → Prog σ (ι ⊕ α)} {fuel : Nat} {i j : ι} {s : σ} {x : Prog σ PUnit}
    (h : body i s = (x >>= fun _ => pure (.inl j)) s) :
    loop body (fuel + 1) i s = (x >>= fun _ => loop body fuel j) s := by
  simp only [loop, Bind.bind, StateT.bind, Except.bind] at h ⊢
  rw [h]
  rcases x s with e | ⟨_, s'⟩ <;> rfl

/-- A loop whose first round is the last. -/
theorem loop_inr {body : ι → Prog σ (ι ⊕ α)} {fuel : Nat} {i : ι} {s s' : σ} {a : α} (h : body i s = .ok (.inr a, s')) :
    loop body (fuel + 1) i s = .ok (a, s') := by
  simp only [loop, Bind.bind, StateT.bind, Except.bind, h]
  rfl

-- proofs about loops go through the rule, and must not run the loop
attribute [irreducible] loop

/-- `n` rounds of a loop lead from the variables `i` and the state `s` to `j` and `t`, where the next round begins. -/
inductive Rounds (body : ι → Prog σ (ι ⊕ α)) (i : ι) (s : σ) : Nat → ι → σ → Prop where
  | zero : Rounds body i s 0 i s
  | succ {n : Nat} {j j' : ι} {t t' : σ} (h : Rounds body i s n j t) (hbody : body j t = .ok (.inl j', t')) :
      Rounds body i s (n + 1) j' t'

/-- What one round keeps holds after any number of rounds. -/
theorem Rounds.invariant {body : ι → Prog σ (ι ⊕ α)} {i j : ι} {s t : σ} {n : Nat} (Inv : Nat → ι → σ → Prop)
    (hbody : ∀ n i s, Inv n i s → Wp (body i) (fun r s' => ∀ i', r = .inl i' → Inv (n + 1) i' s') (fun _ => True) s)
    (h0 : Inv 0 i s) (h : Rounds body i s n j t) : Inv n j t := by
  induction h with
  | zero => exact h0
  | succ _ hok ih => exact (hbody _ _ _ ih).of_ok hok _ rfl

/-! ## Loops over a list -/

/-- `for` over the elements of a list, in order. -/
def each : List ι → (ι → Prog σ Unit) → Prog σ Unit
  | [], _ => pure ()
  | i :: l, f => do
    f i
    each l f

theorem each_append (l l' : List ι) (f : ι → Prog σ Unit) : each (l ++ l') f = each l f >>= fun _ => each l' f := by
  induction l with
  | nil => rfl
  | cons i l ih =>
      rw [List.cons_append, each, each, ih, bind_assoc]

theorem each_map {κ : Type} (φ : κ → ι) (l : List κ) (f : ι → Prog σ Unit) :
    each (l.map φ) f = each l fun i => f (φ i) := by
  induction l with
  | nil => rfl
  | cons i l ih => rw [List.map_cons, each, each, ih]

/-- Two loops whose rounds have the same results from the states that the second one passes. -/
theorem each_eq {f g : ι → Prog σ Unit} {l : List ι} (Inv : σ → Prop)
    (hstep : ∀ i ∈ l, ∀ s, Inv s → f i s = g i s ∧ Wp (g i) (fun _ s' => Inv s') (fun _ => True) s) :
    ∀ {s : σ}, Inv s → each l f s = each l g s := by
  induction l with
  | nil => exact fun _ => rfl
  | cons i l ih =>
      intro s hs
      obtain ⟨heq, hinv⟩ := hstep i List.mem_cons_self s hs
      exact bind_eq heq fun _ s' hok => ih (fun j hj => hstep j (List.mem_cons_of_mem i hj)) (hinv.of_ok hok)

/-- `Inv l` holds when the elements `l` are left. -/
theorem wp_each {f : ι → Prog σ Unit} {E : Halt → Prop} (Inv : List ι → σ → Prop)
    (hstep : ∀ i l s, Inv (i :: l) s → Wp (f i) (fun _ s' => Inv l s') E s) :
    ∀ (l : List ι) (s : σ), Inv l s → Wp (each l f) (fun _ s' => Inv [] s') E s
  | [], _, h => h
  | i :: l, s, h => Wp.bind (hstep i l s h) fun _ s' h' => wp_each Inv hstep l s' h'

/-- What the rounds do to the state adds up, if it is reflexive and transitive. -/
theorem wp_each_rel {f : ι → Prog σ Unit} {E : Halt → Prop} {R : σ → σ → Prop} {l : List ι} (hrefl : ∀ s, R s s)
    (htrans : ∀ {s s' s''}, R s s' → R s' s'' → R s s'') (hstep : ∀ i ∈ l, ∀ s, Wp (f i) (fun _ s' => R s s') E s)
    (s : σ) :
    Wp (each l f) (fun _ s' => R s s') E s := by
  induction l generalizing s with
  | nil => exact hrefl s
  | cons i l ih =>
      refine Wp.bind (hstep i List.mem_cons_self s) fun _ s₁ h₁ => ?_
      exact (ih (fun j hj => hstep j (List.mem_cons_of_mem i hj)) s₁).post fun _ s₂ h₂ => htrans h₁ h₂

/-- `for` over the first `n` numbers: `Inv i` holds before the round `i`. -/
theorem wp_each_range {f : Nat → Prog σ Unit} {E : Halt → Prop} {n : Nat} {s : σ} (Inv : Nat → σ → Prop)
    (hstep : ∀ i < n, ∀ s, Inv i s → Wp (f i) (fun _ s' => Inv (i + 1) s') E s) (h : Inv 0 s) :
    Wp (each (List.range n) f) (fun _ s' => Inv n s') E s := by
  refine (wp_each (fun l s => ∃ j ≤ n, l = (List.range n).drop j ∧ Inv j s) ?_ _ s ⟨0, Nat.zero_le n, rfl, h⟩).post ?_
  · rintro i l s ⟨j, hj, hl, hi⟩
    have hlt : j < n := by
      refine Nat.lt_of_le_of_ne hj fun h0 => ?_
      have hnil : (List.range n).drop n = [] := List.drop_eq_nil_of_le (Nat.le_of_eq List.length_range)
      rw [h0, hnil] at hl
      cases hl
    rw [List.drop_eq_getElem_cons (by rwa [List.length_range]), List.getElem_range] at hl
    obtain ⟨rfl, rfl⟩ := List.cons.inj hl
    exact (hstep i hlt s hi).post fun _ s' h' => ⟨i + 1, hlt, rfl, h'⟩
  · rintro _ s' ⟨j, hj, hl, hi⟩
    have hlen := congrArg List.length hl
    rw [List.length_drop, List.length_range, List.length_nil] at hlen
    rwa [show n = j by omega]

end Xv6.Lib
