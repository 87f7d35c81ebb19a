import Mathlib.Logic.Function.Basic

/-!
# Halting state programs and their weakest preconditions

Sequential kernel code is a state program that returns, panics, sleeps with nobody left to wake it, loops for ever, or
overwrites memory that the program does not describe. `Wp x Q E s` says that running `x` in the state `s` either returns
with `Q` or halts with `E`. Every specification in this development has the form `P s → Wp x Q E s`.
-/

namespace Xv6.Lib

/-- The ways in which a program does not return. -/
inductive Halt where
  | panic (msg : String)
  | sleep
  | diverge
  | wild
deriving DecidableEq, Repr

/-- Programs over the state `σ`. -/
abbrev Prog (σ α : Type) : Type := StateT σ (Except Halt) α

/-- The weakest precondition of `x` for the postcondition `Q` and the condition `E` on halting. -/
def Wp {σ α : Type} (x : Prog σ α) (Q : α → σ → Prop) (E : Halt → Prop) (s : σ) : Prop :=
  match x s with
  | .ok (a, s') => Q a s'
  | .error e => E e

/-- `if (c) panic(msg);` -/
def panicIf {σ : Type} (c : Prop) [Decidable c] (msg : String) : Prog σ Unit :=
  if c then throw (.panic msg) else pure ()

/-- Runs a program on a part of the state. -/
def Prog.on {σ τ α : Type} (get : σ → τ) (put : τ → σ → σ) (x : Prog τ α) : Prog σ α := fun s =>
  match x (get s) with
  | .ok (a, t) => .ok (a, put t s)
  | .error e => .error e

variable {σ τ α β : Type} {Q R : α → σ → Prop} {E F : Halt → Prop} {s : σ}

/-! ## Rules for the basic programs -/

@[simp] theorem wp_pure (a : α) : Wp (pure a : Prog σ α) Q E s ↔ Q a s := Iff.rfl

@[simp] theorem wp_throw (e : Halt) : Wp (throw e : Prog σ α) Q E s ↔ E e := Iff.rfl

@[simp] theorem wp_get {Q : σ → σ → Prop} : Wp (get : Prog σ σ) Q E s ↔ Q s s := Iff.rfl

@[simp] theorem wp_set {Q : PUnit → σ → Prop} (t : σ) :
    Wp (set t : Prog σ PUnit) Q E s ↔ Q ⟨⟩ t := Iff.rfl

@[simp] theorem wp_modify {Q : PUnit → σ → Prop} (f : σ → σ) :
    Wp (modify f : Prog σ PUnit) Q E s ↔ Q ⟨⟩ (f s) := Iff.rfl

@[simp] theorem wp_bind (x : Prog σ β) (f : β → Prog σ α) :
    Wp (x >>= f) Q E s ↔ Wp x (fun b s' => Wp (f b) Q E s') E s := by
  simp only [Wp, bind, StateT.bind, Except.bind]
  rcases x s with e | ⟨b, s'⟩ <;> rfl

@[simp] theorem wp_panicIf {Q : Unit → σ → Prop} (c : Prop) [Decidable c] (msg : String) :
    Wp (panicIf c msg : Prog σ Unit) Q E s ↔ (c → E (.panic msg)) ∧ (¬ c → Q () s) := by
  unfold panicIf
  split <;> rename_i h <;> simp [h]

@[simp] theorem wp_ite (c : Prop) [Decidable c] (x y : Prog σ α) :
    Wp (if c then x else y) Q E s ↔ (c → Wp x Q E s) ∧ (¬ c → Wp y Q E s) := by
  split <;> rename_i h <;> simp [h]

@[simp] theorem wp_on {get : σ → τ} {put : τ → σ → σ} (x : Prog τ α) :
    Wp (x.on get put) Q E s ↔ Wp x (fun a t => Q a (put t s)) E (get s) := by
  simp only [Wp, Prog.on]
  rcases x (get s) with e | ⟨a, t⟩ <;> rfl

/-! ## Structural rules -/

theorem Wp.mono {x : Prog σ α} (h : Wp x Q E s) (hQ : ∀ a s', Q a s' → R a s') (hE : ∀ e, E e → F e) :
    Wp x R F s := by
  unfold Wp at h ⊢
  rcases hx : x s with e | ⟨a, s'⟩ <;> rw [hx] at h
  · exact hE e h
  · exact hQ a s' h

/-- The consequence rule that keeps the condition on halting. -/
theorem Wp.post {x : Prog σ α} (h : Wp x Q E s) (hQ : ∀ a s', Q a s' → R a s') : Wp x R E s :=
  h.mono hQ fun _ he => he

/-- The sequencing rule: the first program's specification, then the rest from what it gives. -/
theorem Wp.bind {x : Prog σ β} {f : β → Prog σ α} {R : β → σ → Prop} (h : Wp x R E s)
    (hf : ∀ b s', R b s' → Wp (f b) Q E s') : Wp (x >>= f) Q E s :=
  (wp_bind x f).mpr (h.post hf)

/-- The sequencing rule for a first program that halts under its own condition. -/
theorem Wp.seq {x : Prog σ β} {f : β → Prog σ α} {R : β → σ → Prop} (h : Wp x R F s)
    (hE : ∀ e, F e → E e) (hf : ∀ b s', R b s' → Wp (f b) Q E s') : Wp (x >>= f) Q E s :=
  (wp_bind x f).mpr (h.mono hf hE)

theorem Wp.of_ok {x : Prog σ α} {a : α} {s' : σ} (h : Wp x Q E s) (hx : x s = .ok (a, s')) : Q a s' := by
  unfold Wp at h
  rwa [hx] at h

/-- A condition on the results alone. -/
theorem Wp.of_forall_ok {x : Prog σ α} (h : ∀ a s', x s = .ok (a, s') → Q a s') (hE : ∀ e, E e) : Wp x Q E s := by
  unfold Wp
  rcases hx : x s with e | ⟨a, s'⟩
  · exact hE e
  · exact h a s' hx

theorem Wp.of_error {x : Prog σ α} {e : Halt} (h : Wp x Q E s) (hx : x s = .error e) : E e := by
  unfold Wp at h
  rwa [hx] at h

/-- A program that cannot halt returns. -/
theorem Wp.returns {x : Prog σ α} (h : Wp x Q (fun _ => False) s) : ∃ a s', x s = .ok (a, s') ∧ Q a s' := by
  unfold Wp at h
  rcases hx : x s with e | ⟨a, s'⟩
  · rw [hx] at h
    exact h.elim
  · rw [hx] at h
    exact ⟨a, s', rfl, h⟩

theorem Wp.returns_of {x : Prog σ α} (h : Wp x Q E s) (hE : ∀ e, ¬ E e) : ∃ a s', x s = .ok (a, s') ∧ Q a s' :=
  Wp.returns (h.mono (fun _ _ h => h) hE)

/-! ## Programs with the same results -/

theorem get_bind (f : σ → Prog σ α) (s : σ) : (get >>= f) s = f s s := rfl

theorem bind_eq {x y : Prog σ β} {f g : β → Prog σ α} (h : x s = y s)
    (hf : ∀ b s', y s = .ok (b, s') → f b s' = g b s') :
    (x >>= f) s = (y >>= g) s := by
  simp only [Bind.bind, StateT.bind, Except.bind, h]
  rcases hy : y s with e | ⟨b, s'⟩
  · rfl
  · exact hf b s' hy

theorem panicIf_congr {c d : Prop} [Decidable c] [Decidable d] (h : c ↔ d) (msg : String) :
    (panicIf c msg : Prog σ Unit) = panicIf d msg := by
  unfold panicIf
  simp only [h]

end Xv6.Lib
