import Mathlib.Logic.Function.Basic

/-!
# Updating tables

`upd f a v` is `Function.update` for tables whose entries have one type. Its body has no cast, so
that the kernel can evaluate a long chain of updates.
-/

namespace Xv6.Lib

variable {α β : Type} [DecidableEq α]

/-- The table `f` with the entry `a` replaced by `v`. -/
def upd (f : α → β) (a : α) (v : β) : α → β := fun x => if x = a then v else f x

theorem upd_apply (f : α → β) (a : α) (v : β) (x : α) : upd f a v x = if x = a then v else f x := rfl

@[simp] theorem upd_self (f : α → β) (a : α) (v : β) : upd f a v a = v := if_pos rfl

@[simp] theorem upd_of_ne {a x : α} (h : x ≠ a) (f : α → β) (v : β) : upd f a v x = f x := if_neg h

@[simp] theorem upd_upd (f : α → β) (a : α) (v w : β) : upd (upd f a v) a w = upd f a w := by
  funext x
  by_cases h : x = a
  · simp [h]
  · simp [h]

@[simp] theorem upd_eta (f : α → β) (a : α) : upd f a (f a) = f := by
  funext x
  by_cases h : x = a
  · simp [h]
  · simp [h]

@[simp] theorem upd_const (a : α) (v : β) : upd (fun _ => v) a v = fun _ => v := upd_eta (fun _ => v) a

theorem upd_comm {a b : α} (h : a ≠ b) (f : α → β) (v w : β) : upd (upd f a v) b w = upd (upd f b w) a v := by
  funext x
  by_cases ha : x = a
  · subst ha
    simp [h]
  · simp [upd_apply, ha]

theorem map_upd {γ : Type} (g : β → γ) (f : α → β) (a : α) (v : β) (x : α) :
    g (upd f a v x) = upd (fun y => g (f y)) a (g v) x := by
  by_cases h : x = a
  · simp [h]
  · simp [h]

/-- What holds of all entries of a changed table: the new entry and the others separately. -/
theorem forall_upd {f : α → β} {a : α} {v : β} {P : α → β → Prop} (ha : P a v) (h : ∀ x, x ≠ a → P x (f x)) (x : α) :
    P x (upd f a v x) := by
  by_cases hx : x = a
  · subst hx
    rwa [upd_self]
  · rw [upd_of_ne hx]
    exact h x hx

end Xv6.Lib
