import Mathlib.Data.Fintype.Card
import Xv6.Lib.Upd

/-!
# Counting references

`refs g b` counts the entries of a table of optional pointers that point to `b`. The rules say how the
count changes when one entry of the table does. `UsedBy` counts from both sides: the list of the users
of each object, and the list of the objects that each user uses.
-/

namespace Xv6.Lib

variable {α β : Type} [Fintype α] [DecidableEq α] [DecidableEq β]

/-- One for `b`, and zero for all others. -/
def one (b : β) : β → Nat := fun c => if c = b then 1 else 0

@[simp] theorem one_self (b : β) : one b b = 1 := if_pos rfl

theorem one_of_ne {b c : β} (h : c ≠ b) : one b c = 0 := if_neg h

/-- The number of entries that point to `b`. -/
def refs (g : α → Option β) (b : β) : Nat := (Finset.univ.filter fun a => g a = some b).card

omit [DecidableEq α] in
theorem refs_pos {g : α → Option β} {a : α} {b : β} (h : g a = some b) : 0 < refs g b :=
  Finset.card_pos.mpr ⟨a, Finset.mem_filter.mpr ⟨Finset.mem_univ a, h⟩⟩

omit [DecidableEq α] in
theorem refs_eq_zero {g : α → Option β} {b : β} : refs g b = 0 ↔ ∀ a, g a ≠ some b := by
  simp [refs, Finset.card_eq_zero, Finset.filter_eq_empty_iff]

/-- An entry that points nowhere is set. -/
theorem refs_set {g : α → Option β} {a : α} (h : g a = none) (v b : β) :
    refs (upd g a (some v)) b = refs g b + one v b := by
  by_cases hb : b = v
  · subst hb
    have hset : (Finset.univ.filter fun x => upd g a (some b) x = some b) =
        insert a (Finset.univ.filter fun x => g x = some b) := by
      ext x
      rw [Finset.mem_insert, Finset.mem_filter, Finset.mem_filter]
      by_cases hx : x = a
      · simp [hx]
      · simp [hx]
    rw [refs, hset, Finset.card_insert_of_notMem (by simp [h]), one_self]
    rfl
  · rw [one_of_ne hb]
    refine congrArg Finset.card (Finset.filter_congr fun x _ => ?_)
    by_cases hx : x = a
    · subst hx
      rw [upd_self, h]
      simp [Ne.symm hb]
    · rw [upd_of_ne hx]

/-- An entry is cleared. -/
theorem refs_clear {g : α → Option β} {a : α} {v : β} (h : g a = some v) (b : β) :
    refs g b = refs (upd g a none) b + one v b := by
  have := refs_set (g := upd g a none) (upd_self g a none) v b
  rwa [upd_upd, ← h, upd_eta] at this

/-! ## Users and what they use -/

section

variable {α β : Type} [DecidableEq α] [DecidableEq β] {users : β → List α} {uses uses' : α → List β} {a c : α} {b : β}

/-- The user `a` is in the list of `b` as often as `b` is in the list of `a`. -/
def UsedBy (users : β → List α) (uses : α → List β) : Prop := ∀ a b, (users b).count a = (uses a).count b

namespace UsedBy

theorem mem_iff (h : UsedBy users uses) : a ∈ users b ↔ b ∈ uses a := by
  rw [← List.count_pos_iff, ← List.count_pos_iff, h a b]

/-- What each user uses is only reordered. -/
theorem keep (h : UsedBy users uses) (hp : ∀ a, (uses' a).Perm (uses a)) : UsedBy users uses' := by
  intro a b
  rw [(hp a).count_eq, h a b]

/-- The user `a` uses `b` once more. -/
theorem add (h : UsedBy users uses) (ha : (uses' a).Perm (b :: uses a)) (ho : ∀ c, c ≠ a → uses' c = uses c) :
    UsedBy (upd users b (a :: users b)) uses' := by
  intro c d
  by_cases hd : d = b
  · subst hd
    rw [upd_self, List.count_cons, h c d]
    by_cases hc : c = a
    · subst hc
      rw [ha.count_eq, List.count_cons]
      simp
    · rw [ho c hc]
      simp [Ne.symm hc]
  · rw [upd_of_ne hd, h c d]
    by_cases hc : c = a
    · subst hc
      rw [ha.count_eq, List.count_cons]
      simp [Ne.symm hd]
    · rw [ho c hc]

/-- The user `a` uses `b` once less. -/
theorem drop (h : UsedBy users uses) (ha : (uses a).Perm (b :: uses' a)) (ho : ∀ c, c ≠ a → uses' c = uses c) :
    UsedBy (upd users b ((users b).erase a)) uses' := by
  intro c d
  by_cases hd : d = b
  · subst hd
    rw [upd_self]
    by_cases hc : c = a
    · subst hc
      rw [List.count_erase_self, h c d, ha.count_eq, List.count_cons_self]
      rfl
    · rw [List.count_erase_of_ne hc, h c d, ho c hc]
  · rw [upd_of_ne hd, h c d]
    by_cases hc : c = a
    · subst hc
      rw [ha.count_eq, List.count_cons_of_ne (Ne.symm hd)]
    · rw [ho c hc]

/-- An object with one user. -/
theorem single (h : UsedBy users uses) (hlen : (users b).length = 1) (ha : b ∈ uses a) :
    (uses a).count b = 1 ∧ ∀ c, c ≠ a → b ∉ uses c := by
  obtain ⟨x, hx⟩ := List.length_eq_one_iff.mp hlen
  have hmem := h.mem_iff.mpr ha
  rw [hx, List.mem_singleton] at hmem
  subst hmem
  refine ⟨by rw [← h a b, hx]; simp, ?_⟩
  intro c hc hcb
  have := h.mem_iff.mpr hcb
  rw [hx, List.mem_singleton] at this
  exact hc this

end UsedBy

end

end Xv6.Lib
