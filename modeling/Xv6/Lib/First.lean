import Mathlib.Data.List.Basic
import Xv6.Lib.Upd

/-!
# The first entry with a key

A search list in which several entries may have one key: only the first of them is ever found.
-/

namespace Xv6.Lib

variable {ι κ : Type} [DecidableEq κ] {key : ι → κ} {l : List ι} {i j b v : ι} {k : κ}

/-- The entry `i` is the first of the list with its key. -/
def First (key : ι → κ) (l : List ι) (i : ι) : Prop := l.find? (fun j => key j = key i) = some i

theorem first_iff : First key l i ↔ ∃ s t, l = s ++ i :: t ∧ ∀ a ∈ s, key a ≠ key i := by
  simp [First, List.find?_eq_some_iff_append]

namespace First

theorem mem (h : First key l i) : i ∈ l := List.mem_of_find?_eq_some h

/-- What a search by key finds is the first entry with that key. -/
theorem of_find (h : l.find? (fun j => key j = k) = some i) : key i = k ∧ First key l i := by
  have hk : key i = k := by simpa using List.find?_some h
  subst hk
  exact ⟨rfl, h⟩

theorem unique (hi : First key l i) (hj : First key l j) (he : key i = key j) : i = j := by
  unfold First at hi hj
  rw [he, hj] at hi
  exact (Option.some.inj hi).symm

theorem congr {key' : ι → κ} (h : First key l i) (he : ∀ j, key' j = key j) : First key' l i := by
  rwa [show key' = key from funext he]

variable [DecidableEq ι]

/-- The first entry with its key moves to the front. -/
theorem toFront (hb : First key l b) (hi : First key l i) : First key (b :: l.erase b) i := by
  by_cases he : key b = key i
  · rw [hb.unique hi he]
    exact first_iff.mpr ⟨[], _, rfl, by simp⟩
  · obtain ⟨s, t, rfl, hs⟩ := first_iff.mp hi
    have hne : i ≠ b := fun hib => he (congrArg key hib.symm)
    by_cases hbs : b ∈ s
    · rw [List.erase_append_left _ hbs]
      refine first_iff.mpr ⟨b :: s.erase b, t, rfl, ?_⟩
      intro a ha
      cases List.mem_cons.mp ha with
      | inl hab => exact hab ▸ he
      | inr has => exact hs a (List.mem_of_mem_erase has)
    · rw [List.erase_append_right _ hbs, List.erase_cons_tail (by simpa using hne)]
      refine first_iff.mpr ⟨b :: s, t.erase b, rfl, ?_⟩
      intro a ha
      cases List.mem_cons.mp ha with
      | inl hab => exact hab ▸ he
      | inr has => exact hs a has

/-- An entry gets a key that no entry has: it is the first with it. -/
theorem rekey_self (hv : v ∈ l) (hk : ∀ j ∈ l, key j ≠ k) : First (upd key v k) l v := by
  obtain ⟨s, t, rfl, hs⟩ := List.eq_append_cons_of_mem hv
  refine first_iff.mpr ⟨s, t, rfl, ?_⟩
  intro a ha
  have hne : a ≠ v := fun hav => hs (hav ▸ ha)
  rw [upd_self, upd_of_ne hne]
  exact hk a (List.mem_append_left _ ha)

/-- Another entry gets a key that no entry has. -/
theorem rekey (hi : First key l i) (hk : ∀ j ∈ l, key j ≠ k) (hne : i ≠ v) : First (upd key v k) l i := by
  have hik : key i ≠ k := hk i hi.mem
  obtain ⟨s, t, rfl, hs⟩ := first_iff.mp hi
  refine first_iff.mpr ⟨s, t, rfl, ?_⟩
  intro a ha
  rw [upd_of_ne hne]
  by_cases hav : a = v
  · rw [hav, upd_self]
    exact hik.symm
  · rw [upd_of_ne hav]
    exact hs a ha

end First

end Xv6.Lib
