import Xv6.Fs.Tree

/-!
# Paths as lists of names

`skip_elem` takes a path apart from the left. What it finds are the parts between the slashes, and following a path is
looking up one part after the other.
-/

namespace Xv6.Fs

open Xv6.Lib

variable {N : Nat → Node} {path name rest e : List UInt8} {i : Nat}

/-- The longest non-empty parts of a path without a slash. -/
def elements (path : List UInt8) : List (List UInt8) := (path.splitOn slash).filter (· ≠ [])

/-- `skip_elem` does not return from some element of the path. -/
def Runaway (path : List UInt8) : Prop := ∃ e ∈ elements path, elemName e = none

/-- The inode that a directory has under a name. -/
def child (N : Nat → Node) (i : Nat) (name : List UInt8) : Option Nat :=
  if (N i).type = tDir then (lookup (N i).data name).map fun k => (entryAt (N i).data k).inum else none

theorem elements_slash (path : List UInt8) : elements (slash :: path) = elements path := by
  unfold elements
  rw [List.splitOn_cons_eq_if_modifyHead, if_pos (beq_self_eq_true slash), List.filter_cons_of_neg (by simp)]

theorem elements_dropWhile (path : List UInt8) : elements (path.dropWhile (· = slash)) = elements path := by
  induction path with
  | nil => rfl
  | cons a path ih =>
      by_cases ha : a = slash
      · rw [List.dropWhile_cons, if_pos (decide_eq_true ha), ih, ha, elements_slash]
      · rw [List.dropWhile_cons, if_neg (mt of_decide_eq_true ha)]

/-- A part without slashes, and what comes after it. -/
theorem elements_append (he : e ≠ []) (hs : slash ∉ e) (hrest : rest = [] ∨ ∃ r, rest = slash :: r) :
    elements (e ++ rest) = e :: elements rest := by
  rcases hrest with rfl | ⟨r, rfl⟩
  · unfold elements
    rw [List.append_nil, List.splitOn_eq_singleton hs, List.filter_cons, if_pos (decide_eq_true he)]
    rfl
  · rw [elements_slash]
    unfold elements
    rw [List.splitOn_append_cons_self_of_not_mem hs, List.filter_cons, if_pos (decide_eq_true he)]

theorem dropWhile_slash (l : List UInt8) :
    l.dropWhile (· = slash) = [] ∨ ∃ a r, l.dropWhile (· = slash) = a :: r ∧ a ≠ slash := by
  have h0 := List.head?_dropWhile_not (fun x : UInt8 => decide (x = slash)) l
  cases hd : l.dropWhile (· = slash) with
  | nil => exact Or.inl rfl
  | cons a r =>
      rw [hd] at h0
      exact Or.inr ⟨a, r, rfl, of_decide_eq_false h0⟩

/-- A path that starts with another byte has an element up to the next slash. -/
theorem elements_cons {a : UInt8} {r : List UInt8} (ha : a ≠ slash) : elements (a :: r) =
    (a :: r).takeWhile (· ≠ slash) :: elements (((a :: r).dropWhile (· ≠ slash)).dropWhile (· = slash)) := by
  have htail : (a :: r).dropWhile (· ≠ slash) = [] ∨ ∃ q, (a :: r).dropWhile (· ≠ slash) = slash :: q := by
    have h0 := List.head?_dropWhile_not (fun x : UInt8 => decide (x ≠ slash)) (a :: r)
    cases hd : (a :: r).dropWhile (· ≠ slash) with
    | nil => exact Or.inl rfl
    | cons b q =>
        rw [hd] at h0
        exact Or.inr ⟨q, by rw [not_not.mp (of_decide_eq_false h0)]⟩
  have hne : (a :: r).takeWhile (· ≠ slash) ≠ [] := by
    rw [List.takeWhile_cons, if_pos (decide_eq_true ha)]
    exact List.cons_ne_nil _ _
  have hs : slash ∉ (a :: r).takeWhile (· ≠ slash) := fun h0 => by
    have h1 := List.mem_takeWhile_imp h0
    exact of_decide_eq_true h1 rfl
  rw [elements_dropWhile, ← elements_append hne hs htail, List.takeWhile_append_dropWhile]

/-- `skip_elem` takes the first element, and leaves nothing exactly if there is no other. -/
theorem elements_eq_cons {o : Option (List UInt8)} (h : skipElem path = some (o, rest)) :
    (∃ e, elements path = e :: elements rest ∧ elemName e = o) ∧ (rest = [] ↔ elements rest = []) := by
  simp only [skipElem] at h
  split at h
  · cases h
  · rename_i hne
    obtain ⟨rfl, rfl⟩ := Prod.mk.inj (Option.some.inj h)
    obtain ⟨a, r, hd, ha⟩ := (dropWhile_slash path).resolve_left hne
    rw [← elements_dropWhile path, hd]
    refine ⟨⟨_, elements_cons ha, rfl⟩, fun h0 => by rw [h0]; rfl, fun h0 => ?_⟩
    rcases dropWhile_slash ((a :: r).dropWhile (· ≠ slash)) with h1 | ⟨b, q, h1, hb⟩
    · exact h1
    · rw [h1, elements_cons hb] at h0
      cases h0

theorem not_runaway_of_skipElem (h : skipElem path = some (some name, [])) : ¬ Runaway path := by
  rintro ⟨e, he, hnone⟩
  obtain ⟨⟨e', he', hname⟩, hrest⟩ := elements_eq_cons h
  rw [he', hrest.mp rfl, List.mem_singleton] at he
  rw [he, hname] at hnone
  cases hnone

/-! ## Following a path -/

theorem walk_none {parent : Bool} (h : skipElem path = none) :
    walk N parent i name path = if parent then none else some (i, name) := by
  rw [walk]
  split
  · rfl
  · simp_all
  · simp_all

theorem walk_wild {parent : Bool} (h : skipElem path = some (none, rest)) : walk N parent i name path = none := by
  rw [walk]
  split
  · simp_all
  · rfl
  · simp_all

theorem walk_some {parent : Bool} {name' : List UInt8} (h : skipElem path = some (some name', rest)) :
    walk N parent i name path =
      if (N i).type ≠ tDir then none
      else if parent ∧ rest = [] then some (i, name')
      else match lookup (N i).data name' with
        | none => none
        | some k => walk N parent (entryAt (N i).data k).inum name' rest := by
  rw [walk]
  split
  · simp_all
  · simp_all
  · rename_i h'
    rw [h] at h'
    cases h'
    rfl

end Xv6.Fs
