import Xv6.Offset.Cursor

/-!
# Calls at cursors

A call moves the cursor of its file by its result when that is positive, and otherwise does nothing; so a
list of calls that run one after another has each of them at the sum of the results before it.
-/

namespace Xv6.Offset

open Xv6.Lib Xv6.Fs Xv6.Kernel

variable {mode : FileId → Op → Bool} {c c₀ c' : Cursor} {f : FileId} {op : Op} {r : Result} {l : List Done} {d : Done}

theorem overlay_nil (l : List UInt8) (n : Nat) : overlay l n [] = l := by
  rw [overlay, List.append_nil, List.length_nil, Nat.add_zero, List.take_append_drop]

/-! ## One call -/

theorem Takes.off (h : Takes mode c f op r c') : c'.off = upd c.off f (c.off f + r.ret.toNat) := by
  cases h with
  | refused h => exact (upd_eta c.off f).symm
  | read h hl => rfl
  | write h => rfl

theorem Takes.still (h : Takes mode c f op r c') (hr : r.ret ≤ 0) : (r.ret = -1 ∨ r.ret = 0) ∧ c' = c := by
  cases h with
  | refused h => exact ⟨.inl rfl, rfl⟩
  | @read n l h hl =>
      have h0 : l.length = 0 := Int.natCast_nonpos_iff.mp hr
      refine ⟨.inr (congrArg Nat.cast h0), ?_⟩
      rw [h0, Nat.add_zero, upd_eta]
  | @write l h =>
      have h0 : l.val.length = 0 := Int.natCast_nonpos_iff.mp hr
      refine ⟨.inr (congrArg Nat.cast h0), ?_⟩
      rw [h0, Nat.add_zero, upd_eta, List.length_eq_zero_iff.mp h0, overlay_nil]

theorem Takes.inside (h : Takes mode c f op r c') (hr : 0 < r.ret) : c.off f ≤ c.data.length := by
  cases h with
  | refused h => exact absurd hr (by decide)
  | read h hl => exact h.2.1
  | write h => exact h.2.1

theorem Takes.slice {n : UInt64} (h : Takes mode c f (.read n) r c') (hr : 0 < r.ret) :
    r.dst = (c.data.drop (c.off f)).take r.ret.toNat ∧ r.dst.length = r.ret ∧ c'.data = c.data := by
  cases h with
  | refused h => exact absurd hr (by decide)
  | read h hl =>
      refine ⟨?_, rfl, rfl⟩
      dsimp only
      rw [Int.toNat_natCast, hl, List.length_take, List.take_eq_take_iff, Nat.min_assoc, Nat.min_self]

theorem Takes.written {l : { l : List UInt8 // l.length < 2 ^ 64 }} (h : Takes mode c f (.write l) r c')
    (hr : 0 < r.ret) :
    r.ret = l.val.length ∧ c'.data = overlay c.data (c.off f) l.val := by
  cases h with
  | refused h => exact absurd hr (by decide)
  | write h => exact ⟨rfl, rfl⟩

/-- The new offset is not cut. -/
theorem Takes.off_lt (h : Takes mode c f op r c') (hoff : c.off f < 2 ^ 64) : c.off f + r.ret.toNat < 2 ^ 64 := by
  cases h with
  | refused h => exact hoff
  | @read n l h hl =>
      have hlen : l.length ≤ n.toNat := by
        rw [hl]
        exact List.length_take_le _ _
      exact lt_of_le_of_lt (Nat.add_le_add_left hlen _) h.2.2
  | write h => exact lt_of_le_of_lt h.2.2 (by decide)

/-! ## Runs of calls -/

theorem moved_snoc (f : FileId) (l : List Done) (d : Done) :
    moved f (l ++ [d]) = moved f l + if d.file = f then d.result.ret.toNat else 0 := by
  unfold moved
  rw [List.filter_append, List.map_append, List.sum_append]
  by_cases hd : d.file = f
  · simp [hd]
  · simp [hd]

theorem Run.off (h : Run mode c₀ l c) (f : FileId) : c.off f = c₀.off f + moved f l := by
  induction h with
  | nil => rfl
  | @snoc l c c' d h hd ih =>
      rw [hd.off, moved_snoc, upd_apply]
      by_cases hf : f = d.file
      · rw [if_pos hf, if_pos hf.symm, ← hf, ih, Nat.add_assoc]
      · rw [if_neg hf, if_neg fun h0 => hf h0.symm, ih, Nat.add_zero]

/-- A call in the middle of a run, with the cursors before and after it. -/
theorem Run.split (h : Run mode c₀ l c) : ∀ l₁ d l₂, l = l₁ ++ d :: l₂ →
    ∃ c₁ c₂, Run mode c₀ l₁ c₁ ∧ Takes mode c₁ d.file d.op d.result c₂ ∧ Run mode c₂ l₂ c := by
  induction h with
  | nil => exact fun l₁ d l₂ hl => absurd hl.symm (by simp)
  | @snoc l c c' e h he ih =>
      intro l₁ d l₂ hl
      cases List.eq_nil_or_concat' l₂ with
      | inl hnil =>
          rw [hnil] at hl ⊢
          obtain ⟨rfl, hde⟩ := List.append_inj' hl rfl
          cases hde
          exact ⟨c, c', h, he, .nil⟩
      | inr hsnoc =>
          obtain ⟨l₃, e', hl₂⟩ := hsnoc
          rw [hl₂, ← List.cons_append, ← List.append_assoc] at hl
          obtain ⟨hl', hee⟩ := List.append_inj' hl rfl
          cases hee
          obtain ⟨c₁, c₂, h₁, hd, h₂⟩ := ih l₁ d l₃ hl'
          rw [hl₂]
          exact ⟨c₁, c₂, h₁, hd, h₂.snoc he⟩

theorem Run.oneByOne (h : Run mode c₀ l c) : OneByOne mode c₀ l c := by
  refine ⟨h.off, fun l₁ d l₂ hl => ?_⟩
  obtain ⟨c₁, c₂, h₁, hd, h₂⟩ := h.split l₁ d l₂ hl
  refine ⟨c₁, c₂, h₁, h₂, h₁.off d.file, hd.still, fun hpos => ⟨hd.inside hpos, hd.off, ?_, ?_⟩⟩
  · intro n hn
    rw [hn] at hd
    exact hd.slice hpos
  · intro l hl
    rw [hl] at hd
    exact hd.written hpos

end Xv6.Offset
