import Xv6.Vm.Lemmas.Alloc

/-!
# Giving up a space

`free_vm` unmaps the pages and then frees the tables from below, without clearing their entries. The tables are read as
they were before, since each is freed after the tables below it.
-/

namespace Xv6.Vm

open Xv6.Lib

variable {τ : Type} {O₀ O O₁ O' : Nat → Use τ} {m₀ m m₁ m' : Mem} {f t x e k i n sz v : Nat}

/-- The frame `x` is a table below the place at depth `e` with key `k`, or there. -/
def Below (O : Nat → Use τ) (f e k x : Nat) : Prop :=
  ∃ e' k', e ≤ e' ∧ e' < 4 ∧ k' / 512 ^ (e' - e) = k ∧ O x = .node f e' k'

/-- The number of entries of a table that belong to the user. -/
def entriesOf (e : Nat) : Nat := if e = 0 then 256 else 512

theorem entriesOf_le (e : Nat) : entriesOf e ≤ 512 := by
  unfold entriesOf
  split <;> decide

theorem lower_child (hin : lower.In e k) (he : e < 4) (hi : i < entriesOf e) : lower.In (e + 1) (512 * k + i) := by
  refine ⟨he, ?_⟩
  have hk := hin.2
  unfold entriesOf at hi
  cases e with
  | zero =>
      rw [if_pos rfl] at hi
      have hk0 : k = 0 := hin.zero
      subst hk0
      change 512 * 0 + i < 256 * 512 ^ 0
      omega
  | succ e =>
      rw [if_neg (Nat.succ_ne_zero e)] at hi
      change 512 * k + i < 256 * 512 ^ (e + 1)
      change k < 256 * 512 ^ e at hk
      rw [Nat.pow_succ]
      omega

theorem below_iff (h : Frames lower O m) (he : e < 3) :
    Below O f e k x ↔ O x = .node f e k ∨ ∃ i < entriesOf e, Below O f (e + 1) (512 * k + i) x := by
  constructor
  · rintro ⟨e', k', hle, h4, hk, hx⟩
    by_cases heq : e' = e
    · subst heq
      rw [Nat.sub_self, Nat.pow_zero, Nat.div_one] at hk
      exact Or.inl (hk ▸ hx)
    · have hpow : k' / 512 ^ (e' - (e + 1)) / 512 = k := by
        rw [Nat.div_div_eq_div_mul, ← Nat.pow_succ, show (e' - (e + 1)).succ = e' - e by omega, hk]
      refine Or.inr ⟨k' / 512 ^ (e' - (e + 1)) % 512, ?_, e', k', by omega, h4, ?_, hx⟩
      · unfold entriesOf
        split
        · rename_i h0
          subst h0
          have hin : lower.In (1 + (e' - 1)) k' := by
            rw [show 1 + (e' - 1) = e' by omega]
            exact (h.live hx).2.1
          exact Nat.lt_of_le_of_lt (Nat.mod_le _ _) hin.ups.2
        · exact Nat.mod_lt _ (by decide)
      · rw [← hpow, Nat.div_add_mod]
  · rintro (hx | ⟨i, hi, e', k', hle, h4, hk, hx⟩)
    · exact ⟨e, k, Nat.le_refl e, by omega, by rw [Nat.sub_self, Nat.pow_zero, Nat.div_one], hx⟩
    · refine ⟨e', k', by omega, h4, ?_, hx⟩
      have hi5 : i < 512 := Nat.lt_of_lt_of_le hi (entriesOf_le e)
      rw [show e' - e = e' - (e + 1) + 1 by omega, Nat.pow_succ, ← Nat.div_div_eq_div_mul, hk, Radix.child_div hi5]

/-- Where an entry is missing there is nothing below it. -/
theorem Frames.nothing_below (h : Frames lower O m) (ht : O t = .node f e k) (hi : i < 512)
    (habs : present (m.pte t i) = false) (x : Nat) : ¬ Below O f (e + 1) (512 * k + i) x := by
  rintro ⟨e', k', hle, -, hk, hx⟩
  obtain ⟨y, hy⟩ := Radix.node_up (show Radix.node 512 next m.pte f e' k' = some x from h.place hx) hle
  rw [hk] at hy
  have hnone : m.node f (e + 1) (512 * k + i) = none := by
    rw [Mem.node_succ, entry_child (h.place ht) hi]
    exact next_of_absent habs
  exact Option.some_ne_none y (hy.symm.trans hnone)

/-- The frames of `X` are freed. -/
structure Dissolved (X : Nat → Prop) (O : Nat → Use τ) (m : Mem) (O' : Nat → Use τ) (m' : Mem) : Prop where
  frames : Frames lower O' m'
  free : ∀ x, X x → O' x = .free
  use : ∀ x, ¬ X x → O' x = O x
  same : Same X m m'

theorem Dissolved.trans {X Y Z : Nat → Prop} (h : Dissolved X O m O₁ m₁) (h' : Dissolved Y O₁ m₁ O' m')
    (hZ : ∀ x, Z x ↔ X x ∨ Y x) : Dissolved Z O m O' m' := by
  refine ⟨h'.frames, fun x hx => ?_, fun x hx => ?_, h.same.trans h'.same (fun x h0 => (hZ x).mpr (Or.inl h0))
    fun x h0 => (hZ x).mpr (Or.inr h0)⟩
  · by_cases hy : Y x
    · exact h'.free x hy
    · rw [h'.use x hy, h.free x (((hZ x).mp hx).resolve_right hy)]
  · rw [h'.use x fun h0 => hx ((hZ x).mpr (Or.inr h0)), h.use x fun h0 => hx ((hZ x).mpr (Or.inl h0))]

theorem kfree_dissolves (h : Frames lower O m) (ht : O t = .held) :
    Wp (kfree t) (fun _ m' => ∃ O', Dissolved (fun x => x = t) O m O' m') (fun _ => False) m := by
  refine (kfree_spec h (by rw [ht]; exact Use.loose_held)).post ?_
  rintro _ m' ⟨h', hs⟩
  exact ⟨_, h', fun x hx => by rw [hx, upd_self], fun x hx => upd_of_ne hx _ _, hs⟩

/-- `free_entry` for a table of a space that is given up. `O₀` and `m₀` are the uses and the memory before that. -/
theorem freeEntry_spec (h₀ : Frames lower O₀ m₀) (he : e + n = 3) (ht : O₀ t = .node f e k) (h : Frames lower O m)
    (hheld : ∀ x, Below O₀ f e k x → O x = .held ∧ m.pages x = m₀.pages x) :
    Wp (freeEntry n (entriesOf e) t) (fun _ m' => ∃ O', Dissolved (Below O₀ f e k) O m O' m') (fun _ => False) m := by
  induction n generalizing e k t O m with
  | zero =>
      obtain rfl : e = 3 := he
      have hbelow : ∀ x, Below O₀ f 3 k x ↔ x = t := fun x => by
        constructor
        · rintro ⟨e', k', hle, h4, hk, hx⟩
          obtain rfl : e' = 3 := by omega
          rw [Nat.sub_self, Nat.pow_zero, Nat.div_one] at hk
          subst hk
          exact Option.some.inj ((h₀.place hx).symm.trans (h₀.place ht))
        · rintro rfl
          exact ⟨3, k, Nat.le_refl 3, by decide, by rw [Nat.sub_self, Nat.pow_zero, Nat.div_one], ht⟩
      rw [show Below O₀ f 3 k = fun x => x = t from funext fun x => propext (hbelow x)]
      unfold freeEntry
      exact kfree_dissolves h (hheld t ((hbelow t).mpr rfl)).1
  | succ n ih =>
      have hin := (h₀.live ht).2.1
      have hself : Below O₀ f e k t := (below_iff h₀ (by omega)).mpr (Or.inl ht)
      have hchild : ∀ {i x}, i < entriesOf e → Below O₀ f (e + 1) (512 * k + i) x → Below O₀ f e k x := fun hi hx =>
        (below_iff h₀ (by omega)).mpr (Or.inr ⟨_, hi, hx⟩)
      -- the table itself is not below one of its entries, and no frame is below two
      have hnot : ∀ i, ¬ Below O₀ f (e + 1) (512 * k + i) t := by
        rintro i ⟨e', k', hle, -, -, hx⟩
        rw [ht] at hx
        cases hx
        exact absurd hle (Nat.not_succ_le_self e)
      have hone : ∀ {i j x}, Below O₀ f (e + 1) (512 * k + i) x → Below O₀ f (e + 1) (512 * k + j) x → i = j := by
        rintro i j x ⟨e', k', -, -, hk, hx⟩ ⟨e'', k'', -, -, hk', hx'⟩
        rw [hx] at hx'
        cases hx'
        omega
      unfold freeEntry
      refine Wp.bind (wp_each_range (fun j m' => ∃ O',
        Dissolved (fun x => ∃ i < j, Below O₀ f (e + 1) (512 * k + i) x) O m O' m')
        (fun i hi m₁ hm₁ => ?_) ⟨O, h, fun x hx => ?_, fun _ _ => rfl, Same.refl _ m⟩) ?_
      · obtain ⟨O₁, hd⟩ := hm₁
        have hi5 : i < 512 := Nat.lt_of_lt_of_le hi (entriesOf_le e)
        have hsplit : ∀ x, (∃ j < i + 1, Below O₀ f (e + 1) (512 * k + j) x) ↔
            (∃ j < i, Below O₀ f (e + 1) (512 * k + j) x) ∨ Below O₀ f (e + 1) (512 * k + i) x := fun x => by
          simp only [Nat.lt_succ_iff_lt_or_eq, or_and_right, exists_or, exists_eq_left]
        have hpte : m₁.pte t i = m₀.pte t i := by
          rw [Mem.pte, hd.same.pages t fun h0 => hnot _ h0.choose_spec.2, (hheld t hself).2, Mem.pte]
        rw [wp_bind, wp_get, wp_ite, hpte]
        refine ⟨fun hp => ?_, fun habs => ?_⟩
        · have hcin : lower.In (e + 1) (512 * k + i) := lower_child hin (by omega) hi
          have hent : m₀.entry f (e + 1) (512 * k + i) = m₀.pte t i := entry_child (h₀.place ht) hi5
          have hl := h₀.small rfl (h₀.live ht).1 hcin (by omega)
          rw [hent] at hl
          have hy : O₀ (pteAddr (m₀.pte t i)) = .node f (e + 1) (512 * k + i) := by
            rw [← h₀.table (h₀.live ht).1 hcin (by omega), Mem.node_succ, hent]
            exact if_pos ⟨hp, Or.inr hl⟩
          have hrec := ih (e := e + 1) (by omega) hy hd.frames fun x hx => ?_
          · rw [show entriesOf (e + 1) = 512 from if_neg (Nat.succ_ne_zero e)] at hrec
            refine hrec.post ?_
            rintro _ m₂ ⟨O₂, hd₂⟩
            exact ⟨O₂, hd.trans hd₂ hsplit⟩
          · have hfresh : ¬ ∃ j < i, Below O₀ f (e + 1) (512 * k + j) x := by
              rintro ⟨j, hj, hx'⟩
              exact absurd (hone hx' hx) (Nat.ne_of_lt hj)
            rw [hd.use x hfresh, hd.same.pages x hfresh]
            exact hheld x (hchild hi hx)
        · rw [wp_pure]
          have hsame : (fun x => ∃ j < i + 1, Below O₀ f (e + 1) (512 * k + j) x) =
              fun x => ∃ j < i, Below O₀ f (e + 1) (512 * k + j) x := by
            funext x
            rw [hsplit, eq_iff_iff, or_iff_left (h₀.nothing_below ht hi5 (Bool.eq_false_iff.mpr habs) x)]
          rw [hsame]
          exact ⟨O₁, hd⟩
      · obtain ⟨i, hi, -⟩ := hx
        exact absurd hi (Nat.not_lt_zero i)
      · rintro _ m₁ ⟨O₁, hd⟩
        have htO : O₁ t = .held := by
          rw [hd.use t fun h0 => hnot _ h0.choose_spec.2, (hheld t hself).1]
        refine (kfree_dissolves hd.frames htO).post ?_
        rintro _ m₂ ⟨O₂, hd₂⟩
        refine ⟨O₂, hd.trans hd₂ fun x => ?_⟩
        rw [below_iff h₀ (by omega), or_comm]
        refine or_congr Iff.rfl ⟨fun hx => ?_, fun hx => hx ▸ ht⟩
        exact Option.some.inj ((h₀.place hx).symm.trans (h₀.place ht))

/-! ## The whole space -/

/-- The uses when nothing points to the space `f` any more but the function that frees its tables. -/
def giveUp (O : Nat → Use τ) (f x : Nat) : Use τ :=
  match O x with
  | .node g e k => if g = f then if e = 4 then .lost else .held else .node g e k
  | u => u

theorem giveUp_table (hx : O x = .node f e k) (he : e < 4) : giveUp O f x = .held := by
  unfold giveUp
  rw [hx]
  dsimp only
  rw [if_pos rfl, if_neg (Nat.ne_of_lt he)]

theorem giveUp_page (hx : O x = .node f 4 v) : giveUp O f x = .lost := by
  unfold giveUp
  rw [hx]
  dsimp only
  rw [if_pos rfl, if_pos rfl]

theorem giveUp_other (hx : ∀ e k, O x ≠ .node f e k) : giveUp O f x = O x := by
  unfold giveUp
  cases hu : O x with
  | node g e k =>
      dsimp only
      rw [if_neg fun h0 => hx e k (by rw [hu, h0])]
  | _ => rfl

theorem Frames.giveUp (h : Frames lower O m) (f : Nat) : Frames lower (giveUp O f) m := by
  refine h.abandon (f := f) rfl (fun x => ?_) fun x e k h0 => ?_
  · by_cases hx : ∃ e k, O x = .node f e k
    · obtain ⟨e, k, hx⟩ := hx
      refine Or.inr ⟨⟨e, k, hx⟩, ?_⟩
      by_cases he : e = 4
      · rw [giveUp_page (he ▸ hx)]
        exact Use.loose_lost
      · rw [giveUp_table hx (Nat.lt_of_le_of_ne (h.live hx).2.1.1 he)]
        exact Use.loose_held
    · exact Or.inl (giveUp_other fun e k h0 => hx ⟨e, k, h0⟩)
  · by_cases hx : ∃ e k, O x = .node f e k
    · obtain ⟨e', k', hx⟩ := hx
      by_cases he : e' = 4
      · rw [giveUp_page (he ▸ hx)] at h0
        cases h0
      · rw [giveUp_table hx (Nat.lt_of_le_of_ne (h.live hx).2.1.1 he)] at h0
        cases h0
    · rw [giveUp_other fun e k h1 => hx ⟨e, k, h1⟩] at h0
      exact hx ⟨e, k, h0⟩

/-- The space `f` is gone. The frames of pages that were not swept are lost. -/
structure Gone (f sz : Nat) (O : Nat → Use τ) (m : Mem) (O' : Nat → Use τ) (m' : Mem) : Prop where
  moved : Moved lower f O m O' m'
  table : ∀ x e k, O x = .node f e k → e < 4 → O' x = .free
  swept : ∀ x v, O x = .node f 4 v → v < pageUp sz → Swept m f 0 v → O' x = .free
  left : ∀ x v, O x = .node f 4 v → (v < pageUp sz → ¬ Swept m f 0 v) → O' x = .lost
  use : ∀ x, (∀ e k, O x ≠ .node f e k) → O' x = O x

/-- No frame of the space has a use any more. -/
theorem Gone.node {x e k : Nat} (h : Gone f sz O m O' m') (hm : Frames lower O m) (hx : O x = .node f e k) :
    O' x = .free ∨ O' x = .lost := by
  rcases Nat.lt_or_ge e 4 with he | he
  · exact Or.inl (h.table x e k hx he)
  · obtain rfl : e = 4 := Nat.le_antisymm (hm.live hx).2.1.1 he
    by_cases hsw : k < pageUp sz ∧ Swept m f 0 k
    · exact Or.inl (h.swept x k hx hsw.1 hsw.2)
    · exact Or.inr (h.left x k hx fun h0 h1 => hsw ⟨h0, h1⟩)

/-- Unmapping everything below a size, which may be 0. -/
theorem deallocUvm_all (h : Frames lower O m) (hf : O f = .node f 0 0) (htop : sz ≤ userTop) :
    Wp (deallocUvm f sz 0) (fun _ m' => ∃ O', Unmapped f 0 (pageUp sz) O m O' m') (fun _ => False) m := by
  cases sz with
  | zero =>
      unfold deallocUvm
      rw [if_pos (Nat.le_refl 0), wp_pure]
      exact ⟨O, Unmapped.zero h hf 0⟩
  | succ n =>
      refine (deallocUvm_spec h hf (Nat.succ_pos n) htop).post ?_
      rintro _ m' ⟨-, O', hun⟩
      exact ⟨O', hun⟩

theorem freeVm_spec (h : Frames lower O m) (hf : O f = .node f 0 0) (htop : sz ≤ userTop) :
    Wp (freeVm (some f) sz) (fun _ m' => ∃ O', Gone f sz O m O' m') (fun _ => False) m := by
  unfold freeVm
  refine Wp.bind (deallocUvm_all h hf htop) ?_
  rintro _ m₁ ⟨O₁, hun⟩
  have h₁ := hun.worked.moved.frames
  have hbelow : ∀ x, Below O₁ f 0 0 x ↔ ∃ e k, e < 4 ∧ O₁ x = .node f e k := fun x => by
    constructor
    · rintro ⟨e, k, -, he, -, hx⟩
      exact ⟨e, k, he, hx⟩
    · rintro ⟨e, k, he, hx⟩
      have hin : lower.In (0 + e) k := by
        rw [Nat.zero_add]
        exact (h₁.live hx).2.1
      exact ⟨e, k, Nat.zero_le e, he, hin.ups.zero, hx⟩
  have hfree : Wp (freeEntry 3 256 f) _ _ m₁ :=
    freeEntry_spec (e := 0) (k := 0) h₁ rfl hun.worked.root (h₁.giveUp f) fun x hx => by
    obtain ⟨e, k, he, hx⟩ := (hbelow x).mp hx
    exact ⟨giveUp_table hx he, rfl⟩
  refine hfree.post ?_
  rintro _ m₂ ⟨O₂, hd⟩
  -- a frame that was not freed by the unmapping keeps its use there
  have hkeep : ∀ {x}, (∀ w, w < pageUp sz → Swept m f 0 w → O x ≠ .node f 4 w) → O₁ x = O x := fun {x} => hun.use x
  have htable : ∀ x e k, O x = .node f e k → e < 4 → O₂ x = .free := fun x e k hx he => by
    refine hd.free x ((hbelow x).mpr ⟨e, k, he, ?_⟩)
    rw [hkeep fun w _ _ h0 => ?_, hx]
    rw [hx] at h0
    cases h0
    exact absurd he (by decide)
  have hswept : ∀ x v, O x = .node f 4 v → v < pageUp sz → Swept m f 0 v → O₂ x = .free := fun x v hx hv hsw => by
    have hx₁ := hun.freed x v hv hsw hx
    rw [hd.use x fun h0 => ?_, giveUp_other fun e k => by rw [hx₁]; rintro ⟨⟩, hx₁]
    obtain ⟨e, k, -, h1⟩ := (hbelow x).mp h0
    rw [hx₁] at h1
    cases h1
  have hleft : ∀ x v, O x = .node f 4 v → (v < pageUp sz → ¬ Swept m f 0 v) → O₂ x = .lost := fun x v hx hnot => by
    have hx₁ : O₁ x = .node f 4 v := by
      rw [hkeep fun w hw hsw h0 => ?_, hx]
      rw [hx] at h0
      cases h0
      exact hnot hw hsw
    rw [hd.use x fun h0 => ?_, giveUp_page hx₁]
    obtain ⟨e, k, he, h1⟩ := (hbelow x).mp h0
    rw [hx₁] at h1
    cases h1
    exact absurd he (by decide)
  have hother : ∀ x, (∀ e k, O x ≠ .node f e k) → O₂ x = O x := fun x hx => by
    have hx₁ : O₁ x = O x := hkeep fun w _ _ => hx 4 w
    rw [hd.use x fun h0 => ?_, giveUp_other fun e k => by rw [hx₁]; exact hx e k, hx₁]
    obtain ⟨e, k, -, h1⟩ := (hbelow x).mp h0
    rw [hx₁] at h1
    exact hx e k h1
  refine ⟨O₂, ⟨hd.frames, hun.worked.moved.same.trans hd.same (fun _ h0 => h0) fun x hx => ?_, fun x hx => ?_,
    fun x hx => ?_⟩, htable, hswept, hleft, hother⟩
  · obtain ⟨e, k, -, h1⟩ := (hbelow x).mp hx
    by_contra h0
    rw [hun.worked.moved.other x h0] at h1
    exact h0 (Or.inr (Or.inr ⟨e, k, h1⟩))
  · exact hother x fun e k h0 => hx (Or.inr (Or.inr ⟨e, k, h0⟩))
  · rcases hx with hx | hx | ⟨e, k, hx⟩
    · rw [Mine, hother x fun e k => by rw [hx]; rintro ⟨⟩, hx]
      exact Or.inl (Or.inl rfl)
    · rw [Mine, hother x fun e k => by rw [hx]; rintro ⟨⟩, hx]
      exact Or.inl (Or.inr (Or.inl rfl))
    · by_cases he : e = 4
      · subst he
        by_cases hsw : k < pageUp sz ∧ Swept m f 0 k
        · exact Or.inl (Or.inl (hswept x k hx hsw.1 hsw.2))
        · exact Or.inr (hleft x k hx fun h0 h1 => hsw ⟨h0, h1⟩)
      · exact Or.inl (Or.inl (htable x e k hx (Nat.lt_of_le_of_ne (h.live hx).2.1.1 he)))

end Xv6.Vm
