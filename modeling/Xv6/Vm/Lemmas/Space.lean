import Xv6.Vm.Lemmas.Map

/-!
# The address space of a process

What the functions do that work on the lower half of one space, in terms of its pages.
-/

namespace Xv6.Vm

open Xv6.Lib

variable {τ : Type} {O O₁ O' : Nat → Use τ} {m m₁ m' : Mem} {f t x y v w va perm a b : Nat}

/-- The number of pages of the lower half. -/
@[simp] def userPages : Nat := 2 ^ 35

theorem lower_in : lower.In 4 v ↔ v < userPages := ⟨fun h => h.2, fun h => ⟨Nat.le_refl 4, h⟩⟩

/-! ## Pages -/

theorem page_of_present (h : present (m.entry f 4 v) = true) :
    m.page f v = some (m.entry f 4 v, m.pages (pteAddr (m.entry f 4 v))) := if_pos h

theorem page_of_absent (h : present (m.entry f 4 v) = false) : m.page f v = none := if_neg (by rw [h]; decide)

theorem page_eq_some {a : Nat} {b : Bytes} (h : m.page f v = some (a, b)) :
    present (m.entry f 4 v) = true ∧ m.entry f 4 v = a ∧ m.pages (pteAddr (m.entry f 4 v)) = b := by
  unfold Mem.page at h
  split at h
  · rename_i hp
    obtain ⟨h1, h2⟩ := Prod.mk.inj (Option.some.inj h)
    exact ⟨hp, h1, h2⟩
  · cases h

theorem page_eq_none : m.page f v = none ↔ present (m.entry f 4 v) = false := by
  cases h : present (m.entry f 4 v) with
  | false => exact iff_of_true (page_of_absent h) rfl
  | true =>
      rw [page_of_present h]
      exact iff_of_false nofun nofun

theorem page_congr (he : m'.entry f 4 v = m.entry f 4 v) (hp : ∀ x, m.node f 4 v = some x → m'.pages x = m.pages x) :
    m'.page f v = m.page f v := by
  cases h : present (m.entry f 4 v) with
  | false => rw [page_of_absent h, page_of_absent (by rwa [he])]
  | true =>
      have hn : m.node f 4 v = some (pteAddr (m.entry f 4 v)) := by rw [Mem.node_four, if_pos h]
      rw [page_of_present h, page_of_present (by rwa [he]), he, hp _ hn]

theorem Frames.page_frame (h : Frames lower O m) (hf : O f = .node f 0 0) (hv : v < userPages)
    (hp : present (m.entry f 4 v) = true) : O (pteAddr (m.entry f 4 v)) = .node f 4 v := by
  rw [← h.tree hf (lower_in.mpr hv) (Nat.le_refl 4), Mem.node_four, if_pos hp]

theorem Frames.use_of_page {a : Nat} {b : Bytes} (h : Frames lower O m) (hf : O f = .node f 0 0) (hv : v < userPages)
    (hp : m.page f v = some (a, b)) : O (pteAddr a) = .node f 4 v := by
  obtain ⟨he, rfl, -⟩ := page_eq_some hp
  exact h.page_frame hf hv he

theorem Frames.frame_page (h : Frames lower O m) (hx : O x = .node f 4 v) :
    v < userPages ∧ present (m.entry f 4 v) = true ∧ pteAddr (m.entry f 4 v) = x := by
  have hn := h.place hx
  refine ⟨lower_in.mp (h.live hx).2.1, ?_⟩
  rw [Mem.node_four] at hn
  split at hn
  · rename_i hp
    exact ⟨hp, Option.some.inj hn⟩
  · cases hn

/-! ## Working on a space -/

/-- A function worked on the space `f`, and nothing of it is held or lost. -/
structure Worked (f : Nat) (O : Nat → Use τ) (m : Mem) (O' : Nat → Use τ) (m' : Mem) : Prop where
  moved : Moved lower f O m O' m'
  root : O' f = .node f 0 0
  upper : ∀ i, 256 ≤ i → i < 512 → m'.pte f i = m.pte f i
  held : ∀ x, O' x = .held → O x = .held
  lost : ∀ x, O' x = .lost → O x = .lost

theorem Moved.trans (h : Moved lower f O m O₁ m₁) (h' : Moved lower f O₁ m₁ O' m') : Moved lower f O m O' m' := by
  have hback : ∀ x, Mine O₁ f x → Mine O f x := fun x h1 => by
    by_contra h0
    rw [Mine, h.other x h0] at h1
    exact h0 h1
  refine ⟨h'.frames, h.same.trans h'.same (fun _ h0 => h0) hback, fun x h0 => ?_, fun x h0 => ?_⟩
  · rw [h'.other x fun h1 => h0 (hback x h1), h.other x h0]
  · rcases h.mine x h0 with h1 | h1
    · exact h'.mine x h1
    · refine Or.inr ((h'.other x ?_).trans h1)
      rintro (h2 | h2 | ⟨e, k, h2⟩) <;> rw [h1] at h2 <;> cases h2

theorem Worked.trans (h : Worked f O m O₁ m₁) (h' : Worked f O₁ m₁ O' m') : Worked f O m O' m' :=
  ⟨h.moved.trans h'.moved, h'.root, fun i hi hi' => (h'.upper i hi hi').trans (h.upper i hi hi'),
    fun x hx => h.held x (h'.held x hx), fun x hx => h.lost x (h'.lost x hx)⟩

theorem Worked.refl (h : Frames lower O m) (hf : O f = .node f 0 0) : Worked f O m O m :=
  ⟨⟨h, Same.refl _ m, fun _ _ => rfl, fun _ h0 => Or.inl h0⟩, hf, fun _ _ _ => rfl, fun _ h0 => h0, fun _ h0 => h0⟩

theorem Grown.worked (h : Grown lower f v O m O' m') (hf : O f = .node f 0 0) : Worked f O m O' m' := by
  refine ⟨⟨h.frames, h.same.mono ?_, fun x h0 => ?_, fun x h0 => ?_⟩, h.node hf, h.upper, fun x hx => ?_,
    fun x hx => ?_⟩
  · rintro x (h0 | ⟨e, k, -, h0⟩)
    · exact Or.inl h0
    · exact Or.inr (Or.inr ⟨e, k, h0⟩)
  · rcases h.use x with h1 | ⟨h1, -⟩
    · exact h1
    · exact absurd (Or.inl h1) h0
  · rcases h.use x with h1 | ⟨-, e, -, h1⟩
    · rw [Mine, h1]
      exact Or.inl h0
    · exact Or.inl (Or.inr (Or.inr ⟨_, _, h1⟩))
  · rcases h.use x with h1 | ⟨-, e, -, h1⟩
    · rw [← h1, hx]
    · rw [h1] at hx
      cases hx
  · rcases h.use x with h1 | ⟨-, e, -, h1⟩
    · rw [← h1, hx]
    · rw [h1] at hx
      cases hx

/-- Making tables changes no page. -/
theorem Grown.page (h : Grown lower f v O m O' m') (hm : Frames lower O m) (hf : O f = .node f 0 0)
    (hw : w < userPages) :
    m'.page f w = m.page f w := by
  have he : m'.entry f 4 w = m.entry f 4 w :=
    (h.entry 4 w (lower_in.mpr hw)).resolve_right fun h0 => absurd h0.1 (by decide)
  refine page_congr he fun x hx => h.same.pages x ?_
  rw [hm.tree hf (lower_in.mpr hw) (Nat.le_refl 4)] at hx
  rintro (h0 | ⟨e, k, he4, h0⟩) <;> rw [hx] at h0
  · cases h0
  · obtain ⟨-, rfl, -⟩ := Use.node.inj h0
    exact absurd he4 (by decide)

/-! ## Mapping a page -/

theorem leaf_frame {y : Nat} (hy : pgsize4kb * y < phyStop) (hperm : perm < pgsize4kb) :
    leaf (pgsize4kb * y) perm = pgsize4kb * y + (perm ||| pteP) := by
  have hy64 : pgsize4kb * y % 2 ^ 64 = pgsize4kb * y := Nat.mod_eq_of_lt (Nat.lt_trans hy (by decide))
  rw [leaf_eq (Nat.mul_mod_right _ _) hperm, hy64]

/-- The entry of a page is stored. -/
theorem Frames.map_page (h : Frames lower O m) (ht : O t = .node f 3 (v / 512)) (hv : v < userPages) (hy : O y = .held)
    (hperm : perm < pgsize4kb) (habs : present (m.entry f 4 v) = false) :
    Worked f O m (upd O y (.node f 4 v)) (m.store t (v % 512) (pgsize4kb * y ||| perm ||| pteP)) ∧
      ∀ w < userPages, (m.store t (v % 512) (pgsize4kb * y ||| perm ||| pteP)).page f w =
        if w = v then some (pgsize4kb * y + (perm ||| pteP), m.pages y) else m.page f w := by
  have hi : v % 512 < 512 := Nat.mod_lt v (by decide)
  have hrange := h.range (x := y) (by rw [hy]; rintro ⟨⟩) fun _ _ _ _ => by rw [hy]; rintro ⟨⟩
  have hlt : perm ||| pteP < 4096 := Nat.or_lt_two_pow (n := 12) hperm (by decide)
  have hb : (pgsize4kb * y ||| perm ||| pteP) % 2 ^ 64 = pgsize4kb * y + (perm ||| pteP) := leaf_frame hrange.2.1 hperm
  have hp : present (pgsize4kb * y + (perm ||| pteP)) = true := by
    rw [present_add y hlt]
    exact present_or_one perm
  have hent : m.pte t (v % 512) = m.entry f 4 v := by rw [← entry_child (h.place ht) hi, Nat.div_add_mod]
  have hty : y ≠ t := fun h0 => by rw [h0, ht] at hy; cases hy
  have hin : lower.In (3 + 1) (512 * (v / 512) + v % 512) := by
    rw [Nat.div_add_mod]
    exact lower_in.mpr hv
  have hnext : next 4 (pgsize4kb * y + (perm ||| pteP)) = some y := by
    rw [next_four, if_pos hp, pteAddr_add y hlt]
  have hframes := h.link ht hi hb hin (Nat.le_refl 4) (by rw [hent]; exact next_of_absent habs) hy hnext
    (fun h4 => absurd h4 (by decide)) fun _ h4 => absurd h4 (by decide)
  rw [Nat.div_add_mod] at hframes
  have hroot := (h.live ht).1
  have hfy : f ≠ y := fun h0 => by rw [← h0, hroot] at hy; cases hy
  refine ⟨⟨⟨hframes, (same_store m t _ _).mono ?_, fun x hx => ?_, fun x hx => ?_⟩, ?_, fun j hj hj' => ?_,
    fun x hx => ?_, fun x hx => ?_⟩, fun w hw => ?_⟩
  · rintro x rfl
    exact Or.inr (Or.inr ⟨3, _, ht⟩)
  · exact upd_of_ne (fun h0 : x = y => hx (Or.inr (Or.inl (h0 ▸ hy)))) _ _
  · by_cases hxy : x = y
    · subst hxy
      exact Or.inl (Or.inr (Or.inr ⟨4, v, upd_self _ _ _⟩))
    · rw [Mine, upd_of_ne hxy]
      exact Or.inl hx
  · rw [upd_of_ne hfy, hroot]
  · -- the table of a page is not the root
    rw [pte_store, Radix.setSlot_table]
    rintro rfl
    rw [ht] at hroot
    cases hroot
  · by_cases hxy : x = y
    · subst hxy
      exact hy
    · rwa [upd_of_ne hxy] at hx
  · by_cases hxy : x = y
    · subst hxy
      rw [upd_self] at hx
      cases hx
    · rwa [upd_of_ne hxy] at hx
  · have hentry : (m.store t (v % 512) (pgsize4kb * y ||| perm ||| pteP)).entry f 4 w =
        if w = v then pgsize4kb * y + (perm ||| pteP) else m.entry f 4 w := by
      rw [h.entry_store ht hi hb (fun h4 => absurd h4 (by decide)) (lower_in.mpr hw), Nat.div_add_mod]
      by_cases hwv : w = v
      · rw [if_pos ⟨rfl, hwv⟩, if_pos hwv]
      · rw [if_neg fun h0 => hwv h0.2, if_neg hwv]
    by_cases hwv : w = v
    · rw [if_pos hwv] at hentry ⊢
      rw [page_of_present (by rw [hentry]; exact hp), hentry, pteAddr_add y hlt, pages_store hty]
    · rw [if_neg hwv] at hentry ⊢
      refine page_congr hentry fun x hx => pages_store (fun h0 => ?_) m _ _
      rw [h.tree hroot (lower_in.mpr hw) (Nat.le_refl 4), h0, ht] at hx
      cases hx

theorem mapPages_page (h : Frames lower O m) (hf : O f = .node f 0 0) (hv : v < userPages) (hy : O y = .held)
    (hperm : perm < pgsize4kb) :
    Wp (mapPages f (pgsize4kb * v) pgsize4kb (pgsize4kb * y) perm) (fun r m' => ∃ O', Worked f O m O' m' ∧
      (∀ x, O' x = .free → O x = .free) ∧
      ((r = -1 ∧ O' y = .held ∧ (∀ w < userPages, m'.page f w = m.page f w) ∧ ∀ x, O' x ≠ .free) ∨
        (r = 0 ∧ O' y = .node f 4 v ∧ ∀ w < userPages, m'.page f w =
          if w = v then some (pgsize4kb * y + (perm ||| pteP), m.pages y) else m.page f w)))
      (fun e => e = .panic "remap" ∧ m.page f v ≠ none) m := by
  have hstart : roundDown (pgsize4kb * v) pgsize4kb = pgsize4kb * v := by
    rw [roundDown_eq, Nat.mul_div_cancel_left v (by decide)]
  have hstop : roundDown (pgsize4kb * v + pgsize4kb - 1) pgsize4kb = pgsize4kb * v := by
    rw [roundDown_eq]
    simp only [pgsize4kb]
    omega
  have hvpn : vpn (pgsize4kb * v) = v := by
    rw [vpn, Nat.mul_div_cancel_left v (by decide)]
    exact Nat.mod_eq_of_lt (Nat.lt_trans hv (by decide))
  unfold mapPages
  rw [hstart, hstop]
  refine wp_loop (fun (i : Nat × Nat) m' => m' = m ∧ i = (pgsize4kb * v, pgsize4kb * y)) (fun _ => 0) ?_ _ _ _
    ⟨rfl, rfl⟩ (by decide)
  rintro ⟨it, pa⟩ m₁ ⟨rfl, heq⟩
  obtain ⟨rfl, rfl⟩ := Prod.mk.inj heq
  refine Wp.seq (walkPml4_alloc h hf hvpn (lower_in.mpr hv) (h.clear rfl hf (lower_in.mpr hv))) (fun _ h0 => h0.elim) ?_
  rintro r m₂ ⟨O₂, hg, hr⟩
  have hw := hg.worked hf
  have hpage : ∀ w < userPages, m₂.page f w = m₁.page f w := fun w => hg.page h hf
  have hy₂ : O₂ y = .held := by
    rcases hg.use y with h0 | ⟨h0, -⟩
    · rw [h0, hy]
    · rw [hy] at h0
      cases h0
  rcases hr with ⟨rfl, hfree⟩ | ⟨t, rfl, ht⟩
  · exact ⟨O₂, hw, fun _ => hg.free, Or.inl ⟨rfl, hy₂, hpage, hfree⟩⟩
  · have hpte : m₂.pte t (v % 512) = m₂.entry f 4 v := by
      rw [← entry_child (hg.frames.place ht) (Nat.mod_lt v (by decide)), Nat.div_add_mod]
    dsimp only
    rw [wp_bind, wp_get, wp_bind, wp_panicIf, hpte]
    refine ⟨fun hp => ⟨rfl, fun h0 => ?_⟩, fun habs => ?_⟩
    · rw [← hpage v hv, page_of_present hp] at h0
      cases h0
    obtain ⟨hw', hpages⟩ := hg.frames.map_page ht hv hy₂ hperm (Bool.eq_false_of_not_eq_true habs)
    rw [wp_bind, wp_setPte, if_pos rfl, wp_pure]
    refine ⟨_, hw.trans hw', fun x hx => ?_, Or.inr ⟨rfl, upd_self _ _ _, fun w hw => ?_⟩⟩
    · by_cases hxy : x = y
      · rw [hxy, upd_self] at hx
        cases hx
      · rw [upd_of_ne hxy] at hx
        exact hg.free hx
    have hcont : m₂.pages y = m₁.pages y := by
      refine hg.same.pages y ?_
      rintro (h0 | ⟨e, k, -, h0⟩) <;> rw [hy] at h0 <;> cases h0
    rw [hpages w hw, hpage w hw, hcont]

end Xv6.Vm
