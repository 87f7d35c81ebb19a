import Xv6.Vm.Lemmas.Frames

/-!
# Walking and mapping

`walk_pml4` finds the entry of a page, or makes the tables on the way to it; `map_pages` stores the entries.
-/

namespace Xv6.Vm

open Xv6.Lib

variable {τ : Type} {L : Extent} {O O₁ O' : Nat → Use τ} {m m₁ m' : Mem} {f t x y e k i a v va n : Nat} {u : Use τ}

theorem Same.refl (X : Nat → Prop) (m : Mem) : Same X m m := ⟨fun _ _ => rfl, rfl, rfl⟩

theorem Same.trans {X Y Z : Nat → Prop} (h : Same X m m₁) (h' : Same Y m₁ m') (hX : ∀ x, X x → Z x)
    (hY : ∀ x, Y x → Z x) :
    Same Z m m' :=
  ⟨fun x hx => (h'.pages x fun h0 => hx (hY x h0)).trans (h.pages x fun h0 => hx (hX x h0)), h'.bumpEnd.trans h.bumpEnd,
    h'.kpml4.trans h.kpml4⟩

theorem Same.mono {X Z : Nat → Prop} (h : Same X m m') (hX : ∀ x, X x → Z x) : Same Z m m' :=
  ⟨fun x hx => h.pages x fun h0 => hx (hX x h0), h.bumpEnd, h.kpml4⟩

theorem same_write (m : Mem) (x : Nat) (b : Bytes) : Same (fun z => z = x) m (m.write x b) :=
  ⟨fun _ hz => upd_of_ne hz _ _, rfl, rfl⟩

theorem same_store (m : Mem) (t i a : Nat) : Same (fun z => z = t) m (m.store t i a) := same_write m t _

/-! ## Frames come and go -/

theorem wp_setPage {Q : Unit → Mem → Prop} {E : Halt → Prop} (x : Nat) (b : Bytes) :
    Wp (setPage x b) Q E m ↔ Q () (m.write x b) := Iff.rfl

theorem wp_setPte {Q : Unit → Mem → Prop} {E : Halt → Prop} (t i a : Nat) :
    Wp (setPte t i a) Q E m ↔ Q () (m.store t i a) := Iff.rfl

theorem kalloc_spec (h : Frames L O m) (hu : u.Loose) :
    Wp kalloc (fun r m' => (r = none ∧ m' = m ∧ ∀ x, O x ≠ .free) ∨
      ∃ x, r = some x ∧ O x = .free ∧ Frames L (upd O x u) m' ∧ Same (fun z => z = x) m m') (fun _ => False) m := by
  unfold kalloc
  rw [wp_bind, wp_get]
  split
  · rename_i hx
    exact Or.inl ⟨rfl, rfl, h.no_free hx⟩
  · rename_i x hx
    rw [wp_bind, wp_set, wp_bind, wp_setPage, wp_pure]
    exact Or.inr ⟨x, rfl, h.freeList hx, h.pop hx hu _, fun z hz => upd_of_ne hz _ _, rfl, rfl⟩

theorem kfree_spec (h : Frames L O m) (hx : (O x).Loose) :
    Wp (kfree x) (fun _ m' => Frames L (upd O x .free) m' ∧ Same (fun z => z = x) m m') (fun _ => False) m := by
  obtain ⟨h1, h2, -⟩ := h.range hx.1 fun _ => hx.2.2
  unfold kfree
  rw [wp_bind, wp_get, wp_bind, wp_panicIf]
  refine ⟨fun h0 => h0.elim (fun h0 => Nat.not_le.mpr h0 h1) fun h0 => Nat.not_le.mpr h2 h0, fun _ => ?_⟩
  rw [wp_bind, wp_setPage, wp_modify]
  exact ⟨h.push hx, fun z hz => upd_of_ne hz _ _, rfl, rfl⟩

/-! ## Making tables -/

/-- Tables were made on the way to the page `v` of the space `f`. -/
structure Grown (L : Extent) (f v : Nat) (O : Nat → Use τ) (m : Mem) (O' : Nat → Use τ) (m' : Mem) : Prop where
  frames : Frames L O' m'
  same : Same (fun x => O x = .free ∨ ∃ e k, e < 4 ∧ O x = .node f e k) m m'
  use : ∀ x, O' x = O x ∨ O x = .free ∧ ∃ e, e < 3 ∧ O' x = .node f (e + 1) (v / 512 ^ (3 - e))
  entry : ∀ e k, L.In e k → m'.entry f e k = m.entry f e k ∨
    e < 4 ∧ k = v / 512 ^ (4 - e) ∧ present (m.entry f e k) = false ∧ ∃ x, O x = .free ∧
      m'.entry f e k = pgsize4kb * x + 7
  upper : ∀ i, L.lim 1 ≤ i → i < 512 → m'.pte f i = m.pte f i

theorem Grown.refl (h : Frames L O m) : Grown L f v O m O m :=
  ⟨h, Same.refl _ m, fun _ => Or.inl rfl, fun _ _ _ => Or.inl rfl, fun _ _ _ => rfl⟩

theorem Grown.free (h : Grown L f v O m O' m') (hx : O' x = .free) : O x = .free := by
  rcases h.use x with h0 | ⟨h0, -⟩
  · rw [← h0, hx]
  · exact h0

theorem Grown.node (h : Grown L f v O m O' m') {g : Nat} (hx : O x = .node g e k) : O' x = .node g e k := by
  rcases h.use x with h0 | ⟨h0, -⟩
  · rw [h0, hx]
  · rw [hx] at h0
    cases h0

theorem Grown.trans (h : Grown L f v O m O₁ m₁) (h' : Grown L f v O₁ m₁ O' m') : Grown L f v O m O' m' := by
  refine ⟨h'.frames, h.same.trans h'.same (fun _ h0 => h0) fun x h0 => ?_, fun x => ?_, fun e k hin => ?_,
    fun i hi hi' => ?_⟩
  · rcases h0 with h0 | ⟨e, k, he, h0⟩
    · exact Or.inl (h.free h0)
    · rcases h.use x with h1 | ⟨h1, -⟩
      · exact Or.inr ⟨e, k, he, h1 ▸ h0⟩
      · exact Or.inl h1
  · rcases h'.use x with h1 | ⟨h1, h2⟩
    · rw [h1]
      exact h.use x
    · exact Or.inr ⟨h.free h1, h2⟩
  · rcases h'.entry e k hin with h1 | ⟨he, hk, habs, x, hx, h1⟩
    · rw [h1]
      exact h.entry e k hin
    · rcases h.entry e k hin with h2 | ⟨-, -, -, z, -, h2⟩
      · rw [h2] at habs
        exact Or.inr ⟨he, hk, habs, x, h.free hx, h1⟩
      · rw [h2, present_add z (by decide)] at habs
        cases habs
  · rw [h'.upper i hi hi', h.upper i hi hi']

/-- No large page is on the way to the page `v`. -/
def Clear (m : Mem) (f v : Nat) : Prop :=
  ∀ e < 4, present (m.entry f e (v / 512 ^ (4 - e))) = true → large (m.entry f e (v / 512 ^ (4 - e))) = false

theorem digit_eq (va : Nat) (hn : n ≤ 3) : va / 2 ^ (12 + 9 * n) % 512 = vpn va / 512 ^ n % 512 := by
  rw [vpn, show 4 = n + (4 - n) by omega, Nat.pow_add 512, Nat.mod_mul_right_div_self,
    Nat.mod_mod_of_dvd _ (Dvd.intro_left (512 ^ (3 - n)) (by rw [← Nat.pow_succ]; congr 1; omega)),
      Nat.pow_add, Nat.pow_mul,
    ← Nat.div_div_eq_div_mul]
  rfl

theorem digit_zero (va : Nat) : va / 2 ^ 12 % 512 = vpn va % 512 := by
  have h := digit_eq va (Nat.zero_le 3)
  rwa [Nat.mul_zero, Nat.add_zero, Nat.pow_zero, Nat.div_one] at h

theorem vpn_of_lt (h : va < pgsize4kb * 512 ^ 4) : vpn va = va / pgsize4kb := Nat.mod_eq_of_lt (Nat.div_lt_of_lt_mul h)

theorem key_up (v n : Nat) : v / 512 ^ n / 512 = v / 512 ^ (n + 1) := by rw [Nat.div_div_eq_div_mul, ← Nat.pow_succ]

theorem key_child (v n : Nat) : 512 * (v / 512 ^ (n + 1)) + v / 512 ^ n % 512 = v / 512 ^ n := by
  rw [← key_up, Nat.div_add_mod]

/-- The places on the way to a place. -/
theorem Extent.In.ups : ∀ {n e k : Nat}, L.In (e + n) k → L.In e (k / 512 ^ n)
  | 0, e, k, h => by
    rw [Nat.pow_zero, Nat.div_one]
    exact h
  | n + 1, e, k, h => by
    rw [Nat.pow_succ', ← Nat.div_div_eq_div_mul]
    exact Extent.In.ups h.up

theorem Extent.In.path (h : L.In 4 v) {n e : Nat} (he : e + n = 4) : L.In e (v / 512 ^ n) := Extent.In.ups (by rwa [he])

/-- One table is made. -/
theorem Frames.grow (h : Frames L O m) (hf : O y = .free) (h1 : Frames L (upd O y .held) m₁)
    (hs : Same (fun z => z = y) m m₁) (ht : O t = .node f e (v / 512 ^ (n + 1))) (he : e + n = 3) (hn : n ≠ 0)
    (hv : L.In 4 v) (habs : present (m.pte t (v / 512 ^ n % 512)) = false) :
    Grown L f v O m (upd O y (.node f (e + 1) (v / 512 ^ n)))
      ((m₁.write y fun _ => 0).store t (v / 512 ^ n % 512) (pgsize4kb * y + 7)) := by
  have hi : v / 512 ^ n % 512 < 512 := Nat.mod_lt _ (by decide)
  have hyt : t ≠ y := fun h0 => by rw [h0, hf] at ht; cases ht
  have hin : L.In (e + 1) (512 * (v / 512 ^ (n + 1)) + v / 512 ^ n % 512) := by
    rw [key_child]
    exact hv.path (by omega)
  have h2 : Frames L (upd O y .held) (m₁.write y fun _ => 0) :=
    h1.write_loose (by rw [upd_self]; exact Use.loose_held) _
  have hpte : (m₁.write y fun _ => 0).pte t (v / 512 ^ n % 512) = m.pte t (v / 512 ^ n % 512) := by
    rw [pte_write_of_ne hyt, Mem.pte, hs.pages t hyt, Mem.pte]
  have ht2 : upd O y .held t = .node f e (v / 512 ^ (n + 1)) := by rw [upd_of_ne hyt, ht]
  have hy64 : (pgsize4kb * y + 7) % 2 ^ 64 = pgsize4kb * y + 7 := by
    have hr := (h.range (x := y) (by rw [hf]; rintro ⟨⟩) fun _ _ _ _ => by rw [hf]; rintro ⟨⟩).2.1
    simp only [pgsize4kb, phyStop] at hr ⊢
    exact Nat.mod_eq_of_lt (by omega)
  have hold : next (e + 1) ((m₁.write y fun _ => 0).pte t (v / 512 ^ n % 512)) = none := by
    rw [hpte]
    exact next_of_absent habs
  have hzero : ∀ j < 512, (m₁.write y fun _ => 0).pte y j = 0 := fun j _ => pte_zeros (upd_self _ _ _) j
  have hlarge : large (pgsize4kb * y + 7) = false := large_add y (by decide)
  have hnew := next_table (e + 1) y
  have hlink := h2.link ht2 hi hy64 hin (by have := L.tables; omega) hold (upd_self _ _ _) hnew (fun _ => hzero)
    fun _ _ => hlarge
  rw [upd_upd, key_child] at hlink
  -- the tables but for the new link
  have hentry : ∀ e' k', L.In e' k' → (m₁.write y fun _ => 0).entry f e' k' = m.entry f e' k' := fun e' k' hin' => by
    refine h.entry_congr (h.live ht).1 (fun z ez kz hz _ j => ?_) hin'
    have hzy : z ≠ y := fun h0 => by rw [h0, hf] at hz; cases hz
    rw [pte_write_of_ne hzy, Mem.pte, hs.pages z hzy, Mem.pte]
  refine ⟨hlink, ?_, fun z => ?_, fun e' k' hin' => ?_, fun j hj hj' => ?_⟩
  · refine hs.trans ((same_write m₁ y _).trans (same_store _ t _ _) (fun z h0 => Or.inl h0) fun z h0 => Or.inr h0)
      ?_ ?_
    · rintro z rfl
      exact Or.inl hf
    · rintro z (rfl | rfl)
      · exact Or.inl hf
      · exact Or.inr ⟨e, _, by omega, ht⟩
  · by_cases hz : z = y
    · subst hz
      refine Or.inr ⟨hf, e, by omega, ?_⟩
      rw [upd_self, show 3 - e = n by omega]
    · exact Or.inl (upd_of_ne hz _ _)
  · rw [h2.entry_store ht2 hi hy64 (fun _ => ⟨hold, fun z hz => ?_⟩) hin']
    · rw [hentry e' k' hin', key_child]
      split
      · rename_i hc
        obtain ⟨rfl, rfl⟩ := hc
        refine Or.inr ⟨by omega, by rw [show 4 - (e + 1) = n by omega], ?_, y, hf, rfl⟩
        rw [← key_child, entry_child (h.place ht) hi]
        exact habs
      · exact Or.inl rfl
    · obtain rfl := Option.some.inj (hnew.symm.trans hz)
      exact ⟨fun h0 => hyt h0.symm, hzero⟩
  · -- the slot is one of the described part
    have hfy : f ≠ y := fun h0 => by
      have := (h.live ht).1
      rw [h0, hf] at this
      cases this
    rw [pte_store]
    by_cases hft : f = t ∧ j = v / 512 ^ n % 512
    · obtain ⟨rfl, rfl⟩ := hft
      have hroot := (h.live ht).1
      rw [ht] at hroot
      obtain ⟨-, rfl, hk0⟩ := Use.node.inj hroot
      simp only [hk0, Nat.mul_zero, Nat.zero_add] at hin
      exact absurd hin.2 (Nat.not_lt.mpr hj)
    · rw [Radix.setSlot, if_neg hft, pte_write_of_ne hfy, Mem.pte, hs.pages f hfy, Mem.pte]

theorem walkLevel_alloc (hva : vpn va = v) (hv : L.In 4 v) (he : e + n = 3) (h : Frames L O m)
    (ht : O t = .node f e (v / 512 ^ (n + 1))) (hclear : Clear m f v) :
    Wp (walkLevel va true n t) (fun r m' => ∃ O', Grown L f v O m O' m' ∧
      ((r = none ∧ ∀ x, O' x ≠ .free) ∨ ∃ t', r = some (t', v % 512) ∧ O' t' = .node f 3 (v / 512)))
      (fun _ => False) m := by
  induction n generalizing e t O m with
  | zero =>
      unfold walkLevel
      rw [wp_bind, wp_get, if_pos rfl, wp_pure]
      refine ⟨O, Grown.refl h, Or.inr ⟨t, ?_, ?_⟩⟩
      · rw [digit_zero, hva]
      · rw [ht, show e = 3 from he, Nat.zero_add, Nat.pow_one]
  | succ n ih =>
      have hi : v / 512 ^ (n + 1) % 512 < 512 := Nat.mod_lt _ (by decide)
      have hin : L.In (e + 1) (v / 512 ^ (n + 1)) := hv.path (by omega)
      have hent : m.entry f (e + 1) (v / 512 ^ (n + 1)) = m.pte t (v / 512 ^ (n + 1) % 512) := by
        rw [← entry_child (h.place ht) hi, key_child]
      unfold walkLevel
      rw [digit_eq va (by omega), hva, wp_bind, wp_get, wp_ite]
      refine ⟨fun hp => ?_, fun habs => ?_⟩
      · have hl := hclear (e + 1) (by omega)
        rw [show 4 - (e + 1) = n + 1 by omega, hent] at hl
        have hlarge := hl hp
        rw [if_neg (by rw [hlarge]; decide)]
        refine ih (e := e + 1) (by omega) h ?_ hclear
        rw [← h.table (h.live ht).1 hin (by omega), Mem.node_succ, hent]
        exact if_pos ⟨hp, Or.inr hlarge⟩
      · rw [if_pos rfl, wp_bind]
        refine (kalloc_spec h Use.loose_held).post ?_
        rintro r m1 (⟨rfl, rfl, hnone⟩ | ⟨y, rfl, hy, h1, hs⟩)
        · exact ⟨O, Grown.refl h, Or.inl ⟨rfl, hnone⟩⟩
        · dsimp only
          rw [wp_bind, wp_setPage, wp_bind, wp_setPte]
          have hg := h.grow hy h1 hs ht he (Nat.succ_ne_zero n) hv (Bool.eq_false_iff.mpr habs)
          have hor : pgsize4kb * y ||| pteP ||| pteW ||| pteU = pgsize4kb * y + 7 := by
            rw [Nat.or_assoc, Nat.or_assoc]
            exact or_eq_add y (by decide)
          rw [hor]
          refine (ih (e := e + 1) (by omega) hg.frames (upd_self _ _ _) fun e' he' hp => ?_).post ?_
          · rcases hg.entry e' _ (hv.path (n := 4 - e') (by omega)) with h0 | ⟨-, -, -, z, -, h0⟩
            · rw [h0] at hp ⊢
              exact hclear e' he' hp
            · rw [h0]
              exact large_add z (by decide)
          · rintro r m' ⟨O', hg', hr⟩
            exact ⟨O', hg.trans hg', hr⟩

theorem walkPml4_alloc (h : Frames L O m) (hf : O f = .node f 0 0) (hva : vpn va = v) (hv : L.In 4 v)
    (hclear : Clear m f v) :
    Wp (walkPml4 f va true) (fun r m' => ∃ O', Grown L f v O m O' m' ∧
      ((r = none ∧ ∀ x, O' x ≠ .free) ∨ ∃ t', r = some (t', v % 512) ∧ O' t' = .node f 3 (v / 512)))
      (fun _ => False) m := by
  refine walkLevel_alloc hva hv (e := 0) rfl h ?_ hclear
  rw [hf, (hv.path (n := 4) (e := 0) rfl).zero]

/-! ## Finding an entry -/

theorem Frames.clear (h : Frames L O m) (hd : L.depth = 4) (hf : O f = .node f 0 0) (hv : L.In 4 v) : Clear m f v :=
  fun _ he _ => h.small hd hf (hv.path (by omega)) he

theorem walkLevel_find (hva : vpn va = v) (hv : L.In 4 v) (he : e + n = 3) (h : Frames L O m)
    (ht : O t = .node f e (v / 512 ^ (n + 1))) (hclear : Clear m f v) :
    Wp (walkLevel va false n t) (fun r m' => m' = m ∧ ((r = none ∧ present (m.entry f 4 v) = false) ∨
      ∃ t', r = some (t', v % 512) ∧ O t' = .node f 3 (v / 512) ∧ present (m.entry f 4 v) = true))
        (fun _ => False) m := by
  induction n generalizing e t with
  | zero =>
      have he3 : e = 3 := he
      subst he3
      rw [Nat.zero_add, Nat.pow_one] at ht
      unfold walkLevel
      rw [wp_bind, wp_get, if_neg Bool.false_ne_true, digit_zero, hva,
        ← entry_child (h.place ht) (Nat.mod_lt v (by decide)), Nat.div_add_mod, wp_ite, wp_pure, wp_pure]
      exact ⟨fun hp => ⟨rfl, Or.inr ⟨t, rfl, ht, hp⟩⟩, fun hp => ⟨rfl, Or.inl ⟨rfl, Bool.eq_false_iff.mpr hp⟩⟩⟩
  | succ n ih =>
      have hi : v / 512 ^ (n + 1) % 512 < 512 := Nat.mod_lt _ (by decide)
      have hin : L.In (e + 1) (v / 512 ^ (n + 1)) := hv.path (by omega)
      have hent : m.entry f (e + 1) (v / 512 ^ (n + 1)) = m.pte t (v / 512 ^ (n + 1) % 512) := by
        rw [← entry_child (h.place ht) hi, key_child]
      unfold walkLevel
      rw [digit_eq va (by omega), hva, wp_bind, wp_get, wp_ite]
      refine ⟨fun hp => ?_, fun habs => ?_⟩
      · have hl := hclear (e + 1) (by omega)
        rw [show 4 - (e + 1) = n + 1 by omega, hent] at hl
        have hlarge := hl hp
        rw [if_neg (by rw [hlarge]; decide)]
        refine ih (e := e + 1) (by omega) ?_
        rw [← h.table (h.live ht).1 hin (by omega), Mem.node_succ, hent]
        exact if_pos ⟨hp, Or.inr hlarge⟩
      · rw [if_neg Bool.false_ne_true, wp_pure]
        -- where a table is missing there is no page
        refine ⟨rfl, Or.inl ⟨rfl, ?_⟩⟩
        have hnone : m.node f (e + 1) (v / 512 ^ (n + 1)) = none := by
          rw [Mem.node_succ, hent]
          exact next_of_absent (Bool.eq_false_iff.mpr habs)
        cases h3 : m.node f 3 (v / 512) with
        | none =>
            rw [entry_of_none h3]
            rfl
        | some z =>
            obtain ⟨w, hw⟩ := Radix.node_up (show Radix.node 512 next m.pte f 3 (v / 512) = some z from h3)
              (show e + 1 ≤ 3 by omega)
            have hkey : v / 512 / 512 ^ (3 - (e + 1)) = v / 512 ^ (n + 1) := by
              rw [show 3 - (e + 1) = n by omega, Nat.div_div_eq_div_mul, ← Nat.pow_succ']
            rw [hkey] at hw
            exact absurd (hnone.symm.trans hw) (fun h0 => Option.some_ne_none w h0.symm)

theorem walkPml4_find (h : Frames L O m) (hf : O f = .node f 0 0) (hva : vpn va = v) (hv : L.In 4 v)
    (hclear : Clear m f v) :
    Wp (walkPml4 f va false) (fun r m' => m' = m ∧ ((r = none ∧ present (m.entry f 4 v) = false) ∨
      ∃ t, r = some (t, v % 512) ∧ O t = .node f 3 (v / 512) ∧ present (m.entry f 4 v) = true)) (fun _ => False) m := by
  refine walkLevel_find hva hv (e := 0) rfl h ?_ hclear
  rw [hf, (hv.path (n := 4) (e := 0) rfl).zero]

end Xv6.Vm
