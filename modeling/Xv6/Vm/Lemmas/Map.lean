import Xv6.Vm.Lemmas.Translate

/-!
# Mapping a range of pages

`map_pages` on any four-level table whose tables are distinct, for a range that is not translated: each round translates
one more page of the range.
-/

namespace Xv6.Vm

open Xv6.Lib

variable {τ : Type} {O : Nat → Use τ} {m m' : Mem} {f va size pa perm n : Nat}

/-- The entry of a page at the physical address `pa`. -/
def leaf (pa perm : Nat) : Nat := (pa ||| perm ||| pteP) % 2 ^ 64

theorem present_leaf (pa perm : Nat) : present (leaf pa perm) = true := by
  rw [present, leaf, Nat.testBit_mod_two_pow]
  exact present_or_one _

theorem leaf_eq {pa perm : Nat} (hpa : pa % pgsize4kb = 0) (hperm : perm < pgsize4kb) :
    leaf pa perm = pa % 2 ^ 64 + (perm ||| pteP) := by
  have hlt : perm ||| pteP < 2 ^ 12 := Nat.or_lt_two_pow hperm (by decide)
  obtain ⟨x, rfl⟩ : ∃ x, pa = pgsize4kb * x := ⟨pa / pgsize4kb, (Nat.mul_div_cancel' (Nat.dvd_of_mod_eq_zero hpa)).symm⟩
  rw [leaf, Nat.or_assoc, or_eq_add x hlt]
  simp only [pgsize4kb] at hlt ⊢
  omega

/-- The first `n` pages of a range were not translated and are mapped, and nothing else changed. After the last page of
the space the range goes on with the first one. -/
structure Laid (f v pa perm n : Nat) (m m' : Mem) : Prop where
  fresh : ∀ k < n, m.translate f ((v + k) % 512 ^ 4) = none
  mapped : ∀ k < n, m'.translate f ((v + k) % 512 ^ 4) = some (0, leaf (pa + pgsize4kb * k) perm)
  other : ∀ w < 512 ^ 4, (∀ k < n, w ≠ (v + k) % 512 ^ 4) → m'.translate f w = m.translate f w

theorem Laid.zero (f v pa perm : Nat) (m : Mem) : Laid f v pa perm 0 m m :=
  ⟨fun _ h => absurd h (Nat.not_lt_zero _), fun _ h => absurd h (Nat.not_lt_zero _), fun _ _ _ => rfl⟩

theorem whole_in {w : Nat} : whole.In 4 w ↔ w < 512 ^ 4 := ⟨fun h => h.2, fun h => ⟨Nat.le_refl 4, h⟩⟩

theorem page_lt (v : Nat) : v % 512 ^ 4 < 512 ^ 4 := Nat.mod_lt v (by decide)

theorem Laid.congr {v : Nat} {m₁ : Mem} (h : Laid f v pa perm n m m₁)
    (hsame : ∀ w < 512 ^ 4, m'.translate f w = m₁.translate f w) : Laid f v pa perm n m m' :=
  ⟨h.fresh, fun k hk => (hsame _ (page_lt _)).trans (h.mapped k hk),
    fun w hw hout => (hsame w hw).trans (h.other w hw hout)⟩

/-- One more page is mapped, none of those before it. -/
theorem Laid.succ {v : Nat} {m₁ : Mem} (h : Laid f v pa perm n m m₁) (hnone : m₁.translate f ((v + n) % 512 ^ 4) = none)
    (hnext : ∀ w < 512 ^ 4, m'.translate f w =
      if w = (v + n) % 512 ^ 4 then some (0, leaf (pa + pgsize4kb * n) perm) else m₁.translate f w) :
    Laid f v pa perm (n + 1) m m' := by
  have hne : ∀ k < n, (v + k) % 512 ^ 4 ≠ (v + n) % 512 ^ 4 := fun k hk h0 => by
    have h1 := h.mapped k hk
    rw [h0, hnone] at h1
    cases h1
  refine ⟨fun k hk => ?_, fun k hk => ?_, fun w hw hout => ?_⟩
  · rcases Nat.lt_succ_iff_lt_or_eq.mp hk with hk | rfl
    · exact h.fresh k hk
    · rw [← h.other _ (page_lt _) fun k hk => Ne.symm (hne k hk), hnone]
  · rw [hnext _ (page_lt _)]
    rcases Nat.lt_succ_iff_lt_or_eq.mp hk with hk | rfl
    · rw [if_neg (hne k hk), h.mapped k hk]
    · rw [if_pos rfl]
  · rw [hnext w hw, if_neg (hout n (Nat.lt_succ_self n))]
    exact h.other w hw fun k hk => hout k (Nat.lt_succ_of_lt hk)

/-- The first `n` pages of a range are mapped, and nothing else changed. -/
structure Installed (f v pa perm n : Nat) (m m' : Mem) : Prop where
  mapped : ∀ k < n, m'.translate f (v + k) = some (0, leaf (pa + pgsize4kb * k) perm)
  other : ∀ w < 512 ^ 4, (v ≤ w → v + n ≤ w) → m'.translate f w = m.translate f w

theorem Laid.installed {v : Nat} (h : Laid f v pa perm n m m') (hv : v + n ≤ 512 ^ 4) :
    Installed f v pa perm n m m' := by
  have heq : ∀ k < n, (v + k) % 512 ^ 4 = v + k := fun k hk => Nat.mod_eq_of_lt (by omega)
  refine ⟨fun k hk => ?_, fun w hw hout => h.other w hw fun k hk h0 => ?_⟩
  · rw [← heq k hk]
    exact h.mapped k hk
  · rw [heq k hk] at h0
    omega

theorem roundDown_eq (a : Nat) : roundDown a pgsize4kb = pgsize4kb * (a / pgsize4kb) := Nat.mul_comm _ _

/-- The number of pages from the one of `va` to the one of the last byte. -/
def pagesOf (va size : Nat) : Nat := (va + size - 1) / pgsize4kb - va / pgsize4kb + 1

/-- A range that can be mapped: it has no page twice and none is translated. -/
def Mappable (m : Mem) (f va size : Nat) : Prop :=
  pagesOf va size ≤ 512 ^ 4 ∧ ∀ k < pagesOf va size, m.translate f ((vpn va + k) % 512 ^ 4) = none

/-- A range that is not mappable is mapped up to the first page that is translated, and this is a panic. -/
theorem mapPages_laid (h : Frames whole O m) (hf : O f = .node f 0 0) (hsize : 0 < size) :
    Wp (mapPages f va size pa perm)
      (fun r m' => ∃ (O' : Nat → Use τ) (n : Nat), Frames whole O' m' ∧ O' f = .node f 0 0 ∧
      m'.kpml4 = m.kpml4 ∧ Laid f (vpn va) pa perm n m m' ∧
      ((r = 0 ∧ n = pagesOf va size) ∨ (r = -1 ∧ n < pagesOf va size ∧ m'.freeList = none)))
      (fun e => e = .panic "remap" ∧ ¬ Mappable m f va size) m := by
  have hN : pagesOf va size ≤ size / pgsize4kb + 2 := by
    simp only [pagesOf, pgsize4kb]
    omega
  have hpos : 0 < pagesOf va size := Nat.succ_pos _
  have hle : va / pgsize4kb ≤ (va + size - 1) / pgsize4kb := Nat.div_le_div_right (by omega)
  unfold mapPages
  refine wp_loop (fun (i : Nat × Nat) m' => ∃ (O' : Nat → Use τ) (n : Nat), Frames whole O' m' ∧ O' f = .node f 0 0 ∧
      m'.kpml4 = m.kpml4 ∧ Laid f (vpn va) pa perm n m m' ∧ n < pagesOf va size ∧
      i = (pgsize4kb * (va / pgsize4kb + n), pa + pgsize4kb * n))
    (fun i => pagesOf va size - (i.1 / pgsize4kb - va / pgsize4kb) - 1) ?_ _ _ _ ?_ ?_
  · rintro ⟨it, pa'⟩ m₁ ⟨O₁, n, h₁, hf₁, hk, hlaid, hn, heq⟩
    obtain ⟨rfl, rfl⟩ := Prod.mk.inj heq
    have hit : vpn (pgsize4kb * (va / pgsize4kb + n)) = (vpn va + n) % 512 ^ 4 := by
      rw [vpn, Nat.mul_div_cancel_left _ (by decide), vpn, Nat.mod_add_mod]
    generalize hw : (vpn va + n) % 512 ^ 4 = w at hit
    have hvlt : w < 512 ^ 4 := hw ▸ page_lt _
    by_cases hunused : m₁.translate f w = none
    · obtain ⟨hclear, habs⟩ := clear_of_translate hunused
      refine Wp.seq (walkPml4_alloc h₁ hf₁ hit (whole_in.mpr hvlt) hclear) (fun _ h0 => h0.elim) ?_
      rintro r m₂ ⟨O₂, hg, hr⟩
      have hsame : ∀ w < 512 ^ 4, m₂.translate f w = m₁.translate f w := fun w hw => hg.translate (whole_in.mpr hw)
      have hk₂ : m₂.kpml4 = m.kpml4 := hg.same.kpml4.trans hk
      rcases hr with ⟨rfl, hfree⟩ | ⟨t, rfl, ht⟩
      · -- no frame is left for a table
        refine ⟨O₂, n, hg.frames, hg.node hf₁, hk₂, hlaid.congr hsame, Or.inr ⟨rfl, hn, ?_⟩⟩
        cases hl : m₂.freeList with
        | none => rfl
        | some x => exact absurd (hg.frames.freeList hl) (hfree x)
      · obtain ⟨hclear₂, habs₂⟩ := clear_of_translate ((hsame _ hvlt).trans hunused)
        have hpte : m₂.pte t (w % 512) = m₂.entry f 4 w := by
          rw [← entry_child (hg.frames.place ht) (Nat.mod_lt _ (by decide)), Nat.div_add_mod]
        dsimp only
        rw [wp_bind, wp_get, wp_bind, wp_panicIf, hpte]
        refine ⟨fun hp => absurd hp (by rw [habs₂]; decide), fun _ => ?_⟩
        rw [wp_bind, wp_setPte]
        have hmap : ∀ u < 512 ^ 4, (m₂.store t (w % 512) (pa + pgsize4kb * n ||| perm ||| pteP)).translate f u =
            if u = (vpn va + n) % 512 ^ 4 then some (0, leaf (pa + pgsize4kb * n) perm)
            else m₁.translate f u := fun u hu => by
          rw [hg.frames.translate_store ht rfl (present_leaf _ _) hclear₂ (whole_in.mpr hu), hsame u hu, hw]
          rfl
        have hframes := hg.frames.alter ht (Nat.mod_lt w (by decide)) (a := pa + pgsize4kb * n ||| perm ||| pteP) rfl
          (by rw [Nat.div_add_mod]; exact whole_in.mpr hvlt) fun h0 => absurd h0 (by decide)
        have hdone := hlaid.succ (by rw [hw, hunused]) hmap
        rw [roundDown_eq, wp_ite]
        refine ⟨fun hstop => ?_, fun hstop => ?_⟩
        · rw [wp_pure]
          refine ⟨O₂, n + 1, hframes, hg.node hf₁, hk₂, hdone, Or.inl ⟨rfl, ?_⟩⟩
          have := Nat.eq_of_mul_eq_mul_left (by decide) hstop
          unfold pagesOf at hn ⊢
          omega
        · rw [wp_pure]
          have hlast : n + 1 ≠ pagesOf va size := fun h0 =>
            hstop (congrArg (pgsize4kb * ·) (by unfold pagesOf at h0; omega))
          refine ⟨⟨O₂, n + 1, hframes, hg.node hf₁, hk₂, hdone, by omega, ?_⟩, ?_⟩
          · rw [Nat.mul_add, Nat.mul_add, Nat.mul_add, Nat.mul_one, Nat.add_assoc, Nat.add_assoc]
          · dsimp only
            rw [Nat.mul_div_cancel_left _ (by decide), ← Nat.mul_succ, Nat.mul_div_cancel_left _ (by decide)]
            omega
    · rw [← hit] at hunused
      refine Wp.seq (walkLevel_present (Nat.le_refl 3) hunused) (fun _ h0 => h0.elim) ?_
      rintro r m₂ ⟨rfl, a, rfl, hp⟩
      dsimp only
      rw [wp_bind, wp_get, wp_bind, wp_panicIf]
      refine ⟨fun _ => ⟨rfl, fun hmap => ?_⟩, fun h0 => absurd hp h0⟩
      -- the page is one of those that were translated before
      refine hunused ?_
      rw [hit, ← hw, hlaid.other _ (page_lt _) fun k hkn h0 => ?_]
      · exact hmap.2 n hn
      · have := hmap.1
        omega
  · refine ⟨O, 0, h, hf, rfl, Laid.zero _ _ _ _ m, hpos, ?_⟩
    rw [roundDown_eq, Nat.add_zero, Nat.mul_zero, Nat.add_zero]
  · dsimp only
    rw [roundDown_eq, Nat.mul_div_cancel_left _ (by decide), Nat.sub_self, Nat.sub_zero]
    exact Nat.lt_of_lt_of_le (Nat.sub_lt hpos Nat.one_pos) hN

/-- A range that is not translated and does not go beyond the end of the space. -/
theorem mapPages_whole (h : Frames whole O m) (hf : O f = .node f 0 0) (hsize : 0 < size)
    (htop : vpn va + pagesOf va size ≤ 512 ^ 4)
    (hnone : ∀ k < pagesOf va size, m.translate f (vpn va + k) = none) :
    Wp (mapPages f va size pa perm) (fun r m' => ∃ n, Installed f (vpn va) pa perm n m m' ∧
      ((r = 0 ∧ n = pagesOf va size) ∨ (r = -1 ∧ n < pagesOf va size ∧ m'.freeList = none))) (fun _ => False) m := by
  refine (mapPages_laid h hf hsize).mono ?_ ?_
  · rintro r m' ⟨O', n, -, -, -, hlaid, hr⟩
    refine ⟨n, hlaid.installed ?_, hr⟩
    rcases hr with ⟨-, hn⟩ | ⟨-, hn, -⟩ <;> omega
  · rintro e ⟨-, hbad⟩
    refine hbad ⟨by omega, fun k hk => ?_⟩
    rw [Nat.mod_eq_of_lt (by omega)]
    exact hnone k hk

end Xv6.Vm
