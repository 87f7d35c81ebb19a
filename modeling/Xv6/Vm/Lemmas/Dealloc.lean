import Xv6.Vm.Lemmas.Space

/-!
# Unmapping pages

`dealloc_uvm` frees pages from an address on. Where a page is missing it goes on at the next 2 MB, so it frees the pages
before the first missing one of each block of 2 MB.
-/

namespace Xv6.Vm

open Xv6.Lib

variable {τ : Type} {O O₁ O' : Nat → Use τ} {m m₁ m' : Mem} {f t x y s v w oldSz newSz : Nat}

/-! ## One page -/

/-- A page is freed, and then its entry is cleared. -/
theorem Frames.unmap (h : Frames lower O m) (ht : O t = .node f 3 (v / 512)) (hy : O y = .node f 4 v) :
    Wp (kfree y) (fun _ m' => Worked f O m (upd O y .free) (m'.store t (v % 512) 0) ∧
      ∀ w < userPages, (m'.store t (v % 512) 0).page f w = if w = v then none else m.page f w) (fun _ => False) m := by
  have hi : v % 512 < 512 := Nat.mod_lt v (by decide)
  have hty : t ≠ y := fun h0 => by rw [h0, hy] at ht; cases ht
  have hroot := (h.live hy).1
  have hfy : f ≠ y := fun h0 => by rw [h0, hy] at hroot; cases hroot
  obtain ⟨h1, h2, -⟩ := h.range (x := y) (by rw [hy]; rintro ⟨⟩) fun h3 => absurd h3 (by decide)
  -- the two stores are of different frames, so the entry may be cleared first
  have hcleared := h.unlink ht hi (by rwa [Nat.div_add_mod])
  have hfreed := hcleared.push (x := y) (by rw [upd_self]; exact Use.loose_held)
  rw [upd_upd] at hfreed
  unfold kfree
  rw [wp_bind, wp_get, wp_bind, wp_panicIf]
  refine ⟨fun h0 => h0.elim (fun h0 => Nat.not_le.mpr h0 h1) fun h0 => Nat.not_le.mpr h2 h0, fun _ => ?_⟩
  rw [wp_bind, wp_setPage, wp_modify]
  have hmem : (m.freed y).store t (v % 512) 0 = (m.store t (v % 512) 0).freed y := by
    unfold Mem.freed Mem.store Mem.write
    dsimp only
    rw [upd_of_ne hty, upd_comm fun h0 => hty h0.symm]
  change Worked f O m (upd O y .free) ((m.freed y).store t (v % 512) 0) ∧
    ∀ w < userPages, ((m.freed y).store t (v % 512) 0).page f w = if w = v then none else m.page f w
  rw [hmem]
  refine ⟨⟨⟨hfreed, ⟨fun z hz => ?_, rfl, rfl⟩, fun z hz => ?_, fun z hz => ?_⟩, ?_, fun j hj hj' => ?_, fun z hz => ?_,
    fun z hz => ?_⟩, fun w hw => ?_⟩
  · rw [pages_freed fun h0 : z = y => hz (Or.inr (Or.inr ⟨4, v, h0 ▸ hy⟩)),
      pages_store fun h0 : z = t => hz (Or.inr (Or.inr ⟨3, _, h0 ▸ ht⟩))]
  · exact upd_of_ne (fun h0 : z = y => hz (Or.inr (Or.inr ⟨4, v, h0 ▸ hy⟩))) _ _
  · by_cases hzy : z = y
    · subst hzy
      exact Or.inl (Or.inl (upd_self _ _ _))
    · rw [Mine, upd_of_ne hzy]
      exact Or.inl hz
  · rw [upd_of_ne hfy, hroot]
  · -- the table of a page is not the root
    have hft : f ≠ t := fun h0 => by rw [h0, ht] at hroot; cases hroot
    rw [Mem.pte, Mem.pte, pages_freed hfy, pages_store hft]
  · by_cases hzy : z = y
    · subst hzy
      rw [upd_self] at hz
      cases hz
    · rwa [upd_of_ne hzy] at hz
  · by_cases hzy : z = y
    · subst hzy
      rw [upd_self] at hz
      cases hz
    · rwa [upd_of_ne hzy] at hz
  · have hin := lower_in.mpr hw
    have hentry : (m.store t (v % 512) 0).entry f 4 w = if w = v then 0 else m.entry f 4 w := by
      rw [h.entry_store ht hi (Nat.zero_mod _) (fun h4 => absurd h4 (by decide)) hin, Nat.div_add_mod]
      by_cases hwv : w = v
      · rw [if_pos ⟨rfl, hwv⟩, if_pos hwv]
      · rw [if_neg fun h0 => hwv h0.2, if_neg hwv]
    have hsame : ((m.store t (v % 512) 0).freed y).entry f 4 w = (m.store t (v % 512) 0).entry f 4 w := by
      refine hcleared.entry_congr (by rw [upd_of_ne hfy, hroot]) (fun z e k hz _ j => ?_) hin
      have hzy : z ≠ y := fun h0 => by rw [h0, upd_self] at hz; cases hz
      rw [Mem.pte, Mem.pte, pages_freed hzy]
    rw [← hsame] at hentry
    by_cases hwv : w = v
    · rw [if_pos hwv] at hentry ⊢
      exact page_of_absent (by rw [hentry]; rfl)
    · rw [if_neg hwv] at hentry ⊢
      refine page_congr hentry fun x hx => ?_
      rw [h.tree hroot hin (Nat.le_refl 4)] at hx
      have hxy : x ≠ y := fun h0 => by
        rw [h0, hy] at hx
        cases hx
        exact hwv rfl
      have hxt : x ≠ t := fun h0 => by rw [h0, ht] at hx; cases hx
      rw [pages_freed hxy, pages_store hxt]

/-! ## The loop -/

/-- The page `v` is freed by an unmapping that starts at the page `s`: it and all pages before it in its block of 2 MB
are present. -/
def Swept (m : Mem) (f s v : Nat) : Prop :=
  s ≤ v ∧ ∀ u, s ≤ u → v / 512 = u / 512 → u ≤ v → m.page f u ≠ none

/-- The first page at or above an address. -/
def pageUp (sz : Nat) : Nat := (sz + pgsize4kb - 1) / pgsize4kb

theorem roundUp_eq (sz : Nat) : roundUp sz pgsize4kb = pgsize4kb * pageUp sz := Nat.mul_comm _ _

theorem lt_pageUp (sz v : Nat) : v < pageUp sz ↔ pgsize4kb * v < sz := by
  simp only [pageUp, pgsize4kb]
  omega

/-- The pages from `s` to `v` are unmapped, as far as they are swept. -/
structure Unmapped (f s v : Nat) (O : Nat → Use τ) (m : Mem) (O' : Nat → Use τ) (m' : Mem) : Prop where
  worked : Worked f O m O' m'
  gone : ∀ w < v, Swept m f s w → m'.page f w = none
  page : ∀ w < userPages, (w < v → ¬ Swept m f s w) → m'.page f w = m.page f w
  freed : ∀ x w, w < v → Swept m f s w → O x = .node f 4 w → O' x = .free
  use : ∀ x, (∀ w, w < v → Swept m f s w → O x ≠ .node f 4 w) → O' x = O x

theorem Unmapped.zero (h : Frames lower O m) (hf : O f = .node f 0 0) (s : Nat) : Unmapped f s s O m O m :=
  ⟨Worked.refl h hf, fun _ hw hs => absurd hs.1 (Nat.not_le.mpr hw), fun _ _ _ => rfl,
    fun _ _ hw hs => absurd hs.1 (Nat.not_le.mpr hw), fun _ _ => rfl⟩

/-- No page up to the next block is swept. -/
theorem Unmapped.skip (h : Unmapped f s v O m O₁ m₁) (hs : s ≤ v) (habs : m.page f v = none) :
    Unmapped f s (512 * (v / 512 + 1)) O m O₁ m₁ := by
  have hnot : ∀ w, w < 512 * (v / 512 + 1) → Swept m f s w → w < v := fun w hw hsw => by
    by_contra hge
    exact hsw.2 v hs (by omega) (by omega) habs
  exact ⟨h.worked, fun w hw hsw => h.gone w (hnot w hw hsw) hsw, fun w hw hsw => h.page w hw fun h0 => hsw (by omega),
    fun x w hw hsw => h.freed x w (hnot w hw hsw) hsw, fun x hx => h.use x fun w hw hsw => hx w (by omega) hsw⟩

/-- One more page is swept. -/
theorem Unmapped.succ (h : Unmapped f s v O m O₁ m₁) (hsw : Swept m f s v) (hv : v < userPages)
    (hw : Worked f O₁ m₁ (upd O₁ y .free) m') (hy : O₁ y = .node f 4 v)
    (hpage : ∀ w < userPages, m'.page f w = if w = v then none else m₁.page f w) :
    Unmapped f s (v + 1) O m (upd O₁ y .free) m' := by
  have hyO : O y = .node f 4 v := by
    rw [← h.use y fun w hw' hs' h0 => ?_, hy]
    rw [h.freed y w hw' hs' h0] at hy
    cases hy
  refine ⟨h.worked.trans hw, fun w hlt hs' => ?_, fun w hlt hs' => ?_, fun x w hlt hs' hx => ?_, fun x hx => ?_⟩
  · rw [hpage w (by omega)]
    split
    · rfl
    · exact h.gone w (by omega) hs'
  · have hwv : w ≠ v := fun h0 => hs' (by omega) (h0 ▸ hsw)
    rw [hpage w hlt, if_neg hwv]
    exact h.page w hlt fun h0 => hs' (by omega)
  · by_cases hxy : x = y
    · rw [hxy, upd_self]
    · rw [upd_of_ne hxy]
      refine h.freed x w ?_ hs' hx
      refine Nat.lt_of_le_of_ne (by omega) fun h0 => hxy ?_
      have h1 := h.worked.moved.frames
      subst h0
      refine Option.some.inj ((h1.place ?_).symm.trans (h1.place hy))
      rw [h.use x fun u hu hsu h2 => ?_, hx]
      rw [hx] at h2
      cases h2
      exact absurd hu (Nat.lt_irrefl _)
  · have hxy : x ≠ y := fun h0 => hx v (Nat.lt_succ_self v) hsw (h0 ▸ hyO)
    rw [upd_of_ne hxy]
    exact h.use x fun w hlt => hx w (by omega)

/-- No page from `w` on is swept. -/
theorem Unmapped.upTo (h : Unmapped f s v O m O' m') (hw : w ≤ v) (hlast : ∀ u < v, Swept m f s u → u < w) :
    Unmapped f s w O m O' m' :=
  ⟨h.worked, fun u hu => h.gone u (by omega), fun u hu hsu => h.page u hu fun h0 h1 => hsu (hlast u h0 h1) h1,
    fun x u hu => h.freed x u (by omega), fun x hx => h.use x fun u hu hsu => hx u (hlast u hu hsu) hsu⟩

theorem deallocUvm_spec (h : Frames lower O m) (hf : O f = .node f 0 0) (hlt : newSz < oldSz) (htop : oldSz ≤ userTop) :
    Wp (deallocUvm f oldSz newSz) (fun r m' => r = newSz ∧
      ∃ O', Unmapped f (pageUp newSz) (pageUp oldSz) O m O' m') (fun _ => False) m := by
  unfold deallocUvm
  rw [if_neg (Nat.not_le.mpr hlt), roundUp_eq]
  refine wp_loop (fun addr m' => ∃ (O' : Nat → Use τ) (v : Nat), addr = pgsize4kb * v ∧ pageUp newSz ≤ v ∧
      Unmapped f (pageUp newSz) v O m O' m' ∧ (∀ w < v, Swept m f (pageUp newSz) w → w < pageUp oldSz) ∧
      ∀ u, pageUp newSz ≤ u → v / 512 = u / 512 → u < v → m.page f u ≠ none) (fun addr => oldSz - addr) ?_ _ _ _ ?_ ?_
  · rintro addr m₁ ⟨O₁, v, rfl, hs, hun, hlast, hscan⟩
    rw [wp_ite]
    refine ⟨fun haddr => ?_, fun haddr => ?_⟩
    · have hv : v < userPages := by
        simp only [pgsize4kb, userTop, userPages] at haddr htop ⊢
        omega
      have hvpn : vpn (pgsize4kb * v) = v := by
        rw [vpn, Nat.mul_div_cancel_left v (by decide)]
        exact Nat.mod_eq_of_lt (Nat.lt_trans hv (by decide))
      have h₁ := hun.worked.moved.frames
      have hf₁ := hun.worked.root
      -- this page was not touched before
      have hsame : m₁.page f v = m.page f v := hun.page v hv fun h0 => absurd h0 (Nat.lt_irrefl v)
      refine Wp.bind (walkPml4_find h₁ hf₁ hvpn (lower_in.mpr hv) (h₁.clear rfl hf₁ (lower_in.mpr hv))) ?_
      rintro r m₂ ⟨rfl, ⟨rfl, habs⟩ | ⟨t, rfl, ht, hp⟩⟩
      · have habs' : m.page f v = none := by rw [← hsame, page_of_absent habs]
        dsimp only
        rw [wp_pure]
        have hnext : roundDown (pgsize4kb * v + pgsize2mb) pgsize2mb = pgsize4kb * (512 * (v / 512 + 1)) := by
          simp only [roundDown, pgsize4kb, pgsize2mb]
          omega
        refine ⟨⟨O₁, 512 * (v / 512 + 1), hnext, by omega, hun.skip hs habs', fun w hw hsw => ?_,
          fun u hu hblk hlt' => ?_⟩, ?_⟩
        · by_contra hge
          have : ¬ w < v := fun h0 => hge (hlast w h0 hsw)
          exact hsw.2 v hs (by omega) (by omega) habs'
        · omega
        · rw [hnext]
          simp only [pgsize4kb] at haddr ⊢
          omega
      · have hpte : m₂.pte t (v % 512) = m₂.entry f 4 v := by
          rw [← entry_child (h₁.place ht) (Nat.mod_lt v (by decide)), Nat.div_add_mod]
        have hy := h₁.page_frame hf₁ hv hp
        have hsw : Swept m f (pageUp newSz) v := ⟨hs, fun u hu hblk hle => by
          by_cases huv : u = v
          · rw [huv, ← hsame, page_of_present hp]
            rintro ⟨⟩
          · exact hscan u hu hblk (by omega)⟩
        dsimp only
        rw [wp_bind, wp_get, hpte, if_pos hp, wp_bind, wp_panicIf]
        refine ⟨fun h0 => ?_, fun _ => ?_⟩
        · exact absurd h0 (Nat.pos_iff_ne_zero.mp (h₁.range (x := pteAddr (m₂.entry f 4 v)) (by rw [hy]; rintro ⟨⟩)
            fun h3 => absurd h3 (by decide)).2.2)
        · rw [wp_bind]
          refine (h₁.unmap ht hy).post fun _ m₃ h3 => ?_
          obtain ⟨hw, hpage⟩ := h3
          rw [wp_bind, wp_setPte, wp_pure]
          refine ⟨⟨_, v + 1, by rw [Nat.mul_succ], by omega, hun.succ hsw hv hw hy hpage, fun w hw' hsw' => ?_,
            fun u hu hblk hlt' => ?_⟩, ?_⟩
          · by_cases hwv : w = v
            · rw [hwv, lt_pageUp]
              exact haddr
            · exact hlast w (by omega) hsw'
          · by_cases huv : u = v
            · rw [huv]
              exact hsw.2 v hs rfl (Nat.le_refl v)
            · exact hscan u hu (by omega) (by omega)
          · simp only [pgsize4kb] at haddr ⊢
            omega
    · rw [wp_pure]
      refine ⟨rfl, O₁, hun.upTo ?_ hlast⟩
      rw [← Nat.not_lt, lt_pageUp]
      exact haddr
  · exact ⟨O, pageUp newSz, rfl, Nat.le_refl _, Unmapped.zero h hf _, fun w hw hsw => absurd hsw.1 (Nat.not_le.mpr hw),
      fun u hu _ hlt' => absurd hu (Nat.not_le.mpr hlt')⟩
  · omega

end Xv6.Vm
