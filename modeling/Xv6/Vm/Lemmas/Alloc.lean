import Xv6.Vm.Lemmas.Dealloc

/-!
# New spaces and new pages

`setup_uvm` makes a space without pages, and `alloc_uvm` maps zeroed pages to a range or, when memory runs out, unmaps
what it has mapped.
-/

namespace Xv6.Vm

open Xv6.Lib

variable {τ : Type} {O O₁ O' : Nat → Use τ} {m m₁ m' : Mem} {f x y s v w oldSz newSz : Nat}

/-! ## A frame in a local variable -/

/-- What happens to a frame that is not in the space changes no page. -/
theorem Frames.page_same (h : Frames lower O m) (hf : O f = .node f 0 0) (hy : ∀ e k, O y ≠ .node f e k)
    (hs : Same (fun z => z = y) m m') (hw : w < userPages) : m'.page f w = m.page f w := by
  have hin := lower_in.mpr hw
  have hne : ∀ {z e k}, O z = .node f e k → ¬ z = y := fun hz h0 => hy _ _ (h0 ▸ hz)
  refine page_congr (h.entry_congr hf (fun z e k hz _ j => ?_) hin) fun z hz => ?_
  · rw [Mem.pte, hs.pages z (hne hz), Mem.pte]
  · exact hs.pages z (hne ((h.tree hf hin (Nat.le_refl 4)).mp hz))

/-- A function takes a frame before it works on the space. -/
theorem Moved.of_take (hy : O y = .free) (hs : Same (fun z => z = y) m m₁)
    (hm : Moved lower f (upd O y .held) m₁ O' m') :
    Moved lower f O m O' m' := by
  have hmine : ∀ x, Mine (upd O y .held) f x ↔ Mine O f x := fun x => by
    by_cases hxy : x = y
    · subst hxy
      exact iff_of_true (Or.inr (Or.inl (upd_self _ _ _))) (Or.inl hy)
    · rw [Mine, upd_of_ne hxy, Mine]
  refine ⟨hm.frames, hs.trans hm.same ?_ fun x h0 => (hmine x).mp h0, fun x hx => ?_, fun x hx => ?_⟩
  · rintro x rfl
    exact Or.inl hy
  · rw [hm.other x fun h0 => hx ((hmine x).mp h0), upd_of_ne]
    exact fun h0 => hx (Or.inl (h0 ▸ hy))
  · exact hm.mine x ((hmine x).mpr hx)

theorem Worked.of_take (hf : O f = .node f 0 0) (hy : O y = .free) (hs : Same (fun z => z = y) m m₁)
    (hw : Worked f (upd O y .held) m₁ O' m') (hy' : O' y ≠ .held) : Worked f O m O' m' := by
  have hfy : f ≠ y := fun h0 => by rw [h0, hy] at hf; cases hf
  refine ⟨hw.moved.of_take hy hs, hw.root, fun i hi hi' => ?_, fun x hx => ?_, fun x hx => ?_⟩
  · rw [hw.upper i hi hi', Mem.pte, hs.pages f hfy, Mem.pte]
  · have hxy : x ≠ y := fun h0 => hy' (h0 ▸ hx)
    have h0 := hw.held x hx
    rwa [upd_of_ne hxy] at h0
  · have h0 := hw.lost x hx
    by_cases hxy : x = y
    · subst hxy
      rw [upd_self] at h0
      cases h0
    · rwa [upd_of_ne hxy] at h0

theorem Moved.write (h : Moved lower f O m O' m') (hy : Mine O f y) (hl : (O' y).Loose) (b : Bytes) :
    Moved lower f O m O' (m'.write y b) := by
  refine ⟨h.frames.write_loose hl b, h.same.trans (same_write m' y b) (fun _ h0 => h0) ?_, h.other, h.mine⟩
  rintro x rfl
  exact hy

/-- A function loses a frame that it took. -/
theorem Moved.lose (h : Moved lower f O m O' m') (hy : Mine O f y) (hy' : O' y = .held) :
    Moved lower f O m (upd O' y .lost) m' := by
  refine ⟨h.frames.relabel (by rw [hy']; exact Use.loose_held) Use.loose_lost, h.same, fun x hx => ?_, fun x hx => ?_⟩
  · rw [upd_of_ne fun h0 : x = y => hx (h0 ▸ hy), h.other x hx]
  · by_cases hxy : x = y
    · rw [hxy, upd_self]
      exact Or.inr rfl
    · rw [Mine, upd_of_ne hxy]
      exact h.mine x hx

/-- A function frees a frame after it worked on the space. -/
theorem Worked.give (hw : Worked f O m O₁ m₁) (hy : O₁ y = .held) (h' : Frames lower (upd O₁ y .free) m')
    (hs : Same (fun z => z = y) m₁ m') : Worked f O m (upd O₁ y .free) m' := by
  have hback : Mine O f y := Or.inr (Or.inl (hw.held y hy))
  have hfy : f ≠ y := fun h0 => by rw [← h0, hw.root] at hy; cases hy
  refine ⟨⟨h', hw.moved.same.trans hs (fun _ h0 => h0) ?_, fun x hx => ?_, fun x hx => ?_⟩, ?_, fun i hi hi' => ?_,
    fun x hx => ?_, fun x hx => ?_⟩
  · rintro x rfl
    exact hback
  · rw [upd_of_ne fun h0 : x = y => hx (h0 ▸ hback), hw.moved.other x hx]
  · by_cases hxy : x = y
    · subst hxy
      exact Or.inl (Or.inl (upd_self _ _ _))
    · rw [Mine, upd_of_ne hxy]
      exact hw.moved.mine x hx
  · rw [upd_of_ne hfy, hw.root]
  · rw [Mem.pte, hs.pages f hfy, ← Mem.pte, hw.upper i hi hi']
  · by_cases hxy : x = y
    · subst hxy
      rw [upd_self] at hx
      cases hx
    · rw [upd_of_ne hxy] at hx
      exact hw.held x hx
  · by_cases hxy : x = y
    · subst hxy
      rw [upd_self] at hx
      cases hx
    · rw [upd_of_ne hxy] at hx
      exact hw.lost x hx

/-! ## A new space -/

theorem setupUvm_spec (h : Frames lower O m) (hk : O m.kpml4 = .kernel) :
    Wp setupUvm (fun r m' => (r = none ∧ m' = m ∧ ∀ x, O x ≠ .free) ∨
      ∃ f, r = some f ∧ O f = .free ∧ Frames lower (upd O f (.node f 0 0)) m' ∧ Same (fun z => z = f) m m' ∧
        (∀ v < userPages, m'.page f v = none) ∧ ∀ i, 256 ≤ i → i < 512 → m'.pte f i = m.pte m.kpml4 i)
      (fun _ => False) m := by
  unfold setupUvm
  refine Wp.bind (kalloc_spec h Use.loose_held) ?_
  rintro r m₁ (⟨rfl, rfl, hnone⟩ | ⟨f, rfl, hfree, h₁, hs⟩)
  · exact Or.inl ⟨rfl, rfl, hnone⟩
  · have hkf : m.kpml4 ≠ f := fun h0 => by rw [h0, hfree] at hk; cases hk
    have hheld : upd O f .held f = .held := upd_self _ _ _
    dsimp only
    rw [wp_bind, wp_setPage, wp_bind, wp_get, wp_bind, wp_setPage, wp_pure]
    generalize hp : (fun k => if 8 * 256 ≤ k ∧ k < 8 * 512 then _ else _ : Bytes) = p
    have h₂ := (h₁.write_loose (x := f) (by rw [hheld]; exact Use.loose_held) (fun _ => 0)).write_loose
      (by rw [hheld]; exact Use.loose_held) p
    have hs₂ : Same (fun z => z = f) m ((m₁.write f fun _ => 0).write f p) :=
      (hs.trans (same_write m₁ f _) (fun _ h0 => h0) fun _ h0 => h0).trans (same_write _ f _)
        (fun _ h0 => h0) fun _ h0 => h0
    have hpage : ((m₁.write f fun _ => 0).write f p).pages f = p := upd_self _ _ _
    have hlow : ∀ i < 256, ((m₁.write f fun _ => 0).write f p).pte f i = 0 := fun i hi => by
      rw [Mem.pte, hpage, ← Bytes.le_zero (8 * i) 8]
      refine Bytes.le_congr fun k hk => ?_
      rw [← hp]
      dsimp only
      rw [if_neg (by omega)]
      exact congrFun (upd_self _ _ _) _
    have hhigh : ∀ i, 256 ≤ i → i < 512 → ((m₁.write f fun _ => 0).write f p).pte f i = m.pte m.kpml4 i :=
      fun i hi hi' => by
      rw [Mem.pte, hpage, Mem.pte]
      refine Bytes.le_congr fun k hk => ?_
      rw [← hp]
      dsimp only
      rw [if_pos (by omega)]
      have hk1 : (m₁.write f fun _ => 0).kpml4 = m.kpml4 := hs.kpml4
      rw [hk1]
      exact congrFun ((upd_of_ne hkf _ _).trans (hs.pages _ hkf)) _
    have hroot := h₂.root hheld hlow
    rw [upd_upd] at hroot
    refine Or.inr ⟨f, rfl, hfree, hroot, hs₂, fun v hv => ?_, hhigh⟩
    -- a page would have a frame
    rw [page_eq_none]
    by_contra hp
    have hx := hroot.page_frame (upd_self _ _ _) hv (Bool.not_eq_false _ ▸ hp)
    by_cases hxf : pteAddr (((m₁.write f fun _ => 0).write f p).entry f 4 v) = f
    · rw [hxf, upd_self] at hx
      cases hx
    · rw [upd_of_ne hxf] at hx
      have hlive := (h.live hx).1
      rw [hfree] at hlive
      cases hlive

/-! ## New pages -/

/-- Zeroed pages are mapped from `s` to `v`. -/
structure Zeroed (f s v : Nat) (O : Nat → Use τ) (m : Mem) (O' : Nat → Use τ) (m' : Mem) : Prop where
  worked : Worked f O m O' m'
  free : ∀ x, O' x = .free → O x = .free
  new : ∀ w, s ≤ w → w < v → ∃ y, O y = .free ∧ m'.page f w = some (pgsize4kb * y + 7, fun _ => 0)
  page : ∀ w < userPages, (s ≤ w → v ≤ w) → m'.page f w = m.page f w

/-- A frame is taken, filled with zeros and mapped. -/
theorem Zeroed.succ (h : Zeroed f s v O m O₁ m₁) (hs : s ≤ v) (hv : v < userPages) (hy : O y = .free)
    (hw : Worked f O₁ m₁ O' m') (hfree : ∀ x, O' x = .free → O₁ x = .free) (hpage : ∀ w < userPages, m'.page f w =
      if w = v then some (pgsize4kb * y + 7, fun _ => 0) else m₁.page f w) : Zeroed f s (v + 1) O m O' m' := by
  refine ⟨h.worked.trans hw, fun x hx => h.free x (hfree x hx), fun w hsw hwv => ?_, fun w hw' hout => ?_⟩
  · rw [hpage w (by omega)]
    split
    · exact ⟨y, hy, rfl⟩
    · exact h.new w hsw (by omega)
  · rw [hpage w hw', if_neg (by omega)]
    exact h.page w hw' (by omega)

/-- All that was mapped is unmapped again. -/
theorem Unmapped.undo {n : Nat} (hun : Unmapped f s n O₁ m₁ O' m') (hnew : ∀ w, s ≤ w → w < v → m₁.page f w ≠ none)
    (hpage : ∀ w < userPages, (s ≤ w → v ≤ w) → m₁.page f w = m.page f w)
    (habs : ∀ w, s ≤ w → w < n → m.page f w = none) (hv : v ≤ n) (hw : w < userPages) : m'.page f w = m.page f w := by
  by_cases hin : s ≤ w ∧ w < v
  · have hsw : Swept m₁ f s w := ⟨hin.1, fun u hu _ hle => hnew u hu (by omega)⟩
    rw [hun.gone w (by omega) hsw, habs w hin.1 (by omega)]
  · have hout : m₁.page f w = m.page f w := hpage w hw (by omega)
    rw [← hout]
    refine hun.page w hw fun hlt hsw => ?_
    refine hsw.2 w hsw.1 rfl (Nat.le_refl w) ?_
    rw [hout, habs w hsw.1 hlt]

theorem Zeroed.present (h : Zeroed f s v O m O' m') (hs : s ≤ w) (hw : w < v) : m'.page f w ≠ none := by
  obtain ⟨y, -, hp⟩ := h.new w hs hw
  rw [hp]
  rintro ⟨⟩

/-- No page is there between two pages. -/
def Vacant (m : Mem) (f s v : Nat) : Prop := ∀ w, s ≤ w → w < v → m.page f w = none

/-- Where a page is already there, `alloc_uvm` halts when it comes to it. -/
theorem allocUvm_any (h : Frames lower O m) (hf : O f = .node f 0 0) (hle : oldSz ≤ newSz) (htop : newSz < userTop) :
    Wp (allocUvm f oldSz newSz) (fun r m' => ∃ O',
      (r = newSz ∧ Zeroed f (pageUp oldSz) (pageUp newSz) O m O' m') ∨
      (r = 0 ∧ oldSz < newSz ∧ Worked f O m O' m' ∧
        (Vacant m f (pageUp oldSz) (pageUp newSz) → ∀ w < userPages, m'.page f w = m.page f w)))
      (fun e => e = .panic "remap" ∧ ¬ Vacant m f (pageUp oldSz) (pageUp newSz)) m := by
  unfold allocUvm
  rw [if_neg (Nat.not_lt.mpr hle), if_neg (Nat.not_le.mpr htop), roundUp_eq]
  have hup : pageUp oldSz ≤ pageUp newSz := Nat.div_le_div_right (by omega)
  refine wp_loop (fun addr m' => ∃ (O' : Nat → Use τ) (v : Nat), addr = pgsize4kb * v ∧ pageUp oldSz ≤ v ∧
      v ≤ pageUp newSz ∧ Zeroed f (pageUp oldSz) v O m O' m') (fun addr => newSz - addr) ?_ _ _ _ ?_ ?_
  · rintro addr m₁ ⟨O₁, v, rfl, hs, hlast, hz⟩
    have h₁ := hz.worked.moved.frames
    have hf₁ := hz.worked.root
    rw [wp_ite]
    refine ⟨fun haddr => ?_, fun haddr => ?_⟩
    · have hvn : v < pageUp newSz := (lt_pageUp newSz v).mpr haddr
      have hv : v < userPages := by
        simp only [pgsize4kb, userTop, userPages] at haddr htop ⊢
        omega
      have hlt : oldSz < newSz := by
        simp only [pageUp, pgsize4kb] at hs haddr
        omega
      refine Wp.seq (kalloc_spec h₁ Use.loose_held) (fun _ h0 => h0.elim) ?_
      rintro r m₂ (⟨rfl, rfl, -⟩ | ⟨y, rfl, hy, h₂, hs₂⟩)
      · -- no frame is left for the page
        refine Wp.seq (deallocUvm_spec h₁ hf₁ hlt (Nat.le_of_lt htop)) (fun _ h0 => h0.elim) ?_
        rintro _ m₃ ⟨-, O₃, hun⟩
        rw [wp_pure]
        exact ⟨O₃, Or.inr ⟨rfl, hlt, hz.worked.trans hun.worked, fun habs w hw =>
          hun.undo (fun u => hz.present) hz.page habs hlast hw⟩⟩
      · have hfy : f ≠ y := fun h0 => by rw [← h0, hf₁] at hy; cases hy
        have h₃ := h₂.write_loose (x := y) (by rw [upd_self]; exact Use.loose_held) fun _ => 0
        have hs₃ : Same (fun z => z = y) m₁ (m₂.write y fun _ => 0) :=
          hs₂.trans (same_write m₂ y _) (fun _ h0 => h0) fun _ h0 => h0
        have hpage₃ : ∀ w < userPages, (m₂.write y fun _ => 0).page f w = m₁.page f w := fun w hw =>
          h₁.page_same hf₁ (fun e k => by rw [hy]; rintro ⟨⟩) hs₃ hw
        have hold : (m₂.write y fun _ => 0).page f v = m.page f v := by
          rw [hpage₃ v hv, hz.page v hv fun _ => Nat.le_refl v]
        dsimp only
        rw [wp_bind, wp_setPage]
        refine Wp.seq (mapPages_page h₃ (by rw [upd_of_ne hfy, hf₁]) hv (upd_self _ _ _) (by decide))
          (fun e he => ⟨he.1, fun h0 => he.2 (hold.trans (h0 v hs hvn))⟩) ?_
        rintro r m₄ ⟨O₄, hw₄, hfree₄, ⟨rfl, hy₄, hpage₄, -⟩ | ⟨rfl, hy₄, hpage₄⟩⟩
        · -- no frame is left for a table
          have hpage₁ : ∀ w < userPages, m₄.page f w = m₁.page f w := fun w hw => (hpage₄ w hw).trans (hpage₃ w hw)
          rw [if_pos (by decide)]
          refine Wp.seq (deallocUvm_spec hw₄.moved.frames hw₄.root hlt (Nat.le_of_lt htop)) (fun _ h0 => h0.elim) ?_
          rintro _ m₅ ⟨-, O₅, hun⟩
          have hy₅ : O₅ y = .held := by
            rw [hun.use y fun w _ _ => (by rw [hy₄]; rintro ⟨⟩), hy₄]
          refine Wp.seq (kfree_spec hun.worked.moved.frames (by rw [hy₅]; exact Use.loose_held))
            (fun _ h0 => h0.elim) ?_
          rintro _ m₆ ⟨h₆, hs₆⟩
          rw [wp_pure]
          have hw₆ := Worked.of_take hf₁ hy hs₃ ((hw₄.trans hun.worked).give hy₅ h₆ hs₆) (by rw [upd_self]; rintro ⟨⟩)
          refine ⟨_, Or.inr ⟨rfl, hlt, hz.worked.trans hw₆, fun habs w hw => ?_⟩⟩
          rw [hun.worked.moved.frames.page_same hun.worked.root (fun e k => by rw [hy₅]; rintro ⟨⟩) hs₆ hw]
          refine hun.undo (fun u hu huv => ?_) (fun u hu hout => ?_) habs hlast hw
          · rw [hpage₁ u (by omega)]
            exact hz.present hu huv
          · rw [hpage₁ u hu]
            exact hz.page u hu hout
        · rw [if_neg (by decide), wp_pure]
          have hw₅ := Worked.of_take hf₁ hy hs₃ hw₄ (by rw [hy₄]; rintro ⟨⟩)
          have hfree₅ : ∀ x, O₄ x = .free → O₁ x = .free := fun x hx => by
            have h0 := hfree₄ x hx
            by_cases hxy : x = y
            · rw [hxy, hy]
            · rwa [upd_of_ne hxy] at h0
          refine ⟨⟨O₄, v + 1, by rw [Nat.mul_succ], by omega, by omega,
            hz.succ hs hv (hz.free y hy) hw₅ hfree₅ fun w hw => ?_⟩, ?_⟩
          · have hzero : (m₂.write y fun _ => 0).pages y = fun _ => 0 := upd_self _ _ _
            rw [hpage₄ w hw, hpage₃ w hw, hzero, show pteW ||| pteU ||| pteP = 7 from rfl]
          · simp only [pgsize4kb] at haddr ⊢
            omega
    · rw [wp_pure]
      have hvn : v = pageUp newSz := by
        have := (lt_pageUp newSz v).not.mpr haddr
        omega
      exact ⟨O₁, Or.inl ⟨rfl, hvn ▸ hz⟩⟩
  · exact ⟨O, pageUp oldSz, rfl, Nat.le_refl _, hup, Worked.refl h hf, fun _ h0 => h0,
      fun w h0 h1 => absurd h1 (Nat.not_lt.mpr h0), fun _ _ _ => rfl⟩
  · omega

theorem allocUvm_spec (h : Frames lower O m) (hf : O f = .node f 0 0) (hle : oldSz ≤ newSz) (htop : newSz < userTop)
    (habs : ∀ v, pageUp oldSz ≤ v → v < pageUp newSz → m.page f v = none) :
    Wp (allocUvm f oldSz newSz) (fun r m' => ∃ O',
      (r = newSz ∧ Zeroed f (pageUp oldSz) (pageUp newSz) O m O' m') ∨
      (r = 0 ∧ oldSz < newSz ∧ Worked f O m O' m' ∧ ∀ w < userPages, m'.page f w = m.page f w)) (fun _ => False) m := by
  refine (allocUvm_any h hf hle htop).mono ?_ fun _ h0 => h0.2 habs
  rintro r m' ⟨O', ⟨hr, hz⟩ | ⟨hr, hlt, hw, hpage⟩⟩
  · exact ⟨O', Or.inl ⟨hr, hz⟩⟩
  · exact ⟨O', Or.inr ⟨hr, hlt, hw, hpage habs⟩⟩

end Xv6.Vm
