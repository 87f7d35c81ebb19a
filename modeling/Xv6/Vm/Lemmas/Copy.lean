import Xv6.Vm.Lemmas.Free

/-!
# Copying a space

`copy_uvm` makes a space with a copy of each page. It works on frames that were free, so the space that is copied and
all others stay as they are.
-/

namespace Xv6.Vm

open Xv6.Lib

variable {τ : Type} {O O₁ O' : Nat → Use τ} {m m₁ m' : Mem} {f g x y e k v w sz : Nat}

/-! ## Other spaces -/

theorem Moved.root_other (h : Moved lower g O m O' m') (hf : O f = .node f 0 0) (hfg : f ≠ g) : O' f = .node f 0 0 := by
  rw [h.other f, hf]
  rintro (h0 | h0 | ⟨e, k, h0⟩) <;> rw [hf] at h0 <;> cases h0
  exact hfg rfl

/-- The pages of one space do not change when a function works on another one. -/
theorem Moved.page_other (h : Moved lower g O m O' m') (hm : Frames lower O m) (hf : O f = .node f 0 0) (hfg : f ≠ g)
    (hw : w < userPages) : m'.page f w = m.page f w := by
  have hin := lower_in.mpr hw
  have hnot : ∀ {z e k}, O z = .node f e k → ¬ Mine O g z := by
    rintro z e k hz (h0 | h0 | ⟨e', k', h0⟩) <;> rw [hz] at h0 <;> cases h0
    exact hfg rfl
  refine page_congr (hm.entry_congr hf (fun z e k hz _ j => ?_) hin) fun z hz => ?_
  · rw [Mem.pte, h.same.pages z (hnot hz), Mem.pte]
  · exact h.same.pages z (hnot ((hm.tree hf hin (Nat.le_refl 4)).mp hz))

/-! ## The copy -/

/-- The pages from 1 to `v` of the space `f` are copied to the space `g`. -/
structure Copied (f g v : Nat) (O : Nat → Use τ) (m : Mem) (O' : Nat → Use τ) (m' : Mem) : Prop where
  worked : Worked g O m O' m'
  free : ∀ x, O' x = .free → O x = .free
  new : ∀ w, 1 ≤ w → w < v → ∀ a b, m.page f w = some (a, b) →
    ∃ y, O y = .free ∧ m'.page g w = some (pgsize4kb * y + pteFlags a, b)
  page : ∀ w < userPages, (1 ≤ w → v ≤ w) → m'.page g w = m.page g w

theorem Copied.succ {a : Nat} {b : Bytes} (h : Copied f g v O m O₁ m₁) (hv : v < userPages) (h1 : 1 ≤ v)
    (hy : O y = .free) (hw : Worked g O₁ m₁ O' m') (hfree : ∀ x, O' x = .free → O₁ x = .free)
    (hf : m.page f v = some (a, b))
    (hpage : ∀ w < userPages, m'.page g w = if w = v then some (pgsize4kb * y + pteFlags a, b) else m₁.page g w) :
    Copied f g (v + 1) O m O' m' := by
  refine ⟨h.worked.trans hw, fun x hx => h.free x (hfree x hx), fun w h1w hwv a' b' hp => ?_, fun w hw' hout => ?_⟩
  · rw [hpage w (by omega)]
    split
    · rename_i hwv'
      subst hwv'
      obtain ⟨rfl, rfl⟩ := Prod.mk.inj (Option.some.inj (hf.symm.trans hp))
      exact ⟨y, hy, rfl⟩
    · exact h.new w h1w (by omega) a' b' hp
  · rw [hpage w hw', if_neg (by omega)]
    exact h.page w hw' (by omega)

theorem flags_present {a : Nat} (h : present a = true) : pteFlags a ||| pteP = pteFlags a := by
  refine Nat.eq_of_testBit_eq fun j => ?_
  rw [Nat.testBit_or]
  cases j with
  | zero =>
      have h0 : (pteFlags a).testBit 0 = true := by
        rw [← h, present, pteFlags, show pgsize4kb = 2 ^ 12 from rfl, Nat.testBit_mod_two_pow]
        rfl
      rw [h0, Bool.true_or]
  | succ j =>
      have h0 : pteP.testBit (j + 1) = false := by
        rw [Nat.testBit_succ]
        exact Nat.zero_testBit j
      rw [h0, Bool.or_false]

/-- Some page below the size is not there. -/
def Missing (m : Mem) (f sz : Nat) : Prop := ∃ v, 1 ≤ v ∧ v < pageUp sz ∧ m.page f v = none

/-- The loop of `copy_uvm`: the address at which memory ran out, if it did. -/
theorem copyPages_spec (h : Frames lower O m) (hf : O f = .node f 0 0) (hg : O g = .node g 0 0) (hfg : f ≠ g)
    (htop : sz ≤ userTop) (hempty : ∀ v < userPages, m.page g v = none) :
    Wp (copyPages f g sz) (fun r m' => ∃ (O' : Nat → Use τ) (v : Nat), Copied f g v O m O' m' ∧
      ((r = none ∧ v = max 1 (pageUp sz)) ∨ (r = some (pgsize4kb * v) ∧ v < pageUp sz)))
      (fun e => e = .panic "copy_uvm: pte should exist" ∧ Missing m f sz) m := by
  unfold copyPages
  refine wp_loop (fun addr m' => ∃ (O' : Nat → Use τ) (v : Nat), addr = pgsize4kb * v ∧ 1 ≤ v ∧ v ≤ max 1 (pageUp sz) ∧
      Copied f g v O m O' m') (fun addr => sz - addr) ?_ _ _ _ ?_ ?_
  · rintro addr m₁ ⟨O₁, v, rfl, h1, hlast, hc⟩
    have h₁ := hc.worked.moved.frames
    have hf₁ := hc.worked.moved.root_other hf hfg
    have hg₁ := hc.worked.root
    rw [wp_ite]
    refine ⟨fun haddr => ?_, fun haddr => ?_⟩
    · have hvn : v < pageUp sz := (lt_pageUp sz v).mpr haddr
      have hv : v < userPages := by
        simp only [pgsize4kb, userTop, userPages] at haddr htop ⊢
        omega
      have hvpn : vpn (pgsize4kb * v) = v := by
        rw [vpn, Nat.mul_div_cancel_left v (by decide)]
        exact Nat.mod_eq_of_lt (Nat.lt_trans hv (by decide))
      have hsame : m₁.page f v = m.page f v := hc.worked.moved.page_other h hf hfg hv
      refine Wp.seq (walkPml4_find h₁ hf₁ hvpn (lower_in.mpr hv) (h₁.clear rfl hf₁ (lower_in.mpr hv)))
        (fun _ h0 => h0.elim) ?_
      rintro r m₂ ⟨rfl, ⟨rfl, habs⟩ | ⟨t, rfl, ht, hp⟩⟩
      · exact ⟨rfl, v, h1, hvn, hsame.symm.trans (page_of_absent habs)⟩
      · have hpte : m₂.pte t (v % 512) = m₂.entry f 4 v := by
          rw [← entry_child (h₁.place ht) (Nat.mod_lt v (by decide)), Nat.div_add_mod]
        have hpv := (hsame.symm.trans (page_of_present hp))
        dsimp only
        rw [wp_bind, wp_get, hpte, wp_bind, wp_panicIf]
        refine ⟨fun h0 => absurd hp (by rw [h0]; decide), fun _ => ?_⟩
        refine Wp.seq (kalloc_spec h₁ Use.loose_held) (fun _ h0 => h0.elim) ?_
        rintro r m₃ (⟨rfl, rfl, -⟩ | ⟨y, rfl, hy, h₃, hs₃⟩)
        · exact ⟨O₁, v, hc, Or.inr ⟨rfl, hvn⟩⟩
        · have hgy : g ≠ y := fun h0 => by rw [← h0, hg₁] at hy; cases hy
          have hxy : pteAddr (m₂.entry f 4 v) ≠ y := fun h0 => by
            have hx := h₁.page_frame hf₁ hv hp
            rw [h0, hy] at hx
            cases hx
          dsimp only
          rw [wp_bind, wp_get, wp_bind, wp_setPage, hs₃.pages _ hxy]
          have h₄ := h₃.write_loose (x := y) (by rw [upd_self]; exact Use.loose_held)
            (m₂.pages (pteAddr (m₂.entry f 4 v)))
          have hs₄ : Same (fun z => z = y) m₂ (m₃.write y (m₂.pages (pteAddr (m₂.entry f 4 v)))) :=
            hs₃.trans (same_write m₃ y _) (fun _ h0 => h0) fun _ h0 => h0
          have hpage₄ : ∀ w < userPages,
              (m₃.write y (m₂.pages (pteAddr (m₂.entry f 4 v)))).page g w = m₂.page g w := fun w hw =>
            h₁.page_same hg₁ (fun e k => by rw [hy]; rintro ⟨⟩) hs₄ hw
          have habs₄ : (m₃.write y (m₂.pages (pteAddr (m₂.entry f 4 v)))).page g v = none := by
            rw [hpage₄ v hv, hc.page v hv fun _ => Nat.le_refl v, hempty v hv]
          refine Wp.seq (mapPages_page h₄ (by rw [upd_of_ne hgy, hg₁]) hv (upd_self _ _ _) (pteFlags_lt _))
            (fun _ h0 => (h0.2 habs₄).elim) ?_
          rintro r m₅ ⟨O₅, hw₅, hfree₅, hr⟩
          have hfree₆ : ∀ x, O₅ x = .free → O₁ x = .free := fun x hx => by
            have h0 := hfree₅ x hx
            by_cases hxy : x = y
            · rw [hxy, hy]
            · rwa [upd_of_ne hxy] at h0
          rcases hr with ⟨rfl, hy₅, hpage₅, -⟩ | ⟨rfl, hy₅, hpage₅⟩
          · -- no frame is left for a table
            rw [if_pos (by decide)]
            refine Wp.seq (kfree_spec hw₅.moved.frames (by rw [hy₅]; exact Use.loose_held)) (fun _ h0 => h0.elim) ?_
            rintro _ m₆ ⟨h₆, hs₆⟩
            rw [wp_pure]
            have hw₆ := Worked.of_take hg₁ hy hs₄ (hw₅.give hy₅ h₆ hs₆) (by rw [upd_self]; rintro ⟨⟩)
            have hpage₆ : ∀ w < userPages, m₆.page g w = m₂.page g w := fun w hw => by
              rw [hw₅.moved.frames.page_same hw₅.root (fun e k => by rw [hy₅]; rintro ⟨⟩) hs₆ hw,
                hpage₅ w hw, hpage₄ w hw]
            refine ⟨_, v, ⟨hc.worked.trans hw₆, fun x hx => ?_, fun w h1w hwv a b hp => ?_, fun w hw hout => ?_⟩,
              Or.inr ⟨rfl, hvn⟩⟩
            · by_cases hxy : x = y
              · rw [hxy]
                exact hc.free y hy
              · rw [upd_of_ne hxy] at hx
                exact hc.free x (hfree₆ x hx)
            · rw [hpage₆ w (by omega)]
              exact hc.new w h1w hwv a b hp
            · rw [hpage₆ w hw]
              exact hc.page w hw hout
          · rw [if_neg (by decide), wp_pure]
            have hw₆ := Worked.of_take hg₁ hy hs₄ hw₅ (by rw [hy₅]; rintro ⟨⟩)
            refine ⟨⟨O₅, v + 1, by rw [Nat.mul_succ], by omega, by omega,
              hc.succ hv h1 (hc.free y hy) hw₆ hfree₆ hpv fun w hw => ?_⟩, ?_⟩
            · have hcont : (m₃.write y (m₂.pages (pteAddr (m₂.entry f 4 v)))).pages y =
                m₂.pages (pteAddr (m₂.entry f 4 v)) :=
                upd_self _ _ _
              rw [hpage₅ w hw, hpage₄ w hw, hcont, flags_present hp]
            · simp only [pgsize4kb] at haddr ⊢
              omega
    · rw [wp_pure]
      have hvn := (lt_pageUp sz v).not.mpr haddr
      exact ⟨O₁, v, hc, Or.inl ⟨rfl, by omega⟩⟩
  · refine ⟨O, 1, rfl, Nat.le_refl 1, by omega, Worked.refl h hg, fun _ h0 => h0,
      fun w h0 h1 => absurd h1 (Nat.not_lt.mpr h0), fun _ _ _ => rfl⟩
  · omega

/-- The effect of a function on what it was not given: only frames that were free or held have another use or other
contents. -/
structure Spared (O : Nat → Use τ) (m : Mem) (O' : Nat → Use τ) (m' : Mem) : Prop where
  frames : Frames lower O' m'
  same : Same (fun x => O x = .free ∨ O x = .held) m m'
  use : ∀ x, O x ≠ .free → O x ≠ .held → O' x = O x
  held : ∀ x, O' x = .held → O x = .held

/-- A space that is made from a free frame takes nothing from the others. -/
theorem Moved.spared (hg : O g = .free) (h : Frames lower O m) (hs : Same (fun x => x = g) m m₁)
    (hm : Moved lower g (upd O g (.node g 0 0)) m₁ O' m') (hheld : ∀ x, O' x = .held → O x = .held) :
    Spared O m O' m' := by
  have hmine : ∀ x, Mine (upd O g (.node g 0 0)) g x → O x = .free ∨ O x = .held := fun x hx => by
    by_cases hxg : x = g
    · exact Or.inl (by rw [hxg, hg])
    · rw [Mine, upd_of_ne hxg] at hx
      rcases hx with h0 | h0 | ⟨e, k, h0⟩
      · exact Or.inl h0
      · exact Or.inr h0
      · have hroot := (h.live h0).1
        rw [hg] at hroot
        cases hroot
  refine ⟨hm.frames, hs.trans hm.same (fun x hx => by rw [hx, hg]; exact Or.inl rfl) hmine, fun x h0 h1 => ?_, hheld⟩
  have hxg : x ≠ g := fun h2 => h0 (by rw [h2, hg])
  rw [hm.other x fun h2 => (hmine x h2).elim h0 h1, upd_of_ne hxg]

/-- The frames of a space that goes were free before it was made. -/
theorem Spared.gone (hg : O g = .free) (h : Frames lower O m) (hs : Spared O m O₁ m₁) (hgone : Gone g sz O₁ m₁ O' m') :
    Spared O m O' m' := by
  have hnode : ∀ x e k, O₁ x = .node g e k → O x = .free ∨ O x = .held := fun x e k hx => by
    by_contra h0
    rw [hs.use x (fun h1 => h0 (Or.inl h1)) (fun h1 => h0 (Or.inr h1))] at hx
    have hroot := (h.live hx).1
    rw [hg] at hroot
    cases hroot
  have hmine : ∀ x, Mine O₁ g x → O x = .free ∨ O x = .held := fun x hx => by
    rcases hx with h0 | h0 | ⟨e, k, h0⟩
    · by_contra h1
      rw [hs.use x (fun h2 => h1 (Or.inl h2)) (fun h2 => h1 (Or.inr h2))] at h0
      exact h1 (Or.inl h0)
    · exact Or.inr (hs.held x h0)
    · exact hnode x e k h0
  refine ⟨hgone.moved.frames, hs.same.trans hgone.moved.same (fun _ h0 => h0) hmine, fun x h0 h1 => ?_, fun x hx => ?_⟩
  · rw [hgone.moved.other x fun h2 => (hmine x h2).elim h0 h1, hs.use x h0 h1]
  · by_cases hn : ∃ e k, O₁ x = .node g e k
    · obtain ⟨e, k, hn⟩ := hn
      rcases hgone.node hs.frames hn with h0 | h0 <;> rw [hx] at h0 <;> cases h0
    · exact hs.held x (by rw [← hgone.use x fun e k h0 => hn ⟨e, k, h0⟩, hx])

/-- The pages of the spaces that were there before. -/
theorem Spared.page (h : Spared O m O' m') (hm : Frames lower O m) (hf : O f = .node f 0 0) (hw : w < userPages) :
    m'.page f w = m.page f w := by
  have hnot : ∀ {z e k}, O z = .node f e k → ¬ (O z = .free ∨ O z = .held) := by
    rintro z e k hz (h0 | h0) <;> rw [hz] at h0 <;> cases h0
  have hin := lower_in.mpr hw
  refine page_congr (hm.entry_congr hf (fun z e k hz _ j => ?_) hin) fun z hz => ?_
  · rw [Mem.pte, h.same.pages z (hnot hz), Mem.pte]
  · exact h.same.pages z (hnot ((hm.tree hf hin (Nat.le_refl 4)).mp hz))

/-- A space `g` was made from free frames, if there is one: what was free is free, lost or a part of it. -/
structure Built (g : Option Nat) (O : Nat → Use τ) (m : Mem) (O' : Nat → Use τ) (m' : Mem) : Prop where
  spared : Spared O m O' m'
  part : ∀ x, O x = .free → O' x = .free ∨ O' x = .lost ∨ ∃ f e k, g = some f ∧ O' x = .node f e k
  root : ∀ f, g = some f → O f = .free ∧ O' f = .node f 0 0
  upper : ∀ f, g = some f → ∀ i, 256 ≤ i → i < 512 → m'.pte f i = m.pte m.kpml4 i

theorem Built.refl (h : Frames lower O m) : Built none O m O m :=
  ⟨⟨h, Same.refl _ _, fun _ _ _ => rfl, fun _ h0 => h0⟩, fun _ hx => Or.inl hx, fun _ h0 => (by cases h0),
    fun _ h0 => by cases h0⟩

theorem Built.moved (h : Frames lower O m) (hg : O g = .free) (hs : Same (fun x => x = g) m m₁)
    (hm : Moved lower g (upd O g (.node g 0 0)) m₁ O' m') (hroot : O' g = .node g 0 0)
    (hupper : ∀ i, 256 ≤ i → i < 512 → m'.pte g i = m.pte m.kpml4 i) (hheld : ∀ x, O' x = .held → O x = .held) :
    Built (some g) O m O' m' := by
  refine ⟨hm.spared hg h hs hheld, fun x hx => ?_, fun f h0 => ?_, fun f h0 => Option.some.inj h0 ▸ hupper⟩
  · have hmine : Mine (upd O g (.node g 0 0)) g x := by
      by_cases hxg : x = g
      · rw [hxg]
        exact Or.inr (Or.inr ⟨0, 0, upd_self _ _ _⟩)
      · exact Or.inl (by rw [upd_of_ne hxg, hx])
    rcases hm.mine x hmine with (h0 | h0 | ⟨e, k, h0⟩) | h0
    · exact Or.inl h0
    · rw [hheld x h0] at hx
      cases hx
    · exact Or.inr (Or.inr ⟨g, e, k, rfl, h0⟩)
    · exact Or.inr (Or.inl h0)
  · obtain rfl := Option.some.inj h0
    exact ⟨hg, hroot⟩

theorem Built.worked (h : Frames lower O m) (hg : O g = .free) (hs : Same (fun x => x = g) m m₁)
    (hupper : ∀ i, 256 ≤ i → i < 512 → m₁.pte g i = m.pte m.kpml4 i) (hw : Worked g (upd O g (.node g 0 0)) m₁ O' m') :
    Built (some g) O m O' m' := by
  refine .moved h hg hs hw.moved hw.root (fun i hi hi' => (hw.upper i hi hi').trans (hupper i hi hi')) fun x hx => ?_
  have h0 := hw.held x hx
  by_cases hxg : x = g
  · rw [hxg, upd_self] at h0
    cases h0
  · rwa [upd_of_ne hxg] at h0

theorem Built.gone (h : Frames lower O m) (hb : Built (some g) O m O₁ m₁) (hgone : Gone g sz O₁ m₁ O' m') :
    Built none O m O' m' := by
  obtain ⟨hg, -⟩ := hb.root g rfl
  refine ⟨hb.spared.gone hg h hgone, fun x hx => ?_, fun _ h0 => (by cases h0), fun _ h0 => by cases h0⟩
  rcases hb.part x hx with h0 | h0 | ⟨f, e, k, hf, h0⟩
  · exact Or.inl (by rw [hgone.use x fun e k => by rw [h0]; rintro ⟨⟩, h0])
  · exact Or.inr (Or.inl (by rw [hgone.use x fun e k => by rw [h0]; rintro ⟨⟩, h0]))
  · obtain rfl := Option.some.inj hf
    rcases hgone.node hb.spared.frames h0 with h1 | h1
    · exact Or.inl h1
    · exact Or.inr (Or.inl h1)

/-- The copy is a new space with the pages from 1 on. Without memory for it there is none, and frames that were free may
be lost. -/
theorem copyUvm_spec (h : Frames lower O m) (hk : O m.kpml4 = .kernel) (hf : O f = .node f 0 0) (htop : sz ≤ userTop) :
    Wp (copyUvm f sz) (fun r m' => ∃ O', Built r O m O' m' ∧ ∀ g, r = some g →
      (∀ x, O' x = .free → O x = .free) ∧ (∀ x, O' x = .lost → O x = .lost) ∧
      (∀ v, 1 ≤ v → v < pageUp sz → ∀ a b, m.page f v = some (a, b) →
        ∃ y, O y = .free ∧ m'.page g v = some (pgsize4kb * y + pteFlags a, b)) ∧
      (∀ v < userPages, ¬ (1 ≤ v ∧ v < pageUp sz) → m'.page g v = none))
      (fun e => e = .panic "copy_uvm: pte should exist" ∧ Missing m f sz) m := by
  unfold copyUvm
  refine Wp.seq (setupUvm_spec h hk) (fun _ h0 => h0.elim) ?_
  rintro r m₁ (⟨rfl, rfl, hnone⟩ | ⟨g, rfl, hg, h₁, hs₁, hempty, hupper⟩)
  · rw [wp_pure]
    exact ⟨O, .refl h, fun _ h0 => by cases h0⟩
  · have hfg : f ≠ g := fun h0 => by rw [h0, hg] at hf; cases hf
    have hpage₁ : ∀ v < userPages, m₁.page f v = m.page f v := fun v hv =>
      h.page_same hf (fun e k => by rw [hg]; rintro ⟨⟩) hs₁ hv
    have hf₁ : upd O g (.node g 0 0) f = .node f 0 0 := by rw [upd_of_ne hfg, hf]
    have hup : pageUp sz ≤ userPages := by
      simp only [pageUp, pgsize4kb, userTop, userPages] at htop ⊢
      omega
    refine Wp.seq (copyPages_spec h₁ hf₁ (upd_self _ _ _) hfg htop hempty) ?_ ?_
    · rintro e ⟨rfl, v, h1, hv, h0⟩
      exact ⟨rfl, v, h1, hv, (hpage₁ v (by omega)).symm.trans h0⟩
    rintro r m₂ ⟨O₂, v, hc, ⟨rfl, hv⟩ | ⟨rfl, hv⟩⟩
    · rw [wp_pure]
      have hold : ∀ x, upd O g (.node g 0 0) x = .free → O x = .free := fun x hx => by
        by_cases hxg : x = g
        · rw [hxg, hg]
        · rwa [upd_of_ne hxg] at hx
      refine ⟨O₂, .worked h hg hs₁ hupper hc.worked, fun g' h0 => ?_⟩
      obtain rfl := Option.some.inj h0
      refine ⟨fun x hx => hold x (hc.free x hx), fun x hx => ?_, fun w h1 hw a b hp => ?_, fun w hw hout => ?_⟩
      · have h0 := hc.worked.lost x hx
        by_cases hxg : x = g
        · rw [hxg, upd_self] at h0
          cases h0
        · rwa [upd_of_ne hxg] at h0
      · obtain ⟨y, hy, hp'⟩ := hc.new w h1 (by omega) a b (by rw [hpage₁ w (by omega), hp])
        exact ⟨y, hold y hy, hp'⟩
      · rw [hc.page w hw (by omega), hempty w hw]
    · have hb := Built.worked h hg hs₁ hupper hc.worked
      have hvtop : pgsize4kb * v ≤ userTop := by
        simp only [pageUp, pgsize4kb, userTop] at htop hv ⊢
        omega
      refine Wp.seq (freeVm_spec hc.worked.moved.frames hc.worked.root hvtop) (fun _ h0 => h0.elim) ?_
      rintro _ m₃ ⟨O₃, hgone⟩
      rw [wp_pure]
      exact ⟨O₃, hb.gone h hgone, fun _ h0 => by cases h0⟩

end Xv6.Vm
