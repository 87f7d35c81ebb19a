import Xv6.Vm.Lemmas.Copy

/-!
# The kernel's half

The upper 256 entries of every space are those of the kernel's table. What they lead to are tables of the kernel, and no
entry at the end of such a way is for the user, so an address of the upper half is never taken for one of the user.
-/

namespace Xv6.Vm

open Xv6.Lib

variable {τ : Type} {O O' : Nat → Use τ} {m m' : Mem} {f g v n pte t va : Nat}

/-- An entry of a table that has `n` levels below it leads to tables of the kernel only, and to no page for the user. -/
def Guarded (O : Nat → Use τ) (m : Mem) : Nat → Nat → Prop
  | 0, pte => present pte = true → user pte = false
  | n + 1, pte => present pte = true →
    if large pte then user pte = false
    else O (pteAddr pte) = .kernel ∧ ∀ i < 512, Guarded O m n (m.pte (pteAddr pte) i)

structure Kern (O : Nat → Use τ) (m : Mem) : Prop where
  root : O m.kpml4 = .kernel
  upper : ∀ i, 256 ≤ i → i < 512 → Guarded O m 3 (m.pte m.kpml4 i)
  half : ∀ f, O f = .node f 0 0 → ∀ i, 256 ≤ i → i < 512 → m.pte f i = m.pte m.kpml4 i

/-- No page of the upper half is for the user. -/
def Sealed (m : Mem) (f : Nat) : Prop :=
  ∀ v, userPages ≤ v → v < 512 ^ 4 → ∀ a, m.translate f v = some a → user a.2 = false

/-- The frames of the kernel stay as they are. -/
def KernelSame (O : Nat → Use τ) (m : Mem) (O' : Nat → Use τ) (m' : Mem) : Prop :=
  ∀ x, O x = .kernel → O' x = .kernel ∧ m'.pages x = m.pages x

theorem Guarded.congr (hsame : KernelSame O m O' m') (h : Guarded O m n pte) : Guarded O' m' n pte := by
  induction n generalizing pte with
  | zero => exact h
  | succ n ih =>
      intro hp
      have h0 := h hp
      split at h0
      · rename_i hl
        rw [if_pos hl]
        exact h0
      · rename_i hl
        rw [if_neg hl]
        obtain ⟨hk, hpages⟩ := hsame _ h0.1
        refine ⟨hk, fun i hi => ?_⟩
        rw [Mem.pte, hpages]
        exact ih (h0.2 i hi)

theorem Guarded.lookup {a : Nat × Nat} (h : Guarded O m n (m.pte t (v / 512 ^ n % 512)))
    (ha : m.lookup v n t = some a) :
    user a.2 = false := by
  induction n generalizing t with
  | zero =>
      unfold Mem.lookup at ha
      rw [Nat.pow_zero, Nat.div_one] at h
      split at ha
      · rename_i hp
        obtain rfl := Option.some.inj ha
        exact h hp
      · cases ha
  | succ n ih =>
      unfold Mem.lookup at ha
      dsimp only at ha
      split at ha
      · rename_i hp
        have h0 := h hp
        split at ha
        · rename_i hl
          rw [if_pos hl] at h0
          obtain rfl := Option.some.inj ha
          exact h0
        · rename_i hl
          rw [if_neg hl] at h0
          exact ih (h0.2 _ (Nat.mod_lt _ (by decide))) ha
      · cases ha

theorem Kern.sealed (h : Kern O m) (hf : O f = .node f 0 0) : Sealed m f := by
  intro v hv hlt a ha
  have hi : 256 ≤ v / 512 ^ 3 % 512 := by
    simp only [userPages] at hv
    omega
  refine Guarded.lookup (O := O) ?_ ha
  rw [h.half f hf _ hi (Nat.mod_lt _ (by decide))]
  exact h.upper _ hi (Nat.mod_lt _ (by decide))

/-- The kernel's half stays when its frames do, for the spaces whose half is not changed. -/
theorem Kern.congr (h : Kern O m) (hsame : KernelSame O m O' m') (hk : m'.kpml4 = m.kpml4)
    (hhalf : ∀ f, O' f = .node f 0 0 → ∀ i, 256 ≤ i → i < 512 → m'.pte f i = m.pte m.kpml4 i) : Kern O' m' := by
  obtain ⟨hroot, hpages⟩ := hsame _ h.root
  have hpte : ∀ i, m'.pte m'.kpml4 i = m.pte m.kpml4 i := fun i => by rw [hk, Mem.pte, hpages, Mem.pte]
  refine ⟨by rw [hk, hroot], fun i hi hi' => ?_, fun f hf i hi hi' => ?_⟩
  · rw [hpte]
    exact (h.upper i hi hi').congr hsame
  · rw [hpte]
    exact hhalf f hf i hi hi'

theorem Moved.kernelSame (h : Moved lower f O m O' m') : KernelSame O m O' m' := fun x hx => by
  have hnot : ¬ Mine O f x := by
    rintro (h0 | h0 | ⟨e, k, h0⟩) <;> rw [hx] at h0 <;> cases h0
  exact ⟨by rw [h.other x hnot, hx], h.same.pages x hnot⟩

/-- A function that works on one space keeps the upper half of the others. -/
theorem Kern.moved (h : Kern O m) (hm : Moved lower f O m O' m') (hroot : O' f = .node f 0 0 → O f = .node f 0 0)
    (hup : O' f = .node f 0 0 → ∀ i, 256 ≤ i → i < 512 → m'.pte f i = m.pte f i) : Kern O' m' := by
  refine h.congr hm.kernelSame hm.same.kpml4 fun g hg i hi hi' => ?_
  by_cases hgf : g = f
  · subst hgf
    rw [hup hg i hi hi', h.half g (hroot hg) i hi hi']
  · have hnot : ¬ Mine O f g := fun h0 => by
      rcases hm.mine g h0 with (h1 | h1 | ⟨e, k, h1⟩) | h1 <;> rw [hg] at h1 <;> cases h1
      exact hgf rfl
    have hg' : O g = .node g 0 0 := by rw [← hm.other g hnot, hg]
    rw [Mem.pte, hm.same.pages g hnot]
    exact h.half g hg' i hi hi'

theorem Kern.worked (h : Kern O m) (hf : O f = .node f 0 0) (hw : Worked f O m O' m') : Kern O' m' :=
  h.moved hw.moved (fun _ => hf) fun _ => hw.upper

theorem Kern.gone {sz : Nat} (h : Kern O m) (hm : Frames lower O m) (hg : Gone f sz O m O' m')
    (hf : O f = .node f 0 0) : Kern O' m' := by
  have hnot : O' f ≠ .node f 0 0 := fun h0 => by
    rcases hg.node hm hf with h1 | h1 <;> rw [h0] at h1 <;> cases h1
  exact h.moved hg.moved (fun h0 => absurd h0 hnot) fun h0 => absurd h0 hnot

/-- A new space has the kernel's half. -/
theorem Kern.built {new : Option Nat} (h : Kern O m) (hb : Built new O m O' m') (hheld : ∀ x, O x ≠ .held) :
    Kern O' m' := by
  have hold : ∀ x, O x ≠ .free → O' x = O x ∧ m'.pages x = m.pages x := fun x hx =>
    ⟨hb.spared.use x hx (hheld x), hb.spared.same.pages x fun h0 => h0.elim hx (hheld x)⟩
  refine h.congr (fun x hx => ?_) hb.spared.same.kpml4 fun g hg i hi hi' => ?_
  · obtain ⟨h1, h2⟩ := hold x (by rw [hx]; rintro ⟨⟩)
    exact ⟨h1.trans hx, h2⟩
  · by_cases h0 : O g = .free
    · rcases hb.part g h0 with h1 | h1 | ⟨f, e, k, hf, h1⟩ <;> rw [hg] at h1 <;> cases h1
      exact hb.upper g hf i hi hi'
    · obtain ⟨h1, h2⟩ := hold g h0
      rw [Mem.pte, h2]
      exact h.half g (h1.symm.trans hg) i hi hi'

end Xv6.Vm
