import Xv6.Vm.Lemmas.User

/-!
# The image of a program

While `exec` builds an address space its pages are those from page 1 up to some page, all for the user, and their bytes
are those of a memory image that is zero where nothing was stored.
-/

namespace Xv6.Vm

open Xv6.Lib

variable {τ : Type} {O O' : Nat → Use τ} {m m' : Mem} {f n n' v a oldSz newSz : Nat} {b : Bytes} {l : List UInt8}

/-- The pages of the space `f` are those from 1 to `n`, and hold the bytes `b`. -/
structure Image (f n : Nat) (b : Bytes) (m : Mem) : Prop where
  entry : ∀ v, 1 ≤ v → v < n → ∃ y, (m.page f v).map Prod.fst = some (pgsize4kb * y + 7)
  absent : ∀ v < userPages, (1 ≤ v → n ≤ v) → m.page f v = none
  byte : ∀ a, pgsize4kb ≤ a → a < pgsize4kb * n → m.byte f a = some (b a)
  zero : ∀ a, pgsize4kb * n ≤ a → b a = 0

theorem Image.empty (h : ∀ v < userPages, m.page f v = none) : Image f 1 (fun _ => 0) m :=
  ⟨fun _ h1 h2 => absurd h1 (Nat.not_le.mpr h2), fun v hv _ => h v hv, fun _ h1 h2 => absurd h1 (Nat.not_le.mpr h2),
    fun _ _ => rfl⟩

theorem Image.present (h : Image f n b m) (h1 : 1 ≤ v) (hv : v < n) : m.page f v ≠ none := by
  obtain ⟨y, hy⟩ := h.entry v h1 hv
  intro h0
  rw [h0] at hy
  cases hy

theorem Image.accessible (h : Image f n b m) (h1 : 1 ≤ v) (hv : v < n) : Accessible m f v := by
  obtain ⟨y, hy⟩ := h.entry v h1 hv
  exact ⟨_, hy, (user_add y (by decide)).trans (by decide)⟩

/-- The pages behind the last one are added. -/
theorem Image.zeroed (h : Image f n b m) (hz : Zeroed f n n' O m O' m') (hn : n ≤ n') (h1 : 1 ≤ n)
    (htop : n' ≤ userPages) :
    Image f n' b m' := by
  have hold : ∀ v < n, m'.page f v = m.page f v := fun v hv =>
    hz.page v (by omega) fun h0 => absurd h0 (Nat.not_le.mpr hv)
  refine ⟨fun v hv hv' => ?_, fun v hv hout => ?_, fun a ha ha' => ?_, fun a ha => h.zero a ?_⟩
  · by_cases hvn : v < n
    · rw [hold v hvn]
      exact h.entry v hv hvn
    · obtain ⟨y, -, hy⟩ := hz.new v (Nat.not_lt.mp hvn) hv'
      exact ⟨y, by rw [hy]; rfl⟩
  · rw [hz.page v hv fun h0 => hout (Nat.le_trans h1 h0)]
    exact h.absent v hv fun h0 => Nat.le_trans hn (hout h0)
  · by_cases han : a < pgsize4kb * n
    · rw [Mem.byte, hold _ (Nat.div_lt_of_lt_mul han)]
      exact h.byte a ha han
    · have hpage : n ≤ a / pgsize4kb := by
        simp only [pgsize4kb] at han ⊢
        omega
      obtain ⟨y, -, hy⟩ := hz.new _ hpage (Nat.div_lt_of_lt_mul ha')
      rw [Mem.byte, hy, h.zero a (Nat.not_lt.mp han)]
      rfl
  · exact Nat.le_trans (Nat.mul_le_mul_left _ hn) ha

/-- Some bytes are stored. -/
theorem Image.wrote (h : Image f n b m) (hw : Wrote f a l O m m') (htop : n ≤ userPages)
    (hend : a + l.length ≤ pgsize4kb * n) :
    Image f n (b.put a l) m' := by
  have hnone : ∀ v < userPages, m.page f v = none → m'.page f v = none := fun v hv h0 => by
    have := hw.entry v hv
    rw [h0, Option.map_none, Option.map_eq_none_iff] at this
    exact this
  refine ⟨fun v hv hv' => ?_, fun v hv hout => hnone v hv (h.absent v hv hout), fun c hc hc' => ?_, fun c hc => ?_⟩
  · rw [hw.entry v (Nat.lt_of_lt_of_le hv' htop)]
    exact h.entry v hv hv'
  · refine hw.byte_put ?_ (h.byte c hc hc')
    rw [userTop_eq]
    exact Nat.lt_of_lt_of_le hc' (Nat.mul_le_mul_left _ htop)
  · rw [Bytes.put_outside (Or.inr (Nat.le_trans hend hc))]
    exact h.zero c hc

/-- `alloc_uvm` for an image: the size is the larger one, unless there is no memory or no room. -/
theorem Image.allocUvm (h : Image f (pageUp oldSz) b m) (hm : Frames lower O m) (hf : O f = .node f 0 0)
    (hold : pgsize4kb ≤ oldSz) (hlt : newSz < oldSz → oldSz < userTop) :
    Wp (allocUvm f oldSz newSz) (fun r m' => ∃ O', Worked f O m O' m' ∧
      ((r = max oldSz newSz ∧ r < userTop ∧ (∀ x, O' x = .free → O x = .free) ∧ Image f (pageUp r) b m' ∧
          ∀ a, a < pgsize4kb * pageUp oldSz → m'.byte f a = m.byte f a) ∨
        (r = 0 ∧ ∀ w < userPages, m'.page f w = m.page f w))) (fun _ => False) m := by
  by_cases hle : newSz < oldSz
  · unfold Vm.allocUvm
    rw [if_pos hle, wp_pure]
    refine ⟨O, Worked.refl hm hf, Or.inl ⟨(Nat.max_eq_left (Nat.le_of_lt hle)).symm, hlt hle, fun _ h0 => h0, h,
      fun _ _ => rfl⟩⟩
  · by_cases htop : userTop ≤ newSz
    · unfold Vm.allocUvm
      rw [if_neg hle, if_pos htop, wp_pure]
      exact ⟨O, Worked.refl hm hf, Or.inr ⟨rfl, fun _ _ => rfl⟩⟩
    · have hle := Nat.not_lt.mp hle
      have htop := Nat.not_le.mp htop
      have hmono : pageUp oldSz ≤ pageUp newSz := Nat.div_le_div_right (by omega)
      have h1 : 1 ≤ pageUp oldSz := by
        rw [Nat.succ_le_iff, lt_pageUp]
        simp only [pgsize4kb] at hold ⊢
        omega
      have hpages : pageUp newSz ≤ userPages := by
        simp only [pageUp, pgsize4kb, userTop, userPages] at htop ⊢
        omega
      refine (allocUvm_spec hm hf hle htop fun v hv hv' => h.absent v (by omega) fun _ => hv).post ?_
      rintro r m₁ ⟨O₁, ⟨rfl, hz⟩ | ⟨rfl, -, hw, hsame⟩⟩
      · refine ⟨O₁, hz.worked, Or.inl ⟨(Nat.max_eq_right hle).symm, htop, hz.free, h.zeroed hz hmono h1 hpages,
          fun a ha => ?_⟩⟩
        have hv : a / pgsize4kb < pageUp oldSz := Nat.div_lt_of_lt_mul ha
        rw [Mem.byte, hz.page _ (by omega) fun h0 => absurd h0 (Nat.not_le.mpr hv)]
        rfl
      · exact ⟨O₁, hw, Or.inr ⟨rfl, hsame⟩⟩

end Xv6.Vm
