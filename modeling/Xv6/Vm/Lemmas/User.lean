import Xv6.Vm.Lemmas.Kern

/-!
# User memory as bytes

What the user sees of a space are the bytes of its pages. `copy_out` writes to them as far as the pages are accessible,
and `clear_pte_u` makes a page inaccessible.
-/

namespace Xv6.Vm

open Xv6.Lib

variable {τ : Type} {O : Nat → Use τ} {m m₁ m' : Mem} {f v w a b e va off : Nat} {c : Bytes} {l l' buf : List UInt8}

/-- The byte at an address of the user. -/
def Mem.byte (m : Mem) (f a : Nat) : Option UInt8 := (m.page f (a / pgsize4kb)).map fun p => p.2 (a % pgsize4kb)

/-- The page is present and for the user. -/
def Accessible (m : Mem) (f v : Nat) : Prop := ∃ e, (m.page f v).map Prod.fst = some e ∧ user e = true

/-- The bytes of `l` are written from the address `a` on, and nothing else changed. -/
structure Wrote (f a : Nat) (l : List UInt8) (O : Nat → Use τ) (m m' : Mem) : Prop where
  worked : Worked f O m O m'
  entry : ∀ v < userPages, (m'.page f v).map Prod.fst = (m.page f v).map Prod.fst
  inside : ∀ k x, l[k]? = some x → m'.byte f (a + k) = some x
  outside : ∀ b < userTop, (b < a ∨ a + l.length ≤ b) → m'.byte f b = m.byte f b

theorem userTop_eq : userTop = pgsize4kb * userPages := rfl

theorem page_lt_of_lt (h : a < userTop) : a / pgsize4kb < userPages := Nat.div_lt_of_lt_mul (by rwa [userTop_eq] at h)

theorem Wrote.nil (h : Frames lower O m) (hf : O f = .node f 0 0) (a : Nat) : Wrote f a [] O m m :=
  ⟨Worked.refl h hf, fun _ _ => rfl, nofun, fun _ _ _ => rfl⟩

theorem Wrote.append (h : Wrote f a l O m m₁) (h' : Wrote f (a + l.length) l' O m₁ m')
    (hend : a + l.length + l'.length ≤ userTop) :
    Wrote f a (l ++ l') O m m' := by
  refine ⟨h.worked.trans h'.worked, fun v hv => (h'.entry v hv).trans (h.entry v hv), fun k x hx => ?_,
    fun b hb hout => ?_⟩
  · by_cases hk : k < l.length
    · rw [List.getElem?_append_left hk] at hx
      rw [h'.outside _ (by omega) (by omega)]
      exact h.inside k x hx
    · rw [List.getElem?_append_right (by omega)] at hx
      rw [show a + k = a + l.length + (k - l.length) by omega]
      exact h'.inside _ x hx
  · rw [List.length_append] at hout
    rw [h'.outside b hb (by omega), h.outside b hb (by omega)]

/-- What is in memory after some bytes are written, when the bytes of `c` were there. -/
theorem Wrote.byte_put (h : Wrote f a l O m m') (hb : b < userTop) (hc : m.byte f b = some (c b)) :
    m'.byte f b = some (c.put a l b) := by
  by_cases hout : b < a ∨ a + l.length ≤ b
  · rw [h.outside b hb hout, Bytes.put_outside hout, hc]
  · have hk : b - a < l.length := by omega
    have hin := h.inside (b - a) _ (List.getElem?_eq_getElem hk)
    have hput := Bytes.put_add (List.getElem?_eq_getElem hk) c a
    rw [show a + (b - a) = b by omega] at hin hput
    rw [hin, hput]

/-! ## A page -/

/-- A page gets other contents. -/
theorem Frames.write_page (h : Frames lower O m) (hf : O f = .node f 0 0) (hv : v < userPages)
    (hp : m.page f v = some (e, c)) (b : Bytes) :
    Worked f O m O (m.write (pteAddr e) b) ∧
      ∀ w < userPages, (m.write (pteAddr e) b).page f w = if w = v then some (e, b) else m.page f w := by
  have hx := h.use_of_page hf hv hp
  have htab : ∀ {t g e' k}, O t = .node g e' k → e' < 4 → t ≠ pteAddr e := fun {t g e' k} ht he h0 => by
    rw [h0, hx] at ht
    exact absurd (Use.node.inj ht).2.1 (Nat.ne_of_gt he)
  have hframes : Frames lower O (m.write (pteAddr e) b) := h.write (by rw [hx]; rintro ⟨⟩) (fun g e' k h0 => by
    rw [hx] at h0
    exact Nat.le_of_eq (Use.node.inj h0).2.1) b
  have hentry : ∀ w < userPages, (m.write (pteAddr e) b).entry f 4 w = m.entry f 4 w := fun w hw =>
    h.entry_congr hf (fun t e' k ht he j => by rw [Mem.pte, (same_write m _ b).pages t (htab ht he), Mem.pte])
      (lower_in.mpr hw)
  have hmine : ∀ z, z = pteAddr e → Mine O f z := fun z hz => Or.inr (Or.inr ⟨4, v, hz ▸ hx⟩)
  refine ⟨⟨⟨hframes, (same_write m _ b).mono hmine, fun _ _ => rfl, fun _ h0 => Or.inl h0⟩, hf, fun i _ _ => ?_,
    fun _ h0 => h0, fun _ h0 => h0⟩, fun w hw => ?_⟩
  · rw [Mem.pte, (same_write m _ b).pages f (htab hf (by decide)), Mem.pte]
  · cases hpw : present (m.entry f 4 w) with
    | false =>
        have hwv : w ≠ v := fun h0 => by
          rw [h0] at hpw
          rw [page_of_absent hpw] at hp
          cases hp
        rw [page_of_absent (by rw [hentry w hw, hpw]), if_neg hwv, page_of_absent hpw]
    | true =>
        rw [page_of_present (by rw [hentry w hw, hpw]), hentry w hw]
        have hxw := h.page_frame hf hw hpw
        split
        · rename_i hwv
          subst hwv
          rw [page_of_present hpw] at hp
          obtain ⟨rfl, -⟩ := Prod.mk.inj (Option.some.inj hp)
          rw [show (m.write (pteAddr (m.entry f 4 w)) b).pages (pteAddr (m.entry f 4 w)) = b from upd_self _ _ _]
        · rename_i hwv
          have hne : pteAddr (m.entry f 4 w) ≠ pteAddr e := fun h0 => by
            rw [h0, hx] at hxw
            exact hwv (Use.node.inj hxw).2.2.symm
          rw [(same_write m _ b).pages _ hne, page_of_present hpw]

/-- Some bytes of a page are written. -/
theorem Frames.put_page (h : Frames lower O m) (hf : O f = .node f 0 0) (hv : v < userPages)
    (hp : m.page f v = some (e, c)) (hoff : off + l.length ≤ pgsize4kb) :
    Wrote f (pgsize4kb * v + off) l O m (m.write (pteAddr e) (c.put off l)) := by
  obtain ⟨hw, hpage⟩ := h.write_page hf hv hp (c.put off l)
  refine ⟨hw, fun w hw' => ?_, fun k x hx => ?_, fun b hb hout => ?_⟩
  · rw [hpage w hw']
    split
    · rename_i hwv
      rw [hwv, hp]
      rfl
    · rfl
  · have hk : k < l.length := by
      by_contra h0
      rw [List.getElem?_eq_none (Nat.not_lt.mp h0)] at hx
      cases hx
    have hdiv : (pgsize4kb * v + off + k) / pgsize4kb = v := by
      simp only [pgsize4kb] at hoff ⊢
      omega
    have hmod : (pgsize4kb * v + off + k) % pgsize4kb = off + k := by
      simp only [pgsize4kb] at hoff ⊢
      omega
    rw [Mem.byte, hdiv, hmod, hpage v hv, if_pos rfl, Option.map_some]
    exact congrArg some (Bytes.put_add hx c off)
  · rw [Mem.byte, hpage _ (page_lt_of_lt hb), Mem.byte]
    split
    · rename_i hbv
      rw [hbv, hp, Option.map_some, Option.map_some]
      refine congrArg some (Bytes.put_outside ?_ c)
      simp only [pgsize4kb] at hout hbv ⊢
      omega
    · rfl

theorem Wrote.accessible (h : Wrote f a l O m m') (hv : v < userPages) : Accessible m' f v ↔ Accessible m f v := by
  unfold Accessible
  rw [h.entry v hv]

/-! ## Writing to the user -/

theorem vpn_user (h : va < userTop) : vpn va = va / pgsize4kb := vpn_of_lt (Nat.lt_trans h (by decide))

theorem vpn_eq (va : Nat) : vpn va = va % 2 ^ 48 / pgsize4kb := by
  simp only [vpn, pgsize4kb]
  omega

/-- The address is one of the user. -/
def UserAt (m : Mem) (f va : Nat) : Prop := vpn va < userPages ∧ Accessible m f (vpn va)

theorem uva2dma_spec (h : Frames lower O m) (hf : O f = .node f 0 0) (hs : Sealed m f) (va : Nat) :
    Wp (uva2dma f va) (fun r m' => m' = m ∧ ((r = none ∧ ¬ UserAt m f va) ∨
      ∃ e c, r = some (pteAddr e) ∧ vpn va < userPages ∧ m.page f (vpn va) = some (e, c) ∧ user e = true))
        (fun _ => False) m := by
  unfold uva2dma
  by_cases hv : vpn va < userPages
  · refine Wp.bind (walkPml4_find h hf rfl (lower_in.mpr hv) (h.clear rfl hf (lower_in.mpr hv))) ?_
    rintro r m₁ ⟨rfl, ⟨rfl, habs⟩ | ⟨t, rfl, ht, hp⟩⟩
    · rw [wp_pure]
      refine ⟨rfl, Or.inl ⟨rfl, ?_⟩⟩
      rintro ⟨-, e, he, -⟩
      rw [page_of_absent habs] at he
      cases he
    · have hpte : m₁.pte t (vpn va % 512) = m₁.entry f 4 (vpn va) := by
        rw [← entry_child (h.place ht) (Nat.mod_lt _ (by decide)), Nat.div_add_mod]
      dsimp only
      rw [wp_bind, wp_get, hpte, hp, if_neg (by decide), wp_ite]
      refine ⟨fun hu => ⟨rfl, Or.inl ⟨rfl, ?_⟩⟩, fun hu => ⟨rfl, Or.inr ⟨_, _, rfl, hv, page_of_present hp, ?_⟩⟩⟩
      · rintro ⟨-, e, he, he'⟩
        rw [page_of_present hp] at he
        obtain rfl := Option.some.inj he
        rw [hu] at he'
        cases he'
      · exact Bool.eq_true_of_not_eq_false hu
  · have hno : ¬ UserAt m f va := fun h0 => hv h0.1
    refine Wp.bind (walkLevel_lookup m va f (Nat.le_refl 3)) ?_
    rintro r m₁ ⟨rfl, hr⟩
    cases r with
    | none => exact ⟨rfl, Or.inl ⟨rfl, hno⟩⟩
    | some a =>
        -- the entry is one of the kernel's half
        rw [Option.map_some] at hr
        obtain ⟨x, hx, hx'⟩ := Option.map_eq_some_iff.mp hr.symm
        have hu := hs (vpn va) (Nat.not_lt.mp hv) (Nat.mod_lt _ (by decide)) x hx
        rw [hx'] at hu
        dsimp only
        rw [wp_bind, wp_get, wp_ite]
        refine ⟨fun _ => ⟨rfl, Or.inl ⟨rfl, hno⟩⟩, fun _ => ?_⟩
        rw [if_pos hu, wp_pure]
        exact ⟨rfl, Or.inl ⟨rfl, hno⟩⟩

theorem vpn_roundDown (va : Nat) : vpn (roundDown va pgsize4kb) = vpn va := by
  rw [vpn, vpn, roundDown_eq, Nat.mul_div_cancel_left _ (by decide)]

/-- The first `n` of some bytes are written, all of them to addresses of the user. -/
structure CopiedOut (f va : Nat) (buf : List UInt8) (n : Nat) (O : Nat → Use τ) (m m' : Mem) : Prop where
  le : n ≤ buf.length
  worked : Worked f O m O m'
  entry : ∀ v < userPages, (m'.page f v).map Prod.fst = (m.page f v).map Prod.fst
  reached : ∀ k < n, UserAt m f (va + k)
  wrote : va < userTop → va + n ≤ userTop ∧ Wrote f va (buf.take n) O m m'

theorem CopiedOut.userAt {n : Nat} (h : CopiedOut f va buf n O m m') (b : Nat) : UserAt m' f b ↔ UserAt m f b := by
  refine and_congr_right fun hv => ?_
  unfold Accessible
  rw [h.entry _ hv]

/-- The bytes that go to one page. -/
theorem CopiedOut.step {n t va' : Nat} (h : CopiedOut f va buf n O m m₁) (hmod : va' % 2 ^ 48 = (va + n) % 2 ^ 48)
    (hlow : va < userTop → va' = va + n) (hv : vpn va' < userPages) (hp : m₁.page f (vpn va') = some (e, c))
    (hu : user e = true) (ht : t ≤ buf.length - n) (hroom : va' % pgsize4kb + t ≤ pgsize4kb) :
    CopiedOut f va buf (n + t) O m (m₁.write (pteAddr e) (c.put (va' % pgsize4kb) ((buf.drop n).take t))) := by
  have hlen : ((buf.drop n).take t).length = t := by
    rw [List.length_take, List.length_drop]
    omega
  have hput := h.worked.moved.frames.put_page (l := (buf.drop n).take t) h.worked.root hv hp (by rwa [hlen])
  refine ⟨by have := h.le; omega, h.worked.trans hput.worked, fun v hv => (hput.entry v hv).trans (h.entry v hv),
    fun k hk => ?_, fun hva => ?_⟩
  · by_cases hkn : k < n
    · exact h.reached k hkn
    · have hsame : vpn (va + k) = vpn va' := by
        simp only [vpn_eq, pgsize4kb] at hroom hmod ⊢
        omega
      rw [← h.userAt, UserAt, hsame]
      exact ⟨hv, e, by rw [hp]; rfl, hu⟩
  · obtain rfl := hlow hva
    obtain ⟨hle, hw⟩ := h.wrote hva
    have hlen' : (buf.take n).length = n := by
      rw [List.length_take]
      exact Nat.min_eq_left h.le
    have hpage : pgsize4kb * vpn (va + n) + (va + n) % pgsize4kb = va + n := by
      simp only [vpn_eq, pgsize4kb, userTop] at hle hv ⊢
      omega
    have hend : va + (n + t) ≤ userTop := by
      simp only [vpn_eq, pgsize4kb, userTop, userPages] at hle hv hroom ⊢
      omega
    refine ⟨hend, ?_⟩
    rw [hpage] at hput
    rw [List.take_add]
    refine hw.append (by rwa [hlen']) ?_
    rw [hlen', hlen]
    omega

/-- The bytes are copied up to the first address that is not one of the user. -/
theorem copyOut_spec (h : Frames lower O m) (hf : O f = .node f 0 0) (hk : Kern O m) (va : Nat) (buf : List UInt8) :
    Wp (copyOut f va buf) (fun r m' => ∃ n, CopiedOut f va buf n O m m' ∧ ((r = 0 ∧ n = buf.length) ∨
      (r = -1 ∧ n < buf.length ∧ ¬ UserAt m f (va + n)))) (fun _ => False) m := by
  unfold copyOut
  refine wp_loop (fun (i : Nat × List UInt8) m' => ∃ n, CopiedOut f va buf n O m m' ∧ i.2 = buf.drop n ∧
      (n < buf.length → i.1 % 2 ^ 48 = (va + n) % 2 ^ 48 ∧ (va < userTop → i.1 = va + n)))
        (fun i => i.2.length) ?_ _ _ _ ?_ ?_
  · rintro ⟨va', rest⟩ m₁ ⟨n, hc, hrest, hnext⟩
    dsimp only at hrest hnext ⊢
    subst hrest
    have hlen : (buf.drop n).length = buf.length - n := List.length_drop
    rw [wp_ite]
    refine ⟨fun hpos => ?_, fun hpos => ?_⟩
    · obtain ⟨hmod, hlow⟩ := hnext (by omega)
      refine Wp.bind (uva2dma_spec hc.worked.moved.frames hf ((hk.worked hf hc.worked).sealed hf) _) ?_
      have hat : UserAt m₁ f (roundDown va' pgsize4kb) ↔ UserAt m f (va + n) := by
        rw [hc.userAt, UserAt, UserAt, vpn_roundDown, vpn_eq, hmod, ← vpn_eq]
      rintro r m₂ ⟨rfl, ⟨rfl, hno⟩ | ⟨e, c, rfl, hv, hp, hu⟩⟩
      · rw [wp_pure]
        exact ⟨n, hc, Or.inr ⟨rfl, by omega, fun h0 => hno (hat.mpr h0)⟩⟩
      · rw [vpn_roundDown] at hv hp
        have hsub : va' - roundDown va' pgsize4kb = va' % pgsize4kb := by
          rw [roundDown_eq]
          have := Nat.div_add_mod va' pgsize4kb
          omega
        have hlt : va' % pgsize4kb < pgsize4kb := Nat.mod_lt _ (by decide)
        dsimp only
        rw [wp_bind, wp_get, wp_bind, wp_setPage, wp_pure, hsub]
        generalize ht : min (pgsize4kb - va' % pgsize4kb) (buf.drop n).length = t
        have hcont : m₂.pages (pteAddr e) = c := by
          obtain ⟨-, rfl, rfl⟩ := page_eq_some hp
          rfl
        rw [hcont]
        have hstep := hc.step hmod hlow hv hp hu (t := t) (by omega) (by omega)
        refine ⟨⟨n + t, hstep, ?_, fun hmore => ?_⟩, ?_⟩
        · rw [List.drop_drop]
        · have hall : t = pgsize4kb - va' % pgsize4kb := by omega
          dsimp only
          rw [roundDown_eq, hall]
          refine ⟨?_, fun hva => ?_⟩
          · simp only [pgsize4kb] at hmod ⊢
            omega
          · obtain ⟨hle, -⟩ := hstep.wrote hva
            have hva' := hlow hva
            simp only [pgsize4kb, userTop] at hle hall hva' ⊢
            omega
        · rw [List.length_drop]
          omega
    · rw [wp_pure]
      refine ⟨n, hc, Or.inl ⟨rfl, ?_⟩⟩
      have := hc.le
      omega
  · refine ⟨0, ⟨Nat.zero_le _, Worked.refl h hf, fun _ _ => rfl, fun k hk => absurd hk (Nat.not_lt_zero k),
      fun hva => ?_⟩, rfl, fun _ => ⟨rfl, fun _ => rfl⟩⟩
    exact ⟨Nat.le_of_lt hva, Wrote.nil h hf va⟩
  · exact Nat.lt_succ_self _

/-! ## Stores of the kernel -/

theorem storeByte_spec (h : Frames lower O m) (hf : O f = .node f 0 0) (va : Nat) (x : UInt8) :
    Wp (storeByte f va x) (fun _ m' => va < userTop ∧ Wrote f va [x] O m m') (fun _ => True) m := by
  unfold storeByte
  rw [wp_ite]
  refine ⟨fun _ => trivial, fun hlt => ?_⟩
  have hva := Nat.not_le.mp hlt
  have hv := page_lt_of_lt hva
  refine Wp.seq (walkPml4_find h hf (vpn_user hva) (lower_in.mpr hv) (h.clear rfl hf (lower_in.mpr hv)))
    (fun _ h0 => h0.elim) ?_
  rintro r m₁ ⟨rfl, ⟨rfl, -⟩ | ⟨t, rfl, ht, hp⟩⟩
  · trivial
  · have hpte : m₁.pte t (va / pgsize4kb % 512) = m₁.entry f 4 (va / pgsize4kb) := by
      rw [← entry_child (h.place ht) (Nat.mod_lt _ (by decide)), Nat.div_add_mod]
    have hput := h.put_page (l := [x]) hf hv (page_of_present hp) (Nat.succ_le_of_lt (Nat.mod_lt va (by decide)))
    rw [Nat.div_add_mod] at hput
    dsimp only
    rw [wp_bind, wp_get, wp_setPage, hpte]
    exact ⟨hva, hput⟩

/-- What the kernel stores through a pointer of the user is in the memory of the user. -/
theorem storeBytes_spec (hf : O f = .node f 0 0) (l : List UInt8) (h : Frames lower O m) (va : Nat) :
    Wp (storeBytes f va l) (fun _ m' => (l ≠ [] → va + l.length ≤ userTop) ∧ Wrote f va l O m m')
      (fun _ => True) m := by
  induction l generalizing m va with
  | nil => exact ⟨fun h0 => absurd rfl h0, .nil h hf va⟩
  | cons x l ih =>
      refine Wp.bind (storeByte_spec h hf va x) fun _ m₁ ⟨hva, h₁⟩ => ?_
      refine (ih h₁.worked.moved.frames (va + 1)).post fun _ m₂ ⟨hend, h₂⟩ => ?_
      have hle : va + 1 + l.length ≤ userTop := by
        cases l with
        | nil => exact hva
        | cons y l => exact hend (List.cons_ne_nil y l)
      refine ⟨fun _ => ?_, h₁.append h₂ hle⟩
      rw [List.length_cons]
      omega

/-! ## Making a page inaccessible -/

/-- The entry without `PTE_U`. -/
def withoutU (e : Nat) : Nat := if user e then e - pteU else e

theorem withoutU_spec (h : present e = true) :
    present (withoutU e) = true ∧ user (withoutU e) = false ∧ pteAddr (withoutU e) = pteAddr e ∧ withoutU e ≤ e := by
  simp only [present, user, Nat.testBit_eq_decide_div_mod_eq, decide_eq_true_eq, decide_eq_false_iff_not,
    withoutU, pteAddr, pgsize4kb, pteU] at h ⊢
  split <;> rename_i hu <;> omega

/-- The entry of a page gets other flags. -/
theorem Frames.reflag {t b : Nat} (h : Frames lower O m) (hf : O f = .node f 0 0) (hv : v < userPages)
    (ht : O t = .node f 3 (v / 512)) (hpres : present (m.entry f 4 v) = true) (hb : b < 2 ^ 64) (hpb : present b = true)
    (haddr : pteAddr b = pteAddr (m.entry f 4 v)) :
    Worked f O m O (m.store t (v % 512) b) ∧ ∀ w < userPages, (m.store t (v % 512) b).page f w =
      if w = v then some (b, m.pages (pteAddr b)) else m.page f w := by
  have hi : v % 512 < 512 := Nat.mod_lt v (by decide)
  have hb' : b % 2 ^ 64 = b := Nat.mod_eq_of_lt hb
  have hin : lower.In 4 (512 * (v / 512) + v % 512) := by
    rw [Nat.div_add_mod]
    exact lower_in.mpr hv
  have hnext : next 4 b = next 4 (m.pte t (v % 512)) := by
    have hpte : m.pte t (v % 512) = m.entry f 4 v := by rw [← entry_child (h.place ht) hi, Nat.div_add_mod]
    rw [hpte, next, next, if_pos ⟨hpb, Or.inl rfl⟩, if_pos ⟨hpres, Or.inl rfl⟩, haddr]
  have hentry : ∀ w < userPages,
      (m.store t (v % 512) b).entry f 4 w = if w = v then b else m.entry f 4 w := fun w hw => by
    rw [h.entry_store ht hi hb' (fun h4 => absurd h4 (by decide)) (lower_in.mpr hw), Nat.div_add_mod]
    by_cases hwv : w = v
    · rw [if_pos ⟨rfl, hwv⟩, if_pos hwv]
    · rw [if_neg fun h0 => hwv h0.2, if_neg hwv]
  -- the table that changes is not the frame of a page
  have hpages : ∀ {w}, w < userPages → present (m.entry f 4 w) = true →
      (m.store t (v % 512) b).pages (pteAddr (m.entry f 4 w)) = m.pages (pteAddr (m.entry f 4 w)) :=
        fun {w} hw hpw => by
    refine pages_store (fun h0 => ?_) _ _ _
    have hx := h.page_frame hf hw hpw
    rw [h0, ht] at hx
    cases hx
  refine ⟨⟨⟨h.alter ht hi hb' hin fun _ => hnext,
    (same_store _ t _ _).mono fun z hz => Or.inr (Or.inr ⟨3, v / 512, hz ▸ ht⟩),
    fun _ _ => rfl, fun _ h0 => Or.inl h0⟩, hf, fun i hi' hi'' => ?_, fun _ h0 => h0, fun _ h0 => h0⟩, fun w hw => ?_⟩
  · rw [Mem.pte, pages_store _, Mem.pte]
    rintro rfl
    rw [hf] at ht
    cases ht
  · have hew := hentry w hw
    split at hew <;> rename_i hwv
    · subst hwv
      rw [if_pos rfl, page_of_present (by rw [hew, hpb]), hew, haddr, hpages hw hpres]
    · rw [if_neg hwv]
      cases hpw : present (m.entry f 4 w) with
      | false => rw [page_of_absent (by rw [hew, hpw]), page_of_absent hpw]
      | true => rw [page_of_present (by rw [hew, hpw]), hew, hpages hw hpw, page_of_present hpw]

theorem clearPteU_spec (h : Frames lower O m) (hf : O f = .node f 0 0) (hv : v < userPages)
    (hp : m.page f v = some (e, c)) :
    Wp (clearPteU f (pgsize4kb * v)) (fun _ m' => Worked f O m O m' ∧
      ∀ w < userPages, m'.page f w = if w = v then some (withoutU e, c) else m.page f w) (fun _ => False) m := by
  obtain ⟨hpres, rfl, rfl⟩ := page_eq_some hp
  have hvpn : vpn (pgsize4kb * v) = v := by
    rw [vpn, Nat.mul_div_cancel_left v (by decide)]
    exact Nat.mod_eq_of_lt (Nat.lt_trans hv (by decide))
  unfold clearPteU
  refine Wp.bind (walkPml4_find h hf hvpn (lower_in.mpr hv) (h.clear rfl hf (lower_in.mpr hv))) ?_
  rintro r m₁ ⟨rfl, ⟨rfl, habs⟩ | ⟨t, rfl, ht, -⟩⟩
  · rw [hpres] at habs
    cases habs
  · have hpte : m₁.pte t (v % 512) = m₁.entry f 4 v := by
      rw [← entry_child (h.place ht) (Nat.mod_lt v (by decide)), Nat.div_add_mod]
    obtain ⟨hpU, -, haddr, hle⟩ := withoutU_spec hpres
    have hlt : withoutU (m₁.entry f 4 v) < 2 ^ 64 := by
      refine Nat.lt_of_le_of_lt hle ?_
      rw [← hpte]
      exact pte_lt _ _ _
    have hw := h.reflag hf hv ht hpres hlt hpU haddr
    rw [haddr] at hw
    dsimp only
    rw [wp_bind, wp_get, wp_setPte, hpte]
    exact hw

/-! ## The first program -/

/-- The first program is copied to page 0. Without memory for its tables the frame is lost. -/
theorem initUvm_built (h : Frames lower O m) (hf : O f = .free) (hs : Same (fun x => x = f) m m₁)
    (hupper : ∀ i, 256 ≤ i → i < 512 → m₁.pte f i = m.pte m.kpml4 i) (h₁ : Frames lower (upd O f (.node f 0 0)) m₁)
    (init : List UInt8) :
    Wp (initUvm f init) (fun _ m' => ∃ O', Built (some f) O m O' m') (fun _ => True) m₁ := by
  have hroot : upd O f (.node f 0 0) f = .node f 0 0 := upd_self _ _ _
  unfold initUvm
  rw [wp_bind, wp_panicIf]
  refine ⟨fun _ => trivial, fun _ => ?_⟩
  refine Wp.seq (kalloc_spec h₁ Use.loose_held) (fun _ _ => trivial) ?_
  rintro r m₂ (⟨rfl, -, -⟩ | ⟨y, rfl, hy, h₂, hs₂⟩)
  · trivial
  have hyf : f ≠ y := fun h0 => by
    rw [← h0, hroot] at hy
    cases hy
  have hheld : upd (upd O f (.node f 0 0)) y .held y = .held := upd_self _ _ _
  dsimp only
  rw [wp_bind, wp_setPage]
  have h₃ := h₂.write_loose (x := y) (by rw [hheld]; exact Use.loose_held) fun _ => 0
  have hs₃ := hs₂.trans (same_write m₂ y fun _ => 0) (fun _ h0 => h0) fun _ h0 => h0
  revert h₃ hs₃
  generalize m₂.write y (fun _ => 0) = m₃
  intro h₃ hs₃
  refine Wp.seq (mapPages_page (v := 0) h₃ (by rw [upd_of_ne hyf, hroot]) (by decide) hheld (by decide))
    (fun _ _ => trivial) ?_
  rintro r m₄ ⟨O₄, hw₄, -, ⟨-, hy₄, -, -⟩ | ⟨-, hy₄, hpage₄⟩⟩
  · -- the frame is not mapped, and nobody has a pointer to it any more
    have hmine : Mine (upd O f (.node f 0 0)) f y := Or.inl hy
    have hlost : upd O₄ y .lost y = .lost := upd_self _ _ _
    have hm := ((hw₄.moved.of_take hy hs₃).lose hmine hy₄).write hmine (by rw [hlost]; exact Use.loose_lost)
      ((m₄.pages y).put 0 init)
    rw [wp_bind, wp_get, wp_setPage]
    refine ⟨_, .moved h hf hs hm (by rw [upd_of_ne hyf, hw₄.root]) (fun i hi hi' => ?_) fun x hx => ?_⟩
    · rw [Mem.pte, show (m₄.write y _).pages f = m₄.pages f from upd_of_ne hyf _ _, ← Mem.pte,
        hw₄.upper i hi hi', Mem.pte, hs₃.pages f hyf, ← Mem.pte, hupper i hi hi']
    · by_cases hxy : x = y
      · rw [hxy, hlost] at hx
        cases hx
      · rw [upd_of_ne hxy] at hx
        have h0 := hw₄.held x hx
        rw [upd_of_ne hxy] at h0
        by_cases hxf : x = f
        · rw [hxf, hroot] at h0
          cases h0
        · rwa [upd_of_ne hxf] at h0
  · have hp := hpage₄ 0 (by decide)
    rw [if_pos rfl] at hp
    obtain ⟨hw₅, -⟩ := hw₄.moved.frames.write_page hw₄.root (by decide) hp ((m₄.pages y).put 0 init)
    rw [pteAddr_add y (by decide)] at hw₅
    rw [wp_bind, wp_get, wp_setPage]
    refine ⟨O₄, .worked h hf hs hupper (Worked.of_take hroot hy hs₃ (hw₄.trans hw₅) ?_)⟩
    rw [hy₄]
    rintro ⟨⟩

end Xv6.Vm
