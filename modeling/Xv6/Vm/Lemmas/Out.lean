import Xv6.Vm.Lemmas.User

/-!
# Copying to another address space

What `copy_out` does to the frames of physical memory, for any tables: the bytes go to the frames that the walks find.
The pages keep these frames if no one of them is a table on the way to a page.
-/

namespace Xv6.Vm

open Xv6.Lib

variable {m m' m₁ : Mem} {f v w x n t va : Nat} {buf : List UInt8}

/-! ## The frames of the user -/

/-- The frame of the page `v` where the walk ends at the entry `a`, which is one of the frames of a large page above the
last level. -/
def frameAt (v : Nat) (a : Nat × Nat) : Nat := a.2 / (pgsize4kb * 512 ^ a.1) * 512 ^ a.1 + v % 512 ^ a.1

theorem frameAt_zero (v pte : Nat) : frameAt v (0, pte) = pteAddr pte := by
  simp only [frameAt, Nat.pow_zero, Nat.mul_one, Nat.mod_one, Nat.add_zero, pteAddr]

/-- The frame of a page that the user may use. -/
def Mem.userFrame (m : Mem) (f v : Nat) : Option Nat :=
  (m.translate f v).bind fun a => if user a.2 then some (frameAt v a) else none

/-- The byte that the user finds at an address. -/
def Mem.userByte (m : Mem) (f a : Nat) : Option UInt8 :=
  (m.userFrame f (a / pgsize4kb)).map fun x => m.pages x (a % pgsize4kb)

/-- Distinct pages of the user have distinct frames. -/
def DistinctPages (m : Mem) (f : Nat) : Prop :=
  ∀ v < userPages, ∀ w < userPages, ∀ x, m.userFrame f v = some x → m.userFrame f w = some x → v = w

/-- No frame of a page of the user is a table of the lower half. -/
def NoTablePage (m : Mem) (f : Nat) : Prop :=
  ∀ v < userPages, ∀ x, m.userFrame f v = some x → ∀ e k, e < 4 → lower.In e k → m.node f e k ≠ some x

/-- No page that the user may use is in a large page. -/
def NoLargePage (m : Mem) (f : Nat) : Prop :=
  ∀ v < userPages, ∀ a, m.translate f v = some a → user a.2 = true → a.1 = 0

theorem lookup_present {a : Nat × Nat} {tbl : Nat} (h : m.lookup v n tbl = some a) : present a.2 = true := by
  induction n generalizing tbl with
  | zero =>
      unfold Mem.lookup at h
      split at h
      · obtain rfl := Option.some.inj h
        assumption
      · cases h
  | succ n ih =>
      unfold Mem.lookup at h
      dsimp only at h
      split at h
      · split at h
        · obtain rfl := Option.some.inj h
          assumption
        · exact ih h
      · cases h

theorem lookup_of_zero {tbl : Nat} (h : m.pte tbl (v / 512 ^ (n + 1) % 512) = 0) : m.lookup v (n + 1) tbl = none := by
  unfold Mem.lookup
  rw [h]
  rfl

theorem lookup_table {tbl y : Nat} (h : m.pte tbl (v / 512 ^ (n + 1) % 512) = pgsize4kb * y + 7) :
    m.lookup v (n + 1) tbl = m.lookup v n y := by
  have hp : present (pgsize4kb * y + 7) = true := present_add y (by decide)
  have hl : large (pgsize4kb * y + 7) = false := large_add y (by decide)
  rw [Mem.lookup, h, hp, hl, pteAddr_add y (by decide)]
  rfl

/-- `uva2dma` takes every entry for one of the last level. -/
theorem uva2dma_userFrame (hsmall : ∀ a, m.translate f (vpn va) = some a → user a.2 = true → a.1 = 0) :
    Wp (uva2dma f va) (fun r m' => m' = m ∧ r = m.userFrame f (vpn va)) (fun _ => False) m := by
  unfold uva2dma
  refine Wp.bind (walkLevel_lookup m va f (Nat.le_refl 3)) ?_
  rintro r m₁ ⟨rfl, hr⟩
  rw [Mem.userFrame, Mem.translate]
  cases hl : m₁.lookup (vpn va) 3 f with
  | none =>
      rw [hl, Option.map_none, Option.map_eq_none_iff] at hr
      rw [hr]
      exact ⟨rfl, rfl⟩
  | some a =>
      rw [hl, Option.map_some] at hr
      obtain ⟨p, rfl, hp⟩ := Option.map_eq_some_iff.mp hr
      dsimp only
      rw [wp_bind, wp_get, hp, lookup_present hl, if_neg (by decide), wp_ite, Option.bind_some]
      refine ⟨fun hu => ⟨rfl, ?_⟩, fun hu => ⟨rfl, ?_⟩⟩
      · rw [hu, if_neg Bool.false_ne_true]
      · have hu := Bool.eq_true_of_not_eq_false hu
        rw [if_pos hu, show a = (0, a.2) from Prod.ext (hsmall a hl hu) rfl, frameAt_zero]

/-- The walks to the pages of the user read the tables of the lower half. -/
theorem translate_lower (h : ∀ e k x, e < 4 → lower.In e k → m.node f e k = some x → m'.pages x = m.pages x)
    (hv : v < userPages) : m'.translate f v = m.translate f v :=
  translate_congr fun e he => Or.inl <|
    Radix.slot_congr (P := lower.places)
      (fun e' k t he' hin ht j => by rw [Mem.pte, Mem.pte, h e' k t (by omega) hin ht])
      (show lower.In (e + 1) _ from (lower_in.mpr hv).path (by omega))

/-! ## The copied bytes -/

/-- The first `n` bytes are in the frames of the pages from the address `va` on, and nothing else is changed. -/
structure Stored (f va : Nat) (buf : List UInt8) (n : Nat) (m m' : Mem) : Prop where
  le : n ≤ buf.length
  reached : ∀ k < n, m.userFrame f ((va + k) / pgsize4kb) ≠ none
  inside : ∀ k < n, ∀ x, m.userFrame f ((va + k) / pgsize4kb) = some x →
    some (m'.pages x ((va + k) % pgsize4kb)) = buf[k]?
  outside : ∀ x o, (∀ k < n, m.userFrame f ((va + k) / pgsize4kb) = some x → (va + k) % pgsize4kb ≠ o) →
    m'.pages x o = m.pages x o
  rest : m' = { m with pages := m'.pages }

theorem Stored.zero (f va : Nat) (buf : List UInt8) (m : Mem) : Stored f va buf 0 m m :=
  ⟨Nat.zero_le _, fun _ h => absurd h (Nat.not_lt_zero _), fun _ h => absurd h (Nat.not_lt_zero _),
    fun _ _ _ => rfl, rfl⟩

/-- The pages keep their translations. -/
theorem Stored.translate (h : Stored f va buf n m m') (htab : NoTablePage m f) (hend : va + buf.length < userTop)
    (hv : v < userPages) :
    m'.translate f v = m.translate f v := by
  refine translate_lower (fun e k x he hin hx => funext fun o => h.outside x o fun j hj hfr => ?_) hv
  have hle := h.le
  exact absurd hx (htab _ (page_lt_of_lt (by omega)) x hfr e k he hin)

theorem Stored.userFrame (h : Stored f va buf n m m') (htab : NoTablePage m f) (hend : va + buf.length < userTop)
    (hv : v < userPages) :
    m'.userFrame f v = m.userFrame f v := by
  rw [Mem.userFrame, Mem.userFrame, h.translate htab hend hv]

/-- The bytes that go to one page. -/
theorem Stored.step (h : Stored f va buf n m m₁) (hd : DistinctPages m f) (hend : va + buf.length < userTop)
    (hfr : m.userFrame f ((va + n) / pgsize4kb) = some x) (ht : n + t ≤ buf.length)
    (hroom : (va + n) % pgsize4kb + t ≤ pgsize4kb) :
    Stored f va buf (n + t) m (m₁.write x ((m₁.pages x).put ((va + n) % pgsize4kb) ((buf.drop n).take t))) := by
  have hlen : ((buf.drop n).take t).length = t := by
    rw [List.length_take, List.length_drop]
    omega
  have hsame : ∀ {k}, n ≤ k → k < n + t → (va + k) / pgsize4kb = (va + n) / pgsize4kb ∧
      (va + k) % pgsize4kb = (va + n) % pgsize4kb + (k - n) := fun {k} h1 h2 => by
    simp only [pgsize4kb] at hroom ⊢
    omega
  refine ⟨ht, fun k hk => ?_, fun k hk y hy => ?_, fun y o ho => ?_, ?_⟩
  · by_cases hkn : k < n
    · exact h.reached k hkn
    · rw [(hsame (Nat.not_lt.mp hkn) hk).1, hfr]
      exact Option.some_ne_none x
  · by_cases hkn : k < n
    · rw [← h.inside k hkn y hy]
      by_cases hyx : y = x
      · subst hyx
        -- an earlier byte of the page that is written now
        have hpage := hd _ (page_lt_of_lt (by omega)) _ (page_lt_of_lt (by omega)) y hy hfr
        have hlow : (va + k) % pgsize4kb < (va + n) % pgsize4kb := by
          simp only [pgsize4kb] at hpage ⊢
          omega
        rw [pages_write_self, Bytes.put_of_lt hlow]
      · rw [pages_write hyx]
    · obtain ⟨hpage, hoff⟩ := hsame (Nat.not_lt.mp hkn) hk
      rw [hpage, hfr] at hy
      obtain rfl := Option.some.inj hy
      have hget : ((buf.drop n).take t)[k - n]? = buf[k]? := by
        rw [List.getElem?_take_of_lt (by omega), List.getElem?_drop, Nat.add_sub_cancel' (Nat.not_lt.mp hkn)]
      rw [List.getElem?_eq_getElem (show k < buf.length by omega)] at hget ⊢
      rw [pages_write_self, hoff, Bytes.put_add hget]
  · have hold : m₁.pages y o = m.pages y o := h.outside y o fun k hk => ho k (by omega)
    by_cases hyx : y = x
    · subst hyx
      rw [pages_write_self, Bytes.put_outside ?_, hold]
      rw [hlen]
      by_contra hin
      have hk := hsame (k := n + (o - (va + n) % pgsize4kb)) (by omega) (by omega)
      exact ho (n + (o - (va + n) % pgsize4kb)) (by omega) (by rw [hk.1, hfr]) (by rw [hk.2]; omega)
    · rw [pages_write hyx, hold]
  · rw [Mem.write, h.rest]

/-- The bytes are stored up to the first page that the user may not use. -/
theorem copyOut_stored (hd : DistinctPages m f) (htab : NoTablePage m f) (hsmall : NoLargePage m f)
    (hend : va + buf.length < userTop) :
    Wp (copyOut f va buf) (fun r m' => ∃ n, Stored f va buf n m m' ∧ ((r = 0 ∧ n = buf.length) ∨
      (r = -1 ∧ n < buf.length ∧ m.userFrame f ((va + n) / pgsize4kb) = none))) (fun _ => False) m := by
  unfold copyOut
  refine wp_loop (fun (i : Nat × List UInt8) m' => ∃ n, Stored f va buf n m m' ∧ i.2 = buf.drop n ∧
    (n < buf.length → i.1 = va + n)) (fun i => i.2.length) ?_ _ _ _ ⟨0, .zero f va buf m, rfl, fun _ => rfl⟩
      (Nat.lt_succ_self _)
  rintro ⟨va', rest⟩ m₁ ⟨n, hs, hrest, hnext⟩
  dsimp only at hrest hnext ⊢
  subst hrest
  have hlen : (buf.drop n).length = buf.length - n := List.length_drop
  rw [wp_ite]
  refine ⟨fun hpos => ?_, fun hpos => ?_⟩
  · obtain rfl := hnext (by omega)
    have hva : va + n < userTop := by omega
    have hpage : vpn (roundDown (va + n) pgsize4kb) = (va + n) / pgsize4kb := by rw [vpn_roundDown, vpn_user hva]
    have hentry : ∀ a, m₁.translate f (vpn (roundDown (va + n) pgsize4kb)) = some a → user a.2 = true →
      a.1 = 0 := fun a ha => by
      rw [hpage, hs.translate htab hend (page_lt_of_lt hva)] at ha
      exact hsmall _ (page_lt_of_lt hva) a ha
    refine Wp.bind (uva2dma_userFrame hentry) ?_
    rintro r m₂ ⟨rfl, hr⟩
    rw [hpage, hs.userFrame htab hend (page_lt_of_lt hva)] at hr
    subst hr
    cases hfr : m.userFrame f ((va + n) / pgsize4kb) with
    | none => exact ⟨n, hs, Or.inr ⟨rfl, by omega, hfr⟩⟩
    | some x =>
        have hsub : va + n - roundDown (va + n) pgsize4kb = (va + n) % pgsize4kb := by
          rw [roundDown_eq]
          have := Nat.div_add_mod (va + n) pgsize4kb
          omega
        have hlt : (va + n) % pgsize4kb < pgsize4kb := Nat.mod_lt _ (by decide)
        dsimp only
        rw [wp_bind, wp_get, wp_bind, wp_setPage, wp_pure, hsub]
        generalize ht : min (pgsize4kb - (va + n) % pgsize4kb) (buf.drop n).length = t
        refine ⟨⟨n + t, hs.step hd hend hfr (by omega) (by omega), by rw [List.drop_drop], fun hmore => ?_⟩, ?_⟩
        · have hall : t = pgsize4kb - (va + n) % pgsize4kb := by omega
          dsimp only
          rw [roundDown_eq, hall]
          simp only [pgsize4kb, userTop] at hva ⊢
          omega
        · rw [List.length_drop]
          omega
  · rw [wp_pure]
    have hle := hs.le
    exact ⟨n, hs, Or.inl ⟨rfl, by omega⟩⟩

end Xv6.Vm
