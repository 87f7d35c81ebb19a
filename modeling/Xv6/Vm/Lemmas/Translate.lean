import Xv6.Vm.Lemmas.Walk

/-!
# Translations

The translation of a page is read off the entries on the way to it, so what a function does to translations follows from
what it does to entries.
-/

namespace Xv6.Vm

open Xv6.Lib

variable {τ : Type} {L : Extent} {O O' : Nat → Use τ} {m m' : Mem} {f e n v w va a : Nat}

/-! ## Translations and entries -/

theorem bind_lookup_zero (m : Mem) (f v : Nat) : (m.node f 3 (v / 512)).bind (m.lookup v 0) =
    if present (m.entry f 4 v) then some (0, m.entry f 4 v) else none := by
  cases ht : m.node f 3 (v / 512) with
  | none =>
      rw [entry_of_none ht]
      rfl
  | some t =>
      rw [entry_of_node ht]
      rfl

theorem bind_lookup_succ (m : Mem) (f v e n : Nat) :
    (m.node f e (v / 512 ^ (n + 2))).bind (m.lookup v (n + 1)) =
      if present (m.entry f (e + 1) (v / 512 ^ (n + 1))) then
        if large (m.entry f (e + 1) (v / 512 ^ (n + 1))) then some (n + 1, m.entry f (e + 1) (v / 512 ^ (n + 1)))
        else (m.node f (e + 1) (v / 512 ^ (n + 1))).bind (m.lookup v n)
      else none := by
  rw [Mem.node_succ, ← key_up v (n + 1)]
  cases ht : m.node f e (v / 512 ^ (n + 1) / 512) with
  | none =>
      rw [entry_of_none ht]
      rfl
  | some t =>
      rw [entry_of_node ht]
      dsimp only [Option.bind_some, Mem.lookup]
      by_cases hp : present (m.pte t (v / 512 ^ (n + 1) % 512)) = true
      · rw [if_pos hp, if_pos hp]
        by_cases hl : large (m.pte t (v / 512 ^ (n + 1) % 512)) = true
        · rw [if_pos hl, if_pos hl]
        · rw [if_neg hl, if_neg hl, next, if_pos ⟨hp, Or.inr (Bool.eq_false_iff.mpr hl)⟩]
          rfl
      · rw [if_neg hp, if_neg hp]

/-- A new table on the way to a page does not translate it. -/
def Extends (m m' : Mem) (f e k : Nat) : Prop :=
  m'.entry f e k = m.entry f e k ∨ e < 4 ∧ present (m.entry f e k) = false ∧ large (m'.entry f e k) = false

theorem lookup_congr (he : e + n = 3) (hext : ∀ e' < 4, Extends m m' f (e' + 1) (v / 512 ^ (3 - e'))) :
    (m'.node f e (v / 512 ^ (n + 1))).bind (m'.lookup v n) = (m.node f e (v / 512 ^ (n + 1))).bind (m.lookup v n) := by
  induction n generalizing e with
  | zero =>
      have h4 : m'.entry f 4 v = m.entry f 4 v := by
        have h0 := hext 3 (by decide)
        rw [Nat.sub_self, Nat.pow_zero, Nat.div_one] at h0
        exact h0.resolve_right fun h1 => absurd h1.1 (by decide)
      rw [show e = 3 from he, Nat.zero_add, Nat.pow_one, bind_lookup_zero, bind_lookup_zero, h4]
  | succ n ih =>
      have h1 := hext e (by omega)
      rw [show 3 - e = n + 1 by omega] at h1
      rw [bind_lookup_succ m', bind_lookup_succ m, ih (e := e + 1) (by omega)]
      rcases h1 with h1 | ⟨-, habs, hlarge⟩
      · rw [h1]
      · rw [hlarge, habs, if_neg Bool.false_ne_true, if_neg Bool.false_ne_true, Mem.node_succ m, next_of_absent habs]
        split <;> rfl

theorem translate_congr (hext : ∀ e < 4, Extends m m' f (e + 1) (v / 512 ^ (3 - e))) :
    m'.translate f v = m.translate f v := lookup_congr (e := 0) rfl hext

theorem lookup_of_clear (he : e + n = 3) (hclear : Clear m f v) :
    (m.node f e (v / 512 ^ (n + 1))).bind (m.lookup v n) =
      if present (m.entry f 4 v) then some (0, m.entry f 4 v) else none := by
  induction n generalizing e with
  | zero => rw [show e = 3 from he, Nat.zero_add, Nat.pow_one, bind_lookup_zero]
  | succ n ih =>
      have hc := hclear (e + 1) (by omega)
      rw [show 4 - (e + 1) = n + 1 by omega] at hc
      rw [bind_lookup_succ, ← ih (e := e + 1) (by omega)]
      by_cases hp : present (m.entry f (e + 1) (v / 512 ^ (n + 1))) = true
      · rw [if_pos hp, hc hp, if_neg Bool.false_ne_true]
      · rw [if_neg hp, Mem.node_succ, next_of_absent (Bool.eq_false_iff.mpr hp)]
        rfl

theorem translate_of_clear (hclear : Clear m f v) :
    m.translate f v = if present (m.entry f 4 v) then some (0, m.entry f 4 v) else none :=
  lookup_of_clear (e := 0) rfl hclear

theorem clear_of_lookup (he : e + n = 3) (h : (m.node f e (v / 512 ^ (n + 1))).bind (m.lookup v n) = none) :
    (∀ e' < 4, e < e' → present (m.entry f e' (v / 512 ^ (4 - e'))) = true →
      large (m.entry f e' (v / 512 ^ (4 - e'))) = false) ∧ present (m.entry f 4 v) = false := by
  induction n generalizing e with
  | zero =>
      rw [show e = 3 from he, Nat.zero_add, Nat.pow_one, bind_lookup_zero, ite_eq_right_iff] at h
      refine ⟨fun e' h4 h3 => absurd h3 (by omega), ?_⟩
      exact Bool.eq_false_iff.mpr fun hp => Option.some_ne_none _ (h hp)
  | succ n ih =>
      have hstep : (m.node f (e + 1) (v / 512 ^ (n + 1))).bind (m.lookup v n) = none ∧
          (present (m.entry f (e + 1) (v / 512 ^ (n + 1))) = true →
            large (m.entry f (e + 1) (v / 512 ^ (n + 1))) = false) := by
        rw [bind_lookup_succ] at h
        by_cases hp : present (m.entry f (e + 1) (v / 512 ^ (n + 1))) = true
        · rw [if_pos hp] at h
          by_cases hl : large (m.entry f (e + 1) (v / 512 ^ (n + 1))) = true
          · rw [if_pos hl] at h
            cases h
          · rw [if_neg hl] at h
            exact ⟨h, fun _ => Bool.eq_false_iff.mpr hl⟩
        · rw [Mem.node_succ, next_of_absent (Bool.eq_false_iff.mpr hp)]
          exact ⟨rfl, fun h0 => absurd h0 hp⟩
      obtain ⟨hbelow, hpage⟩ := ih (e := e + 1) (by omega) hstep.1
      refine ⟨fun e' h4 hlt hp => ?_, hpage⟩
      by_cases h0 : e' = e + 1
      · subst h0
        rw [show 4 - (e + 1) = n + 1 by omega] at hp ⊢
        exact hstep.2 hp
      · exact hbelow e' h4 (by omega) hp

/-- A page that is not translated has no large page on its way. -/
theorem clear_of_translate (h : m.translate f v = none) : Clear m f v ∧ present (m.entry f 4 v) = false := by
  obtain ⟨h1, h2⟩ := clear_of_lookup (e := 0) rfl h
  refine ⟨fun e he hp => ?_, h2⟩
  by_cases h0 : e = 0
  · subst h0
    rw [entry_zero] at hp
    cases hp
  · exact h1 e he (by omega) hp

/-! ## Finding an entry -/

/-- Without `alloc`, a walk ends at the entry that translates the page. -/
theorem walkLevel_lookup (m : Mem) (va t : Nat) (hn : n ≤ 3) :
    Wp (walkLevel va false n t) (fun r m' => m' = m ∧
      r.map (fun a => m.pte a.1 a.2) = (m.lookup (vpn va) n t).map Prod.snd) (fun _ => False) m := by
  induction n generalizing t with
  | zero =>
      unfold walkLevel Mem.lookup
      rw [wp_bind, wp_get, if_neg Bool.false_ne_true, wp_ite, digit_zero]
      refine ⟨fun hp => ⟨rfl, ?_⟩, fun hp => ⟨rfl, ?_⟩⟩
      · rw [if_pos hp, Option.map_some, Option.map_some]
      · rw [if_neg hp, Option.map_none, Option.map_none]
  | succ n ih =>
      unfold walkLevel Mem.lookup
      rw [digit_eq va hn, wp_bind, wp_get, wp_ite]
      dsimp only
      refine ⟨fun hp => ?_, fun hp => ?_⟩
      · rw [wp_ite, if_pos hp]
        refine ⟨fun hl => ⟨rfl, ?_⟩, fun hl => ?_⟩
        · rw [if_pos hl, Option.map_some, Option.map_some]
        · rw [if_neg hl]
          exact ih _ (Nat.le_of_succ_le hn)
      · rw [if_neg Bool.false_ne_true, wp_pure, if_neg hp, Option.map_none, Option.map_none]
        exact ⟨rfl, rfl⟩

/-- A walk finds an entry exactly for the pages that are translated. -/
theorem walkPml4_isSome (m : Mem) (f va : Nat) : ∃ r, walkPml4 f va false m = .ok (r, m) ∧
    r.isSome = (m.translate f (vpn va)).isSome := by
  obtain ⟨r, m', hok, rfl, heq⟩ := (walkLevel_lookup m va f (Nat.le_refl 3)).returns
  refine ⟨r, hok, ?_⟩
  have h0 := congrArg Option.isSome heq
  rwa [Option.isSome_map, Option.isSome_map] at h0

/-- With `alloc`, a walk to a page that is translated ends at a present entry. -/
theorem walkLevel_present {t : Nat} (hn : n ≤ 3) (h : m.lookup (vpn va) n t ≠ none) :
    Wp (walkLevel va true n t) (fun r m' => m' = m ∧ ∃ a, r = some a ∧ present (m.pte a.1 a.2) = true)
      (fun _ => False) m := by
  induction n generalizing t with
  | zero =>
      unfold Mem.lookup at h
      unfold walkLevel
      rw [wp_bind, wp_get, if_pos rfl, wp_pure, digit_zero]
      refine ⟨rfl, (t, vpn va % 512), rfl, ?_⟩
      by_contra hp
      exact h (if_neg hp)
  | succ n ih =>
      unfold Mem.lookup at h
      unfold walkLevel
      rw [digit_eq va hn, wp_bind, wp_get, wp_ite]
      dsimp only at h ⊢
      refine ⟨fun hp => ?_, fun hp => absurd (if_neg hp) h⟩
      rw [if_pos hp] at h
      rw [wp_ite]
      refine ⟨fun _ => ⟨rfl, _, rfl, hp⟩, fun hl => ?_⟩
      rw [if_neg hl] at h
      exact ih (Nat.le_of_succ_le hn) h

/-! ## Changing an entry -/

/-- New tables translate nothing. -/
theorem Grown.translate (h : Grown L f v O m O' m') (hw : L.In 4 w) : m'.translate f w = m.translate f w := by
  refine translate_congr fun e he => ?_
  rcases h.entry (e + 1) (w / 512 ^ (3 - e)) (hw.path (by omega)) with h0 | ⟨h4, -, habs, x, -, h0⟩
  · exact Or.inl h0
  · refine Or.inr ⟨h4, habs, ?_⟩
    rw [h0]
    exact large_add x (by decide)

/-- The entry of a page is stored: the page is translated by it, and the others as before. -/
theorem Frames.translate_store {t b : Nat} (h : Frames L O m) (ht : O t = .node f 3 (v / 512)) (hb : a % 2 ^ 64 = b)
    (hp : present b = true) (hclear : Clear m f v) (hw : L.In 4 w) :
    (m.store t (v % 512) a).translate f w = if w = v then some (0, b) else m.translate f w := by
  have hentry : ∀ {e k}, L.In e k → (m.store t (v % 512) a).entry f e k =
      if e = 3 + 1 ∧ k = 512 * (v / 512) + v % 512 then b else m.entry f e k := fun hin =>
    h.entry_store ht (Nat.mod_lt v (by decide)) hb (fun h4 => absurd h4 (by decide)) hin
  rw [Nat.div_add_mod] at hentry
  by_cases hwv : w = v
  · subst hwv
    have hclear' : Clear (m.store t (w % 512) a) f w := fun e he hpe => by
      have hin : L.In e (w / 512 ^ (4 - e)) := hw.path (by omega)
      rw [hentry hin, if_neg fun h0 => by omega] at hpe ⊢
      exact hclear e he hpe
    have hnew : (m.store t (w % 512) a).entry f 4 w = b := (hentry hw).trans (if_pos ⟨rfl, rfl⟩)
    rw [if_pos rfl, translate_of_clear hclear', hnew, if_pos hp]
  · rw [if_neg hwv]
    refine translate_congr fun e he => Or.inl ?_
    rw [hentry (hw.path (by omega)), if_neg]
    rintro ⟨h4, hk⟩
    rw [show e = 3 by omega, Nat.sub_self, Nat.pow_zero, Nat.div_one] at hk
    exact hwv hk

/-- How a store through a pointer of the user can halt. -/
def storeFaults : List Halt := [.wild, .panic "kernel page fault"]

theorem storeByte_halts (m : Mem) (f va : Nat) (c : UInt8) :
    Wp (storeByte f va c) (fun _ _ => True) (· ∈ storeFaults) m := by
  unfold storeByte
  rw [wp_ite]
  refine ⟨fun _ => List.mem_cons_self, fun _ => ?_⟩
  refine Wp.seq (walkLevel_lookup m va f (Nat.le_refl 3)) (fun _ h0 => h0.elim) fun r m₁ _ => ?_
  cases r with
  | none => exact List.mem_cons_of_mem _ List.mem_cons_self
  | some a =>
      dsimp only
      rw [wp_bind, wp_get, wp_setPage]
      trivial

theorem storeBytes_halts (f : Nat) (l : List UInt8) (va : Nat) (m : Mem) :
    Wp (storeBytes f va l) (fun _ _ => True) (· ∈ storeFaults) m := by
  induction l generalizing va m with
  | nil => trivial
  | cons c l ih => exact Wp.bind (storeByte_halts m f va c) fun _ m₁ _ => ih (va + 1) m₁

end Xv6.Vm
