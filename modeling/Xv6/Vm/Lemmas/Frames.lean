import Xv6.Vm.Lemmas.Words

/-!
# Steps of the memory

Each change that the functions of `kalloc.c` and `vm.c` make to the memory, and the change of the uses that describes
it.
-/

namespace Xv6.Vm

open Xv6.Lib

variable {τ : Type} {L : Extent} {O O' : Nat → Use τ} {m m' : Mem} {f g t x y e e' k k' i a : Nat} {u : Use τ}

/-! ## Places -/

theorem Extent.In.up (h : L.In (e + 1) k) : L.In e (k / 512) := Radix.Places.In.up (P := L.places) h

theorem Extent.in_root (L : Extent) : L.In 0 0 := ⟨Nat.zero_le 4, by rw [L.root]; exact Nat.one_pos⟩

theorem Extent.In.zero (h : L.In 0 k) : k = 0 := Nat.lt_one_iff.mp (L.root ▸ h.2)

theorem Mem.node_zero (m : Mem) (f k : Nat) : m.node f 0 k = some f := rfl

theorem Mem.node_succ (m : Mem) (f e k : Nat) : m.node f (e + 1) k = next (e + 1) (m.entry f (e + 1) k) :=
  Radix.node_eq (next_zero _)

theorem Mem.node_four (m : Mem) (f k : Nat) :
    m.node f 4 k = if present (m.entry f 4 k) then some (pteAddr (m.entry f 4 k)) else none := by
  rw [Mem.node_succ, next_four]

theorem entry_zero (m : Mem) (f k : Nat) : m.entry f 0 k = 0 := rfl

theorem entry_of_node (h : m.node f e (k / 512) = some t) : m.entry f (e + 1) k = m.pte t (k % 512) :=
  Radix.slot_of_node h

theorem entry_child (h : m.node f e k = some t) (hi : i < 512) : m.entry f (e + 1) (512 * k + i) = m.pte t i := by
  rw [entry_of_node (t := t) (by rwa [Radix.child_div hi]), Radix.child_mod hi]

theorem entry_of_none (h : m.node f e (k / 512) = none) : m.entry f (e + 1) k = 0 := by
  rw [Mem.entry, Radix.slot_succ, show Radix.node 512 next m.pte f e (k / 512) = none from h]
  rfl

/-! ## What the uses say -/

theorem Frames.table (h : Frames L O m) (hf : O f = .node f 0 0) (hin : L.In e k) (he : e < 4) :
    m.node f e k = some x ↔ O x = .node f e k :=
  h.tree hf hin (Nat.le_trans (Nat.lt_succ_iff.mp he) L.tables)

theorem Frames.place (h : Frames L O m) (hx : O x = .node f e k) : m.node f e k = some x :=
  (h.tree (h.live hx).1 (h.live hx).2.1 (h.live hx).2.2).mpr hx

/-- A table has one place. -/
theorem Frames.one_place (h : Frames L O m) (ht : O t = .node f e k) (he : e' < 4) (hin : L.In e' k')
    (hn : m.node f e' k' = some t) : e' = e ∧ k' = k := by
  have hu := (h.table (h.live ht).1 hin he).mp hn
  rw [ht] at hu
  cases hu
  exact ⟨rfl, rfl⟩

theorem Frames.node_congr (h : Frames L O m) (hf : O f = .node f 0 0)
    (hsame : ∀ t e k, O t = .node f e k → e < 4 → ∀ j, m'.pte t j = m.pte t j) (hin : L.In e k) :
    m'.node f e k = m.node f e k := by
  refine Radix.node_congr (P := L.places) (fun e' k' t he' hin' hn => ?_) hin
  have he4 : e' < 4 := Nat.lt_of_lt_of_le he' hin.1
  exact hsame t e' k' ((h.table hf hin' he4).mp hn) he4

theorem Frames.entry_congr (h : Frames L O m) (hf : O f = .node f 0 0)
    (hsame : ∀ t e k, O t = .node f e k → e < 4 → ∀ j, m'.pte t j = m.pte t j) (hin : L.In e k) :
    m'.entry f e k = m.entry f e k := by
  refine Radix.slot_congr (P := L.places) (fun e' k' t he' hin' hn => ?_) hin
  have he4 : e' < 4 := Nat.lt_of_lt_of_le he' hin.1
  exact hsame t e' k' ((h.table hf hin' he4).mp hn) he4

/-! ## The free list -/

theorem Chain.congr {pages pages' : Nat → Bytes} :
    ∀ {l : List Nat} {o : Option Nat}, Chain pages o l → (∀ x ∈ l, pages' x = pages x) → Chain pages' o l
  | [], _, h, _ => h
  | x :: l, o, ⟨h1, h2⟩, hsame => by
    refine ⟨h1, ?_⟩
    rw [hsame x List.mem_cons_self]
    exact h2.congr fun y hy => hsame y (List.mem_cons_of_mem x hy)

theorem Frames.freeList (h : Frames L O m) (hx : m.freeList = some x) : O x = .free := by
  obtain ⟨l, hc, -, hm⟩ := h.chain
  rw [← hm]
  cases l with
  | nil => exact absurd (hx.symm.trans hc) (Option.some_ne_none x)
  | cons z l =>
      obtain rfl := Option.some.inj (hx.symm.trans hc.1)
      exact List.mem_cons_self

theorem Frames.no_free (h : Frames L O m) (hx : m.freeList = none) (x : Nat) : O x ≠ .free := by
  obtain ⟨l, hc, -, hm⟩ := h.chain
  rw [Ne, ← hm]
  cases l with
  | nil => exact List.not_mem_nil
  | cons z l => exact absurd (hx.symm.trans hc.1) (fun h0 => Option.some_ne_none z h0.symm)

/-! ## Steps -/

/-- The free list changes, and the address spaces do not. -/
theorem Frames.relist (h : Frames L O m)
    (hchain : ∃ l, Chain m'.pages m'.freeList l ∧ l.Nodup ∧ ∀ x, x ∈ l ↔ O' x = .free)
    (hnode : ∀ x f e k, O' x = .node f e k ↔ O x = .node f e k) (hkernel : ∀ x, O' x ≠ .kernel → O x ≠ .kernel)
    (hb : m'.bumpEnd = m.bumpEnd) (htab : ∀ x f e k, O x = .node f e k → e < 4 → m'.pages x = m.pages x) :
    Frames L O' m' := by
  have hpte : ∀ f t e k, O t = .node f e k → e < 4 → ∀ j, m'.pte t j = m.pte t j := fun f t e k ht he j => by
    rw [Mem.pte, htab t f e k ht he, Mem.pte]
  refine ⟨hchain, fun hf hin hd => ?_, fun hx => ?_, fun hd f e k hf hin he => ?_, fun hx hx3 => ?_⟩
  · rw [hnode] at hf ⊢
    rw [h.node_congr hf (hpte _) hin]
    exact h.tree hf hin hd
  · rw [hnode] at hx ⊢
    exact h.live hx
  · rw [hnode] at hf
    rw [h.entry_congr hf (hpte _) hin]
    exact h.small hd hf hin he
  · rw [hb]
    exact h.range (hkernel _ hx) fun hd f e k h0 => hx3 hd f e k ((hnode _ f e k).mpr h0)

/-- Nothing that the uses speak of changes. -/
theorem Frames.congr (h : Frames L O m) (hl : m'.freeList = m.freeList) (hb : m'.bumpEnd = m.bumpEnd)
    (hfree : ∀ x, O x = .free → m'.pages x = m.pages x)
    (htab : ∀ x f e k, O x = .node f e k → e < 4 → m'.pages x = m.pages x) : Frames L O m' := by
  obtain ⟨l, hc, hn, hm⟩ := h.chain
  refine h.relist ⟨l, ?_, hn, hm⟩ (fun _ _ _ _ => Iff.rfl) (fun _ h0 => h0) hb htab
  rw [hl]
  exact hc.congr fun x hx => hfree x ((hm x).mp hx)

/-- A page, or a frame that somebody keeps, gets other contents. -/
theorem Frames.write (h : Frames L O m) (hfree : O x ≠ .free) (htab : ∀ f e k, O x = .node f e k → 4 ≤ e) (b : Bytes) :
    Frames L O (m.write x b) :=
  h.congr rfl rfl (fun z hz => upd_of_ne (fun h0 : z = x => hfree (h0 ▸ hz)) _ _)
    fun z f e k hz he => upd_of_ne (fun h0 : z = x => Nat.not_le.mpr he (htab f e k (h0 ▸ hz))) _ _

theorem Frames.write_loose (h : Frames L O m) (hx : (O x).Loose) (b : Bytes) : Frames L O (m.write x b) :=
  h.write hx.2.1 (fun f e k h0 => absurd h0 (hx.2.2 f e k)) b

theorem Use.loose_held : (Use.held : Use τ).Loose := ⟨nofun, nofun, nofun⟩

theorem Use.loose_lost : (Use.lost : Use τ).Loose := ⟨nofun, nofun, nofun⟩

theorem Use.loose_kept (t : τ) : (Use.kept t).Loose := ⟨nofun, nofun, nofun⟩

/-- Uses that differ only in what loose frames are used for describe the same memories. -/
theorem Frames.recast (h : Frames L O m) (hfree : ∀ x, O' x = .free ↔ O x = .free)
    (hkernel : ∀ x, O' x ≠ .kernel → O x ≠ .kernel) (hnode : ∀ x f e k, O' x = .node f e k ↔ O x = .node f e k) :
    Frames L O' m := by
  obtain ⟨l, hc, hn, hm⟩ := h.chain
  exact h.relist ⟨l, hc, hn, fun x => by rw [hm, hfree]⟩ hnode hkernel rfl fun _ _ _ _ _ _ => rfl

/-- A frame that has no place gets a use that is none. -/
theorem upd_node_iff (hx : ∀ f e k, O x ≠ .node f e k) (hu : ∀ f e k, u ≠ .node f e k) (z f e k : Nat) :
    upd O x u z = .node f e k ↔ O z = .node f e k := by
  by_cases hz : z = x
  · subst hz
    rw [upd_self]
    exact iff_of_false (hu f e k) (hx f e k)
  · rw [upd_of_ne hz]

theorem upd_kernel (hx : O x ≠ .kernel) (z : Nat) (hz : upd O x u z ≠ .kernel) : O z ≠ .kernel := by
  by_cases hzx : z = x
  · subst hzx
    exact hx
  · rwa [upd_of_ne hzx] at hz

theorem Frames.relabel (h : Frames L O m) (hx : (O x).Loose) (hu : u.Loose) : Frames L (upd O x u) m := by
  refine h.recast (fun z => ?_) (upd_kernel hx.1) (upd_node_iff hx.2.2 hu.2.2)
  by_cases hz : z = x
  · subst hz
    rw [upd_self]
    exact iff_of_false hu.2.1 hx.2.1
  · rw [upd_of_ne hz]

/-- The first frame of the free list is taken. -/
theorem Frames.pop (h : Frames L O m) (hx : m.freeList = some x) (hu : u.Loose) (b : Bytes) :
    Frames L (upd O x u) ⟨upd m.pages x b, ofWord ((m.pages x).le 0 8), m.bumpEnd, m.kpml4⟩ := by
  have hxf := h.freeList hx
  obtain ⟨l, hc, hn, hm⟩ := h.chain
  cases l with
  | nil => exact absurd (hx.symm.trans hc) (Option.some_ne_none x)
  | cons z l =>
      obtain ⟨h1, h2⟩ := hc
      obtain rfl := Option.some.inj (hx.symm.trans h1)
      have hnx : x ∉ l := (List.nodup_cons.mp hn).1
      have hchain : Chain (upd m.pages x b) (ofWord ((m.pages x).le 0 8)) l :=
        h2.congr fun z hz => upd_of_ne (fun h0 : z = x => hnx (h0 ▸ hz)) _ _
      refine h.relist ⟨l, ?_, (List.nodup_cons.mp hn).2, fun z => ?_⟩
        (upd_node_iff (fun f e k => by rw [hxf]; nofun) hu.2.2) (upd_kernel (by rw [hxf]; nofun)) rfl
          fun z f e k hz _ => ?_
      · dsimp only
        exact hchain
      · by_cases hz : z = x
        · subst hz
          rw [upd_self]
          exact iff_of_false hnx hu.2.1
        · rw [upd_of_ne hz, ← hm, List.mem_cons]
          exact ⟨Or.inr, fun h0 => h0.resolve_left hz⟩
      · exact upd_of_ne (fun h0 : z = x => by rw [h0, hxf] at hz; cases hz) _ _

/-- A loose frame goes to the free list. -/
theorem Frames.push (h : Frames L O m) (hx : (O x).Loose) :
    Frames L (upd O x .free) (m.freed x) := by
  obtain ⟨l, hc, hn, hm⟩ := h.chain
  have hnx : x ∉ l := fun h0 => hx.2.1 ((hm x).mp h0)
  refine h.relist ⟨x :: l, ⟨rfl, ?_⟩, List.nodup_cons.mpr ⟨hnx, hn⟩, fun z => ?_⟩ (upd_node_iff hx.2.2 nofun)
    (upd_kernel hx.1) rfl fun z f e k hz _ => ?_
  · have hw : ofWord ((upd m.pages x (Bytes.putLe (fun _ => 1) 0 8 (word m.freeList)) x).le 0 8) = m.freeList := by
      rw [upd_self, le_putLe]
      refine ofWord_word fun z hz => (h.range (x := z) ?_ fun _ f e k => ?_).2.1
      · rw [h.freeList hz]
        nofun
      · rw [h.freeList hz]
        nofun
    change Chain (upd m.pages x _) (ofWord ((upd m.pages x _ x).le 0 8)) l
    rw [hw]
    exact hc.congr fun z hz => upd_of_ne (fun h0 : z = x => hnx (h0 ▸ hz)) _ _
  · by_cases hz : z = x
    · subst hz
      rw [upd_self]
      exact iff_of_true List.mem_cons_self rfl
    · rw [upd_of_ne hz, ← hm, List.mem_cons]
      exact ⟨fun h0 => h0.resolve_left hz, Or.inr⟩
  · exact upd_of_ne (fun h0 : z = x => hx.2.2 f e k (h0 ▸ hz)) _ _

/-! ## Steps of an address space -/

/-- A frame without entries for the user becomes the root of a space. -/
theorem Frames.root (h : Frames L O m) (hy : O y = .held) (hempty : ∀ i < L.lim 1, m.pte y i = 0) :
    Frames L (upd O y (.node y 0 0)) m := by
  obtain ⟨l, hc, hn, hm⟩ := h.chain
  have hlive : ∀ {z f e k}, O z = .node f e k → f ≠ y := fun hz h0 => by
    have := (h.live hz).1
    rw [h0, hy] at this
    cases this
  -- below the new root there is nothing
  have hnil : ∀ e k, L.In (e + 1) k → m.node y (e + 1) k = none ∧ m.entry y (e + 1) k = 0 := by
    intro e
    induction e with
    | zero =>
        intro k hin
        have h0 : m.entry y 1 k = 0 := by
          have hk : k / 512 = 0 := hin.up.zero
          rw [entry_of_node (t := y) (Mem.node_zero m y _)]
          have hk5 : k < 512 := (Nat.div_eq_zero_iff_lt (by decide)).mp hk
          rw [Nat.mod_eq_of_lt hk5]
          exact hempty k hin.2
        exact ⟨by rw [Mem.node_succ, h0, next_zero], h0⟩
    | succ e ih =>
        intro k hin
        have h0 := entry_of_none (ih (k / 512) hin.up).1
        exact ⟨by rw [Mem.node_succ, h0, next_zero], h0⟩
  have hnode : ∀ z f e k, upd O y (.node y 0 0) z = .node f e k ↔
      (z = y ∧ f = y ∧ e = 0 ∧ k = 0) ∨ O z = .node f e k := fun z f e k => by
    by_cases hz : z = y
    · subst hz
      rw [upd_self, hy]
      constructor
      · intro h0
        cases h0
        exact Or.inl ⟨rfl, rfl, rfl, rfl⟩
      · rintro (⟨-, rfl, rfl, rfl⟩ | h0)
        · rfl
        · cases h0
    · rw [upd_of_ne hz]
      exact ⟨Or.inr, fun h0 => h0.resolve_left fun h1 => hz h1.1⟩
  refine ⟨⟨l, hc, hn, fun z => ?_⟩, fun {f e k z} hf hin hd => ?_, fun {z f e k} hz => ?_, fun hd f e k hf hin he => ?_,
    fun {z} hz hz3 => ?_⟩
  · rw [hm]
    by_cases hz : z = y
    · subst hz
      rw [upd_self, hy]
      exact iff_of_false nofun nofun
    · rw [upd_of_ne hz]
  · rw [hnode]
    by_cases hfy : f = y
    · subst hfy
      cases e with
      | zero =>
          obtain rfl := hin.zero
          rw [Mem.node_zero]
          constructor
          · intro h0
            obtain rfl := Option.some.inj h0
            exact Or.inl ⟨rfl, rfl, rfl, rfl⟩
          · rintro (⟨rfl, -⟩ | h0)
            · rfl
            · exact absurd rfl (hlive h0)
      | succ e =>
          rw [(hnil e k hin).1]
          refine iff_of_false nofun ?_
          rintro (⟨-, -, h0, -⟩ | h0)
          · cases h0
          · exact absurd rfl (hlive h0)
    · rw [upd_of_ne hfy] at hf
      rw [h.tree hf hin hd]
      exact ⟨Or.inr, fun h0 => h0.resolve_left fun h1 => hfy h1.2.1⟩
  · rw [hnode] at hz
    rcases hz with ⟨-, rfl, rfl, rfl⟩ | hz
    · exact ⟨upd_self _ _ _, L.in_root, Nat.zero_le _⟩
    · rw [upd_of_ne (hlive hz)]
      exact h.live hz
  · by_cases hfy : f = y
    · subst hfy
      cases e with
      | zero => exact large_zero
      | succ e =>
          rw [(hnil e k hin).2]
          exact large_zero
    · rw [upd_of_ne hfy] at hf
      exact h.small hd hf hin he
  · exact h.range (upd_kernel (by rw [hy]; nofun) z hz) fun hd f e k h0 =>
      hz3 hd f e k ((hnode z f e k).mpr (Or.inr h0))

/-- A space is given up: its frames become loose. -/
theorem Frames.abandon (h : Frames L O m) (hd4 : L.depth = 4)
    (hO : ∀ x, O' x = O x ∨ (∃ e k, O x = .node f e k) ∧ (O' x).Loose) (hnone : ∀ x e k, O' x ≠ .node f e k) :
    Frames L O' m := by
  obtain ⟨l, hc, hn, hm⟩ := h.chain
  have hnode : ∀ z g e k, O' z = .node g e k ↔ g ≠ f ∧ O z = .node g e k := fun z g e k => by
    rcases hO z with h0 | ⟨⟨e0, k0, h0⟩, hl⟩
    · rw [h0]
      exact ⟨fun h1 => ⟨fun h2 => hnone z e k (by rw [h0, h1, h2]), h1⟩, fun h1 => h1.2⟩
    · refine iff_of_false (hl.2.2 g e k) fun h1 => h1.1 ?_
      rw [h0] at h1
      cases h1.2
      rfl
  refine ⟨⟨l, hc, hn, fun z => ?_⟩, fun hf hin hd => ?_, fun hz => ?_, fun hd f e k hf hin he => ?_,
    fun {z} hz hz3 => ?_⟩
  · rw [hm]
    rcases hO z with h0 | ⟨⟨e0, k0, h0⟩, hl⟩
    · rw [h0]
    · rw [h0]
      exact iff_of_false nofun hl.2.1
  · rw [hnode] at hf ⊢
    rw [h.tree hf.2 hin hd]
    exact ⟨fun h0 => ⟨hf.1, h0⟩, fun h0 => h0.2⟩
  · rw [hnode] at hz ⊢
    exact ⟨⟨hz.1, (h.live hz.2).1⟩, (h.live hz.2).2⟩
  · exact h.small hd ((hnode _ _ _ _).mp hf).2 hin he
  · refine h.range (x := z) (fun h0 => ?_) fun hd => absurd (hd4.symm.trans hd) (by decide)
    rcases hO z with h1 | ⟨⟨e0, k0, h1⟩, -⟩
    · exact hz (h1.trans h0)
    · rw [h0] at h1
      cases h1

section

variable {b : Nat}

/-- An entry of a table is stored, in the place of one that leads to no table. -/
theorem Frames.entry_store (h : Frames L O m) (ht : O t = .node f e k) (hi : i < 512) (hb : a % 2 ^ 64 = b)
    (hbelow : e + 1 < 4 → next (e + 1) (m.pte t i) = none ∧ ∀ y, next (e + 1) b = some y →
      y ≠ t ∧ ∀ j < 512, m.pte y j = 0)
    (hin : L.In e' k') : (m.store t i a).entry f e' k' =
      if e' = e + 1 ∧ k' = 512 * k + i then b else m.entry f e' k' := by
  unfold Mem.entry
  rw [pte_store, hb]
  exact Radix.slot_setSlot (P := L.places) next_zero hi (h.place ht)
    (fun _ _ he' hin' hn => h.one_place ht he' hin' hn) hbelow hin

theorem pages_store (h : x ≠ t) (m : Mem) (i a : Nat) : (m.store t i a).pages x = m.pages x := upd_of_ne h _ _

/-- The frame below a stored entry gets its use from that entry; all others keep theirs. -/
theorem Frames.store (h : Frames L O m) (ht : O t = .node f e k) (hi : i < 512) (hb : a % 2 ^ 64 = b)
    (hin : L.In (e + 1) (512 * k + i))
    (hbelow : e + 1 < 4 → next (e + 1) (m.pte t i) = none ∧ ∀ y, next (e + 1) b = some y →
      y ≠ t ∧ ∀ j < 512, m.pte y j = 0)
    (hlarge : L.depth = 4 → e + 1 < 4 → large b = false) (hfree : ∀ x, O' x = .free ↔ O x = .free)
    (hkernel : ∀ x, O' x ≠ .kernel → O x ≠ .kernel)
    (hnode : ∀ x g e' k', O' x = .node g e' k' ↔ if g = f ∧ e' = e + 1 ∧ k' = 512 * k + i
      then e + 1 ≤ L.depth ∧ next (e + 1) b = some x else O x = .node g e' k') : Frames L O' (m.store t i a) := by
  obtain ⟨l, hc, hn, hm⟩ := h.chain
  have hroot : ∀ {g}, O' g = .node g 0 0 ↔ O g = .node g 0 0 := fun {g} => by
    rw [hnode, if_neg fun h0 => Nat.succ_ne_zero e h0.2.1.symm]
  have hoff : ∀ g, g ≠ f → ∀ x e' k', O x = .node g e' k' → e' < 4 → ∀ j, (m.store t i a).pte x j = m.pte x j :=
    fun g hg x e' k' hx _ j => pte_write_of_ne (fun h0 => hg (by rw [h0, ht] at hx; cases hx; rfl)) m _ j
  refine ⟨⟨l, ?_, hn, fun x => by rw [hm, hfree]⟩, fun {g e' k' x} hg hin' hd => ?_, fun {x g e' k'} hx => ?_,
    fun hd g e' k' hg hin' he' => ?_, fun {x} hx hx3 => h.range (hkernel _ hx) fun hd g e' k' h0 => ?_⟩
  · refine hc.congr fun x hx => upd_of_ne (fun h0 => ?_) _ _
    rw [hm, h0, ht] at hx
    cases hx
  · rw [hroot] at hg
    rw [hnode]
    by_cases hgf : g = f
    · subst hgf
      cases e' with
      | zero =>
          rw [if_neg fun h0 => Nat.succ_ne_zero e h0.2.1.symm, Mem.node_zero, ← Mem.node_zero m g k']
          exact h.tree hg hin' hd
      | succ e' =>
          rw [Mem.node_succ, h.entry_store ht hi hb hbelow hin']
          by_cases hc : e' + 1 = e + 1 ∧ k' = 512 * k + i
          · rw [if_pos hc, if_pos ⟨rfl, hc⟩, ← hc.1]
            exact ⟨fun h0 => ⟨hd, h0⟩, fun h0 => h0.2⟩
          · rw [if_neg hc, if_neg fun h0 => hc h0.2, ← Mem.node_succ]
            exact h.tree hg hin' hd
    · rw [if_neg fun h0 => hgf h0.1, h.node_congr hg (hoff g hgf) hin']
      exact h.tree hg hin' hd
  · rw [hroot]
    rw [hnode] at hx
    split at hx
    · rename_i hc
      obtain ⟨rfl, rfl, rfl⟩ := hc
      exact ⟨(h.live ht).1, hin, hx.1⟩
    · exact h.live hx
  · rw [hroot] at hg
    by_cases hgf : g = f
    · subst hgf
      rw [h.entry_store ht hi hb hbelow hin']
      split
      · rename_i hc
        exact hlarge hd (hc.1 ▸ he')
      · exact h.small hd hg hin' he'
    · rw [h.entry_congr hg (hoff g hgf) hin']
      exact h.small hd hg hin' he'
  · -- a table keeps its place
    refine hx3 hd g e' k' ((hnode x g e' k').mpr ?_)
    rw [if_neg]
    · exact h0
    · rintro ⟨rfl, rfl, rfl⟩
      have he4 : e + 1 < 4 := Nat.lt_succ_of_le (hd ▸ (h.live h0).2.2)
      have hp := h.place h0
      rw [Mem.node_succ, entry_child (h.place ht) hi, (hbelow he4).1] at hp
      cases hp

/-- A frame is linked to a place where nothing was. -/
theorem Frames.link (h : Frames L O m) (ht : O t = .node f e k) (hi : i < 512) (hb : a % 2 ^ 64 = b)
    (hin : L.In (e + 1) (512 * k + i)) (hd : e + 1 ≤ L.depth) (hold : next (e + 1) (m.pte t i) = none)
    (hy : O y = .held) (hnew : next (e + 1) b = some y) (hempty : e + 1 < 4 → ∀ j < 512, m.pte y j = 0)
    (hlarge : L.depth = 4 → e + 1 < 4 → large b = false) :
    Frames L (upd O y (.node f (e + 1) (512 * k + i))) (m.store t i a) := by
  have hyt : y ≠ t := fun h0 => by rw [h0, ht] at hy; cases hy
  have hgone : ∀ x, O x ≠ .node f (e + 1) (512 * k + i) := fun x hx => by
    have h0 := h.place hx
    rw [Mem.node_succ, entry_child (h.place ht) hi, hold] at h0
    cases h0
  refine h.store ht hi hb hin (fun h4 => ⟨hold, fun z hz => ?_⟩) hlarge (fun x => ?_) (upd_kernel (by rw [hy]; nofun))
    fun x g e' k' => ?_
  · obtain rfl := Option.some.inj (hnew.symm.trans hz)
    exact ⟨hyt, hempty h4⟩
  · by_cases hx : x = y
    · subst hx
      rw [upd_self, hy]
      exact iff_of_false nofun nofun
    · rw [upd_of_ne hx]
  · by_cases hx : x = y
    · subst hx
      rw [upd_self]
      split
      · rename_i hc
        obtain ⟨rfl, rfl, rfl⟩ := hc
        exact iff_of_true rfl ⟨hd, hnew⟩
      · rename_i hc
        rw [hy]
        refine iff_of_false (fun h0 => hc ?_) nofun
        cases h0
        exact ⟨rfl, rfl, rfl⟩
    · rw [upd_of_ne hx]
      split
      · rename_i hc
        obtain ⟨rfl, rfl, rfl⟩ := hc
        refine iff_of_false (hgone x) fun h0 => hx ?_
        exact Option.some.inj (h0.2.symm.trans hnew)
      · rfl

/-- An entry of a page changes, and leads to the same frame. -/
theorem Frames.alter (h : Frames L O m) (ht : O t = .node f 3 k) (hi : i < 512) (hb : a % 2 ^ 64 = b)
    (hin : L.In 4 (512 * k + i)) (hsame : L.depth = 4 → next 4 b = next 4 (m.pte t i)) :
    Frames L O (m.store t i a) := by
  refine h.store ht hi hb hin (fun h4 => absurd h4 (by decide)) (fun _ h4 => absurd h4 (by decide))
    (fun _ => Iff.rfl) (fun _ h0 => h0) fun x g e' k' => ?_
  split
  · rename_i hc
    obtain ⟨rfl, rfl, rfl⟩ := hc
    by_cases hd : 4 ≤ L.depth
    · have hd4 : L.depth = 4 := Nat.le_antisymm L.pages hd
      rw [hsame hd4, ← entry_child (h.place ht) hi, ← Mem.node_succ, h.tree (h.live ht).1 hin hd]
      exact ⟨fun h0 => ⟨hd, h0⟩, fun h0 => h0.2⟩
    · exact iff_of_false (fun h0 => hd (h.live h0).2.2) fun h0 => hd h0.1
  · rfl

/-- The frame of a page is taken from its place. -/
theorem Frames.unlink (h : Frames L O m) (ht : O t = .node f 3 k) (hi : i < 512) (hy : O y = .node f 4 (512 * k + i)) :
    Frames L (upd O y .held) (m.store t i 0) := by
  have hin := (h.live hy).2.1
  refine h.store ht hi (Nat.zero_mod _) hin (fun h4 => absurd h4 (by decide))
    (fun _ h4 => absurd h4 (by decide)) (fun x => ?_) (upd_kernel (by rw [hy]; nofun)) fun x g e' k' => ?_
  · by_cases hx : x = y
    · subst hx
      rw [upd_self, hy]
      exact iff_of_false nofun nofun
    · rw [upd_of_ne hx]
  · rw [next_zero]
    by_cases hx : x = y
    · subst hx
      rw [upd_self, hy]
      split
      · exact iff_of_false nofun fun h0 => by cases h0.2
      · rename_i hc
        refine iff_of_false nofun fun h0 => hc ?_
        cases h0
        exact ⟨rfl, rfl, rfl⟩
    · rw [upd_of_ne hx]
      split
      · rename_i hc
        obtain ⟨rfl, rfl, rfl⟩ := hc
        refine iff_of_false (fun h0 => hx ?_) fun h0 => by cases h0.2
        exact Option.some.inj ((h.place h0).symm.trans (h.place hy))
      · rfl

end

end Xv6.Vm
