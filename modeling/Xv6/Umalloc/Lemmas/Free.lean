import Xv6.Umalloc.Lemmas.Blocks

/-!
# Giving a block back

The loop of `free` stops at the last place below the block. There the block is put into the list, and merged with its
neighbours where it touches them.
-/

namespace Xv6.Umalloc

open Xv6.Lib

variable {base a : Nat} {m m' : Bytes} {b b' p : Block} {l r r' fs : List Block} {s : Heap}

/-! ## Merging -/

/-- The block `b` with the blocks `r` behind it, of which the first may touch it. -/
def joined (b : Block) : List Block → Block × List Block
  | [] => (b, [])
  | c :: r => if b.fin = c.addr then (⟨b.addr, b.units + c.units⟩, r) else (b, c :: r)

/-- The block `b` with the blocks `r` behind `p`, which may touch it. -/
def joinedTo (p b : Block) (r : List Block) : List Block :=
  if p.fin = b.addr then ⟨p.addr, p.units + b.units⟩ :: r else p :: b :: r

theorem mem_joinedTo (p b : Block) (r : List Block) : p.addr ∈ (joinedTo p b r).map Block.addr := by
  rw [joinedTo]
  split <;> exact List.mem_cons_self

/-- What merging keeps of the blocks `b` and `r`. -/
structure Joined (b : Block) (r : List Block) (b' : Block) (r' : List Block) : Prop where
  addr : b'.addr = b.addr
  units : b.units ≤ b'.units
  order : (b' :: r').Pairwise Block.Before
  rest : ∀ c ∈ r', c ∈ r
  covers : ∀ a, Covers (b' :: r') a ↔ Covers (b :: r) a
  bound : ∀ n, (∀ c ∈ b :: r, c.fin < n) → b'.fin < n

theorem joined_spec (hr : r.Pairwise Block.Before) (hu : ∀ c ∈ b :: r, 0 < c.units) (hb : ∀ c ∈ r, b.fin ≤ c.addr) :
    Joined b r (joined b r).1 (joined b r).2 := by
  have hfin : b.fin = b.addr + 16 * b.units := rfl
  have hpos := hu b List.mem_cons_self
  cases r with
  | nil =>
      exact ⟨rfl, Nat.le_refl _, List.pairwise_singleton _ _, fun c hc => hc, fun a => Iff.rfl,
        fun n h => h b List.mem_cons_self⟩
  | cons c r =>
      have hc := hb c List.mem_cons_self
      have hcpos := hu c (by simp)
      have hcfin : c.fin = c.addr + 16 * c.units := rfl
      obtain ⟨hbefore, hr⟩ := List.pairwise_cons.mp hr
      by_cases htouch : b.fin = c.addr
      · rw [show joined b (c :: r) = (⟨b.addr, b.units + c.units⟩, r) from if_pos htouch]
        -- the new block ends where `c` ended
        have hend : (⟨b.addr, b.units + c.units⟩ : Block).fin = c.fin := by
          simp only [Block.fin] at htouch ⊢
          omega
        refine ⟨rfl, Nat.le_add_right _ _, List.pairwise_cons.mpr ⟨fun d hd => ?_, hr⟩,
          fun d hd => List.mem_cons_of_mem c hd, fun a => ?_, fun n h => ?_⟩
        · have hcd := hbefore d hd
          refine ⟨?_, ?_⟩
          · rw [hend]
            exact hcd.1
          · have := hcd.2
            show b.addr + 16 ≤ d.addr
            omega
        · simp only [covers_cons, ← or_assoc]
          refine or_congr ?_ Iff.rfl
          simp only [Block.Has, hend]
          omega
        · rw [hend]
          exact h c (by simp)
      · rw [show joined b (c :: r) = (b, c :: r) from if_neg htouch]
        show Joined b (c :: r) b (c :: r)
        refine ⟨rfl, Nat.le_refl _, List.pairwise_cons.mpr ⟨fun d hd => ?_, List.pairwise_cons.mpr ⟨hbefore, hr⟩⟩,
          fun d hd => hd, fun a => Iff.rfl, fun n h => h b List.mem_cons_self⟩
        obtain rfl | hd := List.mem_cons.mp hd
        · exact ⟨by omega, by omega⟩
        · have hcd := hbefore d hd
          have := hcd.1
          exact ⟨by omega, by omega⟩

/-- What putting the block `b` into a list of free blocks does to it. -/
structure Inserted (base : Nat) (b : Block) (fs fs' : List Block) : Prop where
  order : (anchor base :: fs').Pairwise Block.Before
  units : ∀ c ∈ fs', 0 < c.units
  bound : ∀ n, (∀ c ∈ b :: anchor base :: fs, c.fin < n) → ∀ c ∈ anchor base :: fs', c.fin < n
  covers : ∀ a, Covers fs' a ↔ b.Has a ∨ Covers fs a
  larger : ∃ c ∈ fs', b.units ≤ c.units

/-- The place for a block: behind `p` and the blocks `l` before it, and before the blocks `r`. -/
structure Place (base : Nat) (fs : List Block) (b : Block) (l : List Block) (p : Block) (r : List Block) : Prop where
  split : anchor base :: fs = l ++ p :: r
  before : p.addr + 16 ≤ b.addr
  touch : p.fin ≤ b.addr
  behind : ∀ c ∈ r, b.fin ≤ c.addr

theorem Place.pos (h : Place base fs b l p r) (hu : ∀ c ∈ fs, 0 < c.units) (hb : 0 < b.units) :
    ∀ c ∈ b :: r, 0 < c.units := by
  intro c hc
  obtain rfl | hc := List.mem_cons.mp hc
  · exact hb
  · -- the static header is not behind another place
    have hmem : c ∈ (l ++ p :: r).tail := by
      cases l with
      | nil => simpa using hc
      | cons x l => simp [hc]
    rw [← h.split] at hmem
    exact hu c hmem

theorem Place.merged (h : Place base fs b l p r) (horder : (anchor base :: fs).Pairwise Block.Before)
    (hu : ∀ c ∈ fs, 0 < c.units) (hb : 0 < b.units) : Joined b r (joined b r).1 (joined b r).2 := by
  rw [h.split] at horder
  exact joined_spec (List.pairwise_cons.mp (List.pairwise_append.mp horder).2.1).2 (h.pos hu hb) h.behind

theorem Block.Before.of_addr {x c d : Block} (h : x.Before c) (hd : c.addr ≤ d.addr) : x.Before d :=
  ⟨Nat.lt_of_lt_of_le h.1 hd, Nat.le_trans h.2 hd⟩

theorem Place.order (h : Place base fs b l p r) (horder : (anchor base :: fs).Pairwise Block.Before)
    (hj : Joined b r b' r') :
    (l ++ joinedTo p b' r').Pairwise Block.Before := by
  rw [h.split] at horder
  obtain ⟨hl, hr, hlr⟩ := List.pairwise_append.mp horder
  obtain ⟨hpr, -⟩ := List.pairwise_cons.mp hr
  obtain ⟨hb', hr'⟩ := List.pairwise_cons.mp hj.order
  have hbefore := h.before
  have htouch := h.touch
  have haddr := hj.addr
  have hlp : ∀ x ∈ l, ∀ d : Block, p.addr ≤ d.addr → x.Before d :=
    fun x hx d hd => (hlr x hx p List.mem_cons_self).of_addr hd
  have hrest : ∀ c ∈ r', p.Before c := fun c hc => hpr c (hj.rest c hc)
  have hle : ∀ c ∈ r', p.addr ≤ c.addr := fun c hc => Nat.le_of_add_right_le (hrest c hc).2
  rw [List.pairwise_append, joinedTo]
  split
  · rename_i heq
    -- the merged block ends where `b'` ends
    have hend : (⟨p.addr, p.units + b'.units⟩ : Block).fin = b'.fin := by
      simp only [Block.fin] at heq ⊢
      omega
    refine ⟨hl, List.pairwise_cons.mpr ⟨fun c hc => ⟨?_, (hrest c hc).2⟩, hr'⟩, fun x hx d hd => ?_⟩
    · rw [hend]
      exact (hb' c hc).1
    · obtain rfl | hd := List.mem_cons.mp hd
      · exact hlp x hx _ (Nat.le_refl _)
      · exact hlp x hx d (hle d hd)
  · rename_i hne
    have hpb : p.Before b' := ⟨by omega, by omega⟩
    refine ⟨hl, List.pairwise_cons.mpr ⟨fun c hc => ?_, hj.order⟩, fun x hx d hd => ?_⟩
    · obtain rfl | hc := List.mem_cons.mp hc
      · exact hpb
      · exact hrest c hc
    · obtain rfl | hd := List.mem_cons.mp hd
      · exact hlp x hx d (Nat.le_refl _)
      obtain rfl | hd := List.mem_cons.mp hd
      · exact hlp x hx d (by omega)
      · exact hlp x hx d (hle d hd)

theorem Place.covers (h : Place base fs b l p r) (hj : Joined b r b' r') (a : Nat) :
    Covers (l ++ joinedTo p b' r') a ↔ b.Has a ∨ Covers fs a := by
  have hfs : Covers fs a ↔ Covers l a ∨ p.Has a ∨ Covers r a := by
    have h0 : Covers (anchor base :: fs) a ↔ Covers fs a := by simp
    rw [← h0, h.split, covers_append, covers_cons]
  have hcov := hj.covers a
  have hnew : Covers (joinedTo p b' r') a ↔ p.Has a ∨ b'.Has a ∨ Covers r' a := by
    rw [joinedTo]
    split
    · rename_i heq
      have hhas : (⟨p.addr, p.units + b'.units⟩ : Block).Has a ↔ p.Has a ∨ b'.Has a := by
        simp only [Block.Has, Block.fin] at heq ⊢
        omega
      rw [covers_cons, hhas, or_assoc]
    · rw [covers_cons, covers_cons]
  simp only [covers_cons] at hcov
  rw [covers_append, hnew, hcov, hfs, or_left_comm (a := p.Has a), or_left_comm]

/-- A block of the new list is an old one, or it ends with the new block. -/
theorem Place.mem (h : Place base fs b l p r) (hj : Joined b r b' r') {c : Block} (hc : c ∈ l ++ joinedTo p b' r') :
    c ∈ anchor base :: fs ∨ (c.fin = b'.fin ∧ b.units ≤ c.units) := by
  have hunits := hj.units
  have hrest : c ∈ r' → c ∈ l ++ p :: r := fun hc => by simp [hj.rest c hc]
  rw [h.split]
  obtain hc | hc := List.mem_append.mp hc
  · exact Or.inl (by simp [hc])
  rw [joinedTo] at hc
  split at hc
  · rename_i heq
    obtain rfl | hc := List.mem_cons.mp hc
    · refine Or.inr ⟨?_, Nat.le_trans hunits (Nat.le_add_left _ _)⟩
      simp only [Block.fin] at heq ⊢
      omega
    · exact Or.inl (hrest hc)
  · obtain rfl | hc := List.mem_cons.mp hc
    · exact Or.inl (by simp)
    obtain rfl | hc := List.mem_cons.mp hc
    · exact Or.inr ⟨rfl, hunits⟩
    · exact Or.inl (hrest hc)

/-- The list still begins with the static header, which is too short to be merged. -/
theorem Place.head (h : Place base fs b l p r) (hj : Joined b r b' r') :
    ∃ fs', anchor base :: fs' = l ++ joinedTo p b' r' ∧ ∃ c ∈ fs', b.units ≤ c.units := by
  have hsplit := h.split
  have hunits := hj.units
  cases l with
  | nil =>
      obtain ⟨rfl, -⟩ := List.cons.inj hsplit
      have hne : ¬ (anchor base).fin = b'.addr := by
        have h1 := h.before
        have h2 := hj.addr
        simp only [Block.fin, anchor] at h1 ⊢
        omega
      exact ⟨b' :: r', by rw [joinedTo, if_neg hne, List.nil_append], b', List.mem_cons_self, hunits⟩
  | cons x l =>
      obtain ⟨rfl, -⟩ := List.cons.inj hsplit
      refine ⟨l ++ joinedTo p b' r', rfl, ?_⟩
      rw [joinedTo]
      split
      · exact ⟨⟨p.addr, p.units + b'.units⟩, by simp, Nat.le_trans hunits (Nat.le_add_left _ _)⟩
      · exact ⟨b', by simp, hunits⟩

theorem Place.inserted (h : Place base fs b l p r) (horder : (anchor base :: fs).Pairwise Block.Before)
    (hu : ∀ c ∈ fs, 0 < c.units) (hb : 0 < b.units) :
    ∃ fs', anchor base :: fs' = l ++ joinedTo p (joined b r).1 (joined b r).2 ∧ Inserted base b fs fs' := by
  have hj := h.merged horder hu hb
  obtain ⟨fs', hfs', hlarger⟩ := h.head hj
  have hsorted := h.order horder hj
  rw [← hfs'] at hsorted
  refine ⟨fs', hfs', hsorted, fun c hc => ?_, fun n hn c hc => ?_, fun a => ?_, hlarger⟩
  · obtain hc' | ⟨-, hc'⟩ := h.mem hj (by rw [← hfs']; exact List.mem_cons_of_mem _ hc)
    · obtain rfl | hc' := List.mem_cons.mp hc'
      · exact absurd ((List.pairwise_cons.mp hsorted).1 _ hc).1 (by simp [Block.fin, anchor])
      · exact hu c hc'
    · exact Nat.lt_of_lt_of_le hb hc'
  · obtain hc' | ⟨hc', -⟩ := h.mem hj (by rw [← hfs']; exact hc)
    · exact hn c (List.mem_cons_of_mem b hc')
    · rw [hc']
      refine hj.bound n fun d hd => hn d ?_
      obtain rfl | hd := List.mem_cons.mp hd
      · exact List.mem_cons_self
      · rw [h.split]
        simp [hd]
  · have h0 : Covers (anchor base :: fs') a ↔ Covers fs' a := by simp
    rw [← h0, hfs']
    exact h.covers hj a

/-! ## The links -/

theorem plus_of_lt {x n : Nat} (h : x + 16 * n < 2 ^ 64) : plus x n = x + 16 * n := by
  unfold plus
  exact Nat.mod_eq_of_lt h

theorem plus_eq (h : b.fin < 2 ^ 63) : plus b.addr b.units = b.fin := by
  unfold Block.fin at *
  exact plus_of_lt (by omega)

theorem linkNext_spec {pNext : Nat} (hr : Linked s.mem pNext r base) (hsize : unitsOf s.mem b.addr = b.units)
    (hb : 0 < b.units) (hbase : base + 16 ≤ b.addr) (hbehind : ∀ c ∈ r, b.fin ≤ c.addr)
    (hbound : ∀ c ∈ b :: r, c.fin < 2 ^ 63) :
    Wp (linkNext b.addr pNext) (fun _ s' => ∃ m', s' = { s with mem := m' } ∧ OnlyHeader b.addr s.mem m' ∧
      Linked m' b.addr ((joined b r).1 :: (joined b r).2) base) (fun _ => False) s := by
  have hfin : b.fin = b.addr + 16 * b.units := rfl
  have hbfin := hbound b List.mem_cons_self
  have hapart : ∀ c ∈ r, c.addr + 16 ≤ b.addr ∨ b.addr + 16 ≤ c.addr := fun c hc => by
    have := hbehind c hc
    omega
  unfold linkNext unitSize ptr setPtr setUnitSize
  simp only [wp_bind, wp_get, wp_pure, wp_ite, wp_modify, hsize, plus_eq hbfin]
  cases r with
  | nil =>
      obtain rfl : pNext = base := hr.seg
      refine ⟨fun h0 => by omega, fun _ =>
        ⟨_, rfl, onlyHeader_ptr _ _ _, linked_cons.mpr ⟨rfl, unitsOf_ptr.trans hsize, ?_⟩⟩⟩
      exact ⟨nextOf_ptr (by omega), fun _ hd => by cases hd⟩
  | cons c r =>
      obtain ⟨rfl, hcsize, hrest⟩ := linked_cons.mp hr
      have hcb := hbehind c List.mem_cons_self
      have hcfin := hbound c (by simp)
      have hcdef : c.fin = c.addr + 16 * c.units := rfl
      refine ⟨fun htouch => ?_, fun hne => ?_⟩
      · rw [show joined b (c :: r) = (⟨b.addr, b.units + c.units⟩, r) from if_pos htouch]
        have hsum : b.units + c.units < 2 ^ 64 := by omega
        have h1 := onlyHeader_size s.mem b.addr (b.units + c.units)
        have h2 := onlyHeader_ptr (s.mem.putLe (b.addr + 8) 8 (b.units + c.units)) b.addr (nextOf s.mem c.addr)
        have hnext : nextOf (s.mem.putLe (b.addr + 8) 8 (b.units + c.units)) c.addr = nextOf s.mem c.addr :=
          h1.nextOf (hapart c List.mem_cons_self)
        rw [hcsize, hnext]
        refine ⟨_, rfl, h1.trans h2, linked_cons.mpr ⟨rfl, unitsOf_ptr.trans (unitsOf_size hsum), ?_⟩⟩
        rw [nextOf_ptr (nextOf_lt _ _)]
        exact hrest.only (h1.trans h2) fun d hd => hapart d (List.mem_cons_of_mem c hd)
      · rw [show joined b (c :: r) = (b, c :: r) from if_neg hne]
        refine ⟨_, rfl, onlyHeader_ptr _ _ _, linked_cons.mpr ⟨rfl, unitsOf_ptr.trans hsize, ?_⟩⟩
        rw [nextOf_ptr (by omega)]
        exact hr.only (onlyHeader_ptr _ _ _) hapart

theorem linkPrev_spec (hr : Linked s.mem b.addr (b :: r) base) (hsize : unitsOf s.mem p.addr = p.units)
    (hbehind : ∀ c ∈ b :: r, p.addr + 16 ≤ c.addr) (hp : p.fin < 2 ^ 63) (hb : b.fin < 2 ^ 63) :
    Wp (linkPrev p.addr b.addr) (fun _ s' => ∃ m', s' = { s with mem := m' } ∧ OnlyHeader p.addr s.mem m' ∧
      Linked m' p.addr (joinedTo p b r) base) (fun _ => False) s := by
  have hbdef : b.fin = b.addr + 16 * b.units := rfl
  have hpdef : p.fin = p.addr + 16 * p.units := rfl
  have hapart : ∀ c ∈ b :: r, c.addr + 16 ≤ p.addr ∨ p.addr + 16 ≤ c.addr := fun c hc => Or.inr (hbehind c hc)
  have hbsize := (linked_cons.mp hr).2.1
  have hrest := (linked_cons.mp hr).2.2
  unfold linkPrev unitSize ptr setPtr setUnitSize
  simp only [wp_bind, wp_get, wp_pure, wp_ite, wp_modify, hsize, hbsize, plus_eq hp]
  refine ⟨fun htouch => ?_, fun hne => ?_⟩
  · rw [joinedTo, if_pos htouch]
    have hsum : p.units + b.units < 2 ^ 64 := by omega
    have h1 := onlyHeader_size s.mem p.addr (p.units + b.units)
    have h2 := onlyHeader_ptr (s.mem.putLe (p.addr + 8) 8 (p.units + b.units)) p.addr (nextOf s.mem b.addr)
    have hnext : nextOf (s.mem.putLe (p.addr + 8) 8 (p.units + b.units)) b.addr = nextOf s.mem b.addr :=
      h1.nextOf (hapart b List.mem_cons_self)
    rw [hnext]
    refine ⟨_, rfl, h1.trans h2, linked_cons.mpr ⟨rfl, unitsOf_ptr.trans (unitsOf_size hsum), ?_⟩⟩
    rw [nextOf_ptr (nextOf_lt _ _)]
    exact hrest.only (h1.trans h2) fun d hd => hapart d (List.mem_cons_of_mem b hd)
  · rw [joinedTo, if_neg hne]
    refine ⟨_, rfl, onlyHeader_ptr _ _ _, linked_cons.mpr ⟨rfl, unitsOf_ptr.trans hsize, ?_⟩⟩
    rw [nextOf_ptr (by omega)]
    exact hr.only (onlyHeader_ptr _ _ _) hapart

/-! ## The loop -/

/-- In an ordered list that begins below `x` there is a last place below `x`. -/
theorem exists_last_below {x : Nat} : ∀ {c : Block} {l : List Block}, (c :: l).Pairwise Block.Before → c.addr < x →
    ∃ l₁ p l₂, c :: l = l₁ ++ p :: l₂ ∧ p.addr < x ∧ ∀ d ∈ l₂, x ≤ d.addr
  | c, [], _, hc => ⟨[], c, [], rfl, hc, by simp⟩
  | c, d :: l, h, hc => by
      by_cases hd : d.addr < x
      · obtain ⟨l₁, p, l₂, heq, hp, hl₂⟩ := exists_last_below (List.pairwise_cons.mp h).2 hd
        exact ⟨c :: l₁, p, l₂, by rw [heq]; rfl, hp, hl₂⟩
      · refine ⟨[], c, d :: l, rfl, hc, fun e he => ?_⟩
        obtain rfl | he := List.mem_cons.mp he
        · omega
        · have := (List.rel_of_pairwise_cons (List.pairwise_cons.mp h).2 he).2
          omega

/-- The place of a block that has no address in common with the free ones. -/
theorem FreeBlocks.place (h : FreeBlocks base s.mem fs) (hb : 0 < b.units) (hbase : base + 16 ≤ b.addr)
    (hapart : ∀ a, b.Has a → ¬ Covers fs a) : ∃ l p r, Place base fs b l p r := by
  obtain ⟨l, p, r, hsplit, hp, hr⟩ :=
    exists_last_below h.order (show (anchor base).addr < b.addr by simp only [anchor]; omega)
  have hdis : ∀ c ∈ fs, c.fin ≤ b.addr ∨ b.fin ≤ c.addr := fun c hc =>
    Block.Apart.cases (fun a ha hca => hapart a ha ⟨c, hc, hca⟩) hb (h.units c hc)
  have hbfin : b.fin = b.addr + 16 * b.units := rfl
  have hmem : p ∈ anchor base :: fs := by
    rw [hsplit]
    simp
  have hpb : p.addr + 16 ≤ b.addr ∧ p.fin ≤ b.addr := by
    obtain rfl | hmem := List.mem_cons.mp hmem
    · simp only [anchor, Block.fin]
      omega
    · have hpos := h.units p hmem
      have hpfin : p.fin = p.addr + 16 * p.units := rfl
      obtain h1 | h1 := hdis p hmem <;> omega
  refine ⟨l, p, r, hsplit, hpb.1, hpb.2, fun c hc => ?_⟩
  have hle := hr c hc
  have hcmem : c ∈ anchor base :: fs := by
    rw [hsplit]
    simp [hc]
  obtain rfl | hcmem := List.mem_cons.mp hcmem
  · simp only [anchor] at hle
    omega
  · have hpos := h.units c hcmem
    have hcfin : c.fin = c.addr + 16 * c.units := rfl
    obtain h1 | h1 := hdis c hcmem <;> omega

theorem freeFind_spec (h : FreeBlocks base s.mem fs) (hf : s.freeP ∈ base :: fs.map Block.addr)
    (hpl : Place base fs b l p r) (hb : 0 < b.units) :
    Wp (freeFind b.addr) (fun q s' => q = p.addr ∧ s' = s) (fun _ => False) s := by
  have hring := h.ring
  have hlt := h.addr_lt
  have hbfin : b.fin = b.addr + 16 * b.units := rfl
  have hmap : base :: fs.map Block.addr = l.map Block.addr ++ p.addr :: r.map Block.addr := by
    rw [← List.map_cons, ← List.map_append, ← hpl.split]
    rfl
  have hp : p.addr ∈ base :: fs.map Block.addr := by
    rw [hmap]
    simp
  have hbefore := hpl.before
  -- below the block there is nothing behind `p`
  have hside : ∀ x ∈ base :: fs.map Block.addr, x ≤ p.addr ∨ b.addr < x := by
    intro x hx
    have hord := hring.order
    rw [hmap] at hx hord
    obtain hx | hx := List.mem_append.mp hx
    · exact Or.inl (Nat.le_of_lt ((List.pairwise_append.mp hord).2.2 x hx _ List.mem_cons_self))
    obtain rfl | hx := List.mem_cons.mp hx
    · exact Or.inl (Nat.le_refl _)
    · obtain ⟨c, hc, rfl⟩ := List.mem_map.mp hx
      have := hpl.behind c hc
      exact Or.inr (by omega)
  -- so the loop stops at `p` and nowhere else
  have hstop : ∀ q ∈ base :: fs.map Block.addr, (q < b.addr ∧ b.addr < nextOf s.mem q) ∨
      (nextOf s.mem q ≤ q ∧ (q < b.addr ∨ b.addr < nextOf s.mem q)) ↔ q = p.addr := by
    intro q hq
    have hbase := hring.le hq
    have hbasep := hring.le hp
    have hqside := hside q hq
    have hnside := hside _ (hring.after hq).mem
    obtain ⟨hlt, -, hgap⟩ | ⟨hq, hmax⟩ := hring.after hq
    · have := hgap _ hp
      omega
    · have := hmax _ hp
      omega
  unfold freeFind
  rw [wp_bind, wp_get]
  refine wp_loop (fun q s' => q ∈ base :: fs.map Block.addr ∧ s' = s) (fun q => ahead (2 ^ 64) q p.addr) ?_
    rounds _ s ⟨hf, rfl⟩ (Nat.lt_trans (ahead_lt (hlt _ hp)) (by decide))
  rintro q _ ⟨hq, rfl⟩
  have hq' := hstop q hq
  unfold ptr
  simp only [wp_bind, wp_get, wp_pure, wp_ite]
  refine ⟨fun h1 => ⟨hq'.mp (Or.inl h1), trivial⟩, fun h1 => ⟨fun h2 => ⟨hq'.mp (Or.inr h2), trivial⟩, fun h2 => ?_⟩⟩
  obtain ⟨d, hd, hstep⟩ := hring.ahead_next hlt hq
  have hne : q ≠ p.addr := fun h0 => (hq'.mpr h0).elim h1 h2
  refine ⟨⟨(hring.after hq).mem, trivial⟩, ?_⟩
  rw [hstep _ hp hne]
  omega

/-- What `free` does for the block `b`. -/
structure Freed (base : Nat) (b : Block) (s : Heap) (fs : List Block) (s' : Heap) (fs' : List Block) : Prop where
  blocks : FreeBlocks base s'.mem fs'
  here : s'.freeP ∈ base :: fs'.map Block.addr
  covers : ∀ a, Covers fs' a ↔ b.Has a ∨ Covers fs a
  larger : ∃ c ∈ fs', b.units ≤ c.units
  sz : s'.sz = s.sz
  kept : ∀ a, a < base ∨ base + 16 ≤ a → ¬ b.Has a → ¬ Covers fs a → s'.mem a = s.mem a

theorem free_spec (h : FreeBlocks base s.mem fs) (hf : s.freeP ∈ base :: fs.map Block.addr)
    (hsize : unitsOf s.mem b.addr = b.units) (hb : 0 < b.units) (hbase : base + 16 ≤ b.addr) (hfin : b.fin < 2 ^ 63)
    (hapart : ∀ a, b.Has a → ¬ Covers fs a) :
    Wp (free (b.addr + 16)) (fun _ s' => ∃ fs', Freed base b s fs s' fs') (fun _ => False) s := by
  obtain ⟨l, p, r, hpl⟩ := h.place hb hbase hapart
  obtain ⟨fs', hfs', hins⟩ := hpl.inserted h.order h.units hb
  have hj := hpl.merged h.order h.units hb
  have hbfin : b.fin = b.addr + 16 * b.units := rfl
  have hbound := h.bound
  have hlinked := h.linked
  have horder := h.order
  rw [hpl.split] at hlinked hbound horder
  obtain ⟨hl, hpsize, hr⟩ := linked_split.mp hlinked
  obtain ⟨-, hpr, hlp⟩ := List.pairwise_append.mp horder
  have hheader : headerOf (b.addr + 16) = b.addr := by
    unfold headerOf headerSize
    omega
  have hbr : ∀ c ∈ b :: r, c.fin < 2 ^ 63 := fun c hc => by
    obtain rfl | hc := List.mem_cons.mp hc
    · exact hfin
    · exact hbound c (by simp [hc])
  unfold free
  rw [hheader]
  refine Wp.bind (freeFind_spec h hf hpl hb) ?_
  rintro _ t ⟨rfl, ht⟩
  rw [ht, wp_bind]
  unfold ptr
  simp only [wp_bind, wp_get, wp_pure]
  refine (linkNext_spec hr hsize hb hbase hpl.behind hbr).post ?_
  rintro _ _ ⟨m₁, rfl, hm₁, hlink₁⟩
  have haddr := hj.addr
  have hbefore := hpl.before
  have hbelow : ∀ c ∈ (joined b r).1 :: (joined b r).2, p.addr + 16 ≤ c.addr := fun c hc => by
    obtain rfl | hc := List.mem_cons.mp hc
    · rw [haddr]
      exact hbefore
    · exact (List.rel_of_pairwise_cons hpr (hj.rest c hc)).2
  rw [← haddr] at hlink₁ ⊢
  refine (linkPrev_spec (s := { s with mem := m₁ }) hlink₁ ((hm₁.unitsOf (Or.inl hbefore)).trans hpsize) hbelow
    (hbound p (by simp)) (hj.bound _ hbr)).post ?_
  rintro _ _ ⟨m₂, rfl, hm₂, hlink₂⟩
  rw [wp_modify]
  have hblock : ∀ c ∈ l, c.addr + 16 ≤ p.addr := fun c hc => (hlp c hc p List.mem_cons_self).2
  have hl₂ : Linked m₂ base l p.addr :=
    (hl.only hm₁ fun c hc => Or.inl (by have := hblock c hc; omega)).only hm₂ fun c hc => Or.inl (hblock c hc)
  refine ⟨fs', ⟨?_, hins.order, hins.units, hins.bound _ ?_⟩, ?_, hins.covers, hins.larger, rfl, fun a ha hba hca => ?_⟩
  · rw [hfs']
    exact hl₂.append hlink₂
  · intro c hc
    obtain rfl | hc := List.mem_cons.mp hc
    · exact hfin
    · exact h.bound c hc
  · show p.addr ∈ (anchor base :: fs').map Block.addr
    rw [hfs', List.map_append]
    exact List.mem_append_right _ (mem_joinedTo p _ _)
  · -- both headers that change are in places that are not asked for
    have hp : a < p.addr ∨ p.addr + 16 ≤ a := by
      obtain rfl | hmem := List.mem_cons.mp (show p ∈ anchor base :: fs by rw [hpl.split]; simp)
      · exact ha
      · exact Block.outside (fun h0 => hca ⟨p, hmem, h0⟩) (h.units p hmem)
    exact (hm₂ a hp).trans (hm₁ a (Block.outside hba hb))

end Xv6.Umalloc
