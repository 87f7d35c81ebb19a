import Xv6.Umalloc.Lemmas.Free

/-!
# Taking a block

The heap is divided into free blocks and blocks in use. `free` and `take` move a block from one side to the other, and
`more_core` adds a block at the end and frees it. The loop of `malloc` walks around the list once, and once more after
`more_core`, for then there is a block that is large enough.
-/

namespace Xv6.Umalloc

open Xv6.Lib Xv6.Vm

variable {base start a n x : Nat} {m m' : Bytes} {b c p : Block} {l r fs fs' us us' : List Block} {s s' : Heap}

/-! ## The heap -/

/-- From `start` on the memory is divided into the free blocks `fs` and the blocks `us` in use. -/
structure Blocks (base start : Nat) (s : Heap) (fs us : List Block) : Prop where
  list : FreeBlocks base s.mem fs
  here : s.freeP ∈ base :: fs.map Block.addr
  size : ∀ b ∈ us, unitsOf s.mem b.addr = b.units
  units : ∀ b ∈ us, 0 < b.units
  apart : us.Pairwise Block.Apart
  disjoint : ∀ a, Covers us a → ¬ Covers fs a
  exact : ∀ a, Covers fs a ∨ Covers us a ↔ start ≤ a ∧ a < s.sz
  above : base + 16 ≤ start
  low : start ≤ s.sz
  top : s.sz < userTop

theorem Block.has_addr (hb : 0 < b.units) : b.Has b.addr := ⟨Nat.le_refl _, by unfold Block.fin; omega⟩

theorem Block.Before.apart (h : b.Before c) : b.Apart c := fun a hb hc => by
  have := h.1
  have := hb.2
  have := hc.1
  omega

namespace Blocks

theorem bounds (h : Blocks base start s fs us) (hb : b ∈ fs ∨ b ∈ us) : start ≤ b.addr ∧ b.fin ≤ s.sz := by
  have hu : 0 < b.units := hb.elim (h.list.units b) (h.units b)
  have hfin : b.fin = b.addr + 16 * b.units := rfl
  have hin : ∀ a, b.Has a → start ≤ a ∧ a < s.sz := fun a ha =>
    (h.exact a).mp (hb.imp (fun hb => ⟨b, hb, ha⟩) fun hb => ⟨b, hb, ha⟩)
  have hlow := hin b.addr (Block.has_addr hu)
  have hhigh := hin (b.fin - 1) ⟨by omega, by omega⟩
  omega

theorem perm (h : Blocks base start s fs us) (hp : us.Perm us') : Blocks base start s fs us' := by
  have hcov : ∀ a, Covers us' a ↔ Covers us a := fun a => by
    unfold Covers
    simp only [hp.mem_iff]
  refine { h with
    size := fun b hb => h.size b (hp.mem_iff.mpr hb)
    units := fun b hb => h.units b (hp.mem_iff.mpr hb)
    apart := (hp.pairwise_iff (Std.Symm.symm _ _)).mp h.apart
    disjoint := fun a ha => h.disjoint a ((hcov a).mp ha)
    exact := fun a => ?_ }
  rw [hcov]
  exact h.exact a

/-- The header of a block in use stays when the memory changes in the static header and outside of the block. -/
theorem unitsOf_kept (h : Blocks base start s fs us) (hb : b ∈ us)
    (hm : ∀ a, base + 16 ≤ a → b.Has a → m' a = s.mem a) : unitsOf m' b.addr = b.units := by
  rw [← h.size b hb]
  have hu := h.units b hb
  have hin := h.bounds (Or.inr hb)
  have habove := h.above
  have hfin : b.fin = b.addr + 16 * b.units := rfl
  exact unitsOf_congr fun x hx hlt => hm x (by omega) ⟨by omega, by omega⟩

/-- What the program stores outside of the headers changes nothing. -/
theorem congr (h : Blocks base start s fs us)
    (hm : ∀ b ∈ anchor base :: (fs ++ us), ∀ x, b.addr ≤ x → x < b.addr + 16 → m' x = s.mem x) :
    Blocks base start { s with mem := m' } fs us := by
  refine { h with
    list := { h.list with linked := h.list.linked.congr fun b hb => hm b ?_ }
    size := fun b hb => ?_ }
  · obtain rfl | hb := List.mem_cons.mp hb
    · exact List.mem_cons_self
    · exact List.mem_cons_of_mem _ (List.mem_append_left us hb)
  · rw [← h.size b hb]
    exact unitsOf_congr fun x hx hlt => hm b (by simp [hb]) x (by omega) hlt

end Blocks

/-! ## Giving a block back -/

theorem Blocks.free_spec (h : Blocks base start s fs (b :: us)) :
    Wp (free (b.addr + 16)) (fun _ s' => ∃ fs', Blocks base start s' fs' us ∧ ∃ c ∈ fs', b.units ≤ c.units)
      (fun _ => False) s := by
  have hb : b ∈ b :: us := List.mem_cons_self
  have hin := h.bounds (Or.inr hb)
  have habove := h.above
  have htop := h.top
  obtain ⟨hbus, hus⟩ := List.pairwise_cons.mp h.apart
  refine (Umalloc.free_spec h.list h.here (h.size b hb) (h.units b hb) (by omega)
    (by simp only [userTop] at htop; omega) fun a ha => h.disjoint a ⟨b, hb, ha⟩).post ?_
  rintro _ s' ⟨fs', hf⟩
  refine ⟨fs', ⟨hf.blocks, hf.here, fun c hc => ?_, fun c hc => h.units c (List.mem_cons_of_mem b hc), hus,
    fun a ha => ?_, fun a => ?_, h.above, hf.sz ▸ h.low, hf.sz ▸ h.top⟩, hf.larger⟩
  · refine h.unitsOf_kept (List.mem_cons_of_mem b hc) fun a ha hca =>
      hf.kept a (Or.inr ha) (fun hba => hbus c hc a hba hca) ?_
    exact h.disjoint a ⟨c, List.mem_cons_of_mem b hc, hca⟩
  · rw [hf.covers]
    rintro (hba | hfa)
    · obtain ⟨c, hc, hca⟩ := ha
      exact hbus c hc a hba hca
    · exact h.disjoint a (covers_cons.mpr (Or.inr ha)) hfa
  · rw [hf.covers, hf.sz, ← h.exact a, covers_cons]
    tauto

/-! ## Taking a block -/

/-- The free blocks `fs'` and the block `b` are what was free before. -/
structure Taken (base : Nat) (b : Block) (m : Bytes) (fs : List Block) (m' : Bytes) (fs' : List Block) : Prop where
  blocks : FreeBlocks base m' fs'
  size : unitsOf m' b.addr = b.units
  covers : ∀ a, Covers fs a ↔ b.Has a ∨ Covers fs' a
  apart : ∀ a, b.Has a → ¬ Covers fs' a
  kept : ∀ a, base + 16 ≤ a → ¬ Covers fs a → m' a = m a

theorem Blocks.taken (h : Blocks base start s fs us) (ht : Taken base b s.mem fs m' fs') (hb : 0 < b.units)
    (hhere : x ∈ base :: fs'.map Block.addr) :
    Blocks base start { s with mem := m', freeP := x } fs' (b :: us) := by
  have hnew : ∀ c ∈ us, b.Apart c := fun c hc a hba hca =>
    h.disjoint a ⟨c, hc, hca⟩ ((ht.covers a).mpr (Or.inl hba))
  refine ⟨ht.blocks, hhere, fun c hc => ?_, fun c hc => ?_, List.pairwise_cons.mpr ⟨hnew, h.apart⟩, fun a ha => ?_,
    fun a => ?_, h.above, h.low, h.top⟩
  · obtain rfl | hc := List.mem_cons.mp hc
    · exact ht.size
    · exact h.unitsOf_kept hc fun a ha hca => ht.kept a ha (h.disjoint a ⟨c, hc, hca⟩)
  · obtain rfl | hc := List.mem_cons.mp hc
    · exact hb
    · exact h.units c hc
  · obtain hba | hua := covers_cons.mp ha
    · exact ht.apart a hba
    · exact fun hfa => h.disjoint a hua ((ht.covers a).mpr (Or.inr hfa))
  · rw [← h.exact a, ht.covers, covers_cons]
    tauto

/-- The block behind the place `x` of the list, if it is not the static header. -/
theorem FreeBlocks.behind (h : FreeBlocks base m fs) (hx : x ∈ base :: fs.map Block.addr)
    (hn : 0 < unitsOf m (nextOf m x)) :
    ∃ k p l c r, anchor base :: l = k ++ [p] ∧ fs = l ++ c :: r ∧ p.addr = x ∧ c.addr = nextOf m x := by
  obtain ⟨p, hp, rfl⟩ := List.mem_map.mp (show x ∈ (anchor base :: fs).map Block.addr from hx)
  obtain ⟨k, r, hsplit⟩ := List.append_of_mem hp
  have hlinked := h.linked
  rw [hsplit] at hlinked
  obtain ⟨-, -, hr⟩ := linked_split.mp hlinked
  cases r with
  | nil =>
      have hbase : nextOf m p.addr = base := hr.seg
      have hzero : unitsOf m base = 0 := h.linked.size (anchor base) List.mem_cons_self
      rw [hbase, hzero] at hn
      exact absurd hn (Nat.lt_irrefl 0)
  | cons c r =>
      have hc := (linked_cons.mp hr).1.symm
      cases k with
      | nil =>
          obtain ⟨rfl, hfs⟩ := List.cons.inj hsplit
          exact ⟨[], _, [], c, r, rfl, hfs, rfl, hc⟩
      | cons d k =>
          obtain ⟨rfl, hfs⟩ := List.cons.inj hsplit
          exact ⟨anchor base :: k, p, k ++ [p], c, r, rfl, by simp [hfs], rfl, hc⟩

/-- An address outside of the free blocks and of the static header is in none of the headers on the list. -/
theorem FreeBlocks.outside (h : FreeBlocks base m fs) (hb : b ∈ anchor base :: fs) (ha : base + 16 ≤ a)
    (hc : ¬ Covers fs a) :
    a < b.addr ∨ b.addr + 16 ≤ a := by
  obtain rfl | hb := List.mem_cons.mp hb
  · exact Or.inr ha
  · exact Block.outside (fun hba => hc ⟨b, hb, hba⟩) (h.units b hb)

/-- The blocks before and behind the block `c`. -/
theorem FreeBlocks.order_at (h : FreeBlocks base m (l ++ c :: r)) :
    (∀ d ∈ anchor base :: l, d.Before c) ∧ (∀ d ∈ r, c.Before d) ∧ ∀ d ∈ anchor base :: l, ∀ e ∈ r, d.Before e := by
  have horder := h.order
  rw [← List.cons_append] at horder
  obtain ⟨-, hcr, hl⟩ := List.pairwise_append.mp horder
  exact ⟨fun d hd => hl d hd c List.mem_cons_self, (List.pairwise_cons.mp hcr).1,
    fun d hd e he => hl d hd e (List.mem_cons_of_mem c he)⟩

theorem FreeBlocks.linked_at (h : FreeBlocks base m (l ++ c :: r)) :
    Linked m base (anchor base :: l) c.addr ∧ unitsOf m c.addr = c.units ∧ Linked m (nextOf m c.addr) r base := by
  have hlinked := h.linked
  rw [← List.cons_append] at hlinked
  exact linked_split.mp hlinked

/-- The block `c` is taken as a whole. -/
theorem FreeBlocks.unlink {k : List Block} (h : FreeBlocks base m (l ++ c :: r)) (hk : anchor base :: l = k ++ [p]) :
    Taken base c m (l ++ c :: r) (m.putLe p.addr 8 (nextOf m c.addr)) (l ++ r) := by
  obtain ⟨hlc, hcr, hlr⟩ := h.order_at
  obtain ⟨hlinkl, hsizec, hlinkr⟩ := h.linked_at
  have hsub : (anchor base :: (l ++ r)).Sublist (anchor base :: (l ++ c :: r)) :=
    ((List.Sublist.refl l).append (List.sublist_cons_self c r)).cons_cons _
  have hp : p ∈ anchor base :: l := by simp [hk]
  have hkp : ∀ d ∈ k, d.Before p := by
    have horder := h.order.sublist (List.sublist_append_left (anchor base :: l) (c :: r))
    rw [hk] at horder
    exact fun d hd => (List.pairwise_append.mp horder).2.2 d hd p List.mem_cons_self
  rw [hk] at hlinkl
  obtain ⟨hlinkk, hsizep, -⟩ := linked_split.mp hlinkl
  have honly := onlyHeader_ptr m p.addr (nextOf m c.addr)
  refine ⟨⟨?_, h.order.sublist hsub, fun d hd => h.units d ((List.cons_sublist_cons.mp hsub).subset hd),
    fun d hd => h.bound d (hsub.subset hd)⟩, (honly.unitsOf (Or.inr (hlc p hp).2)).trans hsizec, fun a => ?_,
    fun a ha hcov => ?_, fun a ha hcov => ?_⟩
  · rw [← List.cons_append, hk, List.append_assoc, List.singleton_append, linked_split, unitsOf_ptr,
      nextOf_ptr (nextOf_lt m c.addr)]
    exact ⟨hlinkk.only honly fun d hd => Or.inl (hkp d hd).2, hsizep,
      hlinkr.only honly fun d hd => Or.inr (hlr p hp d hd).2⟩
  · rw [covers_append, covers_append, covers_cons, or_left_comm]
  · obtain ⟨d, hd, hda⟩ | ⟨d, hd, hda⟩ := covers_append.mp hcov
    · exact (hlc d (List.mem_cons_of_mem _ hd)).apart a hda ha
    · exact (hcr d hd).apart a ha hda
  · exact honly a (h.outside ((List.sublist_append_left (anchor base :: l) (c :: r)).subset hp) ha hcov)

/-- The block without its last `n` units. -/
def Block.shrunk (c : Block) (n : Nat) : Block := ⟨c.addr, c.units - n⟩

/-- The last `n` units of the block. -/
def Block.rear (c : Block) (n : Nat) : Block := ⟨c.addr + 16 * (c.units - n), n⟩

theorem Block.fin_shrunk : (c.shrunk n).fin = (c.rear n).addr := rfl

theorem Block.fin_rear (h : n ≤ c.units) : (c.rear n).fin = c.fin := by
  show c.addr + 16 * (c.units - n) + 16 * n = c.addr + 16 * c.units
  omega

theorem Block.has_iff_parts (h : n ≤ c.units) : c.Has a ↔ (c.rear n).Has a ∨ (c.shrunk n).Has a := by
  unfold Block.Has
  rw [fin_rear h, fin_shrunk]
  have hlow : (c.shrunk n).addr = c.addr := rfl
  have hmid : (c.rear n).addr = c.addr + 16 * (c.units - n) := rfl
  have hfin : c.fin = c.addr + 16 * c.units := rfl
  omega

/-- A block of the list gets smaller, and nothing changes outside of it. -/
theorem FreeBlocks.shrink (h : FreeBlocks base m (l ++ c :: r)) (hlt : n < c.units)
    (hnext : nextOf m' c.addr = nextOf m c.addr) (hsize : unitsOf m' c.addr = c.units - n)
    (hm : ∀ a, ¬ c.Has a → m' a = m a) : FreeBlocks base m' (l ++ c.shrunk n :: r) := by
  obtain ⟨hlc, hcr, hlr⟩ := h.order_at
  obtain ⟨hlinkl, -, hlinkr⟩ := h.linked_at
  have hfin : (c.shrunk n).fin ≤ c.fin := Nat.add_le_add_left (Nat.mul_le_mul_left 16 (Nat.sub_le _ _)) _
  have hrest : ∀ d ∈ l ++ c.shrunk n :: r, d = c.shrunk n ∨ d ∈ l ++ c :: r := fun d hd => by
    obtain hd | hd := List.mem_append.mp hd
    · exact Or.inr (List.mem_append_left _ hd)
    · exact (List.mem_cons.mp hd).imp_right fun hd => by simp [hd]
  refine ⟨?_, ?_, fun d hd => ?_, fun d hd => ?_⟩
  · rw [← List.cons_append, linked_split]
    refine ⟨hlinkl.congr fun d hd x _ hx => hm x fun hc => ?_, hsize, ?_⟩
    · exact absurd hc.1 (Nat.not_le_of_lt (Nat.lt_of_lt_of_le hx (hlc d hd).2))
    · show Linked m' (nextOf m' c.addr) r base
      rw [hnext]
      refine hlinkr.congr fun d hd x hx _ => hm x fun hc => ?_
      exact absurd hc.2 (Nat.not_lt_of_le (Nat.le_trans (Nat.le_of_lt (hcr d hd).1) hx))
  · have horder := h.order
    rw [← List.cons_append] at horder ⊢
    obtain ⟨hl, hr, -⟩ := List.pairwise_append.mp horder
    refine List.pairwise_append.mpr ⟨hl, List.pairwise_cons.mpr ⟨fun d hd => ?_, (List.pairwise_cons.mp hr).2⟩,
      fun d hd e he => ?_⟩
    · exact ⟨Nat.lt_of_le_of_lt hfin (hcr d hd).1, (hcr d hd).2⟩
    · obtain rfl | he := List.mem_cons.mp he
      · exact hlc d hd
      · exact hlr d hd e he
  · obtain rfl | hd := hrest d hd
    · exact Nat.sub_pos_of_lt hlt
    · exact h.units d hd
  · obtain rfl | hd := List.mem_cons.mp hd
    · exact h.bound _ List.mem_cons_self
    obtain rfl | hd := hrest d hd
    · exact Nat.lt_of_le_of_lt hfin (h.bound c (by simp))
    · exact h.bound d (List.mem_cons_of_mem _ hd)

/-- The last `n` units of the block `c` are taken. -/
theorem FreeBlocks.cut (h : FreeBlocks base m (l ++ c :: r)) (hn : 0 < n) (hlt : n < c.units) :
    Taken base (c.rear n) m (l ++ c :: r) ((m.putLe (c.addr + 8) 8 (c.units - n)).putLe ((c.rear n).addr + 8) 8 n)
      (l ++ c.shrunk n :: r) := by
  obtain ⟨hlc, hcr, -⟩ := h.order_at
  have hfin : c.fin = c.addr + 16 * c.units := rfl
  have hrear : (c.rear n).addr = c.addr + 16 * (c.units - n) := rfl
  have hbound := h.bound c (by simp)
  have hparts := fun a => @Block.has_iff_parts a n c (Nat.le_of_lt hlt)
  have honly := onlyHeader_size m c.addr (c.units - n)
  have honly' := onlyHeader_size (m.putLe (c.addr + 8) 8 (c.units - n)) (c.rear n).addr n
  have hapart : c.addr + 16 ≤ (c.rear n).addr ∨ (c.rear n).addr + 16 ≤ c.addr := Or.inl (by omega)
  -- both headers that change are in the block
  have hkept : ∀ a, ¬ c.Has a → (m.putLe (c.addr + 8) 8 (c.units - n)).putLe ((c.rear n).addr + 8) 8 n a = m a :=
    fun a ha => by
      unfold Block.Has at ha
      exact (honly' a (by omega)).trans (honly a (by omega))
  refine ⟨h.shrink hlt ((honly'.nextOf hapart).trans nextOf_size) ?_ hkept, unitsOf_size (by omega), fun a => ?_,
    fun a ha hcov => ?_, fun a _ hcov => hkept a fun hca => hcov ⟨c, by simp, hca⟩⟩
  · exact (honly'.unitsOf hapart).trans (unitsOf_size (by omega))
  · rw [covers_append, covers_append, covers_cons, covers_cons, hparts, or_assoc, or_left_comm]
  · obtain ⟨d, hd, hda⟩ | hca | ⟨d, hd, hda⟩ := covers_append.mp hcov |>.imp_right covers_cons.mp
    · exact (hlc d (List.mem_cons_of_mem _ hd)).apart a hda ((hparts a).mpr (Or.inl ha))
    · exact absurd hca.2 (Nat.not_lt_of_le ha.1)
    · exact (hcr d hd).apart a ((hparts a).mpr (Or.inl ha)) hda

theorem Blocks.take_spec (h : Blocks base start s fs us) (hx : x ∈ base :: fs.map Block.addr) (hn : 0 < n)
    (hle : n ≤ unitsOf s.mem (nextOf s.mem x)) :
    Wp (take x (nextOf s.mem x) n) (fun q s' => ∃ b fs', q = b.addr + 16 ∧ b.units = n ∧
      Blocks base start s' fs' (b :: us)) (fun _ => False) s := by
  unfold take unitSize ptr setPtr setUnitSize
  simp only [wp_bind, wp_get, wp_pure, wp_ite, wp_modify]
  obtain ⟨k, p, l, c, r, hk, rfl, rfl, hc⟩ := h.list.behind hx (Nat.lt_of_lt_of_le hn hle)
  have hp : p.addr ∈ (anchor base :: l).map Block.addr := List.mem_map_of_mem (by simp [hk])
  have hpr : ∀ r', p.addr ∈ base :: (l ++ r').map Block.addr := fun r' => by
    rw [List.map_append, ← List.cons_append]
    exact List.mem_append_left _ hp
  have hsize := h.list.linked_at.2.1
  have hfin : c.fin = c.addr + 16 * c.units := rfl
  have hbound := h.list.bound c (by simp)
  rw [← hc, hsize] at hle ⊢
  refine ⟨fun heq => ?_, fun hne => ?_⟩
  · exact ⟨c, l ++ r, plus_of_lt (by omega), heq, h.taken (h.list.unlink hk) (by omega) (hpr r)⟩
  · rw [unitsOf_size (by omega), plus_of_lt (x := c.addr) (by omega)]
    exact ⟨c.rear n, l ++ c.shrunk n :: r, plus_of_lt (by omega), rfl,
      h.taken (h.list.cut hn (by omega)) hn (hpr _)⟩

/-! ## Asking the kernel -/

theorem sbrk_spec (n : Nat) :
    Wp (sbrk n) (fun q s' => (q = failed ∧ s' = { s with answers := s.answers.tail }) ∨
      (q = s.sz ∧ s.sz + n < userTop ∧ s' = { s with sz := s.sz + n, answers := s.answers.tail }))
        (fun _ => False) s := by
  unfold sbrk
  simp only [wp_bind, wp_get, wp_ite, wp_set, wp_pure]
  refine ⟨fun hok => Or.inr ⟨trivial, by omega, ?_⟩, fun _ => Or.inl ⟨trivial, trivial⟩⟩
  rw [← Int.natCast_add, Int.toNat_natCast]

/-- The memory that `sbrk` adds is one more block. -/
theorem Blocks.grow (h : Blocks base start s fs us) (hn : 0 < n) (hlt : s.sz + 16 * n < userTop) (t : List Bool) :
    Blocks base start { s with mem := s.mem.putLe (s.sz + 8) 8 n, sz := s.sz + 16 * n, answers := t } fs
      (⟨s.sz, n⟩ :: us) := by
  have habove := h.above
  have hlow := h.low
  have honly := onlyHeader_size s.mem s.sz n
  have hbelow : ∀ a, Covers fs a ∨ Covers us a → a < s.sz := fun a ha => ((h.exact a).mp ha).2
  have hnew : ∀ a, (⟨s.sz, n⟩ : Block).Has a → ¬ (Covers fs a ∨ Covers us a) :=
    fun a ha hc => Nat.not_lt_of_le ha.1 (hbelow a hc)
  refine ⟨{ h.list with linked := h.list.linked.only honly fun b hb => Or.inl ?_ }, h.here, fun b hb => ?_,
    fun b hb => ?_, List.pairwise_cons.mpr ⟨fun b hb a ha hba => hnew a ha (Or.inr ⟨b, hb, hba⟩), h.apart⟩,
      fun a ha hfa => ?_, fun a => ?_,
    h.above, ?_, hlt⟩
  · obtain rfl | hb := List.mem_cons.mp hb
    · show base + 16 ≤ s.sz
      omega
    · have hfin : b.fin = b.addr + 16 * b.units := rfl
      have := h.list.units b hb
      have := h.bounds (Or.inl hb)
      omega
  · obtain rfl | hb := List.mem_cons.mp hb
    · simp only [userTop] at hlt
      exact unitsOf_size (by omega)
    · exact h.unitsOf_kept hb fun a _ ha => honly a (Or.inl (hbelow a (Or.inr ⟨b, hb, ha⟩)))
  · obtain rfl | hb := List.mem_cons.mp hb
    · exact hn
    · exact h.units b hb
  · obtain ha | ha := covers_cons.mp ha
    · exact hnew a ha (Or.inl hfa)
    · exact h.disjoint a ha hfa
  · rw [covers_cons, or_left_comm, h.exact a]
    show (s.sz ≤ a ∧ a < s.sz + 16 * n) ∨ _ ↔ start ≤ a ∧ a < s.sz + 16 * n
    omega
  · show start ≤ s.sz + 16 * n
    omega

/-- What `more_core` asks for. -/
theorem units_asked (n : Nat) : (if n < 4096 then 4096 else n) = max n 4096 := by
  rw [Nat.max_def]
  split <;> split <;> omega

theorem Blocks.moreCore_spec (h : Blocks base start s fs us) (hn : 16 * max n 4096 < 2 ^ 31) :
    Wp (moreCore n) (fun q s' => (q = 0 ∧ Blocks base start s' fs us) ∨
      (q = s'.freeP ∧ ∃ fs', Blocks base start s' fs' us ∧ ∃ c ∈ fs', n ≤ c.units)) (fun _ => False) s := by
  have harg : Int.bmod ((max n 4096 : Nat) * (headerSize : Nat)) (2 ^ 32) = (16 * max n 4096 : Nat) := by
    rw [Int.mul_comm, ← Int.natCast_mul]
    unfold headerSize
    exact Int.bmod_eq_of_le (by omega) (by omega)
  have hpos : 0 < max n 4096 := by omega
  unfold moreCore
  simp only [units_asked, harg]
  refine Wp.bind (sbrk_spec _) ?_
  rintro q t (⟨hq, ht⟩ | ⟨hq, hlt, ht⟩)
  · rw [if_pos hq, wp_pure, ht]
    exact Or.inl ⟨rfl, { h with }⟩
  · have hne : q ≠ failed := by
      unfold failed
      simp only [userTop] at hlt
      omega
    have hplus : plus q 1 = s.sz + 16 := by
      rw [hq]
      simp only [userTop] at hlt
      exact plus_of_lt (by omega)
    rw [if_neg hne, hplus, hq, ht]
    unfold setUnitSize
    rw [wp_bind, wp_modify, wp_bind]
    refine (h.grow hpos hlt _).free_spec.post ?_
    rintro _ u ⟨fs', hu, c, hc, hle⟩
    rw [wp_bind, wp_get, wp_pure]
    exact Or.inr ⟨rfl, fs', hu, c, hc, (Nat.le_max_left n 4096).trans hle⟩

/-! ## The loop -/

/-- What `malloc` returns: no block, or a new one of `n` units. -/
def Returned (base start n : Nat) (us : List Block) (q : Nat) (s : Heap) : Prop :=
  (q = 0 ∧ ∃ fs, Blocks base start s fs us) ∨ ∃ b fs, q = b.addr + 16 ∧ b.units = n ∧ Blocks base start s fs (b :: us)

/-- The loop is at `p` with `prevP` before it, and takes at most `k` steps more: to a block of `n` units that it reaches
before it is at `free_p`, or to `free_p` and around the list again. -/
structure Searching (base start n : Nat) (us : List Block) (k prevP p : Nat) (s : Heap) (fs : List Block) : Prop where
  blocks : Blocks base start s fs us
  prev : prevP ∈ base :: fs.map Block.addr
  next : p = nextOf s.mem prevP
  way : (∃ c ∈ fs, n ≤ c.units ∧ ahead (2 ^ 64) p c.addr ≤ ahead (2 ^ 64) p s.freeP ∧ ahead (2 ^ 64) p c.addr ≤ k) ∨
    (16 * max n 4096 < 2 ^ 31 ∧ 2 ^ 64 + ahead (2 ^ 64) p s.freeP ≤ k)

theorem Searching.mono {k k' prevP : Nat} (h : Searching base start n us k prevP x s fs) (hk : k ≤ k') :
    Searching base start n us k' prevP x s fs := by
  refine { h with way := h.way.imp ?_ fun hway => ⟨hway.1, hway.2.trans hk⟩ }
  rintro ⟨c, hc, hn, hway, hck⟩
  exact ⟨c, hc, hn, hway, hck.trans hk⟩

/-- Behind `free_p` the walk is before every block. -/
theorem Blocks.searching (h : Blocks base start s fs us) (hc : c ∈ fs) (hn : n ≤ c.units) :
    Searching base start n us (2 ^ 64 - 1) s.freeP (nextOf s.mem s.freeP) s fs := by
  have hmem : c.addr ∈ base :: fs.map Block.addr := List.mem_cons_of_mem _ (List.mem_map_of_mem hc)
  have hlt := ahead_lt (p := nextOf s.mem s.freeP) (h.list.addr_lt _ hmem)
  exact ⟨h, h.here, rfl, Or.inl ⟨c, hc, hn, h.list.ring.ahead_last h.list.addr_lt h.here hmem, by omega⟩⟩

/-- A block that is on the way and is not here is still on the way from the next place. -/
theorem Searching.step {k prevP : Nat} (h : Searching base start n us k prevP x s fs) (hsmall : ¬ n ≤ unitsOf s.mem x)
    (hne : x ≠ s.freeP) : ∃ k' < k, Searching base start n us k' x (nextOf s.mem x) s fs := by
  have hring := h.blocks.list.ring
  have hlt := h.blocks.list.addr_lt
  have hx : x ∈ base :: fs.map Block.addr := h.next ▸ (hring.after h.prev).mem
  obtain ⟨d, hd, hstep⟩ := hring.ahead_next hlt hx
  have hfree := hstep _ h.blocks.here hne
  obtain ⟨c, hc, hn, hway, hk⟩ | ⟨hn, hk⟩ := h.way
  · have hxc : x ≠ c.addr := by
      rintro rfl
      rw [h.blocks.list.linked.size c (List.mem_cons_of_mem _ hc)] at hsmall
      exact hsmall hn
    have hcx := hstep c.addr (List.mem_cons_of_mem _ (List.mem_map_of_mem hc)) hxc
    exact ⟨_, by omega, h.blocks, hx, rfl, Or.inl ⟨c, hc, hn, by omega, Nat.le_refl _⟩⟩
  · exact ⟨_, by omega, h.blocks, hx, rfl, Or.inr ⟨hn, Nat.le_refl _⟩⟩

/-- At `free_p` there is no block on the way, and the loop asks for more memory. -/
theorem Searching.atFree {k prevP : Nat} (h : Searching base start n us k prevP x s fs) (hsmall : ¬ n ≤ unitsOf s.mem x)
    (heq : x = s.freeP) : 16 * max n 4096 < 2 ^ 31 ∧ 2 ^ 64 ≤ k := by
  obtain ⟨c, hc, hn, hway, -⟩ | ⟨hn, hk⟩ := h.way
  · rw [← heq, ahead_self] at hway
    have hx : x ∈ base :: fs.map Block.addr := heq ▸ h.blocks.here
    obtain rfl := eq_of_ahead (h.blocks.list.addr_lt x hx) (Nat.le_zero.mp hway)
    rw [h.blocks.list.linked.size c (List.mem_cons_of_mem _ hc)] at hsmall
    exact absurd hn hsmall
  · exact ⟨hn, by omega⟩

theorem mallocBody_spec {k prevP : Nat} (h : Searching base start n us k prevP x s fs) (hn : 0 < n) (hbase : 0 < base) :
    Wp (mallocBody n (prevP, x)) (fun q s' =>
      match q with
      | .inl i => ∃ k' < k, ∃ fs', Searching base start n us k' i.1 i.2 s' fs'
      | .inr q => Returned base start n us q s') (fun _ => False) s := by
  unfold mallocBody unitSize ptr
  simp only [wp_bind, wp_get, wp_pure, wp_ite]
  refine ⟨fun hle => ?_, fun hsmall => ⟨fun heq => ?_, fun hne => ?_⟩⟩
  · have hnext := h.next
    subst hnext
    exact (h.blocks.take_spec h.prev hn hle).post fun q s' hq => Or.inr hq
  · obtain ⟨hmore, hk⟩ := h.atFree hsmall heq
    refine (h.blocks.moreCore_spec hmore).post ?_
    rintro q t (⟨rfl, ht⟩ | ⟨rfl, fs', ht, c, hc, hle⟩)
    · exact ⟨fun _ => Or.inl ⟨rfl, fs, ht⟩, fun h0 => absurd rfl h0⟩
    · have hpos := ht.list.ring.le ht.here
      exact ⟨fun h0 => by omega, fun _ => ⟨_, by omega, fs', ht.searching hc hle⟩⟩
  · obtain ⟨k', hk', h'⟩ := h.step hsmall hne
    exact ⟨k', hk', fs, h'⟩

theorem Blocks.loop_spec (h : Blocks base start s fs us) (hbase : 0 < base) (hn : 0 < n)
    (hroom : 16 * max n 4096 < 2 ^ 31 ∨ ∃ c ∈ fs, n ≤ c.units) :
    Wp (loop (mallocBody n) rounds (s.freeP, nextOf s.mem s.freeP)) (Returned base start n us) (fun _ => False) s := by
  have hstart : Searching base start n us (2 ^ 65) s.freeP (nextOf s.mem s.freeP) s fs := by
    obtain hsmall | ⟨c, hc, hle⟩ := hroom
    · have hlt := ahead_lt (p := nextOf s.mem s.freeP) (h.list.addr_lt _ h.here)
      exact ⟨h, h.here, rfl, Or.inr ⟨hsmall, by omega⟩⟩
    · exact (h.searching hc hle).mono (by omega)
  refine wp_loop_within (fun k i t => ∃ fs, Searching base start n us k i.1 i.2 t fs) ?_ rounds _ _ s
    ⟨fs, hstart⟩ (by decide)
  rintro k ⟨prevP, p⟩ t ⟨fs, ht⟩
  refine (mallocBody_spec ht hn hbase).post ?_
  rintro (i | q) t' hq
  · exact hq
  · exact hq

/-! ## malloc -/

/-- The heap between the calls: the first `malloc` still has to make the list, or there is one. -/
def Ready (base start : Nat) (s : Heap) (us : List Block) : Prop :=
  (s.freeP = 0 ∧ s.sz = start ∧ us = []) ∨ ∃ fs, Blocks base start s fs us

/-- A place on the list has `n` units. -/
def HasRoom (base : Nat) (s : Heap) (n : Nat) : Prop :=
  s.freeP ≠ 0 ∧ ∃ j, n ≤ unitsOf s.mem ((nextOf s.mem)^[j] base)

theorem Blocks.room (h : Blocks base start s fs us) (hn : 0 < n) (hroom : HasRoom base s n) :
    ∃ c ∈ fs, n ≤ c.units := by
  obtain ⟨-, j, hj⟩ := hroom
  have hmem : (nextOf s.mem)^[j] base ∈ base :: fs.map Block.addr := by
    clear hj
    induction j with
    | zero => exact List.mem_cons_self
    | succ j ih =>
        rw [Function.iterate_succ_apply']
        exact (h.list.ring.after ih).mem
  obtain ⟨c, hc, hcj⟩ := List.mem_map.mp (show _ ∈ (anchor base :: fs).map Block.addr from hmem)
  rw [← hcj, h.list.linked.size c hc] at hj
  obtain rfl | hc := List.mem_cons.mp hc
  · exact absurd hj (Nat.not_le_of_lt hn)
  · exact ⟨c, hc, hj⟩

/-- The list that the first `malloc` makes. -/
theorem freeBlocks_nil (m : Bytes) (hbase : base < userTop) :
    FreeBlocks base ((m.putLe base 8 base).putLe (base + 8) 8 0) [] := by
  simp only [userTop] at hbase
  have hnext : nextOf ((m.putLe base 8 base).putLe (base + 8) 8 0) base = base := by
    rw [nextOf_size, nextOf_ptr (by omega)]
  refine ⟨linked_cons.mpr ⟨rfl, unitsOf_size (by omega), hnext, by simp⟩, List.pairwise_singleton _ _, by simp,
    fun b hb => ?_⟩
  rw [List.mem_singleton.mp hb]
  show base + 16 * 0 < 2 ^ 63
  omega

theorem mallocInit_spec (h : Ready base start s us) (hbase : 0 < base) (habove : base + 16 ≤ start)
    (htop : start < userTop) (hn : 0 < n) (hroom : 16 * max n 4096 < 2 ^ 31 ∨ HasRoom base s n) :
    Wp (mallocInit base) (fun _ s' => ∃ fs, Blocks base start s' fs us ∧
      (16 * max n 4096 < 2 ^ 31 ∨ ∃ c ∈ fs, n ≤ c.units)) (fun _ => False) s := by
  unfold mallocInit setPtr setUnitSize
  simp only [wp_bind, wp_get, wp_ite, wp_modify, wp_pure]
  obtain ⟨hzero, rfl, rfl⟩ | ⟨fs, h⟩ := h
  · refine ⟨fun _ => ⟨[], ⟨freeBlocks_nil _ (by omega), List.mem_cons_self, by simp, by simp, .nil, by simp,
      fun a => ?_, habove, Nat.le_refl _, htop⟩, hroom.imp_right fun h => absurd hzero h.1⟩,
        fun hne => absurd hzero hne⟩
    simp only [covers_nil, or_self, false_iff]
    omega
  · have hpos := h.list.ring.le h.here
    exact ⟨fun hzero => by omega, fun _ => ⟨fs, h, hroom.imp_right (h.room hn)⟩⟩

theorem malloc_spec {nbytes : Nat} (h : Ready base start s us) (hbase : 0 < base) (habove : base + 16 ≤ start)
    (htop : start < userTop) (hroom : 16 * max (unitsFor nbytes) 4096 < 2 ^ 31 ∨ HasRoom base s (unitsFor nbytes)) :
    Wp (malloc base nbytes) (Returned base start (unitsFor nbytes) us) (fun _ => False) s := by
  have hn : 0 < unitsFor nbytes := Nat.succ_pos _
  unfold malloc ptr
  refine Wp.bind (mallocInit_spec h hbase habove htop hn hroom) ?_
  rintro _ t ⟨fs, ht, hroom⟩
  simp only [wp_bind, wp_get, wp_pure]
  exact ht.loop_spec hbase hn hroom

end Xv6.Umalloc
