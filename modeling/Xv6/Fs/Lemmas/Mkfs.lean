import Xv6.Fs.Lemmas.Tree
import Xv6.Fs.Mkfs

/-!
# The image builder keeps the kernel's invariant

The functions of `mkfs.c` work on the inodes on disk, and allocate blocks from a counter and without
zeroing them. `Built s N` says that the disk of the tool is well formed for the kernel and has the nodes
`N`, and that the counters are in step with it.
-/

namespace Xv6.Mkfs

open Xv6.Lib Xv6.Fs

/-- The super block is there, the bitmap marks the blocks below the counter, and the blocks from there on
were never written. -/
structure Bump (s : State) : Prop where
  sb : getSb (s.disk 1) = stdSb
  low : 6 ≤ s.bump
  high : s.bump ≤ 4096
  bits : ∀ b < 4096, bitSet (s.disk 2) b = true ↔ b < s.bump
  zero : ∀ b, s.bump ≤ b → s.disk b = fun _ => 0

structure Built (s : State) (N : Nat → Node) : Prop where
  wf : DiskWF s.disk
  bump : Bump s
  node : ∀ i, nodeOf s.disk (dinodeOf stdSb s.disk i) = N i
  fresh : ∀ i, s.ibump ≤ i → dinodeOf stdSb s.disk i = Dinode.zero

section

variable {s : State} {N : Nat → Node} {D : Nat → Dinode} {K : Nat → Nat} {i b : Nat} {E : Halt → Prop}

/-! ## Inodes -/

theorem inode_eq (s : State) (hi : i < 96) : s.inode i = dinodeOf stdSb s.disk i := by
  rw [dinodeOf_lt hi, State.inode, Nat.add_comm]
  rfl

theorem wp_setInode {Q : Unit → State → Prop} (d : Dinode) :
    Wp (setInode i d) Q E s ↔ Q () { s with disk := stored s.disk i d } := by
  unfold setInode store
  rw [wp_bind, wp_get, wp_modify, Nat.add_comm]
  rfl

theorem wp_modifyInode {Q : Unit → State → Prop} (hi : i < 96) (f : Dinode → Dinode) :
    Wp (modifyInode i f) Q E s ↔ Q () { s with disk := stored s.disk i (f (dinodeOf stdSb s.disk i)) } := by
  unfold modifyInode
  rw [wp_bind, wp_get, wp_setInode, inode_eq s hi]

-- a goal about a program must not be decided by reading numbers from symbolic blocks
attribute [local irreducible] Bytes.le

/-! ## Blocks -/

/-- The blocks that are left. -/
theorem Bump.free (h : Bump s) : freeBlocks s.disk + s.bump = 4096 := by
  have hset : (Finset.range 4096).filter (fun b => bitSet (s.disk 2) b = false) =
      (Finset.range 4096) \ Finset.range s.bump := by
    ext b
    simp only [Finset.mem_filter, Finset.mem_sdiff, Finset.mem_range]
    refine and_congr_right fun hb => ?_
    rw [← Bool.not_eq_true, h.bits b hb]
  rw [freeBlocks, hset, Finset.card_sdiff_of_subset (Finset.range_subset_range.mpr h.high), Finset.card_range,
    Finset.card_range]
  have := h.high
  omega

theorem Bump.lowest (h : Bump s) (hlt : s.bump < 4096) : IsLowestFree s.disk s.bump := by
  refine ⟨hlt, ?_, fun c hc => (h.bits c (by omega)).mpr hc⟩
  rw [← Bool.not_eq_true, h.bits _ hlt]
  exact lt_irrefl _

/-- A block that was never written does not have to be zeroed. -/
theorem Bump.setBit_eq (h : Bump s) : upd s.disk 2 (setBit (s.disk 2) s.bump) = allocated s.disk s.bump := by
  have hlow := h.low
  rw [allocated]
  funext c
  by_cases hc : c = s.bump
  · rw [hc, upd_self, upd_of_ne (by omega), h.zero _ (le_refl _)]
  · rw [upd_of_ne hc]

theorem Bump.next (h : Bump s) (hlt : s.bump < 4096) :
    Bump { s with disk := allocated s.disk s.bump, bump := s.bump + 1 } := by
  have hlow := h.low
  refine ⟨?_, Nat.le_succ_of_le hlow, hlt, fun b hb => ?_, fun b hb => ?_⟩
  · change getSb (allocated s.disk s.bump 1) = stdSb
    rw [allocated_of_ne (by omega) (by omega)]
    exact h.sb
  · change bitSet (allocated s.disk s.bump 2) b = true ↔ b < s.bump + 1
    rw [bitSet_allocated hlow, Bool.or_eq_true, decide_eq_true_eq, h.bits b hb]
    omega
  · change s.bump + 1 ≤ b at hb
    change allocated s.disk s.bump b = _
    rw [allocated_of_ne (by omega) (by omega), h.zero b (by omega)]

theorem wp_balloc {Q : Nat → State → Prop} (h : Bump s) (hlt : s.bump < 4096) :
    Wp balloc Q E s ↔ Q s.bump { s with disk := allocated s.disk s.bump, bump := s.bump + 1 } := by
  unfold balloc store
  rw [wp_bind, wp_get, h.sb]
  dsimp only
  rw [bblock_stdSb hlt, wp_bind, wp_modify, wp_bind, wp_modify, h.setBit_eq]
  rfl

/-- The counter and the bitmap do not depend on inodes and on blocks in use. -/
theorem Bump.congr {disk' : Nat → Bytes} (h : Bump s) (h1 : disk' 1 = s.disk 1) (h2 : disk' 2 = s.disk 2)
    (hz : ∀ b, s.bump ≤ b → disk' b = s.disk b) : Bump { s with disk := disk' } := by
  refine ⟨?_, h.low, h.high, fun b hb => ?_, fun b hb => ?_⟩
  · change getSb (disk' 1) = stdSb
    rw [h1]
    exact h.sb
  · change bitSet (disk' 2) b = true ↔ _
    rw [h2]
    exact h.bits b hb
  · change disk' b = _
    rw [hz b hb]
    exact h.zero b hb

theorem Bump.stored (h : Bump s) (hi : i < 96) (d : Dinode) : Bump { s with disk := stored s.disk i d } :=
  h.congr (stored_of_ge hi (by omega)) (stored_of_ge hi (by omega))
    fun b hb => stored_of_ge hi (Or.inl (le_trans h.low hb))

theorem Bump.write (h : Bump s) {c : Nat} (hc : 6 ≤ c ∧ c < s.bump) (v : Bytes) :
    Bump { s with disk := upd s.disk c v } :=
  h.congr (upd_of_ne (by omega) _ _) (upd_of_ne (by omega) _ _) fun b hb => upd_of_ne (by omega) _ _

/-! ## Mapping a block -/

/-- A block in use is below the counter. -/
theorem Bump.of_place {S : Nat → Nat → Prop} (h : Bump s) (hf : Files s.disk D S) {n : Nat} (hs : S i n) :
    6 ≤ place s.disk (D i) n ∧ place s.disk (D i) n < s.bump := by
  have hr := hf.range hs
  exact ⟨hr.1, (h.bits _ hr.2).mp ((hf.bit _ hr.2).mpr (Or.inr ⟨i, n, hs, rfl⟩))⟩

theorem bmap_hit {bn : Nat} {S : Nat → Nat → Prop} (hD : dinodeOf stdSb s.disk = D) (h : Files s.disk D S)
    (hs : S i bn) (hbn : bn < 525) : Wp (bmap i bn) (fun b s' => b = place s.disk (D i) bn ∧ s' = s) E s := by
  have hr := h.range hs
  have hi := (h.dom hs).1
  unfold bmap
  rw [wp_bind, wp_get, wp_ite, inode_eq s hi, hD]
  refine ⟨fun hlt => ?_, fun hge => ?_⟩
  · rw [place_direct hlt] at hr ⊢
    rw [if_neg (by omega)]
    exact ⟨rfl, rfl⟩
  · have h13 : 13 ≤ bn := by simpa using hge
    have ha := h.addr_range (h.closed hs h13)
    rw [place_entry h13 hbn (by omega)] at hr ⊢
    rw [if_pos (by simp; omega), if_neg (by omega), wp_bind, wp_pure, wp_bind, wp_get,
      if_neg (by simp only [ndirect]; omega)]
    exact ⟨rfl, rfl⟩

/-- The state of the tool after a block was mapped. -/
structure Maps (s : State) (D : Nat → Dinode) (K : Nat → Nat) (i bn : Nat) (b : Nat) (s' : State) (d : Dinode) :
    Prop where
  mapped : Mapped s.disk D K i bn s'.disk d b
  dinode : dinodeOf stdSb s'.disk = upd D i d
  bump : Bump s'
  ibump : s'.ibump = s.ibump

theorem Grown.maps {s' : State} {disk' : Nat → Bytes} {d : Dinode} (h : Grown s.disk D K i disk' d b) (hi : i < 96)
    (hK : ∀ j, K j ≤ 525) (h2 : s'.disk 2 = disk' 2) (ht : ∀ c, 6 ≤ c → s'.disk c = disk' c)
    (hdin : dinodeOf stdSb s'.disk = upd D i d) (hb : Bump s') (hib : s'.ibump = s.ibump) : Maps s D K i (K i) b s' d :=
  ⟨(h.mapped hi hK).tail hi h2 ht, hdin, hb, hib⟩

/-- Blocks in front of the inode table and behind it are not inodes. -/
theorem dinodeOf_allocated (disk : Nat → Bytes) (hb : 6 ≤ b) :
    dinodeOf stdSb (allocated disk b) = dinodeOf stdSb disk :=
  dinodeOf_congr fun c hc h2 => allocated_of_ne h2 (by omega)

theorem dinodeOf_upd (disk : Nat → Bytes) (hb : 6 ≤ b) (v : Bytes) :
    dinodeOf stdSb (upd disk b v) = dinodeOf stdSb disk :=
  dinodeOf_congr fun c hc _ => upd_of_ne (by omega) _ _

theorem allocated_stored (disk : Nat → Bytes) (hi : i < 96) (d : Dinode) {c : Nat} (hc : 6 ≤ c ∨ c < 3) :
    allocated (stored disk i d) b c = allocated disk b c := by
  unfold allocated
  rw [upd_apply, upd_apply, upd_apply, upd_apply, stored_of_ge hi hc, stored_of_ge hi (Or.inr (by decide))]

theorem withAddr_fits {d : Dinode} (hd : d.Fits) (k : Fin 14) {v : Nat} (hv : v < 4096) : (d.withAddr k v).Fits := by
  refine ⟨hd.type, hd.major, hd.minor, hd.nlink, hd.size, fun n => ?_⟩
  change upd d.addrs k v n < 2 ^ 64
  rw [upd_apply]
  split
  · exact lt_trans hv (by decide)
  · exact hd.addrs n

theorem wp_setAddr {Q : Unit → State → Prop} (hi : i < 96) (k : Fin 14) (v : Nat) :
    Wp (setAddr i k v) Q E s ↔ Q () { s with disk := stored s.disk i ((dinodeOf stdSb s.disk i).withAddr k v) } :=
  wp_modifyInode hi _

theorem bmap_grow (hb : Bump s) (hD : dinodeOf stdSb s.disk = D) (h : Files s.disk D (shape K)) (hi : i < 96)
    (hK : ∀ j, K j ≤ 525) (hKi : K i < 525) (hroom : blocksFor (K i + 1) ≤ freeBlocks s.disk + blocksFor (K i)) :
    Wp (bmap i (K i)) (fun b s' => ∃ d, Maps s D K i (K i) b s' d) E s := by
  have hfree := hb.free
  have hlow := hb.low
  have hfits : (D i).Fits := by
    rw [← hD]
    exact dinodeOf_fits _ _
  have hempty : ∀ n < 526, ¬ shape K i n → place s.disk (D i) n = 0 := fun n hn hns =>
    by_contra fun h0 => hns (h.tight hi hn h0)
  unfold bmap
  rw [wp_bind, wp_get, inode_eq s hi, hD]
  by_cases hdir : K i < 13
  · have h0 : (D i).addrs (Fin.ofNat 14 (K i)) = 0 := by
      rw [← place_direct hdir s.disk]
      exact hempty _ (by omega) (by rw [shape]; omega)
    rw [blocksFor_direct (by omega), blocksFor_direct (by omega)] at hroom
    rw [if_pos (by simpa using hdir), if_pos h0]
    have hlt : s.bump < 4096 := by omega
    rw [wp_bind, wp_balloc hb hlt, wp_bind, wp_setAddr hi, dinodeOf_allocated _ hlow, hD]
    refine ⟨_, Grown.maps (Grown.direct h hi hdir (hb.lowest hlt)) hi hK ?_
      (fun c hc => stored_of_ge hi (Or.inl hc)) ?_ ((hb.next hlt).stored hi _) rfl⟩
    · change stored (allocated s.disk s.bump) i ((D i).withAddr (Fin.ofNat 14 (K i)) s.bump) 2 = _
      exact stored_of_ge hi (Or.inr (by decide))
    change dinodeOf stdSb (stored (allocated s.disk s.bump) i _) = _
    rw [dinodeOf_stored hi (withAddr_fits hfits _ hlt), dinodeOf_allocated _ hlow, hD]
  · rw [if_neg (by simpa using hdir), if_pos (by simp; omega)]
    by_cases h13 : K i = 13
    · have h0 : (D i).addrs indirect = 0 := by
        rw [← place_indirect s.disk]
        exact hempty _ (by omega) (by rw [shape]; omega)
      rw [h13, blocksFor_direct (le_refl 13), blocksFor_indirect (by omega)] at hroom
      rw [if_pos h0]
      have hlt : s.bump < 4096 := by omega
      rw [wp_bind, wp_balloc hb hlt, wp_bind, wp_setAddr hi, dinodeOf_allocated _ hlow, hD, wp_bind, wp_pure,
        wp_bind, wp_get]
      have hb1 := (hb.next hlt).stored hi ((D i).withAddr indirect s.bump)
      have hz : getAddr (stored (allocated s.disk s.bump) i ((D i).withAddr indirect s.bump) s.bump)
          (K i - ndirect) = 0 := by
        rw [stored_of_ge hi (Or.inl hlow), allocated_self, getAddr_zero]
      rw [if_pos hz]
      have hlt1 : s.bump + 1 < 4096 := by omega
      rw [wp_bind, wp_balloc hb1 hlt1]
      have hc := (hb.next hlt).lowest hlt1
      rw [wp_bind, wp_get, wp_bind]
      unfold store
      rw [wp_modify]
      have heq : ∀ c, 6 ≤ c ∨ c < 3 →
          upd (allocated (stored (allocated s.disk s.bump) i ((D i).withAddr indirect s.bump)) (s.bump + 1)) s.bump
            (putAddr (allocated (stored (allocated s.disk s.bump) i ((D i).withAddr indirect s.bump)) (s.bump + 1)
              s.bump) (K i - ndirect) (s.bump + 1)) c =
          entryStored (allocated s.disk s.bump) s.bump 0 (s.bump + 1) c := by
        intro c hc
        rw [h13, entryStored, upd_apply, upd_apply, allocated_stored _ hi _ hc, allocated_stored _ hi _ (Or.inl hlow)]
        rfl
      refine ⟨_, Grown.maps (Grown.first_entry h hi h13 (hb.lowest hlt) hc) hi hK (heq 2 (Or.inr (by decide)))
        (fun c hc => heq c (Or.inl hc)) ?_ ((hb1.next hlt1).write ⟨hlow, by change _ < _ + 1 + 1; omega⟩ _) rfl⟩
      change dinodeOf stdSb (upd (allocated (stored (allocated s.disk s.bump) i _) (s.bump + 1)) s.bump _) = _
      rw [dinodeOf_upd _ hlow, dinodeOf_allocated _ (by omega), dinodeOf_stored hi (withAddr_fits hfits _ hlt),
        dinodeOf_allocated _ hlow, hD]
    · have hs : shape K i 525 := ⟨hi, Or.inr ⟨rfl, by omega⟩⟩
      obtain ⟨ha6, ha⟩ := h.addr_range hs
      have hab := hb.of_place h hs
      rw [place_indirect] at hab
      have hz : getAddr (s.disk ((D i).addrs indirect)) (K i - ndirect) = 0 := by
        have := hempty (K i) (by omega) (by rw [shape]; omega)
        rwa [place_entry (by omega) hKi (by omega)] at this
      rw [blocksFor_indirect (by omega), blocksFor_indirect (by omega)] at hroom
      have hlt : s.bump < 4096 := by omega
      rw [if_neg (by omega), wp_bind, wp_pure, wp_bind, wp_get, if_pos hz, wp_bind, wp_balloc hb hlt, wp_bind, wp_get,
        wp_bind]
      unfold store
      rw [wp_modify]
      refine ⟨_, Grown.maps (Grown.entry h hi (by omega) hKi (hb.lowest hlt)) hi hK rfl (fun _ _ => rfl) ?_
        ((hb.next hlt).write ⟨hab.1, Nat.lt_succ_of_lt hab.2⟩ _) rfl⟩
      change dinodeOf stdSb (upd (allocated s.disk s.bump) _ _) = _
      rw [dinodeOf_upd _ ha6, dinodeOf_allocated _ hlow, hD, upd_eta]

/-- A block of the file, or the one behind its last. -/
theorem bmap_spec {bn : Nat} (hb : Bump s) (hD : dinodeOf stdSb s.disk = D) (h : Files s.disk D (shape K)) (hi : i < 96)
    (hK : ∀ j, K j ≤ 525) (hbn : bn ≤ K i) (hbn' : bn < 525)
    (hroom : blocksFor (max (K i) (bn + 1)) ≤ freeBlocks s.disk + blocksFor (K i)) :
    Wp (bmap i bn) (fun b s' => ∃ d, Maps s D K i bn b s' d) E s := by
  rcases Nat.lt_or_eq_of_le hbn with hlt | rfl
  · refine (bmap_hit hD h (show shape K i bn from ⟨hi, Or.inl hlt⟩) hbn').post ?_
    rintro _ _ ⟨rfl, rfl⟩
    exact ⟨D i, Mapped.hit h hlt, by rw [upd_eta]; exact hD, hb, rfl⟩
  · rw [Nat.max_eq_right (Nat.le_succ _)] at hroom
    exact bmap_grow hb hD h hi hK hbn' hroom

/-! ## Reading and writing -/

theorem readi_spec (hD : dinodeOf stdSb s.disk = D) (h : Files s.disk D (shape K)) (hi : i < 96)
    (hsize : blocksOf (D i).size ≤ K i) (hK : K i ≤ 525) {off n : Nat} (hoff : off ≤ (D i).size)
    (hn : off + n < 2 ^ 64) :
    Wp (readi i off n) (fun r s' => s' = s ∧ r = some ((byteAt s.disk (D i)).slice off (min n ((D i).size - off)))) E
      s := by
  unfold readi
  rw [wp_bind, wp_get, inode_eq s hi, hD]
  dsimp only
  have h64 : u64 (off + n) = off + n := u64_of_lt hn
  rw [h64, if_neg (by omega)]
  generalize hm : (if (D i).size < off + n then (D i).size - off else n) = m
  have hm' : m = min n ((D i).size - off) := by
    rw [← hm]
    split <;> omega
  rw [← hm']
  refine wp_loop (fun x t => t = s ∧ x.1 ≤ m ∧ x.2.1 = off + x.1 ∧ x.2.2 = (byteAt s.disk (D i)).slice off x.1)
    (fun x => m - x.1) ?_ _ _ _ ⟨rfl, Nat.zero_le _, rfl, rfl⟩ (by omega)
  rintro ⟨tot, off', dst⟩ t ⟨rfl, htot, hoff', hdst⟩
  simp only [bsize] at htot hoff' hdst ⊢
  subst hoff' hdst
  rw [wp_ite]
  refine ⟨fun hmore => ?_, fun hdone => ?_⟩
  · have hlt : (off + tot) / 4096 < K i := by
      have : off + tot < (D i).size := by omega
      exact lt_of_lt_of_le (lt_blocksOf this) hsize
    refine Wp.bind (bmap_hit hD h (show shape K i _ from ⟨hi, Or.inl hlt⟩) (by omega)) ?_
    rintro _ _ ⟨rfl, rfl⟩
    rw [wp_bind, wp_get]
    refine ⟨⟨rfl, by simp only []; omega, by simp only []; omega, ?_⟩, by simp only []; omega⟩
    simp only []
    rw [slice_block _ _ (by omega), ← Bytes.slice_add]
  · have : tot = m := by omega
    subst this
    exact ⟨rfl, rfl⟩

theorem writei_loop (hb : Bump s) (hD : dinodeOf stdSb s.disk = D) (h : Files s.disk D (shape K)) (hi : i < 96)
    (hK : ∀ j, K j ≤ 525) (hsize : blocksOf (D i).size = K i) {src : Bytes} {off n : Nat} (hoff : off ≤ (D i).size)
    (hn : off + n ≤ 525 * 4096)
    (hroom : blocksFor (max (K i) (blocksOf (off + n))) ≤ freeBlocks s.disk + blocksFor (K i)) :
    Wp (writei i src off n) (fun r s' => r = n ∧ ∃ t d, Written s.disk D K i src off n t.disk d ∧
        dinodeOf stdSb t.disk = upd D i d ∧ Bump t ∧ t.ibump = s.ibump ∧
        s' = if (D i).size < off + n then { t with disk := stored t.disk i { d with size := off + n } } else t)
      E s := by
  have h64 : u64 (off + n) = off + n := u64_of_lt (by omega)
  unfold writei
  rw [wp_bind, wp_get, inode_eq s hi, hD]
  dsimp only
  rw [h64, if_neg (by omega), if_neg (by simp; omega)]
  refine Wp.bind (R := fun r t => r = (n, off + n) ∧ ∃ d, Written s.disk D K i src off n t.disk d ∧
    dinodeOf stdSb t.disk = upd D i d ∧ Bump t ∧ t.ibump = s.ibump) ?_ ?_
  · refine wp_loop (fun x t => x.1 ≤ n ∧ x.2 = off + x.1 ∧ ∃ d, Written s.disk D K i src off x.1 t.disk d ∧
        dinodeOf stdSb t.disk = upd D i d ∧ Bump t ∧ t.ibump = s.ibump)
      (fun x => n - x.1) ?_ _ _ _ ⟨Nat.zero_le _, rfl, D i, Written.zero h ?_, by rw [upd_eta]; exact hD, hb, rfl⟩
      (by omega)
    · rintro ⟨tot, off'⟩ t ⟨htot, hoff', d, hw, hdin, hbt, hib⟩
      simp only [bsize] at htot hoff' hw ⊢
      subst hoff'
      rw [wp_ite]
      refine ⟨fun hmore => ?_, fun hdone => ?_⟩
      · have hK' : ∀ j, upd K i (max (K i) (blocksOf (off + tot))) j ≤ 525 := by
          intro j
          rw [upd_apply]
          split
          · have := hK i
            simp only [blocksOf]
            omega
          · exact hK j
        have hroom' : blocksFor (max (upd K i (max (K i) (blocksOf (off + tot))) i) ((off + tot) / 4096 + 1)) ≤
            freeBlocks t.disk + blocksFor (upd K i (max (K i) (blocksOf (off + tot))) i) := by
          have hfree := hw.free
          have hmono := blocksFor_mono (show max (max (K i) (blocksOf (off + tot))) ((off + tot) / 4096 + 1) ≤
            max (K i) (blocksOf (off + n)) by simp only [blocksOf]; omega)
          rw [upd_self]
          omega
        refine Wp.bind (bmap_spec hbt hdin hw.files hi hK' ?_ (by omega) hroom') ?_
        · rw [upd_self]
          simp only [blocksOf]
          omega
        · rintro b t' ⟨d', hm⟩
          have hstep := hw.step (m := min (n - tot) (4096 - (off + tot) % 4096)) hi hm.mapped (by omega) (by omega)
            (by omega)
          have hbb : 6 ≤ b ∧ b < t'.bump := by
            have := hm.bump.of_place hm.mapped.files (show shape _ i ((off + tot) / 4096) from ⟨hi, Or.inl (by
              rw [upd_self, upd_self]; omega)⟩)
            rwa [upd_self, hm.mapped.place] at this
          rw [wp_bind, wp_get, wp_bind]
          unfold store
          rw [wp_modify]
          refine ⟨⟨?_, ?_, d', hstep, ?_, hm.bump.write hbb _, hm.ibump.trans hib⟩, ?_⟩
          · simp only []
            omega
          · simp only []
            omega
          · change dinodeOf stdSb (upd t'.disk b _) = _
            rw [dinodeOf_upd _ hbb.1, hm.dinode, upd_upd]
          · simp only []
            omega
      · have : tot = n := by omega
        subst this
        exact ⟨rfl, d, hw, hdin, hbt, hib⟩
    · rw [← hsize]
      simp only [blocksOf]
      omega
  · rintro _ t ⟨rfl, d, hw, hdin, hbt, hib⟩
    dsimp only
    by_cases hgrow : (D i).size < off + n
    · rw [if_pos ⟨by omega, hgrow⟩, wp_bind, wp_modifyInode hi, hdin, upd_self]
      exact ⟨rfl, t, d, hw, hdin, hbt, hib, by rw [if_pos hgrow]⟩
    · rw [if_neg fun h => hgrow h.2]
      exact ⟨rfl, t, d, hw, hdin, hbt, hib, by rw [if_neg hgrow]⟩

/-! ## Nodes -/

theorem Built.files (h : Built s N) : Files s.disk (dinodeOf stdSb s.disk)
    (shape fun i => blocksOf (dinodeOf stdSb s.disk i).size) := h.wf.files

theorem Built.length (h : Built s N) (i : Nat) : (N i).data.length = (dinodeOf stdSb s.disk i).size := by
  rw [← h.node i]
  exact nodeOf_size _ _

/-- An inode is stored with the blocks that it had. -/
theorem Built.store {n ib : Nat} {d : Dinode} {x : Node} (h : Built s N) (hi : i < 96) (hib : i < ib)
    (hle : ∀ j, ib ≤ j → s.ibump ≤ j) (hfit : d.Fits) (haddrs : d.addrs = (dinodeOf stdSb s.disk i).addrs)
    (hsize : d.size = (dinodeOf stdSb s.disk i).size) (htype : d.type ≠ 0) (hx : x = nodeOf s.disk d)
    (hn : n = s.bump) :
    Built { s with disk := stored s.disk i d, ibump := ib, bump := n } (upd N i x) := by
  have hsz : ∀ j, (upd (dinodeOf stdSb s.disk) i d j).size = (dinodeOf stdSb s.disk j).size := by
    intro j
    rw [upd_apply]
    split
    · rw [hsize, ‹j = i›]
    · rfl
  have hf : Files s.disk (upd (dinodeOf stdSb s.disk) i d)
      (shape fun j => blocksOf (upd (dinodeOf stdSb s.disk) i d j).size) := by
    simp only [hsz]
    refine h.files.of_addrs fun j => ?_
    rw [upd_apply]
    split
    · rw [haddrs, ‹j = i›]
    · rfl
  obtain ⟨hwf, hnode⟩ := DiskWF.store s.disk hi hfit hf (fun j => by rw [hsz]; exact h.wf.size_le j) fun j hj => by
    rw [upd_apply] at hj
    split at hj
    · exact absurd hj htype
    · rw [hsz]
      exact h.wf.free j hj
  subst hn
  refine ⟨hwf, ?_, fun j => ?_, fun j hj => ?_⟩
  · have hb := h.bump.stored hi d
    exact ⟨hb.sb, hb.low, hb.high, hb.bits, hb.zero⟩
  · refine (hnode j).trans ?_
    rw [upd_apply, upd_apply]
    split
    · exact hx.symm
    · exact h.node j
  · change dinodeOf stdSb (stored s.disk i d) j = _
    change ib ≤ j at hj
    rw [dinodeOf_stored hi hfit, upd_of_ne (by omega)]
    exact h.fresh j (hle j hj)

theorem dialloc_spec {type : Int} (h : Built s N) (hib : s.ibump < 96) (ht : IsShort type) (hne : type ≠ 0) :
    Wp (dialloc type) (fun i s' => i = s.ibump ∧ s'.ibump = s.ibump + 1 ∧ s'.bump = s.bump ∧
      Built s' (upd N s.ibump ⟨type, 0, 0, 0, []⟩)) E s := by
  unfold dialloc
  have hz := h.fresh s.ibump (le_refl _)
  rw [wp_bind, wp_get, wp_bind, wp_modifyInode hib, wp_bind, wp_modify, hz]
  refine ⟨rfl, rfl, rfl, h.store hib (Nat.lt_succ_self _) (fun _ => Nat.le_of_succ_le) (Dinode.typed_fits ht)
    ?_ ?_ hne ?_ rfl⟩
  · rw [hz]
  · rw [hz]
  · rfl

/-- The link count and the device numbers are set. -/
theorem modifyInode_spec (nlink major minor : Int) (h : Built s N) (hi : i < s.ibump) (hi' : i < 96)
    (htype : (N i).type ≠ 0) (hfit : IsShort nlink ∧ IsShort major ∧ IsShort minor) {f : Dinode → Dinode}
    (hf : ∀ d, f d = { d with nlink := nlink, major := (f d).major, minor := (f d).minor })
    (hmm : (f (dinodeOf stdSb s.disk i)).major = major ∧ (f (dinodeOf stdSb s.disk i)).minor = minor) :
    Wp (modifyInode i f) (fun _ s' => s'.ibump = s.ibump ∧ s'.bump = s.bump ∧
      Built s' (upd N i { N i with nlink := nlink, major := major, minor := minor })) E s := by
  have hd := hf (dinodeOf stdSb s.disk i)
  rw [hmm.1, hmm.2] at hd
  have hfits := dinodeOf_fits s.disk i
  rw [wp_modifyInode hi', hd]
  refine ⟨rfl, rfl, h.store hi' hi (fun j hj => hj) ?_ rfl rfl ?_ ?_ rfl⟩
  · exact ⟨hfits.type, hfit.2.1, hfit.2.2, hfit.1, hfits.size, hfits.addrs⟩
  · rw [← h.node i] at htype
    exact htype
  · rw [← h.node i]
    rfl

theorem writei_spec {src : Bytes} (off : Nat) {n : Nat} (h : Built s N) (hi : i < s.ibump) (hi' : i < 96)
    (htype : (N i).type ≠ 0) (hoff : off ≤ (N i).data.length) (hn : off + n ≤ 525 * 4096)
    (hroom : blocksFor (max (blocksOf (N i).data.length) (blocksOf (off + n))) ≤
      freeBlocks s.disk + blocksFor (blocksOf (N i).data.length)) :
    Wp (writei i src off n) (fun r s' => r = n ∧ s'.ibump = s.ibump ∧
      freeBlocks s'.disk + blocksFor (max (blocksOf (N i).data.length) (blocksOf (off + n))) =
        freeBlocks s.disk + blocksFor (blocksOf (N i).data.length) ∧
      Built s' (upd N i { N i with data := overlay (N i).data off (src.slice 0 n) })) E s := by
  rw [h.length] at hoff hroom ⊢
  have hK : ∀ j, blocksOf (dinodeOf stdSb s.disk j).size ≤ 525 := by
    intro j
    have := h.wf.size_le j
    simp only [blocksOf]
    omega
  have hzero : ∀ j, 96 ≤ j → dinodeOf stdSb s.disk j = Dinode.zero := fun j hj => dinodeOf_ge hj
  have hN : (fun j => nodeOf s.disk (dinodeOf stdSb s.disk j)) = N := funext h.node
  refine (writei_loop h.bump rfl h.files hi' hK rfl hoff hn hroom).post ?_
  rintro r s' ⟨rfl, t, d, hw, hdin, hb, hib, rfl⟩
  have hmeta := hw.sameMeta
  have hnode : ∀ d', d' = { d with size := max (dinodeOf stdSb s.disk i).size (off + n) } →
      ∀ j, nodeOf t.disk (upd (dinodeOf stdSb s.disk) i d' j) =
        upd N i { N i with data := overlay (N i).data off (src.slice 0 n) } j := by
    intro d' hd' j
    have := congrFun (hw.nodes hzero hoff _ hd') j
    rw [hN, h.node i] at this
    exact this
  by_cases hgrow : (dinodeOf stdSb s.disk i).size < off + n
  · rw [if_pos hgrow]
    have hty : ({ d with size := off + n } : Dinode).type ≠ 0 := by
      rw [hmeta]
      rw [← h.node i] at htype
      exact htype
    have hD : upd (dinodeOf stdSb t.disk) i { d with size := off + n } =
        upd (dinodeOf stdSb s.disk) i { d with size := off + n } := by rw [hdin, upd_upd]
    obtain ⟨hwf, hnodes⟩ := DiskWF.store t.disk hi' (hw.fits hi' (dinodeOf_fits _ _) hn)
      (by rw [hD]; exact hw.files_grow hgrow)
      (fun j => by
        rw [hD, upd_apply]
        split
        · exact hn
        · exact h.wf.size_le j)
      fun j hj => by
        rw [hD, upd_apply] at hj ⊢
        split at hj
        · exact absurd hj hty
        · rw [if_neg ‹_›]
          exact h.wf.free j hj
    refine ⟨rfl, hib, ?_, hwf, hb.stored hi' _, fun j => ?_, fun j hj => ?_⟩
    · rw [freeBlocks_congr (show stored t.disk i _ 2 = t.disk 2 from stored_of_ge hi' (Or.inr (by decide)))]
      exact hw.free
    · rw [hnodes j, hD]
      exact hnode _ (by rw [Nat.max_eq_right (Nat.le_of_lt hgrow)]) j
    · change t.ibump ≤ j at hj
      change dinodeOf stdSb (stored t.disk i { d with size := off + n }) j = _
      rw [dinodeOf_stored hi' (hw.fits hi' (dinodeOf_fits _ _) hn), hD, upd_of_ne (by omega)]
      exact h.fresh j (by omega)
  · rw [if_neg hgrow]
    obtain ⟨hd, hfiles⟩ := hw.files_same hgrow
    rw [hd, upd_eta] at hdin
    refine ⟨rfl, hib, hw.free, ⟨?_, ?_, ?_⟩, hb, fun j => ?_, fun j hj => ?_⟩
    · rw [hdin]
      exact hfiles
    · rw [hdin]
      exact h.wf.size_le
    · rw [hdin]
      exact h.wf.free
    · rw [hdin]
      have := hnode d (by rw [Nat.max_eq_left (Nat.not_lt.mp hgrow), hd]) j
      rwa [hd, upd_eta] at this
    · rw [hdin]
      exact h.fresh j (by omega)

/-- A write behind the largest size is refused. -/
theorem writei_refuse {src : Bytes} (off : Nat) {n : Nat} (h : Built s N) (hi : i < 96) (hoff : off ≤ (N i).data.length)
    (hn : n < 2 ^ 32) (hbad : 525 * 4096 < off + n) : Wp (writei i src off n) (fun r s' => r = -1 ∧ s' = s) E s := by
  have hle := h.wf.size_le i
  rw [h.length] at hoff
  have h64 : u64 (off + n) = off + n := u64_of_lt (by omega)
  unfold writei
  rw [wp_bind, wp_get, inode_eq s hi]
  dsimp only
  rw [h64, if_neg (by omega), if_pos (by simp; omega)]
  exact ⟨rfl, rfl⟩

theorem readi_data {off n : Nat} (h : Built s N) (hi : i < 96) (hoff : off ≤ (N i).data.length) (hn : n < 2 ^ 32) :
    Wp (readi i off n) (fun r s' => s' = s ∧ r = some (((N i).data.drop off).take n)) E s := by
  have hle := h.wf.size_le i
  rw [h.length] at hoff
  refine (readi_spec rfl h.files hi (le_refl _) (by simp only [blocksOf]; omega) hoff (by omega)).post ?_
  rintro r _ ⟨rfl, rfl⟩
  refine ⟨rfl, ?_⟩
  rw [← h.node i, nodeOf, Bytes.drop_take_slice _ _ _ _ _ hoff, Nat.zero_add]

/-! ## Directories -/

/-- The entry that `dir_link` takes. -/
theorem dirLink_search {data : List UInt8} (h : Built s N) (hi : i < 96) (hdata : (N i).data = data)
    (hmod : data.length % 32 = 0) :
    Wp (do
      let s ← get
      loop (fun off => do
        let s ← get
        if off < (s.inode i).size then do
          let r := (← readi i off dirEntSize).getD []
          if r.length ≠ dirEntSize then exit1 "dir_link cant read"
          else if (DirEnt.ofBytes r).inum = 0 then pure (.inr off)
          else pure (.inl (off + dirEntSize))
        else pure (.inr off)) ((s.inode i).size + 1) 0)
      (fun off s' => off = 32 * freeEntry data ∧ s' = s) E s := by
  have hcount : data.length = 32 * entryCount data := by
    unfold entryCount
    omega
  have hsize : (s.inode i).size = 32 * entryCount data := by
    rw [inode_eq s hi, ← h.length, hdata, hcount]
  rw [wp_bind, wp_get, hsize]
  refine wp_loop (fun off t => t = s ∧ ∃ k, off = 32 * k ∧ k ≤ entryCount data ∧
    ∀ j < k, (entryAt data j).inum ≠ 0) (fun off => 32 * entryCount data - off) ?_ _ _ _
    ⟨rfl, 0, rfl, Nat.zero_le _, by omega⟩ (by omega)
  rintro off t ⟨rfl, k, rfl, hk, hlive⟩
  rw [wp_bind, wp_get, hsize, wp_ite]
  refine ⟨fun hlt => ?_, fun hge => ?_⟩
  · have hk' : k < entryCount data := by omega
    refine Wp.bind (readi_data h hi (by rw [hdata, hcount]; omega) (by decide)) ?_
    rintro r _ ⟨rfl, rfl⟩
    rw [hdata]
    dsimp only [Option.getD_some]
    rw [if_neg (by simp only [List.length_take, List.length_drop, dirEntSize]; omega), wp_ite]
    refine ⟨fun h0 => ⟨?_, rfl⟩, fun hne => ⟨⟨rfl, k + 1, rfl, hk', ?_⟩, by simp; omega⟩⟩
    · have hfind : ((List.range (entryCount data)).find? fun j => (entryAt data j).inum = 0) = some k := by
        rw [List.find?_range_eq_some]
        exact ⟨decide_eq_true h0, List.mem_range.mpr hk', fun j hj => by simpa using hlive j hj⟩
      rw [freeEntry, hfind, Option.getD_some]
    · intro j hj
      rcases Nat.lt_succ_iff_lt_or_eq.mp hj with hj | rfl
      · exact hlive j hj
      · exact hne
  · have hk' : k = entryCount data := by omega
    subst hk'
    have hfind : ((List.range (entryCount data)).find? fun j => (entryAt data j).inum = 0) = none := by
      rw [List.find?_range_eq_none]
      exact fun j hj => by simpa using hlive j hj
    refine ⟨?_, rfl⟩
    rw [freeEntry, hfind, Option.getD_none]

/-- A directory that stays within one block gets a new entry. -/
theorem dirLink_spec {data : List UInt8} (name : List UInt8) (inum : Nat) (h : Built s N)
    (hi : i < s.ibump) (hi' : i < 96) (htype : (N i).type ≠ 0) (hdata : (N i).data = data) (hmod : data.length % 32 = 0)
    (hlen : data.length + 32 ≤ 4096) (hroom : 1 ≤ freeBlocks s.disk + blocksOf data.length) :
    Wp (dirLink i name inum) (fun _ s' => s'.ibump = s.ibump ∧
      freeBlocks s'.disk + 1 = freeBlocks s.disk + blocksOf data.length ∧
      Built s' (upd N i { N i with data := putEntry data (freeEntry data) (newEntry name inum) })) E s := by
  have hfree := freeEntry_le data
  have hoff : 32 * freeEntry data ≤ data.length := by
    unfold entryCount at hfree
    omega
  have hblocks : max (blocksOf data.length) (blocksOf (32 * freeEntry data + 32)) = 1 := by
    simp only [blocksOf]
    omega
  have hle : blocksOf data.length ≤ 13 := by
    simp only [blocksOf]
    omega
  have hsl : Bytes.slice (fun k => (newEntry name inum).toBytes.getD k 0) 0 32 = (newEntry name inum).toBytes := by
    have := slice_getD (newEntry name inum).toBytes
    rwa [length_toBytes_newEntry] at this
  unfold dirLink
  rw [← bind_assoc]
  refine Wp.bind (dirLink_search h hi' hdata hmod) ?_
  rintro _ t ⟨rfl, rfl⟩
  dsimp only
  refine Wp.bind (writei_spec (32 * freeEntry data) (n := 32) h hi hi' htype (by rw [hdata]; exact hoff)
    (by omega) ?_) ?_
  · rw [hdata, hblocks, blocksFor_direct (by decide), blocksFor_direct hle]
    exact hroom
  · rintro r s' ⟨rfl, hib, hfb, hb⟩
    rw [hdata] at hfb hb
    rw [hblocks, blocksFor_direct (by decide), blocksFor_direct hle] at hfb
    rw [if_neg (by simp)]
    refine ⟨hib, hfb, ?_⟩
    rw [putEntry, ← hsl]
    exact hb

end

end Xv6.Mkfs
