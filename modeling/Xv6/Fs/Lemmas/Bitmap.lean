import Xv6.Fs.Block
import Xv6.Fs.Lemmas.Layout

/-!
# The bitmap

Allocation and freeing for any super block and any disk: the bitmap may have any number of blocks, and the last of them
may be used in part.
-/

namespace Xv6.Fs

open Xv6.Lib

variable {s s' : State} {sb : SuperBlock} {disk : Nat → Bytes} {n b c bi : Nat}

/-! ## Bits of blocks -/

/-- The bitmap bit of the block `b`. -/
def marked (sb : SuperBlock) (disk : Nat → Bytes) (b : Nat) : Bool := bitSet (disk (bblock b sb)) (b % bpb)

theorem bblock_add (hb : b % bpb = 0) (hbi : bi < bpb) (sb : SuperBlock) : bblock (b + bi) sb = bblock b sb := by
  simp only [bblock, bpb, bsize] at hb hbi ⊢
  omega

/-- The bit that the loops of `balloc` find is the one that `bfree` computes. -/
theorem marked_add (hb : b % bpb = 0) (hbi : bi < bpb) : marked sb disk (b + bi) = bitSet (disk (bblock b sb)) bi := by
  have hmod : (b + bi) % bpb = bi := by
    simp only [bpb, bsize] at hb hbi ⊢
    omega
  rw [marked, bblock_add hb hbi, hmod]

/-- The lowest block whose bit is clear. -/
structure LowestClear (sb : SuperBlock) (disk : Nat → Bytes) (b : Nat) : Prop where
  lt : b < sb.size
  clear : marked sb disk b = false
  least : ∀ c < b, marked sb disk c = true

/-- The disk after `balloc` gave out the block `b`. -/
def taken (sb : SuperBlock) (disk : Nat → Bytes) (b : Nat) : Nat → Bytes :=
  upd (upd disk (bblock b sb) (setBit (disk (bblock b sb)) (b % bpb))) b fun _ => 0

/-! ## Buffers -/

theorem wp_breadOn {Q : Bytes → State → Prop} {E : Halt → Prop} (hb : b < n) : Wp (breadOn n 0 b) Q E s ↔
    Q (s.disk b) s := by
  unfold breadOn
  rw [wp_bind, wp_panicIf, wp_bind, wp_panicIf]
  have hlt : ¬ n ≤ b := Nat.not_le.mpr hb
  exact ⟨fun h => (h.2 (by decide)).2 hlt,
    fun h => ⟨fun h0 => absurd rfl h0, fun _ => ⟨fun h1 => absurd h1 hlt, fun _ => h⟩⟩⟩

@[simp] theorem wp_bwrite {Q : Unit → State → Prop} {E : Halt → Prop} (b : Nat) (v : Bytes) :
    Wp (bwrite b v) Q E s ↔ Q () { s with disk := upd s.disk b v } := Iff.rfl

theorem wp_bzeroOn {Q : Unit → State → Prop} {E : Halt → Prop} (hb : b < n) :
    Wp (bzeroOn n 0 b) Q E s ↔ Q () { s with disk := upd s.disk b fun _ => 0 } := by
  rw [bzeroOn, wp_bind, wp_breadOn hb, wp_bwrite]

theorem wp_bzeroOn_outside {Q : Unit → State → Prop} {E : Halt → Prop} (hb : n ≤ b)
    (hE : E (.panic "rd_rw: block out of range")) :
    Wp (bzeroOn n 0 b) Q E s := by
  unfold bzeroOn breadOn
  rw [wp_bind, wp_bind, wp_panicIf, wp_bind, wp_panicIf]
  exact ⟨fun h0 => absurd rfl h0, fun _ => ⟨fun _ => hE, fun h0 => absurd hb h0⟩⟩

/-! ## Allocation -/

/-- The bits of one bitmap block: the first clear one is set, or all are. -/
theorem ballocBlock_spec (hb : b % bpb = 0) :
    Wp (ballocBlock n 0 b (s.disk (bblock b s.sb))) (fun r s' =>
      match r with
      | some c => c < s.sb.size ∧ marked s.sb s.disk c = false ∧ (∀ d, b ≤ d → d < c → marked s.sb s.disk d = true) ∧
          c < n ∧ s' = { s with disk := taken s.sb s.disk c }
      | none => (∀ d, b ≤ d → d < b + bpb → d < s.sb.size → marked s.sb s.disk d = true) ∧ s' = s)
      (fun e => e = .panic "rd_rw: block out of range" ∧ ∃ c, c < s.sb.size ∧ marked s.sb s.disk c = false ∧
        (∀ d, b ≤ d → d < c → marked s.sb s.disk d = true) ∧ n ≤ c) s := by
  unfold ballocBlock
  refine wp_loop (fun bi t => t = s ∧ bi ≤ bpb ∧ ∀ d, b ≤ d → d < b + bi → marked s.sb s.disk d = true)
    (fun bi => bpb - bi) ?_ _ _ _ ⟨rfl, Nat.zero_le _, fun d h1 h2 => absurd h2 (Nat.not_lt.mpr h1)⟩ (by decide)
  rintro bi _ ⟨rfl, hle, hset⟩
  simp only [wp_bind, wp_get, wp_ite]
  refine ⟨fun hlt => ⟨fun hbit => ?_, fun hbit => ?_⟩, fun hge => ?_⟩
  · rw [← marked_add hb hlt.1] at hbit
    refine ⟨⟨rfl, hlt.1, fun d h1 h2 => ?_⟩, by have := hlt.1; omega⟩
    by_cases hd : d = b + bi
    · rw [hd, hbit]
    · exact hset d h1 (by omega)
  · rw [← marked_add hb hlt.1, Bool.not_eq_true] at hbit
    rw [wp_bwrite]
    by_cases hin : b + bi < n
    · rw [wp_bzeroOn hin, wp_pure]
      refine ⟨hlt.2, hbit, hset, hin, ?_⟩
      have hmod : (b + bi) % bpb = bi := by
        simp only [bpb, bsize] at hb hlt ⊢
        omega
      rw [taken, bblock_add hb hlt.1, hmod]
    · exact wp_bzeroOn_outside (Nat.not_lt.mp hin) ⟨rfl, b + bi, hlt.2, hbit, hset, Nat.not_lt.mp hin⟩
  · exact ⟨fun d h1 h2 h3 => hset d h1 (by omega), rfl⟩

/-- A round, the blocks before it being in use. -/
theorem ballocRound_spec (hin : ∀ b < s.sb.size, bblock b s.sb < n) (hb : b % bpb = 0)
    (hset : ∀ d < b, d < s.sb.size → marked s.sb s.disk d = true) {Q : Nat ⊕ Nat → State → Prop} {E : Halt → Prop}
    (hnext : b < s.sb.size → (∀ d < b + bpb, d < s.sb.size → marked s.sb s.disk d = true) → Q (.inl (u64 (b + bpb))) s)
    (hfound : ∀ c < n, LowestClear s.sb s.disk c → Q (.inr c) { s with disk := taken s.sb s.disk c })
    (hout : ∀ c, n ≤ c → LowestClear s.sb s.disk c → E (.panic "rd_rw: block out of range"))
    (hoob : (∀ d < s.sb.size, marked s.sb s.disk d = true) → E (.panic "balloc: oob")) :
      Wp (ballocRound n 0 b) Q E s := by
  unfold ballocRound
  rw [wp_bind, wp_get, wp_ite]
  refine ⟨fun hlt => ?_, fun hge => hoob fun d hd => hset d (by omega) hd⟩
  have hall : ∀ {c}, c < s.sb.size → (∀ d, b ≤ d → d < c → marked s.sb s.disk d = true) →
    ∀ d < c, marked s.sb s.disk d = true :=
    fun hc h d hd => by
      by_cases hdb : d < b
      · exact hset d hdb (by omega)
      · exact h d (Nat.not_lt.mp hdb) hd
  rw [wp_bind, wp_breadOn (hin b hlt)]
  refine Wp.seq (ballocBlock_spec hb) ?_ ?_
  · rintro e ⟨rfl, c, h1, h2, h3, h4⟩
    exact hout c h4 ⟨h1, h2, hall h1 h3⟩
  · rintro (_ | c) s' hr
    · obtain ⟨hfull, rfl⟩ := hr
      refine hnext hlt fun d h1 h2 => ?_
      by_cases hdb : d < b
      · exact hset d hdb h2
      · exact hfull d (Nat.not_lt.mp hdb) h1 h2
    · obtain ⟨h1, h2, h3, h4, rfl⟩ := hr
      exact hfound c h4 ⟨h1, h2, hall h1 h3⟩

theorem lowestClear_or (sb : SuperBlock) (disk : Nat → Bytes) :
    (∀ d < sb.size, marked sb disk d = true) ∨ ∃ c, LowestClear sb disk c := by
  by_cases h : ∃ d, d < sb.size ∧ marked sb disk d = false
  · obtain ⟨h1, h2⟩ := Nat.find_spec h
    refine Or.inr ⟨Nat.find h, h1, h2, fun c hc => ?_⟩
    have h3 := Nat.find_min h hc
    rw [not_and, Bool.not_eq_false] at h3
    exact h3 (by omega)
  · refine Or.inl fun d hd => ?_
    rw [← Bool.not_eq_false]
    exact fun h0 => h ⟨d, hd, h0⟩

theorem LowestClear.unique (h : LowestClear sb disk b) (h' : LowestClear sb disk c) : b = c := by
  have key : ∀ {b c}, LowestClear sb disk b → LowestClear sb disk c → b ≤ c := fun h h' => by
    by_contra hlt
    have h0 := h.least _ (Nat.not_le.mp hlt)
    rw [h'.clear] at h0
    cases h0
  exact Nat.le_antisymm (key h h') (key h' h)

/-- How `balloc` ends without a block: there is none, or it is not on the disk. Where the bitmap has a block for the
last numbers of 64 bits, the loop starts again instead. -/
def BallocFails (n : Nat) (s : State) (e : Halt) : Prop :=
  ((e = .panic "balloc: oob" ∨ e = .diverge ∧ 2 ^ 64 - bpb < s.sb.size) ∧ ∀ d < s.sb.size,
    marked s.sb s.disk d = true) ∨ e = .panic "rd_rw: block out of range" ∧ ∃ c, n ≤ c ∧ LowestClear s.sb s.disk c

theorem ballocOn_spec (hsz : s.sb.size < 2 ^ 64) (hin : ∀ b < s.sb.size, bblock b s.sb < n) :
    Wp (ballocOn n 0) (fun b s' => b < n ∧ LowestClear s.sb s.disk b ∧ s' = { s with disk := taken s.sb s.disk b })
      (BallocFails n s) s := by
  unfold ballocOn
  rw [wp_bind, wp_get]
  have hstep : ∀ {b}, b % bpb = 0 → b + bpb < 2 ^ 64 → u64 (b + bpb) = b + bpb ∧ (b + bpb) % bpb = 0 := fun hb hlt => by
    refine ⟨Nat.mod_eq_of_lt hlt, ?_⟩
    rw [Nat.add_mod_right, hb]
  rcases lowestClear_or s.sb s.disk with hall | ⟨c₀, hc₀⟩
  · have hoob : BallocFails n s (.panic "balloc: oob") := Or.inl ⟨Or.inl rfl, hall⟩
    have hno : ∀ {c} {P : Prop}, LowestClear s.sb s.disk c → P := fun hc => by
      have h0 := hall _ hc.lt
      rw [hc.clear] at h0
      cases h0
    by_cases hbig : 2 ^ 64 - bpb < s.sb.size
    · -- the block number of the last round wraps to 0
      refine wp_loop_or (Or.inl ⟨Or.inr ⟨rfl, hbig⟩, hall⟩) (fun b t => t = s ∧ b % bpb = 0) ?_ _ _ _ ⟨rfl, rfl⟩
      rintro b t ⟨rfl, hb⟩
      refine ballocRound_spec hin hb (fun d _ hd => hall d hd) (fun _ _ => ⟨rfl, ?_⟩) (fun c _ hc => hno hc)
        (fun c _ hc => hno hc) fun _ => hoob
      simp only [u64, bpb, bsize] at hb ⊢
      omega
    · refine wp_loop (fun b t => t = s ∧ b % bpb = 0) (fun b => s.sb.size - b) ?_ _ _ _ ⟨rfl, rfl⟩ (by omega)
      rintro b t ⟨rfl, hb⟩
      refine ballocRound_spec hin hb (fun d _ hd => hall d hd) (fun hlt _ => ?_) (fun c _ hc => hno hc)
        (fun c _ hc => hno hc) fun _ => hoob
      obtain ⟨h1, h2⟩ := hstep hb (by simp only [bpb, bsize] at hb hbig ⊢; omega)
      refine ⟨⟨rfl, ?_⟩, ?_⟩
      · rw [h1, h2]
      · rw [h1]
        simp only [bpb, bsize]
        omega
  · refine wp_loop (fun b t => t = s ∧ b % bpb = 0 ∧ b ≤ c₀) (fun b => c₀ - b) ?_ _ _ _ ⟨rfl, rfl, Nat.zero_le _⟩
      (by have := hc₀.lt; omega)
    rintro b t ⟨rfl, hb, hle⟩
    refine ballocRound_spec hin hb (fun d hd _ => hc₀.least d (by omega)) (fun _ hset => ?_)
      (fun c hcn hc => ⟨hcn, hc, rfl⟩) (fun c hcn hc => Or.inr ⟨rfl, c, hcn, hc⟩) fun hall => ?_
    · -- the block is beyond this round
      have hge : b + bpb ≤ c₀ := by
        by_contra hlt
        have h0 := hset c₀ (by omega) hc₀.lt
        rw [hc₀.clear] at h0
        cases h0
      have hlt := hc₀.lt
      obtain ⟨h1, h2⟩ := hstep hb (by omega)
      refine ⟨⟨rfl, ?_, ?_⟩, ?_⟩
      · rw [h1, h2]
      · rw [h1]
        exact hge
      · rw [h1]
        simp only [bpb, bsize] at hge ⊢
        omega
    · exact Or.inl ⟨Or.inl rfl, hall⟩

/-! ## Freeing -/

theorem bfreeOn_spec (hb : bblock b s.sb < n) (hset : marked s.sb s.disk b = true) :
    Wp (bfreeOn n 0 b) (fun _ s' =>
      s' = { s with disk := upd s.disk (bblock b s.sb) (clearBit (s.disk (bblock b s.sb)) (b % bpb)) })
        (fun _ => False) s := by
  unfold bfreeOn
  rw [wp_bind, wp_get, wp_bind, wp_breadOn hb, wp_bind, wp_panicIf]
  refine ⟨fun h => ?_, fun _ => rfl⟩
  rw [marked, h] at hset
  cases hset

/-! ## The bitmap and the other blocks afterwards -/

/-- The blocks of the bitmap are in use themselves. -/
def BitmapMarked (sb : SuperBlock) (disk : Nat → Bytes) : Prop :=
  ∀ b < sb.size, bblock b sb < sb.size → marked sb disk (bblock b sb) = true

theorem LowestClear.ne_bblock (h : LowestClear sb disk b) (hm : BitmapMarked sb disk) (hc : c < sb.size) :
    bblock c sb ≠ b := fun h0 => by
  have h1 := hm c hc (by rw [h0]; exact h.lt)
  rw [h0, h.clear] at h1
  cases h1

/-- One bit of a bitmap block is set, and the block it stands for is filled with zeros. -/
structure GivenOut (sb : SuperBlock) (b : Nat) (disk disk' : Nat → Bytes) : Prop where
  bits : ∀ c < sb.size, ∀ i < bpb, bitSet (disk' (bblock c sb)) i =
    (decide (bblock c sb = bblock b sb ∧ i = b % bpb) || bitSet (disk (bblock c sb)) i)
  zero : disk' b = fun _ => 0
  other : ∀ c, c ≠ b → c ≠ bblock b sb → disk' c = disk c

theorem LowestClear.givenOut (h : LowestClear sb disk b) (hm : BitmapMarked sb disk) :
    GivenOut sb b disk (taken sb disk b) := by
  refine ⟨fun c hc i _ => ?_, upd_self _ _ _, fun c hc hc' => ?_⟩
  · rw [taken, upd_of_ne (h.ne_bblock hm hc)]
    by_cases hcb : bblock c sb = bblock b sb
    · rw [hcb, upd_self, bitSet_setBit, Bool.eq_iff_iff]
      simp only [Bool.or_eq_true, decide_eq_true_eq, true_and]
    · rw [upd_of_ne hcb]
      simp [hcb]
  · rw [taken, upd_of_ne hc, upd_of_ne hc']

/-- A bitmap that was marked for a block and freed again. -/
theorem clearBit_setBit {data : Bytes} (h : bitSet data bi = false) : clearBit (setBit data bi) bi = data := by
  refine bitSet_ext fun bj => ?_
  rw [bitSet_clearBit, bitSet_setBit]
  by_cases hj : bj = bi
  · subst hj
    simp [h]
  · simp [hj]

theorem bfree_taken (h : LowestClear sb disk b) (hm : BitmapMarked sb disk) (hc : c < sb.size) :
    upd (taken sb disk b) (bblock b sb) (clearBit (taken sb disk b (bblock b sb)) (b % bpb))
      (bblock c sb) = disk (bblock c sb) := by
  have hself : taken sb disk b (bblock b sb) = setBit (disk (bblock b sb)) (b % bpb) := by
    rw [taken, upd_of_ne (h.ne_bblock hm h.lt), upd_self]
  by_cases hcb : bblock c sb = bblock b sb
  · rw [hcb, upd_self, hself, clearBit_setBit h.clear]
  · rw [upd_of_ne hcb, (h.givenOut hm).other _ (h.ne_bblock hm hc) hcb]

end Xv6.Fs
