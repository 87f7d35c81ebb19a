import Mathlib.Data.Finset.Card
import Xv6.Fs.Lemmas.Bitmap
import Xv6.Fs.Ownership

/-!
# Allocating and freeing blocks

On the image the bitmap is block 2 alone: the loops of `balloc` search its first 4096 bits for the lowest clear one.
-/

namespace Xv6.Fs

open Xv6.Lib

variable {s : State}

/-- The number of blocks whose bit is clear. -/
def freeBlocks (disk : Nat → Bytes) : Nat :=
  ((Finset.range 4096).filter fun b => bitSet (disk 2) b = false).card

theorem bblock_stdSb {b : Nat} (h : b < 4096) : bblock b stdSb = 2 := by
  simp only [bblock, stdSb, bpb, bsize]
  omega

/-- On the image the bit of a block is that of block 2 with its number. -/
theorem marked_std {disk : Nat → Bytes} {b : Nat} (hb : b < 4096) : marked stdSb disk b = bitSet (disk 2) b := by
  have hmod : b % bpb = b := Nat.mod_eq_of_lt (Nat.lt_trans hb (by decide))
  rw [marked, bblock_stdSb hb, hmod]

theorem bblock_image {b : Nat} (hsb : s.sb = stdSb) (hb : b < s.sb.size) : bblock b s.sb < nblocks := by
  rw [hsb] at hb ⊢
  rw [bblock_stdSb hb]
  decide

theorem wp_bread {Q : Bytes → State → Prop} {E : Halt → Prop} {b : Nat} (hb : b < 4096) :
    Wp (bread 0 b) Q E s ↔ Q (s.disk b) s := wp_breadOn hb

/-! ## Allocation -/

/-- The disk after `balloc` gave out the block `b`. -/
def allocated (disk : Nat → Bytes) (b : Nat) : Nat → Bytes :=
  upd (upd disk 2 (setBit (disk 2) b)) b fun _ => 0

/-- The block that `balloc` gives out: the lowest free one. -/
structure IsLowestFree (disk : Nat → Bytes) (b : Nat) : Prop where
  lt : b < 4096
  free : bitSet (disk 2) b = false
  least : ∀ c < b, bitSet (disk 2) c = true

theorem LowestClear.image {disk : Nat → Bytes} {b : Nat} (h : LowestClear stdSb disk b) : IsLowestFree disk b := by
  have hlt : b < 4096 := h.lt
  refine ⟨hlt, ?_, fun c hc => ?_⟩
  · rw [← marked_std hlt, h.clear]
  · rw [← marked_std (by omega), h.least c hc]

theorem taken_stdSb {disk : Nat → Bytes} {b : Nat} (hb : b < 4096) : taken stdSb disk b = allocated disk b := by
  have hmod : b % bpb = b := Nat.mod_eq_of_lt (Nat.lt_trans hb (by decide))
  rw [taken, bblock_stdSb hb, hmod, allocated]

theorem balloc_spec (hsb : s.sb = stdSb) :
    Wp (balloc 0) (fun b s' => IsLowestFree s.disk b ∧ s' = { s with disk := allocated s.disk b })
      (fun e => e = .panic "balloc: oob" ∧ freeBlocks s.disk = 0) s := by
  refine (ballocOn_spec (by rw [hsb]; decide) fun b hb => bblock_image hsb hb).mono ?_ ?_
  · rintro b s' ⟨-, hlow, rfl⟩
    rw [hsb] at hlow
    rw [hsb, taken_stdSb hlow.lt]
    exact ⟨hlow.image, rfl⟩
  · rintro e (⟨he, hfull⟩ | ⟨-, c, hc, hlow⟩)
    · rw [hsb] at he hfull
      refine ⟨he.resolve_right fun h0 => absurd h0.2 (by decide), ?_⟩
      rw [freeBlocks, Finset.card_eq_zero, Finset.filter_eq_empty_iff]
      intro c hc
      have hlt := Finset.mem_range.mp hc
      simp [← marked_std hlt, hfull c hlt]
    · -- every block of the file system is on the disk
      have hlt := hlow.lt
      rw [hsb] at hlt
      exact absurd hlt (Nat.not_lt.mpr hc)

/-! ## Freeing -/

theorem bfree_spec {b : Nat} (hsb : s.sb = stdSb) (hb : b < 4096) (hset : bitSet (s.disk 2) b = true) :
    Wp (bfree 0 b) (fun _ s' => s' = { s with disk := upd s.disk 2 (clearBit (s.disk 2) b) })
      (fun _ => False) s := by
  have hmod : b % bpb = b := Nat.mod_eq_of_lt (by simp; omega)
  refine (bfreeOn_spec (bblock_image hsb (by rwa [hsb])) ?_).post ?_
  · rw [hsb, marked_std hb, hset]
  · rintro _ s' rfl
    rw [hsb, bblock_stdSb hb, hmod]

/-! ## The bitmap and the other blocks afterwards -/

variable {disk : Nat → Bytes} {b : Nat}

theorem bitSet_allocated (hb : 6 ≤ b) (c : Nat) :
    bitSet (allocated disk b 2) c = (decide (c = b) || bitSet (disk 2) c) := by
  have h : allocated disk b 2 = setBit (disk 2) b := by
    rw [allocated, upd_of_ne (by omega), upd_self]
  rw [h, bitSet_setBit]

@[simp] theorem allocated_self : allocated disk b b = fun _ => 0 := upd_self _ _ _

theorem allocated_of_ne {c : Nat} (h2 : c ≠ 2) (hc : c ≠ b) : allocated disk b c = disk c := by
  rw [allocated, upd_of_ne hc, upd_of_ne h2]

theorem freeBlocks_allocated (hb : 6 ≤ b) (h : IsLowestFree disk b) {disk' : Nat → Bytes}
    (hd : disk' 2 = allocated disk b 2) : freeBlocks disk' + 1 = freeBlocks disk := by
  have hset : (Finset.range 4096).filter (fun c => bitSet (disk' 2) c = false) =
      ((Finset.range 4096).filter fun c => bitSet (disk 2) c = false).erase b := by
    ext c
    simp only [Finset.mem_filter, Finset.mem_erase, hd, bitSet_allocated hb, Bool.or_eq_false_iff,
      decide_eq_false_iff_not]
    exact and_left_comm
  rw [freeBlocks, hset, Finset.card_erase_add_one]
  · rfl
  · simp [h.lt, h.free]

end Xv6.Fs
