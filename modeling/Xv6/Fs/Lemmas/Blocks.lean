import Xv6.Fs.View

/-!
# Blocks and the bitmap

The ownership of blocks and the absence of holes, in terms of the inodes and the bitmap on disk.
-/

namespace Xv6.Fs

open Xv6.Lib

/-- The place `n` of the allocated inode `i` holds the block number `b`. -/
structure Stores (sb : SuperBlock) (disk : Nat → Bytes) (i n b : Nat) : Prop where
  inode : i < sb.nInodes
  place : n < 526
  allocated : (dinodeOf sb disk i).type ≠ 0
  number : Fs.place disk (dinodeOf sb disk i) n = b
  live : b ≠ 0

/-- The bitmap marks the blocks in use, and no block is in two places. -/
structure BlocksOwned (sb : SuperBlock) (disk : Nat → Bytes) : Prop where
  bit : ∀ b < sb.size, marked sb disk b = true ↔ b < 6 ∨ ∃! p : Nat × Nat, Stores sb disk p.1 p.2 b
  range : ∀ {i n b}, Stores sb disk i n b → 6 ≤ b ∧ b < sb.size
  inj : ∀ {i n j m b}, Stores sb disk i n b → Stores sb disk j m b → i = j ∧ n = m

/-- A file of `k` blocks has the first `k` block numbers and no others. -/
structure HoleFree (disk : Nat → Bytes) (d : Dinode) : Prop where
  direct : ∀ n : Fin 13, d.addrs n.castSucc ≠ 0 ↔ n.val < (d.size + bsize - 1) / bsize
  indirect : d.addrs Fs.indirect ≠ 0 ↔ ndirect < (d.size + bsize - 1) / bsize
  entry : d.addrs Fs.indirect ≠ 0 → ∀ m < nindirect,
    getAddr (disk (d.addrs Fs.indirect)) m ≠ 0 ↔ ndirect + m < (d.size + bsize - 1) / bsize

section

variable {disk : Nat → Bytes} {i n b : Nat}

theorem DiskWF.stores (h : DiskWF disk) (hi : i < 96) (hn : n < 526) (hb : place disk (dinodeOf stdSb disk i) n = b) :
    Stores stdSb disk i n b ↔ shape (fun i => blocksOf (dinodeOf stdSb disk i).size) i n := by
  constructor
  · intro hs
    exact h.files.tight hi hn (by rw [hb]; exact hs.live)
  · intro hs
    have hr := h.files.range hs
    refine ⟨hi, hn, fun h0 => ?_, hb, by omega⟩
    have hz := h.free i h0
    simp only [shape, hz, blocksOf] at hs
    omega

theorem DiskWF.blocksOwned (h : DiskWF disk) : BlocksOwned stdSb disk := by
  have hshape : ∀ {i n b}, Stores stdSb disk i n b → shape (fun i => blocksOf (dinodeOf stdSb disk i).size) i n :=
    fun hs => (h.stores hs.inode hs.place hs.number).mp hs
  have hinj : ∀ {i n j m b}, Stores stdSb disk i n b → Stores stdSb disk j m b → i = j ∧ n = m :=
    fun hs hs' => h.files.inj (hshape hs) (hshape hs') (hs.number.trans hs'.number.symm)
  refine ⟨fun b hb => ?_, fun hs => ?_, hinj⟩
  · rw [marked_std hb, h.files.bit b hb]
    refine or_congr_right ⟨?_, ?_⟩
    · rintro ⟨i, n, hs, hp⟩
      have hdom := h.files.dom hs
      have hst := (h.stores hdom.1 hdom.2 hp).mpr hs
      exact ⟨(i, n), hst, fun p hp' => Prod.ext (hinj hp' hst).1 (hinj hp' hst).2⟩
    · rintro ⟨p, hs, -⟩
      exact ⟨p.1, p.2, hshape hs, hs.number⟩
  · have := h.files.range (hshape hs)
    rw [hs.number] at this
    exact this

theorem DiskWF.holeFree (h : DiskWF disk) (hi : i < 96) : HoleFree disk (dinodeOf stdSb disk i) := by
  have hplace : ∀ n < 526, place disk (dinodeOf stdSb disk i) n ≠ 0 ↔
      shape (fun i => blocksOf (dinodeOf stdSb disk i).size) i n := by
    intro n hn
    refine ⟨h.files.tight hi hn, fun hs => ?_⟩
    have := (h.files.range hs).1
    omega
  have hk : blocksOf (dinodeOf stdSb disk i).size ≤ 525 := by
    have := h.size_le i
    simp only [blocksOf]
    omega
  constructor
  · intro n
    have hp := hplace n (by omega)
    rw [place_direct n.isLt, show Fin.ofNat 14 n.val = n.castSucc from Fin.ext (Nat.mod_eq_of_lt (by omega))] at hp
    rw [hp]
    exact ⟨fun hs => hs.2.elim id fun h0 => by omega, fun hs => ⟨hi, Or.inl hs⟩⟩
  · have hp := hplace 525 (by omega)
    rw [place, if_neg (by decide), if_neg (by decide)] at hp
    rw [hp]
    refine ⟨fun hs => hs.2.elim (fun h0 => ?_) fun h0 => h0.2, fun hs => ⟨hi, Or.inr ⟨rfl, hs⟩⟩⟩
    dsimp only at h0
    omega
  · intro hne m hm
    have hm : m < 512 := hm
    have hp := hplace (13 + m) (by omega)
    rw [place_entry (by omega) (by omega) hne, Nat.add_sub_cancel_left] at hp
    rw [hp]
    exact ⟨fun hs => hs.2.elim id fun h0 => by omega, fun hs => ⟨hi, Or.inl hs⟩⟩

end

end Xv6.Fs
