import Xv6.Fs.Lemmas.Layout
import Xv6.Fs.Inode

/-!
# Who owns which block

An inode stores block numbers in 526 places: its direct slots, the entries of its indirect block and
the slot of the indirect block itself. `Owns disk D S` says that the places in `S` store distinct data
blocks, and that the bitmap marks these and the reserved blocks and nothing else. The inodes `D` are a
parameter, since an inode in the cache can be ahead of its copy on disk.
-/

namespace Xv6.Fs

open Xv6.Lib

/-- The super block of the image. -/
def stdSb : SuperBlock where
  size := 4096
  nBlocks := 4090
  nInodes := 96
  inodeStart := 3
  bmapStart := 2

/-! ## Places -/

/-- The block number stored in a place of an inode: the logical blocks are the places below 525, and
the place 525 holds the indirect block. Zero stands for no block. -/
def place (disk : Nat → Bytes) (d : Dinode) (n : Nat) : Nat :=
  if n < 13 then d.addrs (Fin.ofNat 14 n)
  else if n < 525 then
    if d.addrs indirect = 0 then 0 else getAddr (disk (d.addrs indirect)) (n - 13)
  else d.addrs indirect

theorem place_direct {n : Nat} (h : n < 13) (disk : Nat → Bytes) (d : Dinode) :
    place disk d n = d.addrs (Fin.ofNat 14 n) := if_pos h

theorem place_entry {n : Nat} {d : Dinode} (h1 : 13 ≤ n) (h2 : n < 525) (hd : d.addrs indirect ≠ 0)
    (disk : Nat → Bytes) : place disk d n = getAddr (disk (d.addrs indirect)) (n - 13) := by
  simp [place, Nat.not_lt.mpr h1, h2, hd]

@[simp] theorem place_indirect (disk : Nat → Bytes) (d : Dinode) : place disk d 525 = d.addrs indirect := by
  simp [place]

/-- A place depends on the disk only through the indirect block. -/
theorem place_congr {disk disk' : Nat → Bytes} {d d' : Dinode} {n : Nat} (hd : d'.addrs = d.addrs)
    (h : 13 ≤ n → n < 525 → d.addrs indirect ≠ 0 → disk' (d.addrs indirect) = disk (d.addrs indirect)) :
    place disk' d' n = place disk d n := by
  unfold place
  rw [hd]
  split
  · rfl
  · split
    · split
      · rfl
      · rw [h (by omega) ‹_› ‹_›]
    · rfl

/-! ## Ownership -/

/-- `S i n`: the place `n` of inode `i` is in use. -/
structure Owns (disk : Nat → Bytes) (D : Nat → Dinode) (S : Nat → Nat → Prop) : Prop where
  dom : ∀ {i n}, S i n → i < 96 ∧ n < 526
  closed : ∀ {i n}, S i n → 13 ≤ n → S i 525
  range : ∀ {i n}, S i n → 6 ≤ place disk (D i) n ∧ place disk (D i) n < 4096
  inj : ∀ {i n j m}, S i n → S j m → place disk (D i) n = place disk (D j) m → i = j ∧ n = m
  bit : ∀ b < 4096, bitSet (disk 2) b = true ↔ b < 6 ∨ ∃ i n, S i n ∧ place disk (D i) n = b

namespace Owns

variable {disk disk' : Nat → Bytes} {D D' : Nat → Dinode} {S S' : Nat → Nat → Prop} {i n b : Nat}

/-- A free block is no reserved block and in no place. -/
theorem of_free (h : Owns disk D S) (hb : b < 4096) (hf : bitSet (disk 2) b = false) :
    6 ≤ b ∧ ∀ j m, S j m → place disk (D j) m ≠ b := by
  have hn : ¬ (b < 6 ∨ ∃ i n, S i n ∧ place disk (D i) n = b) := by
    rw [← h.bit b hb, hf]
    decide
  rw [not_or] at hn
  exact ⟨Nat.not_lt.mp hn.1, fun j m hj he => hn.2 ⟨j, m, hj, he⟩⟩

theorem congr (h : Owns disk D S) (hp : ∀ j m, S j m → place disk' (D' j) m = place disk (D j) m)
    (hbit : ∀ c < 4096, bitSet (disk' 2) c = bitSet (disk 2) c) : Owns disk' D' S where
  dom := h.dom
  closed := h.closed
  range hj := by
    rw [hp _ _ hj]
    exact h.range hj
  inj hj hk he := by
    rw [hp _ _ hj, hp _ _ hk] at he
    exact h.inj hj hk he
  bit c hc := by
    rw [hbit c hc, h.bit c hc]
    refine or_congr_right (exists_congr fun j => exists_congr fun m => ?_)
    constructor
    · rintro ⟨hj, he⟩
      exact ⟨hj, by rw [hp _ _ hj, he]⟩
    · rintro ⟨hj, he⟩
      exact ⟨hj, by rw [← hp _ _ hj, he]⟩

/-- A free block is put in a new place. -/
theorem insert (h : Owns disk D S) (hi : i < 96) (hn : n < 526) (hind : 13 ≤ n → n = 525 ∨ S i 525)
    (hb : b < 4096) (hf : bitSet (disk 2) b = false)
    (hp : ∀ j m, S j m → place disk' (D' j) m = place disk (D j) m) (hnew : place disk' (D' i) n = b)
    (hbit : ∀ c < 4096, bitSet (disk' 2) c = (decide (c = b) || bitSet (disk 2) c)) :
    Owns disk' D' (fun j m => S j m ∨ j = i ∧ m = n) := by
  obtain ⟨hb6, hfree⟩ := h.of_free hb hf
  refine ⟨?_, ?_, ?_, ?_, ?_⟩
  · rintro j m (hj | ⟨rfl, rfl⟩)
    · exact h.dom hj
    · exact ⟨hi, hn⟩
  · rintro j m (hj | ⟨rfl, rfl⟩) hm
    · exact Or.inl (h.closed hj hm)
    · rcases hind hm with rfl | hs
      · exact Or.inr ⟨rfl, rfl⟩
      · exact Or.inl hs
  · rintro j m (hj | ⟨rfl, rfl⟩)
    · rw [hp _ _ hj]
      exact h.range hj
    · rw [hnew]
      exact ⟨hb6, hb⟩
  · rintro j m j' m' (hj | ⟨rfl, rfl⟩) (hk | ⟨rfl, rfl⟩) he
    · rw [hp _ _ hj, hp _ _ hk] at he
      exact h.inj hj hk he
    · rw [hp _ _ hj, hnew] at he
      exact (hfree _ _ hj he).elim
    · rw [hp _ _ hk, hnew] at he
      exact (hfree _ _ hk he.symm).elim
    · exact ⟨rfl, rfl⟩
  · intro c hc
    rw [hbit c hc, Bool.or_eq_true, decide_eq_true_eq, h.bit c hc]
    constructor
    · rintro (rfl | hc | ⟨j, m, hj, he⟩)
      · exact Or.inr ⟨i, n, Or.inr ⟨rfl, rfl⟩, hnew⟩
      · exact Or.inl hc
      · exact Or.inr ⟨j, m, Or.inl hj, by rw [hp _ _ hj, he]⟩
    · rintro (hc | ⟨j, m, hj | ⟨rfl, rfl⟩, he⟩)
      · exact Or.inr (Or.inl hc)
      · exact Or.inr (Or.inr ⟨j, m, hj, by rw [← hp _ _ hj, he]⟩)
      · exact Or.inl (by rw [← he, hnew])

/-- The block of a place is freed; the place may keep its number but is no longer in use. -/
theorem erase (disk' : Nat → Bytes) (D' : Nat → Dinode) (h : Owns disk D S) (hin : S i n) (hb : place disk (D i) n = b)
    (hind : n = 525 → ∀ m, 13 ≤ m → S i m → m = 525)
    (hp : ∀ j m, S j m → ¬ (j = i ∧ m = n) → place disk' (D' j) m = place disk (D j) m)
    (hbit : ∀ c < 4096, bitSet (disk' 2) c = (decide (c ≠ b) && bitSet (disk 2) c)) :
    Owns disk' D' (fun j m => S j m ∧ ¬ (j = i ∧ m = n)) := by
  refine ⟨fun hj => h.dom hj.1, ?_, ?_, ?_, ?_⟩
  · rintro j m ⟨hj, hne⟩ hm
    refine ⟨h.closed hj hm, ?_⟩
    rintro ⟨rfl, rfl⟩
    exact hne ⟨rfl, hind rfl m hm hj⟩
  · rintro j m ⟨hj, hne⟩
    rw [hp _ _ hj hne]
    exact h.range hj
  · rintro j m j' m' ⟨hj, hne⟩ ⟨hk, hne'⟩ he
    rw [hp _ _ hj hne, hp _ _ hk hne'] at he
    exact h.inj hj hk he
  · intro c hc
    rw [hbit c hc, Bool.and_eq_true, decide_eq_true_eq, h.bit c hc]
    have hr := h.range hin
    constructor
    · rintro ⟨hcb, hc | ⟨j, m, hj, he⟩⟩
      · exact Or.inl hc
      · have hne : ¬ (j = i ∧ m = n) := by
          rintro ⟨rfl, rfl⟩
          exact hcb (by rw [← he, hb])
        exact Or.inr ⟨j, m, ⟨hj, hne⟩, by rw [hp _ _ hj hne, he]⟩
    · rintro (hc | ⟨j, m, ⟨hj, hne⟩, he⟩)
      · exact ⟨by omega, Or.inl hc⟩
      · rw [hp _ _ hj hne] at he
        refine ⟨?_, Or.inr ⟨j, m, hj, he⟩⟩
        intro hcb
        exact hne (h.inj hj hin (by rw [he, hcb, hb]))

end Owns

/-! ## Files -/

/-- Ownership without stray block numbers: a place that is not in use is zero. -/
structure Files (disk : Nat → Bytes) (D : Nat → Dinode) (S : Nat → Nat → Prop) : Prop extends Owns disk D S where
  tight : ∀ {i n}, i < 96 → n < 526 → place disk (D i) n ≠ 0 → S i n

/-- What a change of disk and inodes keeps of the places in use: their block numbers, and the contents
of the blocks that hold file data. -/
structure Keeps (disk : Nat → Bytes) (D : Nat → Dinode) (S : Nat → Nat → Prop) (disk' : Nat → Bytes)
    (D' : Nat → Dinode) : Prop where
  place : ∀ {i n}, S i n → place disk' (D' i) n = place disk (D i) n
  data : ∀ {i n}, S i n → n ≠ 525 → disk' (Fs.place disk (D i) n) = disk (Fs.place disk (D i) n)

theorem Keeps.trans {disk disk' disk'' : Nat → Bytes} {D D' D'' : Nat → Dinode} {S S' : Nat → Nat → Prop}
    (h : Keeps disk D S disk' D') (h' : Keeps disk' D' S' disk'' D'') (hS : ∀ {i n}, S i n → S' i n) :
    Keeps disk D S disk'' D'' where
  place hi := by rw [h'.place (hS hi), h.place hi]
  data hi hn := by
    have := h'.data (hS hi) hn
    rw [h.place hi] at this
    rw [this, h.data hi hn]

/-- The places in use by files of `K i` blocks without holes. -/
def shape (K : Nat → Nat) (i n : Nat) : Prop := i < 96 ∧ (n < K i ∨ n = 525 ∧ 13 < K i)

end Xv6.Fs
