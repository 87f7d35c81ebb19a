import Xv6.Fs.Layout
import Mathlib.Data.Nat.Bitwise
import Mathlib.Tactic.IntervalCases

/-!
# Reading back what is stored in a block

Each structure in a block is a field of the block: a store is read back, and it leaves the other
structures of the block alone.
-/

namespace Xv6.Fs

open Xv6.Lib

/-! ## Shorts -/

/-- The values of a C `short`. -/
def IsShort (x : Int) : Prop := -32768 ≤ x ∧ x < 32768

theorem toShort_isShort (x : Int) : IsShort (toShort x) := by
  unfold toShort IsShort
  omega

theorem toShort_of_isShort {x : Int} (h : IsShort x) : toShort x = x := by
  unfold toShort
  unfold IsShort at h
  omega

theorem shortOf_shortBits {x : Int} (h : IsShort x) : shortOf (shortBits x) = x := by
  unfold shortOf shortBits toShort
  unfold IsShort at h
  omega

theorem shortBits_lt (x : Int) : shortBits x < 256 ^ 2 := by
  unfold shortBits
  omega

/-! ## Bitmap -/

theorem bitSet_iff (data : Bytes) (bi : Nat) :
    bitSet data bi = true ↔ (data (bi / 8)).toNat.testBit (bi % 8) = true := by
  simp only [bitSet, bitMask, bne_iff_ne, ne_eq, Nat.one_shiftLeft, Nat.and_two_pow]
  cases (data (bi / 8)).toNat.testBit (bi % 8) <;> simp

theorem bitMask_toNat (bi : Nat) : (UInt8.ofNat (bitMask bi)).toNat = 2 ^ (bi % 8) := by
  have h : 2 ^ (bi % 8) < 2 ^ 8 := Nat.pow_lt_pow_right (by decide) (Nat.mod_lt _ (by decide))
  simpa [bitMask, Nat.one_shiftLeft] using h

theorem bitSet_setBit (data : Bytes) (bi bj : Nat) :
    bitSet (setBit data bi) bj = (decide (bj = bi) || bitSet data bj) := by
  rw [Bool.eq_iff_iff]
  simp only [Bool.or_eq_true, decide_eq_true_eq, bitSet_iff, setBit, upd_apply]
  by_cases hd : bj / 8 = bi / 8
  · simp only [hd, ↓reduceIte, UInt8.toNat_or, bitMask_toNat, Nat.testBit_or, Bool.or_eq_true,
      Nat.testBit_two_pow, decide_eq_true_eq]
    have : bi % 8 = bj % 8 ↔ bj = bi := by omega
    rw [this]
    exact Or.comm
  · have : bj ≠ bi := fun h => hd (by rw [h])
    simp [hd, this]

theorem bitSet_clearBit (data : Bytes) (bi bj : Nat) :
    bitSet (clearBit data bi) bj = (decide (bj ≠ bi) && bitSet data bj) := by
  rw [Bool.eq_iff_iff]
  simp only [Bool.and_eq_true, decide_eq_true_eq, bitSet_iff, clearBit, upd_apply]
  by_cases hd : bj / 8 = bi / 8
  · have hm := bitMask_toNat bi
    have h8 : bj % 8 < 8 := Nat.mod_lt _ (by decide)
    have hn : (~~~ UInt8.ofNat (bitMask bi)).toNat.testBit (bj % 8) = !decide (bi % 8 = bj % 8) := by
      rw [UInt8.toNat_not, hm, show UInt8.size - 1 - 2 ^ (bi % 8) = 2 ^ 8 - (2 ^ (bi % 8) + 1) by
        simp [UInt8.size], Nat.testBit_two_pow_sub_succ]
      · simp [h8, Nat.testBit_two_pow]
      · exact Nat.pow_lt_pow_right (by decide) (Nat.mod_lt _ (by decide))
    simp only [hd, ↓reduceIte, UInt8.toNat_and, Nat.testBit_and, hn, Bool.and_eq_true,
      Bool.not_eq_true', decide_eq_false_iff_not]
    have : bi % 8 = bj % 8 ↔ bj = bi := by omega
    rw [this]
    exact And.comm
  · have : bj ≠ bi := fun h => hd (by rw [h])
    simp [hd, this]

theorem bitSet_zero (bi : Nat) : bitSet (fun _ => 0) bi = false := by
  simp [bitSet]

/-- A block is known by its bits. -/
theorem bitSet_ext {data data' : Bytes} (h : ∀ bi, bitSet data bi = bitSet data' bi) : data = data' := by
  funext k
  refine UInt8.toNat_inj.mp (Nat.eq_of_testBit_eq fun j => ?_)
  by_cases hj : j < 8
  · have h0 := h (8 * k + j)
    rw [Bool.eq_iff_iff, bitSet_iff, bitSet_iff, show (8 * k + j) / 8 = k by omega,
      show (8 * k + j) % 8 = j by omega] at h0
    rwa [Bool.eq_iff_iff]
  · have hlt : 2 ^ 8 ≤ 2 ^ j := Nat.pow_le_pow_right (by decide) (Nat.not_lt.mp hj)
    rw [Nat.testBit_lt_two_pow (Nat.lt_of_lt_of_le (data k).toNat_lt hlt),
      Nat.testBit_lt_two_pow (Nat.lt_of_lt_of_le (data' k).toNat_lt hlt)]

/-! ## Indirect blocks -/

theorem getAddr_putAddr (b : Bytes) (n m : Nat) {v : Nat} (hv : v < 2 ^ 64) :
    getAddr (putAddr b n v) m = if m = n then v else getAddr b m := by
  split
  · rename_i h
    subst h
    exact Bytes.le_putLe_self (by simpa using hv) b _
  · exact Bytes.le_putLe_of_disjoint (by omega) b v

theorem getAddr_zero (n : Nat) : getAddr (fun _ => 0) n = 0 := Bytes.le_zero _ _

/-! ## Inodes -/

/-- The values that fit the fields of a `struct dinode`. -/
structure Dinode.Fits (d : Dinode) : Prop where
  type : IsShort d.type
  major : IsShort d.major
  minor : IsShort d.minor
  nlink : IsShort d.nlink
  size : d.size < 2 ^ 64
  addrs : ∀ n, d.addrs n < 2 ^ 64

theorem getDinode_fits (b : Bytes) (k : Nat) : (getDinode b k).Fits where
  type := toShort_isShort _
  major := toShort_isShort _
  minor := toShort_isShort _
  nlink := toShort_isShort _
  size := Bytes.le_lt b _ 8
  addrs _ := Bytes.le_lt b _ 8

/-- The elements of a concatenation of blocks of one length. -/
theorem getElem?_flatMap_const {α β : Type} {w : Nat} (l : List α) (f : α → List β)
    (hf : ∀ a, (f a).length = w) (i k : Nat) (hk : k < w) :
    (l.flatMap f)[w * i + k]? = l[i]?.bind fun a => (f a)[k]? := by
  induction l generalizing i with
  | nil => simp
  | cons a l ih =>
      rw [List.flatMap_cons]
      cases i with
      | zero =>
          rw [List.getElem?_append_left (by rw [hf]; omega)]
          simp
      | succ i =>
          rw [List.getElem?_append_right (by rw [hf, Nat.mul_succ]; omega), hf,
            show w * (i + 1) + k - w = w * i + k by rw [Nat.mul_succ]; omega, ih]
          simp

theorem Dinode.length_bytes (d : Dinode) : d.bytes.length = 128 := by
  simp [Dinode.bytes, List.length_flatMap]

/-- The head of the structure, before its array. -/
def Dinode.head (d : Dinode) : List UInt8 :=
  leBytes 2 (shortBits d.type) ++ leBytes 2 (shortBits d.major) ++ leBytes 2 (shortBits d.minor) ++
    leBytes 2 (shortBits d.nlink) ++ leBytes 8 d.size

theorem Dinode.bytes_addrs (d : Dinode) (n : Fin 14) {k : Nat} (hk : k < 8) :
    d.bytes[16 + 8 * n + k]? = some (byteOf (d.addrs n) k) := by
  rw [show d.bytes = d.head ++ (List.finRange 14).flatMap fun n => leBytes 8 (d.addrs n) from rfl,
    List.getElem?_append_right (by simp [Dinode.head]; omega),
    show 16 + 8 * (n : Nat) + k - d.head.length = 8 * n + k by simp [Dinode.head]; omega,
    getElem?_flatMap_const _ _ (fun _ => length_leBytes _ _) _ _ hk]
  simp [getElem?_leBytes hk]

theorem le_put_bytes {b : Bytes} {base o w v : Nat} {l : List UInt8} (hv : v < 256 ^ w)
    (h : ∀ k < w, l[o + k]? = some (byteOf v k)) : (b.put base l).le (base + o) w = v :=
  Bytes.le_eq hv fun k hk => by
    rw [Nat.add_assoc]
    exact Bytes.put_add (h k hk) b base

theorem getDinode_putDinode_self {d : Dinode} (hd : d.Fits) (b : Bytes) (k : Nat) :
    getDinode (putDinode b k d) k = d := by
  have hshort : ∀ {o : Nat} {x : Int}, IsShort x →
      (∀ j < 2, d.bytes[o + j]? = some (byteOf (shortBits x) j)) →
      shortOf ((putDinode b k d).le (128 * k + o) 2) = x := by
    intro o x hx h
    rw [putDinode, le_put_bytes (shortBits_lt x) h, shortOf_shortBits hx]
  have htype := hshort (o := 0) hd.type fun j hj => by
    interval_cases j <;> simp [Dinode.bytes, leBytes]
  have hmajor := hshort (o := 2) hd.major fun j hj => by
    interval_cases j <;> simp [Dinode.bytes, leBytes]
  have hminor := hshort (o := 4) hd.minor fun j hj => by
    interval_cases j <;> simp [Dinode.bytes, leBytes]
  have hnlink := hshort (o := 6) hd.nlink fun j hj => by
    interval_cases j <;> simp [Dinode.bytes, leBytes]
  have hsize : (putDinode b k d).le (128 * k + 8) 8 = d.size :=
    le_put_bytes (by simpa using hd.size) fun j hj => by
      interval_cases j <;> simp [Dinode.bytes, leBytes]
  have haddrs : ∀ n : Fin 14, (putDinode b k d).le (128 * k + 16 + 8 * n) 8 = d.addrs n := by
    intro n
    rw [Nat.add_assoc]
    exact le_put_bytes (by simpa using hd.addrs n) fun j hj => d.bytes_addrs n hj
  simp only [getDinode, Nat.add_zero] at *
  rw [htype, hmajor, hminor, hnlink, hsize]
  simp only [haddrs]

theorem getDinode_congr {b b' : Bytes} {k : Nat}
    (h : ∀ i, 128 * k ≤ i → i < 128 * k + 128 → b i = b' i) : getDinode b k = getDinode b' k := by
  have hle : ∀ o w, o + w ≤ 128 → b.le (128 * k + o) w = b'.le (128 * k + o) w := fun o w ho =>
    Bytes.le_congr fun j hj => h _ (by omega) (by omega)
  have h0 := hle 0 2 (by omega)
  simp only [Nat.add_zero] at h0
  have haddrs : ∀ n : Fin 14, b.le (128 * k + 16 + 8 * n) 8 = b'.le (128 * k + 16 + 8 * n) 8 := by
    intro n
    rw [Nat.add_assoc]
    exact hle _ 8 (by omega)
  simp only [getDinode, h0, hle 2 2 (by omega), hle 4 2 (by omega), hle 6 2 (by omega),
    hle 8 8 (by omega), haddrs]

theorem getDinode_putDinode_of_ne {k k' : Nat} (h : k' ≠ k) (b : Bytes) (d : Dinode) :
    getDinode (putDinode b k d) k' = getDinode b k' :=
  getDinode_congr fun i h1 h2 => Bytes.put_outside (by rw [d.length_bytes]; omega) b

theorem getDinode_zero (k : Nat) : getDinode (fun _ => 0) k = Dinode.zero := by
  simp [getDinode, Bytes.le_zero, Dinode.zero, shortOf, toShort]

/-! ## Directory entries -/

theorem DirEnt.length_toBytes {de : DirEnt} (h : de.name.length = 24) : de.toBytes.length = 32 := by
  simp [DirEnt.toBytes, h]

theorem DirEnt.ofBytes_toBytes {de : DirEnt} (h : de.inum < 2 ^ 64) : DirEnt.ofBytes de.toBytes = de := by
  simp only [DirEnt.ofBytes, DirEnt.toBytes]
  rw [List.take_left' (length_leBytes 8 _), List.drop_left' (length_leBytes 8 _),
    leNat_leBytes (by simpa using h)]

end Xv6.Fs
