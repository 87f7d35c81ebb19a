import Mathlib.Tactic.Positivity

/-!
# Byte buffers

A buffer is a function from offsets to bytes; only the offsets below the buffer's size are ever
used. `slice` and `put` are the two directions of `memcpy`, and `le` reads a little-endian word.
-/

namespace Xv6.Lib

abbrev Bytes : Type := Nat → UInt8

/-- `v`'s byte with index `k`, the lowest first. -/
def byteOf (v k : Nat) : UInt8 := UInt8.ofNat (v / 256 ^ k)

/-- The value of a little-endian byte string. -/
def leNat : List UInt8 → Nat
  | [] => 0
  | x :: xs => x.toNat + 256 * leNat xs

/-- The `w` bytes of `v`, the lowest first. -/
def leBytes (w v : Nat) : List UInt8 := (List.range w).map (byteOf v)

namespace Bytes

/-- The `n` bytes from the offset `off` on. -/
def slice (b : Bytes) (off n : Nat) : List UInt8 := (List.range n).map fun k => b (off + k)

/-- The buffer with the bytes of `l` stored from the offset `off` on. -/
def put (b : Bytes) (off : Nat) (l : List UInt8) : Bytes := fun i =>
  if off ≤ i then (l[i - off]?).getD (b i) else b i

/-- The little-endian word of `w` bytes at the offset `off`. -/
def le (b : Bytes) (off w : Nat) : Nat := leNat (b.slice off w)

/-- The buffer with the word `v` of `w` bytes stored at the offset `off`. -/
def putLe (b : Bytes) (off w v : Nat) : Bytes := fun i =>
  if off ≤ i ∧ i < off + w then byteOf v (i - off) else b i

end Bytes

/-! ## Little-endian words -/

theorem byteOf_toNat (v k : Nat) : (byteOf v k).toNat = v / 256 ^ k % 256 := by
  simp [byteOf]

theorem byteOf_succ (v k : Nat) : byteOf v (k + 1) = byteOf (v / 256) k := by
  simp [byteOf, Nat.pow_succ', Nat.div_div_eq_div_mul]

@[simp] theorem length_leBytes (w v : Nat) : (leBytes w v).length = w := by
  simp [leBytes]

theorem getElem?_leBytes {w k : Nat} (h : k < w) (v : Nat) : (leBytes w v)[k]? = some (byteOf v k) := by
  simp [leBytes, h]

theorem leBytes_succ (w v : Nat) : leBytes (w + 1) v = byteOf v 0 :: leBytes w (v / 256) := by
  simp [leBytes, List.range_succ_eq_map, byteOf_succ, Function.comp_def]

theorem leNat_leBytes {w v : Nat} (h : v < 256 ^ w) : leNat (leBytes w v) = v := by
  induction w generalizing v with
  | zero =>
      have : v = 0 := by simpa using h
      simp [leBytes, leNat, this]
  | succ w ih =>
      have hv : v / 256 < 256 ^ w := by
        rw [Nat.div_lt_iff_lt_mul (by decide)]
        rwa [Nat.pow_succ] at h
      rw [leBytes_succ, leNat, ih hv, byteOf_toNat]
      simp only [Nat.pow_zero, Nat.div_one]
      omega

theorem leNat_lt (l : List UInt8) : leNat l < 256 ^ l.length := by
  induction l with
  | nil => simp [leNat]
  | cons x xs ih =>
      have := x.toNat_lt
      simp only [leNat, List.length_cons, Nat.pow_succ]
      omega

/-! ## Slices and stores -/

namespace Bytes

@[simp] theorem length_slice (b : Bytes) (off n : Nat) : (b.slice off n).length = n := by
  simp [slice]

theorem getElem?_slice {n k : Nat} (h : k < n) (b : Bytes) (off : Nat) :
    (b.slice off n)[k]? = some (b (off + k)) := by
  simp [slice, h]

theorem slice_congr {b b' : Bytes} {off off' n : Nat} (h : ∀ k < n, b (off + k) = b' (off' + k)) :
    b.slice off n = b'.slice off' n := by
  unfold slice
  exact List.map_congr_left fun k hk => h k (List.mem_range.mp hk)

theorem drop_take_slice (b : Bytes) (off size k n : Nat) (h : k ≤ size) :
    ((b.slice off size).drop k).take n = b.slice (off + k) (min n (size - k)) := by
  refine List.ext_getElem? fun i => ?_
  by_cases hi : i < min n (size - k)
  · rw [getElem?_slice hi, List.getElem?_take_of_lt (by omega), List.getElem?_drop,
      getElem?_slice (by omega), Nat.add_assoc]
  · rw [List.getElem?_eq_none, List.getElem?_eq_none] <;>
      simp only [List.length_take, List.length_drop, length_slice] <;>
      omega

theorem slice_add (b : Bytes) (off m n : Nat) :
    b.slice off (m + n) = b.slice off m ++ b.slice (off + m) n := by
  simp [slice, List.range_add, Function.comp_def, Nat.add_assoc]

theorem put_of_lt {off i : Nat} (h : i < off) (b : Bytes) (l : List UInt8) : b.put off l i = b i := by
  simp [put, Nat.not_le.mpr h]

theorem put_of_le {off i : Nat} {l : List UInt8} (h : off + l.length ≤ i) (b : Bytes) :
    b.put off l i = b i := by
  have : l[i - off]? = none := List.getElem?_eq_none (by omega)
  simp [put, this]

theorem put_add {k : Nat} {l : List UInt8} {x : UInt8} (h : l[k]? = some x) (b : Bytes) (off : Nat) :
    b.put off l (off + k) = x := by
  simp [put, h]

theorem put_outside {off i : Nat} {l : List UInt8} (h : i < off ∨ off + l.length ≤ i) (b : Bytes) :
    b.put off l i = b i := by
  rcases h with h | h
  · exact put_of_lt h b l
  · exact put_of_le h b

theorem put_put {l l' : List UInt8} (h : l.length = l'.length) (b : Bytes) (off : Nat) :
    (b.put off l).put off l' = b.put off l' := by
  funext i
  by_cases hi : i < off ∨ off + l'.length ≤ i
  · rw [put_outside hi, put_outside hi, put_outside (by rwa [h])]
  · obtain ⟨k, rfl⟩ : ∃ k, i = off + k := ⟨i - off, by omega⟩
    have hk : l'[k]? = some l'[k] := List.getElem?_eq_getElem (by omega)
    rw [put_add hk, put_add hk]

theorem le_congr {b b' : Bytes} {off off' w : Nat} (h : ∀ k < w, b (off + k) = b' (off' + k)) :
    b.le off w = b'.le off' w := by
  rw [le, le, slice_congr h]

theorem le_lt (b : Bytes) (off w : Nat) : b.le off w < 256 ^ w := by
  have := leNat_lt (b.slice off w)
  rwa [length_slice] at this

/-- A word whose bytes are those of `v` is `v`. -/
theorem le_eq {b : Bytes} {off w v : Nat} (hv : v < 256 ^ w) (h : ∀ k < w, b (off + k) = byteOf v k) :
    b.le off w = v := by
  rw [le, show b.slice off w = leBytes w v from List.map_congr_left fun k hk => h k (List.mem_range.mp hk)]
  exact leNat_leBytes hv

theorem le_zero (off w : Nat) : le (fun _ => 0) off w = 0 :=
  le_eq (by positivity) fun k _ => by simp [byteOf]

theorem le_putLe_self {w v : Nat} (hv : v < 256 ^ w) (b : Bytes) (off : Nat) :
    (b.putLe off w v).le off w = v :=
  le_eq hv fun k hk => by simp [putLe, hk]

theorem le_putLe_of_disjoint {off w off' w' : Nat} (h : off' + w' ≤ off ∨ off + w ≤ off') (b : Bytes)
    (v : Nat) : (b.putLe off w v).le off' w' = b.le off' w' :=
  le_congr fun k hk => if_neg (by omega)

end Bytes

end Xv6.Lib
