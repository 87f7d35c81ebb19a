import Mathlib.Data.Nat.ModEq
import Xv6.Lib.Upd

/-!
# Ring buffers with free-running counters

A ring of `n` cells is read at `nread % n` and written at `nwrite % n`. The two counters are not
reduced to the size of the ring, but wrap at `m`, which `n` divides. `contents` is the queue that the
ring stands for.
-/

namespace Xv6.Lib

structure RingBuf (α : Type) where
  data : Nat → α
  nread : Nat
  nwrite : Nat

namespace RingBuf

variable {α : Type} {n m : Nat} {r : RingBuf α}

/-- The number of cells in use: the difference of the counters, which may have wrapped. -/
def count (m : Nat) (r : RingBuf α) : Nat := (m + r.nwrite - r.nread) % m

/-- The queue, with the oldest value first. -/
def contents (n m : Nat) (r : RingBuf α) : List α := (List.range (r.count m)).map fun i => r.data ((r.nread + i) % n)

def push (n m : Nat) (r : RingBuf α) (c : α) : RingBuf α :=
  ⟨upd r.data (r.nwrite % n) c, r.nread, (r.nwrite + 1) % m⟩

def pop (m : Nat) (r : RingBuf α) : RingBuf α := ⟨r.data, (r.nread + 1) % m, r.nwrite⟩

/-- Gives the cell that was written last back. -/
def unpush (m : Nat) (r : RingBuf α) : RingBuf α := ⟨r.data, r.nread, (m + r.nwrite - 1) % m⟩

/-- No more cells are in use than there are. -/
structure Fits (n m : Nat) (r : RingBuf α) : Prop where
  nread : r.nread < m
  nwrite : r.nwrite < m
  count : r.count m ≤ n

theorem length_contents : (r.contents n m).length = r.count m := by simp [contents]

theorem count_of_le (hw : r.nwrite < m) (h : r.nread ≤ r.nwrite) : r.count m = r.nwrite - r.nread := by
  have heq : m + r.nwrite - r.nread = r.nwrite - r.nread + m := by omega
  rw [count, heq, Nat.add_mod_right, Nat.mod_eq_of_lt (by omega)]

theorem count_of_lt (hr : r.nread < m) (h : r.nwrite < r.nread) : r.count m = m + r.nwrite - r.nread := by
  rw [count, Nat.mod_eq_of_lt (by omega)]

theorem succ_mod {x : Nat} (h : x < m) : (x + 1) % m = if x + 1 = m then 0 else x + 1 := by
  split
  · rename_i he
    rw [he, Nat.mod_self]
  · exact Nat.mod_eq_of_lt (by omega)

namespace Fits

theorem count_eq_zero (h : r.Fits n m) : r.count m = 0 ↔ r.nread = r.nwrite := by
  rcases le_or_gt r.nread r.nwrite with hle | hlt
  · rw [count_of_le h.nwrite hle]
    omega
  · rw [count_of_lt h.nread hlt]
    have := h.nread
    omega

theorem contents_eq_nil (h : r.Fits n m) : r.contents n m = [] ↔ r.nread = r.nwrite := by
  rw [← h.count_eq_zero, ← length_contents (n := n), List.length_eq_zero_iff]

/-- The test for a full ring. -/
theorem count_eq_size (h : r.Fits n m) (hn : n < m) : r.count m = n ↔ r.nwrite = (r.nread + n) % m := by
  have hr := h.nread
  have hw := h.nwrite
  rcases Nat.lt_or_ge (r.nread + n) m with hs | hs
  · rw [Nat.mod_eq_of_lt hs]
    rcases le_or_gt r.nread r.nwrite with hle | hlt
    · rw [count_of_le h.nwrite hle]
      omega
    · rw [count_of_lt h.nread hlt]
      omega
  · rw [Nat.mod_eq_sub_mod hs, Nat.mod_eq_of_lt (by omega)]
    rcases le_or_gt r.nread r.nwrite with hle | hlt
    · rw [count_of_le h.nwrite hle]
      omega
    · rw [count_of_lt h.nread hlt]
      omega

/-- The next cell to write is the one after the cells in use. -/
theorem nwrite_mod (h : r.Fits n m) (hd : n ∣ m) : r.nwrite % n = (r.nread + r.count m) % n := by
  rcases le_or_gt r.nread r.nwrite with hle | hlt
  · rw [count_of_le h.nwrite hle, Nat.add_sub_cancel' hle]
  · have heq : r.nread + (m + r.nwrite - r.nread) = r.nwrite + m := by
      have := h.nread
      omega
    rw [count_of_lt h.nread hlt, heq, Nat.add_mod, Nat.mod_eq_zero_of_dvd hd, Nat.add_zero, Nat.mod_mod]

theorem count_push (h : r.Fits n m) (hlt : r.count m < n) (hn : n < m) (c : α) :
    (r.push n m c).count m = r.count m + 1 := by
  have hr := h.nread
  have hw := h.nwrite
  have hc : (r.push n m c).nwrite = (r.nwrite + 1) % m := rfl
  rw [succ_mod hw] at hc
  have hb : (r.push n m c).nwrite < m := Nat.mod_lt _ (by omega)
  have ha : (r.push n m c).nread = r.nread := rfl
  rcases le_or_gt r.nread r.nwrite with hle | hlt'
  · rw [count_of_le hw hle] at hlt ⊢
    split at hc
    · rcases le_or_gt (r.push n m c).nread (r.push n m c).nwrite with h1 | h1
      · rw [count_of_le hb h1]
        omega
      · rw [count_of_lt (by omega) h1]
        omega
    · rw [count_of_le hb (by omega)]
      omega
  · rw [count_of_lt hr hlt'] at hlt ⊢
    rw [if_neg (by omega)] at hc
    rw [count_of_lt (by omega) (by omega)]
    omega

theorem push (h : r.Fits n m) (hlt : r.count m < n) (hn : n < m) (c : α) : (r.push n m c).Fits n m where
  nread := h.nread
  nwrite := Nat.mod_lt _ (Nat.zero_lt_of_lt hn)
  count := by
    rw [h.count_push hlt hn]
    exact hlt

/-- Writing appends to the queue. -/
theorem contents_push (h : r.Fits n m) (hlt : r.count m < n) (hn : n < m) (hd : n ∣ m) (c : α) :
    (r.push n m c).contents n m = r.contents n m ++ [c] := by
  rw [contents, h.count_push hlt hn, List.range_succ, List.map_append, contents]
  congr 1
  · apply List.map_congr_left
    intro i hi
    have hi : i < r.count m := List.mem_range.mp hi
    -- the cell in use is not the one that is written
    have hne : (r.nread + i) % n ≠ r.nwrite % n := by
      rw [h.nwrite_mod hd]
      intro he
      have := Nat.ModEq.add_left_cancel' r.nread he
      rw [Nat.ModEq, Nat.mod_eq_of_lt (by omega), Nat.mod_eq_of_lt hlt] at this
      omega
    exact upd_of_ne hne _ _
  · have he : (r.nread + r.count m) % n = r.nwrite % n := (h.nwrite_mod hd).symm
    simp [RingBuf.push, he]

theorem count_pop (h : r.Fits n m) (hne : r.nread ≠ r.nwrite) : (r.pop m).count m + 1 = r.count m := by
  have hr := h.nread
  have hw := h.nwrite
  have hc : (r.pop m).nread = (r.nread + 1) % m := rfl
  rw [succ_mod hr] at hc
  have ha : (r.pop m).nwrite = r.nwrite := rfl
  rcases le_or_gt r.nread r.nwrite with hle | hlt
  · rw [if_neg (by omega)] at hc
    rw [count_of_le hw hle, count_of_le (by omega) (by omega)]
    omega
  · rw [count_of_lt hr hlt]
    split at hc
    · rw [count_of_le (by omega) (by omega)]
      omega
    · rw [count_of_lt (by omega) (by omega)]
      omega

theorem pop (h : r.Fits n m) (hne : r.nread ≠ r.nwrite) : (r.pop m).Fits n m where
  nread := Nat.mod_lt _ (Nat.zero_lt_of_lt h.nread)
  nwrite := h.nwrite
  count := by
    have := h.count
    have := h.count_pop hne
    omega

/-- Reading takes the oldest value of the queue. -/
theorem contents_pop (h : r.Fits n m) (hne : r.nread ≠ r.nwrite) (hd : n ∣ m) :
    r.contents n m = r.data (r.nread % n) :: (r.pop m).contents n m := by
  rw [contents, ← h.count_pop hne, List.range_succ_eq_map, List.map_cons, List.map_map, Nat.add_zero, contents]
  congr 1
  apply List.map_congr_left
  intro i _
  have heq : (r.nread + (i + 1)) % n = ((r.nread + 1) % m + i) % n := by
    rw [Nat.add_mod ((r.nread + 1) % m), Nat.mod_mod_of_dvd _ hd, ← Nat.add_mod]
    congr 1
    omega
  simp only [Function.comp_apply, Nat.succ_eq_add_one, heq]
  rfl

theorem nwrite_eq (h : r.Fits n m) : r.nwrite = (r.nread + r.count m) % m := by
  rcases le_or_gt r.nread r.nwrite with hle | hlt
  · rw [count_of_le h.nwrite hle, Nat.add_sub_cancel' hle, Nat.mod_eq_of_lt h.nwrite]
  · have heq : r.nread + (m + r.nwrite - r.nread) = r.nwrite + m := by
      have := h.nread
      omega
    rw [count_of_lt h.nread hlt, heq, Nat.add_mod_right, Nat.mod_eq_of_lt h.nwrite]

theorem pred_mod {x : Nat} (h : x < m) : (m + x - 1) % m = if x = 0 then m - 1 else x - 1 := by
  split
  · rename_i he
    rw [he, Nat.add_zero, Nat.mod_eq_of_lt (by omega)]
  · have heq : m + x - 1 = x - 1 + m := by omega
    rw [heq, Nat.add_mod_right, Nat.mod_eq_of_lt (by omega)]

theorem count_unpush (h : r.Fits n m) (hne : r.nread ≠ r.nwrite) : (r.unpush m).count m + 1 = r.count m := by
  have hr := h.nread
  have hw := h.nwrite
  have hc : (r.unpush m).nwrite = (m + r.nwrite - 1) % m := rfl
  rw [pred_mod hw] at hc
  have ha : (r.unpush m).nread = r.nread := rfl
  rcases le_or_gt r.nread r.nwrite with hle | hlt
  · rw [if_neg (by omega)] at hc
    rw [count_of_le hw hle, count_of_le (by omega) (by omega)]
    omega
  · rw [count_of_lt hr hlt]
    split at hc
    · rw [count_of_le (by omega) (by omega)]
      omega
    · rw [count_of_lt (by omega) (by omega)]
      omega

theorem unpush (h : r.Fits n m) (hne : r.nread ≠ r.nwrite) : (r.unpush m).Fits n m where
  nread := h.nread
  nwrite := Nat.mod_lt _ (Nat.zero_lt_of_lt h.nread)
  count := by
    have := h.count
    have := h.count_unpush hne
    omega

/-- The newest value of the queue, and the queue without it. -/
theorem contents_unpush (h : r.Fits n m) (hne : r.nread ≠ r.nwrite) (hd : n ∣ m) :
    r.contents n m = (r.unpush m).contents n m ++ [r.data ((m + r.nwrite - 1) % m % n)] := by
  have hlast : (m + r.nwrite - 1) % m % n = (r.nread + (r.unpush m).count m) % n := (h.unpush hne).nwrite_mod hd
  rw [contents, ← h.count_unpush hne, List.range_succ, List.map_append, contents, hlast]
  rfl

end Fits

end RingBuf

end Xv6.Lib
