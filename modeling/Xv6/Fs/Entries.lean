import Mathlib.Data.List.TakeWhile
import Xv6.Fs.Lemmas.Inode
import Xv6.Fs.Dir

/-!
# Directories as finite maps

The data of a directory is an array of entries. A live entry binds a name, which counts up to its
terminator and for `dirsiz` bytes at most.
-/

namespace Xv6.Fs

open Xv6.Lib

/-! ## Names -/

/-- What a string is as the name of an entry. -/
def nameOf (l : List UInt8) : List UInt8 := (l.takeWhile (· ≠ 0)).take dirsiz

theorem strncmp_eq_zero (s t : List UInt8) (n : Nat) :
    strncmp s t n = 0 ↔ (s.takeWhile (· ≠ 0)).take n = (t.takeWhile (· ≠ 0)).take n := by
  induction n generalizing s t with
  | zero => simp [strncmp]
  | succ n ih =>
      have htoNat : ∀ a b : UInt8, (a.toNat : Int) - b.toNat = 0 ↔ a = b := by
        intro a b
        rw [← UInt8.toNat_inj]
        omega
      -- a list that has run out is a list that goes on with the terminator
      cases s with
      | nil =>
          cases t with
          | nil => simp [strncmp]
          | cons b t =>
              rw [strncmp, if_neg (by simp), htoNat, List.headD_nil, List.headD_cons, eq_comm]
              by_cases hb : b = 0 <;> simp [hb]
      | cons a s =>
          cases t with
          | nil =>
              have hand : ¬ (a ≠ 0 ∧ a = 0) := fun h => h.1 h.2
              rw [strncmp, List.headD_cons, List.headD_nil, if_neg hand, htoNat]
              by_cases ha : a = 0 <;> simp [ha]
          | cons b t =>
              rw [strncmp, List.headD_cons, List.headD_cons, List.tail_cons, List.tail_cons]
              by_cases ha : a = 0
              · rw [if_neg (by simp [ha]), htoNat, ha, eq_comm]
                by_cases hb : b = 0 <;> simp [hb]
              · by_cases hab : a = b
                · rw [if_pos ⟨ha, hab⟩, ih]
                  simp [← hab, ha]
                · rw [if_neg (by simp [hab]), htoNat]
                  by_cases hb : b = 0 <;> simp [ha, hb, hab]

theorem strncmp_name (s t : List UInt8) : strncmp s t dirsiz = 0 ↔ nameOf s = nameOf t := strncmp_eq_zero s t dirsiz

@[simp] theorem length_strncpy (t : List UInt8) (n : Nat) : (strncpy t n).length = n := by
  simp only [strncpy, List.length_append, List.length_take, List.length_replicate]
  omega

/-- A stored name reads back as itself. -/
theorem nameOf_strncpy (t : List UInt8) : nameOf (strncpy t dirsiz) = nameOf t := by
  have hne : ∀ a ∈ (t.takeWhile (· ≠ 0)).take dirsiz, (decide (a ≠ 0)) = true := fun a ha => by
    simpa using List.mem_takeWhile_imp (List.mem_of_mem_take ha)
  have hzero : (List.replicate (dirsiz - ((t.takeWhile (· ≠ 0)).take dirsiz).length) (0 : UInt8)).takeWhile
      (fun a => decide (a ≠ 0)) = [] := by
    cases dirsiz - ((t.takeWhile (· ≠ 0)).take dirsiz).length with
    | zero => rfl
    | succ k => simp [List.replicate_succ]
  rw [nameOf, strncpy]
  simp only [List.takeWhile_append_of_pos hne, hzero, List.append_nil, List.take_take, Nat.min_self]
  rfl

/-! ## Entries -/

/-- The entry number `k` of a directory. -/
def entryAt (data : List UInt8) (k : Nat) : DirEnt := DirEnt.ofBytes ((data.drop (32 * k)).take 32)

/-- The number of entries, live or not. -/
def entryCount (data : List UInt8) : Nat := data.length / 32

/-- The entry `k` binds `name`. -/
def Binds (data : List UInt8) (name : List UInt8) (k : Nat) : Prop :=
  (entryAt data k).inum ≠ 0 ∧ nameOf (entryAt data k).name = nameOf name

instance (data name : List UInt8) (k : Nat) : Decidable (Binds data name k) := inferInstanceAs (Decidable (_ ∧ _))

/-- The first entry that binds a name. -/
def lookup (data : List UInt8) (name : List UInt8) : Option Nat :=
  (List.range (entryCount data)).find? fun k => Binds data name k

/-- The first entry that is not live, or the place for a new one. -/
def freeEntry (data : List UInt8) : Nat :=
  ((List.range (entryCount data)).find? fun k => (entryAt data k).inum = 0).getD (entryCount data)

theorem lookup_eq_some {data name : List UInt8} {k : Nat} :
    lookup data name = some k ↔ k < entryCount data ∧ Binds data name k ∧ ∀ j < k, ¬ Binds data name j := by
  rw [lookup, List.find?_range_eq_some]
  simp only [decide_eq_true_eq, List.mem_range, Bool.not_eq_true', decide_eq_false_iff_not]
  tauto

theorem lookup_eq_none {data name : List UInt8} :
    lookup data name = none ↔ ∀ k < entryCount data, ¬ Binds data name k := by
  rw [lookup, List.find?_range_eq_none]
  simp only [Bool.not_eq_true', decide_eq_false_iff_not]

theorem freeEntry_le (data : List UInt8) : freeEntry data ≤ entryCount data := by
  unfold freeEntry
  cases h : (List.range (entryCount data)).find? fun k => (entryAt data k).inum = 0 with
  | none => simp
  | some k =>
      have := List.mem_of_find?_eq_some h
      simp only [Option.getD_some]
      exact Nat.le_of_lt (List.mem_range.mp this)

theorem freeEntry_free {data : List UInt8} (h : freeEntry data < entryCount data) :
    (entryAt data (freeEntry data)).inum = 0 := by
  unfold freeEntry at h ⊢
  cases hf : (List.range (entryCount data)).find? fun k => (entryAt data k).inum = 0 with
  | none => simp [hf] at h
  | some k => simpa using List.find?_some hf

/-! ## Changing an entry -/

theorem entryCount_overlay {data : List UInt8} {k : Nat} {w : List UInt8} (hw : w.length = 32)
    (hmod : data.length % 32 = 0) (hk : k ≤ entryCount data) :
    entryCount (overlay data (32 * k) w) = max (entryCount data) (k + 1) ∧
      (overlay data (32 * k) w).length % 32 = 0 := by
  have hlen : (overlay data (32 * k) w).length = max data.length (32 * k + 32) := by
    rw [length_overlay (by unfold entryCount at hk; omega), hw]
  unfold entryCount at hk ⊢
  rw [hlen]
  omega

theorem entryAt_overlay {data : List UInt8} {k j : Nat} {w : List UInt8} (hw : w.length = 32)
    (hmod : data.length % 32 = 0) (hk : k ≤ entryCount data) :
    entryAt (overlay data (32 * k) w) j = if j = k then DirEnt.ofBytes w else entryAt data j := by
  have hoff : 32 * k ≤ data.length := by
    unfold entryCount at hk
    omega
  have hchunk : ∀ i < 32, (overlay data (32 * k) w)[32 * j + i]? =
      if j = k then w[i]? else data[32 * j + i]? := by
    intro i hi
    rw [getElem?_overlay hoff, hw]
    split <;> split
    · rw [‹j = k›, Nat.add_sub_cancel_left]
    · omega
    · omega
    · rfl
  have hext : ((overlay data (32 * k) w).drop (32 * j)).take 32 =
      if j = k then w else (data.drop (32 * j)).take 32 := by
    refine List.ext_getElem? fun i => ?_
    by_cases hi : i < 32
    · rw [List.getElem?_take_of_lt hi, List.getElem?_drop, hchunk i hi]
      split
      · rfl
      · rw [List.getElem?_take_of_lt hi, List.getElem?_drop]
    · rw [List.getElem?_eq_none (by simp; omega)]
      split
      · rw [List.getElem?_eq_none (by omega)]
      · rw [List.getElem?_eq_none (by simp; omega)]
  rw [entryAt, hext]
  split <;> rfl

end Xv6.Fs
