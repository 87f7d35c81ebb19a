import Xv6.Vm.Frames

/-!
# Words in page frames

Entries of page tables and the pointers of the free list, read back after they were stored.
-/

namespace Xv6.Vm

open Xv6.Lib

variable {m : Mem} {t i x p : Nat}

/-! ## Entries -/

theorem or_eq_add (x : Nat) (hp : p < 4096) : pgsize4kb * x ||| p = pgsize4kb * x + p := by
  have h : p < 2 ^ 12 := hp
  exact (Nat.two_pow_add_eq_or_of_lt h x).symm

theorem testBit_add (x : Nat) (hp : p < 4096) {j : Nat} (hj : j < 12) :
    (pgsize4kb * x + p).testBit j = p.testBit j := by
  have h : p < 2 ^ 12 := hp
  rw [show pgsize4kb = 2 ^ 12 from rfl, Nat.testBit_two_pow_mul_add x h, if_pos hj]

theorem present_add (x : Nat) (hp : p < 4096) : present (pgsize4kb * x + p) = present p := testBit_add x hp (by decide)

theorem large_add (x : Nat) (hp : p < 4096) : large (pgsize4kb * x + p) = large p := testBit_add x hp (by decide)

theorem user_add (x : Nat) (hp : p < 4096) : user (pgsize4kb * x + p) = user p := testBit_add x hp (by decide)

theorem pteAddr_add (x : Nat) (hp : p < 4096) : pteAddr (pgsize4kb * x + p) = x := by
  rw [pteAddr, Nat.mul_add_div (by decide), show p / pgsize4kb = 0 from Nat.div_eq_of_lt hp, Nat.add_zero]

theorem pteFlags_add (x : Nat) (hp : p < 4096) : pteFlags (pgsize4kb * x + p) = p := by
  rw [pteFlags, Nat.mul_add_mod]
  exact Nat.mod_eq_of_lt hp

theorem large_zero : large 0 = false := Nat.zero_testBit 7

theorem present_or_one (a : Nat) : present (a ||| pteP) = true := by
  rw [present, Nat.testBit_or, show pteP.testBit 0 = true from rfl, Bool.or_true]

theorem pteFlags_lt (a : Nat) : pteFlags a < 4096 := Nat.mod_lt a (by decide)

theorem next_zero (e : Nat) : next e 0 = none := if_neg fun h => Bool.noConfusion h.1

theorem next_four (pte : Nat) : next 4 pte = if present pte then some (pteAddr pte) else none := by
  unfold next
  by_cases h : present pte
  · rw [if_pos ⟨h, Or.inl rfl⟩, if_pos h]
  · rw [if_neg fun h0 => h h0.1, if_neg h]

theorem next_of_absent {e pte : Nat} (h : present pte = false) : next e pte = none := by
  refine if_neg fun h0 => ?_
  rw [h] at h0
  exact Bool.noConfusion h0.1

/-- The entry of a table: present, for the user, and not large. -/
theorem next_table (e x : Nat) : next e (pgsize4kb * x + 7) = some x := by
  have hp : present (pgsize4kb * x + 7) = true := present_add x (by decide)
  have hl : large (pgsize4kb * x + 7) = false := large_add x (by decide)
  rw [next, if_pos ⟨hp, Or.inr hl⟩, pteAddr_add x (by decide)]

/-! ## Stores -/

/-- The memory after `setPage`. -/
def Mem.write (m : Mem) (x : Nat) (b : Bytes) : Mem := { m with pages := upd m.pages x b }

theorem pages_write_self (m : Mem) (x : Nat) (b : Bytes) : (m.write x b).pages x = b := upd_self _ _ _

theorem pages_write {z : Nat} (h : z ≠ x) (m : Mem) (b : Bytes) : (m.write x b).pages z = m.pages z := upd_of_ne h _ _

/-- The memory after `setPte`. -/
def Mem.store (m : Mem) (t i a : Nat) : Mem := m.write t ((m.pages t).putLe (8 * i) 8 a)

/-- The memory after `kfree`. -/
def Mem.freed (m : Mem) (x : Nat) : Mem :=
  ⟨upd m.pages x (Bytes.putLe (fun _ => 1) 0 8 (word m.freeList)), some x, m.bumpEnd, m.kpml4⟩

theorem pages_freed {z : Nat} (h : z ≠ x) (m : Mem) : (m.freed x).pages z = m.pages z := upd_of_ne h _ _

theorem byteOf_mod {v w k : Nat} (hk : k < w) : byteOf (v % 256 ^ w) k = byteOf v k := by
  refine UInt8.toNat_inj.mp ?_
  rw [byteOf_toNat, byteOf_toNat]
  have hp : 256 ^ w = 256 ^ k * 256 ^ (w - k) := by rw [← Nat.pow_add, Nat.add_sub_cancel' (Nat.le_of_lt hk)]
  rw [hp, Nat.mod_mul_right_div_self, Nat.mod_mod_of_dvd]
  exact Dvd.dvd.trans (by rw [Nat.pow_one]) (Nat.pow_dvd_pow 256 (Nat.sub_pos_of_lt hk))

theorem le_putLe (b : Bytes) (off w v : Nat) : (b.putLe off w v).le off w = v % 256 ^ w :=
  Bytes.le_eq (Nat.mod_lt v (Nat.pow_pos (by decide))) fun k hk => by
    rw [byteOf_mod hk]
    exact (if_pos ⟨Nat.le_add_right off k, Nat.add_lt_add_left hk off⟩).trans (by rw [Nat.add_sub_cancel_left])

/-- A store changes one slot of one table. -/
theorem pte_store (m : Mem) (t i a : Nat) : (m.store t i a).pte = Radix.setSlot m.pte t i (a % 2 ^ 64) := by
  funext u j
  unfold Mem.pte Mem.store Mem.write Radix.setSlot
  dsimp only
  by_cases hu : u = t
  · subst hu
    rw [upd_self]
    by_cases hj : j = i
    · subst hj
      rw [if_pos ⟨rfl, rfl⟩, le_putLe, show 256 ^ 8 = 2 ^ 64 from rfl]
    · rw [if_neg fun h => hj h.2, Bytes.le_putLe_of_disjoint (by omega)]
  · rw [upd_of_ne hu, if_neg fun h => hu h.1]

theorem pte_write_of_ne {u : Nat} (h : u ≠ x) (m : Mem) (b : Bytes) (j : Nat) : (m.write x b).pte u j = m.pte u j := by
  unfold Mem.pte Mem.write
  dsimp only
  rw [upd_of_ne h]

theorem pte_lt (m : Mem) (t i : Nat) : m.pte t i < 2 ^ 64 := Bytes.le_lt _ _ _

theorem pte_zeros (h : m.pages x = fun _ => 0) (i : Nat) : m.pte x i = 0 := by
  rw [Mem.pte, h]
  exact Bytes.le_zero _ _

/-! ## Pointers of the free list -/

theorem ofWord_word {o : Option Nat} (h : ∀ x ∈ o, pgsize4kb * x < phyStop) : ofWord (word o % 256 ^ 8) = o := by
  cases o with
  | none => rw [word, Nat.zero_mod, ofWord, if_pos rfl]
  | some x =>
      have hx : pgsize4kb * x < phyStop := h x rfl
      have hw : pageOffset + pgsize4kb * x < 256 ^ 8 := by
        simp only [pageOffset, pgsize4kb, phyStop] at hx ⊢
        omega
      have hd : (pageOffset + pgsize4kb * x - pageOffset) / pgsize4kb = x := by
        rw [Nat.add_sub_cancel_left, Nat.mul_div_cancel_left x (by decide)]
      rw [word, Nat.mod_eq_of_lt hw, ofWord, if_neg (by simp), hd]

end Xv6.Vm
