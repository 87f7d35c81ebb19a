import Xv6.Fs.Lemmas.Contents

/-!
# Truncation

`itrunc` frees the places of an inode in order: the direct slots, the entries of the indirect block, the
indirect block. Until the final `iupdate` only the bitmap changes on disk.
-/

namespace Xv6.Fs

open Xv6.Lib

/-- The places in use once the places of inode `i` below `n` are freed. -/
def shapeFrom (K : Nat → Nat) (i n : Nat) (j m : Nat) : Prop := shape K j m ∧ ¬ (j = i ∧ m < n)

section

variable {disk : Nat → Bytes} {D : Nat → Dinode} {K : Nat → Nat} {S S' : Nat → Nat → Prop} {i n : Nat} {x : Bytes}

theorem Owns.of_iff (h : Owns disk D S) (hS : ∀ j m, S j m ↔ S' j m) : Owns disk D S' := by
  have : S = S' := funext fun j => funext fun m => propext (hS j m)
  rwa [← this]

/-- The bitmap is no indirect block. -/
theorem Files.place_bitmap (h : Files disk D S) {j : Nat} (hj : j < 96) (m : Nat) :
    place (upd disk 2 x) (D j) m = place disk (D j) m := by
  refine place_congr rfl fun _ _ ha => upd_of_ne ?_ _ _
  have := h.addr_range (h.tight hj (by omega) (by simpa using ha))
  omega

theorem Files.byteAt_bitmap (h : Files disk D (shape K)) {j o : Nat} (hj : j < 96) (ho : o / 4096 < K j) :
    byteAt (upd disk 2 x) (D j) o = byteAt disk (D j) o := by
  have hr := h.range (show shape K j (o / 4096) from ⟨hj, Or.inl ho⟩)
  rw [byteAt, byteAt, h.place_bitmap hj, upd_of_ne (by omega)]

/-- A place that holds no block has nothing to free. -/
theorem Owns.trunc_skip (h : Files disk D (shape K)) (ho : Owns (upd disk 2 x) D (shapeFrom K i n))
    (h0 : place disk (D i) n = 0) : Owns (upd disk 2 x) D (shapeFrom K i (n + 1)) := by
  refine ho.of_iff fun j m => ⟨fun hs => ⟨hs.1, ?_⟩, fun hs => ⟨hs.1, fun he => hs.2 ⟨he.1, by omega⟩⟩⟩
  rintro ⟨rfl, hm⟩
  rcases Nat.lt_succ_iff_lt_or_eq.mp hm with hm | rfl
  · exact hs.2 ⟨rfl, hm⟩
  · have := h.range hs.1
    omega

/-- The block of the next place is in use, and clearing its bit frees the place. -/
theorem Owns.trunc_free (h : Files disk D (shape K)) (ho : Owns (upd disk 2 x) D (shapeFrom K i n))
    (hi : i < 96) (hn : n < 526) (h0 : place disk (D i) n ≠ 0) :
    (place disk (D i) n < 4096 ∧ bitSet x (place disk (D i) n) = true) ∧
      Owns (upd disk 2 (clearBit x (place disk (D i) n))) D (shapeFrom K i (n + 1)) := by
  have hs : shapeFrom K i n i n := ⟨h.tight hi hn h0, fun he => lt_irrefl n he.2⟩
  have hplace : ∀ y j m, shapeFrom K i n j m → place (upd disk 2 y) (D j) m = place disk (D j) m :=
    fun y j m hj => h.place_bitmap (h.dom hj.1).1 m
  have hlt := (h.range hs.1).2
  have hbit : bitSet x (place disk (D i) n) = true := by
    have := (ho.bit _ hlt).mpr (Or.inr ⟨i, n, hs, hplace x i n hs⟩)
    rwa [upd_self] at this
  refine ⟨⟨hlt, hbit⟩, ?_⟩
  refine (Owns.erase (upd disk 2 (clearBit x (place disk (D i) n))) D ho hs (hplace x i n hs) ?_ ?_ ?_).of_iff
    fun j m => ?_
  · rintro rfl m _ hm
    have := (h.dom hm.1).2
    have := hm.2
    omega
  · intro j m hj _
    rw [hplace _ j m hj, hplace _ j m hj]
  · intro c _
    rw [upd_self, upd_self, bitSet_clearBit]
  · constructor
    · rintro ⟨hj, hne⟩
      exact ⟨hj.1, fun he => hne ⟨he.1, by have := hj.2; omega⟩⟩
    · rintro ⟨hj, hne⟩
      exact ⟨⟨hj, fun he => hne ⟨he.1, by omega⟩⟩, fun he => hne ⟨he.1, by omega⟩⟩

/-- The inode without contents. -/
def Dinode.truncated (d : Dinode) : Dinode := { d with size := 0, addrs := fun _ => 0 }

theorem place_truncated (disk : Nat → Bytes) (d : Dinode) (m : Nat) : place disk d.truncated m = 0 := by
  simp [place, Dinode.truncated]

theorem Files.truncated (h : Files disk D (shape K)) (ho : Owns (upd disk 2 x) D (shapeFrom K i 526)) :
    Files (upd disk 2 x) (upd D i (D i).truncated) (shape (upd K i 0)) := by
  have hS : ∀ j m, shapeFrom K i 526 j m ↔ shape (upd K i 0) j m := by
    intro j m
    by_cases hj : j = i
    · subst hj
      simp only [shapeFrom, shape, upd_self]
      constructor
      · rintro ⟨hs, hne⟩
        exact absurd ⟨trivial, (h.dom hs).2⟩ hne
      · omega
    · simp [shapeFrom, shape, hj]
  have hD : ∀ j, j ≠ i → upd D i (D i).truncated j = D j := fun j hj => upd_of_ne hj _ _
  refine ⟨(ho.congr ?_ fun c _ => rfl).of_iff hS, ?_⟩
  · intro j m hs
    rw [hD j fun hj => hs.2 ⟨hj, (h.dom hs.1).2⟩]
  · intro j m hj hm hne
    by_cases hji : j = i
    · subst hji
      rw [upd_self] at hne
      exact absurd (place_truncated _ _ m) hne
    · rw [hD j hji, h.place_bitmap hj] at hne
      have := h.tight hj hm hne
      simpa [shape, hji] using this

end

/-! ## The code -/

variable {s : State} {ip : Slot} {D : Nat → Dinode} {K : Nat → Nat} {i : Nat}

/-- The inode with its first `n` direct slots cleared. -/
def Dinode.cleared (d : Dinode) (n : Nat) : Dinode :=
  { d with addrs := fun k => if (k : Nat) < n then 0 else d.addrs k }

theorem Dinode.cleared_addrs (d : Dinode) (n : Nat) (k : Fin 14) :
    (d.cleared n).addrs k = if (k : Nat) < n then 0 else d.addrs k := rfl

theorem Dinode.cleared_zero (d : Dinode) : d.cleared 0 = d := by
  simp [Dinode.cleared]

theorem Dinode.cleared_succ (d : Dinode) {n : Nat} (hn : n < 14) :
    (d.cleared n).withAddr (Fin.ofNat 14 n) 0 = d.cleared (n + 1) := by
  have : upd (d.cleared n).addrs (Fin.ofNat 14 n) 0 = (d.cleared (n + 1)).addrs := by
    funext k
    have hk : k = Fin.ofNat 14 n ↔ (k : Nat) = n := by
      rw [Fin.ext_iff, Fin.val_ofNat, Nat.mod_eq_of_lt hn]
    simp only [Dinode.cleared, upd_apply, hk]
    split
    · rw [if_pos (by omega)]
    · congr 1
      exact propext (by omega)
  rw [Dinode.withAddr, this]
  rfl

theorem Dinode.cleared_all (d : Dinode) : (d.cleared 13).withAddr indirect 0 = { d with addrs := fun _ => 0 } := by
  have : (d.cleared 14).addrs = fun _ => 0 := by
    funext k
    rw [Dinode.cleared_addrs, if_pos k.isLt]
  rw [← this]
  exact Dinode.cleared_succ d (show 13 < 14 by omega)

theorem Dinode.cleared_skip (d : Dinode) {n : Nat} (hn : n < 14) (h0 : d.addrs (Fin.ofNat 14 n) = 0) :
    d.cleared n = d.cleared (n + 1) := by
  rw [← Dinode.cleared_succ d hn, Dinode.withAddr]
  have : (d.cleared n).addrs (Fin.ofNat 14 n) = 0 := by
    rw [Dinode.cleared_addrs, h0, ite_self]
  rw [← this, upd_eta]

/-- The state in which the bitmap and the cached inode data have changed. -/
def State.truncating (s : State) (ip : Slot) (x : Bytes) (d : Dinode) : State :=
  { s with disk := upd s.disk 2 x }.withDinode ip d

theorem State.truncating_inode (x : Bytes) (d : Dinode) :
    (s.truncating ip x d).inodes ip = { s.inodes ip with toDinode := d } := upd_self _ _ _

theorem State.truncating_free (x y : Bytes) (d : Dinode) :
    { s.truncating ip x d with disk := upd (s.truncating ip x d).disk 2 y } = s.truncating ip y d := by
  simp [State.truncating, State.withDinode, State.withInode]

theorem State.truncating_withDinode (x : Bytes) (d d' : Dinode) :
    (s.truncating ip x d).withDinode ip d' = s.truncating ip x d' := by
  simp [State.truncating, State.withDinode, State.withInode]

/-- `bfree` on the way. -/
theorem bfree_truncating {x : Bytes} {d : Dinode} {n : Nat} (hsb : s.sb = stdSb) (h : Files s.disk D (shape K))
    (ho : Owns (upd s.disk 2 x) D (shapeFrom K i n)) (hi : i < 96) (hn : n < 526)
    (h0 : place s.disk (D i) n ≠ 0) :
    Wp (bfree 0 (place s.disk (D i) n)) (fun _ t => ∃ y, t = s.truncating ip y d ∧
      Owns (upd s.disk 2 y) D (shapeFrom K i (n + 1))) (fun _ => False) (s.truncating ip x d) := by
  obtain ⟨⟨hb, hset⟩, ho'⟩ := Owns.trunc_free h ho hi hn h0
  have hx : (s.truncating ip x d).disk 2 = x := upd_self s.disk 2 x
  refine (bfree_spec (s := s.truncating ip x d) hsb hb (by rwa [hx])).post ?_
  rintro _ _ rfl
  rw [hx, State.truncating_free]
  exact ⟨_, rfl, ho'⟩

theorem itruncDirect_spec (hsb : s.sb = stdSb) (h : Files s.disk D (shape K)) (hdev : (s.inodes ip).dev = 0)
    (hd : (s.inodes ip).toDinode = D i) (hi : i < 96) :
    Wp (itruncDirect ip) (fun _ t => ∃ x, t = s.truncating ip x ((D i).cleared 13) ∧
      Owns (upd s.disk 2 x) D (shapeFrom K i 13)) (fun _ => False) s := by
  refine wp_loop (fun n t => n ≤ 13 ∧ ∃ x, t = s.truncating ip x ((D i).cleared n) ∧
    Owns (upd s.disk 2 x) D (shapeFrom K i n)) (fun n => 13 - n) ?_ _ _ _
    ⟨Nat.zero_le _, s.disk 2, ?_, ?_⟩ (by simp)
  · rintro n _ ⟨hn, x, rfl, ho⟩
    rw [wp_bind, wp_get, wp_ite]
    dsimp only
    rw [State.truncating_inode, hdev]
    refine ⟨fun hlt => ?_, fun hge => ?_⟩
    · have hlt : n < 13 := hlt
      have haddr : ((D i).cleared n).addrs (Fin.ofNat 14 n) = place s.disk (D i) n := by
        rw [place_direct hlt, Dinode.cleared_addrs, if_neg]
        simp only [Fin.val_ofNat]
        omega
      rw [wp_ite, haddr]
      refine ⟨fun hne => ?_, fun h0 => ?_⟩
      · refine Wp.bind (bfree_truncating hsb h ho hi (by omega) hne) ?_
        rintro _ _ ⟨y, rfl, ho'⟩
        rw [wp_bind, wp_setAddr, State.truncating_withDinode, State.truncating_inode,
          Dinode.cleared_succ _ (by omega)]
        exact ⟨⟨hlt, y, rfl, ho'⟩, by omega⟩
      · have h0 : place s.disk (D i) n = 0 := not_not.mp h0
        refine ⟨⟨hlt, x, ?_, Owns.trunc_skip h ho h0⟩, by omega⟩
        rw [Dinode.cleared_skip (D i) (by omega) (by rwa [← place_direct hlt s.disk])]
    · have : n = 13 := by simp at hge; omega
      subst this
      exact ⟨x, rfl, ho⟩
  · simp [State.truncating, State.withDinode, State.withInode, Dinode.cleared_zero, ← hd]
  · rw [upd_eta]
    exact h.toOwns.of_iff fun j m => by simp [shapeFrom]

theorem itruncEntries_spec {x : Bytes} {d : Dinode} (hsb : s.sb = stdSb) (h : Files s.disk D (shape K))
    (ho : Owns (upd s.disk 2 x) D (shapeFrom K i 13)) (hi : i < 96) (hne : (D i).addrs indirect ≠ 0) :
    Wp (itruncEntries 0 (s.disk ((D i).addrs indirect))) (fun _ t => ∃ y, t = s.truncating ip y d ∧
      Owns (upd s.disk 2 y) D (shapeFrom K i 525)) (fun _ => False) (s.truncating ip x d) := by
  refine wp_loop (fun n t => n ≤ 512 ∧ ∃ y, t = s.truncating ip y d ∧
    Owns (upd s.disk 2 y) D (shapeFrom K i (13 + n))) (fun n => 512 - n) ?_ _ _ _
    ⟨Nat.zero_le _, x, rfl, ho⟩ (by simp)
  rintro n _ ⟨hn, y, rfl, ho⟩
  rw [wp_ite]
  refine ⟨fun hlt => ?_, fun hge => ?_⟩
  · have hlt : n < 512 := hlt
    have hentry : getAddr (s.disk ((D i).addrs indirect)) n = place s.disk (D i) (13 + n) := by
      rw [place_entry (by omega) (by omega) hne, Nat.add_sub_cancel_left]
    rw [wp_ite, hentry]
    refine ⟨fun hne' => ?_, fun h0 => ?_⟩
    · refine Wp.bind (bfree_truncating hsb h ho hi (by omega) hne') ?_
      rintro _ _ ⟨z, rfl, ho'⟩
      exact ⟨⟨hlt, z, rfl, ho'⟩, by omega⟩
    · exact ⟨⟨hlt, y, rfl, Owns.trunc_skip h ho (not_not.mp h0)⟩, by omega⟩
  · have : n = 512 := by simp at hge; omega
    subst this
    exact ⟨y, rfl, ho⟩

theorem itrunc_spec (hsb : s.sb = stdSb) (h : Files s.disk D (shape K)) (hdev : (s.inodes ip).dev = 0)
    (hd : (s.inodes ip).toDinode = D i) (hinum : (s.inodes ip).inum = i) (hi : i < 96) :
    Wp (itrunc ip) (fun _ s' => ∃ x, s' =
        { s with disk := stored (upd s.disk 2 x) i (D i).truncated }.withDinode ip (D i).truncated ∧
        Files (upd s.disk 2 x) (upd D i (D i).truncated) (shape (upd K i 0)))
      (fun _ => False) s := by
  -- whichever way the places behind the direct ones were freed
  have hend : ∀ y, Owns (upd s.disk 2 y) D (shapeFrom K i 526) →
      Wp (do modifyInode ip fun i => { i with size := 0 }
             iupdate ip) (fun _ s' => ∃ x, s' =
          { s with disk := stored (upd s.disk 2 x) i (D i).truncated }.withDinode ip (D i).truncated ∧
          Files (upd s.disk 2 x) (upd D i (D i).truncated) (shape (upd K i 0)))
        (fun _ => False) (s.truncating ip y { D i with addrs := fun _ => 0 }) := by
    intro y ho
    rw [wp_bind, wp_modifyInode, wp_iupdate]
    · refine ⟨y, ?_, h.truncated ho⟩
      simp [State.truncating, State.withDinode, State.withInode, hinum, Dinode.truncated]
    · exact hsb
    · simpa [State.truncating, State.withDinode, State.withInode] using hdev
    · simp [State.truncating, State.withDinode, State.withInode, hinum, hi]
  have hind : ((D i).cleared 13).addrs indirect = (D i).addrs indirect := rfl
  unfold itrunc
  refine Wp.bind (itruncDirect_spec hsb h hdev hd hi) ?_
  rintro _ _ ⟨x, rfl, ho⟩
  rw [wp_bind, wp_get]
  dsimp only
  rw [State.truncating_inode, hdev, hind, wp_ite]
  refine ⟨fun hne => ?_, fun h0 => ?_⟩
  · have hrange := h.addr_range (h.tight hi (by omega) (by rwa [place_indirect]))
    have hblk : (s.truncating ip x ((D i).cleared 13)).disk ((D i).addrs indirect) =
        s.disk ((D i).addrs indirect) := upd_of_ne (by omega) _ _
    rw [wp_bind, wp_bread hrange.2, hblk]
    refine Wp.bind (itruncEntries_spec hsb h ho hi hne) ?_
    rintro _ _ ⟨y, rfl, ho⟩
    rw [← place_indirect s.disk] at hne ⊢
    refine Wp.bind (bfree_truncating hsb h ho hi (by omega) hne) ?_
    rintro _ _ ⟨z, rfl, ho'⟩
    rw [wp_bind, wp_setAddr, State.truncating_withDinode, State.truncating_inode, Dinode.cleared_all]
    exact hend z ho'
  · have h0 : (D i).addrs indirect = 0 := not_not.mp h0
    have hall : (D i).cleared 13 = { D i with addrs := fun _ => 0 } := by
      rw [← Dinode.cleared_all, Dinode.withAddr, ← h0, ← hind, upd_eta]
    rw [hall]
    refine hend x (ho.of_iff fun j m => ⟨fun hs => ⟨hs.1, ?_⟩, fun hs => ⟨hs.1, fun he => hs.2 ⟨he.1, by omega⟩⟩⟩)
    rintro ⟨rfl, hm⟩
    -- without an indirect block there is no place behind the direct ones
    have hge : 13 ≤ m := Nat.not_lt.mp fun hlt => hs.2 ⟨rfl, hlt⟩
    have := h.addr_range (h.closed hs.1 hge)
    omega

end Xv6.Fs
