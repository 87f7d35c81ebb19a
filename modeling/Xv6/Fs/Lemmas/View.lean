import Xv6.Fs.View

/-!
# Well-formed disks

How the inode table and the nodes change with the disk. Every change goes through the blocks behind
the inode table, through the bitmap, or through `stored`.
-/

namespace Xv6.Fs

open Xv6.Lib

variable {disk disk' : Nat → Bytes} {D : Nat → Dinode} {K : Nat → Nat} {S : Nat → Nat → Prop} {i j : Nat}
    {d d' : Dinode}

/-! ## The inode table -/

theorem dinodeOf_lt (hi : i < 96) : dinodeOf stdSb disk i = getDinode (disk (i / 32 + 3)) (i % 32) := if_pos hi

theorem dinodeOf_ge (hi : 96 ≤ i) : dinodeOf stdSb disk i = Dinode.zero := if_neg (Nat.not_lt.mpr hi)

theorem dinodeOf_congr (h : ∀ c < 6, c ≠ 2 → disk' c = disk c) : dinodeOf stdSb disk' = dinodeOf stdSb disk := by
  funext i
  by_cases hi : i < 96
  · rw [dinodeOf_lt hi, dinodeOf_lt hi, h _ (by omega) (by omega)]
  · rw [dinodeOf_ge (by omega), dinodeOf_ge (by omega)]

theorem Dinode.zero_fits : Dinode.zero.Fits := by
  refine ⟨?_, ?_, ?_, ?_, by decide, fun _ => by change 0 < _; decide⟩ <;> (unfold IsShort Dinode.zero; decide)

theorem dinodeOf_fits (disk : Nat → Bytes) (i : Nat) : (dinodeOf stdSb disk i).Fits := by
  unfold dinodeOf
  split
  · exact getDinode_fits _ _
  · exact Dinode.zero_fits

theorem dinodeOf_stored (hi : i < 96) (hd : d.Fits) :
    dinodeOf stdSb (stored disk i d) = upd (dinodeOf stdSb disk) i d := by
  funext j
  by_cases hj : j < 96
  · rw [dinodeOf_lt hj, stored, upd_apply, upd_apply]
    by_cases hblk : j / 32 + 3 = i / 32 + 3
    · rw [if_pos hblk]
      by_cases hji : j = i
      · subst hji
        rw [if_pos rfl, getDinode_putDinode_self hd]
      · rw [if_neg hji, getDinode_putDinode_of_ne (by omega), dinodeOf_lt hj, hblk]
    · rw [if_neg hblk, if_neg (by rintro rfl; exact hblk rfl), dinodeOf_lt hj]
  · rw [dinodeOf_ge (by omega), upd_of_ne (by omega), dinodeOf_ge (by omega)]

theorem stored_of_ge {c : Nat} (hi : i < 96) (hc : 6 ≤ c ∨ c < 3) : stored disk i d c = disk c :=
  upd_of_ne (by omega) _ _

/-! ## Blocks behind the inode table -/

theorem Files.place_tail (h : Files disk D S) (ht : ∀ c, 6 ≤ c → disk' c = disk c) (hj : j < 96) (m : Nat) :
    place disk' (D j) m = place disk (D j) m := by
  refine place_congr rfl fun _ _ ha => ht _ ?_
  have := h.addr_range (h.tight hj (by omega) (by simpa using ha))
  omega

/-- Files do not live in the blocks in front of the data, the bitmap apart. -/
theorem Files.tail (h : Files disk D S) (h2 : disk' 2 = disk 2) (ht : ∀ c, 6 ≤ c → disk' c = disk c) :
    Files disk' D S := by
  refine ⟨h.congr (fun j m hj => h.place_tail ht (h.dom hj).1 m) fun c _ => by rw [h2], fun hj hm hne => ?_⟩
  rw [h.place_tail ht hj] at hne
  exact h.tight hj hm hne

theorem Files.byteAt_tail (h : Files disk D (shape K)) (ht : ∀ c, 6 ≤ c → disk' c = disk c) (hj : j < 96)
    {o : Nat} (ho : o / 4096 < K j) : byteAt disk' (D j) o = byteAt disk (D j) o := by
  have hr := h.range (show shape K j (o / 4096) from ⟨hj, Or.inl ho⟩)
  rw [byteAt, byteAt, h.place_tail ht hj, ht _ hr.1]

/-- What is said about the new disk does not depend on the inode table. -/
theorem Mapped.tail {disk'' : Nat → Bytes} {bn b : Nat} (h : Mapped disk D K i bn disk' d b) (hi : i < 96)
    (h2 : disk'' 2 = disk' 2) (ht : ∀ c, 6 ≤ c → disk'' c = disk' c) : Mapped disk D K i bn disk'' d b := by
  refine ⟨h.files.tail h2 ht, h.sameMeta, h.same, ?_, fun o ho => ?_, fun j hj hne o ho => ?_, ?_⟩
  · have := h.files.place_tail ht hi bn
    rw [upd_self] at this
    rw [this, h.place]
  · have := h.files.byteAt_tail ht hi (o := o) (by rw [upd_self]; exact ho)
    rw [upd_self] at this
    rw [this, h.bytes o ho]
  · have := h.files.byteAt_tail ht hj (o := o) (by rw [upd_of_ne hne]; exact ho)
    rw [upd_of_ne hne] at this
    rw [this, h.other j hj hne o ho]
  · rw [freeBlocks_congr h2]
    exact h.free

/-! ## Nodes -/

theorem nodeOf_congr (hm : d' = { d with addrs := d'.addrs })
    (h : ∀ o < d.size, byteAt disk' d' o = byteAt disk d o) : nodeOf disk' d' = nodeOf disk d := by
  have hslice : (byteAt disk' d').slice 0 d.size = (byteAt disk d).slice 0 d.size :=
    Bytes.slice_congr fun k hk => by rw [Nat.zero_add]; exact h k hk
  rw [hm] at hslice ⊢
  simp only [nodeOf, hslice]

@[simp] theorem nodeOf_size (disk : Nat → Bytes) (d : Dinode) : (nodeOf disk d).data.length = d.size :=
  Bytes.length_slice _ _ _

theorem lt_blocksOf {o size : Nat} (h : o < size) : o / 4096 < blocksOf size := by
  unfold blocksOf
  omega

theorem Files.nodeOf_tail (h : Files disk D (shape K)) (ht : ∀ c, 6 ≤ c → disk' c = disk c) (hj : j < 96)
    (hK : blocksOf (D j).size ≤ K j) : nodeOf disk' (D j) = nodeOf disk (D j) :=
  nodeOf_congr rfl fun _ ho => h.byteAt_tail ht hj (lt_of_lt_of_le (lt_blocksOf ho) hK)

/-! ## Storing an inode -/

theorem stored_stored (disk : Nat → Bytes) (i : Nat) (d d' : Dinode) :
    stored (stored disk i d) i d' = stored disk i d' := by
  rw [stored, stored, upd_upd, upd_self, stored, putDinode, putDinode, putDinode,
    Bytes.put_put (by rw [d.length_bytes, d'.length_bytes])]

theorem Files.of_addrs {D' : Nat → Dinode} (h : Files disk D S) (hD : ∀ j, (D' j).addrs = (D j).addrs) :
    Files disk D' S := by
  have hp : ∀ j m, place disk (D' j) m = place disk (D j) m := fun j m => place_congr (hD j) fun _ _ _ => rfl
  refine ⟨h.congr (fun j m _ => hp j m) fun _ _ => rfl, fun hj hm hne => ?_⟩
  rw [hp] at hne
  exact h.tight hj hm hne

/-- An inode without blocks has no addresses. -/
theorem Files.addrs_eq_zero (h : Files disk D (shape K)) (hi : i < 96) (hK : K i = 0) : (D i).addrs = fun _ => 0 := by
  funext k
  rw [← place_placeOf disk]
  by_contra hne
  have := h.tight hi (placeOf_lt k) hne
  simp only [shape] at this
  omega

/-- Storing the inode that the files were laid out for makes a well-formed disk of them. -/
theorem DiskWF.store (disk : Nat → Bytes) (hi : i < 96) (hfit : d.Fits)
    (hf : Files disk (upd (dinodeOf stdSb disk) i d)
      (shape fun j => blocksOf (upd (dinodeOf stdSb disk) i d j).size))
    (hsize : ∀ j, (upd (dinodeOf stdSb disk) i d j).size ≤ 525 * 4096)
    (hfree : ∀ j, (upd (dinodeOf stdSb disk) i d j).type = 0 → (upd (dinodeOf stdSb disk) i d j).size = 0) :
    DiskWF (stored disk i d) ∧ ∀ j, nodeOf (stored disk i d) (dinodeOf stdSb (stored disk i d) j) =
      nodeOf disk (upd (dinodeOf stdSb disk) i d j) := by
  have hD : dinodeOf stdSb (stored disk i d) = _ := dinodeOf_stored hi hfit
  have ht : ∀ c, 6 ≤ c → stored disk i d c = disk c := fun c hc => stored_of_ge hi (Or.inl hc)
  refine ⟨⟨?_, ?_, ?_⟩, fun j => ?_⟩
  · rw [hD]
    exact hf.tail (stored_of_ge hi (by omega)) ht
  · rwa [hD]
  · rwa [hD]
  · rw [hD]
    by_cases hj : j < 96
    · exact hf.nodeOf_tail ht hj (le_refl _)
    · rw [upd_of_ne (by omega), dinodeOf_ge (by omega)]
      rfl

end Xv6.Fs
