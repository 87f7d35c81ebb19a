import Xv6.Bio.Lemmas.Order

/-!
# Coherence of the cache

`Coherent A s l`: the buffers and the disk together hold the blocks `A`. Several buffers may stand for
one block (at the start all of them stand for block 0), but only the first of them in the list is ever
valid.
-/

namespace Xv6.Bio

open Xv6.Lib Xv6.Fs

variable {A : Nat → Bytes} {s s' : Cache} {l : List BufId} {i j : BufId} {b : Buf}

structure Coherent (A : Nat → Bytes) (s : Cache) (l : List BufId) : Prop where
  ordered : Ordered s l
  first : ∀ i, (s.bufs i).valid → First s.blocks l i
  dirty : ∀ i, (s.bufs i).dirty → (s.bufs i).valid
  valid : ∀ i, (s.bufs i).valid →
    (s.bufs i).dev = devRamdisk ∧ (s.bufs i).blockNo < s.diskBlocks ∧ (s.bufs i).data = A (s.bufs i).blockNo
  disk : ∀ b, s.ramdisk b = A b ∨ ∃ i, (s.bufs i).dirty ∧ (s.bufs i).blockNo = b

/-- A buffer without its reference count and its lock. -/
def Buf.bare (b : Buf) : Buf := { b with refCount := 0, locked := false }

theorem coherent_init (ramdisk : Nat → Bytes) (n : Nat) :
    Coherent ramdisk (bcacheInit ramdisk n) (List.finRange nbuf).reverse where
  ordered := ordered_init ramdisk n
  first _ h := by cases h
  dirty _ h := by cases h
  valid _ h := by cases h
  disk _ := .inl rfl

namespace Coherent

/-- Two valid buffers do not stand for one block. -/
theorem valid_unique (h : Coherent A s l) (hi : (s.bufs i).valid) (hj : (s.bufs j).valid)
    (he : s.blocks i = s.blocks j) : i = j := (h.first i hi).unique (h.first j hj) he

/-- Reference counts and locks do not matter. -/
theorem bare (h : Coherent A s l) (hl : s'.links = s.links) (hr : s'.ramdisk = s.ramdisk)
    (hd : s'.diskBlocks = s.diskBlocks) (hb : ∀ i, (s'.bufs i).bare = (s.bufs i).bare) : Coherent A s' l := by
  have hfields : ∀ i, (s'.bufs i).dev = (s.bufs i).dev ∧ (s'.bufs i).blockNo = (s.bufs i).blockNo ∧
      (s'.bufs i).valid = (s.bufs i).valid ∧ (s'.bufs i).dirty = (s.bufs i).dirty ∧
      (s'.bufs i).data = (s.bufs i).data := by
    intro i
    simpa [Buf.bare] using hb i
  constructor
  · exact h.ordered.keep hl
  · intro i hi
    rw [(hfields i).2.2.1] at hi
    exact (h.first i hi).congr fun j => Prod.ext (hfields j).1 (hfields j).2.1
  · intro i hi
    rw [(hfields i).2.2.2.1] at hi
    rw [(hfields i).2.2.1]
    exact h.dirty i hi
  · intro i hi
    obtain ⟨hdev, hbno, hvalid, -, hdata⟩ := hfields i
    rw [hvalid] at hi
    rw [hdev, hbno, hdata, hd]
    exact h.valid i hi
  · intro b
    rw [hr]
    cases h.disk b with
    | inl he => exact .inl he
    | inr hi =>
        obtain ⟨i, hdirty, hbno⟩ := hi
        exact .inr ⟨i, (hfields i).2.2.2.1.trans hdirty, (hfields i).2.1.trans hbno⟩

/-- The reference count or the lock of one buffer changes. -/
theorem setBare (h : Coherent A s l) (i : BufId) {b : Buf} (hb : b.bare = (s.bufs i).bare) :
    Coherent A (s.setBuf i b) l := by
  refine h.bare rfl rfl rfl fun j => ?_
  by_cases hj : j = i
  · subst hj
    rwa [setBuf_self]
  · rw [setBuf_of_ne hj]

/-- A valid buffer moves to the front of the list. -/
theorem toFront (h : Coherent A s l) (hi : (s.bufs i).valid) :
    Coherent A { s with links := (s.links.unlink i).pushFront i } (i :: l.erase i) where
  ordered := h.ordered.toFront i rfl
  first j hj := (h.first i hi).toFront (h.first j hj)
  dirty := h.dirty
  valid := h.valid
  disk := h.disk

/-- A block that a change of a buffer does not concern is on the disk, or in a dirty buffer, as before. -/
theorem disk_other (h : Coherent A s l) {c : Nat} (hi : (s.bufs i).dirty → (s.bufs i).blockNo ≠ c) (b : Buf) :
    s.ramdisk c = A c ∨ ∃ j, ((s.setBuf i b).bufs j).dirty ∧ ((s.setBuf i b).bufs j).blockNo = c := by
  cases h.disk c with
  | inl hr => exact .inl hr
  | inr hj =>
      obtain ⟨j, hdirty, hbno⟩ := hj
      have hji : j ≠ i := by
        rintro rfl
        exact hi hdirty hbno
      refine .inr ⟨j, ?_⟩
      rw [setBuf_of_ne hji]
      exact ⟨hdirty, hbno⟩

/-- A dirty buffer is written to the disk. -/
theorem flush (h : Coherent A s l) (hi : (s.bufs i).dirty) :
    Coherent A { s.setBuf i { s.bufs i with dirty := false } with
      ramdisk := upd s.ramdisk (s.bufs i).blockNo (s.bufs i).data } l := by
  have hvalid := h.dirty i hi
  constructor
  · exact h.ordered.keep rfl
  · have hblocks : (s.setBuf i { s.bufs i with dirty := false }).blocks = s.blocks :=
      blocks_setBuf_same s i _ rfl
    refine forall_upd (P := fun j (b : Buf) => b.valid → First _ l j) (fun _ => ?_) fun j _ hj => ?_
    · exact (h.first i hvalid).congr fun k => congrFun hblocks k
    · exact (h.first j hj).congr fun k => congrFun hblocks k
  · exact forall_upd (P := fun _ (b : Buf) => b.dirty → b.valid) (fun _ => hvalid) fun j _ => h.dirty j
  · exact forall_upd (P := fun _ (b : Buf) => b.valid → b.dev = devRamdisk ∧ b.blockNo < s.diskBlocks ∧
      b.data = A b.blockNo) (fun _ => h.valid i hvalid) fun j _ => h.valid j
  · intro b
    by_cases hb : b = (s.bufs i).blockNo
    · subst hb
      exact .inl ((upd_self _ _ _).trans (h.valid i hvalid).2.2)
    · cases h.disk_other (fun _ => Ne.symm hb) { s.bufs i with dirty := false } with
      | inl hr => exact .inl ((upd_of_ne hb _ _).trans hr)
      | inr hj => exact .inr hj

/-- A clean buffer is given to a block that no buffer stands for. -/
theorem reuse (h : Coherent A s l) (hi : (s.bufs i).dirty = false) (hk : ∀ j, s.blocks j ≠ b.block)
    (hv : b.valid = false) (hd : b.dirty = false) : Coherent A (s.setBuf i b) l := by
  constructor
  · exact h.ordered.keep rfl
  · refine forall_upd (P := fun j (b : Buf) => b.valid → First _ l j) (fun hb => ?_) fun j hj hvalid => ?_
    · rw [hv] at hb
      cases hb
    · rw [blocks_setBuf]
      exact (h.first j hvalid).rekey (fun k _ => hk k) hj
  · refine forall_upd (P := fun _ (b : Buf) => b.dirty → b.valid) (fun hb => ?_) fun j _ => h.dirty j
    rw [hd] at hb
    cases hb
  · refine forall_upd (P := fun _ (b : Buf) => b.valid → b.dev = devRamdisk ∧ b.blockNo < s.diskBlocks ∧
      b.data = A b.blockNo) (fun hb => ?_) fun j _ => h.valid j
    rw [hv] at hb
    cases hb
  · intro c
    exact h.disk_other (by simp [hi]) b

/-- The disk has the contents of a block whose first buffer is not valid. -/
theorem disk_of_invalid (h : Coherent A s l) (hi : (s.bufs i).valid = false) (hf : First s.blocks l i)
    (hdev : (s.bufs i).dev = devRamdisk) : s.ramdisk (s.bufs i).blockNo = A (s.bufs i).blockNo := by
  cases h.disk (s.bufs i).blockNo with
  | inl hr => exact hr
  | inr hj =>
      obtain ⟨j, hdirty, hbno⟩ := hj
      have hvalid := h.dirty j hdirty
      have he : s.blocks j = s.blocks i := Prod.ext ((h.valid j hvalid).1.trans hdev.symm) hbno
      rw [(h.first j hvalid).unique hf he, hi] at hvalid
      cases hvalid

/-- The first buffer of a block is read from the disk. -/
theorem read (h : Coherent A s l) (hi : (s.bufs i).valid = false) (hf : First s.blocks l i)
    (hdev : (s.bufs i).dev = devRamdisk) (hbno : (s.bufs i).blockNo < s.diskBlocks) :
    Coherent A (s.setBuf i { s.bufs i with data := s.ramdisk (s.bufs i).blockNo, valid := true }) l := by
  have hblocks : (s.setBuf i { s.bufs i with data := s.ramdisk (s.bufs i).blockNo, valid := true }).blocks = s.blocks :=
    blocks_setBuf_same s i _ rfl
  constructor
  · exact h.ordered.keep rfl
  · rw [hblocks]
    exact forall_upd (P := fun j (b : Buf) => b.valid → First s.blocks l j) (fun _ => hf) fun j _ => h.first j
  · exact forall_upd (P := fun _ (b : Buf) => b.dirty → b.valid) (fun _ => rfl) fun j _ => h.dirty j
  · exact forall_upd (P := fun _ (b : Buf) => b.valid → b.dev = devRamdisk ∧ b.blockNo < s.diskBlocks ∧
      b.data = A b.blockNo) (fun _ => ⟨hdev, hbno, h.disk_of_invalid hi hf hdev⟩) fun j _ => h.valid j
  · intro c
    refine h.disk_other (fun hdirty => ?_) _
    rw [h.dirty i hdirty] at hi
    cases hi

/-- A valid buffer gets new contents and is dirty from then on. -/
theorem write (h : Coherent A s l) (hi : (s.bufs i).valid) (data : Bytes) :
    Coherent (upd A (s.bufs i).blockNo data) (s.setBuf i { s.bufs i with data := data, dirty := true }) l := by
  have hblocks : (s.setBuf i { s.bufs i with data := data, dirty := true }).blocks = s.blocks :=
    blocks_setBuf_same s i _ rfl
  constructor
  · exact h.ordered.keep rfl
  · rw [hblocks]
    exact forall_upd (P := fun j (b : Buf) => b.valid → First s.blocks l j) (fun _ => h.first i hi) fun j _ => h.first j
  · exact forall_upd (P := fun _ (b : Buf) => b.dirty → b.valid) (fun _ => hi) fun j _ => h.dirty j
  · refine forall_upd (P := fun _ (b : Buf) => b.valid → b.dev = devRamdisk ∧ b.blockNo < s.diskBlocks ∧
      b.data = upd A (s.bufs i).blockNo data b.blockNo) (fun _ => ?_) fun j hj hvalid => ?_
    · obtain ⟨hdev, hbno, -⟩ := h.valid i hi
      exact ⟨hdev, hbno, (upd_self _ _ _).symm⟩
    · obtain ⟨hdev, hbno, hdata⟩ := h.valid j hvalid
      have hne : (s.bufs j).blockNo ≠ (s.bufs i).blockNo := fun he =>
        hj (h.valid_unique hvalid hi (Prod.ext (hdev.trans (h.valid i hi).1.symm) he))
      exact ⟨hdev, hbno, hdata.trans (upd_of_ne hne _ _).symm⟩
  · intro c
    by_cases hc : c = (s.bufs i).blockNo
    · exact .inr ⟨i, congrArg Buf.dirty (upd_self _ _ _), (congrArg Buf.blockNo (upd_self _ _ _)).trans hc.symm⟩
    · rw [upd_of_ne hc]
      exact h.disk_other (fun _ => Ne.symm hc) _

end Coherent

end Xv6.Bio
