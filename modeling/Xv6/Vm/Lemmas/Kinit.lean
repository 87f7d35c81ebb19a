import Xv6.Vm.Lemmas.Walk

/-!
# The first free list

`kinit` frees the frames of the memory map one after another; where no two entries of the map overlap, the free list has
each of them once.
-/

namespace Xv6.Vm

open Xv6.Lib

variable {m m' : Mem} {l : List Nat} {x : Nat}

/-- A memory without spaces. -/
theorem FreeList.frames {τ : Type} (h : FreeList m l) (L : Extent) :
    Frames (τ := τ) L (fun x => if x ∈ l then .free else .kernel) m where
  chain := by
    refine ⟨l, h.chain, h.nodup, fun x => ?_⟩
    split <;> rename_i hx
    · exact iff_of_true hx rfl
    · exact iff_of_false hx nofun
  tree hf := by
    split at hf <;> cases hf
  live hx := by
    split at hx <;> cases hx
  small _ f _ _ hf := by
    split at hf <;> cases hf
  range {x} hx _ := by
    split at hx <;> rename_i hl
    · exact h.range x hl
    · exact absurd rfl hx

theorem FreeList.push (h : FreeList m l) (hx : x ∉ l)
    (hr : m.bumpEnd ≤ pgsize4kb * x ∧ pgsize4kb * x < phyStop ∧ 0 < x) :
    FreeList (m.freed x) (x :: l) := by
  refine ⟨⟨rfl, ?_⟩, List.nodup_cons.mpr ⟨hx, h.nodup⟩, fun y hy => ?_⟩
  · have hw : ofWord ((upd m.pages x (Bytes.putLe (fun _ => 1) 0 8 (word m.freeList)) x).le 0 8) = m.freeList := by
      rw [upd_self, le_putLe]
      refine ofWord_word fun z hz => (h.range z ?_).2.1
      have hc := h.chain
      cases l with
      | nil => exact absurd (hc.symm.trans hz) nofun
      | cons a l =>
          obtain rfl := Option.some.inj (hc.1.symm.trans hz)
          exact List.mem_cons_self
    change Chain (upd m.pages x _) (ofWord ((upd m.pages x _ x).le 0 8)) l
    rw [hw]
    exact h.chain.congr fun z hz => upd_of_ne (fun h0 : z = x => hx (h0 ▸ hz)) _ _
  · rcases List.mem_cons.mp hy with rfl | hy
    · exact hr
    · exact h.range y hy

/-- The frame is one that `kfree` takes. -/
def Freeable (m : Mem) (x : Nat) : Prop := m.bumpEnd ≤ pgsize4kb * x ∧ pgsize4kb * x < phyStop

theorem kfree_freeList (h : FreeList m l) (hx : x ∉ l) (hb : 0 < m.bumpEnd) :
    Wp (kfree x) (fun _ m' => FreeList m' (x :: l) ∧ m'.bumpEnd = m.bumpEnd ∧ m'.kpml4 = m.kpml4 ∧
      ∀ y, y ≠ x → m'.pages y = m.pages y) (fun _ => ¬ Freeable m x) m := by
  unfold kfree
  rw [wp_bind, wp_get, wp_bind, wp_panicIf]
  refine ⟨fun hr h0 => hr.elim (Nat.not_lt.mpr h0.1) (Nat.not_le.mpr h0.2), fun hr => ?_⟩
  rw [wp_bind, wp_setPage, wp_modify]
  obtain ⟨h1, h2⟩ := not_or.mp hr
  refine ⟨h.push hx ⟨Nat.not_lt.mp h1, Nat.not_le.mp h2, Nat.pos_of_ne_zero fun h0 => h1 ?_⟩, rfl, rfl,
    fun y hy => upd_of_ne hy _ _⟩
  rw [h0]
  exact hb

/-- The frames of a list are freed. -/
theorem each_kfree {fs : List Nat} (h : FreeList m l) (hd : (fs.reverse ++ l).Nodup) (hb : 0 < m.bumpEnd) :
    Wp (each fs kfree) (fun _ m' => FreeList m' (fs.reverse ++ l) ∧ m'.bumpEnd = m.bumpEnd ∧ m'.kpml4 = m.kpml4 ∧
      ∀ y, y ∉ fs → m'.pages y = m.pages y) (fun _ => ∃ x ∈ fs, ¬ Freeable m x) m := by
  induction fs generalizing m l with
  | nil => exact ⟨h, rfl, rfl, fun _ _ => rfl⟩
  | cons x fs ih =>
      rw [List.reverse_cons, List.append_assoc, List.singleton_append] at hd ⊢
      have hx : x ∉ l := (List.nodup_cons.mp hd.of_append_right).1
      unfold each
      refine Wp.seq (kfree_freeList h hx hb) (fun _ h0 => ⟨x, List.mem_cons_self, h0⟩) ?_
      rintro _ m₁ ⟨h1, hb1, hk1, hp1⟩
      refine (ih h1 hd (by rwa [hb1])).mono ?_ ?_
      · rintro _ m₂ ⟨h2, hb2, hk2, hp2⟩
        refine ⟨h2, hb2.trans hb1, hk2.trans hk1, fun y hy => ?_⟩
        rw [hp2 y fun h0 => hy (List.mem_cons_of_mem x h0), hp1 y fun h0 => hy (h0 ▸ List.mem_cons_self)]
      · rintro _ ⟨y, hy, hbad⟩
        rw [Freeable, hb1] at hbad
        exact ⟨y, List.mem_cons_of_mem x hy, hbad⟩

/-- The frames that `kinit` frees for an entry of the memory map. -/
def MmapEntry.frames (e : MmapEntry) (bumpEnd : Nat) : List Nat :=
  if e.avail then
    (List.range ((e.baseAddr + e.length) / pgsize4kb)).filter fun f => max e.baseAddr bumpEnd ≤ pgsize4kb * f
  else []

theorem each_kinit {mmap : List MmapEntry} (h : FreeList m l) (hb : 0 < m.bumpEnd)
    (hd : ((mmap.flatMap fun e => e.frames m.bumpEnd).reverse ++ l).Nodup) :
    Wp (each mmap fun e => if e.avail then do
        let m ← get
        freeRange (max e.baseAddr m.bumpEnd) (e.baseAddr + e.length)
      else pure ()) (fun _ m' => FreeList m' ((mmap.flatMap fun e => e.frames m.bumpEnd).reverse ++ l) ∧
        m'.bumpEnd = m.bumpEnd ∧ m'.kpml4 = m.kpml4 ∧ ∀ y, (∀ e ∈ mmap, y ∉ e.frames m.bumpEnd) →
          m'.pages y = m.pages y)
      (fun _ => ∃ e ∈ mmap, ∃ x ∈ e.frames m.bumpEnd, ¬ Freeable m x) m := by
  induction mmap generalizing m l with
  | nil => exact ⟨h, rfl, rfl, fun _ _ => rfl⟩
  | cons e mmap ih =>
      rw [List.flatMap_cons, List.reverse_append, List.append_assoc] at hd ⊢
      have hfirst : Wp (if e.avail then do
          let m ← get
          freeRange (max e.baseAddr m.bumpEnd) (e.baseAddr + e.length)
        else pure ()) (fun _ m' => FreeList m' ((e.frames m.bumpEnd).reverse ++ l) ∧ m'.bumpEnd = m.bumpEnd ∧
          m'.kpml4 = m.kpml4 ∧ ∀ y, y ∉ e.frames m.bumpEnd → m'.pages y = m.pages y)
          (fun _ => ∃ x ∈ e.frames m.bumpEnd, ¬ Freeable m x) m := by
        rw [wp_ite]
        refine ⟨fun ha => ?_, fun ha => ?_⟩
        · rw [wp_bind, wp_get]
          have hfr : e.frames m.bumpEnd = (List.range ((e.baseAddr + e.length) / pgsize4kb)).filter fun f =>
              max e.baseAddr m.bumpEnd ≤ pgsize4kb * f := if_pos ha
          have hd' := hd.of_append_right
          rw [hfr] at hd' ⊢
          exact each_kfree h hd' hb
        · have hfr : e.frames m.bumpEnd = [] := if_neg ha
          rw [hfr]
          exact ⟨h, rfl, rfl, fun _ _ => rfl⟩
      unfold each
      refine Wp.seq hfirst (fun _ h0 => ⟨e, List.mem_cons_self, h0⟩) ?_
      rintro _ m₁ ⟨h1, hb1, hk1, hp1⟩
      rw [← hb1] at hd h1 ⊢
      refine (ih h1 (by rwa [hb1]) hd).mono ?_ ?_
      · rintro _ m₂ ⟨h2, hb2, hk2, hp2⟩
        refine ⟨h2, hb2, hk2.trans hk1, fun y hy => ?_⟩
        rw [hp2 y fun e' he' => hy e' (List.mem_cons_of_mem e he'), hp1 y (hb1 ▸ hy e List.mem_cons_self)]
      · rintro _ ⟨e', he', x, hx, hbad⟩
        rw [Freeable, hb1] at hbad
        exact ⟨e', List.mem_cons_of_mem e he', x, hx, hbad⟩

theorem kinit_spec {mmap : List MmapEntry} (hb : 0 < m.bumpEnd)
    (hd : (mmap.flatMap fun e => e.frames m.bumpEnd).Nodup) :
    Wp (kinit mmap) (fun _ m' => FreeList m' (mmap.flatMap fun e => e.frames m.bumpEnd).reverse ∧
      m'.bumpEnd = m.bumpEnd ∧ m'.kpml4 = m.kpml4 ∧ ∀ y, (∀ e ∈ mmap, y ∉ e.frames m.bumpEnd) → m'.pages y = m.pages y)
      (fun _ => ∃ e ∈ mmap, ∃ x ∈ e.frames m.bumpEnd, ¬ Freeable m x) m := by
  unfold kinit
  rw [wp_bind, wp_modify]
  have h0 : FreeList { m with freeList := none } [] := ⟨rfl, List.nodup_nil, fun _ h => absurd h List.not_mem_nil⟩
  have hd' : ((mmap.flatMap fun e : MmapEntry => e.frames m.bumpEnd).reverse ++ []).Nodup := by
    rw [List.append_nil]
    exact List.nodup_reverse.mpr hd
  have h1 := each_kinit h0 hb hd'
  rw [List.append_nil] at h1
  exact h1

end Xv6.Vm
