import Xv6.Lib.Refs
import Xv6.Fs.Lemmas.Dir
import Xv6.Fs.Tree

/-!
# References held by a call

A call takes references and drops them again. `Held c c' e` compares the cells at some point of a call
with those at its start: `e` counts the references that the call holds beyond the earlier ones.
-/

namespace Xv6.Fs

open Xv6.Lib

structure Held (c c' : Slot → Cell) (e : Slot → Nat) : Prop where
  ref : ∀ jp, (c' jp).ref = (c jp).ref + e jp
  inum : ∀ jp, 0 < (c jp).ref → (c' jp).inum = (c jp).inum
  valid : ∀ jp, 0 < (c jp).ref → (c jp).valid = true → (c' jp).valid = true

section

variable {c c' c'' : Slot → Cell} {e e' : Slot → Nat} {ip jp : Slot} {v v' : View} {i : Nat}

theorem Held.refl (c : Slot → Cell) : Held c c 0 := ⟨fun _ => rfl, fun _ _ => rfl, fun _ _ h => h⟩

theorem Held.trans (h : Held c c' e) (h' : Held c' c'' e') : Held c c'' (e + e') where
  ref jp := by
    rw [h'.ref, h.ref, Pi.add_apply]
    omega
  inum jp hj := by rw [h'.inum jp (by rw [h.ref]; omega), h.inum jp hj]
  valid jp hj hv := h'.valid jp (by rw [h.ref]; omega) (h.valid jp hj hv)

/-- A lock is taken or given up. -/
theorem Held.touch (c : Slot → Cell) (ip : Slot) (l : Bool) (x : Bool) (hx : (c ip).valid = true → x = true) :
    Held c (upd c ip { c ip with locked := l, valid := x }) 0 := by
  refine ⟨fun jp => ?_, fun jp _ => ?_, fun jp _ hv => ?_⟩ <;> rw [upd_apply] <;> split
  · rw [‹jp = ip›]
    rfl
  · rfl
  · rw [‹jp = ip›]
  · rfl
  · rw [‹jp = ip›] at hv
    exact hx hv
  · exact hv

theorem Held.lock (v : View) (ip : Slot) : Held v.cell (v.lock ip).cell 0 := Held.touch v.cell ip true true fun _ => rfl

theorem Held.unlock (v : View) (ip : Slot) : Held v.cell (v.unlock ip).cell 0 :=
  Held.touch v.cell ip false (v.cell ip).valid id

theorem Held.hold (v : View) (ip : Slot) : Held v.cell (v.hold ip).cell (one ip) := by
  refine ⟨fun jp => ?_, fun jp _ => ?_, fun jp _ hv => ?_⟩ <;>
    rw [View.hold, View.setCell_cell, upd_apply] <;> split
  · rw [‹jp = ip›, one_self]
  · rw [one, if_neg ‹_›]
    rfl
  · rw [‹jp = ip›]
  · rfl
  · rwa [‹jp = ip›] at hv
  · exact hv

theorem Held.gets (h : v.Gets i ip v') : Held v.cell v'.cell (one ip) ∧ (v'.cell ip).inum = i := by
  rcases h with ⟨_, hi, rfl⟩ | ⟨_, h0, rfl⟩
  · refine ⟨Held.hold v ip, ?_⟩
    rwa [View.hold, View.setCell_cell, upd_self]
  · refine ⟨⟨fun jp => ?_, fun jp hj => ?_, fun jp hj hv => ?_⟩, ?_⟩
    · rw [View.setCell_cell, upd_apply, one]
      split
      · rw [‹jp = ip›, h0]
      · rfl
    · rw [View.setCell_cell, upd_of_ne]
      rintro rfl
      omega
    · rw [View.setCell_cell, upd_of_ne]
      · exact hv
      · rintro rfl
        omega
    · rw [View.setCell_cell, upd_self]

/-- A reference of the call is dropped. -/
theorem Held.drop (h : Held c v.cell (e + one ip)) : Held c (v.drop ip).cell e := by
  have hr := h.ref ip
  rw [Pi.add_apply, one_self] at hr
  have hother : ∀ jp, jp ≠ ip → (v.cell jp).ref = (c jp).ref + e jp := by
    intro jp hj
    rw [h.ref jp, Pi.add_apply, one, if_neg hj, Nat.add_zero]
  unfold View.drop
  split
  · -- the cell is free now, and was free at the start
    rename_i hf
    have h1 : (v.cell ip).ref = 1 := hf.2.2
    refine ⟨fun jp => ?_, fun jp hj => ?_, fun jp hj hv => ?_⟩ <;>
      rw [View.setCell_cell, View.setNode_cell, upd_apply] <;> split
    · rw [‹jp = ip›]
      dsimp only
      omega
    · exact hother jp ‹_›
    · rw [‹jp = ip›] at hj
      omega
    · exact h.inum jp hj
    · rw [‹jp = ip›] at hj
      omega
    · exact h.valid jp hj hv
  · refine ⟨fun jp => ?_, fun jp hj => ?_, fun jp hj hv => ?_⟩ <;> rw [View.setCell_cell, upd_apply] <;> split
    · rw [‹jp = ip›]
      dsimp only
      omega
    · exact hother jp ‹_›
    · rw [‹jp = ip›] at hj ⊢
      exact h.inum ip hj
    · exact h.inum jp hj
    · rw [‹jp = ip›] at hj hv
      exact h.valid ip hj hv
    · exact h.valid jp hj hv

end

/-! ## Nodes without links -/

/-- A node without links is held by a cell that will free it. -/
def NoLost (N : Nat → Node) (c : Slot → Cell) : Prop :=
  ∀ i, (N i).type ≠ 0 → (N i).nlink = 0 → ∃ jp, 0 < (c jp).ref ∧ (c jp).inum = i ∧ (c jp).valid = true

/-- A reference that a call took is never the last one to a node without links. -/
theorem State.WF.not_frees {s : State} {c : Slot → Cell} {e : Slot → Nat} {ip : Slot} (h : s.WF)
    (hl : NoLost s.node c) (hh : Held c s.cell e) (hpos : 0 < e ip) : ¬ s.view.Frees ip := by
  rintro ⟨hv, hn, hone⟩
  have href : 0 < (s.cell ip).ref := by
    change (s.cell ip).ref = 1 at hone
    omega
  obtain ⟨jp, hjr, hji, _⟩ := hl _ (h.typed href hv) hn
  have hjp : jp = ip := by
    refine h.cache.unique jp ip ?_ href ?_
    · have := hh.ref jp
      change 0 < (s.cell jp).ref
      omega
    · exact (hh.inum jp hjr).trans hji
  have := hh.ref ip
  rw [hjp] at hjr
  change (s.cell ip).ref = 1 at hone
  omega

/-! ## Locks -/

/-- The locks of the cells. -/
def View.locks (v : View) : Slot → Bool := fun jp => (v.cell jp).locked

section

variable {v v' : View} {ip : Slot} {i : Nat}

theorem View.locks_setCell (v : View) (ip : Slot) (c : Cell) : (v.setCell ip c).locks = upd v.locks ip c.locked :=
  funext fun jp => map_upd Cell.locked v.cell ip c jp

@[simp] theorem View.locks_lock (v : View) (ip : Slot) : (v.lock ip).locks = upd v.locks ip true :=
  v.locks_setCell ip _

@[simp] theorem View.locks_unlock (v : View) (ip : Slot) : (v.unlock ip).locks = upd v.locks ip false :=
  v.locks_setCell ip _

@[simp] theorem View.locks_hold (v : View) (ip : Slot) : (v.hold ip).locks = v.locks :=
  (v.locks_setCell ip _).trans (upd_eta v.locks ip)

@[simp] theorem View.locks_setNode (v : View) (i : Nat) (n : Node) : (v.setNode i n).locks = v.locks := rfl

@[simp] theorem View.locks_drop (v : View) (ip : Slot) : (v.drop ip).locks = upd v.locks ip false := by
  unfold View.drop
  split <;> exact View.locks_setCell _ ip _

/-- `iget` changes no lock. -/
theorem View.Gets.locks (h : v.Gets i ip v') (hf : ∀ jp, (v.cell jp).ref = 0 → (v.cell jp).locked = false) :
    v'.locks = v.locks := by
  rcases h with ⟨_, _, rfl⟩ | ⟨_, h0, rfl⟩
  · exact v.locks_hold ip
  · rw [View.locks_setCell, ← hf ip h0]
    exact upd_eta v.locks ip

theorem View.Gets.node (h : v.Gets i ip v') : v'.node = v.node := by
  rcases h with ⟨_, _, rfl⟩ | ⟨_, _, rfl⟩ <;> rfl

theorem View.Gets.console (h : v.Gets i ip v') : v'.console = v.console := by
  rcases h with ⟨_, _, rfl⟩ | ⟨_, _, rfl⟩ <;> rfl

end

end Xv6.Fs
