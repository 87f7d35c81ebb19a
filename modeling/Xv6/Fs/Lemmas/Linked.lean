import Xv6.Fs.Lemmas.Tree

/-!
# What is reachable from the root

The part of the tree that path names starting at the root can reach. `.` and `..` lead nowhere else.
-/

namespace Xv6.Fs

open Xv6.Lib

/-- The nodes that the root leads to along directory entries. -/
inductive Reached (N : Nat → Node) : Nat → Prop
  | root : Reached N 1
  | entry {d k i : Nat} (h : Reached N d) (he : Entry N d k i) : Reached N i

/-- When the root leads to no other directory, it leads to the nodes of its own entries. -/
theorem Reached.in_root {N : Nat → Node} {i : Nat} (h : Reached N i)
    (hflat : ∀ k < entryCount (N 1).data, (entryAt (N 1).data k).inum = 1 ∨
      (N (entryAt (N 1).data k).inum).type ≠ tDir) :
    i = 1 ∨ ∃ k < entryCount (N 1).data, (entryAt (N 1).data k).inum = i := by
  induction h with
  | root => exact Or.inl rfl
  | entry _ he ih =>
      refine Or.inr ?_
      rcases ih with rfl | ⟨j, hj, rfl⟩
      · exact ⟨_, he.lt, he.inum⟩
      · rcases hflat j hj with h1 | hfile
        · rw [h1] at he
          exact ⟨_, he.lt, he.inum⟩
        · exact absurd he.dir hfile

/-- The nodes that the root leads to without `.` and `..`. -/
inductive Linked (N : Nat → Node) : Nat → Prop
  | root : Linked N 1
  | entry {d k i : Nat} (h : Linked N d) (hk : 2 ≤ k) (he : Entry N d k i) : Linked N i

section

variable {N N' : Nat → Node} {d k i j : Nat}

theorem Tree.self (ht : Tree N) (he : Entry N d 0 i) : i = d := he.inum.symm.trans (ht.dot d he.dir).1

theorem Linked.parent (ht : Tree N) (h : Linked N d) (hd : (N d).type = tDir) : Linked N (parentOf N d) := by
  cases h with
  | root =>
      rw [ht.rootParent]
      exact .root
  | entry h hk he =>
      rw [ht.parent hk he hd]
      exact h

theorem Tree.reached_iff (ht : Tree N) : Reached N i ↔ Linked N i := by
  constructor
  · intro h
    induction h with
    | root => exact .root
    | @entry d k i _ he ih =>
        have hk : k = 0 ∨ k = 1 ∨ 2 ≤ k := by omega
        rcases hk with rfl | rfl | hk
        · rw [ht.self he]
          exact ih
        · rw [← he.inum]
          exact ih.parent ht he.dir
        · exact .entry ih hk he
  · intro h
    induction h with
    | root => exact .root
    | entry _ _ he ih => exact .entry ih he

theorem Linked.named (h : Linked N i) (hi : i ≠ 1) : Named N i := by
  cases h with
  | root => exact absurd rfl hi
  | entry _ hk he => exact ⟨_, _, hk, he⟩

theorem Linked.type_ne (ht : Tree N) (h : Linked N i) : (N i).type ≠ 0 := by
  cases h with
  | root =>
      rw [ht.root]
      decide
  | entry _ hk he => exact (ht.target hk he).1

/-- A linked node other than the root is named once. -/
theorem Linked.unique (ht : Tree N) (h : Linked N i) (hi : i ≠ 1) : ∃! e : Nat × Nat, 2 ≤ e.2 ∧ Entry N e.1 e.2 i := by
  obtain ⟨d, k, hk, he⟩ := h.named hi
  refine ⟨(d, k), ⟨hk, he⟩, fun e he' => ?_⟩
  obtain ⟨h1, h2⟩ := ht.unique he'.1 hk he'.2 he
  exact Prod.ext h1 h2

theorem Linked.nlink_dir (ht : Tree N) (h : Linked N d) (hd : (N d).type = tDir) :
    (N d).nlink = 1 + ((subdirs N d).card : Int) := by
  obtain ⟨c, -, hc, hn⟩ := ht.dirLinks d hd
  have h1 : d = 1 ∨ Named N d := or_iff_not_imp_left.mpr h.named
  rw [hn, hc h1]
  rfl

theorem Linked.nlink_file (ht : Tree N) (h : Linked N i) (hd : (N i).type ≠ tDir) : (N i).nlink = 1 := by
  have hi : i ≠ 1 := by
    rintro rfl
    exact hd ht.root
  exact (ht.fileLinks i (h.type_ne ht) hd).2 (h.named hi)

end

end Xv6.Fs
