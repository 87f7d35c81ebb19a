import Mathlib.Data.List.Nodup
import Xv6.Lib.Upd

/-!
# Circular doubly linked lists

A head and nodes, each with a link to the next and to the previous one. The head is `none`.
`Holds L l` says that the links hold the list `l` of nodes.
-/

namespace Xv6.Lib

structure Links (ι : Type) where
  next : Option ι → Option ι
  prev : Option ι → Option ι

namespace Links

variable {ι : Type} {L K : Links ι} {a c : Option ι} {b : ι} {l m : List ι}

/-- A head that is linked to itself. -/
def empty : Links ι := ⟨fun _ => none, fun _ => none⟩

/-- The links read backwards. -/
def flip (L : Links ι) : Links ι := ⟨L.prev, L.next⟩

/-- Puts the node `b` between the head and the first node. -/
def pushFront [DecidableEq ι] (L : Links ι) (b : ι) : Links ι :=
  let first := L.next none
  ⟨upd (upd L.next (some b) first) none (some b), upd (upd L.prev (some b) none) first (some b)⟩

/-- Links the two neighbours of the node `b` with each other. -/
def unlink [DecidableEq ι] (L : Links ι) (b : ι) : Links ι :=
  let prev := upd L.prev (L.next (some b)) (L.prev (some b))
  ⟨upd L.next (prev (some b)) (L.next (some b)), prev⟩

/-- Follows the links of one direction to the first node that satisfies `p`, or to the head. There is
no result when the links do not get there in `n` steps. -/
def walk (go : Option ι → Option ι) (p : ι → Bool) : Nat → Option ι → Option (Option ι)
  | 0, _ => none
  | _ + 1, none => some none
  | n + 1, some b => if p b then some (some b) else walk go p n (go (some b))

/-- From `a` the links go through the nodes of `l` to `c`, and back. -/
def Path (L : Links ι) : Option ι → List ι → Option ι → Prop
  | a, [], c => L.next a = c ∧ L.prev c = a
  | a, b :: l, c => L.next a = some b ∧ L.prev (some b) = a ∧ Path L (some b) l c

structure Holds (L : Links ι) (l : List ι) : Prop where
  path : L.Path none l none
  nodup : l.Nodup

/-! ## Paths -/

theorem path_append : ∀ {l : List ι} {a : Option ι}, L.Path a (l ++ b :: m) c ↔ L.Path a l (some b) ∧
    L.Path (some b) m c
  | [], a => by simp [Path, and_assoc]
  | x :: l, a => by simp [Path, path_append, and_assoc]

theorem Path.congr (h : L.Path a l c) (hn : ∀ x ∈ a :: l.map some, K.next x = L.next x)
    (hp : ∀ x ∈ c :: l.map some, K.prev x = L.prev x) : K.Path a l c := by
  induction l generalizing a with
  | nil => exact ⟨(hn a (by simp)).trans h.1, (hp c (by simp)).trans h.2⟩
  | cons b l ih =>
      obtain ⟨hab, hba, hl⟩ := h
      refine ⟨(hn a (by simp)).trans hab, (hp (some b) (by simp)).trans hba, ih hl ?_ ?_⟩
      · intro x hx
        exact hn x (List.mem_cons_of_mem _ hx)
      · intro x hx
        refine hp x ?_
        cases List.mem_cons.mp hx with
        | inl hc => simp [hc]
        | inr hl => exact List.mem_cons_of_mem _ (List.mem_cons_of_mem _ hl)

theorem Path.flip (h : L.Path a l c) : L.flip.Path c l.reverse a := by
  induction l generalizing a with
  | nil => exact ⟨h.2, h.1⟩
  | cons b l ih =>
      rw [List.reverse_cons, path_append]
      exact ⟨ih h.2.2, h.2.1, h.1⟩

theorem Path.next_mem (h : L.Path a l c) : L.next a ∈ c :: l.map some := by
  cases l with
  | nil => simp [h.1]
  | cons b l => simp [h.1]

theorem Path.prev_mem (h : L.Path a l c) : L.prev c ∈ a :: l.map some := by
  have := h.flip.next_mem
  simpa [Links.flip] using this

/-- A walk along a path finds what a search in the list does. -/
theorem Path.walk_next (h : L.Path a l none) (p : ι → Bool) {n : Nat} (hn : l.length < n) :
    walk L.next p n (L.next a) = some (l.find? p) := by
  induction l generalizing a n with
  | nil =>
      obtain ⟨n, rfl⟩ := Nat.exists_eq_succ_of_ne_zero (Nat.ne_of_gt hn)
      rw [h.1]
      rfl
  | cons b l ih =>
      obtain ⟨n, rfl⟩ := Nat.exists_eq_succ_of_ne_zero (Nat.ne_zero_of_lt hn)
      rw [h.1, List.find?_cons, walk]
      cases p b with
      | true => rfl
      | false => exact ih h.2.2 (by simpa using hn)

theorem holds_empty : (empty : Links ι).Holds [] := ⟨⟨rfl, rfl⟩, List.nodup_nil⟩

theorem Holds.find_next (h : L.Holds l) (p : ι → Bool) {n : Nat} (hn : l.length < n) :
    walk L.next p n (L.next none) = some (l.find? p) :=
  h.path.walk_next p hn

theorem Holds.find_prev (h : L.Holds l) (p : ι → Bool) {n : Nat} (hn : l.length < n) :
    walk L.prev p n (L.prev none) = some (l.reverse.find? p) :=
  h.path.flip.walk_next p (by simpa using hn)

/-! ## Unlinking and inserting -/

variable [DecidableEq ι]

theorem unlink_next (L : Links ι) (h : L.next (some b) ≠ some b) :
    (L.unlink b).next = upd L.next (L.prev (some b)) (L.next (some b)) := by
  simp [unlink, upd_of_ne h.symm]

theorem unlink_prev (L : Links ι) : (L.unlink b).prev = upd L.prev (L.next (some b)) (L.prev (some b)) := rfl

/-- The node `b` leaves a path. -/
theorem Path.unlink (hl : L.Path a l (some b)) (hm : L.Path (some b) m c)
    (hn : (a :: (l ++ b :: m).map some).Nodup) (hp : (c :: (l ++ b :: m).map some).Nodup) :
    (L.unlink b).Path a (l ++ m) c := by
  have hb : L.next (some b) ≠ some b := by
    intro he
    have := hm.next_mem
    rw [he] at this
    simp [List.nodup_append] at hp this
    grind
  induction l generalizing a with
  | nil =>
      obtain ⟨hab, hba⟩ := hl
      cases m with
      | nil =>
          obtain ⟨hbc, hcb⟩ := hm
          refine ⟨?_, ?_⟩
          · rw [unlink_next L hb, hba, hbc, upd_self]
          · rw [unlink_prev, hba, hbc, upd_self]
      | cons x m =>
          obtain ⟨hbx, hxb, hx⟩ := hm
          refine ⟨?_, ?_, hx.congr ?_ ?_⟩
          · rw [unlink_next L hb, hba, hbx, upd_self]
          · rw [unlink_prev, hba, hbx, upd_self]
          · intro y hy
            rw [unlink_next L hb, hba, upd_of_ne]
            rintro rfl
            simp at hn hy
            grind
          · intro y hy
            rw [unlink_prev, hbx, upd_of_ne]
            rintro rfl
            simp at hp hy
            grind
  | cons x l ih =>
      obtain ⟨hax, hxa, hx⟩ := hl
      refine ⟨?_, ?_, ih hx (List.nodup_cons.mp hn).2 ?_⟩
      · rw [unlink_next L hb, upd_of_ne, hax]
        intro he
        have := hx.prev_mem
        rw [← he] at this
        simp at hn this
        grind
      · rw [unlink_prev, upd_of_ne, hxa]
        intro he
        have := hm.next_mem
        rw [← he] at this
        simp at hp this
        grind
      · simp at hp ⊢
        grind

namespace Holds

variable (h : L.Holds l)

include h

theorem unlink (hb : b ∈ l) : (L.unlink b).Holds (l.erase b) := by
  refine ⟨?_, h.nodup.erase b⟩
  obtain ⟨s, t, rfl⟩ := List.append_of_mem hb
  have hs : b ∉ s := fun hs => (List.nodup_append.mp h.nodup).2.2 b hs b (by simp) rfl
  have hmap : (none :: (s ++ b :: t).map some).Nodup :=
    List.nodup_cons.mpr ⟨by simp, h.nodup.map fun _ _ he => Option.some.inj he⟩
  have hpath := path_append.mp h.path
  rw [List.erase_append_right _ hs, List.erase_cons_head]
  exact hpath.1.unlink hpath.2 hmap hmap

theorem pushFront (hb : b ∉ l) : (L.pushFront b).Holds (b :: l) := by
  refine ⟨?_, List.nodup_cons.mpr ⟨hb, h.nodup⟩⟩
  obtain ⟨hpath, hnodup⟩ := h
  cases l with
  | nil =>
      obtain ⟨hnext, -⟩ := hpath
      simp [Path, Links.pushFront, hnext]
  | cons x l =>
      obtain ⟨hnext, -, hx⟩ := hpath
      have hbx : b ≠ x := fun he => hb (by simp [he])
      refine ⟨by simp [Links.pushFront], by simp [Links.pushFront, hnext, hbx], by simp [Links.pushFront, hnext],
        by simp [Links.pushFront, hnext], hx.congr ?_ ?_⟩
      · intro y hy
        simp at hy hb
        simp [Links.pushFront, upd_apply]
        grind
      · intro y hy
        simp at hy hb hnodup
        simp [Links.pushFront, upd_apply, hnext]
        grind

end Holds

/-- Nodes that are inserted one after the other stand in the list in the opposite order. -/
theorem Holds.foldl_pushFront {l m : List ι} {L : Links ι} (h : L.Holds l) (hn : (m ++ l).Nodup) :
    (m.foldl Links.pushFront L).Holds (m.reverse ++ l) := by
  induction m generalizing L l with
  | nil => exact h
  | cons b m ih =>
      have hb := (List.nodup_cons.mp hn).1
      have hbl : b ∉ l := fun hl => hb (List.mem_append_right m hl)
      rw [List.reverse_cons, List.append_assoc]
      refine ih (h.pushFront hbl) ?_
      exact (List.perm_middle.nodup_iff).mpr hn

end Links

end Xv6.Lib
