import Xv6.Fs.Lemmas.Binding
import Xv6.Fs.Lemmas.Linked

/-!
# Removed directories

A directory that was removed while it was in use keeps its `..`, and can get new entries. Two invariants say
when this does no harm: `Anchored` keeps every `..` alive, and `Rooted` keeps every name reachable.
-/

namespace Xv6.Fs

open Xv6.Lib

/-- The directories but `i` have a live parent, which has a name when they have none themselves. -/
def AnchoredBut (N : Nat → Node) (i : Nat) : Prop :=
  ∀ x, x ≠ i → (N x).type = tDir → (N (parentOf N x)).type = tDir ∧
    (x = 1 ∨ Named N x ∨ parentOf N x = 1 ∨ Named N (parentOf N x))

/-- There is no inode 0, so this is all directories. -/
abbrev Anchored (N : Nat → Node) : Prop := AnchoredBut N 0

/-- Every name is reachable from the root, and what has no name has no links. -/
structure Rooted (N : Nat → Node) : Prop where
  linked : ∀ {i}, Named N i → Linked N i
  unnamed : ∀ i, (N i).type ≠ 0 → i ≠ 1 → ¬ Named N i → (N i).nlink = 0

section

variable {N N' : Nat → Node} {d e i j k n x : Nat} {name : List UInt8} {type major minor : Int} {c : Slot → Cell}

theorem Tree.zero (ht : Tree N) : (N 0).type ≠ tDir := fun h => by
  have := (ht.range 0 (by rw [h]; decide)).1
  omega

/-- A directory with a subdirectory has a link for it. -/
theorem Tree.subdir_link (ht : Tree N) (hk : 2 ≤ k) (he : Entry N d k x) (hx : (N x).type = tDir) :
    (N d).nlink ≠ 0 := by
  obtain ⟨c, -, -, hl⟩ := ht.dirLinks d he.dir
  have := Finset.card_pos.mpr ⟨k, (mem_subdirs_iff he.dir).mpr ⟨hk, x, he, hx⟩⟩
  omega

/-- An empty directory has the link of its name. -/
theorem Tree.empty_nlink (ht : Tree N) (hn : 2 ≤ n) (hent : Entry N d n i) (hdir : (N i).type = tDir)
    (hempty : ∀ k, 2 ≤ k → k < entryCount (N i).data → (entryAt (N i).data k).inum = 0) : (N i).nlink = 1 := by
  obtain ⟨c, -, hc, hl⟩ := ht.dirLinks i hdir
  have hsub : subdirs N i = ∅ := by
    rw [Finset.eq_empty_iff_forall_notMem]
    intro k hk
    obtain ⟨hlt, h2, hlive, -⟩ := mem_subdirs.mp hk
    exact hlive (hempty k h2 hlt)
  rw [hl, hc (Or.inr ⟨d, n, hn, hent⟩), hsub]
  rfl

/-! ## Parents -/

theorem Anchored.dir (ht : Tree N) (h : Anchored N) (hx : (N x).type = tDir) : (N (parentOf N x)).type = tDir ∧
    (x = 1 ∨ Named N x ∨ parentOf N x = 1 ∨ Named N (parentOf N x)) :=
  h x (fun h0 => ht.zero (by rw [← h0]; exact hx)) hx

theorem AnchoredBut.anchored (h : AnchoredBut N i) (hi : (N i).type ≠ tDir) : Anchored N := fun x _ hx =>
  h x (fun h0 => hi (by rw [← h0]; exact hx)) hx

/-- Only a `..` can lead to a free node. -/
theorem Anchored.not_dangling (ht : Tree N) (h : Anchored N) : ¬ Dangling N := by
  rintro ⟨d, k, i, he, h0⟩
  have hk : k = 0 ∨ k = 1 ∨ 2 ≤ k := by omega
  rcases hk with rfl | rfl | hk
  · rw [ht.self he, he.dir] at h0
    exact absurd h0 (by decide)
  · have := (h.dir ht he.dir).1
    rw [show parentOf N d = i from he.inum, h0] at this
    exact absurd this (by decide)
  · exact (ht.target hk he).1 h0

/-- A directory without links is not the parent of another one. -/
theorem AnchoredBut.not_parent (ht : Tree N) (h : AnchoredBut N i) (hx : x ≠ i) (hdir : (N x).type = tDir)
    (htype : (N j).type ≠ 0) (hn : (N j).nlink = 0) : parentOf N x ≠ j := by
  obtain ⟨hname, hroot⟩ := ht.unlinked htype hn
  rintro rfl
  rcases (h x hx hdir).2 with rfl | ⟨d, k, hk, he⟩ | h1 | h1
  · exact hroot ht.rootParent
  · rw [ht.parent hk he hdir] at hn
    exact ht.subdir_link hk he hdir hn
  · exact hroot h1
  · exact hname h1

theorem AnchoredBut.free (ht : Tree N) (h : AnchoredBut N i) (hf : Free N N') : AnchoredBut N' i := by
  obtain ⟨j, htype, hn, rfl⟩ := hf
  obtain ⟨hname, hroot⟩ := ht.unlinked htype hn
  intro x hx hdir
  have hxj : x ≠ j := ne_of_type (by rw [hdir]; decide)
  rw [freed_of_ne hxj] at hdir
  have hpar : parentOf (upd N j (N j).freed) x = parentOf N x := by
    unfold parentOf
    rw [freed_of_ne hxj]
  have hpj : parentOf N x ≠ j := h.not_parent ht hx hdir htype hn
  have hnamed : ∀ {y}, (N y).type = tDir → Named N y → Named (upd N j (N j).freed) y := by
    rintro y hy ⟨d, k, hk, he⟩
    refine ⟨d, k, hk, entry_freed.mpr ⟨he, ?_⟩⟩
    rintro rfl
    exact ht.subdir_link hk he hy hn
  obtain ⟨h1, h2⟩ := h x hx hdir
  rw [hpar, freed_of_ne hpj]
  exact ⟨h1, h2.imp_right fun h2 => h2.imp (hnamed hdir) fun h2 => h2.imp_right (hnamed h1)⟩

theorem Tree.frees (ht : Tree N) (hf : Frees N N') : Tree N' := by
  induction hf with
  | refl => exact ht
  | tail _ hs ih =>
      obtain ⟨j, htype, hn, rfl⟩ := hs
      exact ih.freed htype hn

theorem AnchoredBut.frees (ht : Tree N) (h : AnchoredBut N i) (hf : Frees N N') : AnchoredBut N' i := by
  induction hf with
  | refl => exact h
  | tail hr hs ih => exact ih.free (ht.frees hr) hs

theorem reap_frees (htype : (N i).type ≠ 0) : Frees N (reap N c i) := by
  unfold reap
  split
  · exact .single ⟨i, htype, (‹_ ∧ _›).1, rfl⟩
  · exact .refl

/-- What a removal leaves behind is freed, node by node. -/
theorem removed_frees (ht : Tree N) (hn : 2 ≤ n) (hent : Entry N d n i) :
    Frees (removed N d n i) (reap (reap (removed N d n i) c d) c i) := by
  obtain ⟨hity, -, hid⟩ := ht.target hn hent
  refine (reap_frees (by rw [removed_type, hent.dir]; decide)).trans (reap_frees ?_)
  rw [reap_of_ne hid, removed_type]
  exact hity

theorem Anchored.created (ht : Tree N) (h : Anchored N) (hd : (N d).type = tDir) (hx : 1 ≤ x ∧ x < 96)
    (hfree : (N x).type = 0) (hlook : lookup (N d).data name = none) (htype : type ≠ 0) :
    Anchored (created N d name x type major minor) := by
  have ht' : Tree (Fs.created N d name x type major minor) := ht.created hd hlook hx hfree htype
  have hxd := created_ne hd hfree
  have hty : ∀ {y}, (N y).type = tDir → y ≠ x := by
    rintro y hy rfl
    rw [hfree] at hy
    exact absurd hy (by decide)
  have hnew : Entry (Fs.created N d name x type major minor) d (freeEntry (N d).data) x :=
    (entry_created ht hd hx hfree).mpr (Or.inr (Or.inl ⟨rfl, rfl, rfl⟩))
  intro y _ hy
  by_cases hyx : y = x
  · subst hyx
    rw [ht'.parent (two_le_freeEntry ht hd) hnew hy, created_type hd hfree, if_neg hxd.symm]
    exact ⟨hd, Or.inr (Or.inl ⟨d, _, two_le_freeEntry ht hd, hnew⟩)⟩
  · rw [created_type hd hfree, if_neg hyx] at hy
    obtain ⟨h1, h2⟩ := h.dir ht hy
    rw [parentOf_created ht hd hx hyx, created_type hd hfree, if_neg (hty h1), named_created ht hd hx hfree hyx,
      named_created ht hd hx hfree (hty h1)]
    exact ⟨h1, h2⟩

/-- A directory is removed that no other one has as its parent; it is not in use, or its own parent has a name. -/
theorem Anchored.removed (ht : Tree N) (h : Anchored N) (hn : 2 ≤ n) (hent : Entry N d n i)
    (hempty : (N i).type = tDir → ∀ k, 2 ≤ k → k < entryCount (N i).data → (entryAt (N i).data k).inum = 0)
    (hchild : (N i).type = tDir → ∀ x, x ≠ i → (N x).type = tDir → parentOf N x ≠ i)
    (hpar : (N i).type = tDir → d = 1 ∨ Named N d ∨ ¬ HeldBy c i) :
    Anchored (reap (reap (removed N d n i) c d) c i) := by
  have ht' : Tree (Fs.removed N d n i) := ht.removed hn hent hempty
  obtain ⟨hity, hi1, hid⟩ := ht.target hn hent
  have hbut : AnchoredBut (Fs.removed N d n i) i := by
    intro x hx hdir
    rw [removed_type] at hdir
    obtain ⟨h1, h2⟩ := h.dir ht hdir
    have hpi : parentOf N x ≠ i := by
      intro h0
      rw [h0] at h1
      exact hchild h1 x hx hdir h0
    rw [parentOf_removed ht hn hent, removed_type, named_removed ht hn hent hx, named_removed ht hn hent hpi]
    exact ⟨h1, h2⟩
  have hf := removed_frees (c := c) ht hn hent
  by_cases hdir : (N i).type = tDir
  · by_cases hheld : HeldBy c i
    · -- the removed directory stays, and its parent has a name
      have hd : d = 1 ∨ Named N d := (or_assoc.mpr (hpar hdir)).resolve_right (not_not.mpr hheld)
      refine AnchoredBut.frees ht' (fun x _ hx => ?_) hf
      by_cases hxi : x = i
      · rw [hxi, parentOf_removed ht hn hent, ht.parent hn hent hdir, removed_type,
          named_removed ht hn hent (Ne.symm hid)]
        exact ⟨hent.dir, Or.inr (Or.inr hd)⟩
      · exact hbut x hxi hx
    · refine (hbut.frees ht' hf).anchored ?_
      have hnl : (reap (Fs.removed N d n i) c d i).nlink = 0 := by
        rw [reap_of_ne hid, removed_nlink ht hn hent, if_pos rfl, ht.empty_nlink hn hent hdir (hempty hdir)]
        rfl
      rw [reap, if_pos ⟨hnl, hheld⟩, upd_self]
      exact Int.zero_ne_one
  · refine AnchoredBut.frees ht' (hbut.anchored ?_) hf
    rw [removed_type]
    exact hdir

theorem Anchored.setData (ht : Tree N) (h : Anchored N) (hfile : (N i).type ≠ tDir) (data : List UInt8) :
    Anchored (upd N i { N i with data := data }) := by
  intro x _ hx
  rw [setData_type] at hx
  rw [parentOf_setData hfile data hx, setData_type, named_setData hfile, named_setData hfile]
  exact h.dir ht hx

/-! ## Names -/

/-- A map of nodes that keeps the entries of linked directories keeps what they link. -/
theorem Linked.mono (h : Linked N i) (hent : ∀ {d k j}, Linked N d → 2 ≤ k → Entry N d k j → Entry N' d k j) :
    Linked N' i := by
  induction h with
  | root => exact .root
  | entry hd hk he ih => exact .entry ih hk (hent hd hk he)

theorem Rooted.free (ht : Tree N) (h : Rooted N) (hf : Free N N') : Rooted N' := by
  obtain ⟨j, htype, hn, rfl⟩ := hf
  obtain ⟨hname, hroot⟩ := ht.unlinked htype hn
  have hdj : ∀ {d}, Linked N d → d ≠ j := by
    rintro d hd rfl
    exact hname (hd.named hroot)
  -- no name is in the freed directory: it would be linked
  have hent : ∀ {d k y}, 2 ≤ k → Entry N d k y → d ≠ j := by
    intro d k y hk he
    have hl := h.linked ⟨d, k, hk, he⟩
    cases hl with
    | root => exact absurd rfl (ht.target hk he).2.1
    | entry hd' hk' he' =>
        rw [(ht.unique hk hk' he he').1]
        exact hdj hd'
  refine ⟨fun hy => ?_, fun y hy h1 hny => ?_⟩
  · exact (h.linked (named_freed hy)).mono fun hd _ he => entry_freed.mpr ⟨he, hdj hd⟩
  · have hyj : y ≠ j := ne_of_type hy
    rw [freed_of_ne hyj] at hy ⊢
    refine h.unnamed y hy h1 fun ⟨d, k, hk, he⟩ => hny ⟨d, k, hk, entry_freed.mpr ⟨he, hent hk he⟩⟩

theorem Rooted.frees (ht : Tree N) (h : Rooted N) (hf : Frees N N') : Rooted N' := by
  induction hf with
  | refl => exact h
  | tail hr hs ih => exact ih.free (ht.frees hr) hs

/-- A name is created in a linked directory. -/
theorem Rooted.created (ht : Tree N) (h : Rooted N) (hd : (N d).type = tDir) (hlink : Linked N d) (hx : 1 ≤ x ∧ x < 96)
    (hfree : (N x).type = 0) : Rooted (created N d name x type major minor) := by
  have hold : ∀ {y}, Linked N y → Linked (Fs.created N d name x type major minor) y := fun hy =>
    hy.mono fun _ _ he => (entry_created ht hd hx hfree).mpr (Or.inl he)
  have hnew : Linked (Fs.created N d name x type major minor) x :=
    .entry (hold hlink) (two_le_freeEntry ht hd) ((entry_created ht hd hx hfree).mpr (Or.inr (Or.inl ⟨rfl, rfl, rfl⟩)))
  have hx1 : x ≠ 1 := by
    rintro rfl
    exact absurd (hfree.symm.trans ht.root) (by decide)
  refine ⟨fun {y} hy => ?_, fun y hy h1 hny => ?_⟩
  · by_cases hyx : y = x
    · rw [hyx]
      exact hnew
    · exact hold (h.linked ((named_created ht hd hx hfree hyx).mp hy))
  · have hyx : y ≠ x := by
      rintro rfl
      exact hny (hnew.named hx1)
    have hyd : y ≠ d := by
      rintro rfl
      exact hny ((hold hlink).named h1)
    rw [named_created ht hd hx hfree hyx] at hny
    rw [created_of_ne hyd hyx] at hy ⊢
    exact h.unnamed y hy h1 hny

theorem Rooted.removed (ht : Tree N) (h : Rooted N) (hn : 2 ≤ n) (hent : Entry N d n i)
    (hempty : (N i).type = tDir → ∀ k, 2 ≤ k → k < entryCount (N i).data → (entryAt (N i).data k).inum = 0) :
    Rooted (removed N d n i) := by
  obtain ⟨hity, hi1, hid⟩ := ht.target hn hent
  -- the directory of a name is linked
  have hd : Linked N d := by
    cases h.linked ⟨d, n, hn, hent⟩ with
    | root => exact absurd rfl hi1
    | entry hd' hk' he' =>
        rw [(ht.unique hn hk' hent he').1]
        exact hd'
  have hkeep : ∀ {y}, y ≠ i → Linked N y → Linked (Fs.removed N d n i) y := by
    intro y hyi hy
    induction hy with
    | root => exact .root
    | @entry e k y he hk hey ih =>
        have hei : e ≠ i := by
          rintro rfl
          exact hey.live_at (hempty hey.dir k hk hey.lt)
        refine .entry (ih hei) hk ((entry_removed ht hn hent).mpr ⟨hey, ?_⟩)
        rintro ⟨rfl, rfl⟩
        exact hyi (hey.inum.symm.trans hent.inum)
  refine ⟨fun {y} hy => ?_, fun y hy h1 hny => ?_⟩
  · have hyi : y ≠ i := by
      rintro rfl
      exact not_named_removed ht hn hent hy
    exact hkeep hyi (h.linked ((named_removed ht hn hent hyi).mp hy))
  · rw [removed_type] at hy
    rw [removed_nlink ht hn hent]
    by_cases hyi : y = i
    · subst hyi
      rw [if_pos rfl]
      by_cases hdir : (N y).type = tDir
      · rw [ht.empty_nlink hn hent hdir (hempty hdir)]
        rfl
      · rw [(ht.fileLinks y hy hdir).2 ⟨d, n, hn, hent⟩]
        rfl
    · have hyd : y ≠ d := by
        rintro rfl
        exact hny ((named_removed ht hn hent hyi).mpr (hd.named h1))
      rw [named_removed ht hn hent hyi] at hny
      rw [if_neg hyi, if_neg fun h0 => hyd h0.1]
      exact h.unnamed y hy h1 hny

theorem Rooted.setData (h : Rooted N) (hfile : (N i).type ≠ tDir) (data : List UInt8) :
    Rooted (upd N i { N i with data := data }) := by
  refine ⟨fun hy => ?_, fun y hy h1 hny => ?_⟩
  · rw [named_setData hfile] at hy
    exact (h.linked hy).mono fun _ _ he => (entry_setData hfile data).mpr he
  · rw [setData_type] at hy
    rw [named_setData hfile] at hny
    rw [setData_nlink]
    exact h.unnamed y hy h1 hny

end

end Xv6.Fs
