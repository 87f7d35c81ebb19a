import Xv6.Fs.Lemmas.Unlink

/-!
# The calls keep the tree

The nodes change in four ways: a name is created, a name is removed, a node is freed, and the data of a
file is overwritten. For each of them: which entries there are afterwards, and that the tree is kept.
-/

namespace Xv6.Fs

open Xv6.Lib

variable {N : Nat → Node} {d k i j n x : Nat} {name : List UInt8} {type major minor : Int}

theorem Entry.live_at (h : Entry N d k i) : (entryAt (N d).data k).inum ≠ 0 := by
  rw [h.inum]
  exact h.live

theorem mem_subdirs : k ∈ subdirs N d ↔ k < entryCount (N d).data ∧ 2 ≤ k ∧ (entryAt (N d).data k).inum ≠ 0 ∧
    (N (entryAt (N d).data k).inum).type = tDir := by
  rw [subdirs, Finset.mem_filter, Finset.mem_range]

/-- The subdirectories of a directory, by its entries. -/
theorem mem_subdirs_iff (hd : (N d).type = tDir) :
    k ∈ subdirs N d ↔ 2 ≤ k ∧ ∃ i, Entry N d k i ∧ (N i).type = tDir := by
  rw [mem_subdirs]
  constructor
  · rintro ⟨hlt, h2, hlive, ht⟩
    exact ⟨h2, _, ⟨hd, hlt, rfl, hlive⟩, ht⟩
  · rintro ⟨h2, i, he, ht⟩
    exact ⟨he.lt, h2, he.live_at, by rw [he.inum]; exact ht⟩

theorem entry_dot (ht : Tree N) (hd : (N d).type = tDir) : Entry N d 0 d := by
  have := (ht.size d hd).2
  have := ht.range d (by rw [hd]; decide)
  exact ⟨hd, by omega, (ht.dot d hd).1, by omega⟩

theorem entry_dotDot (ht : Tree N) (hd : (N d).type = tDir) : Entry N d 1 (parentOf N d) := by
  have := (ht.size d hd).2
  exact ⟨hd, by omega, rfl, (ht.dotDot d hd).1⟩

/-- A node without links has no name and is not the root. -/
theorem Tree.unlinked (ht : Tree N) (htype : (N i).type ≠ 0) (hn : (N i).nlink = 0) : ¬ Named N i ∧ i ≠ 1 := by
  refine ⟨?_, ?_⟩
  · rintro ⟨d, k, h2, he⟩
    have := ht.nlink_pos h2 he
    omega
  · rintro rfl
    obtain ⟨c, _, hc, hl⟩ := ht.dirLinks 1 ht.root
    have := hc (Or.inl rfl)
    omega

theorem entry_congr {N' : Nat → Node} (h : N' d = N d) : Entry N' d k i ↔ Entry N d k i := by
  constructor
  · rintro ⟨h1, h2, h3, h4⟩
    rw [h] at h1 h2 h3
    exact ⟨h1, h2, h3, h4⟩
  · rintro ⟨h1, h2, h3, h4⟩
    rw [← h] at h1 h2 h3
    exact ⟨h1, h2, h3, h4⟩

/-! ## A node is freed -/

theorem freed_of_ne (h : j ≠ i) : upd N i (N i).freed j = N j := upd_of_ne h _ _

theorem entry_freed : Entry (upd N i (N i).freed) d k j ↔ Entry N d k j ∧ d ≠ i := by
  by_cases hd : d = i
  · subst hd
    refine ⟨fun h => ?_, fun h => absurd rfl h.2⟩
    have := h.dir
    rw [upd_self] at this
    exact absurd this Int.zero_ne_one
  · rw [and_iff_left hd]
    exact entry_congr (freed_of_ne hd)

theorem ne_of_type (h : (upd N i (N i).freed j).type ≠ 0) : j ≠ i := by
  rintro rfl
  rw [upd_self] at h
  exact h rfl

theorem named_freed (h : Named (upd N i (N i).freed) j) : Named N j := by
  obtain ⟨d, k, h2, he⟩ := h
  exact ⟨d, k, h2, (entry_freed.mp he).1⟩

theorem subdirs_freed (hi : ¬ Named N i) (hd : d ≠ i) (hdir : (N d).type = tDir) :
    subdirs (upd N i (N i).freed) d = subdirs N d := by
  ext k
  rw [mem_subdirs_iff (by rw [freed_of_ne hd]; exact hdir), mem_subdirs_iff hdir]
  refine and_congr_right fun h2 => exists_congr fun j => ?_
  rw [entry_freed]
  constructor
  · rintro ⟨⟨he, _⟩, ht⟩
    rw [freed_of_ne] at ht
    · exact ⟨he, ht⟩
    · rintro rfl
      exact hi ⟨d, k, h2, he⟩
  · rintro ⟨he, ht⟩
    refine ⟨⟨he, hd⟩, ?_⟩
    rw [freed_of_ne]
    · exact ht
    · rintro rfl
      exact hi ⟨d, k, h2, he⟩

theorem Tree.freed (ht : Tree N) (htype : (N i).type ≠ 0) (hn : (N i).nlink = 0) : Tree (upd N i (N i).freed) := by
  obtain ⟨hname, hroot⟩ := ht.unlinked htype hn
  have hdirne : ∀ {j}, (upd N i (N i).freed j).type = tDir → j ≠ i ∧ (N j).type = tDir := by
    intro j hj
    have hne : j ≠ i := ne_of_type (by rw [hj]; decide)
    rw [freed_of_ne hne] at hj
    exact ⟨hne, hj⟩
  refine
    { root := by rw [freed_of_ne (Ne.symm hroot)]; exact ht.root
      range := fun j hj => ht.range j (by rwa [freed_of_ne (ne_of_type hj)] at hj)
      free := ?free
      size := fun j hj => by rw [freed_of_ne (hdirne hj).1]; exact ht.size j (hdirne hj).2
      dot := fun j hj => by rw [freed_of_ne (hdirne hj).1]; exact ht.dot j (hdirne hj).2
      dotDot := fun j hj => by
        rw [parentOf, freed_of_ne (hdirne hj).1]
        exact ht.dotDot j (hdirne hj).2
      inum := fun he => ht.inum (entry_freed.mp he).1
      names := ?names
      target := ?target
      unique := fun h2 h2' he he' => ht.unique h2 h2' (entry_freed.mp he).1 (entry_freed.mp he').1
      parent := ?parent
      rootParent := by rw [parentOf, freed_of_ne (Ne.symm hroot)]; exact ht.rootParent
      dirLinks := ?dirLinks
      fileLinks := ?fileLinks }
  case free =>
    intro j hj
    by_cases h : j = i
    · rw [h, upd_self]
      rfl
    · rw [freed_of_ne h] at hj ⊢
      exact ht.free j hj
  case names =>
    intro d k k' j j' he he' hnm
    obtain ⟨he, hd⟩ := entry_freed.mp he
    rw [freed_of_ne hd] at hnm
    exact ht.names he (entry_freed.mp he').1 hnm
  case target =>
    intro d k j h2 he
    have he' := (entry_freed.mp he).1
    rw [freed_of_ne]
    · exact ht.target h2 he'
    · rintro rfl
      exact hname ⟨d, k, h2, he'⟩
  case parent =>
    intro d k j h2 he hj
    rw [parentOf, freed_of_ne (hdirne hj).1]
    exact ht.parent h2 (entry_freed.mp he).1 (hdirne hj).2
  case dirLinks =>
    intro j hj
    obtain ⟨hne, hdir⟩ := hdirne hj
    obtain ⟨c, hc1, hc, hl⟩ := ht.dirLinks j hdir
    rw [subdirs_freed hname hne hdir, freed_of_ne hne]
    exact ⟨c, hc1, fun h => hc (h.imp_right named_freed), hl⟩
  case fileLinks =>
    intro j hj hj'
    have hne := ne_of_type hj
    rw [freed_of_ne hne] at hj hj' ⊢
    obtain ⟨h1, h2⟩ := ht.fileLinks j hj hj'
    exact ⟨h1, fun h => h2 (named_freed h)⟩

theorem Tree.reap {c : Slot → Cell} (ht : Tree N) (htype : (N i).type ≠ 0) : Tree (reap N c i) := by
  unfold Fs.reap
  split
  · rename_i h
    exact ht.freed htype h.1
  · exact ht

/-! ## A name is removed -/

theorem clearEntry_size (hmod : (N d).data.length % 32 = 0) (hn : n < entryCount (N d).data) :
    entryCount (clearEntry (N d).data n) = entryCount (N d).data ∧ (clearEntry (N d).data n).length % 32 = 0 := by
  obtain ⟨h1, h2⟩ := entryCount_overlay (w := List.replicate 32 0) (by simp) hmod (Nat.le_of_lt hn)
  exact ⟨by rw [clearEntry, h1]; omega, h2⟩

theorem entryAt_clearEntry (hmod : (N d).data.length % 32 = 0) (hn : n < entryCount (N d).data) (hk : k ≠ n) :
    entryAt (clearEntry (N d).data n) k = entryAt (N d).data k := by
  rw [clearEntry, entryAt_overlay (by simp) hmod (Nat.le_of_lt hn), if_neg hk]

theorem inum_clearEntry (hmod : (N d).data.length % 32 = 0) (hn : n < entryCount (N d).data) :
    (entryAt (clearEntry (N d).data n) n).inum = 0 := by
  rw [clearEntry, entryAt_overlay (by simp) hmod (Nat.le_of_lt hn), if_pos rfl]
  decide

section

variable (ht : Tree N) (hn : 2 ≤ n) (hent : Entry N d n i)
  (hempty : (N i).type = tDir → ∀ k, 2 ≤ k → k < entryCount (N i).data → (entryAt (N i).data k).inum = 0)

theorem removed_type (j : Nat) : (removed N d n i j).type = (N j).type := by
  unfold removed
  rw [upd_apply]
  split
  · rw [‹j = i›]
  · rw [upd_apply]
    split
    · rw [‹j = d›]
    · rfl

theorem removed_data_of_ne (hj : j ≠ d) : (removed N d n i j).data = (N j).data := by
  unfold removed
  rw [upd_apply]
  split
  · rw [‹j = i›]
  · rw [upd_of_ne hj]

include ht hn hent

theorem removed_data_self : (removed N d n i d).data = clearEntry (N d).data n := by
  have hid := (ht.target hn hent).2.2
  rw [removed, upd_of_ne hid.symm, upd_self]

theorem entry_removed {e : Nat} : Entry (removed N d n i) e k j ↔ Entry N e k j ∧ ¬ (e = d ∧ k = n) := by
  have hsize := (ht.size d hent.dir).1
  by_cases he : e = d
  · subst he
    obtain ⟨hc, _⟩ := clearEntry_size hsize hent.lt
    by_cases hk : k = n
    · subst hk
      refine ⟨fun h => ?_, fun h => absurd ⟨rfl, rfl⟩ h.2⟩
      have h1 := h.inum
      rw [removed_data_self ht hn hent, inum_clearEntry hsize hent.lt] at h1
      exact absurd h1.symm h.live
    · refine ⟨fun h => ⟨⟨hent.dir, ?_, ?_, h.live⟩, fun h0 => hk h0.2⟩, fun ⟨h, _⟩ => ⟨?_, ?_, ?_, h.live⟩⟩
      · have := h.lt
        rwa [removed_data_self ht hn hent, hc] at this
      · have := h.inum
        rwa [removed_data_self ht hn hent, entryAt_clearEntry hsize hent.lt hk] at this
      · rw [removed_type]
        exact h.dir
      · rw [removed_data_self ht hn hent, hc]
        exact h.lt
      · rw [removed_data_self ht hn hent, entryAt_clearEntry hsize hent.lt hk]
        exact h.inum
  · rw [and_iff_left fun h => he h.1]
    have hdata : (removed N d n i e).data = (N e).data := removed_data_of_ne he
    constructor
    · rintro ⟨h1, h2, h3, h4⟩
      rw [removed_type] at h1
      rw [hdata] at h2 h3
      exact ⟨h1, h2, h3, h4⟩
    · rintro ⟨h1, h2, h3, h4⟩
      rw [← hdata] at h2 h3
      exact ⟨by rw [removed_type]; exact h1, h2, h3, h4⟩

theorem not_named_removed : ¬ Named (removed N d n i) i := by
  rintro ⟨e, k, h2, he⟩
  obtain ⟨he, hne⟩ := (entry_removed ht hn hent).mp he
  exact hne (ht.unique h2 hn he hent)

theorem named_removed (hj : j ≠ i) : Named (removed N d n i) j ↔ Named N j := by
  constructor
  · rintro ⟨e, k, h2, he⟩
    exact ⟨e, k, h2, ((entry_removed ht hn hent).mp he).1⟩
  · rintro ⟨e, k, h2, he⟩
    refine ⟨e, k, h2, (entry_removed ht hn hent).mpr ⟨he, ?_⟩⟩
    rintro ⟨rfl, rfl⟩
    exact hj (he.inum.symm.trans hent.inum)

theorem parentOf_removed (e : Nat) : parentOf (removed N d n i) e = parentOf N e := by
  unfold parentOf
  by_cases he : e = d
  · rw [he, removed_data_self ht hn hent, entryAt_clearEntry (ht.size d hent.dir).1 hent.lt (by omega)]
  · rw [removed_data_of_ne he]

theorem subdirs_removed {e : Nat} (he : (N e).type = tDir) :
    subdirs (removed N d n i) e = if e = d then (subdirs N e).erase n else subdirs N e := by
  ext k
  have hiff : k ∈ subdirs (removed N d n i) e ↔ k ∈ subdirs N e ∧ ¬ (e = d ∧ k = n) := by
    rw [mem_subdirs_iff (by rw [removed_type]; exact he), mem_subdirs_iff he]
    simp only [removed_type, entry_removed ht hn hent]
    constructor
    · rintro ⟨h2, j, ⟨hj, hne⟩, hty⟩
      exact ⟨⟨h2, j, hj, hty⟩, hne⟩
    · rintro ⟨⟨h2, j, hj, hty⟩, hne⟩
      exact ⟨h2, j, ⟨hj, hne⟩, hty⟩
  rw [hiff]
  split
  · rw [Finset.mem_erase]
    tauto
  · tauto

/-- Where the link counts change. -/
theorem removed_nlink (j : Nat) : (removed N d n i j).nlink =
    if j = i then (N i).nlink - 1 else if j = d ∧ (N i).type = tDir then (N d).nlink - 1 else (N j).nlink := by
  have hid := (ht.target hn hent).2.2
  unfold removed
  rw [upd_apply]
  split
  · rfl
  · rw [upd_apply]
    by_cases hj : j = d
    · simp only [hj, if_true, true_and]
    · simp only [hj, if_false, false_and]

include hempty

theorem subdirs_removed_self (hi : (N i).type = tDir) : subdirs (removed N d n i) i = ∅ := by
  have hid := (ht.target hn hent).2.2
  rw [subdirs_removed ht hn hent hi, if_neg hid]
  refine Finset.eq_empty_of_forall_notMem fun k hk => ?_
  obtain ⟨hlt, h2, hlive, _⟩ := mem_subdirs.mp hk
  exact hlive (hempty hi k h2 hlt)

theorem dirLinks_removed {e : Nat} (he : (N e).type = tDir) : ∃ c : Nat, c ≤ 1 ∧
    (e = 1 ∨ Named (removed N d n i) e → c = 1) ∧
    (removed N d n i e).nlink = c + (subdirs (removed N d n i) e).card := by
  obtain ⟨c, hc1, hc, hl⟩ := ht.dirLinks e he
  obtain ⟨_, hi1, hid⟩ := ht.target hn hent
  rw [removed_nlink ht hn hent]
  by_cases hei : e = i
  · -- the removed directory has lost its only link
    subst hei
    have hc := hc (Or.inr ⟨d, n, hn, hent⟩)
    have h0 : subdirs N e = ∅ := by
      have := subdirs_removed_self ht hn hent hempty he
      rwa [subdirs_removed ht hn hent he, if_neg hid] at this
    rw [if_pos rfl, subdirs_removed_self ht hn hent hempty he]
    refine ⟨0, Nat.zero_le 1, ?_, ?_⟩
    · rintro (h | h)
      · exact absurd h hi1
      · exact absurd h (not_named_removed ht hn hent)
    · rw [h0] at hl
      simp only [Finset.card_empty] at hl ⊢
      omega
  · rw [if_neg hei, subdirs_removed ht hn hent he]
    refine ⟨c, hc1, fun h => hc (h.imp_right (named_removed ht hn hent hei).mp), ?_⟩
    by_cases hed : e = d
    · subst hed
      rw [if_pos rfl]
      by_cases hty : (N i).type = tDir
      · have hmem : n ∈ subdirs N e := (mem_subdirs_iff he).mpr ⟨hn, i, hent, hty⟩
        have hpos := Finset.card_pos.mpr ⟨n, hmem⟩
        rw [if_pos ⟨rfl, hty⟩, Finset.card_erase_of_mem hmem]
        omega
      · rw [if_neg fun h => hty h.2, Finset.erase_eq_of_notMem]
        · exact hl
        · intro hmem
          obtain ⟨_, j, hj, hjt⟩ := (mem_subdirs_iff he).mp hmem
          rw [← hj.inum, hent.inum] at hjt
          exact hty hjt
    · rw [if_neg fun h => hed h.1, if_neg hed]
      exact hl

theorem Tree.removed : Tree (removed N d n i) := by
  obtain ⟨hity, hi1, hid⟩ := ht.target hn hent
  have hdir : ∀ {e}, (Fs.removed N d n i e).type = tDir → (N e).type = tDir := fun h => by rwa [removed_type] at h
  have hsize := (ht.size d hent.dir).1
  obtain ⟨hcount, hmod⟩ := clearEntry_size hsize hent.lt
  -- the entries that stay have the names they had
  have hat : ∀ {e k}, ¬ (e = d ∧ k = n) → entryAt (Fs.removed N d n i e).data k = entryAt (N e).data k := by
    intro e k hne
    by_cases he : e = d
    · rw [he, removed_data_self ht hn hent, entryAt_clearEntry hsize hent.lt fun h => hne ⟨he, h⟩]
    · rw [removed_data_of_ne he]
  refine
    { root := by rw [removed_type]; exact ht.root
      range := fun j hj => ht.range j (by rwa [removed_type] at hj)
      free := ?free
      size := ?size
      dot := fun e he => by rw [hat (by omega)]; exact ht.dot e (hdir he)
      dotDot := fun e he => by
        rw [parentOf_removed ht hn hent, hat (by omega)]
        exact ht.dotDot e (hdir he)
      inum := fun he => ht.inum ((entry_removed ht hn hent).mp he).1
      names := ?names
      target := ?target
      unique := fun h2 h2' he he' => ht.unique h2 h2' ((entry_removed ht hn hent).mp he).1
        ((entry_removed ht hn hent).mp he').1
      parent := ?parent
      rootParent := by rw [parentOf_removed ht hn hent]; exact ht.rootParent
      dirLinks := fun e he => dirLinks_removed ht hn hent hempty (hdir he)
      fileLinks := ?fileLinks }
  case free =>
    intro j hj
    rw [removed_type] at hj
    have hne : j ≠ d := by
      rintro rfl
      rw [hent.dir] at hj
      exact absurd hj (by decide)
    rw [removed_data_of_ne hne]
    exact ht.free j hj
  case size =>
    intro e he
    by_cases hed : e = d
    · rw [hed, removed_data_self ht hn hent, hcount]
      exact ⟨hmod, (ht.size d hent.dir).2⟩
    · rw [removed_data_of_ne hed]
      exact ht.size e (hdir he)
  case names =>
    intro e k k' j j' he he' hname
    obtain ⟨he, hne⟩ := (entry_removed ht hn hent).mp he
    obtain ⟨he', hne'⟩ := (entry_removed ht hn hent).mp he'
    rw [hat hne, hat hne'] at hname
    exact ht.names he he' hname
  case target =>
    intro e k j h2 he
    rw [removed_type]
    exact ht.target h2 ((entry_removed ht hn hent).mp he).1
  case parent =>
    intro e k j h2 he hj
    rw [parentOf_removed ht hn hent]
    exact ht.parent h2 ((entry_removed ht hn hent).mp he).1 (hdir hj)
  case fileLinks =>
    intro j hj hj'
    rw [removed_type] at hj hj'
    obtain ⟨h01, hnm⟩ := ht.fileLinks j hj hj'
    rw [removed_nlink ht hn hent]
    by_cases hji : j = i
    · subst hji
      have := hnm ⟨d, n, hn, hent⟩
      rw [if_pos rfl]
      exact ⟨Or.inl (by omega), fun h => absurd h (not_named_removed ht hn hent)⟩
    · have hjd : j ≠ d := by
        rintro rfl
        exact hj' hent.dir
      rw [if_neg hji, if_neg fun h => hjd h.1]
      exact ⟨h01, fun h => hnm ((named_removed ht hn hent hji).mp h)⟩

end

/-! ## A name is created -/

section

variable (ht : Tree N) (hd : (N d).type = tDir) (hlook : lookup (N d).data name = none)
  (hx : 1 ≤ x ∧ x < 96) (hfree : (N x).type = 0) (htype : type ≠ 0)

include hd hfree in
theorem created_ne : x ≠ d := by
  rintro rfl
  rw [hfree] at hd
  exact absurd hd (by decide)

theorem created_of_ne (hjd : j ≠ d) (hjx : j ≠ x) : created N d name x type major minor j = N j := by
  rw [created, upd_of_ne hjd, upd_of_ne hjx]

include hd hfree in
theorem created_new : created N d name x type major minor x =
    ⟨type, major, minor, 1, if type = tDir then dots x d else []⟩ := by
  rw [created, upd_of_ne (created_ne hd hfree), upd_self]

theorem created_dir : created N d name x type major minor d =
    { N d with
      nlink := if type = tDir then (N d).nlink + 1 else (N d).nlink
      data := putEntry (N d).data (freeEntry (N d).data) (newEntry name x) } := upd_self _ _ _

include hd hfree in
theorem created_type (j : Nat) :
    (created N d name x type major minor j).type = if j = x then type else (N j).type := by
  by_cases hjx : j = x
  · rw [hjx, created_new hd hfree, if_pos rfl]
  · rw [if_neg hjx]
    by_cases hjd : j = d
    · rw [hjd, created_dir]
    · rw [created_of_ne hjd hjx]

include ht hd in
theorem two_le_freeEntry : 2 ≤ freeEntry (N d).data := by
  have hcount := (ht.size d hd).2
  by_contra hlt
  have hfree := freeEntry_free (show freeEntry (N d).data < entryCount (N d).data by omega)
  obtain h0 | h1 : freeEntry (N d).data = 0 ∨ freeEntry (N d).data = 1 := by omega
  · rw [h0] at hfree
    exact (entry_dot ht hd).live_at hfree
  · rw [h1] at hfree
    exact (entry_dotDot ht hd).live_at hfree

include ht hd hx in
theorem entryAt_created (k : Nat) : entryAt (created N d name x type major minor d).data k =
    if k = freeEntry (N d).data then newEntry name x else entryAt (N d).data k := by
  rw [created_dir]
  exact entryAt_putEntry (lt_trans hx.2 (by decide)) (ht.size d hd).1 (freeEntry_le _)

include ht hd in
theorem entryCount_created : entryCount (created N d name x type major minor d).data =
    max (entryCount (N d).data) (freeEntry (N d).data + 1) ∧
      (created N d name x type major minor d).data.length % 32 = 0 := by
  rw [created_dir]
  exact putEntry_size (ht.size d hd).1 (freeEntry_le _)

include ht hfree in
theorem not_named_free : ¬ Named N x := by
  rintro ⟨e, k, h2, he⟩
  exact (ht.target h2 he).1 hfree

include ht hd hx in
theorem parentOf_created {e : Nat} (he : e ≠ x) :
    parentOf (created N d name x type major minor) e = parentOf N e := by
  unfold parentOf
  by_cases hed : e = d
  · have := two_le_freeEntry ht hd
    rw [hed, entryAt_created ht hd hx, if_neg (by omega)]
  · rw [created_of_ne hed he]

include ht hd hx hfree

/-- The entries after a name was created: the earlier ones, the new one, and the first two of a new directory. -/
theorem entry_created {e : Nat} : Entry (created N d name x type major minor) e k j ↔
    Entry N e k j ∨ (e = d ∧ k = freeEntry (N d).data ∧ j = x) ∨
      (type = tDir ∧ e = x ∧ (k = 0 ∧ j = x ∨ k = 1 ∧ j = d)) := by
  have hxd := created_ne hd hfree
  have hd96 := ht.range d (by rw [hd]; decide)
  have hxe : ∀ {k j}, ¬ Entry N x k j := fun h => by
    have := h.dir
    rw [hfree] at this
    exact absurd this (by decide)
  by_cases hex : e = x
  · subst hex
    rw [or_iff_right hxe, or_iff_right fun h => hxd h.1]
    have hnew : created N d name e type major minor e = _ := created_new hd hfree
    obtain ⟨hc, _, h0, h1⟩ := dots_facts (x := e) (d := d) (by omega) hx.2 hd96.2
    have hi0 : (entryAt (dots e d) 0).inum = e := by rw [h0]; rfl
    have hi1 : (entryAt (dots e d) 1).inum = d := by rw [h1]; rfl
    constructor
    · rintro ⟨h1, h2, h3, h4⟩
      rw [hnew] at h1 h2 h3
      dsimp only at h1 h2 h3
      rw [if_pos h1] at h2 h3
      rw [hc] at h2
      refine ⟨h1, rfl, ?_⟩
      obtain rfl | rfl : k = 0 ∨ k = 1 := by omega
      · exact Or.inl ⟨rfl, h3.symm.trans hi0⟩
      · exact Or.inr ⟨rfl, h3.symm.trans hi1⟩
    · rintro ⟨hty, _, hkj⟩
      have hdata : (created N d name e type major minor e).data = dots e d := by
        rw [hnew]
        exact if_pos hty
      refine ⟨by rw [hnew]; exact hty, ?_, ?_, ?_⟩
      · rw [hdata, hc]
        omega
      · rw [hdata]
        rcases hkj with ⟨rfl, rfl⟩ | ⟨rfl, rfl⟩
        · exact hi0
        · exact hi1
      · omega
  · by_cases hed : e = d
    · subst hed
      obtain ⟨hcount, _⟩ : entryCount (created N e name x type major minor e).data = _ ∧ _ := entryCount_created ht hd
      have hat : ∀ j, entryAt (created N e name x type major minor e).data j = _ := entryAt_created ht hd hx
      have hle := freeEntry_le (N e).data
      constructor
      · rintro ⟨_, h2, h3, h4⟩
        rw [hat] at h3
        rw [hcount] at h2
        by_cases hk : k = freeEntry (N e).data
        · rw [if_pos hk] at h3
          exact Or.inr (Or.inl ⟨rfl, hk, h3.symm⟩)
        · rw [if_neg hk] at h3
          exact Or.inl ⟨hd, by omega, h3, h4⟩
      · rintro (⟨h1, h2, h3, h4⟩ | ⟨_, rfl, rfl⟩ | ⟨_, h, _⟩)
        · have hk : k ≠ freeEntry (N e).data := by
            rintro rfl
            exact h4 (h3.symm.trans (freeEntry_free h2))
          refine ⟨by rw [created_dir]; exact hd, ?_, ?_, h4⟩
          · rw [hcount]
            omega
          · rw [hat, if_neg hk]
            exact h3
        · refine ⟨by rw [created_dir]; exact hd, ?_, ?_, by omega⟩
          · rw [hcount]
            omega
          · rw [hat, if_pos rfl]
            rfl
        · exact absurd h hex
    · rw [entry_congr (created_of_ne hed hex)]
      tauto

theorem named_created (hj : j ≠ x) : Named (created N d name x type major minor) j ↔ Named N j := by
  constructor
  · rintro ⟨e, k, h2, he⟩
    rcases (entry_created ht hd hx hfree).mp he with he | ⟨_, _, h⟩ | ⟨_, _, h⟩
    · exact ⟨e, k, h2, he⟩
    · exact absurd h hj
    · omega
  · rintro ⟨e, k, h2, he⟩
    exact ⟨e, k, h2, (entry_created ht hd hx hfree).mpr (Or.inl he)⟩

theorem subdirs_created {e : Nat} (he : (N e).type = tDir) : subdirs (created N d name x type major minor) e =
    if e = d ∧ type = tDir then insert (freeEntry (N d).data) (subdirs N e) else subdirs N e := by
  have hex : e ≠ x := by
    rintro rfl
    rw [hfree] at he
    exact absurd he (by decide)
  have h2f := two_le_freeEntry ht hd
  have hno : ∀ {k j}, 2 ≤ k → Entry N e k j → j ≠ x := fun h2 h hj => not_named_free ht hfree (hj ▸ ⟨e, _, h2, h⟩)
  ext k
  have hiff : k ∈ subdirs (created N d name x type major minor) e ↔
      k ∈ subdirs N e ∨ e = d ∧ type = tDir ∧ k = freeEntry (N d).data := by
    rw [mem_subdirs_iff (by rw [created_type hd hfree, if_neg hex]; exact he), mem_subdirs_iff he]
    constructor
    · rintro ⟨h2, j, hj, hty⟩
      rw [created_type hd hfree] at hty
      rcases (entry_created ht hd hx hfree).mp hj with hj | ⟨h1, h2', rfl⟩ | ⟨_, h, _⟩
      · rw [if_neg (hno h2 hj)] at hty
        exact Or.inl ⟨h2, j, hj, hty⟩
      · rw [if_pos rfl] at hty
        exact Or.inr ⟨h1, hty, h2'⟩
      · exact absurd h hex
    · rintro (⟨h2, j, hj, hty⟩ | ⟨rfl, hty, rfl⟩)
      · refine ⟨h2, j, (entry_created ht hd hx hfree).mpr (Or.inl hj), ?_⟩
        rw [created_type hd hfree, if_neg (hno h2 hj)]
        exact hty
      · refine ⟨h2f, x, (entry_created ht hd hx hfree).mpr (Or.inr (Or.inl ⟨rfl, rfl, rfl⟩)), ?_⟩
        rw [created_type hd hfree, if_pos rfl]
        exact hty
  rw [hiff]
  split
  · rw [Finset.mem_insert]
    tauto
  · tauto

include hlook in
/-- The new entry has a name of its own. -/
theorem names_created {e k k' j j' : Nat} (he : Entry (created N d name x type major minor) e k j)
    (he' : Entry (created N d name x type major minor) e k' j')
    (hname : nameOf (entryAt (created N d name x type major minor e).data k).name =
      nameOf (entryAt (created N d name x type major minor e).data k').name) : k = k' := by
  have hxd := created_ne hd hfree
  have hd96 := ht.range d (by rw [hd]; decide)
  by_cases hex : e = x
  · -- a new directory binds `.` and `..`
    subst hex
    have hnot : ∀ {k j}, ¬ Entry N e k j := fun h => by
      have := h.dir
      rw [hfree] at this
      exact absurd this (by decide)
    have hcase : ∀ {k j}, Entry (created N d name e type major minor) e k j → type = tDir ∧ (k = 0 ∨ k = 1) := by
      intro k j h
      rcases (entry_created ht hd hx hfree).mp h with h | ⟨h, _⟩ | ⟨h, _, h'⟩
      · exact absurd h hnot
      · exact absurd h hxd
      · exact ⟨h, by omega⟩
    obtain ⟨hty, hk⟩ := hcase he
    obtain ⟨_, hk'⟩ := hcase he'
    obtain ⟨_, _, h0, h1⟩ := dots_facts (x := e) (d := d) (by omega) hx.2 hd96.2
    have hdata : (created N d name e type major minor e).data = dots e d := by
      rw [created_new hd hfree]
      exact if_pos hty
    have hne : nameOf (entryAt (dots e d) 0).name ≠ nameOf (entryAt (dots e d) 1).name := by
      rw [h0, h1, nameOf_newEntry, nameOf_newEntry]
      decide
    rw [hdata] at hname
    rcases hk with rfl | rfl <;> rcases hk' with rfl | rfl
    · rfl
    · exact absurd hname hne
    · exact absurd hname.symm hne
    · rfl
  · by_cases hed : e = d
    · subst hed
      have hfresh : ∀ {k j}, Entry N e k j → nameOf (entryAt (N e).data k).name ≠ nameOf name := fun h h' =>
        lookup_eq_none.mp hlook _ h.lt ⟨h.live_at, h'⟩
      have hcase : ∀ {k j}, Entry (created N e name x type major minor) e k j →
          (k ≠ freeEntry (N e).data ∧ Entry N e k j) ∨ k = freeEntry (N e).data := by
        intro k j h
        rcases (entry_created ht hd hx hfree).mp h with h | ⟨_, h, _⟩ | ⟨_, h, _⟩
        · refine Or.inl ⟨?_, h⟩
          rintro rfl
          exact h.live_at (freeEntry_free h.lt)
        · exact Or.inr h
        · exact absurd h hex
      rw [entryAt_created ht hd hx, entryAt_created ht hd hx] at hname
      rcases hcase he with ⟨hk, h⟩ | hk <;> rcases hcase he' with ⟨hk', h'⟩ | hk'
      · rw [if_neg hk, if_neg hk'] at hname
        exact ht.names h h' hname
      · rw [if_neg hk, if_pos hk', nameOf_newEntry] at hname
        exact absurd hname (hfresh h)
      · rw [if_pos hk, if_neg hk', nameOf_newEntry] at hname
        exact absurd hname.symm (hfresh h')
      · rw [hk, hk']
    · have hsame : created N d name x type major minor e = N e := created_of_ne hed hex
      rw [hsame] at hname
      exact ht.names ((entry_congr hsame).mp he) ((entry_congr hsame).mp he') hname

theorem dirLinks_created {e : Nat} (he : (N e).type = tDir) : ∃ c : Nat, c ≤ 1 ∧
    (e = 1 ∨ Named (created N d name x type major minor) e → c = 1) ∧
    (created N d name x type major minor e).nlink = c + (subdirs (created N d name x type major minor) e).card := by
  have hex : e ≠ x := by
    rintro rfl
    rw [hfree] at he
    exact absurd he (by decide)
  obtain ⟨c, hc1, hc, hl⟩ := ht.dirLinks e he
  refine ⟨c, hc1, fun h => hc (h.imp_right (named_created ht hd hx hfree hex).mp), ?_⟩
  rw [subdirs_created ht hd hx hfree he]
  by_cases hed : e = d
  · subst hed
    have hnl : (created N e name x type major minor e).nlink =
        if type = tDir then (N e).nlink + 1 else (N e).nlink := by rw [created_dir]
    rw [hnl]
    by_cases hty : type = tDir
    · have hnot : freeEntry (N e).data ∉ subdirs N e := fun h => by
        obtain ⟨hlt, _, hlive, _⟩ := mem_subdirs.mp h
        exact hlive (freeEntry_free hlt)
      rw [if_pos hty, if_pos ⟨rfl, hty⟩, Finset.card_insert_of_notMem hnot]
      push_cast
      omega
    · rw [if_neg hty, if_neg fun h => hty h.2]
      exact hl
  · rw [if_neg fun h => hed h.1, created_of_ne hed hex]
    exact hl

include hlook htype

theorem Tree.created : Tree (created N d name x type major minor) := by
  have hxd := created_ne hd hfree
  have hd96 := ht.range d (by rw [hd]; decide)
  have hx1 : x ≠ 1 := by
    rintro rfl
    rw [ht.root] at hfree
    exact absurd hfree (by decide)
  have hty : ∀ j, (Fs.created N d name x type major minor j).type = _ := created_type hd hfree
  have hnew : Fs.created N d name x type major minor x = _ := created_new hd hfree
  have h2f := two_le_freeEntry ht hd
  obtain ⟨hdc, hdm, hd0, hd1⟩ := dots_facts (x := x) (d := d) (by omega) hx.2 hd96.2
  -- a directory is an earlier one, or the new one
  have hcase : ∀ {e}, (Fs.created N d name x type major minor e).type = tDir →
      (e = x ∧ (Fs.created N d name x type major minor e).data = dots x d) ∨ (e ≠ x ∧ (N e).type = tDir) := by
    intro e he
    by_cases hex : e = x
    · subst hex
      rw [hnew] at he ⊢
      exact Or.inl ⟨rfl, if_pos he⟩
    · rw [hty, if_neg hex] at he
      exact Or.inr ⟨hex, he⟩
  -- the first two entries of an earlier directory stay
  have hat : ∀ {e}, e ≠ x → ∀ k < 2, entryAt (Fs.created N d name x type major minor e).data k =
    entryAt (N e).data k := by
    intro e hex k hk
    by_cases hed : e = d
    · rw [hed, entryAt_created ht hd hx, if_neg (by omega)]
    · rw [created_of_ne hed hex]
  refine
    { root := by rw [hty, if_neg (Ne.symm hx1)]; exact ht.root
      range := ?range
      free := ?free
      size := ?size
      dot := ?dot
      dotDot := ?dotDot
      inum := ?inum
      names := fun he he' hname => names_created ht hd hlook hx hfree he he' hname
      target := ?target
      unique := ?unique
      parent := ?parent
      rootParent := by rw [parentOf_created ht hd hx (Ne.symm hx1)]; exact ht.rootParent
      dirLinks := ?dirLinks
      fileLinks := ?fileLinks }
  case range =>
    intro j hj
    by_cases hjx : j = x
    · rw [hjx]
      exact hx
    · rw [hty, if_neg hjx] at hj
      exact ht.range j hj
  case free =>
    intro j hj
    rw [hty] at hj
    by_cases hjx : j = x
    · rw [if_pos hjx] at hj
      exact absurd hj htype
    · rw [if_neg hjx] at hj
      have hjd : j ≠ d := by
        rintro rfl
        rw [hd] at hj
        exact absurd hj (by decide)
      rw [created_of_ne hjd hjx]
      exact ht.free j hj
  case size =>
    intro e he
    rcases hcase he with ⟨_, hdata⟩ | ⟨hex, hdir⟩
    · rw [hdata, hdc]
      exact ⟨hdm, le_refl 2⟩
    · by_cases hed : e = d
      · obtain ⟨hc, hm⟩ : entryCount (Fs.created N d name x type major minor d).data = _ ∧ _ := entryCount_created ht hd
        rw [hed, hc]
        exact ⟨hm, by omega⟩
      · rw [created_of_ne hed hex]
        exact ht.size e hdir
  case dot =>
    intro e he
    rcases hcase he with ⟨rfl, hdata⟩ | ⟨hex, hdir⟩
    · rw [hdata, hd0, nameOf_newEntry]
      exact ⟨rfl, by decide⟩
    · rw [hat hex 0 (by decide)]
      exact ht.dot e hdir
  case dotDot =>
    intro e he
    rcases hcase he with ⟨rfl, hdata⟩ | ⟨hex, hdir⟩
    · rw [parentOf, hdata, hd1, nameOf_newEntry]
      exact ⟨show d ≠ 0 by omega, by decide⟩
    · rw [parentOf_created ht hd hx hex, hat hex 1 (by decide)]
      exact ht.dotDot e hdir
  case inum =>
    intro e k j he
    rcases (entry_created ht hd hx hfree).mp he with he | ⟨_, _, rfl⟩ | ⟨_, _, h⟩
    · exact ht.inum he
    · exact hx.2
    · omega
  case target =>
    intro e k j h2 he
    rcases (entry_created ht hd hx hfree).mp he with he | ⟨rfl, _, rfl⟩ | ⟨_, _, h⟩
    · obtain ⟨h1, h2'⟩ := ht.target h2 he
      rw [hty]
      exact ⟨by split <;> assumption, h2'⟩
    · rw [hty, if_pos rfl]
      exact ⟨htype, hx1, hxd⟩
    · omega
  case unique =>
    intro e k e' k' j h2 h2' he he'
    have hno : ∀ {e k}, 2 ≤ k → ¬ Entry N e k x := fun h2 h => not_named_free ht hfree ⟨_, _, h2, h⟩
    rcases (entry_created ht hd hx hfree).mp he with he | ⟨he, hk, hj⟩ | ⟨_, _, h⟩ <;>
      rcases (entry_created ht hd hx hfree).mp he' with he' | ⟨he', hk', hj'⟩ | ⟨_, _, h'⟩
    · exact ht.unique h2 h2' he he'
    · exact absurd (hj' ▸ he) (hno h2)
    · omega
    · exact absurd (hj ▸ he') (hno h2')
    · exact ⟨he.trans he'.symm, hk.trans hk'.symm⟩
    · omega
    · omega
    · omega
    · omega
  case parent =>
    intro e k j h2 he hj
    rcases (entry_created ht hd hx hfree).mp he with he' | ⟨rfl, rfl, rfl⟩ | ⟨_, _, h⟩
    · have hjx : j ≠ x := by
        rintro rfl
        exact not_named_free ht hfree ⟨e, k, h2, he'⟩
      rw [hty, if_neg hjx] at hj
      rw [parentOf_created ht hd hx hjx]
      exact ht.parent h2 he' hj
    · rcases hcase hj with ⟨_, hdata⟩ | ⟨h, _⟩
      · rw [parentOf, hdata, hd1]
        rfl
      · exact absurd rfl h
    · omega
  case dirLinks =>
    intro e he
    rcases hcase he with ⟨rfl, hdata⟩ | ⟨hex, hdir⟩
    · have hempty : subdirs (Fs.created N d name e type major minor) e = ∅ := by
        refine Finset.eq_empty_of_forall_notMem fun k hk => ?_
        obtain ⟨hlt, h2, _⟩ := mem_subdirs.mp hk
        rw [hdata, hdc] at hlt
        omega
      exact ⟨1, le_refl 1, fun _ => rfl, by rw [hempty, hnew]; rfl⟩
    · exact dirLinks_created ht hd hx hfree hdir
  case fileLinks =>
    intro j hj hj'
    by_cases hjx : j = x
    · subst hjx
      rw [hnew]
      exact ⟨Or.inr rfl, fun _ => rfl⟩
    · rw [hty, if_neg hjx] at hj hj'
      have hjd : j ≠ d := by
        rintro rfl
        exact hj' hd
      rw [created_of_ne hjd hjx, named_created ht hd hx hfree hjx]
      exact ht.fileLinks j hj hj'

end

/-! ## The data of a file is overwritten -/

/-! ## The data of a file changes -/

theorem setData_type (data : List UInt8) (j : Nat) : (upd N i { N i with data := data } j).type = (N j).type := by
  rw [upd_apply]
  split
  · rw [‹j = i›]
  · rfl

theorem setData_nlink (data : List UInt8) (j : Nat) : (upd N i { N i with data := data } j).nlink = (N j).nlink := by
  rw [upd_apply]
  split
  · rw [‹j = i›]
  · rfl

theorem setData_dir (hfile : (N i).type ≠ tDir) (data : List UInt8) (hd : (N d).type = tDir) :
    upd N i { N i with data := data } d = N d := by
  refine upd_of_ne ?_ _ _
  rintro rfl
  exact hfile hd

theorem entry_setData (hfile : (N i).type ≠ tDir) (data : List UInt8) :
    Entry (upd N i { N i with data := data }) d k j ↔ Entry N d k j := by
  by_cases hd : (N d).type = tDir
  · exact entry_congr (setData_dir hfile data hd)
  · refine ⟨fun h => absurd h.dir ?_, fun h => absurd h.dir hd⟩
    rw [setData_type]
    exact hd

theorem named_setData (hfile : (N i).type ≠ tDir) (data : List UInt8) :
    Named (upd N i { N i with data := data }) j ↔ Named N j := by
  simp only [Named, entry_setData hfile]

theorem parentOf_setData (hfile : (N i).type ≠ tDir) (data : List UInt8) (hd : (N d).type = tDir) :
    parentOf (upd N i { N i with data := data }) d = parentOf N d := by
  rw [parentOf, setData_dir hfile data hd]
  rfl

/-- The tree does not depend on the data of files. -/
theorem Tree.setData (ht : Tree N) (hfile : (N i).type ≠ tDir) (h0 : (N i).type ≠ 0) (data : List UInt8) :
    Tree (upd N i { N i with data := data }) := by
  have hty := setData_type (N := N) (i := i) data
  have hnl := setData_nlink (N := N) (i := i) data
  have hdata : ∀ {e}, (N e).type = tDir → (upd N i { N i with data := data } e).data = (N e).data := fun he => by
    rw [setData_dir hfile data he]
  have hent : ∀ {e k j}, Entry (upd N i { N i with data := data }) e k j ↔ Entry N e k j := entry_setData hfile data
  have hnamed : ∀ j, Named (upd N i { N i with data := data }) j ↔ Named N j := fun _ => named_setData hfile data
  have hpar : ∀ {e}, (N e).type = tDir → parentOf (upd N i { N i with data := data }) e = parentOf N e :=
    fun he => parentOf_setData hfile data he
  have hsub : ∀ {e}, (N e).type = tDir → subdirs (upd N i { N i with data := data }) e = subdirs N e := by
    intro e he
    ext k
    rw [mem_subdirs_iff (by rw [hty]; exact he), mem_subdirs_iff he]
    simp only [hent, hty]
  exact
    { root := by rw [hty]; exact ht.root
      range := fun j hj => ht.range j (by rwa [hty] at hj)
      free := fun j hj => by
        rw [hty] at hj
        rw [upd_of_ne]
        · exact ht.free j hj
        · rintro rfl
          exact h0 hj
      size := fun e he => by
        rw [hty] at he
        rw [hdata he]
        exact ht.size e he
      dot := fun e he => by
        rw [hty] at he
        rw [hdata he]
        exact ht.dot e he
      dotDot := fun e he => by
        rw [hty] at he
        rw [hpar he, hdata he]
        exact ht.dotDot e he
      inum := fun he => ht.inum (hent.mp he)
      names := fun he he' hname => by
        have h1 := hent.mp he
        rw [hdata h1.dir] at hname
        exact ht.names h1 (hent.mp he') hname
      target := fun h2 he => by
        rw [hty]
        exact ht.target h2 (hent.mp he)
      unique := fun h2 h2' he he' => ht.unique h2 h2' (hent.mp he) (hent.mp he')
      parent := fun h2 he hj => by
        rw [hty] at hj
        rw [hpar hj]
        exact ht.parent h2 (hent.mp he) hj
      rootParent := by rw [hpar ht.root]; exact ht.rootParent
      dirLinks := fun e he => by
        rw [hty] at he
        rw [hsub he, hnl, hnamed]
        exact ht.dirLinks e he
      fileLinks := fun j hj hj' => by
        rw [hty] at hj hj'
        rw [hnl, hnamed]
        exact ht.fileLinks j hj hj' }

end Xv6.Fs
