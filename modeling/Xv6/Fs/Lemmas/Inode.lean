import Xv6.Fs.Lemmas.View

/-!
# The inode layer on views

One specification for each function of the inode layer: from a well-formed state it gives a
well-formed state whose view is the old one changed by the operation that the function stands for.
-/

namespace Xv6.Fs

open Xv6.Lib

variable {s : State} {ip : Slot} {inodes : Slot → Inode} {D : Nat → Dinode} {x : Inode} {d : Dinode}

/-! ## Entries of the cache -/

theorem EntryWF.upd (h : EntryWF x D) {i : Nat} (hi : x.inum ≠ i) : EntryWF x (upd D i d) := by
  refine ⟨h.dev, h.inum, ?_, ?_⟩
  · rw [upd_of_ne hi]
    exact h.copy
  · rw [upd_of_ne hi]
    exact h.typed

theorem CacheWF.ne (h : CacheWF inodes D) (href : 0 < (inodes ip).ref) {jp : Slot} (hj : jp ≠ ip)
    (hjr : 0 < (inodes jp).ref) : (inodes jp).inum ≠ (inodes ip).inum :=
  fun he => hj (h.unique jp ip hjr href he)

/-- One entry changes, perhaps together with inodes that the other entries do not copy. -/
theorem CacheWF.set {D' : Nat → Dinode} (h : CacheWF inodes D)
    (hD : ∀ jp, jp ≠ ip → 0 < (inodes jp).ref → EntryWF (inodes jp) D') (hx : 0 < x.ref → EntryWF x D')
    (huniq : 0 < x.ref → ∀ jp, jp ≠ ip → 0 < (inodes jp).ref → (inodes jp).inum ≠ x.inum)
    (hunl : x.ref = 0 → x.locked = false) : CacheWF (upd inodes ip x) D' := by
  refine ⟨fun jp => ?_, fun jp kp => ?_, fun jp => ?_⟩
  · rw [upd_apply]
    split
    · exact hx
    · exact hD jp ‹_›
  · rw [upd_apply, upd_apply]
    split <;> split
    · exact fun _ _ _ => by rw [‹jp = ip›, ‹kp = ip›]
    · exact fun h1 h2 he => absurd he.symm (huniq h1 kp ‹_› h2)
    · exact fun h1 h2 he => absurd he (huniq h2 jp ‹_› h1)
    · exact h.unique jp kp
  · rw [upd_apply]
    split
    · exact hunl
    · exact h.unlocked jp

/-- An entry in use changes only in its count and its lock. -/
theorem CacheWF.touch (h : CacheWF inodes D) (href : 0 < (inodes ip).ref) (r : Nat) (l : Bool)
    (hunl : r = 0 → l = false) : CacheWF (upd inodes ip { inodes ip with ref := r, locked := l }) D :=
  have he := h.entry ip href
  h.set (fun jp _ => h.entry jp) (fun _ => ⟨he.dev, he.inum, he.copy, he.typed⟩) (fun _ _ => h.ne href) hunl

/-- The inode of an entry in use changes in the cache and on disk. -/
theorem CacheWF.store (h : CacheWF inodes D) (href : 0 < (inodes ip).ref) (hd : d.type ≠ 0) :
    CacheWF (upd inodes ip { inodes ip with toDinode := d }) (upd D (inodes ip).inum d) := by
  have he := h.entry ip href
  refine h.set (fun jp hj hjr => (h.entry jp hjr).upd (h.ne href hj hjr)) (fun _ => ⟨he.dev, he.inum, ?_, ?_⟩)
    (fun _ _ => h.ne href) (h.unlocked ip)
  · exact fun _ => (upd_self D _ d).symm
  · intro _
    change (upd D (inodes ip).inum d (inodes ip).inum).type ≠ 0
    rwa [upd_self]

/-- An entry loses its last reference while its inode changes. -/
theorem CacheWF.free (h : CacheWF inodes D) (href : 0 < (inodes ip).ref) (hx : x.ref = 0)
    (hl : x.locked = false) : CacheWF (upd inodes ip x) (upd D (inodes ip).inum d) :=
  h.set (fun jp hj hjr => (h.entry jp hjr).upd (h.ne href hj hjr)) (fun h0 => by omega) (fun h0 => by omega)
    fun _ => hl

/-- An inode changes that no entry has a copy of. -/
theorem CacheWF.fresh (h : CacheWF inodes D) {i : Nat} (hi : (D i).type = 0) : CacheWF inodes (upd D i d) := by
  refine ⟨fun jp hjr => ?_, h.unique, h.unlocked⟩
  have he := h.entry jp hjr
  have hne : (inodes jp).valid = true → (inodes jp).inum ≠ i := by
    rintro hv rfl
    exact he.typed hv hi
  refine ⟨he.dev, he.inum, fun hv => ?_, fun hv => ?_⟩
  · rw [upd_of_ne (hne hv)]
    exact he.copy hv
  · rw [upd_of_ne (hne hv)]
    exact he.typed hv

/-! ## Views of changed states -/

theorem view_setInode (s : State) (ip : Slot) (x : Inode) :
    (s.withInode ip x).view = s.view.setCell ip x.cell := by
  refine View.ext rfl (funext fun jp => ?_) rfl
  exact map_upd Inode.cell s.inodes ip x jp

theorem State.WF.setInode (h : s.WF) (hc : CacheWF (upd s.inodes ip x) s.dinode) :
    (s.withInode ip x).WF := ⟨h.sb, h.disk, hc⟩

theorem State.WF.dinode_eq (h : s.WF) : s.dinode = dinodeOf stdSb s.disk := by
  rw [State.dinode, h.sb]

section

variable (h : s.WF) (href : 0 < (s.cell ip).ref) (hv : (s.cell ip).valid = true)

include h href hv

/-- The copy of a valid entry is its inode on disk. -/
theorem State.WF.copy :
    (s.inodes ip).toDinode = s.dinode (s.cell ip).inum := (h.cache.entry ip href).copy hv

theorem State.WF.typed : (s.view.nodeAt ip).type ≠ 0 := (h.cache.entry ip href).typed hv

theorem State.WF.type_eq :
    (s.inodes ip).type = (s.view.nodeAt ip).type := by
  rw [h.copy href hv]
  rfl

theorem State.WF.nlink_eq :
    (s.inodes ip).nlink = (s.view.nodeAt ip).nlink := by
  rw [h.copy href hv]
  rfl

theorem State.WF.size_eq :
    (s.inodes ip).size = (s.view.nodeAt ip).data.length := by
  rw [h.copy href hv]
  exact (nodeOf_size _ _).symm

end

/-! ## Locks and references -/

theorem ilock_spec (h : s.WF) (href : 0 < (s.cell ip).ref) :
    Wp (ilock ip) (fun _ s' => s'.WF ∧ s'.view = s.view.lock ip ∧ (s.view.nodeAt ip).type ≠ 0)
      (fun e => e = .sleep ∧ (s.cell ip).locked = true ∨
        e = .panic "ilock: no type" ∧ (s.view.nodeAt ip).type = 0) s := by
  have he := h.cache.entry ip href
  have hr : ¬ (s.inodes ip).ref < 1 := Nat.not_lt.mpr href
  unfold ilock acquireSleep
  rw [wp_bind, wp_get, wp_bind, wp_panicIf]
  refine ⟨fun h0 => absurd h0 hr, fun _ => ?_⟩
  rw [wp_bind, wp_bind, wp_get, wp_ite]
  refine ⟨fun hl => Or.inl ⟨rfl, hl⟩, fun _ => ?_⟩
  rw [wp_modifyInode, wp_ite]
  refine ⟨fun hv => ⟨h.setInode ?_, ?_, he.typed hv⟩, fun hv => ?_⟩
  · exact h.cache.touch href _ _ fun h0 => absurd h0 (Nat.ne_of_gt href)
  · rw [view_setInode]
    simp only [View.lock, Inode.cell]
    congr 1
    exact Cell.ext rfl rfl rfl hv
  · dsimp only
    have hblk : iblock (s.inodes ip).inum s.sb = (s.inodes ip).inum / 32 + 3 := by
      rw [h.sb]
      rfl
    have hd : getDinode (s.disk ((s.inodes ip).inum / 32 + 3)) ((s.inodes ip).inum % ipb) =
        s.dinode (s.inodes ip).inum := by
      rw [h.dinode_eq, dinodeOf_lt he.inum.2]
      rfl
    have hi := he.inum
    rw [he.dev, hblk, wp_bind, wp_bread (by omega), wp_bind, wp_modifyInode, wp_panicIf,
      State.withInode_disk, hd]
    rw [State.withInode_self, State.withInode_withInode]
    refine ⟨fun h0 => Or.inr ⟨rfl, h0⟩, fun h0 => ⟨h.setInode ?_, ?_, h0⟩⟩
    · exact h.cache.set (fun jp _ => h.cache.entry jp) (fun _ => ⟨rfl, he.inum, fun _ => rfl, fun _ => h0⟩)
        (fun _ _ => h.cache.ne href) fun h0 => absurd h0 (Nat.ne_of_gt href)
    · rw [view_setInode]
      rfl

theorem iunlock_spec (h : s.WF) (href : 0 < (s.cell ip).ref) (hl : (s.cell ip).locked = true) :
    Wp (iunlock ip) (fun _ s' => s'.WF ∧ s'.view = s.view.unlock ip) (fun _ => False) s := by
  unfold iunlock releaseSleep
  rw [wp_bind, wp_get, wp_bind, wp_panicIf]
  refine ⟨fun hbad => ?_, fun _ => ?_⟩
  · rcases hbad with h0 | h0
    · exact Bool.false_ne_true (h0.symm.trans hl)
    · exact absurd h0 (Nat.not_lt.mpr href)
  · rw [wp_modifyInode]
    refine ⟨h.setInode (h.cache.touch href _ _ fun _ => rfl), ?_⟩
    rw [view_setInode]
    rfl

theorem idup_spec (h : s.WF) (href : 0 < (s.cell ip).ref) :
    Wp (idup ip) (fun r s' => r = ip ∧ s'.WF ∧ s'.view = s.view.hold ip) (fun _ => False) s := by
  unfold idup
  rw [wp_bind, wp_modifyInode]
  refine ⟨rfl, h.setInode (h.cache.touch href _ _ fun h0 => by omega), ?_⟩
  rw [view_setInode]
  rfl

theorem iget_spec (h : s.WF) {inum : Nat} (hi : 1 ≤ inum) (hi' : inum < 96) :
    Wp (iget 0 inum) (fun r s' => s'.WF ∧ s.view.Gets inum r s'.view)
      (fun e => e = .panic "iget: no empty slot" ∧ ∀ jp, 0 < (s.cell jp).ref) s := by
  unfold iget
  rw [wp_bind, wp_get]
  split
  · rename_i r hr
    have hp := List.find?_some hr
    simp only [decide_eq_true_eq] at hp
    rw [wp_bind, wp_modifyInode]
    refine ⟨h.setInode (h.cache.touch hp.1 _ _ fun h0 => by omega), Or.inl ⟨hp.1, hp.2.2, ?_⟩⟩
    rw [view_setInode]
    rfl
  · rename_i hnone
    have hnone : ∀ jp, 0 < (s.inodes jp).ref → (s.inodes jp).inum ≠ inum := by
      intro jp hjr he
      have := List.find?_eq_none.mp hnone jp (List.mem_finRange jp)
      simp [hjr, (h.cache.entry jp hjr).dev, he] at this
    split
    · rename_i hfull
      refine ⟨rfl, fun jp => Nat.pos_of_ne_zero (show (s.inodes jp).ref ≠ 0 from ?_)⟩
      simpa using List.find?_eq_none.mp hfull jp (List.mem_finRange jp)
    · rename_i r hr
      have hp := List.find?_some hr
      simp only [decide_eq_true_eq] at hp
      rw [wp_bind, wp_modifyInode]
      refine ⟨h.setInode (h.cache.set (fun jp _ => h.cache.entry jp) (fun _ => ⟨rfl, ⟨hi, hi'⟩, ?_, ?_⟩)
        (fun _ jp _ => hnone jp) fun h0 => absurd h0 Nat.one_ne_zero), Or.inr ⟨hnone, hp, ?_⟩⟩
      · exact fun hv => absurd hv Bool.false_ne_true
      · exact fun hv => absurd hv Bool.false_ne_true
      · rw [view_setInode]
        simp only [Inode.cell, h.cache.unlocked r hp]

/-! ## Inodes on disk -/

/-- The inode `i` is stored on a disk whose files are laid out for it. -/
theorem State.WF.store (h : s.WF) (disk : Nat → Bytes) {inodes : Slot → Inode} {i : Nat} (hi : i < 96)
    (hhead : ∀ c < 6, c ≠ 2 → disk c = s.disk c) (hfit : d.Fits)
    (hf : Files disk (upd s.dinode i d) (shape fun j => blocksOf (upd s.dinode i d j).size))
    (hsize : d.size ≤ 525 * 4096) (hfree : d.type = 0 → d.size = 0)
    (hc : CacheWF inodes (upd s.dinode i d)) :
    { s with disk := stored disk i d, inodes := inodes }.WF ∧
      { s with disk := stored disk i d, inodes := inodes }.node = fun j => nodeOf disk (upd s.dinode i d j) := by
  have hD : dinodeOf stdSb disk = s.dinode := by rw [dinodeOf_congr hhead, h.dinode_eq]
  have hcases : ∀ P : Dinode → Prop, P d → (∀ j, P (s.dinode j)) → ∀ j, P (upd s.dinode i d j) := by
    intro P h1 h2 j
    rw [upd_apply]
    split
    · exact h1
    · exact h2 j
  rw [← hD] at hf hcases
  obtain ⟨hwf, hnode⟩ := DiskWF.store disk hi hfit hf
    (hcases (fun d => d.size ≤ 525 * 4096) hsize fun j => by rw [hD, h.dinode_eq]; exact h.disk.size_le j)
    (hcases (fun d => d.type = 0 → d.size = 0) hfree fun j => by rw [hD, h.dinode_eq]; exact h.disk.free j)
  have hD' : dinodeOf s.sb (stored disk i d) = upd s.dinode i d := by
    rw [h.sb, dinodeOf_stored hi hfit, hD]
  refine ⟨⟨h.sb, hwf, ?_⟩, ?_⟩
  · rw [State.dinode, hD']
    exact hc
  · funext j
    rw [hD] at hnode
    rw [← hnode j, State.node, State.dinode, h.sb]

theorem State.WF.files (h : s.WF) : Files s.disk s.dinode (shape fun i => blocksOf (s.dinode i).size) := by
  rw [h.dinode_eq]
  exact h.disk.files

theorem State.WF.fits (h : s.WF) (i : Nat) : (s.dinode i).Fits := by
  rw [h.dinode_eq]
  exact dinodeOf_fits _ _

theorem State.WF.size_le (h : s.WF) (i : Nat) : (s.dinode i).size ≤ 525 * 4096 := by
  rw [h.dinode_eq]
  exact h.disk.size_le i

theorem State.WF.free (h : s.WF) {i : Nat} (hi : (s.dinode i).type = 0) : (s.dinode i).size = 0 := by
  rw [h.dinode_eq] at hi ⊢
  exact h.disk.free i hi

/-- The link count and the device numbers of a cached inode are changed and stored. -/
theorem iupdate_spec (h : s.WF) (href : 0 < (s.cell ip).ref) (hv : (s.cell ip).valid = true) {n : Node}
    (hd : d = { s.dinode (s.cell ip).inum with major := n.major, minor := n.minor, nlink := n.nlink })
    (hn : n.type = (s.view.nodeAt ip).type ∧ n.data = (s.view.nodeAt ip).data)
    (hfit : IsShort n.major ∧ IsShort n.minor ∧ IsShort n.nlink) :
    Wp (iupdate ip) (fun _ s' => s'.WF ∧ s'.view = s.view.setNode (s.cell ip).inum n) (fun _ => False)
      (s.withDinode ip d) := by
  have he := h.cache.entry ip href
  have hi : (s.cell ip).inum < 96 := he.inum.2
  have hf := h.fits (s.cell ip).inum
  have hdfit : d.Fits := by
    rw [hd]
    exact ⟨hf.type, hfit.1, hfit.2.1, hfit.2.2, hf.size, hf.addrs⟩
  have hadd : ∀ j, (upd s.dinode (s.cell ip).inum d j).addrs = (s.dinode j).addrs := by
    intro j
    rw [upd_apply]
    split
    · rw [hd, ‹j = _›]
    · rfl
  have hsz : ∀ j, (upd s.dinode (s.cell ip).inum d j).size = (s.dinode j).size := by
    intro j
    rw [upd_apply]
    split
    · rw [hd, ‹j = _›]
    · rfl
  have hinum : ((s.withDinode ip d).inodes ip).inum = (s.cell ip).inum := by
    simp [State.withDinode, State.withInode, State.cell, Inode.cell]
  rw [wp_iupdate (s := s.withDinode ip d) h.sb (by simpa [State.withDinode, State.withInode] using he.dev)
    (by rw [hinum]; exact hi), hinum]
  have hcache := h.cache.store href (d := d) (by rw [hd]; exact he.typed hv)
  obtain ⟨hwf, hnode⟩ := h.store s.disk hi (fun _ _ _ => rfl) hdfit
    (by simp only [hsz]; exact h.files.of_addrs hadd) (by rw [hd]; exact h.size_le _)
    (fun h0 => absurd h0 (by rw [hd]; exact he.typed hv)) hcache
  have hs : { s.withDinode ip d with disk := stored s.disk (s.cell ip).inum ((s.withDinode ip d).inodes ip).toDinode } =
      { s with
        disk := stored s.disk (s.cell ip).inum d
        inodes := upd s.inodes ip { s.inodes ip with toDinode := d } } := by
    simp [State.withDinode, State.withInode]
  refine ⟨?_, ?_⟩
  · exact hs ▸ hwf
  · refine Eq.trans (congrArg State.view hs) (View.ext ?_ (funext fun jp => ?_) rfl)
    · refine hnode.trans (funext fun j => ?_)
      change _ = upd s.node _ _ j
      rw [upd_apply, upd_apply]
      split
      · rw [hd]
        exact Node.ext hn.1.symm rfl rfl rfl hn.2.symm
      · rfl
    · refine (map_upd Inode.cell s.inodes ip _ jp).trans ?_
      change upd s.cell ip (s.cell ip) jp = s.cell jp
      rw [upd_eta]

/-! ## Releasing -/

/-- The inode that `iput` leaves behind. -/
def Dinode.freed (d : Dinode) : Dinode := { d with type := 0, size := 0, addrs := fun _ => 0 }

theorem Dinode.freed_fits (hd : d.Fits) : d.freed.Fits :=
  ⟨⟨by change -32768 ≤ (0 : Int); decide, by change (0 : Int) < 32768; decide⟩, hd.major, hd.minor, hd.nlink,
    by change 0 < 2 ^ 64; decide, fun _ => by change 0 < 2 ^ 64; decide⟩

/-- Truncation and the cleared type leave a free inode. -/
theorem ifree_spec (ip : Slot) {i : Nat} (h : s.WF) (href : 0 < (s.cell ip).ref) (hv : (s.cell ip).valid = true)
    (hinum : (s.inodes ip).inum = i) :
    Wp (do itrunc ip
           modifyInode ip fun i => { i with type := 0 }
           iupdate ip) (fun _ s' => ∃ disk d, s' = { s with disk := disk }.withDinode ip d ∧
        ∀ x : Inode, x.ref = 0 → x.locked = false → { s with disk := disk, inodes := upd s.inodes ip x }.WF ∧
          { s with disk := disk, inodes := upd s.inodes ip x }.node =
            upd s.node i { s.node i with type := 0, data := [] })
      (fun _ => False) s := by
  have he := h.cache.entry ip href
  have hi : i < 96 := by
    rw [← hinum]
    exact he.inum.2
  have hcopy : (s.inodes ip).toDinode = s.dinode i := by
    rw [← hinum]
    exact he.copy hv
  refine Wp.bind (itrunc_spec h.sb h.files he.dev hcopy hinum hi) ?_
  rintro _ _ ⟨x, rfl, hf⟩
  rw [wp_bind, wp_modifyInode, wp_iupdate]
  rotate_left
  · exact h.sb
  · simpa [State.withDinode, State.withInode] using he.dev
  · simpa [State.withDinode, State.withInode, hinum] using hi
  refine ⟨stored (upd s.disk 2 x) i (s.dinode i).freed, (s.dinode i).freed, ?_, fun y hy hl => ?_⟩
  · simp [State.withDinode, State.withInode, hinum, stored_stored, Dinode.truncated, Dinode.freed]
  · have hshape : (shape fun j => blocksOf (upd s.dinode i (s.dinode i).freed j).size) =
        shape (upd (fun i => blocksOf (s.dinode i).size) i 0) := by
      congr 1
      funext j
      rw [upd_apply, upd_apply]
      split
      · change blocksOf 0 = 0
        decide
      · rfl
    have haddrs : ∀ j, (upd s.dinode i (s.dinode i).freed j).addrs =
      (upd s.dinode i (s.dinode i).truncated j).addrs := by
      intro j
      rw [upd_apply, upd_apply]
      split <;> rfl
    have hfiles := hf.of_addrs haddrs
    have hcache := h.cache.free (d := (s.dinode i).freed) href hy hl
    rw [hinum] at hcache
    obtain ⟨hwf, hnode⟩ := h.store (upd s.disk 2 x) hi (fun c _ h2 => upd_of_ne h2 _ _)
      (Dinode.freed_fits (h.fits i)) (by rw [hshape]; exact hfiles) (Nat.zero_le _) (fun _ => rfl) hcache
    refine ⟨hwf, hnode.trans (funext fun j => ?_)⟩
    rw [upd_apply, upd_apply]
    split
    · rfl
    · by_cases hj : j < 96
      · exact nodeOf_congr rfl fun o ho => h.files.byteAt_bitmap hj (lt_blocksOf ho)
      · rw [State.node, h.dinode_eq, dinodeOf_ge (by omega)]
        rfl

theorem iput_spec (h : s.WF) (href : 0 < (s.cell ip).ref) (hl : (s.cell ip).locked = false) :
    Wp (iput ip) (fun _ s' => s'.WF ∧ s'.view = s.view.drop ip) (fun _ => False) s := by
  have hlocked : ∀ l, CacheWF (upd s.inodes ip { s.inodes ip with locked := l }) s.dinode :=
    fun l => h.cache.touch href _ l fun h0 => absurd h0 (Nat.ne_of_gt href)
  -- the way out when the inode is not freed
  have hkeep : ¬ s.view.Frees ip →
      (s.withInode ip { s.inodes ip with ref := (s.inodes ip).ref - 1, locked := false }).WF ∧
      (s.withInode ip { s.inodes ip with ref := (s.inodes ip).ref - 1, locked := false }).view =
        s.view.drop ip := by
    intro hf
    refine ⟨h.setInode (h.cache.touch href _ _ fun _ => rfl), ?_⟩
    rw [view_setInode, View.drop, if_neg hf]
    rfl
  have hrelease : ∀ t : State, Wp (do releaseSleep ip
                                      modifyInode ip fun i => { i with ref := i.ref - 1 })
      (fun _ s' => s' = t.withInode ip { t.inodes ip with ref := (t.inodes ip).ref - 1, locked := false })
      (fun _ => False) t := by
    intro t
    rw [releaseSleep, wp_bind, wp_modifyInode, wp_modifyInode, State.withInode_self, State.withInode_withInode]
  unfold iput acquireSleep
  rw [wp_bind, wp_bind, wp_get, wp_ite]
  refine ⟨fun h0 => absurd (hl.symm.trans h0) Bool.false_ne_true, fun _ => ?_⟩
  rw [wp_modifyInode, wp_bind, wp_get, State.withInode_self, wp_ite]
  refine ⟨fun hfree => ?_, fun hno => ?_⟩
  · have hnl := h.nlink_eq href hfree.1
    rw [wp_ite]
    refine ⟨fun hone => ?_, fun hmany => ?_⟩
    · have hfr : s.view.Frees ip := ⟨hfree.1, hnl.symm.trans hfree.2, hone⟩
      have hs1 := h.setInode (hlocked true)
      have hspec := ifree_spec ip (i := (s.cell ip).inum) hs1 (by rwa [State.cell, State.withInode_self])
        (by rw [State.cell, State.withInode_self]; exact hfree.1) (by rw [State.withInode_self]; rfl)
      simp only [wp_bind, wp_modifyInode] at hspec ⊢
      refine hspec.post fun _ _ h1 => h1.post ?_
      rintro _ _ ⟨disk, d, rfl, hx⟩
      rw [releaseSleep, wp_modifyInode]
      obtain ⟨hwf, hnode⟩ := hx { s.inodes ip with toDinode := d, ref := 0, locked := false, valid := false } rfl rfl
      have hfinal : ∀ t : State, t = { s with disk := disk }.withInode ip
          { s.inodes ip with toDinode := d, ref := 0, locked := false, valid := false } →
          t.WF ∧ t.view = s.view.drop ip := by
        rintro _ rfl
        simp only [State.withInode, upd_upd] at hwf hnode
        refine ⟨hwf, ?_⟩
        rw [View.drop, if_pos hfr]
        exact View.ext hnode (funext fun jp => map_upd Inode.cell s.inodes ip _ jp) rfl
      exact hfinal _ (by simp [State.withDinode, State.withInode, hone])
    · refine (hrelease _).post ?_
      rintro _ _ rfl
      rw [State.withInode_self, State.withInode_withInode]
      exact hkeep fun hf => hmany hf.2.2
  · refine (hrelease _).post ?_
    rintro _ _ rfl
    rw [State.withInode_self, State.withInode_withInode]
    refine hkeep fun hf => hno ⟨hf.1, ?_⟩
    exact (h.nlink_eq href hf.1).trans hf.2.1

/-! ## Allocating -/

/-- The inode that `ialloc` stores. -/
theorem Dinode.typed_fits {type : Int} (ht : IsShort type) : ({ Dinode.zero with type := type } : Dinode).Fits :=
  have hz := Dinode.zero_fits
  ⟨ht, hz.major, hz.minor, hz.nlink, hz.size, hz.addrs⟩

/-- A free inode becomes a node without contents. -/
theorem State.WF.alloc (h : s.WF) {i : Nat} {type : Int} (hi : i < 96) (hfree : (s.dinode i).type = 0)
    (ht : IsShort type) (hne : type ≠ 0) :
    { s with disk := stored s.disk i { Dinode.zero with type := type } }.WF ∧
      { s with disk := stored s.disk i { Dinode.zero with type := type } }.view =
        s.view.setNode i ⟨type, 0, 0, 0, []⟩ := by
  have hsize := h.free hfree
  have hsz : ∀ j, (upd s.dinode i { Dinode.zero with type := type } j).size = (s.dinode j).size := by
    intro j
    rw [upd_apply]
    split
    · rw [‹j = i›, hsize]
      rfl
    · rfl
  have haddr : ∀ j, (upd s.dinode i { Dinode.zero with type := type } j).addrs = (s.dinode j).addrs := by
    intro j
    rw [upd_apply]
    split
    · rw [‹j = i›, h.files.addrs_eq_zero hi (by simp only [hsize]; decide)]
      rfl
    · rfl
  obtain ⟨hwf, hnode⟩ := h.store s.disk hi (fun _ _ _ => rfl) (Dinode.typed_fits ht)
    (by simp only [hsz]; exact h.files.of_addrs haddr) (Nat.zero_le _) (fun h0 => absurd h0 hne)
    (h.cache.fresh hfree)
  refine ⟨hwf, View.ext (hnode.trans (funext fun j => ?_)) rfl rfl⟩
  change _ = upd s.node i _ j
  rw [upd_apply, upd_apply]
  split <;> rfl

theorem ialloc_spec (h : s.WF) {type : Int} (ht : IsShort type) (hne : type ≠ 0) :
    Wp (ialloc 0 type) (fun ip s' => ∃ i, 1 ≤ i ∧ i < 96 ∧ (s.node i).type = 0 ∧ s'.WF ∧
        (s.view.setNode i ⟨type, 0, 0, 0, []⟩).Gets i ip s'.view)
      (fun e => e = .panic "ialloc: no inodes" ∨ e = .panic "iget: no empty slot") s := by
  unfold ialloc
  rw [wp_bind, wp_get]
  refine wp_loop (fun i t => t = s ∧ 1 ≤ i ∧ i ≤ 96) (fun i => 96 - i) ?_ _ _ _ ⟨rfl, by omega, by omega⟩
    (by rw [h.sb]; decide)
  rintro i t ⟨rfl, h1, h96⟩
  have hblk : iblock i t.sb = i / 32 + 3 := by
    rw [h.sb]
    rfl
  rw [wp_ite, hblk]
  refine ⟨fun hlt => ?_, fun _ => Or.inl rfl⟩
  have hlt : i < 96 := by
    rw [h.sb] at hlt
    exact hlt
  have hd : getDinode (t.disk (i / 32 + 3)) (i % ipb) = t.dinode i := by
    rw [h.dinode_eq, dinodeOf_lt hlt]
    rfl
  rw [wp_bind, wp_bread (by omega), hd, wp_ite]
  refine ⟨fun h0 => ?_, fun _ => ⟨⟨rfl, by omega, hlt⟩, by omega⟩⟩
  obtain ⟨hwf, hview⟩ := h.alloc hlt h0 ht hne
  rw [wp_bind, wp_bwrite]
  refine Wp.seq (iget_spec hwf h1 hlt) (fun e he => Or.inr he.1) ?_
  rintro ip s' ⟨hwf', hgets⟩
  rw [hview] at hgets
  exact ⟨i, h1, hlt, h0, hwf', hgets⟩

/-! ## Contents -/

theorem readi_view (h : s.WF) (href : 0 < (s.cell ip).ref) (hv : (s.cell ip).valid = true)
    (htype : (s.view.nodeAt ip).type ≠ tDev) {off n : Nat} (hoff : off < 2 ^ 64) (hn : n < 2 ^ 64) :
    Wp (readi ip off n) (fun r s' => s' = s ∧ r =
        if (s.view.nodeAt ip).data.length < off ∨ 2 ^ 64 ≤ off + n then none
        else some (((s.view.nodeAt ip).data.drop off).take n)) (fun _ => False) s := by
  have he := h.cache.entry ip href
  have hsize := h.size_le (s.cell ip).inum
  refine (readi_spec h.files he.dev (he.copy hv) he.inum.2 (le_refl _) ?_ htype hoff hn).post ?_
  · simp only [blocksOf]
    change ((s.dinode (s.cell ip).inum).size + 4095) / 4096 ≤ 525
    omega
  · rintro r s' ⟨hs, rfl⟩
    have hlen : (s.view.nodeAt ip).data.length = (s.dinode (s.cell ip).inum).size := nodeOf_size _ _
    have hdata : (s.view.nodeAt ip).data =
        (byteAt s.disk (s.dinode (s.cell ip).inum)).slice 0 (s.dinode (s.cell ip).inum).size := rfl
    refine ⟨hs, ?_⟩
    rw [hlen]
    by_cases hbad : (s.dinode (s.cell ip).inum).size < off ∨ 2 ^ 64 ≤ off + n
    · exact (if_pos hbad).trans (if_pos hbad).symm
    · refine (if_neg hbad).trans (Eq.trans ?_ (if_neg hbad).symm)
      rw [hdata, Bytes.drop_take_slice _ _ _ _ _ (by omega), Nat.zero_add]
      rfl

theorem length_overlay {l w : List UInt8} {off : Nat} (h : off ≤ l.length) :
    (overlay l off w).length = max l.length (off + w.length) := by
  simp only [overlay, List.length_append, List.length_take, List.length_drop]
  omega

theorem getElem?_overlay {l w : List UInt8} {off k : Nat} (h : off ≤ l.length) :
    (overlay l off w)[k]? = if off ≤ k ∧ k < off + w.length then w[k - off]? else l[k]? := by
  unfold overlay
  by_cases h1 : k < off
  · rw [if_neg (by omega), List.getElem?_append_left (by simp; omega), List.getElem?_append_left (by simp; omega),
      List.getElem?_take_of_lt h1]
  · by_cases h2 : k < off + w.length
    · rw [if_pos (by omega), List.getElem?_append_left (by simp; omega),
        List.getElem?_append_right (by simp; omega), List.length_take, Nat.min_eq_left h]
    · rw [if_neg (by omega), List.getElem?_append_right (by simp; omega), List.getElem?_drop]
      congr 1
      simp only [List.length_append, List.length_take]
      omega

/-- The bytes of a file after a write are the old ones with the new ones laid over them. -/
theorem overlay_slice {b b' src : Bytes} {size off n : Nat} (hoff : off ≤ size)
    (h : ∀ o < max size (off + n), b' o = if off ≤ o ∧ o < off + n then src (o - off) else b o) :
    b'.slice 0 (max size (off + n)) = overlay (b.slice 0 size) off (src.slice 0 n) := by
  have hoff' : off ≤ (b.slice 0 size).length := by rwa [Bytes.length_slice]
  refine List.ext_getElem? fun k => ?_
  by_cases hk : k < max size (off + n)
  · rw [Bytes.getElem?_slice hk, getElem?_overlay hoff', Nat.zero_add, h k hk, Bytes.length_slice]
    split
    · rw [Bytes.getElem?_slice (by omega), Nat.zero_add]
    · rw [Bytes.getElem?_slice (by omega), Nat.zero_add]
  · rw [List.getElem?_eq_none, List.getElem?_eq_none]
    · rw [length_overlay hoff', Bytes.length_slice, Bytes.length_slice]
      omega
    · rw [Bytes.length_slice]
      omega

/-- `writei` refuses exactly the offsets and lengths that no file can have. -/
theorem writei_refuse (h : s.WF) (href : 0 < (s.cell ip).ref) (hv : (s.cell ip).valid = true)
    (htype : (s.view.nodeAt ip).type ≠ tDev) {src : Bytes} {off n : Nat} (hoff : off < 2 ^ 64) (hn : n < 2 ^ 64)
    (hbad : (s.view.nodeAt ip).data.length < off ∨ 525 * 4096 < off + n) :
    Wp (writei ip src off n) (fun r s' => r = -1 ∧ s' = s) (fun _ => False) s := by
  have hty := h.type_eq href hv
  have hsz := h.size_eq href hv
  have hle : (s.view.nodeAt ip).data.length ≤ 525 * 4096 := by
    rw [← hsz, h.copy href hv]
    exact h.size_le _
  unfold writei
  rw [wp_bind, wp_get]
  dsimp only
  rw [if_neg (by rwa [hty]), wp_ite, hsz, u64_add_lt_iff hoff hn]
  refine ⟨fun _ => ⟨rfl, rfl⟩, fun hok => ?_⟩
  rw [u64_of_lt (by omega), if_pos (by simp; omega)]
  exact ⟨rfl, rfl⟩

theorem Files.addrs_lt {disk : Nat → Bytes} {S : Nat → Nat → Prop} (h : Files disk D S) {i : Nat} (hi : i < 96)
    (k : Fin 14) : (D i).addrs k < 4096 := by
  rw [← place_placeOf disk]
  by_cases h0 : place disk (D i) (placeOf k) = 0
  · omega
  · exact (h.range (h.tight hi (placeOf_lt k) h0)).2

/-- The nodes after the loop of `writei`, whatever the size of the inode becomes. -/
theorem Written.node {disk disk' : Nat → Bytes} {K : Nat → Nat} {i off n : Nat} {src : Bytes} {d' : Dinode}
    (hw : Written disk D K i src off n disk' d) (hK : K i = blocksOf (D i).size) (hoff : off ≤ (D i).size)
    (hd' : d' = { d with size := max (D i).size (off + n) }) :
    nodeOf disk' d' = { nodeOf disk (D i) with data := overlay (nodeOf disk (D i)).data off (src.slice 0 n) } := by
  have hmeta := hw.sameMeta
  have hbytes : ∀ o < max (D i).size (off + n), byteAt disk' d' o =
      if off ≤ o ∧ o < off + n then src (o - off) else byteAt disk (D i) o := by
    intro o ho
    have hb : byteAt disk' d' o = byteAt disk' d o := by
      have hp : place disk' d' (o / 4096) = place disk' d (o / 4096) :=
        place_congr (by rw [hd']) fun _ _ _ => rfl
      rw [byteAt, byteAt, hp]
    have hlt : o / 4096 < max (K i) (blocksOf (off + n)) := by
      rw [hK]
      simp only [blocksOf]
      omega
    rw [hb, hw.bytes o hlt]
    split
    · rfl
    · rw [if_pos]
      rw [hK]
      exact lt_blocksOf (by omega)
  have hslice := overlay_slice hoff hbytes
  have htype : d'.type = (D i).type ∧ d'.major = (D i).major ∧ d'.minor = (D i).minor ∧ d'.nlink = (D i).nlink := by
    rw [hd', hmeta]
    exact ⟨rfl, rfl, rfl, rfl⟩
  refine Node.ext htype.1 htype.2.1 htype.2.2.1 htype.2.2.2 ?_
  rw [nodeOf, show d'.size = max (D i).size (off + n) by rw [hd'], hslice]
  rfl

theorem Written.node_other {disk disk' : Nat → Bytes} {i off n : Nat} {src : Bytes} {j : Nat}
    (hw : Written disk D (fun i => blocksOf (D i).size) i src off n disk' d) (hj : j < 96) (hne : j ≠ i) :
    nodeOf disk' (D j) = nodeOf disk (D j) :=
  nodeOf_congr rfl fun _ ho => hw.other j hj hne _ (lt_blocksOf ho)

theorem Written.fits {disk disk' : Nat → Bytes} {K : Nat → Nat} {i off n : Nat} {src : Bytes}
    (hw : Written disk D K i src off n disk' d) (hi : i < 96) (hfit : (D i).Fits) (hn : off + n ≤ 525 * 4096) :
    ({ d with size := off + n } : Dinode).Fits := by
  have haddr := hw.files.addrs_lt hi
  rw [upd_self] at haddr
  rw [hw.sameMeta]
  exact ⟨hfit.type, hfit.major, hfit.minor, hfit.nlink, by change off + n < 2 ^ 64; omega,
    fun k => lt_trans (haddr k) (by decide)⟩

/-- The files after a write that makes its file larger. -/
theorem Written.files_grow {disk disk' : Nat → Bytes} {i off n : Nat} {src : Bytes}
    (hw : Written disk D (fun j => blocksOf (D j).size) i src off n disk' d) (hgrow : (D i).size < off + n) :
    Files disk' (upd D i { d with size := off + n })
      (shape fun j => blocksOf (upd D i { d with size := off + n } j).size) := by
  have hshape : (fun j => blocksOf (upd D i { d with size := off + n } j).size) =
      upd (fun j => blocksOf (D j).size) i (max (blocksOf (D i).size) (blocksOf (off + n))) := by
    funext j
    rw [upd_apply, upd_apply]
    split
    · simp only [blocksOf]
      omega
    · rfl
  rw [hshape]
  exact hw.files.of_addrs fun j => by
    rw [upd_apply, upd_apply]
    split <;> rfl

/-- A write inside of its file moves no block. -/
theorem Written.files_same {disk disk' : Nat → Bytes} {i off n : Nat} {src : Bytes}
    (hw : Written disk D (fun j => blocksOf (D j).size) i src off n disk' d) (hgrow : ¬ (D i).size < off + n) :
    d = D i ∧ Files disk' D (shape fun j => blocksOf (D j).size) := by
  have hd : d = D i := hw.same (by simp only [blocksOf]; omega)
  have hmax : max (blocksOf (D i).size) (blocksOf (off + n)) = blocksOf (D i).size := by
    simp only [blocksOf]
    omega
  have hfiles := hw.files
  rw [hmax, upd_eta, hd, upd_eta] at hfiles
  exact ⟨hd, hfiles⟩

/-- The nodes after a write. -/
theorem Written.nodes {disk disk' : Nat → Bytes} {i off n : Nat} {src : Bytes}
    (hw : Written disk D (fun j => blocksOf (D j).size) i src off n disk' d) (hzero : ∀ j, 96 ≤ j → D j = Dinode.zero)
    (hoff : off ≤ (D i).size) (d' : Dinode) (hd' : d' = { d with size := max (D i).size (off + n) }) :
    (fun j => nodeOf disk' (upd D i d' j)) = upd (fun j => nodeOf disk (D j)) i
      { nodeOf disk (D i) with data := overlay (nodeOf disk (D i)).data off (src.slice 0 n) } := by
  funext j
  rw [upd_apply, upd_apply]
  split
  · exact hw.node rfl hoff hd'
  · rename_i hne
    by_cases hj : j < 96
    · exact hw.node_other hj hne
    · rw [hzero j (by omega)]
      rfl

theorem writei_view (h : s.WF) (href : 0 < (s.cell ip).ref) (hv : (s.cell ip).valid = true)
    (htype : (s.view.nodeAt ip).type ≠ tDev) {src : Bytes} {off n : Nat}
    (hoff : off ≤ (s.view.nodeAt ip).data.length) (hn : off + n ≤ 525 * 4096) :
    Wp (writei ip src off n) (fun r s' => r = n ∧ s'.WF ∧
        s'.view = s.view.setNode (s.cell ip).inum
          { s.view.nodeAt ip with data := overlay (s.view.nodeAt ip).data off (src.slice 0 n) })
      (fun e => e = .panic "balloc: oob" ∧
        freeBlocks s.disk + blocksFor (blocksOf (s.view.nodeAt ip).data.length) <
          blocksFor (max (blocksOf (s.view.nodeAt ip).data.length) (blocksOf (off + n)))) s := by
  have he := h.cache.entry ip href
  have hi : (s.cell ip).inum < 96 := he.inum.2
  have hlen : (s.view.nodeAt ip).data.length = (s.dinode (s.cell ip).inum).size := nodeOf_size _ _
  have hK : ∀ j, blocksOf (s.dinode j).size ≤ 525 := by
    intro j
    have := h.size_le j
    simp only [blocksOf]
    omega
  have hzero : ∀ j, 96 ≤ j → s.dinode j = Dinode.zero := fun j hj => by rw [h.dinode_eq, dinodeOf_ge hj]
  rw [hlen] at hoff ⊢
  refine (writei_spec (D := s.dinode) (K := fun j => blocksOf (s.dinode j).size) (i := (s.cell ip).inum) h.sb
    h.files hK he.dev (he.copy hv) rfl hi rfl htype hoff hn).post ?_
  rintro r s' ⟨rfl, disk', d, hw, hhead, rfl⟩
  refine ⟨rfl, ?_⟩
  by_cases hgrow : (s.dinode (s.cell ip).inum).size < off + n
  · rw [if_pos hgrow]
    have hty : ({ d with size := off + n } : Dinode).type ≠ 0 := by
      rw [hw.sameMeta]
      exact he.typed hv
    obtain ⟨hwf, hnode⟩ := h.store _ hi hhead (hw.fits hi (h.fits _) hn) (hw.files_grow hgrow) hn
      (fun h0 => absurd h0 hty) (h.cache.store href hty)
    refine ⟨hwf, View.ext (hnode.trans ?_) (funext fun jp => ?_) rfl⟩
    · exact hw.nodes hzero hoff _ (by rw [Nat.max_eq_right (Nat.le_of_lt hgrow)])
    · refine (map_upd Inode.cell s.inodes ip _ jp).trans ?_
      change upd s.cell ip (s.cell ip) jp = s.cell jp
      rw [upd_eta]
  · rw [if_neg hgrow]
    obtain ⟨hd, hfiles⟩ := hw.files_same hgrow
    have hst : { s with disk := disk' }.withDinode ip d = { s with disk := disk' } := by
      rw [hd, ← h.copy href hv]
      simp [State.withDinode, State.withInode]
    have hD : dinodeOf stdSb disk' = s.dinode := by rw [dinodeOf_congr hhead, h.dinode_eq]
    have hD' : { s with disk := disk' }.dinode = s.dinode := by
      rw [State.dinode, h.sb, hD]
    rw [hst]
    refine ⟨⟨h.sb, ⟨?_, ?_, ?_⟩, ?_⟩, View.ext (funext fun j => ?_) rfl rfl⟩
    · rw [hD]
      exact hfiles
    · rw [hD]
      exact h.size_le
    · rw [hD]
      exact fun j => h.free
    · rw [hD']
      exact h.cache
    · change nodeOf disk' ({ s with disk := disk' }.dinode j) = _
      have hnodes := hw.nodes hzero hoff d (by rw [Nat.max_eq_left (Nat.not_lt.mp hgrow), hd])
      rw [hd, upd_eta] at hnodes
      rw [hD']
      exact congrFun hnodes j

/-! ## Devices -/

/-- A lock that is given up and taken again leaves its cell as it was. -/
theorem View.unlock_lock {v : View} (hl : (v.cell ip).locked = true) (hv : (v.cell ip).valid = true) :
    (v.unlock ip).lock ip = v := by
  have hc : upd (upd v.cell ip { v.cell ip with locked := false }) ip
      { upd v.cell ip { v.cell ip with locked := false } ip with locked := true, valid := true } = v.cell := by
    rw [upd_upd, upd_self]
    rw [show ({ ({ v.cell ip with locked := false } : Cell) with locked := true, valid := true } : Cell) = v.cell ip
      from Cell.ext rfl rfl hl.symm hv.symm, upd_eta]
  exact View.ext rfl hc rfl

/-- The lock can be taken again. -/
theorem ilock_again (ip : Slot) (h : s.WF) (href : 0 < (s.cell ip).ref) (hv : (s.cell ip).valid = true)
    (hl : (s.cell ip).locked = false) :
    Wp (ilock ip) (fun _ s' => s'.WF ∧ s'.view = s.view.lock ip) (fun _ => False) s := by
  refine (ilock_spec h href).mono (fun _ _ h1 => ⟨h1.1, h1.2.1⟩) ?_
  rintro e (⟨_, h1⟩ | ⟨_, h1⟩)
  · rw [hl] at h1
    exact Bool.false_ne_true h1
  · exact h.typed href hv h1

theorem devRead_spec (h : s.WF) (href : 0 < (s.cell ip).ref) (hv : (s.cell ip).valid = true)
    (hl : (s.cell ip).locked = true) (n : Nat) :
    Wp (devRead ip n) (fun r s' => r = (s.console 0).map (List.take n) ∧ s'.WF ∧
      s'.view = { s.view with console := fun k => s.console (k + 1) }) (fun _ => False) s := by
  unfold devRead
  refine Wp.bind (iunlock_spec h href hl) ?_
  rintro _ s1 ⟨hwf, hview⟩
  have hcell : s1.cell ip = { s.cell ip with locked := false } := by
    have := congrFun (congrArg View.cell hview) ip
    rwa [View.unlock, View.setCell_cell, upd_self] at this
  have hcons : s1.console = s.console := congrArg View.console hview
  rw [wp_bind, wp_get, wp_bind, wp_set]
  have hwf' : { s1 with console := fun k => s1.console (k + 1) }.WF := ⟨hwf.sb, hwf.disk, hwf.cache⟩
  refine Wp.bind (ilock_again ip hwf' ?_ ?_ ?_) ?_
  · change 0 < (s1.cell ip).ref
    rwa [hcell]
  · change (s1.cell ip).valid = true
    rwa [hcell]
  · change (s1.cell ip).locked = false
    rw [hcell]
  · rintro _ s2 ⟨hwf2, hview2⟩
    refine ⟨by rw [hcons], hwf2, ?_⟩
    have h1 : { s1 with console := fun k => s1.console (k + 1) }.view =
        { s1.view with console := fun k => s1.console (k + 1) } := rfl
    rw [hview2, h1, hview, hcons]
    have := View.unlock_lock (v := { s.view with console := fun k => s.console (k + 1) }) hl hv
    exact this

theorem devWrite_spec (h : s.WF) (href : 0 < (s.cell ip).ref) (hv : (s.cell ip).valid = true)
    (hl : (s.cell ip).locked = true) (n : Nat) :
    Wp (devWrite ip n) (fun r s' => r = n ∧ s'.WF ∧ s'.view = s.view) (fun _ => False) s := by
  unfold devWrite
  refine Wp.bind (iunlock_spec h href hl) ?_
  rintro _ s1 ⟨hwf, hview⟩
  have hcell : s1.cell ip = { s.cell ip with locked := false } := by
    have := congrFun (congrArg View.cell hview) ip
    rwa [View.unlock, View.setCell_cell, upd_self] at this
  refine Wp.bind (ilock_again ip hwf (by rwa [hcell]) (by rwa [hcell]) (by rw [hcell])) ?_
  rintro _ s2 ⟨hwf2, hview2⟩
  refine ⟨rfl, hwf2, ?_⟩
  rw [hview2, hview]
  exact View.unlock_lock (v := s.view) hl hv

end Xv6.Fs
