import Xv6.Fs.Lemmas.Bmap

/-!
# Contents of files

The bytes of a file through its places, and what the two loops of `readi` and `writei` do to them. The
relations `Mapped` and `Written` speak of disks and inodes only, since the image builder has loops of
the same shape over a state of its own.
-/

namespace Xv6.Fs

open Xv6.Lib

/-- The byte at an offset of a file. -/
def byteAt (disk : Nat → Bytes) (d : Dinode) : Bytes := fun o => disk (place disk d (o / 4096)) (o % 4096)

/-- The number of blocks that hold `size` bytes. -/
def blocksOf (size : Nat) : Nat := (size + 4095) / 4096

/-! ## One block more -/

/-- The logical block `bn` of inode `i` is mapped to the block `b`; a new block is zeroed. -/
structure Mapped (disk : Nat → Bytes) (D : Nat → Dinode) (K : Nat → Nat) (i bn : Nat) (disk' : Nat → Bytes)
    (d : Dinode) (b : Nat) : Prop where
  files : Files disk' (upd D i d) (shape (upd K i (max (K i) (bn + 1))))
  sameMeta : d = { D i with addrs := d.addrs }
  same : bn < K i → d = D i
  place : place disk' d bn = b
  bytes : ∀ o, o / 4096 < max (K i) (bn + 1) →
    byteAt disk' d o = if o / 4096 < K i then byteAt disk (D i) o else 0
  other : ∀ j < 96, j ≠ i → ∀ o, o / 4096 < K j → byteAt disk' (D j) o = byteAt disk (D j) o
  free : freeBlocks disk' + blocksFor (max (K i) (bn + 1)) = freeBlocks disk + blocksFor (K i)

section

variable {disk disk' : Nat → Bytes} {D D' : Nat → Dinode} {K : Nat → Nat} {i j bn b o : Nat} {d : Dinode}

theorem Keeps.byteAt (h : Keeps disk D (shape K) disk' D') (hj : j < 96) (hK : K j ≤ 525) (ho : o / 4096 < K j) :
    byteAt disk' (D' j) o = byteAt disk (D j) o := by
  have hs : shape K j (o / 4096) := ⟨hj, Or.inl ho⟩
  rw [Fs.byteAt, Fs.byteAt, h.place hs, h.data hs (by omega)]

theorem Mapped.hit (h : Files disk D (shape K)) (hbn : bn < K i) :
    Mapped disk D K i bn disk (D i) (Fs.place disk (D i) bn) := by
  have hmax : max (K i) (bn + 1) = K i := by omega
  refine ⟨?_, rfl, fun _ => rfl, rfl, fun o ho => ?_, fun _ _ _ _ _ => rfl, by rw [hmax]⟩
  · rwa [hmax, upd_eta, upd_eta]
  · rw [if_pos (by omega)]

theorem Grown.mapped (hg : Grown disk D K i disk' d b) (hi : i < 96) (hK : ∀ j, K j ≤ 525) :
    Mapped disk D K i (K i) disk' d b := by
  have hmax : max (K i) (K i + 1) = K i + 1 := by omega
  refine ⟨by rw [hmax]; exact hg.files, hg.sameMeta, fun h => absurd h (lt_irrefl _), hg.place, fun o ho => ?_,
    fun j hj hne o ho => ?_, by rw [hmax]; exact hg.free⟩
  · split
    · have := hg.keeps.byteAt hi (hK i) ‹_›
      rwa [upd_self] at this
    · have : o / 4096 = K i := by omega
      rw [byteAt, this, hg.place, hg.zero]
  · have := hg.keeps.byteAt hj (hK j) ho
    rwa [upd_of_ne hne] at this

end

/-! ## Writing -/

/-- `tot` bytes of `src` have been written to inode `i` from the offset `off` on. -/
structure Written (disk : Nat → Bytes) (D : Nat → Dinode) (K : Nat → Nat) (i : Nat) (src : Bytes) (off tot : Nat)
    (disk' : Nat → Bytes) (d : Dinode) : Prop where
  files : Files disk' (upd D i d) (shape (upd K i (max (K i) (blocksOf (off + tot)))))
  sameMeta : d = { D i with addrs := d.addrs }
  same : blocksOf (off + tot) ≤ K i → d = D i
  bytes : ∀ o, o / 4096 < max (K i) (blocksOf (off + tot)) → byteAt disk' d o =
    if off ≤ o ∧ o < off + tot then src (o - off) else if o / 4096 < K i then byteAt disk (D i) o else 0
  other : ∀ j < 96, j ≠ i → ∀ o, o / 4096 < K j → byteAt disk' (D j) o = byteAt disk (D j) o
  free : freeBlocks disk' + blocksFor (max (K i) (blocksOf (off + tot))) = freeBlocks disk + blocksFor (K i)

section

variable {disk disk' disk'' : Nat → Bytes} {D : Nat → Dinode} {S : Nat → Nat → Prop} {K : Nat → Nat}
  {i j n b o off tot m : Nat} {d d' : Dinode} {src : Bytes}

/-- Data blocks hold no block numbers. -/
theorem Files.place_write (h : Files disk D S) (hs : S i n) (hn : n ≠ 525) (v : Bytes) (hj : j < 96) (m : Nat) :
    place (upd disk (place disk (D i) n) v) (D j) m = place disk (D j) m := by
  refine place_congr rfl fun _ _ ha => upd_of_ne ?_ _ _
  intro he
  have hsj : S j 525 := h.tight hj (by omega) (by simpa using ha)
  exact hn (h.inj hsj hs (by simpa using he)).2.symm

theorem Files.write (h : Files disk D S) (hs : S i n) (hn : n ≠ 525) (v : Bytes) :
    Files (upd disk (place disk (D i) n) v) D S := by
  have hb := h.range hs
  refine ⟨h.congr (fun j m hj => h.place_write hs hn v (h.dom hj).1 m) fun c _ => ?_, fun hj hm hne => ?_⟩
  · rw [upd_of_ne (by omega)]
  · rw [h.place_write hs hn v hj] at hne
    exact h.tight hj hm hne

theorem Files.byteAt_write (h : Files disk D S) (hs : S i n) (hn : n ≠ 525) (v : Bytes)
    (hsj : S j (o / 4096)) : byteAt (upd disk (place disk (D i) n) v) (D j) o =
      if j = i ∧ o / 4096 = n then v (o % 4096) else byteAt disk (D j) o := by
  rw [byteAt, h.place_write hs hn v (h.dom hsj).1]
  split
  · obtain ⟨rfl, rfl⟩ := ‹_ ∧ _›
    rw [upd_self]
  · rw [upd_of_ne fun he => ‹¬ _› (h.inj hsj hs he), byteAt]

theorem freeBlocks_congr (h : disk' 2 = disk 2) : freeBlocks disk' = freeBlocks disk := by
  rw [freeBlocks, freeBlocks, h]

theorem Written.zero (h : Files disk D (shape K)) (hoff : blocksOf off ≤ K i) :
    Written disk D K i src off 0 disk (D i) := by
  have hmax : max (K i) (blocksOf (off + 0)) = K i := by simp; omega
  refine ⟨by rwa [hmax, upd_eta, upd_eta], rfl, fun _ => rfl, fun o ho => ?_, fun _ _ _ _ _ => rfl, by rw [hmax]⟩
  rw [if_neg (by omega), if_pos (by omega)]

/-- One round of the loop: a block is mapped and a part of it is overwritten. -/
theorem Written.step (hw : Written disk D K i src off tot disk' d) (hi : i < 96)
    (hm : Mapped disk' (upd D i d) (upd K i (max (K i) (blocksOf (off + tot)))) i ((off + tot) / 4096)
      disk'' d' b)
    (hbound : (off + tot) / 4096 < 525) (h0 : 0 < m) (hroom : (off + tot) % 4096 + m ≤ 4096) :
    Written disk D K i src off (tot + m)
      (upd disk'' b ((disk'' b).put ((off + tot) % 4096) (src.slice tot m))) d' := by
  have hmeta : d' = { D i with addrs := d'.addrs } := by
    have := hm.sameMeta
    rw [upd_self] at this
    rw [this, hw.sameMeta]
  have hmax : max (max (K i) (blocksOf (off + tot))) ((off + tot) / 4096 + 1) =
      max (K i) (blocksOf (off + (tot + m))) := by
    simp only [blocksOf]
    omega
  have hfiles := hm.files
  rw [upd_upd, upd_self, upd_upd, hmax] at hfiles
  have hshape : ∀ j o, j < 96 → o / 4096 < upd K i (max (K i) (blocksOf (off + (tot + m)))) j →
      shape (upd K i (max (K i) (blocksOf (off + (tot + m))))) j (o / 4096) := fun j o hj ho => ⟨hj, Or.inl ho⟩
  have hs : shape (upd K i (max (K i) (blocksOf (off + (tot + m))))) i ((off + tot) / 4096) := by
    refine ⟨hi, Or.inl ?_⟩
    rw [upd_self, ← hmax]
    omega
  have hplace : b = place disk'' (upd D i d' i) ((off + tot) / 4096) := by rw [upd_self, hm.place]
  refine ⟨?_, hmeta, fun hle => ?_, fun o ho => ?_, fun j hj hne o ho => ?_, ?_⟩
  · rw [hplace]
    exact hfiles.write hs (by omega) _
  · have hd' := hm.same (by rw [upd_self]; simp only [blocksOf] at hle ⊢; omega)
    rw [upd_self] at hd'
    rw [hd', hw.same (by simp only [blocksOf] at hle ⊢; omega)]
  · have hbytes := hfiles.byteAt_write hs (by omega)
      ((disk'' b).put ((off + tot) % 4096) (src.slice tot m)) (hshape i o hi (by rwa [upd_self]))
    rw [← hplace, upd_self] at hbytes
    rw [hbytes]
    have hold := hm.bytes o (by rw [upd_self, hmax]; exact ho)
    rw [upd_self, upd_self] at hold
    by_cases hblk : o / 4096 = (off + tot) / 4096
    · rw [if_pos ⟨rfl, hblk⟩]
      by_cases hin : off + tot ≤ o ∧ o < off + tot + m
      · have hk : o % 4096 = (off + tot) % 4096 + (o - (off + tot)) := by omega
        rw [hk, Bytes.put_add (Bytes.getElem?_slice (by omega) src tot), if_pos (by omega)]
        congr 1
        omega
      · rw [Bytes.put_outside (by rw [Bytes.length_slice]; omega)]
        have hb : disk'' b (o % 4096) = byteAt disk'' d' o := by rw [byteAt, hblk, hm.place]
        rw [hb, hold]
        by_cases hlt : o / 4096 < max (K i) (blocksOf (off + tot))
        · rw [if_pos hlt, hw.bytes o hlt]
          congr 1
          exact propext (by omega)
        · simp only [blocksOf] at hlt
          rw [if_neg (by simpa [blocksOf] using hlt), if_neg (by omega), if_neg (by omega)]
    · rw [if_neg fun h => hblk h.2, hold, if_pos (by simp only [blocksOf] at ho ⊢; omega), hw.bytes o ?_]
      · congr 1
        exact propext (by omega)
      · simp only [blocksOf] at ho ⊢
        omega
  · have hj' : upd K i (max (K i) (blocksOf (off + (tot + m)))) j = K j := upd_of_ne hne _ _
    have hbytes := hfiles.byteAt_write hs (by omega)
      ((disk'' b).put ((off + tot) % 4096) (src.slice tot m)) (hshape j o hj (by rwa [hj']))
    rw [← hplace, upd_of_ne hne, if_neg fun h => hne h.1] at hbytes
    have hold := hm.other j hj hne o (by rwa [upd_of_ne hne])
    rw [upd_of_ne hne] at hold
    rw [hbytes, hold, hw.other j hj hne o ho]
  · have hb6 := hfiles.range hs
    rw [← hplace] at hb6
    have hfree := hm.free
    rw [upd_self, hmax] at hfree
    rw [freeBlocks_congr (show _ = disk'' 2 from upd_of_ne (by omega) _ _), hfree, hw.free]

end

/-! ## The code -/

theorem blocksFor_mono {k l : Nat} (h : k ≤ l) : blocksFor k ≤ blocksFor l := by
  unfold blocksFor
  split <;> split <;> omega

variable {s : State} {ip : Slot} {D : Nat → Dinode} {K : Nat → Nat} {i : Nat}

theorem bmap_spec {bn : Nat} (hsb : s.sb = stdSb) (h : Files s.disk D (shape K)) (hK : ∀ j, K j ≤ 525)
    (hdev : (s.inodes ip).dev = 0) (hd : (s.inodes ip).toDinode = D i) (hi : i < 96) (hbn : bn ≤ K i)
    (hbn' : bn < 525) :
    Wp (bmap ip bn) (fun b s' => ∃ disk' d, s' = { s with disk := disk' }.withDinode ip d ∧
        Mapped s.disk D K i bn disk' d b ∧ ∀ c < 6, c ≠ 2 → disk' c = s.disk c)
      (fun e => e = .panic "balloc: oob" ∧
        freeBlocks s.disk + blocksFor (K i) < blocksFor (max (K i) (bn + 1))) s := by
  rcases Nat.lt_or_eq_of_le hbn with hlt | rfl
  · refine (bmap_hit h hdev hd ⟨hi, Or.inl hlt⟩ hbn').mono ?_ fun _ h => h.elim
    rintro _ _ ⟨rfl, rfl⟩
    refine ⟨_, D i, ?_, Mapped.hit h hlt, fun _ _ _ => rfl⟩
    rw [State.withDinode, State.withInode, ← hd, upd_eta]
  · have hmax : max (K i) (K i + 1) = K i + 1 := by omega
    refine (bmap_grow hsb h hdev hd hi hbn').mono ?_ fun _ he => by rwa [hmax]
    rintro b s' ⟨disk', d, rfl, hg⟩
    exact ⟨disk', d, rfl, hg.mapped hi hK, hg.head⟩

/-- The sum of an offset and a length wraps exactly when it does not fit. -/
theorem u64_add_lt_iff {off n : Nat} (hoff : off < 2 ^ 64) (hn : n < 2 ^ 64) :
    u64 (off + n) < off ↔ 2 ^ 64 ≤ off + n := by
  unfold u64
  omega

theorem u64_of_lt {x : Nat} (h : x < 2 ^ 64) : u64 x = x := Nat.mod_eq_of_lt h

/-- A part of a block is that part of the file. -/
theorem slice_block (disk : Nat → Bytes) (d : Dinode) {off m : Nat} (h : off % 4096 + m ≤ 4096) :
    (disk (place disk d (off / 4096))).slice (off % 4096) m = (byteAt disk d).slice off m := by
  refine Bytes.slice_congr fun k hk => ?_
  rw [byteAt, show (off + k) / 4096 = off / 4096 by omega, show (off + k) % 4096 = off % 4096 + k by omega]

theorem readi_spec (h : Files s.disk D (shape K)) (hdev : (s.inodes ip).dev = 0)
    (hd : (s.inodes ip).toDinode = D i) (hi : i < 96) (hsize : blocksOf (D i).size ≤ K i) (hK : K i ≤ 525)
    (htype : (D i).type ≠ tDev) {off n : Nat} (hoff : off < 2 ^ 64) (hn : n < 2 ^ 64) :
    Wp (readi ip off n) (fun r s' => s' = s ∧ r =
        if (D i).size < off ∨ 2 ^ 64 ≤ off + n then none
        else some ((byteAt s.disk (D i)).slice off (min n ((D i).size - off))))
      (fun _ => False) s := by
  unfold readi
  rw [wp_bind, wp_get]
  dsimp only
  rw [hdev, hd, if_neg htype, wp_ite, u64_add_lt_iff hoff hn]
  refine ⟨fun hbad => ⟨rfl, by rw [if_pos hbad]⟩, fun hok => ?_⟩
  have hlt : off + n < 2 ^ 64 := by omega
  have hcnt : (if (D i).size < u64 (off + n) then (D i).size - off else n) = min n ((D i).size - off) := by
    rw [u64_of_lt hlt]
    split <;> omega
  rw [if_neg hok, hcnt]
  -- after `tot` bytes the destination holds the slice of that length
  refine wp_loop (fun x t => t = s ∧ x.1 ≤ min n ((D i).size - off) ∧ x.2.1 = off + x.1 ∧
      x.2.2 = (byteAt s.disk (D i)).slice off x.1) (fun x => min n ((D i).size - off) - x.1) ?_ _ _ _
    ⟨rfl, Nat.zero_le _, rfl, rfl⟩ (Nat.lt_succ_self _)
  rintro ⟨tot, off', dst⟩ t ⟨rfl, htot, hoff', hdst⟩
  simp only [bsize] at htot hoff' hdst ⊢
  subst hoff' hdst
  rw [wp_ite]
  refine ⟨fun hmore => ?_, fun hdone => ?_⟩
  · have hblk : (off + tot) / 4096 < K i := by
      simp only [blocksOf] at hsize
      omega
    refine Wp.seq (bmap_hit h hdev hd ⟨hi, Or.inl hblk⟩ (by omega)) (fun _ h => h) ?_
    rintro b _ ⟨rfl, rfl⟩
    have hr := h.range (show shape K i ((off + tot) / 4096) from ⟨hi, Or.inl hblk⟩)
    rw [wp_bind, wp_bread hr.2, slice_block _ _ (by omega), ← Bytes.slice_add]
    refine ⟨⟨rfl, ?_, ?_, rfl⟩, ?_⟩ <;> simp only [] <;> omega
  · have : tot = min n ((D i).size - off) := by omega
    subst this
    exact ⟨rfl, rfl⟩

/-- The disk after `iupdate` stored the inode `i`. -/
def stored (disk : Nat → Bytes) (i : Nat) (d : Dinode) : Nat → Bytes :=
  upd disk (i / 32 + 3) (putDinode (disk (i / 32 + 3)) (i % 32) d)

theorem wp_iupdate {Q : Unit → State → Prop} {E : Halt → Prop} (hsb : s.sb = stdSb)
    (hdev : (s.inodes ip).dev = 0) (hi : (s.inodes ip).inum < 96) :
    Wp (iupdate ip) Q E s ↔
      Q () { s with disk := stored s.disk (s.inodes ip).inum (s.inodes ip).toDinode } := by
  have hblk : iblock (s.inodes ip).inum s.sb = (s.inodes ip).inum / 32 + 3 := by
    rw [hsb]
    rfl
  unfold iupdate
  rw [wp_bind, wp_get]
  dsimp only
  rw [hdev, hblk, wp_bind, wp_bread (by omega), wp_bwrite]
  rfl

theorem writei_spec (hsb : s.sb = stdSb) (h : Files s.disk D (shape K)) (hK : ∀ j, K j ≤ 525)
    (hdev : (s.inodes ip).dev = 0) (hd : (s.inodes ip).toDinode = D i) (hinum : (s.inodes ip).inum = i)
    (hi : i < 96) (hsize : blocksOf (D i).size = K i) (htype : (D i).type ≠ tDev) {src : Bytes} {off n : Nat}
    (hoff : off ≤ (D i).size) (hn : off + n ≤ 525 * 4096) :
    Wp (writei ip src off n) (fun r s' => r = n ∧ ∃ disk' d, Written s.disk D K i src off n disk' d ∧
        (∀ c < 6, c ≠ 2 → disk' c = s.disk c) ∧
        s' = if (D i).size < off + n then
            { s with disk := stored disk' i { d with size := off + n } }.withDinode ip { d with size := off + n }
          else { s with disk := disk' }.withDinode ip d)
      (fun e => e = .panic "balloc: oob" ∧
        freeBlocks s.disk + blocksFor (K i) < blocksFor (max (K i) (blocksOf (off + n)))) s := by
  have h64 : u64 (off + n) = off + n := u64_of_lt (by omega)
  unfold writei
  rw [wp_bind, wp_get]
  dsimp only
  rw [hdev, hd, if_neg htype, h64, if_neg (by omega), if_neg (by simp; omega)]
  refine Wp.bind (R := fun r s' => r = (n, off + n) ∧ ∃ disk' d, Written s.disk D K i src off n disk' d ∧
    (∀ c < 6, c ≠ 2 → disk' c = s.disk c) ∧ s' = { s with disk := disk' }.withDinode ip d) ?_ ?_
  · refine wp_loop (fun x t => x.1 ≤ n ∧ x.2 = off + x.1 ∧ ∃ disk' d, Written s.disk D K i src off x.1 disk' d ∧
        (∀ c < 6, c ≠ 2 → disk' c = s.disk c) ∧ t = { s with disk := disk' }.withDinode ip d)
      (fun x => n - x.1) ?_ _ _ _ ⟨Nat.zero_le _, rfl, s.disk, D i, Written.zero h ?_, fun _ _ _ => rfl, ?_⟩
      (by omega)
    · rintro ⟨tot, off'⟩ t ⟨htot, hoff', disk', d, hw, hhead, rfl⟩
      simp only [bsize] at htot hoff' hw ⊢
      subst hoff'
      rw [wp_ite]
      refine ⟨fun hmore => ?_, fun hdone => ?_⟩
      · have hK' : ∀ j, upd K i (max (K i) (blocksOf (off + tot))) j ≤ 525 := by
          intro j
          rw [upd_apply]
          split
          · have := hK i
            simp only [blocksOf]
            omega
          · exact hK j
        refine Wp.seq (bmap_spec (s := { s with disk := disk' }.withDinode ip d) (i := i) hsb hw.files hK' ?_ ?_
          hi ?_ ?_) ?_ ?_
        · simpa [State.withDinode, State.withInode] using hdev
        · simp [State.withDinode, State.withInode]
        · rw [upd_self]
          simp only [blocksOf]
          omega
        · omega
        · rintro e ⟨rfl, he⟩
          refine ⟨rfl, ?_⟩
          have hfree := hw.free
          have hmono := blocksFor_mono (show max (max (K i) (blocksOf (off + tot))) ((off + tot) / 4096 + 1) ≤
            max (K i) (blocksOf (off + n)) by simp only [blocksOf]; omega)
          rw [upd_self] at he
          simp only [State.withDinode, State.withInode] at he
          omega
        · rintro b _ ⟨disk'', d', rfl, hm, hhead'⟩
          have hstep := hw.step (m := min (n - tot) (4096 - (off + tot) % 4096)) hi hm (by omega) (by omega)
            (by omega)
          have hb : 6 ≤ b ∧ b < 4096 := by
            have := hm.files.range (show shape _ i ((off + tot) / 4096) from ⟨hi, Or.inl (by
              rw [upd_self, upd_self]; omega)⟩)
            rwa [upd_self, hm.place] at this
          rw [wp_bind, wp_bread hb.2, wp_bind, wp_bwrite]
          refine ⟨⟨?_, ?_, _, d', hstep, fun c hc h2 => ?_, ?_⟩, ?_⟩
          · simp only []
            omega
          · simp only []
            omega
          · rw [upd_of_ne (by omega), hhead' c hc h2]
            exact hhead c hc h2
          · simp [State.withDinode, State.withInode]
          · simp only []
            omega
      · have : tot = n := by omega
        subst this
        exact ⟨rfl, disk', d, hw, hhead, rfl⟩
    · rw [← hsize]
      simp only [blocksOf]
      omega
    · rw [State.withDinode, State.withInode, ← hd, upd_eta]
  · rintro _ _ ⟨rfl, disk', d, hw, hhead, rfl⟩
    dsimp only
    by_cases hgrow : (D i).size < off + n
    · rw [if_pos ⟨by omega, hgrow⟩, wp_bind, wp_modifyInode, wp_bind, wp_iupdate]
      · refine ⟨rfl, disk', d, hw, hhead, ?_⟩
        simp [State.withDinode, State.withInode, hgrow, hinum]
      · exact hsb
      · simpa [State.withDinode, State.withInode] using hdev
      · simp [State.withDinode, State.withInode, hinum, hi]
    · rw [if_neg fun h => hgrow h.2]
      exact ⟨rfl, disk', d, hw, hhead, by rw [if_neg hgrow]⟩

end Xv6.Fs
