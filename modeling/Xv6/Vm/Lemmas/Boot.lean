import Xv6.Vm.Boot
import Xv6.Vm.Lemmas.Kinit

/-!
# The first free list, from the boot loader's map

`kinit` with addresses does what the `kinit` of frames does on the entries that the tags hold: the information stays as
it is while pages above the bump end are freed, and no address wraps.
-/

namespace Xv6.Vm.Boot

open Xv6.Lib

variable {m m₀ m' : Mem} {start stop k n a w f tag i : Nat} {tags : List Nat}

/-! ## Pages under their addresses -/

theorem p2v_of_le (h : a ≤ phyStop + pgsize4kb) : p2v a = a + pageOffset := by
  simp only [p2v, phyStop, pgsize4kb, pageOffset] at h ⊢
  omega

theorem kfree_eq (hf : pgsize4kb * f < phyStop) (hb : m.bumpEnd ≤ phyStop) :
    kfree (p2v (pgsize4kb * f)) m = Vm.kfree f m := by
  have hv : v2p (p2v (pgsize4kb * f)) = pgsize4kb * f := by
    rw [p2v_of_le (by omega)]
    simp only [v2p, phyStop, pgsize4kb, pageOffset] at hf ⊢
    omega
  have hcond : (p2v (pgsize4kb * f) % pgsize4kb ≠ 0 ∨ p2v (pgsize4kb * f) < p2v m.bumpEnd ∨
    phyStop ≤ v2p (p2v (pgsize4kb * f))) ↔
      (pgsize4kb * f < m.bumpEnd ∨ phyStop ≤ pgsize4kb * f) := by
    rw [hv, p2v_of_le (show pgsize4kb * f ≤ _ by omega), p2v_of_le (show m.bumpEnd ≤ _ by omega)]
    simp only [phyStop, pgsize4kb, pageOffset] at hf hb ⊢
    omega
  have hdiv : pgsize4kb * f / pgsize4kb = f := Nat.mul_div_cancel_left f (by decide)
  unfold kfree Vm.kfree
  rw [get_bind, get_bind, panicIf_congr hcond, hv, hdiv]

theorem freed_bumpEnd (f : Nat) (m : Mem) : Wp (Vm.kfree f) (fun _ m' => m'.bumpEnd = m.bumpEnd ∧
    ∀ a < m.bumpEnd, m'.phys a = m.phys a) (fun _ => True) m := by
  unfold Vm.kfree
  rw [wp_bind, wp_get, wp_bind, wp_panicIf]
  refine ⟨fun _ => trivial, fun hr => ?_⟩
  rw [wp_bind, wp_setPage, wp_modify]
  refine ⟨rfl, fun a ha => ?_⟩
  have hne : a / pgsize4kb ≠ f := by
    simp only [pgsize4kb] at hr ⊢
    omega
  exact congrFun (upd_of_ne hne _ _) _

theorem filter_range (k n : Nat) : (List.range n).filter (fun f => decide (k ≤ f)) = List.range' k (n - k) := by
  induction n with
  | zero => rw [Nat.zero_sub]; rfl
  | succ n ih =>
      rw [List.range_succ, List.filter_append, ih]
      by_cases h : k ≤ n
      · rw [Nat.succ_sub h, List.range'_concat, List.filter_singleton, decide_eq_true h, Nat.one_mul,
          Nat.add_sub_cancel' h]
        rfl
      · rw [show n + 1 - k = 0 by omega, show n - k = 0 by omega, List.filter_singleton, decide_eq_false h]
        rfl

/-- From the frame `k` on, `n` frames are left up to `stop`. -/
theorem freeRange_loop (hstop : stop ≤ phyStop) : ∀ {n k fuel : Nat} {m : Mem}, m.bumpEnd ≤ phyStop →
    pgsize4kb * k ≤ phyStop → n = stop / pgsize4kb - k → n < fuel →
    loop (freeRound (p2v stop)) fuel (p2v (pgsize4kb * k)) m = each (List.range' k n) Vm.kfree m := by
  intro n
  induction n with
  | zero =>
      intro k fuel m _ hk hn hfuel
      obtain ⟨fuel, rfl⟩ : ∃ j, fuel = j + 1 := ⟨fuel - 1, by omega⟩
      have hend : ¬ (p2v (pgsize4kb * k) + pgsize4kb) % 2 ^ 64 ≤ p2v stop := by
        rw [p2v_of_le (by omega), p2v_of_le (by omega)]
        simp only [pgsize4kb, phyStop, pageOffset] at hn hk hstop ⊢
        omega
      refine loop_inr ?_
      rw [freeRound, if_neg hend]
      rfl
  | succ n ih =>
      intro k fuel m hb hk hn hfuel
      obtain ⟨fuel, rfl⟩ : ∃ j, fuel = j + 1 := ⟨fuel - 1, by omega⟩
      have hlt : pgsize4kb * (k + 1) ≤ stop := by
        simp only [pgsize4kb] at hn ⊢
        omega
      have hmul : pgsize4kb * (k + 1) = pgsize4kb * k + pgsize4kb := rfl
      have hnext : (p2v (pgsize4kb * k) + pgsize4kb) % 2 ^ 64 = p2v (pgsize4kb * (k + 1)) := by
        rw [p2v_of_le (by omega), p2v_of_le (by omega)]
        simp only [pgsize4kb, phyStop, pageOffset] at hk ⊢
        omega
      have hgo : p2v (pgsize4kb * (k + 1)) ≤ p2v stop := by
        rw [p2v_of_le (by omega), p2v_of_le (by omega)]
        exact Nat.add_le_add_right hlt _
      rw [List.range'_succ, each, loop_inl (x := kfree (p2v (pgsize4kb * k))) (j := p2v (pgsize4kb * (k + 1)))]
      · refine bind_eq (kfree_eq (by simp only [pgsize4kb, phyStop] at hlt hstop ⊢; omega) hb) fun _ m' hok => ?_
        exact ih (by rw [((freed_bumpEnd k m).of_ok hok).1]; exact hb) (by omega) (by omega) (by omega)
      · rw [freeRound, hnext, if_pos hgo]

theorem freeRange_eq (hb : m.bumpEnd ≤ phyStop) (hstart : start ≤ phyStop) (hstop : stop ≤ phyStop) :
    freeRange (p2v start) (p2v stop) m = Vm.freeRange start stop m := by
  have hfilter : ((List.range (stop / pgsize4kb)).filter fun f => start ≤ pgsize4kb * f) =
      List.range' ((start + 4095) / pgsize4kb) (stop / pgsize4kb - (start + 4095) / pgsize4kb) := by
    rw [← filter_range]
    refine List.filter_congr fun f _ => decide_eq_decide.mpr ?_
    simp only [pgsize4kb]
    omega
  have hround : roundDown ((p2v start + pgsize4kb - 1) % 2 ^ 64) pgsize4kb =
    p2v (pgsize4kb * ((start + 4095) / pgsize4kb)) := by
    rw [p2v_of_le (by omega), p2v_of_le (by simp only [pgsize4kb, phyStop] at hstart ⊢; omega)]
    simp only [roundDown, pgsize4kb, phyStop, pageOffset] at hstart ⊢
    omega
  rw [freeRange, Vm.freeRange, hfilter, hround]
  refine freeRange_loop hstop hb (by simp only [pgsize4kb, phyStop] at hstart ⊢; omega) rfl ?_
  rw [p2v_of_le (by omega)]
  simp only [pgsize4kb, pageOffset]
  omega

/-! ## The entries -/

/-- The memory below the bump end is still that of `m₀`. -/
structure Reads (m₀ m : Mem) : Prop where
  bumpEnd : m.bumpEnd = m₀.bumpEnd
  phys : ∀ a < m₀.bumpEnd, m.phys a = m₀.phys a

theorem Reads.le (h : Reads m₀ m) (ha : a + w ≤ m₀.bumpEnd) : m.phys.le a w = m₀.phys.le a w :=
  Bytes.le_congr fun k hk => h.phys (a + k) (by omega)

/-- The body of the loop of the `kinit` of frames. -/
def freeRegion (e : MmapEntry) : MemM Unit :=
  if e.avail then do
    let m ← get
    Vm.freeRange (max e.baseAddr m.bumpEnd) (e.baseAddr + e.length)
  else pure ()

theorem Reads.freeRegion_keeps (h : Reads m₀ m) (e : MmapEntry) :
    Wp (freeRegion e) (fun _ m' => Reads m₀ m') (fun _ => True) m := by
  unfold freeRegion
  rw [wp_ite]
  refine ⟨fun _ => ?_, fun _ => h⟩
  rw [wp_bind, wp_get]
  refine wp_each (fun _ m' => Reads m₀ m') (fun f _ m₁ h₁ => (freed_bumpEnd f m₁).post ?_) _ m h
  rintro _ m₂ ⟨hb, hp⟩
  exact ⟨hb.trans h₁.bumpEnd, fun a ha => (hp a (by rw [h₁.bumpEnd]; exact ha)).trans (h₁.phys a ha)⟩

theorem Reads.tag_eq (h : Reads m₀ m) (ht : tag + 8 ≤ m₀.bumpEnd) : tagType m.phys tag = tagType m₀.phys tag ∧
    tagSize m.phys tag = tagSize m₀.phys tag ∧ nextTag m.phys tag = nextTag m₀.phys tag := by
  have h1 : tagType m.phys tag = tagType m₀.phys tag := h.le (by omega)
  have h2 : tagSize m.phys tag = tagSize m₀.phys tag := h.le (by omega)
  refine ⟨h1, h2, ?_⟩
  rw [nextTag, nextTag, h2]

/-- An entry of the map lies in its tag. -/
theorem entry_inside {b : Bytes} (hsize : 16 ≤ tagSize b tag) (hentry : 24 ≤ entrySize b tag)
    (hi : i < entryLength b tag) :
    16 + i * entrySize b tag + 24 ≤ tagSize b tag := by
  have hlt : tagSize b tag < 2 ^ 32 := Nat.lt_of_lt_of_eq (Bytes.le_lt _ _ _) (by decide)
  have hmod : (tagSize b tag + (2 ^ 64 - 16)) % 2 ^ 64 = tagSize b tag - 16 := by omega
  rw [entryLength, hmod] at hi
  have hmul : (i + 1) * entrySize b tag ≤ tagSize b tag - 16 :=
    Nat.le_trans (Nat.mul_le_mul_right _ hi) (Nat.div_mul_le_self _ _)
  rw [Nat.add_mul, Nat.one_mul] at hmul
  omega

theorem Reads.entryAt_eq (h : Reads m₀ m) (hsize : 16 ≤ tagSize m₀.phys tag) (hentry : 24 ≤ entrySize m₀.phys tag)
    (hstop : tag + tagSize m₀.phys tag ≤ m₀.bumpEnd) (hi : i < entryLength m₀.phys tag) :
    entryAt m.phys tag i = entryAt m₀.phys tag i := by
  have hin := entry_inside hsize hentry hi
  have hes : entrySize m.phys tag = entrySize m₀.phys tag := h.le (by omega)
  unfold entryAt
  dsimp only
  rw [hes, h.le (by omega), h.le (by omega), h.le (by omega)]

theorem Reads.freeEntry_eq {e : MmapEntry} (h : Reads m₀ m) (hb : m₀.bumpEnd ≤ phyStop) (he : entryAt m.phys tag i = e)
    (hstop : e.avail → e.baseAddr + e.length ≤ phyStop) : freeEntry tag i m = freeRegion e m := by
  unfold freeEntry freeRegion
  rw [get_bind, he]
  dsimp only
  by_cases ha : e.avail = true
  · have hle := hstop ha
    have hmax : (if e.baseAddr < m.bumpEnd then m.bumpEnd else e.baseAddr) = max e.baseAddr m.bumpEnd := by
      split <;> omega
    have hmod : (e.baseAddr + e.length) % 2 ^ 64 = e.baseAddr + e.length :=
      Nat.mod_eq_of_lt (Nat.lt_of_le_of_lt hle (by decide))
    have hbe := h.bumpEnd
    rw [if_pos ha, if_pos ha, get_bind, hmax, hmod]
    exact freeRange_eq (by omega) (by omega) hle
  · rw [if_neg ha, if_neg ha]

/-- A tag with a memory map. -/
theorem Reads.freeEntries_eq (h : Reads m₀ m) (hb : m₀.bumpEnd ≤ phyStop) (hsize : 16 ≤ tagSize m₀.phys tag)
    (hentry : 24 ≤ entrySize m₀.phys tag) (hend : tag + tagSize m₀.phys tag ≤ m₀.bumpEnd)
    (hstop : ∀ i < entryLength m₀.phys tag, (entryAt m₀.phys tag i).avail →
      (entryAt m₀.phys tag i).baseAddr + (entryAt m₀.phys tag i).length ≤ phyStop) :
    freeEntries tag m = each ((List.range (entryLength m₀.phys tag)).map (entryAt m₀.phys tag)) freeRegion m := by
  have hlen : entryLength m.phys tag = entryLength m₀.phys tag := by
    have hes : entrySize m.phys tag = entrySize m₀.phys tag := h.le (by omega)
    rw [entryLength, entryLength, (h.tag_eq (by omega)).2.1, hes]
  rw [each_map, freeEntries, get_bind, hlen]
  refine each_eq (fun m' => Reads m₀ m') (fun i hi m₁ h₁ => ?_) h
  have hi := List.mem_range.mp hi
  exact ⟨h₁.freeEntry_eq hb (h₁.entryAt_eq hsize hentry hend hi) (hstop i hi), h₁.freeRegion_keeps _⟩

/-! ## The tags -/

theorem Reads.each_keeps (h : Reads m₀ m) (l : List MmapEntry) :
    Wp (each l freeRegion) (fun _ m' => Reads m₀ m') (fun _ => True) m :=
  wp_each (fun _ m' => Reads m₀ m') (fun e _ _ h' => h'.freeRegion_keeps e) l m h

theorem kinitRound_eq (hm : Reads m₀ m) (hb : m₀.bumpEnd ≤ phyStop) (htype : tagType m₀.phys a ≠ 0)
    (hsize : 8 ≤ tagSize m₀.phys a) (hend : a + tagSize m₀.phys a ≤ m₀.bumpEnd)
    (hmmap : tagType m₀.phys a = mb2TagMmap → 16 ≤ tagSize m₀.phys a ∧ 24 ≤ entrySize m₀.phys a)
    (hstop : ∀ e ∈ entries m₀.phys [a], e.avail → e.baseAddr + e.length ≤ phyStop) :
    kinitRound a m = (each (entries m₀.phys [a]) freeRegion >>= fun _ => pure (.inl (nextTag m₀.phys a))) m := by
  have hentries : entries m₀.phys [a] =
      if tagType m₀.phys a = mb2TagMmap then (List.range (entryLength m₀.phys a)).map (entryAt m₀.phys a) else [] :=
    List.flatMap_singleton _ _
  have hfree : freeTag a m = each (entries m₀.phys [a]) freeRegion m := by
    rw [freeTag, get_bind, (hm.tag_eq (by omega)).1]
    by_cases h6 : tagType m₀.phys a = mb2TagMmap
    · rw [if_pos h6] at hentries ⊢
      rw [hentries]
      refine hm.freeEntries_eq hb (hmmap h6).1 (hmmap h6).2 hend fun i hi => hstop _ ?_
      rw [hentries]
      exact List.mem_map.mpr ⟨i, List.mem_range.mpr hi, rfl⟩
    · rw [if_neg h6] at hentries ⊢
      rw [hentries]
      rfl
  rw [kinitRound, get_bind, if_neg (by rw [(hm.tag_eq (by omega)).1]; exact htype)]
  refine bind_eq hfree fun _ m' hok => ?_
  have hm' := (hm.each_keeps _).of_ok hok
  rw [get_bind, (hm'.tag_eq (by omega)).2.2]

theorem kinit_loop {tagsEnd : Nat} (hb : m₀.bumpEnd ≤ phyStop) (hend : tagsEnd ≤ m₀.bumpEnd)
    (ht : Tags m₀.phys tagsEnd a tags) (hstop : ∀ e ∈ entries m₀.phys tags, e.avail → e.baseAddr + e.length ≤ phyStop) :
    ∀ {fuel : Nat} {m : Mem}, Reads m₀ m → tags.length < fuel →
      loop kinitRound fuel a m = each (entries m₀.phys tags) freeRegion m := by
  induction ht with
  | done hlt htype =>
      intro fuel m hm hfuel
      obtain ⟨fuel, rfl⟩ : ∃ j, fuel = j + 1 := ⟨fuel - 1, by omega⟩
      refine loop_inr ?_
      rw [kinitRound, get_bind, if_pos ((hm.tag_eq (by omega)).1.trans htype)]
      rfl
  | @cons a l htype hsize hlast hmmap h ih =>
      intro fuel m hm hfuel
      obtain ⟨fuel, rfl⟩ : ∃ j, fuel = j + 1 := ⟨fuel - 1, by omega⟩
      have hcons : entries m₀.phys (a :: l) = entries m₀.phys [a] ++ entries m₀.phys l := by
        simp [entries]
      rw [hcons] at hstop ⊢
      rw [each_append, loop_inl (kinitRound_eq hm hb htype hsize (by omega) hmmap fun e he =>
        hstop e (List.mem_append_left _ he))]
      refine bind_eq rfl fun _ m' hok => ih (fun e he => hstop e (List.mem_append_right _ he))
        ((hm.each_keeps _).of_ok hok) ?_
      rw [List.length_cons] at hfuel
      omega

theorem Tags.length_le {b : Bytes} (h : Tags b stop a tags) : a + 8 * tags.length + 8 ≤ stop := by
  induction h with
  | done hlt _ => exact hlt
  | cons _ hsize _ _ _ ih =>
      simp only [nextTag, roundDown] at ih
      rw [List.length_cons]
      omega

/-- At boot `kinit` frees the frames of the entries that the tags hold. -/
theorem kinit_refines {info : Nat} (hb : m.bumpEnd ≤ phyStop) (hend : info + m.phys.le info 4 ≤ m.bumpEnd)
    (ht : Tags m.phys (info + m.phys.le info 4) (info + 8) tags)
    (hstop : ∀ e ∈ entries m.phys tags, e.avail → e.baseAddr + e.length ≤ phyStop) :
    kinit info m = Vm.kinit (entries m.phys tags) m := by
  unfold kinit Vm.kinit
  refine bind_eq rfl ?_
  rintro _ _ ⟨⟩
  rw [get_bind]
  have hlen := ht.length_le
  have hreads : Reads m { m with freeList := none } := ⟨rfl, fun _ _ => rfl⟩
  exact kinit_loop hb hend ht hstop hreads (show tags.length < m.phys.le info 4 + 1 by omega)

/-! ## The free list -/

theorem mem_frames {e : MmapEntry} {bumpEnd : Nat} : f ∈ e.frames bumpEnd ↔
    e.avail ∧ (e.baseAddr ≤ pgsize4kb * f ∧ pgsize4kb * f + pgsize4kb ≤ e.baseAddr + e.length) ∧
      bumpEnd ≤ pgsize4kb * f := by
  unfold MmapEntry.frames
  split <;> rename_i ha
  · rw [List.mem_filter, List.mem_range, decide_eq_true_eq]
    simp only [pgsize4kb]
    refine ⟨fun h => ⟨ha, by omega⟩, fun h => ?_⟩
    obtain ⟨-, h⟩ := h
    omega
  · exact ⟨fun h => absurd h List.not_mem_nil, fun h => absurd h.1 ha⟩

theorem mem_flatMap_frames {map : List MmapEntry} {bumpEnd : Nat} :
    f ∈ (map.flatMap fun e => e.frames bumpEnd) ↔ Usable map bumpEnd f := by
  rw [List.mem_flatMap, Usable]
  constructor
  · rintro ⟨e, he, hf⟩
    obtain ⟨ha, hin, hb⟩ := mem_frames.mp hf
    exact ⟨⟨e, he, ha, hin⟩, hb⟩
  · rintro ⟨⟨e, he, ha, hin⟩, hb⟩
    exact ⟨e, he, mem_frames.mpr ⟨ha, hin, hb⟩⟩

theorem frames_nodup (e : MmapEntry) (bumpEnd : Nat) : (e.frames bumpEnd).Nodup := by
  unfold MmapEntry.frames
  split
  · exact List.nodup_range.filter _
  · exact List.nodup_nil

/-- Disjoint regions have no frame in common. -/
theorem Regular.nodup {map : List MmapEntry} (h : Regular map) (bumpEnd : Nat) :
    (map.flatMap fun e => e.frames bumpEnd).Nodup := by
  refine List.nodup_flatMap.mpr ⟨fun e _ => frames_nodup e bumpEnd, h.disjoint.imp fun {e e'} hd f hf hf' => ?_⟩
  obtain ⟨ha, h1, -⟩ := mem_frames.mp hf
  obtain ⟨ha', h2, -⟩ := mem_frames.mp hf'
  simp only [pgsize4kb] at h1 h2
  exact hd ha ha' (pgsize4kb * f) ⟨⟨h1.1, by simp only [pgsize4kb]; omega⟩, ⟨h2.1, by simp only [pgsize4kb]; omega⟩⟩

theorem Regular.freeable {map : List MmapEntry} (h : Regular map) {e : MmapEntry} (he : e ∈ map)
    (hf : f ∈ e.frames m.bumpEnd) :
    Freeable m f := by
  obtain ⟨ha, h1, hb⟩ := mem_frames.mp hf
  have hle := h.stop e he ha
  simp only [pgsize4kb, phyStop] at h1 hle
  exact ⟨hb, by simp only [pgsize4kb, phyStop]; omega⟩

/-- At boot the free list gets the usable frames. -/
theorem kinit_freeList {info : Nat} (h0 : 0 < m.bumpEnd) (hb : m.bumpEnd ≤ phyStop)
    (hend : info + m.phys.le info 4 ≤ m.bumpEnd) (ht : Tags m.phys (info + m.phys.le info 4) (info + 8) tags)
    (hr : Regular (entries m.phys tags)) :
    ∃ m' l, kinit info m = .ok ((), m') ∧ FreeList m' l ∧ ∀ f, f ∈ l ↔ Usable (entries m.phys tags) m.bumpEnd f := by
  obtain ⟨_, m', hok, hl, -⟩ := (kinit_spec h0 (hr.nodup m.bumpEnd)).returns_of fun _ => by
    rintro ⟨e, he, x, hx, hbad⟩
    exact hbad (hr.freeable he hx)
  refine ⟨m', _, (kinit_refines hb hend ht hr.stop).trans hok, hl, fun f => ?_⟩
  rw [List.mem_reverse, mem_flatMap_frames]

/-! ## Afterwards -/

/-- The frames `l` are free or allocated, and those of `s.2` are the allocated ones. -/
structure Tracks (l : List Nat) (s : Mem × List Nat) (O : Nat → Use Unit) : Prop where
  frames : Frames lower O s.1
  nodup : s.2.Nodup
  held : ∀ x, x ∈ s.2 ↔ O x = .held
  all : ∀ x, x ∈ l ↔ O x = .free ∨ O x = .held

theorem Tracks.step {l : List Nat} {s s' : Mem × List Nat} {O : Nat → Use Unit} {c : Call} (h : Tracks l s O)
    (hs : step s c = some s') : ∃ O', Tracks l s' O' := by
  cases c with
  | kalloc =>
      obtain ⟨r, m', hok, hr⟩ := (kalloc_spec h.frames Use.loose_held).returns
      rw [Boot.step, hok] at hs
      rcases hr with ⟨rfl, rfl, -⟩ | ⟨x, rfl, hx, hfr, -⟩
      · obtain rfl := Option.some.inj hs
        exact ⟨O, h⟩
      · obtain rfl := Option.some.inj hs
        refine ⟨upd O x .held, hfr, List.nodup_cons.mpr ⟨fun h0 => ?_, h.nodup⟩, fun y => ?_, fun y => ?_⟩
        · rw [h.held, hx] at h0
          cases h0
        · rw [List.mem_cons]
          by_cases hy : y = x
          · simp [hy]
          · simp [hy, h.held]
        · by_cases hy : y = x
          · simp [hy, h.all, hx]
          · rw [upd_of_ne hy, h.all]
  | kfree x =>
      rw [Boot.step] at hs
      split at hs
      · rename_i hmem
        have hx := (h.held x).mp hmem
        obtain ⟨_, m', hok, hfr, -⟩ := (kfree_spec h.frames (x := x) (by rw [hx]; exact Use.loose_held)).returns
        rw [hok] at hs
        obtain rfl := Option.some.inj hs
        refine ⟨upd O x .free, hfr, h.nodup.erase x, fun y => ?_, fun y => ?_⟩
        · rw [h.nodup.mem_erase_iff]
          by_cases hy : y = x
          · simp [hy]
          · simp [hy, h.held]
        · by_cases hy : y = x
          · simp [hy, h.all, hx]
          · rw [upd_of_ne hy, h.all]
      · cases hs
  | write x b =>
      rw [Boot.step] at hs
      split at hs
      · rename_i hmem
        obtain rfl := Option.some.inj hs
        exact ⟨O, h.frames.write_loose (by rw [(h.held x).mp hmem]; exact Use.loose_held) b, h.nodup, h.held, h.all⟩
      · cases hs

theorem tracks_of_reachable {l : List Nat} {s : Mem × List Nat} (h : FreeList m l) (hs : (allocator m).Reachable s) :
    ∃ O, Tracks l s O := by
  refine hs.invariant (P := fun s => ∃ O, Tracks l s O) ?_ ?_
  · rintro s rfl
    refine ⟨_, h.frames lower, List.nodup_nil, fun x => ?_, fun x => ?_⟩
    · dsimp only
      split <;> simp
    · split <;> rename_i hx <;> simp [hx]
  · rintro s c s' ⟨O, ho⟩ hstep
    exact ho.step hstep

end Xv6.Vm.Boot
