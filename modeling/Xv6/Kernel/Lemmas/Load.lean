import Xv6.Vm.Lemmas.Image
import Xv6.Kernel.Lemmas.ProcCalls

/-!
# Loading a program

What the loop of `exec` over the program headers does to the new address space. The file may be any file or a device:
`F` is what is known about the file system while it is read, and `S` what is known about the bytes that come from an
offset.
-/

namespace Xv6.Kernel

open Xv6.Lib Xv6.Fs Xv6.Vm

/-- Reading from an inode keeps `F`, and gives bytes with `S` when it gives as many as were asked for. -/
structure Source (ip : Slot) (E : Halt → Prop) (F : Fs.State → Prop) (S : Nat → List UInt8 → Prop) : Prop where
  read : ∀ {s off n}, F s → off < 2 ^ 64 → n < 2 ^ 64 →
    Wp (readi ip off n) (fun r s' => F s' ∧ ∀ l, r = some l → l.length = n → S off l) E s
  nil : ∀ off, S off []
  append : ∀ {off l l'}, off < 2 ^ 64 → S off l → S (wrap (off + l.length)) l' → S off (l ++ l')

variable {τ : Type} {O : Nat → Use τ} {k : System} {ip : Slot} {E : Halt → Prop} {F : Fs.State → Prop}
  {S : Nat → List UInt8 → Prop} {f addr offset sz : Nat}

theorem wrap_of_lt {a : Nat} (h : a < 2 ^ 64) : wrap a = a := by
  unfold wrap
  omega

/-- The pages get the bytes of the file, unless there are too few. -/
theorem loadUvm_wrote (hS : Source ip E F S) (hF : F k.fs) (h : Frames lower O k.mem) (hf : O f = .node f 0 0)
    (haddr : addr % pgsize4kb = 0) (hend : addr + sz ≤ userTop)
    (hpages : ∀ v, addr / pgsize4kb ≤ v → v < pageUp (addr + sz) → k.mem.page f v ≠ none) (hoff : offset < 2 ^ 64) :
    Wp (loadUvm f addr ip offset sz) (fun r k' => ∃ s' m', k' = { k with fs := s', mem := m' } ∧ F s' ∧
      ((r = 0 ∧ ∃ l, l.length = sz ∧ S offset l ∧ Wrote f addr l O k.mem m') ∨
        (r = -1 ∧ Worked f O k.mem O m' ∧
          ∀ v < userPages, (m'.page f v).map Prod.fst = (k.mem.page f v).map Prod.fst))) E k := by
  unfold loadUvm
  rw [wp_bind, wp_panicIf]
  refine ⟨fun h0 => absurd haddr h0, fun _ => ?_⟩
  -- the first pages are done
  refine wp_loop (fun i k' => ∃ s' m' l, k' = { k with fs := s', mem := m' } ∧ F s' ∧ i % pgsize4kb = 0 ∧
    l.length = min i sz ∧
      S offset l ∧ Wrote f addr l O k.mem m') (fun i => sz - i) ?_ _ _ _
      ⟨k.fs, k.mem, [], rfl, hF, rfl, (Nat.zero_min sz).symm, hS.nil offset, Wrote.nil h hf addr⟩
        (Nat.lt_succ_of_le (Nat.sub_le _ _))
  rintro i _ ⟨s₁, m₁, l, rfl, hF₁, hi, hlen, hSl, hw⟩
  rw [wp_ite]
  refine ⟨fun hlt => ?_, fun hge => ⟨s₁, m₁, rfl, hF₁, Or.inl ⟨rfl, l, by omega, hSl, hw⟩⟩⟩
  have hleni : l.length = i := by omega
  have hlow : addr + i < userTop := by omega
  have hv := page_lt_of_lt hlow
  have h₁ := hw.worked.moved.frames
  have hpage : m₁.page f ((addr + i) / pgsize4kb) ≠ none := by
    intro h0
    have hent := hw.entry _ hv
    rw [h0, Option.map_none, eq_comm, Option.map_eq_none_iff] at hent
    refine hpages _ (Nat.div_le_div_right (Nat.le_add_right _ _)) ?_ hent
    rw [lt_pageUp]
    exact Nat.lt_of_le_of_lt (Nat.mul_div_le _ _) (by omega)
  obtain ⟨⟨e, c⟩, hp⟩ := Option.ne_none_iff_exists'.mp hpage
  obtain ⟨hpres, rfl, rfl⟩ := page_eq_some hp
  rw [wp_bind, onMem, wp_on]
  refine (walkPml4_find h₁ hw.worked.root (vpn_user hlow) (lower_in.mpr hv)
    (h₁.clear rfl hw.worked.root (lower_in.mpr hv))).mono ?_ fun _ h0 => h0.elim
  rintro _ m₁ ⟨rfl, ⟨rfl, habs⟩ | ⟨t, rfl, ht, -⟩⟩
  · change present (m₁.entry f 4 ((addr + i) / pgsize4kb)) = false at habs
    rw [hpres] at habs
    cases habs
  dsimp only
  rw [wp_bind, wp_get, wp_bind, onFs, wp_on]
  dsimp only
  have hpte : m₁.pte t ((addr + i) / pgsize4kb % 512) = m₁.entry f 4 ((addr + i) / pgsize4kb) := by
    rw [← entry_child (h₁.place ht) (Nat.mod_lt _ (by decide)), Nat.div_add_mod]
  rw [hpte]
  have hn : min (sz - i) pgsize4kb < 2 ^ 64 := Nat.lt_of_le_of_lt (Nat.min_le_right _ _) (by decide)
  refine (hS.read hF₁ (wrap_lt _) hn).post ?_
  rintro r s₂ ⟨hF₂, hr⟩
  rw [wp_bind, wp_get, wp_bind, onMem, wp_on, wp_setPage, wp_ite]
  dsimp only
  refine ⟨fun _ => ⟨s₂, _, rfl, hF₂, Or.inr ⟨rfl, ?_⟩⟩, fun hfull => ?_⟩
  · -- the page is written as far as there are bytes
    obtain ⟨hw', hpage'⟩ := h₁.write_page hw.worked.root hv hp
      ((m₁.pages (pteAddr (m₁.entry f 4 ((addr + i) / pgsize4kb)))).put 0 (r.getD []))
    refine ⟨hw.worked.trans hw', fun v hv => ?_⟩
    rw [← hw.entry v hv, hpage' v hv]
    split
    · rename_i hvv
      rw [hvv, hp]
      rfl
    · rfl
  · have hfull := Decidable.not_not.mp hfull
    have hsome : r = some (r.getD []) := by
      cases r with
      | none =>
          have h0 : 0 = min (sz - i) pgsize4kb := hfull
          simp only [pgsize4kb] at h0
          omega
      | some l' => rfl
    generalize r.getD [] = l' at hfull hsome ⊢
    have hmod : (addr + i) / pgsize4kb * pgsize4kb = addr + i := by
      simp only [pgsize4kb] at haddr hi ⊢
      omega
    have hput : Wrote f (pgsize4kb * ((addr + i) / pgsize4kb) + 0) l' O m₁ _ :=
      h₁.put_page hw.worked.root hv hp (by omega)
    revert hput
    generalize m₁.write _ _ = m₂
    intro hput
    rw [Nat.add_zero, Nat.mul_comm, hmod, ← hleni] at hput
    have hS' := hr l' hsome hfull
    rw [← hleni] at hS'
    refine ⟨⟨s₂, m₂, l ++ l', rfl, hF₂, ?_, ?_, hS.append hoff hSl hS', hw.append hput (by omega)⟩, ?_⟩
    · rw [Nat.add_mod_right]
      exact hi
    · rw [List.length_append]
      omega
    · simp only [pgsize4kb]
      omega

/-! ## Segments -/

/-- A program header and the bytes of the file that it stands for. -/
structure Segment where
  header : ProgHeader
  data : List UInt8

/-- The memory that the segments give, a later one over an earlier one. -/
def imageOf (segs : List Segment) : Bytes := segs.foldl (fun b s => b.put s.header.vaddr s.data) fun _ => 0

/-- The end of the last segment. -/
def sizeOf (segs : List Segment) : Nat := segs.foldl (fun n s => max n (s.header.vaddr + s.header.memSz)) pgsize4kb

/-- The numbers of a program header have 64 bits. -/
structure ProgHeader.Bounded (ph : ProgHeader) : Prop where
  offset : ph.offset < 2 ^ 64
  vaddr : ph.vaddr < 2 ^ 64
  memSz : ph.memSz < 2 ^ 64

/-- What `exec` accepts. -/
structure ProgHeader.Loadable (ph : ProgHeader) : Prop where
  type : ph.type = elfProgLoad
  aligned : ph.vaddr % pgsize4kb = 0
  low : pgsize4kb ≤ ph.vaddr
  fits : ph.fileSz ≤ ph.memSz
  top : ph.vaddr + ph.memSz < userTop

structure Segment.Proper (S : Nat → List UInt8 → Prop) (s : Segment) : Prop where
  loadable : s.header.Loadable
  length : s.data.length = s.header.fileSz
  source : S s.header.offset s.data

/-- The space `f` of size `sz` holds the segments. -/
structure Loads (S : Nat → List UInt8 → Prop) (f : Nat) (segs : List Segment) (sz : Nat) (m : Mem) : Prop where
  image : Image f (pageUp sz) (imageOf segs) m
  size : sz = sizeOf segs
  top : sz < userTop
  proper : ∀ s ∈ segs, s.Proper S

theorem field_lt (l : List UInt8) (off : Nat) {w : Nat} (hw : w ≤ 8) : field l off w < 2 ^ 64 := by
  have hlen : ((l.drop off).take w).length ≤ 8 := Nat.le_trans (List.length_take_le _ _) hw
  calc field l off w < 256 ^ ((l.drop off).take w).length := leNat_lt _
    _ ≤ 256 ^ 8 := Nat.pow_le_pow_right (by decide) hlen
    _ = 2 ^ 64 := by decide

theorem ProgHeader.ofBytes_bounded (l : List UInt8) : (ofBytes l).Bounded :=
  ⟨field_lt l 8 (Nat.le_refl 8), field_lt l 16 (Nat.le_refl 8), field_lt l 40 (Nat.le_refl 8)⟩

theorem imageOf_concat (segs : List Segment) (s : Segment) :
    imageOf (segs ++ [s]) = (imageOf segs).put s.header.vaddr s.data := by
  rw [imageOf, List.foldl_append]
  rfl

theorem sizeOf_concat (segs : List Segment) (s : Segment) :
    sizeOf (segs ++ [s]) = max (sizeOf segs) (s.header.vaddr + s.header.memSz) := by
  rw [sizeOf, List.foldl_append]
  rfl

theorem le_sizeOf (segs : List Segment) : pgsize4kb ≤ sizeOf segs := by
  induction segs using List.reverseRecOn with
  | nil => exact Nat.le_refl _
  | append_singleton segs s ih =>
      rw [sizeOf_concat]
      exact Nat.le_trans ih (Nat.le_max_left _ _)

theorem wrap_sum {a b : Nat} (ha : a < 2 ^ 64) (hb : b < 2 ^ 64) (h : ¬ wrap ((a : Int) + b) < a) :
    wrap ((a : Int) + b) = a + b := by
  unfold wrap at h ⊢
  omega

variable {segs : List Segment} {ph : ProgHeader}

theorem execSegment_loads (hS : Source ip E F S) (hF : F k.fs) (h : Frames lower O k.mem) (hf : O f = .node f 0 0)
    (hl : Loads S f segs sz k.mem) (hph : ph.Bounded) :
    Wp (execSegment ip f ph sz) (fun r k' => ∃ O' s' m', k' = { k with fs := s', mem := m' } ∧ F s' ∧
      Worked f O k.mem O' m' ∧ r.2 < userTop ∧ (r.1 = true → (ph.type ≠ elfProgLoad ∧ Loads S f segs r.2 m') ∨
        ∃ data, ph.type = elfProgLoad ∧ Loads S f (segs ++ [⟨ph, data⟩]) r.2 m')) E k := by
  have hrefl := Worked.refl h hf
  unfold execSegment
  rw [wp_ite]
  refine ⟨fun h0 => ⟨O, k.fs, k.mem, rfl, hF, hrefl, hl.top, fun _ => Or.inl ⟨h0, hl⟩⟩, fun htype => ?_⟩
  have htype := Decidable.not_not.mp htype
  rw [wp_ite]
  refine ⟨fun _ => ⟨O, k.fs, k.mem, rfl, hF, hrefl, hl.top, fun h0 => by cases h0⟩, fun hfits => ?_⟩
  rw [wp_ite]
  refine ⟨fun _ => ⟨O, k.fs, k.mem, rfl, hF, hrefl, hl.top, fun h0 => by cases h0⟩, fun hwrap => ?_⟩
  rw [wrap_sum hph.vaddr hph.memSz hwrap, wp_bind, onMem, wp_on]
  have hge : pgsize4kb ≤ sz := hl.size ▸ le_sizeOf segs
  refine (hl.image.allocUvm h hf hge fun _ => hl.top).mono ?_ fun _ h0 => h0.elim
  rintro r m₁ ⟨O₁, hw₁, ⟨hr, hlt, -, hi₁, -⟩ | ⟨rfl, -⟩⟩
  · rw [wp_ite]
    refine ⟨fun h0 => ?_, fun _ => ?_⟩
    · simp only [pgsize4kb] at hge
      omega
    rw [wp_ite]
    refine ⟨fun _ => ⟨O₁, k.fs, m₁, rfl, hF, hw₁, hlt, fun h0 => by cases h0⟩, fun hlow => ?_⟩
    rw [wp_ite]
    refine ⟨fun _ => ⟨O₁, k.fs, m₁, rfl, hF, hw₁, hlt, fun h0 => by cases h0⟩, fun halign => ?_⟩
    have halign := Decidable.not_not.mp halign
    have hlow := Nat.not_lt.mp hlow
    have hfits := Nat.not_lt.mp hfits
    have hin : ph.vaddr + ph.fileSz ≤ r := by omega
    have htop : ph.vaddr + ph.memSz < userTop := by omega
    refine Wp.bind (loadUvm_wrote (k := { k with mem := m₁ }) hS hF hw₁.moved.frames hw₁.root halign (by omega)
      ?_ hph.offset) ?_
    · intro v hv hv'
      have h1 : 1 ≤ v := by
        simp only [pgsize4kb] at hlow hv
        omega
      refine hi₁.present h1 (Nat.lt_of_lt_of_le hv' ?_)
      exact Nat.div_le_div_right (by omega)
    · rintro ret _ ⟨s₂, m₂, rfl, hF₂, ⟨rfl, data, hlen, hSd, hwr⟩ | ⟨rfl, hw₂, -⟩⟩
      · rw [wp_ite]
        refine ⟨fun h0 => absurd h0 (by decide), fun _ => ?_⟩
        refine ⟨O₁, s₂, m₂, rfl, hF₂, hw₁.trans hwr.worked, hlt, fun _ => Or.inr ⟨data, htype, ?_⟩⟩
        have hpages : pageUp r ≤ userPages := by
          simp only [pageUp, pgsize4kb, userTop, userPages] at hlt ⊢
          omega
        have hroom : ph.vaddr + data.length ≤ pgsize4kb * pageUp r := by
          simp only [pageUp, pgsize4kb] at hin ⊢
          omega
        refine ⟨?_, ?_, hlt, fun s hs => ?_⟩
        · rw [imageOf_concat]
          exact hi₁.wrote hwr hpages hroom
        · rw [sizeOf_concat, hr, hl.size]
        · rcases List.mem_append.mp hs with hs | hs
          · exact hl.proper s hs
          · rw [List.mem_singleton.mp hs]
            exact ⟨⟨htype, halign, hlow, hfits, htop⟩, hlen, hSd⟩
      · rw [wp_ite]
        refine ⟨fun _ => ?_, fun h0 => absurd (by decide) h0⟩
        exact ⟨O₁, s₂, m₂, rfl, hF₂, hw₁.trans hw₂, hlt, fun h0 => by cases h0⟩
  · rw [wp_ite]
    refine ⟨fun _ => ?_, fun h0 => absurd rfl h0⟩
    exact ⟨O₁, k.fs, m₁, rfl, hF, hw₁, by decide, fun h0 => by cases h0⟩

/-! ## The loop over the program headers -/

/-- The program headers `phs` are read, and those of them that are to be loaded are the segments. -/
structure Progress (S : Nat → List UInt8 → Prop) (elf : ElfHeader) (f : Nat) (phs : List ProgHeader)
    (segs : List Segment) (i : Int) (sz : Nat) (m : Mem) : Prop where
  index : i = toShort phs.length
  read : ∀ (j : Nat) ph, phs[j]? = some ph → toShort j < elf.phNum ∧
    ∃ raw, raw.length = progHeaderSize ∧ S (wrap (elf.phOff + progHeaderSize * toShort j)) raw ∧
      ph = ProgHeader.ofBytes raw
  chosen : segs.map Segment.header = phs.filter fun ph => ph.type = elfProgLoad
  loads : Loads S f segs sz m

variable {elf : ElfHeader} {phs : List ProgHeader} {i : Int}

theorem toShort_succ (n : Nat) : toShort (toShort n + 1) = toShort ((n + 1 : Nat) : Int) := by
  unfold toShort
  omega

theorem Progress.start (h : ∀ v < userPages, k.mem.page f v = none) : Progress S elf f [] [] 0 pgsize4kb k.mem where
  index := rfl
  read := fun j ph h0 => by
    rw [List.getElem?_nil] at h0
    cases h0
  chosen := rfl
  loads := ⟨Image.empty h, rfl, by decide, fun s hs => absurd hs List.not_mem_nil⟩

/-- One more header is read. -/
theorem Progress.next {sz' : Nat} {segs' : List Segment} {m m' : Mem} {raw : List UInt8}
    (h : Progress S elf f phs segs i sz m) (hi : i < elf.phNum) (hlen : raw.length = progHeaderSize)
    (hraw : S (wrap (elf.phOff + progHeaderSize * i)) raw)
    (hsegs : segs'.map Segment.header = (phs ++ [ProgHeader.ofBytes raw]).filter fun ph => ph.type = elfProgLoad)
    (hl : Loads S f segs' sz' m') :
    Progress S elf f (phs ++ [.ofBytes raw]) segs' (toShort (i + 1)) sz' m' where
  index := by rw [h.index, toShort_succ, List.length_append, List.length_singleton]
  read := fun j ph hj => by
    rcases Nat.lt_or_ge j phs.length with hlt | hge
    · rw [List.getElem?_append_left hlt] at hj
      exact h.read j ph hj
    · rw [List.getElem?_append_right hge] at hj
      obtain ⟨hj0, rfl⟩ : j - phs.length = 0 ∧ ProgHeader.ofBytes raw = ph := by
        cases hd : j - phs.length with
        | zero =>
            rw [hd] at hj
            exact ⟨rfl, Option.some.inj hj⟩
        | succ d =>
            rw [hd] at hj
            cases hj
      have hjn : j = phs.length := by omega
      rw [hjn, ← h.index]
      exact ⟨hi, raw, hlen, hraw, rfl⟩
  chosen := hsegs
  loads := hl

theorem execRound_progress (hS : Source ip E F S) (hF : F k.fs) (h : Frames lower O k.mem) (hf : O f = .node f 0 0)
    (hp : Progress S elf f phs segs i sz k.mem) :
    Wp (execRound ip f elf (i, sz))
      (fun r k' => ∃ O' s' m', k' = { k with fs := s', mem := m' } ∧ F s' ∧ Worked f O k.mem O' m' ∧
      (∀ i' sz', r = .inl (i', sz') → i < elf.phNum ∧ i' = toShort (i + 1) ∧
        ∃ phs' segs', phs'.length = phs.length + 1 ∧ Progress S elf f phs' segs' i' sz' m') ∧
      (∀ ok sz', r = .inr (ok, sz') → sz' < userTop ∧ (ok = true → sz' = sz ∧ elf.phNum ≤ i ∧ m' = k.mem))) E k := by
  unfold execRound
  rw [wp_ite]
  refine ⟨fun hi => ?_, fun hi => ?_⟩
  · rw [wp_bind, onFs, wp_on]
    refine (hS.read hF (wrap_lt _) (by decide)).post ?_
    rintro r s₁ ⟨hF₁, hr⟩
    dsimp only
    rw [wp_ite]
    refine ⟨fun _ => ⟨O, s₁, k.mem, rfl, hF₁, Worked.refl h hf, (fun _ _ h0 => by cases h0), fun ok sz' h0 => ?_⟩,
      fun hfull => ?_⟩
    · cases h0
      exact ⟨hp.loads.top, fun h1 => by cases h1⟩
    have hfull := Decidable.not_not.mp hfull
    obtain ⟨raw, rfl⟩ : ∃ raw, r = some raw := by
      cases r with
      | none => cases hfull
      | some raw => exact ⟨raw, rfl⟩
    have hraw := hr raw rfl hfull
    rw [Option.getD_some] at hfull ⊢
    refine Wp.bind (execSegment_loads (k := { k with fs := s₁ }) hS hF₁ h hf hp.loads (ProgHeader.ofBytes_bounded raw))
      ?_
    rintro ⟨ok, sz'⟩ _ ⟨O', s', m', rfl, hF', hw, hlt, hok⟩
    rw [wp_ite]
    refine ⟨fun h0 => ⟨O', s', m', rfl, hF', hw, fun i₁ sz₁ h1 => ?_, (fun _ _ h0 => by cases h0)⟩,
      fun h0 => ⟨O', s', m', rfl, hF', hw, (fun _ _ h0 => by cases h0), fun ok₁ sz₁ h1 => ?_⟩⟩
    · cases h1
      refine ⟨hi, rfl, phs ++ [.ofBytes raw], ?_⟩
      rcases hok h0 with ⟨htype, hl⟩ | ⟨data, htype, hl⟩
      · refine ⟨segs, List.length_append, hp.next hi hfull hraw ?_ hl⟩
        rw [List.filter_append, hp.chosen, List.filter_singleton, decide_eq_false htype]
        exact (List.append_nil _).symm
      · refine ⟨segs ++ [⟨.ofBytes raw, data⟩], List.length_append, hp.next hi hfull hraw ?_ hl⟩
        rw [List.filter_append, List.map_append, hp.chosen, List.filter_singleton, decide_eq_true htype]
        rfl
    · cases h1
      exact ⟨hlt, fun h2 => by cases h2⟩
  · refine ⟨O, k.fs, k.mem, rfl, hF, Worked.refl h hf, (fun _ _ h0 => by cases h0), fun ok sz' h0 => ?_⟩
    cases h0
    exact ⟨hp.loads.top, fun _ => ⟨rfl, Int.not_lt.mp hi, rfl⟩⟩

/-- The loop ends with the headers that were read, or at the label `bad`. -/
theorem execLoad_progress (hE : E .diverge) (hS : Source ip E F S) (hF : F k.fs) (h : Frames lower O k.mem)
    (hf : O f = .node f 0 0) (hempty : ∀ v < userPages, k.mem.page f v = none) :
    Wp (execLoad ip f elf) (fun r k' => ∃ O' s' m', k' = { k with fs := s', mem := m' } ∧ F s' ∧
      Worked f O k.mem O' m' ∧ r.2 < userTop ∧
        (r.1 = true → ∃ phs segs i, Progress S elf f phs segs i r.2 m' ∧ elf.phNum ≤ i)) E k := by
  unfold execLoad
  refine wp_loop_or hE (fun (a : Int × Nat) k' => ∃ O' s' m' phs segs, k' = { k with fs := s', mem := m' } ∧ F s' ∧
    Worked f O k.mem O' m' ∧ Progress S elf f phs segs a.1 a.2 m') ?_ _ _ _
    ⟨O, k.fs, k.mem, [], [], rfl, hF, Worked.refl h hf, Progress.start hempty⟩
  rintro ⟨i, sz⟩ _ ⟨O₁, s₁, m₁, phs, segs, rfl, hF₁, hw₁, hp₁⟩
  refine (execRound_progress (k := { k with fs := s₁, mem := m₁ }) hS hF₁ hw₁.moved.frames hw₁.root hp₁).post ?_
  rintro (⟨i', sz'⟩ | ⟨ok, sz'⟩) _ ⟨O', s', m', rfl, hF', hw', hnext, hend⟩
  · obtain ⟨-, -, phs', segs', -, hp'⟩ := hnext i' sz' rfl
    exact ⟨O', s', m', phs', segs', rfl, hF', hw₁.trans hw', hp'⟩
  · obtain ⟨hlt, hok⟩ := hend ok sz' rfl
    refine ⟨O', s', m', rfl, hF', hw₁.trans hw', hlt, fun h0 => ?_⟩
    obtain ⟨rfl, hi, rfl⟩ := hok h0
    exact ⟨phs, segs, i, hp₁, hi⟩

/-! ## Files -/

/-- The bytes of a file from an offset on. -/
def FromFile (data : List UInt8) (off : Nat) (l : List UInt8) : Prop :=
  ∀ (j : Nat) x, l[j]? = some x → data[off + j]? = some x

variable {s : Fs.State} {data : List UInt8}

theorem FromFile.le {off : Nat} {l : List UInt8} (h : FromFile data off l) (hl : 0 < l.length) :
    off + l.length ≤ data.length := by
  have hlast : l.length - 1 < l.length := Nat.sub_lt hl Nat.one_pos
  obtain ⟨hlt, -⟩ := List.getElem?_eq_some_iff.mp (h _ _ (List.getElem?_eq_getElem hlast))
  omega

theorem FromFile.append {off : Nat} {l l' : List UInt8} (hdata : data.length < 2 ^ 64) (hoff : off < 2 ^ 64)
    (h : FromFile data off l) (h' : FromFile data (wrap (off + l.length)) l') : FromFile data off (l ++ l') := by
  have hwrap : wrap (off + l.length) = off + l.length := by
    rcases Nat.eq_zero_or_pos l.length with h0 | h0
    · rw [h0]
      exact wrap_of_lt hoff
    · exact_mod_cast wrap_of_lt (Nat.lt_of_le_of_lt (h.le h0) hdata)
  rw [hwrap] at h'
  intro j x hx
  rcases Nat.lt_or_ge j l.length with hj | hj
  · rw [List.getElem?_append_left hj] at hx
    exact h j x hx
  · rw [List.getElem?_append_right hj] at hx
    have := h' _ x hx
    rwa [show off + l.length + (j - l.length) = off + j by omega] at this

theorem data_length_le (h : s.WF) (ip : Slot) : (s.view.nodeAt ip).data.length ≤ 525 * 4096 := by
  rw [show (s.view.nodeAt ip).data.length = (s.dinode (s.cell ip).inum).size from nodeOf_size _ _]
  exact h.size_le _

/-- A file that is no device gives its contents, and nothing changes. -/
theorem source_file (h : s.WF) (href : 0 < (s.cell ip).ref) (hv : (s.cell ip).valid = true)
    (htype : (s.view.nodeAt ip).type ≠ tDev) :
    Source ip (fun _ => False) (fun s' => s' = s) (FromFile (s.view.nodeAt ip).data) where
  read := by
    rintro _ off n rfl hoff hn
    refine (readi_view h href hv htype hoff hn).post ?_
    rintro r _ ⟨rfl, rfl⟩
    refine ⟨rfl, fun l hl hlen j x hx => ?_⟩
    split at hl
    · cases hl
    · obtain rfl := Option.some.inj hl
      rw [List.getElem?_take] at hx
      split at hx
      · rwa [List.getElem?_drop] at hx
      · cases hx
  nil := fun off j x hx => by
    rw [List.getElem?_nil] at hx
    cases hx
  append := fun hoff hl hl' => hl.append (Nat.lt_of_le_of_lt (data_length_le h ip) (by decide)) hoff hl'

theorem FromFile.eq {off : Nat} {l : List UInt8} (h : FromFile data off l) : l = (data.drop off).take l.length := by
  refine List.ext_getElem? fun j => ?_
  rw [List.getElem?_take]
  split
  · rename_i hj
    rw [List.getElem?_drop, List.getElem?_eq_getElem hj]
    exact (h j _ (List.getElem?_eq_getElem hj)).symm
  · rename_i hj
    exact List.getElem?_eq_none (Nat.not_lt.mp hj)

/-- A program header is read at the index `j`. -/
def HeaderRead (S : Nat → List UInt8 → Prop) (elf : ElfHeader) (j : Nat) : Prop :=
  ∃ raw, raw.length = progHeaderSize ∧ S (wrap (elf.phOff + progHeaderSize * toShort j)) raw

/-- A file is too short for the index to wrap and to reach the file again: the header at 32767 has an offset from which
the header at -32768 is before the start of the file. -/
theorem headers_short (hdata : data.length ≤ 525 * 4096) (h0 : HeaderRead (FromFile data) elf 0)
    (hmax : HeaderRead (FromFile data) elf 32767) (hmin : HeaderRead (FromFile data) elf 32768) : False := by
  obtain ⟨r0, hl0, hr0⟩ := h0
  obtain ⟨r1, hl1, hr1⟩ := hmax
  obtain ⟨r2, hl2, hr2⟩ := hmin
  have h0 := hr0.le (by rw [hl0]; decide)
  have h1 := hr1.le (by rw [hl1]; decide)
  have h2 := hr2.le (by rw [hl2]; decide)
  rw [hl0] at h0
  rw [hl1] at h1
  rw [hl2] at h2
  simp only [wrap, toShort, progHeaderSize] at h0 h1 h2
  omega

theorem Progress.headerRead {m : Mem} (h : Progress S elf f phs segs i sz m) {j : Nat} (hj : j < phs.length) :
    HeaderRead S elf j := by
  obtain ⟨-, raw, hlen, hraw, -⟩ := h.read j _ (List.getElem?_eq_getElem hj)
  exact ⟨raw, hlen, hraw⟩

theorem Progress.length_le {m : Mem} (h : Progress (FromFile data) elf f phs segs i sz m)
    (hdata : data.length ≤ 525 * 4096) :
    phs.length ≤ 32768 := by
  by_contra hlt
  exact headers_short hdata (h.headerRead (by omega)) (h.headerRead (by omega)) (h.headerRead (by omega))

/-- The program headers of a file. -/
def headersOf (elf : ElfHeader) (data : List UInt8) : List ProgHeader :=
  (List.range elf.phNum).map fun j => .ofBytes ((data.drop (elf.phOff + progHeaderSize * j)).take progHeaderSize)

theorem offset_lt {a n j : Nat} (ha : a + n ≤ 525 * 4096) (hj : j < 32768) : a + n * j < 2 ^ 64 := by
  have hmul : n * j ≤ 525 * 4096 * 32768 := Nat.mul_le_mul (by omega) (by omega)
  omega

/-- When the loop is through, the headers of the file were read. -/
theorem Progress.complete {m : Mem} (h : Progress (FromFile data) elf f phs segs i sz m)
    (hdata : data.length ≤ 525 * 4096) (hi : elf.phNum ≤ i) (hoff : elf.phOff < 2 ^ 64) : phs = headersOf elf data := by
  have hle := h.length_le hdata
  have hindex := h.index
  have hlen : phs.length = elf.phNum := by
    rcases Nat.eq_zero_or_pos phs.length with h0 | h0
    · rw [h0] at hindex ⊢
      have : i = 0 := hindex
      omega
    · obtain ⟨hlast, -⟩ := h.read (phs.length - 1) _ (List.getElem?_eq_getElem (Nat.sub_lt h0 Nat.one_pos))
      simp only [toShort] at hindex hlast
      omega
  refine List.ext_getElem? fun j => ?_
  rcases Nat.lt_or_ge j phs.length with hj | hj
  · obtain ⟨-, raw, hraw, hfile, hph⟩ := h.read j _ (List.getElem?_eq_getElem hj)
    obtain ⟨r0, hl0, hr0⟩ := h.headerRead (Nat.lt_of_le_of_lt (Nat.zero_le j) hj)
    have hle0 := hr0.le (by rw [hl0]; decide)
    have hzero : wrap (elf.phOff + progHeaderSize * toShort (0 : Nat)) = elf.phOff := by
      rw [show toShort (0 : Nat) = 0 from rfl, Int.mul_zero, Int.add_zero]
      exact wrap_of_lt hoff
    have hshort : toShort j = j := by
      simp only [toShort] at hindex ⊢
      omega
    have hwrap : wrap (elf.phOff + progHeaderSize * toShort j) = elf.phOff + progHeaderSize * j := by
      rw [hzero, hl0] at hle0
      rw [hshort, ← Int.natCast_mul, ← Int.natCast_add]
      exact wrap_of_lt (offset_lt (Nat.le_trans hle0 hdata) (Nat.lt_of_lt_of_le hj hle))
    have heq := hfile.eq
    rw [hwrap, hraw] at heq
    rw [List.getElem?_eq_getElem hj, hph, headersOf, List.getElem?_map, List.getElem?_range (hlen ▸ hj),
      Option.map_some, ← heq]
  · rw [List.getElem?_eq_none hj, headersOf, List.getElem?_eq_none]
    rw [List.length_map, List.length_range, ← hlen]
    exact hj

/-! ## The number of rounds -/

theorem steady_file (h : s.WF) (href : 0 < (s.cell ip).ref) (hv : (s.cell ip).valid = true)
    (htype : (s.view.nodeAt ip).type ≠ tDev) :
    Steady ip fun k => k.fs = s where
  readi := by
    rintro k off n rfl hoff hn
    unfold onFs
    rw [wp_on]
    exact ((source_file h href hv htype).read rfl hoff hn).mono (fun _ _ h0 => h0.1) fun _ h0 => h0.elim
  mem := fun _ h0 => h0

/-- Every round reads one header, whatever the memory is. -/
theorem execRound_reads (h : k.fs.WF) (href : 0 < (k.fs.cell ip).ref) (hv : (k.fs.cell ip).valid = true)
    (htype : (k.fs.view.nodeAt ip).type ≠ tDev) {k' : System} (hk : k'.fs = k.fs) {n : Nat}
    (hi : i = toShort n) (pml4 : Nat) :
    Wp (execRound ip pml4 elf (i, sz))
      (fun r k'' => ∀ a, r = .inl a → k''.fs = k.fs ∧ a.1 = toShort ((n + 1 : Nat) : Int) ∧
      HeaderRead (FromFile (k.fs.view.nodeAt ip).data) elf n) (fun _ => True) k' := by
  unfold execRound
  rw [wp_ite]
  refine ⟨fun _ => ?_, fun _ a h0 => by cases h0⟩
  rw [wp_bind, onFs, wp_on]
  refine ((source_file h href hv htype).read hk (wrap_lt _) (by decide)).mono ?_ fun _ _ => trivial
  rintro r _ ⟨rfl, hr⟩
  dsimp only
  rw [wp_ite]
  refine ⟨fun _ a h0 => (by cases h0), fun hfull => ?_⟩
  have hfull := Decidable.not_not.mp hfull
  obtain ⟨raw, rfl⟩ : ∃ raw, r = some raw := by
    cases r with
    | none => cases hfull
    | some raw => exact ⟨raw, rfl⟩
  rw [hi] at hr
  have hread : HeaderRead _ elf n := ⟨raw, hfull, hr raw rfl hfull⟩
  refine Wp.bind (execSegment_spec (k := { k' with fs := k.fs }) (steady_file h href hv htype) rfl _ _ _)
    fun r k'' h'' => ?_
  rw [wp_ite]
  refine ⟨fun _ a h0 => ?_, fun _ a h0 => by cases h0⟩
  cases h0
  exact ⟨h'', by rw [hi, toShort_succ], hread⟩

/-- What is known after `n` rounds over the headers of a file. -/
theorem rounds_read {k' : System} {pml4 n : Nat} {a : Int × Nat} (h : k.fs.WF) (href : 0 < (k.fs.cell ip).ref)
    (hv : (k.fs.cell ip).valid = true) (htype : (k.fs.view.nodeAt ip).type ≠ tDev)
    (hr : Rounds (execRound ip pml4 elf) (0, pgsize4kb) k n a k') :
    k'.fs = k.fs ∧ a.1 = toShort n ∧ ∀ j < n, HeaderRead (FromFile (k.fs.view.nodeAt ip).data) elf j := by
  refine hr.invariant (fun n a k' => k'.fs = k.fs ∧ a.1 = toShort n ∧
    ∀ j < n, HeaderRead (FromFile (k.fs.view.nodeAt ip).data) elf j) ?_
      ⟨rfl, rfl, fun j hj => absurd hj (Nat.not_lt_zero j)⟩
  rintro n ⟨i, sz⟩ k₁ ⟨hk, hi, hall⟩
  refine (execRound_reads h href hv htype hk hi pml4).post fun r k'' hn a' ha' => ?_
  obtain ⟨hk'', hi', hread⟩ := hn a' ha'
  refine ⟨hk'', hi', fun j hj => ?_⟩
  rcases Nat.lt_succ_iff_lt_or_eq.mp hj with hlt | rfl
  · exact hall j hlt
  · exact hread

theorem rounds_le {k' : System} {pml4 n : Nat} {a : Int × Nat} (h : k.fs.WF) (href : 0 < (k.fs.cell ip).ref)
    (hv : (k.fs.cell ip).valid = true) (htype : (k.fs.view.nodeAt ip).type ≠ tDev)
    (hr : Rounds (execRound ip pml4 elf) (0, pgsize4kb) k n a k') : n ≤ 32768 := by
  obtain ⟨-, -, hall⟩ := rounds_read h href hv htype hr
  by_contra hlt
  exact headers_short (data_length_le h ip) (hall 0 (by omega)) (hall 32767 (by omega)) (hall 32768 (by omega))

/-- For a file the loop never runs out of fuel, and nothing in it halts. -/
theorem execLoad_file (h : k.fs.WF) (href : 0 < (k.fs.cell ip).ref) (hv : (k.fs.cell ip).valid = true)
    (htype : (k.fs.view.nodeAt ip).type ≠ tDev) (hm : Frames lower O k.mem) (hf : O f = .node f 0 0)
    (hempty : ∀ v < userPages, k.mem.page f v = none) :
    Wp (execLoad ip f elf) (fun _ _ => True) (fun _ => False) k := by
  have hdata := data_length_le h ip
  unfold execLoad
  refine wp_loop (fun (a : Int × Nat) k' => ∃ O' m' phs segs, k' = { k with mem := m' } ∧
    Worked f O k.mem O' m' ∧ Progress (FromFile (k.fs.view.nodeAt ip).data) elf f phs segs a.1 a.2 m')
    (fun a => if 0 ≤ a.1 then 32768 - a.1.toNat else 0) ?_ _ _ _
    ⟨O, k.mem, [], [], rfl, Worked.refl hm hf, Progress.start hempty⟩ (by decide)
  rintro ⟨i, sz⟩ _ ⟨O₁, m₁, phs, segs, rfl, hw₁, hp₁⟩
  refine (execRound_progress (k := { k with mem := m₁ }) (source_file h href hv htype) rfl hw₁.moved.frames
    hw₁.root hp₁).post ?_
  rintro (⟨i', sz'⟩ | ⟨ok, sz'⟩) _ ⟨O', _, m', rfl, rfl, hw', hnext, -⟩
  · obtain ⟨-, -, phs', segs', hlen, hp'⟩ := hnext i' sz' rfl
    refine ⟨⟨O', m', phs', segs', rfl, hw₁.trans hw', hp'⟩, ?_⟩
    have hle := hp'.length_le hdata
    have hi := hp₁.index
    have hi' := hp'.index
    dsimp only
    rw [hlen] at hle hi'
    simp only [toShort] at hi hi'
    split <;> split <;> omega
  · trivial

end Xv6.Kernel
