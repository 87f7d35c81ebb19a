import Mathlib.Order.Interval.Finset.Nat
import Xv6.Vm.Lemmas.Boot
import Xv6.Vm.Lemmas.IoRemap
import Xv6.Vm.Lemmas.Out

/-!
# Theorems about memory

What the functions of `vm.c` do to address spaces, for any memory whose frames are used as they should be.
-/

namespace Xv6.Vm

open Xv6.Lib

variable {m : Mem} {f : Nat} {l : List Nat}

/-! ## A memory -/

def sixteenBank : List MmapEntry := [⟨0x10000, 16 * pgsize4kb, true⟩]

/-- A memory of sixteen free frames, the frame 1 being an empty table. -/
def sixteenFrames : Mem :=
  match kinit sixteenBank ⟨fun _ _ => 0, none, 0x10000, 1⟩ with
  | .ok (_, m) => m
  | .error _ => ⟨fun _ _ => 0, none, 0, 0⟩

theorem sixteenBank_frames : sixteenBank.flatMap (fun e => e.frames 0x10000) = (List.range 16).map (16 + ·) := by decide

theorem sixteenBank_kinit {m₀ : Mem} (hb : m₀.bumpEnd = 0x10000) : ∃ m, kinit sixteenBank m₀ = .ok ((), m) ∧
    FreeList m ((List.range 16).map (31 - ·)) ∧ m.pages 1 = m₀.pages 1 ∧ m.kpml4 = m₀.kpml4 := by
  have hrev : ((List.range 16).map (16 + ·)).reverse = (List.range 16).map (31 - ·) := by decide
  have hnodup : ((List.range 16).map (16 + ·)).Nodup := by decide
  have hfree : ∀ e ∈ sixteenBank, ∀ x ∈ e.frames 0x10000, 0x10000 ≤ pgsize4kb * x ∧ pgsize4kb * x < phyStop := by decide
  have hout : ∀ e ∈ sixteenBank, 1 ∉ e.frames 0x10000 := by decide
  rw [← sixteenBank_frames, ← hb] at hnodup
  rw [← hb] at hfree hout
  obtain ⟨_, m, hok, hl, -, hk, hp⟩ := (kinit_spec (by rw [hb]; decide) hnodup).returns_of
    fun _ ⟨e, he, x, hx, hbad⟩ => hbad (hfree e he x hx)
  rw [hb, sixteenBank_frames, hrev] at hl
  exact ⟨m, hok, hl, hp 1 hout, hk⟩

theorem sixteenFrames_spec : FreeList sixteenFrames ((List.range 16).map (31 - ·)) ∧
    (sixteenFrames.pages 1 = fun _ => 0) ∧ sixteenFrames.kpml4 = 1 := by
  obtain ⟨m, hok, hm⟩ := @sixteenBank_kinit ⟨fun _ _ => 0, none, 0x10000, 1⟩ rfl
  rw [sixteenFrames, hok]
  exact hm

/-! ## The first free list -/

/-- At boot every usable frame is put on the free list once. From then on `kalloc` gives out frames that are not
allocated, and none only when all are, and `kfree` takes back every frame that is. -/
theorem kinit_exact {info : Nat} {tags : List Nat} (h0 : 0 < m.bumpEnd) (hb : m.bumpEnd ≤ phyStop)
    (hend : info + m.phys.le info 4 ≤ m.bumpEnd) (ht : Boot.Tags m.phys (info + m.phys.le info 4) (info + 8) tags)
    (hr : Boot.Regular (Boot.entries m.phys tags)) :
    ∃ m' l, Boot.kinit info m = .ok ((), m') ∧ FreeList m' l ∧
      (∀ f, f ∈ l ↔ Boot.Usable (Boot.entries m.phys tags) m.bumpEnd f) ∧ ∀ s, (Boot.allocator m').Reachable s →
        (∃ r m'', kalloc s.1 = .ok (r, m'') ∧ (∀ x, r = some x → x ∈ l ∧ x ∉ s.2) ∧ (r = none → ∀ x ∈ l, x ∈ s.2)) ∧
        ∀ x ∈ s.2, ∃ m'', kfree x s.1 = .ok ((), m'') := by
  obtain ⟨m', l, hok, hl, hiff⟩ := Boot.kinit_freeList h0 hb hend ht hr
  refine ⟨m', l, hok, hl, hiff, fun s hs => ?_⟩
  obtain ⟨O, h⟩ := Boot.tracks_of_reachable hl hs
  constructor
  · obtain ⟨r, m'', hok', hr'⟩ := (kalloc_spec h.frames Use.loose_held).returns
    refine ⟨r, m'', hok', ?_⟩
    rcases hr' with ⟨rfl, -, hnone⟩ | ⟨x, rfl, hx, -⟩
    · refine ⟨fun x h1 => absurd h1 (Option.some_ne_none x).symm, fun _ x hx => ?_⟩
      rw [h.held]
      exact ((h.all x).mp hx).resolve_left (hnone x)
    · refine ⟨fun y hy => ?_, fun h1 => absurd h1 (Option.some_ne_none x)⟩
      obtain rfl := Option.some.inj hy
      refine ⟨(h.all x).mpr (Or.inl hx), fun h1 => ?_⟩
      rw [h.held, hx] at h1
      cases h1
  · intro x hx
    obtain ⟨_, m'', hok', -⟩ := (kfree_spec h.frames (x := x) (by rw [(h.held x).mp hx]; exact Use.loose_held)).returns
    exact ⟨m'', hok'⟩

/-- Boot information at `0x1000`: one memory map, with a region across the bump end, an empty one and one that is not
available. -/
def bootMem : Mem :=
  ⟨upd (fun _ _ => 0) 1 (Bytes.put (fun _ => 0) 0
    (leBytes 4 112 ++ leBytes 4 0 ++ leBytes 4 6 ++ leBytes 4 88 ++ leBytes 4 24 ++ leBytes 4 0 ++
    leBytes 8 0xF800 ++ leBytes 8 0x3000 ++ leBytes 4 1 ++ leBytes 4 0 ++
    leBytes 8 0x11000 ++ leBytes 8 0 ++ leBytes 4 1 ++ leBytes 4 0 ++
    leBytes 8 0x12000 ++ leBytes 8 0x8000 ++ leBytes 4 2 ++ leBytes 4 0 ++
    leBytes 4 0 ++ leBytes 4 8)), none, 0x10000, 0⟩

theorem bootMem_entries : Boot.entries bootMem.phys [0x1008] =
    [⟨0xF800, 0x3000, true⟩, ⟨0x11000, 0, true⟩, ⟨0x12000, 0x8000, false⟩] := by
  decide

theorem bootMem_tags : Boot.Tags bootMem.phys (0x1000 + bootMem.phys.le 0x1000 4) (0x1000 + 8) [0x1008] := by
  have hnext : Boot.nextTag bootMem.phys 0x1008 = 0x1060 := by decide
  refine .cons (by decide) (by decide) (by decide)
    (fun _ => ⟨by decide, by decide⟩) ?_
  rw [hnext]
  exact .done (by decide) (by decide)

theorem kinit_exact_bootMem : ∃ m' l, Boot.kinit 0x1000 bootMem = .ok ((), m') ∧ FreeList m' l ∧ 0x10 ∈ l ∧ 0x11 ∈ l ∧
    0xF ∉ l ∧ 0x12 ∉ l := by
  have hr : Boot.Regular (Boot.entries bootMem.phys [0x1008]) := by
    rw [bootMem_entries]
    refine ⟨?_, by decide⟩
    simp [Boot.Inside]
  obtain ⟨m', l, hok, hl, hiff, -⟩ :=
    @kinit_exact bootMem 0x1000 _ (by decide) (by decide) (by decide) bootMem_tags hr
  refine ⟨m', l, hok, hl, ?_⟩
  rw [hiff, hiff, hiff, hiff, bootMem_entries]
  simp [Boot.Usable, bootMem]

/-! ## Mapping -/

/-- The tables of a space are pairwise distinct. -/
def DistinctTables (m : Mem) (f : Nat) : Prop :=
  ∀ {e k e' k' x : Nat}, e < 4 → k < 512 ^ e → e' < 4 → k' < 512 ^ e' → m.node f e k = some x →
    m.node f e' k' = some x → e = e' ∧ k = k'

/-- The frame `x` is a table of the space `f`. -/
def IsTable (m : Mem) (f x : Nat) : Prop := ∃ e k, e < 4 ∧ k < 512 ^ e ∧ m.node f e k = some x

open Classical in
/-- The uses of frames for one space and the free list. -/
noncomputable def useOf (m : Mem) (f : Nat) (l : List Nat) (x : Nat) : Use Unit :=
  if h : IsTable m f x then .node f h.choose h.choose_spec.choose else if x ∈ l then .free else .kernel

theorem useOf_node (hd : DistinctTables m f) {x g e k : Nat} :
    useOf m f l x = .node g e k ↔ g = f ∧ e < 4 ∧ k < 512 ^ e ∧ m.node f e k = some x := by
  unfold useOf
  by_cases h : IsTable m f x
  · obtain ⟨h4, hk, hn⟩ := h.choose_spec.choose_spec
    rw [dif_pos h, Use.node.injEq]
    constructor
    · rintro ⟨rfl, rfl, rfl⟩
      exact ⟨rfl, h4, hk, hn⟩
    · rintro ⟨rfl, h4', hk', hn'⟩
      exact ⟨rfl, hd h4 hk h4' hk' hn hn'⟩
  · rw [dif_neg h]
    refine iff_of_false ?_ fun h0 => h ⟨e, k, h0.2⟩
    split <;> nofun

theorem useOf_frames (hd : DistinctTables m f) (hl : FreeList m l) (hsep : ∀ x, IsTable m f x → x ∉ l) :
    Frames whole (useOf m f l) m := by
  have hfree : ∀ x, x ∈ l ↔ useOf m f l x = .free := fun x => by
    unfold useOf
    by_cases h : IsTable m f x
    · rw [dif_pos h]
      exact iff_of_false (hsep x h) nofun
    · rw [dif_neg h]
      split <;> rename_i hx
      · exact iff_of_true hx rfl
      · exact iff_of_false hx nofun
  have hroot : useOf m f l f = .node f 0 0 := (useOf_node hd).mpr ⟨rfl, by decide, by decide, rfl⟩
  refine ⟨⟨l, hl.chain, hl.nodup, hfree⟩, fun {g e k x} hg hin he => ?_, fun {x g e k} hx => ?_,
    fun h4 => absurd h4 (by decide), fun {x} hx hx3 => hl.range x ((hfree x).mpr ?_)⟩
  · rw [useOf_node hd] at hg ⊢
    obtain ⟨rfl, -⟩ := hg
    exact ⟨fun h0 => ⟨rfl, Nat.lt_succ_of_le he, hin.2, h0⟩, fun h0 => h0.2.2.2⟩
  · rw [useOf_node hd] at hx
    obtain ⟨rfl, h4, hk, -⟩ := hx
    exact ⟨hroot, ⟨Nat.le_of_lt h4, hk⟩, Nat.lt_succ_iff.mp h4⟩
  · have hx3' := hx3 rfl
    unfold useOf at hx hx3' ⊢
    by_cases h : IsTable m f x
    · rw [dif_pos h] at hx3'
      exact absurd rfl (hx3' _ _ _)
    · rw [dif_neg h] at hx ⊢
      split at hx <;> rename_i h0
      · rw [if_pos h0]
      · exact absurd rfl hx

/-- Mapping a range of pages that are not translated: the translations of a first part of the range become those to the
physical pages from `pa` on, no other translation changes, and the part is the whole range when the result is 0. After
it a walk finds an entry exactly for the pages that are translated. -/
theorem mapPages_refines {va size : Nat} (pa perm : Nat) (hd : DistinctTables m f) (hl : FreeList m l)
    (hsep : ∀ x, IsTable m f x → x ∉ l) (hsize : 0 < size) (htop : va + size ≤ userTop)
    (hnone : ∀ v, va / pgsize4kb ≤ v → pgsize4kb * v < va + size → m.translate f v = none) :
    ∃ r m', mapPages f va size pa perm m = .ok (r, m') ∧
      (∃ n, Installed f (va / pgsize4kb) pa perm n m m' ∧
        ((r = 0 ∧ n = pagesOf va size) ∨ (r = -1 ∧ n < pagesOf va size ∧ m'.freeList = none))) ∧
      (pa % pgsize4kb = 0 → perm < pgsize4kb → ∀ k, pgsize4kb * pteAddr (leaf (pa + pgsize4kb * k) perm) =
        (pa + pgsize4kb * k) % 2 ^ 64 ∧ pteFlags (leaf (pa + pgsize4kb * k) perm) = perm ||| pteP) ∧
      ∀ va', ∃ r', walkPml4 f va' false m' = .ok (r', m') ∧ (r'.isSome ↔ (m'.translate f (vpn va')).isSome) := by
  have hva : vpn va = va / pgsize4kb := vpn_of_lt (by simp only [userTop, pgsize4kb] at htop ⊢; omega)
  have hroot : useOf m f l f = .node f 0 0 := (useOf_node hd).mpr ⟨rfl, by decide, by decide, rfl⟩
  have hspec : Wp (mapPages f va size pa perm) _ _ m := mapPages_whole (useOf_frames hd hl hsep) hroot
    hsize ?_ fun k hk => ?_
  · obtain ⟨r, m', hok, n, hinst, hr⟩ := hspec.returns
    rw [hva] at hinst
    refine ⟨r, m', hok, ⟨n, hinst, hr⟩, fun hpa hperm k => ?_, fun va' => ?_⟩
    · have hpak : (pa + pgsize4kb * k) % pgsize4kb = 0 := by rw [Nat.add_mul_mod_self_left, hpa]
      have hlt : perm ||| pteP < 4096 := Nat.or_lt_two_pow (n := 12) hperm (by decide)
      have hmul : (pa + pgsize4kb * k) % 2 ^ 64 = pgsize4kb * ((pa + pgsize4kb * k) % 2 ^ 64 / pgsize4kb) := by
        simp only [pgsize4kb] at hpak ⊢
        omega
      rw [leaf_eq hpak hperm, hmul, pteAddr_add _ hlt, pteFlags_add _ hlt]
      exact ⟨rfl, rfl⟩
    · obtain ⟨r', hok', hr'⟩ := walkPml4_isSome m' f va'
      exact ⟨r', hok', by rw [hr']⟩
  · rw [hva]
    simp only [pagesOf, userTop, pgsize4kb] at htop ⊢
    omega
  · rw [hva]
    refine hnone _ (Nat.le_add_right _ _) ?_
    simp only [pagesOf, pgsize4kb] at hk ⊢
    omega

/-- The only table of the memory is the root. -/
theorem sixteenFrames_tables : DistinctTables sixteenFrames 1 ∧
    (∀ x, IsTable sixteenFrames 1 x → x ∉ (List.range 16).map (31 - ·)) ∧ ∀ v, sixteenFrames.translate 1 v = none := by
  have hp := sixteenFrames_spec.2.1
  have hnode : ∀ e k x, k < 512 ^ e → sixteenFrames.node 1 e k = some x → e = 0 ∧ k = 0 ∧ x = 1 := fun e k x hk hn => by
    cases e with
    | zero =>
        obtain rfl := Option.some.inj hn
        exact ⟨rfl, Nat.lt_one_iff.mp hk, rfl⟩
    | succ e =>
        obtain ⟨t, ht⟩ := Radix.node_up hn (Nat.succ_le_succ (Nat.zero_le e))
        rw [Radix.node_succ, Radix.node_zero, Option.bind_some, pte_zeros hp, next_zero] at ht
        cases ht
  refine ⟨fun {e k e' k' x} _ hk _ hk' hx hx' => ?_, ?_, fun v => ?_⟩
  · obtain ⟨rfl, rfl, -⟩ := hnode e k x hk hx
    obtain ⟨rfl, rfl, -⟩ := hnode e' k' x hk' hx'
    exact ⟨rfl, rfl⟩
  · rintro x ⟨e, k, -, hk, hx⟩
    obtain ⟨-, -, rfl⟩ := hnode e k x hk hx
    decide
  · unfold Mem.translate Mem.lookup
    rw [pte_zeros hp]
    rfl

/-- Two pages at 2 MB are mapped in an empty space. -/
theorem mapPages_refines_sixteenFrames : ∃ r m', mapPages 1 0x200000 0x2000 0x5000 6 sixteenFrames = .ok (r, m') ∧
    (∃ n, Installed 1 (0x200000 / pgsize4kb) 0x5000 6 n sixteenFrames m' ∧
      ((r = 0 ∧ n = pagesOf 0x200000 0x2000) ∨ (r = -1 ∧ n < pagesOf 0x200000 0x2000 ∧ m'.freeList = none))) := by
  obtain ⟨hd, hsep, hnone⟩ := sixteenFrames_tables
  obtain ⟨r, m', hok, hn, -⟩ := mapPages_refines 0x5000 6 hd sixteenFrames_spec.1 hsep (show 0 < 0x2000 by decide)
    (show 0x200000 + 0x2000 ≤ userTop by decide) fun v _ _ => hnone v
  exact ⟨r, m', hok, hn⟩

/-! ## Device memory -/

/-- The addresses of devices that `io_remap` returned in a run are translated to the devices, and no two devices share a
page, if all of them fit. A further call covers its device if and only if it fits, as long as the page that comes next
is not mapped. -/
theorem ioRemap_covers {s s' : IoMem} {calls : List (Nat × Nat)} {rs : List IoRange}
    (hd : DistinctTables s.mem s.mem.kpml4) (hl : FreeList s.mem l) (hsep : ∀ x, IsTable s.mem s.mem.kpml4 x → x ∉ l)
    (hb : s.ioBump = ioremapBase) (hsize : ∀ c ∈ calls, 0 < c.2) (hok : ioRemaps calls s = .ok (rs, s')) :
    rs.map (fun r => (r.pa, r.size)) = calls ∧
      ((∀ c ∈ calls, Fits c.1 c.2) → (∀ r ∈ rs, r.Covered s'.mem) ∧ rs.Pairwise IoRange.Disjoint) ∧
      ∀ pa size v s'', 0 < size → ioRemap pa size s' = .ok (v, s'') →
        s''.mem.translate s''.mem.kpml4 (vpn s''.ioBump) = none →
          ((IoRange.mk pa size v).Covered s''.mem ↔ Fits pa size) := by
  have hready : IoReady (useOf s.mem s.mem.kpml4 l) s :=
    ⟨useOf_frames hd hl hsep, (useOf_node hd).mpr
      ⟨rfl, by decide, by decide, rfl⟩, by rw [hb]; decide, by rw [hb]; decide⟩
  obtain ⟨⟨O', hready'⟩, hrs⟩ := (ioRemaps_spec hready hsize).of_ok hok
  refine ⟨hrs.calls, fun hfits => ?_, fun pa size v s'' hpos hcall hnext => ?_⟩
  · have hfit : ∀ r ∈ rs, Fits r.pa r.size := fun r hr => by
      refine hfits (r.pa, r.size) ?_
      rw [← hrs.calls]
      exact List.mem_map.mpr ⟨r, hr, rfl⟩
    exact ⟨fun r hr => hrs.covered r hr (hfit r hr),
      hrs.disjoint.imp_of_mem fun hr hr' h0 => h0 (hfit _ hr) (hfit _ hr')⟩
  · obtain ⟨O'', -, hk, rfl, hbump, hlaid⟩ := (ioRemap_spec hready' hpos).of_ok hcall
    constructor
    · intro hcov
      by_contra hfit
      have hlast := Mem.physical_of_some (hcov (size - 1) (Nat.sub_lt hpos Nat.one_pos))
      dsimp only at hlast
      rw [vpn_byte hready'.aligned, Fits.page_eq hfit, ← hbump] at hlast
      exact hlast hnext
    · intro hfit i hi
      dsimp only
      rw [hk]
      exact hlaid.physical hready'.aligned (hfit.page_lt hi)

/-- The pages of the local and of the I/O interrupt controller. -/
theorem ioRemap_covers_apics :
    ∃ rs s', ioRemaps [(0xFEE00000, 0x1000), (0xFEC00000, 0x1000)] ⟨sixteenFrames, ioremapBase⟩ = .ok (rs, s') ∧
    rs.map (fun r => (r.pa, r.size)) = [(0xFEE00000, 0x1000), (0xFEC00000, 0x1000)] ∧
    (∀ r ∈ rs, r.Covered s'.mem) ∧ rs.Pairwise IoRange.Disjoint := by
  have hk : sixteenFrames.kpml4 = 1 := sixteenFrames_spec.2.2
  have hrun : (ioRemaps [(0xFEE00000, 0x1000), (0xFEC00000, 0x1000)] ⟨sixteenFrames, ioremapBase⟩).isOk = true := by
    decide +kernel
  have hl := sixteenFrames_spec.1
  obtain ⟨hd, hsep, -⟩ := sixteenFrames_tables
  rw [← hk] at hd hsep
  -- the state is a variable from here on
  generalize hs : IoMem.mk sixteenFrames ioremapBase = s at hrun ⊢
  have hmem : sixteenFrames = s.mem := by rw [← hs]
  rw [hmem] at hd hsep hl
  cases hok : ioRemaps [(0xFEE00000, 0x1000), (0xFEC00000, 0x1000)] s with
  | error e =>
      rw [hok] at hrun
      cases hrun
  | ok r =>
      obtain ⟨hcalls, hall, -⟩ := ioRemap_covers hd hl hsep (by rw [← hs]) (by decide) hok
      exact ⟨r.1, r.2, rfl, hcalls, hall (by decide)⟩

/-- The last byte of a device that starts in the middle of a page is not mapped. -/
theorem ioRemap_short : ∃ v s', ioRemap 0x1800 0x1000 ⟨sixteenFrames, ioremapBase⟩ = .ok (v, s') ∧
    s'.mem.physical s'.mem.kpml4 (v + 0xFFF) = none := by
  have hrun : (match ioRemap 0x1800 0x1000 ⟨sixteenFrames, ioremapBase⟩ with
      | .ok (v, s') => s'.mem.physical s'.mem.kpml4 (v + 0xFFF)
      | .error _ => some 0) = none := by decide +kernel
  split at hrun
  · rename_i v s' hok
    exact ⟨v, s', hok, hrun⟩
  · cases hrun

/-! ## Growing and shrinking a space -/

section

variable {τ : Type} {O O' : Nat → Use τ} {m' : Mem} {oldSz newSz : Nat}

/-- What does not belong to the space `f` stays as it is. -/
structure Apart (f : Nat) (O : Nat → Use τ) (m : Mem) (O' : Nat → Use τ) (m' : Mem) : Prop where
  frames : Frames lower O' m'
  other : ∀ x, ¬ Mine O f x → O' x = O x ∧ m'.pages x = m.pages x
  upper : ∀ i, 256 ≤ i → i < 512 → m'.pte f i = m.pte f i

theorem Worked.apart (h : Worked f O m O' m') : Apart f O m O' m' :=
  ⟨h.moved.frames, fun x hx => ⟨h.moved.other x hx, h.moved.same.pages x hx⟩, h.upper⟩

/-- The frame of a page that did not change was its frame before. -/
theorem Frames.leaf_kept {x v : Nat} (h : Frames lower O m) (hf : O f = .node f 0 0) (h' : Frames lower O' m')
    (hpage : ∀ w < userPages, m'.page f w = m.page f w) (hx : O' x = .node f 4 v) : O x = .node f 4 v := by
  obtain ⟨hv, hp, rfl⟩ := h'.frame_page hx
  have h0 := hpage v hv
  rw [page_of_present hp] at h0
  cases hm : present (m.entry f 4 v) with
  | false =>
      rw [page_of_absent hm] at h0
      cases h0
  | true =>
      rw [page_of_present hm] at h0
      obtain ⟨he, -⟩ := Prod.mk.inj (Option.some.inj h0)
      rw [he]
      exact h.page_frame hf hv hm

/-- Growing a space either maps zeroed pages for the user to the whole range or, when memory runs out, leaves every page
as it was, and every frame that was free is free again or a table of the space. -/
theorem allocUvm_all_or_nothing (h : Frames lower O m) (hf : O f = .node f 0 0) (hle : oldSz ≤ newSz)
    (htop : newSz < userTop) (habs : ∀ v, pageUp oldSz ≤ v → v < pageUp newSz → m.page f v = none) :
    ∃ r m' O', allocUvm f oldSz newSz m = .ok (r, m') ∧ Apart f O m O' m' ∧
      ((r = newSz ∧
          (∀ v, pageUp oldSz ≤ v → v < pageUp newSz →
            ∃ y, m'.page f v = some (pgsize4kb * y + (pteP ||| pteW ||| pteU), fun _ => 0)) ∧
          ∀ v < userPages, ¬ (pageUp oldSz ≤ v ∧ v < pageUp newSz) → m'.page f v = m.page f v) ∨
        (r = 0 ∧ (∀ v < userPages, m'.page f v = m.page f v) ∧
          ∀ x, O x = .free → O' x = .free ∨ ∃ e k, e < 4 ∧ O' x = .node f e k)) := by
  obtain ⟨r, m', hok, O', hr⟩ := (allocUvm_spec h hf hle htop habs).returns
  rcases hr with ⟨rfl, hz⟩ | ⟨rfl, -, hw, hpage⟩
  · refine ⟨r, m', O', hok, hz.worked.apart, Or.inl ⟨rfl, fun v hv hv' => ?_, fun v hv hout => hz.page v hv (by omega)⟩⟩
    obtain ⟨y, -, hp⟩ := hz.new v hv hv'
    exact ⟨y, hp⟩
  · refine ⟨0, m', O', hok, hw.apart, Or.inr ⟨rfl, hpage, fun x hx => ?_⟩⟩
    rcases hw.moved.mine x (Or.inl hx) with (h0 | h0 | ⟨e, k, h0⟩) | h0
    · exact Or.inl h0
    · rw [hw.held x h0] at hx
      cases hx
    · refine Or.inr ⟨e, k, ?_, h0⟩
      refine Nat.lt_of_le_of_ne (hw.moved.frames.live h0).2.1.1 fun he => ?_
      rw [he] at h0
      rw [h.leaf_kept hf hw.moved.frames hpage h0] at hx
      cases hx
    · rw [hw.lost x h0] at hx
      cases hx

/-- Exactly the pages from `s` to before `e` are unmapped and their frames freed. -/
structure Deallocated (f s e : Nat) (O : Nat → Use τ) (m : Mem) (O' : Nat → Use τ) (m' : Mem) : Prop where
  apart : Apart f O m O' m'
  none : ∀ v, s ≤ v → v < e → m'.page f v = none
  page : ∀ v < userPages, ¬ (s ≤ v ∧ v < e) → m'.page f v = m.page f v
  freed : ∀ x v, s ≤ v → v < e → O x = .node f 4 v → O' x = .free
  kept : ∀ x, (∀ v, s ≤ v → v < e → O x ≠ .node f 4 v) → O' x = O x

/-- Shrinking a space is exact if and only if no page that is to go has a missing page before it, in its block of 2 MB.
-/
theorem deallocUvm_exact (h : Frames lower O m) (hf : O f = .node f 0 0) (hlt : newSz < oldSz)
    (htop : oldSz ≤ userTop) :
    (∃ m' O', deallocUvm f oldSz newSz m = .ok (newSz, m') ∧ Deallocated f (pageUp newSz) (pageUp oldSz) O m O' m') ↔
      ∀ v, pageUp newSz ≤ v → v < pageUp oldSz → m.page f v ≠ none →
        ∀ u, pageUp newSz ≤ u → v / 512 = u / 512 → u ≤ v → m.page f u ≠ none := by
  obtain ⟨r, m₁, hok, rfl, O₁, hun⟩ := (deallocUvm_spec h hf hlt htop).returns
  have hup : pageUp oldSz ≤ userPages := by
    simp only [pageUp, pgsize4kb, userTop, userPages] at htop ⊢
    omega
  constructor
  · rintro ⟨m', O', hok', hd⟩ v hv hv' hp
    rw [hok] at hok'
    obtain rfl : m₁ = m' := (Prod.mk.inj (Except.ok.inj hok')).2
    by_contra hnot
    have hsw : ¬ Swept m f (pageUp r) v := fun h0 => hnot h0.2
    exact hp ((hun.page v (by omega) fun _ => hsw).symm.trans (hd.none v hv hv'))
  · intro hall
    refine ⟨m₁, O₁, hok, hun.worked.apart, fun v hv hv' => ?_, fun v hv hout => ?_, fun x v hv hv' hx => ?_,
      fun x hx => ?_⟩
    · by_cases hp : m.page f v = none
      · rw [hun.page v (by omega) fun _ h0 => h0.2 v hv rfl (Nat.le_refl v) hp, hp]
      · exact hun.gone v hv' ⟨hv, hall v hv hv' hp⟩
    · exact hun.page v hv fun h0 h1 => hout ⟨h1.1, h0⟩
    · obtain ⟨-, hp, -⟩ := h.frame_page hx
      have hp' : m.page f v ≠ none := by
        rw [page_of_present hp]
        rintro ⟨⟩
      exact hun.freed x v hv' ⟨hv, hall v hv hv' hp'⟩ hx
    · exact hun.use x fun v hv hsw => hx v hsw.1 hv

/-! ## Copying a space -/

/-- The frame `x` is that of a page of the space `f`. -/
def IsPage (m : Mem) (f x : Nat) : Prop := ∃ v < userPages, ∃ a b, m.page f v = some (a, b) ∧ pteAddr a = x

theorem Frames.isPage {x : Nat} (h : Frames lower O m) (hf : O f = .node f 0 0) (hx : IsPage m f x) :
    ∃ v, O x = .node f 4 v := by
  obtain ⟨v, hv, a, b, hp, rfl⟩ := hx
  exact ⟨v, h.use_of_page hf hv hp⟩

/-- What is written to the pages of one space is not seen in another one. -/
theorem Frames.isolated {g v : Nat} (h : Frames lower O m) (hf : O f = .node f 0 0)
    (hg : O g = .node g 0 0) (hfg : f ≠ g) (hs : Same (IsPage m f) m m') (hv : v < userPages) :
    m'.page g v = m.page g v := by
  have hnot : ∀ {z e k}, O z = .node g e k → ¬ IsPage m f z := fun {z e k} hz h0 => by
    obtain ⟨v, h1⟩ := h.isPage hf h0
    rw [hz] at h1
    exact hfg (Use.node.inj h1).1.symm
  have hin := lower_in.mpr hv
  refine page_congr (h.entry_congr hg (fun z e k hz _ j => ?_) hin) fun z hz => ?_
  · rw [Mem.pte, hs.pages z (hnot hz), Mem.pte]
  · exact hs.pages z (hnot ((h.tree hg hin (Nat.le_refl 4)).mp hz))

/-- There are fewer frames than pages of a space, so a space is never full. -/
theorem Frames.not_full {n : Nat} (h : Frames lower O m) (hf : O f = .node f 0 0)
    (hfull : ∀ v, 1 ≤ v → v < n → m.page f v ≠ none) : n ≤ userPages := by
  by_contra hn
  have huse : ∀ v ∈ Finset.Ico 1 userPages, O (pteAddr (m.entry f 4 v)) = .node f 4 v := fun v hv => by
    obtain ⟨h1, h2⟩ := Finset.mem_Ico.mp hv
    refine h.page_frame hf h2 ?_
    by_contra h0
    exact hfull v h1 (by omega) (page_of_absent (Bool.eq_false_iff.mpr h0))
  have hmaps : ∀ v ∈ Finset.Ico 1 userPages, pteAddr (m.entry f 4 v) ∈ Finset.range (2 ^ 25) := fun v hv => by
    have hr := h.range (x := pteAddr (m.entry f 4 v)) (by rw [huse v hv]; rintro ⟨⟩) (fun h3 => absurd h3 (by decide))
    rw [Finset.mem_range]
    simp only [pgsize4kb, phyStop] at hr
    omega
  have hinj : Set.InjOn (fun v => pteAddr (m.entry f 4 v)) (Finset.Ico 1 userPages) := fun v hv w hw heq => by
    have h0 := huse v hv
    dsimp only at heq
    rw [heq, huse w hw] at h0
    exact (Use.node.inj h0).2.2.symm
  have hcard := Finset.card_le_card_of_injOn _ hmaps hinj
  rw [Nat.card_Ico, Finset.card_range, userPages] at hcard
  omega

/-- A copy of a space: each page from 1 on has the contents and the flags of the original in a frame of its own, no
other page is there, the kernel's half is the kernel's, and the original is as it was. Whatever is then written to the
pages of one of the two, the other stays as it is. -/
theorem copyUvm_isolates {sz : Nat} (h : Frames lower O m) (hk : O m.kpml4 = .kernel) (hf : O f = .node f 0 0)
    (hfull : ∀ v, 1 ≤ v → v < pageUp sz → m.page f v ≠ none) :
    ∃ r m', ∃ O' : Nat → Use τ, copyUvm f sz m = .ok (r, m') ∧ Frames lower O' m' ∧ ∀ g, r = some g →
      (∀ v, 1 ≤ v → v < pageUp sz → ∃ a y b, m.page f v = some (a, b) ∧
        m'.page g v = some (pgsize4kb * y + pteFlags a, b) ∧ pteAddr (pgsize4kb * y + pteFlags a) = y ∧
          pteFlags (pgsize4kb * y + pteFlags a) = pteFlags a ∧ ¬ IsPage m f y ∧
        ∀ w < userPages, ∀ a' b', w ≠ v → m'.page g w = some (a', b') → pteAddr a' ≠ y) ∧
      (∀ v < userPages, ¬ (1 ≤ v ∧ v < pageUp sz) → m'.page g v = none) ∧
      (∀ i, 256 ≤ i → i < 512 → m'.pte g i = m.pte m.kpml4 i) ∧
      (∀ x e k, O x = .node f e k → m'.pages x = m.pages x) ∧ (∀ v < userPages, m'.page f v = m.page f v) ∧
      (∀ m'', Same (IsPage m' f) m' m'' → ∀ v < userPages, m''.page g v = m'.page g v) ∧
      ∀ m'', Same (IsPage m' g) m' m'' → ∀ v < userPages, m''.page f v = m'.page f v := by
  have hup := h.not_full hf hfull
  have htop : sz ≤ userTop := by
    simp only [pageUp, pgsize4kb, userTop, userPages] at hup ⊢
    omega
  have hruns : ∀ e, ¬ (e = Halt.panic "copy_uvm: pte should exist" ∧ Missing m f sz) := by
    rintro _ ⟨-, v, h1, hv, h0⟩
    exact hfull v h1 hv h0
  obtain ⟨r, m', hok, O', hb, hr⟩ := (copyUvm_spec h hk hf htop).returns_of hruns
  have hsp := hb.spared
  refine ⟨r, m', O', hok, hsp.frames, fun g hrg => ?_⟩
  obtain ⟨hg, hg'⟩ := hb.root g hrg
  have hupper := hb.upper g hrg
  obtain ⟨-, -, hnew, hnone⟩ := hr g hrg
  have hfg : f ≠ g := fun h0 => by rw [h0, hg] at hf; cases hf
  have hf' : O' f = .node f 0 0 := by rw [hsp.use f (by rw [hf]; rintro ⟨⟩) (by rw [hf]; rintro ⟨⟩), hf]
  have hpage : ∀ v < userPages, m'.page f v = m.page f v := fun v hv => hsp.page h hf hv
  refine ⟨fun v h1 hv => ?_, hnone, hupper, fun x e k hx => hsp.same.pages x ?_, hpage, fun m'' hs v hv => ?_,
    fun m'' hs v hv => ?_⟩
  · cases hp : m.page f v with
    | none => exact absurd hp (hfull v h1 hv)
    | some ab =>
        obtain ⟨y, hy, hp'⟩ := hnew v h1 hv ab.1 ab.2 hp
        have haddr := pteAddr_add y (pteFlags_lt ab.1)
        have hy' := hsp.frames.use_of_page hg' (by omega) hp'
        rw [haddr] at hy'
        refine ⟨ab.1, y, ab.2, rfl, hp', haddr, pteFlags_add y (pteFlags_lt ab.1), fun h0 => ?_,
          fun w hw a' b' hwv hpw h0 => ?_⟩
        · obtain ⟨u, hu⟩ := h.isPage hf h0
          rw [hy] at hu
          cases hu
        · have hw' := hsp.frames.use_of_page hg' hw hpw
          rw [h0, hy'] at hw'
          exact hwv (Use.node.inj hw').2.2.symm
  · rw [hx]
    rintro (h0 | h0) <;> cases h0
  · exact hsp.frames.isolated hf' hg' hfg hs hv
  · exact hsp.frames.isolated hg' hf' (Ne.symm hfg) hs hv

end

/-! ## A space as after exec -/

/-- Whether a space gets a page and can be copied then. -/
def secondPage (m : Mem) : Bool :=
  match setupUvm m with
  | .ok (some f, m) => match allocUvm f 0x1000 0x2000 m with
    | .ok (r, m) => match copyUvm f 0x2000 m with
      | .ok (some _, _) => r != 0
      | _ => false
    | .error _ => false
  | _ => false

/-- The space whose page 1 is mapped, and no other. -/
theorem secondPage_space {τ : Type} {O : Nat → Use τ} (h : Frames lower O m) (hk : O m.kpml4 = .kernel)
    (hm : secondPage m = true) :
    ∃ (m' : Mem) (O' : Nat → Use τ) (f : Nat), Frames lower O' m' ∧ O' f = .node f 0 0 ∧
      (∃ y, m'.page f 1 = some (pgsize4kb * y + 7, fun _ => 0)) ∧ (∀ v < userPages, v ≠ 1 → m'.page f v = none) ∧
      O' m'.kpml4 = .kernel ∧ ∃ g m'', copyUvm f 0x2000 m' = .ok (some g, m'') := by
  obtain ⟨r, m₁, hok, hr⟩ := (setupUvm_spec h hk).returns
  rw [secondPage, hok] at hm
  rcases hr with ⟨rfl, -, -⟩ | ⟨f, rfl, hfree, h₁, hs, hpage, -⟩
  · cases hm
  · obtain ⟨r, m₂, hok₂, O₂, hr₂⟩ :=
      (allocUvm_spec h₁ (upd_self _ _ _) (show 0x1000 ≤ 0x2000 by decide) (by decide) fun v _ hv =>
      hpage v (Nat.lt_trans hv (by decide))).returns
    dsimp only at hm
    rw [hok₂] at hm
    dsimp only at hm
    split at hm
    · rename_i g m' hcopy
      rcases hr₂ with ⟨rfl, hz⟩ | ⟨rfl, -⟩
      · have hfk : m.kpml4 ≠ f := fun h0 => by
          rw [h0, hfree] at hk
          cases hk
        have hkern : upd O f (.node f 0 0) m.kpml4 = .kernel := by rw [upd_of_ne hfk, hk]
        obtain ⟨y, -, hy⟩ := hz.new 1 (by decide) (by decide)
        refine ⟨m₂, O₂, f, hz.worked.moved.frames, hz.worked.root, ⟨y, hy⟩, fun v hv hne => ?_, ?_, g, m', hcopy⟩
        · rw [hz.page v hv fun h0 => ?_]
          · exact hpage v hv
          · have h1 : 1 ≤ v := h0
            have h2 : pageUp 0x2000 = 2 := rfl
            omega
        · rw [hz.worked.moved.same.kpml4, hs.kpml4, hz.worked.moved.other, hkern]
          rw [Mine, hkern]
          rintro (h0 | h0 | ⟨_, _, h0⟩) <;> cases h0
      · cases hm
    · cases hm

theorem secondPage_spec : ∃ (m : Mem) (O : Nat → Use Unit) (f : Nat), Frames lower O m ∧ O f = .node f 0 0 ∧
    (∃ y, m.page f 1 = some (pgsize4kb * y + 7, fun _ => 0)) ∧ (∀ v < userPages, v ≠ 1 → m.page f v = none) ∧
    O m.kpml4 = .kernel ∧ ∃ g m', copyUvm f 0x2000 m = .ok (some g, m') := by
  have hk : sixteenFrames.kpml4 ∉ (List.range 16).map (31 - ·) := by
    rw [sixteenFrames_spec.2.2]
    decide
  exact secondPage_space (sixteenFrames_spec.1.frames lower) (if_neg hk) (by decide +kernel)

theorem allocUvm_all_or_nothing_third : ∃ (f : Nat) (m m' : Mem) (O O' : Nat → Use Unit) (r : Nat),
    allocUvm f 0x2000 0x3000 m = .ok (r, m') ∧ Apart f O m O' m' ∧
      ((r = 0x3000 ∧ ∃ y, m'.page f 2 = some (pgsize4kb * y + 7, fun _ => 0)) ∨ r = 0) := by
  obtain ⟨m, O, f, h, hf, -, hpage, -⟩ := secondPage_spec
  obtain ⟨r, m', O', hok, hap, hr⟩ := allocUvm_all_or_nothing h hf (show 0x2000 ≤ 0x3000 by decide) (by decide)
    fun v hv hv' => hpage v (Nat.lt_trans hv' (by decide)) (Nat.ne_of_gt hv)
  refine ⟨f, m, m', O, O', r, hok, hap, ?_⟩
  rcases hr with ⟨rfl, hnew, -⟩ | ⟨rfl, -⟩
  · exact Or.inl ⟨rfl, hnew 2 (by decide) (by decide)⟩
  · exact Or.inr rfl

theorem deallocUvm_exact_second : ∃ (f : Nat) (m m' : Mem) (O O' : Nat → Use Unit),
    deallocUvm f 0x2000 0x1000 m = .ok (0x1000, m') ∧ Deallocated f 1 2 O m O' m' := by
  obtain ⟨m, O, f, h, hf, ⟨y, hp⟩, -⟩ := secondPage_spec
  obtain ⟨m', O', hok, hd⟩ := (deallocUvm_exact h hf (show 0x1000 < 0x2000 by decide) (by decide)).mpr
    fun v _ _ hv u hu _ huv => by
    have h1 : 1 ≤ u := hu
    have h2 : v < 2 := ‹v < pageUp 0x2000›
    obtain rfl : u = v := by omega
    exact hv
  exact ⟨f, m, m', O, O', hok, hd⟩

/-- The page after a missing page 0 stays mapped when the whole space is to go. -/
theorem deallocUvm_skips : ∃ (f : Nat) (m m' : Mem) (O : Nat → Use Unit), Frames lower O m ∧ O f = .node f 0 0 ∧
    m.page f 1 ≠ none ∧ deallocUvm f 0x2000 0 m = .ok (0, m') ∧ m'.page f 1 = m.page f 1 := by
  obtain ⟨m, O, f, h, hf, ⟨y, hp⟩, hnone, -⟩ := secondPage_spec
  obtain ⟨r, m', hok, rfl, O', hun⟩ := (deallocUvm_spec h hf (show 0 < 0x2000 by decide) (by decide)).returns
  refine ⟨f, m, m', O, h, hf, Option.ne_none_iff_exists'.mpr ⟨_, hp⟩, hok, hun.page 1 (by decide) fun _ hsw => ?_⟩
  exact hsw.2 0 (Nat.le_refl 0) rfl (by decide) (hnone 0 (by decide) (by decide))

theorem copyUvm_isolates_second : ∃ (f g : Nat) (m m' : Mem), copyUvm f 0x2000 m = .ok (some g, m') ∧
    m.page f 1 ≠ none ∧ (m'.page g 1).map Prod.snd = (m.page f 1).map Prod.snd ∧ m'.page g 0 = none := by
  obtain ⟨m, O, f, h, hf, ⟨y, hp⟩, -, hk, g, m', hok⟩ := secondPage_spec
  have hfull : ∀ v, 1 ≤ v → v < pageUp 0x2000 → m.page f v ≠ none := fun v h1 h2 => by
    obtain rfl : v = 1 := Nat.le_antisymm (Nat.lt_succ_iff.mp h2) h1
    exact Option.ne_none_iff_exists'.mpr ⟨_, hp⟩
  obtain ⟨r, m₁, O', hok₁, -, hr⟩ := copyUvm_isolates h hk hf hfull
  rw [hok] at hok₁
  obtain ⟨rfl, rfl⟩ := Prod.mk.inj (Except.ok.inj hok₁)
  obtain ⟨hnew, hnone, -⟩ := hr g rfl
  obtain ⟨a, y, b, hpf, hpg, -⟩ := hnew 1 (Nat.le_refl 1) (by decide)
  refine ⟨f, g, m, m', hok, Option.ne_none_iff_exists'.mpr ⟨_, hp⟩, ?_,
    hnone 0 (by decide) fun h0 => absurd h0.1 (by decide)⟩
  rw [hpf, hpg, Option.map_some, Option.map_some]

/-! ## Copying out -/

/-- In a space whose frames each have one use, the walk to a page ends at its entry in the last level. -/
theorem Frames.translate {τ : Type} {O : Nat → Use τ} {v : Nat} {a : Nat × Nat} (h : Frames lower O m)
    (hf : O f = .node f 0 0) (hv : v < userPages) (ha : m.translate f v = some a) :
    a = (0, m.entry f 4 v) ∧ present (m.entry f 4 v) = true := by
  rw [translate_of_clear (h.clear rfl hf (lower_in.mpr hv))] at ha
  split at ha
  · exact ⟨(Option.some.inj ha).symm, ‹_›⟩
  · cases ha

/-- In a space whose frames each have one use, the frame of a page belongs to that page. -/
theorem Frames.userFrame {τ : Type} {O : Nat → Use τ} {v x : Nat} (h : Frames lower O m) (hf : O f = .node f 0 0)
    (hv : v < userPages) (hx : m.userFrame f v = some x) : O x = .node f 4 v := by
  obtain ⟨a, ha, hx⟩ := Option.bind_eq_some_iff.mp hx
  obtain ⟨rfl, hp⟩ := h.translate hf hv ha
  split at hx
  · obtain rfl := Option.some.inj hx
    rw [frameAt_zero]
    exact h.page_frame hf hv hp
  · cases hx

/-- What `copy_out` asks of a space is so wherever frames each have one use. -/
theorem Frames.distinctPages {τ : Type} {O : Nat → Use τ} (h : Frames lower O m) (hf : O f = .node f 0 0) :
    DistinctPages m f ∧ NoTablePage m f ∧ NoLargePage m f := by
  refine ⟨fun v hv w hw x hx hx' => ?_, fun v hv x hx e k he hin ht => ?_, fun v hv a ha _ => ?_⟩
  · have h0 := (h.userFrame hf hv hx).symm.trans (h.userFrame hf hw hx')
    exact (Use.node.inj h0).2.2
  · rw [h.tree hf hin (Nat.le_of_lt he), h.userFrame hf hv hx] at ht
    have h4 := (Use.node.inj ht).2.1
    omega
  · rw [(h.translate hf hv ha).1]

/-- `copy_out` returns 0 if and only if the user may use every page that the bytes go to. The user then finds the bytes
from `va` on, and in any case no other byte of physical memory changes and none behind the first page that the user may
not use. -/
theorem copyOut_exact {va : Nat} {buf : List UInt8} (hd : DistinctPages m f) (htab : NoTablePage m f)
    (hsmall : NoLargePage m f) (hend : va + buf.length < userTop) :
    ∃ r m', copyOut f va buf m = .ok (r, m') ∧ (r = 0 ∨ r = -1) ∧
      (r = 0 ↔ ∀ k < buf.length, m.userFrame f ((va + k) / pgsize4kb) ≠ none) ∧
      (r = 0 → ∀ k < buf.length, m'.userByte f (va + k) = buf[k]?) ∧
      (∀ x o, m'.pages x o ≠ m.pages x o → ∃ k < buf.length, m.userFrame f ((va + k) / pgsize4kb) = some x ∧
        (va + k) % pgsize4kb = o ∧ ∀ j ≤ k, m.userFrame f ((va + j) / pgsize4kb) ≠ none) ∧
      m' = { m with pages := m'.pages } := by
  obtain ⟨r, m', hok, n, hs, hr⟩ := (copyOut_stored hd htab hsmall hend).returns
  have hle := hs.le
  refine ⟨r, m', hok, ?_, ?_, fun h0 k hk => ?_, fun x o hne => ?_, hs.rest⟩
  · rcases hr with ⟨rfl, -⟩ | ⟨rfl, -⟩
    · exact Or.inl rfl
    · exact Or.inr rfl
  · rcases hr with ⟨rfl, rfl⟩ | ⟨rfl, hn, hnone⟩
    · exact ⟨fun _ => hs.reached, fun _ => rfl⟩
    · exact ⟨fun h0 => absurd h0 (by decide), fun hall => absurd hnone (hall n hn)⟩
  · rcases hr with ⟨-, rfl⟩ | ⟨rfl, -⟩
    · obtain ⟨x, hx⟩ := Option.ne_none_iff_exists'.mp (hs.reached k hk)
      rw [Mem.userByte, hs.userFrame htab hend (page_lt_of_lt (by omega)), hx, Option.map_some, hs.inside k hk x hx]
    · exact absurd h0 (by decide)
  · by_contra hno
    refine hne (hs.outside x o fun k hk hx ho => hno ⟨k, by omega, hx, ho, fun j hj => hs.reached j (by omega)⟩)

/-- Three bytes go to the page 1. -/
theorem copyOut_exact_second : ∃ (f : Nat) (m m' : Mem), copyOut f 0x1008 [1, 2, 3] m = .ok (0, m') ∧
    m'.userByte f 0x1009 = some 2 := by
  obtain ⟨m, O, f, h, hf, ⟨y, hp⟩, -⟩ := secondPage_spec
  obtain ⟨hd, htab, hsmall⟩ := h.distinctPages hf
  obtain ⟨r, m', hok, -, hzero, hin, -⟩ := copyOut_exact hd htab hsmall
    (show 0x1008 + [(1 : UInt8), 2, 3].length < userTop by decide)
  obtain ⟨hpres, he, -⟩ := page_eq_some hp
  have hframe : m.userFrame f 1 = some y := by
    rw [Mem.userFrame, translate_of_clear (h.clear rfl hf (lower_in.mpr (by decide))), if_pos hpres,
      Option.bind_some, he]
    dsimp only
    rw [user_add y (by decide), frameAt_zero, pteAddr_add y (by decide)]
    rfl
  have hr : r = 0 := hzero.mpr fun k hk => by
    have hk3 : k < 3 := hk
    rw [show (0x1008 + k) / pgsize4kb = 1 by simp only [pgsize4kb]; omega, hframe]
    exact Option.some_ne_none y
  subst hr
  exact ⟨f, m, m', hok, hin rfl 1 (by decide)⟩

/-- A space whose only page, the page 1, is the table that maps it. -/
def selfMapped : Mem :=
  (((Mem.store ⟨fun _ _ => 0, none, 0, 0⟩ 1 0 (pgsize4kb * 2 + 7)).store 2 0 (pgsize4kb * 3 + 7)).store 3 0
    (pgsize4kb * 4 + 7)).store 4 1 (pgsize4kb * 4 + 7)

theorem selfMapped_pte (t j : Nat) :
    selfMapped.pte t j = if t = 4 ∧ j = 1 then pgsize4kb * 4 + 7 else if t = 3 ∧ j = 0 then pgsize4kb * 4 + 7
    else if t = 2 ∧ j = 0 then pgsize4kb * 3 + 7 else if t = 1 ∧ j = 0 then pgsize4kb * 2 + 7 else 0 := by
  have hzero : (⟨fun _ _ => 0, none, 0, 0⟩ : Mem).pte t j = 0 := Bytes.le_zero _ _
  rw [selfMapped, pte_store, Radix.setSlot, pte_store, Radix.setSlot, pte_store, Radix.setSlot, pte_store,
    Radix.setSlot, hzero]
  rfl

theorem selfMapped_absent {t j : Nat} (ht : t ≠ 4) (hj : j ≠ 0) : selfMapped.pte t j = 0 := by
  simp [selfMapped_pte, ht, hj]

theorem selfMapped_leaf {j : Nat} (hj : j ≠ 1) : selfMapped.pte 4 j = 0 := by
  simp [selfMapped_pte, hj]

/-- The walk to a page passes only entries that are there. -/
theorem selfMapped_lookup {v : Nat} (hv : v < userPages) (h : selfMapped.translate 1 v ≠ none) : v = 1 := by
  unfold Mem.translate at h
  have h3 : v / 512 ^ 3 % 512 = 0 := by
    by_contra hd
    exact h (lookup_of_zero (selfMapped_absent (by decide) hd))
  rw [lookup_table (y := 2) (by rw [h3, selfMapped_pte]; rfl)] at h
  have h2 : v / 512 ^ 2 % 512 = 0 := by
    by_contra hd
    exact h (lookup_of_zero (selfMapped_absent (by decide) hd))
  rw [lookup_table (y := 3) (by rw [h2, selfMapped_pte]; rfl)] at h
  have h1 : v / 512 ^ 1 % 512 = 0 := by
    by_contra hd
    exact h (lookup_of_zero (selfMapped_absent (by decide) hd))
  rw [lookup_table (y := 4) (by rw [h1, selfMapped_pte]; rfl)] at h
  have h0 : v % 512 = 1 := by
    by_contra hd
    refine h ?_
    rw [Mem.lookup, selfMapped_leaf hd]
    rfl
  simp only [userPages] at hv
  omega

theorem selfMapped_distinct : DistinctPages selfMapped 1 := by
  have hone : ∀ v < userPages, ∀ x, selfMapped.userFrame 1 v = some x → v = 1 := fun v hv x hx => by
    refine selfMapped_lookup hv fun h0 => ?_
    rw [Mem.userFrame, h0] at hx
    cases hx
  intro v hv w hw x hx hx'
  rw [hone v hv x hx, hone w hw x hx']

/-- Where a page is a table, the copied byte can undo the mapping of the page. -/
theorem copyOut_selfMapped : DistinctPages selfMapped 1 ∧ 0x1008 + [(0 : UInt8)].length < userTop ∧
    ∃ m', copyOut 1 0x1008 [0] selfMapped = .ok (0, m') ∧ m'.userByte 1 0x1008 ≠ some 0 := by
  have hrun : (copyOut 1 0x1008 [0] selfMapped).toOption.map (fun p => (p.1, p.2.userByte 1 0x1008)) =
    some (0, none) := by decide +kernel
  refine ⟨selfMapped_distinct, by decide, ?_⟩
  cases hok : copyOut 1 0x1008 [0] selfMapped with
  | error e =>
      rw [hok] at hrun
      cases hrun
  | ok p =>
      rw [hok] at hrun
      obtain ⟨h0, h1⟩ := Prod.mk.inj (Option.some.inj hrun)
      refine ⟨p.2, by rw [← h0], ?_⟩
      rw [h1]
      rintro ⟨⟩

end Xv6.Vm
