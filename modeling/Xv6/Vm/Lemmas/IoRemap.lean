import Xv6.Vm.Lemmas.Map

/-!
# Device memory

`io_remap` maps the pages of `size` bytes from a page border on, and returns an address inside the first of them: the
last byte of the device is among them if the offset of `pa` in its page does not bring it onto one page more. Pages that
are translated stay as they are, and this keeps apart what the calls hand out.
-/

namespace Xv6.Vm

open Xv6.Lib

variable {τ : Type} {O : Nat → Use τ} {m m' : Mem} {s s' : IoMem} {f pa size va v w k i n : Nat}

/-- The physical address of `va`: the address in the entry where the walk ends, and the offset in the page, which is
large at the upper levels. -/
def Mem.physical (m : Mem) (f va : Nat) : Option Nat :=
  (m.translate f (vpn va)).map fun a => roundDown a.2 (pgsize4kb * 512 ^ a.1) + va % (pgsize4kb * 512 ^ a.1)

/-- The last byte is on the page on which it would be if `pa` were at the start of a page. -/
def Fits (pa size : Nat) : Prop := (pa % pgsize4kb + (size - 1)) / pgsize4kb = (size - 1) / pgsize4kb

instance : Decidable (Fits pa size) := inferInstanceAs (Decidable (_ = _))

/-- The state of the kernel's table and of `io_bump` between calls. -/
structure IoReady (O : Nat → Use τ) (s : IoMem) : Prop where
  frames : Frames whole O s.mem
  root : O s.mem.kpml4 = .node s.mem.kpml4 0 0
  aligned : s.ioBump % pgsize4kb = 0
  bound : s.ioBump < 2 ^ 64

theorem pagesOf_aligned (h : va % pgsize4kb = 0) (hsize : 0 < size) : pagesOf va size = (size - 1) / pgsize4kb + 1 := by
  simp only [pagesOf, pgsize4kb] at h ⊢
  omega

theorem bump_aligned (a : Nat) : (roundDown (a % 2 ^ 64) pgsize4kb + pgsize4kb) % 2 ^ 64 % pgsize4kb = 0 := by
  rw [roundDown_eq]
  simp only [pgsize4kb]
  omega

/-- The next page to hand out. -/
theorem vpn_bump (h : va % pgsize4kb = 0) (hsize : 0 < size) :
    vpn ((roundDown ((va + size - 1) % 2 ^ 64) pgsize4kb + pgsize4kb) % 2 ^ 64) =
      (vpn va + ((size - 1) / pgsize4kb + 1)) % 512 ^ 4 := by
  simp only [vpn, roundDown, pgsize4kb] at h ⊢
  omega

/-- A call that returns has mapped pages that were not translated. -/
theorem ioRemap_spec (h : IoReady O s) (hsize : 0 < size) :
    Wp (ioRemap pa size) (fun v s' => ∃ O' : Nat → Use τ, IoReady O' s' ∧ s'.mem.kpml4 = s.mem.kpml4 ∧
      v = (s.ioBump + pa % pgsize4kb) % 2 ^ 64 ∧
        vpn s'.ioBump = (vpn s.ioBump + ((size - 1) / pgsize4kb + 1)) % 512 ^ 4 ∧
      Laid s.mem.kpml4 (vpn s.ioBump) (roundDown pa pgsize4kb) (ptePCD ||| pteW)
        ((size - 1) / pgsize4kb + 1) s.mem s'.mem)
      (fun e => e = .panic "remap" ∨ e = .panic "io_remap failed by map_pages failure") s := by
  unfold ioRemap
  rw [wp_bind, wp_get, wp_bind, wp_on]
  refine (mapPages_laid h.frames h.root hsize).mono ?_ fun e he => Or.inl he.1
  rintro r m' ⟨O', n, hm', hroot, hk, hlaid, hr⟩
  rw [wp_bind, wp_panicIf]
  refine ⟨fun _ => Or.inr rfl, fun h0 => ?_⟩
  rcases hr with ⟨-, rfl⟩ | ⟨rfl, -, -⟩
  · rw [wp_bind, wp_modify, wp_pure]
    rw [pagesOf_aligned h.aligned hsize] at hlaid
    refine ⟨O', ⟨hm', ?_, bump_aligned _, Nat.mod_lt _ (by decide)⟩, hk, rfl, vpn_bump h.aligned hsize, hlaid⟩
    rw [← hk] at hroot
    exact hroot
  · exact absurd (by decide) h0

/-! ## The range of a call -/

/-- The page of the byte `i` of a range. -/
theorem vpn_byte (h : s.ioBump % pgsize4kb = 0) (pa i : Nat) :
    vpn ((s.ioBump + pa % pgsize4kb) % 2 ^ 64 + i) = (vpn s.ioBump + (pa % pgsize4kb + i) / pgsize4kb) % 512 ^ 4 := by
  simp only [vpn, pgsize4kb] at h ⊢
  omega

theorem roundDown_leaf (k : Nat) :
    roundDown (leaf (roundDown pa pgsize4kb + pgsize4kb * k) (ptePCD ||| pteW)) pgsize4kb =
    (roundDown pa pgsize4kb + pgsize4kb * k) % 2 ^ 64 := by
  have hpa : (roundDown pa pgsize4kb + pgsize4kb * k) % pgsize4kb = 0 := by
    rw [roundDown_eq, ← Nat.mul_add, Nat.mul_mod_right]
  have h19 : ptePCD ||| pteW ||| pteP = 19 := by decide
  rw [leaf_eq hpa (by decide), h19]
  simp only [roundDown, pgsize4kb] at hpa ⊢
  omega

/-- A byte on a page that the call mapped has the address that it should have. -/
theorem Laid.physical (h : Laid f (vpn s.ioBump) (roundDown pa pgsize4kb) (ptePCD ||| pteW) n m m')
    (hb : s.ioBump % pgsize4kb = 0) (hi : (pa % pgsize4kb + i) / pgsize4kb < n) :
    m'.physical f ((s.ioBump + pa % pgsize4kb) % 2 ^ 64 + i) = some ((pa + i) % 2 ^ 64) := by
  rw [Mem.physical, vpn_byte hb, h.mapped _ hi, Option.map_some, Nat.pow_zero, Nat.mul_one, roundDown_leaf]
  refine congrArg some ?_
  simp only [roundDown, pgsize4kb] at hb ⊢
  omega

/-- The bytes of a range that fits are on the pages that the call mapped. -/
theorem Fits.page_lt (h : Fits pa size) (hi : i < size) :
    (pa % pgsize4kb + i) / pgsize4kb < (size - 1) / pgsize4kb + 1 := by
  simp only [Fits, pgsize4kb] at h ⊢
  omega

/-- Otherwise the last byte is on the next page. -/
theorem Fits.page_eq (h : ¬ Fits pa size) : (pa % pgsize4kb + (size - 1)) / pgsize4kb = (size - 1) / pgsize4kb + 1 := by
  simp only [Fits, pgsize4kb] at h ⊢
  omega

theorem vpn_lt (va : Nat) : vpn va < 512 ^ 4 := Nat.mod_lt _ (by decide)

/-- A call changes the translation of no page that had one. -/
theorem Laid.kept {perm : Nat} (h : Laid f v pa perm n m m') (hw : w < 512 ^ 4) (hm : m.translate f w ≠ none) :
    m'.translate f w = m.translate f w := by
  refine h.other w hw fun k hk h0 => hm ?_
  rw [h0]
  exact h.fresh k hk

/-! ## Sequences of calls -/

/-- A call and the address that it returned. -/
structure IoRange where
  pa : Nat
  size : Nat
  va : Nat

/-- `va + i` is translated to `pa + i`. -/
def IoRange.Covered (r : IoRange) (m : Mem) : Prop :=
  ∀ i < r.size, m.physical m.kpml4 (r.va + i) = some ((r.pa + i) % 2 ^ 64)

/-- The two ranges have no page in common. -/
def IoRange.Disjoint (r r' : IoRange) : Prop := ∀ i < r.size, ∀ j < r'.size, vpn (r.va + i) ≠ vpn (r'.va + j)

def ioRemaps : List (Nat × Nat) → Prog IoMem (List IoRange)
  | [] => pure []
  | (pa, size) :: calls => do
    let va ← ioRemap pa size
    let ranges ← ioRemaps calls
    pure (⟨pa, size, va⟩ :: ranges)

/-- What a sequence of calls keeps and hands out. -/
structure Remapped (calls : List (Nat × Nat)) (rs : List IoRange) (s s' : IoMem) : Prop where
  calls : rs.map (fun r => (r.pa, r.size)) = calls
  kpml4 : s'.mem.kpml4 = s.mem.kpml4
  kept : ∀ w < 512 ^ 4, s.mem.translate s.mem.kpml4 w ≠ none →
    s'.mem.translate s.mem.kpml4 w = s.mem.translate s.mem.kpml4 w
  fresh : ∀ r ∈ rs, Fits r.pa r.size → ∀ i < r.size, s.mem.translate s.mem.kpml4 (vpn (r.va + i)) = none
  covered : ∀ r ∈ rs, Fits r.pa r.size → r.Covered s'.mem
  disjoint : rs.Pairwise fun r r' => Fits r.pa r.size → Fits r'.pa r'.size → r.Disjoint r'

theorem Mem.physical_of_some (h : m.physical f va = some w) : m.translate f (vpn va) ≠ none := fun h0 => by
  rw [Mem.physical, h0] at h
  cases h

/-- One call before the others. -/
theorem Remapped.cons {s₁ : IoMem} {calls : List (Nat × Nat)} {rs : List IoRange} (h : IoReady O s)
    (hk : s₁.mem.kpml4 = s.mem.kpml4)
    (hlaid : Laid s.mem.kpml4 (vpn s.ioBump) (roundDown pa pgsize4kb) (ptePCD ||| pteW)
      ((size - 1) / pgsize4kb + 1) s.mem s₁.mem)
    (hrs : Remapped calls rs s₁ s') :
    Remapped ((pa, size) :: calls) (⟨pa, size, (s.ioBump + pa % pgsize4kb) % 2 ^ 64⟩ :: rs) s s' := by
  have hcov : Fits pa size → ∀ i < size, s₁.mem.physical s.mem.kpml4 ((s.ioBump + pa % pgsize4kb) % 2 ^ 64 + i) =
      some ((pa + i) % 2 ^ 64) := fun hfit i hi => hlaid.physical h.aligned (hfit.page_lt hi)
  have hnew : Fits pa size → ∀ i < size,
      s.mem.translate s.mem.kpml4 (vpn ((s.ioBump + pa % pgsize4kb) % 2 ^ 64 + i)) = none :=
    fun hfit i hi => by
      rw [vpn_byte h.aligned]
      exact hlaid.fresh _ (hfit.page_lt hi)
  have hkept := hrs.kept
  have hfresh := hrs.fresh
  rw [hk] at hkept hfresh
  refine ⟨?_, hrs.kpml4.trans hk, fun w hw hm => ?_, fun r hr => ?_, fun r hr => ?_, ?_⟩
  · rw [List.map_cons, hrs.calls]
  · have h1 := hlaid.kept hw hm
    rw [hkept w hw (by rw [h1]; exact hm), h1]
  · rcases List.mem_cons.mp hr with rfl | hr
    · exact hnew
    · intro hfit i hi
      by_contra h0
      rw [← hlaid.kept (vpn_lt _) h0] at h0
      exact h0 (hfresh r hr hfit i hi)
  · rcases List.mem_cons.mp hr with rfl | hr
    · intro hfit i hi
      have h1 := hcov hfit i hi
      dsimp only
      rw [hrs.kpml4, hk, ← h1, Mem.physical, hkept _ (vpn_lt _) (Mem.physical_of_some h1), Mem.physical]
    · exact hrs.covered r hr
  · refine List.pairwise_cons.mpr ⟨fun r hr hfit hfit' i hi j hj heq => ?_, hrs.disjoint⟩
    -- the page was translated when the other call was made
    have h1 := Mem.physical_of_some (hcov hfit i hi)
    dsimp only at heq
    rw [heq] at h1
    exact h1 (hfresh r hr hfit' j hj)

theorem ioRemaps_spec {calls : List (Nat × Nat)} (h : IoReady O s) (hsize : ∀ c ∈ calls, 0 < c.2) :
    Wp (ioRemaps calls) (fun rs s' => (∃ O' : Nat → Use τ, IoReady O' s') ∧ Remapped calls rs s s')
      (fun _ => True) s := by
  induction calls generalizing O s with
  | nil =>
      unfold ioRemaps
      rw [wp_pure]
      exact ⟨⟨O, h⟩, rfl, rfl, fun _ _ _ => rfl, nofun, nofun, List.Pairwise.nil⟩
  | cons c calls ih =>
      unfold ioRemaps
      refine Wp.seq (ioRemap_spec h (hsize c List.mem_cons_self)) (fun _ _ => trivial) ?_
      rintro v s₁ ⟨O₁, h₁, hk, rfl, -, hlaid⟩
      refine Wp.bind (ih h₁ fun c hc => hsize c (List.mem_cons_of_mem _ hc)) ?_
      rintro rs s' ⟨hs', hrs⟩
      rw [wp_pure]
      exact ⟨hs', hrs.cons h hk hlaid⟩

end Xv6.Vm
