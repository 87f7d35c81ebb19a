import Xv6.Kernel.Lemmas.Boot
import Xv6.Kernel.Lemmas.Stack
import Xv6.Vm.Theorems

/-!
# Executing programs: main results
-/

namespace Xv6.Kernel

open Xv6.Lib Xv6.Fs Xv6.Vm

variable {τ : Type} {O : Nat → Use τ} {k : System} {ip : Slot} {elf : ElfHeader} {m : Mem} {f : Nat}

/-! ## The loop over the program headers -/

/-- Where the round of the index `i` reads its program header. -/
def headerOffset (elf : ElfHeader) (i : Int) : Nat := wrap (elf.phOff + progHeaderSize * i)

theorem toShort_bound (n : Int) : -32768 ≤ toShort n ∧ toShort n ≤ 32767 := by
  unfold toShort
  omega

theorem toShort_inj {n n' : Nat} (hn : n ≤ 32768) (hn' : n' ≤ 32768) (h : toShort n = toShort n') : n = n' := by
  unfold toShort at h
  omega

theorem wrap_inj {a b : Int} (h : wrap a = wrap b) (hab : a - b < 2 ^ 64) (hba : b - a < 2 ^ 64) : a = b := by
  unfold wrap at h
  omega

/-- Two indices are too close for their offsets to agree by wrapping. -/
theorem headerOffset_ne {n n' : Nat} (hn : n ≤ 32768) (hn' : n' ≤ 32768) (h : n ≠ n') :
    headerOffset elf (toShort n) ≠ headerOffset elf (toShort n') := by
  intro h0
  refine h (toShort_inj hn hn' ?_)
  have hi := toShort_bound n
  have hi' := toShort_bound n'
  have heq := wrap_inj h0 (by simp only [progHeaderSize]; omega) (by simp only [progHeaderSize]; omega)
  simp only [progHeaderSize] at heq
  omega

/-- The index of the loop is a `short`, and still the loop ends for every file: it has at most 32769 rounds, each of
which reads another header. -/
theorem execLoad_ends (h : k.fs.WF) (href : 0 < (k.fs.cell ip).ref) (hv : (k.fs.cell ip).valid = true)
    (htype : (k.fs.view.nodeAt ip).type ≠ tDev) (hm : Frames lower O k.mem) (hk : O k.mem.kpml4 = .kernel)
    (hset : setupUvm k.mem = .ok (some f, m)) :
    (∃ r k', execLoad ip f elf { k with mem := m } = .ok (r, k')) ∧
    (∀ n a k', Rounds (execRound ip f elf) (0, pgsize4kb) { k with mem := m } n a k' → n + 1 ≤ 32769) ∧
    ∀ n a k₁ n' a' k₂, Rounds (execRound ip f elf) (0, pgsize4kb) { k with mem := m } n a k₁ →
      Rounds (execRound ip f elf) (0, pgsize4kb) { k with mem := m } n' a' k₂ → n ≠ n' →
        headerOffset elf a.1 ≠ headerOffset elf a'.1 := by
  obtain ⟨h0, -, -⟩ | ⟨g, hg, -, hframes, -, hempty, -⟩ := (setupUvm_spec hm hk).of_ok hset
  · cases h0
  obtain rfl := Option.some.inj hg
  have hle : ∀ {n a k'}, Rounds (execRound ip f elf) (0, pgsize4kb) { k with mem := m } n a k' → n ≤ 32768 :=
    fun hr => rounds_le (k := { k with mem := m }) h href hv htype hr
  refine ⟨?_, fun n a k' hr => Nat.succ_le_succ (hle hr), fun n a k₁ n' a' k₂ hr hr' hne => ?_⟩
  · obtain ⟨r, k', hok, -⟩ := (execLoad_file (k := { k with mem := m }) h href hv htype hframes (upd_self _ _ _)
      hempty).returns
    exact ⟨r, k', hok⟩
  · obtain ⟨-, hi, -⟩ := rounds_read (k := { k with mem := m }) h href hv htype hr
    obtain ⟨-, hi', -⟩ := rounds_read (k := { k with mem := m }) h href hv htype hr'
    rw [hi, hi']
    exact headerOffset_ne (hle hr) (hle hr') hne

/-- A locked directory. -/
theorem locked_root : ∃ (s : Fs.State) (ip : Slot), s.WF ∧ 0 < (s.cell ip).ref ∧ (s.cell ip).valid = true ∧
    (s.view.nodeAt ip).type = tDir := by
  have hq := reachable_small.inv.quiet
  obtain ⟨ip, href, hdir⟩ : ∃ ip : Slot, 0 < (smallSystem.fs.cell ip).ref ∧
    (smallSystem.fs.node (smallSystem.fs.cell ip).inum).type = tDir :=
    ⟨⟨0, by decide⟩, by decide +kernel, by decide +kernel⟩
  generalize smallSystem.fs = s₀ at hq href hdir
  obtain ⟨_, s, -, hwf, hview, -⟩ := (ilock_spec hq.wf href).returns_of (by
    rintro e (⟨-, hl⟩ | ⟨-, h0⟩)
    · exact Bool.false_ne_true ((congrFun hq.unlocked ip).symm.trans hl)
    · exact hq.alive ip href h0)
  have hcell : s.cell ip = { s₀.cell ip with locked := true, valid := true } :=
    (congrFun (congrArg View.cell hview) ip).trans (upd_self _ _ _)
  have hnode : s.node = s₀.node := congrArg View.node hview
  refine ⟨s, ip, hwf, by rw [hcell]; exact href, by rw [hcell], ?_⟩
  show (s.node (s.cell ip).inum).type = tDir
  rw [hcell, hnode]
  exact hdir

/-- The root directory is taken for a program with more headers than a `short` counts. -/
theorem execLoad_ends_root : ∃ (k : System) (ip : Slot) (f : Nat) (m : Mem) (elf : ElfHeader),
    setupUvm k.mem = .ok (some f, m) ∧ elf.phNum = 65535 ∧
    ∃ r k', execLoad ip f elf { k with mem := m } = .ok (r, k') := by
  obtain ⟨s, ip, hwf, href, hv, htype⟩ := locked_root
  have hframes := sixteenFrames_spec.1.frames (τ := Unit) lower
  have hin : 16 ∈ (List.range 16).map (31 - ·) ∧ sixteenFrames.kpml4 ∉ (List.range 16).map (31 - ·) := by
    rw [sixteenFrames_spec.2.2]
    decide
  generalize (List.range 16).map (31 - ·) = l at hframes hin
  have hk : (fun x => if x ∈ l then Use.free else Use.kernel : Nat → Use Unit) sixteenFrames.kpml4 = .kernel :=
    if_neg hin.2
  generalize sixteenFrames = m₀ at hframes hk
  obtain ⟨r, m, hset, hr⟩ := (setupUvm_spec hframes hk).returns
  rcases hr with ⟨-, -, hnone⟩ | ⟨f, rfl, -⟩
  · exact absurd (if_pos hin.1) (hnone 16)
  · refine ⟨{ System.initial (fun _ _ => 0) m₀ fun _ => none with fs := s }, ip, f, m,
      ⟨elfMagic, 0, 0, 65535⟩, hset, rfl, ?_⟩
    exact (execLoad_ends (k := { System.initial (fun _ _ => 0) m₀ fun _ => none with fs := s }) hwf href hv
      (htype.trans_ne (by decide)) hframes hk hset).1

end Xv6.Kernel
