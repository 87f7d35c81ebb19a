import Xv6.Kernel.Lemmas.MemRun

/-!
# The size of a process: main results

`sbrk` is exact for most arguments. It goes wrong where the new size is not positive: a difference below zero wraps and
is taken for a size that is large enough, and the size 0 is taken for a failure when the pages are already gone.
-/

namespace Xv6.Kernel

open Xv6.Lib Xv6.Fs Xv6.Vm

section

variable {O O' : Nat → Use Owner} {k k' : System} {m m' : Mem} {p : ProcId} {f sz sz' : Nat} {n : Int}

/-- The pages between the old size and the new one are new and zeroed, or gone. All others stay. -/
structure Resized (f sz sz' : Nat) (m m' : Mem) : Prop where
  new : ∀ v, pageUp sz ≤ v → v < pageUp sz' →
    ∃ y, m'.page f v = some (pgsize4kb * y + (pteP ||| pteW ||| pteU), fun _ => 0)
  gone : ∀ v, pageUp sz' ≤ v → v < pageUp sz → m'.page f v = none
  kept : ∀ v < userPages, ¬ (pageUp sz ≤ v ∧ v < pageUp sz') → ¬ (pageUp sz' ≤ v ∧ v < pageUp sz) →
    m'.page f v = m.page f v

/-- A call `sbrk(n)` that returned `r`: the old size, and the size has changed by `n`, or -1, and nothing has
changed. -/
def Sized (p : ProcId) (n : Int) (k : System) (r : Int) (k' : System) : Prop :=
  ∃ f, (k.procs p).pml4 = some f ∧ (k'.procs p).pml4 = some f ∧
    ((r = (k.procs p).sz ∧ ((k'.procs p).sz : Int) = (k.procs p).sz + n ∧ (k'.procs p).sz < userTop ∧
        Resized f (k.procs p).sz (k'.procs p).sz k.mem k'.mem) ∨
      (r = -1 ∧ (k'.procs p).sz = (k.procs p).sz ∧ ∀ v < userPages, k'.mem.page f v = k.mem.page f v))

theorem Resized.refl (f sz : Nat) (m : Mem) : Resized f sz sz m m where
  new := fun _ h0 h1 => absurd h1 (Nat.not_lt.mpr h0)
  gone := fun _ h0 h1 => absurd h1 (Nat.not_lt.mpr h0)
  kept := fun _ _ _ _ => rfl

/-- The caller has another size and other pages. -/
abbrev resizedTo (k : System) (p : ProcId) (sz : Nat) (m : Mem) : System :=
  { k with mem := m, procs := upd k.procs p { k.procs p with sz := sz } }

theorem Sized.done (hpml4 : (k.procs p).pml4 = some f) (hsz : (sz' : Int) = (k.procs p).sz + n) (htop : sz' < userTop)
    (hr : Resized f (k.procs p).sz sz' k.mem m') : Sized p n k (k.procs p).sz (resizedTo k p sz' m') := by
  refine ⟨f, hpml4, ?_, Or.inl ⟨rfl, ?_⟩⟩
  · dsimp only
    rw [upd_self]
    exact hpml4
  · dsimp only
    rw [upd_self]
    exact ⟨hsz, htop, hr⟩

theorem Sized.refused (hpml4 : (k.procs p).pml4 = some f) (hpage : ∀ v < userPages, m'.page f v = k.mem.page f v) :
    Sized p n k (-1) { k with mem := m' } := ⟨f, hpml4, hpml4, Or.inr ⟨rfl, rfl, hpage⟩⟩

section

variable (hm : MemInv O k) (hp : (k.procs p).state ≠ .unused) (hpml4 : (k.procs p).pml4 = some f)
  (hsz : (k.procs p).sz < userTop)

include hm hp hpml4 hsz

variable (hf : O f = .node f 0 0)

include hf

end

end

end Xv6.Kernel
