import Xv6.Lib.Radix
import Xv6.Vm.PageTable

/-!
# The use of page frames

Every page frame has one use: it is on the free list, it belongs to one place of one address space, or somebody keeps
it. `Frames` says that a table of uses describes a memory; that it is a table, one use for each frame, is what keeps
address spaces apart. The places of an address space are those of a radix tree of depth four, the pages at the end.
-/

namespace Xv6.Vm

open Xv6.Lib

/-! ## Address spaces as trees -/

/-- What an entry above the depth `e` leads to: a table, or the frame of a page. A large page is none of them. -/
def next (e pte : Nat) : Option Nat := if present pte ∧ (e = 4 ∨ large pte = false) then some (pteAddr pte) else none

/-- The table at depth `e` with key `k`, or at depth 4 the frame of the page `k`. -/
def Mem.node (m : Mem) (f e k : Nat) : Option Nat := Radix.node 512 next m.pte f e k

/-- The entry above the place at depth `e` with key `k`. -/
def Mem.entry (m : Mem) (f e k : Nat) : Nat := Radix.slot 512 next 0 m.pte f e k

/-- The page of an address. The upper 16 bits do not count. -/
def vpn (va : Nat) : Nat := va / pgsize4kb % 512 ^ 4

/-- The translation of the page `v` below a table that has `n` levels below it: the entry where it ends and its level.
-/
def Mem.lookup (m : Mem) (v : Nat) : Nat → Nat → Option (Nat × Nat)
  | 0, t => if present (m.pte t (v % 512)) then some (0, m.pte t (v % 512)) else none
  | n + 1, t =>
    let pte := m.pte t (v / 512 ^ (n + 1) % 512)
    if present pte then if large pte then some (n + 1, pte) else m.lookup v n (pteAddr pte) else none

/-- The translation of the page `v` in the space `f`. -/
def Mem.translate (m : Mem) (f v : Nat) : Option (Nat × Nat) := m.lookup v 3 f

/-- The page `v` of a space: its entry and its contents. -/
def Mem.page (m : Mem) (f v : Nat) : Option (Nat × Bytes) :=
  if present (m.entry f 4 v) then some (m.entry f 4 v, m.pages (pteAddr (m.entry f 4 v))) else none

/-- The part of address spaces that is described, and the depth down to which places have frames of their own. -/
structure Extent where
  lim : Nat → Nat
  up : ∀ e k, k < lim (e + 1) → k / 512 < lim e
  root : lim 0 = 1
  depth : Nat
  tables : 3 ≤ depth
  pages : depth ≤ 4

def Extent.places (L : Extent) : Radix.Places 512 := ⟨4, L.lim, L.up⟩

def Extent.In (L : Extent) (e k : Nat) : Prop := e ≤ 4 ∧ k < L.lim e

/-- The lower half, the part of the user, with its pages. -/
def lower : Extent where
  lim e := e.casesOn 1 fun e => 256 * 512 ^ e
  up e k h := by
    cases e with
    | zero => exact Nat.div_lt_of_lt_mul (Nat.lt_trans h (by decide))
    | succ e =>
        refine Nat.div_lt_of_lt_mul (Nat.lt_of_lt_of_eq h ?_)
        dsimp only
        rw [Nat.pow_succ]
        omega
  root := rfl
  depth := 4
  tables := by decide
  pages := Nat.le_refl 4

/-- The tables of the whole space. -/
def whole : Extent where
  lim e := 512 ^ e
  up e k h := Nat.div_lt_of_lt_mul (Nat.lt_of_lt_of_eq h (Nat.pow_succ'))
  root := rfl
  depth := 3
  tables := Nat.le_refl 3
  pages := by decide

/-! ## Uses -/

inductive Use (τ : Type) where
  /-- Used by the kernel since it started. -/
  | kernel
  | free
  /-- In a local variable. -/
  | held
  /-- Nobody has a pointer to it. -/
  | lost
  | node (root depth key : Nat)
  | kept (by_ : τ)

/-- The free list from a pointer on. -/
def Chain (pages : Nat → Bytes) : Option Nat → List Nat → Prop
  | o, [] => o = none
  | o, x :: l => o = some x ∧ Chain pages (ofWord ((pages x).le 0 8)) l

/-- The frames of `l` form the free list. -/
structure FreeList (m : Mem) (l : List Nat) : Prop where
  chain : Chain m.pages m.freeList l
  nodup : l.Nodup
  range : ∀ x ∈ l, m.bumpEnd ≤ pgsize4kb * x ∧ pgsize4kb * x < phyStop ∧ 0 < x

structure Frames {τ : Type} (L : Extent) (O : Nat → Use τ) (m : Mem) : Prop where
  chain : ∃ l, Chain m.pages m.freeList l ∧ l.Nodup ∧ ∀ x, x ∈ l ↔ O x = .free
  tree : ∀ {f e k x : Nat}, O f = .node f 0 0 → L.In e k → e ≤ L.depth → (m.node f e k = some x ↔ O x = .node f e k)
  live : ∀ {x f e k : Nat}, O x = .node f e k → O f = .node f 0 0 ∧ L.In e k ∧ e ≤ L.depth
  small : L.depth = 4 → ∀ {f e k : Nat}, O f = .node f 0 0 → L.In e k → e < 4 → large (m.entry f e k) = false
  /-- Where only tables are described they may lie anywhere. -/
  range : ∀ {x : Nat}, O x ≠ .kernel → (L.depth = 3 → ∀ f e k, O x ≠ .node f e k) →
    m.bumpEnd ≤ pgsize4kb * x ∧ pgsize4kb * x < phyStop ∧ 0 < x

/-- A frame that is none of the free list, of an address space and of the kernel. -/
def Use.Loose {τ : Type} (u : Use τ) : Prop := u ≠ .kernel ∧ u ≠ .free ∧ ∀ f e k, u ≠ .node f e k

/-- The memories agree but for the frames `X` and the free list. -/
structure Same (X : Nat → Prop) (m m' : Mem) : Prop where
  pages : ∀ x, ¬ X x → m'.pages x = m.pages x
  bumpEnd : m'.bumpEnd = m.bumpEnd
  kpml4 : m'.kpml4 = m.kpml4

/-- The frames that a function may change that works on the space `f`. -/
def Mine {τ : Type} (O : Nat → Use τ) (f x : Nat) : Prop := O x = .free ∨ O x = .held ∨ ∃ e k, O x = .node f e k

/-- The effect of a function that works on the space `f`: everything else stays as it is. -/
structure Moved {τ : Type} (L : Extent) (f : Nat) (O : Nat → Use τ) (m : Mem) (O' : Nat → Use τ) (m' : Mem) : Prop where
  frames : Frames L O' m'
  same : Same (Mine O f) m m'
  other : ∀ x, ¬ Mine O f x → O' x = O x
  mine : ∀ x, Mine O f x → Mine O' f x ∨ O' x = .lost

end Xv6.Vm
