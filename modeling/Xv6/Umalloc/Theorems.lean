import Xv6.Umalloc.Calls
import Xv6.Umalloc.Lemmas.Malloc

/-!
# The allocator: theorems

In every run in which `malloc` is asked for a size that can be rounded up, and asks the kernel for less than `2 ^ 31`
bytes, the free blocks and the blocks in use divide the memory of the heap, and the loops end. For larger sizes the
argument of `sbrk` does not fit its type, and `malloc` returns blocks that end behind the memory of the process.
-/

namespace Xv6.Umalloc

open Xv6.Lib Xv6.Vm

variable {base start a n q : Nat} {m : Bytes} {v : UInt8} {b : Block} {x : Live} {live : List Live}
  {fs us : List Block} {s s' : State} {heap : Heap}

/-! ## The blocks in use -/

/-- The block of a pointer that `malloc` returned. -/
def Live.block (m : Bytes) (x : Live) : Block := ⟨x.ptr - 16, unitsOf m (x.ptr - 16)⟩

/-- The pointer is behind the header of its block, and the block has the bytes that were asked for. -/
def Live.Right (m : Bytes) (x : Live) : Prop := x.ptr = (x.block m).addr + 16 ∧ x.ptr + x.n ≤ (x.block m).fin

def State.blocks (s : State) : List Block := s.live.map (Live.block s.heap.mem)

/-- The state between two calls. -/
structure Inv (base start : Nat) (s : State) : Prop where
  ready : Ready base start s.heap s.blocks
  right : ∀ x ∈ s.live, x.Right s.heap.mem

/-- The sizes of the blocks in use are still those in memory. -/
theorem Blocks.block_eq (h : Blocks base start heap fs us) (hx : x.block m ∈ us) : x.block heap.mem = x.block m := by
  have hsize := h.size _ hx
  unfold Live.block at hsize ⊢
  rw [hsize]

theorem Blocks.map_block (h : Blocks base start heap fs us) (hl : ∀ x ∈ live, x.block m ∈ us) :
    live.map (Live.block heap.mem) = live.map (Live.block m) :=
  List.map_congr_left fun x hx => h.block_eq (hl x hx)

/-- The same pointers, with the blocks `us` of another memory. -/
theorem Blocks.inv (h : Blocks base start heap fs (live.map (Live.block m))) (hr : ∀ x ∈ live, x.Right m) :
    Inv base start ⟨heap, live⟩ := by
  have hmem : ∀ x ∈ live, x.block m ∈ live.map (Live.block m) := fun x hx => List.mem_map_of_mem hx
  refine ⟨Or.inr ⟨fs, ?_⟩, fun x hx => ?_⟩
  · show Blocks base start heap fs (live.map (Live.block heap.mem))
    rw [h.map_block hmem]
    exact h
  · unfold Live.Right
    rw [h.block_eq (hmem x hx)]
    exact hr x hx

/-! ## The actions -/

/-- `malloc(n)` can round `n` up, and asks the kernel for less than `2 ^ 31` bytes if it has to. -/
def Asks (base : Nat) (s : State) : Action → Prop
  | .malloc n => n + 15 < 2 ^ 64 ∧ (16 * max (unitsFor n) 4096 < 2 ^ 31 ∨ HasRoom base s.heap (unitsFor n))
  | _ => True

theorem unitsFor_eq (h : n + 15 < 2 ^ 64) : unitsFor n = (n + 15) / 16 + 1 := by
  have hmod : (n + headerSize - 1) % 2 ^ 64 = n + 15 := Nat.mod_eq_of_lt h
  unfold unitsFor
  rw [hmod]

/-- The new block of `malloc(n)`. -/
theorem Blocks.block_new (h : Blocks base start heap fs (b :: us)) (n : Nat) :
    (Live.mk (b.addr + 16) n).block heap.mem = b := by
  have hsize := h.size b List.mem_cons_self
  unfold Live.block
  rw [Nat.add_sub_cancel, hsize]

theorem Inv.malloc (h : Inv base start s) (hn : n + 15 < 2 ^ 64)
    (hret : Returned base start (unitsFor n) s.blocks q heap) :
    Inv base start ⟨heap, if q = 0 then s.live else ⟨q, n⟩ :: s.live⟩ := by
  obtain ⟨rfl, fs, hb⟩ | ⟨b, fs, rfl, hunits, hb⟩ := hret
  · exact hb.inv h.right
  · rw [if_neg (by omega)]
    have hnew := hb.block_new n
    have hold : s.live.map (Live.block heap.mem) = s.blocks :=
      hb.map_block fun x hx => List.mem_cons_of_mem _ (List.mem_map_of_mem hx)
    have hb' : Blocks base start heap fs ((Live.mk (b.addr + 16) n :: s.live).map (Live.block heap.mem)) := by
      rw [List.map_cons, hnew, hold]
      exact hb
    refine hb'.inv fun x hx => ?_
    obtain rfl | hx := List.mem_cons.mp hx
    · unfold Live.Right
      rw [hnew, Block.fin, hunits, unitsFor_eq hn]
      exact ⟨rfl, by simp only; omega⟩
    · unfold Live.Right
      rw [hb.block_eq (m := s.heap.mem) (List.mem_cons_of_mem _ (List.mem_map_of_mem hx))]
      exact h.right x hx

/-- The first `malloc` makes the list, so there is one when there is something to give back. -/
theorem Inv.blocks (h : Inv base start s) (hx : x ∈ s.live) : ∃ fs, Blocks base start s.heap fs s.blocks := by
  obtain ⟨-, -, hnil⟩ | hb := h.ready
  · rw [State.blocks, List.map_eq_nil_iff] at hnil
    rw [hnil] at hx
    cases hx
  · exact hb

theorem Inv.free (h : Inv base start s) (hx : x ∈ s.live) :
    Wp (free x.ptr) (fun _ heap => Inv base start ⟨heap, s.live.eraseP fun y => y.ptr = x.ptr⟩)
      (fun _ => False) s.heap := by
  obtain ⟨fs, hb⟩ := h.blocks hx
  obtain ⟨y, l₁, l₂, -, hy, hlive, herase⟩ := List.exists_of_eraseP (p := fun y => y.ptr = x.ptr) hx (by simp)
  have hmem : y ∈ s.live := by simp [hlive]
  have hperm : s.blocks.Perm (y.block s.heap.mem :: (l₁ ++ l₂).map (Live.block s.heap.mem)) := by
    rw [State.blocks, hlive, ← List.map_cons]
    exact List.perm_middle.map _
  rw [herase, ← of_decide_eq_true hy, (h.right y hmem).1]
  refine (hb.perm hperm).free_spec.post ?_
  rintro _ heap ⟨fs', hb', -⟩
  exact hb'.inv fun z hz => h.right z (List.mem_of_mem_eraseP (herase ▸ hz))

/-- The program stores into no header. -/
theorem Inv.outside (h : Inv base start s) (hb : Blocks base start s.heap fs s.blocks) (ha : Writable base start s a)
    (hc : b ∈ anchor base :: (fs ++ s.blocks)) : a < b.addr ∨ b.addr + 16 ≤ a := by
  have habove := hb.above
  obtain ⟨x, hx, hlow, hhigh⟩ | ⟨hlow, hhead⟩ := ha
  · have hxmem : x.block s.heap.mem ∈ s.blocks := List.mem_map_of_mem hx
    obtain ⟨haddr, hfin⟩ := h.right x hx
    have hhas : (x.block s.heap.mem).Has a := ⟨by omega, by omega⟩
    have hbounds := hb.bounds (Or.inr hxmem)
    obtain rfl | hc := List.mem_cons.mp hc
    · exact Or.inr (show base + 16 ≤ a by omega)
    obtain hc | hc := List.mem_append.mp hc
    · exact Block.outside (fun hca => hb.disjoint a ⟨_, hxmem, hhas⟩ ⟨b, hc, hca⟩) (hb.list.units b hc)
    · by_cases heq : x.block s.heap.mem = b
      · rw [← heq]
        exact Or.inr (by omega)
      · have hne := hb.apart.forall hxmem hc heq
        exact Block.outside (hne a hhas) (hb.units b hc)
  · obtain rfl | hc := List.mem_cons.mp hc
    · exact hhead
    · have := hb.bounds (List.mem_append.mp hc)
      exact Or.inl (by omega)

theorem Inv.store (h : Inv base start s) (ha : Writable base start s a) :
    Inv base start { s with heap.mem := fun x => if x = a then v else s.heap.mem x } := by
  obtain ⟨hzero, hsz, hnil⟩ | ⟨fs, hb⟩ := h.ready
  · have hlive : s.live = [] := List.map_eq_nil_iff.mp hnil
    refine ⟨Or.inl ⟨hzero, hsz, ?_⟩, fun x hx => ?_⟩
    · simp [State.blocks, hlive]
    · simp [hlive] at hx
  · refine (hb.congr fun b hc x hx hlt => if_neg ?_).inv h.right
    have := h.outside hb ha hc
    omega

/-! ## Runs -/

/-- The list of the free blocks `fs` goes around through the header `base`, in the order of the addresses and with
something between any two of them. The free blocks and the blocks in use divide what `sbrk` gave, and each pointer has
its bytes. -/
structure Divided (base start : Nat) (s : State) (fs : List Block) : Prop where
  list : FreeBlocks base s.heap.mem fs
  here : s.heap.freeP ∈ base :: fs.map Block.addr
  apart : (fs ++ s.blocks).Pairwise Block.Apart
  exact : ∀ a, Covers (fs ++ s.blocks) a ↔ start ≤ a ∧ a < s.heap.sz
  right : ∀ x ∈ s.live, x.Right s.heap.mem

theorem FreeBlocks.apart (h : FreeBlocks base m fs) : fs.Pairwise Block.Apart :=
  (List.pairwise_cons.mp h.order).2.imp Block.Before.apart

theorem Inv.divided (h : Inv base start s) (hb : Blocks base start s.heap fs s.blocks) : Divided base start s fs where
  list := hb.list
  here := hb.here
  apart := List.pairwise_append.mpr
    ⟨hb.list.apart, hb.apart, fun b hf c hu a hba hca => hb.disjoint a ⟨c, hu, hca⟩ ⟨b, hf, hba⟩⟩
  exact a := covers_append.trans (hb.exact a)
  right := h.right

section Runs

variable (hbase : 0 < base) (habove : base + 16 ≤ start) (htop : start < userTop)

include hbase habove htop

theorem Inv.malloc_returns (h : Inv base start s) (ha : Asks base s (.malloc n)) :
    ∃ q heap, Umalloc.malloc base n s.heap = .ok (q, heap) ∧ Returned base start (unitsFor n) s.blocks q heap :=
  (malloc_spec h.ready hbase habove htop ha.2).returns

theorem Inv.step (h : Inv base start s) {act : Action} (ha : Asks base s act) (hs : step base start s act = some s') :
    Inv base start s' := by
  cases act with
  | malloc n =>
      obtain ⟨q, heap, hx, hret⟩ := h.malloc_returns hbase habove htop ha
      simp only [Umalloc.step, hx, Option.some.injEq] at hs
      rw [← hs]
      exact h.malloc ha.1 hret
  | free p =>
      simp only [Umalloc.step] at hs
      split at hs
      · rename_i hp
        obtain ⟨x, hx, rfl⟩ := hp
        obtain ⟨_, heap, hfree, hinv⟩ := (h.free hx).returns
        simp only [hfree, Option.some.injEq] at hs
        rw [← hs]
        exact hinv
      · cases hs
  | store a v =>
      simp only [Umalloc.step, Option.ite_none_right_eq_some, Option.some.injEq] at hs
      rw [← hs.2]
      exact h.store hs.1

theorem inv (h : (machine base start).ReachableIf (Asks base) s) : Inv base start s := by
  refine h.invariant (fun s hs => ⟨Or.inl ⟨hs.1, hs.2.1, ?_⟩, fun x hx => ?_⟩) fun s act s' _ hinv ha hs =>
    hinv.step hbase habove htop ha hs
  · simp [State.blocks, hs.2.2]
  · simp [hs.2.2] at hx

/-- Until the first `malloc` there is no heap; then it is divided into free blocks and blocks in use. `malloc` and
`free` end, and what `malloc` returns is no address or one behind which there is what was asked for and nothing of
another block. -/
theorem heap_divided (h : (machine base start).ReachableIf (Asks base) s) :
    (Starts start s ∨ ∃ fs, Divided base start s fs) ∧
    (∀ n, Asks base s (.malloc n) → ∃ q heap, malloc base n s.heap = .ok (q, heap) ∧
      (q ≠ 0 → (Live.mk q n).Right heap.mem ∧ ∀ b ∈ s.blocks, ((Live.mk q n).block heap.mem).Apart b)) ∧
    ∀ x ∈ s.live, ∃ heap, free x.ptr s.heap = .ok ((), heap) := by
  have hinv := inv hbase habove htop h
  refine ⟨?_, fun n ha => ?_, fun x hx => ?_⟩
  · obtain ⟨hzero, hsz, hnil⟩ | ⟨fs, hb⟩ := hinv.ready
    · exact Or.inl ⟨hzero, hsz, List.map_eq_nil_iff.mp hnil⟩
    · exact Or.inr ⟨fs, hinv.divided hb⟩
  · obtain ⟨q, heap, hq, hret⟩ := hinv.malloc_returns hbase habove htop ha
    refine ⟨q, heap, hq, fun hne => ?_⟩
    have hnext := hinv.malloc ha.1 hret
    rw [if_neg hne] at hnext
    refine ⟨hnext.right _ List.mem_cons_self, ?_⟩
    obtain ⟨rfl, -⟩ | ⟨b, fs, rfl, -, hb⟩ := hret
    · exact absurd rfl hne
    · rw [hb.block_new n]
      exact (List.pairwise_cons.mp hb.apart).1
  · obtain ⟨_, heap, hfree, -⟩ := (hinv.free hx).returns
    exact ⟨heap, hfree⟩

end Runs

/-- A process that has 8192 bytes and may have more once, with the header at 4096. -/
def smallHeap : State := ⟨⟨fun _ => 0, 0, 8192, [true]⟩, []⟩

theorem starts_smallHeap {C : State → Action → Prop} : (machine 4096 8192).ReachableIf C smallHeap :=
  .start ⟨rfl, rfl, rfl⟩

/-- Two blocks, of which the first is used and given back. -/
def twoBlocks : List Action := [.malloc 10, .malloc 100, .store 73712 7, .free 73712]

/-- The actions of which it is easy to see that `malloc` does not ask for too much. -/
def asksLittle (_ : State) : Action → Bool
  | .malloc n => n < 2 ^ 20
  | _ => true

theorem asks_of_little (s : State) (act : Action) (h : asksLittle s act = true) : Asks base s act := by
  cases act with
  | malloc n =>
      have hn : n < 2 ^ 20 := of_decide_eq_true h
      refine ⟨by omega, Or.inl ?_⟩
      rw [unitsFor_eq (by omega)]
      omega
  | free p => trivial
  | store a v => trivial

theorem heap_divided_two : ∃ s fs, s.live.map Live.ptr = [73584] ∧ Divided 4096 8192 s fs := by
  obtain ⟨s, hs, hp⟩ := starts_smallHeap.of_run asks_of_little (P := fun s => s.live.map Live.ptr = [73584])
    (l := twoBlocks) (by decide +kernel)
  have hlive := of_decide_eq_true hp
  obtain ⟨-, -, hnil⟩ | ⟨fs, hd⟩ := (heap_divided (by decide) (by decide) (by decide) hs).1
  · rw [hnil] at hlive
    cases hlive
  · exact ⟨s, fs, hlive, hd⟩

/-- `nbytes + sizeof(struct header) - 1` wraps for the largest sizes: `malloc(2^64-1)` returns a block that has no byte
behind the header, although it asks the kernel for no more than 65536 bytes. -/
theorem malloc_wraps : ∃ s, (machine 4096 8192).Reachable s ∧ s.heap.sz = 8192 + 65536 ∧
    ∃ x ∈ s.live, x.n = 2 ^ 64 - 1 ∧ (x.block s.heap.mem).units = 1 := by
  obtain ⟨s, hs, hp⟩ := Machine.Reachable.of_run starts_smallHeap (l := [.malloc (2 ^ 64 - 1)])
    (P := fun s => s.heap.sz = 8192 + 65536 ∧ ∃ x ∈ s.live, x.n = 2 ^ 64 - 1 ∧ (x.block s.heap.mem).units = 1)
      (by decide +kernel)
  exact ⟨s, hs, of_decide_eq_true hp⟩

/-! ## Sizes -/

end Xv6.Umalloc
