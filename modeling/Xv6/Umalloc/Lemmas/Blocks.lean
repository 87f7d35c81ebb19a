import Xv6.Lib.Ring
import Xv6.Umalloc.Malloc

/-!
# Blocks and the list of the free ones
-/

namespace Xv6.Umalloc

open Xv6.Lib

structure Block where
  addr : Nat
  units : Nat

namespace Block

def fin (b : Block) : Nat := b.addr + 16 * b.units

/-- The address is in the block. -/
def Has (b : Block) (a : Nat) : Prop := b.addr ≤ a ∧ a < b.fin

/-- The blocks have no address in common. -/
def Apart (b c : Block) : Prop := ∀ a, b.Has a → ¬ c.Has a

instance : Std.Symm Apart := ⟨fun _ _ h a hc hb => h a hb hc⟩

/-- `b` lies before `c`, and does not touch it. -/
def Before (b c : Block) : Prop := b.fin < c.addr ∧ b.addr + 16 ≤ c.addr

end Block

/-- The address is in one of the blocks. -/
def Covers (l : List Block) (a : Nat) : Prop := ∃ b ∈ l, b.Has a

/-- The static header as a block. -/
def anchor (base : Nat) : Block := ⟨base, 0⟩

/-- Nothing but the header at `a` changes. -/
def OnlyHeader (a : Nat) (m m' : Bytes) : Prop := ∀ x, x < a ∨ a + 16 ≤ x → m' x = m x

variable {base a c v : Nat} {m m' : Bytes} {b d p : Block} {l r fs : List Block}

/-! ## Addresses -/

@[simp] theorem covers_nil : ¬ Covers [] a := by simp [Covers]

@[simp] theorem covers_cons : Covers (b :: l) a ↔ b.Has a ∨ Covers l a := by simp [Covers]

@[simp] theorem covers_append : Covers (l ++ r) a ↔ Covers l a ∨ Covers r a := by
  simp [Covers, or_and_right, exists_or]

@[simp] theorem has_anchor : ¬ (anchor base).Has a := fun h => Nat.not_lt_of_le h.1 h.2

/-- Two blocks without a common address, neither of them empty. -/
theorem Block.Apart.cases (h : b.Apart d) (hb : 0 < b.units) (hd : 0 < d.units) : d.fin ≤ b.addr ∨ b.fin ≤ d.addr := by
  have hfin : b.fin = b.addr + 16 * b.units := rfl
  have hfin' : d.fin = d.addr + 16 * d.units := rfl
  by_contra hc
  by_cases hle : b.addr ≤ d.addr
  · exact h d.addr ⟨hle, by omega⟩ ⟨Nat.le_refl _, by omega⟩
  · exact h b.addr ⟨Nat.le_refl _, by omega⟩ ⟨by omega, by omega⟩

theorem Block.outside (h : ¬ b.Has a) (hb : 0 < b.units) : a < b.addr ∨ b.addr + 16 ≤ a := by
  unfold Block.Has Block.fin at h
  omega

/-! ## Headers -/

theorem nextOf_lt (m : Bytes) (a : Nat) : nextOf m a < 2 ^ 64 := by
  unfold nextOf
  exact m.le_lt a 8

theorem nextOf_congr (h : ∀ x, a ≤ x → x < a + 8 → m' x = m x) : nextOf m' a = nextOf m a := by
  unfold nextOf
  exact Bytes.le_congr fun k hk => h _ (by omega) (by omega)

theorem unitsOf_congr (h : ∀ x, a + 8 ≤ x → x < a + 16 → m' x = m x) : unitsOf m' a = unitsOf m a := by
  unfold unitsOf
  exact Bytes.le_congr fun k hk => h _ (by omega) (by omega)

@[simp] theorem nextOf_ptr (hv : v < 2 ^ 64) : nextOf (m.putLe a 8 v) a = v := by
  unfold nextOf
  exact Bytes.le_putLe_self hv m a

@[simp] theorem unitsOf_size (hv : v < 2 ^ 64) : unitsOf (m.putLe (a + 8) 8 v) a = v := by
  unfold unitsOf
  exact Bytes.le_putLe_self hv m (a + 8)

@[simp] theorem unitsOf_ptr : unitsOf (m.putLe a 8 v) a = unitsOf m a := unitsOf_congr fun x hx _ => if_neg (by omega)

@[simp] theorem nextOf_size : nextOf (m.putLe (a + 8) 8 v) a = nextOf m a :=
  nextOf_congr fun x _ hx => if_neg (by omega)

theorem onlyHeader_ptr (m : Bytes) (a v : Nat) : OnlyHeader a m (m.putLe a 8 v) := fun x hx => if_neg (by omega)

theorem onlyHeader_size (m : Bytes) (a v : Nat) : OnlyHeader a m (m.putLe (a + 8) 8 v) := fun x hx => if_neg (by omega)

namespace OnlyHeader

theorem trans {m₁ : Bytes} (h : OnlyHeader a m m₁) (h' : OnlyHeader a m₁ m') : OnlyHeader a m m' :=
  fun x hx => (h' x hx).trans (h x hx)

theorem nextOf (h : OnlyHeader a m m') (hc : c + 16 ≤ a ∨ a + 16 ≤ c) : nextOf m' c = nextOf m c :=
  nextOf_congr fun x _ _ => h x (by omega)

theorem unitsOf (h : OnlyHeader a m m') (hc : c + 16 ≤ a ∨ a + 16 ≤ c) : unitsOf m' c = unitsOf m c :=
  unitsOf_congr fun x _ _ => h x (by omega)

end OnlyHeader

/-! ## Free blocks -/

/-- The memory holds the list of the blocks `l`, with its links from `a` to `c` and the sizes. -/
structure Linked (m : Bytes) (a : Nat) (l : List Block) (c : Nat) : Prop where
  seg : Seg (nextOf m) a (l.map Block.addr) c
  size : ∀ b ∈ l, unitsOf m b.addr = b.units

theorem linked_split : Linked m a (l ++ b :: r) c ↔ Linked m a l b.addr ∧ unitsOf m b.addr = b.units ∧
    Linked m (nextOf m b.addr) r c := by
  constructor
  · rintro ⟨hseg, hsize⟩
    rw [List.map_append, List.map_cons, seg_split] at hseg
    exact ⟨⟨hseg.1, fun d hd => hsize d (by simp [hd])⟩, hsize b (by simp), hseg.2, fun d hd => hsize d (by simp [hd])⟩
  · rintro ⟨⟨hseg, hsize⟩, hb, hseg', hsize'⟩
    refine ⟨?_, fun d hd => ?_⟩
    · rw [List.map_append, List.map_cons, seg_split]
      exact ⟨hseg, hseg'⟩
    · obtain hd | hd := List.mem_append.mp hd
      · exact hsize d hd
      obtain rfl | hd := List.mem_cons.mp hd
      · exact hb
      · exact hsize' d hd

theorem Linked.append (h : Linked m a l v) (h' : Linked m v r c) : Linked m a (l ++ r) c := by
  refine ⟨?_, fun d hd => ?_⟩
  · rw [List.map_append]
    exact seg_append.mpr ⟨v, h.seg, h'.seg⟩
  · obtain hd | hd := List.mem_append.mp hd
    · exact h.size d hd
    · exact h'.size d hd

theorem linked_cons : Linked m a (b :: r) c ↔ a = b.addr ∧ unitsOf m b.addr = b.units ∧
    Linked m (nextOf m b.addr) r c := by
  have h := linked_split (m := m) (a := a) (l := []) (b := b) (r := r) (c := c)
  rw [List.nil_append] at h
  rw [h]
  exact ⟨fun h => ⟨h.1.seg, h.2⟩, fun h => ⟨⟨h.1, by simp⟩, h.2⟩⟩

/-- The list stays when no header on it changes. -/
theorem Linked.congr (h : Linked m a l c) (hm : ∀ b ∈ l, ∀ x, b.addr ≤ x → x < b.addr + 16 → m' x = m x) :
    Linked m' a l c := by
  refine ⟨h.seg.congr fun x hx => ?_, fun b hb => ?_⟩
  · obtain ⟨b, hb, rfl⟩ := List.mem_map.mp hx
    exact nextOf_congr fun x hx hlt => hm b hb x hx (by omega)
  · rw [← h.size b hb]
    exact unitsOf_congr fun x hx hlt => hm b hb x (by omega) hlt

theorem Linked.only (h : Linked m a l c) (hm : OnlyHeader v m m') (hl : ∀ b ∈ l, b.addr + 16 ≤ v ∨ v + 16 ≤ b.addr) :
    Linked m' a l c := by
  refine h.congr fun b hb x hx hlt => hm x ?_
  have := hl b hb
  omega

/-- The memory holds the list of the free blocks `fs`, which are in order and do not touch each other. -/
structure FreeBlocks (base : Nat) (m : Bytes) (fs : List Block) : Prop where
  linked : Linked m base (anchor base :: fs) base
  order : (anchor base :: fs).Pairwise Block.Before
  units : ∀ b ∈ fs, 0 < b.units
  bound : ∀ b ∈ anchor base :: fs, b.fin < 2 ^ 63

namespace FreeBlocks

theorem ring (h : FreeBlocks base m fs) : Ring (nextOf m) base (fs.map Block.addr) := by
  refine ⟨h.linked.seg, ?_⟩
  have horder : ((anchor base :: fs).map Block.addr).Pairwise (· < ·) := by
    rw [List.pairwise_map]
    exact h.order.imp fun hbc => by
      have := hbc.2
      omega
  exact horder

theorem addr_lt (h : FreeBlocks base m fs) : ∀ x ∈ base :: fs.map Block.addr, x < 2 ^ 64 := by
  intro x hx
  obtain ⟨b, hb, rfl⟩ := List.mem_map.mp (show x ∈ (anchor base :: fs).map Block.addr from hx)
  have := h.bound b hb
  unfold Block.fin at this
  omega

end FreeBlocks

end Xv6.Umalloc
