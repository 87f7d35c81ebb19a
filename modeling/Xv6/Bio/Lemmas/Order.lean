import Mathlib.Data.Fintype.Card
import Xv6.Lib.First
import Xv6.Bio.Cache

/-!
# The least recently used list

The links hold a list of all buffers. The loops of `bget` are searches of that list, so that its
critical section is a function of the list alone.
-/

namespace Xv6.Bio

open Xv6.Lib Xv6.Fs

variable {s s' : Cache} {l : List BufId} {i j : BufId}

/-- The links hold the list `l` of all buffers. -/
structure Ordered (s : Cache) (l : List BufId) : Prop where
  holds : s.links.Holds l
  mem : ∀ i, i ∈ l

/-- The blocks that the buffers stand for. -/
def Cache.blocks (s : Cache) (i : BufId) : Nat × Nat := (s.bufs i).block

@[simp] theorem setBuf_self (s : Cache) (i : BufId) (b : Buf) : (s.setBuf i b).bufs i = b := upd_self _ _ _

theorem setBuf_of_ne (h : j ≠ i) (s : Cache) (b : Buf) : (s.setBuf i b).bufs j = s.bufs j := upd_of_ne h _ _

@[simp] theorem setBuf_setBuf (s : Cache) (i : BufId) (a b : Buf) : (s.setBuf i a).setBuf i b = s.setBuf i b := by
  simp [Cache.setBuf]

theorem blocks_setBuf (s : Cache) (i : BufId) (b : Buf) : (s.setBuf i b).blocks = upd s.blocks i b.block := by
  funext j
  exact map_upd Buf.block s.bufs i b j

/-- A change of a buffer that leaves its block as it is. -/
theorem blocks_setBuf_same (s : Cache) (i : BufId) (b : Buf) (h : b.block = (s.bufs i).block) :
    (s.setBuf i b).blocks = s.blocks := by
  rw [blocks_setBuf, h]
  exact upd_eta s.blocks i

/-- The outcomes of the critical section of `bget`. -/
inductive Looked (s : Cache) (l : List BufId) (dev bno : Nat) : Found → Cache → Prop where
  | hit {i : BufId} (first : First s.blocks l i) (block : s.blocks i = (dev, bno)) :
      Looked s l dev bno (.hit i) (s.setBuf i { s.bufs i with refCount := (s.bufs i).refCount + 1 })
  | claimed {i : BufId} (absent : ∀ j, s.blocks j ≠ (dev, bno)) (unused : (s.bufs i).refCount = 0) :
      Looked s l dev bno (.claimed i) (s.setBuf i { s.bufs i with refCount := 1 })

theorem ordered_init (ramdisk : Nat → Bytes) (n : Nat) :
    Ordered (bcacheInit ramdisk n) (List.finRange nbuf).reverse := by
  have hnodup : (List.finRange nbuf ++ []).Nodup := by
    rw [List.append_nil]
    exact List.nodup_finRange nbuf
  have := Links.holds_empty.foldl_pushFront hnodup
  rw [List.append_nil] at this
  exact ⟨this, fun i => List.mem_reverse.mpr (List.mem_finRange i)⟩

namespace Ordered

theorem keep (h : Ordered s l) (he : s'.links = s.links) : Ordered s' l := ⟨he ▸ h.holds, h.mem⟩

theorem length_lt (h : Ordered s l) : l.length < nbuf + 1 := by
  have := h.holds.nodup.length_le_card
  rw [Fintype.card_fin] at this
  exact Nat.lt_succ_of_le this

theorem scanNext_eq (h : Ordered s l) (p : Buf → Bool) :
    scanNext p s = .ok (l.find? fun i => p (s.bufs i), s) := by
  have := h.holds.find_next (fun i => p (s.bufs i)) h.length_lt
  simp only [scanNext, bind, StateT.bind, Except.bind, get, getThe, MonadStateOf.get, StateT.get, pure,
    Except.pure, this]
  rfl

theorem scanPrev_eq (h : Ordered s l) (p : Buf → Bool) :
    scanPrev p s = .ok (l.reverse.find? fun i => p (s.bufs i), s) := by
  have := h.holds.find_prev (fun i => p (s.bufs i)) h.length_lt
  simp only [scanPrev, bind, StateT.bind, Except.bind, get, getThe, MonadStateOf.get, StateT.get, pure,
    Except.pure, this]
  rfl

/-- The critical section of `bget`: the first buffer for the block, or else the last unused one. -/
theorem lookup_eq (h : Ordered s l) (dev bno : Nat) : lookup dev bno s =
    match l.find? fun i => s.blocks i = (dev, bno) with
    | some i => .ok (.hit i, s.setBuf i { s.bufs i with refCount := (s.bufs i).refCount + 1 })
    | none =>
      match l.reverse.find? fun i => (s.bufs i).refCount = 0 with
      | some i => .ok (.claimed i, s.setBuf i { s.bufs i with refCount := 1 })
      | none => .error (.panic "bget: no buffers available") := by
  unfold lookup
  simp only [bind, StateT.bind, Except.bind, h.scanNext_eq]
  change _ = match l.find? fun i => (s.bufs i).block = (dev, bno) with | some i => _ | none => _
  cases l.find? fun i => (s.bufs i).block = (dev, bno) with
  | some i => rfl
  | none =>
      simp only [StateT.bind, h.scanPrev_eq]
      cases l.reverse.find? fun i => (s.bufs i).refCount = 0 with
      | some i => rfl
      | none => rfl

/-- What the critical section of `bget` does. -/
theorem lookup (h : Ordered s l) (dev bno : Nat) :
    Wp (Bio.lookup dev bno) (Looked s l dev bno) (fun _ => ∀ i, (s.bufs i).refCount ≠ 0) s := by
  unfold Wp
  rw [h.lookup_eq]
  cases hf : l.find? fun i => s.blocks i = (dev, bno) with
  | some i =>
      obtain ⟨hblock, hfirst⟩ := First.of_find hf
      exact .hit hfirst hblock
  | none =>
      have hnone : ∀ j, s.blocks j ≠ (dev, bno) := by
        intro j
        simpa using List.find?_eq_none.mp hf j (h.mem j)
      cases hr : l.reverse.find? fun i => (s.bufs i).refCount = 0 with
      | some i =>
          have hi : (s.bufs i).refCount = 0 := by simpa using List.find?_some hr
          exact .claimed hnone hi
      | none =>
          intro i
          simpa using List.find?_eq_none.mp hr i (List.mem_reverse.mpr (h.mem i))

/-- A buffer moves to the front of the list. -/
theorem toFront (h : Ordered s l) (i : BufId) (he : s'.links = (s.links.unlink i).pushFront i) :
    Ordered s' (i :: l.erase i) := by
  constructor
  · rw [he]
    exact (h.holds.unlink (h.mem i)).pushFront h.holds.nodup.not_mem_erase
  · intro j
    by_cases hj : j = i
    · simp [hj]
    · exact List.mem_cons_of_mem i ((List.mem_erase_of_ne hj).mpr (h.mem j))

end Ordered

end Xv6.Bio
