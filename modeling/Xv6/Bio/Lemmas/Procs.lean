import Xv6.Lib.Refs
import Xv6.Bio.Lemmas.Order
import Xv6.Bio.Procs

/-!
# Buffer identity among processes

A claimed buffer still stands for its old block. Everything is in order in the runs in which no process
looks a block up meanwhile, and in which the block that all buffers stand for at the start is not in use then.
-/

namespace Xv6.Bio

open Xv6.Lib Xv6.Fs

/-! ## What the pieces leave alone -/

/-- The list, the blocks of the buffers and the reference counts are as before. -/
structure Quiet (s s' : Cache) : Prop where
  links : s'.links = s.links
  blocks : s'.blocks = s.blocks
  refCount : ∀ i, (s'.bufs i).refCount = (s.bufs i).refCount

namespace Quiet

variable {s s' t : Cache} {i : BufId}

theorem refl (s : Cache) : Quiet s s := ⟨rfl, rfl, fun _ => rfl⟩

/-- A buffer changes, but not its block or its reference count. -/
theorem setBuf (hl : s'.links = s.links) {b : Buf} (hs : s'.bufs = upd s.bufs i b)
    (hb : b.block = (s.bufs i).block) (hr : b.refCount = (s.bufs i).refCount) : Quiet s s' := by
  refine ⟨hl, ?_, ?_⟩
  · funext j
    rw [Cache.blocks, hs]
    exact congrFun (blocks_setBuf_same s i b hb) j
  · intro j
    rw [hs]
    exact forall_upd (P := fun j (b : Buf) => b.refCount = (s.bufs j).refCount) hr (fun _ _ => rfl) j

end Quiet

section

variable {s : Cache} {i : BufId}

theorem rdRw_quiet : Wp (rdRw i) (fun _ s' => Quiet s s') (fun _ => True) s := by
  simp only [rdRw, wp_bind, wp_get, wp_panicIf, wp_ite, wp_set]
  exact ⟨fun _ => trivial, fun _ => ⟨fun _ => trivial, fun _ => ⟨fun _ => trivial, fun _ =>
    ⟨fun _ => .setBuf rfl rfl rfl rfl, fun _ => .setBuf rfl rfl rfl rfl⟩⟩⟩⟩

theorem acquireSleep_quiet : Wp (acquireSleep i) (fun _ s' => Quiet s s') (fun _ => True) s := by
  simp only [acquireSleep, setBuf, wp_bind, wp_get, wp_ite, wp_throw, wp_modify]
  exact ⟨fun _ => trivial, fun _ => .setBuf rfl rfl rfl rfl⟩

theorem fill_quiet : Wp (fill i) (fun _ s' => Quiet s s') (fun _ => True) s := by
  simp only [fill, wp_bind, wp_get, wp_ite, wp_pure]
  exact ⟨fun _ => rdRw_quiet, fun _ => .refl s⟩

theorem write_quiet {data : Bytes} :
    Wp (do setBuf i fun b => { b with data := data }
           bwrite i) (fun _ s' => Quiet s s') (fun _ => True) s := by
  simp only [setBuf, bwrite, wp_bind, wp_modify, wp_get, wp_panicIf, setBuf_setBuf, setBuf_self]
  exact ⟨fun _ => trivial, fun _ => .setBuf rfl rfl rfl rfl⟩

theorem unlock_quiet : Wp (unlock i) (fun _ s' => Quiet s s') (fun _ => True) s := by
  simp only [unlock, releaseSleep, setBuf, wp_bind, wp_modify, wp_get, wp_panicIf]
  exact ⟨fun _ => trivial, fun _ => .setBuf rfl rfl rfl rfl⟩

/-- A claimed buffer gets its new block. -/
theorem recycle_blocks {dev bno : Nat} :
    Wp (recycle dev bno i) (fun _ s' => s'.links = s.links ∧ s'.blocks = upd s.blocks i (dev, bno) ∧
      ∀ j, (s'.bufs j).refCount = (s.bufs j).refCount) (fun _ => True) s := by
  have hset : ∀ t, Quiet s t → ∀ b : Buf, b.block = (dev, bno) → b.refCount = (t.bufs i).refCount →
      (t.setBuf i b).links = s.links ∧ (t.setBuf i b).blocks = upd s.blocks i (dev, bno) ∧
      ∀ j, ((t.setBuf i b).bufs j).refCount = (s.bufs j).refCount := by
    intro t hq b hb hr
    refine ⟨hq.links, by rw [blocks_setBuf, hq.blocks, hb], ?_⟩
    exact forall_upd (P := fun j (b : Buf) => b.refCount = (s.bufs j).refCount) (hr.trans (hq.refCount i))
      fun j _ => hq.refCount j
  simp only [recycle, setBuf, wp_bind, wp_get, wp_ite, wp_modify]
  refine ⟨fun _ => ?_, fun _ => hset s (.refl s) _ rfl rfl⟩
  exact rdRw_quiet.post fun _ t hq => hset t hq _ rfl rfl

/-- A reference is given back, and an unused buffer moves to the front of the list. -/
theorem unref_blocks :
    Wp (unref i) (fun _ s' => s'.blocks = s.blocks ∧
      (∀ j, (s'.bufs j).refCount = if j = i then (s.bufs i).refCount - 1 else (s.bufs j).refCount) ∧
      s'.links = if (s.bufs i).refCount - 1 = 0 then (s.links.unlink i).pushFront i else s.links)
      (fun _ => True) s := by
  have hblocks := blocks_setBuf_same s i { s.bufs i with refCount := (s.bufs i).refCount - 1 } rfl
  have hrefs : ∀ j, ((s.setBuf i { s.bufs i with refCount := (s.bufs i).refCount - 1 }).bufs j).refCount =
      if j = i then (s.bufs i).refCount - 1 else (s.bufs j).refCount := by
    intro j
    by_cases hj : j = i
    · rw [hj, setBuf_self, if_pos rfl]
    · rw [setBuf_of_ne hj, if_neg hj]
  simp only [unref, setBuf, wp_bind, wp_get, wp_ite, wp_modify, wp_set, wp_pure, setBuf_self]
  refine ⟨fun h0 => ⟨hblocks, hrefs, by rw [if_pos h0]; rfl⟩, fun h0 => ⟨hblocks, hrefs, by rw [if_neg h0]; rfl⟩⟩

end

/-! ## The invariant -/

/-- The claimed buffer of a process that has not given it to its new block yet. -/
def Pc.claim : Pc → Option Handle
  | .waiting (.claimed i) dev bno => some ⟨i, dev, bno⟩
  | .recycling i dev bno => some ⟨i, dev, bno⟩
  | _ => none

/-- The buffer that the process is about to be given. -/
def Pc.asked : Pc → List Handle
  | .waiting (.hit i) dev bno => [⟨i, dev, bno⟩]
  | .filling i dev bno => [⟨i, dev, bno⟩]
  | _ => []

/-- The buffer that the process has counted a reference to, on its way in or out. -/
def Pc.refs : Pc → List BufId
  | .idle => []
  | .waiting f _ _ => [f.buf]
  | .recycling i _ _ => [i]
  | .filling i _ _ => [i]
  | .releasing i => [i]

namespace Procs

variable {ι : Type} {s s' : Procs ι} {p q : ι} {l : List BufId} {users : BufId → List ι} {c : Cache}

/-- The references of a process. -/
def uses (s : Procs ι) (p : ι) : List BufId := (s.pc p).refs ++ (s.got p).map Handle.buf

/-- The block that all buffers stand for after `bcache_init`. -/
def startBlock : Nat × Nat := (0, 0)

/-- The order of the buffers, their users, and what they stand for; only buffers that were never given to a block
can stand for the same one. -/
structure Identity [DecidableEq ι] (s : Procs ι) (l : List BufId) (users : BufId → List ι) : Prop where
  ordered : Ordered s.cache l
  count : ∀ i, (s.cache.bufs i).refCount = (users i).length
  users : UsedBy users s.uses
  first : ∀ i, 0 < (s.cache.bufs i).refCount → (∀ p h, (s.pc p).claim = some h → h.buf ≠ i) → First s.cache.blocks l i
  single : ∀ p q h k, (s.pc p).claim = some h → (s.pc q).claim = some k → p = q
  alone : ∀ p h, (s.pc p).claim = some h → (s.cache.bufs h.buf).refCount = 1 ∧
    (∀ j, j ≠ h.buf → 0 < (s.cache.bufs j).refCount → s.cache.blocks j ≠ s.cache.blocks h.buf) ∧
    ∀ j, s.cache.blocks j ≠ (h.dev, h.bno)
  asked : ∀ p, ∀ h ∈ (s.pc p).asked ++ s.got p, s.cache.blocks h.buf = (h.dev, h.bno)
  unique : ∀ i j, s.cache.blocks i = s.cache.blocks j → i = j ∨ s.cache.blocks i = startBlock

theorem claim_refs {pc : Pc} {h : Handle} (hc : pc.claim = some h) : pc.refs = [h.buf] := by
  cases pc with
  | waiting f dev bno =>
      cases f with
      | hit i => cases hc
      | claimed i =>
          cases hc
          rfl
  | recycling i dev bno =>
      cases hc
      rfl
  | _ => cases hc

theorem asked_uses {h : Handle} (hh : h ∈ (s.pc p).asked ++ s.got p) : h.buf ∈ s.uses p := by
  unfold uses
  cases List.mem_append.mp hh with
  | inl ha =>
      refine List.mem_append_left _ ?_
      cases hpc : s.pc p with
      | waiting f dev bno =>
          rw [hpc] at ha
          cases f with
          | hit i =>
              rw [List.mem_singleton.mp ha]
              exact List.mem_singleton_self _
          | claimed i => cases ha
      | filling i dev bno =>
          rw [hpc] at ha
          rw [List.mem_singleton.mp ha]
          exact List.mem_singleton_self _
      | _ =>
          rw [hpc] at ha
          cases ha
  | inr hg => exact List.mem_append_right _ (List.mem_map_of_mem hg)

variable [DecidableEq ι]

namespace Identity

theorem init {ramdisk : Nat → Bytes} {n : Nat} :
    Identity (⟨bcacheInit ramdisk n, fun _ => .idle, fun _ => []⟩ : Procs ι)
      (List.finRange nbuf).reverse fun _ => [] where
  ordered := ordered_init ramdisk n
  count _ := rfl
  users _ _ := rfl
  first _ h := by cases h
  single _ _ _ _ h := by cases h
  alone _ _ h := by cases h
  asked _ _ h := by cases h
  unique _ _ _ := Or.inr rfl

/-- A used buffer has a positive reference count. -/
theorem used (h : Identity s l users) {i : BufId} (hi : i ∈ s.uses p) : 0 < (s.cache.bufs i).refCount := by
  rw [h.count]
  exact List.length_pos_of_mem (h.users.mem_iff.mpr hi)

/-- Only the process that has claimed a buffer uses it, and it does so once. -/
theorem claimed_uses (h : Identity s l users) {k : Handle} (hk : (s.pc p).claim = some k) :
    (s.uses p).count k.buf = 1 ∧ ∀ q, q ≠ p → k.buf ∉ s.uses q := by
  refine h.users.single ((h.count k.buf).symm.trans (h.alone p k hk).1) ?_
  simp [uses, claim_refs hk]

/-- A process that has claimed a buffer has not been given it. -/
theorem claimed_asked (h : Identity s l users) {k g : Handle} (hk : (s.pc p).claim = some k)
    (hg : g ∈ (s.pc q).asked ++ s.got q) : g.buf ≠ k.buf := by
  intro he
  by_cases hq : q = p
  · subst hq
    have hcount := (h.claimed_uses hk).1
    have hasked : (s.pc q).asked = [] := by
      cases hpc : s.pc q with
      | waiting f dev bno =>
          cases f with
          | hit i =>
              rw [hpc] at hk
              cases hk
          | claimed i => rfl
      | filling i dev bno =>
          rw [hpc] at hk
          cases hk
      | _ => rfl
    rw [hasked, List.nil_append] at hg
    have hmem : k.buf ∈ (s.got q).map Handle.buf := he ▸ List.mem_map_of_mem hg
    have hpos := List.count_pos_iff.mpr hmem
    rw [uses, claim_refs hk, List.count_append, List.count_singleton_self] at hcount
    omega
  · exact (h.claimed_uses hk).2 q hq (he ▸ asked_uses hg)

/-- Two buffers in use do not stand for one block. -/
theorem distinct (h : Identity s l users) {i j : BufId} (hi : 0 < (s.cache.bufs i).refCount)
    (hj : 0 < (s.cache.bufs j).refCount) (he : s.cache.blocks i = s.cache.blocks j) : i = j := by
  by_cases hci : ∃ p k, (s.pc p).claim = some k ∧ k.buf = i
  · obtain ⟨p, k, hk, rfl⟩ := hci
    by_contra hne
    exact (h.alone p k hk).2.1 j (Ne.symm hne) hj he.symm
  · by_cases hcj : ∃ p k, (s.pc p).claim = some k ∧ k.buf = j
    · obtain ⟨p, k, hk, rfl⟩ := hcj
      by_contra hne
      exact (h.alone p k hk).2.1 i hne hi he
    · refine (h.first i hi ?_).unique (h.first j hj ?_) he
      · exact fun p k hk hki => hci ⟨p, k, hk, hki⟩
      · exact fun p k hk hkj => hcj ⟨p, k, hk, hkj⟩

/-! ## Steps -/

/-- The process `p` moves on; the list, the blocks and the reference counts stay. -/
theorem quiet (h : Identity s l users) (hq : Quiet s.cache s'.cache) (hpc : ∀ q, q ≠ p → s'.pc q = s.pc q)
    (hgot : ∀ q, q ≠ p → s'.got q = s.got q) (hclaim : (s'.pc p).claim = (s.pc p).claim)
    (huses : (s'.uses p).Perm (s.uses p)) (hasked : (s'.pc p).asked ++ s'.got p ⊆ (s.pc p).asked ++ s.got p) :
    Identity s' l users := by
  have hclaims : ∀ q, (s'.pc q).claim = (s.pc q).claim := by
    intro q
    by_cases hqp : q = p
    · rw [hqp, hclaim]
    · rw [hpc q hqp]
  constructor
  · exact h.ordered.keep hq.links
  · intro i
    rw [hq.refCount, h.count]
  · refine h.users.keep fun q => ?_
    by_cases hqp : q = p
    · rw [hqp]
      exact huses
    · rw [uses, uses, hpc q hqp, hgot q hqp]
  · intro i hi hn
    rw [hq.refCount] at hi
    rw [hq.blocks]
    exact h.first i hi fun q k hk => hn q k ((hclaims q).trans hk)
  · intro a b k k' ha hb
    rw [hclaims] at ha hb
    exact h.single a b k k' ha hb
  · intro q k hk
    rw [hclaims] at hk
    simp only [hq.refCount, hq.blocks]
    exact h.alone q k hk
  · intro q k hk
    rw [hq.blocks]
    refine h.asked q k ?_
    by_cases hqp : q = p
    · subst hqp
      exact hasked hk
    · rwa [hpc q hqp, hgot q hqp] at hk
  · rw [hq.blocks]
    exact h.unique

/-- The process `p` goes on with the same buffer. -/
theorem moves (h : Identity s l users) {pc : Pc} (hq : Quiet s.cache c) (hclaim : pc.claim = (s.pc p).claim)
    (hrefs : pc.refs = (s.pc p).refs) (hasked : pc.asked = (s.pc p).asked) :
    Identity { s with cache := c, pc := upd s.pc p pc } l users := by
  refine h.quiet (p := p) hq (fun q hq => upd_of_ne hq _ _) (fun _ _ => rfl) ?_ ?_ ?_
  · simp only [upd_self, hclaim]
  · simp only [uses, upd_self, hrefs]
    exact .refl _
  · simp only [upd_self, hasked]
    exact List.Subset.refl _

/-- The references after the process `p` has looked up the buffer `i`. -/
theorem looked_users (h : Identity s l users) (hidle : s.pc p = .idle) (f : Found) (dev bno : Nat) (c : Cache) :
    UsedBy (upd users f.buf (p :: users f.buf))
      (uses { s with cache := c, pc := upd s.pc p (.waiting f dev bno) }) := by
  refine h.users.add (a := p) ?_ ?_
  · simp [uses, hidle, Pc.refs]
  · intro q hq
    simp [uses, hq]

/-- A process finds its block in a buffer. -/
theorem hit (h : Identity s l users) (hidle : s.pc p = .idle) (hno : ∀ q, (s.pc q).claim = none) {i : BufId}
    {dev bno : Nat} (hfirst : First s.cache.blocks l i) (hblock : s.cache.blocks i = (dev, bno)) :
    Identity { s with
      cache := s.cache.setBuf i { s.cache.bufs i with refCount := (s.cache.bufs i).refCount + 1 }
      pc := upd s.pc p (.waiting (.hit i) dev bno) } l (upd users i (p :: users i)) := by
  have hblocks := blocks_setBuf_same s.cache i { s.cache.bufs i with refCount := (s.cache.bufs i).refCount + 1 } rfl
  have hclaims : ∀ q, (upd s.pc p (.waiting (.hit i) dev bno) q).claim = none :=
    forall_upd (P := fun _ (pc : Pc) => pc.claim = none) rfl fun q _ => hno q
  constructor
  · exact h.ordered.keep rfl
  · intro j
    by_cases hj : j = i
    · subst hj
      simp [h.count]
    · simp only [setBuf_of_ne hj, upd_of_ne hj]
      exact h.count j
  · exact h.looked_users hidle (.hit i) dev bno _
  · intro j hj _
    simp only [hblocks]
    by_cases hji : j = i
    · rwa [hji]
    · rw [setBuf_of_ne hji] at hj
      refine h.first j hj fun q k hk => ?_
      rw [hno q] at hk
      cases hk
  · intro a b k k' ha
    rw [hclaims a] at ha
    cases ha
  · intro q k hk
    rw [hclaims q] at hk
    cases hk
  · intro q k hk
    simp only [hblocks]
    by_cases hq : q = p
    · subst hq
      simp only [upd_self] at hk
      cases List.mem_append.mp hk with
      | inl ha =>
          rw [List.mem_singleton.mp ha]
          exact hblock
      | inr hg => exact h.asked q k (List.mem_append_right _ hg)
    · simp only [upd_of_ne hq] at hk
      exact h.asked q k hk
  · simp only [hblocks]
    exact h.unique

/-- A process claims an unused buffer. -/
theorem claim (h : Identity s l users) (hidle : s.pc p = .idle) (hno : ∀ q, (s.pc q).claim = none) {i : BufId}
    {dev bno : Nat} (habsent : ∀ j, s.cache.blocks j ≠ (dev, bno)) (hunused : (s.cache.bufs i).refCount = 0)
    (hold : ∀ j, j ≠ i → 0 < (s.cache.bufs j).refCount → s.cache.blocks j ≠ s.cache.blocks i) :
    Identity { s with
      cache := s.cache.setBuf i { s.cache.bufs i with refCount := 1 }
      pc := upd s.pc p (.waiting (.claimed i) dev bno) } l (upd users i (p :: users i)) := by
  have hblocks := blocks_setBuf_same s.cache i { s.cache.bufs i with refCount := 1 } rfl
  have hclaim : ∀ {q k}, (upd s.pc p (.waiting (.claimed i) dev bno) q).claim = some k → q = p ∧ k = ⟨i, dev, bno⟩ := by
    intro q k hk
    by_cases hq : q = p
    · rw [hq, upd_self] at hk
      cases hk
      exact ⟨hq, rfl⟩
    · rw [upd_of_ne hq, hno q] at hk
      cases hk
  have hempty : users i = [] := List.length_eq_zero_iff.mp ((h.count i).symm.trans hunused)
  constructor
  · exact h.ordered.keep rfl
  · intro j
    by_cases hj : j = i
    · subst hj
      simp [hempty]
    · simp only [setBuf_of_ne hj, upd_of_ne hj]
      exact h.count j
  · exact h.looked_users hidle (.claimed i) dev bno _
  · intro j hj hn
    have hji : j ≠ i := by
      rintro rfl
      exact hn p ⟨j, dev, bno⟩ (by simp [Pc.claim]) rfl
    rw [setBuf_of_ne hji] at hj
    simp only [hblocks]
    refine h.first j hj fun q k hk => ?_
    rw [hno q] at hk
    cases hk
  · intro a b k k' ha hb
    rw [(hclaim ha).1, (hclaim hb).1]
  · intro q k hk
    obtain ⟨-, rfl⟩ := hclaim hk
    simp only [hblocks, setBuf_self]
    refine ⟨trivial, ?_, habsent⟩
    intro j hj hpos
    rw [setBuf_of_ne hj] at hpos
    exact hold j hj hpos
  · intro q k hk
    simp only [hblocks]
    by_cases hq : q = p
    · subst hq
      simp only [upd_self] at hk
      exact h.asked q k (List.mem_append_right _ hk)
    · simp only [upd_of_ne hq] at hk
      exact h.asked q k hk
  · simp only [hblocks]
    exact h.unique

/-- A claimed buffer is given to its new block. -/
theorem recycled (h : Identity s l users) {i : BufId} {dev bno : Nat} (hpc : s.pc p = .recycling i dev bno)
    (hlinks : c.links = s.cache.links) (hblocks : c.blocks = upd s.cache.blocks i (dev, bno))
    (hrefs : ∀ j, (c.bufs j).refCount = (s.cache.bufs j).refCount) :
    Identity { s with cache := c, pc := upd s.pc p (.filling i dev bno) } l users := by
  have hclaim : (s.pc p).claim = some ⟨i, dev, bno⟩ := by rw [hpc]; rfl
  obtain ⟨-, -, habsent⟩ := h.alone p _ hclaim
  have hno : ∀ q, (upd s.pc p (.filling i dev bno) q).claim = none := by
    refine forall_upd (P := fun _ (pc : Pc) => pc.claim = none) rfl fun q hq => ?_
    cases hk : (s.pc q).claim with
    | none => rfl
    | some k => exact absurd (h.single q p k _ hk hclaim) hq
  constructor
  · exact h.ordered.keep hlinks
  · intro j
    exact (hrefs j).trans (h.count j)
  · refine h.users.keep fun q => ?_
    by_cases hq : q = p
    · subst hq
      simp [uses, hpc, Pc.refs]
    · simp [uses, hq]
  · intro j hj _
    simp only [hblocks, hrefs] at hj ⊢
    by_cases hji : j = i
    · rw [hji]
      exact First.rekey_self (h.ordered.mem i) fun j _ => habsent j
    · refine (h.first j hj fun q k hk hkj => ?_).rekey (fun j _ => habsent j) hji
      obtain rfl := h.single q p k _ hk hclaim
      rw [hclaim] at hk
      cases hk
      exact hji hkj.symm
  · intro a b k k' ha
    rw [hno a] at ha
    cases ha
  · intro q k hk
    rw [hno q] at hk
    cases hk
  · intro q k hk
    simp only [hblocks]
    have hother : k ∈ (s.pc q).asked ++ s.got q → upd s.cache.blocks i (dev, bno) k.buf = (k.dev, k.bno) := by
      intro hk
      rw [upd_of_ne (h.claimed_asked hclaim hk)]
      exact h.asked q k hk
    by_cases hq : q = p
    · subst hq
      simp only [upd_self] at hk
      cases List.mem_append.mp hk with
      | inl ha =>
          rw [List.mem_singleton.mp ha]
          exact upd_self _ _ _
      | inr hg => exact hother (List.mem_append_right _ hg)
    · simp only [upd_of_ne hq] at hk
      exact hother hk
  · -- no other buffer stands for the new block
    intro a b hab
    simp only [hblocks, upd_apply] at hab ⊢
    split at hab <;> split at hab
    · exact Or.inl (by rw [‹a = i›, ‹b = i›])
    · exact absurd hab.symm (habsent b)
    · exact absurd hab (habsent a)
    · rw [if_neg ‹¬ a = i›]
      exact h.unique a b hab

/-- A process gives its reference back. -/
theorem unrefs (h : Identity s l users) {i : BufId} (hpc : s.pc p = .releasing i) (hblocks : c.blocks = s.cache.blocks)
    (hrefs : ∀ j, (c.bufs j).refCount =
      if j = i then (s.cache.bufs i).refCount - 1 else (s.cache.bufs j).refCount)
    (hlinks : c.links = if (s.cache.bufs i).refCount - 1 = 0 then (s.cache.links.unlink i).pushFront i
      else s.cache.links) :
    ∃ l', Identity { s with cache := c, pc := upd s.pc p .idle } l' (upd users i ((users i).erase p)) := by
  have huse : i ∈ s.uses p := by simp [uses, hpc, Pc.refs]
  have hfree : ∀ q k, (s.pc q).claim = some k → k.buf ≠ i := by
    rintro q k hk rfl
    by_cases hq : p = q
    · rw [← hq, hpc] at hk
      cases hk
    · exact (h.claimed_uses hk).2 p hq huse
  have hfirst := h.first i (h.used huse) hfree
  have hclaims : ∀ q, (upd s.pc p .idle q).claim = (s.pc q).claim :=
    forall_upd (P := fun q (pc : Pc) => pc.claim = (s.pc q).claim) (by rw [hpc]; rfl) fun _ _ => rfl
  have hle : ∀ j, 0 < (c.bufs j).refCount → 0 < (s.cache.bufs j).refCount := by
    intro j hj
    rw [hrefs] at hj
    by_cases hji : j = i
    · rw [hji]
      exact h.used huse
    · rwa [if_neg hji] at hj
  -- The list after the step, in which the buffers in use are first for their blocks as before.
  obtain ⟨l', hord, hkeep⟩ : ∃ l', Ordered c l' ∧ ∀ j, First s.cache.blocks l j → First s.cache.blocks l' j := by
    by_cases h0 : (s.cache.bufs i).refCount - 1 = 0
    · rw [if_pos h0] at hlinks
      exact ⟨_, h.ordered.toFront i hlinks, fun j hj => hfirst.toFront hj⟩
    · rw [if_neg h0] at hlinks
      exact ⟨l, h.ordered.keep hlinks, fun _ hj => hj⟩
  refine ⟨l', ?_⟩
  constructor
  · exact hord
  · intro j
    rw [hrefs]
    by_cases hj : j = i
    · subst hj
      rw [if_pos rfl, upd_self, List.length_erase_of_mem (h.users.mem_iff.mpr huse), h.count]
    · rw [if_neg hj, upd_of_ne hj, h.count]
  · refine h.users.drop (a := p) ?_ ?_
    · simp [uses, hpc, Pc.refs]
    · intro q hq
      simp [uses, hq]
  · intro j hj hn
    simp only [hblocks]
    exact hkeep j (h.first j (hle j hj) fun q k hk => hn q k ((hclaims q).trans hk))
  · intro a b k k' ha hb
    rw [hclaims] at ha hb
    exact h.single a b k k' ha hb
  · intro q k hk
    rw [hclaims] at hk
    obtain ⟨hone, hold, habsent⟩ := h.alone q k hk
    simp only [hblocks]
    refine ⟨?_, fun j hj hpos => hold j hj (hle j hpos), habsent⟩
    rw [hrefs, if_neg (hfree q k hk), hone]
  · intro q k hk
    simp only [hblocks]
    by_cases hq : q = p
    · subst hq
      simp only [upd_self] at hk
      exact h.asked q k (List.mem_append_right _ hk)
    · simp only [upd_of_ne hq] at hk
      exact h.asked q k hk
  · simp only [hblocks]
    exact h.unique

end Identity

/-! ## Runs -/

/-- A block is looked up while no claimed buffer waits for its new block, and while the block that the unused
buffers stand for after the start is not in use, unless it is the one looked up. -/
def LooksUpAlone (s : Procs ι) : ι × Act → Prop
  | (_, .bread dev bno) =>
    (∀ q, (s.pc q).claim = none) ∧
    ((dev, bno) ≠ startBlock → ∀ j, 0 < (s.cache.bufs j).refCount → s.cache.blocks j ≠ startBlock)
  | _ => True

instance [Fintype ι] (s : Procs ι) (a : ι × Act) : Decidable (LooksUpAlone s a) :=
  match a with
  | (_, .bread _ _) => inferInstanceAs (Decidable (_ ∧ (_ → _)))
  | (_, .acquire) | (_, .recycle) | (_, .fill) | (_, .write _ _) | (_, .brelse _) | (_, .unref) => .isTrue trivial

/-- A buffer that is claimed then does not stand for the block of another buffer in use. -/
theorem Identity.claimed_apart (h : Identity s l users) {dev bno : Nat}
    (hc : (dev, bno) ≠ startBlock → ∀ j, 0 < (s.cache.bufs j).refCount → s.cache.blocks j ≠ startBlock)
    (habsent : ∀ j, s.cache.blocks j ≠ (dev, bno)) {i j : BufId} (hji : j ≠ i) (hj : 0 < (s.cache.bufs j).refCount) :
    s.cache.blocks j ≠ s.cache.blocks i := by
  intro he
  obtain rfl | h0 := h.unique j i he
  · exact hji rfl
  · exact hc (fun hs => habsent j (h0.trans hs.symm)) j hj h0

theorem goes_some {α : Type} {x : BioM α} {k : α → Pc} {Q : α → Cache → Prop} (hs : s.goes p x k = some s')
    (hx : Wp x Q (fun _ => True) s.cache) :
    ∃ a c, x s.cache = .ok (a, c) ∧ Q a c ∧ s' = { s with cache := c, pc := upd s.pc p (k a) } := by
  unfold goes at hs
  cases he : x s.cache with
  | ok r =>
      rw [he] at hs
      exact ⟨r.1, r.2, rfl, hx.of_ok he, (Option.some.inj hs).symm⟩
  | error e =>
      rw [he] at hs
      cases hs

theorem Identity.step (h : Identity s l users) {a : Act} (hc : LooksUpAlone s (p, a)) (hs : s.step p a = some s') :
    ∃ l' users', Identity s' l' users' := by
  revert hs
  unfold Procs.step
  split <;> rename_i hpc <;> intro hs
  · obtain ⟨f, c, -, hl, rfl⟩ := goes_some hs ((h.ordered.lookup _ _).mono (fun _ _ h => h) fun _ _ => trivial)
    obtain ⟨hno, hold⟩ := hc
    cases hl with
    | hit hfirst hblock => exact ⟨_, _, h.hit hpc hno hfirst hblock⟩
    | claimed habsent hunused =>
        exact ⟨_, _, h.claim hpc hno habsent hunused fun j hji hj => h.claimed_apart hold habsent hji hj⟩
  · obtain ⟨-, c, -, hq, rfl⟩ := goes_some hs acquireSleep_quiet
    exact ⟨l, users, h.moves hq (by rw [hpc]; rfl) (by rw [hpc]; rfl) (by rw [hpc]; rfl)⟩
  · obtain ⟨-, c, -, hq, rfl⟩ := goes_some hs acquireSleep_quiet
    exact ⟨l, users, h.moves hq (by rw [hpc]; rfl) (by rw [hpc]; rfl) (by rw [hpc]; rfl)⟩
  · obtain ⟨-, c, -, ⟨hlinks, hblocks, hrefs⟩, rfl⟩ := goes_some hs recycle_blocks
    exact ⟨l, users, h.recycled hpc hlinks hblocks hrefs⟩
  · obtain ⟨s1, hs1, rfl⟩ := Option.map_eq_some_iff.mp hs
    obtain ⟨-, c, -, hq, rfl⟩ := goes_some hs1 fill_quiet
    refine ⟨l, users, h.quiet (p := p) hq (fun q hq => upd_of_ne hq _ _) (fun q hq => upd_of_ne hq _ _) ?_ ?_ ?_⟩
    · simp only [upd_self, hpc]
      rfl
    · simp [uses, hpc, Pc.refs]
    · simp [hpc, Pc.asked]
  · obtain ⟨-, hs⟩ := Option.ite_none_right_eq_some.mp hs
    obtain ⟨-, c, -, hq, rfl⟩ := goes_some hs write_quiet
    exact ⟨l, users, h.moves hq (by rw [hpc]) (by rw [hpc]) (by rw [hpc])⟩
  · obtain ⟨hmem, hs⟩ := Option.ite_none_right_eq_some.mp hs
    obtain ⟨s1, hs1, rfl⟩ := Option.map_eq_some_iff.mp hs
    obtain ⟨-, c, -, hq, rfl⟩ := goes_some hs1 unlock_quiet
    refine ⟨l, users, h.quiet (p := p) hq (fun q hq => upd_of_ne hq _ _) (fun q hq => upd_of_ne hq _ _) ?_ ?_ ?_⟩
    · simp only [upd_self, hpc]
      rfl
    · have hperm := (List.perm_cons_erase hmem).map Handle.buf
      simp only [uses, upd_self, hpc, Pc.refs, List.nil_append]
      exact hperm.symm
    · simp only [upd_self, hpc, Pc.asked, List.nil_append]
      exact List.erase_subset
  · obtain ⟨-, c, -, ⟨hblocks, hrefs, hlinks⟩, rfl⟩ := goes_some hs unref_blocks
    obtain ⟨l', h'⟩ := h.unrefs hpc hblocks hrefs hlinks
    exact ⟨l', _, h'⟩
  · cases hs

theorem identity (h : (machine ι).ReachableIf LooksUpAlone s) : ∃ l users, Identity s l users := by
  refine h.invariant (P := fun s => ∃ l users, Identity s l users) ?_ ?_
  · rintro s ⟨ramdisk, n, rfl⟩
    exact ⟨_, _, Identity.init⟩
  · rintro s a s' - ⟨l, users, hid⟩ hc hs
    exact hid.step (p := a.1) hc hs

end Procs

end Xv6.Bio
