import Xv6.Bio.Client
import Xv6.Bio.Lemmas.Coherent

/-!
# The cache seen by one thread

The specifications of `bread`, `bwrite` and `brelse` for a thread that holds the buffers `held`, and
the invariant of its runs.
-/

namespace Xv6.Bio

open Xv6.Lib Xv6.Fs

variable {A : Nat → Bytes} {s s' : Cache} {l : List BufId} {i : BufId} {held : List (Nat × BufId)} {b : Nat}

/-- The thread holds exactly these buffers, each for its block. -/
structure Held (held : List (Nat × BufId)) (s : Cache) : Prop where
  nodup : (held.map Prod.snd).Nodup
  block : ∀ h ∈ held, (s.bufs h.2).blockNo = h.1 ∧ (s.bufs h.2).valid
  users : ∀ i, (s.bufs i).refCount = if i ∈ held.map Prod.snd then 1 else 0
  locked : ∀ i, (s.bufs i).locked = decide (i ∈ held.map Prod.snd)

namespace Held

theorem unused (h : Held held s) (hi : (s.bufs i).refCount = 0) : i ∉ held.map Prod.snd := by
  intro hmem
  rw [h.users, if_pos hmem] at hi
  cases hi

/-- Fewer buffers are held than there are, so one is unused. -/
theorem exists_unused (h : Held held s) (hn : held.length < nbuf) : ∃ i, (s.bufs i).refCount = 0 := by
  have hcard : (held.map Prod.snd).toFinset.card < Fintype.card BufId := by
    refine lt_of_le_of_lt (List.toFinset_card_le _) ?_
    simpa using hn
  obtain ⟨i, hi⟩ := Finset.exists_mem_notMem_of_card_lt_card (t := Finset.univ) hcard
  refine ⟨i, ?_⟩
  rw [h.users, if_neg]
  simpa using hi.2

/-- A buffer that was not held is now held for the block `b`. -/
theorem add (h : Held held s) (hi : i ∉ held.map Prod.snd) {buf : Buf} (hs : s'.bufs = upd s.bufs i buf)
    (hbno : buf.blockNo = b) (hvalid : buf.valid) (href : buf.refCount = 1) (hlock : buf.locked) :
    Held ((b, i) :: held) s' := by
  have hself : s'.bufs i = buf := by rw [hs, upd_self]
  have hother : ∀ j, j ≠ i → s'.bufs j = s.bufs j := fun j hj => by rw [hs, upd_of_ne hj]
  constructor
  · exact List.nodup_cons.mpr ⟨hi, h.nodup⟩
  · intro e he
    cases List.mem_cons.mp he with
    | inl heq =>
        subst heq
        rw [hself]
        exact ⟨hbno, hvalid⟩
    | inr hmem =>
        have hne : e.2 ≠ i := fun hei => hi (hei ▸ List.mem_map_of_mem hmem)
        rw [hother _ hne]
        exact h.block e hmem
  · intro j
    by_cases hj : j = i
    · subst hj
      simp [hself, href]
    · rw [hother j hj, h.users]
      simp only [List.map_cons, List.mem_cons, hj, false_or]
  · intro j
    by_cases hj : j = i
    · subst hj
      simp [hself, hlock]
    · rw [hother j hj, h.locked]
      simp only [List.map_cons, List.mem_cons, hj, false_or]

/-- A held buffer is released. -/
theorem drop (h : Held held s) (hmem : (b, i) ∈ held) {buf : Buf} (hs : s'.bufs = upd s.bufs i buf)
    (href : buf.refCount = 0) (hlock : buf.locked = false) : Held (held.erase (b, i)) s' := by
  have hself : s'.bufs i = buf := by rw [hs, upd_self]
  have hother : ∀ j, j ≠ i → s'.bufs j = s.bufs j := fun j hj => by rw [hs, upd_of_ne hj]
  have hperm : (held.map Prod.snd).Perm (i :: (held.erase (b, i)).map Prod.snd) :=
    (List.perm_cons_erase hmem).map Prod.snd
  have hnodup := List.nodup_cons.mp (hperm.nodup_iff.mp h.nodup)
  have hiff : ∀ j, j ≠ i → (j ∈ (held.erase (b, i)).map Prod.snd ↔ j ∈ held.map Prod.snd) := by
    intro j hj
    rw [hperm.mem_iff, List.mem_cons]
    exact ⟨.inr, fun hor => hor.resolve_left hj⟩
  constructor
  · exact hnodup.2
  · intro e he
    have hne : e.2 ≠ i := by
      intro hei
      have hmem := List.mem_map_of_mem (f := Prod.snd) he
      rw [hei] at hmem
      exact hnodup.1 hmem
    rw [hother _ hne]
    exact h.block e (List.mem_of_mem_erase he)
  · intro j
    by_cases hj : j = i
    · subst hj
      rw [hself, href, if_neg hnodup.1]
    · rw [hother j hj, h.users]
      simp only [hiff j hj]
  · intro j
    by_cases hj : j = i
    · subst hj
      rw [hself, hlock, decide_eq_false hnodup.1]
    · rw [hother j hj, h.locked]
      simp only [hiff j hj]

end Held

/-! ## The pieces of the calls -/

/-- A buffer that is not locked is locked. -/
theorem wp_acquireSleep {Q : Unit → Cache → Prop} {E : Halt → Prop} (hl : (s.bufs i).locked = false)
    (hQ : Q () (s.setBuf i { s.bufs i with locked := true })) : Wp (acquireSleep i) Q E s := by
  simp only [acquireSleep, wp_bind, wp_get, wp_ite, wp_throw, setBuf, wp_modify, hl]
  exact ⟨fun h => (Bool.false_ne_true h).elim, fun _ => hQ⟩

/-- `rd_rw` past its checks. -/
theorem wp_rdRw {Q : Unit → Cache → Prop} {E : Halt → Prop} (hwork : ¬ ((s.bufs i).valid ∧ ¬ (s.bufs i).dirty))
    (hdev : (s.bufs i).dev = devRamdisk) (hbno : (s.bufs i).blockNo < s.diskBlocks)
    (hdirty : (s.bufs i).dirty → Q () { s.setBuf i { s.bufs i with dirty := false, valid := true } with
      ramdisk := upd s.ramdisk (s.bufs i).blockNo (s.bufs i).data })
    (hclean : ¬ (s.bufs i).dirty →
      Q () (s.setBuf i { s.bufs i with data := s.ramdisk (s.bufs i).blockNo, valid := true })) :
    Wp (rdRw i) Q E s := by
  simp only [rdRw, wp_bind, wp_get, wp_panicIf, wp_ite, wp_set]
  refine ⟨fun h => absurd h hwork, fun _ => ⟨fun h => absurd hdev h, fun _ => ⟨fun h => ?_, fun _ => ⟨hdirty, hclean⟩⟩⟩⟩
  exact absurd hbno (Nat.not_lt.mpr h)

/-- `rd_rw` of a dirty buffer. -/
theorem Coherent.rdRw_dirty (h : Coherent A s l) (hi : (s.bufs i).dirty) :
    Wp (rdRw i) (fun _ s' => Coherent A s' l ∧ s'.bufs = upd s.bufs i { s.bufs i with dirty := false } ∧
      s'.diskBlocks = s.diskBlocks) (fun _ => False) s := by
  have hvalid := h.dirty i hi
  obtain ⟨hdev, hbno, -⟩ := h.valid i hvalid
  have hbuf : { s.bufs i with dirty := false, valid := true } = { s.bufs i with dirty := false } := by rw [← hvalid]
  refine wp_rdRw (fun hw => hw.2 hi) hdev hbno (fun _ => ?_) fun hn => absurd hi hn
  rw [hbuf]
  exact ⟨h.flush hi, rfl, rfl⟩

/-- `rd_rw` of the first buffer of a block, which is not valid. -/
theorem Coherent.rdRw_invalid (h : Coherent A s l) (hi : (s.bufs i).valid = false) (hf : First s.blocks l i)
    (hdev : (s.bufs i).dev = devRamdisk) (hbno : (s.bufs i).blockNo < s.diskBlocks) :
    Wp (rdRw i) (fun _ s' => Coherent A s' l ∧
      s' = s.setBuf i { s.bufs i with data := s.ramdisk (s.bufs i).blockNo, valid := true }) (fun _ => False) s := by
  refine wp_rdRw ?_ hdev hbno (fun hd => ?_) fun _ => ⟨h.read hi hf hdev hbno, rfl⟩
  · simp [hi]
  · rw [h.dirty i hd] at hi
    cases hi

theorem Coherent.recycle (h : Coherent A s l) {dev bno : Nat} (hk : ∀ j, s.blocks j ≠ (dev, bno)) :
    Wp (recycle dev bno i) (fun _ s' => Coherent A s' l ∧
      s'.bufs = upd s.bufs i { s.bufs i with dev := dev, blockNo := bno, valid := false, dirty := false } ∧
      s'.diskBlocks = s.diskBlocks) (fun _ => False) s := by
  unfold Bio.recycle
  simp only [wp_bind, wp_get, wp_ite, setBuf, wp_modify]
  refine ⟨fun hd => ?_, fun hd => ?_⟩
  · refine (h.rdRw_dirty hd).post ?_
    rintro - s1 ⟨h1, hbufs, hsize⟩
    have hi : s1.bufs i = { s.bufs i with dirty := false } := by rw [hbufs, upd_self]
    have hk1 : ∀ j, s1.blocks j ≠ (dev, bno) := by
      have hblocks : s1.blocks = s.blocks := by
        funext j
        rw [Cache.blocks, hbufs]
        exact congrFun (blocks_setBuf_same s i { s.bufs i with dirty := false } rfl) j
      rw [hblocks]
      exact hk
    refine ⟨h1.reuse (by rw [hi]) hk1 rfl rfl, ?_, hsize⟩
    simp [Cache.setBuf, hbufs]
  · exact ⟨h.reuse (by simpa using hd) hk rfl rfl, rfl, rfl⟩

/-- The first buffer of a block is valid after `fill`. -/
theorem Coherent.fill (h : Coherent A s l) (hf : First s.blocks l i) (hdev : (s.bufs i).dev = devRamdisk)
    (hbno : (s.bufs i).blockNo < s.diskBlocks) :
    Wp (fill i) (fun _ s' => Coherent A s' l ∧ s'.diskBlocks = s.diskBlocks ∧
      ∃ data, s'.bufs = upd s.bufs i { s.bufs i with data := data, valid := true }) (fun _ => False) s := by
  unfold Bio.fill
  simp only [wp_bind, wp_get, wp_ite, wp_pure, Bool.not_eq_true, Bool.not_eq_false]
  refine ⟨fun hv => ?_, fun hv => ?_⟩
  · refine (h.rdRw_invalid hv hf hdev hbno).post ?_
    rintro - s1 ⟨h1, hs1⟩
    rw [hs1] at h1 ⊢
    exact ⟨h1, rfl, _, rfl⟩
  · refine ⟨h, trivial, (s.bufs i).data, ?_⟩
    rw [← hv]
    exact (upd_eta s.bufs i).symm

/-! ## The calls -/

/-- A locked buffer that the thread has just got, and that stands first for the block, is filled. -/
theorem Held.filled (hheld : Held held s) (hi : i ∉ held.map Prod.snd) {buf : Buf}
    (hs : s'.bufs = upd s.bufs i buf) (h' : Coherent A s' l) (hf : First s'.blocks l i) (hdev : buf.dev = devRamdisk)
    (hbno : buf.blockNo = b) (hb : b < s'.diskBlocks) (href : buf.refCount = 1) (hlock : buf.locked) :
    Wp (Bio.fill i) (fun _ t => Coherent A t l ∧ Held ((b, i) :: held) t ∧ t.diskBlocks = s'.diskBlocks)
      (fun _ => False) s' := by
  have hself : s'.bufs i = buf := by rw [hs, upd_self]
  refine (h'.fill hf (hself ▸ hdev) (by rwa [hself, hbno])).post ?_
  rintro - t ⟨ht, hsize, data, hbufs⟩
  rw [hself, hs, upd_upd] at hbufs
  exact ⟨ht, hheld.add hi hbufs hbno rfl href hlock, hsize⟩

theorem Coherent.bread (h : Coherent A s l) (hheld : Held held s) (hb : b < s.diskBlocks) (hn : held.length < nbuf)
    (hnew : b ∉ held.map Prod.fst) :
    Wp (bread devRamdisk b) (fun i s' => Coherent A s' l ∧ Held ((b, i) :: held) s' ∧ s'.diskBlocks = s.diskBlocks)
      (fun _ => False) s := by
  have hlookup : Wp (lookup devRamdisk b) (Looked s l devRamdisk b) (fun _ => False) s := by
    refine (h.ordered.lookup devRamdisk b).mono (fun _ _ hl => hl) fun _ hnone => ?_
    obtain ⟨i, hi⟩ := hheld.exists_unused hn
    exact hnone i hi
  unfold Bio.bread bget
  rw [wp_bind]
  refine hlookup.bind fun r s1 hl => ?_
  cases hl with
  | @hit i hfirst hblock =>
      have hdev : (s.bufs i).dev = devRamdisk := congrArg Prod.fst hblock
      have hbno : (s.bufs i).blockNo = b := congrArg Prod.snd hblock
      -- A held buffer for the block would be one that the thread has asked for.
      have hi : i ∉ held.map Prod.snd := by
        intro hmem
        obtain ⟨e, he, rfl⟩ := List.mem_map.mp hmem
        exact hnew (List.mem_map.mpr ⟨e, he, (hheld.block e he).1.symm.trans hbno⟩)
      have hlock : (s.bufs i).locked = false := by rw [hheld.locked, decide_eq_false hi]
      have href : (s.bufs i).refCount = 0 := by rw [hheld.users, if_neg hi]
      simp only [wp_bind, wp_pure]
      refine wp_acquireSleep (by simpa using hlock) ?_
      simp only [setBuf_self, setBuf_setBuf]
      refine hheld.filled hi rfl (h.setBare i rfl) ?_ hdev hbno hb (by simp [href]) rfl
      have hblocks := blocks_setBuf_same s i
        { s.bufs i with refCount := (s.bufs i).refCount + 1, locked := true } rfl
      rwa [hblocks]
  | @claimed i habsent hunused =>
      have hi := hheld.unused hunused
      have hlock : (s.bufs i).locked = false := by rw [hheld.locked, decide_eq_false hi]
      simp only [wp_bind, wp_pure]
      refine wp_acquireSleep (by simpa using hlock) ?_
      simp only [setBuf_self, setBuf_setBuf]
      have hbare := h.setBare i (b := { s.bufs i with refCount := 1, locked := true }) rfl
      have hblocks := blocks_setBuf_same s i { s.bufs i with refCount := 1, locked := true } rfl
      refine (hbare.recycle (i := i) (by rwa [hblocks])).post ?_
      rintro - t ⟨ht, hbufs, hsize⟩
      rw [setBuf_self, Cache.setBuf, upd_upd] at hbufs
      have hb' : b < t.diskBlocks := hsize ▸ hb
      have htblocks : t.blocks = upd s.blocks i (devRamdisk, b) := by
        funext j
        rw [Cache.blocks, hbufs]
        exact map_upd Buf.block s.bufs i _ j
      refine (hheld.filled hi hbufs ht ?_ rfl rfl hb' rfl rfl).post fun _ t' h' => ⟨h'.1, h'.2.1, h'.2.2.trans hsize⟩
      rw [htblocks]
      exact First.rekey_self (h.ordered.mem i) fun j _ => habsent j

/-- New contents for a held buffer. -/
theorem Coherent.assign (h : Coherent A s l) (hheld : Held held s) (hmem : (b, i) ∈ held) (data : Bytes) :
    Wp (do setBuf i fun buf => { buf with data := data }
           bwrite i)
      (fun _ s' => Coherent (upd A b data) s' l ∧ Held held s' ∧ s'.diskBlocks = s.diskBlocks) (fun _ => False) s := by
  obtain ⟨hbno, hvalid⟩ := hheld.block (b, i) hmem
  have hlock : (s.bufs i).locked := by
    rw [hheld.locked, decide_eq_true_iff]
    exact List.mem_map_of_mem hmem
  have hwrite := h.write hvalid data
  rw [hbno] at hwrite
  simp only [setBuf, bwrite, wp_bind, wp_modify, wp_get, wp_panicIf, setBuf_self, setBuf_setBuf]
  refine ⟨fun hn => absurd hlock hn, fun _ => ⟨hwrite, ?_, rfl⟩⟩
  constructor
  · exact hheld.nodup
  · intro e he
    by_cases hei : e.2 = i
    · have hblock := hheld.block e he
      rw [hei] at hblock ⊢
      rwa [setBuf_self]
    · rw [setBuf_of_ne hei]
      exact hheld.block e he
  · intro j
    rw [← hheld.users j]
    by_cases hj : j = i
    · rw [hj, setBuf_self]
    · rw [setBuf_of_ne hj]
  · intro j
    rw [← hheld.locked j]
    by_cases hj : j = i
    · rw [hj, setBuf_self]
    · rw [setBuf_of_ne hj]

theorem Coherent.brelse (h : Coherent A s l) (hheld : Held held s) (hmem : (b, i) ∈ held) :
    Wp (brelse i) (fun _ s' => Coherent A s' (i :: l.erase i) ∧ Held (held.erase (b, i)) s' ∧
      s'.diskBlocks = s.diskBlocks) (fun _ => False) s := by
  have hmap : i ∈ held.map Prod.snd := List.mem_map_of_mem (f := Prod.snd) hmem
  have hvalid := (hheld.block (b, i) hmem).2
  have hlock : (s.bufs i).locked := by rw [hheld.locked, decide_eq_true hmap]
  have href : (s.bufs i).refCount = 1 := by rw [hheld.users, if_pos hmap]
  have hbare := h.setBare i (b := { s.bufs i with locked := false, refCount := 0 }) rfl
  simp only [Bio.brelse, unlock, releaseSleep, unref, setBuf, wp_bind, wp_modify, wp_get, wp_panicIf, wp_ite, wp_set,
    setBuf_self, setBuf_setBuf, href]
  refine ⟨fun hn => absurd hlock hn, fun _ => ⟨fun _ => ⟨hbare.toFront ?_, hheld.drop hmem rfl rfl rfl, rfl⟩,
    fun hne => absurd trivial hne⟩⟩
  rwa [setBuf_self]

/-! ## Runs -/

namespace Client

variable {c : Client}

/-- The cache is coherent with the contents last given to the blocks. -/
structure Inv (c : Client) : Prop where
  coherent : ∃ l, Coherent c.last c.cache l
  held : Held c.held c.cache

theorem Inv.start (h : Starts c) : c.Inv := by
  obtain ⟨ramdisk, n, rfl⟩ := h
  refine ⟨⟨_, coherent_init ramdisk n⟩, List.nodup_nil, ?_, ?_, ?_⟩
  · intro e he
    cases he
  · intro i
    rfl
  · intro i
    rfl

/-- The thread finds the buffer that it holds for a block. -/
theorem bufOf_of_mem (h : b ∈ c.held.map Prod.fst) : ∃ i, c.bufOf b = some i ∧ (b, i) ∈ c.held := by
  obtain ⟨e, he, hb⟩ := List.mem_map.mp h
  cases hf : c.held.find? fun h => h.1 = b with
  | none => exact absurd hb (by simpa using List.find?_eq_none.mp hf e he)
  | some e' =>
      have he' : e'.1 = b := by simpa using List.find?_some hf
      refine ⟨e'.2, by rw [bufOf, hf]; rfl, ?_⟩
      rw [← he']
      exact List.mem_of_find?_eq_some hf

/-- What a call of the thread gives back. -/
def Answers (c : Client) : Op → Option Bytes → Prop
  | .bread b, r => r = some (c.last b)
  | _, _ => True

/-- An allowed call returns, a read with the contents last given to the block, and keeps the invariant. -/
theorem Inv.exec (h : c.Inv) {op : Op} (ha : c.Allowed op) :
    Wp (exec op) (fun r c' => c.Answers op r ∧ c'.Inv) (fun _ => False) c := by
  obtain ⟨⟨l, hco⟩, hheld⟩ := h
  cases op with
  | bread b =>
      obtain ⟨hb, hn, hnew⟩ := ha
      simp only [Client.exec, call, wp_bind, wp_on, wp_modify, wp_get, wp_pure]
      refine (hco.bread hheld hb hn hnew).post fun i s' hs => ?_
      obtain ⟨hco', hheld', -⟩ := hs
      obtain ⟨hbno, hvalid⟩ := hheld'.block (b, i) (by simp)
      refine ⟨?_, ⟨l, hco'⟩, hheld'⟩
      have hdata := (hco'.valid i hvalid).2.2
      rw [hbno] at hdata
      exact congrArg some hdata
  | write b data =>
      obtain ⟨i, hbuf, hmem⟩ := bufOf_of_mem ha
      have hassign := hco.assign hheld hmem data
      rw [wp_bind] at hassign
      simp only [Client.exec, call, wp_bind, wp_get, hbuf, wp_on, wp_modify, wp_pure]
      refine hassign.post fun _ s' hs => hs.post fun _ s'' hs' => ?_
      exact ⟨trivial, ⟨l, hs'.1⟩, hs'.2.1⟩
  | brelse b =>
      obtain ⟨i, hbuf, hmem⟩ := bufOf_of_mem ha
      simp only [Client.exec, call, wp_bind, wp_get, hbuf, wp_on, wp_modify, wp_pure]
      refine (hco.brelse hheld hmem).post fun _ s' hs => ?_
      exact ⟨trivial, ⟨_, hs.1⟩, hs.2.1⟩

theorem Inv.reachable (h : machine.Reachable c) : c.Inv := by
  refine h.invariant (P := Inv) (fun _ => Inv.start) ?_
  intro c op c' hinv hs
  simp only [machine, Option.ite_none_right_eq_some] at hs
  obtain ⟨ha, hs⟩ := hs
  obtain ⟨r, c1, hx, -, hinv'⟩ := (hinv.exec ha).returns
  rw [hx] at hs
  cases hs
  exact hinv'

end Client

end Xv6.Bio
