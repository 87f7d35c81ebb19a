import Xv6.Fs.Lemmas.Balloc

/-!
# Mapping logical blocks

`bmap` finds a block that is in use, or puts a free block into the next place.
-/

namespace Xv6.Fs

open Xv6.Lib

/-! ## Filling a place -/

/-- The inode with one slot of `addrs` replaced. -/
def Dinode.withAddr (d : Dinode) (k : Fin 14) (v : Nat) : Dinode := { d with addrs := upd d.addrs k v }

@[simp] theorem Dinode.withAddr_self (d : Dinode) (k : Fin 14) (v : Nat) : (d.withAddr k v).addrs k = v :=
  upd_self d.addrs k v

/-- The place that a slot of `addrs` is. -/
def placeOf (k : Fin 14) : Nat := if k = indirect then 525 else k

theorem place_placeOf (disk : Nat → Bytes) (d : Dinode) (k : Fin 14) : place disk d (placeOf k) = d.addrs k := by
  revert k
  simp only [Fin.forall_fin_succ, IsEmpty.forall_iff, and_true]
  exact ⟨rfl, rfl, rfl, rfl, rfl, rfl, rfl, rfl, rfl, rfl, rfl, rfl, rfl, rfl⟩

theorem placeOf_lt (k : Fin 14) : placeOf k < 526 := by
  unfold placeOf
  split <;> omega

theorem placeOf_ofNat {n : Nat} (h : n < 13) : placeOf (Fin.ofNat 14 n) = n := by
  have hval : ((Fin.ofNat 14 n : Fin 14) : Nat) = n := by
    rw [Fin.val_ofNat]
    omega
  have hne : Fin.ofNat 14 n ≠ indirect := by
    intro he
    rw [he] at hval
    exact absurd hval (by change ¬ 13 = n; omega)
  rw [placeOf, if_neg hne, hval]

theorem placeOf_indirect : placeOf indirect = 525 := rfl

/-- Another slot's place is unchanged. -/
theorem place_withAddr {disk : Nat → Bytes} {d : Dinode} {k : Fin 14} {v n : Nat} (hn : n ≠ placeOf k)
    (hk : 13 ≤ n → n < 525 → k ≠ indirect) (hn' : n < 526) :
    place disk (d.withAddr k v) n = place disk d n := by
  by_cases h13 : n < 13
  · have hne : Fin.ofNat 14 n ≠ k := by
      rintro rfl
      exact hn (placeOf_ofNat h13).symm
    rw [place_direct h13, place_direct h13]
    exact upd_of_ne hne _ _
  · have hne : indirect ≠ k := by
      rintro rfl
      by_cases h : n < 525
      · exact hk (by omega) h rfl
      · exact hn (by rw [placeOf_indirect]; omega)
    have ha : (d.withAddr k v).addrs indirect = d.addrs indirect := upd_of_ne hne _ _
    simp only [place, h13, if_false, ha]

section

variable {disk : Nat → Bytes} {D : Nat → Dinode} {S : Nat → Nat → Prop} {i b : Nat}

theorem Owns.addr_range (h : Owns disk D S) (hs : S i 525) :
    6 ≤ (D i).addrs indirect ∧ (D i).addrs indirect < 4096 := by
  simpa using h.range hs

/-- `balloc` leaves the blocks in use alone. -/
theorem Owns.allocated_eq (h : Owns disk D S) (hb : IsLowestFree disk b) {n : Nat} (hs : S i n) :
    allocated disk b (place disk (D i) n) = disk (place disk (D i) n) :=
  allocated_of_ne (by have := (h.range hs).1; omega) ((h.of_free hb.lt hb.free).2 i n hs)

/-- The places after `balloc` put a block into a slot of `addrs`. -/
theorem Files.place_slot (h : Files disk D S) (hb : IsLowestFree disk b) {k : Fin 14} {j m : Nat}
    (hj : j < 96) (hm : m < 526) (hne : ¬ (j = i ∧ m = placeOf k)) :
    place (allocated disk b) (upd D i ((D i).withAddr k b) j) m = place disk (D j) m ∨
      j = i ∧ k = indirect ∧ 13 ≤ m ∧ m < 525 ∧
        place (allocated disk b) (upd D i ((D i).withAddr k b) j) m = 0 := by
  by_cases hind : j = i ∧ k = indirect ∧ 13 ≤ m ∧ m < 525
  · right
    obtain ⟨rfl, rfl, h1, h2⟩ := hind
    refine ⟨rfl, rfl, h1, h2, ?_⟩
    rw [upd_self]
    simp [place, Dinode.withAddr, h1, h2, getAddr_zero]
  · left
    have hd : place (allocated disk b) (upd D i ((D i).withAddr k b) j) m = place (allocated disk b) (D j) m := by
      by_cases hji : j = i
      · subst hji
        rw [upd_self]
        exact place_withAddr (fun e => hne ⟨rfl, e⟩) (fun h1 h2 hk => hind ⟨rfl, hk, h1, h2⟩) hm
      · rw [upd_of_ne hji]
    rw [hd]
    refine place_congr rfl fun h1 h2 ha => ?_
    have hs : S j 525 := h.tight hj (by omega) (by simpa using ha)
    have := h.allocated_eq hb hs
    rwa [place_indirect] at this

theorem Files.alloc_slot (h : Files disk D S) (hb : IsLowestFree disk b) (hi : i < 96) {k : Fin 14}
    (hk : ¬ S i (placeOf k)) :
    Files (allocated disk b) (upd D i ((D i).withAddr k b)) (fun j m => S j m ∨ j = i ∧ m = placeOf k) ∧
      Keeps disk D S (allocated disk b) (upd D i ((D i).withAddr k b)) := by
  have hb6 := (h.of_free hb.lt hb.free).1
  have hp : ∀ j m, S j m → place (allocated disk b) (upd D i ((D i).withAddr k b) j) m = place disk (D j) m := by
    intro j m hs
    have hne : ¬ (j = i ∧ m = placeOf k) := by
      rintro ⟨rfl, rfl⟩
      exact hk hs
    rcases h.place_slot hb (h.dom hs).1 (h.dom hs).2 hne with he | ⟨rfl, rfl, h1, _, _⟩
    · exact he
    · exact absurd (h.closed hs h1) hk
  have hnew : place (allocated disk b) (upd D i ((D i).withAddr k b) i) (placeOf k) = b := by
    rw [place_placeOf, upd_self, Dinode.withAddr_self]
  have hind : 13 ≤ placeOf k → placeOf k = 525 ∨ S i 525 := by
    unfold placeOf
    split
    · exact fun _ => Or.inl rfl
    · intro h13
      exact absurd (show k = indirect from Fin.ext (by change (k : Nat) = 13; omega)) ‹_›
  have howns := h.insert hi (placeOf_lt k) hind hb.lt hb.free hp hnew fun c _ => bitSet_allocated hb6 c
  refine ⟨⟨howns, ?_⟩, hp _ _, fun hs _ => h.allocated_eq hb hs⟩
  intro j m hj hm hne
  by_cases hjm : j = i ∧ m = placeOf k
  · exact Or.inr hjm
  · rcases h.place_slot hb hj hm hjm with he | ⟨_, _, _, _, he⟩
    · exact Or.inl (h.tight hj hm (by rwa [he] at hne))
    · exact absurd he hne

/-- The disk after `balloc` put the block `b` into an entry of the indirect block `ind`. -/
def entryStored (disk : Nat → Bytes) (ind n b : Nat) : Nat → Bytes :=
  upd (allocated disk b) ind (putAddr (allocated disk b ind) n b)

theorem Files.alloc_entry (h : Files disk D S) (hb : IsLowestFree disk b) {n : Nat} (hs : S i 525)
    (hn : 13 ≤ n) (hn' : n < 525) (hfresh : ¬ S i n) :
    Files (entryStored disk ((D i).addrs indirect) (n - 13) b) D (fun j m => S j m ∨ j = i ∧ m = n) ∧
      Keeps disk D S (entryStored disk ((D i).addrs indirect) (n - 13) b) D := by
  obtain ⟨hb6, hfree⟩ := h.of_free hb.lt hb.free
  obtain ⟨ha6, ha⟩ := h.addr_range hs
  have hab : (D i).addrs indirect ≠ b := by
    have := hfree i 525 hs
    rwa [place_indirect] at this
  have hb64 : b < 2 ^ 64 := lt_trans hb.lt (by decide)
  -- the block numbers in the indirect block of inode `i`
  have hentry : ∀ m, 13 ≤ m → m < 525 →
      place (entryStored disk ((D i).addrs indirect) (n - 13) b) (D i) m =
        if m = n then b else place disk (D i) m := by
    intro m h1 h2
    rw [place_entry h1 h2 (by omega), place_entry h1 h2 (by omega), entryStored, upd_self,
      allocated_of_ne (by omega) hab, getAddr_putAddr _ _ _ hb64]
    congr 1
    exact propext (by omega)
  have hother : ∀ j m, j < 96 → m < 526 → ¬ (j = i ∧ m = n) →
      place (entryStored disk ((D i).addrs indirect) (n - 13) b) (D j) m = place disk (D j) m := by
    intro j m hj hm hne
    by_cases hji : j = i ∧ 13 ≤ m ∧ m < 525
    · obtain ⟨rfl, h1, h2⟩ := hji
      rw [hentry m h1 h2, if_neg fun e => hne ⟨rfl, e⟩]
    · refine place_congr rfl fun h1 h2 ha0 => ?_
      have hsj : S j 525 := h.tight hj (by omega) (by simpa using ha0)
      have hne' : (D j).addrs indirect ≠ (D i).addrs indirect := by
        intro he
        have := h.inj hsj hs (by simpa using he)
        exact hji ⟨this.1, h1, h2⟩
      have := h.allocated_eq hb hsj
      rw [place_indirect] at this
      rw [entryStored, upd_of_ne hne', this]
  have hp : ∀ j m, S j m →
      place (entryStored disk ((D i).addrs indirect) (n - 13) b) (D j) m = place disk (D j) m := by
    intro j m hj
    refine hother j m (h.dom hj).1 (h.dom hj).2 ?_
    rintro ⟨rfl, rfl⟩
    exact hfresh hj
  have hnew : place (entryStored disk ((D i).addrs indirect) (n - 13) b) (D i) n = b := by
    rw [hentry n hn hn', if_pos rfl]
  have hbit : ∀ c < 4096, bitSet (entryStored disk ((D i).addrs indirect) (n - 13) b 2) c =
      (decide (c = b) || bitSet (disk 2) c) := by
    intro c _
    rw [entryStored, upd_of_ne (by omega), bitSet_allocated hb6]
  have howns := h.insert (h.dom hs).1 (by omega) (fun _ => Or.inr hs) hb.lt hb.free hp hnew hbit
  refine ⟨⟨howns, ?_⟩, hp _ _, ?_⟩
  · intro j m hj hm hne
    by_cases hjm : j = i ∧ m = n
    · exact Or.inr hjm
    · rw [hother j m hj hm hjm] at hne
      exact Or.inl (h.tight hj hm hne)
  · intro j m hj hm
    have hne : place disk (D j) m ≠ (D i).addrs indirect := by
      intro he
      exact hm (h.inj hj hs (by simpa using he)).2
    rw [entryStored, upd_of_ne hne, h.allocated_eq hb hj]

end

/-! ## Files that grow by one block -/

theorem Files.of_iff {disk : Nat → Bytes} {D : Nat → Dinode} {S S' : Nat → Nat → Prop} (h : Files disk D S)
    (hS : ∀ j m, S j m ↔ S' j m) : Files disk D S' := by
  have : S = S' := funext fun j => funext fun m => propext (hS j m)
  rwa [← this]

/-- Blocks that a file of `k` blocks takes on disk, its indirect block included. -/
def blocksFor (k : Nat) : Nat := k + if 13 < k then 1 else 0

theorem blocksFor_direct {k : Nat} (h : k ≤ 13) : blocksFor k = k := by
  simp [blocksFor, Nat.not_lt.mpr h]

theorem blocksFor_indirect {k : Nat} (h : 13 < k) : blocksFor k = k + 1 := by
  simp [blocksFor, h]

/-- The inode `i` has become `d`, with the zeroed block `b` as its next logical block. -/
structure Grown (disk : Nat → Bytes) (D : Nat → Dinode) (K : Nat → Nat) (i : Nat) (disk' : Nat → Bytes)
    (d : Dinode) (b : Nat) : Prop where
  files : Files disk' (upd D i d) (shape (upd K i (K i + 1)))
  keeps : Keeps disk D (shape K) disk' (upd D i d)
  sameMeta : d = { D i with addrs := d.addrs }
  place : place disk' d (K i) = b
  zero : disk' b = fun _ => 0
  free : freeBlocks disk' + blocksFor (K i + 1) = freeBlocks disk + blocksFor (K i)
  head : ∀ c < 6, c ≠ 2 → disk' c = disk c

section

variable {disk : Nat → Bytes} {D : Nat → Dinode} {K : Nat → Nat} {i b c : Nat}

theorem shape_grow (hi : i < 96) (hne : K i ≠ 13) (j m : Nat) :
    shape K j m ∨ j = i ∧ m = K i ↔ shape (upd K i (K i + 1)) j m := by
  by_cases hj : j = i
  · subst hj
    simp only [shape, upd_self, true_and]
    omega
  · simp [shape, hj]

theorem Grown.direct (h : Files disk D (shape K)) (hi : i < 96) (hK : K i < 13) (hb : IsLowestFree disk b) :
    Grown disk D K i (allocated disk b) ((D i).withAddr (Fin.ofNat 14 (K i)) b) b := by
  have hb6 := (h.of_free hb.lt hb.free).1
  have hp := placeOf_ofNat hK
  have hfresh : ¬ shape K i (placeOf (Fin.ofNat 14 (K i))) := by
    rw [hp, shape]
    omega
  obtain ⟨hfiles, hkeeps⟩ := h.alloc_slot hb hi hfresh
  rw [hp] at hfiles
  refine ⟨hfiles.of_iff (shape_grow hi (by omega)), hkeeps, rfl, ?_, allocated_self, ?_, ?_⟩
  · rw [place_direct hK, Dinode.withAddr_self]
  · have := freeBlocks_allocated hb6 hb rfl
    rw [blocksFor_direct (by omega), blocksFor_direct (by omega)]
    omega
  · exact fun c hc h2 => allocated_of_ne h2 (by omega)

theorem Grown.entry (h : Files disk D (shape K)) (hi : i < 96) (hK : 13 < K i) (hK' : K i < 525)
    (hb : IsLowestFree disk b) :
    Grown disk D K i (entryStored disk ((D i).addrs indirect) (K i - 13) b) (D i) b := by
  have hs : shape K i 525 := ⟨hi, Or.inr ⟨rfl, hK⟩⟩
  have hfresh : ¬ shape K i (K i) := by
    rw [shape]
    omega
  obtain ⟨hb6, hfree⟩ := h.of_free hb.lt hb.free
  obtain ⟨ha6, ha⟩ := h.addr_range hs
  have hab : b ≠ (D i).addrs indirect := by
    have := hfree i 525 hs
    rw [place_indirect] at this
    exact this.symm
  obtain ⟨hfiles, hkeeps⟩ := h.alloc_entry hb hs (by omega) hK' hfresh
  have hfiles' := hfiles.of_iff (shape_grow hi (by omega))
  refine ⟨by rwa [upd_eta], by rwa [upd_eta], rfl, ?_, ?_, ?_, ?_⟩
  · rw [place_entry (by omega) hK' (by omega), entryStored, upd_self,
      getAddr_putAddr _ _ _ (lt_trans hb.lt (by decide)), if_pos rfl]
  · rw [entryStored, upd_of_ne hab, allocated_self]
  · have := freeBlocks_allocated hb6 hb
      (show entryStored disk ((D i).addrs indirect) (K i - 13) b 2 = allocated disk b 2 from
        upd_of_ne (by omega) _ _)
    rw [blocksFor_indirect (by omega), blocksFor_indirect hK]
    omega
  · intro c hc h2
    rw [entryStored, upd_of_ne (by omega), allocated_of_ne h2 (by omega)]

/-- The block after the direct ones takes two: the indirect block and its first entry. -/
theorem Grown.first_entry (h : Files disk D (shape K)) (hi : i < 96) (hK : K i = 13)
    (hb : IsLowestFree disk b) (hc : IsLowestFree (allocated disk b) c) :
    Grown disk D K i (entryStored (allocated disk b) b 0 c) ((D i).withAddr indirect b) c := by
  obtain ⟨hb6, hfree⟩ := h.of_free hb.lt hb.free
  have hfresh : ¬ shape K i (placeOf indirect) := by
    rw [placeOf_indirect, shape]
    omega
  obtain ⟨h1, k1⟩ := h.alloc_slot hb hi hfresh
  rw [placeOf_indirect] at h1
  have ha : (upd D i ((D i).withAddr indirect b) i).addrs indirect = b := by
    rw [upd_self, Dinode.withAddr_self]
  have hs : shape K i 525 ∨ i = i ∧ 525 = 525 := Or.inr ⟨rfl, rfl⟩
  obtain ⟨hc6, hcfree⟩ := h1.of_free hc.lt hc.free
  have hcb : c ≠ b := by
    have := hcfree i 525 hs
    rw [place_indirect, ha] at this
    exact this.symm
  obtain ⟨h2, k2⟩ := h1.alloc_entry hc hs (le_refl 13) (by omega) (by rw [shape]; omega)
  rw [ha] at h2 k2
  refine ⟨h2.of_iff ?_, k1.trans k2 Or.inl, rfl, ?_, ?_, ?_, ?_⟩
  · intro j m
    by_cases hj : j = i
    · subst hj
      simp only [shape, upd_self, true_and]
      omega
    · simp [shape, hj]
  · rw [hK, place_entry (le_refl 13) (by omega) (by simp; omega), Dinode.withAddr_self, entryStored, upd_self,
      getAddr_putAddr _ _ _ (lt_trans hc.lt (by decide)), if_pos rfl]
  · rw [entryStored, upd_of_ne hcb, allocated_self]
  · have e1 := freeBlocks_allocated hb6 hb rfl
    have e2 := freeBlocks_allocated hc6 hc
      (show entryStored (allocated disk b) b 0 c 2 = allocated (allocated disk b) c 2 from
        upd_of_ne (by omega) _ _)
    rw [hK, blocksFor_indirect (by omega), blocksFor_direct (le_refl 13)]
    omega
  · intro x hx h2
    rw [entryStored, upd_of_ne (by omega), allocated_of_ne h2 (by omega), allocated_of_ne h2 (by omega)]

end

/-! ## The code -/

variable {s : State} {ip : Slot} {D : Nat → Dinode} {S : Nat → Nat → Prop} {K : Nat → Nat} {i bn : Nat}

/-- The state with a cache entry replaced. -/
def State.withInode (s : State) (ip : Slot) (x : Inode) : State := { s with inodes := upd s.inodes ip x }

@[simp] theorem State.withInode_self (s : State) (ip : Slot) (x : Inode) : (s.withInode ip x).inodes ip = x :=
  upd_self _ _ _

@[simp] theorem State.withInode_disk (s : State) (ip : Slot) (x : Inode) : (s.withInode ip x).disk = s.disk := rfl

@[simp] theorem State.withInode_withInode (s : State) (ip : Slot) (x y : Inode) :
    (s.withInode ip x).withInode ip y = s.withInode ip y := by
  simp [State.withInode]

/-- The state with the inode data of a cache entry replaced. -/
def State.withDinode (s : State) (ip : Slot) (d : Dinode) : State :=
  s.withInode ip { s.inodes ip with toDinode := d }

@[simp] theorem wp_modifyInode {Q : Unit → State → Prop} {E : Halt → Prop} (f : Inode → Inode) :
    Wp (modifyInode ip f) Q E s ↔ Q () (s.withInode ip (f (s.inodes ip))) := Iff.rfl

@[simp] theorem wp_setAddr {Q : Unit → State → Prop} {E : Halt → Prop} (k : Fin 14) (v : Nat) :
    Wp (setAddr ip k v) Q E s ↔ Q () (s.withDinode ip ((s.inodes ip).toDinode.withAddr k v)) := Iff.rfl

/-- A block in use is found and nothing changes. -/
theorem bmap_hit (h : Files s.disk D S) (hdev : (s.inodes ip).dev = 0) (hd : (s.inodes ip).toDinode = D i)
    (hs : S i bn) (hbn : bn < 525) :
    Wp (bmap ip bn) (fun b s' => b = place s.disk (D i) bn ∧ s' = s) (fun _ => False) s := by
  have hr := h.range hs
  unfold bmap
  rw [wp_bind, wp_get, wp_ite, hdev, hd]
  refine ⟨fun hlt => ?_, fun hge => ?_⟩
  · rw [place_direct hlt] at hr ⊢
    rw [wp_ite]
    exact ⟨fun h0 => by omega, fun _ => ⟨rfl, rfl⟩⟩
  · have h13 : 13 ≤ bn := Nat.not_lt.mp hge
    obtain ⟨ha6, ha⟩ := h.addr_range (h.closed hs h13)
    have ha0 : (D i).addrs indirect ≠ 0 := by omega
    rw [place_entry h13 hbn ha0] at hr ⊢
    rw [if_pos (by simp; omega), if_neg ha0, wp_bind, wp_pure, wp_bind, wp_bread ha, wp_ite]
    exact ⟨fun h0 => by simp at h0; omega, fun _ => ⟨rfl, rfl⟩⟩

/-- The block after the last one is allocated. -/
theorem bmap_grow (hsb : s.sb = stdSb) (h : Files s.disk D (shape K)) (hdev : (s.inodes ip).dev = 0)
    (hd : (s.inodes ip).toDinode = D i) (hi : i < 96) (hK : K i < 525) :
    Wp (bmap ip (K i)) (fun b s' => ∃ disk' d, s' = { s with disk := disk' }.withDinode ip d ∧
        Grown s.disk D K i disk' d b)
      (fun e => e = .panic "balloc: oob" ∧
        freeBlocks s.disk + blocksFor (K i) < blocksFor (K i + 1)) s := by
  have hempty : ∀ n < 526, ¬ shape K i n → place s.disk (D i) n = 0 := fun n hn hns =>
    by_contra fun h0 => hns (h.tight hi hn h0)
  unfold bmap
  rw [wp_bind, wp_get, hdev, hd]
  by_cases hdir : K i < 13
  · have h0 : (D i).addrs (Fin.ofNat 14 (K i)) = 0 := by
      rw [← place_direct hdir s.disk]
      exact hempty _ (by omega) (by rw [shape]; omega)
    rw [if_pos (by simpa using hdir), if_pos h0]
    refine Wp.seq (balloc_spec hsb) (fun e he => ⟨he.1, ?_⟩) ?_
    · rw [he.2, blocksFor_direct (by omega), blocksFor_direct (by omega)]
      omega
    · rintro b _ ⟨hb, rfl⟩
      refine ⟨allocated s.disk b, (D i).withAddr (Fin.ofNat 14 (K i)) b, ?_, Grown.direct h hi hdir hb⟩
      rw [← hd]
      rfl
  · rw [if_neg (by simpa using hdir), if_pos (by simp; omega)]
    by_cases h13 : K i = 13
    · have h0 : (D i).addrs indirect = 0 := by
        rw [← place_indirect s.disk]
        exact hempty _ (by omega) (by rw [shape]; omega)
      rw [if_pos h0]
      refine Wp.seq (balloc_spec hsb) (fun e he => ⟨he.1, ?_⟩) ?_
      · rw [he.2, h13, blocksFor_direct (le_refl 13), blocksFor_indirect (by omega)]
        omega
      · rintro b _ ⟨hb, rfl⟩
        have hb6 := (h.of_free hb.lt hb.free).1
        rw [wp_bind, wp_setAddr, wp_bind, wp_pure, wp_bind, wp_bread hb.lt]
        have hz : getAddr (allocated s.disk b b) (K i - ndirect) = 0 := by
          rw [allocated_self, getAddr_zero]
        rw [State.withDinode, State.withInode, if_pos hz]
        refine Wp.seq (balloc_spec hsb) (fun e he => ⟨he.1, ?_⟩) ?_
        · have hfree := freeBlocks_allocated hb6 hb rfl
          have he2 : freeBlocks (allocated s.disk b) = 0 := he.2
          rw [h13, blocksFor_direct (le_refl 13), blocksFor_indirect (by omega)]
          omega
        · rintro c _ ⟨hc, rfl⟩
          refine ⟨entryStored (allocated s.disk b) b 0 c, (D i).withAddr indirect b, ?_,
            Grown.first_entry h hi h13 hb hc⟩
          rw [← hd, h13]
          rfl
    · have hs : shape K i 525 := ⟨hi, Or.inr ⟨rfl, by omega⟩⟩
      obtain ⟨ha6, ha⟩ := h.addr_range hs
      have hz : getAddr (s.disk ((D i).addrs indirect)) (K i - ndirect) = 0 := by
        have := hempty (K i) (by omega) (by rw [shape]; omega)
        rwa [place_entry (by omega) hK (by omega)] at this
      rw [if_neg (by omega), wp_bind, wp_pure, wp_bind, wp_bread ha, if_pos hz]
      refine Wp.seq (balloc_spec hsb) (fun e he => ⟨he.1, ?_⟩) ?_
      · rw [he.2, blocksFor_indirect (by omega), blocksFor_indirect (by omega)]
        omega
      · rintro b _ ⟨hb, rfl⟩
        refine ⟨entryStored s.disk ((D i).addrs indirect) (K i - 13) b, D i, ?_,
          Grown.entry h hi (by omega) hK hb⟩
        rw [State.withDinode, State.withInode, ← hd, upd_eta]
        rfl

end Xv6.Fs
