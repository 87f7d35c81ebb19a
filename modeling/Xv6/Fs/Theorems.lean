import Xv6.Fs.Lemmas.Blocks
import Xv6.Fs.Lemmas.Mount

/-!
# The file system: main results

What `mkfs` writes is what the kernel reads, and a path name is resolved name by name.
-/

namespace Xv6.Fs

open Xv6.Lib Xv6.Mkfs

/-- The absolute path of a packed file has one element, its name. -/
theorem skipElem_packed : ∀ name ∈ fileNames,
    (cstr (slash :: name)).headD 0 = slash ∧ skipElem (cstr (slash :: name)) = some (some name, []) := by
  decide

/-- The kernel finds a packed file under its name, with the contents of the host file. -/
theorem readFile_mount {host : Host} {disk : Nat → Bytes} {N : Nat → Node} {name : List UInt8} (h : IsImage host disk N)
    (hname : name ∈ fileNames) (console : Nat → Option (List UInt8)) (cwd : Slot) :
    ∃ t, readFile cwd (slash :: name) (State.mount disk console) = .ok (host name, t) := by
  obtain ⟨f, x, hf, -, hbind, hx⟩ := h.packed name hname
  obtain ⟨habs, hskip⟩ := skipElem_packed name hname
  have hnode := node_mount h console
  have hspec : Wp (readFile cwd (slash :: name)) _ _ (State.mount disk console) := readFile_spec (x := x)
    (quiet_mount h) not_crowded_mount (by rw [hnode]; exact h.flat.not_dangling) (not_runaway_of_skipElem hskip) habs
    (by rw [hnode]; exact resolve_root h.flat.tree.root habs hskip hbind) (by rw [hnode, hx])
  rw [hnode, hx] at hspec
  obtain ⟨_, t, hr, rfl, -⟩ := hspec.returns
  exact ⟨t, by rw [hr, hf]⟩

/-- `mkfs` and the kernel agree: host files of at most `13 + 512` blocks are packed into an image that stays
inside the disk and the inode table, owns its blocks, has no holes, and in which the kernel finds every file
with its bytes. A larger file makes `mkfs` exit. -/
theorem mkfs_agrees (host : Host) :
    ((∀ name ∈ fileNames, ∃ f, host name = some f ∧ f.length ≤ (ndirect + nindirect) * bsize) →
      ∃ s, main host init = .ok ((), s) ∧ image host = some s.disk ∧
        s.bump ≤ nblocks ∧ (∀ b, nblocks ≤ b → s.disk b = fun _ => 0) ∧ s.ibump ≤ sb.nInodes ∧
        BlocksOwned (getSb (s.disk 1)) s.disk ∧
        (∀ i < sb.nInodes, HoleFree s.disk (dinodeOf (getSb (s.disk 1)) s.disk i)) ∧
        ∀ name ∈ fileNames, ∀ console cwd, ∃ t,
          readFile cwd (slash :: name) (State.mount s.disk console) = .ok (host name, t)) ∧
    ((∃ name ∈ fileNames, ∃ f, host name = some f ∧ (ndirect + nindirect) * bsize < f.length) → image host = none) := by
  refine ⟨fun h => ?_, ?_⟩
  · have hsome : (image host).isSome := image_isSome.mpr fun name hname hbad => by
      obtain ⟨f, hf, hle⟩ := h name hname
      exact absurd (hbad f hf) (Nat.not_lt.mpr hle)
    obtain ⟨disk, hd⟩ := Option.isSome_iff_exists.mp hsome
    obtain ⟨s, N, hm, rfl, hb, hib, hN⟩ := image_some hd
    refine ⟨s, hm, hd, hb.high, fun b hle => hb.zero b (le_trans hb.high hle), hib, ?_, ?_, ?_⟩
    · rw [hN.sb]
      exact hN.wf.blocksOwned
    · rw [hN.sb]
      exact fun i hi => hN.wf.holeFree hi
    · exact fun name hname console cwd => readFile_mount hN hname console cwd
  · rintro ⟨name, hname, f, hf, hlt⟩
    rw [← Option.not_isSome_iff_eq_none, image_isSome]
    intro h
    refine h name hname fun g hg => ?_
    rw [hf] at hg
    obtain rfl := Option.some.inj hg
    exact hlt

/-- Host files that hold their own names and a newline. -/
theorem mkfs_agrees_names : ∃ s, main (fun name => some (name ++ [10])) init = .ok ((), s) ∧
    ∃ t, readFile ⟨0, by decide⟩ [slash, 108, 115] (State.mount s.disk fun _ => none) =
      .ok (some [108, 115, 10], t) := by
  have hfits : ∀ name ∈ fileNames, (name ++ [10]).length ≤ (ndirect + nindirect) * bsize := by decide
  obtain ⟨s, hm, -, -, -, -, -, -, hread⟩ := (mkfs_agrees fun name => some (name ++ [10])).1 fun name hname =>
    ⟨_, rfl, hfits name hname⟩
  exact ⟨s, hm, hread [108, 115] (by decide) _ _⟩

/-! ## Path names -/

/-- A call that took the references `e` and changed nothing else: the nodes are the same, and no lock is held. -/
structure Took (s : State) (e : Slot → Nat) (s' : State) : Prop where
  node : s'.node = s.node
  ref : ∀ jp, (s'.cell jp).ref = (s.cell jp).ref + e jp
  unlocked : ∀ jp, (s'.cell jp).locked = false

theorem During.took {s s' : State} {e : Slot → Nat} (h : During s.cell s.console s.node e (fun _ => false) s') :
    Took s e s' :=
  ⟨h.node, h.held.ref, fun jp => h.locked_eq jp⟩

/-- `balloc` gives the lowest free block out, zeroed, and changes nothing else; `bfree` clears the bit of its block and
no other, so that it takes back what `balloc` did to the bitmap. -/
theorem bitmap_exact {n : Nat} {s : State} (hsz : s.sb.size < 2 ^ 64) (hin : ∀ b < s.sb.size, bblock b s.sb < n)
    (hm : BitmapMarked s.sb s.disk) :
    Wp (ballocOn n 0) (fun b s' => b < n ∧ LowestClear s.sb s.disk b ∧ GivenOut s.sb b s.disk s'.disk ∧
      s' = { s with disk := s'.disk } ∧ ∃ s'', bfreeOn n 0 b s' = .ok ((), s'') ∧ ∀ c < s.sb.size,
        s''.disk (bblock c s.sb) = s.disk (bblock c s.sb)) (BallocFails n s) s ∧
    ∀ b, bblock b s.sb < n → marked s.sb s.disk b = true → ∃ s', bfreeOn n 0 b s = .ok ((), s') ∧
      s' = { s with disk := s'.disk } ∧
        (∀ i, bitSet (s'.disk (bblock b s.sb)) i = (decide (i ≠ b % bpb) && bitSet (s.disk (bblock b s.sb)) i)) ∧
      (∀ c ≠ bblock b s.sb, s'.disk c = s.disk c) ∧
      ∀ c s'', ballocOn n 0 s' = .ok (c, s'') → marked s.sb s'.disk c = false := by
  refine ⟨(ballocOn_spec hsz hin).post ?_, fun b hb hset => ?_⟩
  · rintro b s' ⟨hb, hlow, rfl⟩
    have hmark : marked s.sb (taken s.sb s.disk b) b = true := by
      rw [marked, (hlow.givenOut hm).bits b hlow.lt _ (Nat.mod_lt _ (by decide)),
        decide_eq_true ⟨rfl, rfl⟩, Bool.true_or]
    obtain ⟨_, s'', hok, rfl⟩ := (bfreeOn_spec (s := { s with disk := taken s.sb s.disk b })
      (hin b hlow.lt) hmark).returns
    exact ⟨hb, hlow, hlow.givenOut hm, rfl, _, hok, fun c hc => bfree_taken hlow hm hc⟩
  · obtain ⟨_, s', hok, rfl⟩ := (bfreeOn_spec hb hset).returns
    refine ⟨_, hok, rfl, fun i => ?_, fun c hc => upd_of_ne hc _ _, fun c s'' hok' => ?_⟩
    · dsimp only
      rw [upd_self, bitSet_clearBit]
    · have hspec := ballocOn_spec (n := n)
        (s := { s with disk := upd s.disk (bblock b s.sb) (clearBit (s.disk (bblock b s.sb)) (b % bpb)) }) hsz hin
      exact (hspec.of_ok hok').2.1.clear

/-- A file system with two bitmap blocks, the first of them full. -/
def twoBitmapBlocks : State :=
  ⟨upd (fun _ _ => 0) 2 fun _ => 255, { stdSb with size := 40000 }, fun _ => Inode.empty, fun _ => none⟩

theorem bitSet_ones (bi : Nat) : bitSet (fun _ => 255) bi = true := by
  have hones : ∀ j < 8, (255 : UInt8).toNat.testBit j = true := by decide
  rw [bitSet_iff]
  exact hones _ (Nat.mod_lt bi (by decide))

theorem twoBitmapBlocks_lowest : LowestClear twoBitmapBlocks.sb twoBitmapBlocks.disk 32768 := by
  refine ⟨by decide, bitSet_zero _, fun c hc => ?_⟩
  have hb : bblock c twoBitmapBlocks.sb = 2 := by
    simp only [bblock, bpb, bsize, twoBitmapBlocks, stdSb]
    omega
  rw [marked, hb]
  exact bitSet_ones _

theorem twoBitmapBlocks_bblock {b : Nat} (h : b < twoBitmapBlocks.sb.size) : bblock b twoBitmapBlocks.sb < 4 := by
  simp only [bblock, bpb, bsize, twoBitmapBlocks, stdSb] at h ⊢
  omega

theorem twoBitmapBlocks_marked : BitmapMarked twoBitmapBlocks.sb twoBitmapBlocks.disk := fun _ hb _ =>
  twoBitmapBlocks_lowest.least _ (Nat.lt_trans (twoBitmapBlocks_bblock hb) (by decide))

/-- The first block of the second bitmap block is given out. -/
theorem bitmap_exact_second : ∃ s', ballocOn 40000 0 twoBitmapBlocks = .ok (32768, s') := by
  obtain ⟨hw, -⟩ := bitmap_exact (n := 40000) (s := twoBitmapBlocks) (by decide)
    (fun b hb => Nat.lt_trans (twoBitmapBlocks_bblock hb) (by decide)) twoBitmapBlocks_marked
  obtain ⟨b, s', hok, -, hlow, -⟩ := hw.returns_of fun e he => by
    rcases he with ⟨-, hall⟩ | ⟨-, c, hc, hlow⟩
    · have h0 := hall 32768 twoBitmapBlocks_lowest.lt
      rw [twoBitmapBlocks_lowest.clear] at h0
      cases h0
    · exact absurd hlow.lt (Nat.not_lt.mpr hc)
  rw [hlow.unique twoBitmapBlocks_lowest] at hok
  exact ⟨s', hok⟩

/-- On the disk of the image, which has 4096 blocks, that block is missing. -/
theorem balloc_outside : BitmapMarked twoBitmapBlocks.sb twoBitmapBlocks.disk ∧
    (∀ b < twoBitmapBlocks.sb.size, bblock b twoBitmapBlocks.sb < nblocks) ∧
    32768 < twoBitmapBlocks.sb.size ∧ marked twoBitmapBlocks.sb twoBitmapBlocks.disk 32768 = false ∧
    balloc 0 twoBitmapBlocks = .error (.panic "rd_rw: block out of range") := by
  have hin : ∀ b < twoBitmapBlocks.sb.size, bblock b twoBitmapBlocks.sb < nblocks := fun b hb =>
    Nat.lt_trans (twoBitmapBlocks_bblock hb) (by decide)
  refine ⟨twoBitmapBlocks_marked, hin, by decide, twoBitmapBlocks_lowest.clear, ?_⟩
  have hspec := ballocOn_spec (n := nblocks) (s := twoBitmapBlocks) (by decide) hin
  cases hres : balloc 0 twoBitmapBlocks with
  | ok r =>
      obtain ⟨hb, hlow, -⟩ := hspec.of_ok hres
      rw [hlow.unique twoBitmapBlocks_lowest] at hb
      exact absurd hb (by decide)
  | error e =>
      rcases hspec.of_error hres with ⟨-, hall⟩ | ⟨rfl, -⟩
      · have h0 := hall 32768 twoBitmapBlocks_lowest.lt
        rw [twoBitmapBlocks_lowest.clear] at h0
        cases h0
      · rfl

end Xv6.Fs
