import Xv6.Fs.Lemmas.Binding
import Xv6.Fs.Lemmas.Mkfs

/-!
# The image that the builder writes

`main` lays down a root directory, the console and the packed files. `image_spec` says that it ends with a
disk that is well formed and has these nodes, or exits because of a file that it cannot pack.
-/

namespace Xv6.Mkfs

open Xv6.Lib Xv6.Fs

-- the steps are taken by their specifications, never by evaluation
attribute [local irreducible] Bytes.le dialloc modifyInode dirLink file2i addFile

section

variable {s : State} {N : Nat → Node} {i : Nat} {E : Halt → Prop}

/-! ## The contents of a file -/

theorem blocksFor_le {k : Nat} (h : k ≤ 525) : blocksFor k ≤ 526 := by
  have := blocksFor_mono h
  rwa [blocksFor_indirect (k := 525) (by decide)] at this

theorem overlay_length (l w : List UInt8) : overlay l l.length w = l ++ w := by
  rw [overlay, List.take_length, List.drop_eq_nil_of_le (Nat.le_add_right _ _), List.append_nil]

theorem file2i_none (i : Nat) (s : State) : Wp (file2i i none) (fun r s' => r = -1 ∧ s' = s) E s := by
  unfold file2i
  rw [wp_bind, wp_get, wp_ite]
  exact ⟨fun _ => ⟨rfl, rfl⟩, fun _ => ⟨rfl, rfl⟩⟩

/-- A file is packed block by block, or refused when it is larger than an inode can map. -/
theorem file2i_spec {f : List UInt8} (h : Built s N) (hi : i < s.ibump) (hi' : i < 96) (htype : (N i).type = tFile)
    (hdata : (N i).data = []) (hroom : 526 ≤ freeBlocks s.disk) :
    Wp (file2i i (some f)) (fun r s' =>
      r = 0 ∧ f.length ≤ 525 * 4096 ∧ s'.ibump = s.ibump ∧ freeBlocks s.disk ≤ freeBlocks s'.disk + 526 ∧
        Built s' (upd N i { N i with data := f }) ∨
      r = -1 ∧ 525 * 4096 < f.length) E s := by
  have hne : (N i).type ≠ 0 := by
    rw [htype]
    decide
  unfold file2i
  rw [wp_bind, wp_get, wp_ite]
  refine ⟨fun hbad => absurd ?_ hbad, fun _ => ?_⟩
  · rw [inode_eq s hi', ← htype, ← h.node i]
    rfl
  · dsimp only
    -- `l` is what the blocks before `off` hold
    refine wp_loop (fun p t => ∃ l, f = l ++ p.2 ∧ p.1 = l.length ∧ l.length % 4096 = 0 ∧ l.length ≤ 525 * 4096 ∧
      t.ibump = s.ibump ∧ freeBlocks t.disk + blocksFor (blocksOf l.length) = freeBlocks s.disk ∧
      Built t (upd N i { N i with data := l })) (fun p => p.2.length) ?_ _ _ _ ?_ (Nat.lt_succ_self _)
    · rintro ⟨off, rest⟩ t ⟨l, hf, hoff, hmod, hle, hib, hfb, hb⟩
      dsimp only at hf hoff
      subst hoff
      have hdone : ∀ {u : State} {r : List UInt8}, l ++ r = f → l.length + r.length ≤ 525 * 4096 → u.ibump = t.ibump →
          freeBlocks u.disk + blocksFor (blocksOf (l.length + r.length)) = freeBlocks s.disk →
          Built u (upd N i { N i with data := l ++ r }) →
          f.length ≤ 525 * 4096 ∧ u.ibump = s.ibump ∧ freeBlocks s.disk ≤ freeBlocks u.disk + 526 ∧
            Built u (upd N i { N i with data := f }) := by
        intro u r hlr hlen hu hfu hbu
        have hk : blocksOf (l.length + r.length) ≤ 525 := by
          simp only [blocksOf]
          omega
        have := blocksFor_le hk
        rw [hlr] at hbu
        refine ⟨?_, hu.trans hib, by omega, hbu⟩
        rw [← hlr, List.length_append]
        exact hlen
      dsimp only
      rw [wp_ite]
      refine ⟨fun hn => ?_, fun hn => ?_⟩
      · have hlen : (rest.take 4096).length = min 4096 rest.length := List.length_take
        have hsl : Bytes.slice (fun k => (rest.take 4096).getD k 0) 0 (rest.take 4096).length = rest.take 4096 :=
          slice_getD _
        by_cases hfits : l.length + (rest.take 4096).length ≤ 525 * 4096
        · have hup : upd N i { N i with data := l } i = { N i with data := l } := upd_self _ _ _
          have hmax : max (blocksOf l.length) (blocksOf (l.length + (rest.take 4096).length)) =
              blocksOf (l.length + (rest.take 4096).length) := by
            simp only [blocksOf]
            omega
          have hk : blocksOf (l.length + (rest.take 4096).length) ≤ 525 := by
            simp only [blocksOf]
            omega
          have hle' := blocksFor_le hk
          refine Wp.bind (writei_spec l.length (n := (rest.take 4096).length) hb (by omega) hi'
            (by rw [hup]; exact hne) (by rw [hup]) hfits ?_) ?_
          · rw [hup]
            dsimp only
            rw [hmax]
            omega
          · rintro r u ⟨rfl, hu, hfu, hbu⟩
            rw [hup] at hfu hbu
            dsimp only at hfu hbu
            rw [hmax] at hfu
            rw [show bsize = 4096 from rfl, hsl, overlay_length, upd_upd] at hbu
            rw [if_neg (by simp), wp_ite]
            refine ⟨fun hshort => ?_, fun hfull => ?_⟩
            · have hrest : rest.take 4096 = rest := List.take_of_length_le (by simp only [bsize] at hshort; omega)
              rw [hrest] at hfits hfu hbu
              exact Or.inl ⟨rfl, hdone hf.symm hfits hu (by omega) hbu⟩
            · simp only [bsize] at hfull
              refine ⟨⟨l ++ rest.take 4096, ?_, ?_, ?_, ?_, by rw [hu, hib], ?_, hbu⟩, ?_⟩
              · show f = l ++ rest.take 4096 ++ rest.drop 4096
                rw [List.append_assoc, List.take_append_drop]
                exact hf
              · exact List.length_append.symm
              · rw [List.length_append]
                omega
              · rw [List.length_append]
                exact hfits
              · rw [List.length_append]
                omega
              · show (rest.drop 4096).length < rest.length
                rw [List.length_drop]
                omega
        · have hlt : (rest.take 4096).length < 2 ^ 32 := by omega
          refine Wp.bind (writei_refuse l.length hb hi' (by rw [upd_self]) hlt (by omega)) ?_
          rintro r u ⟨rfl, rfl⟩
          rw [if_pos (by omega)]
          refine Or.inr ⟨rfl, ?_⟩
          rw [hf, List.length_append]
          omega
      · have hrest : rest = [] := by
          rw [List.length_pos_iff, not_not, List.take_eq_nil_iff] at hn
          simpa using hn
        subst hrest
        exact Or.inl ⟨rfl, hdone hf.symm (by simpa using hle) rfl (by simpa using hfb) (by simpa using hb)⟩
    · refine ⟨[], by simp, rfl, by simp, by simp, rfl, by simp [blocksOf, blocksFor], ?_⟩
      have heta : { N i with data := [] } = N i := by rw [← hdata]
      rw [heta, upd_eta]
      exact h

end

/-! ## The nodes while packing -/

/-- The nodes after a file or a device was added to the root directory. -/
def added (N : Nat → Node) (name : List UInt8) (x : Nat) (n : Node) : Nat → Node :=
  upd (upd N x n) 1 { N 1 with data := putEntry (N 1).data (freeEntry (N 1).data) (newEntry name x) }

/-- The root is the only directory, and names everything else. -/
structure Flat (N : Nat → Node) : Prop where
  tree : Tree N
  dirs : ∀ i, (N i).type = tDir → i = 1
  named : ∀ i, (N i).type ≠ 0 → i ≠ 1 → ∃ k, 2 ≤ k ∧ Entry N 1 k i

section

variable {N : Nat → Node} {name name' : List UInt8} {x : Nat} {n : Node}

theorem added_eq (hx : x ≠ 1) (hn : n.nlink = 1) (hd : n.type ≠ tDir) :
    added N name x n = upd (created N 1 name x n.type n.major n.minor) x
      { created N 1 name x n.type n.major n.minor x with data := n.data } := by
  have hnew : created N 1 name x n.type n.major n.minor x = ⟨n.type, n.major, n.minor, 1, []⟩ := by
    rw [created, upd_of_ne hx, upd_self, if_neg hd]
  rw [hnew, ← hn, created, if_neg hd, if_neg hd, upd_comm (Ne.symm hx), upd_upd]
  rfl

theorem Flat.add (h : Flat N) (hlook : lookup (N 1).data name = none) (hx : 2 ≤ x ∧ x < 96) (hfree : (N x).type = 0)
    (hn : n.nlink = 1) (hd : n.type ≠ tDir) (h0 : n.type ≠ 0) : Flat (added N name x n) := by
  have hx' : 1 ≤ x ∧ x < 96 := ⟨by omega, hx.2⟩
  have hroot := h.tree.root
  have heq : added N name x n = _ := added_eq (by omega) hn hd
  have hty : (created N 1 name x n.type n.major n.minor x).type = n.type := by
    rw [created_type hroot hfree, if_pos rfl]
  have htc : Tree (created N 1 name x n.type n.major n.minor) := h.tree.created hroot hlook hx' hfree h0
  have hent : ∀ {k j}, Entry (added N name x n) 1 k j ↔ Entry N 1 k j ∨ k = freeEntry (N 1).data ∧ j = x := by
    intro k j
    have h1 : added N name x n 1 = created N 1 name x n.type n.major n.minor 1 := by
      rw [heq, upd_of_ne (by omega)]
    rw [entry_congr h1, entry_created h.tree hroot hx' hfree]
    constructor
    · rintro (h | ⟨_, h⟩ | ⟨h, _⟩)
      · exact Or.inl h
      · exact Or.inr h
      · exact absurd h hd
    · exact fun h => h.imp id fun h => Or.inl ⟨rfl, h⟩
  have htype : ∀ j, (added N name x n j).type = if j = x then n.type else (N j).type := by
    intro j
    rw [heq, upd_apply]
    split
    · exact hty
    · rename_i hjx
      rw [created_type hroot hfree, if_neg hjx]
  refine ⟨?_, fun i hi => ?_, fun i hi h1 => ?_⟩
  · rw [heq]
    exact htc.setData (by rw [hty]; exact hd) (by rw [hty]; exact h0) _
  · rw [htype] at hi
    split at hi
    · exact absurd hi hd
    · exact h.dirs i hi
  · rw [htype] at hi
    split at hi
    · rename_i hix
      exact ⟨freeEntry (N 1).data, two_le_freeEntry h.tree hroot, hent.mpr (Or.inr ⟨rfl, hix⟩)⟩
    · obtain ⟨k, hk, he⟩ := h.named i hi h1
      exact ⟨k, hk, hent.mpr (Or.inl he)⟩

/-- Every node of a flat tree has a link. -/
theorem Flat.nlink_ne (h : Flat N) {i : Nat} (hi : (N i).type ≠ 0) : (N i).nlink ≠ 0 := by
  by_cases h1 : i = 1
  · subst h1
    obtain ⟨c, -, hc, hn⟩ := h.tree.dirLinks 1 h.tree.root
    rw [hn, hc (Or.inl rfl)]
    omega
  · have hnd : (N i).type ≠ tDir := fun hd => h1 (h.dirs i hd)
    obtain ⟨k, hk, he⟩ := h.named i hi h1
    rw [(h.tree.fileLinks i hi hnd).2 ⟨1, k, hk, he⟩]
    decide

/-- A flat tree has no dangling entries. -/
theorem Flat.not_dangling (h : Flat N) : ¬ Dangling N := by
  rintro ⟨d, k, i, he, h0⟩
  obtain rfl := h.dirs d he.dir
  have hroot := h.tree.root
  by_cases hk : 2 ≤ k
  · exact (h.tree.target hk he).1 h0
  · have : i = 1 := by
      have hk' : k = 0 ∨ k = 1 := by omega
      rcases hk' with rfl | rfl
      · exact he.inum.symm.trans (h.tree.dot 1 hroot).1
      · exact he.inum.symm.trans h.tree.rootParent
    subst this
    exact absurd (h0.symm.trans hroot) (by decide)

theorem binding_added (h : Flat N) (hlook : lookup (N 1).data name = none) (hx : 2 ≤ x ∧ x < 96)
    (hfree : (N x).type = 0) (hn : n.nlink = 1) (hd : n.type ≠ tDir) (h0 : n.type ≠ 0) :
    binding (added N name x n) 1 name' = if nameOf name' = nameOf name then some x else binding N 1 name' := by
  have h1 : added N name x n 1 = created N 1 name x n.type n.major n.minor 1 := by
    rw [added_eq (by omega) hn hd, upd_of_ne (by omega)]
  rw [binding_of_data (congrArg Node.data h1),
    binding_created h.tree h.tree.root hlook ⟨by omega, hx.2⟩ hfree h0 h.tree.root]
  simp

end

/-! ## Adding the files -/

/-- A host file that cannot be packed. -/
def Unfit (host : Host) (name : List UInt8) : Prop := ∀ f, host name = some f → 525 * 4096 < f.length

/-- The root binds the name to a file with the contents of the host file. -/
def Packed (host : Host) (N : Nat → Node) (name : List UInt8) : Prop :=
  ∃ f x, host name = some f ∧ f.length ≤ 525 * 4096 ∧ binding N 1 name = some x ∧ N x = ⟨tFile, 0, 0, 1, f⟩

/-- The nodes so far, and that the disk has `room` free blocks. -/
structure Packing (s : State) (N : Nat → Node) (room : Nat) : Prop where
  built : Built s N
  flat : Flat N
  inodes : 2 ≤ s.ibump
  entries : entryCount (N 1).data ≤ s.ibump
  room : room ≤ freeBlocks s.disk

section

variable {s : State} {N : Nat → Node} {name : List UInt8} {host : Host} {m : Nat} {E : Halt → Prop}

theorem Built.free (h : Built s N) {i : Nat} (hi : s.ibump ≤ i) : (N i).type = 0 := by
  rw [← h.node i, h.fresh i hi]
  rfl

theorem Built.major (h : Built s N) (i : Nat) : (dinodeOf stdSb s.disk i).major = (N i).major :=
  congrArg Node.major (h.node i)

theorem Built.minor (h : Built s N) (i : Nat) : (dinodeOf stdSb s.disk i).minor = (N i).minor :=
  congrArg Node.minor (h.node i)

/-- The new node `n` is in place, and gets its name. -/
theorem dirLink_added {t : State} {n : Node} {r : Nat} (h : Packing s N m) (hlt : s.ibump < 96)
    (hb : Built t (upd N s.ibump n)) (hib : t.ibump = s.ibump + 1) (hroom : r ≤ freeBlocks t.disk)
    (hn : n.nlink = 1) (hd : n.type ≠ tDir) (h0 : n.type ≠ 0) (hlook : lookup (N 1).data name = none) :
    Wp (dirLink 1 name s.ibump) (fun _ u => u.ibump = s.ibump + 1 ∧ Packing u (added N name s.ibump n) r) E t := by
  have hroot := h.flat.tree.root
  obtain ⟨hmod, htwo⟩ := h.flat.tree.size 1 hroot
  have hent := h.entries
  have htwo' := h.inodes
  have hlen : (N 1).data.length = 32 * entryCount (N 1).data := by
    unfold entryCount
    omega
  have h1 : upd N s.ibump n 1 = N 1 := upd_of_ne (by omega) _ _
  have hblocks : blocksOf (N 1).data.length = 1 := by
    simp only [blocksOf]
    omega
  refine Wp.post (dirLink_spec name s.ibump hb (by omega) (by decide) (by rw [h1, hroot]; decide)
    (congrArg Node.data h1) hmod (by omega) (by omega)) ?_
  rintro _ u ⟨hu, hfu, hbu⟩
  rw [h1] at hbu
  rw [hblocks] at hfu
  refine ⟨hu.trans hib, hbu, h.flat.add hlook ⟨htwo', hlt⟩ (h.built.free le_rfl) hn hd h0, by omega, ?_, by omega⟩
  have hsize : entryCount (added N name s.ibump n 1).data = max (entryCount (N 1).data) (freeEntry (N 1).data + 1) := by
    rw [added, upd_self]
    exact (putEntry_size hmod (freeEntry_le _)).1
  have := freeEntry_le (N 1).data
  omega

theorem addFile_spec (h : Packing s N (m + 526)) (hlt : s.ibump < 96) (hlook : lookup (N 1).data name = none) :
    Wp (addFile host 1 name) (fun _ u => ∃ f, host name = some f ∧ f.length ≤ 525 * 4096 ∧ u.ibump = s.ibump + 1 ∧
      Packing u (added N name s.ibump ⟨tFile, 0, 0, 1, f⟩) m) (fun _ => Unfit host name) s := by
  have hroom := h.room
  unfold addFile
  have hshort : IsShort tFile := isShort_small (by decide)
  have hne : tFile ≠ 0 := by decide
  have hdir : tFile ≠ tDir := by decide
  refine Wp.bind (dialloc_spec h.built hlt hshort hne) ?_
  rintro _ t ⟨rfl, hib, hbump, hb⟩
  refine Wp.bind (modifyInode_spec 1 0 0 hb (by omega) hlt (by rw [upd_self]; decide)
    ⟨isShort_small (by decide), isShort_small (by decide), isShort_small (by decide)⟩ (fun _ => rfl) ?_) ?_
  · exact ⟨(hb.major _).trans (by rw [upd_self]), (hb.minor _).trans (by rw [upd_self])⟩
  rintro _ t' ⟨hib', hbump', hb'⟩
  rw [upd_self, upd_upd] at hb'
  have hfree : freeBlocks t'.disk = freeBlocks s.disk := by
    have h1 := h.built.bump.free
    have h2 := hb'.bump.free
    omega
  cases hf : host name with
  | none =>
      refine Wp.bind (file2i_none _ t') ?_
      rintro _ _ ⟨rfl, rfl⟩
      rw [if_pos (by decide)]
      intro f hf'
      rw [hf] at hf'
      exact absurd hf' (by simp)
  | some f =>
      refine Wp.bind (file2i_spec hb' (by omega) hlt (by rw [upd_self]) (by rw [upd_self]) (by omega)) ?_
      rintro r u (⟨rfl, hlen, hu, hfu, hbu⟩ | ⟨rfl, hlen⟩)
      · rw [upd_self, upd_upd] at hbu
        rw [if_neg (by decide)]
        refine Wp.post (dirLink_added (n := ⟨tFile, 0, 0, 1, f⟩) (r := m) h hlt hbu (by omega) (by omega) rfl
          hdir hne hlook) ?_
        exact fun _ v hv => ⟨f, rfl, hlen, hv⟩
      · rw [if_pos (by decide)]
        intro g hg
        rw [hf] at hg
        rw [← Option.some.inj hg]
        exact hlen

end

/-! ## The empty disk and the root directory -/

/-- The block 1 that `main` stores. -/
def superBlock : Bytes :=
  ((((Bytes.putLe (fun _ => 0) 0 8 sb.size).putLe 8 8 sb.nBlocks).putLe 16 8 sb.nInodes).putLe
    24 8 sb.inodeStart).putLe 32 8 sb.bmapStart

theorem getSb_superBlock : getSb superBlock = stdSb := by decide +kernel

/-- The state of `main` before it allocates the root. -/
def formatted : State := { init with disk := upd (upd init.disk 1 superBlock) 2 (upd (fun _ => 0) 0 63) }

theorem bitSet_formatted (b : Nat) : bitSet (formatted.disk 2) b = true ↔ b < 6 := by
  show (bitSet (upd (fun _ => 0) 0 63) b = true) ↔ _
  by_cases hb : b < 8
  · interval_cases b <;> decide
  · have hne : b / 8 ≠ 0 := by omega
    rw [bitSet, upd_of_ne hne]
    simpa using by omega

theorem built_formatted : Built formatted fun _ => Node.zero := by
  have hz : ∀ b, 3 ≤ b → formatted.disk b = fun _ => 0 := fun b hb => by
    show upd (upd init.disk 1 _) 2 _ b = _
    rw [upd_of_ne (by omega), upd_of_ne (by omega)]
    rfl
  have hdi : ∀ i, dinodeOf stdSb formatted.disk i = Dinode.zero := by
    intro i
    unfold dinodeOf
    split
    · rw [hz _ (by unfold iblock; exact Nat.le_add_left _ _), getDinode_zero]
    · rfl
  have hempty : ∀ i n, ¬ shape (fun i => blocksOf (dinodeOf stdSb formatted.disk i).size) i n := by
    intro i n h
    simp only [shape, hdi, Dinode.zero, blocksOf] at h
    omega
  have hplace : ∀ i n, place formatted.disk (dinodeOf stdSb formatted.disk i) n = 0 := by
    intro i n
    simp [place, hdi, Dinode.zero]
  constructor
  · refine ⟨⟨⟨fun h => absurd h (hempty _ _), fun h => absurd h (hempty _ _), fun h => absurd h (hempty _ _),
      fun h => absurd h (hempty _ _), fun b _ => ?_⟩, fun _ _ h => absurd (hplace _ _) h⟩, fun i => ?_, fun i _ => ?_⟩
    · rw [bitSet_formatted]
      refine ⟨Or.inl, fun h => ?_⟩
      cases h with
      | inl hb => exact hb
      | inr hn =>
          obtain ⟨i, n, hs, -⟩ := hn
          exact absurd hs (hempty i n)
    · rw [hdi]
      exact Nat.zero_le _
    · rw [hdi]
      rfl
  · refine ⟨getSb_superBlock, le_rfl, by decide, fun b _ => bitSet_formatted b, fun b hb => hz b ?_⟩
    exact le_trans (by decide) hb
  · intro i
    rw [hdi]
    rfl
  · exact fun i _ => hdi i

/-- The nodes of a disk with an empty root directory. -/
def rootOnly : Nat → Node := upd (fun _ => Node.zero) 1 ⟨tDir, 0, 0, 1, dots 1 1⟩

theorem rootOnly_one : rootOnly 1 = ⟨tDir, 0, 0, 1, dots 1 1⟩ := upd_self _ _ _

theorem rootOnly_of_ne {i : Nat} (h : i ≠ 1) : rootOnly i = Node.zero := upd_of_ne h _ _

theorem flat_rootOnly : Flat rootOnly := by
  obtain ⟨hcount, hmod, h0, h1⟩ := dots_facts (x := 1) (d := 1) (by decide) (by decide) (by decide)
  have hdir : ∀ {d}, (rootOnly d).type = tDir → d = 1 := by
    intro d hd
    by_contra hne
    rw [rootOnly_of_ne hne] at hd
    exact absurd hd (by decide)
  have hfile : ∀ {d}, (rootOnly d).type ≠ 0 → d = 1 := by
    intro d hd
    by_contra hne
    rw [rootOnly_of_ne hne] at hd
    exact hd rfl
  have hent : ∀ {d k i}, Entry rootOnly d k i → d = 1 ∧ k < 2 ∧ i = 1 := by
    intro d k i h
    obtain rfl := hdir h.dir
    have hk := h.lt
    have hi := h.inum
    rw [rootOnly_one] at hk hi
    rw [hcount] at hk
    refine ⟨rfl, hk, hi.symm.trans ?_⟩
    interval_cases k
    · rw [h0]
      rfl
    · rw [h1]
      rfl
  have hnone : ∀ i, ¬ Named rootOnly i := by
    rintro i ⟨d, k, hk, h⟩
    have := (hent h).2.1
    omega
  have hsub : subdirs rootOnly 1 = ∅ := by
    rw [Finset.eq_empty_iff_forall_notMem]
    intro k hk
    simp only [subdirs, rootOnly_one, hcount, Finset.mem_filter, Finset.mem_range] at hk
    omega
  refine ⟨?_, fun i => hdir, fun i hi h1 => absurd (hfile hi) h1⟩
  constructor
  · rw [rootOnly_one]
  · intro i hi
    rw [hfile hi]
    decide
  · intro i hi
    by_cases h : i = 1
    · subst h
      rw [rootOnly_one] at hi
      exact absurd hi (by decide)
    · rw [rootOnly_of_ne h]
      rfl
  · intro d hd
    rw [hdir hd, rootOnly_one]
    exact ⟨hmod, hcount.ge⟩
  · intro d hd
    rw [hdir hd, rootOnly_one, h0, nameOf_newEntry]
    exact ⟨rfl, by decide⟩
  · intro d hd
    rw [hdir hd, parentOf, rootOnly_one, h1, nameOf_newEntry]
    exact ⟨by decide, by decide⟩
  · intro d k i h
    rw [(hent h).2.2]
    decide
  · intro d k k' i i' h h' hname
    obtain ⟨rfl, hk, -⟩ := hent h
    obtain ⟨-, hk', -⟩ := hent h'
    rw [rootOnly_one] at hname
    by_contra hne
    have h01 : nameOf (entryAt (dots 1 1) 0).name ≠ nameOf (entryAt (dots 1 1) 1).name := by
      rw [h0, h1, nameOf_newEntry, nameOf_newEntry]
      decide
    have : k = 0 ∧ k' = 1 ∨ k = 1 ∧ k' = 0 := by omega
    rcases this with ⟨rfl, rfl⟩ | ⟨rfl, rfl⟩
    · exact h01 hname
    · exact h01 hname.symm
  · intro d k i hk h
    exact absurd ⟨d, k, hk, h⟩ (hnone i)
  · intro d k d' k' i hk _ h _
    exact absurd ⟨d, k, hk, h⟩ (hnone i)
  · intro d k i hk h _
    exact absurd ⟨d, k, hk, h⟩ (hnone i)
  · rw [parentOf, rootOnly_one, h1]
    rfl
  · intro d hd
    rw [hdir hd, hsub, rootOnly_one]
    exact ⟨1, le_rfl, fun _ => rfl, by simp⟩
  · intro i hi hd
    rw [hfile hi, rootOnly_one] at hd
    exact absurd rfl hd

theorem lookup_rootOnly {name : List UInt8} (h0 : nameOf name ≠ nameOf dot) (h1 : nameOf name ≠ nameOf dotDot) :
    lookup (rootOnly 1).data name = none := by
  obtain ⟨hcount, -, hd, hdd⟩ := dots_facts (x := 1) (d := 1) (by decide) (by decide) (by decide)
  rw [rootOnly_one, lookup_eq_none]
  intro k hk hb
  have hname := hb.2
  rw [hcount] at hk
  interval_cases k
  · rw [hd, nameOf_newEntry] at hname
    exact h0 hname.symm
  · rw [hdd, nameOf_newEntry] at hname
    exact h1 hname.symm

/-! ## The run of the builder -/

section

variable {s : State} {N : Nat → Node} {host : Host} {E : Halt → Prop}

theorem freeBlocks_formatted : freeBlocks formatted.disk = 4090 := by
  have := built_formatted.bump.free
  have hb : formatted.bump = 6 := rfl
  omega

/-- The root directory with its two entries. -/
theorem root_spec (h : Built s fun _ => Node.zero) (hib : s.ibump = 1) (hfree : freeBlocks s.disk = 4090) : Wp (do
      let rooti ← dialloc tDir
      modifyInode rooti fun d => { d with nlink := 1 }
      dirLink rooti dot rootino
      dirLink rooti dotDot rootino
      pure rooti) (fun r s => r = 1 ∧ s.ibump = 2 ∧ Packing s rootOnly 4089) E s := by
  have hshort : IsShort tDir := isShort_small (by decide)
  have hne : tDir ≠ 0 := by decide
  refine Wp.bind (dialloc_spec h (by omega) hshort hne) ?_
  rintro _ t ⟨rfl, hib1, hbump1, hb1⟩
  rw [hib] at hb1 ⊢
  refine Wp.bind (modifyInode_spec 1 0 0 hb1 (by omega) (by decide)
    (by rw [upd_self]; decide) ⟨isShort_small (by decide), isShort_small (by decide), isShort_small (by decide)⟩
    (fun _ => rfl) ?_) ?_
  · exact ⟨(hb1.major 1).trans (by rw [upd_self]), (hb1.minor 1).trans (by rw [upd_self])⟩
  rintro _ t' ⟨hib2, hbump2, hb2⟩
  rw [upd_self, upd_upd] at hb2
  have hfree2 : freeBlocks t'.disk = 4090 := by
    have h1 := h.bump.free
    have h2 := hb2.bump.free
    omega
  obtain ⟨hc, hm, -, hf, -⟩ := dot_facts (x := 1) (by decide) (by decide)
  have hlen : (putEntry [] 0 (newEntry dot 1)).length = 32 := by
    unfold entryCount at hc
    omega
  have hb0 : blocksOf ([] : List UInt8).length = 0 := rfl
  have hb1 : blocksOf (putEntry [] 0 (newEntry dot 1)).length = 1 := by
    rw [hlen]
    rfl
  refine Wp.bind (dirLink_spec dot rootino hb2 (by omega) (by decide) (by rw [upd_self]; exact hne)
    (by rw [upd_self]) (by decide) (by decide) (by omega)) ?_
  rintro _ u ⟨hib3, hfree3, hb3⟩
  rw [upd_self, upd_upd, show freeEntry [] = 0 from rfl] at hb3
  rw [hb0] at hfree3
  refine Wp.bind (dirLink_spec dotDot rootino hb3 (by omega) (by decide)
    (by rw [upd_self]; exact hne) (by rw [upd_self]; rfl) hm (by omega) (by omega)) ?_
  rintro _ v ⟨hib4, hfree4, hb4⟩
  rw [hf, upd_self, upd_upd] at hb4
  rw [hb1] at hfree4
  refine ⟨rfl, by omega, hb4, flat_rootOnly, by omega, ?_, by omega⟩
  rw [rootOnly_one, (dots_facts (x := 1) (d := 1) (by decide) (by decide) (by decide)).1]
  omega

theorem console_spec (h : Packing s rootOnly 4089) (hib : s.ibump = 2) : Wp (do
      let consoleIno ← dialloc tDev
      modifyInode consoleIno fun d => { d with nlink := 1, major := 1, minor := 1 }
      dirLink 1 consoleName consoleIno)
    (fun _ t => t.ibump = 3 ∧ Packing t (added rootOnly consoleName 2 ⟨tDev, 1, 1, 1, []⟩) 4089) E s := by
  have hshort : IsShort tDev := isShort_small (by decide)
  have hne : tDev ≠ 0 := by decide
  have hdir : tDev ≠ tDir := by decide
  have hroom := h.room
  refine Wp.bind (dialloc_spec h.built (by omega) hshort hne) ?_
  rintro _ t ⟨rfl, hib1, hbump1, hb1⟩
  refine Wp.bind (modifyInode_spec 1 1 1 hb1 (by omega) (by omega)
    (by rw [upd_self]; exact hne) ⟨isShort_small (by decide), isShort_small (by decide), isShort_small (by decide)⟩
    (fun _ => rfl) ⟨rfl, rfl⟩) ?_
  rintro _ t' ⟨hib2, hbump2, hb2⟩
  rw [upd_self, upd_upd] at hb2
  have hfree2 : freeBlocks t'.disk = freeBlocks s.disk := by
    have h1 := h.built.bump.free
    have h2 := hb2.bump.free
    omega
  have hlook : lookup (rootOnly 1).data consoleName = none := lookup_rootOnly (by decide) (by decide)
  refine Wp.post (dirLink_added (n := ⟨tDev, 1, 1, 1, []⟩) (r := 4089) h (by omega) hb2 (by omega) (by omega) rfl hdir
    hne hlook) ?_
  rintro _ u ⟨hu, hp⟩
  rw [hib] at hu hp
  exact ⟨hu, hp⟩

/-- The names that the root binds before the files are added. -/
def reserved : List (List UInt8) := [dot, dotDot, consoleName]

/-- The files `l` are left to add. -/
def Adding (host : Host) (l : List (List UInt8)) (s : State) : Prop :=
  ∃ done N, fileNames = done ++ l ∧ s.ibump = 3 + done.length ∧ Packing s N (407 + 526 * l.length) ∧
    (∀ name ∈ done, Packed host N name) ∧
    ∀ name, (∀ old ∈ reserved ++ done, nameOf name ≠ nameOf old) → lookup (N 1).data name = none

theorem adding_start (h : Packing s (added rootOnly consoleName 2 ⟨tDev, 1, 1, 1, []⟩) 4089) (hib : s.ibump = 3) :
    Adding host fileNames s := by
  refine ⟨[], _, rfl, hib, h, by simp, fun name hname => ?_⟩
  have hne : ∀ old ∈ reserved, nameOf name ≠ nameOf old := by simpa using hname
  rw [lookup_eq_none_iff_binding,
    binding_added flat_rootOnly (lookup_rootOnly (by decide) (by decide)) (by decide) rfl rfl
    (by decide) (by decide), if_neg (hne consoleName (by decide)), ← lookup_eq_none_iff_binding]
  exact lookup_rootOnly (hne dot (by decide)) (hne dotDot (by decide))

/-- No name is packed twice, and none is bound before. -/
theorem names_distinct {done l : List (List UInt8)} {name : List UInt8} (h : fileNames = done ++ name :: l) :
    ∀ old ∈ reserved ++ done, nameOf name ≠ nameOf old := by
  have hpw : (reserved ++ fileNames).Pairwise fun a b => nameOf b ≠ nameOf a := by decide
  rw [h, ← List.append_assoc, List.pairwise_append] at hpw
  exact fun old hold => hpw.2.2 old hold name List.mem_cons_self

theorem adding_step {name : List UInt8} {l : List (List UInt8)} (h : Adding host (name :: l) s) :
    Wp (addFile host 1 name) (fun _ s' => Adding host l s') (fun _ => ∃ name ∈ fileNames, Unfit host name) s := by
  obtain ⟨done, N, hl, hib, hp, hdone, hfresh⟩ := h
  have hlen : done.length + (l.length + 1) = 7 := by
    have := congrArg List.length hl
    rw [List.length_append, List.length_cons] at this
    exact this.symm
  have htd : tFile ≠ tDir := by decide
  have ht0 : tFile ≠ 0 := by decide
  have hlook := hfresh name (names_distinct hl)
  have hfree := hp.built.free le_rfl
  have hx : 2 ≤ s.ibump ∧ s.ibump < 96 := by omega
  have hroom : 407 + 526 * l.length + 526 = 407 + 526 * (name :: l).length := by
    rw [List.length_cons]
    omega
  rw [← hroom] at hp
  have hmem : name ∈ fileNames := by
    rw [hl]
    exact List.mem_append_right _ List.mem_cons_self
  refine (addFile_spec hp hx.2 hlook).mono ?_ fun _ hbad => ⟨name, hmem, hbad⟩
  rintro _ u ⟨f, hf, hle, hu, hpu⟩
  have hbind : ∀ name', binding (added N name s.ibump ⟨tFile, 0, 0, 1, f⟩) 1 name' = _ := fun name' =>
    binding_added hp.flat hlook hx hfree rfl htd ht0
  refine ⟨done ++ [name], _, by rw [hl, List.append_assoc]; rfl, by rw [List.length_append]; simp; omega, hpu, ?_, ?_⟩
  · intro old hold
    rcases List.mem_append.mp hold with hold | hold
    · obtain ⟨g, y, hg, hgl, hy, hNy⟩ := hdone old hold
      have hyx : y ≠ s.ibump := by
        rintro rfl
        rw [hNy] at hfree
        exact ht0 hfree
      have hy1 : y ≠ 1 := by
        rintro rfl
        have := hp.flat.tree.root
        rw [hNy] at this
        exact htd this
      refine ⟨g, y, hg, hgl, ?_, by rw [added, upd_of_ne hy1, upd_of_ne hyx, hNy]⟩
      rw [hbind, if_neg (names_distinct hl old (List.mem_append_right _ hold)).symm]
      exact hy
    · obtain rfl := List.mem_singleton.mp hold
      refine ⟨f, s.ibump, hf, hle, by rw [hbind, if_pos rfl], ?_⟩
      rw [added, upd_of_ne (by omega), upd_self]
  · intro name' hname'
    rw [lookup_eq_none_iff_binding, hbind, if_neg (hname' name (by simp)), ← lookup_eq_none_iff_binding]
    exact hfresh name' fun old hold => hname' old (by
      rw [← List.append_assoc]
      exact List.mem_append_left _ hold)

/-- The builder packs the files, or one of them is missing or too large. -/
theorem main_spec (host : Host) : Wp (main host)
    (fun _ s => ∃ N, s.ibump ≤ 96 ∧ Built s N ∧ Flat N ∧ ∀ name ∈ fileNames, Packed host N name)
    (fun _ => ∃ name ∈ fileNames, Unfit host name) init := by
  have hmain : main host = (do
      let s ← get
      store 1 ((((((s.disk 1).putLe 0 8 sb.size).putLe 8 8 sb.nBlocks).putLe 16 8 sb.nInodes).putLe
        24 8 sb.inodeStart).putLe 32 8 sb.bmapStart)
      let s ← get
      let bm := (getSb (s.disk 1)).bmapStart
      store bm (upd (s.disk bm) 0 63)
      let rooti ← (do
        let rooti ← dialloc tDir
        modifyInode rooti fun d => { d with nlink := 1 }
        dirLink rooti dot rootino
        dirLink rooti dotDot rootino
        pure rooti)
      (do
        let consoleIno ← dialloc tDev
        modifyInode consoleIno fun d => { d with nlink := 1, major := 1, minor := 1 }
        dirLink rooti consoleName consoleIno)
      each fileNames (addFile host rooti)) := by
    simp only [main, bind_assoc, pure_bind]
  rw [hmain, wp_bind, wp_get, wp_bind, store, wp_modify, wp_bind, wp_get]
  dsimp only
  rw [upd_self, show (((((init.disk 1).putLe 0 8 sb.size).putLe 8 8 sb.nBlocks).putLe 16 8 sb.nInodes).putLe
    24 8 sb.inodeStart).putLe 32 8 sb.bmapStart = superBlock from rfl, getSb_superBlock, wp_bind, store, wp_modify]
  have hstart : ({ init with
      disk := upd (upd init.disk 1 superBlock) 2 (upd (upd init.disk 1 superBlock 2) 0 63) } : State) = formatted := by
    rw [upd_of_ne (by decide)]
    rfl
  refine Eq.subst (motive := fun t => Wp _ _ _ t) hstart.symm ?_
  refine Wp.bind (root_spec built_formatted rfl freeBlocks_formatted) ?_
  rintro _ s ⟨rfl, hib, hroot⟩
  refine Wp.bind (console_spec hroot hib) ?_
  rintro _ t ⟨hib', hcons⟩
  refine Wp.post (wp_each (Adding host) (fun name l s h => adding_step h) fileNames t (adding_start hcons hib')) ?_
  rintro _ u ⟨done, N, hl, hu, hp, hdone, -⟩
  rw [List.append_nil] at hl
  subst hl
  exact ⟨N, hu.trans_le (by decide), hp.built, hp.flat, hdone⟩

/-- What the image holds, if the builder writes one. -/
structure IsImage (host : Host) (disk : Nat → Bytes) (N : Nat → Node) : Prop where
  sb : getSb (disk 1) = stdSb
  wf : DiskWF disk
  node : ∀ i, nodeOf disk (dinodeOf stdSb disk i) = N i
  flat : Flat N
  packed : ∀ name ∈ fileNames, Packed host N name

theorem image_some {disk : Nat → Bytes} (h : image host = some disk) : ∃ s N, main host init = .ok ((), s) ∧
    s.disk = disk ∧ Bump s ∧ s.ibump ≤ 96 ∧ IsImage host disk N := by
  have hspec := main_spec host
  unfold image at h
  cases hm : main host init with
  | ok r =>
      obtain ⟨⟨⟩, s⟩ := r
      rw [hm] at h
      obtain ⟨N, hib, hb, hf, hp⟩ := hspec.of_ok hm
      obtain rfl := Option.some.inj h
      exact ⟨s, N, rfl, rfl, hb.bump, hib, hb.bump.sb, hb.wf, hb.node, hf, hp⟩
  | error e =>
      rw [hm] at h
      exact absurd h (by simp)

/-- An image is written exactly when every file is there and fits. -/
theorem image_isSome : (image host).isSome ↔ ∀ name ∈ fileNames, ¬ Unfit host name := by
  constructor
  · intro h name hname hbad
    obtain ⟨disk, hd⟩ := Option.isSome_iff_exists.mp h
    obtain ⟨s, N, -, -, -, -, hN⟩ := image_some hd
    obtain ⟨f, x, hf, hle, -⟩ := hN.packed name hname
    exact absurd (hbad f hf) (by omega)
  · intro h
    have hspec := main_spec host
    unfold image
    cases hm : main host init with
    | ok r => rfl
    | error e =>
        obtain ⟨name, hname, hbad⟩ := hspec.of_error hm
        exact absurd hbad (h name hname)

end

end Xv6.Mkfs
