import Xv6.Fs.Lemmas.Namex

/-!
# Creating names

`create` finds the node of a path, or makes a new one in the last directory of the path.
-/

namespace Xv6.Fs

open Xv6.Lib

/-- The halts that stand for a resource that is used up. -/
def exhausted : List Halt :=
  [.panic "balloc: oob", .panic "ialloc: no inodes", .panic "iget: no empty slot", .panic "dir_link cant write"]

/-- How a system call can halt: only by using up a resource, by following a dangling entry, or by copying an element of
a path without end. -/
def Halts (N : Nat → Node) (e : Halt) : Prop := e ∈ exhausted ∨ e = .panic "ilock: no type" ∧ Dangling N ∨ e = .wild

/-- The data of a new directory `x` in the directory `d`. -/
def dots (x d : Nat) : List UInt8 := putEntry (putEntry [] 0 (newEntry dot x)) 1 (newEntry dotDot d)

/-- The nodes after a new node `x` was linked into the directory `d`. -/
def created (N : Nat → Node) (d : Nat) (name : List UInt8) (x : Nat) (type major minor : Int) : Nat → Node :=
  upd (upd N x ⟨type, major, minor, 1, if type = tDir then dots x d else []⟩) d
    { N d with
      nlink := if type = tDir then (N d).nlink + 1 else (N d).nlink
      data := putEntry (N d).data (freeEntry (N d).data) (newEntry name x) }

section

variable {N : Nat → Node}

/-- A directory has fewer subdirectories than there are inodes. -/
theorem Tree.card_subdirs (ht : Tree N) {d : Nat} (hd : (N d).type = tDir) : (subdirs N d).card ≤ 96 := by
  have hmem : ∀ k ∈ subdirs N d, 2 ≤ k ∧ Entry N d k (entryAt (N d).data k).inum := by
    intro k hk
    simp only [subdirs, Finset.mem_filter, Finset.mem_range] at hk
    exact ⟨hk.2.1, hd, hk.1, rfl, hk.2.2.1⟩
  rw [← Finset.card_range 96]
  refine Finset.card_le_card_of_injOn (fun k => (entryAt (N d).data k).inum) ?_ ?_
  · intro k hk
    exact Finset.mem_coe.mpr (Finset.mem_range.mpr (ht.inum (hmem k hk).2))
  · intro k hk k' hk' he
    have h1 := hmem k hk
    have h2 := hmem k' hk'
    have h2' : Entry N d k' (entryAt (N d).data k).inum := by
      rw [show (entryAt (N d).data k).inum = (entryAt (N d).data k').inum from he]
      exact h2.2
    exact (ht.unique h1.1 h2.1 h1.2 h2').2

/-- Link counts are far from the ends of a `short`. -/
theorem Tree.nlink_range (ht : Tree N) {i : Nat} (hi : (N i).type ≠ 0) : 0 ≤ (N i).nlink ∧ (N i).nlink ≤ 97 := by
  by_cases hd : (N i).type = tDir
  · obtain ⟨c, hc, _, hn⟩ := ht.dirLinks i hd
    have := ht.card_subdirs hd
    omega
  · obtain ⟨h0 | h1, _⟩ := ht.fileLinks i hi hd <;> omega

theorem Tree.nlink_succ (ht : Tree N) {d : Nat} (hd : (N d).type = tDir) :
    toShort ((N d).nlink + 1) = (N d).nlink + 1 := by
  have := ht.nlink_range (i := d) (by rw [hd]; decide)
  exact toShort_of_isShort (by unfold IsShort; omega)

end

/-! ## Changing nodes during a call -/

section

variable {c : Slot → Cell} {k : Nat → Option (List UInt8)} {N : Nat → Node} {e : Slot → Nat} {L : Slot → Bool}
  {t t' : State} {ip : Slot} {i : Nat} {n : Node} {α : Type} {Q : α → State → Prop} {E : Halt → Prop}

theorem During.setNode (h : During c k N e L t) (hwf : t'.WF) (hv : t'.view = t.view.setNode i n) :
    During c k (upd N i n) e L t' := by
  have hn : t'.node = upd t.node i n := congrArg View.node hv
  refine ⟨hwf, by rw [hn, h.node], (congrArg View.console hv).trans h.console, ?_, ?_⟩
  · rw [show t'.cell = t.cell from congrArg View.cell hv]
    exact h.held
  · rw [hv, View.locks_setNode, h.locks]

/-- A change of the counts and numbers of a cached inode, stored by `iupdate`. -/
theorem During.update (h : During c k N e L t) (href : 0 < (t.cell ip).ref) (hv : (t.cell ip).valid = true)
    (hi : (t.cell ip).inum = i) {f : Inode → Inode}
    (hf : f (t.inodes ip) = { t.inodes ip with toDinode :=
      { (t.inodes ip).toDinode with major := n.major, minor := n.minor, nlink := n.nlink } })
    (hn : n.type = (N i).type ∧ n.data = (N i).data) (hfit : IsShort n.major ∧ IsShort n.minor ∧ IsShort n.nlink)
    {rest : FsM α} (hrest : ∀ t', During c k (upd N i n) e L t' → t'.cell = t.cell → Wp rest Q E t') :
    Wp (modifyInode ip f >>= fun _ => iupdate ip >>= fun _ => rest) Q E t := by
  have hst : t.withInode ip (f (t.inodes ip)) = t.withDinode ip
      { t.dinode (t.cell ip).inum with major := n.major, minor := n.minor, nlink := n.nlink } := by
    rw [hf, h.wf.copy href hv]
    rfl
  rw [wp_bind, wp_modifyInode, hst]
  refine Wp.seq (iupdate_spec (n := n) h.wf href hv rfl ?_ hfit) (fun _ h0 => h0.elim) ?_
  · rwa [h.nodeAt_eq hi]
  · rintro _ t1 ⟨hwf, hview⟩
    rw [hi] at hview
    exact hrest t1 (h.setNode hwf hview) (congrArg View.cell hview)

theorem isShort_small {x : Int} (h : 0 ≤ x ∧ x ≤ 3) : IsShort x := by
  unfold IsShort
  omega

/-- A change of the link count of a cached inode, stored by `iupdate`. -/
theorem During.relink (h : During c k N e L t) (href : 0 < (t.cell ip).ref) (hv : (t.cell ip).valid = true)
    (hi : (t.cell ip).inum = i) {g : Int → Int} (hg : IsShort (g (N i).nlink)) {rest : FsM α}
    (hrest : ∀ t', During c k (upd N i { N i with nlink := g (N i).nlink }) e L t' → t'.cell = t.cell →
      Wp rest Q E t') :
    Wp (modifyInode ip (fun x => { x with nlink := g x.nlink }) >>= fun _ => iupdate ip >>= fun _ => rest) Q E t := by
  have hcopy := h.wf.copy href hv
  have hfit := h.wf.fits (t.cell ip).inum
  have hn : nodeOf t.disk (t.dinode (t.cell ip).inum) = N i := h.nodeAt_eq hi
  have hmaj : (t.dinode (t.cell ip).inum).major = (N i).major := by rw [← hn]; rfl
  have hmin : (t.dinode (t.cell ip).inum).minor = (N i).minor := by rw [← hn]; rfl
  have hnl : (t.dinode (t.cell ip).inum).nlink = (N i).nlink := by rw [← hn]; rfl
  refine h.update (n := { N i with nlink := g (N i).nlink }) href hv hi ?_ ⟨rfl, rfl⟩ ⟨?_, ?_, hg⟩ hrest
  · dsimp only
    rw [hcopy, ← hmaj, ← hmin, hnl]
  · rw [← hmaj]
    exact hfit.major
  · rw [← hmin]
    exact hfit.minor

/-- A free inode is taken, with a cell for it. -/
theorem During.alloc (h : During c k N e L t) {x : Nat} (hwf : t'.WF)
    (hg : (t.view.setNode x n).Gets x ip t'.view) :
    During c k (upd N x n) (e + one ip) L t' ∧ (t'.cell ip).inum = x ∧ Held t.cell t'.cell (one ip) := by
  obtain ⟨hh, hx⟩ := Held.gets hg
  refine ⟨⟨hwf, ?_, hg.console.trans h.console, h.held.trans hh, ?_⟩, hx, hh⟩
  · rw [← h.node]
    exact hg.node
  · rw [hg.locks h.wf.cache.unlocked]
    exact h.locks

/-- A directory gets an entry for a name that it does not bind. -/
theorem During.link (h : During c k N e L t) {data name : List UInt8} {x : Nat} (hd : OpenDir t ip data)
    (hi : (t.cell ip).inum = i) (hfresh : lookup data name = none) {rest : Int → FsM α}
    (hE : ∀ e ∈ exhausted, E e)
    (hrest : ∀ t', During c k (upd N i { N i with data := putEntry data (freeEntry data) (newEntry name x) }) e L t' →
      t'.cell = t.cell → Wp (rest 0) Q E t') :
    Wp (dirLink ip name x >>= rest) Q E t := by
  refine Wp.seq (dirLink_spec h.wf hd hfresh) ?_ ?_
  · rintro e (rfl | rfl | rfl) <;> exact hE _ (by simp [exhausted])
  · rintro _ t1 ⟨rfl, hwf, hview⟩
    rw [h.nodeAt_eq hi, hi] at hview
    exact hrest t1 (h.setNode hwf hview) (congrArg View.cell hview)

end

/-! ## The first two entries -/

theorem lookup_nil (name : List UInt8) : lookup [] name = none := rfl

theorem nameOf_newEntry (name : List UInt8) (x : Nat) : nameOf (newEntry name x).name = nameOf name :=
  nameOf_strncpy name

theorem entryAt_putEntry {data : List UInt8} {k j : Nat} {name : List UInt8} {x : Nat} (hx : x < 2 ^ 64)
    (hmod : data.length % 32 = 0) (hk : k ≤ entryCount data) :
    entryAt (putEntry data k (newEntry name x)) j = if j = k then newEntry name x else entryAt data j := by
  rw [putEntry, entryAt_overlay (length_toBytes_newEntry name x) hmod hk, DirEnt.ofBytes_toBytes (by exact hx)]

theorem putEntry_size {data : List UInt8} {k : Nat} {name : List UInt8} {x : Nat} (hmod : data.length % 32 = 0)
    (hk : k ≤ entryCount data) : entryCount (putEntry data k (newEntry name x)) = max (entryCount data) (k + 1) ∧
      (putEntry data k (newEntry name x)).length % 32 = 0 :=
  entryCount_overlay (length_toBytes_newEntry name x) hmod hk

/-- The directory `x` with its first entry only. -/
theorem dot_facts {x : Nat} (h0 : x ≠ 0) (hx : x < 96) :
    entryCount (putEntry [] 0 (newEntry dot x)) = 1 ∧ (putEntry [] 0 (newEntry dot x)).length % 32 = 0 ∧
      entryAt (putEntry [] 0 (newEntry dot x)) 0 = newEntry dot x ∧
      freeEntry (putEntry [] 0 (newEntry dot x)) = 1 ∧ lookup (putEntry [] 0 (newEntry dot x)) dotDot = none := by
  obtain ⟨hc, hm⟩ : entryCount (putEntry [] 0 (newEntry dot x)) = 1 ∧
    (putEntry [] 0 (newEntry dot x)).length % 32 = 0 :=
    putEntry_size rfl (le_refl 0)
  have hat : entryAt (putEntry [] 0 (newEntry dot x)) 0 = newEntry dot x := by
    rw [entryAt_putEntry (lt_trans hx (by decide)) rfl (le_refl 0), if_pos rfl]
  refine ⟨hc, hm, hat, ?_, ?_⟩
  · have hle := freeEntry_le (putEntry [] 0 (newEntry dot x))
    by_contra hne
    have hz : freeEntry (putEntry [] 0 (newEntry dot x)) = 0 := by omega
    have hfree : freeEntry (putEntry [] 0 (newEntry dot x)) < entryCount (putEntry [] 0 (newEntry dot x)) := by omega
    have := freeEntry_free hfree
    rw [hz, hat] at this
    exact h0 this
  · rw [lookup_eq_none, hc]
    rintro k hk ⟨_, hname⟩
    obtain rfl : k = 0 := by omega
    rw [hat, nameOf_newEntry] at hname
    exact absurd hname (by decide)

theorem dots_facts {x d : Nat} (hx0 : x ≠ 0) (hx : x < 96) (hd : d < 96) :
    entryCount (dots x d) = 2 ∧ (dots x d).length % 32 = 0 ∧ entryAt (dots x d) 0 = newEntry dot x ∧
      entryAt (dots x d) 1 = newEntry dotDot d := by
  obtain ⟨hc, hm, hat, _, _⟩ := dot_facts hx0 hx
  obtain ⟨hc', hm'⟩ : entryCount (dots x d) = max _ 2 ∧ (dots x d).length % 32 = 0 := putEntry_size hm (by omega)
  have hent : ∀ j, entryAt (dots x d) j =
    if j = 1 then newEntry dotDot d else entryAt (putEntry [] 0 (newEntry dot x)) j :=
    fun j => entryAt_putEntry (lt_trans hd (by decide)) hm (by omega)
  refine ⟨by rw [hc', hc]; rfl, hm', ?_, ?_⟩
  · rw [hent, if_neg (by decide), hat]
  · rw [hent, if_pos rfl]

/-! ## The code -/

/-- There is no directory for a new name, or the name is there. -/
def Taken (s : State) (cwd : Slot) (path : List UInt8) : Prop :=
  ∀ d name, resolve s.node (s.cell cwd).inum path true = some (d, name) → ∃ n, lookup (s.node d).data name = some n

/-- What `create` gives: nothing, an existing file, or a new node. The node comes locked. -/
inductive CreateResult (s : State) (cwd : Slot) (path : List UInt8) (type major minor : Int) :
    Option Slot → State → Prop
  | fail {s' : State} (hwhy : Taken s cwd path)
      (h : During s.cell s.console s.node 0 (fun _ => false) s') :
      CreateResult s cwd path type major minor none s'
  | found {s' : State} {ip : Slot} {d n : Nat} {name : List UInt8} (htype : type = tFile)
      (hres : resolve s.node (s.cell cwd).inum path true = some (d, name))
      (hlook : lookup (s.node d).data name = some n)
      (hfile : (s.node (entryAt (s.node d).data n).inum).type = tFile)
      (h : During s.cell s.console s.node (one ip) (upd (fun _ => false) ip true) s')
      (hinum : (s'.cell ip).inum = (entryAt (s.node d).data n).inum) (hvalid : (s'.cell ip).valid = true) :
      CreateResult s cwd path type major minor (some ip) s'
  | new {s' : State} {ip : Slot} {d x : Nat} {name : List UInt8}
      (hres : resolve s.node (s.cell cwd).inum path true = some (d, name))
      (hdir : (s.node d).type = tDir) (hlook : lookup (s.node d).data name = none)
      (hx : 1 ≤ x ∧ x < 96) (hfree : (s.node x).type = 0)
      (h : During s.cell s.console (created s.node d name x type major minor) (one ip)
        (upd (fun _ => false) ip true) s')
      (hinum : (s'.cell ip).inum = x) (hvalid : (s'.cell ip).valid = true) :
      CreateResult s cwd path type major minor (some ip) s'

/-- The conditions at the start of a call. -/
structure Quiet (s : State) : Prop where
  wf : s.WF
  tree : Tree s.node
  noLost : NoLost s.node s.cell
  unlocked : s.view.locks = fun _ => false
  alive : ∀ ip, 0 < (s.cell ip).ref → (s.node (s.cell ip).inum).type ≠ 0

theorem walk_parent_dir {N : Nat → Node} : ∀ (n i : Nat) (name path : List UInt8), path.length ≤ n →
    ∀ {d name'}, walk N true i name path = some (d, name') → (N d).type = tDir := by
  intro n
  induction n with
  | zero =>
      intro i name path hp d name' hw
      cases hs : skipElem path with
      | none => simp [walk_none hs] at hw
      | some x =>
          obtain ⟨elem, rest⟩ := x
          exact absurd (skipElem_length hs) (by omega)
  | succ n ih =>
      intro i name path hp d name' hw
      cases hs : skipElem path with
      | none => simp [walk_none hs] at hw
      | some x =>
          obtain ⟨_ | elem, rest⟩ := x
          · rw [walk_wild hs] at hw
            cases hw
          have hlen := skipElem_length hs
          rw [walk_some hs] at hw
          split at hw
          · cases hw
          · rename_i hdir
            split at hw
            · cases hw
              exact not_not.mp hdir
            · split at hw
              · cases hw
              · exact ih _ _ _ (by omega) hw

theorem resolve_parent_dir {N : Nat → Node} {cwd d : Nat} {path name : List UInt8}
    (h : resolve N cwd path true = some (d, name)) : (N d).type = tDir :=
  walk_parent_dir _ _ _ _ (le_refl _) h

section

variable {s t : State} {cwd dp ip : Slot} {path name : List UInt8} {type major minor : Int} {d x : Nat}

theorem upd_true_false {dp ip : Slot} (hne : dp ≠ ip) :
    upd (upd (upd (fun _ => false) dp true) ip true) dp false = upd (fun _ : Slot => false) ip true := by
  rw [upd_comm hne.symm, upd_upd, upd_const]

/-- Nodes without links stay held when a new node is linked. -/
theorem Quiet.noLost_created (hq : Quiet s) (hdir : (s.node d).type = tDir) (hx : (s.node x).type = 0) :
    NoLost (created s.node d name x type major minor) s.cell := by
  have hrange := hq.tree.nlink_range (i := d) (by rw [hdir]; decide)
  have hxd : x ≠ d := by
    rintro rfl
    rw [hx] at hdir
    exact absurd hdir (by decide)
  intro i hty hnl
  by_cases hid : i = d
  · subst hid
    rw [created, upd_self] at hty hnl
    dsimp only at hty hnl
    split at hnl
    · omega
    · exact hq.noLost i hty hnl
  · rw [created, upd_of_ne hid] at hty hnl
    by_cases hix : i = x
    · subst hix
      rw [upd_self] at hnl
      exact absurd hnl Int.one_ne_zero
    · rw [upd_of_ne hix] at hty hnl
      exact hq.noLost i hty hnl

/-- The end of `create`: the new node is linked into the directory, which is released. -/
theorem create_link {N : Nat → Node} (hq : Quiet s) (hdir : (s.node d).type = tDir)
    (hlook : lookup (s.node d).data name = none) (hx : 1 ≤ x ∧ x < 96) (hfree : (s.node x).type = 0)
    (hres : resolve s.node (s.cell cwd).inum path true = some (d, name)) (hne : dp ≠ ip)
    (h : During s.cell s.console N (one ip + one dp) (upd (upd (fun _ => false) dp true) ip true) t)
    (hd : OpenDir t dp (s.node d).data) (hdi : (t.cell dp).inum = d) (hii : (t.cell ip).inum = x)
    (hval : (t.cell ip).valid = true)
    (hN : upd N d { N d with data := putEntry (s.node d).data (freeEntry (s.node d).data) (newEntry name x) } =
      created s.node d name x type major minor) :
    Wp (do let r ← dirLink dp name x
           panicIf (r < 0) "create: cant belong to the dir"
           iunlock dp
           iput dp
           pure (some ip)) (CreateResult s cwd path type major minor) (Halts s.node) t := by
  refine h.link hd hdi hlook (fun e he => Or.inl he) fun t1 h1 hc1 => ?_
  rw [hN] at h1
  rw [wp_bind, wp_panicIf]
  refine ⟨fun h0 => absurd h0 (by decide), fun _ => ?_⟩
  refine h1.putBack (hq.noLost_created hdir hfree) ?_ fun t2 h2 hkeep => ?_
  · rw [upd_of_ne hne, upd_self]
  · rw [upd_true_false hne] at h2
    rw [hc1] at hkeep
    exact .new hres hdir hlook hx hfree h2 ((hkeep ip).1.trans hii) ((hkeep ip).2 hval)

/-- The middle of `create` for a directory: its link to the parent and its first two entries. -/
theorem create_dots (hq : Quiet s) (hdir : (s.node d).type = tDir)
    (hlook : lookup (s.node d).data name = none) (hx : 1 ≤ x ∧ x < 96) (hfree : (s.node x).type = 0)
    (hres : resolve s.node (s.cell cwd).inum path true = some (d, name)) (hne : dp ≠ ip) (hxd : d ≠ x)
    (h : During s.cell s.console (upd s.node x ⟨tDir, major, minor, 1, []⟩) (one ip + one dp)
      (upd (upd (fun _ => false) dp true) ip true) t)
    (hdi : (t.cell dp).inum = d) (hdv : (t.cell dp).valid = true) (hii : (t.cell ip).inum = x)
    (hval : (t.cell ip).valid = true) :
    Wp (do modifyInode dp fun i => { i with nlink := toShort (i.nlink + 1) }
           iupdate dp
           let r ← dirLink ip dot x
           panicIf (r < 0) "create: dots"
           let r ← dirLink ip dotDot d
           panicIf (r < 0) "create: dots"
           let r ← dirLink dp name x
           panicIf (r < 0) "create: cant belong to the dir"
           iunlock dp
           iput dp
           pure (some ip)) (CreateResult s cwd path tDir major minor) (Halts s.node) t := by
  have hd96 := hq.tree.range d (by rw [hdir]; decide)
  have hip : 0 < (t.cell ip).ref := h.ref_pos (by simp)
  have hdp : 0 < (t.cell dp).ref := h.ref_pos (by simp)
  obtain ⟨hc, hm, hat, hfe, hlk⟩ := dot_facts (x := x) (by omega) hx.2
  have hE : ∀ e ∈ exhausted, Halts s.node e := fun e he => Or.inl he
  refine h.relink (g := fun n => toShort (n + 1)) hdp hdv hdi (toShort_isShort _) fun t1 h1 hc1 => ?_
  rw [← hc1] at hii hval hip hdp hdi hdv
  rw [upd_of_ne hxd] at h1
  have hx1 : t1.view.nodeAt ip = ⟨tDir, major, minor, 1, []⟩ := by
    rw [h1.nodeAt_eq hii, upd_of_ne hxd.symm, upd_self]
  have ho1 : OpenDir t1 ip [] :=
    ⟨hip, hval, by rw [hx1], by rw [hx1], rfl, fun k hk => absurd hk (by simp [entryCount])⟩
  refine h1.link ho1 hii (lookup_nil dot) hE fun t2 h2 hc2 => ?_
  rw [← hc2] at hii hval hip hdp hdi hdv
  rw [wp_bind, wp_panicIf]
  refine ⟨fun h0 => absurd h0 (by decide), fun _ => ?_⟩
  have hx2 := h2.nodeAt_eq hii
  rw [upd_self] at hx2
  have ho2 : OpenDir t2 ip (putEntry [] 0 (newEntry dot x)) := by
    refine ⟨hip, hval, ?_, by rw [hx2]; rfl, hm, fun k hk => ?_⟩
    · rw [hx2, upd_of_ne hxd.symm, upd_self]
    · obtain rfl : k = 0 := by omega
      rw [hat]
      exact hx.2
  refine h2.link ho2 hii hlk hE fun t3 h3 hc3 => ?_
  rw [← hc3] at hii hval hip hdp hdi hdv
  rw [wp_bind, wp_panicIf]
  refine ⟨fun h0 => absurd h0 (by decide), fun _ => ?_⟩
  rw [hfe] at h3
  have hd3 := h3.nodeAt_eq hdi
  rw [upd_of_ne hxd, upd_of_ne hxd, upd_self] at hd3
  have ho3 : OpenDir t3 dp (s.node d).data :=
    ⟨hdp, hdv, by rw [hd3]; exact hdir, by rw [hd3], (hq.tree.size d hdir).1, hq.tree.inum_lt hdir⟩
  refine create_link hq hdir hlook hx hfree hres hne h3 ho3 hdi hii hval ?_
  funext j
  by_cases hjd : j = d
  · subst hjd
    simp [created, hxd, hq.tree.nlink_succ hdir]
  · by_cases hjx : j = x
    · subst hjx
      simp [created, hjd, dots]
    · simp [created, hjd, hjx]

theorem createNew_spec (hq : Quiet s) (hdir : (s.node d).type = tDir)
    (hlook : lookup (s.node d).data name = none)
    (hres : resolve s.node (s.cell cwd).inum path true = some (d, name))
    (htype : IsShort type ∧ type ≠ 0) (hmm : IsShort major ∧ IsShort minor)
    (h : During s.cell s.console s.node (one dp) (upd (fun _ => false) dp true) t)
    (hdi : (t.cell dp).inum = d) (hdv : (t.cell dp).valid = true) :
    Wp (createNew dp name type major minor) (CreateResult s cwd path type major minor) (Halts s.node) t := by
  have href : 0 < (t.cell dp).ref := h.ref_pos (by simp)
  have hd96 := hq.tree.range d (by rw [hdir]; decide)
  unfold createNew
  rw [wp_bind, wp_get, (h.wf.cache.entry dp href).dev]
  refine Wp.seq (ialloc_spec h.wf htype.1 htype.2) ?_ ?_
  · rintro e (rfl | rfl) <;> exact Or.inl (by simp [exhausted])
  rintro ip t1 ⟨x, hx1, hx96, hxfree, hwf1, hg⟩
  rw [h.node] at hxfree
  have hxd : d ≠ x := by
    rintro rfl
    rw [hdir] at hxfree
    exact absurd hxfree (by decide)
  obtain ⟨h1, hii, hh⟩ := h.alloc hwf1 hg
  have hdi1 : (t1.cell dp).inum = d := (hh.inum dp href).trans hdi
  have hdv1 : (t1.cell dp).valid = true := hh.valid dp href hdv
  have hne : dp ≠ ip := by
    rintro rfl
    exact hxd (hdi1.symm.trans hii)
  refine h1.lockNode (h1.ref_pos (by simp)) (upd_of_ne hne.symm _ _) hii (fun h0 => ?_) fun t2 h2 hkeep hval _ => ?_
  · rw [upd_self] at h0
    exact absurd h0 htype.2
  have hii2 : (t2.cell ip).inum = x := (hkeep ip).1.trans hii
  refine h2.update (n := ⟨type, major, minor, 1, []⟩) (h2.ref_pos (by simp)) hval hii2 rfl ?_
    ⟨hmm.1, hmm.2, isShort_small (x := 1) (by decide)⟩ fun t3 h3 hc3 => ?_
  · rw [upd_self]
    exact ⟨rfl, rfl⟩
  rw [upd_upd] at h3
  have hdi3 : (t3.cell dp).inum = d := by rw [hc3]; exact (hkeep dp).1.trans hdi1
  have hdv3 : (t3.cell dp).valid = true := by rw [hc3]; exact (hkeep dp).2 hdv1
  have hii3 : (t3.cell ip).inum = x := by rw [hc3, hii2]
  have hval3 : (t3.cell ip).valid = true := by rw [hc3, hval]
  rw [wp_bind, wp_get]
  dsimp only
  rw [show (t3.inodes ip).inum = x from hii3, show (t3.inodes dp).inum = d from hdi3, wp_ite]
  rw [add_comm] at h3
  refine ⟨fun hty => ?_, fun hty => ?_⟩
  · subst hty
    exact create_dots hq hdir hlook ⟨hx1, hx96⟩ hxfree hres hne hxd h3 hdi3 hdv3 hii3 hval3
  · have hd3 := h3.nodeAt_eq hdi3
    rw [upd_of_ne hxd] at hd3
    have ho3 : OpenDir t3 dp (s.node d).data :=
      ⟨h3.ref_pos (by simp), hdv3, by rw [hd3, hdir], by rw [hd3], (hq.tree.size d hdir).1, hq.tree.inum_lt hdir⟩
    refine create_link hq hdir hlook ⟨hx1, hx96⟩ hxfree hres hne h3 ho3 hdi3 hii3 hval3 ?_
    rw [created, if_neg hty, if_neg hty, upd_of_ne hxd]

theorem Quiet.namex (hq : Quiet s) (hcwd : 0 < (s.cell cwd).ref) (path : List UInt8) (parent : Bool) :
    Wp (namex cwd path parent) (Resolved s (resolve s.node (s.cell cwd).inum path parent)) (Halts s.node) s := by
  refine (namex_spec hq.wf hq.tree hq.noLost hq.unlocked path parent fun _ => ⟨hcwd, hq.alive cwd hcwd⟩).mono
    (fun _ _ h => h) ?_
  rintro e (⟨rfl, _⟩ | h | ⟨rfl, _⟩)
  · exact Or.inl (by simp [exhausted])
  · exact Or.inr (Or.inl h)
  · exact Or.inr (Or.inr rfl)

theorem create_spec (hq : Quiet s) (hcwd : 0 < (s.cell cwd).ref) (path : List UInt8)
    (htype : IsShort type ∧ type ≠ 0) (hmm : IsShort major ∧ IsShort minor) :
    Wp (create cwd path type major minor) (CreateResult s cwd path type major minor) (Halts s.node) s := by
  unfold create nameiParent
  refine Wp.bind (hq.namex hcwd path true) fun r t hr => ?_
  cases hres : resolve s.node (s.cell cwd).inum path true with
  | none =>
      rw [hres] at hr
      obtain ⟨rfl, h⟩ := hr
      exact .fail (fun d name h0 => by rw [hres] at h0; cases h0) h
  | some w =>
      obtain ⟨d, name⟩ := w
      rw [hres] at hr
      obtain ⟨dp, rfl, h, hi, hdang⟩ := hr
      have hdir := resolve_parent_dir hres
      refine h.lockNode (h.ref_pos (by simp)) rfl hi (fun h0 => Or.inr (Or.inl ⟨rfl, hdang h0⟩))
        fun t1 h1 hkeep hval _ => ?_
      have hi1 : (t1.cell dp).inum = d := (hkeep dp).1.trans hi
      refine Wp.seq (dirLookup_spec h1.wf (h1.openDir hq.tree (h1.ref_pos (by simp)) hval hi1 hdir) name) ?_ ?_
      · rintro _ ⟨rfl, _⟩
        exact Or.inl (by simp [exhausted])
      cases hlook : lookup (s.node d).data name with
      | none =>
          rintro _ _ ⟨rfl, rfl⟩
          exact createNew_spec hq hdir hlook hres htype hmm h1 hi1 hval
      | some n =>
          rintro _ t2 ⟨ip, rfl, hwf, hg⟩
          obtain ⟨h2, hi2⟩ := h1.gets hwf hg
          obtain ⟨hn, hb, _⟩ := lookup_eq_some.mp hlook
          rw [add_comm] at h2
          refine h2.putBack hq.noLost (upd_self _ _ _) fun t3 h3 hkeep3 => ?_
          rw [upd_upd, upd_const] at h3
          have hi3 : (t3.cell ip).inum = _ := (hkeep3 ip).1.trans hi2
          refine h3.lockNode (h3.ref_pos (by simp)) rfl hi3
            (fun h0 => Or.inr (Or.inl ⟨rfl, d, n, _, ⟨hdir, hn, rfl, hb.1⟩, h0⟩)) fun t4 h4 hkeep4 hval4 _ => ?_
          have hi4 : (t4.cell ip).inum = _ := (hkeep4 ip).1.trans hi3
          have href4 : 0 < (t4.cell ip).ref := h4.ref_pos (by simp)
          rw [wp_bind, wp_get, h4.wf.type_eq href4 hval4, h4.nodeAt_eq hi4, wp_ite]
          refine ⟨fun hf => ?_, fun hf => ?_⟩
          · exact .found hf.1 hres hlook hf.2 h4 hi4 hval4
          · rw [← zero_add (one ip)] at h4
            refine h4.putBack hq.noLost (upd_self _ _ _) fun t5 h5 _ => ?_
            rw [upd_upd, upd_const] at h5
            exact .fail (fun d' name' h0 => by rw [hres] at h0; cases h0; exact ⟨n, hlook⟩) h5

end

end Xv6.Fs
