import Xv6.Fs.Lemmas.Blocks
import Xv6.Kernel.Lemmas.Lost

/-!
# The file system under system calls: main results

Every statement is about a state that the system reaches from the image of `mkfs` by system calls of any
processes, each run to its end.
-/

namespace Xv6.Kernel

open Xv6.Lib Xv6.Fs Xv6.Vm

section

variable {k k' : System} {p : ProcId} {ip : Slot}

/-! ## Blocks -/

theorem Inv.sb (h : Inv k) : k.fs.sb = stdSb := h.quiet.wf.sb

/-- No call on files frees a free block. -/
theorem Inv.not_double_free (h : Inv k) (hp : (k.procs p).state = .runnable) {c : Call} (hc : c.onFiles = true) :
    syscall p c k ≠ .error (.panic "freeing free block") := by
  intro herr
  have hh := (syscall_spec h hp c).of_error herr hc
  rcases hh with (hh | hh) | hh
  · simp [exhausted] at hh
  · simp at hh
  · simp at hh

/-- The bitmap marks the blocks below 6 and the blocks in one place of an allocated inode, no block is in two
places, and no block is freed twice. -/
theorem blocks_owned (h : Reachable k) : BlocksOwned k.fs.sb k.fs.disk ∧
    ∀ p c, (k.procs p).state = .runnable → c.onFiles = true →
      syscall p c k ≠ .error (.panic "freeing free block") := by
  refine ⟨?_, fun p c hp hc => h.inv.not_double_free hp hc⟩
  rw [h.inv.sb]
  exact h.inv.quiet.wf.disk.blocksOwned

/-- A file with three bytes has been written, and another one removed. -/
theorem blocks_owned_work : ∃ k, Reachable k ∧ (k.fs.node 11).data = [1, 2, 3] ∧ BlocksOwned k.fs.sb k.fs.disk := by
  obtain ⟨k, hk, -, -, hdone⟩ := work_small
  exact ⟨k, hk, by rw [hdone.file.2], (blocks_owned hk).1⟩

/-- The inode cache agrees with the disk, and files have no holes. -/
theorem cache_writeThrough (h : Reachable k) :
    (∀ ip, 0 < (k.fs.inodes ip).ref → (k.fs.inodes ip).valid = true →
      (k.fs.inodes ip).toDinode = dinodeOf k.fs.sb k.fs.disk (k.fs.inodes ip).inum) ∧
    ∀ i < k.fs.sb.nInodes, (dinodeOf k.fs.sb k.fs.disk i).type ≠ 0 → (dinodeOf k.fs.sb k.fs.disk i).type ≠ tDev →
      HoleFree k.fs.disk (dinodeOf k.fs.sb k.fs.disk i) := by
  have hwf := h.inv.quiet.wf
  refine ⟨fun ip href hv => (hwf.cache.entry ip href).copy hv, fun i hi _ _ => ?_⟩
  rw [hwf.sb] at hi ⊢
  exact hwf.disk.holeFree hi

/-- The inode of a file that has been written agrees with its copy on the disk. -/
theorem cache_writeThrough_work : ∃ k ip, Reachable k ∧ (k.fs.inodes ip).inum = 11 ∧ (k.fs.node 11).data = [1, 2, 3] ∧
    (k.fs.inodes ip).toDinode = dinodeOf k.fs.sb k.fs.disk 11 := by
  obtain ⟨k, hk, -, -, hdone⟩ := work_small
  obtain ⟨ip, hinum, href, hv⟩ := hdone.cached
  have hcopy := (cache_writeThrough hk).1 ip href hv
  rw [hinum] at hcopy
  exact ⟨k, ip, hk, hinum, by rw [hdone.file.2], hcopy⟩

/-! ## Contents of files -/

/-- `writei` and `readi` of an inode are writes to and reads of the bytes of its node. -/
structure RefinesBytes (s : Fs.State) (ip : Slot) (i : Nat) : Prop where
  writeRefused : ∀ (src : Bytes) (off n : UInt64), (s.node i).data.length < off.toNat ∨ 2 ^ 64 ≤ off.toNat + n.toNat ∨
    (ndirect + nindirect) * bsize < off.toNat + n.toNat → writei ip src off.toNat n.toNat s = .ok (-1, s)
  write : ∀ (src : Bytes) (off n : UInt64), off.toNat ≤ (s.node i).data.length →
    off.toNat + n.toNat ≤ (ndirect + nindirect) * bsize →
    -- the free blocks suffice
    blocksFor (max (blocksOf (s.node i).data.length) (blocksOf (off.toNat + n.toNat))) ≤
      freeBlocks s.disk + blocksFor (blocksOf (s.node i).data.length) →
    ∃ s', writei ip src off.toNat n.toNat s = .ok (n.toNat, s') ∧
      s'.node = upd s.node i { s.node i with data := overlay (s.node i).data off.toNat (src.slice 0 n.toNat) }
  readRefused : ∀ off n : UInt64, (s.node i).data.length < off.toNat ∨ 2 ^ 64 ≤ off.toNat + n.toNat →
    readi ip off.toNat n.toNat s = .ok (none, s)
  read : ∀ off n : UInt64, off.toNat ≤ (s.node i).data.length → off.toNat + n.toNat < 2 ^ 64 →
    ∃ dst, readi ip off.toNat n.toNat s = .ok (some dst, s) ∧
      dst = ((s.node i).data.drop off.toNat).take n.toNat ∧
        dst.length = min n.toNat ((s.node i).data.length - off.toNat)

theorem refinesBytes {s : Fs.State} {i : Nat} (h : s.WF) (href : 0 < (s.cell ip).ref) (hv : (s.cell ip).valid = true)
    (hi : (s.cell ip).inum = i) (htype : (s.node i).type ≠ tDev) : RefinesBytes s ip i := by
  subst hi
  constructor
  · intro src off n hbad
    have hbad' : (s.node (s.cell ip).inum).data.length < off.toNat ∨ 525 * 4096 < off.toNat + n.toNat := by
      rcases hbad with h0 | h0 | h0
      · exact Or.inl h0
      · exact Or.inr (lt_of_lt_of_le (by decide) h0)
      · exact Or.inr h0
    have hspec : Wp (writei ip src off.toNat n.toNat) _ _ s :=
      writei_refuse h href hv htype off.toNat_lt n.toNat_lt hbad'
    obtain ⟨_, _, hr, rfl, rfl⟩ := hspec.returns
    exact hr
  · intro src off n hoff hn hroom
    have hspec : Wp (writei ip src off.toNat n.toNat) _ _ s := writei_view h href hv htype hoff hn
    obtain ⟨_, s', hr, rfl, -, hview⟩ := hspec.returns_of fun _ h0 => absurd h0.2 (Nat.not_lt.mpr hroom)
    exact ⟨s', hr, congrArg View.node hview⟩
  · intro off n hbad
    obtain ⟨_, _, hr, rfl, rfl⟩ := (readi_view h href hv htype off.toNat_lt n.toNat_lt).returns
    rw [hr]
    exact congrArg (fun r => Except.ok (r, _)) (if_pos hbad)
  · intro off n hoff hn
    obtain ⟨_, _, hr, rfl, rfl⟩ := (readi_view h href hv htype off.toNat_lt n.toNat_lt).returns
    refine ⟨_, hr.trans (congrArg (fun r => Except.ok (r, _)) (if_neg ?_)), rfl, ?_⟩
    · exact not_or.mpr ⟨Nat.not_lt.mpr hoff, Nat.not_le.mpr hn⟩
    · rw [List.length_take, List.length_drop]
      rfl

/-- Once an inode is locked, its reads and writes are those of a byte string. -/
theorem contents_refine (h : Reachable k) (ip : Slot) (href : 0 < (k.fs.inodes ip).ref) :
    ∃ s, ilock ip k.fs = .ok ((), s) ∧ s.node = k.fs.node ∧
      ((k.fs.node (k.fs.inodes ip).inum).type ≠ tDev → RefinesBytes s ip (k.fs.inodes ip).inum) := by
  have hq := h.inv.quiet
  obtain ⟨_, s, hr, hwf, hview, -⟩ := (ilock_spec hq.wf href).returns_of (by
    rintro e (⟨-, hl⟩ | ⟨-, h0⟩)
    · exact Bool.false_ne_true ((congrFun hq.unlocked ip).symm.trans hl)
    · exact hq.alive ip href h0)
  have hcell : s.cell ip = { k.fs.cell ip with locked := true, valid := true } :=
    (congrFun (congrArg View.cell hview) ip).trans (upd_self _ _ _)
  have hnode : s.node = k.fs.node := congrArg View.node hview
  refine ⟨s, hr, hnode, fun hty => refinesBytes hwf ?_ ?_ ?_ (by rw [hnode]; exact hty)⟩
  · rw [hcell]
    exact href
  · rw [hcell]
  · rw [hcell]
    rfl

/-- A file that has been written is read. -/
theorem contents_refine_work : ∃ k ip s, Reachable k ∧ ilock ip k.fs = .ok ((), s) ∧
    readi ip 1 2 s = .ok (some [2, 3], s) := by
  obtain ⟨k, hk, -, -, hdone⟩ := work_small
  obtain ⟨ip, hinum, href, -⟩ := hdone.cached
  obtain ⟨s, hs, hnode, hrefines⟩ := contents_refine hk ip href
  rw [hinum, hdone.file.2] at hrefines
  obtain ⟨dst, hread, rfl, -⟩ := (hrefines (by decide)).read 1 2 (by rw [hnode, hdone.file.2]; decide) (by decide)
  rw [hnode, hdone.file.2] at hread
  exact ⟨k, ip, s, hk, hs, hread⟩

/-! ## Directories -/

/-- A directory lists its entries under distinct names, with `.` and `..` first. -/
structure DirShape (N : Nat → Node) (d : Nat) : Prop where
  size : (N d).data.length % dirEntSize = 0
  names : ∀ j j', j < entryCount (N d).data → j' < entryCount (N d).data → (entryAt (N d).data j).inum ≠ 0 →
    (entryAt (N d).data j').inum ≠ 0 → nameOf (entryAt (N d).data j).name = nameOf (entryAt (N d).data j').name → j = j'
  dots : 2 ≤ entryCount (N d).data
  self : (entryAt (N d).data 0).inum = d ∧ nameOf (entryAt (N d).data 0).name = dot
  parent : (entryAt (N d).data 1).inum ≠ 0 ∧ nameOf (entryAt (N d).data 1).name = dotDot

theorem Inv.dirShape (h : Inv k) {d : Nat} (hd : (k.fs.node d).type = tDir) : DirShape k.fs.node d := by
  have ht := h.quiet.tree
  obtain ⟨hsize, hdots⟩ := ht.size d hd
  exact ⟨hsize, fun j j' hj hj' h0 h0' hname => ht.names ⟨hd, hj, rfl, h0⟩ ⟨hd, hj', rfl, h0'⟩ hname,
    hdots, ht.dot d hd, ht.dotDot d hd⟩

/-- The effect of creating `path`: an absent name is bound to a new node. -/
def BindsNew (k : System) (p : ProcId) (path : List UInt8) (k' : System) : Prop :=
  match lastElement k p path with
  | none => SameBindings k.fs.node k'.fs.node
  | some (d, name) =>
    if binding k.fs.node d name = none then
      ∃ x, (k.fs.node x).type = 0 ∧ Rebinds k.fs.node k'.fs.node d name (some x)
    else SameBindings k.fs.node k'.fs.node

/-- The effect of removing `path`: it succeeds unless the name is absent, a dot or a directory in use. -/
def Unbinds (k : System) (p : ProcId) (path : List UInt8) (r : Int) (k' : System) : Prop :=
  match lastElement k p path with
  | none => r = -1 ∧ SameBindings k.fs.node k'.fs.node
  | some (d, name) =>
    r = -1 ∧ Refused k.fs.node d name ∧ SameBindings k.fs.node k'.fs.node ∨
      r = 0 ∧ (∃ i, binding k.fs.node d name = some i) ∧ Rebinds k.fs.node k'.fs.node d name none

/-- What a call does to the bindings of directories. -/
def BindingEffect (p : ProcId) (k : System) (r : Int) (k' : System) : Call → Prop
  | .open path omode =>
    if omode &&& oCreate ≠ 0 then BindsNew k p path k' else SameBindings k.fs.node k'.fs.node
  | .mkdir path | .mknod path _ _ => BindsNew k p path k'
  | .unlink path => Unbinds k p path r k'
  | _ => SameBindings k.fs.node k'.fs.node

theorem bindsNew_of_taken {cwd : Slot} {path : List UInt8} (hcwd : (k.procs p).cwd = some cwd)
    (ht : Taken k.fs cwd path) (hs : SameBindings k.fs.node k'.fs.node) : BindsNew k p path k' := by
  unfold BindsNew
  split
  · exact hs
  · rename_i d name hlast
    rw [lastElement, hcwd] at hlast
    obtain ⟨n, hn⟩ := ht d name hlast
    rw [if_neg fun h0 => by rw [← lookup_eq_none_iff_binding, hn] at h0; cases h0]
    exact hs

theorem bindsNew_of_creates {cwd : Slot} {path : List UInt8} {type major minor : Int} {N : Nat → Node}
    (hcwd : (k.procs p).cwd = some cwd) (ht : Fs.Tree k.fs.node) (htype : type ≠ 0)
    (hc : Creates k.fs cwd path type major minor N) (hf : Frees N k'.fs.node) : BindsNew k p path k' := by
  obtain ⟨d, name, x, hres, hnone, hx, hre⟩ := hc.rebinds ht htype
  have hlast : lastElement k p path = some (d, name) := by
    rw [lastElement, hcwd]
    exact hres
  unfold BindsNew
  rw [hlast]
  exact (if_pos hnone).mpr ⟨x, hx, hre.frees hf⟩

theorem bindsNew_of_iff {cwd : Slot} {path : List UInt8} {type major minor r : Int}
    (hcwd : (k.procs p).cwd = some cwd) (ht : Fs.Tree k.fs.node) (htype : type ≠ 0)
    (hc : CreatesIff k.fs cwd path type major minor r k'.fs.node) : BindsNew k p path k' := by
  rcases hc with ⟨-, hwhy, hnode⟩ | ⟨-, hc⟩
  · exact bindsNew_of_taken hcwd hwhy (sameBindings_of fun e _ => by rw [hnode])
  · exact bindsNew_of_creates hcwd ht htype hc .refl

theorem Inv.bindingEffect (h : Inv k) {c : Call} {r : Int} (he : Effect p k r k' c) : BindingEffect p k r k' c := by
  have ht := h.quiet.tree
  have hfrees : Frees k.fs.node k'.fs.node → SameBindings k.fs.node k'.fs.node := fun hf =>
    sameBindings_of fun e h0 => frees_same hf h0
  cases c with
  | «open» path omode =>
      obtain ⟨cwd, hcwd, N, hf, hN⟩ := he
      show if omode &&& oCreate ≠ 0 then BindsNew k p path k' else SameBindings k.fs.node k'.fs.node
      rcases hN with ⟨hwhy, rfl⟩ | ⟨hc, hN⟩
      · split
        · exact bindsNew_of_taken hcwd (hwhy ‹_›) (hfrees hf)
        · exact hfrees hf
      · rw [if_pos hc]
        exact bindsNew_of_creates hcwd ht (by decide) hN hf
  | mkdir path =>
      obtain ⟨cwd, hcwd, hc⟩ := he
      exact bindsNew_of_iff hcwd ht (by decide) hc
  | mknod path major minor =>
      obtain ⟨cwd, hcwd, hc⟩ := he
      exact bindsNew_of_iff hcwd ht (by decide) hc
  | unlink path =>
      obtain ⟨cwd, hcwd, hc⟩ := he
      have hlast : lastElement k p path = resolve k.fs.node (k.fs.cell cwd).inum path true := by
        rw [lastElement, hcwd]
        rfl
      show Unbinds k p path r k'
      unfold Unbinds
      rcases hc with ⟨rfl, hwhy, hnode⟩ | ⟨rfl, hc⟩
      · have hs : SameBindings k.fs.node k'.fs.node := sameBindings_of fun e _ => by rw [hnode]
        split
        · exact ⟨rfl, hs⟩
        · rename_i d name h0
          exact Or.inl ⟨rfl, hwhy d name (hlast.symm.trans h0), hs⟩
      · obtain ⟨d, name, i, hres, hb, hre⟩ := hc.rebinds ht
        rw [hlast, hres]
        exact Or.inr ⟨rfl, ⟨i, hb⟩, hre⟩
  | write fd data =>
      rcases he with hnode | ⟨i, hw⟩
      · exact sameBindings_of fun e _ => by rw [hnode]
      · exact hw.sameBindings
  | read | close | dup | fstat | chdir | pipe | fork | exec | exit | wait | sbrk | kill | getpid => exact hfrees he

/-- `dir_lookup` gives the node that the directory binds the name to. -/
theorem Inv.dirLookup_binding (h : Inv k) {dp : Slot} {name : List UInt8} (href : 0 < (k.fs.cell dp).ref)
    (hd : (k.fs.node (k.fs.cell dp).inum).type = tDir) :
    Wp (do ilock dp; dirLookup dp name)
      (fun r s => r.map (fun x => (s.inodes x.1).inum) = binding k.fs.node (k.fs.cell dp).inum name)
      (fun e => e = .panic "iget: no empty slot" ∧ ∀ jp, 0 < (k.fs.inodes jp).ref) k.fs := by
  have hstart := During.start h.quiet.wf
  refine hstart.lockNode href (congrFun h.quiet.unlocked dp) rfl (fun h0 => absurd (h0.symm.trans hd) (by decide)) ?_
  intro t h1 hkeep hval _
  have hi1 : (t.cell dp).inum = (k.fs.cell dp).inum := (hkeep dp).1
  have href1 : 0 < (t.cell dp).ref := by
    rw [h1.held.ref]
    exact Nat.lt_of_lt_of_le href (Nat.le_add_right _ _)
  refine (dirLookup_spec h1.wf (h1.openDir h.quiet.tree href1 hval hi1 hd) name).mono (fun r s hr => ?_)
    fun _ he => ⟨he.1, fun jp => ?_⟩
  · unfold binding
    split at hr
    · rename_i hlook
      rw [hr.1, hlook]
      rfl
    · rename_i n hlook
      obtain ⟨ip, rfl, hwf, hg⟩ := hr
      rw [hlook, Option.map_some, Option.map_some]
      exact congrArg some (h1.gets hwf hg).2
  · have hfull := he.2 jp
    rw [h1.held.ref] at hfull
    exact hfull

/-- Directories are finite maps: a lookup gives the binding of its name, creating and removing a name change one
binding, and no other call changes any. No open file can be written that is a directory. -/
theorem directories_refine_maps (h : Reachable k) :
    (∀ d, (k.fs.node d).type = tDir → DirShape k.fs.node d) ∧
    (∀ dp name, 0 < (k.fs.inodes dp).ref → (k.fs.node (k.fs.inodes dp).inum).type = tDir →
      Wp (do ilock dp; dirLookup dp name)
        (fun r s => r.map (fun x => (s.inodes x.1).inum) = binding k.fs.node (k.fs.inodes dp).inum name)
        (fun e => e = .panic "iget: no empty slot" ∧ ∀ jp, 0 < (k.fs.inodes jp).ref) k.fs) ∧
    (∀ f, 0 < (k.files f).ref → (k.files f).type = .inode → (k.files f).writable = true →
      (k.fs.node (k.fs.inodes (k.files f).ip).inum).type ≠ tDir) ∧
    ∀ p c r k', (k.procs p).state = .runnable → syscall p c k = .ok (r, k') → BindingEffect p k r k' c := by
  have hinv := h.inv
  refine ⟨fun d hd => hinv.dirShape hd, fun dp name href hd => ?_, fun f href htype hw => ?_, fun p c r k' hp hok => ?_⟩
  · exact hinv.dirLookup_binding href hd
  · exact hinv.table.writable f _ (if_pos htype) hw
  · exact hinv.bindingEffect ((syscall_spec hinv hp c).of_ok hok).2

/-- A directory with a file in it. -/
theorem directories_refine_maps_work : ∃ k, Reachable k ∧ Entry k.fs.node 10 2 11 ∧ DirShape k.fs.node 10 := by
  obtain ⟨k, hk, -, -, hdone⟩ := work_small
  exact ⟨k, hk, hdone.file.1, (directories_refine_maps hk).1 10 hdone.dir.2⟩

/-! ## The tree -/

/-- What the root leads to is a tree with exact link counts. -/
structure TreeShape (N : Nat → Node) : Prop where
  named : ∀ i, Reached N i → i ≠ rootino → ∃! e : Nat × Nat, 2 ≤ e.2 ∧ Entry N e.1 e.2 i
  self : ∀ d, Reached N d → (N d).type = tDir → (entryAt (N d).data 0).inum = d
  root : parentOf N rootino = rootino
  parent : ∀ {d j i}, Reached N i → 2 ≤ j → Entry N d j i → (N i).type = tDir → parentOf N i = d
  file : ∀ i, Reached N i → (N i).type ≠ tDir → (N i).nlink = 1
  dir : ∀ d, Reached N d → (N d).type = tDir → (N d).nlink = 1 + ((subdirs N d).card : Int)

theorem Inv.treeShape (h : Inv k) : TreeShape k.fs.node := by
  have ht := h.quiet.tree
  have hl : ∀ {i}, Reached k.fs.node i → Linked k.fs.node i := ht.reached_iff.mp
  exact ⟨fun i hi h1 => (hl hi).unique ht h1, fun d _ hd => (ht.dot d hd).1, ht.rootParent,
    fun _ hj he hd => ht.parent hj he hd, fun i hi hd => (hl hi).nlink_file ht hd,
      fun d hd h0 => (hl hd).nlink_dir ht h0⟩

theorem Inv.unlink_nlink (h : Inv k) (hp : (k.procs p).state = .runnable) (path : List UInt8) :
    syscall p (.unlink path) k ≠ .error (.panic "unlink: nlink < 1") := by
  intro herr
  have hh := (syscall_spec h hp (.unlink path)).of_error herr rfl
  rcases hh with (hh | hh) | hh
  · simp [exhausted] at hh
  · simp at hh
  · simp at hh

/-- Links and names of what the root leads to, in every state; `sys_unlink` finds a link to drop, and frees only
what no reachable directory has an entry for. -/
theorem tree_shape (h : Reachable k) : TreeShape k.fs.node ∧
    ∀ p path, (k.procs p).state = .runnable →
      syscall p (.unlink path) k ≠ .error (.panic "unlink: nlink < 1") ∧
      ∀ r k', syscall p (.unlink path) k = .ok (r, k') → ∀ i, (k'.fs.node i).type = 0 →
        ∀ d j, Reached k'.fs.node d → ¬ Entry k'.fs.node d j i := by
  refine ⟨h.inv.treeShape, fun p path hp => ⟨h.inv.unlink_nlink hp path, fun r k' hok i hi d j hd he => ?_⟩⟩
  have ht := ((syscall_spec h.inv hp _).of_ok hok).1.quiet.tree
  exact (ht.reached_iff.mp (.entry hd he)).type_ne ht hi

/-- A directory with a file in it is the parent of the file and has one link. -/
theorem tree_shape_work : ∃ k, Reachable k ∧ parentOf k.fs.node 10 = rootino ∧ (k.fs.node 11).nlink = 1 := by
  obtain ⟨k, hk, -, -, hdone⟩ := work_small
  have hshape := (tree_shape hk).1
  have hdir : Reached k.fs.node 10 := .entry .root hdone.dir.1
  exact ⟨k, hk, hshape.parent hdir (by decide) hdone.dir.1 hdone.dir.2,
    hshape.file 11 (.entry hdir hdone.file.1) (by rw [hdone.file.2]; decide)⟩

/-! ## Dangling entries -/

/-- No entry of an allocated directory leads to a free inode, as long as the calls keep the parents of directories
in use; so no lookup comes upon an inode without a type. -/
theorem no_dangling_entry (h : ReachableIf KeepsParents k) : ¬ Dangling k.fs.node ∧
    ∀ p c, (k.procs p).state = .runnable → c.onFiles = true → syscall p c k ≠ .error (.panic "ilock: no type") := by
  obtain ⟨hinv, ha⟩ := h.anchored
  have hnd : ¬ Dangling k.fs.node := ha.not_dangling hinv.quiet.tree
  refine ⟨hnd, fun p c hp hc herr => ?_⟩
  rcases (syscall_spec hinv hp c).of_error herr hc with (hh | hh | hh) | hh
  · simp [exhausted] at hh
  · exact hnd hh.2
  · cases hh
  · simp at hh

/-- A file has been removed. -/
theorem no_dangling_entry_work : ∃ k, ReachableIf KeepsParents k ∧ Entry k.fs.node 10 2 11 ∧ ¬ Dangling k.fs.node := by
  obtain ⟨k, -, hk, -, hdone⟩ := work_small
  exact ⟨k, hk, hdone.file.1, (no_dangling_entry hk).1⟩

/-- `mkdir /a`, `mkdir /a/b`, `chdir /a/b`, `unlink /a/b`, `unlink /a`. -/
def danglingCalls : List (ProcId × Call) :=
  [(initId, .mkdir [47, 97]), (initId, .mkdir [47, 97, 47, 98]), (initId, .chdir [47, 97, 47, 98]),
    (initId, .unlink [47, 97, 47, 98]), (initId, .unlink [47, 97])]

/-- The working directory is removed before its parent: its `..` leads to a free inode, and the next lookup of
`..` halts the kernel. -/
theorem dangling_entry : ∃ k, Reachable k ∧ Entry k.fs.node 11 1 10 ∧ (k.fs.node 10).type = 0 ∧
    syscall initId (.open [46, 46] 0) k = .error (.panic "ilock: no type") := by
  have hrun : (runCalls danglingCalls smallSystem).any (fun k => (k.fs.node 11).type = tDir ∧
      1 < entryCount (k.fs.node 11).data ∧ (entryAt (k.fs.node 11).data 1).inum = 10 ∧ (k.fs.node 10).type = 0 ∧
      haltsWith (syscall initId (.open [46, 46] 0) k) (.panic "ilock: no type")) = true := by
    decide +kernel
  obtain ⟨k, hk, h⟩ := reachable_small.of_any hrun
  obtain ⟨hdir, hlt, hinum, hfree, herr⟩ := of_decide_eq_true h
  exact ⟨k, hk, ⟨hdir, hlt, hinum, by decide⟩, hfree, haltsWith_iff.mp herr⟩

/-! ## Orphans -/

/-- The inode is open in some file or the working directory of some process. -/
def InUse (k : System) (i : Nat) : Prop :=
  (∃ f, 0 < (k.files f).ref ∧ (k.files f).type = .inode ∧ (k.fs.inodes (k.files f).ip).inum = i) ∨
    ∃ p ip, (k.procs p).cwd = some ip ∧ (k.fs.inodes ip).inum = i

theorem Inv.inUse (h : Inv k) {ip : Slot} (href : 0 < (k.fs.cell ip).ref) : InUse k (k.fs.cell ip).inum := by
  have hcount := h.table.inode ip
  rw [Pi.zero_apply, Nat.add_zero] at hcount
  by_cases hf : refs (inodeOf k.files) ip = 0
  · have hc : refs (cwdsOf k.procs) ip ≠ 0 := by omega
    obtain ⟨p, hp⟩ := not_forall.mp (mt refs_eq_zero.mpr hc)
    exact Or.inr ⟨p, ip, not_not.mp hp, rfl⟩
  · obtain ⟨f, hf⟩ := not_forall.mp (mt refs_eq_zero.mpr hf)
    have hf : (k.files f).inode = some ip := not_not.mp hf
    unfold File.inode at hf
    split at hf
    · rename_i htype
      refine Or.inl ⟨f, Nat.pos_of_ne_zero fun h0 => ?_, htype, by rw [Option.some.inj hf]; rfl⟩
      rw [h.table.closed f h0] at htype
      cases htype
    · cases hf

/-- Every allocated inode is reachable from the root or in use, as long as names are created in reachable
directories only; once only the root is in use, the allocated inodes are the reachable ones. -/
theorem no_orphan (h : ReachableIf CreatesReached k) :
    (∀ i, (k.fs.node i).type ≠ 0 → Reached k.fs.node i ∨ InUse k i) ∧
    ((∀ i, InUse k i → i = rootino) → ∀ i, (k.fs.node i).type ≠ 0 ↔ Reached k.fs.node i) := by
  obtain ⟨hinv, hr⟩ := h.rooted
  have ht := hinv.quiet.tree
  have hmain : ∀ i, (k.fs.node i).type ≠ 0 → Reached k.fs.node i ∨ InUse k i := by
    intro i hi
    by_cases h1 : i = 1
    · rw [h1]
      exact Or.inl .root
    by_cases hn : Named k.fs.node i
    · exact Or.inl (ht.reached_iff.mpr (hr.linked hn))
    · obtain ⟨ip, href, rfl, -⟩ := hinv.quiet.noLost i hi (hr.unnamed i hi h1 hn)
      exact Or.inr (hinv.inUse href)
  refine ⟨hmain, fun honly i => ⟨fun hi => ?_, fun hi => (ht.reached_iff.mp hi).type_ne ht⟩⟩
  rcases hmain i hi with h0 | h0
  · exact h0
  · rw [honly i h0]
    exact .root

/-- A file that was removed while it was open. -/
theorem no_orphan_work : ∃ k, ReachableIf CreatesReached k ∧ (k.fs.node 12).type ≠ 0 ∧
    (Reached k.fs.node 12 ∨ InUse k 12) := by
  obtain ⟨k, -, -, hk, hdone⟩ := work_small
  exact ⟨k, hk, hdone.removed, (no_orphan hk).1 12 hdone.removed⟩

/-- `mkdir /a`, `chdir /a`, `unlink /a`, `open("f", O_CREATE)`, `close(0)`, `chdir /`. -/
def orphanCalls : List (ProcId × Call) :=
  [(initId, .mkdir [47, 97]), (initId, .chdir [47, 97]), (initId, .unlink [47, 97]), (initId, .open [102] oCreate),
    (initId, .close 0), (initId, .chdir [47])]

/-- A file is created in a removed directory that is still in use; when the directory is left, the file stays
allocated without a name or a user. -/
theorem orphan : ∃ k, Reachable k ∧ (k.fs.node 11).type ≠ 0 ∧ ¬ Reached k.fs.node 11 ∧ ¬ InUse k 11 := by
  have hrun : (runCalls orphanCalls smallSystem).any (fun k => (k.fs.node 11).type ≠ 0 ∧
      (∀ j < entryCount (k.fs.node 1).data, (entryAt (k.fs.node 1).data j).inum ≠ 11 ∧
        ((entryAt (k.fs.node 1).data j).inum = 1 ∨ (k.fs.node (entryAt (k.fs.node 1).data j).inum).type ≠ tDir)) ∧
      (∀ f, (k.files f).type ≠ .inode) ∧
      ∀ p ip, (k.procs p).cwd = some ip → (k.fs.inodes ip).inum ≠ 11) = true := by
    decide +kernel
  obtain ⟨k, hk, h⟩ := reachable_small.of_any hrun
  obtain ⟨htype, hent, hfile, hcwd⟩ := of_decide_eq_true h
  refine ⟨k, hk, htype, fun hr => ?_, ?_⟩
  · obtain h1 | ⟨j, hj, h11⟩ := hr.in_root fun j hj => (hent j hj).2
    · cases h1
    · exact (hent j hj).1 h11
  · rintro (⟨f, -, h0, -⟩ | ⟨p, ip, h0, h1⟩)
    · exact hfile f h0
    · exact hcwd p ip h0 h1

end

end Xv6.Kernel
