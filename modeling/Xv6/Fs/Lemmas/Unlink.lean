import Xv6.Fs.Lemmas.Create

/-!
# Removing names

`sys_unlink` clears the entry of a name, and frees what nobody links to or holds any more.
-/

namespace Xv6.Fs

open Xv6.Lib

/-- Some cell refers to the node. -/
def HeldBy (c : Slot → Cell) (i : Nat) : Prop := ∃ jp, 0 < (c jp).ref ∧ (c jp).inum = i

instance (c : Slot → Cell) (i : Nat) : Decidable (HeldBy c i) :=
  inferInstanceAs (Decidable (∃ jp, 0 < (c jp).ref ∧ (c jp).inum = i))

/-- The node after it was freed. -/
def Node.freed (n : Node) : Node := { n with type := 0, data := [] }

/-- A node without links that nobody holds is freed. -/
def reap (N : Nat → Node) (c : Slot → Cell) (i : Nat) : Nat → Node :=
  if (N i).nlink = 0 ∧ ¬ HeldBy c i then upd N i (N i).freed else N

/-- The data of a directory without the entry `k`. -/
def clearEntry (data : List UInt8) (k : Nat) : List UInt8 := overlay data (32 * k) (List.replicate 32 0)

/-- The nodes after the entry `k` of the directory `d`, which refers to the node `i`, was removed. -/
def removed (N : Nat → Node) (d k i : Nat) : Nat → Node :=
  upd (upd N d { N d with
    nlink := if (N i).type = tDir then (N d).nlink - 1 else (N d).nlink
    data := clearEntry (N d).data k }) i { N i with nlink := (N i).nlink - 1 }

section

variable {c : Slot → Cell} {k : Nat → Option (List UInt8)} {N : Nat → Node} {e : Slot → Nat} {L : Slot → Bool}
  {t t' : State} {ip : Slot} {i : Nat} {α : Type} {Q : α → State → Prop} {E : Halt → Prop}

/-- Dropping the only reference of a call frees a node that the others do not hold. -/
theorem During.frees_iff (h : During c k N (e + one ip) L t) (he : e ip = 0) (hv : (t.cell ip).valid = true)
    (hi : (t.cell ip).inum = i) : t.view.Frees ip ↔ (N i).nlink = 0 ∧ ¬ HeldBy c i := by
  have href := h.held.ref ip
  rw [Pi.add_apply, one_self, he] at href
  unfold View.Frees
  rw [h.nodeAt_eq hi, State.view_cell]
  refine ⟨fun ⟨_, hn, h1⟩ => ⟨hn, ?_⟩, fun ⟨hn, hnot⟩ => ⟨hv, hn, ?_⟩⟩
  · rintro ⟨jp, hj, hji⟩
    have hjp : jp = ip := by
      refine h.wf.cache.unique jp ip ?_ ?_ ?_
      · exact lt_of_lt_of_le hj (by have := h.held.ref jp; change (t.inodes jp).ref = _ at this; omega)
      · change 0 < (t.cell ip).ref
        omega
      · exact ((h.held.inum jp hj).trans hji).trans hi.symm
    rw [hjp] at hj
    omega
  · have h0 : (c ip).ref = 0 := by
      by_contra hne
      exact hnot ⟨ip, Nat.pos_of_ne_zero hne, (h.held.inum ip (Nat.pos_of_ne_zero hne)).symm.trans hi⟩
    omega

theorem During.release (h : During c k N (e + one ip) L t) (he : e ip = 0) (hv : (t.cell ip).valid = true)
    (hi : (t.cell ip).inum = i) (hwf : t'.WF) (hview : t'.view = t.view.drop ip) :
    During c k (reap N c i) e (upd L ip false) t' := by
  have hiff := h.frees_iff he hv hi
  refine ⟨hwf, ?_, ?_, ?_, ?_⟩
  · refine (congrArg View.node hview).trans ?_
    rw [reap]
    split
    · rw [View.drop, if_pos (hiff.mpr ‹_›), h.nodeAt_eq hi, View.setCell_node, View.setNode_node, State.view_cell, hi,
        State.view_node, h.node]
      rfl
    · rw [View.drop, if_neg fun h0 => absurd (hiff.mp h0) ‹_›]
      exact h.node
  · refine (congrArg View.console hview).trans ?_
    unfold View.drop
    split <;> exact h.console
  · rw [show t'.cell = (t.view.drop ip).cell from congrArg View.cell hview]
    exact h.held.drop
  · rw [hview, View.locks_drop, h.locks]

/-- The cells after a reference was dropped. -/
theorem During.drop_cells (h : During c k N (e + one ip) L t) (hv : (t.cell ip).valid = true)
    (hview : t'.view = t.view.drop ip) :
    (∀ jp, jp ≠ ip → t'.cell jp = t.cell jp) ∧ (0 < (c ip).ref → (t'.cell ip).valid = true) := by
  have hr := h.held.ref ip
  rw [Pi.add_apply, one_self] at hr
  have hc : t'.cell = (t.view.drop ip).cell := congrArg View.cell hview
  rw [hc, View.drop]
  split
  · rename_i hf
    have h1 : (t.cell ip).ref = 1 := hf.2.2
    refine ⟨fun jp hj => ?_, fun h0 => by omega⟩
    rw [View.setCell_cell, upd_of_ne hj]
    rfl
  · refine ⟨fun jp hj => ?_, fun _ => ?_⟩
    · rw [View.setCell_cell, upd_of_ne hj]
      rfl
    · rw [View.setCell_cell, upd_self]
      exact hv

/-- `iunlock(ip); iput(ip);` for a node that may have lost its last link. -/
theorem During.releaseBack (h : During c k N (e + one ip) L t) (he : e ip = 0) (hv : (t.cell ip).valid = true)
    (hi : (t.cell ip).inum = i) (hlock : L ip = true) {rest : FsM α}
    (hrest : ∀ t', During c k (reap N c i) e (upd L ip false) t' → (∀ jp, jp ≠ ip → t'.cell jp = t.cell jp) →
      (0 < (c ip).ref → (t'.cell ip).valid = true) → Wp rest Q E t') :
    Wp (iunlock ip >>= fun _ => iput ip >>= fun _ => rest) Q E t := by
  have href : 0 < (t.cell ip).ref := h.ref_pos (by simp)
  refine Wp.seq (iunlock_spec h.wf href ((h.locked_eq ip).trans hlock)) (fun _ h0 => h0.elim) ?_
  rintro _ t1 ⟨hwf1, hv1⟩
  have h1 := h.unlock hwf1 hv1
  have hc1 : ∀ jp, jp ≠ ip → t1.cell jp = t.cell jp := by
    intro jp hj
    rw [show t1.cell = (t.view.unlock ip).cell from congrArg View.cell hv1, View.unlock, View.setCell_cell,
      upd_of_ne hj]
    rfl
  have hval1 := (Keep.unlock hv1 ip).2 hv
  refine Wp.seq (iput_spec h1.wf (h1.ref_pos (by simp)) ?_) (fun _ h0 => h0.elim) ?_
  · rw [h1.locked_eq, upd_self]
  · rintro _ t2 ⟨hwf2, hv2⟩
    have h2 := h1.release he hval1 ((Keep.unlock hv1 ip).1.trans hi) hwf2 hv2
    rw [upd_upd] at h2
    obtain ⟨hc2, hval2⟩ := h1.drop_cells hval1 hv2
    exact hrest t2 h2 (fun jp hj => (hc2 jp hj).trans (hc1 jp hj)) hval2

end

/-! ## The code -/

/-- `sys_unlink` refuses the names `.` and `..`, names that are not there, and directories with entries. -/
def Refused (N : Nat → Node) (d : Nat) (name : List UInt8) : Prop :=
  (strncmp name dot dirsiz = 0 ∨ strncmp name dotDot dirsiz = 0) ∨ lookup (N d).data name = none ∨
    ∃ n k, lookup (N d).data name = some n ∧ (N (entryAt (N d).data n).inum).type = tDir ∧ 2 ≤ k ∧
      k < entryCount (N (entryAt (N d).data n).inum).data ∧
      (entryAt (N (entryAt (N d).data n).inum).data k).inum ≠ 0

/-- There is no name to remove, or it is refused. -/
def Kept (s : State) (cwd : Slot) (path : List UInt8) : Prop :=
  ∀ d name, resolve s.node (s.cell cwd).inum path true = some (d, name) → Refused s.node d name

/-- What `sys_unlink` does: nothing, or it removes an entry and frees what that leaves behind. -/
inductive UnlinkResult (s : State) (cwd : Slot) (path : List UInt8) : Int → State → Prop
  | fail {s' : State} (hwhy : Kept s cwd path)
      (h : During s.cell s.console s.node 0 (fun _ => false) s') : UnlinkResult s cwd path (-1) s'
  | done {s' : State} {d n i : Nat} {name : List UInt8}
      (hres : resolve s.node (s.cell cwd).inum path true = some (d, name))
      (hlook : lookup (s.node d).data name = some n) (hn : 2 ≤ n) (hent : Entry s.node d n i)
      (hempty : (s.node i).type = tDir → ∀ k, 2 ≤ k → k < entryCount (s.node i).data →
        (entryAt (s.node i).data k).inum = 0)
      (h : During s.cell s.console (reap (reap (removed s.node d n i) s.cell d) s.cell i) 0 (fun _ => false) s')
      (hvalid : ∀ jp, 0 < (s.cell jp).ref → (s.cell jp).inum = d ∨ (s.cell jp).inum = i →
        (s'.cell jp).valid = true) :
      UnlinkResult s cwd path 0 s'

section

variable {s t : State} {cwd dp ip : Slot} {path name : List UInt8} {d n i : Nat}

theorem Tree.nlink_pred {N : Nat → Node} (ht : Tree N) (hi : (N i).type ≠ 0) :
    toShort ((N i).nlink - 1) = (N i).nlink - 1 := by
  have := ht.nlink_range hi
  exact toShort_of_isShort (by unfold IsShort; omega)

/-- A named node has a link. -/
theorem Tree.nlink_pos {N : Nat → Node} (ht : Tree N) (hn : 2 ≤ n) (hent : Entry N d n i) : 1 ≤ (N i).nlink := by
  obtain ⟨htype, _⟩ := ht.target hn hent
  by_cases hdir : (N i).type = tDir
  · obtain ⟨c, _, hc, hl⟩ := ht.dirLinks i hdir
    have := hc (Or.inr ⟨d, n, hn, hent⟩)
    omega
  · exact ((ht.fileLinks i htype hdir).2 ⟨d, n, hn, hent⟩).ge

theorem removable_spec {c : Slot → Cell} {k : Nat → Option (List UInt8)} {N : Nat → Node} {e : Slot → Nat}
    {L : Slot → Bool} (ht : Tree N) (h : During c k N e L t) (href : 0 < (t.cell ip).ref)
    (hv : (t.cell ip).valid = true) (hi : (t.cell ip).inum = i) :
    Wp (removable ip) (fun r t' => t' = t ∧ (r = true ↔ ((N i).type = tDir →
      ∀ k, 2 ≤ k → k < entryCount (N i).data → (entryAt (N i).data k).inum = 0))) (fun _ => False) t := by
  unfold removable
  rw [wp_bind, wp_get, h.wf.type_eq href hv, h.nodeAt_eq hi, wp_ite]
  refine ⟨fun hd => ?_, fun hd => ⟨rfl, iff_of_true rfl fun hd' => absurd hd' hd⟩⟩
  refine (isDirEmpty_spec h.wf (h.openDir ht href hv hi hd)).post ?_
  rintro r _ ⟨rfl, hr⟩
  exact ⟨rfl, hr.trans ⟨fun h _ => h, fun h => h hd⟩⟩

/-- The names that `sys_unlink` refuses are those of the first two entries. -/
theorem two_le_of_lookup {N : Nat → Node} (ht : Tree N) (hd : (N d).type = tDir)
    (hname : ¬ (strncmp name dot dirsiz = 0 ∨ strncmp name dotDot dirsiz = 0))
    (hlook : lookup (N d).data name = some n) : 2 ≤ n := by
  obtain ⟨_, hb, _⟩ := lookup_eq_some.mp hlook
  rw [strncmp_name, strncmp_name] at hname
  by_contra hlt
  obtain rfl | rfl : n = 0 ∨ n = 1 := by omega
  · exact hname (Or.inl (hb.2.symm.trans (ht.dot d hd).2))
  · exact hname (Or.inr (hb.2.symm.trans (ht.dotDot d hd).2))

theorem reap_upd {N : Nat → Node} {c : Slot → Cell} {x : Node} (hne : i ≠ d) :
    reap (upd N i x) c d = upd (reap N c d) i x := by
  unfold reap
  rw [upd_of_ne hne.symm]
  split
  · rw [upd_comm hne]
  · rfl

theorem reap_of_ne {N : Nat → Node} {c : Slot → Cell} {j : Nat} (hne : j ≠ d) : reap N c d j = N j := by
  unfold reap
  split
  · rw [upd_of_ne hne]
  · rfl

/-- Cells of one node are the same cell. -/
theorem During.cell_unique {c : Slot → Cell} {k : Nat → Option (List UInt8)} {N : Nat → Node} {e : Slot → Nat}
    {L : Slot → Bool} (h : During c k N e L t) {jp : Slot} (hj : 0 < (c jp).ref) (href : 0 < (t.cell ip).ref)
    (hi : (c jp).inum = (t.cell ip).inum) : jp = ip := by
  refine h.wf.cache.unique jp ip ?_ href ((h.held.inum jp hj).trans hi)
  have := h.held.ref jp
  change 0 < (t.cell jp).ref
  omega

/-- The entry is cleared in place, so that no block is needed. -/
theorem During.clear {c : Slot → Cell} {k : Nat → Option (List UInt8)} {N : Nat → Node} {e : Slot → Nat}
    {L : Slot → Bool} (ht : Tree N) (h : During c k N e L t) (href : 0 < (t.cell dp).ref)
    (hv : (t.cell dp).valid = true) (hi : (t.cell dp).inum = d) (hent : Entry N d n i) :
    Wp (writei dp (fun _ => 0) (32 * n) dirEntSize) (fun r t' => r = (32 : Nat) ∧ t'.cell = t.cell ∧
      During c k (upd N d { N d with data := clearEntry (N d).data n }) e L t') (fun _ => False) t := by
  have hn := h.nodeAt_eq hi
  have hlen := (h.openDir ht href hv hi hent.dir).length_le h.wf
  have hlt : 32 * n + 32 ≤ (N d).data.length := by
    have := hent.lt
    unfold entryCount at this
    omega
  refine (writei_view h.wf href hv (by rw [hn, hent.dir]; decide) (by rw [hn]; omega)
    (by simp only [dirEntSize]; omega)).mono ?_ ?_
  · rintro r t1 ⟨rfl, hwf, hview⟩
    rw [hn, hi] at hview
    exact ⟨rfl, congrArg View.cell hview, h.setNode hwf hview⟩
  · rintro _ ⟨_, hlt'⟩
    rw [hn, Nat.max_eq_left (by simp only [blocksOf, dirEntSize]; omega)] at hlt'
    omega

theorem dropParentLink_spec {c : Slot → Cell} {k : Nat → Option (List UInt8)} {N : Nat → Node} {e : Slot → Nat}
    {L : Slot → Bool} (h : During c k N e L t) (hdref : 0 < (t.cell dp).ref) (hdv : (t.cell dp).valid = true)
    (hdi : (t.cell dp).inum = d) (href : 0 < (t.cell ip).ref) (hv : (t.cell ip).valid = true)
    (hi : (t.cell ip).inum = i) (hshort : toShort ((N d).nlink - 1) = (N d).nlink - 1) :
    Wp (dropParentLink dp ip) (fun _ t' => t'.cell = t.cell ∧
      During c k (upd N d { N d with nlink := if (N i).type = tDir then (N d).nlink - 1 else (N d).nlink }) e L t')
      (fun _ => False) t := by
  unfold dropParentLink
  rw [wp_bind, wp_get, h.wf.type_eq href hv, h.nodeAt_eq hi, wp_ite]
  refine ⟨fun hd => ?_, fun hd => ?_⟩
  · rw [if_pos hd, ← hshort, ← bind_pure_unit (x := iupdate dp)]
    exact h.relink (g := fun n => toShort (n - 1)) hdref hdv hdi (toShort_isShort _) fun t1 h1 hc1 => ⟨hc1, h1⟩
  · rw [if_neg hd]
    refine ⟨rfl, ?_⟩
    rwa [show upd N d { N d with nlink := (N d).nlink } = N from upd_eta N d]

theorem unlinkEntry_spec (hq : Quiet s) (hres : resolve s.node (s.cell cwd).inum path true = some (d, name))
    (hlook : lookup (s.node d).data name = some n) (hn : 2 ≤ n) (hent : Entry s.node d n i)
    (hempty : (s.node i).type = tDir → ∀ k, 2 ≤ k → k < entryCount (s.node i).data →
      (entryAt (s.node i).data k).inum = 0)
    (h : During s.cell s.console s.node (one ip + one dp) (upd (upd (fun _ => false) dp true) ip true) t)
    (hdi : (t.cell dp).inum = d) (hdv : (t.cell dp).valid = true) (hii : (t.cell ip).inum = i)
    (hiv : (t.cell ip).valid = true) :
    Wp (unlinkEntry dp ip (32 * n)) (UnlinkResult s cwd path) (fun _ => False) t := by
  obtain ⟨hitype, _, hid⟩ := hq.tree.target hn hent
  have hdp : 0 < (t.cell dp).ref := h.ref_pos (by simp)
  have hip : 0 < (t.cell ip).ref := h.ref_pos (by simp)
  have hne : dp ≠ ip := by
    rintro rfl
    exact hid (hii.symm.trans hdi)
  have hd' : ∀ jp, 0 < (s.cell jp).ref → (s.cell jp).inum = d → jp = dp :=
    fun jp hj hjd => h.cell_unique hj hdp (hjd.trans hdi.symm)
  have hi' : ∀ jp, 0 < (s.cell jp).ref → (s.cell jp).inum = i → jp = ip :=
    fun jp hj hji => h.cell_unique hj hip (hji.trans hii.symm)
  unfold unlinkEntry
  refine Wp.bind (h.clear hq.tree hdp hdv hdi hent) ?_
  rintro _ t1 ⟨rfl, hc1, h1⟩
  rw [← hc1] at hdi hdv hii hiv hdp hip
  rw [wp_bind, wp_panicIf]
  refine ⟨fun h0 => absurd rfl h0, fun _ => ?_⟩
  refine Wp.bind (dropParentLink_spec h1 hdp hdv hdi hip hiv hii ?_) ?_
  · rw [upd_self]
    exact hq.tree.nlink_pred (by rw [hent.dir]; decide)
  rintro _ t2 ⟨hc2, h2⟩
  rw [← hc2] at hdi hdv hii hiv
  rw [upd_upd, upd_self, upd_of_ne hid] at h2
  refine h2.releaseBack (by rw [one, if_neg hne]) hdv hdi (by rw [upd_of_ne hne, upd_self]) fun t3 h3 hc3 hv3 => ?_
  rw [← hc3 ip hne.symm] at hii hiv
  refine h3.relink (g := fun n => toShort (n - 1)) (h3.ref_pos (by simp)) hiv hii (toShort_isShort _) fun t4 h4 hc4 =>
    ?_
  rw [← hc4] at hii hiv
  rw [reap_of_ne hid, upd_of_ne hid, hq.tree.nlink_pred hitype, ← reap_upd hid] at h4
  rw [← zero_add (one ip)] at h4
  refine h4.releaseBack rfl hiv hii (by rw [upd_of_ne hne.symm, upd_self]) fun t5 h5 hc5 hv5 => ?_
  rw [upd_true_false hne, upd_upd, upd_const] at h5
  refine .done hres hlook hn hent hempty h5 ?_
  rintro jp hj (hjd | hji)
  · obtain rfl := hd' jp hj hjd
    rw [hc5 jp hne, hc4]
    exact hv3 hj
  · obtain rfl := hi' jp hj hji
    exact hv5 hj

theorem unlink_spec (hq : Quiet s) (hcwd : 0 < (s.cell cwd).ref) (path : List UInt8) :
    Wp (unlink cwd path) (UnlinkResult s cwd path) (Halts s.node) s := by
  unfold unlink nameiParent
  refine Wp.bind (hq.namex hcwd path true) fun r t hr => ?_
  cases hres : resolve s.node (s.cell cwd).inum path true with
  | none =>
      rw [hres] at hr
      obtain ⟨rfl, h⟩ := hr
      exact .fail (fun d name h0 => by rw [hres] at h0; cases h0) h
  | some w =>
      obtain ⟨d, name⟩ := w
      rw [hres] at hr
      obtain ⟨dp, rfl, h, hi, hdang⟩ := hr
      have hdir := resolve_parent_dir hres
      rw [← zero_add (one dp)] at h
      refine h.lockNode (h.ref_pos (by simp)) rfl hi (fun h0 => Or.inr (Or.inl ⟨rfl, hdang h0⟩))
        fun t1 h1 hkeep hval _ => ?_
      have hi1 : (t1.cell dp).inum = d := (hkeep dp).1.trans hi
      -- the way out without a change
      have hbad : Refused s.node d name →
          ∀ t, During s.cell s.console s.node (0 + one dp) (upd (fun _ => false) dp true) t →
          Wp (do iunlock dp; iput dp; pure (-1)) (UnlinkResult s cwd path) (Halts s.node) t := by
        intro hwhy t2 h2
        refine h2.putBack hq.noLost (upd_self _ _ _) fun t3 h3 _ => ?_
        rw [upd_upd, upd_const] at h3
        exact .fail (fun d' name' h0 => by rw [hres] at h0; cases h0; exact hwhy) h3
      rw [wp_ite]
      refine ⟨fun hname => hbad (Or.inl hname) t1 h1, fun hname => ?_⟩
      refine Wp.seq (dirLookup_spec h1.wf (h1.openDir hq.tree (h1.ref_pos (by simp)) hval hi1 hdir) name) ?_ ?_
      · rintro _ ⟨rfl, _⟩
        exact Or.inl (by simp [exhausted])
      cases hlook : lookup (s.node d).data name with
      | none =>
          rintro _ _ ⟨rfl, rfl⟩
          exact hbad (Or.inr (Or.inl hlook)) _ h1
      | some n =>
          rintro _ t2 ⟨ip, rfl, hwf, hg⟩
          obtain ⟨hn, hb, _⟩ := lookup_eq_some.mp hlook
          have h2n := two_le_of_lookup hq.tree hdir hname hlook
          have hent : Entry s.node d n _ := ⟨hdir, hn, rfl, hb.1⟩
          obtain ⟨hitype, _, hid⟩ := hq.tree.target h2n hent
          obtain ⟨h2, hi2⟩ := h1.gets hwf hg
          have hh := (Held.gets hg).1
          have hdref1 : 0 < (t1.cell dp).ref := h1.ref_pos (by simp)
          have hdi2 : (t2.cell dp).inum = d := (hh.inum dp hdref1).trans hi1
          have hdv2 := hh.valid dp hdref1 hval
          have hne : dp ≠ ip := by
            rintro rfl
            exact hid (hi2.symm.trans hdi2)
          refine h2.lockNode (h2.ref_pos (by simp)) (upd_of_ne hne.symm _ _) hi2 (fun h0 => absurd h0 hitype)
            fun t3 h3 hkeep3 hval3 _ => ?_
          have hi3 : (t3.cell ip).inum = _ := (hkeep3 ip).1.trans hi2
          have hdi3 : (t3.cell dp).inum = d := (hkeep3 dp).1.trans hdi2
          have href3 : 0 < (t3.cell ip).ref := h3.ref_pos (by simp)
          rw [wp_bind, wp_get, wp_bind, wp_panicIf, h3.wf.nlink_eq href3 hval3, h3.nodeAt_eq hi3]
          refine ⟨fun h0 => ?_, fun _ => ?_⟩
          · have := hq.tree.nlink_pos h2n hent
            omega
          refine Wp.seq (removable_spec hq.tree h3 href3 hval3 hi3) (fun _ h0 => h0.elim) ?_
          rintro r _ ⟨rfl, hr⟩
          rw [wp_ite]
          refine ⟨fun hr' => ?_, fun hr' => ?_⟩
          · have hfull : Refused s.node d name := by
              have hnot := mt hr.mpr (Bool.eq_false_iff.mp hr')
              push Not at hnot
              obtain ⟨hdty, k, hk⟩ := hnot
              exact Or.inr (Or.inr ⟨n, k, hlook, hdty, hk⟩)
            refine h3.putBack hq.noLost (upd_self _ _ _) fun t4 h4 _ => ?_
            rw [upd_upd, upd_comm hne, upd_const] at h4
            exact hbad hfull t4 h4
          · rw [zero_add, add_comm] at h3
            refine (unlinkEntry_spec hq hres hlook h2n hent (hr.mp (by simpa using hr')) h3 hdi3
              ((hkeep3 dp).2 hdv2) hi3 hval3).mono (fun _ _ h0 => h0) fun _ h0 => h0.elim

end

end Xv6.Fs
