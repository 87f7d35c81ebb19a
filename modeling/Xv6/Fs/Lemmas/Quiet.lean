import Mathlib.Logic.Relation
import Xv6.Fs.Lemmas.Tree

/-!
# File system calls between quiet states

Every call takes a quiet state to a quiet state, up to the references that it hands out.
-/

namespace Xv6.Fs

open Xv6.Lib

/-- `s'` is quiet, has the nodes `N`, and holds the references `e` beyond those of `s`. -/
structure Did (s : State) (N : Nat → Node) (e : Slot → Nat) (s' : State) : Prop where
  quiet : Quiet s'
  node : s'.node = N
  held : Held s.cell s'.cell e

section

variable {s s' t : State} {N : Nat → Node} {e : Slot → Nat} {L : Slot → Bool} {c c' : Slot → Cell}
  {ip cwd : Slot} {i : Nat} {path : List UInt8}

theorem NoLost.held (h : NoLost N c) (hh : Held c c' e) : NoLost N c' := by
  intro i hty hn
  obtain ⟨jp, hr, hi, hv⟩ := h i hty hn
  exact ⟨jp, by rw [hh.ref]; omega, (hh.inum jp hr).trans hi, hh.valid jp hr hv⟩

/-- The nodes that cells refer to stay allocated when the new references are to allocated nodes. -/
theorem Held.alive (hh : Held c c' e) (hold : ∀ jp, 0 < (c jp).ref → (N (c jp).inum).type ≠ 0)
    (hnew : ∀ jp, 0 < e jp → (N (c' jp).inum).type ≠ 0) : ∀ jp, 0 < (c' jp).ref → (N (c' jp).inum).type ≠ 0 := by
  intro jp hj
  by_cases h0 : 0 < (c jp).ref
  · rw [hh.inum jp h0]
    exact hold jp h0
  · refine hnew jp ?_
    have := hh.ref jp
    omega

theorem one_pos {ip jp : Slot} (h : 0 < one ip jp) : jp = ip := by
  by_contra hne
  rw [one_of_ne hne] at h
  omega

/-- A call that leaves the nodes as they are. -/
theorem Quiet.did {k : Nat → Option (List UInt8)} (hq : Quiet s)
    (h : During s.cell k s.node e (fun _ => false) s')
    (hnew : ∀ jp, 0 < e jp → (s.node (s'.cell jp).inum).type ≠ 0) : Did s s.node e s' := by
  refine ⟨⟨h.wf, ?_, ?_, h.locks, ?_⟩, h.node, h.held⟩
  · rw [h.node]
    exact hq.tree
  · rw [h.node]
    exact hq.noLost.held h.held
  · rw [h.node]
    exact h.held.alive hq.alive hnew

/-! ## Creating -/

theorem Quiet.created {k : Nat → Option (List UInt8)} {d x : Nat} {name : List UInt8} {type major minor : Int}
    (hq : Quiet s) (hdir : (s.node d).type = tDir) (hlook : lookup (s.node d).data name = none)
    (hx : 1 ≤ x ∧ x < 96) (hfree : (s.node x).type = 0) (htype : type ≠ 0)
    (h : During s.cell k (created s.node d name x type major minor) e (fun _ => false) s')
    (hnew : ∀ jp, 0 < e jp → (created s.node d name x type major minor (s'.cell jp).inum).type ≠ 0) :
    Did s (Fs.created s.node d name x type major minor) e s' := by
  refine ⟨⟨h.wf, ?_, ?_, h.locks, ?_⟩, h.node, h.held⟩
  · rw [h.node]
    exact hq.tree.created hdir hlook hx hfree htype
  · rw [h.node]
    exact (hq.noLost_created hdir hfree).held h.held
  · rw [h.node]
    refine h.held.alive (fun jp hj => ?_) hnew
    have hne : (s.cell jp).inum ≠ x := fun h0 => hq.alive jp hj (by rw [h0]; exact hfree)
    rw [created_type hdir hfree, if_neg hne]
    exact hq.alive jp hj

/-! ## Removing -/

theorem reap_held {j : Nat} (h : HeldBy c j) : reap N c i j = N j := by
  unfold reap
  split
  · rename_i h0
    rw [upd_of_ne]
    rintro rfl
    exact h0.2 h
  · rfl

/-- A node that is left without links is held. -/
theorem heldBy_of_reap (hty : (reap N c i i).type ≠ 0) (hn : (reap N c i i).nlink = 0) : HeldBy c i := by
  by_contra hnot
  unfold reap at hty hn
  split at hty
  · rw [upd_self] at hty
    exact hty rfl
  · rename_i h0
    rw [if_neg h0] at hn
    exact h0 ⟨hn, hnot⟩

theorem Quiet.removed {k : Nat → Option (List UInt8)} {d n : Nat} (hq : Quiet s) (hn : 2 ≤ n)
    (hent : Entry s.node d n i)
    (hempty : (s.node i).type = tDir → ∀ k, 2 ≤ k → k < entryCount (s.node i).data →
      (entryAt (s.node i).data k).inum = 0)
    (h : During s.cell k (reap (reap (removed s.node d n i) s.cell d) s.cell i) 0 (fun _ => false) s')
    (hvalid : ∀ jp, 0 < (s.cell jp).ref → (s.cell jp).inum = d ∨ (s.cell jp).inum = i →
      (s'.cell jp).valid = true) :
    Did s (reap (reap (Fs.removed s.node d n i) s.cell d) s.cell i) 0 s' := by
  obtain ⟨hity, _, hid⟩ := hq.tree.target hn hent
  have hdty : (Fs.removed s.node d n i d).type ≠ 0 := by
    rw [removed_type, hent.dir]
    decide
  have href : ∀ jp, 0 < (s'.cell jp).ref → 0 < (s.cell jp).ref := by
    intro jp hj
    rw [h.held.ref jp] at hj
    exact hj
  refine ⟨⟨h.wf, ?_, ?_, h.locks, ?_⟩, h.node, h.held⟩
  · rw [h.node]
    refine Tree.reap (Tree.reap (hq.tree.removed hn hent hempty) hdty) ?_
    rw [reap_of_ne hid, removed_type]
    exact hity
  · rw [h.node]
    intro j hty hnl
    -- the nodes that lost a link are held when they are still there; the others are as before
    have hheld : j = d ∨ j = i → HeldBy s.cell j := by
      rintro (rfl | rfl)
      · rw [reap_of_ne (Ne.symm hid)] at hty hnl
        exact heldBy_of_reap hty hnl
      · exact heldBy_of_reap hty hnl
    by_cases hj : j = d ∨ j = i
    · obtain ⟨jp, hr, hi⟩ := hheld hj
      refine ⟨jp, by rw [h.held.ref]; omega, (h.held.inum jp hr).trans hi, hvalid jp hr ?_⟩
      rwa [hi]
    · have hjd : j ≠ d := fun h0 => hj (Or.inl h0)
      have hji : j ≠ i := fun h0 => hj (Or.inr h0)
      rw [reap_of_ne hji, reap_of_ne hjd, Fs.removed, upd_of_ne hji, upd_of_ne hjd] at hty hnl
      obtain ⟨jp, hr, hi, hv⟩ := hq.noLost j hty hnl
      exact ⟨jp, by rw [h.held.ref]; omega, (h.held.inum jp hr).trans hi, h.held.valid jp hr hv⟩
  · intro jp hj
    have hr := href jp hj
    have hb : HeldBy s.cell (s.cell jp).inum := ⟨jp, hr, rfl⟩
    rw [h.node, h.held.inum jp hr, reap_held hb, reap_held hb, removed_type]
    exact hq.alive jp hr

/-! ## Dropping a reference -/

/-- A reference to the node of a cell was dropped, and with the last one a node without links. -/
structure Dropped (s : State) (ip : Slot) (s' : State) : Prop where
  quiet : Quiet s'
  node : s'.node = s.node ∨ ((s.node (s.cell ip).inum).type ≠ 0 ∧ (s.node (s.cell ip).inum).nlink = 0 ∧
    s'.node = upd s.node (s.cell ip).inum (s.node (s.cell ip).inum).freed)
  ref : ∀ jp, (s.cell jp).ref = (s'.cell jp).ref + one ip jp
  inum : ∀ jp, 0 < (s'.cell jp).ref → (s'.cell jp).inum = (s.cell jp).inum
  stays : ∀ jp, 0 < (s'.cell jp).ref → s'.node (s'.cell jp).inum = s.node (s.cell jp).inum

theorem Quiet.drop (hq : Quiet s) (href : 0 < (s.cell ip).ref) (hwf : s'.WF) (hv : s'.view = s.view.drop ip) :
    Dropped s ip s' := by
  have hc : s'.cell = (s.view.drop ip).cell := congrArg View.cell hv
  have hn : s'.node = (s.view.drop ip).node := congrArg View.node hv
  have hl : s'.view.locks = fun _ => false := by
    rw [hv, View.locks_drop, hq.unlocked, upd_const]
  have hty := hq.alive ip href
  by_cases hf : s.view.Frees ip
  · rw [View.drop, if_pos hf] at hc hn
    have hone : (s.cell ip).ref = 1 := hf.2.2
    have hc' : s'.cell = upd s.cell ip { s.cell ip with ref := 0, locked := false, valid := false } := hc
    have hn' : s'.node = upd s.node (s.cell ip).inum (s.node (s.cell ip).inum).freed := hn
    have hne : ∀ jp, 0 < (s'.cell jp).ref → jp ≠ ip := by
      rintro jp hj rfl
      rw [hc', upd_self] at hj
      exact absurd hj (lt_irrefl 0)
    have hsame : ∀ jp, 0 < (s'.cell jp).ref → s'.cell jp = s.cell jp := fun jp hj => by
      rw [hc', upd_of_ne (hne jp hj)]
    -- another cell in use is not the cell of the freed node
    have hother : ∀ jp, 0 < (s'.cell jp).ref → (s.cell jp).inum ≠ (s.cell ip).inum := by
      intro jp hj h0
      have hj' := hj
      rw [hsame jp hj] at hj'
      exact hne jp hj (hq.wf.cache.unique jp ip hj' href h0)
    refine ⟨⟨hwf, ?_, ?_, hl, ?_⟩, Or.inr ⟨hty, hf.2.1, hn'⟩, ?_, ?_, ?_⟩
    · rw [hn']
      exact hq.tree.freed hty hf.2.1
    · rw [hn']
      intro j hjty hjn
      have hji : j ≠ (s.cell ip).inum := ne_of_type hjty
      rw [freed_of_ne hji] at hjty hjn
      obtain ⟨jp, hr, hi, hval⟩ := hq.noLost j hjty hjn
      have hjp : jp ≠ ip := by
        rintro rfl
        exact hji hi.symm
      exact ⟨jp, by rw [hc', upd_of_ne hjp]; exact hr, by rw [hc', upd_of_ne hjp]; exact hi,
        by rw [hc', upd_of_ne hjp]; exact hval⟩
    · intro jp hj
      have hj' := hj
      rw [hsame jp hj] at hj' ⊢
      rw [hn', freed_of_ne (hother jp hj)]
      exact hq.alive jp hj'
    · intro jp
      by_cases hjp : jp = ip
      · rw [hjp, hc', upd_self, one_self, hone]
      · rw [hc', upd_of_ne hjp, one_of_ne hjp]
        rfl
    · exact fun jp hj => by rw [hsame jp hj]
    · intro jp hj
      rw [hsame jp hj, hn', freed_of_ne (hother jp hj)]
  · rw [View.drop, if_neg hf] at hc hn
    have hc' : s'.cell = upd s.cell ip { s.cell ip with ref := (s.cell ip).ref - 1, locked := false } := hc
    have hn' : s'.node = s.node := hn
    have hinum : ∀ jp, (s'.cell jp).inum = (s.cell jp).inum := fun jp => by
      rw [hc', upd_apply]
      split
      · rw [‹jp = ip›]
      · rfl
    have hr : ∀ jp, (s.cell jp).ref = (s'.cell jp).ref + one ip jp := by
      intro jp
      by_cases hjp : jp = ip
      · rw [hjp, hc', upd_self, one_self]
        dsimp only
        omega
      · rw [hc', upd_of_ne hjp, one_of_ne hjp]
        rfl
    refine ⟨⟨hwf, ?_, ?_, hl, ?_⟩, Or.inl hn', hr, fun jp _ => hinum jp, ?_⟩
    · rw [hn']
      exact hq.tree
    · rw [hn']
      intro j hjty hjn
      obtain ⟨jp, hpos, hi, hval⟩ := hq.noLost j hjty hjn
      have hv' : (s'.cell jp).valid = true := by
        rw [hc', upd_apply]
        split
        · rw [‹jp = ip›] at hval
          exact hval
        · exact hval
      refine ⟨jp, ?_, (hinum jp).trans hi, hv'⟩
      by_cases hjp : jp = ip
      · -- the last reference would have freed the node
        subst hjp
        have h1 : (s.cell jp).ref ≠ 1 := fun h1 => hf ⟨hval, by rw [View.nodeAt]; exact hi ▸ hjn, h1⟩
        have := hr jp
        rw [one_self] at this
        omega
      · have := hr jp
        rw [one_of_ne hjp] at this
        omega
    · intro jp hj
      rw [hn', hinum]
      refine hq.alive jp ?_
      have := hr jp
      omega
    · intro jp _
      rw [hn', hinum]

/-- A node without links is freed. -/
def Free (N N' : Nat → Node) : Prop := ∃ i, (N i).type ≠ 0 ∧ (N i).nlink = 0 ∧ N' = upd N i (N i).freed

abbrev Frees : (Nat → Node) → (Nat → Node) → Prop := Relation.ReflTransGen Free

theorem Dropped.frees (h : Dropped s ip s') : Frees s.node s'.node := by
  rcases h.node with h0 | ⟨hty, hn, h0⟩
  · rw [h0]
  · exact .single ⟨_, hty, hn, h0⟩

/-! ## The calls -/

/-- The nodes after a name was created for `path`. -/
inductive Creates (s : State) (cwd : Slot) (path : List UInt8) (type major minor : Int) : (Nat → Node) → Prop
  | mk {d x : Nat} {name : List UInt8}
      (hres : resolve s.node (s.cell cwd).inum path true = some (d, name)) (hdir : (s.node d).type = tDir)
      (hlook : lookup (s.node d).data name = none) (hx : 1 ≤ x ∧ x < 96) (hfree : (s.node x).type = 0) :
      Creates s cwd path type major minor (created s.node d name x type major minor)

/-- The nodes after the name of `path` was removed. -/
inductive Removes (s : State) (cwd : Slot) (path : List UInt8) : (Nat → Node) → Prop
  | mk {d n i : Nat} {name : List UInt8}
      (hres : resolve s.node (s.cell cwd).inum path true = some (d, name))
      (hlook : lookup (s.node d).data name = some n) (hn : 2 ≤ n) (hent : Entry s.node d n i)
      (hempty : (s.node i).type = tDir → ∀ k, 2 ≤ k → k < entryCount (s.node i).data →
        (entryAt (s.node i).data k).inum = 0) :
      Removes s cwd path (reap (reap (removed s.node d n i) s.cell d) s.cell i)

theorem Creates.type {type major minor : Int} (hq : Quiet s) (h : Creates s cwd path type major minor N) {jp : Slot}
    (hj : 0 < (s.cell jp).ref) : (N (s.cell jp).inum).type = (s.node (s.cell jp).inum).type := by
  obtain ⟨_, hdir, _, _, hfree⟩ := h
  rw [created_type hdir hfree, if_neg]
  intro h0
  exact hq.alive jp hj (by rw [h0]; exact hfree)

theorem Removes.type (h : Removes s cwd path N) {jp : Slot} (hj : 0 < (s.cell jp).ref) :
    (N (s.cell jp).inum).type = (s.node (s.cell jp).inum).type := by
  obtain ⟨_, _, _, _, _⟩ := h
  have hb : HeldBy s.cell (s.cell jp).inum := ⟨jp, hj, rfl⟩
  rw [reap_held hb, reap_held hb, removed_type]

/-- A call that creates a name returns 0 when it did, and -1 when it could not. -/
def CreatesIff (s : State) (cwd : Slot) (path : List UInt8) (type major minor : Int) (r : Int)
    (N : Nat → Node) : Prop :=
  r = -1 ∧ Taken s cwd path ∧ N = s.node ∨ r = 0 ∧ Creates s cwd path type major minor N

def RemovesIff (s : State) (cwd : Slot) (path : List UInt8) (r : Int) (N : Nat → Node) : Prop :=
  r = -1 ∧ Kept s cwd path ∧ N = s.node ∨ r = 0 ∧ Removes s cwd path N

theorem mknod_spec {type major minor : Int} (hq : Quiet s) (hcwd : 0 < (s.cell cwd).ref) (path : List UInt8)
    (htype : IsShort type ∧ type ≠ 0) (hfile : type ≠ tFile) (hmm : IsShort major ∧ IsShort minor) :
    Wp (mknod cwd path type major minor)
      (fun r s' => CreatesIff s cwd path type major minor r s'.node ∧ Did s s'.node 0 s') (Halts s.node) s := by
  unfold mknod
  refine Wp.bind (create_spec hq hcwd path htype hmm) fun r t hr => ?_
  cases hr with
  | fail hwhy h =>
      have hd := hq.did h fun jp h0 => absurd h0 (lt_irrefl 0)
      exact ⟨Or.inl ⟨rfl, hwhy, hd.node⟩, hd.node.symm ▸ hd⟩
  | found h0 => exact absurd h0 hfile
  | new hres hdir hlook hx hfree h _ _ =>
      rw [← zero_add (one _)] at h
      refine h.putBack (hq.noLost_created hdir hfree) (upd_self _ _ _) fun t1 h1 _ => ?_
      rw [upd_upd, upd_const] at h1
      have hd := hq.created hdir hlook hx hfree htype.2 h1 fun jp h0 => absurd h0 (lt_irrefl 0)
      rw [wp_pure, hd.node]
      exact ⟨Or.inr ⟨rfl, .mk hres hdir hlook hx hfree⟩, hd⟩

theorem unlink_did (hq : Quiet s) (hcwd : 0 < (s.cell cwd).ref) (path : List UInt8) :
    Wp (unlink cwd path) (fun r s' => RemovesIff s cwd path r s'.node ∧ Did s s'.node 0 s') (Halts s.node) s := by
  refine (unlink_spec hq hcwd path).post fun r t hr => ?_
  cases hr with
  | fail hwhy h =>
      have hd := hq.did h fun jp h0 => absurd h0 (lt_irrefl 0)
      exact ⟨Or.inl ⟨rfl, hwhy, hd.node⟩, hd.node.symm ▸ hd⟩
  | done hres hlook hn hent hempty h hvalid =>
      have hd := hq.removed hn hent hempty h hvalid
      rw [hd.node]
      exact ⟨Or.inr ⟨rfl, .mk hres hlook hn hent hempty⟩, hd⟩

/-- The node that a path leads to is held and allocated, or an entry is dangling. -/
theorem namei_spec (hq : Quiet s) (hcwd : 0 < (s.cell cwd).ref) (path : List UInt8) :
    Wp (namei cwd path) (fun r t =>
        match r with
        | none => During s.cell s.console s.node 0 (fun _ => false) t
        | some ip => During s.cell s.console s.node (one ip) (fun _ => false) t ∧
          ((s.node (t.cell ip).inum).type = 0 → Dangling s.node) ∧
          ∃ name, resolve s.node (s.cell cwd).inum path false = some ((t.cell ip).inum, name))
      (Halts s.node) s := by
  unfold namei
  refine Wp.bind (hq.namex hcwd path false) fun r t hr => ?_
  rw [wp_pure]
  cases hres : resolve s.node (s.cell cwd).inum path false with
  | none =>
      rw [hres] at hr
      obtain ⟨rfl, h⟩ := hr
      exact h
  | some w =>
      obtain ⟨i, name⟩ := w
      rw [hres] at hr
      obtain ⟨ip, rfl, h, hi, hdang⟩ := hr
      exact ⟨h, by rw [hi]; exact hdang, name, by rw [hi]⟩

theorem chdir_spec (hq : Quiet s) (hcwd : 0 < (s.cell cwd).ref) (path : List UInt8) :
    Wp (chdir cwd path) (fun r s' =>
        match r with
        | none => Did s s.node 0 s'
        | some ip => ∃ t, Did s s.node (one ip) t ∧ Dropped t cwd s')
      (Halts s.node) s := by
  unfold chdir
  refine Wp.bind (namei_spec hq hcwd path) fun r t hr => ?_
  cases r with
  | none => exact hq.did hr fun jp h0 => absurd h0 (lt_irrefl 0)
  | some ip =>
      obtain ⟨h, hdang, _⟩ := hr
      refine h.lockNode (h.ref_pos (by simp)) rfl rfl (fun h0 => Or.inr (Or.inl ⟨rfl, hdang h0⟩))
        fun t1 h1 hkeep hval hty => ?_
      have hi1 : (t1.cell ip).inum = (t.cell ip).inum := (hkeep ip).1
      have href : 0 < (t1.cell ip).ref := h1.ref_pos (by simp)
      rw [wp_bind, wp_get, h1.wf.type_eq href hval, h1.nodeAt_eq hi1, wp_ite]
      refine ⟨fun _ => ?_, fun _ => ?_⟩
      · rw [← zero_add (one ip)] at h1
        refine h1.putBack hq.noLost (upd_self _ _ _) fun t2 h2 _ => ?_
        rw [upd_upd, upd_const] at h2
        exact hq.did h2 fun jp h0 => absurd h0 (lt_irrefl 0)
      · refine Wp.seq (iunlock_spec h1.wf href (by rw [h1.locked_eq, upd_self])) (fun _ h0 => h0.elim) ?_
        rintro _ t2 ⟨hwf2, hv2⟩
        have h2 := h1.unlock hwf2 hv2
        rw [upd_upd, upd_const] at h2
        have hd : Did s s.node (one ip) t2 := by
          refine hq.did h2 fun jp h0 => ?_
          rw [one_pos h0, (Keep.unlock hv2 ip).1, hi1]
          exact hty
        have hcwd2 : 0 < (t2.cell cwd).ref := by
          rw [h2.held.ref]
          omega
        refine Wp.seq (iput_spec h2.wf hcwd2 (h2.locked_eq cwd)) (fun _ h0 => h0.elim) ?_
        rintro _ t3 ⟨hwf3, hv3⟩
        exact ⟨t2, hd, hd.quiet.drop hcwd2 hwf3 hv3⟩

/-- `iput` between calls. -/
theorem iput_dropped (hq : Quiet s) (href : 0 < (s.cell ip).ref) :
    Wp (iput ip) (fun _ s' => Dropped s ip s') (fun _ => False) s := by
  refine (iput_spec hq.wf href (congrFun hq.unlocked ip)).post ?_
  rintro _ s' ⟨hwf, hv⟩
  exact hq.drop href hwf hv

theorem idup_did (hq : Quiet s) (href : 0 < (s.cell ip).ref) :
    Wp (idup ip) (fun r s' => r = ip ∧ Did s s.node (one ip) s') (fun _ => False) s := by
  refine (idup_spec hq.wf href).post ?_
  rintro r s' ⟨rfl, hwf, hv⟩
  have h := During.start hq.wf
  rw [hq.unlocked] at h
  have h1 := h.hold hwf hv
  rw [zero_add] at h1
  refine ⟨rfl, hq.did h1 fun jp h0 => ?_⟩
  rw [one_pos h0, h1.held.inum r href]
  exact hq.alive r href

/-! ## Reading and writing -/

/-- A point in a read or a write: the call holds the lock of `ip`. -/
def Opened (s : State) (ip : Slot) (N : Nat → Node) (t : State) : Prop :=
  (t.cell ip).valid = true ∧ ∃ k, During s.cell k N 0 (upd (fun _ => false) ip true) t

theorem ilock_opened (hq : Quiet s) (href : 0 < (s.cell ip).ref) :
    Wp (ilock ip) (fun _ t => Opened s ip s.node t) (fun _ => False) s := by
  have h := During.start hq.wf
  rw [hq.unlocked] at h
  refine (ilock_spec hq.wf href).mono ?_ ?_
  · rintro _ t ⟨hwf, hv, _⟩
    exact ⟨valid_lock hv, _, h.lock hwf hv⟩
  · rintro e (⟨_, hl⟩ | ⟨_, h0⟩)
    · rw [h.locked_eq] at hl
      exact absurd hl Bool.false_ne_true
    · exact hq.alive ip href h0

theorem iunlock_opened (hq : Quiet s) (href : 0 < (s.cell ip).ref) (ho : Opened s ip N t) (ht : Tree N)
    (hty : ∀ j, (N j).type = (s.node j).type) (hnl : ∀ j, (N j).nlink = (s.node j).nlink) :
    Wp (iunlock ip) (fun _ s' => Did s N 0 s') (fun _ => False) t := by
  obtain ⟨hv, k, h⟩ := ho
  have href' : 0 < (t.cell ip).ref := by
    rw [h.held.ref]
    omega
  refine (iunlock_spec h.wf href' (by rw [h.locked_eq, upd_self])).post ?_
  rintro _ s' ⟨hwf, hview⟩
  have h1 := h.unlock hwf hview
  rw [upd_upd, upd_const] at h1
  refine ⟨⟨hwf, ?_, ?_, h1.locks, ?_⟩, h1.node, h1.held⟩
  · rw [h1.node]
    exact ht
  · rw [h1.node]
    refine NoLost.held (e := 0) (fun j hj hn => ?_) h1.held
    rw [hty] at hj
    rw [hnl] at hn
    exact hq.noLost j hj hn
  · rw [h1.node]
    refine h1.held.alive (fun jp hj => ?_) fun jp h0 => absurd h0 (lt_irrefl 0)
    rw [hty]
    exact hq.alive jp hj

theorem During.readi {k : Nat → Option (List UInt8)} (h : During c k N e L t) (href : 0 < (t.cell ip).ref)
    (hv : (t.cell ip).valid = true) (hlock : L ip = true) {off n : Nat} (hoff : off < 2 ^ 64) (hn : n < 2 ^ 64) :
    Wp (readi ip off n) (fun _ t' => t'.cell = t.cell ∧ ∃ k', During c k' N e L t') (fun _ => False) t := by
  by_cases htype : (t.view.nodeAt ip).type = tDev
  · unfold Fs.readi
    rw [wp_bind, wp_get]
    dsimp only
    rw [h.wf.type_eq href hv, if_pos htype, wp_ite]
    refine ⟨fun _ => ⟨rfl, k, h⟩, fun _ => ?_⟩
    refine (devRead_spec h.wf href hv (by rw [h.locked_eq, hlock]) n).post ?_
    rintro r t' ⟨_, hwf, hview⟩
    have hc : t'.cell = t.cell := congrArg View.cell hview
    refine ⟨hc, _, hwf, (congrArg View.node hview).trans h.node, congrArg View.console hview, ?_, ?_⟩
    · rw [hc]
      exact h.held
    · rw [hview]
      exact h.locks
  · refine (readi_view h.wf href hv htype hoff hn).post ?_
    rintro r _ ⟨rfl, _⟩
    exact ⟨rfl, k, h⟩

theorem readi_opened (href : 0 < (s.cell ip).ref) (ho : Opened s ip N t) {off n : Nat} (hoff : off < 2 ^ 64)
    (hn : n < 2 ^ 64) : Wp (readi ip off n) (fun _ t' => Opened s ip N t') (fun _ => False) t := by
  obtain ⟨hv, k, h⟩ := ho
  have href' : 0 < (t.cell ip).ref := by
    rw [h.held.ref]
    omega
  refine (h.readi href' hv (upd_self _ _ _) hoff hn).post ?_
  rintro _ t' ⟨hc, h'⟩
  exact ⟨by rw [hc]; exact hv, h'⟩

/-- The nodes after a write to the file `i`. -/
def Writes (N : Nat → Node) (i : Nat) (N' : Nat → Node) : Prop :=
  (N i).type ≠ tDir ∧ (N i).type ≠ 0 ∧ ∃ data, N' = upd N i { N i with data := data }

theorem writei_opened (href : 0 < (s.cell ip).ref) (ho : Opened s ip N t)
    (htype : (N (s.cell ip).inum).type ≠ tDir ∧ (N (s.cell ip).inum).type ≠ 0) {src : Bytes} {off n : Nat}
    (hoff : off < 2 ^ 64) (hn : n < 2 ^ 64) :
    Wp (writei ip src off n) (fun _ t' => ∃ N', Writes N (s.cell ip).inum N' ∧ Opened s ip N' t')
      (fun e => e = .panic "balloc: oob") t := by
  obtain ⟨hv, k, h⟩ := ho
  have href' : 0 < (t.cell ip).ref := by
    rw [h.held.ref]
    omega
  have hi : (t.cell ip).inum = (s.cell ip).inum := h.held.inum ip href
  have hsame : Writes N (s.cell ip).inum N := ⟨htype.1, htype.2, (N (s.cell ip).inum).data, (upd_eta N _).symm⟩
  by_cases hdev : (t.view.nodeAt ip).type = tDev
  · unfold writei
    rw [wp_bind, wp_get]
    dsimp only
    rw [h.wf.type_eq href' hv, if_pos hdev, wp_ite]
    refine ⟨fun _ => ⟨N, hsame, hv, k, h⟩, fun _ => ?_⟩
    refine (devWrite_spec h.wf href' hv (by rw [h.locked_eq, upd_self]) n).mono ?_ fun _ h0 => h0.elim
    rintro r t' ⟨_, hwf, hview⟩
    have hc : t'.cell = t.cell := congrArg View.cell hview
    refine ⟨N, hsame, by rw [hc]; exact hv, _, hwf, (congrArg View.node hview).trans h.node,
      congrArg View.console hview, ?_, ?_⟩
    · rw [hc]
      exact h.held
    · rw [hview]
      exact h.locks
  · by_cases hbad : (t.view.nodeAt ip).data.length < off ∨ 525 * 4096 < off + n
    · refine (writei_refuse h.wf href' hv hdev hoff hn hbad).mono ?_ fun _ h0 => h0.elim
      rintro r _ ⟨_, rfl⟩
      exact ⟨N, hsame, hv, k, h⟩
    · refine (writei_view h.wf href' hv hdev (by omega) (by omega)).mono ?_ fun _ h0 => h0.1
      rintro r t' ⟨_, hwf, hview⟩
      rw [h.nodeAt_eq hi, hi] at hview
      have hc : t'.cell = t.cell := congrArg View.cell hview
      exact ⟨_, ⟨htype.1, htype.2, _, rfl⟩, by rw [hc]; exact hv, k, h.setNode hwf hview⟩

theorem Writes.tree {N' : Nat → Node} (h : Writes N i N') (ht : Tree N) : Tree N' := by
  obtain ⟨h1, h2, data, rfl⟩ := h
  exact ht.setData h1 h2 data

theorem Writes.type {N' : Nat → Node} (h : Writes N i N') (j : Nat) : (N' j).type = (N j).type := by
  obtain ⟨_, _, data, rfl⟩ := h
  rw [upd_apply]
  split
  · rw [‹j = i›]
  · rfl

theorem Writes.nlink {N' : Nat → Node} (h : Writes N i N') (j : Nat) : (N' j).nlink = (N j).nlink := by
  obtain ⟨_, _, data, rfl⟩ := h
  rw [upd_apply]
  split
  · rw [‹j = i›]
  · rfl

/-! ## A locked inode with a reference of the call -/

/-- A call took a reference to `ip` and the lock of it; when it gives up the lock, the state is quiet. -/
structure Acquired (s : State) (ip : Slot) (N : Nat → Node) (t : State) : Prop where
  valid : (t.cell ip).valid = true
  during : ∃ k, During s.cell k N (one ip) (upd (fun _ => false) ip true) t
  tree : Tree N
  noLost : NoLost N s.cell
  old : ∀ jp, 0 < (s.cell jp).ref → (N (s.cell jp).inum).type = (s.node (s.cell jp).inum).type
  new : (N (t.cell ip).inum).type ≠ 0

theorem Acquired.ref_pos (h : Acquired s ip N t) : 0 < (t.cell ip).ref := by
  obtain ⟨k, hk⟩ := h.during
  exact hk.ref_pos (by simp)

theorem Acquired.readi (h : Acquired s ip N t) {off n : Nat} (hoff : off < 2 ^ 64) (hn : n < 2 ^ 64) :
    Wp (readi ip off n) (fun _ t' => Acquired s ip N t') (fun _ => False) t := by
  obtain ⟨k, hk⟩ := h.during
  refine (hk.readi h.ref_pos h.valid (upd_self _ _ _) hoff hn).post ?_
  rintro _ t' ⟨hc, h'⟩
  exact ⟨by rw [hc]; exact h.valid, h', h.tree, h.noLost, h.old, by rw [hc]; exact h.new⟩

theorem Acquired.iunlock (hq : Quiet s) (h : Acquired s ip N t) :
    Wp (iunlock ip) (fun _ s' => Did s N (one ip) s' ∧ (s'.cell ip).inum = (t.cell ip).inum) (fun _ => False) t := by
  obtain ⟨k, hk⟩ := h.during
  refine (iunlock_spec hk.wf h.ref_pos (by rw [hk.locked_eq, upd_self])).post ?_
  rintro _ s' ⟨hwf, hv⟩
  have h1 := hk.unlock hwf hv
  rw [upd_upd, upd_const] at h1
  refine ⟨⟨⟨hwf, ?_, ?_, h1.locks, ?_⟩, h1.node, h1.held⟩, (Keep.unlock hv ip).1⟩
  · rw [h1.node]
    exact h.tree
  · rw [h1.node]
    exact h.noLost.held h1.held
  · rw [h1.node]
    refine h1.held.alive (fun jp hj => ?_) fun jp h0 => ?_
    · rw [h.old jp hj]
      exact hq.alive jp hj
    · rw [one_pos h0, (Keep.unlock hv ip).1]
      exact h.new

/-- The inode that `namei` found is locked. -/
theorem ilock_acquired (hq : Quiet s) (h : During s.cell s.console s.node (one ip) (fun _ => false) t)
    (hdang : (s.node (t.cell ip).inum).type = 0 → Dangling s.node) :
    Wp (ilock ip) (fun _ t' => Acquired s ip s.node t') (Halts s.node) t := by
  rw [← bind_pure_unit (x := ilock ip)]
  refine h.lockNode (h.ref_pos (by simp)) rfl rfl (fun h0 => Or.inr (Or.inl ⟨rfl, hdang h0⟩))
    fun t1 h1 hkeep hval hty => ⟨hval, ⟨_, h1⟩, hq.tree, hq.noLost, fun _ _ => rfl, ?_⟩
  rw [(hkeep ip).1]
  exact hty

theorem create_acquired {type major minor : Int} (hq : Quiet s) (hcwd : 0 < (s.cell cwd).ref) (path : List UInt8)
    (htype : IsShort type ∧ type ≠ 0) (hmm : IsShort major ∧ IsShort minor) :
    Wp (create cwd path type major minor) (fun r t =>
        match r with
        | none => Taken s cwd path ∧ Did s s.node 0 t
        | some ip => ∃ N, (Taken s cwd path ∧ N = s.node ∨ Creates s cwd path type major minor N) ∧ Acquired s ip N t ∧
          (N (t.cell ip).inum).type = type)
      (Halts s.node) s := by
  refine (create_spec hq hcwd path htype hmm).post fun r t hr => ?_
  cases hr with
  | fail hwhy h => exact ⟨hwhy, hq.did h fun jp h0 => absurd h0 (lt_irrefl 0)⟩
  | @found _ ip d n _ ht hres hlook hfile h hinum hvalid =>
      have hty : (s.node (t.cell ip).inum).type = type := by rw [hinum, hfile, ht]
      have hwhy : Taken s cwd path := fun d' name' h0 => by
        rw [hres] at h0
        cases h0
        exact ⟨n, hlook⟩
      exact ⟨_, Or.inl ⟨hwhy, rfl⟩, ⟨hvalid, ⟨_, h⟩, hq.tree, hq.noLost, fun _ _ => rfl, by rw [hty]; exact htype.2⟩,
        hty⟩
  | @new _ ip d x name hres hdir hlook hx hfree h hinum hvalid =>
      have hty : (created s.node d name x type major minor (t.cell ip).inum).type = type := by
        rw [created_type hdir hfree, if_pos hinum]
      refine ⟨_, Or.inr (.mk hres hdir hlook hx hfree), ⟨hvalid, ⟨_, h⟩, hq.tree.created hdir hlook hx hfree htype.2,
        hq.noLost_created hdir hfree, fun jp hj => ?_, by rw [hty]; exact htype.2⟩, hty⟩
      have hne : (s.cell jp).inum ≠ x := fun h0 => hq.alive jp hj (by rw [h0]; exact hfree)
      rw [created_type hdir hfree, if_neg hne]

end

end Xv6.Fs
