import Xv6.Fs.Lemmas.Held
import Xv6.Fs.Lemmas.Path

/-!
# Resolving path names

`namex` follows a path with one reference in hand, and gives the node that `walk` leads to.
-/

namespace Xv6.Fs

open Xv6.Lib

/-- A point in a call that started with the cells `c` and the console `k`: the nodes are `N`, the call
holds the references `e`, and the locks are `L`. -/
structure During (c : Slot → Cell) (k : Nat → Option (List UInt8)) (N : Nat → Node) (e : Slot → Nat)
    (L : Slot → Bool) (s : State) : Prop where
  wf : s.WF
  node : s.node = N
  console : s.console = k
  held : Held c s.cell e
  locks : s.view.locks = L

namespace During

variable {c : Slot → Cell} {k : Nat → Option (List UInt8)} {N : Nat → Node} {e : Slot → Nat} {L : Slot → Bool}
  {s s' : State} {ip : Slot} {i : Nat}

theorem start (h : s.WF) : During s.cell s.console s.node 0 s.view.locks s :=
  ⟨h, rfl, rfl, Held.refl _, rfl⟩

theorem ref_pos (h : During c k N e L s) (he : 0 < e ip) : 0 < (s.cell ip).ref := by
  rw [h.held.ref]
  omega

theorem locked_eq (h : During c k N e L s) (ip : Slot) : (s.cell ip).locked = L ip := congrFun h.locks ip

theorem nodeAt_eq (h : During c k N e L s) (hi : (s.cell ip).inum = i) : s.view.nodeAt ip = N i := by
  rw [View.nodeAt, State.view_node, h.node, State.view_cell, hi]

theorem lock (h : During c k N e L s) (hwf : s'.WF) (hv : s'.view = s.view.lock ip) :
    During c k N e (upd L ip true) s' := by
  have hc : s'.cell = (s.view.lock ip).cell := congrArg View.cell hv
  refine ⟨hwf, (congrArg View.node hv).trans h.node, (congrArg View.console hv).trans h.console, ?_, ?_⟩
  · rw [hc]
    exact h.held.trans (Held.lock s.view ip)
  · rw [hv, View.locks_lock, h.locks]

theorem unlock (h : During c k N e L s) (hwf : s'.WF) (hv : s'.view = s.view.unlock ip) :
    During c k N e (upd L ip false) s' := by
  have hc : s'.cell = (s.view.unlock ip).cell := congrArg View.cell hv
  refine ⟨hwf, (congrArg View.node hv).trans h.node, (congrArg View.console hv).trans h.console, ?_, ?_⟩
  · rw [hc]
    exact h.held.trans (Held.unlock s.view ip)
  · rw [hv, View.locks_unlock, h.locks]

theorem hold (h : During c k N e L s) (hwf : s'.WF) (hv : s'.view = s.view.hold ip) :
    During c k N (e + one ip) L s' := by
  have hc : s'.cell = (s.view.hold ip).cell := congrArg View.cell hv
  refine ⟨hwf, (congrArg View.node hv).trans h.node, (congrArg View.console hv).trans h.console, ?_, ?_⟩
  · rw [hc]
    exact h.held.trans (Held.hold s.view ip)
  · rw [hv, View.locks_hold, h.locks]

theorem gets (h : During c k N e L s) (hwf : s'.WF) (hg : s.view.Gets i ip s'.view) :
    During c k N (e + one ip) L s' ∧ (s'.cell ip).inum = i := by
  obtain ⟨hh, hi⟩ := Held.gets hg
  refine ⟨⟨hwf, hg.node.trans h.node, hg.console.trans h.console, h.held.trans hh, ?_⟩, hi⟩
  rw [hg.locks h.wf.cache.unlocked, h.locks]

/-- A reference is dropped that is not the last one to a node without links. -/
theorem drop (h : During c k N (e + one ip) L s) (hl : NoLost N c) (hwf : s'.WF)
    (hv : s'.view = s.view.drop ip) : During c k N e (upd L ip false) s' := by
  have hf : ¬ s.view.Frees ip := h.wf.not_frees (by rwa [h.node]) h.held (by simp)
  have hc : s'.cell = (s.view.drop ip).cell := congrArg View.cell hv
  have hn : (s.view.drop ip).node = s.node := by rw [View.drop, if_neg hf]; rfl
  have hk : (s.view.drop ip).console = s.console := by rw [View.drop, if_neg hf]; rfl
  refine ⟨hwf, ?_, ?_, ?_, ?_⟩
  · exact ((congrArg View.node hv).trans hn).trans h.node
  · exact ((congrArg View.console hv).trans hk).trans h.console
  · rw [hc]
    exact h.held.drop
  · rw [hv, View.locks_drop, h.locks]

end During

/-! ## What stays in the cells -/

/-- Cells keep their nodes, and their copies once they have them. -/
def Keep (c c' : Slot → Cell) : Prop :=
  ∀ jp, (c' jp).inum = (c jp).inum ∧ ((c jp).valid = true → (c' jp).valid = true)

theorem Keep.trans {c c' c'' : Slot → Cell} (h : Keep c c') (h' : Keep c' c'') : Keep c c'' :=
  fun jp => ⟨(h' jp).1.trans (h jp).1, fun hv => (h' jp).2 ((h jp).2 hv)⟩

theorem Keep.upd {c : Slot → Cell} {ip : Slot} {x : Cell} (hi : x.inum = (c ip).inum)
    (hv : (c ip).valid = true → x.valid = true) : Keep c (upd c ip x) := by
  intro jp
  rw [upd_apply]
  split
  · rw [‹jp = ip›]
    exact ⟨hi, hv⟩
  · exact ⟨rfl, id⟩

section

variable {s s' : State} {ip : Slot}

theorem Keep.lock (hv : s'.view = s.view.lock ip) : Keep s.cell s'.cell := by
  rw [show s'.cell = (s.view.lock ip).cell from congrArg View.cell hv]
  exact Keep.upd rfl fun _ => rfl

theorem Keep.unlock (hv : s'.view = s.view.unlock ip) : Keep s.cell s'.cell := by
  rw [show s'.cell = (s.view.unlock ip).cell from congrArg View.cell hv]
  exact Keep.upd rfl id

theorem Keep.drop (hv : s'.view = s.view.drop ip) (hf : ¬ s.view.Frees ip) : Keep s.cell s'.cell := by
  rw [show s'.cell = (s.view.drop ip).cell from congrArg View.cell hv, View.drop, if_neg hf]
  exact Keep.upd rfl id

theorem valid_lock (hv : s'.view = s.view.lock ip) : (s'.cell ip).valid = true := by
  have : s'.cell ip = (s.view.lock ip).cell ip := congrFun (congrArg View.cell hv) ip
  rw [this, View.lock, View.setCell_cell, upd_self]

end

/-! ## The loop -/

section

variable {c : Slot → Cell} {k : Nat → Option (List UInt8)} {N : Nat → Node} {e : Slot → Nat} {L : Slot → Bool}
  {s t : State} {ip cwd : Slot} {i : Nat} {α : Type} {Q : α → State → Prop} {E : Halt → Prop}

/-- `iunlock(ip); iput(ip);` -/
theorem During.putBack (h : During c k N (e + one ip) L t) (hl : NoLost N c) (hlock : L ip = true)
    {rest : FsM α} (hrest : ∀ t', During c k N e (upd L ip false) t' →
      Keep t.cell t'.cell → Wp rest Q E t') :
    Wp (iunlock ip >>= fun _ => iput ip >>= fun _ => rest) Q E t := by
  have href : 0 < (t.cell ip).ref := h.ref_pos (by simp)
  refine Wp.seq (iunlock_spec h.wf href ((h.locked_eq ip).trans hlock)) (fun _ h0 => h0.elim) ?_
  rintro _ t1 ⟨hwf1, hv1⟩
  have h1 := h.unlock hwf1 hv1
  refine Wp.seq (iput_spec h1.wf (h1.ref_pos (by simp)) ?_) (fun _ h0 => h0.elim) ?_
  · rw [h1.locked_eq, upd_self]
  · rintro _ t2 ⟨hwf2, hv2⟩
    have h2 := h1.drop hl hwf2 hv2
    rw [upd_upd] at h2
    have hf : ¬ t1.view.Frees ip := h1.wf.not_frees (by rwa [h1.node]) h1.held (by simp)
    exact hrest t2 h2 ((Keep.unlock hv1).trans (Keep.drop hv2 hf))

/-- `ilock(ip);` -/
theorem During.lockNode (h : During c k N e L t) (he : 0 < (t.cell ip).ref) (hlock : L ip = false)
    (hi : (t.cell ip).inum = i) {rest : FsM α} (hE : (N i).type = 0 → E (.panic "ilock: no type"))
    (hrest : ∀ t', During c k N e (upd L ip true) t' → Keep t.cell t'.cell →
      (t'.cell ip).valid = true → (N i).type ≠ 0 → Wp rest Q E t') :
    Wp (ilock ip >>= fun _ => rest) Q E t := by
  have hn : t.view.nodeAt ip = N i := h.nodeAt_eq hi
  refine Wp.seq (ilock_spec h.wf he) ?_ ?_
  · rintro _ (⟨rfl, hlk⟩ | ⟨rfl, h0⟩)
    · rw [h.locked_eq, hlock] at hlk
      exact absurd hlk Bool.false_ne_true
    · rw [hn] at h0
      exact hE h0
  · rintro _ t1 ⟨hwf, hv, hty⟩
    rw [hn] at hty
    exact hrest t1 (h.lock hwf hv) (Keep.lock hv) (valid_lock hv) hty

/-- What a locked directory is for the functions that search it. -/
theorem During.openDir (h : During c k N e L t) (ht : Tree N) (he : 0 < (t.cell ip).ref)
    (hv : (t.cell ip).valid = true) (hi : (t.cell ip).inum = i) (hdir : (N i).type = tDir) :
    OpenDir t ip (N i).data := by
  have hn : t.view.nodeAt ip = N i := h.nodeAt_eq hi
  exact ⟨he, hv, by rw [hn, hdir], by rw [hn], (ht.size i hdir).1, ht.inum_lt hdir⟩

end

/-- All slots of the cache but one are in use. -/
def Crowded (c : Slot → Cell) : Prop := ∃ ip, ∀ jp, jp ≠ ip → 0 < (c jp).ref

theorem Crowded.of_full {c c' : Slot → Cell} {e : Slot → Nat} (ip : Slot) (h : Held c c' e)
    (he : ∀ jp, jp ≠ ip → e jp = 0) (hfull : ∀ jp, 0 < (c' jp).ref) : Crowded c := by
  refine ⟨ip, fun jp hj => ?_⟩
  have := hfull jp
  rwa [h.ref, he jp hj, add_zero] at this

/-- The result of `namex` for the result of path resolution. -/
def Resolved (s : State) (w : Option (Nat × List UInt8)) (r : Option (Slot × List UInt8)) (s' : State) : Prop :=
  match w with
  | none => r = none ∧ During s.cell s.console s.node 0 (fun _ => false) s'
  | some (i, name) => ∃ ip, r = some (ip, name) ∧ During s.cell s.console s.node (one ip) (fun _ => false) s' ∧
    (s'.cell ip).inum = i ∧ ((s.node i).type = 0 → Dangling s.node)

theorem namex_spec {s : State} {cwd : Slot} (h : s.WF) (ht : Tree s.node) (hl : NoLost s.node s.cell)
    (hunl : s.view.locks = fun _ => false) (path : List UInt8) (parent : Bool)
    (hcwd : (cstr path).headD 0 ≠ slash → 0 < (s.cell cwd).ref ∧ (s.node (s.cell cwd).inum).type ≠ 0) :
    Wp (namex cwd path parent) (Resolved s (resolve s.node (s.cell cwd).inum path parent))
      (fun e => e = .panic "iget: no empty slot" ∧ Crowded s.cell ∨ e = .panic "ilock: no type" ∧ Dangling s.node ∨
        e = .wild ∧ Runaway (cstr path)) s := by
  have hstart := During.start h
  rw [hunl] at hstart
  unfold namex
  dsimp only
  refine Wp.bind (R := fun ip t => During s.cell s.console s.node (one ip) (fun _ => false) t ∧
    (t.cell ip).inum = (if (cstr path).headD 0 = slash then rootino else (s.cell cwd).inum)) ?_ ?_
  · rw [namexStart, wp_ite]
    refine ⟨fun hs => ?_, fun hs => ?_⟩
    · refine (iget_spec h (le_refl 1) (by decide)).mono ?_ fun _ he =>
        Or.inl ⟨he.1, Crowded.of_full ⟨0, by decide⟩ hstart.held (fun _ _ => rfl) he.2⟩
      rintro ip t ⟨hwf, hg⟩
      obtain ⟨h1, hi⟩ := hstart.gets hwf hg
      rw [zero_add] at h1
      exact ⟨h1, by rw [if_pos hs, hi]; rfl⟩
    · refine (idup_spec h (hcwd hs).1).mono ?_ fun _ he => he.elim
      rintro ip t ⟨rfl, hwf, hv⟩
      have h1 := hstart.hold hwf hv
      rw [zero_add] at h1
      refine ⟨h1, ?_⟩
      rw [if_neg hs]
      exact h1.held.inum ip (hcwd hs).1
  · rintro ip t ⟨h1, hi⟩
    -- the walk from the node in hand gives the result of the whole resolution
    refine wp_loop (fun x t => ∃ i, During s.cell s.console s.node (one x.1) (fun _ => false) t ∧
      (t.cell x.1).inum = i ∧ ((s.node i).type = 0 → Dangling s.node) ∧ elements x.2.2 ⊆ elements (cstr path) ∧
      walk s.node parent i x.2.1 x.2.2 = resolve s.node (s.cell cwd).inum path parent) (fun x => x.2.2.length)
      ?_ _ _ _ ⟨_, h1, hi, fun h0 => ?_, List.Subset.refl _, rfl⟩ (Nat.lt_succ_self _)
    · rintro ⟨ip, name, rest⟩ t ⟨i, hd, hi, hdang, hsub, hwalk⟩
      dsimp only at hd hi hsub hwalk ⊢
      have hd' : During s.cell s.console s.node (0 + one ip) (fun _ => false) t := by rwa [zero_add]
      cases hskip : skipElem rest with
      | none =>
          rw [walk_none hskip] at hwalk
          dsimp only
          rw [wp_ite]
          refine ⟨fun hp => ?_, fun hp => ?_⟩
          · rw [if_pos hp] at hwalk
            refine Wp.seq (iput_spec hd.wf (hd.ref_pos (by simp)) (hd.locked_eq ip)) (fun _ h0 => h0.elim) ?_
            rintro _ t1 ⟨hwf, hv⟩
            have h2 := hd'.drop hl hwf hv
            rw [upd_const] at h2
            rw [← hwalk]
            exact ⟨rfl, h2⟩
          · rw [if_neg hp] at hwalk
            rw [← hwalk]
            exact ⟨ip, rfl, hd, hi, hdang⟩
      | some x =>
          obtain ⟨o, rest'⟩ := x
          have hlen := skipElem_length hskip
          obtain ⟨⟨elem, helem, ho⟩, -⟩ := elements_eq_cons hskip
          rw [helem] at hsub
          obtain _ | name' := o
          · exact Or.inr (Or.inr ⟨rfl, elem, hsub List.mem_cons_self, ho⟩)
          rw [walk_some hskip] at hwalk
          dsimp only
          refine hd'.lockNode (hd.ref_pos (by simp)) rfl hi (fun h0 => Or.inr (Or.inl ⟨rfl, hdang h0⟩)) ?_
          intro t1 h2 hinum hval htype
          have hi1 : (t1.cell ip).inum = i := (hinum ip).1.trans hi
          have href1 : 0 < (t1.cell ip).ref := h2.ref_pos (by simp)
          rw [wp_bind, wp_get, h2.wf.type_eq href1 hval, h2.nodeAt_eq hi1, wp_ite]
          refine ⟨fun hnd => ?_, fun hdir => ?_⟩
          · rw [if_pos hnd] at hwalk
            refine h2.putBack hl (upd_self _ _ _) fun t2 h3 _ => ?_
            rw [upd_upd, upd_const] at h3
            rw [wp_pure, ← hwalk]
            exact ⟨rfl, h3⟩
          · have hdir : (s.node i).type = tDir := not_not.mp hdir
            rw [if_neg (not_not.mpr hdir)] at hwalk
            rw [wp_ite]
            refine ⟨fun hlast => ?_, fun hmore => ?_⟩
            · rw [if_pos hlast] at hwalk
              refine Wp.seq (iunlock_spec h2.wf href1 (by rw [h2.locked_eq, upd_self])) (fun _ h0 => h0.elim) ?_
              rintro _ t2 ⟨hwf, hv⟩
              have h3 := h2.unlock hwf hv
              rw [upd_upd, upd_const, zero_add] at h3
              rw [wp_pure, ← hwalk]
              exact ⟨ip, rfl, h3, (Keep.unlock hv ip).1.trans hi1, hdang⟩
            · rw [if_neg hmore] at hwalk
              refine Wp.seq (dirLookup_spec h2.wf (h2.openDir ht href1 hval hi1 hdir) name')
                (fun _ he => Or.inl ⟨he.1, Crowded.of_full ip h2.held (fun jp hj => by simp [one, hj]) he.2⟩) ?_
              cases hlook : lookup (s.node i).data name' with
              | none =>
                  rw [hlook] at hwalk
                  rintro _ _ ⟨rfl, rfl⟩
                  refine h2.putBack hl (upd_self _ _ _) fun t2 h3 _ => ?_
                  rw [upd_upd, upd_const] at h3
                  rw [wp_pure, ← hwalk]
                  exact ⟨rfl, h3⟩
              | some n =>
                  rw [hlook] at hwalk
                  rintro _ t2 ⟨next, rfl, hwf, hg⟩
                  obtain ⟨h3, hi3⟩ := h2.gets hwf hg
                  obtain ⟨hn, hb, _⟩ := lookup_eq_some.mp hlook
                  rw [zero_add, add_comm] at h3
                  refine h3.putBack hl (upd_self _ _ _) fun t3 h4 hinum3 => ?_
                  rw [upd_upd, upd_const] at h4
                  exact ⟨⟨_, h4, (hinum3 next).1.trans hi3, fun h0 => ⟨i, n, _, ⟨hdir, hn, rfl, hb.1⟩, h0⟩,
                    fun _ h0 => hsub (List.mem_cons_of_mem _ h0), hwalk⟩, hlen⟩
    · split at h0
      · exact absurd (h0.symm.trans ht.root) (by decide)
      · rename_i hs
        exact absurd h0 (hcwd hs).2

end Xv6.Fs
