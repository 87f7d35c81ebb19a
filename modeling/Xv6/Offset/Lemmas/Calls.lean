import Xv6.Fs.Lemmas.Dir
import Xv6.Offset.Calls
import Xv6.Offset.Lemmas.Cursor

/-!
# Interleaved calls take effect one by one

The lock of the inode is with one process at most, and only that process is between the transfer of the
bytes and the update of the offset. So while nobody is there, the bytes and the offsets are those after the
calls of the log one after another.
-/

namespace Xv6.Offset

open Xv6.Lib Xv6.Fs Xv6.Kernel

variable {k₀ : System} {ip : Slot} {s s' : State} {p q : ProcId}

/-! ## Steps -/

/-- What a step does where it is enabled. -/
inductive Steps (ip : Slot) (s : State) : State → Prop where
  | call {p : ProcId} {f : FileId} {op : Op} (hpos : s.pos p = .user) (ha : mode s.sys f op = true) :
      Steps ip s (s.goto p (.lock f op))
  | refuse {p : ProcId} {f : FileId} {op : Op} (ha : mode s.sys f op = false) :
      Steps ip s { s with log := s.log ++ [⟨p, f, op, ⟨-1, []⟩⟩] }
  | lock {p : ProcId} {f : FileId} {op : Op} {fs : Fs.State} (hpos : s.pos p = .lock f op)
      (h : ilock ip s.sys.fs = .ok ((), fs)) : Steps ip s ((s.withFs fs).goto p (.transfer f op))
  | transfer {p : ProcId} {f : FileId} {op : Op} {r : Result} {fs : Fs.State} (hpos : s.pos p = .transfer f op)
      (h : op.transfer ip (s.sys.files f).off s.sys.fs = .ok (r, fs)) :
      Steps ip s ((s.withFs fs).goto p (.advance f op r))
  | advance {p : ProcId} {f : FileId} {op : Op} {r : Result} (hpos : s.pos p = .advance f op r) :
      Steps ip s { s with
        sys := { s.sys with
          files := upd s.sys.files f { s.sys.files f with off := u64 ((s.sys.files f).off + r.ret.toNat) } }
        pos := upd s.pos p .unlock
        log := s.log ++ [⟨p, f, op, r⟩] }
  | unlock {p : ProcId} {fs : Fs.State} (hpos : s.pos p = .unlock) (h : iunlock ip s.sys.fs = .ok ((), fs)) :
      Steps ip s ((s.withFs fs).goto p .user)

theorem call_steps {f : FileId} {op : Op} (hpos : s.pos p = .user) (h : s.call ip p f op = some s') :
    Steps ip s s' := by
  unfold State.call at h
  obtain ⟨_, h⟩ := Option.ite_none_right_eq_some.mp h
  by_cases ha : op.allowed (s.sys.files f) = true
  · rw [if_pos ha] at h
    cases h
    exact .call hpos ha
  · rw [if_neg ha] at h
    cases h
    exact .refuse (Bool.eq_false_iff.mpr ha)

theorem run_steps (h : s.run ip p = some s') : Steps ip s s' := by
  unfold State.run at h
  cases hpos : s.pos p with
  | user =>
      rw [hpos] at h
      cases h
  | lock f op =>
      rw [hpos] at h
      dsimp only at h
      cases hl : ilock ip s.sys.fs with
      | error e =>
          rw [hl] at h
          cases h
      | ok a =>
          rw [hl] at h
          cases h
          exact .lock hpos hl
  | transfer f op =>
      rw [hpos] at h
      dsimp only at h
      cases hl : op.transfer ip (s.sys.files f).off s.sys.fs with
      | error e =>
          rw [hl] at h
          cases h
      | ok a =>
          rw [hl] at h
          cases h
          exact .transfer hpos hl
  | advance f op r =>
      rw [hpos] at h
      cases h
      exact .advance hpos
  | unlock =>
      rw [hpos] at h
      dsimp only at h
      cases hl : iunlock ip s.sys.fs with
      | error e =>
          rw [hl] at h
          cases h
      | ok a =>
          rw [hl] at h
          cases h
          exact .unlock hpos hl

theorem step_steps {a : Action} (h : s.step ip a = some s') : Steps ip s s' := by
  cases a with
  | run p => exact run_steps h
  | call p fd op =>
      unfold State.step at h
      dsimp only at h
      cases hpos : s.pos p with
      | user =>
          rw [hpos] at h
          dsimp only at h
          cases hfd : checkFd s.sys p fd with
          | none =>
              rw [hfd] at h
              cases h
          | some a =>
              rw [hfd] at h
              exact call_steps hpos h
      | _ =>
          rw [hpos] at h
          cases h

/-! ## Calls without interruption -/

/-- The steps of a call that nobody interrupts. -/
theorem run_alone {f : FileId} {op : Op} {r : Result} {t₁ t₂ t₃ : Fs.State} (hpos : s.pos p = .lock f op)
    (hl : ilock ip s.sys.fs = .ok ((), t₁)) (ht : op.transfer ip (s.sys.files f).off t₁ = .ok (r, t₂))
    (hu : iunlock ip t₂ = .ok ((), t₃)) :
    (machine k₀ ip).run [.run p, .run p, .run p, .run p] s = some ⟨{ s.sys with
      fs := t₃
      files := upd s.sys.files f { s.sys.files f with off := u64 ((s.sys.files f).off + r.ret.toNat) } },
      upd s.pos p .user, s.log ++ [⟨p, f, op, r⟩]⟩ := by
  simp [Machine.run, machine, State.step, State.run, State.goto, State.withFs, hpos, hl, ht, hu]

/-- `file_read` is such a call. -/
theorem fileRead_alone {f : FileId} {n : UInt64} {killed : Bool} (hpos : s.pos p = .lock f (.read n))
    (htype : (s.sys.files f).type = .inode) (hr : (s.sys.files f).readable = true) :
    Wp (fileRead f killed n.toNat) (fun r k =>
        (machine k₀ (s.sys.files f).ip).run [.run p, .run p, .run p, .run p] s =
          some ⟨k, upd s.pos p .user, s.log ++ [⟨p, f, .read n, ⟨r.2, r.1⟩⟩]⟩) (fun _ => True) s.sys := by
  unfold fileRead
  rw [wp_bind, wp_get]
  dsimp only
  rw [hr, htype, if_neg (by decide)]
  dsimp only
  rw [wp_bind, onFs, wp_on]
  refine .of_forall_ok (fun _ t₁ hl => ?_) fun _ => trivial
  rw [wp_bind, wp_get, wp_bind, onFs, wp_on]
  refine .of_forall_ok (fun l t₂ ht => ?_) fun _ => trivial
  rw [wp_bind, modifyFile, wp_modify, wp_bind, onFs, wp_on]
  refine .of_forall_ok (fun _ t₃ hu => ?_) fun _ => trivial
  have ht' : (Op.read n).transfer (s.sys.files f).ip (s.sys.files f).off t₁ =
      .ok (⟨readResult (t₁.inodes (s.sys.files f).ip).type n.toNat l, l.getD []⟩, t₂) := by
    unfold Op.transfer
    simp only [bind, StateT.bind, Except.bind, get, getThe, MonadStateOf.get, StateT.get, pure, Except.pure]
    rw [show readi (s.sys.files f).ip (s.sys.files f).off n.toNat t₁ = .ok (l, t₂) from ht]
    rfl
  exact run_alone hpos hl ht' hu

/-- `file_write` is such a call. -/
theorem fileWrite_alone {f : FileId} {l : { l : List UInt8 // l.length < 2 ^ 64 }} {killed : Bool}
    (hpos : s.pos p = .lock f (.write l)) (htype : (s.sys.files f).type = .inode)
    (hw : (s.sys.files f).writable = true) :
    Wp (fileWrite f killed l.val) (fun r k =>
        (machine k₀ (s.sys.files f).ip).run [.run p, .run p, .run p, .run p] s =
          some ⟨k, upd s.pos p .user, s.log ++ [⟨p, f, .write l, ⟨r, []⟩⟩]⟩) (fun _ => True) s.sys := by
  unfold fileWrite
  rw [wp_bind, wp_get]
  dsimp only
  rw [hw, htype, if_neg (by decide)]
  dsimp only
  rw [wp_bind, onFs, wp_on]
  refine .of_forall_ok (fun _ t₁ hl => ?_) fun _ => trivial
  rw [wp_bind, wp_get, wp_bind, onFs, wp_on]
  refine .of_forall_ok (fun r t₂ ht => ?_) fun _ => trivial
  rw [wp_bind, modifyFile, wp_modify, wp_bind, onFs, wp_on]
  refine .of_forall_ok (fun _ t₃ hu => ?_) fun _ => trivial
  have ht' : (Op.write l).transfer (s.sys.files f).ip (s.sys.files f).off t₁ = .ok (⟨r, []⟩, t₂) := by
    unfold Op.transfer
    simp only [bind, StateT.bind, Except.bind]
    rw [show writei (s.sys.files f).ip (fun i => l.val.getD i 0) (s.sys.files f).off l.val.length t₁ =
      .ok (r, t₂) from ht]
    rfl
  exact run_alone hpos hl ht' hu

/-! ## The transfer -/

/-- `readi` and `writei` of a file that is no device do what the call does at its cursor. -/
theorem transfer_spec {t : Fs.State} {mode : FileId → Op → Bool} {c : Cursor} {f : FileId} {op : Op} (h : t.WF)
    (href : 0 < (t.cell ip).ref) (hv : (t.cell ip).valid = true) (htype : (t.view.nodeAt ip).type ≠ tDev)
    (hdata : c.data = (t.view.nodeAt ip).data) (hoff : c.off f < 2 ^ 64) (hmode : mode f op = true) :
    Wp (op.transfer ip (c.off f)) (fun r t' => t'.WF ∧ t'.cell = t.cell ∧ (t'.view.nodeAt ip).type ≠ tDev ∧
        Takes mode c f op r ⟨(t'.view.nodeAt ip).data, upd c.off f (c.off f + r.ret.toNat)⟩) (fun _ => True) t := by
  have hstill : ∀ r : Result, r.ret.toNat = 0 →
    (⟨(t.view.nodeAt ip).data, upd c.off f (c.off f + r.ret.toNat)⟩ : Cursor) = c := by
    intro r hr
    rw [hr, Nat.add_zero, upd_eta, ← hdata]
  cases op with
  | read n =>
      unfold Op.transfer
      rw [wp_bind, wp_get, wp_bind, h.type_eq href hv]
      refine (readi_view h href hv htype hoff n.toNat_lt).mono ?_ fun _ _ => trivial
      rintro r t' ⟨ht, hr⟩
      rw [wp_pure, ht, hr]
      by_cases hbad : (t.view.nodeAt ip).data.length < c.off f ∨ 2 ^ 64 ≤ c.off f + n.toNat
      · rw [if_pos hbad]
        refine ⟨h, rfl, htype, ?_⟩
        rw [hstill _ rfl]
        refine .refused fun ha => ?_
        rw [← hdata] at hbad
        exact hbad.elim (Nat.not_lt.mpr ha.2.1) (Nat.not_le.mpr ha.2.2)
      · rw [if_neg hbad]
        refine ⟨h, rfl, htype, ?_⟩
        rw [← hdata] at hbad ⊢
        rw [readResult, if_neg htype]
        exact .read ⟨hmode, Nat.not_lt.mp (not_or.mp hbad).1, Nat.not_le.mp (not_or.mp hbad).2⟩ rfl
  | write l =>
      unfold Op.transfer
      rw [wp_bind]
      by_cases hbad : (t.view.nodeAt ip).data.length < c.off f ∨ 525 * 4096 < c.off f + l.val.length
      · refine (writei_refuse h href hv htype hoff l.property hbad).mono ?_ fun _ _ => trivial
        rintro r _ ⟨rfl, rfl⟩
        refine ⟨h, rfl, htype, ?_⟩
        rw [hstill _ rfl]
        refine .refused fun ha => ?_
        rw [← hdata] at hbad
        exact hbad.elim (Nat.not_lt.mpr ha.2.1) (Nat.not_lt.mpr ha.2.2)
      · obtain ⟨hlen, hmax⟩ := not_or.mp hbad
        refine (writei_view h href hv htype (Nat.not_lt.mp hlen) (Nat.not_lt.mp hmax)).mono ?_ fun _ _ => trivial
        rintro r t' ⟨rfl, hwf, hview⟩
        have hcell : t'.cell = t.cell := congrArg View.cell hview
        have hnode : t'.view.nodeAt ip = { t.view.nodeAt ip with
            data := overlay (t.view.nodeAt ip).data (c.off f)
              (Bytes.slice (fun i => l.val.getD i 0) 0 l.val.length) } := by
          rw [hview, View.nodeAt, View.setNode_node, View.setNode_cell]
          exact upd_self _ _ _
        refine ⟨hwf, hcell, ?_, ?_⟩
        · rw [hnode]
          exact htype
        · rw [hnode, slice_getD, ← hdata]
          rw [← hdata] at hlen
          exact .write ⟨hmode, Nat.not_lt.mp hlen, Nat.not_lt.mp hmax⟩

/-! ## The invariant -/

/-- The process has the lock of the inode. -/
def Pos.inside : Pos → Bool
  | .transfer _ _ | .advance _ _ _ | .unlock => true
  | _ => false

/-- What the calls leave alone, and what the inode needs for a transfer. -/
structure Base (k₀ : System) (ip : Slot) (k : System) : Prop where
  wf : k.fs.WF
  ref : 0 < (k.fs.cell ip).ref
  type : (k.fs.view.nodeAt ip).type ≠ tDev
  mode : mode k = mode k₀
  off : ∀ f, (k.files f).off < 2 ^ 64

structure Locks (ip : Slot) (s : State) : Prop where
  locked : ∀ p, (s.pos p).inside = true → (s.sys.fs.cell ip).locked = true ∧ (s.sys.fs.cell ip).valid = true
  unique : ∀ p q, (s.pos p).inside = true → (s.pos q).inside = true → p = q

/-- The files of the calls on their way are open for them. -/
def Ready (k₀ : System) (s : State) : Prop :=
  ∀ p f op, s.pos p = .lock f op ∨ s.pos p = .transfer f op → mode k₀ f op = true

/-- The log up to the call that has transferred its bytes and not moved its offset. -/
structure Logged (k₀ : System) (ip : Slot) (s : State) : Prop where
  settled : (∀ p f op r, s.pos p ≠ .advance f op r) → Run (mode k₀) (cursor ip k₀) s.log (cursor ip s.sys)
  pending : ∀ p f op r, s.pos p = .advance f op r → ∃ c, Run (mode k₀) (cursor ip k₀) s.log c ∧
    c.off = (cursor ip s.sys).off ∧ Takes (mode k₀) c f op r
      ⟨(cursor ip s.sys).data, upd c.off f (c.off f + r.ret.toNat)⟩

structure Inv (k₀ : System) (ip : Slot) (s : State) : Prop where
  base : Base k₀ ip s.sys
  locks : Locks ip s
  ready : Ready k₀ s
  logged : Logged k₀ ip s

/-! ## The inode under its lock -/

theorem ilock_free {t t' : Fs.State} (h : ilock ip t = .ok ((), t')) : (t.cell ip).locked = false := by
  have hw : Wp (ilock ip) (fun _ _ => (t.cell ip).locked = false) (fun _ => True) t := by
    unfold ilock acquireSleep
    rw [wp_bind, wp_get, wp_bind, wp_panicIf]
    refine ⟨fun _ => trivial, fun _ => ?_⟩
    rw [wp_bind, wp_bind, wp_get, wp_ite]
    refine ⟨fun _ => trivial, fun hl => ?_⟩
    exact .of_forall_ok (fun _ _ _ => .of_forall_ok (fun _ _ _ => Bool.eq_false_iff.mpr hl) fun _ => trivial) fun _ =>
      trivial
  exact hw.of_ok h

theorem Base.withFs {k : System} {fs : Fs.State} (h : Base k₀ ip k) (hwf : fs.WF)
    (href : (fs.cell ip).ref = (k.fs.cell ip).ref) (htype : (fs.view.nodeAt ip).type ≠ tDev) :
    Base k₀ ip { k with fs := fs } :=
  ⟨hwf, by rw [href]; exact h.ref, htype, h.mode, h.off⟩

/-- A step that changes neither the lock of the inode nor who has it. -/
theorem Locks.keep (h : Locks ip s) (hcell : s'.sys.fs.cell ip = s.sys.fs.cell ip)
    (hin : ∀ p, (s'.pos p).inside = (s.pos p).inside) : Locks ip s' := by
  refine ⟨fun p hp => ?_, fun p q hp hq => ?_⟩
  · rw [hcell]
    rw [hin] at hp
    exact h.locked p hp
  · rw [hin] at hp hq
    exact h.unique p q hp hq

theorem inside_goto {pos : Pos} (h : pos.inside = (s.pos p).inside) (q : ProcId) :
    ((s.goto p pos).pos q).inside = (s.pos q).inside := by
  change (upd s.pos p pos q).inside = _
  by_cases hq : q = p
  · rw [hq, upd_self, h]
  · rw [upd_of_ne hq]

theorem Ready.goto (h : Ready k₀ s) {pos : Pos}
    (hpos : ∀ f op, pos = .lock f op ∨ pos = .transfer f op → mode k₀ f op = true) : Ready k₀ (s.goto p pos) :=
  forall_upd (P := fun _ (x : Pos) => ∀ f op, x = .lock f op ∨ x = .transfer f op → mode k₀ f op = true) hpos
    fun q _ => h q

/-- A step to and from other places than that before the update of the offset. -/
theorem Logged.keep (h : Logged k₀ ip s) (hcur : cursor ip s'.sys = cursor ip s.sys) (hlog : s'.log = s.log)
    (hpos : ∀ p f op r, s'.pos p = .advance f op r ↔ s.pos p = .advance f op r) : Logged k₀ ip s' := by
  refine ⟨fun hno => ?_, fun p f op r hp => ?_⟩
  · rw [hcur, hlog]
    exact h.settled fun p f op r hp => hno p f op r ((hpos p f op r).mpr hp)
  · rw [hcur, hlog]
    exact h.pending p f op r ((hpos p f op r).mp hp)

theorem advance_goto {pos : Pos} (hold : ∀ f op r, s.pos p ≠ .advance f op r) (hnew : ∀ f op r, pos ≠ .advance f op r)
    (q : ProcId) (f : FileId) (op : Op) (r : Result) :
    (s.goto p pos).pos q = .advance f op r ↔ s.pos q = .advance f op r := by
  change upd s.pos p pos q = _ ↔ _
  by_cases hq : q = p
  · rw [hq, upd_self]
    exact iff_of_false (hnew f op r) (hold f op r)
  · rw [upd_of_ne hq]

/-! ## Every step keeps the invariant -/

theorem Inv.call {f : FileId} {op : Op} (h : Inv k₀ ip s) (hpos : s.pos p = .user) (ha : mode s.sys f op = true) :
    Inv k₀ ip (s.goto p (.lock f op)) := by
  refine ⟨h.base, h.locks.keep rfl (inside_goto (by rw [hpos]; rfl)), h.ready.goto ?_,
    h.logged.keep rfl rfl (advance_goto ?_ ?_)⟩
  · rintro f' op' (h0 | h0)
    · cases h0
      rw [← h.base.mode]
      exact ha
    · cases h0
  · intro f' op' r h0
    rw [hpos] at h0
    cases h0
  · exact fun f' op' r h0 => by cases h0

theorem Inv.refuse {f : FileId} {op : Op} (h : Inv k₀ ip s) (ha : mode s.sys f op = false) :
    Inv k₀ ip { s with log := s.log ++ [⟨p, f, op, ⟨-1, []⟩⟩] } := by
  have hrefused : ∀ c : Cursor, Takes (mode k₀) c f op ⟨-1, []⟩ c := by
    intro c
    refine .refused fun hc => ?_
    rw [← h.base.mode, Cursor.Allows, ha] at hc
    exact Bool.false_ne_true hc.1
  refine ⟨h.base, h.locks.keep rfl fun _ => rfl, h.ready, ⟨fun hno => ?_, fun q f' op' r hq => ?_⟩⟩
  · exact (h.logged.settled hno).snoc (hrefused _)
  · obtain ⟨c, hrun, hoff, htakes⟩ := h.logged.pending q f' op' r hq
    exact ⟨c, hrun.snoc (hrefused c), hoff, htakes⟩

theorem Inv.lock {f : FileId} {op : Op} {fs : Fs.State} (h : Inv k₀ ip s) (hpos : s.pos p = .lock f op)
    (hl : ilock ip s.sys.fs = .ok ((), fs)) : Inv k₀ ip ((s.withFs fs).goto p (.transfer f op)) := by
  have hfree := ilock_free hl
  obtain ⟨hwf, hview, -⟩ := (ilock_spec h.base.wf h.base.ref).of_ok hl
  have hcell : fs.cell ip = { s.sys.fs.cell ip with locked := true, valid := true } :=
    (congrFun (congrArg View.cell hview) ip).trans (upd_self _ _ _)
  have hnode : fs.view.nodeAt ip = s.sys.fs.view.nodeAt ip := by
    rw [hview, View.nodeAt, View.lock, View.setCell_node, View.setCell_cell, upd_self]
    rfl
  have hnone : ∀ q, (s.pos q).inside = false := fun q => by
    refine Bool.eq_false_iff.mpr fun hq => ?_
    rw [(h.locks.locked q hq).1] at hfree
    cases hfree
  have hlogged : Logged k₀ ip (s.withFs fs) :=
    h.logged.keep (congrArg (fun n : Node => (⟨n.data, fun f => (s.sys.files f).off⟩ : Cursor)) hnode) rfl
      fun _ _ _ _ => Iff.rfl
  refine ⟨h.base.withFs hwf (by rw [hcell]) (by rw [hnode]; exact h.base.type), ⟨?_, ?_⟩,
    Ready.goto (s := s.withFs fs) h.ready ?_,
    hlogged.keep rfl rfl (advance_goto ?_ ?_)⟩
  · intro q _
    change (fs.cell ip).locked = true ∧ (fs.cell ip).valid = true
    rw [hcell]
    exact ⟨rfl, rfl⟩
  · have hself : ∀ q, ((upd s.pos p (.transfer f op)) q).inside = true → q = p := by
      intro q hq
      by_contra hne
      rw [upd_of_ne hne, hnone] at hq
      cases hq
    exact fun q q' hq hq' => (hself q hq).trans (hself q' hq').symm
  · rintro f' op' (h0 | h0)
    · cases h0
    · cases h0
      exact h.ready p f op (.inl hpos)
  · intro f' op' r h0
    change s.pos p = _ at h0
    rw [hpos] at h0
    cases h0
  · exact fun f' op' r h0 => by cases h0

theorem Inv.transfer {f : FileId} {op : Op} {r : Result} {fs : Fs.State} (h : Inv k₀ ip s)
    (hpos : s.pos p = .transfer f op) (ht : op.transfer ip (s.sys.files f).off s.sys.fs = .ok (r, fs)) :
    Inv k₀ ip ((s.withFs fs).goto p (.advance f op r)) := by
  have hin : (s.pos p).inside = true := by
    rw [hpos]
    rfl
  have hspec := transfer_spec (c := cursor ip s.sys) h.base.wf h.base.ref (h.locks.locked p hin).2 h.base.type
    rfl (h.base.off f) (h.ready p f op (.inr hpos))
  obtain ⟨hwf, hcell, htype, htakes⟩ := hspec.of_ok ht
  -- Only the process with the lock can be before the update of its offset.
  have hnone : ∀ q f' op' r', s.pos q ≠ .advance f' op' r' := by
    intro q f' op' r' hq
    have hqp : q = p := h.locks.unique q p (by rw [hq]; rfl) hin
    rw [hqp, hpos] at hq
    cases hq
  have hlocks : Locks ip (s.withFs fs) := h.locks.keep (congrFun hcell ip) fun _ => rfl
  refine ⟨h.base.withFs hwf (by rw [hcell]) htype,
    hlocks.keep rfl (inside_goto ?_),
    Ready.goto (s := s.withFs fs) h.ready ?_, ⟨fun hno => ?_, fun q f' op' r' hq => ?_⟩⟩
  · change _ = (s.pos p).inside
    rw [hin]
    rfl
  · rintro f' op' (h0 | h0) <;> cases h0
  · exact absurd (upd_self s.pos p _) (hno p f op r)
  · change upd s.pos p _ q = _ at hq
    by_cases hqp : q = p
    · rw [hqp, upd_self] at hq
      cases hq
      exact ⟨cursor ip s.sys, h.logged.settled hnone, rfl, htakes⟩
    · rw [upd_of_ne hqp] at hq
      exact absurd hq (hnone q f' op' r')

theorem Inv.advance {f : FileId} {op : Op} {r : Result} (h : Inv k₀ ip s) (hpos : s.pos p = .advance f op r) :
    Inv k₀ ip { s with
      sys := { s.sys with
        files := upd s.sys.files f { s.sys.files f with off := u64 ((s.sys.files f).off + r.ret.toNat) } }
      pos := upd s.pos p .unlock
      log := s.log ++ [⟨p, f, op, r⟩] } := by
  have hin : (s.pos p).inside = true := by
    rw [hpos]
    rfl
  obtain ⟨c, hrun, hoff, htakes⟩ := h.logged.pending p f op r hpos
  have hcf : c.off f = (s.sys.files f).off := congrFun hoff f
  have hlt : (s.sys.files f).off + r.ret.toNat < 2 ^ 64 := by
    rw [← hcf]
    refine htakes.off_lt ?_
    rw [hcf]
    exact h.base.off f
  rw [u64_of_lt hlt]
  refine ⟨⟨h.base.wf, h.base.ref, h.base.type, ?_, ?_⟩, h.locks.keep rfl (inside_goto (s := s) (by rw [hin]; rfl)),
    h.ready.goto (by rintro f' op' (h0 | h0) <;> cases h0), ⟨fun _ => ?_, fun q f' op' r' hq => ?_⟩⟩
  · rw [← h.base.mode]
    funext f' op'
    change op'.allowed (upd _ _ _ f') = op'.allowed _
    by_cases hf : f' = f
    · rw [hf, upd_self]
      cases op' <;> rfl
    · rw [upd_of_ne hf]
  · exact forall_upd (P := fun _ (x : File) => x.off < 2 ^ 64) hlt fun f' _ => h.base.off f'
  · have hcur : cursor ip { s.sys with
        files := upd s.sys.files f { s.sys.files f with off := (s.sys.files f).off + r.ret.toNat } } =
        ⟨(cursor ip s.sys).data, upd c.off f (c.off f + r.ret.toNat)⟩ := by
      rw [hcf, hoff]
      exact congrArg (Cursor.mk _) (funext (map_upd File.off _ _ _))
    rw [hcur]
    exact hrun.snoc htakes
  · change upd s.pos p _ q = _ at hq
    by_cases hqp : q = p
    · rw [hqp, upd_self] at hq
      cases hq
    · rw [upd_of_ne hqp] at hq
      exact absurd (h.locks.unique q p (by rw [hq]; rfl) hin) hqp

theorem Inv.unlock {fs : Fs.State} (h : Inv k₀ ip s) (hpos : s.pos p = .unlock)
    (hu : iunlock ip s.sys.fs = .ok ((), fs)) :
    Inv k₀ ip ((s.withFs fs).goto p .user) := by
  have hin : (s.pos p).inside = true := by
    rw [hpos]
    rfl
  obtain ⟨hwf, hview⟩ := (iunlock_spec h.base.wf h.base.ref (h.locks.locked p hin).1).of_ok hu
  have hcell : fs.cell ip = { s.sys.fs.cell ip with locked := false } :=
    (congrFun (congrArg View.cell hview) ip).trans (upd_self _ _ _)
  have hnode : fs.view.nodeAt ip = s.sys.fs.view.nodeAt ip := by
    rw [hview, View.nodeAt, View.unlock, View.setCell_node, View.setCell_cell, upd_self]
    rfl
  have hnone : ∀ q, (upd s.pos p .user q).inside ≠ true := by
    intro q hq
    by_cases hqp : q = p
    · rw [hqp, upd_self] at hq
      cases hq
    · rw [upd_of_ne hqp] at hq
      exact hqp (h.locks.unique q p hq hin)
  have hlogged : Logged k₀ ip (s.withFs fs) :=
    h.logged.keep (congrArg (fun n : Node => (⟨n.data, fun f => (s.sys.files f).off⟩ : Cursor)) hnode) rfl
      fun _ _ _ _ => Iff.rfl
  refine ⟨h.base.withFs hwf (by rw [hcell]) (by rw [hnode]; exact h.base.type),
    ⟨fun q hq => absurd hq (hnone q), fun q _ hq => absurd hq (hnone q)⟩,
    Ready.goto (s := s.withFs fs) h.ready (by rintro f' op' (h0 | h0) <;> cases h0),
    hlogged.keep rfl rfl (advance_goto ?_ ?_)⟩
  · intro f' op' r h0
    change s.pos p = _ at h0
    rw [hpos] at h0
    cases h0
  · exact fun f' op' r h0 => by cases h0

theorem Inv.step (h : Inv k₀ ip s) (hs : Steps ip s s') : Inv k₀ ip s' := by
  cases hs with
  | call hpos ha => exact h.call hpos ha
  | refuse ha => exact h.refuse ha
  | lock hpos hl => exact h.lock hpos hl
  | transfer hpos ht => exact h.transfer hpos ht
  | advance hpos => exact h.advance hpos
  | unlock hpos hu => exact h.unlock hpos hu

/-- The invariant of every state of a run, from what holds before the first call. -/
theorem Inv.reachable (h₀ : Base k₀ ip k₀) (h : (machine k₀ ip).Reachable s) : Inv k₀ ip s := by
  refine h.invariant (P := Inv k₀ ip) ?_ fun s a s' hi hs => hi.step (step_steps hs)
  rintro s rfl
  exact ⟨h₀, ⟨fun p hp => (by cases hp), fun p q hp => (by cases hp)⟩, (by rintro p f op (h0 | h0) <;> cases h0),
    ⟨fun _ => .nil, fun p f op r hp => (by cases hp)⟩⟩

/-- While the lock of the inode is free, the calls of the log took effect one by one. -/
theorem Inv.settled (h : Inv k₀ ip s) (hfree : (s.sys.fs.cell ip).locked = false) :
    Run (mode k₀) (cursor ip k₀) s.log (cursor ip s.sys) := by
  refine h.logged.settled fun p f op r hp => ?_
  rw [(h.locks.locked p (by rw [hp]; rfl)).1] at hfree
  cases hfree

end Xv6.Offset
