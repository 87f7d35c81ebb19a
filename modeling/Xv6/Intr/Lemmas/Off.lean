import Xv6.Intr.Lemmas.Step

/-!
# The flag is off in the kernel

While the code of a process runs in the kernel, the flag is off and `int_ena` is 0 whenever `ncli` is not; `sched`
saves that 0 and restores it. The one way around this is the first switch to a process, which takes `int_ena` as it
finds it: `fork_ret` then runs with that value as the flag, and with the flag set it can be interrupted.
-/

namespace Xv6.Intr

open Xv6.Lib Xv6.Kernel

variable {r r' : Regs} {a : Act} {l l' : List Act}

/-! ## One processor -/

/-- The flags while `a` runs in the kernel. -/
structure Kern (r : Regs) (a : Act) : Prop where
  intr : r.intr = false
  ncli : r.ncli = a.depth
  entry : a.entry ≠ .scheduler ∧ a.entry ≠ .fork
  ena : (∀ e, a.pc ≠ .resume e) → 0 < a.depth → r.intEna = false
  push : ∀ f acq, a.pc = .push f acq → f = false
  resume : ∀ e, a.pc = .resume e → e = false
  sti : a.pc ≠ .sti

/-- A process that has left `fork_ret`. -/
def leaving : Act := ⟨.fork, 0, false, .code⟩

/-- The flags and the stack while a process runs whose first switch found `found`. -/
inductive Fits (r : Regs) (found : Bool) : List Act → Prop where
  | user (hn : r.ncli = 0) : Fits r found []
  | kernel {a : Act} (h : Kern r a) : Fits r found [a]
  | born (hn : r.ncli = 1) (hi : r.intr = false) (he : r.intEna = found) : Fits r found newborn
  | leaves (hn : r.ncli = 0) (hi : r.intr = found) : Fits r found [leaving]
  | gate {g : Act} (hg : Kern r g) (he : g.entry = .gate found) : Fits r found [g, leaving]

/-- The scheduler outside of `ptable.lock`. -/
inductive Idle : Act → Prop where
  | sti : Idle ⟨.scheduler, 0, false, .sti⟩
  | code : Idle ⟨.scheduler, 0, false, .code⟩
  | push {f : Bool} : Idle ⟨.scheduler, 0, false, .push f true⟩

/-- The scheduler between two processes. -/
def scan : Act := ⟨.scheduler, 1, true, .code⟩

/-- The flags and the stack while the scheduler runs. -/
inductive Loops (r : Regs) : List Act → Prop where
  | idle {a : Act} (ha : Idle a) (hn : r.ncli = 0) : Loops r [a]
  | spin (hn : r.ncli = 1) (hi : r.intr = false) : Loops r [⟨.scheduler, 1, false, .spin⟩]
  | scan (hn : r.ncli = 1) (hi : r.intr = false) : Loops r [scan]
  | gate {g a : Act} (hg : Kern r g) (ha : Idle a) : Loops r [g, a]

theorem popCli_some (h : r.popCli = some r') :
    r.intr = false ∧ r.ncli ≠ 0 ∧ r' = ⟨decide (r.ncli = 1) && r.intEna, r.ncli - 1, r.intEna⟩ := by
  unfold Regs.popCli at h
  by_cases hbad : r.intr = true ∨ r.ncli = 0
  · rw [if_pos hbad] at h
    cases h
  · rw [if_neg hbad] at h
    cases h
    exact ⟨Bool.eq_false_iff.mpr (not_or.mp hbad).1, (not_or.mp hbad).2, rfl⟩

/-- The code that an entry into the kernel starts. -/
theorem Kern.entered {e : Entry} (he : e ≠ .scheduler ∧ e ≠ .fork) (hn : r.ncli = 0) :
    Kern { r with intr := false } ⟨e, 0, false, .code⟩ :=
  ⟨rfl, hn, he, fun _ h0 => absurd h0 (lt_irrefl 0), fun _ _ h0 => (by cases h0), fun _ h0 => (by cases h0),
    Pc.noConfusion⟩

theorem Kern.unlocked {e : Entry} {d : Nat} {lk lk' : Bool} (h : Kern r ⟨e, d, lk, .code⟩) (hr : r.popCli = some r') :
    Kern r' ⟨e, d - 1, lk', .code⟩ := by
  obtain ⟨-, hn, rfl⟩ := popCli_some hr
  have hd : d = r.ncli := h.ncli.symm
  have hena : r.intEna = false := h.ena (fun _ => Pc.noConfusion) (Nat.pos_of_ne_zero (by rw [hd]; exact hn))
  refine ⟨?_, ?_, h.entry, fun _ _ => hena, fun _ _ h0 => (by cases h0), fun _ h0 => (by cases h0), Pc.noConfusion⟩
  · rw [hena, Bool.and_false]
  · exact congrArg (· - 1) h.ncli

theorem Kern.moves {rest : List Act} (h : Kern r a) (hm : Moves r (a :: rest) r' l) :
    (∃ a', l = a' :: rest ∧ Kern r' a' ∧ a'.entry = a.entry) ∨
      l = rest ∧ r'.ncli = 0 ∧ ∀ f, a.entry = .gate f → r'.intr = f := by
  cases hm with
  | interrupt hi =>
      rw [h.intr] at hi
      cases hi
  | push he hacq =>
      refine .inl ⟨_, rfl, ⟨h.intr, h.ncli, h.entry, fun _ => h.ena fun _ => Pc.noConfusion, ?_,
        fun _ h0 => (by cases h0), Pc.noConfusion⟩, rfl⟩
      intro f acq h0
      cases h0
      exact h.intr
  | @cli e d lk f acq =>
      have hf : f = false := h.push f acq rfl
      refine .inl ⟨_, rfl, ⟨rfl, congrArg (· + 1) h.ncli, h.entry, fun _ _ => ?_, ?_, ?_, ?_⟩, rfl⟩
      · change (if r.ncli = 0 then f else r.intEna) = false
        by_cases h0 : r.ncli = 0
        · rw [if_pos h0, hf]
        · rw [if_neg h0]
          exact h.ena (fun _ => Pc.noConfusion) (Nat.pos_of_ne_zero fun hd => h0 (h.ncli.trans hd))
      · cases acq <;> exact fun _ _ h0 => by cases h0
      · cases acq <;> exact fun _ h0 => by cases h0
      · cases acq <;> exact Pc.noConfusion
  | take =>
      exact .inl ⟨_, rfl, ⟨h.intr, h.ncli, h.entry, fun _ => h.ena fun _ => Pc.noConfusion, fun _ _ h0 => (by cases h0),
        fun _ h0 => (by cases h0), Pc.noConfusion⟩, rfl⟩
  | pop he hf hr => exact .inl ⟨_, rfl, h.unlocked hr, rfl⟩
  | release hr =>
      rw [if_neg h.entry.1]
      exact .inl ⟨_, rfl, h.unlocked hr, rfl⟩
  | restore =>
      exact .inl ⟨_, rfl, ⟨h.intr, h.ncli, h.entry, fun _ _ => h.resume _ rfl, fun _ _ h0 => (by cases h0),
        fun _ h0 => (by cases h0), Pc.noConfusion⟩, rfl⟩
  | iret =>
      refine .inr ⟨rfl, h.ncli, fun f h0 => ?_⟩
      cases h0
      rfl
  | sysret he =>
      refine .inr ⟨rfl, h.ncli, fun f h0 => ?_⟩
      rcases he with rfl | rfl <;> cases h0
  | sti => exact absurd rfl h.sti

theorem Fits.moves {found : Bool} (h : Fits r found l) (hm : Moves r l r' l') : Fits r' found l' := by
  cases h with
  | user hn =>
      cases hm with
      | syscall => exact .kernel (.entered ⟨Entry.noConfusion, Entry.noConfusion⟩ hn)
      | interrupt hi => exact .kernel (.entered ⟨Entry.noConfusion, Entry.noConfusion⟩ hn)
  | kernel hk =>
      rcases hk.moves hm with ⟨a', rfl, hk', -⟩ | ⟨rfl, hn, -⟩
      · exact .kernel hk'
      · exact .user hn
  | born hn hi he =>
      unfold newborn at hm
      cases hm with
      | interrupt hi' =>
          rw [hi] at hi'
          cases hi'
      | push hf hacq => exact absurd rfl hf
      | pop hs hf hr => exact absurd rfl hf
      | release hr =>
          -- the `release` of `fork_ret`
          obtain ⟨-, -, rfl⟩ := popCli_some hr
          refine .leaves (congrArg (· - 1) hn) ?_
          dsimp only
          rw [hn, he]
          rfl
  | leaves hn hi =>
      unfold leaving at hm
      cases hm with
      | interrupt hi' =>
          refine .gate (.entered ⟨Entry.noConfusion, Entry.noConfusion⟩ hn) ?_
          rw [← hi, hi']
      | push hf hacq => exact absurd rfl hf
      | pop hs hf hr => exact absurd rfl hf
      | sysret he => exact .user hn
  | gate hg he =>
      rcases hg.moves hm with ⟨g', rfl, hg', he'⟩ | ⟨rfl, hn, hf⟩
      · exact .gate hg' (he'.trans he)
      · exact .leaves hn (hf _ he)

theorem Idle.moves (h : Idle a) (hn : r.ncli = 0) (hm : Moves r [a] r' l) : Loops r' l := by
  cases hm with
  | interrupt hi => exact .gate (.entered ⟨Entry.noConfusion, Entry.noConfusion⟩ hn) h
  | push hf hacq =>
      cases h
      cases (hacq rfl).2
      exact .idle .push hn
  | cli =>
      cases h
      exact .spin (congrArg (· + 1) hn) rfl
  | take => cases h
  | pop he hf hr => exact absurd hn (popCli_some hr).2.1
  | release hr => cases h
  | restore => cases h
  | iret => cases h
  | sysret he =>
      cases h
      rcases he with h0 | h0 <;> cases h0
  | sti =>
      cases h
      exact .idle .code hn

theorem Loops.moves (h : Loops r l) (hm : Moves r l r' l') : Loops r' l' := by
  cases h with
  | idle ha hn => exact ha.moves hn hm
  | spin hn hi =>
      cases hm with
      | interrupt hi' =>
          rw [hi] at hi'
          cases hi'
      | take => exact .scan hn hi
  | scan hn hi =>
      unfold Intr.scan at hm
      cases hm with
      | interrupt hi' =>
          rw [hi] at hi'
          cases hi'
      | push hf hacq => cases (hacq rfl).1
      | pop he hf hr => exact absurd rfl he
      | release hr =>
          obtain ⟨-, -, rfl⟩ := popCli_some hr
          exact .idle .sti (congrArg (· - 1) hn)
  | gate hg ha =>
      rcases hg.moves hm with ⟨g', rfl, hg', -⟩ | ⟨rfl, hn, -⟩
      · exact .gate hg' ha
      · exact .idle ha hn

/-! ## All processors -/

/-- The stack of a process that waits for its turn. -/
inductive Parked (found : Bool) : List Act → Prop where
  | newborn : Parked found newborn
  | swtch {e : Entry} {lk : Bool} (he : e ≠ .scheduler ∧ e ≠ .fork) : Parked found [⟨e, 1, lk, .swtch false⟩]
  | gate {lk : Bool} : Parked found [⟨.gate found, 1, lk, .swtch false⟩, leaving]

variable {ι κ : Type} [DecidableEq ι] [DecidableEq κ] {s s' : State ι κ} {c : κ} {p : ι}

structure Inv (s : State ι κ) : Prop where
  running : ∀ c p, (s.cpus c).proc = some p → (s.procs p).state = .running
  unique : ∀ c c' p, (s.cpus c).proc = some p → (s.cpus c').proc = some p → c = c'
  loop : ∀ c p, (s.cpus c).proc = some p → (s.cpus c).loop = [scan]
  idle : ∀ c, (s.cpus c).proc = none → Loops (s.cpus c).regs (s.cpus c).loop
  fits : ∀ c p, (s.cpus c).proc = some p → Fits (s.cpus c).regs (s.procs p).found (s.procs p).acts
  parked : ∀ p, (s.procs p).state = .runnable ∨ (s.procs p).state = .sleeping →
    Parked (s.procs p).found (s.procs p).acts

omit [DecidableEq ι] [DecidableEq κ] in
theorem Inv.start (h : Starts s) : Inv s := by
  have hno : ∀ c p, (s.cpus c).proc ≠ some p := fun c p h0 => by
    rw [(h.cpu c).2.1] at h0
    cases h0
  refine ⟨fun c p h0 => absurd h0 (hno c p), fun c _ p h0 => absurd h0 (hno c p), fun c p h0 => absurd h0 (hno c p), ?_,
    fun c p h0 => absurd h0 (hno c p), ?_⟩
  · intro c _
    rw [(h.cpu c).2.2]
    exact .idle .sti (h.cpu c).1
  · intro p hp
    rcases h.proc p with h0 | ⟨-, h0⟩
    · rw [h0] at hp
      rcases hp with h1 | h1 <;> cases h1
    · rw [h0]
      exact .newborn

omit [DecidableEq ι] [DecidableEq κ] in
theorem Inv.withLock (h : Inv s) (lk : Option κ) : Inv { s with lock := lk } :=
  ⟨h.running, h.unique, h.loop, h.idle, h.fits, h.parked⟩

omit [DecidableEq ι] in
/-- The scheduler of `c` moves. -/
theorem Inv.putLoop (h : Inv s) (hp : (s.cpus c).proc = none) (hl : Loops r l) :
    Inv { s with cpus := upd s.cpus c { s.cpus c with regs := r, loop := l } } := by
  have hproc : ∀ c', (upd s.cpus c { s.cpus c with regs := r, loop := l } c').proc = (s.cpus c').proc :=
    forall_upd (P := fun c' (x : Cpu ι) => x.proc = (s.cpus c').proc) rfl fun _ _ => rfl
  have hother : ∀ c' p, (upd s.cpus c { s.cpus c with regs := r, loop := l } c').proc = some p →
      upd s.cpus c { s.cpus c with regs := r, loop := l } c' = s.cpus c' := by
    intro c' p h0
    refine upd_of_ne ?_ _ _
    rintro rfl
    rw [hproc, hp] at h0
    cases h0
  refine ⟨fun c' p h0 => h.running c' p (by rwa [← hproc]), fun c' c'' p h0 h1 => ?_, fun c' p h0 => ?_, ?_,
    fun c' p h0 => ?_, h.parked⟩
  · exact h.unique c' c'' p (by rwa [← hproc]) (by rwa [← hproc])
  · have hc := hother c' p h0
    dsimp only at h0 ⊢
    rw [hc] at h0 ⊢
    exact h.loop c' p h0
  · exact forall_upd (P := fun _ (x : Cpu ι) => x.proc = none → Loops x.regs x.loop) (fun _ => hl) fun c' _ => h.idle c'
  · have hc := hother c' p h0
    dsimp only at h0 ⊢
    rw [hc] at h0 ⊢
    exact h.fits c' p h0

/-- The process on `c` moves. -/
theorem Inv.putProc (h : Inv s) (hp : (s.cpus c).proc = some p) (hl : Fits r (s.procs p).found l) :
    Inv { s with
      cpus := upd s.cpus c { s.cpus c with regs := r }
      procs := upd s.procs p { s.procs p with acts := l } } := by
  have hproc : ∀ c', (upd s.cpus c { s.cpus c with regs := r } c').proc = (s.cpus c').proc :=
    forall_upd (P := fun c' (x : Cpu ι) => x.proc = (s.cpus c').proc) rfl fun _ _ => rfl
  have hloop : ∀ c', (upd s.cpus c { s.cpus c with regs := r } c').loop = (s.cpus c').loop :=
    forall_upd (P := fun c' (x : Cpu ι) => x.loop = (s.cpus c').loop) rfl fun _ _ => rfl
  have hstate : ∀ q, (upd s.procs p { s.procs p with acts := l } q).state = (s.procs q).state :=
    forall_upd (P := fun q (x : Proc) => x.state = (s.procs q).state) rfl fun _ _ => rfl
  refine ⟨fun c' q h0 => ?_, fun c' c'' q h0 h1 => ?_, fun c' q h0 => ?_, ?_, ?_, ?_⟩
  · dsimp only
    rw [hstate]
    exact h.running c' q (by rwa [← hproc])
  · exact h.unique c' c'' q (by rwa [← hproc]) (by rwa [← hproc])
  · dsimp only
    rw [hloop]
    exact h.loop c' q (by rwa [← hproc])
  · refine forall_upd (P := fun _ (x : Cpu ι) => x.proc = none → Loops x.regs x.loop) (fun h0 => ?_) fun c' _ =>
      h.idle c'
    rw [hp] at h0
    cases h0
  · intro c' q h0
    rw [hproc] at h0
    by_cases hc : c' = c
    · subst hc
      obtain rfl : p = q := Option.some.inj (hp.symm.trans h0)
      dsimp only
      rw [upd_self, upd_self]
      exact hl
    · have hq : q ≠ p := fun hq => hc (h.unique c' c q h0 (by rw [hq]; exact hp))
      dsimp only
      rw [upd_of_ne hc, upd_of_ne hq]
      exact h.fits c' q h0
  · refine forall_upd (P := fun _ (x : Proc) => x.state = .runnable ∨ x.state = .sleeping → Parked x.found x.acts) ?_
      fun q _ => h.parked q
    rw [h.running c p hp]
    rintro (h0 | h0) <;> cases h0

theorem Inv.put (h : Inv s) (hm : Moves (s.cpus c).regs (s.acts c) r l) : Inv (s.put c r l) := by
  unfold State.put
  unfold State.acts at hm
  cases hp : (s.cpus c).proc with
  | none =>
      rw [hp] at hm
      exact h.putLoop hp ((h.idle c hp).moves hm)
  | some p =>
      rw [hp] at hm
      exact h.putProc hp ((h.fits c p hp).moves hm)

/-- What the `swtch` of `sched` leaves behind. -/
theorem Fits.parks {found : Bool} {rest : List Act} (h : Fits r found (a :: rest)) (hpc : a.pc = .code)
    (he : a.entry ≠ .fork) (hn : r.ncli = 1) : Parked found ({ a with pc := .swtch r.intEna } :: rest) := by
  obtain ⟨e, d, lk, pc⟩ := a
  cases hpc
  have hkern : ∀ e' lk', Kern r ⟨e', d, lk', .code⟩ → d = 1 ∧ r.intEna = false := by
    intro e' lk' hk
    have hd : d = 1 := hk.ncli.symm.trans hn
    exact ⟨hd, hk.ena (fun _ => Pc.noConfusion) (by rw [hd]; exact Nat.one_pos)⟩
  cases h with
  | kernel hk =>
      obtain ⟨rfl, hena⟩ := hkern _ _ hk
      rw [hena]
      exact .swtch hk.entry
  | born hn' hi hena => exact absurd rfl he
  | leaves hn' hi => exact absurd rfl he
  | gate hg hgate =>
      obtain ⟨rfl, hena⟩ := hkern _ _ hg
      cases hgate
      rw [hena]
      exact .gate

theorem Inv.sched {rest : List Act} {st : ProcState} (h : Inv s) (hp : (s.cpus c).proc = some p)
    (hl : (s.procs p).acts = a :: rest) (hpc : a.pc = .code) (he : a.entry ≠ .fork) (hn : (s.cpus c).regs.ncli = 1)
    (hi : (s.cpus c).regs.intr = false) :
    Inv { s with
      cpus := upd s.cpus c { s.cpus c with proc := none }
      procs := upd s.procs p { s.procs p with
        state := st
        acts := { a with pc := .swtch (s.cpus c).regs.intEna } :: rest } } := by
  have hparked := Fits.parks (by rw [← hl]; exact h.fits c p hp) hpc he hn
  have hproc : ∀ c' q, (upd s.cpus c { s.cpus c with proc := none } c').proc = some q →
      c' ≠ c ∧ (s.cpus c').proc = some q ∧ q ≠ p := by
    intro c' q h0
    have hc : c' ≠ c := by
      rintro rfl
      rw [upd_self] at h0
      cases h0
    rw [upd_of_ne hc] at h0
    exact ⟨hc, h0, fun hq => hc (h.unique c' c q h0 (by rw [hq]; exact hp))⟩
  refine ⟨fun c' q h0 => ?_, fun c' c'' q h0 h1 => ?_, fun c' q h0 => ?_, ?_, fun c' q h0 => ?_, ?_⟩
  · obtain ⟨-, h1, hq⟩ := hproc c' q h0
    dsimp only
    rw [upd_of_ne hq]
    exact h.running c' q h1
  · exact h.unique c' c'' q (hproc c' q h0).2.1 (hproc c'' q h1).2.1
  · obtain ⟨hc, h1, -⟩ := hproc c' q h0
    dsimp only
    rw [upd_of_ne hc]
    exact h.loop c' q h1
  · refine forall_upd (P := fun _ (x : Cpu ι) => x.proc = none → Loops x.regs x.loop) (fun _ => ?_) fun c' _ =>
      h.idle c'
    rw [h.loop c p hp]
    exact .scan hn hi
  · obtain ⟨hc, h1, hq⟩ := hproc c' q h0
    dsimp only
    rw [upd_of_ne hc, upd_of_ne hq]
    exact h.fits c' q h1
  · exact forall_upd (P := fun _ (x : Proc) => x.state = .runnable ∨ x.state = .sleeping → Parked x.found x.acts)
      (fun _ => hparked) fun q _ => h.parked q

/-- A process goes on with its own `int_ena`, and a new one with that of the processor. -/
theorem Parked.resumes {found : Bool} (h : Parked found l) (hn : r.ncli = 1) (hi : r.intr = false) :
    Fits r (if l = Intr.newborn then r.intEna else found) (Intr.resume l) := by
  have hkern : ∀ e lk, e ≠ .scheduler ∧ e ≠ .fork → Kern r ⟨e, 1, lk, .resume false⟩ := by
    refine fun e lk he => ⟨hi, hn, he, fun h0 => absurd rfl (h0 _), fun _ _ h0 => (by cases h0), fun _ h0 => ?_,
      Pc.noConfusion⟩
    cases h0
    rfl
  cases h with
  | newborn =>
      rw [if_pos rfl]
      exact .born hn hi rfl
  | swtch he => exact .kernel (hkern _ _ he)
  | gate =>
      rw [if_neg fun h0 => by cases h0]
      exact .gate (hkern _ _ ⟨Entry.noConfusion, Entry.noConfusion⟩) rfl

omit [DecidableEq ι] [DecidableEq κ] in
/-- The scheduler is between two processes when it switches. -/
theorem Inv.scans {rest : List Act} (h : Inv s) (hl : s.acts c = a :: rest) (he : a.entry = .scheduler)
    (hlk : a.lock = true) :
    (s.cpus c).proc = none ∧ (s.cpus c).loop = [scan] ∧ (s.cpus c).regs.ncli = 1 ∧ (s.cpus c).regs.intr = false := by
  unfold State.acts at hl
  cases hp : (s.cpus c).proc with
  | none =>
      rw [hp] at hl
      dsimp only at hl
      have hloops := h.idle c hp
      rw [hl] at hloops ⊢
      cases hloops with
      | idle ha hn => cases ha <;> cases hlk
      | spin hn hi => cases hlk
      | scan hn hi => exact ⟨rfl, rfl, hn, hi⟩
      | gate hg ha => exact absurd he hg.entry.1
  | some p =>
      rw [hp] at hl
      dsimp only at hl
      have hf := h.fits c p hp
      rw [hl] at hf
      cases hf with
      | kernel hk => exact absurd he hk.entry.1
      | born hn hi hena => cases he
      | leaves hn hi => cases he
      | gate hg hgate => exact absurd he hg.entry.1

theorem Inv.swtch {rest : List Act} (h : Inv s) (hl : s.acts c = a :: rest) (he : a.entry = .scheduler)
    (hlk : a.lock = true) (hst : (s.procs p).state = .runnable) :
    Inv { s with
      cpus := upd s.cpus c { s.cpus c with proc := some p }
      procs := upd s.procs p {
        state := .running
        acts := resume (s.procs p).acts
        found := if (s.procs p).acts = newborn then (s.cpus c).regs.intEna else (s.procs p).found } } := by
  obtain ⟨hnone, hscan, hn, hi⟩ := h.scans hl he hlk
  have hfits := (h.parked p (.inl hst)).resumes hn hi
  -- Nobody runs `p` yet.
  have hp : ∀ c', (s.cpus c').proc ≠ some p := by
    intro c' h0
    rw [h.running c' p h0] at hst
    cases hst
  have hproc : ∀ c' q, (upd s.cpus c { s.cpus c with proc := some p } c').proc = some q →
      c' = c ∧ q = p ∨ c' ≠ c ∧ (s.cpus c').proc = some q ∧ q ≠ p := by
    intro c' q h0
    by_cases hc : c' = c
    · rw [hc, upd_self] at h0
      exact .inl ⟨hc, (Option.some.inj h0).symm⟩
    · rw [upd_of_ne hc] at h0
      exact .inr ⟨hc, h0, fun hq => hp c' (by rw [← hq]; exact h0)⟩
  refine ⟨fun c' q h0 => ?_, fun c' c'' q h0 h1 => ?_, fun c' q h0 => ?_, ?_, fun c' q h0 => ?_, ?_⟩
  · dsimp only
    rcases hproc c' q h0 with ⟨-, rfl⟩ | ⟨-, h1, hq⟩
    · rw [upd_self]
    · rw [upd_of_ne hq]
      exact h.running c' q h1
  · rcases hproc c' q h0 with ⟨rfl, rfl⟩ | ⟨-, h2, hq⟩
    · rcases hproc c'' q h1 with ⟨rfl, -⟩ | ⟨-, -, hq⟩
      · rfl
      · exact absurd rfl hq
    · rcases hproc c'' q h1 with ⟨-, rfl⟩ | ⟨-, h3, -⟩
      · exact absurd rfl hq
      · exact h.unique c' c'' q h2 h3
  · dsimp only
    rcases hproc c' q h0 with ⟨rfl, -⟩ | ⟨hc, h1, -⟩
    · rw [upd_self]
      exact hscan
    · rw [upd_of_ne hc]
      exact h.loop c' q h1
  · exact forall_upd (P := fun _ (x : Cpu ι) => x.proc = none → Loops x.regs x.loop) (fun h0 => (by cases h0))
      fun c' _ => h.idle c'
  · dsimp only
    rcases hproc c' q h0 with ⟨rfl, rfl⟩ | ⟨hc, h1, hq⟩
    · rw [upd_self, upd_self]
      exact hfits
    · rw [upd_of_ne hc, upd_of_ne hq]
      exact h.fits c' q h1
  · refine forall_upd (P := fun _ (x : Proc) => x.state = .runnable ∨ x.state = .sleeping → Parked x.found x.acts) ?_
      fun q _ => h.parked q
    rintro (h0 | h0) <;> cases h0

omit [DecidableEq κ] in
/-- The state of a process that does not run changes. -/
theorem Inv.setProc (h : Inv s) {x : Proc} (hst : (s.procs p).state ≠ .running)
    (hx : x.state = .runnable ∨ x.state = .sleeping → Parked x.found x.acts) :
    Inv { s with procs := upd s.procs p x } := by
  have hne : ∀ c q, (s.cpus c).proc = some q → q ≠ p := fun c q h0 hq => hst (by rw [← hq]; exact h.running c q h0)
  refine ⟨fun c q h0 => ?_, h.unique, h.loop, h.idle, fun c q h0 => ?_, ?_⟩
  · dsimp only
    rw [upd_of_ne (hne c q h0)]
    exact h.running c q h0
  · dsimp only
    rw [upd_of_ne (hne c q h0)]
    exact h.fits c q h0
  · exact forall_upd (P := fun _ (x : Proc) => x.state = .runnable ∨ x.state = .sleeping → Parked x.found x.acts) hx
      fun q _ => h.parked q

omit [DecidableEq κ] in
theorem Inv.mark {st : ProcState} (h : Inv s) (hm : marks (s.procs p).state st = true) :
    Inv { s with procs := upd s.procs p { s.procs p with
      state := st
      acts := if (s.procs p).state = .embryo then newborn else (s.procs p).acts } } := by
  refine h.setProc (fun h0 => ?_) fun hst => ?_
  · rw [h0] at hm
    cases hm
  · dsimp only at hst ⊢
    by_cases he : (s.procs p).state = .embryo
    · rw [if_pos he]
      exact .newborn
    · rw [if_neg he]
      refine h.parked p ?_
      cases hs : (s.procs p).state with
      | sleeping => exact .inr rfl
      | runnable => exact .inl rfl
      | embryo => exact absurd hs he
      | _ =>
          rw [hs] at hm
          rcases hst with h0 | h0 <;> rw [h0] at hm <;> cases hm

theorem Inv.step {α : Action ι κ} (h : Inv s) (hs : Steps s α s') : Inv s' := by
  cases hs with
  | move lk hm => exact (h.withLock lk).put hm
  | sched hp hl hpc he hn hi => exact h.sched hp hl hpc he hn hi
  | swtch hl he hpc hlk hst => exact h.swtch hl he hlk hst
  | mark hm => exact h.mark hm
  | drop hst =>
      refine h.setProc (fun h0 => ?_) fun h0 => ?_
      · rw [hst] at h0
        cases h0
      · rcases h0 with h1 | h1 <;> cases h1

theorem Inv.reachable (h : (machine ι κ).Reachable s) : Inv s :=
  h.invariant (fun _ => Inv.start) fun _ _ _ hi hs => hi.step (step_steps hs)

end Xv6.Intr
