import Xv6.Pipe.Lemmas.Queue

/-!
# Waking the processes of a pipe

A process that waits on a channel has a reason to, or the process with the lock still owes the channel a
`wakeup`. The one place where a debt is not paid is the early return of `pipe_write`.
-/

namespace Xv6.Pipe

open Xv6.Lib Xv6.Fs Xv6.Kernel

/-- A `wakeup` on the channel comes before the lock is given back, or should come. -/
def Pc.owes : Chan → Pc → Bool
  | .nread, .writeTest _ _ | .nread, .writeWake _ _ | .nread, .writeEnd _ | .nread, .closeWake true => true
  | .nread, .writeReturn _ _ r => r = -1
  | .nwrite, .readCopy _ _ _ | .nwrite, .readEnd _ _ | .nwrite, .closeWake false => true
  | _, _ => false

section Local

variable {killed : Bool} {q : Kernel.Pipe} {pc pc' : Pc} {i : Instr} {c : Chan}

theorem Pc.holds_of_owes (h : pc.owes c = true) : pc.holds = true := by
  cases pc <;> cases c <;> first | rfl | cases h

/-- A debt is paid or kept, but for an early return. -/
theorem Code.owes (h : Code killed q pc i pc') (hc : pc.owes c = true) :
    i = .wakeup c ∨ (c = .nread ∧ ∃ addr j, pc = .writeReturn addr j (-1)) ∨ pc'.owes c = true := by
  cases c with
  | nread =>
      cases h with
      | writeWake | writeEnd | closeWrite => exact .inl rfl
      | writeReturn =>
          have hr := of_decide_eq_true hc
          exact .inr (.inl ⟨rfl, _, _, by rw [hr]⟩)
      | giveUp | full | store | stored => exact .inr (.inr rfl)
      | _ => cases hc
  | nwrite =>
      cases h with
      | readEnd | closeRead => exact .inl rfl
      | load | loaded => exact .inr (.inr rfl)
      | _ => cases hc

/-- Who takes the reason away owes a `wakeup`. -/
theorem Code.ready (h : Code killed q pc i pc') (hr : Ready q c) : Ready (i.pipe q) c ∨ pc'.owes c = true := by
  cases h with
  | store _ hroom =>
      cases c with
      | nread => exact .inr rfl
      | nwrite => exact absurd hr.1 hroom
  | load hsome =>
      cases c with
      | nread => exact absurd hr.1 hsome
      | nwrite => exact .inr rfl
  | @closeMark writable =>
      cases c <;> cases writable <;> first | exact .inr rfl | exact .inl hr
  | _ => exact .inl hr

theorem Code.of_fall {w : Wait} (h : Code killed q pc i (.fall w)) : pc = .sleep w ∧ i = .sleep := by
  generalize hpc : Pc.fall w = pc' at h
  cases h with
  | enter => cases ‹Op› <;> cases hpc
  | reacquire => cases ‹Wait› <;> cases hpc
  | sleep =>
      cases hpc
      exact ⟨rfl, rfl⟩
  | _ => cases hpc

theorem Code.of_asleep {w : Wait} (h : Code killed q pc i (.asleep w)) : pc = .fall w := by
  generalize hpc : Pc.asleep w = pc' at h
  cases h with
  | enter => cases ‹Op› <;> cases hpc
  | reacquire => cases ‹Wait› <;> cases hpc
  | fall =>
      cases hpc
      rfl
  | _ => cases hpc

end Local

variable {ι : Type} [DecidableEq ι] {s s' : State ι} {t u : ι} {c : Chan}

/-- A process is asleep on the channel, or has given back the lock of the pipe to be so. -/
def State.Waits (s : State ι) (t : ι) (c : Chan) : Prop :=
  ∃ w, w.chan = c ∧ ((s.procs t).pc = .fall w ∨ (s.procs t).pc = .asleep w ∧ (s.procs t).state = .sleeping)

/-- The place of a process that waits, if it also sleeps where it has to. -/
def Pc.waitsOn (c : Chan) (sleeping : Bool) : Pc → Bool
  | .fall w => w.chan = c
  | .asleep w => w.chan = c ∧ sleeping
  | _ => false

omit [DecidableEq ι] in
theorem waits_iff : s.Waits t c ↔ (s.procs t).pc.waitsOn c ((s.procs t).state = .sleeping) = true := by
  unfold State.Waits
  cases (s.procs t).pc <;> simp [Pc.waitsOn]

instance (s : State ι) (t : ι) (c : Chan) : Decidable (s.Waits t c) := decidable_of_iff _ waits_iff.symm

/-- Who waits has a reason to, or is owed a `wakeup`. -/
def Woken (s : State ι) : Prop :=
  ∀ t c, s.Waits t c → Ready s.pipe c ∨ ∃ u, s.lock = some u ∧ (s.procs u).pc.owes c = true

/-- A `pipe_write` that gives up leaves nobody behind who waits to read. -/
def LeavesNobody (s : State ι) : Action ι → Prop
  | .run t => ∀ addr i, (s.procs t).pc = .writeReturn addr i (-1) → ∀ u, ¬ s.Waits u .nread
  | _ => True

/-- A process that is about to return -1 from `pipe_write`. -/
def Pc.givesUp : Pc → Bool
  | .writeReturn _ _ r => r = -1
  | _ => false

omit [DecidableEq ι] in
theorem leavesNobody_run : LeavesNobody s (.run t) ↔ ((s.procs t).pc.givesUp = true → ∀ u, ¬ s.Waits u .nread) := by
  constructor
  · intro h hg
    cases hpc : (s.procs t).pc with
    | writeReturn addr i r =>
        rw [hpc] at hg
        rw [of_decide_eq_true hg] at hpc
        exact h addr i hpc
    | _ =>
        rw [hpc] at hg
        cases hg
  · intro h addr i hpc
    exact h (by rw [hpc]; rfl)

instance [Fintype ι] (s : State ι) (a : Action ι) : Decidable (LeavesNobody s a) :=
  match a with
  | .run _ => decidable_of_iff _ leavesNobody_run.symm
  | .call _ _ | .kill _ | .schedule _ | .yield _ => .isTrue trivial

omit [DecidableEq ι] in
theorem Starts.woken (h : Starts s) : Woken s := by
  rintro t c ⟨w, _, hpc | ⟨hpc, _⟩⟩
  · rw [(h.idle t).1] at hpc
    cases hpc
  · rw [(h.idle t).1] at hpc
    cases hpc

omit [DecidableEq ι] in
theorem Locked.waits_sleeping (h : Locked s) (hw : s.Waits t c) (hpt : s.ptable = none) :
    (s.procs t).state = .sleeping ∧ (s.procs t).chan = some c := by
  obtain ⟨w, rfl, hpc | ⟨hpc, hs⟩⟩ := hw
  · have := (h.ptable t).mpr (by rw [hpc]; rfl)
    rw [hpt] at this
    cases this
  · obtain ⟨w', hpc', hchan⟩ := h.asleep t hs
    rw [hpc] at hpc'
    cases hpc'
    exact ⟨hs, hchan⟩

/-- Another process that waits did so before. -/
theorem waits_of_run (hu : u ≠ t) {i : Instr} {pc : Pc} (hw : ((exec s t i).goto t pc).Waits u c) : s.Waits u c := by
  obtain ⟨w, hc, hw⟩ := hw
  rw [goto_of_ne hu, exec_pc] at hw
  refine ⟨w, hc, hw.imp id fun ⟨hpc, hs⟩ => ⟨hpc, ?_⟩⟩
  cases i with
  | wakeup c' => exact (sleeping_of_wakeup hs).1
  | close writable => cases writable <;> exact hs
  | doze c' => simpa [exec, hu] using hs
  | _ => exact hs

section Run

variable {i : Instr} {pc : Pc}

/-- A process that comes to wait has a reason to, or waited before. -/
theorem Queue.run_waits (hq : Queue s) (hcode : Code (s.procs t).killed s.pipe (s.procs t).pc i pc)
    (hw : ((exec s t i).goto t pc).Waits u c) : Ready (i.pipe s.pipe) c ∨ s.Waits u c := by
  by_cases hu : u = t
  · subst hu
    obtain ⟨w, rfl, hw⟩ := hw
    rw [goto_self] at hw
    rcases hw with rfl | ⟨rfl, _⟩
    · obtain ⟨hpc, rfl⟩ := hcode.of_fall
      have hk := hq.knows u
      rw [hpc] at hk
      exact .inl hk
    · exact .inr ⟨w, rfl, .inl hcode.of_asleep⟩
  · exact .inr (waits_of_run hu hw)

/-- Nobody waits on a channel after a `wakeup` on it. -/
theorem Locked.not_waits_wakeup (hl : Locked s) (hpc : pc.holds = true) (hen : enabled s (.wakeup c) = true) :
    ¬ ((exec s t (.wakeup c)).goto t pc).Waits u c := by
  intro hw
  by_cases hu : u = t
  · subst hu
    obtain ⟨w, _, hw⟩ := hw
    rw [goto_self] at hw
    rcases hw with rfl | ⟨rfl, _⟩ <;> cases hpc
  · have hs := hl.waits_sleeping (waits_of_run hu hw) (Option.isNone_iff_eq_none.mp hen)
    obtain ⟨w, _, hw⟩ := hw
    rw [goto_of_ne hu] at hw
    rcases hw with hw | ⟨_, hw⟩
    · obtain ⟨w', hw', _⟩ := hl.asleep u hs.1
      rw [exec_pc, hw'] at hw
      cases hw
    · exact (sleeping_of_wakeup hw).2 hs.2

theorem Woken.run (hl : Locked s) (hq : Queue s) (h : Woken s) (hrun : (s.procs t).state = .running)
    (hcode : Code (s.procs t).killed s.pipe (s.procs t).pc i pc) (hen : enabled s i = true)
    (hcond : LeavesNobody s (.run t)) : Woken ((exec s t i).goto t pc) := by
  have hl' := hl.run hrun hcode hen
  intro u c hw
  have hpipe : ((exec s t i).goto t pc).pipe = i.pipe s.pipe := exec_pipe i
  rw [hpipe]
  rcases hq.run_waits hcode hw with hr | hw'
  · exact .inl hr
  -- a debt of the process itself
  have hself : pc.owes c = true →
      ∃ v, ((exec s t i).goto t pc).lock = some v ∧ (((exec s t i).goto t pc).procs v).pc.owes c = true := by
    intro ho
    refine ⟨t, (hl'.lock t).mpr ?_, ?_⟩
    · rw [goto_self]
      exact Pc.holds_of_owes ho
    · rw [goto_self]
      exact ho
  rcases h u c hw' with hr | ⟨v, hv, ho⟩
  · exact (hcode.ready hr).imp id hself
  · right
    by_cases hvt : v = t
    · subst hvt
      rcases hcode.owes ho with rfl | ⟨rfl, addr, j, hpc⟩ | ho'
      · exact absurd hw (hl.not_waits_wakeup hcode.moves.2 hen)
      · exact absurd hw' (hcond addr j hpc u)
      · exact hself ho'
    · have hpc : (((exec s t i).goto t pc).procs v).pc = (s.procs v).pc := by rw [goto_of_ne hvt, exec_pc]
      refine ⟨v, (hl'.lock v).mpr ?_, ?_⟩
      · rw [hpc]
        exact (hl.lock v).mp hv
      · rw [hpc]
        exact ho

end Run

/-- A process that does not begin to wait, and drops no debt. -/
theorem Woken.keep {g : Proc → Proc} (h : Woken s) (hw : ∀ c, (s.modifyProc t g).Waits t c → s.Waits t c)
    (ho : ∀ c, (s.procs t).pc.owes c = true → (g (s.procs t)).pc.owes c = true) : Woken (s.modifyProc t g) := by
  intro u c hwu
  have hwu : s.Waits u c := by
    by_cases hu : u = t
    · subst hu
      exact hw c hwu
    · rw [State.Waits, modifyProc_of_ne hu] at hwu
      exact hwu
  refine (h u c hwu).imp id fun ⟨v, hv, hov⟩ => ⟨v, hv, ?_⟩
  by_cases hvt : v = t
  · subst hvt
    rw [modifyProc_self]
    exact ho c hov
  · rw [modifyProc_of_ne hvt]
    exact hov

theorem Steps.woken {a : Action ι} (hl : Locked s) (hq : Queue s) (h : Woken s) (hcond : LeavesNobody s a)
    (hs : Steps s a s') : Woken s' := by
  cases hs with
  | call hpc =>
      apply h.keep
      · rintro c ⟨w, _, hw⟩
        rw [modifyProc_self] at hw
        rcases hw with hw | ⟨hw, _⟩ <;> cases hw
      · intro c ho
        rw [hpc] at ho
        cases c <;> cases ho
  | run hrun _ hcode hen => exact h.run hl hq hrun hcode hen hcond
  | kill =>
      refine h.keep ?_ fun _ => id
      rintro c ⟨w, hc, hw⟩
      rw [modifyProc_self] at hw
      refine ⟨w, hc, hw.imp id fun ⟨hpc, hs⟩ => ?_⟩
      split at hs
      · cases hs
      · contradiction
  | wake _ hpc =>
      apply h.keep
      · rintro c ⟨w, _, hw⟩
        rw [modifyProc_self] at hw
        rcases hw with hw | ⟨hw, _⟩ <;> cases hw
      · intro c ho
        rw [hpc] at ho
        cases c <;> cases ho
  | schedule | yield =>
      refine h.keep ?_ fun _ => id
      rintro c ⟨w, hc, hw⟩
      rw [modifyProc_self] at hw
      exact ⟨w, hc, hw.imp id fun ⟨_, hs⟩ => by cases hs⟩

theorem woken (h : (machine ι).ReachableIf LeavesNobody s) : Woken s :=
  h.invariant (P := Woken) (fun _ hs => Starts.woken hs) fun _ _ _ hr hp hc hs =>
    (step_cases hs).woken (locked hr.reachable) (queue hr.reachable) hp hc

end Xv6.Pipe
