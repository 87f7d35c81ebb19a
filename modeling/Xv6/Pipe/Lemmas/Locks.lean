import Xv6.Pipe.Calls

/-!
# Who has the locks of a pipe

What one step does to the state, and that a lock is always with the process whose place in the code says so.
-/

namespace Xv6.Pipe

open Xv6.Lib Xv6.Fs Xv6.Kernel

/-- A process that has `ptable.lock` and is about to sleep. -/
def Pc.falls : Pc → Bool
  | .fall _ => true
  | _ => false

theorem Pc.not_falls_of_holds {pc : Pc} (h : pc.holds = true) : pc.falls = false := by
  cases pc <;> first | rfl | cases h

@[simp] theorem Op.holds_body (op : Op) : op.body.holds = true := by cases op <;> rfl

@[simp] theorem Wait.holds_resume (w : Wait) : w.resume.holds = true := by cases w <;> rfl

/-- The instructions of the code, branch by branch. -/
inductive Code (killed : Bool) (q : Kernel.Pipe) : Pc → Instr → Pc → Prop where
  | enter {op : Op} : Code killed q (.enter op) .acquire op.body
  | giveUp {addr : Request} {i : Nat} (hi : i < addr.val.length) (hfull : q.nwrite = u64 (q.nread + pipesize))
      (hstop : q.readOpen = false ∨ killed = true) :
      Code killed q (.writeTest addr i) .skip (.writeReturn addr i (-1))
  | full {addr : Request} {i : Nat} (hi : i < addr.val.length) (hfull : q.nwrite = u64 (q.nread + pipesize))
      (hopen : q.readOpen = true) : Code killed q (.writeTest addr i) .skip (.writeWake addr i)
  | store {addr : Request} {i : Nat} (hi : i < addr.val.length) (hroom : q.nwrite ≠ u64 (q.nread + pipesize)) :
      Code killed q (.writeTest addr i) (.store (addr.val.getD i 0)) (.writeTest addr (i + 1))
  | stored {addr : Request} {i : Nat} (hi : addr.val.length ≤ i) :
      Code killed q (.writeTest addr i) .skip (.writeEnd addr)
  | writeWake {addr : Request} {i : Nat} : Code killed q (.writeWake addr i) (.wakeup .nread) (.sleep (.write addr i))
  | writeEnd {addr : Request} :
      Code killed q (.writeEnd addr) (.wakeup .nread) (.writeReturn addr addr.val.length addr.val.length)
  | writeReturn {addr : Request} {i : Nat} {r : Int} :
      Code killed q (.writeReturn addr i r) (.returnWrite addr i r) .idle
  | readKilled {n : Fin (2 ^ 31)} : Code killed q (.readTest n) .skip (.readReturn n none)
  | empty {n : Fin (2 ^ 31)} (hempty : q.nread = q.nwrite) (hopen : q.writeOpen = true) :
      Code killed q (.readTest n) .skip (.sleep (.read n))
  | copy {n : Fin (2 ^ 31)} (hclosed : q.nread = q.nwrite → q.writeOpen = false) :
      Code killed q (.readTest n) .skip (.readCopy n 0 [])
  | load {n : Fin (2 ^ 31)} {i : Nat} {got : List UInt8} (hsome : q.nread ≠ q.nwrite) :
      Code killed q (.readCopy n i got) .load (.readCopy n (i + 1) (got ++ [q.data (q.nread % pipesize)]))
  | loaded {n : Fin (2 ^ 31)} {i : Nat} {got : List UInt8} (hstop : i < n.val → q.nread = q.nwrite) :
      Code killed q (.readCopy n i got) .skip (.readEnd n got)
  | readEnd {n : Fin (2 ^ 31)} {got : List UInt8} :
      Code killed q (.readEnd n got) (.wakeup .nwrite) (.readReturn n (some got))
  | readReturn {n : Fin (2 ^ 31)} {r : Option (List UInt8)} : Code killed q (.readReturn n r) (.returnRead n r) .idle
  | closeMark {writable : Bool} : Code killed q (.closeMark writable) (.close writable) (.closeWake writable)
  | closeWrite : Code killed q (.closeWake true) (.wakeup .nread) .closeReturn
  | closeRead : Code killed q (.closeWake false) (.wakeup .nwrite) .closeReturn
  | closeReturn : Code killed q .closeReturn .returnClose .idle
  | sleep {w : Wait} : Code killed q (.sleep w) .sleep (.fall w)
  | fall {w : Wait} : Code killed q (.fall w) (.doze w.chan) (.asleep w)
  | reacquire {w : Wait} : Code killed q (.reacquire w) .acquire w.resume

theorem next_code {killed : Bool} {q : Kernel.Pipe} {pc pc' : Pc} {i : Instr} (h : next killed q pc = some (i, pc')) :
    Code killed q pc i pc' := by
  revert h
  fun_cases next killed q pc <;> intro h <;> cases h
  case case2 => exact .enter
  case case3 hi hfull hstop => exact .giveUp hi hfull hstop
  case case4 hi hfull hstop =>
    simp only [not_or, Bool.not_eq_false] at hstop
    exact .full hi hfull hstop.1
  case case5 hi hroom => exact .store hi hroom
  case case6 hi => exact .stored (Nat.le_of_not_lt hi)
  case case7 => exact .writeWake
  case case8 => exact .writeEnd
  case case9 => exact .writeReturn
  case case10 => exact .readKilled
  case case11 h _ => exact .empty h.1 h.2
  case case12 h =>
    simp only [not_and, Bool.not_eq_true] at h
    exact .copy h
  case case13 h => exact .load h.2
  case case14 h =>
    simp only [not_and, ne_eq, not_not] at h
    exact .loaded h
  case case15 => exact .readEnd
  case case16 => exact .readReturn
  case case17 => exact .closeMark
  case case18 writable =>
    cases writable with
    | true => exact .closeWrite
    | false => exact .closeRead
  case case19 => exact .closeReturn
  case case20 => exact .sleep
  case case21 => exact .fall
  case case23 => exact .reacquire

/-- What an instruction does to the locks of the process, by its places before and after. -/
def Instr.Moves (pc pc' : Pc) : Instr → Prop
  | .acquire => (pc.holds = false ∧ pc.falls = false) ∧ pc'.holds = true
  | .sleep => ∃ w, pc = .sleep w ∧ pc' = .fall w
  | .doze c => ∃ w, pc = .fall w ∧ pc' = .asleep w ∧ c = w.chan
  | .returnWrite _ _ _ | .returnRead _ _ | .returnClose => pc.holds = true ∧ pc' = .idle
  | _ => pc.holds = true ∧ pc'.holds = true

theorem Code.moves {killed : Bool} {q : Kernel.Pipe} {pc pc' : Pc} {i : Instr} (h : Code killed q pc i pc') :
    i.Moves pc pc' := by
  cases h with
  | enter => exact ⟨⟨rfl, rfl⟩, Op.holds_body _⟩
  | reacquire => exact ⟨⟨rfl, rfl⟩, Wait.holds_resume _⟩
  | _ => simp [Instr.Moves, Pc.holds]

variable {ι : Type} [DecidableEq ι] {s s' : State ι} {t u : ι}

/-! ## One step -/

/-- What an action does where it is enabled. -/
inductive Steps (s : State ι) : Action ι → State ι → Prop where
  | call {t : ι} {op : Op} (hpc : (s.procs t).pc = .idle) : Steps s (.call t op) (s.goto t (.enter op))
  | run {t : ι} {i : Instr} {pc : Pc} (hrun : (s.procs t).state = .running) (hfreed : s.freed = false)
      (hcode : Code (s.procs t).killed s.pipe (s.procs t).pc i pc) (hen : enabled s i = true) :
      Steps s (.run t) ((exec s t i).goto t pc)
  | kill {t : ι} (hpt : s.ptable = none) : Steps s (.kill t) (s.modifyProc t fun x =>
      { x with killed := true, state := if x.state = .sleeping then .runnable else x.state })
  | wake {t : ι} {w : Wait} (hpt : s.ptable = none) (hpc : (s.procs t).pc = .asleep w) :
      Steps s (.schedule t) (s.modifyProc t fun x =>
        { x with state := .running, chan := none, pc := .reacquire w })
  | schedule {t : ι} (hpt : s.ptable = none) :
      Steps s (.schedule t) (s.modifyProc t fun x => { x with state := .running })
  | yield {t : ι} (hpt : s.ptable = none) (hpc : (s.procs t).pc.holds = false) :
      Steps s (.yield t) (s.modifyProc t fun x => { x with state := .runnable })

theorem step_cases {a : Action ι} (h : step s a = some s') : Steps s a s' := by
  cases a with
  | call t op =>
      simp only [step] at h
      split at h
      · rename_i hpc
        split at h
        · cases h
          exact .call hpc
        · cases h
      · cases h
  | run t =>
      simp only [step] at h
      split at h
      · rename_i hr
        split at h
        · cases h
        · rename_i i pc hnext
          split at h
          · rename_i hen
            cases h
            exact .run hr.1 hr.2 (next_code hnext) hen
          · cases h
      · cases h
  | kill t =>
      simp only [step] at h
      split at h
      · rename_i hpt
        cases h
        exact .kill hpt
      · cases h
  | schedule t =>
      simp only [step] at h
      split at h
      · rename_i hpt
        cases h
        cases hpc : (s.procs t).pc with
        | asleep w =>
            have : (s.procs t).scheduled = { s.procs t with state := .running, chan := none, pc := .reacquire w } := by
              simp [Proc.scheduled, hpc]
            rw [State.modifyProc, this]
            exact .wake hpt.1 hpc
        | _ =>
            have : (s.procs t).scheduled = { s.procs t with state := .running } := by simp [Proc.scheduled, hpc]
            rw [State.modifyProc, this]
            exact .schedule hpt.1
      · cases h
  | yield t =>
      simp only [step] at h
      split at h
      · rename_i hpt
        cases h
        exact .yield hpt.1 hpt.2.2
      · cases h

/-! ## Fields after an update -/

@[simp] theorem modifyProc_self {g : Proc → Proc} : (s.modifyProc t g).procs t = g (s.procs t) := upd_self _ _ _

@[simp] theorem modifyProc_of_ne {g : Proc → Proc} (h : u ≠ t) : (s.modifyProc t g).procs u = s.procs u :=
  upd_of_ne h _ _

@[simp] theorem goto_self {pc : Pc} : (s.goto t pc).procs t = { s.procs t with pc := pc } := upd_self _ _ _

@[simp] theorem goto_of_ne {pc : Pc} (h : u ≠ t) : (s.goto t pc).procs u = s.procs u := upd_of_ne h _ _

@[simp] theorem wakeup_pc (x : Proc) (c : Chan) : (x.wakeup c).pc = x.pc := by
  unfold Proc.wakeup
  split <;> rfl

@[simp] theorem wakeup_chan (x : Proc) (c : Chan) : (x.wakeup c).chan = x.chan := by
  unfold Proc.wakeup
  split <;> rfl

theorem sleeping_of_wakeup {x : Proc} {c : Chan} (h : (x.wakeup c).state = .sleeping) :
    x.state = .sleeping ∧ x.chan ≠ some c := by
  unfold Proc.wakeup at h
  split at h
  · cases h
  · rename_i hn
    exact ⟨h, fun hc => hn ⟨h, hc⟩⟩

theorem running_wakeup {x : Proc} (c : Chan) (h : x.state = .running) : (x.wakeup c).state = .running := by
  unfold Proc.wakeup
  split
  · rename_i hs
    rw [h] at hs
    cases hs.1
  · exact h

/-! ## The locks -/

/-- The locks are with the processes whose places say so, and a process that sleeps is in `sched`. -/
structure Locked (s : State ι) : Prop where
  lock : ∀ u, s.lock = some u ↔ (s.procs u).pc.holds = true
  ptable : ∀ u, s.ptable = some u ↔ (s.procs u).pc.falls = true
  asleep : ∀ u, (s.procs u).state = .sleeping → ∃ w, (s.procs u).pc = .asleep w ∧ (s.procs u).chan = some w.chan
  running : ∀ u, (s.procs u).pc.holds = true ∨ (s.procs u).pc.falls = true → (s.procs u).state = .running

omit [DecidableEq ι] in
theorem Starts.locked (h : Starts s) : Locked s where
  lock u := by simp [h.lock, (h.idle u).1, Pc.holds]
  ptable u := by simp [h.ptable, (h.idle u).1, Pc.falls]
  asleep u hu := absurd hu (h.idle u).2
  running u hu := by simp [(h.idle u).1, Pc.holds, Pc.falls] at hu

omit [DecidableEq ι] in
/-- Only one process has the lock of the pipe. -/
theorem Locked.unique (h : Locked s) (ht : (s.procs t).pc.holds = true) (hu : (s.procs u).pc.holds = true) : u = t :=
  Option.some.inj (((h.lock u).mpr hu).symm.trans ((h.lock t).mpr ht))

/-- A step of `t` that gives the other processes no lock and takes none from them. -/
theorem Locked.change (h : Locked s)
    (hothers : ∀ u, u ≠ t → (s'.procs u).pc = (s.procs u).pc ∧ (s'.procs u).chan = (s.procs u).chan ∧
      ((s'.procs u).state = .sleeping → (s.procs u).state = .sleeping) ∧
      ((s.procs u).state = .running → (s'.procs u).state = .running))
    (hlock : ∀ u, u ≠ t → (s'.lock = some u ↔ s.lock = some u))
    (hptable : ∀ u, u ≠ t → (s'.ptable = some u ↔ s.ptable = some u))
    (hl : s'.lock = some t ↔ (s'.procs t).pc.holds = true) (hp : s'.ptable = some t ↔ (s'.procs t).pc.falls = true)
    (ha : (s'.procs t).state = .sleeping → ∃ w, (s'.procs t).pc = .asleep w ∧ (s'.procs t).chan = some w.chan)
    (hr : (s'.procs t).pc.holds = true ∨ (s'.procs t).pc.falls = true → (s'.procs t).state = .running) :
    Locked s' where
  lock u := by
    by_cases hu : u = t
    · rw [hu, hl]
    · rw [hlock u hu, (hothers u hu).1, h.lock]
  ptable u := by
    by_cases hu : u = t
    · rw [hu, hp]
    · rw [hptable u hu, (hothers u hu).1, h.ptable]
  asleep u hs := by
    by_cases hu : u = t
    · subst hu
      exact ha hs
    · obtain ⟨hpc, hchan, hstate, _⟩ := hothers u hu
      rw [hpc, hchan]
      exact h.asleep u (hstate hs)
  running u hs := by
    by_cases hu : u = t
    · subst hu
      exact hr hs
    · obtain ⟨hpc, _, _, hrun⟩ := hothers u hu
      rw [hpc] at hs
      exact hrun (h.running u hs)

/-- Only the process itself changes, and its locks stay. -/
theorem Locked.keep {g : Proc → Proc} (h : Locked s) (hh : (g (s.procs t)).pc.holds = (s.procs t).pc.holds)
    (hf : (g (s.procs t)).pc.falls = (s.procs t).pc.falls)
    (ha : (g (s.procs t)).state = .sleeping →
      ∃ w, (g (s.procs t)).pc = .asleep w ∧ (g (s.procs t)).chan = some w.chan)
    (hr : (s.procs t).pc.holds = true ∨ (s.procs t).pc.falls = true → (s.procs t).state = .running →
      (g (s.procs t)).state = .running) : Locked (s.modifyProc t g) := by
  apply h.change (t := t)
  · intro u hu
    rw [modifyProc_of_ne hu]
    exact ⟨rfl, rfl, id, id⟩
  · exact fun _ _ => Iff.rfl
  · exact fun _ _ => Iff.rfl
  · rw [modifyProc_self, hh]
    exact h.lock t
  · rw [modifyProc_self, hf]
    exact h.ptable t
  · rw [modifyProc_self]
    exact ha
  · rw [modifyProc_self, hh, hf]
    exact fun hs => hr hs (h.running t hs)

/-- A process with the lock of the pipe works on it. -/
theorem Locked.work {pc : Pc} (h : Locked s) (hprocs : s'.procs = s.procs) (hlock : s'.lock = s.lock)
    (hptable : s'.ptable = s.ptable) (hpc : (s.procs t).pc.holds = true) (hpc' : pc.holds = true)
    (hrun : (s.procs t).state = .running) : Locked (s'.goto t pc) := by
  have hs' : Locked s' := ⟨by rw [hprocs, hlock]; exact h.lock, by rw [hprocs, hptable]; exact h.ptable,
    by rw [hprocs]; exact h.asleep, by rw [hprocs]; exact h.running⟩
  apply hs'.keep
  · rw [hprocs, hpc, hpc']
  · rw [hprocs, Pc.not_falls_of_holds hpc, Pc.not_falls_of_holds hpc']
  · intro hs
    rw [hprocs, hrun] at hs
    cases hs
  · exact fun _ hs => hs

/-- A process with the lock of the pipe gives it back and is done. -/
theorem Locked.done (h : Locked s) (hprocs : s'.procs = s.procs) (hlock : s'.lock = none)
    (hptable : s'.ptable = s.ptable) (hpc : (s.procs t).pc.holds = true) (hrun : (s.procs t).state = .running) :
    Locked (s'.goto t .idle) := by
  apply h.change (t := t)
  · intro u hu
    rw [goto_of_ne hu, hprocs]
    exact ⟨rfl, rfl, id, id⟩
  · intro u hu
    have hne : s.lock ≠ some u := fun hc => hu (h.unique hpc ((h.lock u).mp hc))
    simp [State.goto, State.modifyProc, hlock, hne]
  · intro u _
    simp [State.goto, State.modifyProc, hptable]
  · simp [State.goto, State.modifyProc, hlock, Pc.holds]
  · have hne : s.ptable ≠ some t := by
      rw [Ne, h.ptable, Pc.not_falls_of_holds hpc]
      simp
    simp [State.goto, State.modifyProc, hptable, hne, Pc.falls]
  · intro hs
    rw [goto_self, hprocs, hrun] at hs
    cases hs
  · rw [goto_self, hprocs, hrun]
    exact fun _ => rfl

theorem Locked.run {i : Instr} {pc : Pc} (h : Locked s) (hrun : (s.procs t).state = .running)
    (hcode : Code (s.procs t).killed s.pipe (s.procs t).pc i pc) (hen : enabled s i = true) :
    Locked ((exec s t i).goto t pc) := by
  have hm := hcode.moves
  cases i with
  | skip | store _ | load => exact h.work rfl rfl rfl hm.1 hm.2 hrun
  | close writable =>
      cases writable with
      | true => exact h.work rfl rfl rfl hm.1 hm.2 hrun
      | false => exact h.work rfl rfl rfl hm.1 hm.2 hrun
  | returnWrite _ _ _ | returnRead _ _ | returnClose =>
      obtain ⟨hm, rfl⟩ := hm
      exact h.done rfl rfl rfl hm hrun
  | wakeup c =>
      have hpt : s.ptable = none := Option.isNone_iff_eq_none.mp hen
      change Locked (State.goto { s with procs := fun u => (s.procs u).wakeup c } t pc)
      apply h.change (t := t)
      · intro u hu
        rw [goto_of_ne hu]
        exact ⟨wakeup_pc _ c, wakeup_chan _ c, fun hs => (sleeping_of_wakeup hs).1, running_wakeup c⟩
      · exact fun _ _ => Iff.rfl
      · exact fun _ _ => Iff.rfl
      · rw [goto_self]
        simp only [hm.2, iff_true]
        exact (h.lock t).mpr hm.1
      · rw [goto_self]
        simp [State.goto, State.modifyProc, hpt, Pc.not_falls_of_holds hm.2]
      · intro hs
        rw [goto_self] at hs
        have := (sleeping_of_wakeup hs).1
        rw [hrun] at this
        cases this
      · rw [goto_self]
        exact fun _ => running_wakeup c hrun
  | acquire =>
      have hl : s.lock = none := Option.isNone_iff_eq_none.mp hen
      change Locked (State.goto { s with lock := some t } t pc)
      apply h.change (t := t)
      · intro u hu
        rw [goto_of_ne hu]
        exact ⟨rfl, rfl, id, id⟩
      · intro u hu
        simp [State.goto, State.modifyProc, hl, Ne.symm hu]
      · exact fun _ _ => Iff.rfl
      · simp [State.goto, State.modifyProc, hm.2]
      · rw [goto_self, Pc.not_falls_of_holds hm.2]
        exact (h.ptable t).trans (by rw [hm.1.2])
      · intro hs
        rw [goto_self, hrun] at hs
        cases hs
      · rw [goto_self, hrun]
        exact fun _ => rfl
  | sleep =>
      have hpt : s.ptable = none := Option.isNone_iff_eq_none.mp hen
      obtain ⟨w, hpc, rfl⟩ := hm
      have hholds : (s.procs t).pc.holds = true := by rw [hpc]; rfl
      change Locked (State.goto { s with ptable := some t, lock := none } t (.fall w))
      apply h.change (t := t)
      · intro u hu
        rw [goto_of_ne hu]
        exact ⟨rfl, rfl, id, id⟩
      · intro u hu
        have hne : s.lock ≠ some u := fun hc => hu (h.unique hholds ((h.lock u).mp hc))
        simp [State.goto, State.modifyProc, hne]
      · intro u hu
        simp [State.goto, State.modifyProc, hpt, Ne.symm hu]
      · simp [State.goto, State.modifyProc, Pc.holds]
      · simp [State.goto, State.modifyProc, Pc.falls]
      · intro hs
        rw [goto_self, hrun] at hs
        cases hs
      · rw [goto_self, hrun]
        exact fun _ => rfl
  | doze c =>
      obtain ⟨w, hpc, rfl, rfl⟩ := hm
      have hpt : s.ptable = some t := by rw [h.ptable, hpc]; rfl
      have hl : s.lock ≠ some t := by
        rw [Ne, h.lock, hpc]
        simp [Pc.holds]
      change Locked ((State.modifyProc { s with ptable := none } t fun x =>
        { x with state := .sleeping, chan := some w.chan }).goto t (.asleep w))
      apply h.change (t := t)
      · intro u hu
        rw [goto_of_ne hu, modifyProc_of_ne hu]
        exact ⟨rfl, rfl, id, id⟩
      · exact fun _ _ => Iff.rfl
      · intro u hu
        simp [State.goto, State.modifyProc, hpt, Ne.symm hu]
      · simp [State.goto, State.modifyProc, hl, Pc.holds]
      · simp [State.goto, State.modifyProc, Pc.falls]
      · intro _
        rw [goto_self, modifyProc_self]
        exact ⟨w, rfl, rfl⟩
      · intro hs
        rw [goto_self] at hs
        rcases hs with hs | hs <;> cases hs

theorem Steps.locked {a : Action ι} (h : Locked s) (hs : Steps s a s') : Locked s' := by
  cases hs with
  | call hpc =>
      apply h.keep
      · rw [hpc]; rfl
      · rw [hpc]; rfl
      · intro hs
        obtain ⟨w, hw, _⟩ := h.asleep _ hs
        rw [hpc] at hw
        cases hw
      · exact fun _ hs => hs
  | run hrun _ hcode hen => exact h.run hrun hcode hen
  | kill =>
      apply h.keep rfl rfl
      · intro hs
        split at hs
        · cases hs
        · contradiction
      · intro _ hs
        rw [hs]
        rfl
  | wake hpt hpc =>
      apply h.keep
      · rw [hpc]; rfl
      · rw [hpc]; rfl
      · intro hs
        cases hs
      · exact fun _ _ => rfl
  | schedule => exact h.keep rfl rfl (fun hs => by cases hs) fun _ _ => rfl
  | @yield t hpt hpc =>
      apply h.keep rfl rfl
      · intro hs
        cases hs
      · rw [hpc, ← h.ptable, hpt]
        intro hs
        rcases hs with hs | hs <;> cases hs

theorem reachable_step {a : Action ι} (h : (machine ι).Reachable s) (hs : step s a = some s') :
    (machine ι).Reachable s' := Machine.ReachableIf.step h trivial hs

theorem locked (h : (machine ι).Reachable s) : Locked s :=
  h.invariant (P := Locked) (fun _ hs => Starts.locked hs) fun _ _ _ hp hs => (step_cases hs).locked hp

end Xv6.Pipe
