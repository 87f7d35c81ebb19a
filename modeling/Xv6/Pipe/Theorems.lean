import Xv6.Pipe.Lemmas.Wakeup

/-!
# Pipes: theorems

A pipe is a lossless queue in every run, and nobody sleeps on it without a reason in every run in which a
`pipe_write` that gives up leaves nobody behind.
-/

namespace Xv6.Pipe

open Xv6.Lib Xv6.Fs Xv6.Kernel

variable {ι : Type} [DecidableEq ι] {s s' : State ι}

/-! ## The queue -/

/-- A new pipe, with processes that run. -/
def State.fresh (ι : Type) : State ι where
  pipe := ⟨fun _ => 0, 0, 0, true, true⟩
  freed := false
  lock := none
  ptable := none
  procs := fun _ => ⟨.running, none, false, .idle⟩
  stored := []
  writes := []
  reads := []

omit [DecidableEq ι] in
theorem starts_fresh : Starts (State.fresh ι) :=
  ⟨rfl, rfl, rfl, rfl, rfl, rfl, rfl, fun _ => ⟨rfl, by simp [State.fresh]⟩, rfl, rfl, rfl⟩

/-- A pipe as a lossless queue. -/
structure LosslessFifo (s : State ι) : Prop where
  /-- `nwrite - nread`, in 64 bits -/
  filled_le : filled s.pipe ≤ pipesize
  /-- what was delivered, what the reader with the lock has taken, and the buffer make up what was stored -/
  fifo : s.delivered ++ s.inHand ++ buffered s.pipe = s.stored.map Prod.snd
  inHand_free : s.lock = none → s.inHand = []
  /-- of each request of a writer the first bytes are stored, in order -/
  own : ∀ t, s.storedBy t = s.pieces t ++ (s.procs t).pc.piece
  exact : ∀ w ∈ s.writes, w.Exact
  /-- a `pipe_read` returns no bytes only from an empty pipe that nobody can write -/
  eof : ∀ t n s', step s (.run t) = some s' → s'.reads = s.reads ++ [⟨t, n, some []⟩] → 0 < n →
    buffered s.pipe = [] ∧ s.pipe.writeOpen = false

/-- The step in which a `pipe_read` returns. -/
theorem Steps.reads {t : ι} {r : WasRead ι} (hs : Steps s (.run t) s') (hr : s'.reads = s.reads ++ [r]) :
    ∃ n : Fin (2 ^ 31), (s.procs t).pc = .readReturn n r.result ∧ r.n = n.val := by
  cases hs with
  | @run t i pc _ _ hcode _ =>
      generalize hpc : (s.procs t).pc = pc₀ at hcode
      cases hcode with
      | @readReturn n r' =>
          have := List.append_cancel_left hr
          simp only [List.cons.injEq, and_true] at this
          subst this
          exact ⟨n, rfl, rfl⟩
      | @closeMark writable => cases writable <;> simp [State.goto, State.modifyProc, exec] at hr
      | _ => simp [State.goto, State.modifyProc, exec] at hr

/-- A pipe is a queue under every interleaving of its users: no byte is lost, doubled or reordered, and a read gives 0
bytes only at the end. -/
theorem lossless_fifo (h : (machine ι).Reachable s) : LosslessFifo s where
  filled_le := (queue h).fits.count
  fifo := (queue h).fifo
  inHand_free := inHand_of_free
  own := (queue h).own
  exact := (queue h).exact
  eof t n s' hs hr hn := by
    obtain ⟨n', hpc, hn'⟩ := (step_cases hs).reads hr
    have hk := (queue h).knows t
    rw [hpc] at hk
    obtain ⟨hempty, hclosed⟩ := hk rfl (hn' ▸ hn)
    exact ⟨(queue h).fits.buffered_eq_nil.mpr hempty, hclosed⟩

/-- One process writes two bytes, and another reads one of them and then the other. -/
def writeThenRead : List (Action (Fin 2)) :=
  .call 0 (.write ⟨[7, 8], by decide⟩) :: List.replicate 6 (.run 0) ++
    .call 1 (.read ⟨1, by decide⟩) :: List.replicate 6 (.run 1) ++
    .call 1 (.read ⟨5, by decide⟩) :: List.replicate 6 (.run 1)

theorem lossless_fifo_two : ∃ s : State (Fin 2), LosslessFifo s ∧ s.delivered = [7, 8] := by
  have hstart : (machine (Fin 2)).Reachable (State.fresh (Fin 2)) := .start starts_fresh
  obtain ⟨s, hs, hp⟩ := hstart.of_run (P := fun s => s.delivered = [7, 8]) (l := writeThenRead) (by decide +kernel)
  exact ⟨s, lossless_fifo hs, of_decide_eq_true hp⟩

/-! ## Sleeping -/

/-- A process is `SLEEPING` on a channel of the pipe. -/
def State.SleepsOn (s : State ι) (t : ι) (c : Chan) : Prop :=
  (s.procs t).state = .sleeping ∧ (s.procs t).chan = some c

instance (s : State ι) (t : ι) (c : Chan) : Decidable (s.SleepsOn t c) :=
  inferInstanceAs (Decidable (_ ∧ _))

/-- Whoever sleeps on a pipe that nobody has locked has a reason to. -/
structure NoLostWakeup (s : State ι) : Prop where
  nread : s.lock = none → ∀ t, s.SleepsOn t .nread → buffered s.pipe = [] ∧ s.pipe.writeOpen = true
  nwrite : s.lock = none → ∀ t, s.SleepsOn t .nwrite → filled s.pipe = pipesize ∧ s.pipe.readOpen = true
  notBoth : s.lock = none → ∀ t u, s.SleepsOn t .nread → ¬ s.SleepsOn u .nwrite

omit [DecidableEq ι] in
theorem Locked.waits (h : Locked s) {t : ι} {c : Chan} (hs : s.SleepsOn t c) : s.Waits t c := by
  obtain ⟨w, hpc, hchan⟩ := h.asleep t hs.1
  rw [hs.2] at hchan
  exact ⟨w, (Option.some.inj hchan).symm, .inr ⟨hpc, hs.1⟩⟩

theorem Woken.noLostWakeup (hl : Locked s) (hq : Queue s) (h : Woken s) : NoLostWakeup s := by
  have hready : s.lock = none → ∀ t c, s.SleepsOn t c → Ready s.pipe c := by
    intro hfree t c hs
    rcases h t c (hl.waits hs) with hr | ⟨u, hu, _⟩
    · exact hr
    · rw [hfree] at hu
      cases hu
  refine ⟨fun hfree t hs => ?_, fun hfree t hs => ?_, fun hfree t u ht hu => ?_⟩
  · have hr := hready hfree t _ hs
    exact ⟨hq.fits.buffered_eq_nil.mpr hr.1, hr.2⟩
  · have hr := hready hfree t _ hs
    exact ⟨hq.fits.filled_eq.mpr hr.1, hr.2⟩
  · have hempty := hq.fits.buffered_eq_nil.mpr (hready hfree t _ ht).1
    have hfull := hq.fits.filled_eq.mpr (hready hfree u _ hu).1
    rw [← length_buffered, hempty] at hfull
    cases hfull

/-- A process that sleeps to read from a full buffer. -/
theorem Queue.not_noLostWakeup (hq : Queue s) {t : ι} (hfree : s.lock = none) (hs : s.SleepsOn t .nread)
    (hfull : s.pipe.nwrite = u64 (s.pipe.nread + pipesize)) : ¬ NoLostWakeup s := by
  intro h
  have hlen := hq.fits.filled_eq.mpr hfull
  rw [← length_buffered, (h.nread hfree t hs).1] at hlen
  cases hlen

/-- A process that is about to sleep does so. -/
theorem step_fall {t : ι} {w : Wait} (hl : Locked s) (hpc : (s.procs t).pc = .fall w) (hfreed : s.freed = false) :
    step s (.run t) = some ((exec s t (.doze w.chan)).goto t (.asleep w)) := by
  have hrun := hl.running t (.inr (by rw [hpc]; rfl))
  simp [step, hrun, hfreed, hpc, next, enabled]

/-- A `pipe_write` that gives up and leaves somebody behind who waits to read. -/
theorem lost_of_giveUp {t : ι} (h : (machine ι).Reachable s) (hs : step s (.run t) = some s')
    (hn : ¬ LeavesNobody s (.run t)) : ∃ s'', (machine ι).Reachable s'' ∧ ¬ NoLostWakeup s'' := by
  simp only [LeavesNobody, not_forall, not_not] at hn
  obtain ⟨addr, i, hpc, u, w, hw, hwaits⟩ := hn
  have hfull : s.pipe.nwrite = u64 (s.pipe.nread + pipesize) := by
    have hk := (queue h).knows t
    rw [hpc] at hk
    rcases hk with ⟨_, hfull⟩ | ⟨hr, _⟩
    · exact hfull
    · omega
  have hut : u ≠ t := by
    rintro rfl
    rw [hpc] at hwaits
    rcases hwaits with hc | ⟨hc, _⟩ <;> cases hc
  have hr : (machine ι).Reachable s' := reachable_step h hs
  cases step_cases hs with
  | run hrun hfreed hcode hen =>
      rw [hpc] at hcode
      cases hcode
      rcases hwaits with hfall | ⟨hasleep, hsleep⟩
      · -- the other process is on its way to sleep
        have hpcu : (((exec s t (.returnWrite addr i (-1))).goto t .idle).procs u).pc = .fall w := by
          rw [goto_of_ne hut]
          exact hfall
        have hr' := reachable_step hr (step_fall (locked hr) hpcu hfreed)
        refine ⟨_, hr', (queue hr').not_noLostWakeup (t := u) rfl ?_ hfull⟩
        rw [State.SleepsOn, goto_self, hw]
        simp [exec]
      · refine ⟨_, hr, (queue hr).not_noLostWakeup (t := u) rfl ?_ hfull⟩
        obtain ⟨w', hpc', hchan⟩ := (locked h).asleep u hsleep
        rw [hasleep] at hpc'
        cases hpc'
        rw [hw] at hchan
        rw [State.SleepsOn, goto_of_ne hut]
        exact ⟨hsleep, hchan⟩

/-- Nobody sleeps without a reason in the runs in which a `pipe_write` that gives up leaves nobody behind who
waits to read; a run with another such step reaches a state in which somebody does. -/
theorem no_lost_wakeup (ι : Type) [DecidableEq ι] :
    (∀ s : State ι, (machine ι).ReachableIf LeavesNobody s → NoLostWakeup s) ∧
    (∀ (s s' : State ι) (t : ι), (machine ι).Reachable s → step s (.run t) = some s' → ¬ LeavesNobody s (.run t) →
      ∃ s'' : State ι, (machine ι).Reachable s'' ∧ ¬ NoLostWakeup s'') :=
  ⟨fun _ h => (woken h).noLostWakeup (locked h.reachable) (queue h.reachable),
    fun _ _ _ h hs hn => lost_of_giveUp h hs hn⟩

/-- `n` bytes to write. -/
def ones (n : Nat) (h : n < 2 ^ 31) : Request := ⟨List.replicate n 1, by rw [List.length_replicate]; exact h⟩

/-- Process 0 fills the buffer and sleeps to write one byte more. -/
def fills : List (Action (Fin 2)) :=
  .call 0 (.write (ones 513 (by decide))) :: List.replicate 517 (.run 0)

/-- Then it is killed and gives up, and process 1 reads the 512 bytes and sleeps to read more. -/
def drains : List (Action (Fin 2)) :=
  .kill 0 :: .schedule 0 :: List.replicate 3 (.run 0) ++
    .call 1 (.read ⟨512, by decide⟩) :: List.replicate 517 (.run 1) ++
    .call 1 (.read ⟨1, by decide⟩) :: List.replicate 4 (.run 1)

theorem no_lost_wakeup_asleep :
    (∃ s : State (Fin 2), s.lock = none ∧ s.SleepsOn 0 .nwrite ∧ NoLostWakeup s) ∧
    ∃ s : State (Fin 2), s.lock = none ∧ s.SleepsOn 1 .nread ∧ NoLostWakeup s := by
  have hstart : (machine (Fin 2)).ReachableIf LeavesNobody (State.fresh (Fin 2)) := .start starts_fresh
  constructor
  · obtain ⟨s, hs, hp⟩ := hstart.of_run (c := fun s a => decide (LeavesNobody s a)) (fun _ _ => of_decide_eq_true)
      (P := fun s => decide (s.lock = none ∧ s.SleepsOn 0 .nwrite)) (l := fills) (by decide +kernel)
    obtain ⟨hfree, hsleep⟩ := of_decide_eq_true hp
    exact ⟨s, hfree, hsleep, (no_lost_wakeup (Fin 2)).1 s hs⟩
  · obtain ⟨s, hs, hp⟩ := hstart.of_run (c := fun s a => decide (LeavesNobody s a)) (fun _ _ => of_decide_eq_true)
      (P := fun s => decide (s.lock = none ∧ s.SleepsOn 1 .nread)) (l := fills ++ drains) (by decide +kernel)
    obtain ⟨hfree, hsleep⟩ := of_decide_eq_true hp
    exact ⟨s, hfree, hsleep, (no_lost_wakeup (Fin 2)).1 s hs⟩

/-- Process 2 fills the buffer, and process 0 sleeps to write 513 bytes. Process 1 reads 512 bytes and sleeps to
read more. Process 0 is killed, fills the buffer and gives up at its last byte. -/
def killedWriter : List (Action (Fin 3)) :=
  .call 2 (.write (ones 512 (by decide))) :: List.replicate 516 (.run 2) ++
    .call 0 (.write (ones 513 (by decide))) :: List.replicate 5 (.run 0) ++
    .call 1 (.read ⟨512, by decide⟩) :: List.replicate 517 (.run 1) ++
    .call 1 (.read ⟨1, by decide⟩) :: List.replicate 4 (.run 1) ++
    .kill 0 :: .schedule 0 :: List.replicate 515 (.run 0)

theorem lost_wakeup : ∃ s : State (Fin 3), (machine (Fin 3)).Reachable s ∧ ¬ NoLostWakeup s := by
  have hstart : (machine (Fin 3)).Reachable (State.fresh (Fin 3)) := .start starts_fresh
  obtain ⟨s, hs, hp⟩ := hstart.of_run
    (P := fun s => s.lock = none ∧ s.SleepsOn 1 .nread ∧ s.pipe.nwrite = u64 (s.pipe.nread + pipesize))
    (l := killedWriter) (by decide +kernel)
  obtain ⟨hfree, hsleep, hfull⟩ := of_decide_eq_true hp
  exact ⟨s, hs, (queue hs).not_noLostWakeup hfree hsleep hfull⟩

end Xv6.Pipe
