import Xv6.Pipe.Lemmas.Locks

/-!
# A pipe is a queue

The ring of a pipe with its free-running counters, what a process knows about the pipe at each place of its
code, and the bytes that went in and out.
-/

namespace Xv6.Pipe

open Xv6.Lib Xv6.Fs Xv6.Kernel

/-! ## The ring -/

def ring (q : Kernel.Pipe) : RingBuf UInt8 := ⟨q.data, q.nread, q.nwrite⟩

/-- The bytes in the buffer, the oldest first. -/
def buffered (q : Kernel.Pipe) : List UInt8 := (ring q).contents pipesize (2 ^ 64)

/-- The number of bytes in the buffer: `nwrite - nread` in 64 bits. -/
def filled (q : Kernel.Pipe) : Nat := (ring q).count (2 ^ 64)

def Fits (q : Kernel.Pipe) : Prop := (ring q).Fits pipesize (2 ^ 64)

theorem length_buffered (q : Kernel.Pipe) : (buffered q).length = filled q := RingBuf.length_contents

theorem Fits.buffered_eq_nil {q : Kernel.Pipe} (h : Fits q) : buffered q = [] ↔ q.nread = q.nwrite :=
  h.contents_eq_nil

theorem Fits.filled_eq {q : Kernel.Pipe} (h : Fits q) :
    filled q = pipesize ↔ q.nwrite = u64 (q.nread + pipesize) := h.count_eq_size (by decide)

theorem Fits.filled_lt {q : Kernel.Pipe} (h : Fits q) (hroom : q.nwrite ≠ u64 (q.nread + pipesize)) :
    filled q < pipesize := lt_of_le_of_ne h.count fun hc => hroom (h.filled_eq.mp hc)

/-- The pipe after an instruction. -/
def Instr.pipe (q : Kernel.Pipe) : Instr → Kernel.Pipe
  | .store c => { q with data := upd q.data (q.nwrite % pipesize) c, nwrite := u64 (q.nwrite + 1) }
  | .load => { q with nread := u64 (q.nread + 1) }
  | .close true => { q with writeOpen := false }
  | .close false => { q with readOpen := false }
  | _ => q

theorem ring_close (q : Kernel.Pipe) (writable : Bool) : ring ((Instr.close writable).pipe q) = ring q := by
  cases writable <;> rfl

section Local

variable {killed : Bool} {q : Kernel.Pipe} {pc pc' : Pc} {i : Instr}

theorem Code.fits (h : Code killed q pc i pc') (hq : Fits q) : Fits (i.pipe q) := by
  cases h with
  | store _ hroom => exact RingBuf.Fits.push hq (hq.filled_lt hroom) (by decide) _
  | load hsome => exact RingBuf.Fits.pop hq hsome
  | closeMark =>
      rw [Fits, ring_close]
      exact hq
  | _ => exact hq

/-- The buffer after an instruction. -/
def Instr.Buffers (q : Kernel.Pipe) : Instr → Prop
  | .store c => buffered ((Instr.store c).pipe q) = buffered q ++ [c]
  | .load => buffered q = q.data (q.nread % pipesize) :: buffered (Instr.load.pipe q)
  | i => buffered (i.pipe q) = buffered q

theorem Code.buffers (h : Code killed q pc i pc') (hq : Fits q) : i.Buffers q := by
  cases h with
  | store _ hroom => exact RingBuf.Fits.contents_push hq (hq.filled_lt hroom) (by decide) (by decide) _
  | load hsome => exact RingBuf.Fits.contents_pop hq hsome (by decide)
  | closeMark =>
      change buffered (Instr.pipe q (.close _)) = buffered q
      rw [buffered, ring_close]
      rfl
  | _ => rfl

/-! ## What a process knows -/

/-- The reason to sleep on a channel. -/
def Ready (q : Kernel.Pipe) : Chan → Prop
  | .nread => q.nread = q.nwrite ∧ q.writeOpen = true
  | .nwrite => q.nwrite = u64 (q.nread + pipesize) ∧ q.readOpen = true

/-- What holds where the process is; only a process with the lock knows about the pipe. -/
def Knows (q : Kernel.Pipe) : Pc → Prop
  | .writeWake _ _ => Ready q .nwrite
  | .sleep w => Ready q w.chan
  | .writeReturn addr i r =>
    r = -1 ∧ q.nwrite = u64 (q.nread + pipesize) ∨ r = addr.val.length ∧ i = addr.val.length
  | .readCopy _ i got => i = got.length ∧ (got = [] → q.nread = q.nwrite → q.writeOpen = false)
  | .readEnd n got | .readReturn n (some got) =>
    got = [] → 0 < n.val → q.nread = q.nwrite ∧ q.writeOpen = false
  | _ => True

theorem knows_of_not_holds (q : Kernel.Pipe) (h : pc.holds = false) : Knows q pc := by
  cases pc <;> trivial

theorem Code.knows (h : Code killed q pc i pc') (hk : Knows q pc) : Knows (i.pipe q) pc' := by
  cases h with
  | enter => cases ‹Op› <;> trivial
  | reacquire => cases ‹Wait› <;> trivial
  | giveUp _ hfull => exact Or.inl ⟨rfl, hfull⟩
  | full _ hfull hopen => exact ⟨hfull, hopen⟩
  | writeWake => exact hk
  | writeEnd => exact Or.inr ⟨rfl, rfl⟩
  | empty hempty hopen => exact ⟨hempty, hopen⟩
  | copy hclosed => exact ⟨rfl, fun _ => hclosed⟩
  | load hsome =>
      refine ⟨by simp [hk.1], fun hnil => ?_⟩
      simp at hnil
  | loaded hstop =>
      intro hnil hn
      have hempty := hstop (by rw [hk.1, hnil]; exact hn)
      exact ⟨hempty, hk.2 hnil hempty⟩
  | readEnd => exact hk
  | _ => trivial

theorem Code.pipe_of_not_holds (h : Code killed q pc i pc') (hpc : pc.holds = false) : i.pipe q = q := by
  cases h <;> first | rfl | cases hpc

/-! ## The bytes of a call -/

/-- The bytes that a reader has taken and not yet returned. -/
def Pc.got : Pc → List UInt8
  | .readCopy _ _ got | .readEnd _ got | .readReturn _ (some got) => got
  | _ => []

/-- The bytes of its request that a writer has stored. -/
def Pc.piece : Pc → List UInt8
  | .writeTest addr i | .writeWake addr i | .writeReturn addr i _ | .sleep (.write addr i) | .fall (.write addr i)
  | .asleep (.write addr i) | .reacquire (.write addr i) => addr.val.take i
  | .writeEnd addr => addr.val
  | _ => []

theorem got_of_not_holds (h : pc.holds = false) : pc.got = [] := by
  cases pc <;> first | rfl | cases h

/-- What an instruction does to the bytes of the call. -/
def Instr.Traces (q : Kernel.Pipe) (pc pc' : Pc) : Instr → Prop
  | .store c => pc'.got = pc.got ∧ pc'.piece = pc.piece ++ [c]
  | .load => pc'.got = pc.got ++ [q.data (q.nread % pipesize)] ∧ pc'.piece = pc.piece
  | .returnWrite addr i _ => pc.got = [] ∧ pc.piece = addr.val.take i
  | .returnRead _ r => pc.got = r.getD [] ∧ pc.piece = []
  | _ => pc'.got = pc.got ∧ pc'.piece = pc.piece

theorem Code.traces (h : Code killed q pc i pc') : i.Traces q pc pc' := by
  cases h with
  | enter => cases ‹Op› <;> exact ⟨rfl, rfl⟩
  | reacquire => cases ‹Wait› <;> exact ⟨rfl, rfl⟩
  | sleep => cases ‹Wait› <;> exact ⟨rfl, rfl⟩
  | fall => cases ‹Wait› <;> exact ⟨rfl, rfl⟩
  | store hi _ =>
      refine ⟨rfl, ?_⟩
      simp only [Pc.piece, List.take_add_one, List.getD, List.getElem?_eq_getElem hi]
      rfl
  | stored hi => exact ⟨rfl, (List.take_of_length_le hi).symm⟩
  | writeEnd => exact ⟨rfl, List.take_length⟩
  | readReturn => cases ‹Option (List UInt8)› <;> exact ⟨rfl, rfl⟩
  | _ => exact ⟨rfl, rfl⟩

end Local

/-! ## All bytes -/

variable {ι : Type} [DecidableEq ι] {s s' : State ι} {t u : ι}

/-- The bytes that all `pipe_read` calls have returned, in order. -/
def State.delivered (s : State ι) : List UInt8 := (s.reads.map fun r => r.result.getD []).flatten

/-- The bytes that the reader with the lock has taken so far. -/
def State.inHand (s : State ι) : List UInt8 :=
  match s.lock with
  | none => []
  | some t => (s.procs t).pc.got

/-- The bytes that one process has stored, in order. -/
def State.storedBy (s : State ι) (t : ι) : List UInt8 := (s.stored.filter fun x => x.1 = t).map Prod.snd

/-- The bytes that the `pipe_write` calls of one process have stored of their requests. -/
def State.pieces (s : State ι) (t : ι) : List UInt8 :=
  ((s.writes.filter fun w => w.caller = t).map fun w => w.addr.take w.i).flatten

/-- A call returns the length of the request only when it has stored all of it. -/
def Written.Exact (w : Written ι) : Prop := w.result = -1 ∨ w.result = w.addr.length ∧ w.i = w.addr.length

/-- No byte is lost, doubled or moved. -/
structure Queue (s : State ι) : Prop where
  fits : Fits s.pipe
  knows : ∀ u, Knows s.pipe (s.procs u).pc
  fifo : s.delivered ++ s.inHand ++ buffered s.pipe = s.stored.map Prod.snd
  own : ∀ u, s.storedBy u = s.pieces u ++ (s.procs u).pc.piece
  exact : ∀ w ∈ s.writes, w.Exact

theorem Starts.queue (h : Starts s) : Queue s where
  fits := by
    have hr : ring s.pipe = ⟨s.pipe.data, 0, 0⟩ := by rw [ring, h.nread, h.nwrite]
    rw [Fits, hr]
    exact ⟨Nat.two_pow_pos 64, Nat.two_pow_pos 64, by simp [RingBuf.count]⟩
  knows u := by
    rw [(h.idle u).1]
    trivial
  fifo := by
    have hr : ring s.pipe = ⟨s.pipe.data, 0, 0⟩ := by rw [ring, h.nread, h.nwrite]
    simp [State.delivered, State.inHand, buffered, hr, h.reads, h.lock, h.stored, RingBuf.contents, RingBuf.count]
  own u := by simp [State.storedBy, State.pieces, h.stored, h.writes, (h.idle u).1, Pc.piece]
  exact w hw := by
    rw [h.writes] at hw
    cases hw

@[simp] theorem exec_pipe (i : Instr) : (exec s t i).pipe = i.pipe s.pipe := by
  cases i with
  | close writable => cases writable <;> rfl
  | _ => rfl

/-- An instruction as such does not move a process. -/
@[simp] theorem exec_pc (i : Instr) (u : ι) : ((exec s t i).procs u).pc = (s.procs u).pc := by
  cases i with
  | wakeup c => exact wakeup_pc _ c
  | close writable => cases writable <;> rfl
  | doze c =>
      by_cases hu : u = t
      · subst hu
        simp [exec]
      · simp [exec, hu]
  | _ => rfl

/-! ## One step -/

omit [DecidableEq ι] in
theorem inHand_of_lock (h : s.lock = some t) : s.inHand = (s.procs t).pc.got := by
  rw [State.inHand, h]

omit [DecidableEq ι] in
theorem inHand_of_free (h : s.lock = none) : s.inHand = [] := by
  rw [State.inHand, h]

omit [DecidableEq ι] in
theorem inHand_congr (hl : s'.lock = s.lock)
    (hp : ∀ v, s.lock = some v → (s'.procs v).pc.got = (s.procs v).pc.got) : s'.inHand = s.inHand := by
  cases h : s.lock with
  | none => rw [inHand_of_free h, inHand_of_free (hl.trans h)]
  | some v => rw [inHand_of_lock h, inHand_of_lock (hl.trans h), hp v h]

theorem goto_inHand {pc : Pc} (h : s.lock = some t) : (s.goto t pc).inHand = pc.got := by
  have hl : (s.goto t pc).lock = some t := h
  rw [inHand_of_lock hl, goto_self]

section Run

variable {i : Instr} {pc : Pc}

theorem Queue.run_knows (hl : Locked s) (h : Queue s) (hcode : Code (s.procs t).killed s.pipe (s.procs t).pc i pc)
    (u : ι) : Knows (i.pipe s.pipe) (((exec s t i).goto t pc).procs u).pc := by
  by_cases hu : u = t
  · subst hu
    rw [goto_self]
    exact hcode.knows (h.knows u)
  · rw [goto_of_ne hu, exec_pc]
    cases hpu : (s.procs u).pc.holds with
    | false => exact knows_of_not_holds _ hpu
    | true =>
        -- the other process has the lock, so the pipe stays as it is
        have ht : (s.procs t).pc.holds = false := by
          rw [← Bool.not_eq_true]
          exact fun ht => hu (hl.unique ht hpu)
        rw [hcode.pipe_of_not_holds ht]
        exact h.knows u

theorem Queue.run_fifo (hl : Locked s) (h : Queue s) (hcode : Code (s.procs t).killed s.pipe (s.procs t).pc i pc)
    (hen : enabled s i = true) :
    (exec s t i).delivered ++ ((exec s t i).goto t pc).inHand ++ buffered (i.pipe s.pipe) =
      (exec s t i).stored.map Prod.snd := by
  have hm := hcode.moves
  have hb := hcode.buffers h.fits
  have ht := hcode.traces
  have hf := h.fifo
  cases i with
  | skip =>
      have hlock := (hl.lock t).mpr hm.1
      rw [inHand_of_lock hlock, ← ht.1, ← goto_inHand hlock] at hf
      exact hf
  | wakeup c =>
      have hlock := (hl.lock t).mpr hm.1
      rw [inHand_of_lock hlock, ← ht.1, ← goto_inHand (s := exec s t (.wakeup c)) hlock] at hf
      exact hf
  | close writable =>
      have hlock := (hl.lock t).mpr hm.1
      have hlock' : (exec s t (.close writable)).lock = some t := by cases writable <;> exact hlock
      rw [inHand_of_lock hlock, ← ht.1, ← goto_inHand hlock', ← hb] at hf
      cases writable <;> exact hf
  | store c =>
      have hlock := (hl.lock t).mpr hm.1
      rw [inHand_of_lock hlock, ← ht.1, ← goto_inHand (s := exec s t (.store c)) hlock] at hf
      rw [hb, ← List.append_assoc]
      simp only [exec, List.map_append, ← hf]
      rfl
  | load =>
      have hlock := (hl.lock t).mpr hm.1
      rw [inHand_of_lock hlock, hb] at hf
      rw [goto_inHand (s := exec s t .load) hlock, ht.1]
      have hone : ∀ (l l' : List UInt8) (c : UInt8), l ++ [c] ++ l' = l ++ c :: l' := fun l l' c => by simp
      rw [← hone, List.append_assoc s.delivered] at hf
      exact hf
  | acquire =>
      have hfree : s.lock = none := Option.isNone_iff_eq_none.mp hen
      rw [inHand_of_free hfree, ← got_of_not_holds hm.1.1, ← ht.1, ← goto_inHand (s := exec s t .acquire) rfl] at hf
      exact hf
  | sleep =>
      obtain ⟨w, hpc, rfl⟩ := hm
      have hlock : s.lock = some t := (hl.lock t).mpr (by rw [hpc]; rfl)
      rw [inHand_of_lock hlock, hpc] at hf
      rw [inHand_of_free rfl]
      exact hf
  | doze c =>
      obtain ⟨w, hpc, rfl, rfl⟩ := hm
      have hin : ((exec s t (.doze w.chan)).goto t (.asleep w)).inHand = s.inHand := by
        refine inHand_congr (by rfl) ?_
        intro v hlock
        have hv : v ≠ t := by
          rintro rfl
          have := (hl.lock v).mp hlock
          rw [hpc] at this
          cases this
        rw [goto_of_ne hv, exec_pc]
      rw [hin]
      exact hf
  | returnWrite addr j r =>
      obtain ⟨hm, rfl⟩ := hm
      rw [inHand_of_lock ((hl.lock t).mpr hm), ht.1] at hf
      rw [inHand_of_free rfl]
      exact hf
  | returnRead n r =>
      obtain ⟨hm, rfl⟩ := hm
      rw [inHand_of_lock ((hl.lock t).mpr hm), ht.1] at hf
      rw [inHand_of_free rfl]
      simpa [State.delivered, exec, Instr.pipe] using hf
  | returnClose =>
      obtain ⟨hm, rfl⟩ := hm
      rw [inHand_of_lock ((hl.lock t).mpr hm), ← ht.1] at hf
      rw [inHand_of_free rfl]
      exact hf

theorem Queue.run_own (h : Queue s) (hcode : Code (s.procs t).killed s.pipe (s.procs t).pc i pc) (u : ι) :
    (exec s t i).storedBy u = (exec s t i).pieces u ++ (((exec s t i).goto t pc).procs u).pc.piece := by
  have hm := hcode.moves
  have ht := hcode.traces
  have ho := h.own u
  by_cases hu : u = t
  · subst hu
    rw [goto_self]
    cases i with
    | store c =>
        rw [ht.2, ← List.append_assoc]
        simp only [State.storedBy, exec, List.filter_append, List.map_append] at ho ⊢
        rw [ho]
        simp [State.pieces]
    | returnWrite addr j r =>
        rw [ht.2] at ho
        rw [hm.2]
        simpa [State.storedBy, State.pieces, exec, Pc.piece] using ho
    | returnRead n r =>
        rw [ht.2] at ho
        rw [hm.2]
        exact ho
    | close writable =>
        rw [ht.2]
        cases writable <;> exact ho
    | _ =>
        rw [ht.2]
        exact ho
  · rw [goto_of_ne hu, exec_pc]
    cases i with
    | store c => simpa [State.storedBy, State.pieces, exec, Ne.symm hu] using ho
    | returnWrite addr j r => simpa [State.storedBy, State.pieces, exec, Ne.symm hu] using ho
    | close writable => cases writable <;> exact ho
    | _ => exact ho

theorem Queue.run_exact (h : Queue s) (hcode : Code (s.procs t).killed s.pipe (s.procs t).pc i pc) :
    ∀ w ∈ (exec s t i).writes, w.Exact := by
  intro w hw
  cases i with
  | returnWrite addr j r =>
      simp only [exec, List.mem_append, List.mem_singleton] at hw
      rcases hw with hw | rfl
      · exact h.exact w hw
      · have hk := h.knows t
        generalize (s.procs t).pc = pc₀ at hcode hk
        cases hcode
        exact hk.imp And.left id
  | close writable => cases writable <;> exact h.exact w hw
  | _ => exact h.exact w hw

theorem Queue.run (hl : Locked s) (h : Queue s) (hcode : Code (s.procs t).killed s.pipe (s.procs t).pc i pc)
    (hen : enabled s i = true) : Queue ((exec s t i).goto t pc) where
  fits := by
    change Fits (exec s t i).pipe
    rw [exec_pipe]
    exact hcode.fits h.fits
  knows := by
    change ∀ u, Knows (exec s t i).pipe _
    rw [exec_pipe]
    exact h.run_knows hl hcode
  fifo := by
    change _ ++ _ ++ buffered (exec s t i).pipe = _
    rw [exec_pipe]
    exact h.run_fifo hl hcode hen
  own := h.run_own hcode
  exact := h.run_exact hcode

end Run

/-- A process that is not in a call, or goes on in the same call, changes nothing of the pipe. -/
theorem Queue.keep {g : Proc → Proc} (h : Queue s) (hk : Knows s.pipe (g (s.procs t)).pc)
    (hg : (g (s.procs t)).pc.got = (s.procs t).pc.got) (hp : (g (s.procs t)).pc.piece = (s.procs t).pc.piece) :
    Queue (s.modifyProc t g) where
  fits := h.fits
  knows u := by
    by_cases hu : u = t
    · subst hu
      rw [modifyProc_self]
      exact hk
    · rw [modifyProc_of_ne hu]
      exact h.knows u
  fifo := by
    have hin : (s.modifyProc t g).inHand = s.inHand := by
      refine inHand_congr (by rfl) ?_
      intro v _
      by_cases hv : v = t
      · subst hv
        rw [modifyProc_self, hg]
      · rw [modifyProc_of_ne hv]
    rw [hin]
    exact h.fifo
  own u := by
    by_cases hu : u = t
    · subst hu
      rw [modifyProc_self, hp]
      exact h.own u
    · rw [modifyProc_of_ne hu]
      exact h.own u
  exact := h.exact

theorem Steps.queue {a : Action ι} (hl : Locked s) (h : Queue s) (hs : Steps s a s') : Queue s' := by
  cases hs with
  | call hpc =>
      apply h.keep
      · trivial
      · rw [hpc]; rfl
      · rw [hpc]; rfl
  | run _ _ hcode hen => exact h.run hl hcode hen
  | wake _ hpc =>
      apply h.keep
      · trivial
      · rw [hpc]; rfl
      · rw [hpc]
        cases ‹Wait› <;> rfl
  | kill | schedule | yield => exact h.keep (h.knows _) rfl rfl

theorem queue (h : (machine ι).Reachable s) : Queue s :=
  h.invariant (P := fun s => Locked s ∧ Queue s) (fun _ hs => ⟨Starts.locked hs, Starts.queue hs⟩)
    (fun _ _ _ hp hs => ⟨(step_cases hs).locked hp.1, (step_cases hs).queue hp.1 hp.2⟩) |>.2

end Xv6.Pipe
