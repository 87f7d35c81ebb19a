import Xv6.Intr.Calls

/-!
# Steps of the interrupt flag

Most steps change the flags of one processor and the stack of the code that it runs; the others are the two
switches between a process and the scheduler, and the changes of the state of another process.
-/

namespace Xv6.Intr

open Xv6.Lib Xv6.Kernel

/-- What the code on a processor does to the flags and to its stack. -/
inductive Moves (r : Regs) : List Act → Regs → List Act → Prop where
  | syscall : Moves r [] { r with intr := false } [⟨.syscall, 0, false, .code⟩]
  | interrupt {l : List Act} (hi : r.intr = true) :
      Moves r l { r with intr := false } (⟨.gate true, 0, false, .code⟩ :: l)
  | push {e : Entry} {d : Nat} {lk acq : Bool} {rest : List Act} (he : e ≠ .fork)
      (hacq : e = .scheduler → lk = false ∧ acq = true) :
      Moves r (⟨e, d, lk, .code⟩ :: rest) r (⟨e, d, lk, .push r.intr acq⟩ :: rest)
  | cli {e : Entry} {d : Nat} {lk f acq : Bool} {rest : List Act} :
      Moves r (⟨e, d, lk, .push f acq⟩ :: rest) (r.cli f) (⟨e, d + 1, lk, if acq then .spin else .code⟩ :: rest)
  | take {e : Entry} {d : Nat} {lk : Bool} {rest : List Act} :
      Moves r (⟨e, d, lk, .spin⟩ :: rest) r (⟨e, d, true, .code⟩ :: rest)
  | pop {e : Entry} {d : Nat} {lk : Bool} {r' : Regs} {rest : List Act} (he : e ≠ .scheduler)
      (hf : e ≠ .fork) (hr : r.popCli = some r') :
      Moves r (⟨e, d, lk, .code⟩ :: rest) r' (⟨e, d - 1, lk, .code⟩ :: rest)
  | release {e : Entry} {d : Nat} {r' : Regs} {rest : List Act} (hr : r.popCli = some r') :
      Moves r (⟨e, d, true, .code⟩ :: rest) r' (⟨e, d - 1, false, if e = .scheduler then .sti else .code⟩ :: rest)
  | restore {e : Entry} {d : Nat} {lk i : Bool} {rest : List Act} :
      Moves r (⟨e, d, lk, .resume i⟩ :: rest) { r with intEna := i } (⟨e, d, lk, .code⟩ :: rest)
  | iret {lk f : Bool} {rest : List Act} : Moves r (⟨.gate f, 0, lk, .code⟩ :: rest) { r with intr := f } rest
  | sysret {e : Entry} {lk : Bool} {rest : List Act} (he : e = .syscall ∨ e = .fork) :
      Moves r (⟨e, 0, lk, .code⟩ :: rest) { r with intr := true } rest
  | sti {e : Entry} {d : Nat} {lk : Bool} {rest : List Act} :
      Moves r (⟨e, d, lk, .sti⟩ :: rest) { r with intr := true } (⟨e, d, lk, .code⟩ :: rest)

variable {ι κ : Type} [DecidableEq ι] [DecidableEq κ] {s s' : State ι κ} {c : κ} {p : ι}

/-- What a step does where it is enabled. -/
inductive Steps (s : State ι κ) : Action ι κ → State ι κ → Prop where
  | move {α : Action ι κ} {c : κ} {r : Regs} {l : List Act} (lk : Option κ) (h : Moves (s.cpus c).regs (s.acts c) r l) :
      Steps s α ({ s with lock := lk }.put c r l)
  | sched {c : κ} {p : ι} {a : Act} {rest : List Act} {st : ProcState} (hp : (s.cpus c).proc = some p)
      (hl : (s.procs p).acts = a :: rest) (hpc : a.pc = .code) (he : a.entry ≠ .fork)
      (hn : (s.cpus c).regs.ncli = 1) (hi : (s.cpus c).regs.intr = false) :
      Steps s (.run c (.sched st)) { s with
        cpus := upd s.cpus c { s.cpus c with proc := none }
        procs := upd s.procs p { s.procs p with
          state := st
          acts := { a with pc := .swtch (s.cpus c).regs.intEna } :: rest } }
  | swtch {c : κ} {p : ι} {a : Act} {rest : List Act} (hl : s.acts c = a :: rest) (he : a.entry = .scheduler)
      (hpc : a.pc = .code) (hlk : a.lock = true) (hst : (s.procs p).state = .runnable) :
      Steps s (.run c (.swtch p)) { s with
        cpus := upd s.cpus c { s.cpus c with proc := some p }
        procs := upd s.procs p {
          state := .running
          acts := resume (s.procs p).acts
          found := if (s.procs p).acts = newborn then (s.cpus c).regs.intEna else (s.procs p).found } }
  | mark {c : κ} {p : ι} {st : ProcState} (h : marks (s.procs p).state st = true) :
      Steps s (.run c (.mark p st)) { s with
        procs := upd s.procs p { s.procs p with
          state := st
          acts := if (s.procs p).state = .embryo then newborn else (s.procs p).acts } }
  | drop {c : κ} {p : ι} (h : (s.procs p).state = .embryo) :
      Steps s (.run c (.drop p)) { s with procs := upd s.procs p { s.procs p with state := .unused } }

theorem exec_steps {a : Act} {rest : List Act} {op : Op ι} (hl : s.acts c = a :: rest)
    (h : s.exec c a rest op = some s') : Steps s (.run c op) s' := by
  obtain ⟨e, d, lk, pc⟩ := a
  cases op with
  | push =>
      obtain ⟨⟨hpc, he, hf⟩, h⟩ := Option.ite_none_right_eq_some.mp h
      cases hpc
      cases h
      exact .move s.lock (by rw [hl]; exact .push hf fun h0 => absurd h0 he)
  | acquire =>
      obtain ⟨⟨hpc, hf, hlk⟩, h⟩ := Option.ite_none_right_eq_some.mp h
      cases hpc
      cases hlk
      cases h
      exact .move s.lock (by rw [hl]; exact .push hf fun _ => ⟨rfl, rfl⟩)
  | cli =>
      cases pc with
      | push f acq =>
          cases h
          exact .move s.lock (by rw [hl]; exact .cli)
      | _ => cases h
  | take =>
      obtain ⟨⟨hpc, -⟩, h⟩ := Option.ite_none_right_eq_some.mp h
      cases hpc
      cases h
      exact .move (some c) (by rw [hl]; exact .take)
  | pop =>
      obtain ⟨⟨hpc, he, hf, -⟩, h⟩ := Option.ite_none_right_eq_some.mp h
      cases hpc
      obtain ⟨r, hr, rfl⟩ := Option.map_eq_some_iff.mp h
      exact .move s.lock (by rw [hl]; exact .pop he hf hr)
  | release =>
      obtain ⟨⟨hpc, hlk, -⟩, h⟩ := Option.ite_none_right_eq_some.mp h
      cases hpc
      cases hlk
      obtain ⟨r, hr, rfl⟩ := Option.map_eq_some_iff.mp h
      exact .move none (by rw [hl]; exact .release hr)
  | sched st =>
      unfold State.exec at h
      dsimp only at h
      cases hp : (s.cpus c).proc with
      | none =>
          rw [hp] at h
          cases h
      | some p =>
          rw [hp] at h
          obtain ⟨⟨hpc, he, -, hn, hi, -⟩, h⟩ := Option.ite_none_right_eq_some.mp h
          cases h
          have hacts : (s.procs p).acts = ⟨e, d, lk, pc⟩ :: rest := by
            rw [← hl, State.acts, hp]
          exact .sched hp hacts hpc he hn hi
  | restore =>
      cases pc with
      | resume i =>
          cases h
          exact .move s.lock (by rw [hl]; exact .restore)
      | _ => cases h
  | ret =>
      obtain ⟨⟨hpc, hd⟩, h⟩ := Option.ite_none_right_eq_some.mp h
      cases hpc
      cases hd
      cases e with
      | scheduler => cases h
      | gate f =>
          cases h
          exact .move s.lock (by rw [hl]; exact .iret)
      | syscall =>
          cases h
          exact .move s.lock (by rw [hl]; exact .sysret (.inl rfl))
      | fork =>
          cases h
          exact .move s.lock (by rw [hl]; exact .sysret (.inr rfl))
  | sti =>
      obtain ⟨hpc, h⟩ := Option.ite_none_right_eq_some.mp h
      cases hpc
      cases h
      exact .move s.lock (by rw [hl]; exact .sti)
  | swtch p =>
      obtain ⟨⟨he, hpc, hlk, hst⟩, h⟩ := Option.ite_none_right_eq_some.mp h
      cases h
      exact .swtch hl he hpc hlk hst
  | mark p st =>
      obtain ⟨⟨-, -, -, -, hm⟩, h⟩ := Option.ite_none_right_eq_some.mp h
      cases h
      exact .mark hm
  | drop p =>
      obtain ⟨⟨-, hst⟩, h⟩ := Option.ite_none_right_eq_some.mp h
      cases h
      exact .drop hst

theorem step_steps {α : Action ι κ} (h : s.step α = some s') : Steps s α s' := by
  cases α with
  | syscall c =>
      unfold State.step at h
      dsimp only at h
      cases hl : s.acts c with
      | nil =>
          rw [hl] at h
          cases h
          exact .move s.lock (by rw [hl]; exact .syscall)
      | cons a rest =>
          rw [hl] at h
          cases h
  | interrupt c =>
      obtain ⟨hi, h⟩ := Option.ite_none_right_eq_some.mp h
      cases h
      exact .move s.lock (.interrupt hi)
  | run c op =>
      unfold State.step at h
      dsimp only at h
      cases hl : s.acts c with
      | nil =>
          rw [hl] at h
          cases h
      | cons a rest =>
          rw [hl] at h
          exact exec_steps hl h

end Xv6.Intr
