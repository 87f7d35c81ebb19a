import Xv6.Console.Lemmas.Read
import Xv6.Count.Calls
import Xv6.Pipe.Lemmas.Queue

/-!
# The local variables and the bytes stored

At every place of a call its variables are functions of the number of bytes stored so far. A `pipe_read` that copies has
the lock, so that it copies no more than the ring holds.
-/

namespace Xv6.Count

open Xv6.Lib Xv6.Fs Xv6.Kernel Xv6.Console

variable {ι : Type} {s s' : State ι} {p : ι}

/-! ## Widths -/

theorem toNat_extend (i : BitVec 32) :
    (extend i).toNat = if i.toNat < 2 ^ 31 then i.toNat else 2 ^ 64 - 2 ^ 32 + i.toNat := by
  have hi := i.isLt
  unfold extend
  rw [BitVec.toNat_signExtend, BitVec.toNat_setWidth, Nat.mod_eq_of_lt (by omega), BitVec.msb_eq_decide]
  by_cases h : i.toNat < 2 ^ 31
  · rw [if_pos h, decide_eq_false (by omega)]
    rfl
  · rw [if_neg h, decide_eq_true (by omega), if_pos rfl]
    omega

theorem toNat_extend_ofNat {j : Nat} (h : j ≤ 2 ^ 31) :
    (extend (BitVec.ofNat 32 j)).toNat = if j < 2 ^ 31 then j else 2 ^ 64 - 2 ^ 31 := by
  rw [toNat_extend, BitVec.toNat_ofNat, Nat.mod_eq_of_lt (by omega)]
  split <;> omega

theorem ofNat_succ (j : Nat) : BitVec.ofNat 32 (j + 1) = BitVec.ofNat 32 j + 1 := by
  rw [BitVec.ofNat_add]
  rfl

/-! ## Returned calls -/

/-- What the result of a call is, from the number of bytes that it stored. -/
inductive Done.Sound : Done → Prop where
  | killed {n : BitVec 64} {k : Nat} : Done.Sound ⟨.consoleRead, n, k, -1, true⟩
  | console {n : BitVec 64} {k : Nat} {killed : Bool} (h : k ≤ n.toNat) :
      Done.Sound ⟨.consoleRead, n, k, (extend (n.setWidth 32) - (n - BitVec.ofNat 64 k)).toInt, killed⟩
  | fails {call : Call} {n : BitVec 64} {k : Nat} {killed : Bool} (h : call ≠ .consoleRead) :
      Done.Sound ⟨call, n, k, -1, killed⟩
  | read {n : BitVec 64} {k : Nat} {killed : Bool} : Done.Sound ⟨.pipeRead, n, k, k, killed⟩
  | write {n : BitVec 64} {k : Nat} {killed : Bool} (h : ∀ j < k, (extend (BitVec.ofNat 32 j)).toNat < n.toNat)
      (hk : n.toNat ≤ (extend (BitVec.ofNat 32 k)).toNat) : Done.Sound ⟨.pipeWrite, n, k, n.toInt, killed⟩

/-- The loop of `pipe_write` ends at the size asked for, or where the index leaves the range of an `int`. -/
theorem stored_eq {n k : Nat} (hn : n ≤ 2 ^ 64 - 2 ^ 31) (h : ∀ j < k, (extend (BitVec.ofNat 32 j)).toNat < n)
    (hk : n ≤ (extend (BitVec.ofNat 32 k)).toNat) : k = min n (2 ^ 31) := by
  have hle : k ≤ 2 ^ 31 := by
    by_contra hlt
    have := h (2 ^ 31) (by omega)
    rw [toNat_extend_ofNat (Nat.le_refl _), if_neg (by omega)] at this
    omega
  rw [toNat_extend_ofNat hle] at hk
  rcases Nat.eq_zero_or_pos k with h0 | hpos
  · rw [h0, if_pos (by decide)] at hk
    omega
  · have hlast := h (k - 1) (by omega)
    rw [toNat_extend_ofNat (by omega), if_pos (by omega)] at hlast
    split at hk <;> omega

/-- `target - n` is the number of bytes stored where `target` is the size asked for. -/
theorem toInt_console {n : BitVec 64} {k : Nat} (h : k ≤ n.toNat) (hk : k < 2 ^ 63) :
    (extend (n.setWidth 32) - (n - BitVec.ofNat 64 k)).toInt = k ↔ n.toNat < 2 ^ 31 ∨ 2 ^ 64 - 2 ^ 31 ≤ n.toNat := by
  have hn := n.isLt
  have hd : (extend (n.setWidth 32) - (n - BitVec.ofNat 64 k)).toNat =
    (2 ^ 64 - (n.toNat - k) + (extend (n.setWidth 32)).toNat) % 2 ^ 64 := by
    rw [BitVec.toNat_sub, BitVec.toNat_sub, BitVec.toNat_ofNat]
    omega
  rw [toNat_extend, BitVec.toNat_setWidth] at hd
  rw [BitVec.toInt_eq_toNat_cond, hd]
  split <;> split <;> omega

theorem Done.Sound.right {d : Done} (h : d.Sound) (hstored : d.call = .consoleRead → d.stored < 2 ^ 63) :
    (d.Fits → d.Right) ∧ (0 ≤ d.result ∨ d.call = .consoleRead ∧ d.killed = false → d.Right → d.Fits) := by
  have hneg : ¬ (0 : Int) ≤ -1 := by decide
  cases h with
  | killed =>
      refine ⟨fun _ => ⟨fun h0 => absurd h0 hneg, fun _ _ => rfl⟩, ?_⟩
      rintro (h0 | ⟨-, h0⟩)
      · exact absurd h0 hneg
      · cases h0
  | console h =>
      have hiff := toInt_console h (hstored rfl)
      unfold Done.Fits Done.Right
      dsimp only
      rw [← hiff]
      constructor
      · intro heq
        rw [heq]
        exact ⟨fun _ => rfl, fun _ hneg => absurd hneg (Int.not_lt.mpr (Int.natCast_nonneg _))⟩
      · rintro hreturns ⟨hcount, hfails⟩
        refine hcount (Int.not_lt.mp fun hneg => ?_)
        rcases hreturns with h0 | ⟨-, hk⟩
        · exact absurd hneg (Int.not_lt.mpr h0)
        · rw [hfails rfl hneg] at hk
          cases hk
  | fails h =>
      refine ⟨fun _ => ⟨fun h0 => absurd h0 hneg, fun hc => absurd hc h⟩, ?_⟩
      rintro (h0 | ⟨hc, -⟩)
      · exact absurd h0 hneg
      · exact absurd hc h
  | read => exact ⟨fun _ => ⟨fun _ => rfl, fun hc => Call.noConfusion hc⟩, fun _ _ => trivial⟩
  | @write n k killed h hk =>
      have hn := n.isLt
      have hres := BitVec.toInt_eq_toNat_cond n
      unfold Done.Fits Done.Right
      dsimp only
      rw [hres]
      refine ⟨fun hfits => ⟨fun h0 => ?_, fun hc => Call.noConfusion hc⟩, ?_⟩
      · have hlt : n.toNat < 2 ^ 63 := by
          split at h0 <;> omega
        have hkn := stored_eq (by omega) h hk
        rw [if_pos (by omega)]
        omega
      · rintro (h0 | ⟨hc, -⟩) hright
        · have hlt : n.toNat < 2 ^ 63 := by
            split at h0 <;> omega
          have hkn := stored_eq (by omega) h hk
          have heq := hright.1 h0
          rw [if_pos (by omega)] at heq
          omega
        · cases hc

/-! ## Calls -/

/-- What is known at a place of a call. -/
def Pc.Knows (q : Kernel.Pipe) : Pc → Prop
  | .consoleRead c =>
    c.target = c.asked.setWidth 32 ∧ c.n = c.asked - BitVec.ofNat 64 c.dst.length ∧ c.dst.length ≤ c.asked.toNat
  | .pipeWrite w => w.i = BitVec.ofNat 32 w.stored ∧ ∀ j < w.stored, (extend (BitVec.ofNat 32 j)).toNat < w.n.toNat
  | .copy c => c.i = BitVec.ofNat 32 c.addr.length ∧ c.addr.length + Pipe.filled q ≤ pipesize
  | _ => True

/-- What a round leads to. -/
def Next.Knows (killed : Bool) (q : Kernel.Pipe) : Next → Prop
  | .goto pc => pc.Knows q
  | .sleep pc => pc.Knows q ∧ ∀ c, pc ≠ .copy c
  | .ret call n stored r => Done.Sound ⟨call, n, stored, r, killed⟩

theorem Reader.knows_ret {c : Reader} {killed : Bool} {q : Kernel.Pipe} (h : (Pc.consoleRead c).Knows q) :
    c.ret.Knows killed q := by
  obtain ⟨ht, hn, hle⟩ := h
  unfold Reader.ret
  rw [ht, hn]
  exact .console hle

theorem consoleRead_knows {c : Reader} {killed : Bool} {i : Input} {q : Kernel.Pipe} (h : (Pc.consoleRead c).Knows q) :
    (consoleRead killed c i).2.Knows killed q := by
  unfold consoleRead
  split
  · exact Reader.knows_ret h
  rename_i hn
  split
  · cases killed
    · exact ⟨h, fun _ => Pc.noConfusion⟩
    · exact .killed
  have hlt : c.dst.length < c.asked.toNat := by
    refine Nat.lt_of_le_of_ne h.2.2 fun heq => hn ?_
    rw [h.2.1, heq, BitVec.ofNat_toNat, BitVec.setWidth_eq]
    exact BitVec.sub_self _
  have hnext : ∀ ch, (Pc.consoleRead { c with
      dst := c.dst ++ [ch]
      n := c.n - 1 }).Knows q := fun ch => by
    refine ⟨h.1, ?_, ?_⟩
    · dsimp only
      rw [h.2.1, List.length_append, List.length_singleton, BitVec.ofNat_add]
      bv_omega
    · dsimp only
      rw [List.length_append, List.length_singleton]
      exact hlt
  dsimp only
  split_ifs
  · exact Reader.knows_ret h
  · exact Reader.knows_ret h
  · exact Reader.knows_ret (hnext _)
  · exact hnext _

theorem pipeWrite_knows {w : Writer} {killed : Bool} {q : Kernel.Pipe} (hq : Pipe.Fits q)
    (h : (Pc.pipeWrite w).Knows q) :
    (pipeWrite killed w q).2.Knows killed (pipeWrite killed w q).1 ∧ Pipe.Fits (pipeWrite killed w q).1 := by
  obtain ⟨hi, hall⟩ := h
  unfold pipeWrite
  split
  · rename_i hlt
    split
    · refine ⟨?_, hq⟩
      dsimp only
      split
      · exact .fails (by decide)
      · exact ⟨⟨hi, hall⟩, fun _ => Pc.noConfusion⟩
    · rename_i hroom
      refine ⟨⟨?_, fun j hj => ?_⟩, RingBuf.Fits.push hq (hq.filled_lt hroom) (by decide) _⟩
      · rw [ofNat_succ, ← hi]
      · rcases Nat.lt_or_ge j w.stored with hj' | hj'
        · exact hall j hj'
        · rw [show j = w.stored by dsimp only at hj; omega, ← hi]
          exact hlt
  · rename_i hge
    refine ⟨.write hall ?_, hq⟩
    rw [← hi]
    exact Nat.le_of_not_lt hge

theorem pipeRead_knows {n : BitVec 64} {killed : Bool} {q : Kernel.Pipe} (hq : Pipe.Fits q) :
    (pipeRead killed n q).Knows killed q := by
  unfold pipeRead
  split_ifs
  · exact .fails (by decide)
  · exact ⟨trivial, fun _ => Pc.noConfusion⟩
  · refine ⟨rfl, ?_⟩
    rw [List.length_nil, Nat.zero_add]
    exact hq.count

theorem copy_knows {c : Copier} {q : Kernel.Pipe} (killed : Bool) (hq : Pipe.Fits q) (h : (Pc.copy c).Knows q) :
    (copy c q).2.Knows killed (copy c q).1 ∧ Pipe.Fits (copy c q).1 := by
  obtain ⟨hi, hle⟩ := h
  unfold copy
  split
  · rename_i hgo
    have hcount : Pipe.filled { q with nread := Fs.u64 (q.nread + 1) } + 1 = Pipe.filled q := hq.count_pop hgo.2
    refine ⟨⟨?_, ?_⟩, RingBuf.Fits.pop hq hgo.2⟩
    · rw [List.length_append, List.length_singleton, ofNat_succ, ← hi]
    · rw [List.length_append, List.length_singleton]
      dsimp only
      omega
  · refine ⟨?_, hq⟩
    have hres : c.i.toInt = c.addr.length := by
      simp only [pipesize] at hle
      rw [hi, BitVec.toInt_eq_toNat_cond, BitVec.toNat_ofNat, Nat.mod_eq_of_lt (by omega), if_pos (by omega)]
    dsimp only [Next.Knows]
    rw [hres]
    exact .read

/-! ## Runs -/

structure Inv (s : State ι) : Prop where
  fits : Pipe.Fits s.pipe
  knows : ∀ p, (s.pc p).Knows s.pipe
  copies : ∀ p c, s.pc p = .copy c → s.lock = some p
  done : ∀ d ∈ s.done, d.Sound

theorem Starts.inv (h : Starts s) : Inv s := by
  obtain ⟨hr, hw, -, -⟩ := h.pipe
  have hcount : (Pipe.ring s.pipe).count (2 ^ 64) = 0 := by
    simp [Pipe.ring, RingBuf.count, hr, hw]
  refine ⟨⟨?_, ?_, ?_⟩, fun p => ?_, fun p c hc => ?_, fun d hd => ?_⟩
  · exact lt_of_eq_of_lt hr (by decide)
  · exact lt_of_eq_of_lt hw (by decide)
  · rw [hcount]
    exact Nat.zero_le _
  · rw [h.pc p]
    trivial
  · rw [h.pc p] at hc
    cases hc
  · rw [h.done] at hd
    cases hd

/-- A place where nothing is known of the ring. -/
theorem Pc.Knows.other {q q' : Kernel.Pipe} {pc : Pc} (h : pc.Knows q) (hne : ∀ c, pc ≠ .copy c) : pc.Knows q' := by
  cases pc with
  | copy c => exact absurd rfl (hne c)
  | idle => trivial
  | consoleRead c => exact h
  | pipeWrite w => exact h
  | pipeRead n => trivial

theorem Inv.close (h : Inv s) (writable : Bool) :
    Inv { s with
      pipe := if writable then { s.pipe with writeOpen := false } else { s.pipe with readOpen := false } } := by
  have hring : ∀ q : Kernel.Pipe,
    Pipe.ring (if writable then { q with writeOpen := false } else { q with readOpen := false }) = Pipe.ring q :=
    fun q => by cases writable <;> rfl
  refine ⟨?_, fun u => ?_, h.copies, h.done⟩
  · unfold Pipe.Fits
    rw [hring]
    exact h.fits
  · have hu := h.knows u
    dsimp only
    cases hpc : s.pc u with
    | copy c =>
        rw [hpc] at hu
        refine ⟨hu.1, ?_⟩
        unfold Pipe.filled
        rw [hring]
        exact hu.2
    | _ =>
        rw [hpc] at hu
        exact hu.other fun _ => Pc.noConfusion

variable [DecidableEq ι]

/-- Where a round leaves its process. -/
def Next.pc : Next → Pc
  | .goto pc | .sleep pc => pc
  | .ret .. => .idle

theorem goes_pc (s : State ι) (p : ι) (x : Next) : (s.goes p x).pc = upd s.pc p x.pc := by
  cases x <;> rfl

theorem Next.Knows.pc {killed : Bool} {q : Kernel.Pipe} {x : Next} (h : x.Knows killed q) : x.pc.Knows q := by
  cases x with
  | goto pc => exact h
  | sleep pc => exact h.1
  | ret call n stored r => trivial

theorem Inv.goes_done {q : Kernel.Pipe} {x : Next} (h : Inv s) (hx : x.Knows (s.killed p) q) :
    ∀ d ∈ (s.goes p x).done, d.Sound := by
  cases x with
  | goto pc => exact h.done
  | sleep pc => exact h.done
  | ret call n stored r =>
      intro d hd
      rcases List.mem_append.mp hd with hd | hd
      · exact h.done d hd
      · rw [List.mem_singleton.mp hd]
        exact hx

/-- A round on the pipe: no other process is in the loop that copies. -/
theorem Inv.runPipe {x : Kernel.Pipe × Next} (h : Inv s) (hlock : s.lock = some p) (hx : x.2.Knows (s.killed p) x.1)
    (hq : Pipe.Fits x.1) : Inv { s.goes p x.2 with pipe := x.1, lock := x.2.lock p } := by
  have hother : ∀ u ≠ p, ∀ c, s.pc u ≠ .copy c :=
    fun u hu c hc => hu (Option.some.inj ((h.copies u c hc).symm.trans hlock))
  refine ⟨hq, fun u => ?_, fun u c hc => ?_, h.goes_done hx⟩
  · dsimp only
    rw [goes_pc]
    by_cases hu : u = p
    · rw [hu, upd_self]
      exact hx.pc
    · rw [upd_of_ne hu]
      exact (h.knows u).other (hother u hu)
  · dsimp only at hc ⊢
    rw [goes_pc] at hc
    by_cases hu : u = p
    · rw [hu, upd_self] at hc
      rw [hu]
      cases hn : x.2 with
      | goto pc => rfl
      | sleep pc =>
          rw [hn] at hc hx
          exact absurd hc (hx.2 c)
      | ret call n stored r =>
          rw [hn] at hc
          cases hc
    · rw [upd_of_ne hu] at hc
      exact absurd hc (hother u hu c)

theorem consoleRead_pc (killed : Bool) (c : Reader) (i : Input) (d : Copier) :
    (consoleRead killed c i).2.pc ≠ .copy d := by
  unfold consoleRead
  dsimp only
  split_ifs <;> exact Pc.noConfusion

theorem Inv.runConsole {x : Input × Next} (h : Inv s) (hx : x.2.Knows (s.killed p) s.pipe) (hpc : ∀ c, x.2.pc ≠ .copy c)
    (lk : Option ι) :
    Inv { s.goes p x.2 with input := x.1, lk := lk } := by
  have hsame : (s.goes p x.2).pipe = s.pipe ∧ (s.goes p x.2).lock = s.lock := by
    cases x.2 <;> exact ⟨rfl, rfl⟩
  refine ⟨?_, fun u => ?_, fun u c hc => ?_, h.goes_done hx⟩ <;> dsimp only at *
  · rw [hsame.1]
    exact h.fits
  · rw [goes_pc, hsame.1]
    by_cases hu : u = p
    · rw [hu, upd_self]
      exact hx.pc
    · rw [upd_of_ne hu]
      exact h.knows u
  · rw [goes_pc] at hc
    rw [hsame.2]
    by_cases hu : u = p
    · rw [hu, upd_self] at hc
      exact absurd hc (hpc c)
    · rw [upd_of_ne hu] at hc
      exact h.copies u c hc

theorem Op.knows_start (op : Op) (q : Kernel.Pipe) : op.start.Knows q ∧ ∀ c, op.start ≠ .copy c := by
  cases op with
  | consoleRead n => exact ⟨⟨rfl, (BitVec.sub_zero n).symm, Nat.zero_le _⟩, fun _ => Pc.noConfusion⟩
  | pipeRead n => exact ⟨trivial, fun _ => Pc.noConfusion⟩
  | pipeWrite n addr => exact ⟨⟨rfl, fun j hj => absurd hj (Nat.not_lt_zero j)⟩, fun _ => Pc.noConfusion⟩

theorem Inv.call (h : Inv s) (op : Op) : Inv { s with pc := upd s.pc p op.start } := by
  refine ⟨h.fits, fun u => ?_, fun u c hc => ?_, h.done⟩
  · by_cases hu : u = p
    · dsimp only
      rw [hu, upd_self]
      exact (op.knows_start _).1
    · dsimp only
      rw [upd_of_ne hu]
      exact h.knows u
  · by_cases hu : u = p
    · dsimp only at hc
      rw [hu, upd_self] at hc
      exact absurd hc ((op.knows_start s.pipe).2 c)
    · dsimp only at hc
      rw [upd_of_ne hu] at hc
      exact h.copies u c hc

/-- A free lock is taken, and a round is made under it. -/
theorem Inv.of_runPipe {x : Kernel.Pipe × Next} (h : Inv s) (hx : x.2.Knows (s.killed p) x.1) (hq : Pipe.Fits x.1)
    (hs : s.runPipe p x = some s') : Inv s' := by
  unfold State.runPipe at hs
  split at hs
  · rename_i hlock
    obtain rfl := Option.some.inj hs
    exact h.runPipe hlock hx hq
  split at hs
  · rename_i hfree
    obtain rfl := Option.some.inj hs
    refine ⟨h.fits, h.knows, fun u c hc => ?_, h.done⟩
    have hlock := h.copies u c hc
    rw [hfree] at hlock
    cases hlock
  · cases hs

theorem Inv.of_runConsole {x : Input × Next} (h : Inv s) (hx : x.2.Knows (s.killed p) s.pipe)
    (hpc : ∀ c, x.2.pc ≠ .copy c) (hs : s.runConsole p x = some s') : Inv s' := by
  unfold State.runConsole at hs
  split at hs
  · obtain rfl := Option.some.inj hs
    exact h.runConsole hx hpc _
  split at hs
  · obtain rfl := Option.some.inj hs
    exact ⟨h.fits, h.knows, h.copies, h.done⟩
  · cases hs

theorem Inv.run (h : Inv s) (hs : s.step (.run p) = some s') : Inv s' := by
  have hp := h.knows p
  unfold State.step at hs
  dsimp only at hs
  cases hpc : s.pc p with
  | idle =>
      rw [hpc] at hs
      cases hs
  | consoleRead c =>
      rw [hpc] at hs hp
      exact h.of_runConsole (consoleRead_knows hp) (consoleRead_pc _ _ _) hs
  | pipeWrite w =>
      rw [hpc] at hs hp
      exact h.of_runPipe (pipeWrite_knows h.fits hp).1 (pipeWrite_knows h.fits hp).2 hs
  | pipeRead n =>
      rw [hpc] at hs
      exact h.of_runPipe (pipeRead_knows h.fits) h.fits hs
  | copy c =>
      rw [hpc] at hs hp
      exact h.of_runPipe (copy_knows _ h.fits hp).1 (copy_knows true h.fits hp).2 hs

theorem Inv.step {a : Action ι} (h : Inv s) (hs : s.step a = some s') : Inv s' := by
  cases a with
  | run p => exact h.run hs
  | call p op =>
      simp only [State.step] at hs
      split at hs
      · obtain rfl := Option.some.inj hs
        exact h.call op
      · cases hs
  | key c =>
      simp only [State.step] at hs
      split at hs
      · obtain rfl := Option.some.inj hs
        exact ⟨h.fits, h.knows, h.copies, h.done⟩
      · cases hs
  | close writable =>
      simp only [State.step] at hs
      split at hs
      · obtain rfl := Option.some.inj hs
        exact h.close writable
      · cases hs
  | kill p =>
      obtain rfl := Option.some.inj hs
      exact ⟨h.fits, h.knows, h.copies, h.done⟩

theorem inv (h : (machine ι).Reachable s) : Inv s :=
  Machine.Reachable.invariant (P := Inv) (fun _ hs => Starts.inv hs) (fun _ _ _ hi hs => Inv.step hi hs) h

/-! ## What is typed -/

/-- A reader has stored at most `u` bytes. -/
def Pc.Within (u : Nat) : Pc → Prop
  | .consoleRead c => c.dst.length ≤ u
  | _ => True

def Next.Within (u : Nat) : Next → Prop
  | .goto pc | .sleep pc => pc.Within u
  | .ret call _ stored _ => call = .consoleRead → stored ≤ u

/-- No read of the console has stored more than was taken from the line, and no more was typed. -/
structure Typed (L : Line) (s : State ι) : Prop where
  sim : Sim L s.input
  total : L.committed.length + L.pending.length ≤ s.typed
  within : ∀ p, (s.pc p).Within L.used
  done : ∀ d ∈ s.done, d.call = .consoleRead → d.stored ≤ L.used

theorem length_add (L : Line) (c : UInt8) :
    (L.add c).committed.length + (L.add c).pending.length = L.committed.length + L.pending.length + 1 := by
  unfold Line.add
  split
  · simp only [List.length_append, List.length_nil, List.length_singleton]
    omega
  · simp only [List.length_append, List.length_singleton]
    omega

theorem length_typed_le (L : Line) (c : UInt8) :
    (L.typed c).committed.length + (L.typed c).pending.length ≤ L.committed.length + L.pending.length + 1 := by
  unfold Line.typed
  split
  · exact Nat.le_trans (Nat.add_le_add_left (Nat.zero_le _) _) (Nat.le_succ _)
  split
  · dsimp only
    rw [List.length_dropLast]
    omega
  split
  · exact Nat.le_of_eq (length_add L _)
  · exact Nat.le_succ _

theorem Pc.Within.mono {u u' : Nat} {pc : Pc} (h : pc.Within u) (hu : u ≤ u') : pc.Within u' := by
  cases pc with
  | consoleRead c => exact Nat.le_trans h hu
  | _ => trivial

/-- A round of `console_read` takes at most one character, and stores no more than it takes. -/
theorem consoleRead_within {L : Line} {i : Input} {c : Reader} (killed : Bool) (h : Sim L i)
    (hc : c.dst.length ≤ L.used) :
    ∃ u, L.used ≤ u ∧ Sim ⟨L.committed, L.pending, u⟩ (consoleRead killed c i).1 ∧
      (consoleRead killed c i).2.Within u := by
  unfold consoleRead
  split
  · exact ⟨_, Nat.le_refl _, h, fun _ => hc⟩
  split
  · refine ⟨_, Nat.le_refl _, h, ?_⟩
    cases killed
    · exact hc
    · exact fun _ => hc
  rename_i hne
  have htake := (h.take hne).1
  have hle := Nat.le_succ L.used
  have hnext : (c.dst ++ [i.buf (i.r % inputBuf)]).length ≤ L.used + 1 := by
    rw [List.length_append]
    exact Nat.succ_le_succ hc
  dsimp only
  split_ifs
  · refine ⟨_, Nat.le_refl _, ?_, fun _ => hc⟩
    rw [sub32_succ h.r_lt]
    exact h
  · exact ⟨_, hle, htake, fun _ => Nat.le_trans hc hle⟩
  · exact ⟨_, hle, htake, fun _ => hnext⟩
  · exact ⟨_, hle, htake, hnext⟩

theorem pipeWrite_within (killed : Bool) (w : Writer) (q : Kernel.Pipe) (u : Nat) :
    (pipeWrite killed w q).2.Within u := by
  unfold pipeWrite
  split_ifs
  · exact fun hc => Call.noConfusion hc
  · trivial
  · trivial
  · exact fun hc => Call.noConfusion hc

theorem pipeRead_within (killed : Bool) (n : BitVec 64) (q : Kernel.Pipe) (u : Nat) :
    (pipeRead killed n q).Within u := by
  unfold pipeRead
  split_ifs
  · exact fun hc => Call.noConfusion hc
  · trivial
  · trivial

theorem copy_within (c : Copier) (q : Kernel.Pipe) (u : Nat) : (copy c q).2.Within u := by
  unfold copy
  split_ifs
  · trivial
  · exact fun hc => Call.noConfusion hc

omit [DecidableEq ι] in
theorem Starts.typed_empty (h : Starts s) : Typed ⟨[], [], 0⟩ s := by
  obtain ⟨hr, hw, he⟩ := h.input
  refine ⟨Sim.empty hr hw he, Nat.zero_le _, fun p => ?_, fun d hd => ?_⟩
  · rw [h.pc p]
    trivial
  · rw [h.done] at hd
    cases hd

theorem Typed.goes {L : Line} {x : Next} {u : Nat} (h : Typed L s) (hu : L.used ≤ u) (hx : x.Within u) :
    (∀ q, ((s.goes p x).pc q).Within u) ∧ ∀ d ∈ (s.goes p x).done, d.call = .consoleRead → d.stored ≤ u := by
  have hold : ∀ d ∈ s.done, d.call = .consoleRead → d.stored ≤ u := fun d hd hc => Nat.le_trans (h.done d hd hc) hu
  refine ⟨fun q => ?_, ?_⟩
  · rw [goes_pc]
    by_cases hq : q = p
    · rw [hq, upd_self]
      cases x with
      | goto pc => exact hx
      | sleep pc => exact hx
      | ret => trivial
    · rw [upd_of_ne hq]
      exact (h.within q).mono hu
  · cases x with
    | goto pc => exact hold
    | sleep pc => exact hold
    | ret call n stored r =>
        intro d hd
        rcases List.mem_append.mp hd with hd | hd
        · exact hold d hd
        · rw [List.mem_singleton.mp hd]
          exact hx

theorem goes_rest (s : State ι) (p : ι) (x : Next) :
    (s.goes p x).input = s.input ∧ (s.goes p x).typed = s.typed := by
  cases x <;> exact ⟨rfl, rfl⟩

theorem Typed.runConsole {L : Line} {c : Reader} (h : Typed L s) (hc : c.dst.length ≤ L.used)
    (hs : s.runConsole p (consoleRead (s.killed p) c s.input) = some s') : ∃ L, Typed L s' := by
  unfold State.runConsole at hs
  split at hs
  · obtain rfl := Option.some.inj hs
    obtain ⟨u, hu, hsim, hx⟩ := consoleRead_within (s.killed p) h.sim hc
    obtain ⟨hwithin, hdone⟩ := h.goes (p := p) hu hx
    refine ⟨_, hsim, ?_, hwithin, hdone⟩
    dsimp only
    rw [(goes_rest s p _).2]
    exact h.total
  split at hs
  · obtain rfl := Option.some.inj hs
    exact ⟨L, h.sim, h.total, h.within, h.done⟩
  · cases hs

theorem Typed.runPipe {L : Line} {x : Kernel.Pipe × Next} (h : Typed L s) (hx : x.2.Within L.used)
    (hs : s.runPipe p x = some s') : ∃ L, Typed L s' := by
  unfold State.runPipe at hs
  split at hs
  · obtain rfl := Option.some.inj hs
    obtain ⟨hwithin, hdone⟩ := h.goes (p := p) (Nat.le_refl _) hx
    obtain ⟨hinput, htyped⟩ := goes_rest s p x.2
    refine ⟨L, ?_, ?_, hwithin, hdone⟩
    · dsimp only
      rw [hinput]
      exact h.sim
    · dsimp only
      rw [htyped]
      exact h.total
  split at hs
  · obtain rfl := Option.some.inj hs
    exact ⟨L, h.sim, h.total, h.within, h.done⟩
  · cases hs

theorem Typed.run {L : Line} (h : Typed L s) (hs : s.step (.run p) = some s') : ∃ L, Typed L s' := by
  have hp := h.within p
  unfold State.step at hs
  dsimp only at hs
  cases hpc : s.pc p with
  | idle =>
      rw [hpc] at hs
      cases hs
  | consoleRead c =>
      rw [hpc] at hs hp
      exact h.runConsole hp hs
  | pipeWrite w =>
      rw [hpc] at hs
      exact h.runPipe (pipeWrite_within _ _ _ _) hs
  | pipeRead n =>
      rw [hpc] at hs
      exact h.runPipe (pipeRead_within _ _ _ _) hs
  | copy c =>
      rw [hpc] at hs
      exact h.runPipe (copy_within _ _ _) hs

theorem Typed.step {L : Line} {a : Action ι} (h : Typed L s) (hs : s.step a = some s') : ∃ L, Typed L s' := by
  cases a with
  | run p => exact h.run hs
  | call p op =>
      simp only [State.step] at hs
      split at hs
      · obtain rfl := Option.some.inj hs
        refine ⟨L, h.sim, h.total, fun q => ?_, h.done⟩
        dsimp only
        by_cases hq : q = p
        · rw [hq, upd_self]
          cases op with
          | consoleRead n => exact Nat.zero_le _
          | pipeRead n => trivial
          | pipeWrite n addr => trivial
        · rw [upd_of_ne hq]
          exact h.within q
      · cases hs
  | key c =>
      simp only [State.step] at hs
      split at hs
      · obtain rfl := Option.some.inj hs
        have hused := (L.typed_committed c).2
        refine ⟨L.typed c, h.sim.typed c, Nat.le_trans (length_typed_le L c) (Nat.succ_le_succ h.total), ?_, ?_⟩
        · rw [hused]
          exact h.within
        · rw [hused]
          exact h.done
      · cases hs
  | close writable =>
      simp only [State.step] at hs
      split at hs
      · obtain rfl := Option.some.inj hs
        exact ⟨L, h.sim, h.total, h.within, h.done⟩
      · cases hs
  | kill p =>
      obtain rfl := Option.some.inj hs
      exact ⟨L, h.sim, h.total, h.within, h.done⟩

/-- A read of the console stores at most what was typed. -/
theorem stored_le_typed (h : (machine ι).Reachable s) {d : Done} (hd : d ∈ s.done) (hc : d.call = .consoleRead) :
    d.stored ≤ s.typed := by
  obtain ⟨L, hL⟩ := Machine.Reachable.invariant (P := fun s => ∃ L, Typed L s) (fun _ hs => ⟨_, Starts.typed_empty hs⟩)
    (fun _ _ _ ⟨_, hL⟩ hs => hL.step hs) h
  exact Nat.le_trans (hL.done d hd hc) (Nat.le_trans hL.sim.used (Nat.le_trans (Nat.le_add_right _ _) hL.total))

end Xv6.Count
