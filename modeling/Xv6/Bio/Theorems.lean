import Xv6.Fs.Block
import Xv6.Bio.Lemmas.Client
import Xv6.Bio.Lemmas.Procs

/-!
# The buffer cache

For one thread of control the cache refines an array of blocks, which is what the file system is
modelled over. Processes that run together can be given two buffers for one block, or a buffer of
another block than the one they asked for; what protects them is that no block is looked up while a
claimed buffer waits for its new block.
-/

namespace Xv6.Bio

open Xv6.Lib Xv6.Fs

namespace Client

/-- The cache is an array of blocks: every call of the thread returns, reads give the contents that
were last given to the block, a held buffer has them too, and no two valid buffers stand for one block. -/
structure PlainArray (c : Client) : Prop where
  returns : ∀ op, c.Allowed op → ∃ r c', exec op c = .ok (r, c')
  reads : ∀ b r c', c.Allowed (.bread b) → exec (.bread b) c = .ok (r, c') → r = some (c.last b)
  held : ∀ b i, (b, i) ∈ c.held → (c.cache.bufs i).data = c.last b
  valid_unique : ∀ i j, (c.cache.bufs i).valid → (c.cache.bufs j).valid →
    (c.cache.bufs i).block = (c.cache.bufs j).block → i = j

/-- A thread sees a plain array of blocks through the cache, in every state that its calls bring about. -/
theorem plain_array {c : Client} (h : machine.Reachable c) : c.PlainArray := by
  have hinv := Inv.reachable h
  constructor
  · intro op ha
    obtain ⟨r, c', hx, -⟩ := (hinv.exec ha).returns
    exact ⟨r, c', hx⟩
  · intro b r c' ha hx
    exact ((hinv.exec ha).of_ok hx).1
  · intro b i hmem
    obtain ⟨l, hco⟩ := hinv.coherent
    obtain ⟨hbno, hvalid⟩ := hinv.held.block (b, i) hmem
    have hdata := (hco.valid i hvalid).2.2
    rwa [hbno] at hdata
  · intro i j hi hj he
    obtain ⟨l, hco⟩ := hinv.coherent
    exact hco.valid_unique hi hj he

theorem plain_array_written : ∃ c, machine.Reachable c ∧ c.held.length = 2 ∧ c.PlainArray := by
  obtain ⟨c, hc, hl⟩ := Machine.Reachable.of_run (M := machine) (P := fun c => decide (c.held.length = 2))
    (l := [.bread 0, .write 0 fun _ => 1, .brelse 0, .bread 1, .bread 0])
    (.start ⟨fun _ _ => 0, 2, rfl⟩) (by decide +kernel)
  exact ⟨c, hc, of_decide_eq_true hl, plain_array hc⟩

/-- The array of blocks that the file system works on is the one that the cache refines. -/
theorem bread_eq_fs {c : Client} (h : machine.Reachable c) (hn : c.cache.diskBlocks = nblocks) {fs : State}
    (hdisk : fs.disk = c.last) {b : Nat} (ha : c.Allowed (.bread b)) :
    ∃ data c', exec (.bread b) c = .ok (some data, c') ∧ Fs.bread devRamdisk b fs = .ok (data, fs) := by
  obtain ⟨r, c', hx, hr, -⟩ := ((Inv.reachable h).exec ha).returns
  refine ⟨c.last b, c', by rw [hx, show r = some (c.last b) from hr], ?_⟩
  have hread : Wp (Fs.bread devRamdisk b) (fun data fs' => data = c.last b ∧ fs' = fs) (fun _ => False) fs := by
    simp only [Fs.bread, Fs.breadOn, wp_bind, wp_panicIf, wp_get, wp_pure, hdisk, and_self, implies_true, and_true]
    refine ⟨fun hne => hne rfl, fun _ hle => ?_⟩
    exact absurd (hn ▸ ha.1) (Nat.not_lt.mpr hle)
  obtain ⟨data, fs', hf, rfl, rfl⟩ := hread.returns
  exact hf

end Client

/-! ## Processes -/

namespace Procs

variable {ι : Type} [DecidableEq ι]

/-- No two buffers in use stand for one block, and a process has the blocks that it asked for. -/
structure BufferIdentity (s : Procs ι) : Prop where
  distinct : ∀ i j, 0 < (s.cache.bufs i).refCount → 0 < (s.cache.bufs j).refCount →
    (s.cache.bufs i).block = (s.cache.bufs j).block → i = j
  returned : ∀ p, ∀ h ∈ s.got p, (s.cache.bufs h.buf).block = (h.dev, h.bno)

/-- Processes that look up blocks only as `LooksUpAlone` says never share a block by mistake. -/
theorem buffer_identity {s : Procs ι} (h : (machine ι).ReachableIf LooksUpAlone s) : s.BufferIdentity := by
  obtain ⟨l, users, hid⟩ := identity h
  constructor
  · intro i j hi hj he
    exact hid.distinct hi hj he
  · intro p k hk
    exact hid.asked p k (List.mem_append_right _ hk)

/-- All processes are outside the cache of a disk of 64 blocks of zeros. -/
def fresh (ι : Type) : Procs ι := ⟨bcacheInit (fun _ _ => 0) 64, fun _ => .idle, fun _ => []⟩

/-- Process 0 writes to block 5 and releases it; then process 1 has block 5 and process 0 has block 7. -/
def inTurn : List (Bool × Act) :=
  [(false, .bread 0 5), (false, .acquire), (false, .recycle), (false, .fill), (false, .write ⟨0, 0, 5⟩ fun _ => 1),
    (false, .brelse ⟨0, 0, 5⟩), (false, .unref), (true, .bread 0 5), (true, .acquire), (false, .bread 0 7),
    (true, .fill), (false, .acquire), (false, .recycle), (false, .fill)]

theorem buffer_identity_inTurn : ∃ s : Procs Bool, s.got false = [⟨1, 0, 7⟩] ∧ s.got true = [⟨0, 0, 5⟩] ∧
    0 < (s.cache.bufs 0).refCount ∧ 0 < (s.cache.bufs 1).refCount ∧ s.BufferIdentity := by
  obtain ⟨s, hs, hp⟩ := Machine.ReachableIf.of_run (M := machine Bool) (C := LooksUpAlone)
    (s := fresh Bool) (l := inTurn) (c := fun s a => decide (LooksUpAlone s a)) (fun _ _ => of_decide_eq_true)
    (P := fun s => decide (s.got false = [⟨1, 0, 7⟩] ∧ s.got true = [⟨0, 0, 5⟩] ∧
      0 < (s.cache.bufs 0).refCount ∧ 0 < (s.cache.bufs 1).refCount)) (.start ⟨_, _, rfl⟩) (by decide +kernel)
  obtain ⟨h0, h1, h2, h3⟩ := of_decide_eq_true hp
  exact ⟨s, h0, h1, h2, h3, buffer_identity hs⟩

/-- Two processes look up block 5 before either has given its claimed buffer to it. -/
def bothMiss : List (Bool × Act) :=
  [(false, .bread 0 5), (true, .bread 0 5), (false, .acquire), (false, .recycle), (false, .fill), (true, .acquire),
    (true, .recycle), (true, .fill)]

/-- All other buffers are claimed, so that process 29 claims the first buffer of block 0, which
process 30 then finds. -/
def staleHit : List (Fin 31 × Act) :=
  ((List.finRange 31).take 29).map (fun p => (p, .bread 0 (10 + p.val))) ++
    [(29, .bread 0 5), (30, .bread 0 0), (29, .acquire), (29, .recycle), (29, .fill),
      (29, .brelse ⟨29, 0, 5⟩), (30, .acquire), (30, .fill)]

/-- Two processes are given two buffers for one block, and a process is given another block than the
one it asked for. -/
theorem buffer_confused :
    (∃ s, (machine Bool).Reachable s ∧ ∃ i j, i ≠ j ∧ 0 < (s.cache.bufs i).refCount ∧
      0 < (s.cache.bufs j).refCount ∧ (s.cache.bufs i).block = (0, 5) ∧ (s.cache.bufs j).block = (0, 5) ∧
      ⟨i, 0, 5⟩ ∈ s.got false ∧ ⟨j, 0, 5⟩ ∈ s.got true) ∧
    ∃ s, (machine (Fin 31)).Reachable s ∧ ∃ i, ⟨i, 0, 0⟩ ∈ s.got 30 ∧ (s.cache.bufs i).block = (0, 5) := by
  constructor
  · obtain ⟨s, hs, hp⟩ := Machine.Reachable.of_run (M := machine Bool) (s := fresh Bool) (l := bothMiss)
      (P := fun s => decide (0 < (s.cache.bufs 0).refCount ∧ 0 < (s.cache.bufs 1).refCount ∧
        (s.cache.bufs 0).block = (0, 5) ∧ (s.cache.bufs 1).block = (0, 5) ∧
        ⟨0, 0, 5⟩ ∈ s.got false ∧ ⟨1, 0, 5⟩ ∈ s.got true)) (.start ⟨_, _, rfl⟩) (by decide +kernel)
    exact ⟨s, hs, 0, 1, by decide, of_decide_eq_true hp⟩
  · obtain ⟨s, hs, hp⟩ := Machine.Reachable.of_run (M := machine (Fin 31)) (s := fresh (Fin 31)) (l := staleHit)
      (P := fun s => decide (⟨29, 0, 0⟩ ∈ s.got 30 ∧ (s.cache.bufs 29).block = (0, 5)))
      (.start ⟨_, _, rfl⟩) (by decide +kernel)
    exact ⟨s, hs, 29, of_decide_eq_true hp⟩

end Procs

end Xv6.Bio
