import Xv6.Console.Lemmas.Read

/-!
# The console keeps the line discipline
-/

namespace Xv6.Console

open Xv6.Lib

variable {ι : Type} [DecidableEq ι]

/-- The indices stay in order, also when they wrap; a full buffer is committed; what readers took is a
prefix of the committed stream, whose unread part is in the buffer; every read has its share of what was
taken, and returns one line at most. -/
structure LineDiscipline (s : State ι) : Prop where
  order : sub32 s.input.w s.input.r ≤ sub32 s.input.e s.input.r ∧ sub32 s.input.e s.input.r ≤ inputBuf
  full : sub32 s.input.e s.input.r = inputBuf → s.input.w = s.input.e
  stream : taken s.events <+: (Line.after s.events).committed
  unread : (Line.after s.events).committed = taken s.events ++
    (List.range (sub32 s.input.w s.input.r)).map fun i => s.input.buf ((s.input.r + i) % inputBuf)
  shares : ∀ p, takenBy p s.events = (s.done p).flatMap Done.took ++ ((s.asleep p).map Reader.took).getD []
  waits : ∀ p d, s.asleep p = some d → d.Waits
  proper : ∀ p, ∀ d ∈ s.done p, d.Proper
  ends : ∀ d : Reader, d.Waits → (readLoop false d.target d.n d.dst s.input).outcome = .returns →
    Ends d.target (readLoop false d.target d.n d.dst s.input)

/-- Keys and readers in any order: the readers together get the committed characters, each of them once and in order,
and each read ends where it should. -/
theorem line_discipline {s : State ι} (h : (machine ι).Reachable s) : LineDiscipline s := by
  have hinv := Inv.reachable h
  have hsim := hinv.sim
  constructor
  · rw [hsim.w_sub, hsim.size_eq]
    exact ⟨Nat.le_add_right _ _, hsim.size_le⟩
  · intro hfull
    rw [hsim.size_eq] at hfull
    exact (hsim.e_eq_w.mpr (hsim.full hfull)).symm
  · exact hinv.stream
  · have htake := List.prefix_iff_eq_take.mp hinv.stream
    rw [← hinv.used] at htake
    rw [hsim.unread, htake]
    exact (List.take_append_drop _ _).symm
  · exact hinv.shares
  · exact hinv.waits
  · exact hinv.proper
  · intro d hd hreturns
    have hleaves := readLoop_leaves hsim.r_lt hd.size hd.newline hd.ctrlD
    simp only [Leaves, hreturns] at hleaves
    exact hleaves.2

/-- The state in which nothing was typed, with indices that are about to wrap. -/
def beforeWrap : State Bool := ⟨⟨fun _ => 0, 2 ^ 32 - 2, 2 ^ 32 - 2, 2 ^ 32 - 2⟩, fun _ => none, fun _ => [], []⟩

/-- A reader waits for ten bytes while `ab`, an erased `c` and a newline are typed across the wrap. -/
theorem line_discipline_wrap : ∃ s : State Bool, LineDiscipline s ∧ taken s.events = [97, 98, 10] ∧ s.input.r = 1 := by
  have hstart : (machine Bool).Reachable beforeWrap :=
    .start ⟨by decide, rfl, rfl, fun _ => rfl, fun _ => rfl, rfl⟩
  obtain ⟨s, hs, hp⟩ := hstart.of_run
    (P := fun s : State Bool => decide (taken s.events = [97, 98, 10] ∧ s.input.r = 1))
    (l := [.read true 10, .key 97, .key 98, .key 99, .key 8, .key 13, .wake true]) (by decide +kernel)
  exact ⟨s, line_discipline hs, of_decide_eq_true hp⟩

end Xv6.Console
