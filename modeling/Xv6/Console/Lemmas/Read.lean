import Xv6.Console.Lemmas.Line

/-!
# Reads

What one run of the loop of `console_read` takes from the stream and gives to its caller, and what
holds of all reads in every state.
-/

namespace Xv6.Console

open Xv6.Lib

variable {L : Line} {s : Input} {killed : Bool} {target n : Nat} {dst : List UInt8}

/-- The stream with `k` more characters taken. -/
def Line.advance (L : Line) (k : Nat) : Line := ⟨L.committed, L.pending, L.used + k⟩

/-- A run of the loop takes the next characters of the stream. -/
theorem Sim.readLoop (h : Sim L s) (killed : Bool) (target n : Nat) (dst : List UInt8) :
    Sim (L.advance (readLoop killed target n dst s).took.length) (readLoop killed target n dst s).input ∧
      (readLoop killed target n dst s).took <+: L.committed.drop L.used := by
  induction n generalizing dst L s with
  | zero => exact ⟨h, List.nil_prefix⟩
  | succ n ih =>
      unfold Console.readLoop
      by_cases hrw : s.r = s.w
      · rw [if_pos hrw]
        exact ⟨h, List.nil_prefix⟩
      obtain ⟨htake, hdrop⟩ := h.take hrw
      rw [if_neg hrw]
      dsimp only
      by_cases hd : s.buf (s.r % inputBuf) = ctrl 'D'
      · rw [if_pos hd]
        by_cases hlt : n + 1 < target
        · rw [if_pos hlt, sub32_succ h.r_lt]
          exact ⟨h, List.nil_prefix⟩
        · rw [if_neg hlt, hdrop]
          exact ⟨htake, List.cons_prefix_cons.mpr ⟨rfl, List.nil_prefix⟩⟩
      rw [if_neg hd]
      by_cases hn : s.buf (s.r % inputBuf) = newline
      · rw [if_pos hn, hdrop]
        exact ⟨htake, List.cons_prefix_cons.mpr ⟨rfl, List.nil_prefix⟩⟩
      · rw [if_neg hn, hdrop]
        obtain ⟨hsim, hpre⟩ := ih htake (dst ++ [s.buf (s.r % inputBuf)])
        refine ⟨?_, List.cons_prefix_cons.mpr ⟨rfl, hpre⟩⟩
        simp only [Line.advance, List.length_cons] at hsim ⊢
        rwa [Nat.add_right_comm, ← Nat.add_assoc] at *

/-- What a run of the loop leaves, for a process that is not killed. -/
def Leaves (target : Nat) (dst : List UInt8) (t : ReadRun) : Prop :=
  match t.outcome with
  | .sleeps n => Reader.Waits ⟨target, n, t.dst, dst ++ t.took⟩
  | .returns => Done.Proper ⟨target, t.dst, dst ++ t.took⟩ ∧ Ends target t
  | .fails => False

theorem notMem_concat {l : List UInt8} {c x : UInt8} (hl : x ∉ l) (hc : c ≠ x) : x ∉ l ++ [c] := by
  intro hmem
  cases List.mem_append.mp hmem with
  | inl h => exact hl h
  | inr h => exact hc (List.mem_singleton.mp h).symm

theorem readLoop_leaves (hr : s.r < 2 ^ 32) (hsize : dst.length + n = target) (hnl : newline ∉ dst)
    (hctrl : ctrl 'D' ∉ dst) : Leaves target dst (readLoop false target n dst s) := by
  induction n generalizing dst s with
  | zero =>
      refine ⟨⟨.inl (List.append_nil dst), Nat.le_of_eq hsize, ?_, hctrl⟩, .inl hsize⟩
      exact fun hmem => hnl ((List.dropLast_subset dst) hmem)
  | succ n ih =>
      unfold Console.readLoop
      by_cases hrw : s.r = s.w
      · rw [if_pos hrw]
        exact ⟨List.append_nil dst, hsize, hnl, hctrl⟩
      rw [if_neg hrw]
      dsimp only
      by_cases hd : s.buf (s.r % inputBuf) = ctrl 'D'
      · rw [if_pos hd]
        by_cases hlt : n + 1 < target
        · rw [if_pos hlt, sub32_succ hr]
          have hne : dst ≠ [] := by
            rintro rfl
            simp at hsize
            omega
          refine ⟨⟨.inl (List.append_nil dst), by simp; omega, ?_, hctrl⟩, .inr (.inr (.inr ⟨hne, hrw, hd⟩))⟩
          exact fun hmem => hnl ((List.dropLast_subset dst) hmem)
        · rw [if_neg hlt, hd]
          have hnil : dst = [] := List.length_eq_zero_iff.mp (by omega)
          subst hnil
          exact ⟨⟨.inr ⟨rfl, rfl⟩, Nat.zero_le _, by simp, by simp⟩, .inr (.inr (.inl ⟨rfl, rfl⟩))⟩
      rw [if_neg hd]
      by_cases hn : s.buf (s.r % inputBuf) = newline
      · rw [if_pos hn, hn]
        refine ⟨⟨.inl rfl, by simp; omega, by simpa using hnl, ?_⟩, .inr (.inl (by simp))⟩
        simp only [List.mem_append, List.mem_singleton, not_or]
        exact ⟨hctrl, by decide⟩
      · rw [if_neg hn]
        have hsize' : (dst ++ [s.buf (s.r % inputBuf)]).length + n = target := by
          simp
          omega
        have hrec := ih (s := { s with r := u32 (s.r + 1) }) (Nat.mod_lt _ (by decide)) hsize' (notMem_concat hnl hn)
          (notMem_concat hctrl hd)
        revert hrec
        generalize Console.readLoop false target n (dst ++ [s.buf (s.r % inputBuf)]) { s with r := u32 (s.r + 1) } = t
        intro hrec
        cases ho : t.outcome with
        | sleeps m =>
            simp only [Leaves, ho, List.append_assoc, List.singleton_append] at hrec ⊢
            exact hrec
        | returns =>
            simp only [Leaves, ho, List.append_assoc, List.singleton_append] at hrec ⊢
            obtain ⟨hproper, hends⟩ := hrec
            refine ⟨hproper, ?_⟩
            rcases hends with hlen | hlast | ⟨hnil, htook⟩ | hnext
            · exact .inl hlen
            · exact .inr (.inl hlast)
            · -- A character is stored already, so that the read does not return nothing.
              have htook' := hproper.took
              simp only [hnil, htook] at htook'
              have hlen : dst.length + 2 ≤ 1 := by
                cases htook' with
                | inl he => simpa using congrArg List.length he
                | inr he => simpa using Nat.le_of_eq (congrArg List.length he.2)
              omega
            · exact .inr (.inr (.inr hnext))
        | fails =>
            simp only [Leaves, ho] at hrec

/-! ## Events -/

section

variable {ι : Type}

theorem after_append (l m : List (Event ι)) : Line.after (l ++ m) = m.foldl Line.event (Line.after l) :=
  List.foldl_append

theorem after_took (l : List (Event ι)) (p : ι) (cs : List UInt8) :
    Line.after (l ++ cs.map (Event.took p)) = (Line.after l).advance cs.length := by
  rw [after_append]
  generalize Line.after l = L
  induction cs generalizing L with
  | nil => rfl
  | cons c cs ih =>
      rw [List.map_cons, List.foldl_cons, ih]
      simp only [Line.event, Line.advance, List.length_cons]
      congr 1
      omega

theorem taken_append (l m : List (Event ι)) : taken (l ++ m) = taken l ++ taken m := List.filterMap_append

theorem taken_took (p : ι) (cs : List UInt8) : taken (cs.map (Event.took p)) = cs := by
  simp [taken, List.filterMap_map]

theorem takenBy_append [DecidableEq ι] (p : ι) (l m : List (Event ι)) :
    takenBy p (l ++ m) = takenBy p l ++ takenBy p m :=
  List.filterMap_append

theorem takenBy_self [DecidableEq ι] (p : ι) (cs : List UInt8) : takenBy p (cs.map (Event.took p)) = cs := by
  simp [takenBy, List.filterMap_map]

theorem takenBy_other [DecidableEq ι] {p q : ι} (h : q ≠ p) (cs : List UInt8) :
    takenBy p (cs.map (Event.took q)) = [] := by
  simp [takenBy, List.filterMap_map, h]

end

theorem Line.add_committed (L : Line) (c : UInt8) : L.committed <+: (L.add c).committed ∧ (L.add c).used = L.used := by
  unfold Line.add
  split
  · exact ⟨List.prefix_append _ _, rfl⟩
  · exact ⟨List.prefix_rfl, rfl⟩

/-- A key only adds to the committed stream. -/
theorem Line.typed_committed (L : Line) (c : UInt8) :
    L.committed <+: (L.typed c).committed ∧ (L.typed c).used = L.used := by
  unfold Line.typed
  split
  · exact ⟨List.prefix_rfl, rfl⟩
  split
  · exact ⟨List.prefix_rfl, rfl⟩
  split
  · exact L.add_committed _
  · exact ⟨List.prefix_rfl, rfl⟩

/-! ## Runs -/

variable {ι : Type} [DecidableEq ι]

structure Inv (s : State ι) : Prop where
  sim : Sim (Line.after s.events) s.input
  used : (Line.after s.events).used = (taken s.events).length
  stream : taken s.events <+: (Line.after s.events).committed
  waits : ∀ p d, s.asleep p = some d → d.Waits
  proper : ∀ p, ∀ d ∈ s.done p, d.Proper
  shares : ∀ p, takenBy p s.events = (s.done p).flatMap Done.took ++ ((s.asleep p).map Reader.took).getD []

namespace Inv

variable {s : State ι}

theorem start (h : Starts s) : Inv s := by
  obtain ⟨hr, hw, he, hasleep, hdone, hevents⟩ := h
  constructor
  · rw [hevents]
    exact Sim.empty hr hw he
  · rw [hevents]
    rfl
  · rw [hevents]
    exact List.nil_prefix
  · intro p d hd
    rw [hasleep] at hd
    cases hd
  · intro p d hd
    rw [hdone] at hd
    cases hd
  · intro p
    rw [hevents, hasleep, hdone]
    rfl

theorem key (h : Inv s) (c : UInt8) :
    Inv { s with input := consoleIntr c s.input, events := s.events ++ [.typed c] } := by
  have hafter : Line.after (s.events ++ [.typed c]) = (Line.after s.events).typed c := after_append _ _
  have htaken : taken (s.events ++ [.typed c]) = taken s.events := by
    rw [taken_append]
    exact List.append_nil _
  obtain ⟨hpre, hused⟩ := (Line.after s.events).typed_committed c
  constructor
  · simp only [hafter]
    exact h.sim.typed c
  · simp only [hafter, htaken, hused]
    exact h.used
  · simp only [hafter, htaken]
    exact h.stream.trans hpre
  · exact h.waits
  · exact h.proper
  · intro p
    rw [takenBy_append, ← h.shares p]
    exact List.append_nil _

/-- The process `p` runs the loop for a read that waits. -/
theorem reads (h : Inv s) {p : ι} {d : Reader} (hd : d.Waits)
    (hshare : takenBy p s.events = (s.done p).flatMap Done.took ++ d.took) : Inv (s.reads p d) := by
  obtain ⟨hsim, hpre⟩ := h.sim.readLoop false d.target d.n d.dst
  have hleaves := readLoop_leaves h.sim.r_lt hd.size hd.newline hd.ctrlD
  unfold State.reads
  revert hsim hpre hleaves
  generalize readLoop false d.target d.n d.dst s.input = t
  intro hsim hpre hleaves
  dsimp only
  have hafter := after_took s.events p t.took
  have htaken : taken (s.events ++ t.took.map (Event.took p)) = taken s.events ++ t.took := by
    rw [taken_append, taken_took]
  rw [← hafter] at hsim
  have hused : (Line.after (s.events ++ t.took.map (Event.took p))).used =
      (taken (s.events ++ t.took.map (Event.took p))).length := by
    rw [hafter, htaken, List.length_append, ← h.used]
    rfl
  have hstream : taken (s.events ++ t.took.map (Event.took p)) <+:
      (Line.after (s.events ++ t.took.map (Event.took p))).committed := by
    rw [hafter, htaken]
    have htake : taken s.events = (Line.after s.events).committed.take (Line.after s.events).used := by
      rw [h.used]
      exact List.prefix_iff_eq_take.mp h.stream
    obtain ⟨u, hu⟩ := hpre
    refine ⟨u, ?_⟩
    rw [List.append_assoc, hu, htake]
    exact List.take_append_drop _ _
  have hself : takenBy p (s.events ++ t.took.map (Event.took p)) = (s.done p).flatMap Done.took ++
    (d.took ++ t.took) := by
    rw [takenBy_append, takenBy_self, hshare, List.append_assoc]
  have hother : ∀ q, q ≠ p → takenBy q (s.events ++ t.took.map (Event.took p)) = takenBy q s.events := by
    intro q hq
    rw [takenBy_append, takenBy_other (Ne.symm hq), List.append_nil]
  cases ho : t.outcome with
  | sleeps n =>
      simp only [Leaves, ho] at hleaves
      dsimp only
      constructor
      · exact hsim
      · exact hused
      · exact hstream
      · intro q e he
        dsimp only at he
        by_cases hq : q = p
        · rw [hq, upd_self] at he
          cases he
          rw [hd.took]
          exact hleaves
        · rw [upd_of_ne hq] at he
          exact h.waits q e he
      · exact h.proper
      · intro q
        by_cases hq : q = p
        · subst hq
          simpa using hself
        · simp only [upd_of_ne hq]
          rw [hother q hq]
          exact h.shares q
  | returns =>
      simp only [Leaves, ho] at hleaves
      dsimp only
      constructor
      · exact hsim
      · exact hused
      · exact hstream
      · intro q e he
        dsimp only at he
        by_cases hq : q = p
        · rw [hq, upd_self] at he
          cases he
        · rw [upd_of_ne hq] at he
          exact h.waits q e he
      · intro q e he
        dsimp only at he
        by_cases hq : q = p
        · rw [hq, upd_self] at he
          cases List.mem_append.mp he with
          | inl hold => exact h.proper p e hold
          | inr hnew =>
              rw [List.mem_singleton.mp hnew, hd.took]
              exact hleaves.1
        · rw [upd_of_ne hq] at he
          exact h.proper q e he
      · intro q
        by_cases hq : q = p
        · subst hq
          simpa using hself
        · simp only [upd_of_ne hq]
          rw [hother q hq]
          exact h.shares q
  | fails =>
      simp only [Leaves, ho] at hleaves

theorem reachable (h : (machine ι).Reachable s) : Inv s := by
  refine h.invariant (P := Inv) (fun _ => start) ?_
  intro s a s' hinv hs
  cases a with
  | key c =>
      cases hs
      exact hinv.key c
  | read p n =>
      simp only [machine, State.step] at hs
      cases hp : s.asleep p with
      | none =>
          rw [hp] at hs
          obtain ⟨-, hs⟩ := Option.ite_none_right_eq_some.mp hs
          cases hs
          have hshare := hinv.shares p
          rw [hp] at hshare
          exact hinv.reads ⟨rfl, Nat.zero_add n, by simp, by simp⟩ hshare
      | some d =>
          rw [hp] at hs
          cases hs
  | wake p =>
      obtain ⟨d, hd, rfl⟩ := Option.map_eq_some_iff.mp hs
      have hshare := hinv.shares p
      rw [hd] at hshare
      exact hinv.reads (hinv.waits p d hd) hshare

end Inv

end Xv6.Console
