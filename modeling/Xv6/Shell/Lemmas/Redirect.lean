import Mathlib.Data.List.Induction
import Xv6.Shell.Lemmas.Words
import Xv6.Shell.Run

/-!
# Redirections

The parser wraps every redirection around those before it, and `run_cmd` opens the outermost file first. So the first
redirection in the text is the last one to be opened, and its file is the one that stays.
-/

namespace Xv6.Shell

open Xv6.Lib

variable {F : Fds} {α : Type}

/-! ## Definitions -/

def Redirection.map {β : Type} (f : α → β) (r : Redirection α) : Redirection β := ⟨r.op, f r.file⟩

def Redirection.isInput (r : Redirection α) : Bool := r.op = .less

def Redirection.isOutput (r : Redirection α) : Bool := r.op ≠ .less

/-- What a descriptor refers to that is redirected by `r`, if at all. -/
def target (r : Option (Redirection Word)) (f : Option File) : Option File :=
  match r with
  | some r => some (.opened r.redir.file r.redir.mode)
  | none => f

/-- The textually last redirections decide. -/
structure LastWins (rs : List (Redirection Word)) (F F' : Fds) : Prop where
  input : F' 0 = target (rs.reverse.find? Redirection.isInput) (F 0)
  output : F' 1 = target (rs.reverse.find? Redirection.isOutput) (F 1)
  others : ∀ fd, 2 ≤ fd → F' fd = F fd

/-- The first and the last redirection of a descriptor name the same file. -/
def SameEnds (rs : List (Redirection Word)) : Prop :=
  (rs.find? Redirection.isInput).map Redirection.file = (rs.reverse.find? Redirection.isInput).map Redirection.file ∧
    (rs.find? Redirection.isOutput).map Redirection.file = (rs.reverse.find? Redirection.isOutput).map Redirection.file

/-- A tree and all trees in it. -/
def Cmd.subtrees : Cmd α → List (Cmd α)
  | .exec argv => [.exec argv]
  | .redir r cmd => .redir r cmd :: cmd.subtrees
  | .pipe left right => .pipe left right :: (left.subtrees ++ right.subtrees)
  | .list left right => .list left right :: (left.subtrees ++ right.subtrees)
  | .back cmd => .back cmd :: cmd.subtrees

/-! ## Descriptors -/

/-- The lowest free descriptor. -/
theorem fdAlloc_eq {n : Nat} (hn : n < nofile) (hfree : F n = none) (hlow : ∀ i < n, F i ≠ none) :
    fdAlloc F = some n := by
  unfold fdAlloc
  rw [List.find?_range_eq_some]
  exact ⟨decide_eq_true hfree, List.mem_range.mpr hn, fun j hj => by simpa using hlow j hj⟩

theorem redirect_eq {r : Redir Word} (hfd : r.fd < nofile) (hlow : ∀ i < r.fd, F i ≠ none) :
    redirect r F = upd F r.fd (some (.opened r.file r.mode)) := by
  have halloc : fdAlloc (closeFd r.fd F) = some r.fd :=
    fdAlloc_eq hfd (upd_self _ _ _) fun i hi => by
      rw [closeFd, upd_of_ne (Nat.ne_of_lt hi)]
      exact hlow i hi
  unfold redirect install
  rw [halloc]
  exact upd_upd _ _ _ _

theorem wrap_concat (rs : List (Redir α)) (r : Redir α) (c : Cmd α) :
    Cmd.wrap (rs ++ [r]) c = .redir r (Cmd.wrap rs c) := by
  unfold Cmd.wrap
  rw [List.foldl_append]
  rfl

/-- The outermost redirection is the first to be opened. -/
theorem runRedirs_wrap (rs : List (Redir Word)) (c : Cmd Word) (F : Fds) :
    runRedirs rs.length (Cmd.wrap rs c) F = (rs.foldr redirect F, c) := by
  induction rs using List.reverseRecOn generalizing F with
  | nil => rfl
  | append_singleton rs r ih =>
      rw [wrap_concat, List.length_append, List.length_singleton, List.foldr_append]
      exact ih (redirect r F)

theorem target_ne_none {r : Option (Redirection Word)} {f : Option File} (h : f ≠ none) : target r f ≠ none := by
  cases r with
  | none => exact h
  | some r => exact Option.some_ne_none _

/-- The first redirection of a descriptor is the one that stays. -/
theorem foldr_redirect (rs : List (Redirection Word)) (h0 : F 0 ≠ none) :
    (rs.map Redirection.redir).foldr redirect F 0 = target (rs.find? Redirection.isInput) (F 0) ∧
      (rs.map Redirection.redir).foldr redirect F 1 = target (rs.find? Redirection.isOutput) (F 1) ∧
      ∀ fd, 2 ≤ fd → (rs.map Redirection.redir).foldr redirect F fd = F fd := by
  induction rs with
  | nil => exact ⟨rfl, rfl, fun _ _ => rfl⟩
  | cons r rs ih =>
      obtain ⟨hin, hout, hothers⟩ := ih
      have hopen : (rs.map Redirection.redir).foldr redirect F 0 ≠ none := hin ▸ target_ne_none h0
      rw [List.map_cons, List.foldr_cons]
      obtain ⟨op, file⟩ := r
      cases op with
      | less =>
          rw [redirect_eq (show (0 : Nat) < nofile by decide) fun i hi => absurd hi (Nat.not_lt_zero i)]
          refine ⟨rfl, hout, fun fd hfd => ?_⟩
          rw [upd_of_ne (by show fd ≠ 0; omega)]
          exact hothers fd hfd
      | more =>
          rw [redirect_eq (show (1 : Nat) < nofile by decide) fun i hi => (Nat.lt_one_iff.mp hi) ▸ hopen]
          refine ⟨hin, rfl, fun fd hfd => ?_⟩
          rw [upd_of_ne (by show fd ≠ 1; omega)]
          exact hothers fd hfd
      | append =>
          rw [redirect_eq (show (1 : Nat) < nofile by decide) fun i hi => (Nat.lt_one_iff.mp hi) ▸ hopen]
          refine ⟨hin, rfl, fun fd hfd => ?_⟩
          rw [upd_of_ne (by show fd ≠ 1; omega)]
          exact hothers fd hfd

/-! ## First and last -/

/-- Redirections of one descriptor open their files in the same mode. -/
theorem target_eq_iff {f : Redirection Word → Bool} {m : Nat} (hm : ∀ r, f r = true → r.redir.mode = m)
    (rs : List (Redirection Word)) (x : Option File) :
    target (rs.find? f) x = target (rs.reverse.find? f) x ↔
      (rs.find? f).map Redirection.file = (rs.reverse.find? f).map Redirection.file := by
  have hnone : rs.find? f = none ↔ rs.reverse.find? f = none := by
    simp only [List.find?_eq_none, List.mem_reverse]
  cases h : rs.find? f with
  | none =>
      rw [hnone.mp h]
      exact iff_of_true rfl rfl
  | some r =>
      cases h' : rs.reverse.find? f with
      | none =>
          rw [hnone.mpr h'] at h
          cases h
      | some r' =>
          have hr := hm r (List.find?_some h)
          have hr' := hm r' (List.find?_some h')
          simp only [target, Option.map_some, Option.some.injEq, File.opened.injEq, hr, hr', redir_file, and_true]

theorem mode_of_isInput (r : Redirection α) (h : r.isInput = true) : r.redir.mode = oRdonly := by
  obtain ⟨op, file⟩ := r
  cases op with
  | less => rfl
  | more => exact absurd h (by simp [Redirection.isInput])
  | append => exact absurd h (by simp [Redirection.isInput])

theorem mode_of_isOutput (r : Redirection α) (h : r.isOutput = true) : r.redir.mode = oWronly ||| oCreate := by
  obtain ⟨op, file⟩ := r
  cases op with
  | less => exact absurd h (by simp [Redirection.isOutput])
  | more => rfl
  | append => rfl

/-- The last redirections decide exactly where the first ones name the same files. -/
theorem lastWins_iff (rs : List (Redirection Word)) (h0 : F 0 ≠ none) :
    LastWins rs F ((rs.map Redirection.redir).foldr redirect F) ↔ SameEnds rs := by
  obtain ⟨hin, hout, hothers⟩ := foldr_redirect rs h0
  unfold SameEnds
  rw [← target_eq_iff mode_of_isInput rs (F 0), ← target_eq_iff mode_of_isOutput rs (F 1), ← hin, ← hout]
  exact ⟨fun h => ⟨h.input, h.output⟩, fun h => ⟨h.1, h.2, hothers⟩⟩

/-! ## Commands of a line -/

theorem self_mem_subtrees (c : Cmd α) : c ∈ c.subtrees := by
  cases c <;> exact List.mem_cons_self

theorem subtrees_wrap {c x : Cmd α} (rs : List (Redir α)) (h : x ∈ c.subtrees) : x ∈ (Cmd.wrap rs c).subtrees := by
  induction rs using List.reverseRecOn with
  | nil => exact h
  | append_singleton rs r ih =>
      rw [wrap_concat]
      exact List.mem_cons_of_mem _ ih

theorem subtrees_backs {c x : Cmd α} (k : Nat) (h : x ∈ c.subtrees) : x ∈ (Cmd.backs k c).subtrees := by
  induction k generalizing c with
  | zero => exact h
  | succ k ih => exact ih (List.mem_cons_of_mem _ h)

mutual

/-- The commands of a line are parts of its tree. -/
theorem Line.mem_subtrees {c : Command α} : ∀ d : Line α, c ∈ d.commands → c.cmd ∈ d.cmd.subtrees
  | .single d k, h => subtrees_backs k (d.mem_subtrees h)
  | .seq d k l, h => by
      rcases List.mem_append.mp h with h | h
      · exact List.mem_cons_of_mem _ (List.mem_append_left _ (subtrees_backs k (d.mem_subtrees h)))
      · exact List.mem_cons_of_mem _ (List.mem_append_right _ (l.mem_subtrees h))

theorem Pipeline.mem_subtrees {c : Command α} : ∀ d : Pipeline α, c ∈ d.commands → c.cmd ∈ d.cmd.subtrees
  | .single d, h => Command.mem_subtrees d h
  | .pipe d l, h => by
      rcases List.mem_append.mp h with h | h
      · exact List.mem_cons_of_mem _ (List.mem_append_left _ (Command.mem_subtrees d h))
      · exact List.mem_cons_of_mem _ (List.mem_append_right _ (l.mem_subtrees h))

theorem Command.mem_subtrees {c : Command α} : ∀ d : Command α, c ∈ d.commands → c.cmd ∈ d.cmd.subtrees
  | .block l rs, h => by
      rcases List.mem_cons.mp h with rfl | h
      · exact self_mem_subtrees _
      · exact subtrees_wrap _ (l.mem_subtrees h)
  | .simple rs args, h => by
      rw [List.mem_singleton.mp h]
      exact self_mem_subtrees _

end

/-- The core of a command, which its redirections are wrapped around. -/
def Command.core : Command α → Cmd α
  | .block l _ => l.cmd
  | .simple _ args => .exec (args.map Prod.fst)

theorem Command.cmd_eq (c : Command α) : c.cmd = Cmd.wrap (c.redirs.map Redirection.redir) c.core := by
  cases c <;> rfl

theorem map_wrap {β : Type} (f : α → β) (rs : List (Redir α)) (c : Cmd α) :
    (Cmd.wrap rs c).map f = Cmd.wrap (rs.map (Redir.map f)) (c.map f) := by
  induction rs using List.reverseRecOn with
  | nil => rfl
  | append_singleton rs r ih =>
      rw [wrap_concat, List.map_append, List.map_singleton, wrap_concat, Cmd.map, ih]

theorem map_redir {β : Type} (f : α → β) (r : Redirection α) : r.redir.map f = (r.map f).redir := by
  obtain ⟨op, file⟩ := r
  cases op <;> rfl

/-- What `run_cmd` does with the redirections of a command. -/
theorem runRedirs_command (c : Command α) (f : α → Word) (F : Fds) :
    runRedirs c.redirs.length (c.cmd.map f) F =
      ((c.redirs.map (Redirection.map f)).map Redirection.redir |>.foldr redirect F, c.core.map f) := by
  have hmap : (c.redirs.map Redirection.redir).map (Redir.map f) =
    (c.redirs.map (Redirection.map f)).map Redirection.redir := by
    rw [List.map_map, List.map_map]
    exact List.map_congr_left fun r _ => map_redir f r
  have hrun := runRedirs_wrap ((c.redirs.map (Redirection.map f)).map Redirection.redir) (c.core.map f) F
  rw [List.length_map, List.length_map] at hrun
  rw [c.cmd_eq, map_wrap, hmap]
  exact hrun

end Xv6.Shell
