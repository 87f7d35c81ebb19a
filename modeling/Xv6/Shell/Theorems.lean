import Xv6.Shell.Lemmas.Print
import Xv6.Shell.Lemmas.Run

/-!
# The shell: main results
-/

namespace Xv6.Shell

open Xv6.Lib

variable {s : List UInt8} {t : Cmd Span} {b : Buf} {p : Nat}

/-! ## Words -/

/-- After `parse_cmd` every word and file name of the tree is, as a string in the buffer, the word of the line that it
was parsed from, and every `argv` ends with a null pointer. -/
theorem words_survive (h0 : (0 : UInt8) ∉ s) (h : parseCmd s 0 = .ok ((t, b), p)) :
    (∀ w ∈ t.words, IsWord s w ∧ IsString b w.1 (text s w)) ∧
      ∀ argv ∈ t.argvs, ∃ argc < maxArgs, (∀ i < argc, pointer argv i ≠ none) ∧ pointer argv argc = none := by
  obtain ⟨d, hd, heq⟩ := (parseCmd_sound h0).of_ok h
  obtain ⟨rfl, rfl⟩ := Prod.mk.inj heq
  refine ⟨fun w hw => ⟨hd.isWord hw, IsWord.isString hw (fun _ => hd.isWord) h0⟩,
    fun argv hargv => ⟨argv.length, d.argvs_lt hd.fits hargv, ?_, ?_⟩⟩
  · intro i hi
    rw [pointer, List.getElem?_eq_getElem hi]
    exact Option.some_ne_none _
  · rw [pointer, List.getElem?_eq_none (Nat.le_refl _)]
    rfl

/-- A line without white space. -/
def packed : List UInt8 := "ls>f".toList.map ch

def packedLine : Line Span := .single (.single (.simple [] [((0, 2), [⟨.more, (3, 4)⟩])])) 0

theorem packed_derives : packedLine.Derives packed := ⟨by decide, show 1 < maxArgs by decide⟩

theorem words_survive_packed : ∃ t b p, parseCmd packed 0 = .ok ((t, b), p) ∧ t.words = [(0, 2), (3, 4)] ∧
    IsString b 0 ("ls".toList.map ch) ∧ IsString b 3 ("f".toList.map ch) := by
  obtain ⟨_, p, hok, rfl⟩ := (parseCmd_complete (by decide) packed_derives).returns
  have h := (words_survive (by decide) hok).1
  exact ⟨_, _, p, hok, rfl, (h (0, 2) (by decide)).2, (h (3, 4) (by decide)).2⟩

/-! ## The grammar -/

/-- `parse_cmd` always ends, it returns the trees of the derivations and panics if there is none, and it parses what is
printed for a tree back into the tree. -/
theorem parse_exact (h0 : (0 : UInt8) ∉ s) :
    (∀ e, parseCmd s 0 = .error e → ∃ msg, e = .panic msg) ∧
    (∀ t, (∃ b p, parseCmd s 0 = .ok ((t, b), p)) ↔ ∃ d : Line Span, d.Derives s ∧ d.cmd = t) ∧
    ∀ t b p, parseCmd s 0 = .ok ((t, b), p) → ∃ t' b' p', parseCmd (print (t.map (text s))) 0 = .ok ((t', b'), p') ∧
      t'.map (text (print (t.map (text s)))) = t.map (text s) := by
  refine ⟨fun e he => (parseCmd_sound h0).of_error he, fun t => ⟨?_, ?_⟩, fun t b p h => ?_⟩
  · rintro ⟨b, p, h⟩
    obtain ⟨d, hd, heq⟩ := (parseCmd_sound h0).of_ok h
    exact ⟨d, hd, (Prod.mk.inj heq).1.symm⟩
  · rintro ⟨d, hd, rfl⟩
    obtain ⟨_, p, hok, rfl⟩ := (parseCmd_complete h0 hd).returns
    exact ⟨_, p, hok⟩
  · obtain ⟨d, hd, heq⟩ := (parseCmd_sound h0).of_ok h
    obtain ⟨rfl, -⟩ := Prod.mk.inj heq
    have hwords : ∀ w ∈ (d.cmd.map (text s)).words, Printable w := by
      intro w hw
      rw [words_map] at hw
      obtain ⟨v, hv, rfl⟩ := List.mem_map.mp hw
      exact (hd.isWord hv).printable h0
    obtain ⟨h0', d', hd', hmap⟩ := print_derives (d.proper hd.fits).map hwords
    obtain ⟨_, p', hok, rfl⟩ := (parseCmd_complete h0' hd').returns
    exact ⟨_, _, p', hok, hmap⟩

theorem parse_exact_packed : print (packedLine.cmd.map (text packed)) = "> f ls ".toList.map ch ∧
    ∃ t b p, parseCmd ("> f ls ".toList.map ch) 0 = .ok ((t, b), p) ∧
      t.map (text ("> f ls ".toList.map ch)) = packedLine.cmd.map (text packed) := by
  have hprint : print (packedLine.cmd.map (text packed)) = "> f ls ".toList.map ch := by decide
  obtain ⟨-, hiff, hback⟩ := parse_exact (s := packed) (by decide)
  obtain ⟨b, p, hok⟩ := (hiff _).mpr ⟨packedLine, packed_derives, rfl⟩
  rw [← hprint]
  exact ⟨rfl, hback _ b p hok⟩

/-! ## Redirections -/

/-- The textually last redirections of a command decide about its descriptors exactly if they name the same files as the
first ones. -/
theorem redirections_iff (h0 : (0 : UInt8) ∉ s) (h : parseCmd s 0 = .ok ((t, b), p)) :
    (∃ d : Line Span, d.Derives s) ∧ ∀ d : Line Span, d.Derives s → d.cmd = t ∧ ∀ c ∈ d.commands, c.cmd ∈ t.subtrees ∧
      ∀ F : Fds, F 0 ≠ none → ∃ F', runRedirs c.redirs.length (c.cmd.map (text s)) F = (F', c.core.map (text s)) ∧
        (LastWins (c.redirs.map (Redirection.map (text s))) F F' ↔
          SameEnds (c.redirs.map (Redirection.map (text s)))) := by
  obtain ⟨d₀, hd₀, -⟩ := (parseCmd_sound h0).of_ok h
  refine ⟨⟨d₀, hd₀⟩, fun d hd => ?_⟩
  obtain rfl := (Prod.mk.inj ((parseCmd_complete h0 hd).of_ok h)).1
  exact ⟨rfl, fun c hc => ⟨d.mem_subtrees hc, fun F hF => ⟨_, runRedirs_command c (text s) F, lastWins_iff _ hF⟩⟩⟩

/-- The descriptors of the shell. -/
def shellFds : Fds := fun fd => if fd < 3 then some (.given fd) else none

theorem redirections_iff_packed :
    ∃ F', runRedirs 1 (packedLine.cmd.map (text packed)) shellFds = (F', .exec ["ls".toList.map ch]) ∧
    F' 1 = some (.opened ("f".toList.map ch) (oWronly ||| oCreate)) := by
  obtain ⟨_, p, hok, rfl⟩ := (parseCmd_complete (by decide) packed_derives).returns
  obtain ⟨-, hall⟩ := redirections_iff (by decide) hok
  obtain ⟨-, hcmd⟩ := (hall packedLine packed_derives).2 _ (List.mem_singleton.mpr rfl)
  obtain ⟨F', hrun, hiff⟩ := hcmd shellFds (by decide)
  exact ⟨F', hrun, (hiff.mpr ⟨rfl, rfl⟩).output⟩

/-- Two redirections of one descriptor. -/
def twoOutputs : List UInt8 := "a >f >g".toList.map ch

def twoOutputsCommand : Command Span := .simple [] [((0, 1), [⟨.more, (3, 4)⟩, ⟨.more, (6, 7)⟩])]

theorem twoOutputs_derives : (Line.single (.single twoOutputsCommand) 0).Derives twoOutputs :=
  ⟨by decide, show 1 < maxArgs by decide⟩

/-- The output goes to the first file. -/
theorem twoOutputs_first : ∃ t b p F', parseCmd twoOutputs 0 = .ok ((t, b), p) ∧
    runRedirs 2 (t.map (text twoOutputs)) shellFds = (F', .exec ["a".toList.map ch]) ∧
    F' 1 = some (.opened ("f".toList.map ch) (oWronly ||| oCreate)) ∧
    ¬ LastWins (twoOutputsCommand.redirs.map (Redirection.map (text twoOutputs))) shellFds F' := by
  obtain ⟨_, p, hok, rfl⟩ := (parseCmd_complete (by decide) twoOutputs_derives).returns
  refine ⟨_, _, p, _, hok, runRedirs_command twoOutputsCommand (text twoOutputs) shellFds, ?_, ?_⟩
  · rw [(foldr_redirect _ (by decide)).2.1]
    decide
  · rw [lastWins_iff _ (by decide)]
    exact fun hsame => absurd hsame.2 (by decide)

/-! ## Descriptors of the processes -/

theorem Cmd.Proper.standard {t : Cmd Word} (h : t.Proper) : t.Standard := by
  induction t with
  | exec argv => trivial
  | redir r c ih =>
      refine ⟨?_, ih h.2⟩
      rw [← h.1, Redirection.redir]
      split <;> simp
  | pipe l r ihl ihr => exact ⟨ihl h.1, ihr h.2⟩
  | list l r ihl ihr => exact ⟨ihl h.1, ihr h.2⟩
  | back c ih => exact ih h

/-- The redirections of a tree that was parsed are of the descriptors 0 and 1. -/
theorem parsed_standard (h0 : (0 : UInt8) ∉ s) (h : parseCmd s 0 = .ok ((t, b), p)) : (t.map (text s)).Standard := by
  obtain ⟨d, hd, heq⟩ := (parseCmd_sound h0).of_ok h
  obtain ⟨rfl, -⟩ := Prod.mk.inj heq
  exact (d.proper hd.fits).map.standard

/-- A process that reaches `exec` has the standard descriptors. The commands of a pipe begin with the two ends of the
pipe and otherwise with the descriptors of the node. Nobody holds the write end after the processes of the left command
are gone and the others have closed it. -/
theorem descriptors_wired {σ : State} (h : machine.Reachable σ) :
    (∀ P ∈ σ.procs, P.status = .shell → ∀ argv code, P.code = .exec argv :: code → Standard P.fds) ∧
    (∀ P ∈ σ.procs, P.status = .shell → ∀ k cmd code, P.node = some k → P.code = .run cmd :: code →
      (P.side = .left → P.fds = upd (σ.base k) 1 (some (.writeEnd k))) ∧
      (P.side = .right → P.fds = upd (σ.base k) 0 (some (.readEnd k)))) ∧
    ∀ k, (∀ P ∈ σ.procs, k ∈ P.inside → P.status = .exited ∨ P.status = .reaped) →
      (∀ P ∈ σ.procs, P.node = some k → Stmt.close .p1 ∉ P.code) →
      ∀ P ∈ σ.procs, ∀ fd, P.fds fd ≠ some (.writeEnd k) := by
  have hinv := inv h
  refine ⟨fun P hP hs argv code hcode => ?_, fun P hP hs k cmd code hnode hcode => ?_,
    fun k hleft hclosed P hP fd hfd => ?_⟩
  · have hsafe := (hinv P hP).shell hs
    rw [hcode] at hsafe
    exact hsafe.2.2
  · have hsafe := (hinv P hP).shell hs
    rw [hcode] at hsafe
    exact hsafe.2.2.2.2 k (σ.base k) (by rw [Proc.view, hnode]; rfl)
  · have hok := hinv P hP
    have hgone : ∀ hg : P.status = .exited ∨ P.status = .reaped, False := fun hg => by
      rw [hok.gone hg fd] at hfd
      cases hfd
    -- a holder is inside of the pipe or has still to close the write end
    cases hs : P.status with
    | shell =>
        rcases (hok.shell hs).owned fd k hfd with hin | ⟨hnode, hmem⟩
        · exact hgone (hleft P hP hin)
        · refine hclosed P hP ?_ hmem
          rw [Proc.view, Option.map_map] at hnode
          simpa using hnode
    | program => exact hgone (hleft P hP ((hok.program hs).2 fd k hfd))
    | exited => exact hgone (Or.inl hs)
    | reaped => exact hgone (Or.inr hs)

/-- The shell before the command `a | b`. -/
def aPipeB : State where
  procs := [⟨.shell, [.run (.pipe (.exec ["a".toList.map ch]) (.exec ["b".toList.map ch]))], shellFds, (0, 0), none,
    none, .none, []⟩]
  pipes := 0
  base := fun _ => shellFds

theorem aPipeB_starts : Starts aPipeB := by
  refine ⟨⟨.pipe (.exec _) (.exec _), shellFds, ⟨trivial, trivial⟩, fun fd => ?_, fun fd f hf => ?_, rfl⟩, rfl⟩
  · unfold shellFds
    split <;> simp [*]
  · unfold shellFds at hf
    split at hf
    · exact ⟨fd, (Option.some.inj hf).symm⟩
    · cases hf

/-- The processes of `a` and `b` are in their programs, and then the one of `a` exits. -/
def aExits : List Action :=
  List.replicate 6 (.run 0) ++ List.replicate 6 (.run 1) ++ List.replicate 6 (.run 2) ++ [.exit 1]

def Stmt.isCloseP1 : Stmt → Bool
  | .close .p1 => true
  | _ => false

theorem descriptors_wired_aPipeB :
    ∃ σ, machine.Reachable σ ∧ (∃ P ∈ σ.procs, P.status = .program ∧ P.fds 0 = some (.readEnd 0)) ∧
    ∀ P ∈ σ.procs, ∀ fd, P.fds fd ≠ some (.writeEnd 0) := by
  obtain ⟨σ, hσ, hcheck⟩ := Machine.Reachable.of_run (M := machine) (l := aExits) (s := aPipeB)
    (P := fun σ => (σ.procs.any fun P => P.status = .program ∧ P.fds 0 = some (.readEnd 0)) &&
      σ.procs.all fun P => (P.inside = [] ∨ P.status = .exited) ∧ P.code.all fun c => !c.isCloseP1)
    (.start aPipeB_starts) (by decide +kernel)
  obtain ⟨hany, hall⟩ := Bool.and_eq_true_iff.mp hcheck
  refine ⟨σ, hσ, ?_, (descriptors_wired hσ).2.2 0 (fun P hP hin => ?_) fun P hP _ hmem => ?_⟩
  · obtain ⟨P, hP, h⟩ := List.any_eq_true.mp hany
    exact ⟨P, hP, of_decide_eq_true h⟩
  · refine (of_decide_eq_true (List.all_eq_true.mp hall P hP)).1.elim (fun hnil => ?_) Or.inl
    rw [hnil] at hin
    cases hin
  · exact absurd (List.all_eq_true.mp (of_decide_eq_true (List.all_eq_true.mp hall P hP)).2 _ hmem) (by decide)

end Xv6.Shell
