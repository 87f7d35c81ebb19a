import Xv6.Shell.Lemmas.Parser

/-!
# Every derivation is found

The parser is a left inverse of the text of a derivation: when the tokens that are left begin with those of a
derivation, and go on with a token that may follow it, the parser returns the tree of the derivation and leaves what
follows.
-/

namespace Xv6.Shell

open Xv6.Lib

variable {s : List UInt8} {p n : Nat} {ts : List (Token Span)}

/-- The tokens `ts` are left at the position. -/
structure Left (s : List UInt8) (ts : List (Token Span)) (p : Nat) : Prop where
  le : p ≤ s.length
  rest : rest s p = ts

section Rules

variable {α : Type} {toks : String} {Q : α → Nat → Prop} {E : Halt → Prop}

theorem Left.peek {x : Bool → ParseM α} (h : Left s ts p) (h0 : (0 : UInt8) ∉ s)
    (htoks : ∀ c ∈ toks.toList.map ch, c ∈ symbols) (hx : ∀ p', Left s ts p' → Wp (x (heads toks ts)) Q E p') :
    Wp (peek s toks >>= x) Q E p := by
  refine wp_peek h0 htoks fun p' hp' hle => ?_
  rw [h.rest] at hp' ⊢
  exact hx p' ⟨hle h.le, hp'⟩

theorem Left.getToken {x : Tok → ParseM α} {t : Token Span} (h : Left s (t :: ts) p) (h0 : (0 : UInt8) ∉ s)
    (hx : ∀ tok p', Left s ts p' → tok.ret = t.code → (∀ w, t = .word w → w = (tok.q, tok.eq)) → Wp (x tok) Q E p') :
    Wp (getToken s >>= x) Q E p :=
  wp_getToken h0 h.rest fun tok p' hp' hle hret hw => hx tok p' ⟨hle h.le, hp'⟩ hret hw

end Rules

/-! ## What may follow -/

/-- The tokens end, or go on with one of `l`. -/
def Ends (l ts : List (Token Span)) : Prop := ∀ t ts', ts = t :: ts' → t ∈ l

def afterLine : List (Token Span) := [.right]
def afterPipe : List (Token Span) := [.right, .semi, .amp]
def afterCmd : List (Token Span) := [.right, .semi, .amp, .bar]

theorem ends_cons {l : List (Token Span)} {t : Token Span} (h : t ∈ l) : Ends l (t :: ts) :=
  fun _ _ he => (List.cons_eq_cons.mp he).1 ▸ h

theorem Ends.mono {l l' : List (Token Span)} (h : Ends l ts) (hl : ∀ t ∈ l, t ∈ l') : Ends l' ts :=
  fun t ts' he => hl t (h t ts' he)

theorem Ends.heads_eq_false {l : List (Token Span)} {toks : String} (h : Ends l ts)
    (hl : ∀ t ∈ l, heads toks [t] = false) :
    heads toks ts = false := by
  cases ts with
  | nil => rfl
  | cons t ts => exact hl t (h t ts rfl)

theorem ends_amps {k : Nat} (h : Ends afterPipe ts) : Ends afterPipe (List.replicate k .amp ++ ts) := by
  cases k with
  | zero => exact h
  | succ k => exact ends_cons (by decide)

/-! ## Redirections and words -/

theorem heads_redir_token (op : RedirOp) : heads "<>" ((op.token : Token Span) :: ts) = true := by
  cases op <;> rfl

theorem parseRedirs_complete (h0 : (0 : UInt8) ∉ s) {ds : List (Redirection Span)} {rs : List (Redir Span)}
    (h : Left s (redirTokens ds ++ ts) p) (hend : heads "<>" ts = false) (hn : ds.length < n) :
    Wp (parseRedirs s n rs) (fun rs' p' => rs' = rs ++ ds.map Redirection.redir ∧ Left s ts p') (fun _ => False) p := by
  induction ds generalizing n p rs with
  | nil =>
      obtain ⟨n, rfl⟩ := Nat.exists_eq_add_of_lt hn
      unfold parseRedirs
      refine h.peek h0 redir_symbols fun p₁ h₁ => ?_
      rw [show redirTokens [] ++ ts = ts from rfl, hend]
      exact ⟨(List.append_nil rs).symm, h₁⟩
  | cons d ds ih =>
      obtain ⟨n, rfl⟩ : ∃ k, n = k + 1 := Nat.exists_eq_add_one.mpr (Nat.zero_lt_of_lt hn)
      have h : Left s (d.op.token :: .word d.file :: (redirTokens ds ++ ts)) p := h
      unfold parseRedirs
      refine h.peek h0 redir_symbols fun p₁ h₁ => ?_
      rw [heads_redir_token, if_pos rfl]
      refine h₁.getToken h0 fun tok p₂ h₂ hret _ => h₂.getToken h0 fun file p₃ h₃ hfile hw => ?_
      rw [wp_bind, wp_panicIf]
      refine ⟨fun hno => absurd hfile hno, fun _ => ?_⟩
      refine (ih h₃ (Nat.lt_of_succ_lt_succ hn)).post ?_
      rintro rs' p₄ ⟨rfl, h₄⟩
      refine ⟨?_, h₄⟩
      rw [hret, redirCmd_code, ← hw _ rfl, List.append_assoc]
      rfl

theorem length_redirTokens (ds : List (Redirection Span)) : (redirTokens ds).length = 2 * ds.length := by
  induction ds with
  | nil => rfl
  | cons d ds ih =>
      show (redirTokens ds).length + 2 = _
      rw [ih, List.length_cons]
      omega

/-- After the redirections of a word comes the next word, or the end of the command. -/
theorem heads_args {toks : String} {args : List (Span × List (Redirection Span))} (h : Ends afterCmd ts)
    (htoks : ∀ t ∈ afterCmd, heads toks [t] = false) : heads toks (argTokens args ++ ts) = false := by
  cases args with
  | nil => exact h.heads_eq_false htoks
  | cons a args => rfl

theorem parseArgs_complete (h0 : (0 : UInt8) ∉ s) {args : List (Span × List (Redirection Span))} {argv : List Span}
    {rs : List (Redir Span)} (h : Left s (argTokens args ++ ts) p) (hend : Ends afterCmd ts)
    (hfit : argv.length + args.length < maxArgs) (hn : (argTokens args).length < n) :
    Wp (parseArgs s n argv rs) (fun x p' => x =
      (argv ++ args.map Prod.fst, rs ++ (args.flatMap Prod.snd).map Redirection.redir) ∧
      Left s ts p') (fun _ => False) p := by
  induction args generalizing n p argv rs with
  | nil =>
      obtain ⟨n, rfl⟩ : ∃ k, n = k + 1 := Nat.exists_eq_add_one.mpr (Nat.zero_lt_of_lt hn)
      have h : Left s ts p := h
      have hdone : (argv, rs) = (argv ++ [], rs ++ []) := by rw [List.append_nil, List.append_nil]
      unfold parseArgs
      refine h.peek h0 end_symbols fun p₁ h₁ => ?_
      cases hts : ts with
      | nil =>
          rw [hts] at h₁
          rw [if_neg (by decide)]
          refine wp_getToken_nil h0 h₁.rest fun tok p₂ hp₂ hle hzero => ?_
          rw [if_pos hzero]
          exact ⟨hdone, hle h₁.le, hp₂⟩
      | cons t ts' =>
          have hheads : ∀ u ∈ afterCmd, heads "|)&;" [u] = true := by decide
          rw [if_pos (show heads "|)&;" (t :: ts') = true from hheads t (hend t ts' hts)), ← hts]
          exact ⟨hdone, h₁⟩
  | cons a args ih =>
      obtain ⟨n, rfl⟩ : ∃ k, n = k + 1 := Nat.exists_eq_add_one.mpr (Nat.zero_lt_of_lt hn)
      have h : Left s (.word a.1 :: (redirTokens a.2 ++ (argTokens args ++ ts))) p := by
        have h' := h
        rw [argTokens, List.flatMap_cons, List.append_assoc] at h'
        exact h'
      have hlen : (argTokens (a :: args)).length = 2 * a.2.length + 1 + (argTokens args).length := by
        rw [argTokens, List.flatMap_cons, List.length_append, List.length_cons, length_redirTokens]
        rfl
      rw [List.length_cons] at hfit
      unfold parseArgs
      refine h.peek h0 end_symbols fun p₁ h₁ => ?_
      rw [if_neg (show ¬ heads "|)&;" (Token.word a.1 :: _) = true from Bool.false_ne_true)]
      refine h₁.getToken h0 fun tok p₂ h₂ hret hw => ?_
      rw [if_neg (by rw [hret]; exact code_ne_zero _), wp_bind, wp_panicIf]
      refine ⟨fun hno => absurd hret hno, fun _ => ?_⟩
      rw [wp_bind, wp_panicIf]
      refine ⟨fun hno => absurd hno (by omega), fun _ => ?_⟩
      refine Wp.bind (parseRedirs_complete h0 h₂ (heads_args hend (by decide)) (by omega)) ?_
      rintro rs₁ p₃ ⟨rfl, h₃⟩
      refine (ih h₃ (by rw [List.length_append, List.length_singleton]; omega) (by omega)).post ?_
      rintro x p₄ ⟨rfl, h₄⟩
      refine ⟨?_, h₄⟩
      rw [← hw _ rfl, List.flatMap_cons, List.map_append, List.append_assoc, List.append_assoc]
      rfl

theorem parseBacks_complete (h0 : (0 : UInt8) ∉ s) {k : Nat} {cmd : Cmd Span}
    (h : Left s (List.replicate k .amp ++ ts) p) (hend : heads "&" ts = false) (hn : k < n) :
    Wp (parseBacks s n cmd) (fun c p' => c = Cmd.backs k cmd ∧ Left s ts p') (fun _ => False) p := by
  induction k generalizing n p cmd with
  | zero =>
      obtain ⟨n, rfl⟩ : ∃ k, n = k + 1 := Nat.exists_eq_add_one.mpr hn
      have h : Left s ts p := h
      unfold parseBacks
      refine h.peek h0 Token.Sole.amp.symbols fun p₁ h₁ => ?_
      rw [hend]
      exact ⟨rfl, h₁⟩
  | succ k ih =>
      obtain ⟨n, rfl⟩ : ∃ k, n = k + 1 := Nat.exists_eq_add_one.mpr (Nat.zero_lt_of_lt hn)
      have h : Left s (.amp :: (List.replicate k .amp ++ ts)) p := h
      unfold parseBacks
      refine h.peek h0 Token.Sole.amp.symbols fun p₁ h₁ => ?_
      rw [if_pos Token.Sole.amp.heads]
      exact h₁.getToken h0 fun tok p₂ h₂ _ _ => ih h₂ (by omega)

/-! ## Lines, pipes and commands -/

/-- What the four functions find with the fuel `n`. -/
structure Complete (s : List UInt8) (n : Nat) : Prop where
  line : ∀ (d : Line Span) ts p, d.Fits → Ends afterLine ts → Left s (d.tokens ++ ts) p →
    4 * (d.tokens ++ ts).length + 4 ≤ n → Wp (parseLine s n) (fun t p' => t = d.cmd ∧ Left s ts p') (fun _ => False) p
  pipe : ∀ (d : Pipeline Span) ts p, d.Fits → Ends afterPipe ts → Left s (d.tokens ++ ts) p →
    4 * (d.tokens ++ ts).length + 3 ≤ n → Wp (parsePipe s n) (fun t p' => t = d.cmd ∧ Left s ts p') (fun _ => False) p
  exec : ∀ (d : Command Span) ts p, d.Fits → Ends afterCmd ts → Left s (d.tokens ++ ts) p →
    4 * (d.tokens ++ ts).length + 2 ≤ n → Wp (parseExec s n) (fun t p' => t = d.cmd ∧ Left s ts p') (fun _ => False) p
  block : ∀ (l : Line Span) rs ts p, l.Fits → Ends afterCmd ts → Left s ((Command.block l rs).tokens ++ ts) p →
    4 * ((Command.block l rs).tokens ++ ts).length + 1 ≤ n →
    Wp (parseBlock s n) (fun t p' => t = (Command.block l rs).cmd ∧ Left s ts p') (fun _ => False) p

namespace Complete

theorem line_succ (h : Complete s n) (h0 : (0 : UInt8) ∉ s) {d : Line Span} (hd : d.Fits) (hend : Ends afterLine ts)
    (hleft : Left s (d.tokens ++ ts) p) (hn : 4 * (d.tokens ++ ts).length + 4 ≤ n + 1) :
    Wp (parseLine s (n + 1)) (fun t p' => t = d.cmd ∧ Left s ts p') (fun _ => False) p := by
  unfold parseLine
  cases d with
  | single d k =>
      rw [Line.tokens, List.append_assoc] at hleft hn
      refine Wp.bind (h.pipe d _ p hd (ends_amps (hend.mono (by decide))) hleft (by omega)) ?_
      rintro t p₁ ⟨rfl, h₁⟩
      rw [List.length_append, List.length_append, List.length_replicate] at hn
      refine Wp.bind (parseBacks_complete h0 h₁ (hend.heads_eq_false (by decide)) (by omega)) ?_
      rintro c p₂ ⟨rfl, h₂⟩
      refine h₂.peek h0 Token.Sole.semi.symbols fun p₃ h₃ => ?_
      rw [hend.heads_eq_false (by decide)]
      exact ⟨rfl, h₃⟩
  | seq d k l =>
      rw [Line.tokens, List.append_assoc, List.append_assoc, List.cons_append] at hleft hn
      refine Wp.bind (h.pipe d _ p hd.1 (ends_amps (ends_cons (by decide))) hleft (by omega)) ?_
      rintro t p₁ ⟨rfl, h₁⟩
      rw [List.length_append, List.length_append, List.length_replicate, List.length_cons] at hn
      refine Wp.bind (parseBacks_complete h0 h₁ rfl (by omega)) ?_
      rintro c p₂ ⟨rfl, h₂⟩
      refine h₂.peek h0 Token.Sole.semi.symbols fun p₃ h₃ => ?_
      rw [if_pos Token.Sole.semi.heads]
      refine h₃.getToken h0 fun tok p₄ h₄ _ _ => ?_
      refine Wp.bind (h.line l ts p₄ hd.2 hend h₄ (by omega)) ?_
      rintro t p₅ ⟨rfl, h₅⟩
      exact ⟨rfl, h₅⟩

theorem pipe_succ (h : Complete s n) (h0 : (0 : UInt8) ∉ s) {d : Pipeline Span} (hd : d.Fits) (hend : Ends afterPipe ts)
    (hleft : Left s (d.tokens ++ ts) p) (hn : 4 * (d.tokens ++ ts).length + 3 ≤ n + 1) :
    Wp (parsePipe s (n + 1)) (fun t p' => t = d.cmd ∧ Left s ts p') (fun _ => False) p := by
  unfold parsePipe
  cases d with
  | single d =>
      rw [Pipeline.tokens] at hleft hn
      refine Wp.bind (h.exec d ts p hd (hend.mono (by decide)) hleft (by omega)) ?_
      rintro t p₁ ⟨rfl, h₁⟩
      refine h₁.peek h0 Token.Sole.bar.symbols fun p₂ h₂ => ?_
      rw [hend.heads_eq_false (by decide)]
      exact ⟨rfl, h₂⟩
  | pipe d l =>
      rw [Pipeline.tokens, List.append_assoc, List.cons_append] at hleft hn
      refine Wp.bind (h.exec d _ p hd.1 (ends_cons (by decide)) hleft (by omega)) ?_
      rintro t p₁ ⟨rfl, h₁⟩
      refine h₁.peek h0 Token.Sole.bar.symbols fun p₂ h₂ => ?_
      rw [if_pos Token.Sole.bar.heads]
      refine h₂.getToken h0 fun tok p₃ h₃ _ _ => ?_
      rw [List.length_append, List.length_cons] at hn
      refine Wp.bind (h.pipe l ts p₃ hd.2 hend h₃ (by omega)) ?_
      rintro t p₄ ⟨rfl, h₄⟩
      exact ⟨rfl, h₄⟩

theorem exec_succ (h : Complete s n) (h0 : (0 : UInt8) ∉ s) {d : Command Span} (hd : d.Fits) (hend : Ends afterCmd ts)
    (hleft : Left s (d.tokens ++ ts) p) (hn : 4 * (d.tokens ++ ts).length + 2 ≤ n + 1) :
    Wp (parseExec s (n + 1)) (fun t p' => t = d.cmd ∧ Left s ts p') (fun _ => False) p := by
  unfold parseExec
  refine hleft.peek h0 Token.Sole.left.symbols fun p₁ h₁ => ?_
  cases d with
  | block l rs =>
      rw [if_pos (show heads "(" ((Command.block l rs).tokens ++ ts) = true from Token.Sole.left.heads)]
      exact h.block l rs ts p₁ hd hend h₁ (by omega)
  | simple rs args =>
      have hhead : heads "(" ((Command.simple rs args).tokens ++ ts) = false := by
        rw [Command.tokens, List.append_assoc]
        cases rs with
        | nil => exact heads_args hend (by decide)
        | cons r rs =>
            obtain ⟨op, file⟩ := r
            cases op <;> rfl
      rw [if_neg (by rw [hhead]; decide)]
      rw [Command.tokens, List.append_assoc] at h₁ hn
      rw [List.length_append, List.length_append, length_redirTokens] at hn
      refine Wp.bind (parseRedirs_complete h0 h₁ (heads_args hend (by decide)) (by omega)) ?_
      rintro rs' p₂ ⟨rfl, h₂⟩
      refine Wp.bind (parseArgs_complete h0 h₂ hend (by rw [List.length_nil, Nat.zero_add]; exact hd) (by omega)) ?_
      rintro x p₃ ⟨rfl, h₃⟩
      refine ⟨?_, h₃⟩
      rw [Command.cmd, List.map_append]
      rfl

theorem block_succ (h : Complete s n) (h0 : (0 : UInt8) ∉ s) {l : Line Span}
    {rs : List (Redirection Span)} (hl : l.Fits) (hend : Ends afterCmd ts)
    (hleft : Left s ((Command.block l rs).tokens ++ ts) p)
    (hn : 4 * ((Command.block l rs).tokens ++ ts).length + 1 ≤ n + 1) :
    Wp (parseBlock s (n + 1)) (fun t p' => t = (Command.block l rs).cmd ∧ Left s ts p') (fun _ => False) p := by
  unfold parseBlock
  rw [Command.tokens, List.append_assoc, List.cons_append, List.cons_append] at hleft hn
  rw [List.length_cons, List.length_append, List.length_cons, List.length_append, length_redirTokens] at hn
  refine hleft.peek h0 Token.Sole.left.symbols fun p₁ h₁ => ?_
  rw [wp_bind, wp_panicIf]
  refine ⟨fun hno => absurd hno (by rw [Token.Sole.left.heads]; decide), fun _ => ?_⟩
  refine h₁.getToken h0 fun tok p₂ h₂ _ _ => ?_
  refine Wp.bind (h.line l _ p₂ hl (ends_cons (by decide)) h₂
    (by rw [List.length_append, List.length_cons, List.length_append, length_redirTokens]; omega)) ?_
  rintro t p₃ ⟨rfl, h₃⟩
  refine h₃.peek h0 Token.Sole.right.symbols fun p₄ h₄ => ?_
  rw [wp_bind, wp_panicIf]
  refine ⟨fun hno => absurd hno (by rw [Token.Sole.right.heads]; decide), fun _ => ?_⟩
  refine h₄.getToken h0 fun tok' p₅ h₅ _ _ => ?_
  refine Wp.bind (parseRedirs_complete h0 h₅ (hend.heads_eq_false (by decide)) (by omega)) ?_
  rintro rs' p₆ ⟨rfl, h₆⟩
  exact ⟨rfl, h₆⟩

end Complete

theorem complete (h0 : (0 : UInt8) ∉ s) (n : Nat) : Complete s n := by
  induction n with
  | zero => refine ⟨?_, ?_, ?_, ?_⟩ <;> intros <;> omega
  | succ n ih =>
      exact ⟨fun _ _ _ hd hend hleft => ih.line_succ h0 hd hend hleft,
        fun _ _ _ hd hend hleft => ih.pipe_succ h0 hd hend hleft,
          fun _ _ _ hd hend hleft => ih.exec_succ h0 hd hend hleft,
          fun _ _ _ _ hl hend hleft => ih.block_succ h0 hl hend hleft⟩

/-! ## The whole line -/

theorem rest_zero (s : List UInt8) : rest s 0 = tokens s := rfl

theorem length_tokens_le (s : List UInt8) : (tokens s).length ≤ s.length := length_lex_le .nothing 0 s

theorem rest_of_scan_eq (h : scan isSpace s p = s.length) : rest s p = [] := by
  rw [← rest_scan, h]
  exact rest_nil (List.drop_eq_nil_of_le (Nat.le_refl _))

/-- The scan for leftovers stops at the end if no token is left. -/
theorem Left.scan_eq (h : Left s [] p) (h0 : (0 : UInt8) ∉ s) : scan isSpace s p = s.length := by
  refine Nat.le_antisymm (le_scan isSpace h.le) (List.drop_eq_nil_iff.mp ?_)
  rcases scan_space_cases s p with hd | ⟨c, cs, hcons, hs⟩
  · exact hd
  · obtain ⟨t, e, -, hrest, -⟩ := tokenAt_cons h0 hcons hs
    rw [rest_scan, h.rest] at hrest
    cases hrest

theorem no_symbols : ∀ c ∈ "".toList.map ch, c ∈ symbols := fun _ hc => nomatch hc

/-- A tree that the parser returns has a derivation, and otherwise the parser gives up. -/
theorem parseCmd_sound (h0 : (0 : UInt8) ∉ s) :
    Wp (parseCmd s) (fun x _ => ∃ d : Line Span, d.Derives s ∧ x = (d.cmd, nullTerminate d.cmd (charAt s)))
      Panics 0 := by
  have hlen := length_tokens_le s
  unfold parseCmd
  refine Wp.bind ((sound h0 _).line 0 (by rw [rest_zero]; omega)) ?_
  rintro t p₁ ⟨d, rfl, hd, hrest⟩
  refine Wp.seq (peek_spec h0 no_symbols p₁) (fun _ hf => hf.elim) ?_
  rintro b p₂ ⟨rfl, -, -⟩
  rw [wp_bind, wp_get, wp_bind, wp_panicIf]
  refine ⟨fun _ => ⟨_, rfl⟩, fun hend => ⟨d, ⟨?_, hd⟩, rfl⟩⟩
  rw [rest_of_scan_eq (not_not.mp hend), List.append_nil] at hrest
  exact hrest.symm

/-- The parser returns the tree of every derivation. -/
theorem parseCmd_complete (h0 : (0 : UInt8) ∉ s) {d : Line Span} (hd : d.Derives s) :
    Wp (parseCmd s) (fun x _ => x = (d.cmd, nullTerminate d.cmd (charAt s))) (fun _ => False) 0 := by
  have hlen := length_tokens_le s
  have hleft : Left s (d.tokens ++ []) 0 := ⟨Nat.zero_le _, by rw [List.append_nil, hd.tokens, rest_zero]⟩
  unfold parseCmd
  refine Wp.bind ((complete h0 _).line d [] 0 hd.fits (fun _ _ he => nomatch he) hleft
    (by rw [List.append_nil, hd.tokens]; omega)) ?_
  rintro t p₁ ⟨rfl, h₁⟩
  refine Wp.seq (peek_spec h0 no_symbols p₁) (fun _ hf => hf.elim) ?_
  rintro b p₂ ⟨rfl, -, -⟩
  rw [wp_bind, wp_get, wp_bind, wp_panicIf]
  exact ⟨fun hno => absurd (h₁.scan_eq h0) hno, fun _ => rfl⟩

end Xv6.Shell
