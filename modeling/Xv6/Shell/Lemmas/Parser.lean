import Xv6.Shell.Lemmas.Lexer

/-!
# Every tree has a derivation

The parser takes tokens from the front of the line, and what it has taken when it returns is the text of a derivation
for its result. It stops with enough fuel, for every call of a function is paid for by the tokens that are left.
-/

namespace Xv6.Shell

open Xv6.Lib

variable {s : List UInt8} {p : Nat}

/-- The parser gives up with a message. -/
def Panics (e : Halt) : Prop := ∃ msg, e = .panic msg

/-! ## Tokens and characters -/

theorem code_ne_zero (t : Token Span) : t.code ≠ 0 := by
  cases t with
  | word w => exact show ch 'a' ≠ 0 by decide
  | _ => decide

theorem code_eq_word {t : Token Span} (h : t.code = ch 'a') : ∃ w, t = .word w := by
  cases t with
  | word w => exact ⟨w, rfl⟩
  | _ => exact absurd h (by decide)

theorem heads_redir {α : Type} {t : Token α} {ts : List (Token α)} (h : heads "<>" (t :: ts) = true) :
    ∃ op : RedirOp, t = op.token := by
  cases t with
  | less => exact ⟨.less, rfl⟩
  | more => exact ⟨.more, rfl⟩
  | append => exact ⟨.append, rfl⟩
  | _ => exact nomatch (show false = true from h)

/-- The symbols that stand for one token only. -/
inductive Token.Sole : Token Span → String → Prop where
  | bar : Sole .bar "|"
  | left : Sole .left "("
  | right : Sole .right ")"
  | semi : Sole .semi ";"
  | amp : Sole .amp "&"

theorem Token.Sole.eq {t u : Token Span} {ts : List (Token Span)} {toks : String} (hu : u.Sole toks)
    (h : heads toks (t :: ts) = true) :
    t = u := by
  cases hu <;> cases t <;> first | rfl | exact nomatch (show false = true from h)

theorem Token.Sole.symbols {u : Token Span} {toks : String} (hu : u.Sole toks) :
    ∀ c ∈ toks.toList.map ch, c ∈ Shell.symbols := by
  have h : toks.toList.map ch ⊆ Shell.symbols := by
    cases hu <;> decide
  exact fun c hc => h hc

theorem Token.Sole.heads {u : Token Span} {ts : List (Token Span)} {toks : String} (hu : u.Sole toks) :
    heads toks (u :: ts) = true := by
  cases hu <;> rfl

theorem redirCmd_code (op : RedirOp) (w : Span) : redirCmd (Token.code op.token) w = Redirection.redir ⟨op, w⟩ := by
  cases op <;> rfl

theorem exists_cons_of_heads {α : Type} {toks : String} {ts : List (Token α)} (h : heads toks ts = true) :
    ∃ t ts', ts = t :: ts' := by
  cases ts with
  | nil => exact nomatch (show false = true from h)
  | cons t ts' => exact ⟨t, ts', rfl⟩

/-! ## Rules -/

section Rules

variable {α : Type} {toks : String} {Q : α → Nat → Prop} {E : Halt → Prop}

theorem wp_peek {x : Bool → ParseM α} (h0 : (0 : UInt8) ∉ s) (htoks : ∀ c ∈ toks.toList.map ch, c ∈ symbols)
    (h : ∀ p', rest s p' = rest s p → (p ≤ s.length → p' ≤ s.length) → Wp (x (heads toks (rest s p))) Q E p') :
    Wp (peek s toks >>= x) Q E p := by
  refine Wp.seq (peek_spec h0 htoks p) (fun _ hf => hf.elim) ?_
  rintro b p' ⟨rfl, hrest, rfl⟩
  exact h _ hrest (le_scan isSpace)

theorem wp_getToken {x : Tok → ParseM α} {t : Token Span} {ts : List (Token Span)} (h0 : (0 : UInt8) ∉ s)
    (hr : rest s p = t :: ts) (h : ∀ tok p', rest s p' = ts → (p ≤ s.length → p' ≤ s.length) → tok.ret = t.code →
      (∀ w, t = .word w → w = (tok.q, tok.eq)) → Wp (x tok) Q E p') : Wp (getToken s >>= x) Q E p := by
  refine Wp.seq (getToken_spec h0 p) (fun _ hf => hf.elim) ?_
  rintro tok p' ⟨hle, ⟨hnil, -⟩ | ⟨u, hcons, hret, hw⟩⟩
  · rw [hnil] at hr
    cases hr
  · rw [hr] at hcons
    obtain ⟨rfl, hts⟩ := List.cons_eq_cons.mp hcons
    exact h tok p' hts.symm hle hret hw

theorem wp_getToken_nil {x : Tok → ParseM α} (h0 : (0 : UInt8) ∉ s) (hr : rest s p = [])
    (h : ∀ tok p', rest s p' = [] → (p ≤ s.length → p' ≤ s.length) → tok.ret = 0 → Wp (x tok) Q E p') :
    Wp (getToken s >>= x) Q E p := by
  refine Wp.seq (getToken_spec h0 p) (fun _ hf => hf.elim) ?_
  rintro tok p' ⟨hle, ⟨-, hnil, hret⟩ | ⟨u, hcons, -⟩⟩
  · exact h tok p' hnil hle hret
  · rw [hr] at hcons
    cases hcons

end Rules

theorem redir_symbols : ∀ c ∈ "<>".toList.map ch, c ∈ symbols := by
  have h : "<>".toList.map ch ⊆ symbols := by decide
  exact fun c hc => h hc

theorem end_symbols : ∀ c ∈ "|)&;".toList.map ch, c ∈ symbols := by
  have h : "|)&;".toList.map ch ⊆ symbols := by decide
  exact fun c hc => h hc

/-! ## Redirections and words -/

theorem parseRedirs_sound (h0 : (0 : UInt8) ∉ s) {n : Nat} {rs : List (Redir Span)} (hn : (rest s p).length < n) :
    Wp (parseRedirs s n rs) (fun rs' p' => ∃ ds : List (Redirection Span), rs' = rs ++ ds.map Redirection.redir ∧
      rest s p = redirTokens ds ++ rest s p' ∧ heads "<>" (rest s p') = false) Panics p := by
  induction n generalizing p rs with
  | zero => exact absurd hn (Nat.not_lt_zero _)
  | succ n ih =>
      unfold parseRedirs
      refine wp_peek h0 redir_symbols fun p₁ hp₁ _ => ?_
      cases hb : heads "<>" (rest s p) with
      | false =>
          refine ⟨[], (List.append_nil rs).symm, hp₁.symm, ?_⟩
          rw [hp₁]
          exact hb
      | true =>
          obtain ⟨t, ts, hts⟩ := exists_cons_of_heads hb
          rw [hts] at hb hn hp₁
          obtain ⟨op, rfl⟩ := heads_redir hb
          rw [if_pos rfl]
          refine wp_getToken h0 hp₁ fun tok p₂ hp₂ _ hret _ => ?_
          cases hts' : ts with
          | nil =>
              refine wp_getToken_nil h0 (hp₂.trans hts') fun file p₃ _ _ hzero => ?_
              rw [wp_bind, wp_panicIf]
              exact ⟨fun _ => ⟨_, rfl⟩, fun hno => absurd (by rw [hzero]; decide) hno⟩
          | cons u us =>
              refine wp_getToken h0 (hp₂.trans hts') fun file p₃ hp₃ _ hcode hw => ?_
              rw [wp_bind, wp_panicIf]
              refine ⟨fun _ => ⟨_, rfl⟩, fun hword => ?_⟩
              obtain ⟨w, rfl⟩ := code_eq_word (hcode.symm.trans (not_not.mp hword))
              rw [hts'] at hn
              have hlen : (rest s p₃).length < n := by
                rw [hp₃]
                simp only [List.length_cons] at hn
                omega
              refine (ih hlen).post ?_
              rintro rs' p₄ ⟨ds, hrs, hrest, hend⟩
              refine ⟨⟨op, w⟩ :: ds, ?_, ?_, hend⟩
              · rw [hrs, hret, redirCmd_code, ← hw w rfl, List.append_assoc]
                rfl
              · rw [hts, hts', ← hp₃, hrest]
                rfl

theorem parseArgs_sound (h0 : (0 : UInt8) ∉ s) {n : Nat} {argv : List Span} {rs : List (Redir Span)}
    (hn : (rest s p).length < n) (hargv : argv.length < maxArgs) :
    Wp (parseArgs s n argv rs) (fun x p' => ∃ args : List (Span × List (Redirection Span)),
      x.1 = argv ++ args.map Prod.fst ∧ x.2 = rs ++ (args.flatMap Prod.snd).map Redirection.redir ∧
        x.1.length < maxArgs ∧ rest s p = argTokens args ++ rest s p') Panics p := by
  induction n generalizing p argv rs with
  | zero => exact absurd hn (Nat.not_lt_zero _)
  | succ n ih =>
      unfold parseArgs
      refine wp_peek h0 end_symbols fun p₁ hp₁ _ => ?_
      have hdone : ∀ p', rest s p' = rest s p → ∃ args : List (Span × List (Redirection Span)),
        argv = argv ++ args.map Prod.fst ∧
          rs = rs ++ (args.flatMap Prod.snd).map Redirection.redir ∧ argv.length < maxArgs ∧
            rest s p = argTokens args ++ rest s p' :=
        fun p' hp' => ⟨[], (List.append_nil _).symm, (List.append_nil _).symm, hargv, hp'.symm⟩
      cases hb : heads "|)&;" (rest s p) with
      | true => exact hdone p₁ hp₁
      | false =>
          rw [if_neg (by decide)]
          by_cases hnil : rest s p = []
          · refine wp_getToken_nil h0 (hp₁.trans hnil) fun tok p₂ hp₂ _ hzero => ?_
            rw [if_pos hzero]
            exact hdone p₂ (hp₂.trans hnil.symm)
          · obtain ⟨t, ts, hts⟩ := List.exists_cons_of_ne_nil hnil
            refine wp_getToken h0 (hp₁.trans hts) fun tok p₂ hp₂ _ hret hw => ?_
            rw [if_neg (by rw [hret]; exact code_ne_zero t), wp_bind, wp_panicIf]
            refine ⟨fun _ => ⟨_, rfl⟩, fun hword => ?_⟩
            obtain ⟨w, rfl⟩ := code_eq_word (hret.symm.trans (not_not.mp hword))
            rw [wp_bind, wp_panicIf]
            refine ⟨fun _ => ⟨_, rfl⟩, fun hroom => ?_⟩
            rw [hts, List.length_cons] at hn
            refine Wp.bind (parseRedirs_sound h0 (show (rest s p₂).length < n by rw [hp₂]; omega)) ?_
            rintro rs₁ p₃ ⟨ds, hrs, hrest, -⟩
            have hlen : (rest s p₃).length < n := by
              have h := congrArg List.length hrest
              rw [hp₂, List.length_append] at h
              omega
            refine (ih hlen (by rw [List.length_append, List.length_singleton]; omega)).post ?_
            rintro x p₄ ⟨args, hx1, hx2, hlt, hrest'⟩
            refine ⟨(w, ds) :: args, ?_, ?_, hlt, ?_⟩
            · rw [hx1, ← hw w rfl, List.append_assoc]
              rfl
            · rw [hx2, hrs, List.flatMap_cons, List.map_append, List.append_assoc]
            · rw [hts, ← hp₂, hrest, hrest', ← List.append_assoc]
              rfl

theorem parseBacks_sound (h0 : (0 : UInt8) ∉ s) {n : Nat} {cmd : Cmd Span} (hn : (rest s p).length < n) :
    Wp (parseBacks s n cmd) (fun c p' => ∃ k, c = Cmd.backs k cmd ∧ rest s p = List.replicate k .amp ++ rest s p')
      Panics p := by
  induction n generalizing p cmd with
  | zero => exact absurd hn (Nat.not_lt_zero _)
  | succ n ih =>
      unfold parseBacks
      refine wp_peek h0 Token.Sole.amp.symbols fun p₁ hp₁ _ => ?_
      cases hb : heads "&" (rest s p) with
      | false => exact ⟨0, rfl, hp₁.symm⟩
      | true =>
          obtain ⟨t, ts, hts⟩ := exists_cons_of_heads hb
          rw [hts] at hb hn hp₁
          obtain rfl := Token.Sole.amp.eq hb
          rw [if_pos rfl]
          refine wp_getToken h0 hp₁ fun tok p₂ hp₂ _ _ _ => ?_
          refine (ih (by rw [hp₂]; simpa using hn)).post ?_
          rintro c p₃ ⟨k, hc, hrest⟩
          refine ⟨k + 1, hc, ?_⟩
          rw [hts, ← hp₂, hrest]
          rfl

/-! ## Lines, pipes and commands -/

/-- What the four functions do with the fuel `n`, if it pays for the tokens that are left. -/
structure Sound (s : List UInt8) (n : Nat) : Prop where
  line : ∀ p, 4 * (rest s p).length + 4 ≤ n → Wp (parseLine s n) (fun t p' => ∃ d : Line Span, d.cmd = t ∧ d.Fits ∧
    rest s p = d.tokens ++ rest s p') Panics p
  pipe : ∀ p, 4 * (rest s p).length + 3 ≤ n → Wp (parsePipe s n) (fun t p' => ∃ d : Pipeline Span, d.cmd = t ∧ d.Fits ∧
    rest s p = d.tokens ++ rest s p') Panics p
  exec : ∀ p, 4 * (rest s p).length + 2 ≤ n → Wp (parseExec s n) (fun t p' => ∃ d : Command Span, d.cmd = t ∧ d.Fits ∧
    rest s p = d.tokens ++ rest s p') Panics p
  block : ∀ p, 4 * (rest s p).length + 1 ≤ n → Wp (parseBlock s n) (fun t p' => ∃ d : Command Span, d.cmd = t ∧ d.Fits ∧
    rest s p = d.tokens ++ rest s p') Panics p

theorem length_rest_le {ts : List (Token Span)} {p p' : Nat} (h : rest s p = ts ++ rest s p') :
    (rest s p').length ≤ (rest s p).length := by
  rw [h, List.length_append]
  exact Nat.le_add_left _ _

namespace Sound

variable {n : Nat}

theorem line_succ (h : Sound s n) (h0 : (0 : UInt8) ∉ s) (hn : 4 * (rest s p).length + 4 ≤ n + 1) :
    Wp (parseLine s (n + 1)) (fun t p' => ∃ d : Line Span, d.cmd = t ∧ d.Fits ∧ rest s p = d.tokens ++ rest s p')
      Panics p := by
  unfold parseLine
  refine Wp.bind (h.pipe p (by omega)) ?_
  rintro t p₁ ⟨d, rfl, hd, hrest⟩
  have hle := length_rest_le hrest
  refine Wp.bind (parseBacks_sound h0 (show (rest s p₁).length < n by omega)) ?_
  rintro c p₂ ⟨k, rfl, hbacks⟩
  have hle' := length_rest_le hbacks
  refine wp_peek h0 Token.Sole.semi.symbols fun p₃ hp₃ _ => ?_
  cases hb : heads ";" (rest s p₂) with
  | false =>
      refine ⟨.single d k, rfl, hd, ?_⟩
      rw [hrest, hbacks, hp₃, ← List.append_assoc]
      rfl
  | true =>
      obtain ⟨t, ts, hts⟩ := exists_cons_of_heads hb
      rw [hts] at hb hp₃ hle'
      obtain rfl := Token.Sole.semi.eq hb
      rw [List.length_cons] at hle'
      rw [if_pos rfl]
      refine wp_getToken h0 hp₃ fun tok p₄ hp₄ _ _ _ => ?_
      refine Wp.bind (h.line p₄ (by rw [hp₄]; omega)) ?_
      rintro t p₅ ⟨l, rfl, hl, hrest'⟩
      refine ⟨.seq d k l, rfl, ⟨hd, hl⟩, ?_⟩
      rw [hrest, hbacks, hts, ← hp₄, hrest', Line.tokens]
      simp only [List.append_assoc, List.cons_append]

theorem pipe_succ (h : Sound s n) (h0 : (0 : UInt8) ∉ s) (hn : 4 * (rest s p).length + 3 ≤ n + 1) :
    Wp (parsePipe s (n + 1)) (fun t p' => ∃ d : Pipeline Span, d.cmd = t ∧ d.Fits ∧ rest s p = d.tokens ++ rest s p')
      Panics p := by
  unfold parsePipe
  refine Wp.bind (h.exec p (by omega)) ?_
  rintro t p₁ ⟨d, rfl, hd, hrest⟩
  have hle := length_rest_le hrest
  refine wp_peek h0 Token.Sole.bar.symbols fun p₂ hp₂ _ => ?_
  cases hb : heads "|" (rest s p₁) with
  | false =>
      refine ⟨.single d, rfl, hd, ?_⟩
      rw [hrest, hp₂]
      rfl
  | true =>
      obtain ⟨t, ts, hts⟩ := exists_cons_of_heads hb
      rw [hts] at hb hp₂ hle
      obtain rfl := Token.Sole.bar.eq hb
      rw [List.length_cons] at hle
      rw [if_pos rfl]
      refine wp_getToken h0 hp₂ fun tok p₃ hp₃ _ _ _ => ?_
      refine Wp.bind (h.pipe p₃ (by rw [hp₃]; omega)) ?_
      rintro t p₄ ⟨l, rfl, hl, hrest'⟩
      refine ⟨.pipe d l, rfl, ⟨hd, hl⟩, ?_⟩
      rw [hrest, hts, ← hp₃, hrest', Pipeline.tokens]
      simp only [List.append_assoc, List.cons_append]

theorem exec_succ (h : Sound s n) (h0 : (0 : UInt8) ∉ s) (hn : 4 * (rest s p).length + 2 ≤ n + 1) :
    Wp (parseExec s (n + 1)) (fun t p' => ∃ d : Command Span, d.cmd = t ∧ d.Fits ∧ rest s p = d.tokens ++ rest s p')
      Panics p := by
  unfold parseExec
  refine wp_peek h0 Token.Sole.left.symbols fun p₁ hp₁ _ => ?_
  cases hb : heads "(" (rest s p) with
  | true =>
      rw [if_pos rfl, ← hp₁]
      exact h.block p₁ (by rw [hp₁]; omega)
  | false =>
      rw [if_neg (by decide), ← hp₁]
      refine Wp.bind (parseRedirs_sound h0 (show (rest s p₁).length < n by rw [hp₁]; omega)) ?_
      rintro rs p₂ ⟨ds, rfl, hrest, -⟩
      have hle := length_rest_le hrest
      rw [hp₁] at hle
      refine Wp.bind (parseArgs_sound h0 (show (rest s p₂).length < n by omega) (by decide)) ?_
      rintro x p₃ ⟨args, hx1, hx2, hlt, hrest'⟩
      refine ⟨.simple ds args, ?_, ?_, ?_⟩
      · rw [hx1, hx2, Command.cmd, List.map_append]
        rfl
      · rw [hx1, List.nil_append, List.length_map] at hlt
        exact hlt
      · rw [hrest, hrest', ← List.append_assoc]
        rfl

theorem block_succ (h : Sound s n) (h0 : (0 : UInt8) ∉ s) (hn : 4 * (rest s p).length + 1 ≤ n + 1) :
    Wp (parseBlock s (n + 1)) (fun t p' => ∃ d : Command Span, d.cmd = t ∧ d.Fits ∧ rest s p = d.tokens ++ rest s p')
      Panics p := by
  unfold parseBlock
  refine wp_peek h0 Token.Sole.left.symbols fun p₁ hp₁ _ => ?_
  rw [wp_bind, wp_panicIf]
  refine ⟨fun _ => ⟨_, rfl⟩, fun hb => ?_⟩
  rw [Bool.not_eq_false] at hb
  obtain ⟨t, ts, hts⟩ := exists_cons_of_heads hb
  rw [hts] at hb hp₁ hn
  obtain rfl := Token.Sole.left.eq hb
  rw [List.length_cons] at hn
  refine wp_getToken h0 hp₁ fun tok p₂ hp₂ _ _ _ => ?_
  refine Wp.bind (h.line p₂ (by rw [hp₂]; omega)) ?_
  rintro t p₃ ⟨l, rfl, hl, hrest⟩
  have hle := length_rest_le hrest
  refine wp_peek h0 Token.Sole.right.symbols fun p₄ hp₄ _ => ?_
  rw [wp_bind, wp_panicIf]
  refine ⟨fun _ => ⟨_, rfl⟩, fun hb' => ?_⟩
  rw [Bool.not_eq_false] at hb'
  obtain ⟨t, ts', hts'⟩ := exists_cons_of_heads hb'
  rw [hts'] at hb' hp₄ hle
  obtain rfl := Token.Sole.right.eq hb'
  rw [List.length_cons, hp₂] at hle
  refine wp_getToken h0 hp₄ fun tok' p₅ hp₅ _ _ _ => ?_
  refine Wp.bind (parseRedirs_sound h0 (show (rest s p₅).length < n by rw [hp₅]; omega)) ?_
  rintro rs p₆ ⟨ds, rfl, hrest', -⟩
  refine ⟨.block l ds, rfl, hl, ?_⟩
  rw [hts, ← hp₂, hrest, hts', ← hp₅, hrest', Command.tokens]
  simp only [List.append_assoc, List.cons_append]

end Sound

theorem sound (h0 : (0 : UInt8) ∉ s) (n : Nat) : Sound s n := by
  induction n with
  | zero => refine ⟨?_, ?_, ?_, ?_⟩ <;> exact fun p hn => absurd hn (by omega)
  | succ n ih =>
      exact ⟨fun _ => ih.line_succ h0, fun _ => ih.pipe_succ h0, fun _ => ih.exec_succ h0, fun _ => ih.block_succ h0⟩

end Xv6.Shell
