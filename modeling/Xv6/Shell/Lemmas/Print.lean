import Xv6.Shell.Lemmas.Redirect
import Xv6.Shell.Print

/-!
# Printed trees are parsed back

The derivation that is printed stands for the tree, its tokens come back from the text with slices for words, and a
derivation over the words is one over the slices.
-/

namespace Xv6.Shell

open Xv6.Lib

variable {α β : Type} {s cs : List UInt8} {p : Nat}

/-! ## Trees of derivations -/

/-- The trees that derivations stand for. -/
def Cmd.Proper : Cmd α → Prop
  | .exec argv => argv.length < maxArgs
  | .redir r cmd => r.redirection.redir = r ∧ cmd.Proper
  | .pipe left right => left.Proper ∧ right.Proper
  | .list left right => left.Proper ∧ right.Proper
  | .back cmd => cmd.Proper

theorem wrap_proper {rs : List (Redirection α)} {c : Cmd α} (h : c.Proper) :
    (Cmd.wrap (rs.map Redirection.redir) c).Proper := by
  induction rs using List.reverseRecOn with
  | nil => exact h
  | append_singleton rs r ih =>
      rw [List.map_append, List.map_singleton, wrap_concat]
      refine ⟨?_, ih⟩
      obtain ⟨op, file⟩ := r
      cases op <;> rfl

theorem backs_proper {c : Cmd α} (k : Nat) (h : c.Proper) : (Cmd.backs k c).Proper := by
  induction k generalizing c with
  | zero => exact h
  | succ k ih => exact ih (show (Cmd.back c).Proper from h)

mutual

theorem Line.proper : ∀ d : Line α, d.Fits → d.cmd.Proper
  | .single d k, h => backs_proper k (d.proper h)
  | .seq d k l, h => ⟨backs_proper k (d.proper h.1), l.proper h.2⟩

theorem Pipeline.proper : ∀ d : Pipeline α, d.Fits → d.cmd.Proper
  | .single d, h => d.proper h
  | .pipe d l, h => ⟨d.proper h.1, l.proper h.2⟩

theorem Command.proper : ∀ d : Command α, d.Fits → d.cmd.Proper
  | .block l _, h => wrap_proper (l.proper h)
  | .simple _ args, h => wrap_proper (show (args.map Prod.fst).length < maxArgs by rw [List.length_map]; exact h)

end

theorem Cmd.Proper.map {f : α → β} {t : Cmd α} (h : t.Proper) : (t.map f).Proper := by
  induction t with
  | exec argv =>
      show (argv.map f).length < maxArgs
      rw [List.length_map]
      exact h
  | redir r c ih => exact ⟨(map_redir f r.redirection).symm.trans (congrArg (Redir.map f) h.1), ih h.2⟩
  | pipe l r ihl ihr => exact ⟨ihl h.1, ihr h.2⟩
  | list l r ihl ihr => exact ⟨ihl h.1, ihr h.2⟩
  | back c ih => exact ih h

/-! ## The derivation that is printed -/

theorem backs_succ (k : Nat) (c : Cmd α) : Cmd.backs (k + 1) c = .back (Cmd.backs k c) := by
  induction k generalizing c with
  | zero => rfl
  | succ k ih => exact ih (.back c)

theorem words_cmd (argv : List α) (rs : List (Redirection α)) :
    ((Core.words argv).command rs).cmd = Cmd.wrap (rs.map Redirection.redir) (.exec argv) := by
  have hnil : (argv.map fun w => (w, ([] : List (Redirection α)))).flatMap Prod.snd = [] := by
    rw [List.flatMap_eq_nil_iff]
    intro x hx
    obtain ⟨w, -, rfl⟩ := List.mem_map.mp hx
    rfl
  rw [Core.command, Command.cmd, hnil, List.append_nil, List.map_map]
  exact congrArg (fun l => Cmd.wrap _ (.exec l)) (List.map_id argv)

theorem command_cmd (c : Core α) (rs : List (Redirection α)) :
    (c.command rs).cmd = Cmd.wrap (rs.map Redirection.redir) (c.command []).cmd := by
  cases c with
  | words argv => rw [words_cmd, words_cmd, List.map_nil]; rfl
  | block l => rfl

theorem command_fits {c : Core α} {rs rs' : List (Redirection α)} (h : (c.command rs).Fits) : (c.command rs').Fits := by
  cases c with
  | words argv => exact h
  | block l => exact h

/-- All derivations stand for the tree. -/
structure Render.For (x : Render α) (t : Cmd α) : Prop where
  line : x.line.cmd = t ∧ x.line.Fits
  back : Cmd.backs x.back.2 x.back.1.cmd = t ∧ x.back.1.Fits
  pipe : x.pipe.cmd = t ∧ x.pipe.Fits
  command : x.command.cmd = t ∧ x.command.Fits

theorem ofCommand_for {c : Core α} {rs : List (Redirection α)} {t : Cmd α}
    (h : (c.command rs).cmd = t ∧ (c.command rs).Fits) :
    (Render.ofCommand c rs).For t :=
  ⟨h, h, h, h⟩

theorem ofPipe_for {d : Pipeline α} {t : Cmd α} (h : d.cmd = t ∧ d.Fits) : (Render.ofPipe d).For t :=
  ⟨h, h, h, h⟩

theorem ofBack_for {d : Pipeline α} {k : Nat} {t : Cmd α} (h : Cmd.backs k d.cmd = t ∧ d.Fits) :
    (Render.ofBack d k).For t :=
  ⟨h, h, h, h⟩

theorem ofLine_for {l : Line α} {t : Cmd α} (h : l.cmd = t ∧ l.Fits) : (Render.ofLine l).For t :=
  ⟨h, h, h, h⟩

theorem render_for {t : Cmd α} (h : t.Proper) : t.render.For t := by
  induction t with
  | exec argv =>
      refine ofCommand_for ⟨words_cmd argv [], ?_⟩
      show (argv.map _).length < maxArgs
      rw [List.length_map]
      exact h
  | redir r c ih =>
      obtain ⟨hc, hfits⟩ := (ih h.2).command
      refine ofCommand_for ⟨?_, command_fits hfits⟩
      rw [Render.command, command_cmd] at hc
      rw [command_cmd, List.map_append, List.map_singleton, wrap_concat, hc, h.1]
  | pipe l r ihl ihr =>
      have hl := (ihl h.1).command
      have hr := (ihr h.2).pipe
      exact ofPipe_for ⟨by rw [Pipeline.cmd, hl.1, hr.1], hl.2, hr.2⟩
  | list l r ihl ihr =>
      have hl := (ihl h.1).back
      have hr := (ihr h.2).line
      exact ofLine_for ⟨by rw [Line.cmd, hl.1, hr.1], hl.2, hr.2⟩
  | back c ih =>
      have hc := (ih h).back
      exact ofBack_for ⟨by rw [backs_succ, hc.1], hc.2⟩

/-! ## Words of a derivation -/

theorem word_of_redirTokens {rs : List (Redirection α)} {w : α} (h : Token.word w ∈ redirTokens rs) :
    w ∈ (rs.map Redirection.redir).map Redir.file := by
  obtain ⟨r, hr, hw⟩ := List.mem_flatMap.mp h
  rw [List.map_map]
  refine List.mem_map.mpr ⟨r, hr, (redir_file r).trans ?_⟩
  obtain ⟨op, file⟩ := r
  rcases List.mem_cons.mp hw with hw | hw
  · cases op <;> cases hw
  · exact (Token.word.inj (List.mem_singleton.mp hw)).symm

theorem word_of_replicate {w : α} {k : Nat} (h : Token.word w ∈ List.replicate k Token.amp) : False :=
  nomatch List.eq_of_mem_replicate h

mutual

/-- Every word of the text is a word of the tree. -/
theorem Line.word_mem {w : α} : ∀ d : Line α, Token.word w ∈ d.tokens → w ∈ d.cmd.words
  | .single d k, h => by
      rw [Line.cmd, (backs_words k _).1]
      exact (List.mem_append.mp h).elim d.word_mem fun h => (word_of_replicate h).elim
  | .seq d k l, h => by
      rw [Line.cmd, Cmd.words, (backs_words k _).1]
      rcases List.mem_append.mp h with h | h
      · exact List.mem_append_left _ ((List.mem_append.mp h).elim d.word_mem fun h => (word_of_replicate h).elim)
      · rcases List.mem_cons.mp h with h | h
        · cases h
        · exact List.mem_append_right _ (l.word_mem h)

theorem Pipeline.word_mem {w : α} : ∀ d : Pipeline α, Token.word w ∈ d.tokens → w ∈ d.cmd.words
  | .single d, h => d.word_mem h
  | .pipe d l, h => by
      rcases List.mem_append.mp h with h | h
      · exact List.mem_append_left _ (d.word_mem h)
      · rcases List.mem_cons.mp h with h | h
        · cases h
        · exact List.mem_append_right _ (l.word_mem h)

theorem Command.word_mem {w : α} : ∀ d : Command α, Token.word w ∈ d.tokens → w ∈ d.cmd.words
  | .block l rs, h => by
      rw [Command.cmd, wrap_words]
      rcases List.mem_append.mp h with h | h
      · rcases List.mem_cons.mp h with h | h
        · cases h
        · exact List.mem_append_left _ (l.word_mem h)
      · rcases List.mem_cons.mp h with h | h
        · cases h
        · exact List.mem_append_right _ (word_of_redirTokens h)
  | .simple rs args, h => by
      rw [Command.cmd, wrap_words, Cmd.words, List.map_append, List.map_append]
      rcases List.mem_append.mp h with h | h
      · exact List.mem_append_right _ (List.mem_append_left _ (word_of_redirTokens h))
      · obtain ⟨a, ha, h⟩ := List.mem_flatMap.mp h
        rcases List.mem_cons.mp h with h | h
        · exact List.mem_append_left _ (List.mem_map.mpr ⟨a, ha, (Token.word.inj h).symm⟩)
        · refine List.mem_append_right _ (List.mem_append_right _ (word_of_redirTokens ?_))
          obtain ⟨r, hr, hw⟩ := List.mem_flatMap.mp h
          exact List.mem_flatMap.mpr ⟨r, List.mem_flatMap.mpr ⟨a, ha, hr⟩, hw⟩

end

/-! ## Derivations over other words -/

/-- The arguments of a simple command with other words. -/
def mapArg (f : α → β) (a : α × List (Redirection α)) : β × List (Redirection β) := (f a.1, a.2.map (Redirection.map f))

mutual

def Line.map (f : α → β) : Line α → Line β
  | .single d k => .single (d.map f) k
  | .seq d k l => .seq (d.map f) k (l.map f)

def Pipeline.map (f : α → β) : Pipeline α → Pipeline β
  | .single d => .single (d.map f)
  | .pipe d l => .pipe (d.map f) (l.map f)

def Command.map (f : α → β) : Command α → Command β
  | .block l rs => .block (l.map f) (rs.map (Redirection.map f))
  | .simple rs args => .simple (rs.map (Redirection.map f)) (args.map (mapArg f))

end

theorem map_backs (f : α → β) (k : Nat) (c : Cmd α) : (Cmd.backs k c).map f = Cmd.backs k (c.map f) := by
  induction k generalizing c with
  | zero => rfl
  | succ k ih => exact ih (.back c)

theorem map_redirs (f : α → β) (rs : List (Redirection α)) :
    (rs.map Redirection.redir).map (Redir.map f) = (rs.map (Redirection.map f)).map Redirection.redir := by
  rw [List.map_map, List.map_map]
  exact List.map_congr_left fun r _ => map_redir f r

mutual

theorem Line.map_cmd (f : α → β) : ∀ d : Line α, (d.map f).cmd = d.cmd.map f
  | .single d k => by rw [Line.map, Line.cmd, Line.cmd, map_backs, d.map_cmd]
  | .seq d k l => by rw [Line.map, Line.cmd, Line.cmd, Cmd.map, map_backs, d.map_cmd, l.map_cmd]

theorem Pipeline.map_cmd (f : α → β) : ∀ d : Pipeline α, (d.map f).cmd = d.cmd.map f
  | .single d => d.map_cmd f
  | .pipe d l => by rw [Pipeline.map, Pipeline.cmd, Pipeline.cmd, Cmd.map, d.map_cmd, l.map_cmd]

theorem Command.map_cmd (f : α → β) : ∀ d : Command α, (d.map f).cmd = d.cmd.map f
  | .block l rs => by rw [Command.map, Command.cmd, Command.cmd, map_wrap, map_redirs, l.map_cmd]
  | .simple rs args => by
      have hargs : (args.map (mapArg f)).flatMap Prod.snd = (args.flatMap Prod.snd).map (Redirection.map f) := by
        rw [List.flatMap_map, List.map_flatMap]
        rfl
      rw [Command.map, Command.cmd, Command.cmd, map_wrap, map_redirs, hargs, ← List.map_append, Cmd.map,
        List.map_map (l := args), List.map_map (l := args)]
      rfl

end

mutual

theorem Line.map_fits {f : α → β} : ∀ d : Line α, (d.map f).Fits → d.Fits
  | .single d _, h => d.map_fits h
  | .seq d _ l, h => ⟨d.map_fits h.1, l.map_fits h.2⟩

theorem Pipeline.map_fits {f : α → β} : ∀ d : Pipeline α, (d.map f).Fits → d.Fits
  | .single d, h => d.map_fits h
  | .pipe d l, h => ⟨d.map_fits h.1, l.map_fits h.2⟩

theorem Command.map_fits {f : α → β} : ∀ d : Command α, (d.map f).Fits → d.Fits
  | .block l _, h => l.map_fits h
  | .simple _ args, h => by
      have hlen : (args.map (mapArg f)).length < maxArgs := h
      rw [List.length_map] at hlen
      exact hlen

end

/-! Tokens with other words have the same derivations. -/

theorem map_eq_word {f : α → β} {t : Token α} {w : β} (h : t.map f = .word w) : ∃ v, t = .word v ∧ f v = w := by
  cases t with
  | word v => exact ⟨v, rfl, Token.word.inj h⟩
  | _ => cases h

theorem map_eq_symbol {f : α → β} {t u : Token α} (hu : u.symbol ≠ none) (h : t.map f = u.map f) : t = u := by
  cases u with
  | word w => exact absurd rfl hu
  | _ => cases t <;> first | rfl | cases h

theorem redirs_lift (f : α → β) (rs : List (Redirection β)) (ts : List (Token α))
    (h : ts.map (Token.map f) = redirTokens rs) :
    ∃ rs', redirTokens rs' = ts ∧ rs'.map (Redirection.map f) = rs := by
  induction rs generalizing ts with
  | nil => exact ⟨[], (List.map_eq_nil_iff.mp h).symm, rfl⟩
  | cons r rs ih =>
      obtain ⟨op, file⟩ := r
      replace h : ts.map (Token.map f) = op.token :: Token.word file :: redirTokens rs := h
      obtain ⟨t, ts₁, rfl, ht, h₁⟩ := List.map_eq_cons_iff.mp h
      obtain ⟨w, ts₂, rfl, hw, h₂⟩ := List.map_eq_cons_iff.mp h₁
      obtain ⟨v, rfl, rfl⟩ := map_eq_word hw
      obtain ⟨rs', rfl, rfl⟩ := ih ts₂ h₂
      obtain rfl : t = op.token := by
        cases op <;> exact map_eq_symbol (Option.some_ne_none _) ht
      exact ⟨⟨op, v⟩ :: rs', rfl, rfl⟩

theorem args_lift (f : α → β) (args : List (β × List (Redirection β))) (ts : List (Token α))
    (h : ts.map (Token.map f) = argTokens args) :
    ∃ args', argTokens args' = ts ∧ args'.map (mapArg f) = args := by
  induction args generalizing ts with
  | nil => exact ⟨[], (List.map_eq_nil_iff.mp h).symm, rfl⟩
  | cons a args ih =>
      obtain ⟨w, rs⟩ := a
      replace h : ts.map (Token.map f) = Token.word w :: (redirTokens rs ++ argTokens args) := h
      obtain ⟨t, ts₀, rfl, ht, h₀⟩ := List.map_eq_cons_iff.mp h
      obtain ⟨v, rfl, rfl⟩ := map_eq_word ht
      obtain ⟨ts₁, ts₂, rfl, h₁, h₂⟩ := List.map_eq_append_iff.mp h₀
      obtain ⟨rs', rfl, rfl⟩ := redirs_lift f rs ts₁ h₁
      obtain ⟨args', rfl, rfl⟩ := ih ts₂ h₂
      exact ⟨(v, rs') :: args', rfl, rfl⟩

theorem replicate_lift {f : α → β} {k : Nat} {ts : List (Token α)} (h : ts.map (Token.map f) = List.replicate k .amp) :
    ts = List.replicate k .amp := by
  have hlen : ts.length = k := by rw [← List.length_map, h, List.length_replicate]
  refine List.eq_replicate_iff.mpr ⟨hlen, fun t ht => map_eq_symbol (f := f) (u := .amp) (Option.some_ne_none _) ?_⟩
  exact List.eq_of_mem_replicate (h ▸ List.mem_map_of_mem ht)

mutual

theorem Line.lift (f : α → β) :
    ∀ (d : Line β) (ts : List (Token α)), ts.map (Token.map f) = d.tokens → ∃ d' : Line α, d'.tokens = ts ∧ d'.map f = d
  | .single d k, ts, h => by
      obtain ⟨ts₁, ts₂, rfl, h₁, h₂⟩ := List.map_eq_append_iff.mp h
      obtain ⟨d', rfl, rfl⟩ := d.lift f ts₁ h₁
      exact ⟨.single d' k, by rw [Line.tokens, replicate_lift h₂], rfl⟩
  | .seq d k l, ts, h => by
      obtain ⟨ts₁, ts₂, rfl, h₁, h₂⟩ := List.map_eq_append_iff.mp h
      obtain ⟨ts₃, ts₄, rfl, h₃, h₄⟩ := List.map_eq_append_iff.mp h₁
      obtain ⟨t, ts₅, rfl, ht, h₅⟩ := List.map_eq_cons_iff.mp h₂
      obtain rfl := map_eq_symbol (u := .semi) (Option.some_ne_none _) ht
      obtain ⟨d', rfl, rfl⟩ := d.lift f ts₃ h₃
      obtain ⟨l', rfl, rfl⟩ := l.lift f ts₅ h₅
      exact ⟨.seq d' k l', by rw [Line.tokens, replicate_lift h₄], rfl⟩

theorem Pipeline.lift (f : α → β) :
    ∀ (d : Pipeline β) (ts : List (Token α)), ts.map (Token.map f) = d.tokens →
      ∃ d' : Pipeline α, d'.tokens = ts ∧ d'.map f = d
  | .single d, ts, h => by
      obtain ⟨d', rfl, rfl⟩ := d.lift f ts h
      exact ⟨.single d', rfl, rfl⟩
  | .pipe d l, ts, h => by
      obtain ⟨ts₁, ts₂, rfl, h₁, h₂⟩ := List.map_eq_append_iff.mp h
      obtain ⟨t, ts₃, rfl, ht, h₃⟩ := List.map_eq_cons_iff.mp h₂
      obtain rfl := map_eq_symbol (u := .bar) (Option.some_ne_none _) ht
      obtain ⟨d', rfl, rfl⟩ := d.lift f ts₁ h₁
      obtain ⟨l', rfl, rfl⟩ := l.lift f ts₃ h₃
      exact ⟨.pipe d' l', rfl, rfl⟩

theorem Command.lift (f : α → β) :
    ∀ (d : Command β) (ts : List (Token α)), ts.map (Token.map f) = d.tokens →
      ∃ d' : Command α, d'.tokens = ts ∧ d'.map f = d
  | .block l rs, ts, h => by
      replace h : ts.map (Token.map f) = Token.left :: (l.tokens ++ .right :: redirTokens rs) := h
      obtain ⟨t, ts₀, rfl, ht, h₀⟩ := List.map_eq_cons_iff.mp h
      obtain rfl := map_eq_symbol (u := .left) (Option.some_ne_none _) ht
      obtain ⟨ts₁, ts₂, rfl, h₁, h₂⟩ := List.map_eq_append_iff.mp h₀
      obtain ⟨t', ts₃, rfl, ht', h₃⟩ := List.map_eq_cons_iff.mp h₂
      obtain rfl := map_eq_symbol (u := .right) (Option.some_ne_none _) ht'
      obtain ⟨l', rfl, rfl⟩ := l.lift f ts₁ h₁
      obtain ⟨rs', rfl, rfl⟩ := redirs_lift f rs ts₃ h₃
      exact ⟨.block l' rs', rfl, rfl⟩
  | .simple rs args, ts, h => by
      obtain ⟨ts₁, ts₂, rfl, h₁, h₂⟩ := List.map_eq_append_iff.mp h
      obtain ⟨rs', rfl, rfl⟩ := redirs_lift f rs ts₁ h₁
      obtain ⟨args', rfl, rfl⟩ := args_lift f args ts₂ h₂
      exact ⟨.simple rs' args', rfl, rfl⟩

end

/-! ## The tokens of the text -/

/-- Words that can stand in a line. -/
structure Printable (w : List UInt8) : Prop where
  ne_nil : w ≠ []
  plain : ∀ c ∈ w, isPlain c = true
  nul : (0 : UInt8) ∉ w

theorem singles_alone : ∀ c ∈ "|();&<".toList.map ch, isSpace c = false ∧ c ≠ ch '>' := by
  have hmore : ch '>' ∉ "|();&<".toList.map ch := by decide
  exact fun c hc => ⟨(not_plain_of_symbol c (singles_subset hc)).2, fun h => hmore (h ▸ hc)⟩

theorem lex_blank (p : Nat) (cs : List UInt8) : lex .nothing p (ch ' ' :: cs) = lex .nothing (p + 1) cs := by
  rw [lex, if_pos (by decide)]
  rfl

theorem lex_symbol {c : UInt8} {t : Token Span} (h : symbolOf c = some t) (p : Nat) (cs : List UInt8) :
    lex .nothing p (c :: ch ' ' :: cs) = t :: lex .nothing (p + 2) cs := by
  obtain ⟨-, -, hmem, -⟩ := symbolOf_code h
  obtain ⟨hs, hm⟩ := singles_alone c hmem
  rw [lex, hs, if_neg Bool.false_ne_true, if_neg hm, h, lex_blank]
  rfl

/-- A blank ends every token. -/
theorem lex_token (t : Token (List UInt8)) (ht : ∀ w, t = .word w → Printable w) (p : Nat) (cs : List UInt8) :
    lex .nothing p (t.chars ++ ch ' ' :: cs) =
      t.map (fun _ => (p, p + t.chars.length)) :: lex .nothing (p + (t.chars.length + 1)) cs := by
  have hblank : isPlain (ch ' ') = false := by decide
  cases t with
  | word w =>
      obtain ⟨c, w, rfl⟩ := List.exists_cons_of_ne_nil (ht w rfl).ne_nil
      have hplain := (ht _ rfl).plain
      obtain ⟨hs, hm, hn⟩ := symbolOf_of_plain (hplain c List.mem_cons_self)
      have hw : ∀ x ∈ w, isPlain x = true := fun x hx => hplain x (List.mem_cons_of_mem _ hx)
      rw [Token.chars, List.cons_append, lex, hs, if_neg Bool.false_ne_true, if_neg hm, hn]
      dsimp only
      rw [lex_word, List.takeWhile_append_of_pos hw, List.dropWhile_append_of_pos hw,
        List.takeWhile_cons_of_neg (by rw [hblank]; decide), List.dropWhile_cons_of_neg (by rw [hblank]; decide),
          List.append_nil, lex_blank, List.length_cons, Nat.add_assoc p 1,
        Nat.add_comm 1, ← Nat.add_assoc p _ 1]
      rfl
  | more =>
      rw [Token.chars, List.singleton_append, lex, if_neg (by decide), if_pos rfl, if_neg (by decide),
        lex_more _ (by rw [List.head?_cons]; decide), lex_blank]
      rfl
  | append => rfl
  | bar => exact lex_symbol rfl p cs
  | left => exact lex_symbol rfl p cs
  | right => exact lex_symbol rfl p cs
  | semi => exact lex_symbol rfl p cs
  | amp => exact lex_symbol rfl p cs
  | less => exact lex_symbol rfl p cs

theorem text_of_drop {w : List UInt8} (h : s.drop p = w ++ cs) : text s (p, p + w.length) = w := by
  rw [text, h, Nat.add_sub_cancel_left, List.take_left]

/-- The words of the text are the ones that were printed. -/
theorem lex_print (ts : List (Token (List UInt8))) (hts : ∀ w, Token.word w ∈ ts → Printable w)
    (hs : s.drop p = printTokens ts) :
    (lex .nothing p (s.drop p)).map (Token.map (text s)) = ts := by
  induction ts generalizing p with
  | nil =>
      rw [hs]
      rfl
  | cons t ts ih =>
      have hcons : s.drop p = t.chars ++ ch ' ' :: printTokens ts := by
        rw [hs, printTokens, List.flatMap_cons, List.append_assoc]
        rfl
      have hnext : s.drop (p + (t.chars.length + 1)) = printTokens ts := by
        rw [← List.drop_drop, hcons, ← List.drop_drop, List.drop_left]
        rfl
      rw [hcons, lex_token t fun w hw => hts w (hw ▸ List.mem_cons_self), List.map_cons]
      have htail := ih (fun w hw => hts w (List.mem_cons_of_mem _ hw)) hnext
      rw [hnext] at htail
      rw [htail]
      refine congrArg (· :: ts) ?_
      cases t with
      | word w => exact congrArg Token.word (text_of_drop hcons)
      | _ => rfl

theorem tokens_print (ts : List (Token (List UInt8))) (hts : ∀ w, Token.word w ∈ ts → Printable w) :
    (tokens (printTokens ts)).map (Token.map (text (printTokens ts))) = ts :=
  lex_print ts hts rfl

theorem nul_not_mem_print {ts : List (Token (List UInt8))} (hts : ∀ w, Token.word w ∈ ts → Printable w) :
    (0 : UInt8) ∉ printTokens ts := by
  intro h
  obtain ⟨t, ht, h⟩ := List.mem_flatMap.mp h
  rcases List.mem_append.mp h with h | h
  · cases t with
    | word w => exact (hts w ht).nul h
    | _ => exact absurd h (by decide)
  · exact absurd h (by decide)

/-! ## The round trip -/

theorem IsWord.printable {w : Span} (h : IsWord s w) (h0 : (0 : UInt8) ∉ s) : Printable (text s w) := by
  have hlen : (text s w).length = w.2 - w.1 := by
    rw [text, List.length_take, List.length_drop]
    have := h.le
    omega
  have hlt := h.lt
  refine ⟨fun hnil => ?_, fun c hc => ?_, fun hmem => h0 (List.mem_of_mem_drop (List.mem_of_mem_take hmem))⟩
  · rw [hnil, List.length_nil] at hlen
    omega
  · obtain ⟨i, hi, rfl⟩ := List.getElem_of_mem hc
    have hi' := hi
    rw [hlen] at hi'
    have hplain := h.plain (w.1 + i) (Nat.le_add_right _ _) (by omega)
    have hin : w.1 + i < s.length := by
      have := h.le
      omega
    rw [charAt, List.getD_eq_getElem?_getD, List.getElem?_eq_getElem hin] at hplain
    simpa [text] using hplain

theorem words_map (f : α → β) (t : Cmd α) : (t.map f).words = t.words.map f := by
  induction t with
  | exec argv => rfl
  | redir r c ih =>
      rw [Cmd.map, Cmd.words, Cmd.words, ih, List.map_append]
      rfl
  | pipe l r ihl ihr => rw [Cmd.map, Cmd.words, Cmd.words, ihl, ihr, List.map_append]
  | list l r ihl ihr => rw [Cmd.map, Cmd.words, Cmd.words, ihl, ihr, List.map_append]
  | back c ih => exact ih

/-- What is printed for a tree has a derivation that stands for the tree. -/
theorem print_derives {t : Cmd (List UInt8)} (ht : t.Proper) (hw : ∀ w ∈ t.words, Printable w) :
    (0 : UInt8) ∉ print t ∧ ∃ d : Line Span, d.Derives (print t) ∧ d.cmd.map (text (print t)) = t := by
  obtain ⟨hcmd, hfits⟩ := (render_for ht).line
  have hts : ∀ w, Token.word w ∈ t.render.line.tokens → Printable w := fun w h => hw w (by
    have := t.render.line.word_mem h
    rw [hcmd] at this
    exact this)
  obtain ⟨d, hd, hmap⟩ := t.render.line.lift (text (print t)) (tokens (print t)) (tokens_print _ hts)
  refine ⟨nul_not_mem_print hts, d, ⟨hd, d.map_fits (hmap ▸ hfits)⟩, ?_⟩
  rw [← d.map_cmd, hmap, hcmd]

end Xv6.Shell
