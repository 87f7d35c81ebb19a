import Mathlib.Tactic.SplitIfs
import Xv6.Shell.Grammar

/-!
# The tokens of a line

`get_token` and `peek` read the line by position. `rest s p` is what is left of the tokens at the position `p`: `peek`
looks at the first of them, and `get_token` takes it.
-/

namespace Xv6.Shell

open Xv6.Lib

variable {s cs : List UInt8} {p q : Nat} {c : UInt8} {f : UInt8 → Bool}

/-! ## Scanning -/

theorem drop_scan : s.drop (scan f s p) = (s.drop p).dropWhile f := by
  have h := @List.drop_left _ ((s.drop p).takeWhile f) ((s.drop p).dropWhile f)
  rw [List.takeWhile_append_dropWhile, List.drop_drop] at h
  exact h

theorem charAt_cons (h : s.drop p = c :: cs) : charAt s p = c := by
  have h0 := congrArg (fun l => l[0]?) h
  simp only [List.getElem?_drop, Nat.add_zero, List.getElem?_cons_zero] at h0
  rw [charAt, List.getD_eq_getElem?_getD, h0]
  rfl

theorem charAt_nil (h : s.drop p = []) : charAt s p = 0 := by
  rw [charAt, List.getD_eq_getElem?_getD, List.getElem?_eq_none (List.drop_eq_nil_iff.mp h)]
  rfl

theorem drop_succ_of_cons (h : s.drop p = c :: cs) : s.drop (p + 1) = cs := by
  rw [← List.drop_drop, h]
  rfl

theorem ne_zero_of_drop (h0 : (0 : UInt8) ∉ s) (h : s.drop p = c :: cs) : c ≠ 0 := by
  rintro rfl
  exact h0 (List.mem_of_mem_drop (h ▸ List.mem_cons_self))

theorem le_scan (f : UInt8 → Bool) (h : p ≤ s.length) : scan f s p ≤ s.length := by
  have hle := (List.takeWhile_prefix (p := f) (l := s.drop p)).length_le
  rw [List.length_drop] at hle
  unfold scan
  omega

theorem lt_of_charAt (h : charAt s p ≠ 0) : p < s.length := by
  by_contra hge
  exact h (charAt_nil (List.drop_eq_nil_of_le (Nat.not_lt.mp hge)))

/-! ## What is left -/

/-- The tokens from a position on. -/
def rest (s : List UInt8) (p : Nat) : List (Token Span) := lex .nothing p (s.drop p)

theorem lex_spaces (p : Nat) (cs : List UInt8) :
    lex .nothing p cs = lex .nothing (p + (cs.takeWhile isSpace).length) (cs.dropWhile isSpace) := by
  induction cs generalizing p with
  | nil => rfl
  | cons c cs ih =>
      by_cases h : isSpace c
      · rw [List.takeWhile_cons_of_pos h, List.dropWhile_cons_of_pos h, List.length_cons, lex, if_pos h]
        refine (ih (p + 1)).trans ?_
        rw [Nat.add_assoc, Nat.add_comm 1]
      · rw [List.takeWhile_cons_of_neg h, List.dropWhile_cons_of_neg h]
        rfl

/-- White space between tokens is skipped. -/
theorem rest_scan (s : List UInt8) (p : Nat) : rest s (scan isSpace s p) = rest s p := by
  rw [rest, drop_scan, rest, lex_spaces p]
  rfl

/-- There are no more tokens than characters. -/
theorem length_lex_le (o : Open) (p : Nat) (cs : List UInt8) :
    (lex o p cs).length ≤ cs.length + (o.close p).length := by
  induction cs generalizing o p with
  | nil => exact Nat.le_add_left _ _
  | cons c cs ih =>
      have hnothing : (lex .nothing (p + 1) cs).length ≤ cs.length := ih .nothing (p + 1)
      have hmore : (lex .more (p + 1) cs).length ≤ cs.length + 1 := ih .more (p + 1)
      have hword : ∀ q, (lex (.word q) (p + 1) cs).length ≤ cs.length + 1 := fun q => ih (.word q) (p + 1)
      have hext : (o.extend p).1.length ≤ (o.close p).length := by
        cases o <;> simp [Open.extend, Open.close]
      have hext' := hword (o.extend p).2
      rw [lex, List.length_cons]
      split_ifs
      · rw [List.length_append]
        omega
      · rw [List.length_cons]
        omega
      · rw [List.length_append]
        omega
      · cases (symbolOf c : Option (Token Span)) with
        | some t =>
            dsimp only
            rw [List.length_append, List.length_cons]
            omega
        | none =>
            dsimp only
            rw [List.length_append]
            omega

theorem rest_nil (h : s.drop p = []) : rest s p = [] := by
  rw [rest, h]
  rfl

/-! ## Characters -/

theorem symbols_eq : symbols = [ch '<', ch '|', ch '>', ch '&', ch ';', ch '(', ch ')'] := by decide

theorem not_plain_of_symbol : ∀ c ∈ symbols, isPlain c = false ∧ isSpace c = false := by
  have h : symbols.all (fun c => !isPlain c && !isSpace c) = true := by decide
  intro c hc
  simpa using List.all_eq_true.mp h c hc

theorem isPlain_eq (hs : isSpace c = false) : isPlain c = !symbols.contains c := by
  unfold isPlain
  unfold isSpace at hs
  rw [hs]
  rfl

theorem symbolOf_eq_none (hs : isSpace c = false) (h : c ≠ ch '>') : (symbolOf c : Option (Token Span)) = none ↔
    isPlain c = true := by
  rw [isPlain_eq hs, symbols_eq]
  unfold symbolOf
  split_ifs <;> simp [*]

theorem symbolOf_of_plain (h : isPlain c = true) :
    isSpace c = false ∧ c ≠ ch '>' ∧ (symbolOf c : Option (Token Span)) = none := by
  have hs : isSpace c = false := by
    unfold isPlain at h
    unfold isSpace
    exact (Bool.not_eq_true' _).mp (Bool.and_eq_true_iff.mp h).1
  have hm : c ≠ ch '>' := by
    rintro rfl
    exact absurd h (by decide)
  exact ⟨hs, hm, (symbolOf_eq_none hs hm).mpr h⟩

/-! ## Single tokens -/

/-- A word goes on to its last character. -/
theorem lex_word (q p : Nat) (cs : List UInt8) :
    lex (.word q) p cs = .word (q, p + (cs.takeWhile isPlain).length) ::
      lex .nothing (p + (cs.takeWhile isPlain).length) (cs.dropWhile isPlain) := by
  induction cs generalizing p with
  | nil => rfl
  | cons c cs ih =>
      by_cases hp : isPlain c
      · obtain ⟨hs, hm, hn⟩ := symbolOf_of_plain hp
        rw [List.takeWhile_cons_of_pos hp, List.dropWhile_cons_of_pos hp, List.length_cons, lex,
          if_neg (by simp [hs]), if_neg hm, hn]
        refine (ih (p + 1)).trans ?_
        rw [Nat.add_assoc, Nat.add_comm 1]
      · rw [List.takeWhile_cons_of_neg hp, List.dropWhile_cons_of_neg hp, List.length_nil, Nat.add_zero, lex, lex]
        by_cases hs : isSpace c
        · rw [if_pos hs, if_pos hs]
          rfl
        rw [if_neg hs, if_neg hs]
        by_cases hm : c = ch '>'
        · rw [if_pos hm, if_pos hm, if_neg Open.noConfusion, if_neg Open.noConfusion]
          rfl
        rw [if_neg hm, if_neg hm]
        cases hn : (symbolOf c : Option (Token Span)) with
        | some t => rfl
        | none => exact absurd ((symbolOf_eq_none (by simpa using hs) hm).mp hn) hp

/-- A `>` that no other follows. -/
theorem lex_more (p : Nat) (h : cs.head? ≠ some (ch '>')) : lex .more p cs = .more :: lex .nothing p cs := by
  cases cs with
  | nil => rfl
  | cons c cs =>
      have hm : c ≠ ch '>' := fun hc => h (by rw [hc]; rfl)
      rw [lex, lex, if_neg hm, if_neg hm]
      split_ifs
      · rfl
      · cases (symbolOf c : Option (Token Span)) <;> rfl

/-- The result of `get_token` for a token. -/
def Token.code : Token Span → UInt8
  | .bar => ch '|'
  | .left => ch '('
  | .right => ch ')'
  | .semi => ch ';'
  | .amp => ch '&'
  | .less => ch '<'
  | .more => ch '>'
  | .append => ch '+'
  | .word _ => ch 'a'

/-- The symbol that a token begins with. -/
def Token.symbol {α : Type} : Token α → Option UInt8
  | .bar => some (ch '|')
  | .left => some (ch '(')
  | .right => some (ch ')')
  | .semi => some (ch ';')
  | .amp => some (ch '&')
  | .less => some (ch '<')
  | .more => some (ch '>')
  | .append => some (ch '>')
  | .word _ => none

theorem singles_eq : "|();&<".toList.map ch = [ch '|', ch '(', ch ')', ch ';', ch '&', ch '<'] := by decide

theorem singles_subset : "|();&<".toList.map ch ⊆ symbols := by decide

theorem not_plain_of_single : ∀ c ∈ "|();&<".toList.map ch, isPlain c = false :=
  fun c hc => (not_plain_of_symbol c (singles_subset hc)).1

theorem symbolOf_code {t : Token Span} (h : symbolOf c = some t) :
    t.code = c ∧ t.symbol = some c ∧ c ∈ "|();&<".toList.map ch ∧ ∀ w, t ≠ .word w := by
  rw [singles_eq]
  unfold symbolOf at h
  split_ifs at h <;> obtain rfl := Option.some.inj h <;> simp [Token.code, Token.symbol, *]

/-- The switch of `get_token` at the first character of a token. -/
theorem tokenAt_cons (h0 : (0 : UInt8) ∉ s) (h : s.drop q = c :: cs) (hs : isSpace c = false) :
    ∃ t e, tokenAt s q = (Token.code t, e) ∧ rest s q = t :: rest s e ∧
      (t.symbol = some c ∨ t.symbol = none ∧ isPlain c = true) ∧ ∀ w, t = .word w → w = (q, e) := by
  have hc := charAt_cons h
  have hdrop := drop_succ_of_cons h
  have hlex : rest s q = lex .nothing q (c :: cs) := by rw [rest, h]
  rw [lex, if_neg (by simp [hs])] at hlex
  unfold tokenAt
  dsimp only
  rw [hc, if_neg (ne_zero_of_drop h0 h)]
  by_cases hm : c = ch '>'
  · rw [if_neg (by rw [hm]; decide), if_pos hm]
    rw [if_pos hm, if_neg (by decide)] at hlex
    split
    · rename_i hnext
      cases hcs : cs with
      | nil =>
          rw [charAt_nil (hdrop.trans hcs)] at hnext
          exact absurd hnext (by decide)
      | cons c' cs' =>
          rw [charAt_cons (hdrop.trans hcs)] at hnext
          refine ⟨.append, q + 2, rfl, ?_, Or.inl (by rw [hm]; rfl), fun w hw => Token.noConfusion rfl (heq_of_eq hw)⟩
          rw [hlex, hcs, lex, if_neg (by rw [hnext]; decide), if_pos hnext, if_pos rfl, rest,
            drop_succ_of_cons (hdrop.trans hcs)]
          rfl
    · rename_i hnext
      refine ⟨.more, q + 1, rfl, ?_, Or.inl (by rw [hm]; rfl), fun w hw => Token.noConfusion rfl (heq_of_eq hw)⟩
      rw [hlex, lex_more, rest, hdrop]
      · rfl
      · intro hhead
        cases hcs : cs with
        | nil =>
            rw [hcs] at hhead
            cases hhead
        | cons c' cs' =>
            rw [hcs] at hhead
            exact hnext ((charAt_cons (hdrop.trans hcs)).trans (Option.some.inj hhead))
  · rw [if_neg hm] at hlex
    cases hn : (symbolOf c : Option (Token Span)) with
    | some t =>
        obtain ⟨hcode, hsym, hmem, hw⟩ := symbolOf_code hn
        rw [hn] at hlex
        rw [if_pos hmem]
        refine ⟨t, q + 1, by rw [hcode], ?_, Or.inl hsym, fun w h => absurd h (hw w)⟩
        rw [hlex, rest, hdrop]
        rfl
    | none =>
        have hp := (symbolOf_eq_none hs hm).mp hn
        rw [hn] at hlex
        have hnot : c ∉ "|();&<".toList.map ch := fun hmem => by
          rw [not_plain_of_single c hmem] at hp
          cases hp
        rw [if_neg hnot, if_neg hm]
        have hscan : scan isPlain s q = q + 1 + (cs.takeWhile isPlain).length := by
          rw [scan, h, List.takeWhile_cons_of_pos hp, List.length_cons]
          omega
        refine ⟨.word (q, scan isPlain s q), scan isPlain s q, rfl, ?_, Or.inr ⟨rfl, hp⟩,
          fun w h => (Token.word.inj h).symm⟩
        have hrest : rest s (scan isPlain s q) =
          lex .nothing (q + 1 + (cs.takeWhile isPlain).length) (cs.dropWhile isPlain) := by
          rw [rest, drop_scan, h, List.dropWhile_cons_of_pos hp, hscan]
        rw [hlex, hrest, hscan]
        exact lex_word q (q + 1) cs

theorem tokenAt_le (h : q ≤ s.length) : (tokenAt s q).2 ≤ s.length := by
  unfold tokenAt
  dsimp only
  split_ifs with hz _ _ hnext
  · exact h
  · exact lt_of_charAt hz
  · exact lt_of_charAt (hnext ▸ by decide)
  · exact lt_of_charAt hz
  · exact le_scan isPlain h

/-- Where the scan for white space ends. -/
theorem scan_space_cases (s : List UInt8) (p : Nat) :
    s.drop (scan isSpace s p) = [] ∨ ∃ c cs, s.drop (scan isSpace s p) = c :: cs ∧ isSpace c = false := by
  rw [drop_scan]
  cases h : (s.drop p).dropWhile isSpace with
  | nil => exact Or.inl rfl
  | cons c cs =>
      refine Or.inr ⟨c, cs, rfl, ?_⟩
      have hhead := List.head_dropWhile_not isSpace (l := s.drop p) (by rw [h]; exact List.cons_ne_nil _ _)
      simpa [h] using hhead

/-! ## The two functions of the lexer -/

/-- `get_token` takes the first token. -/
theorem getToken_spec (h0 : (0 : UInt8) ∉ s) (p : Nat) :
    Wp (getToken s) (fun tok p' => (p ≤ s.length → p' ≤ s.length) ∧ ((rest s p = [] ∧ rest s p' = [] ∧ tok.ret = 0) ∨
      ∃ t, rest s p = t :: rest s p' ∧ tok.ret = t.code ∧ ∀ w, t = .word w → w = (tok.q, tok.eq)))
        (fun _ => False) p := by
  unfold getToken
  rw [wp_bind, wp_get]
  dsimp only
  rw [wp_bind, wp_set, wp_pure, rest_scan, ← rest_scan s p]
  refine ⟨fun hp => le_scan isSpace (tokenAt_le (le_scan isSpace hp)), ?_⟩
  rcases scan_space_cases s p with hnil | ⟨c, cs, hcons, hs⟩
  · have ht : tokenAt s (scan isSpace s p) = (0, scan isSpace s p) := by
      unfold tokenAt
      rw [charAt_nil hnil]
      rfl
    rw [ht]
    exact Or.inl ⟨rest_nil hnil, rest_nil hnil, rfl⟩
  · obtain ⟨t, e, ht, hrest, -, hw⟩ := tokenAt_cons h0 hcons hs
    rw [ht]
    exact Or.inr ⟨t, hrest, rfl, hw⟩

/-- What `peek` finds out about the tokens. -/
def heads {α : Type} (toks : String) : List (Token α) → Bool
  | [] => false
  | t :: _ => t.symbol.any fun c => c ∈ toks.toList.map ch

/-- `peek` looks at the first token. -/
theorem peek_spec (h0 : (0 : UInt8) ∉ s) {toks : String} (htoks : ∀ c ∈ toks.toList.map ch, c ∈ symbols) (p : Nat) :
    Wp (peek s toks) (fun b p' => p' = scan isSpace s p ∧ rest s p' = rest s p ∧ b = heads toks (rest s p))
      (fun _ => False) p := by
  unfold peek
  rw [wp_bind, wp_modify, wp_bind, wp_get, wp_pure, ← rest_scan s p]
  refine ⟨rfl, rfl, ?_⟩
  rcases scan_space_cases s p with hnil | ⟨c, cs, hcons, hs⟩
  · rw [charAt_nil hnil, rest_nil hnil]
    rfl
  · obtain ⟨t, e, -, hrest, hsym, -⟩ := tokenAt_cons h0 hcons hs
    rw [charAt_cons hcons, hrest, heads]
    rcases hsym with hsym | ⟨hsym, hp⟩
    · rw [hsym]
      exact decide_eq_decide.mpr (and_iff_right (ne_zero_of_drop h0 hcons))
    · rw [hsym]
      refine decide_eq_false fun hmem => ?_
      rw [(not_plain_of_symbol c (htoks c hmem.2)).1] at hp
      cases hp

end Xv6.Shell
