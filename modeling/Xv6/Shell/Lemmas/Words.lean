import Xv6.Shell.Lemmas.Complete

/-!
# Words and their terminators

The words of a tree are words of the line: maximal runs of characters that are neither white space nor symbols. The
character behind a word is no part of any word, so that a NUL there cuts nothing off.
-/

namespace Xv6.Shell

open Xv6.Lib

variable {α : Type} {s cs : List UInt8} {p : Nat}

/-! ## Definitions -/

/-- All words of a tree, the file names included. -/
def Cmd.words : Cmd α → List α
  | .exec argv => argv
  | .redir r cmd => cmd.words ++ [r.file]
  | .pipe left right => left.words ++ right.words
  | .list left right => left.words ++ right.words
  | .back cmd => cmd.words

/-- The words of every `CMD_EXEC` node. -/
def Cmd.argvs : Cmd α → List (List α)
  | .exec argv => [argv]
  | .redir _ cmd => cmd.argvs
  | .pipe left right => left.argvs ++ right.argvs
  | .list left right => left.argvs ++ right.argvs
  | .back cmd => cmd.argvs

/-- `argv[i]`, where `none` is the null pointer. -/
def pointer (argv : List Span) (i : Nat) : Option Nat := (argv[i]?).map Prod.fst

/-- The characters of a slice. -/
def text (s : List UInt8) (w : Span) : List UInt8 := (s.drop w.1).take (w.2 - w.1)

/-- A maximal run of characters that are neither white space nor symbols. -/
structure IsWord (s : List UInt8) (w : Span) : Prop where
  lt : w.1 < w.2
  le : w.2 ≤ s.length
  plain : ∀ i, w.1 ≤ i → i < w.2 → isPlain (charAt s i) = true
  before : w.1 = 0 ∨ isPlain (charAt s (w.1 - 1)) = false
  after : w.2 = s.length ∨ isPlain (charAt s w.2) = false

/-- The string that a pointer into the buffer points to. -/
def IsString (b : Buf) (q : Nat) (w : List UInt8) : Prop :=
  (∀ i < w.length, some (b (q + i)) = w[i]?) ∧ 0 ∉ w ∧ b (q + w.length) = 0

/-! ## Words of a line -/

/-- What is open before the position `p` ends there. -/
def Open.Ok (s : List UInt8) (p : Nat) : Open → Prop
  | .word q => q < p ∧ (∀ i, q ≤ i → i < p → isPlain (charAt s i) = true) ∧ (q = 0 ∨ isPlain (charAt s (q - 1)) = false)
  | _ => p = 0 ∨ isPlain (charAt s (p - 1)) = false

theorem mem_close {o : Open} {w : Span} (h : Token.word w ∈ o.close p) : o = .word w.1 ∧ w.2 = p := by
  cases o with
  | nothing => cases h
  | more => exact nomatch List.mem_singleton.mp h
  | word q =>
      obtain rfl := Token.word.inj (List.mem_singleton.mp h)
      exact ⟨rfl, rfl⟩

theorem isWord_of_close {o : Open} {w : Span} (ho : o.Ok s p) (hp : p ≤ s.length)
    (hend : p = s.length ∨ isPlain (charAt s p) = false) (h : Token.word w ∈ o.close p) : IsWord s w := by
  obtain ⟨rfl, rfl⟩ := mem_close h
  exact ⟨ho.1, hp, ho.2.1, ho.2.2, hend⟩

theorem lex_isWord {o : Open} {w : Span} (ho : o.Ok s p) (hp : p ≤ s.length) (hcs : s.drop p = cs)
    (h : Token.word w ∈ lex o p cs) :
    IsWord s w := by
  induction cs generalizing o p with
  | nil => exact isWord_of_close ho hp (Or.inl (Nat.le_antisymm hp (List.drop_eq_nil_iff.mp hcs))) h
  | cons c cs ih =>
      have hc := charAt_cons hcs
      have hdrop := drop_succ_of_cons hcs
      have hp' : p + 1 ≤ s.length := by
        by_contra hge
        rw [List.drop_eq_nil_of_le (by omega)] at hcs
        cases hcs
      -- a character that is not plain ends what is open
      have hcut : isPlain c = false → (Token.word w ∈ o.close p → IsWord s w) ∧ ∀ o' : Open, (∀ q, o' ≠ .word q) →
        o'.Ok s (p + 1) := by
        intro hno
        refine ⟨isWord_of_close ho hp (Or.inr (by rw [hc]; exact hno)), fun o' ho' => ?_⟩
        cases o' with
        | word q => exact absurd rfl (ho' q)
        | nothing => exact Or.inr (by rw [Nat.add_sub_cancel, hc]; exact hno)
        | more => exact Or.inr (by rw [Nat.add_sub_cancel, hc]; exact hno)
      rw [lex] at h
      split_ifs at h with hs hm _
      · have hno : isPlain c = false := by
          unfold isPlain
          unfold isSpace at hs
          rw [hs]
          rfl
        rcases List.mem_append.mp h with h | h
        · exact (hcut hno).1 h
        · exact ih ((hcut hno).2 .nothing fun _ => Open.noConfusion) hp' hdrop h
      · have hno : isPlain c = false := by
          rw [hm]
          decide
        rcases List.mem_cons.mp h with h | h
        · cases h
        · exact ih ((hcut hno).2 .nothing fun _ => Open.noConfusion) hp' hdrop h
      · have hno : isPlain c = false := by
          rw [hm]
          decide
        rcases List.mem_append.mp h with h | h
        · exact (hcut hno).1 h
        · exact ih ((hcut hno).2 .more fun _ => Open.noConfusion) hp' hdrop h
      · rw [Bool.not_eq_true] at hs
        cases hsym : (symbolOf c : Option (Token Span)) with
        | some t =>
            have hno : isPlain c = false := by
              rw [← Bool.not_eq_true]
              intro hplain
              rw [(symbolOf_eq_none hs hm).mpr hplain] at hsym
              cases hsym
            rw [hsym] at h
            rcases List.mem_append.mp h with h | h
            · exact (hcut hno).1 h
            rcases List.mem_cons.mp h with h | h
            · exact absurd h.symm ((symbolOf_code hsym).2.2.2 w)
            · exact ih ((hcut hno).2 .nothing fun _ => Open.noConfusion) hp' hdrop h
        | none =>
            have hplain := (symbolOf_eq_none hs hm).mp hsym
            rw [← hc] at hplain
            rw [hsym] at h
            rcases List.mem_append.mp h with h | h
            · cases o with
              | nothing => cases h
              | word q => cases h
              | more => cases List.mem_singleton.mp h
            · refine ih ?_ hp' hdrop h
              cases o with
              | nothing =>
                  exact ⟨Nat.lt_succ_self p, fun i hi hi' => Nat.le_antisymm (Nat.lt_succ_iff.mp hi') hi ▸ hplain, ho⟩
              | more =>
                  exact ⟨Nat.lt_succ_self p, fun i hi hi' => Nat.le_antisymm (Nat.lt_succ_iff.mp hi') hi ▸ hplain, ho⟩
              | word q =>
                  refine ⟨Nat.lt_succ_of_lt ho.1, fun i hi hi' => ?_, ho.2.2⟩
                  rcases Nat.lt_succ_iff_lt_or_eq.mp hi' with hlt | rfl
                  · exact ho.2.1 i hi hlt
                  · exact hplain

/-! ## Words of a tree -/

theorem word_mem_redirTokens {rs : List (Redirection α)} {r : Redirection α} (h : r ∈ rs) :
    Token.word r.file ∈ redirTokens rs :=
  List.mem_flatMap.mpr ⟨r, h, List.mem_cons_of_mem _ (List.mem_singleton.mpr rfl)⟩

theorem wrap_words (rs : List (Redir α)) (c : Cmd α) : (Cmd.wrap rs c).words = c.words ++ rs.map Redir.file := by
  induction rs generalizing c with
  | nil => exact (List.append_nil _).symm
  | cons r rs ih =>
      refine (ih (.redir r c)).trans ?_
      rw [Cmd.words, List.append_assoc]
      rfl

theorem wrap_argvs (rs : List (Redir α)) (c : Cmd α) : (Cmd.wrap rs c).argvs = c.argvs := by
  induction rs generalizing c with
  | nil => rfl
  | cons r rs ih => exact ih (.redir r c)

theorem backs_words (k : Nat) (c : Cmd α) : (Cmd.backs k c).words = c.words ∧ (Cmd.backs k c).argvs = c.argvs := by
  induction k generalizing c with
  | zero => exact ⟨rfl, rfl⟩
  | succ k ih => exact ih (.back c)

theorem redir_file (r : Redirection α) : r.redir.file = r.file := by
  obtain ⟨op, file⟩ := r
  cases op <;> rfl

theorem words_redirs {rs : List (Redirection α)} {w : α} (h : w ∈ (rs.map Redirection.redir).map Redir.file) :
    Token.word w ∈ redirTokens rs := by
  rw [List.map_map] at h
  obtain ⟨r, hr, rfl⟩ := List.mem_map.mp h
  rw [Function.comp_apply, redir_file]
  exact word_mem_redirTokens hr

mutual

/-- Every word of the tree is a word of the text. -/
theorem Line.mem_words {w : α} : ∀ d : Line α, w ∈ d.cmd.words → Token.word w ∈ d.tokens
  | .single d k, h => by
      rw [Line.cmd, (backs_words k _).1] at h
      exact List.mem_append_left _ (d.mem_words h)
  | .seq d k l, h => by
      rw [Line.cmd, Cmd.words, (backs_words k _).1] at h
      rcases List.mem_append.mp h with h | h
      · exact List.mem_append_left _ (List.mem_append_left _ (d.mem_words h))
      · exact List.mem_append_right _ (List.mem_cons_of_mem _ (l.mem_words h))

theorem Pipeline.mem_words {w : α} : ∀ d : Pipeline α, w ∈ d.cmd.words → Token.word w ∈ d.tokens
  | .single d, h => d.mem_words h
  | .pipe d l, h => by
      rw [Pipeline.cmd, Cmd.words] at h
      rcases List.mem_append.mp h with h | h
      · exact List.mem_append_left _ (d.mem_words h)
      · exact List.mem_append_right _ (List.mem_cons_of_mem _ (l.mem_words h))

theorem Command.mem_words {w : α} : ∀ d : Command α, w ∈ d.cmd.words → Token.word w ∈ d.tokens
  | .block l rs, h => by
      rw [Command.cmd, wrap_words] at h
      rcases List.mem_append.mp h with h | h
      · exact List.mem_append_left _ (List.mem_cons_of_mem _ (l.mem_words h))
      · exact List.mem_append_right _ (List.mem_cons_of_mem _ (words_redirs h))
  | .simple rs args, h => by
      rw [Command.cmd, wrap_words, Cmd.words] at h
      rcases List.mem_append.mp h with h | h
      · obtain ⟨a, ha, rfl⟩ := List.mem_map.mp h
        exact List.mem_append_right _ (List.mem_flatMap.mpr ⟨a, ha, List.mem_cons_self⟩)
      · rw [List.map_append, List.map_append] at h
        rcases List.mem_append.mp h with h | h
        · exact List.mem_append_left _ (words_redirs h)
        · have hword := words_redirs h
          obtain ⟨r, hr, hmem⟩ := List.mem_flatMap.mp hword
          obtain ⟨a, ha, hra⟩ := List.mem_flatMap.mp hr
          exact List.mem_append_right _ (List.mem_flatMap.mpr
            ⟨a, ha, List.mem_cons_of_mem _ (List.mem_flatMap.mpr ⟨r, hra, hmem⟩)⟩)

end

theorem Line.Derives.isWord {d : Line Span} {w : Span} (hd : d.Derives s) (hw : w ∈ d.cmd.words) : IsWord s w := by
  have hmem := d.mem_words hw
  rw [hd.tokens] at hmem
  have hok : Open.nothing.Ok s 0 := Or.inl rfl
  exact lex_isWord hok (Nat.zero_le _) rfl hmem

mutual

/-- Every node has room for the null pointer. -/
theorem Line.argvs_lt {argv : List α} : ∀ d : Line α, d.Fits → argv ∈ d.cmd.argvs → argv.length < maxArgs
  | .single d k, hd, h => by
      rw [Line.cmd, (backs_words k _).2] at h
      exact d.argvs_lt hd h
  | .seq d k l, hd, h => by
      rw [Line.cmd, Cmd.argvs, (backs_words k _).2] at h
      rcases List.mem_append.mp h with h | h
      · exact d.argvs_lt hd.1 h
      · exact l.argvs_lt hd.2 h

theorem Pipeline.argvs_lt {argv : List α} : ∀ d : Pipeline α, d.Fits → argv ∈ d.cmd.argvs → argv.length < maxArgs
  | .single d, hd, h => d.argvs_lt hd h
  | .pipe d l, hd, h => by
      rw [Pipeline.cmd, Cmd.argvs] at h
      rcases List.mem_append.mp h with h | h
      · exact d.argvs_lt hd.1 h
      · exact l.argvs_lt hd.2 h

theorem Command.argvs_lt {argv : List α} : ∀ d : Command α, d.Fits → argv ∈ d.cmd.argvs → argv.length < maxArgs
  | .block l rs, hd, h => by
      rw [Command.cmd, wrap_argvs] at h
      exact l.argvs_lt hd h
  | .simple rs args, hd, h => by
      rw [Command.cmd, wrap_argvs] at h
      rw [List.mem_singleton.mp h, List.length_map]
      exact hd

end

/-! ## Terminators -/

theorem foldl_upd (argv : List Span) (b : Buf) (i : Nat) :
    argv.foldl (fun b w => upd b w.2 0) b i = if i ∈ argv.map Prod.snd then 0 else b i := by
  induction argv generalizing b with
  | nil => rfl
  | cons w argv ih =>
      rw [List.foldl_cons, ih, List.map_cons]
      by_cases hi : i ∈ argv.map Prod.snd
      · rw [if_pos hi, if_pos (List.mem_cons_of_mem _ hi)]
      · rw [if_neg hi]
        by_cases hw : i = w.2
        · rw [if_pos (List.mem_cons.mpr (Or.inl hw)), hw, upd_self]
        · rw [if_neg (fun h => (List.mem_cons.mp h).elim hw hi), upd_of_ne hw]

/-- The order of the walk does not matter: there is a NUL behind every word, and nothing else has changed. -/
theorem nullTerminate_apply (t : Cmd Span) (b : Buf) (i : Nat) :
    nullTerminate t b i = if i ∈ t.words.map Prod.snd then 0 else b i := by
  have htwo : ∀ (l r : List Nat) (x : UInt8), (if i ∈ r then 0 else if i ∈ l then 0 else x) =
    if i ∈ l ++ r then 0 else x := by
    intro l r x
    simp only [List.mem_append]
    split_ifs <;> simp_all
  induction t generalizing b with
  | exec argv => exact foldl_upd argv b i
  | redir r cmd ih =>
      rw [nullTerminate, Cmd.words, List.map_append, List.map_singleton, ← htwo, ← ih]
      by_cases hi : i = r.file.2
      · rw [hi, upd_self, if_pos (List.mem_singleton.mpr rfl)]
      · rw [upd_of_ne hi, if_neg (fun h => hi (List.mem_singleton.mp h))]
  | pipe l r ihl ihr => rw [nullTerminate, Cmd.words, List.map_append, ihr, ihl, htwo]
  | list l r ihl ihr => rw [nullTerminate, Cmd.words, List.map_append, ihr, ihl, htwo]
  | back cmd ih => exact ih b

/-- After the walk a word of the line is the string that its pointer points to. -/
theorem IsWord.isString {t : Cmd Span} {w : Span} (hw : w ∈ t.words) (hall : ∀ v ∈ t.words, IsWord s v)
    (h0 : (0 : UInt8) ∉ s) :
    IsString (nullTerminate t (charAt s)) w.1 (text s w) := by
  have h := hall w hw
  have hlen : (text s w).length = w.2 - w.1 := by
    rw [text, List.length_take, List.length_drop]
    have := h.le
    omega
  have hlt := h.lt
  refine ⟨fun i hi => ?_, fun hmem => h0 (List.mem_of_mem_drop (List.mem_of_mem_take hmem)), ?_⟩
  · rw [hlen] at hi
    have hplain := h.plain (w.1 + i) (Nat.le_add_right _ _) (by omega)
    have hin : w.1 + i < s.length := by
      have := h.le
      omega
    have hne : w.1 + i ∉ t.words.map Prod.snd := by
      intro hmem
      obtain ⟨v, hv, heq⟩ := List.mem_map.mp hmem
      rcases (hall v hv).after with hend | hno
      · omega
      · rw [heq, hplain] at hno
        cases hno
    rw [nullTerminate_apply, if_neg hne, text, List.getElem?_take_of_lt hi, List.getElem?_drop, charAt,
      List.getD_eq_getElem?_getD, List.getElem?_eq_getElem hin]
    rfl
  · rw [hlen, Nat.add_sub_cancel' (Nat.le_of_lt hlt), nullTerminate_apply, if_pos (List.mem_map.mpr ⟨w, hw, rfl⟩)]

end Xv6.Shell
