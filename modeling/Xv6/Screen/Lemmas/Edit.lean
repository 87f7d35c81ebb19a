import Xv6.Console.Lemmas.Line
import Xv6.Screen.Edit

/-!
# The line on the screen

`Showing L s`: the ring holds the line `L`, and the cells up to the cursor hold what of it is not committed. A key keeps
it as long as it erases nothing beyond the row of the cursor; otherwise the cursor is left behind the line.
-/

namespace Xv6.Screen

open Xv6.Lib Xv6.Console

variable {c c' : Cons} {s s' : Editor} {L : Line} {ch : UInt8}

/-! ## Cells -/

theorem Cons.cols_pos (c : Cons) : 0 < c.cols := by
  unfold Cons.cols
  omega

theorem cellAt_write {y x : Int} (hx : 0 ≤ x ∧ x < c.cols) (ch : UInt8) (k : Int) :
    (c.write y x ch).cellAt k = if k = y * c.cols + x then ch else c.cellAt k := by
  have hiff : k / c.cols = y ∧ k % c.cols = x ↔ k = y * c.cols + x := by
    rw [Int.ediv_emod_unique c.cols_pos, Int.mul_comm c.cols y, Int.add_comm x]
    exact ⟨fun h => h.1.symm, fun h => ⟨h.symm, hx⟩⟩
  unfold Cons.cellAt Cons.write setBuffer
  exact if_congr hiff rfl rfl

/-- The next row follows the last cell of a row. -/
theorem pos_wrap (hx : 0 < c.curX ∧ c.curX ≤ c.cols) : c.wrap.pos = c.pos ∧ 0 ≤ c.wrap.curX ∧ c.wrap.curX < c.cols := by
  unfold Cons.wrap
  split
  · rename_i hle
    have hcols : c.curX = c.cols := by
      unfold Cons.cols at hx ⊢
      omega
    refine ⟨?_, Int.le_refl 0, c.cols_pos⟩
    unfold Cons.pos
    rw [hcols, Int.add_zero, Int.add_mul, Int.one_mul]
    rfl
  · rename_i hlt
    refine ⟨rfl, by omega, ?_⟩
    unfold Cons.cols
    omega

theorem wrap_cellAt (c : Cons) (k : Int) : c.wrap.cellAt k = c.cellAt k := by
  unfold Cons.wrap
  split <;> rfl

theorem wrap_cols (c : Cons) : c.wrap.cols = c.cols := by
  unfold Cons.cols
  rw [wrap_maxCols]

/-- What a character does that is put into a cell. -/
structure Types (ch : UInt8) (c c' : Cons) : Prop where
  cols : c'.cols = c.cols
  x : 0 ≤ c'.curX ∧ c'.curX < c'.cols
  y : c.curY ≤ c'.curY
  pos : c'.pos = c.pos + 1
  cells : ∀ k, c'.cellAt k = if k = c.pos then ch else c.cellAt k

theorem put_types (hx : 0 ≤ c.curX ∧ c.curX < c.cols) (h1 : ch ≠ lineFeed) (h2 : ch ≠ carriage) (h3 : ch ≠ backspace) :
    Types ch c (c.put ch) := by
  have hw := pos_wrap (c := { c.write c.curY c.curX ch with curX := c.curX + 1 })
    (by dsimp only [Cons.write]; exact ⟨by omega, hx.2⟩)
  rw [put_plain h1 h2 h3]
  refine ⟨wrap_cols _, ?_, ?_, ?_, fun k => ?_⟩
  · rw [wrap_cols]
    exact hw.2
  · unfold Cons.wrap
    split
    · dsimp only [Cons.write]
      omega
    · exact Int.le_refl _
  · rw [hw.1]
    exact (Int.add_assoc _ _ _).symm
  · rw [wrap_cellAt]
    exact cellAt_write hx ch k

theorem put_newline (c : Cons) : (c.put newline).curX = 0 ∧ c.curY ≤ (c.put newline).curY := by
  rw [Cons.put, if_pos (by decide)]
  unfold Cons.wrap
  split <;> dsimp only <;> omega

/-- What an erased character does that is not the first of a row. -/
structure Erases (c c' : Cons) : Prop where
  cols : c'.cols = c.cols
  x : c'.curX = c.curX - 1
  y : c'.curY = c.curY
  pos : c'.pos = c.pos - 1
  cells : ∀ k, c'.cellAt k = if k = c.pos - 1 then space else c.cellAt k

theorem put_erases (hx : 0 < c.curX ∧ c.curX < c.cols) : Erases c (c.put backspace) := by
  have hlt : c.curX - 1 < c.maxCols := by
    unfold Cons.cols at hx
    omega
  rw [put_backspace (by omega), wrap_of_lt hlt]
  have hpos : c.curY * c.cols + (c.curX - 1) = c.pos - 1 := (Int.add_sub_assoc _ _ _).symm
  refine ⟨rfl, rfl, rfl, hpos, fun k => ?_⟩
  have hcell := cellAt_write (c := c) (y := c.curY) (x := c.curX - 1) ⟨by omega, by omega⟩ space k
  rw [hpos] at hcell
  exact hcell

/-! ## The line -/

structure Showing (L : Line) (s : Editor) : Prop where
  sim : Sim L s.input
  x : 0 ≤ s.term.cons.curX ∧ s.term.cons.curX < s.term.cons.cols
  y : 0 ≤ s.term.cons.curY ∧ s.term.cons.curY < s.term.cons.maxRows
  pos : s.term.cons.pos = s.base + L.pending.length
  cells : ∀ (i : Nat) (a : UInt8), L.pending[i]? = some a → s.term.cons.cellAt (s.base + i) = a
  erased : ∀ k, s.term.cons.pos ≤ k → s.term.cons.cellAt k = s.old k ∨ s.term.cons.cellAt k = space
  before : ∀ k, k < s.base → s.term.cons.cellAt k = s.old k

/-- The cursor is in the first column, and beyond the end of the line. -/
structure Behind (L : Line) (s : Editor) : Prop where
  sim : Sim L s.input
  x : s.term.cons.curX = 0
  y : s.term.cons.curY < s.term.cons.maxRows
  pos : s.base + L.pending.length < s.term.cons.pos

theorem Showing.shows (h : Showing L s) : Shows s := by
  refine ⟨by rw [h.sim.e_sub_w]; exact h.pos, fun i hi => h.cells i _ ?_, h.erased, h.before⟩
  rw [← h.sim.edited, List.getElem?_map, List.getElem?_range hi]
  rfl

theorem Behind.not_shows (h : Behind L s) : ¬ Shows s := by
  intro hs
  have hpos := hs.cursor
  rw [h.sim.e_sub_w] at hpos
  exact absurd h.pos (by rw [hpos]; exact Int.lt_irrefl _)

theorem Blank.showing (h : Blank s) : Showing ⟨[], [], 0⟩ s := by
  have hcount : s.input.ring.count (2 ^ 32) = 0 := by
    show (2 ^ 32 + s.input.e - s.input.r) % 2 ^ 32 = 0
    rw [h.e, Nat.add_sub_cancel, Nat.mod_self]
  refine ⟨⟨⟨h.r, ?_, by rw [hcount]; exact Nat.zero_le _⟩, ?_, Nat.le_refl _, ?_, List.not_mem_nil, fun _ => rfl⟩,
    h.x, h.y, ?_, ?_, fun k _ => Or.inl (by rw [h.old]), fun k _ => by rw [h.old]⟩
  · exact lt_of_eq_of_lt h.e h.r
  · rw [RingBuf.contents, hcount]
    rfl
  · rw [h.w]
    exact (Nat.mod_eq_of_lt h.r).symm
  · rw [h.base]
    exact (Int.add_zero _).symm
  · intro i a ha
    cases ha

/-! ## The echo -/

theorem putc_puts (ch : UInt8) (s : Editor) :
    Wp (putc ch) (fun _ s' => s'.input = s.input ∧ s'.base = s.base ∧ s'.old = s.old ∧ Puts ch s.term s'.term)
      (fun _ => False) s := by
  rw [putc, wp_on]
  exact (consolePutc_puts ch s.term).post fun _ _ hp => ⟨rfl, rfl, rfl, hp⟩

/-- An echo that does not scroll. -/
theorem putc_put (hlt : (s.term.cons.put ch).curY < s.term.cons.maxRows) :
    Wp (putc ch) (fun _ s' => s'.input = s.input ∧ s'.base = s.base ∧ s'.old = s.old ∧
      s'.term.cons = s.term.cons.put ch) (fun _ => False) s := by
  refine (putc_puts ch s).post ?_
  rintro _ s' ⟨hi, hb, ho, -, ⟨hc, -⟩ | ⟨hle, -⟩⟩
  · exact ⟨hi, hb, ho, hc⟩
  · exact absurd hlt (Int.not_lt.mpr hle)

/-! ## The input -/

theorem eraseLast_input (s : Editor) :
    Wp eraseLast (fun _ s' => s'.input = { s.input with e := sub32 s.input.e 1 }) (fun _ => False) s := by
  unfold eraseLast modifyInput
  rw [wp_bind, wp_modify]
  exact (putc_puts backspace _).post fun _ _ h => h.1

theorem eraseLine_input (n : Nat) (s : Editor) :
    Wp (eraseLine n) (fun _ s' => s'.input = killLine n s.input) (fun _ => False) s := by
  induction n generalizing s with
  | zero => rfl
  | succ n ih =>
      unfold eraseLine killLine
      rw [wp_bind, wp_get, wp_ite]
      refine ⟨fun hgo => ?_, fun hstop => ?_⟩
      · rw [if_pos hgo]
        refine Wp.bind (eraseLast_input s) fun _ s₁ h₁ => ?_
        rw [← h₁]
        exact ih s₁
      · rw [if_neg hstop]
        rfl

theorem storeKey_input (c : UInt8) (s : Editor) :
    Wp (storeKey c) (fun _ s' => s'.input = store c s.input) (fun _ => False) s := by
  unfold storeKey store modifyInput
  rw [wp_bind, wp_modify]
  refine Wp.bind (putc_puts c _) fun _ s₁ ⟨hi, _⟩ => ?_
  rw [wp_bind, wp_get, wp_ite, hi]
  refine ⟨fun hc => ?_, fun hc => ?_⟩
  · dsimp only at hc ⊢
    rw [if_pos hc]
    rfl
  · dsimp only at hc ⊢
    rw [if_neg hc]
    exact hi

/-- A stored key leaves the console as its echo does. -/
theorem storeKey_cons (hlt : (s.term.cons.put ch).curY < s.term.cons.maxRows) :
    Wp (storeKey ch) (fun _ s' => s'.term.cons = s.term.cons.put ch) (fun _ => False) s := by
  unfold storeKey modifyInput
  rw [wp_bind, wp_modify]
  refine Wp.bind (putc_put hlt) fun _ s₁ ⟨_, _, _, hc⟩ => ?_
  rw [wp_bind, wp_get, wp_ite]
  exact ⟨fun _ => hc, fun _ => hc⟩

/-- The echo apart, this is the interrupt of the input buffer. -/
theorem intr_input (c : UInt8) (s : Editor) :
    Wp (intr c) (fun _ s' => s'.input = consoleIntr c s.input) (fun _ => False) s := by
  unfold intr consoleIntr
  rw [wp_bind, wp_get]
  split_ifs with _ _ _ _ hcr
  · exact eraseLine_input _ s
  · exact eraseLast_input s
  · rfl
  · rw [show echo c = newline from if_pos hcr]
    exact storeKey_input _ s
  · rw [show echo c = c from if_neg hcr]
    exact storeKey_input _ s
  · rfl

/-! ## Erasing -/

section Erase

variable {committed p : List UInt8} {a : UInt8} {used : Nat}

theorem Showing.eraseLast (h : Showing ⟨committed, p ++ [a], used⟩ s) (hx : s.term.cons.curX ≠ 0) :
    Wp eraseLast (fun _ s' => Showing ⟨committed, p, used⟩ s' ∧ s'.term.cons.curX = s.term.cons.curX - 1)
      (fun _ => False) s := by
  have he := put_erases (c := s.term.cons) ⟨by have := h.x; omega, h.x.2⟩
  unfold Screen.eraseLast modifyInput
  rw [wp_bind, wp_modify]
  refine (putc_put (s := { s with input := { s.input with e := sub32 s.input.e 1 } }) ?_).post ?_
  · rw [he.y]
    exact h.y.2
  · rintro _ s' ⟨hi, hb, ho, hc⟩
    have hpos := h.pos
    rw [List.length_append, List.length_singleton] at hpos
    refine ⟨⟨?_, ?_, ?_, ?_, fun i b hib => ?_, fun k hk => ?_, fun k hk => ?_⟩, by rw [hc, he.x]⟩
    · rw [hi]
      exact h.sim.erase.1
    · rw [hc, he.cols, he.x]
      have := h.x
      omega
    · rw [hc, he.y, put_maxRows]
      exact h.y
    · rw [hc, he.pos, hb]
      dsimp only
      omega
    · have hlt : i < p.length := (List.getElem?_eq_some_iff.mp hib).1
      rw [hc, hb, he.cells, if_neg (by dsimp only; omega)]
      refine h.cells i b ?_
      rw [List.getElem?_append_left hlt]
      exact hib
    · rw [hc, he.pos] at hk
      rw [hc, ho, he.cells]
      split
      · exact Or.inr rfl
      · exact h.erased k (by omega)
    · rw [hb] at hk
      rw [hc, ho, he.cells, if_neg (by dsimp only at hk; omega)]
      exact h.before k hk

/-- At the start of a row the cursor stays where it is. -/
theorem eraseLast_stays (hsim : Sim ⟨committed, p ++ [a], used⟩ s.input) (hx : s.term.cons.curX = 0)
    (hy : s.term.cons.curY < s.term.cons.maxRows) (hpos : s.base + (p ++ [a]).length ≤ s.term.cons.pos) :
    Wp eraseLast (fun _ s' => Behind ⟨committed, p, used⟩ s') (fun _ => False) s := by
  have hput := put_backspace_zero hx
  unfold Screen.eraseLast modifyInput
  rw [wp_bind, wp_modify]
  refine Wp.post (putc_put ?_) ?_
  · rw [hput]
    exact hy
  · rintro _ s' ⟨hi, hb, -, hc⟩
    rw [hput] at hc
    refine ⟨?_, by rw [hc, hx], by rw [hc]; exact hy, ?_⟩
    · rw [hi]
      exact hsim.erase.1
    · rw [hc, hb]
      rw [List.length_append, List.length_singleton] at hpos
      dsimp only at hpos ⊢
      omega

/-- One round of the loop: it goes on while there is something to erase. -/
theorem wp_eraseLine_succ {n : Nat} {Q : Unit → Editor → Prop} (hsim : Sim ⟨committed, p ++ [a], used⟩ s.input)
    (h : Wp Screen.eraseLast (fun _ s' => Wp (eraseLine n) Q (fun _ => False) s') (fun _ => False) s) :
    Wp (eraseLine (n + 1)) Q (fun _ => False) s := by
  have hne : s.input.e ≠ s.input.w := fun he => absurd (hsim.e_eq_w.mp he) (by simp)
  have hnl : s.input.buf (sub32 s.input.e 1 % inputBuf) ≠ newline := by
    rw [hsim.erase.2]
    exact fun hc => hsim.plain (by simp [hc])
  unfold eraseLine
  rw [wp_bind, wp_get, if_pos ⟨hne, hnl⟩, wp_bind]
  exact h

theorem Behind.eraseLine {n : Nat} (h : Behind ⟨committed, p, used⟩ s) (hn : p.length = n) :
    Wp (eraseLine n) (fun _ s' => Behind ⟨committed, [], used⟩ s') (fun _ => False) s := by
  induction n generalizing p s with
  | zero =>
      obtain rfl := List.length_eq_zero_iff.mp hn
      exact h
  | succ n ih =>
      obtain ⟨q, a, rfl⟩ := (List.eq_nil_or_concat' p).resolve_left (List.ne_nil_of_length_eq_add_one hn)
      refine wp_eraseLine_succ h.sim ((eraseLast_stays h.sim h.x h.y (Int.le_of_lt h.pos)).post fun _ s' h' => ?_)
      exact ih h' (by simpa using hn)

/-- `C('U')` erases the line if it is all in the row of the cursor, and leaves the cursor behind it otherwise. -/
theorem Showing.eraseLine {n : Nat} (h : Showing ⟨committed, p, used⟩ s) (hn : p.length = n) :
    Wp (eraseLine n) (fun _ s' => ((n : Int) ≤ s.term.cons.curX → Showing ⟨committed, [], used⟩ s') ∧
      (s.term.cons.curX < n → Behind ⟨committed, [], used⟩ s')) (fun _ => False) s := by
  induction n generalizing p s with
  | zero =>
      obtain rfl := List.length_eq_zero_iff.mp hn
      exact ⟨fun _ => h, fun hlt => absurd hlt (Int.not_lt.mpr h.x.1)⟩
  | succ n ih =>
      obtain ⟨q, a, rfl⟩ := (List.eq_nil_or_concat' p).resolve_left (List.ne_nil_of_length_eq_add_one hn)
      have hq : q.length = n := by simpa using hn
      refine wp_eraseLine_succ h.sim ?_
      by_cases hx : s.term.cons.curX = 0
      · refine (eraseLast_stays h.sim hx h.y.2 (Int.le_of_eq h.pos.symm)).post fun _ s' h' => ?_
        refine (h'.eraseLine hq).post fun _ s'' h'' => ⟨fun hle => ?_, fun _ => h''⟩
        omega
      · refine (h.eraseLast hx).post fun _ s' ⟨h', hx'⟩ => ?_
        refine (ih h' hq).post fun _ s'' ⟨h1, h2⟩ => ⟨fun hle => h1 ?_, fun hlt => h2 ?_⟩ <;> omega

end Erase

/-! ## Storing -/

theorem Showing.storeKey (h : Showing L s) (hroom : L.size < inputBuf) (h2 : ch ≠ carriageReturn) (h3 : ch ≠ ctrl 'H')
    (hlt : (s.term.cons.put ch).curY < s.term.cons.maxRows) :
    Wp (storeKey ch) (fun _ s' => Showing (L.add ch) s') (fun _ => False) s := by
  have hsim := h.sim.add hroom ch
  unfold Console.store at hsim
  unfold Screen.storeKey modifyInput
  rw [wp_bind, wp_modify]
  refine Wp.bind (putc_put hlt) fun _ s₁ ⟨hi, hb, ho, hc⟩ => ?_
  rw [wp_bind, wp_get, wp_ite, hi]
  dsimp only at hb ho hc ⊢
  have hcols : s₁.term.cons.cols = s.term.cons.cols := by
    unfold Cons.cols
    rw [hc, put_maxCols]
  have hcursor : (0 ≤ s₁.term.cons.curX ∧ s₁.term.cons.curX < s₁.term.cons.cols) ∧
    s.term.cons.curY ≤ s₁.term.cons.curY := by
    rw [hcols, hc]
    by_cases h1 : ch = newline
    · rw [h1, (put_newline _).1]
      exact ⟨⟨Int.le_refl 0, Cons.cols_pos _⟩, (put_newline _).2⟩
    · have ht := put_types h.x h1 h2 h3
      exact ⟨ht.cols ▸ ht.x, ht.y⟩
  have hy : 0 ≤ s₁.term.cons.curY ∧ s₁.term.cons.curY < s₁.term.cons.maxRows := by
    refine ⟨Int.le_trans h.y.1 hcursor.2, ?_⟩
    rw [hc, put_maxRows]
    exact hlt
  have hadd : (ch = newline ∨ ch = ctrl 'D' ∨ u32 (s.input.e + 1) = u32 (s.input.r + inputBuf)) ↔
      (ch = newline ∨ ch = ctrl 'D' ∨ L.size + 1 = inputBuf) := or_congr_right (or_congr_right (h.sim.full_iff hroom))
  dsimp only at hsim
  constructor
  · intro hcommit
    rw [if_pos hcommit, Line.add, if_pos (hadd.mp hcommit)] at hsim
    rw [wp_set, Line.add, if_pos (hadd.mp hcommit)]
    refine ⟨hsim, hcursor.1, hy, (Int.add_zero _).symm, fun i a ha => ?_, fun k _ => Or.inl rfl, fun k _ => rfl⟩
    cases ha
  · intro hgo
    rw [if_neg hgo, Line.add, if_neg (mt hadd.mpr hgo)] at hsim
    rw [wp_pure, Line.add, if_neg (mt hadd.mpr hgo)]
    have ht := put_types h.x (fun h1 => hgo (Or.inl h1)) h2 h3
    refine ⟨hi ▸ hsim, hcursor.1, hy, ?_, fun i a ha => ?_, fun k hk => ?_, fun k hk => ?_⟩
    · rw [hc, ht.pos, hb, h.pos, List.length_append, List.length_singleton]
      omega
    · rw [hc, hb, ht.cells, h.pos]
      rcases Nat.lt_or_ge i L.pending.length with hi | hi
      · rw [List.getElem?_append_left hi] at ha
        rw [if_neg (by omega)]
        exact h.cells i a ha
      · rw [List.getElem?_append_right hi] at ha
        obtain ⟨h0, ha⟩ := List.getElem?_eq_some_iff.mp ha
        have hi' : i = L.pending.length := by
          rw [List.length_singleton] at h0
          omega
        rw [if_pos (by rw [hi'])]
        simpa using ha
    · rw [hc, ht.pos] at hk
      rw [hc, ho, ht.cells, if_neg (by omega)]
      exact h.erased k (by omega)
    · rw [hb] at hk
      rw [hc, ho, ht.cells, if_neg (by have := h.pos; omega)]
      exact h.before k hk

/-! ## Keys -/

theorem echo_ne {a : UInt8} (h : a ≠ ctrl 'H') : echo a ≠ carriageReturn ∧ echo a ≠ ctrl 'H' := by
  unfold echo
  split
  · exact ⟨by decide, by decide⟩
  · rename_i hne
    exact ⟨hne, h⟩

/-- A key keeps the line on the screen exactly if all that it erases is in the row of the cursor. -/
theorem Showing.intr {a : UInt8} (h : Showing L s) (hstill : Still s (.key a)) :
    Wp (intr a) (fun _ s' => (InRow s (.key a) → Showing (L.typed a) s') ∧ (¬ InRow s (.key a) → ¬ Shows s'))
      (fun _ => False) s := by
  obtain ⟨committed, pending, used⟩ := L
  unfold Screen.intr Line.typed InRow
  rw [wp_bind, wp_get, h.sim.e_sub_w]
  by_cases hU : a = ctrl 'U'
  · rw [if_pos hU, if_pos hU]
    have hH : a ≠ ctrl 'H' := fun hH => absurd (hU.symm.trans hH) (by decide)
    refine (h.eraseLine rfl).post fun _ s' h' => ⟨fun hin => h'.1 (hin.1 hU), fun hout => (h'.2 ?_).not_shows⟩
    exact Int.not_le.mp fun hle => hout ⟨fun _ => hle, fun hc => absurd hc hH⟩
  rw [if_neg hU, if_neg hU]
  by_cases hH : a = ctrl 'H'
  · rw [if_pos hH, if_pos hH]
    cases List.eq_nil_or_concat' pending with
    | inl hnil =>
        subst hnil
        have he : s.input.e = s.input.w := h.sim.e_eq_w.mpr rfl
        rw [if_neg (not_not_intro he)]
        exact ⟨fun _ => h, fun hout => absurd ⟨fun hc => absurd hc hU, fun _ hne => absurd he hne⟩ hout⟩
    | inr hconcat =>
        obtain ⟨p, b, rfl⟩ := hconcat
        have hne : s.input.e ≠ s.input.w := fun he => absurd (h.sim.e_eq_w.mp he) (by simp)
        rw [if_pos hne, List.dropLast_concat]
        by_cases hx : s.term.cons.curX = 0
        · refine (eraseLast_stays h.sim hx h.y.2 (Int.le_of_eq h.pos.symm)).post fun _ s' h' => ?_
          exact ⟨fun hin => absurd hx (hin.2 hH hne), fun _ => h'.not_shows⟩
        · refine (h.eraseLast hx).post fun _ s' h' => ⟨fun _ => h'.1, fun hout => ?_⟩
          exact absurd ⟨fun hc => absurd hc hU, fun _ _ => hx⟩ hout
  rw [if_neg hH, if_neg hH, h.sim.size_eq]
  have hin : (a = ctrl 'U' → (pending.length : Int) ≤ s.term.cons.curX) ∧
      (a = ctrl 'H' → s.input.e ≠ s.input.w → s.term.cons.curX ≠ 0) := ⟨fun hc => absurd hc hU, fun hc => absurd hc hH⟩
  by_cases hstore : a ≠ 0 ∧ Line.size ⟨committed, pending, used⟩ < inputBuf
  · rw [if_pos hstore, if_pos hstore]
    have hlt := (hstill ⟨hU, hH, hstore.1, by rw [h.sim.size_eq]; exact hstore.2⟩).2
    refine (h.storeKey hstore.2 (echo_ne hH).1 (echo_ne hH).2 hlt).post fun _ s' h' =>
      ⟨fun _ => h', fun hout => absurd hin hout⟩
  · rw [if_neg hstore, if_neg hstore]
    exact ⟨fun _ => h, fun hout => absurd hin hout⟩

theorem Showing.take (h : Showing L s) (hne : s.input.r ≠ s.input.w) :
    Showing ⟨L.committed, L.pending, L.used + 1⟩ { s with input := { s.input with r := u32 (s.input.r + 1) } } :=
  ⟨(h.sim.take hne).1, h.x, h.y, h.pos, h.cells, h.erased, h.before⟩

/-- One step: what it does to the line on the screen is decided by the row of the cursor. -/
theorem Showing.step {a : Edit} (h : Showing L s) (hstill : Still s a) (hs : s.step a = some s') :
    (InRow s a → ∃ L', Showing L' s') ∧ (¬ InRow s a → ¬ Shows s') := by
  cases a with
  | key c =>
      obtain ⟨_, t, hok, h1, h2⟩ := (h.intr hstill).returns
      simp only [Editor.step, hok] at hs
      obtain rfl := Option.some.inj hs
      exact ⟨fun hin => ⟨_, h1 hin⟩, h2⟩
  | take =>
      simp only [Editor.step] at hs
      split at hs
      · rename_i hne
        obtain rfl := Option.some.inj hs
        exact ⟨fun _ => ⟨_, h.take hne⟩, fun hout => absurd trivial hout⟩
      · cases hs

/-- In a run without scrolling that erases nothing beyond a row, the line is on the screen. -/
theorem showing_of_reachable (h : editing.ReachableIf (fun s a => Still s a ∧ InRow s a) s) : ∃ L, Showing L s :=
  Machine.ReachableIf.invariant (P := fun s => ∃ L, Showing L s) (fun _ hb => ⟨_, Blank.showing hb⟩)
    (fun _ _ _ _ ⟨_, hL⟩ hc hs => (hL.step hc.1 hs).1 hc.2) h

end Xv6.Screen
