import Xv6.Screen.Lemmas.Gop
import Xv6.Screen.Text

/-!
# The cursor and the text buffer

Drawing leaves the console as it is, so `console_putc` is known by what it does to the cursor and the buffer: the
function `put`, and then a scroll if the cursor has left the screen at the bottom.
-/

namespace Xv6.Screen

open Xv6.Lib

variable {P : Int × Int → Prop} {t t' t'' : Terminal} {c c' : Cons} {ch : UInt8}

/-! ## Drawing -/

/-- Only pixels were drawn. -/
structure Draws (t t' : Terminal) : Prop where
  cons : t'.cons = t.cons
  fb : t'.display.fb = t.display.fb

theorem Draws.refl (t : Terminal) : Draws t t := ⟨rfl, rfl⟩

theorem Draws.trans (h : Draws t t') (h' : Draws t' t'') : Draws t t'' := ⟨h'.cons.trans h.cons, h'.fb.trans h.fb⟩

theorem gopDrawPixel_draws (x y color : Nat) (t : Terminal) :
    Wp (onDisplay (gopDrawPixel x y color)) (fun _ t' => Draws t t') (fun _ => False) t := by
  rw [onDisplay, wp_on]
  exact (gopDrawPixel_drew x y color t.display).post fun _ _ h => ⟨rfl, h.fb⟩

theorem gopDrawRect_draws (x y w h color : Nat) (t : Terminal) :
    Wp (onDisplay (gopDrawRect x y w h color)) (fun _ t' => Draws t t') (fun _ => False) t := by
  rw [onDisplay, wp_on]
  exact (gopDrawRect_drew x y w h color t.display).post fun _ _ h => ⟨rfl, h.fb⟩

theorem fontDrawChar_draws (x y : Nat) (ch : UInt8) (fg bg : Nat) (t : Terminal) :
    Wp (fontDrawChar x y ch fg bg) (fun _ t' => Draws t t') (fun _ => False) t := by
  unfold fontDrawChar
  rw [wp_bind, wp_get]
  exact wp_each_rel Draws.refl Draws.trans
    (fun row _ => wp_each_rel Draws.refl Draws.trans fun col _ => gopDrawPixel_draws _ _ _) t

theorem drawCell_draws (y x : Int) (ch : UInt8) (t : Terminal) :
    Wp (drawCell y x ch) (fun _ t' => Draws t t') (fun _ => False) t := by
  unfold drawCell
  rw [wp_bind, wp_get]
  exact fontDrawChar_draws _ _ _ _ _ t

/-! ## Scrolling -/

/-- The accesses were to cells with the property `P`; the cursor and the geometry are as before. -/
structure Visits (P : Int × Int → Prop) (t t' : Terminal) : Prop where
  fb : t'.display.fb = t.display.fb
  curY : t'.cons.curY = t.cons.curY
  curX : t'.cons.curX = t.cons.curX
  maxCols : t'.cons.maxCols = t.cons.maxCols
  maxRows : t'.cons.maxRows = t.cons.maxRows
  accesses : ∃ l, t'.cons.accesses = t.cons.accesses ++ l ∧ ∀ a ∈ l, P a

theorem Visits.refl (P : Int × Int → Prop) (t : Terminal) : Visits P t t :=
  ⟨rfl, rfl, rfl, rfl, rfl, [], (List.append_nil _).symm, fun _ h => absurd h List.not_mem_nil⟩

theorem Visits.trans (h : Visits P t t') (h' : Visits P t' t'') : Visits P t t'' := by
  obtain ⟨l, hl, hP⟩ := h.accesses
  obtain ⟨l', hl', hP'⟩ := h'.accesses
  refine ⟨h'.fb.trans h.fb, h'.curY.trans h.curY, h'.curX.trans h.curX, h'.maxCols.trans h.maxCols,
    h'.maxRows.trans h.maxRows, l ++ l', ?_, fun a ha => (List.mem_append.mp ha).elim (hP a) (hP' a)⟩
  rw [hl', hl, List.append_assoc]

theorem Draws.visits (h : Draws t t') : Visits P t t' := by
  have hc := h.cons
  refine ⟨h.fb, by rw [hc], by rw [hc], by rw [hc], by rw [hc], [], ?_, fun _ h0 => absurd h0 List.not_mem_nil⟩
  rw [hc, List.append_nil]

theorem getCell_visits {y x : Int} (h : P (y, x)) (t : Terminal) :
    Wp (getCell y x) (fun _ t' => Visits P t t') (fun _ => False) t := by
  unfold getCell modifyCons
  rw [wp_bind, wp_get, wp_bind, wp_modify, wp_pure]
  exact ⟨rfl, rfl, rfl, rfl, rfl, [(y, x)], rfl, fun a ha => (List.mem_singleton.mp ha) ▸ h⟩

theorem setCell_visits {y x : Int} (h : P (y, x)) (ch : UInt8) (t : Terminal) :
    Wp (setCell y x ch) (fun _ t' => Visits P t t') (fun _ => False) t := by
  unfold setCell modifyCons
  rw [wp_modify]
  exact ⟨rfl, rfl, rfl, rfl, rfl, [(y, x)], rfl, fun a ha => (List.mem_singleton.mp ha) ▸ h⟩

theorem moveUp_visits {y x : Int} (h : P (y, x)) (h' : P (y + 1, x)) (t : Terminal) :
    Wp (moveUp y x) (fun _ t' => Visits P t t') (fun _ => False) t := by
  unfold moveUp
  refine Wp.bind (getCell_visits h' t) fun c t₁ h₁ => ?_
  exact (setCell_visits h c t₁).post fun _ _ h₂ => h₁.trans h₂

theorem redrawCell_visits {y x : Int} (h : P (y, x)) (t : Terminal) :
    Wp (redrawCell y x) (fun _ t' => Visits P t t') (fun _ => False) t := by
  unfold redrawCell
  refine Wp.bind (getCell_visits h t) fun c t₁ h₁ => ?_
  rw [wp_ite]
  exact ⟨fun _ => (drawCell_draws y x c t₁).post fun _ _ h₂ => h₁.trans h₂.visits, fun _ => h₁⟩

/-- The cells of the screen, if it has rows. -/
def OnScreen (c : Cons) (a : Int × Int) : Prop := 1 ≤ c.maxRows → 0 ≤ a.1 ∧ a.1 < c.maxRows ∧ 0 ≤ a.2 ∧ a.2 < c.maxCols

theorem onScreen_of_range {y x : Nat} (hy : y ∈ List.range c.maxRows.toNat) (hx : x ∈ List.range c.maxCols.toNat) :
    OnScreen c ((y : Int), (x : Int)) := by
  rw [List.mem_range] at hy hx
  refine fun _ => ⟨?_, ?_, ?_, ?_⟩ <;> dsimp only <;> omega

theorem consoleRedrawAll_visits (t : Terminal) :
    Wp consoleRedrawAll (fun _ t' => Visits (OnScreen t.cons) t t') (fun _ => False) t := by
  unfold consoleRedrawAll
  rw [wp_bind, wp_get]
  refine Wp.bind (gopDrawRect_draws _ _ _ _ _ t) fun _ t₁ h₁ => ?_
  refine (wp_each_rel (Visits.refl (OnScreen t.cons)) Visits.trans (fun y hy =>
    wp_each_rel (Visits.refl (OnScreen t.cons)) Visits.trans fun x hx => redrawCell_visits (onScreen_of_range hy hx))
      t₁).post ?_
  exact fun _ _ h₂ => h₁.visits.trans h₂

theorem consoleScroll_visits (t : Terminal) :
    Wp consoleScroll (fun _ t' => Visits (OnScreen t.cons) t t') (fun _ => False) t := by
  unfold consoleScroll
  rw [wp_bind, wp_get]
  have hup := wp_each_rel (R := Visits (OnScreen t.cons)) (E := fun _ => False) (Visits.refl _) Visits.trans
    (l := List.range (t.cons.maxRows - 1).toNat) (f := fun y : Nat =>
      each (List.range t.cons.maxCols.toNat) fun x : Nat => moveUp y x) (fun y hy =>
    wp_each_rel (Visits.refl (OnScreen t.cons)) Visits.trans fun x hx => moveUp_visits ?_ ?_) t
  · refine Wp.bind hup fun _ t₁ h₁ => ?_
    refine Wp.bind (wp_each_rel (R := Visits (OnScreen t.cons)) (E := fun _ => False) (Visits.refl _) Visits.trans
      (fun x hx => setCell_visits ?_ space) t₁) fun _ t₂ h₂ => ?_
    · rw [List.mem_range] at hx
      intro h0
      dsimp only
      omega
    · have h₁₂ := h₁.trans h₂
      have hsame : OnScreen t₂.cons = OnScreen t.cons := by
        unfold OnScreen
        rw [h₁₂.maxRows, h₁₂.maxCols]
      have h₃ := consoleRedrawAll_visits t₂
      rw [hsame] at h₃
      exact h₃.post fun _ _ h₃ => h₁₂.trans h₃
  · rw [List.mem_range] at hy hx
    intro h0
    dsimp only
    omega
  · rw [List.mem_range] at hy hx
    intro h0
    dsimp only
    omega

/-! ## Characters -/

/-- The cursor goes to the next line when it has left the screen on the right. -/
def Cons.wrap (c : Cons) : Cons := if c.maxCols ≤ c.curX then { c with curX := 0, curY := c.curY + 1 } else c

/-- A character in a cell. -/
def Cons.write (c : Cons) (y x : Int) (ch : UInt8) : Cons :=
  { c with buffer := setBuffer c.buffer y x ch, accesses := c.accesses ++ [(y, x)] }

/-- What a character does to the console, a scroll apart. -/
def Cons.put (c : Cons) (ch : UInt8) : Cons :=
  if ch = lineFeed then { c with curX := 0, curY := c.curY + 1 }.wrap
  else if ch = carriage then { c with curX := 0 }.wrap
  else if ch = backspace then
    if c.curX = 0 then c else { c.write c.curY (c.curX - 1) space with curX := c.curX - 1 }.wrap
  else { c.write c.curY c.curX ch with curX := c.curX + 1 }.wrap

theorem put_backspace_zero (h : c.curX = 0) : c.put backspace = c := by
  rw [Cons.put, if_neg (by decide), if_neg (by decide), if_pos rfl, if_pos h]

theorem put_backspace (h : c.curX ≠ 0) :
    c.put backspace = { c.write c.curY (c.curX - 1) space with curX := c.curX - 1 }.wrap := by
  rw [Cons.put, if_neg (by decide), if_neg (by decide), if_pos rfl, if_neg h]

theorem put_plain (h1 : ch ≠ lineFeed) (h2 : ch ≠ carriage) (h3 : ch ≠ backspace) :
    c.put ch = { c.write c.curY c.curX ch with curX := c.curX + 1 }.wrap := by
  rw [Cons.put, if_neg h1, if_neg h2, if_neg h3]

/-- The screen was scrolled, and the cursor is in its last row. -/
structure Scrolled (c c' : Cons) : Prop where
  curX : c'.curX = c.curX
  curY : c'.curY = c'.maxRows - 1
  maxCols : c'.maxCols = c.maxCols
  maxRows : c'.maxRows = c.maxRows
  accesses : ∃ l, c'.accesses = c.accesses ++ l ∧ ∀ a ∈ l, OnScreen c a

/-- The effect of `console_putc`: what `put` says, and a scroll where the cursor is below the screen. -/
def Puts (ch : UInt8) (t t' : Terminal) : Prop :=
  t'.display.fb = t.display.fb ∧
    ((t'.cons = t.cons.put ch ∧ ((t.cons.put ch).curY < t.cons.maxRows ∨ ch = backspace ∧ t.cons.curX = 0)) ∨
      t.cons.maxRows ≤ (t.cons.put ch).curY ∧ Scrolled (t.cons.put ch) t'.cons)

theorem wrap_maxRows (c : Cons) : c.wrap.maxRows = c.maxRows := by
  unfold Cons.wrap
  split <;> rfl

theorem wrap_maxCols (c : Cons) : c.wrap.maxCols = c.maxCols := by
  unfold Cons.wrap
  split <;> rfl

theorem wrap_accesses (c : Cons) : c.wrap.accesses = c.accesses := by
  unfold Cons.wrap
  split <;> rfl

theorem put_maxRows (c : Cons) (ch : UInt8) : (c.put ch).maxRows = c.maxRows := by
  unfold Cons.put
  split_ifs <;> first | rfl | exact wrap_maxRows _

theorem put_maxCols (c : Cons) (ch : UInt8) : (c.put ch).maxCols = c.maxCols := by
  unfold Cons.put
  split_ifs <;> first | rfl | exact wrap_maxCols _

theorem nextLine_spec (t : Terminal) : Wp nextLine (fun _ t' => t'.display.fb = t.display.fb ∧
    ((t'.cons = t.cons.wrap ∧ t.cons.wrap.curY < t.cons.maxRows) ∨
      t.cons.maxRows ≤ t.cons.wrap.curY ∧ Scrolled t.cons.wrap t'.cons)) (fun _ => False) t := by
  unfold nextLine modifyCons
  rw [wp_bind, wp_modify, wp_bind, wp_get]
  have hc : ∀ {d f}, (Terminal.mk (if t.cons.maxCols ≤ t.cons.curX then
      { t.cons with
        curX := 0
        curY := t.cons.curY + 1 } else t.cons) d f).cons = t.cons.wrap := rfl
  rw [wp_ite, hc, wrap_maxRows]
  refine ⟨fun hle => ?_, fun hlt => ⟨rfl, Or.inl ⟨rfl, by omega⟩⟩⟩
  refine Wp.bind (consoleScroll_visits _) fun _ t₁ h₁ => ?_
  rw [wp_modify]
  refine ⟨h₁.fb, Or.inr ⟨hle, h₁.curX, rfl, h₁.maxCols, h₁.maxRows, ?_⟩⟩
  obtain ⟨l, hl, hP⟩ := h₁.accesses
  exact ⟨l, hl, hP⟩

/-- The end of `console_putc` from a console that `put` would have before its wrap. -/
theorem nextLine_puts (hfb : t'.display.fb = t.display.fb) (hput : t.cons.put ch = t'.cons.wrap)
    (hrows : t'.cons.maxRows = t.cons.maxRows) :
    Wp nextLine (fun _ t'' => Puts ch t t'') (fun _ => False) t' := by
  refine (nextLine_spec t').post ?_
  rintro _ t'' ⟨hfb', ⟨hc, hlt⟩ | ⟨hle, hs⟩⟩
  · refine ⟨hfb'.trans hfb, Or.inl ⟨hc.trans hput.symm, Or.inl ?_⟩⟩
    rw [hput, ← hrows]
    exact hlt
  · refine ⟨hfb'.trans hfb, Or.inr ⟨?_, ?_⟩⟩
    · rw [hput, ← hrows]
      exact hle
    · rw [hput]
      exact hs

theorem consolePutc_puts (ch : UInt8) (t : Terminal) :
    Wp (consolePutc ch) (fun _ t' => Puts ch t t') (fun _ => False) t := by
  unfold consolePutc
  rw [wp_bind, wp_get]
  dsimp only
  by_cases h1 : ch = lineFeed
  · rw [if_pos h1, wp_bind, modifyCons, wp_modify]
    exact nextLine_puts rfl (if_pos h1) rfl
  by_cases h2 : ch = carriage
  · rw [if_neg h1, if_pos h2, wp_bind, modifyCons, wp_modify]
    exact nextLine_puts rfl ((if_neg h1).trans (if_pos h2)) rfl
  by_cases h3 : ch = backspace
  · rw [if_neg h1, if_neg h2, if_pos h3]
    by_cases h4 : t.cons.curX = 0
    · rw [if_pos h4, wp_pure]
      rw [h3]
      exact ⟨rfl, Or.inl ⟨(put_backspace_zero h4).symm, Or.inr ⟨rfl, h4⟩⟩⟩
    · rw [if_neg h4, wp_bind, modifyCons, wp_modify, wp_bind, setCell, modifyCons, wp_modify]
      refine Wp.bind (drawCell_draws _ _ _ _) fun _ t₁ h₁ => ?_
      refine nextLine_puts h₁.fb ?_ (by rw [h₁.cons])
      rw [h3, put_backspace h4, h₁.cons]
      rfl
  · rw [if_neg h1, if_neg h2, if_neg h3, wp_bind, setCell, modifyCons, wp_modify]
    refine Wp.bind (drawCell_draws _ _ _ _) fun _ t₁ h₁ => ?_
    rw [wp_bind, modifyCons, wp_modify]
    refine nextLine_puts h₁.fb ?_ (by rw [h₁.cons])
    rw [put_plain h1 h2 h3, h₁.cons]
    rfl

/-! ## Screens that fit -/

/-- The screen fits the buffer, the cursor is on the screen, and all accesses were to the buffer. -/
structure Fits (c : Cons) : Prop where
  cols : 1 ≤ c.maxCols ∧ c.maxCols ≤ bufCols
  rows : 1 ≤ c.maxRows ∧ c.maxRows ≤ bufRows
  cursor : c.CursorIn
  accesses : ∀ a ∈ c.accesses, InBuffer a

/-- After `put` the cursor is on the screen or just below it. -/
structure Near (c : Cons) : Prop where
  cols : 1 ≤ c.maxCols ∧ c.maxCols ≤ bufCols
  rows : 1 ≤ c.maxRows ∧ c.maxRows ≤ bufRows
  x : 0 ≤ c.curX ∧ c.curX < c.maxCols
  y : 0 ≤ c.curY ∧ c.curY ≤ c.maxRows
  accesses : ∀ a ∈ c.accesses, InBuffer a

theorem near_wrap (hcols : 1 ≤ c.maxCols ∧ c.maxCols ≤ bufCols) (hrows : 1 ≤ c.maxRows ∧ c.maxRows ≤ bufRows)
    (hx : 0 ≤ c.curX ∧ c.curX ≤ c.maxCols) (hy : 0 ≤ c.curY ∧ c.curY ≤ c.maxRows)
    (hxy : c.curX = c.maxCols → c.curY < c.maxRows) (hacc : ∀ a ∈ c.accesses, InBuffer a) : Near c.wrap := by
  unfold Cons.wrap
  split
  · exact ⟨hcols, hrows, ⟨Int.le_refl 0, by dsimp only; omega⟩, by dsimp only; omega, hacc⟩
  · exact ⟨hcols, hrows, by omega, hy, hacc⟩

/-- An access to a cell of a screen that fits. -/
theorem Fits.write {y x : Int} (h : Fits c) (hy : 0 ≤ y ∧ y < c.maxRows) (hx : 0 ≤ x ∧ x < c.maxCols) (ch : UInt8) :
    ∀ a ∈ (c.write y x ch).accesses, InBuffer a := fun a ha => by
  rcases List.mem_append.mp ha with ha | ha
  · exact h.accesses a ha
  · rw [List.mem_singleton.mp ha]
    exact ⟨hy.1, Int.lt_of_lt_of_le hy.2 h.rows.2, hx.1, Int.lt_of_lt_of_le hx.2 h.cols.2⟩

theorem Fits.put (h : Fits c) (ch : UInt8) : Near (c.put ch) := by
  have hcols := h.cols
  have hx := h.cursor.x
  have hy := h.cursor.y
  unfold Cons.put
  split_ifs with h1 h2 h3 h4
  · refine near_wrap h.cols h.rows ?_ ?_ ?_ h.accesses <;> dsimp only <;> omega
  · refine near_wrap h.cols h.rows ?_ ?_ ?_ h.accesses <;> dsimp only <;> omega
  · exact ⟨h.cols, h.rows, hx, by omega, h.accesses⟩
  · refine near_wrap h.cols h.rows ?_ ?_ ?_ (h.write hy (by omega) space) <;> dsimp only [Cons.write] <;> omega
  · refine near_wrap h.cols h.rows ?_ ?_ ?_ (h.write hy hx ch) <;> dsimp only [Cons.write] <;> omega

theorem Fits.puts (h : Fits t.cons) (hp : Puts ch t t') : Fits t'.cons := by
  have hn := h.put ch
  have hmr := put_maxRows t.cons ch
  have hmc := put_maxCols t.cons ch
  rcases hp.2 with ⟨hc, hin⟩ | ⟨-, hs⟩
  · rw [hc]
    refine ⟨hn.cols, hn.rows, ⟨hn.x, hn.y.1, ?_⟩, hn.accesses⟩
    rcases hin with hlt | ⟨rfl, h0⟩
    · rwa [hmr]
    · rw [put_backspace_zero h0]
      exact h.cursor.y.2
  · obtain ⟨l, hl, hP⟩ := hs.accesses
    have hr := hn.rows
    refine ⟨by rw [hs.maxCols]; exact hn.cols, by rw [hs.maxRows]; exact hn.rows, ⟨?_, ?_⟩, fun a ha => ?_⟩
    · rw [hs.curX, hs.maxCols]
      exact hn.x
    · rw [hs.curY, hs.maxRows]
      omega
    · rw [hl] at ha
      rcases List.mem_append.mp ha with ha | ha
      · exact hn.accesses a ha
      · obtain ⟨h1, h2, h3, h4⟩ := hP a ha hr.1
        exact ⟨h1, Int.lt_of_lt_of_le h2 hr.2, h3, Int.lt_of_lt_of_le h4 hn.cols.2⟩

/-! ## Runs of characters -/

theorem Puts.access {a : Int × Int} (h : Puts ch t t') (ha : a ∈ (t.cons.put ch).accesses) : a ∈ t'.cons.accesses := by
  rcases h.2 with ⟨hc, -⟩ | ⟨-, hs⟩
  · rwa [hc]
  · obtain ⟨l, hl, -⟩ := hs.accesses
    rw [hl]
    exact List.mem_append_left l ha

theorem Puts.maxCols (h : Puts ch t t') : t'.cons.maxCols = t.cons.maxCols := by
  rcases h.2 with ⟨hc, -⟩ | ⟨-, hs⟩
  · rw [hc, put_maxCols]
  · rw [hs.maxCols, put_maxCols]

theorem Puts.maxRows (h : Puts ch t t') : t'.cons.maxRows = t.cons.maxRows := by
  rcases h.2 with ⟨hc, -⟩ | ⟨-, hs⟩
  · rw [hc, put_maxRows]
  · rw [hs.maxRows, put_maxRows]

theorem wrap_of_lt (h : c.curX < c.maxCols) : c.wrap = c := if_neg (Int.not_le.mpr h)

/-- `n + 1` letters reach the column `n` of the row, if it is on the screen. -/
theorem putAll_letters {n : Nat} {t : Terminal} (hlt : t.cons.curX + n < t.cons.maxCols)
    (hy : t.cons.curY < t.cons.maxRows) :
    Wp (putAll (List.replicate (n + 1) 97)) (fun _ t' => (t.cons.curY, t.cons.curX + n) ∈ t'.cons.accesses)
      (fun _ => False) t := by
  have hput := @put_plain t.cons 97 (by decide) (by decide) (by decide)
  induction n generalizing t with
  | zero =>
      refine Wp.bind (consolePutc_puts 97 t) fun _ t₁ h₁ => ?_
      refine h₁.access ?_
      rw [hput, wrap_accesses, Int.natCast_zero, Int.add_zero]
      exact List.mem_append_right _ (List.mem_singleton.mpr rfl)
  | succ n ih =>
      have hw : t.cons.put 97 = { t.cons.write t.cons.curY t.cons.curX 97 with curX := t.cons.curX + 1 } := by
        rw [hput]
        exact wrap_of_lt (by dsimp only [Cons.write]; omega)
      refine Wp.bind (consolePutc_puts 97 t) fun _ t₁ h₁ => ?_
      have hc : t₁.cons = { t.cons.write t.cons.curY t.cons.curX 97 with curX := t.cons.curX + 1 } := by
        rcases h₁.2 with ⟨hc, -⟩ | ⟨hle, -⟩
        · rw [hc, hw]
        · rw [hw] at hle
          exact absurd hy (Int.not_lt.mpr hle)
      have hnext := ih (t := t₁) (by rw [hc]; dsimp only [Cons.write]; omega) (by rw [hc]; exact hy)
        (put_plain (by decide) (by decide) (by decide))
      rw [hc] at hnext
      refine hnext.post fun _ t₂ h₂ => ?_
      rwa [show t.cons.curX + ((n + 1 : Nat) : Int) = t.cons.curX + 1 + n by omega]

/-- A letter after `n` new lines goes to the row `n`, if it is on the screen. -/
theorem putAll_lines {n : Nat} {t : Terminal} (hlt : t.cons.curY + n < t.cons.maxRows) (hx : t.cons.curX = 0)
    (hcols : 1 ≤ t.cons.maxCols) :
    Wp (putAll (List.replicate n lineFeed ++ [97])) (fun _ t' => (t.cons.curY + n, 0) ∈ t'.cons.accesses)
      (fun _ => False) t := by
  induction n generalizing t with
  | zero =>
      refine Wp.bind (consolePutc_puts 97 t) fun _ t₁ h₁ => ?_
      refine h₁.access ?_
      rw [put_plain (by decide) (by decide) (by decide), wrap_accesses, Int.natCast_zero, Int.add_zero, hx]
      exact List.mem_append_right _ (List.mem_singleton.mpr rfl)
  | succ n ih =>
      have hw : t.cons.put lineFeed =
          { t.cons with
            curX := 0
            curY := t.cons.curY + 1 } := by
        rw [Cons.put, if_pos rfl]
        exact wrap_of_lt (by dsimp only; omega)
      refine Wp.bind (consolePutc_puts lineFeed t) fun _ t₁ h₁ => ?_
      have hc : t₁.cons =
          { t.cons with
            curX := 0
            curY := t.cons.curY + 1 } := by
        rcases h₁.2 with ⟨hc, -⟩ | ⟨hle, -⟩
        · rw [hc, hw]
        · rw [hw] at hle
          dsimp only at hle
          omega
      have hnext := ih (t := t₁) (by rw [hc]; dsimp only; omega) (by rw [hc]) (by rw [hc]; exact hcols)
      rw [hc] at hnext
      refine hnext.post fun _ t₂ h₂ => ?_
      rwa [show t.cons.curY + ((n + 1 : Nat) : Int) = t.cons.curY + 1 + n by omega]

end Xv6.Screen
