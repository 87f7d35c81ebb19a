import Xv6.Screen.Lemmas.Edit

/-!
# The screen: main results
-/

namespace Xv6.Screen

open Xv6.Lib Xv6.Console

/-! ## Drawing -/

/-- Whatever a process asks for, `sys_draw` ends, and writes only bytes of pixels of the screen. -/
theorem sysDraw_inside (d : Display) (rp : RegiPile) (hpitch : d.fb.width * (d.fb.bpp / 8) ≤ d.fb.pitch) :
    ∃ d' offs, sysDraw rp d = .ok (0, d') ∧ d'.written = d.written ++ offs ∧ (∀ o, o ∉ offs → d'.bytes o = d.bytes o) ∧
      ∀ o ∈ offs, o < d.fb.pitch * d.fb.height ∧ ∃ col row i, rp.rdi ≤ col ∧ col < d.fb.width ∧ rp.rsi ≤ row ∧
        row < d.fb.height ∧ i < d.fb.bpp / 8 ∧ o = row * d.fb.pitch + col * (d.fb.bpp / 8) + i := by
  have hspec : Wp (sysDraw rp) (fun r d' => r = 0 ∧ Drew (OfRect d.fb rp.rdi rp.rsi d.fb.width d.fb.height) d d')
    (fun _ => False) d := by
    unfold sysDraw
    exact Wp.bind (gopDrawRect_drew _ _ _ _ _ d) fun _ d' h => ⟨rfl, h⟩
  obtain ⟨_, d', hok, rfl, h⟩ := hspec.returns
  obtain ⟨offs, hw, hP, hsame⟩ := h.written
  refine ⟨d', offs, hok, hw, hsame, fun o ho => ?_⟩
  obtain ⟨col, row, hx, hcol, hy, hrow, hpix⟩ := hP o ho
  obtain ⟨i, hi, heq, hlt⟩ := hpix.offset hpitch hcol hrow
  exact ⟨hlt, col, row, i, hx, hcol, hy, hrow, hi, heq⟩

/-- A screen of 1024 times 768 pixels of four bytes. -/
def xga : GopFb := ⟨1024, 768, 4096, 32, by decide, by decide, by decide, by decide⟩

/-- A rectangle that is clipped at the right and at the bottom, so that one row of two pixels is drawn. -/
theorem sysDraw_inside_clipped : ∃ d' offs, sysDraw ⟨1022, 767, 500, 10, gopWhi⟩ ⟨xga, fun _ => 0, []⟩ = .ok (0, d') ∧
    d'.written = offs ∧ offs.length = 8 ∧ ∀ o ∈ offs, o < 4096 * 768 := by
  obtain ⟨d', offs, hok, hw, -, hin⟩ := sysDraw_inside ⟨xga, fun _ => 0, []⟩ ⟨1022, 767, 500, 10, gopWhi⟩ (by decide)
  have hlen : (sysDraw ⟨1022, 767, 500, 10, gopWhi⟩ ⟨xga, fun _ => 0, []⟩).toOption.map (fun r => r.2.written.length) =
    some 8 := by
    decide +kernel
  rw [hok] at hlen
  rw [List.nil_append] at hw
  exact ⟨d', offs, hok, hw, by rw [← hw]; exact Option.some.inj hlen, fun o ho => (hin o ho).1⟩

/-! ## The text buffer -/

/-- The console after `console_init`. -/
def start (fb : GopFb) (bytes : Bytes) (font : Nat → Nat → Nat) : Terminal :=
  ⟨⟨fun _ _ => 0, 0, 0, fb.width / 8, fb.height / 16, gopWhi, gopBlk, 8, 16, []⟩, ⟨fb, bytes, []⟩, font⟩

theorem init_putAll {fb : GopFb} (hbpp : 8 ≤ fb.bpp) (bytes : Bytes) (font : Nat → Nat → Nat) (cs : List UInt8) :
    (do consoleInit; putAll cs) ⟨Cons.zero, ⟨fb, bytes, []⟩, font⟩ = putAll cs (start fb bytes font) := by
  have hpos : ¬ fb.bpp / 8 = 0 := by omega
  have hspec : Wp consoleInit (fun _ t => t = start fb bytes font) (fun _ => False)
      ⟨Cons.zero, ⟨fb, bytes, []⟩, font⟩ := by
    simp only [consoleInit, wp_bind, wp_modify, wp_get, wp_ite, wp_throw, wp_pure]
    exact ⟨fun h0 => hpos h0, fun _ => rfl⟩
  obtain ⟨_, _, hinit, rfl⟩ := hspec.returns
  simp only [bind, StateT.bind, Except.bind, hinit]

theorem fits_start {fb : GopFb} (hw : 8 ≤ fb.width ∧ fb.width < 2056) (hh : 16 ≤ fb.height ∧ fb.height < 2064)
    (bytes : Bytes) (font : Nat → Nat → Nat) : Fits (start fb bytes font).cons := by
  refine ⟨?_, ?_, ⟨?_, ?_⟩, fun a ha => absurd ha List.not_mem_nil⟩ <;> dsimp only [start, bufCols, bufRows] <;> omega

theorem Fits.putAll {t : Terminal} (h : Fits t.cons) (cs : List UInt8) :
    Wp (putAll cs) (fun _ t' => Fits t'.cons) (fun _ => False) t :=
  wp_each (fun _ (t' : Terminal) => Fits t'.cons)
    (fun ch _ t₁ h₁ => (consolePutc_puts ch t₁).post fun _ _ hp => h₁.puts hp) cs t h

/-- Without a whole byte for a pixel the console does not start. -/
theorem StaysInside.bpp {fb : GopFb} (h : StaysInside fb) : 8 ≤ fb.bpp := by
  obtain ⟨t, hok, -⟩ := h (fun _ => 0) (fun _ _ => 0) []
  have hinit : Wp (do consoleInit; putAll []) (fun _ _ => 8 ≤ fb.bpp) (fun _ => True)
    ⟨Cons.zero, ⟨fb, fun _ => 0, []⟩, fun _ _ => 0⟩ := by
    simp only [consoleInit, wp_bind, wp_modify, wp_get, wp_ite, wp_throw, wp_pure]
    exact ⟨fun _ => trivial, fun hne => .of_forall_ok (fun _ _ _ => by omega) fun _ => trivial⟩
  exact hinit.of_ok hok

/-- A screen without columns or rows has no place for the cursor. -/
theorem StaysInside.pos {fb : GopFb} (h : StaysInside fb) : 8 ≤ fb.width ∧ 16 ≤ fb.height := by
  obtain ⟨t, hok, -, hin⟩ := h (fun _ => 0) (fun _ _ => 0) [carriage]
  have hspec : Wp (putAll [carriage]) (fun _ t' => Puts carriage (start fb (fun _ => 0) fun _ _ => 0) t')
      (fun _ => False) (start fb (fun _ => 0) fun _ _ => 0) :=
    Wp.bind (consolePutc_puts carriage _) fun _ _ hp => hp
  rw [init_putAll h.bpp] at hok
  have hp := hspec.of_ok hok
  obtain ⟨hx, hy⟩ := hin (List.cons_ne_nil _ _)
  rw [hp.maxCols] at hx
  rw [hp.maxRows] at hy
  dsimp only [start] at hx hy
  omega

/-- On a wide screen a long line leaves the buffer. -/
theorem StaysInside.width_lt {fb : GopFb} (h : StaysInside fb) : fb.width < 2056 := by
  have hpos := h.pos
  by_contra hge
  obtain ⟨t, hok, hacc, -⟩ := h (fun _ => 0) (fun _ _ => 0) (List.replicate 257 97)
  have hspec := putAll_letters (n := 256) (t := start fb (fun _ => 0) fun _ _ => 0)
    (by dsimp only [start]; omega) (by dsimp only [start]; omega)
  rw [init_putAll h.bpp] at hok
  have hlt := (hacc _ (hspec.of_ok hok)).2.2.2
  dsimp only [start, bufCols] at hlt
  omega

/-- On a high screen the letter after 128 new lines is stored behind the last row of the buffer. -/
theorem lines_overflow {fb : GopFb} (hbpp : 8 ≤ fb.bpp) (hw : 8 ≤ fb.width) (hh : 2064 ≤ fb.height) (bytes : Bytes)
    (font : Nat → Nat → Nat) :
    ∃ t, (do consoleInit; putAll (List.replicate 128 lineFeed ++ [97])) ⟨Cons.zero, ⟨fb, bytes, []⟩, font⟩ =
      .ok ((), t) ∧ (128, 0) ∈ t.cons.accesses := by
  have hspec := putAll_lines (n := 128) (t := start fb bytes font) (by dsimp only [start]; omega) rfl
    (by dsimp only [start]; omega)
  rw [show (start fb bytes font).cons.curY = 0 from rfl, Int.zero_add] at hspec
  rw [init_putAll hbpp]
  obtain ⟨_, t, hok, hacc⟩ := hspec.returns
  exact ⟨t, hok, hacc⟩

theorem StaysInside.height_lt {fb : GopFb} (h : StaysInside fb) : fb.height < 2064 := by
  by_contra hge
  obtain ⟨t, hok, hacc, -⟩ := h (fun _ => 0) (fun _ _ => 0) (List.replicate 128 lineFeed ++ [97])
  obtain ⟨t', hok', hin⟩ := lines_overflow h.bpp h.pos.1 (Nat.not_lt.mp hge) (fun _ => 0) fun _ _ => 0
  rw [hok] at hok'
  obtain rfl := (Prod.mk.inj (Except.ok.inj hok')).2
  exact absurd (hacc _ hin).2.1 (by decide)

/-- The console keeps to its buffer on the screens that fit it and have whole bytes for a pixel, and on no others. -/
theorem staysInside_iff (fb : GopFb) :
    StaysInside fb ↔ 8 ≤ fb.bpp ∧ (8 ≤ fb.width ∧ fb.width < 2056) ∧ 16 ≤ fb.height ∧ fb.height < 2064 := by
  constructor
  · intro h
    exact ⟨h.bpp, ⟨h.pos.1, h.width_lt⟩, h.pos.2, h.height_lt⟩
  · rintro ⟨hbpp, hw, hh⟩ bytes font cs
    obtain ⟨_, t, hok, hf⟩ := ((fits_start hw hh bytes font).putAll cs).returns
    exact ⟨t, (init_putAll hbpp bytes font cs).trans hok, hf.accesses, fun _ => hf.cursor⟩

/-- A screen of 3840 times 2160 pixels has 135 rows. -/
def uhd : GopFb := ⟨3840, 2160, 15360, 32, by decide, by decide, by decide, by decide⟩

theorem uhd_overflow : ∃ t, (do consoleInit; putAll (List.replicate 128 lineFeed ++ [97]))
    ⟨Cons.zero, ⟨uhd, fun _ => 0, []⟩, fun _ _ => 0⟩ = .ok ((), t) ∧ (128, 0) ∈ t.cons.accesses ∧
      ¬ InBuffer (128, 0) := by
  obtain ⟨t, hok, hacc⟩ := @lines_overflow uhd (by decide) (by decide) (by decide) (fun _ => 0) fun _ _ => 0
  exact ⟨t, hok, hacc, fun h => absurd h.2.1 (by decide)⟩

/-! ## The line that is being edited -/

/-- In a run that does not scroll, the screen shows the line that is being edited as long as no key erases beyond the
row of the cursor. The first key that does leaves a character of the line before the cursor. -/
theorem shows_iff {s : Editor} (h : editing.ReachableIf (fun s a => Still s a ∧ InRow s a) s) :
    Shows s ∧ ∀ a s', Still s a → s.step a = some s' → (Shows s' ↔ InRow s a) := by
  obtain ⟨L, hL⟩ := showing_of_reachable h
  refine ⟨hL.shows, fun a s' hstill hs => ?_⟩
  have hstep := hL.step hstill hs
  constructor
  · intro hshows
    by_contra hout
    exact hstep.2 hout hshows
  · intro hin
    obtain ⟨L', hL'⟩ := hstep.1 hin
    exact hL'.shows

/-- A blank screen of 128 columns with the cursor in the first row. -/
def atColumn (x : Int) : Editor :=
  ⟨⟨fun _ => 0, 0, 0, 0⟩, ⟨⟨fun _ _ => space, 0, x, 128, 48, gopWhi, gopBlk, 8, 16, []⟩,
    ⟨xga, fun _ => 0, []⟩, fun _ _ => 0⟩, x, fun _ => space⟩

section

variable {x : Int}

theorem atColumn_blank (hx : 0 ≤ x ∧ x < 128) : Blank (atColumn x) :=
  ⟨(by decide : 0 < 2 ^ 32), rfl, rfl, hx, (by decide : (0 : Int) ≤ 0 ∧ (0 : Int) < 48), (Int.zero_add x).symm, rfl⟩

theorem atColumn_still (hx : 0 ≤ x ∧ x < 128) : Still (atColumn x) (.key 97) := by
  refine fun _ => ⟨fun _ => ⟨Int.le_refl 0, (by decide : (0 : Int) < 128), hx.1, Int.lt_trans hx.2 (by decide)⟩, ?_⟩
  rw [show echo 97 = 97 from rfl, put_plain (by decide) (by decide) (by decide)]
  unfold Cons.wrap
  split
  · exact (by decide : (0 : Int) + 1 < 48)
  · exact (by decide : (0 : Int) < 48)

theorem atColumn_inRow : InRow (atColumn x) (.key 97) := ⟨fun h => absurd h (by decide), fun h => absurd h (by decide)⟩

theorem atColumn_letter (hx : 0 ≤ x ∧ x < 128) :
    ∃ s, (atColumn x).step (.key 97) = some s ∧ Showing ⟨[], [97], 0⟩ s ∧
      s.term.cons = (atColumn x).term.cons.put 97 := by
  have hlt := (atColumn_still hx ⟨by decide, by decide, by decide, by show sub32 0 0 < inputBuf; decide⟩).2
  have hcons : Wp (intr 97) (fun _ s' => s'.term.cons = (atColumn x).term.cons.put 97) (fun _ => False)
    (atColumn x) := by
    unfold intr
    rw [wp_bind, wp_get, if_neg (by decide), if_neg (by decide), if_pos ⟨by decide, (by decide : sub32 0 0 < inputBuf)⟩]
    exact storeKey_cons hlt
  obtain ⟨_, s, hok, hs, -⟩ := ((atColumn_blank hx).showing.intr (atColumn_still hx)).returns
  exact ⟨s, by simp only [Editor.step, hok], hs atColumn_inRow, hcons.of_ok hok⟩

/-- Erasing the letter. -/
theorem still_erase {s : Editor} : Still s (.key (ctrl 'H')) := fun hst => absurd rfl hst.2.1

end

/-- A letter in the first column, erased again. -/
theorem shows_iff_firstColumn : ∃ s s', (atColumn 0).step (.key 97) = some s ∧ s.step (.key (ctrl 'H')) = some s' ∧
    Shows s ∧ Shows s' := by
  obtain ⟨s, hs, hL, hc⟩ := atColumn_letter (x := 0) (by decide)
  obtain ⟨_, s', hok, -⟩ := (hL.intr (a := ctrl 'H') still_erase).returns
  have hs' : s.step (.key (ctrl 'H')) = some s' := by simp only [Editor.step, hok]
  have hin : InRow s (.key (ctrl 'H')) := ⟨fun h => absurd h (by decide), fun _ _ => by rw [hc]; decide⟩
  have hreach : editing.ReachableIf (fun s a => Still s a ∧ InRow s a) s :=
    .step (.start (atColumn_blank (by decide))) ⟨atColumn_still (by decide), atColumn_inRow⟩ hs
  exact ⟨s, s', hs, hs', (shows_iff hreach).1, ((shows_iff hreach).2 _ s' still_erase hs').mpr hin⟩

/-- A letter in the last column fills the row. Erasing it takes it out of the line, but leaves it on the screen, with
the cursor behind it. -/
theorem lastColumn_erase : ∃ s s', editing.start (atColumn 127) ∧ (atColumn 127).step (.key 97) = some s ∧
    Still (atColumn 127) (.key 97) ∧ s.step (.key (ctrl 'H')) = some s' ∧ Still s (.key (ctrl 'H')) ∧
      s'.input.e = s'.input.w ∧ ¬ Shows s' := by
  obtain ⟨s, hs, hL, hc⟩ := atColumn_letter (x := 127) (by decide)
  have hx : s.term.cons.curX = 0 := by rw [hc]; decide
  have hne : s.input.e ≠ s.input.w := fun he => absurd (hL.sim.e_eq_w.mp he) (by decide)
  obtain ⟨_, s', hok, -, hno⟩ := (hL.intr (a := ctrl 'H') still_erase).returns
  have hin := (intr_input (ctrl 'H') s).of_ok hok
  have he := (hL.sim.typed (ctrl 'H')).e_eq_w.mpr (by decide)
  rw [← hin] at he
  exact ⟨s, s', atColumn_blank (by decide), hs, atColumn_still (by decide), by simp only [Editor.step, hok],
    still_erase, he, hno fun hrow => hrow.2 rfl hne hx⟩

end Xv6.Screen
