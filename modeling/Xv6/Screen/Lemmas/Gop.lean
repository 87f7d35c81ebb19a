import Xv6.Screen.Gop

/-!
# What drawing writes

`Drew P` relates the screens before and after: only offsets with the property `P` were written. It is reflexive and
transitive, so a loop whose rounds all draw inside `P` draws inside `P`.
-/

namespace Xv6.Screen

open Xv6.Lib

variable {P R : Nat → Prop} {s s' s'' : Display} {x y w h color col row i xEnd yEnd : Nat}

/-- Only offsets with the property `P` were written, and the other bytes are as before. -/
structure Drew (P : Nat → Prop) (s s' : Display) : Prop where
  fb : s'.fb = s.fb
  written : ∃ offs, s'.written = s.written ++ offs ∧ (∀ o ∈ offs, P o) ∧ ∀ o, o ∉ offs → s'.bytes o = s.bytes o

theorem Drew.refl (P : Nat → Prop) (s : Display) : Drew P s s :=
  ⟨rfl, [], (List.append_nil _).symm, fun _ h => absurd h List.not_mem_nil, fun _ _ => rfl⟩

theorem Drew.trans (h : Drew P s s') (h' : Drew P s' s'') : Drew P s s'' := by
  obtain ⟨offs, h1, h2, h3⟩ := h.written
  obtain ⟨offs', h1', h2', h3'⟩ := h'.written
  refine ⟨h'.fb.trans h.fb, offs ++ offs', ?_, fun o ho => ?_, fun o ho => ?_⟩
  · rw [h1', h1, List.append_assoc]
  · exact (List.mem_append.mp ho).elim (h2 o) (h2' o)
  · rw [h3' o fun h0 => ho (List.mem_append_right _ h0), h3 o fun h0 => ho (List.mem_append_left _ h0)]

theorem Drew.mono (h : Drew P s s') (hPR : ∀ o, P o → R o) : Drew R s s' := by
  obtain ⟨offs, h1, h2, h3⟩ := h.written
  exact ⟨h.fb, offs, h1, fun o ho => hPR o (h2 o ho), h3⟩

theorem putByte_drew {off : Nat} (h : P off) (b : UInt8) (s : Display) :
    Wp (putByte off b) (fun _ s' => Drew P s s') (fun _ => False) s := by
  rw [putByte, wp_modify]
  refine ⟨rfl, [off], rfl, fun o ho => ?_, fun o ho => ?_⟩
  · rwa [List.mem_singleton.mp ho]
  · exact upd_of_ne (fun h0 => ho (List.mem_singleton.mpr h0)) _ _

/-- The offsets of a pixel. -/
def OfPixel (fb : GopFb) (col row o : Nat) : Prop :=
  ∃ i < fb.bpp / 8, o = (row * fb.pitch + col * (fb.bpp / 8) + i) % 2 ^ 64

theorem gopDrawPixel_drew (x y color : Nat) (s : Display) :
    Wp (gopDrawPixel x y color) (fun _ s' => Drew (OfPixel s.fb x y) s s') (fun _ => False) s := by
  have hbpp := s.fb.bpp_lt
  unfold gopDrawPixel
  rw [wp_bind, wp_get]
  refine wp_loop (fun _ s' => Drew (OfPixel s.fb x y) s s') (fun i => s.fb.bpp / 8 - i) ?_ _ _ _
    (Drew.refl _ s) (by omega)
  rintro i s₁ h₁
  rw [pixelRound, wp_ite]
  refine ⟨fun hi => ?_, fun _ => h₁⟩
  refine Wp.bind (putByte_drew (P := OfPixel s.fb x y) ⟨i, hi, ?_⟩ _ s₁) fun _ s₂ h₂ => ?_
  · rw [Nat.mod_add_mod]
  · rw [wp_pure]
    exact ⟨h₁.trans h₂, by omega⟩

/-- A rectangle of pixels. -/
def OfRect (fb : GopFb) (x y xEnd yEnd o : Nat) : Prop :=
  ∃ col row, x ≤ col ∧ col < xEnd ∧ y ≤ row ∧ row < yEnd ∧ OfPixel fb col row o

theorem colLoop_drew (hx : xEnd < 2 ^ 64) (hy : y ≤ row ∧ row < yEnd) (s : Display) :
    Wp (loop (colRound row xEnd color) (xEnd + 1) x) (fun _ s' => Drew (OfRect s.fb x y xEnd yEnd) s s')
      (fun _ => False) s := by
  refine wp_loop (fun col s' => Drew (OfRect s.fb x y xEnd yEnd) s s' ∧ x ≤ col) (fun col => xEnd - col) ?_ _ _ _
    ⟨Drew.refl _ s, Nat.le_refl x⟩ (by omega)
  rintro col s₁ ⟨h₁, hcol⟩
  rw [colRound, wp_ite]
  refine ⟨fun hlt => ?_, fun _ => h₁⟩
  refine Wp.bind (gopDrawPixel_drew col row color s₁) fun _ s₂ h₂ => ?_
  rw [h₁.fb] at h₂
  rw [wp_pure, Nat.mod_eq_of_lt (show col + 1 < 2 ^ 64 by omega)]
  exact ⟨⟨h₁.trans (h₂.mono fun o ho => ⟨col, row, hcol, hlt, hy.1, hy.2, ho⟩), by omega⟩, by omega⟩

theorem gopDrawRect_drew (x y w h color : Nat) (s : Display) :
    Wp (gopDrawRect x y w h color) (fun _ s' => Drew (OfRect s.fb x y s.fb.width s.fb.height) s s')
      (fun _ => False) s := by
  have hw := s.fb.width_lt
  have hh := s.fb.height_lt
  unfold gopDrawRect
  rw [wp_bind, wp_get]
  dsimp only
  generalize hxe : (if s.fb.width < (x + w) % 2 ^ 64 then s.fb.width else (x + w) % 2 ^ 64) = xEnd
  generalize hye : (if s.fb.height < (y + h) % 2 ^ 64 then s.fb.height else (y + h) % 2 ^ 64) = yEnd
  have hx : xEnd ≤ s.fb.width := by
    rw [← hxe]
    split <;> omega
  have hy : yEnd ≤ s.fb.height := by
    rw [← hye]
    split <;> omega
  refine wp_loop (fun row s' => Drew (OfRect s.fb x y s.fb.width s.fb.height) s s' ∧ y ≤ row)
    (fun row => yEnd - row) ?_ _ _ _ ⟨Drew.refl _ s, Nat.le_refl y⟩ (by omega)
  rintro row s₁ ⟨h₁, hrow⟩
  rw [rowRound, wp_ite]
  refine ⟨fun hlt => ?_, fun _ => h₁⟩
  refine Wp.bind (colLoop_drew (by omega) ⟨hrow, hlt⟩ s₁) fun _ s₂ h₂ => ?_
  rw [h₁.fb] at h₂
  rw [wp_pure, Nat.mod_eq_of_lt (show row + 1 < 2 ^ 64 by omega)]
  refine ⟨⟨h₁.trans (h₂.mono ?_), by omega⟩, by omega⟩
  rintro o ⟨c, r, hc, hc', hr, hr', ho⟩
  exact ⟨c, r, hc, by omega, hr, by omega, ho⟩

/-- A pixel of the screen lies in its row, and its row in the framebuffer. -/
theorem OfPixel.offset {fb : GopFb} {o : Nat} (h : OfPixel fb col row o) (hpitch : fb.width * (fb.bpp / 8) ≤ fb.pitch)
    (hcol : col < fb.width) (hrow : row < fb.height) :
    ∃ i < fb.bpp / 8, o = row * fb.pitch + col * (fb.bpp / 8) + i ∧ o < fb.pitch * fb.height := by
  obtain ⟨i, hi, rfl⟩ := h
  have h1 : (col + 1) * (fb.bpp / 8) ≤ fb.pitch := Nat.le_trans (Nat.mul_le_mul_right _ hcol) hpitch
  have h2 : (row + 1) * fb.pitch ≤ fb.height * fb.pitch := Nat.mul_le_mul_right _ hrow
  have h3 : fb.height * fb.pitch ≤ 2 ^ 32 * 2 ^ 32 :=
    Nat.mul_le_mul (Nat.le_of_lt fb.height_lt) (Nat.le_of_lt fb.pitch_lt)
  rw [Nat.add_mul, Nat.one_mul] at h1 h2
  rw [Nat.mul_comm fb.pitch]
  have hlt : row * fb.pitch + col * (fb.bpp / 8) + i < fb.height * fb.pitch := by omega
  refine ⟨i, hi, ?_⟩
  rw [Nat.mod_eq_of_lt (by omega)]
  exact ⟨rfl, hlt⟩

end Xv6.Screen
