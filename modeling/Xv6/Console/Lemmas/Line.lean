import Mathlib.Data.List.Basic
import Xv6.Lib.RingBuf
import Xv6.Console.Line

/-!
# The ring holds the line

`Sim L s`: the ring of the console holds the unread part of the committed stream, followed by the line
that is being edited. Every key and every run of a reader keeps it.
-/

namespace Xv6.Console

open Xv6.Lib

variable {L : Line} {s : Input}

/-! ## Arithmetic of the indices -/

theorem sub32_add {x b : Nat} (hb : b < 2 ^ 32) : sub32 (u32 (x + b)) (u32 x) = b := by
  unfold sub32 u32
  omega

theorem sub32_succ {x : Nat} (hx : x < 2 ^ 32) : sub32 (u32 (x + 1)) 1 = x := by
  unfold sub32 u32
  omega

theorem u32_add_inj {x a b : Nat} (ha : a < 2 ^ 32) (hb : b < 2 ^ 32) (h : u32 (x + a) = u32 (x + b)) : a = b := by
  unfold u32 at h
  omega

theorem u32_u32_add (x a : Nat) : u32 (u32 x + a) = u32 (x + a) := Nat.mod_add_mod x (2 ^ 32) a

/-! ## The simulation -/

/-- The ring with all characters of the buffer. -/
def Input.ring (s : Input) : RingBuf UInt8 := ⟨s.buf, s.r, s.e⟩

structure Sim (L : Line) (s : Input) : Prop where
  fits : s.ring.Fits inputBuf (2 ^ 32)
  contents : s.ring.contents inputBuf (2 ^ 32) = L.committed.drop L.used ++ L.pending
  used : L.used ≤ L.committed.length
  w : s.w = u32 (s.r + (L.committed.length - L.used))
  plain : newline ∉ L.pending
  full : L.size = inputBuf → L.pending = []

namespace Sim

/-- An empty buffer. -/
theorem empty (hr : s.r < 2 ^ 32) (hw : s.w = s.r) (he : s.e = s.r) : Sim ⟨[], [], 0⟩ s := by
  have hring : s.ring.nread = s.ring.nwrite := he.symm
  have hcount : s.ring.count (2 ^ 32) = 0 := by
    rw [RingBuf.count_of_le (by rw [← hring]; exact hr) (Nat.le_of_eq hring), hring, Nat.sub_self]
  have hfits : s.ring.Fits inputBuf (2 ^ 32) := ⟨hr, by rw [← hring]; exact hr, by rw [hcount]; exact Nat.zero_le _⟩
  refine ⟨hfits, hfits.contents_eq_nil.mpr hring, Nat.zero_le _, ?_, by simp, fun _ => rfl⟩
  rw [hw]
  exact (Nat.mod_eq_of_lt hr).symm

theorem size_eq (h : Sim L s) : sub32 s.e s.r = L.size := by
  have hlen := congrArg List.length h.contents
  rw [RingBuf.length_contents, List.length_append, List.length_drop] at hlen
  exact hlen

theorem size_le (h : Sim L s) : L.size ≤ inputBuf := by
  rw [← h.size_eq]
  exact h.fits.count

theorem r_lt (h : Sim L s) : s.r < 2 ^ 32 := h.fits.nread

theorem u32_r (h : Sim L s) : u32 s.r = s.r := Nat.mod_eq_of_lt h.r_lt

theorem e_eq (h : Sim L s) : s.e = u32 (s.r + L.size) := by
  have hw := h.fits.nwrite_eq
  rw [show s.ring.count (2 ^ 32) = L.size from h.size_eq] at hw
  exact hw

theorem w_sub (h : Sim L s) : sub32 s.w s.r = L.committed.length - L.used := by
  have hle := h.size_le
  have hsub := sub32_add (x := s.r) (b := L.committed.length - L.used) (by simp [Line.size] at hle; omega)
  rwa [← h.w, h.u32_r] at hsub

theorem e_sub_w (h : Sim L s) : sub32 s.e s.w = L.pending.length := by
  have hle := h.size_le
  rw [h.e_eq, h.w, Line.size, ← Nat.add_assoc]
  exact sub32_add (by simp [Line.size] at hle; omega)

/-- `e` and `w` are apart when there is something to edit. -/
theorem e_eq_w (h : Sim L s) : s.e = s.w ↔ L.pending = [] := by
  have hle := h.size_le
  constructor
  · intro he
    rw [h.e_eq, h.w] at he
    have := u32_add_inj (by simp at hle; omega) (by simp [Line.size] at hle; omega) he
    rw [← List.length_eq_zero_iff]
    unfold Line.size at this
    omega
  · intro hp
    rw [h.e_eq, h.w, Line.size, hp]
    rfl

/-- `r` and `w` are apart when there is something to read. -/
theorem r_eq_w (h : Sim L s) : s.r = s.w ↔ L.used = L.committed.length := by
  have hle := h.size_le
  have hused := h.used
  constructor
  · intro he
    have hsub := h.w_sub
    rw [← he] at hsub
    unfold sub32 u32 at hsub
    have := h.r_lt
    omega
  · intro hu
    rw [h.w, hu, Nat.sub_self, Nat.add_zero, h.u32_r]

/-! ## Keys -/

/-- The last character of the line is erased. -/
theorem erase {committed p : List UInt8} {c : UInt8} {used : Nat} (h : Sim ⟨committed, p ++ [c], used⟩ s) :
    Sim ⟨committed, p, used⟩ { s with e := sub32 s.e 1 } ∧ s.buf (sub32 s.e 1 % inputBuf) = c := by
  have hne : s.ring.nread ≠ s.ring.nwrite := by
    rw [Ne, ← h.fits.contents_eq_nil, h.contents]
    simp
  have hsize := h.size_le
  have hcontents := h.fits.contents_unpush hne (by decide)
  rw [h.contents, ← List.append_assoc] at hcontents
  obtain ⟨hinit, hlast⟩ := List.append_inj' hcontents rfl
  refine ⟨⟨h.fits.unpush hne, hinit.symm, h.used, h.w, ?_, ?_⟩, ?_⟩
  · exact fun hmem => h.plain (List.mem_append_left _ hmem)
  · intro hfull
    simp only [Line.size, List.length_append, List.length_singleton] at hfull hsize
    omega
  · exact (List.singleton_inj.mp hlast).symm

/-- `C('U')` erases the whole line, because a newline would have committed it. -/
theorem killLine {n : Nat} (h : Sim L s) (hn : L.pending.length ≤ n) :
    Sim ⟨L.committed, [], L.used⟩ (killLine n s) := by
  induction n generalizing L s with
  | zero =>
      have hnil := List.length_eq_zero_iff.mp (Nat.le_zero.mp hn)
      rw [← hnil]
      exact h
  | succ n ih =>
      obtain ⟨committed, pending, used⟩ := L
      unfold Console.killLine
      cases List.eq_nil_or_concat' pending with
      | inl hnil =>
          subst hnil
          rw [if_neg fun hgo => hgo.1 (h.e_eq_w.mpr rfl)]
          exact h
      | inr hconcat =>
          obtain ⟨p, c, rfl⟩ := hconcat
          obtain ⟨herase, hc⟩ := h.erase
          have hgo : s.e ≠ s.w := fun he => absurd (h.e_eq_w.mp he) (by simp)
          have hnl : c ≠ newline := fun hcn => h.plain (by simp [hcn])
          rw [if_pos ⟨hgo, hc ▸ hnl⟩]
          have hrest := ih herase (by simpa using hn)
          exact hrest

theorem e_succ (h : Sim L s) : u32 (s.e + 1) = u32 (s.r + (L.size + 1)) := by
  rw [h.e_eq, u32_u32_add, Nat.add_assoc]

/-- The test for a buffer that the next character fills. -/
theorem full_iff (h : Sim L s) (hroom : L.size < inputBuf) : u32 (s.e + 1) = u32 (s.r + inputBuf) ↔
    L.size + 1 = inputBuf := by
  rw [h.e_succ]
  constructor
  · intro heq
    exact u32_add_inj (by simp at hroom; omega) (by simp) heq
  · intro heq
    rw [heq]

/-- A character is stored. -/
theorem add (h : Sim L s) (hroom : L.size < inputBuf) (c : UInt8) : Sim (L.add c) (store c s) := by
  have hcount : s.ring.count (2 ^ 32) = L.size := h.size_eq
  have hlt : s.ring.count (2 ^ 32) < inputBuf := hcount ▸ hroom
  have hfits := h.fits.push hlt (by decide) c
  have hcontents := h.fits.contents_push hlt (by decide) (by decide) c
  rw [h.contents] at hcontents
  have he := h.e_succ
  have hused := h.used
  unfold store Line.add
  simp only [h.full_iff hroom]
  split
  · refine ⟨hfits, ?_, ?_, ?_, by simp, fun _ => rfl⟩
    · rw [List.drop_append_of_le_length hused, List.append_nil]
      exact hcontents.trans (List.append_assoc _ _ _)
    · simp only [List.length_append]
      omega
    · simp only [he, Line.size, List.length_append, List.length_singleton]
      congr 1
      omega
  · rename_i hno
    refine ⟨hfits, hcontents.trans (List.append_assoc _ _ _), h.used, h.w, ?_, ?_⟩
    · intro hmem
      cases List.mem_append.mp hmem with
      | inl hp => exact h.plain hp
      | inr hc => exact hno (.inl (List.mem_singleton.mp hc).symm)
    · intro hsize
      refine absurd (.inr (.inr ?_)) hno
      simp only [Line.size, List.length_append, List.length_singleton] at hsize ⊢
      omega

/-- A key. -/
theorem typed (h : Sim L s) (c : UInt8) : Sim (L.typed c) (consoleIntr c s) := by
  unfold consoleIntr Line.typed
  split
  · exact h.killLine (Nat.le_of_eq h.e_sub_w.symm)
  split
  · obtain ⟨committed, pending, used⟩ := L
    cases List.eq_nil_or_concat' pending with
    | inl hnil =>
        subst hnil
        rw [if_neg (not_not_intro (h.e_eq_w.mpr rfl))]
        exact h
    | inr hconcat =>
        obtain ⟨p, x, rfl⟩ := hconcat
        rw [if_pos fun he => absurd (h.e_eq_w.mp he) (by simp)]
        simp only [List.dropLast_concat]
        exact h.erase.1
  rw [h.size_eq]
  split
  · rename_i hstore
    exact h.add hstore.2 _
  · exact h

/-! ## Readers -/

/-- The next character of the stream is read. -/
theorem take (h : Sim L s) (hne : s.r ≠ s.w) :
    Sim ⟨L.committed, L.pending, L.used + 1⟩ { s with r := u32 (s.r + 1) } ∧
      L.committed.drop L.used = s.buf (s.r % inputBuf) :: L.committed.drop (L.used + 1) := by
  have hused : L.used < L.committed.length := by
    have := h.used
    have := mt h.r_eq_w.mpr hne
    omega
  have hdrop := List.drop_eq_getElem_cons hused
  have hpos : s.ring.nread ≠ s.ring.nwrite := by
    rw [Ne, ← h.fits.contents_eq_nil, h.contents, hdrop]
    exact List.cons_ne_nil _ _
  have hcontents := h.fits.contents_pop hpos (by decide)
  rw [h.contents, hdrop, List.cons_append] at hcontents
  obtain ⟨hhead, htail⟩ := List.cons_eq_cons.mp hcontents
  have hsize := h.size_le
  refine ⟨⟨h.fits.pop hpos, htail.symm, hused, ?_, h.plain, ?_⟩, ?_⟩
  · have hsum : s.r + (L.committed.length - L.used) = s.r + 1 + (L.committed.length - (L.used + 1)) := by omega
    rw [u32_u32_add, h.w, hsum]
  · intro hfull
    simp only [Line.size] at hfull hsize
    omega
  · rw [hdrop, hhead]
    rfl

/-- The unread part of the committed stream. -/
theorem unread (h : Sim L s) :
    (List.range (sub32 s.w s.r)).map (fun i => s.buf ((s.r + i) % inputBuf)) = L.committed.drop L.used := by
  have hlen : L.committed.length - L.used ≤ s.ring.count (2 ^ 32) := by
    rw [show s.ring.count (2 ^ 32) = L.size from h.size_eq]
    exact Nat.le_add_right _ _
  have htake := congrArg (List.take (L.committed.length - L.used)) h.contents
  rw [RingBuf.contents, ← List.map_take, List.take_range, Nat.min_eq_left hlen,
    List.take_append_of_le_length (by simp), List.take_of_length_le (by simp)] at htake
  rw [h.w_sub]
  exact htake

/-- The line that is being edited. -/
theorem edited (h : Sim L s) :
    (List.range (sub32 s.e s.w)).map (fun i => s.buf ((s.w + i) % inputBuf)) = L.pending := by
  have hdrop := congrArg (List.drop (L.committed.length - L.used)) h.contents
  have hcount : s.ring.count (2 ^ 32) = L.committed.length - L.used + L.pending.length := h.size_eq
  rw [List.drop_left' (by simp), RingBuf.contents, hcount, List.range_add, List.map_append, List.drop_left' (by simp),
    List.map_map] at hdrop
  rw [h.e_sub_w]
  refine Eq.trans (List.map_congr_left fun i _ => ?_) hdrop
  have hcell : (s.w + i) % inputBuf = (s.r + (L.committed.length - L.used + i)) % inputBuf := by
    rw [h.w]
    unfold u32 inputBuf
    omega
  rw [hcell]
  rfl

end Sim

end Xv6.Console
