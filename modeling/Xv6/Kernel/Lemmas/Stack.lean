import Xv6.Kernel.Lemmas.Load

/-!
# The stack of a new program

Where `exec` puts the arguments. The page below the stack is not accessible, so that a string that does not fit into the
page of the stack is refused: its bytes would have to cross that page.
-/

namespace Xv6.Kernel

open Xv6.Lib Xv6.Fs Xv6.Vm

variable {τ : Type} {O O' : Nat → Use τ} {m m' : Mem} {f n sz sp a : Nat} {b : Bytes}

/-- The pages of the space are those from 1 on with two pages behind the page `n`: the first of these two is not for the
user. -/
structure Fenced (f n : Nat) (b : Bytes) (m : Mem) : Prop where
  accessible : ∀ v < userPages, Accessible m f v ↔ 1 ≤ v ∧ v < n + 2 ∧ v ≠ n
  present : ∀ v < userPages, m.page f v ≠ none ↔ 1 ≤ v ∧ v < n + 2
  byte : ∀ a, pgsize4kb ≤ a → a < pgsize4kb * (n + 2) → m.byte f a = some (b a)

/-! ## The fence -/

theorem userAt_of_lt (h : a < userTop) : UserAt m f a ↔ Accessible m f (a / pgsize4kb) := by
  rw [UserAt, vpn_user h]
  exact and_iff_right (page_lt_of_lt h)

theorem not_userAt_of_upper (h : 2 ^ 47 ≤ a % 2 ^ 48) : ¬ UserAt m f a := fun h0 => by
  have hv := h0.1
  rw [vpn_eq] at hv
  simp only [pgsize4kb, userPages] at hv
  omega

theorem Fenced.not_userAt (h : Fenced f n b m) (htop : pgsize4kb * (n + 2) ≤ userTop) (hlow : pgsize4kb * n ≤ a)
    (hhigh : a < pgsize4kb * (n + 1)) : ¬ UserAt m f a := by
  have ha : a < userTop := by
    simp only [pgsize4kb] at htop hhigh
    omega
  have hdiv : a / pgsize4kb = n := by
    simp only [pgsize4kb] at hlow hhigh ⊢
    omega
  rw [userAt_of_lt ha, hdiv, h.accessible n (hdiv ▸ page_lt_of_lt ha)]
  exact fun h0 => h0.2.2 rfl

/-- Above the stack there is nothing. -/
theorem Fenced.not_userAt_above (h : Fenced f n b m) (hlow : pgsize4kb * (n + 2) ≤ a) (hhigh : a < 2 ^ 48) :
    ¬ UserAt m f a := by
  rcases Nat.lt_or_ge a userTop with ha | ha
  · rw [userAt_of_lt ha, h.accessible _ (page_lt_of_lt ha)]
    rintro ⟨-, hlt, -⟩
    simp only [pgsize4kb] at hlow hlt
    omega
  · refine not_userAt_of_upper ?_
    simp only [userTop] at ha
    omega

/-- Bytes that do not reach the user's half from an address that has wrapped. -/
theorem wrapped_leaves {L : Nat} (hL : sp < L) (hsp : 8 ≤ sp)
    (h : ∀ k < L, UserAt m f (roundDown (wrap (sp - L)) 8 + k)) : False := by
  generalize ha : roundDown (wrap (sp - L)) 8 = a at h
  rcases Nat.lt_or_ge (2 ^ 47) L with hlong | hshort
  · -- there are more bytes than the half has
    by_cases hu : 2 ^ 47 ≤ a % 2 ^ 48
    · exact not_userAt_of_upper hu (h 0 (by omega))
    · exact not_userAt_of_upper (by omega) (h (2 ^ 47 - a % 2 ^ 48) (by omega))
  · refine not_userAt_of_upper ?_ (h 0 (by omega))
    simp only [roundDown, wrap] at ha
    omega

/-- Bytes that are pushed on the stack are in its page. -/
theorem Fenced.push {L : Nat} (h : Fenced f n b m) (h1 : 1 ≤ n) (htop : pgsize4kb * (n + 2) ≤ userTop)
    (hlow : pgsize4kb * (n + 1) ≤ sp) (hhigh : sp ≤ pgsize4kb * (n + 2)) (h8 : sp % 8 = 0)
    (hreach : ∀ k < L, UserAt m f (roundDown (wrap (sp - L)) 8 + k)) :
    pgsize4kb * (n + 1) ≤ roundDown (wrap (sp - L)) 8 ∧ roundDown (wrap (sp - L)) 8 + roundUp L 8 = sp := by
  rcases Nat.lt_or_ge sp L with hwrap | hle
  · refine (wrapped_leaves hwrap ?_ hreach).elim
    simp only [pgsize4kb] at hlow
    omega
  · have hw : wrap (sp - L) = sp - L := by
      simp only [wrap, pgsize4kb, userTop] at hhigh htop ⊢
      omega
    rw [hw] at hreach ⊢
    have hround : roundDown (sp - L) 8 + roundUp L 8 = sp := by
      simp only [roundDown, roundUp]
      omega
    have hup : roundUp L 8 ≤ L + 7 := by
      simp only [roundUp]
      omega
    refine ⟨?_, hround⟩
    by_contra hbelow
    have hL : 0 < L := Nat.pos_of_ne_zero fun h0 => hbelow <| by
      rw [h0, show roundUp 0 8 = 0 from rfl, Nat.add_zero] at hround
      rw [h0, hround]
      exact hlow
    -- one of the bytes is in the page that is not accessible
    rcases Nat.lt_or_ge (roundDown (sp - L) 8) (pgsize4kb * n) with hfar | hnear
    · have hk : pgsize4kb * n - roundDown (sp - L) 8 < L := by
        simp only [pgsize4kb] at hlow hfar ⊢
        omega
      refine h.not_userAt htop ?_ ?_ (hreach _ hk)
      · omega
      · simp only [pgsize4kb] at hfar ⊢
        omega
    · exact h.not_userAt htop (by omega) (by omega) (hreach 0 hL)

/-- More bytes than a page from the stack on lead above it. -/
theorem Fenced.run_above {L p : Nat} (h : Fenced f n b m) (htop : pgsize4kb * (n + 2) ≤ userTop)
    (hlow : pgsize4kb * (n + 1) ≤ p) (hhigh : p < 2 ^ 48) (hL : pgsize4kb < L)
    (hreach : ∀ j < L, UserAt m f (p + j)) : False := by
  rcases Nat.lt_or_ge p (pgsize4kb * (n + 2)) with hp | hp
  · have hend := hreach (pgsize4kb * (n + 2) - p) (by simp only [pgsize4kb] at hlow hL ⊢; omega)
    rw [Nat.add_sub_cancel' (Nat.le_of_lt hp)] at hend
    exact h.not_userAt_above (Nat.le_refl _) (Nat.lt_of_le_of_lt htop (by decide)) hend
  · exact h.not_userAt_above hp hhigh (hreach 0 (Nat.lt_of_le_of_lt (Nat.zero_le _) hL))

/-- A negative length leads above the stack. -/
theorem Fenced.push_neg {L : Nat} (h : Fenced f n b m) (htop : pgsize4kb * (n + 2) ≤ userTop)
    (hlow : pgsize4kb * (n + 1) ≤ sp) (hhigh : sp ≤ pgsize4kb * (n + 2)) (h8 : sp % 8 = 0) (hneg : toInt L < 0)
    (hreach : ∀ j < L, UserAt m f (roundDown (wrap (sp - toInt L)) 8 + j)) : False := by
  have hL : 2 ^ 31 ≤ L := by
    by_contra h0
    rw [toInt_of_lt (Nat.not_le.mp h0)] at hneg
    exact absurd hneg (Int.not_lt.mpr (Int.natCast_nonneg L))
  have hmin := le_toInt L
  have hbase : sp ≤ roundDown (wrap (sp - toInt L)) 8 ∧ roundDown (wrap (sp - toInt L)) 8 < 2 ^ 48 := by
    generalize toInt L = t at hneg hmin
    simp only [roundDown, wrap, userTop] at htop ⊢
    omega
  exact h.run_above htop (Nat.le_trans hlow hbase.1) hbase.2 (Nat.lt_of_lt_of_le (by decide) hL) hreach

theorem Fenced.wrote {l : List UInt8} (h : Fenced f n b m) (hw : Wrote f a l O m m')
    (htop : pgsize4kb * (n + 2) ≤ userTop) :
    Fenced f n (b.put a l) m' := by
  have hnone : ∀ v < userPages, m'.page f v = none ↔ m.page f v = none := fun v hv => by
    rw [← Option.map_eq_none_iff, hw.entry v hv, Option.map_eq_none_iff]
  refine ⟨fun v hv => (hw.accessible hv).trans (h.accessible v hv), fun v hv => ?_, fun c hc hc' => ?_⟩
  · rw [Ne, hnone v hv]
    exact h.present v hv
  · exact hw.byte_put (Nat.lt_of_lt_of_le hc' htop) (h.byte c hc hc')

/-! ## The strings -/

theorem le_roundUp (x : Nat) : x ≤ roundUp x 8 := by
  simp only [roundUp]
  omega

/-- An argument as it stands in memory. -/
def terminated (arg : List UInt8) : List UInt8 := cstr arg ++ [0]

/-- What `exec` copies of it: its length is an `int`. -/
def copied (arg : List UInt8) : List UInt8 := (terminated arg).take (toInt (terminated arg).length).toNat

theorem copied_short {arg : List UInt8} (h : (terminated arg).length < 2 ^ 31) : copied arg = terminated arg := by
  rw [copied, toInt_of_lt h, Int.toNat_natCast, List.take_length]

/-- The length is what is subtracted from the stack pointer. -/
theorem length_copied {arg : List UInt8} (h : 0 ≤ toInt (terminated arg).length) :
    ((copied arg).length : Int) = toInt (terminated arg).length := by
  rw [copied, List.length_take]
  unfold toInt at h ⊢
  omega

/-- The bytes that some strings take up on the stack. -/
def stringSpace (ss : List (List UInt8)) : Nat := (ss.map fun s => roundUp s.length 8).sum

/-- The strings `ss` stand at the addresses `ptrs` of the memory `b`, one below the other, between `sp` and `sz`. -/
structure Placed (b : Bytes) (sz : Nat) (ss : List (List UInt8)) (ptrs : List Nat) (sp : Nat) : Prop where
  length : ptrs.length = ss.length
  space : sp + stringSpace ss = sz
  inside : ∀ (i : Nat) s p, ss[i]? = some s → ptrs[i]? = some p → sp ≤ p ∧ p + s.length ≤ sz
  apart : ∀ (i j : Nat) s p q, i < j → ptrs[i]? = some p → ptrs[j]? = some q → ss[j]? = some s → q + s.length ≤ p
  content : ∀ (i : Nat) s p, ss[i]? = some s → ptrs[i]? = some p → ∀ (j : Nat) x, s[j]? = some x → b (p + j) = x

theorem stringSpace_concat (ss : List (List UInt8)) (s : List UInt8) :
    stringSpace (ss ++ [s]) = stringSpace ss + roundUp s.length 8 := by
  simp [stringSpace]

theorem stringSpace_mod (ss : List (List UInt8)) : stringSpace ss % 8 = 0 := by
  induction ss using List.reverseRecOn with
  | nil => rfl
  | append_singleton ss s ih =>
      rw [stringSpace_concat, roundUp]
      omega

theorem Placed.start (b : Bytes) (sz : Nat) : Placed b sz [] [] sz where
  length := rfl
  space := rfl
  inside := fun i s p h0 => by
    rw [List.getElem?_nil] at h0
    cases h0
  apart := fun i j s p q _ h0 => by
    rw [List.getElem?_nil] at h0
    cases h0
  content := fun i s p h0 => by
    rw [List.getElem?_nil] at h0
    cases h0

variable {ss : List (List UInt8)} {ptrs : List Nat}

/-- The memory below the strings changes. -/
theorem Placed.below {b' : Bytes} (h : Placed b sz ss ptrs sp) (hsame : ∀ a, sp ≤ a → b' a = b a) :
    Placed b' sz ss ptrs sp where
  length := h.length
  space := h.space
  inside := h.inside
  apart := h.apart
  content := fun i s p hs hp j x hx => by
    rw [hsame _ (Nat.le_trans (h.inside i s p hs hp).1 (Nat.le_add_right _ _))]
    exact h.content i s p hs hp j x hx

theorem getElem?_concat_cases {α : Type} {l : List α} {x y : α} {i : Nat} (h : (l ++ [x])[i]? = some y) :
    l[i]? = some y ∨ (i = l.length ∧ y = x) := by
  rcases Nat.lt_trichotomy i l.length with hi | rfl | hi
  · rw [List.getElem?_append_left hi] at h
    exact Or.inl h
  · rw [List.getElem?_concat_length] at h
    exact Or.inr ⟨rfl, (Option.some.inj h).symm⟩
  · rw [List.getElem?_eq_none (by rw [List.length_append]; exact hi)] at h
    cases h

/-- One more string is pushed. -/
theorem Placed.push {s : List UInt8} {p : Nat} (h : Placed b sz ss ptrs sp) (hp : p + roundUp s.length 8 = sp) :
    Placed (b.put p s) sz (ss ++ [s]) (ptrs ++ [p]) p := by
  have hlen := le_roundUp s.length
  have hsz := h.space
  have hold : Placed (b.put p s) sz ss ptrs sp := h.below fun a ha => Bytes.put_outside (Or.inr (by omega)) b
  -- the lists have the same length, so that both entries are old or both are new
  have hcases : ∀ (i : Nat) t q, (ss ++ [s])[i]? = some t → (ptrs ++ [p])[i]? = some q →
      (ss[i]? = some t ∧ ptrs[i]? = some q) ∨ (t = s ∧ q = p) := by
    intro i t q ht hq
    rcases getElem?_concat_cases ht with ht | ⟨hi, rfl⟩
    · rcases getElem?_concat_cases hq with hq | ⟨hi, rfl⟩
      · exact Or.inl ⟨ht, hq⟩
      · rw [hi, h.length, List.getElem?_eq_none (Nat.le_refl _)] at ht
        cases ht
    · rcases getElem?_concat_cases hq with hq | ⟨-, rfl⟩
      · rw [hi, ← h.length, List.getElem?_eq_none (Nat.le_refl _)] at hq
        cases hq
      · exact Or.inr ⟨rfl, rfl⟩
  refine ⟨?_, ?_, fun i t q ht hq => ?_, fun i j t q q' hij hq hq' ht => ?_, fun i t q ht hq => ?_⟩
  · rw [List.length_append, List.length_append, h.length]
    rfl
  · rw [stringSpace_concat]
    omega
  · rcases hcases i t q ht hq with ⟨ht, hq⟩ | ⟨rfl, rfl⟩
    · have := h.inside i t q ht hq
      omega
    · omega
  · have hi : i < ptrs.length := by
      by_contra h0
      rw [List.getElem?_eq_none] at hq'
      · cases hq'
      · rw [List.length_append, List.length_singleton]
        omega
    rw [List.getElem?_append_left hi] at hq
    rcases hcases j t q' ht hq' with ⟨ht, hq'⟩ | ⟨rfl, rfl⟩
    · exact h.apart i j t q q' hij hq hq' ht
    · obtain ⟨s', hs'⟩ : ∃ s', ss[i]? = some s' := ⟨_, List.getElem?_eq_getElem (h.length ▸ hi)⟩
      have := (h.inside i s' q hs' hq).1
      omega
  · rcases hcases i t q ht hq with ⟨ht, hq⟩ | ⟨rfl, rfl⟩
    · exact hold.content i t q ht hq
    · exact fun j x hx => Bytes.put_add hx b _

/-- The strings are all in the page of the stack. -/
theorem execArgs_placed (h : Frames lower O m) (hf : O f = .node f 0 0) (hk : Kern O m)
    (hfence : Fenced f n b m) (h1 : 1 ≤ n) (hlt : pgsize4kb * (n + 2) < userTop) (argv : List (List UInt8)) :
    Wp (execArgs f (pgsize4kb * (n + 2)) argv) (fun r m' => Worked f O m O m' ∧ ∀ sp ptrs, r = some (sp, ptrs) →
      ptrs.length ≤ maxarg ∧ pgsize4kb * (n + 1) ≤ sp ∧ ∃ b', Fenced f n b' m' ∧
        (∀ a, a < pgsize4kb * (n + 1) → b' a = b a) ∧ Placed b' (pgsize4kb * (n + 2)) (argv.map copied) ptrs sp)
        (fun _ => False) m := by
  have htop := Nat.le_of_lt hlt
  unfold execArgs
  refine wp_loop (fun (i : Nat × List Nat × List (List UInt8)) m' => Worked f O m O m' ∧ i.2.1.length ≤ maxarg ∧
      pgsize4kb * (n + 1) ≤ i.1 ∧ ∃ done b', argv = done ++ i.2.2 ∧ Fenced f n b' m' ∧
        (∀ a, a < pgsize4kb * (n + 1) → b' a = b a) ∧ Placed b' (pgsize4kb * (n + 2)) (done.map copied) i.2.1 i.1)
    (fun i => i.2.2.length) ?_ _ _ _
    ⟨Worked.refl h hf, Nat.zero_le _, Nat.mul_le_mul_left _ (Nat.le_succ _), [], b, rfl, hfence, fun _ _ => rfl,
      Placed.start b _⟩
    (Nat.lt_succ_self _)
  rintro ⟨sp, ptrs, rest⟩ m₁ ⟨hw, hle, hlow, done, b₁, hargv, hfence₁, hsame, hplaced⟩
  dsimp only at hle hlow hargv hplaced ⊢
  have hsp := hplaced.space
  cases rest with
  | nil =>
      rw [List.append_nil] at hargv
      rw [wp_pure]
      refine ⟨hw, fun sp' ptrs' h0 => ?_⟩
      cases h0
      exact ⟨hle, hlow, b₁, hfence₁, hsame, hargv ▸ hplaced⟩
  | cons arg rest =>
      dsimp only
      rw [wp_ite]
      refine ⟨fun _ => ⟨hw, fun _ _ h0 => by cases h0⟩, fun hroom => ?_⟩
      have hmod := stringSpace_mod (done.map copied)
      have h8 : sp % 8 = 0 := by
        simp only [pgsize4kb] at hsp
        omega
      generalize hp : roundDown (wrap (sp - toInt (cstr arg ++ [0]).length)) 8 = p
      change Wp (copyOut f p (if toInt (terminated arg).length < 0 then terminated arg else copied arg) >>= _) _ _ _
      rcases Int.lt_or_le (toInt (terminated arg).length) 0 with hneg | hnonneg
      · rw [if_pos hneg]
        refine Wp.bind (copyOut_spec hw.moved.frames hf (hk.worked hf hw) _ _) ?_
        rintro r m₂ ⟨k, hc, ⟨rfl, rfl⟩ | ⟨rfl, -⟩⟩
        · subst hp
          exact (hfence₁.push_neg htop hlow (by omega) h8 hneg hc.reached).elim
        · rw [if_pos (by decide), wp_pure]
          exact ⟨hw.trans hc.worked, fun _ _ h0 => by cases h0⟩
      change roundDown (wrap (sp - toInt (terminated arg).length)) 8 = p at hp
      rw [← length_copied hnonneg] at hp
      rw [if_neg (Int.not_lt.mpr hnonneg)]
      refine Wp.bind (copyOut_spec hw.moved.frames hf (hk.worked hf hw) _ _) ?_
      rintro r m₂ ⟨k, hc, ⟨rfl, hall⟩ | ⟨rfl, -⟩⟩
      · rw [hall] at hc
        rw [if_neg (by decide), wp_pure]
        obtain ⟨hlow', hround⟩ := hfence₁.push h1 htop hlow (by omega) h8 (by rw [hp]; exact hc.reached)
        rw [hp] at hlow' hround
        obtain ⟨-, hwr⟩ := hc.wrote (by omega)
        rw [List.take_length] at hwr
        refine ⟨⟨hw.trans hc.worked, ?_, hlow', done ++ [arg], b₁.put p (copied arg), ?_, hfence₁.wrote hwr htop,
          fun a ha => ?_, ?_⟩, Nat.lt_succ_self _⟩
        · rw [List.length_append]
          exact Nat.lt_of_not_le hroom
        · rw [hargv, List.append_assoc]
          rfl
        · rw [Bytes.put_outside (Or.inl (Nat.lt_of_lt_of_le ha hlow')), hsame a ha]
        · rw [List.map_append]
          exact hplaced.push hround
      · rw [if_pos (by decide), wp_pure]
        exact ⟨hw.trans hc.worked, fun _ _ h0 => by cases h0⟩

/-! ## The whole stack -/

/-- The bytes between the stack pointer and the end of the stack, without the word at the stack pointer. -/
def argBytes (ss : List (List UInt8)) : Nat := roundUp (stringSpace ss + 8 * (ss.length + 2)) 16

/-- The stack with its arguments: `argc`, the pointers to the strings, a null pointer and the strings. -/
structure StackLayout (f n : Nat) (b : Bytes) (ss : List (List UInt8)) (sp : Nat) (ptrs : List Nat) (b' : Bytes)
    (m : Mem) : Prop where
  few : ss.length ≤ maxarg
  bottom : sp + 8 + argBytes ss = pgsize4kb * (n + 2)
  low : pgsize4kb * (n + 1) ≤ sp + 8
  fence : Fenced f n b' m
  same : ∀ a, a < pgsize4kb * (n + 1) → b' a = b a
  strings : ∃ top, sp + 16 + 8 * (ss.length + 1) ≤ top ∧ Placed b' (pgsize4kb * (n + 2)) ss ptrs top
  argc : ∀ j < 8, b' (sp + 8 + j) = byteOf ss.length j
  argv : ∀ (i : Nat) p, (ptrs ++ [0])[i]? = some p → ∀ j < 8, b' (sp + 16 + 8 * i + j) = byteOf p j

theorem fenced_of_image {e : Nat} {c : Bytes} (h : Image f (n + 2) b m) (h1 : 1 ≤ n) (htop : n + 2 ≤ userPages)
    (hp : m.page f n = some (e, c))
    (hpage : ∀ w < userPages, m'.page f w = if w = n then some (withoutU e, c) else m.page f w) : Fenced f n b m' := by
  obtain ⟨hpres, rfl, -⟩ := page_eq_some hp
  have hno := (withoutU_spec hpres).2.1
  refine ⟨fun v hv => ?_, fun v hv => ?_, fun a ha ha' => ?_⟩
  · unfold Accessible
    rw [hpage v hv]
    split
    · rename_i hvn
      refine iff_of_false ?_ fun h0 => h0.2.2 hvn
      rintro ⟨e, he, hu⟩
      obtain rfl := Option.some.inj he
      rw [hno] at hu
      cases hu
    · rename_i hvn
      by_cases hin : 1 ≤ v ∧ v < n + 2
      · exact iff_of_true (h.accessible hin.1 hin.2) ⟨hin.1, hin.2, hvn⟩
      · refine iff_of_false ?_ fun h0 => hin ⟨h0.1, h0.2.1⟩
        rintro ⟨e, he, -⟩
        rw [h.absent v hv fun h0 => Nat.not_lt.mp fun h2 => hin ⟨h0, h2⟩] at he
        cases he
  · rw [hpage v hv]
    split
    · rename_i hvn
      exact iff_of_true (Option.some_ne_none _) (by omega)
    · by_cases hin : 1 ≤ v ∧ v < n + 2
      · exact iff_of_true (h.present hin.1 hin.2) hin
      · exact iff_of_false (fun h0 => h0 (h.absent v hv fun h1 => Nat.not_lt.mp fun h2 => hin ⟨h1, h2⟩)) hin
  · have hv : a / pgsize4kb < userPages := Nat.lt_of_lt_of_le (Nat.div_lt_of_lt_mul ha') htop
    have hbyte := h.byte a ha ha'
    rw [Mem.byte] at hbyte ⊢
    rw [hpage _ hv]
    split
    · rename_i hvn
      rw [hvn, hp] at hbyte
      exact hbyte
    · exact hbyte

theorem pageUp_mul (n : Nat) : pageUp (pgsize4kb * n) = n := by
  simp only [pageUp, pgsize4kb]
  omega

theorem wrap_back {x y : Nat} (h : x + y < 2 ^ 64) : wrap ((wrap ((x : Int) - 8) : Int) + (8 + y : Nat)) = x + y := by
  unfold wrap
  omega

/-- The stack pointer before the strings are known to fit. -/
theorem stack_base {argc : Nat} (hargc : argc ≤ maxarg) (h1 : 1 ≤ n) (hlow : pgsize4kb * (n + 1) ≤ sp)
    (hhigh : sp ≤ userTop) :
    roundDown (wrap ((sp : Int) - (argc + 1) * 8 - 8)) 16 = roundDown (sp - 8 * (argc + 2)) 16 ∧
      pgsize4kb * n ≤ roundDown (sp - 8 * (argc + 2)) 16 ∧
        roundDown (sp - 8 * (argc + 2)) 16 + 8 * (argc + 2) ≤ sp := by
  have hw : wrap ((sp : Int) - (argc + 1) * 8 - 8) = sp - 8 * (argc + 2) := by
    simp only [wrap, maxarg, pgsize4kb, userTop] at hargc hlow hhigh ⊢
    omega
  rw [hw]
  refine ⟨rfl, ?_, ?_⟩
  · simp only [roundDown, maxarg, pgsize4kb] at hargc hlow ⊢
    omega
  · have hsub : 8 * (argc + 2) ≤ sp := by
      simp only [maxarg, pgsize4kb] at hargc hlow
      omega
    simp only [roundDown]
    omega

theorem argBytes_add {sz : Nat} (hsz : sz % 16 = 0) (hsp : sp + stringSpace ss = sz) (hle : 8 * (ss.length + 2) ≤ sp) :
    roundDown (sp - 8 * (ss.length + 2)) 16 + argBytes ss = sz := by
  simp only [argBytes, roundDown, roundUp]
  omega

/-- The pointers and the number of arguments are put below the strings. -/
theorem Fenced.stackLayout {ptrs : List Nat} {base : Nat} {b₀ : Bytes} {m₁ : Mem} (h : Fenced f n b m)
    (htop : pgsize4kb * (n + 2) ≤ userTop) (hfew : ptrs.length ≤ maxarg)
    (hsame : ∀ a, a < pgsize4kb * (n + 1) → b a = b₀ a) (hplaced : Placed b (pgsize4kb * (n + 2)) ss ptrs sp)
    (hbase : roundDown (sp - 8 * (ptrs.length + 2)) 16 = base) (hfits : base + 8 * (ptrs.length + 2) ≤ sp)
    (hlow : pgsize4kb * (n + 1) ≤ base) (hargc : Wrote f base (leBytes 8 ptrs.length) O m m₁)
    (hargv : Wrote f (base + 8) ((ptrs ++ [0]).flatMap (leBytes 8)) O m₁ m') :
    StackLayout f n b₀ ss (base - 8) ptrs
      ((b.put base (leBytes 8 ptrs.length)).put (base + 8) ((ptrs ++ [0]).flatMap (leBytes 8))) m' := by
  have hlen := hplaced.length
  have hwords : ((ptrs ++ [0]).flatMap (leBytes 8)).length = 8 * (ptrs.length + 1) := by
    simp [List.length_flatMap]
    omega
  have h8 : 8 ≤ base := by
    simp only [pgsize4kb] at hlow
    omega
  refine ⟨hlen ▸ hfew, ?_, by omega, (h.wrote hargc htop).wrote hargv htop, fun a ha => ?_, ⟨sp, by omega, ?_⟩,
    fun j hj => ?_, fun i p hi j hj => ?_⟩
  · have := argBytes_add (by simp only [pgsize4kb]; omega) hplaced.space (by omega)
    rw [← hlen, hbase] at this
    omega
  · rw [Bytes.put_outside (Or.inl (by omega)), Bytes.put_outside (Or.inl (by omega)), hsame a ha]
  · refine hplaced.below fun a ha => ?_
    rw [Bytes.put_outside (Or.inr (by omega)), Bytes.put_outside (Or.inr (by rw [length_leBytes]; omega))]
  · rw [Bytes.put_outside (Or.inl (by omega)), show base - 8 + 8 + j = base + j by omega, ← hlen]
    exact Bytes.put_add (getElem?_leBytes hj _) b base
  · rw [show base - 8 + 16 + 8 * i + j = base + 8 + (8 * i + j) by omega]
    refine Bytes.put_add ?_ _ _
    rw [getElem?_flatMap_const _ _ (fun _ => length_leBytes 8 _) _ _ hj, hi]
    exact getElem?_leBytes hj p

theorem execStack_layout (h : Frames lower O m) (hf : O f = .node f 0 0) (hk : Kern O m)
    (himage : Image f (pageUp sz) b m) (hge : pgsize4kb ≤ sz) (argv : List (List UInt8)) :
    Wp (execStack f sz argv) (fun r m' => ∃ O', Worked f O m O' m' ∧ r.1 < userTop ∧ ∀ sp argc, r.2 = some (sp, argc) →
      r.1 = pgsize4kb * (pageUp sz + 2) ∧ argc = argv.length ∧
        ∃ ptrs b', StackLayout f (pageUp sz) b (argv.map copied) sp ptrs b' m')
      (fun _ => False) m := by
  have h1 : 1 ≤ pageUp sz := by
    rw [Nat.succ_le_iff, lt_pageUp]
    simp only [pgsize4kb] at hge ⊢
    omega
  unfold execStack
  rw [roundUp_eq]
  generalize pageUp sz = n at himage h1 ⊢
  have hstart : Image f (pageUp (pgsize4kb * n)) b m := by rwa [pageUp_mul]
  refine Wp.bind (hstart.allocUvm h hf (Nat.le_mul_of_pos_right _ h1) fun h0 => absurd h0 (by omega)) ?_
  rintro r m₁ ⟨O₁, hw₁, ⟨hr, hlt, -, hi₁, -⟩ | ⟨rfl, -⟩⟩
  · have hr : r = pgsize4kb * (n + 2) := by
      simp only [pgsize4kb] at hr ⊢
      omega
    subst hr
    rw [pageUp_mul] at hi₁
    have htop : pgsize4kb * (n + 2) ≤ userTop := Nat.le_of_lt hlt
    have hpages : n + 2 ≤ userPages := by
      simp only [pgsize4kb, userTop, userPages] at htop ⊢
      omega
    rw [wp_ite]
    refine ⟨fun h0 => ?_, fun _ => ?_⟩
    · simp only [pgsize4kb] at h0
      omega
    obtain ⟨⟨e, c⟩, hp⟩ := Option.ne_none_iff_exists'.mp (hi₁.present h1 (show n < n + 2 by omega))
    have haddr : pgsize4kb * (n + 2) - 2 * pgsize4kb = pgsize4kb * n := by
      simp only [pgsize4kb]
      omega
    rw [haddr]
    refine Wp.bind (clearPteU_spec hw₁.moved.frames hw₁.root (Nat.lt_of_lt_of_le (by omega) hpages) hp) ?_
    rintro _ m₂ ⟨hw₂, hpage₂⟩
    have hk₂ := (hk.worked hf hw₁).worked hw₁.root hw₂
    refine Wp.bind (execArgs_placed hw₂.moved.frames hw₁.root hk₂ (fenced_of_image hi₁ h1 hpages hp hpage₂) h1 hlt argv)
      ?_
    rintro r m₃ ⟨hw₃, hr⟩
    have hw := (hw₁.trans hw₂).trans hw₃
    cases r with
    | none => exact ⟨O₁, hw, hlt, fun _ _ h0 => by cases h0⟩
    | some r =>
        obtain ⟨sp, ptrs⟩ := r
        obtain ⟨hfew, hlow, b₃, hfence, hsame, hplaced⟩ := hr sp ptrs rfl
        have hk₃ := hk₂.worked hw₁.root hw₃
        have hspace := hplaced.space
        obtain ⟨hbase, hnear, hfits⟩ := stack_base hfew h1 hlow (by omega)
        dsimp only
        rw [hbase]
        generalize hb : roundDown (sp - 8 * (ptrs.length + 2)) 16 = base at hnear hfits ⊢
        have hbase_lt : base + 8 < userTop := by omega
        have h8 : wrap ((wrap ((base : Int) - 8) : Int) + 8) = base :=
          wrap_back (y := 0) (Nat.lt_trans (show base < userTop by omega) (by decide))
        have h16 : wrap ((wrap ((base : Int) - 8) : Int) + 16) = base + 8 :=
          wrap_back (Nat.lt_trans hbase_lt (by decide))
        have hsp : wrap ((base : Int) - 8) = base - 8 := by
          simp only [wrap, pgsize4kb, userTop] at hnear hbase_lt ⊢
          omega
        rw [h8, h16]
        refine Wp.bind (copyOut_spec hw₃.moved.frames hw₁.root hk₃ _ _) ?_
        rintro r m₄ ⟨k, hc, ⟨rfl, rfl⟩ | ⟨rfl, -⟩⟩
        · rw [if_neg (by decide)]
          -- the first byte is not in the page that is not accessible
          have hin : pgsize4kb * (n + 1) ≤ base := by
            by_contra h0
            exact hfence.not_userAt htop hnear (Nat.not_le.mp h0) (hc.reached 0 (by rw [length_leBytes]; decide))
          obtain ⟨-, hargc⟩ := hc.wrote (by omega)
          rw [List.take_length] at hargc
          have hk₄ := hk₃.worked hw₁.root hc.worked
          refine Wp.bind (copyOut_spec hc.worked.moved.frames hw₁.root hk₄ _ _) ?_
          rintro r m₅ ⟨k, hc', ⟨rfl, rfl⟩ | ⟨rfl, -⟩⟩
          · rw [if_neg (by decide), wp_pure]
            obtain ⟨-, hargv⟩ := hc'.wrote hbase_lt
            rw [List.take_length] at hargv
            refine ⟨O₁, (hw.trans hc.worked).trans hc'.worked, hlt, fun sp' argc h0 => ?_⟩
            cases h0
            have hlayout := hfence.stackLayout htop hfew hsame hplaced hb hfits hin hargc hargv
            rw [← hsp] at hlayout
            exact ⟨rfl, by rw [hplaced.length, List.length_map], ptrs, _, hlayout⟩
          · rw [if_pos (by decide), wp_pure]
            exact ⟨O₁, (hw.trans hc.worked).trans hc'.worked, hlt, fun _ _ h0 => by cases h0⟩
        · rw [if_pos (by decide), wp_pure]
          exact ⟨O₁, hw.trans hc.worked, hlt, fun _ _ h0 => by cases h0⟩
  · exact ⟨O₁, hw₁, by decide, fun _ _ h0 => by cases h0⟩

end Xv6.Kernel
