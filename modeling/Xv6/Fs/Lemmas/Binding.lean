import Xv6.Fs.Lemmas.Quiet

/-!
# What directories bind

A directory is a finite map from names to nodes. `Bound N d name i` says that the directory `d` binds
`name` to the node `i`; the calls that change directories change one binding each.
-/

namespace Xv6.Fs

open Xv6.Lib

/-- The node that a directory binds a name to. -/
def binding (N : Nat → Node) (d : Nat) (name : List UInt8) : Option Nat :=
  (lookup (N d).data name).map fun k => (entryAt (N d).data k).inum

/-- A live entry of the directory `d` has the name and refers to `i`. -/
def Bound (N : Nat → Node) (d : Nat) (name : List UInt8) (i : Nat) : Prop :=
  ∃ k, Entry N d k i ∧ nameOf (entryAt (N d).data k).name = nameOf name

section

variable {N N' : Nat → Node} {d e i j k n x : Nat} {name name' : List UInt8} {type major minor : Int}

theorem binding_eq_some (ht : Tree N) (hd : (N d).type = tDir) : binding N d name = some i ↔ Bound N d name i := by
  unfold binding
  constructor
  · intro h
    rw [Option.map_eq_some_iff] at h
    obtain ⟨k, hk, rfl⟩ := h
    obtain ⟨hlt, hb, _⟩ := lookup_eq_some.mp hk
    exact ⟨k, ⟨hd, hlt, rfl, hb.1⟩, hb.2⟩
  · rintro ⟨k, he, hname⟩
    have hk : lookup (N d).data name = some k := by
      refine lookup_eq_some.mpr ⟨he.lt, ⟨by rw [he.inum]; exact he.live, hname⟩, fun j hj hb => ?_⟩
      have hej : Entry N d j _ := ⟨hd, lt_trans hj he.lt, rfl, hb.1⟩
      have := ht.names hej he (hb.2.trans hname.symm)
      omega
    rw [hk, Option.map_some, he.inum]

theorem binding_eq_none (hd : (N d).type = tDir) : binding N d name = none ↔ ∀ i, ¬ Bound N d name i := by
  unfold binding
  rw [Option.map_eq_none_iff, lookup_eq_none]
  constructor
  · rintro h i ⟨k, he, hname⟩
    exact h k he.lt ⟨by rw [he.inum]; exact he.live, hname⟩
  · intro h k hk hb
    exact h _ ⟨k, ⟨hd, hk, rfl, hb.1⟩, hb.2⟩

theorem lookup_eq_none_iff_binding : lookup (N d).data name = none ↔ binding N d name = none := by
  unfold binding
  rw [Option.map_eq_none_iff]

/-- Maps with the same bindings are the same. -/
theorem binding_congr (ht : Tree N) (ht' : Tree N') (hd : (N d).type = tDir) (hd' : (N' e).type = tDir)
    (h : ∀ i, Bound N' e name i ↔ Bound N d name' i) : binding N' e name = binding N d name' := by
  ext i
  rw [binding_eq_some ht' hd', binding_eq_some ht hd, h]

theorem bound_congr (h : N' d = N d) : Bound N' d name i ↔ Bound N d name i := by
  unfold Bound
  rw [h]
  simp only [entry_congr h]

/-! ## Creating -/

section

variable (ht : Tree N) (hd : (N d).type = tDir) (hlook : lookup (N d).data name = none) (hx : 1 ≤ x ∧ x < 96)
  (hfree : (N x).type = 0) (htype : type ≠ 0)

include ht hd hlook hx hfree htype

/-- A creation adds its binding and nothing else. -/
theorem binding_created (he : (N e).type = tDir) :
    binding (created N d name x type major minor) e name' =
      if e = d ∧ nameOf name' = nameOf name then some x else binding N e name' := by
  have ht' : Tree (created N d name x type major minor) := ht.created hd hlook hx hfree htype
  have hex : e ≠ x := by
    rintro rfl
    rw [hfree] at he
    exact absurd he (by decide)
  have he' : (created N d name x type major minor e).type = tDir := by
    rw [created_type hd hfree, if_neg hex]
    exact he
  have hent : ∀ {k j}, Entry (created N d name x type major minor) e k j ↔
      Entry N e k j ∨ (e = d ∧ k = freeEntry (N d).data ∧ j = x) := by
    intro k j
    rw [entry_created ht hd hx hfree]
    have : ¬ (type = tDir ∧ e = x ∧ (k = 0 ∧ j = x ∨ k = 1 ∧ j = d)) := fun h => hex h.2.1
    tauto
  by_cases hed : e = d
  · subst hed
    have hat : ∀ j, entryAt (created N e name x type major minor e).data j = _ := entryAt_created ht hd hx
    have hlive : ∀ {k j}, Entry N e k j → k ≠ freeEntry (N e).data := by
      rintro k j hk rfl
      exact hk.live (hk.inum.symm.trans (freeEntry_free hk.lt))
    split
    · rename_i hname
      rw [binding_eq_some ht' he']
      refine ⟨freeEntry (N e).data, hent.mpr (Or.inr ⟨rfl, rfl, rfl⟩), ?_⟩
      rw [hat, if_pos rfl, nameOf_newEntry, hname.2]
    · rename_i hname
      refine binding_congr ht ht' he he' fun i => ?_
      constructor
      · rintro ⟨k, hk, hn⟩
        rcases hent.mp hk with hk | ⟨_, rfl, _⟩
        · rw [hat, if_neg (hlive hk)] at hn
          exact ⟨k, hk, hn⟩
        · rw [hat, if_pos rfl, nameOf_newEntry] at hn
          exact absurd ⟨rfl, hn.symm⟩ hname
      · rintro ⟨k, hk, hn⟩
        exact ⟨k, hent.mpr (Or.inl hk), by rw [hat, if_neg (hlive hk)]; exact hn⟩
  · rw [if_neg fun h => hed h.1]
    exact binding_congr ht ht' he he' fun i => bound_congr (created_of_ne hed hex)

omit htype in
end

/-! ## Removing and freeing -/

/-- A removal takes away its binding and nothing else. -/
theorem binding_removed (ht : Tree N) (hn : 2 ≤ n) (hent : Entry N d n i)
    (hempty : (N i).type = tDir → ∀ k, 2 ≤ k → k < entryCount (N i).data → (entryAt (N i).data k).inum = 0)
    (he : (N e).type = tDir) :
    binding (removed N d n i) e name =
      if e = d ∧ nameOf name = nameOf (entryAt (N d).data n).name then none else binding N e name := by
  have ht' : Tree (removed N d n i) := ht.removed hn hent hempty
  have he' : (removed N d n i e).type = tDir := by
    rw [removed_type]
    exact he
  have hname : ∀ {k j}, Entry (removed N d n i) e k j →
      nameOf (entryAt (removed N d n i e).data k).name = nameOf (entryAt (N e).data k).name := by
    intro k j hk
    obtain ⟨_, hne⟩ := (entry_removed ht hn hent).mp hk
    by_cases hed : e = d
    · subst hed
      rw [removed_data_self ht hn hent, entryAt_clearEntry (ht.size e he).1 hent.lt fun h => hne ⟨rfl, h⟩]
    · rw [removed_data_of_ne hed]
  split
  · rename_i h
    obtain ⟨rfl, hnm⟩ := h
    rw [binding_eq_none he']
    rintro j ⟨k, hk, hn'⟩
    rw [hname hk] at hn'
    obtain ⟨hk', hne⟩ := (entry_removed ht hn hent).mp hk
    exact hne ⟨rfl, ht.names hk' hent (hn'.trans hnm)⟩
  · rename_i h
    refine binding_congr ht ht' he he' fun j => ?_
    constructor
    · rintro ⟨k, hk, hn'⟩
      exact ⟨k, ((entry_removed ht hn hent).mp hk).1, (hname hk).symm.trans hn'⟩
    · rintro ⟨k, hk, hn'⟩
      have hk' : Entry (removed N d n i) e k j := by
        refine (entry_removed ht hn hent).mpr ⟨hk, ?_⟩
        rintro ⟨rfl, rfl⟩
        exact h ⟨rfl, hn'.symm⟩
      exact ⟨k, hk', (hname hk').trans hn'⟩

theorem binding_of_data (h : (N' e).data = (N e).data) : binding N' e name = binding N e name := by
  unfold binding
  rw [h]

/-! ## Calls -/

/-- Freeing leaves the allocated nodes alone. -/
theorem frees_same (h : Frees N N') (he : (N' e).type ≠ 0) : N' e = N e := by
  induction h with
  | refl => rfl
  | tail _ hs ih =>
      obtain ⟨i, -, -, rfl⟩ := hs
      have hei : e ≠ i := by
        rintro rfl
        rw [upd_self] at he
        exact he rfl
      rw [freed_of_ne hei] at he ⊢
      exact ih he

theorem reap_same {c : Slot → Cell} (he : (reap N c i e).type ≠ 0) : reap N c i e = N e := by
  by_cases hei : e = i
  · subst hei
    unfold reap at he ⊢
    split at he
    · rw [upd_self] at he
      exact absurd rfl he
    · rename_i h0
      rw [if_neg h0]
  · exact reap_of_ne hei

/-- No directory changes its bindings. -/
def SameBindings (N N' : Nat → Node) : Prop :=
  ∀ e name, (N e).type = tDir → (N' e).type = tDir → binding N' e name = binding N e name

/-- The directory `d` gets a new value for one name, and nothing else changes. -/
def Rebinds (N N' : Nat → Node) (d : Nat) (name : List UInt8) (v : Option Nat) : Prop :=
  ∀ e name', (N e).type = tDir → (N' e).type = tDir →
    binding N' e name' = if e = d ∧ nameOf name' = nameOf name then v else binding N e name'

theorem sameBindings_of (h : ∀ e, (N' e).type ≠ 0 → N' e = N e) : SameBindings N N' := fun e _ _ he =>
  binding_of_data (congrArg Node.data (h e (by rw [he]; decide)))

theorem Rebinds.frees {M : Nat → Node} {v : Option Nat} (h : Rebinds N M d name v) (hf : Frees M N') :
    Rebinds N N' d name v := by
  intro e name' he he'
  have hsame := frees_same hf (e := e) (by rw [he']; decide)
  rw [binding_of_data (congrArg Node.data hsame)]
  exact h e name' he (by rw [← hsame]; exact he')

theorem Writes.sameBindings (h : Writes N i N') : SameBindings N N' := by
  obtain ⟨hd, -, data, rfl⟩ := h
  intro e name he _
  have hei : e ≠ i := by
    rintro rfl
    exact hd he
  exact binding_of_data (by rw [upd_of_ne hei])

variable {s : State} {cwd : Slot} {path : List UInt8}

theorem Creates.rebinds (h : Creates s cwd path type major minor N) (ht : Tree s.node) (htype : type ≠ 0) :
    ∃ d name x, resolve s.node (s.cell cwd).inum path true = some (d, name) ∧ binding s.node d name = none ∧
      (s.node x).type = 0 ∧ Rebinds s.node N d name (some x) := by
  obtain ⟨hres, hdir, hlook, hx, hfree⟩ := h
  exact ⟨_, _, _, hres, lookup_eq_none_iff_binding.mp hlook, hfree,
    fun _ _ he _ => binding_created ht hdir hlook hx hfree htype he⟩

theorem Removes.rebinds (h : Removes s cwd path N) (ht : Tree s.node) :
    ∃ d name i, resolve s.node (s.cell cwd).inum path true = some (d, name) ∧ binding s.node d name = some i ∧
      Rebinds s.node N d name none := by
  obtain @⟨d, n, i, name, hres, hlook, hn, hent, hempty⟩ := h
  refine ⟨d, name, i, hres, ?_, fun e name' he he' => ?_⟩
  · rw [binding, hlook, Option.map_some, hent.inum]
  · have hname : nameOf (entryAt (s.node d).data n).name = nameOf name := (lookup_eq_some.mp hlook).2.1.2
    have h0 : (reap (reap (removed s.node d n i) s.cell d) s.cell i e).type ≠ 0 := by
      rw [he']
      decide
    have h1 := reap_same h0
    rw [h1] at h0
    rw [binding_of_data (congrArg Node.data (h1.trans (reap_same h0))), binding_removed ht hn hent hempty he, hname]

end

end Xv6.Fs
