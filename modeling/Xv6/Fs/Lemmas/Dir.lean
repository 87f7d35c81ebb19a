import Xv6.Fs.Entries
import Xv6.Fs.Namespace

/-!
# Searching and extending directories

The loops over the entries of a directory compute `lookup`, `freeEntry` and emptiness of its data.
-/

namespace Xv6.Fs

open Xv6.Lib

variable {s : State} {dp : Slot} {data name : List UInt8}

/-- The cell `dp` has a copy of an allocated directory, whose entries are in range. -/
structure OpenDir (s : State) (dp : Slot) (data : List UInt8) : Prop where
  ref : 0 < (s.cell dp).ref
  valid : (s.cell dp).valid = true
  type : (s.view.nodeAt dp).type = tDir
  bytes : (s.view.nodeAt dp).data = data
  size : data.length % 32 = 0
  inum : ∀ k < entryCount data, (entryAt data k).inum < 96

theorem OpenDir.size_eq (hd : OpenDir s dp data) (h : s.WF) : (s.inodes dp).size = 32 * entryCount data := by
  have := hd.size
  rw [h.size_eq hd.ref hd.valid, hd.bytes, entryCount]
  omega

theorem OpenDir.length_le (hd : OpenDir s dp data) (h : s.WF) : data.length ≤ 525 * 4096 := by
  have hs := h.size_eq hd.ref hd.valid
  rw [hd.bytes, h.copy hd.ref hd.valid] at hs
  rw [← hs]
  exact h.size_le _

/-- One entry is read. -/
theorem readi_entry (h : s.WF) (hd : OpenDir s dp data) {k : Nat} (hk : k < entryCount data) :
    Wp (readi dp (32 * k) dirEntSize) (fun r s' => s' = s ∧ (r.getD []).length = 32 ∧
      DirEnt.ofBytes (r.getD []) = entryAt data k) (fun _ => False) s := by
  have hlen := hd.length_le h
  have hk' : 32 * k + 32 ≤ data.length := by
    unfold entryCount at hk
    omega
  refine (readi_view h hd.ref hd.valid (by rw [hd.type]; decide) (by omega) (by decide)).post ?_
  rintro r _ ⟨rfl, rfl⟩
  rw [hd.bytes, if_neg (by simp only [dirEntSize]; omega)]
  refine ⟨rfl, ?_, rfl⟩
  simp only [Option.getD_some, List.length_take, List.length_drop, dirEntSize]
  omega

theorem dirLookup_spec (h : s.WF) (hd : OpenDir s dp data) (name : List UInt8) :
    Wp (dirLookup dp name) (fun r s' =>
        match lookup data name with
        | none => r = none ∧ s' = s
        | some k => ∃ ip, r = some (ip, 32 * k) ∧ s'.WF ∧ s.view.Gets (entryAt data k).inum ip s'.view)
      (fun e => e = .panic "iget: no empty slot" ∧ ∀ jp, 0 < (s.cell jp).ref) s := by
  have hsize := hd.size_eq h
  have hty := h.type_eq hd.ref hd.valid
  have hdev := (h.cache.entry dp hd.ref).dev
  unfold dirLookup
  rw [wp_bind, wp_get, wp_bind, wp_panicIf, hsize]
  refine ⟨fun h0 => absurd (hty.trans hd.type) h0, fun _ => ?_⟩
  refine wp_loop (fun off t => t = s ∧ ∃ k, off = 32 * k ∧ k ≤ entryCount data ∧ ∀ j < k, ¬ Binds data name j)
    (fun off => 32 * entryCount data - off) ?_ _ _ _ ⟨rfl, 0, rfl, Nat.zero_le _, by omega⟩ (by omega)
  rintro off t ⟨rfl, k, rfl, hk, hmiss⟩
  have hnext : ¬ Binds data name k → ∀ j < k + 1, ¬ Binds data name j := by
    intro hno j hj
    rcases Nat.lt_succ_iff_lt_or_eq.mp hj with hj | rfl
    · exact hmiss j hj
    · exact hno
  rw [wp_bind, wp_get, wp_ite, hsize]
  refine ⟨fun hlt => ?_, fun hge => ?_⟩
  · have hk' : k < entryCount data := by omega
    refine Wp.seq (readi_entry h hd hk') (fun _ h0 => h0.elim) ?_
    rintro r _ ⟨rfl, hlen, hent⟩
    rw [wp_bind, wp_panicIf]
    refine ⟨fun h0 => absurd hlen h0, fun _ => ?_⟩
    rw [hent, wp_ite]
    refine ⟨fun h0 => ⟨⟨rfl, k + 1, rfl, hk', hnext fun hb => hb.1 h0⟩, by simp; omega⟩, fun hlive => ?_⟩
    rw [wp_ite, strncmp_name]
    refine ⟨fun hname => ?_, fun hname => ⟨⟨rfl, k + 1, rfl, hk', hnext fun hb => hname hb.2.symm⟩, by simp; omega⟩⟩
    have hfound : lookup data name = some k := lookup_eq_some.mpr ⟨hk', ⟨hlive, hname.symm⟩, hmiss⟩
    rw [hdev]
    refine Wp.seq (iget_spec h (by omega) (hd.inum k hk')) (fun _ he => he) ?_
    rintro ip s' ⟨hwf, hgets⟩
    rw [hfound]
    exact ⟨ip, rfl, hwf, hgets⟩
  · have hk' : k = entryCount data := by omega
    subst hk'
    rw [lookup_eq_none.mpr hmiss]
    exact ⟨rfl, rfl⟩

theorem dirSlot_spec (h : s.WF) (hd : OpenDir s dp data) :
    Wp (dirSlot dp) (fun off s' => off = 32 * freeEntry data ∧ s' = s) (fun _ => False) s := by
  have hsize := hd.size_eq h
  unfold dirSlot
  rw [wp_bind, wp_get, hsize]
  refine wp_loop (fun off t => t = s ∧ ∃ k, off = 32 * k ∧ k ≤ entryCount data ∧
    ∀ j < k, (entryAt data j).inum ≠ 0) (fun off => 32 * entryCount data - off) ?_ _ _ _
    ⟨rfl, 0, rfl, Nat.zero_le _, by omega⟩ (by omega)
  rintro off t ⟨rfl, k, rfl, hk, hlive⟩
  rw [wp_bind, wp_get, wp_ite, hsize]
  refine ⟨fun hlt => ?_, fun hge => ?_⟩
  · have hk' : k < entryCount data := by omega
    refine Wp.bind (readi_entry h hd hk') ?_
    rintro r _ ⟨rfl, hlen, hent⟩
    rw [wp_bind, wp_panicIf]
    refine ⟨fun h0 => absurd hlen h0, fun _ => ?_⟩
    rw [hent, wp_ite]
    refine ⟨fun h0 => ⟨?_, rfl⟩, fun hne => ⟨⟨rfl, k + 1, rfl, hk', ?_⟩, by simp; omega⟩⟩
    · have hfind : ((List.range (entryCount data)).find? fun j => (entryAt data j).inum = 0) = some k := by
        rw [List.find?_range_eq_some]
        exact ⟨by simpa using h0, List.mem_range.mpr hk', fun j hj => by simpa using hlive j hj⟩
      rw [freeEntry, hfind, Option.getD_some]
    · intro j hj
      rcases Nat.lt_succ_iff_lt_or_eq.mp hj with hj | rfl
      · exact hlive j hj
      · exact hne
  · have hk' : k = entryCount data := by omega
    subst hk'
    have hfind : ((List.range (entryCount data)).find? fun j => (entryAt data j).inum = 0) = none := by
      rw [List.find?_range_eq_none]
      exact fun j hj => by simpa using hlive j hj
    refine ⟨?_, rfl⟩
    rw [freeEntry, hfind, Option.getD_none]

theorem isDirEmpty_spec (h : s.WF) (hd : OpenDir s dp data) :
    Wp (isDirEmpty dp) (fun r s' => s' = s ∧
      (r = true ↔ ∀ k, 2 ≤ k → k < entryCount data → (entryAt data k).inum = 0)) (fun _ => False) s := by
  have hsize := hd.size_eq h
  unfold isDirEmpty
  rw [wp_bind, wp_get, hsize]
  refine wp_loop (fun off t => t = s ∧ ∃ k, off = 32 * k ∧ 2 ≤ k ∧
    ∀ j, 2 ≤ j → j < k → j < entryCount data → (entryAt data j).inum = 0)
    (fun off => 32 * entryCount data - off) ?_ _ _ _ ⟨rfl, 2, rfl, le_refl 2, by omega⟩ (by omega)
  rintro off t ⟨rfl, k, rfl, h2, hempty⟩
  rw [wp_bind, wp_get, wp_ite, hsize]
  refine ⟨fun hlt => ?_, fun hge => ?_⟩
  · have hk' : k < entryCount data := by omega
    refine Wp.bind (readi_entry h hd hk') ?_
    rintro r _ ⟨rfl, hlen, hent⟩
    rw [wp_bind, wp_panicIf]
    refine ⟨fun h0 => absurd hlen h0, fun _ => ?_⟩
    rw [hent, wp_ite]
    refine ⟨fun hne => ⟨rfl, ?_⟩, fun h0 => ⟨⟨rfl, k + 1, rfl, by omega, fun j hj hjk hjc => ?_⟩, by simp; omega⟩⟩
    · simp only [Bool.false_eq_true, false_iff]
      exact fun hall => hne (hall k h2 hk')
    · rcases Nat.lt_succ_iff_lt_or_eq.mp hjk with hjk | rfl
      · exact hempty j hj hjk hjc
      · exact not_not.mp h0
  · refine ⟨rfl, ?_⟩
    simp only [true_iff]
    exact fun j hj hjc => hempty j hj (by omega) hjc

/-! ## A new entry -/

/-- The data of a directory with the entry `k` replaced. -/
def putEntry (data : List UInt8) (k : Nat) (e : DirEnt) : List UInt8 := overlay data (32 * k) e.toBytes

/-- The entry that `dir_link` stores. -/
def newEntry (name : List UInt8) (inum : Nat) : DirEnt := ⟨inum, strncpy name dirsiz⟩

theorem length_toBytes_newEntry (name : List UInt8) (inum : Nat) : (newEntry name inum).toBytes.length = 32 := by
  rw [newEntry, DirEnt.length_toBytes]
  simp

theorem slice_getD (l : List UInt8) : Bytes.slice (fun k => l.getD k 0) 0 l.length = l := by
  refine List.ext_getElem? fun i => ?_
  by_cases hi : i < l.length
  · rw [Bytes.getElem?_slice hi, Nat.zero_add, List.getElem?_eq_getElem hi, List.getD_eq_getElem _ _ hi]
  · rw [List.getElem?_eq_none (by rw [Bytes.length_slice]; omega), List.getElem?_eq_none (by omega)]

theorem dirLink_spec (h : s.WF) (hd : OpenDir s dp data) {inum : Nat} (hfresh : lookup data name = none) :
    Wp (dirLink dp name inum) (fun r s' => r = 0 ∧ s'.WF ∧
        s'.view = s.view.setNode (s.cell dp).inum { s.view.nodeAt dp with
          data := putEntry data (freeEntry data) (newEntry name inum) })
      (fun e => e = .panic "balloc: oob" ∨ e = .panic "iget: no empty slot" ∨ e = .panic "dir_link cant write") s := by
  have hlen := hd.length_le h
  have hsize := hd.size
  have hfree := freeEntry_le data
  unfold dirLink
  refine Wp.seq (dirLookup_spec h hd name) (fun e he => Or.inr (Or.inl he.1)) ?_
  rw [hfresh]
  rintro _ _ ⟨rfl, rfl⟩
  refine Wp.seq (dirSlot_spec h hd) (fun _ h0 => h0.elim) ?_
  rintro _ t ⟨rfl, rfl⟩
  have htype : (t.view.nodeAt dp).type ≠ tDev := by
    rw [hd.type]
    decide
  have hoff : 32 * freeEntry data ≤ data.length := by
    unfold entryCount at hfree
    omega
  dsimp only
  by_cases hroom : 32 * freeEntry data + 32 ≤ 525 * 4096
  · refine Wp.seq (writei_view h hd.ref hd.valid htype (by rw [hd.bytes]; exact hoff) hroom)
      (fun e he => Or.inl he.1) ?_
    rintro r s' ⟨rfl, hwf, hview⟩
    rw [wp_bind, wp_panicIf]
    refine ⟨fun h0 => absurd rfl h0, fun _ => ⟨rfl, hwf, ?_⟩⟩
    have hsl : Bytes.slice (fun k => (newEntry name inum).toBytes.getD k 0) 0 32 = (newEntry name inum).toBytes := by
      have := slice_getD (newEntry name inum).toBytes
      rwa [length_toBytes_newEntry] at this
    rw [hview, hd.bytes, dirEntSize, putEntry, ← hsl]
    rfl
  · refine Wp.seq (writei_refuse h hd.ref hd.valid htype (by omega) (by decide)
      (Or.inr (by simp only [dirEntSize]; omega))) (fun _ h0 => h0.elim) ?_
    rintro r s' ⟨rfl, rfl⟩
    rw [wp_bind, wp_panicIf]
    exact ⟨fun _ => Or.inr (Or.inr rfl), fun h0 => absurd (by decide) h0⟩

end Xv6.Fs
