import Xv6.Vm.Lemmas.Kept
import Xv6.Kernel.Lemmas.ProcCalls

/-!
# Who owns the page frames

Every frame has one use, and every use has one owner: the spaces and the kernel stacks belong to the processes, and the
other kept frames are the pipes. The owners are given as tables of the roots and of the stacks, since a call takes
frames before it stores them in the process table.
-/

namespace Xv6.Kernel

open Xv6.Lib Xv6.Fs Xv6.Vm

/-- Who keeps a frame that is not part of an address space. -/
inductive Owner where
  | stack (p : ProcId)
  | pipe

/-- The spaces are those of the table `r`, and the kernel stacks those of the table `t`. -/
structure Owns (O : Nat → Use Owner) (r t : ProcId → Option Nat) : Prop where
  root : ∀ f, O f = .node f 0 0 ↔ ∃ p, r p = some f
  apart : ∀ {p q f}, r p = some f → r q = some f → p = q
  stack : ∀ p x, O x = .kept (.stack p) ↔ t p = some x

/-- The end of a pipe that a file is. -/
def File.pipeEnd (f : File) : Option (Nat × Bool × Bool) :=
  if f.type = .pipe then some (f.pipe, f.readable, f.writable) else none

/-- Whether the end of a pipe is open that can be written, or the other one. -/
def Pipe.isOpen (x : Pipe) (writable : Bool) : Bool := if writable then x.writeOpen else x.readOpen

/-- Every pipe has at most one end of each kind, and its flags tell which ends there are. -/
structure Pipes (O : Nat → Use Owner) (ends : FileId → Option (Nat × Bool × Bool)) (pipes : Nat → Pipe) : Prop where
  frame : ∀ q, O q = .kept .pipe ↔ ∃ f r w, ends f = some (q, r, w)
  mode : ∀ {f q r w}, ends f = some (q, r, w) → r = !w
  one : ∀ {f g e}, ends f = some e → ends g = some e → f = g
  isOpen : ∀ {q} w, O q = .kept .pipe → ((pipes q).isOpen w = true ↔ ∃ f, ends f = some (q, !w, w))

def endsOf (files : FileId → File) : FileId → Option (Nat × Bool × Bool) := fun f => (files f).pipeEnd

/-- The space of a process, and its kernel stack. An entry of the process table that is not used has none. -/
def Proc.root (x : Proc) : Option Nat := if x.state = .unused then none else x.pml4

def Proc.stack (x : Proc) : Option Nat := if x.state = .unused then none else x.kstack

def rootOf (procs : ProcId → Proc) : ProcId → Option Nat := fun p => (procs p).root

def stackOf (procs : ProcId → Proc) : ProcId → Option Nat := fun p => (procs p).stack

/-- The frames of the memory with their owners. -/
structure Owned (O : Nat → Use Owner) (r t : ProcId → Option Nat) (ends : FileId → Option (Nat × Bool × Bool))
    (pipes : Nat → Pipe) (m : Mem) : Prop where
  frames : Frames lower O m
  kern : Kern O m
  held : ∀ x, O x ≠ .held
  owns : Owns O r t
  pipes : Pipes O ends pipes

/-- A process has a space, a kernel stack and a size. -/
structure Proc.Whole (x : Proc) : Prop where
  root : x.root ≠ none
  stack : x.stack ≠ none
  size : x.sz < userTop

/-- The invariant of the states between calls, as far as the memory is concerned. -/
structure MemInv (O : Nat → Use Owner) (k : System) : Prop where
  owned : Owned O (rootOf k.procs) (stackOf k.procs) (endsOf k.files) k.pipes k.mem
  whole : ∀ p, (k.procs p).state ≠ .unused → (k.procs p).Whole

section

variable {O O₁ O' : Nat → Use Owner} {r t : ProcId → Option Nat} {ends : FileId → Option (Nat × Bool × Bool)}
    {pipes : Nat → Pipe}
  {m m₁ m' : Mem} {p : ProcId} {f g x q sz : Nat}

/-! ## Uses that stay -/

theorem Owns.congr (h : Owns O r t) (hk : Kept O O') : Owns O' r t :=
  ⟨fun f => (hk.root f).trans (h.root f), h.apart, fun p x => (hk.kept x _).trans (h.stack p x)⟩

theorem Pipes.congr (h : Pipes O ends pipes) (hk : ∀ q, O' q = .kept .pipe ↔ O q = .kept .pipe) : Pipes O' ends pipes :=
  ⟨fun q => (hk q).trans (h.frame q), h.mode, h.one, fun w h0 => h.isOpen w ((hk _).mp h0)⟩

theorem Owned.worked (h : Owned O r t ends pipes m) (hf : O f = .node f 0 0) (hw : Worked f O m O' m') :
    Owned O' r t ends pipes m' := by
  have hk := hw.kept hf
  exact ⟨hw.moved.frames, h.kern.worked hf hw, fun x h0 => h.held x (hw.held x h0), h.owns.congr hk,
    h.pipes.congr fun q => hk.kept q _⟩

/-! ## Spaces come and go -/

/-- The space of one process is another one now. -/
theorem Owned.setRoot {new : Option Nat} (h : Owned O r t ends pipes m) (hframes : Frames lower O' m')
    (hkern : Kern O' m') (hheld : ∀ x, O' x ≠ .held)
    (hroot : ∀ f, O' f = .node f 0 0 ↔ (O f = .node f 0 0 ∧ r p ≠ some f) ∨ new = some f)
    (hfresh : ∀ g, new = some g → O g ≠ .node g 0 0) (hkept : ∀ x o, O' x = .kept o ↔ O x = .kept o) :
    Owned O' (upd r p new) t ends pipes m' := by
  have hnot : ∀ {q g}, r q = some g → new ≠ some g := fun {q g} hq h0 => hfresh g h0 ((h.owns.root g).mpr ⟨q, hq⟩)
  refine ⟨hframes, hkern, hheld,
    ⟨fun f => ?_, fun {q q' f} hq hq' => ?_, fun q x => (hkept x _).trans (h.owns.stack q x)⟩,
    h.pipes.congr fun q => hkept q _⟩
  · rw [hroot, h.owns.root]
    constructor
    · rintro (⟨⟨q, hq⟩, hp⟩ | h0)
      · refine ⟨q, ?_⟩
        rw [upd_of_ne fun h0 : q = p => hp (by rw [← h0, hq])]
        exact hq
      · exact ⟨p, by rw [upd_self, h0]⟩
    · rintro ⟨q, hq⟩
      by_cases hqp : q = p
      · rw [hqp, upd_self] at hq
        exact Or.inr hq
      · rw [upd_of_ne hqp] at hq
        exact Or.inl ⟨⟨q, hq⟩, fun h0 => hqp (h.owns.apart hq h0)⟩
  · by_cases hqp : q = p <;> by_cases hqp' : q' = p
    · rw [hqp, hqp']
    · rw [hqp, upd_self] at hq
      rw [upd_of_ne hqp'] at hq'
      exact absurd hq (hnot hq')
    · rw [upd_of_ne hqp] at hq
      rw [hqp', upd_self] at hq'
      exact absurd hq' (hnot hq)
    · rw [upd_of_ne hqp] at hq
      rw [upd_of_ne hqp'] at hq'
      exact h.owns.apart hq hq'

variable {new : Option Nat}

/-- Nothing was built. -/
theorem Owned.built (h : Owned O r t ends pipes m) (hb : Built none O m O' m') : Owned O' r t ends pipes m' := by
  have hk : Kept O O' := ⟨fun f => (hb.root_iff h.held f).trans ⟨fun h0 => h0.resolve_right (by rintro ⟨⟩), Or.inl⟩,
    fun x _ => hb.kept_iff h.held x⟩
  exact ⟨hb.spared.frames, h.kern.built hb h.held, hb.not_held h.held, h.owns.congr hk,
    h.pipes.congr fun q => hk.kept q _⟩

/-- A space was built for a process without one. -/
theorem Owned.add (h : Owned O r t ends pipes m) (hb : Built new O m O' m') (hp : r p = none) :
    Owned O' (upd r p new) t ends pipes m' := by
  refine h.setRoot hb.spared.frames (h.kern.built hb h.held) (hb.not_held h.held) (fun f => ?_)
    (fun g hg => hb.fresh hg) fun x _ => hb.kept_iff h.held x
  rw [hb.root_iff h.held, hp]
  exact or_congr_left (iff_self_and.mpr fun _ => by rintro ⟨⟩)

/-- The space of a process is given up. -/
theorem Owned.gone (h : Owned O r t ends pipes m) (hf : r p = some f) (hg : Gone f sz O m O' m') :
    Owned O' (upd r p none) t ends pipes m' := by
  have hroot := (h.owns.root f).mpr ⟨p, hf⟩
  refine h.setRoot hg.moved.frames (h.kern.gone h.frames hg hroot) (hg.not_held h.frames h.held) (fun g => ?_)
    (fun _ h0 => by cases h0) fun x _ => hg.kept_iff h.frames x
  rw [hg.root_iff h.frames, hf]
  simp only [reduceCtorEq, or_false, ne_eq, Option.some.injEq]

/-- A space takes the place of another one, which is given up. -/
theorem Owned.replace (h : Owned O r t ends pipes m) (hb : Built (some g) O m O₁ m₁) (hf : r p = some f)
    (hg : Gone f sz O₁ m₁ O' m') : Owned O' (upd r p (some g)) t ends pipes m' := by
  have hroot := (h.owns.root f).mpr ⟨p, hf⟩
  have hheld := hb.not_held h.held
  have hroot₁ : O₁ f = .node f 0 0 := (hb.root_iff h.held f).mpr (Or.inl hroot)
  have hfg : f ≠ g := fun h0 => hb.fresh rfl (h0 ▸ hroot)
  refine h.setRoot hg.moved.frames ((h.kern.built hb h.held).gone hb.spared.frames hg hroot₁)
    (hg.not_held hb.spared.frames hheld) (fun x => ?_) (fun _ h0 => hb.fresh h0) fun x _ =>
      (hg.kept_iff hb.spared.frames x).trans (hb.kept_iff h.held x)
  rw [hg.root_iff hb.spared.frames, hb.root_iff h.held, hf]
  constructor
  · rintro ⟨h0 | h0, h1⟩
    · exact Or.inl ⟨h0, fun h2 => h1 (Option.some.inj h2)⟩
    · exact Or.inr h0
  · rintro (⟨h0, h1⟩ | h0)
    · exact ⟨Or.inl h0, fun h2 => h1 (by rw [h2])⟩
    · exact ⟨Or.inr h0, fun h2 => hfg (h2.trans (Option.some.inj h0).symm)⟩

/-! ## Frames that are taken and given back -/

/-- A frame that is loose or free gets another use of this kind. -/
structure Changed (x : Nat) (u : Use Owner) (O : Nat → Use Owner) (m m' : Mem) : Prop where
  frames : Frames lower (upd O x u) m'
  same : Same (fun z => z = x) m m'
  from_kernel : O x ≠ .kernel
  from_node : ∀ f e k, O x ≠ .node f e k
  to_node : ∀ f e k, u ≠ .node f e k
  to_held : u ≠ .held

variable {u : Use Owner}

theorem Changed.kern (h : Changed x u O m m') (hk : Kern O m) : Kern (upd O x u) m' := by
  refine hk.congr (fun z hz => ?_) h.same.kpml4 fun f hf i hi hi' => ?_
  · have hzx : z ≠ x := fun h0 => h.from_kernel (h0 ▸ hz)
    exact ⟨by rw [upd_of_ne hzx, hz], h.same.pages z hzx⟩
  · rw [upd_node_iff h.from_node h.to_node] at hf
    have hfx : f ≠ x := fun h0 => h.from_node f 0 0 (h0 ▸ hf)
    rw [Mem.pte, h.same.pages f hfx]
    exact hk.half f hf i hi hi'

theorem Changed.held (h : Changed x u O m m') (hheld : ∀ z, O z ≠ .held) (z : Nat) : upd O x u z ≠ .held := by
  by_cases hz : z = x
  · rw [hz, upd_self]
    exact h.to_held
  · rw [upd_of_ne hz]
    exact hheld z

theorem upd_kept_iff {o : Owner} (hx : O x ≠ .kept o) (hu : u ≠ .kept o) (z : Nat) :
    upd O x u z = .kept o ↔ O z = .kept o := by
  by_cases hz : z = x
  · rw [hz, upd_self]
    exact iff_of_false hu hx
  · rw [upd_of_ne hz]

/-- A kernel stack is taken or given back. -/
theorem Owned.setStack {new : Option Nat} (h : Owned O r t ends pipes m) (hc : Changed x u O m m')
    (hpipe : O x ≠ .kept .pipe) (hpipe' : u ≠ .kept .pipe) (hself : ∀ z, upd O x u z = .kept (.stack p) ↔ new = some z)
    (hother : ∀ q, q ≠ p → O x ≠ .kept (.stack q) ∧ u ≠ .kept (.stack q)) :
    Owned (upd O x u) r (upd t p new) ends pipes m' := by
  refine ⟨hc.frames, hc.kern h.kern, hc.held h.held, ⟨fun f => ?_, h.owns.apart, fun q z => ?_⟩,
    h.pipes.congr fun q => upd_kept_iff hpipe hpipe' q⟩
  · rw [upd_node_iff hc.from_node hc.to_node, h.owns.root]
  · by_cases hq : q = p
    · rw [hq, upd_self, hself]
    · obtain ⟨h1, h2⟩ := hother q hq
      rw [upd_of_ne hq, upd_kept_iff h1 h2, h.owns.stack]

theorem Owned.takeStack (h : Owned O r t ends pipes m) (hx : O x = .free) (ht : t p = none)
    (hframes : Frames lower (upd O x (.kept (.stack p))) m') (hs : Same (fun z => z = x) m m') :
    Owned (upd O x (.kept (.stack p))) r (upd t p (some x)) ends pipes m' := by
  have hc : Changed x (.kept (.stack p)) O m m' :=
    ⟨hframes, hs, by rw [hx]; rintro ⟨⟩, fun f e k => by rw [hx]; rintro ⟨⟩,
    (fun f e k => by rintro ⟨⟩), by rintro ⟨⟩⟩
  refine h.setStack hc (by rw [hx]; rintro ⟨⟩) (by rintro ⟨⟩) (fun z => ?_) fun q hq =>
    ⟨by rw [hx]; rintro ⟨⟩, fun h0 => ?_⟩
  · by_cases hz : z = x
    · rw [hz, upd_self]
      exact iff_of_true rfl rfl
    · rw [upd_of_ne hz, h.owns.stack, ht]
      exact iff_of_false (by rintro ⟨⟩) fun h0 => hz (Option.some.inj h0).symm
  · cases h0
    exact hq rfl

theorem Owned.freeStack (h : Owned O r t ends pipes m) (hx : O x = .kept (.stack p))
    (hframes : Frames lower (upd O x .free) m') (hs : Same (fun z => z = x) m m') :
    Owned (upd O x .free) r (upd t p none) ends pipes m' := by
  have hc : Changed x .free O m m' := ⟨hframes, hs, by rw [hx]; rintro ⟨⟩, fun f e k => by rw [hx]; rintro ⟨⟩,
    (fun f e k => by rintro ⟨⟩), by rintro ⟨⟩⟩
  refine h.setStack hc (by rw [hx]; rintro ⟨⟩) (by rintro ⟨⟩) (fun z => ?_) fun q hq => ⟨fun h0 => ?_, by rintro ⟨⟩⟩
  · refine iff_of_false ?_ (by rintro ⟨⟩)
    by_cases hz : z = x
    · rw [hz, upd_self]
      rintro ⟨⟩
    · rw [upd_of_ne hz]
      intro h0
      rw [h.owns.stack] at hx h0
      exact hz (Option.some.inj (h0.symm.trans hx))
  · rw [hx] at h0
    cases h0
    exact hq rfl

/-- A frame becomes a pipe, or a pipe is given back. -/
theorem Owned.setPipe {ends' : FileId → Option (Nat × Bool × Bool)} {pipes' : Nat → Pipe} (h : Owned O r t ends pipes m)
    (hc : Changed x u O m m') (hstack : ∀ q, O x ≠ .kept (.stack q) ∧ u ≠ .kept (.stack q))
    (hpipes : Pipes (upd O x u) ends' pipes') :
    Owned (upd O x u) r t ends' pipes' m' := by
  refine ⟨hc.frames, hc.kern h.kern, hc.held h.held, ⟨fun f => ?_, h.owns.apart, fun q z => ?_⟩, hpipes⟩
  · rw [upd_node_iff hc.from_node hc.to_node, h.owns.root]
  · rw [upd_kept_iff (hstack q).1 (hstack q).2, h.owns.stack]

/-! ## The ends of pipes -/

theorem upd_none_eq_some {e : Nat × Bool × Bool} {f f' : FileId} : upd ends f none f' = some e ↔
    f' ≠ f ∧ ends f' = some e := by
  by_cases hf : f' = f
  · rw [hf, upd_self]
    exact iff_of_false (by rintro ⟨⟩) fun h0 => h0.1 rfl
  · rw [upd_of_ne hf]
    exact (and_iff_right hf).symm

theorem not_eq_of_ne {w w' : Bool} (h : w' ≠ w) : w' = !w := by
  cases w <;> cases w' <;> simp at h ⊢

/-- One end of a pipe is closed. -/
structure Closes (q : Nat) (w : Bool) (pipes pipes' : Nat → Pipe) : Prop where
  self : (pipes' q).isOpen w = false
  other : ∀ q' w', (q' = q → w' ≠ w) → (pipes' q').isOpen w' = (pipes q').isOpen w'

variable {rd w : Bool} {pipes' : Nat → Pipe} {a b : FileId}

theorem Pipes.closed (h : Pipes O ends pipes) (ha : ends a = some (q, rd, w)) (hc : Closes q w pipes pipes') :
    (pipes' q).isOpen w = true ↔ ∃ f, upd ends a none f = some (q, !w, w) := by
  rw [hc.self]
  refine iff_of_false (by decide) ?_
  rintro ⟨f, hf⟩
  obtain ⟨hne, hf⟩ := upd_none_eq_some.mp hf
  rw [h.mode ha] at ha
  exact hne (h.one hf ha)

theorem Pipes.stays (h : Pipes O ends pipes) (ha : ends a = some (q, rd, w)) (hc : Closes q w pipes pipes')
    {q' : Nat} {w' : Bool} (hne : q' = q → w' ≠ w) (hq : O q' = .kept .pipe) : (pipes' q').isOpen w' = true ↔
    ∃ f, upd ends a none f = some (q', !w', w') := by
  rw [hc.other q' w' hne, h.isOpen w' hq]
  refine exists_congr fun f => ?_
  rw [upd_none_eq_some, eq_comm, iff_and_self]
  rintro h0 rfl
  rw [ha] at h0
  obtain ⟨h1, -, h2⟩ : q = q' ∧ rd = !w' ∧ w = w' := by simpa using h0.symm
  exact hne h1.symm h2.symm

/-- The other end is still open. -/
theorem Pipes.closeOne (h : Pipes O ends pipes) (ha : ends a = some (q, rd, w)) (hc : Closes q w pipes pipes')
    (hopen : (pipes q).isOpen (!w) = true) : Pipes O (upd ends a none) pipes' := by
  have hq : O q = .kept .pipe := (h.frame q).mpr ⟨a, rd, w, ha⟩
  refine ⟨fun q' => ?_, fun h0 => h.mode (upd_none_eq_some.mp h0).2,
    fun h0 h1 => h.one (upd_none_eq_some.mp h0).2 (upd_none_eq_some.mp h1).2, fun {q'} w' hq' => ?_⟩
  · rw [h.frame]
    refine ⟨?_, ?_⟩ <;> rintro ⟨f, r', w', hf⟩
    swap
    · exact ⟨f, r', w', (upd_none_eq_some.mp hf).2⟩
    by_cases hfa : f = a
    · -- the other end is there
      obtain ⟨g, hg⟩ := (h.isOpen (!w) hq).mp hopen
      rw [hfa, ha] at hf
      obtain ⟨rfl, -, -⟩ : q = q' ∧ rd = r' ∧ w = w' := by simpa using hf
      refine ⟨g, _, _, upd_none_eq_some.mpr ⟨fun h0 => ?_, hg⟩⟩
      rw [h0, ha] at hg
      simp at hg
    · exact ⟨f, r', w', upd_none_eq_some.mpr ⟨hfa, hf⟩⟩
  · by_cases hsame : q' = q ∧ w' = w
    · obtain ⟨rfl, rfl⟩ := hsame
      exact h.closed ha hc
    · exact h.stays ha hc (fun h0 h1 => hsame ⟨h0, h1⟩) hq'

/-- The last end of a pipe is closed. -/
theorem Pipes.closeLast (h : Pipes O ends pipes) (ha : ends a = some (q, rd, w)) (hc : Closes q w pipes pipes')
    (hopen : (pipes q).isOpen (!w) = false) : Pipes (upd O q .free) (upd ends a none) pipes' := by
  have hq : O q = .kept .pipe := (h.frame q).mpr ⟨a, rd, w, ha⟩
  have hother : ∀ {q'}, upd O q .free q' = .kept .pipe → q' ≠ q ∧ O q' = .kept .pipe := fun {q'} h0 => by
    by_cases hqq : q' = q
    · rw [hqq, upd_self] at h0
      cases h0
    · rw [upd_of_ne hqq] at h0
      exact ⟨hqq, h0⟩
  refine ⟨fun q' => ⟨fun h0 => ?_, ?_⟩, fun h0 => h.mode (upd_none_eq_some.mp h0).2,
    fun h0 h1 => h.one (upd_none_eq_some.mp h0).2 (upd_none_eq_some.mp h1).2, fun {q'} w' hq' => ?_⟩
  · obtain ⟨hqq, h0⟩ := hother h0
    obtain ⟨f, r', w', hf⟩ := (h.frame q').mp h0
    refine ⟨f, r', w', upd_none_eq_some.mpr ⟨fun h1 => hqq ?_, hf⟩⟩
    rw [h1, ha] at hf
    exact ((Prod.mk.inj (Option.some.inj hf)).1).symm
  · rintro ⟨f, r', w', hf⟩
    obtain ⟨hne, hf⟩ := upd_none_eq_some.mp hf
    have hq' : O q' = .kept .pipe := (h.frame q').mpr ⟨f, r', w', hf⟩
    rw [upd_of_ne]
    · exact hq'
    · rintro rfl
      rw [h.mode ha] at ha
      rw [h.mode hf] at hf
      by_cases hw : w' = w
      · rw [hw] at hf
        exact hne (h.one hf ha)
      · rw [not_eq_of_ne hw] at hf
        rw [(h.isOpen (!w) hq).mpr ⟨f, hf⟩] at hopen
        cases hopen
  · obtain ⟨hqq, h0⟩ := hother hq'
    exact h.stays ha hc (fun h1 => absurd h1 hqq) h0

/-- A pipe is made, with two files as its ends. -/
theorem Pipes.make (h : Pipes O ends pipes) (hx : O x = .free) (hab : a ≠ b) (ha : ends a = none) (hb : ends b = none)
    (hopen : ∀ w, (pipes' x).isOpen w = true) (hother : ∀ q, q ≠ x → pipes' q = pipes q) :
    Pipes (upd O x (.kept .pipe)) (upd (upd ends a (some (x, true, false))) b (some (x, false, true))) pipes' := by
  have hold : ∀ {f q r w}, ends f = some (q, r, w) → q ≠ x := fun {f q r w} hf h0 => by
    have := (h.frame q).mpr ⟨f, r, w, hf⟩
    rw [h0, hx] at this
    cases this
  have hends : ∀ f e, upd (upd ends a (some (x, true, false))) b (some (x, false, true)) f = some e ↔
      ends f = some e ∨ (f = a ∧ e = (x, true, false)) ∨ (f = b ∧ e = (x, false, true)) := fun f e => by
    by_cases hfb : f = b
    · rw [hfb, upd_self, hb]
      simp [Ne.symm hab, eq_comm]
    · rw [upd_of_ne hfb]
      by_cases hfa : f = a
      · rw [hfa, upd_self, ha]
        simp [hab, eq_comm]
      · rw [upd_of_ne hfa]
        simp [hfa, hfb]
  refine ⟨fun q => ?_, fun {f q r w} hf => ?_, fun {f g e} hf hg => ?_, fun {q} w hq => ?_⟩
  · by_cases hq : q = x
    · rw [hq, upd_self]
      exact iff_of_true rfl ⟨a, true, false, (hends _ _).mpr (Or.inr (Or.inl ⟨rfl, rfl⟩))⟩
    · rw [upd_of_ne hq, h.frame]
      refine exists_congr fun f => exists_congr fun r => exists_congr fun w => ?_
      rw [hends]
      simp [hq]
  · rcases (hends _ _).mp hf with h0 | ⟨-, h0⟩ | ⟨-, h0⟩
    · exact h.mode h0
    · cases h0
      rfl
    · cases h0
      rfl
  · obtain ⟨q, r, w⟩ := e
    rcases (hends _ _).mp hf with h0 | ⟨rfl, h0⟩ | ⟨rfl, h0⟩ <;>
      rcases (hends _ _).mp hg with h1 | ⟨rfl, h1⟩ | ⟨rfl, h1⟩
    · exact h.one h0 h1
    · exact absurd (Prod.mk.inj h1).1 (hold h0)
    · exact absurd (Prod.mk.inj h1).1 (hold h0)
    · exact absurd (Prod.mk.inj h0).1 (hold h1)
    · rfl
    · rw [h0] at h1
      simp at h1
    · exact absurd (Prod.mk.inj h0).1 (hold h1)
    · rw [h0] at h1
      simp at h1
    · rfl
  · by_cases hqx : q = x
    · rw [hqx, hopen]
      refine iff_of_true rfl ?_
      cases w
      · exact ⟨a, (hends _ _).mpr (Or.inr (Or.inl ⟨rfl, rfl⟩))⟩
      · exact ⟨b, (hends _ _).mpr (Or.inr (Or.inr ⟨rfl, rfl⟩))⟩
    · rw [upd_of_ne hqx] at hq
      rw [hother q hqx, h.isOpen w hq]
      refine exists_congr fun f => ?_
      rw [hends]
      simp [hqx]

/-! ## Spaces that stay -/

/-- The spaces of the table `r` keep their pages. -/
def SameSpaces (r : ProcId → Option Nat) (m m' : Mem) : Prop :=
  ∀ p f, r p = some f → ∀ v < userPages, m'.page f v = m.page f v

theorem SameSpaces.refl (r : ProcId → Option Nat) (m : Mem) : SameSpaces r m m := fun _ _ _ _ _ => rfl

theorem SameSpaces.trans (h : SameSpaces r m m₁) (h' : SameSpaces r m₁ m') : SameSpaces r m m' := fun p f hf v hv =>
  (h' p f hf v hv).trans (h p f hf v hv)

/-- The spaces of the other processes. -/
theorem SameSpaces.others (h : SameSpaces r m m') (p : ProcId) : SameSpaces (upd r p none) m m' := fun q f hf v hv => by
  by_cases hq : q = p
  · rw [hq, upd_self] at hf
    cases hf
  · rw [upd_of_ne hq] at hf
    exact h q f hf v hv

theorem Owned.same_changed (h : Owned O r t ends pipes m) (hc : Changed x u O m m') : SameSpaces r m m' :=
    fun p f hf _ hv =>
  h.frames.page_same ((h.owns.root f).mpr ⟨p, hf⟩) (hc.from_node f) hc.same hv

theorem Owned.same_built (h : Owned O r t ends pipes m) (hb : Built new O m O' m') : SameSpaces r m m' :=
    fun p f hf _ hv =>
  hb.spared.page h.frames ((h.owns.root f).mpr ⟨p, hf⟩) hv

/-- A function that works on the space of a process, or gives it up, leaves the spaces of the others alone. -/
theorem Owned.same_moved (h : Owned O r t ends pipes m) (hf : r p = some f) (hm : Moved lower f O m O' m') :
    SameSpaces (upd r p none) m m' := fun q g hg v hv => by
  by_cases hq : q = p
  · rw [hq, upd_self] at hg
    cases hg
  · rw [upd_of_ne hq] at hg
    exact hm.page_other h.frames ((h.owns.root g).mpr ⟨q, hg⟩) (fun h0 => hq (h.owns.apart hg (h0 ▸ hf))) hv

end

end Xv6.Kernel
