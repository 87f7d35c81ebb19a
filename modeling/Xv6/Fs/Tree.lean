import Xv6.Fs.Entries

/-!
# The directory tree

What the system calls keep of the nodes, whatever they do: directories are arrays of entries that
start with `.` and `..`, the other entries name each node at most once, and link counts count names.
A node that was removed while somebody holds it stays in the table without a name.
-/

namespace Xv6.Fs

open Xv6.Lib

/-- The entry `k` of the directory `d` is live and refers to the node `i`. -/
structure Entry (N : Nat → Node) (d k i : Nat) : Prop where
  dir : (N d).type = tDir
  lt : k < entryCount (N d).data
  inum : (entryAt (N d).data k).inum = i
  live : i ≠ 0

/-- Some entry other than `.` and `..` refers to the node. -/
def Named (N : Nat → Node) (i : Nat) : Prop := ∃ d k, 2 ≤ k ∧ Entry N d k i

/-- The node that `..` refers to. -/
def parentOf (N : Nat → Node) (d : Nat) : Nat := (entryAt (N d).data 1).inum

/-- The entries of a directory that name directories. -/
def subdirs (N : Nat → Node) (d : Nat) : Finset Nat :=
  (Finset.range (entryCount (N d).data)).filter fun k =>
    2 ≤ k ∧ (entryAt (N d).data k).inum ≠ 0 ∧ (N (entryAt (N d).data k).inum).type = tDir

structure Tree (N : Nat → Node) : Prop where
  root : (N 1).type = tDir
  range : ∀ i, (N i).type ≠ 0 → 1 ≤ i ∧ i < 96
  free : ∀ i, (N i).type = 0 → (N i).data = []
  size : ∀ d, (N d).type = tDir → (N d).data.length % 32 = 0 ∧ 2 ≤ entryCount (N d).data
  dot : ∀ d, (N d).type = tDir → (entryAt (N d).data 0).inum = d ∧ nameOf (entryAt (N d).data 0).name = dot
  dotDot : ∀ d, (N d).type = tDir → parentOf N d ≠ 0 ∧ nameOf (entryAt (N d).data 1).name = dotDot
  inum : ∀ {d k i}, Entry N d k i → i < 96
  names : ∀ {d k k' i i'}, Entry N d k i → Entry N d k' i' →
    nameOf (entryAt (N d).data k).name = nameOf (entryAt (N d).data k').name → k = k'
  target : ∀ {d k i}, 2 ≤ k → Entry N d k i → (N i).type ≠ 0 ∧ i ≠ 1 ∧ i ≠ d
  unique : ∀ {d k d' k' i}, 2 ≤ k → 2 ≤ k' → Entry N d k i → Entry N d' k' i → d = d' ∧ k = k'
  parent : ∀ {d k i}, 2 ≤ k → Entry N d k i → (N i).type = tDir → parentOf N i = d
  rootParent : parentOf N 1 = 1
  dirLinks : ∀ d, (N d).type = tDir → ∃ c : Nat, c ≤ 1 ∧ (d = 1 ∨ Named N d → c = 1) ∧
    (N d).nlink = c + (subdirs N d).card
  fileLinks : ∀ i, (N i).type ≠ 0 → (N i).type ≠ tDir →
    ((N i).nlink = 0 ∨ (N i).nlink = 1) ∧ (Named N i → (N i).nlink = 1)

theorem Tree.inum_lt {N : Nat → Node} {d : Nat} (ht : Tree N) (hd : (N d).type = tDir) :
    ∀ k < entryCount (N d).data, (entryAt (N d).data k).inum < 96 := by
  intro k hk
  by_cases h0 : (entryAt (N d).data k).inum = 0
  · omega
  · exact ht.inum ⟨hd, hk, rfl, h0⟩

/-- Some live entry refers to a node that is not allocated. -/
def Dangling (N : Nat → Node) : Prop := ∃ d k i, Entry N d k i ∧ (N i).type = 0

/-! ## Path names -/

theorem dropWhile_length_le (p : UInt8 → Bool) (l : List UInt8) : (l.dropWhile p).length ≤ l.length := by
  have := congrArg List.length (List.takeWhile_append_dropWhile (p := p) (l := l))
  rw [List.length_append] at this
  omega

theorem skipElem_length {path rest : List UInt8} {name : Option (List UInt8)} (h : skipElem path = some (name, rest)) :
    rest.length < path.length := by
  simp only [skipElem] at h
  split at h
  · cases h
  · rename_i hne
    cases hp : path.dropWhile (· = slash) with
    | nil => exact absurd hp hne
    | cons a l =>
        have ha : a ≠ slash := by
          have := List.head?_dropWhile_not (fun x : UInt8 => decide (x = slash)) path
          rw [hp] at this
          exact of_decide_eq_false this
        have h1 := dropWhile_length_le (fun x => decide (x = slash)) path
        simp only [hp, List.dropWhile_cons, ha, ne_eq, not_false_eq_true, decide_true, if_true,
          Option.some.injEq, Prod.mk.injEq] at h
        rw [← h.2]
        have h2 := dropWhile_length_le (fun x => decide (x = slash)) (l.dropWhile fun x => decide (¬ x = slash))
        have h3 := dropWhile_length_le (fun x => decide (¬ x = slash)) l
        rw [hp, List.length_cons] at h1
        omega

/-- The node that a path leads to from the node `i`, or the last directory on the way and the last
element. `name` is the element before `path`. -/
def walk (N : Nat → Node) (parent : Bool) (i : Nat) (name path : List UInt8) : Option (Nat × List UInt8) :=
  match h : skipElem path with
  | none => if parent then none else some (i, name)
  | some (none, _) => none
  | some (some name, rest) =>
    if (N i).type ≠ tDir then none
    else if parent ∧ rest = [] then some (i, name)
    else
      match lookup (N i).data name with
      | none => none
      | some k =>
        have := skipElem_length h
        walk N parent (entryAt (N i).data k).inum name rest
termination_by path.length

/-- The resolution of a path name in a working directory. -/
def resolve (N : Nat → Node) (cwd : Nat) (path : List UInt8) (parent : Bool) : Option (Nat × List UInt8) :=
  walk N parent (if (cstr path).headD 0 = slash then rootino else cwd) [] (cstr path)

end Xv6.Fs
