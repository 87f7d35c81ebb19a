import Xv6.Lib.Machine
import Xv6.Umalloc.Malloc

/-!
# A program that uses the allocator

The program calls `malloc` and `free` and stores into its memory. It gives back only what it got and has not given back
yet, and stores only where it may: into the bytes it asked for, and outside of the heap.
-/

namespace Xv6.Umalloc

open Xv6.Lib

/-- A pointer that `malloc(n)` returned and that was not given back. -/
structure Live where
  ptr : Nat
  n : Nat

structure State where
  heap : Heap
  live : List Live

inductive Action where
  | malloc (n : Nat)
  | free (p : Nat)
  | store (a : Nat) (v : UInt8)

/-- The program may store at `a`: it asked for the byte, or it is below the heap and not in the header `base`. -/
def Writable (base start : Nat) (s : State) (a : Nat) : Prop :=
  (∃ x ∈ s.live, x.ptr ≤ a ∧ a < x.ptr + x.n) ∨ (a < start ∧ (a < base ∨ base + headerSize ≤ a))

instance (base start : Nat) (s : State) (a : Nat) : Decidable (Writable base start s a) :=
  inferInstanceAs (Decidable (_ ∨ _))

def step (base start : Nat) (s : State) : Action → Option State
  | .malloc n =>
    match malloc base n s.heap with
    | .ok (p, heap) => some ⟨heap, if p = 0 then s.live else ⟨p, n⟩ :: s.live⟩
    | .error _ => none
  | .free p =>
    if ∃ x ∈ s.live, x.ptr = p then
      match free p s.heap with
      | .ok (_, heap) => some ⟨heap, s.live.eraseP fun x => x.ptr = p⟩
      | .error _ => none
    else none
  | .store a v =>
    if Writable base start s a then
      some { s with heap.mem := fun x => if x = a then v else s.heap.mem x }
    else none

/-- The memory of the program ends at `start`, and nothing was allocated. -/
def Starts (start : Nat) (s : State) : Prop :=
  s.heap.freeP = 0 ∧ s.heap.sz = start ∧ s.live = []

def machine (base start : Nat) : Machine State Action := ⟨Starts start, step base start⟩

end Xv6.Umalloc
