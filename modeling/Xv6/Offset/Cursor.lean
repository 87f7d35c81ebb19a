import Xv6.Fs.View
import Xv6.Kernel.State

/-!
# Cursors over one string of bytes

What the open files on one inode are for: each has a cursor in the bytes of the file, a call through it
reads or writes from the cursor on, and leaves the cursor behind the last byte that it read or wrote.
-/

namespace Xv6.Offset

open Xv6.Lib Xv6.Fs Xv6.Kernel

/-- `file_read` or `file_write` with its arguments. -/
inductive Op where
  | read (n : UInt64)
  | write (data : { l : List UInt8 // l.length < 2 ^ 64 })

/-- What a call returns, and the bytes that it stores at `addr`. -/
structure Result where
  ret : Int
  dst : List UInt8
deriving DecidableEq

/-- A call that took effect. -/
structure Done where
  proc : ProcId
  file : FileId
  op : Op
  result : Result

structure Cursor where
  data : List UInt8
  off : FileId → Nat

/-- A call at the offset `off` is not too long. -/
def Op.Fits (off : Nat) : Op → Prop
  | .read n => off + n.toNat < 2 ^ 64
  | .write l => off + l.val.length ≤ (ndirect + nindirect) * bsize

/-- The call is not refused; `mode` says which calls the files allow. -/
def Cursor.Allows (mode : FileId → Op → Bool) (c : Cursor) (f : FileId) (op : Op) : Prop :=
  mode f op = true ∧ c.off f ≤ c.data.length ∧ op.Fits (c.off f)

/-- What a call through the file `f` does. -/
inductive Takes (mode : FileId → Op → Bool) (c : Cursor) (f : FileId) : Op → Result → Cursor → Prop where
  | refused {op : Op} (h : ¬ c.Allows mode f op) : Takes mode c f op ⟨-1, []⟩ c
  | read {n : UInt64} {l : List UInt8} (h : c.Allows mode f (.read n)) (hl : l = (c.data.drop (c.off f)).take n.toNat) :
      Takes mode c f (.read n) ⟨l.length, l⟩ { c with off := upd c.off f (c.off f + l.length) }
  | write {l : { l : List UInt8 // l.length < 2 ^ 64 }} (h : c.Allows mode f (.write l)) :
      Takes mode c f (.write l) ⟨l.val.length, []⟩
        ⟨overlay c.data (c.off f) l.val, upd c.off f (c.off f + l.val.length)⟩

/-- The calls of a list one after another. -/
inductive Run (mode : FileId → Op → Bool) (c₀ : Cursor) : List Done → Cursor → Prop where
  | nil : Run mode c₀ [] c₀
  | snoc {l : List Done} {c c' : Cursor} {d : Done} (h : Run mode c₀ l c) (hd : Takes mode c d.file d.op d.result c') :
      Run mode c₀ (l ++ [d]) c'

/-- The sum of the positive results of the calls through `f`. -/
def moved (f : FileId) (l : List Done) : Nat :=
  ((l.filter fun d => d.file = f).map fun d => d.result.ret.toNat).sum

/-- The calls of `log` took effect one after another, each at the place where those before it through the
same file left the cursor. -/
structure OneByOne (mode : FileId → Op → Bool) (c₀ : Cursor) (log : List Done) (c : Cursor) : Prop where
  off : ∀ f, c.off f = c₀.off f + moved f log
  each : ∀ l₁ d l₂, log = l₁ ++ d :: l₂ → ∃ c₁ c₂, Run mode c₀ l₁ c₁ ∧ Run mode c₂ l₂ c ∧
    c₁.off d.file = c₀.off d.file + moved d.file l₁ ∧
    (d.result.ret ≤ 0 → (d.result.ret = -1 ∨ d.result.ret = 0) ∧ c₂ = c₁) ∧
    (0 < d.result.ret → c₁.off d.file ≤ c₁.data.length ∧
      c₂.off = upd c₁.off d.file (c₁.off d.file + d.result.ret.toNat) ∧
      (∀ n, d.op = .read n → d.result.dst = (c₁.data.drop (c₁.off d.file)).take d.result.ret.toNat ∧
        d.result.dst.length = d.result.ret ∧ c₂.data = c₁.data) ∧
      ∀ l, d.op = .write l → d.result.ret = l.val.length ∧ c₂.data = overlay c₁.data (c₁.off d.file) l.val)

end Xv6.Offset
