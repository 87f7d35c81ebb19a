import Mathlib.Algebra.Order.Ring.Nat
import Xv6.Lib.Loop
import Xv6.Lib.Bytes
import Xv6.Lib.Upd

/-!
# The framebuffer

`gop.c`: pixels and rectangles in the framebuffer that the boot loader reports. An address in the framebuffer is its
offset from `fb_base`, and every offset that is written is recorded. The arithmetic is that of 64 bits.
-/

namespace Xv6.Screen

open Xv6.Lib

/-- `struct gop_fb`. The numbers come from fields of 32 and 8 bits of the boot information. -/
structure GopFb where
  width : Nat
  height : Nat
  /-- The bytes of a row. -/
  pitch : Nat
  bpp : Nat
  width_lt : width < 2 ^ 32
  height_lt : height < 2 ^ 32
  pitch_lt : pitch < 2 ^ 32
  bpp_lt : bpp < 2 ^ 8

structure Display where
  fb : GopFb
  bytes : Bytes
  /-- The offsets that were written, in order. -/
  written : List Nat

abbrev DisplayM : Type → Type := Prog Display

/-- A byte of the framebuffer is written. -/
def putByte (off : Nat) (b : UInt8) : DisplayM Unit :=
  modify fun s => { s with bytes := upd s.bytes off b, written := s.written ++ [off] }

/-- A round of the loop over the bytes of a pixel; the index has 8 bits. -/
def pixelRound (pixel bytesPerPixel color i : Nat) : DisplayM (Nat ⊕ Unit) :=
  if i < bytesPerPixel then do
    putByte ((pixel + i) % 2 ^ 64) (UInt8.ofNat (color >>> (i * 8 % 64)))
    pure (.inl ((i + 1) % 2 ^ 8))
  else pure (.inr ())

def gopDrawPixel (x y color : Nat) : DisplayM Unit := do
  let s ← get
  let bytesPerPixel := s.fb.bpp / 8
  let pixel := (y * s.fb.pitch + x * bytesPerPixel) % 2 ^ 64
  loop (pixelRound pixel bytesPerPixel color) (2 ^ 8) 0

/-- The pixels of a row from a column on. -/
def colRound (row xEnd color col : Nat) : DisplayM (Nat ⊕ Unit) :=
  if col < xEnd then do
    gopDrawPixel col row color
    pure (.inl ((col + 1) % 2 ^ 64))
  else pure (.inr ())

def rowRound (x xEnd yEnd color row : Nat) : DisplayM (Nat ⊕ Unit) :=
  if row < yEnd then do
    loop (colRound row xEnd color) (xEnd + 1) x
    pure (.inl ((row + 1) % 2 ^ 64))
  else pure (.inr ())

def gopDrawRect (x y w h color : Nat) : DisplayM Unit := do
  let s ← get
  let xEnd := if s.fb.width < (x + w) % 2 ^ 64 then s.fb.width else (x + w) % 2 ^ 64
  let yEnd := if s.fb.height < (y + h) % 2 ^ 64 then s.fb.height else (y + h) % 2 ^ 64
  loop (rowRound x xEnd yEnd color) (yEnd + 1) y

/-- The registers that hold the arguments of a system call. -/
structure RegiPile where
  rdi : Nat
  rsi : Nat
  rdx : Nat
  r10 : Nat
  r8 : Nat

def sysDraw (rp : RegiPile) : DisplayM Int := do
  gopDrawRect rp.rdi rp.rsi rp.rdx rp.r10 rp.r8
  pure 0

end Xv6.Screen
