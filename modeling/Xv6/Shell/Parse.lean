import Xv6.Lib.Upd
import Xv6.Lib.Wp

/-!
# The parser of the shell

The recursive descent parser of `user/nsh.c`. The command line `s` has no NUL, and the state is the position in it: the
NUL behind it is at the position `s.length`. Words and file names are slices of the line, from the first character to
the one behind the last; `null_terminate` then puts a NUL at the end of every slice. Functions that call each other have
one fuel.
-/

namespace Xv6.Shell

open Xv6.Lib

@[simp] def maxArgs : Nat := 10

@[simp] def oRdonly : Nat := 0x000
@[simp] def oWronly : Nat := 0x001
@[simp] def oCreate : Nat := 0x200

/-- From the first character to the one behind the last. -/
abbrev Span : Type := Nat × Nat

/-- The file name, mode and descriptor of a `struct redir_cmd`. -/
structure Redir (α : Type) where
  file : α
  mode : Nat
  fd : Nat
deriving DecidableEq, Repr

/-- `struct cmd`; the words of `argv` are those before the null pointer. -/
inductive Cmd (α : Type) where
  | exec (argv : List α)
  | redir (r : Redir α) (cmd : Cmd α)
  | pipe (left right : Cmd α)
  | list (left right : Cmd α)
  | back (cmd : Cmd α)
deriving DecidableEq, Repr

def Redir.map {α β : Type} (f : α → β) (r : Redir α) : Redir β := ⟨f r.file, r.mode, r.fd⟩

/-- The tree with other words. -/
def Cmd.map {α β : Type} (f : α → β) : Cmd α → Cmd β
  | .exec argv => .exec (argv.map f)
  | .redir r cmd => .redir (r.map f) (cmd.map f)
  | .pipe left right => .pipe (left.map f) (right.map f)
  | .list left right => .list (left.map f) (right.map f)
  | .back cmd => .back (cmd.map f)

abbrev ParseM : Type → Type := Prog Nat

def ch (c : Char) : UInt8 := c.toUInt8

def whiteSpace : List UInt8 := " \t\r\n\x0b".toList.map ch
def symbols : List UInt8 := "<|>&;()".toList.map ch

def isSpace (c : UInt8) : Bool := whiteSpace.contains c

/-- A character of a word. -/
def isPlain (c : UInt8) : Bool := !whiteSpace.contains c && !symbols.contains c

/-- `*(str + p)` -/
def charAt (s : List UInt8) (p : Nat) : UInt8 := s.getD p 0

/-- `while(str < str_end && f(*str)) str++;` -/
def scan (f : UInt8 → Bool) (s : List UInt8) (p : Nat) : Nat := p + ((s.drop p).takeWhile f).length

/-! ## Tokens -/

/-- The result of `get_token`, and the slice of the token. -/
structure Tok where
  ret : UInt8
  q : Nat
  eq : Nat

/-- The switch of `get_token`: the result and the end of the token at `q`. -/
def tokenAt (s : List UInt8) (q : Nat) : UInt8 × Nat :=
  let c := charAt s q
  if c = 0 then (0, q)
  else if c ∈ "|();&<".toList.map ch then (c, q + 1)
  else if c = ch '>' then
    if charAt s (q + 1) = ch '>' then (ch '+', q + 2) else (ch '>', q + 1)
  else (ch 'a', scan isPlain s q)

def getToken (s : List UInt8) : ParseM Tok := do
  let str ← get
  let q := scan isSpace s str
  let t := tokenAt s q
  set (scan isSpace s t.2)
  pure ⟨t.1, q, t.2⟩

def peek (s : List UInt8) (toks : String) : ParseM Bool := do
  modify (scan isSpace s)
  let str ← get
  pure (charAt s str ≠ 0 ∧ charAt s str ∈ toks.toList.map ch)

/-! ## Commands -/

/-- The switch of `parse_redirs`. -/
def redirCmd (tok : UInt8) (file : Span) : Redir Span :=
  if tok = ch '<' then ⟨file, oRdonly, 0⟩
  else if tok = ch '>' then ⟨file, oWronly ||| oCreate, 1⟩
  else ⟨file, oWronly ||| oCreate, 1⟩

/-- A command with redirections, the last of them outermost. -/
def Cmd.wrap {α : Type} (rs : List (Redir α)) (cmd : Cmd α) : Cmd α := rs.foldl (fun c r => .redir r c) cmd

/-- Collects the redirections around a command. The command itself comes later: `parse_exec` fills it in after it is
wrapped. -/
def parseRedirs (s : List UInt8) : Nat → List (Redir Span) → ParseM (List (Redir Span))
  | 0, _ => throw .diverge
  | n + 1, rs => do
    if ← peek s "<>" then do
      let tok ← getToken s
      let file ← getToken s
      panicIf (file.ret ≠ ch 'a') "missing file for redir"
      parseRedirs s n (rs ++ [redirCmd tok.ret (file.q, file.eq)])
    else pure rs

/-- The loop of `parse_exec`. -/
def parseArgs (s : List UInt8) : Nat → List Span → List (Redir Span) → ParseM (List Span × List (Redir Span))
  | 0, _, _ => throw .diverge
  | n + 1, argv, rs => do
    if ← peek s "|)&;" then pure (argv, rs)
    else do
      let tok ← getToken s
      if tok.ret = 0 then pure (argv, rs)
      else do
        panicIf (tok.ret ≠ ch 'a') "syntax"
        panicIf (maxArgs ≤ argv.length + 1) "too many args"
        let rs ← parseRedirs s n rs
        parseArgs s n (argv ++ [(tok.q, tok.eq)]) rs

/-- The loop of `parse_line`. -/
def parseBacks (s : List UInt8) : Nat → Cmd Span → ParseM (Cmd Span)
  | 0, _ => throw .diverge
  | n + 1, cmd => do
    if ← peek s "&" then do
      let _ ← getToken s
      parseBacks s n (.back cmd)
    else pure cmd

mutual

def parseLine (s : List UInt8) : Nat → ParseM (Cmd Span)
  | 0 => throw .diverge
  | n + 1 => do
    let cmd ← parsePipe s n
    let cmd ← parseBacks s n cmd
    if ← peek s ";" then do
      let _ ← getToken s
      let right ← parseLine s n
      pure (.list cmd right)
    else pure cmd

def parsePipe (s : List UInt8) : Nat → ParseM (Cmd Span)
  | 0 => throw .diverge
  | n + 1 => do
    let cmd ← parseExec s n
    if ← peek s "|" then do
      let _ ← getToken s
      let right ← parsePipe s n
      pure (.pipe cmd right)
    else pure cmd

def parseExec (s : List UInt8) : Nat → ParseM (Cmd Span)
  | 0 => throw .diverge
  | n + 1 => do
    if ← peek s "(" then parseBlock s n
    else do
      let rs ← parseRedirs s n []
      let x ← parseArgs s n [] rs
      pure (Cmd.wrap x.2 (.exec x.1))

def parseBlock (s : List UInt8) : Nat → ParseM (Cmd Span)
  | 0 => throw .diverge
  | n + 1 => do
    let opens ← peek s "("
    panicIf (opens = false) "parse_block"
    let _ ← getToken s
    let cmd ← parseLine s n
    let closes ← peek s ")"
    panicIf (closes = false) "syntax ) missing"
    let _ ← getToken s
    let rs ← parseRedirs s n []
    pure (Cmd.wrap rs cmd)

end

/-! ## The whole line -/

/-- The memory from the command line on. -/
abbrev Buf : Type := Nat → UInt8

def nullTerminate : Cmd Span → Buf → Buf
  | .exec argv, b => argv.foldl (fun b w => upd b w.2 0) b
  | .redir r cmd, b => upd (nullTerminate cmd b) r.file.2 0
  | .pipe left right, b => nullTerminate right (nullTerminate left b)
  | .list left right, b => nullTerminate right (nullTerminate left b)
  | .back cmd, b => nullTerminate cmd b

/-- The tree, and the command line after it was cut into words. -/
def parseCmd (s : List UInt8) : ParseM (Cmd Span × Buf) := do
  let cmd ← parseLine s (4 * s.length + 4)
  let _ ← peek s ""
  let str ← get
  panicIf (str ≠ s.length) "syntax"
  pure (cmd, nullTerminate cmd (charAt s))

end Xv6.Shell
