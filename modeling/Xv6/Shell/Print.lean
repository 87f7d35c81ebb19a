import Xv6.Shell.Grammar

/-!
# Printing trees

A tree is printed as the text of a derivation for it: blocks where the tree is not of the kind that its place asks for,
redirections before the words of a command, and a blank behind every token.
-/

namespace Xv6.Shell

variable {α β : Type}

/-! ## Tokens -/

def Token.map (f : α → β) : Token α → Token β
  | .bar => .bar
  | .left => .left
  | .right => .right
  | .semi => .semi
  | .amp => .amp
  | .less => .less
  | .more => .more
  | .append => .append
  | .word w => .word (f w)

def Token.chars : Token (List UInt8) → List UInt8
  | .bar => [ch '|']
  | .left => [ch '(']
  | .right => [ch ')']
  | .semi => [ch ';']
  | .amp => [ch '&']
  | .less => [ch '<']
  | .more => [ch '>']
  | .append => [ch '>', ch '>']
  | .word w => w

def printTokens (ts : List (Token (List UInt8))) : List UInt8 := ts.flatMap fun t => t.chars ++ [ch ' ']

/-! ## Derivations of a tree -/

/-- What stands before the redirections of a command. -/
inductive Core (α : Type) where
  | words (argv : List α)
  | block (l : Line α)

def Core.command (c : Core α) (rs : List (Redirection α)) : Command α :=
  match c with
  | .words argv => .simple rs (argv.map fun w => (w, []))
  | .block l => .block l rs

/-- The derivations of one tree for the places where it can stand. -/
structure Render (α : Type) where
  line : Line α
  /-- a pipe, and the number of `&` behind it -/
  back : Pipeline α × Nat
  pipe : Pipeline α
  core : Core α
  redirs : List (Redirection α)

def Render.command (x : Render α) : Command α := x.core.command x.redirs

def Render.ofCommand (c : Core α) (rs : List (Redirection α)) : Render α :=
  ⟨.single (.single (c.command rs)) 0, (.single (c.command rs), 0), .single (c.command rs), c, rs⟩

def Render.ofPipe (p : Pipeline α) : Render α := ⟨.single p 0, (p, 0), p, .block (.single p 0), []⟩

def Render.ofBack (p : Pipeline α) (n : Nat) : Render α :=
  ⟨.single p n, (p, n), .single (.block (.single p n) []), .block (.single p n), []⟩

def Render.ofLine (l : Line α) : Render α := ⟨l, (.single (.block l []), 0), .single (.block l []), .block l, []⟩

def Redir.redirection (r : Redir α) : Redirection α := ⟨if r.fd = 0 then .less else .more, r.file⟩

def Cmd.render : Cmd α → Render α
  | .exec argv => .ofCommand (.words argv) []
  | .redir r cmd => .ofCommand cmd.render.core (cmd.render.redirs ++ [r.redirection])
  | .pipe left right => .ofPipe (.pipe left.render.command right.render.pipe)
  | .list left right => .ofLine (.seq left.render.back.1 left.render.back.2 right.render.line)
  | .back cmd => .ofBack cmd.render.back.1 (cmd.render.back.2 + 1)

def print (t : Cmd (List UInt8)) : List UInt8 := printTokens t.render.line.tokens

end Xv6.Shell
