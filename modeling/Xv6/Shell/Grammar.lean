import Xv6.Shell.Parse

/-!
# The grammar of the shell

The language that the parser is for: a command line is cut into tokens, and a derivation arranges the tokens into lines,
pipes and commands. `Line.cmd` is the tree that a derivation stands for.
-/

namespace Xv6.Shell

variable {α β : Type}

/-! ## Tokens -/

inductive Token (α : Type) where
  | bar
  | left
  | right
  | semi
  | amp
  | less
  | more
  | append
  | word (w : α)
deriving DecidableEq, Repr

/-- What the characters before the current one have begun. -/
inductive Open where
  | nothing
  | word (q : Nat)
  | more
deriving DecidableEq

/-- The token that ends before the position `p`. -/
def Open.close (p : Nat) : Open → List (Token Span)
  | .nothing => []
  | .word q => [.word (q, p)]
  | .more => [.more]

/-- The token that ends before a character of a word at `p`, and where that word begins. -/
def Open.extend (p : Nat) : Open → List (Token Span) × Nat
  | .nothing => ([], p)
  | .word q => ([], q)
  | .more => ([.more], p)

/-- The token of a symbol that stands alone. -/
def symbolOf (c : UInt8) : Option (Token α) :=
  if c = ch '|' then some .bar
  else if c = ch '(' then some .left
  else if c = ch ')' then some .right
  else if c = ch ';' then some .semi
  else if c = ch '&' then some .amp
  else if c = ch '<' then some .less
  else none

/-- Cuts the rest of a line into tokens, from the position `p` on. -/
def lex : Open → Nat → List UInt8 → List (Token Span)
  | o, p, [] => o.close p
  | o, p, c :: cs =>
    if isSpace c then o.close p ++ lex .nothing (p + 1) cs
    else if c = ch '>' then
      if o = .more then .append :: lex .nothing (p + 1) cs else o.close p ++ lex .more (p + 1) cs
    else
      match symbolOf c with
      | some t => o.close p ++ t :: lex .nothing (p + 1) cs
      | none => (o.extend p).1 ++ lex (.word (o.extend p).2) (p + 1) cs

def tokens (s : List UInt8) : List (Token Span) := lex .nothing 0 s

/-! ## Derivations -/

inductive RedirOp where
  | less
  | more
  | append
deriving DecidableEq, Repr

structure Redirection (α : Type) where
  op : RedirOp
  file : α
deriving DecidableEq, Repr

mutual

/-- `pipe '&'* [';' line]` -/
inductive Line (α : Type) where
  | single (p : Pipeline α) (backs : Nat)
  | seq (p : Pipeline α) (backs : Nat) (l : Line α)

/-- `cmd ['|' pipe]` -/
inductive Pipeline (α : Type) where
  | single (c : Command α)
  | pipe (c : Command α) (p : Pipeline α)

/-- `'(' line ')' redir*` or `redir* (word redir*)*` -/
inductive Command (α : Type) where
  | block (l : Line α) (rs : List (Redirection α))
  | simple (rs : List (Redirection α)) (args : List (α × List (Redirection α)))

end

/-! ## The tokens of a derivation -/

def RedirOp.token : RedirOp → Token α
  | .less => .less
  | .more => .more
  | .append => .append

def Redirection.tokens (r : Redirection α) : List (Token α) := [r.op.token, .word r.file]

def redirTokens (rs : List (Redirection α)) : List (Token α) := rs.flatMap Redirection.tokens

def argTokens (args : List (α × List (Redirection α))) : List (Token α) :=
  args.flatMap fun a => .word a.1 :: redirTokens a.2

mutual

def Line.tokens : Line α → List (Token α)
  | .single p backs => p.tokens ++ List.replicate backs .amp
  | .seq p backs l => p.tokens ++ List.replicate backs .amp ++ .semi :: l.tokens

def Pipeline.tokens : Pipeline α → List (Token α)
  | .single c => c.tokens
  | .pipe c p => c.tokens ++ .bar :: p.tokens

def Command.tokens : Command α → List (Token α)
  | .block l rs => .left :: l.tokens ++ .right :: redirTokens rs
  | .simple rs args => redirTokens rs ++ argTokens args

end

/-! ## The tree of a derivation -/

/-- `>` and `>>` open the file in the same way. -/
def Redirection.redir (r : Redirection α) : Redir α :=
  match r.op with
  | .less => ⟨r.file, oRdonly, 0⟩
  | .more | .append => ⟨r.file, oWronly ||| oCreate, 1⟩

/-- All redirections of a command, in the order of the text. -/
def Command.redirs : Command α → List (Redirection α)
  | .block _ rs => rs
  | .simple rs args => rs ++ args.flatMap Prod.snd

def Cmd.backs : Nat → Cmd α → Cmd α
  | 0, c => c
  | n + 1, c => Cmd.backs n (.back c)

mutual

def Line.cmd : Line α → Cmd α
  | .single p backs => Cmd.backs backs p.cmd
  | .seq p backs l => .list (Cmd.backs backs p.cmd) l.cmd

def Pipeline.cmd : Pipeline α → Cmd α
  | .single c => c.cmd
  | .pipe c p => .pipe c.cmd p.cmd

def Command.cmd : Command α → Cmd α
  | .block l rs => Cmd.wrap (rs.map Redirection.redir) l.cmd
  | .simple rs args => Cmd.wrap ((rs ++ args.flatMap Prod.snd).map Redirection.redir) (.exec (args.map Prod.fst))

end

/-! ## Limits -/

mutual

/-- Every command has at most `MAXARGS - 1` words. -/
def Line.Fits : Line α → Prop
  | .single p _ => p.Fits
  | .seq p _ l => p.Fits ∧ l.Fits

def Pipeline.Fits : Pipeline α → Prop
  | .single c => c.Fits
  | .pipe c p => c.Fits ∧ p.Fits

def Command.Fits : Command α → Prop
  | .block l _ => l.Fits
  | .simple _ args => args.length < maxArgs

end

mutual

/-- All simple commands and blocks, with those inside of blocks. -/
def Line.commands : Line α → List (Command α)
  | .single p _ => p.commands
  | .seq p _ l => p.commands ++ l.commands

def Pipeline.commands : Pipeline α → List (Command α)
  | .single c => c.commands
  | .pipe c p => c.commands ++ p.commands

def Command.commands : Command α → List (Command α)
  | .block l rs => .block l rs :: l.commands
  | .simple rs args => [.simple rs args]

end

/-- The derivations of a command line. -/
structure Line.Derives (d : Line Span) (s : List UInt8) : Prop where
  tokens : d.tokens = Shell.tokens s
  fits : d.Fits

end Xv6.Shell
