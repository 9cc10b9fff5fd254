import Mathlib.Data.List.Forall2
import TweakedXv6.ShellModel

namespace TweakedXv6.Shell

inductive Token where
  | word (text : List Char)
  | less
  | great
  | append
  | bar
  | amp
  | semi
  | lparen
  | rparen
  deriving DecidableEq, Repr

def single (c : Char) : Option Token :=
  if c = '<' then some .less
  else if c = '|' then some .bar
  else if c = '&' then some .amp
  else if c = ';' then some .semi
  else if c = '(' then some .lparen
  else if c = ')' then some .rparen
  else none

/-- Words are as long as they can be, and so is `>>`. -/
def lex : List Char → List Token
  | [] => []
  | c :: cs =>
    if isBlank c then lex cs
    else if c = '>' then if cs.head? = some '>' then .append :: lex cs.tail else .great :: lex cs
    else
      match single c with
      | some t => t :: lex cs
      | none => .word (c :: cs.takeWhile isWord) :: lex (cs.dropWhile isWord)
termination_by cs => cs.length
decreasing_by
  · exact Nat.lt_succ_self _
  · exact Nat.lt_succ_of_le (List.tail_sublist _).length_le
  · exact Nat.lt_succ_self _
  · exact Nat.lt_succ_self _
  · exact Nat.lt_succ_of_le (List.dropWhile_sublist _).length_le

inductive Tree where
  | exec (words : List (List Char))
  | redir (cmd : Tree) (file : List Char) (mode fd : Nat)
  | pipe (left right : Tree)
  | list (left right : Tree)
  | back (cmd : Tree)
  deriving DecidableEq, Repr

inductive RedirOp where
  | input
  | output
  | append
  deriving DecidableEq, Repr

namespace RedirOp

def token : RedirOp → Token
  | input => .less
  | output => .great
  | append => .append

def mode : RedirOp → Nat
  | input => O_RDONLY
  | output => O_WRONLY ||| O_CREATE ||| O_TRUNC
  | append => O_WRONLY ||| O_CREATE

def fd : RedirOp → Nat
  | input => 0
  | output => 1
  | append => 1

end RedirOp

abbrev Redir : Type := RedirOp × List Char

def Redir.tokens (r : Redir) : List Token := [r.1.token, .word r.2]

def Tree.redirs (t : Tree) (rs : List Redir) : Tree := rs.foldl (fun t r => .redir t r.2 r.1.mode r.1.fd) t

def Tree.backs (t : Tree) : Nat → Tree
  | 0 => t
  | n + 1 => (Tree.back t).backs n

abbrev Arg : Type := List Char × List Redir

def Arg.tokens (a : Arg) : List Token := .word a.1 :: a.2.flatMap Redir.tokens

inductive Nonterminal where
  | line
  | pipe
  | exec
  deriving DecidableEq, Repr

/-- `line ::= pipe '&'* [';' line]`, `pipe ::= exec ['|' pipe]`, `exec ::= '(' line ')' redir* | redir*
(word redir*)*`, `redir ::= ('<' | '>' | '>>') word`. -/
inductive Derives : Nonterminal → List Token → Tree → Prop where
  | line (n : Nat) {ts : List Token} {t : Tree} (ht : Derives .pipe ts t) :
      Derives .line (ts ++ List.replicate n .amp) (t.backs n)
  | lines (n : Nat) {ts us : List Token} {t u : Tree} (ht : Derives .pipe ts t) (hu : Derives .line us u) :
      Derives .line (ts ++ List.replicate n .amp ++ .semi :: us) (.list (t.backs n) u)
  | pipe {ts : List Token} {t : Tree} (ht : Derives .exec ts t) : Derives .pipe ts t
  | pipes {ts us : List Token} {t u : Tree} (ht : Derives .exec ts t) (hu : Derives .pipe us u) :
      Derives .pipe (ts ++ .bar :: us) (.pipe t u)
  | block (rs : List Redir) {ts : List Token} {t : Tree} (ht : Derives .line ts t) :
      Derives .exec (.lparen :: ts ++ .rparen :: rs.flatMap Redir.tokens) (t.redirs rs)
  | simple (rs : List Redir) (as : List Arg) (h : as.length ≤ 9) :
      Derives .exec (rs.flatMap Redir.tokens ++ as.flatMap Arg.tokens)
        ((Tree.exec (as.map Prod.fst)).redirs (rs ++ as.flatMap Prod.snd))

/-- A command and a tree are alike, where `W` says which pointers stand for which word. -/
inductive Spells (W : Nat → Nat → List Char → Prop) : Cmd → Tree → Prop where
  | exec {argv : List (Nat × Nat)} {ws : List (List Char)}
      (h : List.Forall₂ (fun a w => W a.1 a.2 w) argv ws) : Spells W (.exec argv) (.exec ws)
  | redir {c : Cmd} {t : Tree} {q eq : Nat} {w : List Char} (mode fd : Nat) (h : Spells W c t) (hw : W q eq w) :
      Spells W (.redir c q eq mode fd) (.redir t w mode fd)
  | pipe {c d : Cmd} {t u : Tree} (h : Spells W c t) (h' : Spells W d u) : Spells W (.pipe c d) (.pipe t u)
  | list {c d : Cmd} {t u : Tree} (h : Spells W c t) (h' : Spells W d u) : Spells W (.list c d) (.list t u)
  | back {c : Cmd} {t : Tree} (h : Spells W c t) : Spells W (.back c) (.back t)

def chars (buf : Nat → Char) (s : Nat) : Nat → List Char
  | 0 => []
  | n + 1 => buf s :: chars buf (s + 1) n

def CString (buf : Nat → Char) (p : Nat) (w : List Char) : Prop :=
  chars buf p w.length = w ∧ NUL ∉ w ∧ buf (p + w.length) = NUL

def Cmd.Reads (buf : Nat → Char) (c : Cmd) (t : Tree) : Prop := Spells (fun q _ w => CString buf q w) c t

def Line.text (l : Line) : List Char := chars l.buf 0 l.strlen

def panics : List String :=
  ["syntax", "missing file for redirection", "too many args", "syntax - missing )", "parseblock"]

end TweakedXv6.Shell
