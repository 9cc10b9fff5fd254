import Mathlib.Data.Nat.Find
import Mathlib.Logic.Function.Basic
import TweakedXv6.Prog

namespace TweakedXv6.Shell

open Prog

def NUL : Char := '\x00'

def whitespace : List Char := [' ', '\t', '\r', '\n', '\x0b']

def symbols : List Char := ['<', '|', '>', '&', ';', '(', ')']

def MAXARGS : Nat := 10

def O_RDONLY : Nat := 0x000

def O_WRONLY : Nat := 0x001

def O_CREATE : Nat := 0x200

def O_TRUNC : Nat := 0x400

/-- A buffer with a line in it that a NUL ends. Pointers into the buffer are offsets. -/
structure Line where
  buf : Nat → Char
  nul : ∃ n, buf n = NUL

def Line.strlen (l : Line) : Nat := Nat.find l.nul

/-- A word is the pointer to its first character and the one past its last. The list of an `exec` is
`argv` with `eargv`, up to the null pointer. -/
inductive Cmd where
  | exec (argv : List (Nat × Nat))
  | redir (cmd : Cmd) (file efile mode fd : Nat)
  | pipe (left right : Cmd)
  | list (left right : Cmd)
  | back (cmd : Cmd)
  deriving DecidableEq, Repr

/-- `cmd->argv[argc] = q; cmd->eargv[argc] = eq;` where `cmd` is the `exec` command below the
redirections. -/
def Cmd.addArg (q eq : Nat) : Cmd → Cmd
  | .exec argv => .exec (argv ++ [(q, eq)])
  | .redir c file efile mode fd => .redir (c.addArg q eq) file efile mode fd
  | .pipe c d => .pipe c d
  | .list c d => .list c d
  | .back c => .back c

/-- `while(s < es && p(*s)) s++;` with `n` characters left before `es`. -/
def skip (buf : Nat → Char) (p : Char → Bool) : Nat → Nat → Nat
  | 0, s => s
  | n + 1, s => if p (buf s) then skip buf p n (s + 1) else s

def isBlank (c : Char) : Bool := whitespace.contains c

def isWord (c : Char) : Bool := !whitespace.contains c && !symbols.contains c

/-- The panic of a function that was not given enough fuel; the source has no such message. -/
def noFuel : String := "no fuel"

namespace Line

variable (l : Line)

def skipBlanks (s : Nat) : Nat := skip l.buf isBlank (l.strlen - s) s

/-- The token at `q`, as `ret`, and the end of its text. -/
def scanToken (q : Nat) : Char × Nat :=
  if l.buf q = NUL then (NUL, q)
  else if l.buf q ∈ ['|', '(', ')', ';', '&', '<'] then (l.buf q, q + 1)
  else if l.buf q = '>' then
    if l.buf (q + 1) = '>' then ('+', q + 2) else ('>', q + 1)
  else ('a', skip l.buf isWord (l.strlen - q) q)

/-- The state of the parser is `*ps`. The result is `ret` with `*q` and `*eq`. -/
def gettoken : Prog Nat (Char × Nat × Nat) := fun s =>
  let q := l.skipBlanks s
  let r := l.scanToken q
  .ok ((r.1, q, r.2), l.skipBlanks r.2)

def peek (toks : List Char) : Prog Nat Bool := fun s =>
  let s' := l.skipBlanks s
  .ok (l.buf s' != NUL && toks.contains (l.buf s'), s')

def redirect (tok : Char) (q eq : Nat) (cmd : Cmd) : Cmd :=
  if tok = '<' then .redir cmd q eq O_RDONLY 0
  else if tok = '>' then .redir cmd q eq (O_WRONLY ||| O_CREATE ||| O_TRUNC) 1
  else if tok = '+' then .redir cmd q eq (O_WRONLY ||| O_CREATE) 1
  else cmd

def parseredirs : Nat → Cmd → Prog Nat Cmd
  | 0, _ => halt noFuel
  | fuel + 1, cmd => do
    if ← l.peek ['<', '>'] then
      let tok ← l.gettoken
      let file ← l.gettoken
      if file.1 ≠ 'a' then halt "missing file for redirection"
      else parseredirs fuel (redirect tok.1 file.2.1 file.2.2 cmd)
    else ret cmd

/-- The loop of `parseexec`; `ret` has `argc` arguments. -/
def parseargs : Nat → Nat → Cmd → Prog Nat Cmd
  | 0, _, _ => halt noFuel
  | fuel + 1, argc, cmd => do
    if ← l.peek ['|', ')', '&', ';'] then ret cmd
    else
      let tok ← l.gettoken
      if tok.1 = NUL then ret cmd
      else if tok.1 ≠ 'a' then halt "syntax"
      else if argc + 1 ≥ MAXARGS then halt "too many args"
      else do
        let cmd ← l.parseredirs fuel (cmd.addArg tok.2.1 tok.2.2)
        parseargs fuel (argc + 1) cmd

def parsebacks : Nat → Cmd → Prog Nat Cmd
  | 0, _ => halt noFuel
  | fuel + 1, cmd => do
    if ← l.peek ['&'] then
      let _ ← l.gettoken
      parsebacks fuel (.back cmd)
    else ret cmd

mutual

def parseline : Nat → Prog Nat Cmd
  | 0 => halt noFuel
  | fuel + 1 => do
    let cmd ← parsepipe fuel
    let cmd ← l.parsebacks fuel cmd
    if ← l.peek [';'] then
      let _ ← l.gettoken
      let right ← parseline fuel
      ret (.list cmd right)
    else ret cmd

def parsepipe : Nat → Prog Nat Cmd
  | 0 => halt noFuel
  | fuel + 1 => do
    let cmd ← parseexec fuel
    if ← l.peek ['|'] then
      let _ ← l.gettoken
      let right ← parsepipe fuel
      ret (.pipe cmd right)
    else ret cmd

def parseexec : Nat → Prog Nat Cmd
  | 0 => halt noFuel
  | fuel + 1 => do
    if ← l.peek ['('] then parseblock fuel
    else
      let cmd ← l.parseredirs fuel (.exec [])
      l.parseargs fuel 0 cmd

def parseblock : Nat → Prog Nat Cmd
  | 0 => halt noFuel
  | fuel + 1 => do
    if ← l.peek ['('] then
      let _ ← l.gettoken
      let cmd ← parseline fuel
      if ← l.peek [')'] then
        let _ ← l.gettoken
        l.parseredirs fuel cmd
      else halt "syntax - missing )"
    else halt "parseblock"

end

end Line

def nulterminate : Cmd → (Nat → Char) → Nat → Char
  | .exec argv, buf => argv.foldl (fun buf a => Function.update buf a.2 NUL) buf
  | .redir c _ efile _ _, buf => Function.update (nulterminate c buf) efile NUL
  | .pipe c d, buf => nulterminate d (nulterminate c buf)
  | .list c d, buf => nulterminate d (nulterminate c buf)
  | .back c, buf => nulterminate c buf

namespace Line

variable (l : Line)

def parseall (fuel : Nat) : Prog Nat Cmd := do
  let cmd ← l.parseline fuel
  let _ ← l.peek []
  let s ← read id
  if s ≠ l.strlen then halt "syntax" else ret cmd

/-- The command and the buffer that its pointers point into. -/
def parsecmd (fuel : Nat) : Except String (Cmd × (Nat → Char)) :=
  (l.parseall fuel 0).map fun r => (r.1, nulterminate r.1 l.buf)

end Line

end TweakedXv6.Shell
