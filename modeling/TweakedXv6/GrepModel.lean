import Mathlib.Data.List.Basic

namespace TweakedXv6.Grep

def caret : UInt8 := 94

def dollar : UInt8 := 36

def dot : UInt8 := 46

def star : UInt8 := 42

def newline : UInt8 := 10

/-- `here` matches the rest of the pattern at the beginning of a text. The end of a list is the NUL of
the string. -/
def matchstar (here : List UInt8 → Bool) (c : UInt8) : List UInt8 → Bool
  | [] => here []
  | a :: text => here (a :: text) || (a == c || c == dot) && matchstar here c text

/-- One character is matched by `c`, the rest of the text by `here`. -/
def matchone (here : List UInt8 → Bool) (c : UInt8) : List UInt8 → Bool
  | [] => false
  | a :: text => (c == dot || c == a) && here text

def matchhere : List UInt8 → List UInt8 → Bool
  | [], _ => true
  | [c], text => if c = dollar then text.isEmpty else matchone (matchhere []) c text
  | c :: d :: re, text => if d = star then matchstar (matchhere re) c text else matchone (matchhere (d :: re)) c text

/-- The loop of `match` over the suffixes of the text. -/
def matchany (re : List UInt8) : List UInt8 → Bool
  | [] => matchhere re []
  | a :: text => matchhere re (a :: text) || matchany re text

def matchRe (re text : List UInt8) : Bool :=
  if re.head? = some caret then matchhere re.tail text else matchany re text

/-- The index of the first `c`, before the end of the string. -/
def strchr (c : UInt8) : List UInt8 → Option Nat
  | [] => none
  | a :: s => if a = 0 then none else if a = c then some 0 else (strchr c s).map (· + 1)

def BUFSIZE : Nat := 1024

/-- The loop over the lines in `buf` from `p` on: what is written, and what is left. -/
def scan (pattern : List UInt8) : Nat → List UInt8 → List UInt8 × List UInt8
  | 0, p => ([], p)
  | fuel + 1, p =>
    match strchr newline p with
    | none => ([], p)
    | some q =>
      let r := scan pattern fuel (p.drop (q + 1))
      (if matchRe pattern (p.take q) then p.take (q + 1) ++ r.1 else r.1, r.2)

/-- At most `n` bytes from a file that gives its bytes in chunks. -/
def read (n : Nat) : List (List UInt8) → List UInt8 × List (List UInt8)
  | [] => ([], [])
  | c :: cs => (c.take n, if c.length ≤ n then cs else c.drop n :: cs)

/-- `buf` are the first `m` bytes of the buffer. It takes at most one round more than there are bytes. -/
def grepLoop (pattern : List UInt8) : Nat → List UInt8 → List (List UInt8) → Option (List UInt8)
  | 0, _, _ => none
  | fuel + 1, buf, fd =>
    let r := read (BUFSIZE - buf.length - 1) fd
    if r.1 = [] then some []
    else
      let l := scan pattern (buf ++ r.1).length (buf ++ r.1)
      (grepLoop pattern fuel l.2 r.2).map (l.1 ++ ·)

def grep (pattern : List UInt8) (fd : List (List UInt8)) : Option (List UInt8) :=
  grepLoop pattern (fd.flatten.length + 1) [] fd

end TweakedXv6.Grep
