import Mathlib.Logic.Function.Basic
import TweakedXv6.Basic
import TweakedXv6.Machine

namespace TweakedXv6.Malloc

def unit : Nat := 16

/-- `size` is an `uint`, in units of `sizeof(Header)`. -/
structure Header where
  ptr : Nat := 0
  size : Nat := 0
  deriving DecidableEq, Repr

/-- `freep` is null before the first call. `brk` is the end of what `sbrk` has given out, `heap` the
pieces it gave, and `live` the blocks in use, with the bytes asked for. -/
structure State where
  base : Nat
  mem : Nat → Header
  freep : Option Nat
  brk : Nat
  heap : List (Nat × Nat)
  live : List (Nat × Nat)

def State.ptr (s : State) (p : Nat) : Nat := (s.mem p).ptr

def State.size (s : State) (p : Nat) : Nat := (s.mem p).size

def State.stop (s : State) (p : Nat) : Nat := p + unit * s.size p

def State.setPtr (s : State) (p q : Nat) : State :=
  { s with mem := Function.update s.mem p { s.mem p with ptr := q } }

def State.setSize (s : State) (p n : Nat) : State :=
  { s with mem := Function.update s.mem p { s.mem p with size := n } }

/-- The condition on which the search of `free` stops at `p`. -/
def State.stops (s : State) (bp p : Nat) : Bool :=
  (p < bp ∧ bp < s.ptr p) ∨ (s.ptr p ≤ p ∧ (p < bp ∨ bp < s.ptr p))

/-- No result when it has not ended after `fuel` steps. -/
def freeSearch (s : State) (bp : Nat) : Nat → Nat → Option Nat
  | 0, _ => none
  | fuel + 1, p => if s.stops bp p then some p else freeSearch s bp fuel (s.ptr p)

def joinNext (s : State) (bp p : Nat) : State :=
  if s.stop bp = s.ptr p then
    (s.setSize bp (uint (s.size bp + s.size (s.ptr p)))).setPtr bp (s.ptr (s.ptr p))
  else s.setPtr bp (s.ptr p)

/-- `free` joins the block with the one before it. -/
def joinPrev (s : State) (bp p : Nat) : State :=
  if s.stop p = bp then (s.setSize p (uint (s.size p + s.size bp))).setPtr p (s.ptr bp) else s.setPtr p bp

def free (s : State) (bp : Nat) : Option State :=
  match s.freep with
  | none => none
  | some f => (freeSearch s bp (s.brk + 1) f).map fun p => { joinPrev (joinNext s bp p) bp p with freep := some p }

def request (nu : Nat) : Int := Int.bmod (nu * unit : Nat) 4294967296

/-- What `morecore` gets: memory beyond what was given before, of the length asked for, or nothing. -/
def sbrk (s : State) (n : Int) (answer : Option Nat) : Option (Nat × State) :=
  answer.bind fun p =>
    if s.brk ≤ p ∧ 0 ≤ n then some (p, { s with brk := p + n.toNat, heap := (p, n.toNat) :: s.heap }) else none

def morecore (s : State) (nu : Nat) (answer : Option Nat) : Option (Option Nat × State) :=
  let nu := if nu < 4096 then 4096 else nu
  match sbrk s (request nu) answer with
  | none => some (none, s)
  | some (p, t) => (free (t.setSize p nu) p).map fun u => (u.freep, u)

/-- `nunits` from block `p`, all of it or its tail. -/
def take (s : State) (nunits prevp p : Nat) : Nat × State :=
  if s.size p = nunits then (p, { s.setPtr prevp (s.ptr p) with freep := some prevp })
  else
    let t := s.setSize p (s.size p - nunits)
    let q := t.stop p
    (q, { t.setSize q nunits with freep := some prevp })

def mallocLoop (nunits : Nat) : Nat → State → List (Option Nat) → Nat → Nat → Option (Option Nat × State)
  | 0, _, _, _, _ => none
  | fuel + 1, s, answers, prevp, p =>
    if nunits ≤ s.size p then
      let r := take s nunits prevp p
      some (some r.1, r.2)
    else if s.freep = some p then
      (morecore s nunits (answers.head?.getD none)).bind fun r =>
        match r.1 with
        | none => some (none, r.2)
        | some q => mallocLoop nunits fuel r.2 answers.tail q (r.2.ptr q)
    else mallocLoop nunits fuel s answers p (s.ptr p)

/-- The units of a block for `nbytes`, its header included. -/
def units (nbytes : Nat) : Nat := uint ((nbytes + unit - 1) / unit + 1)

/-- Of an `uint` of bytes: the header of the block it returns, if any. -/
def malloc (s : State) (nbytes : Nat) (answers : List (Option Nat)) : Option (Option Nat × State) :=
  match s.freep with
  | none =>
    let t := { (s.setPtr s.base s.base).setSize s.base 0 with freep := some s.base }
    mallocLoop (units nbytes) (2 * s.brk + 4) t answers s.base (t.ptr s.base)
  | some prevp => mallocLoop (units nbytes) (2 * s.brk + 4) s answers prevp (s.ptr prevp)

/-- `malloc` with the answers that `sbrk` will give, or `free` of a live block. -/
inductive Act
  | malloc (nbytes : Nat) (answers : List (Option Nat))
  | free (bp : Nat)
  deriving DecidableEq, Repr

def act (s : State) : Act → Option State
  | .malloc nbytes answers =>
    if nbytes < 4294967296 then
      (malloc s nbytes answers).map fun r =>
        match r.1 with
        | none => r.2
        | some h => { r.2 with live := (h, nbytes) :: r.2.live }
    else none
  | .free bp =>
    if (s.live.map Prod.fst).contains bp then
      (free s bp).map fun t => { t with live := t.live.filter fun b => b.1 ≠ bp }
    else none

/-- `base` is in the data of the program, below its heap. -/
structure Boot (s : State) : Prop where
  freep : s.freep = none
  heap : s.heap = []
  live : s.live = []
  brk : s.base + unit ≤ s.brk

def machine : Machine State Act := ⟨Boot, act⟩

end TweakedXv6.Malloc
