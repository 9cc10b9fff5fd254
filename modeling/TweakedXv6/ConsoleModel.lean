import TweakedXv6.Machine
import TweakedXv6.SleepModel

namespace TweakedXv6.Tty

open Sleep (Console INPUT_BUF)

/-- `consoleintr` for `ch`, without the echo and the wakeup. -/
def intr (c : Console) (ch : UInt8) : Console :=
  if ch = 16 then c
  else if ch = 21 then c.killLine (usub c.e c.w)
  else if ch = 8 ∨ ch = 127 then
    if c.e ≠ c.w then { c with e := uint (c.e + 4294967295) } else c
  else if ch ≠ 0 ∧ usub c.e c.r < INPUT_BUF then
    let ch := if ch = 13 then 10 else ch
    let c := { c with buf := Function.update c.buf (c.e % INPUT_BUF) ch, e := uint (c.e + 1) }
    if ch = 10 ∨ ch = 4 ∨ c.e = uint (c.r + INPUT_BUF) then { c with w := c.e } else c
  else c

theorem consoleintr_cons (s : Sleep.State) (ch : UInt8) : (Sleep.consoleintr s ch).cons = intr s.cons ch := by
  unfold Sleep.consoleintr intr
  by_cases hp : ch = 16
  · rw [if_pos hp, if_pos hp]
  rw [if_neg hp, if_neg hp]
  by_cases hu : ch = 21
  · rw [if_pos hu, if_pos hu]
    rfl
  rw [if_neg hu, if_neg hu]
  by_cases hh : ch = 8 ∨ ch = 127
  · rw [if_pos hh, if_pos hh]
    split <;> rfl
  rw [if_neg hh, if_neg hh]
  by_cases hroom : ch ≠ 0 ∧ usub s.cons.e s.cons.r < INPUT_BUF
  · rw [if_pos (show ch ≠ 0 ∧ uint (s.cons.e + 4294967296 - s.cons.r) < INPUT_BUF from hroom), if_pos hroom]
    dsimp only
    by_cases hcommit : (if ch = 13 then 10 else ch) = 10 ∨ (if ch = 13 then 10 else ch) = 4 ∨
        uint (s.cons.e + 1) = uint (s.cons.r + INPUT_BUF)
    · rw [if_pos hcommit, if_pos hcommit]
      rfl
    · rw [if_neg hcommit, if_neg hcommit]
  · rw [if_neg (show ¬ (ch ≠ 0 ∧ uint (s.cons.e + 4294967296 - s.cons.r) < INPUT_BUF) from hroom), if_neg hroom]

/-- The bytes of the buffer from index `a` up to `b`. -/
def bytes (c : Console) (a b : Nat) : List UInt8 :=
  (List.range (usub b a)).map fun i => c.buf ((a + i) % INPUT_BUF)

/-- A `consoleread`: in its loop with the lock, asleep, or returned; `n` of `target` bytes are still to
deliver. -/
inductive Call
  | idle
  | loop (target n : Nat)
  | asleep (target n : Nat)
  | done (target ret : Nat)
  deriving DecidableEq, Repr

/-- `owner` holds `cons.lock`; `committed` are all bytes that `w` has passed, `delivered` those copied
out. -/
structure State where
  cons : Console
  owner : Option Nat
  call : Nat → Call
  committed : List UInt8
  delivered : List (Nat × UInt8)

def State.unread (s : State) : List UInt8 := bytes s.cons s.cons.r s.cons.w

def State.got (s : State) (k : Nat) : List UInt8 := (s.delivered.filter (·.1 = k)).map (·.2)

def State.finish (s : State) (k target n : Nat) : State :=
  { s with owner := none, call := Function.update s.call k (.done target (target - n)) }

/-- One turn of `consoleread`'s outer loop, or of the inner one if there is no input. -/
def turn (s : State) (k target n : Nat) : State :=
  if 0 < n then
    if s.cons.r = s.cons.w then
      { s with owner := none, call := Function.update s.call k (.asleep target n) }
    else
      let ch := s.cons.buf (s.cons.r % INPUT_BUF)
      let t := { s with cons := { s.cons with r := uint (s.cons.r + 1) } }
      if ch = 4 then
        if n < target then
          { t with cons := { t.cons with r := uint (t.cons.r + 4294967295) } }.finish k target n
        else t.finish k target n
      else
        let t := { t with delivered := t.delivered ++ [(k, ch)] }
        if ch = 10 then t.finish k target (n - 1)
        else { t with call := Function.update t.call k (.loop target (n - 1)) }
  else s.finish k target n

inductive Act
  | intr (ch : UInt8)
  | enter (k : Nat) (n : Int)
  | turn (k : Nat)
  | wake (k : Nat)
  deriving DecidableEq, Repr

/-- What one party does while it holds `cons.lock`. A sleeping call may wake up at any time. -/
def act (s : State) : Act → Option State
  | .intr ch =>
    if s.owner = none then
      let c := intr s.cons ch
      some { s with cons := c, committed := s.committed ++ bytes c s.cons.w c.w }
    else none
  | .enter k n =>
    if s.owner = none ∧ s.call k = .idle then
      some { s with owner := some k, call := Function.update s.call k (.loop n.toNat n.toNat) }
    else none
  | .turn k =>
    match s.call k with
    | .loop target n => if s.owner = some k then some (turn s k target n) else none
    | _ => none
  | .wake k =>
    match s.call k with
    | .asleep target n =>
      if s.owner = none then
        some { s with owner := some k, call := Function.update s.call k (.loop target n) }
      else none
    | _ => none

def machine : Machine State Act where
  init s := s.cons.r = 0 ∧ s.cons.w = 0 ∧ s.cons.e = 0 ∧ s.owner = none ∧ (∀ k, s.call k = .idle) ∧
    s.committed = [] ∧ s.delivered = []
  step := act

end TweakedXv6.Tty
