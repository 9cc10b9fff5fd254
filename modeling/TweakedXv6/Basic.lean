import Mathlib.Data.Nat.Notation

namespace TweakedXv6

def NPROC : Nat := 64

theorem zero_lt_NPROC : 0 < NPROC := by decide

theorem one_lt_NPROC : 1 < NPROC := by decide

inductive ProcState
  | unused | used | sleeping | runnable | running | zombie
  deriving DecidableEq, Repr

def ProcState.live : ProcState → Bool
  | .sleeping | .runnable | .running => true
  | _ => false

def uint (n : Nat) : Nat := n % 4294967296

def usub (a b : Nat) : Nat := uint (a + 4294967296 - b)

/-- Addresses a process can sleep on: a process, as in `wait`, or another object. -/
inductive Chan
  | proc (p : Nat)
  | addr (a : Nat)
  deriving DecidableEq, Repr

end TweakedXv6
