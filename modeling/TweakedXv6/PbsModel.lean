import Mathlib.Logic.Function.Basic
import TweakedXv6.Basic

namespace TweakedXv6.Pbs

/-- The fields of `struct proc` that the PBS scheduler, `update_time` and `set_priority` use. -/
structure Entry where
  state : ProcState := .unused
  pid : Int := 0
  ctime : UInt32 := 0
  staticPriority : UInt32 := 0
  dynamicPriority : UInt32 := 0
  niceness : UInt32 := 0
  timesScheduled : UInt32 := 0
  rtimeLastrun : UInt32 := 0
  stimeLastrun : UInt32 := 0
  rtimeTotal : UInt32 := 0
  stimeTotal : UInt32 := 0
  lastSchedTime : UInt32 := 0
  deriving DecidableEq, Repr

abbrev Table := Nat → Entry

def toInt (x : UInt32) : Int := Int.bmod x.toNat 4294967296

theorem toInt_eq (x : UInt32) : toInt x = if x.toNat < 2147483648 then (x.toNat : Int) else x.toNat - 4294967296 := by
  have hx := x.toNat_lt
  unfold toInt
  rw [Int.bmod_def]
  split <;> split <;> omega

def niceness (r s : UInt32) : UInt32 := if r + s ≠ 0 then r / (r + s) * 10 else 5

def clamp (x : Int) : Int :=
  let x := if 100 < x then 100 else x
  if x < 0 then 0 else x

/-- What the scheduler computes for a RUNNABLE process. -/
def consider (p : Entry) : Entry :=
  let r := p.rtimeTotal - p.lastSchedTime
  let s := p.stimeTotal - p.lastSchedTime
  let x := clamp (toInt (p.staticPriority - niceness r s + 5))
  { p with niceness := niceness r s, rtimeLastrun := r, stimeLastrun := s, dynamicPriority := UInt32.ofNat x.toNat }

/-- `selected_proc` with `selected_proc_priority`, and the table. -/
structure Search where
  table : Table
  selected : Option (Nat × UInt32) := none

/-- The tests by which `p` takes the place of the selected process. -/
def replaces (p selected : Entry) (priority : UInt32) : Bool :=
  if priority > p.dynamicPriority then true
  else if priority = p.dynamicPriority ∧ selected.timesScheduled > p.timesScheduled then true
  else if selected.ctime > p.ctime then true
  else false

def visit (r : Search) (k : Nat) : Search :=
  if (r.table k).state = .runnable then
    let p := consider (r.table k)
    let table := Function.update r.table k p
    match r.selected with
    | none => ⟨table, some (k, p.dynamicPriority)⟩
    | some (s, priority) =>
      if replaces p (table s) priority then ⟨table, some (k, p.dynamicPriority)⟩ else ⟨table, r.selected⟩
  else r

def pass (table : Table) : Search := (List.range NPROC).foldl visit { table }

def dispatch (p : Entry) (ticks : UInt32) : Entry :=
  { p with state := .running, timesScheduled := p.timesScheduled + 1, lastSchedTime := ticks
           rtimeLastrun := 0, stimeLastrun := 0 }

def updateTime (p : Entry) : Entry :=
  if p.state = .running then { p with rtimeTotal := p.rtimeTotal + 1 }
  else if p.state = .sleeping then { p with stimeTotal := p.stimeTotal + 1 }
  else p

def allocproc (p : Entry) (pid : Int) (ticks : UInt32) : Entry :=
  { p with state := .used, pid, ctime := ticks, rtimeTotal := 0, stimeTotal := 0, niceness := 5
           staticPriority := 60, lastSchedTime := 0, timesScheduled := 0, rtimeLastrun := 0, stimeLastrun := 0 }

def freeproc (p : Entry) : Entry := { p with state := .unused, pid := 0 }

def isValidPriority (p : Int) : Bool := 0 ≤ p ∧ p ≤ 100

end TweakedXv6.Pbs
