import TweakedXv6.WaitModel

namespace TweakedXv6.Time

/-- The fields of `struct proc` that count ticks. -/
structure Times where
  ctime : Nat := 0
  rtimeTotal : Nat := 0
  stimeTotal : Nat := 0
  wtimeTotal : Nat := 0
  etime : Nat := 0
  deriving DecidableEq, Repr

/-- What `waitx` returned for a child, and when the child was created and exited. -/
structure Report where
  child : Nat
  rtime : Nat
  wtime : Nat
  ctime : Nat
  etime : Nat
  born : Nat
  died : Nat
  deriving DecidableEq, Repr

/-- `clock` counts the ticks since boot without wrapping, `seen k p` is the state of `p` at tick `k`,
`born` and `died` are the ticks of the last `allocproc` and `exit` of a slot. -/
structure State where
  sys : Wait.State
  ticks : Nat
  times : Nat → Times
  clock : Nat
  seen : Nat → Nat → ProcState
  born : Nat → Nat
  died : Nat → Nat
  reports : List Report

def updateTime (st : ProcState) (v : Times) : Times :=
  if st = .running then { v with rtimeTotal := uint (v.rtimeTotal + 1) }
  else if st = .sleeping then { v with stimeTotal := uint (v.stimeTotal + 1) }
  else if st = .runnable then { v with wtimeTotal := uint (v.wtimeTotal + 1) }
  else v

def wakeupTicks (u : Wait.State) : Nat → Wait.State
  | 0 => u
  | n + 1 => Wait.wakeupSlot (wakeupTicks u n) NPROC (some (.addr 0)) n

def clockintr (s : State) : State :=
  { s with
    ticks := uint (s.ticks + 1)
    times := fun p => if p < NPROC then updateTime (s.sys.proc p).state (s.times p) else s.times p
    sys := wakeupTicks s.sys NPROC
    clock := s.clock + 1
    seen := Function.update s.seen (s.clock + 1) fun p => (s.sys.proc p).state }

def allocproc (s : State) (np : Nat) : State :=
  { s with
    times := Function.update s.times np
      { ctime := s.ticks, rtimeTotal := 0, stimeTotal := 0, etime := 0, wtimeTotal := 0 }
    born := Function.update s.born np s.clock }

def exit (s : State) (p : Nat) : State :=
  { s with
    times := Function.update s.times p { s.times p with etime := s.ticks }
    died := Function.update s.died p s.clock }

/-- `*rtime = np->rtime_total; *wtime = np->etime - np->rtime_total - np->ctime` -/
def waitx (s : State) (np : Nat) : State :=
  let v := s.times np
  { s with reports :=
    { child := np, rtime := v.rtimeTotal, wtime := usub (usub v.etime v.rtimeTotal) v.ctime
      ctime := v.ctime, etime := v.etime, born := s.born np, died := s.died np } :: s.reports }

/-- What a section of process `p` does to the tick counters. -/
def account (s : State) (p : Nat) (ok : Bool) : State :=
  match s.sys.pc p with
  | .allocproc i => if i < NPROC ∧ (s.sys.proc i).state = .unused then allocproc s i else s
  | .exitZombie _ => exit s p
  | .waitScan r i _ =>
    if i < NPROC ∧ (s.sys.proc i).parent = some p ∧ (s.sys.proc i).state = .zombie ∧ r.waitx = true ∧
        (r.addr = true → ok = true) then
      waitx s i
    else s
  | _ => s

/-- A step of the processes, or a tick of the clock. -/
inductive Act
  | sys (a : Wait.Act)
  | clockintr
  deriving DecidableEq, Repr

def act (s : State) : Act → Option State
  | .sys (.step p ok) => (Wait.act s.sys (.step p ok)).map fun u => { account s p ok with sys := u }
  | .sys a => (Wait.act s.sys a).map fun u => { s with sys := u }
  | .clockintr => some (clockintr s)

def userinit : State where
  sys := Wait.userinit
  ticks := 0
  times := fun _ => {}
  clock := 0
  seen := fun _ _ => .unused
  born := fun _ => 0
  died := fun _ => 0
  reports := []

def machine : Machine State Act where
  init s := s = userinit
  step := act

end TweakedXv6.Time
