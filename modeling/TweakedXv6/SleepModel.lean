import TweakedXv6.Basic
import TweakedXv6.Machine

namespace TweakedXv6.Sleep

def PIPESIZE : Nat := 512

def INPUT_BUF : Nat := 128

/-- `p` in `wait`, `&ticks`, `&cons.r`, and `&pi->nread` and `&pi->nwrite` of a pipe. -/
inductive Chan
  | proc (p : Fin NPROC)
  | ticks
  | cons
  | nread (pi : Nat)
  | nwrite (pi : Nat)
  deriving DecidableEq, Repr

/-- The spinlocks that are held while a condition is tested. -/
inductive Lock
  | wait
  | ticks
  | cons
  | pipe (pi : Nat)
  deriving DecidableEq, Repr

/-- With the history of the bytes that were stored in it and of those that were copied out to a reader.
-/
structure Pipe where
  data : Nat → UInt8 := fun _ => 0
  nread : Nat := 0
  nwrite : Nat := 0
  readopen : Bool := true
  writeopen : Bool := true
  stored : List UInt8 := []
  returned : List UInt8 := []

structure Console where
  buf : Nat → UInt8 := fun _ => 0
  r : Nat := 0
  w : Nat := 0
  e : Nat := 0

/-- `src` are the bytes that can be read at the user's address, and `room` is the number of bytes that
can be written there. -/
inductive Loop
  | wait (copied : Bool)
  | sysSleep (n : Nat) (ticks0 : Option Nat)
  | piperead (pi : Nat) (n : Int) (room : Nat)
  | pipereadCopy (pi : Nat) (n : Int) (room i : Nat)
  | pipewrite (pi : Nat) (src : List UInt8) (n : Int) (i : Nat)
  | consoleread (target n room : Nat)
  deriving DecidableEq, Repr

def Loop.lock : Loop → Lock
  | .wait _ => .wait
  | .sysSleep .. => .ticks
  | .piperead pi .. | .pipereadCopy pi .. | .pipewrite pi .. => .pipe pi
  | .consoleread .. => .cons

def Loop.chan (p : Fin NPROC) : Loop → Chan
  | .wait _ => .proc p
  | .sysSleep .. => .ticks
  | .piperead pi .. | .pipereadCopy pi .. => .nread pi
  | .pipewrite pi .. => .nwrite pi
  | .consoleread .. => .cons

/-- Outside these calls; about to acquire the lock; in the loop with the lock held; in `sleep`, before it
acquires `p->lock`; in `sleep`, after it has given up the CPU; in the loop of `kill`. -/
inductive Pc
  | user
  | enter (c : Loop)
  | loop (c : Loop)
  | sleepy (c : Loop)
  | asleep (c : Loop)
  | kill (pid : Int) (rest : List (Fin NPROC))
  deriving DecidableEq, Repr

def Pc.holds : Pc → Option Lock
  | .loop c | .sleepy c => some c.lock
  | _ => none

/-- `a0` is the value that the last call returned. -/
structure Proc where
  state : ProcState := .unused
  pid : Int := 0
  killed : Bool := false
  chan : Option Chan := none
  parent : Option (Fin NPROC) := none
  a0 : Int := 0
  deriving DecidableEq, Repr

structure State where
  proc : Fin NPROC → Proc
  pc : Fin NPROC → Pc
  lock : Lock → Option (Fin NPROC)
  pipe : Nat → Pipe
  cons : Console
  ticks : Nat
  nextpid : Int
  initproc : Fin NPROC

def State.setProc (s : State) (p : Fin NPROC) (v : Proc) : State :=
  { s with proc := Function.update s.proc p v }

def State.setPc (s : State) (p : Fin NPROC) (c : Pc) : State :=
  { s with pc := Function.update s.pc p c }

def State.setPipe (s : State) (pi : Nat) (v : Pipe) : State :=
  { s with pipe := Function.update s.pipe pi v }

def State.setLock (s : State) (l : Lock) (o : Option (Fin NPROC)) : State :=
  { s with lock := Function.update s.lock l o }

/-- The caller is RUNNING, so that leaving it out makes no difference. -/
def State.wakeup (s : State) (chan : Chan) : State :=
  { s with proc := fun q =>
      if (s.proc q).state = .sleeping ∧ (s.proc q).chan = some chan then
        { s.proc q with state := .runnable }
      else s.proc q }

def State.finish (s : State) (p : Fin NPROC) (c : Loop) (r : Int) : State :=
  ((s.setProc p { s.proc p with a0 := r }).setPc p .user).setLock c.lock none

def State.again (s : State) (p : Fin NPROC) (c : Loop) : State := s.setPc p (.loop c)

def State.block (s : State) (p : Fin NPROC) (c : Loop) : State :=
  if (s.proc p).killed then s.finish p c (-1) else s.setPc p (.sleepy c)

def State.freeproc (s : State) (p : Fin NPROC) : State :=
  s.setProc p { s.proc p with
    state := .unused, pid := 0, killed := false, chan := none, parent := none }

/-- The first ZOMBIE child is freed, unless its status cannot be copied out. -/
def wait (s : State) (p : Fin NPROC) (copied : Bool) : State :=
  match (List.finRange NPROC).find? fun np => (s.proc np).parent = some p ∧ (s.proc np).state = .zombie with
  | some np =>
    if copied then (s.freeproc np).finish p (.wait copied) (s.proc np).pid
    else s.finish p (.wait copied) (-1)
  | none =>
    if (List.finRange NPROC).any fun np => (s.proc np).parent = some p then s.block p (.wait copied)
    else s.finish p (.wait copied) (-1)

/-- One turn of the loop; `ticks0` is set when the lock is first held. -/
def sysSleep (s : State) (p : Fin NPROC) (n : Nat) (ticks0 : Option Nat) : State :=
  let t := ticks0.getD s.ticks
  if uint (s.ticks + 4294967296 - t) < n then s.block p (.sysSleep n (some t))
  else s.finish p (.sysSleep n (some t)) 0

def piperead (s : State) (p : Fin NPROC) (pi : Nat) (n : Int) (room : Nat) : State :=
  if (s.pipe pi).nread = (s.pipe pi).nwrite ∧ (s.pipe pi).writeopen = true then
    s.block p (.piperead pi n room)
  else s.again p (.pipereadCopy pi n room 0)

/-- `ch = pi->data[pi->nread++ % PIPESIZE]`, and whether it is copied out. -/
def Pipe.take (v : Pipe) (copied : Bool) : Pipe :=
  { v with
    nread := uint (v.nread + 1)
    returned := if copied then v.returned ++ [v.data (v.nread % PIPESIZE)] else v.returned }

def pipereadCopy (s : State) (p : Fin NPROC) (pi : Nat) (n : Int) (room i : Nat) : State :=
  let done := fun t : State => (t.wakeup (.nwrite pi)).finish p (.pipereadCopy pi n room i) i
  if i < n ∧ (s.pipe pi).nread ≠ (s.pipe pi).nwrite then
    if i < room then (s.setPipe pi ((s.pipe pi).take true)).again p (.pipereadCopy pi n room (i + 1))
    else done (s.setPipe pi ((s.pipe pi).take false))
  else done s

def Pipe.store (v : Pipe) (ch : UInt8) : Pipe :=
  { v with
    data := Function.update v.data (v.nwrite % PIPESIZE) ch
    nwrite := uint (v.nwrite + 1)
    stored := v.stored ++ [ch] }

def pipewrite (s : State) (p : Fin NPROC) (pi : Nat) (src : List UInt8) (n : Int) (i : Nat) : State :=
  let c := Loop.pipewrite pi src n i
  if i < n then
    if (s.pipe pi).readopen = false ∨ (s.proc p).killed = true then s.finish p c (-1)
    else if (s.pipe pi).nwrite = uint ((s.pipe pi).nread + PIPESIZE) then
      (s.wakeup (.nread pi)).setPc p (.sleepy c)
    else
      match src[i]? with
      | some ch => (s.setPipe pi ((s.pipe pi).store ch)).again p (.pipewrite pi src n (i + 1))
      | none => (s.wakeup (.nread pi)).finish p c i
  else (s.wakeup (.nread pi)).finish p c i

/-- One turn of the outer loop, or of the inner one if there is no input. -/
def consoleread (s : State) (p : Fin NPROC) (target n room : Nat) : State :=
  let c := Loop.consoleread target n room
  if 0 < n then
    if s.cons.r = s.cons.w then s.block p c
    else
      let ch := s.cons.buf (s.cons.r % INPUT_BUF)
      let t := { s with cons := { s.cons with r := uint (s.cons.r + 1) } }
      if ch = 4 then (if n < target then s else t).finish p c (target - n)
      else if room ≤ target - n then t.finish p c (target - n)
      else if ch = 10 then t.finish p c (target - (n - 1 : Nat))
      else t.again p (.consoleread target (n - 1) room)
  else s.finish p c (target - n)

/-- What a call does with its lock held, up to its next test. -/
def body (s : State) (p : Fin NPROC) : Loop → State
  | .wait copied => wait s p copied
  | .sysSleep n ticks0 => sysSleep s p n ticks0
  | .piperead pi n room => piperead s p pi n room
  | .pipereadCopy pi n room i => pipereadCopy s p pi n room i
  | .pipewrite pi src n i => pipewrite s p pi src n i
  | .consoleread target n room => consoleread s p target n room

/-- From its `acquire(&p->lock)` to the switch to the scheduler. -/
def sleep (s : State) (p : Fin NPROC) (c : Loop) : State :=
  ((s.setProc p { s.proc p with chan := some (c.chan p), state := .sleeping }).setPc p (.asleep c)).setLock
    c.lock none

def killSlot (s : State) (p : Fin NPROC) (pid : Int) : List (Fin NPROC) → State
  | [] => (s.setProc p { s.proc p with a0 := -1 }).setPc p .user
  | q :: rest =>
    if (s.proc q).pid = pid then
      let t := s.setProc q { s.proc q with
        killed := true
        state := if (s.proc q).state = .sleeping then .runnable else (s.proc q).state }
      (t.setProc p { t.proc p with a0 := 0 }).setPc p .user
    else s.setPc p (.kill pid rest)

def next (s : State) (p : Fin NPROC) : Option State :=
  match s.pc p with
  | .user => none
  | .enter c => if s.lock c.lock = none then some ((s.setPc p (.loop c)).setLock c.lock (some p)) else none
  | .loop c => some (body s p c)
  | .sleepy c => some (sleep s p c)
  | .asleep c => some ((s.setProc p { s.proc p with chan := none }).setPc p (.enter c))
  | .kill pid rest => some (killSlot s p pid rest)

def pipeclose (s : State) (pi : Nat) (writable : Bool) : State :=
  if writable then (s.setPipe pi { s.pipe pi with writeopen := false }).wakeup (.nread pi)
  else (s.setPipe pi { s.pipe pi with readopen := false }).wakeup (.nwrite pi)

def Console.killLine (c : Console) : Nat → Console
  | 0 => c
  | fuel + 1 =>
    if c.e ≠ c.w ∧ c.buf (uint (c.e + 4294967295) % INPUT_BUF) ≠ 10 then
      Console.killLine { c with e := uint (c.e + 4294967295) } fuel
    else c

def consoleintr (s : State) (ch : UInt8) : State :=
  let c := s.cons
  if ch = 16 then s
  else if ch = 21 then { s with cons := c.killLine (uint (c.e + 4294967296 - c.w)) }
  else if ch = 8 ∨ ch = 127 then
    if c.e ≠ c.w then { s with cons := { c with e := uint (c.e + 4294967295) } } else s
  else if ch ≠ 0 ∧ uint (c.e + 4294967296 - c.r) < INPUT_BUF then
    let ch := if ch = 13 then 10 else ch
    let c := { c with buf := Function.update c.buf (c.e % INPUT_BUF) ch, e := uint (c.e + 1) }
    if ch = 10 ∨ ch = 4 ∨ c.e = uint (c.r + INPUT_BUF) then
      { s with cons := { c with w := c.e } }.wakeup .cons
    else { s with cons := c }
  else s

def clockintr (s : State) : State := { s with ticks := uint (s.ticks + 1) }.wakeup .ticks

/-- `allocproc` leaves `killed` and `chan` as they are. -/
def fork (s : State) (p : Fin NPROC) : State :=
  match (List.finRange NPROC).find? fun np => (s.proc np).state = .unused with
  | none => s.setProc p { s.proc p with a0 := -1 }
  | some np =>
    let t := s.setProc p { s.proc p with a0 := s.nextpid }
    { (t.setProc np { t.proc np with state := .runnable, pid := s.nextpid, parent := some p }).setPc np .user with
      nextpid := Int.bmod (s.nextpid + 1) 4294967296 }

/-- From where it holds `wait_lock`. -/
def exit (s : State) (p : Fin NPROC) : State :=
  let t := { s with proc := fun q =>
    if (s.proc q).parent = some p then { s.proc q with parent := some s.initproc } else s.proc q }
  let t := if (List.finRange NPROC).any fun q => (s.proc q).parent = some p then t.wakeup (.proc s.initproc) else t
  let t := match (t.proc p).parent with
    | some q => t.wakeup (.proc q)
    | none => t
  t.setProc p { t.proc p with state := .zombie }

/-- A RUNNING process enters a call, runs its next section, closes an end of a pipe, forks or exits; the
scheduler picks a process, or takes the CPU from one; the clock ticks; a character comes in. -/
inductive Act
  | call (p : Fin NPROC) (c : Loop)
  | killCall (p : Fin NPROC) (pid : Int)
  | step (p : Fin NPROC)
  | pipeclose (p : Fin NPROC) (pi : Nat) (writable : Bool)
  | fork (p : Fin NPROC)
  | exit (p : Fin NPROC)
  | dispatch (p : Fin NPROC)
  | yield (p : Fin NPROC)
  | clockintr
  | consoleintr (ch : UInt8)
  deriving DecidableEq, Repr

/-- The calls as a process makes them, at their start. -/
def Loop.start : Loop → Bool
  | .wait _ | .piperead .. => true
  | .sysSleep _ ticks0 => ticks0 = none
  | .pipereadCopy .. => false
  | .pipewrite _ _ _ i => i = 0
  | .consoleread target n _ => n = target

def act (s : State) : Act → Option State
  | .call p c =>
    if (s.proc p).state = .running ∧ s.pc p = .user ∧ c.start = true then some (s.setPc p (.enter c)) else none
  | .killCall p pid =>
    if (s.proc p).state = .running ∧ s.pc p = .user then some (s.setPc p (.kill pid (List.finRange NPROC)))
    else none
  | .step p => if (s.proc p).state = .running then next s p else none
  | .pipeclose p pi writable =>
    if (s.proc p).state = .running ∧ s.pc p = .user ∧ s.lock (.pipe pi) = none then
      some (pipeclose s pi writable)
    else none
  | .fork p => if (s.proc p).state = .running ∧ s.pc p = .user then some (fork s p) else none
  | .exit p =>
    if (s.proc p).state = .running ∧ s.pc p = .user ∧ s.lock .wait = none ∧ p ≠ s.initproc then some (exit s p)
    else none
  | .dispatch p =>
    if (s.proc p).state = .runnable then some (s.setProc p { s.proc p with state := .running }) else none
  | .yield p =>
    if (s.proc p).state = .running ∧ (s.pc p).holds = none then
      some (s.setProc p { s.proc p with state := .runnable })
    else none
  | .clockintr => if s.lock .ticks = none then some (clockintr s) else none
  | .consoleintr ch => if s.lock .cons = none then some (consoleintr s ch) else none

/-- After `userinit`: one process, all pipes new and empty. -/
structure Boot (s : State) : Prop where
  proc : ∀ p, s.proc p = if p = s.initproc then { state := .runnable, pid := 1 } else {}
  pc : ∀ p, s.pc p = .user
  lock : ∀ l, s.lock l = none
  pipe : ∀ pi, (s.pipe pi).nread = 0 ∧ (s.pipe pi).nwrite = 0 ∧ (s.pipe pi).stored = [] ∧
    (s.pipe pi).returned = [] ∧ (s.pipe pi).readopen = true ∧ (s.pipe pi).writeopen = true

def machine : Machine State Act := ⟨Boot, act⟩

end TweakedXv6.Sleep
