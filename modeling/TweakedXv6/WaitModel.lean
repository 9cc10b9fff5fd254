import TweakedXv6.Basic
import TweakedXv6.Machine

namespace TweakedXv6.Wait

/-- The fields of `struct proc` that these calls read and write; a null pointer is `none`. -/
structure Proc where
  state : ProcState := .unused
  chan : Option Chan := none
  killed : Bool := false
  xstate : Int := 0
  pid : Int := 0
  parent : Option Nat := none
  deriving DecidableEq, Repr

/-- Which of the two reaping calls runs, and whether the caller passed a status address. -/
structure Reaper where
  waitx : Bool
  addr : Bool
  deriving DecidableEq, Repr

/-- Where a process stands between two critical sections; a slot that runs no call is at `user`. -/
inductive Pc
  | user
  | allocproc (i : Nat)
  | forkParent (np : Nat)
  | forkRunnable (np : Nat)
  | exitLock (status : Int)
  | reparent (status : Int) (i : Nat)
  | reparentWakeup (status : Int) (i j : Nat)
  | exitWakeup (status : Int) (j : Nat)
  | exitZombie (status : Int)
  | waitLock (r : Reaper)
  | waitScan (r : Reaper) (i : Nat) (havekids : Bool)
  | waitSleep (r : Reaper)
  | killScan (pid : Int) (i : Nat)
  | wakeupScan (a j : Nat)
  | sleepOn
  deriving DecidableEq, Repr

def Pc.holdsWaitLock : Pc → Bool
  | .reparent .. | .reparentWakeup .. | .exitWakeup .. | .exitZombie .. | .waitScan .. => true
  | _ => false

/-- What a run leaves in the history, newest first. `gen` numbers the uses of a table slot, and `parent`
is the child's parent pointer when it was reaped. -/
inductive Event
  | exited (child gen : Nat) (pid status : Int)
  | reaped (waiter : Nat) (parent : Option Nat) (child gen : Nat) (pid status : Int)
  deriving DecidableEq, Repr

structure State where
  proc : Nat → Proc
  pc : Nat → Pc
  waitLock : Option Nat
  nextpid : Int
  initproc : Nat
  gen : Nat → Nat
  events : List Event

def State.setProc (s : State) (p : Nat) (v : Proc) : State :=
  { s with proc := Function.update s.proc p v }

def State.setPc (s : State) (p : Nat) (c : Pc) : State :=
  { s with pc := Function.update s.pc p c }

def State.setState (s : State) (p : Nat) (st : ProcState) : State :=
  s.setProc p { s.proc p with state := st }

def State.setParent (s : State) (p : Nat) (q : Option Nat) : State :=
  s.setProc p { s.proc p with parent := q }

/-- Move `p` to `c` and set who holds `wait_lock`. -/
def State.move (s : State) (p : Nat) (c : Pc) (lock : Option Nat) : State :=
  { s.setPc p c with waitLock := lock }

def freeproc (s : State) (p : Nat) : State :=
  s.setProc p { s.proc p with
    pid := 0, parent := none, chan := none, killed := false, xstate := 0, state := .unused }

/-- A pid from `allocpid`, whose counter is a 32-bit int, and state USED. -/
def allocprocFound (s : State) (np : Nat) : State :=
  { s.setProc np { s.proc np with pid := s.nextpid, state := .used } with
    nextpid := Int.bmod (s.nextpid + 1) (4294967296), gen := Function.update s.gen np (s.gen np + 1) }

/-- One turn of `allocproc`'s scan for `fork`, which keeps the lock of the slot until the parent is
copied; `mem` says whether the allocations in between succeed, and if not `freeproc` gives the slot back.
-/
def allocprocSlot (s : State) (p i : Nat) (mem : Bool) : State :=
  if i < NPROC then
    if (s.proc i).state = .unused then
      if mem then (allocprocFound s i).setPc p (.forkParent i)
      else (freeproc (allocprocFound s i) i).setPc p .user
    else s.setPc p (.allocproc (i + 1))
  else s.setPc p .user

def forkParent (s : State) (p np : Nat) : Option State :=
  if s.waitLock = none then some ((s.setParent np (some p)).setPc p (.forkRunnable np)) else none

def forkRunnable (s : State) (p np : Nat) : State :=
  (s.setState np .runnable).setPc p .user

def wakeupSlot (s : State) (p : Nat) (chan : Option Chan) (j : Nat) : State :=
  if j ≠ p ∧ (s.proc j).state = .sleeping ∧ (s.proc j).chan = chan then s.setState j .runnable
  else s

def exitLock (s : State) (p : Nat) (status : Int) : Option State :=
  if s.waitLock = none then some (s.move p (.reparent status 0) (some p))
  else none

def reparentSlot (s : State) (p : Nat) (status : Int) (i : Nat) : State :=
  if i < NPROC then
    if (s.proc i).parent = some p then
      (s.setParent i (some s.initproc)).setPc p (.reparentWakeup status i 0)
    else s.setPc p (.reparent status (i + 1))
  else s.setPc p (.exitWakeup status 0)

/-- One turn of the `wakeup(initproc)` inside `reparent`. -/
def reparentWakeup (s : State) (p : Nat) (status : Int) (i j : Nat) : State :=
  if j < NPROC then
    (wakeupSlot s p (some (.proc s.initproc)) j).setPc p (.reparentWakeup status i (j + 1))
  else s.setPc p (.reparent status (i + 1))

def exitWakeup (s : State) (p : Nat) (status : Int) (j : Nat) : State :=
  if j < NPROC then
    (wakeupSlot s p ((s.proc p).parent.map .proc) j).setPc p (.exitWakeup status (j + 1))
  else s.setPc p (.exitZombie status)

/-- `exit`'s last section: under `p->lock` become a ZOMBIE, release `wait_lock`, and leave through
`sched`, never to return. -/
def exitZombie (s : State) (p : Nat) (status : Int) : State :=
  { (s.setProc p { s.proc p with xstate := status, state := .zombie }).move p .user none with
    events := .exited p (s.gen p) (s.proc p).pid status :: s.events }

/-- `wait` and `waitx` acquire `wait_lock`, on entry and when `sleep` returns. -/
def waitLock (s : State) (p : Nat) (r : Reaper) : Option State :=
  if s.waitLock = none then some (s.move p (.waitScan r 0 false) (some p))
  else none

/-- The status is copied out if the caller wants it, and the slot freed. The failing copy returns -1 and
leaves the child. -/
def reap (s : State) (p : Nat) (r : Reaper) (c : Nat) (copied : Bool) : State :=
  if r.addr ∧ ¬copied then s.move p .user none
  else
    { (freeproc s c).move p .user none with
      events :=
        .reaped p (s.proc c).parent c (s.gen c) (s.proc c).pid (s.proc c).xstate :: s.events }

/-- `sleep(p, &wait_lock)` up to the switch to the scheduler: one `p->lock` section, in which `wait_lock`
is released. -/
def waitSleep (s : State) (p : Nat) (r : Reaper) : State :=
  (s.setProc p { s.proc p with chan := some (.proc p), state := .sleeping }).move p
    (.waitSleep r) none

/-- One turn of the scan in `wait` and `waitx`; past the table, return -1 or go to sleep. -/
def waitScan (s : State) (p : Nat) (r : Reaper) (i : Nat) (havekids copied : Bool) : State :=
  if i < NPROC then
    if (s.proc i).parent = some p then
      if (s.proc i).state = .zombie then reap s p r i copied
      else s.setPc p (.waitScan r (i + 1) true)
    else s.setPc p (.waitScan r (i + 1) havekids)
  else if !havekids || (s.proc p).killed then s.move p .user none
  else waitSleep s p r

/-- `sleep` after `sched` returns: clear `chan`, then go for the lock `c` waits for. -/
def sleepReturn (s : State) (p : Nat) (c : Pc) : State :=
  (s.setProc p { s.proc p with chan := none }).setPc p c

def killSlot (s : State) (p : Nat) (pid : Int) (i : Nat) : State :=
  if i < NPROC then
    if (s.proc i).pid = pid then
      (s.setProc i { s.proc i with
        killed := true
        state := if (s.proc i).state = .sleeping then .runnable else (s.proc i).state }).setPc p .user
    else s.setPc p (.killScan pid (i + 1))
  else s.setPc p .user

/-- One turn of a `wakeup` on an address that is not a process. -/
def wakeupScan (s : State) (p a j : Nat) : State :=
  if j < NPROC then (wakeupSlot s p (some (.addr a)) j).setPc p (.wakeupScan a (j + 1))
  else s.setPc p .user

/-- `sleep` on an address that is not a process, under a lock that is not `wait_lock`. -/
def sleepOn (s : State) (p a : Nat) : State :=
  (s.setProc p { s.proc p with chan := some (.addr a), state := .sleeping }).setPc p .sleepOn

inductive Call
  | fork
  | exit (status : Int)
  | wait (r : Reaper)
  | kill (pid : Int)
  | wakeup (a : Nat)
  | sleep (a : Nat)
  deriving DecidableEq, Repr

def enter (s : State) (p : Nat) : Call → Option State
  | .fork => some (s.setPc p (.allocproc 0))
  | .exit status => if p = s.initproc then none else some (s.setPc p (.exitLock status))
  | .wait r => some (s.setPc p (.waitLock r))
  | .kill pid => some (s.setPc p (.killScan pid 0))
  | .wakeup a => some (s.setPc p (.wakeupScan a 0))
  | .sleep a => some (sleepOn s p a)

/-- The next critical section of process `p`; `ok` is the outcome of its allocations or of its copy to
user memory. -/
def nextSection (s : State) (p : Nat) (ok : Bool) : Option State :=
  match s.pc p with
  | .user => none
  | .allocproc i => some (allocprocSlot s p i ok)
  | .forkParent np => forkParent s p np
  | .forkRunnable np => some (forkRunnable s p np)
  | .exitLock status => exitLock s p status
  | .reparent status i => some (reparentSlot s p status i)
  | .reparentWakeup status i j => some (reparentWakeup s p status i j)
  | .exitWakeup status j => some (exitWakeup s p status j)
  | .exitZombie status => some (exitZombie s p status)
  | .waitLock r => waitLock s p r
  | .waitScan r i havekids => some (waitScan s p r i havekids ok)
  | .waitSleep r => some (sleepReturn s p (.waitLock r))
  | .killScan pid i => some (killSlot s p pid i)
  | .wakeupScan a j => some (wakeupScan s p a j)
  | .sleepOn => some (sleepReturn s p .user)

/-- A RUNNING process enters a call or runs its next section, the scheduler picks a RUNNABLE process, or
a process that holds no spinlock is preempted by `yield`. -/
inductive Act
  | call (p : Nat) (c : Call)
  | step (p : Nat) (ok : Bool)
  | dispatch (p : Nat)
  | yield (p : Nat)
  deriving DecidableEq, Repr

def act (s : State) : Act → Option State
  | .call p c => if (s.proc p).state = .running ∧ s.pc p = .user then enter s p c else none
  | .step p ok => if (s.proc p).state = .running then nextSection s p ok else none
  | .dispatch p => if (s.proc p).state = .runnable then some (s.setState p .running) else none
  | .yield p =>
    if (s.proc p).state = .running ∧ (s.pc p).holdsWaitLock = false then
      some (s.setState p .runnable)
    else none

/-- Slot 0 holds `initproc`, RUNNABLE with pid 1 and no parent. -/
def userinit : State where
  proc := Function.update (fun _ => {}) 0 { state := .runnable, pid := 1 }
  pc := fun _ => .user
  waitLock := none
  nextpid := 2
  initproc := 0
  gen := fun _ => 0
  events := []

def machine : Machine State Act where
  init s := s = userinit
  step := act

end TweakedXv6.Wait
