import TweakedXv6.Machine
import TweakedXv6.MlfqQueue

namespace TweakedXv6.Mlfq

/-- The fields of `struct proc` that the MLFQ scheduler and the calls around it use. -/
structure Proc where
  state : ProcState := .unused
  chan : Option Chan := none
  killed : Bool := false
  xstate : Int := 0
  pid : Int := 0
  parent : Option Nat := none
  cqueue : UInt32 := 0
  cqueueTime : UInt32 := 0
  cqueueEnterTime : UInt32 := 0
  changeQueueFlag : UInt32 := 0
  ticksInQueues : Vector UInt32 5 := .replicate 5 0
  mlfqWtime : UInt32 := 0

/-- `current` is the process the CPU runs, `none` when the scheduler is at the head of its loop. -/
structure State where
  proc : Nat → Proc
  queues : Queues
  ticks : UInt32
  nextpid : Int
  initproc : Nat
  current : Option Nat

def State.setProc (s : State) (p : Nat) (v : Proc) : State :=
  { s with proc := Function.update s.proc p v }

def State.pids (s : State) (p : Nat) : Int := (s.proc p).pid

/-- `push_to_queue` as the kernel calls it: the value returned is ignored. -/
def State.push (s : State) (p : Nat) (queueNumber : Int) : Option State :=
  (pushToQueue s.queues s.pids p queueNumber).map fun r => { s with queues := r.1 }

def State.remove (s : State) (p q : Nat) : Option State :=
  (removeFromQueue s.queues s.pids p q).map fun r => { s with queues := r.1 }

def freeproc (s : State) (p : Nat) : State :=
  s.setProc p { s.proc p with
    pid := 0, parent := none, chan := none, killed := false, xstate := 0, state := .unused }

/-- The slot that `allocproc` takes, with the fields it resets. -/
def allocprocFound (s : State) (p : Nat) : State :=
  { s.setProc p { s.proc p with
      pid := s.nextpid, state := .used, mlfqWtime := 0, cqueue := -1, cqueueTime := 0,
      cqueueEnterTime := -1, changeQueueFlag := 0, ticksInQueues := .replicate 5 0 } with
    nextpid := Int.bmod (s.nextpid + 1) 4294967296 }

/-- `mem` says whether every page it asks for is there. -/
def fork (s : State) (p : Nat) (mem : Bool) : Option State :=
  match (List.range NPROC).find? fun i => (s.proc i).state = .unused with
  | none => some s
  | some np =>
    let s := allocprocFound s np
    if mem then
      (s.setProc np { s.proc np with
        parent := some p, state := .runnable, cqueueEnterTime := s.ticks, cqueue := 0 }).push np 0
    else some (freeproc s np)

def wake (s : State) (p : Nat) : Option State :=
  (s.setProc p { s.proc p with
    state := .runnable, cqueueEnterTime := s.ticks, cqueueTime := 0, changeQueueFlag := 0,
    cqueue := 0, mlfqWtime := 0 }).push p 0

def wakeupProc (chan : Option Chan) (s : State) (p : Nat) : Option State :=
  if s.current ≠ some p ∧ (s.proc p).state = .sleeping ∧ (s.proc p).chan = chan then wake s p
  else some s

def wakeup (s : State) (chan : Option Chan) : Option State :=
  (List.range NPROC).foldlM (wakeupProc chan) s

def kill (s : State) (pid : Int) : Option State :=
  match (List.range NPROC).find? fun i => (s.proc i).pid = pid with
  | none => some s
  | some i =>
    let s := s.setProc i { s.proc i with killed := true }
    if (s.proc i).state = .sleeping then wake s i else some s

/-- The second half of a scheduler iteration, after `p` has switched back to it. -/
def requeue (s : State) (p : Nat) : Option State :=
  let s := { s with current := none }
  if (s.proc p).state = .runnable ∧ (s.proc p).cqueue = -1 then
    let queueNum := (s.proc p).cqueue.toInt32.toInt
    let queueNum :=
      if (s.proc p).changeQueueFlag = 1 then if queueNum ≤ 3 then queueNum + 1 else queueNum
      else queueNum
    (s.setProc p { s.proc p with
      cqueueEnterTime := s.ticks, cqueueTime := 0, changeQueueFlag := 0,
      cqueue := .ofInt queueNum, mlfqWtime := 0 }).push p queueNum
  else some s

def yield (s : State) (p : Nat) : Option State :=
  requeue (s.setProc p { s.proc p with state := .runnable }) p

def sleep (s : State) (p : Nat) (chan : Chan) : Option State :=
  requeue (s.setProc p { s.proc p with chan := some chan, state := .sleeping }) p

def reparentSlot (p : Nat) (s : State) (pp : Nat) : Option State :=
  if (s.proc pp).parent = some p then
    wakeup (s.setProc pp { s.proc pp with parent := some s.initproc }) (some (.proc s.initproc))
  else some s

def reparent (s : State) (p : Nat) : Option State :=
  (List.range NPROC).foldlM (reparentSlot p) s

def exit (s : State) (p : Nat) (status : Int) : Option State := do
  if p = s.initproc then none
  let s ← reparent s p
  let s ← wakeup s ((s.proc p).parent.map .proc)
  requeue (s.setProc p { s.proc p with xstate := status, state := .zombie }) p

/-- One pass; `copied` says whether the status address can be written. -/
def wait (s : State) (p : Nat) (copied : Bool) : Option State :=
  match (List.range NPROC).find? fun i => (s.proc i).parent = some p ∧ (s.proc i).state = .zombie with
  | some i => if copied then some (freeproc s i) else some s
  | none =>
    if (∀ i < NPROC, (s.proc i).parent ≠ some p) ∨ (s.proc p).killed then some s
    else sleep s p (.proc p)

/-- `change_queue_flag = 1`, which both trap handlers store before they yield. -/
def setChangeQueueFlag (s : State) (p : Nat) : State :=
  s.setProc p { s.proc p with changeQueueFlag := 1 }

/-- The part of `update_time` that goes through the queues. -/
def waitTick (q : Nat) (s : State) (i : Nat) : Option State :=
  match s.queues.at q i with
  | none => none
  | some p =>
    if (s.proc p).state = .runnable then
      some (s.setProc p { s.proc p with mlfqWtime := (s.proc p).mlfqWtime + 1 })
    else some s

def updateTime (s : State) : Option State :=
  (List.range 5).foldlM (fun s q => (List.range (s.queues.size q)).foldlM (waitTick q) s) s

/-- The counter is chosen by `myproc()->cqueue`; a null `myproc()` or an index past the five counters
faults. -/
def runTick (s : State) (p : Nat) : Option State :=
  if (s.proc p).state = .running then
    let s := s.setProc p { s.proc p with cqueueTime := (s.proc p).cqueueTime + 1 }
    match s.current with
    | none => none
    | some m =>
      let q := (s.proc m).cqueue.toNat
      if h : q < 5 then
        let v := (s.proc m).ticksInQueues
        some (s.setProc m { s.proc m with ticksInQueues := v.set q (v[q] + 1) h })
      else none
  else some s

def updatetime (s : State) : Option State :=
  (List.range NPROC).foldlM runTick s

def clockintr (s : State) (ticksChan : Nat) : Option State := do
  let s := { s with ticks := s.ticks + 1 }
  let s ← updateTime s
  let s ← updatetime s
  wakeup s (some (.addr ticksChan))

/-- The first sweep: sleeping and exited processes leave the queues. The index moves on also after a
removal. -/
def purgeSlot (q : Nat) (s : State) (j : Nat) : Option State :=
  if j < s.queues.size q then
    match s.queues.at q j with
    | none => none
    | some p =>
      if (s.proc p).state = .zombie ∨ (s.proc p).state = .sleeping then
        (s.setProc p { s.proc p with cqueue := -1 }).remove p q
      else some s
  else some s

def purge (s : State) : Option State :=
  (List.range 5).foldlM (fun s q => (List.range (s.queues.size q)).foldlM (purgeSlot q) s) s

/-- The second sweep: a process that has waited for more than 20 ticks moves up one queue. -/
def ageSlot (q : Nat) (s : State) (j : Nat) : Option State :=
  if j < s.queues.size q then
    match s.queues.at q j with
    | none => none
    | some p =>
      if s.ticks - (s.proc p).cqueueEnterTime > 20 then do
        let s ← (s.setProc p { s.proc p with cqueue := -1 }).remove p q
        (s.setProc p { s.proc p with
          cqueueEnterTime := s.ticks, cqueueTime := 0, cqueue := .ofNat (q - 1),
          changeQueueFlag := 0, mlfqWtime := 0 }).push p (q - 1)
      else some s
  else some s

def age (s : State) : Option State :=
  [1, 2, 3, 4].foldlM (fun s q => (List.range (s.queues.size q)).foldlM (ageSlot q) s) s

/-- The first RUNNABLE process of one queue is taken out of it. -/
def selectFrom (s : State) (q : Nat) : List Nat → Option (State × Option Nat)
  | [] => some (s, none)
  | j :: js =>
    match s.queues.at q j with
    | none => none
    | some p =>
      if (s.proc p).state = .runnable then
        ((s.setProc p { s.proc p with cqueue := -1 }).remove p q).map fun s => (s, some p)
      else selectFrom s q js

/-- The `break` leaves only the inner loop, so each queue takes out a process and the last one is
selected. -/
def select (s : State) : Option (State × Option Nat) :=
  (List.range 5).foldlM (fun r q =>
    (selectFrom r.1 q (List.range (r.1.queues.size q))).map fun r' => (r'.1, r'.2.orElse fun _ => r.2))
    (s, none)

/-- The first half of an iteration, up to the switch. A dispatched process that was in `sleep` clears its
channel. -/
def schedule (s : State) : Option State := do
  let s ← purge s
  let s ← age s
  let (s, selected) ← select s
  match selected with
  | none => some s
  | some p =>
    if (s.proc p).state ≠ .runnable then some s
    else some { s.setProc p { s.proc p with state := .running, chan := none } with current := some p }

inductive Act
  | schedule
  | fork (mem : Bool)
  | wakeup (chan : Chan)
  | kill (pid : Int)
  | sleep (chan : Chan)
  | exit (status : Int)
  | wait (copied : Bool)
  | setChangeQueueFlag
  | yield
  | clockintr (ticksChan : Nat)

/-- A fault or panic stops the kernel. Interrupt handlers may wake processes and count ticks at any time.
-/
def act (s : State) : Act → Option State
  | .schedule => if s.current = none then schedule s else none
  | .fork mem => s.current.bind fun p => fork s p mem
  | .wakeup chan => wakeup s (some chan)
  | .kill pid => s.current.bind fun _ => kill s pid
  | .sleep chan => s.current.bind fun p => sleep s p chan
  | .exit status => s.current.bind fun p => exit s p status
  | .wait copied => s.current.bind fun p => wait s p copied
  | .setChangeQueueFlag => s.current.map (setChangeQueueFlag s)
  | .yield => s.current.bind (yield s)
  | .clockintr a => clockintr s a

def boot (sizeBelow : Int) : State where
  proc := fun _ => {}
  queues := { slot := fun _ => none, size := fun _ => 0, sizeBelow }
  ticks := 0
  nextpid := 1
  initproc := 0
  current := none

def userinit (s : State) : Option State :=
  let s := allocprocFound s 0
  (s.setProc 0 { s.proc 0 with state := .runnable, cqueueEnterTime := s.ticks, cqueue := 0 }).push 0 0

def machine : Machine State Act where
  init s := ∃ sizeBelow, userinit (boot sizeBelow) = some s
  step := act

end TweakedXv6.Mlfq
