import TweakedXv6.Machine
import TweakedXv6.RedoLog

namespace TweakedXv6.Log

def MAXOPBLOCKS : Nat := 10

def LOGSIZE : Nat := MAXOPBLOCKS * 3

abbrev Block := Nat → Nat

/-- The header block is part of the log. -/
structure Super where
  logstart : Nat
  nlog : Nat
  nlog_pos : 0 < nlog

/-- As mkfs writes it: the log follows the boot block and the superblock. -/
def mkfsSuper : Super := ⟨2, LOGSIZE, by decide⟩

def Super.Home (sb : Super) (b : Nat) : Prop := b < sb.logstart ∨ sb.logstart + sb.nlog ≤ b

instance (sb : Super) (b : Nat) : Decidable (sb.Home b) := inferInstanceAs (Decidable (_ ∨ _))

def Super.layout (sb : Super) : RedoLog.Layout Nat where
  slot i := sb.logstart + i + 1
  cap := sb.nlog - 1
  home := sb.Home
  slot_not_home i hi := by
    unfold Super.Home
    omega

/-- A log_write: the operation that made it, the block and its new contents. -/
structure Update where
  op : Nat
  block : Nat
  data : Block

/-- Where `commit` or `recover_from_log` stands; every step makes at most one block write. -/
inductive Pc
  | idle
  | writeLog (tail : Nat)
  | writeHead
  | install (tail : Nat)
  | clear
  | finish
  | readHead
  | recoverInstall (tail : Nat)
  | recoverClear
  deriving DecidableEq, Repr

/-- `mem` is what `bread` returns. The last five fields are history; `group` are the updates of the
running transaction, `committed` those of the transactions whose header is written. -/
structure State where
  disk : Nat → Block
  mem : Nat → Block
  lh : List Nat
  outstanding : Nat
  committing : Bool
  pc : Pc
  active : List Nat
  nextOp : Nat
  group : List Update
  committed : List (List Update)
  history : List Update

def State.bwrite (s : State) (b : Nat) (data : Block) : State :=
  { s with disk := Function.update s.disk b data, mem := Function.update s.mem b data }

def headerBlocks (h : Block) : List Nat := (List.range (h 0)).map fun i => h (i + 1)

/-- The header after `write_head`: words past the end of the list stay. -/
def headerWith (h : Block) (lh : List Nat) : Block := fun w =>
  if w = 0 then lh.length else if w ≤ lh.length then lh.getD (w - 1) 0 else h w

def writeHead (sb : Super) (s : State) : State :=
  s.bwrite sb.logstart (headerWith (s.mem sb.logstart) s.lh)

def beginOp (s : State) : Option State :=
  if s.committing then none
  else if s.lh.length + (s.outstanding + 1) * MAXOPBLOCKS > LOGSIZE then none
  else some { s with
    outstanding := s.outstanding + 1, active := s.nextOp :: s.active, nextOp := s.nextOp + 1 }

def TooBig (sb : Super) (s : State) : Prop := LOGSIZE ≤ s.lh.length ∨ sb.nlog - 1 ≤ s.lh.length

instance (sb : Super) (s : State) : Decidable (TooBig sb s) := inferInstanceAs (Decidable (_ ∨ _))

/-- A change of a cached block and `log_write`, which panics when the transaction is too big or nothing
is outstanding. -/
def logWrite (sb : Super) (s : State) (u : Update) : Option State :=
  if TooBig sb s then none
  else if s.outstanding < 1 then none
  else some { s with
    mem := Function.update s.mem u.block u.data
    lh := if u.block ∈ s.lh then s.lh else s.lh ++ [u.block]
    group := s.group ++ [u]
    history := s.history ++ [u] }

/-- Up to the call of `commit`, which does nothing when the log is empty. -/
def endOp (s : State) (op : Nat) : Option State :=
  let s := { s with outstanding := s.outstanding - 1, active := s.active.erase op }
  if s.committing then none
  else if s.outstanding = 0 then
    some { s with committing := true, pc := if s.lh.length > 0 then .writeLog 0 else .finish }
  else some s

def installStep (sb : Super) (s : State) (tail : Nat) (again : Pc) (done : Pc) : State :=
  match s.lh[tail]? with
  | some b => { s.bwrite b (s.mem (sb.logstart + tail + 1)) with pc := again }
  | none => { s with lh := [], pc := done }

/-- The next step of `commit` or `recover_from_log`. -/
def advance (sb : Super) (s : State) : Option State :=
  match s.pc with
  | .idle => none
  | .writeLog tail =>
    match s.lh[tail]? with
    | some b => some { s.bwrite (sb.logstart + tail + 1) (s.mem b) with pc := .writeLog (tail + 1) }
    | none => some { s with pc := .writeHead }
  | .writeHead =>
    some { writeHead sb s with
      pc := .install 0, committed := s.committed ++ [s.group], group := [] }
  | .install tail => some (installStep sb s tail (.install (tail + 1)) .clear)
  | .clear => some { writeHead sb s with pc := .finish }
  | .finish => some { s with committing := false, pc := .idle }
  | .readHead => some { s with lh := headerBlocks (s.mem sb.logstart), pc := .recoverInstall 0 }
  | .recoverInstall tail => some (installStep sb s tail (.recoverInstall (tail + 1)) .recoverClear)
  | .recoverClear => some { writeHead sb s with pc := .idle }

/-- Memory is lost, and `initlog` starts recovery. -/
def crash (s : State) : State :=
  { s with
    mem := s.disk, lh := [], outstanding := 0, committing := false, pc := .readHead
    active := [], group := [] }

inductive Act
  | beginOp
  | logWrite (u : Update)
  | endOp (op : Nat)
  | advance
  | crash

def Pc.recovering : Pc → Bool
  | .readHead | .recoverInstall _ | .recoverClear => true
  | _ => false

/-- Operations start after `initlog` and write blocks outside the log only. -/
def act (sb : Super) (s : State) : Act → Option State
  | .beginOp => if s.pc.recovering then none else beginOp s
  | .logWrite u => if u.op ∈ s.active ∧ sb.Home u.block then logWrite sb s u else none
  | .endOp op => if op ∈ s.active then endOp s op else none
  | .advance => advance sb s
  | .crash => some (crash s)

def boot (disk : Nat → Block) : State where
  disk
  mem := disk
  lh := []
  outstanding := 0
  committing := false
  pc := .readHead
  active := []
  nextOp := 0
  group := []
  committed := []
  history := []

/-- On a disk whose header is empty, as mkfs leaves it. -/
def machine (sb : Super) (disk : Nat → Block) : Machine State Act where
  init s := disk sb.logstart 0 = 0 ∧ s = boot disk
  step := act sb

def recoverFromLog (sb : Super) (disk : Nat → Block) : Nat → Block :=
  let installed := RedoLog.install sb.layout (headerBlocks (disk sb.logstart)) disk
  Function.update installed sb.logstart (headerWith (installed sb.logstart) [])

end TweakedXv6.Log
