import TweakedXv6.Basic
import TweakedXv6.Machine

namespace TweakedXv6.Virtio

open Function (update)

def NUM : Nat := 8

def BSIZE : Nat := 1024

def VRING_DESC_F_NEXT : Nat := 1

def VRING_DESC_F_WRITE : Nat := 2

/-- What a descriptor can point at: `&disk.ops[i]`, the data of a buffer, or `&disk.info[i].status`. -/
inductive Addr
  | null
  | op (i : Nat)
  | data (b : Nat)
  | status (i : Nat)
  deriving DecidableEq, Repr

structure Desc where
  addr : Addr := .null
  len : Nat := 0
  flags : Nat := 0
  next : Nat := 0
  deriving DecidableEq, Repr

structure Op where
  write : Bool := false
  reserved : Nat := 0
  sector : Nat := 0
  deriving DecidableEq, Repr

/-- `struct disk`, with the `disk` fields of the buffers. `usedIdx` is the device's `used->idx` and
`seen` the driver's `used_idx`. -/
structure Disk where
  free : Nat → Bool
  desc : Nat → Desc
  ops : Nat → Op
  infoB : Nat → Option Nat
  status : Nat → Nat
  availRing : Nat → Nat
  availIdx : Nat
  usedRing : Nat → Nat
  usedIdx : Nat
  seen : Nat
  bufDisk : Nat → Bool

def allocDesc (d : Disk) : Disk × Option Nat :=
  match (List.range NUM).find? d.free with
  | some i => ({ d with free := update d.free i false }, some i)
  | none => (d, none)

def freeDesc (d : Disk) (i : Nat) : Except String Disk :=
  if NUM ≤ i then .error "free_desc 1"
  else if d.free i then .error "free_desc 2"
  else .ok { d with desc := update d.desc i {}, free := update d.free i true }

/-- Each turn frees a descriptor or panics, so that `NUM + 1` turns are enough. -/
def freeChain : Nat → Disk → Nat → Except String Disk
  | 0, _, _ => .error "free_chain"
  | fuel + 1, d, i => do
    let flag := (d.desc i).flags
    let nxt := (d.desc i).next
    let d ← freeDesc d i
    if flag &&& VRING_DESC_F_NEXT ≠ 0 then freeChain fuel d nxt else .ok d

def alloc3Desc (d : Disk) : Except String (Disk × Option (Nat × Nat × Nat)) :=
  match allocDesc d with
  | (d, none) => .ok (d, none)
  | (d, some i0) =>
    match allocDesc d with
    | (d, none) => do
      let d ← freeDesc d i0
      .ok (d, none)
    | (d, some i1) =>
      match allocDesc d with
      | (d, none) => do
        let d ← freeDesc d i0
        let d ← freeDesc d i1
        .ok (d, none)
      | (d, some i2) => .ok (d, some (i0, i1, i2))

/-- Before the first `acquire`; at the head of the allocation loop; asleep there; with its descriptors;
before `avail->idx` goes up; at the test of `b->disk`; asleep there. -/
inductive Stage
  | enter | alloc | noDesc | format | publish | wait | asleep
  deriving DecidableEq, Repr

/-- A call of `virtio_disk_rw`, with `idx[3]`. -/
structure Call where
  stage : Stage
  b : Nat
  write : Bool
  i0 : Nat := 0
  i1 : Nat := 0
  i2 : Nat := 0
  deriving DecidableEq, Repr

/-- The request is filled in, up to the entry of the avail ring. -/
def format (d : Disk) (blockno : Nat) (c : Call) : Disk :=
  { d with
    ops := update d.ops c.i0
      { write := c.write, reserved := 0, sector := uint (blockno * (BSIZE / 512)) }
    desc := update (update (update d.desc
      c.i0 { addr := .op c.i0, len := 16, flags := VRING_DESC_F_NEXT, next := c.i1 })
      c.i1 { addr := .data c.b, len := BSIZE,
             flags := (if c.write then 0 else VRING_DESC_F_WRITE) ||| VRING_DESC_F_NEXT, next := c.i2 })
      c.i2 { addr := .status c.i0, len := 1, flags := VRING_DESC_F_WRITE, next := 0 }
    status := update d.status c.i0 255
    bufDisk := update d.bufDisk c.b true
    infoB := update d.infoB c.i0 (some c.b)
    availRing := update d.availRing (d.availIdx % NUM) c.i0 }

/-- `lock` is the holder of `vdisk_lock`, a call or the interrupt handler. `lastAvail` is how far the
device has read the avail ring, and `taken` the heads that it works on. `owner` and `done` only record.
-/
structure State where
  disk : Disk
  blockno : Nat → Nat
  lastAvail : Nat
  taken : List Nat
  call : Nat → Option Call
  lock : Option (Option Nat)
  locked : Nat → Bool
  owner : Nat → Option Nat
  done : Nat → Bool
  panic : Option String

def State.setCall (s : State) (p : Nat) (c : Option Call) : State :=
  { s with call := update s.call p c }

/-- A call takes up the lock, first or after `sleep`. -/
def acquire (s : State) (p : Nat) (c : Call) : Option State :=
  if s.lock = none then
    match c.stage with
    | .enter | .noDesc => some ({ s with lock := some (some p) }.setCall p (some { c with stage := .alloc }))
    | .asleep => some ({ s with lock := some (some p) }.setCall p (some { c with stage := .wait }))
    | _ => none
  else none

def rwStep (s : State) (p : Nat) (c : Call) : Option State :=
  if s.lock = some (some p) then
    match c.stage with
    | .alloc =>
      match alloc3Desc s.disk with
      | .error msg => some { s with panic := some msg }
      | .ok (d, some (i0, i1, i2)) =>
        some ({ s with disk := d }.setCall p (some { c with stage := .format, i0, i1, i2 }))
      | .ok (d, none) => some ({ s with disk := d, lock := none }.setCall p (some { c with stage := .noDesc }))
    | .format =>
      some ({ s with disk := format s.disk (s.blockno c.b) c }.setCall p (some { c with stage := .publish }))
    | .publish =>
      some ({ s with
        disk := { s.disk with availIdx := (s.disk.availIdx + 1) % 65536 }
        owner := update s.owner c.i0 (some p)
        done := update s.done p false }.setCall p (some { c with stage := .wait }))
    | .wait =>
      if s.disk.bufDisk c.b then some ({ s with lock := none }.setCall p (some { c with stage := .asleep }))
      else
        match freeChain (NUM + 1) { s.disk with infoB := update s.disk.infoB c.i0 none } c.i0 with
        | .error msg => some { s with panic := some msg }
        | .ok d =>
          some ({ s with disk := d, lock := none, locked := update s.locked c.b false }.setCall p none)
    | _ => none
  else none

def intrStep (s : State) : Option State :=
  if s.lock = some none then
    if s.disk.seen ≠ s.disk.usedIdx then
      let id := s.disk.usedRing (s.disk.seen % NUM)
      if s.disk.status id ≠ 0 then some { s with panic := some "virtio_disk_intr status" }
      else
        match s.disk.infoB id with
        | none => some { s with panic := some "null buffer" }
        | some b =>
          some { s with disk := { s.disk with
            bufDisk := update s.disk.bufDisk b false
            seen := (s.disk.seen + 1) % 65536 } }
    else some { s with lock := none }
  else none

def take (s : State) : Option State :=
  if s.lastAvail ≠ s.disk.availIdx then
    some { s with
      taken := s.disk.availRing (s.lastAvail % NUM) :: s.taken
      lastAvail := (s.lastAvail + 1) % 65536 }
  else none

/-- The device stores 0 through the third descriptor of the chain and puts the head into the used ring.
-/
def complete (s : State) (h : Nat) : Option State :=
  if h ∈ s.taken then
    let last := s.disk.desc (s.disk.desc (s.disk.desc h).next).next
    some { s with
      taken := s.taken.erase h
      done := match s.owner h with
        | some p => update s.done p true
        | none => s.done
      disk := { s.disk with
        status := match last.addr with
          | .status i => update s.disk.status i 0
          | _ => s.disk.status
        usedRing := update s.disk.usedRing (s.disk.usedIdx % NUM) h
        usedIdx := (s.disk.usedIdx + 1) % 65536 } }
  else none

inductive Act
  | start (p b : Nat) (write : Bool)
  | acquire (p : Nat)
  | step (p : Nat)
  | intr
  | intrStep
  | take
  | complete (h : Nat)
  deriving DecidableEq, Repr

/-- A call starts on a buffer that it has locked, so that no other call is on it. -/
def act (s : State) (a : Act) : Option State :=
  if s.panic = none then
    match a with
    | .start p b write =>
      if s.call p = none ∧ s.locked b = false then
        some ({ s with locked := update s.locked b true }.setCall p
          (some { stage := .enter, b, write }))
      else none
    | .acquire p => (s.call p).bind (acquire s p)
    | .step p => (s.call p).bind (rwStep s p)
    | .intr => if s.lock = none then some { s with lock := some none } else none
    | .intrStep => intrStep s
    | .take => take s
    | .complete h => complete s h
  else none

def machine : Machine State Act where
  init s := (∀ i < NUM, s.disk.free i = true) ∧ s.disk.availIdx = 0 ∧ s.disk.usedIdx = 0 ∧ s.disk.seen = 0 ∧
    s.lastAvail = 0 ∧ s.taken = [] ∧ (∀ p, s.call p = none) ∧ s.lock = none ∧ s.panic = none
  step := act

end TweakedXv6.Virtio
