import TweakedXv6.Basic
import TweakedXv6.Links
import TweakedXv6.LogModel

namespace TweakedXv6.Bio

open Log (Block LOGSIZE MAXOPBLOCKS)

def NBUF : Nat := MAXOPBLOCKS * 3

/-- The device that every caller of `bread` passes. -/
def ROOTDEV : Nat := 1

/-- `struct buf` without its links; `lock` is the holder of the sleep-lock. -/
structure Buf where
  valid : Bool := false
  dev : Nat := 0
  blockno : Nat := 0
  refcnt : Nat := 0
  lock : Option (Fin NPROC) := none
  data : Block := fun _ => 0

inductive Node
  | head
  | buf (i : Fin NBUF)
  deriving DecidableEq, Repr

/-- In `bread(dev, b)` after `bget` chose buffer `i`, before and after `acquiresleep`; or in `brelse`
after `releasesleep`. -/
inductive Pc
  | user
  | acquiring (b : Nat) (i : Fin NBUF)
  | reading (b : Nat) (i : Fin NBUF)
  | releasing (i : Fin NBUF)
  deriving DecidableEq, Repr

/-- Since its `bread`: changed after the last `bwrite`, `log_write`, `bwrite` after the last change,
`bunpin`. -/
structure Hold where
  dirty : Bool := false
  logged : Bool := false
  written : Bool := false
  unpinned : Bool := false
  deriving DecidableEq, Repr

/-- `committing` is the process in `commit`, `tail` counts the iterations of its `install_trans`. -/
structure LogState where
  lh : List Nat := []
  size : Nat
  outstanding : Nat := 0
  committing : Option (Fin NPROC) := none
  tail : Nat := 0

/-- The last three fields are history: what was last stored in each block, a clock of the `brelse` calls,
and each buffer's last release. -/
structure State where
  buf : Fin NBUF → Buf
  links : Links Node
  disk : Nat → Block
  log : LogState
  pc : Fin NPROC → Pc
  held : Fin NPROC → Fin NBUF → Option Hold
  stored : Nat → Block
  clock : Nat
  released : Fin NBUF → Nat

def State.setBuf (s : State) (i : Fin NBUF) (v : Buf) : State := { s with buf := Function.update s.buf i v }

def State.setPc (s : State) (p : Fin NPROC) (c : Pc) : State := { s with pc := Function.update s.pc p c }

def State.setHeld (s : State) (p : Fin NPROC) (i : Fin NBUF) (h : Option Hold) : State :=
  { s with held := Function.update s.held p (Function.update (s.held p) i h) }

def binit : Links Node :=
  (List.finRange NBUF).foldl (fun k i => k.push .head (.buf i)) ⟨fun a => a, fun a => a⟩

def State.caches (s : State) (dev blockno : Nat) : Node → Bool
  | .head => false
  | .buf i => (s.buf i).dev = dev ∧ (s.buf i).blockno = blockno

def State.unused (s : State) : Node → Bool
  | .head => false
  | .buf i => (s.buf i).refcnt = 0

/-- Up to the release of `bcache.lock`; no result when it panics. -/
def bget (s : State) (dev blockno : Nat) : Option (Fin NBUF × State) :=
  match Links.search s.links.next .head (s.caches dev blockno) (NBUF + 1) (s.links.next .head) with
  | some (.buf i) => some (i, s.setBuf i { s.buf i with refcnt := uint ((s.buf i).refcnt + 1) })
  | _ =>
    match Links.search s.links.prev .head s.unused (NBUF + 1) (s.links.prev .head) with
    | some (.buf i) => some (i, s.setBuf i { s.buf i with dev, blockno, valid := false, refcnt := 1 })
    | _ => none

/-- The driver has one disk and does not look at the device number. -/
def virtioDiskRw (s : State) (i : Fin NBUF) (write : Bool) : State :=
  let b := s.buf i
  if write then { s with disk := Function.update s.disk b.blockno b.data }
  else s.setBuf i { b with data := s.disk b.blockno }

def breadFill (s : State) (i : Fin NBUF) : State :=
  if (s.buf i).valid then s
  else
    let s := virtioDiskRw s i false
    s.setBuf i { s.buf i with valid := true }

/-- `brelse` from the acquisition of `bcache.lock` on. -/
def brelseUnlocked (s : State) (i : Fin NBUF) : State :=
  let s := s.setBuf i { s.buf i with refcnt := usub (s.buf i).refcnt 1 }
  let s := { s with clock := s.clock + 1, released := Function.update s.released i (s.clock + 1) }
  if (s.buf i).refcnt = 0 then { s with links := (s.links.unlink (.buf i)).push .head (.buf i) } else s

def bpin (s : State) (i : Fin NBUF) : State :=
  s.setBuf i { s.buf i with refcnt := uint ((s.buf i).refcnt + 1) }

def bunpin (s : State) (i : Fin NBUF) : State :=
  s.setBuf i { s.buf i with refcnt := usub (s.buf i).refcnt 1 }

def logWrite (s : State) (i : Fin NBUF) : Option State :=
  if LOGSIZE ≤ s.log.lh.length ∨ s.log.size - 1 ≤ s.log.lh.length then none
  else if s.log.outstanding < 1 then none
  else if (s.buf i).blockno ∈ s.log.lh then some s
  else some { bpin s i with log := { s.log with lh := s.log.lh ++ [(s.buf i).blockno] } }

def beginOp (s : State) : Option State :=
  if s.log.committing.isSome then none
  else if s.log.lh.length + (s.log.outstanding + 1) * MAXOPBLOCKS > LOGSIZE then none
  else some { s with log := { s.log with outstanding := s.log.outstanding + 1 } }

def endOp (s : State) (p : Fin NPROC) : Option State :=
  if s.log.committing.isSome then none
  else if s.log.outstanding - 1 = 0 then
    some { s with log := { s.log with outstanding := 0, committing := some p } }
  else some { s with log := { s.log with outstanding := s.log.outstanding - 1 } }

inductive Act
  | bread (p : Fin NPROC) (blockno : Nat)
  | step (p : Fin NPROC)
  | store (p : Fin NPROC) (i : Fin NBUF) (data : Block)
  | bwrite (p : Fin NPROC) (i : Fin NBUF)
  | logWrite (p : Fin NPROC) (i : Fin NBUF)
  | bunpin (p : Fin NPROC) (i : Fin NBUF)
  | brelse (p : Fin NPROC) (i : Fin NBUF)
  | beginOp
  | endOp (p : Fin NPROC)
  | commitEnd (p : Fin NPROC)

def step (s : State) (p : Fin NPROC) : Option State :=
  match s.pc p with
  | .user => none
  | .acquiring b i =>
    if (s.buf i).lock = none then some ((s.setBuf i { s.buf i with lock := some p }).setPc p (.reading b i))
    else none
  | .reading _ i => some (((breadFill s i).setHeld p i (some {})).setPc p .user)
  | .releasing i => some ((brelseUnlocked s i).setPc p .user)

/-- A client changes, writes, logs and releases buffers that it holds, a changed one only after a
`bwrite` or `log_write`. `bunpin` is called as in `install_trans`. -/
def act (s : State) : Act → Option State
  | .bread p blockno =>
    if s.pc p = .user then (bget s ROOTDEV blockno).map fun r => r.2.setPc p (.acquiring blockno r.1) else none
  | .step p => step s p
  | .store p i data =>
    (s.held p i).bind fun h =>
      if s.pc p = .user ∧ h.unpinned = false then
        let t := (s.setBuf i { s.buf i with data }).setHeld p i (some { h with dirty := true, written := false })
        some { t with stored := Function.update s.stored (s.buf i).blockno data }
      else none
  | .bwrite p i =>
    (s.held p i).bind fun h =>
      if s.pc p = .user ∧ (s.buf i).lock = some p then
        some ((virtioDiskRw s i true).setHeld p i (some { h with dirty := false, written := true }))
      else none
  | .logWrite p i =>
    (s.held p i).bind fun h =>
      if s.pc p = .user ∧ h.unpinned = false then
        (logWrite s i).map fun t => t.setHeld p i (some { h with logged := true })
      else none
  | .bunpin p i =>
    (s.held p i).bind fun h =>
      if s.pc p = .user ∧ h.unpinned = false ∧ h.written = true ∧ s.log.committing = some p ∧
          s.log.lh[s.log.tail]? = some (s.buf i).blockno then
        let t := (bunpin s i).setHeld p i (some { h with unpinned := true })
        some { t with log := { s.log with tail := s.log.tail + 1 } }
      else none
  | .brelse p i =>
    (s.held p i).bind fun h =>
      if s.pc p = .user ∧ (h.dirty = false ∨ h.logged = true) ∧ (s.buf i).lock = some p then
        some (((s.setBuf i { s.buf i with lock := none }).setHeld p i none).setPc p (.releasing i))
      else none
  | .beginOp => beginOp s
  | .endOp p => if s.pc p = .user ∧ 0 < s.log.outstanding then endOp s p else none
  | .commitEnd p =>
    if s.log.committing = some p ∧ s.log.tail = s.log.lh.length then
      some { s with log := { s.log with lh := [], tail := 0, committing := none } }
    else none

def boot (disk : Nat → Block) (size : Nat) : State where
  buf := fun _ => {}
  links := binit
  disk := disk
  log := { size := size }
  pc := fun _ => .user
  held := fun _ _ => none
  stored := disk
  clock := 0
  released := fun _ => 0

def machine : Machine State Act := ⟨fun s => ∃ disk size, s = boot disk size, act⟩

end TweakedXv6.Bio
