import Mathlib.Algebra.BigOperators.Fin
import TweakedXv6.Basic
import TweakedXv6.FsModel
import TweakedXv6.Machine

namespace TweakedXv6.Link

open Fs (Dirent Dinode Inode short namecmp)

/-- After an `iput` the call returns, or `dirlink` has found the name in directory `d` and the link is
taken back. -/
inductive After (m : Nat)
  | done
  | bad (d : Fin m)
  deriving DecidableEq

/-- The next lock that a process waits for, with its local variables. In `sys_link`: the directory of the
old name; the inode; the directory of the new name; the inode, at `bad`. In `sys_unlink`: the directory;
the inode; then the entry `j` is cleared. In `iput`: before the test, and with the inode locked after it.
-/
inductive Pc (m : Nat)
  | user
  | linkOld (d : Fin m) (name : List UInt8) (new : Option (Fin m × List UInt8))
  | linkRaise (new : Option (Fin m × List UInt8))
  | linkNew (d : Fin m) (name : List UInt8)
  | linkBad
  | unlinkDir (d : Fin m) (name : List UInt8)
  | unlinkLock (d : Fin m) (j : Nat)
  | unlinkLower
  | openDir (d : Fin m) (name : List UInt8) (ok : Bool)
  | openLock (ok : Bool)
  | iput (k : After m)
  | freeing (k : After m)
  deriving DecidableEq

/-- One inode `ino` that is not a directory, on the disk and in the inode table, and `m` directories.
`opened` are the references from open files. -/
structure State (m : Nat) where
  ino : Nat
  disk : Dinode
  inode : Inode
  lock : Option (Fin NPROC)
  dir : Fin m → List Dirent
  dirLock : Fin m → Option (Fin NPROC)
  pc : Fin NPROC → Pc m
  opened : Fin NPROC → Nat

variable {m : Nat}

def State.setPc (s : State m) (p : Fin NPROC) (c : Pc m) : State m := { s with pc := Function.update s.pc p c }

def State.setDir (s : State m) (d : Fin m) (l : List Dirent) : State m := { s with dir := Function.update s.dir d l }

def State.setDirLock (s : State m) (d : Fin m) (o : Option (Fin NPROC)) : State m :=
  { s with dirLock := Function.update s.dirLock d o }

def iget (s : State m) : State m :=
  if 0 < s.inode.ref then { s with inode := { s.inode with ref := s.inode.ref + 1 } }
  else { s with inode := { s.inode with ref := 1, valid := false } }

def ilock (s : State m) : State m :=
  if s.inode.valid then s else { s with inode := { s.inode with copy := s.disk, valid := true } }

def addLink (s : State m) (x : Int) : State m :=
  let d := { s.inode.copy with nlink := short (s.inode.copy.nlink + x) }
  { s with inode := { s.inode with copy := d }, disk := d }

def dirlookup (l : List Dirent) (name : List UInt8) : Option Nat :=
  l.findIdx? fun e => e.inum ≠ 0 ∧ namecmp name e.name

/-- The first free entry is used, or one is added. -/
def dirlink (l : List Dirent) (name : List UInt8) (inum : Nat) : List Dirent :=
  match l.findIdx? fun e => e.inum = 0 with
  | some j => l.set j ⟨inum, name⟩
  | none => l ++ [⟨inum, name⟩]

/-- The entry with index `j`, if it names the inode. -/
def State.names (s : State m) (d : Fin m) (name : List UInt8) : Option Nat :=
  (dirlookup (s.dir d) name).filter fun j => (s.dir d)[j]?.any fun e => e.inum = s.ino

def State.after (s : State m) (p : Fin NPROC) : After m → State m
  | .done => s.setPc p .user
  | .bad d => (s.setDirLock d none).setPc p .linkBad

/-- When the lock it waits for is free; no result also when it panics. -/
def step (s : State m) (p : Fin NPROC) : Option (State m) :=
  match s.pc p with
  | .user => none
  | .linkOld d name new =>
    if s.dirLock d = none then
      match s.names d name with
      | none => some (s.setPc p .user)
      | some _ => some ((iget s).setPc p (.linkRaise new))
    else none
  | .linkRaise new =>
    if s.lock = none then
      match new with
      | none => some ((addLink (ilock s) 1).setPc p .linkBad)
      | some (d, name) => some ((addLink (ilock s) 1).setPc p (.linkNew d name))
    else none
  | .linkNew d name =>
    if s.dirLock d = none then
      match dirlookup (s.dir d) name, s.names d name with
      | none, _ => some ((s.setDir d (dirlink (s.dir d) name s.ino)).setPc p (.iput .done))
      | some _, some _ => some (((iget s).setDirLock d (some p)).setPc p (.iput (.bad d)))
      | some _, none => some (s.setPc p .linkBad)
    else none
  | .linkBad => if s.lock = none then some ((addLink (ilock s) (-1)).setPc p (.iput .done)) else none
  | .unlinkDir d name =>
    if s.dirLock d = none then
      if namecmp name Fs.dot ∨ namecmp name Fs.dotdot then some (s.setPc p .user)
      else
        match s.names d name with
        | none => some (s.setPc p .user)
        | some j => some (((iget s).setDirLock d (some p)).setPc p (.unlinkLock d j))
    else none
  | .unlinkLock d j =>
    if s.lock = none then
      let s := ilock s
      if s.inode.copy.nlink < 1 then none
      else
        let s := s.setDir d ((s.dir d).set j ⟨0, List.replicate Fs.DIRSIZ 0⟩)
        some { (s.setDirLock d none).setPc p .unlinkLower with lock := some p }
    else none
  | .unlinkLower => some { (addLink s (-1)).setPc p (.iput .done) with lock := none }
  | .openDir d name ok =>
    if s.dirLock d = none then
      match s.names d name with
      | none => some (s.setPc p .user)
      | some _ => some ((iget s).setPc p (.openLock ok))
    else none
  | .openLock ok =>
    if s.lock = none then
      if ok then
        let s := (ilock s).setPc p .user
        some { s with opened := Function.update s.opened p (s.opened p + 1) }
      else some ((ilock s).setPc p (.iput .done))
    else none
  | .iput k =>
    if s.inode.ref = 1 ∧ s.inode.valid = true ∧ s.inode.copy.nlink = 0 then
      if s.lock = none then some { s.setPc p (.freeing k) with lock := some p } else none
    else some ({ s with inode := { s.inode with ref := s.inode.ref - 1 } }.after p k)
  | .freeing k =>
    let d := { s.inode.copy with size := 0, type := .free, addrs := fun _ => 0 }
    let v := { s.inode with copy := d, valid := false, ref := s.inode.ref - 1 }
    some ({ s with disk := d, inode := v, lock := none }.after p k)

/-- `sys_link`, `sys_unlink`, an `open`, the `close` of an open file; or the next step of a call. -/
inductive Act (m : Nat)
  | link (p : Fin NPROC) (d : Fin m) (name : List UInt8) (new : Option (Fin m × List UInt8))
  | unlink (p : Fin NPROC) (d : Fin m) (name : List UInt8)
  | open (p : Fin NPROC) (d : Fin m) (name : List UInt8) (ok : Bool)
  | close (p : Fin NPROC)
  | step (p : Fin NPROC)

def act (s : State m) : Act m → Option (State m)
  | .link p d name new => if s.pc p = .user then some (s.setPc p (.linkOld d name new)) else none
  | .unlink p d name => if s.pc p = .user then some (s.setPc p (.unlinkDir d name)) else none
  | .open p d name ok => if s.pc p = .user then some (s.setPc p (.openDir d name ok)) else none
  | .close p =>
    if s.pc p = .user ∧ 0 < s.opened p then
      some { s.setPc p (.iput .done) with opened := Function.update s.opened p (s.opened p - 1) }
    else none
  | .step p => step s p

def State.entries (s : State m) : Nat := ∑ d, (s.dir d).countP fun e => e.inum = s.ino

/-- The inode is not in the table, has a name, and its link count is right. -/
structure Boot (s : State m) : Prop where
  ino : s.ino ≠ 0
  type : s.disk.type ≠ .free ∧ s.disk.type ≠ .dir
  nlink : s.disk.nlink = s.entries
  entries : 0 < s.entries ∧ s.entries < 32768
  ref : s.inode.ref = 0
  lock : s.lock = none
  dirLock : ∀ d, s.dirLock d = none
  pc : ∀ p, s.pc p = .user
  opened : ∀ p, s.opened p = 0

def machine (m : Nat) : Machine (State m) (Act m) := ⟨Boot, act⟩

end TweakedXv6.Link
