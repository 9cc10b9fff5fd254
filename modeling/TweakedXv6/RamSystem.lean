import TweakedXv6.RamModel
import TweakedXv6.RamView
import TweakedXv6.VmRuns

namespace TweakedXv6.Phys

open Prog Files
open Vm (PGSIZE Layout)

/-- `kernel` lists the pages of the kernel page table and of the kernel stacks, `kstack` is the page of
the kernel stack of a process, and `begun` and `ended` count the calls of `begin_op` and `end_op`. -/
structure State where
  ram : Ram
  proc : Fin NPROC → Vm.Proc
  name : Fin NPROC → List UInt8
  ofile : Ofile
  ft : Ftable
  initproc : Option (Fin NPROC)
  kernel : List Nat
  kstack : Fin NPROC → Nat
  begun : Nat
  ended : Nat

def State.view (s : State) : Vm.State := ⟨Phys.view s.ram, s.proc, s.ofile, s.ft, s.initproc, s.kernel⟩

abbrev Kernel := Prog State

def State.setProc (s : State) (p : Fin NPROC) (v : Vm.Proc) : State := { s with proc := Function.update s.proc p v }

def State.setName (s : State) (p : Fin NPROC) (name : List UInt8) : State :=
  { s with name := Function.update s.name p name }

variable {α : Type}

def onRam (m : Kmem α) : Kernel α := lift (fun s => s.ram) (fun r s => { s with ram := r }) m

def host (lay : Layout) : Host State where
  ft s := s.ft
  setFt u s := { s with ft := u }
  ofile s := s.ofile
  setOfile o s := { s with ofile := o }
  release
    | .page pi => onRam (kfree lay pi)
    | _ => ret ()
  kalloc := onRam kalloc

/-- The fields of `struct trapframe` that are written, by their index among its words. -/
def EPC : Nat := 3

def SP : Nat := 6

def A0 : Nat := 14

def A1 : Nat := 15

def trapframeSize : Nat := 288

def setTrapframe (tf i v : Nat) : Kmem Unit := change fun r => r.setPte tf i v

/-- Into a buffer of `n` bytes, of a string up to its null byte. -/
def safestrcpy (t : List UInt8) (n : Nat) : List UInt8 := (t.takeWhile (· ≠ 0)).take (n - 1)

def freeproc (lay : Layout) (p : Fin NPROC) : Kernel Unit := do
  let v ← read fun s => s.proc p
  whenSome v.trapframe fun tf => onRam (kfree lay tf)
  whenSome v.pagetable fun d => onRam (procFreepagetable lay d v.sz)
  change fun s => (s.setProc p {}).setName p []

def allocproc (lay : Layout) : Kernel (Option (Fin NPROC)) := do
  match ← read fun s => (List.finRange NPROC).find? fun p => (s.proc p).state = .unused with
  | none => ret none
  | some p => do
    change fun s => s.setProc p { s.proc p with state := .used }
    match ← onRam kalloc with
    | none => do
      freeproc lay p
      ret none
    | some tf => do
      change fun s => s.setProc p { s.proc p with trapframe := some tf }
      match ← onRam (procPagetable lay tf) with
      | none => do
        freeproc lay p
        ret none
      | some d => do
        change fun s => s.setProc p { s.proc p with pagetable := some d }
        ret (some p)

def fork (lay : Layout) (p : Fin NPROC) : Kernel (Option (Fin NPROC)) := do
  match ← allocproc lay with
  | none => ret none
  | some np => do
    let v ← read fun s => s.proc p
    let c ← read fun s => s.proc np
    match v.pagetable, v.trapframe, c.pagetable, c.trapframe with
    | some old, some tf, some new, some ntf =>
      if ← onRam (uvmcopy lay old new v.sz) then do
        change fun s => s.setProc np { s.proc np with sz := v.sz }
        onRam (memmove (ntf * PGSIZE) (tf * PGSIZE) trapframeSize)
        onRam (setTrapframe ntf A0 0)
        each (List.finRange NOFILE) ((host lay).dupFd p np)
        change fun s => s.setName np (safestrcpy (s.name p) 16)
        change fun s => s.setProc np { s.proc np with parent := some p, state := .runnable }
        ret (some np)
      else do
        freeproc lay np
        ret none
    | _, _, _, _ => halt "kerneltrap"

def growproc (lay : Layout) (p : Fin NPROC) (n : Int) : Kernel Bool := do
  let v ← read fun s => s.proc p
  match v.pagetable with
  | none => halt "kerneltrap"
  | some d =>
    let sz := v.sz % 4294967296
    let new := ((sz + n) % 4294967296).toNat
    if 0 < n then do
      let r ← onRam (uvmalloc lay d sz new)
      if r % 4294967296 = 0 then ret false
      else do
        change fun s => s.setProc p { s.proc p with sz := r % 4294967296 }
        ret true
    else if n < 0 then do
      let r ← onRam (uvmdealloc lay d sz new)
      change fun s => s.setProc p { s.proc p with sz := r % 4294967296 }
      ret true
    else do
      change fun s => s.setProc p { s.proc p with sz := sz }
      ret true

/-- The old size passes through an `int`. -/
def sysSbrk (lay : Layout) (p : Fin NPROC) (n : Int32) : Kernel Int := do
  let addr ← read fun s => Int.bmod (s.proc p).sz 4294967296
  if ← growproc lay p n.toInt then ret addr else ret (-1)

/-- Memory, processes and files are in order, no process that is not alive has open files, and the kernel
stacks are pages of the kernel. -/
structure Inv (lay : Layout) (s : State) : Prop where
  sys : Vm.Sys lay (holders s.ofile) s.view
  closed : Vm.FdsClosed s.view
  kstack : ∀ p, s.kstack p ∈ s.kernel

end TweakedXv6.Phys
