import TweakedXv6.FileCalls
import TweakedXv6.VmModel

namespace TweakedXv6.Vm

open Prog Files

/-- The fields of `struct proc` that say which pages a process holds; a null pointer is `none`. -/
structure Proc where
  state : ProcState := .unused
  pagetable : Option Nat := none
  sz : Nat := 0
  trapframe : Option Nat := none
  parent : Option (Fin NPROC) := none
  deriving DecidableEq, Repr

/-- `kernel` lists the pages of the kernel page table and of the kernel stacks. -/
structure State where
  mem : Mem
  proc : Fin NPROC → Proc
  ofile : Ofile
  ft : Ftable
  initproc : Option (Fin NPROC)
  kernel : List Nat

abbrev Kernel := Prog State

def State.setProc (s : State) (p : Fin NPROC) (v : Proc) : State :=
  { s with proc := Function.update s.proc p v }

variable {α : Type}

def onMem (m : VM α) : Kernel α := lift (fun s => s.mem) (fun m s => { s with mem := m }) m

def host (lay : Layout) : Host State where
  ft s := s.ft
  setFt u s := { s with ft := u }
  ofile s := s.ofile
  setOfile o s := { s with ofile := o }
  release
    | .page pi => onMem (kfree lay pi)
    | _ => ret ()
  kalloc := onMem kalloc

def freeproc (lay : Layout) (p : Fin NPROC) : Kernel Unit := do
  let v ← read fun s => s.proc p
  whenSome v.trapframe fun tf => onMem (kfree lay tf)
  whenSome v.pagetable fun d => onMem (procFreepagetable lay d v.sz)
  change fun s => s.setProc p {}

def allocproc (lay : Layout) : Kernel (Option (Fin NPROC)) := do
  match ← read fun s => (List.finRange NPROC).find? fun p => (s.proc p).state = .unused with
  | none => ret none
  | some p => do
    change fun s => s.setProc p { s.proc p with state := .used }
    match ← onMem kalloc with
    | none => do
      freeproc lay p
      ret none
    | some tf => do
      change fun s => s.setProc p { s.proc p with trapframe := some tf }
      match ← onMem (procPagetable lay tf) with
      | none => do
        freeproc lay p
        ret none
      | some d => do
        change fun s => s.setProc p { s.proc p with pagetable := some d }
        ret (some p)

/-- A null pointer from `allocproc` faults. -/
def userinit (lay : Layout) (initcode : Nat → Pte) : Kernel Unit := do
  match ← allocproc lay with
  | none => halt "kerneltrap"
  | some p => do
    change fun s => { s with initproc := some p }
    let v ← read fun s => s.proc p
    match v.pagetable with
    | none => halt "kerneltrap"
    | some d => do
      onMem (uvminit d 52 initcode)
      change fun s => s.setProc p { s.proc p with sz := PGSIZE, state := .runnable }

/-- The registers saved in the trapframe are not modelled. -/
def fork (lay : Layout) (p : Fin NPROC) : Kernel (Option (Fin NPROC)) := do
  match ← allocproc lay with
  | none => ret none
  | some np => do
    let v ← read fun s => s.proc p
    let c ← read fun s => s.proc np
    match v.pagetable, c.pagetable with
    | some old, some new =>
      if ← onMem (uvmcopy lay old new v.sz) then do
        change fun s => s.setProc np { s.proc np with sz := v.sz }
        each (List.finRange NOFILE) ((host lay).dupFd p np)
        change fun s => s.setProc np { s.proc np with parent := some p, state := .runnable }
        ret (some np)
      else do
        freeproc lay np
        ret none
    | _, _ => halt "kerneltrap"

/-- `sz` is an `uint` and `n` an `int`. -/
def growproc (lay : Layout) (p : Fin NPROC) (n : Int) : Kernel Bool := do
  let v ← read fun s => s.proc p
  match v.pagetable with
  | none => halt "kerneltrap"
  | some d =>
    let sz := v.sz % 4294967296
    let new := ((sz + n) % 4294967296).toNat
    if 0 < n then do
      let r ← onMem (uvmalloc lay d sz new)
      if r % 4294967296 = 0 then ret false
      else do
        change fun s => s.setProc p { s.proc p with sz := r % 4294967296 }
        ret true
    else if n < 0 then do
      let r ← onMem (uvmdealloc lay d sz new)
      change fun s => s.setProc p { s.proc p with sz := r % 4294967296 }
      ret true
    else do
      change fun s => s.setProc p { s.proc p with sz := sz }
      ret true

/-- `reparent`, and the exiting process becomes a zombie. -/
def State.zombie (s : State) (p : Fin NPROC) : State :=
  { s with proc := fun q =>
      let v := s.proc q
      let w := if v.parent = some p then { v with parent := s.initproc } else v
      if q = p then { w with state := .zombie } else w }

def exit (lay : Layout) (p : Fin NPROC) : Kernel Unit := do
  let init ← read fun s => s.initproc
  if init = some p then halt "init exiting"
  else do
    each (List.finRange NOFILE) ((host lay).closeFd p)
    change fun s => s.zombie p

def copyoutTo (p : Fin NPROC) (src : Nat → Pte) (dstva len : Nat) : Kernel Bool := do
  let v ← read fun s => s.proc p
  match v.pagetable with
  | none => halt "kerneltrap"
  | some d => onMem (copyout d src len dstva len)

/-- When it does not sleep: the first zombie child is freed, unless its status cannot be copied out. -/
def wait (lay : Layout) (p : Fin NPROC) (addr : Nat) (xstate : Nat → Pte) : Kernel (Option (Fin NPROC)) := do
  match ← read fun s => (List.finRange NPROC).find? fun np =>
      (s.proc np).parent = some p ∧ (s.proc np).state = .zombie with
  | none => ret none
  | some np =>
    if addr = 0 then do
      freeproc lay np
      ret (some np)
    else if ← copyoutTo p xstate addr 4 then do
      freeproc lay np
      ret (some np)
    else ret none

def sysPipe (lay : Layout) (p : Fin NPROC) (fdarray : Nat) (fds : Nat → Pte) : Kernel Bool :=
  (host lay).sysPipe p (copyoutTo p fds fdarray 4) (copyoutTo p fds (fdarray + 4) 4)

/-- What `sys_open` does to the file table once it has an inode. -/
def openInode (lay : Layout) (p : Fin NPROC) (ip : Fin NINODE) : Kernel Bool := do
  match ← (host lay).openFd p with
  | none => ret false
  | some f => do
    (host lay).onFiles (change fun ft => ft.setFile f { ft.file f with type := .inode ip })
    ret true

/-- A program header as `exec` reads it: whether `readi` got it, whether it is `ELF_PROG_LOAD`, and
whether each page of the segment can be read. -/
structure Phdr where
  readOk : Bool
  load : Bool
  vaddr : UInt64
  memsz : UInt64
  filesz : UInt64
  pageOk : Nat → Bool
  data : Nat → Nat → Pte

/-- It ends with the size reached, also when it fails. -/
def execLoad (lay : Layout) (d : Nat) : List Phdr → Nat → VM (Bool × Nat)
  | [], sz => ret (true, sz)
  | ph :: rest, sz =>
    if ph.readOk = false then ret (false, sz)
    else if ph.load = false then execLoad lay d rest sz
    else if ph.memsz < ph.filesz then ret (false, sz)
    else if ph.vaddr + ph.memsz < ph.vaddr then ret (false, sz)
    else do
      let sz1 ← uvmalloc lay d sz (ph.vaddr + ph.memsz).toNat
      if sz1 = 0 then ret (false, sz)
      else if ph.vaddr.toNat % PGSIZE ≠ 0 then ret (false, sz1)
      else if ← loadseg d ph.vaddr.toNat ph.filesz.toNat ph.pageOk ph.data then
        execLoad lay d rest sz1
      else ret (false, sz1)

def MAXARG : Nat := 32

/-- Push argument strings of the given lengths, then the array of pointers to them. -/
def execArgs (d : Nat) (stackbase : UInt64) (data : Nat → Pte) : List Nat → Nat → UInt64 → VM Bool
  | [], argc, sp =>
    let sp := sp - UInt64.ofNat ((argc + 1) * 8)
    let sp := sp - sp % 16
    if sp < stackbase then ret false
    else copyout d data ((argc + 1) * 8) sp.toNat ((argc + 1) * 8)
  | len :: rest, argc, sp =>
    if MAXARG ≤ argc then ret false
    else
      let sp := sp - UInt64.ofNat (len + 1)
      let sp := sp - sp % 16
      if sp < stackbase then ret false
      else do
        if ← copyout d data (len + 1) sp.toNat (len + 1) then execArgs d stackbase data rest (argc + 1) sp
        else ret false

def execStack (lay : Layout) (d sz : Nat) (lens : List Nat) (data : Nat → Pte) : VM (Bool × Nat) := do
  let sz := pgroundup sz
  let sz1 ← uvmalloc lay d sz (sz + 2 * PGSIZE)
  if sz1 = 0 then ret (false, sz)
  else do
    uvmclear d (sz1 - 2 * PGSIZE)
    let ok ← execArgs d (UInt64.ofNat (sz1 - PGSIZE)) data lens 0 (UInt64.ofNat sz1)
    ret (ok, sz1)

/-- What `exec` finds at the path: whether there is a file with an ELF header, and what it holds. -/
structure Image where
  header : Bool
  phdrs : List Phdr
  data : Nat → Pte

def exec (lay : Layout) (p : Fin NPROC) (img : Image) (lens : List Nat) : Kernel Bool := do
  if img.header = false then ret false
  else do
    let v ← read fun s => s.proc p
    match v.trapframe with
    | none => halt "kerneltrap"
    | some tf => do
      match ← onMem (procPagetable lay tf) with
      | none => ret false
      | some d => do
        let (ok, sz) ← onMem (execLoad lay d img.phdrs 0)
        if ok then do
          let (ok, sz) ← onMem (execStack lay d sz lens img.data)
          if ok then do
            change fun s => s.setProc p { s.proc p with pagetable := some d, sz := sz }
            whenSome v.pagetable fun old => onMem (procFreepagetable lay old v.sz)
            ret true
          else do
            onMem (procFreepagetable lay d sz)
            ret false
        else do
          onMem (procFreepagetable lay d sz)
          ret false

/-- What `sys_exec` finds in the user's `argv`: an address it cannot read, the null at the end, or a
string, which may be too long or not readable. -/
inductive Arg
  | invalid
  | null
  | string (ok : Bool) (len : Nat) (data : Nat → Pte)

/-- The loop of `sys_exec`; it ends with the pages allocated, and the lengths of the strings. -/
def fetchArgs (arg : Nat → Arg) : Nat → Nat → List (Nat × Nat) → VM (Bool × List (Nat × Nat))
  | 0, _, argv => ret (false, argv)
  | fuel + 1, i, argv =>
    match arg i with
    | .invalid => ret (false, argv)
    | .null => ret (true, argv)
    | .string ok len data => do
      match ← kalloc with
      | none => ret (false, argv)
      | some q => do
        writePage q data
        if ok then fetchArgs arg fuel (i + 1) (argv ++ [(q, len)]) else ret (false, argv ++ [(q, len)])

def sysExec (lay : Layout) (p : Fin NPROC) (arg : Nat → Arg) (img : Image) : Kernel Bool := do
  let (ok, argv) ← onMem (fetchArgs arg MAXARG 0 [])
  if ok then do
    let r ← exec lay p img (argv.map Prod.snd)
    onMem (each argv fun a => kfree lay a.1)
    ret r
  else do
    onMem (each argv fun a => kfree lay a.1)
    ret false

/-- The system calls that take or give up pages or files, each with all it reads from outside. -/
inductive Act
  | userinit (initcode : Nat → Pte)
  | fork (p : Fin NPROC)
  | exec (p : Fin NPROC) (arg : Nat → Arg) (img : Image)
  | exit (p : Fin NPROC)
  | wait (p : Fin NPROC) (addr : Nat) (xstate : Nat → Pte)
  | sbrk (p : Fin NPROC) (n : Int)
  | pipe (p : Fin NPROC) (fdarray : Nat) (fds : Nat → Pte)
  | dup (p : Fin NPROC) (fd : Fin NOFILE)
  | close (p : Fin NPROC) (fd : Fin NOFILE)
  | openInode (p : Fin NPROC) (ip : Fin NINODE)

def Act.caller : Act → Option (Fin NPROC)
  | .userinit _ => none
  | .fork p | .exec p .. | .exit p | .wait p .. | .sbrk p .. | .pipe p .. | .dup p .. | .close p .. |
    .openInode p .. => some p

/-- Processes that are alive make calls; `userinit` runs once. -/
def Act.enabled (s : State) (a : Act) : Bool :=
  match a.caller with
  | none => s.initproc.isNone
  | some p => (s.proc p).state.live

def call (lay : Layout) : Act → Kernel Unit
  | .userinit initcode => userinit lay initcode
  | .fork p => fork lay p >>= fun _ => ret ()
  | .exec p arg img => sysExec lay p arg img >>= fun _ => ret ()
  | .exit p => exit lay p
  | .wait p addr xstate => wait lay p addr xstate >>= fun _ => ret ()
  | .sbrk p n => growproc lay p n >>= fun _ => ret ()
  | .pipe p fdarray fds => sysPipe lay p fdarray fds >>= fun _ => ret ()
  | .dup p fd => (host lay).sysDup p fd >>= fun _ => ret ()
  | .close p fd => (host lay).sysClose p fd >>= fun _ => ret ()
  | .openInode p ip => openInode lay p ip >>= fun _ => ret ()

def step (lay : Layout) (s : State) (a : Act) : Option State :=
  if a.enabled s then
    match call lay a s with
    | .ok (_, t) => some t
    | .error _ => none
  else none

end TweakedXv6.Vm
