import TweakedXv6.FsRead
import TweakedXv6.RamCopy
import TweakedXv6.RamSystem

namespace TweakedXv6.Phys

open Prog Files
open Vm (PGSIZE MAXARG Layout pgroundup)
open Fs (readCount)

structure File where
  size : Nat
  byte : Bytes

def File.at (f : File) (off : Nat) : Bytes := fun i => f.byte (off + i)

def readi (f : File) (dst off n : Nat) : Kmem Nat := do
  change fun r => r.transfer (dst + ·) (f.at off) (readCount f.size off n)
  ret (readCount f.size off n)

def ELF_MAGIC : Nat := 0x464C457F

def ELF_PROG_LOAD : Nat := 1

def elfhdrSize : Nat := 64

def proghdrSize : Nat := 56

def elfMagic (h : Bytes) : Nat := h.word 0

def elfEntry (h : Bytes) : Nat := h.dword 3

def elfPhoff (h : Bytes) : Nat := h.dword 4

def elfPhnum (h : Bytes) : Nat := h.word 14 % 65536

def phType (h : Bytes) : Nat := h.word 0

def phOff (h : Bytes) : Nat := h.dword 1

def phVaddr (h : Bytes) : Nat := h.dword 2

def phFilesz (h : Bytes) : Nat := h.dword 4

def phMemsz (h : Bytes) : Nat := h.dword 5

def loadsegLoop (pagetable va : Nat) (f : File) (offset sz : Nat) : Nat → Nat → Kmem Bool
  | 0, _ => halt "loadseg: running"
  | fuel + 1, i =>
    if i < sz then do
      let pa ← walkaddr pagetable ((va + i) % 18446744073709551616)
      if pa = 0 then halt "loadseg: address should exist"
      else do
        let n := if sz - i < PGSIZE then sz - i else PGSIZE
        let m ← readi f pa ((offset + i) % 4294967296) n
        if m ≠ n then ret false
        else loadsegLoop pagetable va f offset sz fuel ((i + PGSIZE) % 4294967296)
    else ret true

def loadseg (pagetable va : Nat) (f : File) (offset sz : Nat) : Kmem Bool :=
  loadsegLoop pagetable va f offset sz (sz / PGSIZE + 2) 0

/-- The loop over `n` program headers from `off` on, an `int` used as an `uint`. It ends with the size
reached, also when it fails. -/
def execLoad (lay : Layout) (pagetable : Nat) (f : File) : Nat → Nat → Nat → Kmem (Bool × Nat)
  | 0, _, sz => ret (true, sz)
  | n + 1, off, sz =>
    let ph := f.at off
    let next := (off + proghdrSize) % 4294967296
    if readCount f.size off proghdrSize ≠ proghdrSize then ret (false, sz)
    else if phType ph ≠ ELF_PROG_LOAD then execLoad lay pagetable f n next sz
    else if phMemsz ph < phFilesz ph then ret (false, sz)
    else if (phVaddr ph + phMemsz ph) % 18446744073709551616 < phVaddr ph then ret (false, sz)
    else do
      let sz1 ← uvmalloc lay pagetable sz ((phVaddr ph + phMemsz ph) % 18446744073709551616)
      if sz1 = 0 then ret (false, sz)
      else if phVaddr ph % PGSIZE ≠ 0 then ret (false, sz1)
      else if ← loadseg pagetable (phVaddr ph) f (phOff ph % 4294967296) (phFilesz ph % 4294967296) then
        execLoad lay pagetable f n next sz1
      else ret (false, sz1)

/-- `exec` up to `end_op`: a page table with the program in it, and its size. -/
def execFile (lay : Layout) (trapframe : Nat) (f : File) : Kmem (Option (Nat × Nat)) :=
  if readCount f.size 0 elfhdrSize ≠ elfhdrSize then ret none
  else if elfMagic (f.at 0) ≠ ELF_MAGIC then ret none
  else do
    match ← procPagetable lay trapframe with
    | none => ret none
    | some pagetable => do
      let r ← execLoad lay pagetable f (elfPhnum (f.at 0)) (elfPhoff (f.at 0) % 4294967296) 0
      if r.1 then ret (some (pagetable, r.2))
      else do
        procFreepagetable lay pagetable r.2
        ret none

/-- The guard page and the stack page above the program; the new size. -/
def execStack (lay : Layout) (pagetable sz : Nat) : Kmem (Option Nat) := do
  let sz := pgroundup sz
  let sz1 ← uvmalloc lay pagetable sz (sz + 2 * PGSIZE)
  if sz1 = 0 then do
    procFreepagetable lay pagetable sz
    ret none
  else do
    uvmclear pagetable (sz1 - 2 * PGSIZE)
    ret (some sz1)

def strlenLoop (s : Nat) : Nat → Nat → Kmem Nat
  | 0, _ => halt "strlen: running"
  | fuel + 1, n => do
    let ch ← read fun r => r.byte (s + n)
    if ch = 0 then ret n else strlenLoop s fuel (n + 1)

def strlen (s : Nat) : Kmem Nat := strlenLoop s 2147483648 0

/-- `sp - n` in 64 bits, aligned down to 16 bytes. -/
def pushDown (sp n : Nat) : Nat :=
  let sp := (sp + (18446744073709551616 - n)) % 18446744073709551616
  sp - sp % 16

/-- The argument strings, one page each, copied to the stack, with their addresses in the words from
`ustack` on. -/
def pushArgs (pagetable stackbase ustack : Nat) : List Nat → Nat → Nat → Kmem (Option (Nat × Nat))
  | [], argc, sp => ret (some (argc, sp))
  | arg :: argv, argc, sp =>
    if MAXARG ≤ argc then ret none
    else do
      let n ← strlen (arg * PGSIZE)
      let sp := pushDown sp (n + 1)
      if sp < stackbase then ret none
      else if ← copyout pagetable sp (arg * PGSIZE) (n + 1) then do
        change fun r => { r with byte := r.byte.setDword (ustack + argc) sp }
        pushArgs pagetable stackbase ustack argv (argc + 1) sp
      else ret none

def execArgs (pagetable sz ustack : Nat) (argv : List Nat) : Kmem (Option (Nat × Nat)) := do
  let stackbase := sz - PGSIZE
  match ← pushArgs pagetable stackbase ustack argv 0 sz with
  | none => ret none
  | some (argc, sp) => do
    change fun r => { r with byte := r.byte.setDword (ustack + argc) 0 }
    let sp := pushDown sp ((argc + 1) * 8)
    if sp < stackbase then ret none
    else if ← copyout pagetable sp (8 * ustack) ((argc + 1) * 8) then ret (some (argc, sp))
    else ret none

def lastName : List UInt8 → List UInt8 → List UInt8
  | last, [] => last
  | last, c :: s => if c = 47 then lastName s s else lastName last s

def beginOp : Kernel Unit := change fun s => { s with begun := s.begun + 1 }

def endOp : Kernel Unit := change fun s => { s with ended := s.ended + 1 }

/-- By `p`, with a page for each argument string and `ustack` in words. -/
def exec (lay : Layout) (fs : List UInt8 → Option File) (p : Fin NPROC) (path : List UInt8) (argv : List Nat)
    (ustack : Nat) : Kernel Int := do
  beginOp
  match fs path with
  | none => do
    endOp
    ret (-1)
  | some f => do
    let v ← read fun s => s.proc p
    match v.trapframe with
    | none => halt "kerneltrap"
    | some tf => do
      match ← onRam (execFile lay tf f) with
      | none => do
        endOp
        ret (-1)
      | some (pagetable, sz) => do
        endOp
        match ← onRam (execStack lay pagetable sz) with
        | none => ret (-1)
        | some sz => do
          match ← onRam (execArgs pagetable sz ustack argv) with
          | none => do
            onRam (procFreepagetable lay pagetable sz)
            ret (-1)
          | some (argc, sp) => do
            onRam (setTrapframe tf A1 sp)
            change fun s => s.setName p (safestrcpy (lastName path path) 16)
            change fun s => s.setProc p { s.proc p with pagetable := some pagetable, sz := sz }
            onRam (setTrapframe tf EPC (elfEntry (f.at 0)))
            onRam (setTrapframe tf SP sp)
            whenSome v.pagetable fun old => onRam (procFreepagetable lay old v.sz)
            ret argc

/-- The string at an address, without its null byte, of at most `n` bytes. -/
def cstring (r : Ram) (a : Nat) : Nat → List UInt8
  | 0 => []
  | n + 1 => if r.byte a = 0 then [] else r.byte a :: cstring r (a + 1) n

def MAXPATH : Nat := 128

/-- The loop of `sys_exec` over the argument strings of a process of size `sz`, with `uarg` in word
`uarg`; the pages allocated. -/
def fetchArgs (pagetable sz uarg uargv : Nat) : Nat → Nat → List Nat → Kmem (Bool × List Nat)
  | 0, _, argv => ret (false, argv)
  | fuel + 1, i, argv =>
    let addr := (uargv + 8 * i) % 18446744073709551616
    if sz ≤ addr ∨ sz < (addr + 8) % 18446744073709551616 then ret (false, argv)
    else do
      if ← copyin pagetable (8 * uarg) addr 8 then do
        let u ← read fun r => r.byte.dword uarg
        if u = 0 then ret (true, argv)
        else do
          match ← kalloc with
          | none => ret (false, argv)
          | some q => do
            if ← copyinstr pagetable (q * PGSIZE) u PGSIZE then
              fetchArgs pagetable sz uarg uargv fuel (i + 1) (argv ++ [q])
            else ret (false, argv ++ [q])
      else ret (false, argv)

/-- `uarg`, `path` and the array `ustack` of `exec` are on the kernel stack of `p`. -/
def sysExec (lay : Layout) (fs : List UInt8 → Option File) (p : Fin NPROC) : Kernel Int := do
  let v ← read fun s => s.proc p
  let k ← read fun s => s.kstack p
  match v.pagetable, v.trapframe with
  | some d, some tf => do
    let upath ← onRam (readPte tf A0)
    if ← onRam (copyinstr d (k * PGSIZE + 1024) upath MAXPATH) then do
      let path ← onRam (read fun r => cstring r (k * PGSIZE + 1024) MAXPATH)
      let uargv ← onRam (readPte tf A1)
      let r ← onRam (fetchArgs d v.sz (512 * k) uargv MAXARG 0 [])
      if r.1 then do
        let c ← exec lay fs p path r.2 (512 * k + 64)
        onRam (each r.2 fun q => kfree lay q)
        ret c
      else do
        onRam (each r.2 fun q => kfree lay q)
        ret (-1)
    else ret (-1)
  | _, _ => halt "kerneltrap"

end TweakedXv6.Phys
