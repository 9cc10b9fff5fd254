import TweakedXv6.Dwords
import TweakedXv6.VmModel

namespace TweakedXv6.Phys

open Prog
open Vm (PGSIZE MAXVA TRAMPOLINE TRAPFRAME phystopPage pgroundup pgrounddown px nextPpn unmapRounds Layout)

/-- Physical memory byte by byte, the free list, and whether the next calls of `kalloc` fail although
pages are left. Pages are named by their numbers. -/
structure Ram where
  free : List Nat
  byte : Bytes
  fails : Nat → Bool

abbrev Kmem := Prog Ram

def PTE_V : Nat := 1

def PTE_R : Nat := 2

def PTE_W : Nat := 4

def PTE_X : Nat := 8

def PTE_U : Nat := 16

def has (pte flag : Nat) : Bool := pte / flag % 2 = 1

def pteFlags (pte : Nat) : Nat := pte % 1024

def pteToPage (pte : Nat) : Nat := pte / 1024 % 4503599627370496

def pageToPte (q : Nat) : Nat := q * 1024 % 18446744073709551616

def Ram.pte (r : Ram) (q i : Nat) : Nat := r.byte.dword (512 * q + i)

def Ram.table (r : Ram) : Nat → Nat → Nat := fun q i => if i < 512 then r.pte q i else 0

def readPte (q i : Nat) : Kmem Nat := read fun r => r.pte q i

def Ram.setPte (r : Ram) (q i pte : Nat) : Ram := { r with byte := r.byte.setDword (512 * q + i) pte }

def writePte (q i pte : Nat) : Kmem Unit := change fun r => r.setPte q i pte

def Ram.fillPage (r : Ram) (q : Nat) (b : UInt8) : Ram := { r with byte := r.byte.fill (q * PGSIZE) PGSIZE b }

def fillPage (q : Nat) (b : UInt8) : Kmem Unit := change fun r => r.fillPage q b

def memmove (dst src n : Nat) : Kmem Unit := change fun r => { r with byte := r.byte.move dst src n }

def kfree (lay : Layout) (q : Nat) : Kmem Unit :=
  if q < lay.lo ∨ phystopPage ≤ q then halt "kfree"
  else change fun r => { r.fillPage q 1 with free := q :: r.free }

def kalloc : Kmem (Option Nat) := fun r =>
  let r' := { r with fails := fun n => r.fails (n + 1) }
  if r.fails 0 then .ok (none, r')
  else
    match r.free with
    | [] => .ok (none, r')
    | q :: rest => .ok (some q, { r'.fillPage q 5 with free := rest })

/-- One level of `walk`: the next table, allocated when asked for. -/
def walkStep (table i : Nat) (alloc : Bool) : Kmem (Option Nat) := do
  let pte ← readPte table i
  if has pte PTE_V then ret (some (pteToPage pte))
  else if alloc then
    match ← kalloc with
    | none => ret none
    | some q => do
      fillPage q 0
      writePte table i (pageToPte q ||| PTE_V)
      ret (some q)
  else ret none

/-- The page and index of the entry for a virtual address. -/
def walk (pagetable va : Nat) (alloc : Bool) : Kmem (Option (Nat × Nat)) :=
  if MAXVA ≤ va then halt "walk"
  else do
    match ← walkStep pagetable (px 2 va) alloc with
    | none => ret none
    | some t1 =>
      match ← walkStep t1 (px 1 va) alloc with
      | none => ret none
      | some t0 => ret (some (t0, px 0 va))

/-- The physical address of a page, or 0. -/
def walkaddr (pagetable va : Nat) : Kmem Nat :=
  if MAXVA ≤ va then ret 0
  else do
    match ← walk pagetable va false with
    | none => ret 0
    | some (q, k) => do
      let pte ← readPte q k
      if has pte PTE_V = false then ret 0
      else if has pte PTE_U = false then ret 0
      else ret (pteToPage pte * PGSIZE)

/-- An address that never meets `last` ends in the panic of `walk`. -/
def mappagesLoop (pagetable last perm : Nat) : Nat → Nat → Nat → Kmem Bool
  | 0, _, _ => halt "walk"
  | fuel + 1, a, pa => do
    match ← walk pagetable a true with
    | none => ret false
    | some (q, k) => do
      let pte ← readPte q k
      if has pte PTE_V then halt "mappages: remap"
      else do
        writePte q k (pageToPte pa ||| perm ||| PTE_V)
        if a = last then ret true
        else mappagesLoop pagetable last perm fuel (a + PGSIZE) (nextPpn pa)

def mappages (pagetable va size pa perm : Nat) : Kmem Bool :=
  if size = 0 then halt "mappages: size"
  else mappagesLoop pagetable (pgrounddown ((va + size - 1) % 18446744073709551616)) perm (MAXVA / PGSIZE + 2)
    (pgrounddown va) pa

theorem mappages_page {d va pa perm : Nat} (ha : va % 4096 = 0) (hva : va < 18446744073709551616) :
    mappages d va PGSIZE pa perm = (do
      match ← walk d va true with
      | none => ret false
      | some (q, k) => do
        let pte ← readPte q k
        if has pte PTE_V then halt "mappages: remap"
        else do
          writePte q k (pageToPte pa ||| perm ||| PTE_V)
          ret true) := by
  have hdown : Vm.pgrounddown va = va := by
    unfold Vm.pgrounddown
    omega
  have hlast : Vm.pgrounddown ((va + PGSIZE - 1) % 18446744073709551616) = va := by
    unfold Vm.pgrounddown PGSIZE
    omega
  unfold mappages
  rw [if_neg (by decide), hdown, hlast, mappagesLoop]
  simp only [if_true]

def unmapPage (lay : Layout) (pagetable a : Nat) (doFree : Bool) : Kmem Unit := do
  match ← walk pagetable a false with
  | none => halt "uvmunmap: walk"
  | some (q, k) => do
    let pte ← readPte q k
    if has pte PTE_V = false then halt "uvmunmap: not mapped"
    else if pteFlags pte = PTE_V then halt "uvmunmap: not a leaf"
    else do
      when doFree (kfree lay (pteToPage pte))
      writePte q k 0

def uvmunmap (lay : Layout) (pagetable va npages : Nat) (doFree : Bool) : Kmem Unit :=
  if va % PGSIZE ≠ 0 then halt "uvmunmap: not aligned"
  else loop (unmapRounds va npages) fun i => unmapPage lay pagetable (va + i * PGSIZE) doFree

def uvmcreate : Kmem (Option Nat) := do
  match ← kalloc with
  | none => ret none
  | some q => do
    fillPage q 0
    ret (some q)

def uvmdealloc (lay : Layout) (pagetable oldsz newsz : Nat) : Kmem Nat :=
  if oldsz ≤ newsz then ret oldsz
  else if pgroundup newsz < pgroundup oldsz then do
    uvmunmap lay pagetable (pgroundup newsz) ((pgroundup oldsz - pgroundup newsz) / PGSIZE) true
    ret newsz
  else ret newsz

def userPerm : Nat := PTE_W ||| PTE_X ||| PTE_R ||| PTE_U

def uvmallocLoop (lay : Layout) (pagetable oldsz newsz : Nat) : Nat → Nat → Kmem Nat
  | 0, _ => ret newsz
  | n + 1, a => do
    match ← kalloc with
    | none => do
      let _ ← uvmdealloc lay pagetable a oldsz
      ret 0
    | some mem => do
      fillPage mem 0
      if ← mappages pagetable a PGSIZE mem userPerm then
        uvmallocLoop lay pagetable oldsz newsz n (a + PGSIZE)
      else do
        kfree lay mem
        let _ ← uvmdealloc lay pagetable a oldsz
        ret 0

def uvmalloc (lay : Layout) (pagetable oldsz newsz : Nat) : Kmem Nat :=
  if newsz < oldsz then ret oldsz
  else
    let oldsz := pgroundup oldsz
    uvmallocLoop lay pagetable oldsz newsz ((newsz - oldsz + 4095) / PGSIZE) oldsz

def freewalkEntry (free : Nat → Kmem Unit) (pagetable i : Nat) : Kmem Unit := do
  let pte ← readPte pagetable i
  if has pte PTE_V ∧ (has pte PTE_R || has pte PTE_W || has pte PTE_X) = false then do
    free (pteToPage pte)
    writePte pagetable i 0
  else if has pte PTE_V then halt "freewalk: leaf"
  else ret ()

/-- A table with `level` levels, its own included. -/
def freewalk (lay : Layout) : Nat → Nat → Kmem Unit
  | 0, _ => halt "freewalk: level"
  | level + 1, pagetable => do
    loop 512 (freewalkEntry (freewalk lay level) pagetable)
    kfree lay pagetable

def uvmfree (lay : Layout) (pagetable sz : Nat) : Kmem Unit := do
  when (sz > 0) (uvmunmap lay pagetable 0 (pgroundup sz / PGSIZE) true)
  freewalk lay 3 pagetable

def uvmcopyLoop (lay : Layout) (old new : Nat) : Nat → Nat → Kmem Bool
  | 0, _ => ret true
  | n + 1, i => do
    match ← walk old i false with
    | none => halt "uvmcopy: pte should exist"
    | some (q, k) => do
      let pte ← readPte q k
      if has pte PTE_V = false then halt "uvmcopy: page not present"
      else
        match ← kalloc with
        | none => do
          uvmunmap lay new 0 (i / PGSIZE) true
          ret false
        | some mem => do
          memmove (mem * PGSIZE) (pteToPage pte * PGSIZE) PGSIZE
          if ← mappages new i PGSIZE mem (pteFlags pte) then uvmcopyLoop lay old new n (i + PGSIZE)
          else do
            kfree lay mem
            uvmunmap lay new 0 (i / PGSIZE) true
            ret false

def uvmcopy (lay : Layout) (old new sz : Nat) : Kmem Bool :=
  uvmcopyLoop lay old new ((sz + 4095) / PGSIZE) 0

def uvmclear (pagetable va : Nat) : Kmem Unit := do
  match ← walk pagetable va false with
  | none => halt "uvmclear"
  | some (q, k) => do
    let pte ← readPte q k
    writePte q k (if has pte PTE_U then pte - PTE_U else pte)

def nextPage (va0 : Nat) : Nat := (va0 + PGSIZE) % 18446744073709551616

/-- For at most as many rounds as the fuel; false is -1. -/
def copyoutLoop (pagetable : Nat) : Nat → Nat → Nat → Nat → Kmem Bool
  | 0, _, _, _ => halt "copyout: running"
  | fuel + 1, dstva, src, len =>
    if 0 < len then do
      let va0 := pgrounddown dstva
      let pa0 ← walkaddr pagetable va0
      if pa0 = 0 then ret false
      else do
        let n := PGSIZE - (dstva - va0)
        let n := if len < n then len else n
        memmove (pa0 + (dstva - va0)) src n
        copyoutLoop pagetable fuel (nextPage va0) (src + n) (len - n)
    else ret true

def copyout (pagetable dstva src len : Nat) : Kmem Bool := copyoutLoop pagetable (len + 1) dstva src len

def copyinLoop (pagetable : Nat) : Nat → Nat → Nat → Nat → Kmem Bool
  | 0, _, _, _ => halt "copyin: running"
  | fuel + 1, dst, srcva, len =>
    if 0 < len then do
      let va0 := pgrounddown srcva
      let pa0 ← walkaddr pagetable va0
      if pa0 = 0 then ret false
      else do
        let n := PGSIZE - (srcva - va0)
        let n := if len < n then len else n
        memmove dst (pa0 + (srcva - va0)) n
        copyinLoop pagetable fuel (dst + n) (nextPage va0) (len - n)
    else ret true

def copyin (pagetable dst srcva len : Nat) : Kmem Bool := copyinLoop pagetable (len + 1) dst srcva len

def storeByte (a : Nat) (b : UInt8) : Kmem Unit := change fun r =>
  { r with byte := fun i => if i = a then b else r.byte i }

/-- The inner loop of `copyinstr`: whether it met the null byte, and where it stands. -/
def copyinstrPage : Nat → Nat → Nat → Kmem (Bool × Nat)
  | 0, _, dst => ret (false, dst)
  | n + 1, p, dst => do
    let ch ← read fun r => r.byte p
    if ch = 0 then do
      storeByte dst 0
      ret (true, dst)
    else do
      storeByte dst ch
      copyinstrPage n (p + 1) (dst + 1)

def copyinstrLoop (pagetable : Nat) : Nat → Nat → Nat → Nat → Kmem Bool
  | 0, _, _, _ => halt "copyinstr: running"
  | fuel + 1, dst, srcva, max =>
    if 0 < max then do
      let va0 := pgrounddown srcva
      let pa0 ← walkaddr pagetable va0
      if pa0 = 0 then ret false
      else do
        let n := PGSIZE - (srcva - va0)
        let n := if max < n then max else n
        let q ← copyinstrPage n (pa0 + (srcva - va0)) dst
        if q.1 then ret true
        else copyinstrLoop pagetable fuel q.2 (nextPage va0) (max - n)
    else ret false

def copyinstr (pagetable dst srcva max : Nat) : Kmem Bool := copyinstrLoop pagetable (max + 1) dst srcva max

def procPagetable (lay : Layout) (trapframe : Nat) : Kmem (Option Nat) := do
  match ← uvmcreate with
  | none => ret none
  | some pagetable =>
    if ← mappages pagetable TRAMPOLINE PGSIZE lay.tramp (PTE_R ||| PTE_X) then
      if ← mappages pagetable TRAPFRAME PGSIZE trapframe (PTE_R ||| PTE_W) then
        ret (some pagetable)
      else do
        uvmunmap lay pagetable TRAMPOLINE 1 false
        uvmfree lay pagetable 0
        ret none
    else do
      uvmfree lay pagetable 0
      ret none

def procFreepagetable (lay : Layout) (pagetable sz : Nat) : Kmem Unit := do
  uvmunmap lay pagetable TRAMPOLINE 1 false
  uvmunmap lay pagetable TRAPFRAME 1 false
  uvmfree lay pagetable sz

theorem table_eq {r : Ram} {q i : Nat} (hi : i < 512) : r.table q i = r.pte q i := if_pos hi

theorem px_lt (l va : Nat) : px l va < 512 := by
  unfold px
  split <;> omega

end TweakedXv6.Phys
