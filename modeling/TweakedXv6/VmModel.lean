import TweakedXv6.Prog

namespace TweakedXv6.Vm

def PGSIZE : Nat := 4096

/-- One past the highest virtual address, `1L << 38`. -/
def MAXVA : Nat := 274877906944

def TRAMPOLINE : Nat := MAXVA - PGSIZE

def TRAPFRAME : Nat := TRAMPOLINE - PGSIZE

def kernbasePage : Nat := 0x80000

def phystopPage : Nat := 0x88000

def pgroundup (sz : Nat) : Nat := (sz + 4095) % 18446744073709551616 / 4096 * 4096

def pgrounddown (a : Nat) : Nat := a / 4096 * 4096

def px : Nat → Nat → Nat
  | 0, va => va / 4096 % 512
  | 1, va => va / 2097152 % 512
  | _, va => va / 1073741824 % 512

/-- The ten bits of `PTE_FLAGS`, of which `rest` are the upper five, and the page. -/
structure Pte where
  v : Bool
  r : Bool
  w : Bool
  x : Bool
  u : Bool
  rest : Fin 32
  ppn : Nat
  deriving DecidableEq, Repr

def Pte.zero : Pte := ⟨false, false, false, false, false, 0, 0⟩

def Pte.table (q : Nat) : Pte := ⟨true, false, false, false, false, 0, q⟩

/-- What an entry reads as when its page was filled with ones or fives. -/
def Pte.ones : Pte := ⟨true, false, false, false, false, 8, 70644700037184⟩

def Pte.fives : Pte := ⟨true, false, true, false, false, 8, 353223500185921⟩

/-- Where a kernel ends: the first page that the allocator manages, and the trampoline page. -/
structure Layout where
  lo : Nat
  tramp : Nat
  lo_ge : kernbasePage ≤ lo
  tramp_lt : tramp < lo

/-- The free list, the pages read as page tables, and whether the next calls of `kalloc` fail although
pages are left. -/
structure Mem where
  free : List Nat
  pte : Nat → Nat → Pte
  fails : Nat → Bool

abbrev VM := Prog Mem

open Prog

def readPte (q i : Nat) : VM Pte := read fun m => m.pte q i

def Mem.setPage (m : Mem) (q : Nat) (c : Nat → Pte) : Mem :=
  { m with pte := fun q' => if q' = q then c else m.pte q' }

def Mem.setPte (m : Mem) (q i : Nat) (e : Pte) : Mem :=
  m.setPage q fun i' => if i' = i then e else m.pte q i'

def writePte (q i : Nat) (e : Pte) : VM Unit := change fun m => m.setPte q i e

def writePage (q : Nat) (c : Nat → Pte) : VM Unit := change fun m => m.setPage q c

/-- Addresses are page numbers, so alignment needs no check. -/
def kfree (lay : Layout) (q : Nat) : VM Unit :=
  if q < lay.lo ∨ phystopPage ≤ q then halt "kfree"
  else change fun m => { m.setPage q fun _ => .ones with free := q :: m.free }

def kalloc : VM (Option Nat) := fun m =>
  let m' := { m with fails := fun n => m.fails (n + 1) }
  if m.fails 0 then .ok (none, m')
  else
    match m.free with
    | [] => .ok (none, m')
    | q :: rest => .ok (some q, { m'.setPage q fun _ => .fives with free := rest })

/-- One level of `walk`: the next table, allocated when asked for. -/
def walkStep (table i : Nat) (alloc : Bool) : VM (Option Nat) := do
  let pte ← readPte table i
  if pte.v then ret (some pte.ppn)
  else if alloc then
    match ← kalloc with
    | none => ret none
    | some q => do
      writePage q fun _ => .zero
      writePte table i (.table q)
      ret (some q)
  else ret none

/-- The page and index of the entry for a virtual address. -/
def walk (pagetable va : Nat) (alloc : Bool) : VM (Option (Nat × Nat)) :=
  if MAXVA ≤ va then halt "walk"
  else do
    match ← walkStep pagetable (px 2 va) alloc with
    | none => ret none
    | some t1 =>
      match ← walkStep t1 (px 1 va) alloc with
      | none => ret none
      | some t0 => ret (some (t0, px 0 va))

def walkaddr (pagetable va : Nat) : VM (Option Nat) :=
  if MAXVA ≤ va then ret none
  else do
    match ← walk pagetable va false with
    | none => ret none
    | some (q, k) => do
      let pte ← readPte q k
      if pte.v = false then ret none
      else if pte.u = false then ret none
      else ret (some pte.ppn)

def nextPpn (pa : Nat) : Nat := (pa + 1) % 4503599627370496

/-- From address `a` and page `pa` on. An address that never meets `last` ends in the panic of `walk`, so
the fuel of `mappages` is enough. -/
def mappagesLoop (pagetable last : Nat) (perm : Pte) : Nat → Nat → Nat → VM Bool
  | 0, _, _ => halt "walk"
  | fuel + 1, a, pa => do
    match ← walk pagetable a true with
    | none => ret false
    | some (q, k) => do
      let pte ← readPte q k
      if pte.v then halt "mappages: remap"
      else do
        writePte q k { perm with v := true, ppn := pa }
        if a = last then ret true
        else mappagesLoop pagetable last perm fuel (a + PGSIZE) (nextPpn pa)

/-- `perm` gives the flags, and the result is false for -1. -/
def mappages (pagetable va size pa : Nat) (perm : Pte) : VM Bool :=
  if size = 0 then halt "mappages: size"
  else mappagesLoop pagetable (pgrounddown ((va + size - 1) % 18446744073709551616)) perm (MAXVA / PGSIZE + 2)
    (pgrounddown va) pa

def unmapPage (lay : Layout) (pagetable a : Nat) (doFree : Bool) : VM Unit := do
  match ← walk pagetable a false with
  | none => halt "uvmunmap: walk"
  | some (q, k) => do
    let pte ← readPte q k
    if pte.v = false then halt "uvmunmap: not mapped"
    else if pte = .table pte.ppn then halt "uvmunmap: not a leaf"
    else do
      when doFree (kfree lay pte.ppn)
      writePte q k .zero

/-- The rounds of the loop in `uvmunmap`, whose bound can wrap around. -/
def unmapRounds (va npages : Nat) : Nat := ((va + npages * PGSIZE) % 18446744073709551616 - va) / PGSIZE

theorem unmapRounds_eq {va npages : Nat} (h : va + npages * PGSIZE < 18446744073709551616) :
    unmapRounds va npages = npages := by
  unfold unmapRounds PGSIZE at *
  omega

def uvmunmap (lay : Layout) (pagetable va npages : Nat) (doFree : Bool) : VM Unit :=
  if va % PGSIZE ≠ 0 then halt "uvmunmap: not aligned"
  else loop (unmapRounds va npages) fun i => unmapPage lay pagetable (va + i * PGSIZE) doFree

def uvmcreate : VM (Option Nat) := do
  match ← kalloc with
  | none => ret none
  | some q => do
    writePage q fun _ => .zero
    ret (some q)

def Pte.user : Pte := ⟨false, true, true, true, true, 0, 0⟩

/-- `PTE_R | PTE_X` and `PTE_R | PTE_W`, for the trampoline and the trapframe. -/
def Pte.rx : Pte := ⟨false, true, false, true, false, 0, 0⟩

def Pte.rw : Pte := ⟨false, true, true, false, false, 0, 0⟩

/-- The result of `mappages` is ignored; without a page, `memset` faults. -/
def uvminit (pagetable sz : Nat) (src : Nat → Pte) : VM Unit :=
  if PGSIZE ≤ sz then halt "inituvm: more than a page"
  else do
    match ← kalloc with
    | none => halt "kerneltrap"
    | some mem => do
      writePage mem fun _ => .zero
      let _ ← mappages pagetable 0 PGSIZE mem .user
      writePage mem src

def uvmdealloc (lay : Layout) (pagetable oldsz newsz : Nat) : VM Nat :=
  if oldsz ≤ newsz then ret oldsz
  else if pgroundup newsz < pgroundup oldsz then do
    uvmunmap lay pagetable (pgroundup newsz) ((pgroundup oldsz - pgroundup newsz) / PGSIZE) true
    ret newsz
  else ret newsz

def uvmallocLoop (lay : Layout) (pagetable oldsz newsz : Nat) : Nat → Nat → VM Nat
  | 0, _ => ret newsz
  | n + 1, a => do
    match ← kalloc with
    | none => do
      let _ ← uvmdealloc lay pagetable a oldsz
      ret 0
    | some mem => do
      writePage mem fun _ => .zero
      if ← mappages pagetable a PGSIZE mem .user then
        uvmallocLoop lay pagetable oldsz newsz n (a + PGSIZE)
      else do
        kfree lay mem
        let _ ← uvmdealloc lay pagetable a oldsz
        ret 0

def uvmalloc (lay : Layout) (pagetable oldsz newsz : Nat) : VM Nat :=
  if newsz < oldsz then ret oldsz
  else
    let oldsz := pgroundup oldsz
    uvmallocLoop lay pagetable oldsz newsz ((newsz - oldsz + 4095) / PGSIZE) oldsz

def freewalkEntry (free : Nat → VM Unit) (pagetable i : Nat) : VM Unit := do
  let pte ← readPte pagetable i
  if pte.v ∧ (pte.r || pte.w || pte.x) = false then do
    free pte.ppn
    writePte pagetable i .zero
  else if pte.v then halt "freewalk: leaf"
  else ret ()

/-- A table with `level` levels, its own included. -/
def freewalk (lay : Layout) : Nat → Nat → VM Unit
  | 0, _ => halt "freewalk: level"
  | level + 1, pagetable => do
    loop 512 (freewalkEntry (freewalk lay level) pagetable)
    kfree lay pagetable

def uvmfree (lay : Layout) (pagetable sz : Nat) : VM Unit := do
  when (sz > 0) (uvmunmap lay pagetable 0 (pgroundup sz / PGSIZE) true)
  freewalk lay 3 pagetable

def uvmcopyLoop (lay : Layout) (old new : Nat) : Nat → Nat → VM Bool
  | 0, _ => ret true
  | n + 1, i => do
    match ← walk old i false with
    | none => halt "uvmcopy: pte should exist"
    | some (q, k) => do
      let pte ← readPte q k
      if pte.v = false then halt "uvmcopy: page not present"
      else
        match ← kalloc with
        | none => do
          uvmunmap lay new 0 (i / PGSIZE) true
          ret false
        | some mem => do
          let data ← read fun m => m.pte pte.ppn
          writePage mem data
          if ← mappages new i PGSIZE mem pte then uvmcopyLoop lay old new n (i + PGSIZE)
          else do
            kfree lay mem
            uvmunmap lay new 0 (i / PGSIZE) true
            ret false

def uvmcopy (lay : Layout) (old new sz : Nat) : VM Bool :=
  uvmcopyLoop lay old new ((sz + 4095) / PGSIZE) 0

def uvmclear (pagetable va : Nat) : VM Unit := do
  match ← walk pagetable va false with
  | none => halt "uvmclear"
  | some (q, k) => do
    let pte ← readPte q k
    writePte q k { pte with u := false }

/-- Page by page; `src` is what a page reads as afterwards. -/
def copyout (pagetable : Nat) (src : Nat → Pte) : Nat → Nat → Nat → VM Bool
  | _, _, 0 => ret true
  | 0, _, _ => ret true
  | fuel + 1, dstva, len => do
    let va0 := pgrounddown dstva
    match ← walkaddr pagetable va0 with
    | none => ret false
    | some pa => do
      let n := min (PGSIZE - (dstva - va0)) len
      writePage pa src
      copyout pagetable src fuel (va0 + PGSIZE) (len - n)

/-- `n` pages from page `i` on; `readOk` says whether `readi` fills a page. -/
def loadsegLoop (pagetable va : Nat) (readOk : Nat → Bool) (src : Nat → Nat → Pte) : Nat → Nat → VM Bool
  | 0, _ => ret true
  | n + 1, i => do
    match ← walkaddr pagetable (va + i * PGSIZE) with
    | none => halt "loadseg: address should exist"
    | some pa => do
      writePage pa (src i)
      if readOk i then loadsegLoop pagetable va readOk src n (i + 1) else ret false

def loadseg (pagetable va sz : Nat) (readOk : Nat → Bool) (src : Nat → Nat → Pte) : VM Bool :=
  loadsegLoop pagetable va readOk src ((sz % 4294967296 + 4095) / PGSIZE) 0

def procPagetable (lay : Layout) (trapframe : Nat) : VM (Option Nat) := do
  match ← uvmcreate with
  | none => ret none
  | some pagetable =>
    if ← mappages pagetable TRAMPOLINE PGSIZE lay.tramp .rx then
      if ← mappages pagetable TRAPFRAME PGSIZE trapframe .rw then
        ret (some pagetable)
      else do
        uvmunmap lay pagetable TRAMPOLINE 1 false
        uvmfree lay pagetable 0
        ret none
    else do
      uvmfree lay pagetable 0
      ret none

def procFreepagetable (lay : Layout) (pagetable sz : Nat) : VM Unit := do
  uvmunmap lay pagetable TRAMPOLINE 1 false
  uvmunmap lay pagetable TRAPFRAME 1 false
  uvmfree lay pagetable sz

end TweakedXv6.Vm
