import TweakedXv6.FsImage

namespace TweakedXv6.Mkfs

open Prog Fs

def NINODES : Nat := 200

def FSSIZE : Nat := 1000

def LOGSIZE : Nat := 30

def nbitmap : Nat := FSSIZE / (BSIZE * 8) + 1

def ninodeblocks : Nat := NINODES / IPB + 1

def nlog : Nat := LOGSIZE

/-- Boot block, super block, log, inode blocks and bitmap. -/
def nmeta : Nat := 2 + nlog + ninodeblocks + nbitmap

def nblocks : Nat := FSSIZE - nmeta

def logstart : Nat := 2

def inodestart : Nat := 2 + nlog

def bmapstart : Nat := 2 + nlog + ninodeblocks

/-- The image file with its number of sectors, and the next inode and block to use. -/
structure Disk where
  sect : Nat → Bytes
  len : Nat
  freeinode : Nat
  freeblock : Nat

abbrev Mk := Prog Disk

def wsect (sec : Nat) (buf : Bytes) : Mk Unit :=
  change fun s => { s with sect := Function.update s.sect sec buf, len := max s.len (sec + 1) }

/-- A sector past the end of the file cannot be read. -/
def rsect (sec : Nat) : Mk Bytes := do
  let s ← read id
  if sec < s.len then ret (s.sect sec) else halt "read"

def winode (inum : Nat) (din : Dinode) : Mk Unit := do
  let buf ← rsect (inum / IPB + inodestart)
  wsect (inum / IPB + inodestart) (setDinode buf (inum % IPB) din)

def rinode (inum : Nat) : Mk Dinode := do
  let buf ← rsect (inum / IPB + inodestart)
  ret (dinodeAt buf (inum % IPB))

def ialloc (type : IType) : Mk Nat := do
  let inum ← read Disk.freeinode
  change fun s => { s with freeinode := s.freeinode + 1 }
  winode inum { type := type, nlink := 1 }
  ret inum

def bitmap : Nat → Bytes
  | 0 => fun _ => 0
  | i + 1 => Function.update (bitmap i) (i / 8) (bitmap i (i / 8) ||| 1 <<< UInt8.ofNat (i % 8))

def balloc (used : Nat) : Mk Unit :=
  if used < BSIZE * 8 then wsect bmapstart (bitmap used) else halt "assert"

def nextBlock : Mk Nat := do
  let b ← read Disk.freeblock
  change fun s => { s with freeblock := s.freeblock + 1 }
  ret b

/-- `if(din.addrs[i] == 0) din.addrs[i] = freeblock++;` -/
def addrAlloc (din : Dinode) (i : Nat) : Mk Dinode :=
  if din.addrs i = 0 then do
    let b ← nextBlock
    ret { din with addrs := Function.update din.addrs i b }
  else ret din

def fileBlock (din : Dinode) (fbn : Nat) : Mk (Dinode × Nat) :=
  if fbn < NDIRECT then do
    let din ← addrAlloc din fbn
    ret (din, din.addrs fbn)
  else do
    let din ← addrAlloc din NDIRECT
    let indirect ← rsect (din.addrs NDIRECT)
    if indirect.word (fbn - NDIRECT) = 0 then do
      let b ← nextBlock
      wsect (din.addrs NDIRECT) (indirect.setWord (fbn - NDIRECT) b)
      ret (din, b)
    else ret (din, indirect.word (fbn - NDIRECT))

def iappendLoop : Nat → Dinode → Nat → List UInt8 → Mk (Dinode × Nat)
  | 0, din, off, _ => ret (din, off)
  | fuel + 1, din, off, p =>
    if p = [] then ret (din, off)
    else if MAXFILE ≤ off / BSIZE then halt "assert"
    else do
      let r ← fileBlock din (off / BSIZE)
      let n1 := min p.length ((off / BSIZE + 1) * BSIZE - off)
      let buf ← rsect r.2
      wsect r.2 (buf.write (off - off / BSIZE * BSIZE) (p.take n1))
      iappendLoop fuel r.1 (off + n1) (p.drop n1)

def iappend (inum : Nat) (p : List UInt8) : Mk Unit := do
  let din ← rinode inum
  let r ← iappendLoop p.length din din.size p
  winode inum { r.1 with size := r.2 }

/-- What one `read` of a file gives. -/
structure Chunk where
  bytes : List UInt8
  pos : bytes ≠ []
  le : bytes.length ≤ BSIZE

/-- A file name of the command line, and the chunks in which the file is read; `none` if it cannot be
opened. -/
structure Arg where
  path : List UInt8
  string : 0 ∉ path
  chunks : Option (List Chunk)

def userdir : List UInt8 := [117, 115, 101, 114, 47]

def underscore : UInt8 := 95

def Arg.shortname (a : Arg) : List UInt8 := if a.path.take 5 = userdir then a.path.drop 5 else a.path

/-- The name in the file system, without a leading `_`. -/
def Arg.name (a : Arg) : List UInt8 := if a.shortname.head? = some underscore then a.shortname.tail else a.shortname

def addFile (rootino : Nat) (a : Arg) : Mk Unit :=
  if slash ∈ a.shortname then halt "assert"
  else
    match a.chunks with
    | none => halt "open"
    | some chunks => do
      let inum ← ialloc .file
      iappend rootino (direntBytes inum a.name)
      each chunks fun c => iappend inum c.bytes

def superblock : Bytes := fun i =>
  Bytes.wordByte ([FSMAGIC, FSSIZE, nblocks, NINODES, nlog, logstart, inodestart, bmapstart].getD (i / 4) 0) (i % 4)

def main (argv : List Arg) : Mk Unit := do
  loop FSSIZE fun i => wsect i fun _ => 0
  wsect 1 superblock
  let rootino ← ialloc .dir
  if rootino ≠ ROOTINO then halt "assert"
  else do
    iappend rootino (direntBytes rootino dot)
    iappend rootino (direntBytes rootino dotdot)
    each argv (addFile rootino)
    let din ← rinode rootino
    winode rootino { din with size := (din.size / BSIZE + 1) * BSIZE }
    let used ← read Disk.freeblock
    balloc used

/-- The image written for the files of the command line, if it does not stop with an error. -/
def mkfs (argv : List Arg) : Option (Nat → Bytes) :=
  match main argv { sect := fun _ _ => 0, len := 0, freeinode := 1, freeblock := nmeta } with
  | .ok (_, s) => some s.sect
  | .error _ => none

end TweakedXv6.Mkfs
