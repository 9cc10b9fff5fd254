import TweakedXv6.Bytes
import TweakedXv6.FileTable

namespace TweakedXv6.Fs

open Prog Files
open Function (update)

def BSIZE : Nat := 1024

def NDIRECT : Nat := 12

def NINDIRECT : Nat := 256

def MAXFILE : Nat := NDIRECT + NINDIRECT

def DIRSIZ : Nat := 14

def ROOTDEV : Nat := 1

def ROOTINO : Nat := 1

inductive IType
  | free
  | dir
  | file
  | device
  deriving DecidableEq, Repr

/-- The `nblocks` last blocks are the data blocks. -/
structure Superblock where
  size : Nat
  nblocks : Nat
  ninodes : Nat
  start : nblocks < size
  size_le : size ≤ 4294967296
  ninodes_le : ninodes ≤ 65536

/-- The `short` fields are integers from -32768 to 32767. -/
structure Dinode where
  type : IType := .free
  major : Int := 0
  minor : Int := 0
  nlink : Int := 0
  size : Nat := 0
  addrs : Nat → Nat := fun _ => 0

structure Inode where
  dev : Nat := 0
  inum : Nat := 0
  ref : Int := 0
  valid : Bool := false
  copy : Dinode := {}

/-- The disk as the buffer cache shows it, and the inode table: the bitmap, the inodes, the contents of
the blocks. -/
structure Volume where
  bit : Nat → Bool
  dinode : Nat → Dinode
  block : Nat → Bytes
  inode : Fin NINODE → Inode

abbrev FS := Prog Volume

def short (x : Int) : Int := Int.bmod x 65536

def Volume.setBlock (s : Volume) (b : Nat) (c : Bytes) : Volume := { s with block := update s.block b c }

def Volume.setInode (s : Volume) (k : Fin NINODE) (v : Inode) : Volume := { s with inode := update s.inode k v }

def edit (k : Fin NINODE) (f : Dinode → Dinode) : FS Unit :=
  change fun s => s.setInode k { s.inode k with copy := f (s.inode k).copy }

variable (sb : Superblock)

def balloc : FS Nat := do
  match ← read fun s => (List.range sb.size).find? fun b => s.bit b = false with
  | none => halt "balloc: out of blocks"
  | some b => do
    change fun s => { s with bit := update s.bit b true }
    change fun s => s.setBlock b fun _ => 0
    ret b

def bfree (b : Nat) : FS Unit := do
  let bit ← read fun s => s.bit b
  if bit = false then halt "freeing free block"
  else change fun s => { s with bit := update s.bit b false }

/-- The inode in the table, or the first entry without references. -/
def iget (dev inum : Nat) : FS (Fin NINODE) := do
  match ← read fun s => (List.finRange NINODE).find? fun k =>
      0 < (s.inode k).ref ∧ (s.inode k).dev = dev ∧ (s.inode k).inum = inum with
  | some k => do
    change fun s => s.setInode k { s.inode k with ref := (s.inode k).ref + 1 }
    ret k
  | none =>
    match ← read fun s => (List.finRange NINODE).find? fun k => (s.inode k).ref = 0 with
    | none => halt "iget: no inodes"
    | some k => do
      change fun s => s.setInode k { s.inode k with dev := dev, inum := inum, ref := 1, valid := false }
      ret k

def idup (k : Fin NINODE) : FS Unit :=
  change fun s => s.setInode k { s.inode k with ref := (s.inode k).ref + 1 }

def ialloc (dev : Nat) (type : IType) : FS (Fin NINODE) := do
  match ← read fun s => (List.range sb.ninodes).find? fun i => i ≠ 0 ∧ (s.dinode i).type = .free with
  | none => halt "ialloc: no inodes"
  | some i => do
    change fun s => { s with dinode := update s.dinode i { type := type } }
    iget dev i

def iupdate (k : Fin NINODE) : FS Unit :=
  change fun s => { s with dinode := update s.dinode (s.inode k).inum (s.inode k).copy }

/-- Without the lock: the inode is read from the disk if that has not been done. -/
def ilock (k : Fin NINODE) : FS Unit := do
  let v ← read fun s => s.inode k
  if v.ref < 1 then halt "ilock"
  else when (v.valid = false) do
    change fun s => s.setInode k { v with copy := s.dinode v.inum, valid := true }
    let d ← read fun s => s.dinode v.inum
    when (d.type = .free) (halt "ilock: no type")

/-- The direct blocks, the blocks of the indirect block, and the indirect block. -/
def itrunc (k : Fin NINODE) : FS Unit := do
  loop NDIRECT fun i => do
    let a ← read fun s => (s.inode k).copy.addrs i
    when (a ≠ 0) do
      bfree a
      edit k fun d => { d with addrs := update d.addrs i 0 }
  let a ← read fun s => (s.inode k).copy.addrs NDIRECT
  when (a ≠ 0) do
    loop NINDIRECT fun j => do
      let w ← read fun s => (s.block a).word j
      when (w ≠ 0) (bfree w)
    bfree a
    edit k fun d => { d with addrs := update d.addrs NDIRECT 0 }
  edit k fun d => { d with size := 0 }
  iupdate k

/-- The last reference to an inode without links frees it. -/
def iput (k : Fin NINODE) : FS Unit := do
  let v ← read fun s => s.inode k
  when (v.ref = 1 ∧ v.valid = true ∧ v.copy.nlink = 0) do
    itrunc k
    edit k fun d => { d with type := .free }
    iupdate k
    change fun s => s.setInode k { s.inode k with valid := false }
  change fun s => s.setInode k { s.inode k with ref := (s.inode k).ref - 1 }

/-- `if((addr = ip->addrs[i]) == 0) ip->addrs[i] = addr = balloc(ip->dev);` -/
def addrAlloc (k : Fin NINODE) (i : Nat) : FS Nat := do
  let a ← read fun s => (s.inode k).copy.addrs i
  if a = 0 then do
    let b ← balloc sb
    edit k fun d => { d with addrs := update d.addrs i b }
    ret b
  else ret a

/-- The block with index `bn`, allocated if there is none. -/
def bmap (k : Fin NINODE) (bn : Nat) : FS Nat :=
  if bn < NDIRECT then addrAlloc sb k bn
  else if bn - NDIRECT < NINDIRECT then do
    let a ← addrAlloc sb k NDIRECT
    let w ← read fun s => (s.block a).word (bn - NDIRECT)
    if w = 0 then do
      let b ← balloc sb
      change fun s => s.setBlock a ((s.block a).setWord (bn - NDIRECT) b)
      ret b
    else ret w
  else halt "bmap: out of range"

/-- The loop of `readi`, up to the number of rounds given. The user's memory takes `room` bytes. -/
def readLoop (k : Fin NINODE) (n room : Nat) : Nat → Nat → Nat → List UInt8 → FS (Option (List UInt8))
  | 0, _, _, acc => ret (some acc)
  | fuel + 1, tot, off, acc =>
    if tot < n then do
      let b ← bmap sb k (off / BSIZE)
      let m := min (n - tot) (BSIZE - off % BSIZE)
      if room < tot + m then ret none
      else do
        let c ← read fun s => s.block b
        readLoop k n room fuel (tot + m) (off + m) (acc ++ c.slice (off % BSIZE) m)
    else ret (some acc)

/-- The bytes read, or `none` for -1. -/
def readi (k : Fin NINODE) (off n room : Nat) : FS (Option (List UInt8)) := do
  let v ← read fun s => (s.inode k).copy
  if v.size < off ∨ (off + n) % 4294967296 < off then ret (some [])
  else
    let n := if v.size < off + n then v.size - off else n
    readLoop sb k n room n 0 off []

/-- Of the `n` bytes the first `src.length` can be read; `copyin` fails in the middle of a block after it
has copied what it could. -/
def writeLoop (k : Fin NINODE) (src : List UInt8) (n : Nat) : Nat → Nat → Nat → FS (Nat × Nat)
  | 0, tot, off => ret (tot, off)
  | fuel + 1, tot, off =>
    if tot < n then do
      let b ← bmap sb k (off / BSIZE)
      let m := min (n - tot) (BSIZE - off % BSIZE)
      change fun s => s.setBlock b ((s.block b).write (off % BSIZE) ((src.drop tot).take m))
      if src.length < tot + m then ret (tot, off)
      else writeLoop k src n fuel (tot + m) (off + m)
    else ret (tot, off)

/-- The number of bytes written, or `none` for -1. -/
def writei (k : Fin NINODE) (src : List UInt8) (off n : Nat) : FS (Option Nat) := do
  let v ← read fun s => (s.inode k).copy
  if v.size < off ∨ (off + n) % 4294967296 < off then ret none
  else if MAXFILE * BSIZE < off + n then ret none
  else do
    let r ← writeLoop sb k src n n 0 off
    edit k fun d => if d.size < r.2 then { d with size := r.2 } else d
    iupdate k
    ret (some r.1)

structure Dirent where
  inum : Nat
  name : List UInt8

def Dirent.ofBytes (bs : List UInt8) : Dirent := ⟨(bs.getD 0 0).toNat + 256 * (bs.getD 1 0).toNat, bs.drop 2⟩

/-- The name is cut or filled up to `DIRSIZ` bytes as by `strncpy`. -/
def direntBytes (inum : Nat) (name : List UInt8) : List UInt8 :=
  UInt8.ofNat inum :: UInt8.ofNat (inum / 256) ::
    (name.take DIRSIZ ++ List.replicate (DIRSIZ - name.length) 0)

def cstr (name : List UInt8) : List UInt8 := (name.take DIRSIZ).takeWhile (· ≠ 0)

def namecmp (a b : List UInt8) : Bool := cstr a = cstr b

def DESIZE : Nat := 16

/-- The first entry from `off` on that `p` accepts. -/
def dirScan (k : Fin NINODE) (msg : String) (p : Dirent → Bool) : Nat → Nat → FS (Option (Nat × Dirent))
  | 0, _ => ret none
  | fuel + 1, off => do
    let v ← read fun s => (s.inode k).copy
    if off < v.size then do
      match ← readi sb k off DESIZE DESIZE with
      | none => halt msg
      | some bs =>
        if bs.length ≠ DESIZE then halt msg
        else if p (.ofBytes bs) then ret (some (off, .ofBytes bs))
        else dirScan k msg p fuel (off + DESIZE)
    else ret none

def dirFind (k : Fin NINODE) (msg : String) (off : Nat) (p : Dirent → Bool) : FS (Option (Nat × Dirent)) := do
  let v ← read fun s => (s.inode k).copy
  dirScan sb k msg p (v.size / DESIZE + 1) off

def dirlookup (dp : Fin NINODE) (name : List UInt8) : FS (Option (Fin NINODE × Nat)) := do
  let v ← read fun s => s.inode dp
  if v.copy.type ≠ .dir then halt "dirlookup not DIR"
  else do
    match ← dirFind sb dp "dirlookup read" 0 fun de => de.inum ≠ 0 ∧ namecmp name de.name with
    | none => ret none
    | some (off, de) => do
      let ip ← iget v.dev de.inum
      ret (some (ip, off))

def dirlink (dp : Fin NINODE) (name : List UInt8) (inum : Nat) : FS Bool := do
  match ← dirlookup sb dp name with
  | some (ip, _) => do
    iput ip
    ret false
  | none => do
    let v ← read fun s => (s.inode dp).copy
    let e ← dirFind sb dp "dirlink read" 0 fun de => de.inum = 0
    let off := (e.map Prod.fst).getD ((v.size + DESIZE - 1) / DESIZE * DESIZE)
    let r ← writei sb dp (direntBytes inum name) off DESIZE
    if r ≠ some DESIZE then halt "dirlink" else ret true

def isdirempty (dp : Fin NINODE) : FS Bool := do
  let e ← dirFind sb dp "isdirempty: readi" (2 * DESIZE) fun de => de.inum ≠ 0
  ret e.isNone

def slash : UInt8 := 47

def dot : List UInt8 := [46]

def dotdot : List UInt8 := [46, 46]

/-- The next element of a path, and the rest without leading slashes. -/
def skipelem (path : List UInt8) : Option (List UInt8 × List UInt8) :=
  let p := path.dropWhile (· = slash)
  if p = [] then none
  else some ((p.takeWhile (· ≠ slash)).take DIRSIZ, (p.dropWhile (· ≠ slash)).dropWhile (· = slash))

/-- At most as many rounds as the path has bytes. -/
def namexLoop (parent : Bool) : Nat → Fin NINODE → List UInt8 → FS (Option (Fin NINODE × List UInt8))
  | 0, _, _ => halt "namex"
  | fuel + 1, ip, path =>
    match skipelem path with
    | none =>
      if parent then do
        iput ip
        ret none
      else ret (some (ip, []))
    | some (name, rest) => do
      ilock ip
      let v ← read fun s => (s.inode ip).copy
      if v.type ≠ .dir then do
        iput ip
        ret none
      else if parent = true ∧ rest = [] then ret (some (ip, name))
      else do
        match ← dirlookup sb ip name with
        | none => do
          iput ip
          ret none
        | some (next, _) => do
          iput ip
          namexLoop parent fuel next rest

def namex (cwd : Fin NINODE) (parent : Bool) (path : List UInt8) : FS (Option (Fin NINODE × List UInt8)) :=
  if path.head? = some slash then do
    let ip ← iget ROOTDEV ROOTINO
    namexLoop sb parent (path.length + 1) ip path
  else do
    idup cwd
    namexLoop sb parent (path.length + 1) cwd path

def namei (cwd : Fin NINODE) (path : List UInt8) : FS (Option (Fin NINODE)) := do
  let r ← namex sb cwd false path
  ret (r.map Prod.fst)

def nameiparent (cwd : Fin NINODE) (path : List UInt8) : FS (Option (Fin NINODE × List UInt8)) :=
  namex sb cwd true path

/-- The entries `.` and `..` of a new directory, and the link count of its parent. -/
def createDots (dp ip : Fin NINODE) : FS Unit := do
  edit dp fun d => { d with nlink := short (d.nlink + 1) }
  iupdate dp
  let i ← read fun s => (s.inode ip).inum
  let j ← read fun s => (s.inode dp).inum
  if ← dirlink sb ip dot i then
    if ← dirlink sb ip dotdot j then ret ()
    else halt "create dots"
  else halt "create dots"

/-- `create` without an entry for the name: a new inode and its entry in `dp`. -/
def createNew (dp : Fin NINODE) (name : List UInt8) (type : IType) (major minor : Int) : FS (Option (Fin NINODE)) := do
  let v ← read fun s => s.inode dp
  let ip ← ialloc sb v.dev type
  ilock ip
  edit ip fun d => { d with major := major, minor := minor, nlink := 1 }
  iupdate ip
  when (type = .dir) (createDots sb dp ip)
  let i ← read fun s => (s.inode ip).inum
  if ← dirlink sb dp name i then do
    iput dp
    ret (some ip)
  else halt "create: dirlink"

def create (cwd : Fin NINODE) (path : List UInt8) (type : IType) (major minor : Int) : FS (Option (Fin NINODE)) := do
  match ← nameiparent sb cwd path with
  | none => ret none
  | some (dp, name) => do
    ilock dp
    match ← dirlookup sb dp name with
    | some (ip, _) => do
      iput dp
      ilock ip
      let v ← read fun s => (s.inode ip).copy
      if type = .file ∧ (v.type = .file ∨ v.type = .device) then ret (some ip)
      else do
        iput ip
        ret none
    | none => createNew sb dp name type (short major) (short minor)

/-- `sys_mkdir` and `sys_mknod` create and drop the reference. -/
def mknode (cwd : Fin NINODE) (path : List UInt8) (type : IType) (major minor : Int) : FS Bool := do
  match ← create sb cwd path type major minor with
  | none => ret false
  | some ip => do
    iput ip
    ret true

/-- The end of `sys_link` when the link cannot be made. -/
def unlinkBack (ip : Fin NINODE) : FS Bool := do
  ilock ip
  edit ip fun d => { d with nlink := short (d.nlink - 1) }
  iupdate ip
  iput ip
  ret false

def link (cwd : Fin NINODE) (old new : List UInt8) : FS Bool := do
  match ← namei sb cwd old with
  | none => ret false
  | some ip => do
    ilock ip
    let v ← read fun s => s.inode ip
    if v.copy.type = .dir then do
      iput ip
      ret false
    else do
      edit ip fun d => { d with nlink := short (d.nlink + 1) }
      iupdate ip
      match ← nameiparent sb cwd new with
      | none => unlinkBack ip
      | some (dp, name) => do
        ilock dp
        let d ← read fun s => s.inode dp
        if d.dev ≠ v.dev then do
          iput dp
          unlinkBack ip
        else if ← dirlink sb dp name v.inum then do
          iput dp
          iput ip
          ret true
        else do
          iput dp
          unlinkBack ip

/-- `sys_unlink` after the checks: the entry at `off` is cleared. -/
def unlinkEntry (dp ip : Fin NINODE) (off : Nat) : FS Bool := do
  let r ← writei sb dp (List.replicate DESIZE 0) off DESIZE
  if r ≠ some DESIZE then halt "unlink: writei"
  else do
    let v ← read fun s => (s.inode ip).copy
    when (v.type = .dir) do
      edit dp fun d => { d with nlink := short (d.nlink - 1) }
      iupdate dp
    iput dp
    edit ip fun d => { d with nlink := short (d.nlink - 1) }
    iupdate ip
    iput ip
    ret true

def unlinkName (dp : Fin NINODE) (name : List UInt8) : FS Bool := do
  if namecmp name dot ∨ namecmp name dotdot then do
    iput dp
    ret false
  else do
    match ← dirlookup sb dp name with
    | none => do
      iput dp
      ret false
    | some (ip, off) => do
      ilock ip
      let v ← read fun s => (s.inode ip).copy
      if v.nlink < 1 then halt "unlink: nlink < 1"
      else if v.type = .dir then do
        if ← isdirempty sb ip then unlinkEntry sb dp ip off
        else do
          iput ip
          iput dp
          ret false
      else unlinkEntry sb dp ip off

def unlink (cwd : Fin NINODE) (path : List UInt8) : FS Bool := do
  match ← nameiparent sb cwd path with
  | none => ret false
  | some (dp, name) => do
    ilock dp
    unlinkName sb dp name

end TweakedXv6.Fs
