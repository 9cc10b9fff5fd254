import TweakedXv6.FsFile
import TweakedXv6.Traced
import TweakedXv6.UserMem

namespace TweakedXv6.Fs.Trans

open Files Traced User

/-- The functions of a transaction, with the block numbers that they pass to `log_write`. -/
abbrev LogFS := Traced Nat Volume

structure Layout where
  inodestart : Nat
  bmapstart : Nat

def BPB : Nat := BSIZE * 8

def IPB : Nat := BSIZE / 64

variable (L : Layout) (sb : Superblock)

def BBLOCK (b : Nat) : Nat := b / BPB + L.bmapstart

def IBLOCK (i : Nat) : Nat := i / IPB + L.inodestart

def logWrite (b : Nat) : LogFS Unit := emit b

def bzero (bno : Nat) : LogFS Unit := do
  quiet (Prog.change fun s => s.setBlock bno fun _ => 0)
  logWrite bno

def balloc : LogFS Nat := do
  match ← quiet (Prog.read fun s => (List.range sb.size).find? fun b => s.bit b = false) with
  | none => quiet (Prog.halt "balloc: out of blocks")
  | some b => do
    quiet (Prog.change fun s => { s with bit := Function.update s.bit b true })
    logWrite (BBLOCK L b)
    bzero b
    Traced.ret b

/-- `if((addr = ip->addrs[i]) == 0) ip->addrs[i] = addr = balloc(ip->dev);` -/
def addrAlloc (k : Fin NINODE) (i : Nat) : LogFS Nat := do
  let a ← quiet (Prog.read fun s => (s.inode k).copy.addrs i)
  if a = 0 then do
    let b ← balloc L sb
    quiet (edit k fun d => { d with addrs := Function.update d.addrs i b })
    Traced.ret b
  else Traced.ret a

def bmap (k : Fin NINODE) (bn : Nat) : LogFS Nat :=
  if bn < NDIRECT then addrAlloc L sb k bn
  else if bn - NDIRECT < NINDIRECT then do
    let a ← addrAlloc L sb k NDIRECT
    let w ← quiet (Prog.read fun s => (s.block a).word (bn - NDIRECT))
    if w = 0 then do
      let b ← balloc L sb
      quiet (Prog.change fun s => s.setBlock a ((s.block a).setWord (bn - NDIRECT) b))
      logWrite a
      Traced.ret b
    else Traced.ret w
  else quiet (Prog.halt "bmap: out of range")

def iupdate (k : Fin NINODE) : LogFS Unit := do
  let v ← quiet (Prog.read fun s => s.inode k)
  quiet (Fs.iupdate k)
  logWrite (IBLOCK L v.inum)

/-- From user address `src`: the block is not logged if `copyin` fails. -/
def writeLoop (k : Fin NINODE) (pt : Pages) (mem : Nat → UInt8) (src n : Nat) : Nat → Nat → Nat → LogFS (Nat × Nat)
  | 0, tot, off => Traced.ret (tot, off)
  | fuel + 1, tot, off =>
    if tot < n then do
      let b ← bmap L sb k (off / BSIZE)
      let m := min (n - tot) (BSIZE - off % BSIZE)
      let r := copyin pt mem (src + tot) m
      quiet (Prog.change fun s => s.setBlock b ((s.block b).write (off % BSIZE) r.1))
      if r.2 = false then Traced.ret (tot, off)
      else do
        logWrite b
        writeLoop k pt mem src n fuel (tot + m) (off + m)
    else Traced.ret (tot, off)

def writei (k : Fin NINODE) (pt : Pages) (mem : Nat → UInt8) (src off n : Nat) : LogFS (Option Nat) := do
  let v ← quiet (Prog.read fun s => (s.inode k).copy)
  if v.size < off ∨ (off + n) % 4294967296 < off then Traced.ret none
  else if MAXFILE * BSIZE < off + n then Traced.ret none
  else do
    let r ← writeLoop L sb k pt mem src n n 0 off
    quiet (edit k fun d => if d.size < r.2 then { d with size := r.2 } else d)
    iupdate L k
    Traced.ret (some r.1)

variable {L : Layout} {sb : Superblock} {k : Fin NINODE} {pt : Pages} {mem : Nat → UInt8}
  {a b bn i n off src tot fuel : Nat} {s t : Volume}

theorem erase_balloc : erase (balloc L sb) = Fs.balloc sb := by
  funext s
  unfold balloc Fs.balloc
  rw [erase_quiet_bind, Prog.run_bind Prog.run_read, Prog.run_bind Prog.run_read]
  cases (List.range sb.size).find? fun b => s.bit b = false <;> rfl

theorem erase_addrAlloc : erase (addrAlloc L sb k i) = Fs.addrAlloc sb k i := by
  funext s
  unfold addrAlloc Fs.addrAlloc
  rw [erase_quiet_bind, Prog.run_bind Prog.run_read, Prog.run_bind Prog.run_read]
  split
  next =>
    rw [erase_bind, erase_balloc]
    rfl
  next => rfl

theorem erase_bmap : erase (bmap L sb k bn) = Fs.bmap sb k bn := by
  unfold bmap Fs.bmap
  split
  next => exact erase_addrAlloc
  next =>
    split
    next =>
      rw [erase_bind, erase_addrAlloc]
      congr 1
      funext a s
      rw [erase_quiet_bind, Prog.run_bind Prog.run_read, Prog.run_bind Prog.run_read]
      split
      next =>
        rw [erase_bind, erase_balloc]
        rfl
      next => rfl
    next => rfl

theorem copyin_chunk {m : Nat} (htot : tot ≤ reach pt src n) (hm : tot + m ≤ n) :
    copyin pt mem (src + tot) m = (((loads pt mem src (reach pt src n)).drop tot).take m,
      decide (tot + m ≤ reach pt src n)) := by
  obtain ⟨hsplit, hmin⟩ := reach_chunk htot hm
  have hdone : min m (reach pt (src + tot) (n - tot)) = m ↔ tot + m ≤ tot + reach pt (src + tot) (n - tot) := by omega
  rw [copyin_eq, hmin, hsplit, loads_add, List.drop_left' loads_length, loads_take, decide_eq_decide.mpr hdone]

theorem erase_writeLoop (hfuel : n - tot ≤ fuel) (htn : tot ≤ n) (htot : tot ≤ reach pt src n) :
    erase (writeLoop L sb k pt mem src n fuel tot off) =
      Fs.writeLoop sb k (loads pt mem src (reach pt src n)) n fuel tot off := by
  induction fuel generalizing tot off with
  | zero => rfl
  | succ fuel ih =>
    unfold writeLoop Fs.writeLoop
    split
    next hlt =>
      rw [erase_bind, erase_bmap]
      congr 1
      funext b
      generalize hm : min (n - tot) (BSIZE - off % BSIZE) = m
      have hmod := Nat.mod_lt off BSIZE_pos
      dsimp only
      rw [copyin_chunk htot (by omega), erase_quiet_bind, loads_length]
      congr 1
      funext _
      dsimp only
      by_cases hle : tot + m ≤ reach pt src n
      · rw [if_neg (by simpa using hle), if_neg (by omega), logWrite, erase_emit_bind]
        exact ih (by omega) (by omega) hle
      · rw [if_pos (by simpa using hle), if_pos (by omega)]
        rfl
    next => rfl

theorem erase_writei : erase (writei L sb k pt mem src off n) =
    Fs.writei sb k (loads pt mem src (reach pt src n)) off n := by
  unfold writei Fs.writei
  rw [erase_quiet_bind]
  congr 1
  funext v
  split
  next => rfl
  next =>
    split
    next => rfl
    next =>
      rw [erase_bind, erase_writeLoop (by omega) (Nat.zero_le _) (Nat.zero_le _)]
      rfl

theorem balloc_ends : Ends (balloc L sb) s (· = []) fun l b t =>
    l = [BBLOCK L b, b] ∧ s.bit b = false ∧ b < sb.size ∧ t.bit = Function.update s.bit b true ∧
      t.inode = s.inode := by
  unfold balloc
  rw [ends_quiet_bind Prog.run_read]
  cases hfind : (List.range sb.size).find? fun b => s.bit b = false with
  | none => exact ends_halt.mpr rfl
  | some b =>
    refine ⟨rfl, by simpa using List.find?_some hfind, ?_, rfl, rfl⟩
    exact List.mem_range.mp (List.mem_of_find?_eq_some hfind)

theorem addrAlloc_ends : Ends (addrAlloc L sb k a) s (· = []) fun l c t =>
    (t.inode k).copy.addrs = Function.update (s.inode k).copy.addrs a c ∧
      ((s.inode k).copy.addrs a ≠ 0 ∧ c = (s.inode k).copy.addrs a ∧ l = [] ∧ t = s ∨
        (s.inode k).copy.addrs a = 0 ∧ l = [BBLOCK L c, c] ∧ s.bit c = false ∧ c < sb.size ∧
          t.bit = Function.update s.bit c true) := by
  unfold addrAlloc
  rw [ends_quiet_bind Prog.run_read]
  by_cases ha : (s.inode k).copy.addrs a = 0
  · rw [if_pos ha]
    refine Ends.bind balloc_ends fun l b t hbt => ?_
    obtain ⟨rfl, hb, hlt, hbit, hinode⟩ := hbt
    rw [edit, ends_quiet_bind Prog.run_change, ends_ret]
    refine ⟨?_, .inr ⟨ha, rfl, hb, hlt, hbit⟩⟩
    dsimp only [Volume.setInode]
    rw [Function.update_self, hinode]
  · rw [if_neg ha]
    exact ⟨by rw [Function.update_eq_self], .inl ⟨ha, rfl, rfl, rfl⟩⟩

end TweakedXv6.Fs.Trans
