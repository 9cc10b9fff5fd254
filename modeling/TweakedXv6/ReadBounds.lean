import TweakedXv6.FileIo
import TweakedXv6.FsWriteFail

namespace TweakedXv6.Reads

open Prog Files User Fs Fs.Trans

def PIPESIZE : Nat := 512

structure Pipe where
  data : Nat → UInt8
  nread : UInt32
  nwrite : UInt32

/-- The second loop of `piperead`: the bytes counted, the bytes stored in user memory, and the pipe. -/
def pipereadLoop (pt : Pages) (addr : Nat) (n : Int) : Nat → Nat → Pipe → Nat × Stores × Pipe
  | 0, i, pi => (i, [], pi)
  | fuel + 1, i, pi =>
    if (i : Int) < n then
      if pi.nread = pi.nwrite then (i, [], pi)
      else
        let ch := pi.data (pi.nread.toNat % PIPESIZE)
        let pi := { pi with nread := pi.nread + 1 }
        let r := copyout pt (addr + i) [ch]
        if r.2 = false then (i, r.1, pi)
        else
          let q := pipereadLoop pt addr n fuel (i + 1) pi
          (q.1, r.1 ++ q.2.1, q.2.2)
    else (i, [], pi)

/-- The input as it comes: a character, or none if the reader is found killed while it waits. The reader
is still asleep when the input ends. -/
def consolereadLoop (pt : Pages) (target : Int) : List (Option UInt8) → Nat → Int → Option (Int × Stores)
  | input, dst, n =>
    if 0 < n then
      match input with
      | [] => none
      | none :: _ => some (-1, [])
      | some c :: input =>
        if c = 4 then some (target - n, [])
        else
          let r := copyout pt dst [c]
          if r.2 = false then some (target - n, r.1)
          else if c = 10 then some (target - (n - 1), r.1)
          else (consolereadLoop pt target input (dst + 1) (n - 1)).map fun q => (q.1, r.1 ++ q.2)
    else some (target - n, [])

/-- The loop of `readi` to user address `dst`; none is -1. -/
def readLoop (sb : Superblock) (k : Fin NINODE) (pt : Pages) (n : Nat) :
    Nat → Nat → Nat → Nat → FS (Option Nat × Stores)
  | 0, tot, _, _ => ret (some tot, [])
  | fuel + 1, tot, off, dst =>
    if tot < n then do
      let b ← bmap sb k (off / BSIZE)
      let m := min (n - tot) (BSIZE - off % BSIZE)
      let c ← read fun s => s.block b
      let r := copyout pt dst (c.slice (off % BSIZE) m)
      if r.2 = false then ret (none, r.1)
      else do
        let q ← readLoop sb k pt n fuel (tot + m) (off + m) (dst + m)
        ret (q.1, r.1 ++ q.2)
    else ret (some tot, [])

def readi (sb : Superblock) (k : Fin NINODE) (pt : Pages) (dst off n : Nat) : FS (Option Nat × Stores) := do
  let v ← read fun s => (s.inode k).copy
  if v.size < off ∨ (off + n) % 4294967296 < off then ret (some 0, [])
  else
    let n := if v.size < off + n then v.size - off else n
    readLoop sb k pt n n 0 off dst

/-- A pipe as it is after the reader has waited, or none if the reader was killed there; the console with
its input; an inode. -/
inductive Backend
  | pipe (pi : Option Pipe)
  | console (input : List (Option UInt8))
  | inode (k : Fin NINODE)

structure Outcome where
  ret : Int
  stored : Stores

def sint (x : Nat) : Int := Int.bmod x 4294967296

/-- Of a readable file; none if the reader is still asleep. -/
def fileread (sb : Superblock) (f : Backend) (off : Nat) (pt : Pages) (addr : Nat) (n : Int) : FS (Option Outcome) :=
  match f with
  | .pipe none => ret (some ⟨-1, []⟩)
  | .pipe (some pi) =>
    let q := pipereadLoop pt addr n n.toNat 0 pi
    ret (some ⟨q.1, q.2.1⟩)
  | .console input => ret ((consolereadLoop pt n input addr n).map fun q => ⟨q.1, q.2⟩)
  | .inode k => do
    ilock k
    let q ← readi sb k pt addr off (toUint n)
    ret (some ⟨(q.1.map sint).getD (-1), q.2⟩)

/-- At most `n` bytes are stored, and the value returned is -1 or a number of at most `n` bytes. -/
def Bounded (n : Int) (r : Outcome) : Prop :=
  (r.stored.length : Int) ≤ max n 0 ∧ (r.ret = -1 ∨ 0 ≤ r.ret ∧ r.ret ≤ max n 0)

def loaded (s : Volume) (k : Fin NINODE) : Dinode :=
  if (s.inode k).valid then (s.inode k).copy else s.dinode (s.inode k).inum

/-- For an inode `n` is not negative; or the offset plus `n` is not below 0, or the offset is not below
the size, or nothing can be stored at the address. -/
def Meant (s : Volume) (f : Backend) (off : Nat) (pt : Pages) (addr : Nat) (n : Int) : Prop :=
  ∀ k, f = .inode k → 0 ≤ n ∨ 0 ≤ off + n ∨ (loaded s k).size ≤ off ∨ pt (pgrounddown addr) = none

variable {sb : Superblock} {k : Fin NINODE} {pt : Pages} {s t : Volume} {addr off dst i m n tot fuel : Nat} {c : UInt8}

theorem copyout_one : copyout pt addr [c] =
    if pt (pgrounddown addr) = none then ([], false) else ([(translate pt addr, c)], true) := by
  rw [copyout_eq]
  cases hmap : pt (pgrounddown addr) with
  | none =>
    rw [reach_unmapped hmap]
    rfl
  | some pa =>
    have hreach : reach pt addr 1 = 1 := by
      rw [reach, hmap]
      rfl
    rw [List.length_singleton, hreach]
    rfl

theorem copyout_one_length : (copyout pt addr [c]).1.length ≤ 1 := by
  rw [copyout_one]
  split <;> simp

theorem copyout_one_fails (h : (copyout pt addr [c]).2 = false) : (copyout pt addr [c]).1 = [] := by
  rw [copyout_one] at h ⊢
  split at h
  next hmap => rw [if_pos hmap]
  next => cases h

theorem pipereadLoop_bound {n : Int} {pi : Pipe} (hi : (i : Int) ≤ max n 0) :
    ((pipereadLoop pt addr n fuel i pi).2.1.length : Int) + i ≤ max n 0 ∧
      ((pipereadLoop pt addr n fuel i pi).1 : Int) ≤ max n 0 := by
  induction fuel generalizing i pi with
  | zero =>
    rw [pipereadLoop]
    exact ⟨by simpa using hi, hi⟩
  | succ fuel ih =>
    unfold pipereadLoop
    split
    next hlt =>
      split
      next => exact ⟨by simpa using hi, hi⟩
      next =>
        dsimp only
        split
        next hfail =>
          rw [copyout_one_fails hfail]
          exact ⟨by simpa using hi, hi⟩
        next =>
          have hone : (copyout pt (addr + i) [pi.data (pi.nread.toNat % PIPESIZE)]).1.length ≤ 1 := copyout_one_length
          obtain ⟨hstored, hret⟩ := @ih (i + 1) { pi with nread := pi.nread + 1 } (by push_cast; omega)
          refine ⟨?_, hret⟩
          dsimp only
          rw [List.length_append]
          push_cast at hstored ⊢
          omega
    next => exact ⟨by simpa using hi, hi⟩

theorem consolereadLoop_bound {target n : Int} {input : List (Option UInt8)} {q : Int × Stores} (hn : n ≤ target)
    (h : consolereadLoop pt target input dst n = some q) :
    (q.2.length : Int) ≤ max n 0 ∧ (q.1 = -1 ∨ target - n ≤ q.1 ∧ q.1 ≤ target - n + max n 0) := by
  induction input generalizing dst n q with
  | nil =>
    unfold consolereadLoop at h
    split at h
    next => cases h
    next =>
      cases h
      simp
  | cons o input ih =>
    unfold consolereadLoop at h
    split at h
    next hpos =>
      cases o with
      | none =>
        cases h
        simp
      | some c =>
        have hone : (copyout pt dst [c]).1.length ≤ 1 := copyout_one_length
        dsimp only at h
        split at h
        next =>
          cases h
          simp
        next =>
          split at h
          next hfail =>
            cases h
            rw [copyout_one_fails hfail]
            simp
          next =>
            split at h
            next =>
              cases h
              dsimp only
              omega
            next =>
              obtain ⟨r, hr, rfl⟩ := Option.map_eq_some_iff.mp h
              obtain ⟨hstored, hret⟩ := ih (by omega) hr
              dsimp only
              rw [List.length_append]
              push_cast
              omega
    next =>
      cases h
      simp

theorem post_any {α : Type} {p : FS α} : Post (fun _ => True) p s fun _ _ => True := by
  unfold Post
  split <;> trivial

theorem copyout_length {src : List UInt8} : (copyout pt dst src).1.length = reach pt dst src.length := by
  have hle : reach pt dst src.length ≤ src.length := reach_le
  rw [copyout_eq, List.length_take, stores_length, Nat.min_eq_left hle]

theorem readLoop_bound (htot : tot ≤ n) : Post (fun _ => True) (readLoop sb k pt n fuel tot off dst) s fun q _ =>
    q.2.length + tot ≤ n ∧ ∀ r, q.1 = some r → r ≤ n := by
  induction fuel generalizing s tot off dst with
  | zero =>
    refine ⟨by simpa using htot, fun r hr => ?_⟩
    cases hr
    exact htot
  | succ fuel ih =>
    unfold readLoop
    split
    next hlt =>
      refine Post.bind post_any fun b t _ => ?_
      rw [post_read_bind]
      generalize hm : min (n - tot) (BSIZE - off % BSIZE) = m
      have hlen : (copyout pt dst ((t.block b).slice (off % BSIZE) m)).1.length ≤ m := by
        rw [copyout_length, Bytes.slice_length]
        exact reach_le
      dsimp only
      split
      next => exact ⟨by dsimp only; omega, fun r hr => by cases hr⟩
      next =>
        refine Post.bind (ih (by omega)) fun q u hq => ?_
        obtain ⟨hstored, hret⟩ := hq
        refine ⟨?_, hret⟩
        dsimp only
        rw [List.length_append]
        omega
    next =>
      refine ⟨by simpa using htot, fun r hr => ?_⟩
      cases hr
      exact htot

theorem readLoop_eq {N : Nat} {acc : List UInt8} (hN : n ≤ N) (htot : tot ≤ reach pt dst N) (hacc : acc.length = tot) :
    (readLoop sb k pt n fuel tot off (dst + tot) >>= fun q => ret q.1) =
      (Fs.readLoop sb k n (reach pt dst N) fuel tot off acc >>= fun r => ret (r.map List.length)) := by
  induction fuel generalizing tot off acc with
  | zero =>
    change ret (some tot) = ret (some acc.length)
    rw [hacc]
  | succ fuel ih =>
    unfold readLoop Fs.readLoop
    split
    next hlt =>
      rw [bind_assoc, bind_assoc]
      congr 1
      funext b
      generalize hm : min (n - tot) (BSIZE - off % BSIZE) = m
      obtain ⟨hsplit, hmin⟩ := reach_chunk htot (show tot + m ≤ N by omega)
      dsimp only
      by_cases hroom : reach pt dst N < tot + m
      · rw [if_pos hroom]
        funext s
        have hfail : (copyout pt (dst + tot) ((s.block b).slice (off % BSIZE) m)).2 = false := by
          rw [copyout_eq, Bytes.slice_length]
          exact decide_eq_false (by omega)
        rw [bind_assoc, run_bind run_read, if_pos hfail]
        rfl
      · rw [if_neg hroom]
        funext s
        have hok : ¬ (copyout pt (dst + tot) ((s.block b).slice (off % BSIZE) m)).2 = false := by
          rw [copyout_eq, Bytes.slice_length]
          simp only [decide_eq_false_iff_not]
          omega
        conv => rhs; rw [bind_assoc, run_bind run_read, ← ih (by omega) (by rw [List.length_append, Bytes.slice_length, hacc])]
        rw [bind_assoc, run_bind run_read, if_neg hok, bind_assoc, Nat.add_assoc]
        rfl
    next =>
      change ret (some tot) = ret (some acc.length)
      rw [hacc]

theorem readi_eq : (readi sb k pt dst off n >>= fun q => ret q.1) =
    (Fs.readi sb k off n (reach pt dst n) >>= fun r => ret (r.map List.length)) := by
  unfold readi Fs.readi
  rw [bind_assoc, bind_assoc]
  congr 1
  funext v
  split
  next => rfl
  next =>
    refine readLoop_eq ?_ (Nat.zero_le _) rfl
    split <;> omega

theorem readLoop_first (hlt : tot < n) : Post (fun _ => True) (readLoop sb k pt n (fuel + 1) tot off dst) s fun q _ =>
    (pt (pgrounddown dst) = none → q = (none, [])) ∧ (pt (pgrounddown dst) ≠ none → 0 < q.2.length) := by
  unfold readLoop
  rw [if_pos hlt]
  refine Post.bind post_any fun b t _ => ?_
  rw [post_read_bind]
  have hmod := Nat.mod_lt off BSIZE_pos
  generalize hm : min (n - tot) (BSIZE - off % BSIZE) = m
  have hpos : 0 < m := by omega
  have hreach : reach pt dst m = 0 ↔ pt (pgrounddown dst) = none := reach_eq_zero hpos
  have hlen : (copyout pt dst ((t.block b).slice (off % BSIZE) m)).1.length = reach pt dst m := by
    rw [copyout_length, Bytes.slice_length]
  have hok : (copyout pt dst ((t.block b).slice (off % BSIZE) m)).2 = decide (reach pt dst m = m) := by
    rw [copyout_eq, Bytes.slice_length]
  dsimp only
  split
  next =>
    refine ⟨fun hmap => ?_, fun hmap => ?_⟩
    · rw [hreach.mpr hmap] at hlen
      rw [List.length_eq_zero_iff.mp hlen]
    · dsimp only
      rw [hlen]
      exact Nat.pos_of_ne_zero fun hz => hmap (hreach.mp hz)
  next hdone =>
    refine Post.bind post_any fun q u _ => ⟨fun hmap => ?_, fun hmap => ?_⟩
    · rw [hok, hreach.mpr hmap] at hdone
      exact absurd (decide_eq_false (Nat.ne_of_lt hpos)) hdone
    · dsimp only
      rw [List.length_append, hlen]
      have : reach pt dst m ≠ 0 := fun hz => hmap (hreach.mp hz)
      omega

theorem ilock_loaded : Post (fun _ => True) (ilock k) s fun _ t => (t.inode k).copy = loaded s k := by
  unfold ilock loaded
  rw [post_read_bind]
  split
  next => trivial
  next =>
    unfold Prog.when
    split
    next hvalid =>
      rw [post_change_bind, post_read_bind, hvalid]
      split
      next => trivial
      next =>
        rw [post_ret]
        unfold Volume.setInode
        dsimp only
        rw [Function.update_self]
        rfl
    next hvalid =>
      rw [post_ret, if_pos (by simpa using hvalid)]

theorem readi_none (h : (s.inode k).copy.size ≤ off ∨ (off + n) % 4294967296 < off) :
    readi sb k pt dst off n s = .ok ((some 0, []), s) := by
  unfold readi
  rw [run_bind run_read]
  split
  next => rfl
  next hno =>
    have hz : (if (s.inode k).copy.size < off + n then (s.inode k).copy.size - off else n) = 0 := by
      split <;> omega
    dsimp only
    rw [hz]
    rfl

theorem readi_bound : Post (fun _ => True) (readi sb k pt dst off n) s fun q _ =>
    q.2.length ≤ n ∧ ∀ r, q.1 = some r → r ≤ n := by
  unfold readi
  rw [post_read_bind]
  split
  next => exact ⟨Nat.zero_le _, fun r hr => by cases Option.some.inj hr; exact Nat.zero_le _⟩
  next =>
    have hle : (if (s.inode k).copy.size < off + n then (s.inode k).copy.size - off else n) ≤ n := by
      split <;> omega
    refine (readLoop_bound (Nat.zero_le _)).mono fun q _ hq => ⟨by omega, fun r hr => ?_⟩
    exact Nat.le_trans (hq.2 r hr) hle

theorem readi_first (hsize : off < (s.inode k).copy.size) (hn : 0 < n) (hsum : off + n < 4294967296) :
    Post (fun _ => True) (readi sb k pt dst off n) s fun q _ =>
      (pt (pgrounddown dst) = none → q = (none, [])) ∧ (pt (pgrounddown dst) ≠ none → 0 < q.2.length) := by
  unfold readi
  rw [post_read_bind, if_neg (by omega)]
  dsimp only
  generalize hm : (if (s.inode k).copy.size < off + n then (s.inode k).copy.size - off else n) = m
  have hpos : 0 < m := by
    rw [← hm]
    split <;> omega
  obtain ⟨j, rfl⟩ := Nat.exists_eq_succ_of_ne_zero (Nat.ne_of_gt hpos)
  exact readLoop_first hpos

theorem meant_inode {n : Int} : Meant s (.inode k) off pt addr n ↔
    0 ≤ n ∨ 0 ≤ off + n ∨ (loaded s k).size ≤ off ∨ pt (pgrounddown addr) = none := by
  refine ⟨fun h => h k rfl, fun h k' hk => ?_⟩
  cases hk
  exact h

theorem bounded_zero {n : Int} : Bounded n ⟨0, []⟩ := by
  unfold Bounded
  simp

/-- `fileread` keeps to its bounds exactly if an inode's `n` is not negative, or nothing comes of it. -/
theorem fileread_bounded_iff (sb : Superblock) (f : Backend) (off : Nat) (pt : Pages) (addr : Nat) (n : Int)
    (s t : Volume) (r : Outcome) (hlo : -2147483648 ≤ n) (hhi : n ≤ 2147483647) (hoff : off < 4294967296)
    (hrun : fileread sb f off pt addr n s = .ok (some r, t)) : Bounded n r ↔ Meant s f off pt addr n := by
  cases f with
  | pipe pi =>
    have hmeant : Meant s (.pipe pi) off pt addr n := fun k hk => by cases hk
    refine iff_of_true ?_ hmeant
    cases pi with
    | none =>
      cases hrun
      exact ⟨by simp, .inl rfl⟩
    | some pi =>
      cases hrun
      have hbound : ((pipereadLoop pt addr n n.toNat 0 pi).2.1.length : Int) + (0 : Nat) ≤ max n 0 ∧
          ((pipereadLoop pt addr n n.toNat 0 pi).1 : Int) ≤ max n 0 := pipereadLoop_bound (by simp)
      exact ⟨by simpa using hbound.1, .inr ⟨by simp, hbound.2⟩⟩
  | console input =>
    have hmeant : Meant s (.console input) off pt addr n := fun k hk => by cases hk
    refine iff_of_true ?_ hmeant
    obtain ⟨hopt, rfl⟩ := Prod.mk.inj (Except.ok.inj hrun)
    obtain ⟨q, hq, rfl⟩ := Option.map_eq_some_iff.mp hopt
    obtain ⟨hstored, hret⟩ := consolereadLoop_bound (Int.le_refl n) hq
    exact ⟨hstored, by dsimp only; omega⟩
  | inode k =>
    obtain ⟨_, v, hv, hrest⟩ := bind_eq_ok hrun
    obtain ⟨q, u, hq, hret⟩ := bind_eq_ok hrest
    obtain ⟨hr, rfl⟩ := Prod.mk.inj (Except.ok.inj hret)
    cases hr
    have hcopy := ilock_loaded.of_eq hv
    have huint : (toUint n : Int) = if 0 ≤ n then n else n + 4294967296 := by
      unfold toUint
      split <;> omega
    rw [meant_inode, ← hcopy]
    by_cases hn : 0 ≤ n
    · rw [if_pos hn] at huint
      refine iff_of_true ?_ (.inl hn)
      obtain ⟨hstored, hle⟩ := readi_bound.of_eq hq
      refine ⟨by dsimp only; omega, ?_⟩
      cases hres : q.1 with
      | none => exact .inl rfl
      | some x =>
        have hx := hle x hres
        have hsint : sint x = x := Int.bmod_eq_of_le (by omega) (by omega)
        refine .inr ?_
        simp only [Option.map_some, Option.getD_some, hsint]
        omega
    · rw [if_neg hn] at huint
      by_cases hzero : 0 ≤ off + n ∨ (v.inode k).copy.size ≤ off
      · have hnone : (v.inode k).copy.size ≤ off ∨ (off + toUint n) % 4294967296 < off := by omega
        rw [readi_none hnone] at hq
        cases hq
        exact iff_of_true bounded_zero (by omega)
      · obtain ⟨hunmapped, hmapped⟩ := (readi_first (by omega) (by omega) (by omega)).of_eq hq
        by_cases hmap : pt (pgrounddown addr) = none
        · rw [hunmapped hmap]
          exact iff_of_true ⟨by simp, .inl rfl⟩ (.inr (.inr (.inr hmap)))
        · have hpos := hmapped hmap
          refine iff_of_false (fun hb => ?_) fun hc => ?_
          · have hstored := hb.1
            dsimp only at hstored
            omega
          · rcases hc with hc | hc | hc | hc
            · exact hn hc
            · exact hzero (.inl hc)
            · exact hzero (.inr hc)
            · exact hmap hc

theorem fileread_bounded_iff_console :
    ∃ r, fileread smallDisk (.console [some 104, some 105, some 10]) 0 (fun _ => some 65536) 0 2 emptyFile =
      .ok (some r, emptyFile) ∧ r.ret = 2 ∧ Bounded 2 r := by
  refine ⟨⟨2, [(65536, 104), (65537, 105)]⟩, rfl, rfl, ?_⟩
  refine (fileread_bounded_iff smallDisk (.console [some 104, some 105, some 10]) 0 (fun _ => some 65536) 0 2 emptyFile
    emptyFile _ (by decide) (by decide) (by decide) rfl).mpr fun k hk => ?_
  cases hk

/-- A file of two bytes is read with length -1: both are stored. -/
theorem fileread_negative :
    ∃ r, fileread oneDisk (.inode ⟨0, zero_lt_NINODE⟩) 0 (fun _ => some 65536) 0 (-1) oneBlock = .ok (some r, oneBlock) ∧
      r.ret = 2 ∧ r.stored.length = 2 := by
  have hread : Reads.readi oneDisk ⟨0, zero_lt_NINODE⟩ (fun _ => some 65536) 0 0 4294967295 oneBlock =
      .ok ((some 2, [(65536, 0), (65537, 0)]), oneBlock) := by
    have hsize : (oneBlock.inode ⟨0, zero_lt_NINODE⟩).copy.size = 2 := rfl
    rw [Reads.readi, run_bind run_read, hsize, if_neg (by decide), if_pos (by decide)]
    rfl
  refine ⟨⟨2, [(65536, 0), (65537, 0)]⟩, ?_, rfl, rfl⟩
  rw [fileread, run_bind (ilock_open ⟨by decide, rfl⟩), show toUint (-1) = 4294967295 by decide, run_bind hread]
  rfl

end TweakedXv6.Reads
