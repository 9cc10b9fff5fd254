import TweakedXv6.FsBlocks

namespace TweakedXv6.Fs

open Prog Files

def Dinode.content (d : Dinode) (blk : Nat → Bytes) : Bytes := fun o =>
  blk (d.slot blk (.index (o / BSIZE))) (o % BSIZE)

def Dinode.entry (d : Dinode) (blk : Nat → Bytes) (off : Nat) : Dirent := .ofBytes ((d.content blk).slice off DESIZE)

variable {sb : Superblock} {k : Fin NINODE} {s : Volume} {bn n m o tot off room fuel : Nat} {acc : List UInt8}
  {d : Dinode} {blk : Nat → Bytes} {p : Dirent → Bool} {msg : String}

theorem BSIZE_pos : 0 < BSIZE := by decide

theorem Slot.index_ne (bn : Nat) : Slot.index bn ≠ .addr NDIRECT := by
  unfold Slot.index
  split
  next h =>
    intro he
    cases he
    omega
  next => exact nofun

theorem Slot.index_inj {bn' : Nat} (h : Slot.index bn = .index bn') : bn = bn' := by
  unfold Slot.index at h
  split at h
  next h1 =>
    split at h
    next => exact Slot.addr.inj h
    next => cases h
  next h1 =>
    split at h
    next => cases h
    next h2 =>
      have := Slot.entry.inj h
      omega

def Whole.Range (d : Dinode) (blk : Nat → Bytes) (off n : Nat) : Prop :=
  ∀ o, off ≤ o → o < off + n → d.slot blk (.index (o / BSIZE)) ≠ 0

theorem Whole.range (h : Whole d blk n) (hle : off + m ≤ n) : Range d blk off m := by
  intro o _ hlt
  refine h (o / BSIZE) ?_
  have := Nat.div_mul_le_self o BSIZE
  omega

theorem bmap_there (h : (s.inode k).copy.slot s.block (.index bn) ≠ 0) :
    bmap sb k bn s = .ok ((s.inode k).copy.slot s.block (.index bn), s) := by
  unfold bmap
  split
  next hlt =>
    have hslot : (s.inode k).copy.slot s.block (.index bn) = (s.inode k).copy.addrs bn := by
      rw [Slot.index, if_pos hlt, Dinode.slot, if_pos (Nat.le_of_lt hlt)]
    rw [hslot] at h ⊢
    rw [addrAlloc, run_bind run_read, if_neg h]
    rfl
  next hlt =>
    rw [Slot.index, if_neg hlt, Dinode.slot] at h ⊢
    split at h
    next hind =>
      have ha : addrAlloc sb k NDIRECT s = .ok ((s.inode k).copy.addrs NDIRECT, s) := by
        rw [addrAlloc, run_bind run_read, if_neg hind.2]
        rfl
      rw [if_pos hind, if_pos hind.1, run_bind ha, run_bind run_read, if_neg h]
      rfl
    next => exact absurd rfl h

theorem slice_content (h : o % BSIZE + m ≤ BSIZE) :
    (blk (d.slot blk (.index (o / BSIZE)))).slice (o % BSIZE) m = (d.content blk).slice o m := by
  refine List.map_congr_left fun i hi => ?_
  have hi := List.mem_range.mp hi
  have hB : BSIZE = 1024 := rfl
  have hdiv : (o + i) / BSIZE = o / BSIZE := by
    rw [hB] at h ⊢
    omega
  have hmod : (o + i) % BSIZE = o % BSIZE + i := by
    rw [hB] at h ⊢
    omega
  rw [Dinode.content, hdiv, hmod]

theorem slice_add {c : Bytes} : c.slice o (n + m) = c.slice o n ++ c.slice (o + n) m := by
  simp [Bytes.slice, List.range_add, Nat.add_assoc]

theorem readLoop_there (sb : Superblock) (room : Nat) (acc : List UInt8) (hfuel : n - tot ≤ fuel)
    (hwhole : Whole.Range (s.inode k).copy s.block off (n - tot)) :
    ∃ r, readLoop sb k n room fuel tot off acc s = .ok (r, s) ∧
      (n ≤ room → r = some (acc ++ ((s.inode k).copy.content s.block).slice off (n - tot))) := by
  induction fuel generalizing tot off acc with
  | zero =>
    have hz : n - tot = 0 := by omega
    exact ⟨some acc, rfl, fun _ => by simp [hz, Bytes.slice]⟩
  | succ fuel ih =>
    unfold readLoop
    split
    next hlt =>
      have hmod := Nat.mod_lt off BSIZE_pos
      have hthere := hwhole off (Nat.le_refl _) (by omega)
      rw [run_bind (bmap_there hthere)]
      generalize hm : min (n - tot) (BSIZE - off % BSIZE) = m
      have hpos : 0 < m := by omega
      by_cases hroom : room < tot + m
      · rw [if_pos hroom]
        exact ⟨none, rfl, fun hle => by omega⟩
      · rw [if_neg hroom, run_bind run_read, slice_content (by omega)]
        obtain ⟨r, hr, hres⟩ := @ih (tot + m) (off + m)
          (acc ++ ((s.inode k).copy.content s.block).slice off m) (by omega)
          fun o hlo hhi => hwhole o (by omega) (by omega)
        refine ⟨r, hr, fun hle => ?_⟩
        rw [hres hle, show n - tot = m + (n - (tot + m)) by omega, slice_add, List.append_assoc]
    next hlt =>
      have hz : n - tot = 0 := by omega
      exact ⟨some acc, rfl, fun _ => by simp [hz, Bytes.slice]⟩

/-- The bytes that `readi` gives: none when the sum of its 32-bit arguments wraps around. -/
def readCount (size off n : Nat) : Nat :=
  if size < off ∨ (off + n) % 4294967296 < off then 0 else min n (size - off)

theorem readi_there (sb : Superblock) (room : Nat)
    (hwhole : Whole.Range (s.inode k).copy s.block off (readCount (s.inode k).copy.size off n)) :
    ∃ r, readi sb k off n room s = .ok (r, s) ∧ (readCount (s.inode k).copy.size off n ≤ room →
      r = some (((s.inode k).copy.content s.block).slice off (readCount (s.inode k).copy.size off n))) := by
  unfold readi
  rw [run_bind run_read]
  unfold readCount at hwhole ⊢
  split
  next => exact ⟨some [], rfl, fun _ => rfl⟩
  next hcond =>
    rw [if_neg hcond] at hwhole
    have hcount : (if (s.inode k).copy.size < off + n then (s.inode k).copy.size - off else n) =
        min n ((s.inode k).copy.size - off) := by
      split <;> omega
    dsimp only
    rw [hcount]
    obtain ⟨r, hr, hres⟩ := readLoop_there sb room [] (Nat.le_refl (_ - 0)) hwhole
    exact ⟨r, hr, hres⟩

theorem readi_entry (sb : Superblock) (hlt : off + DESIZE ≤ (s.inode k).copy.size) (hsize : (s.inode k).copy.size < 4294967296)
    (hwhole : Whole.Range (s.inode k).copy s.block off DESIZE) :
    readi sb k off DESIZE DESIZE s = .ok (some (((s.inode k).copy.content s.block).slice off DESIZE), s) := by
  have hcount : readCount (s.inode k).copy.size off DESIZE = DESIZE := by
    unfold readCount
    rw [if_neg (by omega), Nat.min_eq_left (by omega)]
  obtain ⟨r, hr, hres⟩ := readi_there sb DESIZE (hcount ▸ hwhole)
  rw [hr, hres (Nat.le_of_eq hcount), hcount]

theorem dirScan_finds {e : Nat} (hfuel : e < fuel) (hsize : (s.inode k).copy.size < 4294967296)
    (hlt : off + DESIZE * e + DESIZE ≤ (s.inode k).copy.size)
    (hwhole : Whole.Range (s.inode k).copy s.block off (DESIZE * e + DESIZE))
    (hbefore : ∀ i, i < e → p ((s.inode k).copy.entry s.block (off + DESIZE * i)) = false)
    (hat : p ((s.inode k).copy.entry s.block (off + DESIZE * e)) = true) : dirScan sb k msg p fuel off s =
      .ok (some (off + DESIZE * e, (s.inode k).copy.entry s.block (off + DESIZE * e)), s) := by
  induction e generalizing off fuel with
  | zero =>
    obtain ⟨fuel, rfl⟩ := Nat.exists_eq_succ_of_ne_zero (Nat.ne_of_gt hfuel)
    have hread := readi_entry sb (by omega) hsize hwhole
    have hpos : off < (s.inode k).copy.size := by
      have : DESIZE = 16 := rfl
      omega
    unfold dirScan
    rw [run_bind run_read, if_pos hpos, run_bind hread, Nat.mul_zero, Nat.add_zero]
    rw [Nat.mul_zero, Nat.add_zero] at hat
    simp only [Bytes.slice_length, ne_eq, not_true_eq_false, if_false]
    rw [show Dirent.ofBytes _ = (s.inode k).copy.entry s.block off from rfl, if_pos hat]
    rfl
  | succ e ih =>
    obtain ⟨fuel, rfl⟩ := Nat.exists_eq_succ_of_ne_zero (Nat.ne_of_gt (Nat.lt_of_le_of_lt (Nat.zero_le _) hfuel))
    have hD : DESIZE = 16 := rfl
    have hmul : DESIZE * (e + 1) = DESIZE * e + DESIZE := Nat.mul_succ ..
    have hread := readi_entry sb (by omega) hsize
      fun o hlo hhi => hwhole o hlo (by omega)
    have hfirst := hbefore 0 (by omega)
    rw [Nat.mul_zero, Nat.add_zero] at hfirst
    have hshift : ∀ i, off + DESIZE + DESIZE * i = off + DESIZE * (i + 1) := by
      intro i
      rw [Nat.mul_succ]
      omega
    have hrest := @ih (off + DESIZE) fuel (by omega) (by omega)
      (fun o hlo hhi => hwhole o (by omega) (by omega))
      (fun i hi => by rw [hshift]; exact hbefore (i + 1) (by omega)) (by rw [hshift]; exact hat)
    rw [hshift] at hrest
    have hpos : off < (s.inode k).copy.size := by omega
    unfold dirScan
    rw [run_bind run_read, if_pos hpos, run_bind hread, ← hrest]
    simp only [Bytes.slice_length, ne_eq, not_true_eq_false, if_false]
    rw [show Dirent.ofBytes _ = (s.inode k).copy.entry s.block off from rfl, hfirst]
    rfl

end TweakedXv6.Fs
