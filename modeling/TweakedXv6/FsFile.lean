import TweakedXv6.FsWrite

namespace TweakedXv6.Fs

open Prog Files

variable {sb : Superblock} {k : Fin NINODE} {s t : Volume} {i o off n room : Nat} {bs : List UInt8}

theorem content_eq_bytes (h : (s.inode k).copy.type ≠ .free)
    (hslot : (s.inode k).copy.slot s.block (.index (o / BSIZE)) ≠ 0) :
    (s.inode k).copy.content s.block o = bytes k s (s.inode k).inum o := by
  unfold bytes
  rw [places_self h, if_neg hslot]
  rfl

theorem readCount_le (size off n : Nat) : off ≤ size → off + readCount size off n ≤ size := by
  intro hle
  unfold readCount
  split <;> omega

theorem readi_bytes (h : (s.inode k).copy.type ≠ .free)
    (hwhole : Whole (s.inode k).copy s.block (s.inode k).copy.size)
    (hroom : readCount (s.inode k).copy.size off n ≤ room) : readi sb k off n room s =
      .ok (some ((bytes k s (s.inode k).inum).slice off (readCount (s.inode k).copy.size off n)), s) := by
  have hrange : Whole.Range (s.inode k).copy s.block off (readCount (s.inode k).copy.size off n) := by
    by_cases hle : off ≤ (s.inode k).copy.size
    · exact hwhole.range (readCount_le _ _ _ hle)
    · intro o hlo hhi
      rw [readCount, if_pos (.inl (by omega))] at hhi
      omega
  obtain ⟨r, hr, hres⟩ := readi_there sb room hrange
  rw [hr, hres hroom]
  congr 3
  exact Bytes.slice_congr fun o hlo hhi => content_eq_bytes h (hrange o hlo hhi)

theorem Wrote.whole (h : Wrote sb k off bs s t) (hused : (s.inode k).copy.type ≠ .free)
    (hwhole : Whole (s.inode k).copy s.block (s.inode k).copy.size) (hoff : off ≤ (s.inode k).copy.size)
    (hsize : (t.inode k).copy.size ≤ max (s.inode k).copy.size (off + bs.length)) :
    Whole (t.inode k).copy t.block (t.inode k).copy.size := by
  intro bn hbn
  rw [← places_self h.owned.used, h.inum]
  rcases Nat.lt_or_ge (bn * BSIZE) (s.inode k).copy.size with hlt | hge
  · have hold : places k s ((s.inode k).inum, .index bn) ≠ 0 := by
      rw [places_self hused]
      exact hwhole bn hlt
    rwa [h.slots _ hold]
  · have hthere := h.filled (bn * BSIZE) (by omega) (by omega)
    rwa [Nat.mul_div_cancel _ BSIZE_pos] at hthere

theorem missing_whole (hused : (s.inode k).copy.type ≠ .free) (h : Whole (s.inode k).copy s.block (s.inode k).copy.size)
    (hle : off + n ≤ (s.inode k).copy.size) : missing k s (wanted off n) = ∅ := by
  refine Finset.filter_eq_empty_iff.mpr fun x hx => ?_
  obtain ⟨i, hi, hx⟩ := Finset.mem_biUnion.mp hx
  have hlt := Finset.mem_range.mp hi
  have hdiv := Nat.div_mul_le_self (off + i) BSIZE
  have hthere := h ((off + i) / BSIZE) (by omega)
  rw [places_self hused]
  unfold needed at hx
  unfold Slot.index at hthere
  split at hx
  next hdirect =>
    rw [if_pos hdirect] at hthere
    rwa [Finset.mem_singleton.mp hx]
  next hdirect =>
    rw [if_neg hdirect] at hthere
    rcases Finset.mem_insert.mp hx with rfl | hx
    · intro hz
      rw [Dinode.slot, if_pos (Nat.le_refl _)] at hz
      simp [Dinode.slot, hz] at hthere
    · rwa [Finset.mem_singleton.mp hx]

/-- `writei` puts the data into the file and changes no other file, and `readi` then shows it. -/
theorem write_read (sb : Superblock) (k : Fin NINODE) (s : Volume) (data : List UInt8) (off n : Nat)
    (hown : Owned sb k s) (hwhole : Whole (s.inode k).copy s.block (s.inode k).copy.size)
    (hoff : off ≤ (s.inode k).copy.size) (hmax : off + n ≤ MAXFILE * BSIZE) (hdata : data.length = n)
    (hfree : (missing k s (wanted off n)).card ≤ freeCount sb s) : ∃ t, writei sb k data off n s = .ok (some n, t) ∧
      (t.inode k).copy.size = max (s.inode k).copy.size (off + n) ∧
      (∀ off' n' room, off' ≤ (t.inode k).copy.size → off' + n' < 4294967296 → n' ≤ room →
        readi sb k off' n' room t = .ok (some (((bytes k s (s.inode k).inum).write off data).slice off'
          (min n' ((t.inode k).copy.size - off'))), t)) ∧
      (∀ off' n' room, off' < 4294967296 → n' < 4294967296 →
        ¬ (off' ≤ (t.inode k).copy.size ∧ off' + n' < 4294967296) → readi sb k off' n' room t = .ok (some [], t)) ∧
      (∀ i, i ≠ (s.inode k).inum → t.dinode i = s.dinode i ∧ bytes k t i = bytes k s i) ∧
      (∀ k', k' ≠ k → t.inode k' = s.inode k') := by
  have hret : Returns (writei sb k data off n) s _ :=
    (writei_spec hown hoff hmax).mono_panic fun e he => absurd he.2 (Nat.not_lt.mpr hfree)
  obtain ⟨r, t, hrun, hr, hwrote, hsize, _, _⟩ := hret.exists
  have hwritten : written off data.length n = n := if_pos (Nat.le_of_eq hdata.symm)
  rw [hwritten] at hr hsize
  rw [List.take_of_length_le (Nat.le_of_eq hdata)] at hwrote
  have hinum := hwrote.inum
  have hwhole' := hwrote.whole hown.used hwhole hoff (by rw [hsize, hdata])
  refine ⟨t, by rw [hrun, hr], hsize, ?_, ?_, fun i hi => ⟨hwrote.dinode i hi, hwrote.rest i hi⟩, ?_⟩
  · intro off' n' room hle hsum hroom
    have hcount : readCount (t.inode k).copy.size off' n' = min n' ((t.inode k).copy.size - off') := by
      rw [readCount, if_neg (by omega)]
    rw [readi_bytes hwrote.owned.used hwhole' (by rw [hcount]; omega), hcount, hinum, hwrote.self]
  · intro off' n' room hoff' hn' hother
    have hcount : readCount (t.inode k).copy.size off' n' = 0 := by
      rw [readCount, if_pos (by omega)]
    rw [readi_bytes hwrote.owned.used hwhole' (by rw [hcount]; omega), hcount]
    rfl
  · intro k' hk'
    obtain ⟨a, z, ha⟩ := hwrote.inode
    rw [ha, Function.update_of_ne hk']

theorem zero_lt_NINODE : 0 < NINODE := by decide

def firstInode : Fin NINODE := ⟨0, zero_lt_NINODE⟩

def smallDisk : Superblock := ⟨3, 2, 2, by decide, by decide, by decide⟩

def emptyFile : Volume where
  bit := fun b => b == 0
  dinode := fun i => if i = 1 then { type := .file, nlink := 1 } else {}
  block := fun _ _ => 0
  inode := fun _ => { dev := 1, inum := 1, ref := 1, valid := true, copy := { type := .file, nlink := 1 } }

theorem Owned.of_blank (hused : (s.inode k).copy.type ≠ .free) (haddrs : ∀ i, (cur k s i).addrs = fun _ => 0)
    (hbit : ∀ b < sb.size, s.bit b = true ↔ ¬ sb.Data b) : Owned sb k s := by
  have hzero : ∀ w, places k s w = 0 := by
    rintro ⟨i, x⟩
    unfold places slot
    split
    next => rfl
    next => cases x <;> simp [Dinode.slot, haddrs]
  refine ⟨hused, ⟨⟨?_, ?_, ?_⟩, ?_⟩⟩
  · intro w b hb
    rw [hzero] at hb
    exact absurd hb.2.symm hb.1
  · intro v w b hv _
    rw [hzero] at hv
    exact absurd hv.2.symm hv.1
  · intro b hb
    exact absurd hb.1 ((hbit b hb.1.2).mp hb.2)
  · exact fun b hlt hno => (hbit b hlt).mpr hno

theorem blank_data {b : Nat} (h : sb.nblocks + 1 = sb.size) (hb : b < sb.size) : (b == 0) = true ↔ ¬ sb.Data b := by
  unfold Superblock.Data
  rw [beq_iff_eq]
  omega

theorem emptyFile_owned (h : sb.nblocks + 1 = sb.size) : Owned sb k emptyFile := by
  refine .of_blank (by simp [emptyFile]) (fun i => ?_) fun b hb => blank_data h hb
  by_cases hi : i = 1 <;> simp [cur, emptyFile, hi]

theorem write_read_empty : ∃ t, writei smallDisk ⟨0, zero_lt_NINODE⟩ [7, 8] 0 2 emptyFile = .ok (some 2, t) ∧
      readi smallDisk ⟨0, zero_lt_NINODE⟩ 1 5 5 t = .ok (some [8], t) := by
  have hmissing : (missing ⟨0, zero_lt_NINODE⟩ emptyFile (wanted 0 2)).card ≤ freeCount smallDisk emptyFile := by
    refine Nat.le_trans (Finset.card_filter_le _ _) ?_
    decide
  obtain ⟨t, hrun, hsize, hread, _⟩ := write_read smallDisk ⟨0, zero_lt_NINODE⟩ emptyFile [7, 8] 0 2 (emptyFile_owned rfl)
    (fun bn hbn => absurd hbn (Nat.not_lt_zero _)) (Nat.zero_le _) (by decide) rfl hmissing
  have hsize : (t.inode ⟨0, zero_lt_NINODE⟩).copy.size = 2 := hsize
  refine ⟨t, hrun, ?_⟩
  rw [hread 1 5 5 (by omega) (by decide) (Nat.le_refl _), hsize]
  rfl

end TweakedXv6.Fs
