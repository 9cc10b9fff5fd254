import TweakedXv6.Basic
import TweakedXv6.FsOpBlocks

namespace TweakedXv6.Fs

open Prog Files TweakedXv6.Fs.Trans

def toUint (n : Int) : Nat := (n % 4294967296).toNat

/-- The file system, and of an open file of type `FD_INODE` the fields that every process which shares it
reads and moves. -/
structure FileState where
  fs : Volume
  readable : Bool
  writable : Bool
  off : Nat

abbrev FileM := Prog FileState

def onFs {α : Type} (m : FS α) : FileM α := lift FileState.fs (fun v s => { s with fs := v }) m

/-- `if(r > 0) f->off += r;` -/
def advance (r : Nat) : FileM Unit := change fun s => { s with off := uint (s.off + r) }

/-- One transaction of `filewrite`. -/
def writeChunk (sb : Superblock) (k : Fin NINODE) (src : List UInt8) (n1 : Nat) : FileM (Option Nat) := do
  onFs (ilock k)
  let off ← read FileState.off
  let r ← onFs (writei sb k src off n1)
  advance (r.getD 0)
  ret r

/-- Before the transaction that starts with byte `i` other processes do `others i`. -/
def filewriteLoop (sb : Superblock) (k : Fin NINODE) (others : Nat → FileState → FileState) (src : List UInt8)
    (n : Nat) : Nat → Nat → FileM Nat
  | 0, i => ret i
  | fuel + 1, i =>
    if i < n then do
      let n1 := if maxChunk < n - i then maxChunk else n - i
      change (others i)
      let r ← writeChunk sb k (src.drop i) n1
      if r = some n1 then filewriteLoop sb k others src n fuel (i + n1) else ret i
    else ret i

def filewrite (sb : Superblock) (k : Fin NINODE) (others : Nat → FileState → FileState) (src : List UInt8) (n : Int) :
    FileM Int := do
  let writable ← read FileState.writable
  if writable = false then ret (-1)
  else do
    let i ← filewriteLoop sb k others src n.toNat n.toNat 0
    ret (if i = n then n else -1)

/-- The bytes read, or `none` for -1. -/
def fileread (sb : Superblock) (k : Fin NINODE) (n : Int) (room : Nat) : FileM (Option (List UInt8)) := do
  let readable ← read FileState.readable
  if readable = false then ret none
  else do
    onFs (ilock k)
    let off ← read FileState.off
    let r ← onFs (readi sb k off (toUint n) room)
    advance (r.getD []).length
    ret r

def Open (k : Fin NINODE) (s : Volume) : Prop := 0 < (s.inode k).ref ∧ (s.inode k).valid = true

/-- The inode is in use, its blocks are there up to its size, and it is open. -/
structure Ready (sb : Superblock) (k : Fin NINODE) (s : Volume) : Prop where
  owned : Owned sb k s
  opened : Open k s
  whole : Whole (s.inode k).copy s.block (s.inode k).copy.size

/-- The file is as it was, and so is the offset. -/
structure Quiet (sb : Superblock) (k : Fin NINODE) (s t : FileState) : Prop where
  owned : Owned sb k t.fs
  opened : Open k t.fs
  inum : (t.fs.inode k).inum = (s.fs.inode k).inum
  copy : (t.fs.inode k).copy = (s.fs.inode k).copy
  slots : ∀ x, places k t.fs ((s.fs.inode k).inum, x) = places k s.fs ((s.fs.inode k).inum, x)
  bytes : bytes k t.fs (s.fs.inode k).inum = bytes k s.fs (s.fs.inode k).inum
  readable : t.readable = s.readable
  off : t.off = s.off

/-- The bytes `bs` were written at the offset, which has moved past them. -/
structure Filed (sb : Superblock) (k : Fin NINODE) (bs : List UInt8) (s t : FileState) : Prop where
  off : t.off = s.off + bs.length
  readable : t.readable = s.readable
  ready : Ready sb k t.fs
  inum : (t.fs.inode k).inum = (s.fs.inode k).inum
  size : (t.fs.inode k).copy.size = max (s.fs.inode k).copy.size (s.off + bs.length)
  bytes : bytes k t.fs (s.fs.inode k).inum = (bytes k s.fs (s.fs.inode k).inum).write s.off bs

/-- Nobody else takes or frees a block. -/
def Still (others : Nat → FileState → FileState) : Prop := ∀ i s, (others i s).fs.bit = s.fs.bit

variable {sb : Superblock} {k : Fin NINODE} {others : Nat → FileState → FileState} {s t u : FileState} {v w : Volume}
  {i off m n fuel room : Nat} {src bs bs' : List UInt8}

theorem run_onFs {α : Type} {c : FS α} {a : α} (h : c s.fs = .ok (a, v)) : onFs c s = .ok (a, { s with fs := v }) := by
  unfold onFs lift
  rw [h]

theorem ilock_open (h : Open k v) : ilock k v = .ok ((), v) := by
  have href : ¬ (v.inode k).ref < 1 := by
    have := h.1
    omega
  rw [ilock, run_bind run_read, if_neg href, when, if_neg (by rw [h.2]; decide)]
  rfl

theorem Wrote.open (h : Wrote sb k off bs v w) (hopen : Open k v) : Open k w := by
  obtain ⟨a, z, ha⟩ := h.inode
  unfold Open
  rw [ha, Function.update_self]
  exact hopen

theorem Quiet.ready (h : Quiet sb k s t) (hs : Ready sb k s.fs) : Ready sb k t.fs where
  owned := h.owned
  opened := h.opened
  whole := by
    intro bn hbn
    rw [h.copy] at hbn
    rw [← places_self h.owned.used, h.inum, h.slots, places_self hs.owned.used]
    exact hs.whole bn hbn

theorem Quiet.balanced {W : Finset Slot} (h : Quiet sb k s t) (hbit : t.fs.bit = s.fs.bit) :
    Balanced sb k W s.fs t.fs :=
  .of_places hbit h.inum h.slots

theorem chunk_le (hi : i < n) : 0 < (if maxChunk < n - i then maxChunk else n - i) ∧
    i + (if maxChunk < n - i then maxChunk else n - i) ≤ n := by
  have hmax : maxChunk = 3072 := rfl
  split <;> omega

theorem uint_off (h : off ≤ MAXFILE * BSIZE) : uint off = off := by
  have hM : MAXFILE * BSIZE = 274432 := rfl
  exact Nat.mod_eq_of_lt (by omega)

theorem Filed.nil (h : Ready sb k s.fs) (hoff : s.off ≤ (s.fs.inode k).copy.size) : Filed sb k [] s s where
  off := rfl
  readable := rfl
  ready := h
  inum := rfl
  size := (Nat.max_eq_left hoff).symm
  bytes := Bytes.write_nil.symm

theorem Quiet.filed (h : Quiet sb k s t) (hs : Ready sb k s.fs) (hoff : s.off ≤ (s.fs.inode k).copy.size) :
    Filed sb k [] s t where
  off := h.off
  readable := h.readable
  ready := h.ready hs
  inum := h.inum
  size := by rw [h.copy, List.length_nil, Nat.add_zero, Nat.max_eq_left hoff]
  bytes := by rw [h.bytes, Bytes.write_nil]

theorem Filed.trans (h : Filed sb k bs s t) (h' : Filed sb k bs' t u) : Filed sb k (bs ++ bs') s u where
  off := by rw [h'.off, h.off, List.length_append, Nat.add_assoc]
  readable := h'.readable.trans h.readable
  ready := h'.ready
  inum := h'.inum.trans h.inum
  size := by
    rw [h'.size, h.size, h.off, List.length_append]
    omega
  bytes := by rw [← h.inum, h'.bytes, h.inum, h.bytes, h.off, Bytes.write_append]

theorem Filed.missing_eq (h : Filed sb k bs s t) : missing k t.fs (wanted s.off bs.length) = ∅ :=
  missing_whole h.ready.owned.used h.ready.whole (by rw [h.size]; exact Nat.le_max_right ..)

theorem Filed.off_le (h : Filed sb k bs s t) : t.off ≤ (t.fs.inode k).copy.size := by
  rw [h.off, h.size]
  exact Nat.le_max_right ..

/-- A transaction writes at the offset where it finds the file. -/
theorem writeChunk_spec (h : Ready sb k s.fs) (hoff : s.off ≤ (s.fs.inode k).copy.size)
    (hmax : s.off + n ≤ MAXFILE * BSIZE) (hlen : n ≤ src.length) :
    Post (fun e => e = "balloc: out of blocks" ∧ freeCount sb s.fs < (missing k s.fs (wanted s.off n)).card)
      (writeChunk sb k src n) s fun r t =>
        r = some n ∧ Filed sb k (src.take n) s t ∧ Balanced sb k (wanted s.off n) s.fs t.fs := by
  rw [writeChunk, post_run_bind (run_onFs (ilock_open h.opened)), post_read_bind, post_bind]
  refine Post.lift (writei_spec h.owned hoff hmax) fun r v hv => ?_
  obtain ⟨hr, hwrote, hsize, _, _, hbal⟩ := hv
  rw [written, if_pos hlen] at hr hsize
  have hchunk : (src.take n).length = n := by
    rw [List.length_take]
    omega
  rw [← hchunk] at hsize
  subst hr
  rw [advance, post_change_bind, post_ret, Option.getD_some]
  exact ⟨rfl, ⟨by rw [hchunk]; exact uint_off hmax, rfl, ⟨hwrote.owned, hwrote.open h.opened,
    hwrote.whole h.owned.used h.whole hoff (Nat.le_of_eq hsize)⟩, hwrote.inum, hsize, hwrote.self⟩, hbal⟩

theorem filewriteLoop_spec (h : Ready sb k s.fs) (hoff : s.off ≤ (s.fs.inode k).copy.size)
    (hmax : s.off + (n - i) ≤ MAXFILE * BSIZE) (hsrc : src.length = n) (hi : i ≤ n) (hfuel : n - i ≤ fuel)
    (hquiet : ∀ i s, Owned sb k s.fs → Open k s.fs → Quiet sb k s (others i s)) :
    Post (fun e => e = "balloc: out of blocks" ∧
        (Still others → freeCount sb s.fs < (missing k s.fs (wanted s.off (n - i))).card))
      (filewriteLoop sb k others src n fuel i) s fun r t =>
        r = n ∧ Filed sb k (src.drop i) s t ∧ (Still others → Balanced sb k (wanted s.off (n - i)) s.fs t.fs) := by
  induction fuel generalizing s i with
  | zero =>
    rw [List.drop_of_length_le (by omega)]
    exact ⟨by omega, .nil h hoff, fun _ _ _ => rfl⟩
  | succ fuel ih =>
    unfold filewriteLoop
    by_cases hlt : i < n
    · obtain ⟨hpos, hle⟩ := chunk_le hlt
      rw [if_pos hlt]
      dsimp only
      generalize (if maxChunk < n - i then maxChunk else n - i) = n1 at hpos hle ⊢
      have hq := (hquiet i s h.owned h.opened).filed h hoff
      have hqbal : Still others → Balanced sb k (wanted s.off (n - i)) s.fs (others i s).fs :=
        fun hstill => (hquiet i s h.owned h.opened).balanced (hstill i s)
      rw [post_change_bind]
      generalize others i s = q at hq hqbal ⊢
      have hqoff : q.off = s.off := hq.off
      have hlen : n1 ≤ (src.drop i).length := by
        rw [List.length_drop]
        omega
      have hnow : wanted q.off n1 ⊆ wanted s.off (n - i) := hqoff ▸ wanted_mono (by omega)
      refine Post.bind ((writeChunk_spec hq.ready hq.off_le (by omega) hlen).mono_panic fun e he =>
        ⟨he.1, fun hstill => (hqbal hstill).short (Finset.Subset.refl _) hnow he.2⟩) ?_
      rintro r t ⟨rfl, ht, htbal⟩
      have htoff : t.off = s.off + n1 := by rw [ht.off, List.length_take, Nat.min_eq_left hlen, hqoff]
      have hlater : wanted t.off (n - (i + n1)) ⊆ wanted s.off (n - i) := by
        rw [htoff, ← Nat.sub_sub]
        exact wanted_subset (by omega)
      have hbal : Still others → Balanced sb k (wanted s.off (n - i)) s.fs t.fs :=
        fun hstill => (hqbal hstill).trans (htbal.mono hnow)
      rw [if_pos rfl]
      refine ((ih ht.ready ht.off_le (by omega) (by omega) (by omega)).mono_panic fun e he =>
        ⟨he.1, fun hstill => (hbal hstill).short (Finset.Subset.refl _) hlater (he.2 hstill)⟩).mono ?_
      rintro r u ⟨hr, hu, hubal⟩
      refine ⟨hr, ?_, fun hstill => (hbal hstill).trans ((hubal hstill).mono hlater)⟩
      have hall := (hq.trans ht).trans hu
      rwa [List.nil_append, ← List.drop_drop, List.take_append_drop] at hall
    · rw [if_neg hlt, List.drop_of_length_le (by omega)]
      exact ⟨by omega, .nil h hoff, fun _ _ _ => rfl⟩

theorem filewriteLoop_end : filewriteLoop sb k others src n fuel n s = .ok (n, s) := by
  cases fuel with
  | zero => rfl
  | succ fuel =>
    unfold filewriteLoop
    rw [if_neg (Nat.lt_irrefl n)]
    rfl

theorem filewriteLoop_step (hi : i < n) (hm : (if maxChunk < n - i then maxChunk else n - i) = m)
    (h : writeChunk sb k (src.drop i) m (others i s) = .ok (some m, t)) :
    filewriteLoop sb k others src n (fuel + 1) i s = filewriteLoop sb k others src n fuel (i + m) t := by
  conv_lhs => unfold filewriteLoop
  rw [if_pos hi, run_bind run_change, hm, run_bind h, if_pos rfl]

theorem toUint_natCast (h : n < 4294967296) : toUint n = n := by
  unfold toUint
  omega

theorem fileread_unreadable {n : Int} (h : s.readable = false) : fileread sb k n room s = .ok (none, s) := by
  rw [fileread, run_bind run_read, if_pos h, run_ret]

theorem fileread_run (h : Ready sb k s.fs) (hread : s.readable = true) (hn : n < 4294967296)
    (hroom : readCount (s.fs.inode k).copy.size s.off n ≤ room) :
    fileread sb k n room s =
      .ok (some ((bytes k s.fs (s.fs.inode k).inum).slice s.off (readCount (s.fs.inode k).copy.size s.off n)),
        { s with off := uint (s.off + readCount (s.fs.inode k).copy.size s.off n) }) := by
  rw [fileread, run_bind run_read, if_neg (by simp [hread]), run_bind (run_onFs (ilock_open h.opened)), run_bind run_read,
    toUint_natCast hn, run_bind (run_onFs (readi_bytes h.owned.used h.whole hroom)), advance, run_bind run_change, run_ret,
    Option.getD_some, Bytes.slice_length]

theorem fileread_bytes (h : Ready sb k s.fs) (hread : s.readable = true) (hoff : s.off + n ≤ MAXFILE * BSIZE)
    (hsize : s.off + n ≤ (s.fs.inode k).copy.size) (hroom : n ≤ room) :
    fileread sb k n room s =
      .ok (some ((bytes k s.fs (s.fs.inode k).inum).slice s.off n), { s with off := s.off + n }) := by
  have hM : MAXFILE * BSIZE = 274432 := rfl
  have hcount : readCount (s.fs.inode k).copy.size s.off n = n := by
    rw [readCount, if_neg (by omega)]
    omega
  rw [fileread_run h hread (by omega) (hcount.symm ▸ hroom), hcount, uint_off hoff]

section Whole

variable (hoff : off ≤ (v.inode k).copy.size) (hmax : off + n ≤ MAXFILE * BSIZE) (hlen : src.length = n)

include hoff hmax hlen

theorem writei_whole (hown : Owned sb k v) :
    Post (fun e => e = "balloc: out of blocks" ∧ freeCount sb v < (missing k v (wanted off n)).card)
      (writei sb k src off n) v fun r w => r = some n ∧ Wrote sb k off src v w ∧
        (w.inode k).copy.size = max (v.inode k).copy.size (off + n) ∧ Balanced sb k (wanted off n) v w := by
  refine (writei_spec hown hoff hmax).mono ?_
  rintro r w ⟨hr, hwrote, hsize, _, _, hbal⟩
  rw [written, if_pos (Nat.le_of_eq hlen.symm)] at hr hsize
  rw [List.take_of_length_le (Nat.le_of_eq hlen)] at hwrote
  exact ⟨hr, hwrote, hsize, hbal⟩

theorem writei_enough (hown : Owned sb k v) (hfree : (missing k v (wanted off n)).card ≤ freeCount sb v) :
    ∃ w, writei sb k src off n v = .ok (some n, w) ∧ Wrote sb k off src v w ∧
      (w.inode k).copy.size = max (v.inode k).copy.size (off + n) := by
  have hret : Returns (writei sb k src off n) v _ :=
    (writei_whole hoff hmax hlen hown).mono_panic fun e he => absurd he.2 (Nat.not_lt.mpr hfree)
  obtain ⟨_, w, hrun, rfl, hwrote, hsize, _⟩ := hret.exists
  exact ⟨w, hrun, hwrote, hsize⟩

theorem writei_returns_iff (h : Ready sb k v) :
    (∃ x, writei sb k src off n v = .ok x) ↔ (missing k v (wanted off n)).card ≤ freeCount sb v := by
  constructor
  · rintro ⟨⟨r, w⟩, hrun⟩
    obtain ⟨_, hwrote, hsize, hbal⟩ := (writei_whole hoff hmax hlen h.owned).of_eq hrun
    have hwhole := hwrote.whole h.owned.used h.whole hoff (by rw [hsize, hlen])
    have hcount := hbal _ (Finset.Subset.refl _)
    rw [missing_whole hwrote.owned.used hwhole (by rw [hsize]; exact Nat.le_max_right ..), Finset.card_empty] at hcount
    omega
  · intro hfree
    obtain ⟨w, hrun, _⟩ := writei_enough hoff hmax hlen h.owned hfree
    exact ⟨_, hrun⟩

end Whole

theorem filewrite_spec (h : Ready sb k s.fs) (hoff : s.off ≤ (s.fs.inode k).copy.size)
    (hmax : s.off + n ≤ MAXFILE * BSIZE) (hsrc : src.length = n)
    (hquiet : ∀ i s, Owned sb k s.fs → Open k s.fs → Quiet sb k s (others i s)) (hwritable : s.writable = true) :
    Post (fun e => e = "balloc: out of blocks" ∧
        (Still others → freeCount sb s.fs < (missing k s.fs (wanted s.off n)).card))
      (filewrite sb k others src n) s fun r t =>
        r = n ∧ Filed sb k src s t ∧ (Still others → Balanced sb k (wanted s.off n) s.fs t.fs) := by
  have hloop : Post _ (filewriteLoop sb k others src n n 0) s _ :=
    filewriteLoop_spec h hoff (by omega) hsrc (Nat.zero_le _) (by omega) hquiet
  rw [List.drop_zero, Nat.sub_zero] at hloop
  rw [filewrite, post_read_bind, if_neg (by simp [hwritable]), Int.toNat_natCast]
  refine Post.bind hloop ?_
  rintro r t ⟨rfl, ht⟩
  exact ⟨if_pos rfl, ht⟩

/-- The transactions of `filewrite` write as one `writei` at the old offset does, if others leave the file
and its offset alone in between, and `fileread` there returns the data. If they leave the bitmap alone too,
both return exactly when there are enough free blocks. -/
theorem filewrite_eq_writei (sb : Superblock) (k : Fin NINODE) (others : Nat → FileState → FileState) (s : FileState)
    (data : List UInt8) (n : Nat) (h : Ready sb k s.fs)
    (hquiet : ∀ i s, Owned sb k s.fs → Open k s.fs → Quiet sb k s (others i s)) (hwritable : s.writable = true)
    (hoff : s.off ≤ (s.fs.inode k).copy.size) (hmax : s.off + n ≤ MAXFILE * BSIZE) (hdata : data.length = n) :
    Post (· = "balloc: out of blocks") (filewrite sb k others data n) s (fun r t =>
      r = n ∧ t.off = s.off + n ∧ (t.fs.inode k).copy.size = max (s.fs.inode k).copy.size (s.off + n) ∧
        bytes k t.fs (s.fs.inode k).inum = (bytes k s.fs (s.fs.inode k).inum).write s.off data ∧
        (s.readable = true → ∀ room, n ≤ room → fileread sb k n room { t with off := s.off } = .ok (some data, t)) ∧
        ∀ r' u, writei sb k data s.off n s.fs = .ok (r', u) → r' = some n ∧
          (u.inode k).copy.size = (t.fs.inode k).copy.size ∧
          bytes k u (s.fs.inode k).inum = bytes k t.fs (s.fs.inode k).inum) ∧
    ((∃ x, writei sb k data s.off n s.fs = .ok x) ↔ (missing k s.fs (wanted s.off n)).card ≤ freeCount sb s.fs) ∧
    (Still others → ((∃ x, filewrite sb k others data n s = .ok x) ↔
      (missing k s.fs (wanted s.off n)).card ≤ freeCount sb s.fs)) := by
  have hwrite := filewrite_spec h hoff hmax hdata hquiet hwritable
  refine ⟨(hwrite.mono_panic fun e he => he.1).mono ?_, writei_returns_iff hoff hmax hdata h, fun hstill => ⟨?_, ?_⟩⟩
  · rintro r t ⟨hr, ht, _⟩
    have htoff := ht.off
    have hsize := ht.size
    rw [hdata] at htoff hsize
    refine ⟨hr, htoff, hsize, ht.bytes, fun hread room hroom => ?_, fun r' u hu => ?_⟩
    · rw [fileread_bytes (s := { t with off := s.off }) ht.ready (ht.readable.trans hread) hmax
        (by rw [hsize]; exact Nat.le_max_right ..) hroom]
      dsimp only
      rw [ht.inum, ht.bytes, ← hdata, Bytes.slice_write_self, hdata, ← htoff]
    · obtain ⟨hr, hwrote, hsize', _⟩ := (writei_whole hoff hmax hdata h.owned).of_eq hu
      exact ⟨hr, by rw [hsize', hsize], by rw [hwrote.self, ht.bytes]⟩
  · rintro ⟨⟨r, t⟩, hrun⟩
    obtain ⟨_, ht, hbal⟩ := hwrite.of_eq hrun
    have hcount := hbal hstill _ (Finset.Subset.refl _)
    rw [← hdata, ht.missing_eq, Finset.card_empty, hdata] at hcount
    omega
  · intro hfree
    have hret : Returns (filewrite sb k others data n) s _ :=
      hwrite.mono_panic fun e he => absurd (he.2 hstill) (Nat.not_lt.mpr hfree)
    obtain ⟨r, t, hrun, _⟩ := hret.exists
    exact ⟨_, hrun⟩

theorem Quiet.refl (hown : Owned sb k s.fs) (hopen : Open k s.fs) : Quiet sb k s s :=
  ⟨hown, hopen, rfl, rfl, fun _ => rfl, rfl, rfl, rfl⟩

def fiveBlocks : Superblock := ⟨6, 5, 2, by decide, by decide, smallDisk.ninodes_le⟩

theorem emptyFile_ready (h : sb.nblocks + 1 = sb.size) : Ready sb k emptyFile :=
  ⟨emptyFile_owned h, ⟨(by decide : (0 : Int) < 1), rfl⟩, fun bn hbn => absurd hbn (Nat.not_lt_zero _)⟩

theorem wanted_direct (hle : off + n ≤ m * BSIZE) (hm : m ≤ NDIRECT) :
    wanted off n ⊆ (Finset.range m).image Slot.addr := by
  intro x hx
  obtain ⟨i, hi, hx⟩ := Finset.mem_biUnion.mp hx
  have hbn : (off + i) / BSIZE < m := Nat.div_lt_of_lt_mul (by
    rw [Nat.mul_comm]
    exact Nat.lt_of_lt_of_le (Nat.add_lt_add_left (Finset.mem_range.mp hi) off) hle)
  rw [needed, if_pos (Nat.lt_of_lt_of_le hbn hm), Finset.mem_singleton] at hx
  exact Finset.mem_image.mpr ⟨_, Finset.mem_range.mpr hbn, hx.symm⟩

theorem wanted_four (h : n ≤ 4096) : (missing firstInode emptyFile (wanted 0 n)).card ≤ freeCount fiveBlocks emptyFile := by
  refine Nat.le_trans (Finset.card_filter_le _ _)
    (Nat.le_trans (Finset.card_le_card (wanted_direct (m := 4) ?_ (by decide))) ?_)
  · unfold BSIZE
    omega
  · decide

/-- Two transactions into an empty file. -/
theorem filewrite_eq_writei_long :
    ∃ t, filewrite fiveBlocks firstInode (fun _ => id) (List.replicate 3073 7) 3073 ⟨emptyFile, true, true, 0⟩ = .ok (3073, t) ∧
      t.off = 3073 ∧ (t.fs.inode firstInode).copy.size = 3073 ∧
      fileread fiveBlocks firstInode 3073 3073 { t with off := 0 } = .ok (some (List.replicate 3073 7), t) := by
  have hlen : (List.replicate 3073 (7 : UInt8)).length = 3073 := List.length_replicate ..
  generalize List.replicate 3073 (7 : UInt8) = data at hlen ⊢
  have h := filewrite_eq_writei fiveBlocks firstInode (fun _ => id) ⟨emptyFile, true, true, 0⟩ data 3073
    (emptyFile_ready rfl) (fun _ _ hown hopen => Quiet.refl hown hopen) rfl (Nat.zero_le _) (by decide) hlen
  obtain ⟨⟨r, t⟩, ht⟩ := (h.2.2 fun _ _ => rfl).mpr (wanted_four (by decide))
  obtain ⟨rfl, hoff, hsize, _, hread, _⟩ := h.1.of_eq ht
  exact ⟨t, ht, hoff, hsize, hread rfl 3073 (Nat.le_refl _)⟩

theorem writei_four {data : List UInt8} (hlen : data.length = n) (hn : n ≤ 4096) :
    ∃ v, writei fiveBlocks firstInode data 0 n emptyFile = .ok (some n, v) ∧ Ready fiveBlocks firstInode v ∧
      (v.inode firstInode).copy.size = n ∧
      bytes firstInode v (v.inode firstInode).inum =
        (bytes firstInode emptyFile (v.inode firstInode).inum).write 0 data := by
  have hready : Ready fiveBlocks firstInode emptyFile := emptyFile_ready rfl
  have hmax : 0 + n ≤ MAXFILE * BSIZE := Nat.le_trans (by omega) (by decide : 4096 ≤ MAXFILE * BSIZE)
  obtain ⟨v, hrun, hwrote, hsize⟩ := writei_enough (Nat.zero_le _) hmax hlen hready.owned (wanted_four hn)
  have hself := hwrote.self
  rw [← hwrote.inum] at hself
  have hsize : (v.inode firstInode).copy.size = n := by
    rw [hsize]
    exact Nat.max_eq_right (Nat.zero_le _) |>.trans (Nat.zero_add n)
  refine ⟨v, hrun, ⟨hwrote.owned, hwrote.open hready.opened,
    hwrote.whole hready.owned.used hready.whole (Nat.zero_le _) ?_⟩, hsize, hself⟩
  rw [hsize, hlen, Nat.zero_add]
  exact Nat.le_max_right ..

theorem writeChunk_present (h : Ready sb k s.fs) (hle : s.off + n ≤ (s.fs.inode k).copy.size)
    (hmax : s.off + n ≤ MAXFILE * BSIZE) (hlen : n ≤ src.length) :
    ∃ t, writeChunk sb k src n s = .ok (some n, t) ∧ Filed sb k (src.take n) s t := by
  have hret : Returns (writeChunk sb k src n) s _ :=
    (writeChunk_spec h (Nat.le_trans (Nat.le_add_right ..) hle) hmax hlen).mono_panic
      fun e he => absurd he.2 (by rw [missing_whole h.owned.used h.whole hle]; exact Nat.not_lt_zero _)
  obtain ⟨_, t, hrun, rfl, ht, _⟩ := hret.exists
  exact ⟨t, hrun, ht⟩

/-- Another process with the same open file reads a byte between two transactions. -/
def readBetween (i : Nat) (s : FileState) : FileState :=
  if i = 3072 then
    match fileread fiveBlocks firstInode 1 1 s with
    | .ok x => x.2
    | .error _ => s
  else s

theorem readBetween_fs (h : Ready fiveBlocks firstInode s.fs) : (readBetween i s).fs = s.fs := by
  unfold readBetween
  split
  · cases hread : s.readable with
    | false => rw [fileread_unreadable hread]
    | true =>
      have hroom : readCount (s.fs.inode firstInode).copy.size s.off 1 ≤ 1 := by
        unfold readCount
        split <;> omega
      have hrun : fileread fiveBlocks firstInode 1 1 s = _ := fileread_run h hread (by decide) hroom
      rw [hrun]
  · rfl

/-- A read through the shared open file leaves the inode alone and moves the offset, so that `filewrite`, which
still returns 3073, skips a byte that one `writei` writes. -/
theorem filewrite_offset_shared : ∃ s t u, Ready fiveBlocks firstInode s.fs ∧
      s.readable = true ∧ s.writable = true ∧ s.off = 0 ∧
      (∀ i v, Ready fiveBlocks firstInode v.fs → (readBetween i v).fs = v.fs) ∧
      filewrite fiveBlocks firstInode readBetween (List.replicate 3073 7) 3073 s = .ok (3073, t) ∧ t.off = 3074 ∧
      bytes firstInode t.fs (s.fs.inode firstInode).inum 3072 = 1 ∧
      writei fiveBlocks firstInode (List.replicate 3073 7) 0 3073 s.fs = .ok (some 3073, u) ∧
      bytes firstInode u (s.fs.inode firstInode).inum 3072 = 7 ∧
      (∀ v n room, v.readable = false → fileread fiveBlocks firstInode n room v = .ok (none, v)) := by
  have hlen : (List.replicate 3073 (7 : UInt8)).length = 3073 := List.length_replicate ..
  have holdlen : (List.replicate 3074 (1 : UInt8)).length = 3074 := List.length_replicate ..
  generalize hdata : List.replicate 3073 (7 : UInt8) = data at hlen ⊢
  generalize hold : List.replicate 3074 (1 : UInt8) = old at holdlen
  obtain ⟨v, _, hready, hsize, hbytes⟩ := writei_four holdlen (by decide)
  have hmax : 3074 ≤ MAXFILE * BSIZE := by decide
  -- the first transaction
  obtain ⟨t, ht, hfirst⟩ := writeChunk_present (s := ⟨v, true, true, 0⟩) hready (by dsimp only; omega)
    (by dsimp only; omega) (show 3072 ≤ data.length by omega)
  have htake : (data.take 3072).length = 3072 := by
    rw [List.length_take]
    omega
  have htoff : t.off = 3072 := hfirst.off.trans (by rw [htake])
  have htsize : (t.fs.inode firstInode).copy.size = 3074 := by
    rw [hfirst.size, htake, hsize]
    exact Nat.max_eq_left (show 0 + 3072 ≤ 3074 by decide)
  -- the read
  have hread : readBetween 3072 t = { t with off := 3073 } := by
    have hrun : fileread fiveBlocks firstInode 1 1 t = _ :=
      fileread_bytes (n := 1) hfirst.ready hfirst.readable (by omega) (by omega) (Nat.le_refl _)
    rw [readBetween, if_pos rfl, hrun, htoff]
  -- the second transaction
  obtain ⟨u, hu, hsecond⟩ := writeChunk_present (s := { t with off := 3073 }) hfirst.ready (by dsimp only; omega)
    (by dsimp only; omega) (show 1 ≤ (data.drop 3072).length by rw [List.length_drop]; omega)
  have hskip : bytes firstInode u.fs (v.inode firstInode).inum 3072 = 1 := by
    have hinum : (t.fs.inode firstInode).inum = (v.inode firstInode).inum := hfirst.inum
    have hb : bytes firstInode u.fs (t.fs.inode firstInode).inum = _ := hsecond.bytes
    have hb' : bytes firstInode t.fs (v.inode firstInode).inum = _ := hfirst.bytes
    rw [← hinum, hb, Bytes.write_other (.inl (show 3072 < 3073 by decide)), hinum, hb',
      Bytes.write_other (.inr (by rw [htake])), hbytes]
    exact (Bytes.write_at (o := 0) (i := 3072) (by omega)).trans (by simp only [← hold, List.getElem_replicate])
  have hnone : readBetween 0 ⟨v, true, true, 0⟩ = ⟨v, true, true, 0⟩ := if_neg (by decide)
  have hloop : filewriteLoop fiveBlocks firstInode readBetween data 3073 (3071 + 1 + 1) 0 ⟨v, true, true, 0⟩ =
      .ok (3073, u) := by
    rw [filewriteLoop_step (m := 3072) (t := t) (by decide) (by decide) (by rw [hnone, List.drop_zero, ht]),
      filewriteLoop_step (m := 1) (t := u) (by decide) (by decide) (by rw [Nat.zero_add, hread, hu]), filewriteLoop_end]
  obtain ⟨w, hw, hwrote, _⟩ := writei_enough (Nat.zero_le _) (by omega : 0 + 3073 ≤ _) hlen hready.owned
    (by rw [missing_whole hready.owned.used hready.whole (by omega)]; exact Nat.zero_le _)
  refine ⟨⟨v, true, true, 0⟩, u, w, hready, rfl, rfl, rfl, fun _ _ => readBetween_fs, ?_, ?_, hskip, hw, ?_,
    fun _ _ _ => fileread_unreadable⟩
  · rw [filewrite, run_bind run_read, if_neg (show ¬ true = false by decide)]
    exact run_bind hloop
  · exact hsecond.off.trans (by
      rw [List.length_take, List.length_drop, hlen]
      rfl)
  · rw [hwrote.self]
    exact (Bytes.write_at (o := 0) (i := 3072) (by omega)).trans (by simp only [← hdata, List.getElem_replicate])

end TweakedXv6.Fs
