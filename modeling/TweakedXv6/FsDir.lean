import TweakedXv6.FsFile
import TweakedXv6.Slots

namespace TweakedXv6.Fs

open Prog Files

/-- Of two strings in buffers filled up with null bytes. -/
def strncmp : List UInt8 → List UInt8 → Nat → Int
  | _, _, 0 => 0
  | p, q, n + 1 =>
    if p.headD 0 ≠ 0 ∧ p.headD 0 = q.headD 0 then strncmp p.tail q.tail n else (p.headD 0).toNat - (q.headD 0).toNat

def strncpy : List UInt8 → Nat → List UInt8
  | _, 0 => []
  | t, n + 1 => if t.headD 0 = 0 then List.replicate (n + 1) 0 else t.headD 0 :: strncpy t.tail n

def Dirent.slot (de : Dirent) : Option (List UInt8 × Nat) := if de.inum = 0 then none else some (cstr de.name, de.inum)

def Dinode.entries (d : Dinode) (blk : Nat → Bytes) (i : Nat) : Option (List UInt8 × Nat) :=
  (d.entry blk (DESIZE * i)).slot

def Dinode.binding (d : Dinode) (blk : Nat → Bytes) (name : List UInt8) : Option Nat :=
  Slots.get (d.entries blk) (d.size / DESIZE) (cstr name)

structure Readable (k : Fin NINODE) (s : Volume) : Prop where
  type : (s.inode k).copy.type = .dir
  whole : Whole (s.inode k).copy s.block (s.inode k).copy.size
  aligned : (s.inode k).copy.size % DESIZE = 0
  size_le : (s.inode k).copy.size ≤ MAXFILE * BSIZE

variable {sb : Superblock} {k dp ip : Fin NINODE} {s t u : Volume} {i j n off fuel inum dev : Nat}
  {p : Dirent → Bool} {msg : String} {name name' bs a b : List UInt8} {d : Dinode} {blk : Nat → Bytes}

theorem takeWhile_step (l : List UInt8) (n : Nat) : (l.take (n + 1)).takeWhile (· ≠ 0) =
    if l.headD 0 = 0 then [] else l.headD 0 :: (l.tail.take n).takeWhile (· ≠ 0) := by
  cases l with
  | nil => rfl
  | cons a l =>
    by_cases ha : a = 0
    · simp [ha]
    · simp [ha]

theorem strncmp_eq_zero {p q : List UInt8} :
    strncmp p q n = 0 ↔ (p.take n).takeWhile (· ≠ 0) = (q.take n).takeWhile (· ≠ 0) := by
  induction n generalizing p q with
  | zero => simp [strncmp]
  | succ n ih =>
    rw [strncmp, takeWhile_step, takeWhile_step]
    generalize p.headD 0 = x, q.headD 0 = y
    have hdiff : (x.toNat : Int) - y.toNat = 0 ↔ x = y :=
      ⟨fun hz => UInt8.toNat_inj.mp (by omega), fun he => by rw [he, Int.sub_self]⟩
    by_cases hx : x = 0
    · rw [if_neg (fun h => h.1 hx), hdiff, if_pos hx, hx]
      by_cases hy : y = 0
      · simp [hy]
      · simp [hy, Ne.symm hy]
    · by_cases hxy : x = y
      · rw [if_pos ⟨hx, hxy⟩, if_neg hx, if_neg (hxy ▸ hx), ih, ← hxy]
        simp
      · rw [if_neg (fun h => hxy h.2), hdiff, if_neg hx]
        by_cases hy : y = 0
        · simp [hy, hx]
        · simp [hy, hxy]

theorem strncmp_name : strncmp a b DIRSIZ = 0 ↔ cstr a = cstr b := strncmp_eq_zero

theorem size_small (h : Readable k s) : (s.inode k).copy.size < 4294967296 := by
  have hle := h.size_le
  have hM : MAXFILE * BSIZE = 274432 := rfl
  omega

theorem dirScan_none (h : Readable k s) (hn : off + DESIZE * n = (s.inode k).copy.size) (hfuel : n < fuel)
    (hno : ∀ i < n, p ((s.inode k).copy.entry s.block (off + DESIZE * i)) = false) :
    dirScan sb k msg p fuel off s = .ok (none, s) := by
  induction n generalizing off fuel with
  | zero =>
    obtain ⟨fuel, rfl⟩ := Nat.exists_eq_succ_of_ne_zero (Nat.ne_of_gt hfuel)
    unfold dirScan
    rw [run_bind run_read, if_neg (by omega)]
    rfl
  | succ n ih =>
    obtain ⟨fuel, rfl⟩ := Nat.exists_eq_succ_of_ne_zero (Nat.ne_of_gt (Nat.lt_of_le_of_lt (Nat.zero_le _) hfuel))
    have hD : DESIZE = 16 := rfl
    have hmul : DESIZE * (n + 1) = DESIZE * n + DESIZE := Nat.mul_succ ..
    have hread := readi_entry sb (by omega) (size_small h) (h.whole.range (show off + DESIZE ≤ _ by omega))
    have hfirst := hno 0 (by omega)
    rw [Nat.mul_zero, Nat.add_zero] at hfirst
    have hrest := @ih (off + DESIZE) fuel (by omega) (by omega) fun i hi => by
      have hnext := hno (i + 1) (by omega)
      rwa [Nat.mul_succ, Nat.add_comm (DESIZE * i), ← Nat.add_assoc] at hnext
    unfold dirScan
    rw [run_bind run_read, if_pos (by omega), run_bind hread, ← hrest]
    simp only [Bytes.slice_length, ne_eq, not_true_eq_false, if_false]
    rw [show Dirent.ofBytes _ = (s.inode k).copy.entry s.block off from rfl, hfirst]
    rfl

theorem dirFind_run (h : Readable k s) : dirFind sb k msg 0 p s =
    .ok ((Slots.first (fun i => p ((s.inode k).copy.entry s.block (DESIZE * i))) ((s.inode k).copy.size / DESIZE)).map
      fun i => (DESIZE * i, (s.inode k).copy.entry s.block (DESIZE * i)), s) := by
  have hal := h.aligned
  have hD : DESIZE = 16 := rfl
  unfold dirFind
  rw [run_bind run_read]
  cases hf : Slots.first (fun i => p ((s.inode k).copy.entry s.block (DESIZE * i))) ((s.inode k).copy.size / DESIZE) with
  | none =>
    rw [Slots.first_eq_none] at hf
    refine dirScan_none h ?_ (Nat.lt_succ_self _) fun i hi => ?_
    · rw [hD] at hal ⊢
      omega
    · rw [Nat.zero_add]
      exact hf i hi
  | some i =>
    obtain ⟨hi, hat, hbefore⟩ := Slots.first_eq_some.mp hf
    have hle : 0 + DESIZE * i + DESIZE ≤ (s.inode k).copy.size := by
      rw [hD] at hal hi ⊢
      omega
    rw [dirScan_finds (Nat.lt_succ_of_lt hi) (size_small h) hle (h.whole.range (by omega)), Nat.zero_add]
    · rfl
    · intro j hj
      rw [Nat.zero_add]
      exact hbefore j hj
    · rw [Nat.zero_add]
      exact hat

/-- What `iget` does: one more reference to an inode in use, or the first to one that takes a free entry.
-/
inductive Got (dev inum : Nat) (s : Volume) (k : Fin NINODE) : Volume → Prop
  | again (hpos : 0 < (s.inode k).ref) (hdev : (s.inode k).dev = dev) (hinum : (s.inode k).inum = inum) :
      Got dev inum s k (s.setInode k { s.inode k with ref := (s.inode k).ref + 1 })
  | new (hfree : (s.inode k).ref = 0)
      (hnone : ∀ j, 0 < (s.inode j).ref → ¬ ((s.inode j).dev = dev ∧ (s.inode j).inum = inum)) :
      Got dev inum s k (s.setInode k { s.inode k with dev := dev, inum := inum, ref := 1, valid := false })

def NoSlot (dev inum : Nat) (s : Volume) (e : String) : Prop :=
  e = "iget: no inodes" ∧
    ∀ k, (s.inode k).ref ≠ 0 ∧ ¬ (0 < (s.inode k).ref ∧ (s.inode k).dev = dev ∧ (s.inode k).inum = inum)

theorem iget_spec : Post (NoSlot dev inum s) (iget dev inum) s (Got dev inum s) := by
  rw [iget, post_read_bind]
  cases hf : (List.finRange NINODE).find? fun k =>
      0 < (s.inode k).ref ∧ (s.inode k).dev = dev ∧ (s.inode k).inum = inum with
  | some k =>
    have hk := List.find?_some hf
    simp only [decide_eq_true_eq] at hk
    exact .again hk.1 hk.2.1 hk.2.2
  | none =>
    have hnone : ∀ k, ¬ (0 < (s.inode k).ref ∧ (s.inode k).dev = dev ∧ (s.inode k).inum = inum) := by
      intro k hk
      have := List.find?_eq_none.mp hf k (List.mem_finRange k)
      simp [hk] at this
    dsimp only
    rw [post_read_bind]
    cases hg : (List.finRange NINODE).find? fun k => (s.inode k).ref = 0 with
    | none =>
      refine ⟨rfl, fun k => ⟨fun hz => ?_, hnone k⟩⟩
      have := List.find?_eq_none.mp hg k (List.mem_finRange k)
      simp [hz] at this
    | some k =>
      have hk := List.find?_some hg
      simp only [decide_eq_true_eq] at hk
      exact .new hk fun j hj hsame => hnone j ⟨hj, hsame⟩

theorem Got.inode (h : Got dev inum s k t) : (t.inode k).dev = dev ∧ (t.inode k).inum = inum ∧ 0 < (t.inode k).ref := by
  cases h with
  | again hpos hdev hinum => simp [Volume.setInode, hdev, hinum]; omega
  | new => simp [Volume.setInode]

theorem Got.disk (h : Got dev inum s k t) : t.bit = s.bit ∧ t.dinode = s.dinode ∧ t.block = s.block := by
  cases h <;> exact ⟨rfl, rfl, rfl⟩

theorem Got.held (h : Got dev inum s k t) (hj : 0 < (s.inode dp).ref) :
    t.inode dp = { s.inode dp with ref := (t.inode dp).ref } ∧ (s.inode dp).ref ≤ (t.inode dp).ref := by
  by_cases hdk : dp = k
  · subst hdk
    cases h with
    | again => simp [Volume.setInode]
    | new hfree => omega
  · cases h <;> simp [Volume.setInode, hdk]

theorem iput_run (h : ¬ ((s.inode k).ref = 1 ∧ (s.inode k).valid = true ∧ (s.inode k).copy.nlink = 0)) :
    iput k s = .ok ((), s.setInode k { s.inode k with ref := (s.inode k).ref - 1 }) := by
  rw [iput, run_bind run_read, when, if_neg h]
  rfl

theorem Got.iput_run (h : Got dev inum s k t) :
    iput k t = .ok ((), t.setInode k { t.inode k with ref := (t.inode k).ref - 1 }) := by
  refine Fs.iput_run ?_
  rintro ⟨hone, hvalid, _⟩
  cases h with
  | again hpos =>
    simp [Volume.setInode] at hone
    omega
  | new => simp [Volume.setInode] at hvalid

structure Same (k : Fin NINODE) (s t : Volume) : Prop where
  bit : t.bit = s.bit
  dinode : t.dinode = s.dinode
  block : t.block = s.block
  inode : t.inode k = s.inode k

theorem Got.put (h : Got dev inum s k t) (hdp : 0 < (s.inode dp).ref) :
    Same dp s (t.setInode k { t.inode k with ref := (t.inode k).ref - 1 }) := by
  by_cases hdk : dp = k
  · subst hdk
    cases h with
    | again => exact ⟨rfl, rfl, rfl, by simp [Volume.setInode]⟩
    | new hfree => omega
  · cases h <;> exact ⟨rfl, rfl, rfl, by simp [Volume.setInode, hdk]⟩

theorem slot_eq {de : Dirent} : (de.inum ≠ 0 ∧ namecmp name de.name = true) ↔ de.slot.map Prod.fst = some (cstr name) := by
  unfold Dirent.slot namecmp
  by_cases hz : de.inum = 0
  · simp [hz]
  · simp [hz, eq_comm]

theorem dirlookup_spec (h : Readable dp s) :
    Post (fun e => ∃ inum, (s.inode dp).copy.binding s.block name = some inum ∧ NoSlot (s.inode dp).dev inum s e)
      (dirlookup sb dp name) s fun r t =>
        r = none ∧ (s.inode dp).copy.binding s.block name = none ∧ t = s ∨
        ∃ ip i inum, r = some (ip, DESIZE * i) ∧ i < (s.inode dp).copy.size / DESIZE ∧
          (s.inode dp).copy.entries s.block i = some (cstr name, inum) ∧
          (s.inode dp).copy.binding s.block name = some inum ∧ Got (s.inode dp).dev inum s ip t := by
  have hp : (fun i => decide (((s.inode dp).copy.entry s.block (DESIZE * i)).inum ≠ 0 ∧
      namecmp name ((s.inode dp).copy.entry s.block (DESIZE * i)).name = true)) =
      fun i => decide (((s.inode dp).copy.entries s.block i).map Prod.fst = some (cstr name)) := by
    funext i
    exact decide_eq_decide.mpr slot_eq
  rw [dirlookup, post_read_bind, if_neg (by simp [h.type]), post_run_bind (dirFind_run h), hp]
  unfold Dinode.binding Slots.get Slots.index
  cases hf : Slots.first (fun i => decide (((s.inode dp).copy.entries s.block i).map Prod.fst = some (cstr name)))
      ((s.inode dp).copy.size / DESIZE) with
  | none => exact .inl ⟨rfl, rfl, rfl⟩
  | some i =>
    obtain ⟨hi, hat, _⟩ := Slots.first_eq_some.mp hf
    obtain ⟨inum, hslot⟩ := Slots.key_iff.mp (decide_eq_true_iff.mp hat)
    have hinum : ((s.inode dp).copy.entry s.block (DESIZE * i)).inum = inum := by
      unfold Dinode.entries Dirent.slot at hslot
      split at hslot
      next => cases hslot
      next => exact (Prod.mk.inj (Option.some.inj hslot)).2
    have hget : (some i).bind (fun i => ((s.inode dp).copy.entries s.block i).map Prod.snd) = some inum := by
      rw [Option.bind_some, hslot]
      rfl
    rw [hget]
    change Post _ (iget (s.inode dp).dev ((s.inode dp).copy.entry s.block (DESIZE * i)).inum >>= fun ip =>
      ret (some (ip, DESIZE * i))) s _
    rw [hinum]
    refine (iget_spec.mono_panic fun e he => ⟨inum, rfl, he⟩).bind fun ip t ht => ?_
    exact .inr ⟨ip, i, inum, rfl, hi, hslot, rfl, ht⟩

/-- The inode at `k` is a directory that its holder may change: a finite map. -/
structure IsDir (sb : Superblock) (k : Fin NINODE) (s : Volume) : Prop extends Readable k s where
  owned : Owned sb k s
  held : 0 < (s.inode k).ref
  unique : Slots.Unique ((s.inode k).copy.entries s.block) ((s.inode k).copy.size / DESIZE)

theorem direntBytes_length (inum : Nat) (name : List UInt8) : (direntBytes inum name).length = DESIZE := by
  simp only [direntBytes, List.length_cons, List.length_append, List.length_take, List.length_replicate]
  unfold DIRSIZ DESIZE
  omega

theorem takeWhile_zeros (l : List UInt8) (m : Nat) :
    (l ++ List.replicate m 0).takeWhile (· ≠ 0) = l.takeWhile (· ≠ 0) := by
  induction l with
  | nil => cases m <;> simp [List.replicate_succ]
  | cons a l ih =>
    rw [List.cons_append, List.takeWhile_cons, List.takeWhile_cons, ih]

theorem cstr_pad : cstr (name.take DIRSIZ ++ List.replicate (DIRSIZ - name.length) 0) = cstr name := by
  unfold cstr
  rw [List.take_of_length_le, takeWhile_zeros]
  rw [List.length_append, List.length_take, List.length_replicate]
  omega

theorem slot_direntBytes (hpos : 0 < inum) (hlt : inum < 65536) :
    (Dirent.ofBytes (direntBytes inum name)).slot = some (cstr name, inum) := by
  have hinum : (Dirent.ofBytes (direntBytes inum name)).inum = inum := by
    simp [Dirent.ofBytes, direntBytes]
    omega
  have hname : (Dirent.ofBytes (direntBytes inum name)).name =
      name.take DIRSIZ ++ List.replicate (DIRSIZ - name.length) 0 := rfl
  rw [Dirent.slot, hinum, if_neg (by omega), hname, cstr_pad]

theorem slot_zero : (Dirent.ofBytes (List.replicate DESIZE 0)).slot = none := rfl

theorem entry_bytes (h : Readable k s) (hi : i < (s.inode k).copy.size / DESIZE) :
    (s.inode k).copy.entries s.block i = (Dirent.ofBytes ((bytes k s (s.inode k).inum).slice (DESIZE * i) DESIZE)).slot := by
  have hal := h.aligned
  have hD : DESIZE = 16 := rfl
  unfold Dinode.entries Dinode.entry
  rw [Bytes.slice_congr fun o hlo hhi => (content_eq_bytes (by simp [h.type]) (h.whole _ ?_)).symm]
  have hdiv := Nat.div_mul_le_self o BSIZE
  rw [hD] at hal hi hhi
  omega

structure Entered (sb : Superblock) (k : Fin NINODE) (i : Nat) (bs : List UInt8) (s t : Volume) : Prop where
  wrote : Wrote sb k (DESIZE * i) bs s t
  size : (t.inode k).copy.size = max (s.inode k).copy.size (DESIZE * i + DESIZE)
  disk : t.dinode (s.inode k).inum = (t.inode k).copy

section Entered

variable (h : Entered sb k i bs s t)

include h

theorem Entered.inode : ∃ a, t.inode k = { s.inode k with
    copy := { (s.inode k).copy with addrs := a, size := max (s.inode k).copy.size (DESIZE * i + DESIZE) } } := by
  obtain ⟨a, z, ha⟩ := h.wrote.inode
  have hself : t.inode k = { s.inode k with copy := { (s.inode k).copy with addrs := a, size := z } } := by
    rw [ha, Function.update_self]
  have hz : z = max (s.inode k).copy.size (DESIZE * i + DESIZE) := by rw [← h.size, hself]
  exact ⟨a, by rw [hself, hz]⟩

theorem Entered.readable (hd : Readable k s) (hbs : bs.length = DESIZE) (hi : DESIZE * i ≤ (s.inode k).copy.size)
    (hmax : DESIZE * i + DESIZE ≤ MAXFILE * BSIZE) : Readable k t where
  type := by
    obtain ⟨a, ha⟩ := h.inode
    rw [ha]
    exact hd.type
  whole := h.wrote.whole (by simp [hd.type]) hd.whole hi (by rw [h.size, hbs])
  aligned := by
    have hal := hd.aligned
    have hD : DESIZE = 16 := rfl
    rw [h.size]
    rw [hD] at hal ⊢
    omega
  size_le := by
    have hle := hd.size_le
    rw [h.size]
    omega


theorem Entered.count (hd : Readable k s) :
    (t.inode k).copy.size / DESIZE = max ((s.inode k).copy.size / DESIZE) (i + 1) := by
  have hal := hd.aligned
  have hD : DESIZE = 16 := rfl
  rw [h.size]
  rw [hD] at hal ⊢
  omega

theorem Entered.self (hd : Readable k s) (ht : Readable k t) (hbs : bs.length = DESIZE) :
    (t.inode k).copy.entries t.block i = (Dirent.ofBytes bs).slot := by
  have hcount := h.count hd
  rw [entry_bytes ht (by omega), h.wrote.inum, h.wrote.self, ← hbs, Bytes.slice_write_self]

theorem Entered.agree (hd : Readable k s) (ht : Readable k t) (hbs : bs.length = DESIZE) :
    Slots.Agree ((s.inode k).copy.entries s.block) ((t.inode k).copy.entries t.block) ((s.inode k).copy.size / DESIZE) i := by
  intro j hj hji
  have hcount := h.count hd
  have hD : DESIZE = 16 := rfl
  rw [entry_bytes ht (by omega), entry_bytes hd hj, h.wrote.inum, h.wrote.self, Bytes.slice_write_other]
  rw [hbs, hD]
  omega

theorem Entered.held : (t.inode k).ref = (s.inode k).ref := by
  obtain ⟨a, ha⟩ := h.inode
  rw [ha]

end Entered

theorem writei_entry (h : Owned sb k s) (hbs : bs.length = DESIZE) (hi : DESIZE * i ≤ (s.inode k).copy.size)
    (hmax : DESIZE * i + DESIZE ≤ MAXFILE * BSIZE) :
    Post (fun _ => freeCount sb s < (missing k s (wanted (DESIZE * i) DESIZE)).card)
      (writei sb k bs (DESIZE * i) DESIZE) s fun r t => r = some DESIZE ∧ Entered sb k i bs s t := by
  have hall : written (DESIZE * i) bs.length DESIZE = DESIZE := if_pos (Nat.le_of_eq hbs.symm)
  refine ((writei_spec h hi hmax).mono_panic fun e he => he.2).mono ?_
  rintro r t ⟨hr, hwrote, hsize, hdisk, _⟩
  rw [hall] at hr hsize
  rw [List.take_of_length_le (Nat.le_of_eq hbs)] at hwrote
  exact ⟨hr, hwrote, hsize, hdisk⟩

theorem writei_beyond (hi : DESIZE * i ≤ (s.inode k).copy.size) (hmax : ¬ DESIZE * i + DESIZE ≤ MAXFILE * BSIZE)
    (hsize : (s.inode k).copy.size ≤ MAXFILE * BSIZE) : writei sb k bs (DESIZE * i) DESIZE s = .ok (none, s) := by
  have hM : MAXFILE * BSIZE = 274432 := rfl
  have hD : DESIZE = 16 := rfl
  unfold writei
  rw [run_bind run_read, if_neg (by omega), if_pos (by omega)]
  rfl

def Room (sb : Superblock) (k : Fin NINODE) (s : Volume) : Prop :=
  (∃ i < (s.inode k).copy.size / DESIZE, (s.inode k).copy.entries s.block i = none) ∨
    (s.inode k).copy.size + DESIZE ≤ MAXFILE * BSIZE ∧
      (missing k s (wanted (s.inode k).copy.size DESIZE)).card ≤ freeCount sb s

theorem entries_none : d.entries blk i = none ↔ (d.entry blk (DESIZE * i)).inum = 0 := by
  unfold Dinode.entries Dirent.slot
  split
  next h => simp [h]
  next h => simp [h]

theorem IsDir.link (h : IsDir sb dp s) (he : Entered sb dp i (direntBytes inum name) s t)
    (hi : DESIZE * i ≤ (s.inode dp).copy.size) (hmax : DESIZE * i + DESIZE ≤ MAXFILE * BSIZE)
    (hhole : i < (s.inode dp).copy.size / DESIZE → (s.inode dp).copy.entries s.block i = none)
    (hpos : 0 < inum) (hlt : inum < 65536) (hnew : (s.inode dp).copy.binding s.block name = none) :
    IsDir sb dp t ∧ ∀ name', (t.inode dp).copy.binding t.block name' =
      if cstr name' = cstr name then some inum else (s.inode dp).copy.binding s.block name' := by
  have ht := he.readable h.toReadable (direntBytes_length inum name) hi hmax
  have hself := he.self h.toReadable ht (direntBytes_length inum name)
  rw [slot_direntBytes hpos hlt] at hself
  have hag := he.agree h.toReadable ht (direntBytes_length inum name)
  have hin : i ≤ (s.inode dp).copy.size / DESIZE := by
    have hD : DESIZE = 16 := rfl
    rw [hD] at hi ⊢
    omega
  refine ⟨⟨ht, he.wrote.owned, by rw [he.held]; exact h.held, ?_⟩, fun name' => ?_⟩
  · rw [he.count h.toReadable]
    exact h.unique.insert hag hin hself hnew
  · unfold Dinode.binding
    rw [he.count h.toReadable]
    exact Slots.get_insert h.unique hag hin hself hhole hnew

theorem IsDir.clear (h : IsDir sb dp s) (he : Entered sb dp i (List.replicate DESIZE 0) s t)
    (hi : i < (s.inode dp).copy.size / DESIZE) (hold : (s.inode dp).copy.entries s.block i = some (cstr name, inum)) :
    IsDir sb dp t ∧ ∀ name', (t.inode dp).copy.binding t.block name' =
      if cstr name' = cstr name then none else (s.inode dp).copy.binding s.block name' := by
  have hlen : (List.replicate DESIZE (0 : UInt8)).length = DESIZE := List.length_replicate
  have hal := h.aligned
  have hsize := h.size_le
  have hD : DESIZE = 16 := rfl
  have hle : DESIZE * i + DESIZE ≤ (s.inode dp).copy.size := by
    rw [hD] at hal hi ⊢
    omega
  have ht := he.readable h.toReadable hlen (by omega) (by omega)
  have hself := he.self h.toReadable ht hlen
  rw [slot_zero] at hself
  have hag := he.agree h.toReadable ht hlen
  have hcount : (t.inode dp).copy.size / DESIZE = (s.inode dp).copy.size / DESIZE := by
    rw [he.count h.toReadable]
    omega
  refine ⟨⟨ht, he.wrote.owned, by rw [he.held]; exact h.held, ?_⟩, fun name' => ?_⟩
  · rw [hcount]
    exact h.unique.clear hag hself
  · unfold Dinode.binding
    rw [hcount]
    exact Slots.get_clear h.unique hag hself hi hold

theorem link_offset (sb : Superblock) (h : Readable dp s) : ∃ i,
    ((((Slots.first (fun i => decide (((s.inode dp).copy.entry s.block (DESIZE * i)).inum = 0))
      ((s.inode dp).copy.size / DESIZE)).map fun i => (DESIZE * i, (s.inode dp).copy.entry s.block (DESIZE * i))).map
        Prod.fst).getD (((s.inode dp).copy.size + DESIZE - 1) / DESIZE * DESIZE)) = DESIZE * i ∧
    DESIZE * i ≤ (s.inode dp).copy.size ∧
    (i < (s.inode dp).copy.size / DESIZE → (s.inode dp).copy.entries s.block i = none) ∧
    (Room sb dp s → DESIZE * i + DESIZE ≤ MAXFILE * BSIZE ∧
      (missing dp s (wanted (DESIZE * i) DESIZE)).card ≤ freeCount sb s) := by
  have hal := h.aligned
  have hsize := h.size_le
  have hD : DESIZE = 16 := rfl
  cases hf : Slots.first (fun i => decide (((s.inode dp).copy.entry s.block (DESIZE * i)).inum = 0))
      ((s.inode dp).copy.size / DESIZE) with
  | some i =>
    obtain ⟨hi, hat, _⟩ := Slots.first_eq_some.mp hf
    have hle : DESIZE * i + DESIZE ≤ (s.inode dp).copy.size := by
      rw [hD] at hal hi ⊢
      omega
    refine ⟨i, rfl, by omega, fun _ => entries_none.mpr (decide_eq_true_iff.mp hat), fun _ => ⟨by omega, ?_⟩⟩
    rw [missing_whole (by simp [h.type]) h.whole hle, Finset.card_empty]
    exact Nat.zero_le _
  | none =>
    rw [Slots.first_eq_none] at hf
    have hend : DESIZE * ((s.inode dp).copy.size / DESIZE) = (s.inode dp).copy.size := by
      rw [hD] at hal ⊢
      omega
    refine ⟨(s.inode dp).copy.size / DESIZE, ?_, by omega, fun hno => absurd hno (Nat.lt_irrefl _), fun hroom => ?_⟩
    · rw [Option.map_none, Option.map_none, Option.getD_none, hD]
      rw [hD] at hal
      omega
    · rcases hroom with ⟨i, hi, hhole⟩ | ⟨hmax, hfree⟩
      · exact absurd (entries_none.mp hhole) (of_decide_eq_false (hf i hi))
      · rw [hend]
        exact ⟨hmax, hfree⟩

/-- `dirlink` fails without any change if the name is bound, and binds it otherwise, given room and an
entry of the inode table. -/
theorem dirlink_spec (h : IsDir sb dp s) (hpos : 0 < inum) (hlt : inum < 65536) :
    Post (fun e => (∃ i, (s.inode dp).copy.binding s.block name = some i ∧ NoSlot (s.inode dp).dev i s e) ∨ ¬ Room sb dp s)
      (dirlink sb dp name inum) s fun ok t =>
        ok = false ∧ (s.inode dp).copy.binding s.block name ≠ none ∧ Same dp s t ∨
        ok = true ∧ (s.inode dp).copy.binding s.block name = none ∧ IsDir sb dp t ∧
          (∃ i, Entered sb dp i (direntBytes inum name) s t) ∧
          ∀ name', (t.inode dp).copy.binding t.block name' =
            if cstr name' = cstr name then some inum else (s.inode dp).copy.binding s.block name' := by
  refine ((dirlookup_spec h.toReadable).mono_panic fun e he => .inl he).bind ?_
  rintro r t (⟨rfl, hnone, rfl⟩ | ⟨ip, i, j, rfl, _, _, hsome, hgot⟩)
  · obtain ⟨i, hoff, hle, hhole, hfits⟩ := link_offset sb h.toReadable
    dsimp only
    rw [post_read_bind, post_run_bind (dirFind_run h.toReadable), hoff]
    by_cases hmax : DESIZE * i + DESIZE ≤ MAXFILE * BSIZE
    · refine ((writei_entry h.owned (direntBytes_length inum name) hle hmax).mono_panic fun e he =>
        .inr fun hroom => absurd he (Nat.not_lt.mpr (hfits hroom).2)).bind ?_
      rintro r t ⟨rfl, he⟩
      obtain ⟨ht, hmap⟩ := h.link he hle hmax hhole hpos hlt hnone
      rw [if_neg (by simp)]
      exact .inr ⟨rfl, hnone, ht, ⟨i, he⟩, hmap⟩
    · rw [post_run_bind (writei_beyond hle hmax h.size_le), if_pos (by simp), post_halt]
      exact .inr fun hroom => hmax (hfits hroom).1
  · dsimp only
    rw [post_run_bind hgot.iput_run]
    exact .inl ⟨rfl, by simp [hsome], hgot.put h.held⟩

structure Untouched (sb : Superblock) (k : Fin NINODE) (s t : Volume) : Prop where
  owned : Owned sb k t
  held : 0 < (t.inode k).ref
  type : (t.inode k).copy.type = (s.inode k).copy.type
  size : (t.inode k).copy.size = (s.inode k).copy.size
  slots : ∀ x, (t.inode k).copy.slot t.block x = (s.inode k).copy.slot s.block x
  data : ∀ bn, t.block ((s.inode k).copy.slot s.block (.index bn)) = s.block ((s.inode k).copy.slot s.block (.index bn))

theorem Untouched.entries (h : Untouched sb k s t) : (t.inode k).copy.entries t.block = (s.inode k).copy.entries s.block := by
  have hcontent : (t.inode k).copy.content t.block = (s.inode k).copy.content s.block := by
    funext o
    unfold Dinode.content
    rw [h.slots, h.data]
  funext i
  unfold Dinode.entries Dinode.entry
  rw [hcontent]

theorem Untouched.isDir (h : Untouched sb k s t) (hd : IsDir sb k s) : IsDir sb k t where
  type := h.type.trans hd.type
  whole := by
    intro bn hbn
    rw [h.slots]
    rw [h.size] at hbn
    exact hd.whole bn hbn
  aligned := h.size.symm ▸ hd.aligned
  size_le := h.size.symm ▸ hd.size_le
  owned := h.owned
  held := h.held
  unique := by
    rw [h.entries, h.size]
    exact hd.unique

theorem Untouched.binding (h : Untouched sb k s t) :
    (t.inode k).copy.binding t.block name = (s.inode k).copy.binding s.block name := by
  unfold Dinode.binding
  rw [h.entries, h.size]

theorem Untouched.of_disk {v : Int} (hd : IsDir sb k s) (hdisk : t.bit = s.bit ∧ t.dinode = s.dinode ∧ t.block = s.block)
    (hinode : t.inode k = { s.inode k with ref := v }) (hpos : 0 < v) : Untouched sb k s t := by
  obtain ⟨hbit, hdinode, hblock⟩ := hdisk
  have hcur : cur k t = cur k s := by
    unfold cur
    rw [hdinode, hinode]
  refine ⟨⟨?_, ?_⟩, ?_, ?_, ?_, fun x => ?_, fun bn => ?_⟩
  · rw [hinode]
    exact hd.owned.used
  · unfold places
    rw [hbit, hcur, hblock]
    exact hd.owned.placed
  · rwa [hinode]
  · rw [hinode]
  · rw [hinode]
  · rw [hinode, hblock]
  · rw [hblock]

theorem Got.untouched (h : Got dev inum s k t) (hd : IsDir sb dp s) : Untouched sb dp s t := by
  obtain ⟨hinode, hle⟩ := h.held hd.held
  exact .of_disk hd h.disk hinode (Int.lt_of_lt_of_le hd.held hle)

theorem Same.untouched (h : Same dp s t) (hd : IsDir sb dp s) : Untouched sb dp s t :=
  .of_disk hd ⟨h.bit, h.dinode, h.block⟩ (v := (s.inode dp).ref) h.inode hd.held

/-- The states that `dirlink` and the clearing of entries by `sys_unlink` lead to from an empty
directory, while other calls do not touch it. -/
inductive DirReach (sb : Superblock) (dp : Fin NINODE) : Volume → Prop
  | empty {s : Volume} (howned : Owned sb dp s) (hheld : 0 < (s.inode dp).ref) (htype : (s.inode dp).copy.type = .dir)
      (hsize : (s.inode dp).copy.size = 0) : DirReach sb dp s
  | link {s t : Volume} {name : List UInt8} {inum : Nat} {ok : Bool} (hs : DirReach sb dp s) (hpos : 0 < inum)
      (hlt : inum < 65536)
      (hrun : dirlink sb dp name inum s = .ok (ok, t)) : DirReach sb dp t
  | clear {s t u : Volume} {name : List UInt8} {ip : Fin NINODE} {off : Nat} {r : Option Nat} (hs : DirReach sb dp s)
      (hlook : dirlookup sb dp name s = .ok (some (ip, off), t))
      (hrun : writei sb dp (List.replicate DESIZE 0) off DESIZE t = .ok (r, u)) : DirReach sb dp u
  | other {s t : Volume} (hs : DirReach sb dp s) (h : Untouched sb dp s t) : DirReach sb dp t

theorem clear_spec (h : IsDir sb dp s) (hlook : dirlookup sb dp name s = .ok (some (ip, off), t)) :
    ∃ u, writei sb dp (List.replicate DESIZE 0) off DESIZE t = .ok (some DESIZE, u) ∧ IsDir sb dp u ∧
      ∀ name', (u.inode dp).copy.binding u.block name' =
        if cstr name' = cstr name then none else (s.inode dp).copy.binding s.block name' := by
  obtain ⟨hno, _⟩ | ⟨ip', i, inum, hr, hi, hold, _, hgot⟩ := (dirlookup_spec h.toReadable).of_eq hlook
  · cases hno
  cases hr
  have hun := hgot.untouched h
  have ht := hun.isDir h
  have hal := h.aligned
  have hsize := h.size_le
  have hD : DESIZE = 16 := rfl
  have hle : DESIZE * i + DESIZE ≤ (t.inode dp).copy.size := by
    rw [hun.size]
    rw [hD] at hal hi ⊢
    omega
  have hmiss : missing dp t (wanted (DESIZE * i) DESIZE) = ∅ := missing_whole (by simp [ht.type]) ht.whole hle
  have hrun : Returns (writei sb dp (List.replicate DESIZE 0) (DESIZE * i) DESIZE) t _ :=
    (writei_entry ht.owned List.length_replicate (by omega) (by rw [hun.size] at hle; omega)).mono_panic fun e he => by
      rw [hmiss, Finset.card_empty] at he
      exact absurd he (Nat.not_lt_zero _)
  obtain ⟨r, u, hrun, rfl, he⟩ := hrun.exists
  rw [← hun.entries] at hold
  rw [← hun.size] at hi
  obtain ⟨hu, hmap⟩ := ht.clear he hi hold
  refine ⟨u, hrun, hu, fun name' => ?_⟩
  rw [hmap, hun.binding]

theorem DirReach.isDir (h : DirReach sb dp s) : IsDir sb dp s := by
  induction h with
  | @empty s howned hheld htype hsize =>
    refine ⟨⟨htype, fun bn hbn => ?_, by rw [hsize]; rfl, by omega⟩, howned, hheld, fun i j key v w hi => ?_⟩
    · rw [hsize] at hbn
      exact absurd hbn (Nat.not_lt_zero _)
    · rw [hsize] at hi
      exact absurd hi (Nat.not_lt_zero _)
  | link _ hpos hlt hrun ih =>
    obtain ⟨_, _, hsame⟩ | ⟨_, _, ht, _⟩ := (dirlink_spec ih hpos hlt).of_eq hrun
    · exact (hsame.untouched ih).isDir ih
    · exact ht
  | clear _ hlook hrun ih =>
    obtain ⟨u, hrun', hu, _⟩ := clear_spec ih hlook
    rw [hrun] at hrun'
    cases hrun'
    exact hu
  | other _ hun ih => exact hun.isDir ih

theorem ite_strncmp {α : Type} {x y : α} :
    (if strncmp a b DIRSIZ = 0 then x else y) = if cstr a = cstr b then x else y :=
  if_congr strncmp_name rfl rfl

/-- A directory is a finite map from names cut to `DIRSIZ` bytes to inode numbers. The only panic is the
one of `iget` without a place in the inode table. -/
theorem directory_map (h : DirReach sb dp s) :
    (s.inode dp).copy.size % DESIZE = 0 ∧
    (∀ i j, i < (s.inode dp).copy.size / DESIZE → j < (s.inode dp).copy.size / DESIZE →
      ((s.inode dp).copy.entry s.block (DESIZE * i)).inum ≠ 0 → ((s.inode dp).copy.entry s.block (DESIZE * j)).inum ≠ 0 →
      strncmp ((s.inode dp).copy.entry s.block (DESIZE * i)).name ((s.inode dp).copy.entry s.block (DESIZE * j)).name DIRSIZ = 0 →
      i = j) ∧
    (∀ name, Post (fun e => ∃ i, (s.inode dp).copy.binding s.block name = some i ∧ NoSlot (s.inode dp).dev i s e)
      (dirlookup sb dp name) s fun r t =>
        r.map (fun x => (t.inode x.1).inum) = (s.inode dp).copy.binding s.block name ∧
        DirReach sb dp t ∧ (∀ name', (t.inode dp).copy.binding t.block name' = (s.inode dp).copy.binding s.block name') ∧
        ∀ ip off, r = some (ip, off) → ∃ u, writei sb dp (List.replicate DESIZE 0) off DESIZE t = .ok (some DESIZE, u) ∧
          DirReach sb dp u ∧ ∀ name', (u.inode dp).copy.binding u.block name' =
            if strncmp name' name DIRSIZ = 0 then none else (s.inode dp).copy.binding s.block name') ∧
    ∀ name inum, 0 < inum → inum < 65536 → Room sb dp s →
      Post (fun e => ∃ i, (s.inode dp).copy.binding s.block name = some i ∧ NoSlot (s.inode dp).dev i s e)
        (dirlink sb dp name inum) s fun ok t => DirReach sb dp t ∧
          (ok = false ↔ (s.inode dp).copy.binding s.block name ≠ none) ∧ (ok = false → Same dp s t) ∧
          (ok = true → ∀ name', (t.inode dp).copy.binding t.block name' =
            if strncmp name' name DIRSIZ = 0 then some inum else (s.inode dp).copy.binding s.block name') := by
  have hd := h.isDir
  refine ⟨hd.aligned, fun i j hi hj hui huj hsame => ?_, fun name => ?_, fun name inum hpos hlt hroom => ?_⟩
  · have hname := strncmp_name.mp hsame
    have hslot : (s.inode dp).copy.entries s.block i = some (_, _) := if_neg hui
    have hslot' : (s.inode dp).copy.entries s.block j = some (_, _) := if_neg huj
    rw [← hname] at hslot'
    exact hd.unique i j _ _ _ hi hj hslot hslot'
  · refine (dirlookup_spec hd.toReadable).with_run.mono ?_
    rintro r t ⟨hrun, ⟨rfl, hnone, rfl⟩ | ⟨ip, i, inum, rfl, _, _, hsome, hgot⟩⟩
    · exact ⟨hnone.symm, h, fun _ => rfl, fun ip off hr => by cases hr⟩
    · have hun := hgot.untouched hd
      refine ⟨?_, h.other hun, fun name' => hun.binding, fun ip' off hr => ?_⟩
      · rw [hsome, Option.map_some, hgot.inode.2.1]
      · rw [hr] at hrun
        obtain ⟨u, hwrite, _, hmap⟩ := clear_spec hd hrun
        refine ⟨u, hwrite, h.clear hrun hwrite, fun name' => ?_⟩
        rw [hmap, ite_strncmp]
  · refine ((dirlink_spec hd hpos hlt).mono_panic fun e he => he.resolve_right fun hno => hno hroom).with_run.mono ?_
    rintro ok t ⟨hrun, ⟨rfl, hbound, hsame⟩ | ⟨rfl, hfree, _, _, hmap⟩⟩
    · exact ⟨h.link hpos hlt hrun, ⟨fun _ => hbound, fun _ => rfl⟩, fun _ => hsame, fun hno => by cases hno⟩
    · refine ⟨h.link hpos hlt hrun, ⟨fun hno => (by cases hno), fun hno => absurd hfree hno⟩, fun hno => (by cases hno),
        fun _ name' => ?_⟩
      rw [hmap, ite_strncmp]

def emptyDir : Volume where
  bit := fun b => b == 0
  dinode := fun i => if i = 1 then { type := .dir, nlink := 1 } else {}
  block := fun _ _ => 0
  inode := Function.update (fun _ => {}) ⟨0, zero_lt_NINODE⟩
    { dev := 1, inum := 1, ref := 1, valid := true, copy := { type := .dir, nlink := 1 } }

theorem emptyDir_reach : DirReach smallDisk ⟨0, zero_lt_NINODE⟩ emptyDir := by
  refine .empty (.of_blank (by simp [emptyDir]) (fun i => ?_) fun b hb => blank_data rfl hb) (by simp [emptyDir])
    (by simp [emptyDir]) (by simp [emptyDir])
  by_cases hi : i = 1 <;> simp [cur, emptyDir, hi]

theorem directory_map_empty : DirReach smallDisk ⟨0, zero_lt_NINODE⟩ emptyDir ∧
    ∃ t, dirlink smallDisk ⟨0, zero_lt_NINODE⟩ [97] 1 emptyDir = .ok (true, t) ∧
      (t.inode ⟨0, zero_lt_NINODE⟩).copy.binding t.block [97] = some 1 ∧
      (t.inode ⟨0, zero_lt_NINODE⟩).copy.binding t.block [98] = none := by
  obtain ⟨_, _, _, hlink⟩ := directory_map emptyDir_reach
  have hnone : ∀ name, (emptyDir.inode ⟨0, zero_lt_NINODE⟩).copy.binding emptyDir.block name = none := fun _ => rfl
  have hroom : Room smallDisk ⟨0, zero_lt_NINODE⟩ emptyDir := by
    refine .inr ⟨by decide, Nat.le_trans (Finset.card_filter_le _ _) ?_⟩
    decide
  have hspec : Returns (dirlink smallDisk ⟨0, zero_lt_NINODE⟩ [97] 1) emptyDir _ :=
    (hlink [97] 1 (by decide) (by decide) hroom).mono_panic fun e he => by
      obtain ⟨i, hi, _⟩ := he
      rw [hnone] at hi
      cases hi
  obtain ⟨ok, t, hrun, _, hbound, _, hmap⟩ := hspec.exists
  have hok : ok = true := by
    cases ok with
    | true => rfl
    | false => exact absurd (hnone [97]) (hbound.mp rfl)
  subst hok
  refine ⟨emptyDir_reach, t, hrun, (hmap rfl [97]).trans (if_pos rfl), (hmap rfl [98]).trans ?_⟩
  exact (if_neg (by decide)).trans (hnone _)

end TweakedXv6.Fs
