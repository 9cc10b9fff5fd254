import TweakedXv6.MkfsBlocks

namespace TweakedXv6.Mkfs

open Prog Fs
open Function (update update_idem update_self update_of_ne update_eq_self)

def blocksFor (n : Nat) : Nat := (n + (BSIZE - 1)) / BSIZE

def total (m : Nat → Nat) : Nat := nmeta + ∑ i ∈ Finset.range NINODES, taken (m i)

def need (data : Nat → List UInt8) : Nat := total fun i => blocksFor (data i).length

variable {D : Nat → Dinode} {s t u : Disk} {data : Nat → List UInt8} {i j b bn n off x : Nat} {m : Nat → Nat}
  {bs p : List UInt8} {blk : Nat → Bytes} {d din : Dinode} {f : Prog Disk (Dinode × Nat)}

theorem lt_blocksFor : bn < blocksFor n ↔ bn * BSIZE < n := by
  have hB : BSIZE = 1024 := rfl
  unfold blocksFor
  rw [hB]
  omega

theorem blocksFor_full (h : off % BSIZE = 0) : blocksFor off = off / BSIZE := by
  have hB : BSIZE = 1024 := rfl
  unfold blocksFor
  rw [hB] at h ⊢
  omega

theorem blocksFor_part (h : off % BSIZE ≠ 0) : blocksFor off = off / BSIZE + 1 := by
  have hB : BSIZE = 1024 := rfl
  unfold blocksFor
  rw [hB] at h ⊢
  omega

theorem blocksFor_append (hpos : 0 < n) (hn : n ≤ (off / BSIZE + 1) * BSIZE - off) :
    blocksFor (off + n) = off / BSIZE + 1 := by
  have hB : BSIZE = 1024 := rfl
  unfold blocksFor
  rw [hB] at hn ⊢
  omega

theorem taken_mono {k : Nat} (h : n ≤ k) : taken n ≤ taken k := by
  unfold taken
  split <;> split <;> omega

theorem total_mono {m' : Nat → Nat} (h : ∀ i, m i ≤ m' i) : total m ≤ total m' :=
  Nat.add_le_add_left (Finset.sum_le_sum fun i _ => taken_mono (h i)) nmeta

theorem need_mono {data' : Nat → List UInt8} (h : ∀ i, (data i).length ≤ (data' i).length) : need data ≤ need data' := by
  refine total_mono fun i => Nat.div_le_div_right ?_
  have := h i
  omega

/-- The image holds the files `data` in the inodes `D`; the blocks from `freeblock` on are still zero. -/
structure Holds (D : Nat → Dinode) (s : Disk) (data : Nat → List UInt8) : Prop where
  len : s.len = FSSIZE
  le : s.freeblock ≤ FSSIZE
  blocks : Blocks (slot D s.sect) s.freeblock fun i => blocksFor (data i).length
  zero : ∀ b, s.freeblock ≤ b → s.sect b = fun _ => 0
  bytes : ∀ i o, o < (data i).length →
    s.sect (slot D s.sect (i, .index (o / BSIZE))) (o % BSIZE) = (data i).getD o 0

structure Kept (s t : Disk) : Prop where
  len : t.len = s.len
  freeinode : t.freeinode = s.freeinode
  low : ∀ b, b < nmeta → t.sect b = s.sect b

theorem Kept.refl (s : Disk) : Kept s s := ⟨rfl, rfl, fun _ _ => rfl⟩

theorem Kept.trans (h : Kept s t) (h' : Kept t u) : Kept s u :=
  ⟨h'.len.trans h.len, h'.freeinode.trans h.freeinode, fun b hb => (h'.low b hb).trans (h.low b hb)⟩

/-- Inode `i` has a block with index `bn`, there before or new; the other blocks with data are as they
were. -/
structure Opened (D : Nat → Dinode) (s : Disk) (i bn : Nat) (m : Nat → Nat) (din : Dinode) (x : Nat) (t : Disk) :
    Prop where
  kept : Kept s t
  le : t.freeblock ≤ FSSIZE
  addrs : ∃ a, din = { D i with addrs := a }
  place : slot (update D i din) t.sect (i, .index bn) = x
  blocks : Blocks (slot (update D i din) t.sect) t.freeblock (update m i (bn + 1))
  zero : ∀ b, t.freeblock ≤ b → t.sect b = fun _ => 0
  slots : ∀ w, slot D s.sect w ≠ 0 → slot (update D i din) t.sect w = slot D s.sect w
  data : ∀ w, w.2 ≠ .addr NDIRECT → slot D s.sect w ≠ 0 → t.sect (slot D s.sect w) = s.sect (slot D s.sect w)

theorem slot_addr (ht : (D i).type ≠ .free) {a : Nat} (ha : a ≤ NDIRECT) :
    slot D blk (i, .addr a) = (D i).addrs a := by
  rw [slot_used ht, Dinode.slot, if_pos ha]

theorem index_direct (h : bn < NDIRECT) : Slot.index bn = .addr bn := if_pos h

theorem index_entry (h : ¬ bn < NDIRECT) : Slot.index bn = .entry (bn - NDIRECT) := if_neg h

theorem slot_entry (ht : (D i).type ≠ .free) (hbn : bn < MAXFILE) (hge : ¬ bn < NDIRECT)
    (ha : (D i).addrs NDIRECT ≠ 0) : slot D blk (i, .index bn) = (blk ((D i).addrs NDIRECT)).word (bn - NDIRECT) := by
  have hM : MAXFILE = NDIRECT + NINDIRECT := rfl
  rw [slot_used ht, index_entry hge, Dinode.slot, if_pos ⟨by omega, ha⟩]

theorem rsect_run (h : b < s.len) : rsect b s = .ok (s.sect b, s) := by
  rw [rsect, run_bind run_read, id_eq, if_pos h]
  rfl

theorem rsect_fail (h : s.len ≤ b) : rsect b s = .error "read" := by
  rw [rsect, run_bind run_read, id_eq, if_neg (Nat.not_lt.mpr h)]
  rfl

theorem wsect_run (h : b < s.len) {c : Bytes} :
    wsect b c s = .ok ((), { s with sect := update s.sect b c }) := by
  rw [wsect, run_change, Nat.max_eq_left h]

theorem nextBlock_run : nextBlock s = .ok (s.freeblock, { s with freeblock := s.freeblock + 1 }) := rfl

theorem fileBlock_there (ht : (D i).type ≠ .free) (hbn : bn < MAXFILE) (hx : slot D s.sect (i, .index bn) ≠ 0)
    (hlow : (D i).addrs NDIRECT < s.len) : fileBlock (D i) bn s = .ok ((D i, slot D s.sect (i, .index bn)), s) := by
  unfold fileBlock
  by_cases hlt : bn < NDIRECT
  · have hslot : slot D s.sect (i, .index bn) = (D i).addrs bn := by
      rw [index_direct hlt, slot_addr ht (Nat.le_of_lt hlt)]
    rw [hslot] at hx ⊢
    rw [if_pos hlt, addrAlloc, if_neg hx]
    rfl
  · have ha : (D i).addrs NDIRECT ≠ 0 := by
      intro h0
      rw [slot_used ht, index_entry hlt, Dinode.slot, if_neg fun h => h.2 h0] at hx
      exact hx rfl
    rw [slot_entry ht hbn hlt ha] at hx ⊢
    rw [if_neg hlt, addrAlloc, if_neg ha]
    change (rsect ((D i).addrs NDIRECT) >>= _) s = _
    rw [run_bind (rsect_run hlow), if_neg hx]
    rfl

theorem fileBlock_direct (hbn : bn < NDIRECT) (h0 : d.addrs bn = 0) :
    fileBlock d bn s = .ok (({ d with addrs := update d.addrs bn s.freeblock }, s.freeblock),
      { s with freeblock := s.freeblock + 1 }) := by
  rw [fileBlock, if_pos hbn, addrAlloc, if_pos h0]
  change Except.ok ((_, update d.addrs bn s.freeblock bn), _) = _
  rw [update_self]

theorem fileBlock_entry (hbn : ¬ bn < NDIRECT) (ha : d.addrs NDIRECT ≠ 0) (hlen : d.addrs NDIRECT < s.len)
    (h0 : (s.sect (d.addrs NDIRECT)).word (bn - NDIRECT) = 0) :
    fileBlock d bn s = .ok ((d, s.freeblock), { s with
      sect := update s.sect (d.addrs NDIRECT)
        ((s.sect (d.addrs NDIRECT)).setWord (bn - NDIRECT) s.freeblock)
      freeblock := s.freeblock + 1 }) := by
  rw [fileBlock, if_neg hbn, addrAlloc, if_neg ha]
  change (rsect (d.addrs NDIRECT) >>= _) s = _
  rw [run_bind (rsect_run hlen), if_pos h0, run_bind nextBlock_run,
    run_bind (@wsect_run { s with freeblock := s.freeblock + 1 } _ hlen _)]
  rfl

theorem addrAlloc_new (ha : d.addrs j = 0) : addrAlloc d j s =
    .ok ({ d with addrs := update d.addrs j s.freeblock }, { s with freeblock := s.freeblock + 1 }) := by
  rw [addrAlloc, if_pos ha]
  rfl

theorem fileBlock_indirect (ha : d.addrs NDIRECT = 0) (hlen : s.freeblock < s.len)
    (h0 : s.sect s.freeblock = fun _ => 0) :
    fileBlock d NDIRECT s = .ok (({ d with addrs := update d.addrs NDIRECT s.freeblock }, s.freeblock + 1),
      { s with
        sect := update s.sect s.freeblock (Bytes.setWord (fun _ => 0) 0 (s.freeblock + 1))
        freeblock := s.freeblock + 2 }) := by
  have hword : (s.sect s.freeblock).word (NDIRECT - NDIRECT) = 0 := by rw [h0, Bytes.word_zero]
  rw [fileBlock, if_neg (Nat.lt_irrefl _), run_bind (addrAlloc_new ha)]
  dsimp only
  rw [update_self, run_bind (@rsect_run { s with freeblock := s.freeblock + 1 } _ hlen), if_pos hword,
    run_bind nextBlock_run, run_bind (@wsect_run { s with freeblock := s.freeblock + 2 } _ hlen _), h0]
  rfl

theorem fileBlock_indirect_fail (ha : d.addrs NDIRECT = 0) (hlen : s.len ≤ s.freeblock) :
    fileBlock d NDIRECT s = .error "read" := by
  rw [fileBlock, if_neg (Nat.lt_irrefl _), run_bind (addrAlloc_new ha)]
  dsimp only
  rw [update_self]
  exact bind_error (@rsect_fail { s with freeblock := s.freeblock + 1 } _ hlen)

theorem Blocks.range {f : Nat × Slot → Nat} {fb : Nat} (h : Blocks f fb m) {w : Nat × Slot} (hw : f w ≠ 0) :
    nmeta ≤ f w ∧ f w < fb ∧ f w < FSSIZE := by
  obtain ⟨hdata, hbit⟩ := h.placed.marked hw
  exact ⟨hdata.1, of_decide_eq_true hbit, hdata.2⟩

section Open

variable (h : Blocks (slot D s.sect) s.freeblock m) (hi : i < NINODES) (ht : (D i).type ≠ .free)
  (hzero : ∀ b, s.freeblock ≤ b → s.sect b = fun _ => 0)
include h

theorem Blocks.fresh (w : Nat × Slot) (hw : slot D s.sect w ≠ 0) : slot D s.sect w ≠ s.freeblock :=
  Nat.ne_of_lt (h.range hw).2.1

include ht

theorem Blocks.addrs_zero (hbn : m i ≤ NDIRECT) : (D i).addrs (m i) = 0 := by
  rw [← slot_addr ht hbn]
  rcases Nat.lt_or_eq_of_le hbn with hlt | heq
  · rw [← index_direct hlt]
    exact h.index_zero (Nat.le_refl _)
  · rw [heq]
    exact h.indirect_zero (Nat.le_of_eq heq)

theorem Blocks.entry_none (hbn : NDIRECT < m i) (hmax : m i < MAXFILE) : (D i).addrs NDIRECT ≠ 0 ∧
    (s.sect ((D i).addrs NDIRECT)).word (m i - NDIRECT) = 0 := by
  have hind : slot D s.sect (i, .addr NDIRECT) ≠ 0 := (h.indirect i).mpr hbn
  rw [slot_addr ht (Nat.le_refl _)] at hind
  refine ⟨hind, ?_⟩
  rw [← slot_entry ht hmax (Nat.lt_asymm hbn) hind]
  exact h.index_zero (Nat.le_refl _)

include hi hzero

theorem Blocks.opened_direct (hlt : s.freeblock < FSSIZE) (hbn : m i < NDIRECT) :
    Opened D s i (m i) m { D i with addrs := update (D i).addrs (m i) s.freeblock } s.freeblock
      { s with freeblock := s.freeblock + 1 } := by
  have haddr := h.addrs_zero ht (Nat.le_of_lt hbn)
  have hnone : slot D s.sect (i, .addr (m i)) = 0 := by rwa [slot_addr ht (Nat.le_of_lt hbn)]
  have hslot := slot_setAddr ht haddr (Nat.le_of_lt hbn) h.fresh (hzero _ (Nat.le_refl _)) fun _ _ => rfl
  have hblocks := h.append hi hlt (Nat.ne_of_lt hbn)
  rw [index_direct hbn] at hblocks
  refine ⟨⟨rfl, rfl, fun _ _ => rfl⟩, hlt, ⟨_, rfl⟩, ?_, ?_, fun b hb => hzero b (Nat.le_of_succ_le hb), ?_,
    fun _ _ _ => rfl⟩
  · rw [hslot, index_direct hbn, update_self]
  · rw [hslot]
    exact hblocks
  · intro w hw
    have hne : w ≠ (i, .addr (m i)) := by
      rintro rfl
      exact hw hnone
    rw [hslot, update_of_ne hne]

theorem Blocks.opened_entry (hlt : s.freeblock < FSSIZE) (hbn : NDIRECT < m i) (hmax : m i < MAXFILE) :
    Opened D s i (m i) m (D i) s.freeblock { s with
      sect := update s.sect ((D i).addrs NDIRECT)
        ((s.sect ((D i).addrs NDIRECT)).setWord (m i - NDIRECT) s.freeblock)
      freeblock := s.freeblock + 1 } := by
  obtain ⟨ha, _⟩ := h.entry_none ht hbn hmax
  have hge : ¬ m i < NDIRECT := Nat.lt_asymm hbn
  have hM : MAXFILE = NDIRECT + NINDIRECT := rfl
  have hindirect : slot D s.sect (i, .addr NDIRECT) = (D i).addrs NDIRECT := slot_addr ht (Nat.le_refl NDIRECT)
  have hind : slot D s.sect (i, .addr NDIRECT) ≠ 0 := by rwa [hindirect]
  have hrange := h.range hind
  have hslot : slot D (update s.sect ((D i).addrs NDIRECT)
      ((s.sect ((D i).addrs NDIRECT)).setWord (m i - NDIRECT) s.freeblock)) =
      update (slot D s.sect) (i, .index (m i)) s.freeblock := by
    rw [index_entry hge]
    refine slot_setEntry h.placed ht ha (by omega) (by simp) hlt (update_self ..) fun c _ hc => ?_
    exact update_of_ne hc ..
  refine ⟨⟨rfl, rfl, fun b hb => ?_⟩, hlt, ⟨_, rfl⟩, ?_, ?_, fun b hb => ?_, ?_, ?_⟩
  · exact update_of_ne (by omega) ..
  · rw [update_eq_self, hslot, update_self]
  · rw [update_eq_self, hslot]
    exact h.append hi hlt (Nat.ne_of_gt hbn)
  · have hb : s.freeblock + 1 ≤ b := hb
    change update s.sect _ _ b = _
    rw [update_of_ne (by omega), hzero b (by omega)]
  · intro w hw
    have hne : w ≠ (i, .index (m i)) := by
      rintro rfl
      exact hw (h.index_zero (Nat.le_refl _))
    rw [update_eq_self, hslot, update_of_ne hne]
  · intro w hw2 hw
    refine update_of_ne ?_ ..
    rw [← hindirect]
    exact h.placed.ne hind fun he => hw2 (congrArg Prod.snd he)

theorem Blocks.opened_indirect (hlt : s.freeblock + 1 < FSSIZE) (hm : m i = NDIRECT) :
    Opened D s i NDIRECT m { D i with addrs := update (D i).addrs NDIRECT s.freeblock } (s.freeblock + 1) { s with
      sect := update s.sect s.freeblock (Bytes.setWord (fun _ => 0) 0 (s.freeblock + 1))
      freeblock := s.freeblock + 2 } := by
  have hmeta := h.nmeta_le
  have hnone := h.indirect_zero (Nat.le_of_eq hm)
  have haddr : (D i).addrs NDIRECT = 0 := by rwa [slot_addr ht (Nat.le_refl _)] at hnone
  have hfirst := slot_setAddr ht haddr (Nat.le_refl _) h.fresh (hzero _ (Nat.le_refl _)) fun _ _ => rfl
  generalize hD : update D i { D i with addrs := update (D i).addrs NDIRECT s.freeblock } = D' at hfirst
  have hself : D' i = { D i with addrs := update (D i).addrs NDIRECT s.freeblock } := by
    rw [← hD, update_self]
  have ht' : (D' i).type ≠ .free := by rwa [hself]
  have haddr' : (D' i).addrs NDIRECT = s.freeblock := by
    rw [hself]
    change update (D i).addrs NDIRECT s.freeblock NDIRECT = _
    rw [update_self]
  have hplaced : Placed sb (fun b => decide (b < s.freeblock + 1)) (slot D' s.sect) := by
    rw [hfirst]
    exact Placed.next h.placed (by omega) hnone
  have hslot : slot D' (update s.sect s.freeblock (Bytes.setWord (fun _ => 0) 0 (s.freeblock + 1))) =
      update (update (slot D s.sect) (i, .addr NDIRECT) s.freeblock) (i, .index NDIRECT)
        (s.freeblock + 1) := by
    rw [← hfirst, index_entry (Nat.lt_irrefl _), Nat.sub_self]
    refine slot_setEntry hplaced ht' (by rw [haddr']; exact h.pos) (by decide) (by simp) hlt ?_ fun c _ hc => ?_
    · rw [haddr', update_self, hzero _ (Nat.le_refl _)]
    · exact update_of_ne (by rwa [haddr'] at hc) ..
  refine ⟨⟨rfl, rfl, fun b hb => ?_⟩, hlt, ⟨_, rfl⟩, ?_, ?_, fun b hb => ?_, ?_, ?_⟩
  · exact update_of_ne (by omega) ..
  · rw [hD, hslot, update_self]
  · rw [hD, hslot]
    exact h.appendIndirect hi hlt hm
  · have hb : s.freeblock + 2 ≤ b := hb
    change update s.sect _ _ b = _
    rw [update_of_ne (by omega), hzero b (by omega)]
  · intro w hw
    have hne : w ≠ (i, .addr NDIRECT) := by
      rintro rfl
      exact hw hnone
    have hne' : w ≠ (i, .index NDIRECT) := by
      rintro rfl
      exact hw (h.index_zero (Nat.le_of_eq hm))
    rw [hD, hslot, update_of_ne hne', update_of_ne hne]
  · intro w _ hw
    exact update_of_ne (h.fresh w hw) ..

end Open

theorem Holds.addrs_lt (h : Holds D s data) (ht : (D i).type ≠ .free) : (D i).addrs NDIRECT < s.len := by
  rw [h.len, ← slot_addr ht (Nat.le_refl _)]
  by_cases h0 : slot D s.sect (i, .addr NDIRECT) = 0
  · rw [h0]
    decide
  · exact (h.blocks.range h0).2.2

theorem Holds.opened_there (h : Holds D s data) (hx : (data i).length % BSIZE ≠ 0) :
    Opened D s i ((data i).length / BSIZE) (fun j => blocksFor (data j).length) (D i)
      (slot D s.sect (i, .index ((data i).length / BSIZE))) s := by
  have hm : update (fun j => blocksFor (data j).length) i ((data i).length / BSIZE + 1) =
      fun j => blocksFor (data j).length := by
    rw [← blocksFor_part hx]
    exact update_eq_self ..
  refine ⟨.refl s, h.le, ⟨(D i).addrs, rfl⟩, ?_, ?_, h.zero, ?_, fun _ _ _ => rfl⟩
  · rw [update_eq_self]
  · rw [update_eq_self, hm]
    exact h.blocks
  · intro w _
    rw [update_eq_self]

theorem total_update (hi : i < NINODES) : total (update m i n) + taken (m i) = total m + taken n := by
  have hsum := @sum_taken_update i m n hi
  unfold total
  omega

theorem Holds.total_eq (h : Holds D s data) : total (fun j => blocksFor (data j).length) = s.freeblock :=
  h.blocks.count.symm

theorem taken_succ : taken (bn + 1) = taken bn + if bn = NDIRECT then 2 else 1 := by
  unfold taken
  split <;> split <;> split <;> omega

theorem Opened.lt_len (hlen : s.len = FSSIZE) (h : Opened D s i bn m din x t) : x < t.len := by
  have hne : slot (update D i din) t.sect (i, .index bn) ≠ 0 := by
    rw [h.blocks.index, update_self]
    exact Nat.lt_succ_self _
  rw [← h.place, h.kept.len, hlen]
  exact (h.blocks.range hne).2.2

theorem Opened.read (hlen : s.len = FSSIZE)
    (h : Opened D s i bn m din x t) (hrun : f s = .ok ((din, x), t)) :
    Returns (f >>= fun r => rsect r.2 >>= fun buf => ret (r, buf)) s fun r t =>
      Opened D s i bn m r.1.1 r.1.2 t ∧ r.2 = t.sect r.1.2 := by
  unfold Returns
  rw [post_run_bind hrun, post_run_bind (rsect_run (h.lt_len hlen))]
  exact ⟨h, rfl⟩

theorem read_fails {E : String → Prop} {R : (Dinode × Nat) × Bytes → Disk → Prop}
    (hrun : f s = .ok ((din, x), t)) (hx : t.len ≤ x) (hE : E "read") :
    Post E (f >>= fun r => rsect r.2 >>= fun buf => ret (r, buf)) s R := by
  rw [post_run_bind hrun]
  unfold Post
  rw [bind_error (rsect_fail hx)]
  exact hE

theorem fileBlock_spec (h : Holds D s data) (hi : i < NINODES) (ht : (D i).type ≠ .free)
    (hmax : (data i).length / BSIZE < MAXFILE) :
    Post (fun _ => FSSIZE < total (update (fun j => blocksFor (data j).length) i ((data i).length / BSIZE + 1)))
      (fileBlock (D i) ((data i).length / BSIZE) >>= fun r => rsect r.2 >>= fun buf => ret (r, buf)) s fun r t =>
        Opened D s i ((data i).length / BSIZE) (fun j => blocksFor (data j).length) r.1.1 r.1.2 t ∧
          r.2 = t.sect r.1.2 := by
  have htotal := @total_update i ((data i).length / BSIZE + 1) (fun j => blocksFor (data j).length) hi
  have hsucc := @taken_succ ((data i).length / BSIZE)
  rw [h.total_eq] at htotal
  by_cases h0 : (data i).length % BSIZE = 0
  · have hm : blocksFor (data i).length = (data i).length / BSIZE := blocksFor_full h0
    rw [← hm] at htotal hsucc hmax ⊢
    rcases Nat.lt_trichotomy (blocksFor (data i).length) NDIRECT with hlt | heq | hgt
    · rw [if_neg (by omega)] at hsucc
      have hrun := @fileBlock_direct s _ _ hlt (h.blocks.addrs_zero ht (Nat.le_of_lt hlt))
      by_cases hfb : s.freeblock < FSSIZE
      · exact ((h.blocks.opened_direct hi ht h.zero hfb hlt).read h.len hrun).mono_panic fun _ hf => hf.elim
      · exact read_fails hrun (show s.len ≤ s.freeblock by rw [h.len]; omega) (by omega)
    · have haddr := h.blocks.addrs_zero ht (Nat.le_of_eq heq)
      rw [heq] at hsucc htotal haddr ⊢
      rw [if_pos rfl] at hsucc
      by_cases hfb : s.freeblock < FSSIZE
      · have hrun := fileBlock_indirect haddr (by rwa [h.len]) (h.zero _ (Nat.le_refl _))
        by_cases hfb' : s.freeblock + 1 < FSSIZE
        · exact ((h.blocks.opened_indirect hi ht h.zero hfb' heq).read h.len hrun).mono_panic fun _ hf => hf.elim
        · exact read_fails hrun (show s.len ≤ s.freeblock + 1 by rw [h.len]; omega) (by omega)
      · unfold Post
        rw [bind_error (fileBlock_indirect_fail haddr (by rw [h.len]; omega))]
        change FSSIZE < _
        omega
    · rw [if_neg (by omega)] at hsucc
      obtain ⟨ha, hword⟩ := h.blocks.entry_none ht hgt hmax
      have hrun := fileBlock_entry (Nat.lt_asymm hgt) ha (h.addrs_lt ht) hword
      by_cases hfb : s.freeblock < FSSIZE
      · exact ((h.blocks.opened_entry hi ht h.zero hfb hgt hmax).read h.len hrun).mono_panic fun _ hf => hf.elim
      · exact read_fails hrun (show s.len ≤ s.freeblock by rw [h.len]; omega) (by omega)
  · have hx : slot D s.sect (i, .index ((data i).length / BSIZE)) ≠ 0 := by
      rw [h.blocks.index, blocksFor_part h0]
      exact Nat.lt_succ_self _
    have hrun := fileBlock_there ht hmax hx (h.addrs_lt ht)
    exact ((h.opened_there h0).read h.len hrun).mono_panic fun _ hf => hf.elim

theorem Opened.old (h : Holds D s data) (ho : Opened D s i bn m din x t) {o : Nat}
    (hlt : o < (data j).length) : slot (update D i din) t.sect (j, .index (o / BSIZE)) ≠ 0 ∧
      t.sect (slot (update D i din) t.sect (j, .index (o / BSIZE))) (o % BSIZE) = (data j).getD o 0 := by
  have hne : slot D s.sect (j, .index (o / BSIZE)) ≠ 0 := by
    rw [h.blocks.index, lt_blocksFor]
    exact Nat.lt_of_le_of_lt (Nat.div_mul_le_self o BSIZE) hlt
  rw [ho.slots _ hne, ho.data _ (Slot.index_ne _) hne, h.bytes j o hlt]
  exact ⟨hne, rfl⟩

theorem Opened.store (h : Holds D s data) (hn : (data i).length = off)
    (ho : Opened D s i (off / BSIZE) (fun j => blocksFor (data j).length) din x t)
    (hpos : 0 < bs.length) (hle : bs.length ≤ (off / BSIZE + 1) * BSIZE - off) :
    Holds (update D i din)
      { t with sect := update t.sect x ((t.sect x).write (off - off / BSIZE * BSIZE) bs) }
      (update data i (data i ++ bs)) := by
  have hB : BSIZE = 1024 := rfl
  have hold := fun j o => @Opened.old D s t data i j (off / BSIZE) x _ din h ho o
  have hplace := ho.place
  have hx : slot (update D i din) t.sect (i, .index (off / BSIZE)) ≠ 0 := by
    rw [ho.blocks.index, update_self]
    exact Nat.lt_succ_self _
  have hother : ∀ w, w ≠ (i, .index (off / BSIZE)) → slot (update D i din) t.sect w ≠ x := by
    intro w hw
    rw [← hplace]
    exact ho.blocks.placed.ne hx hw
  have hslot : ∀ c, slot (update D i din) (update t.sect x c) =
      slot (update D i din) t.sect := by
    intro c
    refine slot_block_congr fun j _ => update_of_ne (hother _ fun he => ?_) ..
    exact Slot.index_ne _ (congrArg Prod.snd he).symm
  have hcount : (fun j => blocksFor (update data i (data i ++ bs) j).length) =
      update (fun j => blocksFor (data j).length) i (off / BSIZE + 1) := by
    funext j
    by_cases hj : j = i
    · rw [hj, update_self, update_self, List.length_append, hn, blocksFor_append hpos hle]
    · rw [update_of_ne hj, update_of_ne hj]
  refine ⟨ho.kept.len.trans h.len, ho.le, ?_, fun b hb => ?_, fun j o hlt => ?_⟩
  · rw [hslot, hcount]
    exact ho.blocks
  · have hne : b ≠ x := by
      rintro rfl
      have hlt := (ho.blocks.range hx).2.1
      rw [hplace] at hlt
      exact absurd hb (Nat.not_le.mpr hlt)
    exact (update_of_ne hne ..).trans (ho.zero b hb)
  · rw [hslot]
    dsimp only
    by_cases hnew : j = i ∧ off ≤ o
    · obtain ⟨rfl, hge⟩ := hnew
      rw [update_self, List.length_append, hn] at hlt
      have hdiv : o / BSIZE = off / BSIZE := by
        rw [hB] at hle ⊢
        omega
      have hmod : o % BSIZE = off - off / BSIZE * BSIZE + (o - off) := by
        rw [hB] at hle ⊢
        omega
      rw [hdiv, hplace, update_self, hmod, Bytes.write_at (by omega), update_self,
        List.getD_eq_getElem?_getD, List.getElem?_append_right (by omega), hn, List.getElem?_eq_getElem (by omega)]
      rfl
    · have hlt' : o < (data j).length := by
        by_cases hj : j = i
        · subst hj
          rw [hn]
          exact Nat.lt_of_not_le fun hge => hnew ⟨rfl, hge⟩
        · rwa [update_of_ne hj] at hlt
      have hget : (update data i (data i ++ bs) j).getD o 0 = (data j).getD o 0 := by
        by_cases hj : j = i
        · subst hj
          rw [update_self, List.getD_eq_getElem?_getD, List.getElem?_append_left hlt',
            ← List.getD_eq_getElem?_getD]
        · rw [update_of_ne hj]
      obtain ⟨_, hbyte⟩ := hold j o hlt'
      rw [hget, ← hbyte]
      by_cases hblock : (j, Slot.index (o / BSIZE)) = (i, Slot.index (off / BSIZE))
      · have hj : j = i := congrArg Prod.fst hblock
        have hdiv : o / BSIZE = off / BSIZE := Slot.index_inj (congrArg Prod.snd hblock)
        rw [hblock, hplace, update_self]
        refine Bytes.write_other (.inl ?_)
        have hoff : o < off := by
          rw [hj, hn] at hlt'
          exact hlt'
        rw [hB] at hdiv ⊢
        omega
      · rw [update_of_ne (hother _ hblock)]

theorem read_bind {α : Type} {f : Mk (Dinode × Nat)} {g : Dinode × Nat → Bytes → Mk α} :
    (f >>= fun r => rsect r.2 >>= fun buf => g r buf) =
      (f >>= fun r => rsect r.2 >>= fun buf => ret (r, buf)) >>= fun q => g q.1 q.2 := by
  rw [bind_assoc]
  congr 1
  funext r
  rw [bind_assoc]
  rfl

def Unfit (data : Nat → List UInt8) (i : Nat) (p : List UInt8) : Prop :=
  FSSIZE < need (update data i (data i ++ p)) ∨ MAXFILE * BSIZE < (data i ++ p).length

theorem iappendLoop_spec {fuel : Nat} (h : Holds D s data) (hi : i < NINODES) (ht : (D i).type ≠ .free)
    (hfuel : p.length ≤ fuel) :
    Post (fun _ => Unfit data i p) (iappendLoop fuel (D i) (data i).length p) s fun r t =>
      Holds (update D i r.1) t (update data i (data i ++ p)) ∧ Kept s t ∧
        r.2 = (data i ++ p).length ∧ ∃ a, r.1 = { D i with addrs := a } := by
  induction fuel generalizing D s data p with
  | zero =>
    have hp : p = [] := List.length_eq_zero_iff.mp (Nat.le_zero.mp hfuel)
    subst hp
    rw [List.append_nil]
    refine ⟨?_, .refl s, rfl, (D i).addrs, rfl⟩
    rw [update_eq_self, update_eq_self]
    exact h
  | succ fuel ih =>
    unfold iappendLoop
    by_cases hp : p = []
    · subst hp
      rw [if_pos rfl, List.append_nil]
      refine ⟨?_, .refl s, rfl, (D i).addrs, rfl⟩
      rw [update_eq_self, update_eq_self]
      exact h
    · have hpos : 0 < p.length := List.length_pos_iff.mpr hp
      rw [if_neg hp]
      by_cases hmax : MAXFILE ≤ (data i).length / BSIZE
      · rw [if_pos hmax]
        refine post_halt.mpr (.inr ?_)
        have := (Nat.le_div_iff_mul_le BSIZE_pos).mp hmax
        rw [List.length_append]
        omega
      · rw [if_neg hmax]
        have hsum : total (update (fun j => blocksFor (data j).length) i ((data i).length / BSIZE + 1)) ≤
            need (update data i (data i ++ p)) := by
          refine total_mono fun j => ?_
          by_cases hj : j = i
          · rw [hj, update_self, update_self, List.length_append]
            exact Nat.succ_le_of_lt (lt_blocksFor.mpr (by have := Nat.div_mul_le_self (data i).length BSIZE; omega))
          · rw [update_of_ne hj, update_of_ne hj]
        rw [read_bind]
        refine Post.bind ((fileBlock_spec h hi ht (Nat.lt_of_not_le hmax)).mono_panic fun _ he => .inl (by omega))
          fun q t hq => ?_
        obtain ⟨hopen, hbuf⟩ := hq
        generalize hn : min p.length (((data i).length / BSIZE + 1) * BSIZE - (data i).length) = n
        have hn0 : 0 < n := by
          have := Nat.lt_mul_div_succ (data i).length BSIZE_pos
          rw [Nat.mul_comm] at this
          omega
        have hlen : (p.take n).length = n := by
          rw [List.length_take]
          omega
        have hstore := hopen.store h rfl (hlen.symm ▸ hn0) (by rw [hlen]; omega)
        have hkept : Kept s { t with sect := update t.sect q.1.2 ((t.sect q.1.2).write
            ((data i).length - (data i).length / BSIZE * BSIZE) (p.take n)) } := by
          have hge := (hopen.blocks.range (w := (i, .index ((data i).length / BSIZE))) (by
            rw [hopen.blocks.index, update_self]
            exact Nat.lt_succ_self _)).1
          rw [hopen.place] at hge
          refine ⟨hopen.kept.len, hopen.kept.freeinode, fun b hb => ?_⟩
          exact (update_of_ne (by omega) ..).trans (hopen.kept.low b hb)
        rw [hbuf, post_run_bind (wsect_run (hopen.lt_len h.len))]
        generalize { t with sect := _ } = u at hstore hkept ⊢
        obtain ⟨a, ha⟩ := hopen.addrs
        have hself : update D i q.1.1 i = q.1.1 := update_self ..
        have hdata : update data i (data i ++ p.take n) i = data i ++ p.take n := update_self ..
        have hrec := @ih (update D i q.1.1) u (update data i (data i ++ p.take n)) (p.drop n) hstore
          (by rw [hself, ha]; exact ht) (by rw [List.length_drop]; omega)
        have hlen' : (data i ++ p.take n).length = (data i).length + n := by rw [List.length_append, hlen]
        unfold Unfit at hrec
        rw [hself, hdata, update_idem, List.append_assoc, List.take_append_drop, hlen'] at hrec
        refine hrec.mono fun r v hv => ?_
        obtain ⟨hv, hkept', hr, a', ha'⟩ := hv
        rw [update_idem] at hv
        refine ⟨hv, hkept.trans hkept', hr, a', ?_⟩
        rw [ha', ha]

end TweakedXv6.Mkfs
