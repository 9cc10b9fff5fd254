import TweakedXv6.FsDir
import TweakedXv6.MkfsAppend

namespace TweakedXv6.Mkfs

open Prog Fs
open Function (update update_self update_of_ne)

def inodes (s : Disk) : Nat → Dinode := dinodesAt s.sect inodestart NINODES

structure Image (s : Disk) (data : Nat → List UInt8) : Prop where
  holds : Holds (inodes s) s data
  super : s.sect 1 = superblock
  used : ∀ i, 0 < i → i < s.freeinode → i < NINODES → ∃ a, inodes s i =
    { type := if i = ROOTINO then .dir else .file, nlink := 1, size := (data i).length, addrs := a }
  free : ∀ i, i = 0 ∨ s.freeinode ≤ i ∨ NINODES ≤ i → inodes s i = {} ∧ data i = []

variable {D : Nat → Dinode} {s t u : Disk} {data : Nat → List UInt8} {d : Dinode} {c : Bytes}
  {i j b n off fuel : Nat} {p : List UInt8} {type : IType} {blk : Nat → Bytes} {E : String → Prop}

theorem short_short (x : Int) : short (short x) = short x := Int.bmod_bmod ..

theorem dinodeAt_fits : (dinodeAt c j).Fits := by
  constructor
  case major => rw [dinodeAt, short_short]
  case minor => rw [dinodeAt, short_short]
  case nlink => rw [dinodeAt, short_short]
  case size => exact Bytes.word_lt
  case addrs =>
    intro i
    rw [dinodeAt]
    dsimp only
    split
    · exact Bytes.word_lt
    · omega
  case last =>
    intro i hi
    exact if_neg (Nat.not_le.mpr hi)

theorem inodes_fits : (inodes s i).Fits := by
  unfold inodes dinodesAt
  split
  · exact dinodeAt_fits
  · exact ⟨rfl, rfl, rfl, Nat.zero_lt_succ _, fun _ => Nat.zero_lt_succ _, fun _ _ => rfl⟩

theorem Holds.slot_eq (h : Holds D s data) (hsect : ∀ b, nmeta ≤ b → t.sect b = s.sect b) :
    slot D t.sect = slot D s.sect := by
  funext w
  obtain ⟨i, w⟩ := w
  by_cases ht : (D i).type = .free
  · simp [slot, ht]
  · rw [slot_used ht, slot_used ht]
    cases w with
    | addr a => rfl
    | entry j =>
      by_cases hj : j < NINDIRECT ∧ (D i).addrs NDIRECT ≠ 0
      case neg => rw [Dinode.slot, Dinode.slot, if_neg hj, if_neg hj]
      case pos =>
        have hne : slot D s.sect (i, .addr NDIRECT) ≠ 0 := by
          rw [slot_addr ht (Nat.le_refl _)]
          exact hj.2
        have hge := (h.blocks.range hne).1
        rw [slot_addr ht (Nat.le_refl _)] at hge
        rw [Dinode.slot, Dinode.slot, hsect _ hge]

theorem Holds.frame (h : Holds D s data) (hlen : t.len = s.len) (hfb : t.freeblock = s.freeblock)
    (hsect : ∀ b, nmeta ≤ b → t.sect b = s.sect b) : Holds D t data := by
  have hslot := h.slot_eq hsect
  refine ⟨hlen.trans h.len, hfb.symm ▸ h.le, ?_, fun b hb => ?_, fun i o ho => ?_⟩
  · rw [hslot, hfb]
    exact h.blocks
  · rw [hfb] at hb
    rw [hsect b (Nat.le_trans h.blocks.nmeta_le hb)]
    exact h.zero b hb
  · have hne : slot D s.sect (i, .index (o / BSIZE)) ≠ 0 := by
      rw [h.blocks.index, lt_blocksFor]
      exact Nat.lt_of_le_of_lt (Nat.div_mul_le_self o BSIZE) ho
    rw [hslot, hsect _ (h.blocks.range hne).1]
    exact h.bytes i o ho

def Disk.putInode (s : Disk) (i : Nat) (d : Dinode) : Disk :=
  { s with sect := update s.sect (i / IPB + inodestart) (setDinode (s.sect (i / IPB + inodestart)) (i % IPB) d) }

theorem winode_run (h : i / IPB + inodestart < s.len) : winode i d s = .ok ((), s.putInode i d) := by
  rw [winode, run_bind (rsect_run h)]
  exact wsect_run h

theorem iblock_lt (hi : i < 208) : i / IPB + inodestart < bmapstart := by
  have hI : IPB = 16 := rfl
  have hS : inodestart = 32 := rfl
  have hB : bmapstart = 45 := rfl
  rw [hI, hS, hB]
  omega

theorem rinode_run (hi : i < NINODES) (hlen : s.len = FSSIZE) : rinode i s = .ok (inodes s i, s) := by
  have hlt : i / IPB + inodestart < s.len := by
    rw [hlen]
    exact Nat.lt_trans (iblock_lt (Nat.lt_trans hi (by decide))) (by decide)
  rw [rinode, run_bind (rsect_run hlt), inodes, dinodesAt, if_pos hi]
  rfl

theorem inodes_congr (h : ∀ b, b < bmapstart → t.sect b = s.sect b) : inodes t = inodes s := by
  funext i
  unfold inodes dinodesAt
  split
  case isTrue hi => rw [h _ (iblock_lt (Nat.lt_trans hi (by decide)))]
  case isFalse => rfl

theorem inodes_put (hd : d.Fits) :
    inodes (s.putInode i d) = if i < NINODES then update (inodes s) i d else inodes s := by
  funext j
  have hput : inodes (s.putInode i d) j = if j = i ∧ j < NINODES then d else inodes s j := by
    unfold inodes dinodesAt Disk.putInode
    dsimp only
    by_cases hj : j < NINODES
    · simp only [hj, if_true, and_true]
      by_cases hb : j / IPB + inodestart = i / IPB + inodestart
      · rw [hb, update_self]
        by_cases hji : j = i
        · rw [if_pos hji, hji]
          exact dinodeAt_setDinode hd
        · rw [if_neg hji]
          apply dinodeAt_setDinode_other
          unfold IPB at hb ⊢
          omega
      · rw [update_of_ne hb, if_neg fun hji => hb (by rw [hji])]
    · simp [hj]
  rw [hput]
  by_cases hji : j = i
  · subst hji
    by_cases hj : j < NINODES <;> simp [hj]
  · by_cases hi : i < NINODES <;> simp [hji, hi]

theorem putInode_high (hi : i < 208) (hb : bmapstart ≤ b) : (s.putInode i d).sect b = s.sect b :=
  update_of_ne (Nat.ne_of_gt (Nat.lt_of_lt_of_le (iblock_lt hi) hb)) ..

theorem putInode_super : (s.putInode i d).sect 1 = s.sect 1 := by
  have hlt : 1 < i / IPB + inodestart := Nat.lt_of_lt_of_le (by decide) (Nat.le_add_left ..)
  unfold Disk.putInode
  dsimp only
  rw [update_of_ne (Nat.ne_of_lt hlt)]

theorem slot_update_empty (hD : D i = {}) (ha : d.addrs = fun _ => 0) : slot (update D i d) blk = slot D blk := by
  funext w
  obtain ⟨j, w⟩ := w
  unfold slot
  by_cases hj : j = i
  · subst hj
    rw [update_self, hD, if_pos rfl]
    split
    · rfl
    · cases w <;> simp [Dinode.slot, ha]
  · rw [update_of_ne hj]

theorem slot_update_size {size : Nat} : slot (update D i { d with size }) blk = slot (update D i d) blk := by
  funext w
  obtain ⟨j, w⟩ := w
  unfold slot
  by_cases hj : j = i
  · subst hj
    rw [update_self, update_self]
    cases w <;> rfl
  · rw [update_of_ne hj, update_of_ne hj]

theorem Holds.congr_slot {D' : Nat → Dinode} (h : Holds D s data) (hslot : slot D' s.sect = slot D s.sect) :
    Holds D' s data := by
  refine ⟨h.len, h.le, ?_, h.zero, ?_⟩
  · rw [hslot]
    exact h.blocks
  · rw [hslot]
    exact h.bytes

theorem Holds.put (h : Holds D s data) (hi : i < 208) : Holds D (s.putInode i d) data :=
  h.frame rfl rfl fun _ hb => putInode_high hi (Nat.le_trans (by decide) hb)

theorem ialloc_spec (h : Image s data) (hlt : s.freeinode < 208) (hpos : 0 < s.freeinode)
    (ht : type = if s.freeinode = ROOTINO then .dir else .file) :
    Returns (ialloc type) s fun i t => i = s.freeinode ∧ t.freeinode = s.freeinode + 1 ∧ Image t data := by
  generalize hn : s.freeinode = n at hlt hpos ht
  have hd : Dinode.Fits { type := type, nlink := 1 } :=
    ⟨rfl, rfl, rfl, Nat.zero_lt_succ _, fun _ => Nat.zero_lt_succ _, fun _ _ => rfl⟩
  have hin := @inodes_put { s with freeinode := n + 1 } { type := type, nlink := 1 } n hd
  have hfree := h.free n (.inr (.inl (Nat.le_of_eq hn)))
  have hlen : n / IPB + inodestart < s.len := by
    rw [h.holds.len]
    exact Nat.lt_trans (iblock_lt hlt) (by decide)
  unfold Returns ialloc
  rw [post_read_bind, post_change_bind, hn,
    post_run_bind (@winode_run { s with freeinode := n + 1 } { type := type, nlink := 1 } n hlen)]
  refine ⟨rfl, rfl, ?_, putInode_super.trans h.super, fun i h0 hi hN => ?_, fun i hi => ?_⟩
  · have hslot : slot (inodes (Disk.putInode { s with freeinode := n + 1 } n { type := type, nlink := 1 })) s.sect =
        slot (inodes s) s.sect := by
      rw [hin]
      split
      · exact slot_update_empty hfree.1 rfl
      · rfl
    exact Holds.put (s := { s with freeinode := n + 1 })
      ((h.holds.congr_slot hslot).frame rfl rfl fun _ _ => rfl) hlt
  · rw [hin]
    by_cases hin' : i = n
    · subst hin'
      rw [if_pos hN, update_self, hfree.2, ht]
      exact ⟨fun _ => 0, rfl⟩
    · have hold := h.used i h0 (by
        have : i < n + 1 := hi
        omega) hN
      split
      · rw [update_of_ne hin']
        exact hold
      · exact hold
  · have hi : i = 0 ∨ n + 1 ≤ i ∨ NINODES ≤ i := hi
    have hold := h.free i (by omega)
    rw [hin]
    split
    · rw [update_of_ne (by omega)]
      exact hold
    · exact hold

theorem fileBlock_last (h : ∀ a, NDIRECT < a → d.addrs a = 0) (hE : ∀ e, E e) :
    Post E (fileBlock d n) s fun r _ => ∀ a, NDIRECT < a → r.1.addrs a = 0 := by
  have halloc : ∀ i, i ≤ NDIRECT → Post E (addrAlloc d i) s fun r _ => ∀ a, NDIRECT < a → r.addrs a = 0 := by
    intro i hi
    unfold addrAlloc
    split
    · intro a ha
      exact (update_of_ne (by omega) ..).trans (h a ha)
    · exact h
  unfold fileBlock
  split
  case isTrue hlt => exact Post.bind (halloc n (Nat.le_of_lt hlt)) fun _ _ hr => hr
  case isFalse =>
    refine Post.bind (halloc NDIRECT (Nat.le_refl _)) fun r t hr => ?_
    have hrsect : Post E (rsect (r.addrs NDIRECT)) t fun _ _ => True := by
      by_cases hlt : r.addrs NDIRECT < t.len
      · unfold Post
        rw [rsect_run hlt]
        trivial
      · unfold Post
        rw [rsect_fail (Nat.le_of_not_lt hlt)]
        exact hE _
    refine Post.bind hrsect fun c u _ => ?_
    split
    · exact hr
    · exact hr

theorem iappendLoop_last (h : ∀ a, NDIRECT < a → d.addrs a = 0) (hE : ∀ e, E e) :
    Post E (iappendLoop fuel d off p) s fun r _ => ∀ a, NDIRECT < a → r.1.addrs a = 0 := by
  induction fuel generalizing d s off p with
  | zero => exact h
  | succ fuel ih =>
    unfold iappendLoop
    split
    · exact h
    · split
      · exact hE _
      · refine Post.bind (fileBlock_last h hE) fun r t hr => ?_
        by_cases hlt : r.2 < t.len
        · rw [post_run_bind (rsect_run hlt), post_run_bind (wsect_run hlt)]
          exact ih hr
        · unfold Post
          rw [bind_error (rsect_fail (Nat.le_of_not_lt hlt))]
          exact hE _

theorem Holds.length_le (h : Holds D s data) (i : Nat) : (data i).length ≤ MAXFILE * BSIZE := by
  by_contra hlt
  have hM : MAXFILE = NDIRECT + NINDIRECT := rfl
  have hne : slot D s.sect (i, .index MAXFILE) ≠ 0 := by
    rw [h.blocks.index, lt_blocksFor]
    omega
  apply hne
  unfold slot
  split
  · rfl
  · rw [index_entry (by rw [hM]; omega), Dinode.slot, if_neg]
    rw [hM]
    omega

theorem Holds.slot_lt (h : Holds D s data) (w : Nat × Slot) : slot D s.sect w < 4294967296 := by
  by_cases h0 : slot D s.sect w = 0
  · omega
  · exact Nat.lt_trans (h.blocks.range h0).2.2 (by decide)

theorem Image.type_ne (h : Image s data) (h0 : 0 < i) (hi : i < s.freeinode) (hN : i < NINODES) :
    (inodes s i).type ≠ .free := by
  obtain ⟨a, ha⟩ := h.used i h0 hi hN
  rw [ha]
  dsimp only
  split <;> exact IType.noConfusion

theorem iappend_spec (h : Image s data) (h0 : 0 < i) (hi : i < s.freeinode) (hN : i < NINODES) :
    Post (fun _ => Unfit data i p) (iappend i p) s fun _ t =>
      t.freeinode = s.freeinode ∧ Image t (update data i (data i ++ p)) := by
  obtain ⟨a, ha⟩ := h.used i h0 hi hN
  have hsize : (inodes s i).size = (data i).length := by rw [ha]
  have hi' : i < 208 := Nat.lt_trans hN (by decide)
  unfold iappend
  rw [post_run_bind (rinode_run hN h.holds.len), hsize]
  refine Post.bind ((iappendLoop_spec h.holds hN (h.type_ne h0 hi hN) (Nat.le_refl _)).and
    (iappendLoop_last (E := fun _ => True) inodes_fits.last fun _ => trivial)) fun r u hu => ?_
  obtain ⟨⟨hholds, hkept, hlen, b, hb⟩, hlast⟩ := hu
  generalize hd : { r.1 with size := r.2 } = d
  have hpost : winode i d u = .ok ((), u.putInode i d) := by
    apply winode_run
    rw [hkept.len, h.holds.len]
    exact Nat.lt_trans (iblock_lt hi') (by decide)
  have hfits : d.Fits := by
    have hle := hholds.length_le i
    have hM : MAXFILE * BSIZE = 274432 := rfl
    rw [update_self, ← hlen] at hle
    have hold : (inodes s i).Fits := inodes_fits
    subst hd
    refine ⟨?_, ?_, ?_, by dsimp only; omega, fun a => ?_, hlast⟩
    · rw [hb]
      exact hold.major
    · rw [hb]
      exact hold.minor
    · rw [hb]
      exact hold.nlink
    · by_cases hle : a ≤ NDIRECT
      · have ht : (update (inodes s) i r.1 i).type ≠ .free := by
          rw [update_self, hb]
          exact h.type_ne h0 hi hN
        have hslot := @slot_addr _ _ u.sect ht _ hle
        rw [update_self] at hslot
        dsimp only
        rw [← hslot]
        exact hholds.slot_lt _
      · dsimp only
        rw [hlast a (by omega)]
        omega
  have hin : inodes (u.putInode i d) = update (inodes s) i d := by
    rw [inodes_put hfits, if_pos hN, inodes_congr fun b hb => hkept.low b (Nat.lt_trans hb (by decide))]
  unfold Post
  rw [hpost]
  refine ⟨hkept.freeinode, ?_, ?_, fun j hj0 hj hjN => ?_, fun j hj => ?_⟩
  · rw [hin, ← hd]
    exact (hholds.congr_slot slot_update_size).put hi'
  · rw [putInode_super, hkept.low 1 (by decide)]
    exact h.super
  · rw [hin]
    by_cases hji : j = i
    · subst hji
      rw [update_self, update_self, ← hd, hb, ha, hlen]
      exact ⟨b, rfl⟩
    · rw [update_of_ne hji, update_of_ne hji]
      exact h.used j hj0 (hkept.freeinode ▸ hj) hjN
  · have hj : j = 0 ∨ s.freeinode ≤ j ∨ NINODES ≤ j := hkept.freeinode ▸ hj
    have hji : j ≠ i := by omega
    rw [hin, update_of_ne hji, update_of_ne hji]
    exact h.free j hj

end TweakedXv6.Mkfs
