import TweakedXv6.MkfsMain

namespace TweakedXv6.Mkfs

open Prog Fs
open Function (update update_self update_of_ne update_eq_self)

variable {s t : Disk} {data : Nat → List UInt8} {argv : List Arg} {a : Arg} {i b n : Nat}

theorem bitmap_testBit : (bitmap n (b / 8)).toNat.testBit (b % 8) = decide (b < n) := by
  induction n with
  | zero => simp [bitmap]
  | succ n ih =>
    have hbit : (bitmap n (n / 8) ||| 1 <<< UInt8.ofNat (n % 8)).toNat =
        (bitmap n (n / 8)).toNat ||| 1 <<< (n % 8) := by
      have hlt : n % 8 < 8 := Nat.mod_lt n (by decide)
      rw [UInt8.toNat_or]
      congr 1
      generalize n % 8 = k at hlt
      revert k
      decide
    unfold bitmap
    by_cases hb : b / 8 = n / 8
    · rw [hb, update_self, hbit, Nat.testBit_or, ← hb, ih, Nat.one_shiftLeft, Nat.testBit_two_pow]
      by_cases hbn : b = n
      · subst hbn
        simp
      · have hmod : ¬ n % 8 = b % 8 := by omega
        have hlt : b < n + 1 ↔ b < n := by omega
        simp [hmod, hlt]
    · have hlt : b < n + 1 ↔ b < n := by omega
      rw [update_of_ne hb, ih, decide_eq_decide.mpr hlt]

theorem fits_withSize {d : Dinode} {size : Nat} (h : d.Fits) (hlt : size < 4294967296) : Dinode.Fits { d with size } :=
  ⟨h.major, h.minor, h.nlink, hlt, h.addrs, h.last⟩

theorem finish_sect (hb : b ≠ bmapstart) (hr : b ≠ inodestart) : s.finish.sect b = s.sect b := by
  unfold Disk.finish Disk.putInode
  dsimp only
  rw [update_of_ne hb]
  exact update_of_ne hr ..

theorem finish_bitmap : s.finish.sect bmapstart = bitmap s.freeblock := by
  unfold Disk.finish
  dsimp only
  rw [update_self]

theorem finish_inodes (hsize : (inodes s ROOTINO).size ≤ MAXFILE * BSIZE) :
    inodes s.finish = update (inodes s) ROOTINO
      { inodes s ROOTINO with size := ((inodes s ROOTINO).size / BSIZE + 1) * BSIZE } := by
  have hfits : Dinode.Fits { inodes s ROOTINO with size := ((inodes s ROOTINO).size / BSIZE + 1) * BSIZE } := by
    have hlt : ((inodes s ROOTINO).size / BSIZE + 1) * BSIZE < 4294967296 := by
      have hM : MAXFILE * BSIZE = 274432 := rfl
      have hB : BSIZE = 1024 := rfl
      rw [hM] at hsize
      rw [hB]
      omega
    exact fits_withSize inodes_fits hlt
  have hlow : ∀ b, b < bmapstart → s.finish.sect b = (s.putInode ROOTINO
      { inodes s ROOTINO with size := ((inodes s ROOTINO).size / BSIZE + 1) * BSIZE }).sect b := by
    intro b hb
    unfold Disk.finish
    dsimp only
    rw [update_of_ne (Nat.ne_of_lt hb)]
  rw [inodes_congr hlow, inodes_put hfits, if_pos (by decide)]

section Root

variable (h : Image s data) (hn : ROOTINO < s.freeinode)

include h hn

theorem Image.root_size : (inodes s ROOTINO).size = (data ROOTINO).length := by
  obtain ⟨a, ha⟩ := h.used ROOTINO (by decide) hn (by decide)
  rw [ha]

theorem Image.finish_inodes : inodes s.finish = update (inodes s) ROOTINO
      { inodes s ROOTINO with size := ((data ROOTINO).length / BSIZE + 1) * BSIZE } := by
  have hsize := h.root_size hn
  rw [Mkfs.finish_inodes (hsize ▸ h.holds.length_le ROOTINO), hsize]

theorem Image.finish_slot : slot (inodes s.finish) s.finish.sect = slot (inodes s) s.sect := by
  rw [h.finish_inodes hn, slot_update_size, update_eq_self]
  refine h.holds.slot_eq fun b hb => finish_sect ?_ ?_
  · exact Nat.ne_of_gt (Nat.lt_of_lt_of_le (by decide) hb)
  · exact Nat.ne_of_gt (Nat.lt_of_lt_of_le (by decide) hb)

end Root

def Disk.volume (s : Disk) : Volume where
  bit := bitAt s.sect bmapstart
  dinode := inodes s
  block := s.sect
  inode := fun _ => {}

theorem finish_mount (h : Image s data) : mount s.finish.sect = some (sb, s.finish.volume) := by
  have hsuper : s.finish.sect 1 = superblock := (finish_sect (by decide) (by decide)).trans h.super
  have hsb : superblockAt superblock = some sb := rfl
  unfold mount
  rw [hsuper, hsb]
  rfl

/-- The bitmap marks the blocks before the data and those that one place has, and every block of a file
is there. -/
structure Sound (img : Nat → Bytes) (sb : Superblock) (v : Volume) : Prop where
  mounted : mount img = some (sb, v)
  bitmap : ∀ b, b < BPB → (v.bit b = true ↔ b < nmeta ∨ ∃! w, slot v.dinode v.block w = b)
  bounded : ∀ w, slot v.dinode v.block w < sb.size
  whole : ∀ i, (v.dinode i).type ≠ .free → Whole (v.dinode i) v.block (v.dinode i).size

variable (h : Image s data) (hn : ROOTINO < s.freeinode)
include h hn

theorem Image.bitmap (b : Nat) (hb : b < BPB) : s.finish.volume.bit b = true ↔
    b < nmeta ∨ ∃! w, slot s.finish.volume.dinode s.finish.volume.block w = b := by
  have hslot : slot s.finish.volume.dinode s.finish.volume.block = slot (inodes s) s.sect := h.finish_slot hn
  have hbit : s.finish.volume.bit b = decide (b < s.freeblock) := by
    show ((s.finish.sect (b / BPB + bmapstart)) (b % BPB / 8)).toNat.testBit (b % 8) = _
    rw [Nat.div_eq_of_lt hb, Nat.mod_eq_of_lt hb, Nat.zero_add, finish_bitmap, bitmap_testBit]
  rw [hbit, decide_eq_true_eq, hslot]
  constructor
  · intro hlt
    by_cases hmeta : b < nmeta
    · exact .inl hmeta
    · right
      have hdata : sb.Data b ∧ decide (b < s.freeblock) = true :=
        ⟨⟨Nat.le_of_not_lt hmeta, Nat.lt_of_lt_of_le hlt h.holds.le⟩, decide_eq_true hlt⟩
      obtain ⟨w, hw, huniq⟩ := h.holds.blocks.placed.part.existsUnique hdata
      exact ⟨w, hw.2, fun w' hw' => huniq w' ⟨hw.1, hw'⟩⟩
  · intro hor
    have hle := h.holds.blocks.nmeta_le
    obtain hmeta | ⟨w, hw, _⟩ := hor
    · omega
    · by_cases h0 : slot (inodes s) s.sect w = 0
      · have : nmeta = 46 := rfl
        omega
      · rw [← hw]
        exact (h.holds.blocks.range h0).2.1

theorem Image.bounded (w : Nat × Slot) : slot s.finish.volume.dinode s.finish.volume.block w < sb.size := by
  have hslot : slot s.finish.volume.dinode s.finish.volume.block = slot (inodes s) s.sect := h.finish_slot hn
  rw [hslot]
  by_cases h0 : slot (inodes s) s.sect w = 0
  · rw [h0]
    decide
  · exact (h.holds.blocks.range h0).2.2

theorem Image.whole : (∀ i, (s.finish.volume.dinode i).type ≠ .free →
      Whole (s.finish.volume.dinode i) s.finish.volume.block (s.finish.volume.dinode i).size) ↔
    (data ROOTINO).length % BSIZE ≠ 0 := by
  have hplace : ∀ i bn, (s.finish.volume.dinode i).type ≠ .free →
      ((s.finish.volume.dinode i).slot s.finish.volume.block (.index bn) ≠ 0 ↔ bn < blocksFor (data i).length) := by
    intro i bn ht
    rw [← slot_used ht, ← h.holds.blocks.index, ← h.finish_slot hn]
    rfl
  have hroot : s.finish.volume.dinode ROOTINO =
      { inodes s ROOTINO with size := ((data ROOTINO).length / BSIZE + 1) * BSIZE } := by
    show inodes s.finish ROOTINO = _
    rw [h.finish_inodes hn, update_self]
  constructor
  · intro hwhole hmod
    have ht : (s.finish.volume.dinode ROOTINO).type ≠ .free := by
      rw [hroot]
      exact h.type_ne (by decide) hn (by decide)
    have hlt := (hplace ROOTINO ((data ROOTINO).length / BSIZE) ht).mp (hwhole ROOTINO ht _ (by
      rw [hroot]
      exact Nat.mul_lt_mul_of_pos_right (Nat.lt_succ_self _) BSIZE_pos))
    rw [blocksFor_full hmod] at hlt
    omega
  · intro hmod i ht bn hbn
    rw [hplace i bn ht]
    by_cases hi : i = ROOTINO
    · subst hi
      rw [hroot] at hbn
      rw [blocksFor_part hmod]
      exact Nat.lt_of_mul_lt_mul_right hbn
    · have hold : s.finish.volume.dinode i = inodes s i := by
        show inodes s.finish i = _
        rw [h.finish_inodes hn, update_of_ne hi]
      rw [hold] at ht hbn
      have hin : ¬ (i = 0 ∨ s.freeinode ≤ i ∨ NINODES ≤ i) := by
        intro hno
        rw [(h.free i hno).1] at ht
        exact ht rfl
      obtain ⟨a, ha⟩ := h.used i (by omega) (by omega) (by omega)
      rw [ha] at hbn
      exact lt_blocksFor.mpr hbn

omit h hn

theorem Image.sound_iff (h : Image s data) (hn : ROOTINO < s.freeinode) :
    (∃ sb v, Sound s.finish.sect sb v) ↔ (data ROOTINO).length % BSIZE ≠ 0 := by
  rw [← h.whole hn]
  constructor
  · rintro ⟨sb', v, hsound⟩
    cases (finish_mount h).symm.trans hsound.mounted
    exact hsound.whole
  · intro hwhole
    exact ⟨sb, s.finish.volume, finish_mount h, h.bitmap hn, h.bounded hn, hwhole⟩

theorem mkfs_run {img : Nat → Bytes} (hrun : mkfs argv = some img) : ∃ t, main argv blank = .ok ((), t) ∧ t.sect = img := by
  unfold mkfs at hrun
  split at hrun
  case h_1 t hmain => exact ⟨t, hmain, Option.some.inj hrun⟩
  case h_2 => cases hrun

theorem mkfs_of_run (hmain : main argv blank = .ok ((), t)) : mkfs argv = some t.sect := by
  unfold blank at hmain
  unfold mkfs
  rw [hmain]

theorem root_aligned : (root argv).length % BSIZE ≠ 0 ↔ (argv.length + 2) % 64 ≠ 0 := by
  have hD : DESIZE = 16 := rfl
  have hB : BSIZE = 1024 := rfl
  rw [root_length, hD, hB]
  omega

/-- The root gets a block too many if its entries fill their blocks. -/
theorem mkfs_sound_iff {img : Nat → Bytes} (hlen : argv.length < NINODES - 1) (hrun : mkfs argv = some img) :
    (∃ sb v, Sound img sb v) ↔ (argv.length + 2) % 64 ≠ 0 := by
  have hN : NINODES = 200 := rfl
  obtain ⟨t, hmain, himg⟩ := mkfs_run hrun
  obtain ⟨s, hn, himage, ht⟩ := (main_spec (by omega)).of_eq hmain
  subst himg ht
  rw [himage.sound_iff (by rw [hn]; exact Nat.le_add_left ..)]
  exact root_aligned

theorem mkfs_sound_three : ∃ img, mkfs threeFiles = some img ∧ ∃ sb v, Sound img sb v := by
  obtain ⟨s, _, _, hrun⟩ := main_returns (by decide) threeFiles_fit
  exact ⟨_, mkfs_of_run hrun, (mkfs_sound_iff (by decide) (mkfs_of_run hrun)).mpr (by decide)⟩

/-- With 62 files the root has 64 entries, which fill its block. -/
theorem mkfs_root_wrong : ∃ img, mkfs (List.replicate 62 emptyFile) = some img ∧ ¬ ∃ sb v, Sound img sb v := by
  have hfit := empty_fit (n := 62) (by decide)
  obtain ⟨s, hn, himage, hrun⟩ := main_returns (by rw [List.length_replicate]; decide) hfit
  refine ⟨_, mkfs_of_run hrun, fun hsound => ?_⟩
  have hmod := (himage.sound_iff (by rw [hn]; exact Nat.le_add_left ..)).mp hsound
  have hlen : (files (List.replicate 62 emptyFile) ROOTINO).length = 1024 := by
    rw [files, if_pos rfl, root_length, List.length_replicate]
    rfl
  rw [hlen] at hmod
  exact hmod rfl

end TweakedXv6.Mkfs
