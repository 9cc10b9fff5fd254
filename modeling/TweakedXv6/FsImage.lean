import TweakedXv6.FsModel

namespace TweakedXv6.Fs

def FSMAGIC : Nat := 270544960

def IPB : Nat := 16

def BPB : Nat := 8192

def IType.code : IType → Nat
  | .free => 0
  | .dir => 1
  | .file => 2
  | .device => 3

def IType.ofCode (n : Nat) : IType := if n = 0 then .free else if n = 1 then .dir else if n = 2 then .file else .device

def half (x : Int) : Nat := (x % 65536).toNat

def Dinode.word (d : Dinode) (j : Nat) : Nat :=
  if j = 0 then d.type.code + 65536 * half d.major
  else if j = 1 then half d.minor + 65536 * half d.nlink
  else if j = 2 then d.size
  else d.addrs (j - 3)

def dinodeAt (c : Bytes) (j : Nat) : Dinode where
  type := .ofCode (c.word (16 * j) % 65536)
  major := short (c.word (16 * j) / 65536 : Nat)
  minor := short (c.word (16 * j + 1) % 65536 : Nat)
  nlink := short (c.word (16 * j + 1) / 65536 : Nat)
  size := c.word (16 * j + 2)
  addrs i := if i ≤ NDIRECT then c.word (16 * j + 3 + i) else 0

def setDinode (c : Bytes) (j : Nat) (d : Dinode) : Bytes := fun i =>
  if i / 64 = j then Bytes.wordByte (d.word (i % 64 / 4)) (i % 4) else c i

/-- If it has the magic number and makes sense. -/
def superblockAt (c : Bytes) : Option Superblock :=
  if h : c.word 0 = FSMAGIC ∧ c.word 2 < c.word 1 ∧ c.word 3 ≤ 65536 then
    some ⟨c.word 1, c.word 2, c.word 3, h.2.1, Nat.le_of_lt Bytes.word_lt, h.2.2⟩
  else none

/-- Block `IBLOCK(i, sb)`. Numbers from `ninodes` on are not inodes. -/
def dinodesAt (img : Nat → Bytes) (inodestart ninodes i : Nat) : Dinode :=
  if i < ninodes then dinodeAt (img (i / IPB + inodestart)) (i % IPB) else {}

def bitAt (img : Nat → Bytes) (bmapstart b : Nat) : Bool :=
  ((img (b / BPB + bmapstart)) (b % BPB / 8)).toNat.testBit (b % 8)

def mount (img : Nat → Bytes) : Option (Superblock × Volume) := do
  let sb ← superblockAt (img 1)
  some (sb, {
    bit := bitAt img ((img 1).word 7)
    dinode := dinodesAt img ((img 1).word 6) sb.ninodes
    block := img
    inode := fun _ => {} })

variable {c : Bytes} {d : Dinode} {i j : Nat}

structure Dinode.Fits (d : Dinode) : Prop where
  major : short d.major = d.major
  minor : short d.minor = d.minor
  nlink : short d.nlink = d.nlink
  size : d.size < 4294967296
  addrs : ∀ i, d.addrs i < 4294967296
  last : ∀ i, NDIRECT < i → d.addrs i = 0

theorem ofCode_code (t : IType) : IType.ofCode t.code = t := by cases t <;> rfl

theorem half_lt (x : Int) : half x < 65536 := by
  unfold half
  omega

theorem short_half {x : Int} (h : short x = x) : short (half x) = x := by
  have hcast : (half x : Int) = x % 65536 := Int.toNat_of_nonneg (Int.emod_nonneg _ (by decide))
  rw [hcast]
  exact (Int.emod_bmod ..).trans h

theorem Dinode.Fits.word_lt (h : d.Fits) : d.word j < 4294967296 := by
  have hmajor := half_lt d.major
  have hminor := half_lt d.minor
  have hnlink := half_lt d.nlink
  have hcode : d.type.code < 65536 := by cases d.type <;> decide
  have hsize := h.size
  have haddrs := h.addrs (j - 3)
  unfold Dinode.word
  split
  · omega
  · split
    · omega
    · split
      · exact hsize
      · exact haddrs

theorem word_setDinode (h : d.Fits) (hj : j < 16) : (setDinode c i d).word (16 * i + j) = d.word j := by
  refine Bytes.word_eq h.word_lt fun k hk => ?_
  have hdiv : (4 * (16 * i + j) + k) / 64 = i := by omega
  have hmod : (4 * (16 * i + j) + k) % 64 / 4 = j := by omega
  have hbyte : (4 * (16 * i + j) + k) % 4 = k := by omega
  rw [setDinode, if_pos hdiv, hmod, hbyte]

theorem dinodeAt_setDinode (h : d.Fits) : dinodeAt (setDinode c i d) i = d := by
  have h0 := word_setDinode (c := c) (i := i) (j := 0) h (by decide)
  have h1 := word_setDinode (c := c) (i := i) (j := 1) h (by decide)
  have h2 := word_setDinode (c := c) (i := i) (j := 2) h (by decide)
  simp only [Dinode.word, ↓reduceIte, Nat.add_zero, Nat.reduceEqDiff, Nat.one_ne_zero] at h0 h1 h2
  have h3 : ∀ a, a ≤ NDIRECT → (setDinode c i d).word (16 * i + 3 + a) = d.addrs a := by
    intro a ha
    have hN : NDIRECT = 12 := rfl
    rw [Nat.add_assoc, word_setDinode h (by omega)]
    simp [Dinode.word, Nat.add_comm 3]
  have hcode : d.type.code < 65536 := by cases d.type <;> decide
  have hminor := half_lt d.minor
  unfold dinodeAt
  rw [h0, h1, h2]
  cases d with
  | mk type major minor nlink size addrs =>
    simp only at hcode hminor ⊢
    rw [Dinode.mk.injEq]
    refine ⟨?_, ?_, ?_, ?_, rfl, funext fun a => ?_⟩
    · rw [show (type.code + 65536 * half major) % 65536 = type.code by omega, ofCode_code]
    · rw [show (type.code + 65536 * half major) / 65536 = half major by omega]
      exact short_half h.major
    · rw [show (half minor + 65536 * half nlink) % 65536 = half minor by omega]
      exact short_half h.minor
    · rw [show (half minor + 65536 * half nlink) / 65536 = half nlink by omega]
      exact short_half h.nlink
    · split
      next ha => exact h3 a ha
      next ha => exact (h.last a (by omega)).symm

theorem dinodeAt_congr {c' : Bytes} (h : ∀ o, o / 64 = j → c' o = c o) : dinodeAt c' j = dinodeAt c j := by
  have hword : ∀ a, a < 16 → c'.word (16 * j + a) = c.word (16 * j + a) := by
    intro a ha
    exact Bytes.word_congr fun k hk => h _ (by omega)
  have h0 := hword 0 (by decide)
  rw [Nat.add_zero] at h0
  unfold dinodeAt
  rw [h0, hword 1 (by decide), hword 2 (by decide)]
  congr 1
  funext a
  split
  next ha =>
    have hN : NDIRECT = 12 := rfl
    rw [Nat.add_assoc, hword _ (by omega)]
  next => rfl

theorem dinodeAt_setDinode_other (h : i ≠ j) : dinodeAt (setDinode c i d) j = dinodeAt c j :=
  dinodeAt_congr fun o ho => by rw [setDinode, if_neg (by omega)]

theorem dinodeAt_zero : dinodeAt (fun _ => 0) j = {} := by
  unfold dinodeAt
  simp only [Bytes.word_zero]
  congr 1
  funext a
  exact ite_self 0

end TweakedXv6.Fs
