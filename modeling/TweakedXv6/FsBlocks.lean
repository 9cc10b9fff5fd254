import TweakedXv6.FsModel
import TweakedXv6.Partition

namespace TweakedXv6.Fs

open Prog Files
open Function (update update_idem update_self update_of_ne update_eq_self)

/-- Where an inode refers to blocks: `addrs[i]`, the last being the indirect block, and the entries of
that block. -/
inductive Slot
  | addr (i : Nat)
  | entry (j : Nat)
  deriving DecidableEq

def Dinode.slot (d : Dinode) (blk : Nat → Bytes) : Slot → Nat
  | .addr i => if i ≤ NDIRECT then d.addrs i else 0
  | .entry j => if j < NINDIRECT ∧ d.addrs NDIRECT ≠ 0 then (blk (d.addrs NDIRECT)).word j else 0

def slot (D : Nat → Dinode) (blk : Nat → Bytes) (w : Nat × Slot) : Nat :=
  if (D w.1).type = .free then 0 else (D w.1).slot blk w.2

def Slot.index (bn : Nat) : Slot := if bn < NDIRECT then .addr bn else .entry (bn - NDIRECT)

def Superblock.Data (sb : Superblock) (b : Nat) : Prop := sb.size - sb.nblocks ≤ b ∧ b < sb.size

/-- The bitmap marks the blocks outside the data region, and in it those at a place, each at one. -/
structure Placed (sb : Superblock) (bit : Nat → Bool) (f : Nat × Slot → Nat) : Prop where
  part : Partition (fun b => sb.Data b ∧ bit b = true) fun w b => b ≠ 0 ∧ f w = b
  outside : ∀ b, b < sb.size → ¬ sb.Data b → bit b = true

def Whole (d : Dinode) (blk : Nat → Bytes) (n : Nat) : Prop :=
  ∀ bn, bn * BSIZE < n → d.slot blk (.index bn) ≠ 0

def cur (k : Fin NINODE) (s : Volume) : Nat → Dinode :=
  update s.dinode (s.inode k).inum (s.inode k).copy

variable {sb : Superblock} {bit : Nat → Bool} {f : Nat × Slot → Nat} {w : Nat × Slot} {D : Nat → Dinode}
  {d : Dinode} {blk blk' : Nat → Bytes} {k : Fin NINODE} {s t u : Volume} {a b i j : Nat}

theorem Placed.attach (h : Placed sb bit f) (hb : bit b = false) (hlt : b < sb.size) (hw : f w = 0) :
    Placed sb (update bit b true) (update f w b) := by
  have hdata : sb.Data b := by
    by_contra hno
    simp [h.outside b hlt hno] at hb
  have hpos : b ≠ 0 := by
    have := sb.start
    have := hdata.1
    omega
  constructor
  case part =>
    refine h.part.add (x := b) (a := w) (by simp [hb]) (fun y => ?_) fun v y => ?_
    · by_cases hy : y = b
      · simp [hy, hdata]
      · simp [hy]
    · by_cases hv : v = w
      · subst hv
        rw [update_self, hw]
        constructor
        · rintro ⟨_, rfl⟩
          exact .inl ⟨rfl, rfl⟩
        · rintro (⟨rfl, _⟩ | ⟨hy, rfl⟩)
          · exact ⟨hpos, rfl⟩
          · exact absurd rfl hy
      · simp [hv]
  case outside =>
    intro y hy hno
    have hyb : y ≠ b := fun he => hno (he ▸ hdata)
    rw [update_of_ne hyb]
    exact h.outside y hy hno

theorem Placed.marked (h : Placed sb bit f) (hw : f w ≠ 0) : sb.Data (f w) ∧ bit (f w) = true :=
  h.part.within w (f w) ⟨hw, rfl⟩

theorem Placed.ne {v : Nat × Slot} (h : Placed sb bit f) (hw : f w ≠ 0) (hvw : v ≠ w) : f v ≠ f w :=
  fun he => hvw (h.part.unique v w (f w) ⟨hw, he⟩ ⟨hw, rfl⟩)

theorem slot_congr (h : d.addrs NDIRECT ≠ 0 → blk' (d.addrs NDIRECT) = blk (d.addrs NDIRECT)) :
    d.slot blk' = d.slot blk := by
  funext x
  cases x with
  | addr i => rfl
  | entry j =>
    by_cases hz : d.addrs NDIRECT = 0
    · simp [Dinode.slot, hz]
    · simp [Dinode.slot, h hz]

theorem slot_used (h : (D i).type ≠ .free) {x : Slot} : slot D blk (i, x) = (D i).slot blk x := if_neg h

theorem slot_block_congr (h : ∀ i, slot D blk (i, .addr NDIRECT) ≠ 0 →
    blk' (slot D blk (i, .addr NDIRECT)) = blk (slot D blk (i, .addr NDIRECT))) :
    slot D blk' = slot D blk := by
  funext x
  obtain ⟨i, x⟩ := x
  by_cases ht : (D i).type = .free
  · simp [slot, ht]
  · rw [slot_used ht, slot_used ht, slot_congr]
    intro hz
    have hi := h i
    rw [slot_used ht] at hi
    simpa [Dinode.slot] using hi (by simpa [Dinode.slot] using hz)

theorem slot_setAddr (ht : (D i).type ≠ .free) (ha : (D i).addrs a = 0) (hle : a ≤ NDIRECT)
    (hfresh : ∀ w, slot D blk w ≠ 0 → slot D blk w ≠ b) (hzero : blk' b = fun _ => 0)
    (hkeep : ∀ c, c ≠ b → blk' c = blk c) :
    slot (update D i { D i with addrs := update (D i).addrs a b }) blk' =
      update (slot D blk) (i, .addr a) b := by
  have hblk : slot D blk' = slot D blk := slot_block_congr fun j hj => hkeep _ (hfresh _ hj)
  funext x
  obtain ⟨j, x⟩ := x
  by_cases hj : j = i
  · subst hj
    rw [slot_used (by simpa using ht), update_self]
    cases x with
    | addr c =>
      by_cases hc : c = a
      · simp [Dinode.slot, hc, hle]
      · rw [update_of_ne (by simp [hc]), slot_used ht]
        simp [Dinode.slot, hc]
    | entry e =>
      rw [update_of_ne (by simp), ← hblk, slot_used ht]
      by_cases hlast : a = NDIRECT
      · subst hlast
        simp [Dinode.slot, ha, hzero, Bytes.word_zero]
      · simp [Dinode.slot, Ne.symm hlast]
  · have hne : (j, x) ≠ (i, Slot.addr a) := fun he => hj (congrArg Prod.fst he)
    rw [update_of_ne hne, ← hblk]
    simp [slot, hj]

theorem slot_setEntry (h : Placed sb bit (slot D blk)) (ht : (D i).type ≠ .free)
    (hc : (D i).addrs NDIRECT ≠ 0) (hj : j < NINDIRECT) (hb : bit b = false) (hlt : b < sb.size)
    (hself : blk' ((D i).addrs NDIRECT) = (blk ((D i).addrs NDIRECT)).setWord j b)
    (hkeep : ∀ c, c ≠ b → c ≠ (D i).addrs NDIRECT → blk' c = blk c) :
    slot D blk' = update (slot D blk) (i, .entry j) b := by
  have hind : slot D blk (i, .addr NDIRECT) = (D i).addrs NDIRECT := by
    rw [slot_used ht]
    simp [Dinode.slot]
  funext x
  obtain ⟨i', x⟩ := x
  by_cases hi : i' = i
  · subst hi
    rw [slot_used ht]
    cases x with
    | addr c =>
      rw [update_of_ne (by simp), slot_used ht]
      rfl
    | entry e =>
      by_cases he : e = j
      · have hword : b < 4294967296 := Nat.lt_of_lt_of_le hlt sb.size_le
        simp [Dinode.slot, he, hj, hc, hself, Bytes.word_setWord_self hword]
      · rw [update_of_ne (by simp [he]), slot_used ht]
        simp [Dinode.slot, hself, Bytes.word_setWord_other he]
  · have hne : (i', x) ≠ (i, Slot.entry j) := fun he => hi (congrArg Prod.fst he)
    rw [update_of_ne hne]
    by_cases ht' : (D i').type = .free
    · simp [slot, ht']
    · rw [slot_used ht', slot_used ht', slot_congr]
      intro hz
      have hind' : slot D blk (i', .addr NDIRECT) = (D i').addrs NDIRECT := by
        rw [slot_used ht']
        simp [Dinode.slot]
      refine hkeep _ (fun he => ?_) fun he => ?_
      · have hbit := (h.marked (w := (i', .addr NDIRECT)) (by rwa [hind'])).2
        rw [hind', he, hb] at hbit
        cases hbit
      · refine h.ne (w := (i, .addr NDIRECT)) (v := (i', .addr NDIRECT)) (by rwa [hind]) ?_ (by rw [hind, hind', he])
        exact fun heq => hi (congrArg Prod.fst heq)

theorem cur_self : cur k s (s.inode k).inum = (s.inode k).copy := update_self ..

structure Grown (k : Fin NINODE) (s t : Volume) : Prop where
  dinode : t.dinode = s.dinode
  inode : ∃ a, t.inode = update s.inode k
    { s.inode k with copy := { (s.inode k).copy with addrs := a } }
  slots : ∀ w, slot (cur k s) s.block w ≠ 0 → slot (cur k t) t.block w = slot (cur k s) s.block w
  data : ∀ w, w.2 ≠ .addr NDIRECT → slot (cur k s) s.block w ≠ 0 →
    t.block (slot (cur k s) s.block w) = s.block (slot (cur k s) s.block w)

theorem Grown.refl (k : Fin NINODE) (s : Volume) : Grown k s s :=
  ⟨rfl, ⟨(s.inode k).copy.addrs, (update_eq_self ..).symm⟩, fun _ _ => rfl, fun _ _ _ => rfl⟩

theorem Grown.trans (h : Grown k s t) (h' : Grown k t u) : Grown k s u where
  dinode := h'.dinode.trans h.dinode
  inode := by
    obtain ⟨a, ha⟩ := h.inode
    obtain ⟨b, hb⟩ := h'.inode
    refine ⟨b, ?_⟩
    rw [hb, ha, update_self, update_idem]
  slots w hw := by
    rw [h'.slots w (by rwa [h.slots w hw]), h.slots w hw]
  data w hw2 hw := by
    have hs := h.slots w hw
    have hd := h'.data w hw2 (by rwa [hs])
    rw [hs] at hd
    rw [hd, h.data w hw2 hw]

theorem Grown.copy (h : Grown k s t) :
    ∃ a, t.inode k = { s.inode k with copy := { (s.inode k).copy with addrs := a } } := by
  obtain ⟨a, ha⟩ := h.inode
  exact ⟨a, by rw [ha, update_self]⟩

end TweakedXv6.Fs
