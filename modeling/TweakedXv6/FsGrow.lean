import Mathlib.Data.Finset.Card
import TweakedXv6.FsRead

namespace TweakedXv6.Fs

open Prog Files
open Function (update update_idem update_self update_of_ne update_eq_self)

def places (k : Fin NINODE) (s : Volume) : Nat × Slot → Nat := slot (cur k s) s.block

def needed (bn : Nat) : Finset Slot :=
  if bn < NDIRECT then {.addr bn} else {.addr NDIRECT, .entry (bn - NDIRECT)}

def freeCount (sb : Superblock) (s : Volume) : Nat :=
  ((Finset.range sb.size).filter fun b => s.bit b = false).card

/-- The inode at `k` is in use, and the bitmap marks the blocks at their places. -/
structure Owned (sb : Superblock) (k : Fin NINODE) (s : Volume) : Prop where
  used : (s.inode k).copy.type ≠ .free
  placed : Placed sb s.bit (places k s)

def missing (k : Fin NINODE) (s : Volume) (A : Finset Slot) : Finset Slot :=
  A.filter fun x => places k s ((s.inode k).inum, x) = 0

/-- New blocks, zeroed, are at the slots `A` of the inode at `k`; what was there stays. -/
structure Added (sb : Superblock) (k : Fin NINODE) (A : Finset Slot) (s t : Volume) : Prop where
  grown : Grown k s t
  empty : ∀ x ∈ A, places k s ((s.inode k).inum, x) = 0
  full : ∀ x ∈ A, places k t ((s.inode k).inum, x) ≠ 0
  same : ∀ i x, (i = (s.inode k).inum → x ∉ A) → places k t (i, x) = places k s (i, x)
  zero : ∀ x ∈ A, x ≠ .addr NDIRECT → t.block (places k t ((s.inode k).inum, x)) = fun _ => 0
  count : freeCount sb s = freeCount sb t + A.card

variable {sb : Superblock} {k : Fin NINODE} {s t u : Volume} {a b c bn i j : Nat} {x : Slot} {A B : Finset Slot}

theorem Superblock.Data.ne_zero (h : sb.Data b) : b ≠ 0 := by
  have := sb.start
  have := h.1
  omega

theorem Placed.data_of_free {bit : Nat → Bool} {f : Nat × Slot → Nat} (h : Placed sb bit f) (hb : bit b = false)
    (hlt : b < sb.size) : sb.Data b := by
  by_contra hno
  rw [h.outside b hlt hno] at hb
  cases hb

theorem Grown.inum (h : Grown k s t) : (t.inode k).inum = (s.inode k).inum := by
  obtain ⟨a, ha⟩ := h.copy
  rw [ha]

theorem freeCount_take (hb : s.bit b = false) (hlt : b < sb.size) (ht : t.bit = update s.bit b true) :
    freeCount sb s = freeCount sb t + 1 := by
  have hmem : b ∈ (Finset.range sb.size).filter fun c => s.bit c = false := by simp [hb, hlt]
  have herase : (Finset.range sb.size).filter (fun c => t.bit c = false) =
      ((Finset.range sb.size).filter fun c => s.bit c = false).erase b := by
    ext c
    by_cases hc : c = b
    · simp [hc, ht]
    · simp [hc, ht]
  rw [freeCount, freeCount, herase, Finset.card_erase_add_one hmem]

theorem Added.refl (sb : Superblock) (k : Fin NINODE) (s : Volume) : Added sb k ∅ s s where
  grown := Grown.refl k s
  empty := by simp
  full := by simp
  same _ _ _ := rfl
  zero := by simp
  count := by simp

theorem Added.trans (h : Added sb k A s t) (h' : Added sb k B t u) : Added sb k (A ∪ B) s u := by
  have hinum := h.grown.inum
  have hkeep : ∀ x ∈ A, places k u ((s.inode k).inum, x) = places k t ((s.inode k).inum, x) :=
    fun x hx => h'.grown.slots _ (h.full x hx)
  have hdisj : Disjoint A B := by
    refine Finset.disjoint_left.mpr fun x hA hB => h.full x hA ?_
    have := h'.empty x hB
    rwa [hinum] at this
  constructor
  case grown => exact h.grown.trans h'.grown
  case empty =>
    intro x hx
    by_cases hA : x ∈ A
    · exact h.empty x hA
    · have hB := h'.empty x ((Finset.mem_union.mp hx).resolve_left hA)
      rw [hinum] at hB
      rwa [h.same _ x fun _ => hA] at hB
  case full =>
    intro x hx
    by_cases hA : x ∈ A
    · rw [hkeep x hA]
      exact h.full x hA
    · rw [← hinum]
      exact h'.full x ((Finset.mem_union.mp hx).resolve_left hA)
  case same =>
    intro i x hx
    rw [h'.same i x fun hi => ?_, h.same i x fun hi hA => hx hi (Finset.mem_union_left B hA)]
    exact fun hB => hx (hi.trans hinum) (Finset.mem_union_right A hB)
  case zero =>
    intro x hx hne
    by_cases hA : x ∈ A
    · rw [hkeep x hA]
      have hdata := h'.grown.data _ hne (h.full x hA)
      exact hdata.trans (h.zero x hA hne)
    · rw [← hinum]
      exact h'.zero x ((Finset.mem_union.mp hx).resolve_left hA) hne
  case count => rw [h.count, h'.count, Finset.card_union_of_disjoint hdisj, Nat.add_comm A.card, Nat.add_assoc]

theorem Owned.add (h : Owned sb k s) (hb : s.bit b = false) (hlt : b < sb.size)
    (hbit : t.bit = update s.bit b true) (hdinode : t.dinode = s.dinode)
    (hinode : ∃ a, t.inode = update s.inode k
      { s.inode k with copy := { (s.inode k).copy with addrs := a } })
    (hempty : places k s ((s.inode k).inum, x) = 0)
    (hslots : places k t = update (places k s) ((s.inode k).inum, x) b)
    (hzero : t.block b = fun _ => 0)
    (hdata : ∀ w, w.2 ≠ .addr NDIRECT → places k s w ≠ 0 → t.block (places k s w) = s.block (places k s w)) :
    Owned sb k t ∧ Added sb k {x} s t ∧ places k t ((s.inode k).inum, x) = b := by
  have hself : places k t ((s.inode k).inum, x) = b := by rw [hslots, update_self]
  have hgrown : Grown k s t := by
    refine ⟨hdinode, hinode, fun w hw => ?_, hdata⟩
    have hne : w ≠ ((s.inode k).inum, x) := fun he => hw (he ▸ hempty)
    exact (congrFun hslots w).trans (update_of_ne hne ..)
  refine ⟨⟨?_, ?_⟩, ⟨hgrown, ?_, ?_, ?_, ?_, ?_⟩, hself⟩
  · obtain ⟨a, ha⟩ := hgrown.copy
    rw [ha]
    exact h.used
  · rw [hbit, hslots]
    exact h.placed.attach hb hlt hempty
  · intro y hy
    rwa [Finset.mem_singleton.mp hy]
  · intro y hy
    rw [Finset.mem_singleton.mp hy, hself]
    exact (h.placed.data_of_free hb hlt).ne_zero
  · intro i y hy
    rw [hslots, update_of_ne]
    intro he
    cases he
    exact hy rfl (Finset.mem_singleton_self x)
  · intro y hy _
    rw [Finset.mem_singleton.mp hy, hself, hzero]
  · rw [Finset.card_singleton]
    exact freeCount_take hb hlt hbit

theorem places_self (h : (s.inode k).copy.type ≠ .free) :
    places k s ((s.inode k).inum, x) = (s.inode k).copy.slot s.block x := by
  have hcur := cur_self (k := k) (s := s)
  rw [places, slot_used (by rwa [hcur]), hcur]

theorem Owned.ne_of_free {w : Nat × Slot} (h : Owned sb k s) (hb : s.bit b = false) (hw : places k s w ≠ 0) :
    places k s w ≠ b := by
  intro he
  have hbit := (h.placed.marked hw).2
  rw [he, hb] at hbit
  cases hbit

theorem Owned.setAddr (h : Owned sb k s) (ha : (s.inode k).copy.addrs a = 0) (hle : a ≤ NDIRECT)
    (hb : s.bit b = false) (hlt : b < sb.size) (ht : t =
      { s with
        bit := update s.bit b true
        block := update s.block b fun _ => 0
        inode := update s.inode k { s.inode k with
          copy := { (s.inode k).copy with addrs := update (s.inode k).copy.addrs a b } } }) :
    Owned sb k t ∧ Added sb k {.addr a} s t ∧ places k t ((s.inode k).inum, .addr a) = b := by
  have hcur : cur k t = update (cur k s) (s.inode k).inum { cur k s (s.inode k).inum with
      addrs := update (cur k s (s.inode k).inum).addrs a b } := by
    rw [cur_self, ht]
    unfold cur
    dsimp only
    rw [update_self, update_idem]
  have hfresh := fun (w : Nat × Slot) hw => h.ne_of_free (w := w) hb hw
  refine h.add hb hlt ?_ ?_ ?_ ?_ ?_ ?_ ?_
  · rw [ht]
  · rw [ht]
  · exact ⟨_, by rw [ht]⟩
  · rw [places_self h.used, Dinode.slot, if_pos hle, ha]
  · rw [places, hcur]
    refine slot_setAddr ?_ ?_ hle hfresh ?_ fun c hc => ?_
    · rw [cur_self]
      exact h.used
    · rw [cur_self]
      exact ha
    · rw [ht]
      exact update_self ..
    · rw [ht]
      exact update_of_ne hc ..
  · rw [ht]
    exact update_self ..
  · intro w _ hw
    rw [ht]
    exact update_of_ne (hfresh w hw) ..

theorem Owned.setEntry (h : Owned sb k s) (hc : (s.inode k).copy.addrs NDIRECT ≠ 0) (hj : j < NINDIRECT)
    (hw : (s.block ((s.inode k).copy.addrs NDIRECT)).word j = 0) (hb : s.bit b = false) (hlt : b < sb.size)
    (hbit : t.bit = update s.bit b true) (hdinode : t.dinode = s.dinode) (hinode : t.inode = s.inode)
    (hblock : t.block = update (update s.block b fun _ => 0) ((s.inode k).copy.addrs NDIRECT)
      ((s.block ((s.inode k).copy.addrs NDIRECT)).setWord j b)) :
    Owned sb k t ∧ Added sb k {.entry j} s t ∧ places k t ((s.inode k).inum, .entry j) = b := by
  have hind : places k s ((s.inode k).inum, .addr NDIRECT) = (s.inode k).copy.addrs NDIRECT := by
    rw [places_self h.used, Dinode.slot, if_pos (Nat.le_refl _)]
  have hne : b ≠ (s.inode k).copy.addrs NDIRECT := by
    rw [← hind] at hc ⊢
    exact (h.ne_of_free hb hc).symm
  have hcur : cur k t = cur k s := by rw [cur, cur, hdinode, hinode]
  refine h.add hb hlt hbit hdinode ⟨(s.inode k).copy.addrs, ?_⟩ ?_ ?_ ?_ ?_
  · rw [hinode, update_eq_self]
  · rw [places_self h.used, Dinode.slot, if_pos ⟨hj, hc⟩, hw]
  · rw [places, hcur]
    refine slot_setEntry h.placed ?_ ?_ hj hb hlt ?_ fun d hd hd' => ?_
    · rw [cur_self]
      exact h.used
    · rwa [cur_self]
    · rw [cur_self, hblock, update_self]
    · rw [cur_self] at hd'
      rw [hblock, update_of_ne hd', update_of_ne hd]
  · rw [hblock, update_of_ne hne, update_self]
  · intro w hw2 hw
    have hother : places k s w ≠ (s.inode k).copy.addrs NDIRECT := by
      rw [← hind] at hc ⊢
      exact h.placed.ne hc fun he => hw2 (by rw [he])
    rw [hblock, update_of_ne hother, update_of_ne (h.ne_of_free hb hw)]

theorem balloc_count : Post (fun e => e = "balloc: out of blocks" ∧ freeCount sb s = 0) (balloc sb) s fun b t =>
    s.bit b = false ∧ b < sb.size ∧
      t = { s with bit := update s.bit b true, block := update s.block b fun _ => 0 } := by
  rw [balloc, post_read_bind]
  cases hfind : (List.range sb.size).find? fun b => s.bit b = false with
  | none =>
    refine ⟨rfl, Finset.card_eq_zero.mpr (Finset.filter_eq_empty_iff.mpr fun b hb => ?_)⟩
    have := List.find?_eq_none.mp hfind b (List.mem_range.mpr (Finset.mem_range.mp hb))
    simpa using this
  | some b =>
    refine ⟨by simpa using List.find?_some hfind, ?_, rfl⟩
    exact List.mem_range.mp (List.mem_of_find?_eq_some hfind)

theorem addrAlloc_spec (h : Owned sb k s) (hle : a ≤ NDIRECT) :
    Post (fun e => e = "balloc: out of blocks" ∧ freeCount sb s < (missing k s {.addr a}).card)
      (addrAlloc sb k a) s fun c t =>
        (t.inode k).copy.addrs a = c ∧ c ≠ 0 ∧ Owned sb k t ∧ Added sb k (missing k s {.addr a}) s t := by
  have hslot : places k s ((s.inode k).inum, .addr a) = (s.inode k).copy.addrs a := by
    rw [places_self h.used, Dinode.slot, if_pos hle]
  rw [addrAlloc, post_read_bind]
  by_cases ha : (s.inode k).copy.addrs a = 0
  · have hmissing : missing k s {.addr a} = {.addr a} :=
      Finset.filter_true_of_mem fun x hx => by rw [Finset.mem_singleton.mp hx, hslot, ha]
    rw [if_pos ha, hmissing, Finset.card_singleton]
    refine Post.bind (balloc_count.mono_panic fun e he => ⟨he.1, by omega⟩) fun b t hbt => ?_
    obtain ⟨hb, hlt, rfl⟩ := hbt
    obtain ⟨hown, hadd, _⟩ := h.setAddr ha hle hb hlt rfl
    refine ⟨?_, (h.placed.data_of_free hb hlt).ne_zero, hown, hadd⟩
    dsimp only [Volume.setInode]
    rw [update_self]
    exact update_self ..
  · have hmissing : missing k s {.addr a} = ∅ :=
      Finset.filter_false_of_mem fun x hx => by rwa [Finset.mem_singleton.mp hx, hslot]
    rw [if_neg ha, hmissing]
    exact ⟨rfl, ha, h, Added.refl sb k s⟩

theorem missing_subset (h : A ⊆ B) : missing k s A ⊆ missing k s B := Finset.filter_subset_filter _ h

theorem missing_union : missing k s (A ∪ B) = missing k s A ∪ missing k s B := Finset.filter_union ..

theorem Added.missing_eq (h : Added sb k A s t) (hdisj : Disjoint A B) : missing k t B = missing k s B := by
  refine Finset.filter_congr fun x hx => ?_
  rw [h.grown.inum, h.same _ x fun _ hA => Finset.disjoint_left.mp hdisj hA hx]

theorem bmap_spec (h : Owned sb k s) (hbn : bn < MAXFILE) :
    Post (fun e => e = "balloc: out of blocks" ∧ freeCount sb s < (missing k s (needed bn)).card)
      (bmap sb k bn) s fun b t =>
        places k t ((s.inode k).inum, .index bn) = b ∧ b ≠ 0 ∧ Owned sb k t ∧
          Added sb k (missing k s (needed bn)) s t := by
  unfold bmap
  split
  next hlt =>
    have hneeded : needed bn = {.addr bn} := if_pos hlt
    rw [hneeded]
    refine (addrAlloc_spec h (Nat.le_of_lt hlt)).mono fun b t hbt => ?_
    obtain ⟨hb, hpos, hown, hadd⟩ := hbt
    refine ⟨?_, hpos, hown, hadd⟩
    rw [← hadd.grown.inum, places_self hown.used, Slot.index, if_pos hlt, Dinode.slot, if_pos (Nat.le_of_lt hlt), hb]
  next hge =>
    have hj : bn - NDIRECT < NINDIRECT := by
      unfold MAXFILE at hbn
      omega
    have hneeded : needed bn = {.addr NDIRECT} ∪ {.entry (bn - NDIRECT)} := if_neg hge
    have hdisj : Disjoint ({.addr NDIRECT} : Finset Slot) {.entry (bn - NDIRECT)} := by simp
    rw [if_pos hj, hneeded, missing_union, Slot.index, if_neg hge]
    have hcard := Finset.card_union_of_disjoint
      (Finset.disjoint_of_subset_left (Finset.filter_subset _ _)
        (Finset.disjoint_of_subset_right (Finset.filter_subset _ _) hdisj) :
        Disjoint (missing k s {.addr NDIRECT}) (missing k s {.entry (bn - NDIRECT)}))
    rw [hcard]
    refine Post.bind ((addrAlloc_spec h (Nat.le_refl _)).mono_panic fun e he => ⟨he.1, by omega⟩) fun c t hct => ?_
    obtain ⟨hc, hpos, hown, hadd⟩ := hct
    have hinum := hadd.grown.inum
    have hmiss := hadd.missing_eq (Finset.disjoint_of_subset_left (Finset.filter_subset _ _) hdisj)
    have hcount := hadd.count
    have hslot : places k t ((t.inode k).inum, .entry (bn - NDIRECT)) = (t.block c).word (bn - NDIRECT) := by
      rw [places_self hown.used, Dinode.slot, hc, if_pos ⟨hj, hpos⟩]
    rw [post_read_bind, ← hmiss]
    by_cases hw : (t.block c).word (bn - NDIRECT) = 0
    · have hentry : missing k t {.entry (bn - NDIRECT)} = {.entry (bn - NDIRECT)} :=
        Finset.filter_true_of_mem fun x hx => by rw [Finset.mem_singleton.mp hx, hslot, hw]
      rw [if_pos hw, hentry, Finset.card_singleton]
      refine Post.bind (balloc_count.mono_panic fun e he => ⟨he.1, by omega⟩) fun b u hbu => ?_
      obtain ⟨hb, hlt, rfl⟩ := hbu
      have hcb : c ≠ b := by
        have hind : places k t ((t.inode k).inum, .addr NDIRECT) = c := by
          rw [places_self hown.used, Dinode.slot, if_pos (Nat.le_refl _), hc]
        rw [← hind] at hpos ⊢
        exact hown.ne_of_free hb hpos
      rw [post_change_bind]
      obtain ⟨hown', hadd', hself⟩ := hown.setEntry (t := Volume.setBlock
        { t with bit := update t.bit b true, block := update t.block b fun _ => 0 } c
        ((update t.block b (fun _ => 0) c).setWord (bn - NDIRECT) b))
        (by rwa [hc]) hj (by rwa [hc]) hb hlt rfl rfl rfl (by rw [hc, update_of_ne hcb]; rfl)
      rw [hinum] at hself
      exact ⟨hself, (hown.placed.data_of_free hb hlt).ne_zero, hown', hadd.trans hadd'⟩
    · have hentry : missing k t {.entry (bn - NDIRECT)} = ∅ :=
        Finset.filter_false_of_mem fun x hx => by rwa [Finset.mem_singleton.mp hx, hslot]
      rw [if_neg hw, hentry, Finset.union_empty]
      exact ⟨by rw [← hinum, hslot], hw, hown, hadd⟩

end TweakedXv6.Fs
