import Mathlib.Algebra.BigOperators.Group.Finset.Basic
import Mathlib.Algebra.Order.BigOperators.Group.Finset
import TweakedXv6.FsRead
import TweakedXv6.MkfsModel

namespace TweakedXv6.Mkfs

open Prog Fs
open Function (update update_self update_of_ne)

def sb : Superblock := ⟨FSSIZE, nblocks, NINODES, by decide, by decide, by decide⟩

def taken (m : Nat) : Nat := m + if NDIRECT < m then 1 else 0

/-- Inode `i` has its first `m i` blocks, and the blocks in use are those below `fb`. -/
structure Blocks (f : Nat × Slot → Nat) (fb : Nat) (m : Nat → Nat) : Prop where
  placed : Placed sb (fun b => decide (b < fb)) f
  index : ∀ i bn, f (i, .index bn) ≠ 0 ↔ bn < m i
  indirect : ∀ i, f (i, .addr NDIRECT) ≠ 0 ↔ NDIRECT < m i
  count : fb = nmeta + ∑ i ∈ Finset.range NINODES, taken (m i)

variable {f : Nat × Slot → Nat} {fb i j bn b : Nat} {m : Nat → Nat}

theorem sum_taken_update {n : Nat} (hi : i < NINODES) :
    ∑ j ∈ Finset.range NINODES, taken (update m i n j) + taken (m i) =
      ∑ j ∈ Finset.range NINODES, taken (m j) + taken n := by
  have hmem := Finset.mem_range.mpr hi
  rw [← Finset.add_sum_erase _ _ hmem, ← Finset.add_sum_erase _ (fun j => taken (m j)) hmem, update_self]
  have hrest : ∑ j ∈ (Finset.range NINODES).erase i, taken (update m i n j) =
      ∑ j ∈ (Finset.range NINODES).erase i, taken (m j) :=
    Finset.sum_congr rfl fun j hj => by rw [update_of_ne (Finset.ne_of_mem_erase hj)]
  omega

theorem Blocks.nmeta_le (h : Blocks f fb m) : nmeta ≤ fb := by
  have := h.count
  omega

theorem decide_lt_succ : (fun b => decide (b < fb + 1)) = update (fun b => decide (b < fb)) fb true := by
  funext b
  by_cases hb : b = fb
  · simp [hb]
  · rw [update_of_ne hb]
    exact decide_eq_decide.mpr (by omega)

theorem Placed.next {w : Nat × Slot} (h : Placed sb (fun b => decide (b < fb)) f) (hlt : fb < FSSIZE) (hw : f w = 0) :
    Placed sb (fun b => decide (b < fb + 1)) (update f w fb) := by
  rw [decide_lt_succ]
  exact h.attach (by simp) hlt hw

theorem Blocks.index_zero (h : Blocks f fb m) (hm : m i ≤ bn) : f (i, .index bn) = 0 := by
  by_contra h0
  exact Nat.not_lt.mpr hm ((h.index i bn).mp h0)

theorem Blocks.indirect_zero (h : Blocks f fb m) (hm : m i ≤ NDIRECT) : f (i, .addr NDIRECT) = 0 := by
  by_contra h0
  exact Nat.not_lt.mpr hm ((h.indirect i).mp h0)

theorem Blocks.pos (h : Blocks f fb m) : fb ≠ 0 := by
  have := h.nmeta_le
  have : nmeta = 46 := rfl
  omega

theorem Blocks.append (h : Blocks f fb m) (hi : i < NINODES) (hlt : fb < FSSIZE) (hne : m i ≠ NDIRECT) :
    Blocks (update f (i, .index (m i)) fb) (fb + 1) (update m i (m i + 1)) := by
  refine ⟨Placed.next h.placed hlt (h.index_zero (Nat.le_refl _)), fun j bn => ?_, fun j => ?_, ?_⟩
  · by_cases hj : j = i
    · subst hj
      rw [update_self]
      by_cases hbn : bn = m j
      · simp [hbn, h.pos]
      · rw [update_of_ne fun he => hbn (Slot.index_inj (congrArg Prod.snd he)), h.index]
        omega
    · rw [update_of_ne fun he => hj (congrArg Prod.fst he), update_of_ne hj]
      exact h.index j bn
  · rw [update_of_ne fun he => Slot.index_ne _ (congrArg Prod.snd he).symm, h.indirect]
    by_cases hj : j = i
    · rw [hj, update_self]
      omega
    · rw [update_of_ne hj]
  · have hsum := sum_taken_update (m := m) (n := m i + 1) hi
    have hcount := h.count
    have htaken : taken (m i + 1) = taken (m i) + 1 := by
      unfold taken
      split <;> split <;> omega
    omega

theorem Blocks.appendIndirect (h : Blocks f fb m) (hi : i < NINODES) (hlt : fb + 1 < FSSIZE) (hm : m i = NDIRECT) :
    Blocks (update (update f (i, .addr NDIRECT) fb) (i, .index NDIRECT) (fb + 1)) (fb + 2)
      (update m i (NDIRECT + 1)) := by
  have hnone := h.indirect_zero (Nat.le_of_eq hm)
  refine ⟨Placed.next (Placed.next h.placed (by omega) hnone) hlt ?_, fun j bn => ?_, fun j => ?_, ?_⟩
  · rw [update_of_ne fun he => Slot.index_ne NDIRECT (congrArg Prod.snd he)]
    exact h.index_zero (Nat.le_of_eq hm)
  · by_cases hj : j = i
    · subst hj
      rw [update_self]
      by_cases hbn : bn = NDIRECT
      · simp [hbn]
      · rw [update_of_ne fun he => hbn (Slot.index_inj (congrArg Prod.snd he)),
          update_of_ne fun he => Slot.index_ne _ (congrArg Prod.snd he), h.index]
        omega
    · rw [update_of_ne fun he => hj (congrArg Prod.fst he),
        update_of_ne fun he => hj (congrArg Prod.fst he), update_of_ne hj]
      exact h.index j bn
  · rw [update_of_ne fun he => Slot.index_ne NDIRECT (congrArg Prod.snd he).symm]
    by_cases hj : j = i
    · subst hj
      simp [h.pos]
    · rw [update_of_ne fun he => hj (congrArg Prod.fst he), update_of_ne hj]
      exact h.indirect j
  · have hsum := sum_taken_update (m := m) (n := NDIRECT + 1) hi
    have hcount := h.count
    have htaken : taken (NDIRECT + 1) = taken (m i) + 2 := by
      rw [hm]
      rfl
    omega

end TweakedXv6.Mkfs
