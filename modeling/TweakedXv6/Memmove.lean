import Mathlib.Logic.Function.Basic

namespace TweakedXv6.Move

open Function (update update_self update_of_ne)

abbrev Mem := UInt64 → UInt8

def copyUp (m : Mem) (d s : UInt64) : Nat → Mem
  | 0 => m
  | n + 1 => copyUp (update m d (m s)) (d + 1) (s + 1) n

def copyDown (m : Mem) (d s : UInt64) : Nat → Mem
  | 0 => m
  | n + 1 => copyDown (update m (d - 1) (m (s - 1))) (d - 1) (s - 1) n

def kernelMemmove (m : Mem) (dst src : UInt64) (n : UInt32) : UInt64 × Mem :=
  if n = 0 then (dst, m)
  else if src < dst ∧ src + n.toUInt64 > dst then (dst, copyDown m (dst + n.toUInt64) (src + n.toUInt64) n.toNat)
  else (dst, copyUp m dst src n.toNat)

def userMemmove (m : Mem) (vdst vsrc : UInt64) (n : Int32) : UInt64 × Mem :=
  if vsrc > vdst then (vdst, copyUp m vdst vsrc n.toInt.toNat)
  else (vdst, copyDown m (vdst + n.toInt64.toUInt64) (vsrc + n.toInt64.toUInt64) n.toInt.toNat)

def addr (p : UInt64) (i : Nat) : UInt64 := p + UInt64.ofNat i

/-- The `n` bytes from `dst` on are those that were at `src`, and no other byte has changed. -/
structure Moved (m t : Mem) (dst src : UInt64) (n : Nat) : Prop where
  copied : ∀ i < n, t (addr dst i) = m (addr src i)
  frame : ∀ a, (∀ i < n, a ≠ addr dst i) → t a = m a

variable {m t t' : Mem} {d s dst src p : UInt64} {i j n : Nat}

theorem addr_zero : addr p 0 = p := UInt64.add_zero p

theorem addr_succ : addr p (i + 1) = addr p i + 1 := by
  unfold addr
  rw [UInt64.ofNat_add, ← UInt64.add_assoc]
  rfl

theorem addr_next : addr (p + 1) i = addr p (i + 1) := by
  unfold addr
  rw [UInt64.ofNat_add, UInt64.add_assoc, UInt64.add_comm 1]
  rfl

theorem addr_toNat (h : p.toNat + i < 18446744073709551616) : (addr p i).toNat = p.toNat + i := by
  unfold addr
  rw [UInt64.toNat_add, UInt64.toNat_ofNat', Nat.add_mod_mod]
  exact Nat.mod_eq_of_lt h

theorem addr_inj (h : p.toNat + n ≤ 18446744073709551616) (hi : i < n) (hj : j < n) (he : addr p i = addr p j) : i = j := by
  have he := congrArg UInt64.toNat he
  rw [addr_toNat (by omega), addr_toNat (by omega)] at he
  omega

theorem Moved.unique (h : Moved m t dst src n) (h' : Moved m t' dst src n) : t' = t := by
  funext a
  by_cases ha : ∃ i < n, a = addr dst i
  · obtain ⟨i, hi, rfl⟩ := ha
    rw [h'.copied i hi, h.copied i hi]
  · have hout : ∀ i < n, a ≠ addr dst i := fun i hi he => ha ⟨i, hi, he⟩
    rw [h'.frame a hout, h.frame a hout]

theorem copyUp_moved (hinj : ∀ i j, i < j → j < n → addr d i ≠ addr d j) (hread : ∀ i j, i < j → j < n → addr s j ≠ addr d i) :
    Moved m (copyUp m d s n) d s n := by
  induction n generalizing m d s with
  | zero => exact ⟨fun i hi => absurd hi (Nat.not_lt_zero i), fun _ _ => rfl⟩
  | succ n ih =>
    have hrest : Moved (update m d (m s)) (copyUp m d s (n + 1)) (d + 1) (s + 1) n := by
      refine ih (fun i j hij hj => ?_) (fun i j hij hj => ?_)
      · rw [addr_next, addr_next]
        exact hinj (i + 1) (j + 1) (by omega) (by omega)
      · rw [addr_next, addr_next]
        exact hread (i + 1) (j + 1) (by omega) (by omega)
    have hfirst : ∀ i < n, d ≠ addr (d + 1) i := by
      intro i hi
      have hne := hinj 0 (i + 1) (by omega) (by omega)
      rwa [addr_zero, ← addr_next] at hne
    constructor
    · intro i hi
      cases i with
      | zero => rw [addr_zero, addr_zero, hrest.frame d hfirst, update_self]
      | succ i =>
        have hne := hread 0 (i + 1) (by omega) hi
        rw [addr_zero] at hne
        rw [← addr_next, hrest.copied i (by omega), addr_next, update_of_ne hne]
    · intro a ha
      have hne := ha 0 (by omega)
      rw [addr_zero] at hne
      rw [hrest.frame a fun i hi => ?_, update_of_ne hne]
      rw [addr_next]
      exact ha (i + 1) (by omega)

theorem copyDown_moved (hinj : ∀ i j, i < j → j < n → addr d i ≠ addr d j)
    (hread : ∀ i j, i < j → j < n → addr s i ≠ addr d j) : Moved m (copyDown m (addr d n) (addr s n) n) d s n := by
  induction n generalizing m with
  | zero => exact ⟨fun i hi => absurd hi (Nat.not_lt_zero i), fun _ _ => rfl⟩
  | succ n ih =>
    have hback : ∀ p, addr p (n + 1) - 1 = addr p n := by
      intro p
      rw [addr_succ, UInt64.add_sub_cancel]
    have hrest : Moved (update m (addr d n) (m (addr s n))) (copyDown m (addr d (n + 1)) (addr s (n + 1)) (n + 1)) d s n := by
      rw [copyDown, hback, hback]
      exact ih (fun i j hij hj => hinj i j hij (by omega)) fun i j hij hj => hread i j hij (by omega)
    constructor
    · intro i hi
      by_cases hin : i = n
      · subst hin
        rw [hrest.frame _ fun j hj => (hinj j i hj (by omega)).symm, update_self]
      · rw [hrest.copied i (by omega), update_of_ne (hread i n (by omega) (by omega))]
    · intro a ha
      rw [hrest.frame a fun i hi => ha i (by omega), update_of_ne (ha n (by omega))]

section Overlap

variable (hd : dst.toNat + n ≤ 18446744073709551616) (hs : src.toNat + n ≤ 18446744073709551616)
include hd hs

theorem up_moved (h : dst ≤ src ∨ src.toNat + n ≤ dst.toNat) : Moved m (copyUp m dst src n) dst src n := by
  refine copyUp_moved (fun i j hij hj he => absurd (addr_inj hd (by omega) hj he) (by omega)) fun i j hij hj he => ?_
  have he := congrArg UInt64.toNat he
  rw [addr_toNat (by omega), addr_toNat (by omega)] at he
  rcases h with h | h
  · rw [UInt64.le_iff_toNat_le] at h
    omega
  · omega

theorem down_moved (h : src ≤ dst ∨ dst.toNat + n ≤ src.toNat) :
    Moved m (copyDown m (addr dst n) (addr src n) n) dst src n := by
  refine copyDown_moved (fun i j hij hj he => absurd (addr_inj hd (by omega) hj he) (by omega)) fun i j hij hj he => ?_
  have he := congrArg UInt64.toNat he
  rw [addr_toNat (by omega), addr_toNat (by omega)] at he
  rcases h with h | h
  · rw [UInt64.le_iff_toNat_le] at h
    omega
  · omega

theorem kernelMemmove_moved (hn : n < 4294967296) : (kernelMemmove m dst src (UInt32.ofNat n)).1 = dst ∧
      Moved m (kernelMemmove m dst src (UInt32.ofNat n)).2 dst src n := by
  have hcount : (UInt32.ofNat n).toNat = n := UInt32.toNat_ofNat_of_lt' hn
  have hend : ∀ p : UInt64, p + (UInt32.ofNat n).toUInt64 = addr p n := by
    intro p
    rw [addr, ← UInt32.toUInt64_ofNat' hn]
  unfold kernelMemmove
  rw [hcount, hend, hend]
  split
  next hzero =>
    have hn0 : n = 0 := by
      rw [← hcount, hzero]
      rfl
    subst hn0
    exact ⟨rfl, fun i hi => absurd hi (Nat.not_lt_zero i), fun _ _ => rfl⟩
  next =>
    split
    next hover => exact ⟨rfl, down_moved hd hs (.inl (UInt64.le_of_lt hover.1))⟩
    next hover =>
      refine ⟨rfl, up_moved hd hs ?_⟩
      by_cases hlt : src < dst
      · have hle := UInt64.le_iff_toNat_le.mp (UInt64.not_lt.mp fun hgt => hover ⟨hlt, hgt⟩)
        rw [UInt64.lt_iff_toNat_lt] at hlt
        rw [addr_toNat (by omega)] at hle
        exact .inr hle
      · exact .inl (UInt64.not_lt.mp hlt)

theorem userMemmove_moved (hn : n < 2147483648) :
    (userMemmove m dst src (Int32.ofNat n)).1 = dst ∧ Moved m (userMemmove m dst src (Int32.ofNat n)).2 dst src n := by
  have hint : (Int32.ofNat n).toInt = n := Int32.toInt_ofNat_of_lt hn
  have hcount : (Int32.ofNat n).toInt.toNat = n := by rw [hint, Int.toNat_natCast]
  have hend : ∀ p : UInt64, p + (Int32.ofNat n).toInt64.toUInt64 = addr p n := by
    intro p
    have hmax : (n : Int) ≤ Int32.maxValue.toInt := Int.le_of_lt_add_one (Int.ofNat_lt.mpr hn)
    rw [addr, Int32.toInt64_ofNat' hmax, Int64.toUInt64_ofNat']
  unfold userMemmove
  rw [hcount, hend, hend]
  split
  next hgt => exact ⟨rfl, up_moved hd hs (.inl (UInt64.le_of_lt hgt))⟩
  next hgt => exact ⟨rfl, down_moved hd hs (.inl (UInt64.not_lt.mp hgt))⟩

end Overlap

/-- Both functions move the bytes as they were, whatever the ranges have in common, and change nothing
else. So they agree. -/
theorem memmove_agree (m : Mem) (dst src : UInt64) (n : Nat) (hd : dst.toNat + n ≤ 18446744073709551616)
    (hs : src.toNat + n ≤ 18446744073709551616) (hn : n < 2147483648) :
    Moved m (kernelMemmove m dst src (UInt32.ofNat n)).2 dst src n ∧
    Moved m (userMemmove m dst src (Int32.ofNat n)).2 dst src n ∧
    userMemmove m dst src (Int32.ofNat n) = kernelMemmove m dst src (UInt32.ofNat n) := by
  obtain ⟨hkernel, hk⟩ := kernelMemmove_moved (m := m) hd hs (by omega)
  obtain ⟨huser, hu⟩ := userMemmove_moved (m := m) hd hs hn
  exact ⟨hk, hu, Prod.ext (huser.trans hkernel.symm) (hk.unique hu)⟩

/-- Two bytes are moved up by one, over themselves. -/
theorem memmove_agree_overlap :
    Moved (fun a => a.toUInt8) (kernelMemmove (fun a => a.toUInt8) 11 10 (UInt32.ofNat 2)).2 11 10 2 ∧
    (userMemmove (fun a => a.toUInt8) 11 10 (Int32.ofNat 2)).2 12 = 11 := by
  obtain ⟨hk, hu, _⟩ := memmove_agree (fun a => a.toUInt8) 11 10 2 (by decide) (by decide) (by decide)
  exact ⟨hk, hu.copied 1 (by decide)⟩

end TweakedXv6.Move
