import Mathlib.Data.List.Basic

namespace TweakedXv6.User

def PGSIZE : Nat := 4096

/-- A user page table as `walkaddr` shows it: the physical address of the page at an aligned address. -/
abbrev Pages := Nat → Option Nat

def pgrounddown (va : Nat) : Nat := va - va % PGSIZE

abbrev Stores := List (Nat × UInt8)

def memmove (pa : Nat) : List UInt8 → Stores
  | [] => []
  | b :: bs => (pa, b) :: memmove (pa + 1) bs

/-- It takes at most as many rounds as there are bytes; false is -1. -/
def copyoutLoop (pt : Pages) : Nat → Nat → List UInt8 → Stores × Bool
  | 0, _, _ => ([], true)
  | fuel + 1, dstva, src =>
    if 0 < src.length then
      let va0 := pgrounddown dstva
      match pt va0 with
      | none => ([], false)
      | some pa0 =>
        let n := PGSIZE - (dstva - va0)
        let n := if src.length < n then src.length else n
        let r := copyoutLoop pt fuel (va0 + PGSIZE) (src.drop n)
        (memmove (pa0 + (dstva - va0)) (src.take n) ++ r.1, r.2)
    else ([], true)

def copyout (pt : Pages) (dstva : Nat) (src : List UInt8) : Stores × Bool := copyoutLoop pt src.length dstva src

/-- The bytes that have been copied, and false for -1. -/
def copyinLoop (pt : Pages) (mem : Nat → UInt8) : Nat → Nat → Nat → List UInt8 × Bool
  | 0, _, _ => ([], true)
  | fuel + 1, srcva, len =>
    if 0 < len then
      let va0 := pgrounddown srcva
      match pt va0 with
      | none => ([], false)
      | some pa0 =>
        let n := PGSIZE - (srcva - va0)
        let n := if len < n then len else n
        let r := copyinLoop pt mem fuel (va0 + PGSIZE) (len - n)
        ((List.range n).map (fun i => mem (pa0 + (srcva - va0) + i)) ++ r.1, r.2)
    else ([], true)

def copyin (pt : Pages) (mem : Nat → UInt8) (srcva len : Nat) : List UInt8 × Bool := copyinLoop pt mem len srcva len

def reach (pt : Pages) : Nat → Nat → Nat
  | _, 0 => 0
  | va, n + 1 => if (pt (pgrounddown va)).isSome then reach pt (va + 1) n + 1 else 0

def translate (pt : Pages) (va : Nat) : Nat := (pt (pgrounddown va)).getD 0 + va % PGSIZE

def stores (pt : Pages) (va : Nat) : List UInt8 → Stores
  | [] => []
  | b :: bs => (translate pt va, b) :: stores pt (va + 1) bs

def loads (pt : Pages) (mem : Nat → UInt8) (va n : Nat) : List UInt8 :=
  (List.range n).map fun i => mem (translate pt (va + i))

variable {pt : Pages} {mem : Nat → UInt8} {va n m fuel pa : Nat} {src : List UInt8}

theorem reach_le : reach pt va n ≤ n := by
  induction n generalizing va with
  | zero => exact Nat.le_refl 0
  | succ n ih =>
    rw [reach]
    split
    next => exact Nat.succ_le_succ ih
    next => exact Nat.zero_le _

theorem reach_eq_zero (hn : 0 < n) : reach pt va n = 0 ↔ pt (pgrounddown va) = none := by
  obtain ⟨n, rfl⟩ := Nat.exists_eq_succ_of_ne_zero (Nat.ne_of_gt hn)
  rw [reach]
  cases pt (pgrounddown va) <;> simp

theorem reach_unmapped (h : pt (pgrounddown va) = none) : reach pt va n = 0 := by
  cases n with
  | zero => rfl
  | succ n =>
    rw [reach, h]
    rfl

theorem reach_eq_iff : reach pt va m = m ↔ ∀ i < m, (pt (pgrounddown (va + i))).isSome = true := by
  induction m generalizing va with
  | zero => exact ⟨fun _ i hi => absurd hi (Nat.not_lt_zero i), fun _ => rfl⟩
  | succ m ih =>
    rw [reach]
    constructor
    · intro h i hi
      split at h
      next hmap =>
        cases i with
        | zero => exact hmap
        | succ i =>
          rw [Nat.add_comm i 1, ← Nat.add_assoc]
          exact ih.mp (Nat.succ.inj h) i (Nat.lt_of_succ_lt_succ hi)
      next => cases h
    · intro h
      have hmap : (pt (pgrounddown va)).isSome = true := h 0 (Nat.zero_lt_succ m)
      rw [if_pos hmap, ih.mpr]
      intro i hi
      rw [Nat.add_assoc, Nat.add_comm 1 i]
      exact h (i + 1) (Nat.succ_lt_succ hi)

theorem reach_add (h : reach pt va m = m) : reach pt va (m + n) = m + reach pt (va + m) n := by
  induction m generalizing va with
  | zero => simp
  | succ m ih =>
    rw [reach] at h
    split at h
    next hmap =>
      rw [Nat.succ_add, reach, if_pos hmap, ih (Nat.succ.inj h), Nat.add_assoc va 1 m, Nat.add_comm 1 m]
      omega
    next => omega

theorem reach_short (h : reach pt va m < m) : reach pt va (m + n) = reach pt va m := by
  induction m generalizing va with
  | zero => omega
  | succ m ih =>
    rw [reach] at h
    rw [Nat.succ_add, reach, reach]
    split at h
    next hmap => rw [if_pos hmap, if_pos hmap, ih (by omega)]
    next hmap => rw [if_neg hmap, if_neg hmap]

theorem reach_min (h : m ≤ n) : reach pt va m = min m (reach pt va n) := by
  have hle : reach pt va m ≤ m := reach_le
  by_cases hm : reach pt va m = m
  · have hadd := reach_add (n := n - m) hm
    rw [Nat.add_sub_cancel' h] at hadd
    omega
  · have hshort := reach_short (n := n - m) (show reach pt va m < m by omega)
    rw [Nat.add_sub_cancel' h] at hshort
    omega

theorem reach_chunk {tot : Nat} (htot : tot ≤ reach pt va n) (hm : tot + m ≤ n) :
    reach pt va n = tot + reach pt (va + tot) (n - tot) ∧
      reach pt (va + tot) m = min m (reach pt (va + tot) (n - tot)) := by
  have hmin : reach pt va tot = min tot (reach pt va n) := reach_min (by omega)
  have hsplit := reach_add (n := n - tot) (show reach pt va tot = tot by omega)
  rw [Nat.add_sub_cancel' (by omega)] at hsplit
  exact ⟨hsplit, reach_min (by omega)⟩

theorem pgrounddown_add (h : va % PGSIZE + m < PGSIZE) :
    pgrounddown (va + m) = pgrounddown va ∧ (va + m) % PGSIZE = va % PGSIZE + m := by
  unfold pgrounddown
  have hP : PGSIZE = 4096 := rfl
  rw [hP] at h ⊢
  omega

theorem reach_page (hmap : (pt (pgrounddown va)).isSome = true) (h : va % PGSIZE + n ≤ PGSIZE) :
    reach pt va n = n := by
  induction n generalizing va with
  | zero => rfl
  | succ n ih =>
    rw [reach, if_pos hmap]
    cases n with
    | zero => rfl
    | succ n =>
      obtain ⟨hpage, hmod⟩ := pgrounddown_add (show va % PGSIZE + 1 < PGSIZE by omega)
      rw [ih (by rwa [hpage]) (by omega)]

theorem stores_append {bs : List UInt8} : stores pt va (src ++ bs) = stores pt va src ++ stores pt (va + src.length) bs := by
  induction src generalizing va with
  | nil => rfl
  | cons b src ih =>
    rw [List.cons_append, stores, stores, ih, List.cons_append, List.length_cons]
    congr 3
    omega

theorem stores_length : (stores pt va src).length = src.length := by
  induction src generalizing va with
  | nil => rfl
  | cons b src ih => rw [stores, List.length_cons, List.length_cons, ih]

theorem memmove_page (hmap : pt (pgrounddown va) = some pa) (h : va % PGSIZE + src.length ≤ PGSIZE) :
    memmove (pa + va % PGSIZE) src = stores pt va src := by
  induction src generalizing va with
  | nil => rfl
  | cons b src ih =>
    rw [List.length_cons] at h
    rw [memmove, stores, translate, hmap, Option.getD_some]
    cases src with
    | nil => rfl
    | cons c src =>
      rw [List.length_cons] at h
      obtain ⟨hpage, hmod⟩ := pgrounddown_add (show va % PGSIZE + 1 < PGSIZE by omega)
      have hmap' : pt (pgrounddown (va + 1)) = some pa := by rwa [hpage]
      rw [← ih hmap' (by rw [List.length_cons]; omega), hmod, Nat.add_assoc]

theorem sub_pgrounddown : va - pgrounddown va = va % PGSIZE := by
  unfold pgrounddown
  have := Nat.mod_le va PGSIZE
  omega

def chunk (va len : Nat) : Nat := if len < PGSIZE - va % PGSIZE then len else PGSIZE - va % PGSIZE

theorem chunk_bounds (va : Nat) {len : Nat} (hlen : 0 < len) :
    0 < chunk va len ∧ chunk va len ≤ len ∧ va % PGSIZE + chunk va len ≤ PGSIZE := by
  have hmod := Nat.mod_lt va (show 0 < PGSIZE by decide)
  unfold chunk
  split <;> omega

theorem next_page {len : Nat} (hlen : chunk va len < len) : pgrounddown va + PGSIZE = va + chunk va len := by
  have hmod := Nat.mod_lt va (show 0 < PGSIZE by decide)
  have hle := Nat.mod_le va PGSIZE
  unfold chunk pgrounddown at *
  split at hlen
  next => omega
  next hge =>
    rw [if_neg hge]
    omega

theorem copyoutLoop_nil : copyoutLoop pt fuel va [] = ([], true) := by
  cases fuel <;> rfl

theorem copyinLoop_zero : copyinLoop pt mem fuel va 0 = ([], true) := by
  cases fuel <;> rfl

theorem copyoutLoop_unmapped (hpos : 0 < src.length) (hmap : pt (pgrounddown va) = none) :
    copyoutLoop pt (fuel + 1) va src = ([], false) := by
  rw [copyoutLoop, if_pos hpos]
  dsimp only
  rw [hmap]

theorem copyoutLoop_mapped (hpos : 0 < src.length) (hmap : pt (pgrounddown va) = some pa) :
    copyoutLoop pt (fuel + 1) va src =
      (memmove (pa + va % PGSIZE) (src.take (chunk va src.length)) ++
        (copyoutLoop pt fuel (va + chunk va src.length) (src.drop (chunk va src.length))).1,
      (copyoutLoop pt fuel (va + chunk va src.length) (src.drop (chunk va src.length))).2) := by
  have hnext : copyoutLoop pt fuel (pgrounddown va + PGSIZE) (src.drop (chunk va src.length)) =
      copyoutLoop pt fuel (va + chunk va src.length) (src.drop (chunk va src.length)) := by
    rcases Nat.lt_or_ge (chunk va src.length) src.length with hlt | hge
    · rw [next_page hlt]
    · rw [List.drop_of_length_le hge, copyoutLoop_nil, copyoutLoop_nil]
  rw [copyoutLoop, if_pos hpos]
  dsimp only
  rw [hmap, sub_pgrounddown, ← hnext]
  rfl

theorem copyoutLoop_eq (hfuel : src.length ≤ fuel) : copyoutLoop pt fuel va src =
    ((stores pt va src).take (reach pt va src.length), decide (reach pt va src.length = src.length)) := by
  induction fuel generalizing va src with
  | zero =>
    have hnil : src = [] := List.length_eq_zero_iff.mp (by omega)
    subst hnil
    rfl
  | succ fuel ih =>
    by_cases hpos : 0 < src.length
    · cases hmap : pt (pgrounddown va) with
      | none =>
        rw [copyoutLoop_unmapped hpos hmap, reach_unmapped hmap]
        simp [Nat.ne_of_lt hpos]
      | some pa =>
        rw [copyoutLoop_mapped hpos hmap]
        obtain ⟨hn1, hn2, hn3⟩ := chunk_bounds va hpos
        generalize chunk va src.length = n at hn1 hn2 hn3 ⊢
        have htake : (src.take n).length = n := by rw [List.length_take, Nat.min_eq_left hn2]
        have hdrop : (src.drop n).length = src.length - n := List.length_drop
        have hreach : reach pt va src.length = n + reach pt (va + n) (src.length - n) := by
          rw [← reach_add (reach_page (by rw [hmap]; rfl) hn3), Nat.add_sub_cancel' hn2]
        have hstores : stores pt va src = stores pt va (src.take n) ++ stores pt (va + n) (src.drop n) := by
          conv => lhs; rw [← List.take_append_drop n src, stores_append, htake]
        have hlen : (stores pt va (src.take n)).length = n := by rw [stores_length, htake]
        have hall : (stores pt va (src.take n)).take (n + reach pt (va + n) (src.length - n)) =
            stores pt va (src.take n) := List.take_of_length_le (by omega)
        rw [ih (by omega), memmove_page hmap (by rwa [htake]), hdrop, hreach, hstores, List.take_append, hlen, hall,
          Nat.add_sub_cancel_left]
        have hdone : n + reach pt (va + n) (src.length - n) = src.length ↔
            reach pt (va + n) (src.length - n) = src.length - n := by omega
        rw [decide_eq_decide.mpr hdone]
    · have hnil : src = [] := List.length_eq_zero_iff.mp (by omega)
      subst hnil
      rfl

theorem copyout_eq : copyout pt va src =
    ((stores pt va src).take (reach pt va src.length), decide (reach pt va src.length = src.length)) :=
  copyoutLoop_eq (Nat.le_refl _)

theorem loads_add : loads pt mem va (n + m) = loads pt mem va n ++ loads pt mem (va + n) m := by
  simp [loads, List.range_add, Nat.add_assoc]

theorem loads_length : (loads pt mem va n).length = n := by simp [loads]

theorem loads_take : (loads pt mem va n).take m = loads pt mem va (min m n) := by
  simp [loads, ← List.map_take, List.take_range]

theorem copyinLoop_unmapped (hn : 0 < n) (hmap : pt (pgrounddown va) = none) :
    copyinLoop pt mem (fuel + 1) va n = ([], false) := by
  rw [copyinLoop, if_pos hn]
  dsimp only
  rw [hmap]

theorem copyinLoop_mapped (hn : 0 < n) (hmap : pt (pgrounddown va) = some pa) : copyinLoop pt mem (fuel + 1) va n =
      (loads pt mem va (chunk va n) ++ (copyinLoop pt mem fuel (va + chunk va n) (n - chunk va n)).1,
      (copyinLoop pt mem fuel (va + chunk va n) (n - chunk va n)).2) := by
  have hnext : copyinLoop pt mem fuel (pgrounddown va + PGSIZE) (n - chunk va n) =
      copyinLoop pt mem fuel (va + chunk va n) (n - chunk va n) := by
    rcases Nat.lt_or_ge (chunk va n) n with hlt | hge
    · rw [next_page hlt]
    · rw [Nat.sub_eq_zero_of_le hge, copyinLoop_zero, copyinLoop_zero]
  have hloads : loads pt mem va (chunk va n) = (List.range (chunk va n)).map fun i => mem (pa + va % PGSIZE + i) := by
    refine List.map_congr_left fun i hi => ?_
    obtain ⟨_, _, hle⟩ := chunk_bounds va hn
    have hi := List.mem_range.mp hi
    obtain ⟨hpage, hmod⟩ := pgrounddown_add (show va % PGSIZE + i < PGSIZE by omega)
    rw [translate, hpage, hmap, hmod, Option.getD_some, Nat.add_assoc]
  rw [copyinLoop, if_pos hn]
  dsimp only
  rw [hmap, sub_pgrounddown, ← hnext, hloads]
  rfl

theorem copyinLoop_eq (hfuel : n ≤ fuel) : copyinLoop pt mem fuel va n =
    (loads pt mem va (reach pt va n), decide (reach pt va n = n)) := by
  induction fuel generalizing va n with
  | zero =>
    have hz : n = 0 := by omega
    subst hz
    rfl
  | succ fuel ih =>
    by_cases hpos : 0 < n
    · cases hmap : pt (pgrounddown va) with
      | none =>
        rw [copyinLoop_unmapped hpos hmap, reach_unmapped hmap]
        simp [loads, Nat.ne_of_lt hpos]
      | some pa =>
        rw [copyinLoop_mapped hpos hmap]
        obtain ⟨hn1, hn2, hn3⟩ := chunk_bounds va hpos
        generalize chunk va n = m at hn1 hn2 hn3 ⊢
        have hreach : reach pt va n = m + reach pt (va + m) (n - m) := by
          rw [← reach_add (reach_page (by rw [hmap]; rfl) hn3), Nat.add_sub_cancel' hn2]
        have hdone : m + reach pt (va + m) (n - m) = n ↔ reach pt (va + m) (n - m) = n - m := by omega
        rw [ih (by omega), hreach, loads_add, decide_eq_decide.mpr hdone]
    · have hz : n = 0 := by omega
      subst hz
      rfl

theorem copyin_eq : copyin pt mem va n = (loads pt mem va (reach pt va n), decide (reach pt va n = n)) :=
  copyinLoop_eq (Nat.le_refl _)

end TweakedXv6.User
