import TweakedXv6.Bytes

namespace TweakedXv6.Bytes

def dword (c : Bytes) (j : Nat) : Nat := word c (2 * j) + 4294967296 * word c (2 * j + 1)

def setDword (c : Bytes) (j w : Nat) : Bytes :=
  setWord (setWord c (2 * j) (w % 4294967296)) (2 * j + 1) (w / 4294967296)

def fill (c : Bytes) (a n : Nat) (b : UInt8) : Bytes := fun i => if a ≤ i ∧ i < a + n then b else c i

/-- `n` bytes moved from `src` to `dst`; the two may overlap. -/
def move (c : Bytes) (dst src n : Nat) : Bytes := fun i =>
  if dst ≤ i ∧ i < dst + n then c (src + (i - dst)) else c i

/-- The `n` bytes of `val` stored one after the other at the addresses `addr`. -/
def transfer (c : Bytes) (addr : Nat → Nat) (val : Nat → UInt8) : Nat → Bytes
  | 0 => c
  | n + 1 => fun a => if a = addr n then val n else transfer c addr val n a

variable {c c' : Bytes} {a i j k n w dst src : Nat} {v : UInt8} {addr addr' : Nat → Nat}
  {val val' : Nat → UInt8}

theorem dword_lt : dword c j < 18446744073709551616 := by
  have h0 : word c (2 * j) < 4294967296 := word_lt
  have h1 : word c (2 * j + 1) < 4294967296 := word_lt
  unfold dword
  omega

theorem dword_shift (h : ∀ k, k < 8 → c' (8 * i + k) = c (8 * j + k)) : dword c' i = dword c j := by
  have hmove : ∀ p q r, (∀ k, k < 4 → c' (4 * p + k) = c (4 * q + k)) → r = word c q → word c' p = r := by
    intro p q r hk hr
    have h0 := hk 0 (by omega)
    simp only [Nat.add_zero] at h0
    rw [hr, word, word, h0, hk 1 (by omega), hk 2 (by omega), hk 3 (by omega)]
  have hlo := hmove (2 * i) (2 * j) _ (fun k hk => by
    rw [show 4 * (2 * i) + k = 8 * i + k by omega, show 4 * (2 * j) + k = 8 * j + k by omega]
    exact h k (by omega)) rfl
  have hhi := hmove (2 * i + 1) (2 * j + 1) _ (fun k hk => by
    rw [show 4 * (2 * i + 1) + k = 8 * i + (4 + k) by omega, show 4 * (2 * j + 1) + k = 8 * j + (4 + k) by omega]
    exact h (4 + k) (by omega)) rfl
  rw [dword, dword, hlo, hhi]

theorem dword_congr (h : ∀ k, k < 8 → c' (8 * j + k) = c (8 * j + k)) : dword c' j = dword c j := dword_shift h

theorem dword_setDword_self (hw : w < 18446744073709551616) : dword (setDword c j w) j = w := by
  have hne : 2 * j ≠ 2 * j + 1 := by omega
  rw [dword, setDword, word_setWord_other hne, word_setWord_self (Nat.mod_lt _ (by omega)),
    word_setWord_self (by omega)]
  omega

theorem setDword_byte (h : a / 8 ≠ j) : setDword c j w a = c a := by
  have hlo : a / 4 ≠ 2 * j := by omega
  have hhi : a / 4 ≠ 2 * j + 1 := by omega
  simp [setDword, setWord, hlo, hhi]

theorem dword_setDword_other (h : i ≠ j) : dword (setDword c j w) i = dword c i :=
  dword_congr fun k hk => setDword_byte (by omega)

theorem fill_in (h : a ≤ i ∧ i < a + n) : fill c a n v i = v := if_pos h

theorem fill_out (h : i < a ∨ a + n ≤ i) : fill c a n v i = c i := if_neg (by omega)

theorem dword_fill (h : a ≤ 8 * j) (hn : 8 * j + 8 ≤ a + n) :
    dword (fill c a n v) j = v.toNat * 72340172838076673 := by
  have hword : ∀ p, a ≤ 4 * p → 4 * p + 4 ≤ a + n → word (fill c a n v) p = v.toNat * 16843009 := by
    intro p hp hpn
    rw [word, fill_in (by omega), fill_in (by omega), fill_in (by omega), fill_in (by omega)]
    omega
  rw [dword, hword _ (by omega) (by omega), hword _ (by omega) (by omega)]
  omega

theorem move_in (h : dst ≤ i ∧ i < dst + n) : move c dst src n i = c (src + (i - dst)) := if_pos h

theorem move_out (h : i < dst ∨ dst + n ≤ i) : move c dst src n i = c i := if_neg (by omega)

theorem move_zero : move c dst src 0 = c := by
  funext i
  exact move_out (by omega)

theorem transfer_succ : transfer c addr val (n + 1) a = if a = addr n then val n else transfer c addr val n a := rfl

theorem transfer_out (h : ∀ i < n, addr i ≠ a) : transfer c addr val n a = c a := by
  induction n with
  | zero => rfl
  | succ n ih =>
    rw [transfer_succ, if_neg (h n (Nat.lt_succ_self n)).symm]
    exact ih fun i hi => h i (Nat.lt_succ_of_lt hi)

theorem transfer_in (hi : i < n) (h : ∀ j, i < j → j < n → addr j ≠ addr i) :
    transfer c addr val n (addr i) = val i := by
  induction n with
  | zero => exact absurd hi (Nat.not_lt_zero i)
  | succ n ih =>
    rw [transfer_succ]
    rcases Nat.lt_or_eq_of_le (Nat.le_of_lt_succ hi) with hlt | rfl
    · rw [if_neg (h n hlt (Nat.lt_succ_self n)).symm]
      exact ih hlt fun j hij hj => h j hij (Nat.lt_succ_of_lt hj)
    · rw [if_pos rfl]

theorem transfer_congr (ha : ∀ i < n, addr' i = addr i) (hv : ∀ i < n, val' i = val i) :
    transfer c addr' val' n = transfer c addr val n := by
  induction n with
  | zero => rfl
  | succ n ih =>
    rw [transfer, transfer, ha n (Nat.lt_succ_self n), hv n (Nat.lt_succ_self n),
      ih (fun i hi => ha i (Nat.lt_succ_of_lt hi)) fun i hi => hv i (Nat.lt_succ_of_lt hi)]

theorem transfer_add : transfer c addr val (n + k) =
    transfer (transfer c addr val n) (fun i => addr (n + i)) (fun i => val (n + i)) k := by
  induction k with
  | zero => rfl
  | succ k ih =>
    rw [← Nat.add_assoc, transfer, transfer, ih]

theorem move_eq_transfer : move c dst src n = transfer c (dst + ·) (fun i => c (src + i)) n := by
  induction n with
  | zero => exact move_zero
  | succ n ih =>
    funext i
    rw [transfer_succ, ← ih]
    by_cases hi : i = dst + n
    · rw [if_pos hi, move_in (by omega), show i - dst = n by omega]
    · rw [if_neg hi]
      by_cases hlt : dst ≤ i ∧ i < dst + n
      · rw [move_in hlt, move_in (by omega)]
      · rw [move_out (by omega), move_out (by omega)]

end TweakedXv6.Bytes
