import Mathlib.Data.List.Basic

namespace TweakedXv6

abbrev Bytes := Nat → UInt8

namespace Bytes

def word (c : Bytes) (j : Nat) : Nat :=
  (c (4 * j)).toNat + 256 * (c (4 * j + 1)).toNat + 65536 * (c (4 * j + 2)).toNat +
    16777216 * (c (4 * j + 3)).toNat

def wordByte (w i : Nat) : UInt8 :=
  UInt8.ofNat (if i = 0 then w else if i = 1 then w / 256 else if i = 2 then w / 65536 else w / 16777216)

def setWord (c : Bytes) (j w : Nat) : Bytes := fun i => if i / 4 = j then wordByte w (i % 4) else c i

def slice (c : Bytes) (o n : Nat) : List UInt8 := (List.range n).map fun i => c (o + i)

def write (c : Bytes) (o : Nat) (bs : List UInt8) : Bytes := fun i =>
  if o ≤ i then bs.getD (i - o) (c i) else c i

variable {c c' : Bytes} {i j o o' n w : Nat} {bs : List UInt8}

theorem word_zero : word (fun _ => 0) j = 0 := by simp [word]

theorem word_eq (hw : w < 4294967296) (h : ∀ k, k < 4 → c (4 * j + k) = wordByte w k) : word c j = w := by
  have h0 := h 0 (by omega)
  rw [Nat.add_zero] at h0
  rw [word, h0, h 1 (by omega), h 2 (by omega), h 3 (by omega)]
  simp [wordByte]
  omega

theorem word_congr (h : ∀ k, k < 4 → c' (4 * j + k) = c (4 * j + k)) : word c' j = word c j := by
  have h0 := h 0 (by omega)
  rw [Nat.add_zero] at h0
  simp only [word, h0, h 1 (by omega), h 2 (by omega), h 3 (by omega)]

theorem word_lt : word c j < 4294967296 := by
  have h0 := (c (4 * j)).toNat_lt
  have h1 := (c (4 * j + 1)).toNat_lt
  have h2 := (c (4 * j + 2)).toNat_lt
  have h3 := (c (4 * j + 3)).toNat_lt
  unfold word
  omega

theorem word_setWord_self (hw : w < 4294967296) : word (setWord c j w) j = w := by
  refine word_eq hw fun k hk => ?_
  have hdiv : (4 * j + k) / 4 = j := by omega
  have hmod : (4 * j + k) % 4 = k := by omega
  simp [setWord, hdiv, hmod]

theorem word_setWord_other (h : i ≠ j) : word (setWord c j w) i = word c i := by
  refine word_congr fun k hk => ?_
  have hdiv : (4 * i + k) / 4 ≠ j := by omega
  simp [setWord, hdiv]

theorem slice_length : (slice c o n).length = n := by simp [slice]

theorem slice_congr (h : ∀ i, o ≤ i → i < o + n → c' i = c i) : slice c' o n = slice c o n := by
  refine List.map_congr_left fun i hi => h _ (by omega) ?_
  have := List.mem_range.mp hi
  omega

theorem write_at (h : i < bs.length) : write c o bs (o + i) = bs[i] := by
  simp [write, h]

theorem write_other (h : i < o ∨ o + bs.length ≤ i) : write c o bs i = c i := by
  unfold write
  split
  next hle => simp [List.getElem?_eq_none (show bs.length ≤ i - o by omega)]
  next => rfl

theorem write_nil : write c o [] = c := by
  funext i
  exact write_other (by simp; omega)

theorem write_append {bs' : List UInt8} : write (write c o bs) (o + bs.length) bs' = write c o (bs ++ bs') := by
  funext i
  rcases Nat.lt_or_ge i (o + bs.length) with hlt | hge
  · rw [write_other (.inl hlt)]
    unfold write
    split
    next hle => rw [List.getD_eq_getElem?_getD, List.getD_eq_getElem?_getD, List.getElem?_append_left (by omega)]
    next => rfl
  · unfold write
    have hnone : bs[i - o]? = none := List.getElem?_eq_none (by omega)
    rw [if_pos hge, if_pos (by omega), if_pos (by omega), List.getD_eq_getElem?_getD, List.getD_eq_getElem?_getD,
      List.getD_eq_getElem?_getD, List.getElem?_append_right (by omega), hnone, Nat.sub_add_eq]
    rfl

theorem slice_write_self : slice (write c o bs) o bs.length = bs := by
  refine List.ext_getElem (by simp [slice]) fun i hi _ => ?_
  rw [slice_length] at hi
  simp [slice, write_at hi]

theorem slice_write_other (h : o' + n ≤ o ∨ o + bs.length ≤ o') : slice (write c o bs) o' n = slice c o' n :=
  slice_congr fun i _ _ => write_other (by omega)

end Bytes

end TweakedXv6
