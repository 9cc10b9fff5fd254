import Mathlib.Data.List.Basic

namespace TweakedXv6.Slots

/-- The first index below `n` that `p` accepts. -/
def first (p : Nat → Bool) (n : Nat) : Option Nat := (List.range n).find? p

variable {κ ν : Type} [DecidableEq κ] {e e' : Nat → Option (κ × ν)} {key k : κ} {v w : ν} {i j n : Nat}
  {p : Nat → Bool}

theorem first_eq_none : first p n = none ↔ ∀ i < n, p i = false := by
  simp [first]

theorem first_eq_some : first p n = some i ↔ i < n ∧ p i = true ∧ ∀ j < i, p j = false := by
  unfold first
  rw [List.find?_range_eq_some]
  simp only [List.mem_range, Bool.not_eq_eq_eq_not, Bool.not_true]
  exact ⟨fun h => ⟨h.2.1, h.1, h.2.2⟩, fun h => ⟨h.2.1, h.1, h.2.2⟩⟩

/-- The index of the first entry with the key, in a table of `n` entries some of which are empty. -/
def index (e : Nat → Option (κ × ν)) (n : Nat) (key : κ) : Option Nat := first (fun i => (e i).map Prod.fst = some key) n

/-- The value of the first entry with the key. -/
def get (e : Nat → Option (κ × ν)) (n : Nat) (key : κ) : Option ν :=
  (index e n key).bind fun i => (e i).map Prod.snd

def Unique (e : Nat → Option (κ × ν)) (n : Nat) : Prop :=
  ∀ i j key v w, i < n → j < n → e i = some (key, v) → e j = some (key, w) → i = j

omit [DecidableEq κ] in
theorem key_iff : (e i).map Prod.fst = some key ↔ ∃ v, e i = some (key, v) := by
  simp [Option.map_eq_some_iff]

theorem index_eq_none : index e n key = none ↔ ∀ i < n, ∀ v, e i ≠ some (key, v) := by
  unfold index
  rw [first_eq_none]
  refine forall₂_congr fun i _ => ?_
  rw [decide_eq_false_iff_not, key_iff, not_exists]

theorem index_eq_some (h : Unique e n) : index e n key = some i ↔ i < n ∧ ∃ v, e i = some (key, v) := by
  unfold index
  rw [first_eq_some, decide_eq_true_iff, key_iff]
  refine ⟨fun hf => ⟨hf.1, hf.2.1⟩, fun hi => ⟨hi.1, hi.2, fun j hj => ?_⟩⟩
  rw [decide_eq_false_iff_not, key_iff]
  rintro ⟨w, hw⟩
  obtain ⟨hlt, v, hv⟩ := hi
  exact absurd (h j i key w v (by omega) hlt hw hv) (by omega)

theorem get_eq_none : get e n key = none ↔ ∀ i < n, ∀ v, e i ≠ some (key, v) := by
  rw [← index_eq_none]
  unfold get
  cases hi : index e n key with
  | none => simp
  | some i =>
    obtain ⟨_, hkey, _⟩ := first_eq_some.mp hi
    obtain ⟨v, hv⟩ := key_iff.mp (decide_eq_true_iff.mp hkey)
    simp [hv]

theorem entry_of_get (h : get e n key = some v) : ∃ i < n, e i = some (key, v) := by
  obtain ⟨i, hi, hv⟩ := Option.bind_eq_some_iff.mp h
  obtain ⟨hlt, hkey, _⟩ := first_eq_some.mp hi
  obtain ⟨w, hw⟩ := key_iff.mp (decide_eq_true_iff.mp hkey)
  rw [hw] at hv
  cases hv
  exact ⟨i, hlt, hw⟩

theorem get_eq_some (h : Unique e n) : get e n key = some v ↔ ∃ i < n, e i = some (key, v) := by
  refine ⟨entry_of_get, ?_⟩
  rintro ⟨i, hlt, hi⟩
  unfold get
  rw [(index_eq_some h).mpr ⟨hlt, v, hi⟩, Option.bind_some, hi]
  rfl

/-- The tables agree on the entries below `n` other than entry `i`. -/
def Agree (e e' : Nat → Option (κ × ν)) (n i : Nat) : Prop := ∀ j < n, j ≠ i → e' j = e j

omit [DecidableEq κ] in
theorem Agree.cases (h : Agree e e' n i) (hin : i ≤ n) (hj : j < max n (i + 1)) : j = i ∨ j < n ∧ e' j = e j := by
  by_cases hji : j = i
  · exact .inl hji
  · have hlt : j < n := by omega
    exact .inr ⟨hlt, h j hlt hji⟩

section Agree

variable (h : Unique e n) (hag : Agree e e' n i)

include h hag

theorem Unique.insert (hin : i ≤ n) (hi : e' i = some (key, v))
    (hnew : get e n key = none) : Unique e' (max n (i + 1)) := by
  rw [get_eq_none] at hnew
  intro a b k w w' ha hb hea heb
  rcases hag.cases hin ha with rfl | ⟨ha', hsa⟩
  · rcases hag.cases hin hb with rfl | ⟨hb', hsb⟩
    · rfl
    · rw [hi] at hea
      cases hea
      exact absurd (hsb ▸ heb) (hnew b hb' w')
  · rcases hag.cases hin hb with rfl | ⟨hb', hsb⟩
    · rw [hi] at heb
      cases heb
      exact absurd (hsa ▸ hea) (hnew a ha' w)
    · exact h a b k w w' ha' hb' (hsa ▸ hea) (hsb ▸ heb)

theorem get_insert (hin : i ≤ n) (hi : e' i = some (key, v)) (hhole : i < n → e i = none) (hnew : get e n key = none) :
    get e' (max n (i + 1)) k = if k = key then some v else get e n k := by
  have h' := h.insert hag hin hi hnew
  split
  next hk =>
    rw [hk, get_eq_some h']
    exact ⟨i, by omega, hi⟩
  next hk =>
    refine Option.ext fun w => ?_
    rw [get_eq_some h', get_eq_some h]
    constructor
    · rintro ⟨j, hj, hw⟩
      rcases hag.cases hin hj with rfl | ⟨hj', hsame⟩
      · rw [hi] at hw
        cases hw
        exact absurd rfl hk
      · exact ⟨j, hj', hsame ▸ hw⟩
    · rintro ⟨j, hj, hw⟩
      have hji : j ≠ i := by
        rintro rfl
        rw [hhole hj] at hw
        cases hw
      exact ⟨j, by omega, by rw [hag j hj hji, hw]⟩

omit [DecidableEq κ] in
theorem Unique.clear (hi : e' i = none) : Unique e' n := by
  intro a b k w w' ha hb hea heb
  have hne : ∀ {j x}, e' j = some x → j ≠ i := by
    rintro j x hj rfl
    rw [hi] at hj
    cases hj
  rw [hag a ha (hne hea)] at hea
  rw [hag b hb (hne heb)] at heb
  exact h a b k w w' ha hb hea heb

theorem get_clear (hi : e' i = none) (hlt : i < n) (hold : e i = some (key, v)) :
    get e' n k = if k = key then none else get e n k := by
  have h' := h.clear hag hi
  split
  next hk =>
    rw [hk, get_eq_none]
    intro j hj w hw
    by_cases hji : j = i
    · rw [hji, hi] at hw
      cases hw
    · rw [hag j hj hji] at hw
      exact hji (h j i key w v hj hlt hw hold)
  next hk =>
    refine Option.ext fun w => ?_
    rw [get_eq_some h', get_eq_some h]
    constructor
    · rintro ⟨j, hj, hw⟩
      have hji : j ≠ i := by
        rintro rfl
        rw [hi] at hw
        cases hw
      exact ⟨j, hj, by rw [← hag j hj hji, hw]⟩
    · rintro ⟨j, hj, hw⟩
      have hji : j ≠ i := by
        rintro rfl
        rw [hold] at hw
        cases hw
        exact hk rfl
      exact ⟨j, hj, by rw [hag j hj hji, hw]⟩

end Agree

end TweakedXv6.Slots
