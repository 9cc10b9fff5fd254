import Mathlib.Data.Nat.Notation

namespace TweakedXv6

section

variable (P : Nat → Prop) [DecidablePred P] (R : Nat → Nat → Prop) [DecidableRel R]

/-- A search over the slots below `n` that `P` accepts: a slot `k` takes the place of the choice `s` so
far if `R k s`. -/
def scan : Nat → Option Nat
  | 0 => none
  | n + 1 =>
    if P n then
      match scan n with
      | none => some n
      | some s => if R n s then some n else some s
    else scan n

end

variable {P Q : Nat → Prop} [DecidablePred P] {R : Nat → Nat → Prop} [DecidableRel R] {k m n s : Nat}

theorem scan_skip (hn : ¬ P n) : scan P R (n + 1) = scan P R n := if_neg hn

theorem scan_first (hn : P n) (hs : scan P R n = none) : scan P R (n + 1) = some n := by
  rw [scan, if_pos hn, hs]

theorem scan_next (hn : P n) (hs : scan P R n = some s) : scan P R (n + 1) = if R n s then some n else some s := by
  rw [scan, if_pos hn, hs]

theorem scan_some (h : scan P R n = some s) : s < n ∧ P s ∧ ∀ k, s < k → k < n → P k → ¬ R k s := by
  induction n with
  | zero => cases h
  | succ n ih =>
    by_cases hn : P n
    · cases hs : scan P R n with
      | none =>
        rw [scan_first hn hs] at h
        cases h
        exact ⟨Nat.lt_succ_self s, hn, fun k hk hkn => by omega⟩
      | some u =>
        rw [scan_next hn hs] at h
        split at h
        next =>
          cases h
          exact ⟨Nat.lt_succ_self s, hn, fun k hk hkn => by omega⟩
        next hR =>
          cases h
          obtain ⟨hlt, hP, hlater⟩ := ih hs
          refine ⟨Nat.lt_succ_of_lt hlt, hP, fun k hk hkn hPk => ?_⟩
          rcases Nat.lt_succ_iff_lt_or_eq.mp hkn with hkn | rfl
          · exact hlater k hk hkn hPk
          · exact hR
    · rw [scan_skip hn] at h
      obtain ⟨hlt, hP, hlater⟩ := ih h
      refine ⟨Nat.lt_succ_of_lt hlt, hP, fun k hk hkn hPk => ?_⟩
      rcases Nat.lt_succ_iff_lt_or_eq.mp hkn with hkn | rfl
      · exact hlater k hk hkn hPk
      · exact absurd hPk hn

/-- A slot with the property `Q` takes the place of any without it. From there on the choice has `Q` if
no later slot without `Q` takes the place of one with it. -/
theorem scan_keeps (hgood : ∀ k s, Q k → ¬ Q s → R k s) (hm : m < n) (hPm : P m) (hQm : Q m)
    (hlater : ∀ k s, m < k → k < n → P k → ¬ Q k → s < n → P s → Q s → ¬ R k s) : ∃ s, scan P R n = some s ∧ Q s := by
  induction n with
  | zero => omega
  | succ n ih =>
    rcases Nat.lt_succ_iff_lt_or_eq.mp hm with hlt | rfl
    · obtain ⟨s, hs, hQs⟩ := ih hlt fun k s hk hkn hPk hQk hs =>
        hlater k s hk (Nat.lt_succ_of_lt hkn) hPk hQk (Nat.lt_succ_of_lt hs)
      by_cases hn : P n
      · rw [scan_next hn hs]
        split
        next hR =>
          by_cases hQn : Q n
          · exact ⟨n, rfl, hQn⟩
          · obtain ⟨hsn, hPs, _⟩ := scan_some hs
            exact absurd hR (hlater n s hlt (Nat.lt_succ_self n) hn hQn (Nat.lt_succ_of_lt hsn) hPs hQs)
        next => exact ⟨s, rfl, hQs⟩
      · rw [scan_skip hn]
        exact ⟨s, hs, hQs⟩
    · cases hs : scan P R m with
      | none => exact ⟨m, scan_first hPm hs, hQm⟩
      | some u =>
        rw [scan_next hPm hs]
        by_cases hQu : Q u
        · split
          next => exact ⟨m, rfl, hQm⟩
          next => exact ⟨u, rfl, hQu⟩
        · rw [if_pos (hgood m u hQm hQu)]
          exact ⟨m, rfl, hQm⟩

end TweakedXv6
