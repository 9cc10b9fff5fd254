import Mathlib.Data.List.Nodup
import Mathlib.Logic.Function.Basic

namespace TweakedXv6

open Function (update update_of_ne update_self)

/-- Each resource below `n` is free or in the list of one holder. -/
structure Allot (n : Nat) (free : Nat → Bool) (held : Nat → List Nat) : Prop where
  lt : ∀ p i, i ∈ held p → i < n
  nodup : ∀ p, (held p).Nodup
  apart : ∀ p q i, i ∈ held p → i ∈ held q → p = q
  free : ∀ i < n, free i = true ↔ ∀ p, i ∉ held p

namespace Allot

variable {n i p : Nat} {free : Nat → Bool} {held : Nat → List Nat} {l : List Nat}

theorem init (h : ∀ i < n, free i = true) : Allot n free fun _ => [] where
  lt _ _ h := absurd h List.not_mem_nil
  nodup _ := List.nodup_nil
  apart _ _ _ h := absurd h List.not_mem_nil
  free i hi := iff_of_true (h i hi) fun _ => List.not_mem_nil

theorem not_free (h : Allot n free held) (hi : i ∈ held p) : free i = false := by
  cases hf : free i with
  | false => rfl
  | true => exact absurd hi ((h.free i (h.lt p i hi)).mp hf p)

theorem give (h : Allot n free held) (hp : held p = []) (hnd : l.Nodup) (hl : ∀ i ∈ l, i < n ∧ free i = true) :
    Allot n (fun i => if i ∈ l then false else free i) (update held p l) := by
  have hnew : ∀ q i, i ∈ l → i ∉ held q := fun q i hi => (h.free i (hl i hi).1).mp (hl i hi).2 q
  constructor
  case lt =>
    intro q i hi
    by_cases hq : q = p
    · rw [hq, update_self] at hi
      exact (hl i hi).1
    · rw [update_of_ne hq] at hi
      exact h.lt q i hi
  case nodup =>
    intro q
    by_cases hq : q = p
    · rw [hq, update_self]
      exact hnd
    · rw [update_of_ne hq]
      exact h.nodup q
  case apart =>
    intro q r i hi hj
    by_cases hq : q = p <;> by_cases hr : r = p
    · rw [hq, hr]
    · rw [hq, update_self] at hi
      rw [update_of_ne hr] at hj
      exact absurd hj (hnew r i hi)
    · rw [hr, update_self] at hj
      rw [update_of_ne hq] at hi
      exact absurd hi (hnew q i hj)
    · rw [update_of_ne hq] at hi
      rw [update_of_ne hr] at hj
      exact h.apart q r i hi hj
  case free =>
    intro i hi
    by_cases hil : i ∈ l
    · rw [if_pos hil]
      exact iff_of_false Bool.false_ne_true fun hall => hall p (by rwa [update_self])
    · rw [if_neg hil, h.free i hi]
      constructor
      · intro hall q
        by_cases hq : q = p
        · rwa [hq, update_self]
        · rw [update_of_ne hq]
          exact hall q
      · intro hall q
        by_cases hq : q = p
        · rw [hq, hp]
          exact List.not_mem_nil
        · have := hall q
          rwa [update_of_ne hq] at this

theorem back (h : Allot n free held) (p : Nat) :
    Allot n (fun i => if i ∈ held p then true else free i) (update held p []) := by
  have hsub : ∀ q i, i ∈ update held p [] q → q ≠ p ∧ i ∈ held q := by
    intro q i hi
    by_cases hq : q = p
    · rw [hq, update_self] at hi
      exact absurd hi List.not_mem_nil
    · rw [update_of_ne hq] at hi
      exact ⟨hq, hi⟩
  constructor
  case lt => exact fun q i hi => h.lt q i (hsub q i hi).2
  case nodup =>
    intro q
    by_cases hq : q = p
    · rw [hq, update_self]
      exact List.nodup_nil
    · rw [update_of_ne hq]
      exact h.nodup q
  case apart => exact fun q r i hi hj => h.apart q r i (hsub q i hi).2 (hsub r i hj).2
  case free =>
    intro i hi
    by_cases hip : i ∈ held p
    · rw [if_pos hip]
      refine iff_of_true rfl fun q hq => ?_
      obtain ⟨hne, hq⟩ := hsub q i hq
      exact hne (h.apart q p i hq hip)
    · rw [if_neg hip, h.free i hi]
      constructor
      · exact fun hall q hq => hall q (hsub q i hq).2
      · intro hall q hq
        by_cases he : q = p
        · exact hip (he ▸ hq)
        · refine hall q ?_
          rwa [update_of_ne he]

end Allot

end TweakedXv6
