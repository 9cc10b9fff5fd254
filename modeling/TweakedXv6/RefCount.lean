import Mathlib.Algebra.BigOperators.Group.Finset.Basic
import Mathlib.Data.Fintype.Prod

namespace TweakedXv6

open Function (update update_self update_of_ne)

variable {η ρ : Type} [Fintype η] [DecidableEq η] [DecidableEq ρ] {slot : η → Option ρ} {h : η} {r : ρ}

def holders (slot : η → Option ρ) (r : ρ) : Nat := (Finset.univ.filter fun h => slot h = some r).card

omit [DecidableEq η] in
theorem holders_pos : 0 < holders slot r ↔ ∃ h, slot h = some r := by
  simp [holders, Finset.card_pos, Finset.Nonempty]

omit [DecidableEq η] in
theorem holders_le : holders slot r ≤ Fintype.card η := Finset.card_le_univ _

theorem holders_update (slot : η → Option ρ) (h : η) (o : Option ρ) (r : ρ) :
    holders (update slot h o) r + (if slot h = some r then 1 else 0) =
      holders slot r + if o = some r then 1 else 0 := by
  -- all slots but `h` count the same before and after
  have hsplit : ∀ f : η → Option ρ, holders f r =
      ((Finset.univ.erase h).filter fun g => f g = some r).card + if f h = some r then 1 else 0 := by
    intro f
    unfold holders
    rw [← Finset.insert_erase (Finset.mem_univ h), Finset.filter_insert]
    split
    next => rw [Finset.card_insert_of_notMem (by simp), Finset.erase_insert_eq_erase]; simp
    next => simp
  have hrest : (Finset.univ.erase h).filter (fun g => update slot h o g = some r) =
      (Finset.univ.erase h).filter fun g => slot g = some r := by
    refine Finset.filter_congr fun g hg => ?_
    rw [update_of_ne (Finset.ne_of_mem_erase hg)]
  rw [hsplit slot, hsplit (update slot h o), hrest, update_self]
  omega

theorem holders_fill (hnone : slot h = none) {s : ρ} :
    holders (update slot h (some s)) r = holders slot r + if r = s then 1 else 0 := by
  have := holders_update slot h (some s) r
  simpa [hnone, eq_comm] using this

theorem holders_clear {s : ρ} (hsome : slot h = some s) :
    holders (update slot h none) r + (if r = s then 1 else 0) = holders slot r := by
  have := holders_update slot h none r
  simpa [hsome, eq_comm] using this

theorem sum_update {β : Type} (g : η → β) (a : η) (b : β) (f : η → β → Nat) :
    ∑ x, f x (update g a b x) + f a (g a) = ∑ x, f x (g x) + f a b := by
  have hrest : ∑ x ∈ Finset.univ.erase a, f x (update g a b x) = ∑ x ∈ Finset.univ.erase a, f x (g x) := by
    refine Finset.sum_congr rfl fun x hx => ?_
    rw [update_of_ne (Finset.ne_of_mem_erase hx)]
  rw [← Finset.add_sum_erase _ _ (Finset.mem_univ a), ← Finset.add_sum_erase _ (fun x => f x (g x)) (Finset.mem_univ a),
    hrest, update_self]
  omega

end TweakedXv6
