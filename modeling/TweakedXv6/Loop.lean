import Mathlib.Data.Nat.Notation

namespace TweakedXv6

variable {σ α : Type} {I : σ → Prop} {f : σ → α → Option σ} {l : List α} {s t : σ}

theorem foldlM_keeps (step : ∀ s a t, I s → f s a = some t → I t) (hs : I s) (ht : l.foldlM f s = some t) : I t := by
  induction l generalizing s with
  | nil =>
    cases ht
    exact hs
  | cons a l ih =>
    rw [List.foldlM_cons] at ht
    obtain ⟨u, hu, ht⟩ := Option.bind_eq_some_iff.mp ht
    exact ih (step s a u hs hu) ht

theorem foldlM_returns (step : ∀ s a, I s → ∃ t, f s a = some t ∧ I t) (hs : I s) :
    ∃ t, l.foldlM f s = some t ∧ I t := by
  induction l generalizing s with
  | nil => exact ⟨s, rfl, hs⟩
  | cons a l ih =>
    obtain ⟨u, hu, hI⟩ := step s a hs
    obtain ⟨t, ht, hI⟩ := ih hI
    refine ⟨t, ?_, hI⟩
    rw [List.foldlM_cons, hu]
    exact ht

theorem foldlM_fixed (step : ∀ a ∈ l, f s a = some s) : l.foldlM f s = some s := by
  induction l with
  | nil => rfl
  | cons a l ih =>
    rw [List.foldlM_cons, step a List.mem_cons_self]
    exact ih fun b hb => step b (List.mem_cons_of_mem a hb)

end TweakedXv6
