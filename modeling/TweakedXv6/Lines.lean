import Mathlib.Data.List.Basic

namespace TweakedXv6

variable {α : Type} [DecidableEq α] {sep : α} {l s t : List α}

/-- The lines of a stream that have an end, without it, and what comes after the last of them. -/
def lines (sep : α) : List α → List (List α) × List α
  | [] => ([], [])
  | a :: s =>
    if a = sep then ([] :: (lines sep s).1, (lines sep s).2)
    else
      match (lines sep s).1 with
      | [] => ([], a :: (lines sep s).2)
      | l :: ls => ((a :: l) :: ls, (lines sep s).2)

theorem lines_open (h : sep ∉ l) : lines sep l = ([], l) := by
  induction l with
  | nil => rfl
  | cons a l ih =>
    obtain ⟨ha, hl⟩ := not_or.mp (List.mem_cons.not.mp h)
    rw [lines, if_neg (Ne.symm ha), ih hl]

theorem lines_cons (h : sep ∉ l) : lines sep (l ++ sep :: s) = (l :: (lines sep s).1, (lines sep s).2) := by
  induction l with
  | nil => rw [List.nil_append, lines, if_pos rfl]
  | cons a l ih =>
    obtain ⟨ha, hl⟩ := not_or.mp (List.mem_cons.not.mp h)
    rw [List.cons_append, lines, if_neg (Ne.symm ha), ih hl]

theorem lines_induction {P : List α → Prop} (sep : α) (hopen : ∀ s, sep ∉ s → P s)
    (hline : ∀ l s, sep ∉ l → P s → P (l ++ sep :: s)) (s : List α) : P s := by
  induction hn : s.length using Nat.strongRecOn generalizing s with
  | _ n ih =>
    by_cases h : sep ∈ s
    · obtain ⟨l, t, rfl, hl⟩ := List.eq_append_cons_of_mem h
      refine hline l t hl (ih t.length ?_ t rfl)
      rw [← hn, List.length_append, List.length_cons]
      omega
    · exact hopen s h

theorem lines_rest (s : List α) : sep ∉ (lines sep s).2 := by
  induction s using lines_induction sep with
  | hopen s hs => rwa [lines_open hs]
  | hline l s hl ih => rwa [lines_cons hl]

theorem lines_suffix (s : List α) : (lines sep s).2 <:+ s := by
  induction s using lines_induction sep with
  | hopen s hs => simp [lines_open hs]
  | hline l s hl ih =>
    rw [lines_cons hl]
    exact (ih.trans (List.suffix_cons sep s)).trans (List.suffix_append l _)

theorem lines_append (s t : List α) : (lines sep (s ++ t)).1 = (lines sep s).1 ++ (lines sep ((lines sep s).2 ++ t)).1 := by
  induction s using lines_induction sep with
  | hopen s hs => rw [lines_open hs, List.nil_append]
  | hline l s hl ih => rw [List.append_assoc, List.cons_append, lines_cons hl, lines_cons hl, ih, List.cons_append]

theorem lines_length (s : List α) : ∀ l ∈ (lines sep s).1, l.length < s.length := by
  induction s using lines_induction sep with
  | hopen s hs =>
    rw [lines_open hs]
    exact fun _ hno => absurd hno List.not_mem_nil
  | hline l s hl ih =>
    rw [lines_cons hl, List.length_append, List.length_cons]
    intro x hx
    rcases List.mem_cons.mp hx with rfl | hx
    · omega
    · have := ih x hx
      omega

end TweakedXv6
