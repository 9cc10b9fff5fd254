import Mathlib.Data.List.Chain
import Mathlib.Dynamics.PeriodicPts.Defs

namespace TweakedXv6

variable {α : Type} {next : α → α} {c a b : α} {l l₁ l₂ : List α} {k : Nat}

/-- `next` leads along `c :: l` and from its end back to `c`. -/
def Circle (next : α → α) (c : α) (l : List α) : Prop := (c :: (l ++ [c])).IsChain fun a b => next a = b

theorem isChain_congr {S : α → α → Prop} {R : α → α → Prop} (h : (l ++ [a]).IsChain R)
    (hsame : ∀ x ∈ l, ∀ y, R x y → S x y) : (l ++ [a]).IsChain S := by
  induction l with
  | nil => exact .singleton a
  | cons x l ih =>
    rw [List.cons_append, List.isChain_cons] at h ⊢
    exact ⟨fun y hy => hsame x List.mem_cons_self y (h.1 y hy),
      ih h.2 fun z hz => hsame z (List.mem_cons_of_mem x hz)⟩

namespace Circle

theorem nil (h : next c = c) : Circle next c [] := by
  unfold Circle
  simpa using h

theorem cut (h : Circle next c l) (he : c :: l = l₁ ++ a :: l₂) :
    (l₁ ++ [a]).IsChain (fun a b => next a = b) ∧ (a :: (l₂ ++ [c])).IsChain fun a b => next a = b := by
  unfold Circle at h
  rw [← List.cons_append, he, List.append_assoc, List.cons_append] at h
  exact List.isChain_split.mp h

theorem join (he : c :: l = l₁ ++ a :: l₂) (h₁ : (l₁ ++ [a]).IsChain fun a b => next a = b)
    (h₂ : (a :: (l₂ ++ [c])).IsChain fun a b => next a = b) : Circle next c l := by
  unfold Circle
  rw [← List.cons_append, he, List.append_assoc, List.cons_append]
  exact List.isChain_split.mpr ⟨h₁, h₂⟩

section Circle

variable (h : Circle next c l)

include h

theorem next_eq (he : c :: l = l₁ ++ a :: l₂) : (l₂ ++ [c]).head? = some (next a) := by
  have h₂ := (h.cut he).2
  cases l₂ with
  | nil =>
    have hc : next a = c := by simpa using h₂
    rw [hc]
    rfl
  | cons b l₂ =>
    have hb : next a = b := (List.isChain_cons_cons.mp h₂).1
    rw [hb]
    rfl

theorem next_mem (ha : a ∈ c :: l) : next a ∈ c :: l := by
  obtain ⟨l₁, l₂, he⟩ := List.append_of_mem ha
  have hn := h.next_eq he
  cases l₂ with
  | nil =>
    cases hn
    exact List.mem_cons_self
  | cons b l₂ =>
    cases hn
    rw [he]
    simp

theorem iterate_mem (ha : a ∈ c :: l) (k : Nat) : next^[k] a ∈ c :: l := by
  induction k generalizing a with
  | zero => exact ha
  | succ k ih => exact ih (h.next_mem ha)

theorem iterate_eq (hk : k < (c :: l).length) : next^[k] c = (c :: l)[k] := by
  induction k with
  | zero => rfl
  | succ k ih =>
    have hk' : k < (c :: l).length := Nat.lt_of_succ_lt hk
    have he : c :: l = (c :: l).take k ++ (c :: l)[k] :: (c :: l)[k + 1] :: (c :: l).drop (k + 2) := by
      rw [← List.drop_eq_getElem_cons hk, ← List.drop_eq_getElem_cons hk', List.take_append_drop]
    have hn := h.next_eq he
    rw [Function.iterate_succ_apply', ih hk']
    exact (Option.some.inj hn).symm

theorem iterate_length : next^[l.length + 1] c = c := by
  have hk : l.length < (c :: l).length := by simp
  have he : c :: l = (c :: l).take l.length ++ [(c :: l)[l.length]] := by
    rw [← List.take_succ_eq_append_getElem hk]
    simp
  have hn := h.next_eq he
  rw [Function.iterate_succ_apply', h.iterate_eq hk]
  exact (Option.some.inj hn).symm

theorem from_start (ha : a ∈ c :: l) : ∃ k ≤ l.length, next^[k] c = a := by
  obtain ⟨k, hk, he⟩ := List.getElem_of_mem ha
  refine ⟨k, ?_, (h.iterate_eq hk).trans he⟩
  rw [List.length_cons] at hk
  omega

theorem reach (ha : a ∈ c :: l) (hb : b ∈ c :: l) : ∃ k ≤ l.length, next^[k] a = b := by
  obtain ⟨i, hi, rfl⟩ := h.from_start ha
  obtain ⟨j, hj, rfl⟩ := h.from_start hb
  rcases Nat.le_total i j with hij | hij
  · refine ⟨j - i, by omega, ?_⟩
    rw [← Function.iterate_add_apply, Nat.sub_add_cancel hij]
  · rcases Nat.eq_or_lt_of_le hij with rfl | hlt
    · exact ⟨0, Nat.zero_le _, rfl⟩
    · refine ⟨l.length + 1 - i + j, by omega, ?_⟩
      rw [← Function.iterate_add_apply, show l.length + 1 - i + j + i = j + (l.length + 1) by omega,
        Function.iterate_add_apply, h.iterate_length]

theorem around (ha : a ∈ c :: l) : next^[l.length] (next a) = a := by
  obtain ⟨i, _, rfl⟩ := h.from_start ha
  rw [← Function.iterate_succ_apply, ← Function.iterate_add_apply, Nat.add_comm, Function.iterate_add_apply,
    h.iterate_length]

theorem meets (ha : a ∈ c :: l) (hb : b ∈ c :: l) (hk : next^[k] (next a) = a) : ∃ i ≤ k, next^[i] (next a) = b := by
  obtain ⟨i, _, hi⟩ := h.reach (h.next_mem ha) hb
  have hper : Function.IsPeriodicPt next (k + 1) (next a) := by
    rw [Function.IsPeriodicPt, Function.IsFixedPt, Function.iterate_succ_apply', hk]
  refine ⟨i % (k + 1), Nat.lt_succ_iff.mp (Nat.mod_lt _ (Nat.succ_pos k)), ?_⟩
  rw [hper.iterate_mod_apply, hi]

end Circle

end Circle

end TweakedXv6
