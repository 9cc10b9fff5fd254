import Mathlib.Data.List.Chain
import Mathlib.Data.List.Perm.Basic

namespace TweakedXv6.Sweep

variable {α : Type} {bad good : α → Bool} {x y : α} {l : List α}

/-- What a sweep leaves of a list when it deletes the entry it looks at and then moves on: the entry
behind a deleted one is passed over. -/
def kept (bad : α → Bool) : List α → List α
  | [] => []
  | [x] => if bad x then [] else [x]
  | x :: y :: l => if bad x then y :: kept bad l else x :: kept bad (y :: l)

def taken (bad : α → Bool) : List α → List α
  | [] => []
  | [x] => if bad x then [x] else []
  | x :: y :: l => if bad x then x :: taken bad l else taken bad (y :: l)

theorem kept_good (h : bad x = false) : kept bad (x :: l) = x :: kept bad l := by
  cases l <;> simp [kept, h]

theorem taken_good (h : bad x = false) : taken bad (x :: l) = taken bad l := by
  cases l <;> simp [taken, h]

theorem taken_bad (h : bad x = true) : taken bad (x :: l) = x :: taken bad l.tail := by
  cases l <;> simp [taken, h]

theorem kept_bad (h : bad x = true) : kept bad (x :: l) = l.head?.toList ++ kept bad l.tail := by
  cases l <;> simp [kept, h]

theorem perm (bad : α → Bool) (l : List α) : (kept bad l ++ taken bad l).Perm l := by
  fun_induction kept bad l with
  | case1 => exact .refl []
  | case2 x h => simp [taken, h]
  | case3 x h => simp [taken, h]
  | case4 x y l h ih =>
    rw [taken_bad h]
    have hmove : (kept bad l ++ x :: taken bad l).Perm (x :: (kept bad l ++ taken bad l)) := List.perm_middle
    exact ((hmove.cons y).trans (.swap x y _)).trans ((ih.cons y).cons x)
  | case5 x y l h ih =>
    rw [taken_good (by simpa using h)]
    exact ih.cons x

theorem kept_sublist : (kept bad l).Sublist l := by
  fun_induction kept bad l with
  | case1 => exact .refl []
  | case2 x => exact List.nil_sublist _
  | case3 x => exact .refl _
  | case4 x y l _ ih => exact (ih.cons_cons y).cons x
  | case5 x y l _ ih => exact ih.cons_cons x

theorem mem_of_taken (h : x ∈ taken bad l) : x ∈ l := (perm bad l).subset (List.mem_append_right _ h)

theorem mem_of_kept (h : x ∈ kept bad l) : x ∈ l := kept_sublist.subset h

theorem congr (h : ∀ x ∈ l, good x = bad x) : kept good l = kept bad l ∧ taken good l = taken bad l := by
  fun_induction kept bad l with
  | case1 => exact ⟨rfl, rfl⟩
  | case2 x hx => simp [kept, taken, h x, hx]
  | case3 x hx => simp [kept, taken, h x, hx]
  | case4 x y l hx ih =>
    obtain ⟨hk, ht⟩ := ih fun z hz => h z (by simp [hz])
    have hgood : good x = true := (h x List.mem_cons_self).trans hx
    simp [kept, taken, hgood, hx, hk, ht]
  | case5 x y l hx ih =>
    obtain ⟨hk, ht⟩ := ih fun z hz => h z (List.mem_cons_of_mem x hz)
    have hbad : bad x = false := by simpa using hx
    have hgood : good x = false := (h x List.mem_cons_self).trans hbad
    rw [kept_good hgood, taken_good hgood, taken_good hbad, hk, ht]
    exact ⟨rfl, rfl⟩

def Spread (bad : α → Bool) (l : List α) : Prop := l.IsChain fun x y => ¬ (bad x ∧ bad y)

instance : Decidable (Spread bad l) := by
  unfold Spread
  infer_instance

theorem Spread.tail (h : Spread bad (x :: l)) : Spread bad l := List.IsChain.tail h

theorem Spread.eq_filter (h : Spread bad l) : kept bad l = l.filter (!bad ·) ∧ taken bad l = l.filter bad := by
  fun_induction kept bad l with
  | case1 => exact ⟨rfl, rfl⟩
  | case2 x hx => simp [taken, hx]
  | case3 x hx => simp [taken, hx]
  | case4 x y l hx ih =>
    have hy : bad y = false := by
      have := (List.isChain_cons_cons.mp h).1
      simpa [hx] using this
    obtain ⟨hk, ht⟩ := ih h.tail.tail
    rw [taken_bad hx]
    simp [hx, hy, hk, ht]
  | case5 x y l hx ih =>
    have hx : bad x = false := by simpa using hx
    obtain ⟨hk, ht⟩ := ih h.tail
    have hnot : (x :: y :: l).filter bad = (y :: l).filter bad := List.filter_cons_of_neg (by simp [hx])
    rw [taken_good hx, List.filter_cons_of_pos (by simp [hx]), hnot, hk, ht]
    exact ⟨rfl, rfl⟩

theorem spread_of_kept (h : ∀ x ∈ kept bad l, bad x = false) : Spread bad l := by
  fun_induction kept bad l with
  | case1 => exact .nil
  | case2 x => exact .singleton x
  | case3 x => exact .singleton x
  | case4 x y l hx ih =>
    have hy : bad y = false := h y List.mem_cons_self
    have hl : Spread bad l := ih fun z hz => h z (List.mem_cons_of_mem y hz)
    have hyl : Spread bad (y :: l) := by
      cases l with
      | nil => exact .singleton y
      | cons z l => exact List.isChain_cons_cons.mpr ⟨by simp [hy], hl⟩
    exact List.isChain_cons_cons.mpr ⟨by simp [hy], hyl⟩
  | case5 x y l hx ih =>
    exact List.isChain_cons_cons.mpr ⟨by simp [hx], ih fun z hz => h z (List.mem_cons_of_mem x hz)⟩

theorem length_add : (kept bad l).length + (taken bad l).length = l.length := by
  rw [← List.length_append]
  exact (perm bad l).length_eq

end TweakedXv6.Sweep
