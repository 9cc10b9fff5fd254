import Mathlib.Computability.Language
import TweakedXv6.GrepModel

namespace TweakedXv6.Grep

open Computability

inductive Item
  | one (c : UInt8)
  | many (c : UInt8)
  deriving DecidableEq

def items : List UInt8 → List Item
  | [] => []
  | [c] => [.one c]
  | c :: d :: re => if d = star then .many c :: items re else .one c :: items (d :: re)

def charLang (c : UInt8) : Language UInt8 := {w | ∃ a, w = [a] ∧ (c = dot ∨ a = c)}

def Item.lang : Item → Language UInt8
  | .one c => charLang c
  | .many c => (charLang c)∗

def lang (l : List Item) : Language UInt8 := (l.map Item.lang).prod

def AtEnd (l : List Item) : Prop := l.getLast? = some (.one dollar)

instance : DecidablePred AtEnd := fun l => inferInstanceAs (Decidable (l.getLast? = some (.one dollar)))

def body (l : List Item) : List Item := if AtEnd l then l.dropLast else l

def Begins (l : List Item) (text : List UInt8) : Prop :=
  ∃ v w, text = v ++ w ∧ v ∈ lang (body l) ∧ (AtEnd l → w = [])

def Matches (re text : List UInt8) : Prop :=
  if re.head? = some caret then Begins (items re.tail) text
  else ∃ u t, text = u ++ t ∧ Begins (items re) t

variable {c a : UInt8} {i : Item} {l : List Item} {re text v w : List UInt8} {here : List UInt8 → Bool}

theorem mem_many : v ∈ (charLang c)∗ ↔ ∀ a ∈ v, c = dot ∨ a = c := by
  rw [Language.mem_kstar]
  constructor
  · rintro ⟨S, rfl, hS⟩ a ha
    obtain ⟨x, hx, ha⟩ := List.mem_flatten.mp ha
    obtain ⟨b, rfl, hb⟩ := hS x hx
    rwa [List.mem_singleton.mp ha]
  · intro h
    refine ⟨v.map fun a => [a], ?_, ?_⟩
    · induction v with
      | nil => rfl
      | cons a v ih =>
        rw [List.map_cons, List.flatten_cons, ← ih fun b hb => h b (List.mem_cons_of_mem a hb)]
        rfl
    · intro x hx
      obtain ⟨a, ha, rfl⟩ := List.mem_map.mp hx
      exact ⟨a, rfl, h a ha⟩

theorem lang_nil : v ∈ lang [] ↔ v = [] := Iff.rfl

theorem lang_cons : v ∈ lang (i :: l) ↔ ∃ x ∈ i.lang, ∃ y ∈ lang l, x ++ y = v := by
  unfold lang
  rw [List.map_cons, List.prod_cons, Language.mem_mul]

theorem begins_cons (hend : AtEnd (i :: l) ↔ AtEnd l) (hbody : body (i :: l) = i :: body l) :
    Begins (i :: l) text ↔ ∃ x y, text = x ++ y ∧ x ∈ i.lang ∧ Begins l y := by
  unfold Begins
  rw [hend, hbody]
  constructor
  · rintro ⟨v, w, rfl, hv, hw⟩
    obtain ⟨x, hx, y, hy, rfl⟩ := lang_cons.mp hv
    exact ⟨x, y ++ w, List.append_assoc .., hx, y, w, rfl, hy, hw⟩
  · rintro ⟨x, _, rfl, hx, y, w, rfl, hy, hw⟩
    exact ⟨x ++ y, w, (List.append_assoc ..).symm, lang_cons.mpr ⟨x, hx, y, hy, rfl⟩, hw⟩

theorem begins_many : Begins (.many c :: l) text ↔ ∃ x y, text = x ++ y ∧ (∀ a ∈ x, c = dot ∨ a = c) ∧ Begins l y := by
  have hend : AtEnd (.many c :: l) ↔ AtEnd l := by
    cases l with
    | nil => simp [AtEnd]
    | cons i l => simp [AtEnd, List.getLast?_cons_cons]
  have hbody : body (.many c :: l) = .many c :: body l := by
    unfold body
    rw [if_congr hend rfl rfl]
    split
    next he =>
      cases l with
      | nil => cases he
      | cons i l => rfl
    next => rfl
  simp only [begins_cons hend hbody, Item.lang, mem_many]

theorem begins_one (h : l ≠ []) : Begins (.one c :: l) text ↔ ∃ a y, text = a :: y ∧ (c = dot ∨ a = c) ∧ Begins l y := by
  obtain ⟨i, l, rfl⟩ := List.exists_cons_of_ne_nil h
  have hend : AtEnd (.one c :: i :: l) ↔ AtEnd (i :: l) := by simp [AtEnd, List.getLast?_cons_cons]
  have hbody : body (.one c :: i :: l) = .one c :: body (i :: l) := by
    unfold body
    rw [if_congr hend rfl rfl]
    split <;> rfl
  rw [begins_cons hend hbody]
  constructor
  · rintro ⟨x, y, rfl, ⟨a, rfl, ha⟩, hy⟩
    exact ⟨a, y, rfl, ha, hy⟩
  · rintro ⟨a, y, rfl, ha, hy⟩
    exact ⟨[a], y, rfl, ⟨a, rfl, ha⟩, hy⟩

theorem begins_nil : Begins [] text := ⟨[], text, rfl, rfl, fun h => by cases h⟩

theorem begins_dollar : Begins [.one dollar] text ↔ text = [] := by
  have hbody : body [.one dollar] = [] := if_pos rfl
  unfold Begins
  rw [hbody]
  constructor
  · rintro ⟨v, w, rfl, hv, hw⟩
    rw [lang_nil.mp hv, hw rfl]
    rfl
  · rintro rfl
    exact ⟨[], [], rfl, rfl, fun _ => rfl⟩

theorem begins_last (h : c ≠ dollar) : Begins [.one c] text ↔ ∃ a y, text = a :: y ∧ (c = dot ∨ a = c) := by
  have hend : ¬ AtEnd [.one c] := by simpa [AtEnd] using h
  rw [begins_cons (l := []) (iff_of_false hend (by simp [AtEnd])) (if_neg hend)]
  constructor
  · rintro ⟨x, y, rfl, ⟨a, rfl, ha⟩, _⟩
    exact ⟨a, y, rfl, ha⟩
  · rintro ⟨a, y, rfl, ha⟩
    exact ⟨[a], y, rfl, ⟨a, rfl, ha⟩, begins_nil⟩

theorem matchstar_iff : matchstar here c text = true ↔
    ∃ x y, text = x ++ y ∧ (∀ a ∈ x, c = dot ∨ a = c) ∧ here y = true := by
  induction text with
  | nil =>
    constructor
    · intro h
      exact ⟨[], [], rfl, fun _ hno => absurd hno List.not_mem_nil, h⟩
    · rintro ⟨x, y, hxy, _, hy⟩
      rw [(List.append_eq_nil_iff.mp hxy.symm).2] at hy
      exact hy
  | cons b text ih =>
    rw [matchstar, Bool.or_eq_true, Bool.and_eq_true, ih]
    constructor
    · rintro (h | ⟨hb, x, y, rfl, hx, hy⟩)
      · exact ⟨[], b :: text, rfl, fun _ hno => absurd hno List.not_mem_nil, h⟩
      · refine ⟨b :: x, y, rfl, fun a ha => ?_, hy⟩
        rcases List.mem_cons.mp ha with rfl | ha
        · simpa [or_comm] using hb
        · exact hx a ha
    · rintro ⟨x, y, hxy, hx, hy⟩
      cases x with
      | nil =>
        rw [List.nil_append] at hxy
        exact .inl (hxy ▸ hy)
      | cons a x =>
        obtain ⟨rfl, rfl⟩ := List.cons.inj hxy
        refine .inr ⟨by simpa [or_comm] using hx b List.mem_cons_self, x, y, rfl, ?_, hy⟩
        exact fun a ha => hx a (List.mem_cons_of_mem b ha)

theorem matchone_iff : matchone here c text = true ↔ ∃ a y, text = a :: y ∧ (c = dot ∨ a = c) ∧ here y = true := by
  cases text with
  | nil => simp [matchone]
  | cons b text =>
    rw [matchone, Bool.and_eq_true, Bool.or_eq_true, beq_iff_eq, beq_iff_eq]
    constructor
    · rintro ⟨hc, hy⟩
      exact ⟨b, text, rfl, hc.imp_right Eq.symm, hy⟩
    · rintro ⟨a, y, hay, hc, hy⟩
      obtain ⟨rfl, rfl⟩ := List.cons.inj hay
      exact ⟨hc.imp_right Eq.symm, hy⟩

theorem items_ne_nil {d : UInt8} : items (d :: re) ≠ [] := by
  cases re with
  | nil => exact List.cons_ne_nil _ _
  | cons e re =>
    rw [items]
    split <;> exact List.cons_ne_nil _ _

theorem matchhere_iff : matchhere re text = true ↔ Begins (items re) text := by
  induction re using items.induct generalizing text with
  | case1 => exact iff_of_true rfl begins_nil
  | case2 c =>
    rw [items, matchhere]
    by_cases hc : c = dollar
    · rw [if_pos hc, hc, begins_dollar, List.isEmpty_iff]
    · rw [if_neg hc, matchone_iff, begins_last hc]
      simp [matchhere]
  | case3 c re ih =>
    rw [items, matchhere, if_pos rfl, if_pos rfl, matchstar_iff, begins_many]
    simp only [ih]
  | case4 c d re hd ih =>
    rw [items, matchhere, if_neg hd, if_neg hd, matchone_iff, begins_one items_ne_nil]
    simp only [ih]

theorem matchany_iff : matchany re text = true ↔ ∃ u t, text = u ++ t ∧ Begins (items re) t := by
  induction text with
  | nil =>
    rw [matchany, matchhere_iff]
    constructor
    · intro h
      exact ⟨[], [], rfl, h⟩
    · rintro ⟨u, t, hut, ht⟩
      rwa [(List.append_eq_nil_iff.mp hut.symm).2] at ht
  | cons a text ih =>
    rw [matchany, Bool.or_eq_true, matchhere_iff, ih]
    constructor
    · rintro (h | ⟨u, t, rfl, ht⟩)
      · exact ⟨[], a :: text, rfl, h⟩
      · exact ⟨a :: u, t, rfl, ht⟩
    · rintro ⟨u, t, hut, ht⟩
      cases u with
      | nil =>
        rw [List.nil_append] at hut
        exact .inl (hut ▸ ht)
      | cons b u =>
        obtain ⟨rfl, rfl⟩ := List.cons.inj hut
        exact .inr ⟨u, t, rfl, ht⟩

/-- `match` returns 1 exactly if the text has a part in the language of the pattern, at its beginning
after a `^` and up to its end before a `$`. -/
theorem match_iff (re text : List UInt8) : matchRe re text = true ↔ Matches re text := by
  unfold matchRe Matches
  split
  next => exact matchhere_iff
  next => exact matchany_iff

end TweakedXv6.Grep
