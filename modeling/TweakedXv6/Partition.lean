import Mathlib.Order.Interval.Finset.Nat

namespace TweakedXv6

variable {ρ α : Type} {U : ρ → Prop} {At At' : α → ρ → Prop} {x y : ρ} {a b : α}

/-- Every resource in `U` is at exactly one place, and no other resource is at any place. -/
structure Partition (U : ρ → Prop) (At : α → ρ → Prop) : Prop where
  within : ∀ a x, At a x → U x
  unique : ∀ a b x, At a x → At b x → a = b
  total : ∀ x, U x → ∃ a, At a x

theorem Partition.existsUnique (h : Partition U At) (hx : U x) : ∃! a, At a x := by
  obtain ⟨a, ha⟩ := h.total x hx
  exact ⟨a, ha, fun b hb => h.unique b a x hb ha⟩

theorem Partition.add {V : ρ → Prop} (h : Partition U At) (hx : ¬ U x) (hV : ∀ y, V y ↔ y = x ∨ U y)
    (hat : ∀ b y, At' b y ↔ y = x ∧ b = a ∨ At b y) : Partition V At' where
  within b y hb := by
    rcases (hat b y).mp hb with ⟨rfl, _⟩ | hb
    · exact (hV y).mpr (.inl rfl)
    · exact (hV y).mpr (.inr (h.within b y hb))
  unique b c y hb hc := by
    rcases (hat b y).mp hb with ⟨rfl, rfl⟩ | hb <;> rcases (hat c y).mp hc with ⟨hy, rfl⟩ | hc
    · rfl
    · exact absurd (h.within _ _ hc) hx
    · exact absurd (h.within _ _ hb) (hy ▸ hx)
    · exact h.unique b c y hb hc
  total y hy := by
    rcases (hV y).mp hy with rfl | hy
    · exact ⟨a, (hat a y).mpr (.inl ⟨rfl, rfl⟩)⟩
    · obtain ⟨b, hb⟩ := h.total y hy
      exact ⟨b, (hat b y).mpr (.inr hb)⟩

theorem Partition.remove {V : ρ → Prop} (h : Partition U At) (hx : At a x) (hV : ∀ y, V y ↔ y ≠ x ∧ U y)
    (hat : ∀ b y, At' b y ↔ At b y ∧ (b = a → y ≠ x)) : Partition V At' where
  within b y hb := by
    obtain ⟨hb, hne⟩ := (hat b y).mp hb
    refine (hV y).mpr ⟨?_, h.within b y hb⟩
    rintro rfl
    exact hne (h.unique b a y hb hx) rfl
  unique b c y hb hc := h.unique b c y ((hat b y).mp hb).1 ((hat c y).mp hc).1
  total y hy := by
    obtain ⟨hne, hy⟩ := (hV y).mp hy
    obtain ⟨b, hb⟩ := h.total y hy
    exact ⟨b, (hat b y).mpr ⟨hb, fun _ => hne⟩⟩

theorem Partition.move (h : Partition U At) (hx : At a x) (hab : a ≠ b) (hfrom : ∀ y, At' a y ↔ At a y ∧ y ≠ x)
    (hto : ∀ y, At' b y ↔ y = x ∨ At b y) (hrest : ∀ c y, c ≠ a → c ≠ b → (At' c y ↔ At c y)) : Partition U At' := by
  have hrem : Partition (fun y => y ≠ x ∧ U y) fun c y => At c y ∧ (c = a → y ≠ x) :=
    h.remove hx (fun _ => Iff.rfl) fun _ _ => Iff.rfl
  refine hrem.add (a := b) (fun hne => hne.1 rfl) (fun y => ?_) fun c y => ?_
  · by_cases hy : y = x
    · simp [hy, h.within a x hx]
    · simp [hy]
  · by_cases ha : c = a
    · simp [ha, hfrom, hab]
    · by_cases hb : c = b
      · simp [hb, hto, Ne.symm hab]
      · simp [ha, hb, hrest]

theorem Partition.congr (h : Partition U At) (hiff : ∀ a x, At' a x ↔ At a x) : Partition U At' where
  within a x ha := h.within a x ((hiff a x).mp ha)
  unique a b x ha hb := h.unique a b x ((hiff a x).mp ha) ((hiff b x).mp hb)
  total x hx := by
    obtain ⟨a, ha⟩ := h.total x hx
    exact ⟨a, (hiff a x).mpr ha⟩

theorem Partition.on {V : ρ → Prop} (h : Partition U At) (hV : ∀ x, V x ↔ U x) : Partition V At :=
  (funext fun x => propext (hV x) : V = U) ▸ h

section Held

variable [DecidableEq α] {V : ρ → Prop} {f : α → Option ρ}

theorem Partition.give (h : Partition U fun b y => f b = some y) (ha : f a = none) (hx : ¬ U x)
    (hV : ∀ y, V y ↔ y = x ∨ U y) : Partition V fun b y => Function.update f a (some x) b = some y := by
  refine h.add (a := a) hx hV fun b y => ?_
  by_cases hb : b = a
  · simp [hb, ha, eq_comm]
  · simp [hb]

theorem Partition.drop (h : Partition U fun b y => f b = some y) (ha : f a = some x)
    (hV : ∀ y, V y ↔ y ≠ x ∧ U y) : Partition V fun b y => Function.update f a none b = some y := by
  refine h.remove (a := a) ha hV fun b y => ?_
  by_cases hb : b = a
  · simp [hb, ha, eq_comm]
  · simp [hb]

end Held

theorem Partition.card_le {n lo hi : Nat} {At : α → Nat → Prop} (h : Partition (fun x => lo ≤ x ∧ x < hi) At)
    {w : Nat → α} (hinj : ∀ i j, i < n → j < n → w i = w j → i = j) (hat : ∀ i, i < n → ∃ x, At (w i) x) :
    n ≤ hi - lo := by
  choose! f hf using hat
  have hmaps : Set.MapsTo f (Finset.range n) (Finset.Ico lo hi) := by
    intro i hi
    have := h.within _ _ (hf i (Finset.mem_range.mp (Finset.mem_coe.mp hi)))
    simpa using this
  have hf_inj : Set.InjOn f (Finset.range n) := by
    intro i hi j hj he
    have hi' := Finset.mem_range.mp (Finset.mem_coe.mp hi)
    have hj' := Finset.mem_range.mp (Finset.mem_coe.mp hj)
    exact hinj i j hi' hj' (h.unique _ _ _ (hf i hi') (he ▸ hf j hj'))
  simpa using Finset.card_le_card_of_injOn f hmaps hf_inj

end TweakedXv6
