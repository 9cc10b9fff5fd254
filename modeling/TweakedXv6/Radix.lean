import Mathlib.Data.List.Basic

namespace TweakedXv6

/-- The entries of a tree of pages: some are valid, and those of the inner pages point to a page. -/
structure Format (E : Type) where
  valid : E → Bool
  ptr : E → Nat

namespace Radix

section Defs

variable {E : Type} (F : Format E) (mem : Nat → Nat → E)

def next (e : E) : Option Nat := if F.valid e then some (F.ptr e) else none

/-- The page that a path of indices leads to from page `q`. -/
def descend : Nat → List Nat → Option Nat
  | q, [] => some q
  | q, i :: p => (next F (mem q i)).bind fun r => descend r p

def IsPath (w d : Nat) (p : List Nat) : Prop := p.length ≤ d ∧ ∀ i ∈ p, i < w

def Reaches (w d root x : Nat) : Prop := ∃ p, IsPath w d p ∧ descend F mem root p = some x

/-- The pages that the paths of length at most `d` lead to are all different. -/
def Tree (w d root : Nat) : Prop :=
  ∀ p p' q, IsPath w d p → IsPath w d p' → descend F mem root p = some q → descend F mem root p' = some q → p = p'

/-- The valid entry with index `i` on the page at the end of the path. -/
def find (root : Nat) (p : List Nat) (i : Nat) : Option E :=
  (descend F mem root p).bind fun q => if F.valid (mem q i) then some (mem q i) else none

def setEntry (q i : Nat) (e : E) : Nat → Nat → E := fun q' j => if q' = q ∧ j = i then e else mem q' j

end Defs

variable {E : Type} {F : Format E} {mem mem' : Nat → Nat → E} {w d root q x i j : Nat} {p p' : List Nat} {e : E}

theorem next_none : next F e = none ↔ F.valid e = false := by
  unfold next
  split <;> simp_all

theorem descend_append (q : Nat) : descend F mem q (p ++ p') = (descend F mem q p).bind fun r => descend F mem r p' := by
  induction p generalizing q with
  | nil => rfl
  | cons i p ih =>
    rw [List.cons_append, descend, descend]
    cases next F (mem q i) with
    | none => rfl
    | some r => exact ih r

theorem descend_congr (h : ∀ p₁ i p₂ x, p = p₁ ++ i :: p₂ → descend F mem root p₁ = some x →
    next F (mem' x i) = next F (mem x i)) : descend F mem' root p = descend F mem root p := by
  induction p generalizing root with
  | nil => rfl
  | cons i p ih =>
    rw [descend, descend, h [] i p root rfl rfl]
    cases hr : next F (mem root i) with
    | none => rfl
    | some r =>
      refine ih fun p₁ j p₂ x hp hx => h (i :: p₁) j p₂ x (by rw [hp, List.cons_append]) ?_
      rw [descend, hr]
      exact hx

theorem IsPath.left {i : Nat} {p₂ : List Nat} (h : IsPath w d (p ++ i :: p₂)) : IsPath w d p := by
  obtain ⟨hlen, hlt⟩ := h
  rw [List.length_append] at hlen
  exact ⟨by omega, fun k hk => hlt k (List.mem_append_left _ hk)⟩

theorem descend_frame (hp : IsPath w d p) (h : ∀ x, Reaches F mem w d root x → mem' x = mem x) :
    descend F mem' root p = descend F mem root p := by
  refine descend_congr fun p₁ i p₂ x he hx => ?_
  subst he
  rw [h x ⟨p₁, hp.left, hx⟩]

theorem find_frame (hp : IsPath w d p) (h : ∀ x, Reaches F mem w d root x → mem' x = mem x) :
    find F mem' root p i = find F mem root p i := by
  unfold find
  rw [descend_frame hp h]
  cases hq : descend F mem root p with
  | none => rfl
  | some q => rw [Option.bind_some, Option.bind_some, h q ⟨p, hp, hq⟩]

theorem Tree.frame (ht : Tree F mem w d root) (h : ∀ x, Reaches F mem w d root x → mem' x = mem x) :
    Tree F mem' w d root := by
  intro p p' q hp hp' hq hq'
  rw [descend_frame hp h] at hq
  rw [descend_frame hp' h] at hq'
  exact ht p p' q hp hp' hq hq'

theorem Tree.descend_write (ht : Tree F mem w d root) (hp : IsPath w d p) (hq : descend F mem root p = some q)
    (hp' : IsPath w d p') (hnot : ¬ p ++ [i] <+: p') :
    descend F (setEntry mem q i e) root p' = descend F mem root p' := by
  refine descend_congr fun p₁ j p₂ x he hx => ?_
  subst he
  unfold setEntry
  split
  next hc =>
    obtain ⟨rfl, rfl⟩ := hc
    have := ht p₁ p x hp'.left hp hx hq
    subst this
    exact absurd ⟨p₂, by simp⟩ hnot
  next => rfl

theorem not_past (hlen : p.length = d) (hp' : IsPath w d p') : ¬ p ++ [i] <+: p' := by
  intro h
  have := h.length_le
  have := hp'.1
  rw [List.length_append, List.length_singleton] at *
  omega

section Write

variable (ht : Tree F mem w d root) (hp : IsPath w d p)

include ht hp

theorem Tree.find_write (hlen : p.length = d) (hq : descend F mem root p = some q) (hp' : IsPath w d p') :
    find F (setEntry mem q i e) root p' j =
      if p' = p ∧ j = i then if F.valid e then some e else none else find F mem root p' j := by
  have hd := ht.descend_write (i := i) (e := e) hp hq hp' (not_past hlen hp')
  unfold find
  rw [hd]
  by_cases hpp : p' = p
  · subst hpp
    rw [hq, Option.bind_some, Option.bind_some]
    by_cases hj : j = i
    · simp [setEntry, hj]
    · simp [setEntry, hj]
  · rw [if_neg fun h => hpp h.1]
    cases hx : descend F mem root p' with
    | none => rfl
    | some x =>
      have hne : x ≠ q := by
        rintro rfl
        exact hpp (ht p' p x hp' hp hx hq)
      simp [setEntry, hne]

theorem Tree.write (hlen : p.length = d)
    (hq : descend F mem root p = some q) : Tree F (setEntry mem q i e) w d root := by
  intro p₁ p₂ x hp₁ hp₂ hx₁ hx₂
  rw [ht.descend_write hp hq hp₁ (not_past hlen hp₁)] at hx₁
  rw [ht.descend_write hp hq hp₂ (not_past hlen hp₂)] at hx₂
  exact ht p₁ p₂ x hp₁ hp₂ hx₁ hx₂

section Link

variable (hq : descend F mem root p = some q) (hfree : F.valid (mem q i) = false)
  (hx : ¬ Reaches F mem w d root x) (he : next F e = some x) (hkeep : ∀ y, y ≠ x → mem' y = mem y)
  (hnew : ∀ j, F.valid (mem' x j) = false)

include hq hfree hx he hkeep hnew

/-- A new page with no valid entry is linked in at an invalid entry. -/
theorem Tree.descend_link (hp' : IsPath w d p') :
    descend F (setEntry mem' q i e) root p' = if p' = p ++ [i] then some x else descend F mem root p' := by
  have hkeep' : ∀ y, Reaches F mem w d root y → mem' y = mem y := fun y hy => hkeep y fun hxy => hx (hxy ▸ hy)
  have hqx : q ≠ x := fun hxy => hx ⟨p, hp, hxy ▸ hq⟩
  have hq' : descend F mem' root p = some q := by rw [descend_frame hp hkeep', hq]
  have ht' := ht.frame hkeep'
  have hpnot : ¬ p ++ [i] <+: p := by
    intro h
    have := h.length_le
    rw [List.length_append, List.length_singleton] at this
    omega
  by_cases hpast : p ++ [i] <+: p'
  · obtain ⟨p₂, rfl⟩ := hpast
    have hold : descend F mem root (p ++ [i] ++ p₂) = none := by
      rw [descend_append, descend_append, hq, Option.bind_some, descend, next_none.mpr hfree]
      rfl
    have hstep : descend F (setEntry mem' q i e) root (p ++ [i]) = some x := by
      rw [descend_append, ht'.descend_write hp hq' hp hpnot, hq', Option.bind_some, descend]
      simp [setEntry, he, descend]
    rw [descend_append, hstep, Option.bind_some]
    cases p₂ with
    | nil => simp [descend]
    | cons j p₂ =>
      rw [if_neg (by simp), hold, descend]
      have : setEntry mem' q i e x j = mem' x j := by simp [setEntry, hqx.symm]
      rw [this, next_none.mpr (hnew j)]
      rfl
  · rw [ht'.descend_write hp hq' hp' hpast, descend_frame hp' hkeep', if_neg]
    rintro rfl
    exact hpast (List.prefix_refl _)

theorem Tree.link : Tree F (setEntry mem' q i e) w d root := by
  intro p₁ p₂ y hp₁ hp₂ hy₁ hy₂
  rw [ht.descend_link hp hq hfree hx he hkeep hnew hp₁] at hy₁
  rw [ht.descend_link hp hq hfree hx he hkeep hnew hp₂] at hy₂
  split at hy₁
  next h₁ =>
    split at hy₂
    next h₂ => rw [h₁, h₂]
    next =>
      cases hy₁
      exact absurd ⟨p₂, hp₂, hy₂⟩ hx
  next =>
    split at hy₂
    next =>
      cases hy₂
      exact absurd ⟨p₁, hp₁, hy₁⟩ hx
    next => exact ht p₁ p₂ y hp₁ hp₂ hy₁ hy₂

theorem Tree.find_link (hlen : p.length < d) (hp' : IsPath w d p') (hlen' : p'.length = d) :
    find F (setEntry mem' q i e) root p' j = find F mem root p' j := by
  have hqx : q ≠ x := fun hxy => hx ⟨p, hp, hxy ▸ hq⟩
  unfold find
  rw [ht.descend_link hp hq hfree hx he hkeep hnew hp']
  split
  next h =>
    subst h
    have hold : descend F mem root (p ++ [i]) = none := by
      rw [descend_append, hq, Option.bind_some, descend, next_none.mpr hfree]
      rfl
    rw [hold]
    simp [setEntry, hqx.symm, hnew]
  next =>
    cases hy : descend F mem root p' with
    | none => rfl
    | some y =>
      have hyx : y ≠ x := fun hxy => hx ⟨p', hp', hxy ▸ hy⟩
      have hyq : y ≠ q := by
        rintro rfl
        have := ht p' p y hp' hp hy hq
        subst this
        omega
      simp [setEntry, hyq, hkeep y hyx]

theorem Tree.reaches_link {y : Nat} (h : Reaches F (setEntry mem' q i e) w d root y) : y = x ∨ Reaches F mem w d root y := by
  obtain ⟨p', hp', hy⟩ := h
  rw [ht.descend_link hp hq hfree hx he hkeep hnew hp'] at hy
  split at hy
  next => exact .inl (Option.some.inj hy).symm
  next => exact .inr ⟨p', hp', hy⟩

end Link

end Write

end Radix

end TweakedXv6
