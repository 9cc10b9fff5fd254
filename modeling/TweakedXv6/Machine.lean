import Mathlib.Logic.Function.Basic

namespace TweakedXv6

/-- A label fixes every choice of a step, so a step is a partial function, and the interleavings of a
system are the label sequences. -/
structure Machine (σ : Type*) (ℓ : Type*) where
  init : σ → Prop
  step : σ → ℓ → Option σ

namespace Machine

variable {σ ℓ : Type*} {M : Machine σ ℓ} {C : σ → ℓ → Prop} {I : σ → Prop} {s t : σ} {l : ℓ}

/-- States reached by the runs all of whose steps meet the condition `C`. -/
inductive Reach (M : Machine σ ℓ) (C : σ → ℓ → Prop) : σ → Prop
  | start {s : σ} : M.init s → Reach M C s
  | next {s t : σ} {l : ℓ} : Reach M C s → C s l → M.step s l = some t → Reach M C t

def Reachable (M : Machine σ ℓ) : σ → Prop :=
  M.Reach fun _ _ => True

/-- An invariant of the steps that meet `C` holds in every state such runs reach. -/
theorem Reach.invariant (start : ∀ s, M.init s → I s)
    (step : ∀ s l t, M.Reach C s → I s → C s l → M.step s l = some t → I t) (h : M.Reach C s) : I s := by
  induction h with
  | start hs => exact start _ hs
  | next reach hc hs ih => exact step _ _ _ reach ih hc hs

theorem Reach.mono {D : σ → ℓ → Prop} (hcd : ∀ s l, C s l → D s l) (h : M.Reach C s) : M.Reach D s := by
  induction h with
  | start hs => exact .start hs
  | next _ hc hs ih => exact .next ih (hcd _ _ hc) hs

def run (M : Machine σ ℓ) : σ → List ℓ → Option σ
  | s, [] => some s
  | s, l :: ls => (M.step s l).bind fun t => M.run t ls

/-- Every step of the run `ls` from `s` meets the condition. -/
def Meets (M : Machine σ ℓ) (C : σ → ℓ → Prop) : σ → List ℓ → Prop
  | _, [] => True
  | s, l :: ls => C s l ∧ ∀ t, M.step s l = some t → M.Meets C t ls

instance decidableMeets [∀ s l, Decidable (C s l)] : ∀ s ls, Decidable (M.Meets C s ls)
  | _, [] => isTrue trivial
  | s, l :: ls =>
    match h : M.step s l with
    | none => decidable_of_iff (C s l) ⟨fun hc => ⟨hc, by simp [h]⟩, And.left⟩
    | some t =>
      have := decidableMeets t ls
      decidable_of_iff (C s l ∧ M.Meets C t ls) (by simp [Meets, h])

theorem meets_true (ls : List ℓ) (s : σ) : M.Meets (fun _ _ => True) s ls := by
  induction ls generalizing s with
  | nil => trivial
  | cons l ls ih => exact ⟨trivial, fun t _ => ih t⟩

theorem Reach.of_run {ls : List ℓ} (hs : M.Reach C s) (hc : M.Meets C s ls)
    (h : M.run s ls = some t) : M.Reach C t := by
  induction ls generalizing s with
  | nil =>
    cases h
    exact hs
  | cons l ls ih =>
    obtain ⟨u, hu, h⟩ := Option.bind_eq_some_iff.mp h
    exact ih (.next hs hc.1 hu) (hc.2 u hu) h

theorem Reachable.of_run {ls : List ℓ} (hs : M.init s) (h : M.run s ls = some t) : M.Reachable t :=
  Reach.of_run (.start hs) (meets_true ls s) h

end Machine

theorem some_of_guard {α : Type*} {c : Prop} [Decidable c] {a b : α} (h : (if c then some a else none) = some b) :
    c ∧ a = b := by
  obtain ⟨hc, hab⟩ := Option.ite_none_right_eq_some.mp h
  exact ⟨hc, Option.some.inj hab⟩

theorem exists_of_any {α : Type*} {o : Option α} {p : α → Prop} [DecidablePred p] (h : (o.any fun a => p a) = true) :
    ∃ a, o = some a ∧ p a := by
  obtain ⟨a, ha, hp⟩ := (Option.any_eq_true _ _).mp h
  exact ⟨a, ha, of_decide_eq_true hp⟩

end TweakedXv6
