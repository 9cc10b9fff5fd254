import TweakedXv6.Prog

namespace TweakedXv6.Prog

variable {σ τ α β : Type}

/-- Whenever `g` returns, `f` returns the same from related states, and the states are related again. -/
def Refines (R : σ → τ → Prop) (f : Prog σ α) (g : Prog τ α) : Prop :=
  ∀ s t, R s t → ∀ a t', g t = .ok (a, t') → ∃ s', f s = .ok (a, s') ∧ R s' t'

variable {R : σ → τ → Prop} {f : Prog σ α} {g : Prog τ α} {k : α → Prog σ β} {l : α → Prog τ β} {s : σ} {t : τ} {a : α}

theorem refines_ret : Refines R (ret a : Prog σ α) (ret a) := by
  intro s t hR b t' h
  cases h
  exact ⟨s, rfl, hR⟩

theorem refines_halt {msg : String} : Refines R f (halt msg : Prog τ α) := by
  intro s t _ b t' h
  cases h

theorem refines_change {u : σ → σ} {v : τ → τ} (h : ∀ s t, R s t → R (u s) (v t)) : Refines R (change u) (change v) := by
  intro s t hR b t' ht
  cases ht
  exact ⟨u s, rfl, h s t hR⟩

theorem Refines.bind_run (h : Refines R f g) (hk : ∀ s t a t', R s t → g t = .ok (a, t') → Refines R (k a) (l a)) :
    Refines R (f >>= k) (g >>= l) := by
  intro s t hR b t' hrun
  change seq g l t = _ at hrun
  unfold seq at hrun
  cases hg : g t with
  | error e =>
    rw [hg] at hrun
    cases hrun
  | ok x =>
    rw [hg] at hrun
    obtain ⟨s', hs', hR'⟩ := h s t hR x.1 x.2 hg
    obtain ⟨u, hu, hRu⟩ := hk s t x.1 x.2 hR hg s' x.2 hR' b t' hrun
    exact ⟨u, by rw [run_bind hs', hu], hRu⟩

theorem Refines.bind (h : Refines R f g) (hk : ∀ a, Refines R (k a) (l a)) : Refines R (f >>= k) (g >>= l) :=
  h.bind_run fun _ _ a _ _ _ => hk a

theorem refines_read_bind {γ δ : Type} {u : σ → γ} {v : τ → δ} {k : γ → Prog σ β} {l : δ → Prog τ β}
    (h : ∀ s t, R s t → ∀ b t', l (v t) t = .ok (b, t') → ∃ s', k (u s) s = .ok (b, s') ∧ R s' t') :
    Refines R (Prog.read u >>= k) (Prog.read v >>= l) := h

theorem refines_lift {γ : Type} {c : Prog γ α} {get : σ → γ} {set : γ → σ → σ} {get' : τ → γ} {set' : γ → τ → τ}
    (hget : ∀ s t, R s t → get s = get' t) (hset : ∀ s t u, R s t → R (set u s) (set' u t)) :
    Refines R (lift get set c) (lift get' set' c) := by
  intro s t hR b t' h
  unfold lift at h ⊢
  rw [hget s t hR]
  cases hc : c (get' t) with
  | error e =>
    rw [hc] at h
    cases h
  | ok x =>
    rw [hc] at h
    cases h
    exact ⟨_, rfl, hset s t x.2 hR⟩

theorem Refines.each {l : List α} {f : α → Prog σ Unit} {g : α → Prog τ Unit} (h : ∀ a ∈ l, Refines R (f a) (g a)) :
    Refines R (Prog.each l f) (Prog.each l g) := by
  induction l with
  | nil => exact refines_ret
  | cons a l ih =>
    refine (h a List.mem_cons_self).bind fun _ => ih fun b hb => h b (List.mem_cons_of_mem a hb)

theorem Refines.returns {Q : α → τ → Prop} (h : Refines R f g) (hR : R s t) (hg : Returns g t Q) :
    Returns f s fun a s' => ∃ t', R s' t' ∧ Q a t' := by
  obtain ⟨a, t', hrun, hQ⟩ := hg.exists
  obtain ⟨s', hs', hR'⟩ := h s t hR a t' hrun
  unfold Returns Post
  rw [hs']
  exact ⟨t', hR', hQ⟩

end TweakedXv6.Prog
