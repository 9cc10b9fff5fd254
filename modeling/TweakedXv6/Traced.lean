import TweakedXv6.Prog

namespace TweakedXv6

/-- A kernel function that leaves a trace, also when it panics. -/
def Traced (ω σ α : Type) : Type := σ → List ω × Except String (α × σ)

namespace Traced

variable {ω σ α β : Type}

def ret (a : α) : Traced ω σ α := fun s => ([], .ok (a, s))

def emit (e : ω) : Traced ω σ Unit := fun s => ([e], .ok ((), s))

def quiet (m : Prog σ α) : Traced ω σ α := fun s => ([], m s)

def seq (m : Traced ω σ α) (f : α → Traced ω σ β) : Traced ω σ β := fun s =>
  match m s with
  | (l, .ok (a, t)) => (l ++ (f a t).1, (f a t).2)
  | (l, .error e) => (l, .error e)

instance : Monad (Traced ω σ) where
  pure := ret
  bind := seq

def each : List α → (α → Traced ω σ Unit) → Traced ω σ Unit
  | [], _ => ret ()
  | a :: l, f => f a >>= fun _ => each l f

def erase (m : Traced ω σ α) : Prog σ α := fun s => (m s).2

/-- The trace satisfies `P` if the function panics, and with the result and the final state `Q` if it
returns. -/
def Ends (m : Traced ω σ α) (s : σ) (P : List ω → Prop) (Q : List ω → α → σ → Prop) : Prop :=
  match m s with
  | (l, .ok (a, t)) => Q l a t
  | (l, .error _) => P l

section Rules

variable {m : Traced ω σ α} {f : α → Traced ω σ β} {p : Prog σ α} {s t : σ} {a : α} {e : ω} {P P' : List ω → Prop}
  {Q Q' : List ω → α → σ → Prop} {R : List ω → β → σ → Prop}

theorem erase_emit : erase (emit e : Traced ω σ Unit) = Prog.ret () := rfl

theorem erase_quiet : erase (quiet p : Traced ω σ α) = p := rfl

theorem erase_bind : erase (m >>= f) = erase m >>= fun a => erase (f a) := by
  funext s
  change (seq m f s).2 = Prog.seq (erase m) (fun a => erase (f a)) s
  unfold seq Prog.seq erase
  rcases m s with ⟨l, r | r⟩ <;> rfl

theorem erase_emit_bind {f : Unit → Traced ω σ β} : erase (emit e >>= f) = erase (f ()) := by
  rw [erase_bind, erase_emit]
  rfl

theorem erase_quiet_bind : erase (quiet p >>= f) = p >>= fun a => erase (f a) := by
  rw [erase_bind, erase_quiet]

theorem erase_each {f : α → Traced ω σ Unit} {g : α → Prog σ Unit} (h : ∀ a, erase (f a) = g a) (l : List α) :
    erase (each l f) = Prog.each l g := by
  induction l with
  | nil => rfl
  | cons a l ih =>
    unfold each Prog.each
    rw [erase_bind, h, ih]

theorem run_quiet_bind (h : p s = .ok (a, t)) : (quiet p >>= f) s = f a t := by
  change seq (quiet p) f s = f a t
  unfold seq quiet
  rw [h]
  rfl

theorem ends_ret : Ends (ret a : Traced ω σ α) s P Q ↔ Q [] a s := Iff.rfl

theorem ends_emit {Q : List ω → Unit → σ → Prop} : Ends (emit e) s P Q ↔ Q [e] () s := Iff.rfl

theorem ends_halt {msg : String} : Ends (quiet (Prog.halt msg) : Traced ω σ α) s P Q ↔ P [] := Iff.rfl

theorem ends_bind : Ends (m >>= f) s P R ↔
    Ends m s P fun l a t => Ends (f a) t (fun l' => P (l ++ l')) fun l' b u => R (l ++ l') b u := by
  change Ends (seq m f) s P R ↔ _
  unfold Ends seq
  rcases m s with ⟨l, r | ⟨a, t⟩⟩
  · rfl
  · dsimp only
    rcases f a t with ⟨l', r | ⟨b, u⟩⟩ <;> rfl

theorem ends_quiet_bind (h : p s = .ok (a, t)) : Ends (quiet p >>= f) s P R ↔ Ends (f a) t P R := by
  rw [ends_bind]
  unfold Ends quiet
  rw [h]
  rfl

theorem ends_emit_bind {f : Unit → Traced ω σ β} : Ends (emit e >>= f) s P R ↔
    Ends (f ()) s (fun l => P (e :: l)) fun l b u => R (e :: l) b u := ends_bind

theorem Ends.mono (h : Ends m s P Q) (hP : ∀ l, P l → P' l) (hQ : ∀ l a t, Q l a t → Q' l a t) : Ends m s P' Q' := by
  unfold Ends at h ⊢
  rcases hm : m s with ⟨l, r | ⟨a, t⟩⟩
  · rw [hm] at h
    exact hP l h
  · rw [hm] at h
    exact hQ l a t h

theorem Ends.bind (h : Ends m s P Q)
    (hf : ∀ l a t, Q l a t → Ends (f a) t (fun l' => P (l ++ l')) fun l' b u => R (l ++ l') b u) :
    Ends (m >>= f) s P R :=
  ends_bind.mpr (h.mono (fun _ hl => hl) hf)

theorem Ends.of_post {E : String → Prop} {R : α → σ → Prop} (h : Prog.Post E p s R) (hP : P []) :
    Ends (quiet p : Traced ω σ α) s P fun l a t => l = [] ∧ R a t := by
  unfold Prog.Post at h
  unfold Ends quiet
  cases hp : p s with
  | error e => exact hP
  | ok r =>
    rw [hp] at h
    exact ⟨rfl, h⟩

theorem Ends.and_post {E : String → Prop} {R : α → σ → Prop} (h : Ends m s P Q) (h' : Prog.Post E (erase m) s R) :
    Ends m s P fun l a t => Q l a t ∧ R a t := by
  unfold Ends at h ⊢
  unfold Prog.Post erase at h'
  rcases hm : m s with ⟨l, r | ⟨a, t⟩⟩
  · rw [hm] at h
    exact h
  · rw [hm] at h h'
    exact ⟨h, h'⟩

theorem Ends.of_eq {l : List ω} (h : Ends m s P Q) (hm : m s = (l, .ok (a, t))) : Q l a t := by
  unfold Ends at h
  rwa [hm] at h

theorem Ends.trace (h : Ends m s P fun l _ _ => P l) : P (m s).1 := by
  unfold Ends at h
  rcases hm : m s with ⟨l, r | ⟨a, t⟩⟩ <;>
    (rw [hm] at h
     exact h)

end Rules

end Traced

end TweakedXv6
