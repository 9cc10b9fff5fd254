import Mathlib.Data.Nat.Notation

namespace TweakedXv6

/-- A kernel function: from a state it returns a value and a new state, or panics with a message. -/
def Prog (σ α : Type) : Type := σ → Except String (α × σ)

namespace Prog

variable {σ α β : Type}

def ret (a : α) : Prog σ α := fun s => .ok (a, s)

def seq (m : Prog σ α) (f : α → Prog σ β) : Prog σ β := fun s =>
  match m s with
  | .ok (a, t) => f a t
  | .error e => .error e

instance : Monad (Prog σ) where
  pure := ret
  bind := seq

theorem seq_ret (m : Prog σ α) : seq m ret = m := by
  funext s
  unfold seq
  cases m s <;> rfl

theorem seq_seq {γ : Type} (m : Prog σ α) (f : α → Prog σ β) (g : β → Prog σ γ) :
    seq (seq m f) g = seq m fun a => seq (f a) g := by
  funext s
  unfold seq
  cases m s <;> rfl

instance : LawfulMonad (Prog σ) :=
  LawfulMonad.mk' _ (fun m => seq_ret m) (fun _ _ => rfl) fun m f g => seq_seq m f g

def halt (msg : String) : Prog σ α := fun _ => .error msg

def read (f : σ → α) : Prog σ α := fun s => .ok (f s, s)

def change (f : σ → σ) : Prog σ Unit := fun s => .ok ((), f s)

def when (c : Prop) [Decidable c] (m : Prog σ Unit) : Prog σ Unit := if c then m else ret ()

/-- `if(o) f(o);` for a pointer that may be null. -/
def whenSome (o : Option α) (f : α → Prog σ Unit) : Prog σ Unit :=
  match o with
  | none => ret ()
  | some a => f a

def each : List α → (α → Prog σ Unit) → Prog σ Unit
  | [], _ => ret ()
  | a :: l, f => f a >>= fun _ => each l f

def loop : Nat → (Nat → Prog σ Unit) → Prog σ Unit
  | 0, _ => ret ()
  | n + 1, f => loop n f >>= fun _ => f n

/-- Run a function on a part of the state. -/
def lift {τ : Type} (get : τ → σ) (set : σ → τ → τ) (m : Prog σ α) : Prog τ α := fun s =>
  match m (get s) with
  | .ok (a, t) => .ok (a, set t s)
  | .error e => .error e

/-- From `s` the function panics only with a message that `E` allows, and otherwise its result and final
state satisfy `Q`. -/
def Post (E : String → Prop) (m : Prog σ α) (s : σ) (Q : α → σ → Prop) : Prop :=
  match m s with
  | .ok (a, t) => Q a t
  | .error e => E e

abbrev Returns (m : Prog σ α) (s : σ) (Q : α → σ → Prop) : Prop := Post (fun _ => False) m s Q

section Rules

variable {E F : String → Prop} {m : Prog σ α} {f : α → Prog σ β} {s : σ} {a : α}
  {P Q : α → σ → Prop} {R : β → σ → Prop}

@[simp]
theorem run_ret : (ret a : Prog σ α) s = .ok (a, s) := rfl

@[simp]
theorem run_read {g : σ → α} : Prog.read g s = .ok (g s, s) := rfl

@[simp]
theorem run_change {g : σ → σ} : change g s = .ok ((), g s) := rfl

@[simp]
theorem run_halt {msg : String} : (halt msg : Prog σ α) s = .error msg := rfl

theorem run_bind {t : σ} (h : m s = .ok (a, t)) : (m >>= f) s = f a t := by
  change seq m f s = f a t
  simp only [seq, h]

theorem bind_error {e : String} (h : m s = .error e) : (m >>= f) s = .error e := by
  change seq m f s = _
  simp only [seq, h]

theorem bind_eq_ok {b : β} {t : σ} (h : (m >>= f) s = .ok (b, t)) : ∃ a u, m s = .ok (a, u) ∧ f a u = .ok (b, t) := by
  cases hm : m s with
  | error e => cases (bind_error hm).symm.trans h
  | ok r => exact ⟨r.1, r.2, rfl, (run_bind hm).symm.trans h⟩

theorem bind_ret (m : Prog σ α) : (m >>= ret) = m := seq_ret m

theorem each_append {f : α → Prog σ Unit} (l l' : List α) : each (l ++ l') f = each l f >>= fun _ => each l' f := by
  induction l with
  | nil => rfl
  | cons a l ih =>
    change (f a >>= fun _ => each (l ++ l') f) = (f a >>= fun _ => each l f) >>= fun _ => each l' f
    rw [bind_assoc, ih]

theorem post_ret : Post E (ret a : Prog σ α) s Q ↔ Q a s := Iff.rfl

theorem post_halt {msg : String} : Post E (halt msg : Prog σ α) s Q ↔ E msg := Iff.rfl

theorem post_bind : Post E (m >>= f) s R ↔ Post E m s fun a t => Post E (f a) t R := by
  change Post E (seq m f) s R ↔ _
  unfold Post seq
  cases m s with
  | ok r => rfl
  | error e => rfl

theorem post_read_bind {g : σ → α} : Post E (read g >>= f) s R ↔ Post E (f (g s)) s R := Iff.rfl

theorem post_change_bind {g : σ → σ} {f : Unit → Prog σ β} : Post E (change g >>= f) s R ↔ Post E (f ()) (g s) R := Iff.rfl

theorem post_run_bind {t : σ} (h : m s = .ok (a, t)) : Post E (m >>= f) s R ↔ Post E (f a) t R := by
  unfold Post
  rw [run_bind h]

theorem post_loop_one {f : Nat → Prog σ Unit} {Q : Unit → σ → Prop} : Post E (loop 1 f) s Q ↔ Post E (f 0) s Q := Iff.rfl

theorem Post.mono (h : Post E m s P) (hpq : ∀ a t, P a t → Q a t) : Post E m s Q := by
  unfold Post at h ⊢
  cases hm : m s with
  | ok r => exact hpq _ _ (by simpa [hm] using h)
  | error e => simpa [hm] using h

theorem Post.mono_panic (h : Post E m s Q) (hef : ∀ e, E e → F e) : Post F m s Q := by
  unfold Post at h ⊢
  cases hm : m s with
  | ok r => simpa [hm] using h
  | error e => exact hef e (by simpa [hm] using h)

theorem Post.and (h : Post E m s P) (h' : Post F m s Q) : Post E m s fun a t => P a t ∧ Q a t := by
  unfold Post at h h' ⊢
  cases hm : m s with
  | ok r => exact ⟨by simpa [hm] using h, by simpa [hm] using h'⟩
  | error e => simpa [hm] using h

theorem Post.with_run (h : Post E m s Q) : Post E m s fun a t => m s = .ok (a, t) ∧ Q a t := by
  unfold Post at h ⊢
  cases hm : m s with
  | ok r => exact ⟨rfl, by simpa [hm] using h⟩
  | error e => simpa [hm] using h

theorem Post.bind (h : Post E m s P) (hf : ∀ a t, P a t → Post E (f a) t R) : Post E (m >>= f) s R :=
  post_bind.mpr (h.mono hf)

theorem Returns.exists (h : Returns m s Q) : ∃ a t, m s = .ok (a, t) ∧ Q a t := by
  unfold Returns Post at h
  cases hm : m s with
  | ok r => exact ⟨r.1, r.2, rfl, by simpa [hm] using h⟩
  | error e => simp [hm] at h

theorem Post.of_eq {a : α} {t : σ} (h : Post E m s Q) (hm : m s = .ok (a, t)) : Q a t := by
  unfold Post at h
  simpa [hm] using h

theorem Post.loop {I : Nat → σ → Prop} {g : Nat → Prog σ Unit} {n : Nat} (h0 : I 0 s)
    (step : ∀ i t, i < n → I i t → Post E (g i) t fun _ u => I (i + 1) u) :
    Post E (Prog.loop n g) s fun _ t => I n t := by
  induction n with
  | zero => exact h0
  | succ n ih =>
    refine Post.bind (ih fun i t hi => step i t (Nat.lt_succ_of_lt hi)) fun _ t ht => ?_
    exact step n t (Nat.lt_succ_self n) ht

/-- The rule for a loop over a table: `I l` holds when `l` is still to be visited. -/
theorem Post.each {I : List α → σ → Prop} {g : α → Prog σ Unit} {l : List α} (h : I l s)
    (step : ∀ a l t, I (a :: l) t → Post E (g a) t fun _ u => I l u) :
    Post E (Prog.each l g) s fun _ t => I [] t := by
  induction l generalizing s with
  | nil => exact h
  | cons a l ih => exact Post.bind (step a l s h) fun _ t ht => ih ht

theorem Post.lift {τ : Type} {get : τ → σ} {set : σ → τ → τ} {t : τ} (h : Post E m (get t) P)
    {Q : α → τ → Prop} (hpq : ∀ a u, P a u → Q a (set u t)) : Post E (Prog.lift get set m) t Q := by
  unfold Post Prog.lift at *
  cases hm : m (get t) with
  | ok r => exact hpq _ _ (by simpa [hm] using h)
  | error e => simpa [hm] using h

end Rules

-- a loop of 512 rounds is never to be unfolded by unification
attribute [irreducible] Prog.loop

end Prog

end TweakedXv6
