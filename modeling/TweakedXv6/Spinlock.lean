import TweakedXv6.Machine

namespace TweakedXv6.Spin

open Function (update update_self update_of_ne)

/-- The next access of a CPU to the lock. `holding` reads `locked` and then `cpu`, for `acquire` if `enter`
is true and else for `release`. -/
inductive Pc
  | run
  | locked (enter : Bool)
  | cpu (enter : Bool)
  | swap
  | setCpu
  | clearCpu
  | unlock
  | panic (msg : String)
  deriving DecidableEq, Repr

/-- One lock. `held` only records which CPUs have got the lock by their swap and not stored 0 since. -/
structure State (C : Type) where
  locked : Bool := false
  cpu : Option C := none
  pc : C → Pc := fun _ => .run
  held : C → Bool := fun _ => false

variable {C : Type} [DecidableEq C]

def State.holding (s : State C) (c : C) : Bool := s.locked && s.cpu = some c

def State.goto (s : State C) (c : C) (pc : Pc) : State C := { s with pc := update s.pc c pc }

/-- What `acquire` or `release` does with the result of `holding`. -/
def answer : Bool → Bool → Pc
  | true, true => .panic "acquire"
  | true, false => .swap
  | false, true => .clearCpu
  | false, false => .panic "release"

def advance (s : State C) (c : C) : Option (State C) :=
  match s.pc c with
  | .run | .panic _ => none
  | .locked enter => some (s.goto c (if s.locked then .cpu enter else answer enter false))
  | .cpu enter => some (s.goto c (answer enter (s.cpu = some c)))
  | .swap => some (if s.locked then s else
      { s.goto c .setCpu with locked := true, held := update s.held c true })
  | .setCpu => some { s.goto c .run with cpu := some c }
  | .clearCpu => some { s.goto c .unlock with cpu := none }
  | .unlock => some { s.goto c .run with locked := false, held := update s.held c false }

inductive Act (C : Type)
  | call (c : C) (enter : Bool)
  | step (c : C)

/-- Any CPU may call `acquire` or `release` at any time, also when it should not. -/
def act (s : State C) : Act C → Option (State C)
  | .call c enter => if s.pc c = .run then some (s.goto c (.locked enter)) else none
  | .step c => advance s c

def machine (C : Type) [DecidableEq C] : Machine (State C) (Act C) := ⟨(· = {}), act⟩

/-- What a CPU knows of the lock from where it stands. -/
def Knows (held : Bool) : Pc → Prop
  | .swap => held = false
  | .setCpu | .clearCpu | .unlock => held = true
  | .panic msg => msg = (if held then "acquire" else "release")
  | _ => True

structure Inv (s : State C) : Prop where
  locked : s.locked = true ↔ ∃ c, s.held c = true
  one : ∀ c d, s.held c = true → s.held d = true → c = d
  cpu : ∀ c, s.cpu = some c ↔ s.held c = true ∧ s.pc c ≠ .setCpu ∧ s.pc c ≠ .unlock
  knows : ∀ c, Knows (s.held c) (s.pc c)

variable {s t : State C} {c d : C} {pc : Pc} {enter : Bool}

theorem goto_self : (s.goto c pc).pc c = pc := update_self ..

theorem goto_other (h : d ≠ c) : (s.goto c pc).pc d = s.pc d := update_of_ne h ..

theorem knows_answer {held : Bool} : Knows held (answer enter held) := by
  cases enter <;> cases held <;> rfl

theorem Inv.holding (h : Inv s) (hset : s.pc c ≠ .setCpu) (hun : s.pc c ≠ .unlock) : s.holding c = s.held c := by
  rw [Bool.eq_iff_iff, State.holding, Bool.and_eq_true, decide_eq_true_iff, h.cpu]
  exact ⟨fun hh => hh.2.1, fun hh => ⟨h.locked.mpr ⟨c, hh⟩, hh, hset, hun⟩⟩

omit [DecidableEq C] in
theorem Inv.cpu_none (h : Inv s) (hno : ∀ c, s.held c = true → s.pc c = .unlock) : s.cpu = none := by
  rw [Option.eq_none_iff_forall_ne_some]
  intro c hc
  obtain ⟨hheld, _, hun⟩ := (h.cpu c).mp hc
  exact hun (hno c hheld)

theorem Inv.goto (h : Inv s) (hs : s.pc c ≠ .setCpu ∧ s.pc c ≠ .unlock) (hpc : pc ≠ .setCpu ∧ pc ≠ .unlock)
    (hk : Knows (s.held c) pc) : Inv (s.goto c pc) := by
  refine ⟨h.locked, h.one, fun d => (h.cpu d).trans ?_, fun d => ?_⟩ <;>
    by_cases hd : d = c
  · subst hd
    rw [goto_self, and_iff_left hs, and_iff_left hpc]
    rfl
  · rw [goto_other hd]
    rfl
  · subst hd
    rwa [goto_self]
  · rw [goto_other hd]
    exact h.knows d

/-- Only `c` can hold the lock before and after the step. -/
theorem Inv.move (h : Inv s) (hc : ∀ d, s.held d = true → d = c) (hheld : ∀ d, d ≠ c → t.held d = s.held d)
    (hothers : ∀ d, d ≠ c → t.pc d = s.pc d) (hlocked : t.locked = t.held c)
    (hcpu : t.cpu = if t.held c ∧ t.pc c ≠ .setCpu ∧ t.pc c ≠ .unlock then some c else none)
    (hk : Knows (t.held c) (t.pc c)) : Inv t := by
  have hone : ∀ d, t.held d = true → d = c := by
    intro d hd
    by_contra hne
    exact hne (hc d (hheld d hne ▸ hd))
  refine ⟨?_, fun d e hd he => (hone d hd).trans (hone e he).symm, fun d => ?_, fun d => ?_⟩
  · rw [hlocked]
    exact ⟨fun hh => ⟨c, hh⟩, fun ⟨d, hd⟩ => hone d hd ▸ hd⟩
  · rw [hcpu]
    by_cases hd : d = c
    · simp [hd]
    · have hno : t.held d ≠ true := fun hh => hd (hone d hh)
      simp [hno, Ne.symm hd]
  · by_cases hd : d = c
    · rwa [hd]
    · rw [hheld d hd, hothers d hd]
      exact h.knows d

theorem inv_advance (h : Inv s) (ht : advance s c = some t) : Inv t := by
  have hk := h.knows c
  have howner : s.held c = true → ∀ d, s.held d = true → d = c := fun hc d hd => h.one d c hd hc
  unfold advance at ht
  split at ht
  next => cases ht
  next => cases ht
  next enter hpc =>
    cases ht
    refine h.goto (by simp [hpc]) ?_ ?_ <;> split
    · simp
    · cases enter <;> simp [answer]
    · trivial
    · next hl =>
      have hno : s.held c = false := by
        by_contra hh
        exact hl (h.locked.mpr ⟨c, by simpa using hh⟩)
      rw [hno]
      exact knows_answer
  next enter hpc =>
    cases ht
    have hheld : decide (s.cpu = some c) = s.held c := by
      rw [Bool.eq_iff_iff, decide_eq_true_iff, h.cpu, hpc]
      simp
    rw [hheld]
    refine h.goto (by simp [hpc]) ?_ knows_answer
    cases enter <;> cases s.held c <;> simp [answer]
  next hpc =>
    cases ht
    split
    next => exact h
    next hl =>
      have hno : ∀ d, s.held d = true → d = c := fun d hd => absurd (h.locked.mpr ⟨d, hd⟩) hl
      refine h.move hno (fun d hd => update_of_ne hd ..) (fun d hd => update_of_ne hd ..) ?_ ?_ ?_
      · simp
      · simp [State.goto, h.cpu_none fun d hd => absurd (h.locked.mpr ⟨d, hd⟩) hl]
      · simp [State.goto, Knows]
  next hpc =>
    cases ht
    rw [hpc] at hk
    refine h.move (howner hk) (fun _ _ => rfl) (fun d hd => update_of_ne hd ..) ?_ ?_ ?_
    · exact (h.locked.mpr ⟨c, hk⟩).trans hk.symm
    · simp [State.goto, show s.held c = true from hk]
    · simp [State.goto, Knows]
  next hpc =>
    cases ht
    rw [hpc] at hk
    refine h.move (howner hk) (fun _ _ => rfl) (fun d hd => update_of_ne hd ..) ?_ ?_ ?_
    · exact (h.locked.mpr ⟨c, hk⟩).trans hk.symm
    · simp [State.goto]
    · simpa [State.goto, Knows] using hk
  next hpc =>
    cases ht
    rw [hpc] at hk
    refine h.move (howner hk) (fun d hd => update_of_ne hd ..) (fun d hd => update_of_ne hd ..) ?_ ?_ ?_
    · simp
    · simp [State.goto, h.cpu_none fun d hd => howner hk d hd ▸ hpc]
    · simp [State.goto, Knows]

theorem inv_reachable (h : (machine C).Reachable s) : Inv s := by
  refine h.invariant ?_ fun s a t _ hi _ ht => ?_
  · rintro _ rfl
    exact ⟨by simp, by simp, by simp, fun _ => trivial⟩
  · cases a with
    | step c => exact inv_advance hi ht
    | call c enter =>
      obtain ⟨hpc, rfl⟩ := some_of_guard ht
      exact hi.goto (by simp [hpc]) (by simp) trivial

/-- However the accesses of the CPUs interleave, one CPU at most holds the lock, `holding` tells each CPU
whether it does, and `acquire` and `release` panic exactly if it does and does not. -/
theorem spinlock_exclusive (h : (machine C).Reachable s) : (∀ c d, s.held c = true → s.held d = true → c = d) ∧
    (∀ c, s.pc c ≠ .setCpu → s.pc c ≠ .unlock → s.holding c = s.held c) ∧
    ∀ c, Knows (s.held c) (s.pc c) := by
  have hi := inv_reachable h
  exact ⟨hi.one, fun c hset hun => hi.holding hset hun, hi.knows⟩

/-- CPU 1 asks for the lock before CPU 0, which has got it, has stored its name. -/
theorem spinlock_exclusive_two : ∃ s, (machine (Fin 2)).Reachable s ∧ s.pc 1 = .swap ∧ s.held 0 = true ∧
    s.holding 1 = s.held 1 ∧ Knows (s.held 1) .swap := by
  have hrun : (((machine (Fin 2)).run {} [.call 0 true, .step 0, .step 0, .call 1 true, .step 1, .step 1]).any
      fun s => s.pc 1 = .swap ∧ s.held 0 = true) = true := by decide +kernel
  obtain ⟨s, hs, hfacts⟩ := (Option.any_eq_true _ _).mp hrun
  have hreach := Machine.Reachable.of_run rfl hs
  obtain ⟨hpc, hheld⟩ := of_decide_eq_true hfacts
  obtain ⟨_, hholding, hknows⟩ := spinlock_exclusive hreach
  exact ⟨s, hreach, hpc, hheld, hholding 1 (by simp [hpc]) (by simp [hpc]), hpc ▸ hknows 1⟩

end TweakedXv6.Spin
