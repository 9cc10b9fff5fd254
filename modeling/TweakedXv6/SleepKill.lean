import TweakedXv6.SleepInvariant

namespace TweakedXv6.Sleep

/-- `kill` marks a process that has tested `killed` and called `sleep`, but does not hold `p->lock` yet.
-/
def killsInWindow (s : State) : Act → Bool
  | .step p =>
    match s.pc p with
    | .kill pid (q :: _) =>
      match s.pc q with
      | .sleepy _ => (s.proc q).pid = pid
      | _ => false
    | _ => false
  | _ => false

structure Spared (s : State) : Prop where
  asleep : ∀ p, (s.proc p).state = .sleeping → (s.proc p).killed = false
  sleepy : ∀ p c, s.pc p = .sleepy c → (s.proc p).killed = false

variable {s t : State} {p q : Fin NPROC} {c : Loop} {d : Pc} {v : Proc} {a : Act} {r : Int}

theorem Boot.spared (h : Boot s) : Spared s where
  asleep p _ := by
    rw [h.proc p]
    split <;> rfl
  sleepy p c hc := by
    rw [h.pc p] at hc
    cases hc

section Steps

variable (h : Spared s)

include h

theorem Spared.step (hkilled : ∀ q, (t.proc q).killed = true → (s.proc q).killed = true)
    (hasleep : ∀ q, (t.proc q).state = .sleeping → (s.proc q).state = .sleeping)
    (hsleepy : ∀ q c, t.pc q = .sleepy c → s.pc q = .sleepy c ∨ (s.proc q).killed = false) : Spared t where
  asleep q hq := by
    have hs := h.asleep q (hasleep q hq)
    by_contra hk
    rw [hkilled q (by simpa using hk)] at hs
    cases hs
  sleepy q c hc := by
    have hs : (s.proc q).killed = false := (hsleepy q c hc).elim (h.sleepy q c) id
    by_contra hk
    rw [hkilled q (by simpa using hk)] at hs
    cases hs

theorem Spared.calm (ht : Calm s t) : Spared t :=
  h.step ht.killed (fun q hq => (ht.asleep q hq).1) fun q c hc => .inl (by rwa [ht.pc] at hc)

theorem Spared.turn (ht : Turn p c s t) : Spared t := by
  refine h.step ht.killed (fun q hq => (ht.asleep q hq).1) fun q e he => ?_
  by_cases hq : q = p
  · subst hq
    exact .inr (ht.sleepy e he).1
  · exact .inl (by rwa [ht.others q hq] at he)

theorem Spared.move (hd : ∀ c, d ≠ .sleepy c) : Spared (s.setPc p d) := by
  refine h.step (fun q hq => hq) (fun q hq => hq) fun q c hc => ?_
  by_cases hq : q = p
  · exact absurd (by simpa [hq] using hc) (hd c)
  · exact .inl (by simpa [hq] using hc)

theorem Spared.setProc (hv : v.state ≠ .sleeping) (hq : ∀ c, s.pc q ≠ .sleepy c) :
    Spared (s.setProc q v) where
  asleep x hx := by
    by_cases hxq : x = q
    · simp [hxq, hv] at hx
    · simp only [setProc_proc, if_neg hxq] at hx ⊢
      exact h.asleep x hx
  sleepy x c hc := by
    have hxq : x ≠ q := by
      rintro rfl
      exact hq c hc
    simp only [setProc_proc, if_neg hxq]
    exact h.sleepy x c hc

theorem spared_kill (hq : ∀ c, s.pc q ≠ .sleepy c) : Spared (s.kill q) := by
  refine h.setProc ?_ hq
  dsimp only
  split
  next => simp
  next hno => exact hno

theorem spared_killSlot {pid : Int} {rest : List (Fin NPROC)} (hpc : s.pc p = .kill pid rest)
    (hw : killsInWindow s (.step p) = false) : Spared (killSlot s p pid rest) := by
  cases rest with
  | nil => exact (h.calm calm_a0).move (by simp)
  | cons q rest =>
    rw [killSlot]
    split
    next hpid =>
      have hq : ∀ c, s.pc q ≠ .sleepy c := by
        intro c hc
        simp [killsInWindow, hpc, hc, hpid] at hw
      exact ((spared_kill h hq).calm (calm_a0 (p := p))).move (d := .user) (by simp)
    next => exact h.move (by simp)

theorem spared_sleep (hpc : s.pc p = .sleepy c) : Spared (sleep s p c) where
  asleep q hq := by
    by_cases hqp : q = p
    · subst hqp
      simpa [sleep] using h.sleepy q c hpc
    · simpa [sleep, hqp] using h.asleep q (by simpa [sleep, hqp] using hq)
  sleepy q e he := by
    have hqp : q ≠ p := by
      rintro rfl
      simp [sleep] at he
    simpa [sleep, hqp] using h.sleepy q e (by simpa [sleep, hqp] using he)

end Steps

theorem Inv.not_sleepy (hi : Inv s) (hp : (s.proc p).state ≠ .running) (c : Loop) : s.pc p ≠ .sleepy c :=
  fun hc => hp (hi.run p (by simp [hc, Pc.holds]))

theorem spared_fork (hi : Inv s) (h : Spared s) : Spared (fork s p) := by
  rcases fork_cases s p with he | ⟨np, v, n, hnp, hv, _, he⟩
  · rw [he]
    exact h.calm calm_a0
  · rw [he]
    have hno := hi.not_sleepy (p := np) (by simp [hnp])
    have h1 := ((h.calm (calm_a0 (p := p) (r := s.nextpid))).setProc (v := v) (by simp [hv]) hno).move
      (p := np) (d := .user) (by simp)
    exact { h1 with }

theorem spared_act (hi : Inv s) (h : Spared s) (hw : killsInWindow s a = false) (hs : act s a = some t) :
    Spared t := by
  cases act_trans hs with
  | call p c => exact h.move (by simp)
  | killCall p pid => exact h.move (by simp)
  | enter p c => exact { h.move (p := p) (d := .loop c) (by simp) with }
  | turn p c => exact h.turn (body_turn s p c)
  | sleep p c hpc => exact spared_sleep h hpc
  | wake p c hrun hpc => exact (h.setProc (by simp [hrun]) (by simp [hpc])).move (by simp)
  | kill p pid rest _ hpc => exact spared_killSlot h hpc hw
  | pipeclose p pi w => exact h.calm (calm_pipeclose _ _ _)
  | fork p => exact spared_fork hi h
  | exit p hpc =>
    obtain ⟨u, hu, he⟩ := exit_cases s p
    rw [he]
    exact (h.calm hu).setProc (by simp) (by simp [hu.pc, hpc])
  | dispatch p hst => exact h.setProc (by simp) (hi.not_sleepy (by simp [hst]))
  | yield p hno =>
    refine h.setProc (by simp) fun c hc => ?_
    simp [hc, Pc.holds] at hno
  | clockintr => exact h.calm calm_clockintr
  | consoleintr b => exact h.calm calm_consoleintr.1

/-- No process that is killed sleeps in one of these calls, if `kill` never marks a process between its
test of `killed` and `sleep`'s `acquire(&p->lock)`. -/
theorem killed_not_sleeping (h : machine.Reach (fun s a => killsInWindow s a = false) s) :
    ¬ ∃ p ch, SleepsOn s p ch ∧ (s.proc p).killed = true := by
  rintro ⟨p, ch, hsleep, hkilled⟩
  have hspared : Spared s := h.invariant (fun _ hs => Boot.spared hs) fun _ _ _ hr hi hw hs =>
    spared_act (inv_reach hr) hi hw hs
  rw [hspared.asleep p hsleep.1] at hkilled
  cases hkilled

def boot : State where
  proc := Function.update (fun _ => {}) ⟨0, zero_lt_NPROC⟩ { state := .runnable, pid := 1 }
  pc := fun _ => .user
  lock := fun _ => none
  pipe := fun _ => {}
  cons := {}
  ticks := 0
  nextpid := 2
  initproc := ⟨0, zero_lt_NPROC⟩

theorem boot_boot : Boot boot where
  proc p := by
    unfold boot
    dsimp only
    rw [Function.update_apply]
  pc _ := rfl
  lock _ := rfl
  pipe _ := ⟨rfl, rfl, rfl, rfl, rfl, rfl⟩

def p0 : Fin NPROC := ⟨0, zero_lt_NPROC⟩

def p1 : Fin NPROC := ⟨1, one_lt_NPROC⟩

def readerRun : List Act :=
  [.dispatch p0, .fork p0, .dispatch p1, .call p1 (.piperead 0 1 1), .step p1]

theorem killed_not_sleeping_reader : ∃ s, machine.Reach (fun s a => killsInWindow s a = false) s ∧
    SleepsOn s p1 (.nread 0) ∧ ¬ ∃ p ch, SleepsOn s p ch ∧ (s.proc p).killed = true := by
  have hrun : ((machine.run boot (readerRun ++ [.step p1, .step p1])).any fun s =>
      (s.proc p1).state = .sleeping ∧ (s.proc p1).chan = some (.nread 0)) = true := by decide +kernel
  obtain ⟨s, hs, hsleep⟩ := (Option.any_eq_true _ _).mp hrun
  have hmeets : machine.Meets (fun s a => killsInWindow s a = false) boot
      (readerRun ++ [.step p1, .step p1]) := by decide +kernel
  have hreach := Machine.Reach.of_run (.start boot_boot) hmeets hs
  exact ⟨s, hreach, by simpa [SleepsOn] using hsleep, killed_not_sleeping hreach⟩

/-- The first process kills the child between the child's test and its `sleep`. -/
theorem killed_sleeper : ∃ s, machine.Reachable s ∧ SleepsOn s p1 (.nread 0) ∧ (s.proc p1).killed = true := by
  have hrun : ((machine.run boot (readerRun ++
      [.step p1, .killCall p0 2, .step p0, .step p0, .step p1])).any fun s =>
      ((s.proc p1).state = .sleeping ∧ (s.proc p1).chan = some (.nread 0)) ∧ (s.proc p1).killed = true) =
        true := by decide +kernel
  obtain ⟨s, hs, hsleep⟩ := (Option.any_eq_true _ _).mp hrun
  have hfacts : ((s.proc p1).state = .sleeping ∧ (s.proc p1).chan = some (.nread 0)) ∧
      (s.proc p1).killed = true := by simpa using hsleep
  exact ⟨s, Machine.Reachable.of_run boot_boot hs, hfacts.1, hfacts.2⟩

end TweakedXv6.Sleep
