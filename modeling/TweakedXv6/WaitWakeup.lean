import TweakedXv6.WaitSections

namespace TweakedXv6.Wait

variable {s t : State} {p q i j k np : Nat} {c : Pc} {v : Proc} {r : Reaper} {status : Int} {l : Option Nat}
  {chan : Option Chan} {b ok : Bool}

def AsleepInWait (s : State) (p : Nat) : Prop :=
  (s.proc p).state = .sleeping ∧ (s.proc p).chan = some (.proc p)

/-- What `exit` and `wait` promise each other while one of them holds `wait_lock`. -/
structure WakeInv (s : State) : Prop where
  scanned : ∀ p r i b k, s.pc p = .waitScan r i b → k < i → (s.proc k).parent = some p →
    (s.proc k).state ≠ .zombie
  waking : ∀ p status j q, s.pc p = .exitWakeup status j → q < j → (s.proc p).parent = some q →
    ¬AsleepInWait s q
  woken : ∀ p status q, s.pc p = .exitZombie status → (s.proc p).parent = some q →
    ¬AsleepInWait s q
  lost : ∀ p k, AsleepInWait s p → (s.proc k).parent = some p → (s.proc k).state = .zombie →
    p = s.initproc ∧ ∃ e status i j, s.pc e = .reparentWakeup status i j ∧ j ≤ p

theorem WakeInv.congr (h : WakeInv s) (hproc : t.proc = s.proc) (hpc : t.pc = s.pc)
    (hinit : t.initproc = s.initproc) : WakeInv t := by
  obtain ⟨proc, pc, _, _, init, _, _⟩ := s
  obtain ⟨proc', pc', _, _, init', _, _⟩ := t
  cases hproc
  cases hpc
  cases hinit
  exact { h with }

theorem wake_move (h : WakeInv s)
    (hscan : ∀ r i b k, c = .waitScan r i b → k < i → (s.proc k).parent = some p →
      (s.proc k).state ≠ .zombie)
    (hwaking : ∀ status j q, c = .exitWakeup status j → q < j → (s.proc p).parent = some q →
      ¬AsleepInWait s q)
    (hwoken : ∀ status q, c = .exitZombie status → (s.proc p).parent = some q → ¬AsleepInWait s q)
    (hlost : ∀ status i j, s.pc p = .reparentWakeup status i j → j ≤ s.initproc →
      AsleepInWait s s.initproc → ∃ status i j, c = .reparentWakeup status i j ∧ j ≤ s.initproc) :
    WakeInv (s.move p c l) where
  scanned q := by
    intro r i b k hq
    rw [move_pc] at hq
    split at hq
    next hqp => exact hqp ▸ hscan r i b k hq
    next => exact h.scanned q r i b k hq
  waking e := by
    intro status j q he
    rw [move_pc] at he
    split at he
    next hep => exact hep ▸ hwaking status j q he
    next => exact h.waking e status j q he
  woken e := by
    intro status q he
    rw [move_pc] at he
    split at he
    next hep => exact hep ▸ hwoken status q he
    next => exact h.woken e status q he
  lost q k hq hk hz := by
    obtain ⟨rfl, e, status, i, j, he, hj⟩ := h.lost q k hq hk hz
    refine ⟨rfl, ?_⟩
    by_cases hep : e = p
    · subst e
      obtain ⟨status, i, j, hc, hj⟩ := hlost status i j he hj hq
      exact ⟨p, status, i, j, by simpa using hc, hj⟩
    · exact ⟨e, status, i, j, by simpa [hep] using he, hj⟩

def Pc.watching : Pc → Bool
  | .waitScan .. | .exitWakeup .. | .exitZombie .. | .reparentWakeup .. => true
  | _ => false

theorem wake_move_plain (h : WakeInv s) (hc : c.watching = false)
    (hp : ∀ status i j, s.pc p ≠ .reparentWakeup status i j) : WakeInv (s.move p c l) := by
  refine wake_move h ?_ ?_ ?_ fun status i j he => absurd he (hp status i j)
  · rintro r i b k rfl
    cases hc
  · rintro status j q rfl
    cases hc
  · rintro status q rfl
    cases hc

theorem wake_setPc_plain (h : WakeInv s) (hc : c.watching = false) (hp : (s.pc p).watching = false) :
    WakeInv (s.setPc p c) := by
  refine wake_move_plain (l := s.waitLock) h hc fun status i j he => ?_
  rw [he] at hp
  cases hp

theorem wake_setProc (h : WakeInv s) (hasleep : v.state = .sleeping → v.chan = some (.proc j) → AsleepInWait s j)
    (hzombie : v.state = .zombie → (s.proc j).state = .zombie ∧ v.parent = (s.proc j).parent)
    (hpar : v.parent = (s.proc j).parent ∨ (s.pc j).watching = false) : WakeInv (s.setProc j v) := by
  have hback : ∀ q, AsleepInWait (s.setProc j v) q → AsleepInWait s q := by
    intro q hq
    unfold AsleepInWait at hq
    rw [setProc_proc] at hq
    split at hq
    next hqj => exact hqj ▸ hasleep hq.1 (hqj ▸ hq.2)
    next => exact hq
  constructor
  case scanned =>
    intro p r i b k hp hk hkp hz
    rw [setProc_proc] at hkp hz
    split at hkp
    next hkj =>
      subst k
      obtain ⟨hz', hpar'⟩ := hzombie (by simpa using hz)
      exact h.scanned p r i b j hp hk (hpar' ▸ hkp) hz'
    next hkj => exact h.scanned p r i b k hp hk hkp (by simpa [hkj] using hz)
  case waking =>
    intro e status i q he hq heq hq'
    rw [setProc_proc] at heq
    split at heq
    next hej =>
      subst e
      rcases hpar with hpar | hpar
      · exact h.waking j status i q he hq (hpar ▸ heq) (hback q hq')
      · rw [setProc_pc] at he
        simp [he, Pc.watching] at hpar
    next => exact h.waking e status i q he hq heq (hback q hq')
  case woken =>
    intro e status q he heq hq'
    rw [setProc_proc] at heq
    split at heq
    next hej =>
      subst e
      rcases hpar with hpar | hpar
      · exact h.woken j status q he (hpar ▸ heq) (hback q hq')
      · rw [setProc_pc] at he
        simp [he, Pc.watching] at hpar
    next => exact h.woken e status q he heq (hback q hq')
  case lost =>
    intro q k hq hkq hz
    rw [setProc_proc] at hkq hz
    split at hkq
    next hkj =>
      subst k
      obtain ⟨hz', hpar'⟩ := hzombie (by simpa using hz)
      exact h.lost q j (hback q hq) (hpar' ▸ hkq) hz'
    next hkj => exact h.lost q k (hback q hq) hkq (by simpa [hkj] using hz)

theorem wake_wakeupSlot (h : WakeInv s) : WakeInv (wakeupSlot s p chan j) := by
  unfold wakeupSlot State.setState
  split
  next => exact wake_setProc h (by simp) (by simp) (.inl rfl)
  next => exact h

theorem wakeupSlot_wakes (hne : q ≠ p) : ¬AsleepInWait (wakeupSlot s p (some (.proc q)) q) q := by
  unfold wakeupSlot State.setState
  split
  next => simp [AsleepInWait]
  next hn =>
    intro hq
    exact hn ⟨hne, hq.1, hq.2⟩

theorem asleep_of_wakeupSlot (h : AsleepInWait (wakeupSlot s p chan j) q) : AsleepInWait s q := by
  unfold wakeupSlot State.setState at h
  split at h
  next =>
    unfold AsleepInWait at h
    rw [setProc_proc] at h
    split at h
    next => simp at h
    next => exact h
  next => exact h

theorem holder_unique (h : Inv s) (hp : (s.pc p).holdsWaitLock = true) (hq : (s.pc q).holdsWaitLock = true) : p = q :=
  Option.some.inj (((h.lock p).mpr hp).symm.trans ((h.lock q).mpr hq))

theorem nobody_holds (h : Inv s) (hl : s.waitLock = none) : (s.pc q).holdsWaitLock = false := by
  by_contra hh
  have := (h.lock q).mpr (by simpa using hh)
  simp [hl] at this

theorem not_watching (h : (s.pc q).holdsWaitLock = false) : (s.pc q).watching = false := by
  revert h
  cases s.pc q <;> simp [Pc.watching, Pc.holdsWaitLock]

theorem others_not_watching (h : Inv s) (hold : (s.pc p).holdsWaitLock = true) (hqp : q ≠ p) :
    (s.pc q).watching = false := by
  by_cases hq : (s.pc q).holdsWaitLock = true
  · exact absurd (holder_unique h hq hold) hqp
  · exact not_watching (by simpa using hq)

theorem WakeInv.none_lost (h : WakeInv s) (hi : Inv s) (hold : (s.pc p).holdsWaitLock = true)
    (hp : ∀ status i j, s.pc p ≠ .reparentWakeup status i j) (hq : AsleepInWait s q)
    (hk : (s.proc k).parent = some q) : (s.proc k).state ≠ .zombie := by
  intro hz
  obtain ⟨_, e, status, i, j, he, _⟩ := h.lost q k hq hk hz
  by_cases hep : e = p
  · exact hp status i j (hep ▸ he)
  · have := others_not_watching hi hold hep
    rw [he] at this
    cases this

theorem wake_of_lost (hpc : ∀ q, (t.pc q).watching = true → ∃ status i j, t.pc q = .reparentWakeup status i j)
    (hlost : ∀ p k, AsleepInWait t p → (t.proc k).parent = some p → (t.proc k).state = .zombie →
      p = t.initproc ∧ ∃ e status i j, t.pc e = .reparentWakeup status i j ∧ j ≤ p) : WakeInv t where
  scanned p r i b k hp := by
    obtain ⟨status, i', j', hp'⟩ := hpc p (by rw [hp]; rfl)
    simp [hp] at hp'
  waking p status j q hp := by
    obtain ⟨status', i', j', hp'⟩ := hpc p (by rw [hp]; rfl)
    simp [hp] at hp'
  woken p status q hp := by
    obtain ⟨status', i', j', hp'⟩ := hpc p (by rw [hp]; rfl)
    simp [hp] at hp'
  lost := hlost

theorem wake_allocprocSlot {mem : Bool} (hi : Inv s) (h : WakeInv s) (hpc : s.pc p = .allocproc i) :
    WakeInv (allocprocSlot s p i mem) := by
  have hw : (s.pc p).watching = false := by rw [hpc]; rfl
  unfold allocprocSlot
  split
  next =>
    split
    next hu =>
      split
      next =>
        have hs := wake_setProc (j := i) (v := { s.proc i with pid := s.nextpid, state := .used }) h
          (by simp) (by simp) (.inl rfl)
        exact (wake_setPc_plain (p := p) (c := .forkParent i) hs rfl hw).congr rfl rfl rfl
      next =>
        have hs := wake_setProc (j := i) (v := { s.proc i with pid := s.nextpid, state := .used }) h
          (by simp) (by simp) (.inl rfl)
        refine wake_setPc_plain (wake_setProc (hs.congr (t := allocprocFound s i) rfl rfl rfl)
          (by simp) (by simp) (.inr ?_)) rfl hw
        change (s.pc i).watching = false
        rw [hi.quiet i (by simp [hu, ProcState.live])]
        rfl
    next => exact wake_setPc_plain h rfl hw
  next => exact wake_setPc_plain h rfl hw

theorem wake_forkParent (hi : Inv s) (h : WakeInv s) (hpc : s.pc p = .forkParent np)
    (ht : forkParent s p np = some t) : WakeInv t := by
  unfold forkParent State.setParent at ht
  split at ht
  next hl =>
    cases ht
    have hused := hi.forkee p np (by rw [hpc]; rfl)
    refine wake_setPc_plain (wake_setProc h ?_ ?_ (.inr (not_watching (nobody_holds hi hl)))) rfl ?_
    · simp [hused]
    · simp [hused]
    · rw [setProc_pc, hpc]
      rfl
  next => simp at ht

theorem wake_forkRunnable (h : WakeInv s) (hpc : s.pc p = .forkRunnable np) : WakeInv (forkRunnable s p np) := by
  unfold forkRunnable State.setState
  refine wake_setPc_plain (wake_setProc h (by simp) (by simp) (.inl rfl)) rfl ?_
  rw [setProc_pc, hpc]
  rfl

theorem wake_exitLock (h : WakeInv s) (hpc : s.pc p = .exitLock status)
    (ht : exitLock s p status = some t) : WakeInv t := by
  unfold exitLock at ht
  split at ht
  next =>
    cases ht
    exact wake_move_plain h rfl (by simp [hpc])
  next => simp at ht

theorem wake_reparentSlot (hi : Inv s) (h : WakeInv s) (hpc : s.pc p = .reparent status i) :
    WakeInv (reparentSlot s p status i) := by
  have hw : (s.pc p).watching = false := by rw [hpc]; rfl
  have hold : (s.pc p).holdsWaitLock = true := by rw [hpc]; rfl
  unfold reparentSlot State.setParent
  split
  next =>
    split
    next hpar =>
      refine wake_of_lost ?_ ?_
      · intro q hq
        by_cases hqp : q = p
        · exact ⟨status, i, 0, by simp [hqp]⟩
        · have := others_not_watching hi hold hqp
          simp_all
      · intro q k hq hk hz
        have hq' : AsleepInWait s q := by
          unfold AsleepInWait at hq ⊢
          rw [setPc_proc, setProc_proc] at hq
          split at hq
          next hqi => exact hqi ▸ hq
          next => exact hq
        rw [setPc_proc, setProc_proc] at hk hz
        split at hk
        next =>
          have hqi : s.initproc = q := Option.some.inj hk
          exact ⟨hqi.symm, p, status, i, 0, by simp, Nat.zero_le _⟩
        next hki =>
          exact absurd (by simpa [hki] using hz) (h.none_lost hi hold (by simp [hpc]) hq' hk)
    next => exact wake_setPc_plain h rfl hw
  next =>
    refine wake_move h (by simp) ?_ (by simp) (by simp [hpc])
    intro status' j' q hc hq
    cases hc
    omega

theorem wake_reparentWakeup (hi : Inv s) (h : WakeInv s)
    (hpc : s.pc p = .reparentWakeup status i j) : WakeInv (reparentWakeup s p status i j) := by
  have hninit := hi.exiting p (by rw [hpc]; rfl)
  unfold reparentWakeup
  split
  next =>
    refine wake_move (wake_wakeupSlot h) (by simp) (by simp) (by simp) ?_
    intro status' i' j' hp hj hasleep
    rw [wakeupSlot_pc, hpc] at hp
    rw [wakeupSlot_initproc] at hj hasleep
    cases hp
    -- if the loop has just passed `initproc`, then `initproc` is awake
    have hne : j ≠ s.initproc := by
      rintro rfl
      exact wakeupSlot_wakes (Ne.symm hninit) hasleep
    exact ⟨status, i, j + 1, rfl, by rw [wakeupSlot_initproc]; omega⟩
  next hj =>
    refine wake_move h (by simp) (by simp) (by simp) ?_
    intro status' i' j' hp hj'
    rw [hpc] at hp
    cases hp
    have := hi.initLive
    rw [hi.range s.initproc (by omega)] at this
    simp [ProcState.live] at this

theorem wake_exitWakeup (hi : Inv s) (h : WakeInv s) (hpc : s.pc p = .exitWakeup status j) :
    WakeInv (exitWakeup s p status j) := by
  unfold exitWakeup
  split
  next =>
    refine wake_move (wake_wakeupSlot h) (by simp) ?_ (by simp) ?_
    · intro status' j' q hc hq hpar hasleep
      cases hc
      rw [wakeupSlot_parent] at hpar
      by_cases hqj : q = j
      · subst q
        rw [hpar] at hasleep
        refine wakeupSlot_wakes ?_ hasleep
        rintro rfl
        exact hi.parentNe j hpar
      · exact h.waking p status j q hpc (by omega) hpar (asleep_of_wakeupSlot hasleep)
    · intro status' i' j' hp
      rw [wakeupSlot_pc, hpc] at hp
      simp at hp
  next hj =>
    refine wake_move h (by simp) (by simp) ?_ (by simp [hpc])
    intro status' q hc hpar hasleep
    refine h.waking p status j q hpc ?_ hpar hasleep
    by_contra hge
    have := hi.range q (by omega)
    simp [hasleep.1] at this

theorem wake_exitZombie (hi : Inv s) (h : WakeInv s) (hpc : s.pc p = .exitZombie status) :
    WakeInv (exitZombie s p status) := by
  have hold : (s.pc p).holdsWaitLock = true := by rw [hpc]; rfl
  have hpcs : ∀ q, ((exitZombie s p status).pc q).watching = false := by
    intro q
    change (((s.setProc p _).move p .user none).pc q).watching = false
    rw [move_pc]
    split
    next => rfl
    next hqp => exact others_not_watching (s := s) hi hold hqp
  refine wake_of_lost (fun q hq => by simp [hpcs q] at hq) ?_
  · intro q k hq hk hz
    have hproc : ∀ m, (exitZombie s p status).proc m =
        if m = p then { s.proc p with xstate := status, state := .zombie } else s.proc m :=
      fun m => setProc_proc
    have hq' : AsleepInWait s q := by
      unfold AsleepInWait at hq ⊢
      rw [hproc] at hq
      split at hq
      next => simp at hq
      next => exact hq
    rw [hproc] at hk hz
    split at hk
    next => exact absurd hq' (h.woken p status q hpc hk)
    next hkp => exact absurd (by simpa [hkp] using hz) (h.none_lost hi hold (by simp [hpc]) hq' hk)

theorem wake_waitLock (h : WakeInv s) (hpc : s.pc p = .waitLock r) (ht : waitLock s p r = some t) : WakeInv t := by
  unfold waitLock at ht
  split at ht
  next =>
    cases ht
    refine wake_move h ?_ (by simp) (by simp) (by simp [hpc])
    intro r' i' b k hc hk
    cases hc
    omega
  next => simp at ht

theorem wake_unlock (h : WakeInv s) (hpc : s.pc p = .waitScan r i b) (hc : c.watching = false) :
    WakeInv (s.move p c none) :=
  wake_move_plain h hc (by simp [hpc])

theorem wake_waitSleep (hi : Inv s) (h : WakeInv s) (hpc : s.pc p = .waitScan r i b)
    (hend : NPROC ≤ i) : WakeInv (waitSleep s p r) := by
  have hold : (s.pc p).holdsWaitLock = true := by rw [hpc]; rfl
  have hpcs : ∀ q, ((waitSleep s p r).pc q).watching = false := by
    intro q
    unfold waitSleep
    rw [move_pc]
    split
    next => rfl
    next hqp => exact others_not_watching (s := s) hi hold hqp
  have hproc : ∀ m, (waitSleep s p r).proc m =
      if m = p then { s.proc p with chan := some (.proc p), state := .sleeping } else s.proc m :=
    fun m => setProc_proc
  refine wake_of_lost (fun q hq => by simp [hpcs q] at hq) ?_
  intro q k hq hk hz
  rw [hproc] at hk hz
  split at hk
  next hkp => simp [hkp] at hz
  next hkp =>
    have hz' : (s.proc k).state = .zombie := by simpa [hkp] using hz
    by_cases hqp : q = p
    · subst q
      have hkn : k < NPROC := by
        by_contra hge
        have := hi.range k (by omega)
        simp [hz'] at this
      exact absurd hz' (h.scanned p r i b k hpc (by omega) hk)
    · have hq' : AsleepInWait s q := by
        unfold AsleepInWait at hq ⊢
        simpa [hproc, hqp] using hq
      exact absurd hz' (h.none_lost hi hold (by simp [hpc]) hq' hk)

theorem wake_waitScan (hi : Inv s) (h : WakeInv s)
    (hpc : s.pc p = .waitScan r i b) : WakeInv (waitScan s p r i b ok) := by
  -- the scan goes on past a slot that is not a ZOMBIE child
  have hnext : ∀ b', ((s.proc i).parent = some p → (s.proc i).state ≠ .zombie) →
      WakeInv (s.setPc p (.waitScan r (i + 1) b')) := by
    intro b' hslot
    refine wake_move h ?_ (by simp) (by simp) (by simp [hpc])
    intro r' i' b'' k hc hk hkp
    cases hc
    by_cases hki : k = i
    · exact hki ▸ hslot (hki ▸ hkp)
    · exact h.scanned p r i b k hpc (by omega) hkp
  unfold waitScan
  split
  next =>
    split
    next =>
      split
      next hz =>
        unfold reap
        split
        next => exact wake_unlock h hpc rfl
        next =>
          have hm : WakeInv (s.move p .user none) := wake_unlock h hpc rfl
          refine (wake_setProc (j := i) (v := { s.proc i with
            pid := 0, parent := none, chan := none, killed := false, xstate := 0,
            state := .unused }) hm (by simp) (by simp) (.inr ?_)).congr rfl rfl rfl
          rw [move_pc]
          split
          next => rfl
          next =>
            rw [hi.quiet i (by simp [hz, ProcState.live])]
            rfl
      next hz => exact hnext true fun _ => hz
    next hpar => exact hnext b fun hp => absurd hp hpar
  next hend =>
    split
    next => exact wake_unlock h hpc rfl
    next => exact wake_waitSleep hi h hpc (by omega)

theorem wake_sleepReturn (h : WakeInv s) (hpc : (s.pc p).watching = false)
    (hc : c.watching = false) : WakeInv (sleepReturn s p c) := by
  refine wake_setPc_plain (wake_setProc h (by simp) ?_ (.inl rfl)) hc hpc
  exact fun hz => ⟨hz, rfl⟩

theorem wake_killSlot {pid : Int} (h : WakeInv s) (hpc : s.pc p = .killScan pid i) :
    WakeInv (killSlot s p pid i) := by
  have hw : (s.pc p).watching = false := by rw [hpc]; rfl
  unfold killSlot
  split
  next =>
    split
    next =>
      refine wake_setPc_plain (wake_setProc h ?_ ?_ (.inl rfl)) rfl hw
      · grind
      · grind
    next => exact wake_setPc_plain h rfl hw
  next => exact wake_setPc_plain h rfl hw

theorem wake_wakeupScan {a : Nat} (h : WakeInv s) (hpc : s.pc p = .wakeupScan a j) :
    WakeInv (wakeupScan s p a j) := by
  have hw : (s.pc p).watching = false := by rw [hpc]; rfl
  unfold wakeupScan
  split
  next => exact wake_setPc_plain (wake_wakeupSlot h) rfl (by rw [wakeupSlot_pc]; exact hw)
  next => exact wake_setPc_plain h rfl hw

theorem wake_nextSection (hi : Inv s) (h : WakeInv s) (ht : nextSection s p ok = some t) : WakeInv t := by
  unfold nextSection at ht
  split at ht
  next => simp at ht
  next hpc => exact Option.some.inj ht ▸ wake_allocprocSlot hi h hpc
  next hpc => exact wake_forkParent hi h hpc ht
  next hpc => exact Option.some.inj ht ▸ wake_forkRunnable h hpc
  next hpc => exact wake_exitLock h hpc ht
  next hpc => exact Option.some.inj ht ▸ wake_reparentSlot hi h hpc
  next hpc => exact Option.some.inj ht ▸ wake_reparentWakeup hi h hpc
  next hpc => exact Option.some.inj ht ▸ wake_exitWakeup hi h hpc
  next hpc => exact Option.some.inj ht ▸ wake_exitZombie hi h hpc
  next hpc => exact wake_waitLock h hpc ht
  next hpc => exact Option.some.inj ht ▸ wake_waitScan hi h hpc
  next hpc => exact Option.some.inj ht ▸ wake_sleepReturn h (by rw [hpc]; rfl) rfl
  next hpc => exact Option.some.inj ht ▸ wake_killSlot h hpc
  next hpc => exact Option.some.inj ht ▸ wake_wakeupScan h hpc
  next hpc => exact Option.some.inj ht ▸ wake_sleepReturn h (by rw [hpc]; rfl) rfl

theorem wake_enter {call : Call} (h : WakeInv s) (hpc : s.pc p = .user)
    (ht : enter s p call = some t) : WakeInv t := by
  have hw : (s.pc p).watching = false := by rw [hpc]; rfl
  cases call with
  | fork => exact Option.some.inj ht ▸ wake_setPc_plain h rfl hw
  | exit status =>
    simp only [enter] at ht
    split at ht
    next => simp at ht
    next => exact Option.some.inj ht ▸ wake_setPc_plain h rfl hw
  | wait r => exact Option.some.inj ht ▸ wake_setPc_plain h rfl hw
  | kill pid => exact Option.some.inj ht ▸ wake_setPc_plain h rfl hw
  | wakeup a => exact Option.some.inj ht ▸ wake_setPc_plain h rfl hw
  | sleep a =>
    exact Option.some.inj ht ▸ wake_setPc_plain (wake_setProc h (by simp) (by simp) (.inl rfl)) rfl hw

theorem wake_act {a : Act} (hi : Inv s) (h : WakeInv s) (ht : act s a = some t) : WakeInv t := by
  cases a with
  | call p call =>
    obtain ⟨hp, ht⟩ := Option.ite_none_right_eq_some.mp ht
    exact wake_enter h hp.2 ht
  | step p ok =>
    obtain ⟨_, ht⟩ := Option.ite_none_right_eq_some.mp ht
    exact wake_nextSection hi h ht
  | dispatch p =>
    obtain ⟨_, rfl⟩ := some_of_guard ht
    exact wake_setProc h (by simp) (by simp) (.inl rfl)
  | yield p =>
    obtain ⟨_, rfl⟩ := some_of_guard ht
    exact wake_setProc h (by simp) (by simp) (.inl rfl)

theorem reachable_wake (h : machine.Reachable s) : WakeInv s := by
  refine Machine.Reach.invariant ?_
    (fun _ _ _ reach hs _ ht => wake_act (reachable_inv reach) hs ht) h
  rintro _ rfl
  refine wake_of_lost (by simp [userinit, Pc.watching]) ?_
  intro p k hp
  simp only [AsleepInWait, userinit, Function.update_apply] at hp
  split at hp <;> simp at hp

/-- While `wait_lock` is free, no process sleeps in `wait` or `waitx` with a ZOMBIE child, whichever of
`exit` and `reparent` made it one. -/
theorem no_lost_exit_wakeup (h : machine.Reachable s) (hlock : s.waitLock = none) (p k : Nat)
    (hp : AsleepInWait s p) (hk : (s.proc k).parent = some p) : (s.proc k).state ≠ .zombie := by
  intro hz
  obtain ⟨_, e, status, i, j, he, _⟩ := (reachable_wake h).lost p k hp hk hz
  have := nobody_holds (q := e) (reachable_inv h) hlock
  rw [he] at this
  simp [Pc.holdsWaitLock] at this

def forkWait : List Act :=
  [.dispatch 0, .call 0 .fork] ++ List.replicate 4 (.step 0 true) ++
  [.call 0 (.wait ⟨false, false⟩)] ++ List.replicate 66 (.step 0 true)

theorem no_lost_exit_wakeup_forkWait : ∃ s, machine.run userinit forkWait = some s ∧
    s.waitLock = none ∧ AsleepInWait s 0 ∧ (s.proc 1).parent = some 0 ∧
    (s.proc 1).state ≠ .zombie := by
  have hrun : (machine.run userinit forkWait).map (fun s => (s.waitLock, s.proc 0, s.proc 1)) =
      some (none, ⟨.sleeping, some (.proc 0), false, 0, 1, none⟩,
        ⟨.runnable, none, false, 0, 2, some 0⟩) := by decide +kernel
  obtain ⟨s, hs, hv⟩ := Option.map_eq_some_iff.mp hrun
  obtain ⟨hlock, h0, h1⟩ : s.waitLock = none ∧ _ ∧ _ := by simpa using hv
  have hasleep : AsleepInWait s 0 := by simp [AsleepInWait, h0]
  have hparent : (s.proc 1).parent = some 0 := by simp [h1]
  exact ⟨s, hs, hlock, hasleep, hparent,
    no_lost_exit_wakeup (Machine.Reachable.of_run rfl hs) hlock 0 1 hasleep hparent⟩

end TweakedXv6.Wait
