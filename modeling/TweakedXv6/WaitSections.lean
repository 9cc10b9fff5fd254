import TweakedXv6.WaitInvariant

namespace TweakedXv6.Wait

variable {s t : State} {p q i j k np : Nat} {c : Pc} {v : Proc} {r : Reaper} {status : Int} {l : Option Nat}
  {chan : Option Chan} {b ok : Bool}

theorem inv_wakeupSlot (h : Inv s) : Inv (wakeupSlot s p chan j) := by
  unfold wakeupSlot
  split
  next hj =>
    refine inv_setState_live h (by simp [hj.2.1, ProcState.live]) rfl (.inl ?_)
    by_contra hh
    have := h.holder j (by simpa using hh)
    simp [hj.2.1] at this
  next => exact h

@[simp] theorem wakeupSlot_pc {chan : Option Chan} : (wakeupSlot s p chan j).pc = s.pc := by
  unfold wakeupSlot
  split <;> rfl

@[simp] theorem wakeupSlot_initproc {chan : Option Chan} :
    (wakeupSlot s p chan j).initproc = s.initproc := by
  unfold wakeupSlot
  split <;> rfl

@[simp] theorem wakeupSlot_parent {chan : Option Chan} :
    ((wakeupSlot s p chan j).proc k).parent = (s.proc k).parent := by
  unfold wakeupSlot State.setState
  grind [setProc_proc]

theorem wakeupSlot_self : (wakeupSlot s p chan j).proc p = s.proc p := by
  unfold wakeupSlot State.setState
  grind [setProc_proc]

section Sections

variable (h : Inv s)

include h

theorem inv_setPc_plain (hp : (s.proc p).state = .running)
    (hlock : c.holdsWaitLock = (s.pc p).holdsWaitLock) (hfork : c.forkee = none) (hc : c.exiting = false) :
    Inv (s.setPc p c) := by
  refine inv_setPc h hp hlock hfork (by simp [hc]) ?_
  cases c <;> simp_all [Pc.exiting, Pc.reparented]

theorem inv_setPc_wakeup (hp : (s.proc p).state = .running)
    (hlock : c.holdsWaitLock = (s.pc p).holdsWaitLock) (hfork : c.forkee = none)
    (hexit : c.exiting = true → p ≠ s.initproc) (hrep : ∀ k, k < c.reparented → (s.proc k).parent ≠ some p) :
    Inv ((wakeupSlot s p chan j).setPc p c) := by
  refine inv_setPc (inv_wakeupSlot h) (by rwa [wakeupSlot_self]) (by rwa [wakeupSlot_pc]) hfork ?_ ?_
  · rwa [wakeupSlot_initproc]
  · simpa using hrep

theorem slotOk_unused (hi : i < NPROC) (hu : (s.proc i).state = .unused ∨ (s.proc i).state = .zombie)
    (hv : v.state = .unused ∨ v.state = .used) (hpar : v.parent = none) : SlotOk s i v := by
  have hdead : (s.proc i).state.live = false := by rcases hu with hu | hu <;> simp [hu, ProcState.live]
  have hnofork : ∀ q, (s.pc q).forkee ≠ some i := by
    intro q hq
    simp [h.forkee q i hq] at hu
  constructor
  case holder =>
    intro hh
    simp [h.holder i hh] at hu
  case range => omega
  case quiet => exact fun _ => h.quiet i hdead
  case forkee => exact fun q hq => absurd hq (hnofork q)
  case forkeeParent => exact fun q hq => absurd (by simp [hq, Pc.forkee]) (hnofork q)
  case unusedParent => exact fun _ => hpar
  case parent => simp [hpar]
  case childless =>
    intro _ k hk
    simp [h.parentLive k i hk] at hdead
  case orphan =>
    intro _ hl
    rcases hv with hv | hv <;> simp [hv, ProcState.live] at hl
  case init =>
    rintro rfl
    simp [h.initLive] at hdead

theorem inv_allocprocSlot {mem : Bool} (hp : (s.proc p).state = .running)
    (hpc : s.pc p = .allocproc i) : Inv (allocprocSlot s p i mem) := by
  unfold allocprocSlot
  split
  next hi =>
    split
    next hu =>
      have hne : p ≠ i := by
        rintro rfl
        simp [hu] at hp
      split
      next =>
        -- the slot becomes USED, then the forker remembers it
        have hs := inv_setProc h (slotOk_unused (v := { s.proc i with pid := s.nextpid, state := .used })
          h hi (.inl hu) (.inr rfl) (h.unusedParent i hu))
        have hm := inv_move (p := p) (c := .forkParent i) (l := s.waitLock) hs (by simpa [hne] using hp)
          (by simp [lockAfter, hpc, Pc.holdsWaitLock]) (by simp [Pc.holdsWaitLock])
          (by
            intro np hnp
            cases hnp
            refine ⟨by simp, fun q _ hq => ?_⟩
            simp [h.forkee q i hq] at hu)
          (by simp) (by simp [Pc.exiting]) (by simp [Pc.reparented])
        exact hm.congr rfl rfl rfl rfl
      next =>
        have hs := inv_setProc h (slotOk_unused (v := { s.proc i with
          pid := 0, parent := none, chan := none, killed := false, xstate := 0, state := .unused })
          h hi (.inl hu) (.inl rfl) rfl)
        have hm := inv_setPc (p := p) (c := .user) hs (by simpa [hne] using hp)
          (by rw [setProc_pc, hpc]; rfl) rfl (by simp [Pc.exiting]) (by simp [Pc.reparented])
        refine hm.congr ?_ rfl rfl rfl
        funext k
        simp only [freeproc, allocprocFound, State.setProc, State.setPc, Function.update_apply]
        split <;> simp
    next => exact inv_setPc_plain h hp (by rw [hpc]; rfl) rfl rfl
  next => exact inv_setPc_plain h hp (by rw [hpc]; rfl) rfl rfl

theorem inv_forkParent (hp : (s.proc p).state = .running)
    (hpc : s.pc p = .forkParent np) (ht : forkParent s p np = some t) : Inv t := by
  unfold forkParent at ht
  split at ht
  next hlock =>
    cases ht
    have hforkee : (s.pc p).forkee = some np := by simp [hpc, Pc.forkee]
    have hused := h.forkee p np hforkee
    have hne : p ≠ np := by
      rintro rfl
      simp [hp] at hused
    have hslot : SlotOk s np { s.proc np with parent := some p } := by
      constructor
      case holder =>
        intro hh
        have := h.holder np hh
        simp [hused] at this
      case range => exact fun hr => h.range np hr
      case quiet => exact h.quiet np
      case forkee => exact fun q hq => h.forkee q np hq
      case forkeeParent =>
        intro q hq
        rw [h.forkeeUnique q p np (by simp [hq, Pc.forkee]) hforkee]
      case unusedParent => simp [hused]
      case parent =>
        intro q hq
        cases hq
        exact ⟨by simp [hp, ProcState.live], hne, by simp [hpc, Pc.reparented]⟩
      case childless =>
        intro _ k hk
        have := h.parentLive k np hk
        simp [hused, ProcState.live] at this
      case orphan => simp
      case init =>
        rintro rfl
        have := h.initLive
        simp [hused, ProcState.live] at this
    refine inv_move (l := s.waitLock) (inv_setProc h hslot) (by simpa [hne] using hp)
      (by simp [lockAfter, hpc, Pc.holdsWaitLock]) (by simp [Pc.holdsWaitLock]) ?_ ?_
      (by simp [Pc.exiting]) (by simp [Pc.reparented])
    · intro m hm
      cases hm
      refine ⟨by simpa using hused, fun q hq hqm => hq ?_⟩
      exact h.forkeeUnique q p np hqm hforkee
    · intro m hm
      cases hm
      simp
  next => simp at ht

theorem inv_forkRunnable (hp : (s.proc p).state = .running)
    (hpc : s.pc p = .forkRunnable np) : Inv (forkRunnable s p np) := by
  have hforkee : (s.pc p).forkee = some np := by simp [hpc, Pc.forkee]
  have hused := h.forkee p np hforkee
  have hne : np ≠ p := by
    rintro rfl
    simp [hp] at hused
  -- first the forker leaves the call, then the child, which nobody refers to any more, starts
  have hm := inv_setPc_plain (p := p) (c := .user) h hp (by rw [hpc]; rfl) rfl rfl
  have hgone : ∀ q, ((s.setPc p .user).pc q).forkee ≠ some np := by
    intro q hq
    by_cases hqp : q = p
    · simp [hqp, Pc.forkee] at hq
    · exact hqp (h.forkeeUnique q p np (by simpa [hqp] using hq) hforkee)
  have hslot : SlotOk (s.setPc p .user) np { s.proc np with state := .runnable } := by
    constructor
    case holder =>
      intro hh
      have := hm.holder np hh
      simp [hused] at this
    case range =>
      intro hr
      have := hm.range np hr
      simp [hused] at this
    case quiet => simp [ProcState.live]
    case forkee => exact fun q hq => absurd hq (hgone q)
    case forkeeParent => exact fun q hq => absurd (by rw [hq]; rfl) (hgone q)
    case unusedParent => simp
    case parent =>
      intro q hq
      have hqp : q = p := Option.some.inj (hq.symm.trans (h.forkeeParent p np hpc))
      subst q
      exact ⟨by simp [hp, ProcState.live], hne.symm, by simp [Pc.reparented]⟩
    case childless => simp [ProcState.live]
    case orphan =>
      intro _ _
      simp [h.forkeeParent p np hpc]
    case init =>
      intro hi
      have := h.initLive
      rw [setPc_initproc] at hi
      simp [← hi, hused, ProcState.live] at this
  exact inv_setProc hm hslot

theorem inv_exitLock (hp : (s.proc p).state = .running)
    (hpc : s.pc p = .exitLock status) (ht : exitLock s p status = some t) : Inv t := by
  unfold exitLock at ht
  split at ht
  next hlock =>
    cases ht
    exact inv_move h hp (by simp [lockAfter, Pc.holdsWaitLock]) (fun _ => .inl hlock)
      (by simp [Pc.forkee]) (by simp) (fun _ => h.exiting p (by simp [hpc, Pc.exiting]))
      (by simp [Pc.reparented])
  next => simp at ht

theorem inv_reparentSlot (hp : (s.proc p).state = .running)
    (hpc : s.pc p = .reparent status i) : Inv (reparentSlot s p status i) := by
  have hninit := h.exiting p (by simp [hpc, Pc.exiting])
  have hdone : ∀ k, k < i → (s.proc k).parent ≠ some p := fun k hk =>
    h.reparented p k (by simpa [hpc, Pc.reparented] using hk)
  unfold reparentSlot State.setParent
  split
  next hi =>
    split
    next hpar =>
      have hslot : SlotOk s i { s.proc i with parent := some s.initproc } := by
        constructor
        case holder => exact h.holder i
        case range => omega
        case quiet => exact h.quiet i
        case forkee => exact fun q hq => h.forkee q i hq
        case forkeeParent =>
          -- a child between the two sections of its fork still has the forker as its parent
          intro q hq
          have hqp : q = p := Option.some.inj ((h.forkeeParent q i hq).symm.trans hpar)
          simp [hqp, hpc] at hq
        case unusedParent =>
          intro hu
          simp [h.unusedParent i hu] at hpar
        case parent =>
          intro q hq
          cases hq
          refine ⟨h.initLive, ?_, ?_⟩
          · rintro rfl
            simp [h.initParent] at hpar
          · have := h.exiting s.initproc
            revert this
            cases s.pc s.initproc <;> simp [Pc.exiting, Pc.reparented]
        case childless => exact fun hl k hk => by simp [h.parentLive k i hk] at hl
        case orphan => simp
        case init =>
          rintro rfl
          simp [h.initParent] at hpar
      refine inv_setPc (inv_setProc h hslot) ?_ (by rw [setProc_pc, hpc]; rfl) rfl
        (fun _ => hninit) ?_
      · by_cases hip : p = i
        · subst i
          exact absurd hpar (h.parentNe p)
        · simpa [hip] using hp
      · intro k hk
        rw [setProc_proc]
        split
        next => simpa using Ne.symm hninit
        next hne =>
          have : k < i + 1 := by simpa [Pc.reparented] using hk
          exact hdone k (by omega)
    next hpar =>
      refine inv_setPc h hp (by rw [hpc]; rfl) rfl (fun _ => hninit) ?_
      intro k hk
      have hk' : k < i + 1 := by simpa [Pc.reparented] using hk
      by_cases hki : k = i
      · exact hki ▸ hpar
      · exact hdone k (by omega)
  next hi =>
    refine inv_setPc h hp (by rw [hpc]; rfl) rfl (fun _ => hninit) ?_
    intro k hk
    have : k < NPROC := by simpa [Pc.reparented] using hk
    exact hdone k (by omega)

theorem inv_reparentWakeup (hp : (s.proc p).state = .running)
    (hpc : s.pc p = .reparentWakeup status i j) : Inv (reparentWakeup s p status i j) := by
  have hninit := h.exiting p (by simp [hpc, Pc.exiting])
  have hdone : ∀ k, k < i + 1 → (s.proc k).parent ≠ some p := fun k hk =>
    h.reparented p k (by simpa [hpc, Pc.reparented] using hk)
  unfold reparentWakeup
  split
  next => exact inv_setPc_wakeup h hp (by rw [hpc]; rfl) rfl (fun _ => hninit) hdone
  next => exact inv_setPc h hp (by rw [hpc]; rfl) rfl (fun _ => hninit) hdone

theorem inv_exitWakeup (hp : (s.proc p).state = .running)
    (hpc : s.pc p = .exitWakeup status j) : Inv (exitWakeup s p status j) := by
  have hninit := h.exiting p (by simp [hpc, Pc.exiting])
  have hdone : ∀ k, k < NPROC → (s.proc k).parent ≠ some p := fun k hk =>
    h.reparented p k (by simpa [hpc, Pc.reparented] using hk)
  unfold exitWakeup
  split
  next => exact inv_setPc_wakeup h hp (by rw [hpc]; rfl) rfl (fun _ => hninit) hdone
  next => exact inv_setPc h hp (by rw [hpc]; rfl) rfl (fun _ => hninit) hdone

theorem inv_exitZombie (hp : (s.proc p).state = .running)
    (hpc : s.pc p = .exitZombie status) : Inv (exitZombie s p status) := by
  have hninit := h.exiting p (by simp [hpc, Pc.exiting])
  have hm := inv_move (p := p) (c := .user) (l := none) h hp (by simp [lockAfter, hpc, Pc.holdsWaitLock])
    (by simp [Pc.holdsWaitLock]) (by simp [Pc.forkee]) (by simp) (by simp [Pc.exiting])
    (by simp [Pc.reparented])
  have hslot : SlotOk (s.move p .user none) p { s.proc p with xstate := status, state := .zombie } := by
    constructor
    case holder => simp [Pc.holdsWaitLock]
    case range =>
      intro hr
      have := h.range p hr
      simp [hp] at this
    case quiet => simp
    case forkee =>
      intro q hq
      have := hm.forkee q p hq
      simp [hp] at this
    case forkeeParent => exact fun q hq => hm.forkeeParent q p hq
    case unusedParent => simp
    case parent =>
      intro q hq
      refine ⟨h.parentLive p q hq, ?_, ?_⟩
      · rintro rfl
        exact h.parentNe q hq
      · by_contra hlt
        exact hm.reparented q p (by omega) hq
    case childless =>
      -- `reparent` has been through the whole table, and the slots beyond it are never used
      intro _ k hk
      by_cases hkn : k < NPROC
      · exact h.reparented p k (by simpa [hpc, Pc.reparented] using hkn) hk
      · have := h.unusedParent k (h.range k (by omega))
        simp [this] at hk
    case orphan => exact fun _ _ => h.orphan p hninit (.inl (by simp [hp, ProcState.live]))
    case init => exact fun hi => absurd hi hninit
  exact (inv_setProc hm hslot).congr rfl rfl rfl rfl

theorem inv_waitLock (hp : (s.proc p).state = .running) (ht : waitLock s p r = some t) : Inv t := by
  unfold waitLock at ht
  split at ht
  next hlock =>
    cases ht
    exact inv_move h hp (by simp [lockAfter, Pc.holdsWaitLock]) (fun _ => .inl hlock)
      (by simp [Pc.forkee]) (by simp) (by simp [Pc.exiting]) (by simp [Pc.reparented])
  next => simp at ht

theorem inv_unlock (hp : (s.proc p).state = .running)
    (hpc : s.pc p = .waitScan r i b) (hc : c = .user ∨ c = .waitSleep r) : Inv (s.move p c none) := by
  rcases hc with rfl | rfl <;>
  exact inv_move h hp (by simp [lockAfter, hpc, Pc.holdsWaitLock]) (by simp [Pc.holdsWaitLock])
    (by simp [Pc.forkee]) (by simp) (by simp [Pc.exiting]) (by simp [Pc.reparented])

theorem inv_waitScan (hp : (s.proc p).state = .running)
    (hpc : s.pc p = .waitScan r i b) : Inv (waitScan s p r i b ok) := by
  unfold waitScan
  split
  next hi =>
    split
    next hpar =>
      split
      next hz =>
        unfold reap
        split
        next => exact inv_unlock h hp hpc (.inl rfl)
        next =>
          have hm := inv_unlock h hp hpc (.inl rfl)
          have hslot : SlotOk (s.move p .user none) i { s.proc i with
              pid := 0, parent := none, chan := none, killed := false, xstate := 0,
              state := .unused } := slotOk_unused hm hi (.inr hz) (.inl rfl) rfl
          exact (inv_setProc hm hslot).congr rfl rfl rfl rfl
      next => exact inv_setPc_plain h hp (by rw [hpc]; rfl) rfl rfl
    next => exact inv_setPc_plain h hp (by rw [hpc]; rfl) rfl rfl
  next =>
    split
    next => exact inv_unlock h hp hpc (.inl rfl)
    next =>
      have hm := inv_unlock h hp hpc (.inr rfl)
      refine (inv_setProc hm (slotOk_live (j := p) (v := { s.proc p with
        chan := some (.proc p), state := .sleeping }) hm ?_ rfl rfl ?_)).congr rfl rfl rfl rfl
      · simp [hp, ProcState.live]
      · simp [Pc.holdsWaitLock]

theorem inv_sleepReturn (hp : (s.proc p).state = .running) (hpc : (s.pc p).holdsWaitLock = false)
    (hc : c = .user ∨ c = .waitLock r) : Inv (sleepReturn s p c) := by
  have hs := inv_setProc h (slotOk_live (j := p) (v := { s.proc p with chan := none }) h
    (by simp [hp, ProcState.live]) (by simp [hp, ProcState.live]) rfl (fun _ => hp))
  refine inv_setPc hs (by simpa using hp) ?_ ?_ ?_ ?_
  · rw [setProc_pc, hpc]
    rcases hc with rfl | rfl <;> rfl
  all_goals rcases hc with rfl | rfl <;> simp [Pc.forkee, Pc.exiting, Pc.reparented]

theorem slotOk_same (hst : v.state = (s.proc j).state)
    (hpar : v.parent = (s.proc j).parent) : SlotOk s j v where
  holder hh := hst ▸ h.holder j hh
  range hr := hst ▸ h.range j hr
  quiet hq := h.quiet j (hst ▸ hq)
  forkee q hq := hst ▸ h.forkee q j hq
  forkeeParent q hq := hpar ▸ h.forkeeParent q j hq
  unusedParent hu := hpar ▸ h.unusedParent j (hst ▸ hu)
  parent q hq := by
    rw [hpar] at hq
    refine ⟨h.parentLive j q hq, ?_, ?_⟩
    · rintro rfl
      exact h.parentNe q hq
    · by_contra hlt
      exact h.reparented q j (by omega) hq
  childless hl k hk := by
    have := h.parentLive k j hk
    simp [← hst, hl] at this
  orphan hi hl := hpar ▸ h.orphan j hi (hst ▸ hl)
  init hi := ⟨by rw [hpar, hi, h.initParent], by rw [hst, hi, h.initLive]⟩

theorem inv_killSlot {pid : Int} (hp : (s.proc p).state = .running)
    (hpc : s.pc p = .killScan pid i) : Inv (killSlot s p pid i) := by
  unfold killSlot
  split
  next =>
    split
    next =>
      have hslot : SlotOk s i { s.proc i with
          killed := true
          state := if (s.proc i).state = .sleeping then .runnable else (s.proc i).state } := by
        split
        next hsl =>
          refine slotOk_live h (by simp [hsl, ProcState.live]) rfl rfl fun hh => ?_
          simp [h.holder i hh] at hsl
        next => exact slotOk_same h rfl rfl
      refine inv_setPc (inv_setProc h hslot) ?_ (by rw [setProc_pc, hpc]; rfl) rfl
        (by simp [Pc.exiting]) (by simp [Pc.reparented])
      rw [setProc_proc]
      split
      next hpi => simp [← hpi, hp]
      next => exact hp
    next => exact inv_setPc_plain h hp (by rw [hpc]; rfl) rfl rfl
  next => exact inv_setPc_plain h hp (by rw [hpc]; rfl) rfl rfl

theorem inv_wakeupScan {a : Nat} (hp : (s.proc p).state = .running)
    (hpc : s.pc p = .wakeupScan a j) : Inv (wakeupScan s p a j) := by
  unfold wakeupScan
  split
  next =>
    exact inv_setPc_wakeup h hp (by rw [hpc]; rfl) rfl (by simp [Pc.exiting]) (by simp [Pc.reparented])
  next => exact inv_setPc_plain h hp (by rw [hpc]; rfl) rfl rfl

theorem inv_nextSection (hp : (s.proc p).state = .running)
    (ht : nextSection s p ok = some t) : Inv t := by
  unfold nextSection at ht
  split at ht
  next => simp at ht
  next hpc => exact Option.some.inj ht ▸ inv_allocprocSlot h hp hpc
  next hpc => exact inv_forkParent h hp hpc ht
  next hpc => exact Option.some.inj ht ▸ inv_forkRunnable h hp hpc
  next hpc => exact inv_exitLock h hp hpc ht
  next hpc => exact Option.some.inj ht ▸ inv_reparentSlot h hp hpc
  next hpc => exact Option.some.inj ht ▸ inv_reparentWakeup h hp hpc
  next hpc => exact Option.some.inj ht ▸ inv_exitWakeup h hp hpc
  next hpc => exact Option.some.inj ht ▸ inv_exitZombie h hp hpc
  next => exact inv_waitLock h hp ht
  next hpc => exact Option.some.inj ht ▸ inv_waitScan h hp hpc
  next hpc => exact Option.some.inj ht ▸ inv_sleepReturn h hp (by rw [hpc]; rfl) (.inr rfl)
  next hpc => exact Option.some.inj ht ▸ inv_killSlot h hp hpc
  next hpc => exact Option.some.inj ht ▸ inv_wakeupScan h hp hpc
  next hpc => exact Option.some.inj ht ▸ inv_sleepReturn (r := ⟨false, false⟩) h hp (by rw [hpc]; rfl) (.inl rfl)

theorem inv_enter {call : Call} (hp : (s.proc p).state = .running)
    (hpc : s.pc p = .user) (ht : enter s p call = some t) : Inv t := by
  cases call with
  | fork =>
    exact Option.some.inj ht ▸ inv_setPc_plain h hp (by rw [hpc]; rfl) rfl rfl
  | exit status =>
    simp only [enter] at ht
    split at ht
    next => simp at ht
    next hninit =>
      exact Option.some.inj ht ▸ inv_setPc h hp (by rw [hpc]; rfl) rfl (fun _ => hninit)
        (by simp [Pc.reparented])
  | wait r =>
    exact Option.some.inj ht ▸ inv_setPc_plain h hp (by rw [hpc]; rfl) rfl rfl
  | kill pid =>
    exact Option.some.inj ht ▸ inv_setPc_plain h hp (by rw [hpc]; rfl) rfl rfl
  | wakeup a =>
    exact Option.some.inj ht ▸ inv_setPc_plain h hp (by rw [hpc]; rfl) rfl rfl
  | sleep a =>
    have hm := inv_setPc_plain (p := p) (c := .sleepOn) h hp (by rw [hpc]; rfl) rfl rfl
    refine Option.some.inj ht ▸ inv_setProc hm (slotOk_live (j := p) (v := { s.proc p with
      chan := some (.addr a), state := .sleeping }) hm ?_ rfl rfl ?_)
    · simp [hp, ProcState.live]
    · simp [Pc.holdsWaitLock]

theorem inv_act {a : Act} (ht : act s a = some t) : Inv t := by
  cases a with
  | call p call =>
    obtain ⟨hp, ht⟩ := Option.ite_none_right_eq_some.mp ht
    exact inv_enter h hp.1 hp.2 ht
  | step p ok =>
    obtain ⟨hp, ht⟩ := Option.ite_none_right_eq_some.mp ht
    exact inv_nextSection h hp ht
  | dispatch p =>
    obtain ⟨hp, rfl⟩ := some_of_guard ht
    exact inv_setState_live h (by simp [hp, ProcState.live]) rfl (.inr rfl)
  | yield p =>
    obtain ⟨hp, rfl⟩ := some_of_guard ht
    exact inv_setState_live h (by simp [hp.1, ProcState.live]) rfl (.inl hp.2)

end Sections

theorem reachable_inv (h : machine.Reachable s) : Inv s := by
  refine Machine.Reach.invariant ?_ (fun _ _ _ _ hs _ ht => inv_act hs ht) h
  rintro _ rfl
  exact inv_userinit

end TweakedXv6.Wait
