import TweakedXv6.Loop
import TweakedXv6.MlfqModel

namespace TweakedXv6.Mlfq

variable {s t : State} {p q k : Nat} {v : Proc}

theorem setProc_proc : (s.setProc p v).proc k = if k = p then v else s.proc k :=
  Function.update_apply ..

@[simp]
theorem setProc_self : (s.setProc p v).proc p = v := Function.update_self ..

@[simp]
theorem setProc_queues : (s.setProc p v).queues = s.queues := rfl

@[simp]
theorem setProc_current : (s.setProc p v).current = s.current := rfl

@[simp]
theorem setProc_ticks : (s.setProc p v).ticks = s.ticks := rfl

@[simp]
theorem setProc_nextpid : (s.setProc p v).nextpid = s.nextpid := rfl

/-- The queues agree with the process table, with nothing said about slot `p`, which is in no queue. -/
structure InvBut (p : Nat) (s : State) : Prop where
  holds : Holds s.queues (s.queues.slot 0)
  absent : s.queues.slot 0 ≠ some p
  queued : ∀ k, s.queues.slot 0 = some k → (s.proc k).state = .runnable ∧ (s.proc k).cqueue = 0
  runnable : ∀ k, k ≠ p → (s.proc k).state = .runnable → s.queues.slot 0 = some k
  current : ∀ k, k ≠ p → s.current = some k → (s.proc k).state = .running ∧ (s.proc k).cqueue = -1
  running : ∀ k, k ≠ p → (s.proc k).state = .running → s.current = some k
  pids : ∀ k l, k ≠ p → l ≠ p → (s.proc k).state ≠ .unused → (s.proc l).state ≠ .unused →
    (s.proc k).pid = (s.proc l).pid → k = l

/-- Queue 0 holds the one RUNNABLE process, if any; the running process is in no queue. -/
structure Inv (s : State) : Prop where
  holds : Holds s.queues (s.queues.slot 0)
  queued : ∀ k, s.queues.slot 0 = some k → (s.proc k).state = .runnable ∧ (s.proc k).cqueue = 0
  runnable : ∀ k, (s.proc k).state = .runnable → s.queues.slot 0 = some k
  current : ∀ k, s.current = some k → (s.proc k).state = .running ∧ (s.proc k).cqueue = -1
  running : ∀ k, (s.proc k).state = .running → s.current = some k
  pids : ∀ k l, (s.proc k).state ≠ .unused → (s.proc l).state ≠ .unused →
    (s.proc k).pid = (s.proc l).pid → k = l

def FreshPid (s : State) (p : Nat) (pid : Int) : Prop :=
  ∀ k, k ≠ p → (s.proc k).state ≠ .unused → (s.proc k).pid ≠ pid

theorem Inv.but (h : Inv s) (hp : (s.proc p).state ≠ .runnable) : InvBut p s where
  holds := h.holds
  absent hq := hp (h.queued p hq).1
  queued := h.queued
  runnable k _ := h.runnable k
  current k _ := h.current k
  running k _ := h.running k
  pids k l _ _ := h.pids k l

theorem Inv.fresh (h : Inv s) (hp : (s.proc p).state ≠ .unused) : FreshPid s p (s.proc p).pid :=
  fun k hk hu hpid => hk (h.pids k p hu hp hpid)

theorem InvBut.setProc (h : InvBut p s) (v : Proc) : InvBut p (s.setProc p v) := by
  have hproc : ∀ k, k ≠ p → (s.setProc p v).proc k = s.proc k := fun k hk => by
    rw [setProc_proc, if_neg hk]
  constructor
  case holds => exact h.holds
  case absent => exact h.absent
  case queued =>
    intro k hk
    rw [hproc k fun he => h.absent (he ▸ hk)]
    exact h.queued k hk
  case runnable =>
    intro k hk
    rw [hproc k hk]
    exact h.runnable k hk
  case current =>
    intro k hk
    rw [hproc k hk]
    exact h.current k hk
  case running =>
    intro k hk
    rw [hproc k hk]
    exact h.running k hk
  case pids =>
    intro k l hk hl
    rw [hproc k hk, hproc l hl]
    exact h.pids k l hk hl

theorem FreshPid.setProc {pid : Int} (h : FreshPid s p pid) : FreshPid (s.setProc p v) p pid := by
  intro k hk
  rw [setProc_proc, if_neg hk]
  exact h k hk

theorem InvBut.switch (h : InvBut p s) (hcur : s.current = some p) :
    InvBut p { s with current := none } where
  holds := h.holds
  absent := h.absent
  queued := h.queued
  runnable := h.runnable
  current k _ hk := by simp at hk
  running k hk hr := absurd (Option.some.inj (hcur.symm.trans (h.running k hk hr))) hk.symm
  pids := h.pids

theorem InvBut.settle (h : InvBut p s) (hst : (s.proc p).state ≠ .runnable)
    (hcur : s.current = some p → (s.proc p).state = .running ∧ (s.proc p).cqueue = -1)
    (hrun : (s.proc p).state = .running → s.current = some p)
    (hpid : (s.proc p).state ≠ .unused → FreshPid s p (s.proc p).pid) : Inv s where
  holds := h.holds
  queued := h.queued
  runnable k hk := by
    by_cases hkp : k = p
    · exact absurd (hkp ▸ hk) hst
    · exact h.runnable k hkp hk
  current k hk := by
    by_cases hkp : k = p
    · exact hkp ▸ hcur (hkp ▸ hk)
    · exact h.current k hkp hk
  running k hk := by
    by_cases hkp : k = p
    · exact hkp ▸ hrun (hkp ▸ hk)
    · exact h.running k hkp hk
  pids k l hk hl he := by
    by_cases hkp : k = p <;> by_cases hlp : l = p
    · rw [hkp, hlp]
    · subst hkp
      exact absurd he.symm (hpid hk l hlp hl)
    · subst hlp
      exact absurd he (hpid hl k hkp hk)
    · exact h.pids k l hkp hlp hk hl he

theorem InvBut.push (h : InvBut p s) (hst : (s.proc p).state = .runnable) (hcq : (s.proc p).cqueue = 0)
    (hcur : s.current ≠ some p) (hpid : FreshPid s p (s.proc p).pid) (ht : s.push p 0 = some t) : Inv t := by
  have hempty : s.queues.slot 0 = none := by
    cases hk : s.queues.slot 0 with
    | none => rfl
    | some k =>
      have hkp : k ≠ p := fun he => h.absent (he ▸ hk)
      have hrun := (h.queued k hk).1
      have hne : s.pids k ≠ s.pids p := hpid k hkp (by simp [hrun])
      have hfault := Holds.push_faults (hk ▸ h.holds) hne
      simp [State.push, hfault] at ht
  have hnone : Holds s.queues none := hempty ▸ h.holds
  obtain ⟨hpush, hheld⟩ := hnone.push s.pids p
  simp only [State.push, hpush, Option.map_some, Option.some.injEq] at ht
  subst ht
  have hother : ∀ k, k ≠ p → (s.proc k).state ≠ .runnable := fun k hk hr => by
    have := h.runnable k hk hr
    simp [hempty] at this
  constructor
  case holds => exact hheld.first.symm ▸ hheld
  case queued =>
    intro k hk
    cases Option.some.inj (hheld.first.symm.trans hk)
    exact ⟨hst, hcq⟩
  case runnable =>
    intro k hk
    by_cases hkp : k = p
    · exact hkp ▸ hheld.first
    · exact absurd hk (hother k hkp)
  case current =>
    intro k hk
    exact h.current k (fun he => hcur (he ▸ hk)) hk
  case running =>
    intro k hk
    refine h.running k ?_ hk
    rintro rfl
    simp [hst] at hk
  case pids =>
    intro k l hk hl he
    by_cases hkp : k = p <;> by_cases hlp : l = p
    · rw [hkp, hlp]
    · subst hkp
      exact absurd he.symm (hpid l hlp hl)
    · subst hlp
      exact absurd he (hpid k hkp hk)
    · exact h.pids k l hkp hlp hk hl he

theorem Inv.setProc (h : Inv s) (hst : v.state = (s.proc p).state)
    (hcq : v.cqueue = (s.proc p).cqueue) (hpid : v.pid = (s.proc p).pid) : Inv (s.setProc p v) := by
  have hstate : ∀ k, ((s.setProc p v).proc k).state = (s.proc k).state := by
    intro k
    rw [setProc_proc]
    split <;> simp_all
  have hcqueue : ∀ k, ((s.setProc p v).proc k).cqueue = (s.proc k).cqueue := by
    intro k
    rw [setProc_proc]
    split <;> simp_all
  have hpids : ∀ k, ((s.setProc p v).proc k).pid = (s.proc k).pid := by
    intro k
    rw [setProc_proc]
    split <;> simp_all
  constructor
  case holds => exact h.holds
  case queued => simpa [hstate, hcqueue] using h.queued
  case runnable => simpa [hstate] using h.runnable
  case current => simpa [hstate, hcqueue] using h.current
  case running => simpa [hstate] using h.running
  case pids => simpa [hstate, hpids] using h.pids

theorem inv_wake (h : Inv s) (hp : (s.proc p).state = .sleeping) (ht : wake s p = some t) : Inv t := by
  have hcur : s.current ≠ some p := fun hc => by
    have := (h.current p hc).1
    simp [hp] at this
  refine ((h.but (p := p) (by simp [hp])).setProc _).push ?_ ?_ hcur ?_ ht
  · simp
  · simp
  · simpa using (h.fresh (by simp [hp])).setProc

/-- What wakes a process, leaves its state, pid, level and flag as they are, or sets the time, keeps `I`. -/
structure Keeps (I : State → Prop) : Prop where
  wake : ∀ u p t, I u → (u.proc p).state = .sleeping → wake u p = some t → I t
  field : ∀ u p v, I u → v.state = (u.proc p).state → v.pid = (u.proc p).pid → v.cqueue = (u.proc p).cqueue →
    v.changeQueueFlag = (u.proc p).changeQueueFlag → I (u.setProc p v)
  ticks : ∀ u n, I u → I { u with ticks := n }

section

variable {I : State → Prop} (hI : Keeps I)

include hI

theorem Keeps.wakeup {chan : Option Chan} (h : I s) (ht : wakeup s chan = some t) : I t := by
  refine foldlM_keeps (fun u p w hu hw => ?_) h ht
  unfold wakeupProc at hw
  split at hw
  next hp => exact hI.wake u p w hu hp.2.1 hw
  next => exact Option.some.inj hw ▸ hu

theorem Keeps.kill {pid : Int} (h : I s) (ht : kill s pid = some t) : I t := by
  unfold Mlfq.kill at ht
  split at ht
  next => exact Option.some.inj ht ▸ h
  next i _ =>
    have hi : I (s.setProc i { s.proc i with killed := true }) := hI.field s i _ h rfl rfl rfl rfl
    dsimp only at ht
    split at ht
    next hs => exact hI.wake _ i t hi hs ht
    next => exact Option.some.inj ht ▸ hi

theorem Keeps.reparent (h : I s) (ht : reparent s p = some t) : I t := by
  refine foldlM_keeps (fun u q w hu hw => ?_) h ht
  unfold reparentSlot at hw
  split at hw
  next => exact hI.wakeup (hI.field u q { u.proc q with parent := some u.initproc } hu rfl rfl rfl rfl) hw
  next => exact Option.some.inj hw ▸ hu

theorem Keeps.updateTime (h : I s) (ht : updateTime s = some t) : I t := by
  refine foldlM_keeps (fun u q w hu hw => foldlM_keeps (fun u i w hu hw => ?_) hu hw) h ht
  unfold waitTick at hw
  split at hw
  next => cases hw
  next p _ =>
    split at hw
    next => exact Option.some.inj hw ▸ hI.field u p _ hu rfl rfl rfl rfl
    next => exact Option.some.inj hw ▸ hu

theorem Keeps.updatetime (h : I s) (ht : updatetime s = some t) : I t := by
  refine foldlM_keeps (fun u p w hu hw => ?_) h ht
  unfold runTick at hw
  split at hw
  next =>
    have hp := hI.field u p { u.proc p with cqueueTime := (u.proc p).cqueueTime + 1 } hu rfl rfl rfl rfl
    dsimp only at hw
    split at hw
    next => cases hw
    next m _ =>
      split at hw
      next => exact Option.some.inj hw ▸ hI.field _ m _ hp rfl rfl rfl rfl
      next => cases hw
  next => exact Option.some.inj hw ▸ hu

theorem Keeps.clockintr {a : Nat} (h : I s) (ht : clockintr s a = some t) : I t := by
  obtain ⟨u, hu, ht⟩ := Option.bind_eq_some_iff.mp ht
  obtain ⟨w, hw, ht⟩ := Option.bind_eq_some_iff.mp ht
  exact hI.wakeup (hI.updatetime (hI.updateTime (hI.ticks s _ h) hu) hw) ht

end

theorem inv_keeps : Keeps Inv where
  wake _ _ _ := inv_wake
  field _ _ _ h hst hpid hcq _ := h.setProc hst hcq hpid
  ticks _ _ h := { h with }

theorem current_keeps {c : Option Nat} : Keeps fun u => u.current = c where
  wake u p t hu _ ht := by
    obtain ⟨r, _, rfl⟩ := Option.map_eq_some_iff.mp ht
    exact hu
  field _ _ _ h _ _ _ _ := h
  ticks _ _ h := h

theorem inv_freeproc (h : InvBut p s) (hcur : s.current ≠ some p) : Inv (freeproc s p) := by
  refine (h.setProc _).settle ?_ ?_ ?_ ?_
  · simp
  · exact fun hc => absurd hc hcur
  · simp
  · simp

theorem inv_fork {mem : Bool} (h : Inv s) (hfresh : ∀ k, (s.proc k).state ≠ .unused → (s.proc k).pid ≠ s.nextpid)
    (ht : fork s p mem = some t) : Inv t := by
  unfold fork at ht
  split at ht
  next => exact Option.some.inj ht ▸ h
  next np hnp =>
    have hu : (s.proc np).state = .unused := by simpa using List.find?_some hnp
    have hcur : s.current ≠ some np := fun hc => by
      have := (h.current np hc).1
      simp [hu] at this
    have halloc : InvBut np (allocprocFound s np) := by
      have hb := (h.but (p := np) (by simp [hu])).setProc { s.proc np with
        pid := s.nextpid, state := .used, mlfqWtime := 0, cqueue := -1, cqueueTime := 0,
        cqueueEnterTime := -1, changeQueueFlag := 0, ticksInQueues := .replicate 5 0 }
      exact { hb with }
    dsimp only at ht
    split at ht
    next =>
      refine (halloc.setProc _).push ?_ ?_ hcur ?_ ht
      · simp
      · simp
      · intro k hk
        have hpid : ((allocprocFound s np).proc np).pid = s.nextpid := by
          simp [allocprocFound]
        have hkeep : (allocprocFound s np).proc k = s.proc k := by
          simp [allocprocFound, setProc_proc, hk]
        rw [setProc_self, setProc_proc, if_neg hk, hkeep]
        simp only [hpid]
        exact hfresh k
    next => exact Option.some.inj ht ▸ inv_freeproc halloc hcur

theorem inv_requeue_blocked (h : InvBut p s) (hcur : s.current = some p)
    (hst : (s.proc p).state = .sleeping ∨ (s.proc p).state = .zombie)
    (hpid : FreshPid s p (s.proc p).pid) (ht : requeue s p = some t) : Inv t := by
  have hnot : (s.proc p).state ≠ .runnable ∧ (s.proc p).state ≠ .running := by
    rcases hst with hst | hst <;> simp [hst]
  simp only [requeue, hnot.1, false_and, if_false, Option.some.injEq] at ht
  subst ht
  exact (h.switch hcur).settle hnot.1 (by simp) (fun hr => absurd hr hnot.2) fun _ => hpid

theorem inv_sleep {chan : Chan} (h : Inv s) (hcur : s.current = some p) (ht : sleep s p chan = some t) : Inv t := by
  have hrun := (h.current p hcur).1
  refine inv_requeue_blocked ((h.but (by simp [hrun])).setProc _) hcur (by simp) ?_ ht
  simpa using (h.fresh (by simp [hrun])).setProc

theorem inv_requeue_flagged (h : InvBut p s) (hcur : s.current = some p) (hst : (s.proc p).state = .runnable)
    (hcq : (s.proc p).cqueue = -1) (hflag : (s.proc p).changeQueueFlag = 1) (hpid : FreshPid s p (s.proc p).pid)
    (ht : requeue s p = some t) : Inv t := by
  have hnum : ((-1 : UInt32).toInt32.toInt : Int) = -1 := by decide
  have hup : (if (-1 : Int) ≤ 3 then (-1 : Int) + 1 else -1) = 0 := by decide
  simp only [requeue, hst, hcq, and_self, if_true, hflag, hnum, hup] at ht
  refine ((h.switch hcur).setProc _).push ?_ ?_ (by simp) ?_ ht
  · simp
  · rw [setProc_self]
    rfl
  · simpa using FreshPid.setProc (s := { s with current := none }) hpid

theorem inv_yield (h : Inv s) (hcur : s.current = some p) (hflag : (s.proc p).changeQueueFlag = 1)
    (ht : yield s p = some t) : Inv t := by
  obtain ⟨hrun, hcq⟩ := h.current p hcur
  refine inv_requeue_flagged ((h.but (by simp [hrun])).setProc _) hcur ?_ ?_ ?_ ?_ ht
  · simp
  · simpa using hcq
  · simpa using hflag
  · simpa using (h.fresh (by simp [hrun])).setProc

theorem inv_exit {status : Int} (h : Inv s) (hcur : s.current = some p) (ht : exit s p status = some t) : Inv t := by
  unfold exit at ht
  split at ht
  next => simp at ht
  next =>
    obtain ⟨u, hu, ht⟩ := Option.bind_eq_some_iff.mp ht
    obtain ⟨w, hw, ht⟩ := Option.bind_eq_some_iff.mp ht
    have hinv : Inv w := inv_keeps.wakeup (inv_keeps.reparent h hu) hw
    have hcur' : w.current = some p := current_keeps.wakeup (current_keeps.reparent hcur hu) hw
    have hrun := (hinv.current p hcur').1
    refine inv_requeue_blocked ((hinv.but (by simp [hrun])).setProc _) hcur' (by simp) ?_ ht
    simpa using (hinv.fresh (by simp [hrun])).setProc

theorem inv_wait {copied : Bool} (h : Inv s) (hcur : s.current = some p) (ht : wait s p copied = some t) : Inv t := by
  unfold wait at ht
  split at ht
  next i hi =>
    have hz : (s.proc i).state = .zombie := by
      have := List.find?_some hi
      simp only [decide_eq_true_eq] at this
      exact this.2
    split at ht
    next =>
      refine Option.some.inj ht ▸ inv_freeproc (h.but (by simp [hz])) fun hc => ?_
      have := (h.current i hc).1
      simp [hz] at this
    next => exact Option.some.inj ht ▸ h
  next =>
    split at ht
    next => exact Option.some.inj ht ▸ h
    next => exact inv_sleep h hcur ht

end TweakedXv6.Mlfq
