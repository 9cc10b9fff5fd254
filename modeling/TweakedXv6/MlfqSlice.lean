import TweakedXv6.MlfqArrays
import TweakedXv6.MlfqTicks

namespace TweakedXv6.Mlfq

/-- A timer interrupt with the check that both trap handlers make after it; the flag says whether the
process was preempted. `sllw` takes the low five bits of `cqueue`. -/
def timerTrap (ticksChan : Nat) (s : State) : Option (State × Bool) := do
  let s ← clockintr s ticksChan
  match s.current with
  | none => some (s, false)
  | some p =>
    if (s.proc p).state = .running ∧ 1 <<< (s.proc p).cqueue ≤ (s.proc p).cqueueTime then
      (yield (setChangeQueueFlag s p) p).map fun s => (s, true)
    else some (s, false)

/-- `n` timer interrupts, or as many as it takes to preempt the process. -/
def timerRun (ticksChan : Nat) (s : State) : Nat → Option (State × Bool)
  | 0 => some (s, false)
  | n + 1 => (timerRun ticksChan s n).bind fun r => if r.2 then some r else timerTrap ticksChan r.1

/-- The iteration that starts in `s` finds process `m` in queue `q` after its sweeps and ends with a
switch to it in state `t`. -/
structure Dispatch (s t : State) (m q : Nat) : Prop where
  idle : s.current = none
  taken : ∃ s₁ s₂, purge s = some s₁ ∧ age s₁ = some s₂ ∧ q < 5 ∧ m ∈ s₂.queues.list q
  switch : schedule s = some t
  current : t.current = some m
  lt : m < NPROC

/-- Process `m`, dispatched from queue `q`, keeps the CPU for fewer than `2 ^ q` ticks, and then is not
put at a level outside the queues; after `2 ^ q` ticks it is preempted and goes to the tail of the next
queue. -/
def SliceOk (t : State) (m q n ticksChan : Nat) (st : ProcState) : Prop :=
  if n < 1 <<< q then
    ∃ s u, timerRun ticksChan t n = some (s, false) ∧ s.current = some m ∧
      requeue (s.setProc m { s.proc m with state := st }) m = some u ∧
      (st = .runnable → (u.proc m).cqueue.toNat < 5)
  else
    ∃ u l, timerRun ticksChan t n = some (u, true) ∧ u.queues.list (min (q + 1) 4) = l ++ [m] ∧
      (u.proc m).cqueue.toNat = min (q + 1) 4

variable {s t : State} {m q n p ticksChan : Nat} {st : ProcState} {k : Int} {I : State → Prop} {v : Proc}
  {o : Option Nat}

theorem remove_proc (h : s.remove p q = some t) : t.proc = s.proc ∧ t.current = s.current := by
  obtain ⟨r, _, rfl⟩ := Option.map_eq_some_iff.mp h
  exact ⟨rfl, rfl⟩

theorem push_proc (h : s.push p k = some t) : t.proc = s.proc ∧ t.current = s.current := by
  obtain ⟨r, _, rfl⟩ := Option.map_eq_some_iff.mp h
  exact ⟨rfl, rfl⟩

theorem purge_keeps
    (hI : ∀ u p q v, I u → (u.setProc p { u.proc p with cqueue := -1 }).remove p q = some v → I v)
    (h : purge s = some t) (hs : I s) : I t := by
  refine foldlM_keeps (fun u q v hu hv => foldlM_keeps (fun u j v hu hv => ?_) hu hv) hs h
  unfold purgeSlot at hv
  split at hv
  case isTrue =>
    split at hv
    next => cases hv
    next p _ =>
      split at hv
      case isTrue => exact hI u p q v hu hv
      case isFalse => cases hv; exact hu
  case isFalse => cases hv; exact hu

theorem age_keeps
    (hI : ∀ u p q w v, I u → (u.setProc p { u.proc p with cqueue := -1 }).remove p q = some w →
      (w.setProc p { w.proc p with
        cqueueEnterTime := w.ticks, cqueueTime := 0, cqueue := .ofNat (q - 1),
        changeQueueFlag := 0, mlfqWtime := 0 }).push p (q - 1) = some v → I v)
    (h : age s = some t) (hs : I s) : I t := by
  refine foldlM_keeps (fun u q v hu hv => foldlM_keeps (fun u j v hu hv => ?_) hu hv) hs h
  unfold ageSlot at hv
  split at hv
  case isTrue =>
    split at hv
    next => cases hv
    next p _ =>
      split at hv
      case isTrue =>
        obtain ⟨w, hw, hv⟩ := Option.bind_eq_some_iff.mp hv
        exact hI u p q w v hu hw hv
      case isFalse => cases hv; exact hu
  case isFalse => cases hv; exact hu

theorem purge_current (h : purge s = some t) : t.current = s.current :=
  purge_keeps (I := fun u => u.current = s.current) (fun _ _ _ _ hu hv => (remove_proc hv).2.trans hu) h rfl

theorem age_current (h : age s = some t) : t.current = s.current :=
  age_keeps (I := fun u => u.current = s.current)
    (fun _ _ _ _ _ hu hw hv => (push_proc hv).2.trans ((remove_proc hw).2.trans hu)) h rfl

/-- `change_queue_flag` is clear in every RUNNABLE process. -/
def Flags (s : State) : Prop := ∀ p, (s.proc p).state = .runnable → (s.proc p).changeQueueFlag = 0

theorem Flags.setProc (h : Flags s) (hv : v.state = .runnable → v.changeQueueFlag = 0) : Flags (s.setProc p v) := by
  intro k hk
  by_cases hkp : k = p
  · subst hkp
    rw [setProc_self] at hk ⊢
    exact hv hk
  · rw [setProc_proc, if_neg hkp] at hk ⊢
    exact h k hk

theorem Flags.of_proc (h : Flags s) (hproc : t.proc = s.proc) : Flags t := by
  unfold Flags
  rwa [hproc]

theorem Flags.take (h : Flags s) (ht : (s.setProc p { s.proc p with cqueue := -1 }).remove p q = some t) : Flags t :=
  (h.setProc (v := { s.proc p with cqueue := -1 }) (h p)).of_proc (remove_proc ht).1

theorem age_flags (h : age s = some t) (hs : Flags s) : Flags t :=
  age_keeps (fun _ _ _ _ _ hu hw hv => ((hu.take hw).setProc fun _ => rfl).of_proc (push_proc hv).1) h hs

theorem selectFrom_level {l : List Nat} (h : selectFrom s q l = some (t, o)) :
    t.current = s.current ∧ (Flags s → Flags t) ∧ (∀ p, (s.proc p).cqueue = -1 → (t.proc p).cqueue = -1) ∧
      ∀ p, o = some p → (t.proc p).cqueue = -1 := by
  induction l with
  | nil =>
    cases h
    exact ⟨rfl, id, fun _ hp => hp, fun _ hp => by cases hp⟩
  | cons j l ih =>
    unfold selectFrom at h
    split at h
    next => cases h
    next p _ =>
      split at h
      case isFalse => exact ih h
      case isTrue =>
        obtain ⟨u, hu, he⟩ := Option.map_eq_some_iff.mp h
        cases he
        obtain ⟨hproc, hcur⟩ := remove_proc hu
        have hp : (t.proc p).cqueue = -1 := by simp [hproc, State.setProc]
        refine ⟨hcur, fun hs => hs.take hu, fun k hk => ?_, fun k hk => ?_⟩
        · by_cases hkp : k = p
          · rw [hkp, hp]
          · rw [hproc]
            simpa [State.setProc, hkp] using hk
        · cases hk
          exact hp

theorem select_level (h : select s = some (t, o)) :
    t.current = s.current ∧ (Flags s → Flags t) ∧ ∀ p, o = some p → (t.proc p).cqueue = -1 := by
  refine foldlM_keeps (I := fun r : State × Option Nat => r.1.current = s.current ∧ (Flags s → Flags r.1) ∧
    ∀ p, r.2 = some p → (r.1.proc p).cqueue = -1) ?_ ⟨rfl, id, fun _ hp => by cases hp⟩ h
  intro r q r' hr hr'
  obtain ⟨v, hv, rfl⟩ := Option.map_eq_some_iff.mp hr'
  obtain ⟨hcur, hflags, hkeep, hnew⟩ := selectFrom_level hv
  refine ⟨hcur.trans hr.1, fun hs => hflags (hr.2.1 hs), fun p hp => ?_⟩
  cases hv2 : v.2 with
  | none =>
    rw [hv2] at hp
    exact hkeep p (hr.2.2 p hp)
  | some k =>
    rw [hv2] at hp
    cases hp
    exact hnew p hv2

theorem schedule_level (hcur : s.current = none) (h : schedule s = some t) :
    (Flags s → Flags t) ∧ ∀ m, t.current = some m → (t.proc m).state = .running ∧ (t.proc m).cqueue = -1 ∧
      (Flags s → (t.proc m).changeQueueFlag = 0) := by
  obtain ⟨s₁, h₁, h⟩ := Option.bind_eq_some_iff.mp h
  obtain ⟨s₂, h₂, h⟩ := Option.bind_eq_some_iff.mp h
  obtain ⟨r, h₃, h⟩ := Option.bind_eq_some_iff.mp h
  obtain ⟨hcur₃, hflags₃, hlevel⟩ := select_level h₃
  have hnone : ∀ m, r.1.current ≠ some m := fun m hm => by
    rw [hcur₃, age_current h₂, purge_current h₁, hcur] at hm
    cases hm
  have hflags : Flags s → Flags r.1 := fun hs =>
    hflags₃ (age_flags h₂ (purge_keeps (fun _ _ _ _ => Flags.take) h₁ hs))
  dsimp only at h
  split at h
  next =>
    cases h
    exact ⟨hflags, fun m hm => absurd hm (hnone m)⟩
  next p hp =>
    split at h
    case isTrue =>
      cases h
      exact ⟨hflags, fun m hm => absurd hm (hnone m)⟩
    case isFalse hrun =>
      cases h
      refine ⟨fun hs => (hflags hs).setProc (fun he => by cases he), fun m hm => ?_⟩
      cases hm
      have hclear := fun hs => hflags hs p (not_not.mp hrun)
      simpa [State.setProc] using ⟨hlevel p hp, hclear⟩

/-- No RUNNABLE process has the flag set, and the process that runs has lost its level. -/
structure Settled (s : State) : Prop where
  flags : Flags s
  current : ∀ p, s.current = some p → (s.proc p).state = .running ∧ (s.proc p).cqueue = -1

theorem Settled.setProc (h : Settled s) (hflag : v.state = .runnable → v.changeQueueFlag = 0)
    (hcur : s.current = some p → v.state = .running ∧ v.cqueue = -1) : Settled (s.setProc p v) := by
  refine ⟨h.flags.setProc hflag, fun k hk => ?_⟩
  by_cases hkp : k = p
  · subst hkp
    rw [setProc_self]
    exact hcur hk
  · rw [setProc_proc, if_neg hkp]
    exact h.current k hk

theorem Settled.push (h : Settled s) (ht : s.push p k = some t) : Settled t := by
  obtain ⟨hproc, hcur⟩ := push_proc ht
  exact ⟨h.flags.of_proc hproc, by rw [hproc, hcur]; exact h.current⟩

theorem Settled.not_current (h : Settled s) (hst : (s.proc p).state ≠ .running) : s.current ≠ some p :=
  fun hc => hst (h.current p hc).1

theorem settled_keeps : Keeps Settled where
  wake u p t hu hp ht :=
    (hu.setProc (fun _ => rfl) fun hc => absurd hc (hu.not_current (by simp [hp]))).push ht
  field u p v hu hst _ hcq hflag := by
    refine hu.setProc (fun hv => ?_) fun hc => ?_
    · rw [hflag]
      exact hu.flags p (hst ▸ hv)
    · rw [hst, hcq]
      exact hu.current p hc
  ticks _ _ hu := { hu with }

theorem settled_fork {mem : Bool} (h : Settled s) (ht : fork s p mem = some t) : Settled t := by
  unfold fork at ht
  split at ht
  next => exact Option.some.inj ht ▸ h
  next np hnp =>
    have hu : (s.proc np).state = .unused := by simpa using List.find?_some hnp
    have hcur := h.not_current (p := np) (by simp [hu])
    have halloc : Settled (allocprocFound s np) :=
      { h.setProc (p := np) (v := { s.proc np with
          pid := s.nextpid, state := .used, mlfqWtime := 0, cqueue := -1, cqueueTime := 0,
          cqueueEnterTime := -1, changeQueueFlag := 0, ticksInQueues := .replicate 5 0 })
          (fun he => by cases he) fun hc => absurd hc hcur with }
    dsimp only at ht
    split at ht
    next => exact (halloc.setProc (fun _ => by simp [allocprocFound]) fun hc => absurd hc hcur).push ht
    next => exact Option.some.inj ht ▸ halloc.setProc (fun he => by cases he) fun hc => absurd hc hcur

theorem settled_requeue (h : Settled s) (hcq : v.state = .runnable → v.cqueue = -1)
    (ht : requeue (s.setProc p v) p = some t) : Settled t := by
  have hidle : Settled { s with current := none } := ⟨h.flags, fun _ hc => by cases hc⟩
  change (if _ ∧ _ then (State.setProc (State.setProc { s with current := none } p v) p _).push p _
    else some (State.setProc { s with current := none } p v)) = some t at ht
  split at ht
  next =>
    rw [State.setProc, State.setProc, Function.update_idem] at ht
    exact (hidle.setProc (p := p) (fun _ => rfl) (fun hc => by cases hc)).push ht
  next hstay =>
    rw [setProc_self] at hstay
    exact Option.some.inj ht ▸ hidle.setProc (fun hv => absurd ⟨hv, hcq hv⟩ hstay) fun hc => by cases hc

theorem settled_blocked (h : Settled s) (hv : v.state ≠ .runnable)
    (ht : requeue (s.setProc p v) p = some t) : Settled t :=
  settled_requeue h (fun he => absurd he hv) ht

theorem settled_wait {copied : Bool} (h : Settled s) (ht : wait s p copied = some t) : Settled t := by
  unfold wait at ht
  split at ht
  next i hi =>
    have hz : (s.proc i).state = .zombie := by
      have := List.find?_some hi
      simp only [decide_eq_true_eq] at this
      exact this.2
    split at ht
    next =>
      exact Option.some.inj ht ▸ h.setProc (fun he => by cases he) fun hc => absurd hc (h.not_current (by simp [hz]))
    next => exact Option.some.inj ht ▸ h
  next =>
    split at ht
    next => exact Option.some.inj ht ▸ h
    next => exact settled_blocked h (by simp) ht

theorem settled_act {a : Act} (h : Settled s) (ht : act s a = some t) : Settled t := by
  cases a with
  | schedule =>
    simp only [act] at ht
    split at ht
    next hcur =>
      obtain ⟨hflags, hlevel⟩ := schedule_level hcur ht
      exact ⟨hflags h.flags, fun m hm => ⟨(hlevel m hm).1, (hlevel m hm).2.1⟩⟩
    next => cases ht
  | fork mem =>
    obtain ⟨p, _, ht⟩ := Option.bind_eq_some_iff.mp ht
    exact settled_fork h ht
  | wakeup chan => exact settled_keeps.wakeup h ht
  | kill pid =>
    obtain ⟨_, _, ht⟩ := Option.bind_eq_some_iff.mp ht
    exact settled_keeps.kill h ht
  | sleep chan =>
    obtain ⟨p, _, ht⟩ := Option.bind_eq_some_iff.mp ht
    exact settled_blocked h (by simp) ht
  | exit status =>
    obtain ⟨p, _, ht⟩ := Option.bind_eq_some_iff.mp ht
    unfold exit at ht
    split at ht
    next => cases ht
    next =>
      obtain ⟨u, hu, ht⟩ := Option.bind_eq_some_iff.mp ht
      obtain ⟨w, hw, ht⟩ := Option.bind_eq_some_iff.mp ht
      exact settled_blocked (settled_keeps.wakeup (settled_keeps.reparent h hu) hw) (by simp) ht
  | wait copied =>
    obtain ⟨p, _, ht⟩ := Option.bind_eq_some_iff.mp ht
    exact settled_wait h ht
  | setChangeQueueFlag =>
    obtain ⟨p, hcur, rfl⟩ := Option.map_eq_some_iff.mp ht
    obtain ⟨hrun, hcq⟩ := h.current p hcur
    exact h.setProc (fun hv => by simp [hrun] at hv) fun _ => ⟨hrun, hcq⟩
  | yield =>
    obtain ⟨p, hcur, ht⟩ := Option.bind_eq_some_iff.mp ht
    exact settled_requeue (v := { s.proc p with state := .runnable }) h (fun _ => (h.current p hcur).2) ht
  | clockintr a => exact settled_keeps.clockintr h ht

/-- In every run the flag of a process is clear when it becomes RUNNABLE, so it is clear at its dispatch. -/
theorem reachable_settled (h : machine.Reachable s) : Settled s := by
  refine Machine.Reach.invariant ?_ (fun _ _ _ _ hs _ ht => settled_act hs ht) h
  rintro s ⟨b, hb⟩
  have hboot : Settled (boot b) := ⟨fun _ _ => rfl, fun _ hc => by cases hc⟩
  have halloc : Settled (allocprocFound (boot b) 0) :=
    ⟨(hboot.flags.setProc (p := 0) fun _ => rfl).of_proc rfl, fun _ hc => by cases hc⟩
  exact (halloc.setProc (fun _ => rfl) fun hc => by cases hc).push hb

theorem updateTime_running (hst : (s.proc m).state = .running) (h : updateTime s = some t) :
    t.current = s.current ∧ t.proc m = s.proc m := by
  refine foldlM_keeps (I := fun u : State => u.current = s.current ∧ u.proc m = s.proc m) ?_ ⟨rfl, rfl⟩ h
  intro u q v hu hv
  refine foldlM_keeps (I := fun u : State => u.current = s.current ∧ u.proc m = s.proc m) ?_ hu hv
  intro u i v hu hv
  unfold waitTick at hv
  split at hv
  next => cases hv
  next p _ =>
    split at hv
    case isFalse => cases hv; exact hu
    case isTrue hp =>
      cases hv
      have hmp : m ≠ p := by
        intro he
        rw [← he, hu.2, hst] at hp
        cases hp
      exact ⟨hu.1, (Function.update_of_ne hmp _ _).trans hu.2⟩

theorem five_le_level {c : UInt32} (h : c = -1) : 5 ≤ c.toNat := by
  subst h
  decide

theorem timerTrap_faults (hcur : s.current = some m) (hmp : m < NPROC) (hst : (s.proc m).state = .running)
    (hcq : (s.proc m).cqueue = -1) : timerTrap ticksChan s = none := by
  have hclock : clockintr s ticksChan = none := by
    cases hc : clockintr s ticksChan with
    | none => rfl
    | some v =>
      obtain ⟨u, hu, hc⟩ := Option.bind_eq_some_iff.mp hc
      obtain ⟨w, hw, _⟩ := Option.bind_eq_some_iff.mp hc
      obtain ⟨hcur', hm⟩ := updateTime_running (s := { s with ticks := s.ticks + 1 }) hst hu
      have hfault : updatetime u = none := by
        refine runTicks_fault (fun k hk => ?_) (List.mem_range.mpr hmp) ((congrArg Proc.state hm).trans hst)
        cases Option.some.inj ((hcur.symm.trans hcur'.symm).trans hk)
        exact five_le_level ((congrArg Proc.cqueue hm).trans hcq)
      rw [hfault] at hw
      cases hw
  simp only [timerTrap, hclock, Option.bind_eq_bind, Option.bind_none]

theorem timerRun_faults (h : timerTrap ticksChan s = none) (hn : n ≠ 0) : timerRun ticksChan s n = none := by
  induction n with
  | zero => exact absurd rfl hn
  | succ n ih =>
    rw [timerRun]
    cases n with
    | zero => exact h
    | succ n => rw [ih (Nat.succ_ne_zero n)]; rfl

theorem requeue_level (hcq : (s.proc m).cqueue = -1) (hflag : (s.proc m).changeQueueFlag = 0)
    (h : requeue (s.setProc m { s.proc m with state := .runnable }) m = some t) :
    ¬ (t.proc m).cqueue.toNat < 5 := by
  have hlevel : (-1 : UInt32).toInt32.toInt = -1 := by decide
  simp only [requeue, State.setProc, Function.update_self, hcq, hflag, and_self, if_true, hlevel] at h
  have hback : (t.proc m).cqueue = UInt32.ofInt (-1) := by
    rw [(push_proc h).1]
    simp only [Function.update_self]
    rfl
  exact Nat.not_lt.mpr (five_le_level (hback.trans rfl))

/-- No slice gets past its first tick, and no process that comes back RUNNABLE finds its queue: it has
lost its level. -/
theorem slice_iff (hs : machine.Reachable s) (h : Dispatch s t m q) :
    SliceOk t m q n ticksChan st ↔ n = 0 ∧ st ≠ .runnable := by
  obtain ⟨hst, hcq, hflag⟩ := (schedule_level h.idle h.switch).2 m h.current
  have htrap : timerTrap ticksChan t = none := timerTrap_faults h.current h.lt hst hcq
  have hfault := timerRun_faults (n := n) htrap
  have hzero : 0 < 1 <<< q := by
    rw [Nat.one_shiftLeft]
    exact Nat.two_pow_pos q
  unfold SliceOk
  constructor
  · intro hok
    by_cases hn : n = 0
    · subst hn
      refine ⟨rfl, fun he => ?_⟩
      subst he
      rw [if_pos hzero] at hok
      obtain ⟨u, v, hu, _, hv, hlevel⟩ := hok
      cases hu
      exact requeue_level hcq (hflag (reachable_settled hs).flags) hv (hlevel rfl)
    · rw [hfault hn] at hok
      split at hok
      next => obtain ⟨_, _, hu, _⟩ := hok; cases hu
      next => obtain ⟨_, _, hu, _⟩ := hok; cases hu
  · rintro ⟨rfl, hne⟩
    rw [if_pos hzero]
    refine ⟨t, { t.setProc m { t.proc m with state := st } with current := none }, rfl, h.current, ?_,
      fun he => absurd he hne⟩
    simp [requeue, State.setProc, hne]

theorem dispatch_init : ∃ s t, machine.init s ∧ Dispatch s t 0 0 := by
  have hview : ((userinit (boot 0)).bind fun s => (purge s).bind fun s₁ => (age s₁).bind fun s₂ =>
      (schedule s).map fun t => (s.current, s₂.queues.list 0, t.current)) = some (none, [0], some 0) := by decide
  obtain ⟨s, hs, hv⟩ := Option.bind_eq_some_iff.mp hview
  obtain ⟨s₁, h₁, hv⟩ := Option.bind_eq_some_iff.mp hv
  obtain ⟨s₂, h₂, hv⟩ := Option.bind_eq_some_iff.mp hv
  obtain ⟨t, ht, hv⟩ := Option.map_eq_some_iff.mp hv
  obtain ⟨hidle, hlist, hcur⟩ : s.current = none ∧ s₂.queues.list 0 = [0] ∧ t.current = some 0 := by simpa using hv
  exact ⟨s, t, ⟨0, hs⟩, hidle, ⟨s₁, s₂, h₁, h₂, by decide, by simp [hlist]⟩, ht, hcur, zero_lt_NPROC⟩

theorem slice_iff_init : ∃ s t, Dispatch s t 0 0 ∧ SliceOk t 0 0 0 0 .sleeping ∧ ¬ SliceOk t 0 0 0 0 .runnable := by
  obtain ⟨s, t, hinit, h⟩ := dispatch_init
  exact ⟨s, t, h, (slice_iff (.start hinit) h).mpr ⟨rfl, by decide⟩, fun hok => ((slice_iff (.start hinit) h).mp hok).2 rfl⟩

/-- After one tick the slice of queue 0 is over, but the tick does not return. -/
theorem slice_faults : ∃ s t, machine.init s ∧ Dispatch s t 0 0 ∧ timerRun 0 t 1 = none ∧
    ∀ st, ¬ SliceOk t 0 0 1 0 st := by
  obtain ⟨s, t, hinit, h⟩ := dispatch_init
  obtain ⟨hst, hcq, _⟩ := (schedule_level h.idle h.switch).2 0 h.current
  have hfault : timerRun 0 t 1 = none :=
    timerRun_faults (timerTrap_faults h.current h.lt hst hcq) Nat.one_ne_zero
  refine ⟨s, t, hinit, h, hfault, fun st hok => ?_⟩
  obtain ⟨u, l, hu, _⟩ : ∃ u l, timerRun 0 t 1 = some (u, true) ∧
      u.queues.list (min (0 + 1) 4) = l ++ [0] ∧ (u.proc 0).cqueue.toNat = min (0 + 1) 4 := hok
  rw [hfault] at hu
  cases hu

end TweakedXv6.Mlfq
