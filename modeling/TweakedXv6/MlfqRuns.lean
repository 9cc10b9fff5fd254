import TweakedXv6.MlfqInvariant

namespace TweakedXv6.Mlfq

variable {s t : State} {p q i : Nat} {v : Proc}

theorem Inv.head (h : Inv s) {j : Nat} (hj : j < s.queues.size 0) :
    j = 0 ∧ ∃ p, s.queues.at 0 j = some p ∧ (s.proc p).state = .runnable := by
  have hs := h.holds.size
  cases hp : s.queues.slot 0 with
  | none => simp [hp] at hs; omega
  | some p =>
    simp only [hp, Option.toList_some, List.length_cons, List.length_nil] at hs
    have hj0 : j = 0 := by omega
    exact ⟨hj0, p, by simp [Queues.at, hj0, hp], (h.queued p hp).1⟩

theorem purge_eq (h : Inv s) : purge s = some s := by
  refine foldlM_fixed fun q _ => foldlM_fixed fun j hj => ?_
  unfold purgeSlot
  split
  next hlt =>
    have hq : q = 0 := by
      by_contra hq
      have := h.holds.upper q (by omega)
      omega
    subst hq
    obtain ⟨_, p, hp, hrun⟩ := h.head hlt
    simp [hp, hrun]
  next => rfl

theorem age_eq (h : Inv s) : age s = some s := by
  refine foldlM_fixed fun q hq => foldlM_fixed fun j hj => ?_
  have hq1 : 1 ≤ q := by simp at hq; omega
  have := h.holds.upper q hq1
  simp [this] at hj

theorem select_upper {r : State × Option Nat} (h : ∀ q, 1 ≤ q → r.1.queues.size q = 0) :
    [1, 2, 3, 4].foldlM (fun r q =>
      (selectFrom r.1 q (List.range (r.1.queues.size q))).map fun r' =>
        (r'.1, r'.2.orElse fun _ => r.2)) r = some r := by
  refine foldlM_fixed fun q hq => ?_
  have hq1 : 1 ≤ q := by simp at hq; omega
  simp [h q hq1, selectFrom]

theorem select_empty (h : Inv s) (hp : s.queues.slot 0 = none) : select s = some (s, none) := by
  have hs : s.queues.size 0 = 0 := by simpa [hp] using h.holds.size
  have hrange : List.range 5 = 0 :: [1, 2, 3, 4] := rfl
  rw [select, hrange, List.foldlM_cons]
  simpa [hs, selectFrom] using select_upper (r := (s, none)) h.holds.upper

def takeHead (s : State) (p : Nat) : State :=
  { s.setProc p { s.proc p with cqueue := -1 } with queues := s.queues.close 0 0 }

theorem remove_head (h : Holds s.queues (some p)) : (s.setProc p v).remove p 0 =
    some { s.setProc p v with queues := s.queues.close 0 0 } := by
  simp [State.remove, h.remove]

theorem select_head (h : Inv s) (hp : s.queues.slot 0 = some p) : select s = some (takeHead s p, some p) := by
  have hheld : Holds s.queues (some p) := hp ▸ h.holds
  have hs : s.queues.size 0 = 1 := hheld.size
  have hrange : List.range 5 = 0 :: [1, 2, 3, 4] := rfl
  have hone : List.range 1 = [0] := rfl
  have hempty := (hheld.remove s.pids).2
  have hat : s.queues.at 0 0 = some p := hp
  have hfrom : selectFrom s 0 [0] = some (takeHead s p, some p) := by
    rw [selectFrom, hat]
    simp only [(h.queued p hp).1, if_true, remove_head hheld, Option.map_some]
    simp [takeHead, (h.queued p hp).1]
  rw [select, hrange, List.foldlM_cons, hs, hone, hfrom]
  exact select_upper (r := (takeHead s p, some p)) hempty.upper

theorem inv_schedule (h : Inv s) (hcur : s.current = none) (ht : schedule s = some t) : Inv t := by
  simp only [schedule, purge_eq h, age_eq h, Option.bind_eq_bind, Option.bind_some] at ht
  cases hp : s.queues.slot 0 with
  | none =>
    simp only [select_empty h hp, Option.bind_some, Option.some.injEq] at ht
    exact ht ▸ h
  | some p =>
    obtain ⟨hrun, _⟩ := h.queued p hp
    have hheld : Holds s.queues (some p) := hp ▸ h.holds
    have hempty := (hheld.remove s.pids).2
    have hrun' : ((takeHead s p).proc p).state = .runnable := by simp [takeHead, hrun]
    simp only [select_head h hp, Option.bind_some, hrun', ne_eq, not_true_eq_false, if_false,
      Option.some.injEq] at ht
    subst ht
    have hkeep : ∀ k, k ≠ p → (takeHead s p).proc k = s.proc k := fun k hk => by
      simp [takeHead, setProc_proc, hk]
    have hother : ∀ k, k ≠ p → (s.proc k).state ≠ .runnable ∧ (s.proc k).state ≠ .running := by
      intro k hk
      constructor
      · intro hr
        exact hk (Option.some.inj ((h.runnable k hr).symm.trans hp))
      · intro hr
        have := h.running k hr
        simp [hcur] at this
    constructor
    case holds => exact hempty.first.symm ▸ hempty
    case queued =>
      intro k hk
      have := hempty.first.symm.trans hk
      simp at this
    case runnable =>
      intro k hk
      by_cases hkp : k = p
      · simp [hkp] at hk
      · simp [setProc_proc, hkp, hkeep k hkp, (hother k hkp).1] at hk
    case current =>
      intro k hk
      cases hk
      simp [takeHead]
    case running =>
      intro k hk
      by_cases hkp : k = p
      · exact congrArg some hkp.symm
      · simp [setProc_proc, hkp, hkeep k hkp, (hother k hkp).2] at hk
    case pids =>
      have hused : ∀ k, (((takeHead s p).setProc p { (takeHead s p).proc p with
          state := .running, chan := none }).proc k).state ≠ .unused → (s.proc k).state ≠ .unused := by
        intro k hk
        by_cases hkp : k = p
        · simp [hkp, hrun]
        · simpa [setProc_proc, hkp, hkeep k hkp] using hk
      have hpid : ∀ k, (((takeHead s p).setProc p { (takeHead s p).proc p with
          state := .running, chan := none }).proc k).pid = (s.proc k).pid := by
        intro k
        by_cases hkp : k = p
        · simp [hkp, takeHead]
        · simp [setProc_proc, hkp, hkeep k hkp]
      intro k l hk hl he
      exact h.pids k l (hused k hk) (hused l hl) ((hpid k).symm.trans (he.trans (hpid l)))

theorem inv_userinit {b : Int} (ht : userinit (boot b) = some t) : Inv t := by
  have hfree : ∀ k, ((boot b).proc k).state = .unused := fun _ => rfl
  have hb : InvBut 0 (boot b) := by
    refine ⟨⟨rfl, rfl, fun _ _ => rfl, fun _ _ => rfl⟩, ?_, ?_, ?_, ?_, ?_, ?_⟩ <;> simp [boot]
  have halloc := hb.setProc ((allocprocFound (boot b) 0).proc 0)
  have halloc : InvBut 0 (allocprocFound (boot b) 0) := by
    rw [allocprocFound, setProc_self] at halloc
    exact { halloc with }
  refine (halloc.setProc _).push ?_ ?_ (by simp [allocprocFound, boot]) ?_ ht
  · simp
  · simp
  · intro k hk
    simp [setProc_proc, allocprocFound, hk, hfree]

/-- A process that yields has `change_queue_flag` set, as after the trap handlers, and a new process gets
a pid that is not in use. -/
def Orderly (s : State) : Act → Prop
  | .yield => ∀ p, s.current = some p → (s.proc p).changeQueueFlag = 1
  | .fork _ => ∀ p, (s.proc p).state ≠ .unused → (s.proc p).pid ≠ s.nextpid
  | _ => True

theorem inv_act {a : Act} (h : Inv s) (ha : Orderly s a) (ht : act s a = some t) : Inv t := by
  cases a with
  | schedule =>
    simp only [act] at ht
    split at ht
    next hcur => exact inv_schedule h hcur ht
    next => simp at ht
  | fork mem =>
    obtain ⟨p, _, ht⟩ := Option.bind_eq_some_iff.mp ht
    exact inv_fork h ha ht
  | wakeup chan => exact inv_keeps.wakeup h ht
  | kill pid =>
    obtain ⟨_, _, ht⟩ := Option.bind_eq_some_iff.mp ht
    exact inv_keeps.kill h ht
  | sleep chan =>
    obtain ⟨p, hcur, ht⟩ := Option.bind_eq_some_iff.mp ht
    exact inv_sleep h hcur ht
  | exit status =>
    obtain ⟨p, hcur, ht⟩ := Option.bind_eq_some_iff.mp ht
    exact inv_exit h hcur ht
  | wait copied =>
    obtain ⟨p, hcur, ht⟩ := Option.bind_eq_some_iff.mp ht
    exact inv_wait h hcur ht
  | setChangeQueueFlag =>
    obtain ⟨p, _, rfl⟩ := Option.map_eq_some_iff.mp ht
    exact h.setProc rfl rfl rfl
  | yield =>
    obtain ⟨p, hcur, ht⟩ := Option.bind_eq_some_iff.mp ht
    exact inv_yield h hcur (ha p hcur) ht
  | clockintr a => exact inv_keeps.clockintr h ht

theorem orderly_inv (h : machine.Reach Orderly s) : Inv s := by
  refine Machine.Reach.invariant ?_ (fun _ _ _ _ hs ha ht => inv_act hs ha ht) h
  rintro s ⟨b, hb⟩
  exact inv_userinit hb

def Queued (s : State) (q i p : Nat) : Prop :=
  q < 5 ∧ i < s.queues.size q ∧ s.queues.at q i = some p

/-- Every RUNNABLE process is in exactly one live slot, in the queue its `cqueue` names, and every
process in a live slot is RUNNABLE. -/
def QueuesExact (s : State) : Prop :=
  (∀ p, (s.proc p).state = .runnable → ∃ q i, Queued s q i p ∧ (s.proc p).cqueue.toNat = q ∧
    ∀ q' i', Queued s q' i' p → q' = q ∧ i' = i) ∧
  ∀ q i p, Queued s q i p → (s.proc p).state = .runnable

/-- In every orderly run no runnable process is lost or queued twice. -/
theorem orderly_queues_exact (h : machine.Reach Orderly s) : QueuesExact s := by
  have hi := orderly_inv h
  have hlive : ∀ q i p, Queued s q i p → q = 0 ∧ i = 0 ∧ s.queues.slot 0 = some p := by
    rintro q i p ⟨_, hlt, hp⟩
    have hq : q = 0 := by
      by_contra hq
      have := hi.holds.upper q (by omega)
      omega
    subst hq
    obtain ⟨h0, _⟩ := hi.head hlt
    exact ⟨rfl, h0, by simpa [Queues.at, h0] using hp⟩
  constructor
  · intro p hp
    have hslot := hi.runnable p hp
    have hsize : s.queues.size 0 = 1 := by simpa [hslot] using hi.holds.size
    refine ⟨0, 0, ⟨by decide, by omega, by simpa [Queues.at] using hslot⟩, ?_, ?_⟩
    · simp [(hi.queued p hslot).2]
    · intro q' i' hq
      exact ⟨(hlive q' i' p hq).1, (hlive q' i' p hq).2.1⟩
  · intro q i p hq
    exact (hi.queued p (hlive q i p hq).2.2).1

def bootRun (ls : List Act) : Option State :=
  (userinit (boot 0)).bind fun s => machine.run s ls

theorem orderly_setFlag_yield (s : State) : machine.Meets Orderly s [.schedule, .setChangeQueueFlag, .yield] := by
  refine ⟨trivial, fun u _ => ⟨trivial, fun w hw => ⟨?_, fun _ _ => trivial⟩⟩⟩
  obtain ⟨p, hcur, rfl⟩ := Option.map_eq_some_iff.mp hw
  intro q hq
  have hqp : q = p := Option.some.inj (hq.symm.trans hcur)
  simp [setChangeQueueFlag, hqp]

theorem orderly_queues_exact_yield :
    ∃ s, bootRun [.schedule, .setChangeQueueFlag, .yield] = some s ∧ s.current = none ∧
      (s.proc 0).state = .runnable ∧ QueuesExact s := by
  have hview : (bootRun [.schedule, .setChangeQueueFlag, .yield]).map
      (fun s => (s.current, (s.proc 0).state)) = some (none, .runnable) := by decide
  obtain ⟨s, hs, hv⟩ := Option.map_eq_some_iff.mp hview
  obtain ⟨s₀, hinit, hrun⟩ := Option.bind_eq_some_iff.mp hs
  obtain ⟨hcur, hst⟩ := Prod.mk.inj hv
  exact ⟨s, hs, hcur, hst, orderly_queues_exact
    (Machine.Reach.of_run (.start ⟨0, hinit⟩) (orderly_setFlag_yield s₀) hrun)⟩

/-- The process that was dispatched has lost its queue number, so a yield with the flag clear pushes it
to queue -1. -/
theorem yield_loses_process : ∃ s, machine.Reachable s ∧ s.current = none ∧
    (s.proc 0).state = .runnable ∧ (∀ q < 5, s.queues.size q = 0) ∧ ¬ QueuesExact s := by
  have hview : (bootRun [.schedule, .yield]).map (fun s =>
      (s.current, (s.proc 0).state, (List.range 5).map s.queues.size)) =
      some (none, .runnable, [0, 0, 0, 0, 0]) := by decide
  obtain ⟨s, hs, hv⟩ := Option.map_eq_some_iff.mp hview
  obtain ⟨s₀, hinit, hrun⟩ := Option.bind_eq_some_iff.mp hs
  obtain ⟨hcur, hst, hsize⟩ : s.current = none ∧ (s.proc 0).state = .runnable ∧
      (List.range 5).map s.queues.size = [0, 0, 0, 0, 0] := by simpa using hv
  have hempty : ∀ q < 5, s.queues.size q = 0 := by
    intro q hq
    have hmem : s.queues.size q ∈ (List.range 5).map s.queues.size :=
      List.mem_map_of_mem (List.mem_range.mpr hq)
    simpa [hsize] using hmem
  refine ⟨s, Machine.Reachable.of_run ⟨0, hinit⟩ hrun, hcur, hst, hempty, ?_⟩
  rintro ⟨hqueued, _⟩
  obtain ⟨q, i, ⟨hq, hi, _⟩, _⟩ := hqueued 0 hst
  rw [hempty q hq] at hi
  omega

end TweakedXv6.Mlfq
