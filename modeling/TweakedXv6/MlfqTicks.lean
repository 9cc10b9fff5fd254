import Mathlib.Data.List.Nodup
import Mathlib.Data.UInt
import TweakedXv6.Loop
import TweakedXv6.MlfqRuns

namespace TweakedXv6.Mlfq

/-- The time of a process and its counter for the queue `q` it was dispatched from go up by one. -/
def Proc.tick (v : Proc) (q : Fin 5) : Proc :=
  { v with
    cqueueTime := v.cqueueTime + 1
    ticksInQueues := v.ticksInQueues.set q (v.ticksInQueues[q] + 1) }

def State.running (s : State) (p : Nat) : Prop := p < NPROC ∧ (s.proc p).state = .running

/-- `updatetime` counts the tick for the running processes, dispatched from the queues `level`, and for
no other. -/
def Ticks (s : State) (level : Nat → Fin 5) : Prop :=
  ∃ t, updatetime s = some t ∧ (∀ p, s.running p → t.proc p = (s.proc p).tick (level p)) ∧
    (∀ p, ¬ s.running p → t.proc p = s.proc p) ∧ t.queues = s.queues ∧
    ∀ p, s.running p → (t.proc p).ticksInQueues.toList.sum = (s.proc p).ticksInQueues.toList.sum + 1

/-- Only the process on the CPU that takes the tick runs, and its `cqueue` is still the queue it was
dispatched from. -/
def OwnTick (s : State) (level : Nat → Fin 5) : Prop :=
  ∃ m, s.current = some m ∧ (∀ p, s.running p ↔ p = m) ∧ (s.proc m).cqueue.toNat = level m

variable {s t : State} {level : Nat → Fin 5} {m n p q : Nat} {l : List Nat}

theorem runTick_idle (h : (s.proc p).state ≠ .running) : runTick s p = some s := if_neg h

theorem runTicks_fault (hbad : ∀ m, s.current = some m → 5 ≤ (s.proc m).cqueue.toNat) (hp : p ∈ l)
    (hrun : (s.proc p).state = .running) : l.foldlM runTick s = none := by
  induction l with
  | nil => cases hp
  | cons a l ih =>
    rw [List.foldlM_cons]
    by_cases ha : (s.proc a).state = .running
    · have hfault : runTick s a = none := by
        unfold runTick
        rw [if_pos ha]
        dsimp only
        cases hm : s.current with
        | none => simp [State.setProc, hm]
        | some m =>
          have h5 := hbad m hm
          have hcq : (if m = a then { s.proc a with cqueueTime := (s.proc a).cqueueTime + 1 } else s.proc m).cqueue =
              (s.proc m).cqueue := by
            split
            next he => rw [he]
            next => rfl
          simp only [State.setProc, hm, Function.update_apply, hcq]
          exact dif_neg (by omega)
      rw [hfault]
      rfl
    · rw [runTick_idle ha]
      rcases List.mem_cons.mp hp with rfl | hp
      · exact absurd hrun ha
      · exact ih hp

def ran (s : State) (n : Nat) : Nat := (List.range n).countP fun p => (s.proc p).state = .running

/-- After `n` slots: counter `q` of process `m` has taken the ticks of all the processes that run. -/
def ticked (s : State) (m : Nat) (q : Fin 5) (n : Nat) : State :=
  { s with proc := fun p =>
      { s.proc p with
        cqueueTime := (s.proc p).cqueueTime + if p < n ∧ (s.proc p).state = .running then 1 else 0
        ticksInQueues := if p = m then
            (s.proc p).ticksInQueues.set q ((s.proc p).ticksInQueues[q] + .ofNat (ran s n))
          else (s.proc p).ticksInQueues } }

theorem ticked_zero (q : Fin 5) : ticked s m q 0 = s := by
  cases s with
  | mk proc queues ticks nextpid initproc current =>
    unfold ticked
    congr 1
    funext p
    simp [ran]

theorem ran_succ : ran s (n + 1) = ran s n + if (s.proc n).state = .running then 1 else 0 := by
  simp [ran, List.range_succ]

theorem ticked_succ {q : Fin 5} (hm : s.current = some m) (hq : (s.proc m).cqueue.toNat = q) :
    runTick (ticked s m q n) n = some (ticked s m q (n + 1)) := by
  have hstate : ((ticked s m q n).proc n).state = (s.proc n).state := rfl
  by_cases hrun : (s.proc n).state = .running
  · unfold runTick
    rw [hstate, if_pos hrun]
    have hcur : (ticked s m q n).current = some m := hm
    have hcq : (((ticked s m q n).setProc n { (ticked s m q n).proc n with
        cqueueTime := ((ticked s m q n).proc n).cqueueTime + 1 }).proc m).cqueue.toNat = q := by
      rw [← hq]
      by_cases hmn : m = n
      · subst hmn
        simp [State.setProc, ticked]
      · simp [State.setProc, hmn, ticked]
    simp only [State.setProc] at hcq ⊢
    simp only [hcur, hcq, q.isLt, dite_true, Option.some.injEq]
    have hran : ran s (n + 1) = ran s n + 1 := by rw [ran_succ, if_pos hrun]
    unfold ticked
    congr 1
    · funext p
      rw [hran]
      by_cases hpm : p = m
      · subst hpm
        by_cases hpn : p = n
        · subst hpn
          simp [hrun, UInt32.ofNat_add, UInt32.add_assoc]
        · have hlt : p < n + 1 ↔ p < n := by omega
          simp [hpn, hlt, UInt32.ofNat_add, UInt32.add_assoc]
      · by_cases hpn : p = n
        · subst hpn
          simp [hpm, hrun]
        · have hlt : p < n + 1 ↔ p < n := by omega
          simp [hpm, hpn, hlt]
    · exact hm.symm
  · rw [runTick_idle (by rw [hstate]; exact hrun)]
    have hran : ran s (n + 1) = ran s n := by rw [ran_succ, if_neg hrun, Nat.add_zero]
    unfold ticked
    rw [hran]
    congr 2
    funext p
    by_cases hpn : p = n
    · subst hpn
      simp [hrun]
    · have hlt : p < n + 1 ↔ p < n := by omega
      simp [hlt]

theorem runTicks_eq {q : Fin 5} (hm : s.current = some m) (hq : (s.proc m).cqueue.toNat = q) :
    (List.range n).foldlM runTick s = some (ticked s m q n) := by
  induction n with
  | zero => rw [ticked_zero]; rfl
  | succ n ih =>
    rw [List.range_succ, List.foldlM_append, ih]
    change (runTick (ticked s m q n) n >>= fun t => some t) = _
    rw [ticked_succ hm hq]
    rfl

theorem ran_pos (hp : s.running p) : 0 < ran s NPROC := by
  refine List.countP_pos_iff.mpr ⟨p, List.mem_range.mpr hp.1, ?_⟩
  simpa using hp.2

theorem ran_le : ran s NPROC ≤ NPROC := by
  have := List.countP_le_length (p := fun p => decide ((s.proc p).state = .running)) (l := List.range NPROC)
  rwa [List.length_range] at this

theorem ran_one (h : ∀ p, s.running p ↔ p = m) : ran s NPROC = 1 := by
  have hm : m ∈ List.range NPROC := List.mem_range.mpr ((h m).mpr rfl).1
  have hcongr : ran s NPROC = (List.range NPROC).count m := by
    refine List.countP_congr fun p hp => ?_
    have := h p
    unfold State.running at this
    simp only [List.mem_range.mp hp, true_and] at this
    simp [this]
  rw [hcongr]
  exact List.count_eq_one_of_mem List.nodup_range hm

theorem add_ne_self {x y : UInt32} (h : y ≠ 0) : x + y ≠ x := by
  intro he
  apply h
  have := congrArg (· - x) he
  simpa [UInt32.add_comm x y] using this

theorem vector_set_ne {v : Vector UInt32 5} {q : Fin 5} {y : UInt32} (h : y ≠ 0) : v.set q (v[q] + y) ≠ v := by
  intro he
  have := congrArg (fun w : Vector UInt32 5 => w[q]) he
  simp only [Fin.getElem_fin, Vector.getElem_set_self] at this
  exact add_ne_self h this

theorem ofNat_ran_ne_zero (hp : s.running p) : UInt32.ofNat (ran s NPROC) ≠ 0 := by
  have hpos := ran_pos hp
  have hle := ran_le (s := s)
  intro he
  have := congrArg UInt32.toNat he
  simp only [NPROC] at hle hpos this
  simp at this
  omega

theorem sum_set_add_one {l : List UInt32} {i : Nat} (h : i < l.length) : (l.set i (l[i] + 1)).sum = l.sum + 1 := by
  induction l generalizing i with
  | nil => exact absurd h (Nat.not_lt_zero i)
  | cons x l ih =>
    cases i with
    | zero =>
      simp only [List.getElem_cons_zero, List.set_cons_zero, List.sum_cons]
      rw [UInt32.add_assoc, UInt32.add_comm 1, ← UInt32.add_assoc]
    | succ i =>
      simp only [List.getElem_cons_succ, List.set_cons_succ, List.sum_cons]
      rw [ih (Nat.lt_of_succ_lt_succ h), UInt32.add_assoc]

theorem tick_sum (v : Proc) (q : Fin 5) : (v.tick q).ticksInQueues.toList.sum = v.ticksInQueues.toList.sum + 1 := by
  have hq : q.val < v.ticksInQueues.toList.length := by simp
  have := sum_set_add_one hq
  rw [Proc.tick, Vector.toList_set]
  exact this

theorem ticks_iff : Ticks s level ↔ (∀ p, ¬ s.running p) ∨ OwnTick s level := by
  constructor
  · rintro ⟨t, ht, hrun, hidle, _⟩
    by_cases hnone : ∀ p, ¬ s.running p
    · exact .inl hnone
    right
    simp only [not_forall, not_not] at hnone
    obtain ⟨p, hp⟩ := hnone
    by_cases hbad : ∀ m, s.current = some m → 5 ≤ (s.proc m).cqueue.toNat
    · rw [updatetime, runTicks_fault hbad (List.mem_range.mpr hp.1) hp.2] at ht
      cases ht
    simp only [not_forall, Nat.not_le] at hbad
    obtain ⟨m, hm, h5⟩ := hbad
    obtain ⟨q, hq⟩ : ∃ q : Fin 5, (s.proc m).cqueue.toNat = q := ⟨⟨_, h5⟩, rfl⟩
    rw [updatetime, runTicks_eq hm hq] at ht
    cases ht
    -- the current process takes all the ticks, so it is the only one that may run
    have hmrun : s.running m := by
      by_contra hno
      have := congrArg Proc.ticksInQueues (hidle m hno)
      simp only [ticked, if_true] at this
      exact vector_set_ne (ofNat_ran_ne_zero hp) this
    have honly : ∀ p, s.running p ↔ p = m := by
      refine fun p => ⟨fun hp => ?_, fun he => he ▸ hmrun⟩
      by_contra hne
      have := congrArg Proc.ticksInQueues (hrun p hp)
      simp only [ticked, hne, if_false, Proc.tick] at this
      exact vector_set_ne (by decide) this.symm
    refine ⟨m, hm, honly, ?_⟩
    have hset := congrArg Proc.ticksInQueues (hrun m hmrun)
    simp only [ticked, if_true, Proc.tick, ran_one honly] at hset
    by_contra hne
    rw [hq] at hne
    have hval := congrArg (fun w : Vector UInt32 5 => w[q]) hset
    simp only [Fin.getElem_fin, Vector.getElem_set_self] at hval
    rw [Vector.getElem_set_ne _ _ (Ne.symm hne)] at hval
    exact add_ne_self (by decide) hval
  · rintro (hnone | ⟨m, hm, honly, hlevel⟩)
    · refine ⟨s, ?_, fun p hp => absurd hp (hnone p), fun _ _ => rfl, rfl, fun p hp => absurd hp (hnone p)⟩
      refine foldlM_fixed fun p hp => runTick_idle fun hst => hnone p ⟨List.mem_range.mp hp, hst⟩
    · have hown : ∀ p, s.running p → (ticked s m (level m) NPROC).proc p = (s.proc p).tick (level p) := by
        intro p hp
        have hpm := (honly p).mp hp
        subst hpm
        simp [ticked, Proc.tick, ran_one honly, hp.1, hp.2]
      refine ⟨_, runTicks_eq hm hlevel, hown, fun p hp => ?_, rfl, fun p hp => ?_⟩
      · have hpm : p ≠ m := fun he => hp ((honly p).mpr he)
        have hst : ¬ (p < NPROC ∧ (s.proc p).state = .running) := hp
        simp [ticked, hpm, hst]
      · rw [hown p hp, tick_sum]

/-- The first process is dispatched with `cqueue` -1: the tick goes to a counter far outside the five. -/
theorem first_tick_faults : ∃ s, machine.Reachable s ∧ s.running 0 ∧ ∀ level, ¬ Ticks s level := by
  have hview : (bootRun [.schedule]).map (fun s => (s.current, (s.proc 0).state, (s.proc 0).cqueue)) =
      some (some 0, .running, 4294967295) := by decide
  obtain ⟨s, hs, hv⟩ := Option.map_eq_some_iff.mp hview
  obtain ⟨s₀, hinit, hrun⟩ := Option.bind_eq_some_iff.mp hs
  obtain ⟨hcur, hst, hcq⟩ : s.current = some 0 ∧ (s.proc 0).state = .running ∧
      (s.proc 0).cqueue = 4294967295 := by simpa using hv
  refine ⟨s, Machine.Reachable.of_run ⟨0, hinit⟩ hrun, ⟨zero_lt_NPROC, hst⟩, fun level h => ?_⟩
  obtain ⟨t, ht, _⟩ := h
  rw [updatetime, runTicks_fault (p := 0) ?_ (List.mem_range.mpr zero_lt_NPROC) hst] at ht
  · cases ht
  · intro m hm
    cases hcur.symm.trans hm
    rw [hcq]
    decide

end TweakedXv6.Mlfq
