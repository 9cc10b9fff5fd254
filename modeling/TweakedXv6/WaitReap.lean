import TweakedXv6.WaitSections

namespace TweakedXv6.Wait

variable {s t : State} {p q i j k np : Nat} {c : Pc} {v : Proc} {r : Reaper}
  {status : Int} {l : Option Nat}

/-- Newest event first: every child exits at most once and is reaped at most once, after its exit, by the
process its parent pointer named then, with its pid and the status it passed to `exit`. -/
def Honest : List Event → Prop
  | [] => True
  | .exited child gen _ _ :: es =>
    (∀ pid status, .exited child gen pid status ∉ es) ∧ Honest es
  | .reaped waiter parent child gen pid status :: es =>
    parent = some waiter ∧ .exited child gen pid status ∈ es ∧
      (∀ w q pid status, .reaped w q child gen pid status ∉ es) ∧ Honest es

/-- Past uses of a slot are over, and a ZOMBIE is waiting with what it passed to `exit`. -/
structure History (s : State) : Prop where
  honest : Honest s.events
  exited : ∀ k gen pid status, .exited k gen pid status ∈ s.events → gen < s.gen k ∨
    gen = s.gen k ∧ ((s.proc k).state = .zombie ∨ (s.proc k).state = .unused)
  reaped : ∀ w q k gen pid status, .reaped w q k gen pid status ∈ s.events → gen < s.gen k ∨
    gen = s.gen k ∧ (s.proc k).state = .unused
  zombie : ∀ k, (s.proc k).state = .zombie →
    .exited k (s.gen k) (s.proc k).pid (s.proc k).xstate ∈ s.events

section History

variable (h : History s)

include h

theorem History.congr (hgen : t.gen = s.gen) (hev : t.events = s.events)
    (hkeep : ∀ k, (s.proc k).state = .zombie ∨ (s.proc k).state = .unused →
      (t.proc k).state = (s.proc k).state)
    (hzombie : ∀ k, (t.proc k).state = .zombie → (s.proc k).state = .zombie ∧
      (t.proc k).pid = (s.proc k).pid ∧ (t.proc k).xstate = (s.proc k).xstate) : History t where
  honest := hev ▸ h.honest
  exited k gen pid status he := by
    rw [hev] at he
    rw [hgen]
    refine (h.exited k gen pid status he).imp_right fun hk => ⟨hk.1, ?_⟩
    rw [hkeep k hk.2]
    exact hk.2
  reaped w q k gen pid status he := by
    rw [hev] at he
    rw [hgen]
    refine (h.reaped w q k gen pid status he).imp_right fun hk => ⟨hk.1, ?_⟩
    rw [hkeep k (.inr hk.2)]
    exact hk.2
  zombie k hk := by
    obtain ⟨hz, hpid, hx⟩ := hzombie k hk
    rw [hev, hgen, hpid, hx]
    exact h.zombie k hz

theorem history_setPc : History (s.setPc p c) :=
  h.congr rfl rfl (fun _ _ => rfl) fun _ hk => ⟨hk, rfl, rfl⟩

theorem history_move : History (s.move p c l) :=
  h.congr rfl rfl (fun _ _ => rfl) fun _ hk => ⟨hk, rfl, rfl⟩

theorem history_setProc
    (hv : v.state = (s.proc j).state ∧ v.pid = (s.proc j).pid ∧ v.xstate = (s.proc j).xstate ∨
      (v.state ≠ .zombie ∧ (s.proc j).state ≠ .zombie ∧ (s.proc j).state ≠ .unused)) :
    History (s.setProc j v) := by
  refine h.congr rfl rfl ?_ ?_
  · intro k hk
    rw [setProc_proc]
    grind
  · intro k hk
    rw [setProc_proc] at hk ⊢
    grind

theorem history_wakeupSlot {chan : Option Chan} : History (wakeupSlot s p chan j) := by
  unfold wakeupSlot
  split
  next hj => exact history_setProc h (.inr ⟨by simp, by simp [hj.2.1], by simp [hj.2.1]⟩)
  next => exact h

theorem history_allocprocFound : History (allocprocFound s i) := by
  have hgen : ∀ k, (allocprocFound s i).gen k = if k = i then s.gen i + 1 else s.gen k :=
    fun k => by simp [allocprocFound, Function.update_apply]
  have hproc : ∀ k, (allocprocFound s i).proc k =
      if k = i then { s.proc i with pid := s.nextpid, state := .used } else s.proc k :=
    fun k => setProc_proc
  constructor
  case honest => exact h.honest
  case exited =>
    intro k gen pid status he
    have := h.exited k gen pid status he
    rw [hgen, hproc]
    grind
  case reaped =>
    intro w q k gen pid status he
    have := h.reaped w q k gen pid status he
    rw [hgen, hproc]
    grind
  case zombie =>
    intro k hk
    have := h.zombie k
    rw [hproc] at hk ⊢
    rw [hgen]
    split at hk
    next => simp at hk
    next hki =>
      simp only [hki, if_false]
      exact this hk

theorem history_allocprocSlot {mem : Bool} : History (allocprocSlot s p i mem) := by
  unfold allocprocSlot
  split
  next =>
    split
    next =>
      have hs := history_allocprocFound (i := i) h
      split
      next => exact history_setPc hs
      next =>
        refine history_setPc (history_setProc hs (.inr ?_))
        have hst : ((allocprocFound s i).proc i).state = .used := by
          simp [allocprocFound]
        simp [hst]
    next => exact history_setPc h
  next => exact history_setPc h

theorem history_exitZombie (hp : (s.proc p).state = .running) : History (exitZombie s p status) := by
  have hproc : ∀ k, (exitZombie s p status).proc k =
      if k = p then { s.proc p with xstate := status, state := .zombie } else s.proc k :=
    fun k => setProc_proc
  -- a running process has not exited in this use of its slot
  have hfresh : ∀ pid status, .exited p (s.gen p) pid status ∉ s.events := by
    intro pid status' he
    have := h.exited p (s.gen p) pid status' he
    simp [hp] at this
  constructor
  case honest => exact ⟨hfresh, h.honest⟩
  case exited =>
    intro k gen pid status' he
    rw [hproc]
    change gen < s.gen k ∨ gen = s.gen k ∧ _
    rcases List.mem_cons.mp he with he | he
    · cases he
      simp
    · have := h.exited k gen pid status' he
      grind
  case reaped =>
    intro w q k gen pid status' he
    rw [hproc]
    change gen < s.gen k ∨ gen = s.gen k ∧ _
    rcases List.mem_cons.mp he with he | he
    · simp at he
    · have := h.reaped w q k gen pid status' he
      grind
  case zombie =>
    intro k hk
    rw [hproc] at hk ⊢
    change .exited k (s.gen k) _ _ ∈ .exited p (s.gen p) (s.proc p).pid status :: s.events
    split at hk
    next hkp => simp [hkp]
    next hkp =>
      simp only [hkp, if_false]
      exact List.mem_cons_of_mem _ (h.zombie k hk)

theorem history_reap {ok : Bool} (hpar : (s.proc i).parent = some p)
    (hz : (s.proc i).state = .zombie) : History (reap s p r i ok) := by
  unfold reap
  split
  next => exact history_move h
  next =>
    have hfresh : ∀ w q pid status, .reaped w q i (s.gen i) pid status ∉ s.events := by
      intro w q pid status' he
      have := h.reaped w q i (s.gen i) pid status' he
      simp [hz] at this
    have hproc : ∀ k, (freeproc s i).proc k = if k = i then { s.proc i with
        pid := 0, parent := none, chan := none, killed := false, xstate := 0,
        state := .unused } else s.proc k :=
      fun k => setProc_proc
    constructor
    case honest => exact ⟨hpar, h.zombie i hz, hfresh, h.honest⟩
    case exited =>
      intro k gen pid status' he
      change gen < s.gen k ∨ gen = s.gen k ∧
        (((freeproc s i).proc k).state = .zombie ∨ ((freeproc s i).proc k).state = .unused)
      rw [hproc]
      rcases List.mem_cons.mp he with he | he
      · simp at he
      · have := h.exited k gen pid status' he
        grind
    case reaped =>
      intro w q k gen pid status' he
      change gen < s.gen k ∨ gen = s.gen k ∧ ((freeproc s i).proc k).state = .unused
      rw [hproc]
      rcases List.mem_cons.mp he with he | he
      · cases he
        simp
      · have := h.reaped w q k gen pid status' he
        grind
    case zombie =>
      intro k hk
      change ((freeproc s i).proc k).state = .zombie at hk
      change Event.exited k (s.gen k) ((freeproc s i).proc k).pid ((freeproc s i).proc k).xstate ∈
        .reaped p (s.proc i).parent i (s.gen i) (s.proc i).pid (s.proc i).xstate :: s.events
      rw [hproc] at hk ⊢
      split at hk
      next => simp at hk
      next hki => simpa [hki] using h.zombie k hk

theorem history_waitScan {b ok : Bool} (hp : (s.proc p).state = .running) :
    History (waitScan s p r i b ok) := by
  unfold waitScan
  split
  next =>
    split
    next hpar =>
      split
      next hz => exact history_reap h hpar hz
      next => exact history_setPc h
    next => exact history_setPc h
  next =>
    split
    next => exact history_move h
    next => exact history_move (history_setProc h (.inr ⟨by simp, by simp [hp], by simp [hp]⟩))

theorem history_killSlot {pid : Int} : History (killSlot s p pid i) := by
  unfold killSlot
  split
  next =>
    split
    next =>
      refine history_setPc (history_setProc h ?_)
      grind
    next => exact history_setPc h
  next => exact history_setPc h

end History

theorem history_nextSection {ok : Bool} (hi : Inv s) (h : History s)
    (hp : (s.proc p).state = .running) (ht : nextSection s p ok = some t) : History t := by
  unfold nextSection at ht
  split at ht
  next => simp at ht
  next => exact Option.some.inj ht ▸ history_allocprocSlot h
  next =>
    unfold forkParent at ht
    split at ht
    next => exact Option.some.inj ht ▸ history_setPc (history_setProc h (.inl ⟨rfl, rfl, rfl⟩))
    next => simp at ht
  next np hpc =>
    have hused := hi.forkee p np (by rw [hpc]; rfl)
    exact Option.some.inj ht ▸ history_setPc
      (history_setProc h (.inr ⟨by simp, by simp [hused], by simp [hused]⟩))
  next =>
    unfold exitLock at ht
    split at ht
    next => exact Option.some.inj ht ▸ history_move h
    next => simp at ht
  next =>
    cases ht
    unfold reparentSlot
    split
    next =>
      split
      next => exact history_setPc (history_setProc h (.inl ⟨rfl, rfl, rfl⟩))
      next => exact history_setPc h
    next => exact history_setPc h
  next =>
    cases ht
    unfold reparentWakeup
    split
    next => exact history_setPc (history_wakeupSlot h)
    next => exact history_setPc h
  next =>
    cases ht
    unfold exitWakeup
    split
    next => exact history_setPc (history_wakeupSlot h)
    next => exact history_setPc h
  next => exact Option.some.inj ht ▸ history_exitZombie h hp
  next =>
    unfold waitLock at ht
    split at ht
    next => exact Option.some.inj ht ▸ history_move h
    next => simp at ht
  next => exact Option.some.inj ht ▸ history_waitScan h hp
  next => exact Option.some.inj ht ▸ history_setPc (history_setProc h (.inl ⟨rfl, rfl, rfl⟩))
  next => exact Option.some.inj ht ▸ history_killSlot h
  next =>
    cases ht
    unfold wakeupScan
    split
    next => exact history_setPc (history_wakeupSlot h)
    next => exact history_setPc h
  next => exact Option.some.inj ht ▸ history_setPc (history_setProc h (.inl ⟨rfl, rfl, rfl⟩))

theorem history_act {a : Act} (hi : Inv s) (h : History s) (ht : act s a = some t) : History t := by
  cases a with
  | call p call =>
    simp only [act] at ht
    split at ht
    next hp =>
      cases call with
      | exit status =>
        simp only [enter] at ht
        split at ht
        next => simp at ht
        next => exact Option.some.inj ht ▸ history_setPc h
      | sleep a =>
        exact Option.some.inj ht ▸ history_setPc
          (history_setProc h (.inr ⟨by simp, by simp [hp.1], by simp [hp.1]⟩))
      | _ => exact Option.some.inj ht ▸ history_setPc h
    next => simp at ht
  | step p ok =>
    simp only [act] at ht
    split at ht
    next hp => exact history_nextSection hi h hp ht
    next => simp at ht
  | dispatch p =>
    simp only [act] at ht
    split at ht
    next hp =>
      exact Option.some.inj ht ▸ history_setProc h (.inr ⟨by simp, by simp [hp], by simp [hp]⟩)
    next => simp at ht
  | yield p =>
    simp only [act] at ht
    split at ht
    next hp =>
      exact Option.some.inj ht ▸ history_setProc h (.inr ⟨by simp, by simp [hp.1], by simp [hp.1]⟩)
    next => simp at ht

theorem reachable_history (h : machine.Reachable s) : History s := by
  refine Machine.Reach.invariant ?_
    (fun _ _ _ reach hs _ ht => history_act (reachable_inv reach) hs ht) h
  rintro _ rfl
  refine ⟨trivial, by simp [userinit], by simp [userinit], ?_⟩
  intro k hk
  simp only [userinit, Function.update_apply] at hk
  split at hk <;> simp at hk

/-- Every started process but `initproc` has a parent, no parent pointer leads to an UNUSED or ZOMBIE
process, and the whole history of exits and reapings is in order. -/
theorem family_tree (h : machine.Reachable s) :
    (∀ p, p ≠ s.initproc → (s.proc p).state ∈ [.runnable, .running, .sleeping, .zombie] →
      (s.proc p).parent ≠ none) ∧
    (∀ p q, (s.proc p).parent = some q → (s.proc q).state ≠ .unused ∧ (s.proc q).state ≠ .zombie) ∧
    Honest s.events := by
  have hi := reachable_inv h
  refine ⟨?_, ?_, (reachable_history h).honest⟩
  · intro p hp hst
    refine hi.orphan p hp ?_
    simp only [List.mem_cons, List.not_mem_nil, or_false] at hst
    rcases hst with hst | hst | hst | hst <;> simp [hst, ProcState.live]
  · intro p q hpq
    have := hi.parentLive p q hpq
    constructor <;> intro hq <;> simp [hq, ProcState.live] at this

def forkExitWait : List Act :=
  [.dispatch 0, .call 0 .fork] ++ List.replicate 4 (.step 0 true) ++
  [.dispatch 1, .call 1 (.exit 7)] ++ List.replicate 132 (.step 1 true) ++
  [.call 0 (.wait ⟨false, false⟩)] ++ List.replicate 3 (.step 0 true)

theorem family_tree_forkExitWait : ∃ s, machine.run userinit forkExitWait = some s ∧
    s.events = [.reaped 0 (some 0) 1 1 2 7, .exited 1 1 2 7] ∧ Honest s.events := by
  have hrun : (machine.run userinit forkExitWait).isSome := by decide +kernel
  obtain ⟨s, hs⟩ := Option.isSome_iff_exists.mp hrun
  refine ⟨s, hs, ?_, (family_tree (Machine.Reachable.of_run rfl hs)).2.2⟩
  have hev : ((machine.run userinit forkExitWait).map State.events) =
      some [.reaped 0 (some 0) 1 1 2 7, .exited 1 1 2 7] := by decide +kernel
  rw [hs] at hev
  exact Option.some.inj hev

end TweakedXv6.Wait
