import TweakedXv6.WaitModel

namespace TweakedXv6.Wait

open Function (update update_self update_of_ne update_eq_self)

def killAt (proc : Nat → Proc) (i : Nat) : Nat → Proc :=
  update proc i { proc i with
    killed := true
    state := if (proc i).state = .sleeping then .runnable else (proc i).state }

def kill (proc : Nat → Proc) (pid : Int) : Int × (Nat → Proc) :=
  match (List.range NPROC).find? fun i => (proc i).pid = pid with
  | some i => (0, killAt proc i)
  | none => (-1, proc)

def HasPid (proc : Nat → Proc) (pid : Int) (i : Nat) : Prop :=
  i < NPROC ∧ (proc i).state ≠ .unused ∧ (proc i).pid = pid

def KillsOne (proc : Nat → Proc) (pid : Int) : Prop :=
  ((kill proc pid).1 = 0 ↔ ∃ i, HasPid proc pid i) ∧
  ((∃ i, HasPid proc pid i) → ∃ i, HasPid proc pid i ∧ ∀ k, k ≠ i → (kill proc pid).2 k = proc k) ∧
  ((¬ ∃ i, HasPid proc pid i) → (kill proc pid).1 = -1 ∧ (kill proc pid).2 = proc)

/-- The first slot with the pid is in use; or it is marked as killed already, and a process has the pid.
-/
def SparesUnused (proc : Nat → Proc) (pid : Int) : Prop :=
  ∀ i, ((List.range NPROC).find? fun i => (proc i).pid = pid) = some i →
    (proc i).state ≠ .unused ∨ (proc i).killed = true ∧ ∃ k, HasPid proc pid k

/-- The step in which `kill` comes to an unused slot with the pid. -/
def hitsUnused (s : State) : Act → Bool
  | .step p _ =>
    match s.pc p with
    | .killScan pid i => i < NPROC ∧ (s.proc i).pid = pid ∧ (s.proc i).state = .unused
    | _ => false
  | _ => false

variable {s t : State} {a : Act} {proc : Nat → Proc} {pid : Int} {p i j n : Nat} {v : Proc} {ok : Bool}

theorem killsOne_iff (proc : Nat → Proc) (pid : Int) : KillsOne proc pid ↔ SparesUnused proc pid := by
  unfold KillsOne SparesUnused
  cases hfind : (List.range NPROC).find? fun i => (proc i).pid = pid with
  | none =>
    have hnone : ¬ ∃ i, HasPid proc pid i := by
      rintro ⟨i, hi, _, hpid⟩
      have := List.find?_eq_none.mp hfind i (List.mem_range.mpr hi)
      simp [hpid] at this
    rw [kill, hfind]
    refine iff_of_true ⟨iff_of_false (by simp) hnone, fun h => absurd h hnone, fun _ => ⟨rfl, rfl⟩⟩ ?_
    intro i hi
    cases hi
  | some j =>
    have hj : j < NPROC := List.mem_range.mp (List.mem_of_find?_eq_some hfind)
    have hpid : (proc j).pid = pid := by simpa using List.find?_some hfind
    rw [kill, hfind]
    dsimp only
    by_cases hst : (proc j).state = .unused
    · constructor
      · rintro ⟨hzero, hone, _⟩ i hi
        cases hi
        have hex := hzero.mp rfl
        obtain ⟨k, hk, hsame⟩ := hone hex
        have hne : j ≠ k := by
          rintro rfl
          exact hk.2.1 hst
        have hself : (killAt proc j j).killed = (proc j).killed := congrArg Proc.killed (hsame j hne)
        rw [killAt, update_self] at hself
        exact .inr ⟨hself.symm, hex⟩
      · intro h
        obtain ⟨hkilled, k, hk⟩ := (h j rfl).resolve_left (not_not.mpr hst)
        have hself : killAt proc j = proc := by
          rw [killAt, if_neg (by simp [hst]), ← hkilled, update_eq_self]
        rw [hself]
        exact ⟨iff_of_true rfl ⟨k, hk⟩, fun _ => ⟨k, hk, fun _ _ => rfl⟩, fun hno => absurd ⟨k, hk⟩ hno⟩
    · have hex : ∃ i, HasPid proc pid i := ⟨j, hj, hst, hpid⟩
      refine iff_of_true ⟨iff_of_true rfl hex, fun _ => ⟨j, ⟨hj, hst, hpid⟩, ?_⟩, fun hno => absurd hex hno⟩ ?_
      · exact fun k hk => update_of_ne hk ..
      · intro i hi
        cases hi
        exact .inl hst

theorem killScan_step (hrun : (s.proc p).state = .running) (hpc : s.pc p = .killScan pid i) :
    machine.step s (.step p ok) = some (killSlot s p pid i) := by
  show (if (s.proc p).state = .running then Wait.nextSection s p ok else none) = _
  rw [if_pos hrun, Wait.nextSection, hpc]

theorem kill_sections_from (ok : Bool) (hrun : (s.proc p).state = .running) (hpc : s.pc p = .killScan pid i)
    (hi : i + n = NPROC) :
    ∃ m t, machine.run s (List.replicate m (.step p ok)) = some t ∧ t.pc p = .user ∧
      t.proc = ((List.range' i n).find? fun j => (s.proc j).pid = pid).elim s.proc (killAt s.proc) := by
  induction n generalizing s i with
  | zero =>
    have hend : killSlot s p pid i = s.setPc p .user := if_neg (by omega)
    refine ⟨1, s.setPc p .user, ?_, update_self .., rfl⟩
    rw [List.replicate_one, Machine.run, killScan_step hrun hpc, hend]
    rfl
  | succ n ih =>
    rw [List.range'_succ, List.find?_cons]
    by_cases hpid : (s.proc i).pid = pid
    · have hend : killSlot s p pid i = { s with proc := killAt s.proc i }.setPc p .user := by
        rw [Wait.killSlot, if_pos (by omega), if_pos hpid]
        rfl
      refine ⟨1, { s with proc := killAt s.proc i }.setPc p .user, ?_, update_self .., ?_⟩
      · rw [List.replicate_one, Machine.run, killScan_step hrun hpc, hend]
        rfl
      · simp only [hpid, decide_true]
        rfl
    · have hnext : killSlot s p pid i = s.setPc p (.killScan pid (i + 1)) := by
        rw [Wait.killSlot, if_pos (by omega), if_neg hpid]
      obtain ⟨m, t, ht, huser, hproc⟩ := ih (s := s.setPc p (.killScan pid (i + 1))) (i := i + 1) hrun
        (update_self ..) (by omega)
      refine ⟨m + 1, t, ?_, huser, ?_⟩
      · rw [List.replicate_succ, Machine.run, killScan_step hrun hpc, hnext]
        exact ht
      · rw [hproc]
        simp only [hpid, decide_false]
        rfl

theorem kill_sections (hrun : (s.proc p).state = .running) (hpc : s.pc p = .killScan pid 0) :
    ∃ m t, machine.run s (List.replicate m (.step p ok)) = some t ∧ t.pc p = .user ∧
      t.proc = (kill s.proc pid).2 := by
  obtain ⟨m, t, ht, huser, hproc⟩ := kill_sections_from ok hrun hpc (Nat.zero_add NPROC)
  refine ⟨m, t, ht, huser, ?_⟩
  rw [hproc, kill, List.range_eq_range']
  cases (List.range' 0 NPROC).find? fun j => (s.proc j).pid = pid <;> rfl

def Clean (s : State) : Prop :=
  ∀ i, (s.proc i).state = .unused → (s.proc i).killed = false ∧ (s.proc i).chan = none

section Clean

variable (h : Clean s)

include h

theorem Clean.congr (hp : t.proc = s.proc) : Clean t := by
  unfold Clean
  rw [hp]
  exact h

theorem Clean.setProc (hv : v.state = .unused → v.killed = false ∧ v.chan = none) :
    Clean (s.setProc j v) := by
  intro i hi
  by_cases hij : i = j
  · subst hij
    have hself : (s.setProc i v).proc i = v := update_self ..
    rw [hself] at hi ⊢
    exact hv hi
  · have hother : (s.setProc j v).proc i = s.proc i := update_of_ne hij ..
    rw [hother] at hi ⊢
    exact h i hi

theorem Clean.setState {st : ProcState} (hst : st ≠ .unused) : Clean (s.setState j st) :=
  h.setProc fun he => absurd he hst

theorem Clean.setParent {q : Option Nat} : Clean (s.setParent j q) := h.setProc (h j)

theorem Clean.freeproc : Clean (freeproc s j) := h.setProc fun _ => ⟨rfl, rfl⟩

theorem Clean.wakeupSlot {chan : Option Chan} : Clean (wakeupSlot s p chan j) := by
  unfold Wait.wakeupSlot
  split
  next => exact h.setState (by simp)
  next => exact h

theorem Clean.allocprocSlot : Clean (allocprocSlot s p i ok) := by
  have hfound : Clean (allocprocFound s i) :=
    (h.setProc (v := { s.proc i with pid := s.nextpid, state := .used }) fun he => by cases he).congr rfl
  unfold Wait.allocprocSlot
  split
  next =>
    split
    next =>
      split
      next => exact hfound.congr rfl
      next => exact hfound.freeproc.congr rfl
    next => exact h.congr rfl
  next => exact h.congr rfl

theorem Clean.waitScan {r : Reaper} {b : Bool} : Clean (waitScan s p r i b ok) := by
  unfold Wait.waitScan
  split
  next =>
    split
    next =>
      split
      next =>
        unfold reap
        split
        next => exact h.congr rfl
        next => exact (h.freeproc (j := i)).congr rfl
      next => exact h.congr rfl
    next => exact h.congr rfl
  next =>
    split
    next => exact h.congr rfl
    next =>
      have hsleep : Clean (s.setProc p { s.proc p with chan := some (.proc p), state := .sleeping }) :=
        h.setProc fun he => by cases he
      exact hsleep.congr rfl

theorem Clean.killSlot (hst : i < NPROC → (s.proc i).pid = pid → (s.proc i).state ≠ .unused) :
    Clean (killSlot s p pid i) := by
  unfold Wait.killSlot
  split
  next hi =>
    split
    next hpid =>
      refine (h.setProc (j := i) fun he => ?_).congr rfl
      dsimp only at he
      split at he
      next => cases he
      next => exact absurd he (hst hi hpid)
    next => exact h.congr rfl
  next => exact h.congr rfl

theorem Clean.nextSection (hrun : (s.proc p).state = .running)
    (hc : hitsUnused s (.step p ok) = false) (ht : nextSection s p ok = some t) : Clean t := by
  unfold Wait.nextSection at ht
  split at ht
  next => cases ht
  next i hpc =>
    cases ht
    exact h.allocprocSlot
  next np hpc =>
    obtain ⟨_, rfl⟩ := some_of_guard ht
    exact (h.setParent (j := np)).congr rfl
  next np hpc =>
    cases ht
    have hset : Clean (s.setState np .runnable) := h.setState (by simp)
    exact hset.congr rfl
  next status hpc =>
    obtain ⟨_, rfl⟩ := some_of_guard ht
    exact h.congr rfl
  next status i hpc =>
    cases ht
    unfold reparentSlot
    split
    next =>
      split
      next => exact (h.setParent (j := i)).congr rfl
      next => exact h.congr rfl
    next => exact h.congr rfl
  next status i j hpc =>
    cases ht
    unfold reparentWakeup
    split
    next => exact (h.wakeupSlot (j := j)).congr rfl
    next => exact h.congr rfl
  next status j hpc =>
    cases ht
    unfold exitWakeup
    split
    next => exact (h.wakeupSlot (j := j)).congr rfl
    next => exact h.congr rfl
  next status hpc =>
    cases ht
    have hzombie : Clean (s.setProc p { s.proc p with xstate := status, state := .zombie }) :=
      h.setProc fun he => by cases he
    exact hzombie.congr rfl
  next r hpc =>
    obtain ⟨_, rfl⟩ := some_of_guard ht
    exact h.congr rfl
  next r i b hpc =>
    cases ht
    exact h.waitScan
  next r hpc =>
    cases ht
    have hret : Clean (s.setProc p { s.proc p with chan := none }) :=
      h.setProc fun he => absurd (hrun.symm.trans he) (by simp)
    exact hret.congr rfl
  next pid i hpc =>
    cases ht
    refine h.killSlot fun hi hpid hst => ?_
    simp [hitsUnused, hpc, hi, hpid, hst] at hc
  next a j hpc =>
    cases ht
    unfold wakeupScan
    split
    next => exact (h.wakeupSlot (j := j)).congr rfl
    next => exact h.congr rfl
  next hpc =>
    cases ht
    have hret : Clean (s.setProc p { s.proc p with chan := none }) :=
      h.setProc fun he => absurd (hrun.symm.trans he) (by simp)
    exact hret.congr rfl

theorem Clean.act (hc : hitsUnused s a = false) (ht : act s a = some t) : Clean t := by
  cases a with
  | call p c =>
    simp only [Wait.act, Option.ite_none_right_eq_some] at ht
    obtain ⟨_, ht⟩ := ht
    cases c with
    | fork =>
      cases ht
      exact h.congr rfl
    | exit status =>
      simp only [enter, Option.ite_none_left_eq_some, Option.some.injEq] at ht
      obtain ⟨_, rfl⟩ := ht
      exact h.congr rfl
    | wait r =>
      cases ht
      exact h.congr rfl
    | kill pid =>
      cases ht
      exact h.congr rfl
    | wakeup b =>
      cases ht
      exact h.congr rfl
    | sleep b =>
      cases ht
      have hsleep : Clean (s.setProc p { s.proc p with chan := some (.addr b), state := .sleeping }) :=
        h.setProc fun he => by cases he
      exact hsleep.congr rfl
  | step p ok =>
    simp only [Wait.act, Option.ite_none_right_eq_some] at ht
    exact h.nextSection ht.1 hc ht.2
  | dispatch p =>
    obtain ⟨_, rfl⟩ := some_of_guard ht
    exact h.setState (by simp)
  | yield p =>
    obtain ⟨_, rfl⟩ := some_of_guard ht
    exact h.setState (by simp)

end Clean

theorem userinit_other (hi : i ≠ 0) : userinit.proc i = {} := by simp [userinit, hi]

theorem clean (h : machine.Reach (fun s a => hitsUnused s a = false) s) : Clean s := by
  refine Machine.Reach.invariant (I := Clean) ?_ ?_ h
  · rintro s rfl i _
    by_cases hi : i = 0
    · subst hi
      exact ⟨rfl, rfl⟩
    · rw [userinit_other hi]
      exact ⟨rfl, rfl⟩
  · exact fun s a t _ hclean hc hs => hclean.act hc hs

/-- `kill` is right exactly if it does not come to an unused slot first; in every run in which it never
does, a new process is neither killed nor on a channel. -/
theorem kill_exact (proc : Nat → Proc) (pid : Int) (h : machine.Reach (fun s a => hitsUnused s a = false) s) :
    (KillsOne proc pid ↔ SparesUnused proc pid) ∧
    ∀ p t i, act s (.step p true) = some t → s.pc p = .allocproc i → i < NPROC → (s.proc i).state = .unused →
      (t.proc i).state = .used ∧ (t.proc i).killed = false ∧ (t.proc i).chan = none := by
  refine ⟨killsOne_iff proc pid, fun p t i ht hpc hi hst => ?_⟩
  simp only [act, Option.ite_none_right_eq_some] at ht
  obtain ⟨_, ht⟩ := ht
  rw [nextSection, hpc] at ht
  cases ht
  have hproc : (allocprocSlot s p i true).proc i = { s.proc i with pid := s.nextpid, state := .used } := by
    rw [allocprocSlot, if_pos hi, if_pos hst]
    exact update_self ..
  rw [hproc]
  exact ⟨rfl, clean h i hst⟩

theorem kill_exact_fork : ∃ s t, machine.Reach (fun s a => hitsUnused s a = false) s ∧
    act s (.step 0 true) = some t ∧ (t.proc 1).killed = false ∧ KillsOne s.proc 1 := by
  have hmeets : machine.Meets (fun s a => hitsUnused s a = false) userinit
      [.dispatch 0, .call 0 .fork, .step 0 true] := by decide
  have hrun : ((machine.run userinit [.dispatch 0, .call 0 .fork, .step 0 true]).any fun s =>
      s.pc 0 = .allocproc 1 ∧ (s.proc 1).state = .unused ∧ (s.proc 0).state = .running ∧ (s.proc 0).pid = 1) = true := by
    decide
  obtain ⟨s, hs, hpc, hst, hrunning, hpid⟩ := exists_of_any hrun
  have hreach := Machine.Reach.of_run (M := machine) (.start rfl) hmeets hs
  have hact : act s (.step 0 true) = some (allocprocSlot s 0 1 true) := by
    show (if (s.proc 0).state = .running then nextSection s 0 true else none) = _
    rw [if_pos hrunning, nextSection, hpc]
  have hspares : SparesUnused s.proc 1 := by
    intro i hi
    rw [List.range_eq_range', show NPROC = 63 + 1 from rfl, List.range'_succ, List.find?_cons, hpid] at hi
    cases hi
    exact .inl (by simp [hrunning])
  obtain ⟨hiff, hnew⟩ := kill_exact s.proc 1 hreach
  exact ⟨s, _, hreach, hact, (hnew 0 _ 1 hact hpc one_lt_NPROC hst).2.1, hiff.mpr hspares⟩

/-- `kill(0)` marks an unused slot and returns 0, and the next process starts as killed. -/
theorem kill_unused : ¬ KillsOne userinit.proc 0 ∧ (kill userinit.proc 0).1 = 0 ∧
    ∃ s, machine.Reachable s ∧ (s.proc 1).state = .used ∧ (s.proc 1).killed = true := by
  have hzero : (kill userinit.proc 0).1 = 0 := by decide +kernel
  refine ⟨fun h => ?_, hzero, ?_⟩
  · obtain ⟨i, _, hst, hpid⟩ := h.1.mp hzero
    by_cases hi : i = 0
    · subst hi
      cases hpid
    · exact hst (by rw [userinit_other hi])
  · have hrun : ((machine.run userinit [.dispatch 0, .call 0 (.kill 0), .step 0 true, .step 0 true,
        .call 0 .fork, .step 0 true, .step 0 true]).any fun s =>
          (s.proc 1).state = .used ∧ (s.proc 1).killed = true) = true := by decide
    obtain ⟨s, hs, hfacts⟩ := exists_of_any hrun
    exact ⟨s, Machine.Reachable.of_run (M := machine) rfl hs, hfacts⟩

end TweakedXv6.Wait
