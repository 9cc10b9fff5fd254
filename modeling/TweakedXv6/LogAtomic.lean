import TweakedXv6.LogRecovery

namespace TweakedXv6.Log

open RedoLog

variable {sb : Super} {base : Nat → Block} {s t : State} {op : Nat} {u : Update}

def updatesOf (op : Nat) (us : List Update) : List Update := us.filter fun u => u.op = op

/-- One transaction has all updates the operation ever made, and no other one has any. -/
def InOneGroup (s : State) (op : Nat) : Prop :=
  ∃ pre g post, s.committed = pre ++ g :: post ∧ updatesOf op g = updatesOf op s.history ∧
    ∀ g' ∈ pre ++ post, updatesOf op g' = []

def InNoGroup (s : State) (op : Nat) : Prop := ∀ g ∈ s.committed, updatesOf op g = []

/-- All updates of an operation are in the running transaction, or it has ended or was cut off by a crash
and is in one committed transaction or in none. -/
def Fate (s : State) (op : Nat) : Prop :=
  updatesOf op s.history = updatesOf op s.group ∧ InNoGroup s op ∨
  op ∉ s.active ∧ updatesOf op s.group = [] ∧ (InOneGroup s op ∨ InNoGroup s op)

structure Atomic (s : State) : Prop where
  fate : ∀ op, Fate s op
  active : ∀ op ∈ s.active, op < s.nextOp
  history : ∀ u ∈ s.history, u.op < s.nextOp
  group : ∀ u ∈ s.group, u.op < s.nextOp
  committed : ∀ g ∈ s.committed, ∀ u ∈ g, u.op < s.nextOp

theorem updatesOf_eq_nil {us : List Update} (h : ∀ u ∈ us, u.op ≠ op) : updatesOf op us = [] :=
  List.filter_eq_nil_iff.mpr fun u hu => by simpa using h u hu

theorem Atomic.congr (h : Atomic s) (ha : t.active = s.active) (hn : t.nextOp = s.nextOp) (hg : t.group = s.group)
    (hc : t.committed = s.committed) (hh : t.history = s.history) : Atomic t := by
  obtain ⟨h1, h2, h3, h4, h5⟩ := h
  refine ⟨fun op => ?_, ha ▸ hn ▸ h2, hh ▸ hn ▸ h3, hg ▸ hn ▸ h4, hc ▸ hn ▸ h5⟩
  have := h1 op
  simpa only [Fate, InOneGroup, InNoGroup, ha, hg, hc, hh] using this

theorem atomic_beginOp (h : Atomic s) (ht : beginOp s = some t) : Atomic t := by
  unfold beginOp at ht
  obtain ⟨_, ht⟩ := Option.ite_none_left_eq_some.mp ht
  obtain ⟨_, ht⟩ := Option.ite_none_left_eq_some.mp ht
  cases ht
  have hlt : ∀ {n}, n < s.nextOp → n < s.nextOp + 1 := fun hn => Nat.lt_succ_of_lt hn
  refine ⟨fun op => ?_, ?_, fun u hu => hlt (h.history u hu), fun u hu => hlt (h.group u hu),
    fun g hg u hu => hlt (h.committed g hg u hu)⟩
  · by_cases hop : op = s.nextOp
    · -- the new operation has made no update yet
      refine .inl ⟨?_, fun g hg => ?_⟩
      · rw [updatesOf_eq_nil fun u hu => Nat.ne_of_lt (hop ▸ h.history u hu),
          updatesOf_eq_nil fun u hu => Nat.ne_of_lt (hop ▸ h.group u hu)]
      · exact updatesOf_eq_nil fun u hu => Nat.ne_of_lt (hop ▸ h.committed g hg u hu)
    · refine (h.fate op).imp id fun ⟨hact, hrest⟩ => ⟨?_, hrest⟩
      simp [hop, hact]
  · intro op hop
    rcases List.mem_cons.mp hop with rfl | hop
    · exact Nat.lt_succ_self _
    · exact hlt (h.active op hop)

theorem atomic_logWrite (h : Atomic s) (hop : u.op ∈ s.active) (ht : logWrite sb s u = some t) : Atomic t := by
  unfold logWrite at ht
  obtain ⟨_, ht⟩ := Option.ite_none_left_eq_some.mp ht
  obtain ⟨_, ht⟩ := Option.ite_none_left_eq_some.mp ht
  cases ht
  have hu := h.active u.op hop
  have hnew : ∀ {us : List Update}, (∀ v ∈ us, v.op < s.nextOp) →
      ∀ v ∈ us ++ [u], v.op < s.nextOp := by
    intro us hus v hv
    rcases List.mem_append.mp hv with hv | hv
    · exact hus v hv
    · exact List.mem_singleton.mp hv ▸ hu
  refine ⟨fun op => ?_, h.active, hnew h.history, hnew h.group, h.committed⟩
  by_cases he : u.op = op
  · subst he
    rcases h.fate u.op with ⟨hrun, hno⟩ | ⟨hact, _⟩
    · refine .inl ⟨?_, hno⟩
      simp only [updatesOf, List.filter_append] at hrun ⊢
      rw [hrun]
    · exact absurd hop hact
  · have hskip : ∀ us : List Update, updatesOf op (us ++ [u]) = updatesOf op us := by
      intro us
      simp [updatesOf, List.filter_append, he]
    simpa only [Fate, InOneGroup, InNoGroup, hskip] using h.fate op

theorem atomic_endOp (h : Atomic s) (ht : endOp s op = some t) : Atomic t := by
  have hsub : ∀ {o}, o ∈ s.active.erase op → o ∈ s.active := fun ho => List.mem_of_mem_erase ho
  have hends : ∀ o, Fate { s with active := s.active.erase op } o := fun o =>
    (h.fate o).imp id fun ⟨hact, hrest⟩ => ⟨fun ho => hact (hsub ho), hrest⟩
  have hs : Atomic { s with active := s.active.erase op } :=
    ⟨hends, fun o ho => h.active o (hsub ho), h.history, h.group, h.committed⟩
  unfold endOp at ht
  dsimp only at ht
  obtain ⟨_, ht⟩ := Option.ite_none_left_eq_some.mp ht
  split at ht
  next => exact Option.some.inj ht ▸ hs.congr rfl rfl rfl rfl rfl
  next => exact Option.some.inj ht ▸ hs.congr rfl rfl rfl rfl rfl

/-- When the header is written no operation is in progress, so each one in the transaction is there as a
whole. -/
theorem atomic_writeHead (h : Atomic s) (hact : s.active = []) (hg : t.group = [])
    (ha : t.active = s.active) (hn : t.nextOp = s.nextOp)
    (hc : t.committed = s.committed ++ [s.group]) (hh : t.history = s.history) : Atomic t := by
  refine ⟨fun op => .inr ⟨by simp [ha, hact], by simp [hg, updatesOf], ?_⟩, by simp [ha, hact],
    hh ▸ hn ▸ h.history, by simp [hg], ?_⟩
  · rcases h.fate op with ⟨hrun, hno⟩ | ⟨_, hgroup, ⟨pre, g, post, heq, hall, hrest⟩ | hno⟩
    · refine .inl ⟨s.committed, s.group, [], hc, by rw [hh, hrun], ?_⟩
      simpa [InNoGroup] using hno
    · refine .inl ⟨pre, g, post ++ [s.group], by simp [hc, heq], by rw [hh, hall], ?_⟩
      intro g' hg'
      rcases List.mem_append.mp hg' with hg' | hg'
      · exact hrest g' (List.mem_append.mpr (.inl hg'))
      · rcases List.mem_append.mp hg' with hg' | hg'
        · exact hrest g' (List.mem_append.mpr (.inr hg'))
        · exact List.mem_singleton.mp hg' ▸ hgroup
    · refine .inr fun g hg => ?_
      rw [hc] at hg
      rcases List.mem_append.mp hg with hg | hg
      · exact hno g hg
      · exact List.mem_singleton.mp hg ▸ hgroup
  · intro g hg
    rw [hc] at hg
    rw [hn]
    rcases List.mem_append.mp hg with hg | hg
    · exact h.committed g hg
    · exact List.mem_singleton.mp hg ▸ h.group

theorem atomic_crash (h : Atomic s) : Atomic (crash s) := by
  refine ⟨fun op => .inr ⟨by simp [crash], by simp [crash, updatesOf], ?_⟩, by simp [crash],
    h.history, by simp [crash], h.committed⟩
  rcases h.fate op with ⟨_, hno⟩ | ⟨_, _, hrest⟩
  · exact .inr hno
  · exact hrest

theorem atomic_installStep {tail : Nat} {pc pc' : Pc} (h : Atomic s) : Atomic (installStep sb s tail pc pc') := by
  unfold installStep
  split <;> exact h.congr rfl rfl rfl rfl rfl

theorem atomic_advance (hi : Inv sb base s) (h : Atomic s) (ht : advance sb s = some t) : Atomic t := by
  unfold advance at ht
  split at ht
  next => simp at ht
  next => split at ht <;> exact Option.some.inj ht ▸ h.congr rfl rfl rfl rfl rfl
  next hpc =>
    exact Option.some.inj ht ▸ atomic_writeHead h (hi.quiet (by simp [hpc])) rfl rfl rfl rfl rfl
  next => exact Option.some.inj ht ▸ atomic_installStep h
  next => exact Option.some.inj ht ▸ h.congr rfl rfl rfl rfl rfl
  next => exact Option.some.inj ht ▸ h.congr rfl rfl rfl rfl rfl
  next => exact Option.some.inj ht ▸ h.congr rfl rfl rfl rfl rfl
  next => exact Option.some.inj ht ▸ atomic_installStep h
  next => exact Option.some.inj ht ▸ h.congr rfl rfl rfl rfl rfl

theorem atomic_act {a : Act} (hi : Inv sb base s) (h : Atomic s) (ht : act sb s a = some t) : Atomic t := by
  cases a with
  | beginOp =>
    simp only [act] at ht
    obtain ⟨_, ht⟩ := Option.ite_none_left_eq_some.mp ht
    exact atomic_beginOp h ht
  | logWrite u =>
    simp only [act] at ht
    obtain ⟨hu, ht⟩ := Option.ite_none_right_eq_some.mp ht
    exact atomic_logWrite h hu.1 ht
  | endOp op =>
    simp only [act] at ht
    obtain ⟨_, ht⟩ := Option.ite_none_right_eq_some.mp ht
    exact atomic_endOp h ht
  | advance => exact atomic_advance hi h ht
  | crash => exact Option.some.inj ht ▸ atomic_crash h

theorem reachable_atomic (h : (machine sb base).Reachable s) : Atomic s := by
  refine Machine.Reach.invariant ?_
    (fun _ _ _ reach hs _ ht => atomic_act (reachable_inv reach) hs ht) h
  rintro _ ⟨_, rfl⟩
  refine ⟨fun op => .inl ⟨rfl, fun g hg => ?_⟩, ?_, ?_, ?_, ?_⟩ <;> simp_all [boot]

theorem run_recoverInstall (sb : Super) (base : Nat → Block) {k n : Nat} (hpc : s.pc = .recoverInstall k)
    (hlen : k + n = s.lh.length) (hmem : s.mem = s.disk) :
    ∃ t, (machine sb base).run s (List.replicate (n + 2) .advance) = some t ∧ t.pc = .idle ∧
      ∃ d, d = (List.range' k n).foldl (RedoLog.installAt sb.layout s.lh) s.disk ∧
        t.disk = Function.update d sb.logstart (headerWith (d sb.logstart) []) := by
  induction n generalizing s k with
  | zero =>
    have hend : s.lh[k]? = none := List.getElem?_eq_none_iff.mpr (by omega)
    refine ⟨{ writeHead sb { s with lh := [], pc := .recoverClear } with pc := .idle }, ?_, rfl,
      s.disk, rfl, ?_⟩
    · simp [Machine.run, machine, act, advance, hpc, installStep, hend, List.replicate_succ]
    · simp [writeHead, State.bwrite, hmem]
  | succ n ih =>
    have hat : s.lh[k]? = some s.lh[k] := List.getElem?_eq_getElem (by omega)
    have hstep : advance sb s = some { s.bwrite s.lh[k] (s.mem (sb.logstart + k + 1)) with
        pc := .recoverInstall (k + 1) } := by
      simp [advance, hpc, installStep, hat]
    obtain ⟨t, hrun, hidle, d, hd, hdisk⟩ := ih (k := k + 1)
      (s := { s.bwrite s.lh[k] (s.mem (sb.logstart + k + 1)) with pc := .recoverInstall (k + 1) })
      rfl (by simp only [State.bwrite]; omega) (by simp [State.bwrite, hmem])
    refine ⟨t, ?_, hidle, d, ?_, hdisk⟩
    · rw [show n + 1 + 2 = (n + 2) + 1 by omega, List.replicate_succ]
      simpa [Machine.run, machine, act, hstep] using hrun
    · rw [hd, List.range'_succ, List.foldl_cons, RedoLog.installAt, hat, hmem]
      rfl

theorem run_recovery (s : State) :
    ∃ n t, (machine sb base).run (crash s) (List.replicate n .advance) = some t ∧ t.pc = .idle ∧
      t.disk = recoverFromLog sb s.disk := by
  obtain ⟨t, hrun, hidle, d, hd, hdisk⟩ := run_recoverInstall sb base (k := 0)
    (n := (headerBlocks (s.disk sb.logstart)).length)
    (s := { crash s with lh := headerBlocks (s.disk sb.logstart), pc := .recoverInstall 0 })
    rfl (by simp) rfl
  refine ⟨(headerBlocks (s.disk sb.logstart)).length + 2 + 1, t, ?_, hidle, ?_⟩
  · rw [List.replicate_succ]
    simpa [Machine.run, machine, act, advance, crash] using hrun
  · rw [hdisk, hd, recoverFromLog, RedoLog.install, List.range_eq_range']
    rfl

theorem recoverFromLog_idem (sb : Super) (disk : Nat → Block) :
    recoverFromLog sb (recoverFromLog sb disk) = recoverFromLog sb disk := by
  have hhead : ∀ d : Nat → Block, recoverFromLog sb d sb.logstart =
      headerWith (RedoLog.install sb.layout (headerBlocks (d sb.logstart)) d sb.logstart) [] := by
    intro d
    simp [recoverFromLog]
  have hempty : headerBlocks (recoverFromLog sb disk sb.logstart) = [] := by
    rw [hhead, headerBlocks_headerWith]
  have hclear : ∀ h : Block, headerWith (headerWith h []) [] = headerWith h [] := by
    intro h
    funext w
    by_cases hw : w = 0 <;> simp [headerWith, hw]
  rw [recoverFromLog, hempty]
  refine Function.update_eq_self_iff.mpr ?_
  change headerWith (recoverFromLog sb disk sb.logstart) [] = recoverFromLog sb disk sb.logstart
  rw [hhead, hclear]

/-- Recovery leaves exactly the transactions whose header was written, each operation as a whole or not
at all; recovering again changes nothing. -/
theorem crash_safe (h : (machine sb base).Reachable s) :
    (∃ n t, (machine sb base).run (crash s) (List.replicate n .advance) = some t ∧ t.pc = .idle ∧
      t.disk = recoverFromLog sb s.disk) ∧
    (∀ b, sb.Home b → recoverFromLog sb s.disk b = contents base s.committed b) ∧
    (∀ op, InOneGroup s op ∨ InNoGroup s op) ∧
    recoverFromLog sb (recoverFromLog sb s.disk) = recoverFromLog sb s.disk := by
  refine ⟨run_recovery s, fun b hb => ?_, fun op => ?_, recoverFromLog_idem sb s.disk⟩
  · have hne : b ≠ sb.logstart := fun he => logstart_not_home (he ▸ hb)
    rw [recoverFromLog, Function.update_of_ne hne]
    exact (reachable_inv h).logged.install hb
  · rcases (reachable_atomic h).fate op with ⟨_, hno⟩ | ⟨_, _, hrest⟩
    · exact .inr hno
    · exact hrest

def oneCommit : List Act :=
  List.replicate 3 .advance ++ [.beginOp, .logWrite ⟨0, 40, fun _ => 7⟩, .endOp 0] ++
  List.replicate 3 .advance

theorem crash_safe_oneCommit : ∃ s, (machine mkfsSuper fun _ _ => 0).run (boot fun _ _ => 0) oneCommit = some s ∧
      s.disk 40 0 = 0 ∧ contents (fun _ _ => 0) s.committed 40 0 = 7 ∧
      recoverFromLog mkfsSuper s.disk 40 0 = 7 := by
  have hview : ((machine mkfsSuper fun _ _ => 0).run (boot fun _ _ => 0) oneCommit).map
      (fun s => (s.disk 40 0, contents (fun _ _ => 0) s.committed 40 0)) = some (0, 7) := by decide
  obtain ⟨s, hs, hv⟩ := Option.map_eq_some_iff.mp hview
  obtain ⟨hdisk, hcontents⟩ := Prod.mk.inj hv
  have hsafe := crash_safe (Machine.Reachable.of_run ⟨rfl, rfl⟩ hs)
  refine ⟨s, hs, hdisk, hcontents, ?_⟩
  rw [hsafe.2.1 40 (by decide), hcontents]

/-- Outside of recovery a block reads as all committed transactions and the running one leave it, `outstanding`
counts the operations in progress, and none is in progress during a commit. -/
theorem log_reads (h : (machine sb base).Reachable s) (hrec : s.pc.recovering = false) :
    (∀ b, sb.Home b → s.mem b = replay (contents base s.committed) (s.group.map Update.write) b) ∧
    s.outstanding = s.active.length ∧ (s.pc ≠ .idle → s.committing = true ∧ s.active = []) := by
  have hi := reachable_inv h
  have hphase := hi.phase
  refine ⟨fun b hb => ?_, hi.count, fun hpc => ⟨hi.busy hpc hrec, hi.quiet hpc⟩⟩
  have hclean (hc : Clean sb (contents base s.committed) s) :
      s.mem b = replay (contents base s.committed) (s.group.map Update.write) b := by
    rw [hc.1]
    exact hc.2 b hb
  unfold PhaseOk at hphase
  split at hphase
  next => exact hphase.mem b hb
  next => exact hphase.1.mem b hb
  next => exact hphase.1.mem b hb
  next => exact hclean hphase.2.1
  next => exact hclean hphase.2.1
  next => exact hphase.2.mem b hb
  all_goals
    next hpc =>
      rw [hpc] at hrec
      cases hrec

theorem log_reads_oneCommit : ∃ s, (machine mkfsSuper fun _ _ => 0).run (boot fun _ _ => 0) oneCommit = some s ∧
    s.mem 40 = replay (contents (fun _ _ => 0) s.committed) (s.group.map Update.write) 40 := by
  have hrun : (((machine mkfsSuper fun _ _ => 0).run (boot fun _ _ => 0) oneCommit).any
      fun s => !s.pc.recovering) = true := by decide
  obtain ⟨s, hs, hrec⟩ := (Option.any_eq_true _ _).mp hrun
  exact ⟨s, hs, (log_reads (.of_run ⟨rfl, rfl⟩ hs) (by simpa using hrec)).1 40 (by decide)⟩

end TweakedXv6.Log
