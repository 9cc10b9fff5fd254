import TweakedXv6.SleepPipe

namespace TweakedXv6.Sleep

def Readers (s : State) (pi : Nat) : Prop :=
  ∀ p, SleepsOn s p (.nread pi) → (s.pipe pi).nread = (s.pipe pi).nwrite ∧ (s.pipe pi).writeopen = true

def Writers (s : State) (pi : Nat) : Prop :=
  ∀ p, SleepsOn s p (.nwrite pi) →
    (s.pipe pi).nwrite = uint ((s.pipe pi).nread + PIPESIZE) ∧ (s.pipe pi).readopen = true

def Writing (s : State) (pi : Nat) : Prop :=
  (s.pipe pi).readopen = true ∧ ∃ p src n i, s.pc p = .loop (.pipewrite pi src n i) ∧ (s.proc p).killed = false

def Copying (s : State) (pi : Nat) : Prop := ∃ p n room i, s.pc p = .loop (.pipereadCopy pi n room i)

def Waits (s : State) : Loop → Prop
  | .piperead pi .. => (s.pipe pi).nread = (s.pipe pi).nwrite ∧ (s.pipe pi).writeopen = true
  | .pipewrite pi .. => (s.pipe pi).nwrite = uint ((s.pipe pi).nread + PIPESIZE) ∧ (s.pipe pi).readopen = true
  | .pipereadCopy .. => False
  | _ => True

/-- Who sleeps on a pipe has a reason to, or the process in the pipe's loop will wake it. -/
structure Tidy (s : State) : Prop where
  reader : ∀ pi, Readers s pi ∨ Writing s pi
  writer : ∀ pi, Writers s pi ∨ Copying s pi
  sleepy : ∀ p c, s.pc p = .sleepy c → Waits s c

/-- `kill` marks a process between two iterations of `pipewrite`'s loop. -/
def killsInWrite (s : State) : Act → Bool
  | .step p =>
    match s.pc p with
    | .kill pid (q :: _) =>
      match s.pc q with
      | .loop (.pipewrite ..) => (s.proc q).pid = pid
      | _ => false
    | _ => false
  | _ => false

variable {s t : State} {p q : Fin NPROC} {c e : Loop} {a : Act} {r n : Int} {pi room i : Nat}
  {src : List UInt8} {ch : Chan}

theorem Boot.tidy (h : Boot s) : Tidy s := by
  have hno : ∀ p ch, ¬ SleepsOn s p ch := by
    rintro p ch ⟨hs, _⟩
    rw [h.proc p] at hs
    split at hs <;> cases hs
  exact ⟨fun pi => .inl fun p hp => absurd hp (hno p _), fun pi => .inl fun p hp => absurd hp (hno p _),
    fun p c hc => by simp [h.pc p] at hc⟩

theorem kills_write (hw : killsInWrite s a = false) (hq : s.pc q = .loop (.pipewrite pi src n i)) :
    kills s q a = false := by
  cases a with
  | step p =>
    unfold kills killsInWrite at *
    dsimp only at *
    generalize hd : s.pc p = d at *
    cases d with
    | kill pid rest =>
      cases rest with
      | nil => rfl
      | cons x rest =>
        dsimp only at hw ⊢
        by_cases hx : x = q
        · subst hx
          simpa [hq] using hw
        · simp [hx]
    | _ => rfl
  | _ => rfl

theorem Readers.congr (h : Readers s pi) (hpipe : t.pipe pi = s.pipe pi)
    (hsleep : ∀ q, SleepsOn t q (.nread pi) → SleepsOn s q (.nread pi)) : Readers t pi := by
  intro q hq
  rw [hpipe]
  exact h q (hsleep q hq)

theorem Writers.congr (h : Writers s pi) (hpipe : t.pipe pi = s.pipe pi)
    (hsleep : ∀ q, SleepsOn t q (.nwrite pi) → SleepsOn s q (.nwrite pi)) : Writers t pi := by
  intro q hq
  rw [hpipe]
  exact h q (hsleep q hq)

theorem Waits.congr (h : Waits s c) (hpipe : ∀ pi, c.lock = .pipe pi → t.pipe pi = s.pipe pi) : Waits t c := by
  cases c with
  | piperead pi n room =>
    rw [Waits, hpipe pi rfl]
    exact h
  | pipewrite pi src n i =>
    rw [Waits, hpipe pi rfl]
    exact h
  | pipereadCopy => exact h
  | _ => trivial

theorem Quiet.stays (h : Quiet a s t) (hs : (s.pc q).holds ≠ none) : t.pc q = s.pc q := by
  rcases h.pc q with he | he
  · exact he
  · generalize s.pc q = d at he hs
    generalize t.pc q = d' at he
    cases he with
    | leave hd => exact absurd hd hs
    | call _ hd =>
      subst hd
      exact absurd rfl hs
    | enter => exact absurd rfl hs
    | wake => exact absurd rfl hs

theorem Tidy.quiet (h : Tidy s) (hw : killsInWrite s a = false) (hq : Quiet a s t) : Tidy t where
  reader pi := by
    refine (h.reader pi).imp (fun hr => hr.congr (by rw [hq.pipe]) fun q => hq.asleep q _) ?_
    rintro ⟨hopen, p, src, n, i, hp, hk⟩
    refine ⟨by rwa [hq.pipe], p, src, n, i, ?_, ?_⟩
    · rw [hq.stays (by simp [hp, Pc.holds]), hp]
    · by_contra hkilled
      rcases hq.killed p (by simpa using hkilled) with hs | hs
      · simp [hk] at hs
      · simp [kills_write hw hp] at hs
  writer pi := by
    refine (h.writer pi).imp (fun hr => hr.congr (by rw [hq.pipe]) fun q => hq.asleep q _) ?_
    rintro ⟨p, n, room, i, hp⟩
    exact ⟨p, n, room, i, by rw [hq.stays (by simp [hp, Pc.holds]), hp]⟩
  sleepy p c hc := by
    have hs : s.pc p = .sleepy c := by
      rcases hq.pc p with he | he
      · rw [← he, hc]
      · rw [hc] at he
        generalize s.pc p = d at he
        cases he with
        | leave _ hno => simp [Pc.call] at hno
    exact (h.sleepy p c hs).congr fun pi _ => by rw [hq.pipe]

theorem sleepsOn_sleep (h : SleepsOn (sleep s p c) q ch) : q = p ∧ ch = c.chan p ∨ SleepsOn s q ch := by
  by_cases hq : q = p
  · subst hq
    exact .inl ⟨rfl, by simpa [SleepsOn, sleep, eq_comm] using h⟩
  · exact .inr (by simpa [SleepsOn, sleep, hq] using h)

theorem Tidy.sleep (h : Tidy s) (hpc : s.pc p = .sleepy c) : Tidy (sleep s p c) := by
  have hwait := h.sleepy p c hpc
  have hpcs : ∀ q d, q ≠ p → s.pc q = d → (Sleep.sleep s p c).pc q = d := by
    intro q d hq hd
    simp [Sleep.sleep, hq, hd]
  constructor
  case reader =>
    intro pi
    refine (h.reader pi).imp (fun hr q hq => ?_) ?_
    · rcases sleepsOn_sleep hq with ⟨rfl, hch⟩ | hs
      · cases c <;> cases hch
        · exact hwait
        · exact hwait.elim
      · exact hr q hs
    · rintro ⟨hopen, q, src, n, i, hq, hk⟩
      have hne : q ≠ p := by
        rintro rfl
        simp [hpc] at hq
      exact ⟨hopen, q, src, n, i, hpcs q _ hne hq, by simpa [Sleep.sleep, hne] using hk⟩
  case writer =>
    intro pi
    refine (h.writer pi).imp (fun hr q hq => ?_) ?_
    · rcases sleepsOn_sleep hq with ⟨rfl, hch⟩ | hs
      · cases c <;> cases hch
        exact hwait
      · exact hr q hs
    · rintro ⟨q, n, room, i, hq⟩
      have hne : q ≠ p := by
        rintro rfl
        simp [hpc] at hq
      exact ⟨q, n, room, i, hpcs q _ hne hq⟩
  case sleepy =>
    intro q e he
    have hne : q ≠ p := by
      rintro rfl
      simp [Sleep.sleep] at he
    exact (h.sleepy q e (by simpa [Sleep.sleep, hne] using he)).congr fun _ _ => rfl

theorem not_sleepsOn_wakeup : ¬ SleepsOn (s.wakeup ch) q ch := by
  rintro ⟨hs, hch⟩
  obtain ⟨hs', hno⟩ := wakeup_sleeping hs
  exact hno ⟨hs', wakeup_chan ▸ hch⟩

theorem sleepsOn_finish (h : SleepsOn (s.finish p c r) q ch) : SleepsOn s q ch := by
  by_cases hq : q = p
  · subst hq
    simpa [SleepsOn, State.finish] using h
  · simpa [SleepsOn, State.finish, hq] using h

theorem not_sleepsOn_finish : ¬ SleepsOn ((s.wakeup ch).finish p c r) q ch := fun h =>
  not_sleepsOn_wakeup (sleepsOn_finish h)

theorem Inv.free (hi : Inv s) (hlock : s.lock (.pipe pi) = none) : (s.pc q).holds ≠ some (.pipe pi) := by
  intro hq
  rw [(hi.lock _ _).mpr hq] at hlock
  cases hlock

theorem Inv.not_writing (hi : Inv s) (hlock : s.lock (.pipe pi) = none) : ¬ Writing s pi := by
  rintro ⟨_, q, src, n, i, hq, _⟩
  exact hi.free hlock (by rw [hq]; rfl)

theorem Inv.not_copying (hi : Inv s) (hlock : s.lock (.pipe pi) = none) : ¬ Copying s pi := by
  rintro ⟨q, n, room, i, hq⟩
  exact hi.free hlock (by rw [hq]; rfl)

theorem Writing.congr {x : Nat} (h : Writing s x) (hpipe : t.pipe x = s.pipe x)
    (hpc : ∀ q src n i, s.pc q = .loop (.pipewrite x src n i) → t.pc q = s.pc q)
    (hkilled : ∀ q, (t.proc q).killed = true → (s.proc q).killed = true) : Writing t x := by
  obtain ⟨hopen, q, src, n, i, hq, hk⟩ := h
  refine ⟨by rwa [hpipe], q, src, n, i, (hpc q src n i hq).trans hq, ?_⟩
  by_contra hno
  simp [hkilled q (by simpa using hno)] at hk

theorem Copying.congr {x : Nat} (h : Copying s x)
    (hpc : ∀ q n room i, s.pc q = .loop (.pipereadCopy x n room i) → t.pc q = s.pc q) : Copying t x := by
  obtain ⟨q, n, room, i, hq⟩ := h
  exact ⟨q, n, room, i, (hpc q n room i hq).trans hq⟩

theorem Calm.sleepsOn (h : Calm s t) (hq : SleepsOn t q ch) : SleepsOn s q ch := by
  obtain ⟨hs, hch⟩ := h.asleep q hq.1
  exact ⟨hs, hch ▸ hq.2⟩

theorem Tidy.close {w : Bool} (h : Tidy s) (hi : Inv s) (hlock : s.lock (.pipe pi) = none) :
    Tidy (pipeclose s pi w) := by
  have hcalm := calm_pipeclose s pi w
  have hother : ∀ x, x ≠ pi → (pipeclose s pi w).pipe x = s.pipe x := by
    intro x hx
    unfold pipeclose
    split <;> simp [hx]
  constructor
  case reader =>
    intro x
    by_cases hx : x = pi
    · subst hx
      have hr : Readers s x := (h.reader x).resolve_right (hi.not_writing hlock)
      refine .inl fun q hq => ?_
      cases w with
      | true => exact absurd hq not_sleepsOn_wakeup
      | false => simpa [pipeclose] using hr q (hcalm.sleepsOn hq)
    · exact (h.reader x).imp (fun hr => hr.congr (hother x hx) fun q => hcalm.sleepsOn) fun hw =>
        hw.congr (hother x hx) (fun q _ _ _ _ => by rw [hcalm.pc]) hcalm.killed
  case writer =>
    intro x
    by_cases hx : x = pi
    · subst hx
      have hr : Writers s x := (h.writer x).resolve_right (hi.not_copying hlock)
      refine .inl fun q hq => ?_
      cases w with
      | true => simpa [pipeclose] using hr q (hcalm.sleepsOn hq)
      | false => exact absurd hq not_sleepsOn_wakeup
    · exact (h.writer x).imp (fun hr => hr.congr (hother x hx) fun q => hcalm.sleepsOn) fun hw =>
        hw.congr fun q _ _ _ _ => by rw [hcalm.pc]
  case sleepy =>
    intro q e he
    rw [hcalm.pc] at he
    refine (h.sleepy q e he).congr fun x hx => hother x ?_
    rintro rfl
    exact hi.free hlock (by rw [he, Pc.holds, hx])

theorem Turn.sleepsOn (h : Turn p c s t) (hq : SleepsOn t q ch) : SleepsOn s q ch := by
  obtain ⟨hs, hch⟩ := h.asleep q hq.1
  exact ⟨hs, hch ▸ hq.2⟩

structure Leaves (p : Fin NPROC) (pi : Nat) (t : State) : Prop where
  reader : Readers t pi ∨ Writing t pi
  writer : Writers t pi ∨ Copying t pi
  sleepy : ∀ e, t.pc p = .sleepy e → Waits t e

section Tidy

variable (h : Tidy s) (hi : Inv s)

include h hi

theorem Tidy.readers (hpc : s.pc p = .loop c) (hlock : c.lock = .pipe pi)
    (hno : ∀ src n i, c ≠ .pipewrite pi src n i) : Readers s pi := by
  refine (h.reader pi).resolve_right ?_
  rintro ⟨_, q, src, n, i, hq, _⟩
  cases hi.one_loop hpc hq hlock
  rw [hpc] at hq
  exact hno src n i (Pc.loop.inj hq)

theorem Tidy.writers (hpc : s.pc p = .loop c) (hlock : c.lock = .pipe pi)
    (hno : ∀ n room i, c ≠ .pipereadCopy pi n room i) : Writers s pi := by
  refine (h.writer pi).resolve_right ?_
  rintro ⟨q, n, room, i, hq⟩
  cases hi.one_loop hpc hq hlock
  rw [hpc] at hq
  exact hno n room i (Pc.loop.inj hq)

theorem leaves_piperead (hpc : s.pc p = .loop (.piperead pi n room)) : Leaves p pi (piperead s p pi n room) := by
  have hr := h.readers hi hpc rfl (by simp)
  have hw := h.writers hi hpc rfl (by simp)
  have ht := body_turn s p (.piperead pi n room)
  rw [body] at ht
  have hpipe : (piperead s p pi n room).pipe = s.pipe := by
    unfold piperead State.block
    split
    next => split <;> rfl
    next => rfl
  refine ⟨.inl (hr.congr (by rw [hpipe]) fun q => ht.sleepsOn), .inl (hw.congr (by rw [hpipe]) fun q => ht.sleepsOn), ?_⟩
  intro e he
  have hnext := ht.next e (by rw [he, Pc.call])
  have hcopies := (ht.sleepy e he).2
  cases hnext with
  | nonempty => cases hcopies
  | same =>
    rw [Waits, hpipe]
    unfold piperead at he
    split at he
    next hempty => exact hempty
    next => simp [State.again] at he

theorem leaves_pipereadCopy (hpc : s.pc p = .loop (.pipereadCopy pi n room i)) :
    Leaves p pi (pipereadCopy s p pi n room i) := by
  have hr := h.readers hi hpc rfl (by simp)
  have ht := body_turn s p (.pipereadCopy pi n room i)
  rw [body] at ht
  constructor
  case reader =>
    refine .inl fun q hq => ?_
    have hs := hr q (ht.sleepsOn hq)
    unfold pipereadCopy
    dsimp only
    rw [if_neg fun hcond => hcond.2 hs.1]
    exact hs
  case writer =>
    unfold pipereadCopy
    dsimp only
    split
    next =>
      split
      next => exact .inr ⟨p, n, room, i + 1, by simp [State.again]⟩
      next => exact .inl fun q hq => absurd hq not_sleepsOn_finish
    next => exact .inl fun q hq => absurd hq not_sleepsOn_finish
  case sleepy =>
    intro e he
    have hcopies := (ht.sleepy e he).2
    cases ht.next e (by rw [he, Pc.call]) with
    | same _ hc => cases hc
    | taken => cases hcopies

theorem leaves_pipewrite (hpc : s.pc p = .loop (.pipewrite pi src n i)) : Leaves p pi (pipewrite s p pi src n i) := by
  have hw := h.writers hi hpc rfl (by simp)
  have ht := body_turn s p (.pipewrite pi src n i)
  rw [body] at ht
  unfold pipewrite at ht ⊢
  dsimp only at ht ⊢
  split at ht
  next hlt =>
    rw [if_pos hlt]
    split at ht
    next hstop =>
      -- the loop is left without a wakeup, but then no byte was stored since the last one
      rw [if_pos hstop]
      have hr : Readers s pi := by
        refine (h.reader pi).resolve_right ?_
        rintro ⟨hopen, q, src', n', i', hq, hk⟩
        cases hi.one_loop hpc hq rfl
        simp [hopen, hk] at hstop
      exact ⟨.inl (hr.congr rfl fun q => sleepsOn_finish), .inl (hw.congr rfl fun q => sleepsOn_finish),
        by simp [State.finish]⟩
    next hgo =>
      rw [if_neg hgo]
      have hopen : (s.pipe pi).readopen = true := by simpa using (not_or.mp hgo).1
      have hkilled : (s.proc p).killed = false := by simpa using (not_or.mp hgo).2
      split at ht
      next hfull =>
        rw [if_pos hfull]
        refine ⟨.inl fun q hq => absurd hq not_sleepsOn_wakeup, .inl (hw.congr rfl fun q => ht.sleepsOn), ?_⟩
        intro e he
        rw [setPc_pc, if_pos rfl] at he
        cases he
        exact ⟨hfull, hopen⟩
      next hroom =>
        rw [if_neg hroom]
        split at ht
        next x hx =>
          refine ⟨.inr ⟨by simpa [State.again, Pipe.store] using hopen, p, src, n, i + 1, by simp [State.again], hkilled⟩,
            .inl fun q hq => ?_, by simp [State.again]⟩
          exact absurd (hw q (ht.sleepsOn hq)).1 hroom
        next hx =>
          exact ⟨.inl fun q hq => absurd hq not_sleepsOn_finish, .inl (hw.congr rfl fun q => ht.sleepsOn),
            by simp [State.finish]⟩
  next hlt =>
    rw [if_neg hlt]
    exact ⟨.inl fun q hq => absurd hq not_sleepsOn_finish, .inl (hw.congr rfl fun q => ht.sleepsOn),
      by simp [State.finish]⟩

theorem leaves_body (hpc : s.pc p = .loop c) (hlock : c.lock = .pipe pi) : Leaves p pi (body s p c) := by
  cases c with
  | piperead x n room =>
    cases hlock
    exact leaves_piperead h hi hpc
  | pipereadCopy x n room i =>
    cases hlock
    exact leaves_pipereadCopy h hi hpc
  | pipewrite x src n i =>
    cases hlock
    exact leaves_pipewrite h hi hpc
  | _ => cases hlock

end Tidy

theorem body_pipe_other (hlock : c.lock ≠ .pipe pi) : (body s p c).pipe pi = s.pipe pi :=
  (body_pipe s p c pi).of_lock hlock

theorem Tidy.turn (h : Tidy s) (hi : Inv s) (hpc : s.pc p = .loop c) : Tidy (body s p c) := by
  have ht := body_turn s p c
  -- who is in the loop of another pipe does not move
  have hstay : ∀ q e, s.pc q = .loop e → e.lock ≠ c.lock → (body s p c).pc q = s.pc q := by
    intro q e hq hne
    refine ht.others q fun hqp => hne ?_
    rw [hqp, hpc] at hq
    cases hq
    rfl
  constructor
  case reader =>
    intro pi
    by_cases hlock : c.lock = .pipe pi
    · exact (leaves_body h hi hpc hlock).reader
    · exact (h.reader pi).imp (fun hr => hr.congr (body_pipe_other hlock) fun q => ht.sleepsOn) fun hw =>
        hw.congr (body_pipe_other hlock) (fun q src n i hq => hstay q _ hq (Ne.symm hlock)) ht.killed
  case writer =>
    intro pi
    by_cases hlock : c.lock = .pipe pi
    · exact (leaves_body h hi hpc hlock).writer
    · exact (h.writer pi).imp (fun hr => hr.congr (body_pipe_other hlock) fun q => ht.sleepsOn) fun hw =>
        hw.congr fun q n room i hq => hstay q _ hq (Ne.symm hlock)
  case sleepy =>
    intro q e he
    by_cases hqp : q = p
    · subst hqp
      by_cases hlock : ∃ pi, c.lock = .pipe pi
      · obtain ⟨pi, hlock⟩ := hlock
        exact (leaves_body h hi hpc hlock).sleepy e he
      · have hl := (ht.next e (by rw [he, Pc.call])).lock
        cases e with
        | wait => trivial
        | sysSleep => trivial
        | consoleread => trivial
        | _ => exact absurd ⟨_, hl.symm⟩ hlock
    · rw [ht.others q hqp] at he
      refine (h.sleepy q e he).congr fun pi hl => (body_pipe s p c pi).other hi hpc ?_ (Ne.symm hqp)
      rw [he, Pc.holds, hl]

theorem tidy_act (h : Tidy s) (hi : Inv s) (hw : killsInWrite s a = false) (hs : act s a = some t) : Tidy t := by
  cases act_kind hi hs with
  | turn p c hpc ht => exact ht ▸ h.turn hi hpc
  | sleep p c hpc ht => exact ht ▸ h.sleep hpc
  | close p pi w hlock ht => exact ht ▸ h.close hi hlock
  | quiet hq => exact h.quiet hw hq

/-- While the lock of a pipe is free, who sleeps on it waits for what it does not have: if `kill` never
marks a process between two iterations of `pipewrite`'s loop. -/
theorem sleepers_wait (h : machine.Reach (fun s a => killsInWrite s a = false) s)
    (hlock : s.lock (.pipe pi) = none) : Readers s pi ∧ Writers s pi := by
  have hi := inv_reach h
  have ht : Tidy s := h.invariant (fun _ hs => Boot.tidy hs) fun _ _ _ hr ht hw hs =>
    tidy_act ht (inv_reach hr) hw hs
  exact ⟨(ht.reader pi).resolve_right (hi.not_writing hlock), (ht.writer pi).resolve_right (hi.not_copying hlock)⟩

theorem sleepers_wait_reader : ∃ s, machine.Reach (fun s a => killsInWrite s a = false) s ∧
    s.lock (.pipe 0) = none ∧ SleepsOn s p1 (.nread 0) ∧ Readers s 0 ∧ Writers s 0 := by
  have hrun : ((machine.run boot (readerRun ++ [.step p1, .step p1])).any fun s => s.lock (.pipe 0) = none ∧
      (s.proc p1).state = .sleeping ∧ (s.proc p1).chan = some (.nread 0)) = true := by decide +kernel
  obtain ⟨s, hs, hfacts⟩ := exists_of_any hrun
  have hmeets : machine.Meets (fun s a => killsInWrite s a = false) boot
      (readerRun ++ [.step p1, .step p1]) := by decide +kernel
  have hreach := Machine.Reach.of_run (.start boot_boot) hmeets hs
  exact ⟨s, hreach, hfacts.1, hfacts.2, sleepers_wait hreach hfacts.1⟩

def p2 : Fin NPROC := ⟨2, by decide⟩

/-- One child sleeps on the empty pipe, the other is killed after it has stored the first of two bytes,
and leaves the loop without a wakeup. -/
theorem reader_not_woken : ∃ s, machine.Reachable s ∧ s.lock (.pipe 0) = none ∧ SleepsOn s p1 (.nread 0) ∧
    (s.pipe 0).nread ≠ (s.pipe 0).nwrite := by
  have hrun : ((machine.run boot (readerRun ++ [.step p1, .step p1, .fork p0, .dispatch p2,
      .call p2 (.pipewrite 0 [65, 66] 2 0), .step p2, .step p2,
      .killCall p0 3, .step p0, .step p0, .step p0, .step p2])).any fun s => s.lock (.pipe 0) = none ∧
      ((s.proc p1).state = .sleeping ∧ (s.proc p1).chan = some (.nread 0)) ∧
      (s.pipe 0).nread ≠ (s.pipe 0).nwrite) = true := by decide +kernel
  obtain ⟨s, hs, hfacts⟩ := exists_of_any hrun
  exact ⟨s, Machine.Reachable.of_run boot_boot hs, hfacts⟩

end TweakedXv6.Sleep
