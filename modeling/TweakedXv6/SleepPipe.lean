import TweakedXv6.Ring
import TweakedXv6.SleepKill

namespace TweakedXv6.Sleep

variable {s t : State} {p q : Fin NPROC} {c e : Loop} {d : Pc} {v : Proc} {a : Act} {n : Int}
  {pi room i : Nat} {src : List UInt8} {ch : Chan} {M : Prop}

inductive Moves (a : Act) (q : Fin NPROC) : Pc → Pc → Prop
  | leave {d e : Pc} (hd : d.holds = none) (he : e.call = none) : Moves a q d e
  | call {d : Pc} (c : Loop) (hd : d = .user) (hc : c.start = true) (ha : a = .call q c) : Moves a q d (.enter c)
  | enter (c : Loop) : Moves a q (.enter c) (.loop c)
  | wake (c : Loop) : Moves a q (.asleep c) (.enter c)

def kills (s : State) (q : Fin NPROC) : Act → Bool
  | .step p =>
    match s.pc p with
    | .kill pid (x :: _) => x = q ∧ (s.proc q).pid = pid
    | _ => false
  | _ => false

structure Quiet (a : Act) (s t : State) : Prop where
  pipe : t.pipe = s.pipe
  asleep : ∀ q ch, SleepsOn t q ch → SleepsOn s q ch
  pc : ∀ q, t.pc q = s.pc q ∨ Moves a q (s.pc q) (t.pc q)
  killed : ∀ q, (t.proc q).killed = true → (s.proc q).killed = true ∨ kills s q a = true

theorem Calm.quiet (h : Calm s t) (hpipe : t.pipe = s.pipe) : Quiet a s t where
  pipe := hpipe
  asleep q ch hq := by
    obtain ⟨hs, hch⟩ := h.asleep q hq.1
    exact ⟨hs, hch ▸ hq.2⟩
  pc q := .inl (by rw [h.pc])
  killed q hq := .inl (h.killed q hq)

theorem Quiet.trans_calm {u : State} (h : Quiet a s t) (hu : Calm t u) (hpipe : u.pipe = t.pipe) : Quiet a s u where
  pipe := hpipe.trans h.pipe
  asleep q ch hq := by
    obtain ⟨hs, hch⟩ := hu.asleep q hq.1
    exact h.asleep q ch ⟨hs, hch ▸ hq.2⟩
  pc q := by
    rw [hu.pc]
    exact h.pc q
  killed q hq := h.killed q (hu.killed q hq)

theorem Quiet.refl (a : Act) (s : State) : Quiet a s s := (Calm.refl s).quiet rfl

theorem Quiet.move (h : Quiet a s t) (hp : t.pc p = s.pc p) (hd : Moves a p (s.pc p) d) :
    Quiet a s (t.setPc p d) where
  pipe := h.pipe
  asleep := h.asleep
  pc q := by
    by_cases hq : q = p
    · subst hq
      exact .inr (by simpa using hd)
    · simpa [hq] using h.pc q
  killed := h.killed

theorem Quiet.setProc (h : Quiet a s t) (hv : v.state ≠ .sleeping)
    (hk : v.killed = true → (t.proc q).killed = true ∨ kills s q a = true) : Quiet a s (t.setProc q v) where
  pipe := h.pipe
  asleep x ch hx := by
    by_cases hxq : x = q
    · simp [SleepsOn, hxq, hv] at hx
    · exact h.asleep x ch (by simpa [SleepsOn, hxq] using hx)
  pc := h.pc
  killed x hx := by
    by_cases hxq : x = q
    · subst hxq
      exact (hk (by simpa using hx)).elim (h.killed x) .inr
    · exact h.killed x (by simpa [hxq] using hx)

theorem quiet_killSlot {pid : Int} {rest : List (Fin NPROC)} (hpc : s.pc p = .kill pid rest) :
    Quiet (.step p) s (killSlot s p pid rest) := by
  have hleave : ∀ e : Pc, e.call = none → Moves (.step p) p (s.pc p) e := by
    intro e he
    rw [hpc]
    exact .leave rfl he
  cases rest with
  | nil => exact ((Quiet.refl _ s).trans_calm calm_a0 rfl).move rfl (hleave .user rfl)
  | cons q rest =>
    rw [killSlot]
    split
    next hpid =>
      have hk : Quiet (.step p) s (s.kill q) := by
        refine (Quiet.refl _ s).setProc ?_ fun _ => .inr (by simp [kills, hpc, hpid])
        dsimp only
        split
        next => simp
        next hno => exact hno
      exact (hk.trans_calm (calm_a0 (p := p)) rfl).move rfl (hleave .user rfl)
    next => exact (Quiet.refl _ s).move rfl (hleave (.kill pid rest) rfl)

theorem quiet_fork (hi : Inv s) (hrun : (s.proc p).state = .running) : Quiet a s (fork s p) := by
  rcases fork_cases s p with he | ⟨np, v, n, hnp, hv, hold, he⟩
  · rw [he]
    exact calm_a0.quiet rfl
  · rw [he]
    have hne : np ≠ p := by
      rintro rfl
      simp [hrun] at hnp
    have h1 : Quiet a s (s.setProc p { s.proc p with a0 := s.nextpid }) := calm_a0.quiet rfl
    have h2 := h1.setProc (q := np) (v := v) (by simp [hv]) fun hk => .inl ?_
    · have h3 := h2.move (p := np) (d := .user) rfl (.leave (hi.unused (by simp [hnp])) rfl)
      exact { h3 with }
    · rw [(hold.resolve_right hne).1] at hk
      simpa [hne] using hk

theorem exit_pipe : (exit s p).pipe = s.pipe := by
  unfold exit
  dsimp only
  split <;> split <;> rfl

theorem quiet_exit : Quiet a s (exit s p) := by
  obtain ⟨u, hu, he⟩ := exit_cases s p
  have hpipe : u.pipe = s.pipe := by
    rw [← exit_pipe (s := s) (p := p), he]
    rfl
  rw [he]
  exact (hu.quiet hpipe).setProc (by simp) fun hk => .inl hk

inductive Kind (s t : State) : Act → Prop
  | turn (p : Fin NPROC) (c : Loop) (hpc : s.pc p = .loop c) (ht : t = body s p c) : Kind s t (.step p)
  | sleep (p : Fin NPROC) (c : Loop) (hpc : s.pc p = .sleepy c) (ht : t = sleep s p c) : Kind s t (.step p)
  | close (p : Fin NPROC) (pi : Nat) (w : Bool) (hlock : s.lock (.pipe pi) = none) (ht : t = pipeclose s pi w) :
      Kind s t (.pipeclose p pi w)
  | quiet {a : Act} (h : Quiet a s t) : Kind s t a

theorem act_kind (hi : Inv s) (hs : act s a = some t) : Kind s t a := by
  cases act_trans hs with
  | call p c _ hpc hstart => exact .quiet ((Quiet.refl _ s).move rfl (.call c hpc hstart rfl))
  | killCall p pid _ hpc => exact .quiet ((Quiet.refl _ s).move rfl (.leave (by simp [hpc, Pc.holds]) rfl))
  | enter p c _ hpc =>
    have hq := (Quiet.refl (.step p) s).move (p := p) (d := .loop c) rfl (by rw [hpc]; exact .enter c)
    exact .quiet { hq with }
  | turn p c hpc => exact .turn p c hpc rfl
  | sleep p c hpc => exact .sleep p c hpc rfl
  | wake p c hrun hpc =>
    have hq := (Quiet.refl (.step p) s).setProc (q := p) (v := { s.proc p with chan := none })
      (by simp [hrun]) .inl
    exact .quiet (hq.move rfl (by rw [hpc]; exact .wake c))
  | kill p pid rest _ hpc => exact .quiet (quiet_killSlot hpc)
  | pipeclose p pi w hlock => exact .close p pi w hlock rfl
  | fork p hrun => exact .quiet (quiet_fork hi hrun)
  | exit p => exact .quiet quiet_exit
  | dispatch p => exact .quiet ((Quiet.refl _ s).setProc (by simp) .inl)
  | yield p => exact .quiet ((Quiet.refl _ s).setProc (by simp) .inl)
  | clockintr => exact .quiet (calm_clockintr.quiet rfl)
  | consoleintr b => exact .quiet (calm_consoleintr.1.quiet calm_consoleintr.2)

def Loop.mapped : Loop → Bool
  | .piperead _ n room | .pipereadCopy _ n room _ => n ≤ room
  | _ => true

theorem Loop.Next.mapped (h : c.Next e) (hc : c.mapped = true) : e.mapped = true := by
  cases h with
  | ticks => rfl
  | read => rfl
  | _ => exact hc

/-- The bytes between the counters are in the ring; where user buffers are mapped (`M`), the bytes that were stored
are those that were returned, followed by these. -/
def Pipe.Flow (M : Prop) (v : Pipe) : Prop :=
  ∃ q, Ring PIPESIZE 4294967296 v.data v.nread v.nwrite q ∧ (M → v.stored = v.returned ++ q)

theorem pipesize_lt : PIPESIZE < 4294967296 := by decide

theorem pipesize_dvd : PIPESIZE ∣ 4294967296 := by decide

theorem Pipe.Flow.take {v : Pipe} {b : Bool} (h : v.Flow M) (hne : v.nread ≠ v.nwrite) (hb : M → b = true) :
    (v.take b).Flow M := by
  obtain ⟨q, hq, hstored⟩ := h
  cases q with
  | nil => exact absurd ((hq.eq_iff_empty pipesize_lt).mpr rfl) hne
  | cons x q =>
    obtain ⟨hx, hpop⟩ := hq.pop pipesize_dvd
    exact ⟨q, hpop, fun hm => by simp [Pipe.take, hx, hstored hm, hb hm]⟩

theorem Pipe.Flow.store {v : Pipe} {x : UInt8} (h : v.Flow M) (hne : v.nwrite ≠ uint (v.nread + PIPESIZE)) :
    (v.store x).Flow M := by
  obtain ⟨q, hq, hstored⟩ := h
  have hroom : q.length < PIPESIZE :=
    Nat.lt_of_le_of_ne hq.room fun hfull => hne ((hq.eq_iff_full pipesize_lt).mpr hfull)
  exact ⟨q ++ [x], hq.push pipesize_dvd hroom, fun hm => by simp [Pipe.store, hstored hm]⟩

structure Flows (M : Prop) (s : State) : Prop where
  pipe : ∀ pi, (s.pipe pi).Flow M
  mapped : M → ∀ p c, (s.pc p).call = some c → c.mapped = true
  parked : ∀ p c, (s.pc p).call = some c → s.pc p ≠ .loop c → c.copies = false
  data : ∀ p pi n room, s.pc p = .loop (.pipereadCopy pi n room 0) →
    (s.pipe pi).nread ≠ (s.pipe pi).nwrite ∨ (s.pipe pi).writeopen = false

def Act.mapped : Act → Bool
  | .call _ c => c.mapped
  | _ => true

theorem Boot.flows (h : Boot s) : Flows M s where
  pipe pi := by
    obtain ⟨hr, hw, hstored, hret, _⟩ := h.pipe pi
    refine ⟨[], ?_, fun _ => by simp [hstored, hret]⟩
    rw [hr, hw]
    exact Ring.empty (by decide)
  mapped _ p c hc := by simp [h.pc p, Pc.call] at hc
  parked p c hc := by simp [h.pc p, Pc.call] at hc
  data p pi n room hc := by simp [h.pc p] at hc

theorem Moves.call_eq {d e : Pc} (h : Moves a q d e) (he : e.call = some c) :
    d.call = some c ∨ a = .call q c ∧ c.start = true := by
  cases h with
  | leave _ hno => simp [hno] at he
  | call c' _ hc ha =>
    cases he
    exact .inr ⟨ha, hc⟩
  | enter c' => exact .inl he
  | wake c' => exact .inl he

theorem Loop.start_copies (h : c.start = true) : c.copies = false := by
  cases c <;> first | rfl | cases h

theorem Flows.quiet (h : Flows M s) (hm : M → a.mapped = true) (hq : Quiet a s t) : Flows M t where
  pipe pi := by
    rw [hq.pipe]
    exact h.pipe pi
  mapped hM p c hc := by
    rcases hq.pc p with he | he
    · exact h.mapped hM p c (he ▸ hc)
    · rcases he.call_eq hc with hs | ⟨rfl, _⟩
      · exact h.mapped hM p c hs
      · exact hm hM
  parked p c hc hne := by
    rcases hq.pc p with he | he
    · exact h.parked p c (he ▸ hc) (he ▸ hne)
    · rcases he.call_eq hc with hs | ⟨_, hstart⟩
      · refine h.parked p c hs fun hloop => ?_
        rw [hloop] at he
        generalize hd : t.pc p = d at he hc
        cases he with
        | leave hno => simp [Pc.holds] at hno
        | call _ hu => cases hu
      · exact c.start_copies hstart
  data p pi n room hc := by
    rw [hq.pipe]
    rcases hq.pc p with he | he
    · exact h.data p pi n room (he ▸ hc)
    · rw [hc] at he
      generalize hd : s.pc p = d at he
      cases he with
      | leave _ hno => simp [Pc.call] at hno
      | enter c' =>
        have := h.parked p (.pipereadCopy pi n room 0) (by rw [hd]; rfl) (by simp [hd])
        cases this

theorem Inv.one_loop (hi : Inv s) (hp : s.pc p = .loop c) (hq : s.pc q = .loop e) (hl : c.lock = e.lock) : p = q :=
  hi.one (l := e.lock) (by rw [hp, Pc.holds, hl]) (by rw [hq, Pc.holds])

theorem PipeTurn.of_lock (h : PipeTurn pi c s t) (hlock : c.lock ≠ .pipe pi) : t.pipe pi = s.pipe pi := by
  cases h with
  | same h => exact h
  | take n room i hc =>
    subst hc
    exact absurd rfl hlock
  | store src n i x hc =>
    subst hc
    exact absurd rfl hlock

theorem PipeTurn.other (h : PipeTurn pi c s t) (hi : Inv s) (hpc : s.pc p = .loop c) (hq : (s.pc q).holds = some (.pipe pi))
    (hne : p ≠ q) : t.pipe pi = s.pipe pi :=
  h.of_lock fun hl => hne (hi.one (by rw [hpc, Pc.holds, hl]) hq)

theorem body_copy {room : Nat} (h : (body s p c).pc p = .loop (.pipereadCopy pi n room 0)) :
    (body s p c).pipe = s.pipe ∧ ((s.pipe pi).nread ≠ (s.pipe pi).nwrite ∨ (s.pipe pi).writeopen = false) := by
  have hnext : c.Next (.pipereadCopy pi n room 0) := (body_turn s p c).next _ (by rw [h, Pc.call])
  cases hnext with
  | same _ hc => cases hc
  | nonempty =>
    rw [body, piperead] at h ⊢
    split at h
    next =>
      unfold State.block at h
      split at h <;> simp [State.finish] at h
    next hdata =>
      rw [if_neg hdata]
      exact ⟨rfl, by simpa using not_and_or.mp hdata⟩

theorem Flows.turn (h : Flows M s) (hi : Inv s) (hpc : s.pc p = .loop c) : Flows M (body s p c) := by
  have ht := body_turn s p c
  have hmapped : M → c.mapped = true := fun hM => h.mapped hM p c (by rw [hpc, Pc.call])
  constructor
  case pipe =>
    intro pi
    cases body_pipe s p c pi with
    | same he => exact he ▸ h.pipe pi
    | take n room i hc hlt hne he =>
      subst hc
      rw [he]
      refine (h.pipe pi).take hne fun hM => decide_eq_true ?_
      have : n ≤ room := by simpa [Loop.mapped] using hmapped hM
      omega
    | store src n i x hc hne he =>
      rw [he]
      exact (h.pipe pi).store hne
  case mapped =>
    intro hM q e he
    by_cases hq : q = p
    · subst hq
      exact (ht.next e he).mapped (hmapped hM)
    · exact h.mapped hM q e (ht.others q hq ▸ he)
  case parked =>
    intro q e he hne
    by_cases hq : q = p
    · subst hq
      rcases ht.here with ⟨hh, _⟩ | ⟨hu, _⟩
      · generalize hd : (body s q c).pc q = d at he hne hh
        cases d with
        | loop e' =>
          cases he
          exact absurd rfl hne
        | sleepy e' =>
          cases he
          exact (ht.sleepy e hd).2
        | _ => simp [Pc.holds] at hh
      · simp [hu, Pc.call] at he
    · rw [ht.others q hq] at he hne
      exact h.parked q e he hne
  case data =>
    intro q pi n room hq
    by_cases hqp : q = p
    · subst hqp
      obtain ⟨hpipe, hdata⟩ := body_copy hq
      rw [hpipe]
      exact hdata
    · rw [ht.others q hqp] at hq
      rw [(body_pipe s p c pi).other hi hpc (by rw [hq]; rfl) (Ne.symm hqp)]
      exact h.data q pi n room hq

theorem Flows.sleep (h : Flows M s) (hpc : s.pc p = .sleepy c) : Flows M (sleep s p c) where
  pipe := h.pipe
  mapped hM q e he := by
    by_cases hq : q = p
    · subst hq
      exact h.mapped hM q e (by simpa [Sleep.sleep, hpc, Pc.call] using he)
    · exact h.mapped hM q e (by simpa [Sleep.sleep, hq] using he)
  parked q e he hne := by
    by_cases hq : q = p
    · subst hq
      exact h.parked q e (by simpa [Sleep.sleep, hpc, Pc.call] using he) (by simp [hpc])
    · exact h.parked q e (by simpa [Sleep.sleep, hq] using he) (by simpa [Sleep.sleep, hq] using hne)
  data q pi n room hq := by
    by_cases hqp : q = p
    · simp [Sleep.sleep, hqp] at hq
    · exact h.data q pi n room (by simpa [Sleep.sleep, hqp] using hq)

theorem Flows.close {w : Bool} (h : Flows M s) (hi : Inv s) (hlock : s.lock (.pipe pi) = none) :
    Flows M (pipeclose s pi w) := by
  have hcalm := calm_pipeclose s pi w
  have hother : ∀ x, x ≠ pi → (pipeclose s pi w).pipe x = s.pipe x := by
    intro x hx
    unfold pipeclose
    split <;> simp [hx]
  constructor
  case pipe =>
    intro x
    by_cases hx : x = pi
    · subst hx
      obtain ⟨q, hq, hstored⟩ := h.pipe x
      unfold pipeclose
      split
      next => exact ⟨q, by simpa using hq, by simpa using hstored⟩
      next => exact ⟨q, by simpa using hq, by simpa using hstored⟩
    · rw [hother x hx]
      exact h.pipe x
  case mapped =>
    intro hM q e he
    exact h.mapped hM q e (by rwa [hcalm.pc] at he)
  case parked =>
    intro q e he hne
    rw [hcalm.pc] at he hne
    exact h.parked q e he hne
  case data =>
    intro q x n room hq
    rw [hcalm.pc] at hq
    have hx : x ≠ pi := by
      rintro rfl
      rw [(hi.lock (.pipe x) q).mpr (by rw [hq]; rfl)] at hlock
      cases hlock
    rw [hother x hx]
    exact h.data q x n room hq

theorem flows_act (h : Flows M s) (hi : Inv s) (hm : M → a.mapped = true) (hs : act s a = some t) : Flows M t := by
  cases act_kind hi hs with
  | turn p c hpc ht => exact ht ▸ h.turn hi hpc
  | sleep p c hpc ht => exact ht ▸ h.sleep hpc
  | close p pi w hlock ht => exact ht ▸ h.close hi hlock
  | quiet hq => exact h.quiet hm hq

theorem flows_reach (h : machine.Reach (fun _ a => M → a.mapped = true) s) : Flows M s :=
  h.invariant (fun _ hs => Boot.flows hs) fun _ _ _ hr hf hm hs => flows_act hf (inv_reach hr) hm hs

def Reading (s : State) (p : Fin NPROC) (pi : Nat) (n : Int) : Prop :=
  ∃ room, s.pc p = .loop (.piperead pi n room) ∨ ∃ i, s.pc p = .loop (.pipereadCopy pi n room i)

theorem piperead_returns (room : Nat) (h : (piperead s p pi n room).pc p = .user) :
    ((piperead s p pi n room).proc p).a0 = -1 := by
  unfold piperead at h ⊢
  split at h
  next hempty =>
    rw [if_pos hempty]
    unfold State.block at h ⊢
    split at h
    next hk => simp [hk, State.finish]
    next => simp at h
  next => simp [State.again] at h

theorem pipereadCopy_zero {room i : Nat} (hn : 0 < n) (hroom : n ≤ room)
    (h : (pipereadCopy s p pi n room i).pc p = .user) (hz : ((pipereadCopy s p pi n room i).proc p).a0 = 0) :
    i = 0 ∧ (s.pipe pi).nread = (s.pipe pi).nwrite ∧ (pipereadCopy s p pi n room i).pipe = s.pipe := by
  unfold pipereadCopy at h hz ⊢
  dsimp only at h hz ⊢
  split at h
  next hcond =>
    have hlt : i < room := by omega
    rw [if_pos hlt] at h
    simp [State.again] at h
  next hcond =>
    rw [if_neg hcond] at hz ⊢
    have hi : i = 0 := by simpa [State.finish] using hz
    subst hi
    exact ⟨rfl, by simpa [hn] using hcond, rfl⟩

/-- In every run the counters are at most `PIPESIZE` apart. With mapped buffers the bytes that were returned are the
first of those that were stored, with the rest in the buffer, and a read of at least one byte returns 0 only at the
end of the data, with no writer left. -/
theorem pipe_fifo (h : machine.Reachable s) :
    (∀ pi, uint ((s.pipe pi).nwrite + 4294967296 - (s.pipe pi).nread) ≤ PIPESIZE) ∧
    (machine.Reach (fun _ a => a.mapped = true) s →
      (∀ pi, ∃ q, (s.pipe pi).stored = (s.pipe pi).returned ++ q ∧
        q.length = uint ((s.pipe pi).nwrite + 4294967296 - (s.pipe pi).nread) ∧
        ∀ j (hj : j < q.length), (s.pipe pi).data (((s.pipe pi).nread + j) % PIPESIZE) = q[j]) ∧
      ∀ p pi n t, 0 < n → Reading s p pi n → act s (.step p) = some t → t.pc p = .user →
        (t.proc p).a0 = 0 → (t.pipe pi).writeopen = false ∧ (t.pipe pi).returned = (t.pipe pi).stored) := by
  refine ⟨fun pi => ?_, fun h => ?_⟩
  · obtain ⟨q, hq, _⟩ := (flows_reach (h.mono fun _ _ _ => False.elim)).pipe pi
    rw [show uint _ = q.length from hq.distance pipesize_lt]
    exact hq.room
  have hf : Flows True s := flows_reach (h.mono fun _ _ ha _ => ha)
  constructor
  · intro pi
    obtain ⟨q, hq, hstored⟩ := hf.pipe pi
    exact ⟨q, hstored trivial, (hq.distance pipesize_lt).symm, hq.cell⟩
  · rintro p pi n t hn ⟨room, hread | ⟨i, hread⟩⟩ hs hu hz
    · simp only [act, Option.ite_none_right_eq_some, next, hread, Option.some.injEq] at hs
      obtain ⟨_, rfl⟩ := hs
      have hneg := piperead_returns room hu
      rw [body, hneg] at hz
      cases hz
    · simp only [act, Option.ite_none_right_eq_some, next, hread, Option.some.injEq] at hs
      obtain ⟨_, rfl⟩ := hs
      have hroom : n ≤ room := by
        simpa [Loop.mapped] using hf.mapped trivial p (.pipereadCopy pi n room i) (by rw [hread, Pc.call])
      rw [body] at hu hz ⊢
      obtain ⟨rfl, hempty, hpipe⟩ := pipereadCopy_zero hn hroom hu hz
      obtain ⟨q, hq, hstored⟩ := hf.pipe pi
      rw [hpipe]
      refine ⟨(hf.data p pi n room hread).resolve_left fun hne => hne hempty, ?_⟩
      rw [hstored trivial, (hq.eq_iff_empty pipesize_lt).mp hempty, List.append_nil]

/-- The first process writes a byte to a pipe, reads it back, closes the write end and gets to the end of
a second read. -/
def pipeRun : List Act :=
  [.dispatch p0, .call p0 (.pipewrite 0 [65] 1 0), .step p0, .step p0, .step p0,
    .call p0 (.piperead 0 1 1), .step p0, .step p0, .step p0, .step p0,
    .pipeclose p0 0 true, .call p0 (.piperead 0 1 1), .step p0, .step p0]

theorem pipe_fifo_eof : ∃ s t, machine.Reach (fun _ a => a.mapped = true) s ∧ Reading s p0 0 1 ∧
    act s (.step p0) = some t ∧ t.pc p0 = .user ∧ (t.proc p0).a0 = 0 ∧ (t.pipe 0).stored = [65] ∧
    (t.pipe 0).writeopen = false ∧ (t.pipe 0).returned = (t.pipe 0).stored := by
  have hrun : ((machine.run boot pipeRun).any fun s => s.pc p0 = .loop (.pipereadCopy 0 1 1 0) ∧
      ((act s (.step p0)).any fun t => t.pc p0 = .user ∧ (t.proc p0).a0 = 0 ∧ (t.pipe 0).stored = [65]) = true) =
        true := by decide +kernel
  obtain ⟨s, hs, hfacts⟩ := (Option.any_eq_true _ _).mp hrun
  rw [decide_eq_true_eq, Option.any_eq_true] at hfacts
  obtain ⟨hpc, t, ht, hfacts⟩ := hfacts
  rw [decide_eq_true_eq] at hfacts
  obtain ⟨hu, hz, hstored⟩ := hfacts
  have hmeets : machine.Meets (fun _ a => a.mapped = true) boot pipeRun := by decide +kernel
  have hreach := Machine.Reach.of_run (.start boot_boot) hmeets hs
  have hread : Reading s p0 0 1 := ⟨1, .inr ⟨0, hpc⟩⟩
  exact ⟨s, t, hreach, hread, ht, hu, hz, hstored,
    ((pipe_fifo (hreach.mono fun _ _ _ => trivial)).2 hreach).2 p0 0 1 t (by decide) hread ht hu hz⟩

end TweakedXv6.Sleep
