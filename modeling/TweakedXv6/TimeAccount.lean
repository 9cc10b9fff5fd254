import Mathlib.Order.Interval.Finset.Nat
import TweakedXv6.TimeModel
import TweakedXv6.WaitSections

namespace TweakedXv6.Wait

def Alive : ProcState → Bool
  | .unused | .zombie => false
  | _ => true

def Allocates (s : State) (a : Act) (q : Nat) : Prop :=
  ∃ p ok, a = .step p ok ∧ s.pc p = .allocproc q ∧ q < NPROC ∧ (s.proc q).state = .unused

def Exits (s : State) (a : Act) (q : Nat) : Prop := ∃ ok status, a = .step q ok ∧ s.pc q = .exitZombie status

def Steady (s t : State) (q : Nat) : Prop :=
  (Alive (t.proc q).state = true → Alive (s.proc q).state = true) ∧
    ((t.proc q).state = .zombie → (s.proc q).state = .zombie)

variable {s t u : State} {a : Act} {p q i j : Nat} {v : Proc} {chan : Option Chan} {ok : Bool}

theorem Steady.of_proc (h : (t.proc q).state = (s.proc q).state) : Steady s t q := by
  unfold Steady
  rw [h]
  exact ⟨id, id⟩

theorem Steady.trans (h : Steady s t q) (h' : Steady t u q) : Steady s u q :=
  ⟨fun hu => h.1 (h'.1 hu), fun hu => h.2 (h'.2 hu)⟩

theorem steady_setProc (hj : Alive (s.proc j).state = true) (hv : v.state ≠ .zombie) : Steady s (s.setProc j v) q := by
  by_cases hq : q = j
  · subst hq
    exact ⟨fun _ => hj, fun hz => absurd (by simpa using hz) hv⟩
  · exact .of_proc (by simp [hq])

theorem steady_wakeupSlot : Steady s (wakeupSlot s p chan j) q := by
  unfold wakeupSlot
  split
  next h => exact steady_setProc (by simp [h.2.1, Alive]) (by simp)
  next => exact .of_proc rfl

theorem steady_freeproc : Steady s (freeproc s j) q := by
  by_cases hq : q = j
  · subst hq
    simp [Steady, freeproc, Alive]
  · exact .of_proc (by simp [freeproc, hq])

theorem steady_reap {r : Reaper} : Steady s (reap s p r i ok) q := by
  unfold reap
  split
  next => exact .of_proc rfl
  next => exact steady_freeproc (s := s) (j := i)

theorem alive_running (h : (s.proc p).state = .running) : Alive (s.proc p).state = true := by
  simp [h, Alive]

theorem steady_nextSection (hi : Inv s) (hp : (s.proc p).state = .running) (ht : nextSection s p ok = some t)
    (halloc : ¬ Allocates s (.step p ok) q) (hexit : ¬ Exits s (.step p ok) q) : Steady s t q := by
  unfold nextSection at ht
  split at ht
  next => cases ht
  next i hpc =>
    cases ht
    unfold allocprocSlot
    split
    next hlt =>
      split
      next hu =>
        have hq : q ≠ i := by
          rintro rfl
          exact halloc ⟨p, ok, rfl, hpc, hlt, hu⟩
        split <;> exact .of_proc (by simp [allocprocFound, freeproc, hq])
      next => exact .of_proc rfl
    next => exact .of_proc rfl
  next np hpc =>
    obtain ⟨_, rfl⟩ := some_of_guard ht
    by_cases hq : q = np
    · exact .of_proc (by simp [State.setParent, hq])
    · exact .of_proc (by simp [State.setParent, hq])
  next np hpc =>
    cases ht
    have hused := hi.forkee p np (by rw [hpc]; rfl)
    exact steady_setProc (s := s) (j := np) (by simp [hused, Alive]) (by simp)
  next status hpc =>
    obtain ⟨_, rfl⟩ := some_of_guard ht
    exact .of_proc rfl
  next status i hpc =>
    cases ht
    unfold reparentSlot
    split
    next =>
      split
      next =>
        by_cases hq : q = i
        · exact .of_proc (by simp [State.setParent, hq])
        · exact .of_proc (by simp [State.setParent, hq])
      next => exact .of_proc rfl
    next => exact .of_proc rfl
  next status i j hpc =>
    cases ht
    unfold reparentWakeup
    split
    next => exact steady_wakeupSlot (s := s)
    next => exact .of_proc rfl
  next status j hpc =>
    cases ht
    unfold exitWakeup
    split
    next => exact steady_wakeupSlot (s := s)
    next => exact .of_proc rfl
  next status hpc =>
    cases ht
    have hq : q ≠ p := by
      rintro rfl
      exact hexit ⟨ok, status, rfl, hpc⟩
    exact .of_proc (by simp [exitZombie, hq])
  next r hpc =>
    obtain ⟨_, rfl⟩ := some_of_guard ht
    exact .of_proc rfl
  next r i havekids hpc =>
    cases ht
    unfold waitScan
    split
    next =>
      split
      next =>
        split
        next => exact steady_reap
        next => exact .of_proc rfl
      next => exact .of_proc rfl
    next =>
      split
      next => exact .of_proc rfl
      next => exact steady_setProc (s := s) (alive_running hp) (by simp)
  next r hpc =>
    cases ht
    exact steady_setProc (s := s) (alive_running hp) (by simp [hp])
  next pid i hpc =>
    cases ht
    unfold killSlot
    split
    next =>
      split
      next =>
        by_cases hq : q = i
        · subst hq
          unfold Steady
          simp only [setPc_proc, setProc_proc, if_true]
          split
          next hsl => simp [hsl, Alive]
          next => exact ⟨id, id⟩
        · exact .of_proc (by simp [hq])
      next => exact .of_proc rfl
    next => exact .of_proc rfl
  next a j hpc =>
    cases ht
    unfold wakeupScan
    split
    next => exact steady_wakeupSlot (s := s)
    next => exact .of_proc rfl
  next hpc =>
    cases ht
    exact steady_setProc (s := s) (alive_running hp) (by simp [hp])

theorem steady_act (hi : Inv s) (ht : act s a = some t) (halloc : ¬ Allocates s a q) (hexit : ¬ Exits s a q) :
    Steady s t q := by
  cases a with
  | call p call =>
    simp only [act, Option.ite_none_right_eq_some] at ht
    obtain ⟨⟨hp, _⟩, ht⟩ := ht
    cases call with
    | exit status =>
      simp only [enter] at ht
      split at ht
      next => cases ht
      next =>
        cases ht
        exact .of_proc rfl
    | sleep a =>
      cases ht
      exact steady_setProc (s := s) (alive_running hp) (by simp)
    | _ =>
      cases ht
      exact .of_proc rfl
  | step p ok =>
    simp only [act, Option.ite_none_right_eq_some] at ht
    exact steady_nextSection hi ht.1 ht.2 halloc hexit
  | dispatch p =>
    obtain ⟨hp, rfl⟩ := some_of_guard ht
    exact steady_setProc (s := s) (by simp [hp, Alive]) (by simp)
  | yield p =>
    obtain ⟨⟨hp, _⟩, rfl⟩ := some_of_guard ht
    exact steady_setProc (s := s) (alive_running hp) (by simp)

theorem allocates_act (ht : act s a = some t) (h : Allocates s a q) : (t.proc q).state ≠ .zombie := by
  obtain ⟨p, ok, rfl, hpc, hlt, hu⟩ := h
  simp only [act, Option.ite_none_right_eq_some, nextSection, hpc, Option.some.injEq] at ht
  obtain ⟨_, rfl⟩ := ht
  rw [allocprocSlot, if_pos hlt, if_pos hu]
  split <;> simp [allocprocFound, freeproc]

theorem exits_act (ht : act s a = some t) (h : Exits s a q) :
    (s.proc q).state = .running ∧ (t.proc q).state = .zombie := by
  obtain ⟨ok, status, rfl, hpc⟩ := h
  simp only [act, Option.ite_none_right_eq_some, nextSection, hpc, Option.some.injEq] at ht
  obtain ⟨hp, rfl⟩ := ht
  exact ⟨hp, by simp [exitZombie]⟩

end TweakedXv6.Wait

namespace TweakedXv6.Time

open Wait (Alive Allocates Exits)

def spent (seen : Nat → Nat → ProcState) (p b d : Nat) (st : ProcState) : Nat :=
  ((Finset.Ioc b d).filter fun k => seen k p = st).card

/-- The counters of process `p` hold what it has spent from its creation up to tick `d`. -/
structure Counted (s : State) (p d : Nat) : Prop where
  born : s.born p ≤ d
  bound : d ≤ s.clock
  ctime : (s.times p).ctime = uint (s.born p)
  rtime : (s.times p).rtimeTotal = uint (spent s.seen p (s.born p) d .running)
  stime : (s.times p).stimeTotal = uint (spent s.seen p (s.born p) d .sleeping)
  wtime : (s.times p).wtimeTotal = uint (spent s.seen p (s.born p) d .runnable)

structure Report.Right (r : Report) (clock : Nat) (seen : Nat → Nat → ProcState) : Prop where
  born : r.born ≤ r.died
  bound : r.died ≤ clock
  ctime : r.ctime = uint r.born
  etime : r.etime = uint r.died
  rtime : r.rtime = uint (spent seen r.child r.born r.died .running)
  wtime : r.wtime = usub (usub r.etime r.rtime) r.ctime

structure Inv (s : State) : Prop where
  sys : Wait.Inv s.sys
  ticks : s.ticks = uint s.clock
  alive : ∀ p, Alive (s.sys.proc p).state = true → Counted s p s.clock
  zombie : ∀ p, (s.sys.proc p).state = .zombie → Counted s p (s.died p) ∧ (s.times p).etime = uint (s.died p)
  reports : ∀ r ∈ s.reports, r.Right s.clock s.seen

variable {s t : State} {a : Act} {p q b d : Nat} {st : ProcState} {seen seen' : Nat → Nat → ProcState} {v : Times}

theorem spent_congr (h : ∀ k, k ≤ d → seen' k p = seen k p) : spent seen' p b d st = spent seen p b d st := by
  unfold spent
  congr 1
  refine Finset.filter_congr fun k hk => ?_
  rw [h k (Finset.mem_Ioc.mp hk).2]

theorem spent_self : spent seen p b b st = 0 := by simp [spent]

theorem spent_succ (h : b ≤ d) :
    spent seen p b (d + 1) st = spent seen p b d st + if seen (d + 1) p = st then 1 else 0 := by
  have hioc : Finset.Ioc b (d + 1) = insert (d + 1) (Finset.Ioc b d) := by
    ext k
    simp only [Finset.mem_Ioc, Finset.mem_insert]
    omega
  unfold spent
  rw [hioc, Finset.filter_insert]
  split
  next => rw [Finset.card_insert_of_notMem (by simp)]
  next => rfl

theorem spent_sum (seen : Nat → Nat → ProcState) (p b d : Nat) :
    spent seen p b d .running + spent seen p b d .sleeping + spent seen p b d .runnable ≤ d - b := by
  unfold spent
  rw [← Finset.card_union_of_disjoint, ← Finset.card_union_of_disjoint]
  · calc _ ≤ (Finset.Ioc b d).card := Finset.card_le_card (by grind)
      _ = d - b := Nat.card_Ioc b d
  · rw [Finset.disjoint_left]
    grind
  · rw [Finset.disjoint_left]
    grind

theorem spent_rest (seen : Nat → Nat → ProcState) (p b d : Nat) :
    spent seen p b d .running + ((Finset.Ioc b d).filter fun k => seen k p ≠ .running).card = d - b := by
  unfold spent
  rw [Finset.card_filter_add_card_filter_not, Nat.card_Ioc]

theorem usub_uint (h : b ≤ d) (hlt : d - b < 4294967296) : usub (uint d) (uint b) = d - b := by
  unfold usub uint
  omega

theorem uint_of_lt (h : b < 4294967296) : uint b = b := Nat.mod_eq_of_lt h

theorem uint_add_one : uint (uint b + 1) = uint (b + 1) := by
  unfold uint
  omega

theorem updateTime_one (st : ProcState) (v : Times) : ∃ dr ds dw, dr + ds + dw ≤ 1 ∧
    updateTime st v = { v with
      rtimeTotal := if dr = 1 then uint (v.rtimeTotal + 1) else v.rtimeTotal
      stimeTotal := if ds = 1 then uint (v.stimeTotal + 1) else v.stimeTotal
      wtimeTotal := if dw = 1 then uint (v.wtimeTotal + 1) else v.wtimeTotal } := by
  unfold updateTime
  split
  next => exact ⟨1, 0, 0, by simp⟩
  next =>
    split
    next => exact ⟨0, 1, 0, by simp⟩
    next =>
      split
      next => exact ⟨0, 0, 1, by simp⟩
      next => exact ⟨0, 0, 0, by simp⟩

theorem Counted.congr (h : Counted s p d) (htimes : t.times p = s.times p) (hborn : t.born p = s.born p)
    (hclock : s.clock ≤ t.clock) (hseen : ∀ k, k ≤ d → t.seen k p = s.seen k p) : Counted t p d where
  born := by
    rw [hborn]
    exact h.born
  bound := h.bound.trans hclock
  ctime := by
    rw [htimes, hborn]
    exact h.ctime
  rtime := by
    rw [htimes, hborn, spent_congr hseen]
    exact h.rtime
  stime := by
    rw [htimes, hborn, spent_congr hseen]
    exact h.stime
  wtime := by
    rw [htimes, hborn, spent_congr hseen]
    exact h.wtime

theorem Report.Right.congr {r : Report} {clock clock' : Nat} (h : r.Right clock seen) (hclock : clock ≤ clock')
    (hseen : ∀ k, k ≤ clock → seen' k = seen k) : r.Right clock' seen' := by
  refine ⟨h.born, h.bound.trans hclock, h.ctime, h.etime, ?_, h.wtime⟩
  rw [spent_congr fun k hk => by rw [hseen k (hk.trans h.bound)]]
  exact h.rtime

theorem clockintr_seen {k : Nat} (hk : k ≤ s.clock) : (clockintr s).seen k = s.seen k := by
  have hne : k ≠ s.clock + 1 := by omega
  simp [clockintr, hne]

theorem spent_clockintr (h : b ≤ s.clock) : spent (clockintr s).seen p b (s.clock + 1) st =
    spent s.seen p b s.clock st + if (s.sys.proc p).state = st then 1 else 0 := by
  have hnew : (clockintr s).seen (s.clock + 1) p = (s.sys.proc p).state := by simp [clockintr]
  rw [spent_succ h, hnew, spent_congr fun k hk => by rw [clockintr_seen hk]]

theorem Counted.tick (h : Counted s p s.clock) (hp : p < NPROC) : Counted (clockintr s) p (clockintr s).clock := by
  have htimes : (clockintr s).times p = updateTime (s.sys.proc p).state (s.times p) := by
    simp [clockintr, hp]
  have hcount : ∀ st, spent (clockintr s).seen p (s.born p) (s.clock + 1) st =
      spent s.seen p (s.born p) s.clock st + if (s.sys.proc p).state = st then 1 else 0 := fun st =>
    spent_clockintr h.born
  constructor
  case born => exact h.born.trans (Nat.le_succ _)
  case bound => exact Nat.le_refl _
  case ctime =>
    rw [htimes]
    obtain ⟨_, _, _, _, he⟩ := updateTime_one (s.sys.proc p).state (s.times p)
    rw [he]
    exact h.ctime
  case rtime =>
    have hr := h.rtime
    change ((clockintr s).times p).rtimeTotal = uint (spent (clockintr s).seen p (s.born p) (s.clock + 1) .running)
    rw [htimes, hcount]
    cases hst : (s.sys.proc p).state <;> simp [updateTime, hr, uint_add_one]
  case stime =>
    have hr := h.stime
    change ((clockintr s).times p).stimeTotal = uint (spent (clockintr s).seen p (s.born p) (s.clock + 1) .sleeping)
    rw [htimes, hcount]
    cases hst : (s.sys.proc p).state <;> simp [updateTime, hr, uint_add_one]
  case wtime =>
    have hr := h.wtime
    change ((clockintr s).times p).wtimeTotal = uint (spent (clockintr s).seen p (s.born p) (s.clock + 1) .runnable)
    rw [htimes, hcount]
    cases hst : (s.sys.proc p).state <;> simp [updateTime, hr, uint_add_one]

theorem wakeupTicks_inv {u : Wait.State} (h : Wait.Inv u) (n : Nat) : Wait.Inv (wakeupTicks u n) := by
  induction n with
  | zero => exact h
  | succ n ih => exact Wait.inv_wakeupSlot ih

theorem wakeupTicks_steady {u : Wait.State} (n : Nat) : Wait.Steady u (wakeupTicks u n) q := by
  induction n with
  | zero => exact .of_proc rfl
  | succ n ih => exact ih.trans Wait.steady_wakeupSlot

theorem inv_clockintr (h : Inv s) : Inv (clockintr s) := by
  have hsys : (clockintr s).sys = wakeupTicks s.sys NPROC := by simp only [clockintr]
  have hsteady : ∀ q, Wait.Steady s.sys (clockintr s).sys q := by
    intro q
    rw [hsys]
    exact wakeupTicks_steady NPROC
  constructor
  case sys =>
    rw [hsys]
    exact wakeupTicks_inv h.sys NPROC
  case ticks =>
    change uint (s.ticks + 1) = uint (s.clock + 1)
    rw [h.ticks, uint_add_one]
  case alive =>
    intro q hq
    have hs := (hsteady q).1 hq
    refine (h.alive q hs).tick ?_
    by_contra hge
    rw [h.sys.range q (by omega)] at hs
    cases hs
  case zombie =>
    intro q hq
    have hs := (hsteady q).2 hq
    obtain ⟨hc, he⟩ := h.zombie q hs
    have htimes : (clockintr s).times q = s.times q := by simp [clockintr, updateTime, hs]
    refine ⟨hc.congr htimes rfl (Nat.le_succ _) fun k hk => ?_, ?_⟩
    · rw [clockintr_seen (hk.trans hc.bound)]
    · rw [htimes]
      exact he
  case reports =>
    intro r hr
    have hold : r ∈ s.reports := by simpa only [clockintr] using hr
    have hclock : (clockintr s).clock = s.clock + 1 := by simp only [clockintr]
    rw [hclock]
    exact (h.reports r hold).congr (Nat.le_succ _) fun k hk => clockintr_seen hk

theorem account_other {ok : Bool} (halloc : ¬ Allocates s.sys (.step p ok) q)
    (hexit : ¬ Exits s.sys (.step p ok) q) : (account s p ok).times q = s.times q ∧
    (account s p ok).born q = s.born q ∧ (account s p ok).died q = s.died q := by
  unfold account
  split
  next i hpc =>
    split
    next hu =>
      have hq : q ≠ i := by
        rintro rfl
        exact halloc ⟨p, ok, rfl, hpc, hu⟩
      simp [allocproc, hq]
    next => exact ⟨rfl, rfl, rfl⟩
  next status hpc =>
    have hq : q ≠ p := by
      rintro rfl
      exact hexit ⟨ok, status, rfl, hpc⟩
    simp [exit, hq]
  next r i _ hpc => split <;> exact ⟨rfl, rfl, rfl⟩
  next => exact ⟨rfl, rfl, rfl⟩

theorem account_clock (s : State) (p : Nat) (ok : Bool) :
    (account s p ok).ticks = s.ticks ∧ (account s p ok).clock = s.clock ∧ (account s p ok).seen = s.seen := by
  unfold account
  split
  next => split <;> exact ⟨rfl, rfl, rfl⟩
  next => exact ⟨rfl, rfl, rfl⟩
  next => split <;> exact ⟨rfl, rfl, rfl⟩
  next => exact ⟨rfl, rfl, rfl⟩

theorem account_reports {ok : Bool} (h : Inv s) {r : Report} (hr : r ∈ (account s p ok).reports) :
    r.Right s.clock s.seen := by
  unfold account at hr
  split at hr
  next => split at hr <;> exact h.reports r hr
  next => exact h.reports r hr
  next x i _ hpc =>
    split at hr
    next hz =>
      rcases List.mem_cons.mp hr with rfl | hr
      · obtain ⟨hc, he⟩ := h.zombie i hz.2.2.1
        exact ⟨hc.born, hc.bound, hc.ctime, he, hc.rtime, rfl⟩
      · exact h.reports r hr
    next => exact h.reports r hr
  next => exact h.reports r hr

theorem inv_step {ok : Bool} {u : Wait.State} (h : Inv s) (hu : Wait.act s.sys (.step p ok) = some u) :
    Inv { account s p ok with sys := u } := by
  obtain ⟨hticks, hclock, hseen⟩ := account_clock s p ok
  have hkeep : ∀ q d, ¬ Allocates s.sys (.step p ok) q → ¬ Exits s.sys (.step p ok) q → Counted s q d →
      Counted { account s p ok with sys := u } q d := by
    intro q d halloc hexit hc
    obtain ⟨htimes, hborn, _⟩ := account_other halloc hexit
    exact hc.congr htimes hborn (Nat.le_of_eq hclock.symm) fun k _ => by rw [hseen]
  constructor
  case sys => exact Wait.inv_act h.sys hu
  case ticks =>
    change (account s p ok).ticks = uint (account s p ok).clock
    rw [hticks, hclock]
    exact h.ticks
  case alive =>
    intro q hq
    change Counted _ q (account s p ok).clock
    rw [hclock]
    by_cases halloc : Allocates s.sys (.step p ok) q
    · obtain ⟨p', ok', hstep, hpc, hlt, hun⟩ := halloc
      cases hstep
      have hacc : account s p ok = allocproc s q := by
        unfold account
        rw [hpc]
        exact if_pos ⟨hlt, hun⟩
      rw [hacc]
      constructor <;> simp [allocproc, h.ticks, spent_self, uint]
    · by_cases hexit : Exits s.sys (.step p ok) q
      · rw [(Wait.exits_act hu hexit).2] at hq
        cases hq
      · exact hkeep q _ halloc hexit (h.alive q ((Wait.steady_act h.sys hu halloc hexit).1 hq))
  case zombie =>
    intro q hq
    have halloc : ¬ Allocates s.sys (.step p ok) q := fun halloc => Wait.allocates_act hu halloc hq
    by_cases hexit : Exits s.sys (.step p ok) q
    · obtain ⟨hrun, _⟩ := Wait.exits_act hu hexit
      obtain ⟨ok', status, hstep, hpc⟩ := hexit
      cases hstep
      have hacc : account s p ok = exit s p := by
        unfold account
        rw [hpc]
      have hc := h.alive p (Wait.alive_running hrun)
      rw [hacc]
      refine ⟨⟨?_, ?_, ?_, ?_, ?_, ?_⟩, ?_⟩
      · simpa [exit] using hc.born
      · simp [exit]
      · simpa [exit] using hc.ctime
      · simpa [exit] using hc.rtime
      · simpa [exit] using hc.stime
      · simpa [exit] using hc.wtime
      · simpa [exit] using h.ticks
    · obtain ⟨hc, he⟩ := h.zombie q ((Wait.steady_act h.sys hu halloc hexit).2 hq)
      obtain ⟨htimes, _, hdied⟩ := account_other halloc hexit
      refine ⟨?_, ?_⟩
      · change Counted _ q ((account s p ok).died q)
        rw [hdied]
        exact hkeep q _ halloc hexit hc
      · change ((account s p ok).times q).etime = uint ((account s p ok).died q)
        rw [htimes, hdied]
        exact he
  case reports =>
    intro r hr
    change r.Right (account s p ok).clock (account s p ok).seen
    rw [hclock, hseen]
    exact account_reports h hr

theorem inv_other {w : Wait.Act} {u : Wait.State} (h : Inv s) (hu : Wait.act s.sys w = some u)
    (hw : ∀ p ok, w ≠ .step p ok) : Inv { s with sys := u } := by
  have hsteady : ∀ q, Wait.Steady s.sys u q := by
    intro q
    refine Wait.steady_act h.sys hu ?_ ?_
    · rintro ⟨p, ok, he, _⟩
      exact hw p ok he
    · rintro ⟨ok, status, he, _⟩
      exact hw q ok he
  constructor
  case sys => exact Wait.inv_act h.sys hu
  case ticks => exact h.ticks
  case alive =>
    intro q hq
    exact (h.alive q ((hsteady q).1 hq)).congr rfl rfl (Nat.le_refl _) fun _ _ => rfl
  case zombie =>
    intro q hq
    obtain ⟨hc, he⟩ := h.zombie q ((hsteady q).2 hq)
    exact ⟨hc.congr rfl rfl (Nat.le_refl _) fun _ _ => rfl, he⟩
  case reports => exact h.reports

theorem inv_act (h : Inv s) (ht : act s a = some t) : Inv t := by
  cases a with
  | clockintr =>
    cases Option.some.inj ht
    exact inv_clockintr h
  | sys w =>
    cases w with
    | step p ok =>
      simp only [act, Option.map_eq_some_iff] at ht
      obtain ⟨u, hu, rfl⟩ := ht
      exact inv_step h hu
    | _ =>
      simp only [act, Option.map_eq_some_iff] at ht
      obtain ⟨u, hu, rfl⟩ := ht
      exact inv_other h hu (by simp)

theorem inv_userinit : Inv userinit where
  sys := Wait.inv_userinit
  ticks := rfl
  alive p _ := by constructor <;> simp [userinit, spent_self, uint]
  zombie p hp := by
    simp only [userinit, Wait.userinit, Function.update_apply] at hp
    split at hp <;> cases hp
  reports r hr := by cases hr

theorem inv_reach (h : machine.Reachable s) : Inv s := by
  refine h.invariant ?_ fun _ _ _ _ hi _ ht => inv_act hi ht
  rintro _ rfl
  exact inv_userinit

/-- For lives of less than `2^32` ticks: the counters do not exceed the age of the process, a tick adds
to at most one of them, and `waitx` reports the ticks at which the child was RUNNING and those at which
it was not. -/
theorem times_account (h : machine.Reachable s) :
    (∀ p, Alive (s.sys.proc p).state = true → s.clock - s.born p < 4294967296 →
      (s.times p).rtimeTotal + (s.times p).stimeTotal + (s.times p).wtimeTotal ≤ usub s.ticks (s.times p).ctime) ∧
    (∀ t p, act s .clockintr = some t → ∃ dr ds dw, dr + ds + dw ≤ 1 ∧ t.times p = { s.times p with
      rtimeTotal := if dr = 1 then uint ((s.times p).rtimeTotal + 1) else (s.times p).rtimeTotal
      stimeTotal := if ds = 1 then uint ((s.times p).stimeTotal + 1) else (s.times p).stimeTotal
      wtimeTotal := if dw = 1 then uint ((s.times p).wtimeTotal + 1) else (s.times p).wtimeTotal }) ∧
    ∀ r ∈ s.reports, r.died - r.born < 4294967296 →
      r.rtime + r.wtime = usub r.etime r.ctime ∧ usub r.etime r.ctime = r.died - r.born ∧
      r.wtime = ((Finset.Ioc r.born r.died).filter fun k => s.seen k r.child ≠ .running).card := by
  have hi := inv_reach h
  refine ⟨fun p hp hlt => ?_, fun t p ht => ?_, fun r hr hlt => ?_⟩
  · have hc := hi.alive p hp
    have hsum := spent_sum s.seen p (s.born p) s.clock
    rw [hc.rtime, hc.stime, hc.wtime, hc.ctime, hi.ticks, usub_uint hc.born hlt, uint_of_lt (by omega),
      uint_of_lt (by omega), uint_of_lt (by omega)]
    exact hsum
  · cases Option.some.inj ht
    by_cases hp : p < NPROC
    · have htimes : (clockintr s).times p = updateTime (s.sys.proc p).state (s.times p) := by
        simp [clockintr, hp]
      rw [htimes]
      exact updateTime_one _ _
    · exact ⟨0, 0, 0, by simp [clockintr, hp]⟩
  · have hr := hi.reports r hr
    have hlife := spent_rest s.seen r.child r.born r.died
    have hrtime : r.rtime = spent s.seen r.child r.born r.died .running := by
      rw [hr.rtime, uint_of_lt (by omega)]
    have hwtime : r.wtime = r.died - r.born - r.rtime := by
      rw [hr.wtime, hr.etime, hr.ctime]
      unfold usub uint
      have := hr.born
      omega
    have hspan : usub r.etime r.ctime = r.died - r.born := by rw [hr.etime, hr.ctime, usub_uint hr.born hlt]
    exact ⟨by omega, hspan, by omega⟩

/-- After a tick `initproc` forks a child, which waits for one tick, runs for one and exits; `waitx`
reaps it a tick later. -/
def forkExitWaitx : List Act :=
  [.sys (.dispatch 0), .clockintr, .sys (.call 0 .fork)] ++ List.replicate 4 (.sys (.step 0 true)) ++
  [.clockintr, .sys (.dispatch 1), .clockintr, .sys (.call 1 (.exit 7))] ++
  List.replicate 132 (.sys (.step 1 true)) ++
  [.clockintr, .sys (.call 0 (.wait ⟨true, false⟩))] ++ List.replicate 3 (.sys (.step 0 true))

theorem times_account_forkExitWaitx : ∃ s r, machine.Reachable s ∧ s.reports = [r] ∧ r.rtime = 1 ∧
    r.ctime = 1 ∧ r.etime = 3 ∧ r.rtime + r.wtime = usub r.etime r.ctime ∧
    (s.times 0).rtimeTotal = 4 ∧
    (s.times 0).rtimeTotal + (s.times 0).stimeTotal + (s.times 0).wtimeTotal ≤ usub s.ticks (s.times 0).ctime := by
  have hrun : ((machine.run userinit forkExitWaitx).any fun s => s.reports =
      [{ child := 1, rtime := 1, wtime := 1, ctime := 1, etime := 3, born := 1, died := 3 }] ∧
      (s.sys.proc 0).state = .running ∧ (s.times 0).rtimeTotal = 4 ∧ s.clock = 4) = true := by decide +kernel
  obtain ⟨s, hs, hreports, hstate, hrtime, hclock⟩ := exists_of_any hrun
  have h := times_account (Machine.Reachable.of_run rfl hs)
  have hr := h.2.2 _ (by rw [hreports]; exact List.mem_singleton_self _) (by decide)
  exact ⟨s, _, Machine.Reachable.of_run rfl hs, hreports, rfl, rfl, rfl, hr.1, hrtime,
    h.1 0 (by rw [hstate]; rfl) (by omega)⟩

end TweakedXv6.Time
