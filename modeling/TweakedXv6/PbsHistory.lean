import TweakedXv6.Machine
import TweakedXv6.PbsModel

namespace TweakedXv6.Pbs

/-- `clock` counts the ticks since boot without wrapping; `ran` and `slept` those at which the process
was RUNNING and SLEEPING since it was last scheduled. -/
structure History where
  ticks : UInt32
  proc : Entry
  clock : Nat
  ran : Nat
  slept : Nat

inductive Event
  | clockintr
  | allocproc (pid : Int)
  | start
  | consider
  | dispatch
  | yield
  | sleep
  | wakeup
  | exit
  | freeproc
  | setPriority (new : Int)
  deriving DecidableEq, Repr

def History.move (s : History) (a b : ProcState) : Option History :=
  if s.proc.state = a then some { s with proc := { s.proc with state := b } } else none

def happen (s : History) : Event → Option History
  | .clockintr => some
    { ticks := s.ticks + 1, proc := updateTime s.proc, clock := s.clock + 1
      ran := if s.proc.state = .running then s.ran + 1 else s.ran
      slept := if s.proc.state = .sleeping then s.slept + 1 else s.slept }
  | .allocproc pid =>
    if s.proc.state = .unused then some { s with proc := allocproc s.proc pid s.ticks, ran := 0, slept := 0 }
    else none
  | .start => s.move .used .runnable
  | .consider => if s.proc.state = .runnable then some { s with proc := consider s.proc } else none
  | .dispatch =>
    if s.proc.state = .runnable then some { s with proc := dispatch s.proc s.ticks, ran := 0, slept := 0 }
    else none
  | .yield => s.move .running .runnable
  | .sleep => s.move .running .sleeping
  | .wakeup => s.move .sleeping .runnable
  | .exit => s.move .running .zombie
  | .freeproc =>
    if s.proc.state = .used ∨ s.proc.state = .zombie then some { s with proc := freeproc s.proc } else none
  | .setPriority new =>
    if isValidPriority new then some { s with proc := { s.proc with staticPriority := UInt32.ofNat new.toNat } }
    else none

def history : Machine History Event where
  init s := s.ticks = 0 ∧ s.clock = 0 ∧ s.proc.state = .unused
  step := happen

def History.Exact (s : History) : Prop :=
  (consider s.proc).rtimeLastrun.toNat = s.ran ∧ (consider s.proc).stimeLastrun.toNat = s.slept ∧
  (consider s.proc).niceness.toNat =
    (if s.slept + s.ran = 0 then 5 else 10 * s.slept / (s.slept + s.ran)) ∧
  ((consider s.proc).dynamicPriority.toNat : Int) =
    max 0 (min 100 ((s.proc.staticPriority.toNat : Int) - (consider s.proc).niceness.toNat + 5))

/-- The process has not been scheduled after tick 0, and has not run or slept, or has run more than nine
times as long as it has slept. -/
def History.Fresh (s : History) : Prop :=
  s.proc.lastSchedTime = 0 ∧ (s.proc.rtimeTotal = 0 ∧ s.proc.stimeTotal = 0 ∨
    s.proc.stimeTotal ≠ 0 ∧ 9 * s.proc.stimeTotal.toNat < s.proc.rtimeTotal.toNat)

def NoWrap (s : History) (a : Event) : Prop := a = .clockintr → s.clock + 1 < 4294967296

instance (s : History) (a : Event) : Decidable (NoWrap s a) := by
  unfold NoWrap
  infer_instance

structure Counted (s : History) : Prop where
  ran : s.ran ≤ s.proc.rtimeTotal.toNat
  slept : s.slept ≤ s.proc.stimeTotal.toNat
  before : s.proc.rtimeTotal.toNat - s.ran + (s.proc.stimeTotal.toNat - s.slept) ≤ s.proc.lastSchedTime.toNat
  total : s.proc.rtimeTotal.toNat + s.proc.stimeTotal.toNat ≤ s.clock
  priority : s.proc.staticPriority.toNat ≤ 100

structure HistoryInv (s : History) : Prop where
  ticks : s.ticks.toNat = s.clock
  clock : s.clock < 4294967296
  counted : s.proc.state ≠ .unused → Counted s

variable {s t : History} {a : Event} {p : Entry}

theorem toNat_succ {x : UInt32} (h : x.toNat + 1 < 4294967296) : (x + 1).toNat = x.toNat + 1 := by
  rw [UInt32.toNat_add]
  exact Nat.mod_eq_of_lt h

theorem Counted.move (h : Counted s) (b : ProcState) : Counted { s with proc := { s.proc with state := b } } :=
  { h with }

theorem HistoryInv.move (h : HistoryInv s) {b c : ProcState} (hb : b ≠ .unused) (hs : s.move b c = some t) :
    HistoryInv t := by
  unfold History.move at hs
  split at hs
  next hst =>
    cases hs
    exact ⟨h.ticks, h.clock, fun _ => (h.counted (by rwa [hst])).move c⟩
  next => cases hs

theorem Counted.tick (h : Counted s) (hlt : s.clock + 1 < 4294967296) :
    Counted
      { ticks := s.ticks + 1, proc := updateTime s.proc, clock := s.clock + 1
        ran := if s.proc.state = .running then s.ran + 1 else s.ran
        slept := if s.proc.state = .sleeping then s.slept + 1 else s.slept } := by
  have htotal := h.total
  have hran := h.ran
  have hslept := h.slept
  have hbefore := h.before
  unfold updateTime
  by_cases hr : s.proc.state = .running
  · have hs : s.proc.state ≠ .sleeping := by simp [hr]
    have hr1 : (s.proc.rtimeTotal + 1).toNat = s.proc.rtimeTotal.toNat + 1 := toNat_succ (by omega)
    simp only [if_pos hr, if_neg hs]
    refine ⟨?_, h.slept, ?_, ?_, h.priority⟩ <;> dsimp only <;> omega
  · by_cases hs : s.proc.state = .sleeping
    · have hs1 : (s.proc.stimeTotal + 1).toNat = s.proc.stimeTotal.toNat + 1 := toNat_succ (by omega)
      simp only [if_pos hs, if_neg hr]
      refine ⟨h.ran, ?_, ?_, ?_, h.priority⟩ <;> dsimp only <;> omega
    · simp only [if_neg hs, if_neg hr]
      exact ⟨h.ran, h.slept, h.before, Nat.le_succ_of_le h.total, h.priority⟩

theorem updateTime_state (p : Entry) : (updateTime p).state = p.state := by
  unfold updateTime
  split
  next => rfl
  next => split <;> rfl

theorem Counted.consider (h : Counted s) : Counted { s with proc := Pbs.consider s.proc } := by
  have hr : (Pbs.consider s.proc).rtimeTotal = s.proc.rtimeTotal := by rw [Pbs.consider]
  have hs : (Pbs.consider s.proc).stimeTotal = s.proc.stimeTotal := by rw [Pbs.consider]
  have hl : (Pbs.consider s.proc).lastSchedTime = s.proc.lastSchedTime := by rw [Pbs.consider]
  have hp : (Pbs.consider s.proc).staticPriority = s.proc.staticPriority := by rw [Pbs.consider]
  constructor
  · simpa only [hr] using h.ran
  · simpa only [hs] using h.slept
  · simpa only [hr, hs, hl] using h.before
  · simpa only [hr, hs] using h.total
  · simpa only [hp] using h.priority

theorem HistoryInv.step (h : HistoryInv s) (hc : NoWrap s a) (hs : happen s a = some t) : HistoryInv t := by
  cases a with
  | clockintr =>
    cases hs
    have hlt := hc rfl
    have hticks := h.ticks
    refine ⟨?_, hlt, fun hst => ?_⟩
    · show (s.ticks + 1).toNat = s.clock + 1
      rw [toNat_succ (by omega), hticks]
    · exact (h.counted (by rwa [← updateTime_state])).tick hlt
  | allocproc pid =>
    simp only [happen] at hs
    split at hs
    next =>
      cases hs
      refine ⟨h.ticks, h.clock, fun _ => ?_⟩
      exact ⟨Nat.le_refl 0, Nat.le_refl 0, Nat.le_refl 0, Nat.zero_le _, show (60 : UInt32).toNat ≤ 100 by decide⟩
    next => cases hs
  | start => exact h.move (by simp) hs
  | consider =>
    simp only [happen] at hs
    split at hs
    next hst =>
      cases hs
      exact ⟨h.ticks, h.clock, fun _ => (h.counted (by simp [hst])).consider⟩
    next => cases hs
  | dispatch =>
    simp only [happen] at hs
    split at hs
    next hst =>
      cases hs
      have hcount := h.counted (by simp [hst])
      refine ⟨h.ticks, h.clock, fun _ => ?_⟩
      refine ⟨Nat.zero_le _, Nat.zero_le _, ?_, hcount.total, hcount.priority⟩
      show s.proc.rtimeTotal.toNat - 0 + (s.proc.stimeTotal.toNat - 0) ≤ s.ticks.toNat
      rw [h.ticks]
      exact hcount.total
    next => cases hs
  | yield => exact h.move (by simp) hs
  | sleep => exact h.move (by simp) hs
  | wakeup => exact h.move (by simp) hs
  | exit => exact h.move (by simp) hs
  | freeproc =>
    simp only [happen] at hs
    split at hs
    next =>
      cases hs
      exact ⟨h.ticks, h.clock, fun hst => absurd rfl hst⟩
    next => cases hs
  | setPriority new =>
    simp only [happen] at hs
    split at hs
    next hvalid =>
      cases hs
      refine ⟨h.ticks, h.clock, fun hst => ?_⟩
      have hcount := h.counted hst
      refine ⟨hcount.ran, hcount.slept, hcount.before, hcount.total, ?_⟩
      have hrange : 0 ≤ new ∧ new ≤ 100 := of_decide_eq_true hvalid
      show (UInt32.ofNat new.toNat).toNat ≤ 100
      rw [UInt32.toNat_ofNat']
      omega
    next => cases hs

theorem historyInv (h : history.Reach NoWrap s) : HistoryInv s := by
  refine Machine.Reach.invariant (I := HistoryInv) ?_ ?_ h
  · rintro s ⟨hticks, hclock, hst⟩
    refine ⟨by rw [hticks, hclock]; rfl, by rw [hclock]; decide, fun hne => absurd hst hne⟩
  · exact fun s a t _ hinv hc hs => hinv.step hc hs

theorem toNat_sub (x y : UInt32) : (x - y).toNat = (4294967296 - y.toNat + x.toNat) % 4294967296 :=
  UInt32.toNat_sub x y

theorem niceness_toNat {r s : UInt32} (h : r.toNat + s.toNat < 4294967296) : (niceness r s).toNat =
    if r.toNat + s.toNat = 0 then 5 else r.toNat / (r.toNat + s.toNat) * 10 := by
  have hadd : (r + s).toNat = r.toNat + s.toNat := by
    rw [UInt32.toNat_add]
    exact Nat.mod_eq_of_lt h
  unfold niceness
  by_cases hz : r.toNat + s.toNat = 0
  · have hsum : r + s = 0 := UInt32.toNat_inj.mp (hadd.trans hz)
    rw [if_pos hz, if_neg (not_not.mpr hsum)]
    rfl
  · have hsum : r + s ≠ 0 := by
      intro he
      rw [he] at hadd
      exact hz hadd.symm
    have hquot : r.toNat / (r.toNat + s.toNat) ≤ 1 := Nat.div_le_of_le_mul (by omega)
    have hten : (10 : UInt32).toNat = 10 := rfl
    rw [if_neg hz, if_pos hsum, UInt32.toNat_mul, UInt32.toNat_div, hadd, hten]
    omega

theorem quotient_eq_iff {r s : Nat} (h : r + s ≠ 0) : r / (r + s) * 10 = 10 * s / (s + r) ↔ s ≠ 0 ∧ 9 * s < r := by
  by_cases hs : s = 0
  · subst hs
    rw [Nat.add_zero, Nat.div_self (by omega), Nat.mul_zero, Nat.zero_div]
    simp
  · rw [Nat.div_eq_of_lt (by omega : r < r + s), Nat.zero_mul, eq_comm, Nat.div_eq_zero_iff]
    omega

theorem clamp_toNat {x n : UInt32} (hx : x.toNat ≤ 100) (hn : n.toNat ≤ 10) :
    ((UInt32.ofNat (clamp (toInt (x - n + 5))).toNat).toNat : Int) =
      max 0 (min 100 ((x.toNat : Int) - n.toNat + 5)) := by
  have hfive : (5 : UInt32).toNat = 5 := rfl
  have hword : (x - n + 5).toNat = (4294967296 - n.toNat + x.toNat + 5) % 4294967296 := by
    rw [UInt32.toNat_add, toNat_sub, hfive]
    omega
  have hint : toInt (x - n + 5) = (x.toNat : Int) - n.toNat + 5 := by
    rw [toInt_eq, hword]
    split <;> omega
  rw [hint, UInt32.toNat_ofNat', clamp]
  omega

theorem priority_iff (h : history.Reach NoWrap s) (hst : s.proc.state = .runnable) : s.Exact ↔ s.Fresh := by
  have hinv := historyInv h
  have hclock := hinv.clock
  obtain ⟨hran, hslept, hbefore, htotal, hprio⟩ := hinv.counted (by simp [hst])
  have hr : (consider s.proc).rtimeLastrun = s.proc.rtimeTotal - s.proc.lastSchedTime := by rw [consider]
  have hs : (consider s.proc).stimeLastrun = s.proc.stimeTotal - s.proc.lastSchedTime := by rw [consider]
  have hn : (consider s.proc).niceness = niceness (s.proc.rtimeTotal - s.proc.lastSchedTime)
      (s.proc.stimeTotal - s.proc.lastSchedTime) := by rw [consider]
  have hd : (consider s.proc).dynamicPriority = UInt32.ofNat (clamp (toInt (s.proc.staticPriority -
      (consider s.proc).niceness + 5))).toNat := by rw [hn, consider]
  unfold History.Exact History.Fresh
  rw [hr, hs, hd, hn]
  constructor
  · rintro ⟨hr, hs, hnice, _⟩
    rw [toNat_sub] at hr hs
    have hR := s.proc.rtimeTotal.toNat_lt
    have hS := s.proc.stimeTotal.toNat_lt
    have hT := s.proc.lastSchedTime.toNat_lt
    -- the counters up to the last dispatch would both be the tick of the dispatch
    have hlast : s.proc.lastSchedTime.toNat = 0 := by omega
    have hzero : s.proc.lastSchedTime = 0 := UInt32.toNat_inj.mp hlast
    have hran : s.ran = s.proc.rtimeTotal.toNat := by omega
    have hslept : s.slept = s.proc.stimeTotal.toNat := by omega
    rw [hzero, UInt32.sub_zero, UInt32.sub_zero, niceness_toNat (by omega), hran, hslept] at hnice
    refine ⟨hzero, ?_⟩
    by_cases hnone : s.proc.rtimeTotal.toNat + s.proc.stimeTotal.toNat = 0
    · exact .inl ⟨UInt32.toNat_inj.mp (show _ = 0 by omega), UInt32.toNat_inj.mp (show _ = 0 by omega)⟩
    · rw [if_neg hnone, if_neg (by omega), quotient_eq_iff hnone] at hnice
      exact .inr ⟨fun he => hnice.1 (by rw [he, UInt32.toNat_zero]), hnice.2⟩
  · rintro ⟨hlast, hcase⟩
    rw [hlast, UInt32.toNat_zero] at hbefore
    have hran : s.ran = s.proc.rtimeTotal.toNat := by omega
    have hslept : s.slept = s.proc.stimeTotal.toNat := by omega
    rw [hlast, UInt32.sub_zero, UInt32.sub_zero, hran, hslept]
    have hnice : (niceness s.proc.rtimeTotal s.proc.stimeTotal).toNat ≤ 10 ∧
        (niceness s.proc.rtimeTotal s.proc.stimeTotal).toNat =
          if s.proc.stimeTotal.toNat + s.proc.rtimeTotal.toNat = 0 then 5
          else 10 * s.proc.stimeTotal.toNat / (s.proc.stimeTotal.toNat + s.proc.rtimeTotal.toNat) := by
      rw [niceness_toNat (by omega)]
      rcases hcase with ⟨hr, hs⟩ | ⟨hs, hlt⟩
      · rw [hr, hs]
        decide
      · have hs : s.proc.stimeTotal.toNat ≠ 0 := fun he => hs (UInt32.toNat_inj.mp he)
        have hnone : s.proc.rtimeTotal.toNat + s.proc.stimeTotal.toNat ≠ 0 := by omega
        rw [if_neg hnone, if_neg (by omega)]
        refine ⟨?_, (quotient_eq_iff hnone).mpr ⟨hs, hlt⟩⟩
        rw [Nat.div_eq_of_lt (by omega)]
        decide
    exact ⟨rfl, rfl, hnice.2, clamp_toNat hprio hnice.1⟩

def bootHistory : History := { ticks := 0, proc := {}, clock := 0, ran := 0, slept := 0 }

theorem priority_iff_new : ∃ s, history.Reach NoWrap s ∧ s.proc.state = .runnable ∧ s.clock = 2 ∧ s.Exact := by
  have hmeets : history.Meets NoWrap bootHistory [.clockintr, .allocproc 7, .start, .clockintr] := by decide
  have hrun : ((history.run bootHistory [.clockintr, .allocproc 7, .start, .clockintr]).any fun s =>
      s.proc.state = .runnable ∧ s.clock = 2 ∧ s.proc.lastSchedTime = 0 ∧ s.proc.rtimeTotal = 0 ∧
        s.proc.stimeTotal = 0) = true := by decide
  obtain ⟨s, hs, hst, hclock, hlast, hr, hsl⟩ := exists_of_any hrun
  have hreach := Machine.Reach.of_run (M := history) (.start ⟨rfl, rfl, rfl⟩) hmeets hs
  exact ⟨s, hreach, hst, hclock, (priority_iff hreach hst).mpr ⟨hlast, .inl ⟨hr, hsl⟩⟩⟩

/-- A process is scheduled at tick 1, runs for two ticks and yields: only one of them is counted. -/
theorem priority_wrong : ∃ s, history.Reachable s ∧ s.proc.state = .runnable ∧ s.ran = 2 ∧ s.slept = 0 ∧
    (consider s.proc).rtimeLastrun = 1 ∧ ¬ s.Exact := by
  have hrun : ((history.run bootHistory
      [.clockintr, .allocproc 7, .start, .dispatch, .clockintr, .clockintr, .yield]).any fun s =>
        s.proc.state = .runnable ∧ s.ran = 2 ∧ s.slept = 0 ∧ (consider s.proc).rtimeLastrun = 1) = true := by
    decide +kernel
  obtain ⟨s, hs, hst, hran, hslept, hr⟩ := exists_of_any hrun
  refine ⟨s, Machine.Reachable.of_run (M := history) ⟨rfl, rfl, rfl⟩ hs, hst, hran, hslept, hr, fun hexact => ?_⟩
  have := hexact.1
  rw [hr, hran] at this
  exact absurd this (by decide)

end TweakedXv6.Pbs
