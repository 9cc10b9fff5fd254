import TweakedXv6.Machine
import TweakedXv6.PbsModel

namespace TweakedXv6.Pbs

open Function (update update_of_ne)

/-- At the head of the loop for process `k`, with its lock just acquired, after the loop with a process
selected, at `swtch`, in the process, after `swtch`, or in a panic. -/
inductive Point
  | loop (k : Nat)
  | examine (k : Nat)
  | dispatch
  | switch
  | running
  | back
  | panic
  deriving DecidableEq

/-- `acquired` and `released` count what the scheduler has done with each lock since the head of its
endless loop. -/
structure Sched where
  point : Point
  selected : Option (Nat × UInt32)
  table : Table
  owner : Nat → Option Nat
  acquired : Nat → Nat
  released : Nat → Nat

/-- The step of the scheduler, at tick `ticks`; or a process and its lock are changed by others. -/
inductive Label
  | cpu (ticks : UInt32)
  | other (p : Nat) (e : Entry) (o : Option Nat)

section

variable (me : Nat)

/-- It waits while another CPU has the lock, and panics if this one has it. -/
def Sched.acquire (s : Sched) (k : Nat) : Option Sched :=
  if s.owner k = some me then some { s with point := .panic }
  else if s.owner k = none then
    some { s with owner := update s.owner k (some me)
                  acquired := update s.acquired k (s.acquired k + 1) }
  else none

def Sched.release (s : Sched) (k : Nat) : Sched :=
  if s.owner k = some me then
    { s with owner := update s.owner k none, released := update s.released k (s.released k + 1) }
  else { s with point := .panic }

def Sched.examine (s : Sched) (k : Nat) : Sched :=
  let s := { s with point := .loop (k + 1) }
  if (s.table k).state = .runnable then
    let p := consider (s.table k)
    let s := { s with table := update s.table k p }
    match s.selected with
    | none => { s with selected := some (k, p.dynamicPriority) }
    | some (q, priority) =>
      if replaces p (s.table q) priority then { s with selected := some (k, p.dynamicPriority) }.release me q
      else s.release me k
  else s.release me k

def Sched.restart (s : Sched) : Sched :=
  { s with point := .loop 0, selected := none, acquired := fun _ => 0, released := fun _ => 0 }

def Sched.advance (s : Sched) (ticks : UInt32) : Option Sched :=
  match s.point with
  | .loop k =>
    if k < NPROC then { s with point := .examine k }.acquire me k
    else
      match s.selected with
      | none => some s.restart
      | some _ => some { s with point := .dispatch }
  | .examine k => some (s.examine me k)
  | .dispatch =>
    s.selected.map fun r =>
      { s with point := .switch, table := update s.table r.1 (dispatch (s.table r.1) ticks) }
  -- The process releases its lock when it comes out of `swtch`.
  | .switch => s.selected.map fun r => { s with point := .running, owner := update s.owner r.1 none }
  -- It comes back through `sched`, which panics unless the process has its own lock and no other.
  | .running =>
    s.selected.bind fun r =>
      if s.owner r.1 = some me ∧ ∀ p < NPROC, p ≠ r.1 → s.owner p ≠ some me then some { s with point := .back } else none
  | .back => s.selected.map fun r => ({ s with point := .loop 0 }.release me r.1).restart
  | .panic => none

/-- The state of a process changes only under its lock. While the scheduler runs, the locks that its CPU
has stay with it, and it takes no others. -/
def Sched.step (s : Sched) : Label → Option Sched
  | .cpu ticks => s.advance me ticks
  | .other p e o =>
    if s.point = .running then some { s with table := update s.table p e, owner := update s.owner p o }
    else if s.owner p = some me then
      if e.state = (s.table p).state then some { s with table := update s.table p e } else none
    else if o = some me then none
    else some { s with table := update s.table p e, owner := update s.owner p o }

/-- A CPU that comes to the head of the loop without the lock of a process, with any process table. -/
def scheduler : Machine Sched Label where
  init s := s.point = .loop 0 ∧ s.selected = none ∧ (∀ p < NPROC, s.owner p ≠ some me) ∧ (∀ p, s.acquired p = 0) ∧
    ∀ p, s.released p = 0
  step := Sched.step me

end

def Sched.chosen (s : Sched) : Option Nat := s.selected.map Prod.fst

def Point.examined : Point → Option Nat
  | .examine k => some k
  | _ => none

def Point.reached : Point → Nat
  | .loop k => k
  | .examine k => k + 1
  | _ => NPROC

def Sched.Kept (s : Sched) (p : Nat) : Prop := s.chosen = some p ∨ s.point.examined = some p

instance (s : Sched) (p : Nat) : Decidable (s.Kept p) :=
  inferInstanceAs (Decidable (s.chosen = some p ∨ s.point.examined = some p))

def Point.selecting : Point → Bool
  | .loop _ => true
  | .examine _ => true
  | .dispatch => true
  | _ => false

/-- While the scheduler runs, its CPU has the locks of the process selected and of the one being examined
and no other. Each lock is acquired once and, unless it is kept, released once. -/
structure Safe (me : Nat) (s : Sched) : Prop where
  calm : s.point ≠ .panic
  locks : s.point ≠ .running → ∀ p < NPROC, s.owner p = some me ↔ s.Kept p
  once : ∀ p, s.acquired p = if p < s.point.reached then 1 else 0
  balance : ∀ p, s.released p = if p < s.point.reached ∧ ¬ s.Kept p then 1 else 0
  bound : s.point.reached ≤ NPROC
  earlier : ∀ q, s.chosen = some q → q < s.point.reached ∧ s.point.examined ≠ some q
  picked : s.point ∈ [.dispatch, .switch, .running, .back] → s.chosen ≠ none
  runnable : ∀ q, s.chosen = some q → s.point.selecting = true → (s.table q).state = .runnable
  marked : ∀ q, s.chosen = some q → s.point = .switch → (s.table q).state = .running

variable {me j k : Nat} {s t : Sched} {l : Label} {ticks : UInt32}

theorem Sched.kept_loop (hp : s.point = .loop k) (p : Nat) : s.Kept p ↔ s.chosen = some p := by
  simp [Kept, Point.examined, hp]

theorem Safe.loop (hp : s.point = .loop k) (hk : k ≤ NPROC)
    (locks : ∀ p < NPROC, s.owner p = some me ↔ s.chosen = some p) (once : ∀ p, s.acquired p = if p < k then 1 else 0)
    (balance : ∀ p, s.released p = if p < k ∧ s.chosen ≠ some p then 1 else 0)
    (earlier : ∀ q, s.chosen = some q → q < k) (runnable : ∀ q, s.chosen = some q → (s.table q).state = .runnable) :
    Safe me s := by
  have hkept := Sched.kept_loop hp
  refine ⟨by simp [hp], fun _ p hpn => ?_, fun p => ?_, fun p => ?_, ?_, fun q hq => ?_, by simp [hp],
    fun q hq _ => runnable q hq, by simp [hp]⟩
  · rw [hkept]
    exact locks p hpn
  · simpa [hp, Point.reached] using once p
  · simpa [hp, Point.reached, hkept] using balance p
  · simpa [hp, Point.reached] using hk
  · simpa [hp, Point.reached, Point.examined] using earlier q hq

theorem Safe.release (hp : s.point = .loop k) (hk : k ≤ NPROC) (hj : j < k) (hc : s.chosen ≠ some j)
    (locks : ∀ p < NPROC, s.owner p = some me ↔ s.chosen = some p ∨ p = j)
    (once : ∀ p, s.acquired p = if p < k then 1 else 0)
    (balance : ∀ p, s.released p = if p < k ∧ s.chosen ≠ some p ∧ p ≠ j then 1 else 0)
    (earlier : ∀ q, s.chosen = some q → q < k)
    (runnable : ∀ q, s.chosen = some q → (s.table q).state = .runnable) : Safe me (s.release me j) := by
  have hown : s.owner j = some me := (locks j (by omega)).mpr (.inr rfl)
  unfold Sched.release
  rw [if_pos hown]
  refine Safe.loop hp hk (fun p hpn => ?_) once (fun p => ?_) earlier runnable
  · show update s.owner j none p = some me ↔ s.chosen = some p
    by_cases hpj : p = j
    · subst hpj
      simp [hc]
    · simp [hpj, locks p hpn]
  · show update s.released j (s.released j + 1) p = if p < k ∧ s.chosen ≠ some p then 1 else 0
    by_cases hpj : p = j
    · subst hpj
      simp [balance p, hj, hc]
    · simp [hpj, balance p]

theorem Safe.init (h : (scheduler me).init s) : Safe me s := by
  obtain ⟨hp, hsel, hown, hacq, hrel⟩ := h
  have hc : s.chosen = none := by simp [Sched.chosen, hsel]
  refine Safe.loop hp (Nat.zero_le _) (fun p hpn => ?_) (by simpa using hacq) (by simpa using hrel) ?_ ?_
  · simp [hc, hown p hpn]
  · simp [hc]
  · simp [hc]

theorem Safe.acquire (h : Safe me s) (hp : s.point = .loop k) (hk : k < NPROC)
    (ha : { s with point := .examine k }.acquire me k = some t) : Safe me t := by
  have hkept := Sched.kept_loop hp
  have hfree : s.chosen ≠ some k := by
    intro hc
    have := (h.earlier k hc).1
    simp [hp, Point.reached] at this
  have hown : s.owner k ≠ some me := by
    rw [Ne, h.locks (by simp [hp]) k hk, hkept]
    exact hfree
  unfold Sched.acquire at ha
  rw [if_neg hown] at ha
  split at ha
  case isFalse => cases ha
  case isTrue hnone =>
    cases ha
    refine ⟨by simp, fun _ p hpn => ?_, fun p => ?_, fun p => ?_, hk, fun q hq => ?_, by simp,
      fun q hq _ => h.runnable q hq (by simp [hp, Point.selecting]), by simp⟩
    · show update s.owner k (some me) p = some me ↔ s.chosen = some p ∨ some k = some p
      have := h.locks (by simp [hp]) p hpn
      by_cases hpk : p = k
      · simp [hpk]
      · simp [hpk, this, hkept, Ne.symm hpk]
    · show update s.acquired k (s.acquired k + 1) p = if p < k + 1 then 1 else 0
      by_cases hpk : p = k
      · subst hpk
        simp [h.once p, hp, Point.reached]
      · have hlt : p < k + 1 ↔ p < k := by omega
        simp [hpk, h.once p, hp, Point.reached, hlt]
    · show s.released p = if p < k + 1 ∧ ¬ (s.chosen = some p ∨ some k = some p) then 1 else 0
      have hlt : p < k + 1 ∧ ¬ (s.chosen = some p ∨ some k = some p) ↔ p < k ∧ ¬ s.chosen = some p := by
        grind
      rw [if_congr hlt rfl rfl]
      simp [h.balance p, hp, Point.reached, hkept]
    · have := (h.earlier q hq).1
      simp only [hp, Point.reached] at this
      simp only [Point.reached, Point.examined, ne_eq, Option.some.injEq]
      omega

theorem Safe.examine (h : Safe me s) (hp : s.point = .examine k) : Safe me (s.examine me k) := by
  have hk : k + 1 ≤ NPROC := by simpa [hp, Point.reached] using h.bound
  have hlocks : ∀ p < NPROC, s.owner p = some me ↔ s.chosen = some p ∨ p = k := by
    intro p hpn
    rw [h.locks (by simp [hp]) p hpn]
    simp [Sched.Kept, hp, Point.examined, eq_comm]
  have honce : ∀ p, s.acquired p = if p < k + 1 then 1 else 0 := by
    simpa [hp, Point.reached] using h.once
  have hbalance : ∀ p, s.released p = if p < k + 1 ∧ s.chosen ≠ some p ∧ p ≠ k then 1 else 0 := by
    intro p
    simpa [Sched.Kept, hp, Point.reached, Point.examined, eq_comm] using h.balance p
  have hearlier : ∀ q, s.chosen = some q → q < k := by
    intro q hq
    have := h.earlier q hq
    simp only [hp, Point.reached, Point.examined, ne_eq, Option.some.injEq] at this
    omega
  have hrun : ∀ q, s.chosen = some q → (s.table q).state = .runnable :=
    fun q hq => h.runnable q hq (by simp [hp, Point.selecting])
  have hfree : s.chosen ≠ some k := fun hc => Nat.lt_irrefl k (hearlier k hc)
  have hlater : ∀ q, s.chosen = some q → q < k + 1 := fun q hq => Nat.lt_succ_of_lt (hearlier q hq)
  unfold Sched.examine
  dsimp only
  split
  case isFalse => exact Safe.release rfl hk (Nat.lt_succ_self k) hfree hlocks honce hbalance hlater hrun
  case isTrue hst =>
    have htable : ∀ q, s.chosen = some q ∨ q = k →
        (update s.table k (consider (s.table k)) q).state = .runnable := by
      intro q hq
      by_cases hqk : q = k
      · subst hqk
        simpa [consider] using hst
      · rw [update_of_ne hqk]
        exact hrun q (hq.resolve_right hqk)
    cases hsel : s.selected with
    | none =>
      have hc : s.chosen = none := by simp [Sched.chosen, hsel]
      refine Safe.loop rfl hk (fun p hpn => ?_) honce (fun p => ?_) (fun q hq => ?_) (fun q hq => htable q (.inr ?_))
      · show s.owner p = some me ↔ some k = some p
        simp [hlocks p hpn, hc, eq_comm]
      · show s.released p = if p < k + 1 ∧ some k ≠ some p then 1 else 0
        simp [hbalance p, hc, eq_comm]
      · cases hq
        exact Nat.lt_succ_self k
      · cases hq
        rfl
    | some r =>
      obtain ⟨q, priority⟩ := r
      have hc : s.chosen = some q := by simp [Sched.chosen, hsel]
      have hq := hearlier q hc
      dsimp only
      split
      -- The lock of the process that was selected is given back, and the new one is kept.
      · refine Safe.release rfl hk (by omega) (fun hkq => ?_) (fun p hpn => ?_) honce (fun p => ?_) (fun j hj => ?_)
          (fun j hj => htable j (.inr ?_))
        · cases hkq
          omega
        · show s.owner p = some me ↔ some k = some p ∨ p = q
          simp only [hlocks p hpn, hc, Option.some.injEq]
          omega
        · show s.released p = if p < k + 1 ∧ some k ≠ some p ∧ p ≠ q then 1 else 0
          rw [hbalance p, hc]
          simp only [ne_eq, Option.some.injEq]
          congr 1
          simp only [eq_iff_iff]
          omega
        · cases hj
          omega
        · cases hj
          rfl
      · rw [hc] at hfree hlocks hbalance hlater htable
        exact Safe.release rfl hk (Nat.lt_succ_self k) hfree hlocks honce hbalance hlater fun j hj => htable j (.inl hj)

theorem Sched.examine_search (me k : Nat) (s : Sched) :
    visit ⟨s.table, s.selected⟩ k = ⟨(s.examine me k).table, (s.examine me k).selected⟩ := by
  have hrel : ∀ (u : Sched) j, (u.release me j).table = u.table ∧ (u.release me j).selected = u.selected := by
    intro u j
    unfold Sched.release
    split <;> exact ⟨rfl, rfl⟩
  unfold visit Sched.examine
  dsimp only
  split
  · cases s.selected with
    | none => rfl
    | some selected =>
      dsimp only
      split <;> simp [hrel]
  · simp [hrel]

theorem Safe.change {table : Table} {owner : Nat → Option Nat} (h : Safe me s)
    (hown : s.point ≠ .running → ∀ p < NPROC, owner p = some me ↔ s.owner p = some me)
    (hst : s.point ≠ .running → ∀ q, s.chosen = some q → (table q).state = (s.table q).state) :
    Safe me { s with table, owner } := by
  refine ⟨h.calm, fun hr p hpn => (hown hr p hpn).trans (h.locks hr p hpn), h.once, h.balance, h.bound, h.earlier, h.picked,
    fun q hq hsel => ?_, fun q hq hsw => ?_⟩
  · have hr : s.point ≠ .running := fun hr => by simp [hr, Point.selecting] at hsel
    exact (hst hr q hq).trans (h.runnable q hq hsel)
  · have hsw : s.point = .switch := hsw
    exact (hst (by simp [hsw]) q hq).trans (h.marked q hq hsw)

theorem Safe.other {p : Nat} {e : Entry} {o : Option Nat} (h : Safe me s) (hs : s.step me (.other p e o) = some t) :
    Safe me t := by
  have hheld : s.point ≠ .running → ∀ q, s.chosen = some q → s.owner q = some me := by
    intro hr q hq
    have hlt := (h.earlier q hq).1
    have hle := h.bound
    exact (h.locks hr q (by omega)).mpr (.inl hq)
  unfold Sched.step at hs
  dsimp only at hs
  split at hs
  case isTrue hr =>
    cases hs
    exact h.change (fun hn => absurd hr hn) fun hn => absurd hr hn
  case isFalse hr =>
    split at hs
    case isTrue hp =>
      split at hs
      case isFalse => cases hs
      case isTrue he =>
        cases hs
        apply h.change (fun _ _ _ => Iff.rfl)
        intro _ q _
        by_cases hqp : q = p
        · subst hqp
          simpa using he
        · simp [hqp]
    case isFalse hp =>
      split at hs
      case isTrue => cases hs
      case isFalse ho =>
        cases hs
        apply h.change
        · intro _ q _
          by_cases hqp : q = p
          · subst hqp
            simp [hp, ho]
          · simp [hqp]
        · intro _ q hq
          have hqp : q ≠ p := by
            intro heq
            subst heq
            exact hp (hheld hr q hq)
          simp [hqp]

theorem Safe.past (point : Point) (table : Table) (owner : Nat → Option Nat) (h : Safe me s)
    (hr : s.point.reached = NPROC) (he : s.point.examined = none) (hc : s.chosen ≠ none)
    (hp : point ∈ [.dispatch, .switch, .running, .back])
    (locks : point ≠ .running → ∀ p < NPROC, owner p = some me ↔ s.chosen = some p)
    (runnable : ∀ q, s.chosen = some q → point = .dispatch → (table q).state = .runnable)
    (marked : ∀ q, s.chosen = some q → point = .switch → (table q).state = .running) :
    Safe me { s with point, table, owner } := by
  have hpoint : point ≠ .panic ∧ point.reached = NPROC ∧ point.examined = none ∧
      (point.selecting = true → point = .dispatch) := by
    simp only [List.mem_cons, List.not_mem_nil, or_false] at hp
    obtain hp | hp | hp | hp := hp <;> subst hp <;> decide
  obtain ⟨hcalm, hreach, hexam, hsel⟩ := hpoint
  have hkept : ∀ p, Sched.Kept { s with point, table, owner } p ↔ s.chosen = some p := by
    intro p
    show s.chosen = some p ∨ point.examined = some p ↔ s.chosen = some p
    simp [hexam]
  have hkept' : ∀ p, s.Kept p ↔ s.chosen = some p := by
    intro p
    simp [Sched.Kept, he]
  refine ⟨hcalm, fun hrun p hpn => ?_, fun p => ?_, fun p => ?_, Nat.le_of_eq hreach, fun q hq => ?_, fun _ => hc,
    fun q hq hs => runnable q hq (hsel hs), fun q hq hsw => marked q hq hsw⟩
  · rw [hkept]
    exact locks hrun p hpn
  · simpa [hreach, hr] using h.once p
  · simpa [hreach, hr, hkept, hkept'] using h.balance p
  · have := (h.earlier q hq).1
    simp only [hreach, hexam]
    exact ⟨hr ▸ this, by simp⟩

theorem Safe.restart (h : ∀ p < NPROC, s.owner p ≠ some me) : Safe me s.restart :=
  Safe.init ⟨rfl, rfl, h, fun _ => rfl, fun _ => rfl⟩

theorem Safe.cpu (h : Safe me s) (hs : s.advance me ticks = some t) : Safe me t := by
  unfold Sched.advance at hs
  cases hp : s.point with
  | loop k =>
    have hk : k ≤ NPROC := by simpa [hp, Point.reached] using h.bound
    have hlocks : ∀ p < NPROC, s.owner p = some me ↔ s.chosen = some p := by
      intro p hpn
      rw [h.locks (by simp [hp]) p hpn, Sched.kept_loop hp]
    simp only [hp] at hs
    split at hs
    case isTrue hlt => exact h.acquire hp hlt hs
    case isFalse hge =>
      split at hs
      case h_1 hsel =>
        cases hs
        apply Safe.restart
        intro p hpn
        simp [hlocks p hpn, Sched.chosen, hsel]
      case h_2 r hsel =>
        cases hs
        have hr : s.point.reached = NPROC := by
          simp only [hp, Point.reached]
          omega
        exact h.past .dispatch s.table s.owner hr (by simp [hp, Point.examined]) (by simp [Sched.chosen, hsel]) (by simp)
          (fun _ => hlocks) (fun q hq _ => h.runnable q hq (by simp [hp, Point.selecting])) (by simp)
  | examine k =>
    simp only [hp, Option.some.injEq] at hs
    subst hs
    exact h.examine hp
  | dispatch =>
    simp only [hp] at hs
    obtain ⟨r, hsel, hs⟩ := Option.map_eq_some_iff.mp hs
    have hc : s.chosen = some r.1 := by simp [Sched.chosen, hsel]
    subst hs
    apply h.past .switch _ s.owner (by simp [hp, Point.reached]) (by simp [hp, Point.examined]) (by simp [hc]) (by simp)
    · intro _ p hpn
      rw [h.locks (by simp [hp]) p hpn]
      simp [Sched.Kept, hp, Point.examined]
    · simp
    · intro q hq _
      cases hc.symm.trans hq
      simp [dispatch]
  | switch =>
    simp only [hp] at hs
    obtain ⟨r, hsel, hs⟩ := Option.map_eq_some_iff.mp hs
    have hc : s.chosen = some r.1 := by simp [Sched.chosen, hsel]
    subst hs
    exact h.past .running s.table _ (by simp [hp, Point.reached]) (by simp [hp, Point.examined]) (by simp [hc]) (by simp)
      (by simp) (by simp) (by simp)
  | running =>
    simp only [hp] at hs
    obtain ⟨r, hsel, hs⟩ := Option.bind_eq_some_iff.mp hs
    obtain ⟨⟨hown, hno⟩, hs⟩ := Option.ite_none_right_eq_some.mp hs
    have hc : s.chosen = some r.1 := by simp [Sched.chosen, hsel]
    cases hs
    apply h.past .back s.table s.owner (by simp [hp, Point.reached]) (by simp [hp, Point.examined]) (by simp [hc]) (by simp)
    · intro _ p hpn
      by_cases hpr : p = r.1
      · simp [hpr, hc, hown]
      · simp [hc, hno p hpn hpr, Ne.symm hpr]
    · simp
    · simp
  | back =>
    simp only [hp] at hs
    obtain ⟨r, hsel, hs⟩ := Option.map_eq_some_iff.mp hs
    have hc : s.chosen = some r.1 := by simp [Sched.chosen, hsel]
    subst hs
    apply Safe.restart
    intro p hpn
    have hlock := h.locks (by simp [hp])
    simp only [Sched.Kept, hp, Point.examined, hc, or_false, Option.some.injEq, reduceCtorEq] at hlock
    have hlt : r.1 < NPROC := by simpa [hp, Point.reached] using (h.earlier r.1 hc).1
    unfold Sched.release
    rw [if_pos ((hlock r.1 hlt).mpr rfl)]
    by_cases hpr : p = r.1
    · simp [hpr]
    · simp [hpr, hlock p hpn, Ne.symm hpr]
  | panic => exact absurd hp h.calm

theorem Safe.step (h : Safe me s) (hs : (scheduler me).step s l = some t) : Safe me t := by
  cases l with
  | cpu ticks => exact h.cpu hs
  | other p e o => exact h.other hs

theorem pbs_locks (h : (scheduler me).Reachable s) : Safe me s := by
  apply Machine.Reach.invariant _ _ h
  · intro s hs
    exact Safe.init hs
  · intro s l t _ hs _ hst
    exact hs.step hst

def twoReady : Sched where
  point := .loop 0
  selected := none
  table k := if k = 0 then { state := .runnable, staticPriority := 60 }
    else if k = 1 then { state := .runnable, staticPriority := 50 } else {}
  owner _ := none
  acquired _ := 0
  released _ := 0

theorem pbs_locks_two : ∃ s, (scheduler 0).Reachable s ∧ s.point = .loop 2 ∧ s.chosen = some 1 ∧ s.owner 0 = none ∧
    Safe 0 s := by
  obtain ⟨s, hrun, hp, hc, ho⟩ : ∃ s, (scheduler 0).run twoReady [.cpu 0, .cpu 0, .cpu 0, .cpu 0] = some s ∧
      s.point = .loop 2 ∧ s.chosen = some 1 ∧ s.owner 0 = none :=
    ⟨_, rfl, by decide +kernel, by decide +kernel, by decide +kernel⟩
  have hinit : (scheduler 0).init twoReady := ⟨rfl, rfl, fun _ _ => Option.some_ne_none 0 ∘ Eq.symm, fun _ => rfl, fun _ => rfl⟩
  have hs := Machine.Reachable.of_run hinit hrun
  exact ⟨s, hs, hp, hc, ho, pbs_locks hs⟩

end TweakedXv6.Pbs
