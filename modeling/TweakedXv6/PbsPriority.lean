import TweakedXv6.PbsModel
import TweakedXv6.SchedLocks

namespace TweakedXv6.Pbs

open Locks (acquire release)
open Function (update update_self update_of_ne update_eq_self)

/-- The value returned, the table, the process locks still held, whether `yield` was called, and what was
printed. -/
structure Outcome where
  ret : Int
  table : Table
  held : List Nat
  yields : Bool
  out : List String

/-- The scan of the table from slot `k` on; the lock of the slot found stays held. -/
def findPid (table : Table) (pid : Int) : Nat → Nat → List Nat → Option (Option Nat × List Nat)
  | 0, _, held => some (none, held)
  | fuel + 1, k, held => do
    let held ← acquire held k
    if (table k).pid = pid then some (some k, held)
    else do
      let held ← release held k
      findPid table pid fuel (k + 1) held

/-- Called without process locks; `none` is a panic in `acquire` or `release`. -/
def setPriority (table : Table) (new pid : Int) : Option Outcome :=
  if isValidPriority new = false then
    some { ret := -1, table, held := [], yields := false, out := ["Invalid Static Priority\n"] }
  else do
    match ← findPid table pid NPROC 0 [] with
    | (none, held) =>
      some { ret := -1, table, held, yields := false, out := [s!"No process with pid {pid} exists\n"] }
    | (some k, held) => do
      let old := toInt (table k).staticPriority
      let p := (table k).pid
      let held ← release held k
      some
        { ret := old, held, yields := old < new
          table := update table k { table k with staticPriority := UInt32.ofNat new.toNat }
          out := [s!"Process PID = {p}\n, Old Static Priority = {old} \nNew Static Priority = {new}\n"] }

def HasPid (table : Table) (pid : Int) (k : Nat) : Prop :=
  k < NPROC ∧ (table k).state ≠ .unused ∧ (table k).pid = pid

def Sets (table : Table) (new pid : Int) (r : Outcome) : Prop :=
  r.held = [] ∧
  ((new < 0 ∨ 100 < new ∨ ∀ k, ¬ HasPid table pid k) → r.ret = -1 ∧ r.table = table) ∧
  (0 ≤ new → new ≤ 100 → (∃ k, HasPid table pid k) → ∃ k, HasPid table pid k ∧
    r.ret = toInt (table k).staticPriority ∧
    r.table = update table k { table k with staticPriority := UInt32.ofNat new.toNat, niceness := 5 } ∧
    (r.yields = true ↔ new < toInt (table k).staticPriority))

def firstPid (table : Table) (pid : Int) : Option Nat := (List.range NPROC).find? fun k => (table k).pid = pid

/-- The priority is not valid, or no slot has the pid, or the slot found and a process with the pid have
the priority already, and the process the niceness 5. -/
def Idle (table : Table) (new pid : Int) : Prop :=
  new < 0 ∨ 100 < new ∨ ∀ j, firstPid table pid = some j → toInt (table j).staticPriority = new ∧
    ∃ k, HasPid table pid k ∧ toInt (table k).staticPriority = new ∧ (table k).niceness = 5

variable {table : Table} {new pid : Int} {k fuel : Nat}

theorem findPid_eq (table : Table) (pid : Int) (fuel k : Nat) : findPid table pid fuel k [] =
    some (((List.range' k fuel).find? fun j => (table j).pid = pid),
      (((List.range' k fuel).find? fun j => (table j).pid = pid).elim [] fun j => [j])) := by
  induction fuel generalizing k with
  | zero => rfl
  | succ fuel ih =>
    rw [findPid, Locks.acquire_nil, List.range'_succ, List.find?_cons]
    by_cases hk : (table k).pid = pid
    · simp [hk]
    · simp only [Option.bind_eq_bind, Option.bind_some, Locks.release_cons, ih, hk, decide_false, if_false]

theorem findPid_first (table : Table) (pid : Int) : findPid table pid NPROC 0 [] =
    some (firstPid table pid, (firstPid table pid).elim [] fun j => [j]) := by
  rw [findPid_eq, firstPid, List.range_eq_range']

theorem setPriority_invalid (table : Table) (pid : Int) (h : new < 0 ∨ 100 < new) :
    ∃ out, setPriority table new pid = some { ret := -1, table, held := [], yields := false, out } := by
  have hno : isValidPriority new = false := decide_eq_false (by omega)
  exact ⟨_, if_pos hno⟩

theorem setPriority_none (hlo : 0 ≤ new) (hhi : new ≤ 100) (h : firstPid table pid = none) :
    ∃ out, setPriority table new pid = some { ret := -1, table, held := [], yields := false, out } := by
  have hyes : isValidPriority new ≠ false := by simp [isValidPriority, hlo, hhi]
  rw [setPriority, if_neg hyes, findPid_first, h]
  exact ⟨_, rfl⟩

theorem setPriority_some (hlo : 0 ≤ new) (hhi : new ≤ 100) (h : firstPid table pid = some k) :
    ∃ out, setPriority table new pid = some
      { ret := toInt (table k).staticPriority, held := [], yields := toInt (table k).staticPriority < new, out
        table := update table k { table k with staticPriority := UInt32.ofNat new.toNat } } := by
  have hyes : isValidPriority new ≠ false := by simp [isValidPriority, hlo, hhi]
  rw [setPriority, if_neg hyes, findPid_first, h]
  simp only [Option.bind_eq_bind, Option.bind_some, Option.elim_some, Locks.release_cons]
  exact ⟨_, rfl⟩

theorem not_hasPid (h : firstPid table pid = none) (k : Nat) : ¬ HasPid table pid k := by
  rintro ⟨hk, _, hpid⟩
  have := List.find?_eq_none.mp h k (List.mem_range.mpr hk)
  simp [hpid] at this

theorem toInt_ofNat {x : UInt32} (hlo : 0 ≤ new) (hhi : new ≤ 100) : toInt x = new ↔ x = UInt32.ofNat new.toNat := by
  have hx := x.toNat_lt
  rw [toInt_eq, ← UInt32.toNat_inj, UInt32.toNat_ofNat']
  split <;> omega

/-- The call does what it is to do exactly if there is nothing to change. -/
theorem set_priority_iff (table : Table) (new pid : Int) :
    (∃ r, setPriority table new pid = some r ∧ Sets table new pid r) ↔ Idle table new pid := by
  by_cases hvalid : new < 0 ∨ 100 < new
  · obtain ⟨out, hr⟩ := setPriority_invalid table pid hvalid
    refine iff_of_true ⟨_, hr, rfl, fun _ => ⟨rfl, rfl⟩, fun hlo hhi => ?_⟩ (hvalid.elim .inl fun h => .inr (.inl h))
    omega
  have hlo : 0 ≤ new := by omega
  have hhi : new ≤ 100 := by omega
  cases hfirst : firstPid table pid with
  | none =>
    obtain ⟨out, hr⟩ := setPriority_none hlo hhi hfirst
    refine iff_of_true ⟨_, hr, rfl, fun _ => ⟨rfl, rfl⟩, fun _ _ ⟨k, hk⟩ => ?_⟩ (.inr (.inr ?_))
    · exact absurd hk (not_hasPid hfirst k)
    · intro j hj
      rw [hfirst] at hj
      cases hj
  | some j =>
    obtain ⟨out, hr⟩ := setPriority_some hlo hhi hfirst
    constructor
    · rintro ⟨r, hr', hsets⟩
      cases Option.some.inj (hr.symm.trans hr')
      obtain ⟨_, hminus, hset⟩ := hsets
      dsimp only at hminus hset
      by_cases hex : ∃ k, HasPid table pid k
      · obtain ⟨k, hk, hret, htable, hyields⟩ := hset hlo hhi hex
        rw [decide_eq_true_eq, ← hret] at hyields
        have hold : toInt (table j).staticPriority = new := by omega
        have hentry := congrArg Entry.niceness (congrFun htable k)
        rw [update_self] at hentry
        refine .inr (.inr fun j' hj' => ?_)
        cases hfirst.symm.trans hj'
        refine ⟨hold, k, hk, hret.symm.trans hold, ?_⟩
        by_cases hkj : k = j
        · subst hkj
          rwa [update_self] at hentry
        · rwa [update_of_ne hkj] at hentry
      · obtain ⟨hret, htable⟩ := hminus (.inr (.inr fun k hk => hex ⟨k, hk⟩))
        have hentry := congrArg Entry.staticPriority (congrFun htable j)
        rw [update_self] at hentry
        have hold := (toInt_ofNat hlo hhi).mpr hentry.symm
        omega
    · rintro (h | h | h)
      · omega
      · omega
      · obtain ⟨hj, k, hk, hpk, hnice⟩ := h j hfirst
        have hsame : ∀ i, toInt (table i).staticPriority = new →
            { table i with staticPriority := UInt32.ofNat new.toNat } = table i := by
          intro i hi
          rw [← (toInt_ofNat hlo hhi).mp hi]
        rw [hsame j hj, update_eq_self] at hr
        refine ⟨_, hr, rfl, ?_, ?_⟩
        · rintro (h | h | h)
          · omega
          · omega
          · exact absurd hk (h k)
        · intro _ _ _
          refine ⟨k, hk, ?_, ?_, ?_⟩ <;> dsimp only
          · rw [hj, hpk]
          · rw [← hnice, hsame k hpk, update_eq_self]
          · rw [decide_eq_true_eq, hj, hpk]

def oneProc : Table := update (fun _ => {}) 5 { state := .runnable, pid := 3, staticPriority := 60, niceness := 0 }

theorem oneProc_other (h : k ≠ 5) : oneProc k = {} := update_of_ne h ..

/-- The priority is raised from 60 to 20: the niceness stays, and there is no rescheduling. -/
theorem set_priority_wrong :
    (∃ r, setPriority oneProc 20 3 = some r ∧ r.yields = false ∧ (r.table 5).niceness = 0 ∧ ¬ Sets oneProc 20 3 r) ∧
    ∃ r, setPriority oneProc 20 0 = some r ∧ r.ret = 0 ∧ ¬ Sets oneProc 20 0 r := by
  constructor
  · have hrun : ((setPriority oneProc 20 3).any fun r => r.yields = false ∧ (r.table 5).niceness = 0) = true := by
      decide +kernel
    obtain ⟨r, hr, hfacts⟩ := exists_of_any hrun
    refine ⟨r, hr, hfacts.1, hfacts.2, fun hsets => ?_⟩
    have hfive : HasPid oneProc 3 5 := ⟨by decide, by decide, rfl⟩
    obtain ⟨k, hk, _, _, hyields⟩ := hsets.2.2 (by decide) (by decide) ⟨5, hfive⟩
    have hk5 : k = 5 := by
      by_contra hne
      have hpid := hk.2.2
      rw [oneProc_other hne] at hpid
      cases hpid
    subst hk5
    have := hyields.mpr (by decide)
    rw [hfacts.1] at this
    cases this
  · have hrun : ((setPriority oneProc 20 0).any fun r => r.ret = 0) = true := by decide +kernel
    obtain ⟨r, hr, hret⟩ := exists_of_any hrun
    refine ⟨r, hr, hret, fun hsets => ?_⟩
    have hnone : ∀ k, ¬ HasPid oneProc 0 k := by
      rintro k ⟨_, hst, hpid⟩
      by_cases hk : k = 5
      · subst hk
        cases hpid
      · rw [oneProc_other hk] at hst
        exact hst rfl
    have := (hsets.2.1 (.inr (.inr hnone))).1
    rw [hret] at this
    cases this

end TweakedXv6.Pbs
