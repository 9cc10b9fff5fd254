import Mathlib.Data.List.Basic
import TweakedXv6.Basic

namespace TweakedXv6.Fcfs

structure Entry where
  state : ProcState
  pid : Int
  ctime : UInt32

abbrev Table := Nat → Entry

/-- One slot of the inner search, which compares with the process `p` of the outer loop, not with the one
selected so far. -/
def better (table : Table) (p selectedProc next : Nat) : Nat :=
  if (table next).state ≠ .runnable then selectedProc
  else if (table next).pid ≤ 2 then selectedProc
  else if (table next).ctime < (table p).ctime then next
  else selectedProc

def selectProc (table : Table) (p : Nat) : Nat :=
  (List.range NPROC).foldl (better table p) p

def Earlier (table : Table) (p k : Nat) : Prop :=
  (table k).state = .runnable ∧ 2 < (table k).pid ∧ (table k).ctime < (table p).ctime

instance (table : Table) (p k : Nat) : Decidable (Earlier table p k) := by
  unfold Earlier
  infer_instance

/-- The process dispatched is RUNNABLE, and no RUNNABLE one but the first two was created before it. -/
def Oldest (table : Table) (p : Nat) : Prop :=
  (table (selectProc table p)).state = .runnable ∧
  ∀ k < NPROC, (table k).state = .runnable → 2 < (table k).pid → (table (selectProc table p)).ctime ≤ (table k).ctime

/-- The last in the table of those created before `p` is also the oldest of them. -/
def LastIsOldest (table : Table) (p : Nat) : Prop :=
  ∀ l < NPROC, Earlier table p l → (∀ k < NPROC, l < k → ¬ Earlier table p k) →
    ∀ k < NPROC, Earlier table p k → (table l).ctime ≤ (table k).ctime

variable {table : Table} {p k n s : Nat}

theorem better_eq : better table p s k = if Earlier table p k then k else s := by
  unfold better Earlier
  by_cases hst : (table k).state = .runnable
  · by_cases hpid : (table k).pid ≤ 2
    · simp [hst, hpid, Int.not_lt.mpr hpid]
    · simp [hst, hpid, Int.not_le.mp hpid]
  · simp [hst]

theorem search_last (table : Table) (p n : Nat) :
    ((∀ k < n, ¬ Earlier table p k) ∧ (List.range n).foldl (better table p) p = p) ∨
    ∃ l < n, Earlier table p l ∧ (∀ k < n, l < k → ¬ Earlier table p k) ∧
      (List.range n).foldl (better table p) p = l := by
  induction n with
  | zero => exact .inl ⟨fun k hk => absurd hk (Nat.not_lt_zero k), rfl⟩
  | succ n ih =>
    rw [List.range_succ, List.foldl_append, List.foldl_cons, List.foldl_nil, better_eq]
    by_cases hn : Earlier table p n
    · refine .inr ⟨n, Nat.lt_succ_self n, hn, fun k hk hnk => by omega, if_pos hn⟩
    · rw [if_neg hn]
      rcases ih with ⟨hno, heq⟩ | ⟨l, hl, hlast, hno, heq⟩
      · refine .inl ⟨fun k hk => ?_, heq⟩
        rcases Nat.lt_succ_iff_lt_or_eq.mp hk with hk | rfl
        · exact hno k hk
        · exact hn
      · refine .inr ⟨l, Nat.lt_succ_of_lt hl, hlast, fun k hk hlk => ?_, heq⟩
        rcases Nat.lt_succ_iff_lt_or_eq.mp hk with hk | rfl
        · exact hno k hk hlk
        · exact hn

theorem selectProc_eq_iff : selectProc table p = p ↔ ∀ k < NPROC, ¬ Earlier table p k := by
  rcases search_last table p NPROC with ⟨hno, heq⟩ | ⟨l, hl, hlast, _, heq⟩
  · exact ⟨fun _ => hno, fun _ => heq⟩
  · refine ⟨fun he => ?_, fun hno => absurd hlast (hno l hl)⟩
    have hlp : l = p := heq.symm.trans he
    subst hlp
    exact absurd hlast.2.2 (UInt32.lt_irrefl _)

/-- The process dispatched is the oldest one exactly if the last candidate is. -/
theorem oldest_iff (hp : (table p).state = .runnable) : Oldest table p ↔ LastIsOldest table p := by
  unfold Oldest LastIsOldest
  rcases search_last table p NPROC with ⟨hno, heq⟩ | ⟨l, hl, hlast, hno, heq⟩
  · have heq : selectProc table p = p := heq
    rw [heq]
    refine ⟨fun _ l hl he => absurd he (hno l hl), fun _ => ⟨hp, fun k hk hst hpid => ?_⟩⟩
    exact UInt32.not_lt.mp fun hlt => hno k hk ⟨hst, hpid, hlt⟩
  · have heq : selectProc table p = l := heq
    rw [heq]
    constructor
    · rintro ⟨_, hmin⟩ l' hl' hlast' hno' k hk hek
      have hll : l' = l := by
        rcases Nat.lt_trichotomy l l' with h | h | h
        · exact absurd hlast' (hno l' hl' h)
        · exact h.symm
        · exact absurd hlast (hno' l hl h)
      rw [hll]
      exact hmin k hk hek.1 hek.2.1
    · intro hmin
      refine ⟨hlast.1, fun k hk hst hpid => ?_⟩
      by_cases hek : Earlier table p k
      · exact hmin l hl hlast hno k hk hek
      · -- a candidate that is not earlier than `p` is later than `l`
        have hge : (table p).ctime ≤ (table k).ctime := UInt32.not_lt.mp fun hlt => hek ⟨hst, hpid, hlt⟩
        exact UInt32.le_trans (UInt32.le_of_lt hlast.2.2) hge

def runnables (ctimes : List UInt32) : Table := fun k =>
  { state := if k < ctimes.length then .runnable else .unused, pid := k + 3, ctime := ctimes.getD k 0 }

theorem oldest_iff_two : (runnables [2, 1] 0).state = .runnable ∧ Oldest (runnables [2, 1]) 0 := by
  have hone : ∀ k, Earlier (runnables [2, 1]) 0 k → k = 1 := by
    rintro k ⟨hst, _, hlt⟩
    by_contra hne
    by_cases hk : k < 2
    · have h0 : k = 0 := by omega
      subst h0
      exact UInt32.lt_irrefl _ hlt
    · simp [runnables, hk] at hst
  refine ⟨rfl, (oldest_iff rfl).mpr fun l _ hl _ k _ hk => ?_⟩
  rw [hone l hl, hone k hk]
  exact UInt32.le_refl _

/-- With creation times 3, 1, 2 the process with time 2 is dispatched. -/
theorem oldest_passed_over : (runnables [3, 1, 2] 0).state = .runnable ∧ selectProc (runnables [3, 1, 2]) 0 = 2 ∧
    ¬ Oldest (runnables [3, 1, 2]) 0 := by
  have hsel : selectProc (runnables [3, 1, 2]) 0 = 2 := by decide +kernel
  refine ⟨rfl, hsel, fun h => ?_⟩
  have := h.2 1 one_lt_NPROC rfl (by decide)
  rw [hsel] at this
  exact absurd this (by decide)

end TweakedXv6.Fcfs
