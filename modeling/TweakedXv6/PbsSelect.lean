import Mathlib.Data.Prod.Lex
import TweakedXv6.PbsModel
import TweakedXv6.Scan

namespace TweakedXv6.Pbs

/-- By dynamic priority, then by the number of times scheduled, then by creation time. -/
def key (p : Entry) : Nat ×ₗ Nat ×ₗ Nat :=
  toLex (p.dynamicPriority.toNat, toLex (p.timesScheduled.toNat, p.ctime.toNat))

/-- The pass selects a RUNNABLE process with the least key, if any process is RUNNABLE. -/
def SelectsLeast (table : Table) : Prop :=
  ∀ k < NPROC, (table k).state = .runnable → ∃ s priority, (pass table).selected = some (s, priority) ∧
    s < NPROC ∧ (table s).state = .runnable ∧ key ((pass table).table s) ≤ key ((pass table).table k)

/-- If any process is RUNNABLE, then one with the least key has none of earlier creation time after it in
the table. -/
def LeastIsSafe (table : Table) : Prop :=
  ∀ k < NPROC, (table k).state = .runnable → ∃ m < NPROC, (table m).state = .runnable ∧
    (∀ j < NPROC, (table j).state = .runnable → key (consider (table m)) ≤ key (consider (table j))) ∧
    ∀ j < NPROC, m < j → (table j).state = .runnable → (table m).ctime ≤ (table j).ctime

variable {table : Table} {p q : Entry} {k n s : Nat}

theorem key_lt : key p < key q ↔ p.dynamicPriority < q.dynamicPriority ∨ p.dynamicPriority = q.dynamicPriority ∧
    (p.timesScheduled < q.timesScheduled ∨ p.timesScheduled = q.timesScheduled ∧ p.ctime < q.ctime) := by
  simp only [key, Prod.Lex.toLex_lt_toLex, UInt32.lt_iff_toNat_lt, UInt32.toNat_inj]

theorem ctime_of_key (h : key p = key q) : p.ctime = q.ctime := by
  have h := congrArg (fun x => (ofLex (ofLex x).2).2) h
  exact UInt32.toNat_inj.mp h

theorem replaces_iff : replaces p q q.dynamicPriority = true ↔ key p < key q ∨ p.ctime < q.ctime := by
  unfold replaces
  rw [key_lt]
  split
  next h => exact iff_of_true rfl (.inl (.inl h))
  next hd =>
    split
    next h => exact iff_of_true rfl (.inl (.inr ⟨h.1.symm, .inl h.2⟩))
    next ht =>
      split
      next h => exact iff_of_true rfl (.inr h)
      next hc =>
        refine iff_of_false Bool.false_ne_true ?_
        rintro ((h | ⟨hd, h | ⟨_, h⟩⟩) | h)
        · exact hd h
        · exact ht ⟨hd.symm, h⟩
        · exact hc h
        · exact hc h

theorem consider_ctime (p : Entry) : (consider p).ctime = p.ctime := by rw [consider]

def Displaces (table : Table) (k s : Nat) : Prop :=
  key (consider (table k)) < key (consider (table s)) ∨ (table k).ctime < (table s).ctime

instance (table : Table) : DecidableRel (Displaces table) := fun k s => by
  unfold Displaces
  infer_instance

theorem replaces_consider : replaces (consider (table k)) (consider (table s)) (consider (table s)).dynamicPriority =
    true ↔ Displaces table k s := by
  rw [replaces_iff, Displaces, consider_ctime, consider_ctime]

def considered (table : Table) (n : Nat) : Table := fun k =>
  if k < n ∧ (table k).state = .runnable then consider (table k) else table k

theorem considered_runnable (hk : k < n) (h : (table k).state = .runnable) :
    considered table n k = consider (table k) := if_pos ⟨hk, h⟩

theorem considered_succ (h : (table n).state = .runnable) :
    considered table (n + 1) = Function.update (considered table n) n (consider (table n)) := by
  funext k
  by_cases hk : k = n
  · rw [hk, Function.update_self, considered_runnable (Nat.lt_succ_self n) h]
  · rw [Function.update_of_ne hk]
    have hiff : (k < n + 1 ∧ (table k).state = .runnable) ↔ (k < n ∧ (table k).state = .runnable) :=
      and_congr_left fun _ => by omega
    simp only [considered, hiff]

theorem considered_skip (h : (table n).state ≠ .runnable) : considered table (n + 1) = considered table n := by
  funext k
  have hiff : (k < n + 1 ∧ (table k).state = .runnable) ↔ (k < n ∧ (table k).state = .runnable) := by
    refine ⟨fun ⟨hk, hst⟩ => ⟨?_, hst⟩, fun ⟨hk, hst⟩ => ⟨Nat.lt_succ_of_lt hk, hst⟩⟩
    rcases Nat.lt_succ_iff_lt_or_eq.mp hk with hk | rfl
    · exact hk
    · exact absurd hst h
  simp only [considered, hiff]

section

variable {t : Table} {o : Option (Nat × UInt32)} {priority : UInt32}

theorem visit_skip (hp : t k = p) (h : p.state ≠ .runnable) : visit ⟨t, o⟩ k = ⟨t, o⟩ := by
  subst hp
  exact if_neg h

theorem visit_first (hp : t k = p) (h : p.state = .runnable) :
    visit ⟨t, none⟩ k = ⟨Function.update t k (consider p), some (k, (consider p).dynamicPriority)⟩ := by
  subst hp
  exact if_pos h

theorem visit_next (hp : t k = p) (hq : t s = q) (h : p.state = .runnable) (hne : s ≠ k) :
    visit ⟨t, some (s, priority)⟩ k = ⟨Function.update t k (consider p),
      if replaces (consider p) q priority then some (k, (consider p).dynamicPriority) else some (s, priority)⟩ := by
  subst hp hq
  rw [visit, if_pos h]
  simp only [Function.update_of_ne hne]
  split <;> rfl

end

theorem pass_eq (table : Table) (n : Nat) : (List.range n).foldl visit { table } =
    { table := considered table n
      selected := (scan (fun k => (table k).state = .runnable) (Displaces table) n).map fun s =>
        (s, (consider (table s)).dynamicPriority) } := by
  induction n with
  | zero =>
    have hzero : considered table 0 = table := funext fun k => if_neg fun h => Nat.not_lt_zero k h.1
    rw [hzero]
    rfl
  | succ n ih =>
    rw [List.range_succ, List.foldl_append, ih, List.foldl_cons, List.foldl_nil]
    have hsame : considered table n n = table n := if_neg fun h => Nat.lt_irrefl n h.1
    by_cases hst : (table n).state = .runnable
    · rw [considered_succ hst]
      cases hs : scan (fun k => (table k).state = .runnable) (Displaces table) n with
      | none =>
        rw [scan_first hst hs, Option.map_none, Option.map_some, visit_first hsame hst]
      | some s =>
        obtain ⟨hlt, hrun, _⟩ := scan_some hs
        rw [scan_next hst hs, Option.map_some,
          visit_next hsame (considered_runnable hlt hrun) hst (Nat.ne_of_lt hlt)]
        by_cases hR : Displaces table n s
        · rw [if_pos (replaces_consider.mpr hR), if_pos hR, Option.map_some]
        · rw [if_neg fun h => hR (replaces_consider.mp h), if_neg hR, Option.map_some]
    · rw [considered_skip hst, scan_skip hst, visit_skip hsame hst]

theorem selects_least_iff (table : Table) : SelectsLeast table ↔ LeastIsSafe table := by
  unfold SelectsLeast LeastIsSafe
  rw [pass, pass_eq table NPROC]
  dsimp only
  constructor
  · intro hsel k hk hst
    obtain ⟨s, _, hs, hlt, hrun, _⟩ := hsel k hk hst
    obtain ⟨s', hscan, heq⟩ := Option.map_eq_some_iff.mp hs
    cases (Prod.mk.inj heq).1
    refine ⟨s, hlt, hrun, fun j hj hjst => ?_, fun j hj hsj hjst => ?_⟩
    · obtain ⟨u, _, hu, _, _, hle⟩ := hsel j hj hjst
      cases (Prod.mk.inj (Option.some.inj (hs.symm.trans hu))).1
      rwa [considered_runnable hlt hrun, considered_runnable hj hjst] at hle
    · have hno := (scan_some hscan).2.2 j hsj hj hjst
      exact UInt32.not_lt.mp fun hc => hno (.inr hc)
  · intro hsafe k hk hst
    obtain ⟨m, hm, hrun, hleast, hlater⟩ := hsafe k hk hst
    have htakes : ∀ j i, key (consider (table j)) ≤ key (consider (table m)) →
        ¬ key (consider (table i)) ≤ key (consider (table m)) → Displaces table j i :=
      fun j i hj hi => .inl (lt_of_le_of_lt hj (not_le.mp hi))
    have hstays : ∀ j i, m < j → j < NPROC → (table j).state = .runnable →
        ¬ key (consider (table j)) ≤ key (consider (table m)) → i < NPROC → (table i).state = .runnable →
        key (consider (table i)) ≤ key (consider (table m)) → ¬ Displaces table j i := by
      rintro j i hmj hjn hjst hj hin hist hi (hlt | hct)
      · exact hj (le_of_lt (lt_of_lt_of_le hlt hi))
      · have hmi := ctime_of_key (le_antisymm (hleast i hin hist) hi)
        rw [consider_ctime, consider_ctime] at hmi
        rw [← hmi] at hct
        exact absurd hct (UInt32.not_lt.mpr (hlater j hjn hmj hjst))
    obtain ⟨s, hscan, hkey⟩ := scan_keeps (P := fun k => (table k).state = .runnable) (R := Displaces table)
      (Q := fun j => key (consider (table j)) ≤ key (consider (table m))) htakes hm hrun le_rfl hstays
    obtain ⟨hlt, hsrun, _⟩ := scan_some hscan
    refine ⟨s, _, by rw [hscan, Option.map_some], hlt, hsrun, ?_⟩
    rw [considered_runnable hlt hsrun, considered_runnable hk hst]
    exact hkey.trans (hleast k hk hst)

def waiting (l : List (UInt32 × UInt32)) : Table := fun k =>
  { state := if k < l.length then .runnable else .unused, pid := k + 1
    staticPriority := (l.getD k (0, 0)).1, ctime := (l.getD k (0, 0)).2 }

/-- A process of priority 60 loses to a later one of priority 90 that was created before it. -/
theorem selects_older : (pass (waiting [(60, 5), (90, 1)])).selected = some (1, 90) ∧
    ¬ SelectsLeast (waiting [(60, 5), (90, 1)]) := by
  have hsel : (pass (waiting [(60, 5), (90, 1)])).selected = some (1, 90) := by decide +kernel
  have hkeys : ¬ key ((pass (waiting [(60, 5), (90, 1)])).table 1) ≤ key ((pass (waiting [(60, 5), (90, 1)])).table 0) := by
    decide +kernel
  refine ⟨hsel, fun h => ?_⟩
  obtain ⟨s, _, hs, _, _, hle⟩ := h 0 zero_lt_NPROC rfl
  cases (Prod.mk.inj (Option.some.inj (hsel.symm.trans hs))).1
  exact hkeys hle

end TweakedXv6.Pbs
