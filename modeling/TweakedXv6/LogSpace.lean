import Mathlib.Algebra.Order.BigOperators.Group.Finset
import TweakedXv6.LogAtomic

namespace TweakedXv6.Log

variable {base : Nat → Block} {s t : State} {op B : Nat} {u : Update}

def blocksOf (s : State) (op : Nat) : Finset Nat :=
  ((updatesOf op s.history).map Update.block).toFinset

/-- Every operation passes at most `B` distinct block numbers to `log_write`. -/
def Budget (B : Nat) (s : State) : Act → Prop
  | .logWrite u => (insert u.block (blocksOf s u.op)).card ≤ B
  | _ => True

instance (B : Nat) (s : State) (a : Act) : Decidable (Budget B s a) := by
  unfold Budget
  split <;> infer_instance

def reserve (s : State) : Nat := ∑ op ∈ s.active.toFinset, (9 - (blocksOf s op).card)

/-- Between commits the log and what may still be added leave room for one more block. -/
structure Space (s : State) : Prop where
  bound : s.pc = .idle → s.lh.length + reserve s ≤ 28
  empty : s.pc = .idle → s.active = [] → s.lh = []

theorem blocksOf_sub_lh (hi : Inv mkfsSuper base s) (ha : Atomic s) (hop : op ∈ s.active) :
    ∀ b ∈ blocksOf s op, b ∈ s.lh := by
  have hp := hi.phase
  simp only [PhaseOk, idle_of_active hi hop] at hp
  have hrun : updatesOf op s.history = updatesOf op s.group := by
    rcases ha.fate op with ⟨hrun, _⟩ | ⟨hnot, _⟩
    · exact hrun
    · exact absurd hop hnot
  intro b hb
  rw [blocksOf, hrun] at hb
  obtain ⟨v, hv, rfl⟩ := List.mem_map.mp (List.mem_toFinset.mp hb)
  exact hp.group v (List.mem_of_mem_filter hv)

theorem reserve_le (s : State) : reserve s ≤ 9 * s.active.length := by
  calc reserve s ≤ s.active.toFinset.card • 9 :=
        Finset.sum_le_card_nsmul _ _ 9 fun op _ => Nat.sub_le 9 _
    _ = 9 * s.active.toFinset.card := by simp [Nat.mul_comm]
    _ ≤ 9 * s.active.length := Nat.mul_le_mul_left 9 (List.toFinset_card_le s.active)

/-- `begin_op` reserves ten blocks each, of which nine are used: with two or more in progress two blocks
stay free, and a single one starts with an empty log. -/
theorem space_beginOp (hi : Inv mkfsSuper base s) (h : Space s) (hrec : s.pc.recovering = false)
    (ht : beginOp s = some t) : Space t := by
  unfold beginOp at ht
  obtain ⟨hcom, ht⟩ := Option.ite_none_left_eq_some.mp ht
  obtain ⟨hroom, ht⟩ := Option.ite_none_left_eq_some.mp ht
  cases ht
  have hidle : s.pc = .idle := by
    by_contra hpc
    exact hcom (hi.busy hpc hrec)
  refine ⟨fun _ => ?_, fun _ hnone => by simp at hnone⟩
  have hle := reserve_le { s with
    outstanding := s.outstanding + 1, active := s.nextOp :: s.active, nextOp := s.nextOp + 1 }
  have hcount := hi.count
  simp only [MAXOPBLOCKS, LOGSIZE, List.length_cons] at hroom hle
  rw [hcount] at hroom
  dsimp only
  by_cases hnone : s.active = []
  · have hlh : s.lh.length = 0 := by simp [h.empty hidle hnone]
    have hlen : s.active.length = 0 := by simp [hnone]
    omega
  · have hlen : 0 < s.active.length := List.length_pos_iff.mpr hnone
    omega

theorem blocksOf_logWrite {v : State} (hv : v.history = s.history ++ [u]) (op : Nat) :
    blocksOf v op = if u.op = op then insert u.block (blocksOf s op) else blocksOf s op := by
  unfold blocksOf
  rw [hv, updatesOf, List.filter_append]
  split
  next he =>
    ext b
    simp [he, updatesOf]
  next he => simp [he, updatesOf]

theorem space_logWrite (hi : Inv mkfsSuper base s) (ha : Atomic s) (h : Space s) (hop : u.op ∈ s.active)
    (hb : (insert u.block (blocksOf s u.op)).card ≤ 9) (ht : logWrite mkfsSuper s u = some t) : Space t := by
  unfold logWrite at ht
  obtain ⟨_, ht⟩ := Option.ite_none_left_eq_some.mp ht
  obtain ⟨_, ht⟩ := Option.ite_none_left_eq_some.mp ht
  cases ht
  refine ⟨fun hidle => ?_, fun _ hnone => absurd hop (by simp [show s.active = [] from hnone])⟩
  have hbound := h.bound hidle
  have hle : ∀ o ∈ s.active.toFinset,
      9 - (if u.op = o then insert u.block (blocksOf s o) else blocksOf s o).card ≤
        9 - (blocksOf s o).card := by
    intro o _
    split
    next => exact Nat.sub_le_sub_left (Finset.card_le_card (Finset.subset_insert _ _)) 9
    next => exact Nat.le_refl _
  have hres : reserve { s with
      mem := Function.update s.mem u.block u.data
      lh := if u.block ∈ s.lh then s.lh else s.lh ++ [u.block]
      group := s.group ++ [u]
      history := s.history ++ [u] } = ∑ o ∈ s.active.toFinset,
        (9 - (if u.op = o then insert u.block (blocksOf s o) else blocksOf s o).card) :=
    Finset.sum_congr rfl fun o _ => by rw [blocksOf_logWrite (s := s) (u := u) rfl]
  rw [hres]
  dsimp only
  by_cases hmem : u.block ∈ s.lh
  · rw [if_pos hmem]
    have := Finset.sum_le_sum hle
    unfold reserve at hbound
    omega
  · rw [if_neg hmem, List.length_append, List.length_singleton]
    have hnew : u.block ∉ blocksOf s u.op := fun hin => hmem (blocksOf_sub_lh hi ha hop _ hin)
    rw [Finset.card_insert_of_notMem hnew] at hb
    have hlt := Finset.sum_lt_sum hle ⟨u.op, List.mem_toFinset.mpr hop, by
      rw [if_pos rfl, Finset.card_insert_of_notMem hnew]
      omega⟩
    unfold reserve at hbound
    omega

theorem space_endOp (hi : Inv mkfsSuper base s) (h : Space s) (hop : op ∈ s.active)
    (ht : endOp s op = some t) : Space t := by
  have hsub : (s.active.erase op).toFinset ⊆ s.active.toFinset := by
    intro o ho
    exact List.mem_toFinset.mpr (List.mem_of_mem_erase (List.mem_toFinset.mp ho))
  have hidle := idle_of_active hi hop
  have hlen : (s.active.erase op).length = s.active.length - 1 := List.length_erase_of_mem hop
  have hcount := hi.count
  unfold endOp at ht
  dsimp only at ht
  obtain ⟨_, ht⟩ := Option.ite_none_left_eq_some.mp ht
  split at ht
  next =>
    cases ht
    refine ⟨fun hpc => ?_, fun hpc => ?_⟩ <;>
      (dsimp only at hpc; split at hpc <;> simp at hpc)
  next hne =>
    cases ht
    refine ⟨fun _ => ?_, fun _ hnone => ?_⟩
    · have hbound := h.bound hidle
      have : reserve { s with outstanding := s.outstanding - 1, active := s.active.erase op } ≤
          reserve s := Finset.sum_le_sum_of_subset hsub
      dsimp only
      omega
    · dsimp only at hnone hne
      simp only [hnone, List.length_nil] at hlen
      omega

theorem space_advance (hi : Inv mkfsSuper base s) (ht : advance mkfsSuper s = some t) : Space t := by
  have hempty : ∀ {v : State}, v.active = [] → v.lh = [] → Space v := by
    intro v hact hlh
    refine ⟨fun _ => ?_, fun _ _ => hlh⟩
    simp [hlh, reserve, hact]
  have hbusy : ∀ {v : State}, v.pc ≠ .idle → Space v := fun hpc =>
    ⟨fun h => absurd h hpc, fun h => absurd h hpc⟩
  have hinstall : ∀ {tail pc pc'}, pc ≠ .idle → pc' ≠ .idle →
      Space (installStep mkfsSuper s tail pc pc') := by
    intro tail pc pc' hpc hpc'
    unfold installStep
    split
    next => exact hbusy hpc
    next => exact hbusy hpc'
  have hphase := hi.phase
  unfold advance at ht
  split at ht
  next => simp at ht
  next => split at ht <;> exact Option.some.inj ht ▸ hbusy (by simp)
  next => exact Option.some.inj ht ▸ hbusy (by simp)
  next => exact Option.some.inj ht ▸ hinstall (by simp) (by simp)
  next => exact Option.some.inj ht ▸ hbusy (by simp)
  next hpc =>
    simp only [PhaseOk, hpc] at hphase
    exact Option.some.inj ht ▸ hempty (hi.quiet (by simp [hpc])) hphase.1
  next => exact Option.some.inj ht ▸ hbusy (by simp)
  next => exact Option.some.inj ht ▸ hinstall (by simp) (by simp)
  next hpc =>
    simp only [PhaseOk, hpc] at hphase
    exact Option.some.inj ht ▸ hempty (hi.quiet (by simp [hpc])) hphase.1

theorem space_act {a : Act} (hi : Inv mkfsSuper base s) (ha : Atomic s) (h : Space s)
    (hb : Budget 9 s a) (ht : act mkfsSuper s a = some t) : Space t := by
  cases a with
  | beginOp =>
    simp only [act] at ht
    obtain ⟨hrec, ht⟩ := Option.ite_none_left_eq_some.mp ht
    exact space_beginOp hi h (by simpa using hrec) ht
  | logWrite u =>
    simp only [act] at ht
    obtain ⟨hu, ht⟩ := Option.ite_none_right_eq_some.mp ht
    exact space_logWrite hi ha h hu.1 hb ht
  | endOp op =>
    simp only [act] at ht
    obtain ⟨hop, ht⟩ := Option.ite_none_right_eq_some.mp ht
    exact space_endOp hi h hop ht
  | advance => exact space_advance hi ht
  | crash => exact Option.some.inj ht ▸ ⟨fun h => by simp [crash] at h, fun h => by simp [crash] at h⟩

theorem budget_space (h : (machine mkfsSuper base).Reach (Budget 9) s) : Space s := by
  refine Machine.Reach.invariant ?_ (fun s a t reach hs hb ht => ?_) h
  · rintro _ ⟨_, rfl⟩
    exact ⟨fun h => by simp [boot] at h, fun h => by simp [boot] at h⟩
  · have hreach : (machine mkfsSuper base).Reachable s := reach.mono fun _ _ _ => trivial
    exact space_act (reachable_inv hreach) (reachable_atomic hreach) hs hb ht

def threeOps : List Act :=
  List.replicate 3 .advance ++ List.replicate 3 .beginOp ++
  (List.range 29).map fun i => .logWrite ⟨i / 10, 100 + i, fun _ => 0⟩

def lastWrite : Update := ⟨2, 129, fun _ => 0⟩

theorem threeOps_full : ∃ s, (machine mkfsSuper fun _ _ => 0).Reach (Budget MAXOPBLOCKS) s ∧
    lastWrite.op ∈ s.active ∧ Budget MAXOPBLOCKS s (.logWrite lastWrite) ∧ TooBig mkfsSuper s := by
  have hmeets : (machine mkfsSuper fun _ _ => 0).Meets (Budget MAXOPBLOCKS)
      (boot fun _ _ => 0) threeOps := by decide +kernel
  have hview : ((machine mkfsSuper fun _ _ => 0).run (boot fun _ _ => 0) threeOps).map (fun s =>
      decide (lastWrite.op ∈ s.active ∧ Budget MAXOPBLOCKS s (.logWrite lastWrite) ∧
        TooBig mkfsSuper s)) = some true := by decide +kernel
  obtain ⟨s, hs, hv⟩ := Option.map_eq_some_iff.mp hview
  exact ⟨s, Machine.Reach.of_run (.start ⟨rfl, rfl⟩) hmeets hs, of_decide_eq_true hv⟩

/-- Operations within a budget of `B` blocks never make `log_write` panic exactly when `B` is below what
`begin_op` reserves. -/
theorem log_write_fits_iff (B : Nat) : (∀ base s u, (machine mkfsSuper base).Reach (Budget B) s → u.op ∈ s.active →
      Budget B s (.logWrite u) → ¬ TooBig mkfsSuper s) ↔ B < MAXOPBLOCKS := by
  constructor
  · intro hfits
    by_contra hB
    obtain ⟨s, hreach, hop, hlast, hbig⟩ := threeOps_full
    have hmono : ∀ v a, Budget MAXOPBLOCKS v a → Budget B v a := by
      intro v a ha
      cases a with
      | logWrite u => exact Nat.le_trans ha (Nat.le_of_not_lt hB)
      | _ => trivial
    exact hfits _ s lastWrite (hreach.mono hmono) hop (hmono s _ hlast) hbig
  · intro hB base s u hreach hop _ hbig
    have hmono : ∀ v a, Budget B v a → Budget 9 v a := by
      intro v a ha
      cases a with
      | logWrite u => exact Nat.le_trans ha (Nat.le_of_lt_succ hB)
      | _ => trivial
    have hspace := budget_space (hreach.mono hmono)
    have hidle := idle_of_active (reachable_inv (hreach.mono fun _ _ _ => trivial)) hop
    have hbound := hspace.bound hidle
    simp only [TooBig, LOGSIZE, MAXOPBLOCKS, mkfsSuper] at hbig
    omega

/-- Three operations of ten blocks each fill the reservation of 30, but the log has room for 29. -/
theorem full_budgets_overflow :
    ¬ ∀ base s u, (machine mkfsSuper base).Reach (Budget MAXOPBLOCKS) s → u.op ∈ s.active →
      Budget MAXOPBLOCKS s (.logWrite u) → ¬ TooBig mkfsSuper s := by
  intro hfits
  obtain ⟨s, hreach, hop, hlast, hbig⟩ := threeOps_full
  exact hfits _ s lastWrite hreach hop hlast hbig

end TweakedXv6.Log
