import Mathlib.Data.Finset.Card
import TweakedXv6.MlfqSweeps

namespace TweakedXv6.Mlfq

open Sweep (kept taken Spread)
open Function (update update_self update_apply update_of_ne)

def State.old (s : State) (p : Nat) : Bool := s.ticks - (s.proc p).cqueueEnterTime > 20

def State.staying (s : State) (q : Nat) : List Nat :=
  if q = 0 then s.queues.list 0 else (s.queues.list q).filter (!s.old ·)

def State.rising (s : State) (q : Nat) : List Nat :=
  if q = 0 ∨ 5 ≤ q then [] else (s.queues.list q).filter s.old

def AgeOk (s : State) : Prop :=
  ∃ t, age s = some t ∧ (∀ q < 5, t.queues.list q = s.staying q ++ s.rising (q + 1)) ∧
    ∀ q, 1 ≤ q → q < 5 → ∀ p ∈ t.queues.list q, t.old p = false

def State.lengthAt (s : State) (q r : Nat) : Nat :=
  if r + 1 < q then (s.staying r).length + (s.rising (r + 1)).length
  else if r = q then (s.staying q).length
  else (s.queues.list r).length

/-- No two over-age processes are neighbours, and when the last one of a queue moves up, no queue is
shorter than the one it moves to. -/
def AgeFits (s : State) : Prop :=
  (∀ q, 1 ≤ q → q < 5 → Spread s.old (s.queues.list q)) ∧
  ∀ q, 1 ≤ q → q < 5 → s.rising q ≠ [] → ∀ r < 5, r + 1 ≠ q →
    (s.staying (q - 1)).length + (s.rising q).length ≤ s.lengthAt q r + 1

def Nulls (q : Nat) (qs : Queues) : Prop :=
  ∀ r < 5, (r = 4 → q = 4 → qs.size 0 ≠ 0) → ∀ i, qs.size r ≤ i → i < NPROC → qs.at r i = none

/-- The queues hold processes of the table, each in one slot and with its own pid, and the unused slots
are null. -/
structure Tidy (q : Nat) (s : State) : Prop where
  ok : s.queues.Ok
  apart : Apart s.queues.list
  lt : ∀ r < 5, ∀ p ∈ s.queues.list r, p < NPROC
  pids : ∀ r < 5, ∀ r' < 5, ∀ p ∈ s.queues.list r, ∀ p' ∈ s.queues.list r', s.pids p = s.pids p' → p = p'
  nulls : Nulls q s.queues

def ageAct (q : Nat) (s : State) (p : Nat) : Option State := do
  let s ← purgeAct q s p
  (s.setProc p { s.proc p with
    cqueueEnterTime := s.ticks, cqueueTime := 0, cqueue := .ofNat (q - 1),
    changeQueueFlag := 0, mlfqWtime := 0 }).push p (q - 1)

def ageRow (s : State) (q : Nat) : Option State := (List.range (s.queues.size q)).foldlM (ageSlot q) s

variable {s t : State} {qs : Queues} {L : Nat → List Nat} {pid : Nat → Int} {p q r i j k m n : Nat}
  {done rest l as bs : List Nat}

theorem ageSlot_eq : ageSlot q = sweepSlot State.old (ageAct q) q := by
  funext s j
  unfold ageSlot sweepSlot
  cases s.queues.at q j with
  | none => rfl
  | some p => simp only [State.old, ageAct, purgeAct, decide_eq_true_eq]

theorem mem_scanned {a : Nat} : a ∈ scanned n ↔ ∃ j < 5, ∃ i < n, a = j * NPROC + i := by
  simp only [scanned, List.mem_flatMap, List.mem_range, List.mem_map]
  constructor
  · rintro ⟨j, hj, i, hi, rfl⟩
    exact ⟨j, hj, i, hi, rfl⟩
  · rintro ⟨j, hj, i, hi, rfl⟩
    exact ⟨j, hj, i, hi, rfl⟩

theorem findPid_false (h : ∀ a ∈ as, ∃ k, qs.slot a = some k ∧ pid k ≠ pid p) : findPid qs pid p as = some false := by
  induction as with
  | nil => rfl
  | cons a as ih =>
    obtain ⟨k, hk, hne⟩ := h a List.mem_cons_self
    rw [findPid, hk]
    simp only [hne, if_false]
    exact ih fun b hb => h b (List.mem_cons_of_mem a hb)

theorem findPid_none (hno : ∀ a ∈ as, ∀ k, qs.slot a = some k → pid k ≠ pid p)
    (hnull : ∃ a ∈ as, qs.slot a = none) : findPid qs pid p (as ++ bs) = none := by
  induction as with
  | nil =>
    obtain ⟨a, ha, _⟩ := hnull
    cases ha
  | cons a as ih =>
    rw [List.cons_append, findPid]
    cases ha : qs.slot a with
    | none => rfl
    | some k =>
      have hne := hno a List.mem_cons_self k ha
      simp only [hne, if_false]
      refine ih (fun b hb => hno b (List.mem_cons_of_mem a hb)) ?_
      obtain ⟨b, hb, hbn⟩ := hnull
      rcases List.mem_cons.mp hb with rfl | hb
      · rw [ha] at hbn
        cases hbn
      · exact ⟨b, hb, hbn⟩

theorem push_search (h : Lists qs L) (hk : k < 5) (hlt : (L k).length < NPROC) : pushToQueue qs pid p k =
    (findPid qs pid p (scanned (L k).length)).map fun found => (if found then qs else qs.append p k, 1) := by
  have hneg : ¬ ((k : Int) < 0) := by omega
  have hat : qs.sizeAt k = (L k).length := by simp [Queues.sizeAt, hneg, h.size k hk]
  unfold pushToQueue
  rw [hat, if_neg (by omega), Int.toNat_natCast]
  cases findPid qs pid p (scanned (L k).length) with
  | none => rfl
  | some found => cases found <;> rfl

theorem push_appends (h : Lists qs L) (hk : k < 5) (hlt : (L k).length < NPROC)
    (hno : ∀ r < 5, ∀ y ∈ L r, pid y ≠ pid p) (hall : ∀ r < 5, (L k).length ≤ (L r).length) :
    pushToQueue qs pid p k = some (qs.append p k, 1) := by
  have hfind : findPid qs pid p (scanned (L k).length) = some false := by
    refine findPid_false fun a ha => ?_
    obtain ⟨j, hj, i, hi, rfl⟩ := mem_scanned.mp ha
    have hi : i < (L j).length := Nat.lt_of_lt_of_le hi (hall j hj)
    refine ⟨(L j)[i], ?_, hno j hj _ (List.getElem_mem hi)⟩
    rw [← List.getElem?_eq_getElem hi, ← h.entry j hj i hi]
    rfl
  rw [push_search h hk hlt, hfind]
  rfl

theorem scanned_split (n : Nat) : scanned n =
    ((List.range 4).flatMap fun j => (List.range n).map fun i => j * NPROC + i) ++
      (List.range n).map fun i => 4 * NPROC + i := by
  rw [scanned, List.range_succ, List.flatMap_append]
  simp

theorem push_faults (h : Lists qs L) (hk : k < 5) (hlt : (L k).length < NPROC)
    (hno : ∀ r < 5, ∀ y ∈ L r, pid y ≠ pid p) (hnulls : Nulls q qs) (hr : r < 5)
    (hshort : (L r).length < (L k).length) : pushToQueue qs pid p k = none := by
  -- a slot of a row whose unused slots are null
  have hslot : ∀ j < 5, (j = 4 → q = 4 → qs.size 0 ≠ 0) → ∀ i < (L k).length, ∀ x,
      qs.slot (j * NPROC + i) = some x → pid x ≠ pid p := by
    intro j hj hrow i hi x hx
    by_cases hij : i < (L j).length
    · have hx' : (L j)[i]? = some x := (h.entry j hj i hij).symm.trans hx
      exact hno j hj x (List.mem_of_getElem? hx')
    · have := hnulls j hj hrow i (by rw [h.size j hj]; omega) (by omega)
      rw [Queues.at, hx] at this
      cases this
  have hnull : ∀ j < 5, (j = 4 → q = 4 → qs.size 0 ≠ 0) → (L j).length < (L k).length →
      qs.slot (j * NPROC + (L j).length) = none := by
    intro j hj hrow hlen
    exact hnulls j hj hrow _ (by rw [h.size j hj]) (by omega)
  have hfind : findPid qs pid p (scanned (L k).length) = none := by
    by_cases hall : q = 4 → qs.size 0 ≠ 0
    · rw [← List.append_nil (scanned _)]
      refine findPid_none (fun a ha x hx => ?_) ⟨_, mem_scanned.mpr ⟨r, hr, _, hshort, rfl⟩, ?_⟩
      · obtain ⟨j, hj, i, hi, rfl⟩ := mem_scanned.mp ha
        exact hslot j hj (fun _ => hall) i hi x hx
      · exact hnull r hr (fun _ => hall) hshort
    · -- queue 0 is empty, so that its first slot is null
      simp only [Classical.not_imp, not_not] at hall
      have h0 : (L 0).length = 0 := by rw [← h.size 0 (by decide)]; exact hall.2
      have hfirst := hnull 0 (by decide) (fun he => by cases he) (by omega)
      rw [scanned_split]
      refine findPid_none (fun a ha x hx => ?_) ⟨_, ?_, hfirst⟩
      · simp only [List.mem_flatMap, List.mem_range, List.mem_map] at ha
        obtain ⟨j, hj, i, hi, rfl⟩ := ha
        exact hslot j (by omega) (by omega) i hi x hx
      · simp only [List.mem_flatMap, List.mem_range, List.mem_map]
        exact ⟨0, by decide, _, by omega, rfl⟩
  rw [push_search h hk hlt, hfind, Option.map_none]

theorem mem_of_full (hnd : l.Nodup) (hlt : ∀ x ∈ l, x < NPROC) (hfull : l.length = NPROC) (hp : p < NPROC) :
    p ∈ l := by
  have hsub : l.toFinset ⊆ Finset.range NPROC := by
    intro x hx
    exact Finset.mem_range.mpr (hlt x (List.mem_toFinset.mp hx))
  have hcard : (Finset.range NPROC).card ≤ l.toFinset.card := by
    rw [Finset.card_range, List.toFinset_card_of_nodup hnd, hfull]
  have := Finset.eq_of_subset_of_card_le hsub hcard
  rw [← List.mem_toFinset, this]
  exact Finset.mem_range.mpr hp

theorem Tidy.full (h : Tidy k s) (hq : q < 5) (hr : r < 5) (hne : r ≠ q)
    (hfull : (s.queues.list q).length = NPROC) : s.queues.list r = [] := by
  refine List.eq_nil_iff_forall_not_mem.mpr fun x hx => ?_
  have hmem := mem_of_full (h.apart.nodup q hq) (h.lt q hq) hfull (h.lt r hr x hx)
  exact h.apart.disjoint r hr q hq hne x hx hmem

theorem Tidy.ownPids (h : Tidy k s) (hq : q < 5) : OwnPids s (s.queues.list q) :=
  (List.nodup_map_iff_inj_on (h.apart.nodup q hq)).mpr fun x hx y hy he => h.pids q hq q hq x hx y hy he

theorem close_at_of_ne (h : qs.Ok) (hq : q < 5) (hne : r ≠ q) (hi : i < NPROC) :
    (qs.close q j).at r i = qs.at r i := by
  have hle := h.le q hq
  rw [Queues.at, close_slot, if_neg, Queues.at]
  simp only [NPROC] at hle hi ⊢
  omega

theorem Tidy.close_nulls (h : Tidy q s) (hq : q < 5) (hj : j < s.queues.size q) : Nulls q (s.queues.close q j) := by
  have hle := h.ok.le q hq
  intro r hr hrow i hi hlt
  by_cases hne : r = q
  · subst hne
    have hsize : (s.queues.close r j).size r = s.queues.size r - 1 := by simp [Queues.close]
    rw [hsize] at hi
    by_cases hfull : s.queues.size r = NPROC
    · -- the slot behind a full row is the first one of the next row, which is empty
      have hlist : (s.queues.list r).length = NPROC := by rw [← h.ok.lists.size r hr, hfull]
      have hempty : ∀ r' < 5, r' ≠ r → s.queues.size r' = 0 := by
        intro r' hr' hne'
        rw [h.ok.lists.size r' hr', h.full hr hr' hne' hlist]
        rfl
      by_cases h4 : r = 4
      · subst h4
        refine absurd ?_ (hrow rfl rfl)
        have := hempty 0 (by decide) (by decide)
        simpa [Queues.close] using this
      · have hnext := h.nulls (r + 1) (by omega) (by omega) 0 (by rw [hempty (r + 1) (by omega) (by omega)])
          zero_lt_NPROC
        rw [Queues.at, close_slot, if_pos (by omega)]
        rw [← hnext, Queues.at]
        congr 1
        rw [Nat.add_mul]
        omega
    · have hrow' : r = 4 → r = 4 → s.queues.size 0 ≠ 0 := by
        intro h4 h4'
        have := hrow h4 h4'
        simpa [Queues.close, h4] using this
      by_cases hlast : i = s.queues.size r - 1
      · rw [Queues.at, close_slot, if_pos (by omega), Nat.add_assoc]
        exact h.nulls r hr hrow' (i + 1) (by omega) (by omega)
      · rw [Queues.at, close_slot, if_neg (by omega)]
        exact h.nulls r hr hrow' i (by omega) hlt
  · have hsize : (s.queues.close q j).size r = s.queues.size r := by simp [Queues.close, hne]
    rw [hsize] at hi
    rw [close_at_of_ne h.ok hq hne hlt]
    refine h.nulls r hr (fun h4 h4' => ?_) i hi hlt
    exact absurd (h4.trans h4'.symm) hne

theorem append_at (hk : k < 5) (hlt : qs.size k < NPROC) (hi : i < NPROC) (hne : r ≠ k ∨ i ≠ qs.size k) :
    (qs.append p k).at r i = qs.at r i := by
  have hneg : ¬ ((k : Int) < 0) := by omega
  have hne' : r * NPROC + i ≠ k * NPROC + qs.size k := by
    simp only [NPROC] at hlt hi ⊢
    omega
  simp only [Queues.at, Queues.append, hneg, if_false]
  exact update_of_ne hne' _ _

theorem append_size : (qs.append p k).size r = if r = k then qs.size k + 1 else qs.size r := by
  have hneg : ¬ ((k : Int) < 0) := by omega
  simp [Queues.append, hneg, update_apply]

theorem Nulls.append (h : Nulls q qs) (hk : k < 5) (hlt : qs.size k < NPROC) (h0 : k = 0 → q ≠ 4) :
    Nulls q (qs.append p k) := by
  intro r hr hrow i hi hin
  rw [append_size] at hi
  have hrow' : r = 4 → q = 4 → qs.size 0 ≠ 0 := by
    intro h4 hq4
    have := hrow h4 hq4
    rw [append_size] at this
    split at this
    next hk0 => exact absurd hq4 (h0 hk0.symm)
    next => exact this
  by_cases hrk : r = k
  · subst hrk
    rw [if_pos rfl] at hi
    rw [append_at hk hlt hin (.inr (by omega))]
    exact h r hr hrow' i (by omega) hin
  · rw [if_neg hrk] at hi
    rw [append_at hk hlt hin (.inl hrk)]
    exact h r hr hrow' i hi hin

def State.risen (s : State) (p q i : Nat) : State :=
  (s.without p q i).setProc p { (s.without p q i).proc p with
    cqueueEnterTime := s.ticks, cqueueTime := 0, cqueue := .ofNat (q - 1), changeQueueFlag := 0, mlfqWtime := 0 }

theorem risen_pids : (s.risen p q i).pids = s.pids := by
  funext k
  by_cases hk : k = p
  · subst hk
    simp [State.pids, State.risen, State.without, State.setProc]
  · simp [State.pids, State.risen, State.without, State.setProc, hk]

theorem risen_old : (s.risen p q i).old k = if k = p then false else s.old k := by
  by_cases hk : k = p
  · subst hk
    simp [State.old, State.risen, State.without, State.setProc]
  · simp [State.old, State.risen, State.without, State.setProc, hk]

theorem ageAct_eq (h : Tidy q s) (hq1 : 1 ≤ q) (hq : q < 5) (hl : s.queues.list q = done ++ p :: rest) :
    ageAct q s p = (pushToQueue (s.queues.close q done.length) s.pids p (q - 1 : Nat)).map fun r =>
      { s.risen p q done.length with queues := r.1 } := by
  have hcast : (q : Int) - 1 = (q - 1 : Nat) := by omega
  unfold ageAct
  rw [purgeAct_eq h.ok hq hl (h.ownPids hq), hcast, ← risen_pids (s := s) (p := p) (q := q) (i := done.length)]
  rfl

def State.less (s : State) (q : Nat) (l : List Nat) : Nat → List Nat := update s.queues.list q l

def State.moved (s : State) (q : Nat) (l : List Nat) (p : Nat) : Nat → List Nat :=
  update (s.less q l) (q - 1) (s.less q l (q - 1) ++ [p])

section Move

variable (h : Tidy q s) (hq1 : 1 ≤ q) (hq : q < 5) (hl : s.queues.list q = done ++ p :: rest)

include hl

theorem mem_row : p ∈ s.queues.list q := by
  rw [hl]
  simp

theorem less_sublist (r : Nat) : (s.less q (done ++ rest) r).Sublist (s.queues.list r) := by
  by_cases hr : r = q
  · rw [hr, State.less, update_self, hl]
    exact (List.sublist_cons_self p rest).append_left done
  · rw [State.less, update_of_ne hr]

include hq

theorem mem_of_moved (hr : r < 5) (hk : k ∈ s.moved q (done ++ rest) p r) : ∃ r' < 5, k ∈ s.queues.list r' := by
  by_cases hrq : r = q - 1
  · rw [hrq, State.moved, update_self, List.mem_append, List.mem_singleton] at hk
    rcases hk with hk | rfl
    · exact ⟨q - 1, by omega, (less_sublist hl _).subset hk⟩
    · exact ⟨q, hq, mem_row hl⟩
  · rw [State.moved, update_of_ne hrq] at hk
    exact ⟨r, hr, (less_sublist hl r).subset hk⟩

include h

theorem not_mem_less : ∀ r < 5, p ∉ s.less q (done ++ rest) r := by
  intro r hr hp
  by_cases hrq : r = q
  · have hnd := h.apart.nodup q hq
    rw [hl, List.nodup_append] at hnd
    rw [hrq, State.less, update_self, List.mem_append] at hp
    rcases hp with hp | hp
    · exact hnd.2.2 p hp p List.mem_cons_self rfl
    · exact (List.nodup_cons.mp hnd.2.1).1 hp
  · rw [State.less, update_of_ne hrq] at hp
    exact h.apart.disjoint r hr q hq hrq p hp (mem_row hl)

theorem pid_ne_of_less : ∀ r < 5, ∀ y ∈ s.less q (done ++ rest) r, s.pids y ≠ s.pids p := by
  intro r hr y hy he
  have := h.pids r hr q hq y ((less_sublist hl r).subset hy) p (mem_row hl) he
  exact not_mem_less h hq hl r hr (this ▸ hy)

include hq1

theorem less_room : (s.less q (done ++ rest) (q - 1)).length < NPROC := by
  have hup : q - 1 < 5 := by omega
  have hmem := mem_row hl
  rw [State.less, update_of_ne (by omega)]
  refine Nat.lt_of_le_of_ne (h.ok.lists.le (q - 1) hup) fun hfull => ?_
  rw [h.full hup hq (by omega) hfull] at hmem
  cases hmem

theorem Tidy.moved (ht : t.queues = (s.queues.close q done.length).append p (q - 1 : Nat))
    (hpids : t.pids = s.pids) : Tidy q t ∧ ∀ r < 5, t.queues.list r = s.moved q (done ++ rest) p r := by
  have hless : Lists (s.queues.close q done.length) (s.less q (done ++ rest)) := without_lists h.ok hq hl
  have hroom := less_room h hq1 hq hl
  have hlists : Lists t.queues (s.moved q (done ++ rest) p) := by
    rw [ht]
    exact hless.append (by omega) hroom p
  have hlist : ∀ r < 5, t.queues.list r = s.moved q (done ++ rest) p r := fun r hr => hlists.list_eq hr
  have hin : ∀ r < 5, ∀ x ∈ t.queues.list r, ∃ r' < 5, x ∈ s.queues.list r' := by
    intro r hr x hx
    rw [hlist r hr] at hx
    exact mem_of_moved hq hl hr hx
  refine ⟨⟨hlists.ok, ?_, fun r hr x hx => ?_, fun r hr r' hr' x hx y hy he => ?_, ?_⟩, hlist⟩
  · refine Apart.sublist ?_ fun r hr => by rw [hlist r hr]
    exact (h.apart.sublist fun r _ => less_sublist hl r).append (not_mem_less h hq hl)
  · obtain ⟨r', hr', hx'⟩ := hin r hr x hx
    exact h.lt r' hr' x hx'
  · obtain ⟨a, ha, hxa⟩ := hin r hr x hx
    obtain ⟨b, hb, hyb⟩ := hin r' hr' y hy
    rw [hpids] at he
    exact h.pids a ha b hb x hxa y hyb he
  · rw [ht]
    refine (h.close_nulls hq (row_at h.ok hq hl).1).append (by omega) ?_ (by omega)
    rw [hless.size (q - 1) (by omega)]
    exact hroom

theorem ageAct_step : ((∃ t, ageAct q s p = some t) ↔
      ∀ r < 5, (s.less q (done ++ rest) (q - 1)).length ≤ (s.less q (done ++ rest) r).length) ∧
    ∀ t, ageAct q s p = some t → Tidy q t ∧
      (∀ r < 5, t.queues.list r = s.moved q (done ++ rest) p r) ∧ t.pids = s.pids ∧
      ∀ k, t.old k = if k = p then false else s.old k := by
  have hless : Lists (s.queues.close q done.length) (s.less q (done ++ rest)) := without_lists h.ok hq hl
  have hroom := less_room h hq1 hq hl
  have hno := pid_ne_of_less h hq hl
  rw [ageAct_eq h hq1 hq hl]
  by_cases hall : ∀ r < 5, (s.less q (done ++ rest) (q - 1)).length ≤ (s.less q (done ++ rest) r).length
  · have hpush := push_appends hless (k := q - 1) (by omega) hroom hno hall
    rw [hpush]
    refine ⟨⟨fun _ => hall, fun _ => ⟨_, rfl⟩⟩, fun t ht => ?_⟩
    cases ht
    have hpids : ({ s.risen p q done.length with
        queues := (s.queues.close q done.length).append p (q - 1 : Nat) } : State).pids = s.pids := risen_pids
    obtain ⟨htidy, hlist⟩ := h.moved hq1 hq hl (t := { s.risen p q done.length with
        queues := (s.queues.close q done.length).append p (q - 1 : Nat) }) rfl hpids
    exact ⟨htidy, hlist, hpids, fun k => risen_old⟩
  · have hnone : pushToQueue (s.queues.close q done.length) s.pids p (q - 1 : Nat) = none := by
      simp only [not_forall, Nat.not_le] at hall
      obtain ⟨r, hr, hshort⟩ := hall
      exact push_faults hless (by omega) hroom hno (h.close_nulls hq (row_at h.ok hq hl).1) hr hshort
    rw [hnone]
    refine ⟨⟨?_, fun hr => absurd hr hall⟩, fun t ht => by cases ht⟩
    rintro ⟨t, ht⟩
    cases ht

end Move

/-- The room there has to be in queues of lengths `n` for `k` processes of queue `q` to move up one after
the other. -/
def Room (n : Nat → Nat) (q k : Nat) : Prop :=
  k = 0 ∨ ∀ r < 5, r + 1 ≠ q → n (q - 1) + k ≤ (if r = q then n q - k else n r) + 1

def movedLength (n : Nat → Nat) (q r : Nat) : Nat :=
  if r = q then n q - 1 else if r + 1 = q then n r + 1 else n r

theorem room_succ {n : Nat → Nat} (hq1 : 1 ≤ q) (hq : q < 5) :
    Room n q (k + 1) ↔ (∀ r < 5, n (q - 1) ≤ if r = q then n q - 1 else n r) ∧ Room (movedLength n q) q k := by
  have hup : movedLength n q (q - 1) = n (q - 1) + 1 := by
    rw [movedLength, if_neg (by omega), if_pos (by omega)]
  have hrow : movedLength n q q = n q - 1 := if_pos rfl
  have hother : ∀ r, r + 1 ≠ q → r ≠ q → movedLength n q r = n r := by
    intro r hr hrq
    rw [movedLength, if_neg hrq, if_neg hr]
  unfold Room
  rw [hup, hrow]
  constructor
  · rintro (h | h)
    · omega
    · refine ⟨fun r hr => ?_, .inr fun r hr hne => ?_⟩
      · by_cases hrq : r + 1 = q
        · rw [if_neg (by omega), show r = q - 1 by omega]
        · have := h r hr hrq
          split at this <;> split <;> omega
      · have := h r hr hne
        by_cases hrq : r = q
        · rw [if_pos hrq] at this ⊢
          omega
        · rw [if_neg hrq] at this ⊢
          rw [hother r hne hrq]
          omega
  · rintro ⟨hfirst, h⟩
    refine .inr fun r hr hne => ?_
    have hle := hfirst r hr
    rcases h with rfl | h
    · split at hle <;> split <;> omega
    · have := h r hr hne
      by_cases hrq : r = q
      · rw [if_pos hrq] at this ⊢
        omega
      · rw [if_neg hrq, hother r hne hrq] at this
        rw [if_neg hrq]
        omega

def State.length (s : State) (q : Nat) : Nat := (s.queues.list q).length

theorem less_length (hl : s.queues.list q = done ++ p :: rest) (r : Nat) :
    (s.less q (done ++ rest) r).length = if r = q then s.length q - 1 else s.length r := by
  unfold State.less State.length
  split
  next he =>
    rw [he, update_self, hl]
    simp
  next hne => rw [update_of_ne hne]

theorem moved_length (hq1 : 1 ≤ q) (hl : s.queues.list q = done ++ p :: rest) (r : Nat) :
    (s.moved q (done ++ rest) p r).length = movedLength s.length q r := by
  unfold State.moved movedLength
  by_cases hup : r + 1 = q
  · have hr : r = q - 1 := by omega
    rw [← hr, update_self, List.length_append, less_length hl]
    simp [hup, show r ≠ q by omega]
  · rw [update_of_ne (by omega), less_length hl]
    simp [hup]

theorem room_congr {n n' : Nat → Nat} (h : ∀ r < 5, n r = n' r) (hq : q < 5) : Room n q k ↔ Room n' q k := by
  unfold Room
  rw [h q hq, h (q - 1) (by omega)]
  refine or_congr_right (forall₃_congr fun r hr _ => ?_)
  rw [h r hr]

theorem age_acts (h : Tidy q s) (hq1 : 1 ≤ q) (hq : q < 5) (hnd : l.Nodup) (hin : ∀ x ∈ l, x ∈ s.queues.list q) :
    ((∃ t, l.foldlM (ageAct q) s = some t) ↔ Room s.length q l.length) ∧
    ∀ t, l.foldlM (ageAct q) s = some t → Tidy q t ∧ t.pids = s.pids ∧
      (∀ r < 5, r ≠ q → t.queues.list r = if r + 1 = q then s.queues.list r ++ l else s.queues.list r) ∧
      ∀ k, t.old k = if k ∈ l then false else s.old k := by
  induction l generalizing s with
  | nil =>
    refine ⟨⟨fun _ => .inl rfl, fun _ => ⟨s, rfl⟩⟩, fun t ht => ?_⟩
    cases ht
    exact ⟨h, rfl, fun r _ _ => by simp, fun k => by simp⟩
  | cons x l ih =>
    obtain ⟨done, rest, hl⟩ := List.append_of_mem (hin x List.mem_cons_self)
    obtain ⟨hx, hnd⟩ := List.nodup_cons.mp hnd
    obtain ⟨hreturns, hspec⟩ := ageAct_step h hq1 hq hl
    have hfirst : (∃ t, ageAct q s x = some t) ↔
        ∀ r < 5, s.length (q - 1) ≤ if r = q then s.length q - 1 else s.length r := by
      rw [hreturns]
      refine forall₂_congr fun r _ => ?_
      rw [less_length hl, less_length hl, if_neg (by omega)]
    rw [List.foldlM_cons, List.length_cons, room_succ hq1 hq, ← hfirst]
    cases ht : ageAct q s x with
    | none =>
      refine ⟨⟨fun ⟨_, hu⟩ => (by cases hu), fun ⟨⟨_, hu⟩, _⟩ => (by cases hu)⟩, fun _ hu => by cases hu⟩
    | some t =>
      obtain ⟨htidy, hlist, hpids, hold⟩ := hspec t ht
      have hrow : t.queues.list q = done ++ rest := by
        rw [hlist q hq, State.moved, update_of_ne (by omega), State.less, update_self]
      have hin' : ∀ y ∈ l, y ∈ t.queues.list q := by
        intro y hy
        have hmem := hin y (List.mem_cons_of_mem x hy)
        rw [hl, List.mem_append, List.mem_cons] at hmem
        rw [hrow, List.mem_append]
        rcases hmem with hmem | rfl | hmem
        · exact .inl hmem
        · exact absurd hy hx
        · exact .inr hmem
      have hlength : ∀ r < 5, t.length r = movedLength s.length q r := by
        intro r hr
        rw [State.length, hlist r hr, moved_length hq1 hl]
      obtain ⟨hret', hspec'⟩ := ih htidy hnd hin'
      refine ⟨?_, fun u hu => ?_⟩
      · rw [← room_congr hlength hq, ← hret']
        exact ⟨fun hu => ⟨⟨t, rfl⟩, hu⟩, fun hu => hu.2⟩
      · obtain ⟨hu1, hu2, hu3, hu4⟩ := hspec' u hu
        refine ⟨hu1, hu2.trans hpids, fun r hr hne => ?_, fun k => ?_⟩
        · rw [hu3 r hr hne, hlist r hr, State.moved]
          by_cases hup : r + 1 = q
          · have hr' : q - 1 = r := by omega
            rw [if_pos hup, if_pos hup, hr', update_self, State.less, update_of_ne hne]
            simp
          · rw [if_neg hup, if_neg hup, update_of_ne (by omega), State.less, update_of_ne hne]
        · rw [hu4 k, hold k]
          by_cases hk : k = x
          · simp [hk]
          · simp [hk]

theorem age_row (h : Tidy q s) (hq1 : 1 ≤ q) (hq : q < 5) : ((∃ t, ageRow s q = some t) ↔
      Room s.length q (taken s.old (s.queues.list q)).length) ∧
    ∀ t, ageRow s q = some t → Tidy q t ∧ t.pids = s.pids ∧
      (∀ r < 5, t.queues.list r = if r = q then kept s.old (s.queues.list q)
        else if r + 1 = q then s.queues.list r ++ taken s.old (s.queues.list q) else s.queues.list r) ∧
      ∀ k, t.old k = if k ∈ taken s.old (s.queues.list q) then false else s.old k := by
  have hnd : (taken s.old (s.queues.list q)).Nodup := by
    have := (Sweep.perm s.old (s.queues.list q)).nodup_iff.mpr (h.apart.nodup q hq)
    exact (List.nodup_append.mp this).2.1
  obtain ⟨hreturns, hspec⟩ := age_acts h hq1 hq hnd fun x hx => Sweep.mem_of_taken hx
  have hsweep := sweep_row State.old (ageAct q) (I := Tidy q) (s := s) (m := s.queues.size q)
    (fun _ ht => ht.ok) hq ?_ h (List.nil_append _).symm (Nat.le_of_eq (h.ok.lists.size q hq).symm)
  · unfold ageRow
    rw [List.range_eq_range', ageSlot_eq]
    rw [List.length_nil] at hsweep
    rw [hsweep.1]
    refine ⟨hreturns, fun t ht => ?_⟩
    obtain ⟨htidy, hpids, hlist, hold⟩ := hspec t ht
    refine ⟨htidy, hpids, fun r hr => ?_, hold⟩
    split
    next he => rw [he, (hsweep.2 t ht).2, List.nil_append]
    next hne => exact hlist r hr hne
  · intro t done x rest u ht hl hu
    obtain ⟨htidy, hlist, _, hold⟩ := (ageAct_step ht hq1 hq hl).2 u hu
    refine ⟨htidy, ?_, fun y hy => ?_⟩
    · rw [hlist q hq, State.moved, update_of_ne (by omega), State.less, update_self]
    · have hnd := ht.apart.nodup q hq
      rw [hl, List.nodup_append, List.nodup_cons] at hnd
      rw [hold y, if_neg]
      rintro rfl
      exact hnd.2.1.1 hy

def State.keep (s : State) (q : Nat) : List Nat :=
  if q = 0 then s.queues.list 0 else kept s.old (s.queues.list q)

def State.rise (s : State) (q : Nat) : List Nat :=
  if q = 0 ∨ 5 ≤ q then [] else taken s.old (s.queues.list q)

structure Stage (s : State) (n : Nat) (t : State) : Prop where
  tidy : Tidy n t
  pids : t.pids = s.pids
  list : ∀ r < 5, t.queues.list r =
    if r < n then s.keep r ++ s.rise (r + 1) else if r = n then s.keep r else s.queues.list r
  old : ∀ k, t.old k = true ↔ s.old k = true ∧ ∀ r ≤ n, k ∉ s.rise r

def State.stageLength (s : State) (q r : Nat) : Nat :=
  if r + 1 < q then (s.keep r).length + (s.rise (r + 1)).length
  else if r = q then (s.keep q).length
  else (s.queues.list r).length

def StageRoom (s : State) (q : Nat) : Prop :=
  s.rise q = [] ∨ ∀ r < 5, r + 1 ≠ q → (s.keep (q - 1)).length + (s.rise q).length ≤ s.stageLength q r + 1

theorem Tidy.next (h : Tidy q s) (hq : q < 4) : Tidy n s :=
  ⟨h.ok, h.apart, h.lt, h.pids, fun r hr _ => h.nulls r hr (by omega)⟩

theorem mem_of_rise (h : p ∈ s.rise q) : 1 ≤ q ∧ q < 5 ∧ p ∈ s.queues.list q := by
  unfold State.rise at h
  split at h
  next => cases h
  next hq => exact ⟨by omega, by omega, Sweep.mem_of_taken h⟩

theorem Stage.start (h : Tidy 0 s) : Stage s 0 s := by
  refine ⟨h, rfl, fun r _ => ?_, fun k => ⟨fun hk => ⟨hk, fun r hr hmem => ?_⟩, fun hk => hk.1⟩⟩
  · by_cases hr : r = 0
    · subst hr
      rfl
    · rw [if_neg (Nat.not_lt_zero r), if_neg hr]
  · have := (mem_of_rise hmem).1
    omega

theorem Stage.sweep_eq (h : Tidy 0 s) (ht : Stage s n t) (hn : n < 4) :
    t.queues.list (n + 1) = s.queues.list (n + 1) ∧ kept t.old (t.queues.list (n + 1)) = s.keep (n + 1) ∧
      taken t.old (t.queues.list (n + 1)) = s.rise (n + 1) := by
  have hlist : t.queues.list (n + 1) = s.queues.list (n + 1) := by
    rw [ht.list (n + 1) (by omega), if_neg (by omega), if_neg (by omega)]
  have hcongr : kept t.old (s.queues.list (n + 1)) = kept s.old (s.queues.list (n + 1)) ∧
      taken t.old (s.queues.list (n + 1)) = taken s.old (s.queues.list (n + 1)) := Sweep.congr fun k hk => ?_
  · rw [hlist, hcongr.1, hcongr.2, State.keep, State.rise, if_neg (by omega), if_neg (by omega)]
    exact ⟨rfl, rfl, rfl⟩
  · rw [Bool.eq_iff_iff, ht.old]
    refine ⟨fun hk' => hk'.1, fun hk' => ⟨hk', fun r hr hmem => ?_⟩⟩
    obtain ⟨_, hr5, hmem⟩ := mem_of_rise hmem
    exact h.apart.disjoint r hr5 (n + 1) (by omega) (by omega) k hmem hk

theorem Stage.room_iff (h : Tidy 0 s) (ht : Stage s n t) (hn : n < 4) :
    Room t.length (n + 1) (s.rise (n + 1)).length ↔ StageRoom s (n + 1) := by
  obtain ⟨_, hkeep, hrise⟩ := ht.sweep_eq h hn
  have hsum : (s.keep (n + 1)).length + (s.rise (n + 1)).length = t.length (n + 1) := by
    rw [← hkeep, ← hrise]
    exact Sweep.length_add
  have hup : t.length n = (s.keep n).length := by
    rw [State.length, ht.list n (by omega), if_neg (Nat.lt_irrefl n), if_pos rfl]
  unfold Room StageRoom
  rw [List.length_eq_zero_iff, Nat.add_sub_cancel, hup]
  refine or_congr_right (forall₃_congr fun r hr hne => ?_)
  have hlen : (if r = n + 1 then t.length (n + 1) - (s.rise (n + 1)).length else t.length r) =
      s.stageLength (n + 1) r := by
    unfold State.stageLength
    by_cases hrq : r = n + 1
    · subst hrq
      rw [if_pos rfl, if_neg (by omega), if_pos rfl]
      omega
    · rw [if_neg hrq, State.length, ht.list r hr]
      by_cases hlt : r < n
      · rw [if_pos hlt, if_pos (by omega), List.length_append]
      · rw [if_neg hlt, if_neg (by omega), if_neg (by omega), if_neg hrq]
  rw [hlen]

theorem Stage.next {u : State} (h : Tidy 0 s) (ht : Stage s n t) (hn : n < 4)
    (hu : ageRow t (n + 1) = some u) : Stage s (n + 1) u := by
  obtain ⟨_, hkeep, hrise⟩ := ht.sweep_eq h hn
  obtain ⟨htidy, hpids, hlist, hold⟩ :=
    (age_row (ht.tidy.next hn) (Nat.le_add_left 1 n) (by omega)).2 u hu
  rw [hkeep, hrise] at hlist
  rw [hrise] at hold
  refine ⟨htidy, hpids.trans ht.pids, fun r hr => ?_, fun k => ?_⟩
  · rw [hlist r hr]
    by_cases hrq : r = n + 1
    · rw [if_pos hrq, if_neg (by omega), if_pos hrq, hrq]
    · rw [if_neg hrq, if_neg hrq, ht.list r hr]
      by_cases hrn : r = n
      · rw [if_pos (by omega), if_neg (by omega), if_pos hrn, if_pos (by omega), hrn]
      · rw [if_neg (by omega), if_neg hrn]
        by_cases hlt : r < n
        · rw [if_pos hlt, if_pos (by omega)]
        · rw [if_neg hlt, if_neg (by omega)]
  · rw [hold k]
    by_cases hk : k ∈ s.rise (n + 1)
    · rw [if_pos hk]
      exact ⟨fun hf => (by cases hf), fun hf => absurd hk (hf.2 (n + 1) (Nat.le_refl _))⟩
    · rw [if_neg hk, ht.old]
      refine and_congr_right fun _ => ⟨fun hno r hr => ?_, fun hno r hr => hno r (by omega)⟩
      by_cases hrn : r = n + 1
      · rwa [hrn]
      · exact hno r (by omega)

theorem age_stage (h : Tidy 0 s) (hn : n ≤ 4) : ((∃ t, (List.range' 1 n).foldlM ageRow s = some t) ↔
      ∀ q, 1 ≤ q → q ≤ n → StageRoom s q) ∧
    ∀ t, (List.range' 1 n).foldlM ageRow s = some t →
      Stage s n t := by
  induction n with
  | zero =>
    refine ⟨⟨fun _ q h1 h0 => by omega, fun _ => ⟨s, rfl⟩⟩, fun t ht => ?_⟩
    cases ht
    exact .start h
  | succ n ih =>
    obtain ⟨hreturns, hstage⟩ := ih (by omega)
    have hsplit : ∀ u, (List.range' 1 (n + 1)).foldlM ageRow s = some u ↔
        ∃ t, (List.range' 1 n).foldlM ageRow s = some t ∧
          ageRow t (n + 1) = some u := by
      intro u
      rw [List.range'_1_concat, List.foldlM_append, Option.bind_eq_bind, Option.bind_eq_some_iff]
      simp [Nat.add_comm]
    have hlast : ∀ t, Stage s n t →
        ((∃ u, ageRow t (n + 1) = some u) ↔ StageRoom s (n + 1)) := by
      intro t ht
      have hrow := (age_row (ht.tidy.next hn) (Nat.le_add_left 1 n) (by omega)).1
      rw [(ht.sweep_eq h hn).2.2, ht.room_iff h hn] at hrow
      exact hrow
    refine ⟨⟨fun ⟨u, hu⟩ q h1 hq => ?_, fun hroom => ?_⟩, fun u hu => ?_⟩
    · obtain ⟨t, ht, hu⟩ := (hsplit u).mp hu
      by_cases hqn : q = n + 1
      · rw [hqn]
        exact (hlast t (hstage t ht)).mp ⟨u, hu⟩
      · exact hreturns.mp ⟨t, ht⟩ q h1 (by omega)
    · obtain ⟨t, ht⟩ := hreturns.mpr fun q h1 hq => hroom q h1 (by omega)
      obtain ⟨u, hu⟩ := (hlast t (hstage t ht)).mpr (hroom (n + 1) (by omega) (Nat.le_refl _))
      exact ⟨u, (hsplit u).mpr ⟨t, ht, hu⟩⟩
    · obtain ⟨t, ht, hu⟩ := (hsplit u).mp hu
      exact (hstage t ht).next h hn hu

section Spread

variable (h : ∀ q, 1 ≤ q → q < 5 → Spread s.old (s.queues.list q))

include h

theorem keep_eq (hq : q < 5) : s.keep q = s.staying q := by
  unfold State.keep State.staying
  split
  next => rfl
  next hne => rw [(h q (by omega) hq).eq_filter.1]

theorem rise_eq (q : Nat) : s.rise q = s.rising q := by
  unfold State.rise State.rising
  split
  next => rfl
  next hne => rw [(h q (by omega) (by omega)).eq_filter.2]

theorem stageRoom_iff (hq : q < 5) : StageRoom s q ↔ (s.rising q ≠ [] → ∀ r < 5, r + 1 ≠ q →
      (s.staying (q - 1)).length + (s.rising q).length ≤ s.lengthAt q r + 1) := by
  have hlen : ∀ r < 5, s.stageLength q r = s.lengthAt q r := by
    intro r hr
    unfold State.stageLength State.lengthAt
    rw [keep_eq h hr, keep_eq h hq, rise_eq h]
  unfold StageRoom
  rw [rise_eq h, keep_eq h (by omega), or_iff_not_imp_left]
  refine imp_congr_right fun _ => forall₂_congr fun r hr => ?_
  rw [hlen r hr]

end Spread

theorem not_rise_of_keep (h : Tidy 0 s) (hq1 : 1 ≤ q) (hq : q < 5) (hp : p ∈ s.keep q) (r : Nat) : p ∉ s.rise r := by
  intro hr
  rw [State.keep, if_neg (by omega)] at hp
  obtain ⟨hr1, hr5, hmem⟩ := mem_of_rise hr
  by_cases hrq : r = q
  · subst hrq
    rw [State.rise, if_neg (by omega)] at hr
    have hnd := (Sweep.perm s.old (s.queues.list r)).nodup_iff.mpr (h.apart.nodup r hq)
    exact (List.nodup_append.mp hnd).2.2 p hp p hr rfl
  · exact h.apart.disjoint r hr5 q hq hrq p hmem (Sweep.mem_of_kept hp)

/-- The second sweep moves every over-age process up exactly when no two are neighbours and there is room
for the search of each push. -/
theorem ageOk_iff (h : Tidy 0 s) : AgeOk s ↔ AgeFits s := by
  obtain ⟨hreturns, hstage⟩ := age_stage h (Nat.le_refl 4)
  have hlists : ∀ t, Stage s 4 t → ∀ r < 5, t.queues.list r = s.keep r ++ s.rise (r + 1) := by
    intro t ht r hr
    rw [ht.list r hr]
    by_cases hr4 : r = 4
    · rw [if_neg (by omega), if_pos hr4, hr4]
      simp [State.rise]
    · rw [if_pos (by omega)]
  constructor
  · rintro ⟨t, ht, _, hclean⟩
    have hst := hstage t ht
    have hspread : ∀ q, 1 ≤ q → q < 5 → Spread s.old (s.queues.list q) := by
      intro q hq1 hq
      refine Sweep.spread_of_kept fun p hp => ?_
      have hkeep : p ∈ s.keep q := by rwa [State.keep, if_neg (by omega)]
      have hold := hclean q hq1 hq p (by rw [hlists t hst q hq]; exact List.mem_append_left _ hkeep)
      by_contra hne
      rw [Bool.not_eq_false] at hne
      rw [(hst.old p).mpr ⟨hne, fun r _ => not_rise_of_keep h hq1 hq hkeep r⟩] at hold
      cases hold
    refine ⟨hspread, fun q hq1 hq => ?_⟩
    exact (stageRoom_iff hspread hq).mp (hreturns.mp ⟨t, ht⟩ q hq1 (by omega))
  · rintro ⟨hspread, hroom⟩
    obtain ⟨t, ht⟩ := hreturns.mpr fun q hq1 hq => (stageRoom_iff hspread (by omega)).mpr (hroom q hq1 (by omega))
    have hst := hstage t ht
    have hlist : ∀ q < 5, t.queues.list q = s.staying q ++ s.rising (q + 1) := by
      intro q hq
      rw [hlists t hst q hq, keep_eq hspread hq, rise_eq hspread]
    refine ⟨t, ht, hlist, fun q hq1 hq p hp => ?_⟩
    rw [hlist q hq, List.mem_append] at hp
    by_contra hne
    rw [Bool.not_eq_false] at hne
    obtain ⟨hold, hrise⟩ := (hst.old p).mp hne
    rcases hp with hp | hp
    · rw [State.staying, if_neg (by omega), List.mem_filter, hold] at hp
      exact Bool.noConfusion hp.2
    · rw [← rise_eq hspread] at hp
      exact hrise (q + 1) (by have := (mem_of_rise hp).2.1; omega) hp

/-- Both sweeps do what they are for exactly when the processes they look for are spread and there is
room. -/
theorem sweeps_iff (h : Tidy 0 s) : (PurgeOk s ↔ ∀ q < 5, Spread s.gone (s.queues.list q)) ∧ (AgeOk s ↔ AgeFits s) :=
  ⟨purgeOk_iff h.ok fun _ hq => h.ownPids hq, ageOk_iff h⟩

def inQueueOne (late : Nat → Bool) : State :=
  { boot 0 with
    proc := fun k => { state := if late k then .sleeping else .runnable, pid := k + 1, cqueue := 1,
                       cqueueEnterTime := if late k then 0 else 30 }
    queues := { slot := fun a => if a = 64 then some 0 else if a = 65 then some 1 else none,
                size := fun q => if q = 1 then 2 else 0, sizeBelow := 0 }
    ticks := 30 }

theorem inQueueOne_list (late : Nat → Bool) (q : Nat) :
    (inQueueOne late).queues.list q = if q = 1 then [0, 1] else [] := by
  by_cases hq : q = 1
  · subst hq
    rfl
  · simp [inQueueOne, Queues.list, hq]

theorem tidy_inQueueOne (late : Nat → Bool) : Tidy 0 (inQueueOne late) := by
  have hlist := inQueueOne_list late
  refine ⟨⟨?_, ?_⟩, ⟨?_, ?_⟩, ?_, ?_, ?_⟩
  · intro q _
    change (if q = 1 then 2 else 0) ≤ NPROC
    split <;> decide
  · intro q _ i hi
    change i < (if q = 1 then 2 else 0) at hi
    have hcase : q = 1 ∧ (i = 0 ∨ i = 1) := by split at hi <;> omega
    rcases hcase with ⟨rfl, rfl | rfl⟩
    · exact Option.some_ne_none 0
    · exact Option.some_ne_none 1
  · intro q _
    rw [hlist]
    split <;> decide
  · intro q _ q' _ hne p hp hp'
    rw [hlist] at hp hp'
    split at hp
    · rw [if_neg (by omega)] at hp'
      cases hp'
    · cases hp
  · intro q _ p hp
    rw [hlist] at hp
    split at hp
    · simp only [List.mem_cons, List.not_mem_nil, or_false] at hp
      simp only [NPROC]
      omega
    · cases hp
  · intro q _ q' _ p _ p' _ he
    have he : (p : Int) + 1 = p' + 1 := he
    omega
  · intro r hr _ i hi hin
    change (if r = 1 then 2 else 0) ≤ i at hi
    have hne : r * NPROC + i ≠ 64 ∧ r * NPROC + i ≠ 65 := by
      simp only [NPROC] at hin ⊢
      split at hi <;> omega
    exact (if_neg hne.1).trans (if_neg hne.2)

theorem sweeps_iff_one : Tidy 0 (inQueueOne (· == 0)) ∧ PurgeOk (inQueueOne (· == 0)) ∧
    AgeOk (inQueueOne (· == 0)) := by
  have h := tidy_inQueueOne (· == 0)
  refine ⟨h, (sweeps_iff h).1.mpr (by decide), (sweeps_iff h).2.mpr ⟨?_, ?_⟩⟩
  · intro q hq1 hq
    rw [inQueueOne_list]
    split <;> decide
  · intro q hq1 hq hne r _ _
    by_cases hq1 : q = 1
    · subst hq1
      rw [show ((inQueueOne (· == 0)).staying (1 - 1)).length = 0 by decide,
        show ((inQueueOne (· == 0)).rising 1).length = 1 by decide]
      omega
    · refine absurd ?_ hne
      rw [State.rising, inQueueOne_list, if_neg hq1, List.filter_nil, ite_self]

/-- Of two neighbours that should go, the second takes the place of the first and is passed over, in both
sweeps. -/
theorem sweeps_pass_over : Tidy 0 (inQueueOne fun _ => true) ∧
    (∃ t, purge (inQueueOne fun _ => true) = some t ∧ t.queues.list 1 = [1] ∧ t.gone 1 = true) ∧
    (∃ t, age (inQueueOne fun _ => true) = some t ∧ t.queues.list 1 = [1] ∧ t.old 1 = true) ∧
    ¬ PurgeOk (inQueueOne fun _ => true) ∧ ¬ AgeOk (inQueueOne fun _ => true) := by
  have hpurge : ((purge (inQueueOne fun _ => true)).any fun t => t.queues.list 1 = [1] ∧ t.gone 1 = true) = true := by
    decide
  have hage : ((age (inQueueOne fun _ => true)).any fun t => t.queues.list 1 = [1] ∧ t.old 1 = true) = true := by
    decide
  obtain ⟨t, ht, hfacts⟩ := exists_of_any hpurge
  obtain ⟨u, hu, hfacts'⟩ := exists_of_any hage
  refine ⟨tidy_inQueueOne _, ⟨t, ht, hfacts⟩, ⟨u, hu, hfacts'⟩, ?_, ?_⟩
  · rintro ⟨t', ht', _, hclean⟩
    cases ht.symm.trans ht'
    have := hclean 1 (by decide) 1 (by rw [hfacts.1]; exact List.mem_cons_self)
    rw [hfacts.2] at this
    cases this
  · rintro ⟨u', hu', _, hclean⟩
    cases hu.symm.trans hu'
    have := hclean 1 (by decide) (by decide) 1 (by rw [hfacts'.1]; exact List.mem_cons_self)
    rw [hfacts'.2] at this
    cases this

end TweakedXv6.Mlfq
